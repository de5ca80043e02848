import Recalc.Proofs.Graph.Freshness
import Recalc.Proofs.Graph.Session

/-!
# Stamps are unique

Each stamp is issued once, but a node that is removed inside a batch takes its stamp into the journal, and
undoing the batch gives the stamp back to a node of that name, while a node that was created meanwhile may
have been stamped as well. So stamps are followed through the nodes and the journal together: a name bears
the stamp of its node and the stamps of its removed nodes in the journal (`Bears`).

Operations other than stamping let no name bear a stamp that it did not bear before (`Inherits`), and the
new stamp is later than all of them. So no two names ever bear the same stamp (`Stamped`), and therefore
the check for staleness can go by the order of the stamps.
-/

namespace Recalc

namespace Graph

variable {g g' g'' : Graph} {n m name : String} {stamp : Stamp}

/-! ## Who bears a stamp -/

/-- The stamp belongs to the node of the name or to a removed one that undoing would bring back. -/
def Bears (g : Graph) (n : String) (stamp : Stamp) : Prop :=
  g.stampOf n = stamp ∨
    ∃ place node, .nodeRemoved n place node ∈ g.journal.getD [] ∧ node.stamp = stamp

/-- No clock was touched, and whatever stamp a name bears, it bore before. -/
structure Inherits (g g' : Graph) : Prop where
  clock : g'.clock = g.clock
  bears : ∀ n stamp, 0 < stamp → g'.Bears n stamp → g.Bears n stamp

namespace Inherits

theorem refl (g : Graph) : Inherits g g := ⟨rfl, fun _ _ _ h => h⟩

theorem trans (h : Inherits g g') (h' : Inherits g' g'') : Inherits g g'' :=
  ⟨h'.clock.trans h.clock, fun n stamp hpos hn => h.bears n stamp hpos (h'.bears n stamp hpos hn)⟩

/-- A graph inherits if its nodes have their stamps from before, or none, and its journal is no longer. -/
theorem of_stampOf (hclock : g'.clock = g.clock)
    (hstamp : ∀ n, 0 < g'.stampOf n → g.Bears n (g'.stampOf n))
    (hjournal : g'.journal.getD [] ⊆ g.journal.getD []) : Inherits g g' where
  clock := hclock
  bears := by
    rintro n _ hpos (rfl | ⟨place, node, hmem, rfl⟩)
    · exact hstamp n hpos
    · exact Or.inr ⟨place, node, hjournal hmem, rfl⟩

/-- Changing no stamp at all inherits. -/
theorem of_stampOf_eq (hclock : g'.clock = g.clock) (hstamp : ∀ n, g'.stampOf n = g.stampOf n)
    (hjournal : g'.journal.getD [] ⊆ g.journal.getD []) : Inherits g g' :=
  of_stampOf hclock (fun n _ => Or.inl (hstamp n).symm) hjournal

/-! ## The elementary changes -/

/-- `Graph.attach` of a new node inherits: the node has no stamp. -/
theorem attach (g : Graph) (place : Nat) (name : String) :
    Inherits g (g.attach place name {}).value := by
  apply of_stampOf (clock_attach g place name {})
  · intro n hpos
    unfold stampOf at hpos ⊢
    rw [mark?_attach] at hpos ⊢
    split_ifs at hpos ⊢ with hn
    · exact absurd hpos (lt_irrefl 0)
    · exact Or.inl rfl
  · rw [journal_attach]
    exact List.Subset.refl _

/-- `Graph.detach` inherits: one name loses its stamp. -/
theorem detach (g : Graph) (name : String) : Inherits g (g.detach name).value := by
  apply of_stampOf (clock_detach g name)
  · intro n hpos
    unfold stampOf at hpos ⊢
    rw [mark?_detach] at hpos ⊢
    split_ifs at hpos ⊢ with hn
    · exact absurd hpos (lt_irrefl 0)
    · exact Or.inl rfl
  · rw [journal_detach]
    exact List.Subset.refl _

/-- `Graph.storeEdge` inherits, since it writes no stamp. -/
theorem storeEdge (g : Graph) (e : Edge) : Inherits g (g.storeEdge e).value := by
  have hframe := sameFrame_storeEdge e g
  apply of_stampOf_eq (g := g) hframe.clock fun n => stampOf_congr (mark?_storeEdge e g n)
  rw [hframe.journal]
  exact List.Subset.refl _

/-- `Graph.dropEdge` inherits, since it writes no stamp. -/
theorem dropEdge (g : Graph) (e : Edge) : Inherits g (g.dropEdge e).value := by
  have hframe := sameFrame_dropEdge e g
  apply of_stampOf_eq (g := g) hframe.clock fun n => stampOf_congr (mark?_dropEdge e g n)
  rw [hframe.journal]
  exact List.Subset.refl _

/-- Entering a change into the journal: a removed node is entered with a stamp that its name bore. -/
theorem record {c : Change} (h : Inherits g g')
    (hc : ∀ n place node, c = .nodeRemoved n place node → 0 < node.stamp → g.Bears n node.stamp) :
    Inherits g (g'.record c) where
  clock := h.clock
  bears := by
    rintro n _ hpos (rfl | ⟨place, node, hmem, rfl⟩)
    · exact h.bears n _ hpos (Or.inl rfl)
    · have hjournal : .nodeRemoved n place node ∈ c :: g'.journal.getD [] := by
        cases hj : g'.journal with
        | none => simp [Graph.record, hj] at hmem
        | some journal => simpa [Graph.record, hj] using hmem
      rcases List.mem_cons.1 hjournal with hnew | hold
      · exact hc n place node hnew.symm hpos
      · exact h.bears n _ hpos (Or.inr ⟨place, node, hold, rfl⟩)

/-! ## Undoing -/

/-- Undoing changes of the journal gives each name no stamp but those that it bore. -/
theorem undoAll {h : Graph} (changes : List Change) (hsub : changes ⊆ g.journal.getD [])
    (hh : Inherits g h) (hnone : h.journal = none) : Inherits g (h.undoAll changes) := by
  induction changes generalizing h with
  | nil => exact hh
  | cons c changes ih =>
    have hc : c ∈ g.journal.getD [] := hsub List.mem_cons_self
    refine ih (List.Subset.trans (List.subset_cons_self c changes) hsub) ?_
      ((journal_undo h c).trans hnone)
    cases c with
    | nodeAdded name => exact hh.trans (detach h name)
    | nodeRemoved name place node =>
      apply of_stampOf ((clock_undo h _).trans hh.clock)
      · intro n hpos
        have hmark : ((h.undo (.nodeRemoved name place node)).value).mark? n =
            if n = name then some (node.dirty, node.stamp) else h.mark? n :=
          mark?_attach place name h _ n
        unfold stampOf at hpos ⊢
        rw [hmark] at hpos ⊢
        split_ifs at hpos ⊢ with hn
        · exact Or.inr ⟨place, node, hn ▸ hc, rfl⟩
        · exact hh.bears n _ hpos (Or.inl rfl)
      · rw [journal_undo, hnone]
        exact List.nil_subset _
    | edgeAdded e =>
      show Inherits g (h.undo (.edgeAdded e)).value
      rw [undo_edgeAdded]
      split_ifs
      · exact hh.trans (dropEdge h e)
      · exact hh
    | edgeRemoved e =>
      show Inherits g (h.undo (.edgeRemoved e)).value
      rw [undo_edgeRemoved]
      split_ifs
      · exact hh
      · exact hh.trans (storeEdge h e)

/-- Closing a batch without undoing it drops what the journal kept. -/
theorem closed (g : Graph) : Inherits g { g with journal := none } :=
  of_stampOf_eq rfl (fun _ => rfl) (List.nil_subset _)

/-- Undoing the open batch inherits: a stamp that comes back was in the journal. -/
theorem settled (g : Graph) : Inherits g g.settled := by
  cases hj : g.journal with
  | none =>
    rw [settled_of_journal_eq_none hj]
    exact refl g
  | some journal =>
    rw [settled_of_journal_eq_some hj]
    refine undoAll journal ?_ (closed g) rfl
    rw [hj]
    exact List.Subset.refl journal

/-! ## Batches and guards -/

theorem beginBatch (g : Graph) : Inherits g g.beginBatch.1 := by
  cases hb : g.inBatch with
  | true =>
    rw [beginBatch_of_inBatch hb]
    exact refl g
  | false =>
    rw [beginBatch_of_not_inBatch hb]
    exact of_stampOf_eq rfl (fun _ => rfl) (List.nil_subset _)

/-- `Graph.endBatch` inherits, whether it keeps the batch or undoes it. -/
theorem endBatch (g : Graph) : Inherits g g.endBatch.value.1 := by
  cases hb : g.inBatch with
  | false =>
    rw [value_endBatch_of_not_inBatch hb]
    exact refl g
  | true =>
    cases hpath : g.findCycle? with
    | none =>
      rw [value_endBatch_of_acyclic hb hpath]
      exact closed g
    | some path =>
      rw [value_endBatch_of_cycle hb hpath]
      exact settled g

theorem abortBatch (g : Graph) : Inherits g g.abortBatch.value.1 := by
  cases hb : g.inBatch with
  | false =>
    rw [abortBatch_of_not_inBatch hb]
    exact refl g
  | true =>
    rw [value_abortBatch_of_inBatch hb]
    exact settled g

/-- Committing a guard inherits. -/
theorem commitGuard (g : Graph) (guard : BatchGuard) :
    Inherits g (g.commitGuard guard).value.1 := by
  unfold Graph.commitGuard
  split_ifs
  · exact endBatch g
  · exact refl g

/-- Dropping a guard inherits. -/
theorem discardGuard (g : Graph) (guard : BatchGuard) :
    Inherits g (g.discardGuard guard).value := by
  unfold Graph.discardGuard
  split_ifs
  · exact abortBatch g
  · exact refl g

/-- Inside a guard a step inherits as it does alone, whether it fails or not. -/
theorem guarded {α : Type} {step : Graph → Traced LinkSignal (Graph × Except CycleError α)}
    (hstep : ∀ g, Inherits g (step g).value.1) (g : Graph) :
    Inherits g (g.guarded step).value.1 := by
  have hopened := beginBatch g
  have hstepped := hstep g.beginBatch.1
  unfold Graph.guarded openGuard
  rw [Traced.value_bind]
  rcases hvalue : (step g.beginBatch.1).value with ⟨h, err | a⟩
  · rw [hvalue] at hstepped
    exact (hopened.trans hstepped).trans (discardGuard h ⟨g.beginBatch.2⟩)
  · rw [hvalue] at hstepped
    exact (hopened.trans hstepped).trans (commitGuard h ⟨g.beginBatch.2⟩)

/-! ## Structural changes -/

/-- An addition that is settled inherits if it and taking it back do. -/
theorem settle {c : Change} {takeBack : Graph → Traced LinkSignal Graph} (h : Inherits g g')
    (hback : Inherits g' (takeBack g').value) (hc : ∀ n place node, c ≠ .nodeRemoved n place node) :
    Inherits g (g'.settle c takeBack).value.1 := by
  cases hb : g'.inBatch with
  | true =>
    rw [value_settle_of_inBatch hb]
    exact h.record fun n place node hremoved => absurd hremoved (hc n place node)
  | false =>
    cases hpath : g'.findCycle? with
    | none =>
      rw [value_settle_of_acyclic hb hpath]
      exact h
    | some path =>
      rw [value_settle_of_cycle hb hpath]
      exact h.trans hback

/-- `Graph.addNode` inherits, refused or not. -/
theorem addNode (g : Graph) (name : String) : Inherits g (g.addNode name).value.1 := by
  by_cases hname : name ∈ g.names
  · rw [addNode_of_mem hname]
    exact refl g
  · rw [value_addNode hname]
    exact (attach g _ name).settle (detach _ name) fun _ _ _ h => nomatch h

/-- `Graph.addEdge` inherits, refused or not. -/
theorem addEdge (g : Graph) (e : Edge) : Inherits g (g.addEdge e).value.1 := by
  by_cases he : e ∈ g.edges.toList
  · rw [addEdge_of_mem he]
    exact refl g
  · rw [value_addEdge he]
    exact (storeEdge g e).settle (dropEdge _ e) fun _ _ _ h => nomatch h

/-- `Graph.removeNode` inherits: in a batch the stamp of the node goes to the journal. -/
theorem removeNode (g : Graph) (name : String) : Inherits g (g.removeNode name).value.1 := by
  by_cases hname : name ∈ g.names
  · obtain ⟨node, hnode⟩ := mem_names_iff.1 hname
    obtain ⟨place, hplace⟩ := indexOf?_of_mem hname
    rw [value_removeNode hnode hplace]
    refine (detach g name).record fun n place' node' hremoved _ => ?_
    cases hremoved
    exact Or.inl (stampOf_of_node? hnode)
  · rw [removeNode_of_not_mem hname]
    exact refl g

theorem removeEdge (g : Graph) (e : Edge) : Inherits g (g.removeEdge e).value.1 := by
  by_cases he : e ∈ g.edges.toList
  · rw [value_removeEdge he]
    exact (dropEdge g e).record fun _ _ _ h => nomatch h
  · rw [removeEdge_of_not_mem he]
    exact refl g

/-- Several additions inherit, up to the first one that is refused. -/
theorem addAll {α : Type} {add : Graph → α → Traced LinkSignal (Graph × Except CycleError Bool)}
    (hadd : ∀ g a, Inherits g (add g a).value.1) (as : List α) (g : Graph) :
    Inherits g (Graph.addAll add g as).value.1 := by
  induction as generalizing g with
  | nil => exact refl g
  | cons a as ih =>
    have hfirst := hadd g a
    rw [Graph.addAll, Traced.value_bind]
    rcases hvalue : (add g a).value with ⟨h, err | new⟩
    · rwa [hvalue] at hfirst
    · rw [hvalue] at hfirst
      exact hfirst.trans (ih h)

/-- Several removals inherit if single ones do. -/
theorem removeAll {α : Type} {remove : Graph → α → Traced LinkSignal (Graph × Bool)}
    (hremove : ∀ g a, Inherits g (remove g a).value.1) (as : List α) (g : Graph) :
    Inherits g (Graph.removeAll remove g as).value.1 :=
  removeAll_induction (P := Inherits g) (fun h a hh => hh.trans (hremove h a)) as (refl g)

/-! ## Marks -/

/-- `Graph.markClean` inherits, since it keeps every stamp. -/
theorem markClean (g : Graph) (name : String) : Inherits g (g.markClean name).1 :=
  of_stampOf_eq rfl (stampOf_markClean g name) (List.Subset.refl _)

/-- `Graph.reset` inherits: it keeps the clock and forgets every stamp. -/
theorem reset (g : Graph) : Inherits g g.reset :=
  of_stampOf rfl (fun _ hpos => absurd hpos (lt_irrefl 0)) (List.nil_subset _)

end Inherits

/-- `Graph.invalidate` inherits, since it keeps every stamp. -/
theorem WellFormed.inherits_invalidate (hg : g.WellFormed) (name : String) :
    Inherits g (g.invalidate name).1 := by
  have hmarked := hg.marked_invalidate name
  apply Inherits.of_stampOf_eq hmarked.clock hmarked.stampOf
  rw [hmarked.shape.journal]
  exact List.Subset.refl _

/-! ## Unique stamps -/

/-- No name bears a stamp that was not issued yet, and no two names bear the same one. -/
structure Stamped (g : Graph) : Prop where
  le_last : ∀ n stamp, g.Bears n stamp → stamp ≤ g.clock.last
  unique : ∀ n m stamp, 0 < stamp → g.Bears n stamp → g.Bears m stamp → n = m

namespace Stamped

/-- No node has a stamp later than the one issued last. -/
theorem stampOf_le_last (hg : g.Stamped) (n : String) : g.stampOf n ≤ g.clock.last :=
  hg.le_last n _ (Or.inl rfl)

/-- The empty graph is `Stamped`. -/
theorem empty : ({} : Graph).Stamped := by
  have hbears : ∀ n stamp, ({} : Graph).Bears n stamp → stamp = 0 := by
    rintro n _ (rfl | ⟨place, node, hmem, -⟩)
    · rfl
    · exact absurd hmem List.not_mem_nil
  constructor
  · intro n stamp hn
    rw [hbears n stamp hn]
    exact Nat.zero_le _
  · intro n m stamp hpos hn
    exact absurd (hbears n stamp hn) hpos.ne'

/-- Operations that inherit keep a graph `Stamped`. -/
theorem inherit (hg : g.Stamped) (h : Inherits g g') : g'.Stamped where
  le_last := by
    intro n stamp hn
    rcases Nat.eq_zero_or_pos stamp with rfl | hpos
    · exact Nat.zero_le _
    · rw [h.clock]
      exact hg.le_last n stamp (h.bears n stamp hpos hn)
  unique := fun n m stamp hpos hn hm =>
    hg.unique n m stamp hpos (h.bears n stamp hpos hn) (h.bears m stamp hpos hm)

/-- The stamp just issued belongs to nobody else. -/
theorem touch (hg : g.Stamped) (name : String) : (g.touch name).1.Stamped := by
  by_cases hname : name ∈ g.names
  · have hclock : (g.touch name).1.clock = ⟨g.clock.last + 1⟩ := by
      rw [clock_touch, if_pos hname]
    have hjournal := (sameShape_touch g name).journal
    -- What is borne afterwards is the new stamp, by the name, or was borne before.
    have hbears : ∀ n stamp, (g.touch name).1.Bears n stamp →
        (n = name ∧ stamp = g.clock.last + 1) ∨ g.Bears n stamp := by
      rintro n _ (rfl | ⟨place, node, hmem, rfl⟩)
      · by_cases hn : n = name
        · exact Or.inl ⟨hn, by rw [hn, stampOf_touch hname]⟩
        · exact Or.inr (Or.inl (stampOf_touch_of_ne hn).symm)
      · exact Or.inr (Or.inr ⟨place, node, hjournal ▸ hmem, rfl⟩)
    constructor
    · intro n stamp hn
      rw [hclock]
      rcases hbears n stamp hn with ⟨-, rfl⟩ | hold
      · exact le_refl _
      · exact Nat.le_succ_of_le (hg.le_last n stamp hold)
    · intro n m stamp hpos hn hm
      rcases hbears n stamp hn with ⟨rfl, rfl⟩ | holdn
      · rcases hbears m _ hm with ⟨rfl, -⟩ | holdm
        · rfl
        · exact absurd (hg.le_last m _ holdm) (Nat.not_succ_le_self _)
      · rcases hbears m stamp hm with ⟨-, rfl⟩ | holdm
        · exact absurd (hg.le_last n _ holdn) (Nat.not_succ_le_self _)
        · exact hg.unique n m stamp hpos holdn holdm
  · have hsame : (g.touch name).1 = g := by
      rw [Graph.touch, if_neg fun h => hname (hasNode_iff.1 h)]
    rwa [hsame]

end Stamped

/-! ## What the check for staleness answers -/

/-- A node has a stamp exactly if its record holds one other than `Stamp.never`. -/
theorem stampOf_pos_iff : 0 < g.stampOf n ↔ ∃ node, g.node? n = some node ∧ node.stamp ≠ Stamp.never := by
  cases hn : g.node? n with
  | none => simp [stampOf, mark?, hn, Stamp.never]
  | some node => simp [stampOf_of_node? hn, Stamp.never, Nat.pos_iff_ne_zero]

/-- The edges of a node all lead to nodes that were stamped, and before it. -/
theorem fresh_iff {node : Node} (hn : g.node? n = some node) :
    g.Fresh n ↔ node.stamp ≠ Stamp.never ∧ ∀ t, ⟨n, t⟩ ∈ g.edges.toList →
      ∃ target, g.node? t = some target ∧ target.stamp ≠ Stamp.never ∧ target.stamp < node.stamp := by
  rw [Fresh, stampOf_of_node? hn, Nat.pos_iff_ne_zero]
  refine and_congr_right fun _ => forall₂_congr fun t _ => ?_
  rw [stampOf_pos_iff]
  constructor
  · rintro ⟨⟨target, htarget, hstamp⟩, hlt⟩
    rw [stampOf_of_node? htarget] at hlt
    exact ⟨target, htarget, hstamp, hlt⟩
  · rintro ⟨target, htarget, hstamp, hlt⟩
    rw [stampOf_of_node? htarget]
    exact ⟨⟨target, htarget, hstamp⟩, hlt⟩

/-- What reads a node that was just stamped has to be evaluated. -/
theorem WellFormed.needsEvaluation_of_touched (hg : g.WellFormed) (hstamped : g.Stamped)
    (hname : name ∈ g.names) (hm : name ∈ (g.touch name).1.dependenciesOf m) :
    (g.touch name).1.needsEvaluation m = true := by
  have hg' := (sameShape_touch g name).wellFormed hg
  have hdepends := (hg'.mem_dependenciesOf m name).1 hm
  rw [← Bool.not_eq_false, hg'.needsEvaluation_eq_false_iff hdepends.2.1]
  intro hfresh
  have hlt := (hfresh.2 name hdepends.1).2
  have hle := (hstamped.touch name).stampOf_le_last m
  rw [clock_touch, if_pos hname] at hle
  rw [stampOf_touch hname] at hlt
  exact absurd hle (by simpa using hlt)

/-- A node that was just stamped has to be evaluated only for lack of a stamp among what it reads. -/
theorem WellFormed.needsEvaluation_touch_iff (hg : g.WellFormed) (hstamped : g.Stamped)
    (hname : name ∈ g.names) (hself : ⟨name, name⟩ ∉ g.edges.toList) :
    (g.touch name).1.needsEvaluation name = true ↔
      ∃ t, ⟨name, t⟩ ∈ (g.touch name).1.edges.toList ∧ (g.touch name).1.stampOf t = Stamp.never := by
  have hshape := sameShape_touch g name
  rw [← Bool.not_eq_false, (hshape.wellFormed hg).needsEvaluation_eq_false_iff (hshape.names ▸ hname),
    Fresh, stampOf_touch hname]
  -- The other stamps are earlier.
  have hlt : ∀ t, ⟨name, t⟩ ∈ (g.touch name).1.edges.toList →
      (g.touch name).1.stampOf t < g.clock.last + 1 := by
    intro t ht
    rw [hshape.edges] at ht
    have hne : t ≠ name := fun h => hself (h ▸ ht)
    rw [stampOf_touch_of_ne hne]
    exact Nat.lt_succ_of_le (hstamped.stampOf_le_last t)
  constructor
  · intro hstale
    by_contra hall
    push Not at hall
    exact hstale ⟨Nat.succ_pos _, fun t ht => ⟨Nat.pos_of_ne_zero (hall t ht), hlt t ht⟩⟩
  · rintro ⟨t, ht, hnever⟩ hfresh
    have hpos := (hfresh.2 t ht).1
    rw [hnever] at hpos
    exact absurd hpos (lt_irrefl 0)

/-- `Graph.stampOf` is `Stamp.never` exactly for missing nodes and for nodes never stamped. -/
theorem stampOf_eq_never_iff :
    g.stampOf n = Stamp.never ↔
      g.node? n = none ∨ ∃ node, g.node? n = some node ∧ node.stamp = Stamp.never := by
  cases hn : g.node? n with
  | none => simp [stampOf, mark?, hn]
  | some node => simp [stampOf_of_node? hn]

/-- `Graph.touch` of an existing node answers the stamp it issued. -/
theorem touch_of_mem (hname : name ∈ g.names) : (g.touch name).2 = some (g.touch name).1.clock.last := by
  rw [Graph.touch, if_pos (hasNode_iff.2 hname)]
  rfl

end Graph

/-! ## Sessions -/

namespace GraphSession

open Recalc.Graph

variable {s : GraphSession}

/-- Every public operation keeps stamps unique. -/
theorem stamped_perform (hs : s.graph.Sound) (hstamped : s.graph.Stamped) (c : GraphCommand) :
    (s.perform c).value.1.graph.Stamped := by
  cases c with
  | addNode name => exact hstamped.inherit (.addNode s.graph name)
  | removeNode name => exact hstamped.inherit (.removeNode s.graph name)
  | addEdge e => exact hstamped.inherit (.addEdge s.graph e)
  | removeEdge e => exact hstamped.inherit (.removeEdge s.graph e)
  | addNodes names => exact hstamped.inherit (.guarded (.addAll .addNode names) s.graph)
  | removeNodes names => exact hstamped.inherit (.removeAll .removeNode names s.graph)
  | addEdges edges => exact hstamped.inherit (.guarded (.addAll .addEdge edges) s.graph)
  | removeEdges edges => exact hstamped.inherit (.removeAll .removeEdge edges s.graph)
  | beginBatch => exact hstamped.inherit (.beginBatch s.graph)
  | endBatch => exact hstamped.inherit (.endBatch s.graph)
  | endBatchQuietly => exact hstamped.inherit (.endBatch s.graph)
  | abortBatch => exact hstamped.inherit (.abortBatch s.graph)
  | openGuard => exact hstamped.inherit (.beginBatch s.graph)
  | commitGuard =>
    unfold perform
    cases s.guards with
    | nil => exact hstamped
    | cons guard guards => exact hstamped.inherit (.commitGuard s.graph guard)
  | discardGuard =>
    unfold perform
    cases s.guards with
    | nil => exact hstamped
    | cons guard guards => exact hstamped.inherit (.discardGuard s.graph guard)
  | invalidate name => exact hstamped.inherit (hs.wellFormed.inherits_invalidate name)
  | markClean name => exact hstamped.inherit (.markClean s.graph name)
  | touch name => exact hstamped.touch name
  | reset => exact hstamped.inherit (.reset s.graph)

/-- Every run of operations on a `Sound` graph keeps it `Stamped`. -/
theorem stamped_performAll (hs : s.graph.Sound) (hstamped : s.graph.Stamped)
    (commands : List GraphCommand) : (s.performAll commands).value.graph.Stamped := by
  induction commands generalizing s with
  | nil => exact hstamped
  | cons c commands ih =>
    rw [value_performAll_cons]
    exact ih (sound_perform hs c) (stamped_perform hs hstamped c)

/-- Whatever was done to a graph: no two nodes have the same stamp, unless they were never stamped, and no
stamp is later than the one issued last. A node need not be evaluated exactly if it was stamped and its
stored edges all lead to nodes that were stamped, and before it. So once a node without an edge to itself
is stamped anew, what has it among its dependencies has to be evaluated, and the node itself exactly if a
stored edge leads from it to no node or to one that was never stamped. -/
theorem staleness_of_commands (commands : List GraphCommand) :
    let g := (performAll {} commands).value.graph
    (∀ m n node node', g.node? m = some node → g.node? n = some node' → node.stamp ≠ Stamp.never →
      node.stamp = node'.stamp → m = n) ∧
    (∀ n node, g.node? n = some node → node.stamp ≤ g.clock.last) ∧
    (∀ n node, g.node? n = some node →
      (g.needsEvaluation n = false ↔ node.stamp ≠ Stamp.never ∧ ∀ t, ⟨n, t⟩ ∈ g.edges.toList →
        ∃ target, g.node? t = some target ∧ target.stamp ≠ Stamp.never ∧
          target.stamp < node.stamp)) ∧
    ∀ n ∈ g.names, ⟨n, n⟩ ∉ g.edges.toList →
      let g' := (g.touch n).1
      ((g.touch n).2 = some g'.clock.last ∧ g.clock.last < g'.clock.last ∧
        g'.stampOf n = g'.clock.last) ∧
      (∀ m, n ∈ g'.dependenciesOf m → g'.needsEvaluation m = true) ∧
      (g'.needsEvaluation n = true ↔ ∃ t, ⟨n, t⟩ ∈ g'.edges.toList ∧
        (g'.node? t = none ∨ ∃ target, g'.node? t = some target ∧ target.stamp = Stamp.never)) := by
  intro g
  have hg : g.WellFormed := (sound_of_commands commands).wellFormed
  have hstamped : g.Stamped := stamped_performAll Sound.empty Stamped.empty commands
  refine ⟨fun m n node node' hm hn hnever heq => ?_, fun n node hn => ?_, fun n node hn => ?_,
    fun n hn hself => ⟨⟨touch_of_mem hn, ?_, ?_⟩, fun m => ?_, ?_⟩⟩
  · apply hstamped.unique m n node.stamp (Nat.pos_of_ne_zero hnever)
    · exact Or.inl (stampOf_of_node? hm)
    · exact Or.inl ((stampOf_of_node? hn).trans heq.symm)
  · rw [← stampOf_of_node? hn]
    exact hstamped.stampOf_le_last n
  · rw [hg.needsEvaluation_eq_false_iff (mem_names_iff.2 ⟨node, hn⟩), fresh_iff hn]
  · rw [clock_touch, if_pos hn]
    exact Nat.lt_succ_self _
  · rw [clock_touch, if_pos hn, stampOf_touch hn]
  · exact hg.needsEvaluation_of_touched hstamped hn
  · rw [hg.needsEvaluation_touch_iff hstamped hn hself]
    simp only [stampOf_eq_never_iff]

/-- Two nodes are stamped, the second one reads the first one; inside a batch, the first one is removed,
created and stamped again, and then the batch is undone. A third node, also stamped, reads a name without
a node. -/
def restamped : List GraphCommand :=
  [.addNodes ["a", "b", "c"], .addEdges [⟨"b", "a"⟩, ⟨"c", "x"⟩], .touch "a", .touch "b", .touch "c",
    .beginBatch, .removeNode "a", .addNode "a", .touch "a", .abortBatch]

/-- The old stamp is back, and so the second node is fresh; stamping the first one anew changes that. The
third node is stale for lack of what it reads. -/
theorem staleness_of_commands_restamped :
    let g := (performAll {} restamped).value.graph
    let g' := (g.touch "a").1
    ((["a", "b", "c"].map g.stampOf) = [1, 2, 3] ∧ g.clock.last = 4) ∧
      g.needsEvaluation "b" = false ∧ (g.touch "a").2 = some 5 ∧
      g'.needsEvaluation "b" = true ∧ g'.needsEvaluation "a" = false ∧
      (g.touch "c").1.needsEvaluation "c" = true := by
  intro g g'
  obtain ⟨-, -, hfresh, htouched⟩ := staleness_of_commands restamped
  have hb : g.needsEvaluation "b" = false := by
    obtain ⟨node, hnode⟩ := mem_names_iff.1 (show "b" ∈ g.names by decide)
    rw [hfresh "b" node hnode, ← fresh_iff hnode]
    refine ⟨by decide, fun d hd => ?_⟩
    have hedges : g.edges.toList = [⟨"b", "a"⟩, ⟨"c", "x"⟩] := by decide
    rw [hedges] at hd
    obtain rfl : d = "a" := by simpa using hd
    decide
  obtain ⟨⟨hissued, -, -⟩, hreaders, ha⟩ := htouched "a" (by decide) (by decide)
  obtain ⟨-, -, hc⟩ := htouched "c" (by decide) (by decide)
  refine ⟨by decide, hb, hissued, hreaders "b" (by decide), ?_, ?_⟩
  · rw [← Bool.not_eq_true, ha]
    rintro ⟨t, ht, -⟩
    have hedges : g'.edges.toList = [⟨"b", "a"⟩, ⟨"c", "x"⟩] := by decide
    rw [hedges] at ht
    simp at ht
  · exact hc.2 ⟨"x", by decide, Or.inl (by decide)⟩

end GraphSession

end Recalc
