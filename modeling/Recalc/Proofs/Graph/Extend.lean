import Mathlib.Data.List.Basic
import Recalc.Proofs.Graph.Acyclic

/-!
# Extending a graph

An addition does two things: it extends the graph by a node or an edge, with the links that come of it,
and it settles the extension. Extending (`extend`) knows nothing of batches: it makes the same changes
and the same announcements with any journal (`extend_withJournal`), and the journal is what is noted
beside it (`add_withJournal`). What a list of additions extends a graph to, as far as sets go, depends
on which additions are in the list only, and undoing what was noted gives the graph back as it was
(`undoAll_noted`).
-/

namespace Recalc

/-- A node or an edge to be added to a graph. -/
inductive Addition where
  | node (name : String)
  | edge (edge : Edge)
  deriving DecidableEq, Repr

/-- What the journal says of an addition. -/
def Addition.change : Addition → Change
  | node name => .nodeAdded name
  | edge e => .edgeAdded e

namespace Graph

variable {g : Graph}

/-- Make an addition. -/
def add (g : Graph) : Addition → Traced LinkSignal (Graph × Except CycleError Bool)
  | .node name => g.addNode name
  | .edge e => g.addEdge e

/-- The graph has what is to be added. -/
def Has (g : Graph) : Addition → Prop
  | .node name => name ∈ g.names
  | .edge e => e ∈ g.edges.toList

instance (g : Graph) : (a : Addition) → Decidable (g.Has a)
  | .node name => inferInstanceAs (Decidable (name ∈ g.names))
  | .edge e => inferInstanceAs (Decidable (e ∈ g.edges.toList))

/-- Enter a new node or edge, with the links that come of it. -/
def enter (g : Graph) : Addition → Traced LinkSignal Graph
  | .node name => g.attach g.nodes.size name {}
  | .edge e => g.storeEdge e

/-- Make an addition without settling it. -/
def extend (g : Graph) (a : Addition) : Traced LinkSignal Graph :=
  if g.Has a then pure g else g.enter a

/-- Make additions one after the other without settling them. -/
def extendAll (g : Graph) (as : List Addition) : Traced LinkSignal Graph := as.foldlM extend g

/-- What the journal notes of an addition. -/
def noted (g : Graph) (a : Addition) : List Change := if g.Has a then [] else [a.change]

/-- What the journal notes of additions made one after the other, newest change first. -/
def notedAll : Graph → List Addition → List Change
  | _, [] => []
  | g, a :: as => notedAll (g.extend a).value as ++ g.noted a

/-- `Graph.extend` does nothing with what the graph has. -/
theorem extend_of_has {a : Addition} (ha : g.Has a) : g.extend a = pure g := if_pos ha

/-- `Graph.extend` enters what the graph does not have. -/
theorem extend_of_not_has {a : Addition} (ha : ¬ g.Has a) : g.extend a = g.enter a := if_neg ha

/-- `Graph.extendAll` extends by the first addition and goes on from there. -/
theorem extendAll_cons (g : Graph) (a : Addition) (as : List Addition) :
    g.extendAll (a :: as) = g.extend a >>= (·.extendAll as) := List.foldlM_cons

/-! ## The graph that is extended -/

/-- After `Graph.extend` the names are the old ones and that of the node added. -/
theorem mem_names_extend (g : Graph) (a : Addition) (n : String) :
    n ∈ (g.extend a).value.names ↔ n ∈ g.names ∨ a = .node n := by
  unfold extend
  split_ifs with ha
  · refine ⟨Or.inl, fun h => h.elim id ?_⟩
    rintro rfl
    exact ha
  · cases a with
    | node name =>
      rw [enter, mem_names_attach, Addition.node.injEq, eq_comm (a := name)]
    | edge e =>
      rw [enter, names_storeEdge]
      simp

/-- After `Graph.extend` the stored edges are the old ones and the edge added. -/
theorem mem_edges_extend (g : Graph) (a : Addition) (e : Edge) :
    e ∈ (g.extend a).value.edges.toList ↔ e ∈ g.edges.toList ∨ a = .edge e := by
  unfold extend
  split_ifs with ha
  · refine ⟨Or.inl, fun h => h.elim id ?_⟩
    rintro rfl
    exact ha
  · cases a with
    | node name =>
      rw [enter, edges_attach]
      simp
    | edge f =>
      rw [enter, mem_edges_storeEdge, Addition.edge.injEq, eq_comm (a := f)]

/-- A node that is new has no mark yet; the other marks stay. -/
theorem mark?_extend (g : Graph) (a : Addition) (n : String) :
    (g.extend a).value.mark? n =
      if n ∉ g.names ∧ a = .node n then some (false, Stamp.never) else g.mark? n := by
  unfold extend
  split_ifs with ha hn hn
  · obtain ⟨hn, rfl⟩ := hn
    exact absurd ha hn
  · rfl
  · obtain ⟨-, rfl⟩ := hn
    exact (mark?_attach _ n g {} n).trans (if_pos rfl)
  · cases a with
    | node name =>
      refine (mark?_attach _ name g {} n).trans (if_neg fun h => hn ?_)
      subst h
      exact ⟨ha, rfl⟩
    | edge e => exact mark?_storeEdge e g n

/-- `Graph.extend` enters nothing into the journal. -/
theorem journal_extend (g : Graph) (a : Addition) : (g.extend a).value.journal = g.journal := by
  unfold extend
  split_ifs
  · rfl
  · cases a with
    | node name => exact journal_attach g _ name {}
    | edge e => exact (sameFrame_storeEdge e g).journal

/-- `Graph.extend` keeps a graph `WellFormed`. -/
theorem WellFormed.extend (hg : g.WellFormed) (a : Addition) : (g.extend a).value.WellFormed := by
  unfold Graph.extend
  split_ifs
  · exact hg
  · cases a with
    | node name => exact hg.attach _ name _ _
    | edge e => exact hg.storeEdge e

section ExtendAll

variable (as : List Addition)

/-- After `Graph.extendAll` the names are the old ones and those of the nodes added. -/
theorem mem_names_extendAll (g : Graph) (n : String) :
    n ∈ (g.extendAll as).value.names ↔ n ∈ g.names ∨ .node n ∈ as := by
  induction as generalizing g with
  | nil => simp [extendAll]
  | cons a as ih =>
    rw [extendAll_cons, Traced.value_bind, ih, mem_names_extend, List.mem_cons, or_assoc,
      eq_comm (a := a)]

/-- After `Graph.extendAll` the stored edges are the old ones and those added. -/
theorem mem_edges_extendAll (g : Graph) (e : Edge) :
    e ∈ (g.extendAll as).value.edges.toList ↔ e ∈ g.edges.toList ∨ .edge e ∈ as := by
  induction as generalizing g with
  | nil => simp [extendAll]
  | cons a as ih =>
    rw [extendAll_cons, Traced.value_bind, ih, mem_edges_extend, List.mem_cons, or_assoc,
      eq_comm (a := a)]

/-- `Graph.extendAll` creates clean nodes without a stamp and leaves the marks of the nodes there were. -/
theorem mark?_extendAll (g : Graph) (n : String) :
    (g.extendAll as).value.mark? n =
      if n ∉ g.names ∧ .node n ∈ as then some (false, Stamp.never) else g.mark? n := by
  induction as generalizing g with
  | nil => simp [extendAll]
  | cons a as ih =>
    rw [extendAll_cons, Traced.value_bind, ih, mark?_extend]
    simp only [mem_names_extend]
    -- The node is created by this addition, by a later one, or not at all.
    by_cases hn : n ∈ g.names
    · simp [hn]
    · by_cases ha : a = .node n
      · simp [hn, ha]
      · simp [hn, ha, Ne.symm ha]

/-- `Graph.extendAll` enters nothing into the journal. -/
theorem journal_extendAll (g : Graph) : (g.extendAll as).value.journal = g.journal := by
  induction as generalizing g with
  | nil => rfl
  | cons a as ih =>
    rw [extendAll_cons, Traced.value_bind, ih, journal_extend]

/-- `Graph.extendAll` keeps a graph `WellFormed`. -/
theorem WellFormed.extendAll (hg : g.WellFormed) : (g.extendAll as).value.WellFormed := by
  induction as generalizing g with
  | nil => exact hg
  | cons a as ih =>
    rw [extendAll_cons, Traced.value_bind]
    exact ih (hg.extend a)

/-- What closes a cycle on the way leaves one at the end. -/
theorem hasCycle_extendAll (g : Graph) (h : HasCycle g.names g.edges.toList) :
    HasCycle (g.extendAll as).value.names (g.extendAll as).value.edges.toList := by
  refine h.mono fun a b hab => ⟨?_, ?_, ?_⟩
  · exact (mem_edges_extendAll as g _).2 (Or.inl hab.1)
  · exact (mem_names_extendAll as g _).2 (Or.inl hab.2.1)
  · exact (mem_names_extendAll as g _).2 (Or.inl hab.2.2)

end ExtendAll

/-- In whatever order the same additions are made, they extend a graph to the same nodes, edges, links
and marks. -/
theorem WellFormed.extendAll_perm (hg : g.WellFormed) {as as' : List Addition}
    (hperm : as'.Perm as) :
    (∀ n, n ∈ (g.extendAll as').value.names ↔ n ∈ (g.extendAll as).value.names) ∧
    (∀ e, e ∈ (g.extendAll as').value.edges.toList ↔ e ∈ (g.extendAll as).value.edges.toList) ∧
    (∀ n t, t ∈ (g.extendAll as').value.dependenciesOf n ↔
      t ∈ (g.extendAll as).value.dependenciesOf n) ∧
    (∀ n f, f ∈ (g.extendAll as').value.dependentsOf n ↔
      f ∈ (g.extendAll as).value.dependentsOf n) ∧
    ∀ n, (g.extendAll as').value.mark? n = (g.extendAll as).value.mark? n := by
  have hnames : ∀ n, n ∈ (g.extendAll as').value.names ↔ n ∈ (g.extendAll as).value.names := by
    intro n
    rw [mem_names_extendAll, mem_names_extendAll, hperm.mem_iff]
  have hedges : ∀ e, e ∈ (g.extendAll as').value.edges.toList ↔
      e ∈ (g.extendAll as).value.edges.toList := by
    intro e
    rw [mem_edges_extendAll, mem_edges_extendAll, hperm.mem_iff]
  have hdepends : ∀ a b, (g.extendAll as').value.Depends a b ↔
      (g.extendAll as).value.Depends a b := fun a b =>
    and_congr (hedges _) (and_congr (hnames a) (hnames b))
  refine ⟨hnames, hedges, fun n t => ?_, fun n f => ?_, fun n => ?_⟩
  · rw [(hg.extendAll as').mem_dependenciesOf, (hg.extendAll as).mem_dependenciesOf]
    exact hdepends n t
  · rw [(hg.extendAll as').mem_dependentsOf, (hg.extendAll as).mem_dependentsOf]
    exact hdepends f n
  · rw [mark?_extendAll, mark?_extendAll]
    simp only [hperm.mem_iff]

/-! ## Undoing what was noted -/

/-- Undoing two journals at once is undoing the newer one and then the older one. -/
theorem undoAll_append (g : Graph) (newer older : List Change) :
    g.undoAll (newer ++ older) = (g.undoAll newer).undoAll older := List.foldl_append

/-- Undoing what was noted of an addition gives the graph back, the order of its nodes, edges and links
included. -/
theorem WellFormed.undoAll_noted (hg : g.WellFormed) (a : Addition) :
    (g.extend a).value.undoAll (g.noted a) = g := by
  unfold Graph.extend noted
  split_ifs with ha
  · rfl
  · cases a with
    | node name => exact hg.detach_attach ha _ _
    | edge e =>
      have he : e ∈ (g.storeEdge e).value.edges.toList :=
        (mem_edges_storeEdge e g e).2 (Or.inr rfl)
      show ((g.storeEdge e).value.undo (.edgeAdded e)).value = g
      rw [undo_edgeAdded, if_pos he]
      exact hg.dropEdge_storeEdge ha

/-- Undoing what was noted of several additions gives the graph back, orders included. -/
theorem WellFormed.undoAll_notedAll (hg : g.WellFormed) (as : List Addition) :
    (g.extendAll as).value.undoAll (g.notedAll as) = g := by
  induction as generalizing g with
  | nil => rfl
  | cons a as ih =>
    have hrest : ((g.extend a).value.extendAll as).value.undoAll ((g.extend a).value.notedAll as) =
        (g.extend a).value := ih (hg.extend a)
    rw [extendAll_cons, Traced.value_bind, notedAll, undoAll_append, hrest]
    exact hg.undoAll_noted a

/-! ## Extending with a journal -/

/-- The graph with another journal. -/
def withJournal (g : Graph) (journal : Option (List Change)) : Graph := { g with journal }

section WithJournal

variable (journal : Option (List Change))

/-- Having a node or an edge is no matter of the journal. -/
theorem has_withJournal (g : Graph) (a : Addition) :
    (g.withJournal journal).Has a ↔ g.Has a := by cases a <;> exact Iff.rfl

/-- `Graph.link` makes the same changes and announcements with any journal. -/
theorem link_withJournal (g : Graph) (e : Edge) :
    (g.withJournal journal).link e = (·.withJournal journal) <$> g.link e := by
  have hnode : ∀ n, (g.withJournal journal).node? n = g.node? n := fun _ => rfl
  unfold link
  rw [hnode, hnode]
  cases g.node? e.source with
  | none => rfl
  | some s =>
    cases g.node? e.target with
    | none => rfl
    | some t => exact Traced.ext rfl (by rw [Traced.events_map])

/-- Linking several edges makes the same changes and announcements with any journal. -/
theorem linkAll_withJournal (es : List Edge) (g : Graph) :
    es.foldlM link (g.withJournal journal) = (·.withJournal journal) <$> es.foldlM link g := by
  induction es generalizing g with
  | nil => rfl
  | cons e es ih =>
    rw [List.foldlM_cons, List.foldlM_cons, link_withJournal, bind_map_left, map_bind]
    exact bind_congr fun g' => ih g'

/-- Extending makes the same changes and announcements with any journal. -/
theorem extend_withJournal (g : Graph) (a : Addition) :
    (g.withJournal journal).extend a = (·.withJournal journal) <$> g.extend a := by
  by_cases ha : g.Has a
  · rw [extend_of_has ha, extend_of_has ((has_withJournal journal g a).2 ha)]
    rfl
  · rw [extend_of_not_has ha, extend_of_not_has fun h => ha ((has_withJournal journal g a).1 h)]
    cases a with
    | node name =>
      exact linkAll_withJournal journal (g.edgesAt name)
        { g with nodes := g.nodes.insertAt g.nodes.size name {} }
    | edge e => exact link_withJournal journal { g with edges := (g.edges.insert e).1 } e

end WithJournal

/-- A graph outside a batch is itself without a journal. -/
theorem withJournal_of_journal_eq_none (hg : g.journal = none) : g.withJournal none = g := by
  rw [withJournal, ← hg]

/-! ## Settling extensions -/

/-- Take an addition back. -/
def takeBack (g : Graph) : Addition → Traced LinkSignal Graph
  | .node name => g.detach name
  | .edge e => g.dropEdge e

/-- Adding what the graph has changes nothing and signals nothing. -/
theorem add_of_has {a : Addition} (ha : g.Has a) : g.add a = pure (g, .ok false) := by
  cases a with
  | node name => exact addNode_of_mem ha
  | edge e => exact addEdge_of_mem ha

/-- An addition extends the graph and settles that. -/
theorem add_of_not_has {a : Addition} (ha : ¬ g.Has a) :
    g.add a = g.extend a >>= fun g' => g'.settle a.change (takeBack · a) := by
  rw [extend_of_not_has ha]
  cases a with
  | node name => exact addNode_of_not_mem ha
  | edge e => exact addEdge_of_not_mem ha

/-- Inside a batch an addition extends the graph and is noted. -/
theorem add_withJournal (g : Graph) (a : Addition) (journal : List Change) :
    (g.withJournal (some journal)).add a =
      (fun g' => (g'.withJournal (some (g.noted a ++ journal)), .ok (decide ¬ g.Has a))) <$>
        g.extend a := by
  by_cases ha : g.Has a
  · rw [add_of_has ((has_withJournal _ g a).2 ha), extend_of_has ha, noted, if_pos ha]
    simp [ha]
  · rw [add_of_not_has fun h => ha ((has_withJournal _ g a).1 h), extend_withJournal, bind_map_left,
      map_eq_pure_bind, noted, if_neg ha]
    refine bind_congr fun g' => ?_
    simp [settle, inBatch, withJournal, record, ha]

/-- Outside a batch an addition is kept if it closes no cycle. -/
theorem WellFormed.add_of_acyclic (hg : g.WellFormed) (hb : g.inBatch = false) {a : Addition}
    (hacyclic : ¬ HasCycle (g.extend a).value.names (g.extend a).value.edges.toList) :
    g.add a = (fun g' => (g', .ok (decide ¬ g.Has a))) <$> g.extend a := by
  by_cases ha : g.Has a
  · rw [add_of_has ha, extend_of_has ha]
    simp [ha]
  · have hb' : (g.extend a).value.inBatch = false := by rw [inBatch, journal_extend]; exact hb
    have hsettle : (g.extend a).value.settle a.change (takeBack · a) =
        pure ((g.extend a).value, .ok true) := by
      rw [settle, hb', if_neg Bool.false_ne_true, (hg.extend a).findCycle?_eq_none_iff.2 hacyclic]
    rw [add_of_not_has ha]
    refine Traced.ext ?_ ?_
    · rw [Traced.value_bind, hsettle]
      simp [ha]
    · rw [Traced.events_bind, hsettle]
      simp

/-- Outside a batch an addition is refused if it closes a cycle. -/
theorem Sound.add_of_cycle (hg : g.Sound) (hb : g.inBatch = false) {a : Addition}
    (hcycle : HasCycle (g.extend a).value.names (g.extend a).value.edges.toList) :
    ∃ err, (g.add a).value.2 = .error err := by
  have ha : ¬ g.Has a := fun ha => by
    rw [extend_of_has ha] at hcycle
    exact hg.not_hasCycle hb hcycle
  rw [add_of_not_has ha, Traced.value_bind]
  refine (hg.wellFormed.extend a).settle_refuses_iff.2 ⟨?_, hcycle⟩
  rw [inBatch, journal_extend]
  exact hb

end Graph

end Recalc
