import Mathlib.Data.List.Basic
import Recalc.Proofs.Graph.Links

/-!
# Undoing changes

Each change of the journal, undone right after it was made, gives the graph back: `undo_attach`,
`undo_detach`, `undo_storeEdge` and `undo_dropEdge`. The graph comes back up to the order of its
edges and links, which is the relation `Alike`; since undoing respects that relation, undoing a whole
journal can be followed change by change.

`settled` is the graph that is left when an open batch is undone. It is what an operation inside a
batch leaves alone.
-/

namespace Recalc.Graph

variable {g h : Graph} {marks : Prop}

/-- The graphs have the same nodes in the same order and the same edges in whatever order; if marks
count, they also have the same marks. -/
structure Alike (marks : Prop) (g h : Graph) : Prop where
  names : g.names = h.names
  mem_edges : ∀ e, e ∈ g.edges.toList ↔ e ∈ h.edges.toList
  mark? : marks → ∀ n, g.mark? n = h.mark? n

namespace Alike

theorem refl (marks : Prop) (g : Graph) : Alike marks g g :=
  ⟨rfl, fun _ => Iff.rfl, fun _ _ => rfl⟩

theorem symm (hgh : Alike marks g h) : Alike marks h g :=
  ⟨hgh.names.symm, fun e => (hgh.mem_edges e).symm, fun m n => (hgh.mark? m n).symm⟩

theorem trans {k : Graph} (h₁ : Alike marks g h) (h₂ : Alike marks h k) : Alike marks g k :=
  ⟨h₁.names.trans h₂.names, fun e => (h₁.mem_edges e).trans (h₂.mem_edges e),
    fun m n => (h₁.mark? m n).trans (h₂.mark? m n)⟩

/-- Alike graphs depend alike. -/
theorem depends_iff (hgh : Alike marks g h) (a b : String) : g.Depends a b ↔ h.Depends a b := by
  simp only [DependsIn, hgh.names, hgh.mem_edges]

end Alike

/-! ## The journal and the clock -/

/-- `Graph.attach` enters nothing into the journal; the operation that calls it does. -/
theorem journal_attach (g : Graph) (place : Nat) (name : String) (node : Node) :
    (g.attach place name node).value.journal = g.journal :=
  (sameFrame_foldlM sameFrame_link _ _).journal

/-- `Graph.attach` does not move the clock; the operation that calls it takes the stamp first. -/
theorem clock_attach (g : Graph) (place : Nat) (name : String) (node : Node) :
    (g.attach place name node).value.clock = g.clock :=
  (sameFrame_foldlM sameFrame_link _ _).clock

/-- `Graph.detach` enters nothing into the journal. -/
theorem journal_detach (g : Graph) (name : String) : (g.detach name).value.journal = g.journal := by
  rw [detach]
  split_ifs
  · exact (sameFrame_foldlM sameFrame_unlink _ _).journal
  · rfl

theorem clock_detach (g : Graph) (name : String) : (g.detach name).value.clock = g.clock := by
  rw [detach]
  split_ifs
  · exact (sameFrame_foldlM sameFrame_unlink _ _).clock
  · rfl

/-! ## Undoing one change -/

/-- Undoing the addition of an edge drops it if it is stored. -/
theorem undo_edgeAdded (g : Graph) (e : Edge) :
    (g.undo (.edgeAdded e)).value = if e ∈ g.edges.toList then (g.dropEdge e).value else g := by
  simp only [undo]
  split_ifs with he
  · have hflag := EdgeStore.snd_erase.2 he
    unfold dropEdge
    generalize g.edges.erase e = erased at hflag ⊢
    obtain ⟨edges, _⟩ := erased
    subst hflag
    rfl
  · rw [EdgeStore.erase_of_not_mem he]
    rfl

/-- Undoing the removal of an edge stores it unless it is stored. -/
theorem undo_edgeRemoved (g : Graph) (e : Edge) :
    (g.undo (.edgeRemoved e)).value = if e ∈ g.edges.toList then g else (g.storeEdge e).value := by
  simp only [undo]
  split_ifs with he
  · rw [EdgeStore.insert_of_mem he]
    rfl
  · have hflag := EdgeStore.snd_insert.2 he
    unfold storeEdge
    generalize g.edges.insert e = inserted at hflag ⊢
    obtain ⟨edges, _⟩ := inserted
    subst hflag
    rfl

/-- `Graph.undo` does not write to the journal it is played from. -/
theorem journal_undo (g : Graph) (c : Change) : (g.undo c).value.journal = g.journal := by
  cases c with
  | nodeAdded name => exact journal_detach g name
  | nodeRemoved name place node => exact journal_attach g place name _
  | edgeAdded e =>
    rw [undo_edgeAdded]
    split_ifs
    · exact (sameFrame_dropEdge e g).journal
    · rfl
  | edgeRemoved e =>
    rw [undo_edgeRemoved]
    split_ifs
    · rfl
    · exact (sameFrame_storeEdge e g).journal

/-- `Graph.undo` does not move the clock: stamps handed out in a batch are not handed out again. -/
theorem clock_undo (g : Graph) (c : Change) : (g.undo c).value.clock = g.clock := by
  cases c with
  | nodeAdded name => exact clock_detach g name
  | nodeRemoved name place node => exact clock_attach g place name _
  | edgeAdded e =>
    rw [undo_edgeAdded]
    split_ifs
    · exact (sameFrame_dropEdge e g).clock
    · rfl
  | edgeRemoved e =>
    rw [undo_edgeRemoved]
    split_ifs
    · rfl
    · exact (sameFrame_storeEdge e g).clock

/-- `Graph.undo` of any entry keeps a graph `WellFormed`. -/
theorem WellFormed.undo (hg : g.WellFormed) (c : Change) : (g.undo c).value.WellFormed := by
  cases c with
  | nodeAdded name => exact hg.detach name
  | nodeRemoved name place node => exact hg.attach place name node.dirty node.stamp
  | edgeAdded e =>
    rw [undo_edgeAdded]
    split_ifs
    · exact hg.dropEdge e
    · exact hg
  | edgeRemoved e =>
    rw [undo_edgeRemoved]
    split_ifs
    · exact hg
    · exact hg.storeEdge e

/-- After undoing the addition of an edge the others are stored. -/
theorem mem_edges_undo_edgeAdded (g : Graph) (e f : Edge) :
    f ∈ (g.undo (.edgeAdded e)).value.edges.toList ↔ f ∈ g.edges.toList ∧ f ≠ e := by
  rw [undo_edgeAdded]
  split_ifs with he
  · exact mem_edges_dropEdge e g f
  · exact ⟨fun hf => ⟨hf, fun hfe => he (hfe ▸ hf)⟩, And.left⟩

/-- After undoing the removal of an edge it is stored beside the others. -/
theorem mem_edges_undo_edgeRemoved (g : Graph) (e f : Edge) :
    f ∈ (g.undo (.edgeRemoved e)).value.edges.toList ↔ f ∈ g.edges.toList ∨ f = e := by
  rw [undo_edgeRemoved]
  split_ifs with he
  · exact ⟨Or.inl, fun hf => hf.elim id fun hfe => hfe ▸ he⟩
  · exact mem_edges_storeEdge e g f

/-- Undoing a change of an edge leaves the nodes and their marks alone. -/
theorem frame_undo_edgeAdded (g : Graph) (e : Edge) :
    (g.undo (.edgeAdded e)).value.names = g.names ∧
      ∀ n, (g.undo (.edgeAdded e)).value.mark? n = g.mark? n := by
  rw [undo_edgeAdded]
  split_ifs
  · exact ⟨names_dropEdge e g, mark?_dropEdge e g⟩
  · exact ⟨rfl, fun _ => rfl⟩

/-- Undoing the removal of an edge keeps the names, their order and every mark. -/
theorem frame_undo_edgeRemoved (g : Graph) (e : Edge) :
    (g.undo (.edgeRemoved e)).value.names = g.names ∧
      ∀ n, (g.undo (.edgeRemoved e)).value.mark? n = g.mark? n := by
  rw [undo_edgeRemoved]
  split_ifs
  · exact ⟨rfl, fun _ => rfl⟩
  · exact ⟨names_storeEdge e g, mark?_storeEdge e g⟩

/-- Undoing the same change keeps graphs alike. -/
theorem Alike.undo (hgh : Alike marks g h) (c : Change) :
    Alike marks (g.undo c).value (h.undo c).value := by
  cases c with
  | nodeAdded name =>
    show Alike marks (g.detach name).value (h.detach name).value
    refine ⟨?_, fun e => ?_, fun hm n => ?_⟩
    · rw [names_detach, names_detach, hgh.names]
    · rw [edges_detach, edges_detach, hgh.mem_edges]
    · rw [mark?_detach, mark?_detach, hgh.mark? hm]
  | nodeRemoved name place node =>
    show Alike marks (g.attach place name _).value (h.attach place name _).value
    refine ⟨?_, fun e => ?_, fun hm n => ?_⟩
    · by_cases hname : name ∈ g.names
      · rw [names_attach_of_mem place name hname, names_attach_of_mem place name (hgh.names ▸ hname),
          hgh.names]
      · rw [names_attach place name hname, names_attach place name (hgh.names ▸ hname), hgh.names]
    · rw [edges_attach, edges_attach, hgh.mem_edges]
    · rw [mark?_attach, mark?_attach, hgh.mark? hm]
  | edgeAdded e =>
    refine ⟨?_, fun f => ?_, fun hm n => ?_⟩
    · rw [(frame_undo_edgeAdded g e).1, (frame_undo_edgeAdded h e).1, hgh.names]
    · rw [mem_edges_undo_edgeAdded, mem_edges_undo_edgeAdded, hgh.mem_edges]
    · rw [(frame_undo_edgeAdded g e).2, (frame_undo_edgeAdded h e).2, hgh.mark? hm]
  | edgeRemoved e =>
    refine ⟨?_, fun f => ?_, fun hm n => ?_⟩
    · rw [(frame_undo_edgeRemoved g e).1, (frame_undo_edgeRemoved h e).1, hgh.names]
    · rw [mem_edges_undo_edgeRemoved, mem_edges_undo_edgeRemoved, hgh.mem_edges]
    · rw [(frame_undo_edgeRemoved g e).2, (frame_undo_edgeRemoved h e).2, hgh.mark? hm]

/-! ## Undoing the change just made -/

/-- Undoing `Graph.attach` of a new node gives back the graph, the edges that waited for it included. -/
theorem undo_attach {name : String} (hname : name ∉ g.names) (place : Nat) (node : Node) :
    Alike marks ((g.attach place name node).value.undo (.nodeAdded name)).value g := by
  show Alike marks ((g.attach place name node).value.detach name).value g
  refine ⟨?_, fun e => ?_, fun _ n => ?_⟩
  · have hkeep : ∀ l : List String, (∀ n ∈ l, n ∈ g.names) → l.filter (· ≠ name) = l := fun l hl =>
      List.filter_eq_self.2 fun n hn => by simpa using fun e : n = name => hname (e ▸ hl n hn)
    rw [names_detach, names_attach place name hname, List.filter_append, List.filter_cons,
      hkeep _ fun n hn => List.mem_of_mem_take hn, hkeep _ fun n hn => List.mem_of_mem_drop hn]
    simp
  · rw [edges_detach, edges_attach]
  · rw [mark?_detach, mark?_attach]
    split_ifs with hn
    · rw [eq_comm, mark?_eq_none, hn]
      exact hname
    · rfl

/-- Putting an element back where it was taken out of a list without repetition. -/
theorem take_filter_ne_append_drop {l : List String} (hl : l.Nodup) {a : String} {i : Nat}
    (hi : l.idxOf? a = some i) :
    (l.filter (· ≠ a)).take i ++ a :: (l.filter (· ≠ a)).drop i = l := by
  induction l generalizing i with
  | nil => simp at hi
  | cons b l ih =>
    rw [List.idxOf?_cons] at hi
    -- The element is the head of the list, or it stood one place further in the tail.
    by_cases hba : b = a
    · subst hba
      obtain rfl : i = 0 := by simpa using hi.symm
      have hkeep : l.filter (· ≠ b) = l := List.filter_eq_self.2 fun c hc => by
        simpa using fun e : c = b => (List.nodup_cons.1 hl).1 (e ▸ hc)
      rw [List.filter_cons_of_neg (by simp), hkeep, List.take_zero, List.drop_zero, List.nil_append]
    · obtain ⟨j, hj, rfl⟩ : ∃ j, l.idxOf? a = some j ∧ j + 1 = i := by simpa [hba] using hi
      have htail := ih (List.nodup_cons.1 hl).2 hj
      simpa [hba] using htail

/-- Undoing `Graph.detach` with the record and the place the journal holds gives back the graph. -/
theorem undo_detach {name : String} {place : Nat} {node : Node} (hnode : g.node? name = some node)
    (hplace : g.nodes.indexOf? name = some place) :
    Alike marks ((g.detach name).value.undo (.nodeRemoved name place node)).value g := by
  show Alike marks ((g.detach name).value.attach place name _).value g
  refine ⟨?_, fun e => ?_, fun _ n => ?_⟩
  · have hgone : name ∉ (g.detach name).value.names := by
      rw [names_detach]
      simp
    rw [names_attach place name hgone, names_detach]
    exact take_filter_ne_append_drop g.names_nodup hplace
  · rw [edges_attach, edges_detach]
  · rw [mark?_attach, mark?_detach]
    split_ifs with hn
    · rw [hn, mark?, hnode]
      rfl
    · rfl

/-- Undoing `Graph.storeEdge` of a new edge gives back the graph, link order apart. -/
theorem undo_storeEdge {e : Edge} (he : e ∉ g.edges.toList) :
    Alike marks ((g.storeEdge e).value.undo (.edgeAdded e)).value g := by
  refine ⟨?_, fun f => ?_, fun _ n => ?_⟩
  · rw [(frame_undo_edgeAdded _ e).1, names_storeEdge]
  · rw [mem_edges_undo_edgeAdded, mem_edges_storeEdge]
    exact ⟨fun hf => hf.1.resolve_right hf.2, fun hf => ⟨Or.inl hf, fun hfe => he (hfe ▸ hf)⟩⟩
  · rw [(frame_undo_edgeAdded _ e).2, mark?_storeEdge]

/-- Undoing `Graph.dropEdge` of a stored edge gives back the graph, edge and link order apart. -/
theorem undo_dropEdge {e : Edge} (he : e ∈ g.edges.toList) :
    Alike marks ((g.dropEdge e).value.undo (.edgeRemoved e)).value g := by
  refine ⟨?_, fun f => ?_, fun _ n => ?_⟩
  · rw [(frame_undo_edgeRemoved _ e).1, names_dropEdge]
  · rw [mem_edges_undo_edgeRemoved, mem_edges_dropEdge]
    exact ⟨fun hf => hf.elim And.left fun hfe => hfe ▸ he,
      fun hf => (Classical.em (f = e)).symm.imp_left fun hfe => ⟨hf, hfe⟩⟩
  · rw [(frame_undo_edgeRemoved _ e).2, mark?_dropEdge]

/-! ## Undoing a journal -/

/-- Undoing changes one after the other, without their signals. -/
def undoAll (g : Graph) (journal : List Change) : Graph :=
  journal.foldl (fun g c => (g.undo c).value) g

/-- The graph that is left when the open batch is undone; outside a batch, the graph itself. -/
def settled (g : Graph) : Graph :=
  match g.journal with
  | none => g
  | some journal => undoAll { g with journal := none } journal

/-- `Graph.rollBack` closes the batch and undoes its journal, newest entry first. -/
theorem value_rollBack (g : Graph) (journal : List Change) :
    (g.rollBack journal).value = undoAll { g with journal := none } journal :=
  Traced.value_foldlM undo _ journal

/-- With no batch open a graph is its own settled state. -/
theorem settled_of_journal_eq_none (hg : g.journal = none) : g.settled = g := by
  rw [settled, hg]

/-- With a batch open the settled state is the graph with the journal undone. -/
theorem settled_of_journal_eq_some {journal : List Change} (hg : g.journal = some journal) :
    g.settled = undoAll { g with journal := none } journal := by
  rw [settled, hg]

/-- Undoing one journal on graphs that are `Alike` leaves graphs that are `Alike`. -/
theorem Alike.undoAll (hgh : Alike marks g h) (journal : List Change) :
    Alike marks (g.undoAll journal) (h.undoAll journal) := by
  induction journal generalizing g h with
  | nil => exact hgh
  | cons c journal ih => exact ih (hgh.undo c)

/-- Undoing a journal keeps a graph `WellFormed`. -/
theorem WellFormed.undoAll (hg : g.WellFormed) (journal : List Change) :
    (g.undoAll journal).WellFormed := by
  induction journal generalizing g with
  | nil => exact hg
  | cons c journal ih => exact ih (hg.undo c)

/-- Undoing a journal leaves the graph's own journal alone. -/
theorem journal_undoAll (g : Graph) (journal : List Change) :
    (g.undoAll journal).journal = g.journal := by
  induction journal generalizing g with
  | nil => rfl
  | cons c journal ih => exact (ih _).trans (journal_undo g c)

/-- Undoing a journal does not move the clock. -/
theorem clock_undoAll (g : Graph) (journal : List Change) : (g.undoAll journal).clock = g.clock := by
  induction journal generalizing g with
  | nil => rfl
  | cons c journal ih => exact (ih _).trans (clock_undo g c)

/-- The journal plays no part in whether a graph is well-formed. -/
theorem WellFormed.withJournal (hg : g.WellFormed) (journal : Option (List Change)) :
    ({ g with journal } : Graph).WellFormed :=
  ⟨hg.indexed, hg.mem_dependenciesOf, hg.mem_dependentsOf⟩

/-- Graphs that differ in the journal alone are `Alike`. -/
theorem alike_withJournal (g : Graph) (journal : Option (List Change)) :
    Alike marks { g with journal } g := ⟨rfl, fun _ => Iff.rfl, fun _ _ => rfl⟩

/-- The settled state of a `WellFormed` graph is `WellFormed`. -/
theorem WellFormed.settled (hg : g.WellFormed) : g.settled.WellFormed := by
  cases hj : g.journal with
  | none => rwa [settled_of_journal_eq_none hj]
  | some journal =>
    rw [settled_of_journal_eq_some hj]
    exact (hg.withJournal none).undoAll journal

/-- No batch is open in a settled state. -/
theorem journal_settled (g : Graph) : g.settled.journal = none := by
  cases hj : g.journal with
  | none => rwa [settled_of_journal_eq_none hj]
  | some journal => rw [settled_of_journal_eq_some hj, journal_undoAll]

/-- The settled state has the clock of the graph it comes from. -/
theorem clock_settled (g : Graph) : g.settled.clock = g.clock := by
  cases hj : g.journal with
  | none => rw [settled_of_journal_eq_none hj]
  | some journal => rw [settled_of_journal_eq_some hj, clock_undoAll]

/-- A change that was entered into the journal and that undoing takes back leaves alone what undoing
the batch results in. -/
theorem alike_settled_of_record {g' : Graph} {c : Change} {journal : List Change}
    (hg : g.journal = some journal) (hg' : g'.journal = some (c :: journal))
    (hundo : Alike marks (g'.undo c).value g) : Alike marks g'.settled g.settled := by
  rw [settled_of_journal_eq_some hg, settled_of_journal_eq_some hg']
  -- Once the new change is undone, the older ones are undone from graphs that are alike.
  refine Alike.undoAll ?_ journal
  exact (((alike_withJournal g' none).undo c).trans hundo).trans (alike_withJournal g none).symm

/-- Graphs that are `Alike` and hold the same journal settle alike. A step that is not entered into the
journal and does not count therefore does not disturb `Graph.settled`. -/
theorem Alike.settled (hgh : Alike marks g h) (hj : g.journal = h.journal) :
    Alike marks g.settled h.settled := by
  cases hjg : g.journal with
  | none => rwa [settled_of_journal_eq_none hjg, settled_of_journal_eq_none (hj ▸ hjg)]
  | some journal =>
    rw [settled_of_journal_eq_some hjg, settled_of_journal_eq_some (hj ▸ hjg)]
    refine Alike.undoAll ?_ journal
    exact ((alike_withJournal g none).trans hgh).trans (alike_withJournal h none).symm

end Recalc.Graph
