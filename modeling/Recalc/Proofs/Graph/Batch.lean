import Recalc.Proofs.Graph.Edit
import Recalc.Proofs.Graph.Staleness

/-!
# Steps inside a batch

A step inside a batch may do anything to the graph that the journal can take back: `BatchStep` says
that the batch stays open, the graph well-formed, and the graph that undoing would result in as it
was. Every operation of the graph is such a step, single, in the plural or inside a guard, and none
is refused. Steps that touch marks are steps for which marks do not count.

Ending the batch then either keeps what the steps did or results in that graph.
-/

namespace Recalc.Graph

variable {g g' : Graph} {marks : Prop}

/-- A step inside a batch leaves alone what undoing the batch results in; a step for which marks count
does not touch the clock either. -/
structure BatchStep (marks : Prop) (g g' : Graph) : Prop where
  inBatch : g'.inBatch = true
  wellFormed : g'.WellFormed
  settled : Alike marks g'.settled g.settled
  clock : marks → g'.clock = g.clock

namespace BatchStep

theorem refl (hg : g.WellFormed) (hb : g.inBatch = true) : BatchStep marks g g :=
  ⟨hb, hg, Alike.refl marks g.settled, fun _ => rfl⟩

theorem trans {g'' : Graph} (h₁ : BatchStep marks g g') (h₂ : BatchStep marks g' g'') :
    BatchStep marks g g'' :=
  ⟨h₂.inBatch, h₂.wellFormed, h₂.settled.trans h₁.settled,
    fun m => (h₂.clock m).trans (h₁.clock m)⟩

/-- A step is one all the more if marks count less often. -/
theorem mono {marks' : Prop} (hmarks : marks' → marks) (h : BatchStep marks g g') :
    BatchStep marks' g g' :=
  ⟨h.inBatch, h.wellFormed, ⟨h.settled.names, h.settled.mem_edges, fun m => h.settled.mark? (hmarks m)⟩,
    fun m => h.clock (hmarks m)⟩

/-- A change that undoing takes back is a step once it is entered into the journal. -/
theorem record {c : Change} (hb : g.inBatch = true) (hg' : g'.WellFormed)
    (hjournal : g'.journal = g.journal) (hclock : g'.clock = g.clock)
    (hundo : Alike marks (g'.undo c).value g) : BatchStep marks g (g'.record c) := by
  obtain ⟨journal, hj⟩ := Option.isSome_iff_exists.1 hb
  have hj' : (g'.record c).journal = some (c :: journal) := by rw [Graph.record, hjournal, hj]; rfl
  refine ⟨by rw [Graph.inBatch, hj']; rfl, hg'.withJournal _, ?_, fun _ => hclock⟩
  exact alike_settled_of_record hj hj' (((alike_withJournal g' _).undo c).trans hundo)

/-- Changing marks is a step for which marks do not count. -/
theorem of_sameShape (hshape : SameShape g' g) (hg : g.WellFormed) (hb : g.inBatch = true) :
    BatchStep False g g' :=
  ⟨by rw [Graph.inBatch, hshape.journal]; exact hb, hshape.wellFormed hg,
    hshape.alike.settled hshape.journal, False.elim⟩

end BatchStep

/-! ## The operations inside a batch -/

/-- Inside a batch the operation is a step and is not refused. -/
def Proceeds {α : Type} (marks : Prop)
    (step : Graph → Traced LinkSignal (Graph × Except CycleError α)) : Prop :=
  ∀ g, g.WellFormed → g.inBatch = true →
    BatchStep marks g (step g).value.1 ∧ ∃ a, (step g).value.2 = .ok a

/-- `Graph.addNode` inside a batch is a step and is not refused. -/
theorem proceeds_addNode (name : String) : Proceeds marks (·.addNode name) := by
  intro g hg hb
  show BatchStep marks g (g.addNode name).value.1 ∧ ∃ new, (g.addNode name).value.2 = .ok new
  by_cases hname : name ∈ g.names
  · rw [addNode_of_mem hname]
    exact ⟨BatchStep.refl hg hb, false, rfl⟩
  · have hj := journal_attach g g.nodes.size name {}
    rw [value_addNode hname, value_settle_of_inBatch (by rw [inBatch, hj]; exact hb)]
    exact ⟨BatchStep.record hb (hg.attach _ name _ _) hj (clock_attach g _ name {})
      (undo_attach hname _ _), true, rfl⟩

/-- `Graph.addEdge` inside a batch is a step and is not refused. -/
theorem proceeds_addEdge (e : Edge) : Proceeds marks (·.addEdge e) := by
  intro g hg hb
  show BatchStep marks g (g.addEdge e).value.1 ∧ ∃ new, (g.addEdge e).value.2 = .ok new
  by_cases he : e ∈ g.edges.toList
  · rw [addEdge_of_mem he]
    exact ⟨BatchStep.refl hg hb, false, rfl⟩
  · have hframe := sameFrame_storeEdge e g
    rw [value_addEdge he, value_settle_of_inBatch (by rw [inBatch, hframe.journal]; exact hb)]
    exact ⟨BatchStep.record hb (hg.storeEdge e) hframe.journal hframe.clock (undo_storeEdge he),
      true, rfl⟩

theorem batchStep_removeNode (hg : g.WellFormed) (hb : g.inBatch = true) (name : String) :
    BatchStep marks g (g.removeNode name).value.1 := by
  by_cases hname : name ∈ g.names
  · obtain ⟨node, hnode⟩ := mem_names_iff.1 hname
    obtain ⟨place, hplace⟩ := indexOf?_of_mem hname
    rw [value_removeNode hnode hplace]
    exact BatchStep.record hb (hg.detach name) (journal_detach g name) (clock_detach g name)
      (undo_detach hnode hplace)
  · rw [removeNode_of_not_mem hname]
    exact BatchStep.refl hg hb

theorem batchStep_removeEdge (hg : g.WellFormed) (hb : g.inBatch = true) (e : Edge) :
    BatchStep marks g (g.removeEdge e).value.1 := by
  by_cases he : e ∈ g.edges.toList
  · have hframe := sameFrame_dropEdge e g
    rw [value_removeEdge he]
    exact BatchStep.record hb (hg.dropEdge e) hframe.journal hframe.clock (undo_dropEdge he)
  · rw [removeEdge_of_not_mem he]
    exact BatchStep.refl hg hb

/-! ## Several things at once -/

/-- `Graph.addAll` makes the first addition and, unless it is refused, goes on from there. -/
theorem addAll_cons {α : Type} (add : Graph → α → Traced LinkSignal (Graph × Except CycleError Bool))
    (g : Graph) (a : α) (as : List α) {g' : Graph} {new : Bool}
    (ha : (add g a).value = (g', .ok new)) :
    (addAll add g (a :: as)).value =
      ((addAll add g' as).value.1, (addAll add g' as).value.2.map (new && ·)) := by
  rw [addAll, Traced.value_bind, ha]
  rfl

/-- Several additions inside a batch are a step and not refused if single ones are. -/
theorem proceeds_addAll {α : Type} {add : Graph → α → Traced LinkSignal (Graph × Except CycleError Bool)}
    (hadd : ∀ a, Proceeds marks (add · a)) (as : List α) : Proceeds marks (addAll add · as) := by
  induction as with
  | nil => exact fun g hg hb => ⟨BatchStep.refl hg hb, true, rfl⟩
  | cons a as ih =>
    intro g hg hb
    obtain ⟨hstep, new, hnew⟩ := hadd a g hg hb
    obtain ⟨hrest, all, hall⟩ := ih _ hstep.wellFormed hstep.inBatch
    rw [addAll_cons add g a as (Prod.ext rfl hnew)]
    exact ⟨hstep.trans hrest, new && all, by rw [hall]; rfl⟩

/-- `Graph.removeAll` makes the first removal and goes on from there. -/
theorem removeAll_cons {α : Type} (remove : Graph → α → Traced LinkSignal (Graph × Bool))
    (g : Graph) (a : α) (as : List α) :
    (removeAll remove g (a :: as)).value.1 = (removeAll remove (remove g a).value.1 as).value.1 :=
  rfl

/-- What single removals keep, several of them keep. -/
theorem removeAll_induction {α : Type} {remove : Graph → α → Traced LinkSignal (Graph × Bool)}
    {P : Graph → Prop} (hremove : ∀ g a, P g → P (remove g a).value.1) (as : List α) (hg : P g) :
    P (removeAll remove g as).value.1 := by
  induction as generalizing g with
  | nil => exact hg
  | cons a as ih =>
    rw [removeAll_cons]
    exact ih (hremove g a hg)

/-- Several removals are a step if single ones are. -/
theorem batchStep_removeAll {α : Type} {remove : Graph → α → Traced LinkSignal (Graph × Bool)}
    (hremove : ∀ g : Graph, g.WellFormed → g.inBatch = true → ∀ a,
      BatchStep marks g (remove g a).value.1)
    (hg : g.WellFormed) (hb : g.inBatch = true) (as : List α) :
    BatchStep marks g (removeAll remove g as).value.1 :=
  removeAll_induction (P := BatchStep marks g)
    (fun _ a h => h.trans (hremove _ h.wellFormed h.inBatch a)) as (BatchStep.refl hg hb)

/-! ## Opening and ending a batch -/

/-- The graph with a batch that was opened just now. -/
def opened (g : Graph) : Graph := { g with journal := some [] }

/-- Opening a batch keeps a graph `WellFormed`. -/
theorem WellFormed.opened (hg : g.WellFormed) : g.opened.WellFormed := hg.withJournal _

/-- Outside a batch `Graph.beginBatch` opens one and answers `true`. -/
theorem beginBatch_of_not_inBatch (hb : g.inBatch = false) : g.beginBatch = (g.opened, true) := by
  rw [beginBatch, hb, if_neg Bool.false_ne_true]
  rfl

/-- Inside a batch `Graph.beginBatch` changes nothing and answers `false`. -/
theorem beginBatch_of_inBatch (hb : g.inBatch = true) : g.beginBatch = (g, false) := by
  rw [beginBatch, if_pos hb]

/-- Outside a batch there is no journal. -/
theorem journal_eq_none (hb : g.inBatch = false) : g.journal = none :=
  Option.isNone_iff_eq_none.1 (by rw [← Option.not_isSome]; simpa [inBatch] using hb)

/-- Outside a batch the settled state is the graph itself. -/
theorem settled_of_not_inBatch (hb : g.inBatch = false) : g.settled = g :=
  settled_of_journal_eq_none (journal_eq_none hb)

/-- A batch just opened settles into the graph it was opened on. -/
theorem settled_opened (hb : g.inBatch = false) : g.opened.settled = g := by
  have hj := journal_eq_none hb
  rw [settled_of_journal_eq_some rfl]
  show { g with journal := none } = g
  rw [← hj]

/-- A settled state is outside a batch. -/
theorem inBatch_settled (g : Graph) : g.settled.inBatch = false := by
  rw [inBatch, journal_settled]
  rfl

/-- Outside a batch `Graph.endBatch` changes nothing and answers `false`. -/
theorem value_endBatch_of_not_inBatch (hb : g.inBatch = false) :
    g.endBatch.value = (g, .ok false) := by
  rw [endBatch, journal_eq_none hb]
  rfl

/-- In the presence of a cycle `Graph.endBatch` undoes the batch and the error holds the path found. -/
theorem value_endBatch_of_cycle (hb : g.inBatch = true) {path : List String}
    (hpath : g.findCycle? = some path) : g.endBatch.value = (g.settled, .error ⟨path⟩) := by
  obtain ⟨journal, hj⟩ := Option.isSome_iff_exists.1 hb
  rw [settled_of_journal_eq_some hj, ← value_rollBack]
  simp only [endBatch, hj, hpath]
  rfl

/-- Without a cycle `Graph.endBatch` closes the journal and keeps everything else. -/
theorem value_endBatch_of_acyclic (hb : g.inBatch = true) (hnone : g.findCycle? = none) :
    g.endBatch.value = ({ g with journal := none }, .ok true) := by
  obtain ⟨journal, hj⟩ := Option.isSome_iff_exists.1 hb
  simp only [endBatch, hj, hnone]
  rfl

/-- Inside a batch `Graph.abortBatch` undoes it. -/
theorem value_abortBatch_of_inBatch (hb : g.inBatch = true) :
    g.abortBatch.value = (g.settled, true) := by
  obtain ⟨journal, hj⟩ := Option.isSome_iff_exists.1 hb
  rw [settled_of_journal_eq_some hj, ← value_rollBack, abortBatch, hj]
  rfl

/-- Outside a batch `Graph.abortBatch` changes nothing and signals nothing. -/
theorem abortBatch_of_not_inBatch (hb : g.inBatch = false) : g.abortBatch = pure (g, false) := by
  rw [abortBatch, journal_eq_none hb]

/-- The two ways in which a batch ends: kept and without a cycle, or undone because of a cycle. -/
theorem WellFormed.value_endBatch_cases (hg : g.WellFormed) (hb : g.inBatch = true) :
    (g.endBatch.value = ({ g with journal := none }, .ok true) ∧
        ¬ HasCycle g.names g.edges.toList) ∨
      ((∃ err, g.endBatch.value = (g.settled, .error err)) ∧ HasCycle g.names g.edges.toList) := by
  cases hpath : g.findCycle? with
  | none => exact Or.inl ⟨value_endBatch_of_acyclic hb hpath, hg.findCycle?_eq_none_iff.1 hpath⟩
  | some path =>
    exact Or.inr ⟨⟨⟨path⟩, value_endBatch_of_cycle hb hpath⟩, hg.isSome_findCycle?_iff.1 ⟨path, hpath⟩⟩

/-! ## Guards -/

section Guarded

variable {α : Type} {step : Graph → Traced LinkSignal (Graph × Except CycleError α)}

/-- Inside a batch a guard joins it and changes nothing. -/
theorem value_guarded_of_inBatch (hb : g.inBatch = true) : (g.guarded step).value = (step g).value := by
  simp only [guarded, openGuard, beginBatch_of_inBatch hb, Traced.value_bind]
  rcases hstep : (step g).value with ⟨g', err | a⟩ <;> rfl

/-- Outside a batch a guard opens one, which ends after the step. -/
theorem value_guarded_of_not_inBatch (hb : g.inBatch = false) {a : α}
    (hstep : (step g.opened).value = (g', .ok a)) :
    (g.guarded step).value = (g'.endBatch.value.1, g'.endBatch.value.2.map fun _ => a) := by
  simp only [guarded, openGuard, beginBatch_of_not_inBatch hb, Traced.value_bind, hstep]
  show (g'.endBatch.value.1, (g'.endBatch.value.2.map fun _ => ()).map fun _ => a) = _
  cases g'.endBatch.value.2 <;> rfl

/-- A guard around a step that proceeds inside a batch proceeds there, since it joins the batch. -/
theorem Proceeds.guarded (hstep : Proceeds marks step) : Proceeds marks (Graph.guarded · step) := by
  intro g hg hb
  rw [value_guarded_of_inBatch hb]
  exact hstep g hg hb

end Guarded

/-- `Graph.addNodes` inside a batch is a step and is not refused. -/
theorem proceeds_addNodes (names : List String) : Proceeds marks (·.addNodes names) :=
  (proceeds_addAll (fun name => proceeds_addNode name) names).guarded

/-- `Graph.addEdges` inside a batch is a step and is not refused. -/
theorem proceeds_addEdges (edges : List Edge) : Proceeds marks (·.addEdges edges) :=
  (proceeds_addAll (fun e => proceeds_addEdge e) edges).guarded

theorem batchStep_removeNodes (hg : g.WellFormed) (hb : g.inBatch = true) (names : List String) :
    BatchStep marks g (g.removeNodes names).value.1 :=
  batchStep_removeAll (fun _ hg hb name => batchStep_removeNode hg hb name) hg hb names

theorem batchStep_removeEdges (hg : g.WellFormed) (hb : g.inBatch = true) (edges : List Edge) :
    BatchStep marks g (g.removeEdges edges).value.1 :=
  batchStep_removeAll (fun _ hg hb e => batchStep_removeEdge hg hb e) hg hb edges

end Recalc.Graph
