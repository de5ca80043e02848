import Recalc.Proofs.Graph.Acyclic

/-!
# Rolling a batch back

A batch that ends in a cycle, is aborted or whose guard is discarded leaves the graph as it was when
the batch was opened, whatever was done inside: nodes and edges in the singular and in the plural,
guards that join the batch, changes of marks. Only marks that were changed inside stay changed.

The commands inside a batch are described by their text alone: `guardsAfter?` counts the guards that
they leave open, and is absent if they contain another command or close a guard that they did not
open.
-/

namespace Recalc

open Recalc.Graph

namespace GraphCommand

/-- The command changes marks and nothing else. -/
def isMarking : GraphCommand → Bool
  | .invalidate _ | .markClean _ | .touch _ => true
  | _ => false

/-- The command adds or removes nodes or edges. -/
def isChange : GraphCommand → Bool
  | .addNode _ | .removeNode _ | .addEdge _ | .removeEdge _ => true
  | .addNodes _ | .removeNodes _ | .addEdges _ | .removeEdges _ => true
  | _ => false

/-- The number of guards that are open after a command inside a batch, of those opened there. -/
def guardsAfter? (depth : Nat) : GraphCommand → Option Nat
  | .addNode _ | .removeNode _ | .addEdge _ | .removeEdge _ => some depth
  | .addNodes _ | .removeNodes _ | .addEdges _ | .removeEdges _ => some depth
  | .invalidate _ | .markClean _ | .touch _ => some depth
  | .openGuard => some (depth + 1)
  | .commitGuard | .discardGuard => if 0 < depth then some (depth - 1) else none
  | .beginBatch | .endBatch | .endBatchQuietly | .abortBatch | .reset => none

/-- The number of guards that are open after a run of commands inside a batch, by `guardsAfter?` of each. -/
def guardsAfterAll? (depth : Nat) (commands : List GraphCommand) : Option Nat :=
  commands.foldlM guardsAfter? depth

/-- What `guardsAfter?` allows inside a batch: changes, markings, and guards that are opened and closed. -/
theorem guardsAfter?_cases {c : GraphCommand} {depth depth' : Nat} (h : c.guardsAfter? depth = some depth') :
    (c.isChange = true ∨ c.isMarking = true) ∧ depth' = depth ∨ c = .openGuard ∧ depth' = depth + 1 ∨
      (c = .commitGuard ∨ c = .discardGuard) ∧ depth = depth' + 1 := by
  have hclose : (if 0 < depth then some (depth - 1) else none) = some depth' →
      depth = depth' + 1 := fun h => by
    split_ifs at h with hpos
    obtain rfl := Option.some.inj h
    omega
  cases c with
  | addNode _ | removeNode _ | addEdge _ | removeEdge _ => exact .inl ⟨.inl rfl, (Option.some.inj h).symm⟩
  | addNodes _ | removeNodes _ | addEdges _ | removeEdges _ => exact .inl ⟨.inl rfl, (Option.some.inj h).symm⟩
  | invalidate _ | markClean _ | touch _ => exact .inl ⟨.inr rfl, (Option.some.inj h).symm⟩
  | openGuard => exact .inr (.inl ⟨rfl, (Option.some.inj h).symm⟩)
  | commitGuard => exact .inr (.inr ⟨.inl rfl, hclose h⟩)
  | discardGuard => exact .inr (.inr ⟨.inr rfl, hclose h⟩)
  | beginBatch | endBatch | endBatchQuietly | abortBatch | reset => cases h

/-- The command opens a batch. -/
def Opens : GraphCommand → Prop
  | .beginBatch | .openGuard => True
  | _ => False

end GraphCommand

namespace GraphSession

variable {s : GraphSession} {marks : Prop}

/-- The command ends the open batch in such a way that it is undone. A guard ends the batch only if it
owns it. -/
def Undoes (s : GraphSession) : GraphCommand → Prop
  | .endBatch | .endBatchQuietly => HasCycle s.graph.names s.graph.edges.toList
  | .abortBatch => True
  | .commitGuard => s.guards.head? = some ⟨true⟩ ∧ HasCycle s.graph.names s.graph.edges.toList
  | .discardGuard => s.guards.head? = some ⟨true⟩
  | _ => False

/-- Inside a batch each change is a step of the graph. -/
theorem batchStep_change (hs : s.graph.WellFormed) (hb : s.graph.inBatch = true) {c : GraphCommand}
    (hc : c.isChange = true) : BatchStep marks s.graph (s.perform c).value.1.graph := by
  cases c with
  | addNode name => exact (proceeds_addNode name s.graph hs hb).1
  | removeNode name => exact batchStep_removeNode hs hb name
  | addEdge e => exact (proceeds_addEdge e s.graph hs hb).1
  | removeEdge e => exact batchStep_removeEdge hs hb e
  | addNodes names => exact (proceeds_addNodes names s.graph hs hb).1
  | removeNodes names => exact batchStep_removeNodes hs hb names
  | addEdges edges => exact (proceeds_addEdges edges s.graph hs hb).1
  | removeEdges edges => exact batchStep_removeEdges hs hb edges
  | _ => cases hc

/-- Inside a batch each marking is a step of the graph for which marks do not count. -/
theorem batchStep_marking (hs : s.graph.WellFormed) (hb : s.graph.inBatch = true) {c : GraphCommand}
    (hc : c.isMarking = true) : BatchStep False s.graph (s.perform c).value.1.graph := by
  cases c with
  | invalidate name => exact .of_sameShape (sameShape_invalidate s.graph name) hs hb
  | markClean name => exact .of_sameShape (sameShape_markClean s.graph name) hs hb
  | touch name => exact .of_sameShape (sameShape_touch s.graph name) hs hb
  | _ => cases hc

/-- Changes and markings neither open nor close guards. -/
theorem guards_perform {c : GraphCommand} (hc : c.isChange = true ∨ c.isMarking = true) :
    (s.perform c).value.1.guards = s.guards := by
  cases c with
  | beginBatch | endBatch | endBatchQuietly | abortBatch | reset => exact absurd hc (by decide)
  | openGuard | commitGuard | discardGuard => exact absurd hc (by decide)
  | _ => rfl

/-- A guard that is opened inside a batch joins it and owns nothing. -/
theorem perform_openGuard (hb : s.graph.inBatch = true) :
    (s.perform .openGuard).value.1 = { s with guards := ⟨false⟩ :: s.guards } := by
  simp only [perform, openGuard, beginBatch_of_inBatch hb, Traced.value_pure]

/-- However a guard that owns nothing is closed, the graph stays as it is. -/
theorem perform_closeGuard {rest : List BatchGuard} (hguards : s.guards = ⟨false⟩ :: rest) {c : GraphCommand}
    (hc : c = .commitGuard ∨ c = .discardGuard) : (s.perform c).value.1 = { s with guards := rest } := by
  rcases hc with rfl | rfl <;> simp only [perform, hguards] <;> rfl

/-- Inside a batch a command is a step of the graph, and the guards opened inside own nothing. -/
theorem batchStep_perform (hs : s.graph.WellFormed) (hb : s.graph.inBatch = true)
    {outer : List BatchGuard} {depth depth' : Nat}
    (hguards : s.guards = List.replicate depth ⟨false⟩ ++ outer) {c : GraphCommand}
    (hdepth : c.guardsAfter? depth = some depth') (hmarks : marks → c.isMarking = false) :
    BatchStep marks s.graph (s.perform c).value.1.graph ∧
      (s.perform c).value.1.guards = List.replicate depth' ⟨false⟩ ++ outer := by
  rcases GraphCommand.guardsAfter?_cases hdepth with ⟨hc, rfl⟩ | ⟨rfl, rfl⟩ | ⟨hc, rfl⟩
  · refine ⟨?_, (guards_perform hc).trans hguards⟩
    rcases hc with hchange | hmarking
    · exact batchStep_change hs hb hchange
    · -- A marking is a step only where marks do not count.
      exact (batchStep_marking hs hb hmarking).mono fun m => by simp [hmarks m] at hmarking
  · rw [perform_openGuard hb, hguards]
    exact ⟨BatchStep.refl hs hb, rfl⟩
  · rw [perform_closeGuard hguards hc]
    exact ⟨BatchStep.refl hs hb, rfl⟩

variable (marks) in
/-- `batchStep_perform` for a run of commands. -/
theorem batchStep_performAll (hs : s.graph.WellFormed) (hb : s.graph.inBatch = true)
    {outer : List BatchGuard} {depth depth' : Nat}
    (hguards : s.guards = List.replicate depth ⟨false⟩ ++ outer) {steps : List GraphCommand}
    (hdepth : GraphCommand.guardsAfterAll? depth steps = some depth')
    (hmarks : marks → ∀ c ∈ steps, c.isMarking = false) :
    BatchStep marks s.graph (s.performAll steps).value.graph ∧
      (s.performAll steps).value.guards = List.replicate depth' ⟨false⟩ ++ outer := by
  induction steps generalizing s depth with
  | nil =>
    obtain rfl : depth = depth' := Option.some.inj hdepth
    exact ⟨BatchStep.refl hs hb, hguards⟩
  | cons c steps ih =>
    rw [GraphCommand.guardsAfterAll?, List.foldlM_cons] at hdepth
    obtain ⟨between, hc, hrest⟩ := Option.bind_eq_some_iff.1 hdepth
    obtain ⟨hstep, hguards'⟩ := batchStep_perform hs hb hguards hc fun m => hmarks m c List.mem_cons_self
    obtain ⟨hsteps, hguards''⟩ := ih hstep.wellFormed hstep.inBatch hguards' hrest
      fun m c' hc' => hmarks m c' (List.mem_cons_of_mem c hc')
    rw [value_performAll_cons]
    exact ⟨hstep.trans hsteps, hguards''⟩

/-- A run of commands can be cut anywhere. -/
theorem value_performAll_append (s : GraphSession) (commands steps : List GraphCommand) :
    (s.performAll (commands ++ steps)).value =
      ((s.performAll commands).value.performAll steps).value := by
  rw [performAll, List.foldlM_append]
  rfl

/-- Opening a batch leaves the graph as it is, but for the batch. -/
theorem graph_perform_opens (hb : s.graph.inBatch = false) {opening : GraphCommand}
    (hopening : opening.Opens) : (s.perform opening).value.1.graph = s.graph.opened := by
  cases opening with
  | beginBatch => simp [perform, store, beginBatch_of_not_inBatch hb]
  | openGuard => simp [perform, Graph.openGuard, beginBatch_of_not_inBatch hb]
  | _ => exact hopening.elim

/-- Ending a batch so that it is undone leaves the graph that undoing results in. -/
theorem graph_perform_undoes (hs : s.graph.WellFormed) (hb : s.graph.inBatch = true)
    {ending : GraphCommand} (hending : s.Undoes ending) :
    (s.perform ending).value.1.graph = s.graph.settled := by
  -- If the graph has a cycle, ending the batch undoes it.
  have hend : HasCycle s.graph.names s.graph.edges.toList →
      s.graph.endBatch.value.1 = s.graph.settled := by
    intro hcycle
    obtain ⟨path, hpath⟩ := hs.isSome_findCycle?_iff.2 hcycle
    rw [value_endBatch_of_cycle hb hpath]
  have habort : s.graph.abortBatch.value.1 = s.graph.settled := by
    rw [value_abortBatch_of_inBatch hb]
  cases ending with
  | endBatch => exact hend hending
  | endBatchQuietly => exact hend hending
  | abortBatch => exact habort
  | commitGuard =>
    obtain ⟨howner, hcycle⟩ := hending
    obtain ⟨rest, hguards⟩ := List.head?_eq_some_iff.1 howner
    simp only [perform, hguards]
    exact hend hcycle
  | discardGuard =>
    obtain ⟨rest, hguards⟩ := List.head?_eq_some_iff.1 hending
    simp only [perform, hguards]
    exact habort
  | _ => exact hending.elim

/-- Whatever was done to a graph before and inside a batch: once the batch is undone, the graph has
the nodes, in order, the edges and the links that it had when the batch was opened, and, unless marks
were changed inside, the same marks. -/
theorem restored_of_undone (commands : List GraphCommand) {opening ending : GraphCommand}
    {steps : List GraphCommand} {depth : Nat}
    (hb : (performAll {} commands).value.graph.inBatch = false) (hopening : opening.Opens)
    (hsteps : GraphCommand.guardsAfterAll? 0 steps = some depth)
    (hending : (performAll {} (commands ++ opening :: steps)).value.Undoes ending) :
    let before := (performAll {} commands).value.graph
    let after := (performAll {} (commands ++ opening :: steps ++ [ending])).value.graph
    after.inBatch = false ∧ after.names = before.names ∧
    (∀ e, e ∈ after.edges.toList ↔ e ∈ before.edges.toList) ∧
    (∀ n t, t ∈ after.dependenciesOf n ↔ t ∈ before.dependenciesOf n) ∧
    (∀ n f, f ∈ after.dependentsOf n ↔ f ∈ before.dependentsOf n) ∧
    ((∀ c ∈ steps, c.isMarking = false) → ∀ n, after.mark? n = before.mark? n) := by
  intro before after
  set s := (performAll {} commands).value with hs
  have hwf : s.graph.WellFormed := (sound_of_commands commands).wellFormed
  have hopened := graph_perform_opens hb hopening
  -- With marks left out of account, as far as they were changed, all that happens inside is one step.
  have hinside := (batchStep_performAll (s := (s.perform opening).value.1)
    (∀ c ∈ steps, c.isMarking = false) (by rw [hopened]; exact hwf.opened) (by rw [hopened]; rfl)
    (List.nil_append _).symm hsteps id).1
  rw [value_performAll_append, value_performAll_cons, ← hs] at hending
  have hafter : after = ((s.perform opening).value.1.performAll steps).value.graph.settled := by
    show (performAll {} _).value.graph = _
    rw [List.append_assoc, value_performAll_append, ← hs, List.cons_append, value_performAll_cons,
      value_performAll_append]
    exact graph_perform_undoes hinside.wellFormed hinside.inBatch hending
  -- Undoing results in the graph before the batch, and well-formed graphs that are alike have the
  -- same links.
  have halike : Alike (∀ c ∈ steps, c.isMarking = false) after s.graph := by
    have h := hinside.settled
    rw [hopened, settled_opened hb] at h
    rwa [hafter]
  have hwf' : after.WellFormed := hafter ▸ hinside.wellFormed.settled
  refine ⟨hafter ▸ inBatch_settled _, halike.names, halike.mem_edges, fun n t => ?_, fun n f => ?_,
    halike.mark?⟩
  · rw [hwf'.mem_dependenciesOf, hwf.mem_dependenciesOf]
    exact halike.depends_iff n t
  · rw [hwf'.mem_dependentsOf, hwf.mem_dependentsOf]
    exact halike.depends_iff f n

/-- A node is removed, comes back and is removed again, and an edge closes a cycle while a guard inside
is open; the guard that opened the batch cannot commit, and everything is as before. -/
theorem restored_of_undone_cycle :
    let commands : List GraphCommand :=
      [.addNodes ["a", "b", "c"], .addEdges [⟨"a", "b"⟩, ⟨"b", "c"⟩], .touch "b"]
    let steps : List GraphCommand :=
      [.removeNode "b", .addNode "b", .openGuard, .removeNode "a", .addEdge ⟨"c", "a"⟩, .addNode "a",
        .commitGuard]
    let before := (performAll {} commands).value.graph
    let after := (performAll {} (commands ++ .openGuard :: steps ++ [.commitGuard])).value.graph
    before.inBatch = false ∧ GraphCommand.guardsAfterAll? 0 steps = some 0 ∧
      (performAll {} (commands ++ .openGuard :: steps)).value.Undoes .commitGuard ∧
      after.names = before.names ∧ (∀ n, after.mark? n = before.mark? n) := by
  intro commands steps before after
  have hb : before.inBatch = false := by decide
  have hopens : GraphCommand.openGuard.Opens := trivial
  have hsteps : GraphCommand.guardsAfterAll? 0 steps = some 0 := rfl
  have hcycle : HasCycle (performAll {} (commands ++ .openGuard :: steps)).value.graph.names
      (performAll {} (commands ++ .openGuard :: steps)).value.graph.edges.toList :=
    ⟨"a", .tail (.tail (.single (b := "b") (by decide)) (b := "b") (c := "c") (by decide)) (by decide)⟩
  have hundoes : (performAll {} (commands ++ .openGuard :: steps)).value.Undoes .commitGuard :=
    ⟨by decide, hcycle⟩
  obtain ⟨-, hnames, -, -, -, hmarks⟩ := restored_of_undone commands hb hopens hsteps hundoes
  exact ⟨hb, hsteps, hundoes, hnames, hmarks (by decide)⟩

end GraphSession

end Recalc
