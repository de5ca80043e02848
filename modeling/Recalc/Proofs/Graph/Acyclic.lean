import Recalc.Graph.Command
import Recalc.Proofs.Graph.Batch

/-!
# Graphs in use have no cycle

`Sound` is the invariant of a graph in use: it is well-formed, and it has no cycle once an open batch
is undone. Each public operation keeps it. So a graph without an open batch never has a cycle, and
from the invariant it follows which additions are refused and that a refused one leaves no trace.
-/

namespace Recalc

namespace Graph

variable {g g' : Graph}

/-- The graph is well-formed, and it has no cycle once an open batch is undone. -/
structure Sound (g : Graph) : Prop where
  wellFormed : g.WellFormed
  acyclic : ¬ HasCycle g.settled.names g.settled.edges.toList

namespace Sound

/-- Outside a batch there is no cycle. -/
theorem not_hasCycle (hg : g.Sound) (hb : g.inBatch = false) :
    ¬ HasCycle g.names g.edges.toList := by
  have h := hg.acyclic
  rwa [settled_of_not_inBatch hb] at h

/-- Outside a batch a `WellFormed` graph without a cycle is `Sound`. -/
theorem of_not_inBatch (hg : g.WellFormed) (hb : g.inBatch = false)
    (hacyclic : ¬ HasCycle g.names g.edges.toList) : g.Sound := by
  refine ⟨hg, ?_⟩
  rwa [settled_of_not_inBatch hb]

/-- Whether a graph without a cycle once its batch is undone is sound is a matter of that graph. -/
theorem of_alike (hg : g.Sound) (hg' : g'.WellFormed) (halike : Alike False g'.settled g.settled) :
    g'.Sound :=
  ⟨hg', fun h => hg.acyclic ((hasCycle_congr halike.depends_iff).1 h)⟩

/-- A step inside a batch keeps a graph `Sound`, even one that closes a cycle. -/
theorem of_batchStep (hg : g.Sound) (hstep : BatchStep False g g') : g'.Sound :=
  hg.of_alike hstep.wellFormed hstep.settled

/-- Changing marks closes no cycle. -/
theorem of_sameShape (hg : g.Sound) (hshape : SameShape g' g) : g'.Sound :=
  hg.of_alike (hshape.wellFormed hg.wellFormed) (hshape.alike.settled hshape.journal)

/-- The settled state of a `Sound` graph is `Sound`. -/
theorem settled (hg : g.Sound) : g.settled.Sound :=
  of_not_inBatch hg.wellFormed.settled (inBatch_settled g) hg.acyclic

/-- Opening a batch keeps a graph `Sound`. -/
theorem opened (hg : g.Sound) (hb : g.inBatch = false) : g.opened.Sound := by
  refine ⟨hg.wellFormed.opened, ?_⟩
  rw [settled_opened hb]
  exact hg.not_hasCycle hb

/-! ## Batches and guards -/

/-- `Graph.beginBatch` keeps a graph `Sound`, whether or not a batch is open. -/
theorem beginBatch (hg : g.Sound) : g.beginBatch.1.Sound := by
  cases hb : g.inBatch with
  | true => rwa [beginBatch_of_inBatch hb]
  | false =>
    rw [beginBatch_of_not_inBatch hb]
    exact hg.opened hb

/-- `Graph.endBatch` keeps a graph `Sound`: it keeps a batch without a cycle and undoes any other. -/
theorem endBatch (hg : g.Sound) : g.endBatch.value.1.Sound := by
  cases hb : g.inBatch with
  | false => rwa [value_endBatch_of_not_inBatch hb]
  | true =>
    rcases hg.wellFormed.value_endBatch_cases hb with ⟨hend, hacyclic⟩ | ⟨⟨err, hend⟩, -⟩
    · rw [hend]
      exact of_not_inBatch (hg.wellFormed.withJournal none) rfl hacyclic
    · rw [hend]
      exact hg.settled

theorem abortBatch (hg : g.Sound) : g.abortBatch.value.1.Sound := by
  cases hb : g.inBatch with
  | false => rwa [abortBatch_of_not_inBatch hb]
  | true =>
    rw [value_abortBatch_of_inBatch hb]
    exact hg.settled

/-- Committing a guard keeps a graph `Sound`, whether the guard opened its batch or joined one. -/
theorem commitGuard (hg : g.Sound) (guard : BatchGuard) :
    (g.commitGuard guard).value.1.Sound := by
  unfold Graph.commitGuard
  split_ifs
  · exact hg.endBatch
  · exact hg

/-- Dropping a guard keeps a graph `Sound`, whether the guard opened its batch or joined one. -/
theorem discardGuard (hg : g.Sound) (guard : BatchGuard) :
    (g.discardGuard guard).value.Sound := by
  unfold Graph.discardGuard
  split_ifs
  · exact hg.abortBatch
  · exact hg

/-- A guard around a step that proceeds inside a batch keeps a graph `Sound`. -/
theorem guarded {α : Type} {step : Graph → Traced LinkSignal (Graph × Except CycleError α)}
    (hg : g.Sound) (hstep : Proceeds False step) : (g.guarded step).value.1.Sound := by
  cases hb : g.inBatch with
  | true => exact hg.of_batchStep (hstep.guarded g hg.wellFormed hb).1
  | false =>
    -- Inside the batch there may be cycles; ending it sees to them.
    obtain ⟨hstepped, a, ha⟩ := hstep g.opened hg.wellFormed.opened rfl
    rw [value_guarded_of_not_inBatch hb (Prod.ext rfl ha)]
    exact ((hg.opened hb).of_batchStep hstepped).endBatch

/-! ## Single changes -/

/-- Outside a batch, an addition that can be taken back is settled soundly. -/
theorem settle {c : Change} {takeBack : Graph → Traced LinkSignal Graph} (hg : g.Sound)
    (hg' : g'.WellFormed) (hb' : g'.inBatch = false) (hback : (takeBack g').value = g) :
    (g'.settle c takeBack).value.1.Sound := by
  rcases hg'.value_settle_cases hb' with ⟨hvalue, hacyclic⟩ | ⟨err, hvalue⟩
  · rw [hvalue]
    exact of_not_inBatch hg' hb' hacyclic
  · rw [hvalue]
    show (takeBack g').value.Sound
    rwa [hback]

/-- `Graph.addNode` keeps a graph `Sound`: outside a batch it takes back a node that closes a cycle through
edges that waited for it. -/
theorem addNode (hg : g.Sound) (name : String) : (g.addNode name).value.1.Sound := by
  cases hb : g.inBatch with
  | true => exact hg.of_batchStep (proceeds_addNode name g hg.wellFormed hb).1
  | false =>
    by_cases hname : name ∈ g.names
    · rwa [addNode_of_mem hname]
    · rw [value_addNode hname]
      refine hg.settle (hg.wellFormed.attach _ name _ _) ?_
        (hg.wellFormed.detach_attach hname _ _)
      rw [inBatch, journal_attach]
      exact hb

/-- `Graph.addEdge` keeps a graph `Sound`: outside a batch it takes back an edge that closes a cycle. -/
theorem addEdge (hg : g.Sound) (e : Edge) : (g.addEdge e).value.1.Sound := by
  cases hb : g.inBatch with
  | true => exact hg.of_batchStep (proceeds_addEdge e g hg.wellFormed hb).1
  | false =>
    by_cases he : e ∈ g.edges.toList
    · rwa [addEdge_of_mem he]
    · rw [value_addEdge he]
      refine hg.settle (hg.wellFormed.storeEdge e) ?_ (hg.wellFormed.dropEdge_storeEdge he)
      rw [inBatch, (sameFrame_storeEdge e g).journal]
      exact hb

/-- Outside a batch nothing is recorded. -/
theorem record_of_not_inBatch (hb : g.inBatch = false) (c : Change) : g.record c = g := by
  have hj := journal_eq_none hb
  rw [Graph.record, hj, Option.map_none, ← hj]

theorem removeNode (hg : g.Sound) (name : String) : (g.removeNode name).value.1.Sound := by
  cases hb : g.inBatch with
  | true => exact hg.of_batchStep (batchStep_removeNode hg.wellFormed hb name)
  | false =>
    by_cases hname : name ∈ g.names
    · obtain ⟨node, hnode⟩ := mem_names_iff.1 hname
      obtain ⟨place, hplace⟩ := indexOf?_of_mem hname
      have hb' : (g.detach name).value.inBatch = false := by rw [inBatch, journal_detach]; exact hb
      rw [value_removeNode hnode hplace, record_of_not_inBatch hb']
      -- Fewer nodes depend on each other than before.
      refine of_not_inBatch (hg.wellFormed.detach name) hb' fun h => hg.not_hasCycle hb (h.mono ?_)
      intro a b hab
      rw [DependsIn, edges_detach, names_detach] at hab
      exact ⟨hab.1, (List.mem_filter.1 hab.2.1).1, (List.mem_filter.1 hab.2.2).1⟩
    · rwa [removeNode_of_not_mem hname]

theorem removeEdge (hg : g.Sound) (e : Edge) : (g.removeEdge e).value.1.Sound := by
  cases hb : g.inBatch with
  | true => exact hg.of_batchStep (batchStep_removeEdge hg.wellFormed hb e)
  | false =>
    by_cases he : e ∈ g.edges.toList
    · have hb' : (g.dropEdge e).value.inBatch = false := by
        rw [inBatch, (sameFrame_dropEdge e g).journal]
        exact hb
      rw [value_removeEdge he, record_of_not_inBatch hb']
      refine of_not_inBatch (hg.wellFormed.dropEdge e) hb' fun h => hg.not_hasCycle hb (h.mono ?_)
      intro a b hab
      rw [DependsIn, mem_edges_dropEdge, names_dropEdge] at hab
      exact ⟨hab.1.1, hab.2⟩
    · rwa [removeEdge_of_not_mem he]

/-- `Graph.reset` results in a `Sound` graph. -/
theorem reset (g : Graph) : g.reset.Sound :=
  of_not_inBatch ⟨wellFormed_empty.indexed, wellFormed_empty.mem_dependenciesOf,
    wellFormed_empty.mem_dependentsOf⟩ rfl (not_hasCycle_nil _)

/-- The empty graph is `Sound`. -/
theorem empty : ({} : Graph).Sound := of_not_inBatch wellFormed_empty rfl (not_hasCycle_nil _)

end Sound

/-! ## Which additions are refused -/

/-- Attaching a new node at the end appends its name. -/
theorem names_attach_size {name : String} (hname : name ∉ g.names) (node : Node) :
    (g.attach g.nodes.size name node).value.names = g.names ++ [name] := by
  rw [names_attach _ name hname, ← OrderedMap.length_keys]
  show g.names.take g.names.length ++ name :: g.names.drop g.names.length = _
  rw [List.take_length, List.drop_length]

/-- `Graph.addNode` refuses a new node exactly outside a batch and if the edges close a cycle through it. -/
theorem WellFormed.addNode_refuses_iff (hg : g.WellFormed) {name : String} (hname : name ∉ g.names) :
    (∃ err, (g.addNode name).value.2 = .error err) ↔
      g.inBatch = false ∧ HasCycle (g.names ++ [name]) g.edges.toList := by
  rw [value_addNode hname, (hg.attach _ name _ _).settle_refuses_iff, inBatch, journal_attach,
    names_attach_size hname, edges_attach]
  rfl

/-- `Graph.addEdge` refuses a new edge exactly outside a batch and if it closes a cycle. -/
theorem WellFormed.addEdge_refuses_iff (hg : g.WellFormed) {e : Edge} (he : e ∉ g.edges.toList) :
    (∃ err, (g.addEdge e).value.2 = .error err) ↔
      g.inBatch = false ∧ HasCycle g.names (g.edges.toList ++ [e]) := by
  rw [value_addEdge he, (hg.storeEdge e).settle_refuses_iff, inBatch,
    (sameFrame_storeEdge e g).journal, names_storeEdge, (sameFrame_storeEdge e g).edges,
    EdgeStore.toList_insert he]
  rfl

/-- A node that is refused leaves no trace. -/
theorem WellFormed.addNode_of_refused (hg : g.WellFormed) {name : String} {err : CycleError}
    (herr : (g.addNode name).value.2 = .error err) : (g.addNode name).value.1 = g := by
  by_cases hname : name ∈ g.names
  · rw [addNode_of_mem hname] at herr
    cases herr
  · obtain ⟨hb, -⟩ := (hg.addNode_refuses_iff hname).1 ⟨err, herr⟩
    have hb' : (g.attach g.nodes.size name {}).value.inBatch = false := by
      rw [inBatch, journal_attach]
      exact hb
    rw [value_addNode hname] at herr ⊢
    rcases (hg.attach g.nodes.size name _ _).value_settle_cases hb' with ⟨hkept, -⟩ | ⟨_, hback⟩
    · rw [hkept] at herr
      cases herr
    · rw [hback]
      exact hg.detach_attach hname _ _

/-- An edge that is refused leaves no trace. -/
theorem WellFormed.addEdge_of_refused (hg : g.WellFormed) {e : Edge} {err : CycleError}
    (herr : (g.addEdge e).value.2 = .error err) : (g.addEdge e).value.1 = g := by
  by_cases he : e ∈ g.edges.toList
  · rw [addEdge_of_mem he] at herr
    cases herr
  · obtain ⟨hb, -⟩ := (hg.addEdge_refuses_iff he).1 ⟨err, herr⟩
    have hb' : (g.storeEdge e).value.inBatch = false := by
      rw [inBatch, (sameFrame_storeEdge e g).journal]
      exact hb
    rw [value_addEdge he] at herr ⊢
    rcases (hg.storeEdge e).value_settle_cases hb' with ⟨hkept, -⟩ | ⟨_, hback⟩
    · rw [hkept] at herr
      cases herr
    · rw [hback]
      exact hg.dropEdge_storeEdge he

/-- Ending a batch is refused exactly if the graph has a cycle; outside a batch it has none. -/
theorem Sound.endBatch_refuses_iff (hg : g.Sound) :
    (∃ err, g.endBatch.value.2 = .error err) ↔ HasCycle g.names g.edges.toList := by
  cases hb : g.inBatch with
  | false =>
    rw [value_endBatch_of_not_inBatch hb]
    exact ⟨fun ⟨_, h⟩ => (nomatch h), fun h => absurd h (hg.not_hasCycle hb)⟩
  | true =>
    rcases hg.wellFormed.value_endBatch_cases hb with ⟨hend, hacyclic⟩ | ⟨⟨err, hend⟩, hcycle⟩
    · rw [hend]
      exact ⟨fun ⟨_, h⟩ => (nomatch h), fun h => absurd h hacyclic⟩
    · rw [hend]
      exact ⟨fun _ => hcycle, fun _ => ⟨err, rfl⟩⟩

end Graph

/-! ## Sessions -/

namespace GraphSession

open Recalc.Graph

variable {s : GraphSession}

/-- Every public operation keeps the graph sound. -/
theorem sound_perform (hs : s.graph.Sound) (c : GraphCommand) :
    (s.perform c).value.1.graph.Sound := by
  cases c with
  | addNode name => exact hs.addNode name
  | removeNode name => exact hs.removeNode name
  | addEdge e => exact hs.addEdge e
  | removeEdge e => exact hs.removeEdge e
  | addNodes names => exact hs.guarded (proceeds_addAll (fun name => proceeds_addNode name) names)
  | removeNodes names => exact removeAll_induction (fun _ name hg => hg.removeNode name) names hs
  | addEdges edges => exact hs.guarded (proceeds_addAll (fun e => proceeds_addEdge e) edges)
  | removeEdges edges => exact removeAll_induction (fun _ e hg => hg.removeEdge e) edges hs
  | beginBatch => exact hs.beginBatch
  | endBatch => exact hs.endBatch
  | endBatchQuietly => exact hs.endBatch
  | abortBatch => exact hs.abortBatch
  | openGuard => exact hs.beginBatch
  | commitGuard =>
    unfold perform
    cases s.guards with
    | nil => exact hs
    | cons guard guards => exact hs.commitGuard guard
  | discardGuard =>
    unfold perform
    cases s.guards with
    | nil => exact hs
    | cons guard guards => exact hs.discardGuard guard
  | invalidate name => exact hs.of_sameShape (sameShape_invalidate s.graph name)
  | markClean name => exact hs.of_sameShape (sameShape_markClean s.graph name)
  | touch name => exact hs.of_sameShape (sameShape_touch s.graph name)
  | reset => exact Sound.reset s.graph

/-- A run of commands performs the first and goes on from there. -/
theorem value_performAll_cons (s : GraphSession) (c : GraphCommand) (commands : List GraphCommand) :
    (s.performAll (c :: commands)).value = ((s.perform c).value.1.performAll commands).value := rfl

/-- Every run of operations keeps a session's graph `Sound`. -/
theorem sound_performAll (hs : s.graph.Sound) (commands : List GraphCommand) :
    (s.performAll commands).value.graph.Sound := by
  induction commands generalizing s with
  | nil => exact hs
  | cons c commands ih =>
    rw [value_performAll_cons]
    exact ih (sound_perform hs c)

/-- The graphs that can be reached from the empty one are sound. -/
theorem sound_of_commands (commands : List GraphCommand) :
    (performAll {} commands).value.graph.Sound :=
  sound_performAll Sound.empty commands

/-- Whatever was done to a graph: without an open batch it has no cycle; an addition outside a batch
is refused exactly if it would close one, and a batch that ends is refused exactly if it closed one;
and an addition that is refused leaves the graph as it was. -/
theorem acyclic_of_commands (commands : List GraphCommand) :
    let g := (performAll {} commands).value.graph
    (g.inBatch = false → ¬ HasCycle g.names g.edges.toList) ∧
    (g.inBatch = false → ∀ e, e ∉ g.edges.toList →
      ((∃ err, (g.addEdge e).value.2 = .error err) ↔ HasCycle g.names (g.edges.toList ++ [e]))) ∧
    (g.inBatch = false → ∀ name, name ∉ g.names →
      ((∃ err, (g.addNode name).value.2 = .error err) ↔
        HasCycle (g.names ++ [name]) g.edges.toList)) ∧
    ((∃ err, g.endBatch.value.2 = .error err) ↔ HasCycle g.names g.edges.toList) ∧
    (∀ e err, (g.addEdge e).value.2 = .error err → (g.addEdge e).value.1 = g) ∧
    (∀ name err, (g.addNode name).value.2 = .error err → (g.addNode name).value.1 = g) := by
  intro g
  have hg : g.Sound := sound_of_commands commands
  refine ⟨hg.not_hasCycle, fun hb e he => ?_, fun hb name hname => ?_, hg.endBatch_refuses_iff,
    fun e err => hg.wellFormed.addEdge_of_refused, fun name err => hg.wellFormed.addNode_of_refused⟩
  · rw [hg.wellFormed.addEdge_refuses_iff he]
    exact ⟨And.right, fun h => ⟨hb, h⟩⟩
  · rw [hg.wellFormed.addNode_refuses_iff hname]
    exact ⟨And.right, fun h => ⟨hb, h⟩⟩

/-- Of two nodes, one may depend on the other, but then not the other on the one. -/
theorem acyclic_of_commands_two_nodes :
    let g := (performAll {} [.addNode "a", .addNode "b", .addEdge ⟨"a", "b"⟩]).value.graph
    g.inBatch = false ∧ ⟨"b", "a"⟩ ∉ g.edges.toList ∧
      HasCycle g.names (g.edges.toList ++ [⟨"b", "a"⟩]) ∧
      (∃ err, (g.addEdge ⟨"b", "a"⟩).value.2 = .error err) ∧
      ¬ HasCycle g.names g.edges.toList := by
  intro g
  have hall := acyclic_of_commands [.addNode "a", .addNode "b", .addEdge ⟨"a", "b"⟩]
  have hb : g.inBatch = false := by decide
  have he : ⟨"b", "a"⟩ ∉ g.edges.toList := by decide
  have hcycle : HasCycle g.names (g.edges.toList ++ [⟨"b", "a"⟩]) :=
    ⟨"a", .tail (.single (b := "b") (by decide)) (by decide)⟩
  exact ⟨hb, he, hcycle, (hall.2.1 hb _ he).2 hcycle, hall.1 hb⟩

end GraphSession

end Recalc
