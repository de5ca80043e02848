import Recalc.Graph.Batch
import Recalc.Graph.Staleness

/-!
# Sessions

A session is a graph with the guards that are open on it, innermost first; `perform` runs one public
operation. The states that users of a graph can reach are the states of sessions that start from the
empty graph.
-/

namespace Recalc

/-- A public operation on a graph, or the opening or closing of a guard. -/
inductive GraphCommand where
  | addNode (name : String)
  | removeNode (name : String)
  | addEdge (edge : Edge)
  | removeEdge (edge : Edge)
  | addNodes (names : List String)
  | removeNodes (names : List String)
  | addEdges (edges : List Edge)
  | removeEdges (edges : List Edge)
  | beginBatch
  | endBatch
  | endBatchQuietly
  | abortBatch
  | openGuard
  | commitGuard
  | discardGuard
  | invalidate (name : String)
  | markClean (name : String)
  | touch (name : String)
  | reset
  deriving DecidableEq, Repr

/-- What an operation answers. -/
inductive GraphReply where
  /-- Nothing to tell. -/
  | done
  /-- A yes or no. -/
  | flag (b : Bool)
  /-- A refusal because of a cycle. -/
  | refused (e : CycleError)
  /-- The stamp issued, if one was. -/
  | stamp (s : Option Stamp)
  deriving DecidableEq, Repr

/-- The reply of an operation that may be refused. -/
def GraphReply.ofExcept : Except CycleError Bool → GraphReply
  | .ok b => .flag b
  | .error e => .refused e

/-- A graph in use. -/
structure GraphSession where
  /-- The graph. -/
  graph : Graph := {}
  /-- The open guards, innermost first. -/
  guards : List BatchGuard := []
  deriving DecidableEq

namespace GraphSession

/-- Put the graph that an operation left behind into the session. -/
def store (s : GraphSession) {α : Type} (reply : α → GraphReply)
    (t : Traced LinkSignal (Graph × α)) : Traced LinkSignal (GraphSession × GraphReply) := do
  let (graph, a) ← t
  pure ({ s with graph }, reply a)

/-- Run one operation. Closing a guard when none is open does nothing. -/
def perform (s : GraphSession) : GraphCommand → Traced LinkSignal (GraphSession × GraphReply)
  | .addNode name => s.store .ofExcept (s.graph.addNode name)
  | .removeNode name => s.store .flag (s.graph.removeNode name)
  | .addEdge edge => s.store .ofExcept (s.graph.addEdge edge)
  | .removeEdge edge => s.store .flag (s.graph.removeEdge edge)
  | .addNodes names => s.store .ofExcept (s.graph.addNodes names)
  | .removeNodes names => s.store .flag (s.graph.removeNodes names)
  | .addEdges edges => s.store .ofExcept (s.graph.addEdges edges)
  | .removeEdges edges => s.store .flag (s.graph.removeEdges edges)
  | .beginBatch => s.store .flag (pure s.graph.beginBatch)
  | .endBatch => s.store .ofExcept s.graph.endBatch
  | .endBatchQuietly => s.store .flag s.graph.endBatchQuietly
  | .abortBatch => s.store .flag s.graph.abortBatch
  | .openGuard =>
    let (graph, guard) := s.graph.openGuard
    pure (⟨graph, guard :: s.guards⟩, .flag guard.owner)
  | .commitGuard =>
    match s.guards with
    | [] => pure (s, .done)
    | guard :: guards =>
      store { s with guards } (fun r => .ofExcept (r.map fun _ => true))
        (s.graph.commitGuard guard)
  | .discardGuard =>
    match s.guards with
    | [] => pure (s, .done)
    | guard :: guards => do
      let graph ← s.graph.discardGuard guard
      pure (⟨graph, guards⟩, .done)
  | .invalidate name => s.store .flag (pure (s.graph.invalidate name))
  | .markClean name => s.store .flag (pure (s.graph.markClean name))
  | .touch name => s.store .stamp (pure (s.graph.touch name))
  | .reset => pure ({ s with graph := s.graph.reset }, .done)

/-- Run operations one after the other, forgetting their replies. -/
def performAll (s : GraphSession) (commands : List GraphCommand) :
    Traced LinkSignal GraphSession :=
  commands.foldlM (fun s c => Prod.fst <$> s.perform c) s

end GraphSession

end Recalc
