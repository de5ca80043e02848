import Recalc.Graph.Edit

/-!
# Batches

A batch groups changes: the search for a cycle runs once, when the batch ends, and a batch that ends
in a cycle or is aborted is undone change by change, newest first.

A `BatchGuard` is the scoped form. It owns the batch if it opened one; a guard opened while a batch
is open joins that batch, and its commit and its discard do nothing. Functions that add several
things open a guard, so they also work inside a larger batch.
-/

namespace Recalc.Graph

/-- Undo one change. A node that comes back has its old place, dirty flag and stamp, and is linked
afresh from the edges. -/
def undo (g : Graph) : Change → Traced LinkSignal Graph
  | .nodeAdded name => g.detach name
  | .nodeRemoved name place node =>
    g.attach place name { dirty := node.dirty, stamp := node.stamp }
  | .edgeAdded e =>
    match g.edges.erase e with
    | (_, false) => pure g
    | (edges, true) => { g with edges }.unlink e
  | .edgeRemoved e =>
    match g.edges.insert e with
    | (_, false) => pure g
    | (edges, true) => { g with edges }.link e

/-- Close the batch and undo the changes of its journal. -/
def rollBack (g : Graph) (journal : List Change) : Traced LinkSignal Graph :=
  journal.foldlM undo { g with journal := none }

/-- Open a batch; the flag is false if one is open already. -/
def beginBatch (g : Graph) : Graph × Bool :=
  if g.inBatch then (g, false) else ({ g with journal := some [] }, true)

/-- End the batch, undoing it if the graph has a cycle; the flag tells whether one was open. -/
def endBatch (g : Graph) : Traced LinkSignal (Graph × Except CycleError Bool) :=
  match g.journal with
  | none => pure (g, .ok false)
  | some journal =>
    match g.findCycle? with
    | some path => do
      let g ← g.rollBack journal
      pure (g, .error ⟨path⟩)
    | none => pure ({ g with journal := none }, .ok true)

/-- End the batch like `endBatch`, but a cycle is not reported. -/
def endBatchQuietly (g : Graph) : Traced LinkSignal (Graph × Bool) := do
  let (g, ended) ← g.endBatch
  pure (g, ended.toOption.getD true)

/-- Undo the batch and close it; the flag tells whether one was open. -/
def abortBatch (g : Graph) : Traced LinkSignal (Graph × Bool) :=
  match g.journal with
  | none => pure (g, false)
  | some journal => do
    let g ← g.rollBack journal
    pure (g, true)

end Graph

/-- A scope of a batch. -/
structure BatchGuard where
  /-- Whether the guard opened the batch, rather than joining one. -/
  owner : Bool
  deriving DecidableEq, Repr

namespace Graph

/-- Open a guard, and with it a batch unless one is open. -/
def openGuard (g : Graph) : Graph × BatchGuard :=
  let (g, owner) := g.beginBatch
  (g, ⟨owner⟩)

/-- Close a guard keeping its changes: its own batch ends. -/
def commitGuard (g : Graph) (guard : BatchGuard) :
    Traced LinkSignal (Graph × Except CycleError Unit) :=
  if guard.owner then do
    let (g, ended) ← g.endBatch
    pure (g, ended.map fun _ => ())
  else pure (g, .ok ())

/-- Close a guard dropping its changes: its own batch is aborted. -/
def discardGuard (g : Graph) (guard : BatchGuard) : Traced LinkSignal Graph :=
  if guard.owner then do
    let (g, _) ← g.abortBatch
    pure g
  else pure g

/-- Run a step that may fail inside a guard: a failure discards the guard, success commits it. -/
def guarded {α : Type} (g : Graph)
    (step : Graph → Traced LinkSignal (Graph × Except CycleError α)) :
    Traced LinkSignal (Graph × Except CycleError α) := do
  let (g, guard) := g.openGuard
  match ← step g with
  | (g, .error e) => do
    let g ← g.discardGuard guard
    pure (g, .error e)
  | (g, .ok a) => do
    let (g, committed) ← g.commitGuard guard
    pure (g, committed.map fun _ => a)

/-- Add things one after the other until one is refused; the flag tells whether all were new. -/
def addAll {α : Type} (add : Graph → α → Traced LinkSignal (Graph × Except CycleError Bool)) :
    Graph → List α → Traced LinkSignal (Graph × Except CycleError Bool)
  | g, [] => pure (g, .ok true)
  | g, a :: as => do
    match ← add g a with
    | (g, .error e) => pure (g, .error e)
    | (g, .ok new) => do
      let (g, rest) ← addAll add g as
      pure (g, rest.map (new && ·))

/-- Remove things one after the other; the flag tells whether all were there. -/
def removeAll {α : Type} (remove : Graph → α → Traced LinkSignal (Graph × Bool)) :
    Graph → List α → Traced LinkSignal (Graph × Bool)
  | g, [] => pure (g, true)
  | g, a :: as => do
    let (g, was) ← remove g a
    let (g, rest) ← removeAll remove g as
    pure (g, was && rest)

/-- Create several nodes as one batch. -/
def addNodes (g : Graph) (names : List String) :
    Traced LinkSignal (Graph × Except CycleError Bool) :=
  g.guarded (addAll addNode · names)

/-- Store several edges as one batch. -/
def addEdges (g : Graph) (edges : List Edge) :
    Traced LinkSignal (Graph × Except CycleError Bool) :=
  g.guarded (addAll addEdge · edges)

/-- Remove several nodes. -/
def removeNodes (g : Graph) (names : List String) : Traced LinkSignal (Graph × Bool) :=
  removeAll removeNode g names

/-- Drop several edges. -/
def removeEdges (g : Graph) (edges : List Edge) : Traced LinkSignal (Graph × Bool) :=
  removeAll removeEdge g edges

end Graph

end Recalc
