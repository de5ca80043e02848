import Recalc.Graph.Basic

/-!
# Structural changes

Adding and removing single nodes and edges. Outside a batch an addition that closes a cycle is taken
back at once and refused; inside a batch every change is entered into the journal, and the search
for a cycle waits for the end of the batch. Removing never closes a cycle.
-/

namespace Recalc.Graph

/-- Settle an addition: enter it into the journal, or, outside a batch, keep it only if there is no
cycle. -/
def settle (g : Graph) (c : Change) (takeBack : Graph → Traced LinkSignal Graph) :
    Traced LinkSignal (Graph × Except CycleError Bool) :=
  if g.inBatch then pure (g.record c, .ok true)
  else
    match g.findCycle? with
    | some path => do
      let g ← takeBack g
      pure (g, .error ⟨path⟩)
    | none => pure (g, .ok true)

/-- Create a node, linking the edges that now have both ends; the flag tells whether it is new. -/
def addNode (g : Graph) (name : String) : Traced LinkSignal (Graph × Except CycleError Bool) :=
  if g.hasNode name then pure (g, .ok false)
  else do
    let g ← g.attach g.nodes.size name {}
    g.settle (.nodeAdded name) (·.detach name)

/-- Remove a node; its edges stay in the store and dangle. The flag tells whether it existed. -/
def removeNode (g : Graph) (name : String) : Traced LinkSignal (Graph × Bool) :=
  match g.node? name, g.nodes.indexOf? name with
  | some node, some place => do
    let g ← g.detach name
    pure (g.record (.nodeRemoved name place node), true)
  | _, _ => pure (g, false)

/-- Store an edge, linking it if both ends exist; the flag tells whether it is new. -/
def addEdge (g : Graph) (e : Edge) : Traced LinkSignal (Graph × Except CycleError Bool) :=
  match g.edges.insert e with
  | (_, false) => pure (g, .ok false)
  | (edges, true) => do
    let g ← { g with edges }.link e
    g.settle (.edgeAdded e) fun g => { g with edges := (g.edges.erase e).1 }.unlink e

/-- Drop an edge; the flag tells whether it was stored. -/
def removeEdge (g : Graph) (e : Edge) : Traced LinkSignal (Graph × Bool) :=
  match g.edges.erase e with
  | (_, false) => pure (g, false)
  | (edges, true) => do
    let g ← { g with edges }.unlink e
    pure (g.record (.edgeRemoved e), true)

end Recalc.Graph
