import Recalc.Graph.Order

/-!
# Staleness

Dirty flags and stamps. Invalidating a node marks it and everything that depends on it; stamping a
node records that its visible value changed just now; and `needsEvaluation` compares stamps to tell
whether a dirty node has to be evaluated again.
-/

namespace Recalc.Graph

/-- Mark a node and everything that depends on it; the flag tells whether it exists. -/
def invalidate (g : Graph) (name : String) : Graph × Bool :=
  if g.hasNode name then
    let marked := g.dependentClosure [name]
    ({ g with nodes := g.nodes.mapValues fun n node =>
        if n ∈ marked then { node with dirty := true } else node }, true)
  else (g, false)

/-- Clear the mark of one node; the flag tells whether it exists. -/
def markClean (g : Graph) (name : String) : Graph × Bool :=
  ({ g with nodes := g.nodes.modify name fun node => { node with dirty := false } },
    g.hasNode name)

/-- Record that the visible value of a node changed: an existing node gets a fresh stamp. -/
def touch (g : Graph) (name : String) : Graph × Option Stamp :=
  if g.hasNode name then
    let (stamp, clock) := g.clock.tick
    ({ g with nodes := g.nodes.modify name fun node => { node with stamp }, clock }, some stamp)
  else (g, none)

/-- Whether a node has to be evaluated: it was never stamped, one of its declared dependencies is
missing or never stamped, or one of them changed no earlier than the node itself. -/
def needsEvaluation (g : Graph) (name : String) : Bool :=
  match g.node? name with
  | none => false
  | some node =>
    node.stamp == Stamp.never ||
      node.dependencies.size != g.edges.outDegree name ||
      node.dependencies.toList.any fun d =>
        match g.node? d with
        | none => false
        | some dependency => dependency.stamp == Stamp.never || node.stamp ≤ dependency.stamp

/-- Drop all nodes and edges and the journal of an open batch; the clock runs on. -/
def reset (g : Graph) : Graph := { clock := g.clock }

end Recalc.Graph
