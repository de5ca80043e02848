import Recalc.Graph.Basic
import Recalc.Digraph.Closure
import Recalc.Digraph.Order

/-!
# Evaluation order

Orders in which each node comes after its dependencies: of the whole graph, and of everything that
depends on some names. A scope through which a cycle runs, possible only inside a batch, has no
order; the whole graph then lists the nodes that are neither on nor behind a cycle.
-/

namespace Recalc.Graph

/-- The existing ones of some names and everything that depends on them, in breadth-first order. -/
def dependentClosure (g : Graph) (names : List String) : List String :=
  Digraph.closure g.dependentsOf g.nodes.size (names.filter g.hasNode)

/-- The nodes of a scope, dependencies first. -/
def orderWithin (g : Graph) (scope : List String) : List String :=
  Digraph.topologicalOrder g.dependenciesOf g.dependentsOf scope

/-- All nodes, dependencies first, without those on or behind a cycle. -/
def evaluationOrder (g : Graph) : List String := g.orderWithin g.names

/-- The names and everything that depends on them, dependencies first; empty if a cycle runs through
them. -/
def evaluationOrderOf (g : Graph) (names : List String) : List String :=
  let scope := g.dependentClosure names
  let order := g.orderWithin scope
  if order.length = scope.length then order else []

/-- A name and everything that depends on it, dependencies first. -/
def evaluationOrderFrom (g : Graph) (name : String) : List String := g.evaluationOrderOf [name]

end Recalc.Graph
