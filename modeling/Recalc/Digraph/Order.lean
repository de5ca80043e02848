/-!
# Topological order

The nodes of a scope, each after its predecessors inside the scope. A first-in first-out queue
starts with the nodes that have no predecessor in the scope; finishing a node releases those of its
successors whose last missing predecessor it was. What lies on or behind a cycle is never released.
-/

namespace Recalc.Digraph

variable {α : Type} [DecidableEq α]

/-- Whether a node of the scope has all its predecessors in the scope finished. -/
def isReady (prev : α → List α) (scope finished : List α) (a : α) : Bool :=
  a ∈ scope && (prev a).all fun b => b ∉ scope || b ∈ finished

/-- Finish the nodes of a queue one by one, at most `steps` of them, queueing the successors that
become ready. -/
def release (prev next : α → List α) (scope : List α) :
    (steps : Nat) → (finished queue : List α) → List α
  | 0, finished, _ => finished
  | _ + 1, finished, [] => finished
  | steps + 1, finished, a :: queue =>
    let finished := finished ++ [a]
    release prev next scope steps finished
      (queue ++ (next a).filter (isReady prev scope finished))

/-- The nodes of the scope that neither lie on nor behind a cycle of the scope, each after its
predecessors. -/
def topologicalOrder (prev next : α → List α) (scope : List α) : List α :=
  release prev next scope scope.length [] (scope.filter (isReady prev scope []))

end Recalc.Digraph
