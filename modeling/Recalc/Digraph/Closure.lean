import Recalc.OrderedSet

/-!
# Closure under successors

The nodes that can be reached from some seeds, in breadth-first order. A node is queued when it is
met for the first time, so as long as no node lists a successor twice, the finished nodes and the
queue together never repeat a node.
-/

namespace Recalc.Digraph

variable {α : Type} [DecidableEq α]

/-- Finish the nodes of a queue one by one, at most `steps` of them, queueing the successors not met
before. -/
def spread (next : α → List α) : (steps : Nat) → (finished queue : List α) → List α
  | 0, finished, queue => finished ++ queue
  | _ + 1, finished, [] => finished
  | steps + 1, finished, a :: queue =>
    spread next steps (finished ++ [a])
      (queue ++ (next a).filter (· ∉ finished ++ a :: queue))

/-- Everything that can be reached from the seeds, seeds included, in breadth-first order; `size`
bounds the number of nodes. -/
def closure (next : α → List α) (size : Nat) (seeds : List α) : List α :=
  spread next size [] (OrderedSet.ofList seeds).toList

end Recalc.Digraph
