/-!
# Search for a cycle

A depth-first search over a successor function. It keeps the nodes that are finished and the trail
that leads to the node at hand, newest node first. Stepping onto the trail closes a cycle; stepping
onto a finished node is skipped, because nothing behind a finished node leads to a cycle.

A trail never repeats a node, so its length is bounded by the number of nodes: that number is the
depth allowed to the search.
-/

namespace Recalc.Digraph

variable {α : Type} [DecidableEq α]

/-- The closed walk of a trail, newest node first, that steps to one of its own nodes: it starts and
ends on that node and lists each node before one of its successors. -/
def closedWalk (trail : List α) (a : α) : List α :=
  a :: (trail.takeWhile (· ≠ a)).reverse ++ [a]

/-- Explore a node and everything behind it, at most `depth` steps deep. The result is the first
cycle met, or the finished nodes, newest first. -/
def explore (next : α → List α) :
    (depth : Nat) → (trail finished : List α) → α → Except (List α) (List α)
  | 0, _, finished, _ => .ok finished
  | depth + 1, trail, finished, a =>
    if a ∈ finished then .ok finished
    else if a ∈ trail then .error (closedWalk trail a)
    else ((next a).foldlM (explore next depth (a :: trail)) finished).map (a :: ·)

/-- The first cycle met when the nodes are explored in the order given, if there is one. -/
def findCycle? (next : α → List α) (nodes : List α) : Option (List α) :=
  match nodes.foldlM (explore next (nodes.length + 1) []) [] with
  | .error walk => some walk
  | .ok _ => none

end Recalc.Digraph
