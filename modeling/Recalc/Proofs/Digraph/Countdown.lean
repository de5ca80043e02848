import Mathlib.Logic.Function.Basic
import Recalc.Proofs.Digraph.Order

/-!
# The topological order as a countdown

The order can be found by counting. Each node of the scope starts with the number of its predecessors in
the scope; a node that is finished takes one off the count of each of its successors in the scope; and a
node whose count falls to zero is queued.

Nobody looks at predecessors again once they are counted, so everything rests on the two lists being
inverse to each other and without repetition: then the count of a node is at any time the number of its
predecessors in the scope that are not finished (`missing`), it is never taken below zero, and a node is
queued once. So the countdown ends, and it ends with `topologicalOrder`.
-/

namespace Recalc.Digraph

open Relation

variable {α : Type} [DecidableEq α]

/-- What the countdown keeps. -/
structure Countdown (α : Type) where
  /-- The counts of the nodes of the scope. -/
  counts : α → Option Nat
  /-- The nodes whose count is zero and that are not finished, oldest first. -/
  queue : List α
  /-- The finished nodes, oldest first. -/
  finished : List α

namespace Countdown

/-- Count the predecessors in the scope of each of its nodes, and queue the nodes without any. -/
def start (prev : α → List α) (scope : List α) : Countdown α where
  counts a := if a ∈ scope then some ((prev a).countP (· ∈ scope)) else none
  queue := scope.filter fun a => (prev a).countP (· ∈ scope) = 0
  finished := []

/-- Take one off the count of a node, if it has one, and queue the node if nothing is left. -/
def tell (c : Countdown α) (a : α) : Countdown α :=
  match c.counts a with
  | none => c
  | some n =>
    let counts := Function.update c.counts a (some (n - 1))
    if n - 1 = 0 then { c with counts, queue := c.queue ++ [a] } else { c with counts }

/-- Finish the oldest node of the queue and tell its successors. -/
def step (next : α → List α) (c : Countdown α) : Countdown α :=
  match c.queue with
  | [] => c
  | a :: queue => (next a).foldl tell { c with queue, finished := c.finished ++ [a] }

/-- The countdown gets from one state to another. -/
def Reaches (next : α → List α) : Countdown α → Countdown α → Prop :=
  ReflTransGen fun c d => step next c = d

/-- Telling a node lowers its count and queues it if that makes it zero. -/
theorem tell_eq (c : Countdown α) (a : α) :
    c.tell a =
      { counts := Function.update c.counts a ((c.counts a).map (· - 1))
        queue := c.queue ++ [a].filter fun b => (c.counts b).map (· - 1) = some 0
        finished := c.finished } := by
  unfold tell
  cases hcount : c.counts a with
  | none =>
    rw [Option.map_none, ← hcount, Function.update_eq_self]
    simp [hcount]
  | some n =>
    by_cases hn : n - 1 = 0 <;> simp [hcount, hn]

/-- Telling different nodes lowers their counts and queues those at which that makes it zero. -/
theorem foldl_tell {told : List α} (hnodup : told.Nodup) (c : Countdown α) :
    told.foldl tell c =
      { counts := fun a => if a ∈ told then (c.counts a).map (· - 1) else c.counts a
        queue := c.queue ++ told.filter fun a => (c.counts a).map (· - 1) = some 0
        finished := c.finished } := by
  induction told generalizing c with
  | nil => simp
  | cons a told ih =>
    rw [List.nodup_cons] at hnodup
    have hrest : ∀ b ∈ told, Function.update c.counts a ((c.counts a).map (· - 1)) b = c.counts b := by
      intro b hb
      refine Function.update_of_ne ?_ _ _
      rintro rfl
      exact hnodup.1 hb
    rw [List.foldl_cons, ih hnodup.2, tell_eq]
    congr 1
    · funext b
      by_cases hba : b = a
      · subst hba
        simp [hnodup.1]
      · simp [hba]
    · have hfilter := List.filter_congr fun b hb =>
        congrArg (fun count : Option Nat => decide (count.map (· - 1) = some 0)) (hrest b hb)
      rw [hfilter, List.append_assoc, ← List.filter_append, List.singleton_append]

/-! ## The count of a node -/

/-- The number of predecessors in the scope that are not finished, for a node of the scope. -/
def missing (prev : α → List α) (scope finished : List α) (a : α) : Option Nat :=
  if a ∈ scope then some ((prev a).countP fun b => b ∈ scope ∧ b ∉ finished) else none

variable {prev next : α → List α} {scope finished : List α} {a b : α}

/-- Nothing is missing exactly if the node is ready. -/
theorem missing_eq_zero_iff :
    missing prev scope finished a = some 0 ↔ isReady prev scope finished a = true := by
  rw [isReady_iff, missing]
  by_cases ha : a ∈ scope
  · simp [ha, List.countP_eq_zero]
  · simp [ha]

/-- Among other nodes, one more finished node makes no difference. -/
theorem countP_concat {nodes : List α} (ha : a ∉ nodes) :
    nodes.countP (fun b => b ∈ scope ∧ b ∉ finished ++ [a]) =
      nodes.countP fun b => b ∈ scope ∧ b ∉ finished := by
  refine List.countP_congr fun b hb => ?_
  have hba : b ≠ a := ne_of_mem_of_not_mem hb ha
  simp [hba]

/-- Finishing a node leaves the count of a node alone of which it is no predecessor. -/
theorem missing_concat_of_not_mem (hab : a ∉ prev b) :
    missing prev scope (finished ++ [a]) b = missing prev scope finished b := by
  rw [missing, missing, countP_concat hab]

/-- Finishing a node takes one off the count of a node of which it is a predecessor. -/
theorem missing_concat_of_mem (hprev : (prev b).Nodup) (ha : a ∈ scope) (hfresh : a ∉ finished)
    (hab : a ∈ prev b) :
    missing prev scope (finished ++ [a]) b = (missing prev scope finished b).map (· - 1) := by
  obtain ⟨before, after, hsplit⟩ := List.append_of_mem hab
  rw [hsplit] at hprev
  have hbefore : a ∉ before := fun h => (List.nodup_append.1 hprev).2.2 a h a List.mem_cons_self rfl
  have hafter : a ∉ after := (List.nodup_cons.1 (List.nodup_append.1 hprev).2.1).1
  have hcount : (prev b).countP (fun p => p ∈ scope ∧ p ∉ finished ++ [a]) =
      (prev b).countP (fun p => p ∈ scope ∧ p ∉ finished) - 1 := by
    rw [hsplit, List.countP_append, List.countP_append, List.countP_cons, List.countP_cons,
      countP_concat hbefore, countP_concat hafter]
    simp only [ha, hfresh, List.mem_append, List.mem_singleton]
    simp
  by_cases hb : b ∈ scope
  · simp only [missing, if_pos hb, hcount, Option.map_some]
  · simp only [missing, if_neg hb, Option.map_none]

/-! ## The countdown ends with the order -/

/-- The countdown with these nodes finished and these in the queue. -/
def between (prev : α → List α) (scope finished queue : List α) : Countdown α :=
  ⟨missing prev scope finished, queue, finished⟩

/-- The countdown starts with no node finished and with the nodes in the queue that are ready at once. -/
theorem start_eq (prev : α → List α) (scope : List α) :
    start prev scope = between prev scope [] (scope.filter (isReady prev scope [])) := by
  have hcounts : missing prev scope [] =
      fun a => if a ∈ scope then some ((prev a).countP (· ∈ scope)) else none := by
    funext a
    simp [missing]
  have hqueue : ∀ a ∈ scope,
      decide ((prev a).countP (· ∈ scope) = 0) = isReady prev scope [] a := fun a ha => by
    rw [Bool.eq_iff_iff, decide_eq_true_eq, ← missing_eq_zero_iff, hcounts]
    simp [ha]
  rw [start, between, hcounts, List.filter_congr hqueue]

/-- Finishing the oldest node of the queue leads from one state `between` to the next: the nodes that become
ready by it, as `topologicalOrder` finds them, are queued. -/
theorem step_between {queue : List α} (hprev : ∀ a, (prev a).Nodup) (hnext : (next a).Nodup)
    (harc : ∀ b, b ∈ next a ↔ a ∈ prev b) (ha : a ∈ scope) (hfresh : a ∉ finished) :
    step next (between prev scope finished (a :: queue)) =
      between prev scope (finished ++ [a])
        (queue ++ (next a).filter (isReady prev scope (finished ++ [a]))) := by
  have htold : ∀ b ∈ next a, (missing prev scope finished b).map (· - 1) =
      missing prev scope (finished ++ [a]) b := fun b hb =>
    (missing_concat_of_mem (hprev b) ha hfresh ((harc b).1 hb)).symm
  have hcounts : missing prev scope (finished ++ [a]) = fun b =>
      if b ∈ next a then (missing prev scope finished b).map (· - 1)
      else missing prev scope finished b := by
    funext b
    split_ifs with hb
    · exact (htold b hb).symm
    · exact missing_concat_of_not_mem fun h => hb ((harc b).2 h)
  have hqueue : ∀ b ∈ next a, decide ((missing prev scope finished b).map (· - 1) = some 0) =
      isReady prev scope (finished ++ [a]) b := fun b hb => by
    rw [Bool.eq_iff_iff, decide_eq_true_eq, htold b hb, missing_eq_zero_iff]
  show (next a).foldl tell ⟨missing prev scope finished, queue, finished ++ [a]⟩ = _
  rw [foldl_tell hnext, between, hcounts, List.filter_congr hqueue]

/-- The countdown passes through the states of the search for an order and ends with the order. -/
theorem reaches_release (hprev : ∀ a, (prev a).Nodup) (hnext : ∀ a, (next a).Nodup)
    (harc : ∀ a b, b ∈ next a ↔ a ∈ prev b) :
    ∀ (steps : Nat) (finished queue : List α), scope.length ≤ steps + finished.length →
      Releasing prev scope finished queue →
      Reaches next (between prev scope finished queue)
        (between prev scope (release prev next scope steps finished queue) [])
  | 0, finished, queue, hsteps, h => by
    obtain rfl := h.eq_nil_of_length_le (by omega)
    exact ReflTransGen.refl
  | _ + 1, finished, [], _, h => ReflTransGen.refl
  | steps + 1, finished, a :: queue, hsteps, h => by
    have ha : a ∈ scope := h.subset_scope (by simp)
    have hfresh : a ∉ finished := fun hf =>
      (List.nodup_append.1 h.nodup).2.2 a hf a List.mem_cons_self rfl
    have hlength : scope.length ≤ steps + (finished ++ [a]).length := by
      rw [List.length_append, List.length_singleton]
      omega
    have hrest := reaches_release hprev hnext harc steps _ _ hlength (h.finish (hnext a) (harc a))
    exact ReflTransGen.head (step_between hprev (hnext a) (harc a) ha hfresh) hrest

/-- Whatever the digraph, the countdown ends, and the finished nodes are the topological order. -/
theorem reaches_topologicalOrder (hprev : ∀ a, (prev a).Nodup) (hnext : ∀ a, (next a).Nodup)
    (harc : ∀ a b, b ∈ next a ↔ a ∈ prev b) (hscope : scope.Nodup) :
    ∃ counts, Reaches next (start prev scope) ⟨counts, [], topologicalOrder prev next scope⟩ := by
  have hreaches := reaches_release hprev hnext harc scope.length [] _ (by simp)
    (releasing_start hscope)
  rw [← start_eq] at hreaches
  exact ⟨_, hreaches⟩

end Countdown

end Recalc.Digraph
