import Mathlib.Data.List.Perm.Subperm
import Recalc.Digraph.Closure
import Recalc.Proofs.Digraph.Walk

/-!
# Correctness of the closure

The closure of some seeds lists exactly what can be reached from them, each node once. Between two
steps the finished nodes and the queue together hold every seed and every successor of a finished
node (`Spreading`), so when the queue is empty nothing is missing; and as they never repeat a node,
it is empty once as many nodes are finished as there are.
-/

namespace Recalc.Digraph

open Relation

variable {α : Type} [DecidableEq α] {next : α → List α} {nodes seeds : List α}

/-- The state of a breadth-first closure between two steps. -/
structure Spreading (next : α → List α) (nodes seeds finished queue : List α) : Prop where
  nodup : (finished ++ queue).Nodup
  subset_nodes : finished ++ queue ⊆ nodes
  seeds_subset : seeds ⊆ finished ++ queue
  reached : ∀ a ∈ finished ++ queue, ∃ s ∈ seeds, ReflTransGen (Arc next) s a
  expanded : ∀ a ∈ finished, ∀ b, Arc next a b → b ∈ finished ++ queue

/-- A step of the search for a closure: the oldest node of the queue is finished, and its new successors are
queued. -/
theorem Spreading.finish {finished queue : List α} {a : α} (hnodes : ∀ a b, Arc next a b → b ∈ nodes)
    (hnext : (next a).Nodup) (h : Spreading next nodes seeds finished (a :: queue)) :
    Spreading next nodes seeds (finished ++ [a])
      (queue ++ (next a).filter (· ∉ finished ++ a :: queue)) := by
  -- The list grows at its end only, by successors of `a` that were not on it.
  have hlist : finished ++ [a] ++ (queue ++ (next a).filter (· ∉ finished ++ a :: queue)) =
      (finished ++ a :: queue) ++ (next a).filter (· ∉ finished ++ a :: queue) := by simp
  have hmem : a ∈ finished ++ a :: queue := by simp
  constructor <;> rw [hlist]
  · refine List.nodup_append.2 ⟨h.nodup, hnext.filter _, ?_⟩
    rintro b hb c hc rfl
    have hnew := (List.mem_filter.1 hc).2
    simp only [decide_eq_true_eq] at hnew
    exact hnew hb
  · refine List.append_subset.2 ⟨h.subset_nodes, fun b hb => ?_⟩
    exact hnodes a b (List.mem_filter.1 hb).1
  · exact List.Subset.trans h.seeds_subset (List.subset_append_left _ _)
  · intro b hb
    rcases List.mem_append.1 hb with hb | hb
    · exact h.reached b hb
    · obtain ⟨s, hs, hsa⟩ := h.reached a hmem
      exact ⟨s, hs, hsa.tail (List.mem_filter.1 hb).1⟩
  · intro b hb c hbc
    by_cases hc : c ∈ finished ++ a :: queue
    · exact List.mem_append_left _ hc
    · rcases List.mem_append.1 hb with hb | hb
      · exact absurd (h.expanded b hb c hbc) hc
      · rw [List.mem_singleton] at hb
        subst hb
        exact List.mem_append_right _ (List.mem_filter.2 ⟨hbc, by simpa using hc⟩)

omit [DecidableEq α] in
/-- When the queue is empty, the finished nodes are what can be reached. -/
theorem Spreading.mem_iff {finished : List α} (h : Spreading next nodes seeds finished []) (a : α) :
    a ∈ finished ↔ ∃ s ∈ seeds, ReflTransGen (Arc next) s a := by
  have happend : finished ++ [] = finished := List.append_nil finished
  constructor
  · exact fun ha => h.reached a (by rwa [happend])
  · rintro ⟨s, hs, hsa⟩
    have hclosed : Closed next finished := fun b hb c hbc => by
      simpa only [happend] using h.expanded b hb c hbc
    exact hclosed.mem_of_reaches (by simpa only [happend] using h.seeds_subset hs) hsa

omit [DecidableEq α] in
/-- Once as many nodes are finished as there are, none is left in the queue. -/
theorem Spreading.eq_nil_of_length_le {finished queue : List α}
    (h : Spreading next nodes seeds finished queue) (hlength : nodes.length ≤ finished.length) :
    queue = [] := by
  have hle := (h.nodup.subperm h.subset_nodes).length_le
  rw [List.length_append] at hle
  exact List.eq_nil_of_length_eq_zero (by omega)

/-- With enough steps for the nodes that are left, spreading ends with an empty queue. -/
theorem Spreading.spread (hnodes : ∀ a b, Arc next a b → b ∈ nodes) (hnext : ∀ a, (next a).Nodup) :
    ∀ (steps : Nat) (finished queue : List α), nodes.length ≤ steps + finished.length →
      Spreading next nodes seeds finished queue →
      Spreading next nodes seeds (spread next steps finished queue) []
  | 0, finished, queue, hsteps, h => by
    obtain rfl := h.eq_nil_of_length_le (by omega)
    simpa [Digraph.spread] using h
  | _ + 1, finished, [], _, h => by simpa [Digraph.spread] using h
  | steps + 1, finished, a :: queue, hsteps, h => by
    rw [Digraph.spread]
    refine Spreading.spread hnodes hnext steps _ _ ?_ (h.finish hnodes (hnext a))
    rw [List.length_append, List.length_singleton]
    omega

/-- The state in which the closure begins. -/
theorem spreading_start (hseeds : seeds ⊆ nodes) :
    Spreading next nodes seeds [] (OrderedSet.ofList seeds).toList := by
  have hmem : ∀ a, a ∈ (OrderedSet.ofList seeds).toList ↔ a ∈ seeds := fun a =>
    OrderedSet.mem_ofList
  constructor <;> simp only [List.nil_append]
  · exact (OrderedSet.ofList seeds).nodup
  · exact fun a ha => hseeds ((hmem a).1 ha)
  · exact fun a ha => (hmem a).2 ha
  · exact fun a ha => ⟨a, (hmem a).1 ha, ReflTransGen.refl⟩
  · exact fun a ha => absurd ha List.not_mem_nil

/-- The state that the closure leaves behind. -/
theorem spreading_closure {size : Nat} (hnodes : ∀ a b, Arc next a b → b ∈ nodes)
    (hnext : ∀ a, (next a).Nodup) (hsize : nodes.length ≤ size) (hseeds : seeds ⊆ nodes) :
    Spreading next nodes seeds (closure next size seeds) [] :=
  Spreading.spread hnodes hnext size [] _ (by simpa using hsize) (spreading_start hseeds)

/-- The closure lists exactly what can be reached from the seeds. -/
theorem mem_closure {size : Nat} (hnodes : ∀ a b, Arc next a b → b ∈ nodes)
    (hnext : ∀ a, (next a).Nodup) (hsize : nodes.length ≤ size) (hseeds : seeds ⊆ nodes) {a : α} :
    a ∈ closure next size seeds ↔ ∃ s ∈ seeds, ReflTransGen (Arc next) s a :=
  (spreading_closure hnodes hnext hsize hseeds).mem_iff a

/-- The closure lists no node twice. -/
theorem nodup_closure {size : Nat} (hnodes : ∀ a b, Arc next a b → b ∈ nodes)
    (hnext : ∀ a, (next a).Nodup) (hsize : nodes.length ≤ size) (hseeds : seeds ⊆ nodes) :
    (closure next size seeds).Nodup := by
  have h := (spreading_closure hnodes hnext hsize hseeds).nodup
  rwa [List.append_nil] at h

end Recalc.Digraph
