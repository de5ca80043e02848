import Mathlib.Data.List.Perm.Subperm
import Recalc.Digraph.Order
import Recalc.Proofs.Digraph.Walk

/-!
# Correctness of the topological order

The order of a scope lists nodes of the scope, each once and after its predecessors in the scope;
and it lists a node as soon as all its predecessors in the scope are listed. If one can recurse along
predecessors, that leaves nothing out.
-/

namespace Recalc.Digraph

variable {α : Type} [DecidableEq α] {prev next : α → List α} {scope : List α}

/-- A node is ready (`isReady`) if it is in the scope and all its predecessors in the scope are finished. -/
theorem isReady_iff {finished : List α} {a : α} :
    isReady prev scope finished a = true ↔
      a ∈ scope ∧ ∀ b ∈ prev a, b ∈ scope → b ∈ finished := by
  simp only [isReady, Bool.and_eq_true, decide_eq_true_eq, List.all_eq_true, Bool.or_eq_true]
  refine and_congr_right fun _ => forall₂_congr fun b _ => ?_
  exact ⟨fun h hb => h.resolve_left fun hn => hn hb, fun h => (Classical.em _).symm.imp_right h⟩

/-- Each node of a list comes after those of its predecessors that are in the scope. -/
def Sorted (prev : α → List α) (scope list : List α) : Prop :=
  ∀ before a after, list = before ++ a :: after → ∀ b ∈ prev a, b ∈ scope → b ∈ before

omit [DecidableEq α] in
/-- Adding a node at the end keeps a list sorted if its predecessors are there. -/
theorem Sorted.append {list : List α} {a : α} (h : Sorted prev scope list)
    (ha : ∀ b ∈ prev a, b ∈ scope → b ∈ list) : Sorted prev scope (list ++ [a]) := by
  intro before c after heq b hb hscope
  rcases List.eq_nil_or_concat after with rfl | ⟨after, d, rfl⟩
  · obtain ⟨rfl, hac⟩ := List.append_inj' heq rfl
    obtain rfl : a = c := by simpa using hac
    exact ha b hb hscope
  · have heq' : list ++ [a] = (before ++ c :: after) ++ [d] := by simpa using heq
    exact h before c after (List.append_inj' heq' rfl).1 b hb hscope

omit [DecidableEq α] in
/-- A relation holds pairwise along a list if it holds between each element and all that follow it. -/
theorem pairwise_of_splits {r : α → α → Prop} {list : List α}
    (h : ∀ before a after, list = before ++ a :: after → ∀ b ∈ after, r a b) : list.Pairwise r := by
  induction list with
  | nil => exact List.Pairwise.nil
  | cons a list ih =>
    refine List.Pairwise.cons (h [] a list rfl) (ih fun before b after hsplit => ?_)
    exact h (a :: before) b after (by rw [hsplit, List.cons_append])

omit [DecidableEq α] in
/-- In a sorted list without repetition, no node is listed before one of its predecessors. -/
theorem Sorted.pairwise {list : List α} (h : Sorted prev scope list) (hsub : list ⊆ scope)
    (hnodup : list.Nodup) : list.Pairwise fun a b => b ∉ prev a := by
  refine pairwise_of_splits fun before a after hsplit b hb hprev => ?_
  have hlist : b ∈ list := by simp [hsplit, hb]
  have hbefore : b ∈ before := h before a after hsplit b hprev (hsub hlist)
  rw [hsplit, List.nodup_append] at hnodup
  exact hnodup.2.2 b hbefore b (List.mem_cons_of_mem a hb) rfl

/-- The state of the search for an order between two steps: the queue holds the nodes that are ready
and not finished. -/
structure Releasing (prev : α → List α) (scope finished queue : List α) : Prop where
  nodup : (finished ++ queue).Nodup
  mem_iff : ∀ a, a ∈ finished ++ queue ↔ isReady prev scope finished a = true
  sorted : Sorted prev scope finished

/-- Between two steps, all nodes finished or queued are in the scope. -/
theorem Releasing.subset_scope {finished queue : List α} (h : Releasing prev scope finished queue) :
    finished ++ queue ⊆ scope := fun a ha => (isReady_iff.1 ((h.mem_iff a).1 ha)).1

/-- A step of the search for an order: the oldest node of the queue is finished, and the nodes for which it
was the last missing predecessor are released. -/
theorem Releasing.finish {finished queue : List α} {a : α} (hnext : (next a).Nodup)
    (harc : ∀ b, b ∈ next a ↔ a ∈ prev b) (h : Releasing prev scope finished (a :: queue)) :
    Releasing prev scope (finished ++ [a])
      (queue ++ (next a).filter (isReady prev scope (finished ++ [a]))) := by
  have hlist : finished ++ [a] ++ (queue ++ (next a).filter (isReady prev scope (finished ++ [a]))) =
      (finished ++ a :: queue) ++ (next a).filter (isReady prev scope (finished ++ [a])) := by simp
  have hmem : a ∈ finished ++ a :: queue := by simp
  have hready := isReady_iff.1 ((h.mem_iff a).1 hmem)
  have hfresh : a ∉ finished := fun hf =>
    (List.nodup_append.1 h.nodup).2.2 a hf a List.mem_cons_self rfl
  refine ⟨?_, ?_, h.sorted.append hready.2⟩
  · rw [hlist]
    refine List.nodup_append.2 ⟨h.nodup, hnext.filter _, ?_⟩
    -- A node that waits for `a` was not ready before, so it is neither finished nor queued.
    rintro b hb c hc rfl
    have hab := (harc b).1 (List.mem_filter.1 hc).1
    exact hfresh ((isReady_iff.1 ((h.mem_iff b).1 hb)).2 a hab hready.1)
  · intro b
    rw [hlist, List.mem_append, List.mem_filter, h.mem_iff, isReady_iff, isReady_iff]
    constructor
    · rintro (⟨hb, hprev⟩ | ⟨-, hb, hprev⟩)
      · exact ⟨hb, fun c hc hscope => List.mem_append_left _ (hprev c hc hscope)⟩
      · exact ⟨hb, hprev⟩
    · rintro ⟨hb, hprev⟩
      by_cases hab : b ∈ next a
      · exact Or.inr ⟨hab, hb, hprev⟩
      · -- What does not wait for `a` was ready before.
        refine Or.inl ⟨hb, fun c hc hscope => ?_⟩
        rcases List.mem_append.1 (hprev c hc hscope) with hfin | heq
        · exact hfin
        · rw [List.mem_singleton] at heq
          exact absurd ((harc b).2 (heq ▸ hc)) hab

/-- Once as many nodes are finished as there are, none is left in the queue. -/
theorem Releasing.eq_nil_of_length_le {finished queue : List α}
    (h : Releasing prev scope finished queue) (hlength : scope.length ≤ finished.length) :
    queue = [] := by
  have hle := (h.nodup.subperm h.subset_scope).length_le
  rw [List.length_append] at hle
  exact List.eq_nil_of_length_eq_zero (by omega)

/-- With enough steps for the nodes that are left, releasing ends with an empty queue. -/
theorem Releasing.release (hnext : ∀ a, (next a).Nodup) (harc : ∀ a b, b ∈ next a ↔ a ∈ prev b) :
    ∀ (steps : Nat) (finished queue : List α), scope.length ≤ steps + finished.length →
      Releasing prev scope finished queue →
      Releasing prev scope (release prev next scope steps finished queue) []
  | 0, finished, queue, hsteps, h => by
    obtain rfl := h.eq_nil_of_length_le (by omega)
    simpa [Digraph.release] using h
  | _ + 1, finished, [], _, h => by simpa [Digraph.release] using h
  | steps + 1, finished, a :: queue, hsteps, h => by
    rw [Digraph.release]
    refine Releasing.release hnext harc steps _ _ ?_ (h.finish (hnext a) (harc a))
    rw [List.length_append, List.length_singleton]
    omega

/-- The state in which the search for an order begins. -/
theorem releasing_start (hscope : scope.Nodup) :
    Releasing prev scope [] (scope.filter (isReady prev scope [])) := by
  refine ⟨hscope.filter _, fun a => ?_, fun before a after h => ?_⟩
  · rw [List.nil_append, List.mem_filter]
    exact and_iff_right_of_imp fun h => (isReady_iff.1 h).1
  · simp at h

/-- The state that the search for an order leaves behind. -/
theorem releasing_topologicalOrder (hnext : ∀ a, (next a).Nodup)
    (harc : ∀ a b, b ∈ next a ↔ a ∈ prev b) (hscope : scope.Nodup) :
    Releasing prev scope (topologicalOrder prev next scope) [] :=
  Releasing.release hnext harc scope.length [] _ (by simp) (releasing_start hscope)

/-- The order lists no node twice. -/
theorem nodup_topologicalOrder (hnext : ∀ a, (next a).Nodup)
    (harc : ∀ a b, b ∈ next a ↔ a ∈ prev b) (hscope : scope.Nodup) :
    (topologicalOrder prev next scope).Nodup := by
  have h := (releasing_topologicalOrder hnext harc hscope).nodup
  rwa [List.append_nil] at h

/-- The order lists exactly the nodes of the scope whose predecessors in the scope it lists. -/
theorem mem_topologicalOrder (hnext : ∀ a, (next a).Nodup)
    (harc : ∀ a b, b ∈ next a ↔ a ∈ prev b) (hscope : scope.Nodup) {a : α} :
    a ∈ topologicalOrder prev next scope ↔
      a ∈ scope ∧ ∀ b ∈ prev a, b ∈ scope → b ∈ topologicalOrder prev next scope := by
  have h := (releasing_topologicalOrder hnext harc hscope).mem_iff a
  rwa [List.append_nil, isReady_iff] at h

/-- The order lists each node after its predecessors in the scope. -/
theorem sorted_topologicalOrder (hnext : ∀ a, (next a).Nodup)
    (harc : ∀ a b, b ∈ next a ↔ a ∈ prev b) (hscope : scope.Nodup) :
    Sorted prev scope (topologicalOrder prev next scope) :=
  (releasing_topologicalOrder hnext harc hscope).sorted

/-- If no path of predecessors goes on forever, `topologicalOrder` lists the whole scope. -/
theorem mem_topologicalOrder_of_wellFounded (hnext : ∀ a, (next a).Nodup)
    (harc : ∀ a b, b ∈ next a ↔ a ∈ prev b) (hscope : scope.Nodup)
    (hwf : WellFounded fun b a => b ∈ prev a) {a : α} :
    a ∈ topologicalOrder prev next scope ↔ a ∈ scope := by
  refine ⟨fun h => ((mem_topologicalOrder hnext harc hscope).1 h).1, fun h => ?_⟩
  induction a using hwf.induction with
  | _ a ih => exact (mem_topologicalOrder hnext harc hscope).2 ⟨h, ih⟩

end Recalc.Digraph
