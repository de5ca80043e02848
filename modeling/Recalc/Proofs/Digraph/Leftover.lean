import Recalc.Proofs.Digraph.Order

/-!
# What a topological order leaves out

The order of a scope lists a node if one can recurse from it along predecessors in the scope. In a finite
scope that fails for a node only because a cycle can be reached from it, be it that the node lies on the
cycle or behind it. So the order lists exactly the nodes from which no cycle of the scope can be reached.
-/

namespace Recalc.Digraph

open Relation

/-! ## Recursion from one node -/

section Acc

variable {α : Type} {r : α → α → Prop} {a b : α}

/-- Recursion from a node is recursion from all that can be reached. -/
theorem acc_of_reaches (ha : Acc (fun b a => r a b) a) (hab : ReflTransGen r a b) :
    Acc (fun b a => r a b) b := by
  induction hab with
  | refl => exact ha
  | tail _ hbc ih => exact ih.inv hbc

/-- A node from which one can recurse is not on a cycle. -/
theorem not_transGen_self_of_acc (ha : Acc (fun b a => r a b) a) : ¬ TransGen r a a := by
  induction ha with
  | intro a _ ih =>
    intro hcycle
    obtain ⟨b, hab, hba⟩ := TransGen.head'_iff.1 hcycle
    exact ih b hab (TransGen.tail' hba hab)

/-- If the sources of a relation are finitely many, one can recurse from a node exactly if no cycle can
be reached from it. -/
theorem acc_iff_of_finite (nodes : List α) (hnodes : ∀ a b, r a b → a ∈ nodes) :
    Acc (fun b a => r a b) a ↔ ∀ c, ReflTransGen r a c → ¬ TransGen r c c := by
  constructor
  · exact fun ha c hac => not_transGen_self_of_acc (acc_of_reaches ha hac)
  · intro hacyclic
    -- What can be reached has no cycle at all, so on it one can recurse from everywhere.
    let behind : α → α → Prop := fun b c => ReflTransGen r a b ∧ r b c
    have hbehind : ∀ b, ¬ TransGen behind b b := by
      intro b hcycle
      obtain ⟨c, hbc, -⟩ := TransGen.head'_iff.1 hcycle
      exact hacyclic b hbc.1 (TransGen.mono (fun _ _ h => h.2) b b hcycle)
    have hwf : WellFounded fun c b => behind b c :=
      wellFounded_of_acyclic nodes (fun b c hbc => hnodes b c hbc.2) hbehind
    have hacc : ∀ b, ReflTransGen r a b → Acc (fun b a => r a b) b := by
      intro b
      induction b using hwf.induction with
      | _ b ih => exact fun hab => Acc.intro b fun c hbc => ih c ⟨hab, hbc⟩ (hab.tail hbc)
    exact hacc a ReflTransGen.refl

end Acc

/-! ## The nodes of an order -/

variable {α : Type} [DecidableEq α] {prev next : α → List α} {scope : List α} {a : α}

/-- One node of the scope is a predecessor of another one. -/
def Within (prev : α → List α) (scope : List α) (a b : α) : Prop :=
  b ∈ prev a ∧ a ∈ scope ∧ b ∈ scope

omit [DecidableEq α] in
/-- From the nodes of a sorted list one can recurse. -/
theorem Sorted.acc {list : List α} (h : Sorted prev scope list) (ha : a ∈ list) :
    Acc (fun b a => Within prev scope a b) a := by
  -- What stands before a node of the list includes all that the recursion comes to next.
  suffices ∀ before after, list = before ++ after → ∀ a ∈ before,
      Acc (fun b a => Within prev scope a b) a from this list [] (by simp) a ha
  intro before
  induction before using List.reverseRecOn with
  | nil => exact fun _ _ a ha => absurd ha List.not_mem_nil
  | append_singleton before c ih =>
    intro after hlist a ha
    have hlist : list = before ++ c :: after := by simpa using hlist
    rcases List.mem_append.1 ha with ha | ha
    · exact ih (c :: after) hlist a ha
    · rw [List.mem_singleton] at ha
      subst ha
      exact Acc.intro a fun b hab => ih _ hlist b (h _ _ _ hlist b hab.1 hab.2.2)

omit [DecidableEq α] in
/-- What can be reached from a node of a sorted list stands before it. -/
theorem Sorted.mem_before {list before after : List α} {b : α} (h : Sorted prev scope list)
    (hsplit : list = before ++ a :: after) (hab : TransGen (Within prev scope) a b) : b ∈ before := by
  induction hab using TransGen.head_induction_on generalizing before after with
  | single hab => exact h _ _ _ hsplit b hab.1 hab.2.2
  | @head a c hac _ ih =>
    obtain ⟨first, rest, hbefore⟩ := List.append_of_mem (h _ _ _ hsplit c hac.1 hac.2.2)
    have hlist : list = first ++ c :: (rest ++ a :: after) := by rw [hsplit, hbefore]; simp
    rw [hbefore]
    exact List.mem_append_left _ (ih hlist)

omit [DecidableEq α] in
/-- In a sorted list without repetition, no node is listed before one that it reaches. -/
theorem Sorted.pairwise_transGen {list : List α} (h : Sorted prev scope list) (hnodup : list.Nodup) :
    list.Pairwise fun a b => ¬ TransGen (Within prev scope) a b := by
  refine pairwise_of_splits fun before a after hsplit b hb hab => ?_
  have hbefore : b ∈ before := h.mem_before hsplit hab
  rw [hsplit, List.nodup_append] at hnodup
  exact hnodup.2.2 b hbefore b (List.mem_cons_of_mem a hb) rfl

/-- The order lists the nodes of the scope from which one can recurse. -/
theorem mem_topologicalOrder_iff_acc (hnext : ∀ a, (next a).Nodup)
    (harc : ∀ a b, b ∈ next a ↔ a ∈ prev b) (hscope : scope.Nodup) :
    a ∈ topologicalOrder prev next scope ↔
      a ∈ scope ∧ Acc (fun b a => Within prev scope a b) a := by
  constructor
  · intro ha
    exact ⟨((mem_topologicalOrder hnext harc hscope).1 ha).1,
      (sorted_topologicalOrder hnext harc hscope).acc ha⟩
  · rintro ⟨ha, hacc⟩
    induction hacc with
    | intro a _ ih =>
      exact (mem_topologicalOrder hnext harc hscope).2
        ⟨ha, fun b hprev hb => ih b ⟨hprev, ha, hb⟩ hb⟩

/-- The order lists the nodes of the scope from which no cycle of the scope can be reached. -/
theorem mem_topologicalOrder_iff (hnext : ∀ a, (next a).Nodup)
    (harc : ∀ a b, b ∈ next a ↔ a ∈ prev b) (hscope : scope.Nodup) :
    a ∈ topologicalOrder prev next scope ↔
      a ∈ scope ∧ ∀ c, ReflTransGen (Within prev scope) a c → ¬ TransGen (Within prev scope) c c := by
  rw [mem_topologicalOrder_iff_acc hnext harc hscope, acc_iff_of_finite scope fun _ _ h => h.2.1]

end Recalc.Digraph
