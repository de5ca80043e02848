import Recalc.Json.Basic

/-!
# Documents of the same value

Documents are compared by `==`, for which the sign of zero does not count. It is an equivalence, so
that a chain of comparisons can be followed.
-/

namespace Recalc

namespace Binary64

/-- Two floating point numbers are the same if they are equal or both zero, of whatever sign. -/
theorem same_iff {x y : Binary64} :
    x.same y = true ↔ x = y ∨ (x.isZero = true ∧ y.isZero = true) := by
  rw [same, Bool.or_eq_true, beq_iff_eq, Bool.and_eq_true]

/-- `Binary64.same` is reflexive. -/
theorem same_refl (x : Binary64) : x.same x = true := same_iff.2 (Or.inl rfl)

/-- `Binary64.same` is symmetric. -/
theorem same_symm {x y : Binary64} (h : x.same y = true) : y.same x = true := by
  rw [same_iff] at h ⊢
  exact h.imp Eq.symm And.symm

/-- `Binary64.same` is transitive, as it holds of the two zeros only where it is not equality. -/
theorem same_trans {x y z : Binary64} (hxy : x.same y = true) (hyz : y.same z = true) :
    x.same z = true := by
  rw [same_iff] at hxy hyz ⊢
  rcases hxy with rfl | ⟨hx, hy⟩
  · exact hyz
  · rcases hyz with rfl | ⟨-, hz⟩
    · exact Or.inr ⟨hx, hy⟩
    · exact Or.inr ⟨hx, hz⟩

end Binary64

namespace Json

/-! The three functions that compare documents, items and members recurse into one another, and so do
the proofs about them. -/

mutual

/-- `Json.same` is reflexive; with `sameItems_refl` and `sameMembers_refl` by recursion on the value. -/
theorem same_refl : ∀ a : Json, a.same a = true
  | .null => rfl
  | .bool a => beq_self_eq_true a
  | .int a => beq_self_eq_true a
  | .float a => a.same_refl
  | .str a => beq_self_eq_true a
  | .arr as => sameItems_refl as
  | .obj as => sameMembers_refl as

/-- Every list of values is the same as itself. -/
theorem sameItems_refl : ∀ as : List Json, sameItems as as = true
  | [] => rfl
  | a :: as => by rw [sameItems, same_refl a, sameItems_refl as, Bool.and_self]

/-- Every list of members is the same as itself. -/
theorem sameMembers_refl : ∀ as : List (String × Json), sameMembers as as = true
  | [] => rfl
  | (k, a) :: as => by
    rw [sameMembers, beq_self_eq_true, same_refl a, sameMembers_refl as, Bool.and_self, Bool.and_self]

end

mutual

/-- `Json.same` is symmetric; with `sameItems_symm` and `sameMembers_symm` by recursion on the values. -/
theorem same_symm : ∀ a b : Json, a.same b = true → b.same a = true
  | .null, .null, _ => rfl
  | .bool _, .bool _, h => BEq.symm h
  | .int _, .int _, h => BEq.symm h
  | .float _, .float _, h => Binary64.same_symm h
  | .str _, .str _, h => BEq.symm h
  | .arr as, .arr bs, h => sameItems_symm as bs h
  | .obj as, .obj bs, h => sameMembers_symm as bs h

/-- `sameItems` is symmetric. -/
theorem sameItems_symm : ∀ as bs : List Json, sameItems as bs = true → sameItems bs as = true
  | [], [], _ => rfl
  | a :: as, b :: bs, h => by
    rw [sameItems, Bool.and_eq_true] at h ⊢
    exact ⟨same_symm a b h.1, sameItems_symm as bs h.2⟩

/-- `sameMembers` is symmetric. -/
theorem sameMembers_symm : ∀ as bs : List (String × Json),
    sameMembers as bs = true → sameMembers bs as = true
  | [], [], _ => rfl
  | (k, a) :: as, (l, b) :: bs, h => by
    rw [sameMembers, Bool.and_eq_true, Bool.and_eq_true] at h ⊢
    exact ⟨⟨BEq.symm h.1.1, same_symm a b h.1.2⟩, sameMembers_symm as bs h.2⟩

end

mutual

/-- `Json.same` is transitive; with `sameItems_trans` and `sameMembers_trans` by recursion on the values. -/
theorem same_trans : ∀ a b c : Json, a.same b = true → b.same c = true → a.same c = true
  | .null, .null, .null, _, _ => rfl
  | .bool _, .bool _, .bool _, hab, hbc => BEq.trans hab hbc
  | .int _, .int _, .int _, hab, hbc => BEq.trans hab hbc
  | .float _, .float _, .float _, hab, hbc => Binary64.same_trans hab hbc
  | .str _, .str _, .str _, hab, hbc => BEq.trans hab hbc
  | .arr as, .arr bs, .arr cs, hab, hbc => sameItems_trans as bs cs hab hbc
  | .obj as, .obj bs, .obj cs, hab, hbc => sameMembers_trans as bs cs hab hbc

/-- `sameItems` is transitive. -/
theorem sameItems_trans : ∀ as bs cs : List Json,
    sameItems as bs = true → sameItems bs cs = true → sameItems as cs = true
  | [], [], [], _, _ => rfl
  | a :: as, b :: bs, c :: cs, hab, hbc => by
    rw [sameItems, Bool.and_eq_true] at hab hbc ⊢
    exact ⟨same_trans a b c hab.1 hbc.1, sameItems_trans as bs cs hab.2 hbc.2⟩

/-- `sameMembers` is transitive. -/
theorem sameMembers_trans : ∀ as bs cs : List (String × Json),
    sameMembers as bs = true → sameMembers bs cs = true → sameMembers as cs = true
  | [], [], [], _, _ => rfl
  | (k, a) :: as, (l, b) :: bs, (m, c) :: cs, hab, hbc => by
    rw [sameMembers, Bool.and_eq_true, Bool.and_eq_true] at hab hbc ⊢
    exact ⟨⟨BEq.trans hab.1.1 hbc.1.1, same_trans a b c hab.1.2 hbc.1.2⟩,
      sameMembers_trans as bs cs hab.2 hbc.2⟩

end

instance : EquivBEq Json where
  rfl := same_refl _
  symm := same_symm _ _
  trans := same_trans _ _ _

instance : EquivBEq (Option Json) where
  symm {a b} h := by
    cases a <;> cases b
    · rfl
    · cases h
    · cases h
    · exact same_symm _ _ h
  trans {a b c} hab hbc := by
    cases a with
    | none =>
      cases b with
      | none => exact hbc
      | some b => cases hab
    | some a =>
      cases b with
      | none => cases hab
      | some b =>
        cases c with
        | none => cases hbc
        | some c => exact same_trans a b c hab hbc

end Json

end Recalc
