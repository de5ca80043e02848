/-!
# Ordered sets

A set that lists its elements in the order in which they came: inserting a present element changes
nothing, a new one goes to the end, and erasing keeps the order of the others. The list never
repeats an element, and that is part of the type.
-/

namespace Recalc

/-- A finite set listed in the order of insertion. -/
structure OrderedSet (α : Type) where
  /-- The elements, oldest first. -/
  toList : List α
  nodup : toList.Nodup
  deriving DecidableEq

namespace OrderedSet

variable {α : Type}

/-- Ordered sets are equal when they list the same elements in the same order. -/
@[ext] theorem ext {s t : OrderedSet α} (h : s.toList = t.toList) : s = t := by
  cases s; cases t; cases h; rfl

/-- The set without elements. -/
def empty : OrderedSet α := ⟨[], List.nodup_nil⟩

instance : EmptyCollection (OrderedSet α) := ⟨empty⟩

instance : Inhabited (OrderedSet α) := ⟨empty⟩

instance : Membership α (OrderedSet α) := ⟨fun s a => a ∈ s.toList⟩

instance [DecidableEq α] (a : α) (s : OrderedSet α) : Decidable (a ∈ s) :=
  inferInstanceAs (Decidable (a ∈ s.toList))

/-- Membership in an ordered set is membership in its list. -/
theorem mem_def {a : α} {s : OrderedSet α} : a ∈ s ↔ a ∈ s.toList := Iff.rfl

@[simp] theorem toList_empty : (∅ : OrderedSet α).toList = [] := rfl

/-- Number of elements. -/
def size (s : OrderedSet α) : Nat := s.toList.length

variable [DecidableEq α]

/-- Whether an element is in the set. -/
def contains (s : OrderedSet α) (a : α) : Bool := decide (a ∈ s)

/-- Add an element at the end, unless it is present. -/
def insert (s : OrderedSet α) (a : α) : OrderedSet α :=
  if h : a ∈ s.toList then s
  else ⟨s.toList ++ [a], List.nodup_append.2 ⟨s.nodup, by simp, fun x hx y hy => by
    rintro rfl; exact h (List.mem_singleton.1 hy ▸ hx)⟩⟩

/-- Remove an element, if it is present; the others keep their order. -/
def erase (s : OrderedSet α) (a : α) : OrderedSet α :=
  ⟨s.toList.filter (· ≠ a), s.nodup.filter _⟩

/-- The set of the elements of a list, in the order of their first occurrence. -/
def ofList (as : List α) : OrderedSet α := as.foldl insert ∅

/-- Whether two sets have the same elements, whatever their order. -/
def sameElements (s t : OrderedSet α) : Bool :=
  s.size == t.size && s.toList.all t.contains

/-! ## What each operation does to the elements -/

/-- `contains` tells the members of a set. -/
@[simp] theorem contains_eq_true {s : OrderedSet α} {a : α} : s.contains a = true ↔ a ∈ s := by
  simp [contains]

/-- `insert` leaves the list of a set alone if the element is there. -/
theorem toList_insert_of_mem {s : OrderedSet α} {a : α} (h : a ∈ s) :
    (s.insert a).toList = s.toList := by
  have h' : a ∈ s.toList := h
  simp [insert, h']

/-- `insert` puts a new element last. -/
theorem toList_insert_of_not_mem {s : OrderedSet α} {a : α} (h : a ∉ s) :
    (s.insert a).toList = s.toList ++ [a] := by
  have h' : a ∉ s.toList := h
  simp [insert, h']

/-- The list after an insertion, whether or not the element is there. -/
theorem toList_insert (s : OrderedSet α) (a : α) :
    (s.insert a).toList = if a ∈ s then s.toList else s.toList ++ [a] := by
  split
  · next h => exact toList_insert_of_mem h
  · next h => exact toList_insert_of_not_mem h

/-- The members after an insertion: those before, and the one inserted. -/
@[simp] theorem mem_insert {s : OrderedSet α} {a b : α} : b ∈ s.insert a ↔ b ∈ s ∨ b = a := by
  by_cases h : a ∈ s
  · rw [mem_def, toList_insert_of_mem h]
    exact ⟨Or.inl, fun hb => hb.elim id fun e => e ▸ h⟩
  · rw [mem_def, toList_insert_of_not_mem h]
    simp [mem_def]

/-- `erase` takes out one element and leaves the others in order. -/
@[simp] theorem toList_erase (s : OrderedSet α) (a : α) :
    (s.erase a).toList = s.toList.filter (· ≠ a) := rfl

/-- The members after an erasure: those before, without the one erased. -/
@[simp] theorem mem_erase {s : OrderedSet α} {a b : α} : b ∈ s.erase a ↔ b ∈ s ∧ b ≠ a := by
  simp [mem_def]

/-- `ofList` has the elements of the list as members. -/
@[simp] theorem mem_ofList {as : List α} {a : α} : a ∈ ofList as ↔ a ∈ as := by
  have fold : ∀ (as : List α) (s : OrderedSet α), a ∈ as.foldl insert s ↔ a ∈ s ∨ a ∈ as := by
    intro as
    induction as with
    | nil => simp
    | cons b as ih => intro s; rw [List.foldl_cons, ih, mem_insert, List.mem_cons, or_assoc]
  rw [ofList, fold]
  simp [mem_def]

/-- A set is not changed by inserting an element that is there. -/
theorem insert_of_mem {s : OrderedSet α} {a : α} (h : a ∈ s) : s.insert a = s :=
  ext (toList_insert_of_mem h)

/-- A set is not changed by erasing an element that is not there. -/
theorem erase_of_not_mem {s : OrderedSet α} {a : α} (h : a ∉ s) : s.erase a = s := by
  apply ext
  rw [toList_erase, List.filter_eq_self]
  intro b hb
  have hne : b ≠ a := fun e => h (mem_def.2 (e ▸ hb))
  simpa using hne

end OrderedSet

end Recalc
