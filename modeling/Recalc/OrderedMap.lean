/-!
# Ordered maps

A finite map that lists its keys in the order in which they came: giving a present key a new value
keeps its place, a new key goes to the end (or to a chosen place), and erasing keeps the order of
the others. No key is listed twice, and that is part of the type.

`ext_get?` is the extensionality principle: a map is determined by its list of keys and by look-up.
-/

namespace Recalc

/-- A finite map listed in the order of insertion. -/
structure OrderedMap (κ ν : Type) where
  /-- The keys with their values, oldest key first. -/
  entries : List (κ × ν)
  nodup_keys : (entries.map Prod.fst).Nodup
  deriving DecidableEq

namespace OrderedMap

variable {κ ν : Type}

/-- Maps with the same entries in the same order are the same; that keys do not repeat is a proof. -/
@[ext] theorem ext {m n : OrderedMap κ ν} (h : m.entries = n.entries) : m = n := by
  cases m; cases n; cases h; rfl

/-- The map without keys. -/
def empty : OrderedMap κ ν := ⟨[], List.nodup_nil⟩

instance : EmptyCollection (OrderedMap κ ν) := ⟨empty⟩

instance : Inhabited (OrderedMap κ ν) := ⟨empty⟩

@[simp] theorem entries_empty : (∅ : OrderedMap κ ν).entries = [] := rfl

/-- The keys, oldest first. -/
def keys (m : OrderedMap κ ν) : List κ := m.entries.map Prod.fst

/-- The values, in the order of their keys. -/
def values (m : OrderedMap κ ν) : List ν := m.entries.map Prod.snd

/-- Number of keys. -/
def size (m : OrderedMap κ ν) : Nat := m.entries.length

@[simp] theorem keys_empty : (∅ : OrderedMap κ ν).keys = [] := rfl

/-- The keys of a map do not repeat. -/
theorem keys_nodup (m : OrderedMap κ ν) : m.keys.Nodup := m.nodup_keys

/-- A map has as many keys as `size` counts. -/
theorem length_keys (m : OrderedMap κ ν) : m.keys.length = m.size := by simp [keys, size]

/-- Change every value, knowing its key; the keys stay as they are. -/
def mapValues (m : OrderedMap κ ν) (f : κ → ν → ν) : OrderedMap κ ν where
  entries := m.entries.map fun e => (e.1, f e.1 e.2)
  nodup_keys := by simpa [Function.comp_def] using m.nodup_keys

/-- `mapValues` leaves the keys and their order. -/
@[simp] theorem keys_mapValues (m : OrderedMap κ ν) (f : κ → ν → ν) :
    (m.mapValues f).keys = m.keys := by
  simp [keys, mapValues, Function.comp_def]

/-- Changing all values twice is changing them once by both functions. -/
theorem mapValues_mapValues (m : OrderedMap κ ν) (f g : κ → ν → ν) :
    (m.mapValues f).mapValues g = m.mapValues fun k v => g k (f k v) := by
  ext1
  simp [mapValues, Function.comp_def]

/-- Functions that agree on the entries of a map change its values alike. -/
theorem mapValues_congr {m : OrderedMap κ ν} {f g : κ → ν → ν}
    (h : ∀ k v, (k, v) ∈ m.entries → f k v = g k v) : m.mapValues f = m.mapValues g := by
  ext1
  exact List.map_congr_left fun e he => by rw [h e.1 e.2 he]

/-- The map with its keys in another order: a stable sort by a rank. -/
def sortBy (m : OrderedMap κ ν) (rank : κ → Nat) : OrderedMap κ ν where
  entries := m.entries.mergeSort fun a b => rank a.1 ≤ rank b.1
  nodup_keys := ((List.mergeSort_perm _ _).map Prod.fst).nodup_iff.2 m.nodup_keys

/-- Sorting lists the same keys. -/
theorem keys_sortBy_perm (m : OrderedMap κ ν) (rank : κ → Nat) : (m.sortBy rank).keys.Perm m.keys :=
  (List.mergeSort_perm _ _).map Prod.fst

/-- Sorting lists the keys by their rank. -/
theorem pairwise_keys_sortBy (m : OrderedMap κ ν) (rank : κ → Nat) :
    (m.sortBy rank).keys.Pairwise fun a b => rank a ≤ rank b := by
  have hsorted : (m.sortBy rank).entries.Pairwise fun a b => decide (rank a.1 ≤ rank b.1) = true := by
    refine List.pairwise_mergeSort (fun a b c hab hbc => ?_) (fun a b => ?_) m.entries
    · simp only [decide_eq_true_eq] at hab hbc ⊢
      exact Nat.le_trans hab hbc
    · simp only [Bool.or_eq_true, decide_eq_true_eq]
      exact Nat.le_total _ _
  rw [keys, List.pairwise_map]
  exact hsorted.imp fun h => by simpa using h

variable [DecidableEq κ]

/-- The value of a key. -/
def get? (m : OrderedMap κ ν) (k : κ) : Option ν :=
  (m.entries.find? fun e => e.1 = k).map Prod.snd

/-- Whether a key is present. -/
def contains (m : OrderedMap κ ν) (k : κ) : Bool := decide (k ∈ m.keys)

/-- The place of a key in the list of keys. -/
def indexOf? (m : OrderedMap κ ν) (k : κ) : Option Nat := m.keys.idxOf? k

/-- Change the value of one key; nothing happens if it is absent. -/
def modify (m : OrderedMap κ ν) (k : κ) (f : ν → ν) : OrderedMap κ ν :=
  m.mapValues fun k' v => if k' = k then f v else v

/-- Put a key that may be absent at a place; a place beyond the end means the end. A present key
keeps its place and gets the new value. -/
def insertAt (m : OrderedMap κ ν) (i : Nat) (k : κ) (v : ν) : OrderedMap κ ν :=
  if h : k ∈ m.keys then m.modify k fun _ => v
  else
    { entries := m.entries.take i ++ (k, v) :: m.entries.drop i
      nodup_keys := by
        have h' : k ∉ (m.entries.take i ++ m.entries.drop i).map Prod.fst := by
          rw [List.take_append_drop]; exact h
        have hn : ((m.entries.take i ++ m.entries.drop i).map Prod.fst).Nodup := by
          rw [List.take_append_drop]; exact m.nodup_keys
        rw [List.map_append] at h' hn
        rw [List.map_append, List.map_cons, List.perm_middle.nodup_iff, List.nodup_cons]
        exact ⟨h', hn⟩ }

/-- Give a key a value: a present key keeps its place, a new one goes to the end. -/
def insert (m : OrderedMap κ ν) (k : κ) (v : ν) : OrderedMap κ ν := m.insertAt m.size k v

/-- Remove a key; the others keep their order. -/
def erase (m : OrderedMap κ ν) (k : κ) : OrderedMap κ ν where
  entries := m.entries.filter (·.1 ≠ k)
  nodup_keys := m.nodup_keys.sublist (List.filter_sublist.map _)

/-- The map of a list of pairs: the first occurrence of a key gives its place, the last one its
value. -/
def ofList (es : List (κ × ν)) : OrderedMap κ ν := es.foldl (fun m e => m.insert e.1 e.2) ∅

/-! ## Keys -/

/-- `contains` tells the keys of a map. -/
@[simp] theorem contains_eq_true {m : OrderedMap κ ν} {k : κ} :
    m.contains k = true ↔ k ∈ m.keys := by
  simp [contains]

/-- `modify` leaves the keys and their order. -/
@[simp] theorem keys_modify (m : OrderedMap κ ν) (k : κ) (f : ν → ν) :
    (m.modify k f).keys = m.keys := keys_mapValues ..

/-- `insertAt` puts no key that is there into another place. -/
theorem keys_insertAt_of_mem {m : OrderedMap κ ν} {k : κ} (h : k ∈ m.keys) (i : Nat) (v : ν) :
    (m.insertAt i k v).keys = m.keys := by
  simp [insertAt, h]

/-- A new key is put into the place that `insertAt` is told. -/
theorem keys_insertAt_of_not_mem {m : OrderedMap κ ν} {k : κ} (h : k ∉ m.keys) (i : Nat) (v : ν) :
    (m.insertAt i k v).keys = m.keys.take i ++ k :: m.keys.drop i := by
  simp [insertAt, h]
  simp [keys, List.map_take, List.map_drop]

/-- `insert` leaves a key that is there in its place. -/
theorem keys_insert_of_mem {m : OrderedMap κ ν} {k : κ} (h : k ∈ m.keys) (v : ν) :
    (m.insert k v).keys = m.keys := keys_insertAt_of_mem h _ v

/-- `insert` puts a new key last. -/
theorem keys_insert_of_not_mem {m : OrderedMap κ ν} {k : κ} (h : k ∉ m.keys) (v : ν) :
    (m.insert k v).keys = m.keys ++ [k] := by
  rw [insert, keys_insertAt_of_not_mem h, ← length_keys]
  simp

/-- The keys after an insertion: those before, and the one inserted. -/
@[simp] theorem mem_keys_insert {m : OrderedMap κ ν} {k k' : κ} {v : ν} :
    k' ∈ (m.insert k v).keys ↔ k' ∈ m.keys ∨ k' = k := by
  by_cases h : k ∈ m.keys
  · rw [keys_insert_of_mem h]
    exact ⟨Or.inl, fun h' => h'.elim id fun e => e ▸ h⟩
  · simp [keys_insert_of_not_mem h]

/-- `erase` takes out one key and leaves the others in order. -/
@[simp] theorem keys_erase (m : OrderedMap κ ν) (k : κ) :
    (m.erase k).keys = m.keys.filter (· ≠ k) := by
  simp [keys, erase, List.filter_map, Function.comp_def]

/-! ## Look-up -/

/-- The empty map has no values. -/
@[simp] theorem get?_empty (k : κ) : (∅ : OrderedMap κ ν).get? k = none := rfl

/-- `get?` finds something for exactly the keys. -/
theorem isSome_get? {m : OrderedMap κ ν} {k : κ} : (m.get? k).isSome ↔ k ∈ m.keys := by
  simp [get?, keys, List.find?_isSome]

/-- `get?` finds nothing for exactly the names that are no keys. -/
theorem get?_eq_none {m : OrderedMap κ ν} {k : κ} : m.get? k = none ↔ k ∉ m.keys := by
  rw [← isSome_get?]; cases m.get? k <;> simp

/-- `get?` finds the value that is entered with a key. -/
theorem get?_eq_some {m : OrderedMap κ ν} {k : κ} {v : ν} :
    m.get? k = some v ↔ (k, v) ∈ m.entries := by
  obtain ⟨es, hn⟩ := m
  simp only [get?]
  induction es with
  | nil => simp
  | cons e es ih =>
    simp only [List.map_cons, List.nodup_cons] at hn
    obtain ⟨ek, ev⟩ := e
    by_cases h : ek = k
    · subst h
      have : (ek, v) ∉ es := fun hm => hn.1 (List.mem_map.2 ⟨_, hm, rfl⟩)
      simp [this, eq_comm]
    · rw [List.find?_cons_of_neg (by simpa using h), ih hn.2]
      simp [Ne.symm h]

/-- Looking up after `mapValues` is changing what was found before. -/
@[simp] theorem get?_mapValues (m : OrderedMap κ ν) (f : κ → ν → ν) (k : κ) :
    (m.mapValues f).get? k = (m.get? k).map (f k) := by
  simp only [get?, mapValues, List.find?_map, Function.comp_def, Option.map_map]
  cases h : m.entries.find? fun e => e.1 = k with
  | none => rfl
  | some e =>
    have he : e.1 = k := by simpa using List.find?_some h
    simp [← he]

/-- `modify` changes what is found under one key and nothing else. -/
theorem get?_modify (m : OrderedMap κ ν) (k k' : κ) (f : ν → ν) :
    (m.modify k f).get? k' = if k' = k then (m.get? k').map f else m.get? k' := by
  rw [modify, get?_mapValues]
  split <;> cases m.get? k' <;> simp

/-- After `insertAt`, the new value is found under its key, whatever the place, and other keys are as before.
-/
theorem get?_insertAt (m : OrderedMap κ ν) (i : Nat) (k k' : κ) (v : ν) :
    (m.insertAt i k v).get? k' = if k' = k then some v else m.get? k' := by
  by_cases h : k ∈ m.keys
  · obtain ⟨w, hw⟩ := Option.isSome_iff_exists.1 (isSome_get?.2 h)
    simp only [insertAt, h, dite_true]
    rw [get?_modify]
    split
    · rename_i e; subst e
      simp [hw]
    · rfl
  · apply Option.ext
    intro w
    have hm : ∀ w, (k', w) ∈ m.entries ↔ (k', w) ∈ m.entries.take i ∨ (k', w) ∈ m.entries.drop i := by
      intro w
      rw [← List.mem_append, List.take_append_drop]
    rw [get?_eq_some]
    simp only [insertAt, h, dite_false, List.mem_append, List.mem_cons, Prod.mk.injEq]
    by_cases e : k' = k
    · subst e
      have hk : (k', w) ∉ m.entries := fun hw => h (List.mem_map.2 ⟨_, hw, rfl⟩)
      rw [hm] at hk
      simp only [not_or] at hk
      simp [hk.1, hk.2, eq_comm]
    · simp only [e, false_and, false_or, if_false, get?_eq_some, hm]

/-- After `insert`, the new value is found under its key, and other keys are as before. -/
@[simp] theorem get?_insert (m : OrderedMap κ ν) (k k' : κ) (v : ν) :
    (m.insert k v).get? k' = if k' = k then some v else m.get? k' := get?_insertAt ..

/-- After `erase`, nothing is found under the key, and other keys are as before. -/
@[simp] theorem get?_erase (m : OrderedMap κ ν) (k k' : κ) :
    (m.erase k).get? k' = if k' = k then none else m.get? k' := by
  apply Option.ext
  intro w
  rw [get?_eq_some]
  simp only [erase, List.mem_filter]
  by_cases e : k' = k <;> simp [e, get?_eq_some]

/-- `sortBy` does not change what is found under a key. -/
@[simp] theorem get?_sortBy (m : OrderedMap κ ν) (rank : κ → Nat) (k : κ) :
    (m.sortBy rank).get? k = m.get? k := by
  apply Option.ext
  intro w
  rw [get?_eq_some, get?_eq_some]
  exact List.mem_mergeSort

/-- The values are found under the keys, in their order. -/
theorem map_some_values (m : OrderedMap κ ν) : m.values.map some = m.keys.map m.get? := by
  rw [values, keys, List.map_map, List.map_map]
  exact List.map_congr_left fun e he => (get?_eq_some.2 he).symm

/-- A map is determined by its keys, in order, and by look-up. -/
theorem ext_get? {m n : OrderedMap κ ν} (hk : m.keys = n.keys)
    (hg : ∀ k, m.get? k = n.get? k) : m = n := by
  have look : ∀ m : OrderedMap κ ν, m.entries.map (fun e => (e.1, some e.2)) =
      m.keys.map fun k => (k, m.get? k) := by
    intro m
    rw [keys, List.map_map]
    apply List.map_congr_left
    intro e he
    simp only [Function.comp_apply, Prod.mk.injEq, true_and]
    exact (get?_eq_some.2 he).symm
  have inj : ∀ es fs : List (κ × ν), es.map (fun e => (e.1, some e.2)) =
      fs.map (fun e => (e.1, some e.2)) → es = fs := by
    intro es fs h
    refine (List.map_inj_right ?_).1 h
    rintro ⟨a, b⟩ ⟨c, d⟩ hcd
    simpa using hcd
  apply ext
  apply inj
  rw [look, look, hk]
  exact List.map_congr_left fun k _ => by rw [hg]

/-- A change that leaves every value as it is changes nothing. -/
theorem mapValues_eq_self {m : OrderedMap κ ν} {f : κ → ν → ν}
    (h : ∀ k v, m.get? k = some v → f k v = v) : m.mapValues f = m := by
  refine (mapValues_congr (g := fun _ v => v) fun k v hv => h k v (get?_eq_some.2 hv)).trans ?_
  ext1
  simp [mapValues]

/-- Modifying a value that the function leaves as it is leaves the map as it is. -/
theorem modify_eq_self {m : OrderedMap κ ν} {k : κ} {f : ν → ν}
    (h : ∀ v, m.get? k = some v → f v = v) : m.modify k f = m := by
  refine mapValues_eq_self fun k' v hv => ?_
  by_cases hk : k' = k
  · subst hk
    rw [if_pos rfl, h v hv]
  · rw [if_neg hk]

/-- Modifying the value of a key twice is modifying it once by both functions. -/
theorem modify_modify (m : OrderedMap κ ν) (k : κ) (f g : ν → ν) :
    (m.modify k f).modify k g = m.modify k fun v => g (f v) := by
  rw [modify, modify, mapValues_mapValues]
  refine mapValues_congr fun k' v _ => ?_
  by_cases hk : k' = k <;> simp [hk]

/-- Changes of different keys commute. -/
theorem modify_comm (m : OrderedMap κ ν) {k k' : κ} (hk : k ≠ k') (f g : ν → ν) :
    (m.modify k f).modify k' g = (m.modify k' g).modify k f := by
  rw [modify, modify, modify, modify, mapValues_mapValues, mapValues_mapValues]
  refine mapValues_congr fun k'' v _ => ?_
  by_cases h : k'' = k
  · simp [h, hk]
  · simp [h]

end OrderedMap

end Recalc
