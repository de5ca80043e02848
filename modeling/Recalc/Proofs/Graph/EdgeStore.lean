import Mathlib.Data.List.Basic
import Recalc.Graph.Edge

/-!
# The indexes of the edge store

`Indexed` says that both indexes of an edge store list, for each key, the edges of that key in the
order of the store, and that no key is listed without edges. Inserting and erasing keep it, and
erasing an edge that was just inserted gives the store back as it was. So all of this holds after any
run of changes (`indexed_of_steps`).

One index is treated at a time: `Indexes` relates an index to a list of edges through the two ends
by which it files them.
-/

namespace Recalc

namespace EdgeIndex

variable {index : EdgeIndex}

/-- No key of the index is listed without names. -/
def NoEmptyKey (index : EdgeIndex) : Prop := ∀ k, index.get? k ≠ some []

/-- Filing a name under `key` appends it to that bucket and leaves the buckets of other keys alone. -/
theorem find_file (index : EdgeIndex) (key name k : String) :
    (index.file key name).find k =
      if k = key then index.find key ++ [name] else index.find k := by
  unfold file find
  rw [OrderedMap.get?_insert]
  split <;> rfl

/-- Discarding a name under `key` takes it out of that bucket, every occurrence, and out of no other. -/
theorem find_discard (index : EdgeIndex) (key name k : String) :
    (index.discard key name).find k =
      if k = key then (index.find key).filter (· ≠ name) else index.find k := by
  unfold discard find
  cases hkey : index.get? key with
  | none =>
    split_ifs with hk
    · subst hk
      simp [hkey]
    · rfl
  | some names =>
    by_cases hrest : (names.filter (· ≠ name)).isEmpty = true
    · simp only [hrest, if_true, OrderedMap.get?_erase]
      split_ifs with hk
      · simpa using (List.isEmpty_iff.1 hrest).symm
      · rfl
    · simp only [hrest, Bool.false_eq_true, if_false, OrderedMap.get?_insert]
      split_ifs with hk <;> rfl

/-- `EdgeIndex.file` never leaves an empty bucket, since the bucket it writes holds the name just filed. -/
theorem NoEmptyKey.file (h : index.NoEmptyKey) (key name : String) :
    (index.file key name).NoEmptyKey := by
  intro k
  unfold EdgeIndex.file
  rw [OrderedMap.get?_insert]
  split_ifs with hk
  · simp
  · exact h k

/-- `EdgeIndex.discard` leaves no empty bucket: it drops a key whose last name it takes. -/
theorem NoEmptyKey.discard (h : index.NoEmptyKey) (key name : String) :
    (index.discard key name).NoEmptyKey := by
  intro k
  unfold EdgeIndex.discard
  cases hkey : index.get? key with
  | none => exact h k
  | some names =>
    by_cases hrest : (names.filter (· ≠ name)).isEmpty = true
    · simp only [hrest, if_true, OrderedMap.get?_erase]
      split_ifs with hk
      · simp
      · exact h k
    · simp only [hrest, Bool.false_eq_true, if_false, OrderedMap.get?_insert]
      split_ifs with hk
      · exact fun e => hrest (List.isEmpty_iff.2 (Option.some.inj e))
      · exact h k

/-- Discarding a name that was just filed gives the index back. -/
theorem discard_file (h : index.NoEmptyKey) {key name : String} (hname : name ∉ index.find key) :
    (index.file key name).discard key name = index := by
  have hfilter : (index.find key ++ [name]).filter (· ≠ name) = index.find key := by
    have hkeep : (index.find key).filter (· ≠ name) = index.find key := by
      rw [List.filter_eq_self]
      exact fun a ha => by simpa using fun e : a = name => hname (e ▸ ha)
    rw [List.filter_append, hkeep]
    simp
  have hget : (index.file key name).get? key = some (index.find key ++ [name]) := by
    simp [file]
  unfold discard
  simp only [hget, hfilter]
  cases hkey : index.get? key with
  | none =>
    -- The key was new, so it goes again with its only name.
    have hempty : index.find key = [] := by simp [find, hkey]
    have hnew : key ∉ index.keys := OrderedMap.get?_eq_none.1 hkey
    simp only [hempty, List.isEmpty_nil, if_true]
    refine OrderedMap.ext_get? ?_ fun k => ?_
    · rw [OrderedMap.keys_erase, file, OrderedMap.keys_insert_of_not_mem hnew, List.filter_append,
        List.filter_eq_self.2 fun k hk => by simpa using fun e : k = key => hnew (e ▸ hk)]
      simp
    · rw [OrderedMap.get?_erase, file, OrderedMap.get?_insert]
      split_ifs with hk
      · rw [hk, hkey]
      · rfl
  | some names =>
    have hfind : index.find key = names := by simp [find, hkey]
    have hne : names.isEmpty = false := by
      rw [← Bool.not_eq_true, List.isEmpty_iff]
      exact fun e => h key (e ▸ hkey)
    have hold : key ∈ index.keys := OrderedMap.isSome_get?.1 (by rw [hkey]; rfl)
    simp only [hfind, hne, Bool.false_eq_true, if_false]
    refine OrderedMap.ext_get? ?_ fun k => ?_
    · rw [OrderedMap.keys_insert_of_mem (by rw [file, OrderedMap.keys_insert_of_mem hold]; exact hold),
        file, OrderedMap.keys_insert_of_mem hold]
    · rw [OrderedMap.get?_insert, file, OrderedMap.get?_insert]
      split_ifs with hk
      · rw [hk, hkey]
      · rfl

/-- The index files each edge of a list under one end by the other, in the order of the list. -/
structure Indexes (index : EdgeIndex) (key value : Edge → String) (edges : List Edge) : Prop where
  find_eq : ∀ k, index.find k = (edges.filter (key · = k)).map value
  noEmptyKey : index.NoEmptyKey

variable {key value : Edge → String} {edges : List Edge}

/-- The empty index indexes the empty list of edges. -/
theorem Indexes.empty : Indexes ∅ key value [] where
  find_eq := fun _ => rfl
  noEmptyKey := fun _ h => nomatch h

/-- Filing an edge under one end by the other keeps the index in step with a list the edge is appended to. -/
theorem Indexes.file (h : Indexes index key value edges) (e : Edge) :
    Indexes (index.file (key e) (value e)) key value (edges ++ [e]) where
  find_eq := by
    intro k
    rw [find_file, List.filter_append, List.map_append]
    by_cases hk : k = key e
    · subst hk
      simp [h.find_eq]
    · simp [hk, Ne.symm hk, h.find_eq]
  noEmptyKey := h.noEmptyKey.file _ _

/-- Discarding an edge keeps the index in step with a list the edge is filtered out of. The two ends have to
determine the edge, or the filter would take more than the index does. -/
theorem Indexes.discard (hends : ∀ e f : Edge, key e = key f → value e = value f → e = f)
    (h : Indexes index key value edges) (e : Edge) :
    Indexes (index.discard (key e) (value e)) key value (edges.filter (· ≠ e)) where
  find_eq := by
    intro k
    rw [find_discard, List.filter_filter]
    split_ifs with hk
    · subst hk
      rw [h.find_eq, List.filter_map, List.filter_filter]
      congr 1
      refine List.filter_congr fun f _ => ?_
      -- Among the edges of the key, those of another value are those other than `e`.
      by_cases hf : key f = key e
      · have hiff : value f = value e ↔ f = e := ⟨hends f e hf, fun he => he ▸ rfl⟩
        simp [hf, hiff]
      · simp [hf]
    · rw [h.find_eq]
      congr 1
      refine List.filter_congr fun f _ => ?_
      by_cases hf : f = e
      · subst hf
        simp [Ne.symm hk]
      · simp [hf]
  noEmptyKey := h.noEmptyKey.discard _ _

/-- Read back as edges, what is filed under a key are the edges of that key, in the order of the list. -/
theorem Indexes.map_find (h : Indexes index key value edges) {k : String} {edge : String → Edge}
    (hedge : ∀ e, key e = k → edge (value e) = e) :
    (index.find k).map edge = edges.filter (key · = k) := by
  have hback : ∀ e ∈ edges.filter (key · = k), (edge ∘ value) e = id e := fun e he =>
    hedge e (by simpa using (List.mem_filter.1 he).2)
  rw [h.find_eq, List.map_map, List.map_congr_left hback, List.map_id]

/-- The names filed under a key are those of the edges of that key. -/
theorem Indexes.mem_find (h : Indexes index key value edges) {k name : String} :
    name ∈ index.find k ↔ ∃ e ∈ edges, key e = k ∧ value e = name := by
  rw [h.find_eq]
  simp [and_assoc]

end EdgeIndex

namespace EdgeStore

/-- Both indexes agree with the list of edges. -/
structure Indexed (s : EdgeStore) : Prop where
  bySource : s.bySource.Indexes Edge.source Edge.target s.toList
  byTarget : s.byTarget.Indexes Edge.target Edge.source s.toList

/-- The empty store is `Indexed`. -/
theorem indexed_empty : (∅ : EdgeStore).Indexed := ⟨.empty, .empty⟩

/-- `EdgeStore.contains` decides membership of the insertion-ordered list. -/
theorem contains_iff {s : EdgeStore} {e : Edge} : s.contains e = true ↔ e ∈ s.toList :=
  OrderedSet.contains_eq_true

/-- No edge is stored twice. -/
theorem nodup_toList (s : EdgeStore) : s.toList.Nodup := s.edges.nodup

/-- Inserting a stored edge returns the store as it is and `false`. -/
theorem insert_of_mem {s : EdgeStore} {e : Edge} (h : e ∈ s.toList) : s.insert e = (s, false) := by
  rw [insert, if_pos (contains_iff.2 h)]

/-- Erasing an edge that is not stored returns the store as it is and `false`. -/
theorem erase_of_not_mem {s : EdgeStore} {e : Edge} (h : e ∉ s.toList) : s.erase e = (s, false) := by
  rw [erase, if_neg fun hc => h (contains_iff.1 hc)]

/-- The flag of `EdgeStore.insert` says that the edge is new. -/
theorem snd_insert {s : EdgeStore} {e : Edge} : (s.insert e).2 = true ↔ e ∉ s.toList := by
  rw [← contains_iff, insert]
  split_ifs with h <;> simp [h]

/-- The flag of `EdgeStore.erase` says that the edge was stored. -/
theorem snd_erase {s : EdgeStore} {e : Edge} : (s.erase e).2 = true ↔ e ∈ s.toList := by
  rw [← contains_iff, erase]
  split_ifs with h <;> simp [h]

/-- A new edge goes to the end of the insertion order. -/
theorem toList_insert {s : EdgeStore} {e : Edge} (h : e ∉ s.toList) :
    (s.insert e).1.toList = s.toList ++ [e] := by
  rw [insert, if_neg fun hc => h (contains_iff.1 hc)]
  exact OrderedSet.toList_insert_of_not_mem h

/-- Erasing an edge keeps the insertion order of the others. -/
theorem toList_erase (s : EdgeStore) (e : Edge) :
    (s.erase e).1.toList = s.toList.filter (· ≠ e) := by
  by_cases h : e ∈ s.toList
  · rw [erase, if_pos (contains_iff.2 h)]
    rfl
  · rw [erase_of_not_mem h, eq_comm, List.filter_eq_self]
    exact fun f hf => by simpa using fun he : f = e => h (he ▸ hf)

/-- After an insertion the stored edges are the old ones and the one inserted. -/
theorem mem_insert {s : EdgeStore} {e f : Edge} :
    f ∈ (s.insert e).1.toList ↔ f ∈ s.toList ∨ f = e := by
  by_cases h : e ∈ s.toList
  · rw [insert_of_mem h]
    exact ⟨Or.inl, fun hf => hf.elim id fun he => he ▸ h⟩
  · simp [toList_insert h]

/-- After an erasure the stored edges are the old ones without the one erased. -/
theorem mem_erase {s : EdgeStore} {e f : Edge} :
    f ∈ (s.erase e).1.toList ↔ f ∈ s.toList ∧ f ≠ e := by
  rw [toList_erase]
  simp

namespace Indexed

variable {s : EdgeStore}

/-- `EdgeStore.insert` keeps both indexes in step with the list of edges. -/
theorem insert (h : s.Indexed) (e : Edge) : (s.insert e).1.Indexed := by
  by_cases he : e ∈ s.toList
  · rwa [insert_of_mem he]
  · have hlist := toList_insert he
    rw [EdgeStore.insert, if_neg fun hc => he (contains_iff.1 hc)] at hlist ⊢
    exact ⟨hlist ▸ h.bySource.file e, hlist ▸ h.byTarget.file e⟩

/-- `EdgeStore.erase` keeps both indexes in step with the list of edges. -/
theorem erase (h : s.Indexed) (e : Edge) : (s.erase e).1.Indexed := by
  by_cases he : e ∈ s.toList
  · have hlist := toList_erase s e
    rw [EdgeStore.erase, if_pos (contains_iff.2 he)] at hlist ⊢
    refine ⟨hlist ▸ h.bySource.discard ?_ e, hlist ▸ h.byTarget.discard ?_ e⟩
    · rintro ⟨a, b⟩ ⟨c, d⟩ rfl rfl
      rfl
    · rintro ⟨a, b⟩ ⟨c, d⟩ rfl rfl
      rfl
  · rwa [erase_of_not_mem he]

/-- Erasing an edge that was just inserted gives the store back, order included. -/
theorem erase_insert (h : s.Indexed) {e : Edge} (he : e ∉ s.toList) :
    ((s.insert e).1.erase e).1 = s := by
  have hmem : e ∈ (s.insert e).1.toList := mem_insert.2 (Or.inr rfl)
  rw [EdgeStore.erase, if_pos (contains_iff.2 hmem)]
  have hlist : ((s.insert e).1.edges.erase e).toList = s.edges.toList := by
    have hstore : (s.insert e).1.edges.toList = s.edges.toList ++ [e] := toList_insert he
    have hkeep : s.edges.toList.filter (· ≠ e) = s.edges.toList :=
      List.filter_eq_self.2 fun f hf => by simpa using fun hfe : f = e => he (hfe ▸ hf)
    rw [OrderedSet.toList_erase, hstore, List.filter_append, hkeep]
    simp
  have hsource : e.target ∉ s.bySource.find e.source := fun hf => by
    obtain ⟨⟨a, b⟩, hmem, rfl, rfl⟩ := h.bySource.mem_find.1 hf
    exact he hmem
  have htarget : e.source ∉ s.byTarget.find e.target := fun hf => by
    obtain ⟨⟨a, b⟩, hmem, rfl, rfl⟩ := h.byTarget.mem_find.1 hf
    exact he hmem
  have hout := EdgeIndex.discard_file h.bySource.noEmptyKey hsource
  have hin := EdgeIndex.discard_file h.byTarget.noEmptyKey htarget
  rw [EdgeStore.insert, if_neg fun hc => he (contains_iff.1 hc)] at hlist ⊢
  obtain ⟨edges, bySource, byTarget⟩ := s
  simp only [EdgeStore.mk.injEq]
  exact ⟨OrderedSet.ext hlist, hout, hin⟩

/-- The edges that leave a source, in the order of the store. -/
theorem leaving_eq (h : s.Indexed) (k : String) : s.leaving k = s.toList.filter (·.source = k) :=
  h.bySource.map_find fun _ he => he ▸ rfl

/-- The edges that arrive at a target, in the order of the store. -/
theorem arriving_eq (h : s.Indexed) (k : String) : s.arriving k = s.toList.filter (·.target = k) :=
  h.byTarget.map_find fun _ he => he ▸ rfl

/-- In an `Indexed` store the edges `leaving` a node are the stored ones with that source. -/
theorem mem_leaving (h : s.Indexed) {k : String} {e : Edge} :
    e ∈ s.leaving k ↔ e ∈ s.toList ∧ e.source = k := by
  rw [h.leaving_eq, List.mem_filter, decide_eq_true_eq]

/-- In an `Indexed` store the edges `arriving` at a node are the stored ones with that target. -/
theorem mem_arriving (h : s.Indexed) {k : String} {e : Edge} :
    e ∈ s.arriving k ↔ e ∈ s.toList ∧ e.target = k := by
  rw [h.arriving_eq, List.mem_filter, decide_eq_true_eq]

end Indexed

/-- The out-degree of a node is the number of edges that leave it. -/
theorem outDegree_eq (s : EdgeStore) (k : String) : s.outDegree k = (s.leaving k).length :=
  (List.length_map _).symm

/-! ## Edge stores in use -/

/-- A change of an edge store. -/
inductive Step where
  | insert (e : Edge)
  | erase (e : Edge)
  | clear
  deriving DecidableEq, Repr

/-- Make a change, forgetting whether there was anything to do. -/
def perform (s : EdgeStore) : Step → EdgeStore
  | .insert e => (s.insert e).1
  | .erase e => (s.erase e).1
  | .clear => ∅

/-- Make changes one after the other. -/
def performAll (s : EdgeStore) (steps : List Step) : EdgeStore := steps.foldl perform s

/-- Every change keeps the indexes in step with the edges. -/
theorem Indexed.perform {s : EdgeStore} (h : s.Indexed) (step : Step) : (s.perform step).Indexed := by
  cases step with
  | insert e => exact h.insert e
  | erase e => exact h.erase e
  | clear => exact indexed_empty

/-- A run of insertions, erasures and clearings keeps a store `Indexed`. -/
theorem Indexed.performAll {s : EdgeStore} (h : s.Indexed) (steps : List Step) :
    (s.performAll steps).Indexed := by
  induction steps generalizing s with
  | nil => exact h
  | cons step steps ih => exact ih (h.perform step)

/-- Whatever was done to an edge store: no edge is listed twice; the edges found at a name are the listed
ones at that name, in their order, and no name is kept in an index without edges; an edge is inserted, at
the end, exactly if it is absent, and erased exactly if it is present, and the other edges keep their
order; and erasing an edge that was just inserted gives the store back as it was. -/
theorem indexed_of_steps (steps : List Step) :
    let s := performAll ∅ steps
    s.toList.Nodup ∧
    (∀ k, s.leaving k = s.toList.filter (·.source = k)) ∧
    (∀ k, s.arriving k = s.toList.filter (·.target = k)) ∧
    (∀ k, s.outDegree k = (s.leaving k).length) ∧
    s.bySource.NoEmptyKey ∧ s.byTarget.NoEmptyKey ∧
    (∀ e, ((s.insert e).2 = true ↔ e ∉ s.toList) ∧
      (s.insert e).1.toList = if e ∈ s.toList then s.toList else s.toList ++ [e]) ∧
    (∀ e, ((s.erase e).2 = true ↔ e ∈ s.toList) ∧
      (s.erase e).1.toList = s.toList.filter (· ≠ e)) ∧
    ∀ e, (s.insert e).2 = true → ((s.insert e).1.erase e).1 = s := by
  intro s
  have hs : s.Indexed := indexed_empty.performAll steps
  refine ⟨s.nodup_toList, hs.leaving_eq, hs.arriving_eq, s.outDegree_eq, hs.bySource.noEmptyKey,
    hs.byTarget.noEmptyKey, fun e => ⟨snd_insert, ?_⟩, fun e => ⟨snd_erase, toList_erase s e⟩,
    fun e he => hs.erase_insert (snd_insert.1 he)⟩
  split_ifs with he
  · rw [insert_of_mem he]
  · exact toList_insert he

/-- An edge that is erased and inserted again goes to the end, under its source and under its target; and
an edge from a name that no edge left before comes and goes without a trace. -/
theorem indexed_of_steps_reinserted :
    let s := performAll ∅ [.insert ⟨"a", "b"⟩, .insert ⟨"a", "c"⟩, .insert ⟨"d", "b"⟩,
      .erase ⟨"a", "b"⟩, .insert ⟨"a", "b"⟩]
    s.leaving "a" = [⟨"a", "c"⟩, ⟨"a", "b"⟩] ∧ s.arriving "b" = [⟨"d", "b"⟩, ⟨"a", "b"⟩] ∧
      (s.insert ⟨"c", "a"⟩).2 = true ∧ ((s.insert ⟨"c", "a"⟩).1.erase ⟨"c", "a"⟩).1 = s := by
  intro s
  obtain ⟨-, hleaving, harriving, -, -, -, -, -, hback⟩ := indexed_of_steps
    [.insert ⟨"a", "b"⟩, .insert ⟨"a", "c"⟩, .insert ⟨"d", "b"⟩, .erase ⟨"a", "b"⟩, .insert ⟨"a", "b"⟩]
  have hnew : (s.insert ⟨"c", "a"⟩).2 = true := by decide
  exact ⟨(hleaving "a").trans (by decide), (harriving "b").trans (by decide), hnew, hback _ hnew⟩

end EdgeStore

end Recalc
