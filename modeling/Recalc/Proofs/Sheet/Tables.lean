import Recalc.Proofs.Graph.Freshness
import Recalc.Proofs.Host.Local
import Recalc.Proofs.Sheet.Rest

/-!
# The tables of a sheet

A sheet finds an equation in two steps: an index gives the group of the name, and the group gives the
equation. `Booked` says that the index agrees with the groups, and that no group has a number that
a later one will get.

What the parts of an edit do to the tables, to the values and to the marks is stated look-up by
look-up: destroying equations (`Destroyed`), changing them in place (`Revised`), and entering new ones
(`Entered`).
-/

namespace Recalc.Sheet

open Recalc.Graph

variable {s s' s'' : Sheet}

/-! ## Looking up -/

/-- The equation that a group has for a name. -/
def entryIn? (s : Sheet) (id : GroupId) (n : String) : Option Equation :=
  (s.groups.get? id).bind (·.equations.get? n)

/-- `Sheet.equation?` takes the group from the index and the equation from the group. -/
theorem equation?_eq (s : Sheet) (n : String) :
    s.equation? n = (s.owners.get? n).bind (s.entryIn? · n) := rfl

/-- What the code of the equation of a name is made of. -/
def text? (s : Sheet) (n : String) : Option (String × String × ItemKind) :=
  (s.equation? n).map Equation.text

/-- Whether a name is dirty is read off the graph. -/
theorem isDirty_eq (s : Sheet) (n : String) : s.isDirty n = s.graph.isDirty n := by
  unfold isDirty Graph.isDirty mark?
  cases s.graph.node? n <;> rfl

/-- `Sheet.hasEquation` is `false` exactly for the names that the index does not know. -/
theorem hasEquation_eq_false_iff {n : String} :
    s.hasEquation n = false ↔ s.owners.get? n = none := by
  rw [← Bool.not_eq_true, hasEquation, OrderedMap.contains_eq_true, OrderedMap.get?_eq_none]

/-- A group that exists has for a name the equation that its own table gives. -/
theorem entryIn?_of_group? {id : GroupId} {group : Group} (h : s.group? id = some group) (n : String) :
    s.entryIn? id n = group.equations.get? n := by
  rw [group?] at h
  rw [entryIn?, h]
  rfl

/-- The index and the groups agree, equations are listed under their names, and the groups have the
numbers given so far. -/
structure Booked (s : Sheet) : Prop where
  owner_iff : ∀ n id, s.owners.get? n = some id ↔ ∃ e, s.entryIn? id n = some e
  name_eq : ∀ n id e, s.entryIn? id n = some e → e.name = n
  number : ∀ id ∈ s.groups.keys, ∃ k < s.created, id = .serial k

namespace Booked

/-- A group that has an equation for a name is the one where the name is looked up. -/
theorem equation?_of_entryIn? (hs : s.Booked) {id : GroupId} {n : String} {e : Equation}
    (h : s.entryIn? id n = some e) : s.equation? n = some e := by
  rw [equation?_eq, (hs.owner_iff n id).2 ⟨e, h⟩]
  exact h

/-- In a sheet that is `Booked` the equation found under a name bears that name. -/
theorem name_eq_of_equation? (hs : s.Booked) {n : String} {e : Equation}
    (h : s.equation? n = some e) : e.name = n := by
  rw [equation?_eq] at h
  obtain ⟨id, -, he⟩ := Option.bind_eq_some_iff.1 h
  exact hs.name_eq n id e he

/-- The index lists the names of equations. -/
theorem owner_eq_none_iff (hs : s.Booked) {n : String} :
    s.owners.get? n = none ↔ s.equation? n = none := by
  rw [equation?_eq]
  cases howner : s.owners.get? n with
  | none => simp
  | some id =>
    obtain ⟨e, he⟩ := (hs.owner_iff n id).1 howner
    simp [he]

/-- In a sheet that is `Booked` the index knows exactly the names with an equation. -/
theorem hasEquation_iff (hs : s.Booked) {n : String} :
    s.hasEquation n = true ↔ ∃ e, s.equation? n = some e := by
  rw [← Option.isSome_iff_exists, ← Option.ne_none_iff_isSome, ne_eq, ← hs.owner_eq_none_iff,
    ← hasEquation_eq_false_iff, Bool.not_eq_false]

/-- No group has the number that the next one gets. -/
theorem entryIn?_next (hs : s.Booked) (n : String) : s.entryIn? (.serial s.created) n = none := by
  have hnew : GroupId.serial s.created ∉ s.groups.keys := by
    intro hmem
    obtain ⟨k, hk, heq⟩ := hs.number _ hmem
    cases heq
    exact lt_irrefl _ hk
  rw [entryIn?, OrderedMap.get?_eq_none.2 hnew]
  rfl

/-- Changing what the equations say, but not which ones there are, keeps the books. -/
theorem congr (hs : s.Booked) (howners : ∀ n, s'.owners.get? n = s.owners.get? n)
    (hentries : ∀ id n, (s'.entryIn? id n).map (·.name) = (s.entryIn? id n).map (·.name))
    (hkeys : s'.groups.keys = s.groups.keys) (hcreated : s'.created = s.created) : s'.Booked where
  owner_iff := by
    intro n id
    rw [howners, hs.owner_iff, ← Option.isSome_iff_exists, ← Option.isSome_iff_exists,
      ← Option.isSome_map (f := (·.name)), ← hentries, Option.isSome_map]
  name_eq := by
    intro n id e he
    have hname := hentries id n
    rw [he] at hname
    obtain ⟨e', he', heq⟩ := Option.map_eq_some_iff.1 hname.symm
    exact heq.symm.trans (hs.name_eq n id e' he')
  number := by
    rw [hkeys, hcreated]
    exact hs.number

/-- The books are a matter of the tables. -/
theorem of_tables (hs : s.Booked) (howners : s'.owners = s.owners) (hgroups : s'.groups = s.groups)
    (hcreated : s'.created = s.created) : s'.Booked :=
  hs.congr (fun n => by rw [howners]) (fun id n => by rw [entryIn?, entryIn?, hgroups]) (by rw [hgroups])
    hcreated

end Booked

/-! ## Dropping a group without equations -/

section DropGroup

variable {id : GroupId} {pending : OrderedMap String EquationFlags}

/-- Dropping a group that has no equation drops no equation. -/
theorem entryIn?_dropGroup (hempty : ∀ n, s.entryIn? id n = none) (id' : GroupId) (n : String) :
    ({ s with groups := s.groups.erase id, pending } : Sheet).entryIn? id' n = s.entryIn? id' n := by
  unfold entryIn?
  rw [OrderedMap.get?_erase]
  split_ifs with hid
  · subst hid
    exact (hempty n).symm
  · rfl

/-- Dropping a group without equations hides no equation. -/
theorem equation?_dropGroup (hempty : ∀ n, s.entryIn? id n = none) (n : String) :
    ({ s with groups := s.groups.erase id, pending } : Sheet).equation? n = s.equation? n := by
  rw [equation?_eq]
  simp only [entryIn?_dropGroup hempty]
  rfl

/-- Dropping a group without equations keeps a sheet `Booked`. -/
theorem Booked.dropGroup (hs : s.Booked) (hempty : ∀ n, s.entryIn? id n = none) :
    ({ s with groups := s.groups.erase id, pending } : Sheet).Booked where
  owner_iff := by
    intro n id'
    rw [entryIn?_dropGroup hempty]
    exact hs.owner_iff n id'
  name_eq := by
    intro n id' e
    rw [entryIn?_dropGroup hempty]
    exact hs.name_eq n id' e
  number := by
    intro id' hid'
    rw [OrderedMap.keys_erase] at hid'
    exact hs.number id' (List.mem_filter.1 hid').1

end DropGroup

/-! ## Changing one equation -/

/-- `Sheet.modifyGroup` changes what one group has for a name, if there is such a group, and no other group.
-/
theorem entryIn?_modifyGroup (s : Sheet) (id id' : GroupId) (f : Group → Group) (n : String) :
    (s.modifyGroup id f).entryIn? id' n =
      if id' = id then (s.groups.get? id').bind fun g => (f g).equations.get? n
      else s.entryIn? id' n := by
  unfold entryIn? modifyGroup
  rw [OrderedMap.get?_modify]
  split_ifs
  · cases s.groups.get? id' <;> rfl
  · rfl

/-- `Sheet.modifyEquation` changes the one entry that the index leads to. -/
theorem entryIn?_modifyEquation (s : Sheet) (name : String) (f : Equation → Equation) (id : GroupId)
    (n : String) :
    (s.modifyEquation name f).entryIn? id n =
      if s.owners.get? name = some id ∧ n = name then (s.entryIn? id n).map f else s.entryIn? id n := by
  unfold modifyEquation
  cases howner : s.owners.get? name with
  | none => simp
  | some id' =>
    simp only [entryIn?_modifyGroup, OrderedMap.get?_modify, Option.some.injEq]
    by_cases hid : id = id'
    · subst hid
      unfold entryIn?
      cases s.groups.get? id <;> by_cases hn : n = name <;> simp [hn]
    · simp [hid, Ne.symm hid]

/-- `Sheet.modifyEquation` leaves the index. -/
theorem owners_modifyEquation (s : Sheet) (name : String) (f : Equation → Equation) :
    (s.modifyEquation name f).owners = s.owners := (sameOutside_modifyEquation s name f).owners

/-- `Sheet.modifyEquation` changes the equation of one name, if there is one, and no other. -/
theorem equation?_modifyEquation (s : Sheet) (name : String) (f : Equation → Equation)
    (n : String) :
    (s.modifyEquation name f).equation? n =
      if n = name then (s.equation? n).map f else s.equation? n := by
  rw [equation?_eq, equation?_eq, owners_modifyEquation]
  by_cases hn : n = name
  · subst hn
    cases howner : s.owners.get? n with
    | none => simp
    | some id => simp [entryIn?_modifyEquation, howner]
  · simp [entryIn?_modifyEquation, hn]

/-- A change that leaves the equation as it is changes nothing. -/
theorem modifyEquation_eq_self {name : String} {f : Equation → Equation}
    (h : ∀ e, s.equation? name = some e → f e = e) : s.modifyEquation name f = s := by
  unfold modifyEquation
  cases howner : s.owners.get? name with
  | none => rfl
  | some id =>
    have hgroups : (s.groups.modify id fun g => { g with equations := g.equations.modify name f }) =
        s.groups := by
      refine OrderedMap.modify_eq_self fun g hg => ?_
      have hequations : g.equations.modify name f = g.equations := by
        refine OrderedMap.modify_eq_self fun e he => h e ?_
        rw [equation?_eq, howner, Option.bind_some, entryIn?_of_group? hg]
        exact he
      rw [hequations]
    show { s with groups := _ } = s
    rw [hgroups]

/-- Changing an equation twice is changing it by both changes at once. -/
theorem modifyEquation_modifyEquation (s : Sheet) (name : String) (f g : Equation → Equation) :
    (s.modifyEquation name f).modifyEquation name g = s.modifyEquation name fun e => g (f e) := by
  unfold modifyEquation
  cases howner : s.owners.get? name with
  | none => simp only [howner]
  | some id => simp only [modifyGroup, howner, OrderedMap.modify_modify]

/-- Changes of different equations commute. -/
theorem modifyEquation_comm (s : Sheet) {name name' : String} (hname : name ≠ name')
    (f g : Equation → Equation) :
    (s.modifyEquation name f).modifyEquation name' g =
      (s.modifyEquation name' g).modifyEquation name f := by
  unfold modifyEquation
  cases howner : s.owners.get? name with
  | none =>
    cases s.owners.get? name' with
    | none => simp only [howner]
    | some id' => simp only [modifyGroup, howner]
  | some id =>
    cases howner' : s.owners.get? name' with
    | none => simp only [modifyGroup, howner, howner']
    | some id' =>
      simp only [modifyGroup, howner, howner']
      by_cases hid : id = id'
      · subst hid
        simp only [OrderedMap.modify_modify, OrderedMap.modify_comm _ hname]
      · simp only [OrderedMap.modify_comm _ hid]

/-- `Sheet.modifyEquation` keeps the groups and their order. -/
theorem keys_modifyEquation (s : Sheet) (name : String) (f : Equation → Equation) :
    (s.modifyEquation name f).groups.keys = s.groups.keys := by
  unfold modifyEquation
  cases s.owners.get? name with
  | none => rfl
  | some id => exact OrderedMap.keys_modify _ _ _

/-- A change of an equation that keeps its name keeps a sheet `Booked`. -/
theorem Booked.modifyEquation (hs : s.Booked) (name : String) {f : Equation → Equation}
    (hf : ∀ e, (f e).name = e.name) : (s.modifyEquation name f).Booked := by
  refine hs.congr (fun n => by rw [owners_modifyEquation]) (fun id n => ?_)
    (keys_modifyEquation s name f) (sameOutside_modifyEquation s name f).created
  rw [entryIn?_modifyEquation]
  split_ifs
  · rw [Option.map_map]
    exact congrArg (Option.map · (s.entryIn? id n)) (funext hf)
  · rfl

/-- Setting how an evaluation ended changes no text. -/
theorem text?_setResult (s : Sheet) (name : String) (status : Status) (message : String)
    (n : String) : (s.setResult name status message).text? n = s.text? n := by
  unfold text? setResult
  rw [equation?_modifyEquation]
  split_ifs
  · rw [Option.map_map]
    rfl
  · rfl

/-! ## Destroying equations -/

/-- The sources of the edges that arrive at some names. -/
def readers (s : Sheet) (names : List String) : List String :=
  names.flatMap fun name => (s.graph.edges.arriving name).map (·.source)

/-- The readers of some names are the names with a stored edge to one of them. -/
theorem mem_readers (hg : s.graph.WellFormed) {names : List String} {n : String} :
    n ∈ s.readers names ↔ ∃ d ∈ names, ⟨n, d⟩ ∈ s.graph.edges.toList := by
  simp only [readers, List.mem_flatMap, List.mem_map, hg.indexed.mem_arriving]
  refine exists_congr fun d => and_congr_right fun _ => ?_
  constructor
  · rintro ⟨⟨a, b⟩, ⟨he, rfl⟩, rfl⟩
    exact he
  · intro he
    exact ⟨_, ⟨he, rfl⟩, rfl⟩

/-- What a fold over a sheet marks, if each of its steps marks the seed of an element. -/
theorem marked_foldl {α : Type} {f : Sheet → α → Sheet} {seed : α → String}
    (hf : ∀ s a, s.graph.WellFormed → Marked s.graph [seed a] (f s a).graph) (as : List α)
    (hs : s.graph.WellFormed) : Marked s.graph (as.map seed) (as.foldl f s).graph := by
  induction as generalizing s with
  | nil => exact Marked.refl s.graph
  | cons a as ih =>
    have hstep := hf s a hs
    exact hstep.append (ih (hstep.shape.wellFormed hs))

/-- Marking changes nothing but the graph. -/
theorem foldl_invalidate_eq {α : Type} (seed : α → String) (as : List α) (s : Sheet) :
    as.foldl (fun s a => s.invalidate (seed a)) s =
      { s with graph := (as.foldl (fun s a => s.invalidate (seed a)) s).graph } := by
  induction as generalizing s with
  | nil => rfl
  | cons a as ih =>
    rw [List.foldl_cons, ih]
    rfl

/-- Some equations are gone, with their values, and what read them is marked. -/
structure Destroyed (s : Sheet) (names : List String) (s' : Sheet) : Prop where
  entryIn? : ∀ id n, s'.entryIn? id n = if n ∈ names then none else s.entryIn? id n
  owners : ∀ n, s'.owners.get? n = if n ∈ names then none else s.owners.get? n
  keys : s'.groups.keys = s.groups.keys
  created : s'.created = s.created
  options : s'.options = s.options
  store : ∀ n, s'.store.get? n = if n ∈ names then none else s.store.get? n
  marked : Marked s.graph (s.readers names) s'.graph

namespace Destroyed

variable {names : List String}

/-- A sheet that is `Booked` is so after some of its equations are destroyed. -/
theorem booked (h : Destroyed s names s') (hs : s.Booked) : s'.Booked where
  owner_iff := by
    intro n id
    rw [h.owners, h.entryIn?]
    split_ifs
    · simp
    · exact hs.owner_iff n id
  name_eq := by
    intro n id e he
    rw [h.entryIn?] at he
    split_ifs at he
    exact hs.name_eq n id e he
  number := by
    rw [h.keys, h.created]
    exact hs.number

/-- After some equations are destroyed the others are found as before. -/
theorem equation? (h : Destroyed s names s') (n : String) :
    s'.equation? n = if n ∈ names then none else s.equation? n := by
  rw [equation?_eq, equation?_eq, h.owners]
  simp only [h.entryIn?]
  split_ifs <;> rfl

end Destroyed

/-- The sheet without the equation of a name, which keeps its value. -/
def strike (s : Sheet) (name : String) : Sheet :=
  match s.owners.get? name with
  | none => s
  | some id => { s with owners := s.owners.erase name }.modifyGroup id (·.remove name)

/-- `Sheet.strike` takes one name out of the index. -/
theorem owners_strike (s : Sheet) (name n : String) :
    (s.strike name).owners.get? n = if n = name then none else s.owners.get? n := by
  unfold strike
  cases howner : s.owners.get? name with
  | none =>
    split_ifs with hn
    · rw [hn, howner]
    · rfl
  | some id => exact OrderedMap.get?_erase _ _ _

/-- In a sheet that is `Booked`, `Sheet.strike` takes the entry of one name out of its group, and no group had
another one. -/
theorem Booked.entryIn?_strike (hs : s.Booked) (name : String) (id : GroupId) (n : String) :
    (s.strike name).entryIn? id n = if n = name then none else s.entryIn? id n := by
  -- The equation can only be in the group that the index gives.
  have helse : s.owners.get? name ≠ some id → s.entryIn? id name = none := fun h =>
    Option.eq_none_iff_forall_ne_some.2 fun e he => h ((hs.owner_iff name id).2 ⟨e, he⟩)
  unfold strike
  cases howner : s.owners.get? name with
  | none =>
    split_ifs with hn
    · rw [hn]
      exact helse (by simp [howner])
    · rfl
  | some id' =>
    simp only [entryIn?_modifyGroup, Group.remove, OrderedMap.get?_erase]
    by_cases hid : id = id'
    · subst hid
      unfold entryIn?
      cases s.groups.get? id <;> by_cases hn : n = name <;> simp [hn]
    · rw [if_neg hid]
      split_ifs with hn
      · rw [hn]
        exact helse (by simp [howner, Ne.symm hid])
      · rfl

/-- `Sheet.destroy` marks what reads the name, strikes its equation and removes its value. -/
theorem value_destroy (s : Sheet) (name : String) :
    (s.destroy name).value =
      let struck := ((s.graph.edges.arriving name).foldl (fun s e => s.invalidate e.source) s).strike
        name
      { struck with store := (struck.store.remove name).1 } := rfl

/-- `Sheet.destroy` destroys one equation. -/
theorem destroyed_destroy (hs : s.Booked) (hg : s.graph.WellFormed) (name : String) :
    Destroyed s [name] (s.destroy name).value := by
  have hmarked : Marked s.graph ((s.graph.edges.arriving name).map (·.source))
      ((s.graph.edges.arriving name).foldl (fun s e => s.invalidate e.source) s).graph :=
    marked_foldl (fun s e hg => hg.marked_invalidate e.source) _ hg
  -- Of the sheet, striking an equation changes the index and one group only.
  have hkeep : ∀ t : Sheet, (t.strike name).graph = t.graph ∧ (t.strike name).store = t.store ∧
      (t.strike name).groups.keys = t.groups.keys ∧ (t.strike name).created = t.created ∧
      (t.strike name).options = t.options := by
    intro t
    unfold strike
    cases t.owners.get? name with
    | none => exact ⟨rfl, rfl, rfl, rfl, rfl⟩
    | some id => exact ⟨rfl, rfl, OrderedMap.keys_modify _ _ _, rfl, rfl⟩
  have hsame := foldl_invalidate_eq Edge.source (s.graph.edges.arriving name) s
  rw [value_destroy]
  set marked := (s.graph.edges.arriving name).foldl (fun s e => s.invalidate e.source) s
  obtain ⟨hgraph, hstore, hkeys, hcreated, hoptions⟩ := hkeep marked
  have hbooked : marked.Booked := by
    rw [hsame]
    exact hs.of_tables rfl rfl rfl
  refine ⟨fun id n => ?_, fun n => ?_, ?_, ?_, ?_, fun n => ?_, ?_⟩
  · show (marked.strike name).entryIn? id n = _
    rw [hbooked.entryIn?_strike, hsame]
    simp [entryIn?]
  · show (marked.strike name).owners.get? n = _
    rw [owners_strike, hsame]
    simp
  · exact hkeys.trans (by rw [hsame])
  · exact hcreated.trans (by rw [hsame])
  · exact hoptions.trans (by rw [hsame])
  · show ((marked.strike name).store.remove name).1.get? n = _
    rw [hstore, hsame]
    simp [Store.remove, Store.get?]
  · show Marked s.graph _ (marked.strike name).graph
    rw [hgraph]
    simpa [readers] using hmarked

/-- Destroying equations one after the other destroys them all. -/
theorem destroyed_foldlM (hs : s.Booked) (hg : s.graph.WellFormed) (names : List String) :
    Destroyed s names (names.foldlM destroy s).value := by
  induction names generalizing s with
  | nil =>
    refine ⟨fun _ _ => ?_, fun _ => ?_, rfl, rfl, rfl, fun _ => ?_, Marked.refl s.graph⟩
    · simp
    · simp
    · simp
  | cons name names ih =>
    have hfirst := destroyed_destroy hs hg name
    have hrest := ih (hfirst.booked hs) (hfirst.marked.shape.wellFormed hg)
    rw [List.foldlM_cons, Traced.value_bind]
    refine ⟨fun id n => ?_, fun n => ?_, hrest.keys.trans hfirst.keys,
      hrest.created.trans hfirst.created, hrest.options.trans hfirst.options, fun n => ?_, ?_⟩
    · rw [hrest.entryIn?, hfirst.entryIn?]
      by_cases hn : n = name <;> simp [hn]
    · rw [hrest.owners, hfirst.owners]
      by_cases hn : n = name <;> simp [hn]
    · rw [hrest.store, hfirst.store]
      by_cases hn : n = name <;> simp [hn]
    · -- Destroying equations leaves the edges alone, so the readers are the same all along.
      have hreaders : (s.destroy name).value.readers names = s.readers names := by
        unfold readers
        rw [hfirst.marked.shape.edges]
      have happend := hfirst.marked.append (hreaders ▸ hrest.marked)
      simpa [readers] using happend

/-! ## Changing equations in place -/

/-- Some equations have the texts of items, without values, and they are marked. -/
structure Revised (s : Sheet) (items : List ParseItem) (s' : Sheet) : Prop where
  booked : s'.Booked
  owners : s'.owners = s.owners
  keys : s'.groups.keys = s.groups.keys
  created : s'.created = s.created
  options : s'.options = s.options
  text?_of_mem : ∀ item ∈ items, (∃ e, s.equation? item.name = some e) →
    s'.text? item.name = some item.text
  equation?_of_not_mem : ∀ n, n ∉ items.map (·.name) → s'.equation? n = s.equation? n
  store : ∀ n, s'.store.get? n = if n ∈ items.map (·.name) then none else s.store.get? n
  marked : Marked s.graph (items.map (·.name)) s'.graph

/-- Changing equations in place leaves the texts of all other names. -/
theorem Revised.text?_of_not_mem {items : List ParseItem} (h : Revised s items s') (n : String)
    (hn : n ∉ items.map (·.name)) : s'.text? n = s.text? n :=
  congrArg (Option.map Equation.text) (h.equation?_of_not_mem n hn)

/-- `Sheet.revise` changes one equation in place. -/
theorem revised_revise (hs : s.Booked) (hg : s.graph.WellFormed) (item : ParseItem) :
    Revised s [item] (s.revise item).value := by
  set f : Equation → Equation := fun e => { e with content := item.content, kind := item.kind }
  set bare : Sheet := { s with store := (s.store.remove item.name).1 } with hbare
  have hvalue : (s.revise item).value = (bare.modifyEquation item.name f).invalidate item.name := rfl
  have hsame := sameOutside_modifyEquation bare item.name f
  have hbooked : bare.Booked := hs.of_tables rfl rfl rfl
  have hmodified : (bare.modifyEquation item.name f).Booked :=
    hbooked.modifyEquation item.name fun _ => rfl
  have hequation : ∀ n, (s.revise item).value.equation? n =
      if n = item.name then (s.equation? n).map f else s.equation? n :=
    equation?_modifyEquation bare item.name f
  refine ⟨hmodified.of_tables rfl rfl rfl, hsame.owners,
    keys_modifyEquation bare item.name f, hsame.created, hsame.options, ?_, fun n hn => ?_,
    fun n => ?_, ?_⟩
  · intro item' hitem' ⟨e, he⟩
    obtain rfl := List.mem_singleton.1 hitem'
    rw [text?, hequation, if_pos rfl, he]
    show some (e.name, item'.content, item'.kind) = some item'.text
    rw [hs.name_eq_of_equation? he]
    rfl
  · rw [hequation, if_neg (by simpa using hn)]
  · show (bare.modifyEquation item.name f).store.get? n = _
    rw [hsame.store]
    simp [hbare, Store.remove, Store.get?]
  · show Marked s.graph [item.name] ((bare.modifyEquation item.name f).graph.invalidate item.name).1
    rw [hsame.graph]
    exact hg.marked_invalidate item.name

/-- Changing equations one after the other changes them all. -/
theorem revised_foldlM (hs : s.Booked) (hg : s.graph.WellFormed) {items : List ParseItem}
    (hnodup : (items.map (·.name)).Nodup) : Revised s items (items.foldlM revise s).value := by
  induction items generalizing s with
  | nil =>
    refine ⟨hs, rfl, rfl, rfl, rfl, ?_, fun _ _ => rfl, fun _ => ?_, Marked.refl s.graph⟩
    · simp
    · simp
  | cons item items ih =>
    rw [List.map_cons, List.nodup_cons] at hnodup
    have hfirst := revised_revise hs hg item
    have hrest := ih hfirst.booked (hfirst.marked.shape.wellFormed hg) hnodup.2
    rw [List.foldlM_cons, Traced.value_bind]
    refine ⟨hrest.booked, hrest.owners.trans hfirst.owners, hrest.keys.trans hfirst.keys,
      hrest.created.trans hfirst.created, hrest.options.trans hfirst.options, ?_, fun n hn => ?_,
      fun n => ?_, hfirst.marked.append hrest.marked⟩
    · intro item' hitem' hex
      rcases List.mem_cons.1 hitem' with rfl | hmem
      · rw [hrest.text?_of_not_mem _ hnodup.1]
        exact hfirst.text?_of_mem item' (List.mem_singleton.2 rfl) hex
      · -- A later item has another name, so its equation is still there.
        refine hrest.text?_of_mem item' hmem ?_
        have hne : item'.name ∉ [item].map (·.name) := by
          intro h
          have heq : item'.name = item.name := by simpa using h
          exact hnodup.1 (heq ▸ List.mem_map_of_mem hmem)
        have htext := hfirst.text?_of_not_mem _ hne
        obtain ⟨e, he⟩ := hex
        rw [text?, text?, he] at htext
        obtain ⟨e', he', -⟩ := Option.map_eq_some_iff.1 htext
        exact ⟨e', he'⟩
    · rw [List.map_cons, List.mem_cons, not_or] at hn
      rw [hrest.equation?_of_not_mem n hn.2, hfirst.equation?_of_not_mem n (by simpa using hn.1)]
    · rw [hrest.store, hfirst.store]
      by_cases hn : n = item.name <;> simp [hn]

/-! ## Entering equations -/

/-- The equation made of an item bears the name of the item. -/
theorem name_ofItem (item : ParseItem) (id : GroupId) :
    (Equation.ofItem item id).name = item.name := by
  unfold Equation.ofItem
  dsimp only
  split_ifs <;> rfl

/-- The equation made of an item has the text of the item. -/
theorem text_ofItem (item : ParseItem) (id : GroupId) :
    (Equation.ofItem item id).text = item.text := by
  unfold Equation.ofItem
  dsimp only
  split_ifs <;> rfl

/-- A group with the equations of some items. -/
def putAll (id : GroupId) (items : List ParseItem) (g : Group) : Group :=
  items.foldl (fun g item => g.put (Equation.ofItem item id)) g

/-- Putting equations of items into a group leaves what it has for all other names. -/
theorem get?_putAll_of_not_mem {id : GroupId} {items : List ParseItem} {n : String}
    (hn : n ∉ items.map (·.name)) (g : Group) :
    (putAll id items g).equations.get? n = g.equations.get? n := by
  induction items generalizing g with
  | nil => rfl
  | cons item items ih =>
    rw [List.map_cons, List.mem_cons, not_or] at hn
    have hput : (g.put (Equation.ofItem item id)).equations.get? n = g.equations.get? n := by
      rw [Group.put, OrderedMap.get?_insert, name_ofItem, if_neg hn.1]
    exact (ih hn.2 _).trans hput

/-- Putting items with different names into a group makes each of them an equation of the group. -/
theorem get?_putAll_of_mem {id : GroupId} {items : List ParseItem}
    (hnodup : (items.map (·.name)).Nodup) {item : ParseItem} (hitem : item ∈ items) (g : Group) :
    (putAll id items g).equations.get? item.name = some (Equation.ofItem item id) := by
  induction items generalizing g with
  | nil => exact absurd hitem List.not_mem_nil
  | cons item' items ih =>
    rw [List.map_cons, List.nodup_cons] at hnodup
    rcases List.mem_cons.1 hitem with rfl | hmem
    · have hput : (g.put (Equation.ofItem item id)).equations.get? item.name =
          some (Equation.ofItem item id) := by
        rw [Group.put, OrderedMap.get?_insert, name_ofItem, if_pos rfl]
      exact (get?_putAll_of_not_mem hnodup.1 _).trans hput
    · exact ih hnodup.2 hmem _

/-- The sheet with the names of some items in the index. -/
def claimAll (s : Sheet) (id : GroupId) (items : List ParseItem) : Sheet :=
  items.foldl (fun s item => s.claim id item.name) s

/-- Claiming names changes nothing but the index and the graph. -/
theorem claimAll_eq (s : Sheet) (id : GroupId) (items : List ParseItem) :
    s.claimAll id items =
      { s with owners := (s.claimAll id items).owners, graph := (s.claimAll id items).graph } := by
  induction items generalizing s with
  | nil => rfl
  | cons item items ih =>
    show (s.claim id item.name).claimAll id items = _
    rw [ih]
    rfl

/-- After `Sheet.claimAll` the index gives the group for the names claimed and is otherwise as it was. -/
theorem owners_claimAll (s : Sheet) (id : GroupId) (items : List ParseItem) (n : String) :
    (s.claimAll id items).owners.get? n =
      if n ∈ items.map (·.name) then some id else s.owners.get? n := by
  induction items generalizing s with
  | nil => simp [claimAll]
  | cons item items ih =>
    have hclaim : (s.claim id item.name).owners.get? n =
        if n = item.name then some id else s.owners.get? n := OrderedMap.get?_insert _ _ _ _
    show ((s.claim id item.name).claimAll id items).owners.get? n = _
    rw [ih, hclaim]
    by_cases hn : n = item.name <;> simp [hn]

/-- `Sheet.claimAll` marks what depends on the names claimed. -/
theorem marked_claimAll (hg : s.graph.WellFormed) (id : GroupId) (items : List ParseItem) :
    Marked s.graph (items.map (·.name)) (s.claimAll id items).graph :=
  marked_foldl (fun _ item hg => hg.marked_invalidate item.name) items hg

/-- The items are equations of a group, entered into the index and marked. -/
structure Entered (s : Sheet) (id : GroupId) (items : List ParseItem) (s' : Sheet) : Prop where
  owners : ∀ n, s'.owners.get? n =
    if n ∈ items.map (·.name) then some id else s.owners.get? n
  entryIn?_of_mem : ∀ item ∈ items, s'.entryIn? id item.name = some (Equation.ofItem item id)
  entryIn?_of_not_mem : ∀ id' n, id' ≠ id ∨ n ∉ items.map (·.name) →
    s'.entryIn? id' n = s.entryIn? id' n
  number : ∀ id' ∈ s'.groups.keys, id' ∈ s.groups.keys ∨ ∃ k < s'.created, id' = .serial k
  created : s.created ≤ s'.created
  options : s'.options = s.options
  store : s'.store = s.store
  marked : Marked s.graph (items.map (·.name)) s'.graph

namespace Entered

variable {id : GroupId} {items : List ParseItem}

/-- Entering equations under new names keeps a sheet `Booked`. -/
theorem booked (h : Entered s id items s') (hs : s.Booked)
    (hnew : ∀ item ∈ items, s.owners.get? item.name = none) : s'.Booked where
  owner_iff := by
    intro n id'
    by_cases hn : n ∈ items.map (·.name)
    · -- The name is new, so no other group has an equation for it.
      obtain ⟨item, hitem, rfl⟩ := List.mem_map.1 hn
      rw [h.owners, if_pos hn, Option.some.injEq]
      by_cases hid : id' = id
      · simp [hid, h.entryIn?_of_mem item hitem]
      · rw [h.entryIn?_of_not_mem id' _ (Or.inl hid), ← hs.owner_iff, hnew item hitem]
        simp [Ne.symm hid]
    · rw [h.owners, if_neg hn, h.entryIn?_of_not_mem id' n (Or.inr hn)]
      exact hs.owner_iff n id'
  name_eq := by
    intro n id' e he
    by_cases hn : id' = id ∧ n ∈ items.map (·.name)
    · obtain ⟨rfl, hmem⟩ := hn
      obtain ⟨item, hitem, rfl⟩ := List.mem_map.1 hmem
      rw [h.entryIn?_of_mem item hitem] at he
      rw [← Option.some.inj he, name_ofItem]
    · rw [h.entryIn?_of_not_mem id' n (not_and_or.1 hn)] at he
      exact hs.name_eq n id' e he
  number := by
    intro id' hid'
    rcases h.number id' hid' with hold | hnew
    · obtain ⟨k, hk, heq⟩ := hs.number id' hold
      exact ⟨k, hk.trans_le h.created, heq⟩
    · exact hnew

/-- An item that was entered is an equation of its text. -/
theorem text?_of_mem (h : Entered s id items s') {item : ParseItem} (hitem : item ∈ items) :
    s'.text? item.name = some item.text := by
  rw [text?, equation?_eq, h.owners, if_pos (List.mem_map_of_mem hitem), Option.bind_some,
    h.entryIn?_of_mem item hitem, Option.map_some, text_ofItem]

/-- Entering equations leaves those of all other names. -/
theorem equation?_of_not_mem (h : Entered s id items s') {n : String}
    (hn : n ∉ items.map (·.name)) : s'.equation? n = s.equation? n := by
  rw [equation?_eq, equation?_eq, h.owners, if_neg hn]
  simp only [h.entryIn?_of_not_mem _ n (Or.inr hn)]

/-- Entering equations leaves the texts of all other names. -/
theorem text?_of_not_mem (h : Entered s id items s') {n : String}
    (hn : n ∉ items.map (·.name)) : s'.text? n = s.text? n :=
  congrArg (Option.map Equation.text) (h.equation?_of_not_mem hn)

end Entered

/-- `Sheet.createGroup` claims the names and appends the group under the next number. -/
theorem value_createGroup (s : Sheet) (statement : String) (items : List ParseItem) :
    (s.createGroup statement items).value.1 =
      let id := GroupId.serial s.created
      { s.claimAll id items with
        groups := s.groups.insert id (putAll id items { id, statement, equations := ∅ })
        created := s.created + 1 } := by
  have hgroups : (s.claimAll (.serial s.created) items).groups = s.groups := by rw [claimAll_eq]
  have hcreated : (s.claimAll (.serial s.created) items).created = s.created := by rw [claimAll_eq]
  have hvalue : (s.createGroup statement items).value.1 =
      { s.claimAll (.serial s.created) items with
        groups := (s.claimAll (.serial s.created) items).groups.insert (.serial s.created)
          (putAll (.serial s.created) items
            { id := .serial s.created, statement, equations := ∅ })
        created := (s.claimAll (.serial s.created) items).created + 1 } := rfl
  rw [hvalue, hgroups, hcreated]

/-- Creating a group enters its equations. -/
theorem entered_createGroup (hs : s.Booked) (hg : s.graph.WellFormed) (statement : String)
    {items : List ParseItem} (hnodup : (items.map (·.name)).Nodup) :
    Entered s (.serial s.created) items (s.createGroup statement items).value.1 := by
  have hgroup : ∀ id' n, (s.createGroup statement items).value.1.entryIn? id' n =
      if id' = .serial s.created then
        (putAll (.serial s.created) items
          { id := .serial s.created, statement, equations := ∅ }).equations.get? n
      else s.entryIn? id' n := by
    intro id' n
    rw [value_createGroup]
    unfold entryIn?
    rw [OrderedMap.get?_insert]
    split_ifs <;> rfl
  refine ⟨fun n => ?_, fun item hitem => ?_, fun id' n hn => ?_, fun id' hid' => ?_, ?_, ?_, ?_, ?_⟩
  · rw [value_createGroup]
    exact owners_claimAll s _ items n
  · rw [hgroup, if_pos rfl, get?_putAll_of_mem hnodup hitem]
  · rw [hgroup]
    split_ifs with hid
    · rw [get?_putAll_of_not_mem (hn.resolve_left (not_not_intro hid)), hid, hs.entryIn?_next]
      rfl
    · rfl
  · rw [value_createGroup] at hid' ⊢
    exact (OrderedMap.mem_keys_insert.1 hid').imp_right fun h => ⟨s.created, Nat.lt_succ_self _, h⟩
  · rw [value_createGroup]
    exact Nat.le_succ _
  · rw [value_createGroup]
    show (s.claimAll _ items).options = s.options
    rw [claimAll_eq]
  · rw [value_createGroup]
    show (s.claimAll _ items).store = s.store
    rw [claimAll_eq]
  · rw [value_createGroup]
    exact marked_claimAll hg _ items

/-- Introducing items one after the other claims their names. -/
theorem value_introduce_foldlM (s : Sheet) (id : GroupId) (items : List ParseItem) :
    (items.foldlM (introduce id) s).value = s.claimAll id items := Traced.value_foldlM _ _ _

/-- Giving a group its new equations and introducing them enters them. -/
theorem entered_restate (hg : s.graph.WellFormed) {id : GroupId} (hid : id ∈ s.groups.keys)
    (statement : String) (items : List ParseItem) {added : List ParseItem}
    (hnodup : (added.map (·.name)).Nodup) :
    Entered s id added (added.foldlM (introduce id) (s.restate id statement items added)).value := by
  set stated := s.restate id statement items added with hstated
  have hsame : SameOutside stated s := sameOutside_restate s id statement items added
  have hentry : ∀ id' n, (stated.claimAll id added).entryIn? id' n =
      if id' = id then (s.groups.get? id').bind fun g => (putAll id added g).equations.get? n
      else s.entryIn? id' n := by
    intro id' n
    have hclaimed : (stated.claimAll id added).entryIn? id' n = stated.entryIn? id' n := by
      rw [claimAll_eq]
      rfl
    rw [hclaimed, hstated, restate, entryIn?_modifyGroup]
    -- The order of the new statement does not matter for looking names up.
    simp only [Group.reorder, OrderedMap.get?_sortBy, putAll]
  have hkeys : (stated.claimAll id added).groups.keys = s.groups.keys := by
    rw [claimAll_eq]
    exact OrderedMap.keys_modify _ _ _
  obtain ⟨group, hgroup⟩ := Option.isSome_iff_exists.1 (OrderedMap.isSome_get?.2 hid)
  rw [value_introduce_foldlM]
  refine ⟨fun n => ?_, fun item hitem => ?_, fun id' n hn => ?_, fun id' hid' => ?_, ?_, ?_, ?_, ?_⟩
  · rw [owners_claimAll, hsame.owners]
  · rw [hentry, if_pos rfl, hgroup]
    exact get?_putAll_of_mem hnodup hitem group
  · rw [hentry]
    split_ifs with heq
    · subst heq
      rw [Sheet.entryIn?, hgroup]
      exact get?_putAll_of_not_mem (hn.resolve_left (not_not_intro rfl)) group
    · rfl
  · exact Or.inl (hkeys ▸ hid')
  · rw [claimAll_eq]
    exact hsame.created.ge
  · rw [claimAll_eq]
    exact hsame.options
  · rw [claimAll_eq]
    exact hsame.store
  · have hmarked := marked_claimAll (s := stated) (hsame.graph ▸ hg) id added
    rwa [hsame.graph] at hmarked

end Recalc.Sheet
