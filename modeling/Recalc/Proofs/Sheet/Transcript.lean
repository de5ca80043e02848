import Recalc.Proofs.Host.Sum
import Recalc.Proofs.Sheet.Upkeep

/-!
# A sheet repeats its statements

Groups, index, nodes and edges are changed separately, by a comparison of the old statement with the new
one. Nothing of the history stays behind: after every run of operations they are what the current
statements say (`Transcript`), provided that what an item reads is known from its text.

A group is looked at from outside by its heading: its identity, its statement, and the names in order.
Where an edit does not touch a group, its heading and the texts of its equations are as they were.
-/

namespace Recalc

/-- Items of the same text read the same names, whatever statements they come from. -/
def Host.Consistent (host : Host) : Prop :=
  ∀ statement statement' items items', host.parse .statement statement = .ok items →
    host.parse .statement statement' = .ok items' →
      ∀ item ∈ items, ∀ item' ∈ items', item.text = item'.text →
        ∀ d, d ∈ item.dependencies ↔ d ∈ item'.dependencies

/-- Some statement has an item of the text that reads the name. -/
def Host.Declares (host : Host) (text : String × String × ItemKind) (d : String) : Prop :=
  ∃ statement items, host.parse .statement statement = .ok items ∧
    ∃ item ∈ items, item.text = text ∧ d ∈ item.dependencies

/-- What a text declares is what any item of the text reads. -/
theorem Host.Consistent.declares_iff {host : Host} (h : host.Consistent) {statement : String}
    {items : List ParseItem} (hparse : host.parse .statement statement = .ok items) {item : ParseItem}
    (hitem : item ∈ items) (d : String) : host.Declares item.text d ↔ d ∈ item.dependencies := by
  constructor
  · rintro ⟨statement', items', hparse', item', hitem', htext, hd⟩
    exact (h _ _ _ _ hparse' hparse item' hitem' item hitem htext d).1 hd
  · intro hd
    exact ⟨statement, items, hparse, item, hitem, rfl, hd⟩

/-- A local host is consistent. -/
theorem Host.LocalUpTo.consistent {same : Option Json → Option Json → Prop} {host : Host}
    {reads : String × String × ItemKind → List String} (h : host.LocalUpTo same reads) :
    host.Consistent := by
  intro statement statement' items items' hparse hparse' item hitem item' hitem' htext d
  rw [h.dependencies_eq statement items hparse item hitem,
    h.dependencies_eq statement' items' hparse' item' hitem', htext]

/-- The identity, the statement, and the names in order. -/
def Group.heading (g : Group) : GroupId × String × List String := (g.id, g.statement, g.names)

namespace Sheet

open Recalc.Graph

variable {host : Host} {s s' : Sheet} {id : GroupId} {group : Group} {items : List ParseItem}
  {statement : String}

/-! ## Names in order -/

/-- Putting new equations into a group lists their names last. -/
theorem heading_putAll (id : GroupId) (hnodup : (items.map (·.name)).Nodup) (g : Group)
    (hnew : ∀ n ∈ items.map (·.name), n ∉ g.names) :
    (putAll id items g).heading = (g.id, g.statement, g.names ++ items.map (·.name)) := by
  induction items generalizing g with
  | nil => simp [putAll, Group.heading]
  | cons item items ih =>
    rw [List.map_cons, List.nodup_cons] at hnodup
    rw [List.map_cons, List.forall_mem_cons] at hnew
    have hput : (g.put (Equation.ofItem item id)).names = g.names ++ [item.name] := by
      rw [Group.put, Group.names, name_ofItem]
      exact OrderedMap.keys_insert_of_not_mem hnew.1 _
    have hrest := ih hnodup.2 (g.put (Equation.ofItem item id)) fun n hn hmem => by
      rw [hput, List.mem_append, List.mem_singleton] at hmem
      rcases hmem with hold | rfl
      · exact hnew.2 n hn hold
      · exact hnodup.1 hn
    show (putAll id items (g.put (Equation.ofItem item id))).heading = _
    rw [hrest, hput, List.map_cons, List.append_assoc]
    rfl

/-- Bringing equations into the order of just their names leaves this order. -/
theorem names_reorder {g : Group} {names : List String} (hnodup : names.Nodup)
    (hmem : ∀ n, n ∈ g.names ↔ n ∈ names) : (g.reorder names).names = names := by
  have hsorted : (g.reorder names).names.Pairwise fun a b => names.idxOf a ≤ names.idxOf b :=
    g.equations.pairwise_keys_sortBy _
  have hperm : (g.reorder names).names.Perm names :=
    (g.equations.keys_sortBy_perm _).trans
      ((List.perm_ext_iff_of_nodup g.equations.keys_nodup hnodup).2 hmem)
  have hnames : names.Pairwise fun a b => names.idxOf a ≤ names.idxOf b := by
    rw [List.pairwise_iff_getElem]
    intro i j hi hj hij
    rw [hnodup.idxOf_getElem, hnodup.idxOf_getElem]
    exact hij.le
  refine hperm.eq_of_pairwise (fun a b ha hb hab hba => ?_) hsorted hnames
  exact (List.idxOf_inj (hperm.mem_iff.1 ha)).1 (le_antisymm hab hba)

/-! ## Headings -/

/-- The heading of the group of an identity. -/
def heading? (s : Sheet) (id : GroupId) : Option (GroupId × String × List String) :=
  (s.group? id).map Group.heading

/-- The heading of an identity is that of its group. -/
theorem heading?_of_group? (hgroup : s.group? id = some group) :
    s.heading? id = some group.heading := by
  rw [heading?, hgroup]
  rfl

/-- A heading lists the names that the group has equations for. -/
theorem mem_names_iff (hgroup : s.group? id = some group) {n : String} :
    n ∈ group.names ↔ ∃ e, s.entryIn? id n = some e := by
  rw [entryIn?_of_group? hgroup, ← Option.isSome_iff_exists]
  exact OrderedMap.isSome_get?.symm

/-- No name is in two groups. -/
theorem Booked.id_eq (hs : s.Booked) {id' : GroupId} {group' : Group} {n : String}
    (hgroup : s.group? id = some group) (hgroup' : s.group? id' = some group') (hn : n ∈ group.names)
    (hn' : n ∈ group'.names) : id = id' := by
  have howner := (hs.owner_iff n id).2 ((mem_names_iff hgroup).1 hn)
  rw [(hs.owner_iff n id').2 ((mem_names_iff hgroup').1 hn')] at howner
  exact (Option.some.inj howner).symm

/-- Sheets with the same books have the same headings. -/
theorem SameBooks.heading? (h : SameBooks s' s) (id : GroupId) : s'.heading? id = s.heading? id := by
  have hblank : ∀ g : Group, g.blank.heading = g.heading := fun g =>
    congrArg (fun names => (g.id, g.statement, names)) (OrderedMap.keys_mapValues _ _)
  have hgroup := congrArg (Option.map Group.heading) (h.group? id)
  simp only [Option.map_map, Function.comp_def, hblank] at hgroup
  exact hgroup

/-- `Sheet.modifyEquation` keeps every heading, since an equation stays under its name. -/
theorem heading?_modifyEquation (s : Sheet) (name : String) (f : Equation → Equation) (id : GroupId) :
    (s.modifyEquation name f).heading? id = s.heading? id := by
  unfold modifyEquation
  cases s.owners.get? name with
  | none => rfl
  | some id' =>
    unfold heading? group? modifyGroup
    rw [OrderedMap.get?_modify]
    split_ifs with hid
    · cases s.groups.get? id with
      | none => rfl
      | some g => simp [Group.heading, Group.names]
    · rfl

/-- A heading without some names. -/
def crossOut (names : List String) (h : GroupId × String × List String) :
    GroupId × String × List String := (h.1, h.2.1, h.2.2.filter (· ∉ names))

/-- Crossing out names that are not listed changes nothing. -/
theorem crossOut_eq_self {names : List String} {h : GroupId × String × List String}
    (hdisjoint : ∀ n ∈ h.2.2, n ∉ names) : crossOut names h = h := by
  have hfilter : h.2.2.filter (· ∉ names) = h.2.2 :=
    List.filter_eq_self.2 fun n hn => decide_eq_true (hdisjoint n hn)
  rw [crossOut, hfilter]

/-- Crossing out one name and then others is crossing out all of them. -/
theorem crossOut_cons (name : String) (names : List String) (h : GroupId × String × List String) :
    crossOut names (crossOut [name] h) = crossOut (name :: names) h := by
  have hfilter : (h.2.2.filter (· ∉ [name])).filter (· ∉ names) = h.2.2.filter (· ∉ name :: names) := by
    rw [List.filter_filter]
    refine List.filter_congr fun n _ => ?_
    by_cases hn : n = name <;> simp [hn]
  rw [crossOut, crossOut, crossOut, hfilter]

/-- Striking an equation crosses out its name, wherever it is. -/
theorem Booked.heading?_strike (hs : s.Booked) (name : String) (id : GroupId) :
    (s.strike name).heading? id = (s.heading? id).map (crossOut [name]) := by
  -- A group where the name is not looked up does not list it.
  have helse : s.owners.get? name ≠ some id → (s.heading? id).map (crossOut [name]) = s.heading? id := by
    intro howner
    cases hgroup : s.group? id with
    | none => rw [heading?, hgroup]; rfl
    | some g =>
      rw [heading?_of_group? hgroup, Option.map_some, crossOut_eq_self]
      rintro n hn hmem
      obtain rfl := List.mem_singleton.1 hmem
      exact howner ((hs.owner_iff n id).2 ((mem_names_iff hgroup).1 hn))
  unfold strike
  cases howner : s.owners.get? name with
  | none => exact (helse (by simp [howner])).symm
  | some id' =>
    by_cases hid : id = id'
    · subst hid
      unfold heading? group? modifyGroup
      rw [OrderedMap.get?_modify, if_pos rfl]
      cases s.groups.get? id with
      | none => rfl
      | some g => simp [Group.heading, Group.names, Group.remove, crossOut]
    · rw [helse (by simpa [howner] using Ne.symm hid)]
      unfold heading? group? modifyGroup
      rw [OrderedMap.get?_modify, if_neg hid]

/-- `Sheet.destroy` crosses its name out of the headings. -/
theorem Booked.heading?_destroy (hs : s.Booked) (name : String) (id : GroupId) :
    (s.destroy name).value.heading? id = (s.heading? id).map (crossOut [name]) := by
  have hsame := foldl_invalidate_eq Edge.source (s.graph.edges.arriving name) s
  rw [value_destroy]
  set marked := (s.graph.edges.arriving name).foldl (fun s e => s.invalidate e.source) s
  have hbooked : marked.Booked := by
    rw [hsame]
    exact hs.of_tables rfl rfl rfl
  have hheading : marked.heading? id = s.heading? id := by
    rw [hsame]
    rfl
  rw [← hheading, ← hbooked.heading?_strike]
  rfl

/-- Destroying equations one after the other crosses their names out of the headings. -/
theorem Booked.heading?_destroys (hs : s.Booked) (hg : s.graph.WellFormed) (names : List String)
    (id : GroupId) :
    (names.foldlM destroy s).value.heading? id = (s.heading? id).map (crossOut names) := by
  induction names generalizing s with
  | nil =>
    cases hheading : s.heading? id with
    | none => exact hheading
    | some h =>
      rw [Option.map_some, crossOut_eq_self fun n _ => List.not_mem_nil]
      exact hheading
  | cons name names ih =>
    have hfirst := destroyed_destroy hs hg name
    rw [List.foldlM_cons, Traced.value_bind,
      ih (hfirst.booked hs) (hfirst.marked.shape.wellFormed hg), hs.heading?_destroy, Option.map_map]
    exact congrArg (Option.map · (s.heading? id)) (funext fun h => crossOut_cons name names h)

/-- Changing equations in place keeps every heading. -/
theorem heading?_revises (s : Sheet) (items : List ParseItem) (id : GroupId) :
    (items.foldlM revise s).value.heading? id = s.heading? id := by
  induction items generalizing s with
  | nil => rfl
  | cons item items ih =>
    rw [List.foldlM_cons, Traced.value_bind, ih]
    exact heading?_modifyEquation { s with store := (s.store.remove item.name).1 } item.name _ id

/-! ## Headings after an edit -/

/-- `Sheet.createGroup` gives the next identity a heading with the statement and the names of the items. -/
theorem heading?_createGroup (s : Sheet) (statement : String) (hnodup : (items.map (·.name)).Nodup)
    (id : GroupId) :
    (s.createGroup statement items).value.1.heading? id =
      if id = .serial s.created then some (.serial s.created, statement, items.map (·.name))
      else s.heading? id := by
  rw [value_createGroup]
  unfold heading? group?
  rw [OrderedMap.get?_insert]
  split_ifs with hid
  · rw [Option.map_some, heading_putAll _ hnodup _ fun n _ => List.not_mem_nil]
    rfl
  · rfl

/-- Introducing items keeps every heading: the group has their equations already. -/
theorem heading?_introduces (s : Sheet) (id id' : GroupId) (items : List ParseItem) :
    (items.foldlM (introduce id) s).value.heading? id' = s.heading? id' := by
  rw [value_introduce_foldlM, claimAll_eq]
  rfl

/-- What stays of a group and what is added to it makes up the new statement, in its order. -/
theorem heading_restated {g : Group} (hnodup : (items.map (·.name)).Nodup)
    (hstay : ∀ n, n ∈ g.names ↔ n ∈ group.names ∧ n ∈ items.map (·.name)) (id : GroupId)
    (statement : String) :
    ({ (putAll id (diff group items).added g).reorder (items.map (·.name)) with
        statement } : Group).heading = (g.id, statement, items.map (·.name)) := by
  have hput := heading_putAll id (nodup_added group hnodup) g fun n hn hmem => by
    obtain ⟨item, hitem, rfl⟩ := List.mem_map.1 hn
    exact OrderedMap.get?_eq_none.1 (get?_of_mem_added hitem) ((hstay _).1 hmem).1
  have hnames : (putAll id (diff group items).added g).names =
      g.names ++ (diff group items).added.map (·.name) := congrArg (·.2.2) hput
  have hid : (putAll id (diff group items).added g).id = g.id := congrArg Prod.fst hput
  have hlisted : ∀ n, n ∈ (putAll id (diff group items).added g).names ↔ n ∈ items.map (·.name) := by
    intro n
    rw [hnames, List.mem_append, hstay]
    constructor
    · rintro (hn | hn)
      · exact hn.2
      · exact List.map_subset _ added_subset hn
    · intro hn
      by_cases hin : n ∈ group.names
      · exact Or.inl ⟨hin, hn⟩
      · obtain ⟨item, hitem, rfl⟩ := List.mem_map.1 hn
        refine Or.inr (List.mem_map_of_mem (List.mem_filter.2 ⟨hitem, ?_⟩))
        exact Option.isNone_iff_eq_none.2 (OrderedMap.get?_eq_none.2 hin)
  exact Prod.ext hid (Prod.ext rfl (names_reorder hnodup hlisted))

/-- Changing a group gives it the new statement and the names of its items, in their order. -/
theorem Booked.heading?_applyDiff (hs : s.Booked) (hg : s.graph.WellFormed)
    (hgroup : s.group? id = some group) (hnodup : (items.map (·.name)).Nodup) (id' : GroupId) :
    (s.applyDiff id statement items (diff group items)).value.heading? id' =
      if id' = id then some (group.id, statement, items.map (·.name)) else s.heading? id' := by
  set d := diff group items
  set revised := (d.updated.foldlM revise (d.removed.foldlM destroy s).value).value with hrevised
  have hheading : ∀ i, revised.heading? i = (s.heading? i).map (crossOut d.removed) := fun i => by
    rw [hrevised, heading?_revises, hs.heading?_destroys hg]
  show (d.added.foldlM (introduce id) (revised.restate id statement items d.added)).value.heading? id' = _
  rw [heading?_introduces]
  split_ifs with hid
  · subst hid
    have hold := hheading id'
    rw [heading?_of_group? hgroup] at hold
    obtain ⟨g, hget, hleft⟩ := Option.map_eq_some_iff.1 hold
    have hgid : g.id = group.id := congrArg Prod.fst hleft
    have hnames : g.names = group.names.filter (· ∉ d.removed) := congrArg (·.2.2) hleft
    have hstay : ∀ n, n ∈ g.names ↔ n ∈ group.names ∧ n ∈ items.map (·.name) := fun n => by
      rw [hnames, List.mem_filter, decide_eq_true_eq, mem_removed]
      tauto
    unfold heading? group? restate modifyGroup
    rw [OrderedMap.get?_modify, if_pos rfl, show revised.groups.get? id' = some g from hget, ← hgid,
      ← heading_restated hnodup hstay id' statement]
    rfl
  · -- Another group lists none of the names.
    have hother : (revised.restate id statement items d.added).heading? id' = revised.heading? id' := by
      unfold heading? group? restate modifyGroup
      rw [OrderedMap.get?_modify, if_neg hid]
    rw [hother, hheading]
    cases hgroup' : s.group? id' with
    | none => rw [heading?, hgroup']; rfl
    | some g =>
      rw [heading?_of_group? hgroup', Option.map_some, crossOut_eq_self]
      intro n hn hmem
      exact hid (hs.id_eq hgroup' hgroup hn (mem_removed.1 hmem).1)

/-- Dropping a group, after its equations were destroyed, leaves the headings of the others. -/
theorem Booked.heading?_dropGroup (hs : s.Booked) (hg : s.graph.WellFormed)
    (hgroup : s.group? id = some group) (pending : OrderedMap String EquationFlags) (id' : GroupId) :
    let struck := (group.names.foldlM destroy s).value
    ({ struck with groups := struck.groups.erase id, pending } : Sheet).heading? id' =
      if id' = id then none else s.heading? id' := by
  intro struck
  unfold heading? group?
  rw [OrderedMap.get?_erase]
  split_ifs with hid
  · rfl
  · show struck.heading? id' = s.heading? id'
    rw [hs.heading?_destroys hg]
    cases hgroup' : s.group? id' with
    | none => rw [heading?, hgroup']; rfl
    | some g =>
      rw [heading?_of_group? hgroup', Option.map_some, crossOut_eq_self]
      exact fun n hn hmem => hid (hs.id_eq hgroup' hgroup hn hmem)

/-! ## Equations name their group -/

/-- Each equation carries the identity of the group that has it. -/
def Signed (s : Sheet) : Prop := ∀ id n e, s.entryIn? id n = some e → e.group = id

/-- The equation made of an item carries the identity of the group that it is made for. -/
theorem group_ofItem (item : ParseItem) (id : GroupId) : (Equation.ofItem item id).group = id := by
  unfold Equation.ofItem
  dsimp only
  split_ifs <;> rfl

namespace Signed

/-- Being `Signed` is a matter of the groups that the entries carry. -/
theorem congr (hs : s.Signed)
    (h : ∀ id n, (s'.entryIn? id n).map (·.group) = (s.entryIn? id n).map (·.group)) : s'.Signed := by
  intro id n e he
  have hgroup := h id n
  rw [he] at hgroup
  obtain ⟨e', he', heq⟩ := Option.map_eq_some_iff.1 hgroup.symm
  exact heq.symm.trans (hs id n e' he')

/-- Sheets with the same books are `Signed` alike. -/
theorem sameBooks (hs : s.Signed) (h : SameBooks s' s) : s'.Signed := by
  refine hs.congr fun id n => ?_
  have hgroup := congrArg (Option.map Equation.group) (h.entryIn? id n)
  rwa [Option.map_map, Option.map_map] at hgroup

/-- Destroying equations keeps a sheet `Signed`. -/
theorem destroyed {names : List String} (hs : s.Signed) (h : Destroyed s names s') : s'.Signed := by
  intro id n e he
  rw [h.entryIn?] at he
  split_ifs at he
  exact hs id n e he

/-- Changing equations in place keeps a sheet `Signed`. -/
theorem revises (hs : s.Signed) (items : List ParseItem) : (items.foldlM revise s).value.Signed := by
  induction items generalizing s with
  | nil => exact hs
  | cons item items ih =>
    rw [List.foldlM_cons, Traced.value_bind]
    refine ih (hs.congr fun id n => ?_)
    show (({ s with store := (s.store.remove item.name).1 } : Sheet).modifyEquation item.name
      _ |>.entryIn? id n).map (·.group) = _
    rw [entryIn?_modifyEquation]
    split_ifs
    · rw [Option.map_map]
      rfl
    · rfl

/-- Entering equations keeps a sheet `Signed`. -/
theorem entered (hs : s.Signed) (h : Entered s id items s') : s'.Signed := by
  intro id' n e he
  by_cases hn : id' = id ∧ n ∈ items.map (·.name)
  · obtain ⟨rfl, hmem⟩ := hn
    obtain ⟨item, hitem, rfl⟩ := List.mem_map.1 hmem
    rw [h.entryIn?_of_mem item hitem] at he
    rw [← Option.some.inj he, group_ofItem]
  · rw [h.entryIn?_of_not_mem id' n (not_and_or.1 hn)] at he
    exact hs id' n e he

/-- Dropping a group keeps a sheet `Signed`. -/
theorem dropGroup (hs : s.Signed) (pending : OrderedMap String EquationFlags) :
    ({ s with groups := s.groups.erase id, pending } : Sheet).Signed := by
  intro id' n e he
  unfold entryIn? at he
  rw [OrderedMap.get?_erase] at he
  split_ifs at he
  · cases he
  · exact hs id' n e he

end Signed

/-! ## Groups that record their statements -/

/-- The names are those of the items of the statement, in their order, and the equations have the texts
of the items. -/
def Headed (host : Host) (s : Sheet) (id : GroupId) (h : GroupId × String × List String) : Prop :=
  h.1 = id ∧ ∃ items, host.parse .statement h.2.1 = .ok items ∧ h.2.2 = items.map (·.name) ∧
    ∀ item ∈ items, s.text? item.name = some item.text

/-- Every group records its statement, and its equations carry its identity. -/
structure Recorded (host : Host) (s : Sheet) : Prop where
  signed : s.Signed
  headed : ∀ id h, s.heading? id = some h → Headed host s id h

/-- A heading is right in every sheet that has the same texts for its names. -/
theorem Headed.congr {h : GroupId × String × List String} (hs : Headed host s id h)
    (htext : ∀ n ∈ h.2.2, s'.text? n = s.text? n) : Headed host s' id h := by
  obtain ⟨hid, items, hparse, hnames, hitems⟩ := hs
  refine ⟨hid, items, hparse, hnames, fun item hitem => ?_⟩
  rw [htext item.name (hnames ▸ List.mem_map_of_mem hitem)]
  exact hitems item hitem

/-- A name in a heading has an equation. -/
theorem exists_entryIn? {h : GroupId × String × List String} (hheading : s.heading? id = some h)
    {n : String} (hn : n ∈ h.2.2) : ∃ g e, s.group? id = some g ∧ n ∈ g.names ∧
      s.entryIn? id n = some e := by
  obtain ⟨g, hgroup, rfl⟩ := Option.map_eq_some_iff.1 hheading
  obtain ⟨e, he⟩ := (mem_names_iff hgroup).1 hn
  exact ⟨g, e, hgroup, hn, he⟩

/-- A name in a heading is taken. -/
theorem Booked.hasEquation_of_heading (hs : s.Booked) {h : GroupId × String × List String}
    (hheading : s.heading? id = some h) {n : String} (hn : n ∈ h.2.2) : s.hasEquation n = true := by
  obtain ⟨-, e, -, -, he⟩ := exists_entryIn? hheading hn
  exact hs.hasEquation_iff.2 ⟨e, hs.equation?_of_entryIn? he⟩

namespace Recorded

/-- Sheets with the same books are `Recorded` alike. -/
theorem sameBooks (hs : Recorded host s) (h : SameBooks s' s) : Recorded host s' where
  signed := hs.signed.sameBooks h
  headed := by
    intro id hd hheading
    rw [h.heading?] at hheading
    exact (hs.headed id hd hheading).congr fun n _ => h.text? n

/-- Only the tables matter. -/
theorem of_tables (hs : Recorded host s) (howners : s'.owners = s.owners)
    (hgroups : s'.groups = s.groups) : Recorded host s' where
  signed := hs.signed.congr fun id n => by rw [entryIn?, entryIn?, hgroups]
  headed := by
    intro id hd hheading
    rw [heading?, group?, hgroups] at hheading
    refine (hs.headed id hd hheading).congr fun n _ => ?_
    rw [text?, text?, equation?, equation?, howners, hgroups]

/-- `Sheet.enterGroup` keeps a sheet `Recorded`, refused or not. -/
theorem enterGroup (hs : Recorded host s) (hw : s.Wired) (statement : String) :
    Recorded host (s.enterGroup host statement).value.1 := by
  rcases hw.atRest.enterGroup_cases host statement with
    hrefused | ⟨items, graph, pending, hparse, hnodup, htaken, hsound, -, hrewired, hvalue⟩
  · exact hs.of_tables hrefused.sheet.owners hrefused.sheet.groups
  · have hedited := (edited_createGroup hw.booked hsound.wellFormed pending statement hnodup htaken
      hrewired).withPending ∅
    have hbooked : ({ s with graph, pending } : Sheet).Booked := hw.booked.of_tables rfl rfl rfl
    have hentered := entered_createGroup hbooked hsound.wellFormed statement hnodup
    have hsigned : ({ s with graph, pending } : Sheet).Signed := hs.signed
    have hnamed := hsigned.entered hentered
    rw [hvalue]
    refine ⟨hnamed, fun id hd hheading => ?_⟩
    change (({ s with graph, pending } : Sheet).createGroup statement items).value.1.heading? id = some hd
      at hheading
    rw [heading?_createGroup _ statement hnodup] at hheading
    split_ifs at hheading with hid
    · obtain rfl := Option.some.inj hheading
      exact ⟨hid.symm, items, hparse, rfl, hedited.text?_of_attached⟩
    · -- The names of the other groups are taken, so they are not among the new ones.
      refine (hs.headed id hd hheading).congr fun n hn => ?_
      refine hedited.text?_of_kept n List.not_mem_nil fun hmem => ?_
      obtain ⟨item, hitem, rfl⟩ := List.mem_map.1 hmem
      exact Bool.false_ne_true ((htaken item hitem).symm.trans (hw.booked.hasEquation_of_heading hheading hn))

/-- `Sheet.removeGroup` keeps a sheet `Recorded`, refused or not. -/
theorem removeGroup (hs : Recorded host s) (hw : s.Wired) (id : GroupId) :
    Recorded host (s.removeGroup id).value.1 := by
  rcases hw.atRest.removeGroup_cases id with
    hrefused | ⟨group, graph, pending, hgroup, hsound, -, hrewired, hvalue⟩
  · exact hs.of_tables hrefused.sheet.owners hrefused.sheet.groups
  · have hedited := edited_dropGroup hw.booked hsound.wellFormed pending ∅ hgroup hrewired
    have hbooked : ({ s with graph, pending } : Sheet).Booked := hw.booked.of_tables rfl rfl rfl
    have hdestroyed := destroyed_foldlM hbooked hsound.wellFormed group.names
    have hsigned : ({ s with graph, pending } : Sheet).Signed := hs.signed
    rw [hvalue]
    refine ⟨(hsigned.destroyed hdestroyed).dropGroup ∅, fun id' hd hheading => ?_⟩
    rw [hbooked.heading?_dropGroup hsound.wellFormed hgroup] at hheading
    split_ifs at hheading with hid
    -- The other groups have none of the names that are gone.
    refine (hs.headed id' hd hheading).congr fun n hn => ?_
    refine hedited.text?_of_kept n (fun hmem => ?_) List.not_mem_nil
    obtain ⟨g, -, hgroup', hmem', -⟩ := exists_entryIn? hheading hn
    exact hid (hbooked.id_eq hgroup' hgroup hmem' hmem)

end Recorded

section Diff

/-- What a change detaches was in the group. -/
theorem mem_names_of_detached {n : String} (h : n ∈ (diff group items).detached) : n ∈ group.names := by
  rcases mem_detached.1 h with hremoved | hupdated
  · exact (mem_removed.1 hremoved).1
  · obtain ⟨item, hitem, rfl⟩ := List.mem_map.1 hupdated
    obtain ⟨e, he⟩ := get?_of_mem_updated hitem
    exact OrderedMap.isSome_get?.1 (by rw [he]; rfl)

/-- An item of the new statement that is not attached has an equation of its text in the group. -/
theorem exists_of_not_attached {item : ParseItem} (hitem : item ∈ items)
    (hnot : item.name ∉ (diff group items).attached.map (·.name)) :
    ∃ e, group.equations.get? item.name = some e ∧ e.content = item.content ∧ e.kind = item.kind := by
  rw [mem_names_attached, not_or] at hnot
  cases hget : group.equations.get? item.name with
  | none =>
    exact absurd (List.mem_map_of_mem (List.mem_filter.2 ⟨hitem, by rw [hget]; rfl⟩)) hnot.1
  | some e =>
    refine ⟨e, rfl, ?_⟩
    by_contra hchanged
    refine hnot.2 (List.mem_map_of_mem (List.mem_filter.2 ⟨hitem, ?_⟩))
    simp only [hget, Option.any_some, Bool.or_eq_true, decide_eq_true_eq]
    exact not_and_or.1 hchanged

end Diff

/-- After a change, the equations have the texts of the items of the new statement. -/
theorem Edited.text?_of_item {graph : Graph} {seeds : List String} (hs : s.Booked)
    (h : Edited s graph (diff group items).detached (diff group items).attached seeds s')
    (hgroup : s.group? id = some group) (hnodup : (items.map (·.name)).Nodup) {item : ParseItem}
    (hitem : item ∈ items) : s'.text? item.name = some item.text := by
  by_cases hattached : item.name ∈ (diff group items).attached.map (·.name)
  · obtain ⟨item', hitem', hname⟩ := List.mem_map.1 hattached
    obtain rfl := List.inj_on_of_nodup_map hnodup (attached_subset hitem') hitem hname
    exact h.text?_of_attached item' hitem'
  · -- The equation stays as it is.
    have hdetached : item.name ∉ (diff group items).detached := fun hmem => by
      rcases mem_detached.1 hmem with hremoved | hupdated
      · exact (mem_removed.1 hremoved).2 (List.mem_map_of_mem hitem)
      · exact hattached (mem_names_attached.2 (Or.inr hupdated))
    obtain ⟨e, he, hcontent, hkind⟩ := exists_of_not_attached hitem hattached
    have hentry : s.entryIn? id item.name = some e := (entryIn?_of_group? hgroup item.name).trans he
    rw [h.text?_of_kept _ hdetached hattached, text?, hs.equation?_of_entryIn? hentry, Option.map_some,
      Equation.text, hs.name_eq _ _ _ hentry, hcontent, hkind]
    rfl

namespace Recorded

/-- `Sheet.changeGroup` keeps a sheet `Recorded`, refused or not. -/
theorem changeGroup (hs : Recorded host s) (hw : s.Wired) (id : GroupId) (statement : String) :
    Recorded host (s.changeGroup host id statement).value.1 := by
  rcases hw.atRest.changeGroup_cases host id statement with
    hrefused | hsame | ⟨group, items, graph, pending, hgroup, hparse, hnodup, htaken, hsound, -,
      hrewired, hvalue⟩
  · exact hs.of_tables hrefused.sheet.owners hrefused.sheet.groups
  · rw [hsame]
    exact hs
  · have hedited := (edited_applyDiff hw.booked hsound.wellFormed pending statement hgroup hnodup htaken
      (hrewired (nodup_attached group hnodup))).withPending ∅
    have hbooked : ({ s with graph, pending } : Sheet).Booked := hw.booked.of_tables rfl rfl rfl
    have hstaged := staged_applyDiff hbooked hsound.wellFormed statement hgroup hnodup
    have hsigned : ({ s with graph, pending } : Sheet).Signed := hs.signed
    have hnamed := ((hsigned.destroyed hstaged.destroyed).revises _).entered hstaged.entered
    rw [hvalue]
    refine ⟨hnamed, fun id' hd hheading => ?_⟩
    change (({ s with graph, pending } : Sheet).applyDiff id statement items
      (diff group items)).value.heading? id' = some hd at hheading
    rw [hbooked.heading?_applyDiff hsound.wellFormed hgroup hnodup] at hheading
    split_ifs at hheading with hid
    · obtain rfl := Option.some.inj hheading
      have hold := hs.headed id group.heading (heading?_of_group? hgroup)
      exact ⟨hold.1.trans hid.symm, items, hparse, rfl,
        fun item => hedited.text?_of_item hw.booked hgroup hnodup⟩
    · refine (hs.headed id' hd hheading).congr fun n hn => ?_
      obtain ⟨g, -, hgroup', hmem', -⟩ := exists_entryIn? hheading hn
      have hother : n ∉ group.names := fun hmem => hid (hbooked.id_eq hgroup' hgroup hmem' hmem)
      refine hedited.text?_of_kept n (fun hmem => hother (mem_names_of_detached hmem)) fun hmem => ?_
      rcases mem_names_attached.1 hmem with hadded | hupdated
      · obtain ⟨item, hitem, rfl⟩ := List.mem_map.1 hadded
        exact Bool.false_ne_true
          ((htaken item hitem).symm.trans (hw.booked.hasEquation_of_heading hheading hn))
      · exact hother (mem_names_of_detached (mem_detached.2 (Or.inr hupdated)))

end Recorded

/-! ## Sheets that repeat their statements -/

/-- Groups, nodes and edges are what the current statements say. -/
structure Transcript (host : Host) (s : Sheet) : Prop where
  wired : s.Wired
  recorded : Recorded host s
  mem_edges : ∀ n d, ⟨n, d⟩ ∈ s.graph.edges.toList ↔
    ∃ text, s.text? n = some text ∧ host.Declares text d

/-- Over a consistent host, a structural edit leaves the edges that the texts declare. -/
theorem EditStep.mem_edges (hhost : host.Consistent) (h : EditStep host s s')
    (hs : ∀ n d, ⟨n, d⟩ ∈ s.graph.edges.toList ↔ ∃ text, s.text? n = some text ∧ host.Declares text d)
    (n d : String) :
    ⟨n, d⟩ ∈ s'.graph.edges.toList ↔ ∃ text, s'.text? n = some text ∧ host.Declares text d := by
  cases h with
  | same sheet => rw [sheet.mem_edges, text?, sheet.equation?, ← text?, hs]
  | @edited graph detached seeds attached edited nodup fresh reported =>
    rw [edited.marked.shape.edges]
    by_cases hattached : n ∈ attached.map (·.name)
    · obtain ⟨item, hitem, rfl⟩ := List.mem_map.1 hattached
      obtain ⟨statement, items, hparse, hmem⟩ := reported item hitem
      rw [edited.rewired.mem_edges_of_attached nodup hitem, edited.text?_of_attached item hitem,
        ← hhost.declares_iff hparse hmem]
      simp
    · by_cases hdetached : n ∈ detached
      · rw [edited.text?_of_gone n hdetached hattached]
        refine iff_of_false (edited.rewired.not_mem_edges_of_gone hdetached hattached) ?_
        rintro ⟨text, htext, -⟩
        cases htext
      · rw [edited.rewired.mem_edges_of_kept hdetached hattached,
          edited.text?_of_kept n hdetached hattached, hs]

namespace Transcript

/-- A vacant sheet is a `Transcript` of no statements. -/
theorem of_vacant (h : s.Vacant) : Transcript host s where
  wired := h.wired
  recorded := by
    refine ⟨fun id n e he => ?_, fun id hd hheading => ?_⟩
    · rw [h.entryIn?] at he
      cases he
    · rw [heading?, group?, h.groups] at hheading
      cases hheading
  mem_edges := by
    intro n d
    rw [text?, h.equation?, h.edges]
    refine iff_of_false List.not_mem_nil ?_
    rintro ⟨_, htext, _⟩
    cases htext

/-- A calm change that keeps the books keeps the `Transcript`. -/
theorem sameBooks (h : Transcript host s) (hcalm : Calm s' s) (hbooks : SameBooks s' s) :
    Transcript host s' where
  wired := hbooks.wired hcalm h.wired
  recorded := h.recorded.sameBooks hbooks
  mem_edges := by
    intro n d
    rw [hcalm.graph.edges, hbooks.text?, h.mem_edges]

/-- A structural edit of a sheet that stays `Recorded` keeps the `Transcript`, if the host is
`Host.Consistent`. -/
theorem editStep (hhost : host.Consistent) (h : Transcript host s) (hstep : EditStep host s s')
    (hrest : s'.AtRest) (hrecorded : Recorded host s') : Transcript host s' :=
  ⟨hstep.wired h.wired hrest, hrecorded, hstep.mem_edges hhost h.mem_edges⟩

end Transcript

/-- Of a host, an addition uses only how it parses statements. -/
theorem enterGroup_congr {host' : Host} (hparse : host'.parse .statement = host.parse .statement)
    (s : Sheet) (statement : String) : s.enterGroup host' statement = s.enterGroup host statement := by
  unfold enterGroup parseStatement
  rw [hparse]

/-- Of a host, a change of a group uses only how it parses statements. -/
theorem changeGroup_congr {host' : Host} (hparse : host'.parse .statement = host.parse .statement)
    (s : Sheet) (id : GroupId) (statement : String) :
    s.changeGroup host' id statement = s.changeGroup host id statement := by
  unfold changeGroup parseStatement
  rw [hparse]

namespace Transcript

/-- Every operation leaves a sheet that repeats its statements, over any host that parses statements like
the consistent one. -/
theorem perform (hhost : host.Consistent) (h : Transcript host s) {host' : Host}
    (hparse : host'.parse .statement = host.parse .statement) (op : SheetOperation) :
    Transcript host (s.perform host' op).value.1 := by
  refine perform_induction (fun s h => of_vacant h) (fun s statement h => ?_) (fun s id statement h => ?_)
    (fun s id h => ?_) (fun s s' hcalm hbooks h => h.sameBooks hcalm hbooks) h op
  · rw [enterGroup_congr hparse]
    exact h.editStep hhost (h.wired.enterGroup host statement) (h.wired.atRest.enterGroup host statement)
      (h.recorded.enterGroup h.wired statement)
  · rw [changeGroup_congr hparse]
    exact h.editStep hhost (h.wired.changeGroup host id statement)
      (h.wired.atRest.changeGroup host id statement) (h.recorded.changeGroup h.wired id statement)
  · exact h.editStep hhost (h.wired.removeGroup host id) (h.wired.atRest.removeGroup id)
      (h.recorded.removeGroup h.wired id)

/-- Every run over such hosts leaves a sheet that repeats its statements. -/
theorem performEach (hhost : host.Consistent) (h : Transcript host s)
    {steps : List (Host × SheetOperation)}
    (hsteps : ∀ step ∈ steps, step.1.parse .statement = host.parse .statement) :
    Transcript host (s.performEach steps).value :=
  performEach_induction (fun step hstep _ h => h.perform hhost (hsteps step hstep) step.2) h

end Transcript

/-! ## What the statements say -/

/-- The names of a sheet are those that some group lists. -/
theorem mem_names (s : Sheet) (n : String) :
    n ∈ s.names ↔ ∃ id g, s.group? id = some g ∧ n ∈ g.names := by
  rw [names, List.mem_flatMap]
  constructor
  · rintro ⟨g, hg, hn⟩
    obtain ⟨⟨id, g'⟩, hentry, rfl⟩ := List.mem_map.1 hg
    exact ⟨id, g', OrderedMap.get?_eq_some.2 hentry, hn⟩
  · rintro ⟨id, g, hgroup, hn⟩
    exact ⟨g, List.mem_map.2 ⟨(id, g), OrderedMap.get?_eq_some.1 hgroup, rfl⟩, hn⟩

/-- The equations of a group, in order, have the texts of the items of its statement. -/
theorem Recorded.members_eq (hs : Recorded host s) (hbooked : s.Booked)
    (hgroup : s.group? id = some group) :
    group.id = id ∧ ∃ items, host.parse .statement group.statement = .ok items ∧
      group.names = items.map (·.name) ∧
      group.members.map Equation.text = items.map ParseItem.text ∧ ∀ e ∈ group.members, e.group = id := by
  obtain ⟨hid, items, hparse, hnames, hitems⟩ := hs.headed id group.heading (heading?_of_group? hgroup)
  have hnames' : group.names = items.map (·.name) := hnames
  refine ⟨hid, items, hparse, hnames', ?_, fun e he => ?_⟩
  · -- Each equation is found under the name of its item.
    have hfound : ∀ item ∈ items, (group.equations.get? item.name).map Equation.text = some item.text := by
      intro item hitem
      have hlisted : item.name ∈ group.names := hnames' ▸ List.mem_map_of_mem hitem
      obtain ⟨e, he⟩ := (mem_names_iff hgroup).1 hlisted
      rw [← hitems item hitem, text?, hbooked.equation?_of_entryIn? he, ← entryIn?_of_group? hgroup, he]
    apply List.map_injective_iff.2 (Option.some_injective _)
    calc (group.members.map Equation.text).map some
        = (group.equations.values.map some).map (Option.map Equation.text) := by
          simp [Group.members, Function.comp_def]
      _ = (group.names.map group.equations.get?).map (Option.map Equation.text) := by
          rw [OrderedMap.map_some_values]
          rfl
      _ = (items.map ParseItem.text).map some := by
          rw [hnames', List.map_map, List.map_map, List.map_map]
          exact List.map_congr_left hfound
  · obtain ⟨⟨n, e'⟩, hentry, rfl⟩ := List.mem_map.1 he
    refine hs.signed id n e' ?_
    rw [entryIn?_of_group? hgroup]
    exact OrderedMap.get?_eq_some.2 hentry

/-- An item of a current statement is what the text of an equation says. -/
theorem Transcript.exists_text_iff (h : Transcript host s) (hhost : host.Consistent) (n d : String) :
    (∃ text, s.text? n = some text ∧ host.Declares text d) ↔
      ∃ id g items, s.group? id = some g ∧ host.parse .statement g.statement = .ok items ∧
        ∃ item ∈ items, item.name = n ∧ d ∈ item.dependencies := by
  constructor
  · rintro ⟨text, htext, hdeclares⟩
    obtain ⟨e, he, -⟩ := Option.map_eq_some_iff.1 htext
    rw [equation?_eq] at he
    obtain ⟨id, -, he⟩ := Option.bind_eq_some_iff.1 he
    obtain ⟨g, hgroup, -⟩ := Option.bind_eq_some_iff.1 he
    obtain ⟨-, items, hparse, hnames, hitems⟩ :=
      h.recorded.headed id g.heading (heading?_of_group? hgroup)
    have hlisted : n ∈ items.map (·.name) := hnames ▸ (mem_names_iff hgroup).2 ⟨e, he⟩
    obtain ⟨item, hitem, rfl⟩ := List.mem_map.1 hlisted
    obtain rfl := Option.some.inj ((hitems item hitem).symm.trans htext)
    exact ⟨id, g, items, hgroup, hparse, item, hitem, rfl,
      (hhost.declares_iff hparse hitem d).1 hdeclares⟩
  · rintro ⟨id, g, items, hgroup, hparse, item, hitem, rfl, hd⟩
    obtain ⟨-, items', hparse', -, hitems⟩ := h.recorded.headed id g.heading (heading?_of_group? hgroup)
    obtain rfl := Except.ok.inj (hparse.symm.trans hparse')
    exact ⟨item.text, hitems item hitem, (hhost.declares_iff hparse hitem d).2 hd⟩

/-- Over a host for which what an item reads is known from its text (`Host.Consistent`), and over others
that parse statements like it, after any run of operations: each group has, in order, the items of its
current statement; the index gives each existing name the one group that has it; the nodes are the names;
the edges are what the items of the current statements read; and no batch is open. -/
theorem transcribed_of_operations (host : Host) (hhost : host.Consistent) (options : Options)
    (store : Store) (steps : List (Host × SheetOperation))
    (hsteps : ∀ step ∈ steps, step.1.parse .statement = host.parse .statement) :
    let s := (create host options store >>= (·.performEach steps)).value
    (∀ id g, s.group? id = some g → g.id = id ∧ ∃ items,
      host.parse .statement g.statement = .ok items ∧ g.names = items.map (·.name) ∧
        g.members.map Equation.text = items.map ParseItem.text ∧ ∀ e ∈ g.members, e.group = id) ∧
    (∀ n ∈ s.names, ∃! id, ∃ g, s.group? id = some g ∧ n ∈ g.names) ∧
    (∀ n id, s.owners.get? n = some id ↔ ∃ g, s.group? id = some g ∧ n ∈ g.names) ∧
    (∀ n, n ∈ s.graph.names ↔ n ∈ s.names) ∧
    (∀ n d, ⟨n, d⟩ ∈ s.graph.edges.toList ↔ ∃ id g items, s.group? id = some g ∧
      host.parse .statement g.statement = .ok items ∧
        ∃ item ∈ items, item.name = n ∧ d ∈ item.dependencies) ∧
    s.graph.inBatch = false := by
  intro s
  have hs : Transcript host s :=
    Transcript.performEach hhost (Transcript.of_vacant (vacant_create host options store)) hsteps
  have hbooked := hs.wired.booked
  have hindex : ∀ n id, s.owners.get? n = some id ↔ ∃ g, s.group? id = some g ∧ n ∈ g.names := by
    intro n id
    rw [hbooked.owner_iff]
    constructor
    · rintro ⟨e, he⟩
      obtain ⟨g, hgroup, -⟩ := Option.bind_eq_some_iff.1 he
      exact ⟨g, hgroup, (mem_names_iff hgroup).2 ⟨e, he⟩⟩
    · rintro ⟨g, hgroup, hn⟩
      exact (mem_names_iff hgroup).1 hn
  refine ⟨fun id g hgroup => hs.recorded.members_eq hbooked hgroup, fun n hn => ?_, hindex, fun n => ?_,
    fun n d => (hs.mem_edges n d).trans (hs.exists_text_iff hhost n d), hs.wired.atRest.inBatch⟩
  · obtain ⟨id, g, hgroup, hmem⟩ := (mem_names s n).1 hn
    refine ⟨id, ⟨g, hgroup, hmem⟩, ?_⟩
    rintro id' ⟨g', hgroup', hmem'⟩
    exact hbooked.id_eq hgroup' hgroup hmem' hmem
  · rw [hs.wired.mem_names, ← hbooked.hasEquation_iff, hasEquation, OrderedMap.contains_eq_true,
      ← OrderedMap.isSome_get?, Option.isSome_iff_exists, mem_names]
    exact exists_congr (hindex n)

/-- Sums are parsed, and whatever is executed fails. -/
def sumless : Host := { Sum.host with exec := fun _ store => (.failure .nameError "", store) }

/-- Sums, after an update, an edit that changes one equation and drops the other, and an addition that is
refused; the host of `sumless` takes over before the edit. -/
def corrected : List (Host × SheetOperation) :=
  [(Sum.host, .addGroup "b=a;a=1"), (Sum.host, .update .all), (sumless, .editGroup (.serial 0) "b=d"),
    (sumless, .update .all), (Sum.host, .addGroup "b=2")]

/-- The corrected sums are one equation of one edge. -/
theorem transcribed_of_operations_sum :
    let s := (create Sum.host {} {} >>= (·.performEach corrected)).value
    (Sum.host.Consistent ∧
      ∀ step ∈ corrected, step.1.parse .statement = Sum.host.parse .statement) ∧
      s.names = ["b"] ∧ s.graph.edges.toList = [⟨"b", "d"⟩] ∧
      (∀ n, n ∈ s.graph.names ↔ n ∈ s.names) ∧
      ∀ n d, ⟨n, d⟩ ∈ s.graph.edges.toList ↔ ∃ id g items, s.group? id = some g ∧
        Sum.host.parse .statement g.statement = .ok items ∧
          ∃ item ∈ items, item.name = n ∧ d ∈ item.dependencies := by
  have hhost : Sum.host.Consistent := Sum.local_host.consistent
  have hparse : ∀ step ∈ corrected, step.1.parse .statement = Sum.host.parse .statement := by
    simp [corrected, sumless]
  obtain ⟨-, -, -, hnodes, hedges, -⟩ := transcribed_of_operations Sum.host hhost {} {} corrected hparse
  refine ⟨⟨hhost, hparse⟩, ?_, ?_, hnodes, hedges⟩
  · cbv
  · cbv

end Sheet

end Recalc
