import Recalc.Proofs.Sheet.EditNews
import Recalc.Proofs.Sheet.Transcript

/-!
# What an edit touches

A new statement of a group touches the names that it drops, those that it changes, and those that it adds
(`Group.Touches`). The edit destroys, changes and enters them one at a time, and each of them marks what
reads it, along edges that may dangle by then. In the end it makes no difference in which order they came:
a name that is not touched keeps all but its mark, and it is marked if it was or if it leads to a touched
name (`Edited.isDirty_iff_of_kept`).
-/

namespace Recalc

/-! ## Events and their subjects -/

/-- The equation that an announcement is about, if it is not about a group. -/
def Announcement.subject? : Announcement → Option String
  | .equationAdded e | .equationRemoving e | .equationUpdated e _ => some e.name
  | .equationRemoved name => some name
  | .groupAdded _ | .groupRemoving _ | .groupUpdated .. => none

/-- The equation that an event is about; calls of the host are about none. -/
def Event.subject? : Event → Option String
  | .announce a => a.subject?
  | .parse .. | .run .. => none

/-- The events are about some equations, or about none. -/
abbrev StaysWithin {α : Type} (T : String → Prop) (t : Traced Event α) : Prop :=
  t.Every fun event => ∀ n, event.subject? = some n → T n

/-- Events about some equations are events about more of them. -/
theorem StaysWithin.mono {α : Type} {T T' : String → Prop} {t : Traced Event α} (h : StaysWithin T t)
    (hT : ∀ n, T n → T' n) : StaysWithin T' t := fun event hevent n hn => hT n (h event hevent n hn)

/-- A fold announces only events of a kind if each of its steps does, as long as something holds that the
steps keep. -/
theorem Traced.Every.foldlM_of_invariant {ε α β : Type} {P : ε → Prop} {I : β → Prop}
    {f : β → α → Traced ε β} {as : List α}
    (hf : ∀ b, I b → ∀ a ∈ as, (f b a).Every P ∧ I (f b a).value) {b : β} (hb : I b) :
    (as.foldlM f b).Every P := by
  induction as generalizing b with
  | nil => exact Traced.Every.pure b
  | cons a as ih =>
    obtain ⟨hfirst, hkept⟩ := hf b hb a List.mem_cons_self
    rw [List.foldlM_cons]
    exact hfirst.bind (ih (fun b hb a ha => hf b hb a (List.mem_cons_of_mem _ ha)) hkept)

/-! ## What a statement touches -/

namespace Group

/-- A name of the group that is not in the items. -/
def Drops (g : Group) (items : List ParseItem) (n : String) : Prop :=
  n ∈ g.names ∧ n ∉ items.map (·.name)

/-- A name of the group whose item has another content or kind. -/
def Alters (g : Group) (items : List ParseItem) (n : String) : Prop :=
  ∃ item ∈ items, item.name = n ∧
    ∃ e, g.equations.get? n = some e ∧ (e.content ≠ item.content ∨ e.kind ≠ item.kind)

/-- A name of the items that is not in the group. -/
def Adds (g : Group) (items : List ParseItem) (n : String) : Prop :=
  n ∈ items.map (·.name) ∧ n ∉ g.names

/-- A name that is dropped, altered or added. -/
def Touches (g : Group) (items : List ParseItem) (n : String) : Prop :=
  g.Drops items n ∨ g.Alters items n ∨ g.Adds items n

/-- A name that new items touch is one of the group or one of the items. -/
theorem mem_of_touches {g : Group} {items : List ParseItem} {n : String} (h : g.Touches items n) :
    n ∈ g.names ∨ n ∈ items.map (·.name) := by
  rcases h with ⟨hname, -⟩ | ⟨item, hitem, rfl, -⟩ | ⟨hitem, -⟩
  · exact Or.inl hname
  · exact Or.inr (List.mem_map_of_mem hitem)
  · exact Or.inr hitem

end Group

/-! ## Where edges lead -/

namespace Graph

open Relation

variable {g g' : Graph} {T : String → Prop} {n : String}

/-- A name gets to one of some names along stored edges. All names on the way are nodes; the last one need
not be. -/
inductive LeadsTo (g : Graph) (T : String → Prop) : String → Prop
  | last {n m : String} (edge : ⟨n, m⟩ ∈ g.edges.toList) (there : T m) : LeadsTo g T n
  | step {n d : String} (edge : ⟨n, d⟩ ∈ g.edges.toList) (node : d ∈ g.names)
      (rest : LeadsTo g T d) : LeadsTo g T n

namespace LeadsTo

/-- The way there is as it was if only some of the names have other edges or nodes. -/
theorem transfer (h : g.LeadsTo T n) (hn : ¬ T n)
    (hedges : ∀ m, ¬ T m → ∀ d, ⟨m, d⟩ ∈ g.edges.toList → ⟨m, d⟩ ∈ g'.edges.toList)
    (hnames : ∀ m, ¬ T m → m ∈ g.names → m ∈ g'.names) : g'.LeadsTo T n := by
  induction h with
  | last edge there => exact .last (hedges _ hn _ edge) there
  | @step n d edge node rest ih =>
    by_cases hd : T d
    · exact .last (hedges n hn d edge) hd
    · exact .step (hedges n hn d edge) (hnames d hd node) (ih hd)

end LeadsTo

/-- The last edge of the way leaves a node on which the first one depends. -/
theorem leadsTo_iff (hn : n ∈ g.names) :
    g.LeadsTo T n ↔
      ∃ d ∈ g.names, ReflTransGen g.Depends n d ∧ ∃ m, ⟨d, m⟩ ∈ g.edges.toList ∧ T m := by
  constructor
  · intro h
    induction h with
    | @last n m edge there => exact ⟨n, hn, ReflTransGen.refl, m, edge, there⟩
    | @step n d edge node rest ih =>
      obtain ⟨d', hd', hreach, hlast⟩ := ih node
      exact ⟨d', hd', ReflTransGen.head ⟨edge, hn, node⟩ hreach, hlast⟩
  · rintro ⟨d, -, hreach, m, edge, there⟩
    induction hreach using ReflTransGen.head_induction_on with
    | refl => exact .last edge there
    | head hdepends _ ih => exact .step hdepends.1 hdepends.2.2 (ih hdepends.2.2)

end Graph

namespace Sheet

open Recalc.Graph Relation

variable {host : Host} {s s' : Sheet} {graph : Graph} {detached seeds : List String}
  {attached : List ParseItem} {id : GroupId} {group : Group} {items : List ParseItem}
  {statement n : String}

/-! ## Touched names and the graph -/

/-- What an edit updates are the names that the items alter. -/
theorem mem_names_updated :
    n ∈ (diff group items).updated.map (·.name) ↔ group.Alters items n := by
  simp only [diff, List.mem_map, List.mem_filter, Option.any_eq_true, Bool.or_eq_true,
    decide_eq_true_eq, Group.Alters]
  constructor
  · rintro ⟨item, ⟨hitem, e, he, hdiffers⟩, rfl⟩
    exact ⟨item, hitem, rfl, e, he, hdiffers⟩
  · rintro ⟨item, hitem, rfl, e, he, hdiffers⟩
    exact ⟨item, ⟨hitem, e, he, hdiffers⟩, rfl⟩

/-- What an edit adds are the names that the items add. -/
theorem mem_names_added : n ∈ (diff group items).added.map (·.name) ↔ group.Adds items n := by
  simp only [diff, List.mem_map, List.mem_filter, Option.isNone_iff_eq_none, Group.Adds, Group.names,
    OrderedMap.get?_eq_none]
  constructor
  · rintro ⟨item, ⟨hitem, hnew⟩, rfl⟩
    exact ⟨⟨item, hitem, rfl⟩, hnew⟩
  · rintro ⟨⟨item, hitem, rfl⟩, hnew⟩
    exact ⟨item, ⟨hitem, hnew⟩, rfl⟩

/-- What is detached was dropped or altered. -/
theorem mem_detached_diff : n ∈ (diff group items).detached ↔ group.Drops items n ∨ group.Alters items n :=
  mem_detached.trans (or_congr mem_removed mem_names_updated)

/-- What is attached was altered or added. -/
theorem mem_names_attached_diff :
    n ∈ (diff group items).attached.map (·.name) ↔ group.Alters items n ∨ group.Adds items n := by
  rw [mem_names_attached, mem_names_updated, mem_names_added, or_comm]

/-- The touched names are those detached and those attached. -/
theorem touches_iff : group.Touches items n ↔
    n ∈ (diff group items).detached ∨ n ∈ (diff group items).attached.map (·.name) := by
  rw [mem_detached_diff, mem_names_attached_diff, Group.Touches]
  tauto

/-- The names that the items touch are those that the edit detaches or attaches. -/
theorem touches_eq : group.Touches items =
    fun n => n ∈ (diff group items).detached ∨ n ∈ (diff group items).attached.map (·.name) :=
  funext fun _ => propext touches_iff

/-! ## Marks -/

/-- After an edit whose marks start at what was attached and at what reads a detached name, a name that was
kept is marked if it was marked, or if it leads to a name detached or attached. -/
theorem Edited.isDirty_iff_of_kept (h : Edited s graph detached attached seeds s')
    (hseeds : ∀ n ∈ seeds, n ∈ attached.map (·.name) ∨ ∃ d ∈ detached, ⟨n, d⟩ ∈ graph.edges.toList)
    (hn : n ∈ s.graph.names) (hdetached : n ∉ detached) (hattached : n ∉ attached.map (·.name)) :
    s'.graph.isDirty n = true ↔ s.graph.isDirty n = true ∨
      s'.graph.LeadsTo (fun m => m ∈ detached ∨ m ∈ attached.map (·.name)) n := by
  have hname : n ∈ s'.graph.names := by
    rw [h.marked.shape.names]
    exact (h.rewired.mem_names n).2 (Or.inl ⟨hn, hdetached⟩)
  rw [h.marked.isDirty_iff, isDirty_congr (h.rewired.mark?_of_kept n hdetached hattached),
    leadsTo_iff hname, h.marked.shape.depends_eq, h.marked.shape.names, h.marked.shape.edges]
  refine or_congr_right ⟨?_, ?_⟩
  · rintro ⟨m, hm, hmname, hreach⟩
    rcases hseeds m hm with hseed | ⟨d, hd, hedge⟩
    · -- A name that was kept is not attached, so the way to the seed has a last step.
      rcases hreach.cases_tail with rfl | ⟨d, hreach, hlast⟩
      · exact absurd hseed hattached
      · exact ⟨d, hlast.2.1, hreach, m, hlast.1, Or.inr hseed⟩
    · exact ⟨m, hmname, hreach, d, hedge, Or.inl hd⟩
  · rintro ⟨d, hd, hreach, m, hedge, hm⟩
    by_cases hback : m ∈ attached.map (·.name)
    · have hmname : m ∈ graph.names := (h.rewired.mem_names m).2 (Or.inr hback)
      exact ⟨m, h.mem_seeds_of_attached m hback, hmname, hreach.tail ⟨hedge, hd, hmname⟩⟩
    · exact ⟨d, h.mem_seeds_of_gone d m hedge (hm.resolve_right hback) hback, hd, hreach⟩

/-- What is attached has no stamp. -/
theorem Edited.stampOf_of_attached (h : Edited s graph detached attached seeds s')
    (hfresh : ∀ n ∈ attached.map (·.name), n ∈ detached ∨ n ∉ s.graph.names)
    (hn : n ∈ attached.map (·.name)) : s'.graph.stampOf n = Stamp.never := by
  rw [h.marked.stampOf, stampOf, h.rewired.mark?_of_fresh n hn (hfresh n hn)]
  rfl

/-- What is detached or attached decides where the others lead to, before an edit and after it. -/
theorem Edited.leadsTo_iff_of_kept {T : String → Prop} (h : Edited s graph detached attached seeds s')
    (hT : ∀ n, ¬ T n → n ∉ detached ∧ n ∉ attached.map (·.name)) (hn : ¬ T n) :
    s'.graph.LeadsTo T n ↔ s.graph.LeadsTo T n := by
  have hedges : ∀ m, ¬ T m → ∀ d,
      (⟨m, d⟩ ∈ s'.graph.edges.toList ↔ ⟨m, d⟩ ∈ s.graph.edges.toList) := by
    intro m hm d
    rw [h.marked.shape.edges]
    exact h.rewired.mem_edges_of_kept (hT m hm).1 (hT m hm).2
  have hnames : ∀ m, ¬ T m → (m ∈ s'.graph.names ↔ m ∈ s.graph.names) := by
    intro m hm
    rw [h.marked.shape.names, h.rewired.mem_names, or_iff_left (hT m hm).2, and_iff_left (hT m hm).1]
  constructor
  · intro hleads
    exact hleads.transfer hn (fun m hm d => (hedges m hm d).1) fun m hm => (hnames m hm).1
  · intro hleads
    exact hleads.transfer hn (fun m hm d => (hedges m hm d).2) fun m hm => (hnames m hm).2

/-! ## The sheet after a change -/

/-- What stays with a name: the record of its equation and the group that it is in, the value, the stamp
and the edges that leave it. -/
structure Undisturbed (s s' : Sheet) (n : String) : Prop where
  equation? : s'.equation? n = s.equation? n
  owner : s'.owners.get? n = s.owners.get? n
  value : s'.store.get? n = s.store.get? n
  stampOf : s'.graph.stampOf n = s.graph.stampOf n
  mem_edges : ∀ d, ⟨n, d⟩ ∈ s'.graph.edges.toList ↔ ⟨n, d⟩ ∈ s.graph.edges.toList

/-- A name that an edit neither detaches nor attaches. -/
theorem Edited.undisturbed (h : Edited s graph detached attached seeds s')
    (howner : s'.owners.get? n = s.owners.get? n) (hdetached : n ∉ detached)
    (hattached : n ∉ attached.map (·.name)) : Undisturbed s s' n where
  equation? := h.equation?_of_kept n hdetached hattached
  owner := howner
  value := h.store n hdetached
  stampOf := by
    rw [h.marked.stampOf]
    exact stampOf_congr (h.rewired.mark?_of_kept n hdetached hattached)
  mem_edges := by
    intro d
    rw [h.marked.shape.edges]
    exact h.rewired.mem_edges_of_kept hdetached hattached

/-- A name that an edit detaches and does not attach again. -/
theorem Edited.absent (h : Edited s graph detached attached seeds s') (hdetached : n ∈ detached)
    (hattached : n ∉ attached.map (·.name)) : s'.equation? n = none ∧ n ∉ s'.graph.names := by
  constructor
  · have htext : s'.text? n = none := h.text?_of_gone n hdetached hattached
    exact Option.map_eq_none_iff.1 htext
  · rw [h.marked.shape.names, h.rewired.mem_names, not_or]
    exact ⟨fun hkept => hkept.2 hdetached, hattached⟩

/-- What giving a group other items does to a sheet. -/
structure Footprint (group : Group) (items : List ParseItem) (s s' : Sheet) : Prop where
  undisturbed : ∀ n, ¬ group.Touches items n → Undisturbed s s' n
  /-- The other equations are marked if they lead to a touched name. -/
  isDirty_iff : ∀ n e, s.equation? n = some e → ¬ group.Touches items n →
    (s'.isDirty n = true ↔ s.isDirty n = true ∨ s'.graph.LeadsTo (group.Touches items) n)
  /-- The other equations lead to a touched name if they did before. -/
  leadsTo_iff : ∀ n, ¬ group.Touches items n →
    (s'.graph.LeadsTo (group.Touches items) n ↔ s.graph.LeadsTo (group.Touches items) n)
  dropped : ∀ n, group.Drops items n → s'.equation? n = none ∧ n ∉ s'.graph.names
  text? : ∀ item ∈ items, s'.text? item.name = some item.text
  /-- What is altered or added has to be evaluated. -/
  fresh : ∀ n, group.Alters items n ∨ group.Adds items n →
    s'.isDirty n = true ∧ s'.graph.stampOf n = Stamp.never
  /-- What is dropped or altered has no value. -/
  value_eq_none : ∀ n, group.Drops items n ∨ group.Alters items n → s'.store.get? n = none
  value_eq : ∀ n, ¬ (group.Drops items n ∨ group.Alters items n) →
    s'.store.get? n = s.store.get? n

/-- A name that is neither detached nor attached stays with its group. -/
theorem Staged.owner_of_kept {d : GroupDiff} {s₁ s₂ : Sheet} (h : Staged s id d s₁ s₂ s')
    (hdetached : n ∉ d.detached) (hattached : n ∉ d.attached.map (·.name)) :
    s'.owners.get? n = s.owners.get? n := by
  rw [mem_detached, not_or] at hdetached
  rw [mem_names_attached, not_or] at hattached
  rw [h.entered.owners, if_neg hattached.1, h.revised.owners, h.destroyed.owners, if_neg hdetached.1]

/-- Carrying out the change of a group, after the graph was rewired. -/
theorem Wired.footprint_applyDiff (hs : s.Wired) (hg : graph.WellFormed)
    (pending pending' : OrderedMap String EquationFlags) (statement : String)
    (hgroup : s.group? id = some group) (hnodup : (items.map (·.name)).Nodup)
    (htaken : ∀ item ∈ (diff group items).added, s.hasEquation item.name = false)
    (hrewired : Rewired s.graph (diff group items).detached (diff group items).attached graph) :
    let changed :=
      (({ s with graph, pending } : Sheet).applyDiff id statement items (diff group items)).value
    Footprint group items s { changed with pending := pending' } := by
  intro changed
  have hbooked : ({ s with graph, pending } : Sheet).Booked := hs.booked.of_tables rfl rfl rfl
  have hstaged := staged_applyDiff hbooked hg statement hgroup hnodup
  have hedited : Edited s graph (diff group items).detached (diff group items).attached _
      { changed with pending := pending' } :=
    (edited_applyDiff hs.booked hg pending statement hgroup hnodup htaken hrewired).withPending pending'
  have hkept : ∀ n, ¬ group.Touches items n →
      n ∉ (diff group items).detached ∧ n ∉ (diff group items).attached.map (·.name) :=
    fun n hn => not_or.1 (touches_iff.not.1 hn)
  refine ⟨fun n hn => ?_, fun n e he hn => ?_, fun n hn => hedited.leadsTo_iff_of_kept hkept hn,
    fun n hn => ?_, fun item hitem => hedited.text?_of_item hs.booked hgroup hnodup hitem,
    fun n hn => ?_, fun n hn => hedited.store_of_detached n (mem_detached_diff.2 hn),
    fun n hn => hedited.store n (mem_detached_diff.not.2 hn)⟩
  · obtain ⟨hdetached, hattached⟩ := hkept n hn
    exact hedited.undisturbed (hstaged.owner_of_kept hdetached hattached) hdetached hattached
  · obtain ⟨hdetached, hattached⟩ := hkept n hn
    rw [isDirty_eq, isDirty_eq, touches_eq]
    refine hedited.isDirty_iff_of_kept (fun m hm => ?_) ((hs.mem_names n).2 ⟨e, he⟩) hdetached hattached
    -- The seeds are what reads a dropped name, then what is altered, then what is added.
    rcases List.mem_append.1 hm with hm | hadded
    · rcases List.mem_append.1 hm with hreader | hupdated
      · obtain ⟨d, hd, hedge⟩ := (mem_readers hg).1 hreader
        exact Or.inr ⟨d, mem_detached.2 (Or.inl hd), hedge⟩
      · exact Or.inl (mem_names_attached.2 (Or.inr hupdated))
    · exact Or.inl (mem_names_attached.2 (Or.inl hadded))
  · refine hedited.absent (mem_detached_diff.2 (Or.inl hn)) fun hmem => ?_
    obtain ⟨item, hitem, rfl⟩ := List.mem_map.1 hmem
    exact hn.2 (List.mem_map_of_mem (attached_subset hitem))
  · have hattached := mem_names_attached_diff.2 hn
    rw [isDirty_eq]
    exact ⟨hedited.isDirty_of_attached hattached,
      hedited.stampOf_of_attached (hs.fresh_attached htaken) hattached⟩

/-! ## The events of a change -/

/-- Whatever is announced of the equation found under a name is about that name. -/
theorem staysWithin_found {found : Option Equation} (a : Equation → Announcement)
    (ha : ∀ e, (a e).subject? = some e.name) (hname : ∀ e, found = some e → e.name = n) :
    StaysWithin (· = n) (Traced.announce? (found.map fun e => Event.announce (a e))) := by
  refine Traced.Every.announce? fun event hevent m hm => ?_
  obtain ⟨e, he, rfl⟩ := Option.map_eq_some_iff.1 hevent
  have hsubject : some e.name = some m := (ha e).symm.trans hm
  exact (Option.some.inj hsubject).symm.trans (hname e he)

/-- Destroying equations is about these equations only. -/
theorem Booked.staysWithin_destroys (hs : s.Booked) (hg : s.graph.WellFormed) (names : List String) :
    StaysWithin (· ∈ names) (names.foldlM destroy s) := by
  refine Traced.Every.foldlM_of_invariant (I := fun s => s.Booked ∧ s.graph.WellFormed)
    (fun s ⟨hs, hg⟩ name hname => ?_) ⟨hs, hg⟩
  have hdestroyed := destroyed_destroy hs hg name
  refine ⟨?_, hdestroyed.booked hs, hdestroyed.marked.shape.wellFormed hg⟩
  have hevents : StaysWithin (· = name) (s.destroy name) := by
    refine Traced.Every.bind (staysWithin_found _ (fun _ => rfl) fun e => hs.name_eq_of_equation?) ?_
    exact Traced.Every.bind (Traced.Every.announce fun m hm => (Option.some.inj hm).symm)
      (Traced.Every.pure _)
  exact hevents.mono fun m hm => hm ▸ hname

/-- Changing equations in place is about these equations only. -/
theorem Booked.staysWithin_revises (hs : s.Booked) (hg : s.graph.WellFormed) (items : List ParseItem) :
    StaysWithin (· ∈ items.map (·.name)) (items.foldlM revise s) := by
  refine Traced.Every.foldlM_of_invariant (I := fun s => s.Booked ∧ s.graph.WellFormed)
    (fun s ⟨hs, hg⟩ item hitem => ?_) ⟨hs, hg⟩
  have hrevised := revised_revise hs hg item
  refine ⟨?_, hrevised.booked, hrevised.marked.shape.wellFormed hg⟩
  have hevents : StaysWithin (· = item.name) (s.revise item) :=
    Traced.Every.bind (staysWithin_found _ (fun _ => rfl) fun e => hrevised.booked.name_eq_of_equation?)
      (Traced.Every.pure _)
  exact hevents.mono fun m hm => hm ▸ List.mem_map_of_mem hitem

/-- The index changes while names are entered, and the groups do not. -/
theorem staysWithin_introduces (hs : ∀ n id e, s.entryIn? id n = some e → e.name = n) (id : GroupId)
    (items : List ParseItem) :
    StaysWithin (· ∈ items.map (·.name)) (items.foldlM (introduce id) s) := by
  refine Traced.Every.foldlM_of_invariant
    (I := fun s => ∀ n id e, s.entryIn? id n = some e → e.name = n) (fun s hs item hitem => ?_) hs
  refine ⟨?_, hs⟩
  have hevents : StaysWithin (· = item.name) (s.introduce id item) := by
    refine Traced.Every.bind (staysWithin_found _ (fun _ => rfl) fun e he => ?_) (Traced.Every.pure _)
    rw [equation?_eq] at he
    obtain ⟨id', -, hentry⟩ := Option.bind_eq_some_iff.1 he
    exact hs item.name id' e hentry
  exact hevents.mono fun m hm => hm ▸ List.mem_map_of_mem hitem

/-- The change itself is about the touched names. -/
theorem Booked.staysWithin_applyDiff (hs : s.Booked) (hg : s.graph.WellFormed) (statement : String)
    (hgroup : s.group? id = some group) (hnodup : (items.map (·.name)).Nodup)
    (htaken : ∀ item ∈ (diff group items).added, s.hasEquation item.name = false) :
    StaysWithin (group.Touches items) (s.applyDiff id statement items (diff group items)) := by
  have hstaged := staged_applyDiff hs hg statement hgroup hnodup
  have hbooked := hstaged.booked htaken
  have hdestroyed := hstaged.destroyed.booked hs
  have hgd := hstaged.destroyed.marked.shape.wellFormed hg
  have hremoved := hs.staysWithin_destroys hg (diff group items).removed
  have hupdated := hdestroyed.staysWithin_revises hgd (diff group items).updated
  set destroyed := ((diff group items).removed.foldlM destroy s).value
  set revised := ((diff group items).updated.foldlM revise destroyed).value
  -- The sheet in which the names are entered has the groups of the result.
  have hentries : ∀ n id' e, (revised.restate id statement items (diff group items).added).entryIn? id'
      n = some e → e.name = n := by
    intro n id' e he
    refine hbooked.name_eq n id' e ?_
    rw [show (s.applyDiff id statement items (diff group items)).value =
      (revised.restate id statement items (diff group items).added).claimAll id
        (diff group items).added from value_introduce_foldlM _ id _, claimAll_eq]
    exact he
  have hadded := staysWithin_introduces hentries id (diff group items).added
  refine Traced.Every.bind (StaysWithin.mono hremoved fun m hm => ?_) ?_
  · exact Or.inl (mem_removed.1 hm)
  refine Traced.Every.bind (StaysWithin.mono hupdated fun m hm => ?_) ?_
  · exact Or.inr (Or.inl (mem_names_updated.1 hm))
  refine Traced.Every.bind (StaysWithin.mono hadded fun m hm => ?_) ?_
  · exact Or.inr (Or.inr (mem_names_added.1 hm))
  refine Traced.Every.bind (Traced.Every.announce? fun event hevent m hm => ?_) (Traced.Every.pure _)
  obtain ⟨g, -, rfl⟩ := Option.map_eq_some_iff.1 hevent
  cases hm

/-- Link changes are announced with equations as they are. -/
theorem Booked.every_flush (hs : s.Booked) (snapshot : LinkSnapshot) :
    (s.flush snapshot).Every fun event => ∀ n, event.subject? = some n →
      ∃ e flags, s.equation? n = some e ∧ event = .announce (.equationUpdated e flags) := by
  unfold flush
  refine Traced.Every.bind (Traced.Every.forM fun change _ => ?_) (Traced.Every.pure _)
  dsimp only
  split_ifs
  · exact Traced.Every.pure _
  · refine Traced.Every.announce? fun event hevent n hn => ?_
    obtain ⟨e, he, rfl⟩ := Option.map_eq_some_iff.1 hevent
    have hfound : s.equation? change.1 = some e := he
    have hname : e.name = n := Option.some.inj hn
    rw [← hs.name_eq_of_equation? hfound, hname] at hfound
    exact ⟨e, _, hfound, rfl⟩

/-- An event tells a name, with its equation as it is in a sheet, how its links changed; and they did. -/
def TellsLinks (s s' : Sheet) (n : String) (event : Event) : Prop :=
  (s.graph.linkChange s'.graph n).isEmpty = false ∧ ∃ e, s'.equation? n = some e ∧
    event = .announce (.equationUpdated e (s.graph.linkChange s'.graph n))

/-- Where equations hear how their links changed, an update that belongs to this stage tells just that. -/
theorem Told.tellsLinks {t : Traced Event Sheet} {last : Nat} {e : Equation} {flags : EquationFlags}
    (h : Told last s t) (he : t.value.equation? e.name = some e)
    (hmem : .announce (.equationUpdated e flags) ∈ t.events)
    (hstage : (Event.announce (.equationUpdated e flags)).stage = 1) :
    TellsLinks s t.value e.name (.announce (.equationUpdated e flags)) := by
  have htell : EquationFlags.tellLinks flags = true := by
    change EquationFlags.stage flags = 1 at hstage
    by_contra hsilent
    rw [EquationFlags.stage, if_neg hsilent] at hstage
    split at hstage
    · cases hstage
    · cases hstage
  have hnews : flags ∈ linkNews e.name t.events := List.mem_filterMap.2 ⟨_, hmem, if_pos ⟨rfl, htell⟩⟩
  rw [h.news e.name e he] at hnews
  split_ifs at hnews with hempty
  · cases hnews
  · obtain rfl := List.mem_singleton.1 hnews
    exact ⟨Bool.eq_false_of_not_eq_true hempty, e, he, rfl⟩

/-- Another statement is parsed. -/
theorem parse_mem_events_changeGroup (host : Host) (hgroup : s.group? id = some group)
    (hne : group.statement ≠ statement) :
    .parse .statement statement ∈ (s.changeGroup host id statement).events := by
  unfold changeGroup parseStatement
  simp [hgroup, hne]

/-- A group that is given another statement. -/
theorem Wired.footprint_changeGroup (hs : s.Wired) (hsourced : s.Sourced) (host : Host)
    (hgroup : s.group? id = some group) (hne : group.statement ≠ statement)
    (hok : ∀ e, (s.changeGroup host id statement).value.2 ≠ .error e) :
    let t := Prod.fst <$> s.changeGroup host id statement
    ∃ items, host.parse .statement statement = .ok items ∧ Footprint group items s t.value ∧
      t.value.options = s.options ∧ (∀ mode code, .run mode code ∉ t.events) ∧
      ∀ event ∈ t.events, ∀ n, event.subject? = some n → ¬ group.Touches items n →
        TellsLinks s t.value n event := by
  intro t
  have htold : Told 1 s t := hs.told_changeGroup hsourced host id statement hok
  rcases hs.atRest.changeGroup_outline host id statement with hrefused | hsame |
    ⟨group', items, graph, pending, hgroup', hparse, hnodup, htaken, hsound, -, hrewired, hrewire, heq⟩
  · obtain ⟨e, he⟩ := hrefused.failed
    exact absurd he (hok e)
  · have hparsed := parse_mem_events_changeGroup host hgroup hne
    rw [hsame] at hparsed
    cases hparsed
  · obtain rfl : group' = group := Option.some.inj (hgroup'.symm.trans hgroup)
    have hbooked : ({ s with graph, pending } : Sheet).Booked := hs.booked.of_tables rfl rfl rfl
    have hrewired := hrewired (nodup_attached group' hnodup)
    have hfootprint := hs.footprint_applyDiff hsound.wellFormed pending ∅ statement hgroup hnodup htaken
      hrewired
    have hchange := hbooked.staysWithin_applyDiff hsound.wellFormed statement hgroup hnodup htaken
    have hafter := edited_applyDiff hs.booked hsound.wellFormed pending statement hgroup hnodup htaken
      hrewired
    have hcalm := calm_applyDiff { s with graph, pending } id statement items (diff group' items)
    set changed := ({ s with graph, pending } : Sheet).applyDiff id statement items (diff group' items)
    set snapshot := LinkSnapshot.capture s.graph (diff group' items).detached
      (diff group' items).attached
    have hvalue : t.value = { changed.value with pending := ∅ } := by
      show (s.changeGroup host id statement).value.1 = _
      rw [heq]
      rfl
    have hevents : t.events = .parse .statement statement ::
        (changed.events ++ (changed.value.flush snapshot).events) := by
      show (Prod.fst <$> s.changeGroup host id statement).events = _
      rw [heq]
      simp
    refine ⟨items, hparse, hvalue ▸ hfootprint, ?_, fun mode code hrun => ?_,
      fun event hevent n hn htouched => ?_⟩
    · rw [hvalue]
      exact hafter.options
    · -- Runs belong to the stage after the link changes.
      exact absurd (htold.stage_le _ hrun) (Nat.not_succ_le_self 1)
    · have hmem := hevent
      rw [hevents, List.mem_cons, List.mem_append] at hevent
      rcases hevent with rfl | hevent | hevent
      · cases hn
      · exact absurd (hchange event hevent n hn) htouched
      · have hpending := hcalm.pending.trans (hs.atRest.rewire_eq_ok hrewire).2
        obtain ⟨e, flags, he, rfl⟩ := hafter.booked.every_flush snapshot event hevent n hn
        obtain rfl : e.name = n := Option.some.inj hn
        have he' : t.value.equation? e.name = some e := by
          rw [hvalue]
          exact he
        exact htold.tellsLinks he' hmem (atStage_flush changed.value hpending snapshot _ hevent)

/-- Editing a group fails where changing it does. -/
theorem editGroup_eq_error {e : SheetError} (h : (s.changeGroup host id statement).value.2 = .error e) :
    (s.editGroup host id statement).value.2 = .error e := by
  rw [editGroup, Traced.value_bind]
  rcases hvalue : (s.changeGroup host id statement).value with ⟨s', r⟩
  rw [hvalue] at h
  subst h
  rfl

/-- A sheet that does not update on its own shows no more of an edit than the change. -/
theorem map_fst_editGroup (host : Host) (id : GroupId) (statement : String)
    (hauto : (s.changeGroup host id statement).value.1.options.autoUpdate = false) :
    Prod.fst <$> s.editGroup host id statement = Prod.fst <$> s.changeGroup host id statement := by
  rw [editGroup, map_bind, map_eq_pure_bind]
  refine Traced.bind_congr_value ?_
  rcases hvalue : (s.changeGroup host id statement).value with ⟨s', e | changed⟩
  · rfl
  · cases changed with
    | false => rfl
    | true =>
      rw [hvalue] at hauto
      have hstill : s'.autoUpdate host id = pure s' := if_neg (by rw [hauto]; exact Bool.false_ne_true)
      simp [hstill]

/-! ## Edits -/

/-- Whatever was done to a sheet that does not update on its own, and whatever the hosts do: an edit that
gives a group another statement and succeeds disturbs only the names that the statement drops, alters or
adds. Every other equation keeps its record, its group, its value, its stamp and its edges, and is marked if
it was or if it leads to one of those names. What is dropped is gone, what is altered or added has the text
of the statement, is marked and has no stamp, and what is dropped or altered has lost its value. The host
runs nothing, and of the other equations it is only told how their links changed. -/
theorem footprint_of_edit (host : Host) (options : Options) (store : Store)
    (steps : List (Host × SheetOperation)) (host' : Host) (id : GroupId) (statement : String) :
    let s := (create host options store >>= (·.performEach steps)).value
    let t := s.perform host' (.editGroup id statement)
    ∀ group, s.options.autoUpdate = false → s.group? id = some group → group.statement ≠ statement →
      (∀ e, t.value.2 ≠ .failed e) →
      ∃ items, host'.parse .statement statement = .ok items ∧ Footprint group items s t.value.1 ∧
        (∀ mode code, .run mode code ∉ t.events) ∧
        ∀ event ∈ t.events, ∀ n, event.subject? = some n → ¬ group.Touches items n →
          TellsLinks s t.value.1 n event := by
  intro s t group hauto hgroup hne hok
  have hvacant := vacant_create host options store
  have hs : s.Wired := hvacant.wired.performEach steps
  have hchanged : ∀ e, (s.changeGroup host' id statement).value.2 ≠ .error e := by
    intro e he
    refine hok e ?_
    show SheetReply.ofExcept _ (s.editGroup host' id statement).value.2 = _
    rw [editGroup_eq_error he]
    rfl
  obtain ⟨items, hparse, hfootprint, hoptions, hrun, hlinks⟩ :=
    hs.footprint_changeGroup (hvacant.sourced.performEach hvacant.wired steps) host' hgroup hne hchanged
  have hedit : Prod.fst <$> t = Prod.fst <$> s.changeGroup host' id statement :=
    (Traced.map_fst_bind_pure _ _).trans (map_fst_editGroup host' id statement (by
      rw [← hauto]
      exact congrArg Options.autoUpdate hoptions))
  have hevents : t.events = (Prod.fst <$> s.changeGroup host' id statement).events := by
    rw [← hedit, Traced.events_map]
  rw [← hedit] at hfootprint hlinks
  rw [← hevents] at hrun
  rw [Traced.events_map] at hlinks
  exact ⟨items, hparse, hfootprint, hrun, hlinks⟩

/-- Two groups of equations that are all clean; the second group reads the first one. -/
def crossed : Sheet :=
  (create Sum.host {} {} >>= (·.performEach
    [(Sum.host, .addGroup "a=1;b=2;c=3"), (Sum.host, .addGroup "d=a;e=d;f=c"),
      (Sum.host, .update .all)])).value

/-- In `crossed` the names that the edit does not touch are there and clean, and `b` has its value. -/
theorem clean_crossed :
    crossed.options.autoUpdate = false ∧
      (crossed.group? (.serial 0)).map (fun g => (g.statement, g.names)) =
        some ("a=1;b=2;c=3", ["a", "b", "c"]) ∧
      ["e", "f"].map (fun n => ((crossed.equation? n).isSome, crossed.isDirty n)) =
        [(true, false), (true, false)] ∧
      crossed.store.get? "b" = some (.int 2) := by cbv

/-- The names of the statement that the edit gives the group. -/
theorem names_parse_crossed :
    (Sum.host.parse .statement "b=5;c=3;g=b").map (·.map (·.name)) = .ok ["b", "c", "g"] := by cbv

/-- An edit of `crossed` succeeds: the altered name has lost its value, what is altered or added is marked
and so is what leads to a touched name, and the events are about these names. -/
theorem edit_crossed :
    let t := crossed.perform Sum.host (.editGroup (.serial 0) "b=5;c=3;g=b")
    t.value.2 = .done ∧ t.value.1.store.get? "b" = none ∧
      ["a", "b", "c", "d", "e", "f", "g"].map t.value.1.isDirty =
        [false, true, false, true, true, false, true] ∧
      t.events.filterMap Event.subject? = ["a", "a", "b", "g", "d", "g", "b"] := by cbv

/-- One name goes, one is altered, one comes, and one stays. Of the second group, what reads the one that
went is marked, and so is what reads that; what reads the one that stays is not. The first of them has
lost a dependency, and that is the only news for the second group. -/
theorem footprint_of_edit_crossed :
    let t := crossed.perform Sum.host (.editGroup (.serial 0) "b=5;c=3;g=b")
    ∃ group items, crossed.options.autoUpdate = false ∧ crossed.group? (.serial 0) = some group ∧
      group.statement ≠ "b=5;c=3;g=b" ∧ t.value.2 = .done ∧ Footprint group items crossed t.value.1 ∧
      group.Drops items "a" ∧ group.Alters items "b" ∧ group.Adds items "g" ∧
      t.value.1.graph.LeadsTo (group.Touches items) "e" ∧
      ¬ t.value.1.graph.LeadsTo (group.Touches items) "f" ∧
      ["a", "b", "c", "d", "e", "f", "g"].map t.value.1.isDirty =
        [false, true, false, true, true, false, true] ∧
      (∀ event ∈ t.events, event.subject? = some "d" → TellsLinks crossed t.value.1 "d" event) ∧
      t.events.filterMap Event.subject? = ["a", "a", "b", "g", "d", "g", "b"] := by
  intro t
  obtain ⟨hauto, hsome, hclean, hvalue⟩ := clean_crossed
  obtain ⟨hdone, hgone, hdirty, hsubjects⟩ := edit_crossed
  have hok := fun e => ne_of_eq_of_ne hdone fun h : .done = SheetReply.failed e => nomatch h
  obtain ⟨group, hgroup, hsays⟩ := Option.map_eq_some_iff.1 hsome
  obtain ⟨hstatement, hnames⟩ := Prod.mk.inj hsays
  have hne : group.statement ≠ "b=5;c=3;g=b" := by
    rw [hstatement]
    decide
  have hedit := footprint_of_edit Sum.host {} {} [(Sum.host, .addGroup "a=1;b=2;c=3"),
    (Sum.host, .addGroup "d=a;e=d;f=c"), (Sum.host, .update .all)] Sum.host (.serial 0)
      "b=5;c=3;g=b" group
  rw [← crossed] at hedit
  obtain ⟨items, hparse, hfootprint, -, hlinks⟩ := hedit hauto hgroup hne hok
  have hitems : items.map (·.name) = ["b", "c", "g"] := by
    have hparsed := names_parse_crossed
    rw [hparse] at hparsed
    exact Except.ok.inj hparsed
  have hother : ∀ n, n ∉ ["a", "b", "c"] ++ ["b", "c", "g"] → ¬ group.Touches items n := by
    intro n hn htouched
    have hmem := Group.mem_of_touches htouched
    rw [hnames, hitems] at hmem
    exact hn (List.mem_append.2 hmem)
  -- What was clean is marked exactly if it leads to a touched name.
  have hiff : ∀ n, (crossed.equation? n).isSome = true → crossed.isDirty n = false →
      n ∉ ["a", "b", "c"] ++ ["b", "c", "g"] →
        (t.value.1.isDirty n = true ↔ t.value.1.graph.LeadsTo (group.Touches items) n) := by
    intro n hsome hclean hn
    obtain ⟨e, he⟩ := Option.isSome_iff_exists.1 hsome
    rw [hfootprint.isDirty_iff n e he (hother n hn), hclean, or_iff_right Bool.false_ne_true]
  have hmarks := hdirty
  simp only [List.map_cons, List.map_nil, List.cons.injEq, Prod.mk.injEq, and_true] at hclean hmarks
  obtain ⟨⟨hsomeE, hcleanE⟩, hsomeF, hcleanF⟩ := hclean
  obtain ⟨-, -, -, -, hdirtyE, hdirtyF, -⟩ := hmarks
  refine ⟨group, items, hauto, hgroup, hne, hdone, hfootprint, ?_, ?_, ?_, ?_, fun hleads => ?_, hdirty,
    fun event hevent hsubject => hlinks event hevent "d" hsubject (hother "d" (by decide)), hsubjects⟩
  · rw [Group.Drops, hnames, hitems]
    decide
  · -- It is in the group and in the statement, and has lost its value.
    by_contra hsame
    have hkept : ¬ (group.Drops items "b" ∨ group.Alters items "b") := by
      rw [Group.Drops, hitems]
      simpa using hsame
    have hlost := hfootprint.value_eq "b" hkept
    rw [hvalue] at hlost
    exact Option.some_ne_none _ (hlost.symm.trans hgone)
  · rw [Group.Adds, hnames, hitems]
    decide
  · exact (hiff "e" hsomeE hcleanE (by decide)).1 hdirtyE
  · have hmarked := (hiff "f" hsomeF hcleanF (by decide)).2 hleads
    exact Bool.false_ne_true (hdirtyF.symm.trans hmarked)

end Sheet

end Recalc
