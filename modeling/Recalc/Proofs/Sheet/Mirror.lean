import Recalc.Proofs.Sheet.Transcript

/-!
# Mirrors

An observer of a sheet that takes in its announcements, one by one and from the start, knows the sheet:
a `Mirror` holds the equation of each name, and the statement and the names of each group. No
announcement on the way surprises it: nothing is added twice, and nothing is changed or removed that it
does not know.

Almost all steps concern equations only: whatever the observer knows of groups, their announcements lead
from the equations before to those after (`Tells`). This file has those steps; announcements of groups
come at the ends of edits, which are put together from them.
-/

namespace Recalc

/-- What an observer knows of a sheet. -/
structure Mirror where
  /-- The equation of a name. -/
  equation? : String → Option Equation
  /-- The statement of a group, and the names of its equations in order. -/
  group? : GroupId → Option (String × List String)

namespace Mirror

/-- Knowing nothing. -/
def blank : Mirror := ⟨fun _ => none, fun _ => none⟩

/-- Take in an announcement. -/
def observe (m : Mirror) : Announcement → Mirror
  | .equationAdded e | .equationUpdated e _ =>
    { m with equation? := Function.update m.equation? e.name (some e) }
  | .equationRemoving _ => m
  | .equationRemoved name => { m with equation? := Function.update m.equation? name none }
  | .groupAdded g | .groupUpdated g _ =>
    { m with group? := Function.update m.group? g.id (some (g.statement, g.names)) }
  | .groupRemoving g => { m with group? := Function.update m.group? g.id none }

/-- Whether an announcement fits: what is added is not known yet, what is changed or removed is known,
and what is about to go is known as it is announced. -/
def expects (m : Mirror) : Announcement → Bool
  | .equationAdded e => (m.equation? e.name).isNone
  | .equationUpdated e _ => (m.equation? e.name).isSome
  | .equationRemoving e => m.equation? e.name = some e
  | .equationRemoved name => (m.equation? name).isSome
  | .groupAdded g => (m.group? g.id).isNone
  | .groupUpdated g _ => (m.group? g.id).isSome
  | .groupRemoving g => m.group? g.id = some (g.statement, g.names)

/-- Take in an event, if it fits. -/
def take? (m : Mirror) : Event → Option Mirror
  | .announce a => if m.expects a then some (m.observe a) else none
  | _ => some m

/-- Take in events one after the other, if all of them fit. -/
def follow? (m : Mirror) (events : List Event) : Option Mirror := events.foldlM take? m

variable {m m' m'' : Mirror}

/-- A mirror that follows some events and then more of them follows all of them. -/
theorem follow?_append {before after : List Event} (hbefore : m.follow? before = some m')
    (hafter : m'.follow? after = some m'') : m.follow? (before ++ after) = some m'' := by
  rw [follow?, List.foldlM_append, ← follow?, hbefore]
  exact hafter

/-- A mirror that expects an announcement follows it by observing it. -/
theorem follow?_announce {a : Announcement} (h : m.expects a = true) :
    m.follow? [.announce a] = some (m.observe a) := by
  simp [follow?, take?, h]

/-- Events that are no announcements tell nothing. -/
theorem follow?_quiet {events : List Event} (h : ∀ event ∈ events, ∀ a, event ≠ .announce a) :
    m.follow? events = some m := by
  induction events with
  | nil => rfl
  | cons event events ih =>
    have hfirst : m.take? event = some m := by
      cases event with
      | announce a => exact absurd rfl (h _ List.mem_cons_self a)
      | _ => rfl
    rw [follow?, List.foldlM_cons, hfirst]
    exact ih fun e he => h e (List.mem_cons_of_mem _ he)

/-- Announcements that each tell nothing new. -/
theorem follow?_flatMap {α : Type} {events : α → List Event} {as : List α}
    (h : ∀ a ∈ as, m.follow? (events a) = some m) : m.follow? (as.flatMap events) = some m := by
  induction as with
  | nil => rfl
  | cons a as ih =>
    rw [List.forall_mem_cons] at h
    exact follow?_append h.1 (ih h.2)

end Mirror

namespace Sheet

open Recalc.Graph

variable {host : Host} {s s' : Sheet} {id : GroupId} {group : Group} {items : List ParseItem}
  {statement : String} {groups : GroupId → Option (String × List String)}

/-- What there is to know of a sheet. -/
def mirror (s : Sheet) : Mirror where
  equation? := s.equation?
  group? id := (s.heading? id).map Prod.snd

/-! ## Steps that concern equations only -/

/-- Whatever an observer knows of groups, the announcements of a step lead from the equations before it
to those after it. -/
def Tells (s : Sheet) (t : Traced Event Sheet) : Prop :=
  ∀ groups, Mirror.follow? ⟨s.equation?, groups⟩ t.events = some ⟨t.value.equation?, groups⟩

namespace Tells

/-- A step that announces nothing and changes no equation tells nothing wrong. -/
theorem pure_of_eq (h : s'.equation? = s.equation?) : s.Tells (pure s') := by
  intro groups
  show some (⟨s.equation?, groups⟩ : Mirror) = some ⟨s'.equation?, groups⟩
  rw [h]

/-- Two steps that tell how equations change do so one after the other. -/
theorem bind {t : Traced Event Sheet} {next : Sheet → Traced Event Sheet} (h : s.Tells t)
    (hnext : t.value.Tells (next t.value)) : s.Tells (t >>= next) := fun groups =>
  Mirror.follow?_append (h groups) (hnext groups)

/-- Changing nothing about equations afterwards makes no difference. -/
theorem of_value_eq {t t' : Traced Event Sheet} (h : s.Tells t) (hevents : t'.events = t.events)
    (hvalue : t'.value.equation? = t.value.equation?) : s.Tells t' := by
  intro groups
  rw [hevents, hvalue]
  exact h groups

end Tells

/-- Announcing an update of an equation tells of a change of that equation. -/
theorem follow?_announceUpdate (hs : s'.Booked) {name : String} (flags : EquationFlags)
    (hsome : (s'.equation? name).isSome = (s.equation? name).isSome)
    (hother : ∀ n, n ≠ name → s'.equation? n = s.equation? n)
    (groups : GroupId → Option (String × List String)) :
    Mirror.follow? ⟨s.equation?, groups⟩ (s'.announceUpdate name flags).events =
      some ⟨s'.equation?, groups⟩ := by
  have hupdate : Function.update s.equation? name (s'.equation? name) = s'.equation? := by
    funext n
    by_cases hn : n = name
    · rw [hn, Function.update_self]
    · rw [Function.update_of_ne hn, hother n hn]
  rw [announceUpdate, Traced.events_announce?]
  cases he : s'.equation? name with
  | none =>
    have hold : s.equation? name = none := by
      rw [he] at hsome
      exact Option.isNone_iff_eq_none.1 (by rw [← Option.not_isSome, ← hsome]; rfl)
    rw [he, ← hold, Function.update_eq_self] at hupdate
    rw [hupdate]
    rfl
  | some e =>
    obtain rfl : e.name = name := hs.name_eq_of_equation? he
    rw [he] at hsome hupdate
    refine (Mirror.follow?_announce ?_).trans ?_
    · exact hsome.symm
    · rw [Mirror.observe, hupdate]

/-- Setting how an evaluation ended, and announcing that. -/
theorem Booked.tells_setResult (hs : s.Booked) (name : String) (status : Status) (message : String)
    (flags : EquationFlags) :
    s.Tells (do
      (s.setResult name status message).announceUpdate name flags
      pure (s.setResult name status message)) := by
  have hbooked : (s.setResult name status message).Booked := hs.modifyEquation name fun _ => rfl
  have hequation : ∀ n, (s.setResult name status message).equation? n =
      if n = name then (s.equation? n).map fun e => { e with status, message } else s.equation? n :=
    equation?_modifyEquation s name fun e => { e with status, message }
  intro groups
  rw [Traced.events_bind, Traced.events_pure, List.append_nil]
  refine follow?_announceUpdate hbooked flags ?_ (fun n hn => ?_) groups
  · rw [hequation, if_pos rfl, Option.isSome_map]
  · rw [hequation, if_neg hn]

/-! ## Updates -/

/-- `Sheet.conclude` sets how an evaluation ended, besides the store and the graph. -/
theorem conclude_eq (s : Sheet) (name : String) (outcome : Outcome) (after : Store) :
    ∃ store graph, s.conclude name outcome after =
      ({ s with store, graph } : Sheet).setResult name outcome.status outcome.message := by
  unfold conclude
  split_ifs
  · exact ⟨_, _, rfl⟩
  · exact ⟨_, _, rfl⟩

theorem Booked.tells_evaluate (hs : s.Booked) (host : Host) (name : String) :
    s.Tells (s.evaluate host name) := by
  intro groups
  unfold evaluate
  cases s.equation? name with
  | none => rfl
  | some e =>
    obtain ⟨store, graph, hvalue⟩ := conclude_eq s name (host.exec e.code s.store).1
      (host.exec e.code s.store).2
    have hbooked : ({ s with store, graph } : Sheet).Booked := hs.of_tables rfl rfl rfl
    simp only [hvalue]
    -- Executing the code is no announcement; how it ended is announced like any change.
    refine Mirror.follow?_append (Mirror.follow?_quiet fun event hevent a ha => ?_)
      (hbooked.tells_setResult name _ _ evaluatedFields groups)
    rw [ha] at hevent
    exact absurd (List.mem_singleton.1 hevent) (by simp)

/-- A pass that takes over the sheet of a step has the sheet and the events of the step. -/
theorem sheet_withSheet (p : UpdatePass) (t : Traced Event Sheet) :
    UpdatePass.sheet <$> p.withSheet t = t := by
  refine Traced.ext rfl ?_
  simp [UpdatePass.withSheet]

/-- A visit of an update pass tells how equations change. -/
theorem Booked.tells_visit {p : UpdatePass} (hp : p.sheet.Booked) (host : Host)
    (cancelled : Nat → Bool) (name : String) :
    p.sheet.Tells (UpdatePass.sheet <$> p.visit host cancelled name) := by
  have hclean : (p.sheet.markClean name).Booked := hp.of_tables rfl rfl rfl
  unfold UpdatePass.visit
  simp only [sheet_check]
  split_ifs
  · rw [sheet_withSheet]
    exact hp.tells_setResult name _ _ resultFields
  · rw [sheet_withSheet]
    exact hclean.tells_evaluate host name
  · exact Tells.pure_of_eq rfl
  · exact Tells.pure_of_eq rfl

/-- The visits of an update pass tell how equations change. -/
theorem Booked.tells_visits (host : Host) (cancelled : Nat → Bool) (names : List String)
    {p : UpdatePass} (hp : p.sheet.Booked) :
    p.sheet.Tells (UpdatePass.sheet <$> names.foldlM (UpdatePass.visit host cancelled) p) := by
  induction names generalizing p with
  | nil => exact Tells.pure_of_eq rfl
  | cons name names ih =>
    have hbooked := (sameBooks_visit host cancelled p name).booked hp
    intro groups
    rw [List.foldlM_cons, map_bind, Traced.events_bind, Traced.value_bind]
    have hfirst := hp.tells_visit host cancelled name groups
    rw [Traced.events_map] at hfirst
    exact Mirror.follow?_append hfirst (ih hbooked groups)

/-- `Sheet.update` tells how equations change, interrupted or not. -/
theorem Booked.tells_update (hs : s.Booked) (host : Host) (scope : UpdateScope)
    (cancelled : Nat → Bool) : s.Tells (Prod.fst <$> s.update host scope cancelled) := by
  unfold update
  cases s.order scope with
  | error e => exact Tells.pure_of_eq rfl
  | ok names =>
    have hvisits := Booked.tells_visits host cancelled names (p := { sheet := s }) hs
    refine hvisits.of_value_eq ?_ rfl
    simp

/-- The update after an edit tells how equations change. -/
theorem Booked.tells_autoUpdate (hs : s.Booked) (host : Host) (id : GroupId) :
    s.Tells (s.autoUpdate host id) := by
  unfold autoUpdate
  split_ifs
  · refine (hs.tells_update host (.group id) uncancelled).of_value_eq ?_ rfl
    simp
  · exact Tells.pure_of_eq rfl

theorem Booked.tells_updateOnly (hs : s.Booked) (host : Host) (name : String) :
    s.Tells (Prod.fst <$> s.updateOnly host name) := by
  unfold updateOnly
  split_ifs
  · refine (hs.tells_evaluate host name).of_value_eq ?_ rfl
    simp
  · exact Tells.pure_of_eq rfl

theorem Booked.tells_setStatus (hs : s.Booked) (name : String) (status : Status) (message : String) :
    s.Tells (Prod.fst <$> s.setStatus name status message) := by
  unfold setStatus
  split_ifs
  · refine (hs.tells_setResult name status message resultFields).of_value_eq ?_ rfl
    simp
  · exact Tells.pure_of_eq rfl

/-! ## Equations that come and go -/

/-- The equations of a group are listed under their names. -/
theorem Booked.map_name_members (hs : s.Booked) (hgroup : s.group? id = some group) :
    group.members.map (·.name) = group.names := by
  rw [Group.members, OrderedMap.values, Group.names, OrderedMap.keys, List.map_map]
  refine List.map_congr_left fun entry hentry => hs.name_eq entry.1 id entry.2 ?_
  rw [entryIn?_of_group? hgroup]
  exact OrderedMap.get?_eq_some.2 hentry

/-- The members of a group are found under their names. -/
theorem Booked.equation?_of_mem_members (hs : s.Booked) (hgroup : s.group? id = some group)
    {e : Equation} (he : e ∈ group.members) : s.equation? e.name = some e := by
  obtain ⟨⟨n, e'⟩, hentry, rfl⟩ := List.mem_map.1 he
  have hin : s.entryIn? id n = some e' := by
    rw [entryIn?_of_group? hgroup]
    exact OrderedMap.get?_eq_some.2 hentry
  rw [hs.name_eq n id e' hin]
  exact hs.equation?_of_entryIn? hin

/-- The equation of a name is the one of that name in the groups. -/
theorem Booked.equation?_eq_some_iff (hs : s.Booked) {n : String} {e : Equation} :
    s.equation? n = some e ↔ ∃ id g, s.group? id = some g ∧ e ∈ g.members ∧ e.name = n := by
  constructor
  · intro he
    rw [equation?_eq] at he
    obtain ⟨id, -, hentry⟩ := Option.bind_eq_some_iff.1 he
    obtain ⟨g, hg, hget⟩ := Option.bind_eq_some_iff.1 hentry
    exact ⟨id, g, hg, List.mem_map_of_mem (OrderedMap.get?_eq_some.1 hget), hs.name_eq n id e hentry⟩
  · rintro ⟨id, g, hg, he, rfl⟩
    exact hs.equation?_of_mem_members hg he

/-- Announcing that equations were added, each of a new name. -/
theorem follow?_added {es : List Equation} {equation? equation?' : String → Option Equation}
    (hnodup : (es.map (·.name)).Nodup) (hnew : ∀ e ∈ es, equation? e.name = none)
    (hmem : ∀ e ∈ es, equation?' e.name = some e)
    (hother : ∀ n, n ∉ es.map (·.name) → equation?' n = equation? n)
    (groups : GroupId → Option (String × List String)) :
    Mirror.follow? ⟨equation?, groups⟩ (es.map fun e => .announce (.equationAdded e)) =
      some ⟨equation?', groups⟩ := by
  induction es generalizing equation? with
  | nil =>
    obtain rfl : equation?' = equation? := funext fun n => hother n List.not_mem_nil
    rfl
  | cons e es ih =>
    rw [List.map_cons, List.nodup_cons] at hnodup
    rw [List.forall_mem_cons] at hnew hmem
    have hfirst : Mirror.follow? ⟨equation?, groups⟩ [.announce (.equationAdded e)] =
        some ⟨Function.update equation? e.name (some e), groups⟩ :=
      Mirror.follow?_announce (by simp [Mirror.expects, hnew.1])
    refine Mirror.follow?_append hfirst (ih hnodup.2 (fun e' he' => ?_) hmem.2 fun n hn => ?_)
    · rw [Function.update_of_ne, hnew.2 e' he']
      exact fun hname => hnodup.1 (hname ▸ List.mem_map_of_mem he')
    · by_cases hname : n = e.name
      · rw [hname, Function.update_self, hmem.1]
      · rw [Function.update_of_ne hname]
        exact hother n (by simp [hname, hn])

/-- Announcing that known equations of different names go. -/
theorem follow?_ended {es : List Equation} {equation? : String → Option Equation}
    (hnodup : (es.map (·.name)).Nodup) (hmem : ∀ e ∈ es, equation? e.name = some e)
    (groups : GroupId → Option (String × List String)) :
    Mirror.follow? ⟨equation?, groups⟩ (es.flatMap fun e =>
        [.announce (.equationRemoving e), .announce (.equationRemoved e.name)]) =
      some ⟨fun n => if n ∈ es.map (·.name) then none else equation? n, groups⟩ := by
  induction es generalizing equation? with
  | nil => simp [Mirror.follow?]
  | cons e es ih =>
    rw [List.map_cons, List.nodup_cons] at hnodup
    rw [List.forall_mem_cons] at hmem
    have hremoving : Mirror.follow? ⟨equation?, groups⟩ [.announce (.equationRemoving e)] =
        some ⟨equation?, groups⟩ :=
      Mirror.follow?_announce (by simp [Mirror.expects, hmem.1])
    have hremoved : Mirror.follow? ⟨equation?, groups⟩ [.announce (.equationRemoved e.name)] =
        some ⟨Function.update equation? e.name none, groups⟩ :=
      Mirror.follow?_announce (by simp [Mirror.expects, hmem.1])
    have hstill : ∀ e' ∈ es, Function.update equation? e.name none e'.name = some e' := by
      intro e' he'
      rw [Function.update_of_ne, hmem.2 e' he']
      exact fun hname => hnodup.1 (hname ▸ List.mem_map_of_mem he')
    rw [List.flatMap_cons]
    refine Mirror.follow?_append (Mirror.follow?_append hremoving hremoved)
      ((ih hnodup.2 hstill).trans ?_)
    congr 2
    funext n
    by_cases hname : n = e.name <;> simp [hname]

/-- `Sheet.destroy` announces its equation before it goes and its name afterwards. -/
theorem events_destroy (s : Sheet) (name : String) :
    (s.destroy name).events =
      ((s.equation? name).map fun e => Event.announce (.equationRemoving e)).toList ++
        [.announce (.equationRemoved name)] := by
  unfold destroy
  simp [Announcement.send]

/-- `Sheet.destroy` of an equation that exists tells how equations change. -/
theorem Booked.tells_destroy (hs : s.Booked) (hg : s.graph.WellFormed) {name : String} {e : Equation}
    (he : s.equation? name = some e) : s.Tells (s.destroy name) := by
  obtain rfl : e.name = name := hs.name_eq_of_equation? he
  have hgone : (s.destroy e.name).value.equation? = Function.update s.equation? e.name none := by
    funext n
    rw [(destroyed_destroy hs hg e.name).equation?]
    by_cases hn : n = e.name <;> simp [hn]
  intro groups
  rw [events_destroy, he, hgone]
  have hremoving : Mirror.follow? ⟨s.equation?, groups⟩ [.announce (.equationRemoving e)] =
      some ⟨s.equation?, groups⟩ := Mirror.follow?_announce (by simp [Mirror.expects, he])
  have hremoved : Mirror.follow? ⟨s.equation?, groups⟩ [.announce (.equationRemoved e.name)] =
      some ⟨Function.update s.equation? e.name none, groups⟩ :=
    Mirror.follow?_announce (by simp [Mirror.expects, he])
  exact Mirror.follow?_append hremoving hremoved

/-- Destroying different equations one after the other. -/
theorem Booked.tells_destroys (hs : s.Booked) (hg : s.graph.WellFormed) {names : List String}
    (hnodup : names.Nodup) (hnames : ∀ n ∈ names, ∃ e, s.equation? n = some e) :
    s.Tells (names.foldlM destroy s) := by
  induction names generalizing s with
  | nil => exact Tells.pure_of_eq rfl
  | cons name names ih =>
    rw [List.nodup_cons] at hnodup
    obtain ⟨e, he⟩ := hnames name List.mem_cons_self
    have hfirst := destroyed_destroy hs hg name
    rw [List.foldlM_cons]
    refine (hs.tells_destroy hg he).bind (ih (hfirst.booked hs) (hfirst.marked.shape.wellFormed hg)
      hnodup.2 fun n hn => ?_)
    -- The later ones are still there.
    have hne : n ∉ [name] := fun h => by
      obtain rfl := List.mem_singleton.1 h
      exact hnodup.1 hn
    rw [hfirst.equation?, if_neg hne]
    exact hnames n (List.mem_cons_of_mem _ hn)

theorem Booked.tells_revise (hs : s.Booked) (hg : s.graph.WellFormed) (item : ParseItem) :
    s.Tells (s.revise item) := by
  have hbooked := (revised_revise hs hg item).booked
  have hequation : ∀ n, (s.revise item).value.equation? n =
      if n = item.name then
        (s.equation? n).map fun e => { e with content := item.content, kind := item.kind }
      else s.equation? n := equation?_modifyEquation _ item.name _
  intro groups
  have hevents : (s.revise item).events =
      ((s.revise item).value.announceUpdate item.name (.of .content ∪ .of .kind)).events :=
    List.append_nil _
  rw [hevents]
  refine follow?_announceUpdate hbooked _ ?_ (fun n hn => ?_) groups
  · rw [hequation, if_pos rfl, Option.isSome_map]
  · rw [hequation, if_neg hn]

/-- Changing equations one after the other. -/
theorem Booked.tells_revises (hs : s.Booked) (hg : s.graph.WellFormed) (items : List ParseItem) :
    s.Tells (items.foldlM revise s) := by
  induction items generalizing s with
  | nil => exact Tells.pure_of_eq rfl
  | cons item items ih =>
    have hfirst := revised_revise hs hg item
    rw [List.foldlM_cons]
    exact (hs.tells_revise hg item).bind (ih hfirst.booked (hfirst.marked.shape.wellFormed hg))

/-- New equations of a group are not found before their names are entered into the index. -/
theorem equation?_restate (id : GroupId) (statement : String)
    (items : List ParseItem) {added : List ParseItem}
    (hnew : ∀ item ∈ added, s.owners.get? item.name = none) :
    (s.restate id statement items added).equation? = s.equation? := by
  funext n
  have howners : (s.restate id statement items added).owners = s.owners := rfl
  rw [equation?_eq, equation?_eq, howners]
  cases howner : s.owners.get? n with
  | none => rfl
  | some id' =>
    have hn : n ∉ added.map (·.name) := fun hmem => by
      obtain ⟨item, hitem, rfl⟩ := List.mem_map.1 hmem
      rw [hnew item hitem] at howner
      cases howner
    rw [Option.bind_some, Option.bind_some, restate, entryIn?_modifyGroup]
    split_ifs
    · simp only [Group.reorder, OrderedMap.get?_sortBy]
      unfold entryIn?
      cases s.groups.get? id' with
      | none => rfl
      | some g => exact get?_putAll_of_not_mem hn g
    · rfl

/-- Entering the names of new equations into the index, and announcing the equations. -/
theorem tells_introduces {id : GroupId} (hnodup : (items.map (·.name)).Nodup)
    (hnew : ∀ item ∈ items, s.owners.get? item.name = none)
    (hentry : ∀ item ∈ items, s.entryIn? id item.name = some (Equation.ofItem item id)) :
    s.Tells (items.foldlM (introduce id) s) := by
  induction items generalizing s with
  | nil => exact Tells.pure_of_eq rfl
  | cons item items ih =>
    rw [List.map_cons, List.nodup_cons] at hnodup
    rw [List.forall_mem_cons] at hnew hentry
    have howners : ∀ n, (s.claim id item.name).owners.get? n =
        if n = item.name then some id else s.owners.get? n := fun n => OrderedMap.get?_insert _ _ n id
    have hin : (s.claim id item.name).entryIn? = s.entryIn? := rfl
    have hequation : (s.claim id item.name).equation? =
        Function.update s.equation? item.name (some (Equation.ofItem item id)) := by
      funext n
      rw [equation?_eq, howners, hin]
      by_cases hn : n = item.name
      · rw [hn, if_pos rfl, Function.update_self]
        exact hentry.1
      · rw [if_neg hn, Function.update_of_ne hn, equation?_eq]
    have hfirst : s.Tells (s.introduce id item) := by
      intro groups
      have hevents : (s.introduce id item).events =
          [.announce (.equationAdded (Equation.ofItem item id))] := by
        unfold introduce
        simp [hequation]
      have hold : s.equation? item.name = none := by rw [equation?_eq, hnew.1]; rfl
      rw [hevents]
      refine (Mirror.follow?_announce (by simp [Mirror.expects, name_ofItem, hold])).trans ?_
      show some (Mirror.mk (Function.update s.equation? (Equation.ofItem item id).name _) groups) =
        some ⟨(s.claim id item.name).equation?, groups⟩
      rw [name_ofItem, hequation]
    rw [List.foldlM_cons]
    refine hfirst.bind (ih hnodup.2 (fun item' hitem' => ?_) hentry.2)
    show (s.claim id item.name).owners.get? item'.name = none
    rw [howners, if_neg, hnew.2 item' hitem']
    exact fun hname => hnodup.1 (hname ▸ List.mem_map_of_mem hitem')

/-- Link changes are announced with equations as they are. -/
theorem Booked.tells_flush (hs : s.Booked) (snapshot : LinkSnapshot) :
    s.Tells (s.flush snapshot) := by
  have hbooked : ({ s with pending := ∅ } : Sheet).Booked := hs.of_tables rfl rfl rfl
  intro groups
  unfold flush
  rw [Traced.events_bind, Traced.events_pure, List.append_nil, Traced.events_forM]
  refine Mirror.follow?_flatMap fun change _ => ?_
  dsimp only
  split_ifs
  · rfl
  · exact follow?_announceUpdate hbooked _ rfl (fun _ _ => rfl) groups

end Sheet

end Recalc
