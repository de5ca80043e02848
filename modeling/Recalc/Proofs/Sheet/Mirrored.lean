import Recalc.Proofs.Sheet.Mirror

/-!
# Sheets and their mirrors

The announcements of an operation lead from the mirror of the sheet before it to that of the sheet after
it (`Mirrors`): those of an edit are those of its steps with those of its group, and an operation that is
refused tells nothing. So an observer who is there from the creation on has the mirror of the sheet
after every run (`mirrored_of_operations`).
-/

namespace Recalc

namespace Sheet

open Recalc.Graph

variable {host : Host} {s s' : Sheet} {id : GroupId} {group : Group} {items : List ParseItem}
  {statement : String}

/-! ## Edits -/

/-- Each group carries the identity under which it is found. -/
def Identified (s : Sheet) : Prop := ∀ id h, s.heading? id = some h → h.1 = id

/-- In a sheet that is `Identified` a group bears the identity that it is found under. -/
theorem Identified.id_eq (hs : s.Identified) (hgroup : s.group? id = some group) : group.id = id :=
  hs id group.heading (heading?_of_group? hgroup)

/-- The mirror of a sheet knows the statement of each group and the names of its equations in order. -/
theorem mirror_group?_of_group? (hgroup : s.group? id = some group) :
    s.mirror.group? id = some (group.statement, group.names) := by
  show (s.heading? id).map Prod.snd = _
  rw [heading?_of_group? hgroup]
  rfl

/-- The announcements of a step lead from the mirror of the sheet before to that of the sheet after. -/
def Mirrors (s : Sheet) (t : Traced Event Sheet) : Prop :=
  s.mirror.follow? t.events = some t.value.mirror

/-- A step that tells of equations and leaves the headings is mirrored. -/
theorem Tells.mirrors {t : Traced Event Sheet} (h : s.Tells t)
    (hheading : ∀ id, t.value.heading? id = s.heading? id) : s.Mirrors t := by
  have hmirror : t.value.mirror = ⟨t.value.equation?, s.mirror.group?⟩ := by
    simp only [mirror, hheading]
  rw [Mirrors, hmirror]
  exact h s.mirror.group?

/-- What follows a step that is mirrored. -/
theorem Mirrors.bind {t : Traced Event Sheet} {next : Sheet → Traced Event Sheet} (h : s.Mirrors t)
    (hnext : t.value.Mirrors (next t.value)) : s.Mirrors (t >>= next) :=
  Mirror.follow?_append h hnext

/-- Parsing comes first and tells nothing. -/
theorem Mirrors.after_parse {t : Traced Event Sheet} (mode : ParseMode) (code : String)
    (h : s.Mirrors t) : s.Mirrors (Traced.announce (.parse mode code) >>= fun _ => t) := by
  refine Mirror.follow?_append (Mirror.follow?_quiet fun event hevent a ha => ?_) h
  rw [ha] at hevent
  exact absurd (List.mem_singleton.1 hevent) (by simp)

/-- Announcing the link changes of an edit. -/
theorem Mirrors.flush {t : Traced Event Sheet} (h : s.Mirrors t) (hbooked : t.value.Booked)
    (snapshot : LinkSnapshot) : s.Mirrors (t >>= (·.flush snapshot)) :=
  h.bind ((hbooked.tells_flush snapshot).mirrors fun _ => rfl)

/-- The mirror of a sheet is a matter of its tables. -/
theorem mirror_of_tables (howners : s'.owners = s.owners) (hgroups : s'.groups = s.groups) :
    s'.mirror = s.mirror := by
  have hequation : s'.equation? = s.equation? := by
    funext n
    rw [equation?, equation?, howners, hgroups]
  have hheading : s'.heading? = s.heading? := by
    funext id
    rw [heading?, heading?, group?, group?, hgroups]
  rw [mirror, hequation, hheading]
  rfl

/-- An operation that is refused tells nothing. -/
theorem Refused.mirrors {α : Type} {t : Traced Event (Sheet × Except SheetError α)}
    (h : Refused s t) : s.Mirrors (Prod.fst <$> t) := by
  have hmirror : t.value.1.mirror = s.mirror := mirror_of_tables h.sheet.owners h.sheet.groups
  rw [Mirrors, Traced.events_map, Traced.value_map, hmirror]
  refine Mirror.follow?_quiet fun event hevent a ha => ?_
  obtain ⟨mode, code, hparse⟩ := h.events event hevent
  rw [ha] at hparse
  cases hparse

/-- Creating a group. -/
theorem Booked.mirrors_createGroup (hs : s.Booked) (hg : s.graph.WellFormed) (statement : String)
    (hnodup : (items.map (·.name)).Nodup) (htaken : ∀ item ∈ items, s.hasEquation item.name = false) :
    s.Mirrors (Prod.fst <$> s.createGroup statement items) := by
  set s' := (s.createGroup statement items).value.1 with hs'
  set group := putAll (.serial s.created) items
    { id := .serial s.created, statement, equations := ∅ } with hgroupdef
  have hheading : group.heading = (.serial s.created, statement, items.map (·.name)) :=
    heading_putAll _ hnodup _ fun n _ => List.not_mem_nil
  have hentered : Entered s (.serial s.created) items s' := entered_createGroup hs hg statement hnodup
  have hbooked : s'.Booked := hentered.booked hs fun item hitem =>
    hasEquation_eq_false_iff.1 (htaken item hitem)
  have hgroup : s'.group? (.serial s.created) = some group := by
    rw [hs', value_createGroup, group?, OrderedMap.get?_insert, if_pos rfl]
  have hmembers : group.members.map (·.name) = items.map (·.name) := by
    rw [hbooked.map_name_members hgroup]
    exact congrArg (·.2.2) hheading
  have hevents : (s.createGroup statement items).events =
      (group.members.map fun e => Event.announce (.equationAdded e)) ++
        [.announce (.groupAdded group)] := by
    have hsteps : (s.createGroup statement items).events =
        (group.members.forM fun e => (Announcement.equationAdded e).send).events ++
          ([.announce (.groupAdded group)] ++ []) := rfl
    rw [hsteps, Traced.events_forM, List.append_nil, List.map_eq_flatMap]
    rfl
  have hnew : s.heading? (.serial s.created) = none := by
    rw [heading?, group?, OrderedMap.get?_eq_none.2 fun hmem => ?_]
    · rfl
    · obtain ⟨k, hk, heq⟩ := hs.number _ hmem
      cases heq
      exact lt_irrefl _ hk
  -- First the equations are added, then the group.
  have hadded : s.mirror.follow? (group.members.map fun e => Event.announce (.equationAdded e)) =
      some ⟨s'.equation?, s.mirror.group?⟩ := by
    refine follow?_added ?_ (fun e he => ?_) (fun e => hbooked.equation?_of_mem_members hgroup)
      (fun n hn => ?_) _
    · rw [hmembers]
      exact hnodup
    · obtain ⟨item, hitem, hname⟩ := List.mem_map.1 (hmembers ▸ List.mem_map_of_mem he)
      show s.equation? e.name = none
      rw [← hname]
      exact hs.owner_eq_none_iff.1 (hasEquation_eq_false_iff.1 (htaken item hitem))
    · rw [hmembers] at hn
      show s'.equation? n = s.equation? n
      rw [equation?_eq, equation?_eq, hentered.owners, if_neg hn]
      exact congrArg _ (funext fun id' => hentered.entryIn?_of_not_mem id' n (Or.inr hn))
  have hgroupAdded : Mirror.follow? ⟨s'.equation?, s.mirror.group?⟩ [.announce (.groupAdded group)] =
      some s'.mirror := by
    have hid : group.id = .serial s.created := congrArg Prod.fst hheading
    have hsays : (group.statement, group.names) = (statement, items.map (·.name)) :=
      congrArg Prod.snd hheading
    refine (Mirror.follow?_announce ?_).trans ?_
    · simp [Mirror.expects, hid, mirror, hnew]
    · rw [Mirror.observe, hid, hsays, mirror]
      congr 2
      funext id'
      rw [heading?_createGroup s statement hnodup]
      by_cases hid' : id' = .serial s.created <;> simp [hid']
  rw [Mirrors, Traced.events_map, hevents]
  exact Mirror.follow?_append hadded hgroupAdded

/-- Adding a group. -/
theorem Wired.mirrors_enterGroup (hs : s.Wired) (host : Host) (statement : String) :
    s.Mirrors (Prod.fst <$> s.enterGroup host statement) := by
  rcases hs.atRest.enterGroup_outline host statement with
    hrefused | ⟨items, graph, pending, -, hnodup, htaken, hsound, -, -, -, heq⟩
  · exact hrefused.mirrors
  · have hbooked : ({ s with graph, pending } : Sheet).Booked := hs.booked.of_tables rfl rfl rfl
    have hcreated := hbooked.mirrors_createGroup hsound.wellFormed statement hnodup htaken
    have hentered := entered_createGroup hbooked hsound.wellFormed statement hnodup
    have hafter := hentered.booked hbooked fun item hitem =>
      hasEquation_eq_false_iff.1 (htaken item hitem)
    have hedit := (hcreated.flush hafter (.capture s.graph [] items)).after_parse .statement statement
    have hsteps : Prod.fst <$> s.enterGroup host statement =
        Traced.announce (.parse .statement statement) >>= fun _ =>
          (Prod.fst <$> ({ s with graph, pending } : Sheet).createGroup statement items) >>=
            (·.flush (.capture s.graph [] items)) := by
      rw [heq]
      simp only [map_bind, map_pure, bind_pure, bind_map_left]
    rw [hsteps]
    exact hedit

/-- The part of a change of a group that concerns equations. -/
theorem Booked.tells_stages (hs : s.Booked) (hg : s.graph.WellFormed) (statement : String)
    (hgroup : s.group? id = some group) (hnodup : (items.map (·.name)).Nodup)
    (htaken : ∀ item ∈ (diff group items).added, s.hasEquation item.name = false) :
    s.Tells (do
      let s ← (diff group items).removed.foldlM destroy s
      let s ← (diff group items).updated.foldlM revise s
      (diff group items).added.foldlM (introduce id)
        (s.restate id statement items (diff group items).added)) := by
  set d := diff group items with hd
  have hstaged := staged_applyDiff hs hg statement hgroup hnodup
  simp only [← hd] at hstaged
  set destroyed := (d.removed.foldlM destroy s).value
  set revised := (d.updated.foldlM revise destroyed).value
  have hremoved : s.Tells (d.removed.foldlM destroy s) := by
    refine hs.tells_destroys hg (group.equations.keys_nodup.filter _) fun n hn => ?_
    obtain ⟨e, he⟩ := (mem_names_iff hgroup).1 (mem_removed.1 hn).1
    exact ⟨e, hs.equation?_of_entryIn? he⟩
  have hdestroyed : destroyed.Booked := hstaged.destroyed.booked hs
  have hupdated : destroyed.Tells (d.updated.foldlM revise destroyed) :=
    hdestroyed.tells_revises (hstaged.destroyed.marked.shape.wellFormed hg) d.updated
  -- The new names are still free when the group gets its new equations.
  have hfree : ∀ item ∈ d.added, revised.owners.get? item.name = none := by
    intro item hitem
    rw [hstaged.revised.owners, hstaged.destroyed.owners]
    split_ifs
    · rfl
    · exact hasEquation_eq_false_iff.1 (htaken item hitem)
  have hrestated : (revised.restate id statement items d.added).equation? = revised.equation? :=
    equation?_restate id statement items hfree
  have hadded : (revised.restate id statement items d.added).Tells (d.added.foldlM (introduce id)
      (revised.restate id statement items d.added)) := by
    refine tells_introduces (nodup_added group hnodup) hfree fun item hitem => ?_
    have hentry := hstaged.entered.entryIn?_of_mem item hitem
    have hvalue : (s.applyDiff id statement items d).value =
        (revised.restate id statement items d.added).claimAll id d.added :=
      value_introduce_foldlM _ id d.added
    rw [hvalue, claimAll_eq] at hentry
    exact hentry
  refine hremoved.bind (hupdated.bind fun groups => ?_)
  have hlast := hadded groups
  rwa [hrestated] at hlast

/-- Changing a group. -/
theorem Booked.mirrors_applyDiff (hs : s.Booked) (hid : s.Identified) (hg : s.graph.WellFormed)
    (statement : String) (hgroup : s.group? id = some group) (hnodup : (items.map (·.name)).Nodup)
    (htaken : ∀ item ∈ (diff group items).added, s.hasEquation item.name = false) :
    s.Mirrors (s.applyDiff id statement items (diff group items)) := by
  have htells := hs.tells_stages hg statement hgroup hnodup htaken
  have hheading : ∀ id', (s.applyDiff id statement items (diff group items)).value.heading? id' =
      if id' = id then some (group.id, statement, items.map (·.name)) else s.heading? id' :=
    fun id' => hs.heading?_applyDiff hg hgroup hnodup id'
  set d := diff group items
  set t := s.applyDiff id statement items d with ht
  have hnew : t.value.heading? id = some (id, statement, items.map (·.name)) := by
    rw [hheading, if_pos rfl, hid.id_eq hgroup]
  obtain ⟨g, hg', hsays⟩ := Option.map_eq_some_iff.1 hnew
  have hgid : g.id = id := congrArg Prod.fst hsays
  have hevents : ∃ flags, t.events = (do
      let s ← d.removed.foldlM destroy s
      let s ← d.updated.foldlM revise s
      d.added.foldlM (introduce id) (s.restate id statement items d.added)).events ++
        [.announce (.groupUpdated g flags)] := by
    refine ⟨if d.removed.isEmpty && d.added.isEmpty then .of .statement
      else .of .statement ∪ .of .equations, ?_⟩
    have hsteps : t.events = (d.removed.foldlM destroy s).events ++
        ((d.updated.foldlM revise (d.removed.foldlM destroy s).value).events ++
          ((d.added.foldlM (introduce id) ((d.updated.foldlM revise
            (d.removed.foldlM destroy s).value).value.restate id statement items d.added)).events ++
              (((t.value.group? id).map fun g => Event.announce (.groupUpdated g
                (if d.removed.isEmpty && d.added.isEmpty then .of .statement
                  else .of .statement ∪ .of .equations))).toList ++ []))) := rfl
    rw [hsteps, show t.value.group? id = some g from hg']
    simp
  obtain ⟨flags, hevents⟩ := hevents
  rw [Mirrors, hevents]
  refine Mirror.follow?_append (htells s.mirror.group?) ?_
  show Mirror.follow? ⟨t.value.equation?, s.mirror.group?⟩ _ = _
  refine (Mirror.follow?_announce ?_).trans ?_
  · rw [Mirror.expects, hgid, mirror_group?_of_group? hgroup]
    rfl
  · have hsays' : (g.statement, g.names) = (statement, items.map (·.name)) := congrArg Prod.snd hsays
    rw [Mirror.observe, hgid, hsays', mirror]
    congr 2
    funext id'
    rw [hheading]
    by_cases hid' : id' = id
    · simp [hid']
    · rw [Function.update_of_ne hid', if_neg hid']

/-- Giving a group another statement. -/
theorem Wired.mirrors_changeGroup (hs : s.Wired) (hid : s.Identified) (host : Host) (id : GroupId)
    (statement : String) : s.Mirrors (Prod.fst <$> s.changeGroup host id statement) := by
  rcases hs.atRest.changeGroup_outline host id statement with hrefused | hsame |
    ⟨group, items, graph, pending, hgroup, -, hnodup, htaken, hsound, -, -, -, heq⟩
  · exact hrefused.mirrors
  · rw [hsame]
    exact (Tells.pure_of_eq rfl).mirrors fun _ => rfl
  · have hbooked : ({ s with graph, pending } : Sheet).Booked := hs.booked.of_tables rfl rfl rfl
    have hchanged := hbooked.mirrors_applyDiff hid hsound.wellFormed statement hgroup
      hnodup htaken
    have hafter := (staged_applyDiff hbooked hsound.wellFormed statement hgroup hnodup).booked htaken
    have hedit := (hchanged.flush hafter
      (.capture s.graph (diff group items).detached (diff group items).attached)).after_parse
        .statement statement
    have hsteps : Prod.fst <$> s.changeGroup host id statement =
        Traced.announce (.parse .statement statement) >>= fun _ =>
          ({ s with graph, pending } : Sheet).applyDiff id statement items (diff group items) >>=
            (·.flush (.capture s.graph (diff group items).detached (diff group items).attached)) := by
      rw [heq]
      simp only [map_bind, map_pure, bind_pure]
    rw [hsteps]
    exact hedit

/-- Removing a group: it is announced before its equations go. -/
theorem Wired.mirrors_removeGroup (hs : s.Wired) (hid : s.Identified) (id : GroupId) :
    s.Mirrors (Prod.fst <$> s.removeGroup id) := by
  rcases hs.atRest.removeGroup_outline id with
    hrefused | ⟨group, graph, pending, hgroup, hsound, -, -, -, heq⟩
  · exact hrefused.mirrors
  · have hbooked : ({ s with graph, pending } : Sheet).Booked := hs.booked.of_tables rfl rfl rfl
    have hdestroyed := destroyed_foldlM hbooked hsound.wellFormed group.names
    set t := group.names.foldlM destroy ({ s with graph, pending } : Sheet)
    set dropped : Sheet := { t.value with groups := t.value.groups.erase id } with hdropped
    have hempty : ∀ n, t.value.entryIn? id n = none := by
      intro n
      rw [hdestroyed.entryIn?]
      split_ifs with hn
      · rfl
      · show s.entryIn? id n = none
        rw [entryIn?_of_group? hgroup, OrderedMap.get?_eq_none]
        exact hn
    have hgone : dropped.Booked := (hdestroyed.booked hbooked).dropGroup hempty
    have hgroups : (Function.update s.mirror.group? group.id none) = dropped.mirror.group? := by
      funext id'
      have hheading := hbooked.heading?_dropGroup hsound.wellFormed hgroup t.value.pending id'
      rw [hid.id_eq hgroup]
      show _ = (dropped.heading? id').map Prod.snd
      rw [hheading]
      by_cases hid' : id' = id
      · simp [hid']
      · rw [Function.update_of_ne hid', if_neg hid']
        rfl
    have hequations : dropped.equation? = t.value.equation? := funext (equation?_dropGroup hempty)
    have htells : Mirror.follow? ⟨s.equation?, dropped.mirror.group?⟩ t.events =
        some dropped.mirror := by
      have htold := hbooked.tells_destroys hsound.wellFormed group.equations.keys_nodup
        (fun n hn => by
          obtain ⟨e, he⟩ := (mem_names_iff hgroup).1 hn
          exact ⟨e, hs.booked.equation?_of_entryIn? he⟩) dropped.mirror.group?
      rw [mirror, hequations]
      exact htold
    have hremoving : s.mirror.follow? [.announce (.groupRemoving group)] =
        some ⟨s.equation?, dropped.mirror.group?⟩ := by
      refine (Mirror.follow?_announce ?_).trans ?_
      · rw [Mirror.expects, hid.id_eq hgroup, mirror_group?_of_group? hgroup]
        simp
      · rw [Mirror.observe, hgroups]
        rfl
    have hflush := (hgone.tells_flush (.capture s.graph group.names [])).mirrors fun _ => rfl
    rw [Mirrors] at hflush ⊢
    have hevents : (Prod.fst <$> s.removeGroup id).events = [.announce (.groupRemoving group)] ++
        (t.events ++ (dropped.flush (.capture s.graph group.names [])).events) := by
      rw [heq, Traced.events_map]
      simp [Announcement.send]
      rfl
    have hvalue : (Prod.fst <$> s.removeGroup id).value =
        (dropped.flush (.capture s.graph group.names [])).value := by rw [heq]; rfl
    rw [hevents, hvalue]
    exact Mirror.follow?_append hremoving (Mirror.follow?_append htells hflush)

/-! ## Resets -/

/-- Announcing the end of a group announces the group and, for each member, the equation before it goes and
its name afterwards. -/
theorem events_announceEnd (g : Group) :
    (announceEnd g).events = [.announce (.groupRemoving g)] ++ g.members.flatMap fun e =>
      [.announce (.equationRemoving e), .announce (.equationRemoved e.name)] := by
  rw [announceEnd, Traced.events_bind, Traced.events_forM]
  rfl

/-- Announcing the end of known groups that share neither identities nor names. -/
theorem follow?_announceEnd {gs : List Group} {m : Mirror}
    (hapart : gs.Pairwise fun g g' => g.id ≠ g'.id ∧ g.names.Disjoint g'.names)
    (hlisted : ∀ g ∈ gs, g.members.map (·.name) = g.names)
    (hgroup : ∀ g ∈ gs, m.group? g.id = some (g.statement, g.names))
    (hmember : ∀ g ∈ gs, ∀ e ∈ g.members, m.equation? e.name = some e) :
    m.follow? (gs.flatMap fun g => (announceEnd g).events) =
      some ⟨fun n => if n ∈ gs.flatMap Group.names then none else m.equation? n,
        fun id => if id ∈ gs.map Group.id then none else m.group? id⟩ := by
  induction gs generalizing m with
  | nil => simp [Mirror.follow?]
  | cons g gs ih =>
    rw [List.pairwise_cons] at hapart
    rw [List.forall_mem_cons] at hlisted hgroup hmember
    have hremoving : m.follow? [.announce (.groupRemoving g)] =
        some ⟨m.equation?, Function.update m.group? g.id none⟩ :=
      Mirror.follow?_announce (by simp [Mirror.expects, hgroup.1])
    have hnodup : (g.members.map (·.name)).Nodup := by
      rw [hlisted.1]
      exact g.equations.keys_nodup
    have hended := follow?_ended hnodup hmember.1 (Function.update m.group? g.id none)
    rw [hlisted.1] at hended
    rw [List.flatMap_cons, events_announceEnd]
    -- The groups that are still there have other identities and other names.
    refine Mirror.follow?_append (Mirror.follow?_append hremoving hended)
      ((ih hapart.2 hlisted.2 (fun g' hg' => ?_) fun g' hg' e he => ?_).trans ?_)
    · show Function.update m.group? g.id none g'.id = _
      rw [Function.update_of_ne (hapart.1 g' hg').1.symm]
      exact hgroup.2 g' hg'
    · have hname : e.name ∈ g'.names := hlisted.2 g' hg' ▸ List.mem_map_of_mem he
      show (if e.name ∈ g.names then none else m.equation? e.name) = _
      rw [if_neg fun h => (hapart.1 g' hg').2 h hname]
      exact hmember.2 g' hg' e he
    · congr 2
      · funext n
        by_cases hn : n ∈ g.names <;> simp [hn]
      · funext id
        by_cases hid : id = g.id <;> simp [hid]

/-- Of a vacant sheet there is nothing to know. -/
theorem Vacant.mirror (h : s.Vacant) : s.mirror = Mirror.blank := by
  have hequation : s.equation? = fun _ => none := funext h.equation?
  have hheading : ∀ id, s.heading? id = none := fun id => by
    rw [heading?, group?, h.groups]
    rfl
  simp only [Sheet.mirror, hequation, hheading]
  rfl

/-- The startup script tells nothing. -/
theorem follow?_startUp (host : Host) (s : Sheet) (m : Mirror) :
    m.follow? (s.startUp host).events = some m := by
  unfold startUp
  cases s.options.startupScript with
  | none => rfl
  | some script => rfl

/-- Creating a sheet tells nothing, as there is nothing to know of it. -/
theorem mirrors_create (host : Host) (options : Options) (store : Store) :
    Mirror.blank.follow? (create host options store).events =
      some (create host options store).value.mirror := by
  rw [(vacant_create host options store).mirror]
  exact follow?_startUp host _ _

/-- Resetting a sheet. -/
theorem Booked.mirrors_reset (hs : s.Booked) (hid : s.Identified) (host : Host) :
    s.Mirrors (s.reset host) := by
  have hgroup : ∀ entry ∈ s.groups.entries, s.group? entry.1 = some entry.2 := fun entry hentry =>
    OrderedMap.get?_eq_some.2 hentry
  have hapart : s.groups.values.Pairwise fun g g' => g.id ≠ g'.id ∧ g.names.Disjoint g'.names := by
    refine List.pairwise_map.2 ((List.pairwise_map.1 s.groups.keys_nodup).imp_of_mem ?_)
    intro entry entry' hentry hentry' hne
    rw [hid.id_eq (hgroup entry hentry), hid.id_eq (hgroup entry' hentry')]
    exact ⟨hne, fun n hn hn' => hne (hs.id_eq (hgroup entry hentry) (hgroup entry' hentry') hn hn')⟩
  have hends : s.mirror.follow? (s.groups.values.forM announceEnd).events = some Mirror.blank := by
    rw [Traced.events_forM]
    refine (follow?_announceEnd hapart ?_ ?_ ?_).trans ?_
    · rintro g hg
      obtain ⟨entry, hentry, rfl⟩ := List.mem_map.1 hg
      exact hs.map_name_members (hgroup entry hentry)
    · rintro g hg
      obtain ⟨entry, hentry, rfl⟩ := List.mem_map.1 hg
      rw [hid.id_eq (hgroup entry hentry)]
      exact mirror_group?_of_group? (hgroup entry hentry)
    · rintro g hg e he
      obtain ⟨entry, hentry, rfl⟩ := List.mem_map.1 hg
      exact hs.equation?_of_mem_members (hgroup entry hentry) he
    · -- Every equation is in a group, and every group is listed.
      congr 2
      · funext n
        split_ifs with hn
        · rfl
        · show s.equation? n = none
          by_contra hsome
          obtain ⟨e, he⟩ := Option.ne_none_iff_exists'.1 hsome
          obtain ⟨id, g, hg, hmem, rfl⟩ := hs.equation?_eq_some_iff.1 he
          refine hn (List.mem_flatMap.2 ⟨g, List.mem_map_of_mem (OrderedMap.get?_eq_some.1 hg), ?_⟩)
          exact hs.map_name_members hg ▸ List.mem_map_of_mem hmem
      · funext id
        split_ifs with hgone
        · rfl
        · show (s.heading? id).map Prod.snd = none
          cases hg : s.group? id with
          | none => simp [heading?, hg]
          | some g =>
            refine absurd (List.mem_map.2 ⟨g, ?_, hid.id_eq hg⟩) hgone
            exact List.mem_map_of_mem (OrderedMap.get?_eq_some.1 hg)
  rw [Mirrors, (vacant_reset host s).mirror]
  exact Mirror.follow?_append hends (follow?_startUp host _ _)

/-! ## Runs -/

namespace Identified

/-- Only the headings matter. -/
theorem congr (hid : s.Identified) (h : ∀ id, s'.heading? id = s.heading? id) : s'.Identified := by
  intro id hd hheading
  rw [h] at hheading
  exact hid id hd hheading

theorem of_vacant (h : s.Vacant) : s.Identified := by
  intro id hd hheading
  rw [heading?, group?, h.groups] at hheading
  cases hheading

/-- A refused operation leaves the headings. -/
theorem of_refused {α : Type} {t : Traced Event (Sheet × Except SheetError α)} (hid : s.Identified)
    (h : Refused s t) : t.value.1.Identified :=
  hid.congr fun id => by rw [heading?, heading?, group?, group?, h.sheet.groups]

/-- `Sheet.enterGroup` keeps a sheet `Identified`: the new group bears the number that it is filed under. -/
theorem enterGroup (hid : s.Identified) (hs : s.Wired) (host : Host) (statement : String) :
    (s.enterGroup host statement).value.1.Identified := by
  rcases hs.atRest.enterGroup_cases host statement with
    hrefused | ⟨items, graph, pending, -, hnodup, -, -, -, -, hvalue⟩
  · exact hid.of_refused hrefused
  · rw [hvalue]
    intro id hd hheading
    change (({ s with graph, pending } : Sheet).createGroup statement items).value.1.heading? id =
      some hd at hheading
    rw [heading?_createGroup _ statement hnodup] at hheading
    split_ifs at hheading with hnew
    · obtain rfl := Option.some.inj hheading
      exact hnew.symm
    · exact hid id hd hheading

/-- `Sheet.changeGroup` keeps a sheet `Identified`. -/
theorem changeGroup (hid : s.Identified) (hs : s.Wired) (host : Host) (id : GroupId)
    (statement : String) : (s.changeGroup host id statement).value.1.Identified := by
  rcases hs.atRest.changeGroup_cases host id statement with
    hrefused | hsame | ⟨group, items, graph, pending, hgroup, -, hnodup, -, hsound, -, -, hvalue⟩
  · exact hid.of_refused hrefused
  · rw [hsame]
    exact hid
  · have hbooked : ({ s with graph, pending } : Sheet).Booked := hs.booked.of_tables rfl rfl rfl
    rw [hvalue]
    intro id' hd hheading
    change (({ s with graph, pending } : Sheet).applyDiff id statement items
      (diff group items)).value.heading? id' = some hd at hheading
    rw [hbooked.heading?_applyDiff hsound.wellFormed hgroup hnodup] at hheading
    split_ifs at hheading with hchanged
    · obtain rfl := Option.some.inj hheading
      exact (hid.id_eq hgroup).trans hchanged.symm
    · exact hid id' hd hheading

/-- `Sheet.removeGroup` keeps a sheet `Identified`. -/
theorem removeGroup (hid : s.Identified) (hs : s.Wired) (id : GroupId) :
    (s.removeGroup id).value.1.Identified := by
  rcases hs.atRest.removeGroup_cases id with
    hrefused | ⟨group, graph, pending, hgroup, hsound, -, -, hvalue⟩
  · exact hid.of_refused hrefused
  · have hbooked : ({ s with graph, pending } : Sheet).Booked := hs.booked.of_tables rfl rfl rfl
    rw [hvalue]
    intro id' hd hheading
    rw [hbooked.heading?_dropGroup hsound.wellFormed hgroup] at hheading
    split_ifs at hheading
    exact hid id' hd hheading

/-- Every operation keeps the identities of the groups. -/
theorem perform (hid : s.Identified) (hs : s.Wired) (host : Host) (op : SheetOperation) :
    (s.perform host op).value.1.Identified := by
  have hboth : (s.perform host op).value.1.Wired ∧ (s.perform host op).value.1.Identified :=
    perform_induction (P := fun s => s.Wired ∧ s.Identified)
      (fun s hvacant => ⟨hvacant.wired, of_vacant hvacant⟩)
      (fun s statement h => ⟨h.1.after_enterGroup host statement, h.2.enterGroup h.1 host statement⟩)
      (fun s id statement h =>
        ⟨h.1.after_changeGroup host id statement, h.2.changeGroup h.1 host id statement⟩)
      (fun s id h => ⟨h.1.after_removeGroup host id, h.2.removeGroup h.1 id⟩)
      (fun s s' hcalm hbooks h => ⟨hbooks.wired hcalm h.1, h.2.congr hbooks.heading?⟩) ⟨hs, hid⟩ op
  exact hboth.2

end Identified

/-- The announcements of the update after an edit lead from mirror to mirror. -/
theorem Booked.mirrors_autoUpdate (hs : s.Booked) (host : Host) (id : GroupId) :
    s.Mirrors (s.autoUpdate host id) :=
  (hs.tells_autoUpdate host id).mirrors (sameBooks_autoUpdate host s id).heading?

/-- Adding a group tells of the group, then of its first update. -/
theorem Wired.mirrors_addGroup (hs : s.Wired) (host : Host) (statement : String) :
    s.Mirrors (Prod.fst <$> s.addGroup host statement) := by
  have hentered := hs.mirrors_enterGroup host statement
  have hwired := hs.after_enterGroup host statement
  rw [Mirrors, Traced.events_map, Traced.value_map] at hentered ⊢
  rw [addGroup, Traced.events_bind, Traced.value_bind]
  rcases hvalue : (s.enterGroup host statement).value with ⟨s', e | id⟩
  · rw [hvalue] at hentered
    exact Mirror.follow?_append hentered rfl
  · rw [hvalue] at hentered hwired
    have hauto := hwired.booked.mirrors_autoUpdate host id
    exact Mirror.follow?_append hentered (Mirror.follow?_append hauto rfl)

/-- Editing a group tells of the change, then of the update of the group. -/
theorem Wired.mirrors_editGroup (hs : s.Wired) (hid : s.Identified) (host : Host) (id : GroupId)
    (statement : String) : s.Mirrors (Prod.fst <$> s.editGroup host id statement) := by
  have hchanged := hs.mirrors_changeGroup hid host id statement
  have hwired := hs.after_changeGroup host id statement
  rw [Mirrors, Traced.events_map, Traced.value_map] at hchanged ⊢
  rw [editGroup, Traced.events_bind, Traced.value_bind]
  rcases hvalue : (s.changeGroup host id statement).value with ⟨s', e | changed⟩
  · rw [hvalue] at hchanged
    exact Mirror.follow?_append hchanged rfl
  · rw [hvalue] at hchanged hwired
    refine Mirror.follow?_append hchanged ?_
    cases changed with
    | false => rfl
    | true =>
      have hauto := hwired.booked.mirrors_autoUpdate host id
      exact Mirror.follow?_append hauto rfl

/-- Evaluating an expression tells nothing. -/
theorem follow?_eval (host : Host) (s : Sheet) (expression : String) (m : Mirror) :
    m.follow? (s.eval host expression).events = some m := by
  unfold eval
  rw [Traced.events_bind]
  refine Mirror.follow?_append rfl ?_
  cases host.parse .expression expression with
  | error e => rfl
  | ok items =>
    dsimp only
    cases items.find? ParseItem.isError <;> rfl

/-- Every operation is mirrored. -/
theorem Wired.mirrors_perform (hs : s.Wired) (hid : s.Identified) (host : Host)
    (op : SheetOperation) : s.Mirrors (Prod.fst <$> s.perform host op) := by
  -- Forgetting the reply, an operation is the method that performs it.
  have hforget : ∀ {α : Type} (t : Traced Event (Sheet × α)) (reply : α → SheetReply),
      s.Mirrors (Prod.fst <$> t) →
        s.Mirrors (Prod.fst <$> (t >>= fun r => pure (r.1, reply r.2))) := by
    intro α t reply h
    rwa [Traced.map_fst_bind_pure]
  have hupdate : ∀ scope cancelled, s.Mirrors (Prod.fst <$> s.update host scope cancelled) :=
    fun scope cancelled => (hs.booked.tells_update host scope cancelled).mirrors
      (sameBooks_update host s scope cancelled).heading?
  cases op with
  | addGroup statement => exact hforget _ _ (hs.mirrors_addGroup host statement)
  | editGroup id statement => exact hforget _ _ (hs.mirrors_editGroup hid host id statement)
  | removeGroup id => exact hforget _ _ (hs.mirrors_removeGroup hid id)
  | update scope => exact hforget _ _ (hupdate scope uncancelled)
  | updateUnless cancelled scope => exact hforget _ _ (hupdate scope cancelled)
  | updateOnly name =>
    exact hforget _ _ ((hs.booked.tells_updateOnly host name).mirrors
      (sameBooks_updateOnly host s name).heading?)
  | eval expression =>
    rw [Mirrors, Traced.events_map]
    exact Mirror.follow?_append (follow?_eval host s expression s.mirror) rfl
  | reset =>
    rw [Mirrors, Traced.events_map]
    exact Mirror.follow?_append (hs.booked.mirrors_reset hid host) rfl
  | setStatus name status message =>
    exact hforget _ _ ((hs.booked.tells_setStatus name status message).mirrors
      (sameBooks_setStatus s name status message).heading?)

/-- Every run is mirrored. -/
theorem Wired.mirrors_performEach (hs : s.Wired) (hid : s.Identified)
    (steps : List (Host × SheetOperation)) : s.Mirrors (s.performEach steps) := by
  induction steps generalizing s with
  | nil => rfl
  | cons step steps ih =>
    have hfirst := hs.mirrors_perform hid step.1 step.2
    rw [Sheet.performEach, List.foldlM_cons]
    exact hfirst.bind (ih (hs.perform step.1 step.2) (hid.perform hs step.1 step.2))

/-- An observer of a sheet that starts knowing nothing and takes in what is announced from the creation
on holds, after every run of operations over any hosts, exactly the equations of the groups under their
names, and the statement and the names of each group; and no announcement on the way surprises it. -/
theorem mirrored_of_operations (host : Host) (options : Options) (store : Store)
    (steps : List (Host × SheetOperation)) :
    let t := create host options store >>= (·.performEach steps)
    ∃ m, Mirror.blank.follow? t.events = some m ∧
      (∀ n e, m.equation? n = some e ↔
        ∃ id g, t.value.group? id = some g ∧ e ∈ g.members ∧ e.name = n) ∧
      ∀ id, m.group? id = (t.value.group? id).map fun g => (g.statement, g.names) := by
  intro t
  have hvacant := vacant_create host options store
  have hrun := hvacant.wired.mirrors_performEach (Identified.of_vacant hvacant) steps
  refine ⟨t.value.mirror, Mirror.follow?_append (mirrors_create host options store) hrun, ?_, ?_⟩
  · intro n e
    exact (hvacant.wired.performEach steps).booked.equation?_eq_some_iff
  · intro id
    show ((t.value.group? id).map Group.heading).map Prod.snd = _
    rw [Option.map_map]
    rfl

end Sheet

end Recalc
