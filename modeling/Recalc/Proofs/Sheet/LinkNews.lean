import Mathlib.Data.Finset.Card
import Recalc.Proofs.Sheet.LinkSignals
import Recalc.Proofs.Sheet.Tables

/-!
# News of links

After a structural edit each equation hears at most once about its links. What it hears (`linkNews`) is
put together from the signals of the graph and from the nodes noted beforehand, neither of which is right
alone: an edge that goes and comes back is reported twice, and a new node was not noted. Together they
are: the news of an equation is how its link sets differ from those before the edit (`linkNews_flush`).
-/

namespace Recalc

/-! ## What there is to hear -/

/-- The flags say something of links. -/
def EquationFlags.tellLinks (flags : EquationFlags) : Bool :=
  flags.contains (.of .dependencies) || flags.contains (.of .dependents)

/-- What an event tells a name about its links. -/
def Event.linkNews? (name : String) : Event → Option EquationFlags
  | .announce (.equationUpdated e flags) =>
    if e.name = name ∧ EquationFlags.tellLinks flags = true then some flags else none
  | _ => none

/-- What events tell a name about its links, one after the other. -/
def linkNews (name : String) (events : List Event) : List EquationFlags :=
  events.filterMap (Event.linkNews? name)

/-- Flags that say which of the two link sets of a name changed. -/
def linkFlags (dependencies dependents : Bool) : EquationFlags :=
  (if dependencies then .of .dependencies else ∅) ∪ (if dependents then .of .dependents else ∅)

/-- `linkFlags` is empty or tells of links. -/
theorem tellLinks_linkFlags :
    ∀ p q, (linkFlags p q).isEmpty = !EquationFlags.tellLinks (linkFlags p q) := by
  decide

/-- What a signal reports of its name. -/
def LinkSignal.flag : LinkSignal → EquationFlags
  | .dependencies _ => .of .dependencies
  | .dependents _ => .of .dependents

namespace Graph

variable {g g' h : Graph} {detached : List String} {attached : List ParseItem} {n : String}
  {events : List LinkSignal}

/-- How the link sets of a name differ between two graphs, as sets; without a node they are empty. -/
def linkChange (g g' : Graph) (n : String) : EquationFlags :=
  linkFlags ((g'.dependenciesOf n).toFinset ≠ (g.dependenciesOf n).toFinset)
    ((g'.dependentsOf n).toFinset ≠ (g.dependentsOf n).toFinset)

/-! ## What the graph reported -/

/-- What signals report of a name. -/
def reported (events : List LinkSignal) (n : String) : EquationFlags :=
  linkFlags (.dependencies n ∈ events) (.dependents n ∈ events)

/-- One more signal adds its flag to what is reported of its name. -/
theorem reported_append (events : List LinkSignal) (signal : LinkSignal) (n : String) :
    reported (events ++ [signal]) n =
      if n = signal.name then reported events n ∪ signal.flag else reported events n := by
  have hdeps : ∀ p q, linkFlags p q ∪ .of .dependencies = linkFlags true q := by decide
  have hdependents : ∀ p q, linkFlags p q ∪ .of .dependents = linkFlags p true := by decide
  unfold reported
  cases signal with
  | dependencies name =>
    by_cases hn : n = name
    · simp [LinkSignal.name, LinkSignal.flag, hn, hdeps]
    · simp [LinkSignal.name, hn]
  | dependents name =>
    by_cases hn : n = name
    · simp [LinkSignal.name, LinkSignal.flag, hn, hdependents]
    · simp [LinkSignal.name, hn]

/-- For a new name, what is reported is how the link sets change. -/
theorem Reported.reported_eq (hrep : Reported g detached attached g' events) (hn : n ∉ g.names) :
    reported events n = g.linkChange g' n := by
  unfold reported linkChange
  rw [dependenciesOf_of_not_mem hn, dependentsOf_of_not_mem hn]
  simp only [hrep.mem_dependencies n hn, hrep.mem_dependents n hn, List.toFinset_nil, ne_eq,
    List.toFinset_eq_empty_iff]

/-- Only the links of the graph in the end matter. -/
theorem Reported.of_sameShape (hrep : Reported g detached attached g' events) (hh : SameShape h g') :
    Reported g detached attached h events where
  touched := hrep.touched
  mem_dependencies n hn := by rw [hh.dependenciesOf, hrep.mem_dependencies n hn]
  mem_dependents n hn := by rw [hh.dependentsOf, hrep.mem_dependents n hn]

end Graph

/-- `OrderedSet.sameElements` compares two sets as sets, whatever their order. -/
theorem OrderedSet.sameElements_iff {s t : OrderedSet String} :
    s.sameElements t = true ↔ s.toList.toFinset = t.toList.toFinset := by
  rw [sameElements, Bool.and_eq_true, beq_iff_eq, List.all_eq_true]
  constructor
  · rintro ⟨hsize, hsub⟩
    refine Finset.eq_of_subset_of_card_le (fun a ha => ?_) ?_
    · exact List.mem_toFinset.2 (contains_eq_true.1 (hsub a (List.mem_toFinset.1 ha)))
    · rw [List.toFinset_card_of_nodup s.nodup, List.toFinset_card_of_nodup t.nodup]
      exact hsize.ge
  · intro heq
    refine ⟨?_, fun a ha => contains_eq_true.2 ?_⟩
    · have hcard := congrArg Finset.card heq
      rwa [List.toFinset_card_of_nodup s.nodup, List.toFinset_card_of_nodup t.nodup] at hcard
    · exact List.mem_toFinset.1 (heq ▸ List.mem_toFinset.2 ha)

namespace Sheet

open Recalc.Graph

variable {s : Sheet} {g g' : Graph} {detached : List String} {attached : List ParseItem} {n : String}
  {events : List LinkSignal}

/-! ## Noting signals -/

/-- `Sheet.noteSignal` adds the flag of a signal to what waits for its name. -/
theorem noteSignal_eq (pending : OrderedMap String EquationFlags) (signal : LinkSignal) :
    noteSignal pending signal =
      pending.insert signal.name ((pending.get? signal.name).getD ∅ ∪ signal.flag) := by
  cases signal <;> rfl

/-- Link changes wait for exactly the names that the signals are about. -/
theorem mem_keys_noteSignals (events : List LinkSignal) (n : String) :
    n ∈ (events.foldl noteSignal ∅).keys ↔ ∃ signal ∈ events, signal.name = n := by
  induction events using List.reverseRecOn with
  | nil => simp
  | append_singleton events signal ih =>
    rw [List.foldl_append, List.foldl_cons, List.foldl_nil, noteSignal_eq, OrderedMap.mem_keys_insert,
      ih]
    simp [or_and_right, exists_or, eq_comm]

/-- The signals that wait say of a name what was reported of it. -/
theorem getD_noteSignals (events : List LinkSignal) (n : String) :
    ((events.foldl noteSignal ∅).get? n).getD ∅ = reported events n := by
  induction events using List.reverseRecOn with
  | nil => simp [reported]; rfl
  | append_singleton events signal ih =>
    rw [List.foldl_append, List.foldl_cons, List.foldl_nil, noteSignal_eq, OrderedMap.get?_insert,
      reported_append, ← ih]
    by_cases hn : n = signal.name
    · simp [hn]
    · simp [hn]

/-! ## Noting nodes -/

/-- `LinkSnapshot.note` notes the node of its name, if there is one, and leaves what was noted of other
names. -/
theorem get?_note (g : Graph) (snapshot : LinkSnapshot) (name n : String) :
    (LinkSnapshot.note g snapshot name).get? n =
      if n = name then (g.node? n).orElse fun _ => snapshot.get? n else snapshot.get? n := by
  unfold LinkSnapshot.note
  cases hnode : g.node? name with
  | none =>
    split_ifs with hn
    · rw [hn, hnode]
      rfl
    · rfl
  | some node =>
    rw [OrderedMap.get?_insert]
    split_ifs with hn
    · rw [hn, hnode]
      rfl
    · rfl

/-- What is noted are the nodes of the names that may be touched. -/
theorem get?_capture (g : Graph) (detached : List String) (attached : List ParseItem) (n : String) :
    (LinkSnapshot.capture g detached attached).get? n =
      if n ∈ g.touchedBy detached attached then g.node? n else none := by
  unfold LinkSnapshot.capture
  induction g.touchedBy detached attached using List.reverseRecOn with
  | nil => rfl
  | append_singleton names name ih =>
    rw [List.foldl_append, List.foldl_cons, List.foldl_nil, get?_note, ih]
    by_cases hn : n = name
    · subst hn
      cases g.node? n <;> simp
    · simp [hn]

/-- What an edit did to the links of a name that it may touch. -/
theorem netChange_eq (hrep : Reported g detached attached g' events) (hn : n ∈ g'.names)
    (htouched : n ∈ g.touchedBy detached attached) :
    (LinkSnapshot.capture g detached attached).netChange g' n (reported events n) =
      g.linkChange g' n := by
  obtain ⟨new, hnew⟩ := mem_names_iff.1 hn
  rw [LinkSnapshot.netChange, get?_capture, if_pos htouched, hnew]
  cases hold : g.node? n with
  | none => exact hrep.reported_eq (node?_eq_none.1 hold)
  | some old =>
    simp only [OrderedSet.sameElements_iff, linkChange, linkFlags, dependenciesOf_of_node? hnew,
      dependenciesOf_of_node? hold, dependentsOf_of_node? hnew, dependentsOf_of_node? hold, ne_eq,
      decide_not, Bool.not_eq_true', decide_eq_false_iff_not, ite_not]

/-- An edit did something to the links of a name, or nothing. -/
theorem exists_netChange_eq (snapshot : LinkSnapshot) (g : Graph) (events : List LinkSignal)
    (n : String) : ∃ p q, snapshot.netChange g n (reported events n) = linkFlags p q := by
  unfold LinkSnapshot.netChange
  split
  · next old new _ _ =>
    refine ⟨!new.dependencies.sameElements old.dependencies,
      !new.dependents.sameElements old.dependents, ?_⟩
    cases new.dependencies.sameElements old.dependencies <;>
      cases new.dependents.sameElements old.dependents <;> rfl
  · exact ⟨_, _, rfl⟩

/-! ## Announcing the changes -/

/-- Each name is looked at once. -/
theorem nodup_linkChanges (pending : OrderedMap String EquationFlags) (snapshot : LinkSnapshot) :
    ((linkChanges pending snapshot).map Prod.fst).Nodup := by
  have hrest : ((snapshot.keys.filter (!pending.contains ·)).map
      (·, (∅ : EquationFlags))).map Prod.fst = snapshot.keys.filter (!pending.contains ·) := by
    rw [List.map_map]
    exact List.map_id _
  rw [linkChanges, List.map_append, hrest]
  refine List.nodup_append.2 ⟨pending.keys_nodup, snapshot.keys_nodup.filter _, fun n hn m hm heq => ?_⟩
  have hm' := (List.mem_filter.1 hm).2
  rw [← heq, OrderedMap.contains_eq_true.2 hn] at hm'
  cases hm'

/-- A name is looked at if something was reported of it or if its node was noted. -/
theorem mem_keys_linkChanges {pending : OrderedMap String EquationFlags} {snapshot : LinkSnapshot}
    {n : String} :
    n ∈ (linkChanges pending snapshot).map Prod.fst ↔ n ∈ pending.keys ∨ n ∈ snapshot.keys := by
  rw [linkChanges, List.map_append, List.mem_append]
  change n ∈ pending.keys ∨ _ ↔ _
  by_cases hn : n ∈ pending.keys
  · simp [hn]
  · have hcontains : pending.contains n = false := by
      rw [← Bool.not_eq_true, OrderedMap.contains_eq_true]
      exact hn
    simp [hn, hcontains]

/-- A name that is looked at, because something was reported of it or its node was noted, is looked at with
what was reported. -/
theorem getD_mem_linkChanges {pending : OrderedMap String EquationFlags} {snapshot : LinkSnapshot}
    {n : String} (hn : n ∈ pending.keys ∨ n ∈ snapshot.keys) :
    (n, (pending.get? n).getD ∅) ∈ linkChanges pending snapshot := by
  rw [linkChanges, List.mem_append]
  cases hget : pending.get? n with
  | some flags => exact Or.inl (OrderedMap.get?_eq_some.1 hget)
  | none =>
    have hpending : n ∉ pending.keys := OrderedMap.get?_eq_none.1 hget
    have hcontains : pending.contains n = false := by
      rw [← Bool.not_eq_true, OrderedMap.contains_eq_true]
      exact hpending
    refine Or.inr (List.mem_map.2 ⟨n, List.mem_filter.2 ⟨hn.resolve_left hpending, ?_⟩, rfl⟩)
    rw [hcontains]
    rfl

/-- Whatever is looked at is looked at with what was reported of it. -/
theorem eq_getD_of_mem_linkChanges {pending : OrderedMap String EquationFlags}
    {snapshot : LinkSnapshot} {change : String × EquationFlags}
    (hchange : change ∈ linkChanges pending snapshot) : change.2 = (pending.get? change.1).getD ∅ := by
  have hlooked := mem_keys_linkChanges.1 (List.mem_map_of_mem hchange)
  have heq := List.inj_on_of_nodup_map (nodup_linkChanges pending snapshot) hchange
    (getD_mem_linkChanges hlooked) rfl
  exact congrArg Prod.snd heq

section Once

variable {α β : Type} {f : String × α → List β} {changes : List (String × α)}

/-- Nothing is told of a name that is not looked at. -/
theorem flatMap_of_not_mem (hn : n ∉ changes.map Prod.fst) :
    (changes.flatMap fun c => if c.1 = n then f c else []) = [] := by
  rw [List.flatMap_eq_nil_iff]
  intro c hc
  refine if_neg fun hname => hn ?_
  rw [← hname]
  exact List.mem_map_of_mem hc

/-- A name that is looked at once is told one thing. -/
theorem flatMap_of_mem (hnodup : (changes.map Prod.fst).Nodup) {a : α} (hmem : (n, a) ∈ changes) :
    (changes.flatMap fun c => if c.1 = n then f c else []) = f (n, a) := by
  obtain ⟨before, after, rfl⟩ := List.append_of_mem hmem
  rw [List.map_append, List.map_cons, List.nodup_middle, List.nodup_cons, List.mem_append, not_or]
    at hnodup
  rw [List.flatMap_append, List.flatMap_cons, flatMap_of_not_mem hnodup.1.1,
    flatMap_of_not_mem hnodup.1.2, if_pos rfl, List.nil_append, List.append_nil]

end Once

/-- What flushing tells the name of an equation. -/
theorem Booked.linkNews_flush_eq (hs : s.Booked) (snapshot : LinkSnapshot) {e : Equation}
    (he : s.equation? n = some e) :
    linkNews n (s.flush snapshot).events =
      (linkChanges s.pending snapshot).flatMap fun change =>
        if change.1 = n then
          [snapshot.netChange s.graph change.1 change.2].filter EquationFlags.tellLinks
        else [] := by
  unfold flush linkNews
  rw [Traced.events_bind, Traced.events_pure, List.append_nil, Traced.events_forM,
    List.filterMap_flatMap]
  refine List.flatMap_congr fun change _ => ?_
  set flags := snapshot.netChange s.graph change.1 change.2 with hflags
  have hequation : ({ s with pending := ∅ } : Sheet).equation? = s.equation? := rfl
  by_cases hempty : flags.isEmpty = true
  · have hsilent : EquationFlags.tellLinks flags = false := by
      rw [Flags.ext (beq_iff_eq.1 hempty) (g := (∅ : EquationFlags))]
      decide
    simp [← hflags, hempty, hsilent]
  · simp only [← hflags, hempty, Bool.false_eq_true, if_false, announceUpdate, Traced.events_announce?,
      hequation]
    split_ifs with hname
    · have hn : e.name = n := hs.name_eq_of_equation? he
      rw [hname, he]
      cases htell : EquationFlags.tellLinks flags <;> simp [Event.linkNews?, hn, htell]
    · -- The equation that is announced has another name.
      cases he' : s.equation? change.1 with
      | none => rfl
      | some e' =>
        have hn' : e'.name ≠ n := fun h => hname ((hs.name_eq_of_equation? he').symm.trans h)
        simp [Event.linkNews?, hn']

/-- The news of an equation are how its links changed, if they did. -/
theorem Booked.linkNews_flush (hs : s.Booked) (hrep : Reported g detached attached s.graph events)
    (hpending : s.pending = events.foldl noteSignal ∅) {e : Equation} (he : s.equation? n = some e)
    (hn : n ∈ s.graph.names)
    (hfar : n ∉ g.touchedBy detached attached → (g.linkChange s.graph n).isEmpty = true) :
    linkNews n (s.flush (.capture g detached attached)).events =
      if (g.linkChange s.graph n).isEmpty then [] else [g.linkChange s.graph n] := by
  set snapshot := LinkSnapshot.capture g detached attached with hsnapshot
  have hkeys : n ∈ snapshot.keys ↔ n ∈ g.touchedBy detached attached ∧ n ∈ g.names := by
    rw [← OrderedMap.isSome_get?, hsnapshot, get?_capture, mem_names_iff, ← Option.isSome_iff_exists]
    split_ifs with htouched <;> simp [htouched]
  have hreports : n ∈ s.pending.keys → n ∈ g.touchedBy detached attached := by
    rw [hpending, mem_keys_noteSignals]
    rintro ⟨signal, hsignal, rfl⟩
    exact hrep.touched signal hsignal
  rw [hs.linkNews_flush_eq snapshot he]
  by_cases hlooked : n ∈ s.pending.keys ∨ n ∈ snapshot.keys
  · have htouched := hlooked.elim hreports fun h => (hkeys.1 h).1
    rw [flatMap_of_mem (nodup_linkChanges _ _) (getD_mem_linkChanges hlooked), hpending,
      getD_noteSignals, hsnapshot, netChange_eq hrep hn htouched, List.filter_singleton, linkChange,
      tellLinks_linkFlags]
    cases EquationFlags.tellLinks _ <;> rfl
  · rw [flatMap_of_not_mem (mem_keys_linkChanges.not.2 hlooked)]
    rw [not_or] at hlooked
    have hnone : (g.linkChange s.graph n).isEmpty = true := by
      by_cases htouched : n ∈ g.touchedBy detached attached
      · -- The name is new, and nothing was reported of it.
        have hnew : n ∉ g.names := fun hmem => hlooked.2 (hkeys.2 ⟨htouched, hmem⟩)
        rw [← hrep.reported_eq hnew, ← getD_noteSignals, ← hpending,
          OrderedMap.get?_eq_none.2 hlooked.1]
        rfl
      · exact hfar htouched
    rw [if_pos hnone]

end Sheet

end Recalc
