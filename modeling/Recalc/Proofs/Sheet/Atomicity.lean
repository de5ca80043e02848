import Mathlib.Data.List.Basic
import Recalc.Proofs.Sheet.Rest

/-!
# Failed operations leave no trace

An operation that fails has asked its host to parse at most; it has announced nothing, executed
nothing and issued no stamp, and the sheet is as it was, up to the order of the edges and links in its
graph (`Refused`). That is plain where the operation fails before the graph is touched. Where a cycle is
refused, the graph has been rewired and rolled back, and the link changes that it reported meanwhile are
dropped.

The edits are described by their two outcomes: refused, or carried out on a graph that was rewired. What
comes before the graph is touched is split off first (`enterGroup_split`, `changeGroup_split`). The
outlines (`enterGroup_outline`, `changeGroup_outline`, `removeGroup_outline`) give the steps that are
carried out, with what they announce, and the cases (`enterGroup_cases`, `changeGroup_cases`,
`removeGroup_cases`) the sheet in which they result.
-/

namespace Recalc.Sheet

open Recalc.Graph

variable {s s' : Sheet} {host : Host} {α : Type}

/-- The sheets are the same up to the order of the edges and links in their graphs. -/
structure SameSheet (s' s : Sheet) : Prop where
  groups : s'.groups = s.groups
  owners : s'.owners = s.owners
  store : s'.store = s.store
  options : s'.options = s.options
  created : s'.created = s.created
  pending : s'.pending = s.pending
  names : s'.graph.names = s.graph.names
  mark? : ∀ n, s'.graph.mark? n = s.graph.mark? n
  mem_edges : ∀ e, e ∈ s'.graph.edges.toList ↔ e ∈ s.graph.edges.toList
  mem_dependenciesOf : ∀ n d, d ∈ s'.graph.dependenciesOf n ↔ d ∈ s.graph.dependenciesOf n
  mem_dependentsOf : ∀ n d, d ∈ s'.graph.dependentsOf n ↔ d ∈ s.graph.dependentsOf n
  journal : s'.graph.journal = s.graph.journal
  clock : s'.graph.clock = s.graph.clock

theorem SameSheet.refl (s : Sheet) : SameSheet s s :=
  ⟨rfl, rfl, rfl, rfl, rfl, rfl, rfl, fun _ => rfl, fun _ => Iff.rfl, fun _ _ => Iff.rfl,
    fun _ _ => Iff.rfl, rfl, rfl⟩

/-- A graph that is alike makes a sheet at rest the same. -/
theorem AtRest.sameSheet (hs : s.AtRest) {graph : Graph} (hsound : graph.Sound)
    (hb : graph.inBatch = false) (halike : Alike True graph s.graph)
    (hclock : graph.clock = s.graph.clock) : SameSheet { s with graph, pending := ∅ } s where
  groups := rfl
  owners := rfl
  store := rfl
  options := rfl
  created := rfl
  pending := hs.pending.symm
  names := halike.names
  mark? := halike.mark? trivial
  mem_edges := halike.mem_edges
  mem_dependenciesOf := by
    intro n d
    rw [hsound.wellFormed.mem_dependenciesOf, hs.sound.wellFormed.mem_dependenciesOf]
    exact halike.depends_iff n d
  mem_dependentsOf := by
    intro n d
    rw [hsound.wellFormed.mem_dependentsOf, hs.sound.wellFormed.mem_dependentsOf]
    exact halike.depends_iff d n
  journal := (journal_eq_none hb).trans (journal_eq_none hs.inBatch).symm
  clock := hclock

/-- The operation failed, having asked its host to parse at most, and the sheet is as it was. -/
structure Refused (s : Sheet) (t : Traced Event (Sheet × Except SheetError α)) : Prop where
  failed : ∃ e, t.value.2 = .error e
  sheet : SameSheet t.value.1 s
  atRest : t.value.1.AtRest
  events : ∀ event ∈ t.events, ∃ mode code, event = .parse mode code

/-- An operation that only answers an error is `Refused`. -/
theorem AtRest.refused_pure (hs : s.AtRest) (e : SheetError) :
    Refused s (pure (s, (.error e : Except SheetError α))) :=
  ⟨⟨e, rfl⟩, SameSheet.refl s, hs, fun _ h => nomatch h⟩

/-! ## Parsing a statement -/

/-- `firstRepeated?` finds nothing exactly if the names are different and none of them was seen. -/
theorem firstRepeated?_eq_none_iff {seen names : List String} :
    firstRepeated? seen names = none ↔ names.Nodup ∧ ∀ n ∈ names, n ∉ seen := by
  induction names generalizing seen with
  | nil => simp [firstRepeated?]
  | cons name names ih =>
    rw [firstRepeated?]
    split_ifs with hname
    · simp [hname]
    · rw [ih, List.nodup_cons]
      simp only [List.mem_cons, not_or, forall_eq_or_imp, hname, not_false_eq_true, true_and]
      constructor
      · rintro ⟨hnodup, hall⟩
        exact ⟨⟨fun hmem => (hall name hmem).1 rfl, hnodup⟩, fun n hn => (hall n hn).2⟩
      · rintro ⟨⟨hnew, hnodup⟩, hall⟩
        exact ⟨hnodup, fun n hn => ⟨fun h => hnew (h ▸ hn), hall n hn⟩⟩

/-- Parsing a statement announces that the host was asked, and nothing else. -/
theorem events_parseStatement (host : Host) (statement : String) :
    (parseStatement host statement).events = [.parse .statement statement] := by
  unfold parseStatement
  cases host.parse .statement statement with
  | error e => rfl
  | ok items => cases hrepeated : firstRepeated? [] (items.map (·.name)) <;> simp [hrepeated]

/-- A statement is refused, and not because of a cycle, or its items have different names. -/
theorem parseStatement_cases (host : Host) (statement : String) :
    (∃ e, (parseStatement host statement).value = .error e ∧ ∀ err, e ≠ .cycle err) ∨
      ∃ items, (parseStatement host statement).value = .ok items ∧
        host.parse .statement statement = .ok items ∧ (items.map (·.name)).Nodup := by
  cases hparse : host.parse .statement statement with
  | error e =>
    refine Or.inl ⟨.parse e, ?_, fun _ => nofun⟩
    unfold parseStatement
    rw [hparse]
    rfl
  | ok items =>
    cases hrepeated : firstRepeated? [] (items.map (·.name)) with
    | some name =>
      refine Or.inl ⟨.alreadyExists name, ?_, fun _ => nofun⟩
      unfold parseStatement
      simp [hparse, hrepeated]
    | none =>
      refine Or.inr ⟨items, ?_, rfl, (firstRepeated?_eq_none_iff.1 hrepeated).1⟩
      unfold parseStatement
      simp [hparse, hrepeated]

/-- Parsing a statement announces that and nothing else. -/
theorem parseStatement_bind {β : Type} (host : Host) (statement : String)
    (next : Except SheetError (List ParseItem) → Traced Event β) :
    parseStatement host statement >>= next =
      Traced.announce (.parse .statement statement) >>= fun _ =>
        next (parseStatement host statement).value := by
  refine Traced.ext rfl ?_
  rw [Traced.events_bind, events_parseStatement]
  rfl

/-- Having asked the host to parse makes no difference. -/
theorem Refused.after_parse {t : Traced Event (Sheet × Except SheetError α)} (h : Refused s t)
    (mode : ParseMode) (code : String) :
    Refused s (Traced.announce (.parse mode code) >>= fun _ => t) := by
  refine ⟨h.failed, h.sheet, h.atRest, fun event hevent => ?_⟩
  rw [Traced.events_bind, Traced.events_announce, List.mem_append, List.mem_singleton] at hevent
  rcases hevent with rfl | hevent
  · exact ⟨mode, code, rfl⟩
  · exact h.events event hevent

/-- `Sheet.firstTaken?` finds nothing exactly if none of the items has an equation. -/
theorem firstTaken?_eq_none_iff {items : List ParseItem} :
    s.firstTaken? items = none ↔ ∀ item ∈ items, s.hasEquation item.name = false := by
  rw [firstTaken?, Option.map_eq_none_iff, List.find?_eq_none]
  simp

/-! ## The outcomes of the edits -/

/-- The names that an edit detaches. -/
def GroupDiff.detached (d : GroupDiff) : List String := d.removed ++ d.updated.map (·.name)

/-- The items that an edit attaches. -/
def GroupDiff.attached (d : GroupDiff) : List ParseItem := d.added ++ d.updated

/-- A rewiring that closes a cycle makes the operation `Refused`: the graph is as before, and no link change
waits. -/
theorem AtRest.refused_cycle (hs : s.AtRest) {graph : Graph} {err : CycleError}
    (hsound : graph.Sound) (hb : graph.inBatch = false) (halike : Alike True graph s.graph)
    (hclock : graph.clock = s.graph.clock) :
    Refused s (pure (({ s with graph, pending := ∅ } : Sheet),
      (.error (.cycle err) : Except SheetError α))) :=
  ⟨⟨_, rfl⟩, hs.sameSheet hsound hb halike hclock, ⟨hsound, hb, rfl⟩, fun _ h => nomatch h⟩

/-- Adding a statement fails before the graph is touched, and not because of a cycle, or it comes to
attaching items of different names, none of which is taken. -/
theorem enterGroup_split (s : Sheet) (host : Host) (statement : String) :
    (∃ e, (∀ err, e ≠ .cycle err) ∧ s.enterGroup host statement = (do
      Traced.announce (.parse .statement statement)
      pure (s, .error e))) ∨
    ∃ items, host.parse .statement statement = .ok items ∧ (items.map (·.name)).Nodup ∧
      (∀ item ∈ items, s.hasEquation item.name = false) ∧
      (∀ s' err, s.rewire [] items = (s', .error err) → s.enterGroup host statement = (do
        Traced.announce (.parse .statement statement)
        pure (s', .error (.cycle err)))) ∧
      ∀ s', s.rewire [] items = (s', .ok ()) → s.enterGroup host statement = (do
        Traced.announce (.parse .statement statement)
        let (s', id) ← s'.createGroup statement items
        let s' ← s'.flush (.capture s.graph [] items)
        pure (s', .ok id)) := by
  rw [enterGroup, parseStatement_bind]
  rcases parseStatement_cases host statement with ⟨e, hparsed, he⟩ | ⟨items, hparsed, hparse, hnodup⟩
  · rw [hparsed]
    exact Or.inl ⟨e, he, rfl⟩
  · rw [hparsed]
    cases htaken : s.firstTaken? items with
    | some name =>
      simp only [htaken]
      exact Or.inl ⟨.alreadyExists name, fun _ => nofun, rfl⟩
    | none =>
      simp only [htaken]
      refine Or.inr ⟨items, hparse, hnodup, firstTaken?_eq_none_iff.1 htaken, ?_, ?_⟩
      · intro s' err hrewire
        rw [hrewire]
      · intro s' hrewire
        rw [hrewire]

/-- Changing a group fails before the graph is touched, and not because of a cycle, or the statement is
the same again, or it comes to rewiring the graph by the difference. -/
theorem changeGroup_split (s : Sheet) (host : Host) (id : GroupId) (statement : String) :
    (∃ e, (∀ err, e ≠ .cycle err) ∧ (s.changeGroup host id statement = pure (s, .error e) ∨
      s.changeGroup host id statement = (do
        Traced.announce (.parse .statement statement)
        pure (s, .error e)))) ∨
    s.changeGroup host id statement = pure (s, .ok false) ∨
    ∃ group items, s.group? id = some group ∧ host.parse .statement statement = .ok items ∧
      (items.map (·.name)).Nodup ∧
      (∀ item ∈ (diff group items).added, s.hasEquation item.name = false) ∧
      (∀ s' err, s.rewire (diff group items).detached (diff group items).attached =
          (s', .error err) →
        s.changeGroup host id statement = (do
          Traced.announce (.parse .statement statement)
          pure (s', .error (.cycle err)))) ∧
      ∀ s', s.rewire (diff group items).detached (diff group items).attached = (s', .ok ()) →
        s.changeGroup host id statement = (do
          Traced.announce (.parse .statement statement)
          let s' ← s'.applyDiff id statement items (diff group items)
          let s' ← s'.flush (.capture s.graph (diff group items).detached (diff group items).attached)
          pure (s', .ok true)) := by
  unfold changeGroup
  cases hgroup : s.group? id with
  | none => exact Or.inl ⟨.groupNotFound id, fun _ => nofun, Or.inl rfl⟩
  | some group =>
    by_cases hsame : group.statement = statement
    · simp only [hsame, if_true]
      exact Or.inr (Or.inl trivial)
    · simp only [hsame, if_false]
      rw [parseStatement_bind]
      rcases parseStatement_cases host statement with
        ⟨e, hparsed, he⟩ | ⟨items, hparsed, hparse, hnodup⟩
      · rw [hparsed]
        exact Or.inl ⟨e, he, Or.inr rfl⟩
      · rw [hparsed]
        cases htaken : s.firstTaken? (diff group items).added with
        | some name =>
          simp only [htaken]
          exact Or.inl ⟨.alreadyExists name, fun _ => nofun, Or.inr rfl⟩
        | none =>
          simp only [htaken]
          refine Or.inr (Or.inr ⟨group, items, rfl, hparse, hnodup, firstTaken?_eq_none_iff.1 htaken,
            ?_, ?_⟩)
          -- The edit spells the two lists out.
          · intro s' err hrewire
            unfold GroupDiff.detached GroupDiff.attached at hrewire
            rw [hrewire]
          · intro s' hrewire
            unfold GroupDiff.detached GroupDiff.attached at hrewire
            rw [hrewire]
            rfl

/-- A statement that is added is refused, or its items are attached to the graph, a group is created and
the link changes are announced. -/
theorem AtRest.enterGroup_outline (hs : s.AtRest) (host : Host) (statement : String) :
    Refused s (s.enterGroup host statement) ∨
      ∃ items graph pending, host.parse .statement statement = .ok items ∧
        (items.map (·.name)).Nodup ∧ (∀ item ∈ items, s.hasEquation item.name = false) ∧
        graph.Sound ∧ graph.inBatch = false ∧ Rewired s.graph [] items graph ∧
        s.rewire [] items = ({ s with graph, pending }, .ok ()) ∧
        s.enterGroup host statement = (do
          Traced.announce (.parse .statement statement)
          let (s', id) ← ({ s with graph, pending } : Sheet).createGroup statement items
          let s' ← s'.flush (.capture s.graph [] items)
          pure (s', .ok id)) := by
  rcases s.enterGroup_split host statement with
    ⟨e, -, heq⟩ | ⟨items, hparse, hnodup, htaken, hcycle, hentered⟩
  · rw [heq]
    exact Or.inl ((hs.refused_pure e).after_parse _ _)
  · rcases hs.rewire_cases [] items with ⟨graph, pending, hrewire, hsound, hb, hrewired⟩ |
      ⟨graph, err, hrewire, hsound, hb, halike, hclock⟩
    · exact Or.inr ⟨items, graph, pending, hparse, hnodup, htaken, hsound, hb, hrewired hnodup,
        hrewire, hentered _ hrewire⟩
    · rw [hcycle _ err hrewire]
      exact Or.inl ((hs.refused_cycle hsound hb halike hclock).after_parse _ _)

/-- A statement that replaces one is refused, is the same again, or the graph is rewired as it differs
from the group, the group is changed accordingly and the link changes are announced. -/
theorem AtRest.changeGroup_outline (hs : s.AtRest) (host : Host) (id : GroupId) (statement : String) :
    Refused s (s.changeGroup host id statement) ∨
      s.changeGroup host id statement = pure (s, .ok false) ∨
      ∃ group items graph pending, s.group? id = some group ∧
        host.parse .statement statement = .ok items ∧ (items.map (·.name)).Nodup ∧
        (∀ item ∈ (diff group items).added, s.hasEquation item.name = false) ∧
        graph.Sound ∧ graph.inBatch = false ∧
        ((((diff group items).attached).map (·.name)).Nodup →
          Rewired s.graph (diff group items).detached (diff group items).attached graph) ∧
        s.rewire (diff group items).detached (diff group items).attached =
          ({ s with graph, pending }, .ok ()) ∧
        s.changeGroup host id statement = (do
          Traced.announce (.parse .statement statement)
          let s' ← ({ s with graph, pending } : Sheet).applyDiff id statement items (diff group items)
          let s' ← s'.flush (.capture s.graph (diff group items).detached (diff group items).attached)
          pure (s', .ok true)) := by
  rcases s.changeGroup_split host id statement with
    ⟨e, -, heq | heq⟩ | hsame | ⟨group, items, hgroup, hparse, hnodup, htaken, hcycle, hchanged⟩
  · rw [heq]
    exact Or.inl (hs.refused_pure e)
  · rw [heq]
    exact Or.inl ((hs.refused_pure e).after_parse _ _)
  · exact Or.inr (Or.inl hsame)
  · rcases hs.rewire_cases (diff group items).detached (diff group items).attached with
      ⟨graph, pending, hrewire, hsound, hb, hrewired⟩ |
      ⟨graph, err, hrewire, hsound, hb, halike, hclock⟩
    · exact Or.inr (Or.inr ⟨group, items, graph, pending, hgroup, hparse, hnodup, htaken, hsound, hb,
        hrewired, hrewire, hchanged _ hrewire⟩)
    · rw [hcycle _ err hrewire]
      exact Or.inl ((hs.refused_cycle hsound hb halike hclock).after_parse _ _)

/-- A group that is removed is refused, or its names are detached from the graph, its equations
destroyed, and the link changes announced. -/
theorem AtRest.removeGroup_outline (hs : s.AtRest) (id : GroupId) :
    Refused s (s.removeGroup id) ∨
      ∃ group graph pending, s.group? id = some group ∧ graph.Sound ∧ graph.inBatch = false ∧
        Rewired s.graph group.names [] graph ∧
        s.rewire group.names [] = ({ s with graph, pending }, .ok ()) ∧
        s.removeGroup id = (do
          (Announcement.groupRemoving group).send
          let s' ← group.names.foldlM destroy ({ s with graph, pending } : Sheet)
          let s' ← { s' with groups := s'.groups.erase id }.flush (.capture s.graph group.names [])
          pure (s', .ok ())) := by
  unfold removeGroup
  cases hgroup : s.group? id with
  | none => exact Or.inl (hs.refused_pure _)
  | some group =>
    rcases hs.rewire_cases group.names [] with ⟨graph, pending, hrewire, hsound, hb, hrewired⟩ |
      ⟨graph, err, hrewire, hsound, hb, halike, hclock⟩
    · right
      refine ⟨group, graph, pending, rfl, hsound, hb, hrewired List.nodup_nil, hrewire, ?_⟩
      simp only [hrewire]
    · left
      simp only [hrewire]
      exact hs.refused_cycle hsound hb halike hclock

/-- A statement that is added is refused, or its items are attached to the graph and make a group. -/
theorem AtRest.enterGroup_cases (hs : s.AtRest) (host : Host) (statement : String) :
    Refused s (s.enterGroup host statement) ∨
      ∃ items graph pending, host.parse .statement statement = .ok items ∧
        (items.map (·.name)).Nodup ∧ (∀ item ∈ items, s.hasEquation item.name = false) ∧
        graph.Sound ∧ graph.inBatch = false ∧ Rewired s.graph [] items graph ∧
        (s.enterGroup host statement).value =
          ({ (({ s with graph, pending } : Sheet).createGroup statement items).value.1 with
              pending := ∅ }, .ok (.serial s.created)) := by
  refine (hs.enterGroup_outline host statement).imp_right ?_
  rintro ⟨items, graph, pending, hparse, hnodup, htaken, hsound, hb, hrewired, -, heq⟩
  exact ⟨items, graph, pending, hparse, hnodup, htaken, hsound, hb, hrewired, by rw [heq]; rfl⟩

/-- A statement that replaces one is refused, is the same again, or the graph is rewired as it differs
from the group and the group is changed accordingly. -/
theorem AtRest.changeGroup_cases (hs : s.AtRest) (host : Host) (id : GroupId) (statement : String) :
    Refused s (s.changeGroup host id statement) ∨
      s.changeGroup host id statement = pure (s, .ok false) ∨
      ∃ group items graph pending, s.group? id = some group ∧
        host.parse .statement statement = .ok items ∧ (items.map (·.name)).Nodup ∧
        (∀ item ∈ (diff group items).added, s.hasEquation item.name = false) ∧
        graph.Sound ∧ graph.inBatch = false ∧
        ((((diff group items).attached).map (·.name)).Nodup →
          Rewired s.graph (diff group items).detached (diff group items).attached graph) ∧
        (s.changeGroup host id statement).value =
          ({ (({ s with graph, pending } : Sheet).applyDiff id statement items
                (diff group items)).value with pending := ∅ }, .ok true) := by
  refine (hs.changeGroup_outline host id statement).imp_right (Or.imp_right ?_)
  rintro ⟨group, items, graph, pending, hgroup, hparse, hnodup, htaken, hsound, hb, hrewired, -, heq⟩
  exact ⟨group, items, graph, pending, hgroup, hparse, hnodup, htaken, hsound, hb, hrewired,
    by rw [heq]; rfl⟩

/-- A group that is removed is refused, or its names are detached from the graph and its equations
destroyed. -/
theorem AtRest.removeGroup_cases (hs : s.AtRest) (id : GroupId) :
    Refused s (s.removeGroup id) ∨
      ∃ group graph pending, s.group? id = some group ∧ graph.Sound ∧ graph.inBatch = false ∧
        Rewired s.graph group.names [] graph ∧
        (s.removeGroup id).value =
          ({ (group.names.foldlM destroy ({ s with graph, pending } : Sheet)).value with
              groups := (group.names.foldlM destroy
                ({ s with graph, pending } : Sheet)).value.groups.erase id
              pending := ∅ }, .ok ()) := by
  refine (hs.removeGroup_outline id).imp_right ?_
  rintro ⟨group, graph, pending, hgroup, hsound, hb, hrewired, -, heq⟩
  exact ⟨group, graph, pending, hgroup, hsound, hb, hrewired, by rw [heq]; rfl⟩

/-! ## Rest is kept -/

/-- `Sheet.enterGroup` keeps a sheet at rest, refused or not. -/
theorem AtRest.enterGroup (hs : s.AtRest) (host : Host) (statement : String) :
    (s.enterGroup host statement).value.1.AtRest := by
  rcases hs.enterGroup_cases host statement with
    hrefused | ⟨items, graph, pending, -, -, -, hsound, hb, -, hvalue⟩
  · exact hrefused.atRest
  · have hcalm := calm_createGroup { s with graph, pending } statement items
    rw [hvalue]
    exact ⟨hsound.of_sameShape hcalm.graph, by rw [Graph.inBatch, hcalm.graph.journal]; exact hb, rfl⟩

/-- `Sheet.changeGroup` keeps a sheet at rest, refused or not. -/
theorem AtRest.changeGroup (hs : s.AtRest) (host : Host) (id : GroupId) (statement : String) :
    (s.changeGroup host id statement).value.1.AtRest := by
  rcases hs.changeGroup_cases host id statement with
    hrefused | hsame | ⟨group, items, graph, pending, -, -, -, -, hsound, hb, -, hvalue⟩
  · exact hrefused.atRest
  · rw [hsame]
    exact hs
  · have hcalm := calm_applyDiff { s with graph, pending } id statement items (diff group items)
    rw [hvalue]
    exact ⟨hsound.of_sameShape hcalm.graph, by rw [Graph.inBatch, hcalm.graph.journal]; exact hb, rfl⟩

/-- `Sheet.removeGroup` keeps a sheet at rest, refused or not. -/
theorem AtRest.removeGroup (hs : s.AtRest) (id : GroupId) : (s.removeGroup id).value.1.AtRest := by
  rcases hs.removeGroup_cases id with
    hrefused | ⟨group, graph, pending, -, hsound, hb, -, hvalue⟩
  · exact hrefused.atRest
  · have hcalm := Calm.foldlM calm_destroy group.names { s with graph, pending }
    rw [hvalue]
    exact ⟨hsound.of_sameShape hcalm.graph, by rw [Graph.inBatch, hcalm.graph.journal]; exact hb, rfl⟩

/-- Every operation keeps a sheet at rest. -/
theorem AtRest.perform (hs : s.AtRest) (host : Host) (op : SheetOperation) :
    (s.perform host op).value.1.AtRest := by
  cases op with
  | addGroup statement =>
    exact addGroup_induction (hs.enterGroup host statement) fun s' id _ hs' =>
      hs'.of_calm (calm_autoUpdate host s' id)
  | editGroup id statement =>
    exact editGroup_induction (hs.changeGroup host id statement) fun s' _ hs' =>
      hs'.of_calm (calm_autoUpdate host s' id)
  | removeGroup id => exact hs.removeGroup id
  | update scope => exact hs.of_calm (calm_update host s scope uncancelled)
  | updateUnless cancelled scope => exact hs.of_calm (calm_update host s scope cancelled)
  | updateOnly name => exact hs.of_calm (calm_updateOnly host s name)
  | eval expression => exact hs
  | reset => exact atRest_reset host s
  | setStatus name status message => exact hs.of_calm (calm_setStatus s name status message)

/-- The first step of a run, and what is left to be run. -/
theorem performEach_cons (s : Sheet) (step : Host × SheetOperation)
    (steps : List (Host × SheetOperation)) :
    s.performEach (step :: steps) = s.perform step.1 step.2 >>= fun r => r.1.performEach steps := by
  rw [performEach, List.foldlM_cons, bind_map_left]
  rfl

/-- The sheet after a run over one host, from that after its first operation. -/
theorem value_performAll_cons (host : Host) (s : Sheet) (op : SheetOperation)
    (operations : List SheetOperation) :
    (s.performAll host (op :: operations)).value =
      ((s.perform host op).value.1.performAll host operations).value := rfl

/-- What each of its operations keeps, a run keeps. -/
theorem performEach_induction {P : Sheet → Prop} {steps : List (Host × SheetOperation)}
    (hstep : ∀ step ∈ steps, ∀ s, P s → P (s.perform step.1 step.2).value.1) (h : P s) :
    P (s.performEach steps).value := by
  induction steps generalizing s with
  | nil => exact h
  | cons step steps ih =>
    rw [performEach_cons]
    rw [List.forall_mem_cons] at hstep
    exact ih hstep.2 (hstep.1 s h)

/-- Every run keeps a sheet at rest. -/
theorem AtRest.performEach (hs : s.AtRest) (steps : List (Host × SheetOperation)) :
    (s.performEach steps).value.AtRest :=
  performEach_induction (fun step _ _ h => h.perform step.1 step.2) hs

/-! ## Failed operations -/

/-- What follows an operation only if it did not fail is refused with it. -/
theorem Refused.bind {β : Type} {t : Traced Event (Sheet × Except SheetError β)}
    {next : Sheet × Except SheetError β → Traced Event (Sheet × Except SheetError α)}
    (h : Refused s t) (hnext : ∀ s' e, next (s', .error e) = pure (s', .error e)) :
    Refused s (t >>= next) := by
  obtain ⟨e, he⟩ := h.failed
  have hstop : next t.value = pure (t.value.1, .error e) := by
    rw [← hnext, ← he]
  refine ⟨⟨e, ?_⟩, ?_, ?_, fun event hevent => h.events event ?_⟩
  · rw [Traced.value_bind, hstop]
    rfl
  · rw [Traced.value_bind, hstop]
    exact h.sheet
  · rw [Traced.value_bind, hstop]
    exact h.atRest
  · rw [Traced.events_bind, hstop] at hevent
    simpa using hevent

/-- Adding a group fails only in being `Refused`: once the group is entered, the update after it cannot fail.
-/
theorem AtRest.refused_addGroup (hs : s.AtRest) {statement : String} {e : SheetError}
    (he : (s.addGroup host statement).value.2 = .error e) :
    Refused s (s.addGroup host statement) := by
  rcases hs.enterGroup_cases host statement with
    hrefused | ⟨items, graph, pending, -, -, -, -, -, -, hvalue⟩
  · exact hrefused.bind fun _ _ => rfl
  · rw [addGroup, Traced.value_bind, hvalue] at he
    cases he

/-- Editing a group fails only in being `Refused`. -/
theorem AtRest.refused_editGroup (hs : s.AtRest) {id : GroupId} {statement : String}
    {e : SheetError} (he : (s.editGroup host id statement).value.2 = .error e) :
    Refused s (s.editGroup host id statement) := by
  rcases hs.changeGroup_cases host id statement with
    hrefused | hsame | ⟨group, items, graph, pending, -, -, -, -, -, -, -, hvalue⟩
  · exact hrefused.bind fun _ _ => rfl
  · rw [editGroup, hsame] at he
    cases he
  · rw [editGroup, Traced.value_bind, hvalue] at he
    cases he

/-- Removing a group fails only in being `Refused`. -/
theorem AtRest.refused_removeGroup (hs : s.AtRest) {id : GroupId} {e : SheetError}
    (he : (s.removeGroup id).value.2 = .error e) : Refused s (s.removeGroup id) := by
  rcases hs.removeGroup_cases id with hrefused | ⟨group, graph, pending, -, -, -, -, hvalue⟩
  · exact hrefused
  · rw [hvalue] at he
    cases he

/-- An update fails only in being `Refused`, before its pass begins. -/
theorem AtRest.refused_update (hs : s.AtRest) {scope : UpdateScope} {cancelled : Nat → Bool}
    {e : SheetError} (he : (s.update host scope cancelled).value.2 = .error e) :
    Refused s (s.update host scope cancelled) := by
  unfold update at he ⊢
  cases horder : s.order scope with
  | error e' => exact hs.refused_pure e'
  | ok names =>
    rw [horder] at he
    cases he

/-- An update of one equation fails only in being `Refused`. -/
theorem AtRest.refused_updateOnly (hs : s.AtRest) {name : String} {e : SheetError}
    (he : (s.updateOnly host name).value.2 = .error e) : Refused s (s.updateOnly host name) := by
  unfold updateOnly at he ⊢
  split_ifs at he ⊢ with hname
  exact hs.refused_pure _

/-- Setting a status fails only in being `Refused`. -/
theorem AtRest.refused_setStatus (hs : s.AtRest) {name : String} {status : Status}
    {message : String} {e : SheetError} (he : (s.setStatus name status message).value.2 = .error e) :
    Refused s (s.setStatus name status message) := by
  unfold setStatus at he ⊢
  split_ifs at he ⊢ with hname
  exact hs.refused_pure _

/-- A reply of failure passes an error on. -/
theorem error_of_reply {reply : α → SheetReply} {r : Except SheetError α} {e : SheetError}
    (hreply : ∀ a, reply a ≠ .failed e) (hfailed : SheetReply.ofExcept reply r = .failed e) :
    r = .error e := by
  cases r with
  | error e' => exact congrArg _ (SheetReply.failed.inj hfailed)
  | ok a => exact absurd hfailed (hreply a)

/-- An operation whose reply tells that it failed was refused. -/
theorem refused_of_reply (t : Traced Event (Sheet × Except SheetError α)) {reply : α → SheetReply}
    {e : SheetError} (hreply : ∀ a, reply a ≠ .failed e)
    (hfailed : SheetReply.ofExcept reply t.value.2 = .failed e)
    (ht : t.value.2 = .error e → Refused s t) :
    SameSheet t.value.1 s ∧ ∀ event ∈ t.events ++ [], ∃ mode code, event = .parse mode code := by
  have hrefused : Refused s t := ht (error_of_reply hreply hfailed)
  rw [List.append_nil]
  exact ⟨hrefused.sheet, hrefused.events⟩

/-- An operation that fails on a sheet at rest is refused. -/
theorem AtRest.refused_perform (hs : s.AtRest) {op : SheetOperation} {e : SheetError}
    (hfailed : (s.perform host op).value.2 = .failed e) :
    SameSheet (s.perform host op).value.1 s ∧
      ∀ event ∈ (s.perform host op).events, ∃ mode code, event = .parse mode code := by
  have hcreated : ∀ id, SheetReply.created id ≠ .failed e := fun id => nofun
  have hchecked : ∀ n, SheetReply.checked n ≠ .failed e := fun n => nofun
  have hdone : SheetReply.done ≠ .failed e := nofun
  cases op with
  | addGroup statement =>
    exact refused_of_reply (s.addGroup host statement) hcreated hfailed hs.refused_addGroup
  | editGroup id statement =>
    exact refused_of_reply (s.editGroup host id statement) (fun _ => hdone) hfailed
      hs.refused_editGroup
  | removeGroup id =>
    exact refused_of_reply (s.removeGroup id) (fun _ => hdone) hfailed hs.refused_removeGroup
  | update scope =>
    exact refused_of_reply (s.update host scope uncancelled) (fun _ => hdone) hfailed
      hs.refused_update
  | updateUnless cancelled scope =>
    exact refused_of_reply (s.update host scope cancelled) hchecked hfailed hs.refused_update
  | updateOnly name =>
    exact refused_of_reply (s.updateOnly host name) (fun _ => hdone) hfailed hs.refused_updateOnly
  | eval expression => exact nomatch hfailed
  | reset => exact nomatch hfailed
  | setStatus name status message =>
    exact refused_of_reply (s.setStatus name status message) (fun _ => hdone) hfailed
      hs.refused_setStatus

/-- Whatever was done to a sheet, over whichever hosts: an operation that fails announces nothing, executes
nothing and issues no stamp, and it leaves the sheet as it was (`SameSheet`), with no open batch and no link
change waiting. -/
theorem unchanged_of_failed (host : Host) (options : Options) (store : Store)
    (steps : List (Host × SheetOperation)) (host' : Host) (op : SheetOperation) (e : SheetError)
    (hfailed : ((create host options store >>= (·.performEach steps)).value.perform host' op).value.2 =
      .failed e) :
    let s := (create host options store >>= (·.performEach steps)).value
    let t := s.perform host' op
    (∀ event ∈ t.events, ∃ mode code, event = .parse mode code) ∧ SameSheet t.value.1 s ∧
      t.value.1.graph.inBatch = false ∧ t.value.1.pending = ∅ := by
  intro s t
  have hs : s.AtRest := (atRest_create host options store).performEach steps
  have hkept : t.value.1.AtRest := hs.perform host' op
  obtain ⟨hsheet, hevents⟩ := hs.refused_perform hfailed
  exact ⟨hevents, hsheet, hkept.inBatch, hkept.pending⟩

/-- A host whose statements are names: `a` reads the name, and `b` reads `a`. -/
def chainHost : Host where
  parse _ text := .ok [{ name := "a", content := text, dependencies := [text] },
    { name := "b", content := "a", dependencies := ["a"] }]
  exec _ store := (.success none, store)
  eval _ _ := .success none

/-- Two equations in a row, evaluated. -/
def chain : Sheet :=
  (create chainHost {} {} >>= (·.performEach
    [(chainHost, .addGroup "c"), (chainHost, .update .all)])).value

/-- An edit that makes the two equations of `chain` depend on each other is refused and leaves no trace. -/
theorem unchanged_of_failed_edit :
    (chain.perform chainHost (.editGroup (.serial 0) "b")).value.2 =
        .failed (.cycle ⟨["b", "a", "b"]⟩) ∧
      SameSheet (chain.perform chainHost (.editGroup (.serial 0) "b")).value.1 chain := by
  have hfailed : (chain.perform chainHost (.editGroup (.serial 0) "b")).value.2 =
      .failed (.cycle ⟨["b", "a", "b"]⟩) := rfl
  obtain ⟨-, hsheet, -⟩ := unchanged_of_failed chainHost {} {}
    [(chainHost, .addGroup "c"), (chainHost, .update .all)] chainHost _ _ hfailed
  exact ⟨hfailed, hsheet⟩

end Recalc.Sheet
