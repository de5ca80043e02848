import Recalc.Proofs.Sheet.History
import Recalc.Proofs.Sheet.Pass

/-!
# Stamps along a run

An edit leaves the stamp and the edges of every equation whose text it leaves (`Kept`). An execution
leaves all stamps as they are, or gives its equation the next one, which is then later than any other;
and it does so only if the value of the equation changed or the equation had no stamp (`Restamped`).

`Orderly` puts together what later modules need to know of a step, and every step of a run is orderly
(`orderly_history`). It holds over any hosts.
-/

namespace Recalc.Sheet

open Recalc.Graph

variable {host : Host} {s s' s'' : Sheet} {name : String} {left : Store} {t : Step} {ts : List Step}

/-- The nodes are the names of the equations, and no stamp is later than the clock. -/
structure Timed (s : Sheet) : Prop where
  wired : s.Wired
  stampOf_le : ∀ n, s.graph.stampOf n ≤ s.graph.clock.last

/-- What has no equation has no stamp. -/
theorem Wired.stampOf_of_text?_eq_none (hs : s.Wired) {n : String} (hn : s.text? n = none) :
    s.graph.stampOf n = 0 := by
  by_contra hpos
  have hname := (hs.mem_names n).1 (mem_names_of_stampOf (Nat.pos_of_ne_zero hpos))
  rw [← isSome_text?, hn] at hname
  cases hname

/-- In a `Wired` sheet only names of equations have stamps. -/
theorem Wired.exists_text?_of_stampOf (hs : s.Wired) {n : String} (hn : 0 < s.graph.stampOf n) :
    ∃ text, s.text? n = some text :=
  Option.isSome_iff_exists.1 (isSome_text?.2 ((hs.mem_names n).1 (mem_names_of_stampOf hn)))

/-- An equation that was stamped is one that is there and is not unstamped. -/
theorem Wired.stampOf_pos_iff (hs : s.Wired) {n : String} :
    0 < s.graph.stampOf n ↔ s.equation? n ≠ none ∧ s.isUnstamped n = false := by
  have hnode : s.equation? n ≠ none ↔ n ∈ s.graph.names := by
    rw [hs.mem_names, Option.ne_none_iff_exists']
  rw [hnode]
  unfold isUnstamped
  constructor
  · intro hpos
    have hname := mem_names_of_stampOf hpos
    obtain ⟨node, hn⟩ := mem_names_iff.1 hname
    rw [stampOf_of_node? hn, Nat.pos_iff_ne_zero] at hpos
    exact ⟨hname, by simpa [hn, Stamp.never] using hpos⟩
  · rintro ⟨hname, hstamp⟩
    obtain ⟨node, hn⟩ := mem_names_iff.1 hname
    rw [stampOf_of_node? hn, Nat.pos_iff_ne_zero]
    simpa [hn, Stamp.never] using hstamp

/-! ## Edits -/

/-- Equations that keep their texts keep their stamps and edges, and stamps stay within the clock. -/
structure Kept (s s' : Sheet) : Prop where
  timed : s'.Timed
  stampOf : ∀ n text, s.text? n = some text → s'.text? n = some text →
    s'.graph.stampOf n = s.graph.stampOf n
  mem_edges : ∀ n text, s.text? n = some text → s'.text? n = some text → ∀ d,
    ⟨n, d⟩ ∈ s'.graph.edges.toList ↔ ⟨n, d⟩ ∈ s.graph.edges.toList

/-- Sheets that are the same keep stamps and edges. -/
theorem SameSheet.kept (h : SameSheet s' s) (hs : s.Timed) (hrest : s'.AtRest) : Kept s s' where
  timed := by
    refine ⟨hs.wired.of_sameLinks (h.sameLinks hs.wired.booked hrest), fun n => ?_⟩
    rw [stampOf_congr (h.mark? n), h.clock]
    exact hs.stampOf_le n
  stampOf := fun n _ _ _ => stampOf_congr (h.mark? n)
  mem_edges := fun n _ _ _ d => h.mem_edges ⟨n, d⟩

namespace Edited

variable {graph : Graph} {detached seeds : List String} {attached : List ParseItem}

/-- An equation that keeps its text was neither detached nor attached, if all that was attached says
something new. -/
theorem not_mem_of_text? (h : Edited s graph detached attached seeds s')
    (hnew : ∀ item ∈ attached, s.text? item.name ≠ some item.text) {n : String}
    {text : String × String × ItemKind} (hn : s.text? n = some text) (hn' : s'.text? n = some text) :
    n ∉ detached ∧ n ∉ attached.map (·.name) := by
  have hattached : n ∉ attached.map (·.name) := by
    intro hmem
    obtain ⟨item, hitem, rfl⟩ := List.mem_map.1 hmem
    rw [h.text?_of_attached item hitem] at hn'
    exact hnew item hitem (hn.trans hn'.symm)
  refine ⟨fun hdetached => ?_, hattached⟩
  rw [h.text?_of_gone n hdetached hattached] at hn'
  cases hn'

/-- An edit that gives every attached item a new text keeps the stamps and edges of the other equations. -/
theorem kept (h : Edited s graph detached attached seeds s') (hs : s.Timed) (hrest : s'.AtRest)
    (hfresh : ∀ n ∈ attached.map (·.name), n ∈ detached ∨ n ∉ s.graph.names)
    (hnew : ∀ item ∈ attached, s.text? item.name ≠ some item.text) : Kept s s' where
  timed := by
    refine ⟨h.wired hs.wired hrest, fun n => ?_⟩
    rw [h.marked.stampOf, h.marked.clock, h.rewired.clock]
    rcases Nat.eq_zero_or_pos (graph.stampOf n) with hzero | hpos
    · rw [hzero]
      exact Nat.zero_le _
    · rw [(h.rewired.kept_of_stampOf hfresh hpos).1]
      exact hs.stampOf_le n
  stampOf := by
    intro n text hn hn'
    obtain ⟨hdetached, hattached⟩ := h.not_mem_of_text? hnew hn hn'
    rw [h.marked.stampOf, stampOf_congr (h.rewired.mark?_of_kept n hdetached hattached)]
  mem_edges := by
    intro n text hn hn' d
    obtain ⟨hdetached, hattached⟩ := h.not_mem_of_text? hnew hn hn'
    rw [h.marked.shape.edges, h.rewired.mem_edges_of_kept hdetached hattached]

end Edited

/-- What has no equation has no text. -/
theorem text?_of_hasEquation_eq_false (hs : s.Booked) {n : String} (hn : s.hasEquation n = false) :
    s.text? n = none := by
  rw [← Option.not_isSome_iff_eq_none, isSome_text?, ← hs.hasEquation_iff, hn]
  exact Bool.false_ne_true

/-- An item that is updated says something new of its equation. -/
theorem text?_ne_of_mem_updated (hs : s.Booked) {id : GroupId} {group : Group}
    {items : List ParseItem} {item : ParseItem} (hgroup : s.group? id = some group)
    (hitem : item ∈ (diff group items).updated) : s.text? item.name ≠ some item.text := by
  obtain ⟨e, he⟩ := get?_of_mem_updated hitem
  have hchanged := (List.mem_filter.1 hitem).2
  rw [he] at hchanged
  rw [text?, hs.equation?_of_entryIn? ((entryIn?_of_group? hgroup item.name).trans he)]
  intro htext
  have hsame : e.text = item.text := Option.some.inj htext
  have hcontent : e.content = item.content := congrArg (fun t => t.2.1) hsame
  have hkind : e.kind = item.kind := congrArg (fun t => t.2.2) hsame
  simp [hcontent, hkind] at hchanged

namespace Timed

/-- Entering a group keeps the stamps and edges of the equations there were. -/
theorem kept_enterGroup (hs : s.Timed) (host : Host) (statement : String) :
    Kept s (s.enterGroup host statement).value.1 := by
  have hrest := hs.wired.atRest.enterGroup host statement
  rcases hs.wired.atRest.enterGroup_cases host statement with
    hrefused | ⟨items, graph, pending, -, hnodup, htaken, hsound, -, hrewired, hvalue⟩
  · exact hrefused.sheet.kept hs hrest
  · have hedited := edited_createGroup hs.wired.booked hsound.wellFormed pending statement hnodup
      htaken hrewired
    rw [hvalue] at hrest ⊢
    refine (hedited.withPending ∅).kept hs hrest (fun n hn => ?_) fun item hitem => ?_
    · obtain ⟨item, hitem, rfl⟩ := List.mem_map.1 hn
      exact Or.inr (hs.wired.not_mem_names (htaken item hitem))
    · rw [text?_of_hasEquation_eq_false hs.wired.booked (htaken item hitem)]
      exact (Option.some_ne_none _).symm

/-- Removing a group keeps the stamps and edges of the equations that stay. -/
theorem kept_removeGroup (hs : s.Timed) (id : GroupId) : Kept s (s.removeGroup id).value.1 := by
  have hrest := hs.wired.atRest.removeGroup id
  rcases hs.wired.atRest.removeGroup_cases id with
    hrefused | ⟨group, graph, pending, hgroup, hsound, -, hrewired, hvalue⟩
  · exact hrefused.sheet.kept hs hrest
  · have hedited := edited_dropGroup hs.wired.booked hsound.wellFormed pending ∅ hgroup hrewired
    rw [hvalue] at hrest ⊢
    exact hedited.kept hs hrest (fun n hn => absurd hn List.not_mem_nil)
      fun item hitem => absurd hitem List.not_mem_nil

/-- Giving a group another statement keeps the stamps and edges of the equations whose texts stay. -/
theorem kept_changeGroup (hs : s.Timed) (host : Host) (id : GroupId) (statement : String) :
    Kept s (s.changeGroup host id statement).value.1 := by
  have hbooked := hs.wired.booked
  have hrest := hs.wired.atRest.changeGroup host id statement
  rcases hs.wired.atRest.changeGroup_cases host id statement with
    hrefused | hsame | ⟨group, items, graph, pending, hgroup, hparse, hnodup, htaken, hsound, -,
      hrewired, hvalue⟩
  · exact hrefused.sheet.kept hs hrest
  · rw [hsame] at hrest ⊢
    exact (SameSheet.refl s).kept hs hrest
  · have hattached := nodup_attached group hnodup
    have hedited := edited_applyDiff hbooked hsound.wellFormed pending statement hgroup hnodup htaken
      (hrewired hattached)
    rw [hvalue] at hrest ⊢
    refine (hedited.withPending ∅).kept hs hrest (hs.wired.fresh_attached htaken) fun item hitem => ?_
    rcases List.mem_append.1 hitem with hadded | hupdated
    · rw [text?_of_hasEquation_eq_false hbooked (htaken item hadded)]
      exact (Option.some_ne_none _).symm
    · exact text?_ne_of_mem_updated hbooked hgroup hupdated

end Timed

theorem Vacant.timed (h : s.Vacant) : s.Timed := by
  refine ⟨h.wired, fun n => ?_⟩
  have hn : s.text? n = none := by rw [text?, h.equation?]; rfl
  rw [h.wired.stampOf_of_text?_eq_none hn]
  exact Nat.zero_le _

/-- A vacant sheet has no equation whose stamp or edges could differ. -/
theorem Vacant.kept (h : s'.Vacant) (s : Sheet) : Kept s s' := by
  have hnone : ∀ n text, ¬ s'.text? n = some text := by
    intro n text hn
    rw [text?, h.equation?] at hn
    cases hn
  exact ⟨h.timed, fun n text _ hn => absurd hn (hnone n text),
    fun n text _ hn => absurd hn (hnone n text)⟩

/-! ## Executions -/

/-- What executing an equation does to the stamps: all of them stay, or its own becomes the next one,
because its value changed, be it only for a while, or it had no stamp. -/
inductive Restamped (s : Sheet) (name : String) (left : Store) (s' : Sheet) : Prop
  | kept (stampOf : ∀ n, s'.graph.stampOf n = s.graph.stampOf n)
      (clock : s'.graph.clock = s.graph.clock) : Restamped s name left s'
  | renewed
      (stampOf : ∀ n, s'.graph.stampOf n =
        if n = name then s.graph.clock.last + 1 else s.graph.stampOf n)
      (clock : s'.graph.clock.last = s.graph.clock.last + 1)
      (changed : s.graph.stampOf name = 0 ∨ (left.get? name != s.value? name) = true ∨
        (s'.value? name != s.value? name) = true) : Restamped s name left s'

namespace Restamped

/-- A step that leaves the graph leaves the stamps. -/
theorem of_graph_eq (h : s'.graph = s.graph) : Restamped s name left s' :=
  .kept (fun n => by rw [h]) (by rw [h])

/-- Marks that are set or cleared before and after the execution make no difference. -/
theorem of_marks {u u' : Sheet} (h : Restamped s name left s')
    (hbefore : ∀ n, s.graph.stampOf n = u.graph.stampOf n) (hclock : s.graph.clock = u.graph.clock)
    (hstore : s.store = u.store) (hafter : ∀ n, u'.graph.stampOf n = s'.graph.stampOf n)
    (hclock' : u'.graph.clock = s'.graph.clock) (hstore' : u'.store = s'.store) :
    Restamped u name left u' := by
  cases h with
  | kept stampOf clock =>
    exact .kept (fun n => by rw [hafter, stampOf, hbefore]) (by rw [hclock', clock, hclock])
  | renewed stampOf clock changed =>
    refine .renewed (fun n => ?_) ?_ ?_
    · rw [hafter, stampOf, hbefore, hclock]
    · rw [hclock', clock, hclock]
    · unfold value? at changed ⊢
      rwa [hstore', ← hstore, ← hbefore]

/-- An execution leaves the stamps of the other names. -/
theorem stampOf_of_ne (h : Restamped s name left s') {n : String} (hn : n ≠ name) :
    s'.graph.stampOf n = s.graph.stampOf n := by
  cases h with
  | kept stampOf => exact stampOf n
  | renewed stampOf => rw [stampOf, if_neg hn]

/-- Stamps only grow, and stay within the clock. -/
theorem stampOf_mono (h : Restamped s name left s') (hs : s.Timed) (n : String) :
    s.graph.stampOf n ≤ s'.graph.stampOf n ∧ s'.graph.stampOf n ≤ s'.graph.clock.last := by
  have hle := hs.stampOf_le n
  cases h with
  | kept stampOf clock =>
    rw [stampOf, clock]
    exact ⟨le_rfl, hle⟩
  | renewed stampOf clock =>
    rw [stampOf, clock]
    split_ifs
    · exact ⟨hle.trans (Nat.le_succ _), le_rfl⟩
    · exact ⟨le_rfl, hle.trans (Nat.le_succ _)⟩

/-- A stamp that is renewed is later than all others. -/
theorem stampOf_lt (h : Restamped s name left s') (hs : s.Timed)
    (hrenewed : s'.graph.stampOf name ≠ s.graph.stampOf name) {d : String} (hd : d ≠ name) :
    s'.graph.stampOf d < s'.graph.stampOf name := by
  cases h with
  | kept stampOf => exact absurd (stampOf name) hrenewed
  | renewed stampOf =>
    rw [stampOf, stampOf, if_neg hd, if_pos rfl]
    exact Nat.lt_succ_of_le (hs.stampOf_le d)

end Restamped

/-- A name without a stamp has stamp zero. -/
theorem stampOf_of_isUnstamped (h : s.isUnstamped name = true) : s.graph.stampOf name = 0 := by
  unfold isUnstamped at h
  cases hn : s.graph.node? name with
  | none =>
    rw [hn] at h
    cases h
  | some node =>
    rw [stampOf_of_node? hn]
    simpa [hn, Stamp.never] using h

/-- An execution that stamps its node anew is accounted for if the node had no stamp or its value changed. -/
theorem restamped_of_touch (hgraph : s'.graph = (s.graph.touch name).1)
    (hchanged : s.graph.stampOf name = 0 ∨ (left.get? name != s.value? name) = true ∨
      (s'.value? name != s.value? name) = true) : Restamped s name left s' := by
  have hclock := clock_touch s.graph name
  rw [← hgraph] at hclock
  by_cases hname : name ∈ s.graph.names
  · rw [if_pos hname] at hclock
    refine .renewed (fun n => ?_) (by rw [hclock]) hchanged
    rw [hgraph]
    split_ifs with hn
    · rw [hn, stampOf_touch hname]
    · exact stampOf_touch_of_ne hn
  · refine .of_graph_eq ?_
    rw [hgraph, touch, if_neg fun h => hname (hasNode_iff.1 h)]

/-- A value that is taken away was new, or took the place of the one before. -/
theorem ne_or_removed_ne {store : Store} (h : (store.remove name).2 = true) (v : Option Json) :
    (store.get? name != v) = true ∨ ((store.remove name).1.get? name != v) = true := by
  cases v with
  | none =>
    have hcontains : store.values.contains name = true := h
    obtain ⟨w, hw⟩ := Option.isSome_iff_exists.1
      (OrderedMap.isSome_get?.2 (OrderedMap.contains_eq_true.1 hcontains))
    have hget : store.get? name = some w := hw
    rw [hget]
    exact Or.inl rfl
  | some w =>
    have hgone : (store.remove name).1.get? name = none := by simp [Store.remove, Store.get?]
    rw [hgone]
    exact Or.inr rfl

/-- Executing an equation restamps it at most. -/
theorem restamped_evaluate (host : Host) (s : Sheet) (name : String) :
    Restamped s name (s.storeLeft host name) (s.evaluate host name).value := by
  rw [value_evaluate, storeLeft]
  cases s.equation? name with
  | none => exact .of_graph_eq rfl
  | some e =>
    dsimp only
    set outcome := (host.exec e.code s.store).1
    set after := (host.exec e.code s.store).2
    cases hstatus : outcome.isSuccess with
    | true =>
      rw [conclude_of_success hstatus]
      by_cases hchanged : (after.get? name != s.store.get? name) = true
      · rw [if_pos hchanged]
        refine restamped_of_touch (sameOutside_setResult _ name _ _).graph (Or.inr (Or.inl ?_))
        exact hchanged
      · rw [if_neg hchanged]
        exact .of_graph_eq (sameOutside_setResult _ name _ _).graph
    | false =>
      rw [conclude_of_failure hstatus]
      by_cases hchanged : ((after.remove name).2 || s.isUnstamped name) = true
      · rw [if_pos hchanged]
        refine restamped_of_touch (sameOutside_setResult _ name _ _).graph ?_
        rcases Bool.or_eq_true_iff.1 hchanged with hwas | hunstamped
        · right
          rw [value?, value?, (sameOutside_setResult _ name _ _).store]
          exact ne_or_removed_ne hwas _
        · exact Or.inl (stampOf_of_isUnstamped hunstamped)
      · rw [if_neg hchanged]
        exact .of_graph_eq (sameOutside_setResult _ name _ _).graph

/-! ## Orderly steps -/

/-- A step stirs nothing of a name if it leaves its text and its value, also for the while in which the code
runs. -/
theorem Step.stirs_eq_false_iff {n : String} :
    t.stirs n = false ↔ t.after.text? n = t.before.text? n ∧
      (t.left.get? n != t.before.value? n) = false ∧
      (t.after.value? n != t.before.value? n) = false := by
  rw [Step.stirs, Bool.or_eq_false_iff, Bool.or_eq_false_iff, bne_eq_false_iff_eq, and_assoc]

/-- What a step does to stamps and edges. -/
structure Step.Orderly (t : Step) : Prop where
  before : t.before.Timed
  after : t.after.Timed
  stampOf_le : ∀ n text, t.before.text? n = some text → t.after.text? n = some text →
    t.before.graph.stampOf n ≤ t.after.graph.stampOf n
  stampOf_eq : ∀ n, t.stirs n = false → 0 < t.before.graph.stampOf n →
    t.after.graph.stampOf n = t.before.graph.stampOf n
  mem_edges : ∀ n text, t.before.text? n = some text → t.after.text? n = some text → ∀ d,
    ⟨n, d⟩ ∈ t.after.graph.edges.toList ↔ ⟨n, d⟩ ∈ t.before.graph.edges.toList
  restamped : ∀ n, t.executed = some n → Restamped t.before n t.left t.after
  needsEvaluation : ∀ n, t.executed = some n → t.inPass = true →
    t.before.graph.needsEvaluation n = true

/-- A quiet step that keeps stamps and edges is orderly. -/
theorem Kept.orderly (h : Kept s s') (hs : s.Timed) : (Step.quiet s s').Orderly where
  before := hs
  after := h.timed
  stampOf_le := fun n text hn hn' => (h.stampOf n text hn hn').ge
  stampOf_eq := by
    intro n hstirs hpos
    obtain ⟨text, hn⟩ := hs.wired.exists_text?_of_stampOf hpos
    exact h.stampOf n text hn ((Step.stirs_eq_false_iff.1 hstirs).1.trans hn)
  mem_edges := h.mem_edges
  restamped := fun n h => nomatch h
  needsEvaluation := fun n h => nomatch h

/-- A step that changes neither nodes, edges nor texts and restamps one name at most is orderly. -/
theorem Restamped.orderly (h : Restamped t.before name t.left t.after) (hs : t.before.Timed)
    (hcalm : Calm t.after t.before) (hbooks : SameBooks t.after t.before)
    (hname : ∀ n, t.executed = some n → n = name)
    (hneeds : t.inPass = true → t.before.graph.needsEvaluation name = true) : t.Orderly where
  before := hs
  after := ⟨hbooks.wired hcalm hs.wired, fun n => (h.stampOf_mono hs n).2⟩
  stampOf_le := fun n _ _ _ => (h.stampOf_mono hs n).1
  stampOf_eq := by
    intro n hstirs hpos
    by_cases hn : n = name
    · subst hn
      obtain ⟨-, hleft, hvalue⟩ := Step.stirs_eq_false_iff.1 hstirs
      cases h with
      | kept stampOf => exact stampOf n
      | renewed stampOf clock changed =>
        rw [hleft, hvalue] at changed
        simp [Nat.pos_iff_ne_zero.1 hpos] at changed
    · exact h.stampOf_of_ne hn
  mem_edges := fun n _ _ _ d => by rw [hcalm.graph.edges]
  restamped := by
    intro n hn
    rw [hname n hn]
    exact h
  needsEvaluation := by
    intro n hn hpass
    rw [hname n hn]
    exact hneeds hpass

/-- A visit of an update pass is an orderly step. -/
theorem orderly_visitStep (host : Host) (cancelled : Nat → Bool) {p : UpdatePass}
    (hs : p.sheet.Timed) (name : String) : (visitStep host cancelled p name).Orderly := by
  have hcalm := calm_visit host cancelled p name
  have hbooks := sameBooks_visit host cancelled p name
  rw [← after_visitStep] at hcalm hbooks
  rcases visitStep_cases host cancelled p name with ⟨hneeds, hstep⟩ | hstep | hstep | hstep <;>
    rw [hstep] at hcalm hbooks ⊢
  · have hclean := restamped_evaluate host (p.sheet.markClean name) name
    have hstamps : Restamped p.sheet name (p.sheet.storeLeft host name)
        ((p.sheet.markClean name).evaluate host name).value :=
      hclean.of_marks (stampOf_markClean p.sheet.graph name) rfl rfl (fun _ => rfl) rfl rfl
    exact hstamps.orderly hs hcalm hbooks (fun n hn => (Option.some.inj hn).symm) fun _ => hneeds
  · have hstamps : Restamped p.sheet name (p.sheet.setResult name .interrupted "interrupted").store
        (p.sheet.setResult name .interrupted "interrupted") :=
      .of_graph_eq (sameOutside_setResult p.sheet name _ _).graph
    exact hstamps.orderly hs hcalm hbooks (fun n hn => nomatch hn) fun hpass => nomatch hpass
  · have hstamps : Restamped p.sheet name (p.sheet.markClean name).store (p.sheet.markClean name) :=
      .kept (stampOf_markClean p.sheet.graph name) (clock_markClean p.sheet.graph name)
    exact hstamps.orderly hs hcalm hbooks (fun n hn => nomatch hn) fun hpass => nomatch hpass
  · have hstamps : Restamped p.sheet name p.sheet.store p.sheet := .of_graph_eq rfl
    exact hstamps.orderly hs hcalm hbooks (fun n hn => nomatch hn) fun hpass => nomatch hpass

/-! ## Every step of a run is orderly -/

theorem orderly_updateOnly (host : Host) (hs : s.Timed) (hname : s.hasEquation name = true) :
    (Step.execution host s name (s.updateOnly host name).value.1 false).Orderly := by
  refine Restamped.orderly ?_ hs (calm_updateOnly host s name) (sameBooks_updateOnly host s name)
    (fun n hn => (Option.some.inj hn).symm) fun hpass => nomatch hpass
  show Restamped s name (s.storeLeft host name) (s.updateOnly host name).value.1
  rw [value_updateOnly host hname]
  have hmarked : Marked (s.evaluate host name).value.graph [name]
      ((s.evaluate host name).value.invalidate name).graph :=
    ((calm_evaluate host s name).graph.wellFormed
      hs.wired.atRest.sound.wellFormed).marked_invalidate name
  refine (restamped_evaluate host s name).of_marks (fun _ => rfl) rfl rfl (fun n => ?_) ?_ rfl
  · exact (stampOf_markClean _ name n).trans (hmarked.stampOf n)
  · exact hmarked.clock

/-- A step that leaves the graph alone is orderly. -/
theorem Timed.orderly_of_graph_eq (hs : s.Timed) (hgraph : s'.graph = s.graph)
    (hcalm : Calm s' s) (hbooks : SameBooks s' s) : (Step.quiet s s').Orderly := by
  have hstamps : Restamped s "" s'.store s' := .of_graph_eq hgraph
  exact hstamps.orderly hs hcalm hbooks (fun _ hn => nomatch hn) fun hpass => nomatch hpass

theorem orderly_setStatus (hs : s.Timed) (name : String) (status : Status) (message : String) :
    (Step.quiet s (s.setStatus name status message).value.1).Orderly := by
  refine hs.orderly_of_graph_eq ?_ (calm_setStatus s name status message)
    (sameBooks_setStatus s name status message)
  unfold setStatus
  split_ifs
  · exact (sameOutside_setResult s name status message).graph
  · rfl

/-- The steps of an operation are orderly. -/
theorem orderly_steps (host : Host) (hs : s.Timed) (op : SheetOperation) :
    ∀ t ∈ s.steps host op, t.Orderly := by
  refine steps_induction (P := Timed) (Q := Step.Orderly) (fun t h => h.after) ?_ ?_ ?_ ?_ ?_ ?_ ?_ ?_ hs
  · exact fun cancelled p name h => orderly_visitStep host cancelled h name
  · exact fun s statement h => (h.kept_enterGroup host statement).orderly h
  · exact fun s id statement h => (h.kept_changeGroup host id statement).orderly h
  · exact fun s id h => (h.kept_removeGroup id).orderly h
  · exact fun s name h hname => orderly_updateOnly host h hname
  · exact fun s h => ((vacant_reset host s).kept s).orderly h
  · exact fun s h => h.orderly_of_graph_eq rfl (Calm.refl s) (SameBooks.refl s)
  · exact fun name status message _ => orderly_setStatus hs name status message

/-- The steps of a run are orderly. -/
theorem orderly_history (hs : s.Timed) (operations : List (Host × SheetOperation)) :
    ∀ t ∈ s.history operations, t.Orderly :=
  history_induction (fun _ h => h.after) (fun operation _ _ h => orderly_steps operation.1 h operation.2) hs

end Recalc.Sheet
