import Recalc.Proofs.Sheet.Sweep

/-!
# Cancelled updates

An update that is cancelled asks once for each dirty equation that it comes to, until the answer is yes.
Since attending to an equation clears no other flag, the equations that it asks for are the ones that were
dirty at the start, in their order (`filter_isDirty_attends`). So it agrees with an update that is not
cancelled as long as the answer is no (`visits_of_no`), and the first yes decides at which equation the two
part: from there on, it tells of the equations left that they were interrupted, and does nothing else
(`visits_of_yes`).
-/

namespace Recalc.Sheet

open Recalc.Graph

variable {host : Host} {s : Sheet} {p : UpdatePass} {cancelled : Nat → Bool} {scope : UpdateScope}
  {names done rest : List String} {name n : String} {i : Nat}

/-! ## Passes that are not cancelled -/

/-- Attend to one equation, as a pass that is not interrupted does, with the events. -/
def attendTo (host : Host) (s : Sheet) (name : String) : Traced Event Sheet :=
  if s.isDirty name then
    if s.graph.needsEvaluation name then (s.markClean name).evaluate host name
    else pure (s.markClean name)
  else pure s

/-- Attend to some equations, one after the other. -/
def pass (host : Host) (s : Sheet) (names : List String) : Traced Event Sheet :=
  names.foldlM (attendTo host) s

/-- The value of a pass that is not interrupted, without its events. -/
theorem value_pass (host : Host) (s : Sheet) (names : List String) :
    (s.pass host names).value = names.foldl (attend host) s := by
  have hattend : (fun s name => (attendTo host s name).value) = attend host := by
    funext s name
    unfold attendTo attend refresh
    split_ifs <;> rfl
  rw [pass, Traced.value_foldlM, hattend]

/-- A pass over two lists goes over the first one and then over the second one, events included. -/
theorem pass_append (host : Host) (s : Sheet) (done rest : List String) :
    s.pass host (done ++ rest) = s.pass host done >>= (·.pass host rest) := List.foldlM_append

/-- A visit of a pass that is never cancelled attends to the equation, events included. -/
theorem sheet_visit_uncancelled (hp : p.interrupted = false) (name : String) :
    (·.sheet) <$> p.visit host uncancelled name = p.sheet.attendTo host name := by
  unfold UpdatePass.visit attendTo
  rw [check_uncancelled hp]
  by_cases hdirty : p.sheet.isDirty name = true
  · by_cases hneeds : p.sheet.graph.needsEvaluation name = true
    · simp [hdirty, hneeds, hp, UpdatePass.withSheet]
    · simp [hdirty, hneeds, hp]
  · simp [hdirty]

/-- What an update does that is not cancelled. -/
theorem sheet_visits_uncancelled (hp : p.interrupted = false) (names : List String) :
    (·.sheet) <$> names.foldlM (UpdatePass.visit host uncancelled) p = p.sheet.pass host names := by
  induction names generalizing p with
  | nil => rfl
  | cons name names ih =>
    have hrest := ih (interrupted_visit_uncancelled host name hp)
    rw [List.foldlM_cons, map_bind, pass, List.foldlM_cons, ← sheet_visit_uncancelled hp, bind_map_left]
    exact Traced.bind_congr_value hrest

/-! ## Which equations are asked for -/

/-- A pass leaves the flags of what it does not list. -/
theorem filter_isDirty_attends (host : Host) (s : Sheet) (done : List String)
    (hrest : ∀ n ∈ rest, n ∉ done) :
    rest.filter (done.foldl (attend host) s).isDirty = rest.filter s.isDirty := by
  refine List.filter_congr fun n hn => ?_
  rw [Bool.eq_iff_iff, isDirty_attends]
  exact and_iff_left (hrest n hn)

/-- A visit of a pass that is never cancelled cleans its own name and leaves what is dirty among others. -/
theorem filter_isDirty_visit (hp : p.interrupted = false) (hname : name ∉ names) :
    names.filter (p.visit host uncancelled name).value.sheet.isDirty = names.filter p.sheet.isDirty := by
  rw [sheet_visit, if_neg (by rw [interrupted_visit_uncancelled host name hp]; exact Bool.false_ne_true)]
  exact filter_isDirty_attends host p.sheet [name]
    fun n hn => by simpa using ne_of_mem_of_not_mem hn hname

/-- A visit of a pass that is never cancelled asks once if its name is dirty, and not at all otherwise. -/
theorem checks_visit_uncancelled (hp : p.interrupted = false) (name : String) :
    (p.visit host uncancelled name).value.checks =
      if p.sheet.isDirty name then p.checks + 1 else p.checks := by
  rw [value_visit, check_uncancelled hp]
  split_ifs <;> rfl

/-- A pass asks once for each equation that was dirty at the start. -/
theorem checks_visits_uncancelled (host : Host) (hp : p.interrupted = false) (hnodup : names.Nodup) :
    (names.foldlM (UpdatePass.visit host uncancelled) p).value.checks =
      p.checks + (names.filter p.sheet.isDirty).length := by
  induction names generalizing p with
  | nil => rfl
  | cons name names ih =>
    rw [List.nodup_cons] at hnodup
    rw [List.foldlM_cons, Traced.value_bind, ih (interrupted_visit_uncancelled host name hp) hnodup.2,
      filter_isDirty_visit hp hnodup.1, checks_visit_uncancelled hp, List.filter_cons]
    split_ifs
    · rw [List.length_cons]
      omega
    · rfl

/-! ## As long as the answer is no -/

/-- A visit for which the answer is no does what it does in a pass that is never cancelled. -/
theorem visit_of_no (hno : p.sheet.isDirty name = true → cancelled p.checks = false) :
    p.visit host cancelled name = p.visit host uncancelled name := by
  unfold UpdatePass.visit
  split_ifs with hdirty
  · have hcheck : p.check cancelled = p.check uncancelled := by
      unfold UpdatePass.check
      simp only [hno hdirty, uncancelled]
    rw [hcheck]
  · rfl

/-- If each answer is no, it makes no difference that there was a question. -/
theorem visits_of_no (host : Host) (cancelled : Nat → Bool) (hp : p.interrupted = false)
    (hnodup : names.Nodup)
    (hno : ∀ j < (names.filter p.sheet.isDirty).length, cancelled (p.checks + j) = false) :
    names.foldlM (UpdatePass.visit host cancelled) p =
      names.foldlM (UpdatePass.visit host uncancelled) p := by
  induction names generalizing p with
  | nil => rfl
  | cons name names ih =>
    rw [List.nodup_cons] at hnodup
    have hvisit : p.visit host cancelled name = p.visit host uncancelled name := by
      refine visit_of_no fun hdirty => hno 0 ?_
      rw [List.filter_cons_of_pos hdirty]
      exact Nat.succ_pos _
    rw [List.foldlM_cons, List.foldlM_cons, hvisit]
    apply Traced.bind_congr_value
    apply ih (interrupted_visit_uncancelled host name hp) hnodup.2
    intro j hj
    rw [filter_isDirty_visit hp hnodup.1] at hj
    rw [checks_visit_uncancelled hp]
    split_ifs with hdirty
    · -- The first question was for this equation.
      have hlater := hno (j + 1) (by rw [List.filter_cons_of_pos hdirty, List.length_cons]; omega)
      rwa [← Nat.add_assoc, Nat.add_right_comm] at hlater
    · exact hno j (by rwa [List.filter_cons_of_neg hdirty])

/-! ## From the first yes on -/

/-- Telling of one equation changes no flag. -/
theorem filter_isDirty_markInterrupted (s : Sheet) (name : String) (names : List String) :
    names.filter (s.markInterrupted name).value.isDirty = names.filter s.isDirty :=
  List.filter_congr fun n _ => isDirty_setResult s name _ _ n

/-- A pass that is interrupted tells of its dirty equations, and does nothing else. -/
theorem visits_of_interrupted (hp : p.interrupted = true) (names : List String) :
    names.foldlM (UpdatePass.visit host cancelled) p =
      (fun sheet => { p with sheet }) <$>
        (names.filter p.sheet.isDirty).foldlM markInterrupted p.sheet := by
  induction names generalizing p with
  | nil => rfl
  | cons name names ih =>
    rw [List.foldlM_cons]
    by_cases hdirty : p.sheet.isDirty name = true
    · have hvisit : p.visit host cancelled name = p.withSheet (p.sheet.markInterrupted name) := by
        unfold UpdatePass.visit
        rw [if_pos hdirty, check_of_interrupted cancelled hp, if_pos hp]
      have hnext := ih (p := { p with sheet := (p.sheet.markInterrupted name).value }) hp
      rw [filter_isDirty_markInterrupted] at hnext
      rw [hvisit, List.filter_cons_of_pos hdirty, List.foldlM_cons, map_bind, UpdatePass.withSheet,
        bind_assoc]
      exact Traced.bind_congr_value (by rw [pure_bind, hnext])
    · have hvisit : p.visit host cancelled name = pure p := if_neg hdirty
      rw [hvisit, pure_bind, ih hp, List.filter_cons_of_neg hdirty]

/-- If the next answer is yes, a pass with a dirty equation is interrupted by one more question. -/
theorem visits_of_yes (hp : p.interrupted = false) (hyes : cancelled p.checks = true)
    (hdirty : names.filter p.sheet.isDirty ≠ []) :
    names.foldlM (UpdatePass.visit host cancelled) p =
      (fun sheet => ⟨sheet, p.checks + 1, true⟩) <$>
        (names.filter p.sheet.isDirty).foldlM markInterrupted p.sheet := by
  induction names with
  | nil => exact absurd rfl hdirty
  | cons name names ih =>
    by_cases hname : p.sheet.isDirty name = true
    · -- Once the question is asked, the pass goes on as if it had been interrupted before.
      have hcheck : p.check cancelled = ⟨p.sheet, p.checks + 1, true⟩ := by
        unfold UpdatePass.check
        rw [if_neg (by rw [hp]; exact Bool.false_ne_true), hyes]
      have hvisit : p.visit host cancelled name =
          UpdatePass.visit host cancelled ⟨p.sheet, p.checks + 1, true⟩ name := by
        unfold UpdatePass.visit
        rw [hcheck, check_of_interrupted cancelled rfl, if_pos hname]
        exact (if_pos hname).symm
      rw [List.foldlM_cons, hvisit, ← List.foldlM_cons]
      exact visits_of_interrupted (p := ⟨p.sheet, p.checks + 1, true⟩) rfl (name :: names)
    · have hvisit : p.visit host cancelled name = pure p := if_neg hname
      rw [List.filter_cons_of_neg hname] at hdirty ⊢
      rw [List.foldlM_cons, hvisit, pure_bind, ih hdirty]

/-! ## What is told -/

/-- Marking equations as interrupted, without the events, is `Sheet.interruptAll`. -/
theorem value_markInterrupted_all (s : Sheet) (names : List String) :
    (names.foldlM markInterrupted s).value = s.interruptAll names := Traced.value_foldlM ..

/-- Each equation is told of once, as it is in the end. -/
theorem events_markInterrupted_all (s : Sheet) (hnodup : names.Nodup) :
    (names.foldlM markInterrupted s).events = ((s.interruptAll names).equationsOf names).map
      fun e => .announce (.equationUpdated e resultFields) := by
  induction names generalizing s with
  | nil => rfl
  | cons name names ih =>
    rw [List.nodup_cons] at hnodup
    have hfirst : (s.interruptAll (name :: names)).equation? name =
        (s.setResult name .interrupted "interrupted").equation? name := by
      show ((s.setResult name .interrupted "interrupted").interruptAll names).equation? name = _
      rw [equation?_interruptAll, if_neg hnodup.1]
    have hevents : (s.markInterrupted name).events =
        ((s.interruptAll (name :: names)).equation? name).toList.map
          fun e => .announce (.equationUpdated e resultFields) := by
      rw [hfirst, markInterrupted, announceUpdate]
      cases (s.setResult name .interrupted "interrupted").equation? name <;> rfl
    have hlast : (s.markInterrupted name).value.interruptAll names = s.interruptAll (name :: names) :=
      rfl
    rw [List.foldlM_cons, Traced.events_bind, ih _ hnodup.2, hevents, hlast, ← equationsOf_singleton,
      ← List.map_append, equationsOf, equationsOf, ← List.filterMap_append]
    rfl

/-! ## Updates -/

/-- An update that may be cancelled visits the equations in order and answers how often it asked. -/
theorem perform_updateUnless (host : Host) (cancelled : Nat → Bool) (horder : s.order scope = .ok names) :
    s.perform host (.updateUnless cancelled scope) =
      (fun p : UpdatePass => (p.sheet, .checked p.checks)) <$>
        names.foldlM (UpdatePass.visit host cancelled) { sheet := s } := by
  simp only [perform, update, horder, bind_assoc, pure_bind]
  rfl

/-- An update that is never cancelled is the pass over the equations in order. -/
theorem perform_update_eq_pass (host : Host) (horder : s.order scope = .ok names) :
    s.perform host (.update scope) = (fun s' => (s', .done)) <$> s.pass host names := by
  rw [perform_update host horder, ← sheet_visits_uncancelled (p := { sheet := s }) rfl,
    ← comp_map]
  rfl

/-- An update whose questions are all answered by no does what it does without asking. -/
theorem perform_updateUnless_of_no (horder : s.order scope = .ok names) (hnodup : names.Nodup)
    (hno : ∀ j < (names.filter s.isDirty).length, cancelled j = false) :
    s.perform host (.updateUnless cancelled scope) =
      (fun r => (r.1, .checked (names.filter s.isDirty).length)) <$>
        s.perform host (.update scope) := by
  have hvisits := visits_of_no host cancelled (p := { sheet := s }) rfl hnodup
    fun j hj => by rw [Nat.zero_add]; exact hno j hj
  have hchecks := checks_visits_uncancelled host (p := { sheet := s }) rfl hnodup
  rw [Nat.zero_add] at hchecks
  rw [perform_updateUnless host cancelled horder, perform_update host horder, hvisits, ← hchecks]
  exact Traced.ext rfl (by simp)

/-- An update that is told yes after a first part of its order attends to that part, and of the rest it
tells only that the dirty equations were interrupted. -/
theorem perform_updateUnless_of_yes (host : Host) (horder : s.order scope = .ok (done ++ rest))
    (hnodup : (done ++ rest).Nodup)
    (hno : ∀ j < (done.filter s.isDirty).length, cancelled j = false)
    (hyes : cancelled (done.filter s.isDirty).length = true) (hrest : rest.filter s.isDirty ≠ []) :
    s.perform host (.updateUnless cancelled scope) =
      s.pass host done >>= fun s₁ =>
        (fun s₂ => (s₂, .checked ((done.filter s.isDirty).length + 1))) <$>
          (rest.filter s.isDirty).foldlM markInterrupted s₁ := by
  obtain ⟨hdone, -, hdisjoint⟩ := List.nodup_append.1 hnodup
  have hfirst := visits_of_no host cancelled (p := { sheet := s }) rfl hdone
    fun j hj => by rw [Nat.zero_add]; exact hno j hj
  have hchecks := checks_visits_uncancelled host (p := { sheet := s }) rfl hdone
  obtain ⟨hinterrupted, hsheet⟩ := visits_uncancelled host done (p := { sheet := s }) rfl
  rw [perform_updateUnless host cancelled horder, List.foldlM_append, hfirst, map_bind,
    ← sheet_visits_uncancelled (p := { sheet := s }) rfl, bind_map_left]
  apply Traced.bind_congr_value
  -- The first part leaves the flags of the rest, and the count of its own dirty equations.
  generalize (done.foldlM (UpdatePass.visit host uncancelled) { sheet := s }).value = p at *
  rw [Nat.zero_add] at hchecks
  have hleft : rest.filter p.sheet.isDirty = rest.filter s.isDirty := by
    rw [hsheet]
    exact filter_isDirty_attends host s done fun n hn hmem => hdisjoint n hmem n hn rfl
  rw [visits_of_yes hinterrupted (hchecks ▸ hyes) (hleft ▸ hrest), hleft, hchecks, ← comp_map]
  rfl

/-- What an update that was cancelled makes of a sheet: what the first part of its pass makes of it, with
the word of the interruption on the equations left. -/
structure CutShort (s : Sheet) (part : Traced Event Sheet) (left : List String)
    (t : Traced Event (Sheet × SheetReply)) (marked : List Equation) : Prop where
  names : marked.map (·.name) = left
  /-- What is marked was there before, and nothing else about it changed. -/
  mem_marked : ∀ e ∈ marked, t.value.1.equation? e.name = some e ∧
    ∃ e₀, s.equation? e.name = some e₀ ∧ e = e₀.interrupted
  events : t.events = part.events ++ marked.map fun e => .announce (.equationUpdated e resultFields)
  store : t.value.1.store = part.value.store
  graph : t.value.1.graph = part.value.graph
  mark? : ∀ n ∈ left, t.value.1.graph.mark? n = s.graph.mark? n ∧ t.value.1.isDirty n = true
  equation? : ∀ n, n ∉ left → t.value.1.equation? n = part.value.equation? n

/-- An update with a yes among the answers is cut short. -/
theorem Wired.cutShort (hs : s.Wired) (host : Host) (horder : s.order scope = .ok (done ++ rest))
    (hno : ∀ j < (done.filter s.isDirty).length, cancelled j = false)
    (hyes : cancelled (done.filter s.isDirty).length = true) (hrest : rest.filter s.isDirty ≠ []) :
    let t := s.perform host (.updateUnless cancelled scope)
    t.value.2 = .checked ((done.filter s.isDirty).length + 1) ∧
      ∃ marked, CutShort s (s.pass host done) (rest.filter s.isDirty) t marked := by
  intro t
  obtain ⟨hnodup, -⟩ := hs.pairwise_order horder
  obtain ⟨-, hnodup', hdisjoint⟩ := List.nodup_append.1 hnodup
  have ht := perform_updateUnless_of_yes host horder hnodup hno hyes hrest
  -- The sheet is that of the first part with the word on the equations left.
  have hvalue : t.value.1 = (s.pass host done).value.interruptAll (rest.filter s.isDirty) := by
    show (s.perform host (.updateUnless cancelled scope)).value.1 = _
    rw [ht, Traced.value_bind, Traced.value_map, value_markInterrupted_all]
  have hsame := sameOutside_interruptAll (s.pass host done).value (rest.filter s.isDirty)
  have hbooked : t.value.1.Booked := (hs.perform host (.updateUnless cancelled scope)).booked
  -- The first part does not come to them.
  have huntouched : ∀ n ∈ rest.filter s.isDirty, Untouched (s.pass host done).value s n := by
    intro n hn
    rw [value_pass]
    exact untouched_attends host fun hmem => hdisjoint n hmem n (List.mem_filter.1 hn).1 rfl
  have hequation : ∀ n ∈ rest.filter s.isDirty, ∃ e₀, s.equation? n = some e₀ ∧
      t.value.1.equation? n = some e₀.interrupted := by
    intro n hn
    have hdirty := (List.mem_filter.1 hn).2
    rw [isDirty_eq] at hdirty
    obtain ⟨e₀, he₀⟩ := (hs.mem_names n).1 (mem_names_of_isDirty hdirty)
    refine ⟨e₀, he₀, ?_⟩
    rw [hvalue, equation?_interruptAll, if_pos hn, (huntouched n hn).equation?, he₀]
    rfl
  refine ⟨by rw [show t = _ from ht]; rfl, t.value.1.equationsOf (rest.filter s.isDirty), ?_⟩
  refine ⟨?_, fun e he => ?_, ?_, ?_, ?_, fun n hn => ?_, fun n hn => ?_⟩
  · rw [hbooked.names_equationsOf, List.filter_eq_self]
    intro n hn
    obtain ⟨e₀, -, he⟩ := hequation n hn
    rw [he]
    rfl
  · obtain ⟨n, hn, he⟩ := List.mem_filterMap.1 he
    obtain rfl := hbooked.name_eq_of_equation? he
    obtain ⟨e₀, he₀, he'⟩ := hequation _ hn
    exact ⟨he, e₀, he₀, Option.some.inj (he.symm.trans he')⟩
  · rw [hvalue, ← events_markInterrupted_all _ (hnodup'.filter _), show t = _ from ht,
      Traced.events_bind, Traced.events_map]
  · rw [hvalue, hsame.store]
  · rw [hvalue, hsame.graph]
  · have hmark : t.value.1.graph.mark? n = s.graph.mark? n := by
      rw [hvalue, hsame.graph]
      exact (huntouched n hn).mark?
    refine ⟨hmark, ?_⟩
    rw [isDirty_eq, isDirty_congr hmark, ← isDirty_eq]
    exact (List.mem_filter.1 hn).2
  · rw [hvalue, equation?_interruptAll, if_neg hn]

/-- Whatever was done to a sheet and whatever the hosts do, let an update of a scope that is there ask
whether it was cancelled. Its order splits at the first question that is answered by yes: over the first
part, whose dirty equations are those asked for before, it does just what an update does that is not
cancelled, with the same events; and of the dirty equations of the rest it tells that they were
interrupted, one after the other, and changes nothing else. It asks once more than there were noes. If all
the answers are no, it asks for each dirty equation and does what an update does that is not cancelled. -/
theorem cancellation_of_update (host : Host) (options : Options) (store : Store)
    (steps : List (Host × SheetOperation)) (host' : Host) (scope : UpdateScope)
    (cancelled : Nat → Bool) :
    let s := (create host options store >>= (·.performEach steps)).value
    let dirty := (s.scheduled scope).filter s.isDirty
    let full := s.perform host' (.update scope)
    let t := s.perform host' (.updateUnless cancelled scope)
    s.HasScope scope →
      (∀ i < dirty.length, cancelled i = true → (∀ j < i, cancelled j = false) →
        ∃ done rest marked, s.scheduled scope = done ++ rest ∧
          done.filter s.isDirty = dirty.take i ∧ rest.filter s.isDirty = dirty.drop i ∧
          full = (s.pass host' done >>= fun s₁ => (fun s₂ => (s₂, .done)) <$> s₁.pass host' rest) ∧
          t.value.2 = .checked (i + 1) ∧
          CutShort s (s.pass host' done) (dirty.drop i) t marked ∧
          ∀ n ∈ dirty.take i, Untouched full.value.1 t.value.1 n) ∧
      ((∀ j < dirty.length, cancelled j = false) →
        t = (fun r => (r.1, .checked dirty.length)) <$> full) := by
  intro s dirty full t hscope
  have hs : s.Wired := (vacant_create host options store).wired.performEach steps
  obtain ⟨names, horder⟩ := hs.exists_order hscope
  have hscheduled : s.scheduled scope = names := by
    rw [scheduled, horder]
    rfl
  obtain ⟨hnodup, -⟩ := hs.pairwise_order horder
  refine ⟨fun i hi hyes hno => ?_, fun hno => ?_⟩
  · obtain ⟨done, rest, hsplit, hdone, hrest⟩ :=
      List.filter_eq_append_iff.1 (List.take_append_drop i dirty).symm
    have hlength : (done.filter s.isDirty).length = i := by
      rw [hdone, List.length_take]
      exact Nat.min_eq_left hi.le
    have hleft : rest.filter s.isDirty ≠ [] := by
      rw [hrest, ne_eq, List.drop_eq_nil_iff]
      exact Nat.not_le.2 hi
    rw [hscheduled] at hsplit
    subst hsplit
    have hcut := hs.cutShort host' horder (by rw [hlength]; exact hno) (by rw [hlength]; exact hyes)
      hleft
    rw [hlength, hrest] at hcut
    obtain ⟨hreply, marked, hmarked⟩ := hcut
    have hfull : full = s.pass host' done >>= fun s₁ =>
        (fun s₂ => (s₂, .done)) <$> s₁.pass host' rest := by
      show s.perform host' (.update scope) = _
      rw [perform_update_eq_pass host' horder, pass_append, map_bind]
    refine ⟨done, rest, marked, hscheduled, hdone, hrest, hfull, hreply, hmarked, fun n hn => ?_⟩
    -- What was attended to before is not in the rest of the order.
    have hmem : n ∈ done := (List.mem_filter.1 (hdone ▸ hn)).1
    have hnot : n ∉ rest := fun h => (List.nodup_append.1 hnodup).2.2 n hmem n h rfl
    have hlast : Untouched full.value.1 (s.pass host' done).value n := by
      rw [hfull, Traced.value_bind, Traced.value_map, value_pass]
      exact untouched_attends host' hnot
    refine ⟨hlast.mark?.trans (by rw [hmarked.graph]), hlast.equation?.trans ?_⟩
    rw [hmarked.equation? n fun h => hnot (List.mem_filter.1 (hrest ▸ h)).1]
  · show s.perform host' (.updateUnless cancelled scope) = _
    have hlist : dirty = names.filter s.isDirty := by rw [← hscheduled]
    rw [hlist] at hno ⊢
    exact perform_updateUnless_of_no horder hnodup hno

/-- Three equations in a row, of which only the first one was evaluated. -/
def rowBegun : Sheet :=
  (create Sum.host {} {} >>= (·.performEach
    [(Sum.host, .addGroup "a=1;b=a;c=b"), (Sum.host, .updateOnly "a")])).value

/-- Of `rowBegun` the two equations that were not evaluated are dirty. -/
theorem dirty_rowBegun : (rowBegun.scheduled .all).filter rowBegun.isDirty = ["b", "c"] := by cbv

/-- Nothing is asked for the first one, which is clean. If the second answer is yes, the second equation is
evaluated and the third one is not. -/
theorem cancellation_of_update_rowBegun :
    let t := rowBegun.perform Sum.host (.updateUnless (· == 1) .all)
    rowBegun.HasScope .all ∧ (rowBegun.scheduled .all).filter rowBegun.isDirty = ["b", "c"] ∧
      t.value.2 = .checked 2 ∧
      (∃ done marked, done.filter rowBegun.isDirty = ["b"] ∧
        CutShort rowBegun (rowBegun.pass Sum.host done) ["c"] t marked) ∧
      t.value.1.store.get? "b" = some (.int 1) ∧
      (rowBegun.perform Sum.host (.updateUnless (fun _ => false) .all)).value.2 = .checked 2 := by
  intro t
  have hlength : 1 < ((rowBegun.scheduled .all).filter rowBegun.isDirty).length := by
    rw [dirty_rowBegun]
    decide
  obtain ⟨done, rest, marked, -, hdone, -, -, hreply, hmarked, -⟩ :=
    (cancellation_of_update Sum.host {} {} [(Sum.host, .addGroup "a=1;b=a;c=b"),
      (Sum.host, .updateOnly "a")] Sum.host .all (· == 1) trivial).1 1 hlength (by decide) (by decide)
  have hall : rowBegun.perform Sum.host (.updateUnless (fun _ => false) .all) =
      (fun r => (r.1, .checked ((rowBegun.scheduled .all).filter rowBegun.isDirty).length)) <$>
        rowBegun.perform Sum.host (.update .all) :=
    (cancellation_of_update Sum.host {} {} [(Sum.host, .addGroup "a=1;b=a;c=b"),
      (Sum.host, .updateOnly "a")] Sum.host .all (fun _ => false) trivial).2 fun _ _ => rfl
  have hleft : ((rowBegun.scheduled .all).filter rowBegun.isDirty).drop 1 = ["c"] := by
    rw [dirty_rowBegun]
    rfl
  have hcut : CutShort rowBegun (rowBegun.pass Sum.host done)
      (((rowBegun.scheduled .all).filter rowBegun.isDirty).drop 1) t marked := hmarked
  refine ⟨trivial, dirty_rowBegun, hreply, ⟨done, marked, ?_, hleft ▸ hcut⟩, by cbv, ?_⟩
  · exact hdone.trans (congrArg (List.take 1) dirty_rowBegun)
  · rw [hall, dirty_rowBegun]
    rfl

end Recalc.Sheet
