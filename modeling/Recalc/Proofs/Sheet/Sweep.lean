import Recalc.Proofs.Graph.Sorting
import Recalc.Proofs.Sheet.Pass
import Recalc.Proofs.Sheet.Resume

/-!
# What an update does, and nothing else

A pass that is not cancelled executes some of the equations that its scope covers and that were dirty,
each once and none before another one that it depends on. An execution touches the mark, the status and
the message of its own equation only (`Untouched`), so whatever is announced of an equation is what the
equation still is at the end, and what the scope does not cover stays as it was. All that is covered is
clean in the end, so doing the same again does nothing.
-/

namespace Recalc.Sheet

open Recalc.Graph Relation

variable {host : Host} {s s' s'' : Sheet} {scope : UpdateScope} {names : List String} {name n : String}

/-! ## What an execution leaves alone -/

/-- The dirty flag and the stamp of a name are as they were, and so is its equation. -/
structure Untouched (s' s : Sheet) (n : String) : Prop where
  mark? : s'.graph.mark? n = s.graph.mark? n
  equation? : s'.equation? n = s.equation? n

namespace Untouched

theorem refl (s : Sheet) (n : String) : Untouched s s n := ⟨rfl, rfl⟩

theorem trans (h' : Untouched s'' s' n) (h : Untouched s' s n) : Untouched s'' s n :=
  ⟨h'.mark?.trans h.mark?, h'.equation?.trans h.equation?⟩

/-- Setting the result of one equation leaves the others untouched. -/
theorem setResult (h : Untouched s' s n) (hn : n ≠ name) (status : Status) (message : String) :
    Untouched (s'.setResult name status message) s n := by
  refine ⟨?_, ?_⟩
  · rw [(sameOutside_setResult s' name status message).graph]
    exact h.mark?
  · rw [Sheet.setResult, equation?_modifyEquation, if_neg hn]
    exact h.equation?

end Untouched

theorem untouched_markClean (hn : n ≠ name) : Untouched (s.markClean name) s n :=
  ⟨(mark?_markClean s.graph name n).trans (if_neg hn), rfl⟩

theorem untouched_conclude (hn : n ≠ name) (outcome : Outcome) (after : Store) :
    Untouched (s.conclude name outcome after) s n := by
  have htouch : ∀ (changed : Bool) (store : Store), Untouched
      { s with store, graph := if changed = true then (s.graph.touch name).1 else s.graph } s n := by
    intro changed store
    cases changed with
    | false => exact ⟨rfl, rfl⟩
    | true => exact ⟨(mark?_touch s.graph name n).trans (if_neg hn), rfl⟩
  unfold conclude
  split_ifs
  · exact (htouch _ _).setResult hn _ _
  · exact (htouch _ _).setResult hn _ _

theorem untouched_evaluate (host : Host) (hn : n ≠ name) :
    Untouched (s.evaluate host name).value s n := by
  rw [value_evaluate]
  cases s.equation? name with
  | none => exact Untouched.refl s n
  | some e => exact untouched_conclude hn _ _

theorem untouched_attend (host : Host) (hn : n ≠ name) : Untouched (s.attend host name) s n := by
  unfold attend refresh
  split_ifs
  · exact (untouched_evaluate host hn).trans (untouched_markClean hn)
  · exact untouched_markClean hn
  · exact Untouched.refl s n

/-- A pass touches only what it lists. -/
theorem untouched_attends (host : Host) (hn : n ∉ names) :
    Untouched (names.foldl (attend host) s) s n := by
  induction names generalizing s with
  | nil => exact Untouched.refl s n
  | cons name names ih =>
    rw [List.mem_cons, not_or] at hn
    exact (ih hn.2).trans (untouched_attend host hn.1)

/-! ## The equations that are executed -/

/-- A pass executes some of its equations, in its order and none twice. -/
theorem executions_sublist (host : Host) (s : Sheet) (names : List String) :
    (executions host s names).Sublist names := by
  induction names generalizing s with
  | nil => exact List.Sublist.slnil
  | cons name names ih =>
    rw [executions]
    split_ifs
    · exact (ih _).cons_cons name
    · exact (ih _).cons name

/-- What is executed was dirty when the pass began, since a pass makes nothing dirty. -/
theorem isDirty_of_mem_executions (host : Host) (hn : n ∈ executions host s names) :
    s.isDirty n = true := by
  induction names generalizing s with
  | nil => exact absurd hn List.not_mem_nil
  | cons name names ih =>
    rw [executions] at hn
    split_ifs at hn with hname
    · rcases List.mem_cons.1 hn with rfl | hn
      · exact (Bool.and_eq_true_iff.1 hname).1
      · exact ((isDirty_attend host s name n).1 (ih hn)).1
    · exact ((isDirty_attend host s name n).1 (ih hn)).1

/-! ## The events -/

/-- An execution shows in two events: its code is run, and the equation is announced as it is then. -/
def executionEvents (e : Equation) : List Event :=
  [.run .exec e.code, .announce (.equationUpdated e evaluatedFields)]

/-- The executions that the events tell of. -/
theorem executed_executionEvents (executed : List Equation) :
    (executed.flatMap executionEvents).filterMap Event.executed? = executed.map (·.code) := by
  induction executed with
  | nil => rfl
  | cons e executed ih =>
    rw [List.flatMap_cons, List.filterMap_append, ih]
    rfl

/-- The equations of some names. -/
def equationsOf (s : Sheet) (names : List String) : List Equation := names.filterMap s.equation?

/-- In a sheet whose tables agree they have these names, as far as there are such equations. -/
theorem Booked.names_equationsOf (hs : s.Booked) (names : List String) :
    (s.equationsOf names).map (·.name) = names.filter fun n => (s.equation? n).isSome := by
  induction names with
  | nil => rfl
  | cons name names ih =>
    unfold equationsOf at ih ⊢
    cases he : s.equation? name with
    | none => rw [List.filterMap_cons_none he, ih, List.filter_cons_of_neg (by simp [he])]
    | some e =>
      rw [List.filterMap_cons_some he, List.map_cons, hs.name_eq_of_equation? he, ih,
        List.filter_cons_of_pos (by simp [he])]

/-- The equations of a single name are the one that it has, if any. -/
theorem equationsOf_singleton (s : Sheet) (name : String) :
    s.equationsOf [name] = (s.equation? name).toList := by
  rw [equationsOf]
  cases he : s.equation? name <;> simp [he]

/-- `Sheet.evaluate` shows in the events of an execution, with the equation as it is afterwards. -/
theorem events_evaluate (host : Host) (s : Sheet) (name : String) :
    (s.evaluate host name).events =
      ((s.evaluate host name).value.equationsOf [name]).flatMap executionEvents := by
  have hcode : ∀ outcome after, ((s.conclude name outcome after).equation? name).map Equation.code =
      (s.equation? name).map Equation.code := fun outcome after => by
    have h := congrArg (Option.map Equation.code) ((sameBooks_conclude s name outcome after).equation? name)
    rwa [Option.map_map, Option.map_map] at h
  rw [value_evaluate, equationsOf_singleton]
  unfold evaluate
  cases he : s.equation? name with
  | none =>
    simp only [he]
    rfl
  | some e =>
    -- The code that is run is still that of the equation when it is announced.
    have hafter := hcode (host.exec e.code s.store).1 (host.exec e.code s.store).2
    rw [he] at hafter
    obtain ⟨e', he', hcode'⟩ := Option.map_eq_some_iff.1 hafter
    simp only [announceUpdate, he', Traced.events_bind, Traced.events_announce,
      Traced.events_announce?, Traced.events_pure]
    simp [executionEvents, hcode']

/-- A visit of a pass that is not cancelled shows in the events of an execution if `Sheet.executes` says so,
and in none otherwise. -/
theorem events_visit (host : Host) {p : UpdatePass} (hp : p.interrupted = false) (name : String) :
    (p.visit host uncancelled name).events =
      if p.sheet.executes name then
        ((p.sheet.attend host name).equationsOf [name]).flatMap executionEvents
      else [] := by
  unfold UpdatePass.visit executes attend refresh
  rw [check_uncancelled hp]
  by_cases hdirty : p.sheet.isDirty name = true
  · by_cases hneeds : p.sheet.graph.needsEvaluation name = true
    · simp [hdirty, hneeds, hp, UpdatePass.withSheet, events_evaluate]
    · simp [hdirty, hneeds, hp]
  · simp [hdirty]

/-- The events of a pass tell of the equations executed, as they are at the end. -/
theorem events_visits (host : Host) (hnodup : names.Nodup) {p : UpdatePass}
    (hp : p.interrupted = false) :
    (names.foldlM (UpdatePass.visit host uncancelled) p).events =
      ((names.foldl (attend host) p.sheet).equationsOf (executions host p.sheet names)).flatMap
        executionEvents := by
  induction names generalizing p with
  | nil => rfl
  | cons name names ih =>
    rw [List.nodup_cons] at hnodup
    have hvisit := interrupted_visit_uncancelled host name hp
    have hsheet : (p.visit host uncancelled name).value.sheet = p.sheet.attend host name := by
      rw [sheet_visit, hvisit]
      rfl
    -- The rest of the pass does not come back to the first equation.
    have hfirst : (names.foldl (attend host) (p.sheet.attend host name)).equationsOf [name] =
        (p.sheet.attend host name).equationsOf [name] := by
      rw [equationsOf_singleton, equationsOf_singleton, (untouched_attends host hnodup.1).equation?]
    rw [List.foldlM_cons, Traced.events_bind, events_visit host hp, ih hnodup.2 hvisit, hsheet,
      executions, List.foldl_cons, ← hfirst]
    split_ifs
    · rw [← List.flatMap_append, equationsOf, equationsOf, ← List.filterMap_append]
      rfl
    · rfl

/-! ## The equations of a scope -/

/-- What the scope names is there. -/
def HasScope (s : Sheet) : UpdateScope → Prop
  | .all => True
  | .equation name => ∃ e, s.equation? name = some e
  | .group id => ∃ g, s.group? id = some g

namespace Wired

/-- A scope that is there has an order. -/
theorem exists_order (hs : s.Wired) (h : s.HasScope scope) : ∃ names, s.order scope = .ok names := by
  cases scope with
  | all => exact ⟨_, rfl⟩
  | equation name => exact ⟨_, if_pos (hs.booked.hasEquation_iff.2 h)⟩
  | group id =>
    obtain ⟨g, hg⟩ := h
    rw [order, hg]
    exact ⟨_, rfl⟩

/-- A pass comes to no equation twice, and to none before another one that it depends on. -/
theorem pairwise_order (hs : s.Wired) (horder : s.order scope = .ok names) :
    names.Nodup ∧ names.Pairwise fun a b => ¬ TransGen s.graph.Depends a b := by
  obtain ⟨covered, hnodup, rfl, hcovers⟩ := hs.order_eq horder
  have hg := hs.atRest.sound.wellFormed
  refine ⟨hg.nodup_orderWithin hnodup, hg.pairwise_transGen_orderWithin hnodup fun n d hnd hd => ?_⟩
  obtain ⟨m, hm, hdm⟩ := (hcovers d).1 hd
  exact (hcovers n).2 ⟨m, hm, hdm.head hnd⟩

end Wired

/-! ## Updates -/

/-- An update is a pass over its order. -/
theorem perform_update (host : Host) (horder : s.order scope = .ok names) :
    s.perform host (.update scope) =
      (fun p : UpdatePass => (p.sheet, .done)) <$>
        names.foldlM (UpdatePass.visit host uncancelled) { sheet := s } := by
  simp only [perform, update, horder, bind_assoc, pure_bind]
  rfl

/-- A pass over clean equations does nothing. -/
theorem visits_of_clean (host : Host) (cancelled : Nat → Bool) {p : UpdatePass}
    (hclean : ∀ n ∈ names, ¬ p.sheet.isDirty n = true) :
    names.foldlM (UpdatePass.visit host cancelled) p = pure p := by
  induction names with
  | nil => rfl
  | cons name names ih =>
    have hvisit : p.visit host cancelled name = pure p := if_neg (hclean name List.mem_cons_self)
    rw [List.foldlM_cons, hvisit, pure_bind]
    exact ih fun n hn => hclean n (List.mem_cons_of_mem name hn)

/-- What an update that is not cancelled makes of a sheet, and what it announces. -/
structure Sweep (s : Sheet) (scope : UpdateScope) (t : Traced Event (Sheet × SheetReply))
    (executed : List Equation) : Prop where
  done : t.value.2 = .done
  /-- What is executed was dirty and is covered; the list tells how it is afterwards. -/
  mem_executed : ∀ e ∈ executed, t.value.1.equation? e.name = some e ∧
    s.isDirty e.name = true ∧ s.Covers scope e.name
  nodup : (executed.map (·.name)).Nodup
  pairwise : executed.Pairwise fun e e' => ¬ TransGen s.graph.Depends e.name e'.name
  events : t.events = executed.flatMap executionEvents
  clean : ∀ n, s.Covers scope n → t.value.1.isDirty n = false
  untouched : ∀ n, ¬ s.Covers scope n → Untouched t.value.1 s n

/-- An update of a scope that has an order sweeps it. -/
theorem Wired.sweep (hs : s.Wired) (host : Host) (horder : s.order scope = .ok names) :
    Sweep s scope (s.perform host (.update scope))
      ((names.foldl (attend host) s).equationsOf (executions host s names)) := by
  have hvalue : (s.perform host (.update scope)).value = (names.foldl (attend host) s, .done) := by
    rw [perform_update host horder, Traced.value_map]
    exact Prod.ext (visits_uncancelled host names rfl).2 rfl
  have hbooked : (names.foldl (attend host) s).Booked := by
    have h := (hs.perform host (.update scope)).booked
    rwa [hvalue] at h
  obtain ⟨hnodup, hpairwise⟩ := hs.pairwise_order horder
  have hnames : (((names.foldl (attend host) s).equationsOf (executions host s names)).map
      (·.name)).Sublist names := by
    rw [hbooked.names_equationsOf]
    exact List.filter_sublist.trans (executions_sublist host s names)
  refine ⟨by rw [hvalue], fun e he => ?_, hnodup.sublist hnames, ?_, ?_, fun n hn => ?_, fun n hn => ?_⟩
  · obtain ⟨n, hn, hequation⟩ := List.mem_filterMap.1 he
    obtain rfl := hbooked.name_eq_of_equation? hequation
    rw [hvalue]
    exact ⟨hequation, isDirty_of_mem_executions host hn,
      (hs.mem_order horder).1 ((executions_sublist host s names).subset hn)⟩
  · exact List.pairwise_map.1 (hpairwise.sublist hnames)
  · rw [perform_update host horder, Traced.events_map]
    exact events_visits host hnodup (p := { sheet := s }) rfl
  · rw [hvalue, ← Bool.not_eq_true, isDirty_attends]
    exact fun h => h.2 ((hs.mem_order horder).2 hn)
  · rw [hvalue]
    exact untouched_attends host fun h => hn ((hs.mem_order horder).1 h)

/-- An update of the same scope once more changes nothing and announces nothing. -/
theorem update_again (host : Host) (s : Sheet) (horder : s.order scope = .ok names) :
    let s' := (s.perform host (.update scope)).value.1
    s'.perform host (.update scope) = pure (s', .done) := by
  intro s'
  have hvalue : s' = names.foldl (attend host) s := by
    show (s.perform host (.update scope)).value.1 = _
    rw [perform_update host horder]
    exact (visits_uncancelled host names (p := { sheet := s }) rfl).2
  have hagain : s'.order scope = .ok names :=
    (order_congr (calm_update host s scope uncancelled) (sameBooks_update host s scope uncancelled)
      scope).trans horder
  have hclean : ∀ n ∈ names, ¬ s'.isDirty n = true := fun n hn hdirty => by
    rw [hvalue, isDirty_attends] at hdirty
    exact hdirty.2 hn
  rw [perform_update host hagain, visits_of_clean host uncancelled hclean]
  rfl

/-- Whatever was done to a sheet and whatever the hosts do: an update of a scope that is there, not
cancelled, executes only covered equations that were dirty, each once and none before another one that it
depends on; it announces each of them once, in this order, as it is from then on, and announces nothing
else; it leaves all that the scope covers clean and the marks and equations of all else as they were. The
same update once more executes nothing, announces nothing and changes nothing. -/
theorem sweep_of_update (host : Host) (options : Options) (store : Store)
    (steps : List (Host × SheetOperation)) (host' : Host) (scope : UpdateScope) :
    let s := (create host options store >>= (·.performEach steps)).value
    let t := s.perform host' (.update scope)
    s.HasScope scope →
      (∃ executed, Sweep s scope t executed) ∧
        t.value.1.perform host' (.update scope) = pure (t.value.1, .done) := by
  intro s t hscope
  have hs : s.Wired := (vacant_create host options store).wired.performEach steps
  obtain ⟨names, horder⟩ := hs.exists_order hscope
  exact ⟨⟨_, hs.sweep host' horder⟩, update_again host' s horder⟩

/-- Two equations in a row and one beside them, not yet evaluated. -/
def rowBeside : Sheet :=
  (create Sum.host {} {} >>= (·.performEach [(Sum.host, .addGroup "a=1;b=a;c=2")])).value

/-- The equation `a` of `rowBeside` is there. -/
theorem hasScope_rowBeside : rowBeside.HasScope (.equation "a") :=
  Option.isSome_iff_exists.1 (by cbv)

/-- All equations of `rowBeside` are dirty. -/
theorem isDirty_rowBeside : ["a", "b", "c"].map rowBeside.isDirty = [true, true, true] := by
  cbv

/-- An update of `a` in `rowBeside` executes the row and nothing beside it. -/
theorem executed_rowBeside :
    (rowBeside.perform Sum.host (.update (.equation "a"))).events.filterMap Event.executed? =
      ["a = 1", "b = a"] := by
  cbv

/-- An update of the first one executes the row and leaves it clean. -/
theorem sweep_of_update_rowBeside :
    let scope : UpdateScope := .equation "a"
    let t := rowBeside.perform Sum.host (.update scope)
    rowBeside.HasScope scope ∧
      ["a", "b", "c"].map rowBeside.isDirty = [true, true, true] ∧
      (∃ executed, Sweep rowBeside scope t executed ∧
        executed.map (·.code) = ["a = 1", "b = a"]) ∧
      t.value.1.isDirty "a" = false ∧
      t.value.1.perform Sum.host (.update scope) = pure (t.value.1, .done) := by
  intro scope t
  obtain ⟨⟨executed, hsweep⟩, hagain⟩ := sweep_of_update Sum.host {} {}
    [(Sum.host, .addGroup "a=1;b=a;c=2")] Sum.host (.equation "a") hasScope_rowBeside
  have hcodes : executed.map (·.code) = ["a = 1", "b = a"] := by
    rw [← executed_rowBeside, ← executed_executionEvents, ← hsweep.events]
    rfl
  have hcovers : rowBeside.Covers (.equation "a") "a" :=
    ⟨"a", List.mem_singleton_self "a", ReflTransGen.refl⟩
  exact ⟨hasScope_rowBeside, isDirty_rowBeside, ⟨executed, hsweep, hcodes⟩, hsweep.clean "a" hcovers,
    hagain⟩

end Recalc.Sheet
