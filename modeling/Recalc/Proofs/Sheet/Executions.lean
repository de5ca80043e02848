import Recalc.Proofs.Sheet.Course
import Recalc.Proofs.Sheet.Upkeep

/-!
# What an update executes

A pass that comes to a dirty equation executes it if the graph says that it has to be evaluated, and
otherwise only clears its flag. `executions` lists the equations that a pass executes: an update that is
not cancelled runs the code of just these, in this order (`executed_update`).
-/

namespace Recalc

/-- The code that was executed, if the event tells of an execution. -/
def Event.executed? : Event → Option String
  | .run .exec code => some code
  | _ => none

namespace Sheet

variable {s : Sheet} {names : List String}

/-! ## The equations that a pass executes -/

/-- Whether a pass that comes to an equation executes it. -/
def executes (s : Sheet) (name : String) : Bool := s.isDirty name && s.graph.needsEvaluation name

/-- The equations that a pass executes. -/
def executions (host : Host) : Sheet → List String → List String
  | _, [] => []
  | s, name :: names =>
    if s.executes name then name :: executions host (s.attend host name) names
    else executions host (s.attend host name) names

/-- Where nothing is dirty, a pass changes nothing and executes nothing. -/
theorem attends_of_clean (host : Host) (h : ∀ n ∈ names, ¬ s.isDirty n = true) :
    names.foldl (attend host) s = s ∧ executions host s names = [] := by
  induction names with
  | nil => exact ⟨rfl, rfl⟩
  | cons name names ih =>
    have hname := h name List.mem_cons_self
    have hattend : s.attend host name = s := if_neg hname
    have hexecutes : ¬ s.executes name = true := fun hboth => hname (Bool.and_eq_true_iff.1 hboth).1
    rw [List.foldl_cons, executions, hattend, if_neg hexecutes]
    exact ih fun n hn => h n (List.mem_cons_of_mem _ hn)

/-- A pass over two lists executes what it executes of the first one and then, of the second one, what is left
to execute. -/
theorem executions_append (host : Host) (s : Sheet) (names names' : List String) :
    executions host s (names ++ names') =
      executions host s names ++ executions host (names.foldl (attend host) s) names' := by
  induction names generalizing s with
  | nil => rfl
  | cons name names ih =>
    rw [List.cons_append, executions, executions, ih]
    split_ifs <;> rfl

/-! ## The events of a pass -/

/-- Evaluating an equation shows in the events as one execution of its code. -/
theorem executed_evaluate (host : Host) (s : Sheet) (name : String) :
    (s.evaluate host name).events.filterMap Event.executed? =
      ((s.equation? name).map Equation.code).toList := by
  unfold evaluate
  cases s.equation? name with
  | none => rfl
  | some e =>
    simp only [announceUpdate, Traced.events_bind, Traced.events_announce, Traced.events_announce?,
      Traced.events_pure, List.append_nil]
    cases (s.conclude name _ _).equation? name <;> rfl

/-- A visit of a pass that is not cancelled shows in the events as an execution if `Sheet.executes` says so.
-/
theorem executed_visit (host : Host) {p : UpdatePass} (hp : p.interrupted = false) (name : String) :
    (p.visit host uncancelled name).events.filterMap Event.executed? =
      if p.sheet.executes name then ((p.sheet.equation? name).map Equation.code).toList else [] := by
  -- Clearing the flag leaves the equation as it is.
  have hevents : ((p.sheet.markClean name).evaluate host name).events.filterMap Event.executed? =
      ((p.sheet.equation? name).map Equation.code).toList :=
    executed_evaluate host (p.sheet.markClean name) name
  unfold UpdatePass.visit executes
  rw [check_uncancelled hp]
  by_cases hdirty : p.sheet.isDirty name = true
  · by_cases hneeds : p.sheet.graph.needsEvaluation name = true
    · simp [hdirty, hneeds, hp, UpdatePass.withSheet, hevents]
    · simp [hdirty, hneeds, hp]
  · simp [hdirty]

/-- Attending to an equation changes no code. -/
theorem code_attend (host : Host) (s : Sheet) (name n : String) :
    ((s.attend host name).equation? n).map Equation.code = (s.equation? n).map Equation.code := by
  have hbooks : SameBooks (s.attend host name) s := by
    unfold attend
    split_ifs
    · exact sameBooks_refresh host s name
    · exact SameBooks.refl s
  have hcode := congrArg (Option.map Equation.code) (hbooks.equation? n)
  rwa [Option.map_map, Option.map_map] at hcode

/-- A pass that is not cancelled executes these equations, in this order. -/
theorem executed_visits (host : Host) (names : List String) {p : UpdatePass}
    (hp : p.interrupted = false) :
    (names.foldlM (UpdatePass.visit host uncancelled) p).events.filterMap Event.executed? =
      (executions host p.sheet names).filterMap fun n => (p.sheet.equation? n).map Equation.code := by
  induction names generalizing p with
  | nil => rfl
  | cons name names ih =>
    have hvisit := interrupted_visit_uncancelled host name hp
    have hsheet : (p.visit host uncancelled name).value.sheet = p.sheet.attend host name := by
      rw [sheet_visit, hvisit]
      rfl
    rw [List.foldlM_cons, Traced.events_bind, List.filterMap_append, executed_visit host hp, ih hvisit,
      hsheet, executions]
    simp only [code_attend]
    split_ifs
    · rw [List.filterMap_cons]
      cases (p.sheet.equation? name).map Equation.code <;> rfl
    · rfl

/-- The equations that a scope covers, in evaluation order; none if there is no such scope. -/
def scheduled (s : Sheet) (scope : UpdateScope) : List String := (s.order scope).toOption.getD []

/-- The executions that show in the events of an update which is not cancelled are those of its scope, in
evaluation order. -/
theorem executed_update (host : Host) (s : Sheet) (scope : UpdateScope) :
    (s.update host scope uncancelled).events.filterMap Event.executed? =
      (executions host s (s.scheduled scope)).filterMap fun n =>
        (s.equation? n).map Equation.code := by
  unfold update scheduled
  cases s.order scope with
  | error e => rfl
  | ok names =>
    show List.filterMap Event.executed?
      ((names.foldlM (UpdatePass.visit host uncancelled) { sheet := s }).events ++ []) = _
    rw [List.append_nil]
    exact executed_visits host names (p := { sheet := s }) rfl

end Sheet

end Recalc
