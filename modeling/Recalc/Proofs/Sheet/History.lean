import Recalc.Proofs.Sheet.EditNews
import Recalc.Proofs.Sheet.Executions

/-!
# The steps of a run

A run is taken apart into steps. An update makes one step for each equation that its pass comes to, and
an edit makes one step and then those of the update that it starts; every other operation makes one
step. The steps of a run lead from its first sheet to its last (`leads_history`), and the equations that
the steps of an operation execute are the ones whose code its host is asked to execute
(`executed_perform`). What every step does is proved of each sort of step (`steps_induction`), then of all
operations of a run, each over its own host (`history_induction`).
-/

namespace Recalc.Sheet

/-- A step of a run. -/
structure Step where
  /-- The sheet before the step. -/
  before : Sheet
  /-- The sheet after the step. -/
  after : Sheet
  /-- The store as the code of the equation that was executed left it; the last one if none was. -/
  left : Store
  /-- The equation that was executed, if one was. -/
  executed : Option String := none
  /-- Whether the execution failed. -/
  failed : Bool := false
  /-- Whether it was a pass that executed it. -/
  inPass : Bool := false

variable {host : Host} {cancelled : Nat → Bool} {s s' s'' : Sheet} {t : Step} {ts ts' : List Step}

/-! ## Steps -/

/-- The store that the code of an equation leaves. -/
def storeLeft (host : Host) (s : Sheet) (name : String) : Store :=
  match s.equation? name with
  | none => s.store
  | some e => (host.exec e.code s.store).2

/-- Whether the code of an equation fails. -/
def fails (host : Host) (s : Sheet) (name : String) : Bool :=
  (s.equation? name).any fun e => !(host.exec e.code s.store).1.isSuccess

namespace Step

/-- A step that executes no equation. -/
def quiet (before after : Sheet) : Step := { before, after, left := after.store }

/-- A step that executes an equation. -/
def execution (host : Host) (before : Sheet) (name : String) (after : Sheet) (inPass : Bool) : Step where
  before := before
  after := after
  left := before.storeLeft host name
  executed := some name
  failed := before.fails host name
  inPass := inPass

/-- Whether an equation comes, goes or is edited in the step, or its value changes. A value also counts as
changed if the code that is executed leaves another one in the store (`Step.left`), even if the execution
fails and the sheet takes this value away again. -/
def stirs (t : Step) (n : String) : Bool :=
  t.after.text? n != t.before.text? n || t.left.get? n != t.before.value? n ||
    t.after.value? n != t.before.value? n

/-- The code of the equation that the step executes. -/
def code? (t : Step) : Option String :=
  t.executed.bind fun name => (t.before.equation? name).map Equation.code

end Step

/-- What a pass does with one equation, as a step. -/
def visitStep (host : Host) (cancelled : Nat → Bool) (p : UpdatePass) (name : String) : Step :=
  let after := (p.visit host cancelled name).value.sheet
  if p.sheet.executes name && !(p.check cancelled).interrupted then
    .execution host p.sheet name after true
  else .quiet p.sheet after

/-- The steps of a pass. -/
def passSteps (host : Host) (cancelled : Nat → Bool) : UpdatePass → List String → List Step
  | _, [] => []
  | p, name :: names =>
    visitStep host cancelled p name ::
      passSteps host cancelled (p.visit host cancelled name).value names

/-- The steps of an update. -/
def updateSteps (host : Host) (s : Sheet) (scope : UpdateScope) (cancelled : Nat → Bool) : List Step :=
  passSteps host cancelled { sheet := s } (s.scheduled scope)

/-- The steps of the update that an edit starts. -/
def autoSteps (host : Host) (s : Sheet) (id : GroupId) : List Step :=
  if s.options.autoUpdate then s.updateSteps host (.group id) uncancelled else []

/-- The steps of an operation. -/
def steps (host : Host) (s : Sheet) : SheetOperation → List Step
  | .addGroup statement =>
    let (entered, reply) := (s.enterGroup host statement).value
    .quiet s entered :: match reply with
      | .ok id => entered.autoSteps host id
      | .error _ => []
  | .editGroup id statement =>
    let (changed, reply) := (s.changeGroup host id statement).value
    .quiet s changed :: match reply with
      | .ok true => changed.autoSteps host id
      | _ => []
  | .update scope => s.updateSteps host scope uncancelled
  | .updateUnless cancelled scope => s.updateSteps host scope cancelled
  | .updateOnly name =>
    let after := (s.updateOnly host name).value.1
    [if s.hasEquation name then .execution host s name after false else .quiet s after]
  | op => [.quiet s (s.perform host op).value.1]

/-- The steps of a run whose operations have hosts of their own. -/
def history : Sheet → List (Host × SheetOperation) → List Step
  | _, [] => []
  | s, (host, op) :: operations => s.steps host op ++ history (s.perform host op).value.1 operations

/-! ## Steps lead from one sheet to another -/

/-- The steps begin with the first sheet, each goes on where the one before it ended, and the last one
ends with the second sheet. -/
def Leads : Sheet → List Step → Sheet → Prop
  | s, [], s' => s = s'
  | s, t :: ts, s' => t.before = s ∧ Leads t.after ts s'

/-- Steps lead from sheet to sheet if a first part leads to a sheet from which the rest leads on. -/
theorem leads_append : Leads s (ts ++ ts') s'' ↔ ∃ s', Leads s ts s' ∧ Leads s' ts' s'' := by
  induction ts generalizing s with
  | nil => simp [Leads]
  | cons t ts ih =>
    rw [List.cons_append, Leads, ih]
    constructor
    · rintro ⟨hbefore, s', hts, hts'⟩
      exact ⟨s', ⟨hbefore, hts⟩, hts'⟩
    · rintro ⟨s', ⟨hbefore, hts⟩, hts'⟩
      exact ⟨hbefore, s', hts, hts'⟩

/-- A quiet step leads to the sheet after it. -/
theorem leads_quiet (s s' : Sheet) : Leads s [.quiet s s'] s' := ⟨rfl, rfl⟩

/-- The step of a visit begins with the sheet of the pass. -/
theorem before_visitStep (host : Host) (cancelled : Nat → Bool) (p : UpdatePass) (name : String) :
    (visitStep host cancelled p name).before = p.sheet := by
  unfold visitStep
  dsimp only
  split_ifs <;> rfl

/-- The step of a visit ends with the sheet after the visit. -/
theorem after_visitStep (host : Host) (cancelled : Nat → Bool) (p : UpdatePass) (name : String) :
    (visitStep host cancelled p name).after = (p.visit host cancelled name).value.sheet := by
  unfold visitStep
  dsimp only
  split_ifs <;> rfl

/-- What a pass makes of one equation: it executes it after clearing its mark, or marks it as interrupted,
or only clears its mark, or passes it over. -/
theorem visitStep_cases (host : Host) (cancelled : Nat → Bool) (p : UpdatePass) (name : String) :
    (p.sheet.graph.needsEvaluation name = true ∧ visitStep host cancelled p name =
      .execution host p.sheet name ((p.sheet.markClean name).evaluate host name).value true) ∨
    visitStep host cancelled p name =
      .quiet p.sheet (p.sheet.setResult name .interrupted "interrupted") ∨
    visitStep host cancelled p name = .quiet p.sheet (p.sheet.markClean name) ∨
    visitStep host cancelled p name = .quiet p.sheet p.sheet := by
  unfold visitStep executes
  rw [value_visit]
  by_cases hdirty : p.sheet.isDirty name = true
  · by_cases hinterrupted : (p.check cancelled).interrupted = true
    · exact .inr (.inl (by simp [hdirty, hinterrupted]))
    · by_cases hneeds : p.sheet.graph.needsEvaluation name = true
      · exact .inl ⟨hneeds, by simp [hdirty, hinterrupted, hneeds, refresh]⟩
      · exact .inr (.inr (.inl (by simp [hdirty, hinterrupted, hneeds, refresh])))
  · exact .inr (.inr (.inr (by simp [hdirty])))

/-- The steps of a pass lead to the sheet after the pass. -/
theorem leads_passSteps (host : Host) (cancelled : Nat → Bool) (names : List String) (p : UpdatePass) :
    Leads p.sheet (passSteps host cancelled p names)
      (names.foldlM (UpdatePass.visit host cancelled) p).value.sheet := by
  induction names generalizing p with
  | nil => rfl
  | cons name names ih =>
    rw [List.foldlM_cons, Traced.value_bind]
    refine ⟨before_visitStep host cancelled p name, ?_⟩
    rw [after_visitStep]
    exact ih (p.visit host cancelled name).value

/-- The steps of an update lead to the sheet after the update. -/
theorem leads_updateSteps (host : Host) (s : Sheet) (scope : UpdateScope) (cancelled : Nat → Bool) :
    Leads s (s.updateSteps host scope cancelled) (s.update host scope cancelled).value.1 := by
  unfold updateSteps scheduled update
  cases s.order scope with
  | error e => rfl
  | ok names => exact leads_passSteps host cancelled names { sheet := s }

/-- The steps of the update that an edit starts lead to the sheet after it. -/
theorem leads_autoSteps (host : Host) (s : Sheet) (id : GroupId) :
    Leads s (s.autoSteps host id) (s.autoUpdate host id).value := by
  unfold autoSteps autoUpdate
  split_ifs
  · exact leads_updateSteps host s (.group id) uncancelled
  · rfl

/-- The steps of an operation lead to what it makes of the sheet. -/
theorem leads_steps (host : Host) (s : Sheet) (op : SheetOperation) :
    Leads s (s.steps host op) (s.perform host op).value.1 := by
  cases op with
  | addGroup statement =>
    show Leads s (s.steps host (.addGroup statement)) (s.addGroup host statement).value.1
    rw [steps, addGroup, Traced.value_bind]
    rcases (s.enterGroup host statement).value with ⟨entered, e | id⟩
    · exact leads_quiet s entered
    · exact ⟨rfl, leads_autoSteps host entered id⟩
  | editGroup id statement =>
    show Leads s (s.steps host (.editGroup id statement)) (s.editGroup host id statement).value.1
    rw [steps, editGroup, Traced.value_bind]
    rcases (s.changeGroup host id statement).value with ⟨changed, e | _ | _⟩
    · exact leads_quiet s changed
    · exact leads_quiet s changed
    · exact ⟨rfl, leads_autoSteps host changed id⟩
  | update scope => exact leads_updateSteps host s scope uncancelled
  | updateUnless cancelled scope => exact leads_updateSteps host s scope cancelled
  | updateOnly name =>
    show Leads s (s.steps host (.updateOnly name)) (s.updateOnly host name).value.1
    rw [steps]
    split_ifs
    · exact ⟨rfl, rfl⟩
    · exact leads_quiet s _
  | removeGroup id => exact leads_quiet s _
  | eval expression => exact leads_quiet s _
  | reset => exact leads_quiet s _
  | setStatus name status message => exact leads_quiet s _

/-- The steps of a run lead to its last sheet. -/
theorem leads_history (s : Sheet) (operations : List (Host × SheetOperation)) :
    Leads s (s.history operations) (s.performEach operations).value := by
  induction operations generalizing s with
  | nil => rfl
  | cons operation operations ih =>
    rw [history, performEach_cons, Traced.value_bind, leads_append]
    exact ⟨_, leads_steps operation.1 s operation.2, ih _⟩

/-! ## Induction along a history -/

section Induction

variable {P : Sheet → Prop} {Q : Step → Prop}
  (hafter : ∀ t, Q t → P t.after)
  (hvisit : ∀ cancelled p name, P p.sheet → Q (visitStep host cancelled p name))

/-- What every step passes on holds where the steps lead. -/
theorem Leads.keeps (hafter : ∀ t, Q t → P t.after) (h : Leads s ts s') (hs : P s)
    (hsteps : ∀ t ∈ ts, Q t) : P s' := by
  induction ts generalizing s with
  | nil => exact h ▸ hs
  | cons t ts ih =>
    exact ih h.2 (hafter t (hsteps t List.mem_cons_self)) fun u hu => hsteps u (List.mem_cons_of_mem t hu)

include hafter hvisit

/-- What visits do with sheets that have a property, every step of a pass does. -/
theorem passSteps_induction (cancelled : Nat → Bool) (names : List String) {p : UpdatePass}
    (hs : P p.sheet) : ∀ t ∈ passSteps host cancelled p names, Q t := by
  induction names generalizing p with
  | nil => exact fun t ht => absurd ht List.not_mem_nil
  | cons name names ih =>
    have hfirst := hvisit cancelled p name hs
    have hnext := hafter _ hfirst
    rw [after_visitStep] at hnext
    exact List.forall_mem_cons.2 ⟨hfirst, ih hnext⟩

/-- What visits do with sheets that have a property, every step of the update after an edit does. -/
theorem autoSteps_induction (id : GroupId) (hs : P s) : ∀ t ∈ s.autoSteps host id, Q t := by
  unfold autoSteps
  split_ifs
  · exact passSteps_induction hafter hvisit uncancelled _ (p := { sheet := s }) hs
  · exact fun t ht => absurd ht List.not_mem_nil

variable
  (henter : ∀ s statement, P s → Q (.quiet s (s.enterGroup host statement).value.1))
  (hchange : ∀ s id statement, P s → Q (.quiet s (s.changeGroup host id statement).value.1))
  (hremove : ∀ s id, P s → Q (.quiet s (s.removeGroup id).value.1))
  (honly : ∀ s name, P s → s.hasEquation name = true →
    Q (.execution host s name (s.updateOnly host name).value.1 false))
  (hreset : ∀ s, P s → Q (.quiet s (s.reset host).value))
  (hsame : ∀ s, P s → Q (.quiet s s))

include henter hchange hremove honly hreset hsame

/-- What every sort of step does, every step of an operation does. -/
theorem steps_induction {op : SheetOperation}
    (hstatus : ∀ name status message, op = .setStatus name status message →
      Q (.quiet s (s.setStatus name status message).value.1)) (hs : P s) :
    ∀ t ∈ s.steps host op, Q t := by
  cases op with
  | addGroup statement =>
    have hfirst := henter s statement hs
    rw [steps]
    rcases hvalue : (s.enterGroup host statement).value with ⟨entered, e | id⟩ <;>
      rw [hvalue] at hfirst
    · exact List.forall_mem_singleton.2 hfirst
    · exact List.forall_mem_cons.2 ⟨hfirst, autoSteps_induction hafter hvisit id (hafter _ hfirst)⟩
  | editGroup id statement =>
    have hfirst := hchange s id statement hs
    rw [steps]
    rcases hvalue : (s.changeGroup host id statement).value with ⟨changed, e | _ | _⟩ <;>
      rw [hvalue] at hfirst
    · exact List.forall_mem_singleton.2 hfirst
    · exact List.forall_mem_singleton.2 hfirst
    · exact List.forall_mem_cons.2 ⟨hfirst, autoSteps_induction hafter hvisit id (hafter _ hfirst)⟩
  | removeGroup id => exact List.forall_mem_singleton.2 (hremove s id hs)
  | update scope => exact passSteps_induction hafter hvisit uncancelled _ (p := { sheet := s }) hs
  | updateUnless cancelled scope =>
    exact passSteps_induction hafter hvisit cancelled _ (p := { sheet := s }) hs
  | updateOnly name =>
    rw [steps]
    split_ifs with hname
    · exact List.forall_mem_singleton.2 (honly s name hs hname)
    · have hrefused : (s.updateOnly host name).value.1 = s := by
        unfold updateOnly
        rw [if_neg hname]
        rfl
      rw [hrefused]
      exact List.forall_mem_singleton.2 (hsame s hs)
  | eval expression => exact List.forall_mem_singleton.2 (hsame s hs)
  | reset => exact List.forall_mem_singleton.2 (hreset s hs)
  | setStatus name status message => exact List.forall_mem_singleton.2 (hstatus name status message rfl)

omit hvisit henter hchange hremove honly hreset hsame

/-- What every step of each operation does, every step of a history does. -/
theorem history_induction {operations : List (Host × SheetOperation)}
    (hsteps : ∀ operation ∈ operations, ∀ s, P s → ∀ t ∈ s.steps operation.1 operation.2, Q t) (hs : P s) :
    ∀ t ∈ s.history operations, Q t := by
  induction operations generalizing s with
  | nil => exact fun t ht => absurd ht List.not_mem_nil
  | cons operation operations ih =>
    rw [List.forall_mem_cons] at hsteps
    have hfirst := hsteps.1 s hs
    refine List.forall_mem_append.2 ⟨hfirst, ih hsteps.2 ?_⟩
    exact (leads_steps operation.1 s operation.2).keeps hafter hs hfirst

end Induction

/-! ## Edits execute nothing -/

/-- The host is not asked to execute anything. -/
abbrev Silent {α : Type} (t : Traced Event α) : Prop := t.Every fun e => e.executed? = none

/-- Of a silent operation no event tells of an execution. -/
theorem Silent.filterMap_eq_nil {α : Type} {t : Traced Event α} (h : Silent t) :
    t.events.filterMap Event.executed? = [] := List.filterMap_eq_nil_iff.2 h

/-- An operation that announces changes of structure only is silent. -/
theorem AtStage.silent {α : Type} {t : Traced Event α} (h : AtStage 0 t) : Silent t := by
  refine h.mono fun e he => ?_
  cases e with
  | parse mode code => rfl
  | run mode code => cases he
  | announce a => rfl

/-- Announcing an update of an equation is silent. -/
theorem silent_announceUpdate (s : Sheet) (name : String) (flags : EquationFlags) :
    Silent (s.announceUpdate name flags) := by
  refine Traced.Every.announce? fun event hevent => ?_
  obtain ⟨e, -, rfl⟩ := Option.map_eq_some_iff.1 hevent
  rfl

theorem silent_flush (s : Sheet) (snapshot : LinkSnapshot) : Silent (s.flush snapshot) := by
  refine Traced.Every.bind (Traced.Every.forM fun change _ => ?_) (Traced.Every.pure _)
  dsimp only
  split_ifs
  · exact Traced.Every.pure _
  · exact silent_announceUpdate _ _ _

/-- Parsing a statement is silent. -/
theorem silent_parseStatement (host : Host) (statement : String) :
    Silent (parseStatement host statement) := by
  intro e he
  rw [events_parseStatement, List.mem_singleton] at he
  rw [he]
  rfl

/-- `Sheet.enterGroup` is silent: the update comes after it. -/
theorem silent_enterGroup (host : Host) (s : Sheet) (statement : String) :
    Silent (s.enterGroup host statement) := by
  refine Traced.Every.bind (silent_parseStatement host statement) ?_
  split
  · exact Traced.Every.pure _
  · split
    · exact Traced.Every.pure _
    · dsimp only
      split
      · exact Traced.Every.pure _
      · refine Traced.Every.bind (atStage_createGroup _ statement _).silent ?_
        exact Traced.Every.bind (silent_flush _ _) (Traced.Every.pure _)

/-- `Sheet.changeGroup` is silent: the update comes after it. -/
theorem silent_changeGroup (host : Host) (s : Sheet) (id : GroupId) (statement : String) :
    Silent (s.changeGroup host id statement) := by
  unfold changeGroup
  split
  · exact Traced.Every.pure _
  · split_ifs
    · exact Traced.Every.pure _
    · refine Traced.Every.bind (silent_parseStatement host statement) ?_
      split
      · exact Traced.Every.pure _
      · dsimp only
        split
        · exact Traced.Every.pure _
        · split
          · exact Traced.Every.pure _
          · refine Traced.Every.bind (atStage_applyDiff _ id statement _ _).silent ?_
            exact Traced.Every.bind (silent_flush _ _) (Traced.Every.pure _)

theorem silent_removeGroup (s : Sheet) (id : GroupId) : Silent (s.removeGroup id) := by
  unfold removeGroup
  split
  · exact Traced.Every.pure _
  · dsimp only
    split
    · exact Traced.Every.pure _
    · refine Traced.Every.bind (Traced.Every.announce rfl) ?_
      refine Traced.Every.bind (atStage_destroys _ _).silent ?_
      exact Traced.Every.bind (silent_flush _ _) (Traced.Every.pure _)

/-- `Sheet.eval` is silent: the host evaluates an expression, which is no equation. -/
theorem silent_eval (host : Host) (s : Sheet) (expression : String) :
    Silent (s.eval host expression) := by
  refine Traced.Every.bind (Traced.Every.announce rfl) ?_
  split
  · exact Traced.Every.pure _
  · split
    · exact Traced.Every.pure _
    · exact Traced.Every.bind (Traced.Every.announce rfl) (Traced.Every.pure _)

theorem silent_setStatus (s : Sheet) (name : String) (status : Status) (message : String) :
    Silent (s.setStatus name status message) := by
  unfold setStatus
  split_ifs
  · exact Traced.Every.bind (silent_announceUpdate _ _ _) (Traced.Every.pure _)
  · exact Traced.Every.pure _

/-! ## The steps execute what the host is asked to execute -/

/-- The execution that shows in the events of a visit is that of its step. -/
theorem executed_visitStep (host : Host) (cancelled : Nat → Bool) (p : UpdatePass) (name : String) :
    (p.visit host cancelled name).events.filterMap Event.executed? =
      (visitStep host cancelled p name).code?.toList := by
  have hsilent : Silent (p.sheet.markInterrupted name) :=
    Traced.Every.bind (silent_announceUpdate _ _ _) (Traced.Every.pure _)
  have hevents : ((p.sheet.markClean name).evaluate host name).events.filterMap Event.executed? =
      ((p.sheet.equation? name).map Equation.code).toList :=
    executed_evaluate host (p.sheet.markClean name) name
  unfold UpdatePass.visit visitStep executes
  by_cases hdirty : p.sheet.isDirty name = true
  · by_cases hinterrupted : (p.check cancelled).interrupted = true
    · simp [hdirty, hinterrupted, sheet_check, UpdatePass.withSheet, hsilent.filterMap_eq_nil,
        Step.code?, Step.quiet]
    · by_cases hneeds : p.sheet.graph.needsEvaluation name = true
      · simp [hdirty, hinterrupted, hneeds, sheet_check, UpdatePass.withSheet, hevents, Step.code?,
          Step.execution]
      · simp [hdirty, hinterrupted, hneeds, sheet_check, Step.code?, Step.quiet]
  · simp [hdirty, Step.code?, Step.quiet]

/-- The executions that show in the events of a pass are those of its steps. -/
theorem executed_passSteps (host : Host) (cancelled : Nat → Bool) (names : List String)
    (p : UpdatePass) :
    (names.foldlM (UpdatePass.visit host cancelled) p).events.filterMap Event.executed? =
      (passSteps host cancelled p names).filterMap Step.code? := by
  induction names generalizing p with
  | nil => rfl
  | cons name names ih =>
    rw [List.foldlM_cons, Traced.events_bind, List.filterMap_append, executed_visitStep, ih, passSteps,
      List.filterMap_cons]
    cases (visitStep host cancelled p name).code? <;> rfl

/-- The executions that show in the events of an update are those of its steps. -/
theorem executed_updateSteps (host : Host) (s : Sheet) (scope : UpdateScope)
    (cancelled : Nat → Bool) :
    (s.update host scope cancelled).events.filterMap Event.executed? =
      (s.updateSteps host scope cancelled).filterMap Step.code? := by
  unfold updateSteps scheduled update
  cases s.order scope with
  | error e => rfl
  | ok names =>
    show List.filterMap Event.executed?
      ((names.foldlM (UpdatePass.visit host cancelled) { sheet := s }).events ++ []) = _
    rw [List.append_nil]
    exact executed_passSteps host cancelled names { sheet := s }

/-- The executions that show in the events of the update after an edit are those of its steps. -/
theorem executed_autoSteps (host : Host) (s : Sheet) (id : GroupId) :
    (s.autoUpdate host id).events.filterMap Event.executed? =
      (s.autoSteps host id).filterMap Step.code? := by
  unfold autoSteps autoUpdate
  split_ifs
  · rw [← executed_updateSteps]
    simp
  · rfl

/-- `Sheet.updateOnly` shows in the events as an execution of its equation, if there is one. -/
theorem executed_updateOnly (host : Host) (s : Sheet) (name : String) :
    (s.updateOnly host name).events.filterMap Event.executed? =
      if s.hasEquation name then ((s.equation? name).map Equation.code).toList else [] := by
  unfold updateOnly
  split_ifs
  · rw [← executed_evaluate host s name]
    simp
  · rfl

/-- Announcing the end of a group is silent. -/
theorem silent_announceEnd (g : Group) : Silent (announceEnd g) := by
  refine Traced.Every.bind (Traced.Every.announce rfl) ?_
  exact Traced.Every.forM fun e _ =>
    Traced.Every.bind (Traced.Every.announce rfl) (Traced.Every.announce rfl)

/-- The startup scripts that an operation executes. -/
def scripts (s : Sheet) : SheetOperation → List String
  | .reset => s.options.startupScript.toList
  | _ => []

/-- `Sheet.reset` shows in the events as an execution of the startup script, if there is one. -/
theorem executed_reset (host : Host) (s : Sheet) :
    (s.reset host).events.filterMap Event.executed? = s.options.startupScript.toList := by
  have hend : Silent (s.groups.values.forM announceEnd) :=
    Traced.Every.forM fun g _ => silent_announceEnd g
  rw [reset, Traced.events_bind, List.filterMap_append, hend.filterMap_eq_nil]
  unfold startUp
  cases s.options.startupScript <;> rfl

/-- The events of an operation are those of its work; putting its reply into words adds none. -/
theorem events_perform (host : Host) (s : Sheet) (op : SheetOperation) :
    (s.perform host op).events =
      match op with
      | .addGroup statement => (s.addGroup host statement).events
      | .editGroup id statement => (s.editGroup host id statement).events
      | .removeGroup id => (s.removeGroup id).events
      | .update scope => (s.update host scope uncancelled).events
      | .updateUnless cancelled scope => (s.update host scope cancelled).events
      | .updateOnly name => (s.updateOnly host name).events
      | .eval expression => (s.eval host expression).events
      | .reset => (s.reset host).events
      | .setStatus name status message => (s.setStatus name status message).events := by
  cases op <;> exact List.append_nil _

/-- Besides the startup script at a reset, an operation asks the host to execute the code of the
equations that its steps execute, in this order. -/
theorem executed_perform (host : Host) (s : Sheet) (op : SheetOperation) :
    (s.perform host op).events.filterMap Event.executed? =
      s.scripts op ++ (s.steps host op).filterMap Step.code? := by
  rw [events_perform]
  cases op with
  | addGroup statement =>
    dsimp only
    rw [addGroup, Traced.events_bind, List.filterMap_append,
      (silent_enterGroup host s statement).filterMap_eq_nil, steps]
    rcases (s.enterGroup host statement).value with ⟨entered, e | id⟩
    · rfl
    · simpa [scripts, Step.code?, Step.quiet] using executed_autoSteps host entered id
  | editGroup id statement =>
    dsimp only
    rw [editGroup, Traced.events_bind, List.filterMap_append,
      (silent_changeGroup host s id statement).filterMap_eq_nil, steps]
    rcases (s.changeGroup host id statement).value with ⟨changed, e | _ | _⟩
    · rfl
    · rfl
    · simpa [scripts, Step.code?, Step.quiet] using executed_autoSteps host changed id
  | removeGroup id => exact (silent_removeGroup s id).filterMap_eq_nil
  | update scope => exact executed_updateSteps host s scope uncancelled
  | updateUnless cancelled scope => exact executed_updateSteps host s scope cancelled
  | updateOnly name =>
    dsimp only
    rw [executed_updateOnly, steps]
    split_ifs with hname
    · cases he : s.equation? name <;> simp [scripts, Step.code?, Step.execution, he]
    · rfl
  | eval expression => exact (silent_eval host s expression).filterMap_eq_nil
  | reset => exact (executed_reset host s).trans (List.append_nil _).symm
  | setStatus name status message => exact (silent_setStatus s name status message).filterMap_eq_nil

end Recalc.Sheet
