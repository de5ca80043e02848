import Recalc.Sheet.Basic

/-!
# Updates

An update walks the evaluation order of its scope. Clean equations are skipped. A dirty one becomes
clean, and is executed if the graph says that something it reads changed. Before each dirty equation
the update asks whether it has been cancelled; from the first yes on, the remaining dirty equations
are marked as interrupted and stay dirty.
-/

namespace Recalc

/-- The code that evaluates an equation: a variable is bound to its content, everything else is
executed as it stands. -/
def Equation.code (e : Equation) : String :=
  match e.kind with
  | .var => e.name ++ " = " ++ e.content
  | _ => e.content

/-- Which equations an update covers. -/
inductive UpdateScope where
  /-- All equations. -/
  | all
  /-- An equation and everything that depends on it. -/
  | equation (name : String)
  /-- The equations of a group and everything that depends on them. -/
  | group (id : GroupId)
  deriving DecidableEq, Repr

namespace Sheet

/-- The parts of an equation that an evaluation sets. -/
def evaluatedFields : EquationFlags := .of .status ∪ .of .message ∪ .of .value

/-- The parts of an equation that are set without evaluating it. -/
def resultFields : EquationFlags := .of .status ∪ .of .message

/-- Whether a node exists and was never stamped. -/
def isUnstamped (s : Sheet) (name : String) : Bool :=
  (s.graph.node? name).any fun n => n.stamp == Stamp.never

/-- Take over what a run of the code of an equation left behind. Success changes the visible value
if the stored value differs from before. Failure takes the stored value away, so that nobody reads
an outdated one; the visible value changes if there was one or if the node was never stamped. -/
def conclude (s : Sheet) (name : String) (outcome : Outcome) (after : Store) : Sheet :=
  let (store, changed) :=
    if outcome.isSuccess then (after, after.get? name != s.store.get? name)
    else
      let (store, was) := after.remove name
      (store, was || s.isUnstamped name)
  let graph := if changed then (s.graph.touch name).1 else s.graph
  { s with store, graph }.setResult name outcome.status outcome.message

/-- Execute an equation. -/
def evaluate (host : Host) (s : Sheet) (name : String) : Traced Event Sheet :=
  match s.equation? name with
  | none => pure s
  | some e => do
    Traced.announce (.run .exec e.code)
    let (outcome, after) := host.exec e.code s.store
    let s := s.conclude name outcome after
    s.announceUpdate name evaluatedFields
    pure s

/-- Mark an equation as not reached. -/
def markInterrupted (s : Sheet) (name : String) : Traced Event Sheet := do
  let s := s.setResult name .interrupted "interrupted"
  s.announceUpdate name resultFields
  pure s

/-- The evaluation order of a scope. -/
def order (s : Sheet) : UpdateScope → Except SheetError (List String)
  | .all => .ok s.graph.evaluationOrder
  | .equation name =>
    if s.hasEquation name then .ok (s.graph.evaluationOrderFrom name) else .error (.notFound name)
  | .group id =>
    match s.group? id with
    | some g => .ok (s.graph.evaluationOrderOf g.names)
    | none => .error (.groupNotFound id)

end Sheet

/-- An update on its way. -/
structure UpdatePass where
  /-- The sheet so far. -/
  sheet : Sheet
  /-- How often the update asked whether it has been cancelled. -/
  checks : Nat := 0
  /-- Whether the answer was yes. -/
  interrupted : Bool := false

namespace UpdatePass

/-- Ask whether the update has been cancelled, unless that is known; `cancelled n` is the answer to
the `n`-th question, counted from 0. -/
def check (p : UpdatePass) (cancelled : Nat → Bool) : UpdatePass :=
  if p.interrupted then p
  else { p with checks := p.checks + 1, interrupted := cancelled p.checks }

/-- Put the sheet that an action left behind into the update. -/
def withSheet (p : UpdatePass) (t : Traced Event Sheet) : Traced Event UpdatePass := do
  let sheet ← t
  pure { p with sheet }

/-- Look at one equation. -/
def visit (host : Host) (cancelled : Nat → Bool) (p : UpdatePass) (name : String) :
    Traced Event UpdatePass :=
  if p.sheet.isDirty name then
    let p := p.check cancelled
    if p.interrupted then p.withSheet (p.sheet.markInterrupted name)
    else
      let clean := p.sheet.markClean name
      if p.sheet.graph.needsEvaluation name then p.withSheet (clean.evaluate host name)
      else pure { p with sheet := clean }
  else pure p

end UpdatePass

namespace Sheet

/-- Never cancel. -/
def uncancelled : Nat → Bool := fun _ => false

/-- Update a scope; the number tells how often the update asked whether it has been cancelled. -/
def update (host : Host) (s : Sheet) (scope : UpdateScope) (cancelled : Nat → Bool) :
    Traced Event (Sheet × Except SheetError Nat) :=
  match s.order scope with
  | .error e => pure (s, .error e)
  | .ok names => do
    let p ← names.foldlM (UpdatePass.visit host cancelled) { sheet := s }
    pure (p.sheet, .ok p.checks)

/-- Execute one equation, clean or dirty, without the ones that depend on it: these are marked. -/
def updateOnly (host : Host) (s : Sheet) (name : String) :
    Traced Event (Sheet × Except SheetError Unit) :=
  if s.hasEquation name then do
    let s ← s.evaluate host name
    pure ((s.invalidate name).markClean name, .ok ())
  else pure (s, .error (.notFound name))

/-- Evaluate an expression against the values of the sheet. -/
def eval (host : Host) (s : Sheet) (expression : String) : Traced Event Outcome := do
  Traced.announce (.parse .expression expression)
  match host.parse .expression expression with
  | .error e => pure (.failure .syntaxError e.text)
  | .ok items =>
    match items.find? ParseItem.isError with
    | some item => pure (.failure item.status item.message)
    | none => do
      Traced.announce (.run .eval expression)
      pure (host.eval expression s.store)

/-- Set how the last evaluation of an equation ended, without evaluating it. -/
def setStatus (s : Sheet) (name : String) (status : Status) (message : String) :
    Traced Event (Sheet × Except SheetError Unit) :=
  if s.hasEquation name then do
    let s := s.setResult name status message
    s.announceUpdate name resultFields
    pure (s, .ok ())
  else pure (s, .error (.notFound name))

end Sheet

end Recalc
