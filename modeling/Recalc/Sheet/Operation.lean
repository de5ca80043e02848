import Recalc.Sheet.Edit

/-!
# Operations

The operations of a sheet as data. The states that users of a sheet can reach are the results of
runs of operations that start from a new sheet.
-/

namespace Recalc

/-- An operation of a sheet. -/
inductive SheetOperation where
  | addGroup (statement : String)
  | editGroup (id : GroupId) (statement : String)
  | removeGroup (id : GroupId)
  | update (scope : UpdateScope)
  /-- Update a scope; the function answers the questions whether it has been cancelled. -/
  | updateUnless (cancelled : Nat → Bool) (scope : UpdateScope)
  | updateOnly (name : String)
  | eval (expression : String)
  | reset
  | setStatus (name : String) (status : Status) (message : String)

/-- What an operation answers. -/
inductive SheetReply where
  /-- Nothing to tell. -/
  | done
  /-- A group was created. -/
  | created (id : GroupId)
  /-- How often an update asked whether it has been cancelled. -/
  | checked (n : Nat)
  /-- The outcome of an evaluation. -/
  | outcome (o : Outcome)
  /-- The operation failed. -/
  | failed (e : SheetError)

/-- The reply of an operation that may fail. -/
def SheetReply.ofExcept {α : Type} (reply : α → SheetReply) : Except SheetError α → SheetReply
  | .ok a => reply a
  | .error e => .failed e

namespace Sheet

/-- Perform one operation. -/
def perform (host : Host) (s : Sheet) : SheetOperation → Traced Event (Sheet × SheetReply)
  | .addGroup statement => do
    let (s, r) ← s.addGroup host statement
    pure (s, .ofExcept .created r)
  | .editGroup id statement => do
    let (s, r) ← s.editGroup host id statement
    pure (s, .ofExcept (fun _ => .done) r)
  | .removeGroup id => do
    let (s, r) ← s.removeGroup id
    pure (s, .ofExcept (fun _ => .done) r)
  | .update scope => do
    let (s, r) ← s.update host scope uncancelled
    pure (s, .ofExcept (fun _ => .done) r)
  | .updateUnless cancelled scope => do
    let (s, r) ← s.update host scope cancelled
    pure (s, .ofExcept .checked r)
  | .updateOnly name => do
    let (s, r) ← s.updateOnly host name
    pure (s, .ofExcept (fun _ => .done) r)
  | .eval expression => do
    let o ← s.eval host expression
    pure (s, .outcome o)
  | .reset => do
    let s ← s.reset host
    pure (s, .done)
  | .setStatus name status message => do
    let (s, r) ← s.setStatus name status message
    pure (s, .ofExcept (fun _ => .done) r)

/-- Perform operations one after the other, each over a host of its own, forgetting their replies. -/
def performEach (s : Sheet) (steps : List (Host × SheetOperation)) : Traced Event Sheet :=
  steps.foldlM (fun s step => Prod.fst <$> s.perform step.1 step.2) s

/-- Perform operations one after the other over one host, forgetting their replies. -/
def performAll (host : Host) (s : Sheet) (operations : List SheetOperation) :
    Traced Event Sheet :=
  s.performEach (operations.map (host, ·))

end Sheet

end Recalc
