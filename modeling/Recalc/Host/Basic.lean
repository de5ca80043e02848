import Recalc.Equation.Kind
import Recalc.Host.Store

/-!
# Hosts

A sheet knows nothing about the language of its equations. A host provides it: a parser that splits
a statement into named items and reports what each of them reads, and an interpreter that executes
code against a store, or evaluates an expression without changing anything.
-/

namespace Recalc

/-- What a text is parsed as. -/
inductive ParseMode where
  /-- Statements that bind names. -/
  | statement
  /-- One expression; a fault in it is reported as an item of kind error. -/
  | expression
  deriving DecidableEq, Repr

instance : Named ParseMode where
  kind := "parse mode"
  all := [.statement, .expression]
  name
    | .statement => "statement"
    | .expression => "expression"

/-- What code is run for. -/
inductive RunMode where
  /-- For its effect on the store. -/
  | exec
  /-- For its value. -/
  | eval
  deriving DecidableEq, Repr

instance : Named RunMode where
  kind := "interpret mode"
  all := [.exec, .eval]
  name
    | .exec => "exec"
    | .eval => "eval"

/-- A statement could not be parsed. -/
structure ParseError where
  /-- What the parser had to say. -/
  text : String
  deriving DecidableEq, Repr

/-- The failure as a sentence. -/
def ParseError.message (e : ParseError) : String := "parse error: " ++ e.text

/-- One named item found by a parser. -/
structure ParseItem where
  /-- The name it binds. -/
  name : String
  /-- Its text without the name. -/
  content : String
  /-- What kind of item it is. -/
  kind : ItemKind := .var
  /-- The names it reads. -/
  dependencies : List String := []
  /-- For an item of kind error, what is wrong; pending otherwise. -/
  status : Status := .pending
  /-- For an item of kind error, what there is to say about it. -/
  message : String := ""
  deriving DecidableEq, Repr

namespace ParseItem

/-- The item that reports a fault. -/
def fault (status : Status) (message : String) : ParseItem :=
  { name := "", content := "", kind := .error, status, message }

/-- Whether the item reports a fault. -/
def isError (i : ParseItem) : Bool := i.kind == .error

end ParseItem

/-- How a run of code ended. -/
structure Outcome where
  /-- Success, or the kind of failure. -/
  status : Status
  /-- What there is to say about a failure. -/
  message : String := ""
  /-- The value, if there is one. -/
  value : Option Json := none

namespace Outcome

/-- A run that succeeded. -/
def success (value : Option Json) : Outcome := { status := .success, value }

/-- A run that failed. -/
def failure (status : Status) (message : String) : Outcome := { status, message }

/-- Whether the run succeeded. -/
def isSuccess (o : Outcome) : Bool := o.status.isSuccess

end Outcome

/-- The language of a sheet. -/
structure Host where
  /-- Split a text into items. -/
  parse : ParseMode → String → Except ParseError (List ParseItem)
  /-- Run code for its effect. -/
  exec : String → Store → Outcome × Store
  /-- Compute the value of an expression. -/
  eval : String → Store → Outcome
  /-- The name of the language. -/
  language : String := ""

namespace Host

/-- A host whose interpreter may always change the store: an expression is evaluated on a copy. -/
def ofRun (parse : ParseMode → String → Except ParseError (List ParseItem))
    (run : RunMode → String → Store → Outcome × Store) : Host where
  parse := parse
  exec := run .exec
  eval code store := (run .eval code store.copy).1

/-- Run code as the mode says. -/
def interpret (h : Host) (mode : RunMode) (code : String) (store : Store) : Outcome × Store :=
  match mode with
  | .exec => h.exec code store
  | .eval => (h.eval code store, store)

end Host

end Recalc
