import Recalc.Named

/-!
# Kinds and statuses

What an equation binds, and how its last evaluation ended.
-/

namespace Recalc

/-- What kind of item a name stands for. -/
inductive ItemKind where
  | var
  | func
  | classDef
  | importModule
  | importFrom
  | expr
  /-- Text that could not be parsed. -/
  | error
  deriving DecidableEq, Repr, Inhabited

instance : Named ItemKind where
  kind := "item type"
  all := [.var, .func, .classDef, .importModule, .importFrom, .expr, .error]
  name
    | .var => "variable"
    | .func => "function"
    | .classDef => "class"
    | .importModule => "import"
    | .importFrom => "import_from"
    | .expr => "expression"
    | .error => "error"

/-- How the last evaluation of an equation ended. -/
inductive Status where
  /-- Not evaluated yet. -/
  | pending
  | success
  | syntaxError
  | nameError
  | typeError
  | zeroDivisionError
  | valueError
  | memoryError
  | overflowError
  | recursionError
  | indexError
  | keyError
  | attributeError
  /-- The update was cancelled before the equation was reached. -/
  | interrupted
  deriving DecidableEq, Repr, Inhabited

instance : Named Status where
  kind := "result status"
  all := [.pending, .success, .syntaxError, .nameError, .typeError, .zeroDivisionError,
    .valueError, .memoryError, .overflowError, .recursionError, .indexError, .keyError,
    .attributeError, .interrupted]
  name
    | .pending => "pending"
    | .success => "success"
    | .syntaxError => "syntax_error"
    | .nameError => "name_error"
    | .typeError => "type_error"
    | .zeroDivisionError => "zero_division_error"
    | .valueError => "value_error"
    | .memoryError => "memory_error"
    | .overflowError => "overflow_error"
    | .recursionError => "recursion_error"
    | .indexError => "index_error"
    | .keyError => "key_error"
    | .attributeError => "attribute_error"
    | .interrupted => "interrupted"

namespace Status

/-- Whether an evaluation succeeded. -/
def isSuccess (s : Status) : Bool := s == .success

/-- Whether an evaluation failed: neither success, nor missing, nor cut short. -/
def isError (s : Status) : Bool := !(s == .pending || s == .success || s == .interrupted)

end Status

end Recalc
