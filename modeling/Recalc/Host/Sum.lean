import Recalc.Host.Basic
import Recalc.OrderedSet
import Recalc.Text.Basic

/-!
# The language of sums

A statement is a list of bindings `name=term+term+…`, separated by semicolons or line breaks; a term
is an integer literal of 64 bits or a name. Executing a binding gives its name the sum of its terms.
An expression is a sum without a binding.
-/

namespace Recalc.Sum

/-- The terms of a sum, without the blanks around them. -/
def terms (sum : String) : List String := (Text.pieces (· = '+') sum).map Text.trim

/-- Whether a term is a name rather than a literal. -/
def isName (term : String) : Bool := (Text.integer? term).isNone

/-- The names that a sum reads, each once, in the order of their first occurrence. -/
def namesRead (sum : String) : List String := (OrderedSet.ofList ((terms sum).filter isName)).toList

/-- Read one binding. -/
def binding (part : String) : Except ParseError ParseItem :=
  match Text.cut? '=' part with
  | none => .error ⟨"expected `name=expression`, got `" ++ part ++ "`"⟩
  | some (name, content) =>
    let name := Text.trim name
    let content := Text.trim content
    if name = "" ∨ content = "" ∨ "" ∈ terms content then
      .error ⟨"malformed statement `" ++ part ++ "`"⟩
    else .ok { name, content, dependencies := namesRead content }

/-- The parts of a statement that hold a binding each. -/
def parts (code : String) : List String :=
  ((Text.pieces (fun c => c = ';' || c = '\n') code).map Text.trim).filter (· ≠ "")

/-- Split a text into items. -/
def parse : ParseMode → String → Except ParseError (List ParseItem)
  | .statement, code => (parts code).mapM binding
  | .expression, code =>
    if Text.trim code = "" ∨ '=' ∈ code.toList ∨ "" ∈ terms code then
      .ok [.fault .syntaxError ("invalid expression `" ++ code ++ "`")]
    else .ok [{ name := "", content := Text.trim code, kind := .expr }]

/-- The integer that a term stands for. -/
def termValue (store : Store) (term : String) : Except Outcome Int :=
  match Text.integer? term with
  | some n => .ok n
  | none =>
    match store.get? term with
    | some (.int n) =>
      if Text.fits64 n then .ok n
      else .error (.failure .typeError ("`" ++ term ++ "` is not an integer"))
    | some (.float _) => .error (.failure .typeError ("`" ++ term ++ "` is not an integer"))
    | some _ => .error (.failure .typeError ("`" ++ term ++ "` is not a number"))
    | none => .error (.failure .nameError ("name '" ++ term ++ "' is not defined"))

/-- Add the terms from left to right; the total has to fit 64 bits after every step. -/
def total (store : Store) (sum : String) : Except Outcome Int :=
  (terms sum).foldlM (fun n term => do
    let m ← termValue store term
    if Text.fits64 (n + m) then .ok (n + m)
    else .error (.failure .overflowError "integer overflow")) 0

/-- Run code: a binding gives its name a value when executed, everything else is a sum. -/
def run (mode : RunMode) (code : String) (store : Store) : Outcome × Store :=
  match mode, Text.cut? '=' code with
  | .exec, some (name, sum) =>
    match total store sum with
    | .ok n => (.success (some (.int n)), store.set (Text.trim name) (.int n))
    | .error failure => (failure, store)
  | _, _ =>
    match total store code with
    | .ok n => (.success (some (.int n)), store)
    | .error failure => (failure, store)

/-- The host of the language of sums. -/
def host : Host := .ofRun parse run

end Recalc.Sum
