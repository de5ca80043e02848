/-!
# Named alternatives

Types with finitely many values, each with a name of its own. Reading a name finds the value it
belongs to, and anything else is refused.
-/

namespace Recalc

/-- A type whose values have names. -/
class Named (α : Type) where
  /-- What a value of the type is called in messages. -/
  kind : String
  /-- All values, in the order of declaration. -/
  all : List α
  /-- The name of a value, in lower case with underscores between words. -/
  name : α → String

/-- A name that belongs to no value of a type. -/
structure UnknownName where
  /-- What was looked for. -/
  kind : String
  /-- The name given. -/
  value : String
  deriving DecidableEq, Repr

/-- The refusal as a sentence. -/
def UnknownName.message (e : UnknownName) : String :=
  "unknown " ++ e.kind ++ " `" ++ e.value ++ "`"

namespace Named

variable {α : Type} [Named α]

/-- The value of a name. -/
def ofName? (text : String) : Option α := (all : List α).find? fun a => name a = text

/-- The value of a name, or what to say about an unknown one. -/
def ofName (α : Type) [Named α] (text : String) : Except UnknownName α :=
  match (ofName? text : Option α) with
  | some a => .ok a
  | none => .error ⟨kind α, text⟩

/-- Join the words of a name, each with a capital; `start` tells whether a word begins here. -/
def joinWords : (start : Bool) → List Char → List Char
  | _, [] => []
  | _, '_' :: cs => joinWords true cs
  | start, c :: cs => (if start then c.toUpper else c) :: joinWords false cs

/-- The name of a value written as one capitalised word. -/
def title (a : α) : String := String.ofList (joinWords true (name a).toList)

end Named

end Recalc
