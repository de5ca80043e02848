import Recalc.Equation.Kind
import Recalc.OrderedMap
import Recalc.Uuid

/-!
# Equations and groups

An equation is one named item that can be evaluated on its own. Every equation belongs to a group:
the equations that were parsed out of one statement, in the order of the statement.
-/

namespace Recalc

/-- The identity of a group: one that a sheet generated for it, or a UUID given from outside.

A generated identity is a random UUID. It is known here by the number of the group that it was generated for,
so that generated identities are taken to be distinct, from each other and from those given from outside. -/
inductive GroupId where
  /-- The random UUID generated for the `n`-th group created in a sheet, counted from 0. -/
  | serial (n : Nat)
  /-- A UUID given from outside. -/
  | uuid (u : Uuid)
  deriving DecidableEq, Repr

/-- The identity as text. -/
def GroupId.text : GroupId → String
  | .serial n => "#" ++ toString n
  | .uuid u => u.text

/-- A named item of a statement. -/
structure Equation where
  /-- The name it binds. -/
  name : String
  /-- Its text without the name. -/
  content : String
  /-- What kind of item it is. -/
  kind : ItemKind
  /-- How its last evaluation ended. -/
  status : Status
  /-- What the last evaluation had to say. -/
  message : String
  /-- The group it belongs to. -/
  group : GroupId
  deriving DecidableEq, Repr

/-- An equation that has not been evaluated. -/
def Equation.fresh (name content : String) (kind : ItemKind) (group : GroupId) : Equation :=
  { name, content, kind, status := .pending, message := "", group }

/-- The equations of one statement. -/
structure Group where
  /-- Its identity. -/
  id : GroupId
  /-- The statement, as it was given last. -/
  statement : String
  /-- The equations by name, in the order of the statement. -/
  equations : OrderedMap String Equation
  deriving DecidableEq

namespace Group

/-- The names of the equations, in order. -/
def names (g : Group) : List String := g.equations.keys

/-- The equations, in order. -/
def members (g : Group) : List Equation := g.equations.values

/-- Add an equation at the end, or replace the one of the same name. -/
def put (g : Group) (e : Equation) : Group := { g with equations := g.equations.insert e.name e }

/-- Remove an equation. -/
def remove (g : Group) (name : String) : Group := { g with equations := g.equations.erase name }

/-- Bring the equations into the order of a list of names; those not listed go last and keep their
order. -/
def reorder (g : Group) (names : List String) : Group :=
  { g with equations := g.equations.sortBy fun name => names.idxOf name }

end Group

end Recalc
