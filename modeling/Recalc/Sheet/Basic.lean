import Recalc.Graph.Batch
import Recalc.Graph.Staleness
import Recalc.Options
import Recalc.Sheet.Event

/-!
# Sheets

A sheet owns groups of equations, the dependency graph between the equations, and the store of their
values. The names of equations are unique across groups, and an index finds the group of a name.

An operation that fails leaves the sheet as it was; errors say why it failed.
-/

namespace Recalc

/-- Why an operation of a sheet failed. -/
inductive SheetError where
  /-- The name is taken, or given twice. -/
  | alreadyExists (name : String)
  /-- There is no equation of the name. -/
  | notFound (name : String)
  /-- There is no such group. -/
  | groupNotFound (id : GroupId)
  /-- The change would make equations depend on themselves. -/
  | cycle (e : CycleError)
  /-- The statement could not be parsed. -/
  | parse (e : ParseError)
  deriving DecidableEq, Repr

/-- The failure as a sentence. -/
def SheetError.message : SheetError → String
  | .alreadyExists name => "equation `" ++ name ++ "` already exists"
  | .notFound name => "equation `" ++ name ++ "` not found"
  | .groupNotFound id => "equation group `" ++ id.text ++ "` not found"
  | .cycle e => e.message
  | .parse e => e.message

/-- Groups of equations with their graph and their values. -/
structure Sheet where
  /-- The dependency graph; its nodes are the names of the equations. -/
  graph : Graph := {}
  /-- The groups, oldest first. -/
  groups : OrderedMap GroupId Group := ∅
  /-- The group of each name. -/
  owners : OrderedMap String GroupId := ∅
  /-- The values. -/
  store : Store := {}
  /-- The options the sheet was created with. -/
  options : Options := {}
  /-- The link changes that the graph reported and that have not been announced, by name. -/
  pending : OrderedMap String EquationFlags := ∅
  /-- How many groups were ever created; the next one gets this number. -/
  created : Nat := 0

namespace Sheet

instance : Inhabited Sheet := ⟨{}⟩

/-! ## Reading -/

/-- The group of an identity. -/
def group? (s : Sheet) (id : GroupId) : Option Group := s.groups.get? id

/-- The equation of a name. -/
def equation? (s : Sheet) (name : String) : Option Equation := do
  let id ← s.owners.get? name
  let group ← s.groups.get? id
  group.equations.get? name

/-- Whether an equation exists. -/
def hasEquation (s : Sheet) (name : String) : Bool := s.owners.contains name

/-- The names of all equations, group by group. -/
def names (s : Sheet) : List String := s.groups.values.flatMap Group.names

/-- The value of a name. -/
def value? (s : Sheet) (name : String) : Option Json := s.store.get? name

/-- Whether an equation has to be looked at in the next update. -/
def isDirty (s : Sheet) (name : String) : Bool := (s.graph.node? name).any (·.dirty)

/-! ## Small changes -/

/-- Change a group; nothing happens if it does not exist. -/
def modifyGroup (s : Sheet) (id : GroupId) (f : Group → Group) : Sheet :=
  { s with groups := s.groups.modify id f }

/-- Change an equation; nothing happens if it does not exist. -/
def modifyEquation (s : Sheet) (name : String) (f : Equation → Equation) : Sheet :=
  match s.owners.get? name with
  | none => s
  | some id =>
    s.modifyGroup id fun g => { g with equations := g.equations.modify name f }

/-- Mark an equation and everything that depends on it. -/
def invalidate (s : Sheet) (name : String) : Sheet :=
  { s with graph := (s.graph.invalidate name).1 }

/-- Clear the mark of an equation. -/
def markClean (s : Sheet) (name : String) : Sheet :=
  { s with graph := (s.graph.markClean name).1 }

/-- Set how the last evaluation of an equation ended. -/
def setResult (s : Sheet) (name : String) (status : Status) (message : String) : Sheet :=
  s.modifyEquation name fun e => { e with status, message }

/-! ## Announcements -/

/-- Announce that parts of an equation changed, if it exists. -/
def announceUpdate (s : Sheet) (name : String) (flags : EquationFlags) : Traced Event Unit :=
  Traced.announce? ((s.equation? name).map fun e => .announce (.equationUpdated e flags))

end Sheet

/-- Make an announcement. -/
def Announcement.send (a : Announcement) : Traced Event Unit := Traced.announce (.announce a)

end Recalc
