import Recalc.Equation.Basic
import Recalc.Equation.Flags
import Recalc.Host.Basic

/-!
# Events

What the outside can see of the work of a sheet: the calls of its host, and the announcements to its
listeners. An announcement carries the equation or group as it is at that moment.
-/

namespace Recalc

/-- The kinds of announcements. -/
inductive EventKind where
  | equationAdded
  | equationRemoving
  | equationRemoved
  | equationUpdated
  | groupAdded
  | groupRemoving
  | groupUpdated
  deriving DecidableEq, Repr

instance : Named EventKind where
  kind := "event"
  all := [.equationAdded, .equationRemoving, .equationRemoved, .equationUpdated, .groupAdded,
    .groupRemoving, .groupUpdated]
  name
    | .equationAdded => "equation_added"
    | .equationRemoving => "equation_removing"
    | .equationRemoved => "equation_removed"
    | .equationUpdated => "equation_updated"
    | .groupAdded => "group_added"
    | .groupRemoving => "group_removing"
    | .groupUpdated => "group_updated"

/-- An announcement to listeners. -/
inductive Announcement where
  /-- An equation was created. -/
  | equationAdded (equation : Equation)
  /-- An equation is about to go; it is still as it was. -/
  | equationRemoving (equation : Equation)
  /-- The equation of a name is gone. -/
  | equationRemoved (name : String)
  /-- Some parts of an equation changed. -/
  | equationUpdated (equation : Equation) (flags : EquationFlags)
  /-- A group was created. -/
  | groupAdded (group : Group)
  /-- A group is about to go; it is still as it was. -/
  | groupRemoving (group : Group)
  /-- Some parts of a group changed. -/
  | groupUpdated (group : Group) (flags : GroupFlags)
  deriving DecidableEq

/-- The kind of an announcement. -/
def Announcement.kind : Announcement → EventKind
  | .equationAdded _ => .equationAdded
  | .equationRemoving _ => .equationRemoving
  | .equationRemoved _ => .equationRemoved
  | .equationUpdated .. => .equationUpdated
  | .groupAdded _ => .groupAdded
  | .groupRemoving _ => .groupRemoving
  | .groupUpdated .. => .groupUpdated

/-- Something that the outside can see. -/
inductive Event where
  /-- The host was asked to parse a text. -/
  | parse (mode : ParseMode) (code : String)
  /-- The host was asked to run code. -/
  | run (mode : RunMode) (code : String)
  /-- An announcement was made. -/
  | announce (a : Announcement)
  deriving DecidableEq

end Recalc
