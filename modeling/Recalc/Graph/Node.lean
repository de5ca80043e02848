import Recalc.OrderedSet

/-!
# Stamps and nodes

A stamp says when the visible value of a node last changed: stamps are issued one after the other by
a clock, and the stamp `0`, which is never issued, belongs to nodes that have not had a value since
they were created.

The `dependencies` and `dependents` of a node repeat what the edges say, restricted to edges whose
two ends exist. Only the graph changes them.
-/

namespace Recalc

/-- A place in the sequence of value changes. -/
abbrev Stamp := Nat

namespace Stamp

/-- The stamp of a node whose value never changed; it is older than every issued stamp. -/
def never : Stamp := 0

/-- A stamp as text. -/
def text (s : Stamp) : String := "EventStamp\x7b" ++ toString s ++ "\x7d"

end Stamp

/-- The source of stamps. -/
structure Clock where
  /-- The stamp issued last, `Stamp.never` at the start. -/
  last : Stamp := Stamp.never
  deriving DecidableEq, Repr

/-- Issue the next stamp. -/
def Clock.tick (c : Clock) : Stamp × Clock := (c.last + 1, ⟨c.last + 1⟩)

/-- What the graph keeps for one name. -/
structure Node where
  /-- The existing nodes that this one reads. -/
  dependencies : OrderedSet String := ∅
  /-- The existing nodes that read this one. -/
  dependents : OrderedSet String := ∅
  /-- Whether the node has to be looked at in the next update. -/
  dirty : Bool := false
  /-- When the visible value last changed. -/
  stamp : Stamp := Stamp.never
  deriving DecidableEq

namespace Node

instance : Inhabited Node := ⟨{}⟩

/-- Whether two nodes have the same links, in whatever order, the same dirty flag and the same
stamp. -/
def same (m n : Node) : Bool :=
  m.dependencies.sameElements n.dependencies && m.dependents.sameElements n.dependents &&
    m.dirty == n.dirty && m.stamp == n.stamp

/-- The node with one more dependency. -/
def addDependency (n : Node) (name : String) : Node :=
  { n with dependencies := n.dependencies.insert name }

/-- The node with one dependency less. -/
def removeDependency (n : Node) (name : String) : Node :=
  { n with dependencies := n.dependencies.erase name }

/-- The node with one more dependent. -/
def addDependent (n : Node) (name : String) : Node :=
  { n with dependents := n.dependents.insert name }

/-- The node with one dependent less. -/
def removeDependent (n : Node) (name : String) : Node :=
  { n with dependents := n.dependents.erase name }

/-! ## What each change does to the link sets -/

/-- `addDependency` enters a name among the dependencies. -/
@[simp] theorem dependencies_addDependency (n : Node) (name : String) :
    (n.addDependency name).dependencies = n.dependencies.insert name := rfl

/-- `addDependency` leaves the dependents. -/
@[simp] theorem dependents_addDependency (n : Node) (name : String) :
    (n.addDependency name).dependents = n.dependents := rfl

/-- `removeDependency` takes a name from the dependencies. -/
@[simp] theorem dependencies_removeDependency (n : Node) (name : String) :
    (n.removeDependency name).dependencies = n.dependencies.erase name := rfl

/-- `removeDependency` leaves the dependents. -/
@[simp] theorem dependents_removeDependency (n : Node) (name : String) :
    (n.removeDependency name).dependents = n.dependents := rfl

/-- `addDependent` leaves the dependencies. -/
@[simp] theorem dependencies_addDependent (n : Node) (name : String) :
    (n.addDependent name).dependencies = n.dependencies := rfl

/-- `addDependent` enters a name among the dependents. -/
@[simp] theorem dependents_addDependent (n : Node) (name : String) :
    (n.addDependent name).dependents = n.dependents.insert name := rfl

/-- `removeDependent` leaves the dependencies. -/
@[simp] theorem dependencies_removeDependent (n : Node) (name : String) :
    (n.removeDependent name).dependencies = n.dependencies := rfl

/-- `removeDependent` takes a name from the dependents. -/
@[simp] theorem dependents_removeDependent (n : Node) (name : String) :
    (n.removeDependent name).dependents = n.dependents.erase name := rfl

end Node

end Recalc
