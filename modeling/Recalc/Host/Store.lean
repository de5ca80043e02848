import Recalc.Json.Basic
import Recalc.OrderedMap

/-!
# The value store

Values by name. A store lists its names in the order in which they were first given a value.
-/

namespace Recalc

/-- Values by name. -/
structure Store where
  /-- The values. -/
  values : OrderedMap String Json := ∅

namespace Store

instance : Inhabited Store := ⟨{}⟩

/-- The names, in the order in which they were first given a value. -/
def keys (s : Store) : List String := s.values.keys

/-- The value of a name. -/
def get? (s : Store) (name : String) : Option Json := s.values.get? name

/-- Whether a name has a value. -/
def contains (s : Store) (name : String) : Bool := s.values.contains name

/-- Number of names. -/
def size (s : Store) : Nat := s.values.size

/-- The names with their values, in the order of the store. -/
def entries (s : Store) : List (String × Json) :=
  s.keys.filterMap fun k => (s.get? k).map fun v => (k, v)

/-- Give a name a value. -/
def set (s : Store) (name : String) (value : Json) : Store :=
  { s with values := s.values.insert name value }

/-- Take the value from a name; the flag tells whether it had one. -/
def remove (s : Store) (name : String) : Store × Bool :=
  ({ s with values := s.values.erase name }, s.contains name)

/-- Take the values from all names. -/
def clear (s : Store) : Store := { s with values := ∅ }

/-- A store that is given the same values in the same order. -/
def copy (s : Store) : Store := { values := OrderedMap.ofList s.entries }

/-- The store that results from giving values one after the other. -/
def ofList (values : List (String × Json)) : Store := values.foldl (fun s e => s.set e.1 e.2) {}

end Store

end Recalc
