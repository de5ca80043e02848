/-!
# Flags

A set of flags is a byte with one bit for each flag of a kind. Bits that belong to no flag are kept
as they are, so every byte is a set of flags.
-/

namespace Recalc

/-- A kind of flags. -/
class FlagKind (φ : Type) where
  /-- All flags, in the order of their bits. -/
  all : List φ
  /-- The place of the bit of a flag. -/
  place : φ → UInt8
  /-- The name of a flag, in capitals. -/
  name : φ → String

/-- A set of flags. -/
structure Flags (φ : Type) where
  /-- The byte. -/
  bits : UInt8
  deriving Repr

namespace Flags

variable {φ : Type}

/-- Sets of flags with the same bits are the same. -/
@[ext] theorem ext {f g : Flags φ} (h : f.bits = g.bits) : f = g := by
  cases f; cases g; cases h; rfl

instance : DecidableEq (Flags φ) := fun f g =>
  decidable_of_iff (f.bits = g.bits) ⟨ext, fun h => h ▸ rfl⟩

/-- No flag. -/
def none : Flags φ := ⟨0⟩

instance : EmptyCollection (Flags φ) := ⟨none⟩

instance : Inhabited (Flags φ) := ⟨none⟩

/-- Whether no bit is set. -/
def isEmpty (f : Flags φ) : Bool := f.bits == 0

/-- The flags of either set. -/
def union (f g : Flags φ) : Flags φ := ⟨f.bits ||| g.bits⟩

instance : Union (Flags φ) := ⟨union⟩

/-- The flags of the first set that are not in the second. -/
def diff (f g : Flags φ) : Flags φ := ⟨f.bits &&& ~~~g.bits⟩

instance : SDiff (Flags φ) := ⟨diff⟩

/-- Whether all flags of the second set are in the first. -/
def contains (f g : Flags φ) : Bool := f.bits &&& g.bits == g.bits

variable [FlagKind φ]

/-- The set of one flag. -/
def of (a : φ) : Flags φ := ⟨1 <<< FlagKind.place a⟩

/-- Every flag of the kind. -/
def all (φ : Type) [FlagKind φ] : Flags φ := (FlagKind.all.map of).foldl (· ∪ ·) (∅ : Flags φ)

/-- The names of the flags in a set, in the order of their bits. -/
def names (f : Flags φ) : List String :=
  (FlagKind.all.filter fun a => f.contains (of a)).map (FlagKind.name (φ := φ))

end Flags

/-- The parts of an equation that an update can touch. -/
inductive EquationField where
  | content
  | kind
  | status
  | message
  | value
  | dependencies
  | dependents
  deriving DecidableEq, Repr

instance : FlagKind EquationField where
  all := [.content, .kind, .status, .message, .value, .dependencies, .dependents]
  place
    | .content => 0
    | .kind => 1
    | .status => 2
    | .message => 3
    | .value => 4
    | .dependencies => 5
    | .dependents => 6
  name
    | .content => "CONTENT"
    | .kind => "TYPE"
    | .status => "STATUS"
    | .message => "MESSAGE"
    | .value => "VALUE"
    | .dependencies => "DEPENDENCIES"
    | .dependents => "DEPENDENTS"

/-- The parts of a group that an update can touch. -/
inductive GroupField where
  | statement
  /-- The set of names in the group. -/
  | equations
  deriving DecidableEq, Repr

instance : FlagKind GroupField where
  all := [.statement, .equations]
  place
    | .statement => 0
    | .equations => 1
  name
    | .statement => "STATEMENT"
    | .equations => "EQUATIONS"

/-- Which parts of an equation an update touched. -/
abbrev EquationFlags := Flags EquationField

/-- Which parts of a group an update touched. -/
abbrev GroupFlags := Flags GroupField

end Recalc
