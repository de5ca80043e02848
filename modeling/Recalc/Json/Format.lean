import Recalc.Json.Printer
import Recalc.Json.Reader
import Recalc.Named
import Recalc.OrderedMap

/-!
# Formats

How values of a type are written as JSON documents and read back. A record is written as an object
with its fields in order. It is read from an object, whose fields may come in any order, must not be
repeated, and may be accompanied by others, which are skipped; or from an array with the fields in
order.
-/

namespace Recalc

/-- A format of a type. -/
structure Format (α : Type) where
  /-- Write a value. -/
  encode : α → Json
  /-- Read a tree, arrays and objects being nested at most `room` deep. -/
  decode : (room : Nat) → JsonTree → Option α

namespace Format

variable {α : Type}

/-- Read a text that holds one document. -/
def read? (f : Format α) (input : String) : Option α := do
  let tree ← JsonTree.parse? input
  f.decode JsonTree.maxDepth tree

/-- Write a value as text without blanks. -/
def write (f : Format α) (a : α) : String := (f.encode a).compact

/-- Read a text and write what was read. -/
def reformat? (f : Format α) (input : String) : Option String := (f.read? input).map f.write

/-! ## Plain formats -/

/-- Texts. -/
def text : Format String where
  encode := .str
  decode _ tree :=
    match tree with
    | .str s => s
    | _ => none

/-- The truth values. -/
def bool : Format Bool where
  encode := .bool
  decode _ tree :=
    match tree with
    | .bool b => some b
    | _ => none

/-- The natural numbers below a bound. -/
def below (bound : Nat) : Format Nat where
  encode n := .int n
  decode _ tree :=
    match tree with
    | .num (some (.int n)) => if 0 ≤ n ∧ n < bound then some n.toNat else none
    | _ => none

/-- Any value. -/
def value : Format Json where
  encode := id
  decode room tree := tree.value? room

/-- Values of another type, seen through two functions. -/
def map {β : Type} (f : Format α) (forth : α → β) (back : β → α) : Format β where
  encode b := f.encode (back b)
  decode room tree := (f.decode room tree).map forth

/-- Texts that stand for values of another type. -/
def ofText (write : α → String) (read : String → Option α) : Format α where
  encode a := .str (write a)
  decode _ tree :=
    match tree with
    | .str (some s) => read s
    | _ => none

/-- Alternatives, written as a text; an object with the text as its only name and null as its value
is read as well. -/
def choice (all : List α) (name : α → String) : Format α where
  encode a := .str (name a)
  decode room tree :=
    match room, tree with
    | _, .str (some s) => all.find? fun a => name a = s
    | _ + 1, .obj [(some s, .null)] => all.find? fun a => name a = s
    | _, _ => none

/-- Alternatives, written as their names. -/
def named (α : Type) [Named α] : Format α := choice Named.all Named.name

/-- Alternatives, written as capitalised words. -/
def titled (α : Type) [Named α] : Format α := choice Named.all Named.title

/-! ## Composite formats -/

/-- A value or none, which is written as null. -/
def option (f : Format α) : Format (Option α) where
  encode a := (a.map f.encode).getD .null
  decode room tree :=
    match tree with
    | .null => some none
    | tree => (f.decode room tree).map some

/-- Lists, written as arrays. -/
def list (f : Format α) : Format (List α) where
  encode as := .arr (as.map f.encode)
  decode room tree :=
    match room, tree with
    | room + 1, .arr items => items.mapM (f.decode room)
    | _, _ => none

/-- Maps from texts, written as objects in the order of the map. -/
def dictionary (f : Format α) : Format (OrderedMap String α) where
  encode m := .obj (m.entries.map fun e => (e.1, f.encode e.2))
  decode room tree :=
    match room, tree with
    | room + 1, .obj members => do
      let entries ← members.mapM fun (name, tree) => do
        let name ← name
        let a ← f.decode room tree
        some (name, a)
      some (OrderedMap.ofList entries)
    | _, _ => none

/-- The fields of a record in the order of their names, and the room left inside it. In an array the
fields after the first `required` ones may be left out at the end. -/
def fields? (names : List String) (required : Nat) :
    (room : Nat) → JsonTree → Option (Nat × List (Option JsonTree))
  | room + 1, .arr items =>
    if required ≤ items.length ∧ items.length ≤ names.length then
      some (room, items.map some ++ List.replicate (names.length - items.length) none)
    else none
  | room + 1, .obj members => do
    let members ← members.mapM fun (name, tree) => name.map fun name => (name, tree)
    let given ← names.mapM fun name =>
      match members.filter fun m => m.1 = name with
      | [] => some none
      | [m] => some (some m.2)
      | _ => none
    some (room, given)
  | _, _ => none

/-- Read a field that has to be given. -/
def needed (f : Format α) (room : Nat) (field : Option JsonTree) : Option α :=
  field.bind (f.decode room)

/-- Read a field that has a default. -/
def optional (f : Format α) (default : α) (room : Nat) (field : Option JsonTree) : Option α :=
  match field with
  | none => some default
  | some tree => f.decode room tree

end Format

end Recalc
