import Recalc.Graph.Edge
import Recalc.Equation.Basic
import Recalc.Equation.Flags
import Recalc.Host.Basic
import Recalc.Json.Format
import Recalc.Options

/-!
# The formats of the library's types

Records are written with their fields in the order of declaration, alternatives by name, sets of
flags as their byte, and identities of groups as UUIDs.
-/

namespace Recalc

/-- Edges. -/
def Edge.format : Format Edge where
  encode e := .obj [("from", .str e.source), ("to", .str e.target)]
  decode room tree := do
    match ← Format.fields? ["from", "to"] 2 room tree with
    | (room, [source, target]) =>
      let source ← Format.text.needed room source
      let target ← Format.text.needed room target
      some { source, target }
    | _ => none

/-- Stamps: numbers of 64 bits. -/
def Stamp.format : Format Nat := .below UInt64.size

/-- Sets of flags. -/
def Flags.format (φ : Type) : Format (Flags φ) :=
  (Format.below 256).map (fun n => ⟨n.toUInt8⟩) fun f => f.bits.toNat

/-- Identities of groups. -/
def GroupId.format : Format GroupId := .ofText GroupId.text fun s => (Uuid.parse? s).map .uuid

/-- Items of a parser. -/
def ParseItem.format : Format ParseItem where
  encode i := .obj [("name", .str i.name), ("content", .str i.content),
    ("item_type", .str (Named.name i.kind)), ("dependencies", .ofStrings i.dependencies),
    ("status", .str (Named.name i.status)), ("message", .str i.message)]
  decode room tree := do
    match ← Format.fields? ["name", "content", "item_type", "dependencies", "status", "message"] 6
      room tree with
    | (room, [name, content, kind, dependencies, status, message]) =>
      let name ← Format.text.needed room name
      let content ← Format.text.needed room content
      let kind ← (Format.named ItemKind).needed room kind
      let dependencies ← Format.text.list.needed room dependencies
      let status ← (Format.named Status).needed room status
      let message ← Format.text.needed room message
      some { name, content, kind, dependencies, status, message }
    | _ => none

/-- Outcomes of runs; a missing value is written as null. -/
def Outcome.format : Format Outcome where
  encode o := .obj [("status", .str (Named.name o.status)), ("message", .str o.message),
    ("value", Format.value.option.encode o.value)]
  decode room tree := do
    match ← Format.fields? ["status", "message", "value"] 3 room tree with
    | (room, [status, message, value]) =>
      let status ← (Format.named Status).needed room status
      let message ← Format.text.needed room message
      let value ← Format.value.option.optional none room value
      some { status, message, value }
    | _ => none

/-- Equations. -/
def Equation.format : Format Equation where
  encode e := .obj [("name", .str e.name), ("content", .str e.content),
    ("item_type", .str (Named.name e.kind)), ("status", .str (Named.name e.status)),
    ("message", .str e.message), ("group_id", .str e.group.text)]
  decode room tree := do
    match ← Format.fields? ["name", "content", "item_type", "status", "message", "group_id"] 6
      room tree with
    | (room, [name, content, kind, status, message, group]) =>
      let name ← Format.text.needed room name
      let content ← Format.text.needed room content
      let kind ← (Format.named ItemKind).needed room kind
      let status ← (Format.named Status).needed room status
      let message ← Format.text.needed room message
      let group ← GroupId.format.needed room group
      some { name, content, kind, status, message, group }
    | _ => none

/-- Groups. -/
def Group.format : Format Group where
  encode g := .obj [("id", .str g.id.text), ("statement", .str g.statement),
    ("equations", Equation.format.dictionary.encode g.equations)]
  decode room tree := do
    match ← Format.fields? ["id", "statement", "equations"] 3 room tree with
    | (room, [id, statement, equations]) =>
      let id ← GroupId.format.needed room id
      let statement ← Format.text.needed room statement
      let equations ← Equation.format.dictionary.needed room equations
      some { id, statement, equations }
    | _ => none

/-- Stores in order of insertion. -/
def Store.format : Format Store :=
  Format.value.dictionary.map (fun values => { values }) fun s => s.values

namespace Options

/-- Options; a field that is left out has its default. -/
def format : Format Options where
  encode o := .obj [("auto_update", .bool o.autoUpdate),
    ("startup_script", Format.text.option.encode o.startupScript)]
  decode room tree := do
    match ← Format.fields? ["auto_update", "startup_script"] 0 room tree with
    | (room, [autoUpdate, startupScript]) =>
      let autoUpdate ← Format.bool.optional false room autoUpdate
      let startupScript ← Format.text.option.optional none room startupScript
      some { autoUpdate, startupScript }
    | _ => none

/-- Options as an indented text. -/
def text (o : Options) : String := (format.encode o).pretty

end Options

/-- Why options could not be loaded from a file. -/
inductive OptionsError where
  /-- There is no such file. -/
  | missing (path : String)
  /-- The file does not hold text. -/
  | notText
  /-- The text does not hold options. -/
  | malformed
  deriving DecidableEq, Repr

/-- What there is to say about a failure. -/
def OptionsError.message : OptionsError → String
  | .missing path => "failed to read " ++ path ++ ": No such file or directory (os error 2)"
  | .notText => "stream did not contain valid UTF-8"
  | .malformed => "invalid manager options"

/-- The options in a file, given its contents, if it exists. -/
def Options.load (path : String) (contents : Option ByteArray) : Except OptionsError Options :=
  match contents with
  | none => .error (.missing path)
  | some bytes =>
    match String.fromUTF8? bytes with
    | none => .error .notText
    | some text =>
      match Options.format.read? text with
      | none => .error .malformed
      | some options => .ok options

end Recalc
