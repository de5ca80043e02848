import Recalc.Decimal.Binary64

/-!
# JSON documents

A document of the data format JSON. Integers and floating-point numbers are different values, and an
object lists its members in order. A *value* is a document in canonical form: the members of every
object are sorted by name and no name is repeated, so the order in which they were written does not
matter.
-/

namespace Recalc

/-- A JSON document. -/
inductive Json where
  | null
  | bool (b : Bool)
  /-- An integer. -/
  | int (n : Int)
  /-- A floating-point number. -/
  | float (x : Binary64)
  | str (s : String)
  | arr (items : List Json)
  | obj (members : List (String × Json))

instance : Inhabited Json := ⟨.null⟩

namespace Json

mutual

/-- Whether two documents are equal, numbers being compared by value. -/
def same : Json → Json → Bool
  | .null, .null => true
  | .bool a, .bool b => a == b
  | .int a, .int b => a == b
  | .float a, .float b => a.same b
  | .str a, .str b => a == b
  | .arr as, .arr bs => sameItems as bs
  | .obj as, .obj bs => sameMembers as bs
  | _, _ => false

/-- Whether two lists of documents are equal. -/
def sameItems : List Json → List Json → Bool
  | [], [] => true
  | a :: as, b :: bs => a.same b && sameItems as bs
  | _, _ => false

/-- Whether two lists of members are equal. -/
def sameMembers : List (String × Json) → List (String × Json) → Bool
  | [], [] => true
  | (k, a) :: as, (l, b) :: bs => k == l && a.same b && sameMembers as bs
  | _, _ => false

end

instance : BEq Json := ⟨same⟩

/-- Put a member into its place among members sorted by name, replacing one of the same name. -/
def putMember (name : String) (value : Json) : List (String × Json) → List (String × Json)
  | [] => [(name, value)]
  | (k, v) :: rest =>
    if name < k then (name, value) :: (k, v) :: rest
    else if name = k then (name, value) :: rest
    else (k, v) :: putMember name value rest

/-- The object of a list of members in canonical form; of a repeated name the last value counts. -/
def ofMembers (members : List (String × Json)) : Json :=
  .obj (members.foldl (fun sorted m => putMember m.1 m.2 sorted) [])

/-- The member of a name; a document that is not an object has none. -/
def member? (name : String) : Json → Option Json
  | .obj members => members.lookup name
  | _ => none

/-- The array of some texts. -/
def ofStrings (texts : List String) : Json := .arr (texts.map .str)

/-- An optional document: empty for none, and otherwise the array of the one. -/
def ofOption (value : Option Json) : Json := .arr value.toList

end Json

end Recalc
