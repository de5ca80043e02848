import Recalc.Decimal.Shortest
import Recalc.Json.Basic

/-!
# Writing JSON

Documents are written compactly, without any blanks, or indented, with two blanks for each level.

A float has the fewest digits that read back. It is written positionally, with at least one digit on
either side of the point, when its first digit stands at most four places behind the point or at most
sixteen places before it; otherwise one digit stands before the point and an exponent with its sign
follows.
-/

namespace Recalc.Json

/-- Write an exponent with its sign. -/
def exponentText (e : Int) : String := (if 0 ≤ e then "e+" else "e") ++ toString e

/-- Write the digits of a shortest decimal. -/
def positional (n : Decimal.Numeral) : String :=
  let ds := Nat.toDigits 10 n.digits
  let len := ds.length
  let point : Int := len + n.exponent
  let text (cs : List Char) := String.ofList cs
  let zeros (k : Nat) := String.ofList (List.replicate k '0')
  if 0 ≤ n.exponent ∧ point ≤ 16 then text ds ++ zeros n.exponent.toNat ++ ".0"
  else if 0 < point ∧ point ≤ 16 then
    text (ds.take point.toNat) ++ "." ++ text (ds.drop point.toNat)
  else if -5 < point ∧ point ≤ 0 then "0." ++ zeros (-point).toNat ++ text ds
  else
    let tail := if len = 1 then "" else "." ++ text (ds.drop 1)
    text (ds.take 1) ++ tail ++ exponentText (point - 1)

/-- Write a float. -/
def floatText (x : Binary64) : String :=
  (if x.isNegative then "-" else "") ++
    if x.isZero then "0.0" else positional (Decimal.shortest x)

/-- Write one character of a text. -/
def escaped (c : Char) : String :=
  if c = '"' then "\\\""
  else if c = '\\' then "\\\\"
  else if c = '\x08' then "\\b"
  else if c = '\x0c' then "\\f"
  else if c = '\n' then "\\n"
  else if c = '\r' then "\\r"
  else if c = '\t' then "\\t"
  else if c.toNat < 0x20 then
    "\\u00" ++ String.ofList [Nat.digitChar (c.toNat / 16), Nat.digitChar (c.toNat % 16)]
  else c.toString

/-- Write a text in quotes. -/
def quoted (s : String) : String := "\"" ++ String.join (s.toList.map escaped) ++ "\""

mutual

/-- Write a document without blanks. -/
def compact : Json → String
  | .null => "null"
  | .bool true => "true"
  | .bool false => "false"
  | .int n => toString n
  | .float x => floatText x
  | .str s => quoted s
  | .arr items => "[" ++ ",".intercalate (compactItems items) ++ "]"
  | .obj members => "\x7b" ++ ",".intercalate (compactMembers members) ++ "\x7d"

/-- Write the items of an array. -/
def compactItems : List Json → List String
  | [] => []
  | j :: js => j.compact :: compactItems js

/-- Write the members of an object. -/
def compactMembers : List (String × Json) → List String
  | [] => []
  | (name, j) :: rest => (quoted name ++ ":" ++ j.compact) :: compactMembers rest

end

/-- Lay out the written items of an array or object at a level, or the brackets alone. -/
def block (level : Nat) (left right : String) (items : List String) : String :=
  let margin (n : Nat) := "\n" ++ String.join (List.replicate n "  ")
  if items.isEmpty then left ++ right
  else left ++ ",".intercalate (items.map (margin (level + 1) ++ ·)) ++ margin level ++ right

mutual

/-- Write a document with two blanks for each level. -/
def indented (level : Nat) : Json → String
  | .arr items => block level "[" "]" (indentedItems (level + 1) items)
  | .obj members => block level "\x7b" "\x7d" (indentedMembers (level + 1) members)
  | j => j.compact

/-- Write the items of an array at a level. -/
def indentedItems (level : Nat) : List Json → List String
  | [] => []
  | j :: js => j.indented level :: indentedItems level js

/-- Write the members of an object at a level. -/
def indentedMembers (level : Nat) : List (String × Json) → List String
  | [] => []
  | (name, j) :: rest => (quoted name ++ ": " ++ j.indented level) :: indentedMembers level rest

end

/-- Write a document with line breaks. -/
def pretty (j : Json) : String := j.indented 0

end Recalc.Json
