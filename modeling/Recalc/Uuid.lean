/-!
# UUIDs

A UUID is a number of 128 bits. It is written as 32 lower-case hexadecimal digits in groups of 8, 4,
4, 4 and 12 joined by hyphens. It is read from that form, from the digits alone, from the hyphenated
form in braces, or from the hyphenated form after `urn:uuid:`, with letters of either case.
-/

namespace Recalc

/-- A universally unique identifier. -/
structure Uuid where
  /-- The 128 bits. -/
  bits : BitVec 128
  deriving DecidableEq, Repr

namespace Uuid

/-- The value of a hexadecimal digit. -/
def digit? (c : Char) : Option Nat :=
  if '0' ≤ c ∧ c ≤ '9' then some (c.toNat - '0'.toNat)
  else if 'a' ≤ c ∧ c ≤ 'f' then some (c.toNat - 'a'.toNat + 10)
  else if 'A' ≤ c ∧ c ≤ 'F' then some (c.toNat - 'A'.toNat + 10)
  else none

/-- Read exactly 32 digits. -/
def ofDigits? (cs : List Char) : Option Uuid := do
  if cs.length ≠ 32 then none
  let digits ← cs.mapM digit?
  some ⟨BitVec.ofNat 128 (digits.foldl (fun n d => 16 * n + d) 0)⟩

/-- Read digits in groups of 8, 4, 4, 4 and 12 joined by hyphens. -/
def ofHyphenated? (cs : List Char) : Option Uuid := do
  let groups := cs.splitOn '-'
  if groups.map List.length ≠ [8, 4, 4, 4, 12] then none
  ofDigits? groups.flatten

/-- Read any of the four forms. -/
def parse? (text : String) : Option Uuid :=
  let cs := text.toList
  let urn := "urn:uuid:".toList
  match cs.length with
  | 32 => ofDigits? cs
  | 36 => ofHyphenated? cs
  | 38 =>
    if cs.head? = some '\x7b' ∧ cs.getLast? = some '\x7d' then
      ofHyphenated? (cs.drop 1).dropLast
    else none
  | 45 =>
    if (cs.take urn.length).map Char.toLower = urn then ofHyphenated? (cs.drop urn.length)
    else none
  | _ => none

/-- The 32 digits, most significant first. -/
def digits (u : Uuid) : List Char :=
  (List.range 32).map fun i => Nat.digitChar (u.bits.toNat >>> (4 * (31 - i)) % 16)

/-- The hyphenated form. -/
def text (u : Uuid) : String :=
  let ds := u.digits
  let part (start len : Nat) : List Char := (ds.drop start).take len
  String.ofList <| List.intercalate ['-']
    [part 0 8, part 8 4, part 12 4, part 16 4, part 20 12]

end Uuid

end Recalc
