/-!
# Text

Cutting and trimming text. Blanks are the characters with the Unicode property `White_Space`.
-/

namespace Recalc.Text

/-- Whether a character has the property `White_Space`. -/
def isBlank (c : Char) : Bool :=
  let n := c.toNat
  (0x09 ≤ n && n ≤ 0x0D) || n == 0x20 || n == 0x85 || n == 0xA0 || n == 0x1680 ||
    (0x2000 ≤ n && n ≤ 0x200A) || n == 0x2028 || n == 0x2029 || n == 0x202F || n == 0x205F ||
    n == 0x3000

/-- A text without the blanks at either end. -/
def trim (s : String) : String :=
  String.ofList ((s.toList.dropWhile isBlank).reverse.dropWhile isBlank).reverse

/-- The pieces between the characters that satisfy a test, empty ones included. -/
def pieces (p : Char → Bool) (s : String) : List String :=
  (s.toList.splitOnP p).map String.ofList

/-- The parts before and after the first occurrence of a character. -/
def cut? (c : Char) (s : String) : Option (String × String) :=
  let cs := s.toList
  if c ∈ cs then
    some (String.ofList (cs.takeWhile (· ≠ c)), String.ofList ((cs.dropWhile (· ≠ c)).drop 1))
  else none

/-- Whether a number fits 64 bits with sign. -/
def fits64 (n : Int) : Bool := Int64.minValue.toInt ≤ n && n ≤ Int64.maxValue.toInt

/-- The number of decimal digits, of which there has to be one. -/
def natural? (cs : List Char) : Option Nat :=
  if cs.isEmpty || !cs.all Char.isDigit then none
  else some (cs.foldl (fun n c => 10 * n + (c.toNat - '0'.toNat)) 0)

/-- Read an integer that fits 64 bits with sign: decimal digits, with a sign in front or without. -/
def integer? (s : String) : Option Int := do
  let n ←
    match s.toList with
    | '-' :: cs => (natural? cs).map fun n => -(n : Int)
    | '+' :: cs => (natural? cs).map Int.ofNat
    | cs => (natural? cs).map Int.ofNat
  if fits64 n then some n else none

end Recalc.Text
