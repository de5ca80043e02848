import Recalc.Json.Basic

/-!
# Reading JSON

Reading has two steps. The grammar is recognised first; the result, a `JsonTree`, keeps repeated
members in order. It also accepts what is well-formed but denotes nothing: a number beyond the range
of floats, and a text with half of a surrogate pair. The second step interprets a tree, and there
these have no meaning; a part of the input that is skipped is never interpreted.

A numeral without fraction and exponent is an integer if it fits 64 bits, signed or unsigned, and a
float otherwise; so is `-0`, to keep its sign.
-/

namespace Recalc

/-- What the grammar recognises. -/
inductive JsonTree where
  | null
  | bool (b : Bool)
  /-- A number, unless it is out of range. -/
  | num (n : Option Json)
  /-- A text, unless it holds half of a surrogate pair. -/
  | str (s : Option String)
  | arr (items : List JsonTree)
  | obj (members : List (Option String × JsonTree))

namespace JsonTree

/-! ## Numerals -/

/-- The parts of a numeral. -/
structure Numeral where
  /-- Whether a minus stands in front. -/
  negative : Bool
  /-- The digits before the point. -/
  whole : List Nat
  /-- The digits behind the point, if there is one. -/
  fraction : Option (List Nat)
  /-- The exponent, if there is one. -/
  exponent : Option Int

/-- Append digits to a number as long as it fits 64 bits; the count tells how many did. -/
def gather : Nat → List Nat → Nat × Nat
  | n, [] => (n, 0)
  | n, d :: ds =>
    if 10 * n + d < UInt64.size then
      let (n, used) := gather (10 * n + d) ds
      (n, used + 1)
    else (n, 0)

/-- The number of a numeral, unless it is out of range. -/
def Numeral.value (n : Numeral) : Option Json :=
  let (whole, used) := gather 0 n.whole
  let skipped := n.whole.length - used
  match n.fraction, n.exponent with
  | none, none =>
    if 0 < skipped ∨ n.negative ∧ (whole = 0 ∨ UInt64.size / 2 < whole) then
      (Binary64.ofDecimal? n.negative whole skipped).map .float
    else some (.int (if n.negative then -whole else whole))
  | fraction, exponent =>
    let (digits, behind) := gather whole (fraction.getD [])
    (Binary64.ofDecimal? n.negative digits (skipped - behind + exponent.getD 0)).map .float

/-- The decimal digits at the front of a text, and the rest. -/
def digits (cs : List Char) : List Nat × List Char :=
  ((cs.takeWhile Char.isDigit).map fun c => c.toNat - '0'.toNat, cs.dropWhile Char.isDigit)

/-- Read the digits of a part of a numeral; there has to be one. -/
def someDigits (cs : List Char) : Option (List Nat × List Char) :=
  match digits cs with
  | ([], _) => none
  | found => some found

/-- Read the digits before the point: a zero, or digits that do not start with one. -/
def wholePart (cs : List Char) : Option (List Nat × List Char) := do
  let (ds, rest) ← someDigits cs
  if ds.head? = some 0 ∧ ds.length ≠ 1 then none else some (ds, rest)

/-- Read the point and the digits behind it, if there is a point. -/
def fractionPart : List Char → Option (Option (List Nat) × List Char)
  | '.' :: cs => do
    let (ds, rest) ← someDigits cs
    some (some ds, rest)
  | cs => some (none, cs)

/-- Read the exponent, if there is one. -/
def exponentPart : List Char → Option (Option Int × List Char)
  | c :: cs =>
    if c = 'e' ∨ c = 'E' then do
      let (negative, cs) :=
        match cs with
        | '-' :: cs => (true, cs)
        | '+' :: cs => (false, cs)
        | cs => (false, cs)
      let (ds, rest) ← someDigits cs
      let n : Nat := ds.foldl (fun n d => 10 * n + d) 0
      some (some (if negative then -(n : Int) else n), rest)
    else some (none, c :: cs)
  | [] => some (none, [])

/-- Read a number. -/
def number (cs : List Char) : Option (JsonTree × List Char) := do
  let (negative, cs) :=
    match cs with
    | '-' :: cs => (true, cs)
    | cs => (false, cs)
  let (whole, cs) ← wholePart cs
  let (fraction, cs) ← fractionPart cs
  let (exponent, cs) ← exponentPart cs
  some (.num (Numeral.value { negative, whole, fraction, exponent }), cs)

/-! ## Texts -/

/-- The value of a hexadecimal digit. -/
def hexDigit? (c : Char) : Option Nat :=
  if '0' ≤ c ∧ c ≤ '9' then some (c.toNat - '0'.toNat)
  else if 'a' ≤ c ∧ c ≤ 'f' then some (c.toNat - 'a'.toNat + 10)
  else if 'A' ≤ c ∧ c ≤ 'F' then some (c.toNat - 'A'.toNat + 10)
  else none

/-- Read four hexadecimal digits. -/
def codeUnit (cs : List Char) : Option (Nat × List Char) := do
  if (cs.take 4).length ≠ 4 then none
  let ds ← (cs.take 4).mapM hexDigit?
  some (ds.foldl (fun n d => 16 * n + d) 0, cs.drop 4)

/-- Read the second half of a surrogate pair, if it follows. -/
def lowSurrogate? : List Char → Option (Nat × List Char)
  | '\\' :: 'u' :: cs => do
    let (n, rest) ← codeUnit cs
    if 0xDC00 ≤ n ∧ n ≤ 0xDFFF then some (n, rest) else none
  | _ => none

/-- The character of an escape of one letter. -/
def simpleEscape? (c : Char) : Option Char :=
  if c = '"' ∨ c = '\\' ∨ c = '/' then some c
  else if c = 'b' then some '\x08'
  else if c = 'f' then some '\x0c'
  else if c = 'n' then some '\n'
  else if c = 'r' then some '\r'
  else if c = 't' then some '\t'
  else none

/-- Read an escape after its backslash: its character, unless it is half of a surrogate pair. -/
def escape : List Char → Option (Option Char × List Char)
  | [] => none
  | c :: cs =>
    if c = 'u' then do
      let (n, rest) ← codeUnit cs
      if 0xD800 ≤ n ∧ n ≤ 0xDBFF then
        match lowSurrogate? rest with
        | some (m, rest) => some (some (Char.ofNat (0x10000 + (n - 0xD800) * 0x400 + (m - 0xDC00))), rest)
        | none => some (none, rest)
      else if 0xDC00 ≤ n ∧ n ≤ 0xDFFF then some (none, rest)
      else some (some (Char.ofNat n), rest)
    else (simpleEscape? c).map fun d => (some d, cs)

/-- Read a text up to its closing quote, in at most `steps` steps. -/
def textBody : (steps : Nat) → (sofar : Option (List Char)) → List Char →
    Option (Option String × List Char)
  | 0, _, _ => none
  | _ + 1, _, [] => none
  | steps + 1, sofar, c :: cs =>
    if c = '"' then some (sofar.map fun cs => String.ofList cs.reverse, cs)
    else if c = '\\' then do
      let (d, rest) ← escape cs
      textBody steps (sofar.bind fun cs => d.map (· :: cs)) rest
    else if c.toNat < 0x20 then none
    else textBody steps (sofar.map (c :: ·)) cs

/-- Read a text after its opening quote. -/
def text (cs : List Char) : Option (Option String × List Char) := textBody (cs.length + 1) (some []) cs

/-! ## Documents -/

/-- The blanks of the format. -/
def isBlank (c : Char) : Bool := c = ' ' || c = '\n' || c = '\t' || c = '\r'

/-- Skip blanks. -/
def skip (cs : List Char) : List Char := cs.dropWhile isBlank

/-- Read a keyword and give what it stands for. -/
def keyword (word : String) (tree : JsonTree) (cs : List Char) : Option (JsonTree × List Char) :=
  if cs.take word.length = word.toList then some (tree, cs.drop word.length) else none

mutual

/-- Read a document, nested at most `depth` steps deep. -/
def document : (depth : Nat) → List Char → Option (JsonTree × List Char)
  | 0, _ => none
  | depth + 1, cs =>
    match skip cs with
    | [] => none
    | c :: cs =>
      if c = '"' then (text cs).map fun (s, rest) => (.str s, rest)
      else if c = '[' then
        match skip cs with
        | ']' :: rest => some (.arr [], rest)
        | cs => (items depth cs).map fun (js, rest) => (.arr js, rest)
      else if c = '\x7b' then
        match skip cs with
        | '\x7d' :: rest => some (.obj [], rest)
        | cs => (members depth cs).map fun (ms, rest) => (.obj ms, rest)
      else if c = 'n' then keyword "null" .null (c :: cs)
      else if c = 't' then keyword "true" (.bool true) (c :: cs)
      else if c = 'f' then keyword "false" (.bool false) (c :: cs)
      else number (c :: cs)

/-- Read the items of an array up to its end. -/
def items : (depth : Nat) → List Char → Option (List JsonTree × List Char)
  | 0, _ => none
  | depth + 1, cs => do
    let (j, cs) ← document depth cs
    match skip cs with
    | ',' :: cs => do
      let (js, cs) ← items depth cs
      some (j :: js, cs)
    | ']' :: cs => some ([j], cs)
    | _ => none

/-- Read the members of an object up to its end. -/
def members : (depth : Nat) → List Char → Option (List (Option String × JsonTree) × List Char)
  | 0, _ => none
  | depth + 1, cs => do
    let (name, cs) ←
      match skip cs with
      | '"' :: cs => text cs
      | _ => none
    let cs ←
      match skip cs with
      | ':' :: cs => some cs
      | _ => none
    let (j, cs) ← document depth cs
    match skip cs with
    | ',' :: cs => do
      let (ms, cs) ← members depth cs
      some ((name, j) :: ms, cs)
    | '\x7d' :: cs => some ([(name, j)], cs)
    | _ => none

end

/-- Recognise a text that holds one document and blanks. Every step of the recursion takes a
character or enters a document, so twice the length bounds its depth. -/
def parse? (input : String) : Option JsonTree := do
  let cs := input.toList
  let (j, rest) ← document (2 * cs.length + 2) cs
  if (skip rest).isEmpty then some j else none

/-! ## Values -/

/-- How deep arrays and objects may be nested. -/
def maxDepth : Nat := 127

mutual

/-- The value of a tree, arrays and objects being nested at most `room` deep. -/
def value? : (room : Nat) → JsonTree → Option Json
  | _, .null => some .null
  | _, .bool b => some (.bool b)
  | _, .num n => n
  | _, .str s => s.map .str
  | 0, .arr _ => none
  | room + 1, .arr js => (values? room js).map .arr
  | 0, .obj _ => none
  | room + 1, .obj ms => (memberValues? room ms).map Json.ofMembers

/-- The values of the items of an array. -/
def values? : (room : Nat) → List JsonTree → Option (List Json)
  | _, [] => some []
  | room, j :: js => do
    let v ← value? room j
    let vs ← values? room js
    some (v :: vs)

/-- The members of an object with their values. -/
def memberValues? : (room : Nat) → List (Option String × JsonTree) → Option (List (String × Json))
  | _, [] => some []
  | room, (name, j) :: ms => do
    let name ← name
    let v ← value? room j
    let vs ← memberValues? room ms
    some ((name, v) :: vs)

end

end JsonTree

/-- Read a text as a value. -/
def Json.parse? (input : String) : Option Json := do
  let tree ← JsonTree.parse? input
  tree.value? JsonTree.maxDepth

end Recalc
