import Recalc.Decimal.Binary64

/-!
# Shortest decimals

The fewest decimal digits that read back as a given number, and of those the digits nearest to it.

Every real between the midpoints to the neighbouring numbers reads back as the number, the midpoints
too if its mantissa is even. For 1, 2, … 17 digits the two neighbours of the number on the grid of
that many digits are compared with this interval in exact arithmetic; the first grid with a point in
the interval gives the digits. Seventeen digits always suffice.
-/

namespace Recalc.Decimal

/-- A positive decimal `digits * 10 ^ exponent`. -/
structure Numeral where
  /-- The digits as a number. -/
  digits : Nat
  /-- The power of ten. -/
  exponent : Int
  deriving DecidableEq, Repr

/-- A fraction of natural numbers. -/
structure Ratio where
  num : Nat
  den : Nat
  deriving DecidableEq, Repr

/-- A fraction times a power of two. -/
def Ratio.shift (r : Ratio) (q : Int) : Ratio :=
  if 0 ≤ q then ⟨r.num <<< q.toNat, r.den⟩ else ⟨r.num, r.den <<< (-q).toNat⟩

/-- A fraction divided by a power of ten. -/
def Ratio.unscale (r : Ratio) (e : Int) : Ratio :=
  if 0 ≤ e then ⟨r.num, r.den * Nat.pow 10 e.toNat⟩ else ⟨r.num * Nat.pow 10 (-e).toNat, r.den⟩

/-- Whether `a ≤ b`, or only `a < b` if `strict`. -/
def Ratio.below (strict : Bool) (a b : Ratio) : Bool :=
  if strict then a.num * b.den < b.num * a.den else a.num * b.den ≤ b.num * a.den

/-- The number of decimal digits of a positive number. -/
def digitCount (n : Nat) : Nat := (Nat.toDigits 10 n).length

/-- The least `e`, not below the given one and found in at most `steps` steps, such that the fraction
is below `10 ^ e`. -/
def decade (r : Ratio) : (steps : Nat) → (e : Int) → Int
  | 0, e => e
  | steps + 1, e =>
    if (r.unscale e).num < (r.unscale e).den then e else decade r steps (e + 1)

/-- The digits to take on the grid of unit `10 ^ e`, if one of the two neighbours of `r` lies between
`low` and `high`: the nearer one, the even one of two that are equally near. -/
def onGrid (strict : Bool) (low r high : Ratio) (e : Int) : Option Nat :=
  let s := r.unscale e
  let down := s.num / s.den
  let inside (n : Nat) : Bool :=
    (low.unscale e).below strict ⟨n, 1⟩ && Ratio.below strict ⟨n, 1⟩ (high.unscale e)
  match inside down && down ≠ 0, inside (down + 1) with
  | true, true =>
    let rest := 2 * (s.num % s.den)
    some (if rest < s.den || (rest == s.den && down % 2 == 0) then down else down + 1)
  | true, false => some down
  | false, true => some (down + 1)
  | false, false => none

/-- Move trailing zeros from the digits to the exponent. -/
def strip : (steps : Nat) → Numeral → Numeral
  | 0, d => d
  | steps + 1, d =>
    if d.digits % 10 = 0 ∧ d.digits ≠ 0 then strip steps ⟨d.digits / 10, d.exponent + 1⟩ else d

/-- The shortest decimal of the magnitude of a number other than zero. -/
def shortest (x : Binary64) : Numeral :=
  let m := x.mantissa
  let unit : Int := x.exponent - 2
  let r : Ratio := Ratio.shift ⟨4 * m, 1⟩ unit
  let narrow := x.fractionField = 0 && x.exponentField > 1
  let low : Ratio := Ratio.shift ⟨4 * m - if narrow then 1 else 2, 1⟩ unit
  let high : Ratio := Ratio.shift ⟨4 * m + 2, 1⟩ unit
  let top := decade r 700 (-330)
  let found := (List.range 17).findSome? fun k : Nat =>
    let e := top - (k + 1)
    (onGrid (m % 2 = 1) low r high e).map (Numeral.mk · e)
  strip 20 (found.getD ⟨0, 0⟩)

end Recalc.Decimal
