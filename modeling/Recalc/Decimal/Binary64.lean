/-!
# Finite floating-point numbers

The finite numbers of the 64-bit binary format, as bit patterns. Two numbers are the same when their
patterns agree or both are zero, so the sign of zero is kept but does not distinguish values.

A decimal numeral is read from its leading digits, as many as fit 64 bits, and a power of ten: the
digits are rounded to a number, and one multiplication or division by the nearest number to that
power gives the result.
-/

namespace Recalc

/-- A finite number of the 64-bit binary format. -/
structure Binary64 where
  /-- Sign, exponent and fraction. -/
  bits : UInt64
  finite : bits >>> 52 &&& 0x7FF ≠ 0x7FF
  deriving DecidableEq

namespace Binary64

/-- Zero, with a positive sign. -/
def zero : Binary64 := ⟨0, by decide⟩

instance : Inhabited Binary64 := ⟨zero⟩

/-- The number that a float holds, if it is finite. -/
def ofFloat? (f : Float) : Option Binary64 :=
  if h : f.toBits >>> 52 &&& 0x7FF ≠ 0x7FF then some ⟨f.toBits, h⟩ else none

/-- Whether the sign is negative. -/
def isNegative (x : Binary64) : Bool := x.bits >>> 63 == 1

/-- Whether the number is zero, of either sign. -/
def isZero (x : Binary64) : Bool := x.bits <<< 1 == 0

/-- Whether two numbers have the same value. -/
def same (x y : Binary64) : Bool := x == y || (x.isZero && y.isZero)

/-- The exponent field. -/
def exponentField (x : Binary64) : Nat := (x.bits >>> 52 &&& 0x7FF).toNat

/-- The fraction field. -/
def fractionField (x : Binary64) : Nat := (x.bits &&& 0xFFFFFFFFFFFFF).toNat

/-- The magnitude as `m * 2 ^ q`: this is `m`. -/
def mantissa (x : Binary64) : Nat :=
  if x.exponentField = 0 then x.fractionField else (1 <<< 52) + x.fractionField

/-- The magnitude as `m * 2 ^ q`: this is `q`. -/
def exponent (x : Binary64) : Int :=
  (if x.exponentField = 0 then 1 else x.exponentField : Nat) - 1075

/-- The largest power of ten among the finite numbers. -/
def maxPower : Nat := 308

/-- The finite number nearest to a power of ten. -/
def powerOfTen (n : Nat) : Float := Float.ofScientific 1 false n

/-- Multiply a number by a power of ten, by one operation where the power is a finite number.
Overflow has no result; underflow ends at zero. -/
def scale (f : Float) (e : Int) : Option Float :=
  if e.natAbs ≤ maxPower then
    if 0 ≤ e then
      let g := f * powerOfTen e.natAbs
      if g.isInf then none else some g
    else some (f / powerOfTen e.natAbs)
  else if f == 0 then some f
  else if 0 ≤ e then none
  else scale (f / powerOfTen maxPower) (e + maxPower)
termination_by e.natAbs
decreasing_by simp only [maxPower] at *; omega

/-- The number of a numeral: digits that fit 64 bits, times a power of ten. -/
def ofDecimal? (negative : Bool) (digits : Nat) (e : Int) : Option Binary64 := do
  let f ← scale digits.toUInt64.toFloat e
  ofFloat? (if negative then -f else f)

end Binary64

end Recalc
