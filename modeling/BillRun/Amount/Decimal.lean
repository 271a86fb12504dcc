import BillRun.Text.Digits

/-! Decimal numbers: a sign, a coefficient and a power of ten.

Different triples may stand for one number, as `30` and `30.00` do; the exponent is kept because it
shows in writing. `canonical` picks one triple for each number, and `same` compares numbers. -/
namespace BillRun

open Text

/-- The number `coefficient * 10 ^ exponent`, or its opposite. A zero has sign and exponent too. -/
structure Decimal where
  negative : Bool
  coefficient : Nat
  exponent : Int
deriving DecidableEq, Repr

namespace Decimal

def zero : Decimal := ⟨false, 0, 0⟩

def one : Decimal := ⟨false, 1, 0⟩

/-- A whole number without places after the point. -/
def ofNat (n : Nat) : Decimal := ⟨false, n, 0⟩

def ofInt (n : Int) : Decimal := ⟨n < 0, n.natAbs, 0⟩

/-- The length of the coefficient in writing; zero takes one digit. -/
def digits (d : Decimal) : Nat := digitCount d.coefficient

/-- The power of ten of the leading digit. -/
def adjusted (d : Decimal) : Int := d.exponent + d.digits - 1

/-- Zero of either sign, whatever its exponent. -/
def isZero (d : Decimal) : Bool := d.coefficient = 0

def isPositive (d : Decimal) : Bool := !d.negative && !d.isZero

/-- Below zero, which no zero is, not even one with a minus sign. -/
def isNegative (d : Decimal) : Bool := d.negative && !d.isZero

/-- A coefficient without its trailing zeros, and the exponent that makes up for them. -/
def stripZeros (coefficient : Nat) (exponent : Int) : Nat × Int :=
  if coefficient ≠ 0 ∧ coefficient % 10 = 0 then stripZeros (coefficient / 10) (exponent + 1)
  else (coefficient, exponent)
termination_by coefficient

/-- The one triple that stands for the number. -/
def canonical (d : Decimal) : Decimal :=
  if d.isZero then zero
  else
    let (coefficient, exponent) := stripZeros d.coefficient d.exponent
    ⟨d.negative, coefficient, exponent⟩

def same (a b : Decimal) : Bool := a.canonical = b.canonical

/-- The number in units of `10 ^ e`, for an `e` not above the exponent. -/
def unitsAt (e : Int) (d : Decimal) : Int :=
  if d.isZero then 0
  else
    let n := d.coefficient * powerOfTen (d.exponent - e).toNat
    if d.negative then -n else n

end Decimal

end BillRun
