import BillRun.Amount.Decimal
import BillRun.Amount.Rounding
import BillRun.Fault

/-! Arithmetic to 28 significant digits.

`finish` brings an exact result into range: it rounds to 28 digits, a half going to the even
neighbour, lets what is too small vanish, and fails on what is too large. Sums, products and
negation finish the exact result; `ratio` does the same for a quotient of two counts. `quantize`
rounds to a given last place in any mode and fails when that takes more than 28 digits.

Exponents may lie so far apart that the exact sum could not be written down. An operand that cannot
reach the last digit kept is then replaced by one unit below it (`near`), which rounds alike. -/
namespace BillRun.Decimal

open Text

/-- How many significant digits a result keeps. -/
def precision : Nat := 28

/-- The largest power of ten that a leading digit may have. -/
def maxExponent : Int := 999999

/-- The smallest exponent. -/
def minExponent : Int := -1000026

/-- Rounded to a multiple of `10 ^ e`, for an `e` above the exponent. Beyond one place past the
leading digit, the number of digits dropped no longer matters. -/
def roundTo (mode : Rounding) (e : Int) (d : Decimal) : Decimal :=
  let dropped := min (e - d.exponent).toNat (d.digits + 1)
  ⟨d.negative, mode.quotient d.negative d.coefficient (powerOfTen dropped), e⟩

/-- A coefficient that rounding has carried to one digit more is `10 ^ precision`. -/
def carried (d : Decimal) : Decimal :=
  if precision < d.digits then ⟨d.negative, d.coefficient / 10, d.exponent + 1⟩ else d

/-- An exact result in range: rounded once where it has too many digits or too small an exponent. -/
def finish (d : Decimal) : Except Fault Decimal :=
  if d.isZero then .ok { d with exponent := max minExponent (min d.exponent maxExponent) }
  else
    let lowest := max (d.exponent + d.digits - precision) minExponent
    let d := if d.exponent < lowest then (d.roundTo .halfEven lowest).carried else d
    if maxExponent < d.adjusted then .error .magnitude else .ok d

/-- The exact sum. -/
def plus (a b : Decimal) : Decimal :=
  let e := min a.exponent b.exponent
  let n := a.unitsAt e + b.unitsAt e
  ⟨if n = 0 then a.negative && b.negative else n < 0, n.natAbs, e⟩

/-- The operand `b` of a sum with `a`, moved up to where it still decides the rounding. -/
def near (a b : Decimal) : Decimal :=
  if a.isZero then b
  else if b.isZero then { b with exponent := max b.exponent (a.exponent - (precision + 1)) }
  else
    let reach := a.exponent + min (-1) ((a.digits : Int) - (precision + 2))
    if b.exponent < a.exponent ∧ b.adjusted < reach then ⟨b.negative, 1, reach⟩ else b

/-- The sum, rounded once. -/
def add (a b : Decimal) : Except Fault Decimal := finish (plus (near b a) (near a b))

def mul (a b : Decimal) : Except Fault Decimal :=
  finish ⟨a.negative != b.negative, a.coefficient * b.coefficient, a.exponent + b.exponent⟩

/-- The opposite number; zero becomes positive. -/
def neg (d : Decimal) : Except Fault Decimal :=
  finish { d with negative := !d.isZero && !d.negative }

/-- Trailing zeros removed as long as the exponent is negative. -/
def stripFraction (coefficient : Nat) : (places : Nat) → Decimal
  | 0 => ⟨false, coefficient, 0⟩
  | places + 1 =>
    if coefficient % 10 = 0 then stripFraction (coefficient / 10) places
    else ⟨false, coefficient, -(places + 1 : Nat)⟩

/-- The quotient of two counts, `d` positive, of less than 28 digits each: exact without trailing
zeros where 28 digits suffice, and rounded to 28 digits where they do not. -/
def ratio (n d : Nat) : Decimal :=
  if n = 0 then zero
  else
    let places := precision + digitCount d - digitCount n
    -- one place fewer when that already makes 28 digits
    let places := if n * powerOfTen places / d < powerOfTen precision then places else places - 1
    let scaled := n * powerOfTen places
    if scaled % d = 0 then stripFraction (scaled / d) places
    else (⟨false, Rounding.halfEven.quotient false scaled d, -(places : Int)⟩ : Decimal).carried

/-- Rounded to a multiple of `10 ^ e`, or written with that exponent. -/
def quantize (mode : Rounding) (e : Int) (d : Decimal) : Except Fault Decimal :=
  if d.isZero then .ok { d with exponent := e }
  else if (precision : Int) < d.digits + (d.exponent - e) then .error .precision
  else
    let r :=
      if e ≤ d.exponent then ⟨d.negative, d.coefficient * powerOfTen (d.exponent - e).toNat, e⟩
      else d.roundTo mode e
    if precision < r.digits ∨ maxExponent < r.adjusted then .error .precision else .ok r

/-- `10 ^ -places`. -/
def unitOf (places : Int) : Except Fault Decimal :=
  if 2 * (maxExponent + precision) < places.natAbs then .error .precision
  else finish ⟨false, 1, -places⟩

/-- The sum in order, from zero. -/
def total (ds : List Decimal) : Except Fault Decimal := ds.foldlM add zero

end BillRun.Decimal
