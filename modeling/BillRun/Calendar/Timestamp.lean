import BillRun.Amount.Binary64
import BillRun.Amount.Text
import BillRun.Calendar.Moment

/-! Moments given as seconds since the start of 1970 in UTC.

A number of more than `2 * 10 ^ 10` either way is in milliseconds. Numbers may be whole or
fractional, or be written in digits. What they come to is the count of microseconds that a moment
has in UTC, for the years 0 to 9999; the calendar itself begins with the year 1. -/
namespace BillRun.Calendar.Timestamp

open Text

/-- The last number that is in seconds. -/
def watershed : Nat := 20000000000

/-- The number of the first day of 1970. -/
def firstDay : Int := 719163

/-- The count of microseconds, for a second of the years 0 to 9999. -/
def count? (seconds : Int) (microseconds : Nat) : Option Int :=
  let seconds := seconds + (microseconds / 1000000 : Nat)
  if -62167219200 ≤ seconds ∧ seconds ≤ 253402300799 then
    some (firstDay * dayLength + seconds * 1000000 + (microseconds % 1000000 : Nat))
  else none

/-- The count of microseconds, for a whole number of seconds or of milliseconds and `more`
microseconds. -/
def ofWhole? (inMilliseconds : Bool) (n : Int) (more : Nat) : Option Int :=
  if inMilliseconds then count? (n.fdiv 1000) ((n.fmod 1000).toNat * 1000 + more) else count? n more

/-- The count of microseconds, for a whole number in seconds or, past the `watershed`, in
milliseconds. -/
def ofInt? (n : Int) : Option Int := ofWhole? (watershed < n.natAbs) n 0

/-- A quotient rounded to 64 bits, as a quotient again. -/
def rounded (n d : Nat) : Nat × Nat :=
  match Binary64.ofRatio false n d with
  | .finite _ significand exponent => Binary64.ratio significand exponent
  | _ => (n, d)

/-- The microseconds in a fraction of a unit that has `size` of them, a half going up; the fraction
and its product are rounded to 64 bits. -/
def microsecondsOf (size n d : Nat) : Nat :=
  let (n, d) := rounded n d
  let (n, d) := rounded (n * size) d
  Rounding.halfUp.quotient false n d

/-- The whole part of a quotient, rounded down, and the numerator of what is left. -/
def split (negative : Bool) (n d : Nat) : Int × Nat :=
  if negative then (-((n + d - 1) / d : Nat), (d - n % d) % d) else ((n / d : Nat), n % d)

/-- The whole part is rounded down and the fraction counts forward from there, whatever the
sign. -/
def ofFloat? : Binary64 → Option Int
  | .finite negative significand exponent =>
    let (n, d) := Binary64.ratio significand exponent
    let (whole, rest) := split negative n d
    let inMilliseconds := watershed * d < n
    ofWhole? inMilliseconds whole
      (microsecondsOf (if inMilliseconds then 1000 else 1000000) rest d)
  | _ => none

/-- A number in digits with an optional sign. One with a point, and perhaps a power of ten after
it, is read as the nearest number of 64 bits. -/
def ofChars? (cs : List Char) : Option Int := do
  let (negative, cs) := Decimal.readSign cs
  if !cs.isEmpty && cs.all isDigit then ofInt? (if negative then -(valueOf cs) else valueOf cs)
  else if cs.contains '.' then
    let ((whole, fraction), cs) ← Decimal.readDigits cs
    let power ← Decimal.readExponent cs
    ofFloat? (.ofDecimal negative (valueOf (whole ++ fraction)) (power - fraction.length))
  else none

end BillRun.Calendar.Timestamp
