/-! The eight ways to round a quotient to a whole number.

`Rounding.quotient` rounds `n / d`, the magnitude of a number with the given sign: it takes the
whole part and steps away from zero when `stepsUp` says so. An exact quotient is never changed. -/
namespace BillRun

/-- Where a quotient goes that lies between two whole numbers. -/
inductive Rounding where
  | ceiling
  | down
  | floor
  | halfDown
  | halfEven
  | halfUp
  | up
  /-- Away from zero when the last digit kept is 0 or 5, and toward zero otherwise. -/
  | zeroFiveUp
deriving DecidableEq, Repr

namespace Rounding

/-- The word for the mode in settings. -/
def name : Rounding → String
  | ceiling => "ROUND_CEILING"
  | down => "ROUND_DOWN"
  | floor => "ROUND_FLOOR"
  | halfDown => "ROUND_HALF_DOWN"
  | halfEven => "ROUND_HALF_EVEN"
  | halfUp => "ROUND_HALF_UP"
  | up => "ROUND_UP"
  | zeroFiveUp => "ROUND_05UP"

def all : List Rounding := [ceiling, down, floor, halfDown, halfEven, halfUp, up, zeroFiveUp]

def ofName? (s : String) : Option Rounding := all.find? (·.name = s)

/-- Whether the whole part `q` gives way to the next number, when `r` of `d` is left over. -/
def stepsUp (mode : Rounding) (negative : Bool) (q r d : Nat) : Bool :=
  r != 0 &&
    match mode with
    | ceiling => !negative
    | down => false
    | floor => negative
    | halfDown => d < 2 * r
    | halfEven => d < 2 * r || (2 * r == d && q % 2 == 1)
    | halfUp => d ≤ 2 * r
    | up => true
    | zeroFiveUp => q % 5 == 0

/-- The quotient `n / d` rounded, as the magnitude of a number with the given sign. -/
def quotient (mode : Rounding) (negative : Bool) (n d : Nat) : Nat :=
  if mode.stepsUp negative (n / d) (n % d) d then n / d + 1 else n / d

theorem quotient_of_dvd (mode : Rounding) (negative : Bool) {n d : Nat} (h : d ∣ n) :
    mode.quotient negative n d = n / d := by
  simp [quotient, stepsUp, Nat.mod_eq_zero_of_dvd h]

theorem div_le_quotient (mode : Rounding) (negative : Bool) (n d : Nat) :
    n / d ≤ mode.quotient negative n d := by
  unfold quotient
  split <;> omega

theorem quotient_le (mode : Rounding) (negative : Bool) (n d : Nat) :
    mode.quotient negative n d ≤ n / d + 1 := by
  unfold quotient
  split <;> omega

end Rounding

end BillRun
