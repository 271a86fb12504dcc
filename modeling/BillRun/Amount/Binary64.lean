import BillRun.Amount.Decimal
import BillRun.Amount.Rounding

/-! Floating-point numbers of 64 bits, as exact dyadic values.

`ofRatio` gives the nearest number to a quotient, a tie going to the even significand, and
`ofDecimal` does so for a decimal literal. `shortest` goes back: it finds the fewest digits that
only this number is nearest to, and of those the closest. `toDecimal` writes these digits out, with
a zero after the point where the number is whole and below `10 ^ 16`. -/
namespace BillRun

open Text

/-- A finite number is `significand * 2 ^ exponent`, with at most 53 bits and an exponent of at
least -1074; the exponent is the least possible unless the number needs all 53 bits. -/
inductive Binary64 where
  | finite (negative : Bool) (significand : Nat) (exponent : Int)
  | infinite (negative : Bool)
  | notANumber
deriving DecidableEq, Repr

namespace Binary64

/-- The nearest number to `n / d`, for a positive `d`. -/
def ofRatio (negative : Bool) (n d : Nat) : Binary64 :=
  if n = 0 then .finite negative 0 (-1074)
  else
    let scaled (e : Int) : Nat × Nat := (n <<< (-e).toNat, d <<< e.toNat)
    let guess : Int := (n.log2 : Int) - d.log2 - 52
    let (n₀, d₀) := scaled guess
    let e := max (-1074) (if n₀ / d₀ < 1 <<< 52 then guess - 1 else guess)
    let (n₁, d₁) := scaled e
    let m := Rounding.halfEven.quotient false n₁ d₁
    let (m, e) := if m = 1 <<< 53 then (1 <<< 52, e + 1) else (m, e)
    if 971 < e then .infinite negative else .finite negative m e

/-- The nearest number to `coefficient * 10 ^ exponent`. -/
def ofDecimal (negative : Bool) (coefficient : Nat) (exponent : Int) : Binary64 :=
  if coefficient = 0 then .finite negative 0 (-1074)
  else
    let top := exponent + digitCount coefficient
    if 400 < top then .infinite negative
    else if top < -400 then .finite negative 0 (-1074)
    else ofRatio negative (coefficient * powerOfTen exponent.toNat) (powerOfTen (-exponent).toNat)

/-- Neither infinite nor `notANumber`. -/
def isFinite : Binary64 → Bool
  | finite .. => true
  | _ => false

/-- The magnitude as a quotient. -/
def ratio (significand : Nat) (exponent : Int) : Nat × Nat :=
  (significand <<< exponent.toNat, 1 <<< (-exponent).toNat)

/-- The whole part, away from the sign, and whether anything is left over. -/
def whole (significand : Nat) (exponent : Int) : Nat × Bool :=
  let (n, d) := ratio significand exponent
  (n / d, n % d ≠ 0)

/-! ### The shortest digits -/

/-- The power of ten just above a positive quotient: it lies below `10 ^ p` and not below
`10 ^ (p - 1)`. -/
def magnitude (n d : Nat) : Int :=
  if d ≤ n then digitCount (n / d)
  else
    let p := digitCount (d / n) - 1
    if n * powerOfTen p = d then 1 - (p : Int) else -p

/-- The multiple of `10 ^ k` that reads back as the number, if one does; of two, the nearer. -/
def onGrid (significand : Nat) (exponent : Int) (k : Int) : Option Nat :=
  -- all bounds in quarters of the last bit
  let below := if significand = 1 <<< 52 ∧ -1074 < exponent then 1 else 2
  let quarter := powerOfTen (-k).toNat <<< (exponent - 2).toNat
  let unit := powerOfTen k.toNat <<< (2 - exponent).toNat
  let value := 4 * significand * quarter
  let low := (4 * significand - below) * quarter
  let high := (4 * significand + 2) * quarter
  let inside (c : Nat) : Bool :=
    if significand % 2 = 0 then low ≤ c * unit && c * unit ≤ high
    else low < c * unit && c * unit < high
  let c := value / unit
  let r := value % unit
  let lower := if inside c then some c else none
  let upper := if inside (c + 1) then some (c + 1) else none
  match lower, upper with
  | some c, some c' => some (if 2 * r < unit || (2 * r = unit && c % 2 = 0) then c else c')
  | some c, none => some c
  | none, c' => c'

/-- Coefficient and power of ten of the shortest decimal that reads back as a positive number. -/
def shortest (significand : Nat) (exponent : Int) : Nat × Int :=
  let (n, d) := ratio significand exponent
  let top := magnitude n d
  let found := (List.range 17).findSome? fun i =>
    (onGrid significand exponent (top - (i + 1 : Nat))).map fun c => (c, top - (i + 1 : Nat))
  let (c, k) := found.getD (0, 0)
  Decimal.stripZeros c k

/-- The shortest digits, with a zero after the point for a whole number below `10 ^ 16`. -/
def toDecimal (negative : Bool) (significand : Nat) (exponent : Int) : Decimal :=
  if significand = 0 then ⟨negative, 0, -1⟩
  else
    let (c, k) := shortest significand exponent
    if 0 ≤ k ∧ k + digitCount c ≤ 16 then ⟨negative, c * powerOfTen (k.toNat + 1), -1⟩
    else ⟨negative, c, k⟩

end Binary64

end BillRun
