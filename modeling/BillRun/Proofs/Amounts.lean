import BillRun.Proofs.Outcome
import BillRun.Terms
import Mathlib.Algebra.Field.Rat
import Mathlib.Algebra.GroupWithZero.Basic
import Mathlib.Tactic.Ring

/-! The numbers that decimals stand for, and amounts that can be taken back exactly.

A decimal stands for a rational (`value`), whichever triple it is written as. Negation rounds to 28
digits, so it is exact only on decimals that fit (`value_neg`). Every amount that the terms charge
fits, since it was rounded to the quantum with the digits counted (`fits_of_charge`). -/
namespace BillRun

open Text

namespace Decimal

/-- The number that a decimal stands for. -/
def value (d : Decimal) : ℚ := (if d.negative then -1 else 1) * d.coefficient * 10 ^ d.exponent

theorem value_of_isZero {d : Decimal} (h : d.isZero = true) : d.value = 0 := by
  have hcoefficient : d.coefficient = 0 := by simpa [isZero] using h
  rw [value, hcoefficient]
  simp

/-! ### One number, many triples -/

theorem stripZeros_value (coefficient : Nat) (exponent : Int) :
    ((stripZeros coefficient exponent).1 : ℚ) * 10 ^ (stripZeros coefficient exponent).2 =
      coefficient * 10 ^ exponent := by
  induction coefficient, exponent using stripZeros.induct with
  | case1 coefficient exponent h ih =>
    have hsplit : coefficient = coefficient / 10 * 10 := by omega
    rw [stripZeros, if_pos h, ih, zpow_add_one₀ (by decide)]
    conv_rhs => rw [hsplit]
    push_cast
    ring
  | case2 coefficient exponent h => rw [stripZeros, if_neg h]

@[simp] theorem value_canonical (d : Decimal) : d.canonical.value = d.value := by
  unfold canonical
  split
  · rename_i hzero
    rw [value_of_isZero hzero]
    exact value_of_isZero rfl
  · show (if d.negative then -1 else 1) * ((stripZeros d.coefficient d.exponent).1 : ℚ) *
      10 ^ (stripZeros d.coefficient d.exponent).2 = d.value
    rw [mul_assoc, stripZeros_value, ← mul_assoc]
    rfl

theorem stripZeros_stripZeros (coefficient : Nat) (exponent : Int) :
    stripZeros (stripZeros coefficient exponent).1 (stripZeros coefficient exponent).2 =
      stripZeros coefficient exponent := by
  induction coefficient, exponent using stripZeros.induct with
  | case1 coefficient exponent h ih =>
    have hstep : stripZeros coefficient exponent = stripZeros (coefficient / 10) (exponent + 1) := by
      rw [stripZeros, if_pos h]
    rw [hstep, ih]
  | case2 coefficient exponent h =>
    have hstop : stripZeros coefficient exponent = (coefficient, exponent) := by
      rw [stripZeros, if_neg h]
    rw [hstop, hstop]

theorem stripZeros_ne_zero (coefficient : Nat) (exponent : Int) (h : coefficient ≠ 0) :
    (stripZeros coefficient exponent).1 ≠ 0 := by
  induction coefficient, exponent using stripZeros.induct with
  | case1 coefficient exponent hstrip ih =>
    rw [stripZeros, if_pos hstrip]
    exact ih (by omega)
  | case2 coefficient exponent hstop =>
    rw [stripZeros, if_neg hstop]
    exact h

@[simp] theorem canonical_canonical (d : Decimal) : d.canonical.canonical = d.canonical := by
  by_cases hzero : d.isZero = true
  · have hcanonical : d.canonical = zero := if_pos hzero
    rw [hcanonical]
    rfl
  · have hcoefficient : d.coefficient ≠ 0 := by simpa [isZero] using hzero
    have hstrip := stripZeros_ne_zero d.coefficient d.exponent hcoefficient
    simp [canonical, isZero, hcoefficient, hstrip, stripZeros_stripZeros]

/-! ### Exact negation -/

/-- The decimal is zero, or has no digit that finishing would drop. -/
def Fits (d : Decimal) : Prop :=
  d.isZero = true ∨ d.digits ≤ precision ∧ minExponent ≤ d.exponent

theorem Fits.finish_eq_ok {d r : Decimal} (hfits : d.Fits) (h : d.finish = .ok r) :
    r.value = d.value := by
  unfold finish at h
  split at h
  · rename_i hzero
    cases h
    rw [value_of_isZero hzero]
    exact value_of_isZero hzero
  · rename_i hzero
    obtain ⟨hdigits, hexponent⟩ := hfits.resolve_left hzero
    have hlowest : ¬d.exponent < max (d.exponent + d.digits - precision) minExponent := by omega
    simp only [if_neg hlowest] at h
    split at h
    · cases h
    · cases h
      rfl

/-- The number with the other sign, before it is finished. -/
def opposite (d : Decimal) : Decimal := { d with negative := !d.isZero && !d.negative }

theorem neg_eq (d : Decimal) : d.neg = d.opposite.finish := rfl

theorem opposite_value (d : Decimal) : d.opposite.value = -d.value := by
  by_cases hzero : d.isZero = true
  · rw [value_of_isZero hzero, neg_zero]
    exact value_of_isZero hzero
  · rw [value, value]
    cases hnegative : d.negative <;> simp [opposite, hzero, hnegative]

/-- **Negating a decimal that fits is exact.** -/
theorem Fits.value_neg {d r : Decimal} (hfits : d.Fits) (h : d.neg = .ok r) :
    r.value = -d.value := by
  have hopposite : d.opposite.Fits := hfits
  rw [hopposite.finish_eq_ok h, opposite_value]

/-! ### Charged amounts fit -/

theorem minExponent_le_of_finish {d r : Decimal} (h : d.finish = .ok r) :
    minExponent ≤ r.exponent := by
  unfold finish at h
  split at h
  · cases h
    exact Int.le_max_left ..
  · simp only at h
    split at h
    · -- rounded to the lowest exponent allowed, and up by one when a digit was carried
      split at h
      · cases h
      · cases h
        unfold carried
        split
        · show minExponent ≤ max _ minExponent + 1
          omega
        · exact Int.le_max_right ..
    · split at h
      · cases h
      · cases h
        omega

theorem fits_of_quantize {mode : Rounding} {e : Int} {d r : Decimal} (he : minExponent ≤ e)
    (h : d.quantize mode e = .ok r) : r.Fits := by
  unfold quantize at h
  split at h
  · rename_i hzero
    cases h
    exact .inl hzero
  · split at h
    · cases h
    · simp only at h
      split at h <;> split at h
      · cases h
      · rename_i hrange
        cases h
        exact .inr ⟨Nat.not_lt.mp fun hlt => hrange (.inl hlt), he⟩
      · cases h
      · rename_i hrange
        cases h
        exact .inr ⟨Nat.not_lt.mp fun hlt => hrange (.inl hlt), he⟩

end Decimal

theorem Terms.charge_eq_ok {t : Terms} {cycles rate amount : Decimal} :
    t.charge cycles rate = .ok amount ↔ ∃ exact unit mode, cycles.mul rate = .ok exact ∧
      t.quantum = .ok unit ∧ t.rounding = some mode ∧
      exact.quantize mode unit.exponent = .ok amount := by
  unfold charge
  rw [bind_eq_ok]
  constructor
  · rintro ⟨exact, hexact, h⟩
    obtain ⟨unit, hunit, h⟩ := bind_eq_ok.mp h
    split at h
    · cases h
    · exact ⟨exact, unit, _, hexact, hunit, ‹_›, h⟩
  · rintro ⟨exact, unit, mode, hexact, hunit, hmode, h⟩
    refine ⟨exact, hexact, bind_eq_ok.mpr ⟨unit, hunit, ?_⟩⟩
    rw [hmode]
    exact h

theorem Terms.minExponent_le_of_quantum {t : Terms} {unit : Decimal} (h : t.quantum = .ok unit) :
    Decimal.minExponent ≤ unit.exponent := by
  unfold quantum Decimal.unitOf at h
  split at h
  · cases h
  · exact Decimal.minExponent_le_of_finish h

theorem Terms.fits_of_charge {t : Terms} {cycles rate amount : Decimal}
    (h : t.charge cycles rate = .ok amount) : amount.Fits := by
  obtain ⟨exact, unit, mode, -, hunit, -, h⟩ := charge_eq_ok.mp h
  exact Decimal.fits_of_quantize (minExponent_le_of_quantum hunit) h

/-! ### Negation and the triple that is negated -/

theorem Rounding.stepsUp_mul_ten (mode : Rounding) (negative : Bool) (q r d : Nat) :
    mode.stepsUp negative q (10 * r) (10 * d) = mode.stepsUp negative q r d := by
  have hzero : (10 * r != 0) = (r != 0) := by
    rw [Bool.eq_iff_iff]
    simp
  have hhalf : 10 * d < 2 * (10 * r) ↔ d < 2 * r := by omega
  have htie : (2 * (10 * r) == 10 * d) = (2 * r == d) := by
    rw [Bool.eq_iff_iff, beq_iff_eq, beq_iff_eq]
    omega
  have hup : 10 * d ≤ 2 * (10 * r) ↔ d ≤ 2 * r := by omega
  unfold stepsUp
  rw [hzero]
  cases mode <;> simp only [hhalf, htie, hup]

theorem Rounding.quotient_mul_ten (mode : Rounding) (negative : Bool) (n d : Nat) :
    mode.quotient negative (10 * n) (10 * d) = mode.quotient negative n d := by
  unfold quotient
  rw [Nat.mul_div_mul_left n d (by decide), Nat.mul_mod_mul_left, stepsUp_mul_ten]

theorem Text.digitCount_mul_ten {n : Nat} (h : n ≠ 0) : digitCount (10 * n) = digitCount n + 1 := by
  rw [digitCount, if_neg (by omega), Nat.mul_div_cancel_left n (by decide)]

namespace Decimal

theorem finish_eq_error {d : Decimal} {f : Fault} (h : d.finish = .error f) : f = .magnitude := by
  unfold finish at h
  split at h
  · cases h
  · simp only at h
    split at h <;> split at h <;> cases h <;> rfl

/-- The digits that are kept of a number other than zero. -/
def kept (d : Decimal) : Decimal :=
  let lowest := max (d.exponent + d.digits - precision) minExponent
  if d.exponent < lowest then (d.roundTo .halfEven lowest).carried else d

theorem finish_of_not_isZero {d : Decimal} (h : ¬d.isZero = true) :
    d.finish = if maxExponent < d.kept.adjusted then .error .magnitude else .ok d.kept := if_neg h

/-- Whether a trailing zero is written in the coefficient or in the exponent, the digits kept are
those of one number. -/
theorem kept_mul_ten (negative : Bool) {c : Nat} (hc : c ≠ 0) (e : Int) :
    (kept ⟨negative, 10 * c, e⟩).adjusted = (kept ⟨negative, c, e + 1⟩).adjusted ∧
      (kept ⟨negative, 10 * c, e⟩).canonical = (kept ⟨negative, c, e + 1⟩).canonical := by
  have hdigits : digitCount (10 * c) = digitCount c + 1 := digitCount_mul_ten hc
  obtain ⟨lowest, hlowest⟩ : ∃ lowest,
      lowest = max (e + 1 + (digitCount c : Nat) - precision) minExponent := ⟨_, rfl⟩
  have hkept : kept ⟨negative, 10 * c, e⟩ =
      if e < lowest then (roundTo .halfEven lowest ⟨negative, 10 * c, e⟩).carried
      else ⟨negative, 10 * c, e⟩ := by
    have hsame : e + (digitCount (10 * c) : Nat) - precision =
        e + 1 + (digitCount c : Nat) - precision := by omega
    simp only [kept, digits, hsame, ← hlowest]
  have hkept' : kept ⟨negative, c, e + 1⟩ =
      if e + 1 < lowest then (roundTo .halfEven lowest ⟨negative, c, e + 1⟩).carried
      else ⟨negative, c, e + 1⟩ := by
    simp only [kept, digits, ← hlowest]
  rw [hkept, hkept']
  rcases Int.lt_trichotomy (e + 1) lowest with hlt | heq | hgt
  · -- both are rounded, at one digit less
    have hdropped : min (lowest - e).toNat (digitCount (10 * c) + 1) =
        min (lowest - (e + 1)).toNat (digitCount c + 1) + 1 := by omega
    have hround : roundTo .halfEven lowest ⟨negative, 10 * c, e⟩ =
        roundTo .halfEven lowest ⟨negative, c, e + 1⟩ := by
      simp only [roundTo, digits, hdropped, powerOfTen_succ, Rounding.quotient_mul_ten]
    rw [if_pos (by omega), if_pos hlt, hround]
    exact ⟨rfl, rfl⟩
  · -- the zero is the digit that is dropped
    have hdropped : min (lowest - e).toNat (digitCount (10 * c) + 1) = 1 := by omega
    have hround : roundTo .halfEven lowest ⟨negative, 10 * c, e⟩ = ⟨negative, c, e + 1⟩ := by
      have hquotient := Rounding.quotient_of_dvd .halfEven negative (Nat.dvd_mul_right 10 c)
      rw [Nat.mul_div_cancel_left c (by decide)] at hquotient
      have hten : powerOfTen 1 = 10 := rfl
      simp only [roundTo, digits, hdropped, hten, hquotient, heq]
    have hcarried : carried ⟨negative, c, e + 1⟩ = ⟨negative, c, e + 1⟩ := by
      refine if_neg ?_
      simp only [digits]
      omega
    rw [if_pos (by omega), if_neg (by omega), hround, hcarried]
    exact ⟨rfl, rfl⟩
  · rw [if_neg (by omega), if_neg (by omega)]
    constructor
    · simp only [adjusted, digits]
      omega
    · have hstrip : stripZeros (10 * c) e = stripZeros c (e + 1) := by
        rw [stripZeros, if_pos (by omega), Nat.mul_div_cancel_left c (by decide)]
      simp [canonical, isZero, hc, hstrip]

theorem finish_mul_ten (negative : Bool) {c : Nat} (hc : c ≠ 0) (e : Int) :
    canonical <$> finish ⟨negative, 10 * c, e⟩ = canonical <$> finish ⟨negative, c, e + 1⟩ := by
  obtain ⟨hadjusted, hcanonical⟩ := kept_mul_ten negative hc e
  rw [finish_of_not_isZero (by simpa [isZero] using hc),
    finish_of_not_isZero (by simpa [isZero] using hc), hadjusted]
  split
  · rfl
  · exact congrArg Except.ok hcanonical

theorem finish_stripZeros (negative : Bool) (c : Nat) (e : Int) (hc : c ≠ 0) :
    canonical <$> finish ⟨negative, c, e⟩ =
      canonical <$> finish ⟨negative, (stripZeros c e).1, (stripZeros c e).2⟩ := by
  induction c, e using stripZeros.induct with
  | case1 c e hten ih =>
    have hsplit : 10 * (c / 10) = c := by omega
    rw [stripZeros, if_pos hten, ← ih (by omega), ← finish_mul_ten negative (by omega), hsplit]
  | case2 c e hstop => rw [stripZeros, if_neg hstop]

/-- Finishing a number gives one number, whichever triple it is written as. -/
theorem finish_canonical (d : Decimal) :
    canonical <$> d.finish = canonical <$> d.canonical.finish := by
  by_cases hzero : d.isZero = true
  · have hcanonical : d.canonical = zero := if_pos hzero
    have hfinish : d.finish =
        .ok { d with exponent := max minExponent (min d.exponent maxExponent) } := if_pos hzero
    rw [hcanonical, hfinish]
    exact congrArg Except.ok (if_pos hzero)
  · have hcanonical : d.canonical = ⟨d.negative, (stripZeros d.coefficient d.exponent).1,
        (stripZeros d.coefficient d.exponent).2⟩ := if_neg hzero
    rw [hcanonical]
    exact finish_stripZeros _ _ _ (by simpa [isZero] using hzero)

theorem canonical_opposite (d : Decimal) : d.opposite.canonical = d.canonical.opposite := by
  by_cases hzero : d.isZero = true
  · have hcanonical : d.canonical = zero := if_pos hzero
    rw [hcanonical]
    exact if_pos hzero
  · have hcoefficient : d.coefficient ≠ 0 := by simpa [isZero] using hzero
    have hstrip := stripZeros_ne_zero d.coefficient d.exponent hcoefficient
    simp [canonical, opposite, isZero, hcoefficient, hstrip]

/-- **Negation sees the number only**, whichever triple it is written as. -/
theorem neg_congr {a b : Decimal} (h : a.canonical = b.canonical) :
    canonical <$> a.neg = canonical <$> b.neg := by
  rw [neg_eq, neg_eq, finish_canonical a.opposite, finish_canonical b.opposite, canonical_opposite,
    canonical_opposite, h]

theorem neg_eq_error {d : Decimal} {f : Fault} (h : d.neg = .error f) : f = .magnitude :=
  finish_eq_error h

end Decimal
end BillRun
