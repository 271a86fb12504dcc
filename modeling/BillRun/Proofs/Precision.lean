import BillRun.Proofs.ExactRounding
import Mathlib.Data.Int.Log
import Mathlib.Data.Nat.Cast.Field

/-! What decimals lose to 28 digits.

Finishing a number, and so every product, loses at most half a unit of the 28th digit
(`finish_error`), and so does a quotient of two counts (`ratio_error`): the places of the quotient
are chosen so that it has 28 digits whatever the counts (`exists_places`), and to these it is
rounded (`ratio_eq_nearest`). Only below the smallest exponent is more lost, down to zero. What is
lost never takes a quotient across one (`ratio_le_one_iff`). -/
namespace BillRun

open Text

namespace Decimal

theorem size_lt (d : Decimal) : d.size < 10 ^ (d.exponent + d.digits) := by
  have hdigits : (d.coefficient : ℚ) < 10 ^ d.digits := by
    exact_mod_cast lt_powerOfTen_digitCount d.coefficient
  rw [zpow_add₀ (by norm_num), zpow_natCast, mul_comm]
  exact mul_lt_mul_of_pos_right hdigits (by positivity)

theorem le_size {d : Decimal} (h : ¬d.isZero = true) :
    10 ^ (d.exponent + d.digits) ≤ 10 * d.size := by
  have hdigits : (10 : ℚ) ^ d.digits ≤ 10 * d.coefficient := by
    exact_mod_cast powerOfTen_digitCount_le (n := d.coefficient) (by simpa [isZero] using h)
  rw [zpow_add₀ (by norm_num), zpow_natCast, size, mul_comm, ← mul_assoc]
  exact mul_le_mul_of_nonneg_right hdigits (by positivity)

/-! ### What 28 digits lose -/

theorem carried_value {d : Decimal} (h : d.coefficient ≤ 10 ^ precision) :
    d.carried.value = d.value := by
  unfold carried
  split
  · rename_i hdigits
    have hlarge : 10 ^ precision ≤ d.coefficient := by
      have hgrow : 10 ^ (precision + 1) ≤ 10 ^ d.digits := Nat.pow_le_pow_right (by decide) hdigits
      have hle : 10 ^ d.digits ≤ 10 * d.coefficient := by
        refine powerOfTen_digitCount_le fun hzero => ?_
        rw [digits, hzero, digitCount, if_pos (by decide)] at hdigits
        exact absurd hdigits (by decide)
      rw [Nat.pow_succ] at hgrow
      omega
    have hcoefficient := Nat.le_antisymm h hlarge
    simp only [value, hcoefficient]
    rw [zpow_add_one₀ (by norm_num), show 10 ^ precision / 10 = 10 ^ 27 from rfl,
      show (10 ^ precision : ℕ) = 10 ^ 27 * 10 from rfl]
    push_cast
    ring
  · rfl

/-- Half a unit of the last digit that is kept of a number. -/
def slack (x : ℚ) : ℚ := (|x| / 10 ^ 27 + 10 ^ minExponent) / 2

theorem slack_nonneg (x : ℚ) : 0 ≤ slack x := by
  unfold slack
  positivity

/-- The exponent of the last digit that is kept of a number: 28 digits after the first, or the least
of all. -/
def lastPlace (d : Decimal) : ℤ := max (d.exponent + d.digits - precision) minExponent

theorem pow_lastPlace_le {d : Decimal} (hd : ¬d.isZero = true) :
    (10 : ℚ) ^ d.lastPlace ≤ d.size / 10 ^ 27 + 10 ^ minExponent := by
  have hsize := size_pos hd
  have hmin : (0 : ℚ) < 10 ^ minExponent := by positivity
  unfold lastPlace
  rcases le_total (d.exponent + d.digits - precision) minExponent with hle | hge
  · rw [max_eq_right hle]
    linarith [div_pos hsize (show (0 : ℚ) < 10 ^ 27 by positivity)]
  · have hfirst : (10 : ℚ) ^ (d.exponent + d.digits - precision) =
        10 ^ (d.exponent + d.digits) / 10 / 10 ^ 27 := by
      rw [zpow_sub₀ (by norm_num), zpow_natCast, div_div]
      norm_num [precision]
    have hle : (10 : ℚ) ^ (d.exponent + d.digits) / 10 ≤ d.size := by
      linarith [le_size hd]
    rw [max_eq_left hge, hfirst]
    linarith [div_le_div_of_nonneg_right hle (show (0 : ℚ) ≤ 10 ^ 27 by positivity)]

/-- A number is kept as it is, or rounded to its last place. -/
theorem kept_value {d : Decimal} (hd : ¬d.isZero = true) :
    d.kept.value = if d.exponent < d.lastPlace
      then Rounding.halfEven.toMultiple (10 ^ d.lastPlace) d.value else d.value := by
  have hkept : d.kept = if d.exponent < d.lastPlace
      then (d.roundTo .halfEven d.lastPlace).carried else d := rfl
  rw [hkept]
  split
  · rename_i hlow
    have hten : (0 : ℚ) < 10 ^ d.lastPlace := by positivity
    have hcoefficient := roundTo_coefficient .halfEven hd hlow.le
    have hfits : (d.roundTo .halfEven d.lastPlace).coefficient ≤ 10 ^ precision := by
      rw [hcoefficient]
      refine Rounding.magnitude_le (div_pos (size_pos hd) hten).le _ _ ?_
      rw [div_le_iff₀ hten, Nat.cast_pow, Nat.cast_ofNat, ← zpow_natCast, ← zpow_add₀ (by norm_num)]
      refine d.size_lt.le.trans (zpow_le_zpow_right₀ (by norm_num) ?_)
      unfold lastPlace
      omega
    rw [carried_value hfits]
    exact value_of_magnitude (r := d.roundTo .halfEven d.lastPlace) hd rfl hcoefficient
  · rfl

theorem kept_error {d : Decimal} (hd : ¬d.isZero = true) :
    |d.kept.value - d.value| ≤ slack d.value := by
  rw [kept_value hd]
  split
  · have hlowest := pow_lastPlace_le hd
    calc |Rounding.halfEven.toMultiple (10 ^ d.lastPlace) d.value - d.value|
        ≤ 10 ^ d.lastPlace / 2 := Rounding.abs_toMultiple_halfEven_sub_le (by positivity)
      _ ≤ slack d.value := by
        rw [slack, abs_value]
        linarith
  · simpa using slack_nonneg d.value

theorem finish_value {d r : Decimal} (h : d.finish = .ok r) :
    r.value = if d.isZero then 0 else d.kept.value := by
  by_cases hzero : d.isZero = true
  · unfold finish at h
    rw [if_pos hzero] at h
    cases h
    rw [if_pos hzero]
    exact value_of_isZero hzero
  · rw [if_neg hzero]
    rw [finish_of_not_isZero hzero] at h
    split at h
    · cases h
    · cases h
      rfl

/-- **Finishing a number loses at most half a unit of its 28th digit.** -/
theorem finish_error {d r : Decimal} (h : d.finish = .ok r) :
    |r.value - d.value| ≤ slack d.value := by
  rw [finish_value h]
  split
  · rename_i hzero
    rw [value_of_isZero hzero]
    simpa using slack_nonneg 0
  · exact kept_error ‹_›

/-- The product of two numbers, before it is finished. -/
def product (a b : Decimal) : Decimal :=
  ⟨a.negative != b.negative, a.coefficient * b.coefficient, a.exponent + b.exponent⟩

theorem product_value (a b : Decimal) : (a.product b).value = a.value * b.value := by
  obtain ⟨negative, coefficient, exponent⟩ := a
  obtain ⟨negative', coefficient', exponent'⟩ := b
  cases negative <;> cases negative' <;> simp [product, value, zpow_add₀] <;> ring

theorem mul_error {a b r : Decimal} (h : a.mul b = .ok r) :
    |r.value - a.value * b.value| ≤ slack (a.value * b.value) := by
  rw [← product_value]
  exact finish_error h

/-! ### Quotients of counts -/

theorem stripFraction_value (coefficient places : ℕ) :
    (stripFraction coefficient places).value = (coefficient : ℚ) / 10 ^ places := by
  induction places generalizing coefficient with
  | zero => simp [stripFraction, value]
  | succ places ih =>
    unfold stripFraction
    split
    · have hsplit : (coefficient : ℚ) = (coefficient / 10 : ℕ) * 10 := by
        exact_mod_cast (Nat.div_mul_cancel (Nat.dvd_of_mod_eq_zero ‹_›)).symm
      rw [ih, pow_succ, hsplit, mul_div_mul_right _ _ (by norm_num)]
    · rw [value, zpow_neg, zpow_natCast, if_neg Bool.false_ne_true, one_mul, div_eq_mul_inv]

/-- As many places are chosen as give the quotient 28 digits. -/
theorem exists_places {n d : ℕ} (hn : 0 < n) (hd : 0 < d) (hdigits : digitCount n ≤ precision) :
    ∃ places, 10 ^ 27 * d ≤ n * powerOfTen places ∧ n * powerOfTen places < 10 ^ 28 * d ∧
      ratio n d = if n * powerOfTen places % d = 0 then
        stripFraction (n * powerOfTen places / d) places
      else (⟨false, Rounding.halfEven.quotient false (n * powerOfTen places) d, -(places : ℤ)⟩ :
        Decimal).carried := by
  have hdcount : 0 < digitCount d := by
    rw [digitCount]
    split <;> omega
  obtain ⟨most, hmost⟩ : ∃ most, most + 1 = precision + digitCount d - digitCount n :=
    ⟨_, Nat.sub_add_cancel (by omega)⟩
  have hsum : digitCount n + most = 27 + digitCount d := by
    unfold precision at hmost hdigits
    omega
  have hpow :
      powerOfTen (digitCount n) * powerOfTen most = 10 ^ 27 * powerOfTen (digitCount d) := by
    show 10 ^ digitCount n * 10 ^ most = 10 ^ 27 * 10 ^ digitCount d
    rw [← Nat.pow_add, ← Nat.pow_add, hsum]
  have hnlow := powerOfTen_digitCount_le hn.ne'
  have hnhigh := lt_powerOfTen_digitCount n
  have hdlow := powerOfTen_digitCount_le hd.ne'
  have hdhigh := lt_powerOfTen_digitCount d
  have hten : n * powerOfTen (most + 1) = 10 * (n * powerOfTen most) := by
    rw [powerOfTen_succ, Nat.mul_left_comm]
  have hlow : 10 ^ 27 * d ≤ n * powerOfTen (most + 1) := by
    have hscaled := Nat.mul_le_mul_right (powerOfTen most) hnlow
    rw [hpow, Nat.mul_assoc] at hscaled
    omega
  have hhigh : n * powerOfTen most < 10 ^ 28 * d := by
    have hscaled := Nat.mul_lt_mul_of_pos_right hnhigh (powerOfTen_pos most)
    rw [hpow] at hscaled
    omega
  have hratio : ratio n d =
      let places := if n * powerOfTen (most + 1) / d < powerOfTen precision then most + 1 else most
      if n * powerOfTen places % d = 0 then stripFraction (n * powerOfTen places / d) places
      else (⟨false, Rounding.halfEven.quotient false (n * powerOfTen places) d, -(places : ℤ)⟩ :
        Decimal).carried := by
    unfold ratio
    rw [if_neg hn.ne', ← hmost]
    rfl
  by_cases hfit : n * powerOfTen (most + 1) / d < powerOfTen precision
  · rw [if_pos hfit] at hratio
    exact ⟨most + 1, hlow, (Nat.div_lt_iff_lt_mul hd).mp hfit, hratio⟩
  · rw [if_neg hfit] at hratio
    have hlarge : 10 ^ 28 * d ≤ n * powerOfTen (most + 1) :=
      (Nat.le_div_iff_mul_le hd).mp (Nat.not_lt.mp hfit)
    exact ⟨most, by omega, hhigh, hratio⟩

/-- A quotient of counts is rounded to the nearest in its last place. -/
theorem ratio_value {n d : ℕ} (hn : 0 < n) (hd : 0 < d) (hdigits : digitCount n ≤ precision) :
    ∃ places, 10 ^ 27 * d ≤ n * powerOfTen places ∧ n * powerOfTen places < 10 ^ 28 * d ∧
      (ratio n d).value = (Rounding.halfEven.quotient false (n * powerOfTen places) d : ℕ) /
        powerOfTen places := by
  obtain ⟨places, hlow, hhigh, hratio⟩ := exists_places hn hd hdigits
  refine ⟨places, hlow, hhigh, ?_⟩
  rw [hratio, cast_powerOfTen]
  split
  · rw [stripFraction_value, Rounding.quotient_of_dvd _ _ (Nat.dvd_of_mod_eq_zero ‹_›)]
  · have hfits : Rounding.halfEven.quotient false (n * powerOfTen places) d ≤ 10 ^ precision :=
      Rounding.quotient_le_of_le _ _ hd hhigh.le
    rw [carried_value hfits, value, if_neg Bool.false_ne_true, one_mul, zpow_neg, zpow_natCast,
      div_eq_mul_inv]

/-- A positive number rounded to 28 digits, a half going to the even neighbour. -/
def nearest (x : ℚ) : ℚ :=
  Rounding.halfEven.toMultiple (10 ^ (Int.log 10 x + 1 - precision)) x

/-- A quotient of counts has its last place where it has 28 digits before it. -/
theorem nearest_div {n d places : ℕ} (hd : 0 < d) (hlow : 10 ^ 27 * d ≤ n * 10 ^ places)
    (hhigh : n * 10 ^ places < 10 ^ 28 * d) :
    nearest (n / d) =
      (Rounding.halfEven.quotient false (n * 10 ^ places) d : ℕ) / 10 ^ places := by
  have hd' : (0 : ℚ) < d := by exact_mod_cast hd
  have hscale : (0 : ℚ) < 10 ^ places := by positivity
  have hscaled : ((n * 10 ^ places : ℕ) : ℚ) / d = (n : ℚ) / d * 10 ^ places := by
    push_cast
    ring
  have hleast : (10 : ℚ) ^ (27 - places : ℤ) ≤ n / d := by
    rw [zpow_sub₀ (by norm_num), zpow_natCast, div_le_div_iff₀ hscale hd']
    exact_mod_cast hlow
  have hmost : (n : ℚ) / d < 10 ^ (28 - places : ℤ) := by
    rw [zpow_sub₀ (by norm_num), zpow_natCast, div_lt_div_iff₀ hd' hscale]
    exact_mod_cast hhigh
  have hpos : (0 : ℚ) < n / d := lt_of_lt_of_le (by positivity) hleast
  have hlog : Int.log 10 ((n : ℚ) / d) + 1 - precision = -(places : ℤ) := by
    have hle := (Int.zpow_le_iff_le_log (b := 10) (by decide) hpos).mp hleast
    have hlt := (Int.lt_zpow_iff_log_lt (b := 10) (by decide) hpos).mp hmost
    unfold precision
    omega
  have hunit : (n : ℚ) / d / 10 ^ (-(places : ℤ)) = n / d * 10 ^ places := by
    rw [zpow_neg, zpow_natCast, div_inv_eq_mul]
  rw [nearest, hlog, Rounding.toMultiple, hunit, Rounding.whole,
    if_neg (not_lt.mpr (mul_pos hpos hscale).le), Rounding.quotient_eq _ _ _ hd, hscaled, zpow_neg,
    zpow_natCast, div_eq_mul_inv]
  rfl

/-- **A quotient of counts is the exact one rounded to 28 digits.** -/
theorem ratio_eq_nearest {n d : ℕ} (hn : 0 < n) (hd : 0 < d) (hdigits : digitCount n ≤ precision) :
    (ratio n d).value = nearest (n / d) := by
  obtain ⟨places, hlow, hhigh, hvalue⟩ := ratio_value hn hd hdigits
  rw [nearest_div hd hlow hhigh, hvalue, cast_powerOfTen]
  rfl

/-- **A quotient of counts loses at most half a unit of its 28th digit.** -/
theorem ratio_error {n d : ℕ} (hn : 0 < n) (hd : 0 < d) (hdigits : digitCount n ≤ precision) :
    |(ratio n d).value - (n : ℚ) / d| ≤ (n : ℚ) / d / 10 ^ 27 / 2 := by
  obtain ⟨places, hlow, -, hratio⟩ := ratio_value hn hd hdigits
  have hd' : (0 : ℚ) < d := by exact_mod_cast hd
  have hpow : (0 : ℚ) < powerOfTen places := by exact_mod_cast powerOfTen_pos places
  have hscale : (n : ℚ) / d = ((n * powerOfTen places : ℕ) : ℚ) / d / powerOfTen places := by
    rw [Nat.cast_mul, mul_div_right_comm, mul_div_cancel_right₀ _ hpow.ne']
  rw [hratio, hscale]
  generalize n * powerOfTen places = scaled at hlow
  have hnear : |(Rounding.halfEven.quotient false scaled d : ℚ) - scaled / d| ≤ 1 / 2 := by
    rw [Rounding.quotient_eq _ _ _ hd]
    exact Rounding.abs_magnitude_halfEven_sub_le false (by positivity)
  have hlarge : (1 : ℚ) ≤ scaled / d / 10 ^ 27 := by
    rw [le_div_iff₀ (by positivity), le_div_iff₀ hd', one_mul]
    exact_mod_cast hlow
  rw [← sub_div, abs_div, abs_of_pos hpow]
  calc |(Rounding.halfEven.quotient false scaled d : ℚ) - scaled / d| / powerOfTen places
      ≤ (scaled / d / 10 ^ 27 / 2) / powerOfTen places :=
        div_le_div_of_nonneg_right (hnear.trans (by linarith)) hpow.le
    _ = scaled / d / powerOfTen places / 10 ^ 27 / 2 := by ring

/-- **A quotient of counts is at most one exactly when the counts say so**, and it is never zero. -/
theorem ratio_le_one_iff {n d : ℕ} (hn : 0 < n) (hd : 0 < d) (hsmall : n ≤ 10 ^ 27) :
    0 < (ratio n d).value ∧ ((ratio n d).value ≤ 1 ↔ n ≤ d) := by
  have hdigits : digitCount n ≤ precision :=
    digitCount_le hn.ne' (Nat.lt_of_le_of_lt hsmall (by decide))
  obtain ⟨places, hlow, -, hratio⟩ := ratio_value hn hd hdigits
  have hpow := powerOfTen_pos places
  have hpow' : (0 : ℚ) < powerOfTen places := by exact_mod_cast hpow
  rw [hratio]
  generalize powerOfTen places = scale at hlow hpow hpow'
  constructor
  · have hlarge := Rounding.le_quotient_of_le .halfEven false hd hlow
    refine div_pos ?_ hpow'
    exact_mod_cast Nat.lt_of_lt_of_le (by decide) hlarge
  · rw [div_le_one hpow', Nat.cast_le]
    constructor
    · intro hle
      by_contra hlt
      -- one place is as small as one of the `d` parts, and a part more shows
      have hscale : d ≤ scale := by nlinarith
      have hmore : (scale + 1) * d ≤ n * scale := by nlinarith
      have := Rounding.le_quotient_of_le .halfEven false hd hmore
      omega
    · intro hle
      refine Rounding.quotient_le_of_le _ _ hd ?_
      rw [Nat.mul_comm scale]
      exact Nat.mul_le_mul_right scale hle

end Decimal

end BillRun
