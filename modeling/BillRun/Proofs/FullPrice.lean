import BillRun.Proofs.Proportion

/-! No part of a cycle costs more than the whole.

A price for some of a cycle is rounded three times: the share of the cycle to 28 digits, its product
with the rate to 28 digits, and the amount to the quantum. Rounding never passes a multiple of the
unit that it rounds to (`Rounding.toMultiple_mem_uIcc`), whatever the mode. Zero and the rate are
multiples of every such unit on the way, when the rate has no more than 28 digits and is a multiple
of the quantum. So the amount stays between the two (`amount_within_rate`), and a whole cycle costs
the rate. -/
namespace BillRun

open Calendar Moment

namespace Decimal

theorem exists_multiple {d : Decimal} {e : ℤ} (he : e ≤ d.exponent) :
    ∃ k : ℤ, d.value = k * 10 ^ e := by
  have hscaled := size_div_of_le he
  rw [div_eq_iff (by positivity)] at hscaled
  refine ⟨(if d.negative then -1 else 1) *
    (d.coefficient * Text.powerOfTen (d.exponent - e).toNat : ℕ), ?_⟩
  rw [value_eq_size, hscaled, ← mul_assoc]
  cases d.negative <;> push_cast <;> rfl

/-- A number of 28 digits is a multiple of the last place of every smaller one. -/
theorem exists_multiple_lastPlace {d rate : Decimal} (hd : ¬d.isZero = true)
    (hsize : d.size ≤ rate.size) (hdigits : rate.digits ≤ precision)
    (hplaces : ∃ k : ℤ, rate.value = k * 10 ^ minExponent) :
    ∃ k : ℤ, rate.value = k * 10 ^ d.lastPlace := by
  unfold lastPlace
  rcases le_total (d.exponent + d.digits - precision) minExponent with hle | hge
  · rwa [max_eq_right hle]
  · rw [max_eq_left hge]
    refine exists_multiple ?_
    have hlt : (10 : ℚ) ^ (d.exponent + d.digits) < 10 ^ (rate.exponent + rate.digits + 1) :=
      calc (10 : ℚ) ^ (d.exponent + d.digits) ≤ 10 * d.size := le_size hd
        _ ≤ 10 * rate.size := by linarith
        _ < 10 * 10 ^ (rate.exponent + rate.digits) := by linarith [rate.size_lt]
        _ = 10 ^ (rate.exponent + rate.digits + 1) := by rw [zpow_add_one₀ (by norm_num), mul_comm]
    have hfirst := (zpow_lt_zpow_iff_right₀ (by norm_num)).mp hlt
    omega

/-- Finishing a number passes no multiple of its last place. -/
theorem finish_mem_uIcc {d r : Decimal} (h : d.finish = .ok r) {a b : ℚ}
    (ha : ¬d.isZero = true → ∃ j : ℤ, a = j * 10 ^ d.lastPlace)
    (hb : ¬d.isZero = true → ∃ k : ℤ, b = k * 10 ^ d.lastPlace) (hd : d.value ∈ Set.uIcc a b) :
    r.value ∈ Set.uIcc a b := by
  rw [finish_value h]
  split
  · rename_i hzero
    rwa [value_of_isZero hzero] at hd
  · rename_i hzero
    rw [kept_value hzero]
    split
    · obtain ⟨j, rfl⟩ := ha hzero
      obtain ⟨k, rfl⟩ := hb hzero
      exact Rounding.toMultiple_mem_uIcc (by positivity) hd
    · exact hd

/-- The product of a rate and a share of it lies between zero and the rate, and is the rate when the
share is the whole. -/
theorem mul_mem_uIcc {cycles rate r : Decimal} (h : cycles.mul rate = .ok r) {low : ℤ}
    (hlow : 0 ≤ low) (hcycles : cycles.value ∈ Set.Icc (low : ℚ) 1)
    (hdigits : rate.digits ≤ precision)
    (hplaces : ∃ k : ℤ, rate.value = k * 10 ^ minExponent) :
    r.value ∈ Set.uIcc (low * rate.value) rate.value := by
  obtain ⟨hge, hle⟩ := hcycles
  have hnonneg : 0 ≤ cycles.value := le_trans (by exact_mod_cast hlow) hge
  have hvalue := product_value cycles rate
  have hsize : (cycles.product rate).size ≤ rate.size := by
    rw [← abs_value, ← abs_value, hvalue, abs_mul, abs_of_nonneg hnonneg]
    exact mul_le_of_le_one_left (abs_nonneg _) hle
  have hmultiple (hd : ¬(cycles.product rate).isZero = true) :=
    exists_multiple_lastPlace hd hsize hdigits hplaces
  refine finish_mem_uIcc (d := cycles.product rate) h (fun hd => ?_) hmultiple ?_
  · obtain ⟨k, hk⟩ := hmultiple hd
    exact ⟨low * k, by rw [hk]; push_cast; ring⟩
  · rw [hvalue, Set.mem_uIcc]
    rcases le_total 0 rate.value with hrate | hrate
    · exact .inl ⟨mul_le_mul_of_nonneg_right hge hrate, mul_le_of_le_one_left hrate hle⟩
    · refine .inr ⟨?_, mul_le_mul_of_nonpos_right hge hrate⟩
      linarith [mul_le_mul_of_nonpos_right hle hrate]

end Decimal

/-- The amount for a share of a cycle lies between zero and the rate, and is the rate for a whole
cycle. -/
theorem Terms.charge_mem_uIcc {t : Terms} {cycles rate amount unit : Decimal} {k : ℤ}
    (h : t.charge cycles rate = .ok amount) (low : ℤ) (hlow : 0 ≤ low)
    (hcycles : cycles.value ∈ Set.Icc (low : ℚ) 1) (hdigits : rate.digits ≤ Decimal.precision)
    (hunit : t.quantum = .ok unit) (hmultiple : rate.value = k * unit.value) :
    amount.value ∈ Set.uIcc (low * rate.value) rate.value := by
  obtain ⟨product, unit', mode, hproduct, hunit', -, hquantize⟩ := charge_eq_ok.mp h
  obtain rfl := Except.ok.inj (hunit.symm.trans hunit')
  have hplaces {e : ℤ} (he : e ≤ unit.exponent) : ∃ n : ℤ, rate.value = n * 10 ^ e := by
    obtain ⟨n, hn⟩ := Decimal.exists_multiple he
    exact ⟨k * n, by rw [hmultiple, hn]; push_cast; ring⟩
  have hexact := Decimal.mul_mem_uIcc hproduct hlow hcycles hdigits
    (hplaces (minExponent_le_of_quantum hunit))
  obtain ⟨n, hn⟩ := hplaces le_rfl
  have hlower : (low : ℚ) * rate.value = (low * n : ℤ) * 10 ^ unit.exponent := by
    rw [hn]
    push_cast
    ring
  rw [(Decimal.quantize_value hquantize).1]
  rw [hlower, hn] at hexact ⊢
  exact Rounding.toMultiple_mem_uIcc (by positivity) hexact

end BillRun
