import BillRun.Proofs.CycleDates
import BillRun.Proofs.Precision
import BillRun.Proofs.Running

/-! Amounts and the exact share of the price that they stand for.

A piece of a stretch is billed as its share, by days, of a full cycle that it lies in
(`exists_full_cycle`). The share is a quotient of counts to 28 digits, its product with the price
keeps 28 digits again, and only then is the amount rounded to the quantum. These two steps lose less
than one part in `10 ^ 26` (`ratio_mul_error`), so the amount is the exact share of the price
rounded once, unless a boundary of the rounding mode lies as near as that (`amount_rounded_once`).
An exact share that lies on a boundary itself may so be rounded the wrong way (`misrounded_day`).
The price of a whole cycle is rounded once in any case. -/
namespace BillRun

open Calendar Moment

/-! ### The exact share of a price -/

namespace Calendar

theorem daysBefore_le {index : Nat} (h : 12 ≤ index) : daysBefore index ≤ 31 * index := by
  induction h with
  | refl => decide
  | @step k hk ih =>
    have := lengthAt_le k
    rw [daysBefore_succ k hk]
    omega

/-- No two dates are more than four million days apart. -/
theorem Moment.daysBetween_lt (s t : Moment) : s.daysBetween t < 4000000 := by
  have hbefore := daysBefore_le t.date.month.first_le
  have hlast := t.date.month.index_lt
  have hday : t.date.day ≤ lengthAt t.date.month.index := t.date.day_le
  have hlength := lengthAt_le t.date.month.index
  simp only [daysBetween, Date.dayNumber]
  omega

/-- A number of days is kept in full. -/
theorem Moment.digitCount_daysBetween {s t : Moment} (h : 0 < s.daysBetween t) :
    Text.digitCount (s.daysBetween t).toNat ≤ Decimal.precision := by
  have hmost := s.daysBetween_lt t
  have hlarge : 4000000 < Text.powerOfTen Decimal.precision := by decide
  exact Text.digitCount_le (by omega) (by omega)

end Calendar

namespace Decimal

theorem one_mul (d : Decimal) : one.mul d = d.finish := by
  simp only [mul, one, Nat.one_mul, Int.zero_add, Bool.false_bne]

/-- A quotient of days counts at most one exactly when the days say so, and it is never zero. -/
theorem ratio_days_le_one_iff {s t low high : Moment} (hdays : 0 < s.daysBetween t)
    (hlength : 0 < low.daysBetween high) :
    0 < (ratio (s.daysBetween t).toNat (low.daysBetween high).toNat).value ∧
      ((ratio (s.daysBetween t).toNat (low.daysBetween high).toNat).value ≤ 1 ↔
        s.daysBetween t ≤ low.daysBetween high) := by
  have hmost := s.daysBetween_lt t
  obtain ⟨hpos, hone⟩ := ratio_le_one_iff (n := (s.daysBetween t).toNat)
    (d := (low.daysBetween high).toNat) (by omega) (by omega) (by omega)
  exact ⟨hpos, hone.trans (by omega)⟩

/-- A quotient of days is the exact one rounded to 28 digits. -/
theorem ratio_days_eq_nearest {s t : Moment} {length : Nat} (hdays : 0 < s.daysBetween t)
    (hlength : 0 < length) :
    (ratio (s.daysBetween t).toNat length).value = nearest (s.daysBetween t / length) := by
  have hcount : ((s.daysBetween t).toNat : Int) = s.daysBetween t :=
    Int.toNat_of_nonneg (Int.le_of_lt hdays)
  rw [ratio_eq_nearest (by omega) hlength (digitCount_daysBetween hdays)]
  exact congrArg (fun days : ℚ => nearest (days / length)) (by exact_mod_cast hcount)

/-- What the exact share of a price may lose before it is rounded to the quantum. -/
def tolerance (x : ℚ) : ℚ := |x| / 10 ^ 26 + 10 ^ minExponent

/-- The exact price of some days of a full cycle. -/
def shareOf (rate : Decimal) (days length : Int) : ℚ := rate.value * (days / length)

/-- **The product with a quotient of counts is within the tolerance of the exact one.** -/
theorem ratio_mul_error {n d : ℕ} (hn : 0 < n) (hd : 0 < d)
    (hdigits : Text.digitCount n ≤ precision) {rate r : Decimal}
    (h : (ratio n d).mul rate = .ok r) :
    |r.value - rate.value * (n / d)| ≤ tolerance (rate.value * (n / d)) := by
  have hproduct := mul_error h
  have hquotient := ratio_error hn hd hdigits
  have hshare : (0 : ℚ) ≤ n / d := by positivity
  have hmin : (0 : ℚ) < 10 ^ minExponent := by positivity
  generalize (ratio n d).value = q at hproduct hquotient
  generalize (n : ℚ) / d = f at hquotient hshare ⊢
  have hfirst : |q * rate.value - rate.value * f| ≤ |rate.value * f| / 10 ^ 27 / 2 := by
    have hfactor : q * rate.value - rate.value * f = rate.value * (q - f) := by ring
    rw [hfactor, abs_mul, abs_mul, abs_of_nonneg hshare]
    calc |rate.value| * |q - f| ≤ |rate.value| * (f / 10 ^ 27 / 2) :=
          mul_le_mul_of_nonneg_left hquotient (abs_nonneg _)
      _ = |rate.value| * f / 10 ^ 27 / 2 := by ring
  generalize rate.value * f = x at hfirst ⊢
  generalize q * rate.value = y at hfirst hproduct
  have hsize : |y| ≤ |x| + |x| / 10 ^ 27 / 2 := by
    have := abs_sub_abs_le_abs_sub y x
    linarith
  have htotal := abs_sub_le r.value y x
  have hx := abs_nonneg x
  unfold slack at hproduct
  unfold tolerance
  linarith

end Decimal

/-- The amount is the exact share of the rate rounded once, when no boundary lies too near. The
amount for a full cycle is the rate rounded, when the rate has no more digits than are kept. -/
structure RoundedOnce (mode : Rounding) (unit : ℚ) (rate amount : Decimal) (days length : Int) :
    Prop where
  clear : mode.Clear unit (Decimal.tolerance (rate.shareOf days length)) (rate.shareOf days length) →
    amount.value = mode.toMultiple unit (rate.shareOf days length)
  full : days = length → rate.Fits → amount.value = mode.toMultiple unit rate.value

theorem Terms.roundedOnce_of_charge {t : Terms} {n d : ℕ} (hn : 0 < n) (hd : 0 < d)
    (hdigits : Text.digitCount n ≤ Decimal.precision) {rate amount : Decimal}
    (h : t.charge (.ratio n d) rate = .ok amount) : ∃ mode unit, t.rounding = some mode ∧
      t.quantum = .ok unit ∧ RoundedOnce mode (10 ^ unit.exponent) rate amount n d := by
  obtain ⟨product, unit, mode, hproduct, hunit, hmode, hquantize⟩ := charge_eq_ok.mp h
  obtain ⟨hamount, -⟩ := Decimal.quantize_value hquantize
  refine ⟨mode, unit, hmode, hunit, fun hclear => ?_, fun hfull hfits => ?_⟩
  · have hnear := Decimal.ratio_mul_error hn hd hdigits hproduct
    rw [hamount]
    unfold Decimal.shareOf at hclear ⊢
    push_cast at hclear ⊢
    exact hclear.toMultiple_eq (by positivity) hnear
  · obtain rfl : n = d := by exact_mod_cast hfull
    rw [Decimal.ratio_self hn, Decimal.one_mul] at hproduct
    rw [hamount, hfits.finish_eq_ok hproduct]

/-- The amount of a piece is its exact share, by days, of the rate rounded once. -/
theorem Span.ShareOf.roundedOnce {s : Span} {low high : Moment} (hshare : s.ShareOf low high)
    {t : Terms} {rate amount : Decimal} (h : t.charge s.cycles rate = .ok amount) :
    ∃ mode unit, t.rounding = some mode ∧ t.quantum = .ok unit ∧ RoundedOnce mode
      (10 ^ unit.exponent) rate amount (s.start.daysBetween s.stop) (low.daysBetween high) := by
  have hdays := hshare.days_pos
  have hlength := hshare.days_le
  have hn : ((s.start.daysBetween s.stop).toNat : Int) = s.start.daysBetween s.stop :=
    Int.toNat_of_nonneg (Int.le_of_lt hdays)
  have hd : ((low.daysBetween high).toNat : Int) = low.daysBetween high :=
    Int.toNat_of_nonneg (by omega)
  rw [hshare.cycles] at h
  have hrounded := Terms.roundedOnce_of_charge (by omega) (by omega)
    (digitCount_daysBetween hdays) h
  rwa [hn, hd] at hrounded

theorem Charge.kind_of_rate {c : Charge} {rate : Decimal} (h : c.basis.rate? = some rate) :
    c.kind = .recurring := by
  unfold kind
  cases hbasis : c.basis with
  | fixed =>
    rw [hbasis] at h
    cases h
  | recurring => rfl

/-- Every recurring item is for a share of a full cycle, at the price of its event. -/
theorem exists_share_of_rate {t : Timeline} {terms : Terms} {now : Moment} {ids : Nat → Uuid}
    {invoice : Uuid} {target : Moment} {currency : LooseText} {items : List Item}
    (hoffset : ∀ e ∈ t.events, ∀ f ∈ t.events, e.effective.offset = f.effective.offset)
    (h : t.expand terms now ids invoice target currency = .ok items) {i : Item} (hi : i ∈ items)
    {rate : Decimal} (hrate : i.charge.basis.rate? = some rate) :
    ∃ e ∈ t.events, ∃ (first low high : Moment) (s : Span),
      e.recurringPrice = some rate ∧ firstDate e.effective e.cycleDay.day = .ok first ∧
        (⟨first, e.period.months, e.cycleDay.day⟩ : Cycle).Full low high ∧ s.ShareOf low high ∧
        i.charge.start = s.start ∧ i.charge.stop = some s.stop ∧
        terms.charge s.cycles rate = .ok i.charge.amount := by
  have hmem : i.charge ∈ items.map (·.charge) := List.mem_map_of_mem hi
  obtain ⟨before, e, later, own, hevents, hown, hc⟩ :=
    Timeline.exists_charges_of_mem (Timeline.map_charge_of_expand h) hmem
  obtain ⟨rate', pieces, s, hprice, hpieces, hs, hcharge, hi⟩ :=
    Event.exists_piece_of_recurring hown hc (Charge.kind_of_rate hrate)
  rw [hi] at hrate
  obtain rfl := Option.some.inj hrate
  have he : e ∈ t.events := by
    rw [hevents]
    simp
  have hstop : ∀ u, (Timeline.successor e later).map (·.effective) = some u →
      u.offset = e.effective.offset := by
    intro u hu
    obtain ⟨f, hf, rfl⟩ := Option.map_eq_some_iff.mp hu
    refine hoffset f ?_ e he
    rw [hevents]
    simp [List.mem_of_find?_eq_some hf]
  obtain ⟨first, low, high, hfirst, hfull, hshare⟩ := Proration.exists_full_cycle hstop hpieces hs
  have hstart : i.charge.start = s.start := by
    rw [hi]
    rfl
  have hend : i.charge.stop = some s.stop := by
    rw [hi]
    rfl
  exact ⟨e, he, first, low, high, s, hprice, hfirst, hfull, hshare, hstart, hend, hcharge⟩

/-- **The amount of every recurring item is its exact share of the rate rounded once**, unless a
boundary lies too near. -/
theorem amount_rounded_once {t : Timeline} {terms : Terms} {now : Moment} {ids : Nat → Uuid}
    {invoice : Uuid} {target : Moment} {currency : LooseText} {items : List Item}
    (hoffset : ∀ e ∈ t.events, ∀ f ∈ t.events, e.effective.offset = f.effective.offset)
    (h : t.expand terms now ids invoice target currency = .ok items) {i : Item} (hi : i ∈ items)
    {rate : Decimal} (hrate : i.charge.basis.rate? = some rate) :
    ∃ e ∈ t.events, ∃ (first low high : Moment) (s : Span) (mode : Rounding) (unit : Decimal),
      e.recurringPrice = some rate ∧ firstDate e.effective e.cycleDay.day = .ok first ∧
        (⟨first, e.period.months, e.cycleDay.day⟩ : Cycle).Full low high ∧ s.ShareOf low high ∧
        i.charge.start = s.start ∧ i.charge.stop = some s.stop ∧ terms.rounding = some mode ∧
        terms.quantum = .ok unit ∧ RoundedOnce mode (10 ^ unit.exponent) rate i.charge.amount
          (s.start.daysBetween s.stop) (low.daysBetween high) := by
  obtain ⟨e, he, first, low, high, s, hprice, hfirst, hfull, hshare, hstart, hend, hcharge⟩ :=
    exists_share_of_rate hoffset h hi hrate
  obtain ⟨mode, unit, hmode, hunit, hrounded⟩ := hshare.roundedOnce hcharge
  exact ⟨e, he, first, low, high, s, mode, unit, hprice, hfirst, hfull, hshare, hstart, hend, hmode,
    hunit, hrounded⟩

namespace Sample

/-- The twenty-two days from the tenth of January on. -/
def january : Item :=
  (charge (day 1 10) (some (day 2 1)) (hundredths 2129) (.recurring (hundredths 3000) none)).issue
    (uuid 102) (uuid 100) (day 1 12)

theorem expand_event : (⟨[event]⟩ : Timeline).expand .standard (day 1 12) (fun n => uuid (101 + n))
    (uuid 100) (day 2 5) (.text "USD") = .ok (correction.items.take 3) := by decide +kernel

theorem value_hundredths (n : Nat) : (hundredths n).value = n / 100 := by
  have hscale : (10 : ℚ) ^ (-2 : Int) = 1 / 100 := by norm_num
  show 1 * (n : ℚ) * 10 ^ (-2 : Int) = n / 100
  rw [hscale]
  ring

theorem shareOf_hundredths (n days length : Nat) :
    (hundredths n).shareOf days length = (n : ℚ) / 100 * (days / length) := by
  rw [Decimal.shareOf, value_hundredths]
  push_cast
  ring

/-- The exact share of January lies almost half a cent away from any half of a cent. -/
theorem clear_january : Rounding.halfUp.Clear (10 ^ (-2 : Int))
    (Decimal.tolerance ((hundredths 3000).shareOf (22 : Nat) (31 : Nat)))
    ((hundredths 3000).shareOf (22 : Nat) (31 : Nat)) := by
  have hmin : (10 : ℚ) ^ Decimal.minExponent ≤ 10 ^ (-4 : Int) :=
    zpow_le_zpow_right₀ (by norm_num) (by decide)
  have hshare : (hundredths 3000).shareOf (22 : Nat) (31 : Nat) = 660 / 31 := by
    rw [shareOf_hundredths]
    norm_num
  rw [hshare]
  rintro b ⟨k, rfl⟩
  have hfar : (29 : ℚ) ≤ |131969 - 62 * (k : ℚ)| := by
    have hwhole : (29 : Int) ≤ |131969 - 62 * k| := le_abs.mpr (by omega)
    exact_mod_cast hwhole
  have hdistance : (660 / 31 : ℚ) - (k + 1 / 2) * 10 ^ (-2 : Int) = (131969 - 62 * k) / 6200 := by
    have hscale : (10 : ℚ) ^ (-2 : Int) = 1 / 100 := by norm_num
    rw [hscale]
    ring
  rw [hdistance, abs_div, abs_of_pos (show (0 : ℚ) < 6200 by norm_num)]
  unfold Decimal.tolerance
  rw [abs_of_pos (show (0 : ℚ) < 660 / 31 by norm_num)]
  norm_num at hmin
  linarith

/-- The cycle that the rest of January is a share of is January. -/
theorem days_january {low high : Moment} {s : Span}
    (hfull : (⟨day 2 1, event.period.months, event.cycleDay.day⟩ : Cycle).Full low high)
    (hshare : s.ShareOf low high) (hstart : s.start = day 1 10) (hstop : s.stop = day 2 1) :
    s.start.daysBetween s.stop = 22 ∧ low.daysBetween high = 31 := by
  have hlow := hshare.low_le
  rw [hstart] at hlow
  refine ⟨by rw [hstart, hstop]; decide, ?_⟩
  cases hfull with
  | before h =>
    have hjanuary : (day 2 1).addMonthsOnDay (-1) 1 = .ok (day 1 1) := by decide +kernel
    obtain rfl := Except.ok.inj (hjanuary.symm.trans h)
    decide
  | onward h h' =>
    -- the cycles from February on start too late
    have haligned := (Cycle.aligned_of_boundary h).1
    have hle := Cycle.boundary_le (by decide) rfl h (Nat.zero_le _)
    have hdays := haligned.symm.instant_le.mp hle
    exact absurd (Nat.le_trans hdays hlow) (by decide)

/-- A dollar and ninety-five cents a month, from the last day of April. -/
def lastDay : Event where
  subscription := uuid 1
  plan := .text "pro"
  phase := .text "fortnight"
  effective := day 4 30
  period := .monthly
  mode := .inAdvance
  cycleDay := .first
  fixedPrice := none
  recurringPrice := some (hundredths 195)
  phaseLength := none
  ordering := 0

end Sample

open Sample in
/-- The share of January, 22 of 31 days, is clear of any boundary: it is rounded once, to 21.29. -/
theorem amount_rounded_once_january :
    (∀ e ∈ [event], ∀ f ∈ [event], e.effective.offset = f.effective.offset) ∧
      january ∈ correction.items.take 3 ∧
      january.charge.basis.rate? = some (hundredths 3000) ∧
      ∃ (low high : Moment) (s : Span), s.ShareOf low high ∧ january.charge.start = s.start ∧
        january.charge.stop = some s.stop ∧ s.start.daysBetween s.stop = 22 ∧
        low.daysBetween high = 31 ∧
        Rounding.halfUp.Clear (10 ^ (-2 : Int))
          (Decimal.tolerance ((hundredths 3000).shareOf (s.start.daysBetween s.stop)
            (low.daysBetween high)))
          ((hundredths 3000).shareOf (s.start.daysBetween s.stop) (low.daysBetween high)) ∧
        january.charge.amount.value = Rounding.halfUp.toMultiple (10 ^ (-2 : Int))
          ((hundredths 3000).shareOf (s.start.daysBetween s.stop) (low.daysBetween high)) ∧
        january.charge.amount.value = 2129 / 100 := by
  have hoffset : ∀ e ∈ [event], ∀ f ∈ [event], e.effective.offset = f.effective.offset := by decide
  have hmem : january ∈ correction.items.take 3 := by decide +kernel
  have hrate : january.charge.basis.rate? = some (hundredths 3000) := rfl
  obtain ⟨e, he, first, low, high, s, mode, unit, -, hfirst, hfull, hshare, hstart, hstop, hmode,
    hunit, hrounded⟩ := amount_rounded_once hoffset expand_event hmem hrate
  obtain rfl := List.mem_singleton.mp he
  have hfebruary : firstDate event.effective event.cycleDay.day = .ok (day 2 1) := by decide +kernel
  obtain rfl := Except.ok.inj (hfebruary.symm.trans hfirst)
  obtain rfl : Rounding.halfUp = mode := Option.some.inj hmode
  have hquantum : Terms.standard.quantum = .ok ⟨false, 1, -2⟩ := by decide +kernel
  obtain rfl := Except.ok.inj (hquantum.symm.trans hunit)
  obtain ⟨hdays, hlength⟩ := days_january hfull hshare hstart.symm (Option.some.inj hstop).symm
  have hamount : january.charge.amount.value = 2129 / 100 := value_hundredths 2129
  refine ⟨hoffset, hmem, hrate, low, high, s, hshare, hstart, hstop, hdays, hlength, ?_, ?_,
    hamount⟩
  · rw [hdays, hlength]
    exact clear_january
  · refine hrounded.clear ?_
    rw [hdays, hlength]
    exact clear_january

open Sample in
/-- One of the thirty days of April at 1.95 a month makes six cents and a half. With halves away
from zero that is seven cents, and six are billed. -/
theorem misrounded_day :
    (⟨[lastDay]⟩ : Timeline).expand .standard (day 4 30) uuid (uuid 100) (day 4 30) (.text "USD") =
      .ok [(lastDay.charge (day 4 30) (some (day 5 1)) (hundredths 6) (.text "USD")
        (.recurring (hundredths 195) none)).issue (uuid 0) (uuid 100) (day 4 30)] ∧
      (day 4 30).daysBetween (day 5 1) = 1 ∧ (day 4 1).daysBetween (day 5 1) = 30 ∧
      Rounding.halfUp.toMultiple (10 ^ (-2 : Int)) ((hundredths 195).shareOf (1 : Nat) (30 : Nat)) =
        (hundredths 7).value := by
  refine ⟨by decide +kernel, by decide +kernel, by decide +kernel, ?_⟩
  have hscale : (10 : ℚ) ^ (-2 : Int) = 1 / 100 := by norm_num
  have hseven : ⌊(13 / 2 + 1 / 2 : ℚ)⌋₊ = 7 := by
    rw [show (13 / 2 + 1 / 2 : ℚ) = (7 : ℕ) by norm_num, Nat.floor_natCast]
  have hexact : ((195 : ℕ) : ℚ) / 100 * ((1 : ℕ) / (30 : ℕ)) / (1 / 100) = 13 / 2 := by norm_num
  rw [shareOf_hundredths, hscale, Rounding.toMultiple, hexact, value_hundredths, Rounding.whole,
    if_neg (by norm_num), Rounding.magnitude, hseven]
  norm_num

end BillRun
