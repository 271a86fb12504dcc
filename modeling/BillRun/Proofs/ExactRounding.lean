import BillRun.Proofs.Amounts
import Mathlib.Algebra.Order.Field.Power
import Mathlib.Algebra.Order.Group.Pointwise.Interval
import Mathlib.Data.Rat.Floor
import Mathlib.Tactic.Linarith

/-! Rounding rational numbers.

`Rounding.whole` is what a mode makes of any rational number: quotients of counts are rounded just
so (`Rounding.quotient_eq`), and decimals when they are quantized (`Decimal.quantize_value`). A mode
has its boundaries at the whole numbers or at the halves, and a number may move between two of them
without being rounded otherwise (`Rounding.whole_eq_of_between`). No mode passes a whole number, so
rounding to a multiple of a unit passes no such multiple (`Rounding.toMultiple_mem_uIcc`). -/
namespace BillRun

open Text

namespace Rounding

/-! ### Rounding a magnitude -/

/-- The whole number that a magnitude is rounded to, for the sign that goes with it. -/
def magnitude (mode : Rounding) (negative : Bool) (x : ℚ) : ℕ :=
  match mode with
  | ceiling => if negative then ⌊x⌋₊ else ⌈x⌉₊
  | down => ⌊x⌋₊
  | floor => if negative then ⌈x⌉₊ else ⌊x⌋₊
  | halfDown => ⌈x - 1 / 2⌉₊
  | halfEven => if ⌊x⌋₊ % 2 = 0 then ⌈x - 1 / 2⌉₊ else ⌊x + 1 / 2⌋₊
  | halfUp => ⌊x + 1 / 2⌋₊
  | up => ⌈x⌉₊
  | zeroFiveUp => if ⌊x⌋₊ % 5 = 0 then ⌈x⌉₊ else ⌊x⌋₊

section Parts

variable {q : ℕ} {f : ℚ}

theorem floor_parts (h : 0 ≤ f) (hlt : f < 1) : ⌊(q : ℚ) + f⌋₊ = q :=
  (Nat.floor_eq_iff (by positivity)).mpr ⟨by linarith, by linarith⟩

theorem ceil_parts (h : 0 < f) (hle : f ≤ 1) : ⌈(q : ℚ) + f⌉₊ = q + 1 := by
  refine le_antisymm (Nat.ceil_le.mpr ?_) (Nat.lt_ceil.mpr ?_)
  · push_cast
    linarith
  · linarith

theorem floor_parts_half (h : 0 ≤ f) (hlt : f < 1) :
    ⌊(q : ℚ) + f + 1 / 2⌋₊ = if 1 / 2 ≤ f then q + 1 else q := by
  have hpos : (0 : ℚ) ≤ q + f + 1 / 2 := by positivity
  split
  · refine (Nat.floor_eq_iff hpos).mpr ⟨?_, ?_⟩ <;> push_cast <;> linarith
  · exact (Nat.floor_eq_iff hpos).mpr ⟨by linarith, by linarith⟩

theorem ceil_parts_half (h : 0 ≤ f) (hlt : f < 1) :
    ⌈(q : ℚ) + f - 1 / 2⌉₊ = if 1 / 2 < f then q + 1 else q := by
  split
  · refine le_antisymm (Nat.ceil_le.mpr ?_) (Nat.lt_ceil.mpr ?_)
    · push_cast
      linarith
    · linarith
  · refine le_antisymm (Nat.ceil_le.mpr (by linarith)) ?_
    cases q with
    | zero => exact Nat.zero_le _
    | succ q =>
      refine Nat.lt_ceil.mpr ?_
      push_cast
      linarith

end Parts

/-- **Quotients are rounded as the rational numbers they are.** -/
theorem quotient_eq (mode : Rounding) (negative : Bool) (n : ℕ) {d : ℕ} (hd : 0 < d) :
    mode.quotient negative n d = mode.magnitude negative ((n : ℚ) / d) := by
  have hd' : (0 : ℚ) < d := by exact_mod_cast hd
  have hr := Nat.mod_lt n hd
  have hsplit : (n : ℚ) / d = (n / d : ℕ) + ((n % d : ℕ) : ℚ) / d := by
    have hn : (n : ℚ) = d * (n / d : ℕ) + (n % d : ℕ) := by exact_mod_cast (Nat.div_add_mod n d).symm
    rw [hn, add_div, mul_div_cancel_left₀ _ hd'.ne']
  rw [hsplit]
  unfold quotient
  generalize n / d = q
  generalize n % d = r at hr ⊢
  have hnonneg : (0 : ℚ) ≤ r / d := by positivity
  have hlt : (r : ℚ) / d < 1 := (div_lt_one hd').mpr (by exact_mod_cast hr)
  have hfloor : ⌊(q : ℚ) + r / d⌋₊ = q := floor_parts hnonneg hlt
  have hceil : ⌈(q : ℚ) + r / d⌉₊ = if r = 0 then q else q + 1 := by
    split
    · rename_i hzero
      simp [hzero]
    · exact ceil_parts (by positivity) hlt.le
  have hhalfUp : ⌊(q : ℚ) + r / d + 1 / 2⌋₊ = if d ≤ 2 * r then q + 1 else q := by
    have hhalf : 1 / 2 ≤ (r : ℚ) / d ↔ d ≤ 2 * r := by
      rw [div_le_div_iff₀ two_pos hd', one_mul, mul_comm]
      exact_mod_cast Iff.rfl
    rw [floor_parts_half hnonneg hlt]
    simp only [hhalf]
  have hhalfDown : ⌈(q : ℚ) + r / d - 1 / 2⌉₊ = if d < 2 * r then q + 1 else q := by
    have hhalf : 1 / 2 < (r : ℚ) / d ↔ d < 2 * r := by
      rw [div_lt_div_iff₀ two_pos hd', one_mul, mul_comm]
      exact_mod_cast Iff.rfl
    rw [ceil_parts_half hnonneg hlt]
    simp only [hhalf]
  unfold stepsUp magnitude
  cases mode <;> simp only [hfloor, hceil, hhalfUp, hhalfDown] <;> grind

@[simp] theorem magnitude_natCast (mode : Rounding) (negative : Bool) (n : ℕ) :
    mode.magnitude negative n = n := by
  have h := mode.quotient_eq negative n Nat.one_pos
  rw [mode.quotient_of_dvd negative (Nat.one_dvd n), Nat.div_one, Nat.cast_one, div_one] at h
  exact h.symm

/-! ### Whole numbers are not passed -/

theorem quotient_le_of_le (mode : Rounding) (negative : Bool) {n d k : ℕ} (hd : 0 < d)
    (h : n ≤ k * d) : mode.quotient negative n d ≤ k := by
  rcases Nat.lt_or_eq_of_le h with hlt | rfl
  · have hwhole : n / d < k := (Nat.div_lt_iff_lt_mul hd).mpr hlt
    have hstep := mode.quotient_le negative n d
    omega
  · rw [quotient_of_dvd _ _ (Nat.dvd_mul_left d k), Nat.mul_div_cancel _ hd]

theorem le_quotient_of_le (mode : Rounding) (negative : Bool) {n d k : ℕ} (hd : 0 < d)
    (h : k * d ≤ n) : k ≤ mode.quotient negative n d :=
  ((Nat.le_div_iff_mul_le hd).mpr h).trans (mode.div_le_quotient negative n d)

section Magnitude

variable {x : ℚ} (hx : 0 ≤ x)
include hx

theorem exists_quotient (mode : Rounding) (negative : Bool) : ∃ n d : ℕ, 0 < d ∧ x = n / d ∧
    mode.magnitude negative x = mode.quotient negative n d := by
  have hnum : ((x.num.toNat : ℕ) : ℚ) = x.num := by
    exact_mod_cast Int.toNat_of_nonneg (Rat.num_nonneg.mpr hx)
  have hquotient : x = (x.num.toNat : ℕ) / (x.den : ℕ) := by rw [hnum, Rat.num_div_den]
  refine ⟨x.num.toNat, x.den, x.den_pos, hquotient, ?_⟩
  rw [quotient_eq _ _ _ x.den_pos, ← hquotient]

theorem magnitude_le (mode : Rounding) (negative : Bool) {k : ℕ} (h : x ≤ k) :
    mode.magnitude negative x ≤ k := by
  obtain ⟨n, d, hd, hvalue, hquotient⟩ := exists_quotient hx mode negative
  rw [hvalue, div_le_iff₀ (by exact_mod_cast hd)] at h
  rw [hquotient]
  exact mode.quotient_le_of_le negative hd (by exact_mod_cast h)

theorem le_magnitude (mode : Rounding) (negative : Bool) {k : ℕ} (h : (k : ℚ) ≤ x) :
    k ≤ mode.magnitude negative x := by
  obtain ⟨n, d, hd, hvalue, hquotient⟩ := exists_quotient hx mode negative
  rw [hvalue, le_div_iff₀ (by exact_mod_cast hd)] at h
  rw [hquotient]
  exact mode.le_quotient_of_le negative hd (by exact_mod_cast h)

end Magnitude

/-! ### Boundaries -/

/-- A boundary of the mode, where rounding may go another way: a half for the modes that round to
the nearest number, and a whole number for the others. -/
def Breaks (mode : Rounding) (b : ℚ) : Prop :=
  match mode with
  | halfDown | halfEven | halfUp => ∃ k : ℤ, b = k + 1 / 2
  | ceiling | down | floor | up | zeroFiveUp => ∃ k : ℤ, b = k

theorem Breaks.neg {mode : Rounding} {b : ℚ} (h : mode.Breaks b) : mode.Breaks (-b) := by
  have hhalf : (∃ k : ℤ, b = k + 1 / 2) → ∃ k : ℤ, -b = k + 1 / 2 := by
    rintro ⟨k, rfl⟩
    refine ⟨-k - 1, ?_⟩
    push_cast
    ring
  have hwhole : (∃ k : ℤ, b = k) → ∃ k : ℤ, -b = k := by
    rintro ⟨k, rfl⟩
    exact ⟨-k, by push_cast; rfl⟩
  cases mode <;> first | exact hhalf h | exact hwhole h

theorem Breaks.half_le {mode : Rounding} {b : ℚ} (h : mode.Breaks b) (hb : 0 < b) : 1 / 2 ≤ b := by
  have hhalf : (∃ k : ℤ, b = k + 1 / 2) → 1 / 2 ≤ b := by
    rintro ⟨k, rfl⟩
    have hk : -1 < k := by
      have : (-1 : ℚ) < k := by linarith
      exact_mod_cast this
    have : (0 : ℚ) ≤ k := by exact_mod_cast Int.add_one_le_iff.mpr hk
    linarith
  have hwhole : (∃ k : ℤ, b = k) → 1 / 2 ≤ b := by
    rintro ⟨k, rfl⟩
    have hk : 0 < k := by exact_mod_cast hb
    have : (1 : ℚ) ≤ k := by exact_mod_cast Int.add_one_le_iff.mpr hk
    linarith
  cases mode <;> first | exact hhalf h | exact hwhole h

section Between

variable {x y : ℚ}

theorem floor_eq_of_between (hx : 0 ≤ x) (hxy : x ≤ y) (h : ∀ k : ℕ, x ≤ k → (k : ℚ) ≤ y → False) :
    ⌊x⌋₊ = ⌊y⌋₊ := by
  refine le_antisymm (Nat.floor_mono hxy) (Nat.le_of_not_lt fun hlt => ?_)
  exact h ⌊y⌋₊ ((Nat.floor_lt hx).mp hlt).le (Nat.floor_le (hx.trans hxy))

theorem ceil_eq_of_between (hxy : x ≤ y) (h : ∀ k : ℕ, x ≤ k → (k : ℚ) ≤ y → False) :
    ⌈x⌉₊ = ⌈y⌉₊ := by
  refine le_antisymm (Nat.ceil_mono hxy) (Nat.le_of_not_lt fun hlt => ?_)
  exact h ⌈x⌉₊ (Nat.le_ceil x) (Nat.lt_ceil.mp hlt).le

/-- A number that is no half has one nearest number. -/
theorem ceil_eq_floor_of_ne_half (hx : 0 ≤ x) (h : ∀ k : ℤ, x ≠ k + 1 / 2) :
    ⌈x - 1 / 2⌉₊ = ⌊x + 1 / 2⌋₊ := by
  have hpos : 0 ≤ x + 1 / 2 := by linarith
  have hne (k : ℤ) : x + 1 / 2 ≠ k + 1 := fun heq => h k (by linarith)
  refine le_antisymm (Nat.ceil_le.mpr ?_) (Nat.le_of_not_lt fun hlt => ?_)
  · have := Nat.lt_floor_add_one (x + 1 / 2)
    linarith
  · have hfloor := (Nat.le_floor_iff hpos).mp (Nat.succ_le_of_lt hlt)
    have hceil := Nat.le_ceil (x - 1 / 2)
    push_cast at hfloor
    exact hne ⌈x - 1 / 2⌉₊ (by push_cast; linarith)

theorem magnitude_eq_of_between (mode : Rounding) (negative : Bool) (hx : 0 ≤ x) (hxy : x ≤ y)
    (h : ∀ b, x ≤ b → b ≤ y → ¬mode.Breaks b) :
    mode.magnitude negative x = mode.magnitude negative y := by
  have hwhole (hbreaks : ∀ k : ℕ, mode.Breaks k) : ⌊x⌋₊ = ⌊y⌋₊ ∧ ⌈x⌉₊ = ⌈y⌉₊ :=
    ⟨floor_eq_of_between hx hxy fun k hxk hky => h k hxk hky (hbreaks k),
      ceil_eq_of_between hxy fun k hxk hky => h k hxk hky (hbreaks k)⟩
  have hhalf (hbreaks : ∀ k : ℤ, mode.Breaks (k + 1 / 2)) :
      ⌈x - 1 / 2⌉₊ = ⌊x + 1 / 2⌋₊ ∧ ⌈y - 1 / 2⌉₊ = ⌊y + 1 / 2⌋₊ ∧ ⌊x + 1 / 2⌋₊ = ⌊y + 1 / 2⌋₊ := by
    refine ⟨ceil_eq_floor_of_ne_half hx fun k heq => ?_,
      ceil_eq_floor_of_ne_half (hx.trans hxy) fun k heq => ?_,
      floor_eq_of_between (by linarith) (by linarith) fun k hxk hky => ?_⟩
    · exact h _ heq.le (heq ▸ hxy) (hbreaks k)
    · exact h _ (heq ▸ hxy) heq.ge (hbreaks k)
    · have hbreak := hbreaks (k - 1)
      push_cast at hbreak
      exact h _ (by linarith) (by linarith) hbreak
  cases mode with
  | halfDown | halfEven | halfUp =>
    obtain ⟨hx', hy', hxy'⟩ := hhalf fun k => ⟨k, rfl⟩
    simp only [magnitude, hx', hy', hxy', ite_self]
  | _ =>
    obtain ⟨hfloor, hceil⟩ := hwhole fun k => ⟨k, by push_cast; rfl⟩
    simp only [magnitude, hfloor, hceil]

/-- A magnitude below a half is rounded like any other. -/
theorem magnitude_eq_of_lt_half (mode : Rounding) (negative : Bool) (hx : 0 < x) (hxy : x ≤ y)
    (hy : y < 1 / 2) : mode.magnitude negative x = mode.magnitude negative y :=
  mode.magnitude_eq_of_between negative hx.le hxy fun _ hxb hby hbreak =>
    absurd (hbreak.half_le (hx.trans_le hxb)) (hby.trans_lt hy).not_ge

/-- The nearest whole number is no more than a half away. -/
theorem abs_magnitude_halfEven_sub_le (negative : Bool) (hx : 0 ≤ x) :
    |(halfEven.magnitude negative x : ℚ) - x| ≤ 1 / 2 := by
  have hpos : 0 ≤ x + 1 / 2 := by linarith
  unfold magnitude
  rw [abs_le]
  dsimp only
  split
  · have hle := Nat.le_ceil (x - 1 / 2)
    refine ⟨by linarith, ?_⟩
    rcases lt_or_ge x (1 / 2) with hlt | hge
    · rw [Nat.ceil_eq_zero.mpr (by linarith)]
      push_cast
      linarith
    · have := Nat.ceil_lt_add_one (sub_nonneg.mpr hge)
      linarith
  · have hlt := Nat.lt_floor_add_one (x + 1 / 2)
    have hle := Nat.floor_le hpos
    constructor <;> linarith

end Between

/-! ### Rounding a number -/

/-- The whole number that a number is rounded to. -/
def whole (mode : Rounding) (x : ℚ) : ℤ :=
  if x < 0 then -mode.magnitude true (-x) else mode.magnitude false x

/-- A number rounded to a multiple of a unit. -/
def toMultiple (mode : Rounding) (unit x : ℚ) : ℚ := mode.whole (x / unit) * unit

variable {mode : Rounding} {x y : ℚ}

theorem whole_eq_of_le (hxy : x ≤ y) (h : ∀ b, x ≤ b → b ≤ y → ¬mode.Breaks b) :
    mode.whole x = mode.whole y := by
  have hneg : ∀ b, -y ≤ b → b ≤ -x → ¬mode.Breaks b := fun b hyb hbx hbreak =>
    h (-b) (by linarith) (by linarith) hbreak.neg
  unfold whole
  rcases lt_or_ge y 0 with hy | hy
  · rw [if_pos (hxy.trans_lt hy), if_pos hy,
      mode.magnitude_eq_of_between true (neg_nonneg.mpr hy.le) (neg_le_neg hxy) hneg]
  · rcases lt_or_ge x 0 with hx | hx
    · -- zero lies between the two, and both are rounded as it is
      have hbelow := mode.magnitude_eq_of_between true le_rfl (neg_nonneg.mpr hx.le)
        fun b hb hbx => hneg b (by linarith) hbx
      have habove := mode.magnitude_eq_of_between false le_rfl hy
        fun b hb hby => h b (by linarith) hby
      have hzero (negative : Bool) : mode.magnitude negative 0 = 0 := by
        exact_mod_cast mode.magnitude_natCast negative 0
      rw [if_pos hx, if_neg hy.not_gt, ← hbelow, ← habove, hzero, hzero]
      rfl
    · rw [if_neg hx.not_gt, if_neg hy.not_gt, mode.magnitude_eq_of_between false hx hxy h]

/-- **Numbers without a boundary between them are rounded alike.** -/
theorem whole_eq_of_between (h : ∀ b ∈ Set.uIcc x y, ¬mode.Breaks b) :
    mode.whole x = mode.whole y := by
  rcases le_total x y with hxy | hyx
  · exact whole_eq_of_le hxy fun b hxb hby => h b (Set.mem_uIcc.mpr (.inl ⟨hxb, hby⟩))
  · exact (whole_eq_of_le hyx fun b hyb hbx => h b (Set.mem_uIcc.mpr (.inr ⟨hyb, hbx⟩))).symm

/-- No boundary lies within the tolerance of a number that is rounded to a multiple of a unit. -/
def Clear (mode : Rounding) (unit tolerance x : ℚ) : Prop :=
  ∀ b, mode.Breaks b → tolerance < |x - b * unit|

/-- Whatever lies within the tolerance is rounded alike. -/
theorem Clear.toMultiple_eq {unit tolerance : ℚ} (h : mode.Clear unit tolerance x)
    (hunit : 0 < unit) (hy : |y - x| ≤ tolerance) :
    mode.toMultiple unit y = mode.toMultiple unit x := by
  unfold toMultiple
  refine congrArg (fun n : ℤ => (n : ℚ) * unit) (whole_eq_of_between fun b hb hbreak => ?_)
  have hnear : |x / unit - b| ≤ |x / unit - y / unit| := Set.abs_sub_right_of_mem_uIcc hb
  have hscaled : |x - b * unit| ≤ |x - y| := by
    have hscale {a c : ℚ} : |a / unit - c| * unit = |a - c * unit| := by
      rw [← abs_of_pos hunit, ← abs_mul, sub_mul, abs_of_pos hunit, div_mul_cancel₀ _ hunit.ne']
    have hmul := mul_le_mul_of_nonneg_right hnear hunit.le
    rwa [hscale, hscale, div_mul_cancel₀ _ hunit.ne'] at hmul
  have hclear := h b hbreak
  rw [abs_sub_comm x y] at hscaled
  linarith

theorem whole_le {k : ℤ} (h : x ≤ k) : mode.whole x ≤ k := by
  unfold whole
  split
  · rename_i hx
    rcases le_total 0 k with hk | hk
    · omega
    · obtain ⟨m, rfl⟩ : ∃ m : ℕ, k = -m := ⟨(-k).toNat, by omega⟩
      push_cast at h
      have hbound := le_magnitude (neg_nonneg.mpr hx.le) mode true (k := m) (by linarith)
      omega
  · rename_i hx
    have hx' := not_lt.mp hx
    obtain ⟨m, rfl⟩ : ∃ m : ℕ, k = m :=
      Int.eq_ofNat_of_zero_le (by exact_mod_cast hx'.trans h)
    exact_mod_cast magnitude_le hx' mode false h

theorem le_whole {k : ℤ} (h : (k : ℚ) ≤ x) : k ≤ mode.whole x := by
  unfold whole
  split
  · rename_i hx
    have hk : k ≤ 0 := by exact_mod_cast h.trans hx.le
    obtain ⟨m, rfl⟩ : ∃ m : ℕ, k = -m := ⟨(-k).toNat, by omega⟩
    push_cast at h
    have hbound := magnitude_le (neg_nonneg.mpr hx.le) mode true (k := m) (by linarith)
    omega
  · rename_i hx
    rcases le_total k 0 with hk | hk
    · omega
    · obtain ⟨m, rfl⟩ := Int.eq_ofNat_of_zero_le hk
      exact_mod_cast le_magnitude (not_lt.mp hx) mode false (by exact_mod_cast h)

/-- **Rounding passes no multiple of the unit**, in any mode. -/
theorem toMultiple_mem_uIcc {unit : ℚ} (hunit : 0 < unit) {j k : ℤ}
    (h : x ∈ Set.uIcc (j * unit) (k * unit)) :
    mode.toMultiple unit x ∈ Set.uIcc (j * unit) (k * unit) := by
  have hlow {j : ℤ} (h : j * unit ≤ x) : j * unit ≤ mode.toMultiple unit x :=
    mul_le_mul_of_nonneg_right (by exact_mod_cast le_whole ((le_div_iff₀ hunit).mpr h)) hunit.le
  have hhigh {k : ℤ} (h : x ≤ k * unit) : mode.toMultiple unit x ≤ k * unit :=
    mul_le_mul_of_nonneg_right (by exact_mod_cast whole_le ((div_le_iff₀ hunit).mpr h)) hunit.le
  rw [Set.mem_uIcc] at h ⊢
  exact h.imp (fun h => ⟨hlow h.1, hhigh h.2⟩) fun h => ⟨hlow h.1, hhigh h.2⟩

/-- The nearest multiple of a unit is no more than half a unit away. -/
theorem abs_toMultiple_halfEven_sub_le {unit : ℚ} (hunit : 0 < unit) :
    |halfEven.toMultiple unit x - x| ≤ unit / 2 := by
  have hwhole (y : ℚ) : |(halfEven.whole y : ℚ) - y| ≤ 1 / 2 := by
    unfold whole
    split
    · rename_i hy
      have hnear := abs_magnitude_halfEven_sub_le true (neg_nonneg.mpr hy.le)
      rw [← abs_neg] at hnear
      push_cast
      rwa [neg_sub', neg_neg] at hnear
    · rename_i hy
      exact_mod_cast abs_magnitude_halfEven_sub_le false (not_lt.mp hy)
  have hscaled := mul_le_mul_of_nonneg_right (hwhole (x / unit)) hunit.le
  rw [← abs_of_pos hunit, ← abs_mul, sub_mul, abs_of_pos hunit, div_mul_cancel₀ _ hunit.ne'] at hscaled
  unfold toMultiple
  linarith

theorem whole_signed (mode : Rounding) (negative : Bool) (hx : 0 < x) :
    mode.whole ((if negative then -1 else 1) * x) =
      (if negative then -1 else 1) * mode.magnitude negative x := by
  unfold whole
  cases negative with
  | false =>
    rw [if_neg Bool.false_ne_true, if_neg Bool.false_ne_true, one_mul, one_mul, if_neg hx.not_gt]
  | true =>
    rw [if_pos rfl, if_pos rfl, neg_one_mul, neg_one_mul, if_pos (neg_lt_zero.mpr hx), neg_neg]

end Rounding

/-! ### Digits -/

namespace Text

@[simp] theorem cast_powerOfTen (n : ℕ) : (powerOfTen n : ℚ) = 10 ^ n := Nat.cast_pow 10 n

theorem lt_powerOfTen_digitCount (n : ℕ) : n < powerOfTen (digitCount n) := by
  induction n using digitCount.induct with
  | case1 n h =>
    rw [digitCount, if_pos h]
    exact h
  | case2 n h ih =>
    rw [digitCount, if_neg h, powerOfTen_succ]
    omega

theorem powerOfTen_digitCount_le {n : ℕ} (h : n ≠ 0) : powerOfTen (digitCount n) ≤ 10 * n := by
  induction n using digitCount.induct with
  | case1 n hlt =>
    have hten : powerOfTen 1 = 10 := rfl
    rw [digitCount, if_pos hlt, hten]
    omega
  | case2 n hge ih =>
    rw [digitCount, if_neg hge, powerOfTen_succ]
    have := ih (by omega)
    omega

theorem digitCount_le {n width : ℕ} (hn : n ≠ 0) (h : n < powerOfTen width) :
    digitCount n ≤ width := by
  have hlow := powerOfTen_digitCount_le hn
  have hlt : 10 ^ digitCount n < 10 ^ (width + 1) :=
    Nat.lt_of_le_of_lt hlow (by rw [Nat.pow_succ', Nat.mul_lt_mul_left (by decide)]; exact h)
  exact Nat.le_of_lt_succ ((Nat.pow_lt_pow_iff_right (by decide)).mp hlt)

end Text

namespace Decimal

/-! ### Quantizing -/

/-- The number without its sign. -/
def size (d : Decimal) : ℚ := d.coefficient * 10 ^ d.exponent

theorem value_eq_size (d : Decimal) : d.value = (if d.negative then -1 else 1) * d.size := by
  rw [value, size, mul_assoc]

theorem abs_value (d : Decimal) : |d.value| = d.size := by
  have hsize : 0 ≤ d.size := by
    unfold size
    positivity
  rw [value_eq_size, abs_mul, abs_of_nonneg hsize]
  cases d.negative <;> simp

theorem size_pos {d : Decimal} (h : ¬d.isZero = true) : 0 < d.size := by
  have hcoefficient : d.coefficient ≠ 0 := by simpa [isZero] using h
  unfold size
  positivity

/-- Scaled to a smaller exponent, a number is whole. -/
theorem size_div_of_le {d : Decimal} {e : ℤ} (he : e ≤ d.exponent) :
    d.size / 10 ^ e = (d.coefficient * powerOfTen (d.exponent - e).toNat : ℕ) := by
  have hsplit : (10 : ℚ) ^ d.exponent = 10 ^ (d.exponent - e).toNat * 10 ^ e := by
    rw [← zpow_natCast, ← zpow_add₀ (by norm_num)]
    congr 1
    omega
  rw [size, hsplit, Nat.cast_mul, cast_powerOfTen, ← mul_assoc, mul_div_cancel_right₀ _ (by positivity)]

/-- Scaled to a larger exponent, a number is a quotient of counts. -/
theorem size_div_of_ge {d : Decimal} {e : ℤ} (he : d.exponent ≤ e) :
    d.size / 10 ^ e = (d.coefficient : ℚ) / powerOfTen (e - d.exponent).toNat := by
  have hsplit : (10 : ℚ) ^ e = 10 ^ (e - d.exponent).toNat * 10 ^ d.exponent := by
    rw [← zpow_natCast, ← zpow_add₀ (by norm_num)]
    congr 1
    omega
  rw [size, hsplit, cast_powerOfTen, mul_div_mul_right _ _ (by positivity)]

theorem roundTo_coefficient (mode : Rounding) {d : Decimal} {e : ℤ} (hd : ¬d.isZero = true)
    (he : d.exponent ≤ e) :
    (d.roundTo mode e).coefficient = mode.magnitude d.negative (d.size / 10 ^ e) := by
  have hpos : (0 : ℚ) < d.coefficient := by
    have hcoefficient : d.coefficient ≠ 0 := by simpa [isZero] using hd
    positivity
  have hdigits : (d.coefficient : ℚ) < 10 ^ d.digits := by
    exact_mod_cast lt_powerOfTen_digitCount d.coefficient
  rw [size_div_of_ge he]
  show mode.quotient d.negative d.coefficient
    (powerOfTen (min (e - d.exponent).toNat (d.digits + 1))) = _
  rw [mode.quotient_eq d.negative _ (powerOfTen_pos _), cast_powerOfTen, cast_powerOfTen]
  rcases Nat.le_total (e - d.exponent).toNat (d.digits + 1) with hle | hge
  · rw [Nat.min_eq_left hle]
  · -- both quotients are a first digit after the point, or less
    rw [Nat.min_eq_right hge]
    have hgrow : (10 : ℚ) ^ (d.digits + 1) ≤ 10 ^ (e - d.exponent).toNat :=
      pow_le_pow_right₀ (by norm_num) hge
    refine (mode.magnitude_eq_of_lt_half d.negative (by positivity) ?_ ?_).symm
    · exact div_le_div_of_nonneg_left hpos.le (by positivity) hgrow
    · rw [div_lt_iff₀ (by positivity), pow_succ]
      linarith

theorem value_of_magnitude {mode : Rounding} {d r : Decimal} (hd : ¬d.isZero = true)
    (hnegative : r.negative = d.negative)
    (hcoefficient : r.coefficient = mode.magnitude d.negative (d.size / 10 ^ r.exponent)) :
    r.value = mode.toMultiple (10 ^ r.exponent) d.value := by
  have hsize : 0 < d.size / 10 ^ r.exponent := div_pos (size_pos hd) (by positivity)
  rw [Rounding.toMultiple, value_eq_size d, mul_div_assoc, Rounding.whole_signed mode _ hsize, value,
    hnegative, hcoefficient]
  cases d.negative <;> push_cast <;> rfl

/-- **Quantizing rounds to a multiple of the last place, in any mode.** -/
theorem quantize_value {mode : Rounding} {e : ℤ} {d r : Decimal} (h : d.quantize mode e = .ok r) :
    r.value = mode.toMultiple (10 ^ e) d.value ∧ r.exponent = e := by
  unfold quantize at h
  split at h
  · rename_i hzero
    cases h
    have hwhole : mode.whole 0 = 0 := by
      have hmagnitude := mode.magnitude_natCast false 0
      rw [Rounding.whole, if_neg (lt_irrefl _)]
      exact_mod_cast hmagnitude
    rw [value_of_isZero hzero, Rounding.toMultiple, zero_div, hwhole, Int.cast_zero, zero_mul]
    exact ⟨value_of_isZero hzero, rfl⟩
  · rename_i hzero
    split at h
    · cases h
    · simp only at h
      split at h <;> split at h
      · cases h
      · rename_i he _
        cases h
        refine ⟨value_of_magnitude hzero rfl ?_, rfl⟩
        rw [size_div_of_le he, Rounding.magnitude_natCast]
      · cases h
      · rename_i he _
        cases h
        exact ⟨value_of_magnitude hzero rfl (roundTo_coefficient mode hzero (by omega)), rfl⟩

end Decimal

end BillRun
