import BillRun.Proofs.Precision
import BillRun.Proofs.Running
import Mathlib.Algebra.Order.BigOperators.Group.List

/-! When the totals of an invoice are exact.

A total is added up item by item, and every sum on the way is rounded to 28 digits. Where all
amounts are multiples of one power of ten, so are the sums, and a multiple with no more than 28
digits above that power is kept as it is (`Decimal.finish_exact`). The magnitudes of the amounts
bound every sum on the way, in whatever order they come (`Decimal.foldlM_add_exact`). What is
charged less what is credited is then the total (`Invoice.addsUpTo_added`). The powers of ten that
an amount may have set the only limit: beyond them amounts vanish or cannot be added
(`vanishing_amount`). -/
namespace BillRun

open Calendar

/-! ### Numbers of so many places -/

/-- The number is a multiple of `10 ^ -places`. -/
def HasPlaces (places : ℤ) (x : ℚ) : Prop := ∃ k : ℤ, x = k * 10 ^ (-places)

namespace HasPlaces

variable {places : ℤ} {x y : ℚ}

theorem zero (places : ℤ) : HasPlaces places 0 := ⟨0, by simp⟩

theorem add (hx : HasPlaces places x) (hy : HasPlaces places y) : HasPlaces places (x + y) := by
  obtain ⟨j, rfl⟩ := hx
  obtain ⟨k, rfl⟩ := hy
  exact ⟨j + k, by push_cast; ring⟩

theorem neg (hx : HasPlaces places x) : HasPlaces places (-x) := by
  obtain ⟨k, rfl⟩ := hx
  exact ⟨-k, by push_cast; ring⟩

/-- A multiple of a power of ten is one of every lower power. -/
theorem exists_multiple (hx : HasPlaces places x) {e : ℤ} (he : e ≤ -places) :
    ∃ k : ℤ, x = k * 10 ^ e := by
  obtain ⟨k, rfl⟩ := hx
  obtain ⟨n, hn⟩ := Int.le.dest he
  refine ⟨k * 10 ^ n, ?_⟩
  rw [← hn, zpow_add₀ (by norm_num), zpow_natCast]
  push_cast
  ring

/-- Other than zero, such a number is no smaller than its unit. -/
theorem le_abs (hx : HasPlaces places x) (h : x ≠ 0) : 10 ^ (-places) ≤ |x| := by
  obtain ⟨k, rfl⟩ := hx
  have hk : k ≠ 0 := by
    rintro rfl
    simp at h
  have hone : (1 : ℚ) ≤ |(k : ℚ)| := by exact_mod_cast Int.one_le_abs hk
  rw [abs_mul, abs_of_pos (show (0 : ℚ) < 10 ^ (-places) by positivity)]
  exact le_mul_of_one_le_left (by positivity) hone

end HasPlaces

namespace Decimal

theorem isZero_iff {d : Decimal} : d.isZero = true ↔ d.value = 0 := by
  constructor
  · exact value_of_isZero
  · intro h
    by_contra hzero
    have hsize := size_pos hzero
    rw [← abs_value, h, abs_zero] at hsize
    exact lt_irrefl _ hsize

theorem isPositive_iff {d : Decimal} : d.isPositive = true ↔ 0 < d.value := by
  by_cases hzero : d.isZero = true
  · simp [isPositive, hzero, value_of_isZero hzero]
  · have hsize := size_pos hzero
    rw [value_eq_size]
    cases hnegative : d.negative <;> simp [isPositive, hnegative, hzero, hsize, hsize.le]

theorem isNegative_iff {d : Decimal} : d.isNegative = true ↔ d.value < 0 := by
  by_cases hzero : d.isZero = true
  · simp [isNegative, hzero, value_of_isZero hzero]
  · have hsize := size_pos hzero
    rw [value_eq_size]
    cases hnegative : d.negative <;> simp [isNegative, hnegative, hzero, hsize, hsize.le]

/-! ### Values of sums -/

theorem unitsAt_value {d : Decimal} {e : ℤ} (he : e ≤ d.exponent) :
    (d.unitsAt e : ℚ) * 10 ^ e = d.value := by
  unfold unitsAt
  split
  · rename_i hzero
    rw [value_of_isZero hzero]
    simp
  · have hscaled := size_div_of_le he
    rw [div_eq_iff (by positivity)] at hscaled
    rw [value_eq_size, hscaled]
    cases d.negative <;> simp

theorem signed_natAbs (n : ℤ) (zeroSign : Bool) :
    (if (if n = 0 then zeroSign else decide (n < 0)) = true then (-1 : ℚ) else 1) * n.natAbs = n := by
  rcases lt_trichotomy n 0 with hneg | rfl | hpos
  · simp [hneg, hneg.ne, abs_of_neg]
  · simp
  · simp [hpos.ne', hpos.not_gt, abs_of_pos hpos]

theorem plus_value (a b : Decimal) : (a.plus b).value = a.value + b.value := by
  rw [← unitsAt_value (d := a) (min_le_left a.exponent b.exponent),
    ← unitsAt_value (d := b) (min_le_right a.exponent b.exponent), ← add_mul, ← Int.cast_add,
    ← signed_natAbs _ (a.negative && b.negative)]
  rfl

/-! ### Leading digits -/

theorem adjusted_lt {d : Decimal} (hd : ¬d.isZero = true) {n : ℤ} (h : |d.value| < 10 ^ n) :
    d.adjusted < n := by
  rw [abs_value] at h
  have hfirst : (10 : ℚ) ^ (d.exponent + d.digits) < 10 ^ (n + 1) := by
    rw [zpow_add_one₀ (by norm_num)]
    linarith [le_size hd]
  have := (zpow_lt_zpow_iff_right₀ (by norm_num)).mp hfirst
  unfold adjusted
  omega

theorem le_adjusted {d : Decimal} {n : ℤ} (h : 10 ^ n ≤ |d.value|) : n ≤ d.adjusted := by
  rw [abs_value] at h
  have hfirst := (zpow_lt_zpow_iff_right₀ (by norm_num)).mp (h.trans_lt d.size_lt)
  unfold adjusted
  omega

/-! ### Exact steps -/

variable {places : ℤ}

/-- An operand that is no less than the unit of another is not moved. -/
theorem near_value {a b : Decimal} (ha : |a.value| < 10 ^ (28 - places))
    (hb : HasPlaces places b.value) : (a.near b).value = b.value := by
  unfold near
  split
  · rfl
  · rename_i hazero
    split
    · rename_i hbzero
      rw [value_of_isZero hbzero]
      exact value_of_isZero hbzero
    · rename_i hbzero
      have hfirst := adjusted_lt hazero ha
      have hleast := le_adjusted (hb.le_abs (mt isZero_iff.mpr hbzero))
      have hreach : ¬b.adjusted < a.exponent + min (-1) ((a.digits : ℤ) - (precision + 2)) := by
        unfold precision
        unfold adjusted at hfirst hleast ⊢
        omega
      simp only [hreach, and_false, if_false]

section
variable (hleast : -999972 ≤ places) (hmost : places ≤ 1000026)
include hleast hmost

/-- A multiple of a power of ten that has 28 digits above it at most is kept as it is. -/
theorem finish_exact {d : Decimal} (hplaces : HasPlaces places d.value)
    (hsmall : |d.value| < 10 ^ (28 - places)) : ∃ r, d.finish = .ok r ∧ r.value = d.value := by
  by_cases hzero : d.isZero = true
  · exact ⟨_, if_pos hzero, (value_of_isZero hzero).symm ▸ value_of_isZero hzero⟩
  · have hfirst := adjusted_lt hzero hsmall
    have hlast : d.lastPlace ≤ -places := by
      unfold lastPlace precision minExponent
      unfold adjusted at hfirst
      omega
    have hkept : d.kept.value = d.value := by
      rw [kept_value hzero]
      split
      · obtain ⟨k, hk⟩ := hplaces.exists_multiple hlast
        have hplace : (0 : ℚ) < 10 ^ d.lastPlace := by positivity
        have hmem : Rounding.halfEven.toMultiple (10 ^ d.lastPlace) d.value ∈
            Set.uIcc (k * 10 ^ d.lastPlace : ℚ) (k * 10 ^ d.lastPlace) :=
          Rounding.toMultiple_mem_uIcc hplace (by rw [← hk]; simp)
        rw [← hk, Set.uIcc_self] at hmem
        exact hmem
      · rfl
    have hkeptzero : ¬d.kept.isZero = true := by
      rwa [isZero_iff, hkept, ← isZero_iff]
    have hrange : d.kept.adjusted ≤ maxExponent := by
      have := adjusted_lt hkeptzero (by rwa [hkept])
      unfold maxExponent
      omega
    exact ⟨d.kept, by rw [finish_of_not_isZero hzero, if_neg (Int.not_lt.mpr hrange)], hkept⟩

/-- **A sum is exact** when the magnitudes of both numbers together stay below 28 digits. -/
theorem add_exact {a b : Decimal} (ha : HasPlaces places a.value) (hb : HasPlaces places b.value)
    (hsmall : |a.value| + |b.value| < 10 ^ (28 - places)) :
    ∃ r, a.add b = .ok r ∧ r.value = a.value + b.value := by
  have hvalue : (plus (near b a) (near a b)).value = a.value + b.value := by
    rw [plus_value, near_value (by linarith [abs_nonneg a.value]) ha,
      near_value (by linarith [abs_nonneg b.value]) hb]
  rw [← hvalue]
  exact finish_exact hleast hmost (by rw [hvalue]; exact ha.add hb)
    (by rw [hvalue]; exact (abs_add_le _ _).trans_lt hsmall)

theorem neg_exact {d : Decimal} (hd : HasPlaces places d.value)
    (hsmall : |d.value| < 10 ^ (28 - places)) : ∃ r, d.neg = .ok r ∧ r.value = -d.value := by
  rw [← opposite_value, neg_eq]
  exact finish_exact hleast hmost (by rw [opposite_value]; exact hd.neg)
    (by rwa [opposite_value, abs_neg])

/-- **A sum of many is exact** when all their magnitudes together stay below 28 digits: they bound
every sum on the way. -/
theorem foldlM_add_exact {ds : List Decimal} {start : Decimal}
    (hstart : HasPlaces places start.value) (hds : ∀ d ∈ ds, HasPlaces places d.value)
    (hsmall : |start.value| + (ds.map fun d => |d.value|).sum < 10 ^ (28 - places)) :
    ∃ r, ds.foldlM add start = .ok r ∧ r.value = start.value + (ds.map value).sum := by
  induction ds generalizing start with
  | nil => exact ⟨start, rfl, by simp⟩
  | cons d ds ih =>
    rw [List.map_cons, List.sum_cons] at hsmall
    have hrest : 0 ≤ (ds.map fun d => |d.value|).sum :=
      List.sum_nonneg (by simp [abs_nonneg])
    obtain ⟨next, hnext, hvalue⟩ :=
      add_exact hleast hmost hstart (hds d List.mem_cons_self) (by linarith)
    have hgrown : |next.value| ≤ |start.value| + |d.value| := by
      rw [hvalue]
      exact abs_add_le _ _
    have hnextplaces : HasPlaces places next.value := by
      rw [hvalue]
      exact hstart.add (hds d List.mem_cons_self)
    obtain ⟨r, hr, hsum⟩ :=
      ih hnextplaces (fun d' hd' => hds d' (List.mem_cons_of_mem d hd')) (by linarith)
    refine ⟨r, by rw [List.foldlM_cons, hnext, ok_bind, hr], ?_⟩
    rw [hsum, hvalue, List.map_cons, List.sum_cons, add_assoc]

theorem total_exact {ds : List Decimal} (hds : ∀ d ∈ ds, HasPlaces places d.value)
    (hsmall : (ds.map fun d => |d.value|).sum < 10 ^ (28 - places)) :
    ∃ r, Decimal.total ds = .ok r ∧ r.value = (ds.map value).sum := by
  have hzero : zero.value = 0 := value_of_isZero rfl
  have hstart : HasPlaces places zero.value := by
    rw [hzero]
    exact .zero places
  have hsum := foldlM_add_exact hleast hmost hstart hds (by rwa [hzero, abs_zero, zero_add])
  rwa [hzero, zero_add] at hsum

theorem mapM_neg_exact {ds : List Decimal} (hds : ∀ d ∈ ds, HasPlaces places d.value)
    (hsmall : (ds.map fun d => |d.value|).sum < 10 ^ (28 - places)) :
    ∃ opposites, ds.mapM neg = .ok opposites ∧
      opposites.map value = ds.map fun d => -d.value := by
  induction ds with
  | nil => exact ⟨[], rfl, rfl⟩
  | cons d ds ih =>
    rw [List.map_cons, List.sum_cons] at hsmall
    have hrest : 0 ≤ (ds.map fun d => |d.value|).sum :=
      List.sum_nonneg (by simp [abs_nonneg])
    obtain ⟨first, hfirst, hvalue⟩ :=
      neg_exact hleast hmost (hds d List.mem_cons_self) (by linarith)
    obtain ⟨rest, hmapped, hvalues⟩ :=
      ih (fun d' hd' => hds d' (List.mem_cons_of_mem d hd')) (by linarith [abs_nonneg d.value])
    refine ⟨first :: rest, ?_, by rw [List.map_cons, List.map_cons, hvalue, hvalues]⟩
    rw [List.mapM_cons, hfirst, ok_bind, hmapped, ok_bind, pure_eq_ok]

/-- Opposites are summed exactly as well. -/
theorem total_neg_exact {ds : List Decimal} (hds : ∀ d ∈ ds, HasPlaces places d.value)
    (hsmall : (ds.map fun d => |d.value|).sum < 10 ^ (28 - places)) :
    ∃ r, (ds.mapM neg >>= Decimal.total) = .ok r ∧ r.value = (ds.map fun d => -d.value).sum := by
  obtain ⟨opposites, hopposites, hvalues⟩ := mapM_neg_exact hleast hmost hds hsmall
  have hmagnitudes : opposites.map (fun d => |d.value|) = ds.map fun d => |d.value| := by
    have habs := congrArg (List.map abs) hvalues
    simpa [List.map_map, Function.comp_def] using habs
  have hopposed : ∀ d ∈ opposites, HasPlaces places d.value := by
    intro d hd
    have hmem : d.value ∈ ds.map fun d => -d.value := hvalues ▸ List.mem_map_of_mem hd
    obtain ⟨d', hd', heq⟩ := List.mem_map.mp hmem
    exact heq ▸ (hds d' hd').neg
  rw [hopposites, ok_bind, ← hvalues]
  exact total_exact hleast hmost hopposed (by rwa [hmagnitudes])

end

/-! ### Amounts by sign -/

theorem filter_map_value {p : ℚ → Prop} [DecidablePred p] {q : Decimal → Bool}
    (h : ∀ d : Decimal, q d = true ↔ p d.value) (ds : List Decimal) :
    (ds.map value).filter (p ·) = (ds.filter q).map value := by
  rw [List.filter_map]
  refine congrArg _ (List.filter_congr fun d _ => ?_)
  rw [Bool.eq_iff_iff, h, Function.comp_apply, decide_eq_true_eq]

end Decimal

/-! ### Totals -/

/-- The numbers that the amounts of some items stand for. -/
def exactAmounts (items : List Item) : List ℚ := items.map (·.charge.amount.value)

/-- All numbers together are the positive ones less the negative ones without their sign. -/
theorem sum_eq_sub (xs : List ℚ) :
    xs.sum = (xs.filter (0 < ·)).sum - ((xs.filter (· < 0)).map (-·)).sum := by
  induction xs with
  | nil => simp
  | cons x xs ih =>
    rcases lt_trichotomy x 0 with hneg | rfl | hpos
    · simp only [List.sum_cons, List.filter_cons, hneg, hneg.not_gt, decide_true, decide_false,
        Bool.false_eq_true, if_true, if_false, List.map_cons, ih]
      ring
    · simp [ih]
    · simp [hpos, hpos.not_gt, ih, add_sub_assoc]

namespace Invoice

/-- The totals of the invoice can be had, and what they come to. -/
structure AddsUpTo (v : Invoice) (total charged credited : ℚ) : Prop where
  total : ∃ d, v.total = .ok d ∧ d.value = total
  charged : ∃ d, v.charged = .ok d ∧ d.value = charged
  credited : ∃ d, v.credited = .ok d ∧ d.value = credited

theorem items_foldl_add (v : Invoice) (batches : List (List Item)) :
    (batches.foldl add v).items = v.items ++ batches.flatten := by
  induction batches generalizing v with
  | nil => simp
  | cons items batches ih =>
    rw [List.foldl_cons, ih, List.flatten_cons, ← List.append_assoc]
    rfl

variable {places : ℤ}

/-- The totals of an invoice are the exact sums while all magnitudes together stay below 28
digits. -/
theorem addsUpTo_exact {v : Invoice} (hleast : -999972 ≤ places) (hmost : places ≤ 1000026)
    (hplaces : ∀ x ∈ exactAmounts v.items, HasPlaces places x)
    (hsmall : ((exactAmounts v.items).map abs).sum < 10 ^ (28 - places)) :
    v.AddsUpTo (exactAmounts v.items).sum ((exactAmounts v.items).filter (0 < ·)).sum
      (((exactAmounts v.items).filter (· < 0)).map (-·)).sum := by
  have hvalues : exactAmounts v.items = v.amounts.map Decimal.value := by
    rw [amounts, List.map_map]
    rfl
  rw [hvalues] at hplaces hsmall ⊢
  rw [List.map_map] at hsmall
  -- whatever is summed is part of the amounts
  have hpart {ds : List Decimal} (h : ds.Sublist v.amounts) :
      (∀ d ∈ ds, HasPlaces places d.value) ∧
        (ds.map fun d => |d.value|).sum < 10 ^ (28 - places) := by
    refine ⟨fun d hd => hplaces _ (List.mem_map_of_mem (h.subset hd)), ?_⟩
    exact ((h.map _).sum_le_sum (by simp)).trans_lt hsmall
  obtain ⟨hall, hallsmall⟩ := hpart (List.Sublist.refl _)
  obtain ⟨hpos, hpossmall⟩ := hpart (List.filter_sublist (p := Decimal.isPositive))
  obtain ⟨hneg, hnegsmall⟩ := hpart (List.filter_sublist (p := Decimal.isNegative))
  rw [Decimal.filter_map_value fun d => Decimal.isPositive_iff,
    Decimal.filter_map_value fun d => Decimal.isNegative_iff, List.map_map]
  exact ⟨Decimal.total_exact hleast hmost hall hallsmall,
    Decimal.total_exact hleast hmost hpos hpossmall,
    Decimal.total_neg_exact hleast hmost hneg hnegsmall⟩

/-- **The totals of an invoice reconcile.** Whatever is added to it in whatever steps: when all
amounts are multiples of one power of ten and their magnitudes together have no more than 28 digits
above it, the totals are the exact sums of all amounts, of the positive ones and of the negative
ones without their sign. The first is the second less the third, neither of these is negative, and
all three are the same in whatever order and steps the items were added. -/
theorem addsUpTo_added {v : Invoice} {batches : List (List Item)} (hleast : -999972 ≤ places)
    (hmost : places ≤ 1000026)
    (hplaces : ∀ x ∈ exactAmounts (v.items ++ batches.flatten), HasPlaces places x)
    (hsmall : ((exactAmounts (v.items ++ batches.flatten)).map abs).sum < 10 ^ (28 - places)) :
    ∃ total charged credited : ℚ, (batches.foldl add v).AddsUpTo total charged credited ∧
      total = (exactAmounts (v.items ++ batches.flatten)).sum ∧
      charged = ((exactAmounts (v.items ++ batches.flatten)).filter (0 < ·)).sum ∧
      credited = (((exactAmounts (v.items ++ batches.flatten)).filter (· < 0)).map (-·)).sum ∧
      total = charged - credited ∧ 0 ≤ charged ∧ 0 ≤ credited ∧
      ∀ (w : Invoice) (batches' : List (List Item)),
        (w.items ++ batches'.flatten).Perm (v.items ++ batches.flatten) →
          (batches'.foldl add w).AddsUpTo total charged credited := by
  -- one set of exact sums for every order
  have hany (w : Invoice) (batches' : List (List Item))
      (hperm : (w.items ++ batches'.flatten).Perm (v.items ++ batches.flatten)) :
      (batches'.foldl add w).AddsUpTo (exactAmounts (v.items ++ batches.flatten)).sum
        ((exactAmounts (v.items ++ batches.flatten)).filter (0 < ·)).sum
        (((exactAmounts (v.items ++ batches.flatten)).filter (· < 0)).map (-·)).sum := by
    rw [← items_foldl_add w] at hperm
    have hamounts : (exactAmounts (batches'.foldl add w).items).Perm
        (exactAmounts (v.items ++ batches.flatten)) := hperm.map _
    have hexact := addsUpTo_exact (v := batches'.foldl add w) hleast hmost
      (fun x hx => hplaces x (hamounts.mem_iff.mp hx)) (by rwa [(hamounts.map abs).sum_eq])
    rwa [hamounts.sum_eq, (hamounts.filter _).sum_eq, ((hamounts.filter _).map _).sum_eq] at hexact
  refine ⟨_, _, _, hany v batches (List.Perm.refl _), rfl, rfl, rfl, sum_eq_sub _, ?_, ?_, hany⟩
  · refine List.sum_nonneg fun x hx => ?_
    exact (of_decide_eq_true (List.mem_filter.mp hx).2).le
  · refine List.sum_nonneg fun x hx => ?_
    obtain ⟨y, hy, rfl⟩ := List.mem_map.mp hx
    exact neg_nonneg.mpr (of_decide_eq_true (List.mem_filter.mp hy).2).le

end Invoice

namespace Sample

/-- The credit of the correction. -/
def credit : List Item := correction.items.drop 3

theorem exactAmounts_credited :
    exactAmounts (opening.items ++ [credit].flatten) = [5, 2129 / 100, 30, -25] := by
  norm_num [exactAmounts, opening, correction, credit, charge, event, Event.charge, Charge.issue,
    Decimal.value, hundredths]

/-- An invoice with one charge of some amount. -/
def invoiceOf (amount : Decimal) : Invoice :=
  { opening with items := [(charge (day 1 1) none amount .fixed).issue (uuid 12) (uuid 10) (day 1 5)] }

theorem exactAmounts_invoiceOf (amount : Decimal) :
    exactAmounts (invoiceOf amount).items = [amount.value] := rfl

end Sample

open Sample in
/-- Three charges and a credit that is added after them. -/
theorem addsUpTo_added_credit :
    ((∀ x ∈ exactAmounts (opening.items ++ [credit].flatten), HasPlaces 2 x) ∧
      ((exactAmounts (opening.items ++ [credit].flatten)).map abs).sum < 10 ^ (28 - 2 : ℤ)) ∧
      ([credit].foldl Invoice.add opening).AddsUpTo (3129 / 100) (5629 / 100) 25 := by
  have hplaces : ∀ x ∈ exactAmounts (opening.items ++ [credit].flatten), HasPlaces 2 x := by
    rw [exactAmounts_credited]
    simp only [List.forall_mem_cons, List.not_mem_nil, false_imp_iff, implies_true, and_true]
    exact ⟨⟨500, by norm_num⟩, ⟨2129, by norm_num⟩, ⟨3000, by norm_num⟩, ⟨-2500, by norm_num⟩⟩
  have hsmall :
      ((exactAmounts (opening.items ++ [credit].flatten)).map abs).sum < 10 ^ (28 - 2 : ℤ) := by
    rw [exactAmounts_credited]
    norm_num [abs_of_pos, abs_of_neg]
  obtain ⟨total, charged, credited, hadds, htotal, hcharged, hcredited, -⟩ :=
    Invoice.addsUpTo_added (by decide) (by decide) hplaces hsmall
  rw [exactAmounts_credited] at htotal hcharged hcredited
  norm_num [List.filter] at htotal hcharged hcredited
  exact ⟨⟨hplaces, hsmall⟩, by rwa [htotal, hcharged, hcredited] at hadds⟩

open Sample in
/-- A digit one place below the last that sums have vanishes from its own total, and a digit one
place above the first cannot be added at all. -/
theorem vanishing_amount :
    ((∀ x ∈ exactAmounts (invoiceOf ⟨false, 1, -1000027⟩).items, HasPlaces 1000027 x) ∧
      ((exactAmounts (invoiceOf ⟨false, 1, -1000027⟩).items).map abs).sum <
        10 ^ (28 - 1000027 : ℤ) ∧
      (invoiceOf ⟨false, 1, -1000027⟩).total = .ok ⟨false, 0, -1000026⟩ ∧
      (⟨false, 0, -1000026⟩ : Decimal).value ≠
        (exactAmounts (invoiceOf ⟨false, 1, -1000027⟩).items).sum) ∧
    (∀ x ∈ exactAmounts (invoiceOf ⟨false, 1, 1000000⟩).items, HasPlaces (-999973) x) ∧
      ((exactAmounts (invoiceOf ⟨false, 1, 1000000⟩).items).map abs).sum <
        10 ^ (28 - -999973 : ℤ) ∧
      (invoiceOf ⟨false, 1, 1000000⟩).total = .error .magnitude := by
  have hvalue (e : ℤ) : (⟨false, 1, e⟩ : Decimal).value = 10 ^ e := by simp [Decimal.value]
  have hplaces {e places : ℤ} (n : ℕ) (h : e = n + -places) :
      ∀ x ∈ exactAmounts (invoiceOf ⟨false, 1, e⟩).items, HasPlaces places x := by
    intro x hx
    rw [exactAmounts_invoiceOf, hvalue, List.mem_singleton] at hx
    refine ⟨10 ^ n, ?_⟩
    rw [hx, h, zpow_add₀ (by norm_num), zpow_natCast, Int.cast_pow]
    rfl
  have hsmall {e n : ℤ} (h : e < n) :
      ((exactAmounts (invoiceOf ⟨false, 1, e⟩).items).map abs).sum < 10 ^ n := by
    rw [exactAmounts_invoiceOf, hvalue, List.map_singleton, List.sum_singleton,
      abs_of_pos (by positivity)]
    exact zpow_lt_zpow_right₀ (by norm_num) h
  refine ⟨⟨hplaces 0 (by decide), hsmall (by decide), by decide +kernel, ?_⟩,
    hplaces 27 (by decide), hsmall (by decide), by decide +kernel⟩
  rw [exactAmounts_invoiceOf, hvalue, List.sum_singleton, Decimal.value_of_isZero rfl]
  positivity

end BillRun
