import BillRun.Calendar.Shift
import BillRun.Proofs.Outcome

/-! The order of moments, and what a shift by months does to it.

Moments with one time of day and one offset (`Aligned`) are ordered by their months first, however
their days were clamped. Shifts keep time of day and offset, so a shift by more months is later. A
shift fails when it leads out of the years of the calendar, and only then
(`addMonthsOnDay_of_not_year`). -/
namespace BillRun.Calendar

/-! ### Comparisons that succeed -/

namespace Moment

theorem lt_eq_ok {s t : Moment} {b : Bool} :
    s.lt t = .ok b ↔ Comparable s t ∧ decide (s.instant < t.instant) = b := by
  unfold lt
  by_cases h : Comparable s t <;> simp [h]

theorem le_eq_ok {s t : Moment} {b : Bool} :
    s.le t = .ok b ↔ Comparable s t ∧ decide (s.instant ≤ t.instant) = b := by
  unfold le
  by_cases h : Comparable s t <;> simp [h]

theorem le_eq_true {s t : Moment} :
    s.le t = .ok true ↔ Comparable s t ∧ s.instant ≤ t.instant := by
  rw [le_eq_ok, decide_eq_true_eq]

/-- A branch on a comparison is taken as the instants say. -/
theorem lt_branch {β : Type} {s t : Moment} (h : Comparable s t) (x y : Except Fault β) :
    (s.lt t >>= fun early => if early = true then x else y) =
      if s.instant < t.instant then x else y := by
  rw [lt_of_comparable h, ok_bind]
  simp only [decide_eq_true_eq]

theorem le_branch {β : Type} {s t : Moment} (h : Comparable s t) (x y : Except Fault β) :
    (s.le t >>= fun within => if within = true then x else y) =
      if s.instant ≤ t.instant then x else y := by
  rw [le_of_comparable h, ok_bind]
  simp only [decide_eq_true_eq]

theorem lt_branch_eq_ok {β : Type} {s t : Moment} {x y : Except Fault β} {b : β} :
    (s.lt t >>= fun early => if early = true then x else y) = .ok b ↔
      Comparable s t ∧ (if s.instant < t.instant then x else y) = .ok b := by
  by_cases h : Comparable s t
  · rw [lt_branch h, and_iff_right h]
  · rw [lt, if_neg h, error_bind]
    simp [h]

theorem le_branch_eq_ok {β : Type} {s t : Moment} {x y : Except Fault β} {b : β} :
    (s.le t >>= fun within => if within = true then x else y) = .ok b ↔
      Comparable s t ∧ (if s.instant ≤ t.instant then x else y) = .ok b := by
  by_cases h : Comparable s t
  · rw [le_branch h, and_iff_right h]
  · rw [le, if_neg h, error_bind]
    simp [h]

/-- Comparable moments of one instant have one mark. -/
theorem mark_congr {s t : Moment} (h : Comparable s t) (hinstant : s.instant = t.instant) :
    s.mark = t.mark := by
  unfold mark
  rw [hinstant, h]

/-- A comparison sees only the mark of a moment. -/
theorem lt_congr {s s' t : Moment} (h : s.mark = s'.mark) : s.lt t = s'.lt t := by
  have hoffset : s.offset.isSome = s'.offset.isSome := congrArg Mark.anchored h
  have hinstant : s.instant = s'.instant := congrArg Mark.instant h
  have hcomparable : Comparable s t ↔ Comparable s' t := by rw [Comparable, Comparable, hoffset]
  simp only [lt, hcomparable, hinstant]

theorem le_congr {s t t' : Moment} (h : t.mark = t'.mark) : s.le t = s.le t' := by
  have hoffset : t.offset.isSome = t'.offset.isSome := congrArg Mark.anchored h
  have hinstant : t.instant = t'.instant := congrArg Mark.instant h
  have hcomparable : Comparable s t ↔ Comparable s t' := by rw [Comparable, Comparable, hoffset]
  simp only [le, hcomparable, hinstant]

theorem earlier_eq_ok {s t u : Moment} :
    s.earlier t = .ok u ↔
      Comparable t s ∧ u = if t.instant < s.instant then t else s := by
  refine lt_branch_eq_ok.trans (and_congr_right fun _ => ?_)
  split <;> simp [eq_comm]

/-- The moment carries an offset. -/
def Anchored (t : Moment) : Prop := t.offset.isSome = true

instance (t : Moment) : Decidable (Anchored t) := inferInstanceAs (Decidable (_ = _))

theorem Anchored.comparable {s t : Moment} (hs : Anchored s) (ht : Anchored t) : Comparable s t :=
  hs.trans ht.symm

/-- Two moments read at one time of day in one offset. -/
structure Aligned (s t : Moment) : Prop where
  clock : s.clock = t.clock
  offset : s.offset = t.offset

theorem Aligned.refl (t : Moment) : Aligned t t := ⟨rfl, rfl⟩

theorem Aligned.symm {s t : Moment} (h : Aligned s t) : Aligned t s :=
  ⟨h.clock.symm, h.offset.symm⟩

theorem Aligned.trans {s t u : Moment} (h : Aligned s t) (h' : Aligned t u) : Aligned s u :=
  ⟨h.clock.trans h'.clock, h.offset.trans h'.offset⟩

theorem Aligned.comparable {s t : Moment} (h : Aligned s t) : Comparable s t :=
  congrArg Option.isSome h.offset

theorem Aligned.anchored {s t : Moment} (h : Aligned s t) (ht : Anchored t) : Anchored s :=
  h.comparable.trans ht

/-- Aligned moments are as far apart as their dates. -/
theorem Aligned.instant_lt {s t : Moment} (h : Aligned s t) :
    s.instant < t.instant ↔ s.date.dayNumber < t.date.dayNumber := by
  have hoffset : s.offsetMinutes = t.offsetMinutes := by simp only [offsetMinutes, h.offset]
  have hpos := dayLength_pos
  simp only [instant, localCount, hoffset, h.clock]
  have hmul : (s.date.dayNumber : Int) * dayLength < t.date.dayNumber * dayLength ↔
      (s.date.dayNumber : Int) < t.date.dayNumber := Int.mul_lt_mul_right hpos
  omega

theorem Aligned.instant_le {s t : Moment} (h : Aligned s t) :
    s.instant ≤ t.instant ↔ s.date.dayNumber ≤ t.date.dayNumber := by
  rw [← Int.not_lt, ← Nat.not_lt, h.symm.instant_lt]

theorem daysBetween_pos_iff {s t : Moment} :
    0 < s.daysBetween t ↔ s.date.dayNumber < t.date.dayNumber := by
  unfold daysBetween
  omega

theorem Aligned.daysBetween_pos {s t : Moment} (h : Aligned s t) :
    0 < s.daysBetween t ↔ s.instant < t.instant := daysBetween_pos_iff.trans h.instant_lt.symm

end Moment

/-! ### Months order dates -/

theorem Date.dayNumber_lt {a b : Date} (h : a.month.index < b.month.index) :
    a.dayNumber < b.dayNumber := by
  have hlength : a.day ≤ lengthAt a.month.index := a.day_le
  have hnext := daysBefore_succ a.month.index a.month.first_le
  have hmono := daysBefore_mono (i := a.month.index + 1) (j := b.month.index)
    (Nat.le_trans a.month.first_le (Nat.le_succ _)) h
  have hday := b.one_le_day
  simp only [Date.dayNumber]
  omega

theorem Month.eq_of_index {m n : Month} (h : m.index = n.index) : m = n := by
  cases m
  cases n
  simpa using h

theorem Month.shift_eq_ok {m n : Month} {count : Int} :
    m.shift count = .ok n ↔ (n.index : Int) = m.index + count := by
  have hlo := n.first_le
  have hhi := n.index_lt
  unfold Month.shift
  by_cases h : 12 ≤ (m.index : Int) + count ∧ (m.index : Int) + count < 120000
  · simp only [h, and_self, dite_true, Except.ok.injEq]
    constructor
    · rintro rfl
      exact Int.toNat_of_nonneg (by omega)
    · intro heq
      refine Month.eq_of_index ?_
      show ((m.index : Int) + count).toNat = n.index
      omega
  · simp only [h, dite_false, reduceCtorEq, false_iff]
    omega

theorem Month.exists_index {i : Int} (hfirst : 12 ≤ i) (hlast : i < 120000) :
    ∃ m : Month, (m.index : Int) = i :=
  ⟨⟨i.toNat, by omega, by omega⟩, Int.toNat_of_nonneg (by omega)⟩

/-- A shift after another goes by both counts together, and fails where that does. -/
theorem Month.shift_shift {m n : Month} {a : Int} (h : m.shift a = .ok n) (b : Int) :
    n.shift b = m.shift (a + b) := by
  have hindex : (n.index : Int) + b = m.index + (a + b) := by
    rw [Month.shift_eq_ok.mp h, Int.add_assoc]
  simp only [Month.shift, hindex]

namespace Moment

theorem Aligned.instant_lt_of_month {s t : Moment} (h : Aligned s t)
    (hmonth : s.date.month.index < t.date.month.index) : s.instant < t.instant :=
  h.instant_lt.mpr (Date.dayNumber_lt hmonth)

/-! ### Shifts that succeed -/

theorem one_le_toNat {day : Int} (h : 1 ≤ day) : 1 ≤ day.toNat := by omega

theorem onDay_eq_ok {t u : Moment} {day : Int} :
    t.onDay day = .ok u ↔
      ∃ h : 1 ≤ day, u = { t with date := .clamped t.date.month day.toNat (one_le_toNat h) } := by
  unfold onDay
  by_cases h : 1 ≤ day <;> simp [h, eq_comm]

theorem addMonthsOnDay_eq_ok {t u : Moment} {n day : Int} :
    t.addMonthsOnDay n day = .ok u ↔ ∃ month, t.date.month.shift n = .ok month ∧
      ∃ h : 1 ≤ day, u = { t with date := .clamped month day.toNat (one_le_toNat h) } := by
  unfold addMonthsOnDay
  rw [bind_eq_ok]
  exact exists_congr fun month => and_congr_right fun _ => onDay_eq_ok

theorem aligned_of_onDay {t u : Moment} {day : Int} (h : t.onDay day = .ok u) :
    Aligned u t ∧ u.date.month = t.date.month := by
  obtain ⟨_, rfl⟩ := onDay_eq_ok.mp h
  exact ⟨⟨rfl, rfl⟩, rfl⟩

theorem aligned_of_addMonthsOnDay {t u : Moment} {n day : Int}
    (h : t.addMonthsOnDay n day = .ok u) :
    Aligned u t ∧ (u.date.month.index : Int) = t.date.month.index + n := by
  obtain ⟨month, hmonth, _, rfl⟩ := addMonthsOnDay_eq_ok.mp h
  exact ⟨⟨rfl, rfl⟩, Month.shift_eq_ok.mp hmonth⟩

/-! ### Years that shifts lead to -/

/-- The year in which a moment lies once it is moved by months, or would lie if the calendar went
on. -/
def yearAfter (t : Moment) (n : Int) : Int := (t.date.month.index + n) / 12

theorem addMonthsOnDay_of_year {t : Moment} {n day : Int} (hday : 1 ≤ day)
    (hfirst : 1 ≤ t.yearAfter n) (hlast : t.yearAfter n ≤ 9999) :
    ∃ u, t.addMonthsOnDay n day = .ok u := by
  unfold yearAfter at hfirst hlast
  obtain ⟨m, hm⟩ := Month.exists_index (i := t.date.month.index + n) (by omega) (by omega)
  exact ⟨_, addMonthsOnDay_eq_ok.mpr ⟨m, Month.shift_eq_ok.mpr hm, hday, rfl⟩⟩

/-- Outside the calendar, the fault of a shift is its year. -/
theorem addMonthsOnDay_of_not_year {t : Moment} {n day : Int}
    (h : ¬(1 ≤ t.yearAfter n ∧ t.yearAfter n ≤ 9999)) :
    t.addMonthsOnDay n day = .error (yearFault (t.yearAfter n)) := by
  unfold yearAfter at h
  have hshift : t.date.month.shift n = .error (yearFault (t.yearAfter n)) := dif_neg (by omega)
  rw [addMonthsOnDay, hshift]
  rfl

end Moment

end BillRun.Calendar
