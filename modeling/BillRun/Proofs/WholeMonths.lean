import BillRun.Proofs.Horizon
import Mathlib.Order.Bounds.Basic

/-! How many whole months lie between two moments.

A moment moved by months keeps its day or takes the last day of its new month, so where it stands to
another moment of its offset is told by the months unless they are the same (`month_le`). The months
that it can be moved without passing the other are therefore those before the other's month, and
that month too when the day and time allow. `monthsBetween` takes the difference of the two months
and gives up one when they do not allow it, which is all there is to correct, in either direction
(`monthsBetween_isGreatest`). -/
namespace BillRun

namespace Calendar

namespace Moment

variable {s t u : Moment} {n : Int}

theorem addMonths_eq_ok :
    s.addMonths n = .ok u ↔
      ∃ m : Month, (m.index : Int) = s.date.month.index + n ∧ u = s.inMonth m := by
  unfold addMonths
  rw [bind_eq_ok]
  refine exists_congr fun m => and_congr Month.shift_eq_ok ?_
  rw [pure_eq_ok, Except.ok.injEq, eq_comm]
  rfl

/-- In its own month a moment stays where it is. -/
theorem inMonth_self (s : Moment) : s.inMonth s.date.month = s := by
  obtain ⟨⟨month, day, hday, hle⟩, clock, hclock, offset⟩ := s
  simp only [inMonth, Date.clamped, Nat.min_eq_left hle]

/-- A moment moved to an earlier month than another lies before it, and moved to a later one after
it. -/
theorem inMonth_lt (hoffset : s.offset = t.offset) {m : Month}
    (h : m.index < t.date.month.index) : (s.inMonth m).instant < t.instant :=
  instant_lt_of_dayNumber hoffset (Date.dayNumber_lt h)

theorem lt_inMonth (hoffset : s.offset = t.offset) {m : Month}
    (h : t.date.month.index < m.index) : t.instant < (s.inMonth m).instant :=
  instant_lt_of_dayNumber hoffset.symm (Date.dayNumber_lt h)

/-- The counts of months by which a moment can be moved ahead without passing another. -/
def monthsUpTo (s t : Moment) : Set Int :=
  {m | 0 ≤ m ∧ ∃ u, s.addMonths m = .ok u ∧ u.instant ≤ t.instant}

/-- The counts of months by which a moment can be moved back without passing another. -/
def monthsDownTo (s t : Moment) : Set Int :=
  {m | 0 ≤ m ∧ ∃ u, s.addMonths (-m) = .ok u ∧ t.instant ≤ u.instant}

theorem mem_monthsUpTo_iff (hoffset : s.offset = t.offset) :
    n ∈ s.monthsUpTo t ↔ 0 ≤ n ∧ (s.date.month.index + n < t.date.month.index ∨
      s.date.month.index + n = t.date.month.index ∧
        (s.inMonth t.date.month).instant ≤ t.instant) := by
  have hfirst := s.date.month.first_le
  have hlast := t.date.month.index_lt
  refine and_congr_right fun hn => ⟨?_, ?_⟩
  · rintro ⟨u, hu, hle⟩
    obtain ⟨m, hm, rfl⟩ := addMonths_eq_ok.mp hu
    rcases Nat.lt_trichotomy m.index t.date.month.index with hlt | heq | hgt
    · exact .inl (by omega)
    · rw [Month.eq_of_index heq] at hle
      exact .inr ⟨by omega, hle⟩
    · have := lt_inMonth hoffset hgt
      omega
  · rintro (hlt | ⟨heq, hle⟩)
    · obtain ⟨m, hm⟩ := Month.exists_index (i := s.date.month.index + n) (by omega) (by omega)
      exact ⟨_, addMonths_eq_ok.mpr ⟨m, hm, rfl⟩, Int.le_of_lt (inMonth_lt hoffset (by omega))⟩
    · exact ⟨_, addMonths_eq_ok.mpr ⟨_, heq.symm, rfl⟩, hle⟩

theorem mem_monthsDownTo_iff (hoffset : s.offset = t.offset) :
    n ∈ s.monthsDownTo t ↔ 0 ≤ n ∧ (t.date.month.index < s.date.month.index - n ∨
      t.date.month.index = s.date.month.index - n ∧
        t.instant ≤ (s.inMonth t.date.month).instant) := by
  have hfirst := t.date.month.first_le
  have hlast := s.date.month.index_lt
  refine and_congr_right fun hn => ⟨?_, ?_⟩
  · rintro ⟨u, hu, hle⟩
    obtain ⟨m, hm, rfl⟩ := addMonths_eq_ok.mp hu
    rcases Nat.lt_trichotomy m.index t.date.month.index with hlt | heq | hgt
    · have := inMonth_lt hoffset hlt
      omega
    · rw [Month.eq_of_index heq] at hle
      exact .inr ⟨by omega, hle⟩
    · exact .inl (by omega)
  · rintro (hlt | ⟨heq, hle⟩)
    · obtain ⟨m, hm⟩ := Month.exists_index (i := s.date.month.index - n) (by omega) (by omega)
      exact ⟨_, addMonths_eq_ok.mpr ⟨m, hm, rfl⟩, Int.le_of_lt (lt_inMonth hoffset (by omega))⟩
    · exact ⟨_, addMonths_eq_ok.mpr ⟨_, heq, rfl⟩, hle⟩

/-- A moment can be moved ahead to the month of a later one, or to the month before where the day
and time of the later one are still to come. -/
theorem isGreatest_monthsUpTo (hoffset : s.offset = t.offset) (hle : s.instant ≤ t.instant) :
    IsGreatest (s.monthsUpTo t)
      (if s.date.month.index < t.date.month.index ∧
          t.instant < (s.inMonth t.date.month).instant then
        (t.date.month.index : Int) - s.date.month.index - 1
      else (t.date.month.index : Int) - s.date.month.index) := by
  have hmonths := month_le hoffset hle
  have hsame : s.date.month.index = t.date.month.index →
      (s.inMonth t.date.month).instant ≤ t.instant := by
    intro hmonth
    rwa [← Month.eq_of_index hmonth, inMonth_self]
  refine ⟨(mem_monthsUpTo_iff hoffset).mpr ?_, fun n hn => ?_⟩
  · split <;> omega
  · rw [mem_monthsUpTo_iff hoffset] at hn
    split <;> omega

/-- Back to the month of an earlier moment it is the same. -/
theorem isGreatest_monthsDownTo (hoffset : s.offset = t.offset) (hlt : t.instant < s.instant) :
    IsGreatest (s.monthsDownTo t)
      (-if t.date.month.index < s.date.month.index ∧
          (s.inMonth t.date.month).instant < t.instant then
        (t.date.month.index : Int) - s.date.month.index + 1
      else (t.date.month.index : Int) - s.date.month.index) := by
  have hmonths := month_le hoffset.symm (Int.le_of_lt hlt)
  have hsame : s.date.month.index = t.date.month.index →
      t.instant ≤ (s.inMonth t.date.month).instant := by
    intro hmonth
    rw [← Month.eq_of_index hmonth, inMonth_self]
    exact Int.le_of_lt hlt
  refine ⟨(mem_monthsDownTo_iff hoffset).mpr ?_, fun n hn => ?_⟩
  · split <;> omega
  · rw [mem_monthsDownTo_iff hoffset] at hn
    split <;> omega

/-- **Whole months are counted exactly.** Between moments of one offset, or of none, counting never
fails. To a moment that comes no earlier it gives the most months that the first can be moved ahead
without passing the second, and to an earlier one as many back as the first can be moved without
passing it. -/
theorem monthsBetween_isGreatest (hoffset : s.offset = t.offset) :
    ∃ months, s.monthsBetween t = .ok months ∧
      (s.instant ≤ t.instant → IsGreatest (s.monthsUpTo t) months) ∧
      (t.instant < s.instant → IsGreatest (s.monthsDownTo t) (-months)) := by
  refine ⟨_, monthsBetween_eq (congrArg Option.isSome hoffset), fun hle => ?_, fun hlt => ?_⟩
  · have hmonths := month_le hoffset hle
    have hahead : ¬(t.date.month.index < s.date.month.index ∧
        (s.inMonth t.date.month).instant < t.instant) := by omega
    rw [if_neg hahead]
    exact isGreatest_monthsUpTo hoffset hle
  · have hmonths := month_le hoffset.symm (Int.le_of_lt hlt)
    have hback : ¬(s.date.month.index < t.date.month.index ∧
        t.instant < (s.inMonth t.date.month).instant) := by omega
    rw [if_neg hback]
    exact isGreatest_monthsDownTo hoffset hlt

end Moment

end Calendar

open Calendar Moment Sample in
/-- Between the last day of January and the thirtieth of March lies one whole month, in either
direction: two months ahead is the thirty-first of March, and two months back the thirtieth of
January. -/
theorem monthsBetween_isGreatest_month_end :
    (hour 2020 1 31 9).offset = (hour 2020 3 30 9).offset ∧
      (hour 2020 1 31 9).instant ≤ (hour 2020 3 30 9).instant ∧
      (hour 2020 1 31 9).monthsBetween (hour 2020 3 30 9) = .ok 1 ∧
      IsGreatest ((hour 2020 1 31 9).monthsUpTo (hour 2020 3 30 9)) 1 ∧
      (hour 2020 3 30 9).monthsBetween (hour 2020 1 31 9) = .ok (-1) ∧
      IsGreatest ((hour 2020 3 30 9).monthsDownTo (hour 2020 1 31 9)) 1 := by
  have hoffset : (hour 2020 1 31 9).offset = (hour 2020 3 30 9).offset := rfl
  have hle : (hour 2020 1 31 9).instant ≤ (hour 2020 3 30 9).instant := by decide +kernel
  have hlt : (hour 2020 1 31 9).instant < (hour 2020 3 30 9).instant := by decide +kernel
  have hahead : (hour 2020 1 31 9).monthsBetween (hour 2020 3 30 9) = .ok 1 := by decide +kernel
  have hback : (hour 2020 3 30 9).monthsBetween (hour 2020 1 31 9) = .ok (-1) := by decide +kernel
  obtain ⟨m, hm, hmost, -⟩ := monthsBetween_isGreatest hoffset
  obtain ⟨n, hn, -, hleast⟩ := monthsBetween_isGreatest hoffset.symm
  obtain rfl := Except.ok.inj (hahead.symm.trans hm)
  obtain rfl := Except.ok.inj (hback.symm.trans hn)
  exact ⟨hoffset, hle, hahead, hmost hle, hback, hleast hlt⟩

end BillRun
