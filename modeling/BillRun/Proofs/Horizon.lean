import BillRun.Proofs.Cutting
import BillRun.Proofs.Refusals

/-! The horizon as the clock moves on.

Counting whole months never fails between comparable moments, and a target lies beyond the horizon
when it passes the present moved into one certain month (`Terms.beyond_iff_decisive`); with all
moments in one offset and a horizon that does not lie in the past, that is one month more than the
horizon (`Terms.beyond_iff`). A later present is moved to a later moment, with one exception: in a
short month two of the last days become one, and then the times of day decide, which may stand the
other way round (`Terms.Overtaken`). So a target within the horizon stays within it as time passes,
except for that (`run_within_later`). -/
namespace BillRun

open Calendar

namespace Calendar.Moment

/-! ### Moments in one offset -/

/-- Within a month, moments are ordered by day and then by time of day. -/
theorem instant_le_of_month {s t : Moment} (hoffset : s.offset = t.offset)
    (hmonth : s.date.month = t.date.month) : s.instant ≤ t.instant ↔
      s.date.day < t.date.day ∨ s.date.day = t.date.day ∧ s.clock ≤ t.clock := by
  have hminutes : s.offsetMinutes = t.offsetMinutes := by simp only [offsetMinutes, hoffset]
  have hs := s.clock_lt
  have ht := t.clock_lt
  simp only [instant, localCount, Date.dayNumber, hminutes, hmonth, dayLength] at hs ht ⊢
  omega

theorem month_le {s t : Moment} (hoffset : s.offset = t.offset) (h : s.instant ≤ t.instant) :
    s.date.month.index ≤ t.date.month.index := by
  refine Nat.not_lt.mp fun hlt => ?_
  have := instant_lt_of_dayNumber hoffset.symm (Date.dayNumber_lt hlt)
  omega

/-! ### Months ahead -/

/-- The same day and time in another month, or that month's last day. -/
def inMonth : Moment → Month → Moment
  | ⟨⟨_, day, hday, _⟩, clock, hclock, offset⟩, m => ⟨.clamped m day hday, clock, hclock, offset⟩

theorem addMonths_sub (s : Moment) (m : Month) :
    s.addMonths ((m.index : Int) - s.date.month.index) = .ok (s.inMonth m) := by
  have hshift : s.date.month.shift ((m.index : Int) - s.date.month.index) = .ok m :=
    Month.shift_eq_ok.mpr (by omega)
  unfold addMonths
  rw [hshift]
  rfl

/-- Whole months ahead are counted by the calendar, less one while the day and time are still to
come; whole months back likewise. -/
theorem monthsBetween_eq {s t : Moment} (hcomparable : Comparable s t) :
    s.monthsBetween t = .ok (
      if s.date.month.index < t.date.month.index ∧
          t.instant < (s.inMonth t.date.month).instant then
        (t.date.month.index : Int) - s.date.month.index - 1
      else if t.date.month.index < s.date.month.index ∧
          (s.inMonth t.date.month).instant < t.instant then
        (t.date.month.index : Int) - s.date.month.index + 1
      else (t.date.month.index : Int) - s.date.month.index) := by
  have hshifted : Comparable t (s.inMonth t.date.month) := hcomparable.symm
  unfold monthsBetween
  rcases Nat.lt_trichotomy s.date.month.index t.date.month.index with hlt | heq | hgt
  · rw [if_pos (by omega), addMonths_sub, ok_bind, lt_branch hshifted]
    simp only [hlt, true_and, Nat.lt_asymm hlt, false_and, if_false]
    split <;> rfl
  · rw [if_neg (by omega), if_neg (by omega), if_neg (by omega), if_neg (by omega)]
    rfl
  · rw [if_neg (by omega), if_pos (by omega), addMonths_sub, ok_bind, lt_branch hshifted.symm]
    simp only [hgt, true_and, Nat.lt_asymm hgt, false_and, if_false]
    split <;> rfl

end Calendar.Moment

open Moment

namespace Terms

variable {t : Terms} {now target : Moment}

/-- The month that decides whether a target lies beyond the horizon: one more than the horizon is
ahead, or as many back as a horizon in the past. -/
def decisive (t : Terms) (now : Moment) : Int :=
  now.date.month.index + t.horizon + if 0 ≤ t.horizon then 1 else 0

/-- The present, moved into the target's month, comes no later than the target; for a horizon in the
past it comes strictly before. -/
def Passes (t : Terms) (now target : Moment) : Prop :=
  if 0 ≤ t.horizon then (now.inMonth target.date.month).instant ≤ target.instant
  else (now.inMonth target.date.month).instant < target.instant

/-- **A target lies beyond the horizon** when its month comes after the decisive one, or is that
month and the target passes the present. -/
theorem beyond_iff_decisive (hcomparable : Comparable now target) :
    t.Beyond now target ↔ t.decisive now < target.date.month.index ∨
      t.decisive now = target.date.month.index ∧ t.Passes now target := by
  unfold Beyond decisive Passes
  rw [monthsBetween_eq hcomparable]
  simp only [Except.ok.injEq, exists_eq_left']
  split
  · split <;> omega
  · split
    · split <;> omega
    · split <;> omega

/-- With a horizon that does not lie in the past, the decisive month is one past the horizon. -/
theorem beyond_iff (hhorizon : 0 ≤ t.horizon) (hoffset : now.offset = target.offset) :
    t.Beyond now target ↔
      t.horizon + 1 < (target.date.month.index : Int) - now.date.month.index ∨
        t.horizon + 1 = (target.date.month.index : Int) - now.date.month.index ∧
          (now.inMonth target.date.month).instant ≤ target.instant := by
  rw [beyond_iff_decisive (congrArg Option.isSome hoffset)]
  unfold decisive Passes
  rw [if_pos hhorizon, if_pos hhorizon]
  omega

/-- The clock passes from one of the last days of a month to another of them, which the month of the
target does not tell apart, and to an earlier time of day. The target stands between the two times,
on the last day of the month that is one past the horizon. -/
structure Overtaken (t : Terms) (earlier later target : Moment) : Prop where
  month : later.date.month = earlier.date.month
  ahead : (target.date.month.index : Int) = earlier.date.month.index + t.horizon + 1
  day_lt : earlier.date.day < later.date.day
  short : target.date.month.length ≤ earlier.date.day
  last : target.date.day = target.date.month.length
  reached : later.clock ≤ target.clock
  not_reached : target.clock < earlier.clock

theorem overtaken_iff (hhorizon : 0 ≤ t.horizon) {earlier later : Moment}
    (hearlier : earlier.offset = target.offset) (hlater : later.offset = target.offset)
    (hle : earlier.instant ≤ later.instant) :
    t.Overtaken earlier later target ↔ t.Beyond later target ∧ ¬t.Beyond earlier target := by
  have hmonth {now : Moment} (hoffset : now.offset = target.offset) :
      (now.inMonth target.date.month).instant ≤ target.instant ↔
        min now.date.day target.date.month.length < target.date.day ∨
          min now.date.day target.date.month.length = target.date.day ∧ now.clock ≤ target.clock :=
    instant_le_of_month (s := now.inMonth target.date.month) hoffset rfl
  have hmonths := month_le (hearlier.trans hlater.symm) hle
  have hshort : target.date.day ≤ target.date.month.length := target.date.day_le
  rw [beyond_iff hhorizon hlater, beyond_iff hhorizon hearlier, hmonth hlater, hmonth hearlier]
  constructor
  · rintro ⟨hsame, hahead, hday, hlast, htarget, hreached, hnot⟩
    rw [hsame]
    omega
  · rintro ⟨hbeyond, hwithin⟩
    have hsame : later.date.month = earlier.date.month := Month.eq_of_index (by omega)
    rw [instant_le_of_month (hearlier.trans hlater.symm) hsame.symm] at hle
    rw [hsame] at hbeyond
    exact ⟨hsame, by omega, by omega, by omega, by omega, by omega, by omega⟩

end Terms

/-! ### Runs -/

/-- The run was refused because its target is too far ahead. -/
def TooFar (outcome : Except Fault (Option Invoice)) : Prop :=
  ∃ target months, outcome = .error (.horizon target months)

theorem tooFar_run_iff {o : Occasion} {events : List Event} {issued : List Invoice}
    {r : RunRequest} :
    TooFar (o.run events issued r) ↔
      events ≠ [] ∧ Event.orderable events = true ∧ o.terms.Beyond o.now r.target := by
  constructor
  · rintro ⟨target, months, h⟩
    obtain ⟨hne, horderable, hbeyond, -⟩ := (run_eq_untimely rfl).mp h
    exact ⟨hne, horderable, hbeyond⟩
  · rintro ⟨hne, horderable, hbeyond⟩
    exact ⟨_, _, run_of_beyond hne horderable hbeyond⟩

/-- **A target within the horizon stays within it as the clock moves on**, exactly unless the clock
is overtaken at the end of a month. -/
theorem run_within_later {terms : Terms} (hhorizon : 0 ≤ terms.horizon) {events : List Event}
    (hne : events ≠ []) (issued : List Invoice) {r : RunRequest} {earlier later : Moment}
    (hearlier : earlier.offset = r.target.offset) (hlater : later.offset = r.target.offset)
    (hle : earlier.instant ≤ later.instant) (ids ids' : Nat → Uuid) :
    (¬TooFar ((⟨terms, earlier, ids⟩ : Occasion).run events issued r) →
      ¬TooFar ((⟨terms, later, ids'⟩ : Occasion).run events issued r)) ↔
        ¬(Event.orderable events = true ∧ terms.Overtaken earlier later r.target) := by
  rw [tooFar_run_iff, tooFar_run_iff, terms.overtaken_iff hhorizon hearlier hlater hle]
  tauto

namespace Sample

/-- An event that bills nothing. -/
def note : Event := { event with period := .none, fixedPrice := none, recurringPrice := none }

/-- The last day of a February three years and a month ahead. -/
def ahead : RunRequest := ⟨uuid 2, hour 2023 2 28 12, .text "USD"⟩

theorem offset_hour (y m d h : Nat) : (hour y m d h).offset = ahead.target.offset := by
  simp only [hour, ahead]

end Sample

open Sample in
/-- On the evening of the thirtieth and on the evening of the thirty-first. -/
theorem run_within_later_evening :
    ¬TooFar ((⟨.standard, hour 2020 1 30 20, uuid⟩ : Occasion).run [note] [] ahead) ∧
      ¬TooFar ((⟨.standard, hour 2020 1 31 21, uuid⟩ : Occasion).run [note] [] ahead) := by
  have hfirst :
      (⟨.standard, hour 2020 1 30 20, uuid⟩ : Occasion).run [note] [] ahead = .ok none := by
    decide +kernel
  have hwithin :
      ¬TooFar ((⟨.standard, hour 2020 1 30 20, uuid⟩ : Occasion).run [note] [] ahead) := by
    rintro ⟨target, months, h⟩
    rw [hfirst] at h
    cases h
  refine ⟨hwithin, (run_within_later (by decide) (by decide) [] (offset_hour ..) (offset_hour ..)
    (by decide +kernel) uuid uuid).mpr ?_ hwithin⟩
  rintro ⟨-, hovertaken⟩
  exact absurd hovertaken.reached (by decide +kernel)

open Sample in
/-- On the evening of the thirtieth a target at noon is not yet three years and a month ahead; on
the morning of the thirty-first it is. -/
theorem beyond_next_morning :
    (0 ≤ Terms.standard.horizon ∧ (hour 2020 1 30 20).instant ≤ (hour 2020 1 31 10).instant) ∧
      ¬TooFar ((⟨.standard, hour 2020 1 30 20, uuid⟩ : Occasion).run [note] [] ahead) ∧
      TooFar ((⟨.standard, hour 2020 1 31 10, uuid⟩ : Occasion).run [note] [] ahead) := by
  have hfirst :
      (⟨.standard, hour 2020 1 30 20, uuid⟩ : Occasion).run [note] [] ahead = .ok none := by
    decide +kernel
  have hsecond : (⟨.standard, hour 2020 1 31 10, uuid⟩ : Occasion).run [note] [] ahead =
      .error (.horizon ahead.target 36) := by decide +kernel
  refine ⟨by decide +kernel, ?_, ⟨_, _, hsecond⟩⟩
  rintro ⟨target, months, h⟩
  rw [hfirst] at h
  cases h

end BillRun
