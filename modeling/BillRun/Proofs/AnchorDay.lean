import BillRun.Proofs.CycleDates

/-! Moves on an anchor day, and the first cycle date from a start on.

A date falls on an anchor day when it is that day of its month, or the last one of a month that is
too short (`Date.FallsOn`). A month has one such date (`Date.fallsOn_iff`), so a moment that is
moved on an anchor day keeps its time of day and its offset, and all else is told by its month.
Moves then add up as counts of months do, whatever short months lie between, and are ordered as the
counts are (`addMonthsOnDay_additive`). The first cycle date from a start on is that of the start's
month or, if that one has passed, of the next month; no other month can have an earlier one
(`firstDate_iff_least`). -/
namespace BillRun

open Calendar Moment

namespace Calendar

/-- The day is the anchor day, or the last day of a month that does not have it. -/
def Date.FallsOn (x : Date) (day : Int) : Prop := (x.day : Int) = min day x.month.length

instance (x : Date) (day : Int) : Decidable (x.FallsOn day) := inferInstanceAs (Decidable (_ = _))

/-- A month has one date that falls on an anchor day. -/
theorem Date.fallsOn_iff {x : Date} {day : Int} (h : 1 ≤ day) :
    x.FallsOn day ↔ x = .clamped x.month day.toNat (one_le_toNat h) := by
  obtain ⟨month, n, hn, hle⟩ := x
  simp only [FallsOn, clamped, Date.mk.injEq, true_and]
  omega

/-! ### Moves on an anchor day -/

namespace Moment

variable {t u v : Moment} {a b day : Int}

theorem onDay_of_fallsOn (hday : 1 ≤ day) (h : t.date.FallsOn day) : t.onDay day = .ok t := by
  refine onDay_eq_ok.mpr ⟨hday, ?_⟩
  rw [← (Date.fallsOn_iff hday).mp h]

theorem addMonthsOnDay_zero (t : Moment) (day : Int) : t.addMonthsOnDay 0 day = t.onDay day := by
  have hshift : t.date.month.shift 0 = .ok t.date.month := Month.shift_eq_ok.mpr (by omega)
  rw [addMonthsOnDay, hshift]
  rfl

theorem fallsOn_of_addMonthsOnDay (h : t.addMonthsOnDay a day = .ok u) : u.date.FallsOn day := by
  obtain ⟨m, -, hday, rfl⟩ := addMonthsOnDay_eq_ok.mp h
  exact (Date.fallsOn_iff hday).mpr rfl

/-- A move after another goes by both counts together, and fails where that does. -/
theorem addMonthsOnDay_of_moved (h : t.addMonthsOnDay a day = .ok u) (b : Int) :
    u.addMonthsOnDay b day = t.addMonthsOnDay (a + b) day := by
  obtain ⟨m, hm, -, rfl⟩ := addMonthsOnDay_eq_ok.mp h
  rw [addMonthsOnDay, addMonthsOnDay, ← Month.shift_shift hm b]
  rfl

/-- Moving back returns to a moment on its anchor day. -/
theorem addMonthsOnDay_neg_of_moved (hfalls : t.date.FallsOn day)
    (h : t.addMonthsOnDay a day = .ok u) : u.addMonthsOnDay (-a) day = .ok t := by
  obtain ⟨-, -, hday, -⟩ := addMonthsOnDay_eq_ok.mp h
  rw [addMonthsOnDay_of_moved h, Int.add_right_neg, addMonthsOnDay_zero,
    onDay_of_fallsOn hday hfalls]

theorem instant_lt_of_moved (hu : t.addMonthsOnDay a day = .ok u)
    (hv : t.addMonthsOnDay b day = .ok v) (hab : a < b) : u.instant < v.instant := by
  obtain ⟨hualigned, humonth⟩ := aligned_of_addMonthsOnDay hu
  obtain ⟨hvaligned, hvmonth⟩ := aligned_of_addMonthsOnDay hv
  exact (hualigned.trans hvaligned.symm).instant_lt_of_month (by omega)

/-- Two moves of one moment compare as their counts do. -/
theorem lt_of_moved (hu : t.addMonthsOnDay a day = .ok u) (hv : t.addMonthsOnDay b day = .ok v) :
    u.lt v = .ok (decide (a < b)) := by
  have haligned := (aligned_of_addMonthsOnDay hu).1.trans (aligned_of_addMonthsOnDay hv).1.symm
  have hiff : u.instant < v.instant ↔ a < b := by
    rcases Int.lt_trichotomy a b with hlt | rfl | hgt
    · exact iff_of_true (instant_lt_of_moved hu hv hlt) hlt
    · cases hu.symm.trans hv
      exact iff_of_false (Int.lt_irrefl _) (Int.lt_irrefl _)
    · have := instant_lt_of_moved hv hu hgt
      omega
  exact lt_eq_ok.mpr ⟨haligned.comparable, decide_eq_decide.mpr hiff⟩

/-- Only the last month of the calendar has no month after it. -/
theorem of_addMonthsOnDay_one_eq_error {f : Fault} (hday : 1 ≤ day)
    (h : t.addMonthsOnDay 1 day = .error f) :
    f = .year 10000 ∧ t.date.month.index + 1 = 120000 := by
  have hyear : ¬(1 ≤ t.yearAfter 1 ∧ t.yearAfter 1 ≤ 9999) := by
    rintro ⟨hfirst, hlast⟩
    obtain ⟨u, hu⟩ := addMonthsOnDay_of_year hday hfirst hlast
    cases h.symm.trans hu
  have hfirst := t.date.month.first_le
  have hlast := t.date.month.index_lt
  rw [addMonthsOnDay_of_not_year hyear] at h
  unfold yearAfter at h hyear
  have hmonth : t.date.month.index + 1 = 120000 := by omega
  have hnext : ((t.date.month.index : Int) + 1) / 12 = 10000 := by omega
  rw [hnext] at h
  cases h
  exact ⟨rfl, hmonth⟩

/-- **Moves on an anchor day add up, and grow with their counts.** A move that stays within the
calendar succeeds. It keeps time of day and offset, leads so many months on, and falls on the anchor
day. Any further move does what one move by both counts would do, so the way back leads to where it
began. A move by more months leads to a later moment. -/
theorem addMonthsOnDay_additive (t : Moment) {a day : Int} (hday : 1 ≤ day)
    (hfirst : 1 ≤ t.yearAfter a) (hlast : t.yearAfter a ≤ 9999) :
    ∃ u, t.addMonthsOnDay a day = .ok u ∧
      (u.Aligned t ∧ (u.date.month.index : Int) = t.date.month.index + a ∧ u.date.FallsOn day) ∧
      (∀ b, u.addMonthsOnDay b day = t.addMonthsOnDay (a + b) day) ∧
      (t.date.FallsOn day → u.addMonthsOnDay (-a) day = .ok t) ∧
      ∀ b v, t.addMonthsOnDay b day = .ok v → u.lt v = .ok (decide (a < b)) := by
  obtain ⟨u, hu⟩ := addMonthsOnDay_of_year hday hfirst hlast
  obtain ⟨haligned, hmonth⟩ := aligned_of_addMonthsOnDay hu
  exact ⟨u, hu, ⟨haligned, hmonth, fallsOn_of_addMonthsOnDay hu⟩, addMonthsOnDay_of_moved hu,
    fun hfalls => addMonthsOnDay_neg_of_moved hfalls hu, fun b v hv => lt_of_moved hu hv⟩

end Moment

end Calendar

open Sample in
/-- From the last day of January a month on is the last day of February, and from there a month on
is the last day of March again, and a month back the last day of January. -/
theorem addMonthsOnDay_additive_february :
    ((1 : Int) ≤ 31 ∧ 1 ≤ (hour 2020 1 31 9).yearAfter 1 ∧ (hour 2020 1 31 9).yearAfter 1 ≤ 9999) ∧
      (hour 2020 1 31 9).addMonthsOnDay 1 31 = .ok (hour 2020 2 29 9) ∧
      (hour 2020 2 29 9).addMonthsOnDay 1 31 = .ok (hour 2020 3 31 9) ∧
      (hour 2020 2 29 9).addMonthsOnDay (-1) 31 = .ok (hour 2020 1 31 9) ∧
      (hour 2020 2 29 9).lt (hour 2020 3 31 9) = .ok true := by
  have hday : (1 : Int) ≤ 31 := by decide
  have hfirst : 1 ≤ (hour 2020 1 31 9).yearAfter 1 := by decide +kernel
  have hlast : (hour 2020 1 31 9).yearAfter 1 ≤ 9999 := by decide +kernel
  have hfebruary : (hour 2020 1 31 9).addMonthsOnDay 1 31 = .ok (hour 2020 2 29 9) := rfl
  have hmarch : (hour 2020 1 31 9).addMonthsOnDay (1 + 1) 31 = .ok (hour 2020 3 31 9) := rfl
  have hfalls : (hour 2020 1 31 9).date.FallsOn 31 := by decide +kernel
  obtain ⟨u, hu, -, hon, hback, hlt⟩ := addMonthsOnDay_additive _ hday hfirst hlast
  obtain rfl := Except.ok.inj (hfebruary.symm.trans hu)
  exact ⟨⟨hday, hfirst, hlast⟩, hfebruary, (hon 1).trans hmarch, hback hfalls, hlt _ _ hmarch⟩

/-! ### The first cycle date -/

theorem CycleDay.fallsOn_iff {d : CycleDay} {x : Date} : x.FallsOn d.day ↔ x = d.on x.month :=
  Date.fallsOn_iff (Int.ofNat_le.mpr d.bounds.1)

/-- The first moment from the start on, at its time of day and in its offset, that falls on the
cycle day. -/
structure CycleDay.Least (d : CycleDay) (start first : Moment) : Prop where
  aligned : first.Aligned start
  fallsOn : first.date.FallsOn d.day
  start_le : start.instant ≤ first.instant
  le : ∀ t : Moment, t.Aligned start → t.date.FallsOn d.day → start.instant ≤ t.instant →
    first.instant ≤ t.instant

variable {d : CycleDay} {start first : Moment}

theorem CycleDay.Least.eq {first' : Moment} (h : d.Least start first) (h' : d.Least start first') :
    first = first' := by
  have hle := h.le first' h'.aligned h'.fallsOn h'.start_le
  have hge := h'.le first h.aligned h.fallsOn h.start_le
  exact eq_of_instant (h.aligned.trans h'.aligned.symm).offset (Int.le_antisymm hle hge)

theorem least_of_firstDate (h : firstDate start d.day = .ok first) : d.Least start first := by
  obtain ⟨haligned, hstart⟩ := aligned_of_firstDate h
  obtain ⟨m, hdate, hearlier⟩ := on_of_firstDate h
  refine ⟨haligned, ?_, hstart, fun t ht hfalls hle => ?_⟩
  · rw [CycleDay.fallsOn_iff, hdate]
    rfl
  · -- the cycle dates of earlier months lie before the start, and those of later ones after this one
    have hon := CycleDay.fallsOn_iff.mp hfalls
    rw [(haligned.trans ht.symm).instant_le, hdate, hon]
    refine d.on_le (Nat.not_lt.mp fun hmonth => ?_)
    have hbefore := hearlier t.date.month hmonth
    have hdays := ht.symm.instant_le.mp hle
    rw [← hon] at hbefore
    omega

/-- Where there is no first date, the cycle date of the start's month has passed and the calendar
ends with that month. -/
theorem of_firstDate_eq_error {f : Fault} (h : firstDate start d.day = .error f) :
    f = .year 10000 ∧ start.date.month.index + 1 = 120000 ∧
      (d.on start.date.month).dayNumber < start.date.dayNumber := by
  have hday : 1 ≤ (d.day : Int) := Int.ofNat_le.mpr d.bounds.1
  obtain ⟨candidate, hcandidate⟩ : ∃ candidate, start.onDay d.day = .ok candidate :=
    ⟨_, onDay_eq_ok.mpr ⟨hday, rfl⟩⟩
  obtain ⟨haligned, -⟩ := aligned_of_onDay hcandidate
  rw [firstDate, hcandidate, ok_bind, lt_branch haligned.comparable] at h
  split at h
  · rename_i hlt
    obtain ⟨hfault, hmonth⟩ := of_addMonthsOnDay_one_eq_error hday h
    have hpassed := haligned.instant_lt.mp hlt
    obtain ⟨_, rfl⟩ := onDay_eq_ok.mp hcandidate
    exact ⟨hfault, hmonth, hpassed⟩
  · cases h

theorem lt_start_of_firstDate_eq_error {f : Fault} (h : firstDate start d.day = .error f) {t : Moment}
    (ht : t.Aligned start) (hfalls : t.date.FallsOn d.day) : t.instant < start.instant := by
  obtain ⟨-, hmonth, hpassed⟩ := of_firstDate_eq_error h
  have hlast := t.date.month.index_lt
  have hle : (d.on t.date.month).dayNumber ≤ (d.on start.date.month).dayNumber :=
    d.on_le (by omega)
  rw [← CycleDay.fallsOn_iff.mp hfalls] at hle
  exact ht.instant_lt.mpr (Nat.lt_of_le_of_lt hle hpassed)

/-- There is no first date exactly when the calendar has no cycle date from the start on. -/
theorem firstDate_eq_error_iff {f : Fault} :
    firstDate start d.day = .error f ↔ f = .year 10000 ∧
      ∀ t : Moment, t.Aligned start → t.date.FallsOn d.day → t.instant < start.instant := by
  constructor
  · intro h
    exact ⟨(of_firstDate_eq_error h).1, fun _ => lt_start_of_firstDate_eq_error h⟩
  · rintro ⟨rfl, hnone⟩
    cases hfirst : firstDate start d.day with
    | ok first =>
      have hleast := least_of_firstDate hfirst
      exact absurd hleast.start_le (Int.not_le.mpr (hnone first hleast.aligned hleast.fallsOn))
    | error f => rw [(of_firstDate_eq_error hfirst).1]

theorem firstDate_eq_ok_iff : firstDate start d.day = .ok first ↔ d.Least start first := by
  constructor
  · exact least_of_firstDate
  · intro h
    cases hfirst : firstDate start d.day with
    | ok first' => rw [(least_of_firstDate hfirst).eq h]
    | error f =>
      have hlt := lt_start_of_firstDate_eq_error hfirst h.aligned h.fallsOn
      exact absurd h.start_le (Int.not_le.mpr hlt)

/-- **The first cycle date is the least from the start on.** It is found whenever the calendar has
one, and otherwise the fault is the year after the last. A month before it lies before the start. -/
theorem firstDate_iff_least (d : CycleDay) (start : Moment) :
    (∀ first, firstDate start d.day = .ok first ↔ d.Least start first) ∧
      (∀ f, firstDate start d.day = .error f ↔ f = .year 10000 ∧
        ∀ t : Moment, t.Aligned start → t.date.FallsOn d.day → t.instant < start.instant) ∧
      ∀ first previous, firstDate start d.day = .ok first →
        first.addMonthsOnDay (-1) d.day = .ok previous → previous.instant < start.instant :=
  ⟨fun _ => firstDate_eq_ok_iff, fun _ => firstDate_eq_error_iff,
    fun _ _ hfirst hprevious => lt_start_of_back hfirst (by decide) hprevious⟩

open Sample in
/-- On the last day of January the thirtieth has passed, and the first cycle date is the last day of
February; on the last day of the calendar there is none. -/
theorem firstDate_iff_least_month_end :
    CycleDay.Least ⟨30, by decide⟩ (hour 2020 1 31 9) (hour 2020 2 29 9) ∧
      (hour 2020 2 29 9).addMonthsOnDay (-1) 30 = .ok (hour 2020 1 30 9) ∧
      (hour 2020 1 30 9).instant < (hour 2020 1 31 9).instant ∧
      ∀ t : Moment, t.Aligned (hour 9999 12 31 9) → t.date.FallsOn 30 →
        t.instant < (hour 9999 12 31 9).instant := by
  have hfirst : firstDate (hour 2020 1 31 9) 30 = .ok (hour 2020 2 29 9) := by decide +kernel
  have hprevious : (hour 2020 2 29 9).addMonthsOnDay (-1) 30 = .ok (hour 2020 1 30 9) := rfl
  have hnone : firstDate (hour 9999 12 31 9) 30 = .error (.year 10000) := by decide +kernel
  obtain ⟨hleast, -, hbefore⟩ := firstDate_iff_least ⟨30, by decide⟩ (hour 2020 1 31 9)
  obtain ⟨-, hlast, -⟩ := firstDate_iff_least ⟨30, by decide⟩ (hour 9999 12 31 9)
  exact ⟨(hleast _).mp hfirst, hprevious, hbefore _ _ hfirst hprevious, ((hlast _).mp hnone).2⟩

end BillRun
