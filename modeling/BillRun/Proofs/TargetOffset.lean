import BillRun.Proofs.Horizon

/-! The horizon and the offset that a target is read in.

Months are counted from the calendar fields of the present to those of the target, each read in its
own offset, while the days and times that complete a month are compared as instants. So two readings
of one instant need not be judged alike. Readings fall into one month or into two that follow on
each other (`Calendar.Moment.month_le_succ`), and they are judged alike exactly unless one of them
falls into the decisive month and the other beside it, on the side that the instants contradict
(`Terms.Parted`, `tooFar_respelled_iff`). -/
namespace BillRun

open Calendar Moment

/-! ### Readings of one instant -/

namespace Calendar

/-- A month and more lies between dates whose months do not follow on each other. -/
theorem Date.dayNumber_add_lt {a b : Date} (h : a.month.index + 1 < b.month.index) :
    a.dayNumber + 28 < b.dayNumber := by
  have hlength : a.day ≤ lengthAt a.month.index := a.day_le
  have hfirst := a.month.first_le
  have hnext := daysBefore_succ a.month.index hfirst
  have hafter := daysBefore_succ (a.month.index + 1) (by omega)
  have hfull := le_lengthAt (a.month.index + 1)
  have hmono := daysBefore_mono (i := a.month.index + 1 + 1) (j := b.month.index) (by omega) h
  have hday := b.one_le_day
  simp only [Date.dayNumber]
  omega

theorem Moment.offsetMinutes_bounded (t : Moment) :
    -1440 < t.offsetMinutes ∧ t.offsetMinutes < 1440 := by
  unfold offsetMinutes
  split
  · rename_i o _
    exact o.bounded
  · decide

/-- Readings of one instant are less than two days apart, so their months are the same or follow on
each other. -/
theorem Moment.month_le_succ {s t : Moment} (h : s.instant = t.instant) :
    t.date.month.index ≤ s.date.month.index + 1 := by
  refine Nat.not_lt.mp fun hlt => ?_
  have hfar := Date.dayNumber_add_lt hlt
  have hs := s.offsetMinutes_bounded
  have ht := t.offsetMinutes_bounded
  have hclock := s.clock_lt
  simp only [instant, localCount, dayLength, minuteLength] at h hclock
  omega

end Calendar

/-! ### Two readings judged apart -/

namespace Terms

variable {t : Terms} {now target target' : Moment}

/-- One reading of a target falls into the decisive month. The other falls into the month before,
although the target passes the present, or into the month after, although it does not. -/
structure Parted (t : Terms) (now target target' : Moment) : Prop where
  decisive : (target.date.month.index : Int) = t.decisive now
  beside : (target'.date.month.index : Int) = t.decisive now - 1 ∧ t.Passes now target ∨
    (target'.date.month.index : Int) = t.decisive now + 1 ∧ ¬t.Passes now target

theorem passes_congr (hmonth : target.date.month = target'.date.month)
    (h : target.instant = target'.instant) : t.Passes now target ↔ t.Passes now target' := by
  unfold Passes
  rw [hmonth, h]

/-- **Readings of one target are judged alike unless they are parted.** -/
theorem beyond_congr_iff (hnow : now.Anchored) (htarget : target.Anchored)
    (htarget' : target'.Anchored) (h : target.instant = target'.instant) :
    (t.Beyond now target ↔ t.Beyond now target') ↔
      ¬(t.Parted now target target' ∨ t.Parted now target' target) := by
  have hparted {target target' : Moment} : t.Parted now target target' ↔
      (target.date.month.index : Int) = t.decisive now ∧
        ((target'.date.month.index : Int) = t.decisive now - 1 ∧ t.Passes now target ∨
          (target'.date.month.index : Int) = t.decisive now + 1 ∧ ¬t.Passes now target) :=
    ⟨fun ⟨hdecisive, hbeside⟩ => ⟨hdecisive, hbeside⟩, fun ⟨hdecisive, hbeside⟩ =>
      ⟨hdecisive, hbeside⟩⟩
  have hnear := month_le_succ h
  have hnear' := month_le_succ h.symm
  have hpasses : target.date.month.index ≠ target'.date.month.index ∨
      (t.Passes now target ↔ t.Passes now target') := by
    rw [or_iff_not_imp_left, not_not]
    exact fun hmonth => passes_congr (Month.eq_of_index hmonth) h
  rw [beyond_iff_decisive (hnow.comparable htarget), beyond_iff_decisive (hnow.comparable htarget'),
    hparted, hparted]
  by_cases hfirst : t.Passes now target <;> by_cases hsecond : t.Passes now target' <;>
    simp only [hfirst, hsecond, not_true, not_false_iff, and_true, and_false, iff_false, iff_true,
      or_false, false_or] at hpasses ⊢ <;> omega

end Terms

/-- **The horizon judges two readings of one target alike, exactly unless they are parted.** -/
theorem tooFar_respelled_iff {o : Occasion} (hnow : o.now.Anchored) {events : List Event}
    (hne : events ≠ []) (hevents : ∀ e ∈ events, e.effective.Anchored) (issued : List Invoice)
    {r r' : RunRequest} (htarget : r.target.Anchored) (htarget' : r'.target.Anchored)
    (hsame : r.target.instant = r'.target.instant) :
    (TooFar (o.run events issued r) ↔ TooFar (o.run events issued r')) ↔
      ¬(o.terms.Parted o.now r.target r'.target ∨ o.terms.Parted o.now r'.target r.target) := by
  have horderable := Event.orderable_of_anchored hevents
  rw [tooFar_run_iff, tooFar_run_iff, ← Terms.beyond_congr_iff hnow htarget htarget' hsame]
  simp only [hne, horderable, ne_eq, not_false_iff, true_and]

namespace Sample

theorem hour_bounded : -1440 < (-60 : Int) ∧ (-60 : Int) < 1440 := by decide

/-- What the clocks an hour west of UTC show, as a moment there. -/
def westward : Moment → Moment
  | ⟨date, clock, hclock, _⟩ => ⟨date, clock, hclock, some ⟨-60, hour_bounded⟩⟩

/-- Midnight of the first of a February three years ahead, in UTC and as it is read an hour west, on
the last of January. -/
def midnight : RunRequest := ⟨uuid 2, hour 2023 2 1 0, .text "USD"⟩

def midnightWest : RunRequest := ⟨uuid 2, westward (hour 2023 1 31 23), .text "USD"⟩

/-- At noon of New Year the target is not yet three years and a month ahead in either reading. -/
theorem not_parted_noon : ¬(Terms.standard.Parted (hour 2020 1 1 12) midnight.target
    midnightWest.target ∨ Terms.standard.Parted (hour 2020 1 1 12) midnightWest.target
      midnight.target) := by
  have hnot : ¬Terms.standard.Passes (hour 2020 1 1 12) midnight.target := by
    unfold Terms.Passes
    decide +kernel
  rintro (⟨-, hbeside⟩ | ⟨hdecisive, -⟩)
  · rcases hbeside with ⟨-, hpasses⟩ | ⟨hafter, -⟩
    · exact hnot hpasses
    · exact absurd hafter (by decide +kernel)
  · exact absurd hdecisive (by decide +kernel)

end Sample

open Sample in
/-- The readings fall into two months, and are judged alike. -/
theorem tooFar_respelled_noon :
    midnight.target.date.month ≠ midnightWest.target.date.month ∧
      (TooFar ((⟨.standard, hour 2020 1 1 12, uuid⟩ : Occasion).run [note] [] midnight) ↔
        TooFar ((⟨.standard, hour 2020 1 1 12, uuid⟩ : Occasion).run [note] [] midnightWest)) := by
  refine ⟨by decide +kernel, (tooFar_respelled_iff (by decide) (List.cons_ne_nil _ _) ?_ []
    (by decide) (by decide) (by decide +kernel)).mpr not_parted_noon⟩
  intro e he
  obtain rfl := List.mem_singleton.mp he
  decide

open Sample in
/-- At midnight of New Year the target is three years and a month ahead. Read in UTC it is refused;
read an hour west it is not. -/
theorem tooFar_midnight_only_in_utc :
    midnight.target.instant = midnightWest.target.instant ∧
      TooFar ((⟨.standard, hour 2020 1 1 0, uuid⟩ : Occasion).run [note] [] midnight) ∧
      ¬TooFar ((⟨.standard, hour 2020 1 1 0, uuid⟩ : Occasion).run [note] [] midnightWest) := by
  have hrefused : (⟨.standard, hour 2020 1 1 0, uuid⟩ : Occasion).run [note] [] midnight =
      .error (.horizon midnight.target 36) := by decide +kernel
  have hdone : (⟨.standard, hour 2020 1 1 0, uuid⟩ : Occasion).run [note] [] midnightWest =
      .ok none := by decide +kernel
  refine ⟨by decide +kernel, ⟨_, _, hrefused⟩, ?_⟩
  rintro ⟨target, months, h⟩
  rw [hdone] at h
  cases h

end BillRun
