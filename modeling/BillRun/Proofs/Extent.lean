import BillRun.Proofs.Proportion

/-! How much time a unit takes, and how much of a cycle it counts.

A unit lies within one full cycle and counts as the quotient of their days (`Span.PartOf`). Instants
tell where a unit lies, but calendar dates tell its days, each read in the offset of its own moment.
Where the stop of a stretch is recorded in the offset of its start, dates and instants go together:
a unit takes some time and counts at most one cycle. A stop in another offset may part them. It then
makes a unit that takes no time exactly when it comes at the instant of the start, and one that
counts more than a cycle exactly when it has more days (`Proration.unit_extent`). -/
namespace BillRun

open Calendar Moment

namespace Proration

variable {d : CycleDay} {start target : Moment} {stop : Option Moment} {period : Period}
  {units : List Span}

/-- A unit takes no time only when a stop comes at the instant of the start. -/
theorem instant_lt_iff (h : spans start stop target d.day period = .ok units) {s : Span}
    (hs : s ∈ units) (hle : s.start.instant ≤ s.stop.instant)
    (hdays : 0 < s.start.daysBetween s.stop) :
    s.start.instant < s.stop.instant ↔
      ¬(stop = some s.stop ∧ s.stop.instant = start.instant) := by
  obtain ⟨hstart, hafter, -, -⟩ := mem_spans h hs
  constructor
  · rintro hlt ⟨-, hsame⟩
    omega
  · intro hnot
    refine Int.not_le.mp fun hback => hnot ?_
    have hsame : s.stop.instant = s.start.instant := Int.le_antisymm hback hle
    have hparted : ¬s.stop.Aligned start := fun haligned =>
      absurd ((hstart.trans haligned.symm).daysBetween_pos.mp hdays) (Int.not_lt.mpr hback)
    obtain ⟨first, e, -, haligned, -, -, hend, -, hmonths, hcut⟩ := exists_stretch h
    obtain ⟨hfrom, hto⟩ := mem_cut hmonths hcut hs
    -- a unit that stops at a boundary is read in the offset of the start
    obtain rfl : s.stop = e := hto.resolve_right fun ⟨k, hk⟩ =>
      hparted ((Cycle.aligned_of_boundary hk).1.trans haligned)
    refine ⟨hend.resolve_left hparted, ?_⟩
    rcases hfrom with hfrom | ⟨k, -, hlt⟩
    · rw [hsame, hfrom]
    · omega

/-- **What a unit takes and counts.** It lies within a full cycle of the subscription and counts
more than nothing. It takes no time exactly when it ends with the stop at the instant of the start,
and counts at most one cycle exactly when it has no more days than the cycle. Neither happens unless
the unit ends with a stop in another offset than that of the start. -/
theorem unit_extent (h : spans start stop target d.day period = .ok units) {s : Span}
    (hs : s ∈ units) :
    ∃ first low high, firstDate start d.day = .ok first ∧
      (⟨first, period.months, d.day⟩ : Cycle).Full low high ∧ s.PartOf low high ∧
      0 < s.cycles.value ∧
      (s.start.instant < s.stop.instant ↔
        ¬(stop = some s.stop ∧ s.stop.instant = start.instant)) ∧
      (s.cycles.value ≤ 1 ↔ s.start.daysBetween s.stop ≤ low.daysBetween high) ∧
      ((stop = some s.stop → s.stop.offset = start.offset) →
        s.start.instant < s.stop.instant ∧ s.cycles.value ≤ 1) := by
  obtain ⟨first, low, high, hfirst, hfull, hlow, hhigh, hlt, hpart⟩ := exists_part h hs
  have hdays := hpart.days_pos
  have hlength := (hlow.trans hhigh.symm).daysBetween_pos.mpr hlt
  obtain ⟨hpos, hone⟩ := Decimal.ratio_days_le_one_iff hdays hlength
  rw [← hpart.cycles] at hpos hone
  refine ⟨first, low, high, hfirst, hfull, hpart, hpos,
    instant_lt_iff h hs hpart.start_le hdays, hone, fun hoffset => ?_⟩
  obtain ⟨hstart, -, -, hstop⟩ := mem_spans h hs
  have hend : s.stop.offset = start.offset := hstop.elim (·.offset) hoffset
  have hshare := hpart.shareOf (hlow.trans hstart.symm).offset (hend.trans hhigh.offset.symm)
  exact ⟨instant_lt_of_dayNumber (hstart.offset.trans hend.symm) (daysBetween_pos_iff.mp hdays),
    hone.mpr hshare.days_le⟩

end Proration

open Sample in
/-- The second half of January takes time, and is less than a cycle. -/
theorem unit_extent_evening :
    Proration.spans (hour 2023 1 15 12) (some (hour 2023 4 30 18)) (hour 2023 5 2 12) 31 .monthly =
        .ok untilEvening ∧
      ⟨hour 2023 1 15 12, hour 2023 1 31 12, .ratio 16 31⟩ ∈ untilEvening ∧
      0 < (Decimal.ratio 16 31).value ∧
      (hour 2023 1 15 12).instant < (hour 2023 1 31 12).instant ∧
      (Decimal.ratio 16 31).value ≤ 1 := by
  have hspans : Proration.spans (hour 2023 1 15 12) (some (hour 2023 4 30 18)) (hour 2023 5 2 12) 31
      .monthly = .ok untilEvening := by decide +kernel
  have hmem : (⟨hour 2023 1 15 12, hour 2023 1 31 12, .ratio 16 31⟩ : Span) ∈ untilEvening :=
    List.mem_cons_self
  obtain ⟨first, low, high, -, -, -, hpos, -, -, hsame⟩ :=
    Proration.unit_extent (d := ⟨31, by decide⟩) hspans hmem
  exact ⟨hspans, hmem, hpos, hsame fun _ => rfl⟩

namespace Sample

/-- What the clocks at an offset show, as a moment there. -/
def inOffset (offset : Offset) : Moment → Moment
  | ⟨date, clock, hclock, _⟩ => ⟨date, clock, hclock, some offset⟩

/-- Two hours before midnight of the tenth of January, two hours west of UTC. -/
def eve : Moment := inOffset ⟨-120, by decide⟩ (hour 2020 1 9 22)

/-- New Year twelve hours west of UTC, and the second of February fourteen hours east of it. -/
def farWest : Moment := inOffset ⟨-720, by decide⟩ (hour 2020 1 1 0)

def farEast : Moment := inOffset ⟨840, by decide⟩ (hour 2020 2 2 0)

end Sample

open Sample in
/-- Two hours before midnight in the west is midnight in UTC: a unit between the two has a day and
takes no time. In the far west the cycle of January goes on until noon of the first of February in
UTC: a unit that stops before that, but on the second of February in the far east, counts more than
a cycle. -/
theorem day_without_time :
    (Proration.spans eve (some (hour 2020 1 10 0)) (hour 2020 1 10 0) 15 .monthly =
        .ok [⟨eve, hour 2020 1 10 0, .ratio 1 31⟩] ∧
      ¬eve.instant < (hour 2020 1 10 0).instant) ∧
      Proration.spans farWest (some farEast) farEast 1 .monthly =
        .ok [⟨farWest, farEast, .ratio 32 31⟩] ∧
      ¬(Decimal.ratio 32 31).value ≤ 1 := by
  refine ⟨⟨by decide +kernel, by decide +kernel⟩, by decide +kernel, fun hle => ?_⟩
  exact absurd ((Decimal.ratio_le_one_iff (by decide) (by decide) (by decide)).2.mp hle) (by decide)

end BillRun
