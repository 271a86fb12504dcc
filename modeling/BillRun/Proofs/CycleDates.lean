import BillRun.Plan.Event
import BillRun.Proofs.Cutting

/-! Pieces as shares of cycles, and the pieces of a month day by day.

Every month has one cycle date, and the boundaries of a cycle fall on them. A piece lies within one
full cycle (`Proration.exists_part`) and, when its stretch keeps to one offset, is billed as its
share of that cycle's days (`Proration.exists_full_cycle`). If cycles take a month besides, the
pieces of a stretch tile its days (`Proration.tiles_spans`): no day is left out or billed twice,
although a piece that begins and ends on one date is dropped and every boundary has the time of day
of the start. -/
namespace BillRun

open Calendar Moment

/-! ### Cycle dates -/

/-- The cycle date of a month. -/
def CycleDay.on (d : CycleDay) (m : Month) : Date := .clamped m d.day d.bounds.1

theorem CycleDay.on_lt (d : CycleDay) {m n : Month} (h : m.index < n.index) :
    (d.on m).dayNumber < (d.on n).dayNumber := Date.dayNumber_lt h

theorem CycleDay.on_le (d : CycleDay) {m n : Month} (h : m.index ≤ n.index) :
    (d.on m).dayNumber ≤ (d.on n).dayNumber := by
  rcases Nat.lt_or_eq_of_le h with hlt | heq
  · exact Nat.le_of_lt (d.on_lt hlt)
  · exact Nat.le_of_eq (by rw [Month.eq_of_index heq])

theorem on_of_addMonthsOnDay {d : CycleDay} {t u : Moment} {count : Int}
    (h : t.addMonthsOnDay count d.day = .ok u) :
    ∃ m : Month, (m.index : Int) = t.date.month.index + count ∧ u.date = d.on m := by
  obtain ⟨m, hm, _, rfl⟩ := Moment.addMonthsOnDay_eq_ok.mp h
  exact ⟨m, Month.shift_eq_ok.mp hm, rfl⟩

/-- The first boundary falls on a cycle date, and the cycle dates before lie before the start. -/
theorem on_of_firstDate {d : CycleDay} {start first : Moment}
    (h : firstDate start d.day = .ok first) :
    ∃ m, first.date = d.on m ∧
      ∀ p : Month, p.index < m.index → (d.on p).dayNumber < start.date.dayNumber := by
  rcases firstDate_cases h with ⟨honDay, -⟩ | ⟨passed, honDay, hlt, hnext⟩
  · obtain ⟨_, rfl⟩ := Moment.onDay_eq_ok.mp honDay
    exact ⟨start.date.month, rfl, fun p hp => Date.dayNumber_lt hp⟩
  · obtain ⟨m, hm, hdate⟩ := on_of_addMonthsOnDay hnext
    have hpassed := (Moment.aligned_of_onDay honDay).1.instant_lt.mp hlt
    obtain ⟨_, rfl⟩ := Moment.onDay_eq_ok.mp honDay
    exact ⟨m, hdate, fun p hp => Nat.lt_of_le_of_lt (d.on_le (by omega)) hpassed⟩

/-- What lies months back from the first boundary lies before the start. -/
theorem lt_start_of_back {d : CycleDay} {start first b : Moment} {count : Int}
    (h : firstDate start d.day = .ok first) (hcount : count < 0)
    (hb : first.addMonthsOnDay count d.day = .ok b) : b.instant < start.instant := by
  obtain ⟨m, hdate, hearlier⟩ := on_of_firstDate h
  obtain ⟨p, hp, hon⟩ := on_of_addMonthsOnDay hb
  have hm : first.date.month = m := congrArg Date.month hdate
  rw [hm] at hp
  have hdays := hearlier p (by omega)
  rw [← hon] at hdays
  have haligned := (Moment.aligned_of_addMonthsOnDay hb).1.trans (aligned_of_firstDate h).1
  exact haligned.instant_lt.mpr hdays

/-- The cycle has a month, begins on the cycle date of `m`, and keeps to the cycle day. -/
structure Cycle.Monthly (c : Cycle) (d : CycleDay) (m : Month) : Prop where
  months : c.months = 1
  day : c.day = d.day
  first : c.first.date = d.on m

namespace Cycle.Monthly

variable {c : Cycle} {d : CycleDay} {m : Month}

theorem month (hc : c.Monthly d m) : c.first.date.month = m := by
  rw [hc.first]
  rfl

theorem on_of_boundary (hc : c.Monthly d m) {k : Nat} {b : Moment} (h : c.boundary k = .ok b) :
    ∃ n : Month, n.index = m.index + k ∧ b.date = d.on n := by
  cases k with
  | zero =>
    cases h
    exact ⟨m, rfl, hc.first⟩
  | succ k =>
    unfold Cycle.boundary at h
    rw [hc.day, hc.months] at h
    obtain ⟨n, hn, hdate⟩ := on_of_addMonthsOnDay h
    rw [hc.month] at hn
    exact ⟨n, by omega, hdate⟩

theorem on_of_previous (hc : c.Monthly d m) {b : Moment}
    (h : c.first.addMonthsOnDay (-c.months) c.day = .ok b) :
    ∃ p : Month, p.index + 1 = m.index ∧ b.date = d.on p := by
  rw [hc.day, hc.months] at h
  obtain ⟨p, hp, hdate⟩ := on_of_addMonthsOnDay h
  rw [hc.month] at hp
  exact ⟨p, by omega, hdate⟩

end Cycle.Monthly

/-! ### The full cycle of a piece -/

/-- Two boundaries that follow on each other, the one before the first included. -/
inductive Cycle.Full (c : Cycle) : Moment → Moment → Prop
  | before {low : Moment} : c.first.addMonthsOnDay (-c.months) c.day = .ok low → Full c low c.first
  | onward {k : Nat} {low high : Moment} : c.boundary k = .ok low →
      c.boundary (k + 1) = .ok high → Full c low high

theorem Cycle.Full.aligned {c : Cycle} (hmonths : 0 < c.months) {low high : Moment}
    (h : c.Full low high) :
    low.Aligned c.first ∧ high.Aligned c.first ∧ low.instant < high.instant := by
  cases h with
  | before hlow =>
    obtain ⟨haligned, hmonth⟩ := Moment.aligned_of_addMonthsOnDay hlow
    exact ⟨haligned, .refl _, haligned.instant_lt_of_month (by omega)⟩
  | onward hlow hhigh =>
    exact ⟨(Cycle.aligned_of_boundary hlow).1, (Cycle.aligned_of_boundary hhigh).1,
      Cycle.boundary_lt hmonths hlow hhigh (Nat.lt_succ_self _)⟩

/-- The piece lies within the full cycle, as instants go, and is billed by their days. -/
structure Span.PartOf (s : Span) (low high : Moment) : Prop where
  low_le : low.instant ≤ s.start.instant
  start_le : s.start.instant ≤ s.stop.instant
  le_high : s.stop.instant ≤ high.instant
  days_pos : 0 < s.start.daysBetween s.stop
  cycles : s.cycles = .ratio (s.start.daysBetween s.stop).toNat (low.daysBetween high).toNat

/-- The piece lies within the full cycle and is billed as its share of it. -/
structure Span.ShareOf (s : Span) (low high : Moment) : Prop where
  low_le : low.date.dayNumber ≤ s.start.date.dayNumber
  days_pos : 0 < s.start.daysBetween s.stop
  le_high : s.stop.date.dayNumber ≤ high.date.dayNumber
  cycles : s.cycles = .ratio (s.start.daysBetween s.stop).toNat (low.daysBetween high).toNat

theorem Span.ShareOf.days_le {s : Span} {low high : Moment} (h : s.ShareOf low high) :
    s.start.daysBetween s.stop ≤ low.daysBetween high := by
  have hlow := h.low_le
  have hhigh := h.le_high
  unfold daysBetween
  omega

/-- In one offset, instants lie within a cycle as dates do. -/
theorem Span.PartOf.shareOf {s : Span} {low high : Moment} (h : s.PartOf low high)
    (hlow : low.offset = s.start.offset) (hhigh : s.stop.offset = high.offset) :
    s.ShareOf low high :=
  ⟨dayNumber_le hlow h.low_le, h.days_pos, dayNumber_le hhigh h.le_high, h.cycles⟩

namespace Decimal

theorem stripFraction_powerOfTen (places : Nat) :
    stripFraction (Text.powerOfTen places) places = one := by
  induction places with
  | zero => rfl
  | succ places ih =>
    rw [Text.powerOfTen_succ, stripFraction, if_pos (by omega),
      Nat.mul_div_cancel_left _ (by decide), ih]

/-- A whole cycle is one cycle, exactly. -/
theorem ratio_self {n : Nat} (h : 0 < n) : ratio n n = one := by
  have hplaces : precision + Text.digitCount n - Text.digitCount n = precision :=
    Nat.add_sub_cancel ..
  unfold ratio
  rw [if_neg (by omega)]
  simp only [hplaces, Nat.mul_mod_right, if_true, Nat.mul_div_cancel_left _ h]
  exact stripFraction_powerOfTen _

end Decimal

namespace Proration

variable {c : Cycle} {start e : Moment}

theorem partOf_leading (hle : start.instant ≤ e.instant)
    (hprevious : ∀ b, c.first.addMonthsOnDay (-c.months) c.day = .ok b →
      b.instant ≤ start.instant) {before : List Span} (h : leading c start e = .ok before)
    {s : Span} (hs : s ∈ before) : ∃ low high, c.Full low high ∧ s.PartOf low high := by
  rcases leading_cases h with rfl | ⟨pieceEnd, previous, hlt, -, hend, hdays, hlow, rfl⟩
  · cases hs
  · obtain rfl := List.mem_singleton.mp hs
    have hstart : start.instant ≤ pieceEnd.instant := by omega
    have hstop : pieceEnd.instant ≤ c.first.instant := by omega
    exact ⟨previous, c.first, .before hlow, hprevious previous hlow, hstart, hstop, hdays, rfl⟩

theorem partOf_wholeCycle (hmonths : 0 < c.months) {k : Nat} {s : Span}
    (h : wholeCycle c k = .ok s) : c.Full s.start s.stop ∧ s.PartOf s.start s.stop := by
  obtain ⟨hlow, hhigh, hone⟩ := wholeCycle_eq_ok.mp h
  have hfull : c.Full s.start s.stop := .onward hlow hhigh
  obtain ⟨hstart, hstop, hlt⟩ := hfull.aligned hmonths
  have hpos := (hstart.trans hstop.symm).daysBetween_pos.mpr hlt
  refine ⟨hfull, Int.le_refl _, Int.le_of_lt hlt, Int.le_refl _, hpos, ?_⟩
  rw [hone, Decimal.ratio_self (by omega)]

theorem partOf_trailing {k : Nat} {next : Moment} (hnext : c.boundary (k + 1) = .ok next)
    (hlt : e.instant < next.instant) {after : List Span} (h : trailing c k e = .ok after) {s : Span}
    (hs : s ∈ after) : ∃ low high, c.Full low high ∧ s.PartOf low high := by
  obtain ⟨last, hlast, rfl | ⟨next', hstart, hdays, hnext', rfl⟩⟩ := trailing_cases h
  · cases hs
  · obtain rfl := Except.ok.inj (hnext.symm.trans hnext')
    obtain rfl := List.mem_singleton.mp hs
    exact ⟨last, next, .onward hlast hnext, Int.le_refl _, Int.le_of_lt hstart, Int.le_of_lt hlt,
      hdays, rfl⟩

variable {d : CycleDay} {target : Moment} {stop : Option Moment} {period : Period}
  {pieces : List Span}

/-- Every piece is a part of a full cycle that begins at a boundary before it, or at the one before
the first. -/
theorem exists_part (h : spans start stop target d.day period = .ok pieces) {s : Span}
    (hs : s ∈ pieces) :
    ∃ first low high, firstDate start d.day = .ok first ∧
      (⟨first, period.months, d.day⟩ : Cycle).Full low high ∧ low.Aligned start ∧
      high.Aligned start ∧ low.instant < high.instant ∧ s.PartOf low high := by
  obtain ⟨first, e, hfirst, haligned, -, -, -, hstart, hmonths, hcut⟩ := exists_stretch h
  have hprevious (b : Moment) (hb : first.addMonthsOnDay (-period.months) d.day = .ok b) :
      b.instant ≤ start.instant := Int.le_of_lt (lt_start_of_back hfirst (by omega) hb)
  have hpart : ∃ low high, (⟨first, period.months, d.day⟩ : Cycle).Full low high ∧
      s.PartOf low high := by
    obtain ⟨before, count, cycles, after, hbefore, hcount, hcycles, hafter, rfl⟩ := cut_eq_ok.mp hcut
    obtain ⟨next, hnext, hlate⟩ := (Cycle.past_of_pastFrom hcount).after
    rw [List.mem_append, List.mem_append] at hs
    rcases hs with (hs | hs) | hs
    · exact partOf_leading (c := ⟨first, period.months, d.day⟩) hstart hprevious hbefore hs
    · obtain ⟨k, -, hk⟩ := exists_of_mem_right (mapM_eq_ok.mp hcycles) hs
      exact ⟨s.start, s.stop, partOf_wholeCycle hmonths hk⟩
    · exact partOf_trailing hnext hlate hafter hs
  obtain ⟨low, high, hfull, hpart⟩ := hpart
  obtain ⟨hlow, hhigh, hlt⟩ := hfull.aligned hmonths
  exact ⟨first, low, high, hfirst, hfull, hlow.trans haligned, hhigh.trans haligned, hlt, hpart⟩

/-- **Every piece is a share of a full cycle that it lies in.** -/
theorem exists_full_cycle (hoffset : ∀ t, stop = some t → t.offset = start.offset)
    (h : spans start stop target d.day period = .ok pieces) {s : Span} (hs : s ∈ pieces) :
    ∃ first low high, firstDate start d.day = .ok first ∧
      (⟨first, period.months, d.day⟩ : Cycle).Full low high ∧ s.ShareOf low high := by
  obtain ⟨first, low, high, hfirst, hfull, hlow, hhigh, -, hpart⟩ := exists_part h hs
  obtain ⟨hstart, -, -, hstop⟩ := mem_spans h hs
  have hend : s.stop.offset = start.offset := hstop.elim (·.offset) (hoffset s.stop)
  exact ⟨first, low, high, hfirst, hfull,
    hpart.shareOf (hlow.trans hstart.symm).offset (hend.trans hhigh.offset.symm)⟩

end Proration

/-! ### Days of a month's cycle -/

/-- The piece lies within the cycle from one month's cycle date to the next, and counts as its share
of the days of that cycle. -/
structure Span.Shares (s : Span) (d : CycleDay) (m n : Month) : Prop where
  next : n.index = m.index + 1
  start_ge : (d.on m).dayNumber ≤ s.start.date.dayNumber
  start_lt : s.start.date.dayNumber < s.stop.date.dayNumber
  stop_le : s.stop.date.dayNumber ≤ (d.on n).dayNumber
  cycles : s.cycles = .ratio (s.start.daysBetween s.stop).toNat
    ((d.on n).dayNumber - (d.on m).dayNumber)

/-- With cycles of a month, a share of a full cycle is a share of a month's. -/
theorem Cycle.Monthly.shares {c : Cycle} {d : CycleDay} {m : Month} (hc : c.Monthly d m)
    {low high : Moment} (hfull : c.Full low high) {s : Span} (h : s.ShareOf low high) :
    ∃ p q, s.Shares d p q := by
  obtain ⟨p, q, hnext, hlow, hhigh⟩ : ∃ p q : Month, q.index = p.index + 1 ∧
      low.date = d.on p ∧ high.date = d.on q := by
    cases hfull with
    | before hlow =>
      obtain ⟨p, hp, hdate⟩ := hc.on_of_previous hlow
      exact ⟨p, m, hp.symm, hdate, hc.first⟩
    | onward hlow hhigh =>
      obtain ⟨p, hp, hlowDate⟩ := hc.on_of_boundary hlow
      obtain ⟨q, hq, hhighDate⟩ := hc.on_of_boundary hhigh
      exact ⟨p, q, by omega, hlowDate, hhighDate⟩
  obtain ⟨hstart, hdays, hstop, hcycles⟩ := h
  rw [hlow] at hstart
  rw [hhigh] at hstop
  refine ⟨p, q, hnext, hstart, daysBetween_pos_iff.mp hdays, hstop, ?_⟩
  have hlength : (low.daysBetween high).toNat = (d.on q).dayNumber - (d.on p).dayNumber := by
    unfold Moment.daysBetween
    rw [hlow, hhigh]
    omega
  rw [hcycles, hlength]

/-- The pieces follow on each other from one day to another. -/
inductive Tiles : Nat → List Span → Nat → Prop
  | nil (day : Nat) : Tiles day [] day
  | cons {s : Span} {rest : List Span} {last : Nat} : Tiles s.stop.date.dayNumber rest last →
      Tiles s.start.date.dayNumber (s :: rest) last

theorem Tiles.eq_of_nil {first last : Nat} (h : Tiles first [] last) : first = last := by
  cases h
  rfl

theorem Tiles.last_eq {first last : Nat} {pieces : List Span} (h : Tiles first pieces last)
    {s : Span} (hs : pieces.getLast? = some s) : last = s.stop.date.dayNumber := by
  induction h with
  | nil => cases hs
  | @cons t rest last hrest ih =>
    cases rest with
    | nil =>
      cases hs
      exact hrest.eq_of_nil.symm
    | cons u rest => exact ih (by simpa using hs)

theorem Tiles.append {first mid last : Nat} {a b : List Span} (h : Tiles first a mid)
    (h' : Tiles mid b last) : Tiles first (a ++ b) last := by
  induction h with
  | nil => exact h'
  | cons _ ih => exact .cons (ih h')

theorem tiles_of_bounds {pieces : List Span} {start : Moment} {ends : List Moment}
    (h : pieces.map Span.bounds = piecesTo start ends) :
    Tiles start.date.dayNumber pieces (ends.getLastD start).date.dayNumber := by
  induction ends generalizing start pieces with
  | nil =>
    obtain rfl := List.map_eq_nil_iff.mp h
    exact .nil _
  | cons next ends ih =>
    cases pieces with
    | nil => cases h
    | cons s rest =>
      obtain ⟨hs, hrest⟩ := List.cons.inj h
      obtain ⟨rfl, rfl⟩ := Prod.mk.inj hs
      rw [List.getLastD_cons]
      exact .cons (ih hrest)

/-- The pieces of an event that is billed by the month tile the days up to where its stretch ends,
and that is at the stop once the target has reached it. -/
theorem Proration.tiles_spans {d : CycleDay} {start target : Moment} {stop : Option Moment}
    {pieces : List Span} (hoffset : ∀ t, stop = some t → t.offset = start.offset)
    (h : spans start stop target d.day .monthly = .ok pieces) : ∃ e,
      Tiles start.date.dayNumber pieces e.date.dayNumber ∧ (∀ s ∈ pieces, ∃ m n, s.Shares d m n) ∧
        ∀ t, stop = some t → t.instant ≤ target.instant → e = t := by
  obtain ⟨first, e, hfirst, haligned, hle, hends, hend, hstart, hmonths, hcut⟩ :=
    stretch_of_spans hoffset h
  obtain ⟨marks, hmarks⟩ :=
    exists_marked (c := ⟨first, Period.monthly.months, d.day⟩) hmonths haligned hle hend hstart hcut
  refine ⟨e, ?_, fun s hs => ?_, ?_⟩
  · have htiles := tiles_of_bounds (hmarks.bounds.trans (piecesTo_stub ..))
    split at htiles
    · rename_i hsame
      rwa [hsame] at htiles
    · rwa [List.getLastD_concat] at htiles
  · obtain ⟨first', low, high, hfirst', hfull, hshare⟩ := exists_full_cycle hoffset h hs
    obtain ⟨m, hdate, -⟩ := on_of_firstDate hfirst'
    have hc : Cycle.Monthly ⟨first', Period.monthly.months, d.day⟩ d m := ⟨rfl, rfl, hdate⟩
    exact hc.shares hfull hshare
  · intro t ht hle
    subst ht
    cases hends with
    | stopped => rfl
    | capped hlt => omega

end BillRun
