import BillRun.Proofs.Pieces
import BillRun.Proofs.Running
import Mathlib.Data.List.Chain

/-! The pieces of a stretch are what the cycle boundaries within it cut it into.

A stretch ends at the first of its stop and the boundaries after the target (`Cycle.EndsFirst`), and
it is cut at the boundaries strictly between its start and its end (`Cycle.Cuts`). `piecesTo` lists
the pieces between consecutive cuts. The pieces that are billed are these, up to the end of the
stretch; the last of them is left out exactly when it begins and ends on one date (`spans_cut`).
Nothing depends on the period or on how short months move their boundaries, only on the order of the
boundaries and on their one time of day. -/
namespace BillRun

open Calendar

/-! ### Dates and instants in one offset -/

namespace Calendar

theorem Date.eq_of_dayNumber {a b : Date} (h : a.dayNumber = b.dayNumber) : a = b :=
  Option.some.inj (by rw [← ofDayNumber?_dayNumber a, h, ofDayNumber?_dayNumber])

namespace Moment

theorem dayNumber_le {s t : Moment} (hoffset : s.offset = t.offset) (h : s.instant ≤ t.instant) :
    s.date.dayNumber ≤ t.date.dayNumber := by
  have hminutes : s.offsetMinutes = t.offsetMinutes := by simp only [offsetMinutes, hoffset]
  have hclock := t.clock_lt
  simp only [instant, localCount, hminutes, dayLength] at h hclock
  omega

theorem instant_lt_of_dayNumber {s t : Moment} (hoffset : s.offset = t.offset)
    (h : s.date.dayNumber < t.date.dayNumber) : s.instant < t.instant := by
  refine Int.not_le.mp fun hle => ?_
  have := dayNumber_le hoffset.symm hle
  omega

theorem eq_of_instant {s t : Moment} (hoffset : s.offset = t.offset)
    (h : s.instant = t.instant) : s = t := by
  have hminutes : s.offsetMinutes = t.offsetMinutes := by simp only [offsetMinutes, hoffset]
  have hcount : s.localCount = t.localCount := by
    simp only [instant, hminutes] at h
    omega
  have hread : some s = some t := by
    rw [← ofLocalCount?_localCount s s.offset, ← ofLocalCount?_localCount t t.offset, hcount,
      hoffset]
  exact Option.some.inj hread

theorem daysBetween_pos {s t : Moment} (hoffset : s.offset = t.offset)
    (hle : s.instant ≤ t.instant) : 0 < s.daysBetween t ↔ s.date ≠ t.date := by
  have hdays := dayNumber_le hoffset hle
  have hsame : s.date = t.date ↔ s.date.dayNumber = t.date.dayNumber :=
    ⟨congrArg Date.dayNumber, Date.eq_of_dayNumber⟩
  unfold daysBetween
  rw [ne_eq, hsame]
  omega

theorem Aligned.date_ne {s t : Moment} (h : Aligned s t) (hlt : s.instant < t.instant) :
    s.date ≠ t.date := by
  intro hsame
  have hdays := h.instant_lt.mp hlt
  rw [hsame] at hdays
  exact Nat.lt_irrefl _ hdays

end Moment

end Calendar

open Moment

/-! ### Cuts -/

/-- Where a piece starts and where it stops. -/
def Span.bounds (s : Span) : Moment × Moment := (s.start, s.stop)

/-- The pieces from a start to the cuts after it, each up to the next cut. -/
def piecesTo (start : Moment) : List Moment → List (Moment × Moment)
  | [] => []
  | cut :: cuts => (start, cut) :: piecesTo cut cuts

theorem piecesTo_concat (start : Moment) (cuts : List Moment) (last : Moment) :
    piecesTo start (cuts ++ [last]) = piecesTo start cuts ++ [(cuts.getLastD start, last)] := by
  induction cuts generalizing start with
  | nil => rfl
  | cons cut cuts ih =>
    rw [List.cons_append, piecesTo, ih, piecesTo, List.cons_append, List.getLastD_cons]

/-- Each piece starts where the one before it stops. -/
theorem isChain_piecesTo (start : Moment) (cuts : List Moment) :
    (piecesTo start cuts).IsChain fun a b => a.2 = b.1 := by
  induction cuts generalizing start with
  | nil => exact .nil
  | cons cut cuts ih =>
    cases cuts with
    | nil => exact .singleton _
    | cons next cuts => exact .cons_cons rfl (ih cut)

theorem lt_of_mem_piecesTo {start : Moment} {cuts : List Moment}
    (h : (start :: cuts).Pairwise fun a b => a.instant < b.instant) {a b : Moment}
    (hpiece : (a, b) ∈ piecesTo start cuts) : a.instant < b.instant := by
  induction cuts generalizing start with
  | nil => cases hpiece
  | cons cut cuts ih =>
    obtain ⟨hstart, hcuts⟩ := List.pairwise_cons.mp h
    rcases List.mem_cons.mp hpiece with hfirst | hlater
    · cases hfirst
      exact hstart _ List.mem_cons_self
    · exact ih hcuts hlater

namespace Cycle

variable {c : Cycle} {target start e : Moment} {stop : Option Moment}

/-- The end is the earlier of the stop and the least boundary after the target. -/
structure EndsFirst (c : Cycle) (target : Moment) (stop : Option Moment) (e : Moment) : Prop where
  mem : stop = some e ∨ (∃ k, c.boundary k = .ok e) ∧ target.instant < e.instant
  le_stop : ∀ t, stop = some t → e.instant ≤ t.instant
  le_boundary : ∀ k b, c.boundary k = .ok b → target.instant < b.instant → e.instant ≤ b.instant

theorem Past.le_of_after {k : Nat} {b : Moment} (h : c.Past target 0 k)
    (hb : c.boundary k = .ok b) (hmonths : 0 < c.months) {j : Nat} {b' : Moment}
    (hb' : c.boundary j = .ok b') (hafter : target.instant < b'.instant) :
    b.instant ≤ b'.instant := by
  refine boundary_le hmonths hb hb' (Nat.le_of_not_lt fun hlt => ?_)
  have := (h.le_limit_iff hmonths hb' (Nat.zero_le j)).mpr hlt
  omega

theorem Past.after_of_boundary {k : Nat} {b : Moment} (h : c.Past target 0 k)
    (hb : c.boundary k = .ok b) : target.instant < b.instant := by
  obtain ⟨b', hb', hafter⟩ := h.after
  obtain rfl := Except.ok.inj (hb.symm.trans hb')
  exact hafter

theorem EndsAt.endsFirst (h : c.EndsAt target stop e) (hmonths : 0 < c.months) :
    c.EndsFirst target stop e := by
  cases h with
  | stopped hle =>
    refine ⟨.inl rfl, fun t ht => ?_, fun k b _ hafter => by omega⟩
    obtain rfl := Option.some.inj ht
    exact Int.le_refl _
  | «open» hpast hb =>
    exact ⟨.inr ⟨⟨_, hb⟩, hpast.after_of_boundary hb⟩,
      fun t ht => absurd ht (Option.some_ne_none t).symm,
      fun _ _ hb' hafter => hpast.le_of_after hb hmonths hb' hafter⟩
  | @capped k b t hlt hpast hb =>
    have hleast {j : Nat} {b' : Moment} (hb' : c.boundary j = .ok b')
        (hafter : target.instant < b'.instant) : b.instant ≤ b'.instant :=
      hpast.le_of_after hb hmonths hb' hafter
    split
    · refine ⟨.inl rfl, fun u hu => ?_, fun j b' hb' hafter => ?_⟩
      · obtain rfl := Option.some.inj hu
        exact Int.le_refl _
      · have := hleast hb' hafter
        omega
    · refine ⟨.inr ⟨⟨k, hb⟩, hpast.after_of_boundary hb⟩, fun u hu => ?_,
        fun j b' hb' hafter => hleast hb' hafter⟩
      obtain rfl := Option.some.inj hu
      omega

/-- The cuts of a stretch: the boundaries strictly within it, in order. -/
structure Cuts (c : Cycle) (start e : Moment) (cuts : List Moment) : Prop where
  mem_iff : ∀ b, b ∈ cuts ↔
    (∃ k, c.boundary k = .ok b) ∧ start.instant < b.instant ∧ b.instant < e.instant
  increasing : cuts.Pairwise fun a b => a.instant < b.instant

end Cycle

/-! ### The pieces that are billed -/

namespace Proration

variable {c : Cycle} {start e : Moment}

/-- The last part of a stretch, unless it begins and ends on one date. -/
def stub (start stop : Moment) : List (Moment × Moment) :=
  if start.date = stop.date then [] else [(start, stop)]

theorem piecesTo_stub (start : Moment) (cuts : List Moment) (e : Moment) :
    piecesTo start cuts ++ stub (cuts.getLastD start) e =
      piecesTo start (if (cuts.getLastD start).date = e.date then cuts else cuts ++ [e]) := by
  unfold stub
  split
  · exact List.append_nil _
  · exact (piecesTo_concat ..).symm

/-- A part is dropped by its days, and so by its dates. -/
theorem bounds_eq_stub (hoffset : start.offset = e.offset) (hle : start.instant ≤ e.instant)
    {pieces : List Span}
    (hbilled : 0 < start.daysBetween e → pieces.map Span.bounds = [(start, e)])
    (hdropped : ¬0 < start.daysBetween e → pieces = []) : pieces.map Span.bounds = stub start e := by
  unfold stub
  split
  · rename_i hsame
    rw [hdropped fun hdays => (daysBetween_pos hoffset hle).mp hdays hsame]
    rfl
  · exact hbilled ((daysBetween_pos hoffset hle).mpr ‹_›)

theorem bounds_leading_early (hearly : e.instant < c.first.instant) (hoffset : start.offset = e.offset)
    (hle : start.instant ≤ e.instant) {before : List Span} (h : leading c start e = .ok before) :
    before.map Span.bounds = stub start e := by
  obtain ⟨-, h⟩ := leading_eq_ok.mp h
  rw [if_pos (by omega)] at h
  obtain ⟨pieceEnd, hend, h⟩ := h
  obtain ⟨-, rfl⟩ := earlier_eq_ok.mp hend
  rw [if_pos hearly] at h
  refine bounds_eq_stub hoffset hle (fun hdays => ?_) fun hdays => ?_
  · rw [if_pos hdays] at h
    obtain ⟨previous, -, rfl⟩ := h
    rfl
  · rwa [if_neg hdays] at h

/-- Once the first boundary is reached, the piece before it is cut there. -/
theorem bounds_leading (haligned : c.first.Aligned start) (hlate : c.first.instant ≤ e.instant)
    {before : List Span} (h : leading c start e = .ok before) :
    before.map Span.bounds =
      if start.instant < c.first.instant then [(start, c.first)] else [] := by
  obtain ⟨-, h⟩ := leading_eq_ok.mp (leading_of_first_le hlate h)
  split at h
  · rename_i hlt
    obtain ⟨pieceEnd, hend, h⟩ := h
    obtain ⟨-, rfl⟩ := Moment.earlier_eq_ok.mp hend
    rw [ite_self, if_pos ((daysBetween_pos haligned.symm.offset (Int.le_of_lt hlt)).mpr
      (haligned.symm.date_ne hlt))] at h
    obtain ⟨previous, -, rfl⟩ := h
    rw [if_pos hlt]
    rfl
  · subst h
    rw [if_neg ‹_›]
    rfl

theorem bounds_trailing {k : Nat} {last : Moment} (hlast : c.boundary k = .ok last)
    (hoffset : last.offset = e.offset) (hle : last.instant ≤ e.instant) {after : List Span}
    (h : trailing c k e = .ok after) : after.map Span.bounds = stub last e := by
  obtain ⟨last', hlast', -, h⟩ := trailing_eq_ok.mp h
  obtain rfl := Except.ok.inj (hlast.symm.trans hlast')
  refine bounds_eq_stub hoffset hle (fun hdays => ?_) fun hdays => ?_
  · have hlt : last.instant < e.instant :=
      instant_lt_of_dayNumber hoffset (daysBetween_pos_iff.mp hdays)
    rw [if_pos hlt, if_pos hdays] at h
    obtain ⟨next, -, rfl⟩ := h
    rfl
  · rwa [if_neg hdays, ite_self] at h

/-- The whole cycles are the pieces up to their own ends, which are the boundaries after the first,
in order. -/
structure WholeTo (c : Cycle) (count : Nat) (cycles : List Span) (ends : List Moment) : Prop where
  bounds : cycles.map Span.bounds = piecesTo c.first ends
  last : c.boundary count = .ok (ends.getLastD c.first)
  mem_iff : ∀ b, b ∈ ends ↔ ∃ k, 1 ≤ k ∧ k ≤ count ∧ c.boundary k = .ok b
  increasing : ends.Pairwise fun a b => a.instant < b.instant

/-- The boundaries after the start and up to the end, in order, and the pieces they make. -/
structure Marked (c : Cycle) (start e : Moment) (pieces : List Span) (marks : List Moment) :
    Prop where
  mem_iff : ∀ b, b ∈ marks ↔
    (∃ k, c.boundary k = .ok b) ∧ start.instant < b.instant ∧ b.instant ≤ e.instant
  increasing : marks.Pairwise fun a b => a.instant < b.instant
  bounds : pieces.map Span.bounds = piecesTo start marks ++ stub (marks.getLastD start) e

variable (hmonths : 0 < c.months)
include hmonths

theorem exists_wholeTo {count : Nat} {cycles : List Span}
    (h : (List.range count).mapM (wholeCycle c) = .ok cycles) :
    ∃ ends, WholeTo c count cycles ends := by
  induction count generalizing cycles with
  | zero =>
    cases h
    exact ⟨[], rfl, rfl, fun b => ⟨fun hb => absurd hb List.not_mem_nil, fun ⟨k, hk⟩ => by omega⟩,
      .nil⟩
  | succ count ih =>
    obtain ⟨before, s, hbefore, hs, rfl⟩ := wholeCycles_succ h
    obtain ⟨hlow, hhigh, -⟩ := wholeCycle_eq_ok.mp hs
    obtain ⟨ends, hends⟩ := ih hbefore
    have hstart : s.start = ends.getLastD c.first := Except.ok.inj (hlow.symm.trans hends.last)
    refine ⟨ends ++ [s.stop], ?_, ?_, fun b => ?_, ?_⟩
    · rw [List.map_append, hends.bounds, piecesTo_concat, ← hstart]
      rfl
    · rw [List.getLastD_concat, hhigh]
    · rw [List.mem_append, hends.mem_iff, List.mem_singleton]
      constructor
      · rintro (⟨k, hpos, hle, hk⟩ | rfl)
        · exact ⟨k, hpos, Nat.le_succ_of_le hle, hk⟩
        · exact ⟨count + 1, by omega, Nat.le_refl _, hhigh⟩
      · rintro ⟨k, hpos, hle, hk⟩
        rcases Nat.le_succ_iff.mp hle with hle | rfl
        · exact .inl ⟨k, hpos, hle, hk⟩
        · exact .inr (Except.ok.inj (hk.symm.trans hhigh))
    · refine List.pairwise_append.mpr ⟨hends.increasing, List.pairwise_singleton _ _,
        fun a ha b hb => ?_⟩
      obtain rfl := List.mem_singleton.mp hb
      obtain ⟨k, -, hle, hk⟩ := (hends.mem_iff a).mp ha
      exact Cycle.boundary_lt hmonths hk hhigh (Nat.lt_succ_of_le hle)

/-- The piece before the first boundary comes before those from there on. -/
theorem Marked.cons {rest : List Span} {marks : List Moment}
    (h : Marked c c.first e rest marks) (hlt : start.instant < c.first.instant)
    (hlate : c.first.instant ≤ e.instant) {before : List Span}
    (hbefore : before.map Span.bounds = [(start, c.first)]) :
    Marked c start e (before ++ rest) (c.first :: marks) := by
  refine ⟨fun b => ?_, List.pairwise_cons.mpr ⟨fun b hb => ((h.mem_iff b).mp hb).2.1, h.increasing⟩,
    ?_⟩
  · rw [List.mem_cons, h.mem_iff]
    constructor
    · rintro (rfl | ⟨hb, hfirst, hbe⟩)
      · exact ⟨⟨0, rfl⟩, hlt, hlate⟩
      · exact ⟨hb, Int.lt_trans hlt hfirst, hbe⟩
    · rintro ⟨⟨k, hb⟩, -, hbe⟩
      cases k with
      | zero => exact .inl (Except.ok.inj hb).symm
      | succ k => exact .inr ⟨⟨k + 1, hb⟩, Cycle.boundary_lt hmonths rfl hb k.succ_pos, hbe⟩
  · rw [List.map_append, hbefore, h.bounds, List.getLastD_cons]
    rfl

/-- From the first boundary on, the pieces are the whole cycles and what is left after them. -/
theorem exists_marked_first (hoffset : c.first.offset = e.offset)
    (hlate : c.first.instant ≤ e.instant) {count : Nat} {cycles after : List Span}
    (hpast : c.Past e 1 (count + 1)) (hcycles : (List.range count).mapM (wholeCycle c) = .ok cycles)
    (hafter : trailing c count e = .ok after) :
    ∃ marks, Marked c c.first e (cycles ++ after) marks := by
  obtain ⟨ends, hends⟩ := exists_wholeTo hmonths hcycles
  have hreach := hpast.last_le hmonths hlate hends.last
  have hlast := (Cycle.aligned_of_boundary hends.last).1.offset.trans hoffset
  refine ⟨ends, fun b => ⟨fun hb => ?_, ?_⟩, hends.increasing, ?_⟩
  · obtain ⟨k, hpos, hle, hk⟩ := (hends.mem_iff b).mp hb
    exact ⟨⟨k, hk⟩, Cycle.boundary_lt hmonths rfl hk hpos,
      (hpast.le_limit_iff hmonths hk hpos).mpr (Nat.lt_succ_of_le hle)⟩
  · rintro ⟨⟨k, hk⟩, hlt, hbe⟩
    have hpos : 1 ≤ k := Cycle.lt_of_boundary_lt hmonths rfl hk hlt
    exact (hends.mem_iff b).mpr
      ⟨k, hpos, Nat.le_of_lt_succ ((hpast.le_limit_iff hmonths hk hpos).mp hbe), hk⟩
  · rw [List.map_append, hends.bounds, bounds_trailing hends.last hlast hreach hafter]

theorem exists_marked (haligned : c.first.Aligned start)
    (hfirst : start.instant ≤ c.first.instant) (hoffset : e.offset = start.offset)
    (hle : start.instant ≤ e.instant) {pieces : List Span} (h : cut c start e = .ok pieces) :
    ∃ marks, Marked c start e pieces marks := by
  by_cases hearly : e.instant < c.first.instant
  · refine ⟨[], fun b => ⟨fun hb => absurd hb List.not_mem_nil, ?_⟩, .nil, ?_⟩
    · rintro ⟨⟨k, hb⟩, -, hbe⟩
      have := Cycle.boundary_le hmonths rfl hb (Nat.zero_le k)
      omega
    · rw [bounds_leading_early hearly hoffset.symm hle (leading_of_cut hmonths hearly h)]
      rfl
  · have hlate := Int.not_lt.mp hearly
    obtain ⟨before, count, cycles, after, hbefore, hcount, hcycles, hafter, rfl⟩ := cut_eq_ok.mp h
    obtain ⟨marks, hmarks⟩ := exists_marked_first hmonths (haligned.offset.trans hoffset.symm) hlate
      (Cycle.past_of_pastFrom hcount) hcycles hafter
    have hlead := bounds_leading haligned hlate hbefore
    rw [List.append_assoc]
    by_cases hlt : start.instant < c.first.instant
    · rw [if_pos hlt] at hlead
      exact ⟨_, hmarks.cons hmonths hlt hlate hlead⟩
    · obtain rfl : c.first = start := eq_of_instant haligned.offset (by omega)
      rw [if_neg hlt] at hlead
      obtain rfl := List.map_eq_nil_iff.mp hlead
      exact ⟨marks, hmarks⟩

end Proration

/-- The units are the consecutive pieces into which the cuts divide a stretch. The last piece is
left out exactly when it begins and ends on one date; it never does in a stretch that ends at a
boundary. -/
structure Cycle.Divides (c : Cycle) (start e : Moment) (cuts : List Moment) (units : List Span) :
    Prop where
  bounds : units.map Span.bounds =
    piecesTo start (if (cuts.getLastD start).date = e.date then cuts else cuts ++ [e])
  kept : (∃ k, c.boundary k = .ok e) → start.instant < e.instant →
    (cuts.getLastD start).date ≠ e.date
  starts : ∀ s ∈ units.head?, s.start = start
  follows : units.IsChain fun s t => s.stop = t.start
  positive : ∀ s ∈ units, s.start.instant < s.stop.instant
  ends : (cuts.getLastD start).date ≠ e.date → ∃ s ∈ units.getLast?, s.stop = e

namespace Proration

section Bounds

variable {units : List Span} {start : Moment} {ends : List Moment}
  (h : units.map Span.bounds = piecesTo start ends)
include h

theorem starts_of_bounds : ∀ s ∈ units.head?, s.start = start := by
  intro s hs
  cases units with
  | nil => cases hs
  | cons t rest =>
    cases hs
    cases ends with
    | nil => cases h
    | cons next ends => exact congrArg Prod.fst (List.cons.inj h).1

theorem follows_of_bounds : units.IsChain fun s t => s.stop = t.start := by
  have hchain := isChain_piecesTo start ends
  rw [← h] at hchain
  exact (List.isChain_map Span.bounds).mp hchain

theorem positive_of_bounds (hincreasing : (start :: ends).Pairwise fun a b => a.instant < b.instant) :
    ∀ s ∈ units, s.start.instant < s.stop.instant := by
  intro s hs
  have hpiece : (s.start, s.stop) ∈ piecesTo start ends := by
    rw [← h]
    exact List.mem_map_of_mem (f := Span.bounds) hs
  exact lt_of_mem_piecesTo hincreasing hpiece

end Bounds

theorem ends_of_bounds {units : List Span} {start e : Moment} {cuts : List Moment}
    (h : units.map Span.bounds = piecesTo start (cuts ++ [e])) :
    ∃ s ∈ units.getLast?, s.stop = e := by
  have hlast : (units.map Span.bounds).getLast? = some (cuts.getLastD start, e) := by
    rw [h, piecesTo_concat, List.getLast?_concat]
  rw [List.getLast?_map] at hlast
  obtain ⟨s, hs, hbounds⟩ := Option.map_eq_some_iff.mp hlast
  exact ⟨s, hs, congrArg Prod.snd hbounds⟩

variable {c : Cycle} {start e : Moment} {units : List Span}

/-- Boundaries have one time of day with the start, so none of them shares a date with the end of a
stretch that is a boundary itself. -/
theorem date_last_ne {cuts : List Moment} (hcuts : c.Cuts start e cuts)
    (haligned : c.first.Aligned start) (he : ∃ k, c.boundary k = .ok e)
    (hlt : start.instant < e.instant) : (cuts.getLastD start).date ≠ e.date := by
  have hboundary {b : Moment} : (∃ k, c.boundary k = .ok b) → b.Aligned start := fun ⟨_, hb⟩ =>
    (Cycle.aligned_of_boundary hb).1.trans haligned
  rcases List.mem_cons.mp (List.getLastD_mem_cons (l := cuts) (a := start)) with hstart | hcut
  · rw [hstart]
    exact (hboundary he).symm.date_ne hlt
  · obtain ⟨hb, -, hwithin⟩ := (hcuts.mem_iff _).mp hcut
    exact ((hboundary hb).trans (hboundary he).symm).date_ne hwithin

theorem divides_of_bounds {cuts : List Moment} (hcuts : c.Cuts start e cuts)
    (haligned : c.first.Aligned start) (hoffset : e.offset = start.offset)
    (hle : start.instant ≤ e.instant)
    (hbounds : units.map Span.bounds =
      piecesTo start (if (cuts.getLastD start).date = e.date then cuts else cuts ++ [e])) :
    c.Divides start e cuts units := by
  have hkept := date_last_ne hcuts haligned
  have hcut : (start :: cuts).Pairwise fun a b => a.instant < b.instant :=
    List.pairwise_cons.mpr ⟨fun b hb => ((hcuts.mem_iff b).mp hb).2.1, hcuts.increasing⟩
  by_cases hdate : (cuts.getLastD start).date = e.date
  · have hdropped := hbounds
    rw [if_pos hdate] at hdropped
    exact ⟨hbounds, hkept, starts_of_bounds hdropped, follows_of_bounds hdropped,
      positive_of_bounds hdropped hcut, fun hne => absurd hdate hne⟩
  · have hlt : start.instant < e.instant := by
      refine Int.not_le.mp fun hback => hdate ?_
      obtain rfl : start = e := eq_of_instant hoffset.symm (Int.le_antisymm hle hback)
      obtain rfl : cuts = [] := by
        refine List.eq_nil_iff_forall_not_mem.mpr fun b hb => ?_
        obtain ⟨-, hafter, hbefore⟩ := (hcuts.mem_iff b).mp hb
        omega
      rfl
    have hwhole : (start :: (cuts ++ [e])).Pairwise fun a b => a.instant < b.instant := by
      refine List.pairwise_append.mpr ⟨hcut, List.pairwise_singleton _ _, fun a ha b hb => ?_⟩
      obtain rfl := List.mem_singleton.mp hb
      rcases List.mem_cons.mp ha with rfl | ha
      · exact hlt
      · exact ((hcuts.mem_iff a).mp ha).2.2
    have hall := hbounds
    rw [if_neg hdate] at hall
    exact ⟨hbounds, hkept, starts_of_bounds hall, follows_of_bounds hall,
      positive_of_bounds hall hwhole, fun _ => ends_of_bounds hall⟩

namespace Marked

variable {marks : List Moment} (h : Marked c start e units marks)
include h

/-- A boundary at the end of the stretch is the last mark, and the others are the cuts. -/
theorem exists_cuts_of_mem (he : e ∈ marks) :
    ∃ cuts, marks = cuts ++ [e] ∧ c.Cuts start e cuts := by
  obtain ⟨cuts, last, rfl⟩ : ∃ cuts last, marks = cuts ++ [last] := by
    rcases List.eq_nil_or_concat marks with rfl | ⟨cuts, last, hmarks⟩
    · exact absurd he List.not_mem_nil
    · exact ⟨cuts, last, by rw [hmarks, List.concat_eq_append]⟩
  obtain ⟨hcuts, -, hbefore⟩ := List.pairwise_append.mp h.increasing
  have hsingle := List.mem_singleton_self last
  have hlast : last = e := by
    rcases List.mem_append.mp he with he | he
    · have hwithin := ((h.mem_iff last).mp (List.mem_append_right _ hsingle)).2.2
      exact absurd (hbefore e he last hsingle) (Int.not_lt.mpr hwithin)
    · exact (List.mem_singleton.mp he).symm
  subst hlast
  refine ⟨cuts, rfl, fun b => ⟨fun hb => ?_, ?_⟩, hcuts⟩
  · obtain ⟨hboundary, hafter, -⟩ := (h.mem_iff b).mp (List.mem_append_left _ hb)
    exact ⟨hboundary, hafter, hbefore b hb last hsingle⟩
  · rintro ⟨hboundary, hafter, hwithin⟩
    have hb := (h.mem_iff b).mpr ⟨hboundary, hafter, Int.le_of_lt hwithin⟩
    rcases List.mem_append.mp hb with hb | hb
    · exact hb
    · rw [List.mem_singleton.mp hb] at hwithin
      exact absurd hwithin (Int.lt_irrefl _)

theorem cuts_of_not_mem (haligned : c.first.Aligned start) (hoffset : e.offset = start.offset)
    (he : e ∉ marks) : c.Cuts start e marks := by
  refine ⟨fun b => (h.mem_iff b).trans ?_, h.increasing⟩
  refine and_congr_right fun ⟨k, hk⟩ => and_congr_right fun hafter =>
    ⟨fun hwithin => Int.not_le.mp fun hend => he ?_, Int.le_of_lt⟩
  have hboundary := ((Cycle.aligned_of_boundary hk).1.trans haligned).offset
  obtain rfl : b = e := eq_of_instant (hboundary.trans hoffset.symm) (by omega)
  exact (h.mem_iff b).mpr ⟨⟨k, hk⟩, hafter, hwithin⟩

theorem divides (haligned : c.first.Aligned start) (hoffset : e.offset = start.offset)
    (hle : start.instant ≤ e.instant) :
    ∃ cuts, c.Cuts start e cuts ∧ c.Divides start e cuts units := by
  by_cases he : e ∈ marks
  · obtain ⟨cuts, rfl, hcuts⟩ := h.exists_cuts_of_mem he
    obtain ⟨hboundary, hlt, -⟩ := (h.mem_iff e).mp he
    refine ⟨cuts, hcuts, divides_of_bounds hcuts haligned hoffset hle ?_⟩
    rw [h.bounds, if_neg (date_last_ne hcuts haligned hboundary hlt), List.getLastD_concat, stub,
      if_pos rfl, List.append_nil]
  · have hcuts := h.cuts_of_not_mem haligned hoffset he
    exact ⟨marks, hcuts, divides_of_bounds hcuts haligned hoffset hle
      (h.bounds.trans (piecesTo_stub ..))⟩

end Marked

/-- **The units of an event are what the boundaries within its stretch cut it into.** -/
theorem spans_divide {d : CycleDay} {target : Moment} {stop : Option Moment} {period : Period}
    (hoffset : ∀ t, stop = some t → t.offset = start.offset)
    (h : spans start stop target d.day period = .ok units) : ∃ first e cuts,
      firstDate start d.day = .ok first ∧
        (⟨first, period.months, d.day⟩ : Cycle).EndsFirst target stop e ∧
        (⟨first, period.months, d.day⟩ : Cycle).Cuts start e cuts ∧
        (⟨first, period.months, d.day⟩ : Cycle).Divides start e cuts units ∧
        ∀ s ∈ units, s.start.instant ≤ target.instant := by
  obtain ⟨first, e, hfirst, haligned, hle, hends, hend, hstart, hmonths, hcut⟩ :=
    stretch_of_spans hoffset h
  obtain ⟨marks, hmarks⟩ :=
    exists_marked (c := ⟨first, period.months, d.day⟩) hmonths haligned hle hend hstart hcut
  obtain ⟨cuts, hcuts, hdivides⟩ := hmarks.divides haligned hend hstart
  exact ⟨first, e, cuts, hfirst, hends.endsFirst hmonths, hcuts, hdivides,
    fun s hs => (mem_spans h hs).2.2.1⟩

end Proration

namespace Sample

/-- What an event of the middle of January is billed for until the evening of the last of April,
when its cycles begin on the last days of the months. -/
def untilEvening : List Span := [
  ⟨hour 2023 1 15 12, hour 2023 1 31 12, .ratio 16 31⟩,
  ⟨hour 2023 1 31 12, hour 2023 2 28 12, .one⟩,
  ⟨hour 2023 2 28 12, hour 2023 3 31 12, .one⟩,
  ⟨hour 2023 3 31 12, hour 2023 4 30 12, .one⟩]

end Sample

open Sample in
/-- The six hours after the last boundary begin and end on the last of April, and are left out. -/
theorem spans_divide_evening :
    (∀ t, some (hour 2023 4 30 18) = some t → t.offset = (hour 2023 1 15 12).offset) ∧
      Proration.spans (hour 2023 1 15 12) (some (hour 2023 4 30 18)) (hour 2023 5 2 12) 31 .monthly =
        .ok untilEvening ∧
      ∃ first e cuts, firstDate (hour 2023 1 15 12) 31 = .ok first ∧
        (⟨first, Period.monthly.months, 31⟩ : Cycle).EndsFirst (hour 2023 5 2 12)
          (some (hour 2023 4 30 18)) e ∧
        (⟨first, Period.monthly.months, 31⟩ : Cycle).Cuts (hour 2023 1 15 12) e cuts ∧
        (⟨first, Period.monthly.months, 31⟩ : Cycle).Divides (hour 2023 1 15 12) e cuts
          untilEvening ∧
        ∀ s ∈ untilEvening, s.start.instant ≤ (hour 2023 5 2 12).instant := by
  have hoffset :
      ∀ t, some (hour 2023 4 30 18) = some t → t.offset = (hour 2023 1 15 12).offset := by
    rintro t ht
    cases ht
    rfl
  have hspans : Proration.spans (hour 2023 1 15 12) (some (hour 2023 4 30 18)) (hour 2023 5 2 12) 31
      .monthly = .ok untilEvening := by decide +kernel
  exact ⟨hoffset, hspans, Proration.spans_divide (d := ⟨31, by decide⟩) hoffset hspans⟩

end BillRun
