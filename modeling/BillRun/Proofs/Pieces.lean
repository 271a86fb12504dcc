import BillRun.Cycle.Proration
import BillRun.Proofs.Boundaries

/-! The pieces of a stretch, and what happens to them as the target moves on.

Once the cycle and the end of the stretch are known, `cut` gives the pieces; the target enters only
through the end. Pieces start at the start of the stretch or at a boundary (`mem_cut`). When a
stretch ends at a boundary, its pieces are the first pieces of every longer stretch (`cut_append`).
So the pieces for an earlier target are exactly those for a later one that start by the earlier
target (`spans_eq_filter`). -/
namespace BillRun.Proration

open Calendar

/-- The pieces of a stretch whose end is known. -/
def cut (c : Cycle) (start stretchEnd : Moment) : Except Fault (List Span) := do
  let before ← leading c start stretchEnd
  let count ← wholeCycles c stretchEnd
  let cycles ← (List.range count).mapM (wholeCycle c)
  let after ← trailing c count stretchEnd
  return before ++ cycles ++ after

theorem spans_eq_ok {start target : Moment} {stop : Option Moment} {day : Int} {period : Period}
    {pieces : List Span} :
    spans start stop target day period = .ok pieces ↔
      stopsBefore stop start = .ok false ∧ target.lt start = .ok false ∧ period.months ≠ 0 ∧
        ∃ first stretchEnd, firstDate start day = .ok first ∧
          (⟨first, period.months, day⟩ : Cycle).endAfter target stop = .ok stretchEnd ∧
          cut ⟨first, period.months, day⟩ start stretchEnd = .ok pieces := by
  have hfalse {x : Except Fault Bool} {e : Fault} {after : Unit → Except Fault (List Span)} :
      (x >>= fun b => if b = true then (throw e : Except Fault Unit) >>= after else after ()) =
        .ok pieces ↔ x = .ok false ∧ after () = .ok pieces := by
    rw [bind_eq_ok]
    constructor
    · rintro ⟨b, hb, h⟩
      obtain ⟨hb', h⟩ := guard_eq_ok.mp h
      exact ⟨by simpa [hb'] using hb, h⟩
    · rintro ⟨hx, h⟩
      exact ⟨false, hx, h⟩
  unfold spans
  rw [hfalse, hfalse, guard_eq_ok]
  refine and_congr_right fun _ => and_congr_right fun _ => and_congr_right fun _ => ?_
  rw [bind_eq_ok]
  refine exists_congr fun first => ?_
  rw [bind_eq_ok, ← exists_and_left]
  rfl

variable {c : Cycle} {start : Moment}

theorem cut_eq_ok {stretchEnd : Moment} {pieces : List Span} :
    cut c start stretchEnd = .ok pieces ↔ ∃ before count cycles after,
      leading c start stretchEnd = .ok before ∧ c.past stretchEnd 1 = .ok (count + 1) ∧
        (List.range count).mapM (wholeCycle c) = .ok cycles ∧
        trailing c count stretchEnd = .ok after ∧ pieces = before ++ cycles ++ after := by
  constructor
  · intro h
    obtain ⟨before, hbefore, h⟩ := bind_eq_ok.mp h
    obtain ⟨count, hcount, h⟩ := bind_eq_ok.mp h
    obtain ⟨n, hn, hcount⟩ := bind_eq_ok.mp hcount
    cases hcount
    obtain ⟨cycles, hcycles, h⟩ := bind_eq_ok.mp h
    obtain ⟨after, hafter, h⟩ := bind_eq_ok.mp h
    cases h
    have hpos : 1 ≤ n := (Cycle.past_of_pastFrom hn).le
    refine ⟨before, n - 1, cycles, after, hbefore, ?_, hcycles, hafter, rfl⟩
    rw [hn, Nat.sub_add_cancel hpos]
  · rintro ⟨before, count, cycles, after, hbefore, hcount, hcycles, hafter, rfl⟩
    simp only [cut, wholeCycles, hbefore, hcount, ok_bind, pure_eq_ok, Nat.add_sub_cancel, hcycles,
      hafter]

/-! ### Where pieces lie -/

theorem leading_eq_ok {stretchEnd : Moment} {before : List Span} :
    leading c start stretchEnd = .ok before ↔ Moment.Comparable start c.first ∧
      if start.instant < c.first.instant then
        ∃ pieceEnd, c.first.earlier stretchEnd = .ok pieceEnd ∧
          if 0 < start.daysBetween pieceEnd then
            ∃ previous, c.first.addMonthsOnDay (-c.months) c.day = .ok previous ∧
              before = [share start pieceEnd previous c.first]
          else before = []
      else before = [] := by
  unfold leading
  rw [Moment.lt_branch_eq_ok]
  refine and_congr_right fun _ => ?_
  split
  · rw [bind_eq_ok]
    refine exists_congr fun pieceEnd => and_congr_right fun _ => ?_
    split
    · rw [bind_eq_ok]
      exact exists_congr fun _ => and_congr_right fun _ => by rw [pure_eq_ok]; simp [eq_comm]
    · simp [eq_comm]
  · simp [eq_comm]

theorem trailing_eq_ok {stretchEnd : Moment} {k : Nat} {after : List Span} :
    trailing c k stretchEnd = .ok after ↔
      ∃ last, c.boundary k = .ok last ∧ Moment.Comparable last stretchEnd ∧
        if last.instant < stretchEnd.instant then
          if 0 < last.daysBetween stretchEnd then
            ∃ next, c.boundary (k + 1) = .ok next ∧ after = [share last stretchEnd last next]
          else after = []
        else after = [] := by
  unfold trailing
  rw [bind_eq_ok]
  refine exists_congr fun last => and_congr_right fun _ => ?_
  rw [Moment.lt_branch_eq_ok]
  refine and_congr_right fun _ => ?_
  split
  · split
    · rw [bind_eq_ok]
      exact exists_congr fun _ => and_congr_right fun _ => by rw [pure_eq_ok]; simp [eq_comm]
    · simp [eq_comm]
  · simp [eq_comm]

/-- There is at most one leading piece. It runs from the start to the earlier of the first boundary
and the end, and is a share of the cycle before that boundary. -/
theorem leading_cases {stretchEnd : Moment} {before : List Span}
    (h : leading c start stretchEnd = .ok before) :
    before = [] ∨ ∃ pieceEnd previous, start.instant < c.first.instant ∧
      (pieceEnd = stretchEnd ∨ pieceEnd = c.first) ∧
      pieceEnd.instant = min c.first.instant stretchEnd.instant ∧
      0 < start.daysBetween pieceEnd ∧
      c.first.addMonthsOnDay (-c.months) c.day = .ok previous ∧
      before = [share start pieceEnd previous c.first] := by
  obtain ⟨-, h⟩ := leading_eq_ok.mp h
  split at h
  case isFalse => exact .inl h
  obtain ⟨pieceEnd, hend, h⟩ := h
  obtain ⟨-, hpiece⟩ := Moment.earlier_eq_ok.mp hend
  split at h
  case isFalse => exact .inl h
  obtain ⟨previous, hprevious, hbefore⟩ := h
  refine .inr ⟨pieceEnd, previous, ‹_›, ?_, ?_, ‹_›, hprevious, hbefore⟩
  · rw [hpiece]
    split
    · exact .inl rfl
    · exact .inr rfl
  · rw [hpiece]
    split <;> omega

/-- There is at most one trailing piece. It runs from the boundary to the end, and is a share of the
cycle from that boundary on. -/
theorem trailing_cases {stretchEnd : Moment} {k : Nat} {after : List Span}
    (h : trailing c k stretchEnd = .ok after) :
    ∃ last, c.boundary k = .ok last ∧ (after = [] ∨ ∃ next,
      last.instant < stretchEnd.instant ∧ 0 < last.daysBetween stretchEnd ∧
        c.boundary (k + 1) = .ok next ∧ after = [share last stretchEnd last next]) := by
  obtain ⟨last, hlast, -, h⟩ := trailing_eq_ok.mp h
  refine ⟨last, hlast, ?_⟩
  split at h
  case isFalse => exact .inl h
  split at h
  case isFalse => exact .inl h
  obtain ⟨next, hnext, hafter⟩ := h
  exact .inr ⟨next, ‹_›, ‹_›, hnext, hafter⟩

theorem mem_leading {stretchEnd : Moment} {before : List Span} {s : Span}
    (h : leading c start stretchEnd = .ok before) (hs : s ∈ before) :
    s.start = start ∧ (s.stop = stretchEnd ∨ s.stop = c.first) := by
  rcases leading_cases h with rfl | ⟨pieceEnd, previous, -, hend, -, -, -, rfl⟩
  · cases hs
  · obtain rfl := List.mem_singleton.mp hs
    exact ⟨rfl, hend⟩

theorem mem_trailing {stretchEnd : Moment} {k : Nat} {after : List Span} {s : Span}
    (h : trailing c k stretchEnd = .ok after) (hs : s ∈ after) :
    c.boundary k = .ok s.start ∧ s.start.instant < stretchEnd.instant ∧ s.stop = stretchEnd := by
  obtain ⟨last, hlast, rfl | ⟨next, hlt, -, -, rfl⟩⟩ := trailing_cases h
  · cases hs
  · obtain rfl := List.mem_singleton.mp hs
    exact ⟨hlast, hlt, rfl⟩

theorem wholeCycle_eq_ok {k : Nat} {s : Span} :
    wholeCycle c k = .ok s ↔
      c.boundary k = .ok s.start ∧ c.boundary (k + 1) = .ok s.stop ∧ s.cycles = .one := by
  unfold wholeCycle
  rw [bind_eq_ok]
  constructor
  · rintro ⟨low, hlow, h⟩
    obtain ⟨high, hhigh, h⟩ := bind_eq_ok.mp h
    cases h
    exact ⟨hlow, hhigh, rfl⟩
  · rintro ⟨hlow, hhigh, hone⟩
    refine ⟨_, hlow, bind_eq_ok.mpr ⟨_, hhigh, ?_⟩⟩
    cases s
    cases hone
    rfl

/-- One cycle more comes last. -/
theorem wholeCycles_succ {count : Nat} {cycles : List Span}
    (h : (List.range (count + 1)).mapM (wholeCycle c) = .ok cycles) :
    ∃ before s, (List.range count).mapM (wholeCycle c) = .ok before ∧
      wholeCycle c count = .ok s ∧ cycles = before ++ [s] := by
  rw [List.range_succ, List.mapM_append] at h
  obtain ⟨before, hbefore, h⟩ := bind_eq_ok.mp h
  obtain ⟨last, hlast, h⟩ := bind_eq_ok.mp h
  cases h
  cases mapM_eq_ok.mp hlast with
  | @cons _ s _ _ hs hnil =>
    cases hnil
    exact ⟨before, s, hbefore, hs, rfl⟩

/-- A piece starts where the stretch does, or at a boundary before its end; and it ends there or at
a boundary. -/
theorem mem_cut (hmonths : 0 < c.months) {stretchEnd : Moment} {pieces : List Span} {s : Span}
    (h : cut c start stretchEnd = .ok pieces) (hs : s ∈ pieces) :
    (s.start = start ∨ ∃ k, c.boundary k = .ok s.start ∧ s.start.instant < stretchEnd.instant) ∧
      (s.stop = stretchEnd ∨ ∃ k, c.boundary k = .ok s.stop) := by
  obtain ⟨before, count, cycles, after, hbefore, hcount, hcycles, hafter, rfl⟩ := cut_eq_ok.mp h
  rw [List.mem_append, List.mem_append] at hs
  rcases hs with (hs | hs) | hs
  · obtain ⟨hstart, hstop⟩ := mem_leading hbefore hs
    exact ⟨.inl hstart, hstop.imp_right fun hfirst => ⟨0, congrArg _ hfirst.symm⟩⟩
  · obtain ⟨k, hk, hcycle⟩ := exists_of_mem_right (mapM_eq_ok.mp hcycles) hs
    obtain ⟨hlow, hhigh, -⟩ := wholeCycle_eq_ok.mp hcycle
    have hwithin := ((Cycle.past_of_pastFrom hcount).le_limit_iff hmonths hhigh (by omega)).mpr
      (by have := List.mem_range.mp hk; omega)
    have hlt := Cycle.boundary_lt hmonths hlow hhigh (Nat.lt_succ_self k)
    exact ⟨.inr ⟨k, hlow, by omega⟩, .inr ⟨k + 1, hhigh⟩⟩
  · obtain ⟨hstart, hlt, hstop⟩ := mem_trailing hafter hs
    exact ⟨.inr ⟨count, hstart, hlt⟩, .inl hstop⟩

/-- A stretch that ends before any boundary has no piece but the leading one. -/
theorem leading_of_cut (hmonths : 0 < c.months) {stretchEnd : Moment} {pieces : List Span}
    (hearly : stretchEnd.instant < c.first.instant) (h : cut c start stretchEnd = .ok pieces) :
    leading c start stretchEnd = .ok pieces := by
  obtain ⟨before, count, cycles, after, hbefore, hcount, hcycles, hafter, rfl⟩ := cut_eq_ok.mp h
  have hnone {k : Nat} {b : Moment} (hb : c.boundary k = .ok b) :
      stretchEnd.instant < b.instant :=
    Int.lt_of_lt_of_le hearly (Cycle.boundary_le hmonths rfl hb (Nat.zero_le k))
  obtain rfl : count = 0 := by
    refine Nat.le_zero.mp (Nat.le_of_not_lt fun hpos => ?_)
    obtain ⟨b, hb, hle⟩ := (Cycle.past_of_pastFrom hcount).before 1 (Nat.le_refl 1) (by omega)
    exact absurd (hnone hb) (Int.not_lt.mpr hle)
  obtain rfl : cycles = [] := List.forall₂_nil_left_iff.mp (mapM_eq_ok.mp hcycles)
  obtain rfl : after = [] := by
    refine List.eq_nil_iff_forall_not_mem.mpr fun s hs => ?_
    obtain ⟨hs, hlt, -⟩ := mem_trailing hafter hs
    exact absurd (hnone hs) (Int.not_lt.mpr (Int.le_of_lt hlt))
  rw [List.append_nil, List.append_nil, hbefore]

/-! ### As the target moves on -/

/-- A stretch that reaches the first boundary has one leading piece, wherever it ends. -/
theorem leading_of_first_le {stretchEnd : Moment} {before : List Span}
    (hle : c.first.instant ≤ stretchEnd.instant) (h : leading c start stretchEnd = .ok before) :
    leading c start c.first = .ok before := by
  obtain ⟨hcomparable, h⟩ := leading_eq_ok.mp h
  refine leading_eq_ok.mpr ⟨hcomparable, ?_⟩
  split at h
  · rw [if_pos ‹_›]
    obtain ⟨pieceEnd, hend, h⟩ := h
    obtain ⟨-, rfl⟩ := Moment.earlier_eq_ok.mp hend
    rw [if_neg (Int.not_lt.mpr hle)] at h
    exact ⟨c.first, Moment.earlier_eq_ok.mpr ⟨rfl, (ite_self _).symm⟩, h⟩
  · rwa [if_neg ‹_›]

/-- The pieces of a stretch that ends at a boundary are the first ones of a longer stretch, and the
others start at that boundary or later ones. -/
theorem cut_append (hmonths : 0 < c.months) {k : Nat} {e e' : Moment} {pieces pieces' : List Span}
    (hk : c.boundary k = .ok e) (hle : e.instant ≤ e'.instant) (h : cut c start e = .ok pieces)
    (h' : cut c start e' = .ok pieces') :
    ∃ more, pieces' = pieces ++ more ∧ ∀ s ∈ more, ∃ j, k ≤ j ∧ c.boundary j = .ok s.start := by
  obtain ⟨before, n, cycles, after, hbefore, hn, hcycles, hafter, rfl⟩ := cut_eq_ok.mp h
  obtain ⟨before', n', cycles', after', hbefore', hn', hcycles', hafter', rfl⟩ := cut_eq_ok.mp h'
  have hpast := Cycle.past_of_pastFrom hn
  have hpast' := Cycle.past_of_pastFrom hn'
  have hfirst : c.first.instant ≤ e.instant := Cycle.boundary_le hmonths rfl hk (Nat.zero_le k)
  have hlead := leading_of_first_le hfirst hbefore
  have hlead' := leading_of_first_le (Int.le_trans hfirst hle) hbefore'
  obtain rfl : before = before' := Except.ok.inj (hlead.symm.trans hlead')
  obtain rfl : n = k := by
    refine Nat.le_antisymm (Nat.le_of_not_lt fun hkn => ?_) (Nat.le_of_not_lt fun hnk => ?_)
    · obtain ⟨b, hb, hbe⟩ := hpast.before n (by omega) (Nat.lt_succ_self n)
      have := Cycle.boundary_lt hmonths hk hb hkn
      omega
    · have := (hpast.le_limit_iff hmonths hk (by omega)).mp (Int.le_refl _)
      omega
  have hnn' : n ≤ n' := by
    refine Nat.le_of_not_lt fun hlt => ?_
    have := (hpast'.le_limit_iff hmonths hk (by omega)).mp hle
    omega
  obtain rfl : after = [] := by
    refine List.eq_nil_iff_forall_not_mem.mpr fun s hs => ?_
    obtain ⟨hstart, hlt, -⟩ := mem_trailing hafter hs
    obtain rfl := Except.ok.inj (hk.symm.trans hstart)
    omega
  obtain ⟨m, rfl⟩ := Nat.exists_eq_add_of_le hnn'
  rw [List.range_add, List.mapM_append] at hcycles'
  obtain ⟨same, hsame, hcycles'⟩ := bind_eq_ok.mp hcycles'
  obtain ⟨later, hlater, hcycles'⟩ := bind_eq_ok.mp hcycles'
  cases hcycles'
  obtain rfl : cycles = same := Except.ok.inj (hcycles.symm.trans hsame)
  refine ⟨later ++ after', by simp only [List.append_nil, List.append_assoc], fun s hs => ?_⟩
  rcases List.mem_append.mp hs with hs | hs
  · obtain ⟨j, hj, hcycle⟩ := exists_of_mem_right (mapM_eq_ok.mp hlater) hs
    obtain ⟨i, -, rfl⟩ := List.mem_map.mp hj
    exact ⟨n + i, by omega, (wholeCycle_eq_ok.mp hcycle).1⟩
  · exact ⟨n + m, by omega, (mem_trailing hafter' hs).1⟩

variable {stop : Option Moment} {target target' : Moment} {day : Int} {period : Period}
  {pieces pieces' : List Span}

/-- Once a stretch is due, pieces see the instant of the target only, faults included. -/
theorem spans_eq_of_mark (hstop : stopsBefore stop start = .ok false)
    (hdue : target.lt start = .ok false) (hmark : target.mark = target'.mark) (day : Int)
    (period : Period) : spans start stop target day period = spans start stop target' day period := by
  have hdue' : target'.lt start = .ok false := by rw [← Moment.lt_congr hmark, hdue]
  simp only [spans, hstop, hdue, hdue', ok_bind, Bool.false_eq_true, if_false,
    Cycle.endAfter_congr hmark]

theorem spans_congr (h : spans start stop target day period = .ok pieces)
    (hmark : target.mark = target'.mark) :
    spans start stop target' day period = .ok pieces := by
  obtain ⟨hstop, hdue, -⟩ := spans_eq_ok.mp h
  rw [← spans_eq_of_mark hstop hdue hmark, h]

/-- The stretch behind its pieces: it ends where `Cycle.EndsAt` says, no earlier than it starts. -/
theorem exists_stretch (h : spans start stop target day period = .ok pieces) : ∃ first e,
    firstDate start day = .ok first ∧ first.Aligned start ∧ start.instant ≤ first.instant ∧
      (⟨first, period.months, day⟩ : Cycle).EndsAt target stop e ∧
      (e.Aligned start ∨ stop = some e) ∧ start.instant ≤ e.instant ∧ 0 < (period.months : Int) ∧
      cut ⟨first, period.months, day⟩ start e = .ok pieces := by
  obtain ⟨hstop, -, hperiod, first, e, hfirst, he, hcut⟩ := spans_eq_ok.mp h
  obtain ⟨haligned, hle⟩ := aligned_of_firstDate hfirst
  have hmonths : (0 : Int) < period.months := by omega
  have hends := Cycle.endsAt_of_endAfter he
  have hboundary {k : Nat} {b : Moment}
      (hb : (⟨first, period.months, day⟩ : Cycle).boundary k = .ok b) :
      b.Aligned start ∧ start.instant ≤ b.instant :=
    ⟨(Cycle.aligned_of_boundary hb).1.trans haligned,
      Int.le_trans hle (Cycle.boundary_le hmonths rfl hb (Nat.zero_le k))⟩
  have hstopped {t : Moment} (ht : stop = some t) : start.instant ≤ t.instant := by
    subst ht
    obtain ⟨-, hlt⟩ := Moment.lt_eq_ok.mp hstop
    simpa using hlt
  obtain ⟨hend, hstart⟩ : (e.Aligned start ∨ stop = some e) ∧ start.instant ≤ e.instant := by
    cases hends with
    | stopped => exact ⟨.inr rfl, hstopped rfl⟩
    | «open» _ hb => exact ⟨.inl (hboundary hb).1, (hboundary hb).2⟩
    | capped _ _ hb =>
      split
      · exact ⟨.inr rfl, hstopped rfl⟩
      · exact ⟨.inl (hboundary hb).1, (hboundary hb).2⟩
  exact ⟨first, e, hfirst, haligned, hle, hends, hend, hstart, hmonths, hcut⟩

/-- A stretch whose stop has the offset of its start ends in that offset. -/
theorem stretch_of_spans (hoffset : ∀ t, stop = some t → t.offset = start.offset)
    (h : spans start stop target day period = .ok pieces) : ∃ first e,
      firstDate start day = .ok first ∧ first.Aligned start ∧ start.instant ≤ first.instant ∧
        (⟨first, period.months, day⟩ : Cycle).EndsAt target stop e ∧ e.offset = start.offset ∧
        start.instant ≤ e.instant ∧ 0 < (period.months : Int) ∧
        cut ⟨first, period.months, day⟩ start e = .ok pieces := by
  obtain ⟨first, e, hfirst, haligned, hle, hends, hend, hstart, hmonths, hcut⟩ := exists_stretch h
  have hsame : e.offset = start.offset := hend.elim (·.offset) (hoffset e)
  exact ⟨first, e, hfirst, haligned, hle, hends, hsame, hstart, hmonths, hcut⟩

/-- Where the pieces of a stretch lie, in the terms of the stretch. -/
theorem mem_spans (h : spans start stop target day period = .ok pieces) {s : Span}
    (hs : s ∈ pieces) :
    s.start.Aligned start ∧ start.instant ≤ s.start.instant ∧
      s.start.instant ≤ target.instant ∧ (s.stop.Aligned start ∨ stop = some s.stop) := by
  obtain ⟨first, e, hfirst, haligned, hle, hends, hend, -, hmonths, hcut⟩ := exists_stretch h
  have hboundary {k : Nat} {b : Moment}
      (hb : (⟨first, period.months, day⟩ : Cycle).boundary k = .ok b) : b.Aligned start :=
    (Cycle.aligned_of_boundary hb).1.trans haligned
  obtain ⟨hstart, hstop⟩ := mem_cut hmonths hcut hs
  have hstopped : s.stop.Aligned start ∨ stop = some s.stop := by
    rcases hstop with hstop | ⟨k, hb⟩
    · rw [hstop]
      exact hend
    · exact .inl (hboundary hb)
  rcases hstart with hstart | ⟨k, hb, hlt⟩
  · obtain ⟨-, hdue, -⟩ := spans_eq_ok.mp h
    obtain ⟨-, hdue⟩ := Moment.lt_eq_ok.mp hdue
    rw [hstart]
    refine ⟨.refl _, Int.le_refl _, ?_, hstopped⟩
    simpa using hdue
  · exact ⟨hboundary hb, Int.le_trans hle (Cycle.boundary_le hmonths rfl hb (Nat.zero_le k)),
      hends.boundary_le_target hmonths hb hlt, hstopped⟩

/-- **The pieces for an earlier target are those for a later one that start by the earlier
target.** -/
theorem spans_eq_filter (h : spans start stop target day period = .ok pieces)
    (h' : spans start stop target' day period = .ok pieces')
    (hle : target.instant ≤ target'.instant) :
    pieces = pieces'.filter fun s => s.start.instant ≤ target.instant := by
  have hdue : (pieces.filter fun s => s.start.instant ≤ target.instant) = pieces :=
    List.filter_eq_self.mpr fun s hs => by simpa using (mem_spans h hs).2.2.1
  obtain ⟨-, -, hperiod, first, e, hfirst, he, hcut⟩ := spans_eq_ok.mp h
  obtain ⟨-, -, -, first', e', hfirst', he', hcut'⟩ := spans_eq_ok.mp h'
  obtain rfl := Except.ok.inj (hfirst.symm.trans hfirst')
  have hmonths : (0 : Int) < period.months := by omega
  rcases (Cycle.endsAt_of_endAfter he).mono (Cycle.endsAt_of_endAfter he') hmonths hle with
    rfl | ⟨k, hk, hafter, hgrown⟩
  · obtain rfl := Except.ok.inj (hcut.symm.trans hcut')
    exact hdue.symm
  · obtain ⟨more, rfl, hmore⟩ := cut_append hmonths hk hgrown hcut hcut'
    have hnot : (more.filter fun s => s.start.instant ≤ target.instant) = [] := by
      refine List.filter_eq_nil_iff.mpr fun s hs => ?_
      obtain ⟨j, hkj, hj⟩ := hmore s hs
      have := Cycle.boundary_le hmonths hk hj hkj
      simp only [decide_eq_true_eq]
      omega
    rw [List.filter_append, hdue, hnot, List.append_nil]

end BillRun.Proration
