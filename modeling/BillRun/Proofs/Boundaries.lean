import BillRun.Cycle.Boundary
import BillRun.Proofs.Shifting

/-! Cycle boundaries grow, and what that says of the end of a stretch.

Boundaries are aligned with the first one and lie in later and later months (`boundary_lt`), so a
search along them finds the only place where they pass the limit (`Past`). The end of a stretch then
moves in one way with the target: either it stays where it is, or it is a boundary and moves on
(`EndsAt.mono`). -/
namespace BillRun

open Calendar

/-- The first date lies in the start's month, or in the next one when that of the start's month has
passed. -/
theorem firstDate_cases {start first : Moment} {day : Int} (h : firstDate start day = .ok first) :
    (start.onDay day = .ok first ∧ start.instant ≤ first.instant) ∨
      ∃ passed, start.onDay day = .ok passed ∧ passed.instant < start.instant ∧
        start.addMonthsOnDay 1 day = .ok first := by
  obtain ⟨candidate, hcandidate, h⟩ := bind_eq_ok.mp h
  obtain ⟨-, h⟩ := Moment.lt_branch_eq_ok.mp h
  split at h
  · rename_i hlt
    exact .inr ⟨candidate, hcandidate, hlt, h⟩
  · rename_i hlt
    cases h
    exact .inl ⟨hcandidate, Int.not_lt.mp hlt⟩

theorem aligned_of_firstDate {start first : Moment} {day : Int}
    (h : firstDate start day = .ok first) :
    first.Aligned start ∧ start.instant ≤ first.instant := by
  rcases firstDate_cases h with ⟨honDay, hle⟩ | ⟨_, -, -, hnext⟩
  · exact ⟨(Moment.aligned_of_onDay honDay).1, hle⟩
  · obtain ⟨haligned, hmonth⟩ := Moment.aligned_of_addMonthsOnDay hnext
    have hlater := haligned.symm.instant_lt_of_month (by omega)
    exact ⟨haligned, Int.le_of_lt hlater⟩

namespace Cycle

/-! ### Growth -/

theorem aligned_of_boundary {c : Cycle} {k : Nat} {b : Moment} (h : c.boundary k = .ok b) :
    b.Aligned c.first ∧ (b.date.month.index : Int) = c.first.date.month.index + k * c.months := by
  cases k with
  | zero =>
    cases h
    exact ⟨.refl _, by simp⟩
  | succ k => exact Moment.aligned_of_addMonthsOnDay h

variable {c : Cycle}

theorem boundary_lt (hmonths : 0 < c.months) {j k : Nat} {a b : Moment}
    (ha : c.boundary j = .ok a) (hb : c.boundary k = .ok b) (hjk : j < k) :
    a.instant < b.instant := by
  obtain ⟨haligned, hamonth⟩ := aligned_of_boundary ha
  obtain ⟨hbligned, hbmonth⟩ := aligned_of_boundary hb
  refine (haligned.trans hbligned.symm).instant_lt_of_month ?_
  have hmul : (j : Int) * c.months < k * c.months :=
    Int.mul_lt_mul_of_pos_right (by omega) hmonths
  omega

theorem boundary_le (hmonths : 0 < c.months) {j k : Nat} {a b : Moment}
    (ha : c.boundary j = .ok a) (hb : c.boundary k = .ok b) (hjk : j ≤ k) :
    a.instant ≤ b.instant := by
  rcases Nat.lt_or_eq_of_le hjk with hlt | rfl
  · exact Int.le_of_lt (boundary_lt hmonths ha hb hlt)
  · cases ha.symm.trans hb
    exact Int.le_refl _

theorem lt_of_boundary_lt (hmonths : 0 < c.months) {j k : Nat} {a b : Moment}
    (ha : c.boundary j = .ok a) (hb : c.boundary k = .ok b) (hab : a.instant < b.instant) :
    j < k := by
  refine Nat.lt_of_not_le fun hkj => ?_
  have := boundary_le hmonths hb ha hkj
  omega

/-! ### The search -/

/-- `n` is the first index from `k` on whose boundary lies after the limit. -/
structure Past (c : Cycle) (limit : Moment) (k n : Nat) : Prop where
  le : k ≤ n
  before : ∀ j, k ≤ j → j < n → ∃ b, c.boundary j = .ok b ∧ b.instant ≤ limit.instant
  after : ∃ b, c.boundary n = .ok b ∧ limit.instant < b.instant

theorem past_of_pastFrom {limit : Moment} {fuel k n : Nat} (h : c.pastFrom limit fuel k = .ok n) :
    c.Past limit k n := by
  induction fuel generalizing k with
  | zero => cases h
  | succ fuel ih =>
    obtain ⟨b, hb, h⟩ := bind_eq_ok.mp h
    obtain ⟨-, h⟩ := Moment.le_branch_eq_ok.mp h
    split at h
    · rename_i hle
      have hpast := ih h
      refine ⟨Nat.le_of_succ_le hpast.le, fun j hkj hjn => ?_, hpast.after⟩
      rcases Nat.lt_or_eq_of_le hkj with hlt | rfl
      · exact hpast.before j hlt hjn
      · exact ⟨b, hb, hle⟩
    · rename_i hle
      cases h
      exact ⟨Nat.le_refl _, fun j hkj hjk => absurd hjk (Nat.not_lt.mpr hkj),
        b, hb, Int.not_le.mp hle⟩

/-- The search separates the boundaries up to the limit from those after it. -/
theorem Past.le_limit_iff {limit : Moment} {k n : Nat} (h : c.Past limit k n)
    (hmonths : 0 < c.months) {j : Nat} {b : Moment} (hb : c.boundary j = .ok b) (hkj : k ≤ j) :
    b.instant ≤ limit.instant ↔ j < n := by
  obtain ⟨last, hlast, hafter⟩ := h.after
  constructor
  · intro hle
    exact lt_of_boundary_lt hmonths hb hlast (by omega)
  · intro hjn
    obtain ⟨b', hb', hle⟩ := h.before j hkj hjn
    cases hb.symm.trans hb'
    exact hle

/-- The last boundary of the search lies up to the limit, when the first does. -/
theorem Past.last_le {limit : Moment} {count : Nat} (h : c.Past limit 1 (count + 1))
    (hmonths : 0 < c.months) (hfirst : c.first.instant ≤ limit.instant) {last : Moment}
    (hlast : c.boundary count = .ok last) : last.instant ≤ limit.instant := by
  rcases Nat.eq_zero_or_pos count with rfl | hpos
  · cases hlast
    exact hfirst
  · exact (h.le_limit_iff hmonths hlast hpos).mpr (Nat.lt_succ_self count)

theorem pastFrom_congr {limit limit' : Moment} (h : limit.mark = limit'.mark) (fuel k : Nat) :
    c.pastFrom limit fuel k = c.pastFrom limit' fuel k := by
  induction fuel generalizing k with
  | zero => rfl
  | succ fuel ih => simp only [pastFrom, Moment.le_congr h, ih]

/-! ### The end of a stretch -/

theorem endAfter_congr {target target' : Moment} (h : target.mark = target'.mark)
    (stop : Option Moment) : c.endAfter target stop = c.endAfter target' stop := by
  cases stop with
  | none => simp only [endAfter, past, pastFrom_congr h]
  | some stop => simp only [endAfter, past, pastFrom_congr h, Moment.le_congr h]

/-- Where a stretch ends: at a stop that the target has reached, or else at the first boundary after
the target or at a stop before it. -/
inductive EndsAt (c : Cycle) (target : Moment) : Option Moment → Moment → Prop
  | stopped {stop : Moment} : stop.instant ≤ target.instant → EndsAt c target (some stop) stop
  | open {k : Nat} {b : Moment} : c.Past target 0 k → c.boundary k = .ok b →
      EndsAt c target none b
  | capped {k : Nat} {b stop : Moment} : target.instant < stop.instant → c.Past target 0 k →
      c.boundary k = .ok b →
      EndsAt c target (some stop) (if stop.instant < b.instant then stop else b)

theorem endsAt_of_endAfter {target : Moment} {stop : Option Moment} {e : Moment}
    (h : c.endAfter target stop = .ok e) : c.EndsAt target stop e := by
  cases stop with
  | none =>
    obtain ⟨k, hk, hb⟩ := bind_eq_ok.mp h
    exact .open (past_of_pastFrom hk) hb
  | some stop =>
    obtain ⟨-, h⟩ := Moment.le_branch_eq_ok.mp h
    split at h
    · rename_i hle
      cases h
      exact .stopped hle
    · rename_i hle
      obtain ⟨k, hk, h⟩ := bind_eq_ok.mp h
      obtain ⟨b, hb, h⟩ := bind_eq_ok.mp h
      obtain ⟨-, rfl⟩ := Moment.earlier_eq_ok.mp h
      exact .capped (Int.not_le.mp hle) (past_of_pastFrom hk) hb

/-- Boundaries before the end of a stretch lie no later than its target. -/
theorem EndsAt.boundary_le_target {target : Moment} {stop : Option Moment} {e : Moment}
    (h : c.EndsAt target stop e) (hmonths : 0 < c.months) {j : Nat} {b : Moment}
    (hb : c.boundary j = .ok b) (hbe : b.instant < e.instant) : b.instant ≤ target.instant := by
  have hbefore {k : Nat} {e' : Moment} (hpast : c.Past target 0 k) (he' : c.boundary k = .ok e')
      (hlt : b.instant < e'.instant) : b.instant ≤ target.instant :=
    (hpast.le_limit_iff hmonths hb (Nat.zero_le j)).mpr (lt_of_boundary_lt hmonths hb he' hlt)
  cases h with
  | stopped hle => omega
  | «open» hpast hk => exact hbefore hpast hk hbe
  | capped hlt hpast hk =>
    refine hbefore hpast hk ?_
    split at hbe <;> omega

/-- The first boundary after a later target comes no earlier. -/
theorem Past.mono {target target' : Moment} {k k' : Nat} {b b' : Moment}
    (hk : c.Past target 0 k) (hb : c.boundary k = .ok b) (hk' : c.Past target' 0 k')
    (hb' : c.boundary k' = .ok b') (hmonths : 0 < c.months)
    (hle : target.instant ≤ target'.instant) :
    target.instant < b.instant ∧ b.instant ≤ b'.instant := by
  obtain ⟨_, hlast, hafter⟩ := hk.after
  cases hb.symm.trans hlast
  refine ⟨hafter, boundary_le hmonths hb hb' (Nat.le_of_not_lt fun hlt => ?_)⟩
  obtain ⟨_, hlast', hafter'⟩ := hk'.after
  cases hb'.symm.trans hlast'
  have := (hk.le_limit_iff hmonths hb' (Nat.zero_le k')).mpr hlt
  omega

/-- **As the target moves on, the end of a stretch stays, or it is a boundary after the target and
moves no further back.** -/
theorem EndsAt.mono {target target' : Moment} {stop : Option Moment} {e e' : Moment}
    (h : c.EndsAt target stop e) (h' : c.EndsAt target' stop e') (hmonths : 0 < c.months)
    (hle : target.instant ≤ target'.instant) :
    e' = e ∨ ∃ k, c.boundary k = .ok e ∧ target.instant < e.instant ∧ e.instant ≤ e'.instant := by
  cases h with
  | stopped hreached =>
    cases h' with
    | stopped => exact .inl rfl
    | capped hlt => omega
  | «open» hk hb =>
    cases h' with
    | «open» hk' hb' => exact .inr ⟨_, hb, hk.mono hb hk' hb' hmonths hle⟩
  | @capped k b stop hlt hk hb =>
    by_cases hcap : stop.instant < b.instant
    · simp only [hcap, if_true]
      cases h' with
      | stopped => exact .inl rfl
      | capped hlt' hk' hb' =>
        have := (hk.mono hb hk' hb' hmonths hle).2
        rw [if_pos (by omega)]
        exact .inl rfl
    · simp only [hcap, if_false]
      refine .inr ⟨k, hb, ?_⟩
      cases h' with
      | stopped hreached =>
        obtain ⟨_, hlast, hafter⟩ := hk.after
        cases hb.symm.trans hlast
        exact ⟨hafter, by omega⟩
      | capped hlt' hk' hb' =>
        have := hk.mono hb hk' hb' hmonths hle
        refine ⟨this.1, ?_⟩
        split <;> omega

end Cycle

end BillRun
