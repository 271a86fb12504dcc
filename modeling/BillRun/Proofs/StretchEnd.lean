import BillRun.Proofs.Boundaries
import BillRun.Proofs.Running

/-! The end of a stretch is always found, or the calendar ends before it.

A search along boundaries goes through one month at least with every step, so it ends before the
calendar does: at the first boundary after the limit (`Past`), or at the first that would lie beyond
the year 9999 (`RunsOut`). It is one or the other, and the outcome of the search says which
(`past_eq_ok_iff`, `past_eq_error_iff`). For the end of a stretch this leaves no outcome open
(`endAfter_iff`): a stop that the target has reached is never searched for, and so cannot fail. -/
namespace BillRun

open Calendar Moment

namespace Cycle

variable {c : Cycle} {limit : Moment} {k n : Nat}

/-! ### The end of the calendar -/

/-- The year in which boundary `k` lies, or would lie if the calendar went on. -/
def yearOf (c : Cycle) (k : Nat) : Int := (c.first.date.month.index + k * c.months) / 12

theorem yearOf_le_of_boundary {b : Moment} (h : c.boundary k = .ok b) : c.yearOf k ≤ 9999 := by
  have hmonth := (aligned_of_boundary h).2
  have hlast := b.date.month.index_lt
  unfold yearOf
  omega

theorem boundary_of_yearOf_le (hmonths : 1 ≤ c.months) (hday : 1 ≤ c.day) (h : c.yearOf k ≤ 9999) :
    ∃ b, c.boundary k = .ok b := by
  cases k with
  | zero => exact ⟨c.first, rfl⟩
  | succ k =>
    have hfirst := c.first.date.month.first_le
    have hahead : 0 ≤ ((k + 1 : Nat) : Int) * c.months := Int.mul_nonneg (by omega) (by omega)
    have hyear : 1 ≤ c.first.yearAfter ((k + 1 : Nat) * c.months) := by
      unfold yearAfter
      omega
    exact addMonthsOnDay_of_year hday hyear h

/-- Beyond the calendar, the fault of a boundary is its year. -/
theorem boundary_of_lt_yearOf (h : 9999 < c.yearOf k) :
    c.boundary k = .error (yearFault (c.yearOf k)) := by
  cases k with
  | zero =>
    have hfirst : c.yearOf 0 ≤ 9999 := yearOf_le_of_boundary rfl
    omega
  | succ k => exact addMonthsOnDay_of_not_year fun hyear => Int.not_le.mpr h hyear.2

/-- The boundaries from `k` on lie up to the limit as far as the calendar goes, and `n` is the first
that it does not have. -/
structure RunsOut (c : Cycle) (limit : Moment) (k n : Nat) : Prop where
  le : k ≤ n
  before : ∀ j, k ≤ j → j < n → ∃ b, c.boundary j = .ok b ∧ b.instant ≤ limit.instant
  beyond : 9999 < c.yearOf n

theorem RunsOut.cons {b : Moment} (h : c.RunsOut limit (k + 1) n) (hb : c.boundary k = .ok b)
    (hle : b.instant ≤ limit.instant) : c.RunsOut limit k n where
  le := Nat.le_of_succ_le h.le
  before j hkj hjn := by
    rcases Nat.lt_or_eq_of_le hkj with hlt | rfl
    · exact h.before j hlt hjn
    · exact ⟨b, hb, hle⟩
  beyond := h.beyond

/-- The calendar has every boundary that a search has passed. -/
theorem RunsOut.not_lt (h : c.RunsOut limit k n) {b : Moment} {j : Nat} (hkj : k ≤ j)
    (hb : c.boundary j = .ok b) (hlt : limit.instant < b.instant) : n ≤ j := by
  refine Nat.not_lt.mp fun hjn => ?_
  obtain ⟨b', hb', hle⟩ := h.before j hkj hjn
  cases hb.symm.trans hb'
  omega

theorem RunsOut.eq {n' : Nat} (h : c.RunsOut limit k n) (h' : c.RunsOut limit k n') : n = n' := by
  have hle {m m' : Nat} (h : c.RunsOut limit k m) (h' : c.RunsOut limit k m') : m ≤ m' := by
    refine Nat.not_lt.mp fun hlt => ?_
    obtain ⟨b, hb, -⟩ := h.before m' h'.le hlt
    have := yearOf_le_of_boundary hb
    have := h'.beyond
    omega
  exact Nat.le_antisymm (hle h h') (hle h' h)

/-- A search that the calendar ends finds no boundary. -/
theorem RunsOut.not_past {n' : Nat} (h : c.RunsOut limit k n) : ¬c.Past limit k n' := by
  intro hpast
  obtain ⟨last, hlast, hafter⟩ := hpast.after
  have hle := h.not_lt hpast.le hlast hafter
  have hexists : ∃ b, c.boundary n = .ok b := by
    rcases Nat.lt_or_eq_of_le hle with hlt | rfl
    · obtain ⟨b, hb, -⟩ := hpast.before n h.le hlt
      exact ⟨b, hb⟩
    · exact ⟨last, hlast⟩
  obtain ⟨b, hb⟩ := hexists
  have := yearOf_le_of_boundary hb
  have := h.beyond
  omega

theorem Past.eq {n' : Nat} (h : c.Past limit k n) (h' : c.Past limit k n') : n = n' := by
  have hle {m m' : Nat} (h : c.Past limit k m) (h' : c.Past limit k m') : m ≤ m' := by
    refine Nat.not_lt.mp fun hlt => ?_
    obtain ⟨b, hb, hle⟩ := h.before m' h'.le hlt
    obtain ⟨b', hb', hafter⟩ := h'.after
    cases hb.symm.trans hb'
    omega
  exact Nat.le_antisymm (hle h h') (hle h' h)

/-! ### The search ends -/

section
variable (hfirst : Comparable c.first limit) (hmonths : 1 ≤ c.months) (hday : 1 ≤ c.day)
include hfirst hmonths hday

/-- A search with a step for every month that is left finds a boundary after the limit or comes to
the end of the calendar. -/
theorem pastFrom_ends (fuel k : Nat) (hfuel : 120000 < c.first.date.month.index + k + fuel)
    (hstart : c.first.date.month.index + k ≤ 120000) :
    (∃ n, c.pastFrom limit fuel k = .ok n) ∨
      ∃ n, c.RunsOut limit k n ∧ c.pastFrom limit fuel k = .error (yearFault (c.yearOf n)) := by
  induction fuel generalizing k with
  | zero => omega
  | succ fuel ih =>
    rcases Int.lt_or_le 9999 (c.yearOf k) with hbeyond | hwithin
    · refine .inr ⟨k, ⟨Nat.le_refl k, fun j hkj hjk => absurd hjk (Nat.not_lt.mpr hkj), hbeyond⟩, ?_⟩
      rw [pastFrom, boundary_of_lt_yearOf hbeyond, error_bind]
    · obtain ⟨b, hb⟩ := boundary_of_yearOf_le hmonths hday hwithin
      obtain ⟨haligned, hmonth⟩ := aligned_of_boundary hb
      rw [pastFrom, hb, ok_bind, le_branch (haligned.comparable.trans hfirst)]
      by_cases hreached : b.instant ≤ limit.instant
      · -- one step takes the search a month on at least
        have hmore : (k : Int) * 1 ≤ k * c.months := Int.mul_le_mul_of_nonneg_left hmonths (by omega)
        have hlast := b.date.month.index_lt
        rw [if_pos hreached]
        refine (ih (k + 1) (by omega) (by omega)).imp_right fun hends => ?_
        obtain ⟨n, hout, herror⟩ := hends
        exact ⟨n, hout.cons hb hreached, herror⟩
      · rw [if_neg hreached]
        exact .inl ⟨k, rfl⟩

theorem past_ends :
    (∃ n, c.past limit 0 = .ok n) ∨
      ∃ n, c.RunsOut limit 0 n ∧ c.past limit 0 = .error (yearFault (c.yearOf n)) := by
  have hlow := c.first.date.month.first_le
  have hhigh := c.first.date.month.index_lt
  exact pastFrom_ends hfirst hmonths hday searchLength 0 (by unfold searchLength; omega) (by omega)

theorem past_eq_ok_iff : c.past limit 0 = .ok n ↔ c.Past limit 0 n := by
  constructor
  · exact past_of_pastFrom
  · intro hpast
    rcases past_ends hfirst hmonths hday with ⟨n', hn'⟩ | ⟨n', hout, -⟩
    · rw [hn', (past_of_pastFrom hn').eq hpast]
    · exact absurd hpast hout.not_past

theorem past_eq_error_iff {f : Fault} :
    c.past limit 0 = .error f ↔ ∃ n, c.RunsOut limit 0 n ∧ f = yearFault (c.yearOf n) := by
  rcases past_ends hfirst hmonths hday with ⟨n', hn'⟩ | ⟨n', hout', herror⟩
  · constructor
    · intro h
      rw [hn'] at h
      cases h
    · rintro ⟨n, hout, -⟩
      exact absurd (past_of_pastFrom hn') hout.not_past
  · constructor
    · intro h
      rw [herror] at h
      cases h
      exact ⟨n', hout', rfl⟩
    · rintro ⟨n, hout, rfl⟩
      rw [herror, hout'.eq hout]

/-- What follows a search that has found its boundary does not fail, so the search does. -/
theorem past_bind_eq_error_iff {g : Nat → Except Fault Moment}
    (hg : ∀ n, c.Past limit 0 n → ∃ e, g n = .ok e) {f : Fault} :
    (c.past limit 0 >>= g) = .error f ↔ ∃ n, c.RunsOut limit 0 n ∧ f = yearFault (c.yearOf n) := by
  rw [← past_eq_error_iff hfirst hmonths hday]
  cases hpast : c.past limit 0 with
  | error fault => rw [error_bind, Except.error.injEq, Except.error.injEq]
  | ok n =>
    obtain ⟨e, he⟩ := hg n (past_of_pastFrom hpast)
    rw [ok_bind, he]
    constructor <;> nofun

end

/-! ### The end of a stretch -/

theorem endAfter_eq_ok_iff {target : Moment} {stop : Option Moment} (hfirst : c.first.Anchored)
    (htarget : target.Anchored) (hstop : ∀ s ∈ stop, s.Anchored) (hmonths : 1 ≤ c.months)
    (hday : 1 ≤ c.day) (e : Moment) : c.endAfter target stop = .ok e ↔ c.EndsAt target stop e := by
  have hcomparable := hfirst.comparable htarget
  constructor
  · exact endsAt_of_endAfter
  · intro h
    cases h with
    | stopped hreached =>
      have hbranch := (hstop e rfl).comparable htarget
      exact le_branch_eq_ok.mpr ⟨hbranch, if_pos hreached⟩
    | «open» hpast hb =>
      exact bind_eq_ok.mpr ⟨_, (past_eq_ok_iff hcomparable hmonths hday).mpr hpast, hb⟩
    | @capped k b s hahead hpast hb =>
      have hsearch := (past_eq_ok_iff hcomparable hmonths hday).mpr hpast
      have hligned := (aligned_of_boundary hb).1.anchored hfirst
      refine le_branch_eq_ok.mpr ⟨(hstop s rfl).comparable htarget, ?_⟩
      rw [if_neg (Int.not_le.mpr hahead), hsearch, ok_bind, hb, ok_bind]
      exact earlier_eq_ok.mpr ⟨(hstop s rfl).comparable hligned, rfl⟩

theorem endAfter_eq_error_iff {target : Moment} {stop : Option Moment} (hfirst : c.first.Anchored)
    (htarget : target.Anchored) (hstop : ∀ s ∈ stop, s.Anchored) (hmonths : 1 ≤ c.months)
    (hday : 1 ≤ c.day) (f : Fault) :
    c.endAfter target stop = .error f ↔ (∀ s ∈ stop, target.instant < s.instant) ∧
      ∃ n, c.RunsOut target 0 n ∧ f = yearFault (c.yearOf n) := by
  have hsearch {g : Nat → Except Fault Moment} (hg : ∀ n, c.Past target 0 n → ∃ e, g n = .ok e) :=
    past_bind_eq_error_iff (hfirst.comparable htarget) hmonths hday hg (f := f)
  cases stop with
  | none =>
    refine (hsearch fun n hpast => ?_).trans (by simp)
    obtain ⟨b, hb, -⟩ := hpast.after
    exact ⟨b, hb⟩
  | some s =>
    show (s.le target >>= _) = _ ↔ _
    rw [le_branch ((hstop s rfl).comparable htarget)]
    by_cases hreached : s.instant ≤ target.instant
    · -- the stop is returned before anything is searched
      rw [if_pos hreached]
      constructor
      · nofun
      · rintro ⟨hahead, -⟩
        have := hahead s rfl
        omega
    · rw [if_neg hreached]
      refine (hsearch fun n hpast => ?_).trans ?_
      · obtain ⟨b, hb, -⟩ := hpast.after
        have hanchored := (aligned_of_boundary hb).1.anchored hfirst
        rw [hb, ok_bind]
        exact ⟨_, earlier_eq_ok.mpr ⟨(hstop s rfl).comparable hanchored, rfl⟩⟩
      · simp [Int.not_le.mp hreached]

/-- **The end of a stretch is found, or the calendar ends before it.** The search for it always
ends. The end is the stop when the target has reached it, and else the first boundary after the
target or the stop when that comes before. None is found exactly when no stop has been reached and
the boundaries leave the year 9999 before they pass the target, and then the fault is the year of
the boundary that does. -/
theorem endAfter_iff {target : Moment} {stop : Option Moment} (hfirst : c.first.Anchored)
    (htarget : target.Anchored) (hstop : ∀ s ∈ stop, s.Anchored) (hmonths : 1 ≤ c.months)
    (hday : 1 ≤ c.day ∧ c.day ≤ 31) :
    c.endAfter target stop ≠ .error .endless ∧
      (∀ e, c.endAfter target stop = .ok e ↔ c.EndsAt target stop e) ∧
      ∀ f, c.endAfter target stop = .error f ↔ (∀ s ∈ stop, target.instant < s.instant) ∧
        ∃ n, c.RunsOut target 0 n ∧ f = yearFault (c.yearOf n) := by
  refine ⟨fun h => ?_, endAfter_eq_ok_iff hfirst htarget hstop hmonths hday.1,
    endAfter_eq_error_iff hfirst htarget hstop hmonths hday.1⟩
  obtain ⟨-, n, -, hyear⟩ := (endAfter_eq_error_iff hfirst htarget hstop hmonths hday.1 _).mp h
  unfold yearFault at hyear
  split at hyear <;> cases hyear

end Cycle

open Sample in
/-- From the last day of January on the third boundary is the last day of March, which a stop in
March comes before; and a year later than the last one there is no boundary. -/
theorem endAfter_iff_month_ends :
    ((hour 2020 1 31 9).Anchored ∧ (hour 2020 3 15 0).Anchored ∧ (1 : Int) ≤ 1 ∧
      ((1 : Int) ≤ 31 ∧ (31 : Int) ≤ 31)) ∧
      (⟨hour 2020 1 31 9, 1, 31⟩ : Cycle).endAfter (hour 2020 3 15 0) none =
        .ok (hour 2020 3 31 9) ∧
      (⟨hour 2020 1 31 9, 1, 31⟩ : Cycle).endAfter (hour 2020 3 15 0) (some (hour 2020 3 20 0)) =
        .ok (hour 2020 3 20 0) ∧
      (⟨hour 9999 6 30 9, 12, 30⟩ : Cycle).endAfter (hour 9999 7 15 0) none =
        .error (.year 10000) := by
  have hpast : (⟨hour 2020 1 31 9, 1, 31⟩ : Cycle).Past (hour 2020 3 15 0) 0 2 := by
    refine ⟨Nat.zero_le 2, fun j _ hj => ?_, hour 2020 3 31 9, rfl, by decide +kernel⟩
    obtain rfl | rfl : j = 0 ∨ j = 1 := by omega
    · exact ⟨hour 2020 1 31 9, rfl, by decide +kernel⟩
    · exact ⟨hour 2020 2 29 9, rfl, by decide +kernel⟩
  have hout : (⟨hour 9999 6 30 9, 12, 30⟩ : Cycle).RunsOut (hour 9999 7 15 0) 0 1 := by
    refine ⟨Nat.zero_le 1, fun j _ hj => ?_, by decide +kernel⟩
    obtain rfl : j = 0 := by omega
    exact ⟨hour 9999 6 30 9, rfl, by decide +kernel⟩
  have hanchored (y m d h : Nat) : (hour y m d h).Anchored := rfl
  have hnone : ∀ s ∈ (none : Option Moment), s.Anchored := by simp
  have hstop : ∀ s ∈ some (hour 2020 3 20 0), s.Anchored := by simp [hanchored]
  refine ⟨by decide, ?_, ?_, ?_⟩
  · exact ((Cycle.endAfter_iff (hanchored ..) (hanchored ..) hnone (by decide)
      (by decide)).2.1 _).mpr (.open hpast rfl)
  · exact ((Cycle.endAfter_iff (hanchored ..) (hanchored ..) hstop (by decide)
      (by decide)).2.1 _).mpr (.capped (by decide +kernel) hpast rfl)
  · exact ((Cycle.endAfter_iff (hanchored ..) (hanchored ..) hnone (by decide)
      (by decide)).2.2 _).mpr ⟨by simp, 1, hout, by decide +kernel⟩

end BillRun
