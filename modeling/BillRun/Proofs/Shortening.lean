import BillRun.Proofs.CycleDates

/-! The pieces of a stretch that is cut short.

A stretch that may run on is now stopped at a cap, and the target may have moved on. Where it ends
changes in one of three ways (`Cycle.Capped`): it was stopped at the instant of the cap already, it
ends at a boundary that the cap leaves in place, or it ends at the cap. Whichever it is, the pieces
that were over by the cap stay, but for one (`spans_cap`). When the old stop lies at the instant of
the cap and inside a cycle, the last piece is a stub (`Span.Stub`): its days are counted up to the
date of the stop, and now up to the date of the cap. -/
namespace BillRun

open Calendar

/-! ### Where the stretch ends -/

namespace Cycle

variable {c : Cycle}

/-- What becomes of the end of a stretch: `e` without the cap, `e'` with it. -/
inductive Capped (c : Cycle) (stop : Option Moment) (cap e e' : Moment) : Prop
  | stopped : stop = some e → e.instant = cap.instant → e' = cap → Capped c stop cap e e'
  | kept {k : Nat} : c.boundary k = .ok e → e.instant ≤ e'.instant → Capped c stop cap e e'
  | shortened : e' = cap → cap.instant < e.instant → Capped c stop cap e e'

variable {target target' : Moment} {stop : Option Moment} {cap e e' : Moment}

theorem capped_of_stop (hcap : cap.instant ≤ e.instant) : Capped c (some e) cap e cap := by
  rcases Int.lt_or_eq_of_le hcap with hlt | heq
  · exact .shortened rfl hlt
  · exact .stopped rfl heq.symm rfl

/-- A boundary past the target comes no later than one past a later target. -/
theorem EndsAt.capped_of_past (h' : c.EndsAt target' (some cap) e') (hmonths : 0 < c.months)
    (hle : target.instant ≤ target'.instant) {k : Nat} {b : Moment} (hk : c.Past target 0 k)
    (hb : c.boundary k = .ok b) : Capped c stop cap b e' := by
  have hcapped : Capped c stop cap b cap := by
    rcases Int.lt_or_le cap.instant b.instant with hlt | hge
    · exact .shortened rfl hlt
    · exact .kept hb hge
  cases h' with
  | stopped => exact hcapped
  | @capped _ b' _ _ hk' hb' =>
    split
    · exact hcapped
    · exact .kept hb (hk.mono hb hk' hb' hmonths hle).2

theorem EndsAt.capped_of_le (h : c.EndsAt target stop e) (h' : c.EndsAt target' (some cap) e')
    (hmonths : 0 < c.months) (hle : target.instant ≤ target'.instant)
    (hcap : ∀ t, stop = some t → cap.instant ≤ t.instant) : Capped c stop cap e e' := by
  cases h with
  | stopped =>
    have hearly := hcap e rfl
    obtain rfl : e' = cap := by
      cases h' with
      | stopped => rfl
      | capped hlt => omega
    exact capped_of_stop hearly
  | «open» hk hb => exact h'.capped_of_past hmonths hle hk hb
  | @capped k b t _ hk hb =>
    have hearly := hcap t rfl
    split
    · -- the stop came before the first boundary past the target, and so does the cap
      obtain rfl : e' = cap := by
        cases h' with
        | stopped => rfl
        | capped _ hk' hb' =>
          have hgrown := (hk.mono hb hk' hb' hmonths hle).2
          exact if_pos (by omega)
      exact capped_of_stop hearly
    · exact h'.capped_of_past hmonths hle hk hb

end Cycle

/-! ### Pieces up to an earlier end -/

/-- The piece is a part of a full cycle and stops before the end of that cycle. -/
structure Span.Stub (c : Cycle) (low high : Moment) (s : Span) : Prop where
  full : c.Full low high
  part : s.PartOf low high
  lt_high : s.stop.instant < high.instant

namespace Proration

variable {c : Cycle} {start e e' : Moment} {pieces pieces' : List Span}

theorem leading_until {before before' : List Span} (hlt : e'.instant < e.instant)
    (h : leading c start e = .ok before) (h' : leading c start e' = .ok before') :
    (before.filter fun s => s.stop.instant ≤ e'.instant).Sublist before' := by
  rcases Int.lt_or_le e'.instant c.first.instant with hearly | hge
  · -- the only piece runs to the first boundary or to the old end
    rw [List.filter_eq_nil_iff.mpr]
    · exact List.nil_sublist before'
    intro s hs
    rcases (mem_leading h hs).2 with hstop | hstop <;> simp only [hstop, decide_eq_true_eq] <;>
      omega
  · have hfirst := leading_of_first_le (by omega) h
    obtain rfl := Except.ok.inj (hfirst.symm.trans (leading_of_first_le hge h'))
    exact List.filter_sublist

/-- The pieces that are over by an earlier end are among those up to that end. -/
theorem cut_until (hmonths : 0 < c.months) (hlt : e'.instant < e.instant)
    (h : cut c start e = .ok pieces) (h' : cut c start e' = .ok pieces') :
    (pieces.filter fun s => s.stop.instant ≤ e'.instant).Sublist pieces' := by
  obtain ⟨before, n, cycles, after, hbefore, hn, hcycles, hafter, rfl⟩ := cut_eq_ok.mp h
  obtain ⟨before', n', cycles', after', hbefore', hn', hcycles', -, rfl⟩ := cut_eq_ok.mp h'
  have hpast := Cycle.past_of_pastFrom hn
  have hpast' := Cycle.past_of_pastFrom hn'
  have hcount : n' ≤ n := by
    refine Nat.le_of_not_lt fun hmore => ?_
    obtain ⟨b, hb, hbe⟩ := hpast'.before (n + 1) (by omega) (by omega)
    have := (hpast.le_limit_iff hmonths hb (by omega)).mp (by omega)
    omega
  obtain ⟨m, rfl⟩ := Nat.exists_eq_add_of_le hcount
  rw [List.range_add, List.mapM_append] at hcycles
  obtain ⟨same, hsame, hcycles⟩ := bind_eq_ok.mp hcycles
  obtain ⟨later, hlater, hcycles⟩ := bind_eq_ok.mp hcycles
  cases hcycles
  obtain rfl : cycles' = same := Except.ok.inj (hcycles'.symm.trans hsame)
  -- the cycles that the earlier end cuts off are not over by then
  have hdropped : (later.filter fun s => s.stop.instant ≤ e'.instant) = [] := by
    refine List.filter_eq_nil_iff.mpr fun s hs => ?_
    obtain ⟨j, hj, hcycle⟩ := exists_of_mem_right (mapM_eq_ok.mp hlater) hs
    obtain ⟨i, -, rfl⟩ := List.mem_map.mp hj
    have hover := hpast'.le_limit_iff hmonths (wholeCycle_eq_ok.mp hcycle).2.1 (by omega)
    simp only [decide_eq_true_eq, hover]
    omega
  have hstub : (after.filter fun s => s.stop.instant ≤ e'.instant) = [] := by
    refine List.filter_eq_nil_iff.mpr fun s hs => ?_
    simp only [(mem_trailing hafter hs).2.2, decide_eq_true_eq]
    omega
  rw [List.filter_append, List.filter_append, List.filter_append, hdropped, hstub, List.append_nil,
    List.append_nil]
  exact ((leading_until hlt hbefore hbefore').append List.filter_sublist).trans
    (List.sublist_append_left _ after')

/-! ### Pieces up to the same instant -/

/-- What one end leaves of a stretch beyond the pieces that it shares with another end at the same
instant: nothing, or a stub up to the one end, which the other end has as well when there are days
up to it. -/
def LeavesStub (c : Cycle) (e e' : Moment) (stub stub' : List Span) : Prop :=
  stub = [] ∨ ∃ t low high, stub = [share t e low high] ∧ (share t e low high).Stub c low high ∧
    (0 < t.daysBetween e' → stub' = [share t e' low high])

/-- What is kept of pieces with a stub has counterparts, as long as a stub that is kept has one. -/
theorem LeavesStub.sublistForall₂ {same stub stub' kept : List Span} {R : Span → Span → Prop}
    [Std.Refl R] (h : LeavesStub c e e' stub stub') (hkept : kept.Sublist (same ++ stub))
    (hstub : ∀ t low high, share t e low high ∈ kept → (share t e low high).Stub c low high →
      0 < t.daysBetween e' ∧ R (share t e low high) (share t e' low high)) :
    List.SublistForall₂ R kept (same ++ stub') := by
  obtain ⟨kept, last, rfl, hsame, hlast⟩ := List.sublist_append_iff.mp hkept
  have hstay : List.Forall₂ R kept kept := List.forall₂_refl kept
  have hplain : List.SublistForall₂ R (kept ++ []) (same ++ stub') := by
    rw [List.append_nil]
    exact (hsame.trans (List.sublist_append_left same stub')).sublistForall₂
  rcases h with rfl | ⟨t, low, high, rfl, hs, hcounterpart⟩
  · obtain rfl := List.sublist_nil.mp hlast
    exact hplain
  rcases List.sublist_singleton.mp hlast with rfl | rfl
  · exact hplain
  obtain ⟨hdays, halike⟩ := hstub t low high (by simp) hs
  rw [hcounterpart hdays]
  exact List.sublistForall₂_iff.mpr ⟨kept ++ [share t e' low high],
    List.rel_append hstay (.cons halike .nil), hsame.append (.refl _)⟩

theorem leading_stub (hearly : e.instant < c.first.instant) (hmark : e.mark = e'.mark)
    (hstart : start.instant ≤ e.instant)
    (hprevious : ∀ b, c.first.addMonthsOnDay (-c.months) c.day = .ok b →
      b.instant ≤ start.instant) (h : leading c start e = .ok pieces)
    (h' : leading c start e' = .ok pieces') : LeavesStub c e e' pieces pieces' := by
  have hinstant : e.instant = e'.instant := congrArg Mark.instant hmark
  rcases leading_cases h with hnone | ⟨pieceEnd, previous, hlt, hend, hat, hdays, hlow, rfl⟩
  · exact .inl hnone
  obtain rfl : pieceEnd = e := hend.resolve_right fun hfirst => by
    rw [hfirst] at hat
    omega
  refine .inr ⟨start, previous, c.first, rfl,
    ⟨.before hlow, ⟨hprevious previous hlow, hstart, Int.le_of_lt hearly, hdays, rfl⟩, hearly⟩,
    fun hdays' => ?_⟩
  obtain ⟨-, h'⟩ := leading_eq_ok.mp h'
  rw [if_pos hlt] at h'
  obtain ⟨pieceEnd', hend', h'⟩ := h'
  obtain ⟨-, rfl⟩ := Moment.earlier_eq_ok.mp hend'
  rw [if_pos (show e'.instant < c.first.instant by omega), if_pos hdays'] at h'
  obtain ⟨previous', hlow', rfl⟩ := h'
  obtain rfl := Except.ok.inj (hlow.symm.trans hlow')
  rfl

theorem trailing_stub {k : Nat} {next : Moment} (hnext : c.boundary (k + 1) = .ok next)
    (hearly : e.instant < next.instant) (hmark : e.mark = e'.mark) {after after' : List Span}
    (h : trailing c k e = .ok after) (h' : trailing c k e' = .ok after') :
    LeavesStub c e e' after after' := by
  have hinstant : e.instant = e'.instant := congrArg Mark.instant hmark
  obtain ⟨last, hlast, hnone | ⟨next', hlt, hdays, hnext', rfl⟩⟩ := trailing_cases h
  · exact .inl hnone
  obtain rfl := Except.ok.inj (hnext.symm.trans hnext')
  refine .inr ⟨last, last, next, rfl, ⟨.onward hlast hnext,
    ⟨Int.le_refl _, Int.le_of_lt hlt, Int.le_of_lt hearly, hdays, rfl⟩, hearly⟩, fun hdays' => ?_⟩
  obtain ⟨last', hlast', -, h'⟩ := trailing_eq_ok.mp h'
  obtain rfl := Except.ok.inj (hlast.symm.trans hlast')
  rw [if_pos (by omega), if_pos hdays'] at h'
  obtain ⟨next', hnext', rfl⟩ := h'
  obtain rfl := Except.ok.inj (hnext.symm.trans hnext')
  rfl

/-- Two ends at one instant give the same pieces but for a stub. -/
theorem cut_stub (hmonths : 0 < c.months) (hmark : e.mark = e'.mark)
    (hstart : start.instant ≤ e.instant)
    (hprevious : ∀ b, c.first.addMonthsOnDay (-c.months) c.day = .ok b →
      b.instant ≤ start.instant) (h : cut c start e = .ok pieces)
    (h' : cut c start e' = .ok pieces') :
    ∃ same stub stub', pieces = same ++ stub ∧ pieces' = same ++ stub' ∧
      LeavesStub c e e' stub stub' := by
  have hinstant : e.instant = e'.instant := congrArg Mark.instant hmark
  rcases Int.lt_or_le e.instant c.first.instant with hearly | hreached
  · have hlead := leading_of_cut hmonths hearly h
    have hlead' := leading_of_cut hmonths (by omega) h'
    exact ⟨[], pieces, pieces', rfl, rfl,
      leading_stub hearly hmark hstart hprevious hlead hlead'⟩
  · obtain ⟨before, n, cycles, after, hbefore, hn, hcycles, hafter, rfl⟩ := cut_eq_ok.mp h
    obtain ⟨before', n', cycles', after', hbefore', hn', hcycles', hafter', rfl⟩ := cut_eq_ok.mp h'
    have hfirst := leading_of_first_le hreached hbefore
    have hfirst' := leading_of_first_le (by omega) hbefore'
    obtain rfl := Except.ok.inj (hfirst.symm.trans hfirst')
    obtain ⟨next, hnext, hlate⟩ := (Cycle.past_of_pastFrom hn).after
    unfold Cycle.past at hn hn'
    rw [Cycle.pastFrom_congr hmark, hn'] at hn
    obtain rfl : n' = n := Nat.succ.inj (Except.ok.inj hn)
    obtain rfl := Except.ok.inj (hcycles.symm.trans hcycles')
    exact ⟨before ++ cycles, after, after', rfl, rfl,
      trailing_stub hnext hlate hmark hafter hafter'⟩

/-! ### Pieces up to a cap -/

variable {stop : Option Moment} {cap target target' : Moment} {d : CycleDay} {period : Period}

/-- **A cap leaves alone the pieces that are over by then.** They stay as they are, and a stub up to
a stop at the instant of the cap is replaced by the one up to the cap, where `R` allows it. -/
theorem spans_cap (h : spans start stop target d.day period = .ok pieces)
    (h' : spans start (some cap) target' d.day period = .ok pieces')
    (hle : target.instant ≤ target'.instant)
    (hcap : ∀ t, stop = some t → cap.instant ≤ t.instant) {R : Span → Span → Prop} [Std.Refl R]
    {kept : List Span} (hkept : kept.Sublist pieces)
    (hover : ∀ s ∈ kept, s.stop.instant ≤ cap.instant)
    (hstub : ∀ s ∈ kept, stop = some s.stop → s.stop.instant = cap.instant → ∀ first low high,
      firstDate start d.day = .ok first → s.Stub ⟨first, period.months, d.day⟩ low high →
      0 < s.start.daysBetween cap ∧ R s (share s.start cap low high)) :
    List.SublistForall₂ R kept pieces' := by
  obtain ⟨hbefore, -, hperiod, first, e, hfirst, he, hcut⟩ := spans_eq_ok.mp h
  obtain ⟨hbefore', -, -, first', e', hfirst', he', hcut'⟩ := spans_eq_ok.mp h'
  obtain rfl := Except.ok.inj (hfirst.symm.trans hfirst')
  have hmonths : (0 : Int) < period.months := by omega
  cases (Cycle.endsAt_of_endAfter he).capped_of_le (Cycle.endsAt_of_endAfter he') hmonths hle
    hcap with
  | stopped hstop hinstant he' =>
    subst hstop
    subst he'
    obtain ⟨hcomparable, hstart⟩ := Moment.lt_eq_ok.mp hbefore
    obtain ⟨hcomparable', -⟩ := Moment.lt_eq_ok.mp hbefore'
    have hmark := Moment.mark_congr (hcomparable.trans hcomparable'.symm) hinstant
    have hback (b : Moment) (hb : first.addMonthsOnDay (-period.months) d.day = .ok b) :
        b.instant ≤ start.instant := Int.le_of_lt (lt_start_of_back hfirst (by omega) hb)
    obtain ⟨same, stub, stub', rfl, rfl, hleaves⟩ :=
      cut_stub hmonths hmark (by simpa using hstart) hback hcut hcut'
    exact hleaves.sublistForall₂ hkept fun t low high hmem =>
      hstub _ hmem rfl hinstant first low high hfirst
  | kept hk hgrown =>
    obtain ⟨more, rfl, -⟩ := cut_append hmonths hk hgrown hcut hcut'
    exact (hkept.trans (List.sublist_append_left pieces more)).sublistForall₂
  | shortened he' hlt =>
    subst he'
    have hall : (kept.filter fun s => s.stop.instant ≤ e'.instant) = kept :=
      List.filter_eq_self.mpr fun s hs => decide_eq_true (hover s hs)
    have huntil := (hkept.filter _).trans (cut_until hmonths hlt hcut hcut')
    rw [hall] at huntil
    exact huntil.sublistForall₂

end Proration

end BillRun
