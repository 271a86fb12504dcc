import BillRun.Proofs.Amounts
import BillRun.Proofs.Arranging
import BillRun.Proofs.Requests

/-! Why a run is refused.

Three faults lie in what is asked for and not in a computation: dates out of sequence, a target
beyond the horizon, and a period without a cycle. A step that never fails for one of them is
`Timely`, and steps of steps that are timely are timely too. Cutting a stretch into pieces is timely
once the stretch is due and ends no earlier than it starts (`Proration.timely_spans`). Events in
order see to the second and the guard of each event to the first, so that a whole timeline is timely
(`Timeline.timely_expand`). What is left is the horizon: a run is refused when its target lies
beyond it, and for no other reason (`run_eq_untimely`), and so is a request to the service
(`refused_iff_beyond`). -/
namespace BillRun

open Calendar

/-- The fault lies in the dates, in the target or in the period that is asked for. -/
def Fault.untimely : Fault → Bool
  | dateSequence .. | horizon .. | noCycle _ => true
  | _ => false

/-- Whatever it fails for, it is not for what is asked. -/
def Timely {α : Type} (x : Except Fault α) : Prop := ∀ f, x = .error f → f.untimely = false

/-! ### Steps -/

section
variable {α β : Type}

theorem timely_ok (a : α) : Timely (.ok a) := by
  intro f h
  cases h

theorem timely_error {f : Fault} (h : f.untimely = false) : Timely (.error f : Except Fault α) := by
  rintro _ ⟨⟩
  exact h

theorem Timely.bind {x : Except Fault α} {g : α → Except Fault β} (hx : Timely x)
    (hg : ∀ a, x = .ok a → Timely (g a)) : Timely (x >>= g) := by
  cases x with
  | error e =>
    rintro _ ⟨⟩
    exact hx e rfl
  | ok a => exact hg a rfl

theorem Timely.map {x : Except Fault α} (hx : Timely x) (g : α → β) : Timely (g <$> x) :=
  fun f h => hx f (map_eq_error.mp h)

theorem timely_ite {p : Prop} [Decidable p] {x y : Except Fault α} (hx : p → Timely x)
    (hy : ¬p → Timely y) : Timely (if p then x else y) := by
  split
  · exact hx ‹_›
  · exact hy ‹_›

theorem timely_mapM {g : α → Except Fault β} (hg : ∀ a, Timely (g a)) (xs : List α) :
    Timely (xs.mapM g) := by
  intro f h
  obtain ⟨a, -, ha⟩ := mapM_eq_error h
  exact hg a f ha

end

/-! ### Moments -/

theorem Month.timely_shift (m : Month) (n : Int) : Timely (m.shift n) := by
  unfold Month.shift
  dsimp only
  split
  · exact timely_ok _
  · unfold yearFault
    split <;> exact timely_error rfl

namespace Calendar.Moment

theorem timely_lt (s t : Moment) : Timely (s.lt t) :=
  timely_ite (fun _ => timely_ok _) fun _ => timely_error rfl

theorem timely_le (s t : Moment) : Timely (s.le t) :=
  timely_ite (fun _ => timely_ok _) fun _ => timely_error rfl

theorem timely_earlier (s t : Moment) : Timely (s.earlier t) :=
  (timely_lt t s).bind fun _ _ => timely_ite (fun _ => timely_ok _) fun _ => timely_ok _

theorem timely_onDay (t : Moment) (day : Int) : Timely (t.onDay day) := by
  unfold onDay
  split
  · exact timely_ok _
  · split <;> exact timely_error rfl

theorem timely_addMonths (t : Moment) (n : Int) : Timely (t.addMonths n) :=
  (Month.timely_shift _ n).bind fun _ _ => timely_ok _

theorem timely_addMonthsOnDay (t : Moment) (n day : Int) : Timely (t.addMonthsOnDay n day) :=
  (Month.timely_shift _ n).bind fun _ _ => timely_onDay _ day

theorem timely_monthsBetween (s t : Moment) : Timely (s.monthsBetween t) := by
  unfold monthsBetween
  refine timely_ite (fun _ => ?_) fun _ => timely_ite (fun _ => ?_) fun _ => timely_ok _
  · exact (timely_addMonths s _).bind fun _ _ => (timely_lt t _).bind fun _ _ =>
      timely_ite (fun _ => timely_ok _) fun _ => timely_ok _
  · exact (timely_addMonths s _).bind fun _ _ => (timely_lt _ t).bind fun _ _ =>
      timely_ite (fun _ => timely_ok _) fun _ => timely_ok _

theorem timely_addDays (t : Moment) (n : Int) : Timely (t.addDays n) := by
  unfold addDays
  split
  · exact timely_error rfl
  · split
    · exact timely_ok _
    · exact timely_error rfl

end Calendar.Moment

open Moment

theorem PhaseLength.timely_after (p : PhaseLength) (t : Moment) : Timely (p.after t) := by
  unfold PhaseLength.after
  split
  · exact timely_ok _
  · exact timely_ok _
  · exact (timely_addDays t _).map _
  · exact (timely_addMonths t _).map _
  · exact (timely_addMonths t _).map _

/-! ### Cycles and pieces -/

theorem timely_firstDate (start : Moment) (day : Int) : Timely (firstDate start day) :=
  (timely_onDay start day).bind fun _ _ => (timely_lt _ start).bind fun _ _ =>
    timely_ite (fun _ => timely_addMonthsOnDay start 1 day) fun _ => timely_ok _

namespace Cycle

variable (c : Cycle)

theorem timely_boundary : (k : Nat) → Timely (c.boundary k)
  | 0 => timely_ok _
  | _ + 1 => timely_addMonthsOnDay c.first _ c.day

theorem timely_pastFrom (limit : Moment) (fuel k : Nat) : Timely (c.pastFrom limit fuel k) := by
  induction fuel generalizing k with
  | zero => exact timely_error rfl
  | succ fuel ih =>
    exact (c.timely_boundary k).bind fun b _ => (timely_le b limit).bind fun _ _ =>
      timely_ite (fun _ => ih (k + 1)) fun _ => timely_ok _

theorem timely_past (limit : Moment) (k : Nat) : Timely (c.past limit k) :=
  c.timely_pastFrom limit searchLength k

theorem timely_endAfter (target : Moment) (stop : Option Moment) :
    Timely (c.endAfter target stop) := by
  have hboundary : ∀ k, c.past target 0 = .ok k → Timely (c.boundary k) :=
    fun k _ => c.timely_boundary k
  cases stop with
  | none => exact (c.timely_past target 0).bind hboundary
  | some stop =>
    refine (timely_le stop target).bind fun _ _ => timely_ite (fun _ => timely_ok _) fun _ => ?_
    exact (c.timely_past target 0).bind fun k hk => (hboundary k hk).bind fun b _ =>
      timely_earlier b stop

end Cycle

namespace Proration

theorem timely_leading (c : Cycle) (start stop : Moment) : Timely (leading c start stop) :=
  (timely_lt start c.first).bind fun _ _ => timely_ite
    (fun _ => (timely_earlier c.first stop).bind fun _ _ => timely_ite
      (fun _ => (timely_addMonthsOnDay c.first _ c.day).bind fun _ _ => timely_ok _)
      fun _ => timely_ok _)
    fun _ => timely_ok _

theorem timely_wholeCycle (c : Cycle) (k : Nat) : Timely (wholeCycle c k) :=
  (c.timely_boundary k).bind fun _ _ => (c.timely_boundary (k + 1)).bind fun _ _ => timely_ok _

theorem timely_trailing (c : Cycle) (k : Nat) (stop : Moment) : Timely (trailing c k stop) :=
  (c.timely_boundary k).bind fun last _ => (timely_lt last stop).bind fun _ _ => timely_ite
    (fun _ => timely_ite (fun _ => (c.timely_boundary (k + 1)).bind fun _ _ => timely_ok _)
      fun _ => timely_ok _)
    fun _ => timely_ok _

/-- **A stretch that is due and does not stop before it starts is cut** without complaint about its
dates. -/
theorem timely_spans {start target : Moment} {stop : Option Moment} {period : Period} (day : Int)
    (hstop : stopsBefore stop start = .ok false) (hdue : target.lt start = .ok false)
    (hperiod : period.months ≠ 0) : Timely (spans start stop target day period) := by
  unfold spans
  rw [hstop, ok_bind, if_neg Bool.false_ne_true, hdue, ok_bind, if_neg Bool.false_ne_true,
    if_neg hperiod]
  refine (timely_firstDate start day).bind fun first _ => ?_
  refine (Cycle.timely_endAfter _ target stop).bind fun stretchEnd _ => ?_
  refine (timely_leading _ start stretchEnd).bind fun before _ => ?_
  refine ((Cycle.timely_past _ stretchEnd 1).bind fun _ _ => timely_ok _).bind fun count _ => ?_
  refine (timely_mapM (timely_wholeCycle _) _).bind fun cycles _ => ?_
  exact (timely_trailing _ count stretchEnd).bind fun after _ => timely_ok _

end Proration

/-! ### Amounts -/

theorem Decimal.timely_finish (d : Decimal) : Timely d.finish := by
  intro f h
  rw [finish_eq_error h]
  rfl

theorem Decimal.timely_quantize (mode : Rounding) (e : Int) (d : Decimal) :
    Timely (d.quantize mode e) := by
  unfold quantize
  refine timely_ite (fun _ => timely_ok _) fun _ => ?_
  refine timely_ite (fun _ => timely_error rfl) fun _ => ?_
  exact timely_ite (fun _ => timely_error rfl) fun _ => timely_ok _

theorem Terms.timely_charge (t : Terms) (cycles rate : Decimal) :
    Timely (t.charge cycles rate) := by
  have hquantum : Timely t.quantum :=
    timely_ite (fun _ => timely_error rfl) fun _ => Decimal.timely_finish _
  refine (Decimal.timely_finish _).bind fun exact _ => hquantum.bind fun unit _ => ?_
  split
  · exact timely_error rfl
  · exact Decimal.timely_quantize _ _ exact

/-! ### Events -/

namespace Event

variable {e : Event} {successor : Option Event}

theorem timely_fixedCharges (target : Moment) (currency : LooseText) :
    Timely (e.fixedCharges target currency) := by
  unfold fixedCharges
  refine (timely_lt target e.effective).bind fun _ _ => ?_
  refine timely_ite (fun _ => timely_ok _) fun _ => ?_
  cases e.fixedPrice with
  | none => exact timely_ok _
  | some price =>
    cases e.phaseLength with
    | none => exact timely_ok _
    | some length => exact (length.timely_after e.effective).bind fun _ _ => timely_ok _

theorem months_ne_zero (h : e.recurs = true) : e.period.months ≠ 0 := by
  unfold recurs at h
  cases hperiod : e.period <;> simp [hperiod, Period.months] at h ⊢

/-- An event is billed only once it is in effect, so all that it needs is a successor that does not
come before it. -/
theorem timely_charges
    (hsuccessor : Proration.stopsBefore (successor.map (·.effective)) e.effective = .ok false)
    (terms : Terms) (target : Moment) (currency : LooseText) :
    Timely (e.charges successor terms target currency) := by
  refine (timely_fixedCharges target currency).bind fun fixed _ => ?_
  refine Timely.bind ?_ fun recurring _ => timely_ok _
  rw [recurringCharges_eq]
  refine timely_ite (fun _ => timely_ok _) fun hrecurs => ?_
  refine (timely_le e.effective target).bind fun due hle => ?_
  refine timely_ite (fun hdue => ?_) fun _ => timely_ok _
  rw [hdue] at hle
  obtain ⟨hcomparable, hinstant⟩ := le_eq_true.mp hle
  have hlt : target.lt e.effective = .ok false :=
    lt_eq_ok.mpr ⟨hcomparable.symm, by simpa using hinstant⟩
  have hmode : Timely e.mode.check := by
    cases e.mode
    · exact timely_ok _
    · exact timely_error rfl
  refine hmode.bind fun _ _ => ?_
  refine (Proration.timely_spans _ hsuccessor hlt (months_ne_zero (by simpa using hrecurs))).bind
    fun pieces _ => ?_
  split
  · exact timely_ok _
  · exact timely_mapM (fun s => (terms.timely_charge s.cycles _).bind fun _ _ => timely_ok _) pieces

end Event

namespace Timeline

/-- In order, no successor comes before its event. -/
theorem stopsBefore_successor {e : Event} {later : List Event}
    (h : ∀ f ∈ later, Comparable e.effective f.effective ∧
      e.effective.instant ≤ f.effective.instant) :
    Proration.stopsBefore ((successor e later).map (·.effective)) e.effective = .ok false := by
  cases hsuccessor : successor e later with
  | none => rfl
  | some f =>
    obtain ⟨hcomparable, hle⟩ := h f (List.mem_of_find?_eq_some hsuccessor)
    exact lt_eq_ok.mpr ⟨hcomparable.symm, by simpa using hle⟩

theorem timely_chargesOf {events : List Event}
    (hsorted : events.Pairwise fun a b => Comparable a.effective b.effective ∧
      a.effective.instant ≤ b.effective.instant)
    (terms : Terms) (target : Moment) (currency : LooseText) :
    Timely (chargesOf terms target currency events) := by
  induction events with
  | nil => exact timely_ok _
  | cons e events ih =>
    rw [List.pairwise_cons] at hsorted
    refine (Event.timely_charges (stopsBefore_successor hsorted.1) terms target currency).bind ?_
    exact fun first _ => (ih hsorted.2).bind fun rest _ => timely_ok _

/-- **A timeline is never out of sequence**, whatever its events and the target. -/
theorem timely_expand {events : List Event} {timeline : Timeline}
    (h : Timeline.of events = .ok timeline) (terms : Terms) (now : Moment) (ids : Nat → Uuid)
    (invoice : Uuid) (target : Moment) (currency : LooseText) :
    Timely (timeline.expand terms now ids invoice target currency) :=
  (timely_chargesOf (sorted_of_of h) terms target currency).bind fun _ _ => timely_ok _

theorem timely_of (events : List Event) : Timely (Timeline.of events) := by
  rw [of_eq]
  exact timely_ite (fun _ => timely_ok _) fun _ => timely_error rfl

end Timeline

/-! ### Runs -/

theorem Item.timely_arrange (items : List Item) : Timely (Item.arrange (fun i => i) items) :=
  timely_ite (fun _ => timely_ok _) fun _ => timely_error rfl

theorem Settlement.timely_settle (proposed existing : List Item) (ids : Nat → Uuid) (invoice : Uuid)
    (now : Moment) : Timely (settle proposed existing ids invoice now) := by
  rw [settle_eq]
  refine Timely.map ?_ _
  generalize (pairOff proposed (surviving existing)).2 = items
  induction items generalizing ids with
  | nil => exact timely_ok _
  | cons i items ih =>
    unfold credits Item.credit?
    cases i.charge.basis with
    | fixed => exact ih ids
    | recurring rate reverses =>
      refine ((Decimal.timely_finish _).bind fun _ _ => timely_ok _).bind fun _ _ => ?_
      exact (ih _).bind fun _ _ => timely_ok _

theorem timely_latestTarget (target : Moment) (issued : List Invoice) :
    Timely (latestTarget target issued) := by
  induction issued generalizing target with
  | nil => exact timely_ok _
  | cons v issued ih =>
    exact (timely_lt target v.target).bind fun _ _ => timely_ite (fun _ => ih _) fun _ => ih _

namespace Terms

variable {t : Terms} {now target : Moment}

/-- The target lies more whole months ahead than the terms allow. -/
def Beyond (t : Terms) (now target : Moment) : Prop :=
  ∃ months, now.monthsBetween target = .ok months ∧ t.horizon < months

theorem checkHorizon_of_beyond (h : t.Beyond now target) :
    t.checkHorizon now target = .error (.horizon target t.horizon) := by
  obtain ⟨months, hmonths, hlt⟩ := h
  unfold checkHorizon
  rw [hmonths, ok_bind, if_pos hlt]
  rfl

theorem timely_checkHorizon (h : ¬t.Beyond now target) : Timely (t.checkHorizon now target) := by
  refine (timely_monthsBetween now target).bind fun months hmonths => ?_
  rw [if_neg fun hlt => h ⟨months, hmonths, hlt⟩]
  exact timely_ok _

end Terms

variable {o : Occasion} {events : List Event} {issued : List Invoice} {r : RunRequest}

theorem timely_run (h : events ≠ [] → ¬o.terms.Beyond o.now r.target) :
    Timely (o.run events issued r) := by
  refine (Timeline.timely_of events).bind fun timeline htimeline => ?_
  refine timely_ite (fun _ => timely_ok _) fun hne => ?_
  have hevents : events ≠ [] := by
    rintro rfl
    rw [Timeline.of_nil] at htimeline
    cases htimeline
    exact hne rfl
  refine (Terms.timely_checkHorizon (h hevents)).bind fun _ _ => ?_
  refine (Item.timely_arrange _).bind fun existing _ => ?_
  refine (timely_latestTarget r.target issued).bind fun target _ => ?_
  refine (Timeline.timely_expand htimeline _ _ _ _ _ _).bind fun proposed _ => ?_
  refine (Settlement.timely_settle _ _ _ _ _).bind fun new _ => ?_
  exact timely_ite (fun _ => timely_ok _) fun _ => timely_ok _

theorem run_of_beyond (hne : events ≠ []) (horderable : Event.orderable events = true)
    (h : o.terms.Beyond o.now r.target) :
    o.run events issued r = .error (.horizon r.target o.terms.horizon) := by
  have htimeline : Timeline.of events = .ok ⟨events.mergeSort Event.le⟩ := by
    rw [Timeline.of_eq, if_pos horderable]
  unfold Occasion.run
  rw [htimeline, ok_bind, Timeline.not_isEmpty_of_of hne htimeline, if_neg Bool.false_ne_true,
    Terms.checkHorizon_of_beyond h]
  rfl

/-- **A run is refused for its horizon only**, and then whenever its events can be put in order and
its target lies beyond it. -/
theorem run_eq_untimely {f : Fault} (hf : f.untimely = true) :
    o.run events issued r = .error f ↔ events ≠ [] ∧ Event.orderable events = true ∧
      o.terms.Beyond o.now r.target ∧ f = .horizon r.target o.terms.horizon := by
  constructor
  · intro h
    have hbeyond : events ≠ [] ∧ o.terms.Beyond o.now r.target := by
      by_contra hnot
      rw [timely_run (fun hne hbeyond => hnot ⟨hne, hbeyond⟩) f h] at hf
      cases hf
    have horderable : Event.orderable events = true := by
      by_contra hnot
      have hof : Timeline.of events = .error .incomparable := by rw [Timeline.of_eq, if_neg hnot]
      unfold Occasion.run at h
      rw [hof, error_bind] at h
      cases h
      cases hf
    rw [run_of_beyond hbeyond.1 horderable hbeyond.2] at h
    cases h
    exact ⟨hbeyond.1, horderable, hbeyond.2, rfl⟩
  · rintro ⟨hne, horderable, hbeyond, rfl⟩
    exact run_of_beyond hne horderable hbeyond

/-! ### The service -/

theorem untimely_of_refused {f : Fault} (h : f.refused = true) : f.untimely = true := by
  cases f with
  | dateSequence | horizon => rfl
  | _ => cases h

theorem Timely.ne_of_untimely {α : Type} {x : Except Fault α} (hx : Timely x) {f : Fault}
    (hf : f.untimely = true) : x ≠ .error f := by
  rintro rfl
  rw [hx f rfl] at hf
  cases hf

namespace Service

/-- Dates that have been read all carry an offset. -/
theorem Request.Legible.orderable {r : Request} (h : r.Legible) :
    Event.orderable r.events = true :=
  Event.orderable_of_anchored fun e he => (h.events e he).effective.anchored

/-- **Dates are never out of sequence, and no cycle is ever missing**: neither in the expansion of a
timeline nor in a run. So the service refuses a request that it has read and that says what time it
is exactly when there are events and the target lies beyond the horizon. -/
theorem refused_iff_beyond (terms : Terms) :
    (∀ events timeline now ids invoice target currency,
      Timeline.of events = .ok timeline →
      (∀ start stop t, timeline.expand terms now ids invoice target currency ≠
        .error (.dateSequence start stop t)) ∧
      ∀ period, timeline.expand terms now ids invoice target currency ≠
        .error (.noCycle period)) ∧
    (∀ now ids events issued r,
      (∀ start stop t, (⟨terms, now, ids⟩ : Occasion).run events issued r ≠
        .error (.dateSequence start stop t)) ∧
      ∀ period, (⟨terms, now, ids⟩ : Occasion).run events issued r ≠ .error (.noCycle period)) ∧
    ∀ present ids body r now, request body = .value r → r.now = some now →
      ((∃ j, generate terms present ids body = .ok ⟨400, j⟩) ↔
        r.events ≠ [] ∧ ∃ months, now.monthsBetween r.target = .ok months ∧
          terms.horizon < months) := by
  refine ⟨fun events timeline now ids invoice target currency htimeline => ?_,
    fun now ids events issued r => ⟨fun start stop t h => ?_, fun period h => ?_⟩,
    fun present ids body r now hread hnow => ?_⟩
  · have htimely := Timeline.timely_expand htimeline terms now ids invoice target currency
    exact ⟨fun start stop t => htimely.ne_of_untimely rfl,
      fun period => htimely.ne_of_untimely rfl⟩
  · cases ((run_eq_untimely rfl).mp h).2.2.2
  · cases ((run_eq_untimely rfl).mp h).2.2.2
  · rw [generate_of_request hread, replyTo_eq_refusal, run_of_now hnow]
    constructor
    · rintro ⟨f, hf, hrefused⟩
      obtain ⟨hne, -, hbeyond, -⟩ := (run_eq_untimely (untimely_of_refused hrefused)).mp hf
      exact ⟨hne, hbeyond⟩
    · rintro ⟨hne, hbeyond⟩
      exact ⟨_, run_of_beyond hne (legible_of_request hread).orderable hbeyond, rfl⟩

open Sample in
/-- Nothing is refused that asks for the next month, and a date ten years on is. -/
theorem refused_iff_beyond_posted :
    (¬∃ j, generate .standard (day 1 1) uuid
      (posted "2020-01-10T00:00:00Z" "2020-02-05T00:00:00Z" "2020-01-12T00:00:00Z") =
        .ok ⟨400, j⟩) ∧
    ∃ j, generate .standard (day 1 1) uuid
      (posted "2020-01-10T00:00:00Z" "2030-02-05T00:00:00Z" "2020-01-12T00:00:00Z") =
        .ok ⟨400, j⟩ := by
  have hahead : (request
      (posted "2020-01-10T00:00:00Z" "2030-02-05T00:00:00Z" "2020-01-12T00:00:00Z")).Gives fun r =>
        r.now = some (day 1 12) ∧ r.events ≠ [] ∧ (day 1 12).monthsBetween r.target = .ok 120 := by
    decide +kernel
  constructor
  · obtain ⟨r, hread, hnow, -, -, -, htarget, -⟩ := request_posted
    rw [(refused_iff_beyond .standard).2.2 (day 1 1) uuid _ r _ hread hnow, htarget]
    rintro ⟨-, months, hmonths, hlt⟩
    have hnone : (day 1 12).monthsBetween (day 2 5) = .ok 0 := by decide
    rw [hnone] at hmonths
    cases hmonths
    exact absurd hlt (by decide)
  · obtain ⟨r, hread, hnow, hne, hmonths⟩ := hahead
    exact ((refused_iff_beyond .standard).2.2 (day 1 1) uuid _ r _ hread hnow).mpr
      ⟨hne, 120, hmonths, by decide⟩

end Service

end BillRun
