import BillRun.Proofs.Running

/-! Runs over events that never change.

As long as the events stay as they are, the account holds exactly what they charge through the
latest target asked for so far, key by key (`BilledThrough`): nothing is credited, and nothing is
billed twice. What carries this from run to run is `Current`. It follows two targets, the latest
asked for and the latest that an invoice was raised to; nothing is charged between them. -/
namespace BillRun

open Calendar Settlement

/-! ### Charges through two targets -/

namespace Timeline

variable {t : Timeline} {terms : Terms} {target target' : Moment} {currency : LooseText}
  {charges charges' : List Charge}

theorem count_le_of_le (h : t.charges terms target currency = .ok charges)
    (h' : t.charges terms target' currency = .ok charges')
    (hle : target.instant ≤ target'.instant) (key : ChargeKey) :
    (charges.map Charge.key).count key ≤ (charges'.map Charge.key).count key := by
  rw [chargesOf_eq_filter h h' hle]
  exact (List.filter_sublist.map Charge.key).count_le key

/-- What starts by a target is charged through it as often as through any other. -/
theorem count_le_of_start_le (h : t.charges terms target currency = .ok charges)
    (h' : t.charges terms target' currency = .ok charges') {key : ChargeKey}
    (hstart : key.start.instant ≤ target.instant) :
    (charges'.map Charge.key).count key ≤ (charges.map Charge.key).count key := by
  rcases Int.le_total target'.instant target.instant with hle | hle
  · exact count_le_of_le h' h hle key
  · rw [chargesOf_eq_filter h h' hle, List.count_eq_countP, List.count_eq_countP, List.countP_map,
      List.countP_map, List.countP_filter]
    apply List.countP_mono_left
    intro c _ hkey
    have hkey' : c.key = key := by simpa using hkey
    have hc : c.start.instant = key.start.instant := by rw [← hkey']; rfl
    rw [Bool.and_eq_true]
    refine ⟨hkey, ?_⟩
    rw [Charge.startsBy, decide_eq_true_eq, hc]
    exact hstart

end Timeline

/-! ### An account that is up to date -/

/-- The items are, key by key, what the events charge through the target. -/
def BilledThrough (terms : Terms) (events : List Event) (target : Moment) (items : List Item) :
    Prop :=
  ∃ timeline currency charges, Timeline.of events = .ok timeline ∧
    timeline.charges terms target currency = .ok charges ∧
      (keys items).Perm (charges.map Charge.key)

variable {terms : Terms} {events : List Event} {target target' : Moment} {items : List Item}

namespace BilledThrough

theorem congr (h : BilledThrough terms events target items) (hmark : target.mark = target'.mark) :
    BilledThrough terms events target' items := by
  obtain ⟨timeline, currency, charges, htimeline, hcharges, hperm⟩ := h
  exact ⟨timeline, currency, charges, htimeline, Timeline.chargesOf_congr hcharges hmark, hperm⟩

/-- The currency makes no difference. -/
theorem charges (h : BilledThrough terms events target items) {timeline : Timeline}
    (htimeline : Timeline.of events = .ok timeline) (currency : LooseText) :
    ∃ charges, timeline.charges terms target currency = .ok charges ∧
      (keys items).Perm (charges.map Charge.key) := by
  obtain ⟨timeline', currency', charges, htimeline', hcharges, hperm⟩ := h
  obtain rfl : timeline' = timeline := Except.ok.inj (htimeline'.symm.trans htimeline)
  refine ⟨_, Timeline.chargesOf_inCurrency hcharges currency, ?_⟩
  rw [List.map_map]
  exact hperm

end BilledThrough

theorem exists_latest {α : Type} (f : α → Moment) {xs : List α} (hne : xs ≠ []) :
    ∃ u ∈ xs, ∀ w ∈ xs, (f w).instant ≤ (f u).instant := by
  induction xs with
  | nil => exact absurd rfl hne
  | cons x xs ih =>
    by_cases hxs : xs = []
    · subst hxs
      exact ⟨x, List.mem_cons_self, by simp⟩
    · obtain ⟨u, hu, hlatest⟩ := ih hxs
      rcases Int.le_total (f x).instant (f u).instant with hle | hle
      · refine ⟨u, List.mem_cons_of_mem x hu, fun w hw => ?_⟩
        rcases List.mem_cons.mp hw with rfl | hw
        · exact hle
        · exact hlatest w hw
      · refine ⟨x, List.mem_cons_self, fun w hw => ?_⟩
        rcases List.mem_cons.mp hw with rfl | hw
        · exact Int.le_refl _
        · exact Int.le_trans (hlatest w hw) hle

/-- An account kept by runs over these events alone, with the targets of those that succeeded. -/
structure Current (terms : Terms) (events : List Event) (targets : List Moment)
    (issued : List Invoice) : Prop where
  uncredited : ∀ i ∈ itemsOn issued, i.reverses = none
  anchored : ∀ u ∈ targets, u.Anchored
  raised_anchored : ∀ v ∈ issued, v.target.Anchored
  within : ∀ v ∈ issued, ∃ u ∈ targets, v.target.instant ≤ u.instant
  requested : ∀ u ∈ targets, (∀ w ∈ targets, w.instant ≤ u.instant) →
    BilledThrough terms events u (itemsOn issued)
  raised : ∀ v ∈ issued, (∀ w ∈ issued, w.target.instant ≤ v.target.instant) →
    BilledThrough terms events v.target (itemsOn issued)

variable {targets : List Moment} {issued : List Invoice}

namespace Current

theorem nil : Current terms events [] [] :=
  ⟨by simp [itemsOn], by simp, by simp, by simp, by simp, by simp⟩

/-- Nothing on the account has been taken back. -/
theorem surviving_eq (h : Current terms events targets issued) :
    surviving (itemsOn issued) = itemsOn issued := by
  refine List.filter_eq_self.mpr fun i _ => ?_
  rw [cancelled_eq_nil h.uncredited]
  rfl

theorem billedThrough_latest (h : Current terms events targets issued) (hne : targets ≠ []) :
    ∃ u ∈ targets, (∀ w ∈ targets, w.instant ≤ u.instant) ∧
      BilledThrough terms events u (itemsOn issued) := by
  obtain ⟨u, hu, hlatest⟩ := exists_latest id hne
  exact ⟨u, hu, hlatest, h.requested u hu hlatest⟩

/-! ### One more run -/

variable {o : Occasion} {r : RunRequest} {timeline : Timeline} {proposed new : List Item}

/-- Whatever is on the account is proposed again: the run's target is no earlier than those of the
invoices. -/
theorem count_le_proposed (h : Current o.terms events targets issued)
    (hran : Ran o events issued r timeline target proposed new) (key : ChargeKey) :
    (keys (itemsOn issued)).count key ≤ (keys proposed).count key := by
  by_cases hissued : issued = []
  · subst hissued
    exact Nat.zero_le _
  · obtain ⟨v, hv, hlatest⟩ := exists_latest Invoice.target hissued
    obtain ⟨charges, hcharges, hperm⟩ := (h.raised v hv hlatest).charges hran.ordered r.currency
    have hle := (Moment.le_eq_true.mp (hran.latest.issued_le v hv)).2
    rw [hperm.count_eq, keys_eq_map_charge]
    exact Timeline.count_le_of_le hcharges (Timeline.map_charge_of_expand hran.expanded) hle key

/-- So the run takes nothing back, and bills what is missing. -/
theorem bills_missing (h : Current o.terms events targets issued)
    (hran : Ran o events issued r timeline target proposed new) :
    (∀ i ∈ new, i.reverses = none ∧ i ∈ proposed) ∧
      ∀ key, (keys new).count key =
        (keys proposed).count key - (keys (itemsOn issued)).count key := by
  obtain ⟨charges, taken, credited, rfl, hsettled, hcharges⟩ := hran.settled
  have htaken : taken = [] := by
    cases htaken : taken with
    | nil => rfl
    | cons i taken =>
      have hcount := hsettled.count_taken i.key
      have hle := h.count_le_proposed hran i.key
      rw [htaken, h.surviving_eq, keys_cons, List.count_cons_self] at hcount
      split at hcount <;> omega
  subst htaken
  have hcredited : credited = [] := List.forall₂_nil_right_iff.mp hsettled.credited
  subst hcredited
  rw [List.append_nil]
  refine ⟨fun i hi => ⟨hcharges i hi, hsettled.charges_le.subset hi⟩, fun key => ?_⟩
  rw [hsettled.count_charges, h.surviving_eq]

/-- What the run bills starts after every target asked for before. -/
theorem lt_start (h : Current o.terms events targets issued)
    (hran : Ran o events issued r timeline target proposed new) {i : Item} (hi : i ∈ new)
    {u : Moment} (hu : u ∈ targets) : u.instant < i.charge.start.instant := by
  obtain ⟨m, -, hlatest, hthrough⟩ := h.billedThrough_latest (List.ne_nil_of_mem hu)
  obtain ⟨charges, hcharges, hperm⟩ := hthrough.charges hran.ordered r.currency
  refine Int.not_le.mp fun hstart => ?_
  have hkey : i.key.start.instant ≤ m.instant := Int.le_trans hstart (hlatest u hu)
  have hle := Timeline.count_le_of_start_le hcharges
    (Timeline.map_charge_of_expand hran.expanded) hkey
  rw [← keys_eq_map_charge, ← hperm.count_eq] at hle
  have hcount := (h.bills_missing hran).2 i.key
  have hpos : 0 < (keys new).count i.key := List.count_pos_iff.mpr (List.mem_map_of_mem hi)
  omega

/-- The account is then up to date with the run's target. -/
theorem billedThrough_target (h : Current o.terms events targets issued)
    (hran : Ran o events issued r timeline target proposed new) :
    BilledThrough o.terms events target (itemsOn issued ++ new) := by
  refine ⟨timeline, r.currency, _, hran.ordered, Timeline.map_charge_of_expand hran.expanded, ?_⟩
  rw [← keys_eq_map_charge, List.perm_iff_count]
  intro key
  rw [keys_append, List.count_append, (h.bills_missing hran).2]
  have := h.count_le_proposed hran key
  omega

theorem target_within (h : Current o.terms events targets issued)
    (hran : Ran o events issued r timeline target proposed new) :
    ∃ u ∈ r.target :: targets, target.instant ≤ u.instant := by
  rcases hran.latest.chosen with rfl | ⟨-, v, hv, rfl⟩
  · exact ⟨r.target, List.mem_cons_self, Int.le_refl _⟩
  · obtain ⟨u, hu, hle⟩ := h.within v hv
    exact ⟨u, List.mem_cons_of_mem _ hu, hle⟩

/-- And with the latest target asked for, which may be later when there was nothing to bill. -/
theorem billedThrough_requested (h : Current o.terms events targets issued)
    (hran : Ran o events issued r timeline target proposed new) (htarget : r.target.Anchored)
    {u : Moment} (hu : u ∈ r.target :: targets)
    (hlatest : ∀ w ∈ r.target :: targets, w.instant ≤ u.instant) :
    BilledThrough o.terms events u (itemsOn issued ++ new) := by
  have hle : target.instant ≤ u.instant := by
    obtain ⟨w, hw, hle⟩ := h.target_within hran
    exact Int.le_trans hle (hlatest w hw)
  have hrequest := (Moment.le_eq_true.mp hran.latest.target_le).2
  have hanchored : u.Anchored := by
    rcases List.mem_cons.mp hu with rfl | hu
    · exact htarget
    · exact h.anchored u hu
  rcases Int.lt_or_eq_of_le hle with hlt | heq
  · -- the target asked for now is not the latest, and between the two nothing is charged
    have hold : u ∈ targets := by
      rcases List.mem_cons.mp hu with rfl | hu
      · omega
      · exact hu
    have hnone : new = [] := by
      refine List.eq_nil_iff_forall_not_mem.mpr fun i hi => ?_
      obtain ⟨_, _, _, _, hbills⟩ := hran.bills ((h.bills_missing hran).1 i hi).2
      have hstart := h.lt_start hran hi hold
      have := hbills.start_le
      omega
    rw [hnone, List.append_nil]
    exact h.requested u hold fun w hw => hlatest w (List.mem_cons_of_mem _ hw)
  · have hissued := hran.anchored_target htarget h.raised_anchored
    exact (h.billedThrough_target hran).congr
      (Moment.mark_congr (hissued.comparable hanchored) heq)

/-- An invoice raised to the latest target of all brings the account up to date with it. -/
theorem billedThrough_raised (h : Current o.terms events targets issued)
    (hran : Ran o events issued r timeline target proposed new) {v w : Invoice}
    (hv : v.target = target) (hw : w ∈ issued ∨ w = v)
    (hle : v.target.instant ≤ w.target.instant) :
    BilledThrough o.terms events w.target (itemsOn issued ++ new) := by
  refine (h.billedThrough_target hran).congr ?_
  rcases hw with hw | rfl
  · obtain ⟨hcomparable, hge⟩ := Moment.le_eq_true.mp (hran.latest.issued_le w hw)
    rw [hv] at hle
    exact Moment.mark_congr hcomparable.symm (Int.le_antisymm hle hge)
  · rw [hv]

theorem step_of_ran (h : Current o.terms events targets issued)
    (hran : Ran o events issued r timeline target proposed new) (htarget : r.target.Anchored) :
    Current o.terms events (r.target :: targets)
      (issued ++ (o.invoice r target new).toList) := by
  have hitems := itemsOn_append_invoice issued o r target new
  refine ⟨fun i hi => ?_, fun u hu => ?_, fun v hv => ?_, fun v hv => ?_, fun u hu hlatest => ?_,
    fun v hv hlatest => ?_⟩
  · rw [hitems] at hi
    rcases List.mem_append.mp hi with hi | hi
    · exact h.uncredited i hi
    · exact ((h.bills_missing hran).1 i hi).1
  · rcases List.mem_cons.mp hu with rfl | hu
    · exact htarget
    · exact h.anchored u hu
  · rcases List.mem_append.mp hv with hv | hv
    · exact h.raised_anchored v hv
    · rw [(of_mem_invoice hv).2]
      exact hran.anchored_target htarget h.raised_anchored
  · rcases List.mem_append.mp hv with hv | hv
    · obtain ⟨u, hu, hle⟩ := h.within v hv
      exact ⟨u, List.mem_cons_of_mem _ hu, hle⟩
    · rw [(of_mem_invoice hv).2]
      exact h.target_within hran
  · rw [hitems]
    exact h.billedThrough_requested hran htarget hu hlatest
  · rw [hitems]
    cases hresult : o.invoice r target new with
    | none =>
      have hnew : new = [] := by
        rw [← billed_invoice o r target new, hresult]
        rfl
      rw [hresult, Option.toList_none, List.append_nil] at hv hlatest
      rw [hnew, List.append_nil]
      exact h.raised v hv hlatest
    | some w =>
      rw [hresult, Option.toList_some] at hv hlatest
      refine h.billedThrough_raised hran (invoice_eq_some hresult).2 ?_
        (hlatest w List.mem_concat_self)
      rwa [List.mem_append, List.mem_singleton] at hv

/-- Without events nothing is ever billed. -/
theorem itemsOn_eq_nil (h : Current terms [] targets issued) : itemsOn issued = [] := by
  cases issued with
  | nil => rfl
  | cons v rest =>
    obtain ⟨u, hu, -⟩ := h.within v List.mem_cons_self
    obtain ⟨m, -, -, hthrough⟩ := h.billedThrough_latest (List.ne_nil_of_mem hu)
    obtain ⟨charges, hcharges, hperm⟩ := hthrough.charges Timeline.of_nil (.text "")
    cases hcharges
    exact List.map_eq_nil_iff.mp hperm.eq_nil

theorem billedThrough_of_no_events (terms : Terms) (target : Moment) :
    BilledThrough terms [] target [] :=
  ⟨⟨[]⟩, .text "", [], Timeline.of_nil, rfl, .nil⟩

/-- **Every run that succeeds keeps the account up to date.** -/
theorem step (h : Current o.terms events targets issued) {result : Option Invoice}
    (hrun : o.run events issued r = .ok result) (htarget : r.target.Anchored) :
    Current o.terms events (r.target :: targets) (issued ++ result.toList) := by
  rcases run_cases hrun with ⟨rfl, rfl⟩ | ⟨timeline, target, proposed, new, hran, rfl⟩
  · have hitems := h.itemsOn_eq_nil
    rw [Option.toList_none, List.append_nil]
    refine ⟨h.uncredited, fun u hu => ?_, h.raised_anchored, fun v hv => ?_, fun u _ _ => ?_,
      h.raised⟩
    · rcases List.mem_cons.mp hu with rfl | hu
      · exact htarget
      · exact h.anchored u hu
    · obtain ⟨u, hu, hle⟩ := h.within v hv
      exact ⟨u, List.mem_cons_of_mem _ hu, hle⟩
    · rw [hitems]
      exact billedThrough_of_no_events o.terms u
  · exact h.step_of_ran hran htarget

/-- What a run bills starts after every target asked for before. -/
theorem lt_start_of_run (h : Current o.terms events targets issued) {v : Invoice}
    (hrun : o.run events issued r = .ok (some v)) {i : Item} (hi : i ∈ v.items) {u : Moment}
    (hu : u ∈ targets) : u.instant < i.charge.start.instant := by
  obtain ⟨-, timeline, proposed, hran⟩ := ran_of_run_some hrun
  exact h.lt_start hran hi hu

end Current

/-! ### A session over the same events -/

namespace Session

variable {ids : Nat → Nat → Uuid} {s : State}

/-- The states of a session that keeps to its events, and the targets of the runs that succeeded. -/
inductive Steady (terms : Terms) (ids : Nat → Nat → Uuid) (events : List Event) :
    List Moment → State → Prop
  | start (now : Moment) (actions : Nat) :
    Steady terms ids events [] ⟨now, some events, [], actions⟩
  | setNow {targets : List Moment} {s : State} (h : Steady terms ids events targets s)
      (now : Moment) : Steady terms ids events targets (step terms ids s (.setNow now)).1
  | refused {targets : List Moment} {s : State} (h : Steady terms ids events targets s)
      {r : RunRequest} (htarget : r.target.Anchored) {fault : Fault}
      (hanswer : (step terms ids s (.generate r true false)).2 = .error fault) :
      Steady terms ids events targets (step terms ids s (.generate r true false)).1
  | ran {targets : List Moment} {s : State} (h : Steady terms ids events targets s)
      {r : RunRequest} (htarget : r.target.Anchored) {answer : Answer}
      (hanswer : (step terms ids s (.generate r true false)).2 = .ok answer) :
      Steady terms ids events (r.target :: targets) (step terms ids s (.generate r true false)).1

theorem step_setNow (now : Moment) :
    (step terms ids s (.setNow now)).1.events = s.events ∧
      (step terms ids s (.setNow now)).1.issued = s.issued := by
  simp only [step, act]
  cases now.toUtc <;> exact ⟨rfl, rfl⟩

theorem Steady.current {targets : List Moment} (h : Steady terms ids events targets s) :
    s.events = some events ∧ Current terms events targets s.issued := by
  induction h with
  | start => exact ⟨rfl, .nil⟩
  | setNow _ now ih =>
    rwa [(step_setNow now).1, (step_setNow now).2]
  | refused _ _ hanswer ih =>
    rwa [of_generate_error hanswer]
  | ran _ htarget hanswer ih =>
    obtain ⟨hevents, hcurrent⟩ := ih
    obtain ⟨result, hrun, -, hnext⟩ := run_of_generate_ok hanswer
    rw [hevents, Option.getD_some] at hrun
    rw [hnext]
    exact ⟨hevents, Current.step hcurrent hrun htarget⟩

theorem Steady.of_run {targets : List Moment} (h : Steady terms ids events targets s)
    {r : RunRequest} (htarget : r.target.Anchored) {result : Option Invoice}
    (hrun : (⟨terms, s.now, ids s.actions⟩ : Occasion).run (s.events.getD []) s.issued r =
      .ok result) :
    Steady terms ids events (r.target :: targets)
      { s with issued := s.issued ++ result.toList, actions := s.actions + 1 } := by
  have hstep := step_of_run hrun
  have hran := h.ran htarget (congrArg Prod.snd hstep)
  rwa [hstep] at hran

/-- **Nothing is billed twice.** Over events that never change, no issued item is a credit, and the
issued items are, key by key, what the events charge through the latest target asked for. Charges
through an earlier target are among those through a later one, in order; what a run bills starts
after every target asked for before. -/
theorem steady_billed {targets : List Moment} (h : Steady terms ids events targets s) :
    (∀ i ∈ itemsOn s.issued, i.reverses = none) ∧
    (targets = [] → s.issued = []) ∧
    (∀ u ∈ targets, (∀ w ∈ targets, w.instant ≤ u.instant) →
      ∀ now itemIds invoice currency, ∃ timeline expansion, Timeline.of events = .ok timeline ∧
        timeline.expand terms now itemIds invoice u currency = .ok expansion ∧
        (keys (itemsOn s.issued)).Perm (keys expansion)) ∧
    (∀ (timeline : Timeline) (u u' now : Moment) (itemIds : Nat → Uuid) (invoice : Uuid)
      (currency : LooseText) (expansion expansion' : List Item),
      timeline.expand terms now itemIds invoice u currency = .ok expansion →
      timeline.expand terms now itemIds invoice u' currency = .ok expansion' →
      u.instant ≤ u'.instant →
      (expansion.map (·.charge)).Sublist (expansion'.map (·.charge))) ∧
    ∀ r v, (step terms ids s (.generate r true false)).2 = .ok (.invoice v) →
      ∀ i ∈ v.items, ∀ u ∈ targets, u.instant < i.charge.start.instant := by
  obtain ⟨hevents, hcurrent⟩ := h.current
  refine ⟨hcurrent.uncredited, fun hnone => ?_, fun u hu hlatest now itemIds invoice currency => ?_,
    fun timeline u u' now itemIds invoice currency expansion expansion' hexpand hexpand' hle => ?_,
    fun r v hanswer i hi u hu => ?_⟩
  · subst hnone
    refine List.eq_nil_iff_forall_not_mem.mpr fun v hv => ?_
    obtain ⟨u, hu, -⟩ := hcurrent.within v hv
    cases hu
  · have hthrough := hcurrent.requested u hu hlatest
    obtain ⟨timeline, -, -, htimeline, -⟩ := id hthrough
    obtain ⟨charges, hcharges, hperm⟩ := hthrough.charges htimeline currency
    refine ⟨timeline, _, htimeline, Timeline.expand_eq_ok.mpr ⟨charges, hcharges, rfl⟩, ?_⟩
    rwa [keys_issue]
  · rw [Timeline.chargesOf_eq_filter (Timeline.map_charge_of_expand hexpand)
      (Timeline.map_charge_of_expand hexpand') hle]
    exact List.filter_sublist
  · obtain ⟨result, hrun, hinvoice, -⟩ := run_of_generate_ok hanswer
    cases result with
    | none => cases hinvoice
    | some w =>
      cases hinvoice
      rw [hevents, Option.getD_some] at hrun
      exact Current.lt_start_of_run hcurrent hrun hi hu

namespace Sample

open BillRun.Sample

def march : Invoice where
  id := uuid 120
  account := uuid 2
  date := day 1 12
  target := day 3 3
  currency := .text "USD"
  items := [(charge (day 3 1) (some (day 4 1)) (hundredths 3000)
    (.recurring (hundredths 3000) none)).issue (uuid 124) (uuid 120) (day 1 12)]

/-- A run, one for an earlier target, and one for the month after. -/
theorem steady_march : Steady .standard supply [event] [day 3 3, day 1 20, day 2 5]
    ⟨day 1 12, some [event], [opening, march], 3⟩ := by
  have hnothing : (⟨.standard, day 1 12, supply 1⟩ : Occasion).run [event] [opening]
      { request with target := day 1 20 } = .ok none :=
    (run_eq_ok (by decide)).mpr ⟨⟨[event]⟩, day 2 5, again 1 opening.items, [],
      ⟨by decide +kernel, by decide, by decide, by decide +kernel, _, arrange_opening,
        by decide +kernel⟩, rfl⟩
  have hmarch : (⟨.standard, day 1 12, supply 2⟩ : Occasion).run [event] [opening]
      { request with target := day 3 3 } = .ok (some march) :=
    (run_eq_ok (by decide)).mpr ⟨⟨[event]⟩, day 3 3, again 2 (opening.items ++ march.items),
      march.items, ⟨by decide +kernel, by decide, by decide, by decide +kernel, _, arrange_opening,
        by decide +kernel⟩, rfl⟩
  exact (((Steady.start (day 1 12) 0).of_run (by decide) run_opening).of_run (by decide)
    hnothing).of_run (by decide) hmarch

end Sample

open BillRun.Sample Sample in
theorem steady_billed_march :
    Steady .standard supply [event] [day 3 3, day 1 20, day 2 5]
        ⟨day 1 12, some [event], [opening, march], 3⟩ ∧
      (∀ i ∈ itemsOn [opening, march], i.reverses = none) ∧
      ∃ timeline expansion, Timeline.of [event] = .ok timeline ∧
        timeline.expand .standard (day 1 1) uuid (uuid 0) (day 3 3) (.text "USD") = .ok expansion ∧
        (keys (itemsOn [opening, march])).Perm (keys expansion) := by
  obtain ⟨huncredited, -, hlatest, -⟩ := steady_billed steady_march
  exact ⟨steady_march, huncredited, hlatest (day 3 3) (by decide) (by decide) (day 1 1) uuid
    (uuid 0) (.text "USD")⟩

end Session

end BillRun
