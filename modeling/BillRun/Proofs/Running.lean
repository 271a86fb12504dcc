import BillRun.Account.Session
import BillRun.Proofs.Charging
import BillRun.Proofs.Settling

/-! What a bill run does when it succeeds.

`Ran` lists what a run finds on its way: the timeline, the latest target, the proposed items and the
settlement. `run_eq_ok` says that a run over some events succeeds exactly when there is such a list.
The settlement is then one of the items issued before, whatever order they were arranged in
(`Ran.settled`). In a session a run is one of the actions (`Session.step_generate`).

The sample account at the end is what the modules after this one try their theorems on. -/
namespace BillRun

open Calendar

/-- The items of some invoices. -/
def itemsOn (issued : List Invoice) : List Item := issued.flatMap (·.items)

@[simp] theorem itemsOn_append (a b : List Invoice) : itemsOn (a ++ b) = itemsOn a ++ itemsOn b :=
  List.flatMap_append

theorem mem_itemsOn {i : Item} {issued : List Invoice} :
    i ∈ itemsOn issued ↔ ∃ v ∈ issued, i ∈ v.items := List.mem_flatMap

/-- The items of the invoice that a run gives, if it gives one. -/
def billed (result : Option Invoice) : List Item := (result.map (·.items)).getD []

/-- What an item says beside the ids that it was given. -/
def Item.content (i : Item) : Moment × Charge := (i.created, i.charge)

theorem map_content_of_created {items : List Item} {now : Moment}
    (h : ∀ i ∈ items, i.created = now) :
    items.map Item.content = (items.map (·.charge)).map (now, ·) := by
  rw [List.map_map]
  refine List.map_congr_left fun i hi => ?_
  unfold Item.content
  rw [h i hi]
  rfl

/-! ### Arranging -/

theorem perm_of_arrange {α : Type} {item : α → Item} {xs ys : List α}
    (h : Item.arrange item xs = .ok ys) : ys.Perm xs := by
  unfold Item.arrange at h
  split at h
  · cases h
    exact List.mergeSort_perm xs _
  · cases h

/-- Things in order stay as they are. -/
theorem arrange_of_pairwise {α : Type} {item : α → Item} {xs : List α}
    (hcomparable : ∀ a ∈ xs, ∀ b ∈ xs, (item a).charge.comparable (item b).charge = true)
    (h : xs.Pairwise fun a b => (item a).charge.le (item b).charge = true) :
    Item.arrange item xs = .ok xs := by
  unfold Item.arrange
  rw [if_pos, List.mergeSort_of_pairwise h]
  simpa only [List.all_eq_true] using hcomparable

theorem Timeline.perm_of_of {events : List Event} {timeline : Timeline}
    (h : Timeline.of events = .ok timeline) : timeline.events.Perm events := by
  obtain ⟨arranged, harranged, h⟩ := bind_eq_ok.mp h
  cases h
  unfold Event.arrange at harranged
  simp only at harranged
  split at harranged
  · cases harranged
    exact List.mergeSort_perm events _
  · cases harranged

/-- Events in order stay as they are. -/
theorem Timeline.of_eq_self {events : List Event}
    (hanchored : ∀ e ∈ events, e.effective.Anchored)
    (h : events.Pairwise fun a b => a.le b = true) : Timeline.of events = .ok ⟨events⟩ := by
  have hall : (events.map fun e => e.effective.mark.anchored).all id = true := by
    rw [List.all_map, List.all_eq_true]
    exact hanchored
  unfold Timeline.of Event.arrange
  simp only [id_eq, hall, Bool.true_or, if_true, List.mergeSort_of_pairwise h, ok_bind, pure_eq_ok]

theorem Timeline.not_isEmpty_of_of {events : List Event} {timeline : Timeline}
    (hne : events ≠ []) (h : Timeline.of events = .ok timeline) :
    timeline.events.isEmpty = false := by
  cases hevents : timeline.events with
  | nil =>
    have hperm := Timeline.perm_of_of h
    rw [hevents] at hperm
    exact absurd hperm.nil_eq.symm hne
  | cons => rfl

/-- Both ends carry an offset, as far as there are two. -/
structure Charge.Anchored (c : Charge) : Prop where
  start : c.start.Anchored
  stop : ∀ t, c.stop = some t → t.Anchored

theorem Charge.Anchored.comparable {a b : Charge} (ha : a.Anchored) (hb : b.Anchored) :
    a.comparable b = true := by
  have hstart : a.start.mark.anchored = b.start.mark.anchored := ha.start.comparable hb.start
  unfold Charge.comparable
  rw [hstart]
  cases hs : a.stop with
  | none => simp
  | some s =>
    cases ht : b.stop with
    | none => simp
    | some t =>
      have hstop : s.mark.anchored = t.mark.anchored := (ha.stop s hs).comparable (hb.stop t ht)
      simp [hstop]

theorem arrange_of_anchored {items : List Item} (h : ∀ i ∈ items, i.charge.Anchored) :
    ∃ arranged, Item.arrange id items = .ok arranged := by
  refine ⟨_, if_pos ?_⟩
  rw [List.all_eq_true]
  intro a ha
  rw [List.all_eq_true]
  exact fun b hb => (h a ha).comparable (h b hb)

/-! ### The latest target -/

/-- `latest` is one of the target and the targets of the issued invoices, and none is later. -/
structure Latest (target : Moment) (issued : List Invoice) (latest : Moment) : Prop where
  target_le : target.le latest = .ok true
  issued_le : ∀ v ∈ issued, v.target.le latest = .ok true
  chosen : latest = target ∨ target.instant < latest.instant ∧ ∃ v ∈ issued, latest = v.target

theorem latest_of_latestTarget {target latest : Moment} {issued : List Invoice}
    (h : latestTarget target issued = .ok latest) : Latest target issued latest := by
  induction issued generalizing target with
  | nil =>
    cases h
    exact ⟨Moment.le_eq_true.mpr ⟨rfl, Int.le_refl _⟩, by simp, .inl rfl⟩
  | cons v issued ih =>
    obtain ⟨hcomparable, h⟩ := Moment.lt_branch_eq_ok.mp h
    split at h
    · rename_i hlt
      have hlatest := ih h
      obtain ⟨hv, hvle⟩ := Moment.le_eq_true.mp hlatest.target_le
      refine ⟨Moment.le_eq_true.mpr ⟨hcomparable.trans hv, by omega⟩, fun w hw => ?_,
        .inr ⟨by omega, ?_⟩⟩
      · rcases List.mem_cons.mp hw with rfl | hw
        · exact hlatest.target_le
        · exact hlatest.issued_le w hw
      · rcases hlatest.chosen with heq | ⟨-, w, hw, heq⟩
        · exact ⟨v, List.mem_cons_self, heq⟩
        · exact ⟨w, List.mem_cons_of_mem v hw, heq⟩
    · rename_i hle
      have hlatest := ih h
      obtain ⟨ht, htle⟩ := Moment.le_eq_true.mp hlatest.target_le
      refine ⟨hlatest.target_le, fun w hw => ?_, ?_⟩
      · rcases List.mem_cons.mp hw with rfl | hw
        · exact Moment.le_eq_true.mpr ⟨hcomparable.symm.trans ht, by omega⟩
        · exact hlatest.issued_le w hw
      · exact hlatest.chosen.imp_right fun ⟨hlt, w, hw, heq⟩ =>
          ⟨hlt, w, List.mem_cons_of_mem v hw, heq⟩

theorem latestTarget_of_anchored {target : Moment} {issued : List Invoice}
    (ht : target.Anchored) (hissued : ∀ v ∈ issued, v.target.Anchored) :
    ∃ latest, latestTarget target issued = .ok latest := by
  induction issued generalizing target with
  | nil => exact ⟨target, rfl⟩
  | cons v issued ih =>
    have hv := hissued v List.mem_cons_self
    have hrest := fun w hw => hissued w (List.mem_cons_of_mem v hw)
    by_cases hlt : target.instant < v.target.instant
    · obtain ⟨latest, hlatest⟩ := ih hv hrest
      exact ⟨latest, Moment.lt_branch_eq_ok.mpr ⟨ht.comparable hv, by rwa [if_pos hlt]⟩⟩
    · obtain ⟨latest, hlatest⟩ := ih ht hrest
      exact ⟨latest, Moment.lt_branch_eq_ok.mpr ⟨ht.comparable hv, by rwa [if_neg hlt]⟩⟩

/-! ### The run -/

/-- What a run over some events finds on its way, and what it puts on the account. -/
structure Ran (o : Occasion) (events : List Event) (issued : List Invoice) (r : RunRequest)
    (timeline : Timeline) (target : Moment) (proposed new : List Item) : Prop where
  ordered : Timeline.of events = .ok timeline
  horizon : o.terms.checkHorizon o.now r.target = .ok ()
  raised : latestTarget r.target issued = .ok target
  expanded : timeline.expand o.terms o.now (fun n => o.ids (n + 1)) (o.ids 0) target r.currency =
    .ok proposed
  settlement : ∃ existing, Item.arrange id (itemsOn issued) = .ok existing ∧
    Settlement.settle proposed existing (fun n => o.ids (n + 1 + proposed.length)) (o.ids 0) o.now =
      .ok new

/-- The invoice that a run gives for the items it puts on the account. -/
def Occasion.invoice (o : Occasion) (r : RunRequest) (target : Moment) (new : List Item) :
    Option Invoice :=
  if new.isEmpty then none else some ⟨o.ids 0, r.account, o.now, target, r.currency, new⟩

@[simp] theorem billed_invoice (o : Occasion) (r : RunRequest) (target : Moment)
    (new : List Item) : billed (o.invoice r target new) = new := by
  cases new <;> rfl

theorem invoice_eq_some {o : Occasion} {r : RunRequest} {target : Moment} {new : List Item}
    {v : Invoice} (h : o.invoice r target new = some v) : v.items = new ∧ v.target = target := by
  unfold Occasion.invoice at h
  split at h
  · cases h
  · cases h
    exact ⟨rfl, rfl⟩

variable {o : Occasion} {events : List Event} {issued : List Invoice} {r : RunRequest}

theorem Timeline.of_nil : Timeline.of [] = .ok ⟨[]⟩ := by
  simp [Timeline.of, Event.arrange]

theorem run_of_no_events : o.run [] issued r = .ok none := by
  simp [Occasion.run, Timeline.of_nil]

/-- What is left of a run once events and items are in order and the latest target is known. -/
def Occasion.bill (o : Occasion) (r : RunRequest) (timeline : Timeline) (existing : List Item)
    (target : Moment) : Except Fault (Option Invoice) := do
  let proposed ←
    timeline.expand o.terms o.now (fun n => o.ids (n + 1)) (o.ids 0) target r.currency
  let new ← Settlement.settle proposed existing (fun n => o.ids (n + 1 + proposed.length))
    (o.ids 0) o.now
  return o.invoice r target new

theorem run_of_ordered {timeline : Timeline} {existing : List Item} {target : Moment}
    (hne : events ≠ []) (htimeline : Timeline.of events = .ok timeline)
    (hexisting : Item.arrange id (itemsOn issued) = .ok existing)
    (hraised : latestTarget r.target issued = .ok target) :
    o.run events issued r = (do
      o.terms.checkHorizon o.now r.target
      o.bill r timeline existing target) := by
  unfold itemsOn at hexisting
  unfold Occasion.run Occasion.bill
  simp only [htimeline, ok_bind, Timeline.not_isEmpty_of_of hne htimeline, Bool.false_eq_true,
    if_false, hexisting, hraised]
  refine bind_congr fun _ => bind_congr fun proposed => bind_congr fun new => ?_
  unfold Occasion.invoice
  split <;> rfl

theorem run_eq_ok (hne : events ≠ []) {result : Option Invoice} :
    o.run events issued r = .ok result ↔ ∃ timeline target proposed new,
      Ran o events issued r timeline target proposed new ∧
        result = o.invoice r target new := by
  constructor
  · intro h
    obtain ⟨timeline, htimeline, h⟩ := bind_eq_ok.mp h
    rw [Timeline.not_isEmpty_of_of hne htimeline, if_neg Bool.false_ne_true] at h
    obtain ⟨_, hhorizon, h⟩ := bind_eq_ok.mp h
    obtain ⟨existing, hexisting, h⟩ := bind_eq_ok.mp h
    obtain ⟨target, htarget, h⟩ := bind_eq_ok.mp h
    obtain ⟨proposed, hproposed, h⟩ := bind_eq_ok.mp h
    obtain ⟨new, hnew, h⟩ := bind_eq_ok.mp h
    refine ⟨timeline, target, proposed, new, ⟨htimeline, hhorizon, htarget, hproposed, existing,
      hexisting, hnew⟩, ?_⟩
    unfold Occasion.invoice
    split at h <;> cases h <;> simp_all
  · rintro ⟨timeline, target, proposed, new, hran, rfl⟩
    obtain ⟨existing, hexisting, hnew⟩ := hran.settlement
    rw [run_of_ordered hne hran.ordered hexisting hran.raised, hran.horizon]
    simp only [ok_bind, Occasion.bill, hran.expanded, hnew, pure_eq_ok]

/-- A run that succeeds has no events, or does what `Ran` lists. -/
theorem run_cases {result : Option Invoice} (h : o.run events issued r = .ok result) :
    events = [] ∧ result = none ∨ ∃ timeline target proposed new,
      Ran o events issued r timeline target proposed new ∧ result = o.invoice r target new := by
  by_cases hne : events = []
  · rw [hne, run_of_no_events] at h
    exact .inl ⟨hne, (Except.ok.inj h).symm⟩
  · exact .inr ((run_eq_ok hne).mp h)

theorem ran_of_run_some {v : Invoice} (h : o.run events issued r = .ok (some v)) :
    events ≠ [] ∧ ∃ timeline proposed,
      Ran o events issued r timeline v.target proposed v.items := by
  have hne : events ≠ [] := by
    intro hnil
    rw [hnil, run_of_no_events] at h
    cases h
  obtain ⟨timeline, target, proposed, new, hran, hv⟩ := (run_eq_ok hne).mp h
  obtain ⟨rfl, rfl⟩ := invoice_eq_some hv.symm
  exact ⟨hne, timeline, proposed, hran⟩

namespace Ran

variable {timeline : Timeline} {target : Moment} {proposed new : List Item}

theorem latest (h : Ran o events issued r timeline target proposed new) :
    Latest r.target issued target := latest_of_latestTarget h.raised

theorem anchored_target (h : Ran o events issued r timeline target proposed new)
    (htarget : r.target.Anchored) (hissued : ∀ v ∈ issued, v.target.Anchored) :
    target.Anchored := by
  rcases h.latest.chosen with rfl | ⟨-, v, hv, rfl⟩
  · exact htarget
  · exact hissued v hv

/-- Every proposed item is what one of the events bills. -/
theorem bills (h : Ran o events issued r timeline target proposed new) {i : Item}
    (hi : i ∈ proposed) : ∃ before e later, timeline.events = before ++ e :: later ∧
      e.Bills (Timeline.successor e later) o.terms target i.charge :=
  Timeline.mem_chargesOf (Timeline.map_charge_of_expand h.expanded) (List.mem_map.mpr ⟨i, hi, rfl⟩)

theorem settled (h : Ran o events issued r timeline target proposed new) :
    ∃ charges taken credited, new = charges ++ credited ∧
      Settlement.Settled proposed (itemsOn issued) charges taken credited ∧
      ∀ i ∈ charges, i.reverses = none := by
  obtain ⟨existing, hexisting, hnew⟩ := h.settlement
  obtain ⟨charges, taken, credited, rfl, hsettled⟩ :=
    Settlement.settled_of_settle (perm_of_arrange hexisting) hnew
  refine ⟨charges, taken, credited, rfl, hsettled, fun i hi => ?_⟩
  obtain ⟨_, _, _, _, hbills⟩ := h.bills (hsettled.charges_le.subset hi)
  exact hbills.reverses

/-- All that a run puts on the account is dated to the time of the run. -/
theorem created (h : Ran o events issued r timeline target proposed new) :
    ∀ i ∈ new, i.created = o.now := by
  obtain ⟨existing, -, hnew⟩ := h.settlement
  exact Settlement.created_of_settle (Timeline.created_of_expand h.expanded) hnew

/-- The proposed items, whatever ids and dates they are stamped with. -/
theorem expand (h : Ran o events issued r timeline target proposed new) (now : Moment)
    (ids : Nat → Uuid) (invoice : Uuid) : ∃ expansion,
      timeline.expand o.terms now ids invoice target r.currency = .ok expansion ∧
        expansion.map (·.charge) = proposed.map (·.charge) := by
  have hcharges := Timeline.map_charge_of_expand h.expanded
  exact ⟨_, Timeline.expand_eq_ok.mpr ⟨_, hcharges, rfl⟩, Timeline.map_charge_mapIdx ..⟩

end Ran

/-! ### Keys of charges -/

/-- The key of an item is that of its charge. -/
theorem keys_eq_map_charge (items : List Item) :
    keys items = (items.map (·.charge)).map Charge.key := by
  rw [List.map_map]
  rfl

theorem keys_issue (charges : List Charge) (ids : Nat → Uuid) (invoice : Uuid) (now : Moment) :
    keys (charges.mapIdx fun n c => c.issue (ids n) invoice now) = charges.map Charge.key := by
  rw [keys_eq_map_charge, Timeline.map_charge_mapIdx]

theorem keys_congr {a b : List Item} (h : a.map (·.charge) = b.map (·.charge)) :
    keys a = keys b := by
  rw [keys_eq_map_charge, keys_eq_map_charge, h]

theorem map_charge_recurring (items : List Item) :
    (recurring items).map (·.charge) =
      (items.map (·.charge)).filter fun c => c.kind = .recurring := by
  rw [List.filter_map]
  rfl

theorem keys_recurring_congr {a b : List Item} (h : a.map (·.charge) = b.map (·.charge)) :
    keys (recurring a) = keys (recurring b) := by
  apply keys_congr
  rw [map_charge_recurring, map_charge_recurring, h]

/-! ### A run as an action -/

@[simp] theorem itemsOn_toList (result : Option Invoice) :
    itemsOn result.toList = billed result := by
  cases result with
  | none => rfl
  | some v => exact List.append_nil v.items

theorem itemsOn_append_invoice (issued : List Invoice) (o : Occasion) (r : RunRequest)
    (target : Moment) (new : List Item) :
    itemsOn (issued ++ (o.invoice r target new).toList) = itemsOn issued ++ new := by
  rw [itemsOn_append, itemsOn_toList, billed_invoice]

theorem of_mem_invoice {target : Moment} {new : List Item} {v : Invoice}
    (h : v ∈ (o.invoice r target new).toList) : v.items = new ∧ v.target = target :=
  invoice_eq_some (Option.mem_toList.mp h)

namespace Session

variable {terms : Terms} {ids : Nat → Nat → Uuid} {s : State}

/-- A run that keeps its invoice, as an action of a session. -/
theorem step_generate (terms : Terms) (ids : Nat → Nat → Uuid) (s : State) (r : RunRequest) :
    step terms ids s (.generate r true false) =
      match (⟨terms, s.now, ids s.actions⟩ : Occasion).run (s.events.getD []) s.issued r with
      | .ok result =>
        ({ s with issued := s.issued ++ result.toList, actions := s.actions + 1 },
          .ok (result.elim .nothing .invoice))
      | .error fault => ({ s with actions := s.actions + 1 }, .error fault) := by
  simp only [step, act, Bool.false_eq_true, if_false]
  cases (⟨terms, s.now, ids s.actions⟩ : Occasion).run (s.events.getD []) s.issued r with
  | error fault => rfl
  | ok result =>
    cases result with
    | none =>
      show (({ s with actions := s.actions + 1 } : State), _) = _
      simp only [Option.toList_none, List.append_nil, Option.elim_none]
    | some v => rfl

theorem step_of_run {r : RunRequest} {result : Option Invoice}
    (hrun : (⟨terms, s.now, ids s.actions⟩ : Occasion).run (s.events.getD []) s.issued r =
      .ok result) :
    step terms ids s (.generate r true false) =
      ({ s with issued := s.issued ++ result.toList, actions := s.actions + 1 },
        .ok (result.elim .nothing .invoice)) := by
  rw [step_generate, hrun]

theorem run_of_generate_ok {r : RunRequest} {answer : Answer}
    (h : (step terms ids s (.generate r true false)).2 = .ok answer) : ∃ result,
      (⟨terms, s.now, ids s.actions⟩ : Occasion).run (s.events.getD []) s.issued r = .ok result ∧
        answer = result.elim .nothing .invoice ∧
        (step terms ids s (.generate r true false)).1 =
          { s with issued := s.issued ++ result.toList, actions := s.actions + 1 } := by
  rw [step_generate] at h ⊢
  split at h
  · rename_i result hrun
    cases h
    exact ⟨result, hrun, rfl, rfl⟩
  · cases h

theorem of_generate_error {r : RunRequest} {fault : Fault}
    (h : (step terms ids s (.generate r true false)).2 = .error fault) :
    (step terms ids s (.generate r true false)).1 = { s with actions := s.actions + 1 } := by
  rw [step_generate] at h ⊢
  split at h
  · cases h
  · rfl

end Session

/-! ### A sample account

Thirty a month and five once, in force from the tenth of January. Before that the account was billed
twenty-five for February, and holds a fixed item and a credit from elsewhere. -/

namespace Sample

theorem midnight_lt : 0 < dayLength := by decide

/-- The first day of 2020. -/
def newYear : Date := (Date.of? 2020 1 1).get (by decide)

/-- Midnight on a day of that year. -/
def day (month day : Nat) : Moment where
  date := (Date.of? 2020 month day).getD newYear
  clock := 0
  clock_lt := midnight_lt
  offset := some .utc

/-- An hour of a day in UTC. -/
def hour (year month day hour : Nat) : Moment where
  date := (Date.of? year month day).getD newYear
  clock := hour % 24 * 3600000000
  clock_lt := by
    unfold dayLength
    omega
  offset := some .utc

def uuid (n : Nat) : Uuid := ⟨.ofNat 128 n⟩

def hundredths (n : Nat) : Decimal := ⟨false, n, -2⟩

def event : Event where
  subscription := uuid 1
  plan := .text "pro"
  phase := .text "fortnight"
  effective := day 1 10
  period := .monthly
  mode := .inAdvance
  cycleDay := .first
  fixedPrice := some (hundredths 500)
  recurringPrice := some (hundredths 3000)
  phaseLength := some ⟨.days, some 14⟩
  ordering := 0

def charge (start : Moment) (stop : Option Moment) (amount : Decimal) (basis : Basis) : Charge :=
  event.charge start stop amount (.text "USD") basis

def outdated : Invoice where
  id := uuid 10
  account := uuid 2
  date := day 1 5
  target := day 2 1
  currency := .text "USD"
  items := [
    (charge (day 1 1) (some (day 2 1)) ⟨true, 2500, -2⟩
      (.recurring (hundredths 2500) (some (uuid 99)))).issue (uuid 11) (uuid 10) (day 1 5),
    (charge (day 1 1) none (hundredths 800) .fixed).issue (uuid 12) (uuid 10) (day 1 5),
    (charge (day 2 1) (some (day 3 1)) (hundredths 2500) (.recurring (hundredths 2500) none)).issue
      (uuid 13) (uuid 10) (day 1 5)]

def occasion : Occasion := ⟨.standard, day 1 12, fun n => uuid (100 + n)⟩

def request : RunRequest := ⟨uuid 2, day 2 5, .text "USD"⟩

/-- What a run bills: the phase, the rest of January, and February at the new price instead of
the old one. -/
def correction : Invoice where
  id := uuid 100
  account := uuid 2
  date := day 1 12
  target := day 2 5
  currency := .text "USD"
  items := [
    (charge (day 1 10) (some (day 1 24)) (hundredths 500) .fixed).issue (uuid 101) (uuid 100)
      (day 1 12),
    (charge (day 1 10) (some (day 2 1)) (hundredths 2129)
      (.recurring (hundredths 3000) none)).issue (uuid 102) (uuid 100) (day 1 12),
    (charge (day 2 1) (some (day 3 1)) (hundredths 3000)
      (.recurring (hundredths 3000) none)).issue (uuid 103) (uuid 100) (day 1 12),
    (charge (day 2 1) (some (day 3 1)) ⟨true, 2500, -2⟩
      (.recurring (hundredths 2500) (some (uuid 13)))).issue (uuid 104) (uuid 100) (day 1 12)]

theorem run_outdated : occasion.run [event] [outdated] request = .ok (some correction) :=
  (run_eq_ok (by decide)).mpr ⟨⟨[event]⟩, day 2 5, correction.items.take 3, correction.items,
    ⟨by decide +kernel, by decide, by decide, by decide +kernel, itemsOn [outdated],
      arrange_of_pairwise (by decide) (by decide), by decide +kernel⟩, rfl⟩

/-- The ids of the actions of a session. -/
def supply (action n : Nat) : Uuid := uuid (100 + 10 * action + n)

/-- Another subscription of the account, with a phase that starts a day before. -/
def neighbour : Event :=
  { event with subscription := uuid 3, effective := day 1 9, period := .none }

/-- The correction, with the phase of the other subscription in front. -/
def shared : Invoice where
  id := uuid 120
  account := uuid 2
  date := day 1 12
  target := day 2 5
  currency := .text "USD"
  items := [
    (neighbour.charge (day 1 9) (some (day 1 23)) (hundredths 500) (.text "USD") .fixed).issue
      (uuid 121) (uuid 120) (day 1 12),
    (charge (day 1 10) (some (day 1 24)) (hundredths 500) .fixed).issue (uuid 122) (uuid 120)
      (day 1 12),
    (charge (day 1 10) (some (day 2 1)) (hundredths 2129)
      (.recurring (hundredths 3000) none)).issue (uuid 123) (uuid 120) (day 1 12),
    (charge (day 2 1) (some (day 3 1)) (hundredths 3000)
      (.recurring (hundredths 3000) none)).issue (uuid 124) (uuid 120) (day 1 12),
    (charge (day 2 1) (some (day 3 1)) ⟨true, 2500, -2⟩
      (.recurring (hundredths 2500) (some (uuid 13)))).issue (uuid 125) (uuid 120) (day 1 12)]

theorem run_shared : (⟨.standard, day 1 12, supply 2⟩ : Occasion).run [neighbour, event] [outdated]
    request = .ok (some shared) := by
  have htimeline : Timeline.of [neighbour, event] = .ok ⟨[neighbour, event]⟩ :=
    Timeline.of_eq_self (by decide) (by decide)
  exact (run_eq_ok (by decide)).mpr ⟨_, day 2 5, shared.items.take 4, shared.items,
    ⟨htimeline, by decide, by decide, by decide +kernel, itemsOn [outdated],
      arrange_of_pairwise (by decide) (by decide), by decide +kernel⟩, rfl⟩

/-- What a run bills an account without invoices: the phase, the rest of January, and February. -/
def opening : Invoice := { correction with items := correction.items.take 3 }

theorem run_opening : (⟨.standard, day 1 12, supply 0⟩ : Occasion).run [event] [] request =
    .ok (some opening) := by decide +kernel

theorem arrange_opening : Item.arrange id (itemsOn [opening]) = .ok (itemsOn [opening]) :=
  arrange_of_pairwise (by decide) (by decide)

/-- The charges of some items, proposed again in a later action. -/
def again (action : Nat) (items : List Item) : List Item :=
  (items.map (·.charge)).mapIdx fun n c =>
    c.issue (supply action (n + 1)) (supply action 0) (day 1 12)

end Sample

end BillRun
