import BillRun.Proofs.Amounts
import BillRun.Proofs.Convergence
import Mathlib.Algebra.BigOperators.Group.List.Basic
import Mathlib.Tactic.Linarith

/-! The ledger of a session, however its events change.

Events may come and go between runs. As long as every invoice is kept and ids are fresh, the issued
items form a ledger (`Ledger`): each credit takes back one earlier charge, exactly and only once.
What was taken back and its credit cancel out in the sum, so the recurring items ever issued sum to
those that survive, and after a run to those that the events bill (`exactSum_of_ran`). -/
namespace BillRun

open Calendar Settlement

/-! ### Exact sums -/

/-- The sum of the amounts as numbers, without rounding. -/
def exactSum (items : List Item) : ℚ := (items.map (·.charge.amount.value)).sum

theorem exactSum_append (a b : List Item) : exactSum (a ++ b) = exactSum a + exactSum b := by
  rw [exactSum, List.map_append, List.sum_append]
  rfl

theorem exactSum_perm {a b : List Item} (h : a.Perm b) : exactSum a = exactSum b :=
  (h.map _).sum_eq

/-- The keys tell the sum. -/
theorem exactSum_congr {a b : List Item} (h : (keys a).Perm (keys b)) :
    exactSum a = exactSum b := by
  have hsum (items : List Item) :
      exactSum items = ((keys items).map fun k => k.amount.value).sum := by
    rw [keys, List.map_map, exactSum]
    congr 1
    apply List.map_congr_left
    intro i _
    exact (Decimal.value_canonical i.charge.amount).symm
  rw [hsum, hsum]
  exact (h.map _).sum_eq

/-! ### Credits and what they take back -/

/-- `c` takes back the charge `i`, in full. -/
structure Reverses (c i : Item) : Prop where
  reverses : c.reverses = some i.id
  recurring : i.charge.kind = .recurring
  uncredited : i.reverses = none
  subscription : c.charge.subscription = i.charge.subscription
  plan : c.charge.plan = i.charge.plan
  phase : c.charge.phase = i.charge.phase
  start : c.charge.start = i.charge.start
  stop : c.charge.stop = i.charge.stop
  rate : c.charge.basis.rate? = i.charge.basis.rate?
  amount : c.charge.amount.value = -i.charge.amount.value

theorem Settlement.Credits.recurring {c i : Item} (h : Credits c i) :
    i.charge.kind = .recurring := by
  have hkind := h.kind
  have hrate := h.rate
  unfold Charge.kind at hkind ⊢
  cases hc : c.charge.basis <;> cases hi : i.charge.basis <;>
    simp_all [Basis.kind, Basis.rate?]

theorem Settlement.Credits.toReverses {c i : Item} (h : Credits c i) (hi : i.reverses = none)
    (hfits : i.charge.amount.Fits) : Reverses c i where
  reverses := h.reverses
  recurring := h.recurring
  uncredited := hi
  subscription := by rw [h.rest]
  plan := by rw [h.rest]
  phase := by rw [h.rest]
  start := by rw [h.rest]
  stop := by rw [h.rest]
  rate := h.rate
  amount := hfits.value_neg h.amount

theorem recurring_eq_self {items : List Item} (h : ∀ i ∈ items, i.charge.kind = .recurring) :
    recurring items = items :=
  List.filter_eq_self.mpr fun i hi => by simp [Item.isRecurring, h i hi]

/-- Credits undo what they take back. -/
theorem exactSum_credited {credited taken : List Item} (h : List.Forall₂ Reverses credited taken) :
    exactSum credited = -exactSum taken := by
  induction h with
  | nil => rfl
  | @cons c i cs items hc _ ih =>
    show c.charge.amount.value + exactSum cs = -(i.charge.amount.value + exactSum items)
    rw [hc.amount, ih, neg_add]

theorem filterMap_reverses_credited {credited taken : List Item}
    (h : List.Forall₂ Reverses credited taken) :
    credited.filterMap Item.reverses = taken.map Item.id := by
  induction h with
  | nil => rfl
  | cons hc _ ih => rw [List.filterMap_cons_some hc.reverses, ih, List.map_cons]

/-! ### The ledger and one more run -/

/-- What holds of the invoices of a session, each of them kept. -/
structure Ledger (issued : List Invoice) : Prop where
  ids : ((itemsOn issued).map Item.id).Nodup
  fits : ∀ i ∈ itemsOn issued, i.reverses = none → i.charge.kind = .recurring →
    i.charge.amount.Fits
  credits : ∀ before v after, issued = before ++ v :: after →
    ∀ c ∈ v.items, c.reverses ≠ none → ∃ i ∈ itemsOn before, Reverses c i
  once : ((itemsOn issued).filterMap Item.reverses).Nodup
  balance : exactSum (recurring (itemsOn issued)) =
    exactSum (recurring (surviving (itemsOn issued)))
  targets : issued.Pairwise fun v w => v.target.le w.target = .ok true

theorem eq_append_cons_of_concat {α : Type} {xs before after : List α} {x v : α}
    (h : xs ++ [x] = before ++ v :: after) :
    before = xs ∧ v = x ∨ ∃ rest, xs = before ++ v :: rest := by
  rcases List.eq_nil_or_concat after with rfl | ⟨rest, y, rfl⟩
  · obtain ⟨hxs, hx⟩ := List.append_inj' h rfl
    exact .inl ⟨hxs.symm, (List.cons.inj hx).1.symm⟩
  · refine .inr ⟨rest, ?_⟩
    rw [List.concat_eq_append, ← List.cons_append, ← List.append_assoc] at h
    exact (List.append_inj' h rfl).1

namespace Ledger

variable {o : Occasion} {events : List Event} {issued : List Invoice} {r : RunRequest}
  {timeline : Timeline} {target : Moment} {proposed new charges taken credited : List Item}

theorem nil : Ledger [] :=
  ⟨.nil, by simp [itemsOn], by simp, .nil, rfl, .nil⟩

/-- What is taken back survived, so it is a charge not yet taken back. -/
theorem of_mem_taken (hsettled : Settled proposed (itemsOn issued) charges taken credited)
    {i : Item} (hi : i ∈ taken) :
    i ∈ itemsOn issued ∧ i.reverses = none ∧ i.id ∉ cancelled (itemsOn issued) := by
  have hsurviving := hsettled.taken_le.subset hi
  exact ⟨(mem_surviving.mp hsurviving).1, reverses_of_mem_surviving hsurviving,
    (mem_surviving.mp hsurviving).2⟩

theorem reverses_credited (h : Ledger issued)
    (hsettled : Settled proposed (itemsOn issued) charges taken credited) :
    List.Forall₂ Reverses credited taken := by
  have htaken : ∀ i ∈ taken, i ∈ itemsOn issued ∧ i.reverses = none := fun i hi =>
    ⟨(of_mem_taken hsettled hi).1, (of_mem_taken hsettled hi).2.1⟩
  have hboth := (List.forall₂_and_left taken credited).mpr ⟨htaken, hsettled.credited.flip⟩
  refine (hboth.imp fun i c ⟨⟨hi, hnone⟩, hcredit⟩ => ?_).flip
  exact hcredit.toReverses hnone (h.fits i hi hnone hcredit.recurring)

theorem ids_append (h : Ledger issued) (hfresh : Fresh (itemsOn issued) new) :
    ((itemsOn issued ++ new).map Item.id).Nodup := by
  rw [List.map_append, List.nodup_append]
  refine ⟨h.ids, hfresh.distinct, fun a ha b hb heq => ?_⟩
  obtain ⟨e, he, rfl⟩ := List.mem_map.mp ha
  obtain ⟨i, hi, rfl⟩ := List.mem_map.mp hb
  exact (hfresh.unused i hi e he).1 heq.symm

theorem once_append (h : Ledger issued)
    (hsettled : Settled proposed (itemsOn issued) charges taken credited)
    (hcharges : ∀ i ∈ charges, i.reverses = none) :
    ((itemsOn issued ++ (charges ++ credited)).filterMap Item.reverses).Nodup := by
  have hnone : charges.filterMap Item.reverses = [] :=
    List.filterMap_eq_nil_iff.mpr hcharges
  rw [List.filterMap_append, List.filterMap_append, hnone, List.nil_append,
    filterMap_reverses_credited (h.reverses_credited hsettled), List.nodup_append]
  refine ⟨h.once, ?_, fun a ha b hb heq => ?_⟩
  · obtain ⟨taken', hperm, hsub⟩ := hsettled.taken_le
    have hids : (taken'.map Item.id).Nodup :=
      h.ids.sublist ((hsub.trans List.filter_sublist).map Item.id)
    exact (hperm.map Item.id).nodup_iff.mp hids
  · -- what was taken back before is cancelled, and what is taken back now survived
    obtain ⟨c, hc, hrev⟩ := List.mem_filterMap.mp ha
    obtain ⟨i, hi, rfl⟩ := List.mem_map.mp hb
    subst heq
    exact (of_mem_taken hsettled hi).2.2 (mem_cancelled.mpr ⟨c, hc, i.id, hrev, .inr rfl⟩)

theorem balance_append (h : Ledger issued)
    (hsettled : Settled proposed (itemsOn issued) charges taken credited)
    (hcharges : ∀ i ∈ charges, i.reverses = none)
    (hfresh : Fresh (itemsOn issued) (charges ++ credited)) :
    exactSum (recurring (itemsOn issued ++ (charges ++ credited))) =
      exactSum (recurring (surviving (itemsOn issued ++ (charges ++ credited)))) := by
  have hreverses := h.reverses_credited hsettled
  have htaken : recurring taken = taken := recurring_eq_self fun i hi => by
    obtain ⟨c, _, hc⟩ := exists_of_mem_right hreverses hi
    exact hc.recurring
  have hcredited : recurring credited = credited := recurring_eq_self fun c hc => by
    obtain ⟨i, _, hcredit⟩ := exists_of_mem_right hsettled.credited.flip hc
    exact hcredit.kind
  have hmoved := exactSum_perm ((hsettled.surviving_perm h.ids hcharges hfresh).filter
    Item.isRecurring)
  rw [List.filter_append, List.filter_append, exactSum_append, exactSum_append] at hmoved
  change exactSum (recurring taken) + exactSum (recurring _) =
    exactSum (recurring _) + exactSum (recurring charges) at hmoved
  rw [htaken, ← h.balance] at hmoved
  rw [recurring_append, recurring_append, exactSum_append, exactSum_append, hcredited,
    exactSum_credited hreverses]
  linarith

theorem fits_of_mem_charges (hran : Ran o events issued r timeline target proposed new)
    {i : Item} (hi : i ∈ proposed) (hkind : i.charge.kind = .recurring) :
    i.charge.amount.Fits := by
  obtain ⟨_, _, _, _, hbills⟩ := hran.bills hi
  obtain ⟨cycles, rate, hcharge⟩ := hbills.amount hkind
  exact Terms.fits_of_charge hcharge

/-- **Every run over some events keeps the ledger.** -/
theorem step_of_ran (h : Ledger issued)
    (hran : Ran o events issued r timeline target proposed new)
    (hfresh : Fresh (itemsOn issued) new) :
    Ledger (issued ++ (o.invoice r target new).toList) := by
  obtain ⟨charges, taken, credited, rfl, hsettled, hcharges⟩ := hran.settled
  have hitems := itemsOn_append_invoice issued o r target (charges ++ credited)
  have hreverses := h.reverses_credited hsettled
  refine ⟨?_, fun i hi hnone hkind => ?_, fun before v after hsplit c hc hcredit => ?_, ?_, ?_, ?_⟩
  · rw [hitems]
    exact h.ids_append hfresh
  · rw [hitems] at hi
    rcases List.mem_append.mp hi with hi | hi
    · exact h.fits i hi hnone hkind
    rcases List.mem_append.mp hi with hi | hi
    · exact fits_of_mem_charges hran (hsettled.charges_le.subset hi) hkind
    · obtain ⟨j, _, hj⟩ := exists_of_mem_right hreverses.flip hi
      rw [hj.reverses] at hnone
      cases hnone
  · cases hinvoice : o.invoice r target (charges ++ credited) with
    | none =>
      rw [hinvoice, Option.toList_none, List.append_nil] at hsplit
      exact h.credits before v after hsplit c hc hcredit
    | some w =>
      rw [hinvoice, Option.toList_some] at hsplit
      rcases eq_append_cons_of_concat hsplit with ⟨rfl, rfl⟩ | ⟨rest, hrest⟩
      · rw [(invoice_eq_some hinvoice).1] at hc
        rcases List.mem_append.mp hc with hc | hc
        · exact absurd (hcharges c hc) hcredit
        · obtain ⟨i, hi, hic⟩ := exists_of_mem_right hreverses.flip hc
          exact ⟨i, (of_mem_taken hsettled hi).1, hic⟩
      · exact h.credits before v rest hrest c hc hcredit
  · rw [hitems]
    exact h.once_append hsettled hcharges
  · rw [hitems]
    exact h.balance_append hsettled hcharges hfresh
  · refine List.pairwise_append.mpr ⟨h.targets, ?_, fun v hv w hw => ?_⟩
    · cases o.invoice r target (charges ++ credited) with
      | none => exact .nil
      | some w => exact List.pairwise_singleton _ w
    · rw [(of_mem_invoice hw).2]
      exact hran.latest.issued_le v hv

/-- After a run, the recurring items ever issued sum to those that its events bill. -/
theorem exactSum_of_ran (h : Ledger issued)
    (hran : Ran o events issued r timeline target proposed new)
    (hfresh : Fresh (itemsOn issued) new) :
    exactSum (recurring (itemsOn issued ++ new)) = exactSum (recurring proposed) := by
  obtain ⟨charges, taken, credited, rfl, hsettled, hcharges⟩ := hran.settled
  rw [h.balance_append hsettled hcharges hfresh]
  exact exactSum_congr (hran.recurring_surviving_perm h.ids hfresh)

theorem step (h : Ledger issued) {result : Option Invoice}
    (hrun : o.run events issued r = .ok result)
    (hfresh : Fresh (itemsOn issued) (billed result)) : Ledger (issued ++ result.toList) := by
  rcases run_cases hrun with ⟨-, rfl⟩ | ⟨timeline, target, proposed, new, hran, rfl⟩
  · rw [Option.toList_none, List.append_nil]
    exact h
  · rw [billed_invoice] at hfresh
    exact h.step_of_ran hran hfresh

/-- No credit is taken back: what a credit takes back is no credit, and ids tell items apart. -/
theorem uncredited_of_credit (h : Ledger issued) {c d : Item} (hc : c ∈ itemsOn issued)
    (hcredit : c.reverses ≠ none) (hd : d ∈ itemsOn issued) : d.reverses ≠ some c.id := by
  intro hrev
  obtain ⟨v, hv, hdv⟩ := mem_itemsOn.mp hd
  obtain ⟨before, after, rfl⟩ := List.append_of_mem hv
  obtain ⟨i, hi, hdi⟩ := h.credits before v after rfl d hdv (by rw [hrev]; exact nofun)
  have hid : i.id = c.id := Option.some.inj (hdi.reverses.symm.trans hrev)
  have hi' : i ∈ itemsOn (before ++ v :: after) := by
    rw [itemsOn_append]
    exact List.mem_append_left _ hi
  obtain rfl : i = c := List.inj_on_of_nodup_map h.ids hi' hc hid
  exact hcredit hdi.uncredited

end Ledger

/-! ### A session -/

namespace Session

variable {terms : Terms} {ids : Nat → Nat → Uuid} {s : State} {a : Action}

/-- The action neither adds nor removes an invoice by hand, and a run looks at those issued and
keeps what it makes. -/
def Action.Keeps : Action → Prop
  | .issue _ => False
  | .forget _ => False
  | .generate _ keep ignoreIssued => keep = true ∧ ignoreIssued = false
  | _ => True

/-- The ids of the items on an invoice that the answer gives are fresh. -/
def FreshAnswer (s : State) (answer : Except Fault Answer) : Prop :=
  ∀ v, answer = .ok (.invoice v) → Fresh (itemsOn s.issued) v.items

/-- The states of a session that starts without invoices and keeps every one, under fresh ids. -/
inductive Reachable (terms : Terms) (ids : Nat → Nat → Uuid) : State → Prop
  | start (now : Moment) (events : Option (List Event)) (actions : Nat) :
    Reachable terms ids ⟨now, events, [], actions⟩
  | next {s : State} {a : Action} (h : Reachable terms ids s) (hkeeps : a.Keeps)
      (hfresh : FreshAnswer s (step terms ids s a).2) : Reachable terms ids (step terms ids s a).1

/-- Only a run issues anything. -/
theorem issued_of_keeps (terms : Terms) (ids : Nat → Nat → Uuid) (s : State) (hkeeps : a.Keeps) :
    (step terms ids s a).1.issued = s.issued ∨ ∃ r, a = .generate r true false := by
  cases a with
  | setNow now =>
    left
    simp only [step, act]
    cases now.toUtc <;> rfl
  | events events => cases events <;> exact .inl rfl
  | addEvent e => exact .inl rfl
  | repeatEvent position =>
    left
    simp only [step, act]
    cases Sequence.at? (s.events.getD []) position <;> rfl
  | dropEvent position => exact .inl rfl
  | issue v => exact hkeeps.elim
  | forget position => exact hkeeps.elim
  | effective => exact .inl rfl
  | generate r keep ignoreIssued =>
    obtain ⟨rfl, rfl⟩ := hkeeps
    exact .inr ⟨r, rfl⟩

theorem fresh_billed {result : Option Invoice}
    (hfresh : FreshAnswer s (.ok (result.elim .nothing .invoice))) :
    Fresh (itemsOn s.issued) (billed result) := by
  cases result with
  | none => exact ⟨.nil, fun i hi => absurd hi List.not_mem_nil⟩
  | some v => exact hfresh v rfl

theorem Reachable.ledger (h : Reachable terms ids s) : Ledger s.issued := by
  induction h with
  | start => exact .nil
  | @next s a _ hkeeps hfresh ih =>
    rcases issued_of_keeps terms ids s hkeeps with hsame | ⟨r, rfl⟩
    · rwa [hsame]
    · cases hanswer : (step terms ids s (.generate r true false)).2 with
      | error fault => rwa [of_generate_error hanswer]
      | ok answer =>
        obtain ⟨result, hrun, rfl, hnext⟩ := run_of_generate_ok hanswer
        rw [hanswer] at hfresh
        rw [hnext]
        exact Ledger.step ih hrun (fresh_billed hfresh)

theorem Reachable.of_run (h : Reachable terms ids s) {r : RunRequest} {result : Option Invoice}
    (hrun : (⟨terms, s.now, ids s.actions⟩ : Occasion).run (s.events.getD []) s.issued r =
      .ok result) (hfresh : Fresh (itemsOn s.issued) (billed result)) :
    Reachable terms ids
      { s with issued := s.issued ++ result.toList, actions := s.actions + 1 } := by
  have hstep := step_of_run hrun
  have hanswer : FreshAnswer s (step terms ids s (.generate r true false)).2 := by
    intro v hv
    rw [hstep] at hv
    cases result with
    | none => cases hv
    | some w =>
      cases hv
      exact hfresh
  have hreachable := h.next (a := .generate r true false) ⟨rfl, rfl⟩ hanswer
  rwa [hstep] at hreachable

theorem Reachable.addEvent (h : Reachable terms ids s) (e : Event) : Reachable terms ids
    { s with events := some (s.events.getD [] ++ [e]), actions := s.actions + 1 } := by
  refine h.next (a := .addEvent e) trivial fun v hv => ?_
  cases hv

/-- **The ledger of a session.** However the events change between runs: every credit takes back a
charge of an earlier invoice in full, no charge is taken back twice and no credit at all, targets
never decrease; and after every run over some events the amounts of all recurring items ever issued
sum exactly to those that the events bill. -/
theorem reachable_ledger (h : Reachable terms ids s) :
    (∀ before v after, s.issued = before ++ v :: after →
      ∀ c ∈ v.items, c.reverses ≠ none → ∃ i ∈ itemsOn before, Reverses c i) ∧
    ((itemsOn s.issued).filterMap Item.reverses).Nodup ∧
    (∀ c ∈ itemsOn s.issued, c.reverses ≠ none →
      ∀ d ∈ itemsOn s.issued, d.reverses ≠ some c.id) ∧
    (s.issued.Pairwise fun v w => v.target.le w.target = .ok true) ∧
    ∀ r answer, s.events.getD [] ≠ [] →
      (step terms ids s (.generate r true false)).2 = .ok answer → FreshAnswer s (.ok answer) →
      ∀ now itemIds invoice, ∃ timeline target expansion,
        Timeline.of (s.events.getD []) = .ok timeline ∧
        latestTarget r.target s.issued = .ok target ∧
        timeline.expand terms now itemIds invoice target r.currency = .ok expansion ∧
        exactSum (recurring (itemsOn (step terms ids s (.generate r true false)).1.issued)) =
          exactSum (recurring expansion) := by
  have hledger := h.ledger
  refine ⟨hledger.credits, hledger.once, fun c hc hcredit d hd =>
    hledger.uncredited_of_credit hc hcredit hd, hledger.targets,
    fun r answer hne hanswer hfresh now itemIds invoice => ?_⟩
  obtain ⟨result, hrun, rfl, hnext⟩ := run_of_generate_ok hanswer
  obtain ⟨timeline, target, proposed, new, hran, rfl⟩ := (run_eq_ok hne).mp hrun
  have hnew := fresh_billed hfresh
  rw [billed_invoice] at hnew
  obtain ⟨expansion, hexpand, hsame⟩ := hran.expand now itemIds invoice
  refine ⟨timeline, target, expansion, hran.ordered, hran.raised, hexpand, ?_⟩
  have hkeys := keys_recurring_congr hsame
  rw [hnext, itemsOn_append_invoice, hledger.exactSum_of_ran hran hnew]
  exact exactSum_congr (by rw [hkeys])

namespace Sample

open BillRun.Sample

/-- Forty a month from February on. -/
def increase : Event :=
  { event with
    effective := day 2 1, fixedPrice := none, recurringPrice := some (hundredths 4000),
    ordering := 1 }

/-- February at the new price, and the credit for the old one. -/
def repriced : Invoice where
  id := uuid 120
  account := uuid 2
  date := day 1 12
  target := day 2 5
  currency := .text "USD"
  items := [
    (charge (day 2 1) (some (day 3 1)) (hundredths 4000) (.recurring (hundredths 4000) none)).issue
      (uuid 123) (uuid 120) (day 1 12),
    (charge (day 2 1) (some (day 3 1)) ⟨true, 3000, -2⟩
      (.recurring (hundredths 3000) (some (uuid 103)))).issue (uuid 124) (uuid 120) (day 1 12)]

theorem run_increase : (⟨.standard, day 1 12, supply 2⟩ : Occasion).run [event, increase] [opening]
    request = .ok (some repriced) := by
  have htimeline : Timeline.of [event, increase] = .ok ⟨[event, increase]⟩ :=
    Timeline.of_eq_self (by decide) (by decide)
  exact (run_eq_ok (by decide)).mpr ⟨_, day 2 5,
    again 2 (opening.items.take 2 ++ [repriced.items[0]]), repriced.items,
    ⟨htimeline, by decide, by decide, by decide +kernel, _, arrange_opening, by decide +kernel⟩,
    rfl⟩

/-- A run, and a new price entered afterwards. -/
theorem reachable_increase : Reachable .standard supply
    ⟨day 1 12, some [event, increase], [opening], 2⟩ := by
  have hopening := (Reachable.start (day 1 12) (some [event]) 0).of_run run_opening
    ⟨by decide, by decide⟩
  exact hopening.addEvent increase

end Sample

open BillRun.Sample Sample in
/-- The run that follows credits the old price. -/
theorem reachable_ledger_increase :
    Reachable .standard supply ⟨day 1 12, some [event, increase], [opening], 2⟩ ∧
      (step .standard supply ⟨day 1 12, some [event, increase], [opening], 2⟩
        (.generate request true false)).2 = .ok (.invoice repriced) ∧
      ∃ timeline target expansion,
        Timeline.of [event, increase] = .ok timeline ∧
        latestTarget request.target [opening] = .ok target ∧
        timeline.expand .standard (day 1 1) uuid (uuid 0) target request.currency = .ok expansion ∧
        exactSum (recurring (itemsOn (step .standard supply
          ⟨day 1 12, some [event, increase], [opening], 2⟩
          (.generate request true false)).1.issued)) = exactSum (recurring expansion) := by
  have hanswer : (step .standard supply ⟨day 1 12, some [event, increase], [opening], 2⟩
      (.generate request true false)).2 = .ok (.invoice repriced) :=
    congrArg Prod.snd (step_of_run (s := ⟨day 1 12, some [event, increase], [opening], 2⟩)
      run_increase)
  have hfresh : FreshAnswer ⟨day 1 12, some [event, increase], [opening], 2⟩
      (.ok (.invoice repriced)) := by
    intro v hv
    cases hv
    exact ⟨by decide, by decide⟩
  exact ⟨reachable_increase, hanswer, (reachable_ledger reachable_increase).2.2.2.2 request _
    (by decide) hanswer hfresh (day 1 1) uuid (uuid 0)⟩

end Session

end BillRun
