import BillRun.Proofs.Running
import BillRun.Proofs.Scalars
import BillRun.Service.Reply

/-! What a request says once it has been read.

A form reads as a value when each of its fields does (`gives_map`, `gives_seq`), so a reading
can be taken apart field by field and put together again. What has been read can be written down
again: moments are in UTC, amounts lie within what is read, and currencies have three characters
(`Request.Legible`). The service answers a request that it has read according to the run. -/
namespace BillRun

open Calendar

/-! ### Checks that succeed -/

namespace Form

namespace Checked

variable {α β : Type}

/-- The check succeeds, with a value that has the property. -/
def Gives (c : Checked α) (P : α → Prop) : Prop := ∃ a, c = .value a ∧ P a

instance {c : Checked α} {P : α → Prop} [DecidablePred P] : Decidable (c.Gives P) :=
  match c with
  | value a => decidable_of_iff (P a) (by simp [Gives])
  | remarks _ | fault _ => isFalse (by simp [Gives])

theorem eq_value_iff {c : Checked α} {a : α} : c = .value a ↔ c.Gives (· = a) := by
  simp [Gives]

theorem gives_map {f : α → β} {c : Checked α} {P : β → Prop} :
    (f <$> c).Gives P ↔ c.Gives fun a => P (f a) := by
  cases c <;> simp [Gives, Functor.map, both]

theorem gives_seq {f : Checked (α → β)} {c : Checked α} {P : β → Prop} :
    (f <*> c).Gives P ↔ f.Gives fun g => c.Gives fun a => P (g a) := by
  cases f <;> cases c <;> simp [Gives, Seq.seq, both]

theorem under_eq_value {p : Place} {c : Checked α} {a : α} :
    c.under p = .value a ↔ c = .value a := by
  cases c <;> simp [under]

end Checked

open Checked

variable {α : Type} {check : Check α} {name : String} {j : Json} {a default : α}

theorem required_eq_value :
    required name check j = .value a ↔ ∃ v, j.get? name = some v ∧ check v = .value a := by
  unfold required
  rw [under_eq_value]
  cases j.get? name <;> simp [complain]

theorem withDefault_eq_value : withDefault name default check j = .value a ↔
    (j.get? name = none ∧ default = a) ∨ ∃ v, j.get? name = some v ∧ check v = .value a := by
  unfold withDefault
  rw [under_eq_value]
  cases j.get? name <;> simp

/-- A field reads alike in two values that give it alike to its check. -/
theorem required_congr {j j' : Json} (h : (j.get? name).map check = (j'.get? name).map check) :
    required name check j = required name check j' := by
  unfold required
  cases hj : j.get? name <;> cases hj' : j'.get? name <;> simp_all

theorem withDefault_congr {j j' : Json} (h : (j.get? name).map check = (j'.get? name).map check) :
    withDefault name default check j = withDefault name default check j' := by
  unfold withDefault
  cases hj : j.get? name <;> cases hj' : j'.get? name <;> simp_all

theorem nullable_eq_value {v : Json} {a : Option α} :
    nullable check v = .value a ↔
      (v = .null ∧ none = a) ∨ v ≠ .null ∧ ∃ b, check v = .value b ∧ some b = a := by
  have hmap {c : Checked α} : c.map some = .value a ↔ ∃ b, c = .value b ∧ some b = a := by
    cases c <;> simp [Checked.map]
  cases v <;> simp [nullable, hmap]

theorem record_eq_value {fields : Json → Checked α} : record fields j = .value a ↔
    (∃ members, j = .object members) ∧ fields j = .value a := by
  cases j <;> simp [record, complain]

theorem elements_eq_value {n : Nat} {js : List Json} {as : List α} :
    elements check n js = .value as ↔ List.Forall₂ (fun j a => check j = .value a) js as := by
  induction js generalizing n as with
  | nil => simp [elements, eq_comm]
  | cons j js ih =>
    have hboth : elements check n (j :: js) = .value as ↔
        ∃ a, check j = .value a ∧ ∃ rest, elements check (n + 1) js = .value rest ∧
          a :: rest = as := by
      simp only [elements]
      cases check j <;> cases elements check (n + 1) js <;> simp [both, Checked.map, under]
    rw [hboth]
    constructor
    · rintro ⟨a, ha, rest, hrest, rfl⟩
      exact .cons ha (ih.mp hrest)
    · rintro (_ | ⟨ha, hrest⟩)
      exact ⟨_, ha, _, ih.mpr hrest, rfl⟩

theorem list_eq_value {as : List α} : list check j = .value as ↔
    ∃ js, j = .array js ∧ List.Forall₂ (fun j a => check j = .value a) js as := by
  cases j <;> simp [list, complain, elements_eq_value]

end Form

/-! ### What has been read -/

theorem Calendar.Moment.InUtc.anchored {t : Moment} (h : t.InUtc) : t.Anchored := by
  rw [Anchored, h]
  rfl

/-- Three characters. -/
def LooseText.IsCurrency (s : LooseText) : Prop := ∃ t : String, s = .text t ∧ t.length = 3

namespace Form

variable {v : Json}

theorem isCurrency_of_currency {s : LooseText} (h : Service.currency v = .value s) :
    s.IsCurrency := by
  unfold Service.currency textOfLength at h
  split at h
  · rename_i text
    split at h
    · cases h
    · split at h
      · cases h
      · cases h
        exact ⟨text, rfl, by omega⟩
  · rename_i hnot
    unfold text at h
    split at h
    · exact absurd rfl (hnot _)
    · cases h
    · cases h

end Form

theorem Decimal.writable_zero : Decimal.zero.writable = true := by decide

structure Event.Legible (e : Event) : Prop where
  effective : e.effective.InUtc
  fixedPrice : ∀ price, e.fixedPrice = some price → price.writable = true
  recurringPrice : ∀ price, e.recurringPrice = some price → price.writable = true

structure Charge.Legible (c : Charge) : Prop where
  start : c.start.InUtc
  stop : ∀ t, c.stop = some t → t.InUtc
  amount : c.amount.writable = true
  currency : c.currency.IsCurrency
  rate : ∀ rate, c.basis.rate? = some rate → rate.writable = true

structure Item.Legible (i : Item) : Prop where
  created : i.created.InUtc
  charge : i.charge.Legible

structure Invoice.Legible (v : Invoice) : Prop where
  date : v.date.InUtc
  target : v.target.InUtc
  currency : v.currency.IsCurrency
  items : ∀ i ∈ v.items, i.Legible

namespace Service

open Form Checked Scalars Scalars.Lawful

structure Request.Legible (r : Request) : Prop where
  target : r.target.InUtc
  currency : r.currency.IsCurrency
  events : ∀ e ∈ r.events, e.Legible
  issued : ∀ v ∈ r.issued, v.Legible
  now : ∀ t, r.now = some t → t.InUtc

/-- What is read into a field that is not left out has passed the check of the field. -/
theorem of_required {α : Type} {check : Check α} {name : String} {j : Json} {a : α} {P : α → Prop}
    (hcheck : ∀ {v : Json} {a : α}, check v = .value a → P a)
    (h : required name check j = .value a) : P a := by
  obtain ⟨v, -, hv⟩ := required_eq_value.mp h
  exact hcheck hv

theorem of_optionally {α : Type} {check : Check α} {name : String} {j : Json} {a : Option α}
    {P : α → Prop} (hcheck : ∀ {v : Json} {a : α}, check v = .value a → P a)
    (h : optionally name check j = .value a) : ∀ b, a = some b → P b := by
  rintro b rfl
  rcases withDefault_eq_value.mp h with ⟨-, hnone⟩ | ⟨v, -, hv⟩
  · cases hnone
  · rcases nullable_eq_value.mp hv with ⟨-, hnone⟩ | ⟨-, b', hb, hsome⟩
    · cases hnone
    · cases hsome
      exact hcheck hb

theorem of_list {α : Type} {check : Check α} {name : String} {j : Json} {as : List α}
    {P : α → Prop} (hcheck : ∀ {v : Json} {a : α}, check v = .value a → P a)
    (h : withDefault name [] (list check) j = .value as) : ∀ a ∈ as, P a := by
  intro a ha
  rcases withDefault_eq_value.mp h with ⟨-, rfl⟩ | ⟨v, -, hv⟩
  · cases ha
  · obtain ⟨js, -, hjs⟩ := list_eq_value.mp hv
    obtain ⟨j, -, hj⟩ := exists_of_mem_right hjs ha
    exact hcheck hj

section
variable [Scalars]

theorem legible_of_event [Lawful] {j : Json} {e : Event} (h : event j = .value e) : e.Legible := by
  rw [event, record_eq_value, eq_value_iff] at h
  simp only [gives_seq, gives_map] at h
  obtain ⟨-, _, -, _, -, _, -, effective, heffective, _, -, _, -, _, -, fixed, hfixed, recurring,
    hrecurring, _, -, _, -, rfl⟩ := h
  exact ⟨of_required inUtc_of_readMoment heffective,
    of_optionally writable_of_readAmount hfixed, of_optionally writable_of_readAmount hrecurring⟩

theorem legible_of_item [Lawful] {j : Json} {i : Item} (h : item j = .value i) : i.Legible := by
  rw [item, record_eq_value, eq_value_iff] at h
  simp only [gives_seq, gives_map] at h
  obtain ⟨-, _, -, kind, -, _, -, _, -, _, -, _, -, start, hstart, stop, hstop, amount, hamount,
    currency, hcurrency, created, hcreated, rate, hrate, _, -, rfl⟩ := h
  refine ⟨of_required inUtc_of_readMoment hcreated, of_required inUtc_of_readMoment hstart,
    of_optionally inUtc_of_readMoment hstop, ?_, of_required isCurrency_of_currency hcurrency,
    ?_⟩
  · exact of_required (P := (·.writable = true)) writable_of_readAmount hamount
  have hwritable := of_optionally writable_of_readAmount hrate
  cases kind with
  | fixed =>
    rintro _ ⟨⟩
  | recurring =>
    rintro _ ⟨⟩
    cases rate with
    | none => exact Decimal.writable_zero
    | some rate => exact hwritable rate rfl

theorem legible_of_invoice [Lawful] {j : Json} {v : Invoice} (h : invoice j = .value v) :
    v.Legible := by
  rw [invoice, record_eq_value, eq_value_iff] at h
  simp only [gives_seq, gives_map] at h
  obtain ⟨-, _, -, _, -, date, hdate, target, htarget, currency, hcurrency, items, hitems, rfl⟩ := h
  exact ⟨of_required inUtc_of_readMoment hdate, of_required inUtc_of_readMoment htarget,
    of_required isCurrency_of_currency hcurrency, of_list legible_of_item hitems⟩

/-- The fields of a request, each read for itself. -/
theorem request_eq_value {j : Json} {r : Request} : request j = .value r ↔
    (∃ members, j = .object members) ∧
      required "account_id" readUuid j = .value r.account ∧
      required "target_date" readMoment j = .value r.target ∧
      withDefault "currency" (.text "USD") currency j = .value r.currency ∧
      withDefault "events" [] (list event) j = .value r.events ∧
      withDefault "existing_invoices" [] (list invoice) j = .value r.issued ∧
      optionally "now" readMoment j = .value r.now := by
  rw [request, record_eq_value, eq_value_iff]
  simp only [gives_seq, gives_map]
  refine and_congr_right fun _ => ⟨?_, ?_⟩
  · rintro ⟨_, haccount, _, htarget, _, hcurrency, _, hevents, _, hissued, _, hnow, rfl⟩
    exact ⟨haccount, htarget, hcurrency, hevents, hissued, hnow⟩
  · rintro ⟨haccount, htarget, hcurrency, hevents, hissued, hnow⟩
    exact ⟨_, haccount, _, htarget, _, hcurrency, _, hevents, _, hissued, _, hnow, rfl⟩

/-- **What has been read can be written**: moments in UTC, amounts in range, codes of currencies. -/
theorem legible_of_request [Lawful] {j : Json} {r : Request} (h : request j = .value r) :
    r.Legible := by
  obtain ⟨-, -, htarget, hcurrency, hevents, hissued, hnow⟩ := request_eq_value.mp h
  refine ⟨of_required inUtc_of_readMoment htarget, ?_, of_list legible_of_event hevents,
    of_list legible_of_invoice hissued, of_optionally inUtc_of_readMoment hnow⟩
  rcases withDefault_eq_value.mp hcurrency with ⟨-, hdefault⟩ | ⟨v, -, hv⟩
  · exact ⟨"USD", hdefault.symm, rfl⟩
  · exact isCurrency_of_currency hv

theorem now_of_given {j : Json} {r : Request} (h : request j = .value r)
    (hnow : j.given? "now" ≠ none) : ∃ now, r.now = some now := by
  obtain ⟨-, -, -, -, -, -, hread⟩ := request_eq_value.mp h
  unfold Json.given? at hnow
  rcases withDefault_eq_value.mp hread with ⟨hnone, -⟩ | ⟨v, hv, hread⟩
  · simp [hnone] at hnow
  · rcases nullable_eq_value.mp hread with ⟨rfl, -⟩ | ⟨-, now, -, hsome⟩
    · simp [hv] at hnow
    · exact ⟨now, hsome.symm⟩

end

/-! ### Replies -/

variable {terms : Terms} {present : Moment} {ids : Nat → Uuid} {body reply : Json}

theorem status_unreadable {remarks : List Remark} {a : Reply}
    (h : unreadable body remarks = .ok a) : a.status = 422 := by
  unfold unreadable at h
  dsimp only at h
  split at h
  · cases h
  · split at h
    · cases h
    · cases h
      rfl

theorem run_of_now {r : Request} {now : Moment} (h : r.now = some now) (terms : Terms)
    (present : Moment) (ids : Nat → Uuid) : r.run terms present ids =
      (⟨terms, now, ids⟩ : Occasion).run r.events r.issued ⟨r.account, r.target, r.currency⟩ := by
  unfold Request.run
  rw [h]
  rfl

variable [Scalars]

/-- The reply that shows an invoice. -/
def shown (v : Invoice) : Except Fault Reply := do
  let j ← ofInvoice v
  if j.isPaired then return ⟨200, j⟩ else throw .unpairedName

theorem shown_eq_ok {v : Invoice} {a : Reply} :
    shown v = .ok a ↔ ∃ j, ofInvoice v = .ok j ∧ j.isPaired = true ∧ a = ⟨200, j⟩ := by
  unfold shown
  rw [bind_eq_ok]
  refine exists_congr fun j => and_congr_right fun _ => ?_
  split
  · simp [*, eq_comm]
  · simp [*]

/-- What is answered to a request that has been read, once the run is over. -/
def replyTo : Except Fault (Option Invoice) → Except Fault Reply
  | .error f => if f.refused then .ok ⟨400, detail f.message⟩ else .error f
  | .ok none => .ok ⟨204, .null⟩
  | .ok (some v) => shown v

theorem generate_of_request {r : Request} (h : request body = .value r) :
    generate terms present ids body = replyTo (r.run terms present ids) := by
  unfold generate replyTo
  simp only [h]
  rfl

theorem replyTo_eq_invoice {outcome : Except Fault (Option Invoice)} :
    replyTo outcome = .ok ⟨200, reply⟩ ↔
      ∃ v, outcome = .ok (some v) ∧ ofInvoice v = .ok reply ∧ reply.isPaired = true := by
  unfold replyTo
  split
  · split <;> simp
  · simp
  · simp [shown_eq_ok]

theorem replyTo_eq_refusal {outcome : Except Fault (Option Invoice)} :
    (∃ j, replyTo outcome = .ok ⟨400, j⟩) ↔ ∃ f, outcome = .error f ∧ f.refused = true := by
  unfold replyTo
  split
  · split <;> simp [*]
  · simp
  · simp [shown_eq_ok]

/-- A reply with an invoice shows what the run has billed. -/
theorem generate_eq_invoice : generate terms present ids body = .ok ⟨200, reply⟩ ↔
    ∃ r v, request body = .value r ∧ r.run terms present ids = .ok (some v) ∧
      ofInvoice v = .ok reply ∧ reply.isPaired = true := by
  cases h : request body with
  | value r =>
    rw [generate_of_request h, replyTo_eq_invoice]
    simp
  | remarks rs =>
    have hnot : generate terms present ids body ≠ .ok ⟨200, reply⟩ := by
      intro hok
      simp only [generate, h] at hok
      cases status_unreadable hok
    simp [hnot]
  | fault f => simp [generate, h]

/-- A run is answered with its invoice when that can be shown. -/
theorem exists_reply {r : Request} {v : Invoice} (hread : request body = .value r)
    (hrun : r.run terms present ids = .ok (some v))
    (hshown : (ofInvoice v).toOption.any Json.isPaired = true) :
    ∃ j, ofInvoice v = .ok j ∧ generate terms present ids body = .ok ⟨200, j⟩ := by
  cases hform : ofInvoice v with
  | error =>
    rw [hform] at hshown
    cases hshown
  | ok j =>
    rw [hform] at hshown
    exact ⟨j, rfl, generate_eq_invoice.mpr ⟨r, v, hread, hrun, hform, hshown⟩⟩

end Service

/-! ### The sample account, posted to the service -/

namespace Sample

open Service

def posted (effective target now : String) : Json := .record
  [("account_id", ofUuid (uuid 2)),
    ("target_date", .string target),
    ("events", .array [.record
      [("subscription_id", ofUuid (uuid 1)),
        ("plan_name", .string "pro"),
        ("phase_name", .string "fortnight"),
        ("effective_date", .string effective),
        ("billing_period", .string "monthly"),
        ("fixed_price", .string "5.00"),
        ("recurring_price", .string "30.00"),
        ("phase_duration", .record [("unit", .string "days"), ("number", .int 14)])]]),
    ("now", .string now)]

theorem request_posted : (Service.request
    (posted "2020-01-10T00:00:00Z" "2020-02-05T00:00:00Z" "2020-01-12T00:00:00Z")).Gives fun r =>
      r.now = some (day 1 12) ∧ r.events = [event] ∧ r.issued = [] ∧ r.account = uuid 2 ∧
        r.target = day 2 5 ∧ r.currency = .text "USD" := by
  decide +kernel

end Sample

end BillRun
