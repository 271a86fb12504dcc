import BillRun.Proofs.Requests

/-! A run under other ids.

Ids are given out and never asked about: two runs that differ in the ids they are supplied with
propose the same charges, match the same of them with what was issued, and credit the same items.
So they fail alike, or what they give differs in the new ids only, and these stand in one place of
either supply (`run_reissued`). The same holds of the replies that show it (`replyTo_reissued`). -/
namespace BillRun

open Calendar

/-! ### Outcomes side by side -/

/-- The same fault, or results that are related. -/
inductive Agree {α β : Type} (R : α → β → Prop) : Except Fault α → Except Fault β → Prop
  | fault (f : Fault) : Agree R (.error f) (.error f)
  | result {a : α} {b : β} (h : R a b) : Agree R (.ok a) (.ok b)

theorem Agree.bind {α β γ δ : Type} {R : α → β → Prop} {S : γ → δ → Prop} {x : Except Fault α}
    {y : Except Fault β} {f : α → Except Fault γ} {g : β → Except Fault δ} (h : Agree R x y)
    (hnext : ∀ {a b}, R a b → Agree S (f a) (g b)) : Agree S (x >>= f) (y >>= g) := by
  cases h with
  | fault f => exact .fault f
  | result h => exact hnext h

/-- What does not depend on the ids is done once. -/
theorem Agree.after {α γ δ : Type} {S : γ → δ → Prop} (x : Except Fault α)
    {f : α → Except Fault γ} {g : α → Except Fault δ} (hnext : ∀ a, Agree S (f a) (g a)) :
    Agree S (x >>= f) (x >>= g) := by
  cases x with
  | error f => exact .fault f
  | ok a => exact hnext a

/-- Related results are results of the two. -/
theorem Agree.of_results {α β : Type} {R : α → β → Prop} {x : Except Fault α} {y : Except Fault β}
    (h : Agree R x y) : Agree (fun a b => x = .ok a ∧ y = .ok b ∧ R a b) x y := by
  cases h with
  | fault f => exact .fault f
  | result h => exact .result ⟨rfl, rfl, h⟩

/-! ### Items and invoices -/

/-- Two items that say the same, with ids from one place of two supplies. -/
structure Item.Reissued (ids ids' : Nat → Uuid) (invoice invoice' : Uuid) (i k : Item) : Prop where
  id : ∃ n, i.id = ids n ∧ k.id = ids' n
  invoice : i.invoice = invoice ∧ k.invoice = invoice'
  created : i.created = k.created
  charge : i.charge = k.charge

/-- Two invoices that say the same, with ids from one place of two supplies. -/
structure Invoice.Reissued (ids ids' : Nat → Uuid) (v w : Invoice) : Prop where
  id : v.id = ids 0 ∧ w.id = ids' 0
  rest : w = { v with id := w.id, items := w.items }
  items : List.Forall₂ (Item.Reissued ids ids' (ids 0) (ids' 0)) v.items w.items

variable {ids ids' : Nat → Uuid} {invoice invoice' : Uuid}

theorem Item.Reissued.widen {place : Nat → Nat} {i k : Item}
    (h : Item.Reissued (fun n => ids (place n)) (fun n => ids' (place n)) invoice invoice' i k) :
    Item.Reissued ids ids' invoice invoice' i k := by
  obtain ⟨n, hi, hk⟩ := h.id
  exact ⟨⟨place n, hi, hk⟩, h.invoice, h.created, h.charge⟩

theorem Item.Reissued.key {i k : Item} (h : Item.Reissued ids ids' invoice invoice' i k) :
    i.key = k.key := congrArg Charge.key h.charge

theorem mapIdx_issue_reissued (charges : List Charge) (now : Moment) :
    List.Forall₂ (Item.Reissued ids ids' invoice invoice')
      (charges.mapIdx fun n c => c.issue (ids n) invoice now)
      (charges.mapIdx fun n c => c.issue (ids' n) invoice' now) := by
  induction charges generalizing ids ids' with
  | nil => exact .nil
  | cons c charges ih =>
    rw [List.mapIdx_cons, List.mapIdx_cons]
    refine .cons ⟨⟨0, rfl, rfl⟩, ⟨rfl, rfl⟩, rfl, rfl⟩ ?_
    exact (@ih (fun n => ids (n + 1)) fun n => ids' (n + 1)).imp fun _ _ h => h.widen

/-! ### Settling -/

namespace Settlement

/-- What is left of two lists that propose the same. -/
theorem pairOff_forall₂ {R : Item → Item → Prop} (hkey : ∀ {i k}, R i k → i.key = k.key)
    {proposed proposed' : List Item} (h : List.Forall₂ R proposed proposed')
    (issued : List Item) : List.Forall₂ R (pairOff proposed issued).1 (pairOff proposed' issued).1 ∧
      (pairOff proposed issued).2 = (pairOff proposed' issued).2 := by
  induction h generalizing issued with
  | nil => exact ⟨.nil, rfl⟩
  | @cons i k items items' hik _ ih =>
    simp only [pairOff, eraseSame_congr (hkey hik)]
    cases eraseSame k issued with
    | none => exact ⟨.cons hik (ih issued).1, (ih issued).2⟩
    | some left => exact ih left

theorem credits_reissued (now : Moment) (items : List Item) :
    Agree (List.Forall₂ (Item.Reissued ids ids' invoice invoice'))
      (credits invoice now ids items) (credits invoice' now ids' items) := by
  induction items generalizing ids ids' with
  | nil => exact .result .nil
  | cons i items ih =>
    cases hbasis : i.charge.basis with
    | fixed =>
      have hnone (id invoice : Uuid) : i.credit? id invoice now = none := by
        unfold Item.credit?
        rw [hbasis]
      simp only [credits, hnone]
      exact ih
    | recurring rate reverses =>
      have hsome (id invoice : Uuid) : i.credit? id invoice now = some (do
          let amount ← i.charge.amount.neg
          let opposite := { i.charge with amount, basis := .recurring rate (some i.id) }
          return opposite.issue id invoice now) := by
        unfold Item.credit?
        rw [hbasis]
      simp only [credits, hsome, bind_assoc]
      refine .after _ fun amount => ih.bind fun hrest => .result ?_
      exact .cons ⟨⟨0, rfl, rfl⟩, ⟨rfl, rfl⟩, rfl, rfl⟩ (hrest.imp fun _ _ h => h.widen)

theorem settle_reissued {proposed proposed' : List Item}
    (h : List.Forall₂ (Item.Reissued ids ids' invoice invoice') proposed proposed')
    (existing : List Item) (place : Nat → Nat) (now : Moment) :
    Agree (List.Forall₂ (Item.Reissued ids ids' invoice invoice'))
      (settle proposed existing (fun n => ids (place n)) invoice now)
      (settle proposed' existing (fun n => ids' (place n)) invoice' now) := by
  obtain ⟨hcharges, hleft⟩ := pairOff_forall₂ Item.Reissued.key h (surviving existing)
  simp only [settle, unmatched_eq_pairOff, hleft]
  refine (credits_reissued now _).bind fun hcredits => .result ?_
  exact List.rel_append hcharges (hcredits.imp fun _ _ h => h.widen)

end Settlement

/-! ### Runs -/

theorem Timeline.expand_reissued (timeline : Timeline) (terms : Terms) (now target : Moment)
    (currency : LooseText) (place : Nat → Nat) :
    Agree (List.Forall₂ (Item.Reissued ids ids' invoice invoice'))
      (timeline.expand terms now (fun n => ids (place n)) invoice target currency)
      (timeline.expand terms now (fun n => ids' (place n)) invoice' target currency) :=
  .after _ fun charges =>
    .result ((mapIdx_issue_reissued charges now).imp fun _ _ h => h.widen)

/-- **The ids do not matter to a run.** Under two supplies it fails alike, bills nothing alike, or
gives invoices that differ in the new ids only. -/
theorem run_reissued (terms : Terms) (now : Moment) (ids ids' : Nat → Uuid) (events : List Event)
    (issued : List Invoice) (r : RunRequest) :
    Agree (Option.Rel (Invoice.Reissued ids ids'))
      ((⟨terms, now, ids⟩ : Occasion).run events issued r)
      ((⟨terms, now, ids'⟩ : Occasion).run events issued r) := by
  unfold Occasion.run
  refine .after _ fun timeline => ?_
  split
  · exact .result .none
  refine .after _ fun _ => .after _ fun existing => .after _ fun target => ?_
  refine (timeline.expand_reissued terms now target r.currency (· + 1)).bind fun hproposed => ?_
  rw [← hproposed.length_eq]
  refine (Settlement.settle_reissued hproposed existing (· + 1 + _) now).bind fun hitems => ?_
  cases hitems with
  | nil => exact .result .none
  | cons hitem hitems => exact .result (.some ⟨⟨rfl, rfl⟩, rfl, .cons hitem hitems⟩)

/-! ### Replies -/

theorem map_charge_reissued {items items' : List Item}
    (h : List.Forall₂ (Item.Reissued ids ids' invoice invoice') items items') :
    items.map (·.charge) = items'.map (·.charge) := by
  induction h with
  | nil => rfl
  | cons hitem _ ih => rw [List.map_cons, List.map_cons, hitem.charge, ih]

theorem Invoice.Reissued.amounts {v w : Invoice} (h : v.Reissued ids ids' w) :
    v.amounts = w.amounts := by
  have hcharges := congrArg (List.map Charge.amount) (map_charge_reissued h.items)
  rw [List.map_map, List.map_map] at hcharges
  exact hcharges

namespace Service

open Scalars

variable [Scalars]

theorem isPaired_writeUuid [Lawful] (u : Uuid) : (writeUuid u).isPaired = true := by
  obtain ⟨s, hs⟩ := Lawful.writeUuid_text u
  simp only [hs, Json.isPaired, LooseText.text?, Option.isSome_some]

theorem isPaired_ofItem [Lawful] {i k : Item} (h : Item.Reissued ids ids' invoice invoice' i k) :
    (ofItem i).isPaired = (ofItem k).isPaired := by
  have hreverses : i.reverses = k.reverses := congrArg (·.basis.reverses) h.charge
  simp only [ofItem, Json.record, List.map_cons, List.map_nil, Json.isPaired, Json.membersPaired,
    isPaired_writeUuid, hreverses, h.charge, h.created]

theorem allPaired_map_ofItem [Lawful] {items items' : List Item}
    (h : List.Forall₂ (Item.Reissued ids ids' invoice invoice') items items') :
    Json.allPaired (items.map ofItem) = Json.allPaired (items'.map ofItem) := by
  induction h with
  | nil => rfl
  | cons hitem _ ih =>
    simp only [List.map_cons, Json.allPaired, isPaired_ofItem hitem, ih]

/-- One reply without an invoice, or replies with invoices that say the same. -/
inductive Reply.Reissued (ids ids' : Nat → Uuid) : Reply → Reply → Prop
  | plain (a : Reply) (h : a.status ≠ 200) : Reissued ids ids' a a
  | invoice {v w : Invoice} {j k : Json} (h : v.Reissued ids ids' w) (hv : ofInvoice v = .ok j)
    (hw : ofInvoice w = .ok k) : Reissued ids ids' ⟨200, j⟩ ⟨200, k⟩

theorem ofInvoice_reissued [Lawful] {v w : Invoice} (h : v.Reissued ids ids' w) :
    Agree (fun j k => j.isPaired = k.isPaired) (ofInvoice v) (ofInvoice w) := by
  simp only [ofInvoice, Invoice.total, Invoice.charged, Invoice.credited, h.amounts]
  refine .after _ fun total => .after _ fun charged => .after _ fun credited => .result ?_
  rw [h.rest]
  simp only [Json.record, List.map_cons, List.map_nil, Json.isPaired, Json.membersPaired,
    isPaired_writeUuid, allPaired_map_ofItem h.items]

theorem shown_reissued [Lawful] {v w : Invoice} (h : v.Reissued ids ids' w) :
    Agree (Reply.Reissued ids ids') (shown v) (shown w) := by
  refine (ofInvoice_reissued h).of_results.bind fun ⟨hv, hw, hpaired⟩ => ?_
  rw [hpaired]
  split
  · exact .result (.invoice h hv hw)
  · exact .fault _

/-- **The ids do not matter to a reply**, but for where it shows them. -/
theorem replyTo_reissued [Lawful] {outcome outcome' : Except Fault (Option Invoice)}
    (h : Agree (Option.Rel (Invoice.Reissued ids ids')) outcome outcome') :
    Agree (Reply.Reissued ids ids') (replyTo outcome) (replyTo outcome') := by
  unfold replyTo
  cases h with
  | fault f =>
    dsimp only
    split
    · exact .result (.plain _ (by simp))
    · exact .fault f
  | result h =>
    cases h with
    | none => exact .result (.plain _ (by simp))
    | some h => exact shown_reissued h

end Service

end BillRun
