import BillRun.Proofs.Reissuing

/-! A reply does not depend on how moments are spelled.

A moment can be written in any offset, or in none for UTC. Two bodies that differ in such spellings
only (`Respelled`) have the same fields, and every check of a field either meets a moment, of which
it keeps the instant (a law of `Scalars.Lawful`), or cannot tell the two bodies apart. So one
request is read from both, or the same remarks are made on both, on parts that can be sent alike
(`unreadable_respelled`). With the present given, the run then differs in the new ids only. -/
namespace Option.Rel

variable {α β : Type} {R S : α → β → Prop} {a : Option α} {b : Option β}

theorem inv (h : Option.Rel R a b) :
    (a = .none ∧ b = .none) ∨ ∃ x y, a = .some x ∧ b = .some y ∧ R x y := by
  cases h with
  | none => exact .inl ⟨rfl, rfl⟩
  | some h => exact .inr ⟨_, _, rfl, rfl, h⟩

theorem imp (h : Option.Rel R a b) (himp : ∀ {x y}, R x y → S x y) : Option.Rel S a b := by
  cases h with
  | none => exact .none
  | some h => exact .some (himp h)

theorem refl {R : α → α → Prop} (hrefl : ∀ x, R x x) (a : Option α) : Option.Rel R a a := by
  cases a with
  | none => exact .none
  | some x => exact .some (hrefl x)

end Option.Rel

namespace BillRun

open Calendar Form

/-! ### Spellings -/

theorem sameInstant_of_map {s s' : String} {n : Int}
    (h : (Moment.ofText? s).map Moment.instant = some n)
    (h' : (Moment.ofText? s').map Moment.instant = some n) :
    SameInstant (.string s) (.string s') := by
  obtain ⟨t, ht, hinstant⟩ := Option.map_eq_some_iff.mp h
  obtain ⟨t', ht', hinstant'⟩ := Option.map_eq_some_iff.mp h'
  exact .named ht ht' (hinstant.trans hinstant'.symm)

/-- The fields of requests, events, invoices and items that hold moments. -/
def dateFields : List String :=
  ["target_date", "now", "effective_date", "invoice_date", "start_date", "end_date", "created_date"]

mutual

/-- Two values that differ only in how moments in their fields are spelled. -/
inductive Respelled : Json → Json → Prop
  | same (j : Json) : Respelled j j
  | array {js js' : List Json} (h : RespelledAll js js') : Respelled (.array js) (.array js')
  | object {ms ms' : List (LooseText × Json)} (h : RespelledMembers ms ms') :
    Respelled (.object ms) (.object ms')

inductive RespelledAll : List Json → List Json → Prop
  | nil : RespelledAll [] []
  | cons {j j' : Json} {js js' : List Json} (h : Respelled j j') (hrest : RespelledAll js js') :
    RespelledAll (j :: js) (j' :: js')

inductive RespelledMembers : List (LooseText × Json) → List (LooseText × Json) → Prop
  | nil : RespelledMembers [] []
  | cons {name : LooseText} {j j' : Json} {ms ms' : List (LooseText × Json)} (h : Respelled j j')
    (hrest : RespelledMembers ms ms') : RespelledMembers ((name, j) :: ms) ((name, j') :: ms')
  | date {name : String} {j j' : Json} {ms ms' : List (LooseText × Json)}
    (hname : name ∈ dateFields) (h : SameInstant j j') (hrest : RespelledMembers ms ms') :
    RespelledMembers ((name, j) :: ms) ((name, j') :: ms')

end

/-- What stands under one name in two such values. -/
def Alike (name : String) (v v' : Json) : Prop :=
  Respelled v v' ∨ name ∈ dateFields ∧ SameInstant v v'

variable {α : Type} {j j' v v' : Json}

theorem RespelledMembers.get? {ms ms' : List (LooseText × Json)} (h : RespelledMembers ms ms')
    (name : String) : Option.Rel (Alike name) (Assoc.get? (.text name) ms)
      (Assoc.get? (.text name) ms') := by
  induction ms generalizing ms' with
  | nil =>
    cases h
    exact .none
  | cons m ms ih =>
    cases h with
    | @cons n v v' _ _ h hrest =>
      unfold Assoc.get?
      split
      · exact .some (.inl h)
      · exact ih hrest
    | @date n v v' _ _ hname h hrest =>
      unfold Assoc.get?
      split
      · rename_i heq
        cases heq
        exact .some (.inr ⟨hname, h⟩)
      · exact ih hrest

theorem Respelled.get? (h : Respelled j j') (name : String) :
    Option.Rel (Alike name) (j.get? name) (j'.get? name) := by
  cases h with
  | same => exact Option.Rel.refl (fun v => .inl (.same v)) _
  | array => exact .none
  | object h => exact h.get? name

namespace Form

/-! ### Checks -/

/-- The check cannot tell spellings apart. -/
def Blind (check : Check α) : Prop := ∀ v v', Respelled v v' → check v = check v'

/-- Nor can it where the value stands under a name of its own. -/
def BlindAt (name : String) (check : Check α) : Prop :=
  ∀ v v', Alike name v v' → check v = check v'

variable {check : Check α} {name : String}

/-- What looks into no list and no record meets no spelling. -/
theorem Scalar.blind (hcheck : Scalar check) : Blind check := by
  intro v v' h
  cases h with
  | same => rfl
  | array => exact hcheck.array ..
  | object => exact hcheck.object ..

theorem blind_scalar (check : Check α)
    (harray : ∀ js js', check (.array js) = check (.array js') := by exact fun _ _ => rfl)
    (hobject : ∀ ms ms', check (.object ms) = check (.object ms') := by exact fun _ _ => rfl) :
    Blind check :=
  Scalar.blind ⟨harray, hobject⟩

theorem Blind.elsewhere (h : Blind check) (hname : name ∉ dateFields := by decide) :
    BlindAt name check := by
  rintro v v' (hsame | ⟨hdate, -⟩)
  · exact h v v' hsame
  · exact absurd hdate hname

/-- A check that asks for the instant only, wherever it meets a moment. -/
theorem Blind.anywhere (h : Blind check)
    (hinstant : ∀ {v v' : Json}, SameInstant v v' → check v = check v') : BlindAt name check := by
  rintro v v' (hsame | ⟨-, hsame⟩)
  · exact h v v' hsame
  · exact hinstant hsame

theorem BlindAt.nullable (h : BlindAt name check) : BlindAt name (nullable check) := by
  rintro v v' (hsame | ⟨hdate, hinstant⟩)
  · cases hsame with
    | same => rfl
    | array hall => exact congrArg (Checked.map some) (h _ _ (.inl (.array hall)))
    | object hall => exact congrArg (Checked.map some) (h _ _ (.inl (.object hall)))
  · have hcheck := h v v' (.inr ⟨hdate, hinstant⟩)
    cases hinstant with
    | named => exact congrArg (Checked.map some) hcheck

theorem get?_map_respelled (h : Respelled j j') (hcheck : BlindAt name check) :
    (j.get? name).map check = (j'.get? name).map check := by
  rcases (h.get? name).inv with ⟨hnone, hnone'⟩ | ⟨v, v', hv, hv', halike⟩
  · rw [hnone, hnone']
  · rw [hv, hv', Option.map_some, Option.map_some, hcheck v v' halike]

end Form

section
variable {check : Check α} (h : Respelled j j') (name : String) (hcheck : BlindAt name check)
include h hcheck

theorem Respelled.required : required name check j = required name check j' :=
  required_congr (get?_map_respelled h hcheck)

theorem Respelled.withDefault (a : α) :
    withDefault name a check j = withDefault name a check j' :=
  withDefault_congr (get?_map_respelled h hcheck)

theorem Respelled.optionally : optionally name check j = optionally name check j' :=
  withDefault_congr (get?_map_respelled h hcheck.nullable)

end

namespace Form

theorem blind_record {fields : Json → Checked α}
    (h : ∀ {j j'}, Respelled j j' → fields j = fields j') : Blind (record fields) := by
  intro v v' hsame
  cases hsame with
  | same => rfl
  | array => rfl
  | object hall => exact h (.object hall)

theorem Blind.elements {check : Check α} (h : Blind check) {js js' : List Json}
    (hall : RespelledAll js js') (n : Nat) : elements check n js = elements check n js' := by
  induction js generalizing js' n with
  | nil =>
    cases hall
    rfl
  | cons j js ih =>
    cases hall with
    | cons hj hrest => rw [Form.elements, Form.elements, h _ _ hj, ih hrest]

theorem Blind.list {check : Check α} (h : Blind check) : Blind (list check) := by
  intro v v' hsame
  cases hsame with
  | same => rfl
  | array hall => exact h.elements hall 0
  | object => rfl

end Form

/-! ### Requests -/

namespace Service

open Scalars Scalars.Lawful

theorem blind_phaseLength : Blind phaseLength := blind_record fun h => by
  rw [h.required "unit" (blind_scalar (word TimeUnit.ofName?)).elsewhere,
    h.optionally "number" (blind_scalar (integerFrom 0)).elsewhere]

variable [Scalars] [Lawful]

theorem blindAt_readMoment {name : String} : BlindAt name readMoment :=
  readMoment_scalar.blind.anywhere readMoment_sameInstant

theorem blind_event : Blind event := blind_record fun h => by
  rw [h.required "subscription_id" readUuid_scalar.blind.elsewhere,
    h.required "plan_name" (blind_scalar looseText).elsewhere,
    h.required "phase_name" (blind_scalar looseText).elsewhere,
    h.required "effective_date" blindAt_readMoment,
    h.withDefault "billing_period" (blind_scalar (word Period.ofName?)).elsewhere,
    h.withDefault "billing_mode" (blind_scalar (word Mode.ofName?)).elsewhere,
    h.withDefault "bill_cycle_day" (blind_scalar cycleDay).elsewhere,
    h.optionally "fixed_price" readAmount_scalar.blind.elsewhere,
    h.optionally "recurring_price" readAmount_scalar.blind.elsewhere,
    h.optionally "phase_duration" blind_phaseLength.elsewhere,
    h.withDefault "total_ordering" (blind_scalar integer).elsewhere]

theorem blind_item : Blind item := blind_record fun h => by
  rw [h.required "id" readUuid_scalar.blind.elsewhere,
    h.required "item_type" (blind_scalar (word Kind.ofName?)).elsewhere,
    h.required "invoice_id" readUuid_scalar.blind.elsewhere,
    h.required "subscription_id" readUuid_scalar.blind.elsewhere,
    h.required "plan_name" (blind_scalar looseText).elsewhere,
    h.required "phase_name" (blind_scalar looseText).elsewhere,
    h.required "start_date" blindAt_readMoment, h.optionally "end_date" blindAt_readMoment,
    h.required "amount" readAmount_scalar.blind.elsewhere,
    h.required "currency" (blind_scalar currency).elsewhere,
    h.required "created_date" blindAt_readMoment,
    h.optionally "rate" readAmount_scalar.blind.elsewhere,
    h.optionally "reversed_item_id" readUuid_scalar.blind.elsewhere]

theorem blind_invoice : Blind invoice := blind_record fun h => by
  rw [h.required "id" readUuid_scalar.blind.elsewhere,
    h.required "account_id" readUuid_scalar.blind.elsewhere,
    h.required "invoice_date" blindAt_readMoment, h.required "target_date" blindAt_readMoment,
    h.required "currency" (blind_scalar currency).elsewhere,
    h.withDefault "items" blind_item.list.elsewhere]

/-- **One request is read from two spellings**, or the same is remarked on both. -/
theorem blind_request : Blind request := blind_record fun h => by
  rw [h.required "account_id" readUuid_scalar.blind.elsewhere,
    h.required "target_date" blindAt_readMoment,
    h.withDefault "currency" (blind_scalar currency).elsewhere,
    h.withDefault "events" blind_event.list.elsewhere,
    h.withDefault "existing_invoices" blind_invoice.list.elsewhere,
    h.optionally "now" blindAt_readMoment]

end Service

/-! ### Remarks -/

/-- Two values of which both or neither can be sent. -/
def SentAlike (j j' : Json) : Prop := j.isFinite = j'.isFinite ∧ j.isPaired = j'.isPaired

theorem SameInstant.sentAlike (h : SameInstant j j') : SentAlike j j' := by
  cases h with
  | named => exact ⟨rfl, rfl⟩

theorem SentAlike.array_cons {js js' : List Json} (h : SentAlike j j')
    (hrest : SentAlike (.array js) (.array js')) :
    SentAlike (.array (j :: js)) (.array (j' :: js')) := by
  simp only [SentAlike, Json.isFinite, Json.isPaired] at hrest ⊢
  rw [Json.allFinite, Json.allFinite, Json.allPaired, Json.allPaired, h.1, h.2, hrest.1, hrest.2]
  exact ⟨rfl, rfl⟩

theorem SentAlike.object_cons {name : LooseText} {ms ms' : List (LooseText × Json)}
    (h : SentAlike j j') (hrest : SentAlike (.object ms) (.object ms')) :
    SentAlike (.object ((name, j) :: ms)) (.object ((name, j') :: ms')) := by
  simp only [SentAlike, Json.isFinite, Json.isPaired] at hrest ⊢
  rw [Json.membersFinite, Json.membersFinite, Json.membersPaired, Json.membersPaired, h.1, h.2,
    hrest.1, hrest.2]
  exact ⟨rfl, rfl⟩

mutual

theorem Respelled.sentAlike {j j' : Json} (h : Respelled j j') : SentAlike j j' := by
  cases h with
  | same => exact ⟨rfl, rfl⟩
  | array h => exact h.sentAlike
  | object h => exact h.sentAlike
termination_by sizeOf j

theorem RespelledAll.sentAlike {js js' : List Json} (h : RespelledAll js js') :
    SentAlike (.array js) (.array js') := by
  cases h with
  | nil => exact ⟨rfl, rfl⟩
  | cons h hrest => exact h.sentAlike.array_cons hrest.sentAlike
termination_by sizeOf js

theorem RespelledMembers.sentAlike {ms ms' : List (LooseText × Json)}
    (h : RespelledMembers ms ms') : SentAlike (.object ms) (.object ms') := by
  cases h with
  | nil => exact ⟨rfl, rfl⟩
  | cons h hrest => exact h.sentAlike.object_cons hrest.sentAlike
  | date _ h hrest => exact h.sentAlike.object_cons hrest.sentAlike
termination_by sizeOf ms

end

/-- What stands at one place in two values that differ in spellings only. -/
def Counterparts (v v' : Json) : Prop := Respelled v v' ∨ SameInstant v v'

theorem Counterparts.sentAlike (h : Counterparts j j') : SentAlike j j' :=
  h.elim (·.sentAlike) (·.sentAlike)

theorem RespelledAll.getElem? {js js' : List Json} (h : RespelledAll js js') (n : Nat) :
    Option.Rel Respelled js[n]? js'[n]? := by
  induction js generalizing js' n with
  | nil =>
    cases h
    exact .none
  | cons j js ih =>
    cases h with
    | cons hj hrest =>
      cases n with
      | zero => exact .some hj
      | succ n => exact ih hrest n

theorem Counterparts.get? (h : Counterparts j j') (p : Place) :
    Option.Rel Counterparts (p.get? j) (p.get? j') := by
  rcases h with h | h
  · cases p with
    | field name => exact (h.get? name).imp fun halike => halike.imp_right (·.2)
    | index n =>
      cases h with
      | same => exact Option.Rel.refl (fun v => .inl (.same v)) _
      | array h => exact (h.getElem? n).imp .inl
      | object => exact .none
  · cases h with
    | named => cases p <;> exact .none

theorem Counterparts.part? (h : Counterparts j j') (place : List Place) :
    Option.Rel Counterparts (part? place j) (part? place j') := by
  induction place generalizing j j' with
  | nil => exact .some h
  | cons p place ih =>
    have hcons (j : Json) : Form.part? (p :: place) j = (p.get? j).bind (Form.part? place) :=
      List.foldlM_cons
    rw [hcons, hcons]
    rcases (h.get? p).inv with ⟨hnone, hnone'⟩ | ⟨v, v', hv, hv', hpart⟩
    · rw [hnone, hnone']
      exact .none
    · rw [hv, hv']
      exact ih hpart

namespace Service

/-- The same remarks on two spellings are sent alike. -/
theorem unreadable_respelled {body body' : Json} (h : Respelled body body')
    (remarks : List Remark) : unreadable body remarks = unreadable body' remarks := by
  have hsubjects : List.Forall₂ Counterparts (remarks.filterMap (·.subject? body))
      (remarks.filterMap (·.subject? body')) := by
    refine List.rel_filterMap (R := Eq) ?_ (List.forall₂_refl remarks)
    rintro r _ rfl
    exact Counterparts.part? (.inl h) _
  have hall {p : Json → Bool} (hp : ∀ {v v'}, Counterparts v v' → p v = p v') :
      (remarks.filterMap (·.subject? body)).all p =
        (remarks.filterMap (·.subject? body')).all p := by
    generalize remarks.filterMap (·.subject? body) = subjects at hsubjects ⊢
    generalize remarks.filterMap (·.subject? body') = subjects' at hsubjects ⊢
    induction hsubjects with
    | nil => rfl
    | cons hpart _ ih => rw [List.all_cons, List.all_cons, hp hpart, ih]
  unfold unreadable
  dsimp only
  rw [hall (·.sentAlike.1), hall (·.sentAlike.2)]

/-- **Answers depend on instants only.** Two bodies that give the present and differ only in how
their moments are spelled fail alike or are answered alike, whenever and with whatever ids. -/
theorem generate_respelled {body body' : Json} (h : Respelled body body')
    (hnow : body.given? "now" ≠ none) (terms : Terms) (present present' : Moment)
    (ids ids' : Nat → Uuid) :
    Agree (Reply.Reissued ids ids') (generate terms present ids body)
      (generate terms present' ids' body') := by
  have hsame : request body = request body' := blind_request body body' h
  cases hread : request body with
  | value r =>
    obtain ⟨now, hr⟩ := now_of_given hread hnow
    rw [generate_of_request hread, generate_of_request (hsame.symm.trans hread), run_of_now hr,
      run_of_now hr]
    exact replyTo_reissued (run_reissued ..)
  | remarks rs =>
    simp only [generate, ← hsame, hread, ← unreadable_respelled h]
    cases hreply : unreadable body rs with
    | error f => exact .fault f
    | ok a =>
      refine .result (.plain a ?_)
      rw [status_unreadable hreply]
      decide
  | fault f =>
    simp only [generate, ← hsame, hread]
    exact .fault f

end Service

namespace Sample

open Service

theorem generate_posted : ∃ j, ofInvoice opening = .ok j ∧
    generate .standard (day 1 1) (supply 0)
      (posted "2020-01-10T00:00:00Z" "2020-02-05T00:00:00Z" "2020-01-12T00:00:00Z") =
        .ok ⟨200, j⟩ := by
  obtain ⟨r, hread, hnow, hevents, hissued, haccount, htarget, hcurrency⟩ := request_posted
  refine exists_reply hread ?_ (by decide +kernel)
  rw [run_of_now hnow, hevents, hissued, haccount, htarget, hcurrency]
  exact run_opening

theorem respelled_posted {effective effective' target target' now now' : String}
    (heffective : SameInstant (.string effective) (.string effective'))
    (htarget : SameInstant (.string target) (.string target'))
    (hnow : SameInstant (.string now) (.string now')) :
    Respelled (posted effective target now) (posted effective' target' now') := by
  unfold posted
  refine .object (.cons (.same _) (.date (by decide) htarget
    (.cons (.array (.cons (.object ?_) .nil)) (.date (by decide) hnow .nil))))
  exact .cons (.same _) (.cons (.same _) (.cons (.same _) (.date (by decide) heffective
    (.cons (.same _) (.cons (.same _) (.cons (.same _) (.cons (.same _) .nil)))))))

end Sample

open Service Sample in
/-- The sample account, posted from the east, from the west and without an offset. -/
theorem generate_respelled_abroad : ∃ v w j k,
    generate .standard (day 1 1) (supply 0)
      (posted "2020-01-10T00:00:00Z" "2020-02-05T00:00:00Z" "2020-01-12T00:00:00Z") =
        .ok ⟨200, j⟩ ∧
    generate .standard (day 3 1) (supply 1)
      (posted "2020-01-10T02:00:00+02:00" "2020-02-04T19:00:00-05:00" "2020-01-12T00:00:00") =
        .ok ⟨200, k⟩ ∧
    ofInvoice v = .ok j ∧ ofInvoice w = .ok k ∧ v.Reissued (supply 0) (supply 1) w := by
  obtain ⟨j, -, hfirst⟩ := generate_posted
  have heffective : SameInstant (.string "2020-01-10T00:00:00Z")
      (.string "2020-01-10T02:00:00+02:00") :=
    sameInstant_of_map (n := (day 1 10).instant) (by decide +kernel) (by decide +kernel)
  have htarget : SameInstant (.string "2020-02-05T00:00:00Z")
      (.string "2020-02-04T19:00:00-05:00") :=
    sameInstant_of_map (n := (day 2 5).instant) (by decide +kernel) (by decide +kernel)
  have hnow : SameInstant (.string "2020-01-12T00:00:00Z") (.string "2020-01-12T00:00:00") :=
    sameInstant_of_map (n := (day 1 12).instant) (by decide +kernel) (by decide +kernel)
  have hgiven : (posted "2020-01-10T00:00:00Z" "2020-02-05T00:00:00Z"
      "2020-01-12T00:00:00Z").given? "now" ≠ none :=
    Option.isSome_iff_ne_none.mp (by decide +kernel)
  have hsame := generate_respelled (respelled_posted heffective htarget hnow) hgiven .standard
    (day 1 1) (day 3 1) (supply 0) (supply 1)
  rw [hfirst] at hsame
  generalize generate .standard (day 3 1) (supply 1) _ = second at hsame ⊢
  cases hsame with
  | result h =>
    cases h with
    | plain _ h => exact absurd rfl h
    | invoice h hv hw => exact ⟨_, _, j, _, hfirst, rfl, hv, hw, h⟩

end BillRun
