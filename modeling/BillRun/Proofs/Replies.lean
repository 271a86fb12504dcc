import BillRun.Proofs.Amounts
import BillRun.Proofs.Convergence
import BillRun.Proofs.Requests

/-! Replies fed back to the service.

What is written of an invoice reads as that invoice, as long as all in it can be written: its single
values are read back by the laws of `Scalars.Lawful`, and the totals that stand beside them are
ignored (`invoice_append`, `invoice_ofInvoice`). A run keeps it so: its charges start and end at
moments of the events or aligned with them, its amounts come out of arithmetic that ends within what
can be written, and a credit changes nothing else (`legible_of_run`). So the reply to a request can
be added to the request as one more issued invoice (`read_back`), and then there is nothing left to
bill (`generate_withIssued`). -/
namespace BillRun

open Calendar

namespace Service

open Form Checked Scalars Scalars.Lawful

/-! ### Forms written and read -/

theorem kind_name (k : Kind) : word Kind.ofName? (.string (.text k.name)) = .value k := by
  cases k <;> rfl

theorem currency_of_isCurrency {s : LooseText} (h : s.IsCurrency) :
    currency (.string s) = .value s := by
  obtain ⟨t, rfl, ht⟩ := h
  simp [currency, textOfLength, ht, Checked.map]

section
variable {α : Type} {check : Check α} {name : String} {j v : Json}

theorem required_of_get? {a : α} (hget : j.get? name = some v) (h : check v = .value a) :
    required name check j = .value a :=
  required_eq_value.mpr ⟨v, hget, h⟩

/-- What need not be there is written as null where it is not. -/
theorem optionally_of_get? {f : α → Json} {a : Option α}
    (hget : j.get? name = some (.ofOption f a)) (hstring : ∀ b, ∃ s : String, f b = .string s)
    (h : ∀ b, a = some b → check (f b) = .value b) : optionally name check j = .value a := by
  refine withDefault_eq_value.mpr (.inr ⟨_, hget, ?_⟩)
  rw [nullable_eq_value]
  cases a with
  | none => exact .inl ⟨rfl, rfl⟩
  | some b =>
    have hnull : f b ≠ .null := by
      obtain ⟨s, hs⟩ := hstring b
      rw [hs]
      nofun
    exact .inr ⟨hnull, b, h b rfl, rfl⟩

end

theorem get?_record (name : String) (members : List (String × Json)) :
    (Json.record members).get? name = Assoc.get? name members := by
  unfold Json.record Json.get?
  dsimp only
  induction members with
  | nil => rfl
  | cons member rest ih =>
    rw [List.map_cons, Assoc.get?, Assoc.get?, ih]
    simp only [LooseText.text.injEq]

/-- The fields that an invoice is read from. -/
def invoiceFields : List String :=
  ["id", "account_id", "invoice_date", "target_date", "currency", "items"]

/-- **Members that are no fields are ignored.** -/
theorem invoice_append [Scalars] {fields more : List (String × Json)}
    (h : ∀ m ∈ more, m.1 ∉ invoiceFields) :
    invoice (.record (fields ++ more)) = invoice (.record fields) := by
  have hget {name : String} (hname : name ∈ invoiceFields) :
      (Json.record (fields ++ more)).get? name = (Json.record fields).get? name := by
    rw [get?_record, get?_record, Assoc.get?_append]
    exact fun m hm heq => h m hm (heq ▸ hname)
  have hmap {α : Type} {name : String} (hname : name ∈ invoiceFields) (check : Check α) :
      ((Json.record (fields ++ more)).get? name).map check =
        ((Json.record fields).get? name).map check := by rw [hget hname]
  have hid : "id" ∈ invoiceFields := by decide
  have haccount : "account_id" ∈ invoiceFields := by decide
  have hdate : "invoice_date" ∈ invoiceFields := by decide
  have htarget : "target_date" ∈ invoiceFields := by decide
  have hcurrency : "currency" ∈ invoiceFields := by decide
  have hitems : "items" ∈ invoiceFields := by decide
  unfold Json.record at hmap ⊢
  unfold invoice record
  dsimp only
  rw [required_congr (hmap hid readUuid), required_congr (hmap haccount readUuid),
    required_congr (hmap hdate readMoment), required_congr (hmap htarget readMoment),
    required_congr (hmap hcurrency currency), withDefault_congr (hmap hitems (list item))]

section
variable [Scalars] [Lawful]

theorem item_ofItem {i : Item} (h : i.Legible) : item (ofItem i) = .value i := by
  have hc := h.charge
  -- the fields that need not be there
  have hgets : (ofItem i).get? "end_date" = some (.ofOption writeMoment i.charge.stop) ∧
      (ofItem i).get? "rate" = some (.ofOption writeAmount i.charge.basis.rate?) ∧
      (ofItem i).get? "reversed_item_id" = some (.ofOption writeUuid i.reverses) := by
    simp [ofItem, get?_record, Assoc.get?]
  have hid : required "id" readUuid (ofItem i) = .value i.id :=
    required_of_get? rfl (readUuid_writeUuid _)
  have hkind : required "item_type" (word Kind.ofName?) (ofItem i) = .value i.charge.kind :=
    required_of_get? rfl (kind_name _)
  have hinvoice : required "invoice_id" readUuid (ofItem i) = .value i.invoice :=
    required_of_get? rfl (readUuid_writeUuid _)
  have hsubscription : required "subscription_id" readUuid (ofItem i) =
      .value i.charge.subscription := required_of_get? rfl (readUuid_writeUuid _)
  have hplan : required "plan_name" looseText (ofItem i) = .value i.charge.plan :=
    required_of_get? rfl rfl
  have hphase : required "phase_name" looseText (ofItem i) = .value i.charge.phase :=
    required_of_get? rfl rfl
  have hstart : required "start_date" readMoment (ofItem i) = .value i.charge.start :=
    required_of_get? rfl (readMoment_writeMoment _ hc.start)
  have hstop : optionally "end_date" readMoment (ofItem i) = .value i.charge.stop :=
    optionally_of_get? hgets.1 writeMoment_text fun t ht => readMoment_writeMoment t (hc.stop t ht)
  have hamount : required "amount" readAmount (ofItem i) = .value i.charge.amount :=
    required_of_get? rfl (readAmount_writeAmount _ hc.amount)
  have hcurrency : required "currency" currency (ofItem i) = .value i.charge.currency :=
    required_of_get? rfl (currency_of_isCurrency hc.currency)
  have hcreated : required "created_date" readMoment (ofItem i) = .value i.created :=
    required_of_get? rfl (readMoment_writeMoment _ h.created)
  have hrate : optionally "rate" readAmount (ofItem i) = .value i.charge.basis.rate? :=
    optionally_of_get? hgets.2.1 writeAmount_text fun d hd =>
      readAmount_writeAmount d (hc.rate d hd)
  have hreversed : optionally "reversed_item_id" readUuid (ofItem i) = .value i.reverses :=
    optionally_of_get? hgets.2.2 writeUuid_text fun id _ => readUuid_writeUuid id
  rw [item, record_eq_value, eq_value_iff]
  simp only [gives_seq, gives_map]
  refine ⟨⟨_, rfl⟩, _, hid, _, hkind, _, hinvoice, _, hsubscription, _, hplan, _, hphase, _, hstart,
    _, hstop, _, hamount, _, hcurrency, _, hcreated, _, hrate, _, hreversed, ?_⟩
  have hbasis : basisOf i.charge.basis.rate? i.reverses i.charge.kind = i.charge.basis := by
    unfold Item.reverses Charge.kind
    cases i.charge.basis <;> rfl
  simp only [itemOf, hbasis]
  rfl

theorem invoice_ofInvoice {v : Invoice} {j : Json} (h : v.Legible) (hj : ofInvoice v = .ok j) :
    invoice j = .value v := by
  obtain ⟨total, -, hj⟩ := bind_eq_ok.mp hj
  obtain ⟨charged, -, hj⟩ := bind_eq_ok.mp hj
  obtain ⟨credited, -, hj⟩ := bind_eq_ok.mp hj
  cases hj
  have hitems : List.Forall₂ (fun j i => item j = .value i) (v.items.map ofItem) v.items :=
    List.forall₂_map_left_iff.mpr (List.forall₂_same.mpr fun i hi => item_ofItem (h.items i hi))
  have htotals : ∀ m ∈ [("total_amount", writeAmount total),
      ("charged_amount", writeAmount charged), ("credited_amount", writeAmount credited)],
      m.1 ∉ invoiceFields := by simp [invoiceFields]
  refine (@invoice_append _ [_, _, _, _, _, _] _ htotals).trans ?_
  rw [invoice, record_eq_value, eq_value_iff]
  simp only [gives_seq, gives_map]
  exact ⟨⟨_, rfl⟩, _, required_of_get? rfl (readUuid_writeUuid v.id), _,
    required_of_get? rfl (readUuid_writeUuid v.account), _,
    required_of_get? rfl (readMoment_writeMoment _ h.date), _,
    required_of_get? rfl (readMoment_writeMoment _ h.target), _,
    required_of_get? rfl (currency_of_isCurrency h.currency), _,
    withDefault_eq_value.mpr (.inr ⟨_, rfl, list_eq_value.mpr ⟨_, rfl, hitems⟩⟩), rfl⟩

end

end Service

/-! ### What a run writes down -/

namespace Decimal

open Text

theorem one_le_digits (d : Decimal) : 1 ≤ d.digits := by
  unfold digits
  rw [← length_natural]
  exact List.length_pos_of_ne_nil (natural_ne_nil _)

theorem adjusted_of_isZero {d : Decimal} (h : d.isZero = true) : d.adjusted = d.exponent := by
  have hdigits : d.digits = 1 := by
    unfold digits digitCount
    rw [of_decide_eq_true h, if_pos (by decide)]
  rw [adjusted, hdigits]
  omega

/-- What is neither too large nor too small to compute with can be written down. -/
theorem writable_of_adjusted {d : Decimal} (hexponent : minExponent ≤ d.exponent)
    (hadjusted : d.adjusted ≤ maxExponent) : d.writable = true := by
  have hdigits := d.one_le_digits
  unfold minExponent at hexponent
  unfold maxExponent adjusted at hadjusted
  unfold writable smallestWritten largestWritten adjusted
  simp only [Bool.and_eq_true, decide_eq_true_eq]
  split <;> omega

theorem adjusted_le_of_finish {d r : Decimal} (h : d.finish = .ok r) :
    r.adjusted ≤ maxExponent := by
  by_cases hzero : d.isZero = true
  · rw [finish, if_pos hzero] at h
    cases h
    refine Int.le_trans (Int.le_of_eq (adjusted_of_isZero hzero)) ?_
    unfold minExponent maxExponent
    dsimp only
    omega
  · rw [finish_of_not_isZero hzero] at h
    split at h
    · cases h
    · cases h
      omega

theorem writable_of_finish {d r : Decimal} (h : d.finish = .ok r) : r.writable = true :=
  writable_of_adjusted (minExponent_le_of_finish h) (adjusted_le_of_finish h)

theorem writable_of_quantize {mode : Rounding} {e : Int} {d r : Decimal} (hlow : minExponent ≤ e)
    (hhigh : e ≤ maxExponent) (h : d.quantize mode e = .ok r) : r.writable = true := by
  unfold quantize at h
  split at h
  · rename_i hzero
    cases h
    exact writable_of_adjusted hlow (Int.le_trans (Int.le_of_eq (adjusted_of_isZero hzero)) hhigh)
  · split at h
    · cases h
    · simp only at h
      split at h <;> split at h
      · cases h
      · rename_i hrange
        cases h
        exact writable_of_adjusted hlow (Int.not_lt.mp fun hlt => hrange (.inr hlt))
      · cases h
      · rename_i hrange
        cases h
        exact writable_of_adjusted hlow (Int.not_lt.mp fun hlt => hrange (.inr hlt))

end Decimal

theorem Terms.writable_of_charge {t : Terms} {cycles rate amount : Decimal}
    (h : t.charge cycles rate = .ok amount) : amount.writable = true := by
  obtain ⟨exact, unit, mode, -, hunit, -, h⟩ := charge_eq_ok.mp h
  have hlow : Decimal.minExponent ≤ unit.exponent ∧ unit.exponent ≤ Decimal.maxExponent := by
    unfold quantum Decimal.unitOf at hunit
    split at hunit
    · cases hunit
    · have hadjusted := Decimal.adjusted_le_of_finish hunit
      have hdigits := unit.one_le_digits
      unfold Decimal.adjusted at hadjusted
      exact ⟨Decimal.minExponent_le_of_finish hunit, by omega⟩
  exact Decimal.writable_of_quantize hlow.1 hlow.2 h

/-! ### What a run bills can be written -/

theorem Calendar.Moment.Aligned.inUtc {s t : Moment} (h : s.Aligned t) (ht : t.InUtc) : s.InUtc :=
  h.offset.trans ht

namespace Event

variable {e : Event} {successor : Option Event} {terms : Terms} {target : Moment}
  {currency : LooseText} {charges : List Charge}

/-- Where the numbers of a charge come from. -/
inductive Priced (e : Event) (terms : Terms) (currency : LooseText) (c : Charge) : Prop
  | upfront : c.basis = .fixed → e.fixedPrice = some c.amount → c.currency = currency →
      Priced e terms currency c
  | perCycle {rate cycles : Decimal} : c.basis = .recurring rate none →
      e.recurringPrice = some rate → terms.charge cycles rate = .ok c.amount →
      c.currency = currency → Priced e terms currency c

theorem priced_of_mem_charges (h : e.charges successor terms target currency = .ok charges)
    {c : Charge} (hc : c ∈ charges) : e.Priced terms currency c := by
  obtain ⟨fixed, recurring, hfixed, hrecurring, rfl⟩ := charges_eq_ok.mp h
  rcases List.mem_append.mp hc with hc | hc
  · obtain ⟨-, hfixed⟩ := fixedCharges_eq_ok.mp hfixed
    split at hfixed
    · cases hfixed
      cases hc
    · unfold upfront at hfixed
      split at hfixed
      · cases hfixed
        cases hc
      · rename_i price hprice
        split at hfixed
        · cases hfixed
          rw [List.mem_singleton.mp hc]
          exact .upfront rfl hprice rfl
        · obtain ⟨stop, -, hfixed⟩ := bind_eq_ok.mp hfixed
          cases hfixed
          rw [List.mem_singleton.mp hc]
          exact .upfront rfl hprice rfl
  · rcases recurringCharges_cases hrecurring with rfl | ⟨hrecurs, hdue, rate, hprice⟩
    · cases hc
    obtain ⟨pieces, -, hcharges⟩ := recurringCharges_of_due hrecurs hdue hprice hrecurring
    obtain ⟨s, -, hcharge⟩ := exists_of_mem_right hcharges hc
    obtain ⟨amount, hamount, rfl⟩ := recurringCharge_eq_ok.mp hcharge
    exact .perCycle rfl hprice hamount rfl

theorem Legible.of_mem_charges (he : e.Legible)
    (hsuccessor : ∀ f, successor = some f → f.effective.InUtc) (hcurrency : currency.IsCurrency)
    (h : e.charges successor terms target currency = .ok charges) {c : Charge} (hc : c ∈ charges) :
    c.Legible := by
  have hbills := bills_of_mem_charges h hc
  have hstart := hbills.aligned.inUtc he.effective
  have hstop : ∀ t, c.stop = some t → t.InUtc := by
    intro t ht
    rcases hbills.stop t ht with haligned | hnext
    · exact haligned.inUtc he.effective
    · obtain ⟨f, hf, rfl⟩ := Option.map_eq_some_iff.mp hnext
      exact hsuccessor f hf
  cases priced_of_mem_charges h hc with
  | upfront hbasis hprice hsame =>
    refine ⟨hstart, hstop, he.fixedPrice _ hprice, hsame ▸ hcurrency, ?_⟩
    rw [hbasis]
    nofun
  | perCycle hbasis hprice hcharge hsame =>
    refine ⟨hstart, hstop, Terms.writable_of_charge hcharge, hsame ▸ hcurrency, ?_⟩
    rw [hbasis]
    rintro _ ⟨⟩
    exact he.recurringPrice _ hprice

end Event

theorem Timeline.legible_of_mem_chargesOf {terms : Terms} {target : Moment} {currency : LooseText}
    (hcurrency : currency.IsCurrency) {events : List Event} (hevents : ∀ e ∈ events, e.Legible)
    {charges : List Charge} (h : chargesOf terms target currency events = .ok charges) :
    ∀ c ∈ charges, c.Legible := by
  intro c hc
  obtain ⟨before, e, later, own, rfl, hown, hmem⟩ := exists_charges_of_mem h hc
  refine (hevents e (by simp)).of_mem_charges (fun f hf => ?_) hcurrency hown hmem
  have hlater := List.mem_of_find?_eq_some hf
  exact (hevents f (by simp [hlater])).effective

/-- The items of an invoice can be written when those before it can, and its events and its request
have been read. -/
theorem Ran.legible_of_mem_new {o : Occasion} {events : List Event} {issued : List Invoice}
    {r : RunRequest} {timeline : Timeline} {target : Moment} {proposed new : List Item}
    (h : Ran o events issued r timeline target proposed new) (hnow : o.now.InUtc)
    (hcurrency : r.currency.IsCurrency) (hevents : ∀ e ∈ events, e.Legible)
    (hissued : ∀ i ∈ itemsOn issued, i.Legible) : ∀ i ∈ new, i.Legible := by
  have htimeline : ∀ e ∈ timeline.events, e.Legible := fun e he =>
    hevents e ((Timeline.perm_of_of h.ordered).subset he)
  have hproposed : ∀ i ∈ proposed, i.charge.Legible := fun i hi =>
    Timeline.legible_of_mem_chargesOf hcurrency htimeline
      (Timeline.map_charge_of_expand h.expanded) _ (List.mem_map_of_mem hi)
  obtain ⟨charges, taken, credited, rfl, hsettled, -⟩ := h.settled
  intro i hi
  refine ⟨h.created i hi ▸ hnow, ?_⟩
  rcases List.mem_append.mp hi with hi | hi
  · exact hproposed i (hsettled.charges_le.subset hi)
  · -- a credit differs from what it takes back in its amount and its basis
    obtain ⟨j, hj, hcredit⟩ := exists_of_mem_right hsettled.credited.flip hi
    have hold := (hissued j (Settlement.mem_surviving.mp (hsettled.taken_le.subset hj)).1).charge
    have hrest := hcredit.rest
    have hrate := hcredit.rate
    rw [hrest]
    refine ⟨hold.start, hold.stop, Decimal.writable_of_finish hcredit.amount, hold.currency, ?_⟩
    rw [hrate]
    exact hold.rate

theorem legible_of_run {o : Occasion} {events : List Event} {issued : List Invoice}
    {r : RunRequest} {v : Invoice} (h : o.run events issued r = .ok (some v)) (hnow : o.now.InUtc)
    (htarget : r.target.InUtc) (hcurrency : r.currency.IsCurrency)
    (hevents : ∀ e ∈ events, e.Legible) (hissued : ∀ w ∈ issued, w.Legible) : v.Legible := by
  rcases run_cases h with ⟨-, hnone⟩ | ⟨timeline, target, proposed, new, hran, hv⟩
  · cases hnone
  have hitems : ∀ i ∈ itemsOn issued, i.Legible := by
    intro i hi
    obtain ⟨w, hw, hi⟩ := mem_itemsOn.mp hi
    exact (hissued w hw).items i hi
  have hraised : target.InUtc := by
    rcases hran.latest.chosen with rfl | ⟨-, w, hw, rfl⟩
    · exact htarget
    · exact (hissued w hw).target
  unfold Occasion.invoice at hv
  split at hv
  · cases hv
  · cases hv
    exact ⟨hnow, hraised, hcurrency, hran.legible_of_mem_new hnow hcurrency hevents hitems⟩

/-! ### The request sent again -/

namespace Service

open Form Scalars

variable {terms : Terms} {present : Moment} {ids : Nat → Uuid} {body reply : Json}

theorem get?_withIssued (more : List Json) (members : List (LooseText × Json)) (name : String) :
    (withIssued more (.object members)).get? name =
      if name = "existing_invoices" then
        some (.array ((((Json.object members).get? name).bind Json.elements?).getD [] ++ more))
      else (Json.object members).get? name := by
  unfold withIssued
  simp only [Json.get?, Assoc.get?_put, LooseText.text.injEq]
  by_cases h : name = "existing_invoices"
  · simp [h]
  · simp [h, Ne.symm h]

section
variable [Scalars]

/-- A form of an invoice that is added to a request is read as one more issued invoice. -/
theorem request_withIssued {r : Request} {v : Invoice} (h : request body = .value r)
    (hv : invoice reply = .value v) :
    request (withIssued [reply] body) = .value { r with issued := r.issued ++ [v] } := by
  obtain ⟨⟨members, rfl⟩, haccount, htarget, hcurrency, hevents, hissued, hnow⟩ :=
    request_eq_value.mp h
  have hget {α : Type} (check : Check α) (name : String) (hname : name ≠ "existing_invoices") :
      ((withIssued [reply] (.object members)).get? name).map check =
        ((Json.object members).get? name).map check := by
    rw [get?_withIssued, if_neg hname]
  refine request_eq_value.mpr ⟨⟨_, rfl⟩, ?_, ?_, ?_, ?_, ?_, ?_⟩
  · rwa [required_congr (hget _ _ (by decide))]
  · rwa [required_congr (hget _ _ (by decide))]
  · rwa [withDefault_congr (hget _ _ (by decide))]
  · rwa [withDefault_congr (hget _ _ (by decide))]
  · refine withDefault_eq_value.mpr (.inr ⟨_, (get?_withIssued ..).trans (if_pos rfl), ?_⟩)
    rw [list_eq_value]
    rcases withDefault_eq_value.mp hissued with ⟨hnone, hnil⟩ | ⟨_, hsome, hlist⟩
    · rw [hnone, ← hnil]
      exact ⟨_, rfl, .cons hv .nil⟩
    · obtain ⟨js, rfl, hjs⟩ := list_eq_value.mp hlist
      rw [hsome]
      exact ⟨_, rfl, List.rel_append hjs (.cons hv .nil)⟩
  · rwa [optionally, withDefault_congr (hget _ _ (by decide))]

/-- A reply with an invoice reads as the very invoice that the run gave. -/
theorem read_back [Lawful] (hreply : generate terms present ids body = .ok ⟨200, reply⟩)
    (hnow : body.given? "now" ≠ none) : ∃ r v now, request body = .value r ∧ r.now = some now ∧
      r.run terms present ids = .ok (some v) ∧ ofInvoice v = .ok reply ∧
      invoice reply = .value v := by
  obtain ⟨r, v, hread, hrun, hshown, -⟩ := generate_eq_invoice.mp hreply
  obtain ⟨now, hr⟩ := now_of_given hread hnow
  have hlegible := legible_of_request hread
  have hv : v.Legible := by
    rw [run_of_now hr] at hrun
    exact legible_of_run hrun (hlegible.now now hr) hlegible.target hlegible.currency
      hlegible.events hlegible.issued
  exact ⟨r, v, now, hread, hr, hrun, hshown, invoice_ofInvoice hv hshown⟩

/-- A request with the invoice that it gave among those issued leaves nothing to bill. -/
theorem generate_withIssued [Lawful] {r : Request} {v : Invoice} {now : Moment}
    (hread : request body = .value r) (hr : r.now = some now)
    (hrun : r.run terms present ids = .ok (some v)) (hback : invoice reply = .value v)
    (hids : ((itemsOn r.issued).map Item.id).Nodup) (hfresh : Fresh (itemsOn r.issued) v.items)
    (present' : Moment) (ids' : Nat → Uuid) :
    generate terms present' ids' (withIssued [reply] body) = .ok ⟨204, .null⟩ := by
  have hlegible := legible_of_request hread
  rw [run_of_now hr] at hrun
  obtain ⟨hne, timeline, proposed, hran⟩ := ran_of_run_some hrun
  have hcharges : ∀ i ∈ itemsOn r.issued, i.charge.Anchored := by
    intro i hi
    obtain ⟨w, hw, hi⟩ := mem_itemsOn.mp hi
    have hcharge := ((hlegible.issued w hw).items i hi).charge
    exact ⟨hcharge.start.anchored, fun t ht => (hcharge.stop t ht).anchored⟩
  have hevents : ∀ e ∈ r.events, e.effective.Anchored := fun e he =>
    (hlegible.events e he).effective.anchored
  have htargets : ∀ w ∈ r.issued, w.target.Anchored := fun w hw =>
    (hlegible.issued w hw).target.anchored
  have hperm : (r.issued ++ [v]).Perm (v :: r.issued) := List.perm_append_comm
  have hraised : r.target.instant ≤ v.target.instant :=
    (Moment.le_eq_true.mp hran.latest.target_le).2
  have hagain : ({ r with issued := r.issued ++ [v] } : Request).run terms present' ids' =
      .ok none :=
    (run_of_now (r := { r with issued := r.issued ++ [v] }) hr terms present' ids').trans
      (hran.run_eq_nothing hne hevents htargets hcharges hlegible.target.anchored hids hfresh hperm
        hlegible.target.anchored hraised hran.horizon ids')
  rw [generate_of_request (request_withIssued hread hback), hagain]
  rfl

end

/-- **A reply can be fed back.** The reply with an invoice reads as the very invoice that the run
gave; and when the ids are fresh, the request with this reply among its issued invoices is answered
that there is nothing to bill, whenever and with whatever ids it is sent. -/
theorem feed_back (hreply : generate terms present ids body = .ok ⟨200, reply⟩)
    (hnow : body.given? "now" ≠ none) :
    ∃ r v, request body = .value r ∧ r.run terms present ids = .ok (some v) ∧
      ofInvoice v = .ok reply ∧ invoice reply = .value v ∧
      (((itemsOn r.issued).map Item.id).Nodup → Fresh (itemsOn r.issued) v.items →
        ∀ present' ids',
          generate terms present' ids' (withIssued [reply] body) = .ok ⟨204, .null⟩) := by
  obtain ⟨r, v, now, hread, hr, hrun, hshown, hback⟩ := read_back hreply hnow
  exact ⟨r, v, hread, hrun, hshown, hback, fun hids hfresh =>
    generate_withIssued hread hr hrun hback hids hfresh⟩

end Service

namespace Sample

open Service

/-- The sample account as posted, with the invoice at the old price among those issued. -/
def corrected : Json :=
  withIssued [(ofInvoice outdated).toOption.getD .null]
    (posted "2020-01-10T00:00:00Z" "2020-02-05T00:00:00Z" "2020-01-12T00:00:00Z")

theorem request_corrected : (Service.request corrected).Gives fun r =>
    r.now = some (day 1 12) ∧ r.events = [event] ∧ r.issued = [outdated] ∧
      r.account = uuid 2 ∧ r.target = day 2 5 ∧ r.currency = .text "USD" := by
  decide +kernel

theorem run_corrected {r : Service.Request} (h : Service.request corrected = .value r) :
    r.issued = [outdated] ∧ r.run .standard (day 1 1) occasion.ids = .ok (some correction) := by
  obtain ⟨r', hread, hnow, hevents, hissued, haccount, htarget, hcurrency⟩ := request_corrected
  cases h.symm.trans hread
  rw [run_of_now hnow, hevents, hissued, haccount, htarget, hcurrency]
  exact ⟨rfl, run_outdated⟩

theorem generate_corrected : ∃ reply,
    generate .standard (day 1 1) occasion.ids corrected = .ok ⟨200, reply⟩ := by
  obtain ⟨r, hread, -⟩ := request_corrected
  obtain ⟨reply, -, hreply⟩ := exists_reply hread (run_corrected hread).2 (by decide +kernel)
  exact ⟨reply, hreply⟩

end Sample

open Service Sample in
/-- The correction of February is shown, is read as it is, and need not be made twice. -/
theorem feed_back_correction : ∃ reply,
    generate .standard (day 1 1) occasion.ids corrected = .ok ⟨200, reply⟩ ∧
      invoice reply = .value correction ∧
      generate .standard (day 1 1) uuid (withIssued [reply] corrected) = .ok ⟨204, .null⟩ := by
  obtain ⟨reply, hreply⟩ := generate_corrected
  have hnow : corrected.given? "now" ≠ none := Option.isSome_iff_ne_none.mp (by decide +kernel)
  obtain ⟨r, v, hread, hrun, -, hback, hagain⟩ := feed_back hreply hnow
  obtain ⟨hissued, hrun'⟩ := run_corrected hread
  cases hrun.symm.trans hrun'
  have hids : ((itemsOn r.issued).map Item.id).Nodup := by
    rw [hissued]
    decide
  have hfresh : Fresh (itemsOn r.issued) correction.items := by
    rw [hissued]
    exact ⟨by decide, by decide⟩
  exact ⟨reply, hreply, hback, hagain hids hfresh (day 1 1) uuid⟩

end BillRun
