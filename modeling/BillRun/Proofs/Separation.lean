import BillRun.Proofs.Arranging

/-! Subscriptions that share an account do not touch each other.

Each step of a run keeps subscriptions apart: the events of one are ordered as they would be alone,
the successor of an event is of its own subscription, charges and credits carry the subscription of
what they bill or take back, and items match only under one key. So two runs over the same account,
with the same events of a subscription, bill that subscription alike, whatever else they bill
(`run_separate`). -/
namespace BillRun

open Calendar

/-- The items of one subscription. -/
def itemsUnder (subscription : Uuid) (items : List Item) : List Item :=
  items.filter (·.charge.subscription = subscription)

@[simp] theorem itemsUnder_append (subscription : Uuid) (a b : List Item) :
    itemsUnder subscription (a ++ b) = itemsUnder subscription a ++ itemsUnder subscription b :=
  List.filter_append ..

theorem map_charge_itemsUnder (subscription : Uuid) (items : List Item) :
    (itemsUnder subscription items).map (·.charge) =
      (items.map (·.charge)).filter (·.subscription = subscription) := by
  rw [List.filter_map]
  rfl

theorem recurring_itemsUnder (subscription : Uuid) (items : List Item) :
    recurring (itemsUnder subscription items) = itemsUnder subscription (recurring items) :=
  List.filter_comm ..

theorem Basis.eq_of_rate_of_reverses {a b : Basis} (hrate : a.rate? = b.rate?)
    (hreverses : a.reverses = b.reverses) : a = b := by
  cases a with
  | fixed =>
    cases b with
    | fixed => rfl
    | recurring => cases hrate
  | recurring rate reverses =>
    cases b with
    | fixed => cases hrate
    | recurring =>
      cases hrate
      cases hreverses
      rfl

/-! ### Charges -/

namespace Timeline

variable {terms : Terms} {target : Moment} {currency : LooseText} {events : List Event}
  {charges : List Charge}

theorem successor_filter (e : Event) (events : List Event) :
    successor e (events.filter (·.subscription = e.subscription)) = successor e events := by
  unfold successor
  rw [List.find?_filter]
  simp

/-- The charges of one subscription are those of its events alone. -/
theorem chargesOf_filter (h : chargesOf terms target currency events = .ok charges)
    (subscription : Uuid) :
    chargesOf terms target currency (events.filter (·.subscription = subscription)) =
      .ok (charges.filter (·.subscription = subscription)) := by
  induction events generalizing charges with
  | nil =>
    cases h
    rfl
  | cons e events ih =>
    obtain ⟨first, rest, hfirst, hrest, rfl⟩ := chargesOf_cons_eq_ok.mp h
    have hown : ∀ c ∈ first, c.subscription = e.subscription := fun c hc =>
      (Event.bills_of_mem_charges hfirst hc).subscription
    rw [List.filter_append]
    by_cases hsame : e.subscription = subscription
    · subst hsame
      have hall : first.filter (·.subscription = e.subscription) = first :=
        List.filter_eq_self.mpr fun c hc => by simpa using hown c hc
      rw [List.filter_cons_of_pos (by simp), hall]
      refine chargesOf_cons_eq_ok.mpr ⟨first, _, ?_, ih hrest, rfl⟩
      rw [successor_filter, hfirst]
    · have hnone : first.filter (·.subscription = subscription) = [] := by
        refine List.filter_eq_nil_iff.mpr fun c hc => ?_
        rw [hown c hc]
        simpa using hsame
      rw [List.filter_cons_of_neg (by simpa using hsame), hnone, List.nil_append]
      exact ih hrest

/-- Timelines with the same events of a subscription charge it alike. -/
theorem expand_separate {timeline timeline' : Timeline} {now now' : Moment}
    {ids ids' : Nat → Uuid} {invoice invoice' : Uuid} {items items' : List Item}
    (subscription : Uuid) (hsame : timeline.events.filter (·.subscription = subscription) =
      timeline'.events.filter (·.subscription = subscription))
    (h : timeline.expand terms now ids invoice target currency = .ok items)
    (h' : timeline'.expand terms now' ids' invoice' target currency = .ok items') :
    (itemsUnder subscription items).map (·.charge) =
      (itemsUnder subscription items').map (·.charge) := by
  have hcharges := chargesOf_filter (map_charge_of_expand h) subscription
  have hcharges' := chargesOf_filter (map_charge_of_expand h') subscription
  rw [hsame, hcharges'] at hcharges
  rw [map_charge_itemsUnder, map_charge_itemsUnder]
  exact (Except.ok.inj hcharges).symm

end Timeline

/-! ### Matching -/

namespace Settlement

/-- The subscription of an item is part of its key. -/
theorem subscription_of_key {i j : Item} (h : i.key = j.key) :
    i.charge.subscription = j.charge.subscription := congrArg ChargeKey.subscription h

theorem eraseSame_itemsUnder (item : Item) (issued : List Item) :
    eraseSame item (itemsUnder item.charge.subscription issued) =
      (eraseSame item issued).map (itemsUnder item.charge.subscription) := by
  cases h : eraseSame item issued with
  | none =>
    rw [eraseSame_eq_none] at h
    refine eraseSame_eq_none.mpr fun hmem => h ?_
    exact (List.filter_sublist.map Item.key).subset hmem
  | some left =>
    obtain ⟨before, i, after, rfl, rfl, hi, hnot⟩ := eraseSame_eq_some.mp h
    refine eraseSame_eq_some.mpr ⟨itemsUnder _ before, i, itemsUnder _ after, ?_,
      itemsUnder_append .., hi, fun hmem => hnot ?_⟩
    · rw [itemsUnder_append]
      congr 1
      exact List.filter_cons_of_pos (by simpa using subscription_of_key hi)
    · exact (List.filter_sublist.map Item.key).subset hmem

/-- What an item of another subscription takes is of that subscription. -/
theorem itemsUnder_of_eraseSame {item : Item} {issued left : List Item} {subscription : Uuid}
    (h : eraseSame item issued = some left) (hother : item.charge.subscription ≠ subscription) :
    itemsUnder subscription left = itemsUnder subscription issued := by
  obtain ⟨before, i, after, rfl, rfl, hi, -⟩ := eraseSame_eq_some.mp h
  rw [itemsUnder_append, itemsUnder_append]
  congr 1
  rw [← subscription_of_key hi] at hother
  exact (List.filter_cons_of_neg (by simpa using hother)).symm

/-- Matching goes on in each subscription by itself. -/
theorem pairOff_itemsUnder (subscription : Uuid) (proposed issued : List Item) :
    pairOff (itemsUnder subscription proposed) (itemsUnder subscription issued) =
      (itemsUnder subscription (pairOff proposed issued).1,
        itemsUnder subscription (pairOff proposed issued).2) := by
  induction proposed generalizing issued with
  | nil => rfl
  | cons item items ih =>
    by_cases hsame : item.charge.subscription = subscription
    · have hcons (rest : List Item) : itemsUnder subscription (item :: rest) =
          item :: itemsUnder subscription rest := List.filter_cons_of_pos (by simpa using hsame)
      have herase := eraseSame_itemsUnder item issued
      rw [hsame] at herase
      rw [hcons]
      cases h : eraseSame item issued with
      | none =>
        rw [h] at herase
        simp only [pairOff, herase, h, Option.map_none, ih, hcons]
      | some left =>
        rw [h] at herase
        simp only [pairOff, herase, h, Option.map_some, ih]
    · have hcons (rest : List Item) : itemsUnder subscription (item :: rest) =
          itemsUnder subscription rest := List.filter_cons_of_neg (by simpa using hsame)
      rw [hcons]
      cases h : eraseSame item issued with
      | none => simp only [pairOff, h, ih, hcons]
      | some left =>
        rw [← itemsUnder_of_eraseSame h hsame]
        simp only [pairOff, h, ih]

/-! ### Credits -/

theorem Credits.charge_eq {c c' i : Item} (h : Credits c i) (h' : Credits c' i) :
    c.charge = c'.charge := by
  have hamount := Except.ok.inj (h.amount.symm.trans h'.amount)
  have hbasis := Basis.eq_of_rate_of_reverses (h.rate.trans h'.rate.symm)
    (h.reverses.trans h'.reverses.symm)
  calc
    c.charge = { i.charge with amount := c.charge.amount, basis := c.charge.basis } := h.rest
    _ = { i.charge with amount := c'.charge.amount, basis := c'.charge.basis } := by
      rw [hamount, hbasis]
    _ = c'.charge := h'.rest.symm

theorem Credits.subscription {c i : Item} (h : Credits c i) :
    c.charge.subscription = i.charge.subscription := by rw [h.rest]

/-- Credits for the same items are the same charges. -/
theorem map_charge_of_credits {credited credited' taken : List Item}
    (h : List.Forall₂ Credits credited taken) (h' : List.Forall₂ Credits credited' taken) :
    credited.map (·.charge) = credited'.map (·.charge) := by
  induction h generalizing credited' with
  | nil =>
    cases h'
    rfl
  | cons hc _ ih =>
    cases h' with
    | cons hc' hrest => rw [List.map_cons, List.map_cons, hc.charge_eq hc', ih hrest]

/-- A settlement of one subscription sees only what is proposed and issued for it. -/
theorem settle_separate {proposed proposed' existing new new' : List Item} {ids ids' : Nat → Uuid}
    {invoice invoice' : Uuid} {now now' : Moment} (subscription : Uuid)
    (hproposed : (itemsUnder subscription proposed).map (·.charge) =
      (itemsUnder subscription proposed').map (·.charge))
    (h : settle proposed existing ids invoice now = .ok new)
    (h' : settle proposed' existing ids' invoice' now' = .ok new') :
    (itemsUnder subscription new).map (·.charge) =
      (itemsUnder subscription new').map (·.charge) := by
  obtain ⟨credited, hcredited, rfl⟩ := settle_eq_ok.mp h
  obtain ⟨credited', hcredited', rfl⟩ := settle_eq_ok.mp h'
  obtain ⟨hcharges, hleft⟩ :=
    pairOff_congr hproposed (itemsUnder subscription (surviving existing))
  simp only [pairOff_itemsUnder] at hcharges hleft
  have hunder {proposed credited : List Item} {ids : Nat → Uuid} {invoice : Uuid} {now : Moment}
      (h : credits invoice now ids (pairOff proposed (surviving existing)).2 = .ok credited) :
      List.Forall₂ Credits (itemsUnder subscription credited)
        (recurring (itemsUnder subscription (pairOff proposed (surviving existing)).2)) := by
    rw [recurring_itemsUnder]
    exact List.rel_filter (fun c i hc => by simp [hc.subscription]) (credits_eq_ok h)
  have hcredits := hunder hcredited
  have hcredits' := hunder hcredited'
  rw [hleft] at hcredits
  rw [itemsUnder_append, itemsUnder_append, List.map_append, List.map_append, hcharges,
    map_charge_of_credits hcredits hcredits']

end Settlement

/-! ### Runs -/

/-- **Subscriptions do not interfere.** Two runs at one time, under the same terms and over the same
issued invoices, whose events of a subscription are the same in the same order, put the same items
of that subscription on the account, up to the ids that they give. -/
theorem run_separate (subscription : Uuid) (terms : Terms) (now : Moment) (ids ids' : Nat → Uuid)
    (events events' : List Event) (issued : List Invoice) (r : RunRequest)
    (result result' : Option Invoice) (hne : events ≠ []) (hne' : events' ≠ [])
    (hsame : events.filter (·.subscription = subscription) =
      events'.filter (·.subscription = subscription))
    (hrun : (⟨terms, now, ids⟩ : Occasion).run events issued r = .ok result)
    (hrun' : (⟨terms, now, ids'⟩ : Occasion).run events' issued r = .ok result') :
    (itemsUnder subscription (billed result)).map Item.content =
      (itemsUnder subscription (billed result')).map Item.content := by
  obtain ⟨timeline, target, proposed, new, hran, rfl⟩ := (run_eq_ok hne).mp hrun
  obtain ⟨timeline', target', proposed', new', hran', rfl⟩ := (run_eq_ok hne').mp hrun'
  rw [billed_invoice, billed_invoice]
  obtain rfl := Except.ok.inj (hran.raised.symm.trans hran'.raised)
  have hevents := Timeline.filter_of hran.ordered hran'.ordered hsame
  have hproposed := Timeline.expand_separate subscription hevents hran.expanded hran'.expanded
  obtain ⟨existing, hexisting, hnew⟩ := hran.settlement
  obtain ⟨existing', hexisting', hnew'⟩ := hran'.settlement
  obtain rfl := Except.ok.inj (hexisting.symm.trans hexisting')
  have hcharges := Settlement.settle_separate subscription hproposed hnew hnew'
  have hcreated : ∀ i ∈ itemsUnder subscription new, i.created = now :=
    fun i hi => hran.created i (List.mem_of_mem_filter hi)
  have hcreated' : ∀ i ∈ itemsUnder subscription new', i.created = now :=
    fun i hi => hran'.created i (List.mem_of_mem_filter hi)
  rw [map_content_of_created hcreated, map_content_of_created hcreated', hcharges]

open Sample in
/-- The subscription is corrected in the same way beside another one. -/
theorem run_separate_neighbour :
    (⟨.standard, day 1 12, fun n => uuid (100 + n)⟩ : Occasion).run [event] [outdated] request =
        .ok (some correction) ∧
      (⟨.standard, day 1 12, supply 2⟩ : Occasion).run [neighbour, event] [outdated] request =
        .ok (some shared) ∧
      [event].filter (·.subscription = uuid 1) =
        [neighbour, event].filter (·.subscription = uuid 1) ∧
      (itemsUnder (uuid 1) (billed (some correction))).map Item.content =
        (itemsUnder (uuid 1) (billed (some shared))).map Item.content := by
  have hsame : [event].filter (·.subscription = uuid 1) =
      [neighbour, event].filter (·.subscription = uuid 1) := by decide
  exact ⟨run_outdated, run_shared, hsame, run_separate (uuid 1) .standard (day 1 12)
    (fun n => uuid (100 + n)) (supply 2) [event] [neighbour, event] [outdated] request
    (some correction) (some shared) (by decide) (by decide) hsame run_outdated run_shared⟩

end BillRun
