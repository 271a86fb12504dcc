import BillRun.Proofs.Amounts
import BillRun.Proofs.Arranging

/-! A run does not depend on the order in which things are listed.

Events are put in order before anything else, and where those that tie are identical there is one
order only. Invoices and items have no such order: which of several issued items a charge is matched
with does depend on it, but they bill the same thing, so what is left bills the same thing too, and
so do the credits for it (`settle_of_perm`). The latest target may come from another invoice and
read another offset; the charges see only its instant (`chargesOf_eq_of_mark`). Even the first fault
met is the same, since faults met out of order are all alike (`run_of_perm`). -/
namespace BillRun

open Calendar

/-! ### Charges through one instant -/

theorem Event.charges_eq_of_mark {e : Event} {successor : Option Event} {target target' : Moment}
    (hsuccessor : Proration.stopsBefore (successor.map (·.effective)) e.effective = .ok false)
    (hmark : target.mark = target'.mark) (terms : Terms) (currency : LooseText) :
    e.charges successor terms target currency = e.charges successor terms target' currency := by
  have hfixed : e.fixedCharges target currency = e.fixedCharges target' currency := by
    unfold fixedCharges
    rw [Moment.lt_congr hmark]
  have hrecurring : e.recurringCharges successor terms target currency =
      e.recurringCharges successor terms target' currency := by
    rw [recurringCharges_eq, recurringCharges_eq, ← Moment.le_congr hmark]
    cases hle : e.effective.le target with
    | error => rw [error_bind, error_bind]
    | ok due =>
      cases due with
      | false => simp only [ok_bind, Bool.false_eq_true, if_false]
      | true =>
        obtain ⟨hcomparable, hinstant⟩ := Moment.le_eq_true.mp hle
        have hdue : target.lt e.effective = .ok false :=
          Moment.lt_eq_ok.mpr ⟨hcomparable.symm, by simpa using hinstant⟩
        simp only [perCycle, Proration.spans_eq_of_mark hsuccessor hdue hmark]
  rw [Event.charges, Event.charges, hfixed, hrecurring]

/-- **Charges see the instant of the target only**, faults included. -/
theorem Timeline.chargesOf_eq_of_mark {events : List Event} {target target' : Moment}
    (hsorted : events.Pairwise fun a b => Moment.Comparable a.effective b.effective ∧
      a.effective.instant ≤ b.effective.instant)
    (hmark : target.mark = target'.mark) (terms : Terms) (currency : LooseText) :
    chargesOf terms target currency events = chargesOf terms target' currency events := by
  induction events with
  | nil => rfl
  | cons e events ih =>
    rw [List.pairwise_cons] at hsorted
    have hsuccessor : Proration.stopsBefore ((successor e events).map (·.effective)) e.effective =
        .ok false := by
      cases h : successor e events with
      | none => rfl
      | some f =>
        obtain ⟨hcomparable, hle⟩ := hsorted.1 f (List.mem_of_find?_eq_some h)
        exact Moment.lt_eq_ok.mpr ⟨hcomparable.symm, by simpa using hle⟩
    rw [chargesOf, chargesOf, Event.charges_eq_of_mark hsuccessor hmark, ih hsorted.2]

/-! ### The latest target -/

theorem Latest.le_of_subset {target latest latest' : Moment} {issued issued' : List Invoice}
    (h : Latest target issued latest) (h' : Latest target issued' latest')
    (hsub : ∀ v ∈ issued, ∃ w ∈ issued', w.target = v.target) :
    Moment.Comparable latest latest' ∧ latest.instant ≤ latest'.instant := by
  apply Moment.le_eq_true.mp
  rcases h.chosen with rfl | ⟨-, v, hv, rfl⟩
  · exact h'.target_le
  · obtain ⟨w, hw, htarget⟩ := hsub v hv
    rw [← htarget]
    exact h'.issued_le w hw

theorem Latest.mark_congr {target latest latest' : Moment} {issued issued' : List Invoice}
    (h : Latest target issued latest) (h' : Latest target issued' latest')
    (hsub : ∀ v ∈ issued, ∃ w ∈ issued', w.target = v.target)
    (hsub' : ∀ w ∈ issued', ∃ v ∈ issued, v.target = w.target) : latest.mark = latest'.mark := by
  obtain ⟨hcomparable, hle⟩ := h.le_of_subset h' hsub
  exact Moment.mark_congr hcomparable (Int.le_antisymm hle (h'.le_of_subset h hsub').2)

/-! ### Matching -/

namespace Settlement

/-- Which proposed items find a match depends on the keys issued only. -/
theorem pairOff_of_perm {issued issued' : List Item} (h : (keys issued).Perm (keys issued'))
    (proposed : List Item) : (pairOff proposed issued).1 = (pairOff proposed issued').1 ∧
      (keys (pairOff proposed issued).2).Perm (keys (pairOff proposed issued').2) := by
  refine ⟨?_, List.perm_iff_count.mpr fun key => ?_⟩
  · induction proposed generalizing issued issued' with
    | nil => rfl
    | cons item items ih =>
      cases herase : eraseSame item issued with
      | none =>
        have hnot := eraseSame_eq_none.mp herase
        rw [h.mem_iff] at hnot
        simp only [pairOff, herase, eraseSame_eq_none.mpr hnot, ih h]
      | some left =>
        cases herase' : eraseSame item issued' with
        | none =>
          have hnot := eraseSame_eq_none.mp herase'
          rw [← h.mem_iff, ← eraseSame_eq_none, herase] at hnot
          cases hnot
        | some left' =>
          simp only [pairOff, herase, herase']
          refine ih ?_
          obtain ⟨before, i, after, rfl, rfl, hi, -⟩ := eraseSame_eq_some.mp herase
          obtain ⟨before', i', after', rfl, rfl, hi', -⟩ := eraseSame_eq_some.mp herase'
          simp only [keys_append, keys_cons, hi, hi'] at h ⊢
          exact (List.perm_middle.symm.trans (h.trans List.perm_middle)).cons_inv
  · rw [(count_pairOff _ _ key).2, (count_pairOff _ _ key).2, h.count_eq]

end Settlement

/-! ### Credits -/

/-- The key of the credit for an item, from the key of the item. -/
def ChargeKey.credited (k : ChargeKey) : Except Fault ChargeKey :=
  (fun amount => { k with amount }) <$> Decimal.canonical <$> k.amount.neg

theorem ChargeKey.credited_eq_error {k : ChargeKey} {f : Fault} (h : k.credited = .error f) :
    f = .magnitude := by
  unfold credited at h
  cases hneg : k.amount.neg with
  | ok amount =>
    rw [hneg] at h
    cases h
  | error g =>
    rw [hneg] at h
    cases h
    exact Decimal.neg_eq_error hneg

namespace Settlement

theorem key_credit? {i : Item} {id invoice : Uuid} {now : Moment} {credit : Except Fault Item}
    (h : i.credit? id invoice now = some credit) : Item.key <$> credit = i.key.credited := by
  rcases i with ⟨_, _, _, c⟩
  rcases c with ⟨_, _, _, _, _, amount, _, basis⟩
  cases basis with
  | fixed => cases h
  | recurring rate reverses =>
    cases h
    unfold ChargeKey.credited
    simp only [Item.key, Charge.key, Decimal.neg_congr amount.canonical_canonical]
    cases amount.neg <;> rfl

/-- The keys of credits follow from the keys of what they take back, faults included. -/
theorem keys_credits (invoice : Uuid) (now : Moment) (ids : Nat → Uuid) (items : List Item) :
    keys <$> credits invoice now ids items = (keys (recurring items)).mapM ChargeKey.credited := by
  induction items generalizing ids with
  | nil => rfl
  | cons i items ih =>
    rcases credit?_eq i (ids 0) invoice now with ⟨hkind, hnone⟩ | ⟨credit, hkind, hsome, -⟩
    · rw [recurring_cons_of_fixed hkind, ← ih ids]
      simp only [credits, hnone]
    · rw [recurring_cons_of_recurring hkind, keys_cons, List.mapM_cons, ← key_credit? hsome,
        ← ih fun n => ids (n + 1)]
      simp only [credits, hsome]
      cases credit with
      | error => rfl
      | ok c =>
        cases credits invoice now (fun n => ids (n + 1)) items <;> rfl

/-- Credits for items under the same keys have the same keys, unless neither can be written down. -/
theorem credits_of_perm {left left' : List Item} (h : (keys left).Perm (keys left'))
    (ids ids' : Nat → Uuid) (invoice invoice' : Uuid) (now : Moment) :
    (credits invoice now ids left = .error .magnitude ∧
      credits invoice' now ids' left' = .error .magnitude) ∨
      ∃ credited credited', credits invoice now ids left = .ok credited ∧
        credits invoice' now ids' left' = .ok credited' ∧
        (keys credited).Perm (keys credited') := by
  have hrecurring : (keys (recurring left)).Perm (keys (recurring left')) := by
    rw [List.perm_iff_count]
    intro key
    rw [count_keys_recurring, count_keys_recurring, h.count_eq]
  have honly : ∀ k f, ChargeKey.credited k = .error f → f = .magnitude :=
    fun _ _ => ChargeKey.credited_eq_error
  rcases mapM_of_perm honly hrecurring with ⟨hfault, hfault'⟩ | ⟨ks, ks', hks, hks', hperm⟩
  · rw [← keys_credits invoice now ids, map_eq_error] at hfault
    rw [← keys_credits invoice' now ids', map_eq_error] at hfault'
    exact .inl ⟨hfault, hfault'⟩
  · rw [← keys_credits invoice now ids, map_eq_ok] at hks
    rw [← keys_credits invoice' now ids', map_eq_ok] at hks'
    obtain ⟨credited, hcredited, rfl⟩ := hks
    obtain ⟨credited', hcredited', rfl⟩ := hks'
    exact .inr ⟨credited, credited', hcredited, hcredited', hperm⟩

end Settlement

/-- The items that credit no other. -/
def withoutCredits (items : List Item) : List Item := items.filter (·.reverses = none)

/-- Two settlements that bill alike: the same charges in the same order, and the same keys. -/
structure BilledAlike (new new' : List Item) : Prop where
  charges : (withoutCredits new).map (·.charge) = (withoutCredits new').map (·.charge)
  keys : (BillRun.keys new).Perm (BillRun.keys new')

namespace Settlement

theorem withoutCredits_append_credits {items credited : List Item} {ids : Nat → Uuid}
    {invoice : Uuid} {now : Moment} {left : List Item} (hitems : ∀ i ∈ items, i.reverses = none)
    (h : credits invoice now ids left = .ok credited) :
    withoutCredits (items ++ credited) = items := by
  have hcredited : ∀ c ∈ credited, c.reverses ≠ none := by
    intro c hc
    obtain ⟨i, -, hcredits⟩ := exists_of_mem_right (credits_eq_ok h).flip hc
    simp [hcredits.reverses]
  have hnone : credited.filter (·.reverses = none) = [] :=
    List.filter_eq_nil_iff.mpr fun c hc => by simpa using hcredited c hc
  have hall : items.filter (·.reverses = none) = items :=
    List.filter_eq_self.mpr fun i hi => by simpa using hitems i hi
  rw [withoutCredits, List.filter_append, hnone, hall, List.append_nil]

/-- **The order of issued items does not matter** to what a settlement bills. -/
theorem settle_of_perm {proposed proposed' existing existing' : List Item}
    (hproposed : proposed.map (·.charge) = proposed'.map (·.charge))
    (hplain : ∀ i ∈ proposed, i.reverses = none) (hexisting : existing.Perm existing')
    (ids ids' : Nat → Uuid) (invoice invoice' : Uuid) (now : Moment) :
    (settle proposed existing ids invoice now = .error .magnitude ∧
      settle proposed' existing' ids' invoice' now = .error .magnitude) ∨
      ∃ new new', settle proposed existing ids invoice now = .ok new ∧
        settle proposed' existing' ids' invoice' now = .ok new' ∧ BilledAlike new new' := by
  have hplain' : ∀ i ∈ proposed', i.reverses = none := by
    intro i hi
    obtain ⟨j, hj, hcharge⟩ : ∃ j ∈ proposed, j.charge = i.charge :=
      List.mem_map.mp (hproposed ▸ List.mem_map_of_mem hi)
    have hreverses : i.reverses = j.reverses := by rw [Item.reverses, Item.reverses, hcharge]
    rw [hreverses, hplain j hj]
  have hissued := (surviving_perm hexisting).map Item.key
  obtain ⟨hcharges, hleft⟩ := pairOff_congr hproposed (surviving existing)
  obtain ⟨hsame, hperm⟩ := pairOff_of_perm hissued proposed'
  rw [← hleft] at hperm
  rw [hsame] at hcharges
  rw [settle_eq, settle_eq]
  rcases credits_of_perm hperm ids ids' invoice invoice' now with
    ⟨hfault, hfault'⟩ | ⟨credited, credited', hcredited, hcredited', hkeys⟩
  · exact .inl ⟨map_eq_error.mpr hfault, map_eq_error.mpr hfault'⟩
  · refine .inr ⟨_, _, map_eq_ok.mpr ⟨credited, hcredited, rfl⟩,
      map_eq_ok.mpr ⟨credited', hcredited', rfl⟩, ?_, ?_⟩
    · rw [withoutCredits_append_credits (fun i hi => hplain i ?_) hcredited,
        withoutCredits_append_credits (fun i hi => hplain' i ?_) hcredited', hcharges]
      · exact (pairOff_sublist _ _).1.subset hi
      · exact (pairOff_sublist _ _).1.subset hi
    · rw [keys_append, keys_append, keys_congr hcharges]
      exact hkeys.append_left _

end Settlement

/-! ### Runs -/

/-- The same invoice with its items in another order. -/
def Invoice.Shuffled (v w : Invoice) : Prop := w = { v with items := w.items } ∧ v.items.Perm w.items

/-- Two outcomes of a run that differ in nothing but ids, the order of credits, and how moments and
amounts are written. -/
inductive SameOutcome : Except Fault (Option Invoice) → Except Fault (Option Invoice) → Prop
  | fault (f : Fault) : SameOutcome (.error f) (.error f)
  | nothing : SameOutcome (.ok none) (.ok none)
  | invoice {v w : Invoice} : v.target.instant = w.target.instant →
      (withoutCredits v.items).map Item.content = (withoutCredits w.items).map Item.content →
      (keys v.items).Perm (keys w.items) → SameOutcome (.ok (some v)) (.ok (some w))

theorem itemsOn_perm {issued mid issued' : List Invoice} (h : issued.Perm mid)
    (hitems : List.Forall₂ Invoice.Shuffled mid issued') :
    (itemsOn issued).Perm (itemsOn issued') := by
  refine (h.flatMap_right _).trans ?_
  induction hitems generalizing issued with
  | nil => exact .nil
  | cons hv _ ih => exact hv.2.append (ih (.refl _))

/-- The order of invoices does not matter to the instant of the latest target. -/
theorem latestTarget_of_perm {target : Moment} {issued mid issued' : List Invoice}
    (h : issued.Perm mid) (hitems : List.Forall₂ Invoice.Shuffled mid issued')
    (htarget : target.Anchored) (htargets : ∀ v ∈ issued, v.target.Anchored) :
    ∃ latest latest', latestTarget target issued = .ok latest ∧
      latestTarget target issued' = .ok latest' ∧ latest.mark = latest'.mark := by
  have hsub : ∀ v ∈ issued, ∃ w ∈ issued', w.target = v.target := by
    intro v hv
    obtain ⟨w, hw, hshuffled⟩ := exists_of_mem_right hitems.flip (h.subset hv)
    exact ⟨w, hw, by rw [hshuffled.1]⟩
  have hsub' : ∀ w ∈ issued', ∃ v ∈ issued, v.target = w.target := by
    intro w hw
    obtain ⟨v, hv, hshuffled⟩ := exists_of_mem_right hitems hw
    exact ⟨v, h.symm.subset hv, by rw [hshuffled.1]⟩
  have htargets' : ∀ w ∈ issued', w.target.Anchored := by
    intro w hw
    obtain ⟨v, hv, hsame⟩ := hsub' w hw
    rw [← hsame]
    exact htargets v hv
  obtain ⟨latest, hlatest⟩ := latestTarget_of_anchored htarget htargets
  obtain ⟨latest', hlatest'⟩ := latestTarget_of_anchored htarget htargets'
  exact ⟨latest, latest', hlatest, hlatest', (latest_of_latestTarget hlatest).mark_congr
    (latest_of_latestTarget hlatest') hsub hsub'⟩

/-- Timelines are expanded alike through one instant, faults included. -/
theorem Timeline.expand_of_mark {events : List Event} {timeline : Timeline}
    (h : Timeline.of events = .ok timeline) {target target' : Moment}
    (hmark : target.mark = target'.mark) (terms : Terms) (now : Moment) (ids ids' : Nat → Uuid)
    (invoice invoice' : Uuid) (currency : LooseText) :
    (∃ f, timeline.expand terms now ids invoice target currency = .error f ∧
      timeline.expand terms now ids' invoice' target' currency = .error f) ∨
      ∃ items items', timeline.expand terms now ids invoice target currency = .ok items ∧
        timeline.expand terms now ids' invoice' target' currency = .ok items' ∧
        items.map (·.charge) = items'.map (·.charge) := by
  have hcharges : timeline.charges terms target currency = timeline.charges terms target' currency :=
    chargesOf_eq_of_mark (sorted_of_of h) hmark terms currency
  unfold expand
  rw [← hcharges]
  cases timeline.charges terms target currency with
  | error f => exact .inl ⟨f, rfl, rfl⟩
  | ok charges =>
    refine .inr ⟨_, _, rfl, rfl, ?_⟩
    rw [map_charge_mapIdx, map_charge_mapIdx]

theorem BilledAlike.sameOutcome {new new' : List Item} (h : BilledAlike new new') {now : Moment}
    (hcreated : ∀ i ∈ new, i.created = now) (hcreated' : ∀ i ∈ new', i.created = now)
    {target target' : Moment} (hmark : target.mark = target'.mark) (o o' : Occasion)
    (r : RunRequest) :
    SameOutcome (.ok (o.invoice r target new)) (.ok (o'.invoice r target' new')) := by
  have hempty : new.isEmpty = new'.isEmpty := by
    have hlength := h.keys.length_eq
    simp only [BillRun.keys, List.length_map] at hlength
    rw [Bool.eq_iff_iff, List.isEmpty_iff_length_eq_zero, List.isEmpty_iff_length_eq_zero, hlength]
  have hcontent : (withoutCredits new).map Item.content =
      (withoutCredits new').map Item.content := by
    have hcharges := h.charges
    unfold withoutCredits at hcharges ⊢
    rw [map_content_of_created fun i hi => hcreated i (List.mem_of_mem_filter hi),
      map_content_of_created fun i hi => hcreated' i (List.mem_of_mem_filter hi), hcharges]
  unfold Occasion.invoice
  rw [hempty]
  split
  · exact .nothing
  · exact .invoice (congrArg Mark.instant hmark) hcontent h.keys

/-- One timeline through one instant is billed alike over the same issued items. -/
theorem bill_of_perm {events : List Event} {timeline : Timeline}
    (h : Timeline.of events = .ok timeline) (terms : Terms) (now : Moment) (ids ids' : Nat → Uuid)
    (r : RunRequest) {existing existing' : List Item} (hsame : existing.Perm existing')
    {target target' : Moment} (hmark : target.mark = target'.mark) :
    SameOutcome ((⟨terms, now, ids⟩ : Occasion).bill r timeline existing target)
      ((⟨terms, now, ids'⟩ : Occasion).bill r timeline existing' target') := by
  unfold Occasion.bill
  rcases Timeline.expand_of_mark h hmark terms now (fun n => ids (n + 1)) (fun n => ids' (n + 1))
    (ids 0) (ids' 0) r.currency with
    ⟨f, hfault, hfault'⟩ | ⟨proposed, proposed', hproposed, hproposed', hbilled⟩
  · simp only [hfault, hfault']
    exact .fault f
  have hplain : ∀ i ∈ proposed, i.reverses = none := by
    intro i hi
    obtain ⟨_, _, _, _, hbills⟩ := Timeline.mem_chargesOf
      (Timeline.map_charge_of_expand hproposed) (List.mem_map_of_mem hi)
    exact hbills.reverses
  rcases Settlement.settle_of_perm hbilled hplain hsame (fun n => ids (n + 1 + proposed.length))
    (fun n => ids' (n + 1 + proposed'.length)) (ids 0) (ids' 0) now with
    ⟨hfault, hfault'⟩ | ⟨new, new', hnew, hnew', halike⟩
  · simp only [ok_bind, hproposed, hproposed', hfault, hfault']
    exact .fault _
  · simp only [ok_bind, hproposed, hproposed', hnew, hnew']
    exact halike.sameOutcome
      (Settlement.created_of_settle (Timeline.created_of_expand hproposed) hnew)
      (Settlement.created_of_settle (Timeline.created_of_expand hproposed') hnew') hmark _ _ r

/-- **The order of the input does not matter.** Where events of one subscription that tie are
identical, two runs that differ only in how events, invoices and the items of each invoice are
listed, and in the ids that they give, have the same outcome. -/
theorem run_of_perm (terms : Terms) (now : Moment) (ids ids' : Nat → Uuid) (r : RunRequest)
    {events events' : List Event} (hevents : events.Perm events')
    (hties : ∀ a ∈ events, ∀ b ∈ events, a.subscription = b.subscription →
      a.effective.instant = b.effective.instant → a.ordering = b.ordering → a = b)
    {issued mid issued' : List Invoice} (hissued : issued.Perm mid)
    (hitems : List.Forall₂ Invoice.Shuffled mid issued') (htarget : r.target.Anchored)
    (htargets : ∀ v ∈ issued, v.target.Anchored)
    (hcharges : ∀ i ∈ itemsOn issued, i.charge.Anchored) :
    SameOutcome ((⟨terms, now, ids⟩ : Occasion).run events issued r)
      ((⟨terms, now, ids'⟩ : Occasion).run events' issued' r) := by
  by_cases hne : events = []
  · obtain rfl : events' = [] := by simpa [hne] using hevents.symm
    rw [hne, run_of_no_events, run_of_no_events]
    exact .nothing
  have hne' : events' ≠ [] := fun hnil => hne (by simpa [hnil] using hevents)
  have hperm := itemsOn_perm hissued hitems
  obtain ⟨existing, hexisting⟩ := arrange_of_anchored hcharges
  obtain ⟨existing', hexisting'⟩ :=
    arrange_of_anchored fun i hi => hcharges i (hperm.symm.subset hi)
  have hsame : existing.Perm existing' :=
    (perm_of_arrange hexisting).trans (hperm.trans (perm_of_arrange hexisting').symm)
  obtain ⟨target, target', hraised, hraised', hmark⟩ :=
    latestTarget_of_perm hissued hitems htarget htargets
  have hordered := Timeline.of_perm hevents hties
  cases htimeline : Timeline.of events with
  | error f =>
    rw [htimeline] at hordered
    unfold Occasion.run
    rw [htimeline, ← hordered]
    exact .fault f
  | ok timeline =>
    rw [run_of_ordered hne htimeline hexisting hraised,
      run_of_ordered hne' (hordered.symm.trans htimeline) hexisting' hraised']
    cases terms.checkHorizon now r.target with
    | error f => exact .fault f
    | ok _ => exact bill_of_perm htimeline terms now ids ids' r hsame hmark

open Sample in
/-- Two subscriptions listed the other way round, and the items of the issued invoice too. -/
theorem run_of_perm_shared : ∃ v,
    (⟨.standard, day 1 12, supply 3⟩ : Occasion).run [event, neighbour]
      [{ outdated with items := outdated.items.reverse }] request = .ok (some v) ∧
      shared.target.instant = v.target.instant ∧
      (withoutCredits shared.items).map Item.content = (withoutCredits v.items).map Item.content ∧
      (keys shared.items).Perm (keys v.items) := by
  have hcharges : ∀ i ∈ itemsOn [outdated], i.charge.start.Anchored ∧
      ∀ t ∈ i.charge.stop, t.Anchored := by decide
  have hitems : List.Forall₂ Invoice.Shuffled [outdated]
      [{ outdated with items := outdated.items.reverse }] :=
    .cons ⟨rfl, (List.reverse_perm outdated.items).symm⟩ .nil
  have hsame := run_of_perm .standard (day 1 12) (supply 2) (supply 3) request
    (.swap event neighbour []) (by decide) (.refl [outdated]) hitems (by decide)
    (by decide) (fun i hi => ⟨(hcharges i hi).1, (hcharges i hi).2⟩)
  rw [run_shared] at hsame
  generalize (⟨.standard, day 1 12, supply 3⟩ : Occasion).run [event, neighbour]
    [{ outdated with items := outdated.items.reverse }] request = outcome at hsame ⊢
  cases hsame with
  | invoice htarget hcontent hkeys => exact ⟨_, rfl, htarget, hcontent, hkeys⟩

end BillRun
