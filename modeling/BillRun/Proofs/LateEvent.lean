import BillRun.Proofs.Arranging
import BillRun.Proofs.Shortening

/-! What an event leaves alone that is entered late.

A late event takes its place among the others and becomes the successor of at most one of them,
whose stretch it cuts short. So what was charged stays, key by key, but for recurring charges of the
same subscription that were not over when the event takes effect (`chargesOf_insert`), and a run
credits nothing but those (`credits_of_late_event`). There is one exception. Days are counted from
date to date, and one instant may read two dates in two offsets. Where a stretch ended inside a
cycle, at the very instant of the late event but on another date, its last part now runs to the date
of the late event, and may come to another amount (`Charge.CutAnew`). -/
namespace BillRun

open Calendar Settlement

/-! ### Charges that stay -/

/-- `f` comes between `e` and `g`, which follow on each other in its subscription without it. -/
structure Event.Between (earlier later : List Event) (f e g : Event) : Prop where
  last : (earlier.filter (·.subscription = f.subscription)).getLast? = some e
  next : later.find? (·.subscription = f.subscription) = some g

theorem Event.Between.cons {earlier later : List Event} {f e g : Event}
    (h : Event.Between earlier later f e g) (x : Event) :
    Event.Between (x :: earlier) later f e g := by
  refine ⟨?_, h.next⟩
  rw [List.filter_cons]
  split
  · rw [List.getLast?_cons, h.last]
    rfl
  · exact h.last

/-- The charge is for a part of a cycle of `e` that `g` cuts off before the cycle ends. `f` takes
effect at the same instant as `g` but on another date, and up to that date the part comes to another
amount, or to none. -/
structure Charge.CutAnew (terms : Terms) (target : Moment) (f e g : Event) (c : Charge) : Prop where
  billed : ∃ own, e.charges (some g) terms target c.currency = .ok own ∧ c ∈ own
  stop : c.stop = some g.effective
  instant : g.effective.instant = f.effective.instant
  date : g.effective.date ≠ f.effective.date
  amount : ∃ first low high rate, firstDate e.effective e.cycleDay.day = .ok first ∧
    (⟨first, e.period.months, e.cycleDay.day⟩ : Cycle).Full low high ∧
    low.instant ≤ c.start.instant ∧ g.effective.instant < high.instant ∧
    c.basis.rate? = some rate ∧
    ∀ amount, 0 < c.start.daysBetween f.effective →
      terms.charge (Proration.share c.start f.effective low high).cycles rate = .ok amount →
        amount.canonical ≠ c.amount.canonical

theorem Charge.CutAnew.inCurrency {terms : Terms} {target : Moment} {f e g : Event} {c : Charge}
    {currency : LooseText} (h : (c.inCurrency currency).CutAnew terms target f e g) :
    c.CutAnew terms target f e g := by
  obtain ⟨own, hown, hc⟩ := h.billed
  have hback := Event.charges_inCurrency hown c.currency
  exact ⟨⟨_, hback, List.mem_map.mpr ⟨_, hc, rfl⟩⟩, h.stop, h.instant, h.date, h.amount⟩

/-- What is asked of a charge for it to stay when `f` is entered. A recurring one of the same
subscription has to be over when `f` takes effect, and no two events that `f` comes between must
have it cut anew. -/
def Charge.Stays (terms : Terms) (target : Moment) (f : Event) (between : Event → Event → Prop)
    (c : Charge) : Prop :=
  c.kind = .recurring → c.subscription = f.subscription →
    (∃ stop, c.stop = some stop ∧ stop.instant ≤ f.effective.instant) ∧
      ∀ e g, between e g → ¬c.CutAnew terms target f e g

theorem Charge.Stays.mono {terms : Terms} {target : Moment} {f : Event}
    {between between' : Event → Event → Prop} {c : Charge} (h : c.Stays terms target f between)
    (hle : ∀ e g, between' e g → between e g) : c.Stays terms target f between' :=
  fun hkind hsame =>
    ⟨(h hkind hsame).1, fun e g hbetween => (h hkind hsame).2 e g (hle e g hbetween)⟩

theorem Charge.Stays.inCurrency {terms : Terms} {target : Moment} {f : Event}
    {between : Event → Event → Prop} {c : Charge} (h : c.Stays terms target f between)
    (currency : LooseText) : (c.inCurrency currency).Stays terms target f between :=
  fun hkind hsame => ⟨(h hkind hsame).1, fun e g hbetween hcut =>
    (h hkind hsame).2 e g hbetween hcut.inCurrency⟩

namespace Event

variable {e f : Event} {successor : Option Event} {terms : Terms} {target target' : Moment}
  {currency : LooseText} {charges charges' kept : List Charge}

theorem charges_sublist (h : e.charges successor terms target currency = .ok charges)
    (h' : e.charges successor terms target' currency = .ok charges')
    (hle : target.instant ≤ target'.instant) : charges.Sublist charges' := by
  rw [charges_eq_filter h h' hle]
  exact List.filter_sublist

theorem fixedCharges_sublist (h : e.fixedCharges target currency = .ok charges)
    (h' : e.fixedCharges target' currency = .ok charges')
    (hle : target.instant ≤ target'.instant) : charges.Sublist charges' := by
  obtain ⟨-, h⟩ := fixedCharges_eq_ok.mp h
  obtain ⟨-, h'⟩ := fixedCharges_eq_ok.mp h'
  split at h
  · cases h
    exact List.nil_sublist _
  · rw [if_neg (by omega)] at h'
    cases h.symm.trans h'
    exact .refl _

/-- The event bills two pieces under one key. -/
def BillsAlike (e : Event) (terms : Terms) (currency : LooseText) (rate : Decimal) (s s' : Span) :
    Prop :=
  ∀ c c', e.recurringCharge terms currency rate s = .ok c →
    e.recurringCharge terms currency rate s' = .ok c' → c.key = c'.key

instance (rate : Decimal) : Std.Refl (e.BillsAlike terms currency rate) :=
  ⟨fun _ _ _ h h' => congrArg Charge.key (Except.ok.inj (h.symm.trans h'))⟩

theorem billsAlike_of {rate : Decimal} {s s' : Span} (hstart : s.start = s'.start)
    (hstop : s.stop.mark = s'.stop.mark)
    (hamount : ∀ amount amount', terms.charge s.cycles rate = .ok amount →
      terms.charge s'.cycles rate = .ok amount' → amount.canonical = amount'.canonical) :
    e.BillsAlike terms currency rate s s' := by
  intro c c' hc hc'
  obtain ⟨amount, h, rfl⟩ := recurringCharge_eq_ok.mp hc
  obtain ⟨amount', h', rfl⟩ := recurringCharge_eq_ok.mp hc'
  simp only [Charge.key, charge, Charge.kind, Option.map_some, hstart, hstop, hamount _ _ h h']

theorem keys_sublist_of_alike {rate : Decimal} {pieces pieces' : List Span}
    (h : List.SublistForall₂ (e.BillsAlike terms currency rate) pieces pieces')
    (hcharges : List.Forall₂ (fun s c => e.recurringCharge terms currency rate s = .ok c) pieces
      charges)
    (hcharges' : List.Forall₂ (fun s c => e.recurringCharge terms currency rate s = .ok c) pieces'
      charges') : (charges.map Charge.key).Sublist (charges'.map Charge.key) := by
  induction h generalizing charges charges' with
  | nil =>
    cases hcharges
    exact List.nil_sublist _
  | cons halike _ ih =>
    cases hcharges with
    | cons hc hcharges =>
      cases hcharges' with
      | cons hc' hcharges' =>
        rw [List.map_cons, List.map_cons, halike _ _ hc hc']
        exact (ih hcharges hcharges').cons_cons _
  | cons_right _ ih =>
    cases hcharges' with
    | cons _ hcharges' => exact (ih hcharges hcharges').cons _

/-- A stub up to `g` that is not cut anew has its counterpart up to `f`. -/
theorem billsAlike_of_not_cutAnew {g : Event} {own : List Charge} {rate : Decimal} {s : Span}
    {c : Charge} {first low high : Moment} (hsame : Moment.Comparable g.effective f.effective)
    (hown : e.charges (some g) terms target currency = .ok own) (hmem : c ∈ own)
    (hcharge : e.recurringCharge terms currency rate s = .ok c) (hstop : s.stop = g.effective)
    (hinstant : g.effective.instant = f.effective.instant)
    (hfirst : firstDate e.effective e.cycleDay.day = .ok first)
    (hstub : s.Stub ⟨first, e.period.months, e.cycleDay.day⟩ low high)
    (hanew : ¬c.CutAnew terms target f e g) :
    0 < s.start.daysBetween f.effective ∧
      e.BillsAlike terms currency rate s (Proration.share s.start f.effective low high) := by
  by_contra hnone
  obtain ⟨amount, hamount, rfl⟩ := recurringCharge_eq_ok.mp hcharge
  have hmark : s.stop.mark = f.effective.mark := by
    rw [hstop]
    exact Moment.mark_congr hsame hinstant
  have hcycles := hstub.part.cycles
  refine hanew ⟨⟨own, hown, hmem⟩, congrArg some hstop, hinstant, fun hdate => ?_, first, low, high,
    rate, hfirst, hstub.full, hstub.part.low_le, hstop ▸ hstub.lt_high, rfl,
    fun amount' hdays hamount' heq => ?_⟩
  · -- on one date there are as many days
    have hdays : s.start.daysBetween s.stop = s.start.daysBetween f.effective := by
      rw [hstop]
      unfold Moment.daysBetween
      rw [hdate]
    refine hnone ⟨hdays ▸ hstub.part.days_pos, billsAlike_of rfl hmark fun a a' ha ha' => ?_⟩
    rw [hcycles, hdays] at ha
    exact congrArg Decimal.canonical (Except.ok.inj (ha.symm.trans ha'))
  · refine hnone ⟨hdays, billsAlike_of rfl hmark fun a a' ha ha' => ?_⟩
    obtain rfl := Except.ok.inj (ha.symm.trans hamount)
    obtain rfl := Except.ok.inj (ha'.symm.trans hamount')
    exact heq.symm

/-- The recurring charges of the event whose stretch the late one cuts short. -/
theorem recurringCharges_cap {own : List Charge}
    (hown : e.charges successor terms target currency = .ok own) (hcharges : ∀ c ∈ charges, c ∈ own)
    (h : e.recurringCharges successor terms target currency = .ok charges)
    (h' : e.recurringCharges (some f) terms target' currency = .ok charges')
    (hle : target.instant ≤ target'.instant) (hkept : kept.Sublist charges)
    (hover : ∀ c ∈ kept, ∃ stop, c.stop = some stop ∧ stop.instant ≤ f.effective.instant)
    (hsuccessor : ∀ g, successor = some g → Moment.Comparable g.effective f.effective ∧
      f.effective.instant ≤ g.effective.instant ∧ ∀ c ∈ kept, ¬c.CutAnew terms target f e g) :
    (kept.map Charge.key).Sublist (charges'.map Charge.key) := by
  rcases recurringCharges_cases h with rfl | ⟨hrecurs, hdue, rate, hprice⟩
  · rw [List.sublist_nil.mp hkept]
    exact List.nil_sublist _
  obtain ⟨pieces, hpieces, hbilled⟩ := recurringCharges_of_due hrecurs hdue hprice h
  obtain ⟨pieces', hpieces', hbilled'⟩ :=
    recurringCharges_of_due hrecurs (Int.le_trans hdue hle) hprice h'
  obtain ⟨keptPieces, hsub, hkeptBilled⟩ := exists_sublist_left hbilled hkept
  have hcharge : ∀ s ∈ keptPieces, ∃ c ∈ kept, e.recurringCharge terms currency rate s = .ok c :=
    fun s hs => exists_of_mem_right hkeptBilled.flip hs
  have hcap : ∀ t, successor.map (·.effective) = some t → f.effective.instant ≤ t.instant := by
    intro t ht
    obtain ⟨g, hg, rfl⟩ := Option.map_eq_some_iff.mp ht
    exact (hsuccessor g hg).2.1
  have halike : List.SublistForall₂ (e.BillsAlike terms currency rate) keptPieces pieces' := by
    refine Proration.spans_cap hpieces hpieces' hle hcap hsub (fun s hs => ?_)
      fun s hs hstop hinstant first low high hfirst hstub => ?_
    · obtain ⟨c, hc, hcharge⟩ := hcharge s hs
      obtain ⟨amount, -, rfl⟩ := recurringCharge_eq_ok.mp hcharge
      obtain ⟨stop, hstop, hle⟩ := hover _ hc
      cases hstop
      exact hle
    · obtain ⟨c, hc, hcharge⟩ := hcharge s hs
      obtain ⟨g, hg, hend⟩ := Option.map_eq_some_iff.mp hstop
      obtain ⟨hcomparable, -, hanew⟩ := hsuccessor g hg
      rw [hg] at hown
      exact billsAlike_of_not_cutAnew hcomparable hown (hcharges c (hkept.subset hc)) hcharge
        hend.symm (hend ▸ hinstant) hfirst hstub (hanew c hc)
  exact keys_sublist_of_alike halike hkeptBilled hbilled'

/-- The charges of the event whose stretch the late one cuts short. -/
theorem charges_cap (h : e.charges successor terms target currency = .ok charges)
    (h' : e.charges (some f) terms target' currency = .ok charges')
    (hle : target.instant ≤ target'.instant) (hkept : kept.Sublist charges)
    (hover : ∀ c ∈ kept, c.kind = .recurring →
      ∃ stop, c.stop = some stop ∧ stop.instant ≤ f.effective.instant)
    (hsuccessor : ∀ g, successor = some g → Moment.Comparable g.effective f.effective ∧
      f.effective.instant ≤ g.effective.instant ∧
        ∀ c ∈ kept, c.kind = .recurring → ¬c.CutAnew terms target f e g) :
    (kept.map Charge.key).Sublist (charges'.map Charge.key) := by
  obtain ⟨fixed, recurring, hfixed, hrecurring, rfl⟩ := charges_eq_ok.mp h
  obtain ⟨fixed', recurring', hfixed', hrecurring', rfl⟩ := charges_eq_ok.mp h'
  obtain ⟨keptFixed, keptRecurring, rfl, hkeptFixed, hkeptRecurring⟩ :=
    List.sublist_append_iff.mp hkept
  have hkind : ∀ c ∈ keptRecurring, c.kind = .recurring := fun c hc =>
    kind_of_mem_recurringCharges hrecurring (hkeptRecurring.subset hc)
  rw [List.map_append, List.map_append]
  refine ((hkeptFixed.trans (fixedCharges_sublist hfixed hfixed' hle)).map _).append
    (recurringCharges_cap h (fun c hc => List.mem_append_right fixed hc) hrecurring hrecurring' hle
      hkeptRecurring (fun c hc => hover c (List.mem_append_right _ hc) (hkind c hc))
      fun g hg => ?_)
  obtain ⟨hcomparable, hlater, hanew⟩ := hsuccessor g hg
  exact ⟨hcomparable, hlater, fun c hc => hanew c (List.mem_append_right _ hc) (hkind c hc)⟩

end Event

namespace Timeline

variable {f : Event} {events earlier later : List Event} {terms : Terms} {target target' : Moment}
  {currency : LooseText} {charges charges' kept : List Charge}

/-- A late event is the successor of the last event before it, or changes nothing for an event. -/
theorem successor_insert (e f : Event) (earlier later : List Event) :
    successor e (earlier ++ f :: later) = successor e (earlier ++ later) ∨
      e.subscription = f.subscription ∧ successor e earlier = none ∧
        successor e (earlier ++ f :: later) = some f ∧
        successor e (earlier ++ later) = successor e later := by
  unfold successor
  rw [List.find?_append, List.find?_append]
  cases hearlier : earlier.find? (·.subscription = e.subscription) with
  | some g => exact .inl rfl
  | none =>
    by_cases hsame : f.subscription = e.subscription
    · exact .inr ⟨hsame.symm, rfl, by simp [hsame], rfl⟩
    · exact .inl (by simp [hsame])

/-- The late event comes between an event and its successor, where there is one. -/
theorem between_of_successor {e g : Event} (hsame : e.subscription = f.subscription)
    (hearlier : successor e earlier = none) (hlater : successor e later = some g) :
    Event.Between (e :: earlier) later f e g := by
  unfold successor at hearlier hlater
  rw [hsame] at hearlier hlater
  refine ⟨?_, hlater⟩
  have hnone : earlier.filter (·.subscription = f.subscription) = [] :=
    List.filter_eq_nil_iff.mpr (List.find?_eq_none.mp hearlier)
  rw [List.filter_cons_of_pos (by simpa using hsame), hnone]
  rfl

theorem chargesOf_sublist (h : chargesOf terms target currency events = .ok charges)
    (h' : chargesOf terms target' currency events = .ok charges')
    (hle : target.instant ≤ target'.instant) : charges.Sublist charges' := by
  rw [chargesOf_eq_filter h h' hle]
  exact List.filter_sublist

/-- **A late event leaves the charges that stay.** -/
theorem chargesOf_insert
    (hlater : ∀ e ∈ later, Moment.Comparable f.effective e.effective ∧
      f.effective.instant ≤ e.effective.instant)
    (h : chargesOf terms target currency (earlier ++ later) = .ok charges)
    (h' : chargesOf terms target' currency (earlier ++ f :: later) = .ok charges')
    (hle : target.instant ≤ target'.instant) (hkept : kept.Sublist charges)
    (hstays : ∀ c ∈ kept, c.Stays terms target f (Event.Between earlier later f)) :
    (kept.map Charge.key).Sublist (charges'.map Charge.key) := by
  induction earlier generalizing charges charges' kept with
  | nil =>
    obtain ⟨first', rest', -, hrest', rfl⟩ := chargesOf_cons_eq_ok.mp h'
    have hsub := hkept.trans (chargesOf_sublist h hrest' hle)
    exact (hsub.trans (List.sublist_append_right first' rest')).map _
  | cons e earlier ih =>
    rw [List.cons_append] at h h'
    obtain ⟨first, rest, hfirst, hrest, rfl⟩ := chargesOf_cons_eq_ok.mp h
    obtain ⟨first', rest', hfirst', hrest', rfl⟩ := chargesOf_cons_eq_ok.mp h'
    obtain ⟨own, others, rfl, hown, hothers⟩ := List.sublist_append_iff.mp hkept
    rw [List.map_append, List.map_append]
    refine List.Sublist.append ?_ (ih hrest hrest' hothers fun c hc =>
      (hstays c (List.mem_append_right own hc)).mono fun _ _ hbetween => hbetween.cons e)
    rcases successor_insert e f earlier later with hunchanged | ⟨hsame, hnone, hnew, hold⟩
    · rw [hunchanged] at hfirst'
      exact (hown.trans (Event.charges_sublist hfirst hfirst' hle)).map _
    · rw [hnew] at hfirst'
      rw [hold] at hfirst
      have hstay : ∀ c ∈ own, c.kind = .recurring → _ := fun c hc hkind =>
        hstays c (List.mem_append_left others hc) hkind
          ((Event.bills_of_mem_charges hfirst (hown.subset hc)).subscription.trans hsame)
      refine Event.charges_cap hfirst hfirst' hle hown (fun c hc hkind => (hstay c hc hkind).1)
        fun g hg => ?_
      obtain ⟨hcomparable, hlate⟩ := hlater g (List.mem_of_find?_eq_some hg)
      exact ⟨hcomparable.symm, hlate, fun c hc hkind =>
        (hstay c hc hkind).2 e g (between_of_successor hsame hnone hg)⟩

end Timeline

/-- Among the others in order of time, `f` comes between `e` and `g`. -/
def Event.EntersBetween (before after : List Event) (f e g : Event) : Prop :=
  ∃ earlier later, Timeline.of (before ++ f :: after) = .ok ⟨earlier ++ f :: later⟩ ∧
    Event.Between earlier later f e g

/-- The same of charges as items, with the late event put in its place. -/
theorem Timeline.expand_insert {before after : List Event} {f : Event}
    {timeline timeline' : Timeline}
    (h : Timeline.of (before ++ after) = .ok timeline)
    (h' : Timeline.of (before ++ f :: after) = .ok timeline') {terms : Terms}
    {target target' : Moment} (hle : target.instant ≤ target'.instant) {now now' : Moment}
    {ids ids' : Nat → Uuid} {invoice invoice' : Uuid} {currency currency' : LooseText}
    {items items' kept : List Item}
    (hexpand : timeline.expand terms now ids invoice target currency = .ok items)
    (hexpand' : timeline'.expand terms now' ids' invoice' target' currency' = .ok items')
    (hkept : kept.Sublist items)
    (hstays : ∀ i ∈ kept, i.charge.Stays terms target f (f.EntersBetween before after)) :
    (keys kept).Sublist (keys items') := by
  obtain ⟨earlier, later, hnew, hold⟩ := of_insert h h'
  have hsorted := sorted_of_of h'
  rw [hnew, List.pairwise_append, List.pairwise_cons] at hsorted
  have hcharges := chargesOf_inCurrency (map_charge_of_expand hexpand) currency'
  have hcharges' := map_charge_of_expand hexpand'
  unfold Timeline.charges at hcharges'
  rw [hold] at hcharges
  rw [hnew] at hcharges'
  -- neither the key of a charge nor whether it stays depends on the currency
  have hstay := chargesOf_insert (fun e he => hsorted.2.1.1 e he) hcharges hcharges' hle
    ((hkept.map _).map _) fun c hc => ?_
  · rw [← keys_eq_map_charge, List.map_map, List.map_map] at hstay
    exact hstay
  · rw [List.map_map] at hc
    obtain ⟨i, hi, rfl⟩ := List.mem_map.mp hc
    refine ((hstays i hi).mono fun e g hbetween => ⟨earlier, later, ?_, hbetween⟩).inCurrency _
    rw [← hnew]
    exact h'

/-! ### Credits for what does not stay -/

/-- A run on an account without invoices bills some of what it proposes, through the target it was
asked for. -/
theorem Ran.of_none_issued {o : Occasion} {events : List Event} {r : RunRequest}
    {timeline : Timeline} {target : Moment} {proposed new : List Item}
    (h : Ran o events [] r timeline target proposed new) :
    new.Sublist proposed ∧ target = r.target := by
  obtain ⟨charges, taken, credited, rfl, hsettled, -⟩ := h.settled
  obtain rfl : taken = [] := List.subperm_nil.mp hsettled.taken_le
  obtain rfl : credited = [] := List.forall₂_nil_right_iff.mp hsettled.credited
  rw [List.append_nil]
  refine ⟨hsettled.charges_le, ?_⟩
  have hraised := h.raised
  cases hraised
  rfl

/-- What a run takes back is not proposed as often as it was billed. -/
theorem Ran.count_lt_of_credit {o : Occasion} {events : List Event} {issued : List Invoice}
    {r : RunRequest} {timeline : Timeline} {target : Moment} {proposed new : List Item}
    (h : Ran o events issued r timeline target proposed new) {c : Item} (hc : c ∈ new)
    (hcredit : c.reverses ≠ none) :
    ∃ i ∈ itemsOn issued, Credits c i ∧ i.charge.kind = .recurring ∧
      (keys proposed).count i.key < (keys (itemsOn issued)).count i.key := by
  obtain ⟨charges, taken, credited, rfl, hsettled, hcharges⟩ := h.settled
  rcases List.mem_append.mp hc with hc | hc
  · exact absurd (hcharges c hc) hcredit
  obtain ⟨i, hi, hcredits⟩ := exists_of_mem_right hsettled.credited.flip hc
  have hsurviving := hsettled.taken_le.subset hi
  have hpos : 0 < (keys taken).count i.key := List.count_pos_iff.mpr (List.mem_map_of_mem hi)
  have hcount := hsettled.count_taken i.key
  have hle : (keys (surviving (itemsOn issued))).count i.key ≤
      (keys (itemsOn issued)).count i.key :=
    (List.filter_sublist.map Item.key).count_le i.key
  split at hcount
  · rename_i hkind
    exact ⟨i, (mem_surviving.mp hsurviving).1, hcredits, hkind, by omega⟩
  · omega

/-- **A late event takes back only what does not stay.** -/
theorem credits_of_late_event {before after : List Event} {f : Event} {o o' : Occasion}
    (hterms : o'.terms = o.terms) {r r' : RunRequest}
    (hle : r.target.instant ≤ r'.target.instant) {result : Option Invoice} {v : Invoice}
    (hrun : o.run (before ++ after) [] r = .ok result)
    (hrun' : o'.run (before ++ f :: after) result.toList r' = .ok (some v)) {c : Item}
    (hc : c ∈ v.items) (hcredit : c.reverses ≠ none) :
    ∃ i ∈ billed result, Credits c i ∧ i.charge.kind = .recurring ∧
      (∃ stop, i.charge.stop = some stop) ∧ ∃ j ∈ billed result, j.key = i.key ∧
        ¬j.charge.Stays o.terms r.target f (f.EntersBetween before after) := by
  obtain ⟨-, timeline', proposed', hran'⟩ := ran_of_run_some hrun'
  obtain ⟨i, hi, hcredits, hkind, hcount⟩ := hran'.count_lt_of_credit hc hcredit
  rw [itemsOn_toList] at hi hcount
  refine ⟨i, hi, hcredits, hkind, ?_⟩
  rcases run_cases hrun with ⟨-, rfl⟩ | ⟨timeline, target, proposed, new, hran, rfl⟩
  · cases hi
  rw [billed_invoice] at hi hcount ⊢
  obtain ⟨hnew, rfl⟩ := hran.of_none_issued
  obtain ⟨_, _, _, _, hbills⟩ := hran.bills (hnew.subset hi)
  refine ⟨hbills.closed hkind, ?_⟩
  by_contra hall
  -- the second run bills through the target that it was asked for
  have htarget' : r.target.instant ≤ v.target.instant :=
    Int.le_trans hle (Moment.le_eq_true.mp hran'.latest.target_le).2
  have hexpanded' := hran'.expanded
  rw [hterms] at hexpanded'
  -- all that was billed under this key stays, so it is proposed again
  have hstay := Timeline.expand_insert hran.ordered hran'.ordered htarget' hran.expanded hexpanded'
    ((List.filter_sublist (p := fun j => j.key = i.key)).trans hnew) fun j hj => by
      rw [List.mem_filter, decide_eq_true_eq] at hj
      by_contra hstays
      exact hall ⟨j, hj.1, hj.2, hstays⟩
  have hagain := hstay.count_le i.key
  have hbilled : (keys (new.filter fun j => j.key = i.key)).count i.key =
      (keys new).count i.key := by
    rw [keys, keys, List.count_eq_countP, List.count_eq_countP, List.countP_map, List.countP_map,
      List.countP_filter]
    exact List.countP_congr fun j _ => by simp
  omega

/-! ### The law -/

namespace Sample

/-- The end of the subscription. -/
def ending (effective : Moment) : Event :=
  { event with
    effective, period := .none, fixedPrice := none, recurringPrice := none, phaseLength := none }

/-- February up to the tenth, and the credit for the whole month. -/
def cutShort : Invoice where
  id := uuid 110
  account := uuid 2
  date := day 1 12
  target := day 2 20
  currency := .text "USD"
  items := [
    (charge (day 2 1) (some (day 2 10)) (hundredths 931) (.recurring (hundredths 3000) none)).issue
      (uuid 113) (uuid 110) (day 1 12),
    (charge (day 2 1) (some (day 3 1)) ⟨true, 3000, -2⟩
      (.recurring (hundredths 3000) (some (uuid 103)))).issue (uuid 114) (uuid 110) (day 1 12)]

theorem run_ending : (⟨.standard, day 1 12, supply 1⟩ : Occasion).run [event, ending (day 2 10)]
    [opening] { request with target := day 2 20 } = .ok (some cutShort) := by
  have htimeline : Timeline.of [event, ending (day 2 10)] = .ok ⟨[event, ending (day 2 10)]⟩ :=
    Timeline.of_eq_self (by decide) (by decide)
  exact (run_eq_ok (by decide)).mpr ⟨_, day 2 20,
    again 1 (opening.items.take 2 ++ cutShort.items.take 1), cutShort.items,
    ⟨htimeline, by decide, by decide, by decide +kernel, _, arrange_opening, by decide +kernel⟩,
    rfl⟩

/-- Half past midnight on the tenth of January. -/
def tenth : Moment := { day 1 10 with clock := 1800000000, clock_lt := by decide }

/-- The same instant an hour to the west, where it is still the ninth. -/
def ninth : Moment :=
  { day 1 9 with clock := 84600000000, clock_lt := by decide, offset := some ⟨-60, by decide⟩ }

/-- One a day in January. -/
def daily : Event :=
  { event with effective := day 1 1, fixedPrice := none, recurringPrice := some (hundredths 3100) }

/-- The first nine days of January. -/
def nineDays : Invoice where
  id := uuid 100
  account := uuid 2
  date := day 1 12
  target := day 2 5
  currency := .text "USD"
  items := [(charge (day 1 1) (some tenth) (hundredths 900)
    (.recurring (hundredths 3100) none)).issue (uuid 101) (uuid 100) (day 1 12)]

/-- Eight days instead of nine. -/
def eightDays : Invoice where
  id := uuid 110
  account := uuid 2
  date := day 1 12
  target := day 2 5
  currency := .text "USD"
  items := [
    (charge (day 1 1) (some ninth) (hundredths 800) (.recurring (hundredths 3100) none)).issue
      (uuid 111) (uuid 110) (day 1 12),
    (charge (day 1 1) (some tenth) ⟨true, 900, -2⟩
      (.recurring (hundredths 3100) (some (uuid 101)))).issue (uuid 112) (uuid 110) (day 1 12)]

/-- An end at the same instant that comes after the other, and reads the day before. -/
def tied : Event := { ending ninth with ordering := 1 }

/-- An event that comes last does not come between others. -/
theorem not_entersBetween {before after events : List Event} {f e g : Event}
    (h : Timeline.of (before ++ f :: after) = .ok ⟨events ++ [f]⟩) (hnew : f ∉ events) :
    ¬f.EntersBetween before after e g := by
  rintro ⟨earlier, later, hentered, -, hnext⟩
  have hevents : events ++ [f] = earlier ++ f :: later :=
    congrArg Timeline.events (Except.ok.inj (h.symm.trans hentered))
  rcases List.append_eq_append_iff.mp hevents with ⟨middle, -, hlast⟩ | ⟨middle, rfl, hlast⟩
  · have hlength := congrArg List.length hlast
    obtain rfl : later = [] := List.length_eq_zero_iff.mp (by simp at hlength; omega)
    cases hnext
  · cases middle with
    | nil =>
      cases hlast
      cases hnext
    | cons x middle =>
      obtain rfl := (List.cons.inj hlast).1
      simp at hnew

end Sample

end BillRun
