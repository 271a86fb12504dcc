import BillRun.Charge.Expansion
import BillRun.Proofs.Pieces

/-! What a timeline charges, and what becomes of it as the target moves on.

A charge takes its place in time from the event that bills it (`Event.Bills`). An event charges
nothing before it takes effect; from then on its fixed charge stays as it is and its pieces only
grow in number. So the charges through an earlier target are exactly those through a later one that
start by the earlier target (`chargesOf_eq_filter`). -/
namespace BillRun

open Calendar

/-- The charge starts by the target. -/
def Charge.startsBy (target : Moment) (c : Charge) : Bool := c.start.instant ≤ target.instant

/-- The same charge in another currency. -/
def Charge.inCurrency (currency : LooseText) (c : Charge) : Charge := { c with currency }

namespace Event

/-! ### An event once it is in effect -/

/-- The fixed charge of an event, once it is in effect. -/
def upfront (e : Event) (currency : LooseText) : Except Fault (List Charge) :=
  match e.fixedPrice with
  | none => return []
  | some price => do
    let stop ← match e.phaseLength with
      | none => pure none
      | some length => length.after e.effective
    return [e.charge e.effective stop price currency .fixed]

/-- The recurring charges of an event, once it is in effect. -/
def perCycle (e : Event) (successor : Option Event) (terms : Terms) (target : Moment)
    (currency : LooseText) : Except Fault (List Charge) := do
  e.mode.check
  let pieces ← Proration.spans e.effective (successor.map (·.effective)) target e.cycleDay.day
    e.period
  match e.recurringPrice with
  | none => return []
  | some rate => pieces.mapM (e.recurringCharge terms currency rate)

variable {e : Event} {successor : Option Event} {terms : Terms} {target target' : Moment}
  {currency : LooseText} {charges charges' : List Charge}

theorem fixedCharges_eq_ok :
    e.fixedCharges target currency = .ok charges ↔ Moment.Comparable target e.effective ∧
      (if target.instant < e.effective.instant then .ok [] else e.upfront currency) =
        .ok charges :=
  Moment.lt_branch_eq_ok

theorem recurringCharges_eq (e : Event) (successor : Option Event) (terms : Terms)
    (target : Moment) (currency : LooseText) :
    e.recurringCharges successor terms target currency =
      if (!e.recurs) = true then .ok []
      else e.effective.le target >>= fun due =>
        if due = true then e.perCycle successor terms target currency else .ok [] := rfl

theorem recurringCharges_eq_ok :
    e.recurringCharges successor terms target currency = .ok charges ↔
      e.recurs = false ∧ charges = [] ∨
        e.recurs = true ∧ Moment.Comparable e.effective target ∧
          (if e.effective.instant ≤ target.instant then
            e.perCycle successor terms target currency else .ok []) = .ok charges := by
  rw [recurringCharges_eq]
  cases e.recurs with
  | false => simp [eq_comm]
  | true =>
    rw [Bool.not_true, if_neg Bool.false_ne_true, Moment.le_branch_eq_ok]
    simp

theorem perCycle_eq_ok :
    e.perCycle successor terms target currency = .ok charges ↔ e.mode.check = .ok () ∧
      ∃ pieces, Proration.spans e.effective (successor.map (·.effective)) target e.cycleDay.day
        e.period = .ok pieces ∧
        match e.recurringPrice with
        | none => charges = []
        | some rate => pieces.mapM (e.recurringCharge terms currency rate) = .ok charges := by
  unfold perCycle
  rw [bind_eq_ok]
  constructor
  · rintro ⟨_, hmode, h⟩
    obtain ⟨pieces, hpieces, h⟩ := bind_eq_ok.mp h
    refine ⟨hmode, pieces, hpieces, ?_⟩
    cases hprice : e.recurringPrice with
    | none => simpa [hprice, eq_comm] using h
    | some rate => simpa [hprice] using h
  · rintro ⟨hmode, pieces, hpieces, h⟩
    refine ⟨(), hmode, bind_eq_ok.mpr ⟨pieces, hpieces, ?_⟩⟩
    cases hprice : e.recurringPrice with
    | none => simpa [hprice, eq_comm] using h
    | some rate => simpa [hprice] using h

theorem charges_eq_ok :
    e.charges successor terms target currency = .ok charges ↔
      ∃ fixed recurring, e.fixedCharges target currency = .ok fixed ∧
        e.recurringCharges successor terms target currency = .ok recurring ∧
        charges = fixed ++ recurring := by
  unfold Event.charges
  rw [bind_eq_ok]
  constructor
  · rintro ⟨fixed, hfixed, h⟩
    obtain ⟨recurring, hrecurring, h⟩ := bind_eq_ok.mp h
    cases h
    exact ⟨fixed, recurring, hfixed, hrecurring, rfl⟩
  · rintro ⟨fixed, recurring, hfixed, hrecurring, rfl⟩
    exact ⟨fixed, hfixed, bind_eq_ok.mpr ⟨recurring, hrecurring, rfl⟩⟩

theorem recurringCharge_eq_ok {rate : Decimal} {s : Span} {c : Charge} :
    e.recurringCharge terms currency rate s = .ok c ↔ ∃ amount,
      terms.charge s.cycles rate = .ok amount ∧
        c = e.charge s.start s.stop amount currency (.recurring rate none) := by
  unfold recurringCharge
  rw [bind_eq_ok]
  exact exists_congr fun amount => and_congr_right fun _ => by rw [pure_eq_ok]; simp [eq_comm]

/-- What an event charges per cycle, once it is in effect. -/
theorem recurringCharges_of_due {rate : Decimal} (hrecurs : e.recurs = true)
    (hdue : e.effective.instant ≤ target.instant) (hprice : e.recurringPrice = some rate)
    (h : e.recurringCharges successor terms target currency = .ok charges) :
    ∃ pieces, Proration.spans e.effective (successor.map (·.effective)) target e.cycleDay.day
      e.period = .ok pieces ∧
      List.Forall₂ (fun s c => e.recurringCharge terms currency rate s = .ok c) pieces charges := by
  rcases recurringCharges_eq_ok.mp h with ⟨hnone, -⟩ | ⟨-, -, h⟩
  · simp [hnone] at hrecurs
  rw [if_pos hdue] at h
  obtain ⟨-, pieces, hpieces, h⟩ := perCycle_eq_ok.mp h
  simp only [hprice] at h
  exact ⟨pieces, hpieces, mapM_eq_ok.mp h⟩

/-- An event that charges something per cycle recurs, is in effect and has a price. -/
theorem recurringCharges_cases
    (h : e.recurringCharges successor terms target currency = .ok charges) :
    charges = [] ∨ e.recurs = true ∧ e.effective.instant ≤ target.instant ∧
      ∃ rate, e.recurringPrice = some rate := by
  rcases recurringCharges_eq_ok.mp h with ⟨-, hnil⟩ | ⟨hrecurs, -, h⟩
  · exact .inl hnil
  split at h
  case isFalse =>
    cases h
    exact .inl rfl
  obtain ⟨-, pieces, -, h⟩ := perCycle_eq_ok.mp h
  split at h
  · exact .inl h
  · exact .inr ⟨hrecurs, ‹_›, _, ‹_›⟩

/-! ### Where charges come from -/

/-- What a charge takes from the event that bills it. -/
structure Bills (e : Event) (successor : Option Event) (terms : Terms) (target : Moment)
    (c : Charge) : Prop where
  subscription : c.subscription = e.subscription
  reverses : c.basis.reverses = none
  aligned : c.start.Aligned e.effective
  effective_le : e.effective.instant ≤ c.start.instant
  start_le : c.start.instant ≤ target.instant
  stop : ∀ t, c.stop = some t → t.Aligned e.effective ∨ successor.map (·.effective) = some t
  closed : c.kind = .recurring → ∃ t, c.stop = some t
  amount : c.kind = .recurring → ∃ cycles rate, terms.charge cycles rate = .ok c.amount

theorem aligned_of_after {length : PhaseLength} {t u : Moment}
    (h : length.after t = .ok (some u)) : u.Aligned t := by
  unfold PhaseLength.after at h
  have hmonths {n : Int} {u : Moment} (h : t.addMonths n = .ok u) : u.Aligned t := by
    obtain ⟨month, -, h⟩ := bind_eq_ok.mp h
    cases h
    exact ⟨rfl, rfl⟩
  have hmap {x : Except Fault Moment} (h : some <$> x = .ok (some u)) : x = .ok u := by
    cases x with
    | error f => cases h
    | ok v =>
      cases h
      rfl
  split at h
  · cases h
  · cases h
    exact .refl _
  · have hdays := hmap h
    unfold Moment.addDays at hdays
    split at hdays
    · cases hdays
    · split at hdays
      · cases hdays
        exact ⟨rfl, rfl⟩
      · cases hdays
  · exact hmonths (hmap h)
  · exact hmonths (hmap h)

theorem mem_upfront (h : e.upfront currency = .ok charges) {c : Charge} (hc : c ∈ charges) :
    ∃ stop price, c = e.charge e.effective stop price currency .fixed ∧
      ∀ t, stop = some t → t.Aligned e.effective := by
  unfold upfront at h
  split at h
  · cases h
    cases hc
  · rename_i price _
    split at h
    · cases h
      obtain rfl := List.mem_singleton.mp hc
      refine ⟨none, price, rfl, fun t ht => ?_⟩
      cases ht
    · obtain ⟨stop, hstop, h⟩ := bind_eq_ok.mp h
      cases h
      obtain rfl := List.mem_singleton.mp hc
      refine ⟨stop, price, rfl, ?_⟩
      rintro t rfl
      exact aligned_of_after hstop

theorem kind_of_mem_fixedCharges (h : e.fixedCharges target currency = .ok charges) {c : Charge}
    (hc : c ∈ charges) : c.kind = .fixed := by
  obtain ⟨-, h⟩ := fixedCharges_eq_ok.mp h
  split at h
  · cases h
    cases hc
  · obtain ⟨stop, price, rfl, -⟩ := mem_upfront h hc
    rfl

theorem kind_of_mem_recurringCharges
    (h : e.recurringCharges successor terms target currency = .ok charges) {c : Charge}
    (hc : c ∈ charges) : c.kind = .recurring := by
  rcases recurringCharges_cases h with rfl | ⟨hrecurs, hdue, rate, hprice⟩
  · cases hc
  obtain ⟨pieces, -, hcharges⟩ := recurringCharges_of_due hrecurs hdue hprice h
  obtain ⟨s, -, hcharge⟩ := exists_of_mem_right hcharges hc
  obtain ⟨amount, -, rfl⟩ := recurringCharge_eq_ok.mp hcharge
  rfl

/-- What an event charges per cycle is its price for one of its pieces. -/
theorem exists_piece_of_recurring (h : e.charges successor terms target currency = .ok charges)
    {c : Charge} (hc : c ∈ charges) (hkind : c.kind = .recurring) :
    ∃ rate pieces s, e.recurringPrice = some rate ∧
      Proration.spans e.effective (successor.map (·.effective)) target e.cycleDay.day e.period =
        .ok pieces ∧
      s ∈ pieces ∧ terms.charge s.cycles rate = .ok c.amount ∧
      c = e.charge s.start s.stop c.amount currency (.recurring rate none) := by
  obtain ⟨fixed, recurring, hfixed, hrecurring, rfl⟩ := charges_eq_ok.mp h
  rcases List.mem_append.mp hc with hc | hc
  · rw [kind_of_mem_fixedCharges hfixed hc] at hkind
    cases hkind
  · rcases recurringCharges_cases hrecurring with rfl | ⟨hrecurs, hdue, rate, hprice⟩
    · cases hc
    obtain ⟨pieces, hpieces, hcharges⟩ := recurringCharges_of_due hrecurs hdue hprice hrecurring
    obtain ⟨s, hs, hcharge⟩ := exists_of_mem_right hcharges hc
    obtain ⟨amount, hamount, rfl⟩ := recurringCharge_eq_ok.mp hcharge
    exact ⟨rate, pieces, s, hprice, hpieces, hs, hamount, rfl⟩

theorem bills_of_mem_charges (h : e.charges successor terms target currency = .ok charges)
    {c : Charge} (hc : c ∈ charges) : e.Bills successor terms target c := by
  obtain ⟨fixed, recurring, hfixed, hrecurring, rfl⟩ := charges_eq_ok.mp h
  rcases List.mem_append.mp hc with hc | hc
  · obtain ⟨-, hfixed⟩ := fixedCharges_eq_ok.mp hfixed
    split at hfixed
    · cases hfixed
      cases hc
    · rename_i hdue
      obtain ⟨stop, price, rfl, hstop⟩ := mem_upfront hfixed hc
      exact ⟨rfl, rfl, .refl _, Int.le_refl _, Int.not_lt.mp hdue, fun t ht => .inl (hstop t ht),
        nofun, nofun⟩
  · rcases recurringCharges_cases hrecurring with rfl | ⟨hrecurs, hdue, rate, hprice⟩
    · cases hc
    obtain ⟨pieces, hpieces, hcharges⟩ := recurringCharges_of_due hrecurs hdue hprice hrecurring
    obtain ⟨s, hs, hcharge⟩ := exists_of_mem_right hcharges hc
    obtain ⟨amount, hamount, rfl⟩ := recurringCharge_eq_ok.mp hcharge
    obtain ⟨haligned, heffective, hdue, hstop⟩ := Proration.mem_spans hpieces hs
    refine ⟨rfl, rfl, haligned, heffective, hdue, fun t ht => ?_, fun _ => ⟨_, rfl⟩,
      fun _ => ⟨_, _, hamount⟩⟩
    cases ht
    exact hstop

/-! ### In another currency -/

theorem upfront_inCurrency (h : e.upfront currency = .ok charges) (currency' : LooseText) :
    e.upfront currency' = .ok (charges.map (Charge.inCurrency currency')) := by
  unfold upfront at h ⊢
  split at h
  · cases h
    rfl
  · split at h
    · cases h
      rfl
    · obtain ⟨stop, hstop, h⟩ := bind_eq_ok.mp h
      cases h
      exact bind_eq_ok.mpr ⟨stop, hstop, rfl⟩

theorem perCycle_inCurrency (h : e.perCycle successor terms target currency = .ok charges)
    (currency' : LooseText) :
    e.perCycle successor terms target currency' =
      .ok (charges.map (Charge.inCurrency currency')) := by
  obtain ⟨hmode, pieces, hpieces, h⟩ := perCycle_eq_ok.mp h
  refine perCycle_eq_ok.mpr ⟨hmode, pieces, hpieces, ?_⟩
  split at h
  · rw [h]
    rfl
  · apply mapM_eq_ok.mpr
    rw [List.forall₂_map_right_iff]
    refine (mapM_eq_ok.mp h).imp fun s c hcharge => ?_
    obtain ⟨amount, hamount, rfl⟩ := recurringCharge_eq_ok.mp hcharge
    exact recurringCharge_eq_ok.mpr ⟨amount, hamount, rfl⟩

/-- An event bills the same in every currency. -/
theorem charges_inCurrency (h : e.charges successor terms target currency = .ok charges)
    (currency' : LooseText) :
    e.charges successor terms target currency' =
      .ok (charges.map (Charge.inCurrency currency')) := by
  obtain ⟨fixed, recurring, hfixed, hrecurring, rfl⟩ := charges_eq_ok.mp h
  refine charges_eq_ok.mpr ⟨_, _, ?_, ?_, List.map_append⟩
  · obtain ⟨hcomparable, hfixed⟩ := fixedCharges_eq_ok.mp hfixed
    refine fixedCharges_eq_ok.mpr ⟨hcomparable, ?_⟩
    split at hfixed
    · cases hfixed
      rw [if_pos ‹_›]
      rfl
    · rw [if_neg ‹_›]
      exact upfront_inCurrency hfixed currency'
  · rcases recurringCharges_eq_ok.mp hrecurring with ⟨hnone, rfl⟩ | ⟨hrecurs, hcomparable, hrec⟩
    · exact recurringCharges_eq_ok.mpr (.inl ⟨hnone, rfl⟩)
    refine recurringCharges_eq_ok.mpr (.inr ⟨hrecurs, hcomparable, ?_⟩)
    split at hrec
    · rw [if_pos ‹_›]
      exact perCycle_inCurrency hrec currency'
    · cases hrec
      rw [if_neg ‹_›]
      rfl

/-! ### As the target moves on -/

theorem charges_congr (h : e.charges successor terms target currency = .ok charges)
    (hmark : target.mark = target'.mark) :
    e.charges successor terms target' currency = .ok charges := by
  obtain ⟨fixed, recurring, hfixed, hrecurring, rfl⟩ := charges_eq_ok.mp h
  have hinstant : target.instant = target'.instant := congrArg Mark.instant hmark
  refine charges_eq_ok.mpr ⟨fixed, recurring, ?_, ?_, rfl⟩
  · unfold fixedCharges at hfixed ⊢
    rwa [← Moment.lt_congr hmark]
  · rcases recurringCharges_eq_ok.mp hrecurring with hnone | ⟨hrecurs, hcomparable, hrecurring⟩
    · exact recurringCharges_eq_ok.mpr (.inl hnone)
    refine recurringCharges_eq_ok.mpr (.inr ⟨hrecurs,
      hcomparable.trans (congrArg Mark.anchored hmark), ?_⟩)
    rw [← hinstant]
    split at hrecurring
    case isFalse => rwa [if_neg ‹_›]
    · rw [if_pos ‹_›]
      obtain ⟨hmode, pieces, hpieces, hrest⟩ := perCycle_eq_ok.mp hrecurring
      exact perCycle_eq_ok.mpr ⟨hmode, pieces, Proration.spans_congr hpieces hmark, hrest⟩

/-- The pieces of an event that is in effect only grow in number. -/
theorem recurringCharges_eq_filter (hdue : e.effective.instant ≤ target.instant)
    (hle : target.instant ≤ target'.instant)
    (h : e.recurringCharges successor terms target currency = .ok charges)
    (h' : e.recurringCharges successor terms target' currency = .ok charges') :
    charges = charges'.filter (Charge.startsBy target) := by
  by_cases hpriced : e.recurs = true ∧ ∃ rate, e.recurringPrice = some rate
  · obtain ⟨hrecurs, rate, hprice⟩ := hpriced
    obtain ⟨pieces, hpieces, hcharges⟩ := recurringCharges_of_due hrecurs hdue hprice h
    obtain ⟨pieces', hpieces', hcharges'⟩ :=
      recurringCharges_of_due hrecurs (Int.le_trans hdue hle) hprice h'
    have hfilter := List.rel_filter (R := fun s c => e.recurringCharge terms currency rate s =
      .ok c) (p := fun s => s.start.instant ≤ target.instant) (q := Charge.startsBy target)
      (fun s c hcharge => by
        obtain ⟨amount, -, rfl⟩ := recurringCharge_eq_ok.mp hcharge
        rfl) hcharges'
    rw [← Proration.spans_eq_filter hpieces hpieces' hle] at hfilter
    exact Except.ok.inj ((mapM_eq_ok.mpr hcharges).symm.trans (mapM_eq_ok.mpr hfilter))
  · have hnone {target : Moment} {charges : List Charge}
        (h : e.recurringCharges successor terms target currency = .ok charges) : charges = [] :=
      (recurringCharges_cases h).resolve_right fun hcase => hpriced ⟨hcase.1, hcase.2.2⟩
    rw [hnone h, hnone h']
    rfl

/-- The charges of an event for an earlier target are those for a later one that start by the
earlier target. -/
theorem charges_eq_filter (h : e.charges successor terms target currency = .ok charges)
    (h' : e.charges successor terms target' currency = .ok charges')
    (hle : target.instant ≤ target'.instant) :
    charges = charges'.filter (Charge.startsBy target) := by
  by_cases hlate : target.instant < e.effective.instant
  · have hnone : charges'.filter (Charge.startsBy target) = [] := by
      refine List.filter_eq_nil_iff.mpr fun c hc => ?_
      have := (bills_of_mem_charges h' hc).effective_le
      simp only [Charge.startsBy, decide_eq_true_eq]
      omega
    rw [hnone]
    refine List.eq_nil_iff_forall_not_mem.mpr fun c hc => ?_
    have hbills := bills_of_mem_charges h hc
    exact absurd (Int.le_trans hbills.effective_le hbills.start_le) (Int.not_le.mpr hlate)
  · have hlate' : ¬target'.instant < e.effective.instant := by omega
    obtain ⟨fixed, recurring, hfixed, hrecurring, rfl⟩ := charges_eq_ok.mp h
    obtain ⟨fixed', recurring', hfixed', hrecurring', rfl⟩ := charges_eq_ok.mp h'
    have hsame : fixed = fixed' := by
      have hupfront := (fixedCharges_eq_ok.mp hfixed).2
      have hupfront' := (fixedCharges_eq_ok.mp hfixed').2
      rw [if_neg hlate] at hupfront
      rw [if_neg hlate'] at hupfront'
      exact Except.ok.inj (hupfront.symm.trans hupfront')
    have hkept : fixed.filter (Charge.startsBy target) = fixed := by
      refine List.filter_eq_self.mpr fun c hc => ?_
      simpa [Charge.startsBy] using
        (bills_of_mem_charges h (List.mem_append_left _ hc)).start_le
    have hgrown := recurringCharges_eq_filter (Int.not_lt.mp hlate) hle hrecurring hrecurring'
    rw [List.filter_append, ← hsame, hkept, ← hgrown]

end Event

/-! ### A whole timeline -/

namespace Timeline

variable {terms : Terms} {target target' : Moment} {currency : LooseText} {events : List Event}
  {charges charges' : List Charge}

theorem chargesOf_cons_eq_ok {e : Event} :
    chargesOf terms target currency (e :: events) = .ok charges ↔ ∃ first rest,
      e.charges (successor e events) terms target currency = .ok first ∧
        chargesOf terms target currency events = .ok rest ∧ charges = first ++ rest := by
  rw [chargesOf, bind_eq_ok]
  constructor
  · rintro ⟨first, hfirst, h⟩
    obtain ⟨rest, hrest, h⟩ := bind_eq_ok.mp h
    cases h
    exact ⟨first, rest, hfirst, hrest, rfl⟩
  · rintro ⟨first, rest, hfirst, hrest, rfl⟩
    exact ⟨first, hfirst, bind_eq_ok.mpr ⟨rest, hrest, rfl⟩⟩

theorem exists_charges_of_mem (h : chargesOf terms target currency events = .ok charges) {c : Charge}
    (hc : c ∈ charges) : ∃ before e later own, events = before ++ e :: later ∧
      e.charges (successor e later) terms target currency = .ok own ∧ c ∈ own := by
  induction events generalizing charges with
  | nil =>
    cases h
    cases hc
  | cons e events ih =>
    obtain ⟨first, rest, hfirst, hrest, rfl⟩ := chargesOf_cons_eq_ok.mp h
    rcases List.mem_append.mp hc with hc | hc
    · exact ⟨[], e, events, first, rfl, hfirst, hc⟩
    · obtain ⟨before, e', later, own, rfl, hown, hmem⟩ := ih hrest hc
      exact ⟨e :: before, e', later, own, rfl, hown, hmem⟩

/-- What an event before its later ones charges is charged. -/
theorem mem_of_mem_own {before later : List Event} {e : Event} {own : List Charge}
    (h : chargesOf terms target currency (before ++ e :: later) = .ok charges)
    (hown : e.charges (successor e later) terms target currency = .ok own) {c : Charge}
    (hc : c ∈ own) : c ∈ charges := by
  induction before generalizing charges with
  | nil =>
    obtain ⟨first, rest, hfirst, -, rfl⟩ := chargesOf_cons_eq_ok.mp h
    obtain rfl := Except.ok.inj (hown.symm.trans hfirst)
    exact List.mem_append_left _ hc
  | cons f before ih =>
    obtain ⟨first, rest, -, hrest, rfl⟩ := chargesOf_cons_eq_ok.mp h
    exact List.mem_append_right _ (ih hrest)

/-- Every charge is that of an event before its later ones. -/
theorem mem_chargesOf (h : chargesOf terms target currency events = .ok charges) {c : Charge}
    (hc : c ∈ charges) : ∃ before e later, events = before ++ e :: later ∧
      e.Bills (successor e later) terms target c := by
  obtain ⟨before, e, later, own, hevents, hown, hmem⟩ := exists_charges_of_mem h hc
  exact ⟨before, e, later, hevents, Event.bills_of_mem_charges hown hmem⟩

theorem chargesOf_inCurrency (h : chargesOf terms target currency events = .ok charges)
    (currency' : LooseText) :
    chargesOf terms target currency' events =
      .ok (charges.map (Charge.inCurrency currency')) := by
  induction events generalizing charges with
  | nil =>
    cases h
    rfl
  | cons e events ih =>
    obtain ⟨first, rest, hfirst, hrest, rfl⟩ := chargesOf_cons_eq_ok.mp h
    exact chargesOf_cons_eq_ok.mpr
      ⟨_, _, Event.charges_inCurrency hfirst currency', ih hrest, List.map_append⟩

theorem chargesOf_congr (h : chargesOf terms target currency events = .ok charges)
    (hmark : target.mark = target'.mark) :
    chargesOf terms target' currency events = .ok charges := by
  induction events generalizing charges with
  | nil => exact h
  | cons e events ih =>
    obtain ⟨first, rest, hfirst, hrest, rfl⟩ := chargesOf_cons_eq_ok.mp h
    exact chargesOf_cons_eq_ok.mpr ⟨first, rest, Event.charges_congr hfirst hmark, ih hrest, rfl⟩

/-- **The charges through an earlier target are those through a later one that start by the earlier
target.** -/
theorem chargesOf_eq_filter (h : chargesOf terms target currency events = .ok charges)
    (h' : chargesOf terms target' currency events = .ok charges')
    (hle : target.instant ≤ target'.instant) :
    charges = charges'.filter (Charge.startsBy target) := by
  induction events generalizing charges charges' with
  | nil =>
    cases h
    cases h'
    rfl
  | cons e events ih =>
    obtain ⟨first, rest, hfirst, hrest, rfl⟩ := chargesOf_cons_eq_ok.mp h
    obtain ⟨first', rest', hfirst', hrest', rfl⟩ := chargesOf_cons_eq_ok.mp h'
    rw [List.filter_append, ← Event.charges_eq_filter hfirst hfirst' hle, ← ih hrest hrest']

/-! ### Charges as items -/

variable {t : Timeline} {now : Moment} {ids : Nat → Uuid} {invoice : Uuid} {items : List Item}

theorem expand_eq_ok :
    t.expand terms now ids invoice target currency = .ok items ↔
      ∃ charges, t.charges terms target currency = .ok charges ∧
        items = charges.mapIdx fun n c => c.issue (ids n) invoice now := by
  unfold expand
  rw [bind_eq_ok]
  exact exists_congr fun charges => and_congr_right fun _ => by rw [pure_eq_ok]; simp [eq_comm]

theorem created_of_expand
    (h : t.expand terms now ids invoice target currency = .ok items) :
    ∀ i ∈ items, i.created = now := by
  obtain ⟨charges, -, rfl⟩ := expand_eq_ok.mp h
  intro i hi
  obtain ⟨n, hn, rfl⟩ := List.mem_mapIdx.mp hi
  rfl

/-- Issuing charges keeps what they are. -/
theorem map_charge_mapIdx (charges : List Charge) (ids : Nat → Uuid) (invoice : Uuid)
    (now : Moment) :
    (charges.mapIdx fun n c => c.issue (ids n) invoice now).map (·.charge) = charges := by
  rw [List.mapIdx_eq_zipIdx_map, List.map_map]
  exact List.zipIdx_map_fst 0 charges

theorem map_charge_of_expand (h : t.expand terms now ids invoice target currency = .ok items) :
    t.charges terms target currency = .ok (items.map (·.charge)) := by
  obtain ⟨charges, hcharges, rfl⟩ := expand_eq_ok.mp h
  rw [map_charge_mapIdx, hcharges]

end Timeline

end BillRun
