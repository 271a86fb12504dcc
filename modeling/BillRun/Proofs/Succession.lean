import BillRun.Proofs.Cutting
import BillRun.Proofs.Coverage

/-! No instant is billed twice.

The pieces of a stretch come in turn between its start and its end (`Proration.inTurn_spans`): the
piece before the first boundary, the whole cycles, and what is left after them. An event's stretch
ends no later than its successor takes effect, so the stretches of a subscription come in turn as
well, and with them all that is billed per cycle (`recurring_in_turn`). Only instants are compared:
events may be recorded in any offsets. -/
namespace BillRun

open Calendar

/-! ### Coming in turn -/

/-- When a piece starts, and when it stops. -/
def Span.extent (s : Span) : Moment × Option Moment := (s.start, some s.stop)

/-- When a charge starts, and when it stops if it does. -/
def Charge.extent (c : Charge) : Moment × Option Moment := (c.start, c.stop)

/-- Times that come one after another from one instant up to another: none stops before it starts or
after the next starts. -/
inductive InTurn : Int → List (Moment × Option Moment) → Int → Prop
  | nil {low high : Int} : low ≤ high → InTurn low [] high
  | cons {low high : Int} {start stop : Moment} {rest : List (Moment × Option Moment)} :
      low ≤ start.instant → start.instant ≤ stop.instant → InTurn stop.instant rest high →
      InTurn low ((start, some stop) :: rest) high

namespace InTurn

variable {low mid high : Int} {a b : List (Moment × Option Moment)}

theorem le (h : InTurn low a high) : low ≤ high := by
  induction h with
  | nil hle => exact hle
  | cons hlow hstop _ ih => exact Int.le_trans (Int.le_trans hlow hstop) ih

theorem singleton {start stop : Moment} (hlow : low ≤ start.instant)
    (hstop : start.instant ≤ stop.instant) (hhigh : stop.instant ≤ high) :
    InTurn low [(start, some stop)] high := .cons hlow hstop (.nil hhigh)

theorem from_earlier {low' : Int} (h : InTurn low a high) (hle : low' ≤ low) :
    InTurn low' a high := by
  cases h with
  | nil hhigh => exact .nil (Int.le_trans hle hhigh)
  | cons hlow hstop hrest => exact .cons (Int.le_trans hle hlow) hstop hrest

theorem append (h : InTurn low a mid) (h' : InTurn mid b high) : InTurn low (a ++ b) high := by
  induction h with
  | nil hle => exact h'.from_earlier hle
  | cons hlow hstop _ ih => exact .cons hlow hstop (ih h')

theorem to_later {high' : Int} (h : InTurn low a high) (hle : high ≤ high') :
    InTurn low a high' := by
  have hmore := h.append (.nil hle)
  rwa [List.append_nil] at hmore

/-- Each time lies between the two instants. -/
theorem within (h : InTurn low a high) {time : Moment × Option Moment} (htime : time ∈ a) :
    ∃ stop, time.2 = some stop ∧ low ≤ time.1.instant ∧ time.1.instant ≤ stop.instant ∧
      stop.instant ≤ high := by
  induction h with
  | nil => cases htime
  | cons hlow hstop hrest ih =>
    rcases List.mem_cons.mp htime with rfl | hlater
    · exact ⟨_, rfl, hlow, hstop, hrest.le⟩
    · obtain ⟨stop, heq, hstart, hbounds⟩ := ih hlater
      exact ⟨stop, heq, by omega, hbounds⟩

/-- Each time stops before any later one starts. -/
theorem pairwise (h : InTurn low a high) :
    a.Pairwise fun x y => ∃ stop, x.2 = some stop ∧ x.1.instant ≤ stop.instant ∧
      stop.instant ≤ y.1.instant := by
  induction h with
  | nil => exact .nil
  | cons _ hstop hrest ih =>
    refine .cons (fun y hy => ⟨_, rfl, hstop, ?_⟩) ih
    obtain ⟨-, -, hstart, -⟩ := hrest.within hy
    exact hstart

end InTurn

/-! ### The pieces of a stretch -/

namespace Proration

variable {c : Cycle} {start e : Moment}

theorem inTurn_leading (hfirst : start.instant ≤ c.first.instant) (hle : start.instant ≤ e.instant)
    {before : List Span} (h : leading c start e = .ok before) :
    InTurn start.instant (before.map Span.extent) (min c.first.instant e.instant) := by
  rcases leading_cases h with rfl | ⟨pieceEnd, previous, -, -, hend, -, -, rfl⟩
  · exact .nil (by omega)
  · have hstop : start.instant ≤ pieceEnd.instant := by omega
    exact .singleton (Int.le_refl _) hstop (Int.le_of_eq hend)

theorem inTurn_wholeCycles (hmonths : 0 < c.months) {count : Nat} {cycles : List Span} {last : Moment}
    (h : (List.range count).mapM (wholeCycle c) = .ok cycles) (hlast : c.boundary count = .ok last) :
    InTurn c.first.instant (cycles.map Span.extent) last.instant := by
  induction count generalizing cycles last with
  | zero =>
    cases h
    cases hlast
    exact .nil (Int.le_refl _)
  | succ count ih =>
    obtain ⟨before, s, hbefore, hs, rfl⟩ := wholeCycles_succ h
    obtain ⟨hlow, hhigh, -⟩ := wholeCycle_eq_ok.mp hs
    obtain rfl := Except.ok.inj (hhigh.symm.trans hlast)
    have hlt := Cycle.boundary_lt hmonths hlow hhigh (Nat.lt_succ_self count)
    rw [List.map_append]
    exact (ih hbefore hlow).append (.singleton (Int.le_refl _) (Int.le_of_lt hlt) (Int.le_refl _))

theorem inTurn_trailing {k : Nat} {last : Moment} (hlast : c.boundary k = .ok last)
    (hle : last.instant ≤ e.instant) {after : List Span} (h : trailing c k e = .ok after) :
    InTurn last.instant (after.map Span.extent) e.instant := by
  obtain ⟨last', hlast', hafter⟩ := trailing_cases h
  obtain rfl := Except.ok.inj (hlast.symm.trans hlast')
  rcases hafter with rfl | ⟨next, -, -, -, rfl⟩
  · exact .nil hle
  · exact .singleton (Int.le_refl _) hle (Int.le_refl _)

theorem inTurn_cut (hmonths : 0 < c.months) (hfirst : start.instant ≤ c.first.instant)
    (hle : start.instant ≤ e.instant) {pieces : List Span} (h : cut c start e = .ok pieces) :
    InTurn start.instant (pieces.map Span.extent) e.instant := by
  by_cases hearly : e.instant < c.first.instant
  · exact (inTurn_leading hfirst hle (leading_of_cut hmonths hearly h)).to_later (by omega)
  · obtain ⟨before, count, cycles, after, hbefore, hcount, hcycles, hafter, rfl⟩ := cut_eq_ok.mp h
    obtain ⟨last, hlast, -⟩ := trailing_cases hafter
    have hreach := (Cycle.past_of_pastFrom hcount).last_le hmonths (Int.not_lt.mp hearly) hlast
    have hlead := (inTurn_leading hfirst hle hbefore).to_later (Int.min_le_left _ _)
    rw [List.map_append, List.map_append]
    exact (hlead.append (inTurn_wholeCycles hmonths hcycles hlast)).append
      (inTurn_trailing hlast hreach hafter)

/-- **The pieces of a stretch come in turn, and stop by its stop.** -/
theorem inTurn_spans {stop : Option Moment} {target : Moment} {day : Int} {period : Period}
    {pieces : List Span} (h : spans start stop target day period = .ok pieces) :
    ∃ high, InTurn start.instant (pieces.map Span.extent) high ∧
      ∀ t, stop = some t → high ≤ t.instant := by
  obtain ⟨first, e, -, -, hle, hends, -, hstart, hmonths, hcut⟩ := exists_stretch h
  exact ⟨e.instant, inTurn_cut (c := ⟨first, period.months, day⟩) hmonths hle hstart hcut,
    (hends.endsFirst hmonths).le_stop⟩

end Proration

/-! ### The charges of a subscription -/

/-- What the charges bill per cycle, and when. -/
def cycleTimes (charges : List Charge) : List (Moment × Option Moment) :=
  (charges.filter (·.kind = .recurring)).map Charge.extent

theorem cycleTimes_append (a b : List Charge) :
    cycleTimes (a ++ b) = cycleTimes a ++ cycleTimes b := by
  unfold cycleTimes
  rw [List.filter_append, List.map_append]

namespace Event

variable {e : Event} {successor : Option Event} {terms : Terms} {target : Moment}
  {currency : LooseText} {charges : List Charge}

/-- The times of what an event charges per cycle are those of its pieces. -/
theorem cycleTimes_of_pieces {rate : Decimal} {pieces : List Span}
    (h : List.Forall₂ (fun s c => e.recurringCharge terms currency rate s = .ok c) pieces charges) :
    cycleTimes charges = pieces.map Span.extent := by
  induction h with
  | nil => rfl
  | cons hc _ ih =>
    obtain ⟨amount, -, rfl⟩ := recurringCharge_eq_ok.mp hc
    exact congrArg (_ :: ·) ih

theorem cycleTimes_fixedCharges (h : e.fixedCharges target currency = .ok charges) :
    cycleTimes charges = [] := by
  have hnone : charges.filter (·.kind = .recurring) = [] := by
    refine List.filter_eq_nil_iff.mpr fun c hc => ?_
    simp [kind_of_mem_fixedCharges h hc]
  unfold cycleTimes
  rw [hnone, List.map_nil]

/-- What an event bills per cycle comes in turn, from when it takes effect to when its successor
does. -/
theorem inTurn_charges (hle : ∀ f, successor = some f → e.effective.instant ≤ f.effective.instant)
    (h : e.charges successor terms target currency = .ok charges) :
    ∃ high, InTurn e.effective.instant (cycleTimes charges) high ∧
      ∀ f, successor = some f → high ≤ f.effective.instant := by
  obtain ⟨fixed, recurring, hfixed, hrecurring, rfl⟩ := charges_eq_ok.mp h
  rw [cycleTimes_append, cycleTimes_fixedCharges hfixed, List.nil_append]
  rcases recurringCharges_cases hrecurring with rfl | ⟨hrecurs, hdue, rate, hprice⟩
  · exact ⟨e.effective.instant, .nil (Int.le_refl _), hle⟩
  · obtain ⟨pieces, hpieces, hcharges⟩ := recurringCharges_of_due hrecurs hdue hprice hrecurring
    obtain ⟨high, hturn, hstop⟩ := Proration.inTurn_spans hpieces
    rw [cycleTimes_of_pieces hcharges]
    refine ⟨high, hturn, fun f hf => hstop f.effective ?_⟩
    rw [hf]
    rfl

end Event

namespace Timeline

variable {terms : Terms} {target : Moment} {currency : LooseText} {charges : List Charge}

/-- The events of one subscription bill in turn. -/
theorem inTurn_chargesOf {e : Event} {events : List Event}
    (hsame : ∀ f ∈ events, f.subscription = e.subscription)
    (hsorted : (e :: events).Pairwise fun a b => a.effective.instant ≤ b.effective.instant)
    (h : chargesOf terms target currency (e :: events) = .ok charges) :
    ∃ high, InTurn e.effective.instant (cycleTimes charges) high := by
  induction events generalizing e charges with
  | nil =>
    obtain ⟨own, rest, hown, hrest, rfl⟩ := chargesOf_cons_eq_ok.mp h
    cases hrest
    rw [List.append_nil]
    obtain ⟨high, hturn, -⟩ := Event.inTurn_charges (fun f hf => by cases hf) hown
    exact ⟨high, hturn⟩
  | cons next events ih =>
    obtain ⟨own, rest, hown, hrest, rfl⟩ := chargesOf_cons_eq_ok.mp h
    obtain ⟨hearly, hsorted⟩ := List.pairwise_cons.mp hsorted
    have hnext := hsame next List.mem_cons_self
    have hsuccessor : successor e (next :: events) = some next :=
      List.find?_cons_of_pos (by simpa using hnext)
    rw [hsuccessor] at hown
    obtain ⟨mid, hturn, hmid⟩ := Event.inTurn_charges
      (fun f hf => Option.some.inj hf ▸ hearly next List.mem_cons_self) hown
    obtain ⟨high, hlater⟩ := ih (fun f hf => (hsame f (List.mem_cons_of_mem next hf)).trans
      hnext.symm) hsorted hrest
    rw [cycleTimes_append]
    exact ⟨high, (hturn.to_later (hmid next rfl)).append hlater⟩

end Timeline

/-! ### The items of a subscription -/

namespace Charge

/-- The charge ends, no earlier than it starts and no later than the other one starts. -/
def Precedes (a b : Charge) : Prop :=
  ∃ stop, a.stop = some stop ∧ a.start.instant ≤ stop.instant ∧ stop.instant ≤ b.start.instant

/-- Whether the charge bills an instant. Without an end it bills every instant from its start on. -/
def covers (instant : Int) (c : Charge) : Bool :=
  c.start.instant ≤ instant && c.stop.all (instant < ·.instant)

/-- The charge starts no earlier than one moment, and ends no earlier than it starts and no later
than another moment, if there is one. -/
def Within (c : Charge) (low : Moment) (high : Option Moment) : Prop :=
  ∃ stop, c.stop = some stop ∧ low.instant ≤ c.start.instant ∧ c.start.instant ≤ stop.instant ∧
    ∀ t, high = some t → stop.instant ≤ t.instant

theorem Precedes.not_both {a b : Charge} (h : a.Precedes b) (instant : Int) :
    ¬(a.covers instant = true ∧ b.covers instant = true) := by
  obtain ⟨stop, hstop, -, hle⟩ := h
  simp only [covers, hstop, Bool.and_eq_true, Option.all_some, decide_eq_true_eq]
  omega

end Charge

theorem countP_le_one {α : Type} {p : α → Bool} {xs : List α}
    (h : xs.Pairwise fun a b => ¬(p a = true ∧ p b = true)) : xs.countP p ≤ 1 := by
  induction h with
  | nil => exact Nat.zero_le _
  | @cons a xs hfirst _ ih =>
    rw [List.countP_cons]
    split
    · rename_i ha
      have hnone : xs.countP p = 0 :=
        List.countP_eq_zero.mpr fun b hb hpb => hfirst b hb ⟨ha, hpb⟩
      omega
    · exact ih

namespace Timeline

variable {events : List Event} {timeline : Timeline} {terms : Terms} {target : Moment}
  {currency : LooseText}

/-- The recurring charges of one subscription come in turn. -/
theorem pairwise_precedes (h : Timeline.of events = .ok timeline) {charges : List Charge}
    (hcharges : timeline.charges terms target currency = .ok charges) (subscription : Uuid) :
    ((charges.filter (·.subscription = subscription)).filter (·.kind = .recurring)).Pairwise
      Charge.Precedes := by
  have hsorted := ((sorted_of_of h).imp And.right).sublist
    (List.filter_sublist (p := fun e : Event => e.subscription = subscription))
  have hmem : ∀ e ∈ timeline.events.filter (·.subscription = subscription),
      e.subscription = subscription := fun e he => by simpa using (List.mem_filter.mp he).2
  have hown := chargesOf_filter hcharges subscription
  generalize timeline.events.filter (·.subscription = subscription) = own at hsorted hmem hown
  generalize charges.filter (·.subscription = subscription) = charged at hown
  cases own with
  | nil =>
    cases hown
    exact .nil
  | cons e later =>
    have hsame : ∀ f ∈ later, f.subscription = e.subscription := fun f hf =>
      (hmem f (List.mem_cons_of_mem e hf)).trans (hmem e List.mem_cons_self).symm
    obtain ⟨high, hturn⟩ := inTurn_chargesOf hsame hsorted hown
    have hpairwise := hturn.pairwise
    rwa [cycleTimes, List.pairwise_map] at hpairwise

/-- What an event bills per cycle lies between its effective date and that of its successor. -/
theorem within_of_mem (h : Timeline.of events = .ok timeline) {before later : List Event} {e : Event}
    (hevents : timeline.events = before ++ e :: later) {own : List Charge}
    (hown : e.charges (successor e later) terms target currency = .ok own) {c : Charge}
    (hc : c ∈ own) (hkind : c.kind = .recurring) :
    c.Within e.effective ((successor e later).map (·.effective)) := by
  have hsorted := sorted_of_of h
  rw [hevents] at hsorted
  obtain ⟨hlater, -⟩ := List.pairwise_cons.mp (List.pairwise_append.mp hsorted).2.1
  obtain ⟨high, hturn, hhigh⟩ := Event.inTurn_charges
    (fun f hf => (hlater f (List.mem_of_find?_eq_some hf)).2) hown
  have htime : c.extent ∈ cycleTimes own :=
    List.mem_map_of_mem (List.mem_filter.mpr ⟨hc, by simpa using hkind⟩)
  obtain ⟨stop, hstop, hstart, hpositive, hle⟩ := hturn.within htime
  refine ⟨stop, hstop, hstart, hpositive, fun t ht => ?_⟩
  obtain ⟨f, hf, rfl⟩ := Option.map_eq_some_iff.mp ht
  exact Int.le_trans hle (hhigh f hf)

/-- The recurring charges of one subscription are those of its events, each within its own time. -/
theorem mem_recurring_iff (h : Timeline.of events = .ok timeline) {charges : List Charge}
    (hcharges : timeline.charges terms target currency = .ok charges) (subscription : Uuid)
    (c : Charge) :
    c ∈ (charges.filter (·.subscription = subscription)).filter (·.kind = .recurring) ↔
      ∃ before e later own, timeline.events = before ++ e :: later ∧
        e.subscription = subscription ∧
        e.charges (successor e later) terms target currency = .ok own ∧ c ∈ own ∧
        c.kind = .recurring ∧ c.Within e.effective ((successor e later).map (·.effective)) := by
  simp only [List.mem_filter, decide_eq_true_eq]
  constructor
  · rintro ⟨⟨hmem, rfl⟩, hkind⟩
    obtain ⟨before, e, later, own, hevents, hown, hc⟩ := exists_charges_of_mem hcharges hmem
    exact ⟨before, e, later, own, hevents, (Event.bills_of_mem_charges hown hc).subscription.symm,
      hown, hc, hkind, within_of_mem h hevents hown hc hkind⟩
  · rintro ⟨before, e, later, own, hevents, rfl, hown, hc, hkind, -⟩
    rw [Timeline.charges, hevents] at hcharges
    exact ⟨⟨mem_of_mem_own hcharges hown hc, (Event.bills_of_mem_charges hown hc).subscription⟩,
      hkind⟩

end Timeline

/-- **No instant is billed twice.** The recurring items of a subscription are what its events bill
per cycle, each between the effective date of its event and that of the next one. They are listed in
order of time, and each ends before the next starts, so that no instant is billed by two of them. -/
theorem recurring_in_turn {events : List Event} {timeline : Timeline} {terms : Terms} {now : Moment}
    {ids : Nat → Uuid} {invoice : Uuid} {target : Moment} {currency : LooseText} {items : List Item}
    (h : Timeline.of events = .ok timeline)
    (hitems : timeline.expand terms now ids invoice target currency = .ok items)
    (subscription : Uuid) :
    ((recurring (itemsUnder subscription items)).Pairwise fun i j =>
        i.charge.Precedes j.charge) ∧
      (∀ instant, (recurring (itemsUnder subscription items)).countP
        (·.charge.covers instant) ≤ 1) ∧
      ∀ c, c ∈ (recurring (itemsUnder subscription items)).map (·.charge) ↔
        ∃ before e later own, timeline.events = before ++ e :: later ∧
          e.subscription = subscription ∧
          e.charges (Timeline.successor e later) terms target currency = .ok own ∧ c ∈ own ∧
          c.kind = .recurring ∧
          c.Within e.effective ((Timeline.successor e later).map (·.effective)) := by
  have hcharges := Timeline.map_charge_of_expand hitems
  have hturn := Timeline.pairwise_precedes h hcharges subscription
  have hfrom := Timeline.mem_recurring_iff h hcharges subscription
  rw [← map_charge_itemsUnder, ← map_charge_recurring] at hturn hfrom
  rw [List.pairwise_map] at hturn
  exact ⟨hturn, fun instant => countP_le_one (hturn.imp fun hbefore => hbefore.not_both instant),
    hfrom⟩

open Sample in
/-- The two parts of February meet at noon of the tenth, when the upgrade takes effect. -/
theorem recurring_in_turn_upgrade : ∃ items,
    Timeline.of [event, upgrade] = .ok ⟨[event, upgrade]⟩ ∧
      (⟨[event, upgrade]⟩ : Timeline).expand .standard (day 1 12) (supply 0) (uuid 100) (day 2 20)
        (.text "USD") = .ok items ∧ items.map (·.charge) = upgraded ∧
      ((recurring (itemsUnder (uuid 1) items)).Pairwise fun i j => i.charge.Precedes j.charge) ∧
      (recurring (itemsUnder (uuid 1) items)).countP (·.charge.covers (noon 2 10).instant) ≤ 1 := by
  have hordered : Timeline.of [event, upgrade] = .ok ⟨[event, upgrade]⟩ :=
    Timeline.of_eq_self (by decide) (by decide)
  have hcharges : (⟨[event, upgrade]⟩ : Timeline).charges .standard (day 2 20) (.text "USD") =
      .ok upgraded := by decide +kernel
  have hitems : (⟨[event, upgrade]⟩ : Timeline).expand .standard (day 1 12) (supply 0) (uuid 100)
      (day 2 20) (.text "USD") = .ok (upgraded.mapIdx fun n c =>
        c.issue (supply 0 n) (uuid 100) (day 1 12)) :=
    Timeline.expand_eq_ok.mpr ⟨upgraded, hcharges, rfl⟩
  obtain ⟨hturn, honce, -⟩ := recurring_in_turn hordered hitems (uuid 1)
  exact ⟨_, hordered, hitems, Timeline.map_charge_mapIdx .., hturn, honce _⟩

end BillRun
