import BillRun.Proofs.Arranging
import BillRun.Proofs.Proportion
import BillRun.Proofs.Separation
import Mathlib.Algebra.Ring.Int.Defs

/-! Every cycle of a monthly subscription is billed once.

The stretches of a subscription's events follow on each other: each ends where its successor takes
effect, up to the last one that the target has reached. Their pieces together tile the days from the
first event on (`Timeline.tiled_unitsOf`). Since every piece lies within one cycle, the pieces that
start in a cycle tile just that cycle, however many events fall into it (`cycle_billed_once`). The
cycles that a piece counts are the quotient of its days by the cycle's, rounded to 28 digits
(`Span.Shares.cycles_value`). -/
namespace BillRun

open Calendar

/-! ### Units -/

/-- The charge bills the piece, at its own price per cycle. -/
structure Span.Priced (terms : Terms) (s : Span) (c : Charge) : Prop where
  start : c.start = s.start
  stop : c.stop = some s.stop
  amount : ∃ rate, c.basis = .recurring rate none ∧ terms.charge s.cycles rate = .ok c.amount

theorem Span.Priced.kind {terms : Terms} {s : Span} {c : Charge} (h : s.Priced terms c) :
    c.kind = .recurring := by
  obtain ⟨rate, hbasis, -⟩ := h.amount
  unfold Charge.kind
  rw [hbasis]
  rfl

namespace Event

/-- The pieces of time that an event bills through a target. -/
def units (e : Event) (successor : Option Event) (target : Moment) : Except Fault (List Span) := do
  if !e.recurs then return []
  else if ← e.effective.le target then
    Proration.spans e.effective (successor.map (·.effective)) target e.cycleDay.day e.period
  else return []

/-- Billed by the month and in advance, on the given cycle day, at some price, in the given
offset. -/
structure Monthly (d : CycleDay) (offset : Option Offset) (e : Event) : Prop where
  period : e.period = .monthly
  mode : e.mode = .inAdvance
  cycleDay : e.cycleDay = d
  priced : e.recurringPrice ≠ none
  offset : e.effective.offset = offset

variable {e : Event} {successor : Option Event} {terms : Terms} {target : Moment}
  {currency : LooseText} {charges : List Charge} {pieces : List Span}

theorem units_eq_ok : e.units successor target = .ok pieces ↔
    e.recurs = false ∧ pieces = [] ∨
      e.recurs = true ∧ Moment.Comparable e.effective target ∧
        (if e.effective.instant ≤ target.instant then
          Proration.spans e.effective (successor.map (·.effective)) target e.cycleDay.day e.period
        else .ok []) = .ok pieces := by
  unfold units
  cases e.recurs with
  | false => simp [eq_comm]
  | true =>
    rw [Bool.not_true, if_neg Bool.false_ne_true, Moment.le_branch_eq_ok]
    simp

/-- The recurring charges of a priced event are its units, priced. -/
theorem units_of_recurringCharges (hprice : e.recurringPrice ≠ none)
    (h : e.recurringCharges successor terms target currency = .ok charges) : ∃ pieces,
      e.units successor target = .ok pieces ∧ List.Forall₂ (Span.Priced terms) pieces charges := by
  rcases recurringCharges_eq_ok.mp h with ⟨hnone, rfl⟩ | ⟨hrecurs, hcomparable, h⟩
  · exact ⟨[], units_eq_ok.mpr (.inl ⟨hnone, rfl⟩), .nil⟩
  split at h
  · rename_i hdue
    obtain ⟨-, pieces, hpieces, h⟩ := perCycle_eq_ok.mp h
    refine ⟨pieces, units_eq_ok.mpr (.inr ⟨hrecurs, hcomparable, by rwa [if_pos hdue]⟩), ?_⟩
    split at h
    · exact absurd ‹_› hprice
    · refine (mapM_eq_ok.mp h).imp fun s c hcharge => ?_
      obtain ⟨amount, hamount, rfl⟩ := recurringCharge_eq_ok.mp hcharge
      exact ⟨rfl, rfl, _, rfl, hamount⟩
  · rename_i hdue
    cases h
    exact ⟨[], units_eq_ok.mpr (.inr ⟨hrecurs, hcomparable, if_neg hdue⟩), .nil⟩

theorem units_of_charges (hprice : e.recurringPrice ≠ none)
    (h : e.charges successor terms target currency = .ok charges) : ∃ pieces,
      e.units successor target = .ok pieces ∧
        List.Forall₂ (Span.Priced terms) pieces (charges.filter (·.kind = .recurring)) := by
  obtain ⟨fixed, recurring, hfixed, hrecurring, rfl⟩ := charges_eq_ok.mp h
  obtain ⟨pieces, hpieces, hcharges⟩ := units_of_recurringCharges hprice hrecurring
  have hdropped : fixed.filter (·.kind = .recurring) = [] :=
    List.filter_eq_nil_iff.mpr fun c hc => by simp [kind_of_mem_fixedCharges hfixed hc]
  have hkept : recurring.filter (·.kind = .recurring) = recurring := by
    refine List.filter_eq_self.mpr fun c hc => ?_
    obtain ⟨s, -, hpriced⟩ := exists_of_mem_right hcharges hc
    simpa using hpriced.kind
  rw [List.filter_append, hdropped, hkept, List.nil_append]
  exact ⟨pieces, hpieces, hcharges⟩

end Event

namespace Timeline

/-- The pieces of time that the events of a subscription bill through a target. -/
def unitsOf (subscription : Uuid) (target : Moment) : List Event → Except Fault (List Span)
  | [] => .ok []
  | e :: later =>
    if e.subscription = subscription then do
      let first ← e.units (successor e later) target
      let rest ← unitsOf subscription target later
      return first ++ rest
    else unitsOf subscription target later

variable {subscription : Uuid} {target : Moment} {events : List Event} {pieces : List Span}

theorem unitsOf_cons_eq_ok {e : Event} (h : e.subscription = subscription) :
    unitsOf subscription target (e :: events) = .ok pieces ↔ ∃ first rest,
      e.units (successor e events) target = .ok first ∧
        unitsOf subscription target events = .ok rest ∧ pieces = first ++ rest := by
  rw [unitsOf, if_pos h, bind_eq_ok]
  constructor
  · rintro ⟨first, hfirst, h⟩
    obtain ⟨rest, hrest, h⟩ := bind_eq_ok.mp h
    cases h
    exact ⟨first, rest, hfirst, hrest, rfl⟩
  · rintro ⟨first, rest, hfirst, hrest, rfl⟩
    exact ⟨first, hfirst, bind_eq_ok.mpr ⟨rest, hrest, rfl⟩⟩

theorem unitsOf_cons_of_ne {e : Event} (h : e.subscription ≠ subscription) :
    unitsOf subscription target (e :: events) = unitsOf subscription target events := if_neg h

/-- What a timeline charges a subscription per cycle are its units, priced. -/
theorem units_of_chargesOf {terms : Terms} {currency : LooseText} {charges : List Charge}
    (hpriced : ∀ e ∈ events, e.subscription = subscription → e.recurringPrice ≠ none)
    (h : chargesOf terms target currency events = .ok charges) : ∃ pieces,
      unitsOf subscription target events = .ok pieces ∧
        List.Forall₂ (Span.Priced terms) pieces
          (charges.filter fun c => c.subscription = subscription ∧ c.kind = .recurring) := by
  induction events generalizing charges with
  | nil =>
    cases h
    exact ⟨[], rfl, .nil⟩
  | cons e events ih =>
    obtain ⟨first, rest, hfirst, hrest, rfl⟩ := chargesOf_cons_eq_ok.mp h
    obtain ⟨later, hlater, hlaterPriced⟩ :=
      ih (fun f hf => hpriced f (List.mem_cons_of_mem e hf)) hrest
    have hown : ∀ c ∈ first, c.subscription = e.subscription := fun c hc =>
      (Event.bills_of_mem_charges hfirst hc).subscription
    rw [List.filter_append]
    by_cases hsame : e.subscription = subscription
    · obtain ⟨pieces, hpieces, hcharges⟩ :=
        Event.units_of_charges (hpriced e List.mem_cons_self hsame) hfirst
      have hkept : (first.filter fun c => c.subscription = subscription ∧ c.kind = .recurring) =
          first.filter (·.kind = .recurring) :=
        List.filter_congr fun c hc => by simp [hown c hc, hsame]
      rw [hkept]
      exact ⟨_, (unitsOf_cons_eq_ok hsame).mpr ⟨_, _, hpieces, hlater, rfl⟩,
        List.rel_append hcharges hlaterPriced⟩
    · have hdropped : (first.filter fun c => c.subscription = subscription ∧ c.kind = .recurring) =
          [] :=
        List.filter_eq_nil_iff.mpr fun c hc => by simp [hown c hc, hsame]
      rw [hdropped, List.nil_append]
      exact ⟨later, (unitsOf_cons_of_ne hsame).trans hlater, hlaterPriced⟩

/-- The pieces are shares of cycles, and once the first event of the subscription is due they tile
the days from it on. -/
structure Tiled (subscription : Uuid) (target : Moment) (d : CycleDay) (events : List Event)
    (pieces : List Span) : Prop where
  shares : ∀ s ∈ pieces, ∃ m n, s.Shares d m n
  early : (∀ f, events.find? (·.subscription = subscription) = some f →
    target.instant < f.effective.instant) → pieces = []
  due : ∀ f, events.find? (·.subscription = subscription) = some f →
    f.effective.instant ≤ target.instant →
    ∃ last, Tiles f.effective.date.dayNumber pieces last

/-- An event of the subscription before its others. -/
theorem Tiled.cons {d : CycleDay} {offset : Option Offset} {e : Event} {first rest : List Span}
    (hplan : ∀ f ∈ e :: events, f.subscription = e.subscription → f.Monthly d offset)
    (hsorted : ∀ f ∈ events, e.effective.instant ≤ f.effective.instant)
    (hfirst : e.units (successor e events) target = .ok first)
    (h : Tiled e.subscription target d events rest) :
    Tiled e.subscription target d (e :: events) (first ++ rest) := by
  have hhead : (e :: events).find? (·.subscription = e.subscription) = some e :=
    List.find?_cons_of_pos (by simp)
  have hmonthly := hplan e List.mem_cons_self rfl
  rcases Event.units_eq_ok.mp hfirst with ⟨hnone, -⟩ | ⟨-, -, hfirst⟩
  · simp [Event.recurs, hmonthly.period] at hnone
  split at hfirst
  · rename_i hdue
    rw [hmonthly.period, hmonthly.cycleDay] at hfirst
    have hoffset : ∀ t, (successor e events).map (·.effective) = some t →
        t.offset = e.effective.offset := by
      intro t ht
      obtain ⟨g, hg, rfl⟩ := Option.map_eq_some_iff.mp ht
      have hsame : g.subscription = e.subscription := by simpa using List.find?_some hg
      have hlater := hplan g (List.mem_cons_of_mem e (List.mem_of_find?_eq_some hg)) hsame
      rw [hlater.offset, hmonthly.offset]
    obtain ⟨last, htiles, hshares, hreached⟩ := Proration.tiles_spans hoffset hfirst
    refine ⟨fun s hs => ?_, fun hearly => ?_, fun f hf _ => ?_⟩
    · rcases List.mem_append.mp hs with hs | hs
      · exact hshares s hs
      · exact h.shares s hs
    · have := hearly e hhead
      omega
    · obtain rfl := Option.some.inj (hhead.symm.trans hf)
      by_cases hnext : ∃ g, successor e events = some g ∧
          g.effective.instant ≤ target.instant
      · -- the stretch ends where the next one starts
        obtain ⟨g, hg, hgdue⟩ := hnext
        obtain ⟨last', hrest⟩ := h.due g hg hgdue
        obtain rfl := hreached g.effective (by rw [hg]; rfl) hgdue
        exact ⟨last', htiles.append hrest⟩
      · obtain rfl := h.early fun g hg => Int.not_le.mp fun hle => hnext ⟨g, hg, hle⟩
        rw [List.append_nil]
        exact ⟨_, htiles⟩
  · rename_i hlate
    cases hfirst
    obtain rfl := h.early fun g hg => by
      have := hsorted g (List.mem_of_find?_eq_some hg)
      omega
    refine ⟨fun _ hs => absurd hs List.not_mem_nil, fun _ => rfl, fun f hf hle => ?_⟩
    obtain rfl := Option.some.inj (hhead.symm.trans hf)
    exact absurd hle hlate

/-- **The units of a monthly subscription tile the days** from its first event on. -/
theorem tiled_unitsOf {d : CycleDay} {offset : Option Offset}
    (hplan : ∀ e ∈ events, e.subscription = subscription → e.Monthly d offset)
    (hsorted : events.Pairwise fun a b => a.effective.instant ≤ b.effective.instant)
    (h : unitsOf subscription target events = .ok pieces) :
    Tiled subscription target d events pieces := by
  induction events generalizing pieces with
  | nil =>
    cases h
    exact ⟨fun _ hs => absurd hs List.not_mem_nil, fun _ => rfl, fun f hf => by cases hf⟩
  | cons e events ih =>
    rw [List.pairwise_cons] at hsorted
    have hlater : ∀ f ∈ events, f.subscription = subscription → f.Monthly d offset :=
      fun f hf => hplan f (List.mem_cons_of_mem e hf)
    by_cases hsame : e.subscription = subscription
    · subst hsame
      obtain ⟨first, rest, hfirst, hrest, rfl⟩ := (unitsOf_cons_eq_ok rfl).mp h
      exact .cons hplan hsorted.1 hfirst (ih hlater hsorted.2 hrest)
    · rw [unitsOf_cons_of_ne hsame] at h
      obtain ⟨hshares, hearly, hdue⟩ := ih hlater hsorted.2 h
      have hskip : (e :: events).find? (·.subscription = subscription) =
          events.find? (·.subscription = subscription) :=
        List.find?_cons_of_neg (by simpa using hsame)
      exact ⟨hshares, by rwa [hskip], by rwa [hskip]⟩

end Timeline

/-! ### One cycle -/

/-- The piece starts on one of the days from one date to before another. -/
def Span.startsWithin (low high : Date) (s : Span) : Bool :=
  low.dayNumber ≤ s.start.date.dayNumber && s.start.date.dayNumber < high.dayNumber

namespace Span.Shares

variable {s : Span} {d : CycleDay} {m n p q : Month}

/-- A piece that starts in a cycle is a share of that cycle. -/
theorem of_startsWithin (h : s.Shares d p q) (hnext : n.index = m.index + 1)
    (hwithin : s.startsWithin (d.on m) (d.on n) = true) : s.Shares d m n := by
  simp only [startsWithin, Bool.and_eq_true, decide_eq_true_eq] at hwithin
  have hpn : p.index < n.index := Nat.lt_of_not_le fun hle => by
    have := d.on_le hle
    have := h.start_ge
    omega
  have hmq : m.index < q.index := Nat.lt_of_not_le fun hle => by
    have := d.on_le hle
    have := h.start_lt
    have := h.stop_le
    omega
  have hpq := h.next
  obtain rfl : p = m := Month.eq_of_index (by omega)
  obtain rfl : q = n := Month.eq_of_index (by omega)
  exact h

/-- A piece that starts before a cycle is over by then. -/
theorem stop_le_of_start_lt (h : s.Shares d p q)
    (hlt : s.start.date.dayNumber < (d.on m).dayNumber) :
    s.stop.date.dayNumber ≤ (d.on m).dayNumber := by
  have hpm : p.index < m.index := Nat.lt_of_not_le fun hle => by
    have := d.on_le hle
    have := h.start_ge
    omega
  have hpq := h.next
  exact Nat.le_trans h.stop_le (d.on_le (by omega))

/-- A piece counts as its days by those of the cycle, to 28 digits. -/
theorem cycles_value (h : s.Shares d m n) : s.cycles.value =
    Decimal.nearest (s.start.daysBetween s.stop / ((d.on n).dayNumber - (d.on m).dayNumber)) := by
  have hdays : 0 < s.start.daysBetween s.stop := Moment.daysBetween_pos_iff.mpr h.start_lt
  have hnext : m.index < n.index := by
    have := h.next
    omega
  have hlength := d.on_lt hnext
  rw [h.cycles, Decimal.ratio_days_eq_nearest hdays (Nat.sub_pos_of_lt hlength),
    Nat.cast_sub hlength.le]

end Span.Shares

/-- The pieces that start in a cycle have as many days as the cycle has in common with all of
them. -/
theorem Tiles.sum_startsWithin {d : CycleDay} {m n : Month} (hnext : n.index = m.index + 1)
    {first last : Nat} {pieces : List Span} (h : Tiles first pieces last)
    (hshares : ∀ s ∈ pieces, ∃ p q, s.Shares d p q) :
    ((pieces.filter (Span.startsWithin (d.on m) (d.on n))).map fun s =>
      s.start.daysBetween s.stop).sum =
        max ((d.on m).dayNumber : Int) (min last (d.on n).dayNumber) -
          max ((d.on m).dayNumber : Int) (min first (d.on n).dayNumber) := by
  have hlength : (d.on m).dayNumber < (d.on n).dayNumber := d.on_lt (by omega)
  induction h with
  | nil => simp
  | @cons s rest last hrest ih =>
    have hsum := ih fun t ht => hshares t (List.mem_cons_of_mem s ht)
    obtain ⟨p, q, hs⟩ := hshares s List.mem_cons_self
    have hdays := hs.start_lt
    cases hwithin : s.startsWithin (d.on m) (d.on n) with
    | true =>
      have hstop := (hs.of_startsWithin hnext hwithin).stop_le
      rw [List.filter_cons_of_pos hwithin, List.map_cons, List.sum_cons, hsum]
      simp only [Span.startsWithin, Bool.and_eq_true, decide_eq_true_eq] at hwithin
      unfold Moment.daysBetween
      omega
    | false =>
      rw [List.filter_cons_of_neg (by simp [hwithin]), hsum]
      simp only [Span.startsWithin, Bool.and_eq_false_iff, decide_eq_false_iff_not] at hwithin
      rcases Nat.lt_or_ge s.start.date.dayNumber (d.on m).dayNumber with hbefore | hafter
      · have := hs.stop_le_of_start_lt hbefore
        omega
      · omega

/-- A cycle within the days that the units tile has all its days among theirs. -/
theorem Timeline.Tiled.sum_startsWithin {subscription : Uuid} {target : Moment} {d : CycleDay}
    {m n : Month} {events : List Event} {units : List Span} {first : Event} {last : Span}
    (h : Tiled subscription target d events units)
    (hfirst : events.find? (·.subscription = subscription) = some first)
    (hlast : units.getLast? = some last) (hnext : n.index = m.index + 1)
    (hstart : first.effective.date.dayNumber ≤ (d.on m).dayNumber)
    (hstop : (d.on n).dayNumber ≤ last.stop.date.dayNumber) :
    ((units.filter (Span.startsWithin (d.on m) (d.on n))).map fun s =>
      s.start.daysBetween s.stop).sum = (d.on n).dayNumber - (d.on m).dayNumber := by
  have hdue : first.effective.instant ≤ target.instant := by
    refine Int.not_lt.mp fun hearly => ?_
    have hnone := h.early fun f hf => by
      obtain rfl := Option.some.inj (hfirst.symm.trans hf)
      exact hearly
    rw [hnone] at hlast
    cases hlast
  obtain ⟨day, htiles⟩ := h.due first hfirst hdue
  have hlength : (d.on m).dayNumber < (d.on n).dayNumber := d.on_lt (by omega)
  have hday := htiles.last_eq hlast
  rw [htiles.sum_startsWithin hnext h.shares]
  omega

/-- **Every cycle is billed once.** Where all events of a subscription are billed by the month and
in advance, on one cycle day, at some price and in one offset, its recurring items are its units,
priced. Take a month's cycle date and the next, no earlier than the first event and no later than
the end of the last unit. The units that start from the one date to before the other end by then,
have as many days together as lie between the dates, and count as the quotient of their own days by
those, rounded to 28 digits. -/
theorem cycle_billed_once (subscription : Uuid) (d : CycleDay) (offset : Option Offset)
    {events : List Event} {timeline : Timeline} {terms : Terms} {now target : Moment}
    {ids : Nat → Uuid} {invoice : Uuid} {currency : LooseText} {items : List Item}
    (hplan : ∀ e ∈ events, e.subscription = subscription → e.Monthly d offset)
    (hordered : Timeline.of events = .ok timeline)
    (hexpand : timeline.expand terms now ids invoice target currency = .ok items) :
    ∃ units, Timeline.unitsOf subscription target timeline.events = .ok units ∧
      List.Forall₂ (Span.Priced terms) units
        ((recurring (itemsUnder subscription items)).map (·.charge)) ∧
      ∀ (first : Event) (last : Span) (m n : Month),
        timeline.events.find? (·.subscription = subscription) = some first →
        units.getLast? = some last → n.index = m.index + 1 →
        first.effective.date.dayNumber ≤ (d.on m).dayNumber →
        (d.on n).dayNumber ≤ last.stop.date.dayNumber →
        (∀ s ∈ units, s.startsWithin (d.on m) (d.on n) = true →
          s.stop.date.dayNumber ≤ (d.on n).dayNumber ∧
            s.cycles = .ratio (s.start.daysBetween s.stop).toNat
              ((d.on n).dayNumber - (d.on m).dayNumber) ∧
            s.cycles.value = Decimal.nearest
              (s.start.daysBetween s.stop / ((d.on n).dayNumber - (d.on m).dayNumber))) ∧
          ((units.filter (Span.startsWithin (d.on m) (d.on n))).map fun s =>
            s.start.daysBetween s.stop).sum = (d.on n).dayNumber - (d.on m).dayNumber := by
  have hcovered : ∀ e ∈ timeline.events, e.subscription = subscription → e.Monthly d offset :=
    fun e he => hplan e ((Timeline.mem_events_of hordered).mp he)
  obtain ⟨units, hunits, hpriced⟩ := Timeline.units_of_chargesOf
    (fun e he hsame => (hcovered e he hsame).priced) (Timeline.map_charge_of_expand hexpand)
  have htiled := Timeline.tiled_unitsOf hcovered
    ((Timeline.sorted_of_of hordered).imp And.right) hunits
  refine ⟨units, hunits, ?_, fun first last m n hfirst hlast hnext hstart hstop => ⟨?_, ?_⟩⟩
  · have hcharges : (recurring (itemsUnder subscription items)).map (·.charge) =
        (items.map (·.charge)).filter fun c =>
          c.subscription = subscription ∧ c.kind = .recurring := by
      rw [map_charge_recurring, map_charge_itemsUnder, List.filter_filter]
      refine List.filter_congr fun c _ => ?_
      simp [Bool.and_comm]
    rwa [hcharges]
  · intro s hs hwithin
    obtain ⟨p, q, hshares⟩ := htiled.shares s hs
    have hown := hshares.of_startsWithin hnext hwithin
    exact ⟨hown.stop_le, hown.cycles, hown.cycles_value⟩
  · exact htiled.sum_startsWithin hfirst hlast hnext hstart hstop

namespace Sample

/-- Noon on a day of the year. -/
def noon (month date : Nat) : Moment :=
  { day month date with clock := 43200000000, clock_lt := by decide }

/-- Sixty a month, from noon on the tenth of February. -/
def upgrade : Event :=
  { event with
    effective := noon 2 10, fixedPrice := none, recurringPrice := some (hundredths 6000)
    phaseLength := none }

/-- The phase, the rest of January, and the two parts of February. -/
def upgraded : List Charge := [
  charge (day 1 10) (some (day 1 24)) (hundredths 500) .fixed,
  charge (day 1 10) (some (day 2 1)) (hundredths 2129) (.recurring (hundredths 3000) none),
  charge (day 2 1) (some (noon 2 10)) (hundredths 931) (.recurring (hundredths 3000) none),
  charge (noon 2 10) (some (noon 3 1)) (hundredths 4138) (.recurring (hundredths 6000) none)]

/-- The February of that year, and the March. -/
def february : Month := ⟨24241, by decide, by decide⟩

def march : Month := ⟨24242, by decide, by decide⟩

/-- February up to the upgrade, and from then on. -/
def oldPart : Span := ⟨day 2 1, noon 2 10, .ratio 9 29⟩

def newPart : Span := ⟨noon 2 10, noon 3 1, .ratio 20 29⟩

theorem days_oldPart : oldPart.start.daysBetween oldPart.stop = 9 := by decide

theorem days_newPart : newPart.start.daysBetween newPart.stop = 20 := by decide

theorem days_february : ((CycleDay.first.on march).dayNumber : ℚ) -
    (CycleDay.first.on february).dayNumber = 29 := by
  have hdays : (CycleDay.first.on march).dayNumber =
      (CycleDay.first.on february).dayNumber + 29 := by decide
  rw [hdays]
  push_cast
  ring

/-- Some of the 29 days of February, to 28 digits. -/
theorem nearest_february {n q : ℕ} (hn : 3 ≤ n) (hlt : n < 29)
    (hquotient : Rounding.halfEven.quotient false (n * 10 ^ 28) 29 = q) :
    Decimal.nearest (n / 29) = q / 10 ^ 28 := by
  rw [← hquotient]
  exact @Decimal.nearest_div n 29 28 (by decide) (by omega) (by omega)

end Sample

open Sample in
/-- Nine days at the old price and twenty at the new one: they count as 9/29 and 20/29 of February,
to 28 digits. -/
theorem cycle_billed_once_upgrade : ∃ units,
    Timeline.unitsOf (uuid 1) (day 2 20) [event, upgrade] = .ok units ∧
      (units.filter (Span.startsWithin (CycleDay.first.on february) (CycleDay.first.on march))).map
          (fun s => (s.start.daysBetween s.stop, s.cycles)) =
        [(9, .ratio 9 29), (20, .ratio 20 29)] ∧
      (Decimal.ratio 9 29).value = 3103448275862068965517241379 / 10 ^ 28 ∧
      (Decimal.ratio 20 29).value = 6896551724137931034482758621 / 10 ^ 28 ∧
      ((units.filter (Span.startsWithin (CycleDay.first.on february) (CycleDay.first.on march))).map
        fun s => s.start.daysBetween s.stop).sum = 29 := by
  have hplan : ∀ e ∈ [event, upgrade], e.subscription = uuid 1 →
      e.Monthly .first (some .utc) := by
    intro e he _
    rcases List.mem_pair.mp he with rfl | rfl
    · exact ⟨rfl, rfl, rfl, by decide, rfl⟩
    · exact ⟨rfl, rfl, rfl, by decide, rfl⟩
  have hordered : Timeline.of [event, upgrade] = .ok ⟨[event, upgrade]⟩ :=
    Timeline.of_eq_self (by decide) (by decide)
  have hcharges : (⟨[event, upgrade]⟩ : Timeline).charges .standard (day 2 20) (.text "USD") =
      .ok upgraded := by decide +kernel
  have hexpand : Timeline.expand ⟨[event, upgrade]⟩ .standard (day 1 12) (supply 0) (uuid 100)
      (day 2 20) (.text "USD") = .ok _ := Timeline.expand_eq_ok.mpr ⟨upgraded, hcharges, rfl⟩
  obtain ⟨units, hunits, -, hcovered⟩ :=
    cycle_billed_once (uuid 1) .first (some .utc) hplan hordered hexpand
  have hspans : Timeline.unitsOf (uuid 1) (day 2 20) [event, upgrade] = .ok [
      ⟨day 1 10, day 2 1, .ratio 22 31⟩, oldPart, newPart] := by decide +kernel
  obtain rfl := Except.ok.inj (hspans.symm.trans hunits)
  obtain ⟨hwithin, hsum⟩ :=
    hcovered event _ february march (by decide) rfl rfl (by decide) (by decide)
  have hfiltered : [⟨day 1 10, day 2 1, .ratio 22 31⟩, oldPart, newPart].filter
      (Span.startsWithin (CycleDay.first.on february) (CycleDay.first.on march)) =
        [oldPart, newPart] := by decide +kernel
  obtain ⟨-, holdRatio, hold⟩ := hwithin oldPart (by simp) (by decide)
  obtain ⟨-, hnewRatio, hnew⟩ := hwithin newPart (by simp) (by decide)
  rw [days_oldPart, days_february, Int.cast_ofNat] at hold
  rw [days_newPart, days_february, Int.cast_ofNat] at hnew
  have hnine : Decimal.nearest (9 / 29) = 3103448275862068965517241379 / 10 ^ 28 :=
    nearest_february (n := 9) (by decide) (by decide) (by decide)
  have htwenty : Decimal.nearest (20 / 29) = 6896551724137931034482758621 / 10 ^ 28 :=
    nearest_february (n := 20) (by decide) (by decide) (by decide)
  refine ⟨_, hunits, ?_, hold.trans hnine, hnew.trans htwenty, hsum⟩
  rw [hfiltered, List.map_cons, List.map_cons, List.map_nil, holdRatio, hnewRatio, days_oldPart,
    days_newPart]
  rfl

end BillRun
