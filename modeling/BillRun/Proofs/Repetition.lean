import BillRun.Proofs.Arranging

/-! An event that is listed twice.

The two of them stand side by side in the timeline (`Timeline.of_repeated`), and the second is the
successor of the first. So the stretch of the first has no length and no pieces
(`Proration.spans_to_start`), and per cycle only the second charges anything. A fixed price has no
stretch: both charge it. So a repeated event is billed once exactly when it has no fixed price, or
none yet (`repeated_billed_once_iff`). -/
namespace BillRun

open Calendar

/-! ### The second one's place -/

/-- Something listed twice stands twice in the sorted list, side by side. -/
theorem mergeSort_repeated {α : Type} {le : α → α → Bool}
    (trans : ∀ a b c, le a b = true → le b c = true → le a c = true)
    (total : ∀ a b, (le a b || le b a) = true) (before : List α) (a : α) (after : List α) :
    ∃ low high, (before ++ a :: after).mergeSort le = low ++ a :: high ∧
      (before ++ a :: a :: after).mergeSort le = low ++ a :: a :: high := by
  induction before with
  | nil =>
    have hrefl : le a a = true := by simpa using total a a
    obtain ⟨low, high, hone, -, hlow, hhigh⟩ := filter_mergeSort_cons trans total a after
    obtain ⟨low', high', htwo, -, hlow', hhigh'⟩ := filter_mergeSort_cons trans total a (a :: after)
    refine ⟨low, high, hone, ?_⟩
    -- all that the first passed over the second passes over too
    have hbelow : ∀ b ∈ low, (!le a b) = true := fun b hb => by
      rw [← hlow] at hb
      exact (List.mem_filter.mp hb).2
    have habove : ∀ b ∈ high, le a b = true := fun b hb => by
      rw [← hhigh] at hb
      exact (List.mem_filter.mp hb).2
    rw [hone, List.filter_append, List.filter_cons_of_neg (by simp [hrefl]),
      List.filter_eq_self.mpr hbelow,
      List.filter_eq_nil_iff.mpr fun b hb => by simp [habove b hb], List.append_nil] at hlow'
    rw [hone, List.filter_append, List.filter_cons_of_pos hrefl, List.filter_eq_self.mpr habove,
      List.filter_eq_nil_iff.mpr fun b hb => by simpa using hbelow b hb, List.nil_append] at hhigh'
    rw [List.nil_append, htwo, ← hlow', ← hhigh']
  | cons b before ih =>
    obtain ⟨low, high, hone, htwo⟩ := ih
    obtain ⟨below, above, hcons, -, hbelow, habove⟩ :=
      filter_mergeSort_cons trans total b (before ++ a :: after)
    obtain ⟨below', above', hcons', -, hbelow', habove'⟩ :=
      filter_mergeSort_cons trans total b (before ++ a :: a :: after)
    rw [hone, List.filter_append] at hbelow habove
    rw [htwo, List.filter_append] at hbelow' habove'
    rw [List.cons_append, List.cons_append, hcons, hcons', ← hbelow, ← habove, ← hbelow', ← habove']
    cases hle : le b a with
    | true =>
      refine ⟨low.filter (fun c => !le b c) ++ high.filter (fun c => !le b c) ++
        b :: low.filter (le b), high.filter (le b), ?_, ?_⟩ <;> simp [hle]
    | false =>
      refine ⟨low.filter (fun c => !le b c), high.filter (fun c => !le b c) ++
        b :: (low.filter (le b) ++ high.filter (le b)), ?_, ?_⟩ <;> simp [hle]

theorem Timeline.of_repeated {before after : List Event} {e : Event} {timeline : Timeline}
    (h : Timeline.of (before ++ e :: after) = .ok timeline) :
    ∃ timeline' low high, Timeline.of (before ++ e :: e :: after) = .ok timeline' ∧
      timeline.events = low ++ e :: high ∧ timeline'.events = low ++ e :: e :: high := by
  obtain ⟨horderable, hevents⟩ := of_eq_ok.mp h
  obtain ⟨low, high, hone, htwo⟩ :=
    mergeSort_repeated Event.le_trans Event.le_total before e after
  refine ⟨⟨low ++ e :: e :: high⟩, low, high, of_eq_ok.mpr ⟨?_, htwo.symm⟩, hevents.trans hone, rfl⟩
  simpa [Event.orderable] using horderable

/-! ### The first one's stretch -/

/-- A stretch that stops as it starts has no pieces. -/
theorem Proration.spans_to_start {start target : Moment} {stop : Option Moment} {day : Int}
    {period : Period} {pieces : List Span}
    (h : spans start stop target day period = .ok pieces) :
    spans start (some start) target day period = .ok [] := by
  obtain ⟨-, hdue, hperiod, first, e, hfirst, -, hcut⟩ := spans_eq_ok.mp h
  obtain ⟨haligned, hle⟩ := aligned_of_firstDate hfirst
  obtain ⟨hcomparable, hdecided⟩ := Moment.lt_eq_ok.mp hdue
  have hreached : start.instant ≤ target.instant := by simpa using hdecided
  have hmonths : (0 : Int) < period.months := by omega
  obtain ⟨before, count, cycles, after, -, hcount, -⟩ := cut_eq_ok.mp hcut
  have hpast := Cycle.past_of_pastFrom hcount
  -- the boundary after the first exists, since the longer stretch was compared with it
  obtain ⟨next, hnext⟩ : ∃ b, (⟨first, period.months, day⟩ : Cycle).boundary 1 = .ok b := by
    rcases Nat.eq_zero_or_pos count with rfl | hpos
    · obtain ⟨b, hb, -⟩ := hpast.after
      exact ⟨b, hb⟩
    · obtain ⟨b, hb, -⟩ := hpast.before 1 (Nat.le_refl 1) (by omega)
      exact ⟨b, hb⟩
  have hlater : first.instant < next.instant := Cycle.boundary_lt hmonths rfl hnext Nat.one_pos
  have hearly : ¬next.instant ≤ start.instant := by omega
  refine spans_eq_ok.mpr ⟨?_, hdue, hperiod, first, start, hfirst, ?_, cut_eq_ok.mpr
    ⟨[], 0, [], [], ?_, ?_, rfl, ?_, rfl⟩⟩
  · exact Moment.lt_eq_ok.mpr ⟨rfl, by simp⟩
  · exact Moment.le_branch_eq_ok.mpr ⟨hcomparable.symm, by rw [if_pos hreached]; rfl⟩
  · refine leading_eq_ok.mpr ⟨haligned.symm.comparable, ?_⟩
    split
    · refine ⟨start, Moment.earlier_eq_ok.mpr ⟨haligned.symm.comparable, by rw [if_pos ‹_›]⟩, ?_⟩
      rw [if_neg]
      unfold Moment.daysBetween
      omega
    · rfl
  · have hcompare : Moment.Comparable next start :=
      ((Cycle.aligned_of_boundary hnext).1.trans haligned).comparable
    show Cycle.pastFrom _ start (119999 + 1) 1 = .ok 1
    rw [Cycle.pastFrom, hnext, ok_bind, Moment.le_branch hcompare, if_neg hearly]
    rfl
  · exact trailing_eq_ok.mpr ⟨first, rfl, haligned.comparable, by rw [if_neg (by omega)]⟩

namespace Event

variable {e : Event} {successor : Option Event} {terms : Terms} {target : Moment}
  {currency : LooseText} {charges : List Charge}

theorem recurringCharges_repeated
    (h : e.recurringCharges successor terms target currency = .ok charges) :
    e.recurringCharges (some e) terms target currency = .ok [] := by
  rcases recurringCharges_eq_ok.mp h with ⟨hnone, -⟩ | ⟨hrecurs, hcomparable, h⟩
  · exact recurringCharges_eq_ok.mpr (.inl ⟨hnone, rfl⟩)
  refine recurringCharges_eq_ok.mpr (.inr ⟨hrecurs, hcomparable, ?_⟩)
  split at h
  · rw [if_pos ‹_›]
    obtain ⟨hmode, pieces, hpieces, -⟩ := perCycle_eq_ok.mp h
    refine perCycle_eq_ok.mpr ⟨hmode, [], Proration.spans_to_start hpieces, ?_⟩
    split <;> rfl
  · rw [if_neg ‹_›]

/-- The event has a fixed price, and the target has reached it. -/
def Upfront (e : Event) (target : Moment) : Prop :=
  e.fixedPrice ≠ none ∧ e.effective.instant ≤ target.instant

/-- What an event charges upfront is something when it has a fixed price that is due. -/
theorem fixedCharges_eq_nil_iff (h : e.fixedCharges target currency = .ok charges) :
    charges = [] ↔ ¬e.Upfront target := by
  obtain ⟨-, h⟩ := fixedCharges_eq_ok.mp h
  unfold Upfront
  split at h
  · cases h
    simp only [true_iff]
    omega
  · rename_i hdue
    unfold upfront at h
    split at h
    · cases h
      simp [*]
    · split at h
      · cases h
        simp [*, Int.not_lt.mp hdue]
      · obtain ⟨stop, -, h⟩ := bind_eq_ok.mp h
        cases h
        simp [*, Int.not_lt.mp hdue]

end Event

/-! ### What the two charge -/

namespace Timeline

variable {terms : Terms} {target : Moment} {currency : LooseText} {e : Event}
  {low high : List Event} {charges : List Charge}

theorem successor_repeated (f e : Event) (low high : List Event) :
    successor f (low ++ e :: e :: high) = successor f (low ++ e :: high) := by
  unfold successor
  rw [List.find?_append, List.find?_append]
  by_cases hsame : e.subscription = f.subscription <;> simp [hsame]

/-- **A repeated event charges its fixed price once more**, and nothing else. -/
theorem chargesOf_repeated (h : chargesOf terms target currency (low ++ e :: high) = .ok charges) :
    ∃ fixed earlier later, e.fixedCharges target currency = .ok fixed ∧
      charges = earlier ++ later ∧
      chargesOf terms target currency (low ++ e :: e :: high) =
        .ok (earlier ++ fixed ++ later) := by
  induction low generalizing charges with
  | nil =>
    obtain ⟨first, rest, hfirst, hrest, rfl⟩ := chargesOf_cons_eq_ok.mp h
    obtain ⟨fixed, recurring, hfixed, hrecurring, -⟩ := Event.charges_eq_ok.mp hfirst
    have hself : successor e (e :: high) = some e := List.find?_cons_of_pos (by simp)
    have htwice : e.charges (successor e (e :: high)) terms target currency = .ok fixed := by
      rw [hself]
      exact Event.charges_eq_ok.mpr
        ⟨fixed, [], hfixed, Event.recurringCharges_repeated hrecurring, by simp⟩
    exact ⟨fixed, [], first ++ rest, hfixed, rfl, chargesOf_cons_eq_ok.mpr
      ⟨fixed, first ++ rest, htwice, h, rfl⟩⟩
  | cons f low ih =>
    rw [List.cons_append] at h
    obtain ⟨first, rest, hfirst, hrest, rfl⟩ := chargesOf_cons_eq_ok.mp h
    obtain ⟨fixed, earlier, later, hfixed, rfl, hboth⟩ := ih hrest
    rw [← successor_repeated] at hfirst
    exact ⟨fixed, first ++ earlier, later, hfixed, by rw [List.append_assoc],
      chargesOf_cons_eq_ok.mpr ⟨first, earlier ++ fixed ++ later, hfirst, hboth, by simp⟩⟩

theorem charges_repeated {before after : List Event} {timeline : Timeline}
    (hordered : Timeline.of (before ++ e :: after) = .ok timeline)
    (h : timeline.charges terms target currency = .ok charges) :
    ∃ timeline' fixed earlier later, Timeline.of (before ++ e :: e :: after) = .ok timeline' ∧
      e.fixedCharges target currency = .ok fixed ∧ charges = earlier ++ later ∧
      timeline'.charges terms target currency = .ok (earlier ++ fixed ++ later) := by
  obtain ⟨timeline', low, high, hordered', hevents, hevents'⟩ := of_repeated hordered
  unfold Timeline.charges at h ⊢
  rw [hevents] at h
  obtain ⟨fixed, earlier, later, hfixed, hcharges, htwice⟩ := chargesOf_repeated h
  rw [← hevents'] at htwice
  exact ⟨timeline', fixed, earlier, later, hordered', hfixed, hcharges, htwice⟩

end Timeline

/-- **A repeated event is billed once exactly unless it charges something upfront.** What it charges
upfront is billed twice in the expansion, and all else once. A run that finds nothing charged
upfront comes out as it would without the repetition. -/
theorem repeated_billed_once_iff (before after : List Event) (e : Event) :
    (∀ (timeline : Timeline) (terms : Terms) (now target : Moment) (ids : Nat → Uuid)
      (invoice : Uuid) (currency : LooseText) (items : List Item),
      Timeline.of (before ++ e :: after) = .ok timeline →
      timeline.expand terms now ids invoice target currency = .ok items →
      ∃ timeline' items' fixed, Timeline.of (before ++ e :: e :: after) = .ok timeline' ∧
        timeline'.expand terms now ids invoice target currency = .ok items' ∧
        e.fixedCharges target currency = .ok fixed ∧
        (keys items').Perm (fixed.map Charge.key ++ keys items) ∧
        ((keys items').Perm (keys items) ↔ ¬e.Upfront target)) ∧
    ∀ (o : Occasion) (issued : List Invoice) (r : RunRequest) (latest : Moment)
      (result : Option Invoice), latestTarget r.target issued = .ok latest → ¬e.Upfront latest →
      o.run (before ++ e :: after) issued r = .ok result →
      o.run (before ++ e :: e :: after) issued r = .ok result := by
  constructor
  · intro timeline terms now target ids invoice currency items hordered hexpand
    obtain ⟨charges, hcharges, rfl⟩ := Timeline.expand_eq_ok.mp hexpand
    obtain ⟨timeline', fixed, earlier, later, hordered', hfixed, rfl, htwice⟩ :=
      Timeline.charges_repeated hordered hcharges
    have hperm : ((earlier ++ fixed ++ later).map Charge.key).Perm
        (fixed.map Charge.key ++ (earlier ++ later).map Charge.key) := by
      rw [← List.map_append, ← List.append_assoc]
      exact (List.perm_append_comm.append_right later).map _
    refine ⟨timeline', _, fixed, hordered', Timeline.expand_eq_ok.mpr ⟨_, htwice, rfl⟩, hfixed, ?_⟩
    rw [keys_issue, keys_issue, ← Event.fixedCharges_eq_nil_iff hfixed]
    refine ⟨hperm, fun hsame => ?_, ?_⟩
    · simpa using (hperm.symm.trans hsame).length_eq
    · rintro rfl
      exact hperm
  · intro o issued r latest result hlatest hnone hrun
    obtain ⟨timeline, target, proposed, new, hran, rfl⟩ := (run_eq_ok (by simp)).mp hrun
    obtain rfl := Except.ok.inj (hlatest.symm.trans hran.raised)
    obtain ⟨charges, hcharges, hproposed⟩ := Timeline.expand_eq_ok.mp hran.expanded
    obtain ⟨timeline', fixed, earlier, later, hordered', hfixed, rfl, htwice⟩ :=
      Timeline.charges_repeated hran.ordered hcharges
    obtain rfl := (Event.fixedCharges_eq_nil_iff hfixed).mpr hnone
    rw [List.append_nil] at htwice
    exact (run_eq_ok (by simp)).mpr ⟨timeline', latest, proposed, new, ⟨hordered', hran.horizon,
      hran.raised, Timeline.expand_eq_ok.mpr ⟨_, htwice, hproposed⟩, hran.settlement⟩, rfl⟩

namespace Sample

/-- Thirty a month from the tenth of January, and nothing upfront. -/
def subscribed : Event := { event with fixedPrice := none, phaseLength := none }

/-- The rest of January, and February. -/
def twoMonths : List Charge := [
  charge (day 1 10) (some (day 2 1)) (hundredths 2129) (.recurring (hundredths 3000) none),
  charge (day 2 1) (some (day 3 1)) (hundredths 3000) (.recurring (hundredths 3000) none)]

/-- The other subscription's phase, and after it the two months. -/
def besides : List Charge :=
  neighbour.charge (day 1 9) (some (day 1 23)) (hundredths 500) (.text "USD") .fixed :: twoMonths

/-- An invoice over them. -/
def plain : Invoice where
  id := supply 0 0
  account := uuid 2
  date := day 1 12
  target := day 2 5
  currency := .text "USD"
  items := besides.mapIdx fun n c => c.issue (supply 0 (n + 1)) (supply 0 0) (day 1 12)

theorem of_besides : Timeline.of [neighbour, subscribed] = .ok ⟨[neighbour, subscribed]⟩ :=
  Timeline.of_eq_self (by decide) (by decide)

theorem charges_besides : (⟨[neighbour, subscribed]⟩ : Timeline).charges .standard (day 2 5)
    (.text "USD") = .ok besides := by decide +kernel

theorem run_besides : (⟨.standard, day 1 12, supply 0⟩ : Occasion).run [neighbour, subscribed] []
    request = .ok (some plain) :=
  (run_eq_ok (by decide)).mpr ⟨_, day 2 5, plain.items, plain.items, ⟨of_besides, by decide,
    by decide, Timeline.expand_eq_ok.mpr ⟨besides, charges_besides, rfl⟩, [],
    arrange_of_pairwise (by decide) (by decide), by decide +kernel⟩, rfl⟩

/-- The phase of an event. -/
def phase : Charge := charge (day 1 10) (some (day 1 24)) (hundredths 500) .fixed

end Sample

open Sample in
/-- A subscription that is listed twice is billed once. -/
theorem repeated_billed_once_besides :
    (∃ timeline items, Timeline.of [neighbour, subscribed, subscribed] = .ok timeline ∧
      timeline.expand .standard (day 1 12) (supply 0) (uuid 100) (day 2 5) (.text "USD") =
        .ok items ∧
      (keys items).Perm (besides.map Charge.key)) ∧
    (⟨.standard, day 1 12, supply 0⟩ : Occasion).run [neighbour, subscribed, subscribed] []
      request = .ok (some plain) := by
  obtain ⟨hexpanded, hbilled⟩ := repeated_billed_once_iff [neighbour] [] subscribed
  have hnone {target : Moment} : ¬subscribed.Upfront target := fun h => h.1 rfl
  refine ⟨?_, hbilled _ [] request (day 2 5) _ rfl hnone run_besides⟩
  obtain ⟨timeline, items, -, hordered, hexpand, -, -, hsame⟩ := hexpanded _ _ (day 1 12) _ (supply 0)
    (uuid 100) _ _ of_besides (Timeline.expand_eq_ok.mpr ⟨besides, charges_besides, rfl⟩)
  have hperm := hsame.mpr hnone
  rw [keys_issue] at hperm
  exact ⟨timeline, items, hordered, hexpand, hperm⟩

open Sample in
/-- An event with a fixed price that is listed twice is billed one item more. -/
theorem phase_billed_twice : ∃ items items',
    Timeline.of [event] = .ok ⟨[event]⟩ ∧
    Timeline.expand ⟨[event]⟩ .standard (day 1 12) (supply 0) (uuid 100) (day 2 5) (.text "USD") =
      .ok items ∧
    Timeline.of [event, event] = .ok ⟨[event, event]⟩ ∧
    Timeline.expand ⟨[event, event]⟩ .standard (day 1 12) (supply 0) (uuid 100) (day 2 5)
      (.text "USD") = .ok items' ∧
    ¬(keys items').Perm (keys items) := by
  have honce : (⟨[event]⟩ : Timeline).charges .standard (day 2 5) (.text "USD") =
      .ok (phase :: twoMonths) := by decide +kernel
  have htwice : (⟨[event, event]⟩ : Timeline).charges .standard (day 2 5) (.text "USD") =
      .ok (phase :: phase :: twoMonths) := by decide +kernel
  refine ⟨_, _, Timeline.of_eq_self (by decide) (by decide),
    Timeline.expand_eq_ok.mpr ⟨_, honce, rfl⟩, Timeline.of_eq_self (by decide) (by decide),
    Timeline.expand_eq_ok.mpr ⟨_, htwice, rfl⟩, fun hperm => ?_⟩
  exact absurd hperm.length_eq (by decide)

end BillRun
