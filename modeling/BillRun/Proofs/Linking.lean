import BillRun.Proofs.Arranging
import Mathlib.Data.Prod.Lex
import Mathlib.Data.String.Basic

/-! Events in order, and the links between those of one subscription.

Events are ordered by instant, ordering number and the text of their subscription; an identifier is
written in hexadecimal digits of a fixed count, so its text orders as its number does
(`Uuid.text_lt_text`). A timeline keeps the events that tie in the order in which they came.

The positions of a subscription in a timeline are found from left to right, and so is the successor
of an event. Both searches meet the same positions, so the successor of each is the next of them
(`Timeline.next_eq`), and a link is never between other events than that
(`Timeline.exists_of_next`). `Timeline.of_linked` says both of every list of events that can be put
in order. -/
namespace BillRun

open Calendar Text

/-! ### Identifiers in the order of their text -/

namespace Text

theorem digitChar_lt : ∀ a < 16, ∀ b < 16, a < b → Nat.digitChar a < Nat.digitChar b := by decide

/-- Of numbers that agree from bit `low` on, the greater is written later in the order of texts. -/
def Grows (low : Nat) (write : Nat → List Char) : Prop :=
  ∀ n m, n >>> low = m >>> low → n < m → write n < write m

variable {low : Nat} {write : Nat → List Char}

theorem grows_nil : Grows 0 fun _ => [] := by
  intro n m hagree hlt
  rw [Nat.shiftRight_zero, Nat.shiftRight_zero] at hagree
  omega

theorem Grows.cons (h : Grows low write) (c : Char) : Grows low fun n => c :: write n :=
  fun n m hagree hlt => List.cons_lt_cons_iff.mpr (.inr ⟨rfl, h n m hagree hlt⟩)

theorem Grows.digit (h : Grows low write) :
    Grows (low + 4) fun n => Nat.digitChar (n >>> low % 16) :: write n := by
  intro n m hagree hlt
  have hmono : n >>> low ≤ m >>> low := by
    rw [Nat.shiftRight_eq_div_pow, Nat.shiftRight_eq_div_pow]
    exact Nat.div_le_div_right (Nat.le_of_lt hlt)
  have hhigh : n >>> low / 16 = m >>> low / 16 := by
    rwa [Nat.shiftRight_add, Nat.shiftRight_add, Nat.shiftRight_eq_div_pow (n >>> low),
      Nat.shiftRight_eq_div_pow (m >>> low)] at hagree
  refine List.cons_lt_cons_iff.mpr ?_
  rcases Nat.lt_or_eq_of_le hmono with hless | heq
  · exact .inl (digitChar_lt _ (Nat.mod_lt _ (by decide)) _ (Nat.mod_lt _ (by decide)) (by omega))
  · rw [heq]
    exact .inr ⟨rfl, h n m heq hlt⟩

theorem Grows.hexDigits (h : Grows low write) (width : Nat) :
    Grows (low + 4 * width) fun n => hexDigits width (n >>> low) ++ write n := by
  induction width generalizing low write with
  | zero => exact h
  | succ width ih =>
    have hwritten (n : Nat) : Text.hexDigits (width + 1) (n >>> low) ++ write n =
        Text.hexDigits width (n >>> (low + 4)) ++
          Nat.digitChar (n >>> low % 16) :: write n := by
      rw [Text.hexDigits, List.append_assoc, List.singleton_append, Nat.shiftRight_add,
        Nat.shiftRight_eq_div_pow (n >>> low) 4]
    have hstep := ih h.digit
    simp only [hwritten]
    rwa [show low + 4 * (width + 1) = low + 4 + 4 * width by omega]

end Text

namespace Uuid

/-- An identifier is written digit by digit from its highest bits down. -/
theorem chars_lt {u v : Uuid} (h : u.value.toNat < v.value.toNat) : u.chars < v.chars := by
  have hgrows := ((((((((grows_nil.hexDigits 12).cons '-').hexDigits 4).cons '-').hexDigits 4).cons
    '-').hexDigits 4).cons '-').hexDigits 8
  have hhigh (w : Uuid) : w.value.toNat >>> 128 = 0 := Nat.shiftRight_eq_zero _ _ w.value.isLt
  simpa [chars] using hgrows _ _ ((hhigh u).trans (hhigh v).symm) h

/-- **Identifiers order as their text does.** -/
theorem text_lt_text {u v : Uuid} : u.text < v.text ↔ u.value.toNat < v.value.toNat := by
  have htext {u v : Uuid} (h : u.value.toNat < v.value.toNat) : u.text < v.text := by
    rw [String.lt_iff_toList_lt, text, text, String.toList_ofList, String.toList_ofList]
    exact chars_lt h
  refine ⟨fun h => ?_, htext⟩
  rcases Nat.lt_trichotomy u.value.toNat v.value.toNat with hlt | heq | hgt
  · exact hlt
  · obtain rfl : u = v := congrArg Uuid.mk (BitVec.eq_of_toNat_eq heq)
    exact absurd h (lt_irrefl _)
  · exact absurd h (lt_asymm (htext hgt))

theorem text_le_text {u v : Uuid} : u.text ≤ v.text ↔ u.value.toNat ≤ v.value.toNat := by
  rw [← not_lt, text_lt_text, Nat.not_lt]

end Uuid

/-! ### The order of events -/

namespace Event

/-- Instant, ordering number and text of the subscription, the first that differs counting. -/
def sortKey (e : Event) : ℤ ×ₗ ℤ ×ₗ String :=
  toLex (e.effective.instant, toLex (e.ordering, e.subscription.text))

theorem le_iff_sortKey {a b : Event} : a.le b = true ↔ a.sortKey ≤ b.sortKey := by
  simp [le_iff, sortKey, Prod.Lex.toLex_le_toLex, Uuid.text_le_text]

theorem orderable_of_comparable {events : List Event}
    (h : ∀ a ∈ events, ∀ b ∈ events, Moment.Comparable a.effective b.effective) :
    orderable events = true := by
  cases events with
  | nil => rfl
  | cons e events =>
    by_cases hanchored : e.effective.Anchored
    · exact orderable_of_anchored fun a ha => (h a ha e List.mem_cons_self).trans hanchored
    · have hnone : ((e :: events).map fun a => a.effective.mark.anchored).any id = false := by
        rw [List.any_map, List.any_eq_false]
        exact fun a ha hanchor =>
          hanchored ((h a ha e List.mem_cons_self).symm.trans hanchor)
      rw [orderable, hnone, Bool.not_false, Bool.or_true]

end Event

/-- Sorting leaves things with one key in the order in which they came. -/
theorem filter_mergeSort_of_key {events : List Event} (key : ℤ ×ₗ ℤ ×ₗ String) :
    (events.mergeSort Event.le).filter (·.sortKey = key) = events.filter (·.sortKey = key) := by
  rw [filter_mergeSort Event.le_trans Event.le_total]
  refine List.mergeSort_of_pairwise (List.pairwise_of_forall_mem_list fun a ha b hb => ?_)
  rw [List.mem_filter, decide_eq_true_eq] at ha hb
  rw [Event.le_iff_sortKey, ha.2, hb.2]

/-! ### Positions -/

section Positions

variable {α : Type} {p : α → Bool}

theorem at?_natCast (xs : List α) (i : Nat) : Sequence.at? xs i = xs[i]? := by
  unfold Sequence.at?
  rw [if_neg (by omega), if_neg (by omega), Int.toNat_natCast]

theorem head?_findIdxs (xs : List α) (start : Nat) :
    (xs.findIdxs p start).head? = (xs.findIdx? p).map (start + ·) := by
  induction xs generalizing start with
  | nil => rfl
  | cons x xs ih =>
    rw [List.findIdxs_cons, List.findIdx?_cons]
    split
    · rfl
    · rw [ih, Option.map_map]
      congr 1
      funext i
      exact Nat.add_right_comm start 1 i

/-- The search for the next after one of the positions finds the next of the positions. -/
theorem findIdx?_drop_of_findIdxs {xs : List α} {start i j : Nat}
    (h : (xs.findIdxs p start)[j]? = some i) :
    start ≤ i ∧
      ((xs.drop (i - start + 1)).findIdx? p).map (i + 1 + ·) = (xs.findIdxs p start)[j + 1]? := by
  induction xs generalizing start j with
  | nil => cases h
  | cons x xs ih =>
    rw [List.findIdxs_cons] at h ⊢
    -- a position among the later ones, where `x` is dropped as well
    have hlater {j : Nat} (h : (xs.findIdxs p (start + 1))[j]? = some i) :
        start ≤ i ∧ (((x :: xs).drop (i - start + 1)).findIdx? p).map (i + 1 + ·) =
          (xs.findIdxs p (start + 1))[j + 1]? := by
      obtain ⟨hle, hnext⟩ := ih h
      refine ⟨Nat.le_of_succ_le hle, ?_⟩
      rw [List.drop_succ_cons, ← hnext, show i - start = i - (start + 1) + 1 by omega]
    by_cases hx : p x = true
    · rw [if_pos hx] at h ⊢
      cases j with
      | zero =>
        obtain rfl : start = i := by simpa using h
        refine ⟨Nat.le_refl _, ?_⟩
        rw [Nat.sub_self, List.drop_succ_cons, List.drop_zero, List.getElem?_cons_succ,
          ← head?_findIdxs, List.head?_eq_getElem?]
      | succ j =>
        rw [List.getElem?_cons_succ] at h ⊢
        exact hlater h
    · rw [if_neg hx] at h ⊢
      exact hlater h

end Positions

/-! ### Links -/

namespace Timeline

variable {t : Timeline} {s : Uuid} {i j : Nat}

/-- Where the events of a subscription stand, from first to last. -/
def positions (t : Timeline) (s : Uuid) : List Nat := t.events.findIdxs (·.subscription = s)

theorem mem_positions : i ∈ t.positions s ↔ ∃ e, t.events[i]? = some e ∧ e.subscription = s := by
  rw [positions, List.mem_findIdxs_iff_exists_getElem_pos]
  simp [List.getElem?_eq_some_iff]

/-- The search for a successor starts right after the event. -/
theorem next_eq_search {e : Event} (h : t.events[i]? = some e) :
    t.next i = .ok (((t.events.drop (i + 1)).findIdx? (·.subscription = e.subscription)).map
      (i + 1 + ·)) := by
  have hlt := (List.getElem?_eq_some_iff.mp h).1
  have hfound : Sequence.at? t.events i = some e := (at?_natCast t.events i).trans h
  have hstart : Sequence.clamp t.events.length (i + 1) = i + 1 := by
    simp only [Sequence.clamp]
    omega
  unfold next
  rw [hfound, hstart]

/-- **The successor of an event is at the next position of its subscription.** -/
theorem next_eq (h : (t.positions s)[j]? = some i) : t.next i = .ok (t.positions s)[j + 1]? := by
  obtain ⟨e, he, rfl⟩ := mem_positions.mp (List.mem_of_getElem? h)
  rw [next_eq_search he, positions, ← (findIdx?_drop_of_findIdxs h).2, Nat.sub_zero]

/-- Charging an event finds its successor at the same place. -/
theorem successor_eq {e : Event} (h : (t.positions s)[j]? = some i) (he : t.events[i]? = some e) :
    successor e (t.events.drop (i + 1)) = (t.positions s)[j + 1]?.bind (t.events[·]?) := by
  obtain ⟨e', he', rfl⟩ := mem_positions.mp (List.mem_of_getElem? h)
  obtain rfl := Option.some.inj (he.symm.trans he')
  rw [successor, List.find?_eq_bind_findIdx?_getElem?, positions,
    ← (findIdx?_drop_of_findIdxs h).2, Nat.sub_zero, Option.bind_map]
  congr 1
  funext k
  exact List.getElem?_drop

/-- A link is between two positions of one subscription that follow on each other. -/
theorem exists_of_next {k : Nat} (h : t.next i = .ok (some k)) :
    ∃ s j, (t.positions s)[j]? = some i ∧ (t.positions s)[j + 1]? = some k := by
  cases hevent : t.events[i]? with
  | none =>
    have hfound : Sequence.at? t.events i = none := (at?_natCast t.events i).trans hevent
    unfold next at h
    rw [hfound] at h
    cases h
  | some e =>
    obtain ⟨j, hj⟩ := List.getElem?_of_mem (mem_positions.mpr ⟨e, hevent, rfl⟩)
    exact ⟨e.subscription, j, hj, Except.ok.inj ((next_eq hj).symm.trans h)⟩

/-- A link leads from an event to a later one. -/
theorem lt_of_next {k : Nat} (h : t.next i = .ok (some k)) :
    i < k ∧ ∃ e f, t.events[i]? = some e ∧ t.events[k]? = some f := by
  obtain ⟨s, j, hj, hk⟩ := exists_of_next h
  obtain ⟨e, he, -⟩ := mem_positions.mp (List.mem_of_getElem? hj)
  obtain ⟨f, hf, -⟩ := mem_positions.mp (List.mem_of_getElem? hk)
  refine ⟨?_, e, f, he, hf⟩
  obtain ⟨hj', rfl⟩ := List.getElem?_eq_some_iff.mp hj
  obtain ⟨hk', rfl⟩ := List.getElem?_eq_some_iff.mp hk
  exact List.pairwise_iff_getElem.mp List.pairwise_findIdxs _ _ hj' hk' (Nat.lt_succ_self j)

/-- No event is the successor of two. -/
theorem next_injective {i' k : Nat} (h : t.next i = .ok (some k)) (h' : t.next i' = .ok (some k)) :
    i = i' := by
  obtain ⟨s, j, hj, hk⟩ := exists_of_next h
  obtain ⟨s', j', hj', hk'⟩ := exists_of_next h'
  obtain ⟨e, he, rfl⟩ := mem_positions.mp (List.mem_of_getElem? hk)
  obtain ⟨e', he', rfl⟩ := mem_positions.mp (List.mem_of_getElem? hk')
  obtain rfl := Option.some.inj (he.symm.trans he')
  have hlt := (List.getElem?_eq_some_iff.mp hk).1
  have hsame := (List.getElem?_inj hlt List.nodup_findIdxs).mp (hk.trans hk'.symm)
  rw [Nat.succ.inj hsame] at hj
  exact Option.some.inj (hj.symm.trans hj')

/-- **Events that can be compared make one chain per subscription.** They are put in order by
instant, ordering number and text of the subscription, and those that tie stay as they came. Every
event of a subscription, however often it is listed, has the next of its positions for a successor,
and the last has none; the charges of an event see the same successor. A successor does not come
before its event, and no event is the successor of two. -/
theorem of_linked {events : List Event}
    (h : ∀ a ∈ events, ∀ b ∈ events, Moment.Comparable a.effective b.effective) :
    ∃ t, Timeline.of events = .ok t ∧
      t.events.Perm events ∧ t.events.Pairwise (fun a b => a.sortKey ≤ b.sortKey) ∧
      (∀ key, t.events.filter (·.sortKey = key) = events.filter (·.sortKey = key)) ∧
      (∀ s, (t.positions s).Pairwise (· < ·) ∧
        (t.positions s).length = events.countP (·.subscription = s) ∧
        ∀ i, i ∈ t.positions s ↔ ∃ e, t.events[i]? = some e ∧ e.subscription = s) ∧
      (∀ (s : Uuid) (i j : Nat) (e : Event), (t.positions s)[j]? = some i → t.events[i]? = some e →
        t.next i = .ok (t.positions s)[j + 1]? ∧
          successor e (t.events.drop (i + 1)) = (t.positions s)[j + 1]?.bind (t.events[·]?)) ∧
      (∀ i k : Nat, t.next i = .ok (some k) → ∃ e f, t.events[i]? = some e ∧
        t.events[k]? = some f ∧ e.effective.instant ≤ f.effective.instant) ∧
      ∀ i i' k : Nat, t.next i = .ok (some k) → t.next i' = .ok (some k) → i = i' := by
  have horderable := Event.orderable_of_comparable h
  have hof : Timeline.of events = .ok ⟨events.mergeSort Event.le⟩ := by
    rw [of_eq, if_pos horderable]
  have hperm := List.mergeSort_perm events Event.le
  refine ⟨_, hof, hperm, ?_, filter_mergeSort_of_key, fun s => ⟨List.pairwise_findIdxs, ?_, ?_⟩,
    fun s i j e hj he => ⟨next_eq hj, successor_eq hj he⟩, fun i k hnext => ?_,
    fun i i' k => next_injective⟩
  · refine (List.pairwise_mergeSort Event.le_trans Event.le_total events).imp fun hle => ?_
    exact Event.le_iff_sortKey.mp hle
  · rw [positions, List.length_findIdxs]
    exact hperm.countP_eq _
  · exact fun i => mem_positions
  · obtain ⟨hlt, e, f, he, hf⟩ := lt_of_next hnext
    refine ⟨e, f, he, hf, ?_⟩
    obtain ⟨hi, rfl⟩ := List.getElem?_eq_some_iff.mp he
    obtain ⟨hk, rfl⟩ := List.getElem?_eq_some_iff.mp hf
    exact (List.pairwise_iff_getElem.mp (sorted_of_of hof) _ _ hi hk hlt).2

end Timeline

namespace Sample

/-- A later event of the other subscription. -/
def later : Event := { neighbour with effective := day 1 20 }

/-- Two subscriptions interleaved and out of order, with one event listed twice. -/
def interleaved : List Event := [event, later, neighbour, event]

end Sample

open Sample in
/-- An event that is listed twice is its own successor, once. -/
theorem of_linked_interleaved :
    (∀ a ∈ interleaved, ∀ b ∈ interleaved, Moment.Comparable a.effective b.effective) ∧
      ∃ t, Timeline.of interleaved = .ok t ∧ t.positions (uuid 1) = [1, 2] ∧
        t.positions (uuid 3) = [0, 3] ∧ t.next 0 = .ok (some 3) ∧ t.next 1 = .ok (some 2) ∧
        t.next 2 = .ok none ∧ t.next 3 = .ok none := by
  have hcomparable :
      ∀ a ∈ interleaved, ∀ b ∈ interleaved, Moment.Comparable a.effective b.effective := by decide
  have hperm : interleaved.Perm [neighbour, event, event, later] := by decide
  have hof : Timeline.of interleaved = .ok ⟨[neighbour, event, event, later]⟩ :=
    (Timeline.of_perm hperm (by decide)).trans (Timeline.of_eq_self (by decide) (by decide))
  obtain ⟨t, ht, -, -, -, -, hnext, -⟩ := Timeline.of_linked hcomparable
  obtain rfl := Except.ok.inj (hof.symm.trans ht)
  refine ⟨hcomparable, _, ht, by decide, by decide, ?_, ?_, ?_, ?_⟩
  · exact (hnext (uuid 3) 0 0 _ (by decide) rfl).1
  · exact (hnext (uuid 1) 1 0 _ (by decide) rfl).1
  · exact (hnext (uuid 1) 2 1 _ (by decide) rfl).1
  · exact (hnext (uuid 3) 3 1 _ (by decide) rfl).1

end BillRun
