import BillRun.Proofs.Running

/-! Events in order, and how the order changes with the events.

Events are arranged by a stable sort. So the events of one subscription come in the order in which
they would come alone (`filter_of`), and an event that is added takes a place among the others
without moving them (`of_insert`). Where events of one subscription that tie are identical, the
order in which they are listed does not matter (`of_perm`). -/
namespace BillRun

open Calendar

/-! ### Stable sorting -/

section Stable

variable {α : Type} {le : α → α → Bool}

/-- What stands before and what stands after the place of `a` in a sorted list, told apart. -/
theorem filter_mergeSort_cons (trans : ∀ a b c, le a b = true → le b c = true → le a c = true)
    (total : ∀ a b, (le a b || le b a) = true) (a : α) (xs : List α) :
    ∃ low high, (a :: xs).mergeSort le = low ++ a :: high ∧ xs.mergeSort le = low ++ high ∧
      (xs.mergeSort le).filter (fun b => !le a b) = low ∧
      (xs.mergeSort le).filter (fun b => le a b) = high := by
  obtain ⟨low, high, hcons, hxs, hlow⟩ := List.mergeSort_cons trans total a xs
  have hhigh : ∀ b ∈ high, le a b = true := by
    have hsorted := List.pairwise_mergeSort trans total (a :: xs)
    rw [hcons, List.pairwise_append] at hsorted
    exact (List.pairwise_cons.mp hsorted.2.1).1
  refine ⟨low, high, hcons, hxs, ?_, ?_⟩
  · rw [hxs, List.filter_append, List.filter_eq_self.mpr hlow,
      List.filter_eq_nil_iff.mpr fun b hb => by simp [hhigh b hb], List.append_nil]
  · rw [hxs, List.filter_append, List.filter_eq_self.mpr hhigh,
      List.filter_eq_nil_iff.mpr fun b hb => by simpa using hlow b hb, List.nil_append]

/-- Fewer things are sorted as they are among more. -/
theorem mergeSort_sublist (trans : ∀ a b c, le a b = true → le b c = true → le a c = true)
    (total : ∀ a b, (le a b || le b a) = true) {xs ys : List α} (h : xs.Sublist ys) :
    (xs.mergeSort le).Sublist (ys.mergeSort le) := by
  induction h with
  | slnil => exact .refl _
  | @cons xs ys a _ ih =>
    obtain ⟨low, high, hcons, hys, -⟩ := filter_mergeSort_cons trans total a ys
    rw [hcons]
    rw [hys] at ih
    exact ih.trans ((List.Sublist.refl low).append (List.sublist_cons_self a high))
  | @cons_cons xs ys a _ ih =>
    obtain ⟨low, high, hcons, -, hlow, hhigh⟩ := filter_mergeSort_cons trans total a ys
    obtain ⟨low', high', hcons', -, hlow', hhigh'⟩ := filter_mergeSort_cons trans total a xs
    rw [hcons, hcons', ← hlow, ← hlow', ← hhigh, ← hhigh']
    exact (ih.filter _).append ((ih.filter _).cons_cons a)

theorem filter_mergeSort (trans : ∀ a b c, le a b = true → le b c = true → le a c = true)
    (total : ∀ a b, (le a b || le b a) = true) (p : α → Bool) (xs : List α) :
    (xs.mergeSort le).filter p = (xs.filter p).mergeSort le := by
  have hall : ((xs.filter p).mergeSort le).filter p = (xs.filter p).mergeSort le :=
    List.filter_eq_self.mpr fun a ha => List.of_mem_filter (List.mem_mergeSort.mp ha)
  have hsub := (mergeSort_sublist trans total (List.filter_sublist (p := p) (l := xs))).filter p
  rw [hall] at hsub
  refine (hsub.eq_of_length ?_).symm
  rw [List.length_mergeSort]
  exact ((List.mergeSort_perm xs le).filter p).length_eq.symm

theorem exists_insert_of_sublist {xs ys : List α} (h : xs.Sublist ys)
    (hlength : ys.length = xs.length + 1) :
    ∃ before a after, ys = before ++ a :: after ∧ xs = before ++ after := by
  induction h with
  | slnil => simp at hlength
  | @cons xs ys a h _ =>
    obtain rfl := h.eq_of_length (by simpa using hlength.symm)
    exact ⟨[], a, xs, rfl, rfl⟩
  | @cons_cons xs ys a _ ih =>
    obtain ⟨before, b, after, rfl, rfl⟩ := ih (by simpa using hlength)
    exact ⟨a :: before, b, after, rfl, rfl⟩

end Stable

/-! ### The order of events -/

namespace Event

theorem le_iff {a b : Event} : a.le b = true ↔
    a.effective.instant < b.effective.instant ∨ a.effective.instant = b.effective.instant ∧
      (a.ordering < b.ordering ∨ a.ordering = b.ordering ∧
        a.subscription.value.toNat ≤ b.subscription.value.toNat) := by
  simp [le]

theorem le_trans (a b c : Event) (hab : a.le b = true) (hbc : b.le c = true) :
    a.le c = true := by
  rw [le_iff] at *
  omega

theorem le_total (a b : Event) : (a.le b || b.le a) = true := by
  rw [Bool.or_eq_true, le_iff, le_iff]
  omega

theorem instant_le_of_le {a b : Event} (h : a.le b = true) :
    a.effective.instant ≤ b.effective.instant := by
  rw [le_iff] at h
  omega

/-- Events that tie are events of one subscription. -/
theorem tie_of_le_of_le {a b : Event} (hab : a.le b = true) (hba : b.le a = true) :
    a.subscription = b.subscription ∧ a.effective.instant = b.effective.instant ∧
      a.ordering = b.ordering := by
  rw [le_iff] at hab hba
  have hvalue : a.subscription.value = b.subscription.value := BitVec.eq_of_toNat_eq (by omega)
  refine ⟨?_, by omega, by omega⟩
  cases ha : a.subscription
  cases hb : b.subscription
  simpa [ha, hb] using hvalue

/-- All of the events carry an offset, or none does. -/
def orderable (events : List Event) : Bool :=
  (events.map fun e => e.effective.mark.anchored).all id ||
    !(events.map fun e => e.effective.mark.anchored).any id

theorem comparable_of_orderable {events : List Event} (h : orderable events = true) {a b : Event}
    (ha : a ∈ events) (hb : b ∈ events) : Moment.Comparable a.effective b.effective := by
  have hanchored (e : Event) : e.effective.mark.anchored = e.effective.offset.isSome := rfl
  simp only [orderable, hanchored, List.all_map, List.any_map, Bool.or_eq_true, List.all_eq_true,
    Bool.not_eq_true', List.any_eq_false, Function.comp_apply, id_eq] at h
  unfold Moment.Comparable
  rcases h with h | h
  · rw [h a ha, h b hb]
  · rw [Bool.eq_false_iff.mpr (h a ha), Bool.eq_false_iff.mpr (h b hb)]

theorem orderable_of_anchored {events : List Event} (h : ∀ e ∈ events, e.effective.Anchored) :
    orderable events = true := by
  have hall : (events.map fun e => e.effective.mark.anchored).all id = true := by
    rw [List.all_map, List.all_eq_true]
    exact h
  rw [orderable, hall, Bool.true_or]

end Event

namespace Timeline

variable {events events' : List Event} {timeline timeline' : Timeline}

theorem of_eq (events : List Event) :
    Timeline.of events =
      if Event.orderable events then .ok ⟨events.mergeSort Event.le⟩ else .error .incomparable := by
  have harrange : Event.arrange id events =
      if Event.orderable events then .ok (events.mergeSort Event.le)
      else .error .incomparable := rfl
  unfold Timeline.of
  rw [harrange]
  split <;> rfl

theorem of_eq_ok : Timeline.of events = .ok timeline ↔
    Event.orderable events = true ∧ timeline.events = events.mergeSort Event.le := by
  rw [of_eq]
  split
  · rename_i h
    rw [Except.ok.injEq]
    refine ⟨fun heq => ⟨h, by rw [← heq]⟩, fun heq => ?_⟩
    cases timeline
    rw [← heq.2]
  · rename_i h
    exact ⟨nofun, fun heq => absurd heq.1 h⟩

theorem mem_events_of (h : Timeline.of events = .ok timeline) {e : Event} :
    e ∈ timeline.events ↔ e ∈ events := (perm_of_of h).mem_iff

theorem sorted_of_of (h : Timeline.of events = .ok timeline) :
    timeline.events.Pairwise fun a b =>
      Moment.Comparable a.effective b.effective ∧
        a.effective.instant ≤ b.effective.instant := by
  obtain ⟨horderable, hevents⟩ := of_eq_ok.mp h
  have hsorted := List.pairwise_mergeSort Event.le_trans Event.le_total events
  rw [← hevents] at hsorted
  exact hsorted.imp_of_mem fun ha hb hle =>
    ⟨Event.comparable_of_orderable horderable ((mem_events_of h).mp ha) ((mem_events_of h).mp hb),
      Event.instant_le_of_le hle⟩

/-- The events of one subscription come in the order in which they would come alone. -/
theorem filter_of (h : Timeline.of events = .ok timeline) (h' : Timeline.of events' = .ok timeline')
    {p : Event → Bool} (hsame : events.filter p = events'.filter p) :
    timeline.events.filter p = timeline'.events.filter p := by
  rw [(of_eq_ok.mp h).2, (of_eq_ok.mp h').2, filter_mergeSort Event.le_trans Event.le_total,
    filter_mergeSort Event.le_trans Event.le_total, hsame]

/-- An event that is added takes its place and leaves the others as they stand. -/
theorem of_insert {before after : List Event} {f : Event}
    (h : Timeline.of (before ++ after) = .ok timeline)
    (h' : Timeline.of (before ++ f :: after) = .ok timeline') :
    ∃ earlier later, timeline'.events = earlier ++ f :: later ∧
      timeline.events = earlier ++ later := by
  have hsub : timeline.events.Sublist timeline'.events := by
    rw [(of_eq_ok.mp h).2, (of_eq_ok.mp h').2]
    exact mergeSort_sublist Event.le_trans Event.le_total
      ((List.Sublist.refl before).append (List.sublist_cons_self f after))
  have hperm : timeline'.events.Perm (f :: timeline.events) :=
    (perm_of_of h').trans (List.perm_middle.trans ((perm_of_of h).symm.cons f))
  obtain ⟨earlier, g, later, hnew, hold⟩ :=
    exists_insert_of_sublist hsub (by simpa using hperm.length_eq)
  -- the event that came in is the one that was added
  obtain rfl : g = f := by
    rw [hnew, hold] at hperm
    have hcount := (List.perm_middle.symm.trans hperm).count_eq g
    by_contra hne
    rw [List.count_cons_self, List.count_cons_of_ne (Ne.symm hne)] at hcount
    omega
  exact ⟨earlier, later, hnew, hold⟩

/-- Where events that tie are identical, events have one order only. -/
theorem of_perm (hperm : events.Perm events')
    (hties : ∀ a ∈ events, ∀ b ∈ events, a.subscription = b.subscription →
      a.effective.instant = b.effective.instant → a.ordering = b.ordering → a = b) :
    Timeline.of events = Timeline.of events' := by
  have hantisymm : ∀ a b, a ∈ events.mergeSort Event.le → b ∈ events'.mergeSort Event.le →
      a.le b = true → b.le a = true → a = b := by
    intro a b ha hb hab hba
    obtain ⟨hsubscription, hinstant, hordering⟩ := Event.tie_of_le_of_le hab hba
    exact hties a (List.mem_mergeSort.mp ha) b (hperm.mem_iff.mpr (List.mem_mergeSort.mp hb))
      hsubscription hinstant hordering
  have hsorted : events.mergeSort Event.le = events'.mergeSort Event.le :=
    List.Perm.eq_of_pairwise hantisymm
      (List.pairwise_mergeSort Event.le_trans Event.le_total events)
      (List.pairwise_mergeSort Event.le_trans Event.le_total events')
      ((List.mergeSort_perm events _).trans (hperm.trans (List.mergeSort_perm events' _).symm))
  have horderable : Event.orderable events = Event.orderable events' := by
    have hmarks := hperm.map fun e => e.effective.mark.anchored
    unfold Event.orderable
    rw [hmarks.all_eq, hmarks.any_eq]
  rw [of_eq, of_eq, hsorted, horderable]

end Timeline

end BillRun
