import BillRun.Proofs.Matching
import BillRun.Proofs.Outcome
import Mathlib.Data.List.Perm.Subperm

/-! What a settlement leaves on the account.

New charges and credits go on the account beside the items issued before. When the new ids are fresh
(`Fresh`), the credits take exactly the items they reverse out of what survives, and the new charges
come in (`Settled.surviving_append`). So the recurring items that survive are the proposed ones, key
by key, and of each fixed key as many as either side had (`Settled.count_surviving`). -/
namespace BillRun

/-- Ids that are not in use, and no two alike. -/
structure Fresh (issued new : List Item) : Prop where
  distinct : (new.map Item.id).Nodup
  unused : ∀ i ∈ new, ∀ e ∈ issued, i.id ≠ e.id ∧ e.reverses ≠ some i.id

/-- The recurring items, credits among them. -/
def recurring (items : List Item) : List Item := items.filter Item.isRecurring

@[simp] theorem recurring_append (a b : List Item) :
    recurring (a ++ b) = recurring a ++ recurring b := List.filter_append ..

theorem recurring_cons_of_recurring {i : Item} (h : i.charge.kind = .recurring)
    (items : List Item) : recurring (i :: items) = i :: recurring items :=
  List.filter_cons_of_pos (by simpa [Item.isRecurring] using h)

theorem recurring_cons_of_fixed {i : Item} (h : i.charge.kind ≠ .recurring)
    (items : List Item) : recurring (i :: items) = recurring items :=
  List.filter_cons_of_neg (by simpa [Item.isRecurring] using h)

theorem count_keys_recurring (items : List Item) (key : ChargeKey) :
    (keys (recurring items)).count key =
      if key.kind = .recurring then (keys items).count key else 0 := by
  induction items with
  | nil => simp [recurring]
  | cons i items ih =>
    have hkind : i.key.kind = i.charge.kind := rfl
    by_cases hi : i.charge.kind = .recurring
    · rw [recurring_cons_of_recurring hi, keys_cons, keys_cons, List.count_cons, List.count_cons, ih]
      by_cases hk : i.key = key
      · simp [← hk, hkind, hi]
      · simp [hk]
    · rw [recurring_cons_of_fixed hi, keys_cons, List.count_cons, ih]
      by_cases hk : i.key = key
      · simp [← hk, hkind, hi]
      · simp [hk]

namespace Settlement

/-! ### Reversed items -/

theorem mem_cancelled {id : Uuid} {items : List Item} :
    id ∈ cancelled items ↔
      ∃ i ∈ items, ∃ reversed, i.reverses = some reversed ∧ (id = i.id ∨ id = reversed) := by
  simp only [cancelled, List.mem_flatMap]
  refine exists_congr fun i => and_congr_right fun _ => ?_
  cases i.reverses <;> simp

theorem cancelled_append (a b : List Item) : cancelled (a ++ b) = cancelled a ++ cancelled b :=
  List.flatMap_append

theorem cancelled_eq_nil {items : List Item} (h : ∀ i ∈ items, i.reverses = none) :
    cancelled items = [] := by
  refine List.eq_nil_iff_forall_not_mem.mpr fun id hid => ?_
  obtain ⟨i, hi, reversed, hrev, _⟩ := mem_cancelled.mp hid
  rw [h i hi] at hrev
  cases hrev

theorem mem_surviving {i : Item} {items : List Item} :
    i ∈ surviving items ↔ i ∈ items ∧ i.id ∉ cancelled items := by
  simp [surviving]

theorem surviving_perm {a b : List Item} (h : a.Perm b) : (surviving a).Perm (surviving b) := by
  have hcancelled : ∀ id, id ∈ cancelled a ↔ id ∈ cancelled b := fun id => by
    simp only [mem_cancelled, h.mem_iff]
  have hfilter : surviving b = b.filter fun i => i.id ∉ cancelled a :=
    List.filter_congr fun i _ => by simp only [hcancelled]
  rw [hfilter]
  exact h.filter _

/-- Credits never survive. -/
theorem reverses_of_mem_surviving {i : Item} {items : List Item} (h : i ∈ surviving items) :
    i.reverses = none := by
  obtain ⟨hi, hid⟩ := mem_surviving.mp h
  cases hrev : i.reverses with
  | none => rfl
  | some reversed => exact absurd (mem_cancelled.mpr ⟨i, hi, reversed, hrev, .inl rfl⟩) hid

/-! ### Credits -/

/-- `c` credits the recurring item `i`: the same charge with the opposite amount. -/
structure Credits (c i : Item) : Prop where
  reverses : c.reverses = some i.id
  kind : c.charge.kind = .recurring
  rate : c.charge.basis.rate? = i.charge.basis.rate?
  amount : i.charge.amount.neg = .ok c.charge.amount
  rest : c.charge = { i.charge with amount := c.charge.amount, basis := c.charge.basis }

theorem credit?_eq (i : Item) (id invoice : Uuid) (now : Calendar.Moment) :
    (i.charge.kind ≠ .recurring ∧ i.credit? id invoice now = none) ∨
      ∃ credit, i.charge.kind = .recurring ∧ i.credit? id invoice now = some credit ∧
        ∀ c, credit = .ok c → Credits c i := by
  unfold Item.credit?
  cases hb : i.charge.basis with
  | fixed => exact .inl ⟨by simp [Charge.kind, hb, Basis.kind], rfl⟩
  | recurring rate reverses =>
    refine .inr ⟨_, by simp [Charge.kind, hb, Basis.kind], rfl, fun c hc => ?_⟩
    obtain ⟨amount, hamount, hc⟩ := bind_eq_ok.mp hc
    cases hc
    exact ⟨rfl, rfl, by rw [hb]; rfl, hamount, rfl⟩

theorem credits_eq_ok {invoice : Uuid} {now : Calendar.Moment} {ids : Nat → Uuid}
    {items cs : List Item} (h : credits invoice now ids items = .ok cs) :
    List.Forall₂ Credits cs (recurring items) := by
  induction items generalizing ids cs with
  | nil =>
    cases h
    exact .nil
  | cons i items ih =>
    rcases credit?_eq i (ids 0) invoice now with
      ⟨hkind, hnone⟩ | ⟨credit, hkind, hsome, hcredit⟩
    · rw [recurring_cons_of_fixed hkind]
      simp only [credits, hnone] at h
      exact ih h
    · rw [recurring_cons_of_recurring hkind]
      simp only [credits, hsome] at h
      obtain ⟨c, hc, h⟩ := bind_eq_ok.mp h
      obtain ⟨rest, hrest, h⟩ := bind_eq_ok.mp h
      cases h
      exact .cons (hcredit c hc) (ih hrest)

/-- Without recurring items there is nothing to credit. -/
theorem credits_eq_nil {invoice : Uuid} {now : Calendar.Moment} {ids : Nat → Uuid}
    {items : List Item} (h : recurring items = []) : credits invoice now ids items = .ok [] := by
  induction items generalizing ids with
  | nil => rfl
  | cons i items ih =>
    rcases credit?_eq i (ids 0) invoice now with ⟨hkind, hnone⟩ | ⟨_, hkind, _⟩
    · rw [recurring_cons_of_fixed hkind] at h
      simp only [credits, hnone]
      exact ih h
    · rw [recurring_cons_of_recurring hkind] at h
      cases h

theorem created_of_credits {invoice : Uuid} {now : Calendar.Moment} {ids : Nat → Uuid}
    {items credited : List Item} (h : credits invoice now ids items = .ok credited) :
    ∀ c ∈ credited, c.created = now := by
  induction items generalizing ids credited with
  | nil =>
    cases h
    intro c hc
    cases hc
  | cons i items ih =>
    cases hcredit : i.credit? (ids 0) invoice now with
    | none =>
      simp only [credits, hcredit] at h
      exact ih h
    | some credit =>
      simp only [credits, hcredit] at h
      obtain ⟨c, hc, h⟩ := bind_eq_ok.mp h
      obtain ⟨rest, hrest, h⟩ := bind_eq_ok.mp h
      cases h
      intro d hd
      rcases List.mem_cons.mp hd with rfl | hd
      · unfold Item.credit? at hcredit
        split at hcredit
        · cases hcredit
        · cases hcredit
          obtain ⟨amount, -, hc⟩ := bind_eq_ok.mp hc
          cases hc
          rfl
      · exact ih hrest d hd

/-! ### The account afterwards -/

/-- A settlement against the items issued before: the charges that go on the account, the recurring
items taken back, and the credits that take them back. -/
structure Settled (proposed issued charges taken credited : List Item) : Prop where
  charges_le : charges.Sublist proposed
  taken_le : taken.Subperm (surviving issued)
  credited : List.Forall₂ Credits credited taken
  count_charges : ∀ key, (keys charges).count key =
    (keys proposed).count key - (keys (surviving issued)).count key
  count_taken : ∀ key, (keys taken).count key =
    if key.kind = .recurring then
      (keys (surviving issued)).count key - (keys proposed).count key
    else 0

theorem settle_eq (proposed existing : List Item) (ids : Nat → Uuid) (invoice : Uuid)
    (now : Calendar.Moment) :
    settle proposed existing ids invoice now =
      ((pairOff proposed (surviving existing)).1 ++ ·) <$>
        credits invoice now ids (pairOff proposed (surviving existing)).2 := by
  simp only [settle, unmatched_eq_pairOff]
  rfl

theorem settle_eq_ok {proposed existing new : List Item} {ids : Nat → Uuid} {invoice : Uuid}
    {now : Calendar.Moment} : settle proposed existing ids invoice now = .ok new ↔
      ∃ credited, credits invoice now ids (pairOff proposed (surviving existing)).2 =
        .ok credited ∧ new = (pairOff proposed (surviving existing)).1 ++ credited := by
  rw [settle_eq]
  cases credits invoice now ids (pairOff proposed (surviving existing)).2 with
  | error => simp
  | ok credited => simp [eq_comm]

theorem settled_of_settle {proposed existing issued new : List Item} {ids : Nat → Uuid} {invoice : Uuid}
    {now : Calendar.Moment} (hperm : existing.Perm issued)
    (h : settle proposed existing ids invoice now = .ok new) :
    ∃ charges taken credited, new = charges ++ credited ∧
      Settled proposed issued charges taken credited := by
  obtain ⟨credited, hcredited, rfl⟩ := settle_eq_ok.mp h
  have hsurviving := surviving_perm hperm
  have hkeys (key : ChargeKey) :
      (keys (surviving existing)).count key = (keys (surviving issued)).count key :=
    (hsurviving.map Item.key).count_eq key
  obtain ⟨hcharges, hleft⟩ := pairOff_sublist proposed (surviving existing)
  refine ⟨_, _, credited, rfl, hcharges, ?_, credits_eq_ok hcredited, fun key => ?_, fun key => ?_⟩
  · exact (List.filter_sublist.trans hleft).subperm.trans hsurviving.subperm
  · rw [(count_pairOff _ _ key).1, hkeys]
  · rw [count_keys_recurring, (count_pairOff _ _ key).2, hkeys]

theorem created_of_settle {proposed existing new : List Item} {ids : Nat → Uuid} {invoice : Uuid}
    {now : Calendar.Moment} (hproposed : ∀ i ∈ proposed, i.created = now)
    (h : settle proposed existing ids invoice now = .ok new) : ∀ i ∈ new, i.created = now := by
  obtain ⟨credited, hcredited, rfl⟩ := settle_eq_ok.mp h
  intro i hi
  rcases List.mem_append.mp hi with hi | hi
  · exact hproposed i ((pairOff_sublist _ _).1.subset hi)
  · exact created_of_credits hcredited i hi

/-- When every proposed item has been billed and every recurring item is still proposed, nothing
is left to do. -/
theorem settle_eq_nil {proposed existing : List Item} {ids : Nat → Uuid} {invoice : Uuid}
    {now : Calendar.Moment}
    (hbilled : ∀ key, (keys proposed).count key ≤ (keys (surviving existing)).count key)
    (hdue : ∀ key, key.kind = .recurring →
      (keys (surviving existing)).count key ≤ (keys proposed).count key) :
    settle proposed existing ids invoice now = .ok [] := by
  have hnil {items : List Item} (h : ∀ key, (keys items).count key = 0) : items = [] := by
    cases items with
    | nil => rfl
    | cons i items => simpa using h i.key
  have hcharges : (pairOff proposed (surviving existing)).1 = [] := hnil fun key => by
    have := hbilled key
    rw [(count_pairOff _ _ key).1]
    omega
  have htaken : recurring (pairOff proposed (surviving existing)).2 = [] := hnil fun key => by
    rw [count_keys_recurring, (count_pairOff _ _ key).2]
    split
    · have := hdue key ‹_›
      omega
    · rfl
  rw [settle_eq, credits_eq_nil htaken, hcharges]
  rfl

theorem sublist_append_filter_perm {taken items : List Item} (h : taken.Sublist items)
    (hids : (items.map Item.id).Nodup) :
    (taken ++ items.filter fun i => i.id ∉ taken.map Item.id).Perm items := by
  induction h with
  | slnil => exact .nil
  | @cons taken items a hsub ih =>
    rw [List.map_cons, List.nodup_cons] at hids
    have ha : a.id ∉ taken.map Item.id := fun hmem => hids.1 ((hsub.map Item.id).subset hmem)
    rw [List.filter_cons_of_pos (by simpa using ha)]
    exact List.perm_middle.trans ((ih hids.2).cons a)
  | @cons_cons taken items a hsub ih =>
    rw [List.map_cons, List.nodup_cons] at hids
    rw [List.filter_cons_of_neg (by simp)]
    have hfilter : (items.filter fun i => i.id ∉ (a :: taken).map Item.id) =
        items.filter fun i => i.id ∉ taken.map Item.id := by
      refine List.filter_congr fun i hi => ?_
      have hia : i.id ≠ a.id := fun heq => hids.1 (heq ▸ List.mem_map.mpr ⟨i, hi, rfl⟩)
      simp [hia]
    rw [hfilter]
    exact (ih hids.2).cons a

theorem subperm_append_filter_perm {taken items : List Item} (h : taken.Subperm items)
    (hids : (items.map Item.id).Nodup) :
    (taken ++ items.filter fun i => i.id ∉ taken.map Item.id).Perm items := by
  obtain ⟨taken', hperm, hsub⟩ := h
  have hmem : ∀ id, id ∈ taken'.map Item.id ↔ id ∈ taken.map Item.id :=
    fun id => (hperm.map Item.id).mem_iff
  have := sublist_append_filter_perm hsub hids
  simp only [hmem] at this
  exact (hperm.symm.append_right _).trans this

variable {proposed issued charges taken credited : List Item}

theorem Settled.mem_cancelled_credited (h : Settled proposed issued charges taken credited)
    {id : Uuid} : id ∈ cancelled credited ↔ id ∈ credited.map Item.id ∨ id ∈ taken.map Item.id := by
  have hforall := h.credited
  clear h
  induction hforall with
  | nil => simp [cancelled]
  | @cons c i cs items hc _ ih =>
    have hcons : cancelled (c :: cs) = c.id :: i.id :: cancelled cs := by
      simp [cancelled, hc.reverses]
    simp only [hcons, List.mem_cons, ih, List.map_cons]
    tauto

/-- With fresh ids, exactly the items taken back leave and exactly the new charges join what
survives. -/
theorem Settled.surviving_append (h : Settled proposed issued charges taken credited)
    (hcharges : ∀ i ∈ charges, i.reverses = none) (hfresh : Fresh issued (charges ++ credited)) :
    surviving (issued ++ (charges ++ credited)) =
      ((surviving issued).filter fun i => i.id ∉ taken.map Item.id) ++ charges := by
  have hcancelled (id : Uuid) : id ∈ cancelled (issued ++ (charges ++ credited)) ↔
      id ∈ cancelled issued ∨ id ∈ credited.map Item.id ∨ id ∈ taken.map Item.id := by
    rw [cancelled_append, cancelled_append, cancelled_eq_nil hcharges, List.nil_append,
      List.mem_append, h.mem_cancelled_credited]
  have htaken : ∀ i ∈ taken, i ∈ issued := fun i hi =>
    (mem_surviving.mp (h.taken_le.subset hi)).1
  have hnew : ∀ i ∈ charges ++ credited, i.id ∉ cancelled issued ∧ i.id ∉ taken.map Item.id := by
    intro i hi
    refine ⟨fun hmem => ?_, fun hmem => ?_⟩
    · obtain ⟨e, he, reversed, hrev, heq⟩ := mem_cancelled.mp hmem
      obtain ⟨hid, hback⟩ := hfresh.unused i hi e he
      rcases heq with heq | heq
      · exact hid heq
      · exact hback (heq ▸ hrev)
    · obtain ⟨e, he, heq⟩ := List.mem_map.mp hmem
      exact (hfresh.unused i hi e (htaken e he)).1 heq.symm
  have hdistinct := hfresh.distinct
  rw [List.map_append, List.nodup_append] at hdistinct
  unfold surviving
  rw [List.filter_append, List.filter_append]
  have hissued : (issued.filter fun i => i.id ∉ cancelled (issued ++ (charges ++ credited))) =
      (issued.filter fun i => i.id ∉ cancelled issued).filter
        fun i => i.id ∉ taken.map Item.id := by
    rw [List.filter_filter]
    refine List.filter_congr fun i hi => ?_
    have hcredited : i.id ∉ credited.map Item.id := fun hmem => by
      obtain ⟨c, hc, heq⟩ := List.mem_map.mp hmem
      exact (hfresh.unused c (List.mem_append_right _ hc) i hi).1 heq
    simp only [hcancelled, hcredited, false_or, not_or, Bool.decide_and, Bool.and_comm]
  have hcharged : (charges.filter fun i => i.id ∉ cancelled (issued ++ (charges ++ credited))) =
      charges := by
    refine List.filter_eq_self.mpr fun i hi => ?_
    obtain ⟨hold, hback⟩ := hnew i (List.mem_append_left _ hi)
    have hcredited : i.id ∉ credited.map Item.id := fun hmem =>
      hdistinct.2.2 _ (List.mem_map.mpr ⟨i, hi, rfl⟩) _ hmem rfl
    simp only [hcancelled, hold, hcredited, hback, or_self, not_false_eq_true, decide_true]
  have hdropped : (credited.filter fun i => i.id ∉ cancelled (issued ++ (charges ++ credited))) =
      [] := by
    refine List.filter_eq_nil_iff.mpr fun c hc => ?_
    have : c.id ∈ credited.map Item.id := List.mem_map.mpr ⟨c, hc, rfl⟩
    simp only [hcancelled, this, true_or, or_true, not_true, decide_false, Bool.false_eq_true,
      not_false_eq_true]
  rw [hissued, hcharged, hdropped, List.append_nil]

/-- The items taken back and what survives are together what survived before and the new charges. -/
theorem Settled.surviving_perm (h : Settled proposed issued charges taken credited)
    (hids : (issued.map Item.id).Nodup) (hcharges : ∀ i ∈ charges, i.reverses = none)
    (hfresh : Fresh issued (charges ++ credited)) :
    (taken ++ surviving (issued ++ (charges ++ credited))).Perm (surviving issued ++ charges) := by
  rw [h.surviving_append hcharges hfresh, ← List.append_assoc]
  have hsub : ((surviving issued).map Item.id).Nodup := hids.sublist (List.filter_sublist.map _)
  exact (subperm_append_filter_perm h.taken_le hsub).append_right charges

/-- **What survives a settlement.** Of a recurring key as many items as were proposed; of a fixed
key as many as were proposed or survived before, whichever is more. -/
theorem Settled.count_surviving (h : Settled proposed issued charges taken credited)
    (hids : (issued.map Item.id).Nodup) (hcharges : ∀ i ∈ charges, i.reverses = none)
    (hfresh : Fresh issued (charges ++ credited)) (key : ChargeKey) :
    (keys (surviving (issued ++ (charges ++ credited)))).count key =
      if key.kind = .recurring then (keys proposed).count key
      else max ((keys proposed).count key) ((keys (surviving issued)).count key) := by
  have hperm := ((h.surviving_perm hids hcharges hfresh).map Item.key).count_eq key
  have hc := h.count_charges key
  have ht := h.count_taken key
  simp only [keys] at hc ht ⊢
  rw [List.map_append, List.count_append, List.map_append, List.count_append, hc, ht] at hperm
  split at hperm <;> simp only [*, if_true, if_false] <;> omega

end Settlement

end BillRun
