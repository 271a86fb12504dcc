import BillRun.Settlement
import Mathlib.Data.List.Nodup

/-! Matching proposed items with issued ones.

The queues of `unmatched` hold, key by key, the positions of the issued items not taken so far
(`Queues.Index`). Each match keeps that, so `unmatched` finds what the plain search `pairOff` finds
(`unmatched_eq_pairOff`). What the search leaves is then counted: of each key, the surplus of either
side over the other (`count_pairOff`). It is also told which items these are: the last ones of their
key (`billing_pairOff`). -/
namespace BillRun

/-- What the items bill, one key for each. -/
def keys (items : List Item) : List ChargeKey := items.map Item.key

@[simp] theorem keys_nil : keys [] = [] := rfl

@[simp] theorem keys_cons (i : Item) (items : List Item) :
    keys (i :: items) = i.key :: keys items := rfl

@[simp] theorem keys_append (a b : List Item) : keys (a ++ b) = keys a ++ keys b :=
  List.map_append

namespace Settlement

/-! ### The plain search -/

theorem eraseSame_eq_some {item : Item} {issued left : List Item} :
    eraseSame item issued = some left ↔ ∃ before i after, issued = before ++ i :: after ∧
      left = before ++ after ∧ i.key = item.key ∧ item.key ∉ keys before := by
  constructor
  · intro h
    induction issued generalizing left with
    | nil => cases h
    | cons i items ih =>
      by_cases hs : item.key = i.key
      · simp only [eraseSame, Item.same, hs, decide_true, if_true, Option.some.injEq] at h
        exact ⟨[], i, items, rfl, h.symm, hs.symm, List.not_mem_nil⟩
      · simp only [eraseSame, Item.same, hs, decide_false, Bool.false_eq_true, if_false,
          Option.map_eq_some_iff] at h
        obtain ⟨rest, hrest, rfl⟩ := h
        obtain ⟨before, j, after, rfl, rfl, hj, hnot⟩ := ih hrest
        refine ⟨i :: before, j, after, rfl, rfl, hj, ?_⟩
        rw [keys_cons, List.mem_cons, not_or]
        exact ⟨hs, hnot⟩
  · rintro ⟨before, i, after, rfl, rfl, hi, hnot⟩
    induction before with
    | nil => simp [eraseSame, Item.same, hi]
    | cons j before ih =>
      rw [keys_cons, List.mem_cons, not_or] at hnot
      simp [eraseSame, Item.same, hnot.1, ih hnot.2]

theorem eraseSame_eq_none {item : Item} {issued : List Item} :
    eraseSame item issued = none ↔ item.key ∉ keys issued := by
  induction issued with
  | nil => simp [eraseSame]
  | cons i items ih =>
    by_cases hs : item.key = i.key
    · simp [eraseSame, Item.same, hs]
    · simp [eraseSame, Item.same, hs, ih]

theorem pairOff_sublist (proposed issued : List Item) :
    (pairOff proposed issued).1.Sublist proposed ∧ (pairOff proposed issued).2.Sublist issued := by
  induction proposed generalizing issued with
  | nil => exact ⟨.slnil, .refl _⟩
  | cons item items ih =>
    cases he : eraseSame item issued with
    | none =>
      simp only [pairOff, he]
      exact ⟨(ih issued).1.cons_cons item, (ih issued).2⟩
    | some left =>
      simp only [pairOff, he]
      obtain ⟨before, i, after, rfl, rfl, _⟩ := eraseSame_eq_some.mp he
      have hdrop : (before ++ after).Sublist (before ++ i :: after) :=
        (List.Sublist.refl before).append (List.sublist_cons_self i after)
      exact ⟨(ih _).1.cons item, (ih _).2.trans hdrop⟩

theorem count_pairOff (proposed issued : List Item) (key : ChargeKey) :
    (keys (pairOff proposed issued).1).count key =
        (keys proposed).count key - (keys issued).count key ∧
      (keys (pairOff proposed issued).2).count key =
        (keys issued).count key - (keys proposed).count key := by
  induction proposed generalizing issued with
  | nil => simp [pairOff]
  | cons item items ih =>
    cases he : eraseSame item issued with
    | none =>
      have hcount := List.count_eq_zero.mpr (eraseSame_eq_none.mp he)
      simp only [pairOff, he, keys_cons, List.count_cons, (ih issued).1, (ih issued).2]
      by_cases hk : item.key = key
      · rw [hk] at hcount
        simp only [hk, beq_self_eq_true, if_true]
        omega
      · simp [hk]
    | some left =>
      obtain ⟨before, i, after, rfl, rfl, hi, _⟩ := eraseSame_eq_some.mp he
      obtain ⟨h1, h2⟩ := ih (before ++ after)
      simp only [pairOff, he, h1, h2, keys_append, keys_cons, List.count_append, List.count_cons,
        hi]
      by_cases hk : item.key = key
      · simp only [hk, beq_self_eq_true, if_true]
        omega
      · simp [hk]

theorem eraseSame_congr {item item' : Item} (h : item.key = item'.key) (issued : List Item) :
    eraseSame item issued = eraseSame item' issued := by
  have hsame (i : Item) : item.same i = item'.same i := by simp only [Item.same, h]
  induction issued with
  | nil => rfl
  | cons i issued ih => rw [eraseSame, eraseSame, hsame, ih]

/-- Matching sees the keys of the proposed items only. -/
theorem pairOff_congr {proposed proposed' : List Item}
    (h : proposed.map (·.charge) = proposed'.map (·.charge)) (issued : List Item) :
    (pairOff proposed issued).1.map (·.charge) = (pairOff proposed' issued).1.map (·.charge) ∧
      (pairOff proposed issued).2 = (pairOff proposed' issued).2 := by
  induction proposed generalizing proposed' issued with
  | nil =>
    obtain rfl := List.map_eq_nil_iff.mp h.symm
    exact ⟨rfl, rfl⟩
  | cons item items ih =>
    obtain ⟨item', items', rfl, hcharge, hcharges⟩ := List.map_eq_cons_iff.mp h.symm
    have herase := eraseSame_congr (congrArg Charge.key hcharge.symm) issued
    simp only [pairOff, herase]
    cases eraseSame item' issued with
    | none =>
      obtain ⟨hrest, hleft⟩ := ih hcharges.symm issued
      exact ⟨by simp only [List.map_cons, hcharge, hrest], hleft⟩
    | some left => exact ih hcharges.symm left

/-! ### Queues of positions -/

namespace Queues

/-- The positions queued for a key. -/
def positions (key : ChargeKey) : Queues → List Nat
  | [] => []
  | (k, queue) :: rest => if k = key then queue else positions key rest

theorem positions_push (key k : ChargeKey) (position : Nat) (queues : Queues) :
    (queues.push key position).positions k =
      queues.positions k ++ if k = key then [position] else [] := by
  induction queues with
  | nil => by_cases h : k = key <;> simp [push, positions, h, Ne.symm]
  | cons entry rest ih =>
    obtain ⟨k', queue⟩ := entry
    by_cases hk' : k' = key
    · subst hk'
      by_cases h : k = k'
      · simp [push, positions, h]
      · simp [push, positions, h, Ne.symm h]
    · by_cases h : k' = k
      · subst h
        simp [push, positions, hk']
      · simp [push, positions, hk', h, ih]

theorem pop_eq_none {key : ChargeKey} {queues : Queues} :
    queues.pop key = none ↔ queues.positions key = [] := by
  induction queues with
  | nil => simp [pop, positions]
  | cons entry rest ih =>
    obtain ⟨k, queue⟩ := entry
    by_cases h : k = key
    · cases queue <;> simp [pop, positions, h]
    · simp [pop, positions, h, ih]

theorem pop_eq_some {key : ChargeKey} {queues left : Queues} {position : Nat}
    (h : queues.pop key = some (position, left)) :
    queues.positions key = position :: left.positions key ∧
      ∀ k, k ≠ key → left.positions k = queues.positions k := by
  induction queues generalizing left with
  | nil => cases h
  | cons entry rest ih =>
    obtain ⟨k', queue⟩ := entry
    by_cases hk' : k' = key
    · cases queue with
      | nil => simp [pop, hk'] at h
      | cons p queue =>
        simp only [pop, hk', if_true, Option.some.injEq, Prod.mk.injEq] at h
        obtain ⟨rfl, rfl⟩ := h
        refine ⟨by simp [positions, hk'], fun k hk => ?_⟩
        simp [positions, Ne.symm hk, hk']
    · simp only [pop, hk', if_false, Option.map_eq_some_iff, Prod.mk.injEq] at h
      obtain ⟨⟨p, rest'⟩, hrest, rfl, rfl⟩ := h
      obtain ⟨hp, hother⟩ := ih hrest
      refine ⟨by simp [positions, hk', hp], fun k hk => ?_⟩
      by_cases h : k' = k <;> simp [positions, h, hother k hk]

/-- The queues hold the positions of exactly the items left, in order. -/
def Index (queues : Queues) (left : List (Item × Nat)) : Prop :=
  ∀ key, queues.positions key = (left.filter (·.1.key = key)).map Prod.snd

theorem index_ofItems (items : List Item) : Index (ofItems items) items.zipIdx := by
  have hfold : ∀ (left : List (Item × Nat)) (queues : Queues) (key : ChargeKey),
      (left.foldl (fun queues entry => queues.push entry.1.key entry.2) queues).positions
        key = queues.positions key ++ (left.filter (·.1.key = key)).map Prod.snd := by
    intro left
    induction left with
    | nil => simp
    | cons entry left ih =>
      intro queues key
      rw [List.foldl_cons, ih, positions_push, List.filter_cons]
      by_cases h : key = entry.1.key
      · simp [h]
      · simp [h, Ne.symm h]
  intro key
  exact hfold items.zipIdx [] key

theorem Index.pop_eq_none {queues : Queues} {left : List (Item × Nat)} (h : queues.Index left)
    {key : ChargeKey} (hpop : queues.pop key = none) : key ∉ keys (left.map Prod.fst) := by
  have hempty := (h key).symm.trans (Queues.pop_eq_none.mp hpop)
  simp only [List.map_eq_nil_iff, List.filter_eq_nil_iff, decide_eq_true_eq] at hempty
  simp only [keys, List.map_map, List.mem_map, not_exists, not_and]
  exact fun entry hmem hkey => hempty entry hmem hkey

/-- A popped position is that of the first item left with the key. -/
theorem Index.pop_eq_some {queues rest : Queues} {left : List (Item × Nat)} (h : queues.Index left)
    {key : ChargeKey} {position : Nat} (hpop : queues.pop key = some (position, rest)) :
    ∃ before i after, left = before ++ (i, position) :: after ∧ i.key = key ∧
      key ∉ keys (before.map Prod.fst) ∧ rest.Index (before ++ after) := by
  obtain ⟨hfirst, hother⟩ := Queues.pop_eq_some hpop
  rw [h key, List.map_eq_cons_iff] at hfirst
  obtain ⟨⟨i, p⟩, queued, hfilter, hp, hqueued⟩ := hfirst
  obtain rfl : p = position := hp
  obtain ⟨before, after, rfl, hbefore, hi, rfl⟩ := List.filter_eq_cons_iff.mp hfilter
  simp only [decide_eq_true_eq] at hbefore hi
  refine ⟨before, i, after, rfl, hi, ?_, fun k => ?_⟩
  · simp only [keys, List.map_map, List.mem_map, not_exists, not_and]
    exact fun entry hmem => hbefore entry hmem
  · by_cases hk : k = key
    · subst hk
      have hnil : before.filter (fun entry => decide (entry.1.key = k)) = [] :=
        List.filter_eq_nil_iff.mpr fun entry hmem => by simpa using hbefore entry hmem
      rw [← hqueued, List.filter_append, hnil, List.nil_append]
    · have hik : i.key ≠ k := fun heq => hk (heq.symm.trans hi)
      rw [hother k hk, h k, List.filter_append, List.filter_append,
        List.filter_cons_of_neg (by simpa using hik)]

end Queues

theorem assign_eq_pairOff {queues : Queues} {left : List (Item × Nat)} (hindex : queues.Index left)
    (hnodup : (left.map Prod.snd).Nodup) (proposed : List Item) :
    pairOff proposed (left.map Prod.fst) = ((assign queues proposed).2,
      (left.filter fun entry => entry.2 ∉ (assign queues proposed).1).map Prod.fst) := by
  induction proposed generalizing queues left with
  | nil => simp [pairOff, assign]
  | cons item items ih =>
    cases hpop : queues.pop item.key with
    | none =>
      have hnone := eraseSame_eq_none.mpr (hindex.pop_eq_none hpop)
      simp [pairOff, assign, hpop, hnone, ih hindex hnodup]
    | some popped =>
      obtain ⟨position, rest⟩ := popped
      obtain ⟨before, i, after, rfl, hi, hbefore, hrest⟩ := hindex.pop_eq_some hpop
      have herase : eraseSame item ((before ++ (i, position) :: after).map Prod.fst) =
          some ((before ++ after).map Prod.fst) :=
        eraseSame_eq_some.mpr ⟨before.map Prod.fst, i, after.map Prod.fst, List.map_append,
          List.map_append, hi, hbefore⟩
      rw [List.map_append, List.map_cons, List.nodup_middle, ← List.map_append,
        List.nodup_cons] at hnodup
      simp only [pairOff, herase, assign, hpop, ih hrest hnodup.2, Prod.mk.injEq, true_and]
      -- no other item stands at the position taken
      have hother : ∀ entry ∈ before ++ after, entry.2 ≠ position := fun entry hmem heq =>
        hnodup.1 (List.mem_map.mpr ⟨entry, hmem, heq⟩)
      rw [List.filter_append, List.filter_append, List.filter_cons_of_neg (by simp)]
      congr 2 <;> refine List.filter_congr fun entry hmem => ?_ <;>
        simp [hother entry (by simp [hmem])]

/-- **Matching by queues of positions is matching by search.** -/
theorem unmatched_eq_pairOff (proposed issued : List Item) :
    unmatched proposed issued = pairOff proposed issued := by
  have hnodup : (issued.zipIdx.map Prod.snd).Nodup := by
    rw [List.zipIdx_map_snd]
    exact List.nodup_range'
  have h := assign_eq_pairOff (Queues.index_ofItems issued) hnodup proposed
  rw [List.zipIdx_map_fst] at h
  rw [h]
  rfl

end Settlement

/-! ### Key by key -/

/-- The items that bill one thing. -/
def billing (key : ChargeKey) (items : List Item) : List Item := items.filter (·.key = key)

@[simp] theorem billing_append (key : ChargeKey) (a b : List Item) :
    billing key (a ++ b) = billing key a ++ billing key b := List.filter_append ..

theorem billing_cons_of_eq {key : ChargeKey} {i : Item} (h : i.key = key) (items : List Item) :
    billing key (i :: items) = i :: billing key items := List.filter_cons_of_pos (by simpa using h)

theorem billing_cons_of_ne {key : ChargeKey} {i : Item} (h : i.key ≠ key) (items : List Item) :
    billing key (i :: items) = billing key items := List.filter_cons_of_neg (by simpa using h)

theorem length_billing (key : ChargeKey) (items : List Item) :
    (billing key items).length = (keys items).count key := by
  induction items with
  | nil => rfl
  | cons i items ih =>
    by_cases h : i.key = key
    · rw [billing_cons_of_eq h, List.length_cons, ih, keys_cons, h, List.count_cons_self]
    · rw [billing_cons_of_ne h, ih, keys_cons, List.count_cons_of_ne h]

theorem billing_eq_nil {key : ChargeKey} {items : List Item} (h : key ∉ keys items) :
    billing key items = [] := by
  rw [← List.length_eq_zero_iff, length_billing, List.count_eq_zero.mpr h]

namespace Settlement

/-- Of each key, the first items on either side find a partner, as many as the other side has. -/
theorem billing_pairOff (proposed issued : List Item) (key : ChargeKey) :
    billing key (pairOff proposed issued).1 =
        (billing key proposed).drop ((keys issued).count key) ∧
      billing key (pairOff proposed issued).2 =
        (billing key issued).drop ((keys proposed).count key) := by
  induction proposed generalizing issued with
  | nil => exact ⟨List.drop_nil.symm, rfl⟩
  | cons item items ih =>
    cases he : eraseSame item issued with
    | none =>
      simp only [pairOff, he]
      obtain ⟨hrest, hleft⟩ := ih issued
      by_cases hk : item.key = key
      · have hnone : key ∉ keys issued := hk ▸ eraseSame_eq_none.mp he
        rw [billing_cons_of_eq hk, billing_cons_of_eq hk, hrest, hleft, billing_eq_nil hnone,
          List.count_eq_zero.mpr hnone, List.drop_nil, List.drop_nil]
        exact ⟨rfl, rfl⟩
      · rw [billing_cons_of_ne hk, billing_cons_of_ne hk, keys_cons, List.count_cons_of_ne hk]
        exact ⟨hrest, hleft⟩
    | some left =>
      obtain ⟨before, i, after, rfl, rfl, hi, hbefore⟩ := eraseSame_eq_some.mp he
      simp only [pairOff, he]
      obtain ⟨hrest, hleft⟩ := ih (before ++ after)
      have hcount : (keys (before ++ i :: after)).count key =
          (keys (before ++ after)).count key + if i.key = key then 1 else 0 := by
        simp only [keys_append, keys_cons, List.count_append, List.count_cons, beq_iff_eq]
        omega
      rw [hrest, hleft, hcount]
      by_cases hk : item.key = key
      · subst hk
        -- the item found is the first of its key among those issued
        rw [if_pos hi, billing_cons_of_eq rfl, List.drop_succ_cons, keys_cons, List.count_cons_self,
          billing_append, billing_append, billing_eq_nil hbefore, billing_cons_of_eq hi,
          List.nil_append, List.nil_append, List.drop_succ_cons]
        exact ⟨rfl, rfl⟩
      · have hik : i.key ≠ key := fun heq => hk (hi.symm.trans heq)
        rw [if_neg hik, Nat.add_zero, billing_cons_of_ne hk, keys_cons, List.count_cons_of_ne hk,
          billing_append, billing_append, billing_cons_of_ne hik]
        exact ⟨rfl, rfl⟩

/-- **What matching by queues leaves is what the plain search leaves**: of each key, the first items
on either side drop out, as many as both sides have; the others keep their order, and no key is left
on both sides. -/
theorem unmatched_as_searched (proposed issued : List Item) :
    unmatched proposed issued = pairOff proposed issued ∧
      (unmatched proposed issued).1.Sublist proposed ∧
      (unmatched proposed issued).2.Sublist issued ∧
      ∀ key,
        billing key (unmatched proposed issued).1 = (billing key proposed).drop
            (min ((keys proposed).count key) ((keys issued).count key)) ∧
          billing key (unmatched proposed issued).2 = (billing key issued).drop
            (min ((keys proposed).count key) ((keys issued).count key)) ∧
          (key ∉ keys (unmatched proposed issued).1 ∨ key ∉ keys (unmatched proposed issued).2) := by
  obtain ⟨hproposed, hissued⟩ := pairOff_sublist proposed issued
  rw [unmatched_eq_pairOff]
  refine ⟨rfl, hproposed, hissued, fun key => ?_⟩
  obtain ⟨hrest, hleft⟩ := billing_pairOff proposed issued key
  obtain ⟨hmore, hless⟩ := count_pairOff proposed issued key
  refine ⟨?_, ?_, ?_⟩
  · rw [hrest, List.drop_eq_drop_iff, length_billing]
    omega
  · rw [hleft, List.drop_eq_drop_iff, length_billing]
    omega
  · rw [← List.count_eq_zero, ← List.count_eq_zero]
    omega

end Settlement

end BillRun
