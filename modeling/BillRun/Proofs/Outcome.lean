import BillRun.Fault
import Mathlib.Data.List.Forall2
import Mathlib.Data.List.Perm.Basic

/-! Reading an outcome backward: what must have succeeded for a composite to succeed, and what must
have failed for it to fail. -/
namespace BillRun

section
variable {α β : Type}

theorem bind_eq_ok {x : Except Fault α} {f : α → Except Fault β} {b : β} :
    (x >>= f) = .ok b ↔ ∃ a, x = .ok a ∧ f a = .ok b := by
  cases x with
  | error e =>
    constructor
    · nofun
    · rintro ⟨_, h, _⟩
      cases h
  | ok a =>
    constructor
    · exact fun h => ⟨a, rfl, h⟩
    · rintro ⟨_, ha, h⟩
      cases ha
      exact h

@[simp] theorem ok_bind (a : α) (f : α → Except Fault β) : (Except.ok a >>= f) = f a := rfl

@[simp] theorem error_bind (e : Fault) (f : α → Except Fault β) :
    (Except.error e >>= f) = .error e := rfl

@[simp] theorem pure_eq_ok (a : α) : (pure a : Except Fault α) = .ok a := rfl

theorem map_eq_ok {f : α → β} {x : Except Fault α} {b : β} :
    f <$> x = .ok b ↔ ∃ a, x = .ok a ∧ f a = b := by
  cases x with
  | error e =>
    constructor
    · nofun
    · rintro ⟨_, h, _⟩
      cases h
  | ok a => simp

theorem map_eq_error {f : α → β} {x : Except Fault α} {e : Fault} :
    f <$> x = .error e ↔ x = .error e := by
  cases x <;> simp

/-- Past a guard: it did not throw, and what comes after it succeeded. -/
theorem guard_eq_ok {p : Prop} [Decidable p] {e : Fault} {after : Unit → Except Fault β} {b : β} :
    (if p then (throw e : Except Fault Unit) >>= after else after ()) = .ok b ↔
      ¬p ∧ after () = .ok b := by
  by_cases h : p
  · simp only [h, if_true, not_true, false_and, iff_false]
    nofun
  · simp [h]

theorem mapM_eq_ok {f : α → Except Fault β} {xs : List α} {ys : List β} :
    xs.mapM f = .ok ys ↔ List.Forall₂ (fun x y => f x = .ok y) xs ys := by
  induction xs generalizing ys with
  | nil => simp [eq_comm]
  | cons x xs ih =>
    rw [List.mapM_cons, bind_eq_ok]
    constructor
    · rintro ⟨y, hy, h⟩
      obtain ⟨rest, hrest, h⟩ := bind_eq_ok.mp h
      cases h
      exact .cons hy (ih.mp hrest)
    · intro h
      cases h with
      | cons hy hrest => exact ⟨_, hy, bind_eq_ok.mpr ⟨_, ih.mpr hrest, rfl⟩⟩

theorem mapM_eq_error {f : α → Except Fault β} {xs : List α} {fault : Fault}
    (h : xs.mapM f = .error fault) : ∃ a ∈ xs, f a = .error fault := by
  induction xs with
  | nil => cases h
  | cons a xs ih =>
    rw [List.mapM_cons] at h
    cases ha : f a with
    | error g =>
      rw [ha] at h
      cases h
      exact ⟨a, List.mem_cons_self, ha⟩
    | ok b =>
      rw [ha, ok_bind] at h
      cases hxs : xs.mapM f with
      | error g =>
        rw [hxs] at h
        cases h
        obtain ⟨a', ha', hfault⟩ := ih hxs
        exact ⟨a', List.mem_cons_of_mem a ha', hfault⟩
      | ok bs =>
        rw [hxs] at h
        cases h

/-- Where there is only one fault to meet, it does not matter in which order the list is gone
through. -/
theorem mapM_of_perm {f : α → Except Fault β} {fault : Fault}
    (honly : ∀ a g, f a = .error g → g = fault) {xs ys : List α} (h : xs.Perm ys) :
    (xs.mapM f = .error fault ∧ ys.mapM f = .error fault) ∨
      ∃ as bs, xs.mapM f = .ok as ∧ ys.mapM f = .ok bs ∧ as.Perm bs := by
  have hok {xs ys : List α} {as : List β} (h : xs.Perm ys) (has : xs.mapM f = .ok as) :
      ∃ bs, ys.mapM f = .ok bs ∧ as.Perm bs := by
    obtain ⟨bs, hbs, hperm⟩ := List.perm_comp_forall₂ h.symm (mapM_eq_ok.mp has)
    exact ⟨bs, mapM_eq_ok.mpr hbs, hperm.symm⟩
  have herror {xs : List α} {g : Fault} (hxs : xs.mapM f = .error g) : g = fault := by
    obtain ⟨a, -, ha⟩ := mapM_eq_error hxs
    exact honly a g ha
  cases hxs : xs.mapM f with
  | ok as =>
    obtain ⟨bs, hbs, hperm⟩ := hok h hxs
    exact .inr ⟨as, bs, rfl, hbs, hperm⟩
  | error g =>
    obtain rfl := herror hxs
    cases hys : ys.mapM f with
    | ok bs =>
      obtain ⟨as, has, -⟩ := hok h.symm hys
      rw [hxs] at has
      cases has
    | error g' =>
      obtain rfl := herror hys
      exact .inl ⟨rfl, rfl⟩

theorem exists_of_mem_right {R : α → β → Prop} {xs : List α} {ys : List β}
    (h : List.Forall₂ R xs ys) {y : β} (hy : y ∈ ys) : ∃ x ∈ xs, R x y := by
  induction h with
  | nil => cases hy
  | cons hxy _ ih =>
    rcases List.mem_cons.mp hy with rfl | hy
    · exact ⟨_, List.mem_cons_self, hxy⟩
    · obtain ⟨x, hx, hxy⟩ := ih hy
      exact ⟨x, List.mem_cons_of_mem _ hx, hxy⟩

/-- What is picked on the right comes from what is picked on the left. -/
theorem exists_sublist_left {R : α → β → Prop} {xs : List α} {ys ys' : List β}
    (h : List.Forall₂ R xs ys) (hsub : ys'.Sublist ys) :
    ∃ xs', xs'.Sublist xs ∧ List.Forall₂ R xs' ys' := by
  induction hsub generalizing xs with
  | slnil =>
    cases h
    exact ⟨[], .refl _, .nil⟩
  | cons _ _ ih =>
    cases h with
    | @cons x _ _ _ _ h =>
      obtain ⟨xs', hxs, hall⟩ := ih h
      exact ⟨xs', hxs.cons x, hall⟩
  | cons_cons _ _ ih =>
    cases h with
    | @cons x _ _ _ hxy h =>
      obtain ⟨xs', hxs, hall⟩ := ih h
      exact ⟨x :: xs', hxs.cons_cons x, .cons hxy hall⟩

end

end BillRun
