import Mathlib.Data.List.Forall2

/-
  Lists after an update of one place, and lists related place by place.
-/

namespace Moonglass.Lib

open List

variable {α β : Type} {i k : Nat} {R : α → α → Prop} {f : α → α}

theorem forall₂_modify (refl : ∀ a, R a a) (hf : ∀ a, R a (f a))
    (l : List α) (i : Nat) : List.Forall₂ R l (l.modify i f) := by
  induction l generalizing i with
  | nil => cases i <;> exact .nil
  | cons a l ih =>
    cases i with
    | zero => exact .cons (hf a) (forall₂_same.2 fun x _ => refl x)
    | succ i => exact .cons (refl a) (ih i)

theorem forall₂_set {l l' : List α} {b c : α} (h : List.Forall₂ R l l')
    (hb : l'[i]? = some b) (hc : ∀ a, R a b → R a c) : List.Forall₂ R l (l'.set i c) := by
  induction h generalizing i with
  | nil => cases hb
  | cons hab _ ih =>
    cases i with
    | zero =>
      obtain rfl := Option.some.inj hb
      exact .cons (hc _ hab) ‹_›
    | succ i => exact .cons hab (ih hb)

variable {l : List α}

theorem map_set_same {f : α → β} {a b : α} (ha : l[i]? = some a) (hb : f b = f a) :
    (l.set i b).map f = l.map f := by
  induction l generalizing i with
  | nil => rfl
  | cons c l ih =>
    cases i with
    | zero =>
      obtain rfl := Option.some.inj ha
      rw [set_cons_zero, map_cons, map_cons, hb]
    | succ i => rw [set_cons_succ, map_cons, map_cons, ih ha]

theorem map_modify_same {f : α → β} {g : α → α} (hg : ∀ a, f (g a) = f a) (l : List α) (i : Nat) :
    (l.modify i g).map f = l.map f := by
  induction l generalizing i with
  | nil => cases i <;> rfl
  | cons a l ih =>
    cases i with
    | zero => exact congrArg (· :: l.map f) (hg a)
    | succ i => exact congrArg (f a :: ·) (ih i)

theorem forall₂_modify_of (refl : ∀ a, R a a) {a : α}
    (ha : l[i]? = some a) (hf : R a (f a)) : List.Forall₂ R l (l.modify i f) := by
  induction l generalizing i with
  | nil => cases ha
  | cons b l ih =>
    cases i with
    | zero =>
      obtain rfl := Option.some.inj ha
      exact .cons hf (forall₂_same.2 fun a _ => refl a)
    | succ i => exact .cons (refl b) (ih ha)

theorem forall₂_getElem? {l l' : List α} {a : α} (h : List.Forall₂ R l l')
    (ha : l[k]? = some a) : ∃ b, l'[k]? = some b ∧ R a b := by
  induction h generalizing k with
  | nil => cases ha
  | cons hab _ ih =>
    cases k with
    | zero =>
      obtain rfl := Option.some.inj ha
      exact ⟨_, rfl, hab⟩
    | succ k => exact ih ha

/-- A place that is modified has the new value, and every other place the old one. -/
theorem modify_getElem? {a b : α} (hi : l[i]? = some b) (hk : l[k]? = some a) (refl : R a a)
    (hf : R b (f b)) : ∃ a', (l.modify i f)[k]? = some a' ∧ R a a' := by
  rw [getElem?_modify]
  by_cases hik : i = k
  · obtain rfl := hik
    obtain rfl := Option.some.inj (hi.symm.trans hk)
    rw [hk]
    exact ⟨f b, congrArg some (if_pos rfl), hf⟩
  · rw [hk]
    exact ⟨a, congrArg some (if_neg hik), refl⟩

theorem forall_mem_modify {P : α → Prop}
    (hf : ∀ a, l[i]? = some a → P a → P (f a)) (h : ∀ a ∈ l, P a) : ∀ a ∈ l.modify i f, P a := by
  intro b hb
  obtain ⟨k, hk⟩ := mem_iff_getElem?.1 hb
  rw [getElem?_modify] at hk
  obtain ⟨a, ha, rfl⟩ := Option.map_eq_some_iff.1 hk
  have hmem := mem_of_getElem? ha
  by_cases hik : i = k
  · rw [if_pos hik]
    exact hf a (hik ▸ ha) (h a hmem)
  · rw [if_neg hik]
    exact h a hmem

end Moonglass.Lib
