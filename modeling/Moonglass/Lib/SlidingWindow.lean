import Moonglass.Lib.Ring
import Mathlib.Algebra.BigOperators.Fin
import Mathlib.Algebra.Order.BigOperators.Group.Finset

/-
  A window over two periods of `n` times each: the times of the period before `e` stand in its
  first half, those of `e` in its second. Moving to the next period moves the window by `n`.
-/

namespace Moonglass.Lib

variable {α : Type} {m n e t t' i : Nat}

/-- The place of time `t` in the window of period `e`. -/
def windowIndex (n e t : Nat) : Option Nat :=
  if t / n = e then some (n + t % n) else if t / n + 1 = e then some (t % n) else none

/-- What the window of period `e` holds for time `t`. -/
def windowAt (v : Vector α m) (n e t : Nat) : Option α := (windowIndex n e t).bind fun i => v[i]?

theorem windowIndex_eq_some (hn : 0 < n) :
    windowIndex n e t = some i ↔ i < 2 * n ∧ t + n = e * n + i := by
  have ht := Nat.div_add_mod t n
  have hmod := Nat.mod_lt t hn
  unfold windowIndex
  constructor
  · intro h
    split at h
    · rename_i he
      cases h
      rw [he] at ht
      rw [Nat.mul_comm e n]
      omega
    · split at h
      · rename_i he
        cases h
        rw [← he, Nat.add_mul, Nat.mul_comm (t / n) n]
        omega
      · cases h
  · rintro ⟨hi, heq⟩
    -- `t` is `i` times after the first time of the window
    by_cases hlt : i < n
    · have hdiv : t / n + 1 = e := by
        rw [← Nat.add_div_right t hn, heq, Nat.mul_comm, Nat.mul_add_div hn, Nat.div_eq_of_lt hlt]
        rfl
      have hmod' : t % n = i := by
        rw [← Nat.add_mod_right t n, heq, Nat.mul_comm, Nat.mul_add_mod, Nat.mod_eq_of_lt hlt]
      rw [if_neg (by omega), if_pos hdiv, hmod']
    · have heq' : t = n * e + (i - n) := by
        rw [Nat.mul_comm]
        omega
      have hdiv : t / n = e := by
        rw [heq', Nat.mul_add_div hn, Nat.div_eq_of_lt (by omega)]
        rfl
      have hmod' : t % n = i - n := by
        rw [heq', Nat.mul_add_mod, Nat.mod_eq_of_lt (by omega)]
      rw [if_pos hdiv, hmod']
      congr 1
      omega

theorem windowIndex_inj (hn : 0 < n) (h : windowIndex n e t = some i)
    (h' : windowIndex n e t' = some i) : t = t' := by
  rw [windowIndex_eq_some hn] at h h'
  omega

theorem windowIndex_of_current (h : t / n = e) : windowIndex n e t = some (n + t % n) :=
  if_pos h

/-- In the next period a time stands `n` places further to the front. -/
theorem windowIndex_succ (hn : 0 < n) (hi : i < n) :
    windowIndex n (e + 1) t = some i ↔ windowIndex n e t = some (i + n) := by
  rw [windowIndex_eq_some hn, windowIndex_eq_some hn, Nat.add_mul]
  omega

/-- A time of the window has left it two periods on. -/
theorem windowIndex_eq_none (h : t / n + 1 < e) : windowIndex n e t = none := by
  unfold windowIndex
  rw [if_neg (by omega), if_neg (by omega)]

theorem windowIndex_isSome (h : t / n = e ∨ t / n + 1 = e) : ∃ i, windowIndex n e t = some i := by
  unfold windowIndex
  rcases h with h | h
  · exact ⟨_, if_pos h⟩
  · exact ⟨_, by rw [if_neg (by omega), if_pos h]⟩

theorem windowAt_set (hn : 0 < n) (hm : 2 * n ≤ m) {v : Vector α m} {a : α}
    (h : windowIndex n e t = some i) (t' : Nat) :
    windowAt (v.setIfInBounds i a) n e t' = if t' = t then some a else windowAt v n e t' := by
  have hi : i < m := by
    have := ((windowIndex_eq_some hn).1 h).1
    omega
  unfold windowAt
  by_cases ht : t' = t
  · rw [if_pos ht, ht, h]
    simp [hi]
  · rw [if_neg ht]
    cases hj : windowIndex n e t' with
    | none => rfl
    | some j =>
      have hij : i ≠ j := fun hij => ht (windowIndex_inj hn hj (hij ▸ h))
      simp [Vector.getElem?_setIfInBounds, hij]

variable {v : Vector α (2 * n)}

theorem getElem?_shiftWindow {blank : α} (hi : i < 2 * n) :
    (shiftWindow v n fun _ => blank)[i]? = some (v[i + n]?.getD blank) := by
  unfold shiftWindow
  simp [hi]

theorem of_getElem?_shiftWindow {blank a : α}
    (h : (shiftWindow v n fun _ => blank)[i]? = some a) : a = blank ∨ v[i + n]? = some a := by
  rw [getElem?_shiftWindow (Vector.getElem?_eq_some_iff.1 h).1] at h
  cases hv : v[i + n]? with
  | none =>
    rw [hv] at h
    exact .inl (Option.some.inj h).symm
  | some b => exact .inr (by rwa [hv] at h)

/-- After the move a time holds a blank or what it held before. -/
theorem windowAt_of_shift (hn : 0 < n) {blank a : α}
    (h : windowAt (shiftWindow v n fun _ => blank) n (e + 1) t = some a) :
    a = blank ∨ windowAt v n e t = some a := by
  obtain ⟨i, hi, ha⟩ := Option.bind_eq_some_iff.1 h
  refine (of_getElem?_shiftWindow ha).imp_right fun hv => ?_
  have hlt : i + n < 2 * n := (Vector.getElem?_eq_some_iff.1 hv).1
  unfold windowAt
  rw [(windowIndex_succ hn (by omega)).1 hi, Option.bind_some, hv]

/-- The move keeps what the window holds for a time of its later period. -/
theorem windowAt_shift (hn : 0 < n) {blank : α} (ht : t / n = e) :
    windowAt (shiftWindow v n fun _ => blank) n (e + 1) t = windowAt v n e t := by
  have hmod := Nat.mod_lt t hn
  have hlt : t % n + n < 2 * n := by omega
  have hi : windowIndex n e t = some (t % n + n) := by
    rw [windowIndex_of_current ht, Nat.add_comm]
  unfold windowAt
  rw [(windowIndex_succ hn hmod).2 hi, hi, Option.bind_some, Option.bind_some,
    getElem?_shiftWindow (by omega), Vector.getElem?_eq_getElem hlt]
  rfl

/-- Every place of the window is blank or holds what `P` says of its time. -/
def Fills (v : Vector α m) (n e : Nat) (blank : α) (P : Nat → α → Prop) : Prop :=
  ∀ i a, v[i]? = some a → a = blank ∨ ∃ t, windowIndex n e t = some i ∧ P t a

namespace Fills

variable {v : Vector α (2 * n)} {blank : α} {P Q : Nat → α → Prop}

theorem windowAt (hn : 0 < n) (h : Fills v n e blank P) {a : α} (ha : Lib.windowAt v n e t = some a) :
    a = blank ∨ P t a := by
  obtain ⟨i, hi, ha⟩ := Option.bind_eq_some_iff.1 ha
  rcases h i a ha with hblank | ⟨t', ht', hP⟩
  · exact .inl hblank
  · exact .inr (windowIndex_inj hn ht' hi ▸ hP)

theorem mono (h : Fills v n e blank P) (hPQ : ∀ t a, P t a → Q t a) : Fills v n e blank Q :=
  fun i a ha => (h i a ha).imp_right fun ⟨t, ht, hP⟩ => ⟨t, ht, hPQ t a hP⟩

theorem set (h : Fills v n e blank P) {a : α} (ht : windowIndex n e t = some i)
    (ha : a = blank ∨ P t a) : Fills (v.setIfInBounds i a) n e blank P := by
  intro j b hb
  rw [Vector.getElem?_setIfInBounds] at hb
  split at hb
  · rename_i hij
    split at hb
    · cases hb
      exact ha.imp_right fun hP => ⟨t, hij ▸ ht, hP⟩
    · cases hb
  · exact h j b hb

/-- A blank may be put anywhere. -/
theorem set_blank (h : Fills v n e blank P) (i : Nat) :
    Fills (v.setIfInBounds i blank) n e blank P := by
  intro j b hb
  rw [Vector.getElem?_setIfInBounds] at hb
  split at hb
  · split at hb
    · cases hb
      exact .inl rfl
    · cases hb
  · exact h j b hb

theorem shift (hn : 0 < n) (h : Fills v n e blank P) :
    Fills (shiftWindow v n fun _ => blank) n (e + 1) blank P := by
  intro i a ha
  rcases of_getElem?_shiftWindow ha with hblank | hv
  · exact .inl hblank
  · refine (h _ _ hv).imp_right fun ⟨t, ht, hP⟩ => ?_
    have hlt := ((windowIndex_eq_some hn).1 ht).1
    exact ⟨t, (windowIndex_succ hn (by omega)).2 ht, hP⟩

end Fills

/-! ## Windows of any length -/

/-- What a window whose first place is time `base` holds for time `t`. -/
def entryAt (v : Vector α m) (base t : Nat) : Option α := if base ≤ t then v[t - base]? else none

theorem entryAt_isSome (v : Vector α m) {base t : Nat} (hlo : base ≤ t) (hhi : t < base + m) :
    ∃ a, entryAt v base t = some a := by
  have hlt : t - base < m := by omega
  exact ⟨v[t - base], by rw [entryAt, if_pos hlo, Vector.getElem?_eq_getElem hlt]⟩

/-- From one period to another: the window stays in its period, or it moves on by one. -/
def Shifts (n : Nat) (v v' : Vector α m) (e e' : Nat) : Prop :=
  e' = e ∧ v' = v ∨ e' = e + 1 ∧ ∃ tail, v' = shiftWindow v n tail

/-- A move keeps the entries of the times that are in the window before and after it. -/
theorem Shifts.entryAt_eq {v v' : Vector α m} {e' : Nat} (h : Shifts n v v' e e')
    (hlo : e' * n ≤ t) (hhi : t < e * n + m) : entryAt v' (e' * n) t = entryAt v (e * n) t := by
  rcases h with ⟨rfl, rfl⟩ | ⟨rfl, tail, rfl⟩
  · rfl
  · rw [Nat.succ_mul] at hlo
    have hplace : t - (e * n + n) + n = t - e * n := by omega
    have hlt : t - e * n < m := by omega
    unfold entryAt shiftWindow
    rw [Nat.succ_mul, if_pos hlo, if_pos (by omega), Vector.getElem?_ofFn, dif_pos (by omega)]
    simp only [hplace]
    rw [Vector.getElem?_eq_getElem hlt]
    rfl

/-- The times that enter the window have the entries of the tail. -/
theorem entryAt_shiftWindow_tail {v : Vector α m} {tail : Nat → α} (hn : n ≤ m)
    (hlo : e * n + m ≤ t) (hhi : t < (e + 1) * n + m) :
    entryAt (shiftWindow v n tail) ((e + 1) * n) t = some (tail (t - (e * n + m))) := by
  rw [Nat.succ_mul] at hhi ⊢
  have hplace : t - (e * n + n) + n - m = t - (e * n + m) := by omega
  unfold entryAt shiftWindow
  rw [if_pos (by omega), Vector.getElem?_ofFn, dif_pos (by omega)]
  simp only [hplace]
  rw [Vector.getElem?_eq_none (by omega)]
  rfl

end Moonglass.Lib
