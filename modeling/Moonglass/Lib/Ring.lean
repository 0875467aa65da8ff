import Mathlib.Algebra.Order.Ring.Nat

/-
  Ring buffers: fixed-size vectors addressed modulo their size. A write is read back at every
  index that is congruent to the written one, and nowhere else.
-/

namespace Moonglass.Lib

variable {α : Type} {n : Nat} [NeZero n]

theorem mod_size_lt (i : Nat) : i % n < n := Nat.mod_lt _ (Nat.pos_of_ne_zero (NeZero.ne n))

/-- The entry at `i`, modulo the size. -/
def ringGet (v : Vector α n) (i : Nat) : α := v.get ⟨i % n, mod_size_lt i⟩

/-- Overwrite the entry at `i`, modulo the size. -/
def ringSet (v : Vector α n) (i : Nat) (a : α) : Vector α n := v.set (i % n) a (mod_size_lt i)

theorem ringGet_ringSet (v : Vector α n) (i j : Nat) (a : α) :
    ringGet (ringSet v i a) j = if i % n = j % n then a else ringGet v j :=
  Vector.getElem_set (mod_size_lt i) (mod_size_lt j)

@[simp] theorem ringGet_ringSet_self (v : Vector α n) (i : Nat) (a : α) :
    ringGet (ringSet v i a) i = a := by
  rw [ringGet_ringSet, if_pos rfl]

/-- Two indices less than the size apart are the same entry only when they are equal. -/
theorem eq_of_mod_eq {m i j : Nat} (h : i % m = j % m) (hij : i < j + m) (hji : j < i + m) :
    i = j := by
  rcases Nat.le_total i j with hle | hle
  · have hsub := Nat.sub_mod_eq_zero_of_mod_eq h.symm
    rw [Nat.mod_eq_of_lt (by omega)] at hsub
    omega
  · have hsub := Nat.sub_mod_eq_zero_of_mod_eq h
    rw [Nat.mod_eq_of_lt (by omega)] at hsub
    omega

theorem ringGet_ringSet_of_ne {v : Vector α n} {i j : Nat} {a : α} (hne : i ≠ j)
    (hij : i < j + n) (hji : j < i + n) : ringGet (ringSet v i a) j = ringGet v j := by
  rw [ringGet_ringSet, if_neg fun h => hne (eq_of_mod_eq h hij hji)]

theorem ringGet_ringSet_of_near {v : Vector α n} {i j : Nat} {a : α} (hij : j < i)
    (hn : i < j + n) : ringGet (ringSet v i a) j = ringGet v j :=
  ringGet_ringSet_of_ne (by omega) hn (by omega)

/-- The entries of the positions `lo, …, now - 1` that are still in the ring have the property. -/
def Holds (v : Vector α n) (P : Nat → α → Prop) (lo now : Nat) : Prop :=
  ∀ t, lo ≤ t → t < now → now ≤ t + n → P t (ringGet v t)

namespace Holds

variable {v : Vector α n} {P Q : Nat → α → Prop} {lo now : Nat} {a : α}

theorem start (v : Vector α n) (P : Nat → α → Prop) (lo : Nat) : Holds v P lo lo := by
  intro t hlo hlt _
  omega

/-- Writing the entry of position `now` takes the place of the one that leaves the ring. -/
theorem write (h : Holds v P lo now) (ha : P now a) : Holds (ringSet v now a) P lo (now + 1) := by
  intro t hlo hlt hn
  rcases Nat.lt_succ_iff_lt_or_eq.1 hlt with hlt | rfl
  · rw [ringGet_ringSet_of_near hlt (by omega)]
    exact h t hlo hlt (by omega)
  · rw [ringGet_ringSet_self]
    exact ha

theorem imp (h : Holds v P lo now) (hPQ : ∀ t a, t < now → P t a → Q t a) : Holds v Q lo now :=
  fun t hlo hlt hn => hPQ t _ hlt (h t hlo hlt hn)

end Holds

/-- Move a window `k` places forward; the last `k` places are filled from `tail`. -/
def shiftWindow {m : Nat} (v : Vector α m) (k : Nat) (tail : Nat → α) : Vector α m :=
  Vector.ofFn fun i => (v[i.val + k]?).getD (tail (i.val + k - m))

/-! ## Walking around -/

/-- The `k` places that a walk around a ring of size `n` meets from `a` on. -/
def around (n a k : Nat) : List Nat := (List.range k).map fun i => (a + i) % n

/-- The places from `a` on before `b`. -/
def passedOver (n a b : Nat) : List Nat := around n a ((b + n - a) % n)

theorem mem_around {n a k j : Nat} : j ∈ around n a k ↔ ∃ i < k, (a + i) % n = j := by
  simp [around]

/-- A walk of `k` steps meets every place that it passes over on the shortest way to its end. -/
theorem passedOver_subset {n a : Nat} (ha : a < n) (k : Nat) :
    passedOver n a ((a + k) % n) ⊆ around n a k := by
  have hdiv := Nat.div_add_mod (a + k) n
  have hlt := Nat.mod_lt (a + k) (Nat.zero_lt_of_lt ha)
  -- the shortest way takes `k` steps, less the full turns
  have hle : ((a + k) % n + n - a) % n ≤ k := by
    by_cases hpast : a ≤ (a + k) % n
    · rw [show (a + k) % n + n - a = (a + k) % n - a + n by omega, Nat.add_mod_right,
        Nat.mod_eq_of_lt (by omega)]
      have := Nat.mod_le (a + k) n
      omega
    · rw [Nat.mod_eq_of_lt (by omega)]
      have hturn : n ≤ n * ((a + k) / n) := by
        refine Nat.le_mul_of_pos_right n (Nat.pos_of_ne_zero fun hzero => ?_)
        rw [hzero, Nat.mul_zero] at hdiv
        omega
      omega
  intro j hj
  obtain ⟨i, hi, hij⟩ := mem_around.1 hj
  exact mem_around.2 ⟨i, Nat.lt_of_lt_of_le hi hle, hij⟩

/-- A whole turn meets every place. -/
theorem mem_around_of_lt {n a k j : Nat} (ha : a < n) (hk : n ≤ k) (hj : j < n) :
    j ∈ around n a k := by
  by_cases hpast : a ≤ j
  · refine mem_around.2 ⟨j - a, by omega, ?_⟩
    rw [Nat.add_sub_cancel' hpast, Nat.mod_eq_of_lt hj]
  · refine mem_around.2 ⟨j + n - a, by omega, ?_⟩
    rw [show a + (j + n - a) = j + n by omega, Nat.add_mod_right, Nat.mod_eq_of_lt hj]

end Moonglass.Lib
