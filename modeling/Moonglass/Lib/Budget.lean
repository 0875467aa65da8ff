import Mathlib.Order.Bounds.Basic
import Mathlib.Tactic.Ring

/-
  A budget that grows with time and is spent by a cursor: the cursor stands at a time and holds
  what is left of the budget there. Spending moves it forward to the first time that can pay.
-/

namespace Moonglass.Lib

/-- Where spending stands: the time reached, and what is left at that time. -/
structure Cursor where
  time : Nat
  left : Nat

/-- How many units of time a base must grow at `rate` before it covers a request. -/
def waiting (base rate request : Nat) : Nat :=
  if base < request then (request - base - 1) / rate + 1 else 0

theorem waiting_covers {base rate request : Nat} (hrate : base < request → 0 < rate) :
    request ≤ base + rate * waiting base rate request := by
  unfold waiting
  split
  · rename_i hlt
    have hdiv := Nat.div_add_mod (request - base - 1) rate
    have hmod := Nat.mod_lt (request - base - 1) (hrate hlt)
    rw [Nat.mul_add]
    omega
  · omega

/-- Before the waiting is over, the base has not grown enough. -/
theorem lt_waiting {base rate request k : Nat} (h : k < waiting base rate request) :
    base + rate * k < request := by
  unfold waiting at h
  split at h
  · rename_i hlt
    have hk : rate * k ≤ request - base - 1 :=
      (Nat.mul_le_mul_left rate (Nat.le_of_lt_succ h)).trans (Nat.mul_div_le _ _)
    omega
  · omega

/-- The end of the waiting is the first time from `start` on whose budget covers the request. -/
theorem isLeast_waiting {start base rate request : Nat} (hrate : base < request → 0 < rate) :
    IsLeast {t | start ≤ t ∧ request ≤ base + rate * (t - start)}
      (start + waiting base rate request) := by
  refine ⟨⟨Nat.le_add_right _ _, ?_⟩, ?_⟩
  · rw [Nat.add_sub_cancel_left]
    exact waiting_covers hrate
  · intro t ⟨hstart, hcover⟩
    by_contra hlt
    have hlate : t - start < waiting base rate request := by omega
    exact absurd hcover (Nat.not_le.2 (lt_waiting hlate))

namespace Cursor

/-- The amount spent between two positions of the cursor is covered by what was left and by a
budget that grows by at most `rate` per unit of time. -/
structure Spends (rate : Nat) (c : Cursor) (spent : Nat) (c' : Cursor) : Prop where
  time_le : c.time ≤ c'.time
  covered : spent + c'.left ≤ c.left + rate * (c'.time - c.time)

variable {rate spent spent' : Nat} {c c' c'' : Cursor}

theorem Spends.refl (c : Cursor) : Spends rate c 0 c := ⟨le_rfl, by simp⟩

theorem Spends.trans (h : Spends rate c spent c') (h' : Spends rate c' spent' c'') :
    Spends rate c (spent + spent') c'' := by
  refine ⟨h.time_le.trans h'.time_le, ?_⟩
  have hsplit : rate * (c''.time - c.time) =
      rate * (c''.time - c'.time) + rate * (c'.time - c.time) := by
    rw [← Nat.mul_add]
    congr 1
    have := h.time_le
    have := h'.time_le
    omega
  have h₁ := h.covered
  have h₂ := h'.covered
  omega

/-- Spending that starts from what the cursor has left. -/
theorem Spends.of_left {churn request : Nat} (hchurn : churn ≤ rate)
    (hcover : request ≤ c.left + churn * waiting c.left churn request) :
    Spends rate c request ⟨c.time + waiting c.left churn request,
      c.left + churn * waiting c.left churn request - request⟩ := by
  refine ⟨Nat.le_add_right _ _, ?_⟩
  have hgrow := Nat.mul_le_mul_right (waiting c.left churn request) hchurn
  simp only [Nat.add_sub_cancel_left]
  omega

/-- Spending that starts at a later time, with one unit of time's fresh budget: what was left at
the cursor is given up. -/
theorem Spends.of_fresh {churn request start : Nat} (hchurn : churn ≤ rate)
    (hstart : c.time < start) (hcover : request ≤ churn + churn * waiting churn churn request) :
    Spends rate c request ⟨start + waiting churn churn request,
      churn + churn * waiting churn churn request - request⟩ := by
  refine ⟨by simp only; omega, ?_⟩
  have hgrow : churn + churn * waiting churn churn request ≤
      rate * (start + waiting churn churn request - c.time) := by
    calc churn + churn * waiting churn churn request
        = churn * (1 + waiting churn churn request) := by ring
      _ ≤ rate * (start + waiting churn churn request - c.time) :=
          Nat.mul_le_mul hchurn (by omega)
  simp only
  omega

end Cursor

end Moonglass.Lib
