import Mathlib.Data.Fin.Basic
import Mathlib.Algebra.NeZero
import Mathlib.Algebra.GroupWithZero.Nat
import Moonglass.Lib.Result

/-
  Fixed-width unsigned integers. A word of `w` bits is a `Fin (2 ^ w)`, so `omega` reads its
  value and the order on it directly. The named operations are the ones of Rust's integer types:
  checked, saturating and truncating; `+`, `-` and `*` wrap, as they do in a release build.
-/

namespace Moonglass.Lib

open List

/-- An unsigned integer of `w` bits. -/
abbrev Word (w : Nat) := Fin (2 ^ w)

namespace Word

variable {w : Nat}
variable {n : Nat} {a c : Word w}

/-- The largest word, `2 ^ w - 1`. -/
def max : Word w := ⟨2 ^ w - 1, Nat.sub_lt (Nat.two_pow_pos w) Nat.one_pos⟩

/-- Keep the low `w` bits of a number, as an `as` cast does. -/
def wrap (n : Nat) : Word w := ⟨n % 2 ^ w, Nat.mod_lt _ (Nat.two_pow_pos w)⟩

def checkedAdd (a : Word w) (n : Nat) : Option (Word w) :=
  if h : a.val + n < 2 ^ w then some ⟨a.val + n, h⟩ else none

def checkedSub (a : Word w) (n : Nat) : Option (Word w) :=
  if n ≤ a.val then some ⟨a.val - n, by omega⟩ else none

def checkedMul (a : Word w) (n : Nat) : Option (Word w) :=
  if h : a.val * n < 2 ^ w then some ⟨a.val * n, h⟩ else none

/-- The number itself, or the largest word when it does not fit. -/
def saturate (n : Nat) : Word w :=
  ⟨Nat.min n (2 ^ w - 1),
    Nat.lt_of_le_of_lt (Nat.min_le_right _ _) (Nat.sub_lt (Nat.two_pow_pos w) Nat.one_pos)⟩

def satAdd (a : Word w) (n : Nat) : Word w := saturate (a.val + n)

def satSub (a : Word w) (n : Nat) : Word w := ⟨a.val - n, by omega⟩

def satMul (a : Word w) (n : Nat) : Word w := saturate (a.val * n)

/-- Division by a number (zero divides to zero; the source never divides by zero). -/
def div (a : Word w) (n : Nat) : Word w :=
  ⟨a.val / n, Nat.lt_of_le_of_lt (Nat.div_le_self _ _) a.isLt⟩

/-- Division that has no result when the divisor is zero. -/
def checkedDiv (a : Word w) (n : Nat) : Option (Word w) :=
  if n = 0 then none else some (a.div n)

@[simp] theorem wrap_val (n : Nat) : (wrap n : Word w).val = n % 2 ^ w := rfl

@[simp] theorem satAdd_val (a : Word w) (n : Nat) :
    (satAdd a n).val = min (a.val + n) (2 ^ w - 1) := rfl

@[simp] theorem satSub_val (a : Word w) (n : Nat) : (satSub a n).val = a.val - n := rfl

theorem satSub_satSub (a : Word w) (m n : Nat) : (a.satSub m).satSub n = a.satSub (m + n) := by
  refine Fin.ext ?_
  rw [satSub_val, satSub_val, satSub_val]
  omega

@[simp] theorem satSub_zero (a : Word w) : a.satSub 0 = a := Fin.ext rfl

@[simp] theorem div_val (a : Word w) (n : Nat) : (a.div n).val = a.val / n := rfl

@[simp] theorem max_val : (max : Word w).val = 2 ^ w - 1 := rfl

theorem wrap_val_of_lt (h : n < 2 ^ w) : (wrap n : Word w).val = n :=
  Nat.mod_eq_of_lt h

theorem wrap_inj {m : Nat} (hm : m < 2 ^ w) (hn : n < 2 ^ w) (h : (wrap m : Word w) = wrap n) :
    m = n := by
  have := congrArg Fin.val h
  rwa [wrap_val_of_lt hm, wrap_val_of_lt hn] at this

@[simp] theorem checkedAdd_eq_some : checkedAdd a n = some c ↔ c.val = a.val + n := by
  unfold checkedAdd
  split
  · simp only [Option.some.injEq, Fin.ext_iff]; omega
  · simp only [reduceCtorEq, false_iff]; omega

@[simp] theorem checkedSub_eq_some : checkedSub a n = some c ↔ a.val = c.val + n := by
  unfold checkedSub
  split
  · simp only [Option.some.injEq, Fin.ext_iff]; omega
  · simp only [reduceCtorEq, false_iff]; omega

@[simp] theorem checkedMul_eq_some : checkedMul a n = some c ↔ c.val = a.val * n := by
  unfold checkedMul
  split
  · simp only [Option.some.injEq, Fin.ext_iff]; omega
  · have := c.isLt
    simp only [reduceCtorEq, false_iff]; omega

@[simp] theorem checkedDiv_eq_some : checkedDiv a n = some c ↔ n ≠ 0 ∧ c.val = a.val / n := by
  unfold checkedDiv
  split
  · simp [*]
  · simp [*, Fin.ext_iff, eq_comm]

/-- Two checked additions succeed together exactly when the sum fits. -/
theorem okOr_checkedAdd_bind {ε : Type} (a : Word w) (m n : Nat) (e : ε) :
    (okOr (checkedAdd a m) e >>= fun b => okOr (checkedAdd b n) e) =
      okOr (checkedAdd a (m + n)) e := by
  by_cases hm : a.val + m < 2 ^ w
  · have h1 : checkedAdd a m = some ⟨a.val + m, hm⟩ := dif_pos hm
    rw [h1, okOr_some, ok_bind]
    simp only [checkedAdd, Nat.add_assoc]
  · have h1 : checkedAdd a m = none := dif_neg hm
    have h2 : checkedAdd a (m + n) = none := dif_neg (by omega)
    rw [h1, h2, okOr_none, error_bind]

@[simp] theorem checkedAdd_zero (a : Word w) : checkedAdd a 0 = some a := by
  rw [checkedAdd_eq_some]; rfl

/-- Adding a number that was itself summed with a check. -/
theorem okOr_checkedAdd_val {ε : Type} (a : Word w) (n : Nat) (e : ε) :
    (okOr (checkedAdd (0 : Word w) n) e >>= fun b => okOr (checkedAdd a b.val) e) =
      okOr (checkedAdd a n) e := by
  by_cases hn : n < 2 ^ w
  · have hsum : checkedAdd (0 : Word w) n = some ⟨n, hn⟩ := by
      rw [checkedAdd_eq_some]
      exact (Nat.zero_add n).symm
    rw [hsum, okOr_some, ok_bind]
  · have hsum : checkedAdd (0 : Word w) n = none := dif_neg (by rw [Fin.val_zero]; omega)
    have hadd : checkedAdd a n = none := dif_neg (by omega)
    rw [hsum, hadd, okOr_none, error_bind]

/-- A loop of checked additions adds the sum, with one check. -/
theorem foldlM_checkedAdd {ε α : Type} {f : Word w → α → Except ε (Word w)} {x : α → Nat} {e : ε}
    {l : List α} (step : ∀ t, ∀ a ∈ l, f t a = okOr (checkedAdd t (x a)) e) (t : Word w) :
    l.foldlM f t = okOr (checkedAdd t (l.map x).sum) e := by
  induction l generalizing t with
  | nil => exact (congrArg (okOr · e) (checkedAdd_zero t)).symm
  | cons a l ih =>
    have hrest := ih fun t b hb => step t b (mem_cons_of_mem a hb)
    rw [foldlM_cons, step t a mem_cons_self, map_cons, sum_cons]
    simp only [hrest]
    exact okOr_checkedAdd_bind t _ _ e

end Word

end Moonglass.Lib
