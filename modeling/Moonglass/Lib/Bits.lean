import Moonglass.Lib.Word
import Mathlib.Data.Nat.Bitwise

/-
  Bits in lists of words. Bit `i` of a list of `w`-bit words is bit `i % w` of word `i / w`. A list
  is determined by its length and its bits, so two lists are compared bit by bit.
-/

namespace Moonglass.Lib

open List Word

variable {w : Nat}

theorem Word.testBit_eq_false (a : Word w) {i : Nat} (hi : w ≤ i) : a.val.testBit i = false :=
  Nat.testBit_lt_two_pow (a.isLt.trans_le (Nat.pow_le_pow_right (by decide) hi))

theorem Word.ext_testBit {a b : Word w} (h : ∀ i < w, a.val.testBit i = b.val.testBit i) :
    a = b := by
  refine Fin.ext (Nat.eq_of_testBit_eq fun i => ?_)
  rcases Nat.lt_or_ge i w with hi | hi
  · exact h i hi
  · rw [a.testBit_eq_false hi, b.testBit_eq_false hi]

/-- Bit `i` of a list of words; there are none past the end. -/
def bitOf (l : List (Word w)) (i : Nat) : Bool := (l.getD (i / w) 0).val.testBit (i % w)

/-- Set bit `i` of a list of words, if there is one. -/
def setBit (l : List (Word w)) (i : Nat) : List (Word w) :=
  l.modify (i / w) fun a => Word.wrap (a.val ||| 1 <<< (i % w))

@[simp] theorem length_setBit (l : List (Word w)) (i : Nat) : (setBit l i).length = l.length := by
  simp [setBit]

section Bits

variable {l l' : List (Word w)} {i j : Nat}

theorem bitOf_eq_false (hi : w * l.length ≤ i) (hw : 0 < w) : bitOf l i = false := by
  have hpast : l.length ≤ i / w := (Nat.le_div_iff_mul_le hw).2 (by rwa [Nat.mul_comm])
  unfold bitOf
  rw [getD_eq_default _ _ hpast]
  exact Nat.zero_testBit _

/-- Lists of one length with the same bits are equal. -/
theorem ext_bitOf (hw : 0 < w) (hlen : l.length = l'.length)
    (h : ∀ i < w * l.length, bitOf l i = bitOf l' i) : l = l' := by
  refine ext_getElem hlen fun k hk hk' => ext_testBit fun i hi => ?_
  have hbit := h (w * k + i) (by
    calc w * k + i < w * k + w := Nat.add_lt_add_left hi _
      _ = w * (k + 1) := rfl
      _ ≤ w * l.length := Nat.mul_le_mul_left _ hk)
  unfold bitOf at hbit
  rwa [Nat.mul_add_div hw, Nat.div_eq_of_lt hi, Nat.add_zero, Nat.mul_add_mod,
    Nat.mod_eq_of_lt hi, getD_eq_getElem _ _ hk, getD_eq_getElem _ _ hk'] at hbit

theorem Word.testBit_wrap_or {a : Word w} {p q : Nat} (hq : q < w) :
    (Word.wrap (a.val ||| 1 <<< p) : Word w).val.testBit q =
      (decide (p = q) || a.val.testBit q) := by
  rw [wrap_val, Nat.testBit_mod_two_pow, Nat.testBit_or, Nat.one_shiftLeft,
    Nat.testBit_two_pow, decide_eq_true hq, Bool.true_and, Bool.or_comm]

theorem bitOf_setBit (hw : 0 < w) (hi : i < w * l.length) :
    bitOf (setBit l i) j = (decide (i = j) || bitOf l j) := by
  have hplace : i / w < l.length := (Nat.div_lt_iff_lt_mul hw).2 (by rwa [Nat.mul_comm])
  have hmod : j % w < w := Nat.mod_lt _ hw
  unfold bitOf setBit
  rw [getD_eq_getElem?_getD, getElem?_modify]
  by_cases hword : i / w = j / w
  · -- The word that changes: bit `j` of it is the one set, or it is as before.
    have hsame : (i = j) ↔ i % w = j % w := by
      constructor
      · exact fun h => by rw [h]
      · intro h
        rw [← Nat.div_add_mod i w, ← Nat.div_add_mod j w, hword, h]
    simp only [if_pos hword]
    rw [← hword, getElem?_eq_getElem hplace, getD_eq_getElem _ _ hplace]
    show (Word.wrap _ : Word w).val.testBit _ = _
    rw [testBit_wrap_or hmod, decide_eq_decide.2 hsame]
  · have hne : i ≠ j := fun h => hword (by rw [h])
    simp only [if_neg hword]
    rw [decide_eq_false hne, Bool.false_or, getD_eq_getElem?_getD]
    simp

/-- Set the bits that `bits` marks, counted from place `start`. -/
def setBits (l : List (Word w)) (start : Nat) (bits : List Bool) : List (Word w) :=
  (bits.zipIdx start).foldl (fun l (bit, i) => if bit then setBit l i else l) l

theorem setBits_cons (start : Nat) (bit : Bool) (bits : List Bool) :
    setBits l start (bit :: bits) =
      setBits (if bit then setBit l start else l) (start + 1) bits := rfl

theorem length_setBits (bits : List Bool) :
    ∀ {l : List (Word w)} {start : Nat}, (setBits l start bits).length = l.length := by
  induction bits with
  | nil => exact rfl
  | cons bit bits ih =>
    intro l start
    rw [setBits_cons, ih]
    split <;> simp

theorem bitOf_setBits (hw : 0 < w) (bits : List Bool) :
    ∀ {l : List (Word w)} {start : Nat}, start + bits.length ≤ w * l.length →
      bitOf (setBits l start bits) j =
        (bitOf l j || (decide (start ≤ j) && bits.getD (j - start) false)) := by
  induction bits with
  | nil =>
    intro l start _
    simp [setBits]
  | cons bit bits ih =>
    intro l start hroom
    rw [length_cons] at hroom
    have hlen : (if bit then setBit l start else l).length = l.length := by split <;> simp
    have hfirst : bitOf (if bit then setBit l start else l) j =
        (bitOf l j || (decide (start = j) && bit)) := by
      cases bit with
      | false => simp
      | true =>
        rw [if_pos rfl, bitOf_setBit hw (by omega), Bool.and_true, Bool.or_comm]
    rw [setBits_cons, ih (by rw [hlen]; omega), hfirst, Bool.or_assoc]
    congr 1
    -- Place `start` is the first bit, the places after it are the rest.
    rcases Nat.lt_trichotomy start j with hlt | rfl | hgt
    · have hnext : j - start = (j - (start + 1)) + 1 := by omega
      rw [decide_eq_false hlt.ne, decide_eq_true (show start + 1 ≤ j from hlt),
        decide_eq_true hlt.le, hnext, getD_cons_succ]
      simp
    · simp
    · rw [decide_eq_false hgt.ne', decide_eq_false (by omega : ¬start + 1 ≤ j),
        decide_eq_false (by omega : ¬start ≤ j)]
      simp

end Bits

end Moonglass.Lib
