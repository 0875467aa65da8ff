import Mathlib.Data.List.Nodup

/-
  The elements of a list that a mask selects by their places. The mask is read from a running
  offset, so that lists joined end to end are selected by one mask.
-/

namespace Moonglass.Lib

open List

variable {α : Type} {mask : Nat → Bool}

/-- The elements whose place, counted from `k`, is set in the mask. -/
def masked (mask : Nat → Bool) : Nat → List α → List α
  | _, [] => []
  | k, a :: l => if mask k then a :: masked mask (k + 1) l else masked mask (k + 1) l

@[simp] theorem masked_nil (k : Nat) : masked mask k ([] : List α) = [] := rfl

theorem masked_cons (k : Nat) (a : α) (l : List α) : masked mask k (a :: l) =
    if mask k then a :: masked mask (k + 1) l else masked mask (k + 1) l := rfl

theorem masked_append (k : Nat) (l l' : List α) :
    masked mask k (l ++ l') = masked mask k l ++ masked mask (k + l.length) l' := by
  induction l generalizing k with
  | nil => rfl
  | cons a l ih =>
    have hlength : k + (a :: l).length = k + 1 + l.length := by
      rw [length_cons]
      omega
    rw [cons_append, masked_cons, masked_cons, ih, hlength]
    split <;> rfl

theorem masked_sublist (k : Nat) (l : List α) : (masked mask k l).Sublist l := by
  induction l generalizing k with
  | nil => exact .slnil
  | cons a l ih =>
    rw [masked_cons]
    split
    · exact (ih (k + 1)).cons_cons a
    · exact (ih (k + 1)).cons a

/-- As many elements are selected as places are set. -/
theorem length_masked (k : Nat) (l : List α) :
    (masked mask k l).length = ((List.range' k l.length).countP fun i => mask i) := by
  induction l generalizing k with
  | nil => rfl
  | cons a l ih =>
    rw [masked_cons, length_cons, range'_succ, countP_cons]
    cases hmask : mask k with
    | true =>
      rw [if_pos rfl, if_pos rfl, length_cons, ih]
    | false =>
      rw [if_neg Bool.false_ne_true, ih]
      rfl

/-- The set bits of a list, counted by their places. -/
theorem countP_range_getD (bits : List Bool) :
    ((List.range' 0 bits.length).countP fun i => bits[i]?.getD false) = bits.count true := by
  have hbits : (List.range' 0 bits.length).map (fun i => bits[i]?.getD false) = bits := by
    refine ext_getElem (by simp) fun i hi hi' => ?_
    simp [hi']
  calc _ = ((List.range' 0 bits.length).map fun i => bits[i]?.getD false).countP (· == true) := by
        rw [countP_map]
        exact countP_congr fun i _ => by simp
    _ = bits.count true := by rw [hbits]; rfl

/-- Where no element stands twice, the bit of its place decides whether it is selected. -/
theorem mem_masked_iff {l : List α} (hl : l.Nodup) (k : Nat) {i : Nat} {a : α}
    (ha : l[i]? = some a) : a ∈ masked mask k l ↔ mask (k + i) = true := by
  induction l generalizing k i with
  | nil => cases ha
  | cons b l ih =>
    obtain ⟨hb, hl⟩ := nodup_cons.1 hl
    have hrest : b ∉ masked mask (k + 1) l := fun h => hb ((masked_sublist _ _).subset h)
    rw [masked_cons]
    cases i with
    | zero =>
      obtain rfl := Option.some.inj ha
      cases hmask : mask k with
      | true => simp
      | false => simp [hrest]
    | succ i =>
      have hne : a ≠ b := fun h => hb (h ▸ mem_of_getElem? ha)
      have hplace : k + (i + 1) = k + 1 + i := by omega
      rw [hplace, ← ih hl (k + 1) ha]
      split
      · rw [mem_cons, or_iff_right hne]
      · rfl

/-- A selection written with the places at hand. -/
theorem filterMap_zipIdx_eq_masked (mask : Nat → Bool) (k : Nat) (l : List α) :
    (l.zipIdx.filterMap fun x => if mask (k + x.2) then some x.1 else none) = masked mask k l := by
  have hshift : ∀ (l : List α) (m : Nat), ((l.zipIdx m).filterMap fun x =>
      if mask (k + x.2) then some x.1 else none) = masked mask (k + m) l := by
    intro l
    induction l with
    | nil => exact fun _ => rfl
    | cons a l ih =>
      intro m
      rw [zipIdx_cons, filterMap_cons, ih, masked_cons]
      dsimp only
      cases mask (k + m) <;> rfl
  exact hshift l 0

end Moonglass.Lib
