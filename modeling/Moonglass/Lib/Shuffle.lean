import Mathlib.Data.List.FinRange
import Mathlib.Data.List.Pairwise

/-
  The swap-or-not shuffle. A round pairs every index with a partner, its mirror image at the pivot,
  and swaps the two or not; both partners ask for the same bit, so a round undoes itself. Rounds
  compose to a permutation. The second part cuts the positions of a list into slices of nearly
  equal length, which together are all positions in order.
-/

namespace Moonglass.Lib

open List

/-! ## Rounds -/

/-- The mirror image of `x` at the pivot, modulo `n`. -/
def partner (n pivot x : Nat) : Nat := if x ≤ pivot then pivot - x else n - (x - pivot)

/-- One round: `x` is swapped with its partner when the bit of the larger of the two says so. -/
def swapOrNot (n pivot : Nat) (bit : Nat → Bool) (x : Nat) : Nat :=
  if bit (max x (partner n pivot x)) then partner n pivot x else x

section Round

variable {n pivot x : Nat} {bit : Nat → Bool}

theorem partner_lt (hpivot : pivot < n) : partner n pivot x < n := by
  unfold partner
  split <;> omega

theorem partner_partner (hpivot : pivot < n) (hx : x < n) :
    partner n pivot (partner n pivot x) = x := by
  unfold partner
  by_cases hle : x ≤ pivot
  · rw [if_pos hle, if_pos (by omega)]
    omega
  · rw [if_neg hle, if_neg (by omega)]
    omega

theorem swapOrNot_lt (hpivot : pivot < n) (hx : x < n) : swapOrNot n pivot bit x < n := by
  unfold swapOrNot
  split
  · exact partner_lt hpivot
  · exact hx

/-- Both partners ask for the same bit, so a round undoes itself. -/
theorem swapOrNot_swapOrNot (hpivot : pivot < n) (hx : x < n) :
    swapOrNot n pivot bit (swapOrNot n pivot bit x) = x := by
  have hback := partner_partner hpivot hx
  cases hbit : bit (max x (partner n pivot x)) with
  | false =>
    have hstay : swapOrNot n pivot bit x = x := by
      unfold swapOrNot
      rw [hbit]
      rfl
    rw [hstay, hstay]
  | true =>
    have hswap : swapOrNot n pivot bit x = partner n pivot x := by
      unfold swapOrNot
      rw [hbit]
      rfl
    rw [hswap]
    unfold swapOrNot
    rw [hback, max_comm, hbit]
    rfl

/-- A round as a permutation. -/
def roundPerm (bit : Nat → Bool) (hpivot : pivot < n) : Equiv.Perm (Fin n) :=
  Function.Involutive.toPerm (fun x => ⟨swapOrNot n pivot bit x.val, swapOrNot_lt hpivot x.isLt⟩)
    fun x => Fin.ext (swapOrNot_swapOrNot hpivot x.isLt)

end Round

/-- The rounds of a shuffle, each with its pivot and its bits, applied in order. -/
def shuffleRounds (n : Nat) (rounds : List (Nat × (Nat → Bool))) (x : Nat) : Nat :=
  rounds.foldl (fun x round => swapOrNot n round.1 round.2 x) x

/-- A shuffle is a permutation. -/
theorem exists_shufflePerm {n : Nat} {rounds : List (Nat × (Nat → Bool))}
    (hpivots : ∀ round ∈ rounds, round.1 < n) :
    ∃ σ : Equiv.Perm (Fin n), ∀ x : Fin n, shuffleRounds n rounds x.val = (σ x).val := by
  induction rounds with
  | nil => exact ⟨Equiv.refl _, fun _ => rfl⟩
  | cons round rounds ih =>
    obtain ⟨σ, hσ⟩ := ih fun r hr => hpivots r (.tail _ hr)
    let first := roundPerm round.2 (hpivots round mem_cons_self)
    exact ⟨first.trans σ, fun x => hσ (first x)⟩

/-- Reading a list in a shuffled order gives a permutation of it. -/
theorem map_getElem_perm {α : Type} {l : List α} (σ : Equiv.Perm (Fin l.length)) (g : Nat → α)
    (hg : ∀ i : Fin l.length, g i.val = l[σ i]) : ((List.range l.length).map g).Perm l := by
  have hread : (List.range l.length).map g = List.ofFn ((fun i : Fin l.length => l[i]) ∘ σ) := by
    apply ext_getElem
    · simp
    · intro i hi _
      rw [length_map, length_range] at hi
      simpa using hg ⟨i, hi⟩
  have hall : List.ofFn (fun i : Fin l.length => l[i]) = l := ofFn_getElem
  rw [hread]
  exact (σ.ofFn_comp_perm _).trans (.of_eq hall)

/-! ## Slices -/

/-- The positions of slice `k` of `count` slices of `total` positions. -/
def slice (total count k : Nat) : List Nat :=
  List.range' (total * k / count) (total * (k + 1) / count - total * k / count)

theorem lt_of_mem_slice {total count k i : Nat} (hk : k < count) (hi : i ∈ slice total count k) :
    i < total := by
  have hend : total * (k + 1) / count ≤ total :=
    Nat.div_le_of_le_mul (by rw [Nat.mul_comm count]; exact Nat.mul_le_mul_left _ hk)
  have hmem := mem_range'_1.1 hi
  omega

/-- The first `k` slices are the positions in front of the next one. -/
theorem flatMap_slice (total count k : Nat) :
    (List.range k).flatMap (slice total count) = List.range (total * k / count) := by
  induction k with
  | zero => simp
  | succ k ih =>
    have hle : total * k / count ≤ total * (k + 1) / count :=
      Nat.div_le_div_right (Nat.mul_le_mul_left _ (Nat.le_succ k))
    have hjoin : List.range' 0 (total * k / count) ++ slice total count k =
        List.range' 0 (total * k / count + (total * (k + 1) / count - total * k / count)) := by
      simpa [slice] using
        range'_append_1 (s := 0) (m := total * k / count)
          (n := total * (k + 1) / count - total * k / count)
    rw [range_succ, flatMap_append, ih, flatMap_singleton, range_eq_range',
      hjoin, Nat.add_sub_cancel' hle, ← range_eq_range']

/-- Counting through a grid row by row is counting through its cells. -/
theorem flatMap_grid (rows cols : Nat) :
    ((List.range rows).flatMap fun r => (List.range cols).map fun c => r * cols + c) =
      List.range (rows * cols) := by
  induction rows with
  | zero => simp
  | succ rows ih =>
    rw [range_succ, flatMap_append, ih, flatMap_singleton, Nat.succ_mul,
      range_add]

theorem nodup_slice (total count k : Nat) : (slice total count k).Nodup := nodup_range'

/-- Two slices share no position. -/
theorem disjoint_slice {total count i j : Nat} (hi : i < count) (hj : j < count) (hne : i ≠ j) :
    (slice total count i).Disjoint (slice total count j) := by
  have hall : ((List.range count).flatMap (slice total count)).Nodup := by
    rw [flatMap_slice]
    exact nodup_range
  have hpairs := (nodup_flatMap.1 hall).2
  have hsymm : Std.Symm (Function.onFun List.Disjoint (slice total count)) :=
    ⟨fun _ _ h _ ha ha' => h ha' ha⟩
  exact hpairs.forall (mem_range.2 hi) (mem_range.2 hj) hne

end Moonglass.Lib
