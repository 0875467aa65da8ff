import Moonglass.Lib.SlidingWindow

/-
  The tally of a list: what its elements count for, in total. Lists are compared place by place;
  a place past the end counts for nothing.
-/

namespace Moonglass.Lib

open Finset

variable {α β : Type} {f : α → Nat} {g : β → Nat}
variable {a blank : α} {l : List α} {i : Nat} {f' : α → Nat}

def tally (f : α → Nat) (l : List α) : Nat := (l.map f).sum

/-- What the `i`-th place of a list counts for. -/
def tallyAt (f : α → Nat) (l : List α) (i : Nat) : Nat := l[i]?.elim 0 f

@[simp] theorem tally_nil : tally f [] = 0 := rfl

@[simp] theorem tally_cons (a : α) (l : List α) : tally f (a :: l) = f a + tally f l := by
  simp [tally]

@[simp] theorem tally_append (l l' : List α) : tally f (l ++ l') = tally f l + tally f l' := by
  simp [tally]

theorem tally_map (h : β → α) (l : List β) : tally f (l.map h) = tally (fun b => f (h b)) l := by
  simp [tally, Function.comp_def]

theorem tally_filter (p : α → Bool) (l : List α) :
    tally f (l.filter p) = tally (fun a => if p a then f a else 0) l := by
  induction l with
  | nil => rfl
  | cons a l ih => cases hp : p a <;> simp [hp, ih]

theorem le_tally (h : a ∈ l) : f a ≤ tally f l :=
  List.single_le_sum (fun _ _ => Nat.zero_le _) _ (List.mem_map_of_mem h)

theorem tallyAt_of_some (h : l[i]? = some a) : tallyAt f l i = f a := by
  unfold tallyAt
  rw [h]
  rfl

theorem tallyAt_of_le (h : l.length ≤ i) : tallyAt f l i = 0 := by
  unfold tallyAt
  rw [List.getElem?_eq_none h]
  rfl

theorem tally_take (l : List α) (n : Nat) : tally f (l.take n) = ∑ i ∈ range n, tallyAt f l i := by
  induction n with
  | zero => rfl
  | succ n ih =>
    rw [List.take_add_one, tally_append, ih, sum_range_succ]
    congr 1
    unfold tallyAt
    cases l[n]? <;> simp

theorem tally_eq_sum {n : Nat} (h : l.length ≤ n) : tally f l = ∑ i ∈ range n, tallyAt f l i := by
  rw [← tally_take, List.take_of_length_le h]

/-- A list that counts for no more at any place counts for no more in total. -/
theorem tally_le_tally {l' : List β} (h : ∀ i, tallyAt f l i ≤ tallyAt g l' i) :
    tally f l ≤ tally g l' := by
  rw [tally_eq_sum (le_max_left l.length l'.length), tally_eq_sum (le_max_right l.length l'.length)]
  exact sum_le_sum fun i _ => h i

theorem tally_congr (h : ∀ a ∈ l, f a = f' a) :
    tally f l = tally f' l := congrArg List.sum (List.map_congr_left h)

theorem tally_mono (h : ∀ a ∈ l, f a ≤ f' a) :
    tally f l ≤ tally f' l := List.sum_le_sum h

theorem tally_take_add_drop (l : List α) (n : Nat) :
    tally f (l.take n) + tally f (l.drop n) = tally f l := by
  rw [← tally_append, List.take_append_drop]

theorem tallyAt_take (l : List α) (n i : Nat) :
    tallyAt f (l.take n) i = if i < n then tallyAt f l i else 0 := by
  unfold tallyAt
  rw [List.getElem?_take]
  split <;> rfl

theorem tallyAt_drop (l : List α) (n i : Nat) : tallyAt f (l.drop n) i = tallyAt f l (i + n) := by
  unfold tallyAt
  rw [List.getElem?_drop, Nat.add_comm]

theorem tallyAt_shiftWindow {m : Nat} (hblank : f blank = 0) (v : Vector α m) (n i : Nat) :
    tallyAt f (shiftWindow v n fun _ => blank).toList i = tallyAt f v.toList (i + n) := by
  by_cases hi : i < m
  · have hget : (shiftWindow v n fun _ => blank).toList[i]? = some (v[i + n]?.getD blank) := by
      unfold shiftWindow
      simp [hi]
    rw [tallyAt_of_some hget]
    unfold tallyAt
    rw [Vector.getElem?_toList]
    cases v[i + n]? with
    | none => exact hblank
    | some a => rfl
  · rw [tallyAt_of_le (by simp; omega), tallyAt_of_le (by simp; omega)]

theorem tally_filterMap (h : β → Option α) (l : List β) :
    tally f (l.filterMap h) = tally (fun b => (h b).elim 0 f) l := by
  induction l with
  | nil => rfl
  | cons b l ih => cases hb : h b <;> simp [hb, ih]

/-- The tally after one element has changed. -/
theorem tally_modify {h : α → α} (ha : l[i]? = some a) :
    tally f (l.modify i h) + f a = tally f l + f (h a) := by
  induction l generalizing i with
  | nil => cases ha
  | cons b l ih =>
    cases i with
    | zero =>
      obtain rfl := Option.some.inj ha
      show tally f (h b :: l) + f b = _
      rw [tally_cons, tally_cons]
      omega
    | succ i =>
      have := ih ha
      show tally f (b :: l.modify i h) + f a = _
      rw [tally_cons, tally_cons]
      omega

theorem tally_set (a' : α) (ha : l[i]? = some a) :
    tally f (l.set i a') + f a = tally f l + f a' := by
  rw [List.set_eq_modify]
  exact tally_modify ha

/-- Blanking a place takes away what it counts for. -/
theorem tally_set_blank (hblank : f blank = 0) (l : List α) (i : Nat) :
    tally f (l.set i blank) + tallyAt f l i = tally f l := by
  induction l generalizing i with
  | nil => rfl
  | cons a l ih =>
    cases i with
    | zero => simp [tallyAt, hblank, Nat.add_comm]
    | succ i =>
      have := ih i
      simp only [List.set_cons_succ, tally_cons]
      change f a + tally f (l.set i blank) + tallyAt f l i = f a + tally f l
      omega

theorem tallyAt_set_blank (hblank : f blank = 0) (l : List α) (i j : Nat) :
    tallyAt f (l.set i blank) j = if i = j then 0 else tallyAt f l j := by
  unfold tallyAt
  rw [List.getElem?_set]
  by_cases hij : i = j
  · rw [if_pos hij, if_pos hij]
    split
    · exact hblank
    · rfl
  · rw [if_neg hij, if_neg hij]

/-- Where no element counts twice, one value counts once. -/
theorem tally_ite_le [DecidableEq β] (h : α → β) (hl : (l.map h).Nodup) (b : β) (n : Nat) :
    tally (fun a => if h a = b then n else 0) l ≤ n := by
  induction l with
  | nil => exact Nat.zero_le n
  | cons a l ih =>
    rw [List.map_cons, List.nodup_cons] at hl
    rw [tally_cons]
    by_cases ha : h a = b
    · have hrest : tally (fun a => if h a = b then n else 0) l = 0 := by
        refine List.sum_eq_zero fun x hx => ?_
        obtain ⟨a', ha', rfl⟩ := List.mem_map.1 hx
        refine if_neg fun heq => hl.1 ?_
        rw [ha, ← heq]
        exact List.mem_map_of_mem ha'
      rw [if_pos ha, hrest, Nat.add_zero]
    · rw [if_neg ha, Nat.zero_add]
      exact ih hl.2

/-! ## Sets -/

/-- Members of `A` count unless they are excluded, those of `C` count when they are. Excluding more
of them moves the weight by what leaves `A` without being in `C`, and by what enters by `C` without
having been in `A`. -/
theorem sum_excluding {ι : Type} [DecidableEq ι] (w : ι → Nat) (A C excluded added : Finset ι) :
    ∑ v ∈ A \ (excluded ∪ added), w v + ∑ v ∈ C ∩ (excluded ∪ added), w v +
        ∑ v ∈ (A ∩ (added \ excluded)) \ C, w v =
      ∑ v ∈ A \ excluded, w v + ∑ v ∈ C ∩ excluded, w v +
        ∑ v ∈ (C ∩ (added \ excluded)) \ A, w v := by
  have hsum : ∀ S ⊆ A ∪ C, ∑ v ∈ S, w v = ∑ v ∈ A ∪ C, if v ∈ S then w v else 0 := by
    intro S hS
    rw [Finset.sum_ite_mem, Finset.inter_eq_right.2 hS]
  have hA : ∀ S : Finset ι, A \ S ⊆ A ∪ C :=
    fun S => Finset.sdiff_subset.trans Finset.subset_union_left
  have hC : ∀ S : Finset ι, C ∩ S ⊆ A ∪ C :=
    fun S => Finset.inter_subset_left.trans Finset.subset_union_right
  rw [hsum _ (hA _), hsum _ (hC _), hsum _ (hA _), hsum _ (hC _),
    hsum _ (Finset.sdiff_subset.trans (Finset.inter_subset_left.trans Finset.subset_union_left)),
    hsum _ (Finset.sdiff_subset.trans (hC _)), ← Finset.sum_add_distrib, ← Finset.sum_add_distrib,
    ← Finset.sum_add_distrib, ← Finset.sum_add_distrib]
  refine Finset.sum_congr rfl fun v _ => ?_
  -- one member at a time: is it in `A`, in `C`, excluded, added?
  by_cases hvA : v ∈ A <;> by_cases hvC : v ∈ C <;> by_cases hvE : v ∈ excluded <;>
    by_cases hvD : v ∈ added <;> simp [hvA, hvC, hvE, hvD]

end Moonglass.Lib
