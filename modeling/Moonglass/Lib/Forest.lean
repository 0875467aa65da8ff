import Mathlib.Algebra.Order.BigOperators.Group.Finset
import Mathlib.Algebra.GroupWithZero.Nat

/-
  Forests given by parent links. A rank that drops at every link excludes cycles, so ancestry is a
  partial order, the ancestors of a point form a chain, and stake attached to points splits, at
  every point, into the stake on the point itself and the stake below its children.
-/

namespace Moonglass.Lib

/-- `Ancestor parent x n`: `x` is `n` or reached from `n` by parent links. -/
def Ancestor {ι : Type} (parent : ι → Option ι) (x n : ι) : Prop :=
  Relation.ReflTransGen (fun a b => parent b = some a) x n

/-- Points with at most one parent each, of smaller rank. -/
structure Forest (ι : Type) where
  parent : ι → Option ι
  rank : ι → Nat
  rank_lt : ∀ {x y : ι}, parent y = some x → rank x < rank y

namespace Forest

variable {ι : Type} (F : Forest ι)

/-- `F.Le x n`: `x` is `n` or one of its ancestors. -/
def Le (x n : ι) : Prop := Ancestor F.parent x n

variable {F} {x y z n p : ι}

theorem Le.refl (x : ι) : F.Le x x := Relation.ReflTransGen.refl

theorem Le.trans (h : F.Le x y) (h' : F.Le y z) : F.Le x z := Relation.ReflTransGen.trans h h'

theorem le_of_parent (h : F.parent y = some x) : F.Le x y := Relation.ReflTransGen.single h

theorem Le.rank_le (h : F.Le x n) : F.rank x ≤ F.rank n := by
  induction h with
  | refl => exact Nat.le_refl _
  | tail _ hp ih => exact Nat.le_trans ih (Nat.le_of_lt (F.rank_lt hp))

/-- An ancestor is the point itself or an ancestor of the parent. -/
theorem le_iff_parent : F.Le x n ↔ x = n ∨ ∃ p, F.parent n = some p ∧ F.Le x p := by
  constructor
  · intro h
    rcases Relation.ReflTransGen.cases_tail h with h | ⟨p, hxp, hp⟩
    · exact .inl h.symm
    · exact .inr ⟨p, hp, hxp⟩
  · rintro (rfl | ⟨p, hp, hxp⟩)
    · exact Le.refl _
    · exact hxp.trans (le_of_parent hp)

/-- A point is above `n` when it is `n` or one of its children is above `n`. -/
theorem le_iff_child : F.Le x n ↔ x = n ∨ ∃ y, F.parent y = some x ∧ F.Le y n := by
  constructor
  · intro h
    rcases Relation.ReflTransGen.cases_head h with h | ⟨y, hy, hyn⟩
    · exact .inl h
    · exact .inr ⟨y, hy, hyn⟩
  · rintro (rfl | ⟨y, hy, hyn⟩)
    · exact Le.refl _
    · exact (le_of_parent hy).trans hyn

theorem Le.eq_of_rank_le (h : F.Le x n) (hr : F.rank n ≤ F.rank x) : x = n := by
  rcases le_iff_parent.1 h with rfl | ⟨p, hp, hxp⟩
  · rfl
  · have h1 := hxp.rank_le
    have h2 := F.rank_lt hp
    omega

/-- The ancestors of a point form a chain. -/
theorem Le.comparable (hx : F.Le x n) (hy : F.Le y n) : F.Le x y ∨ F.Le y x := by
  induction hx with
  | refl => exact .inr hy
  | @tail a b hxa hab ih =>
    rcases le_iff_parent.1 hy with rfl | ⟨p, hp, hyp⟩
    · exact .inl (hxa.trans (le_of_parent hab))
    · have hpa : p = a := by rw [hab] at hp; exact (Option.some.inj hp).symm
      exact ih (hpa ▸ hyp)

/-- At most one child of a point is above `n`. -/
theorem child_unique {y' : ι} (hy : F.parent y = some x) (hy' : F.parent y' = some x)
    (hn : F.Le y n) (hn' : F.Le y' n) : y = y' := by
  have aux : ∀ {a b : ι}, F.parent a = some x → F.parent b = some x → F.Le a b → a = b := by
    intro a b ha hb hab
    rcases le_iff_parent.1 hab with h | ⟨p, hp, hap⟩
    · exact h
    · have hpx : p = x := by rw [hb] at hp; exact (Option.some.inj hp).symm
      have h1 := (hpx ▸ hap).rank_le
      have h2 := F.rank_lt ha
      omega
  rcases hn.comparable hn' with h | h
  · exact aux hy hy' h
  · exact (aux hy' hy h).symm

/-! ## The path to a point -/

/-- `F.IsPath l n`: `l` starts at a point without parent, follows child links and ends at `n`. -/
inductive IsPath (F : Forest ι) : List ι → ι → Prop
  | root {n : ι} : F.parent n = none → IsPath F [n] n
  | step {l : List ι} {p n : ι} : IsPath F l p → F.parent n = some p → IsPath F (l ++ [n]) n

theorem exists_path (F : Forest ι) (n : ι) : ∃ l, F.IsPath l n := by
  induction h : F.rank n using Nat.strongRecOn generalizing n with
  | _ r ih =>
    cases hp : F.parent n with
    | none => exact ⟨[n], .root hp⟩
    | some p =>
      obtain ⟨l, hl⟩ := ih (F.rank p) (h ▸ F.rank_lt hp) p rfl
      exact ⟨l ++ [n], .step hl hp⟩

theorem IsPath.unique {l l' : List ι} (h : F.IsPath l n) (h' : F.IsPath l' n) : l = l' := by
  induction h generalizing l' with
  | root hn =>
    cases h' with
    | root _ => rfl
    | step _ hp => rw [hn] at hp; cases hp
  | step _ hp ih =>
    cases h' with
    | root hn => rw [hn] at hp; cases hp
    | step hl' hp' =>
      obtain rfl : _ = _ := Option.some.inj (hp.symm.trans hp')
      rw [ih hl']

/-- The path to a point consists of its ancestors. -/
theorem IsPath.mem_iff {l : List ι} (h : F.IsPath l n) : x ∈ l ↔ F.Le x n := by
  induction h with
  | root hn =>
    rw [List.mem_singleton, le_iff_parent, hn]
    simp
  | step _ hp ih =>
    rw [List.mem_append, List.mem_singleton, ih, or_comm]
    constructor
    · rintro (rfl | hx)
      · exact Le.refl _
      · exact hx.trans (le_of_parent hp)
    · intro hx
      rcases le_iff_parent.1 hx with h | ⟨q, hq, hxq⟩
      · exact .inl h
      · rw [hp] at hq
        exact .inr (Option.some.inj hq ▸ hxq)

/-! ## Bounds on walks -/

/-- The points of `S` whose rank is at most that of `x`. -/
def below (F : Forest ι) (S : Finset ι) (x : ι) : Nat := (S.filter fun y => F.rank y ≤ F.rank x).card

/-- The points of `S` whose rank is at least that of `x`. -/
def above (F : Forest ι) (S : Finset ι) (x : ι) : Nat := (S.filter fun y => F.rank x ≤ F.rank y).card

theorem below_le_card (F : Forest ι) (S : Finset ι) (x : ι) : F.below S x ≤ S.card :=
  Finset.card_filter_le _ _

theorem above_le_card (F : Forest ι) (S : Finset ι) (x : ι) : F.above S x ≤ S.card :=
  Finset.card_filter_le _ _

/-- A walk to a point of smaller rank leaves at least one point of `S` behind. -/
theorem below_lt {S : Finset ι} (hy : y ∈ S) (h : F.rank x < F.rank y) :
    F.below S x < F.below S y := by
  refine Finset.card_lt_card (Finset.ssubset_iff_of_subset ?_ |>.2 ⟨y, ?_, ?_⟩)
  · intro z hz
    rw [Finset.mem_filter] at hz ⊢
    exact ⟨hz.1, by omega⟩
  · rw [Finset.mem_filter]
    exact ⟨hy, Nat.le_refl _⟩
  · rw [Finset.mem_filter]
    intro hz
    omega

/-- A walk to a point of larger rank leaves at least one point of `S` behind. -/
theorem above_lt {S : Finset ι} (hx : x ∈ S) (h : F.rank x < F.rank y) :
    F.above S y < F.above S x := by
  refine Finset.card_lt_card (Finset.ssubset_iff_of_subset ?_ |>.2 ⟨x, ?_, ?_⟩)
  · intro z hz
    rw [Finset.mem_filter] at hz ⊢
    exact ⟨hz.1, by omega⟩
  · rw [Finset.mem_filter]
    exact ⟨hx, Nat.le_refl _⟩
  · rw [Finset.mem_filter]
    intro hz
    omega

open Classical in
/-- The points of `S` at or below `x`. -/
noncomputable def subtree (F : Forest ι) (S : Finset ι) (x : ι) : Nat := (S.filter (F.Le x)).card

open Classical in
theorem subtree_le_card (F : Forest ι) (S : Finset ι) (x : ι) : F.subtree S x ≤ S.card :=
  Finset.card_filter_le _ _

/-- The subtrees of the children of a point do not overlap, and leave out the point. -/
theorem sum_subtree_lt {S : Finset ι} {children : List ι} (hx : x ∈ S) (hnodup : children.Nodup)
    (hparent : ∀ c ∈ children, F.parent c = some x) :
    (children.map (F.subtree S)).sum < F.subtree S x := by
  classical
  have hdisjoint : Set.PairwiseDisjoint (children.toFinset : Set ι) fun c => S.filter (F.Le c) := by
    intro c hc c' hc' hne
    rw [Function.onFun, Finset.disjoint_left]
    intro z hz hz'
    refine hne (child_unique (hparent c ?_) (hparent c' ?_) (Finset.mem_filter.1 hz).2
      (Finset.mem_filter.1 hz').2)
    · exact List.mem_toFinset.1 hc
    · exact List.mem_toFinset.1 hc'
  have hsum : (children.map (F.subtree S)).sum =
      (children.toFinset.biUnion fun c => S.filter (F.Le c)).card := by
    rw [Finset.card_biUnion hdisjoint, ← List.sum_toFinset _ hnodup]
    rfl
  have hself : x ∈ S.filter (F.Le x) := Finset.mem_filter.2 ⟨hx, Le.refl x⟩
  have hsubset : (children.toFinset.biUnion fun c => S.filter (F.Le c)) ⊆
      (S.filter (F.Le x)).erase x := by
    intro z hz
    obtain ⟨c, hc, hz⟩ := Finset.mem_biUnion.1 hz
    obtain ⟨hzS, hcz⟩ := Finset.mem_filter.1 hz
    have hcx := hparent c (List.mem_toFinset.1 hc)
    refine Finset.mem_erase.2 ⟨?_, Finset.mem_filter.2 ⟨hzS, (le_of_parent hcx).trans hcz⟩⟩
    rintro rfl
    have h1 := hcz.rank_le
    have h2 := F.rank_lt hcx
    omega
  calc (children.map (F.subtree S)).sum
      ≤ ((S.filter (F.Le x)).erase x).card := hsum ▸ Finset.card_le_card hsubset
    _ < (S.filter (F.Le x)).card := Finset.card_erase_lt_of_mem hself
    _ = F.subtree S x := rfl

/-! ## Stake -/

/-- Values picked from a list sum to at most the sum over the list. -/
theorem sum_filterMap_le {α β : Type} {f : α → Option β} {g : β → Nat} {h : α → Nat} {l : List α}
    (hle : ∀ a ∈ l, ∀ b, f a = some b → g b ≤ h a) :
    ((l.filterMap f).map g).sum ≤ (l.map h).sum := by
  induction l with
  | nil => exact Nat.le_refl _
  | cons a l ih =>
    have hrest := ih fun x hx => hle x (List.mem_cons_of_mem _ hx)
    cases ha : f a with
    | none =>
      rw [List.filterMap_cons_none ha, List.map_cons, List.sum_cons]
      omega
    | some b =>
      have := hle a List.mem_cons_self b ha
      rw [List.filterMap_cons_some ha, List.map_cons, List.map_cons, List.sum_cons, List.sum_cons]
      omega

section Stake

variable {υ : Type} (F) (point : υ → ι) (weight : υ → Nat)

open Classical in
/-- The weight of the votes that lie at or below `x`. -/
noncomputable def stake (votes : List υ) (x : ι) : Nat :=
  (votes.map fun v => if F.Le x (point v) then weight v else 0).sum

open Classical in
/-- The weight of the votes that lie exactly at `x`. -/
noncomputable def stakeAt (point : υ → ι) (weight : υ → Nat) (votes : List υ) (x : ι) : Nat :=
  (votes.map fun v => if point v = x then weight v else 0).sum

variable {F point weight} {votes : List υ}

theorem stake_cons (v : υ) (votes : List υ) (x : ι) [Decidable (F.Le x (point v))] :
    F.stake point weight (v :: votes) x =
      (if F.Le x (point v) then weight v else 0) + F.stake point weight votes x := by
  simp only [stake, List.map_cons, List.sum_cons]
  congr

theorem stake_anti (h : F.Le x y) : F.stake point weight votes y ≤ F.stake point weight votes x := by
  classical
  induction votes with
  | nil => exact Nat.le_refl _
  | cons v votes ih =>
    rw [stake_cons, stake_cons]
    by_cases hy : F.Le y (point v)
    · rw [if_pos hy, if_pos (h.trans hy)]
      omega
    · rw [if_neg hy]
      omega

theorem stake_le_sum (x : ι) : F.stake point weight votes x ≤ (votes.map weight).sum := by
  classical
  induction votes with
  | nil => exact Nat.le_refl _
  | cons v votes ih =>
    rw [stake_cons, List.map_cons, List.sum_cons]
    split <;> omega

/-- Votes below two incomparable points are different votes. -/
theorem stake_add_le (h : ∀ n, F.Le x n → F.Le y n → False) :
    F.stake point weight votes x + F.stake point weight votes y ≤ (votes.map weight).sum := by
  classical
  induction votes with
  | nil => exact Nat.le_refl _
  | cons v votes ih =>
    rw [stake_cons, stake_cons, List.map_cons, List.sum_cons]
    by_cases hx : F.Le x (point v)
    · have hy : ¬F.Le y (point v) := fun hy => h _ hx hy
      rw [if_pos hx, if_neg hy]
      omega
    · rw [if_neg hx]
      split <;> omega

/-- One vote is counted at a point when it lies there, or below exactly one child. -/
theorem vote_split [DecidableEq ι] [∀ a b, Decidable (F.Le a b)] (children : Finset ι)
    (hmem : ∀ y, F.Le y n → (y ∈ children ↔ F.parent y = some x)) (w : Nat) :
    (if F.Le x n then w else 0) =
      (if n = x then w else 0) + ∑ y ∈ children, if F.Le y n then w else 0 := by
  by_cases hxn : ∃ y, F.parent y = some x ∧ F.Le y n
  · obtain ⟨y, hy, hyn⟩ := hxn
    have hne : n ≠ x := by
      rintro rfl
      have h1 := hyn.rank_le
      have h2 := F.rank_lt hy
      omega
    -- `y` is the only child above `n`, so the sum has one summand
    have hsum : (∑ z ∈ children, if F.Le z n then w else 0) = if F.Le y n then w else 0 := by
      apply Finset.sum_eq_single_of_mem y ((hmem y hyn).2 hy)
      intro z hz hzy
      rw [if_neg]
      intro hzn
      exact hzy (child_unique ((hmem z hzn).1 hz) hy hzn hyn)
    rw [if_pos (le_iff_child.2 (.inr ⟨y, hy, hyn⟩)), if_neg hne, hsum, if_pos hyn, Nat.zero_add]
  · have hsum : (∑ z ∈ children, if F.Le z n then w else 0) = 0 := by
      apply Finset.sum_eq_zero
      intro z hz
      rw [if_neg]
      intro hzn
      exact hxn ⟨z, (hmem z hzn).1 hz, hzn⟩
    rw [hsum, Nat.add_zero]
    by_cases hnx : n = x
    · rw [if_pos hnx, if_pos (hnx ▸ Le.refl n)]
    · rw [if_neg hnx, if_neg]
      intro h
      rcases le_iff_child.1 h with rfl | hc
      · exact hnx rfl
      · exact hxn hc

/-- The stake at or below a point is the stake on it plus the stakes of its children. -/
theorem stake_split (children : Finset ι)
    (hmem : ∀ v ∈ votes, ∀ y, F.Le y (point v) → (y ∈ children ↔ F.parent y = some x)) :
    F.stake point weight votes x =
      stakeAt point weight votes x + ∑ y ∈ children, F.stake point weight votes y := by
  classical
  induction votes with
  | nil => simp [stake, stakeAt]
  | cons v votes ih =>
    have hsplit := vote_split children (hmem v List.mem_cons_self) (weight v)
    have hrest := ih fun u hu => hmem u (List.mem_cons_of_mem _ hu)
    have hchildren : ∑ y ∈ children, F.stake point weight (v :: votes) y =
        (∑ y ∈ children, if F.Le y (point v) then weight v else 0) +
          ∑ y ∈ children, F.stake point weight votes y := by
      rw [← Finset.sum_add_distrib]
      exact Finset.sum_congr rfl fun y _ => stake_cons v votes y
    have hat : stakeAt point weight (v :: votes) x =
        (if point v = x then weight v else 0) + stakeAt point weight votes x := by
      simp only [stakeAt, List.map_cons, List.sum_cons]
    rw [stake_cons, hsplit, hrest, hchildren, hat]
    omega

end Stake

end Forest

end Moonglass.Lib
