import Moonglass.ForkChoice.Head
import Moonglass.ForkChoice.Tree

/-
  The filtered block tree. A block is viable when some leaf below it is, and the filter returns
  exactly the viable blocks at or below the justified root. It returns when every leaf it meets can
  be judged, and never runs on forever; its result does not depend on the order of the children.
-/

namespace Moonglass

open Lib List HashMap

variable [Preset]
variable {r c x : Root} {roots : List Root} {acc mid : HashMap Root BeaconBlock}

namespace Store

/-- A block tree whose root has no stored parent, so that parent roots are its only links. -/
structure RootedTree (s : Store) (anchor : Root) : Prop extends BlockTree s anchor where
  anchor_parent : ∀ {b}, s.blocks.lookup anchor = some b → b.parentRoot ∉ s.blocks

/-- No stored block names `r` as its parent. -/
def IsLeaf (s : Store) (r : Root) : Prop := ∀ c b, s.blocks.lookup c = some b → b.parentRoot ≠ r

variable {s : Store} {anchor : Root} {o : Orders}

/-- Some leaf at or below the block is viable for the head. -/
def Viable (t : BlockTree s anchor) (r : Root) : Prop :=
  ∃ l, t.blockForest.Le r l ∧ s.IsLeaf l ∧ s.leafIsViable l = .ok true

/-- Every leaf at or below the block can be judged. -/
def LeavesJudged (t : BlockTree s anchor) (r : Root) : Prop :=
  ∀ l, t.blockForest.Le r l → s.IsLeaf l → ∃ viable, s.leafIsViable l = .ok viable

/-! ## Children -/

theorem mem_childRoots :
    c ∈ s.childRoots o r ↔ ∃ b, s.blocks.lookup c = some b ∧ b.parentRoot = r := by
  rw [childRoots, mem_filterMap]
  constructor
  · rintro ⟨⟨c', b⟩, hmem, h⟩
    dsimp only at h
    split at h
    · rename_i hparent
      cases h
      exact ⟨b, (o.blocks.mem_entries _ _ _).1 hmem, hparent⟩
    · cases h
  · rintro ⟨b, hb, rfl⟩
    exact ⟨(c, b), (o.blocks.mem_entries _ _ _).2 hb, if_pos rfl⟩

theorem childRoots_eq_nil : s.childRoots o r = [] ↔ s.IsLeaf r := by
  rw [eq_nil_iff_forall_not_mem]
  constructor
  · intro h c b hb hparent
    exact h c (mem_childRoots.2 ⟨b, hb, hparent⟩)
  · intro h c hc
    obtain ⟨b, hb, hparent⟩ := mem_childRoots.1 hc
    exact h c b hb hparent

namespace RootedTree

theorem blockParent_iff (t : RootedTree s anchor) (hr : r ∈ s.blocks) :
    s.blockParent anchor c = some r ↔ ∃ b, s.blocks.lookup c = some b ∧ b.parentRoot = r := by
  rw [blockParent_eq_some]
  constructor
  · rintro ⟨-, b, hb, hparent, -⟩
    exact ⟨b, hb, hparent⟩
  · rintro ⟨b, hb, rfl⟩
    refine ⟨?_, b, hb, rfl, hr⟩
    rintro rfl
    exact t.anchor_parent hb hr

/-- The children the filter walks to are the children in the tree. -/
theorem mem_childRoots_iff (t : RootedTree s anchor) (hr : r ∈ s.blocks) :
    c ∈ s.childRoots o r ↔ t.blockForest.parent c = some r :=
  mem_childRoots.trans (t.blockParent_iff hr).symm

end RootedTree

theorem BlockTree.mem_of_blockParent (h : s.blockParent anchor c = some r) :
    c ∈ s.blocks ∧ r ∈ s.blocks := by
  obtain ⟨-, b, hb, -, hr⟩ := blockParent_eq_some.1 h
  exact ⟨mem_of_lookup hb, hr⟩

variable {t : BlockTree s anchor}

/-- A leaf has nothing below it. -/
theorem IsLeaf.eq_of_le (hleaf : s.IsLeaf r) (h : t.blockForest.Le r x) : x = r := by
  rcases Forest.le_iff_child.1 h with rfl | ⟨y, hy, -⟩
  · rfl
  · obtain ⟨-, b, hb, hparent, -⟩ := blockParent_eq_some.1 hy
    exact absurd hparent (hleaf y b hb)

/-! ## Viability -/

theorem viable_leaf (hleaf : s.IsLeaf r) : Viable t r ↔ s.leafIsViable r = .ok true := by
  constructor
  · rintro ⟨l, hle, -, hviable⟩
    rwa [hleaf.eq_of_le hle] at hviable
  · intro h
    exact ⟨r, Forest.Le.refl r, hleaf, h⟩

/-- An inner block is viable when one of its children is. -/
theorem viable_iff_child (hinner : ¬s.IsLeaf r) :
    Viable t r ↔ ∃ c, t.blockForest.parent c = some r ∧ Viable t c := by
  constructor
  · rintro ⟨l, hle, hleaf, hviable⟩
    rcases Forest.le_iff_child.1 hle with rfl | ⟨c, hc, hcl⟩
    · exact absurd hleaf hinner
    · exact ⟨c, hc, l, hcl, hleaf, hviable⟩
  · rintro ⟨c, hc, l, hle, hleaf, hviable⟩
    exact ⟨l, (Forest.le_of_parent hc).trans hle, hleaf, hviable⟩

theorem Viable.of_le (h : Viable t x) (hle : t.blockForest.Le r x) : Viable t r := by
  obtain ⟨l, hl, hleaf, hviable⟩ := h
  exact ⟨l, hle.trans hl, hleaf, hviable⟩

theorem LeavesJudged.of_le (h : LeavesJudged t r) (hle : t.blockForest.Le r x) : LeavesJudged t x :=
  fun l hl => h l (hle.trans hl)

/-! ## The filter -/

section Filter

open Classical

variable {t : BlockTree s anchor}

/-- `out` is `acc` with the viable blocks below one of `roots` written over it. -/
def FilteredInto (t : BlockTree s anchor) (roots : List Root) (acc out : HashMap Root BeaconBlock) :
    Prop :=
  ∀ x, out.lookup x = if (∃ r ∈ roots, t.blockForest.Le r x) ∧ Viable t x then s.blocks.lookup x
    else acc.lookup x

theorem filteredInto_nil (acc : HashMap Root BeaconBlock) : FilteredInto t [] acc acc := by
  intro x
  rw [if_neg]
  rintro ⟨⟨r, hr, -⟩, -⟩
  cases hr

theorem FilteredInto.cons {out : HashMap Root BeaconBlock} (h : FilteredInto t [r] acc mid)
    (h' : FilteredInto t roots mid out) : FilteredInto t (r :: roots) acc out := by
  intro x
  rw [h' x, h x]
  by_cases hx : Viable t x
  · by_cases hrest : ∃ q ∈ roots, t.blockForest.Le q x
    · have hcons : ∃ q ∈ r :: roots, t.blockForest.Le q x := by
        obtain ⟨q, hq, hle⟩ := hrest
        exact ⟨q, mem_cons_of_mem _ hq, hle⟩
      rw [if_pos ⟨hrest, hx⟩, if_pos ⟨hcons, hx⟩]
    · rw [if_neg fun h => hrest h.1]
      simp [hrest]
  · rw [if_neg fun h => hx h.2, if_neg fun h => hx h.2, if_neg fun h => hx h.2]

/-- The loop over the children joins their verdicts and their viable blocks. -/
theorem filterChildren_ok {visit : Root → HashMap Root BeaconBlock → Outcome FilterResult}
    {roots : List Root} (hvisit : ∀ r ∈ roots, ∀ acc, ∃ out,
      visit r acc = .ok (decide (Viable t r), out) ∧ FilteredInto t [r] acc out)
    (acc : FilterResult) : ∃ out, filterChildren visit roots acc =
      .ok (acc.1 || decide (∃ r ∈ roots, Viable t r), out) ∧ FilteredInto t roots acc.2 out := by
  unfold filterChildren
  induction roots generalizing acc with
  | nil => exact ⟨acc.2, by simp, filteredInto_nil acc.2⟩
  | cons r roots ih =>
    obtain ⟨mid, hmid, hfiltered⟩ := hvisit r mem_cons_self acc.2
    obtain ⟨out, hout, hrest⟩ := ih (fun q hq => hvisit q (mem_cons_of_mem _ hq))
      (acc.1 || decide (Viable t r), mid)
    refine ⟨out, ?_, hfiltered.cons hrest⟩
    rw [foldlM_cons, hmid]
    refine Eq.trans hout ?_
    simp [Bool.or_assoc]

/-- Writing a viable block over the viable blocks below its children. -/
theorem FilteredInto.insert (t : RootedTree s anchor) {b : BeaconBlock}
    (hb : s.blocks.lookup r = some b) (h : FilteredInto t.toBlockTree (s.childRoots o r) acc mid) :
    FilteredInto t.toBlockTree [r] acc
      (if decide (Viable t.toBlockTree r) then mid.insert r b else mid) := by
  have hr := mem_of_lookup hb
  intro x
  simp only [mem_singleton, exists_eq_left, decide_eq_true_eq]
  by_cases hx : t.blockForest.Le r x ∧ Viable t.toBlockTree x
  · rw [if_pos hx, if_pos (hx.2.of_le hx.1), lookup_insert_eq]
    rcases Forest.le_iff_child.1 hx.1 with rfl | ⟨c, hc, hle⟩
    · rw [if_pos rfl, hb]
    · have hne : x ≠ r := by
        rintro rfl
        have h1 := hle.rank_le
        have h2 := t.blockForest.rank_lt hc
        omega
      rw [if_neg hne, h x, if_pos ⟨⟨c, (t.mem_childRoots_iff hr).2 hc, hle⟩, hx.2⟩]
  · have hmid : mid.lookup x = acc.lookup x := by
      rw [h x, if_neg]
      rintro ⟨⟨c, hc, hle⟩, hviable⟩
      have hparent := (t.mem_childRoots_iff hr).1 hc
      exact hx ⟨(Forest.le_of_parent hparent).trans hle, hviable⟩
    rw [if_neg hx]
    split
    · rename_i hviable
      have hne : x ≠ r := by
        rintro rfl
        exact hx ⟨Forest.Le.refl x, hviable⟩
      rw [lookup_insert_eq, if_neg hne, hmid]
    · exact hmid

/-- When every leaf below can be judged, the filter returns the viable blocks. -/
theorem filterBlockTreeLoop_ok (t : RootedTree s anchor) (fuel : Nat) (hr : r ∈ s.blocks)
    (hfuel : t.blockForest.above s.blocks.keys r < fuel) (hleaves : LeavesJudged t.toBlockTree r)
    (acc : HashMap Root BeaconBlock) :
    ∃ out, s.filterBlockTreeLoop o fuel r acc = .ok (decide (Viable t.toBlockTree r), out) ∧
      FilteredInto t.toBlockTree [r] acc out := by
  induction fuel generalizing r acc with
  | zero => omega
  | succ fuel ih =>
    obtain ⟨b, hb⟩ := mem_iff_lookup.1 hr
    -- the verdict on the block and the map of the blocks strictly below it
    obtain ⟨mid, hmid, hbelow⟩ : ∃ mid,
        (ite (s.childRoots o r).isEmpty (do pure (← s.leafIsViable r, acc))
          (filterChildren (s.filterBlockTreeLoop o fuel) (s.childRoots o r) (false, acc))) =
          .ok (decide (Viable t.toBlockTree r), mid) ∧
        FilteredInto t.toBlockTree (s.childRoots o r) acc mid := by
      by_cases hleaf : s.IsLeaf r
      · have hnil : s.childRoots o r = [] := childRoots_eq_nil.2 hleaf
        obtain ⟨viable, hviable⟩ := hleaves r (Forest.Le.refl r) hleaf
        refine ⟨acc, ?_, hnil ▸ filteredInto_nil acc⟩
        rw [hnil, isEmpty_nil, if_pos rfl, hviable, ok_bind, pure_eq_ok]
        simp only [viable_leaf hleaf, hviable]
        cases viable <;> simp
      · have hnil : ¬(s.childRoots o r).isEmpty = true := by
          rw [List.isEmpty_iff, childRoots_eq_nil]
          exact hleaf
        have hvisit : ∀ c ∈ s.childRoots o r, ∀ acc, ∃ out, s.filterBlockTreeLoop o fuel c acc =
            .ok (decide (Viable t.toBlockTree c), out) ∧
              FilteredInto t.toBlockTree [c] acc out := by
          intro c hc acc
          have hparent := (t.mem_childRoots_iff hr).1 hc
          have habove := t.blockForest.above_lt (Finmap.mem_keys.2 hr)
            (t.blockForest.rank_lt hparent)
          exact ih (BlockTree.mem_of_blockParent hparent).1 (by omega)
            (hleaves.of_le (Forest.le_of_parent hparent)) acc
        obtain ⟨mid, hmid, hbelow⟩ := filterChildren_ok hvisit (false, acc)
        refine ⟨mid, ?_, hbelow⟩
        rw [if_neg hnil, hmid, Bool.false_or]
        simp only [viable_iff_child hleaf, t.mem_childRoots_iff hr]
    refine ⟨_, ?_, hbelow.insert t hb⟩
    unfold filterBlockTreeLoop
    rw [hb, orFail_some, ok_bind]
    dsimp only
    rw [hmid, ok_bind]
    rfl

/-- The filter fails when a leaf below cannot be judged. -/
theorem leavesJudged_of_filterBlockTreeLoop (t : RootedTree s anchor) (fuel : Nat)
    (hr : r ∈ s.blocks) {out : FilterResult} (h : s.filterBlockTreeLoop o fuel r acc = .ok out) :
    LeavesJudged t.toBlockTree r := by
  induction fuel generalizing r acc out with
  | zero => cases h
  | succ fuel ih =>
    unfold filterBlockTreeLoop at h
    obtain ⟨b, -, h⟩ := bind_eq_ok.1 h
    dsimp only at h
    obtain ⟨result, hresult, -⟩ := bind_eq_ok.1 h
    intro l hle hleaf
    rcases Forest.le_iff_child.1 hle with rfl | ⟨c, hc, hle⟩
    · have hnil : s.childRoots o r = [] := childRoots_eq_nil.2 hleaf
      rw [hnil, isEmpty_nil, if_pos rfl] at hresult
      obtain ⟨viable, hviable, -⟩ := bind_eq_ok.1 hresult
      exact ⟨viable, hviable⟩
    · have hmem := (t.mem_childRoots_iff (o := o) hr).2 hc
      have hnil : ¬(s.childRoots o r).isEmpty = true := by
        rw [List.isEmpty_iff]
        exact ne_nil_of_mem hmem
      rw [if_neg hnil] at hresult
      obtain ⟨acc', out', hvisit⟩ := foldlM_step_ok hresult hmem
      obtain ⟨_, hvisit, -⟩ := bind_eq_ok.1 hvisit
      exact ih (BlockTree.mem_of_blockParent hc).1 hvisit l hle hleaf

/-- What the filter returns, for any order of the children. -/
theorem getFilteredBlockTree_eq_ok (t : RootedTree s anchor) {m : HashMap Root BeaconBlock} :
    s.getFilteredBlockTree o = .ok m ↔
      s.justifiedCheckpoint.root ∈ s.blocks ∧
      LeavesJudged t.toBlockTree s.justifiedCheckpoint.root ∧
      ∀ x, m.lookup x = if t.blockForest.Le s.justifiedCheckpoint.root x ∧ Viable t.toBlockTree x
        then s.blocks.lookup x else none := by
  have hlookup : ∀ out, FilteredInto t.toBlockTree [s.justifiedCheckpoint.root] ∅ out ↔
      ∀ x, out.lookup x = if t.blockForest.Le s.justifiedCheckpoint.root x ∧
        Viable t.toBlockTree x then s.blocks.lookup x else none := by
    intro out
    unfold FilteredInto
    simp
  unfold getFilteredBlockTree filterBlockTree
  constructor
  · intro h
    obtain ⟨⟨viable, out⟩, hout, h⟩ := bind_eq_ok.1 h
    cases h
    have hmem : s.justifiedCheckpoint.root ∈ s.blocks := by
      unfold filterBlockTreeLoop at hout
      obtain ⟨b, hb, -⟩ := bind_eq_ok.1 hout
      exact mem_of_lookup (orFail_eq_ok.1 hb)
    have hleaves := leavesJudged_of_filterBlockTreeLoop t _ hmem hout
    obtain ⟨out', hout', hfiltered⟩ := filterBlockTreeLoop_ok (o := o) t _ hmem
      (Nat.lt_succ_of_le (t.blockForest.above_le_card s.blocks.keys _)) hleaves ∅
    cases hout.symm.trans hout'
    exact ⟨hmem, hleaves, (hlookup out).1 hfiltered⟩
  · rintro ⟨hmem, hleaves, hm⟩
    obtain ⟨out, hout, hfiltered⟩ := filterBlockTreeLoop_ok (o := o) t _ hmem
      (Nat.lt_succ_of_le (t.blockForest.above_le_card s.blocks.keys _)) hleaves ∅
    rw [hout, ok_bind]
    have heq : out = m := by
      apply Finmap.ext_lookup
      intro x
      rw [hm x, (hlookup out).1 hfiltered x]
    rw [← heq]
    rfl

end Filter

/-! ## Termination -/

theorem getAncestorLoop_returns (t : RootedTree s anchor) {slot : Slot} (fuel : Nat)
    (node : ForkChoiceNode) (hfuel : t.blockForest.below s.blocks.keys node.root < fuel) :
    Returns (s.getAncestorLoop slot fuel node) := by
  induction fuel generalizing node with
  | zero => omega
  | succ fuel ih =>
    unfold getAncestorLoop
    refine .bind (.orFail _ _) fun b hb => .ite (.pure _) ?_
    have hb := orFail_eq_ok.1 hb
    cases hp : s.blocks.lookup b.parentRoot with
    | none =>
      rw [getParentPayloadStatus, hp]
      exact .fail _
    | some p =>
      rw [getParentPayloadStatus_ok hp, ok_bind]
      have hparent := (t.blockParent_iff (mem_of_lookup hp)).2 ⟨b, hb, rfl⟩
      have hbelow := t.blockForest.below_lt (Finmap.mem_keys.2 (mem_of_lookup hb))
        (t.blockForest.rank_lt hparent)
      exact ih ⟨b.parentRoot, parentBranch b p⟩ (Nat.lt_of_lt_of_le hbelow (Nat.le_of_lt_succ hfuel))

theorem getAncestor_returns (t : RootedTree s anchor) (node : ForkChoiceNode) (slot : Slot) :
    Returns (s.getAncestor node slot) :=
  getAncestorLoop_returns t _ node
    (Nat.lt_succ_of_le (t.blockForest.below_le_card s.blocks.keys node.root))

theorem leafIsViable_returns (t : RootedTree s anchor) (r : Root) : Returns (s.leafIsViable r) := by
  unfold leafIsViable getVotingSource getCheckpointBlock
  refine .bind (.bind (.orFail _ _) fun b _ => .ite (.orFail _ _) ?_) fun _ _ => ?_
  · exact .bind (.orFail _ _) fun _ _ => .pure _
  · exact .bind (.bind (getAncestor_returns t _ _) fun _ _ => .pure _) fun _ _ => .pure _

theorem filterBlockTreeLoop_returns (t : RootedTree s anchor) (fuel : Nat)
    (hfuel : t.blockForest.above s.blocks.keys r < fuel) (acc : HashMap Root BeaconBlock) :
    Returns (s.filterBlockTreeLoop o fuel r acc) := by
  induction fuel generalizing r acc with
  | zero => omega
  | succ fuel ih =>
    unfold filterBlockTreeLoop
    refine .bind (.orFail _ _) fun b hb => .bind (.ite ?_ ?_) fun _ _ => .pure _
    · exact .bind (leafIsViable_returns t r) fun _ _ => .pure _
    · have hr := mem_of_lookup (orFail_eq_ok.1 hb)
      refine .foldlM (fun c hc acc => .bind ?_ fun _ _ => .pure _) _
      have habove := t.blockForest.above_lt (Finmap.mem_keys.2 hr)
        (t.blockForest.rank_lt ((t.mem_childRoots_iff hr).1 hc))
      exact ih (by omega) acc.2

/-- The filter recursion ends, with a tree or an error. -/
theorem getFilteredBlockTree_returns (t : RootedTree s anchor) :
    Returns (s.getFilteredBlockTree o) :=
  .bind (filterBlockTreeLoop_returns t _
    (Nat.lt_succ_of_le (t.blockForest.above_le_card s.blocks.keys _)) ∅) fun _ _ => .pure _

end Store

end Moonglass
