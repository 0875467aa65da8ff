import Moonglass.ForkChoice.Helpers
import Moonglass.Lib.Forest

/-
  The stored blocks as a tree, and the fork-choice nodes as a tree over it: under a block's pending
  node lie its empty and its full node, and under each of these the pending nodes of the children
  whose bids chose that branch. `getAncestor` finds the lowest ancestor at or before a slot, and
  `isAncestor` decides ancestry of nodes.
-/

namespace Moonglass

open Lib HashMap

variable [Preset]
variable {r q : Root} {b p : BeaconBlock} {m n x node : ForkChoiceNode}

namespace Store

/-- The slot of a stored block. -/
def slotOf (s : Store) (r : Root) : Nat := ((s.blocks.lookup r).map fun b => b.slot.val).getD 0

theorem slotOf_eq {s : Store} (h : s.blocks.lookup r = some b) : s.slotOf r = b.slot.val := by
  rw [slotOf, h]; rfl

/-- The stored parent of a block. The tree ends at the anchor, whatever its parent root. -/
def blockParent (s : Store) (anchor r : Root) : Option Root :=
  if r = anchor then none
  else (s.blocks.lookup r).bind fun b =>
    (s.blocks.lookup b.parentRoot).map fun _ => b.parentRoot

/-- The node above a node. -/
def nodeParent (s : Store) (anchor : Root) (n : ForkChoiceNode) : Option ForkChoiceNode :=
  if n.payloadStatus ≠ .pending then some (.pending n.root)
  else if n.root = anchor then none
  else (s.blocks.lookup n.root).bind fun b =>
    (s.blocks.lookup b.parentRoot).map fun p => ⟨b.parentRoot, parentBranch b p⟩

theorem blockParent_eq_some {s : Store} {anchor : Root} :
    s.blockParent anchor r = some q ↔
      r ≠ anchor ∧ ∃ b, s.blocks.lookup r = some b ∧ b.parentRoot = q ∧ q ∈ s.blocks := by
  by_cases hr : r = anchor
  · simp [blockParent, hr]
  simp only [blockParent, if_neg hr, Option.bind_eq_some_iff, Option.map_eq_some_iff,
    mem_iff_lookup]
  constructor
  · rintro ⟨b, hb, p, hp, rfl⟩
    exact ⟨hr, b, hb, rfl, p, hp⟩
  · rintro ⟨-, b, hb, rfl, p, hp⟩
    exact ⟨b, hb, p, hp, rfl⟩

theorem nodeParent_pending {s : Store} {anchor : Root} :
    s.nodeParent anchor (.pending r) = some m ↔ r ≠ anchor ∧ ∃ b p,
      s.blocks.lookup r = some b ∧ s.blocks.lookup b.parentRoot = some p ∧
        m = ⟨b.parentRoot, parentBranch b p⟩ := by
  by_cases hr : r = anchor
  · simp [nodeParent, hr]
  simp only [nodeParent, ne_eq, not_true_eq_false, if_false, if_neg hr, Option.bind_eq_some_iff,
    Option.map_eq_some_iff]
  constructor
  · rintro ⟨b, hb, p, hp, rfl⟩
    exact ⟨hr, b, p, hb, hp, rfl⟩
  · rintro ⟨-, b, p, hb, hp, rfl⟩
    exact ⟨b, hb, p, hp, rfl⟩

theorem nodeParent_decision {s : Store} {anchor : Root} (h : n.payloadStatus ≠ .pending) :
    s.nodeParent anchor n = some (.pending n.root) := if_pos h

theorem parentBranch_ne_pending (b p : BeaconBlock) : parentBranch b p ≠ .pending := by
  unfold parentBranch
  split <;> simp

/-- Every stored block but the anchor has its parent stored at an earlier slot. -/
structure BlockTree (s : Store) (anchor : Root) : Prop where
  anchor_mem : anchor ∈ s.blocks
  parent : ∀ {r b}, s.blocks.lookup r = some b → r ≠ anchor →
    ∃ p, s.blocks.lookup b.parentRoot = some p ∧ p.slot < b.slot

namespace BlockTree

variable {s : Store} {anchor : Root}

theorem parent_slot_lt (t : BlockTree s anchor) (hr : r ≠ anchor) (hb : s.blocks.lookup r = some b)
    (hp : s.blocks.lookup b.parentRoot = some p) : p.slot < b.slot := by
  obtain ⟨p', hp', hlt⟩ := t.parent hb hr
  rw [hp] at hp'
  exact Option.some.inj hp' ▸ hlt

/-- The blocks, ordered by their slots. -/
def blockForest (t : BlockTree s anchor) : Forest Root where
  parent := s.blockParent anchor
  rank := s.slotOf
  rank_lt := by
    intro q r h
    obtain ⟨hr, b, hb, rfl, hq⟩ := blockParent_eq_some.1 h
    obtain ⟨p, hp⟩ := mem_iff_lookup.1 hq
    rw [slotOf_eq hb, slotOf_eq hp]
    exact t.parent_slot_lt hr hb hp

/-- The nodes; a decided node comes after the pending node of its block. -/
def nodeForest (t : BlockTree s anchor) : Forest ForkChoiceNode where
  parent := s.nodeParent anchor
  rank n := 2 * s.slotOf n.root + if n.payloadStatus = .pending then 0 else 1
  rank_lt := by
    intro m n h
    by_cases hn : n.payloadStatus = .pending
    · obtain ⟨r, st⟩ := n
      subst hn
      obtain ⟨hr, b, p, hb, hp, rfl⟩ := nodeParent_pending.1 h
      have hlt : p.slot.val < b.slot.val := t.parent_slot_lt hr hb hp
      simp only [slotOf_eq hb, slotOf_eq hp, if_true]
      split <;> omega
    · rw [nodeParent_decision hn] at h
      obtain rfl := Option.some.inj h
      simp [hn]

variable (t : BlockTree s anchor)

theorem le_of_blockParent (h : s.blockParent anchor r = some q) : t.blockForest.Le q r :=
  Forest.le_of_parent (F := t.blockForest) h

theorem le_of_nodeParent (h : s.nodeParent anchor n = some m) : t.nodeForest.Le m n :=
  Forest.le_of_parent (F := t.nodeForest) h

theorem parent_mem (h : t.nodeForest.parent n = some m) (hn : n.root ∈ s.blocks) :
    m.root ∈ s.blocks := by
  by_cases hp : n.payloadStatus = .pending
  · obtain ⟨r, st⟩ := n
    subst hp
    obtain ⟨-, b, p, -, hp, rfl⟩ := nodeParent_pending.1 h
    exact mem_of_lookup hp
  · obtain rfl := Option.some.inj ((nodeParent_decision hp).symm.trans h)
    exact hn

/-- Ancestors of stored nodes are stored. -/
theorem mem_of_le (h : t.nodeForest.Le m n) (hn : n.root ∈ s.blocks) : m.root ∈ s.blocks := by
  induction h with
  | refl => exact hn
  | tail _ hp ih => exact ih (t.parent_mem hp hn)

theorem pending_le (n : ForkChoiceNode) : t.nodeForest.Le (.pending n.root) n := by
  by_cases hp : n.payloadStatus = .pending
  · obtain ⟨r, st⟩ := n
    subst hp
    exact Forest.Le.refl _
  · exact t.le_of_nodeParent (nodeParent_decision hp)

/-- Ancestry of nodes is ancestry of their blocks. -/
theorem root_le (h : t.nodeForest.Le m n) : t.blockForest.Le m.root n.root := by
  induction h with
  | refl => exact Forest.Le.refl _
  | @tail a n _ hp ih =>
    refine ih.trans ?_
    by_cases hn : n.payloadStatus = .pending
    · obtain ⟨r, st⟩ := n
      subst hn
      obtain ⟨hr, b, p, hb, hbp, rfl⟩ := nodeParent_pending.1 hp
      exact t.le_of_blockParent
        (blockParent_eq_some.2 ⟨hr, b, hb, rfl, mem_of_lookup hbp⟩)
    · obtain rfl := Option.some.inj ((nodeParent_decision hn).symm.trans hp)
      exact Forest.Le.refl _

/-- A block that is an ancestor has its pending node above every node of the descendant. -/
theorem pending_le_of_root_le {a : Root} (h : t.blockForest.Le a n.root) :
    t.nodeForest.Le (.pending a) n := by
  have aux : ∀ r, t.blockForest.Le a r → t.nodeForest.Le (.pending a) (.pending r) := by
    intro r hr
    induction hr with
    | refl => exact Forest.Le.refl _
    | @tail q r _ hp ih =>
      obtain ⟨hra, b, hb, rfl, hq⟩ := blockParent_eq_some.1 hp
      obtain ⟨p, hp⟩ := mem_iff_lookup.1 hq
      refine ih.trans ((t.pending_le ⟨b.parentRoot, parentBranch b p⟩).trans ?_)
      exact t.le_of_nodeParent (nodeParent_pending.2 ⟨hra, b, p, hb, hp, rfl⟩)
  exact (aux n.root h).trans (t.pending_le n)

/-- A strict ancestor of another block is an ancestor of that block's pending node's parent. -/
theorem le_of_root_ne {q : ForkChoiceNode} (h : t.nodeForest.Le x n) (hne : x.root ≠ n.root)
    (hq : s.nodeParent anchor (.pending n.root) = some q) : t.nodeForest.Le x q := by
  have hpending : t.nodeForest.Le x (.pending n.root) := by
    by_cases hn : n.payloadStatus = .pending
    · obtain ⟨r, st⟩ := n
      subst hn
      exact h
    · rcases Forest.le_iff_parent.1 h with rfl | ⟨p, hp, hxp⟩
      · exact absurd rfl hne
      · obtain rfl := Option.some.inj ((nodeParent_decision hn).symm.trans hp)
        exact hxp
  rcases Forest.le_iff_parent.1 hpending with rfl | ⟨p, hp, hxp⟩
  · exact absurd rfl hne
  · obtain rfl := Option.some.inj (hq.symm.trans hp)
    exact hxp

/-- Among the nodes of one block, only the pending node is above another one. -/
theorem eq_or_pending (h : t.nodeForest.Le x n) (hr : x.root = n.root) :
    x = n ∨ x.payloadStatus = .pending := by
  rcases Forest.le_iff_parent.1 h with rfl | ⟨p, hp, hxp⟩
  · exact .inl rfl
  · right
    by_contra hx
    have h1 := hxp.rank_le
    have h2 := t.nodeForest.rank_lt hp
    have h3 : t.nodeForest.rank x = 2 * s.slotOf n.root + 1 := by
      simp only [nodeForest, if_neg hx, hr]
    have h4 : t.nodeForest.rank n ≤ 2 * s.slotOf n.root + 1 := by
      simp only [nodeForest]
      split <;> omega
    omega

theorem root_eq_of_slot (h : t.nodeForest.Le x n) (hs : s.slotOf n.root ≤ s.slotOf x.root) :
    x.root = n.root :=
  (t.root_le h).eq_of_rank_le hs

end BlockTree

/-! ## The parent walk -/

variable {s : Store} {anchor : Root} {slot : Slot}

/-- `m` is the lowest ancestor of `node` at or before `slot`. -/
structure IsAncestorAt (t : BlockTree s anchor) (slot : Slot) (node m : ForkChoiceNode) : Prop where
  mem : m.root ∈ s.blocks
  le : t.nodeForest.Le m node
  slot_le : s.slotOf m.root ≤ slot.val
  lowest : ∀ x, t.nodeForest.Le x node → s.slotOf x.root ≤ slot.val → t.nodeForest.Le x m

theorem getAncestorLoop_ok (t : BlockTree s anchor) (hslot : s.slotOf anchor ≤ slot.val)
    (fuel : Nat) (node : ForkChoiceNode) (hnode : node.root ∈ s.blocks)
    (hfuel : t.blockForest.below s.blocks.keys node.root < fuel) :
    ∃ m, s.getAncestorLoop slot fuel node = .ok m ∧ IsAncestorAt t slot node m := by
  induction fuel generalizing node with
  | zero => omega
  | succ fuel ih =>
    obtain ⟨b, hb⟩ := mem_iff_lookup.1 hnode
    by_cases hle : b.slot ≤ slot
    · refine ⟨node, ?_, hnode, Forest.Le.refl _, ?_, fun x hx _ => hx⟩
      · simp [getAncestorLoop, hb, hle]
      · rw [slotOf_eq hb]; exact hle
    · have hne : node.root ≠ anchor := by
        intro h
        rw [← h, slotOf_eq hb] at hslot
        exact hle hslot
      obtain ⟨p, hp, hlt⟩ := t.parent hb hne
      have hparent := nodeParent_pending.2 ⟨hne, b, p, hb, hp, rfl⟩
      have hbelow : t.blockForest.below s.blocks.keys b.parentRoot < fuel := by
        have h := t.blockForest.below_lt (S := s.blocks.keys) (x := b.parentRoot)
          (Finmap.mem_keys.2 hnode) (by
            simp only [BlockTree.blockForest, slotOf_eq hb, slotOf_eq hp]; exact hlt)
        omega
      obtain ⟨m, hm, hat⟩ := ih ⟨b.parentRoot, parentBranch b p⟩ (mem_of_lookup hp) hbelow
      refine ⟨m, ?_, hat.mem, ?_, hat.slot_le, ?_⟩
      · simp only [getAncestorLoop, hb, orFail_some, ok_bind, if_neg hle,
          getParentPayloadStatus_ok hp, hm]
      · exact hat.le.trans ((t.le_of_nodeParent hparent).trans (t.pending_le node))
      · intro x hx hxs
        refine hat.lowest x (t.le_of_root_ne hx ?_ hparent) hxs
        intro h
        rw [h, slotOf_eq hb] at hxs
        exact hle hxs

variable {s s' : Store}

/-- The parent walk reads nothing of a store but its blocks. -/
theorem getAncestorLoop_congr (h : s'.blocks = s.blocks) (slot : Slot) (fuel : Nat)
    (node : ForkChoiceNode) : s'.getAncestorLoop slot fuel node = s.getAncestorLoop slot fuel node := by
  induction fuel generalizing node with
  | zero => rfl
  | succ fuel ih =>
    rw [getAncestorLoop, getAncestorLoop]
    unfold getParentPayloadStatus
    simp only [ih, h]

theorem getAncestor_congr (h : s'.blocks = s.blocks) (node : ForkChoiceNode)
    (slot : Slot) : s'.getAncestor node slot = s.getAncestor node slot := by
  unfold getAncestor
  rw [getAncestorLoop_congr h, h]

theorem isAncestor_congr (h : s'.blocks = s.blocks) (node ancestor : ForkChoiceNode) :
    s'.isAncestor node ancestor = s.isAncestor node ancestor := by
  unfold isAncestor
  simp only [getAncestor_congr h, h]

theorem getCheckpointBlock_congr (h : s'.blocks = s.blocks) (root : Root)
    (epoch : Epoch) : s'.getCheckpointBlock root epoch = s.getCheckpointBlock root epoch := by
  unfold getCheckpointBlock
  rw [getAncestor_congr h]

/-- From a slot that is not before the anchor's, the parent walk ends at the lowest ancestor. -/
theorem getAncestor_ok (t : BlockTree s anchor) (hslot : s.slotOf anchor ≤ slot.val)
    (hnode : node.root ∈ s.blocks) :
    ∃ m, s.getAncestor node slot = .ok m ∧ IsAncestorAt t slot node m :=
  getAncestorLoop_ok t hslot _ node hnode
    (Nat.lt_succ_of_le (t.blockForest.below_le_card s.blocks.keys node.root))

/-- The anchor is at or before every stored block. -/
theorem BlockTree.anchor_le (t : BlockTree s anchor) (hr : r ∈ s.blocks) :
    t.blockForest.Le anchor r := by
  induction h : s.slotOf r using Nat.strongRecOn generalizing r with
  | _ n ih =>
    by_cases hra : r = anchor
    · rw [hra]
      exact Forest.Le.refl _
    · obtain ⟨b, hb⟩ := mem_iff_lookup.1 hr
      obtain ⟨p, hp, hlt⟩ := t.parent hb hra
      have hpm := mem_of_lookup hp
      have hstep : t.blockForest.parent r = some b.parentRoot :=
        blockParent_eq_some.2 ⟨hra, b, hb, rfl, hpm⟩
      refine (ih (s.slotOf b.parentRoot) ?_ hpm rfl).trans (Forest.le_of_parent hstep)
      rw [← h]
      exact t.blockForest.rank_lt hstep

theorem BlockTree.anchor_slot_le (t : BlockTree s anchor) (hr : r ∈ s.blocks) :
    s.slotOf anchor ≤ s.slotOf r := (t.anchor_le hr).rank_le

open Classical in
/-- Between stored nodes, `isAncestor` decides ancestry. -/
theorem isAncestor_eq (t : BlockTree s anchor) {ancestor : ForkChoiceNode}
    (hnode : node.root ∈ s.blocks) (hanc : ancestor.root ∈ s.blocks) :
    s.isAncestor node ancestor = .ok (decide (t.nodeForest.Le ancestor node)) := by
  obtain ⟨a, ha⟩ := mem_iff_lookup.1 hanc
  have hslot : s.slotOf anchor ≤ a.slot.val := slotOf_eq ha ▸ t.anchor_slot_le hanc
  obtain ⟨m, hm, hat⟩ := getAncestor_ok t hslot hnode
  have key : (m.root = ancestor.root ∧
      (m.payloadStatus = ancestor.payloadStatus ∨ ancestor.payloadStatus = .pending)) ↔
      t.nodeForest.Le ancestor node := by
    constructor
    · rintro ⟨hr, hs | hs⟩
      · obtain ⟨r, st⟩ := ancestor
        obtain ⟨r', st'⟩ := m
        subst hr; subst hs
        exact hat.le
      · obtain ⟨r, st⟩ := ancestor
        subst hs; subst hr
        exact (t.pending_le m).trans hat.le
    · intro h
      have hle := hat.lowest ancestor h (by rw [slotOf_eq ha])
      have hroot := t.root_eq_of_slot hle (by rw [slotOf_eq ha]; exact hat.slot_le)
      refine ⟨hroot.symm, ?_⟩
      rcases t.eq_or_pending hle hroot with h | h
      · exact .inl (h ▸ rfl)
      · exact .inr h
  simp only [isAncestor, ha, orFail_some, ok_bind, hm, pure_eq_ok, ← key]
  congr 1
  by_cases h1 : m.root = ancestor.root <;>
    by_cases h2 : m.payloadStatus = ancestor.payloadStatus <;>
    by_cases h3 : ancestor.payloadStatus = .pending <;> simp [h1, h2, h3]

end Store

end Moonglass
