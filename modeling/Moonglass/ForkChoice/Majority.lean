import Moonglass.ForkChoice.HeadWalk
import Moonglass.ForkChoice.Invariant

/-
  Majority safety. A block whose attestation score is more than half of the stake that may vote,
  with the proposer boost counted against it, is on the path of every head walk: on the way down,
  the child above it always outweighs its siblings.
-/

namespace Moonglass

open Lib HashMap

variable [Preset] [Crypto]
variable {n y c : ForkChoiceNode} {key : HeadKey}

namespace Store

/-- `a` is `r` or reached from `r` by parent roots of stored blocks. -/
def IsBlockAncestor (s : Store) (a r : Root) : Prop :=
  Ancestor (fun r => (s.blocks.lookup r).map (·.parentRoot)) a r

variable {g : Origin} {s : Store} {anchor : Root} {o : Orders}

omit [Crypto] in
theorem BlockTree.isBlockAncestor (t : BlockTree s anchor) {a r : Root}
    (h : t.blockForest.Le a r) : s.IsBlockAncestor a r := by
  refine Relation.ReflTransGen.mono (fun x y hxy => ?_) a r h
  obtain ⟨-, b, hb, rfl, -⟩ := blockParent_eq_some.1 hxy
  show (s.blocks.lookup y).map (·.parentRoot) = some b.parentRoot
  rw [hb]
  rfl

variable {state : BeaconState}

namespace Inv

theorem votesStored (inv : Inv g s) (state : BeaconState) : s.VotesStored state := by
  intro vote hvote
  obtain ⟨v, -, hv⟩ := List.mem_filterMap.1 hvote
  unfold voteOf at hv
  split at hv
  · cases hv
  · obtain ⟨m, hm, rfl⟩ := Option.map_eq_some_iff.1 hv
    obtain ⟨b, hb, -⟩ := (inv.vote hm).block
    exact mem_of_lookup hb

/-- A counted vote is older than the clock and not older than its block. -/
theorem vote_slot (inv : Inv g s) {vote : Vote}
    (hvote : vote ∈ s.countedVotes state) : s.slotOf vote.2.root + 1 ≤ s.getCurrentSlot.val := by
  obtain ⟨v, -, hv⟩ := List.mem_filterMap.1 hvote
  unfold voteOf at hv
  split at hv
  · cases hv
  · obtain ⟨m, hm, rfl⟩ := Option.map_eq_some_iff.1 hv
    obtain ⟨⟨b, hb, hslot⟩, -, hpast⟩ := inv.vote hm
    have hle : b.slot.val ≤ m.slot.val := hslot
    rw [slotOf_eq hb]
    omega

/-- No vote counts for a block of the current slot. -/
theorem stakeOn_eq_zero (inv : Inv g s)
    (h : s.getCurrentSlot.val ≤ s.slotOf n.root) : stakeOn inv.tree state n = 0 := by
  classical
  unfold stakeOn Forest.stake
  rw [List.sum_eq_zero_iff]
  intro w hw
  obtain ⟨vote, hvote, rfl⟩ := List.mem_map.1 hw
  rw [if_neg]
  intro hle
  have h1 := (inv.tree.root_le hle).rank_le
  have h2 := inv.vote_slot hvote
  rw [votePoint_root] at h1
  have h3 : inv.tree.blockForest.rank n.root = s.slotOf n.root := rfl
  have h4 : inv.tree.blockForest.rank vote.2.root = s.slotOf vote.2.root := rfl
  omega

/-- On the way to a block of the filtered tree, the next node is one that head selection sees. -/
theorem isChild_of_le (inv : Inv g s) {blocks : HashMap Root BeaconBlock}
    (hblocks : s.getFilteredBlockTree o = .ok blocks) {r : Root} (hr : r ∈ blocks)
    {n y : ForkChoiceNode}
    (hjustified : inv.tree.nodeForest.Le (.pending s.justifiedCheckpoint.root) n)
    (hparent : inv.tree.nodeForest.parent y = some n)
    (hle : inv.tree.nodeForest.Le y (.pending r)) : s.IsChild blocks n y := by
  obtain ⟨b, hb⟩ := mem_iff_lookup.1 hr
  obtain ⟨hstored, -, hviable⟩ := (lookup_filtered inv.rooted hblocks).1 hb
  obtain ⟨root, status⟩ := n
  unfold IsChild
  by_cases hpending : status = .pending
  · rw [if_pos hpending]
    cases hpending
    rcases nodeParent_eq_pending.1 hparent with rfl | rfl
    · exact .inl rfl
    · refine .inr ⟨rfl, ?_⟩
      -- below the full node lies a block whose bid chose the full branch
      rcases Forest.le_iff_child.1 hle with h | ⟨z, hz, hzle⟩
      · cases h
      · obtain ⟨q, status⟩ := z
        obtain ⟨hstatus, hq⟩ := (nodeParent_eq_decision (by simp)).1 hz
        cases hstatus
        obtain ⟨hne, hq⟩ := Finset.mem_erase.1 hq
        obtain ⟨c, p, hc, rfl, hp, hbranch⟩ := mem_branchChildren.1 hq
        obtain ⟨p', parentState, state, hext⟩ := inv.child hc hne
        cases hp.symm.trans hext.parent
        exact hext.full hbranch
  · rw [if_neg hpending]
    obtain ⟨hy, hmem⟩ := (nodeParent_eq_decision hpending).1 hparent
    obtain ⟨-, hmem⟩ := Finset.mem_erase.1 hmem
    obtain ⟨c, p, hc, hroot, hp, hbranch⟩ := mem_branchChildren.1 hmem
    refine ⟨hy, c, p, (lookup_filtered inv.rooted hblocks).2 ⟨hc, ?_, ?_⟩, hroot, hp, hbranch⟩
    · exact (inv.tree.root_le hjustified).trans
        (inv.tree.root_le (Forest.le_of_parent hparent))
    · exact hviable.of_le (inv.tree.root_le hle)

end Inv

/-! ## The heaviest child -/

theorem headSelectionKey_weight (h : s.headSelectionKey o n = .ok key) :
    s.getWeight o n = .ok (ofLex key).1 := by
  unfold headSelectionKey at h
  obtain ⟨weight, hweight, h⟩ := bind_eq_ok.1 h
  obtain ⟨tiebreaker, -, h⟩ := bind_eq_ok.1 h
  cases h
  exact hweight

omit [Crypto] in
theorem isPreviousSlotPayloadDecision_eq {b : BeaconBlock} (hb : s.blocks.lookup n.root = some b) :
    s.isPreviousSlotPayloadDecision n =
      .ok (isNextSlot b.slot s.getCurrentSlot && n.isPayloadDecision) := by
  rw [isPreviousSlotPayloadDecision, hb]
  rfl

/-- A weight is the score, with at most the boost on top. -/
theorem weight_bounds {weight boost : Gwei} (h : s.getWeight o n = .ok weight)
    (hprevious : s.isPreviousSlotPayloadDecision n = .ok false)
    (hstate : s.getJustifiedState = .ok state) (hboost : s.getProposerScore = .ok boost) :
    ∃ score, s.getAttestationScore n state = .ok score ∧ score.val ≤ weight.val ∧
      weight.val ≤ score.val + boost.val := by
  rcases getWeight_cases h with ⟨htrue, -⟩ | ⟨-, state', score, hstate', hscore, hweight⟩
  · cases hprevious.symm.trans htrue
  · cases hstate.symm.trans hstate'
    refine ⟨score, hscore, ?_⟩
    rcases hweight with rfl | ⟨boost', hboost', hweight⟩
    · omega
    · cases hboost.symm.trans hboost'
      omega

section Majority

variable {blocks : HashMap Root BeaconBlock} {r : Root} {state : BeaconState} {score boost : Gwei}

/-- A block with votes is not decided on the way by the rule for blocks of the previous slot. -/
theorem Inv.not_previous (inv : Inv g s) (hr : r ∈ s.blocks)
    (hscore : s.getAttestationScore (.pending r) state = .ok score) (hpos : 0 < score.val)
    (hn : n.root ∈ s.blocks) (hparent : inv.tree.nodeForest.parent y = some n)
    (hle : inv.tree.nodeForest.Le y (.pending r))
    (hroot : ∀ {r b}, blocks.lookup r = some b → s.blocks.lookup r = some b)
    (hc : s.IsChild blocks n c) : s.isPreviousSlotPayloadDecision c = .ok false := by
  obtain ⟨b, hb⟩ := mem_iff_lookup.1 (hc.root_mem hroot hn)
  rw [isPreviousSlotPayloadDecision_eq hb]
  obtain ⟨q, status⟩ := n
  unfold IsChild at hc
  split at hc
  · rename_i hpending
    cases hpending
    -- both decisions are about one block, strictly above `r`
    have hcroot : c.root = q := by rcases hc with rfl | ⟨rfl, -⟩ <;> rfl
    have hyroot : y.root = q := by
      rcases nodeParent_eq_pending.1 hparent with rfl | rfl <;> rfl
    have hrank := Nat.lt_of_lt_of_le (inv.tree.nodeForest.rank_lt hparent) hle.rank_le
    have hlt : s.slotOf q < s.slotOf r := by
      simpa [BlockTree.nodeForest] using hrank
    have hnext : isNextSlot b.slot s.getCurrentSlot = false := by
      by_contra hnext
      rw [Bool.not_eq_false, isNextSlot, beq_iff_eq, Word.checkedAdd_eq_some] at hnext
      have hzero : stakeOn inv.tree state (.pending r) = 0 := by
        refine inv.stakeOn_eq_zero ?_
        rw [← hcroot, slotOf_eq hb] at hlt
        exact hnext ▸ hlt
      rw [getAttestationScore_eq_ok inv.tree hr (inv.votesStored state), hzero] at hscore
      omega
    rw [hnext]
    rfl
  · rw [ForkChoiceNode.isPayloadDecision, hc.1]
    simp [PayloadStatus.isPayloadDecision]

section

variable (inv : Inv g s) (hblocks : s.getFilteredBlockTree o = .ok blocks) (hr : r ∈ blocks)
  (hstate : s.getJustifiedState = .ok state)
  (hscore : s.getAttestationScore (.pending r) state = .ok score)
  (hboost : s.getProposerScore = .ok boost)
  (hmajority : s.nonEquivocatingBalance state + boost.val < 2 * score.val)

include hblocks hr hstate hscore hboost hmajority

/-- On the way down to a block with a majority, the heaviest child is the one above it. -/
theorem Inv.heaviest_le {children : List ForkChoiceNode} (hn : n.root ∈ s.blocks)
    (hmem : ∀ c, c ∈ children ↔ s.IsChild blocks n c) (hc : IsHeaviest s o children c key)
    (hjustified : inv.tree.nodeForest.Le (.pending s.justifiedCheckpoint.root) n)
    (hle : inv.tree.nodeForest.Le n (.pending r)) (hne : n ≠ .pending r) :
    inv.tree.nodeForest.Le c (.pending r) := by
  have hsub : ∀ {r b}, blocks.lookup r = some b → s.blocks.lookup r = some b :=
    fun hb => ((lookup_filtered inv.rooted hblocks).1 hb).1
  have hstored : r ∈ s.blocks := by
    obtain ⟨b, hb⟩ := mem_iff_lookup.1 hr
    exact mem_of_lookup (hsub hb)
  have hvotes := inv.votesStored state
  obtain ⟨y, hparent, hyle⟩ := (Forest.le_iff_child.1 hle).resolve_left hne
  have hy := inv.isChild_of_le hblocks hr hjustified hparent hyle
  have hchild := (hmem c).1 hc.mem
  have hcparent := inv.rooted.nodeParent_of_isChild hsub hchild
  by_cases heq : c = y
  · exact heq ▸ hyle
  exfalso
  have hnot : ∀ {x}, s.IsChild blocks n x → s.isPreviousSlotPayloadDecision x = .ok false :=
    fun hx => inv.not_previous hstored hscore (by omega) hn hparent hyle hsub hx
  -- the heaviest child weighs at least as much as the child above the block
  obtain ⟨key', hkey', hlekey⟩ := hc.le y ((hmem y).2 hy)
  have hweight : (ofLex key').1.val ≤ (ofLex key).1.val := Prod.Lex.monotone_fst _ _ hlekey
  -- but that child has more than half of the stake, and the other one no part of it
  obtain ⟨scoreY, hscoreY, hlow, -⟩ :=
    weight_bounds (headSelectionKey_weight hkey') (hnot hy) hstate hboost
  obtain ⟨scoreC, hscoreC, -, hhigh⟩ :=
    weight_bounds (headSelectionKey_weight hc.key_eq) (hnot hchild) hstate hboost
  rw [getAttestationScore_eq_ok inv.tree hstored hvotes] at hscore
  rw [getAttestationScore_eq_ok inv.tree (hy.root_mem hsub hn) hvotes] at hscoreY
  rw [getAttestationScore_eq_ok inv.tree (hchild.root_mem hsub hn) hvotes] at hscoreC
  have hdisjoint : stakeOn inv.tree state y + stakeOn inv.tree state c ≤
      s.nonEquivocatingBalance state := by
    refine Nat.le_trans (Forest.stake_add_le fun m hym hcm => ?_) sum_countedVotes_le
    exact heq (Forest.child_unique hcparent hparent hcm hym)
  have hanti : stakeOn inv.tree state (.pending r) ≤ stakeOn inv.tree state y :=
    Forest.stake_anti hyle
  omega

/-- The head walk passes through a block with a majority. -/
theorem Inv.majority_le_head {h : ForkChoiceNode} (hh : s.getHead o = .ok h) :
    inv.tree.nodeForest.Le (.pending r) h := by
  have hsub : ∀ {r b}, blocks.lookup r = some b → s.blocks.lookup r = some b :=
    fun hb => ((lookup_filtered inv.rooted hblocks).1 hb).1
  obtain ⟨b, hb⟩ := mem_iff_lookup.1 hr
  obtain ⟨-, hjustified, -⟩ := (lookup_filtered inv.rooted hblocks).1 hb
  -- the walk is above the block until it reaches it, and below it from then on
  let Passes (n : ForkChoiceNode) : Prop :=
    inv.tree.nodeForest.Le (.pending s.justifiedCheckpoint.root) n ∧
      (inv.tree.nodeForest.Le n (.pending r) ∨ inv.tree.nodeForest.Le (.pending r) n)
  have hstart : Passes (.pending s.justifiedCheckpoint.root) :=
    ⟨Forest.Le.refl _, .inl (inv.tree.pending_le_of_root_le hjustified)⟩
  obtain ⟨⟨hbelow, hpasses⟩, hstored, hleaf⟩ :=
    getHead_inv inv.rooted hblocks hstart (fun {n c children key} hn hmem hc hn' => by
      have hchild := inv.rooted.nodeParent_of_isChild hsub ((hmem c).1 hc.mem)
      refine ⟨hn'.1.trans (Forest.le_of_parent hchild), ?_⟩
      rcases hn'.2 with hle | hle
      · by_cases hne : n = .pending r
        · subst hne
          exact .inr (Forest.le_of_parent hchild)
        · exact .inl (inv.heaviest_le hblocks hr hstate hscore hboost hmajority hn hmem hc hn'.1
            hle hne)
      · exact .inr (hle.trans (Forest.le_of_parent hchild))) hh
  rcases hpasses with hle | hle
  · rcases Forest.le_iff_child.1 hle with rfl | ⟨y, hparent, hyle⟩
    · exact Forest.Le.refl _
    · exact absurd (inv.isChild_of_le hblocks hr hbelow hparent hyle) (hleaf y)
  · exact hle

end

/-- Majority safety. In every store of a run from an accepted anchor, a block of the filtered tree
with a majority of the stake, the proposer boost counted against it, is an ancestor of the head. -/
theorem getHead_of_majority {anchorState : BeaconState} {anchorBlock : BeaconBlock}
    {calls : List Call} {s₀ : Store} (h₀ : getForkchoiceStore anchorState anchorBlock = .ok s₀)
    (hc : NoCollision anchorState anchorBlock (runBlocks anchorBlock calls)) (hs : s = s₀.run calls)
    (hblocks : s.getFilteredBlockTree o = .ok blocks) (hr : r ∈ blocks)
    (hstate : s.getJustifiedState = .ok state)
    (hscore : s.getAttestationScore (.pending r) state = .ok score)
    (hboost : s.getProposerScore = .ok boost)
    (hmajority : s.nonEquivocatingBalance state + boost.val < 2 * score.val) {o' : Orders}
    {head : ForkChoiceNode} (hhead : s.getHead o' = .ok head) : s.IsBlockAncestor r head.root := by
  have inv : Inv (originOfRun h₀ hc) s := hs ▸ Inv.run h₀ hc
  have hle := inv.majority_le_head (getFilteredBlockTree_orders inv.rooted hblocks) hr hstate
    hscore hboost hmajority hhead
  exact inv.tree.isBlockAncestor (inv.tree.root_le hle)

end Majority

end Store

end Moonglass

namespace Moonglass.Devnet

open Lib

set_option maxRecDepth 100000 in
/-- In the small network one vote of the first validator is a majority, and it moves the head from
the rival of the block it is for to a descendant of that block. -/
theorem getHead_of_majority_oneVote :
    (((seed genesis).run rivals).getHead orders).toOption.map ForkChoiceNode.root =
        some rival.message.treeRoot ∧
      ∃ head, ((seed genesis).run oneVote).getHead orders = .ok head ∧
        ((seed genesis).run oneVote).IsBlockAncestor firstBlock.message.treeRoot head.root := by
  have heval : (do
      let s := (seed genesis).run oneVote
      let blocks ← s.getFilteredBlockTree orders
      let state ← s.getJustifiedState
      let score ← s.getAttestationScore (.pending firstBlock.message.treeRoot) state
      let boost ← s.getProposerScore
      let head ← s.getHead orders
      require (firstBlock.message.treeRoot ∈ blocks ∧
        s.nonEquivocatingBalance state + boost.val < 2 * score.val) .weightOverflow
      pure head : Outcome ForkChoiceNode).isOk = true := by decide +kernel
  obtain ⟨_, heval⟩ := exists_ok_of_isOk heval
  simp only [bind_eq_ok, require_eq_ok] at heval
  obtain ⟨blocks, hblocks, state, hstate, score, hscore, boost, hboost, head, hhead, _,
    ⟨hmem, hmajority⟩, -⟩ := heval
  refine ⟨by decide +kernel, head, hhead, ?_⟩
  exact Store.getHead_of_majority seed_genesis (noCollision rfl (by decide)) rfl hblocks hmem hstate
    hscore hboost hmajority hhead

end Moonglass.Devnet
