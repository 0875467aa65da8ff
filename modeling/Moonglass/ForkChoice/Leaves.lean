import Moonglass.ForkChoice.Majority
import Moonglass.ForkChoice.Dating

/-
  The viable leaves. `getViableForHeadNodes` lists every node without children below the justified
  root, each with its weight; the head is one of them. The listing needs the weights of all leaves
  where the head walk only needs those along its path, so part of the work is to show that a weight
  exists below every node whose weight exists.
-/

namespace Moonglass

open Lib HashMap Word

variable [Preset] [Crypto]

namespace Store

variable {g : Origin} {s : Store} {anchor : Root} {o : Orders} {n x y : ForkChoiceNode}
variable {blocks : HashMap Root BeaconBlock}

/-- A node without children. -/
def IsTip (s : Store) (blocks : HashMap Root BeaconBlock) (n : ForkChoiceNode) : Prop :=
  ∀ c, ¬s.IsChild blocks n c

/-- `n` is `m` or below it, by steps that head selection may take. -/
def Reaches (s : Store) (blocks : HashMap Root BeaconBlock) (m n : ForkChoiceNode) : Prop :=
  Relation.ReflTransGen (s.IsChild blocks) m n

/-! ## The listing -/

/-- The listing of a leaf. -/
def Listed (s : Store) (o : Orders) (leaves : List WeightedForkChoiceNode) (n : ForkChoiceNode) :
    Prop :=
  ∃ weight, s.getWeight o n = .ok weight ∧ ⟨n.root, n.payloadStatus, weight⟩ ∈ leaves

/-- The stack loop lists every leaf below the nodes on the stack. -/
theorem viableLoop_ok (t : RootedTree s anchor)
    (hblocks : ∀ {r b}, blocks.lookup r = some b → s.blocks.lookup r = some b) (fuel : Nat)
    {stack : List ForkChoiceNode} (out : List WeightedForkChoiceNode)
    (hstack : ∀ n ∈ stack, n.root ∈ s.blocks)
    (hfuel : (stack.map (t.nodeForest.subtree s.nodes)).sum ≤ fuel)
    (hweight : ∀ n ∈ stack, ∀ x, s.Reaches blocks n x → s.IsTip blocks x →
      ∃ weight, s.getWeight o x = .ok weight) :
    ∃ leaves, s.viableLoop o blocks fuel stack out = .ok leaves ∧ (∀ x ∈ out, x ∈ leaves) ∧
      ∀ n ∈ stack, ∀ x, s.Reaches blocks n x → s.IsTip blocks x → s.Listed o leaves x := by
  induction fuel generalizing stack out with
  | zero =>
    cases stack with
    | nil => exact ⟨out, by unfold viableLoop; rfl, fun _ h => h, nofun⟩
    | cons n stack =>
      have hpos : (([] : List ForkChoiceNode).map (t.nodeForest.subtree s.nodes)).sum < _ :=
        Forest.sum_subtree_lt (mem_nodes.2 (hstack n List.mem_cons_self)) List.nodup_nil nofun
      rw [List.map_cons, List.sum_cons] at hfuel
      omega
  | succ fuel ih =>
    cases stack with
    | nil => exact ⟨out, by unfold viableLoop; rfl, fun _ h => h, nofun⟩
    | cons n stack =>
      have hn := hstack n List.mem_cons_self
      obtain ⟨children, hchildren, hnodup, hmem⟩ := getNodeChildren_ok (o := o) blocks hn
      have hsum := Forest.sum_subtree_lt (mem_nodes.2 hn) hnodup
        fun c hc => t.nodeParent_of_isChild hblocks ((hmem c).1 hc)
      rw [List.map_cons, List.sum_cons] at hfuel
      unfold viableLoop
      rw [hchildren, ok_bind]
      by_cases hnil : children = []
      · -- a leaf is listed with its weight
        have htip : s.IsTip blocks n := fun c hc => by
          have := (hmem c).2 hc
          rw [hnil] at this
          exact List.not_mem_nil this
        obtain ⟨weight, hw⟩ := hweight n List.mem_cons_self n .refl htip
        rw [if_pos (by rw [hnil]; rfl), hw, ok_bind]
        obtain ⟨leaves, hleaves, hout, hlisted⟩ :=
          ih (out ++ [⟨n.root, n.payloadStatus, weight⟩])
            (fun m hm => hstack m (List.mem_cons_of_mem _ hm)) (by omega)
            (fun m hm => hweight m (List.mem_cons_of_mem _ hm))
        refine ⟨leaves, hleaves, fun z hz => hout z (List.mem_append_left _ hz), ?_⟩
        intro m hm x hx hxtip
        rcases List.mem_cons.1 hm with rfl | hm
        · rcases Relation.ReflTransGen.cases_head hx with rfl | ⟨c, hc, -⟩
          · exact ⟨weight, hw, hout _ (by simp)⟩
          · exact absurd hc (htip c)
        · exact hlisted m hm x hx hxtip
      · -- an inner node is replaced by its children
        rw [if_neg (by simpa using hnil)]
        have hroots : ∀ m ∈ children.reverse ++ stack, m.root ∈ s.blocks := by
          intro m hm
          rcases List.mem_append.1 hm with hm | hm
          · exact ((hmem m).1 (List.mem_reverse.1 hm)).root_mem hblocks hn
          · exact hstack m (List.mem_cons_of_mem _ hm)
        have hbound : ((children.reverse ++ stack).map (t.nodeForest.subtree s.nodes)).sum ≤
            fuel := by
          rw [List.map_append, List.sum_append, List.map_reverse, List.sum_reverse]
          omega
        obtain ⟨leaves, hleaves, hout, hlisted⟩ := ih out hroots hbound (by
          intro m hm x hx hxtip
          rcases List.mem_append.1 hm with hm | hm
          · exact hweight n List.mem_cons_self x
              (.head ((hmem m).1 (List.mem_reverse.1 hm)) hx) hxtip
          · exact hweight m (List.mem_cons_of_mem _ hm) x hx hxtip)
        refine ⟨leaves, hleaves, hout, ?_⟩
        intro m hm x hx hxtip
        rcases List.mem_cons.1 hm with rfl | hm
        · rcases Relation.ReflTransGen.cases_head hx with rfl | ⟨c, hc, hcx⟩
          · obtain ⟨c, hc⟩ := List.exists_mem_of_ne_nil _ hnil
            exact absurd ((hmem c).1 hc) (hxtip c)
          · exact hlisted c (List.mem_append_left _ (List.mem_reverse.2 ((hmem c).2 hc))) x hcx hxtip
        · exact hlisted m (List.mem_append_right _ hm) x hx hxtip

/-- When the leaves have weights, all of them are listed. -/
theorem getViableForHeadNodes_ok (t : RootedTree s anchor)
    (hblocks : s.getFilteredBlockTree o = .ok blocks)
    (hweight : ∀ x, s.Reaches blocks (.pending s.justifiedCheckpoint.root) x →
      s.IsTip blocks x → ∃ weight, s.getWeight o x = .ok weight) :
    ∃ leaves, s.getViableForHeadNodes o = .ok leaves ∧
      ∀ x, s.Reaches blocks (.pending s.justifiedCheckpoint.root) x → s.IsTip blocks x →
        s.Listed o leaves x := by
  have hfuel : ([ForkChoiceNode.pending s.justifiedCheckpoint.root].map
      (t.nodeForest.subtree s.nodes)).sum ≤ 3 * s.blocks.keys.card + 1 := by
    have h1 := t.nodeForest.subtree_le_card s.nodes (.pending s.justifiedCheckpoint.root)
    have h2 := s.card_nodes_le
    rw [List.map_singleton, List.sum_singleton]
    omega
  obtain ⟨leaves, hleaves, -, hlisted⟩ :=
    viableLoop_ok (o := o) t (fun hb => ((lookup_filtered t hblocks).1 hb).1) _ []
      (by
        intro n hn
        rw [List.mem_singleton.1 hn]
        exact ((getFilteredBlockTree_eq_ok t).1 hblocks).1) hfuel
      (by
        intro n hn
        rw [List.mem_singleton.1 hn]
        exact hweight)
  refine ⟨leaves, ?_, hlisted _ (List.mem_singleton_self _)⟩
  unfold getViableForHeadNodes
  rw [hblocks, ok_bind]
  exact hleaves

/-! ## Weights below a node -/

/-- What the weight of a node that is no decision about the previous slot is computed from. -/
structure Weighed (s : Store) (o : Orders) (n : ForkChoiceNode) (state : BeaconState)
    (score : Gwei) (applies boosted : Bool) (boost : Gwei) : Prop where
  justified : s.getJustifiedState = .ok state
  score_eq : s.getAttestationScore n state = .ok score
  applies_eq : s.shouldApplyProposerBoost o = .ok applies
  boosted_eq : applies = true → s.isAncestor (.pending s.proposerBoostRoot) n = .ok boosted
  boost_eq : applies = true → boosted = true → s.getProposerScore = .ok boost
  fits : applies = true → boosted = true → score.val + boost.val < 2 ^ 64

theorem getWeight_weighed {weight : Gwei} (h : s.getWeight o n = .ok weight)
    (hprevious : s.isPreviousSlotPayloadDecision n = .ok false) :
    ∃ state score applies boosted boost, s.Weighed o n state score applies boosted boost := by
  unfold getWeight at h
  rw [hprevious, ok_bind, if_neg (by simp)] at h
  simp only [bind_eq_ok] at h
  obtain ⟨state, hstate, score, hscore, applies, happlies, h⟩ := h
  have hfalse : ∀ {p : Prop}, false = true → p := fun h => absurd h Bool.false_ne_true
  cases applies with
  | false => exact ⟨state, score, false, false, 0, hstate, hscore, happlies, hfalse, hfalse, hfalse⟩
  | true =>
    rw [if_neg (by simp)] at h
    obtain ⟨boosted, hboosted, h⟩ := bind_eq_ok.1 h
    cases boosted with
    | false =>
      exact ⟨state, score, true, false, 0, hstate, hscore, happlies, fun _ => hboosted,
        fun _ => hfalse, fun _ => hfalse⟩
    | true =>
      rw [if_pos rfl] at h
      obtain ⟨boost, hboost, h⟩ := bind_eq_ok.1 h
      have hsum := checkedAdd_eq_some.1 (orFail_eq_ok.1 h)
      exact ⟨state, score, true, true, boost, hstate, hscore, happlies, fun _ => hboosted,
        fun _ _ => hboost, fun _ _ => hsum ▸ weight.isLt⟩

theorem Weighed.getWeight_ok {state : BeaconState} {score boost : Gwei} {applies boosted : Bool}
    (h : s.Weighed o n state score applies boosted boost)
    (hprevious : s.isPreviousSlotPayloadDecision n = .ok false) :
    ∃ weight, s.getWeight o n = .ok weight := by
  unfold getWeight
  rw [hprevious, ok_bind, if_neg (by simp), h.justified, ok_bind, h.score_eq, ok_bind, h.applies_eq,
    ok_bind]
  cases applies with
  | false => exact ⟨score, rfl⟩
  | true =>
    rw [if_neg (by simp), h.boosted_eq rfl, ok_bind]
    cases boosted with
    | false =>
      refine ⟨score, ?_⟩
      exact orFail_eq_ok.2 (checkedAdd_eq_some.2 rfl)
    | true =>
      rw [if_pos rfl, h.boost_eq rfl rfl, ok_bind]
      refine ⟨⟨score.val + boost.val, h.fits rfl rfl⟩, ?_⟩
      exact orFail_eq_ok.2 (checkedAdd_eq_some.2 rfl)

/-- Below a node that has been weighed, every node can be: it has a part of the stake, and the
boost only if the node has it. -/
theorem Inv.getWeight_of_le (inv : Inv g s) {weight : Gwei} (h : s.getWeight o y = .ok weight)
    (hprevious : s.isPreviousSlotPayloadDecision y = .ok false) (hle : inv.tree.nodeForest.Le y x)
    (hx : x.root ∈ s.blocks) : ∃ weight, s.getWeight o x = .ok weight := by
  obtain ⟨b, hb⟩ := mem_iff_lookup.1 hx
  have hy : y.root ∈ s.blocks := inv.tree.mem_of_le hle hx
  cases hdecision : isNextSlot b.slot s.getCurrentSlot && x.isPayloadDecision with
  | true =>
    refine ⟨0, ?_⟩
    rw [getWeight, isPreviousSlotPayloadDecision_eq hb, hdecision]
    rfl
  | false =>
    have hxprevious : s.isPreviousSlotPayloadDecision x = .ok false := by
      rw [isPreviousSlotPayloadDecision_eq hb, hdecision]
    obtain ⟨state, score, applies, boosted, boost, hw⟩ := getWeight_weighed h hprevious
    have hvotes := inv.votesStored state
    have hscore := (getAttestationScore_eq_ok inv.tree hy hvotes).1 hw.score_eq
    have hanti : stakeOn inv.tree state x ≤ stakeOn inv.tree state y := Forest.stake_anti hle
    have hlt := score.isLt
    have hscoreX : s.getAttestationScore x state =
        .ok ⟨stakeOn inv.tree state x, by omega⟩ :=
      (getAttestationScore_eq_ok inv.tree hx hvotes).2 rfl
    cases applies with
    | false =>
      have hwx : s.Weighed o x state ⟨stakeOn inv.tree state x, by omega⟩ false false 0 :=
        ⟨hw.justified, hscoreX, hw.applies_eq, nofun, nofun, nofun⟩
      exact hwx.getWeight_ok hxprevious
    | true =>
      classical
      -- the boosted block is stored, since the ancestry of the node above it was decided
      have hboostMem : s.proposerBoostRoot ∈ s.blocks := by
        have hanc := hw.boosted_eq rfl
        unfold isAncestor getAncestor getAncestorLoop at hanc
        obtain ⟨_, -, hanc⟩ := bind_eq_ok.1 hanc
        obtain ⟨_, hanc, -⟩ := bind_eq_ok.1 hanc
        obtain ⟨p, hp, -⟩ := bind_eq_ok.1 hanc
        exact mem_of_lookup (orFail_eq_ok.1 hp)
      have hanc : boosted = decide (inv.tree.nodeForest.Le y (.pending s.proposerBoostRoot)) :=
        Except.ok.inj ((hw.boosted_eq rfl).symm.trans (isAncestor_eq inv.tree hboostMem hy))
      have habove : decide (inv.tree.nodeForest.Le x (.pending s.proposerBoostRoot)) = true →
          boosted = true := by
        intro hxle
        rw [hanc, decide_eq_true_iff]
        exact hle.trans (of_decide_eq_true hxle)
      have hwx : s.Weighed o x state ⟨stakeOn inv.tree state x, by omega⟩ true
          (decide (inv.tree.nodeForest.Le x (.pending s.proposerBoostRoot))) boost :=
        ⟨hw.justified, hscoreX, hw.applies_eq, fun _ => isAncestor_eq inv.tree hboostMem hx,
          fun _ hb => hw.boost_eq rfl (habove hb), fun _ hb => by
            have hfits := hw.fits rfl (habove hb)
            show stakeOn inv.tree state x + boost.val < 2 ^ 64
            omega⟩
      exact hwx.getWeight_ok hxprevious

/-! ## The head is a leaf of the listing -/

/-- When the walk goes on from a node, all its children have keys, and it goes on to one of them. -/
theorem getHeadLoop_child {fuel : Nat} {h c : ForkChoiceNode} (hn : n.root ∈ s.blocks)
    (hh : s.getHeadLoop o blocks fuel n = .ok h) (hc : s.IsChild blocks n c) :
    (∃ key, s.headSelectionKey o c = .ok key) ∧ ∃ fuel' next, s.IsChild blocks n next ∧
      s.getHeadLoop o blocks fuel' next = .ok h := by
  cases fuel with
  | zero => cases hh
  | succ fuel =>
    unfold getHeadLoop at hh
    obtain ⟨children, hchildren, -, hmem⟩ := getNodeChildren_ok (o := o) blocks hn
    rw [hchildren, ok_bind] at hh
    obtain ⟨next, hnext, hh⟩ := bind_eq_ok.1 hh
    rcases selectHeaviestChild_cases hnext with ⟨rfl, -⟩ | ⟨next, key, rfl, hheaviest⟩
    · exact absurd ((hmem c).2 hc) List.not_mem_nil
    · obtain ⟨key', hkey', -⟩ := hheaviest.le c ((hmem c).2 hc)
      exact ⟨⟨key', hkey'⟩, fuel, next, (hmem next).1 hheaviest.mem, hh⟩

/-- The head walk fails at the anchor in the slot after it, once its payload is recorded: the anchor
has no payload votes. -/
theorem Inv.anchor_full_key (inv : Inv g s) {key : HeadKey} (hpayload : g.root ∈ s.payloads)
    (hnext : isNextSlot g.anchor.slot s.getCurrentSlot = true) :
    s.headSelectionKey o (.full g.root) ≠ .ok key := by
  intro h
  unfold headSelectionKey at h
  obtain ⟨_, -, h⟩ := bind_eq_ok.1 h
  obtain ⟨_, h, -⟩ := bind_eq_ok.1 h
  have hvotes : s.payloadTimelinessVote.lookup g.root = none := by
    have hlength := inv.timelinessVote g.root
    rw [if_neg (by simp)] at hlength
    exact Option.map_eq_none_iff.1 hlength
  have hanchor : s.blocks.lookup (ForkChoiceNode.full g.root).root = some g.anchor :=
    inv.anchor_block
  have hverified : s.isPayloadVerified g.root = true := decide_eq_true hpayload
  rw [getPayloadStatusTiebreaker, isPreviousSlotPayloadDecision_eq hanchor, hnext] at h
  simp only [ok_bind, ForkChoiceNode.isPayloadDecision, PayloadStatus.isPayloadDecision,
    Bool.and_self, if_true, shouldExtendPayload, inv.anchor_block, orFail_some, hnext, hverified,
    Bool.not_true, Bool.false_eq_true, if_false, payloadTimeliness, hvotes, orFail_none] at h
  cases h

/-- Every leaf below the justified root can be weighed when the head walk succeeds. -/
theorem Inv.tip_weight (inv : Inv g s) (dated : Dated g s)
    (hblocks : s.getFilteredBlockTree o = .ok blocks) {h : ForkChoiceNode}
    (hh : s.getHead o = .ok h) (hx : s.Reaches blocks (.pending s.justifiedCheckpoint.root) x)
    (htip : s.IsTip blocks x) : ∃ weight, s.getWeight o x = .ok weight := by
  have hsub : ∀ {r b}, blocks.lookup r = some b → s.blocks.lookup r = some b :=
    fun hb => ((lookup_filtered inv.rooted hblocks).1 hb).1
  have hj : s.justifiedCheckpoint.root ∈ s.blocks :=
    ((getFilteredBlockTree_eq_ok inv.rooted).1 hblocks).1
  have hreach : ∀ {m n : ForkChoiceNode}, s.Reaches blocks m n → m.root ∈ s.blocks →
      inv.tree.nodeForest.Le m n ∧ n.root ∈ s.blocks := by
    intro m n hmn hm
    induction hmn with
    | refl => exact ⟨Forest.Le.refl _, hm⟩
    | tail _ hstep ih =>
      exact ⟨ih.1.trans (Forest.le_of_parent (inv.rooted.nodeParent_of_isChild hsub hstep)),
        hstep.root_mem hsub ih.2⟩
  unfold getHead at hh
  rw [hblocks, ok_bind] at hh
  obtain ⟨b, hb⟩ := mem_iff_lookup.1 hj
  rcases Relation.ReflTransGen.cases_head hx with rfl | ⟨y, hy, hyx⟩
  · exact absurd (show s.IsChild blocks (.pending s.justifiedCheckpoint.root)
      (.empty s.justifiedCheckpoint.root) from .inl rfl) (htip _)
  have hyroot : y.root = s.justifiedCheckpoint.root := by
    rcases hy with rfl | ⟨rfl, -⟩ <;> rfl
  have hyb : s.blocks.lookup y.root = some b := hyroot ▸ hb
  obtain ⟨⟨key, hkey⟩, fuel, next, hnext, hwalk⟩ := getHeadLoop_child hj hh hy
  obtain ⟨hle, hxmem⟩ := hreach hyx (mem_of_lookup hyb)
  cases hprevious : isNextSlot b.slot s.getCurrentSlot with
  | false =>
    refine inv.getWeight_of_le (headSelectionKey_weight hkey) ?_ hle hxmem
    rw [isPreviousSlotPayloadDecision_eq hyb, hprevious]
    rfl
  | true =>
    -- the justified block is of the previous slot, so it is the anchor, without its payload
    have hanchor : s.justifiedCheckpoint.root = g.root := by
      by_contra hne
      have hlt := dated.justified_slot inv hb hne
      rw [isNextSlot, beq_iff_eq, checkedAdd_eq_some] at hprevious
      omega
    rw [hanchor, inv.anchor_block] at hb
    cases hb
    have hno : s.justifiedCheckpoint.root ∉ s.payloads := by
      intro hpayload
      obtain ⟨⟨key, hkey⟩, -⟩ := getHeadLoop_child hj hh (c := .full s.justifiedCheckpoint.root)
        (.inr ⟨rfl, hpayload⟩)
      rw [hanchor] at hkey hpayload
      exact inv.anchor_full_key hpayload hprevious hkey
    have honly : ∀ {c}, s.IsChild blocks (.pending s.justifiedCheckpoint.root) c →
        c = .empty s.justifiedCheckpoint.root := fun hc => hc.resolve_right fun h => hno h.2
    cases honly hy
    cases honly hnext
    rcases Relation.ReflTransGen.cases_head hyx with rfl | ⟨z, hz, hzx⟩
    · refine ⟨0, ?_⟩
      rw [getWeight, isPreviousSlotPayloadDecision_eq hyb, hprevious]
      rfl
    · obtain ⟨⟨key, hkey⟩, -⟩ := getHeadLoop_child hj hwalk hz
      obtain ⟨hle, hxmem⟩ := hreach hzx (hz.root_mem hsub hj)
      obtain ⟨c, hc⟩ := mem_iff_lookup.1 (hz.root_mem hsub hj)
      refine inv.getWeight_of_le (headSelectionKey_weight hkey) ?_ hle hxmem
      obtain ⟨hstatus, -⟩ := hz
      rw [isPreviousSlotPayloadDecision_eq hc, ForkChoiceNode.isPayloadDecision, hstatus]
      simp [PayloadStatus.isPayloadDecision]

/-- The way to the head, and what is known of it at its end. -/
theorem Inv.head_reached (inv : Inv g s) (hblocks : s.getFilteredBlockTree o = .ok blocks)
    (hh : s.getHead o = .ok n) :
    s.Reaches blocks (.pending s.justifiedCheckpoint.root) n ∧
      (n.payloadStatus = .full → n.root ∈ s.payloads) ∧ s.IsTip blocks n := by
  obtain ⟨⟨hreach, hfull⟩, -, htip⟩ := getHead_inv inv.rooted
    (P := fun n => s.Reaches blocks (.pending s.justifiedCheckpoint.root) n ∧
      (n.payloadStatus = .full → n.root ∈ s.payloads)) hblocks ⟨.refl, nofun⟩ (by
      rintro n c children key - hmem hc ⟨hreach, -⟩
      have hchild := (hmem c).1 hc.mem
      refine ⟨hreach.tail hchild, ?_⟩
      unfold IsChild at hchild
      split at hchild
      · rcases hchild with rfl | ⟨rfl, hpayload⟩
        · exact nofun
        · exact fun _ => hpayload
      · rw [hchild.1]
        exact nofun) hh
  exact ⟨hreach, hfull, htip⟩

/-- Head selection in every store of a run from an accepted anchor: the filter and the walk end;
and a head that is returned is the same for every iteration order, is one of the viable leaves,
decides about a payload, about a recorded one if it is full, and lies below the justified root. -/
theorem getHead_sound {anchorState : BeaconState} {anchorBlock : BeaconBlock} {calls : List Call}
    {s₀ : Store} (h₀ : getForkchoiceStore anchorState anchorBlock = .ok s₀)
    (hc : NoCollision anchorState anchorBlock (runBlocks anchorBlock calls))
    (hs : s = s₀.run calls) :
    (∀ o, Returns (s.getFilteredBlockTree o) ∧ Returns (s.getHead o)) ∧
    ∀ o n, s.getHead o = .ok n → ∀ o',
      s.getHead o' = .ok n ∧
      (∃ leaves weight, s.getViableForHeadNodes o' = .ok leaves ∧
        ⟨n.root, n.payloadStatus, weight⟩ ∈ leaves) ∧
      n.payloadStatus ≠ .pending ∧
      (n.payloadStatus = .full → n.root ∈ s.payloads) ∧
      s.IsBlockAncestor s.justifiedCheckpoint.root n.root := by
  have inv : Inv (originOfRun h₀ hc) s := hs ▸ Inv.run h₀ hc
  have dated : Dated (originOfRun h₀ hc) s := hs ▸ Dated.run h₀ hc
  refine ⟨fun o => ⟨getFilteredBlockTree_returns inv.rooted, getHead_returns inv.rooted⟩, ?_⟩
  intro o n hh o'
  have hh' : s.getHead o' = .ok n := getHead_orders inv.rooted inv.timeliness hh
  obtain ⟨blocks, hblocks, -⟩ := bind_eq_ok.1 hh'
  obtain ⟨hreach, hfull, htip⟩ := inv.head_reached hblocks hh'
  obtain ⟨leaves, hleaves, hlisted⟩ := getViableForHeadNodes_ok inv.rooted hblocks
    fun x hx hxtip => inv.tip_weight dated hblocks hh' hx hxtip
  obtain ⟨weight, -, hmem⟩ := hlisted n hreach htip
  refine ⟨hh', ⟨leaves, weight, hleaves, hmem⟩, fun hpending => ?_, hfull, ?_⟩
  · -- a pending node always has the empty one below it
    refine htip (.empty n.root) ?_
    unfold IsChild
    rw [if_pos hpending]
    exact .inl rfl
  · exact inv.tree.isBlockAncestor (inv.tree.root_le (justified_le_head inv.rooted hh'))

end Store

end Moonglass

namespace Moonglass.Devnet

open Lib

set_option maxRecDepth 100000 in
/-- On the fork of the small network the vote moves the head from one leaf to the other, and the new
head is a decision about a viable leaf, whatever the iteration order. -/
theorem getHead_sound_oneVote : ∃ n n', ∀ o, ((seed genesis).run rivals).getHead o = .ok n ∧
    ((seed genesis).run oneVote).getHead o = .ok n' ∧ n.root ≠ n'.root ∧
    n.payloadStatus ≠ .pending ∧ n'.payloadStatus ≠ .pending := by
  have heval : (do
      let n ← ((seed genesis).run rivals).getHead orders
      let n' ← ((seed genesis).run oneVote).getHead orders
      require (n.root ≠ n'.root) .weightOverflow : Outcome Unit).isOk = true := by decide +kernel
  obtain ⟨_, heval⟩ := exists_ok_of_isOk heval
  simp only [bind_eq_ok, require_eq_ok] at heval
  obtain ⟨n, hn, n', hn', hne⟩ := heval
  have hsound := (Store.getHead_sound seed_genesis (noCollision rfl (by decide)) rfl).2 orders n hn
  have hsound' :=
    (Store.getHead_sound seed_genesis (noCollision rfl (by decide)) rfl).2 orders n' hn'
  exact ⟨n, n', fun o => ⟨(hsound o).1, (hsound' o).1, hne, (hsound o).2.2.1, (hsound' o).2.2.1⟩⟩

end Moonglass.Devnet
