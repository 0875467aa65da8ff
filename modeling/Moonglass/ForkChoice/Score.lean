import Moonglass.ForkChoice.Tree
import Moonglass.Devnet

/-
  Attestation scores as stake on the node tree: each counted vote lies at one node, and the score
  of a node is the stake of the votes at or below it. Hence the score of a node splits into the
  votes on the node itself and the scores of the nodes under it.
-/

namespace Moonglass

open Lib List HashMap Word

variable [Preset]

namespace Store

/-- A validator with its latest vote. -/
abbrev Vote := ValidatorIndex × LatestMessage

/-- The vote of a validator that counts: none of an equivocator. -/
def voteOf (s : Store) (v : ValidatorIndex) : Option Vote :=
  if v ∈ s.equivocatingIndices then none else (s.latestMessages.lookup v).map fun m => (v, m)

/-- The votes of the active and unslashed validators of `state` that count. -/
def countedVotes (s : Store) (state : BeaconState) : List Vote :=
  (state.activeUnslashedValidatorIndices state.slot.epoch).filterMap s.voteOf

/-- The node a vote resolves to. -/
def votePoint (s : Store) (vote : Vote) : ForkChoiceNode :=
  match s.blocks.lookup vote.2.root with
  | some b => ⟨vote.2.root, vote.2.supportedPayloadStatus b.slot⟩
  | none => .pending vote.2.root

/-- The effective balance of a validator, zero for an unknown one. -/
def effectiveBalanceOf (state : BeaconState) (v : ValidatorIndex) : Nat :=
  ((state.validators.get? v.val).map fun val => val.effectiveBalance.val).getD 0

/-- The effective balance behind a vote. -/
def voteStake (state : BeaconState) (vote : Vote) : Nat := effectiveBalanceOf state vote.1

/-- Every counted vote is for a stored block. -/
def VotesStored (s : Store) (state : BeaconState) : Prop :=
  ∀ vote ∈ s.countedVotes state, vote.2.root ∈ s.blocks

/-- The sum of all effective balances of a state. -/
def totalEffectiveBalance (state : BeaconState) : Nat :=
  (state.validators.toList.map fun v => v.effectiveBalance.val).sum

variable {s : Store} {anchor : Root} {state : BeaconState} {node : ForkChoiceNode}
variable {vote : Vote} {v : ValidatorIndex} {l : List ValidatorIndex} {status : PayloadStatus}
  {n : ForkChoiceNode}

/-- The stake of the counted votes at or below a node. -/
noncomputable def stakeOn (t : BlockTree s anchor) (state : BeaconState) (node : ForkChoiceNode) :
    Nat :=
  t.nodeForest.stake s.votePoint (voteStake state) (s.countedVotes state) node

/-! ## One vote -/

theorem votePoint_root (vote : Vote) : (s.votePoint vote).root = vote.2.root := by
  unfold votePoint
  split <;> rfl

theorem getSupportedNode_ok (h : vote.2.root ∈ s.blocks) :
    s.getSupportedNode vote.2 = .ok (s.votePoint vote) := by
  obtain ⟨b, hb⟩ := mem_iff_lookup.1 h
  simp [getSupportedNode, votePoint, hb]

theorem addVote_of_none (h : s.voteOf v = none) (total : Gwei) :
    s.addVote node state total v = .ok total := by
  unfold addVote
  cases hm : s.latestMessages.lookup v with
  | none => rfl
  | some m =>
    have hv : v ∈ s.equivocatingIndices := by
      by_contra hv
      simp [voteOf, hv, hm] at h
    simp [hv]

/-- What `addVote` does for a validator whose vote counts. -/
theorem addVote_of_some (h : s.voteOf v = some vote) (total : Gwei) :
    s.addVote node state total v = (do
      let supportedNode ← s.getSupportedNode vote.2
      if ← s.isAncestor supportedNode node then
        let val ← orFail (state.validators.get? v.val) (.validatorOutOfBounds v)
        addWeight total val.effectiveBalance
      else pure total) := by
  unfold voteOf at h
  split at h
  · cases h
  · rename_i hv
    obtain ⟨m, hm, rfl⟩ := Option.map_eq_some_iff.1 h
    simp [addVote, hm, hv]

theorem voteOf_fst (h : s.voteOf v = some vote) : vote.1 = v := by
  unfold voteOf at h
  split at h
  · cases h
  · obtain ⟨m, -, rfl⟩ := Option.map_eq_some_iff.1 h
    rfl

theorem mem_activeUnslashed {epoch : Epoch} (h : v ∈ state.activeUnslashedValidatorIndices epoch) :
    ∃ val, state.validators.get? v.val = some val := by
  have h2 := (mem_filter.1 h).2
  cases hv : state.validators.get? v.val with
  | none => rw [hv] at h2; cases h2
  | some val => exact ⟨val, rfl⟩

open Classical in
/-- A counted vote for a stored block adds its stake exactly when it lies at or below the node. -/
theorem addVote_eq (t : BlockTree s anchor) (hnode : node.root ∈ s.blocks)
    (h : s.voteOf v = some vote) (hroot : vote.2.root ∈ s.blocks)
    (hv : ∃ val, state.validators.get? v.val = some val) (total : Gwei) :
    s.addVote node state total v = orFail (total.checkedAdd
      (if t.nodeForest.Le node (s.votePoint vote) then voteStake state vote else 0))
      .weightOverflow := by
  obtain ⟨val, hval⟩ := hv
  have hpoint : (s.votePoint vote).root ∈ s.blocks := by rw [votePoint_root]; exact hroot
  have hstake : voteStake state vote = val.effectiveBalance.val := by
    rw [voteStake, voteOf_fst h, effectiveBalanceOf, hval]; rfl
  rw [addVote_of_some h, getSupportedNode_ok hroot, ok_bind, isAncestor_eq t hpoint hnode, ok_bind]
  by_cases hle : t.nodeForest.Le node (s.votePoint vote)
  · rw [decide_eq_true hle, if_pos rfl, if_pos hle, hval, hstake]
    rfl
  · rw [decide_eq_false hle, if_neg (by simp), if_neg hle, checkedAdd_zero]
    rfl

/-! ## Scores -/

theorem foldlM_addVote (t : BlockTree s anchor) (hnode : node.root ∈ s.blocks)
    (hl : ∀ v ∈ l, ∃ val, state.validators.get? v.val = some val)
    (hroots : ∀ vote ∈ l.filterMap s.voteOf, vote.2.root ∈ s.blocks) (total : Gwei) :
    l.foldlM (s.addVote node state) total = orFail (total.checkedAdd
      (t.nodeForest.stake s.votePoint (voteStake state) (l.filterMap s.voteOf) node))
      .weightOverflow := by
  classical
  induction l generalizing total with
  | nil => exact (congrArg (orFail · _) (checkedAdd_zero total)).symm
  | cons v l ih =>
    have hl' : ∀ u ∈ l, ∃ val, state.validators.get? u.val = some val :=
      fun u hu => hl u (mem_cons_of_mem _ hu)
    rw [foldlM_cons]
    cases hv : s.voteOf v with
    | none =>
      rw [filterMap_cons_none hv] at hroots ⊢
      rw [addVote_of_none hv, ok_bind, ih hl' hroots]
    | some vote =>
      rw [filterMap_cons_some hv] at hroots ⊢
      have hrest := ih hl' fun u hu => hroots u (mem_cons_of_mem _ hu)
      rw [addVote_eq t hnode hv (hroots vote mem_cons_self) (hl v mem_cons_self),
        Forest.stake_cons]
      simp only [hrest]
      exact okOr_checkedAdd_bind total _ _ _

/-- The score of a stored node is its stake, when the stake fits in a `u64`. -/
theorem getAttestationScore_eq_ok (t : BlockTree s anchor) (hnode : node.root ∈ s.blocks)
    (hvotes : s.VotesStored state) {score : Gwei} :
    s.getAttestationScore node state = .ok score ↔ score.val = stakeOn t state node := by
  rw [getAttestationScore, foldlM_addVote t hnode (fun v hv => mem_activeUnslashed hv) hvotes 0,
    orFail_eq_ok, checkedAdd_eq_some]
  simp only [Fin.val_zero, Nat.zero_add]
  rfl

/-- A vote for an unknown block makes every score fail in the same way. -/
theorem foldlM_addVote_dangling (t : BlockTree s anchor)
    (hl : ∀ v ∈ l, ∃ val, state.validators.get? v.val = some val)
    (hbad : ∃ vote ∈ l.filterMap s.voteOf, vote.2.root ∉ s.blocks) :
    ∃ r, r ∉ s.blocks ∧ ∀ node : ForkChoiceNode, node.root ∈ s.blocks → ∀ total : Gwei,
      total.val + ((l.filterMap s.voteOf).map (voteStake state)).sum < 2 ^ 64 →
      l.foldlM (s.addVote node state) total = fail (.unknownBlock r) := by
  classical
  induction l with
  | nil => obtain ⟨vote, h, -⟩ := hbad; cases h
  | cons v l ih =>
    have hl' : ∀ u ∈ l, ∃ val, state.validators.get? u.val = some val :=
      fun u hu => hl u (mem_cons_of_mem _ hu)
    cases hv : s.voteOf v with
    | none =>
      rw [filterMap_cons_none hv] at hbad ⊢
      obtain ⟨r, hr, hfail⟩ := ih hl' hbad
      refine ⟨r, hr, fun node hnode total hsum => ?_⟩
      rw [foldlM_cons, addVote_of_none hv, ok_bind, hfail node hnode total hsum]
    | some vote =>
      rw [filterMap_cons_some hv] at hbad ⊢
      by_cases hroot : vote.2.root ∈ s.blocks
      · obtain ⟨r, hr, hfail⟩ := ih hl' (by
          obtain ⟨u, hu, hur⟩ := hbad
          rcases mem_cons.1 hu with rfl | hu
          · exact absurd hroot hur
          · exact ⟨u, hu, hur⟩)
        refine ⟨r, hr, fun node hnode total hsum => ?_⟩
        rw [map_cons, sum_cons] at hsum
        -- the stored vote adds at most its stake, so the sum still fits behind it
        have hstep := addVote_eq t hnode hv hroot (hl v mem_cons_self) total
        have hfit : total.val + (if t.nodeForest.Le node (s.votePoint vote)
            then voteStake state vote else 0) < 2 ^ 64 := by split <;> omega
        rw [foldlM_cons, hstep]
        obtain ⟨total', htotal⟩ : ∃ total' : Gwei, total.checkedAdd
            (if t.nodeForest.Le node (s.votePoint vote) then voteStake state vote else 0) =
              some total' := ⟨⟨_, hfit⟩, dif_pos hfit⟩
        rw [htotal, orFail_some, ok_bind]
        refine hfail node hnode total' ?_
        have := checkedAdd_eq_some.1 htotal
        split at this <;> omega
      · refine ⟨vote.2.root, hroot, fun node hnode total _ => ?_⟩
        rw [foldlM_cons, addVote_of_some hv, getSupportedNode,
          not_mem_iff_lookup.1 hroot]
        rfl

/-! ## Bounds -/

/-- The effective balance of the active, unslashed validators that are no equivocators. -/
def nonEquivocatingBalance (s : Store) (state : BeaconState) : Nat :=
  (((state.activeUnslashedValidatorIndices state.slot.epoch).filter
    (· ∉ s.equivocatingIndices)).map (effectiveBalanceOf state)).sum

theorem voteStake_eq (h : s.voteOf v = some vote) :
    voteStake state vote = effectiveBalanceOf state v := by
  rw [voteStake, voteOf_fst h]

theorem voteOf_filter (l : List ValidatorIndex) :
    (l.filter (· ∉ s.equivocatingIndices)).filterMap s.voteOf = l.filterMap s.voteOf := by
  induction l with
  | nil => rfl
  | cons v l ih =>
    by_cases hv : v ∈ s.equivocatingIndices
    · have hnone : s.voteOf v = none := if_pos hv
      rw [filter_cons_of_neg (by simpa using hv), filterMap_cons_none hnone, ih]
    · rw [filter_cons_of_pos (by simpa using hv), filterMap_cons, filterMap_cons, ih]

/-- The counted votes weigh at most the validators that may cast one. -/
theorem sum_countedVotes_le : ((s.countedVotes state).map (voteStake state)).sum ≤
    s.nonEquivocatingBalance state := by
  rw [countedVotes, ← voteOf_filter]
  exact Forest.sum_filterMap_le fun v _ vote h => Nat.le_of_eq (voteStake_eq h)

/-- The active validators hold at most the balance of the registry. -/
theorem sum_activeValidators_le (epoch : Epoch) :
    ((state.getActiveValidatorIndices epoch).map (effectiveBalanceOf state)).sum ≤
      totalEffectiveBalance state := by
  have hzip : totalEffectiveBalance state =
      (state.validators.toList.zipIdx.map fun p => p.1.effectiveBalance.val).sum := by
    rw [totalEffectiveBalance]
    conv_lhs => rw [← zipIdx_map_fst 0 state.validators.toList, map_map]
    rfl
  rw [hzip]
  refine Forest.sum_filterMap_le ?_
  rintro ⟨val, i⟩ hmem v hv
  have hget : state.validators.toList[i]? = some val := mem_zipIdx_iff_getElem?.1 hmem
  -- the registry limit keeps every index below 2 ^ 64, so the cast is exact
  have hi : i < 2 ^ 64 := by
    have h1 := (List.getElem?_eq_some_iff.1 hget).1
    have h2 := state.validators.length_le
    have h3 : validatorRegistryLimit < 2 ^ 64 := by decide
    omega
  dsimp only at hv
  split at hv
  · obtain rfl := Option.some.inj hv
    rw [effectiveBalanceOf, BoundedList.get?, wrap_val_of_lt hi, hget]
    exact Nat.le_refl _
  · cases hv

theorem nonEquivocatingBalance_le :
    s.nonEquivocatingBalance state ≤ totalEffectiveBalance state := by
  refine Nat.le_trans ?_ (sum_activeValidators_le state.slot.epoch)
  rw [nonEquivocatingBalance, BeaconState.activeUnslashedValidatorIndices]
  exact ((filter_sublist.trans filter_sublist).map _).sum_le_sum fun _ _ => Nat.zero_le _

theorem sum_votes_lt (hsum : totalEffectiveBalance state < 2 ^ 64) :
    ((s.countedVotes state).map (voteStake state)).sum < 2 ^ 64 :=
  Nat.lt_of_le_of_lt (Nat.le_trans sum_countedVotes_le nonEquivocatingBalance_le) hsum

/-! ## How a score splits -/

/-- The stake of the counted votes that resolve to exactly `node`. -/
def stakeResolvingTo (s : Store) (state : BeaconState) (node : ForkChoiceNode) : Nat :=
  (((s.countedVotes state).filter fun vote =>
    match s.getSupportedNode vote.2 with
    | .ok m => m == node
    | .error _ => false).map (voteStake state)).sum

/-- Is `c` a stored child of `r` whose bid puts `r` in the status `status`? -/
def isOnBranch (s : Store) (r : Root) (status : PayloadStatus) (c : Root) : Bool :=
  match s.blocks.lookup c with
  | some b => decide (b.parentRoot = r ∧ (s.getParentPayloadStatus b).toOption = some status)
  | none => false

/-- The stored children of `r` whose bid puts `r` in the status `status`. -/
def branchChildren (s : Store) (r : Root) (status : PayloadStatus) : Finset Root :=
  s.blocks.keys.filter fun c => s.isOnBranch r status c

theorem mem_branchChildren {r c : Root} :
    c ∈ s.branchChildren r status ↔ ∃ b p, s.blocks.lookup c = some b ∧ b.parentRoot = r ∧
      s.blocks.lookup r = some p ∧ parentBranch b p = status := by
  rw [branchChildren, Finset.mem_filter, Finmap.mem_keys]
  constructor
  · rintro ⟨hc, h⟩
    obtain ⟨b, hb⟩ := mem_iff_lookup.1 hc
    rw [isOnBranch, hb] at h
    obtain ⟨rfl, hst⟩ := of_decide_eq_true h
    cases hp : s.blocks.lookup b.parentRoot with
    | none => rw [getParentPayloadStatus, hp] at hst; cases hst
    | some p =>
      rw [getParentPayloadStatus_ok hp] at hst
      exact ⟨b, p, hb, rfl, rfl, Option.some.inj hst⟩
  · rintro ⟨b, p, hb, rfl, hp, rfl⟩
    refine ⟨mem_of_lookup hb, ?_⟩
    rw [isOnBranch, hb]
    exact decide_eq_true ⟨rfl, by rw [getParentPayloadStatus_ok hp]; rfl⟩

theorem stakeResolvingTo_eq (hvotes : s.VotesStored state) (node : ForkChoiceNode) :
    s.stakeResolvingTo state node =
      Forest.stakeAt s.votePoint (voteStake state) (s.countedVotes state) node := by
  classical
  unfold VotesStored at hvotes
  unfold stakeResolvingTo Forest.stakeAt
  generalize s.countedVotes state = votes at hvotes ⊢
  induction votes with
  | nil => rfl
  | cons vote l ih =>
    have hrest := ih fun u hu => hvotes u (mem_cons_of_mem _ hu)
    have hpoint := getSupportedNode_ok (hvotes vote mem_cons_self)
    rw [map_cons, sum_cons, ← hrest, filter_cons, hpoint]
    by_cases h : s.votePoint vote = node
    · simp [h]
    · simp [h]

/-- The nodes under a pending node are the two decided nodes of its block. -/
theorem nodeParent_eq_pending {r : Root} :
    s.nodeParent anchor n = some (.pending r) ↔ n = .empty r ∨ n = .full r := by
  obtain ⟨q, status⟩ := n
  cases status with
  | pending =>
    constructor
    · intro h
      obtain ⟨-, b, p, -, -, h⟩ := nodeParent_pending.1 h
      have := congrArg ForkChoiceNode.payloadStatus h
      exact absurd this.symm (parentBranch_ne_pending b p)
    · rintro (h | h) <;> cases h
  | empty => simp [nodeParent]
  | full => simp [nodeParent]

/-- The nodes under a decided node are the pending nodes of the children on that branch. -/
theorem nodeParent_eq_decision {r : Root} (hst : status ≠ .pending) :
    s.nodeParent anchor n = some ⟨r, status⟩ ↔
      n.payloadStatus = .pending ∧ n.root ∈ (s.branchChildren r status).erase anchor := by
  obtain ⟨q, status'⟩ := n
  by_cases hp : status' = .pending
  · subst hp
    rw [nodeParent_pending, Finset.mem_erase, mem_branchChildren]
    constructor
    · rintro ⟨hq, b, p, hb, hbp, h⟩
      cases h
      exact ⟨rfl, hq, b, p, hb, rfl, hbp, rfl⟩
    · rintro ⟨-, hq, b, p, hb, rfl, hbp, rfl⟩
      exact ⟨hq, b, p, hb, hbp, rfl⟩
  · rw [nodeParent_decision hp]
    constructor
    · intro h
      exact absurd (congrArg ForkChoiceNode.payloadStatus (Option.some.inj h)).symm hst
    · rintro ⟨h, -⟩
      exact absurd h hp

theorem stakeOn_pending (t : BlockTree s anchor) (hvotes : s.VotesStored state) (r : Root) :
    stakeOn t state (.pending r) = s.stakeResolvingTo state (.pending r) +
      stakeOn t state (.empty r) + stakeOn t state (.full r) := by
  have hsplit : stakeOn t state (.pending r) = _ := Forest.stake_split {.empty r, .full r} fun vote _ y _ => by
      rw [Finset.mem_insert, Finset.mem_singleton]
      exact nodeParent_eq_pending.symm
  rw [Finset.sum_pair (by simp)] at hsplit
  rw [stakeResolvingTo_eq hvotes, hsplit, Nat.add_assoc]
  rfl

theorem stakeOn_decision (t : BlockTree s anchor) (hvotes : s.VotesStored state) (r : Root)
    (hst : status ≠ .pending) :
    stakeOn t state ⟨r, status⟩ = s.stakeResolvingTo state ⟨r, status⟩ +
      ∑ c ∈ (s.branchChildren r status).erase anchor, stakeOn t state (.pending c) := by
  have hinj : Function.Injective ForkChoiceNode.pending := fun a b h =>
    congrArg ForkChoiceNode.root h
  have hsplit : stakeOn t state ⟨r, status⟩ = _ := Forest.stake_split
    (((s.branchChildren r status).erase anchor).map ⟨_, hinj⟩) fun vote _ y _ => by
      refine Iff.trans ?_ (nodeParent_eq_decision hst).symm
      rw [Finset.mem_map]
      constructor
      · rintro ⟨c, hc, rfl⟩
        exact ⟨rfl, hc⟩
      · rintro ⟨hp, hy⟩
        obtain ⟨q, status'⟩ := y
        cases hp
        exact ⟨q, hy, rfl⟩
  rw [stakeResolvingTo_eq hvotes, hsplit, Finset.sum_map]
  rfl

/-- The path to a stored node starts at the pending node of the anchor. -/
theorem isPath_head (t : BlockTree s anchor) {l : List ForkChoiceNode}
    (h : t.nodeForest.IsPath l node) (hnode : node.root ∈ s.blocks) :
    l.head? = some (.pending anchor) := by
  induction h with
  | @root n hn =>
    obtain ⟨r, status⟩ := n
    have hpending : status = .pending := by
      by_contra hst
      have hdecided : s.nodeParent anchor ⟨r, status⟩ = some (.pending r) := nodeParent_decision hst
      cases hdecided.symm.trans hn
    subst hpending
    by_cases hr : r = anchor
    · rw [hr]; rfl
    · obtain ⟨b, hb⟩ := mem_iff_lookup.1 hnode
      obtain ⟨p, hp, -⟩ := t.parent hb hr
      have := (nodeParent_pending.2 ⟨hr, b, p, hb, hp, rfl⟩).symm.trans hn
      cases this
  | step hl hp ih =>
    have h := ih (t.parent_mem hp hnode)
    rw [head?_append, h]
    rfl

/-- Each counted vote is counted on exactly one path from the root of the tree. -/
theorem vote_path (t : BlockTree s anchor) (h : vote.2.root ∈ s.blocks) :
    ∃ point, s.getSupportedNode vote.2 = .ok point ∧ ∃! l : List ForkChoiceNode,
      t.nodeForest.IsPath l point ∧ l.head? = some (.pending anchor) ∧
        ∀ x : ForkChoiceNode, x.root ∈ s.blocks → (s.isAncestor point x = .ok true ↔ x ∈ l) := by
  classical
  have hpoint : (s.votePoint vote).root ∈ s.blocks := by rw [votePoint_root]; exact h
  obtain ⟨l, hl⟩ := t.nodeForest.exists_path (s.votePoint vote)
  refine ⟨s.votePoint vote, getSupportedNode_ok h, l, ⟨hl, isPath_head t hl hpoint, ?_⟩, ?_⟩
  · intro x hx
    rw [isAncestor_eq t hpoint hx, hl.mem_iff]
    simp
  · rintro l' ⟨hl', -⟩
    exact hl'.unique hl

/-- Attestation scores split along the node tree. When every counted vote is for a stored block,
all scores exist; a pending node's score is the stake resolving to it and the scores of its two
decided nodes, a decided node's the stake resolving to it and the scores of the children on its
branch. A vote for an unknown block makes all scores fail alike. -/
theorem getAttestationScore_split (t : BlockTree s anchor)
    (hsum : totalEffectiveBalance state < 2 ^ 64) :
    (s.VotesStored state → ∃ score : ForkChoiceNode → Gwei,
      (∀ node, node.root ∈ s.blocks → s.getAttestationScore node state = .ok (score node)) ∧
      (∀ r ∈ s.blocks, (score (.pending r)).val = s.stakeResolvingTo state (.pending r) +
        (score (.empty r)).val + (score (.full r)).val) ∧
      (∀ r ∈ s.blocks, ∀ status, status ≠ .pending → (score ⟨r, status⟩).val =
        s.stakeResolvingTo state ⟨r, status⟩ +
          ∑ c ∈ (s.branchChildren r status).erase anchor, (score (.pending c)).val) ∧
      (∀ vote ∈ s.countedVotes state, ∃ point, s.getSupportedNode vote.2 = .ok point ∧
        ∃! l : List ForkChoiceNode,
          t.nodeForest.IsPath l point ∧ l.head? = some (.pending anchor) ∧
            ∀ x : ForkChoiceNode, x.root ∈ s.blocks →
              (s.isAncestor point x = .ok true ↔ x ∈ l))) ∧
    (¬s.VotesStored state → ∃ r, r ∉ s.blocks ∧ ∀ node : ForkChoiceNode, node.root ∈ s.blocks →
      s.getAttestationScore node state = fail (.unknownBlock r)) := by
  have hlt := sum_votes_lt (s := s) hsum
  constructor
  · intro hvotes
    have hval : ∀ node, (Word.wrap (stakeOn t state node) : Gwei).val = stakeOn t state node :=
      fun node => wrap_val_of_lt (Nat.lt_of_le_of_lt (Forest.stake_le_sum node) hlt)
    refine ⟨fun node => Word.wrap (stakeOn t state node), ?_, ?_, ?_, ?_⟩
    · intro node hnode
      rw [getAttestationScore_eq_ok t hnode hvotes, hval]
    · intro r _
      simp only [hval]
      exact stakeOn_pending t hvotes r
    · intro r _ status hst
      simp only [hval]
      exact stakeOn_decision t hvotes r hst
    · intro vote hvote
      exact vote_path t (hvotes vote hvote)
  · intro hbad
    obtain ⟨vote, hvote, hroot⟩ : ∃ vote ∈ s.countedVotes state, vote.2.root ∉ s.blocks := by
      by_contra hnone
      refine hbad fun vote hvote => ?_
      by_contra hroot
      exact hnone ⟨vote, hvote, hroot⟩
    obtain ⟨r, hr, hfail⟩ := foldlM_addVote_dangling t (fun v hv => mem_activeUnslashed hv)
      ⟨vote, hvote, hroot⟩
    refine ⟨r, hr, fun node hnode => hfail node hnode 0 ?_⟩
    rw [Fin.val_zero, Nat.zero_add]
    exact hlt

end Store

end Moonglass

namespace Moonglass.Devnet

open Lib

/-- Two blocks, and a vote of the first validator for the second of them in its own slot. -/
def twoBlocks : Store :=
  { seed genesis with
    blocks := (seed genesis).blocks.insert firstBlock.message.treeRoot firstBlock.message
    latestMessages := Finmap.singleton 0 ⟨1, firstBlock.message.treeRoot, false⟩ }

theorem twoBlocks_tree : Store.BlockTree twoBlocks genesis.treeRoot where
  anchor_mem := by decide +kernel
  parent := by
    intro r b hb hr
    change ((seed genesis).blocks.insert _ _).lookup r = some b at hb
    rcases HashMap.of_lookup_insert hb with ⟨-, rfl⟩ | hb
    · refine ⟨genesis, ?_, by decide⟩
      have hne : firstBlock.message.parentRoot ≠ firstBlock.message.treeRoot := by decide +kernel
      exact (Finmap.lookup_insert_of_ne _ hne).trans Finmap.lookup_singleton_eq
    · exact absurd (HashMap.eq_of_lookup_singleton hb).1 hr

/-- The score of the second block is the stake that resolves to it and to its two decisions. -/
theorem getAttestationScore_split_twoBlocks : ∃ pending empty full : Gwei,
    twoBlocks.getAttestationScore (.pending firstBlock.message.treeRoot) (stateAfter genesis) =
      .ok pending ∧
    twoBlocks.getAttestationScore (.empty firstBlock.message.treeRoot) (stateAfter genesis) =
      .ok empty ∧
    twoBlocks.getAttestationScore (.full firstBlock.message.treeRoot) (stateAfter genesis) =
      .ok full ∧
    pending.val = twoBlocks.stakeResolvingTo (stateAfter genesis)
      (.pending firstBlock.message.treeRoot) + empty.val + full.val := by
  have hmem : firstBlock.message.treeRoot ∈ twoBlocks.blocks := by decide +kernel
  have hvotes : twoBlocks.VotesStored (stateAfter genesis) := by
    have heval : (twoBlocks.countedVotes (stateAfter genesis)).all
        (fun vote => vote.2.root ∈ twoBlocks.blocks) = true := by decide +kernel
    exact fun vote hvote => of_decide_eq_true (List.all_eq_true.1 heval vote hvote)
  obtain ⟨score, hscore, hpending, -⟩ :=
    (Store.getAttestationScore_split twoBlocks_tree (by decide +kernel)).1 hvotes
  exact ⟨score (.pending _), score (.empty _), score (.full _), hscore _ hmem, hscore _ hmem,
    hscore _ hmem, hpending _ hmem⟩

end Moonglass.Devnet
