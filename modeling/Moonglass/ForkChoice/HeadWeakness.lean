import Moonglass.Lib.Tally
import Moonglass.ForkChoice.Majority
import Moonglass.ForkChoice.VoteOrder
import Moonglass.StateTransition.AttesterExpansion
import Moonglass.StateTransition.Lifecycle
import Moonglass.StateTransition.Selection

/-
  The weight of a head in the re-org guard: the stake of the votes for it, and the stake of the
  equivocators in the committees of its own slot. Evidence of an equivocation takes the vote of the
  offender away, and gives its stake back only if it sits in one of those committees. So a vote of
  a later committee is lost, and evidence can make a head weak.
-/

namespace Moonglass

open Lib List HashMap BeaconState Word

variable [Preset] [Crypto]
variable {v : ValidatorIndex} {slashing : AttesterSlashing} {blk : BeaconBlock → Prop}

/-- Slots and blocks never take a validator out of the registry. -/
theorem Runs.validators_length_le {s s' : BeaconState} {events : List ChainEvent}
    (h : Runs s events s') : s.validators.length ≤ s'.validators.length := by
  refine h.registry_inv (P := fun r => s.validators.length ≤ r.validators.length)
    (fun move hr => ?_) (fun _ hr => hr) (Nat.le_refl _)
  rcases move.grows with hsame | ⟨v, -, hentered⟩
  · rw [hsame]
    exact hr
  · rw [hentered, length_append]
    exact hr.trans (Nat.le_add_right _ _)

namespace Store

variable {g : Origin} {s s' : Store} {root : Root} {state headState : BeaconState}
  {headBlock : BeaconBlock} {threshold : Gwei}

/-! ## The weight of a head -/

/-- The latest message of the validator is for the block or a descendant. -/
def backs (s : Store) (root : Root) (v : ValidatorIndex) : Bool :=
  match s.latestMessages.lookup v with
  | none => false
  | some message =>
    match (do s.isAncestor (← s.getSupportedNode message) (.pending root) : Outcome Bool) with
    | .ok backed => backed
    | .error _ => false

/-- The active, unslashed validators of `state` whose latest message is for the block. -/
def supporters (s : Store) (state : BeaconState) (root : Root) : Finset ValidatorIndex :=
  ((state.activeUnslashedValidatorIndices state.slot.epoch).filter (s.backs root)).toFinset

/-- The beacon committees of a slot. -/
def slotCommittees (state : BeaconState) (slot : Slot) : List (List ValidatorIndex) :=
  (List.range (state.getCommitteeCountPerSlot slot.epoch)).map fun index =>
    (state.getBeaconCommittee slot (Word.wrap index)).toOption.getD []

/-- The members of the committees of a block's own slot, by the block's state. -/
def headCommittees (s : Store) (root : Root) : Finset ValidatorIndex :=
  match s.blockStates.lookup root, s.blocks.lookup root with
  | some state, some block => (slotCommittees state block.slot).flatten.toFinset
  | _, _ => ∅

/-- The stake that the re-org guard counts for a block: that of its supporters that are no
equivocators, and that of the equivocators in its own committees. -/
def headWeight (s : Store) (state : BeaconState) (root : Root) : Nat :=
  ∑ v ∈ s.supporters state root \ s.equivocatingIndices, effectiveBalanceOf state v +
    ∑ v ∈ s.headCommittees root ∩ s.equivocatingIndices, effectiveBalanceOf state v

/-- The validators that a slashing newly shows to be equivocators. -/
def newEquivocators (s : Store) (slashing : AttesterSlashing) : Finset ValidatorIndex :=
  slashing.equivocators \ s.equivocatingIndices

/-- The stake that a slashing takes from a block for good: new equivocators that support it from
outside its committees. -/
def departingStake (s : Store) (state : BeaconState) (root : Root) (slashing : AttesterSlashing) :
    Nat :=
  ∑ v ∈ (s.supporters state root ∩ s.newEquivocators slashing) \ s.headCommittees root,
    effectiveBalanceOf state v

/-- The stake that a slashing brings to a block: new equivocators in its committees that do not
support it. -/
def arrivingStake (s : Store) (state : BeaconState) (root : Root) (slashing : AttesterSlashing) :
    Nat :=
  ∑ v ∈ (s.headCommittees root ∩ s.newEquivocators slashing) \ s.supporters state root,
    effectiveBalanceOf state v

/-! ## Votes -/

theorem addVote_backs (inv : Inv g s) (hroot : root ∈ s.blocks)
    (hv : ∃ val, state.validators.get? v.val = some val) (total : Gwei) :
    s.addVote (.pending root) state total v = orFail (total.checkedAdd
      (if s.backs root v = true ∧ v ∉ s.equivocatingIndices then effectiveBalanceOf state v else 0))
      .weightOverflow := by
  obtain ⟨val, hval⟩ := hv
  have hstake : effectiveBalanceOf state v = val.effectiveBalance.val := by
    rw [effectiveBalanceOf, hval]
    rfl
  have hzero : orFail (total.checkedAdd 0) .weightOverflow = .ok total := by
    rw [checkedAdd_zero, orFail_some]
  unfold addVote backs
  cases hm : s.latestMessages.lookup v with
  | none => simp
  | some message =>
    by_cases hequivocating : v ∈ s.equivocatingIndices
    · simp [hequivocating]
    · -- the vote is for a stored block, so both lookups succeed
      obtain ⟨b, hb, -⟩ := (inv.vote hm).block
      have hnode : s.getSupportedNode message = .ok (s.votePoint (v, message)) :=
        @getSupportedNode_ok _ s (v, message) (mem_of_lookup hb)
      have hpoint : (s.votePoint (v, message)).root ∈ s.blocks := by
        rw [votePoint_root]
        exact mem_of_lookup hb
      have hpending : (ForkChoiceNode.pending root).root ∈ s.blocks := hroot
      obtain ⟨backed, hbacked⟩ : ∃ backed,
          s.isAncestor (s.votePoint (v, message)) (.pending root) = .ok backed :=
        ⟨_, isAncestor_eq inv.tree hpoint hpending⟩
      simp only [hnode, ok_bind, hbacked, hval, orFail_some, not_false_eq_true, hequivocating,
        and_true]
      cases backed with
      | true =>
        rw [if_pos rfl, hstake]
        rfl
      | false => exact hzero.symm

omit [Crypto] in
theorem activeUnslashed_nodup (state : BeaconState) (epoch : Epoch) :
    (state.activeUnslashedValidatorIndices epoch).Nodup :=
  (state.getActiveValidatorIndices_nodup epoch).filter _

/-- The score of a stored block is the stake of its supporters that are no equivocators. -/
theorem getAttestationScore_backs (inv : Inv g s) (hroot : root ∈ s.blocks) :
    s.getAttestationScore (.pending root) state = orFail ((0 : Gwei).checkedAdd
      (∑ v ∈ s.supporters state root \ s.equivocatingIndices, effectiveBalanceOf state v))
      .weightOverflow := by
  have hset : s.supporters state root \ s.equivocatingIndices =
      (state.activeUnslashedValidatorIndices state.slot.epoch).toFinset.filter
        fun v => s.backs root v = true ∧ v ∉ s.equivocatingIndices := by
    ext v
    simp only [supporters, Finset.mem_sdiff, mem_toFinset, mem_filter, Finset.mem_filter,
      and_assoc]
  rw [hset, Finset.sum_filter, sum_toFinset _ (activeUnslashed_nodup state _)]
  exact foldlM_checkedAdd
    (fun total v hv => addVote_backs inv hroot (mem_activeUnslashed hv) total) 0

/-! ## Committees -/

/-- What the guard reads for a block, when it finds all of it: the justified state, the threshold,
the block and its state, the committees of its slot, and the equivocators among them in the
registry of the justified state. -/
structure HeadParts (s : Store) (root : Root) (state : BeaconState) (threshold : Gwei)
    (headState : BeaconState) (headBlock : BeaconBlock) : Prop where
  justified : s.getJustifiedState = .ok state
  fraction : calculateCommitteeFraction state reorgHeadWeightThreshold = .ok threshold
  head_state : s.blockStates.lookup root = some headState
  head_block : s.blocks.lookup root = some headBlock
  committees : ∀ index < headState.getCommitteeCountPerSlot headBlock.slot.epoch,
    ∃ committee, headState.getBeaconCommittee headBlock.slot (Word.wrap index) = .ok committee ∧
      ∀ v ∈ committee, v ∈ s.equivocatingIndices →
        ∃ val, state.validators.get? v.val = some val

/-- A guard that answers has found its parts. -/
theorem HeadParts.of_isHeadWeak {weak : Bool} (h : s.isHeadWeak root = .ok weak) :
    ∃ state threshold headState headBlock,
      HeadParts s root state threshold headState headBlock := by
  unfold isHeadWeak at h
  simp only [bind_eq_ok] at h
  obtain ⟨state, hstate, threshold, hthreshold, headState, hheadState, headBlock, hheadBlock,
    score, -, weight, hloop, -⟩ := h
  refine ⟨state, threshold, headState, headBlock, hstate, hthreshold, orFail_eq_ok.1 hheadState,
    orFail_eq_ok.1 hheadBlock, fun index hindex => ?_⟩
  -- every turn of the loop has succeeded, and so has every lookup in it
  obtain ⟨_, _, hturn⟩ := foldlM_step_ok hloop (mem_range.2 hindex)
  obtain ⟨committee, hcommittee, hturn⟩ := bind_eq_ok.1 hturn
  obtain ⟨_, hweight, -⟩ := bind_eq_ok.1 hturn
  refine ⟨committee, ofTransition_eq_ok.1 hcommittee, fun v hv hequivocating => ?_⟩
  have hmem : v ∈ committee.filter (· ∈ s.equivocatingIndices) :=
    mem_filter.2 ⟨hv, decide_eq_true hequivocating⟩
  obtain ⟨_, _, hadd⟩ := foldlM_step_ok hweight hmem
  obtain ⟨val, hval, -⟩ := bind_eq_ok.1 hadd
  exact ⟨val, orFail_eq_ok.1 hval⟩

omit [Crypto] in
theorem equivocatingCommitteeWeight_eq {committee : List ValidatorIndex}
    (hregistered : ∀ v ∈ committee, v ∈ s.equivocatingIndices →
      ∃ val, state.validators.get? v.val = some val) :
    s.equivocatingCommitteeWeight state committee = orFail ((0 : Gwei).checkedAdd
      ((committee.filter (· ∈ s.equivocatingIndices)).map (effectiveBalanceOf state)).sum)
      .weightOverflow := by
  refine foldlM_checkedAdd (fun total v hv => ?_) 0
  obtain ⟨hv, hequivocating⟩ := mem_filter.1 hv
  obtain ⟨val, hval⟩ := hregistered v hv (of_decide_eq_true hequivocating)
  have hstake : effectiveBalanceOf state v = val.effectiveBalance.val := by
    rw [effectiveBalanceOf, hval]
    rfl
  rw [hval, orFail_some, ok_bind, hstake]
  rfl

namespace HeadParts

variable (parts : HeadParts s root state threshold headState headBlock)

include parts

theorem root_mem : root ∈ s.blocks := mem_of_lookup parts.head_block

theorem headCommittees_eq :
    s.headCommittees root = (slotCommittees headState headBlock.slot).flatten.toFinset := by
  unfold headCommittees
  rw [parts.head_state, parts.head_block]

/-- No validator sits in two committees of the slot, or twice in one. -/
theorem nodup : (slotCommittees headState headBlock.slot).flatten.Nodup := by
  have hcount := (headState.getCommitteeCountPerSlot_bounds headBlock.slot.epoch).2
  have hindices : ((List.range (headState.getCommitteeCountPerSlot headBlock.slot.epoch)).map
      (Word.wrap : Nat → CommitteeIndex)).Nodup := by
    refine nodup_range.map_on fun i hi j hj heq => ?_
    rw [mem_range] at hi hj
    exact wrap_inj (by omega) (by omega) heq
  suffices hmapM : ((List.range (headState.getCommitteeCountPerSlot headBlock.slot.epoch)).map
      Word.wrap).mapM (headState.getBeaconCommittee headBlock.slot) =
      .ok (slotCommittees headState headBlock.slot) from
    mapM_getBeaconCommittee_nodup hindices hmapM
  rw [mapM_map]
  refine mapM_eq_map fun index hindex => ?_
  obtain ⟨committee, hcommittee, -⟩ := parts.committees index (mem_range.1 hindex)
  rw [Function.comp_apply, hcommittee]
  rfl

/-- The guard compares the weight with the threshold, if the weight fits. -/
theorem isHeadWeak_eq (inv : Inv g s) : s.isHeadWeak root = (do
      let weight ← orFail ((0 : Gwei).checkedAdd (s.headWeight state root)) .weightOverflow
      pure (decide (weight < threshold))) := by
  let stakeOf : Nat → Nat := fun index =>
    ((((headState.getBeaconCommittee headBlock.slot (Word.wrap index)).toOption.getD []).filter
      (· ∈ s.equivocatingIndices)).map (effectiveBalanceOf state)).sum
  have hturn : ∀ total : Gwei, ∀ index ∈
      List.range (headState.getCommitteeCountPerSlot headBlock.slot.epoch), (do
        let committee ← ofTransition
          (headState.getBeaconCommittee headBlock.slot (Word.wrap index))
        let weight ← s.equivocatingCommitteeWeight state committee
        addWeight total weight) = orFail (total.checkedAdd (stakeOf index)) .weightOverflow := by
    intro total index hindex
    obtain ⟨committee, hcommittee, hregistered⟩ :=
      parts.committees index (mem_range.1 hindex)
    have hstake : stakeOf index = ((committee.filter (· ∈ s.equivocatingIndices)).map
        (effectiveBalanceOf state)).sum := by
      show ((((headState.getBeaconCommittee headBlock.slot _).toOption.getD []).filter _).map _).sum
        = _
      rw [hcommittee]
      rfl
    rw [hcommittee, hstake]
    show (s.equivocatingCommitteeWeight state committee >>= fun weight => addWeight total weight) = _
    rw [equivocatingCommitteeWeight_eq hregistered]
    exact okOr_checkedAdd_val total _ _
  have hstakes : ((List.range (headState.getCommitteeCountPerSlot headBlock.slot.epoch)).map
      stakeOf).sum =
      ∑ v ∈ s.headCommittees root ∩ s.equivocatingIndices, effectiveBalanceOf state v := by
    have hset : s.headCommittees root ∩ s.equivocatingIndices =
        ((slotCommittees headState headBlock.slot).flatten.filter
          (· ∈ s.equivocatingIndices)).toFinset := by
      rw [parts.headCommittees_eq]
      ext v
      simp only [Finset.mem_inter, mem_toFinset, mem_filter, decide_eq_true_eq]
    rw [hset, sum_toFinset _ (parts.nodup.filter _), filter_flatten, map_flatten,
      sum_flatten, slotCommittees, map_map, map_map, map_map]
    rfl
  have hloop := fun total : Gwei => foldlM_checkedAdd hturn total
  unfold isHeadWeak
  rw [parts.justified, ok_bind, parts.fraction, ok_bind, parts.head_state, orFail_some, ok_bind,
    parts.head_block, orFail_some, ok_bind, getAttestationScore_backs inv parts.root_mem]
  dsimp only
  simp only [hloop, hstakes]
  rw [← bind_assoc]
  exact congrArg (· >>= fun weight : Gwei => pure (decide (weight < threshold)))
    (okOr_checkedAdd_bind 0 _ _ _)

theorem isHeadWeak_eq_false (inv : Inv g s) : s.isHeadWeak root = .ok false ↔
      threshold.val ≤ s.headWeight state root ∧ s.headWeight state root < 2 ^ 64 := by
  rw [parts.isHeadWeak_eq inv, bind_eq_ok]
  constructor
  · rintro ⟨weight, hweight, hstrong⟩
    have hval : weight.val = 0 + s.headWeight state root :=
      checkedAdd_eq_some.1 (orFail_eq_ok.1 hweight)
    have hle : ¬weight.val < threshold.val := of_decide_eq_false (Except.ok.inj hstrong)
    have hlt := weight.isLt
    omega
  · rintro ⟨hle, hlt⟩
    refine ⟨⟨s.headWeight state root, hlt⟩, orFail_eq_ok.2 (checkedAdd_eq_some.2 ?_), ?_⟩
    · exact (Nat.zero_add _).symm
    · exact congrArg Except.ok (decide_eq_false (Nat.not_lt.2 hle))

/-- The parts of the guard after more validators are known to equivocate. -/
theorem equivocate {offenders : Finset ValidatorIndex}
    (hregistered : ∀ v ∈ offenders, ∃ val, state.validators.get? v.val = some val) :
    HeadParts { s with equivocatingIndices := s.equivocatingIndices ∪ offenders } root state
      threshold headState headBlock where
  justified := parts.justified
  fraction := parts.fraction
  head_state := parts.head_state
  head_block := parts.head_block
  committees index hindex := by
    obtain ⟨committee, hcommittee, hold⟩ := parts.committees index hindex
    refine ⟨committee, hcommittee, fun v hv hequivocating => ?_⟩
    rcases Finset.mem_union.1 hequivocating with h | h
    · exact hold v hv h
    · exact hregistered v h

end HeadParts

omit [Crypto] in
theorem supporters_congr (hblocks : s'.blocks = s.blocks)
    (hvotes : s'.latestMessages = s.latestMessages) (state : BeaconState) (root : Root) :
    s'.supporters state root = s.supporters state root := by
  have hbacks : s'.backs root = s.backs root := by
    funext v
    unfold backs getSupportedNode
    simp only [hblocks, hvotes, isAncestor_congr hblocks]
  unfold supporters
  rw [hbacks]

/-- What a slashing does to the weight of a block. -/
theorem headWeight_slashed (h : s.onAttesterSlashing slashing = .ok s') (state : BeaconState)
    (root : Root) :
    s'.headWeight state root + s.departingStake state root slashing =
      s.headWeight state root + s.arrivingStake state root slashing := by
  have hs' := onAttesterSlashing_eq h
  have hsupporters : s'.supporters state root = s.supporters state root :=
    supporters_congr (by rw [hs']) (by rw [hs']) state root
  have hcommittees : s'.headCommittees root = s.headCommittees root := by
    rw [hs']
    rfl
  have hequivocators :
      s'.equivocatingIndices = s.equivocatingIndices ∪ slashing.equivocators := by
    rw [hs']
    rfl
  rw [headWeight, hsupporters, hcommittees, hequivocators]
  exact sum_excluding (effectiveBalanceOf state) (s.supporters state root) (s.headCommittees root)
    s.equivocatingIndices slashing.equivocators

/-! ## Registered offenders -/

/-- A cached checkpoint state has at least the validators of the state of its block. -/
def CacheRegistered (s : Store) : Prop :=
  ∀ (c : Checkpoint) (state : BeaconState), s.checkpointStates.lookup c = some state →
    ∃ blockState, s.blockStates.lookup c.root = some blockState ∧
      blockState.validators.length ≤ state.validators.length

theorem targetCheckpointState_registered {target : Checkpoint}
    (h : s.targetCheckpointState target = .ok state) :
    ∃ blockState, s.blockStates.lookup target.root = some blockState ∧
      blockState.validators.length ≤ state.validators.length := by
  unfold targetCheckpointState at h
  obtain ⟨blockState, hblockState, h⟩ := bind_eq_ok.1 h
  refine ⟨blockState, orFail_eq_ok.1 hblockState, ?_⟩
  split at h
  · obtain ⟨events, hruns, -⟩ := processSlots_runs (ofTransition_eq_ok.1 h)
    exact hruns.validators_length_le
  · cases h
    exact Nat.le_refl _

/-- Only an attestation writes to the cache, the state of its target. -/
theorem Step.checkpointStates (h : Step blk s s') {c : Checkpoint}
    (hc : s'.checkpointStates.lookup c = some state) :
    s.checkpointStates.lookup c = some state ∨ s.targetCheckpointState c = .ok state := by
  rcases h.kept_or_block with hkept | ⟨_, _, -, h⟩
  · exact hkept.cache hc
  · obtain ⟨_, _, _, _, -, -, -, -, himported⟩ := onBlock_effect h
    exact .inl (himported.checkpointStates ▸ hc)

theorem CacheRegistered.step (hs : s.CacheRegistered) (h : Step blk s s') (hgrows : Grows s s') :
    s'.CacheRegistered := by
  intro c state hc
  rcases h.checkpointStates hc with hold | hnew
  · obtain ⟨blockState, hblockState, hle⟩ := hs c state hold
    exact ⟨blockState, hgrows.states hblockState, hle⟩
  · obtain ⟨blockState, hblockState, hle⟩ := targetCheckpointState_registered hnew
    exact ⟨blockState, hgrows.states hblockState, hle⟩

theorem CacheRegistered.run {anchorState : BeaconState} {anchor : BeaconBlock} {calls : List Call}
    (h : getForkchoiceStore anchorState anchor = .ok s)
    (hc : NoCollision anchorState anchor (runBlocks anchor calls)) :
    (s.run calls).CacheRegistered := by
  have hboth : Inv (originOfRun h hc) (s.run calls) ∧ (s.run calls).CacheRegistered := by
    refine run_inv (P := fun s => Inv (originOfRun h hc) s ∧ s.CacheRegistered) h
      (fun time => ⟨Inv.seed (originOfRun h hc) time, ?_⟩) ?_
    · intro c state hstate
      obtain ⟨rfl, rfl⟩ := eq_of_lookup_singleton hstate
      exact ⟨_, Finmap.lookup_singleton_eq, Nat.le_refl _⟩
    · rintro s₁ s₂ ⟨inv, hregistered⟩ hstep
      obtain ⟨inv', hgrows⟩ := inv.step hstep
      exact ⟨inv', hregistered.step hstep hgrows⟩
  exact hboth.2

/-- The attesters of a valid indexed attestation are in the registry. -/
theorem validateIndexedAttestation_registered {indexed : IndexedAttestation}
    {onFail : SignatureError} (h : state.validateIndexedAttestation indexed onFail = .ok ())
    (hv : v ∈ indexed.attestingIndices.toList) : v.val < state.validators.length := by
  unfold BeaconState.validateIndexedAttestation at h
  simp only [bind_eq_ok] at h
  obtain ⟨_, -, _, -, pubkeys, hpubkeys, -⟩ := h
  obtain ⟨k, hk⟩ := mem_iff_getElem?.1 hv
  obtain ⟨pubkey, -, hlookup⟩ := getElem?_of_mapM hpubkeys hk
  obtain ⟨val, hval, -⟩ := bind_eq_ok.1 hlookup
  exact BoundedList.lt_length_of_get? (okOr_eq_ok.1 hval)

/-- The offenders of an accepted slashing are validators of the justified state. -/
theorem CacheRegistered.offenders (hs : s.CacheRegistered)
    (h : s.onAttesterSlashing slashing = .ok s') (hstate : s.getJustifiedState = .ok state)
    (hv : v ∈ slashing.equivocators) : ∃ val, state.validators.get? v.val = some val := by
  unfold onAttesterSlashing at h
  dsimp only at h
  simp only [bind_eq_ok] at h
  obtain ⟨_, -, rootState, hrootState, _, hone, -⟩ := h
  obtain ⟨blockState, hblockState, hle⟩ := hs _ _ (orFail_eq_ok.1 hstate)
  rw [orFail_eq_ok.1 hrootState] at hblockState
  cases hblockState
  have hmem : v ∈ slashing.attestation1.attestingIndices.toList :=
    mem_toFinset.1 (Finset.mem_inter.1 hv).1
  have hlt := validateIndexedAttestation_registered (liftErr_eq_ok.1 hone) hmem
  exact exists_validator (hlt.trans_le hle)

/-! ## Evidence -/

/-- What evidence does to a strong head. In every store of a run from an accepted anchor, a head
that is not weak stays so after an accepted slashing exactly when the stake that departs leaves the
threshold covered, and the stake that arrives does not overflow the weight. -/
theorem isHeadWeak_onAttesterSlashing {anchorState : BeaconState} {anchor : BeaconBlock}
    {calls : List Call} {s₀ : Store} (h₀ : getForkchoiceStore anchorState anchor = .ok s₀)
    (hc : NoCollision anchorState anchor (runBlocks anchor calls)) (hs : s = s₀.run calls)
    (hstrong : s.isHeadWeak root = .ok false) {slashing : AttesterSlashing}
    (hslashing : s.onAttesterSlashing slashing = .ok s') :
    ∃ state threshold, s.getJustifiedState = .ok state ∧
      calculateCommitteeFraction state reorgHeadWeightThreshold = .ok threshold ∧
      (s'.isHeadWeak root = .ok false ↔
        threshold.val + s.departingStake state root slashing ≤
            s.headWeight state root + s.arrivingStake state root slashing ∧
          s.headWeight state root + s.arrivingStake state root slashing <
            2 ^ 64 + s.departingStake state root slashing) := by
  have inv : Inv (originOfRun h₀ hc) s := hs ▸ Inv.run h₀ hc
  have hcache : s.CacheRegistered := hs ▸ CacheRegistered.run h₀ hc
  obtain ⟨state, threshold, headState, headBlock, parts⟩ := HeadParts.of_isHeadWeak hstrong
  have hregistered : ∀ v ∈ slashing.equivocators, ∃ val, state.validators.get? v.val = some val :=
    fun v hv => hcache.offenders hslashing parts.justified hv
  have hs' : s' = { s with equivocatingIndices := s.equivocatingIndices ∪ slashing.equivocators } :=
    onAttesterSlashing_eq hslashing
  have inv' : Inv (originOfRun h₀ hc) s' :=
    (inv.step (Step.attesterSlashing hslashing)).1
  have parts' : HeadParts s' root state threshold headState headBlock :=
    hs' ▸ parts.equivocate hregistered
  have hweight := headWeight_slashed hslashing state root
  refine ⟨state, threshold, parts.justified, parts.fraction, ?_⟩
  rw [parts'.isHeadWeak_eq_false inv']
  omega

end Store

end Moonglass

namespace Moonglass.Devnet

open Lib

/-- The validators of slots 1 and 2 vote for the genesis block. -/
def laterVotes : List Call :=
  [.tick 18, .attestation (attestation 1 genesis.treeRoot genesis.treeRoot) false,
    .attestation (attestation 2 genesis.treeRoot genesis.treeRoot) false]

def laterStore : Store := (seed genesis).run laterVotes

theorem laterStore_strong : laterStore.isHeadWeak genesis.treeRoot = .ok false := by
  decide +kernel

/-- Evidence that the validator of slot 1 has signed two votes for it. -/
def laterDoubleVote : AttesterSlashing :=
  let vote := (attestation 1 genesis.treeRoot genesis.treeRoot).data
  ⟨⟨⟨[1], by decide⟩, vote, zeros 96⟩,
    ⟨⟨[1], by decide⟩, { vote with beaconBlockRoot := Root.ZERO }, zeros 96⟩⟩

/-- Is the genesis block weak after the evidence? -/
def weakAfter (slashing : AttesterSlashing) : Outcome Bool := do
  (← laterStore.onAttesterSlashing slashing).isHeadWeak genesis.treeRoot

/-- Evidence against the validator of slot 0, which has not voted, leaves the genesis block
strong. -/
theorem isHeadWeak_onAttesterSlashing_doubleVote : ∃ s' state, ∃ threshold : Gwei,
    laterStore.isHeadWeak genesis.treeRoot = .ok false ∧
    laterStore.onAttesterSlashing doubleVote = .ok s' ∧
    s'.isHeadWeak genesis.treeRoot = .ok false ∧
    threshold.val + laterStore.departingStake state genesis.treeRoot doubleVote ≤
      laterStore.headWeight state genesis.treeRoot +
        laterStore.arrivingStake state genesis.treeRoot doubleVote := by
  have heval : weakAfter doubleVote = .ok false := by decide +kernel
  obtain ⟨s', hslashing, hafter⟩ := bind_eq_ok.1 heval
  obtain ⟨state, threshold, -, -, hiff⟩ := Store.isHeadWeak_onAttesterSlashing seed_genesis
    (noCollision rfl (by decide)) rfl laterStore_strong hslashing
  exact ⟨s', state, threshold, laterStore_strong, hslashing, hafter, (hiff.1 hafter).1⟩

/-- Evidence against the validator of slot 1 makes the genesis block weak: its vote is gone, and its
stake is not given back. -/
theorem isHeadWeak_laterDoubleVote :
    getForkchoiceStore (stateAfter genesis) genesis = .ok (seed genesis) ∧
    NoCollision (stateAfter genesis) genesis (runBlocks genesis laterVotes) ∧
    laterStore.isHeadWeak genesis.treeRoot = .ok false ∧
    ∃ s', laterStore.onAttesterSlashing laterDoubleVote = .ok s' ∧
      s'.isHeadWeak genesis.treeRoot = .ok true := by
  have heval : weakAfter laterDoubleVote = .ok true := by decide +kernel
  exact ⟨seed_genesis, noCollision rfl (by decide), laterStore_strong, bind_eq_ok.1 heval⟩

end Moonglass.Devnet
