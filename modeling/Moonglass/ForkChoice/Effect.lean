import Moonglass.ForkChoice.Step
import Moonglass.StateTransition.Chain

/-
  What each handler writes. A handler's effect is stated once, as an equation between stores or,
  for a block import, as a structure with one field per part of the store; the invariants of a run
  are read off these statements.
-/

namespace Moonglass

open Lib HashMap

variable [Preset]
variable {block : BeaconBlock} {state pulledUp : BeaconState} {a : Attestation} {isFromBlock : Bool}
  {e : SignedExecutionPayloadEnvelope} {verifier : ExecutionPayloadVerifier}

namespace Store

variable {s s' : Store}

/-! ## Ticks -/

/-- A tick moves the clock. When that brings a new slot the proposer boost is dropped, and the
unrealized checkpoints may be adopted. -/
theorem onTickPerSlot_eq (s : Store) (time : U64) : ∃ boost justified finalized,
    s.onTickPerSlot time = { s with
      time, proposerBoostRoot := boost
      justifiedCheckpoint := justified, finalizedCheckpoint := finalized } ∧
    (boost = s.proposerBoostRoot ∨ boost = Root.ZERO) ∧
    (justified = s.justifiedCheckpoint ∨
      justified = s.unrealizedJustifiedCheckpoint ∧ s.getCurrentSlot < s.slotAtTime time ∧
        s.justifiedCheckpoint.epoch < s.unrealizedJustifiedCheckpoint.epoch) ∧
    (finalized = s.finalizedCheckpoint ∨ finalized = s.unrealizedFinalizedCheckpoint) := by
  unfold onTickPerSlot
  dsimp only
  split
  · rename_i hnew
    split
    · refine ⟨_, _, _, rfl, .inr rfl, ?_, ?_⟩
      · dsimp only; split
        · exact .inr ⟨rfl, hnew, ‹_›⟩
        · exact .inl rfl
      · dsimp only; split
        · exact .inr rfl
        · exact .inl rfl
    · exact ⟨_, _, _, rfl, .inr rfl, .inl rfl, .inl rfl⟩
  · exact ⟨_, _, _, rfl, .inl rfl, .inl rfl, .inl rfl⟩

/-! ## Payload votes -/

/-- `s'` differs from `s` in recorded payload votes only; the vectors keep their lengths. -/
structure VotesOnly (s s' : Store) : Prop where
  eq : s' = { s with
    payloadTimelinessVote := s'.payloadTimelinessVote
    payloadDataAvailabilityVote := s'.payloadDataAvailabilityVote }
  timeliness : ∀ r, (s'.payloadTimelinessVote.lookup r).map List.length =
    (s.payloadTimelinessVote.lookup r).map List.length
  availability : ∀ r, (s'.payloadDataAvailabilityVote.lookup r).map List.length =
    (s.payloadDataAvailabilityVote.lookup r).map List.length

namespace VotesOnly

variable {s'' : Store}

theorem refl (s : Store) : VotesOnly s s := ⟨rfl, fun _ => rfl, fun _ => rfl⟩

theorem trans (h : VotesOnly s s') (h' : VotesOnly s' s'') : VotesOnly s s'' := by
  refine ⟨?_, fun r => (h'.timeliness r).trans (h.timeliness r),
    fun r => (h'.availability r).trans (h.availability r)⟩
  have h1 := h.eq
  have h2 := h'.eq
  rw [h1] at h2
  exact h2

end VotesOnly

omit [Preset] in
theorem writeVotePositions_length (votes : PayloadVoteVector) (positions : List Nat)
    (value : Bool) : Ensures (writeVotePositions votes positions value)
      fun votes' => votes'.length = votes.length := by
  unfold writeVotePositions
  refine .foldlM (fun index votes₁ h₁ => .skip fun _ => .pure ?_) rfl
  rw [List.length_set, h₁]

theorem recordPayloadVotePositions_votes (root : Root) (positions : List Nat)
    (present available : Bool) :
    Ensures (s.recordPayloadVotePositions root positions present available) (VotesOnly s) := by
  unfold recordPayloadVotePositions
  refine .lookup fun timeliness ht => ?_
  refine .lookup fun availability ha => ?_
  refine .bind (writeVotePositions_length _ _ _) fun timeliness' ht' => ?_
  refine .bind (writeVotePositions_length _ _ _) fun availability' ha' => .pure ⟨rfl, ?_, ?_⟩
  · intro r
    rw [lookup_insert_eq]
    by_cases hr : r = root
    · rw [if_pos hr, hr, ht, Option.map_some, Option.map_some, ht']
    · rw [if_neg hr]
  · intro r
    rw [lookup_insert_eq]
    by_cases hr : r = root
    · rw [if_pos hr, hr, ha, Option.map_some, Option.map_some, ha']
    · rw [if_neg hr]

theorem onPayloadAttestationMessageInner_votes [Crypto] (m : PayloadAttestationMessage)
    (isFromBlock : Bool) :
    Ensures (s.onPayloadAttestationMessageInner m isFromBlock) (VotesOnly s) := by
  unfold onPayloadAttestationMessageInner
  refine .skip fun state => .ite (.pure (VotesOnly.refl s)) (.skip fun positions => .ite ?_ ?_)
  · refine .skip fun _ => .skip fun _ => .skip fun _ => ?_
    exact recordPayloadVotePositions_votes _ _ _ _
  · exact recordPayloadVotePositions_votes _ _ _ _

theorem notifyPtcMessages_votes [Crypto] (state : BeaconState)
    (attestations : List PayloadAttestation) :
    Ensures (s.notifyPtcMessages state attestations) (VotesOnly s) := by
  unfold notifyPtcMessages
  refine .ite (.pure (VotesOnly.refl s)) ?_
  refine .rel_foldlM (R := VotesOnly) .refl .trans fun attestation s => .skip fun indexed => ?_
  exact .rel_foldlM (R := VotesOnly) .refl .trans fun index s =>
    onPayloadAttestationMessageInner_votes _ _

/-! ## Blocks -/

/-- The timeliness `recordBlockTimeliness` files for a block. -/
def timelinessOf (s : Store) (block : BeaconBlock) : BlockTimeliness :=
  ⟨s.getCurrentSlot == block.slot && s.timeIntoSlotMs < getAttestationDueMs,
    s.getCurrentSlot == block.slot && s.timeIntoSlotMs < getPayloadAttestationDueMs⟩

/-- The checkpoint of the newer epoch; the old one stays on a tie. -/
def raise (old new : Checkpoint) : Checkpoint := if old.epoch < new.epoch then new else old

omit [Preset] in
theorem raise_cases (old new : Checkpoint) :
    raise old new = old ∨ raise old new = new ∧ old.epoch < new.epoch := by
  unfold raise
  split
  · exact .inr ⟨rfl, ‹_›⟩
  · exact .inl rfl

/-- A realized checkpoint after an import: raised to the one of the block's state, and to the
pulled-up one when the block is of a past epoch. -/
def raiseRealized (past : Prop) [Decidable past] (old realized pulledUp : Checkpoint) :
    Checkpoint :=
  if past then raise (raise old realized) pulledUp else raise old realized

/-- What importing `block` with post-state `state` writes; `pulledUp` is the post-state after
justification and finalization. -/
structure Imported [Crypto] (s : Store) (block : BeaconBlock) (state pulledUp : BeaconState)
    (s' : Store) : Prop where
  time : s'.time = s.time
  genesisTime : s'.genesisTime = s.genesisTime
  equivocatingIndices : s'.equivocatingIndices = s.equivocatingIndices
  checkpointStates : s'.checkpointStates = s.checkpointStates
  latestMessages : s'.latestMessages = s.latestMessages
  payloads : s'.payloads = s.payloads
  queuedPayloadEnvelopes : s'.queuedPayloadEnvelopes = s.queuedPayloadEnvelopes
  dataColumnSidecars : s'.dataColumnSidecars = s.dataColumnSidecars
  blocks : s'.blocks = s.blocks.insert block.treeRoot block
  blockStates : s'.blockStates = s.blockStates.insert block.treeRoot state
  blockTimeliness : s'.blockTimeliness =
    s.blockTimeliness.insert block.treeRoot (s.timelinessOf block)
  proposerBoostRoot : s'.proposerBoostRoot = s.proposerBoostRoot ∨
    s'.proposerBoostRoot = block.treeRoot
  pulled : state.processJustificationAndFinalization = .ok pulledUp
  unrealizedJustifications : s'.unrealizedJustifications =
    s.unrealizedJustifications.insert block.treeRoot pulledUp.currentJustifiedCheckpoint
  justified_eq : s'.justifiedCheckpoint =
    raiseRealized (block.slot.epoch < s.getCurrentStoreEpoch) s.justifiedCheckpoint
      state.currentJustifiedCheckpoint pulledUp.currentJustifiedCheckpoint
  finalized_eq : s'.finalizedCheckpoint =
    raiseRealized (block.slot.epoch < s.getCurrentStoreEpoch) s.finalizedCheckpoint
      state.finalizedCheckpoint pulledUp.finalizedCheckpoint
  unrealizedJustified_eq : s'.unrealizedJustifiedCheckpoint =
    raise s.unrealizedJustifiedCheckpoint pulledUp.currentJustifiedCheckpoint
  unrealizedFinalized_eq : s'.unrealizedFinalizedCheckpoint =
    raise s.unrealizedFinalizedCheckpoint pulledUp.finalizedCheckpoint
  timelinessVote : ∀ r, (s'.payloadTimelinessVote.lookup r).map List.length =
    if r = block.treeRoot then some ptcSize
    else (s.payloadTimelinessVote.lookup r).map List.length
  availabilityVote : ∀ r, (s'.payloadDataAvailabilityVote.lookup r).map List.length =
    if r = block.treeRoot then some ptcSize
    else (s.payloadDataAvailabilityVote.lookup r).map List.length

theorem recordBlockTimeliness_eq {root : Root} (h : s.blocks.lookup root = some block) :
    s.recordBlockTimeliness root =
      .ok { s with blockTimeliness := s.blockTimeliness.insert root (s.timelinessOf block) } := by
  rw [recordBlockTimeliness, h]
  rfl

theorem updateProposerBoostRoot_eq (head root : Root) :
    Ensures (s.updateProposerBoostRoot head root) fun s' =>
      s' = { s with proposerBoostRoot := s'.proposerBoostRoot } ∧
        (s'.proposerBoostRoot = s.proposerBoostRoot ∨ s'.proposerBoostRoot = root) := by
  unfold updateProposerBoostRoot
  refine .skip fun timeliness => .skip fun _ => .skip fun _ => .pure ?_
  split
  · exact ⟨rfl, .inr rfl⟩
  · exact ⟨rfl, .inl rfl⟩

/-- The checkpoints after an import, and the block's unrealized justification. -/
def withCheckpoints [Crypto] (s : Store) (block : BeaconBlock) (state pulledUp : BeaconState) :
    Store :=
  { s with
    unrealizedJustifications :=
      s.unrealizedJustifications.insert block.treeRoot pulledUp.currentJustifiedCheckpoint
    justifiedCheckpoint :=
      raiseRealized (block.slot.epoch < s.getCurrentStoreEpoch) s.justifiedCheckpoint
        state.currentJustifiedCheckpoint pulledUp.currentJustifiedCheckpoint
    finalizedCheckpoint :=
      raiseRealized (block.slot.epoch < s.getCurrentStoreEpoch) s.finalizedCheckpoint
        state.finalizedCheckpoint pulledUp.finalizedCheckpoint
    unrealizedJustifiedCheckpoint :=
      raise s.unrealizedJustifiedCheckpoint pulledUp.currentJustifiedCheckpoint
    unrealizedFinalizedCheckpoint :=
      raise s.unrealizedFinalizedCheckpoint pulledUp.finalizedCheckpoint }

/-- The last two steps of an import: the checkpoints of the block's state, then the pull-up. -/
theorem updateThenPullUp_eq [Crypto] (hblock : s.blocks.lookup block.treeRoot = some block)
    (hstate : s.blockStates.lookup block.treeRoot = some state) :
    (s.updateCheckpoints state.currentJustifiedCheckpoint
      state.finalizedCheckpoint).computePulledUpTip block.treeRoot =
        ofTransition state.processJustificationAndFinalization >>= fun pulledUp =>
          .ok (s.withCheckpoints block state pulledUp) := by
  unfold computePulledUpTip updateCheckpoints
  rw [hstate, orFail_some, ok_bind]
  congr 1
  funext pulledUp
  rw [hblock, orFail_some, ok_bind]
  unfold withCheckpoints raiseRealized
  by_cases hpast : block.slot.epoch < s.getCurrentStoreEpoch
  · simp only [if_pos hpast]
    exact congrArg _ (if_pos hpast)
  · simp only [if_neg hpast]
    exact congrArg _ (if_neg hpast)

/-- A fresh vote vector, or the one that was there. -/
theorem length_lookup_insert (m : HashMap Root PayloadVoteVector) (root r : Root) :
    ((m.insert root (List.replicate ptcSize none)).lookup r).map List.length =
      if r = root then some ptcSize else (m.lookup r).map List.length := by
  rw [lookup_insert_eq]
  by_cases h : r = root
  · rw [if_pos h, if_pos h, Option.map_some, List.length_replicate]
  · rw [if_neg h, if_neg h]

/-- The steps of an import: the carried payload votes, the timeliness, the boost and the
checkpoints. -/
theorem importBlock_parts [Crypto] {block : BeaconBlock} {state : BeaconState} {head : Root}
    (h : s.importBlock block.treeRoot block state head = .ok s') : ∃ voted boost pulledUp,
      (s.insertBlock block.treeRoot block state).notifyPtcMessages state
        block.body.payloadAttestations.toList = .ok voted ∧
      ({ voted with
        blockTimeliness := voted.blockTimeliness.insert block.treeRoot
          (s.timelinessOf block) } : Store).updateProposerBoostRoot head block.treeRoot =
        .ok { voted with
          blockTimeliness := voted.blockTimeliness.insert block.treeRoot (s.timelinessOf block)
          proposerBoostRoot := boost } ∧
      (boost = s.proposerBoostRoot ∨ boost = block.treeRoot) ∧
      state.processJustificationAndFinalization = .ok pulledUp ∧
      s' = Store.withCheckpoints { voted with
        blockTimeliness := voted.blockTimeliness.insert block.treeRoot (s.timelinessOf block)
        proposerBoostRoot := boost } block state pulledUp := by
  unfold importBlock at h
  obtain ⟨voted, hvoted, h⟩ := bind_eq_ok.1 h
  have hvotes := (notifyPtcMessages_votes _ _ _ hvoted).eq
  have hblock : voted.blocks.lookup block.treeRoot = some block := by
    rw [hvotes]; exact Finmap.lookup_insert _
  have hstate : voted.blockStates.lookup block.treeRoot = some state := by
    rw [hvotes]; exact Finmap.lookup_insert _
  have htimeliness : voted.timelinessOf block = s.timelinessOf block :=
    (congrArg (fun s : Store => s.timelinessOf block) hvotes).trans rfl
  have hboosted : voted.proposerBoostRoot = s.proposerBoostRoot :=
    (congrArg Store.proposerBoostRoot hvotes).trans rfl
  rw [recordBlockTimeliness_eq hblock, ok_bind, htimeliness] at h
  obtain ⟨boosted, hboost, h⟩ := bind_eq_ok.1 h
  obtain ⟨heq, hcases⟩ := updateProposerBoostRoot_eq _ _ _ hboost
  generalize boosted.proposerBoostRoot = boost at heq hcases
  subst heq
  have h := (updateThenPullUp_eq (s := { voted with
    blockTimeliness := voted.blockTimeliness.insert block.treeRoot (s.timelinessOf block)
    proposerBoostRoot := boost }) hblock hstate).symm.trans h
  obtain ⟨pulledUp, hpulled, h⟩ := bind_eq_ok.1 h
  cases h
  exact ⟨voted, boost, pulledUp, hvoted, hboost, hboosted ▸ hcases, ofTransition_eq_ok.1 hpulled, rfl⟩

theorem importBlock_effect [Crypto] (block : BeaconBlock) (state : BeaconState) (head : Root) :
    Ensures (s.importBlock block.treeRoot block state head) fun s' =>
      ∃ pulledUp, Imported s block state pulledUp s' := by
  intro s' h
  obtain ⟨voted, boost, pulledUp, hvoted, -, hboost, hpulled, hs'⟩ := importBlock_parts h
  have hvotes := notifyPtcMessages_votes _ _ _ hvoted
  -- up to the checkpoints only the inserted block, payload votes, timeliness and boost are new
  obtain ⟨t, a, hvoted, ht, ha⟩ : ∃ t a, voted = { s.insertBlock block.treeRoot block state with
      payloadTimelinessVote := t, payloadDataAvailabilityVote := a } ∧
      (∀ r, (t.lookup r).map List.length = if r = block.treeRoot then some ptcSize
        else (s.payloadTimelinessVote.lookup r).map List.length) ∧
      (∀ r, (a.lookup r).map List.length = if r = block.treeRoot then some ptcSize
        else (s.payloadDataAvailabilityVote.lookup r).map List.length) :=
    ⟨_, _, hvotes.eq, fun r => (hvotes.timeliness r).trans (length_lookup_insert _ _ r),
      fun r => (hvotes.availability r).trans (length_lookup_insert _ _ r)⟩
  subst hvoted
  subst hs'
  exact ⟨pulledUp, rfl, rfl, rfl, rfl, rfl, rfl, rfl, rfl, rfl, rfl, rfl, hboost, hpulled, rfl, rfl,
    rfl, rfl, rfl, ht, ha⟩

/-- Where the justified checkpoint comes from, when an import moves it. -/
theorem Imported.justified [Crypto] (h : Imported s block state pulledUp s') :
    s'.justifiedCheckpoint = s.justifiedCheckpoint ∨
      s.justifiedCheckpoint.epoch < s'.justifiedCheckpoint.epoch ∧
        (s'.justifiedCheckpoint = state.currentJustifiedCheckpoint ∨
          s'.justifiedCheckpoint = pulledUp.currentJustifiedCheckpoint ∧
            block.slot.epoch < s.getCurrentStoreEpoch) := by
  have heq := h.justified_eq
  unfold raiseRealized at heq
  have hrealized := raise_cases s.justifiedCheckpoint state.currentJustifiedCheckpoint
  split at heq
  · rename_i hpast
    rcases raise_cases (raise s.justifiedCheckpoint state.currentJustifiedCheckpoint)
      pulledUp.currentJustifiedCheckpoint with hpulled | ⟨hpulled, hlt⟩
    · rw [hpulled] at heq
      rw [heq]
      rcases hrealized with h | ⟨h, hlt⟩
      · exact .inl h
      · rw [h]; exact .inr ⟨hlt, .inl rfl⟩
    · rw [heq, hpulled]
      refine .inr ⟨?_, .inr ⟨rfl, hpast⟩⟩
      rcases hrealized with h | ⟨h, hlt'⟩
      · rwa [h] at hlt
      · rw [h] at hlt; exact lt_trans hlt' hlt
  · rw [heq]
    rcases hrealized with h | ⟨h, hlt⟩
    · exact .inl h
    · rw [h]; exact .inr ⟨hlt, .inl rfl⟩

theorem Imported.unrealizedJustified [Crypto] (h : Imported s block state pulledUp s') :
    s'.unrealizedJustifiedCheckpoint = s.unrealizedJustifiedCheckpoint ∨
      s'.unrealizedJustifiedCheckpoint = pulledUp.currentJustifiedCheckpoint := by
  rw [h.unrealizedJustified_eq]
  exact (raise_cases _ _).imp_right And.left

/-- What a block has been checked for before its state transition. -/
structure BlockChecked (s : Store) (block : BeaconBlock) : Prop where
  parent : ∃ p, s.blocks.lookup block.parentRoot = some p ∧
    (parentBranch block p = .full → block.parentRoot ∈ s.payloads)
  past : block.slot ≤ s.getCurrentSlot
  after_finalized : s.finalizedCheckpoint.epoch.startSlot < block.slot
  finalized : s.getCheckpointBlock block.parentRoot s.finalizedCheckpoint.epoch =
    .ok s.finalizedCheckpoint.root

theorem checkBlock_checked : Ensures (s.checkBlock block) fun _ => BlockChecked s block := by
  unfold checkBlock isParentNodeFull getParentPayloadStatus
  intro _ h
  obtain ⟨full, hfull, h⟩ := bind_eq_ok.1 h
  obtain ⟨status, hstatus, hfull⟩ := bind_eq_ok.1 hfull
  obtain ⟨p, hp, hstatus⟩ := bind_eq_ok.1 hstatus
  cases hstatus
  cases hfull
  simp only [bind_eq_ok] at h
  obtain ⟨_, hpayload, _, hpast, _, hafter, root, hroot, h⟩ := h
  have hpayload := require_eq_ok.1 hpayload
  refine ⟨⟨p, orFail_eq_ok.1 hp, fun hfull => ?_⟩, require_eq_ok.1 hpast,
    require_eq_ok.1 hafter, ?_⟩
  · by_contra hmem
    exact hpayload ⟨beq_iff_eq.2 hfull, by simpa [isPayloadVerified] using hmem⟩
  · rw [hroot, require_eq_ok.1 h]

/-- What an accepted `onBlock` has checked, and what it writes. -/
theorem onBlock_effect [Crypto] {o : Orders} {b : SignedBeaconBlock} (h : s.onBlock o b = .ok s') :
    ∃ parentState state pulledUp head,
      s.blockStates.lookup b.message.parentRoot = some parentState ∧
      BlockChecked s b.message ∧ parentState.stateTransition b = .ok state ∧
      s.getHead o = .ok head ∧ Imported s b.message state pulledUp s' := by
  unfold onBlock at h
  dsimp only at h
  simp only [bind_eq_ok] at h
  obtain ⟨parentState, hparent, _, hcheck, state, hstate, head, hhead, h⟩ := h
  obtain ⟨pulledUp, himported⟩ := importBlock_effect _ _ _ s' h
  exact ⟨parentState, state, pulledUp, head, orFail_eq_ok.1 hparent,
    checkBlock_checked _ hcheck, ofTransition_eq_ok.1 hstate, hhead, himported⟩

/-! ## Attestations and slashings -/

/-- What an accepted attestation has been checked for. -/
structure ValidAttestation (s : Store) (a : Attestation) : Prop where
  target_mem : a.data.target.root ∈ s.blocks
  target_epoch : a.data.target.epoch = a.data.slot.epoch
  block : ∃ b, s.blocks.lookup a.data.beaconBlockRoot = some b ∧ b.slot ≤ a.data.slot
  payload : a.data.index.val = 1 → a.data.beaconBlockRoot ∈ s.payloads
  checkpoint : s.getCheckpointBlock a.data.beaconBlockRoot a.data.target.epoch =
    .ok a.data.target.root
  past : a.data.slot.val + 1 ≤ s.getCurrentSlot.val

omit [Preset] in
theorem isAtOrAfterNextSlot_le {previous current : Slot}
    (h : isAtOrAfterNextSlot previous current = true) : previous.val + 1 ≤ current.val := by
  unfold isAtOrAfterNextSlot at h
  cases hnext : previous.checkedAdd 1 with
  | none => rw [hnext] at h; cases h
  | some next =>
    rw [hnext] at h
    have hle : next.val ≤ current.val := of_decide_eq_true h
    rw [Word.checkedAdd_eq_some] at hnext
    omega

theorem validateOnAttestation_valid :
    Ensures (s.validateOnAttestation a isFromBlock) fun _ => ValidAttestation s a := by
  unfold validateOnAttestation
  -- the check against the clock is made for gossip only; all other checks are common
  refine .ite (.skip fun _ => ?_) ?_
  all_goals
    refine .guard fun hepoch => ?_
    refine .guard fun htarget => ?_
    refine .lookup fun b hb => ?_
    refine .guard fun hslot => .skip fun _ => .skip fun _ => ?_
    refine .guard fun hpayload => ?_
    intro _ h
    obtain ⟨root, hroot, h⟩ := bind_eq_ok.1 h
    obtain ⟨_, heq, hpast⟩ := bind_eq_ok.1 h
    have heq := require_eq_ok.1 heq
    refine ⟨htarget, hepoch, ⟨b, hb, hslot⟩, fun hindex => ?_, ?_, ?_⟩
    · by_contra hmem
      exact hpayload ⟨hindex, by simpa [isPayloadVerified] using hmem⟩
    · rw [hroot, heq]
    · exact isAtOrAfterNextSlot_le (require_eq_ok.1 hpast)

/-- The cache gains at most the target's own state. -/
theorem storeTargetCheckpointState_eq [Crypto] (target : Checkpoint) :
    Ensures (s.storeTargetCheckpointState target) fun s' =>
      s' = s ∧ target ∈ s.checkpointStates ∨
      ∃ state, target ∉ s.checkpointStates ∧ s.targetCheckpointState target = .ok state ∧
        s' = { s with checkpointStates := s.checkpointStates.insert target state } := by
  unfold storeTargetCheckpointState
  by_cases h : target ∈ s.checkpointStates
  · rw [if_pos h]
    exact .pure (.inl ⟨rfl, h⟩)
  · rw [if_neg h]
    intro s' hs'
    obtain ⟨state, hstate, hs'⟩ := bind_eq_ok.1 hs'
    cases hs'
    exact .inr ⟨state, h, hstate, rfl⟩

/-- What an accepted attestation writes: its votes, and its target's state if it was missing. -/
theorem onAttestation_effect [Crypto] (h : s.onAttestation a isFromBlock = .ok s') :
    ∃ s₁ targetState attesters,
      ValidAttestation s a ∧ s.storeTargetCheckpointState a.data.target = .ok s₁ ∧
      s₁.checkpointStates.lookup a.data.target = some targetState ∧
      checkedAttesters targetState a = .ok attesters ∧ s' = s₁.updateLatestMessages attesters a := by
  unfold onAttestation at h
  obtain ⟨_, hvalid, h⟩ := bind_eq_ok.1 h
  dsimp only at h
  simp only [bind_eq_ok] at h
  obtain ⟨s₁, hs₁, targetState, htarget, attesters, hattesters, h⟩ := h
  cases h
  exact ⟨s₁, targetState, attesters, validateOnAttestation_valid _ hvalid, hs₁,
    orFail_eq_ok.1 htarget, hattesters, rfl⟩

/-- A slashing adds the validators that attested on both sides to the equivocators. -/
theorem onAttesterSlashing_eq [Crypto] {slashing : AttesterSlashing}
    (h : s.onAttesterSlashing slashing = .ok s') : s' = { s with
      equivocatingIndices := s.equivocatingIndices ∪
        (slashing.attestation1.attestingIndices.toList.toFinset ∩
          slashing.attestation2.attestingIndices.toList.toFinset) } := by
  unfold onAttesterSlashing at h
  dsimp only at h
  simp only [bind_eq_ok] at h
  obtain ⟨_, -, _, -, _, -, _, -, h⟩ := h
  cases h
  rfl

/-- One attester's vote after an update: the new message, or the vote it had. -/
theorem updateLatestMessage_lookup (s : Store) (message : LatestMessage)
    (latest : HashMap ValidatorIndex LatestMessage) (index v : ValidatorIndex) :
    (s.updateLatestMessage message latest index).lookup v = latest.lookup v ∨
      (s.updateLatestMessage message latest index).lookup v = some message := by
  unfold updateLatestMessage
  split
  · exact .inl rfl
  · split
    · rw [lookup_insert_eq]
      split
      · exact .inr rfl
      · exact .inl rfl
    · exact .inl rfl

theorem updateLatestMessages_lookup (s : Store) (attesters : List ValidatorIndex)
    (a : Attestation) (v : ValidatorIndex) :
    (s.updateLatestMessages attesters a).latestMessages.lookup v = s.latestMessages.lookup v ∨
      (s.updateLatestMessages attesters a).latestMessages.lookup v =
        some (attestationMessage a) := by
  unfold updateLatestMessages
  dsimp only
  generalize s.latestMessages = latest
  induction attesters generalizing latest with
  | nil => exact .inl rfl
  | cons index attesters ih =>
    rw [List.foldl_cons]
    rcases ih (s.updateLatestMessage (attestationMessage a) latest index) with h | h
    · rw [h]
      exact updateLatestMessage_lookup s _ latest index v
    · exact .inr h

/-! ## Payload delivery -/

/-- The consensus checks an envelope has passed against the state of its block. -/
def EnvelopeVerified [Crypto] (s : Store) (e : SignedExecutionPayloadEnvelope) : Prop :=
  ∃ state, s.blockStates.lookup e.message.beaconBlockRoot = some state ∧
    state.verifyExecutionPayloadEnvelope e = .ok ()

theorem verifyConsensus_verified [Crypto] :
    Ensures (s.verifyExecutionPayloadEnvelopeConsensus e) fun _ => EnvelopeVerified s e := by
  unfold verifyExecutionPayloadEnvelopeConsensus
  refine .lookup fun state hstate => ?_
  intro _ h
  exact ⟨state, hstate, ofTransition_eq_ok.1 h⟩

/-- An accepted envelope is recorded when the data is available and queued otherwise. -/
theorem onExecutionPayloadEnvelope_effect [Crypto] :
    Ensures (s.onExecutionPayloadEnvelopeWithVerifier e verifier) fun s' =>
      EnvelopeVerified s e ∧
      (s.isDataAvailableWithSetup e.message.beaconBlockRoot = true ∧
          s' = s.recordVerifiedExecutionPayloadEnvelope e ∨
        s.isDataAvailableWithSetup e.message.beaconBlockRoot = false ∧
          s' = { s with queuedPayloadEnvelopes :=
            s.queuedPayloadEnvelopes.insert e.message.beaconBlockRoot e }) := by
  unfold onExecutionPayloadEnvelopeWithVerifier
  refine .skip fun _ => .bind verifyConsensus_verified fun _ hverified => ?_
  refine .bind (Q := fun available =>
    available = s.isDataAvailableWithSetup e.message.beaconBlockRoot) ?_ fun available h => ?_
  · unfold isDataAvailable
    exact .skip fun _ => .pure rfl
  · cases available with
    | true => exact .skip fun _ => .pure ⟨hverified, .inl ⟨h.symm, rfl⟩⟩
    | false => exact .pure ⟨hverified, .inr ⟨h.symm, rfl⟩⟩

/-- A release records the queued envelope, checked again, or changes nothing. -/
theorem processQueuedPayloadEnvelope_effect [Crypto] {root : Root} :
    Ensures (s.processQueuedPayloadEnvelope root verifier) fun s' =>
      s' = s ∨ ∃ e, s.queuedPayloadEnvelopes.lookup root = some e ∧ EnvelopeVerified s e ∧
        s.isDataAvailableWithSetup root = true ∧
        s' = s.recordVerifiedExecutionPayloadEnvelope e := by
  unfold processQueuedPayloadEnvelope
  cases hqueued : s.queuedPayloadEnvelopes.lookup root with
  | none => exact .pure (.inl rfl)
  | some e =>
    cases havailable : s.isDataAvailableWithSetup root with
    | false => exact .pure (.inl rfl)
    | true =>
      refine .bind verifyConsensus_verified fun _ hverified => .skip fun _ => ?_
      exact .pure (.inr ⟨e, rfl, hverified, rfl, rfl⟩)

end Store

end Moonglass
