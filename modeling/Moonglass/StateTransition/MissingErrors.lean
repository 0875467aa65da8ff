import Moonglass.StateTransition.Coherence

/-
  No step fails for an entry that is missing from one of the lists parallel to the validators. The
  functions are gone through one by one, in the order of the model. Most can raise no such error
  at all; the others look up an index that a lookup among the validators has just found.
-/

namespace Moonglass

open Lib List BoundedList

variable [Preset]
variable {a : Reach} {p : Phase} {v : Validator}
  {balances : BoundedList Gwei validatorRegistryLimit}

/-- The error is not about a missing entry. -/
def TransitionError.NotMissing (e : TransitionError) : Prop := ∀ i, e ≠ .invariant i

omit [Preset] in
@[simp] theorem TransitionError.notMissing_iff {e : TransitionError} :
    e.NotMissing ↔ ∀ i, e ≠ .invariant i := .rfl

/-- The computation does not fail for a missing entry. -/
abbrev NoMissing {α : Type} (x : Transition α) : Prop := Fails x TransitionError.NotMissing

/-- Nor does it, and what it returns satisfies `P`. -/
abbrev Sound {α : Type} (x : Transition α) (P : α → Prop) : Prop :=
  Ends x TransitionError.NotMissing P

/-! ## Functions that look up no parallel list -/

-- the small functions among them
attribute [local simp] verifySignature fastAggregateVerify checkedEpochAdd checkedStartSlot
  checkedSlotOffset checkedNextSlot hasTwoThirdsSupport WithdrawalSweep.push
  WithdrawalSweep.countOne FinalityUpdate.rule FinalityUpdate.checkpointIs
  BeaconState.participationFlagWeight BeaconState.consumeChurnBudget
  BeaconState.computeActivationExitEpoch BeaconState.validator BeaconState.builder
  BeaconState.getSeed BeaconState.isActiveBuilder BeaconState.getBaseRewardPerIncrement
  BeaconState.justify

section

variable (s : BeaconState) (index : ValidatorIndex) (indices : List ValidatorIndex)
  (seed : Bytes32) (slot : Slot)

@[simp] theorem computeShuffledIndexChecked_noMissing [Crypto] (index count : Nat) :
    NoMissing (computeShuffledIndexChecked index count seed) := by
  simp [computeShuffledIndexChecked, sourceBit, Fails.foldlM_each]

namespace BeaconState

@[simp] theorem getBeaconCommittee_noMissing [Crypto] (index : CommitteeIndex) :
    NoMissing (s.getBeaconCommittee slot index) := by
  simp [getBeaconCommittee, computeCommittee, Fails.mapM]

theorem computeProposerIndexLoop_noMissing [Crypto] (fuel i : Nat) :
    NoMissing (s.computeProposerIndexLoop indices seed fuel i) := by
  induction fuel generalizing i with
  | zero => simp [computeProposerIndexLoop]
  | succ fuel ih => simp [computeProposerIndexLoop, weightAccepted, ih]

theorem balanceWeightedSelectionLoop_noMissing [Crypto] (balances : List Gwei) (size : Nat)
    (shuffle : Bool) (fuel i : Nat) (bytes : Bytes32) (selected : List ValidatorIndex) :
    NoMissing (balanceWeightedSelectionLoop indices balances seed size shuffle fuel i bytes
      selected) := by
  induction fuel generalizing i bytes selected with
  | zero => simp [balanceWeightedSelectionLoop]
  | succ fuel ih =>
    cases shuffle <;> simp [balanceWeightedSelectionLoop, weightAccepted, ih]

@[simp] theorem computeBalanceWeightedSelection_noMissing [Crypto] (size : Nat) (shuffle : Bool) :
    NoMissing (s.computeBalanceWeightedSelection indices seed size shuffle) := by
  simp [computeBalanceWeightedSelection, balanceWeightedSelectionLoop_noMissing, Fails.mapM]

@[simp] theorem getPtc_noMissing : NoMissing (s.getPtc slot) := by
  simp only [getPtc, fails_bind, fails_ite, fails_ensure, fails_pure, fails_okOr]
  simp

@[simp] theorem getBeaconProposerIndex_noMissing : NoMissing s.getBeaconProposerIndex := by
  simp [getBeaconProposerIndex]

@[simp] theorem getTotalBalance_noMissing : NoMissing (s.getTotalBalance indices) := by
  simp [getTotalBalance, Fails.foldlM_each]

@[simp] theorem getTotalActiveBalance_noMissing : NoMissing s.getTotalActiveBalance := by
  simp [getTotalActiveBalance]

@[simp] theorem getBaseReward_noMissing : NoMissing (s.getBaseReward index) := by
  simp [getBaseReward]

@[simp] theorem isInInactivityLeak_noMissing : NoMissing s.isInInactivityLeak := by
  simp [isInInactivityLeak, getFinalityDelay]

@[simp] theorem getEligibleValidatorIndices_noMissing :
    NoMissing s.getEligibleValidatorIndices := by
  simp [getEligibleValidatorIndices]

@[simp] theorem getBalanceChurnLimit_noMissing : NoMissing s.getBalanceChurnLimit := by
  simp [getBalanceChurnLimit]

@[simp] theorem getConsolidationChurnLimit_noMissing : NoMissing s.getConsolidationChurnLimit := by
  simp [getConsolidationChurnLimit]

@[simp] theorem computeExitEpochAndUpdateChurn_noMissing (balance : Gwei) :
    NoMissing (s.computeExitEpochAndUpdateChurn balance) := by
  simp [computeExitEpochAndUpdateChurn, getExitChurnLimit]

@[simp] theorem initiateValidatorExit_noMissing : NoMissing (s.initiateValidatorExit index) := by
  simp [initiateValidatorExit]

/-! ## Operations, requests and epoch passes -/

@[simp] theorem attestingIndices_noMissing [Crypto] (attestation : Attestation) :
    NoMissing (s.attestingIndices attestation) := by
  unfold attestingIndices
  refine .skip (.foldlM_each fun acc ci _ => ?_) fun _ => by simp
  exact .skip (by simp) fun _ => by simp

@[simp] theorem validateIndexedAttestation_noMissing [Crypto] (indexed : IndexedAttestation)
    (onFail : SignatureError) : NoMissing (s.validateIndexedAttestation indexed onFail) := by
  simp [validateIndexedAttestation, Fails.mapM]

@[simp] theorem acceptAttestation_noMissing [Crypto] (attestation : Attestation) :
    NoMissing (s.acceptAttestation attestation) := by
  simp only [acceptAttestation, indexedAttestationFromKnownIndices,
    getAttestationParticipationFlagIndices, fails_bind, fails_ensure, fails_okOr, fails_ite]
  simp [Fails.forM]

@[simp] theorem getPendingBalanceToWithdraw_noMissing (index : ValidatorIndex) :
    NoMissing (s.getPendingBalanceToWithdraw index) :=
  fails_checkedSum (by simp) _

@[simp] theorem getPendingBalanceToWithdrawForBuilder_noMissing (index : BuilderIndex) :
    NoMissing (s.getPendingBalanceToWithdrawForBuilder index) :=
  fails_checkedSum (by simp) _

@[simp] theorem processExecutionPayloadBid_noMissing [Crypto] (bid : SignedExecutionPayloadBid) :
    NoMissing (s.processExecutionPayloadBid bid) := by
  simp [processExecutionPayloadBid, validateBidIdentity, validateBidSignerAndFunding,
    verifyExecutionPayloadBidSignature, canBuilderCoverBid]

@[simp] theorem processPayloadAttestation_noMissing [Crypto] (attestation : PayloadAttestation) :
    NoMissing (s.processPayloadAttestation attestation) := by
  simp [processPayloadAttestation, getIndexedPayloadAttestation, isValidIndexedPayloadAttestation,
    Fails.mapM]

@[simp] theorem processBuilderDepositRequest_noMissing [Crypto]
    (request : BuilderDepositRequest) : NoMissing (s.processBuilderDepositRequest request) := by
  unfold processBuilderDepositRequest
  split <;> simp [addBuilderToRegistry]

@[simp] theorem processBuilderExitRequest_noMissing
    (request : BuilderExitRequest) : NoMissing (s.processBuilderExitRequest request) := by
  unfold processBuilderExitRequest
  split <;> simp [initiateBuilderExit]

omit [Preset] in
@[simp] theorem toValidatorIndex_noMissing (index : BuilderIndex) :
    NoMissing (BuilderIndex.toValidatorIndex index) := by
  simp [BuilderIndex.toValidatorIndex]

omit [Preset] in
@[simp] theorem toBuilderIndex_noMissing (index : ValidatorIndex) :
    NoMissing (ValidatorIndex.toBuilderIndex index) := by
  simp only [ValidatorIndex.toBuilderIndex, fails_bind, fails_ensure]
  simp

theorem processRegistryUpdates_noMissing : NoMissing s.processRegistryUpdates := by
  unfold processRegistryUpdates
  exact .skip (.foldlM_each fun _ _ _ => by simp) fun _ => .skip (by simp) fun _ => fails_pure _

theorem processBuilderPendingPayments_noMissing : NoMissing s.processBuilderPendingPayments := by
  unfold processBuilderPendingPayments
  refine .skip (.foldlM_each fun _ _ _ => ?_) fun _ => fails_pure _
  simp [settleBuilderPaymentIfQuorum, getBuilderPaymentQuorumThreshold,
    queueBuilderPendingWithdrawal]

theorem processHistoricalSummariesUpdate_noMissing [Crypto] :
    NoMissing s.processHistoricalSummariesUpdate := by
  unfold processHistoricalSummariesUpdate
  exact .ite (fails_pure s) (by simp)

theorem processSyncCommitteeUpdates_noMissing [Crypto] :
    NoMissing s.processSyncCommitteeUpdates := by
  simp [processSyncCommitteeUpdates, getNextSyncCommittee, getNextSyncCommitteeIndices,
    aggregatePubkeys, Fails.mapM]

theorem processProposerLookahead_noMissing [Crypto] : NoMissing s.processProposerLookahead := by
  simp [processProposerLookahead, computeProposerIndex, computeProposerIndexLoop_noMissing,
    Fails.mapM]

theorem processPtcWindow_noMissing [Crypto] : NoMissing s.processPtcWindow := by
  simp [processPtcWindow, computePtc, Fails.mapM]

end BeaconState

end

/-! ## Deltas -/

namespace BalanceDeltas

/-- The deltas have an entry for each of `n` validators. -/
structure Sized (n : Nat) (d : BalanceDeltas) : Prop where
  rewards : d.rewards.length = n
  penalties : d.penalties.length = n

omit [Preset] in
theorem zeroed_sized (n : Nat) : (zeroed n).Sized n :=
  ⟨length_replicate, length_replicate⟩

variable {n : Nat} {d : BalanceDeltas} {index : ValidatorIndex}

omit [Preset] in
theorem addDelta_sound {deltas : List Gwei} (hindex : index.val < deltas.length)
    (delta : Gwei) : Sound (addDelta deltas index delta) fun deltas' =>
      deltas'.length = deltas.length := by
  unfold addDelta
  refine .skip (fails_okOr.2 fun hnone => ?_) fun _ => .skip (by simp) fun _ => ?_
  · exact absurd (List.getElem?_eq_none_iff.1 hnone) (Nat.not_le.2 hindex)
  · exact .pure List.length_set

omit [Preset] in
theorem addReward_sound (hd : d.Sized n) (hindex : index.val < n) (delta : Gwei) :
    Sound (d.addReward index delta) (Sized n) := by
  unfold addReward
  exact .bind (addDelta_sound (hd.rewards ▸ hindex) delta) fun _ h =>
    .pure ⟨h.trans hd.rewards, hd.penalties⟩

omit [Preset] in
theorem addPenalty_sound (hd : d.Sized n) (hindex : index.val < n) (delta : Gwei) :
    Sound (d.addPenalty index delta) (Sized n) := by
  unfold addPenalty
  exact .bind (addDelta_sound (hd.penalties ▸ hindex) delta) fun _ h =>
    .pure ⟨hd.rewards, h.trans hd.penalties⟩

omit [Preset] in
/-- Balances have an entry for each place of a list of their length. -/
theorem balance_noMissing {l : List Gwei} (hlength : balances.length = l.length) {a : Gwei}
    {i : Nat} (hmem : (a, i) ∈ l.zipIdx) :
    NoMissing (okOr (balances.get? i) (.invariant (.missingBalance (Word.wrap i)))) := by
  have hlt : i < l.length := (List.getElem?_eq_some_iff.1 (mem_zipIdx_iff_getElem?.1 hmem)).1
  exact fails_okOr.2 fun hnone => absurd hnone (get?_ne_none (hlength ▸ hlt))

omit [Preset] in
theorem applyTo_sound (hd : d.Sized balances.length) : Sound (d.applyTo balances) fun balances' =>
      balances'.length = balances.length := by
  have hset : ∀ {b : BoundedList Gwei validatorRegistryLimit}, b.length = balances.length →
      ∀ i a, (b.set i a).length = balances.length :=
    fun hb i a => (BoundedList.length_set _ i a).trans hb
  unfold applyTo
  refine .bind (R := fun b => b.length = balances.length)
    (.foldlM (fun b ⟨reward, i⟩ hmem hb => ?_) rfl) fun rewarded h =>
      .foldlM (fun b ⟨penalty, i⟩ hmem hb => ?_) h
  · exact .skip (balance_noMissing (hb.trans hd.rewards.symm) hmem) fun _ =>
      .skip (by simp) fun _ => .pure (hset hb _ _)
  · exact .skip (balance_noMissing (hb.trans hd.penalties.symm) hmem) fun _ =>
      .pure (hset hb _ _)

end BalanceDeltas

/-! ## Lookups of a registered validator -/

namespace BeaconState

variable {s : BeaconState}

theorem Changes.ensures_parallel {x : Transition BeaconState} (h : Ensures x (Changes a p s))
    (hs : s.Parallel) : Ensures x Parallel :=
  h.imp fun _ h => h.moves.parallel hs

/-- A loop over a parallel state whose steps keep it parallel. -/
theorem noMissing_foldlM {α : Type} {f : BeaconState → α → Transition BeaconState} {l : List α}
    (hs : s.Parallel) (step : ∀ x s, s.Parallel → NoMissing (f s x))
    (changes : ∀ x s, Ensures (f s x) (Changes a p s)) : NoMissing (l.foldlM f s) :=
  .foldlM (fun s a _ hs => ⟨step a s hs, Changes.ensures_parallel (changes a s) hs⟩) hs

/-- Such a loop and the rest. -/
theorem noMissing_foldlM_bind {α β : Type} {f : BeaconState → α → Transition BeaconState}
    {g : BeaconState → Transition β} {l : List α} (hs : s.Parallel)
    (step : ∀ x s, s.Parallel → NoMissing (f s x))
    (changes : ∀ x s, Ensures (f s x) (Changes a p s)) (hg : ∀ s', s'.Parallel → NoMissing (g s')) :
    NoMissing (l.foldlM f s >>= g) :=
  (noMissing_foldlM hs step changes).bind
    (Changes.ensures_parallel (Changes.foldlM fun x s => changes x s) hs) hg

/-- A list of the length of the registry has an entry for a validator that has been found. -/
theorem exists_entry {α : Type} {l : BoundedList α validatorRegistryLimit} {i : Nat}
    (hlength : l.length = s.validators.length) (hv : s.validators.get? i = some v) :
    l.get? i ≠ none :=
  get?_ne_none (hlength ▸ lt_length_of_get? hv)

theorem entry_noMissing {α : Type} {l : BoundedList α validatorRegistryLimit} {i : Nat}
    {e : TransitionError} (hlength : l.length = s.validators.length)
    (hv : s.validators.get? i = some v) : NoMissing (okOr (l.get? i) e) :=
  fails_okOr.2 fun hnone => absurd hnone (exists_entry hlength hv)

/-- The indices of the eligible validators are in the registry. -/
theorem getEligibleValidatorIndices_lt : Ensures s.getEligibleValidatorIndices fun eligible =>
    ∀ index ∈ eligible, index.val < s.validators.length := by
  unfold getEligibleValidatorIndices
  refine .skip fun _ => .pure fun index hindex => ?_
  obtain ⟨⟨v, i⟩, hmem, hsome⟩ := mem_filterMap.1 hindex
  have hv : s.validators.get? i = some v := mem_zipIdx_iff_getElem?.1 hmem
  obtain ⟨-, heq⟩ := Option.ite_none_right_eq_some.1 hsome
  rw [← Option.some.inj heq, wrap_index hv]
  exact lt_length_of_get? hv

omit [Preset] in
theorem recordFlags_noMissing (accepted : AcceptedAttestation) {vi : ValidatorIndex} (base : Gwei)
    {u : FlagUpdate} (hvi : vi.val < u.participation.length) :
    NoMissing (recordFlags accepted vi base u) := by
  unfold recordFlags
  refine .foldlM (Q := fun u : FlagUpdate => vi.val < u.participation.length)
    (fun u entry _ hu => ⟨?_, ?_⟩) hvi
  · have hflags := get?_ne_none hu
    simp [hflags]
  · refine .ite (.skip fun flags => .ite (.pure hu) (.skip fun _ => .skip fun _ => .pure ?_))
      (.pure hu)
    exact hu.trans_eq (BoundedList.length_set _ _ _).symm

section

variable (hs : s.Parallel)

include hs

theorem updateBalance_noMissing (index : ValidatorIndex) {f : Gwei → Transition Gwei}
    (hf : ∀ b, NoMissing (f b)) : NoMissing (s.updateBalance index f) := by
  unfold updateBalance
  refine .lookup (by simp) fun v hv => ?_
  refine .skip (entry_noMissing hs.balances hv) fun b => ?_
  exact (hf b).skip fun _ => fails_pure _

theorem increaseBalance_sound (index : ValidatorIndex) (delta : Gwei) :
    Sound (s.increaseBalance index delta) Parallel :=
  ⟨updateBalance_noMissing hs index fun _ => by simp, Changes.ensures_parallel
    (increaseBalance_changes (a := .registry) (p := .block) index delta) hs⟩

theorem decreaseBalance_sound (index : ValidatorIndex) (delta : Gwei) :
    Sound (s.decreaseBalance index delta) Parallel :=
  ⟨updateBalance_noMissing hs index fun _ => by simp, Changes.ensures_parallel
    (decreaseBalance_changes (a := .registry) (p := .block) index delta) hs⟩

/-- The participation list of an epoch has an entry for every validator. -/
theorem participationAt_length (epoch : Epoch) :
    Ensures (s.participationAt epoch) fun r => r.1.length = s.validators.length := by
  unfold participationAt
  exact .ite (.pure hs.current) (.ite (.pure hs.previous) (.error _))

theorem getUnslashedParticipatingIndices_noMissing (flagIndex : Nat)
    (epoch : Epoch) : NoMissing (s.getUnslashedParticipatingIndices flagIndex epoch) := by
  unfold getUnslashedParticipatingIndices
  refine .skip (by simp) fun _ => ?_
  refine .bind (by simp [participationAt]) (participationAt_length hs epoch)
    fun ⟨participation, missing⟩ hlength => .foldlM_each fun out ⟨v, i⟩ hmem => ?_
  have hv : s.validators.get? i = some v := mem_zipIdx_iff_getElem?.1 hmem
  refine .ite ?_ (fails_pure _)
  exact .skip (entry_noMissing hlength hv) fun _ => fails_pure _

theorem getFlagIndexDeltas_sound (flagIndex : Nat) :
    Sound (s.getFlagIndexDeltas flagIndex) (BalanceDeltas.Sized s.validators.length) := by
  unfold getFlagIndexDeltas
  refine .skip (getUnslashedParticipatingIndices_noMissing hs _ _) fun _ => ?_
  refine .skip (by simp) fun _ => .skip (by simp) fun _ => ?_
  refine .skip (by simp) fun _ => .skip (by simp) fun _ =>
    .bind ⟨by simp, getEligibleValidatorIndices_lt⟩ fun eligible heligible => ?_
  refine .foldlM (fun d index hmem hd => .skip (by simp) fun _ => ?_)
    (BalanceDeltas.zeroed_sized _)
  have hindex := heligible index hmem
  refine .ite (.ite (.pure hd) ?_) (.ite ?_ (.pure hd))
  · exact .skip (by simp) fun _ => .skip (by simp) fun _ => .skip (by simp) fun _ =>
      BalanceDeltas.addReward_sound hd hindex _
  · exact .skip (by simp) fun _ => BalanceDeltas.addPenalty_sound hd hindex _

theorem getInactivityPenaltyDeltas_sound :
    Sound s.getInactivityPenaltyDeltas (BalanceDeltas.Sized s.validators.length) := by
  unfold getInactivityPenaltyDeltas
  refine .skip (getUnslashedParticipatingIndices_noMissing hs _ _) fun _ => ?_
  refine .bind ⟨by simp, getEligibleValidatorIndices_lt⟩ fun eligible heligible => ?_
  refine .foldlM (fun d index hmem hd => .ite (.pure hd) ?_) (BalanceDeltas.zeroed_sized _)
  have hindex := heligible index hmem
  have hscore : s.inactivityScores.get? index.val ≠ none :=
    get?_ne_none (hindex.trans_eq hs.scores.symm)
  exact .skip (by simp) fun _ => .skip (by simp [hscore]) fun _ => .skip (by simp) fun _ =>
    BalanceDeltas.addPenalty_sound hd hindex _

/-! ## Operations -/

theorem initiateValidatorExit_parallel (index : ValidatorIndex) :
    Ensures (s.initiateValidatorExit index) Parallel := by
  unfold initiateValidatorExit
  refine .skip fun v => .ite (.pure hs) ?_
  refine .bind (computeExitEpochAndUpdateChurn_effect _) fun ⟨t, exitEpoch⟩ ⟨_, ht, _⟩ => ?_
  have hregistry : t.registry = { s.registry with earliestExitEpoch := exitEpoch } :=
    congrArg registry ht
  have hparallel : t.registry.Parallel := hregistry ▸ hs.of_length rfl rfl rfl rfl rfl
  exact .skip fun _ => .pure (hparallel.of_length (length_modify _ _ _) rfl rfl rfl rfl)

theorem slashValidator_sound (index : ValidatorIndex) (whistleblower : Option ValidatorIndex) :
    Sound (s.slashValidator index whistleblower) Parallel := by
  unfold slashValidator
  refine .skip (by simp) fun _ => .skip (by simp) fun _ => .skip (by simp) fun _ => ?_
  refine .bind ⟨by simp, initiateValidatorExit_parallel hs index⟩ fun s₁ hs₁ => ?_
  refine .bind (decreaseBalance_sound ?_ _ _) fun s₂ hs₂ => .skip (by simp) fun _ => ?_
  · exact hs₁.of_length (length_modify _ _ _) rfl rfl rfl rfl
  exact .bind (increaseBalance_sound hs₂ _ _) fun s₃ hs₃ => increaseBalance_sound hs₃ _ _

theorem participationOf_length (current : Bool) :
    (s.participationOf current).length = s.validators.length := by
  unfold participationOf
  cases current
  · exact hs.previous
  · exact hs.current

theorem recordAttestationParticipation_noMissing (accepted : AcceptedAttestation) :
    NoMissing (s.recordAttestationParticipation accepted) := by
  unfold recordAttestationParticipation
  refine .skip (.foldlM (Q := fun acc : FlagUpdate × BuilderPendingPayment =>
    acc.1.participation.length = s.validators.length) (fun acc vi _ hacc => ⟨?_, ?_⟩)
    (participationOf_length hs _)) fun _ => fails_pure _
  · refine .bind (getBaseReward_noMissing s vi) (Q := fun _ => vi.val < s.validators.length)
      ?_ fun base hvi => ?_
    · unfold getBaseReward
      refine .lookup fun v hv _ _ => ?_
      exact lt_length_of_get? hv
    · exact .skip (recordFlags_noMissing _ _ (hvi.trans_eq hacc.symm)) fun _ => by simp
  · refine .skip fun base => .bind (recordFlags_length _ _ _ _) fun u hu => ?_
    exact .ite (.skip fun _ => .skip fun _ => .pure (hu.trans hacc)) (.pure (hu.trans hacc))

theorem processAttestation_noMissing [Crypto] (attestation : Attestation) :
    NoMissing (s.processAttestation attestation) := by
  unfold processAttestation rewardAttestationProposer
  refine .skip (acceptAttestation_noMissing s attestation) fun accepted => ?_
  refine .bind (recordAttestationParticipation_noMissing hs accepted)
    (recordAttestationParticipation_changes accepted) fun r hr => ?_
  exact .skip (by simp) fun _ => (increaseBalance_sound (hr.moves.parallel hs) _ _).1

theorem processProposerSlashing_noMissing [Crypto] (slashing : ProposerSlashing) :
    NoMissing (s.processProposerSlashing slashing) := by
  have hcleared : ∀ slot index, (s.clearSlashedPayment slot index).Parallel := by
    intro slot index
    unfold Parallel
    rw [clearSlashedPayment_eq]
    exact hs
  simp [processProposerSlashing, (slashValidator_sound (hcleared _ _) _ _).1]

theorem processAttesterSlashing_noMissing [Crypto] (slashing : AttesterSlashing) :
    NoMissing (s.processAttesterSlashing slashing) := by
  unfold processAttesterSlashing
  refine .skip (by simp) fun _ => .skip (by simp) fun _ => .skip (by simp) fun _ => ?_
  refine .skip (by simp) fun _ => .skip (.foldlM (Q := fun acc : BeaconState × Bool =>
    acc.1.Parallel) (fun acc vi _ hacc => ⟨?_, ?_⟩) hs) fun _ => by simp
  · simp [(slashValidator_sound hacc _ _).1]
  · refine .lookup fun v hv => .dite (fun hslashable => ?_) fun _ => ?_
    · exact .bind (slashValidator_sound hacc vi none).2 fun _ h => .pure h
    · exact .pure hacc

theorem processOperations_noMissing [Crypto] (body : BeaconBlockBody) :
    NoMissing (s.processOperations body) := by
  unfold processOperations
  refine .skip (by simp) fun _ => ?_
  refine noMissing_foldlM_bind hs (fun a _ h => processProposerSlashing_noMissing h a)
    (fun a _ => processProposerSlashing_changes a) fun s₁ hs₁ => ?_
  refine noMissing_foldlM_bind hs₁ (fun a _ h => processAttesterSlashing_noMissing h a)
    (fun a _ => processAttesterSlashing_changes (a := .registry) a) fun s₂ hs₂ => ?_
  refine .skip (noMissing_foldlM hs₂ (fun a _ h => processAttestation_noMissing h a)
    fun a _ => processAttestation_changes a) fun s₃ => ?_
  refine .skip (.foldlM_each fun _ _ _ => by simp [processVoluntaryExit]) fun s₄ => ?_
  refine .skip (.foldlM_each fun _ _ _ => by simp [processBlsToExecutionChange]) fun s₅ => ?_
  exact .skip (.forM fun _ _ => by simp) fun _ => fails_pure _

/-! ## Requests -/

theorem queueExcessActiveBalance_noMissing (index : ValidatorIndex) :
    NoMissing (s.queueExcessActiveBalance index) := by
  unfold queueExcessActiveBalance
  refine .lookup (by simp) fun v hv => ?_
  refine .skip (entry_noMissing hs.balances hv) fun _ => ?_
  simp

theorem switchToCompoundingValidator_noMissing (index : ValidatorIndex) :
    NoMissing (s.switchToCompoundingValidator index) := by
  unfold switchToCompoundingValidator
  refine .skip (by simp) fun _ => queueExcessActiveBalance_noMissing ?_ index
  exact hs.of_length (length_modify _ _ _) rfl rfl rfl rfl

theorem processWithdrawalRequest_noMissing (request : WithdrawalRequest) :
    NoMissing (s.processWithdrawalRequest request) := by
  unfold processWithdrawalRequest
  refine .ite (fails_pure _) ?_
  split
  · refine .lookup (by simp) fun v hv => ?_
    have hbalance := exists_entry hs.balances hv
    simp [hbalance]
  · exact fails_pure _

theorem processConsolidationRequest_noMissing (request : ConsolidationRequest) :
    NoMissing (s.processConsolidationRequest request) := by
  unfold processConsolidationRequest
  refine .ite ?_ ?_
  · split
    · simp [switchToCompoundingValidator_noMissing hs]
    · exact fails_pure _
  · refine .ite (fails_pure _) (.ite (fails_pure _) ?_)
    refine .skip (by simp) fun _ => .ite (fails_pure _) ?_
    split
    · split
      · simp [computeConsolidationEpochAndUpdateChurn]
      · exact fails_pure _
    · exact fails_pure _

theorem applyParentExecutionPayload_noMissing [Crypto] (requests : ExecutionRequests) :
    NoMissing (s.applyParentExecutionPayload requests) := by
  unfold applyParentExecutionPayload
  refine noMissing_foldlM_bind hs (fun _ _ _ => by simp [processDepositRequest])
    (fun r _ => processDepositRequest_changes (a := .registry) r) fun s₁ hs₁ => ?_
  refine noMissing_foldlM_bind hs₁ (fun r _ h => processWithdrawalRequest_noMissing h r)
    (fun r _ => processWithdrawalRequest_changes (a := .registry) r) fun s₂ hs₂ => ?_
  refine .skip (noMissing_foldlM hs₂ (fun r _ h => processConsolidationRequest_noMissing h r)
    fun r _ => processConsolidationRequest_changes (a := .registry) r) fun s₃ => ?_
  refine .skip (.foldlM_each fun _ _ _ => by simp) fun s₄ => ?_
  refine .skip (.foldlM_each fun _ _ _ => by simp) fun s₅ => ?_
  cases s₅.builderPaymentIndexForSlot s.latestExecutionPayloadBid.slot with
  | some index => simp [settleBuilderPayment, queueBuilderPendingWithdrawal]
  | none => simp [queueBuilderPendingWithdrawal]

theorem processParentExecutionPayload_noMissing [Crypto] (block : BeaconBlock) :
    NoMissing (s.processParentExecutionPayload block) := by
  simp [processParentExecutionPayload, applyParentExecutionPayload_noMissing hs]

/-! ## Withdrawals -/

theorem getBalanceAfterWithdrawals_noMissing {index : ValidatorIndex}
    (hv : s.validators.get? index.val = some v) (withdrawals : List Withdrawal) :
    NoMissing (s.getBalanceAfterWithdrawals index withdrawals) := by
  unfold getBalanceAfterWithdrawals
  refine .skip (entry_noMissing hs.balances hv) fun _ => ?_
  exact .skip (fails_checkedSum (by simp) _) fun _ => fails_pure _

theorem getPendingPartialWithdrawals_noMissing (first : WithdrawalIndex)
    (prior : List Withdrawal) : NoMissing (s.getPendingPartialWithdrawals first prior) := by
  unfold getPendingPartialWithdrawals
  refine .skip (by simp) fun _ => .foldBreakM_each fun w entry _ => ?_
  refine .ite (fails_pure _) ?_
  refine .lookup (by simp) fun v hv => ?_
  exact .skip (getBalanceAfterWithdrawals_noMissing hs hv _) fun _ => by simp

theorem getValidatorsSweepWithdrawals_noMissing (first : WithdrawalIndex)
    (prior : List Withdrawal) : NoMissing (s.getValidatorsSweepWithdrawals first prior) := by
  unfold getValidatorsSweepWithdrawals
  refine .ite (fails_pure _) ?_
  refine .skip (by simp) fun _ => .skip (by simp) fun _ => .foldBreakM_each fun w i _ => ?_
  refine .ite (fails_pure _) ?_
  refine .lookup (by simp) fun v hv => ?_
  exact .skip (getBalanceAfterWithdrawals_noMissing hs hv _) fun _ => by simp

theorem getExpectedWithdrawals_noMissing : NoMissing s.getExpectedWithdrawals := by
  unfold getExpectedWithdrawals
  refine .skip ?_ fun payouts => ?_
  · unfold getBuilderWithdrawals
    exact .skip (by simp) fun _ => .foldBreakM_each fun _ _ _ => by simp
  refine .skip (getPendingPartialWithdrawals_noMissing hs _ _) fun partials => .skip ?_ ?_
  · unfold getBuildersSweepWithdrawals
    refine .ite (fails_pure _) (.skip (by simp) fun _ => ?_)
    exact .skip (by simp) fun _ => .foldBreakM_each fun _ _ _ => by simp
  · intro builders
    exact .skip (getValidatorsSweepWithdrawals_noMissing hs _ _) fun _ => fails_pure _

theorem applyWithdrawals_noMissing (withdrawals : List Withdrawal) :
    NoMissing (s.applyWithdrawals withdrawals) := by
  unfold applyWithdrawals
  refine .foldlM (fun s w _ hs => ⟨?_, ?_⟩) hs
  · simp [(decreaseBalance_sound hs _ _).1]
  · refine Changes.ensures_parallel (a := .payload) (p := .block)
      (.ite ?_ (decreaseBalance_changes _ _)) hs
    refine .skip fun _ => .lookup fun b hb => ?_
    exact .pure (.of_payload (registry_builders (map_set_same hb rfl)) rfl)

theorem processWithdrawals_noMissing : NoMissing s.processWithdrawals := by
  unfold processWithdrawals
  refine .ite (fails_pure _) ?_
  refine .skip (getExpectedWithdrawals_noMissing hs) fun expected => ?_
  refine .skip (applyWithdrawals_noMissing hs _) fun s₁ => .skip ?_ fun s₂ => .skip ?_ fun s₃ => ?_
  · unfold updateNextWithdrawalIndex
    split <;> simp
  · simp [updatePayloadExpectedWithdrawals]
  · refine .skip (by simp [updateNextWithdrawalBuilderIndex]) fun s₄ => ?_
    unfold updateNextWithdrawalValidatorIndex
    refine .ite (fails_pure _) (.ite ?_ (by simp))
    split <;> simp

/-! ## Blocks -/

theorem processSyncAggregate_noMissing [Crypto] (aggregate : SyncAggregate) :
    NoMissing (s.processSyncAggregate aggregate) := by
  unfold processSyncAggregate verifySyncAggregateSignature
  refine .skip (by simp) fun _ => .skip ?_ fun rewards => ?_
  · simp [syncAggregateRewards]
  unfold applySyncAggregateRewards
  refine .skip (by simp) fun proposer => noMissing_foldlM (a := .registry) (p := .block) hs ?_ ?_
  · intro member s hs
    refine .skip (by simp) fun index => .ite ?_ ?_
    · exact ((increaseBalance_sound hs _ _).bind fun _ h => increaseBalance_sound h _ _).1
    · exact (decreaseBalance_sound hs _ _).1
  · intro member s
    refine .skip fun index => .ite ?_ (decreaseBalance_changes _ _)
    exact Changes.bind (increaseBalance_changes _ _) fun _ => increaseBalance_changes _ _

theorem processParentExecutionPayload_parallel [Crypto] (block : BeaconBlock) :
    Ensures (s.processParentExecutionPayload block) Parallel := by
  refine (processParentExecutionPayload_changes block).imp fun s' ⟨s₁, h₁, hs'⟩ => ?_
  have hs₁ := h₁.moves.parallel hs
  rcases hs' with ⟨-, rfl⟩ | ⟨-, rfl⟩
  · exact hs₁
  · exact hs₁

theorem processBlock_noMissing [Crypto] (block : BeaconBlock) :
    NoMissing (s.processBlock block) := by
  unfold processBlock
  refine .bind (processParentExecutionPayload_noMissing hs block)
    (processParentExecutionPayload_parallel hs block) fun s₁ hs₁ => ?_
  refine .bind (by simp [processBlockHeader]) (Q := Parallel) ((processBlockHeader_writes block).imp
    fun _ h => h ▸ hs₁) fun s₂ hs₂ => ?_
  refine .bind (processWithdrawals_noMissing hs₂)
    (Changes.ensures_parallel processWithdrawals_changes hs₂) fun s₃ hs₃ => ?_
  refine .bind (by simp)
    (Changes.ensures_parallel (processExecutionPayloadBid_changes _) hs₃)
    fun s₄ hs₄ => ?_
  refine .bind (by simp [processRandao]) (Q := Parallel)
    ((processRandao_mix _).imp fun _ h => h.elim fun _ h => h ▸ hs₄) fun s₅ hs₅ => ?_
  refine .bind (by simp [processEth1Data]) (Q := Parallel)
    ((processEth1Data_writes _).imp fun _ h => h ▸ hs₅) fun s₆ hs₆ => ?_
  refine .bind (processOperations_noMissing hs₆ _)
    (Changes.ensures_parallel (processOperations_changes _) hs₆) fun s₇ hs₇ => ?_
  exact processSyncAggregate_noMissing hs₇ _

/-! ## Epochs -/

theorem processJustificationAndFinalization_noMissing :
    NoMissing s.processJustificationAndFinalization := by
  unfold processJustificationAndFinalization
  refine .ite (fails_pure _) (.skip (by simp) fun _ => ?_)
  refine .skip (getUnslashedParticipatingIndices_noMissing hs _ _) fun _ => ?_
  refine .skip (getUnslashedParticipatingIndices_noMissing hs _ _) fun _ => ?_
  refine .skip (by simp) fun _ => .skip (by simp) fun _ => .skip (by simp) fun _ => ?_
  refine .skip (by simp) fun _ => .skip (by simp [FinalityUpdate.finalizedCheckpoint]) fun c => ?_
  cases c <;> exact fails_pure _

theorem processInactivityUpdates_noMissing : NoMissing s.processInactivityUpdates := by
  unfold processInactivityUpdates
  refine .ite (fails_pure _) ?_
  refine .skip (getUnslashedParticipatingIndices_noMissing hs _ _) fun _ => .skip (by simp) ?_
  intro inLeak
  refine .bind (by simp) getEligibleValidatorIndices_lt fun eligible heligible => ?_
  refine .skip (.foldlM (Q := fun scores : BoundedList U64 validatorRegistryLimit =>
    scores.length = s.validators.length) (fun scores vi hvi hscores => ⟨?_, ?_⟩) hs.scores)
    fun _ => fails_pure _
  · have hentry := get?_ne_none ((heligible vi hvi).trans_eq hscores.symm)
    simp [hentry]
  · refine .skip fun score => .ite ?_ ?_
    · exact .skip fun _ => .pure ((BoundedList.length_set _ _ _).trans hscores)
    · exact .skip fun _ => .pure ((BoundedList.length_set _ _ _).trans hscores)

theorem processRewardsAndPenalties_noMissing : NoMissing s.processRewardsAndPenalties := by
  have hbalances : s.balances.length = s.validators.length := hs.balances
  unfold processRewardsAndPenalties
  refine .ite (fails_pure _) ?_
  refine .bind (.mapM fun flag _ => (getFlagIndexDeltas_sound hs flag).1)
    (.mapM fun flag _ => (getFlagIndexDeltas_sound hs flag).2) fun flagDeltas hflags => ?_
  obtain ⟨hfails, hsized⟩ := getInactivityPenaltyDeltas_sound hs
  refine hfails.bind hsized fun inactivity hinactivity => .skip ?_ fun _ => fails_pure _
  refine .foldlM (Q := fun b : BoundedList Gwei validatorRegistryLimit =>
    b.length = s.validators.length) (fun b d hd hb => ?_) hbalances
  have hd : d.Sized b.length := by
    rw [hb]
    rcases mem_append.1 hd with hd | hd
    · exact hflags d hd
    · exact mem_singleton.1 hd ▸ hinactivity
  obtain ⟨happly, happlied⟩ := BalanceDeltas.applyTo_sound hd
  exact ⟨happly, happlied.imp fun _ h => h.trans hb⟩

theorem processSlashings_noMissing : NoMissing s.processSlashings := by
  unfold processSlashings
  refine .skip (by simp) fun _ => .skip (fails_checkedSum (by simp) _) fun _ => ?_
  refine .skip (by simp) fun _ => .skip (by simp) fun _ => ?_
  refine noMissing_foldlM (a := .registry) (p := .epoch) hs (fun ⟨v, i⟩ s hs => ?_)
    fun ⟨v, i⟩ s => ?_
  · refine .ite (.skip (by simp) fun _ => ?_) (fails_pure _)
    exact (decreaseBalance_sound hs _ _).1
  · exact .ite (.skip fun _ => decreaseBalance_changes _ _) (.self s)

theorem applyPendingDeposit_noMissing [Crypto] (deposit : PendingDeposit) :
    NoMissing (s.applyPendingDeposit deposit) := by
  unfold applyPendingDeposit
  split
  · exact (increaseBalance_sound hs _ _).1
  · simp [addValidatorToRegistry]

theorem processPendingDeposits_noMissing [Crypto] : NoMissing s.processPendingDeposits := by
  unfold processPendingDeposits
  refine .skip (by simp) fun _ => .skip (by simp [getActivationChurnLimit]) fun _ => ?_
  refine .skip (by simp) fun _ => .skip (by simp) fun _ => .skip (.foldBreakM
    (Q := fun d : DepositSweep => d.state.Parallel) (fun d deposit _ hd => ⟨?_, ?_⟩) hs)
    fun _ => by simp
  · simp [depositStep, applyPendingDeposit_noMissing hd]
  · exact (depositStep_changes _ _ _ d deposit).imp fun r h => h.moves.parallel hd

theorem processPendingConsolidations_noMissing : NoMissing s.processPendingConsolidations := by
  unfold processPendingConsolidations
  refine .skip (by simp) fun nextEpoch => .skip (.foldBreakM (Q := fun acc : BeaconState × Nat =>
    acc.1.Parallel) (fun acc entry _ hacc => ⟨?_, ?_⟩) hs) fun _ => fails_pure _
  · unfold consolidationStep
    refine .lookup (by simp) fun v hv => ?_
    refine .ite (fails_pure _) (.ite (fails_pure _) ?_)
    refine .skip (entry_noMissing hacc.balances hv) fun balance => ?_
    refine .bind (decreaseBalance_sound hacc _ _).1 (decreaseBalance_sound hacc _ _).2 fun _ h => ?_
    exact (increaseBalance_sound h _ _).1.skip fun _ => fails_pure _
  · refine (consolidationStep_registry nextEpoch acc entry).imp fun r hr => ?_
    unfold Parallel
    rw [hr]
    exact hacc

theorem processEffectiveBalanceUpdates_noMissing : NoMissing s.processEffectiveBalanceUpdates := by
  unfold processEffectiveBalanceUpdates
  refine .skip (.foldlM_each fun vs i hi => ?_) fun _ => fails_pure _
  have hbalance : s.balances.get? i ≠ none :=
    get?_ne_none ((mem_range.1 hi).trans_eq hs.balances.symm)
  simp [hbalance]

theorem beforeSlashings_noMissing : NoMissing s.beforeSlashings := by
  unfold beforeSlashings
  refine .bind (processJustificationAndFinalization_noMissing hs)
    (Q := Parallel) (processJustificationAndFinalization_writes.imp fun _ h => h ▸ hs)
    fun s₁ hs₁ => ?_
  refine .bind (processInactivityUpdates_noMissing hs₁)
    (Changes.ensures_parallel (processInactivityUpdates_changes (a := .registry)) hs₁)
    fun s₂ hs₂ => ?_
  exact .skip (processRewardsAndPenalties_noMissing hs₂) fun s₃ =>
    processRegistryUpdates_noMissing s₃

theorem afterPendingDeposits_noMissing [Crypto] : NoMissing s.afterPendingDeposits := by
  unfold afterPendingDeposits
  refine .bind (processPendingConsolidations_noMissing hs)
    (Changes.ensures_parallel (processPendingConsolidations_changes (a := .registry)) hs)
    fun s₁ hs₁ => ?_
  refine .bind (processBuilderPendingPayments_noMissing s₁)
    (Changes.ensures_parallel processBuilderPendingPayments_changes hs₁)
    fun s₂ hs₂ => ?_
  refine .skip (processEffectiveBalanceUpdates_noMissing hs₂) fun s₃ => ?_
  refine .skip (processHistoricalSummariesUpdate_noMissing _) fun s₄ => ?_
  refine .skip (by simp [processParticipationFlagUpdates]) fun s₅ => ?_
  refine .skip (processSyncCommitteeUpdates_noMissing s₅) fun s₆ => ?_
  exact .skip (processProposerLookahead_noMissing s₆) fun s₇ => processPtcWindow_noMissing s₇

theorem processEpoch_noMissing [Crypto] : NoMissing s.processEpoch := by
  rw [processEpoch_cut]
  refine .bind (beforeSlashings_noMissing hs) (Q := Parallel) (beforeSlashings_changes.imp ?_)
    fun charged hcharged => ?_
  · rintro charged ⟨justified, hjustified, hcharged⟩
    refine hcharged.moves.parallel ?_
    rw [processJustificationAndFinalization_writes _ hjustified]
    exact hs
  refine .bind (processSlashings_noMissing hcharged) processSlashings_registry
    fun punished hpunished => ?_
  have hreset : punished.processEth1DataReset.Parallel := by
    unfold Parallel
    rw [processEth1DataReset_registry, hpunished]
    exact hcharged
  exact .bind (processPendingDeposits_noMissing hreset)
    (Changes.ensures_parallel processPendingDeposits_changes hreset) fun settled hsettled =>
      afterPendingDeposits_noMissing hsettled

/-- A turn of the slot loop looks up no missing entry and keeps the lists parallel. -/
theorem advanceSlot_sound [Crypto] : Sound s.advanceSlot Parallel := by
  refine ⟨?_, fun s' h => ?_⟩
  · unfold advanceSlot
    refine .bind (by simp [processSlot]) processSlot_registry
      fun filed hfiled => ?_
    have hparallel : filed.Parallel := by
      unfold Parallel
      rw [hfiled]
      exact hs
    simp [processEpoch_noMissing hparallel]
  · have hrun : Runs s [⟨s, none, s'⟩] s' := Runs.cons (e := ⟨s, none, s'⟩) h (.nil s')
    exact hrun.parallel hs

theorem processSlots_sound [Crypto] (target : Slot) : Sound (s.processSlots target) Parallel := by
  have hloop : ∀ n {s : BeaconState}, s.Parallel →
      Sound (processSlotsLoop target n s) Parallel := by
    intro n
    induction n with
    | zero => exact .pure
    | succ n ih =>
      intro s hs
      unfold processSlotsLoop
      exact .ite (.bind (advanceSlot_sound hs) fun s' hs' => ih hs') (.pure hs)
  unfold processSlots
  exact .skip (by simp) fun _ => hloop _ hs

theorem stateTransition_noMissing [Crypto] (signedBlock : SignedBeaconBlock) :
    NoMissing (s.stateTransition signedBlock) := by
  unfold stateTransition
  obtain ⟨hslots, hparallel⟩ := processSlots_sound hs signedBlock.message.slot
  refine hslots.bind hparallel fun next hnext => ?_
  refine .skip (by simp [verifyBlockSignature]) fun _ => ?_
  refine .skip (processBlock_noMissing hnext _) fun next' => ?_
  simp [expectPostStateRoot]

end

end BeaconState

/-! ## Whole runs -/

/-- From a coherent state every state of a run is coherent, and no step from it, by the slot loop,
a block or the whole transition, fails for a missing entry. -/
theorem registry_coherence [Crypto] {s s' : BeaconState} {events : List ChainEvent}
    (hrun : Runs s events s') (hs : s.Coherent) :
    s'.Coherent ∧ (∀ target, NoMissing (s'.processSlots target)) ∧
      (∀ block, NoMissing (s'.processBlock block)) ∧
      ∀ signedBlock, NoMissing (s'.stateTransition signedBlock) := by
  have hend := hrun.coherent hs
  have hparallel : s'.Parallel := (BeaconState.coherent_iff.1 hend).1
  exact ⟨hend, fun target => (BeaconState.processSlots_sound hparallel target).1,
    fun block => BeaconState.processBlock_noMissing hparallel block,
    fun signedBlock => BeaconState.stateTransition_noMissing hparallel signedBlock⟩

end Moonglass

namespace Moonglass.Devnet

open Lib

/-- The validators of the market, each with its own key. -/
def keyedMarket : BeaconState :=
  { market with
    validators := ⟨(List.range 8).map fun i =>
      { validator 32000000000 with pubkey := (zeros 48).set 0 (Word.wrap i) zero_lt_48 },
      by decide⟩ }

/-- The keyed market is coherent, and so it is after a block that slashes a validator. -/
theorem registry_coherence_slashedBlock : ∃ events s', Runs keyedMarket events s' ∧
    events.map (·.block) = [none, some slashedBlock] ∧ keyedMarket.Coherent ∧ s'.Coherent ∧
    NoMissing (s'.processSlots 40) := by
  have hcheck : followCheck (fun _ _ => True) keyedMarket [none, some slashedBlock] = true := by
    decide +kernel
  obtain ⟨events, s', hruns, hblocks, -⟩ := followCheck_runs hcheck
  have hstart : keyedMarket.Coherent :=
    ⟨by decide, by decide, by decide, by decide, by decide, by decide⟩
  obtain ⟨hend, hslots, -⟩ := registry_coherence hruns hstart
  exact ⟨events, s', hruns, hblocks, hstart, hend, hslots 40⟩

end Moonglass.Devnet
