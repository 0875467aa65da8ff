import Moonglass.StateTransition.Registry

/-
  What each function of the state transition changes: block operations first, then the phases of an
  epoch. Every function is walked once; its moves on the registry, the caps and the parts of the
  state it leaves alone are read off one relation.
-/

namespace Moonglass

open Lib BoundedList Word

variable [Preset]
variable {index : ValidatorIndex} {pubkey : BLSPubkey} {v : Validator} {epoch : Epoch}

namespace BeaconState

variable {a : Reach} {p : Phase} {s : BeaconState}

/-! ## Balances and exits -/

theorem registry_balances {balances : BoundedList Gwei validatorRegistryLimit}
    (h : balances.length = s.balances.length) :
    ({ s with balances } : BeaconState).registry = s.registry :=
  congrArg (fun n => { s.registry with balanceCount := n }) h

theorem updateBalance_registry (index : ValidatorIndex) (f : Gwei → Transition Gwei) :
    Ensures (s.updateBalance index f) fun s' => s'.registry = s.registry := by
  unfold updateBalance
  refine .skip fun _ => .skip fun _ => .skip fun _ => .pure ?_
  exact registry_balances (length_set _ _ _)

theorem updateBalance_changes (index : ValidatorIndex) (f : Gwei → Transition Gwei) :
    Ensures (s.updateBalance index f) (Changes a p s) := by
  unfold updateBalance
  refine .skip fun _ => .skip fun _ => .skip fun _ => .pure (.of_eq ?_ rfl rfl)
  exact registry_balances (length_set _ _ _)

theorem increaseBalance_changes (index : ValidatorIndex) (delta : Gwei) :
    Ensures (s.increaseBalance index delta) (Changes a p s) := updateBalance_changes index _

theorem decreaseBalance_changes (index : ValidatorIndex) (delta : Gwei) :
    Ensures (s.decreaseBalance index delta) (Changes a p s) := updateBalance_changes index _

theorem computeExitEpochAndUpdateChurn_effect (balance : Gwei) :
    Ensures (s.computeExitEpochAndUpdateChurn balance) fun r => ∃ remaining,
      r.1 = { s with exitBalanceToConsume := remaining, earliestExitEpoch := r.2 } ∧
      s.earliestExitEpoch ≤ r.2 ∧ s.slot.epoch.val + 1 + maxSeedLookahead ≤ r.2.val := by
  unfold computeExitEpochAndUpdateChurn
  refine .skip fun _ => .bind (consumeChurnBudget_epoch _ _ _ _ _) fun r hr => ?_
  exact .pure ⟨r.2, rfl, hr⟩

theorem computeConsolidationEpochAndUpdateChurn_effect (balance : Gwei) :
    Ensures (s.computeConsolidationEpochAndUpdateChurn balance) fun r => ∃ remaining,
      r.1 = { s with
        consolidationBalanceToConsume := remaining, earliestConsolidationEpoch := r.2 } ∧
      s.earliestConsolidationEpoch ≤ r.2 ∧
      s.slot.epoch.val + 1 + maxSeedLookahead ≤ r.2.val := by
  unfold computeConsolidationEpochAndUpdateChurn
  refine .skip fun _ => .bind (consumeChurnBudget_epoch _ _ _ _ _) fun r hr => ?_
  exact .pure ⟨r.2, rfl, hr⟩

omit [Preset] in
theorem withdrawable_val {e w : Epoch} {error : TransitionError}
    (h : okOr (e.checkedAdd minValidatorWithdrawabilityDelay) error = .ok w) :
    w.val = e.val + minValidatorWithdrawabilityDelay :=
  checkedAdd_eq_some.1 (okOr_eq_ok.1 h)

/-- An exit is scheduled where there is none, and nothing is done where there is one. -/
theorem initiateValidatorExit_effect (index : ValidatorIndex) :
    Ensures (s.initiateValidatorExit index) fun s' =>
      ∃ v, s.validators.get? index.val = some v ∧
        (v.exitEpoch ≠ farFutureEpoch ∧ s' = s ∨
          v.exitEpoch = farFutureEpoch ∧ ∃ exitEpoch withdrawableEpoch remaining,
            LeavesAt s.slot.epoch s.earliestExitEpoch exitEpoch withdrawableEpoch ∧
            s' = { s with
              exitBalanceToConsume := remaining
              earliestExitEpoch := exitEpoch
              validators := s.validators.modify index.val fun v =>
                { v with exitEpoch, withdrawableEpoch } }) := by
  unfold initiateValidatorExit
  refine .lookup fun v hv => .dite (fun hexit => ?_) fun hfar => ?_
  · exact .pure ⟨v, hv, .inl ⟨hexit, rfl⟩⟩
  · refine .bind (computeExitEpochAndUpdateChurn_effect _) fun r ⟨remaining, hr, hle, hlate⟩ => ?_
    refine .bind (fun _ h => withdrawable_val h) fun w hw => .pure ⟨v, hv, .inr ⟨not_not.1 hfar, ?_⟩⟩
    refine ⟨r.2, w, remaining, ⟨hle, hlate, hw⟩, ?_⟩
    rw [hr]

theorem initiateValidatorExit_changes
    (hactivated : ∀ v, s.validators.get? index.val = some v → v.activationEpoch ≤ s.slot.epoch) :
    Ensures (s.initiateValidatorExit index) (Changes a p s) := by
  refine (initiateValidatorExit_effect index).imp fun s' ⟨v, hv, h⟩ => ?_
  rcases h with ⟨-, rfl⟩ | ⟨hfar, exitEpoch, withdrawableEpoch, remaining, hat, rfl⟩
  · exact .refl _
  · exact .single (.exit hv ⟨hfar, hactivated v hv⟩ hat) rfl rfl rfl
      (forall_mem_modify fun _ _ hc => ⟨hc.dvd, hc.le⟩)

theorem slashValidator_changes {index : ValidatorIndex} {whistleblower : Option ValidatorIndex}
    (hslashable : ∀ v, s.validators.get? index.val = some v →
      v.slashed = false ∧ v.activationEpoch ≤ s.slot.epoch) :
    Ensures (s.slashValidator index whistleblower) (Changes a .block s) := by
  unfold slashValidator
  refine .lookup fun v hv => ?_
  refine .found checkedAdd_eq_some.1 fun extended hext => ?_
  refine .found checkedAdd_eq_some.1 fun bucket hbucket => ?_
  refine .bind (fun s₁ h₁ => And.intro (initiateValidatorExit_effect index s₁ h₁)
    (initiateValidatorExit_changes (a := a) (p := .block) (fun v hv => (hslashable v hv).2) s₁ h₁))
    fun s₁ ⟨h₁, hmoves⟩ => ?_
  -- the exit leaves the bucket and the balance as they were read before it
  obtain ⟨v₁, hv₁, hslashed, hbalance, hexit, hslashings⟩ : ∃ v₁,
      s₁.validators.get? index.val = some v₁ ∧ v₁.slashed = false ∧
      v₁.effectiveBalance = v.effectiveBalance ∧ v₁.exitEpoch ≠ farFutureEpoch ∧
      s₁.slashings = s.slashings := by
    obtain ⟨v', hv', h₁⟩ := h₁
    obtain rfl := Option.some.inj (hv.symm.trans hv')
    have hslashed := (hslashable v hv).1
    rcases h₁ with ⟨hexit, rfl⟩ | ⟨-, exitEpoch, withdrawableEpoch, remaining, hat, rfl⟩
    · exact ⟨v, hv, hslashed, rfl, hexit, rfl⟩
    · refine ⟨{ v with exitEpoch, withdrawableEpoch }, ?_, hslashed, rfl, hat.ne_farFuture, rfl⟩
      rw [get?_modify, if_pos rfl, hv]
      rfl
  have hepoch : s.getCurrentEpoch = s₁.slot.epoch := congrArg Slot.epoch hmoves.slot.symm
  have hslash : Changes a .block s₁ { s₁ with
      validators := s₁.validators.modify index.val fun v =>
        { v with slashed := true, withdrawableEpoch := max v.withdrawableEpoch extended }
      slashings := ringSet s₁.slashings s.getCurrentEpoch.val bucket } := by
    rw [hepoch]
    refine .single (.slash hv₁ hslashed hexit (hepoch ▸ hext) ?_) rfl rfl rfl
      (forall_mem_modify fun _ _ hc => ⟨hc.dvd, hc.le⟩)
    rw [hbucket, hepoch, ← hslashings, hbalance]
    rfl
  refine .bind (decreaseBalance_changes (a := a) (p := .block) _ _) fun s₃ h₃ => .skip fun _ => ?_
  refine .bind (increaseBalance_changes (a := a) (p := .block) _ _) fun s₄ h₄ => ?_
  exact (increaseBalance_changes _ _).imp fun _ h =>
    (((hmoves.trans hslash).trans h₃).trans h₄).trans h

/-! ## Builders -/

theorem registry_builders {builders : BoundedList Builder builderRegistryLimit}
    (h : builders.toList.map (·.pubkey) = s.builders.toList.map (·.pubkey)) :
    ({ s with builders } : BeaconState).registry = s.registry :=
  congrArg (fun keys => { s.registry with builderKeys := keys }) h

theorem queueBuilderPendingWithdrawal_changes (w : BuilderPendingWithdrawal) :
    Ensures (s.queueBuilderPendingWithdrawal w) (Changes .payload p s) := by
  unfold queueBuilderPendingWithdrawal
  exact .skip fun _ => .pure (.of_payload rfl rfl)

theorem settleBuilderPayment_changes (index : Nat) :
    Ensures (s.settleBuilderPayment index) (Changes .payload p s) := by
  unfold settleBuilderPayment
  refine .skip fun payment => .ite ?_ ?_
  · exact Changes.bind (queueBuilderPendingWithdrawal_changes _) fun _ => .pure (.of_payload rfl rfl)
  · exact Changes.bind (.self s) fun _ => .pure (.of_payload rfl rfl)

theorem settleBuilderPaymentIfQuorum_changes (payment : BuilderPendingPayment) :
    Ensures (s.settleBuilderPaymentIfQuorum payment) (Changes .payload p s) := by
  unfold settleBuilderPaymentIfQuorum
  exact .skip fun _ => .ite (queueBuilderPendingWithdrawal_changes _) (.self s)

theorem recordAcceptedBid_changes (s : BeaconState) (bid : ExecutionPayloadBid)
    (proposer : ValidatorIndex) : Changes .payload .block s (s.recordAcceptedBid bid proposer) := by
  unfold recordAcceptedBid
  by_cases h : bid.value.val = 0
  · rw [if_pos h]
    exact .of_payload rfl rfl
  · rw [if_neg h]
    exact .of_payload rfl rfl

theorem processExecutionPayloadBid_changes [Crypto] (bid : SignedExecutionPayloadBid) :
    Ensures (s.processExecutionPayloadBid bid) (Changes .payload .block s) := by
  unfold processExecutionPayloadBid
  refine .skip fun _ => .skip fun _ => .skip fun proposer => ?_
  exact .pure (recordAcceptedBid_changes s _ proposer)

theorem initiateBuilderExit_changes (index : BuilderIndex) :
    Ensures (s.initiateBuilderExit index) (Changes .payload .block s) := by
  unfold initiateBuilderExit
  refine .skip fun _ => .skip fun _ => .pure (.of_payload (registry_builders ?_) rfl)
  refine map_modify_same (fun b => ?_) _ _
  rfl

theorem not_mem_builderKeys (h : s.builderIndex pubkey = none) :
    pubkey ∉ s.registry.builderKeys := by
  intro hmem
  obtain ⟨b, hb, rfl⟩ := List.mem_map.1 hmem
  have hnone := List.findIdx?_eq_none_iff.1 (Option.map_eq_none_iff.1 h) b hb
  simp at hnone

theorem addBuilderToRegistry_changes (version : U8) (address : ExecutionAddress) (amount : Gwei)
    (slot : Slot) (hnew : s.builderIndex pubkey = none) :
    Ensures (s.addBuilderToRegistry pubkey version address amount slot) (Changes .payload .block s) := by
  unfold addBuilderToRegistry
  refine .ite ?_ ?_
  · refine .pure (.building (.single (.build ⟨pubkey, not_mem_builderKeys hnew,
      .inr ⟨s.getIndexForNewBuilder, rfl⟩⟩) ?_) rfl rfl)
    exact congrArg (fun keys => { s.registry with builderKeys := keys }) List.map_set
  · refine .found push_eq_some.1 fun builders h => ?_
    refine .pure (.building (.single (.build ⟨pubkey, not_mem_builderKeys hnew, .inl rfl⟩) ?_) rfl rfl)
    have hkeys : builders.toList.map (·.pubkey) = s.builders.toList.map (·.pubkey) ++ [pubkey] := by
      rw [h.2, List.map_append]
      rfl
    exact congrArg (fun keys => { s.registry with builderKeys := keys }) hkeys

theorem processBuilderDepositRequest_changes [Crypto] (request : BuilderDepositRequest) :
    Ensures (s.processBuilderDepositRequest request) (Changes .payload .block s) := by
  unfold processBuilderDepositRequest
  cases hindex : s.builderIndex request.pubkey with
  | none => exact .ite (addBuilderToRegistry_changes _ _ _ _ hindex) (.self s)
  | some index =>
    refine .lookup fun b hb => .skip fun balance => .ite ?_ ?_
    · exact .skip fun _ => .pure (.of_payload (registry_builders (map_set_same hb rfl)) rfl)
    · exact .skip fun _ => .pure (.of_payload (registry_builders (map_set_same hb rfl)) rfl)

/-! ## Operations -/

theorem clearSlashedPayment_eq (s : BeaconState) (slot : Slot) (proposer : ValidatorIndex) :
    s.clearSlashedPayment slot proposer = { s with
      builderPendingPayments := (s.clearSlashedPayment slot proposer).builderPendingPayments } := by
  unfold clearSlashedPayment
  dsimp only
  repeat' split
  all_goals rfl

omit [Preset] in
theorem isSlashableValidator_iff :
    v.isSlashableValidator epoch = true ↔
      v.slashed = false ∧ v.activationEpoch ≤ epoch ∧ epoch < v.withdrawableEpoch := by
  unfold Validator.isSlashableValidator
  simp [and_assoc]

omit [Preset] in
theorem isActiveValidator_iff :
    v.isActiveValidator epoch = true ↔ v.activationEpoch ≤ epoch ∧ epoch < v.exitEpoch := by
  unfold Validator.isActiveValidator
  simp

/-- A proposer slashing clears the proposer's payment and slashes the proposer. -/
theorem processProposerSlashing_slashes [Crypto] (slashing : ProposerSlashing) :
    Ensures (s.processProposerSlashing slashing) (Changes .registry .block (s.clearSlashedPayment
      slashing.signedHeader1.message.slot slashing.signedHeader1.message.proposerIndex)) := by
  unfold processProposerSlashing
  refine .skip fun _ => .skip fun _ => .skip fun _ => ?_
  refine .lookup fun v hv => ?_
  refine .bind (fun _ h => isSlashableValidator_iff.1 (ensure_eq_ok.1 h)) fun _ hslashable => ?_
  refine .skip fun _ => .skip fun _ => slashValidator_changes fun v' hv' => ?_
  rw [clearSlashedPayment_eq] at hv' ⊢
  obtain rfl := Option.some.inj (hv.symm.trans hv')
  exact ⟨hslashable.1, hslashable.2.1⟩

theorem processProposerSlashing_changes [Crypto] (slashing : ProposerSlashing) :
    Ensures (s.processProposerSlashing slashing) (Changes .payload .block s) := by
  refine (processProposerSlashing_slashes slashing).imp fun _ h => Changes.trans ?_ h.widen
  rw [clearSlashedPayment_eq]
  exact .of_payload rfl rfl

theorem processAttesterSlashing_changes [Crypto] (slashing : AttesterSlashing) :
    Ensures (s.processAttesterSlashing slashing) (Changes a .block s) := by
  unfold processAttesterSlashing
  refine .skip fun _ => .skip fun _ => .skip fun _ => .skip fun _ => ?_
  refine .bind (Q := fun acc : BeaconState × Bool => Changes a .block s acc.1) ?_
    fun acc hacc => .skip fun _ => .pure hacc
  refine .foldlM (fun vi acc hacc => ?_) (Changes.refl s)
  refine .lookup fun v hv => .dite (fun hslashable => ?_)
    fun _ => .pure hacc
  refine .bind (slashValidator_changes fun v' hv' => ?_) fun s₁ h₁ => .pure (hacc.trans h₁)
  obtain rfl := Option.some.inj (hv.symm.trans hv')
  obtain ⟨hslashed, hactivated, -⟩ := isSlashableValidator_iff.1 hslashable
  exact ⟨hslashed, hacc.slot ▸ hactivated⟩

theorem setParticipationOf_registry (s : BeaconState) (current : Bool)
    {participation : BoundedList ParticipationFlags validatorRegistryLimit}
    (h : participation.length = (s.participationOf current).length) :
    (s.setParticipationOf current participation).registry = s.registry := by
  cases current with
  | false => exact congrArg (fun n => { s.registry with previousCount := n }) h
  | true => exact congrArg (fun n => { s.registry with currentCount := n }) h

omit [Preset] in
theorem recordFlags_length (accepted : AcceptedAttestation) (vi : ValidatorIndex) (base : Gwei)
    (u : FlagUpdate) : Ensures (recordFlags accepted vi base u) fun u' =>
      u'.participation.length = u.participation.length := by
  unfold recordFlags
  refine .foldlM (fun entry u' hu' => .ite ?_ (.pure hu')) rfl
  refine .skip fun flags => .ite (.pure hu') (.skip fun _ => .skip fun _ => .pure ?_)
  exact (length_set _ _ _).trans hu'

theorem recordAttestationParticipation_changes (accepted : AcceptedAttestation) :
    Ensures (s.recordAttestationParticipation accepted) fun r => Changes .votes .block s r.1 := by
  unfold recordAttestationParticipation
  refine .bind (Q := fun acc : FlagUpdate × BuilderPendingPayment =>
    acc.1.participation.length =
      (s.participationOf accepted.targetIsCurrentEpoch).length) ?_ fun acc hacc => .pure ?_
  · refine .foldlM (fun vi acc hacc => .skip fun base => ?_) rfl
    refine .bind (recordFlags_length accepted vi base _) fun u hu => ?_
    exact .ite (.skip fun _ => .skip fun _ => .pure (hu.trans hacc)) (.pure (hu.trans hacc))
  · have hregistry := setParticipationOf_registry s _ hacc
    refine .voting (.trans (.of_eq hregistry) (.of_eq rfl))
      (.of_validators (congrArg Registry.validators hregistry)) ?_
    cases accepted.targetIsCurrentEpoch <;> rfl

theorem processAttestation_changes [Crypto] (attestation : Attestation) :
    Ensures (s.processAttestation attestation) (Changes .votes .block s) := by
  unfold processAttestation rewardAttestationProposer
  refine .skip fun accepted => .bind (recordAttestationParticipation_changes accepted)
    fun r hr => .skip fun proposer => ?_
  exact (increaseBalance_changes _ _).imp fun _ h => hr.trans h

theorem processVoluntaryExit_changes [Crypto] (exit : SignedVoluntaryExit) :
    Ensures (s.processVoluntaryExit exit) (Changes a .block s) := by
  unfold processVoluntaryExit
  refine .skip fun _ => .lookup fun v hv => ?_
  refine .bind (fun _ h => isActiveValidator_iff.1 (ensure_eq_ok.1 h)) fun _ hactive => ?_
  refine .skip fun _ => .skip fun _ => .skip fun _ => .skip fun _ => .skip fun _ => ?_
  refine initiateValidatorExit_changes fun v' hv' => ?_
  obtain rfl := Option.some.inj (hv.symm.trans hv')
  exact hactive.1

theorem processBlsToExecutionChange_changes [Crypto] (change : SignedBLSToExecutionChange) :
    Ensures (s.processBlsToExecutionChange change) (Changes a .block s) := by
  unfold processBlsToExecutionChange
  refine .lookup fun v hv => ?_
  refine .guard fun hbls => .skip fun _ => .skip fun _ => ?_
  refine .pure (.single (.revise ?_) rfl rfl rfl (forall_mem_modify fun v' hv' hc => ?_))
  · exact forall₂_modify (fun _ => ⟨_, _, rfl⟩) (fun _ => ⟨_, _, rfl⟩) _ _
  · obtain rfl := Option.some.inj (hv.symm.trans hv')
    exact hc.execution hbls _

theorem processOperations_changes [Crypto] (body : BeaconBlockBody) :
    Ensures (s.processOperations body) (Changes .votes .block s) := by
  unfold processOperations
  refine .skip fun _ => ?_
  refine Changes.bind ((Changes.foldlM fun a _ => processProposerSlashing_changes a).imp fun _ h => h.toVotes) fun s₁ => ?_
  refine Changes.bind (Changes.foldlM fun a _ => processAttesterSlashing_changes a) fun s₂ => ?_
  refine Changes.bind (Changes.foldlM fun a _ => processAttestation_changes a) fun s₃ => ?_
  refine Changes.bind (Changes.foldlM fun a _ => processVoluntaryExit_changes a) fun s₄ => ?_
  refine Changes.bind (Changes.foldlM fun a _ => processBlsToExecutionChange_changes a) fun s₅ => ?_
  exact .skip fun _ => .self s₅

/-! ## Requests of the parent's payload -/

theorem processDepositRequest_changes (request : DepositRequest) :
    Ensures (s.processDepositRequest request) (Changes a .block s) := by
  unfold processDepositRequest
  refine .found push_eq_some.1 fun queue hqueue => ?_
  exact .pure (.single .queueDeposit
    (congrArg (fun queue => { s.registry with pendingDeposits := queue }) hqueue.2) rfl rfl id)

theorem queueExcessActiveBalance_changes (index : ValidatorIndex) :
    Ensures (s.queueExcessActiveBalance index) (Changes a .block s) := by
  unfold queueExcessActiveBalance
  refine .skip fun _ => .skip fun _ => .ite (.self s) (.skip fun _ => ?_)
  refine .found push_eq_some.1 fun queue hqueue => ?_
  have hlength := length_set s.balances index.val (Word.wrap minActivationBalance)
  exact .pure (.single .queueDeposit (congrArg₂ (fun count queue => { s.registry with
    balanceCount := count, pendingDeposits := queue }) hlength hqueue.2) rfl rfl id)

theorem switchToCompoundingValidator_changes (index : ValidatorIndex) :
    Ensures (s.switchToCompoundingValidator index) (Changes a .block s) := by
  unfold switchToCompoundingValidator
  refine .skip fun _ => (queueExcessActiveBalance_changes _).imp fun _ h => Changes.trans ?_ h
  refine .single (.revise ?_) rfl rfl rfl (forall_mem_modify fun _ _ hc => hc.compounding)
  exact forall₂_modify (fun _ => ⟨_, _, rfl⟩) (fun _ => ⟨_, _, rfl⟩) _ _

theorem processWithdrawalRequest_changes (request : WithdrawalRequest) :
    Ensures (s.processWithdrawalRequest request) (Changes a .block s) := by
  unfold processWithdrawalRequest
  refine .ite (.self s) ?_
  cases s.validatorIndex request.validatorPubkey with
  | none => exact .self s
  | some index =>
    refine .lookup fun v hv => .ite (.self s) (.ite (.self s) ?_)
    refine .dite (fun _ => .self s) fun hactive => ?_
    refine .ite (.self s) (.ite (.self s) (.skip fun pending => ?_))
    refine .ite (.ite (.self s) (initiateValidatorExit_changes fun v' hv' => ?_)) ?_
    · obtain rfl := Option.some.inj (hv.symm.trans hv')
      exact (isActiveValidator_iff.1 (by simpa using hactive)).1
    refine .ite (.self s) (.skip fun _ => .skip fun _ => .ite (.self s) ?_)
    refine .bind (computeExitEpochAndUpdateChurn_effect _) fun r ⟨remaining, hr, hle, hlate⟩ => ?_
    refine .bind (fun _ h => withdrawable_val h) fun w hw => ?_
    refine .found push_eq_some.1 fun queue hqueue => ?_
    rw [hr] at hqueue ⊢
    have hat : LeavesAt s.slot.epoch s.earliestExitEpoch r.2 w := ⟨hle, hlate, hw⟩
    have hindex : index.val < s.validators.length := (List.getElem?_eq_some_iff.1 hv).1
    exact .pure (.single (.queuePartial hindex hat) (congrArg (fun queue => { s.registry with
      earliestExitEpoch := r.2, pendingPartialWithdrawals := queue }) hqueue.2) rfl rfl id)

theorem processConsolidationRequest_changes (request : ConsolidationRequest) :
    Ensures (s.processConsolidationRequest request) (Changes a .block s) := by
  unfold processConsolidationRequest
  refine .ite ?_ (.ite (.self s) (.ite (.self s) (.skip fun limit => ?_)))
  · cases s.validatorIndex request.sourcePubkey with
    | none => exact .self s
    | some index => exact switchToCompoundingValidator_changes _
  refine .ite (.self s) ?_
  cases s.validatorIndex request.sourcePubkey with
  | none => exact .self s
  | some source =>
    cases s.validatorIndex request.targetPubkey with
    | none => exact .self s
    | some target =>
      refine .lookup fun v hv => ?_
      refine .ite (.self s) (.ite (.self s) (.skip fun _ => ?_))
      refine .ite (.self s) (.dite (fun _ => .self s) fun hactive => ?_)
      refine .dite (fun _ => .self s) fun hfar => ?_
      refine .ite (.self s) (.skip fun _ => .ite (.self s) ?_)
      refine .bind (computeConsolidationEpochAndUpdateChurn_effect _)
        fun r ⟨remaining, hr, hle, hlate⟩ => ?_
      refine .bind (fun _ h => withdrawable_val h) fun w hw => ?_
      refine .found push_eq_some.1 fun queue hqueue => ?_
      have hstaying : v.exitEpoch = farFutureEpoch := not_not.1 fun h => hfar (.inl h)
      have hactivated : v.activationEpoch ≤ s.slot.epoch :=
        (isActiveValidator_iff.1 (by simp at hactive; exact hactive.1)).1
      rw [hr] at hqueue ⊢
      have hat : LeavesAt s.slot.epoch s.earliestConsolidationEpoch r.2 w := ⟨hle, hlate, hw⟩
      exact .pure (.single (.consolidate hv ⟨hstaying, hactivated⟩ hat)
        (congrArg (fun queue => { s.registry with
          validators := s.registry.validators.modify source.val fun v =>
            { v with exitEpoch := r.2, withdrawableEpoch := w }
          earliestConsolidationEpoch := r.2
          pendingConsolidations := queue }) hqueue.2) rfl rfl
        (forall_mem_modify fun _ _ hc => ⟨hc.dvd, hc.le⟩))

theorem processBuilderExitRequest_changes (request : BuilderExitRequest) :
    Ensures (s.processBuilderExitRequest request) (Changes .payload .block s) := by
  unfold processBuilderExitRequest
  cases s.builderIndex request.pubkey with
  | none => exact .self s
  | some index =>
    refine .skip fun _ => .ite (.self s) (.skip fun _ => .ite (.self s) ?_)
    exact .skip fun _ => .ite (.self s) (initiateBuilderExit_changes _)

theorem applyParentExecutionPayload_changes [Crypto] (requests : ExecutionRequests) :
    Ensures (s.applyParentExecutionPayload requests) fun s' => ∃ s₁, Changes .payload .block s s₁ ∧
      s' = { s₁ with
        executionPayloadAvailability :=
          ringSet s₁.executionPayloadAvailability s.latestExecutionPayloadBid.slot.val true
        latestBlockHash := s.latestExecutionPayloadBid.blockHash } := by
  unfold applyParentExecutionPayload
  refine .bind (Changes.foldlM (a := .payload) fun r _ => processDepositRequest_changes r) fun s₁ h₁ => ?_
  refine .bind (Changes.foldlM (a := .payload) fun r _ => processWithdrawalRequest_changes r) fun s₂ h₂ => ?_
  refine .bind (Changes.foldlM (a := .payload) fun r _ => processConsolidationRequest_changes r) fun s₃ h₃ => ?_
  refine .bind (Changes.foldlM fun r _ => processBuilderDepositRequest_changes r) fun s₄ h₄ => ?_
  refine .bind (Changes.foldlM fun r _ => processBuilderExitRequest_changes r) fun s₅ h₅ => ?_
  have hrequests := (((h₁.trans h₂).trans h₃).trans h₄).trans h₅
  cases s₅.builderPaymentIndexForSlot s.latestExecutionPayloadBid.slot with
  | some index =>
    exact .bind (settleBuilderPayment_changes _) fun s₆ h₆ => .pure ⟨s₆, hrequests.trans h₆, rfl⟩
  | none =>
    refine .ite ?_ (.pure ⟨s₅, hrequests, rfl⟩)
    exact .bind (queueBuilderPendingWithdrawal_changes _) fun s₆ h₆ =>
      .pure ⟨s₆, hrequests.trans h₆, rfl⟩

/-- The parent phase leaves the state alone, or applies the payload and sets the bit of its slot. -/
theorem processParentExecutionPayload_changes [Crypto] (block : BeaconBlock) :
    Ensures (s.processParentExecutionPayload block) fun s' => ∃ s₁, Changes .payload .block s s₁ ∧
      (block.bid.parentBlockHash ≠ s.latestExecutionPayloadBid.blockHash ∧ s' = s₁ ∨
        block.bid.parentBlockHash = s.latestExecutionPayloadBid.blockHash ∧ s' = { s₁ with
            executionPayloadAvailability :=
              ringSet s₁.executionPayloadAvailability s.latestExecutionPayloadBid.slot.val true
            latestBlockHash := s.latestExecutionPayloadBid.blockHash }) := by
  unfold processParentExecutionPayload
  refine .dite (fun hempty => ?_) fun hfull => .skip fun _ => ?_
  · exact .skip fun _ => .pure ⟨s, .refl s, .inl ⟨hempty, rfl⟩⟩
  · exact (applyParentExecutionPayload_changes _).imp fun _ ⟨s₁, h₁, hs'⟩ =>
      ⟨s₁, h₁, .inr ⟨not_not.1 hfull, hs'⟩⟩

theorem processParentExecutionPayload_frame [Crypto] (block : BeaconBlock) :
    Ensures (s.processParentExecutionPayload block) (Frame s) := by
  refine (processParentExecutionPayload_changes block).imp fun s' ⟨s₁, h₁, hs'⟩ => ?_
  obtain ⟨hchain, hprevious, hcurrent⟩ := h₁.frame
  rcases hs' with ⟨-, rfl⟩ | ⟨-, rfl⟩
  · exact h₁.frame
  · exact ⟨hchain, hprevious, hcurrent⟩

/-! ## Withdrawals and the rest of a block -/

theorem applyWithdrawals_changes (withdrawals : List Withdrawal) :
    Ensures (s.applyWithdrawals withdrawals) (Changes .payload .block s) := by
  unfold applyWithdrawals
  refine Changes.foldlM fun w s => .ite ?_ (decreaseBalance_changes _ _)
  refine .skip fun _ => .lookup fun b hb => ?_
  exact .pure (.of_payload (registry_builders (map_set_same hb rfl)) rfl)

theorem updateNextWithdrawalIndex_changes (withdrawals : List Withdrawal) :
    Ensures (s.updateNextWithdrawalIndex withdrawals) (Changes .payload .block s) := by
  unfold updateNextWithdrawalIndex
  cases withdrawals.getLast? with
  | none => exact .self s
  | some latest => exact .skip fun _ => .pure (.of_payload rfl rfl)

theorem updatePayloadExpectedWithdrawals_changes (withdrawals : List Withdrawal) :
    Ensures (s.updatePayloadExpectedWithdrawals withdrawals) (Changes .payload .block s) := by
  unfold updatePayloadExpectedWithdrawals
  exact .skip fun _ => .pure (.of_payload rfl rfl)

omit [Preset] in
/-- A cursor that is reduced by the number of entries is in range. -/
theorem cursorMoves_mod {count : Nat} (cursor : U64) (next : Nat) (h : count ≠ 0) :
    CursorMoves count cursor (Word.wrap (next % count)) :=
  .inr (lt_of_le_of_lt (Nat.mod_le _ _) (Nat.mod_lt _ (Nat.pos_of_ne_zero h)))

theorem updateNextWithdrawalBuilderIndex_changes (count : U64) :
    Ensures (s.updateNextWithdrawalBuilderIndex count) (Changes a .block s) := by
  unfold updateNextWithdrawalBuilderIndex
  refine .dite (fun _ => .self s) fun hne => .skip fun next => .pure ?_
  have hlength : s.registry.builderKeys.length = s.builders.length := List.length_map _
  refine .single (.moveBuilderCursor ?_) rfl rfl rfl id
  rw [hlength]
  exact cursorMoves_mod _ _ hne

theorem updateNextWithdrawalValidatorIndex_changes (withdrawals : List Withdrawal) :
    Ensures (s.updateNextWithdrawalValidatorIndex withdrawals) (Changes a .block s) := by
  unfold updateNextWithdrawalValidatorIndex
  have hcursor : ∀ next : Nat, s.validators.length ≠ 0 → Changes a .block s { s with
      nextWithdrawalValidatorIndex := Word.wrap (next % s.validators.length) } := by
    intro next hne
    exact .single (.moveValidatorCursor (cursorMoves_mod _ _ hne)) rfl rfl rfl id
  refine .dite (fun _ => .self s) fun hne => .ite ?_ (.skip fun next => .pure (hcursor _ hne))
  cases withdrawals.getLast? with
  | none => exact .self s
  | some latest => exact .skip fun next => .pure (hcursor _ hne)

theorem processWithdrawals_changes : Ensures s.processWithdrawals (Changes .payload .block s) := by
  unfold processWithdrawals
  refine .ite (.self s) (.skip fun expected => ?_)
  refine Changes.bind (applyWithdrawals_changes _) fun s₁ => ?_
  refine Changes.bind (updateNextWithdrawalIndex_changes _) fun s₂ => ?_
  refine Changes.bind (updatePayloadExpectedWithdrawals_changes _) fun s₃ => ?_
  have hdrop : Changes .payload .block s₃ { s₃ with
      builderPendingWithdrawals :=
        s₃.builderPendingWithdrawals.drop expected.processedBuilderWithdrawalsCount.val
      pendingPartialWithdrawals :=
        s₃.pendingPartialWithdrawals.drop expected.processedPartialWithdrawalsCount.val } :=
    .building (.single .dropPartials rfl) rfl rfl
  refine .bind (updateNextWithdrawalBuilderIndex_changes (a := .payload) _) fun s₄ h₄ => ?_
  exact (updateNextWithdrawalValidatorIndex_changes _).imp fun _ h => (hdrop.trans h₄).trans h

/-- The header phase replaces the latest header. -/
theorem processBlockHeader_writes [Crypto] (block : BeaconBlock) :
    Ensures (s.processBlockHeader block) fun s' =>
      s' = { s with latestBlockHeader := s'.latestBlockHeader } := by
  unfold processBlockHeader
  refine .skip fun _ => .skip fun _ => .skip fun _ => .skip fun _ => .skip fun _ => ?_
  exact .skip fun _ => .skip fun _ => .pure rfl

/-- The reveal of a block changes the mix of its own epoch. -/
theorem processRandao_mix [Crypto] (body : BeaconBlockBody) :
    Ensures (s.processRandao body) fun s' => ∃ mix, s' = { s with
      randaoMixes := ringSet s.randaoMixes s.slot.epoch.val mix } := by
  unfold processRandao
  exact .skip fun _ => .skip fun _ => .skip fun _ => .pure ⟨_, rfl⟩

/-- The vote of a block is added, and its data adopted when it has the majority. -/
theorem processEth1Data_writes (body : BeaconBlockBody) :
    Ensures (s.processEth1Data body) fun s' =>
      s' = { s with eth1Data := s'.eth1Data, eth1DataVotes := s'.eth1DataVotes } := by
  unfold processEth1Data
  exact .skip fun _ => .pure rfl

theorem processRandao_untouched [Crypto] (body : BeaconBlockBody) :
    Ensures (s.processRandao body) (Untouched s) :=
  (processRandao_mix body).imp fun _ ⟨_, h⟩ => h ▸ ⟨rfl, rfl, rfl, rfl⟩

theorem processEth1Data_untouched (body : BeaconBlockBody) :
    Ensures (s.processEth1Data body) (Untouched s) :=
  (processEth1Data_writes body).imp fun _ h => h ▸ ⟨rfl, rfl, rfl, rfl⟩

theorem processSyncAggregate_changes [Crypto] (aggregate : SyncAggregate) :
    Ensures (s.processSyncAggregate aggregate) (Changes a .block s) := by
  unfold processSyncAggregate applySyncAggregateRewards
  refine .skip fun _ => .skip fun rewards => .skip fun proposer => ?_
  refine Changes.foldlM fun member s => .skip fun index => .ite ?_ (decreaseBalance_changes _ _)
  exact Changes.bind (increaseBalance_changes _ _) fun _ => increaseBalance_changes _ _

/-! ## Epochs -/

theorem processInactivityUpdates_changes : Ensures s.processInactivityUpdates (Changes a .epoch s) := by
  unfold processInactivityUpdates
  refine .ite (.self s) (.skip fun _ => .skip fun _ => .skip fun _ => ?_)
  refine .bind (Q := fun scores => scores.length = s.inactivityScores.length) ?_
    fun scores hscores => ?_
  · refine .foldlM (fun vi scores hscores => .skip fun score => .ite ?_ (.skip fun _ => ?_)) rfl
    · exact .skip fun _ => .pure ((length_set _ _ _).trans hscores)
    · exact .pure ((length_set _ _ _).trans hscores)
  · exact .pure (.of_eq (congrArg (fun n => { s.registry with scoreCount := n }) hscores) rfl rfl)

omit [Preset] in
theorem applyTo_length (d : BalanceDeltas) (balances : BoundedList Gwei validatorRegistryLimit) :
    Ensures (d.applyTo balances) fun balances' => balances'.length = balances.length := by
  unfold BalanceDeltas.applyTo
  refine .bind (Q := fun rewarded => rewarded.length = balances.length) ?_ fun rewarded h => ?_
  · refine .foldlM (fun entry b hb => .skip fun _ => .skip fun _ => .pure ?_) rfl
    exact (length_set _ _ _).trans hb
  · refine .foldlM (fun entry b hb => .skip fun _ => .pure ?_) h
    exact (length_set _ _ _).trans hb

theorem processRewardsAndPenalties_changes :
    Ensures s.processRewardsAndPenalties (Changes a .epoch s) := by
  unfold processRewardsAndPenalties
  refine .ite (.self s) (.skip fun _ => .skip fun _ => ?_)
  refine .bind (Q := fun balances => balances.length = s.balances.length) ?_ fun balances h => ?_
  · exact .foldlM (fun d b hb => (applyTo_length d b).imp fun _ h => h.trans hb) rfl
  · exact .pure (.of_eq (registry_balances h) rfl rfl)

/-- Exits leave the activation epochs alone. -/
theorem initiateValidatorExit_activation (index : ValidatorIndex) :
    Ensures (s.initiateValidatorExit index) fun s' => ∀ k,
      (s'.validators.get? k).map (·.activationEpoch) =
        (s.validators.get? k).map (·.activationEpoch) := by
  refine (initiateValidatorExit_effect index).imp fun s' ⟨v, hv, h⟩ k => ?_
  rcases h with ⟨-, rfl⟩ | ⟨-, exitEpoch, withdrawableEpoch, remaining, -, rfl⟩
  · rfl
  · rw [get?_modify]
    split
    · rw [Option.map_map]; rfl
    · rfl

/-- The validators an epoch ejects are active, so they have been activated. -/
theorem eject_changes {toExit : List ValidatorIndex}
    (hactive : ∀ index ∈ toExit, ∃ v, s.validators.get? index.val = some v ∧
      v.activationEpoch ≤ s.slot.epoch) :
    Ensures (toExit.foldlM initiateValidatorExit s) (Changes a .epoch s) := by
  intro s' h
  refine (foldlM_inv (fun s' => Changes a .epoch s s' ∧ ∀ k,
    (s'.validators.get? k).map (·.activationEpoch) =
      (s.validators.get? k).map (·.activationEpoch)) ?_ ⟨.refl s, fun _ => rfl⟩ h).1
  intro index hindex s₁ s₂ ⟨hmoves, hkept⟩ h
  refine ⟨hmoves.trans (initiateValidatorExit_changes (fun v hv => ?_) s₂ h), fun k =>
    (initiateValidatorExit_activation index s₂ h k).trans (hkept k)⟩
  obtain ⟨v₀, hv₀, hle⟩ := hactive index hindex
  have hsame := hkept index.val
  rw [hv, hv₀] at hsame
  have hepoch : v.activationEpoch = v₀.activationEpoch := Option.some.inj hsame
  rw [hepoch, hmoves.slot]
  exact hle

omit [Preset] in
theorem wrap_index {l : BoundedList Validator validatorRegistryLimit} {i : Nat}
    (hv : l.get? i = some v) : (Word.wrap i : ValidatorIndex).val = i := by
  have hlt := lt_of_get? hv
  unfold validatorRegistryLimit at hlt
  exact wrap_val_of_lt (by omega)

/-- A revision that keeps the effective balance and the credentials. -/
theorem revise_changes {f : Validator → Validator} (hf : ∀ v, Revised v (f v))
    (hcapped : ∀ v : Validator, v.Capped → (f v).Capped) :
    Changes a p s { s with validators := s.validators.map f } := by
  refine .single (.revise ?_) rfl rfl rfl fun h => List.forall_mem_map.2 fun v hv =>
    hcapped v (h v hv)
  exact List.forall₂_map_right_iff.2 (List.forall₂_same.2 fun v _ => hf v)

theorem processRegistryUpdates_changes : Ensures s.processRegistryUpdates (Changes a .epoch s) := by
  unfold processRegistryUpdates
  dsimp only
  refine .bind (eject_changes (a := a) fun index hindex => ?_) fun s₂ h₂ => ?_
  · obtain ⟨⟨v, i⟩, hmem, hsome⟩ := List.mem_filterMap.1 hindex
    have hv : BoundedList.get? _ i = some v := List.mem_zipIdx_iff_getElem?.1 hmem
    have hcond := Option.ite_none_right_eq_some.1 hsome
    obtain rfl := Option.some.inj hcond.2
    have hactive := Bool.and_eq_true_iff.1 hcond.1
    rw [wrap_index hv]
    exact ⟨v, hv, (isActiveValidator_iff.1 hactive.1).1⟩
  refine .bind (fun _ h => computeActivationExitEpoch_val h) fun activation hactivation => .pure ?_
  have hrevised : Changes a .epoch s s₂ := by
    refine (revise_changes (fun v => ?_) fun v hc => ?_).trans h₂
    · split
      · exact ⟨_, _, rfl⟩
      · exact ⟨_, _, rfl⟩
    · split
      · exact ⟨hc.dvd, hc.le⟩
      · exact hc
  have hepoch : activation.val = s₂.slot.epoch.val + 1 + maxSeedLookahead := by
    rw [hrevised.slot]
    exact hactivation
  refine hrevised.trans (.single (.activate hepoch ?_) rfl rfl rfl
    fun h => List.forall_mem_map.2 fun v hv => ?_)
  · refine List.forall₂_map_right_iff.2 (List.forall₂_same.2 fun v _ => ?_)
    split
    · rename_i hwaiting
      exact .inr ⟨hwaiting.1, rfl⟩
    · exact .inl rfl
  · split
    · exact ⟨(h v hv).dvd, (h v hv).le⟩
    · exact h v hv

theorem processSlashings_registry : Ensures s.processSlashings fun s' =>
    s'.registry = s.registry := by
  unfold processSlashings
  refine .skip fun _ => .skip fun _ => .skip fun _ => .skip fun _ => ?_
  refine .foldlM (fun entry s₁ h₁ => .ite (.skip fun _ => ?_) (.pure h₁)) rfl
  exact (updateBalance_registry _ _).imp fun _ h => h.trans h₁

theorem processSlashings_changes : Ensures s.processSlashings (Changes a .epoch s) := by
  unfold processSlashings
  refine .skip fun _ => .skip fun _ => .skip fun _ => .skip fun _ => ?_
  refine Changes.foldlM fun entry s => .ite ?_ (.self s)
  exact .skip fun _ => decreaseBalance_changes _ _

/-- The reset of the eth1 votes writes nothing else. -/
theorem processEth1DataReset_eq (s : BeaconState) : s.processEth1DataReset =
    { s with eth1DataVotes := s.processEth1DataReset.eth1DataVotes } := by
  unfold processEth1DataReset
  split <;> rfl

theorem processEth1DataReset_registry (s : BeaconState) :
    s.processEth1DataReset.registry = s.registry := by
  rw [processEth1DataReset_eq]
  rfl

theorem addValidatorToRegistry_changes (credentials : Bytes32) (amount : Gwei)
    (hnew : s.validatorIndex pubkey = none) :
    Ensures (s.addValidatorToRegistry pubkey credentials amount) (Changes .votes .deposits s) := by
  unfold addValidatorToRegistry
  refine .bind (Q := fun validators => ∃ v, Entered v ∧ v.Capped ∧ v.pubkey = pubkey ∧
    validators.toList = s.validators.toList ++ [v]) ?_ fun validators ⟨v, hv, hcap, hkey, hpush⟩ => ?_
  · intro validators h
    exact ⟨_, ⟨rfl, rfl, rfl, rfl, (capped_of_entering rfl).dvd⟩, capped_of_entering rfl, rfl,
      (push_eq_some.1 (okOr_eq_ok.1 h)).2⟩
  refine .found length_push fun balances hb => ?_
  refine .found length_push fun previous hp => ?_
  refine .found length_push fun current hc => ?_
  refine .found length_push fun scores hs => .pure ?_
  refine .voting (.single (.enter hv fun v' hv' heq => ?_) ?_) (fun hall v' hv' => ?_) rfl
  · have hnone := List.findIdx?_eq_none_iff.1 (Option.map_eq_none_iff.1 hnew) v' hv'
    rw [heq, hkey] at hnone
    simp at hnone
  · simp only [registry, hpush, hb, hp, hc, hs]
  · rw [show BoundedList.toList _ = _ from hpush, List.mem_append, List.mem_singleton] at hv'
    rcases hv' with hold | rfl
    · exact hall v' hold
    · exact hcap

theorem applyPendingDeposit_changes [Crypto] (deposit : PendingDeposit) :
    Ensures (s.applyPendingDeposit deposit) (Changes .votes .deposits s) := by
  unfold applyPendingDeposit
  cases hindex : s.validatorIndex deposit.pubkey with
  | some index => exact increaseBalance_changes _ _
  | none => exact .ite (addValidatorToRegistry_changes _ _ hindex) (.self s)

theorem depositStep_changes [Crypto] (nextEpoch : Epoch) (finalizedSlot : Slot) (available : Gwei)
    (d : DepositSweep) (deposit : PendingDeposit) :
    Ensures (depositStep nextEpoch finalizedSlot available d deposit)
      fun r => Changes .votes .deposits d.state r.value.state := by
  have hself : Changes .votes .deposits d.state d.state := Changes.refl _
  unfold depositStep
  refine .ite (.pure hself) (.ite (.pure hself) (.ite ?_ (.ite (.pure hself) ?_)))
  · exact .bind (applyPendingDeposit_changes _) fun _ h => .pure h
  · refine .skip fun processed => .ite (.pure hself) ?_
    exact .bind (applyPendingDeposit_changes _) fun _ h => .pure h

theorem processPendingDeposits_changes [Crypto] :
    Ensures s.processPendingDeposits (Changes .votes .deposits s) := by
  unfold processPendingDeposits
  refine .skip fun nextEpoch => .skip fun _ => .skip fun available => .skip fun slot => ?_
  refine .bind (Q := fun d : DepositSweep => Changes .votes .deposits s d.state) ?_ fun d hd => ?_
  · refine .foldBreakM (fun deposit d hd => ?_) (Changes.refl s)
    exact (depositStep_changes nextEpoch slot available d deposit).imp fun _ h => hd.trans h
  · exact .skip fun _ => .ite (.skip fun _ => .pure
      (hd.trans (.single .settleDeposits rfl rfl rfl id)))
      (.skip fun _ => .pure (hd.trans (.single .settleDeposits rfl rfl rfl id)))

theorem consolidationStep_registry (nextEpoch : Epoch) (acc : BeaconState × Nat)
    (entry : PendingConsolidation) :
    Ensures (consolidationStep nextEpoch acc entry) fun r =>
      r.value.1.registry = acc.1.registry := by
  obtain ⟨s, consumed⟩ := acc
  unfold consolidationStep
  refine .skip fun source => .ite (.pure rfl) (.ite (.pure rfl) (.skip fun balance => ?_))
  refine .bind (updateBalance_registry _ _) fun s₁ h₁ => ?_
  exact .bind (updateBalance_registry _ _) fun s₂ h₂ => .pure (h₂.trans h₁)

theorem consolidationStep_changes (nextEpoch : Epoch) (acc : BeaconState × Nat)
    (entry : PendingConsolidation) :
    Ensures (consolidationStep nextEpoch acc entry) fun r => Changes a .epoch acc.1 r.value.1 := by
  obtain ⟨s, consumed⟩ := acc
  unfold consolidationStep
  refine .skip fun source => .ite (.pure (.refl s)) (.ite (.pure (.refl s)) ?_)
  refine .skip fun balance => ?_
  refine .bind (decreaseBalance_changes (a := a) (p := .epoch) _ _) fun s₁ h₁ => ?_
  exact .bind (increaseBalance_changes _ _) fun s₂ h₂ => .pure (h₁.trans h₂)

theorem processPendingConsolidations_changes :
    Ensures s.processPendingConsolidations (Changes a .epoch s) := by
  unfold processPendingConsolidations
  refine .skip fun nextEpoch => ?_
  refine .bind (Q := fun acc : BeaconState × Nat => Changes a .epoch s acc.1 ∧
    acc.1.registry = s.registry) ?_ fun acc ⟨hacc, hsame⟩ => .pure ?_
  · refine .foldBreakM (fun entry acc ⟨hacc, hsame⟩ r hr => ?_) ⟨.refl s, rfl⟩
    exact ⟨hacc.trans (consolidationStep_changes nextEpoch acc entry r hr),
      (consolidationStep_registry nextEpoch acc entry r hr).trans hsame⟩
  · have hqueue : acc.1.pendingConsolidations.toList = s.pendingConsolidations.toList :=
      congrArg Registry.pendingConsolidations hsame
    exact hacc.trans (.single .dropConsolidations (congrArg (fun queue : List _ =>
      { acc.1.registry with pendingConsolidations := queue.drop acc.2 }) hqueue.symm) rfl rfl id)

theorem processBuilderPendingPayments_changes :
    Ensures s.processBuilderPendingPayments (Changes .payload .epoch s) := by
  unfold processBuilderPendingPayments
  exact Changes.bind (Changes.foldlM fun payment _ => settleBuilderPaymentIfQuorum_changes payment)
    fun _ => .pure (.of_payload rfl rfl)

omit [Preset] in
theorem Rebalanced.refl (v : Validator) : Rebalanced v v := ⟨_, rfl, .inl rfl⟩

theorem processEffectiveBalanceUpdates_changes :
    Ensures s.processEffectiveBalanceUpdates (Changes a .epoch s) := by
  unfold processEffectiveBalanceUpdates
  refine .bind (Q := fun vs => List.Forall₂ (fun v v' => Rebalanced v v' ∧ (v.Capped → v'.Capped))
    s.validators.toList vs.toList) ?_ fun vs hvs => .pure (.single
      (.rebalance (hvs.imp fun _ _ h => h.1)) rfl rfl rfl fun hall v' hv' => ?_)
  · refine .foldlM (fun i vs hvs => ?_) (List.forall₂_same.2 fun v _ => ⟨Rebalanced.refl v, id⟩)
    refine .skip fun balance => .lookup fun v hv => .skip fun _ => ?_
    refine .skip fun _ => .ite (.pure ?_) (.pure hvs)
    refine forall₂_set hvs hv fun v₀ hv₀ => ?_
    obtain ⟨⟨old, rfl, -⟩, -⟩ := hv₀
    have hcap : Validator.Capped { v₀ with
        effectiveBalance := Word.wrap (min (balance.val - balance.val % effectiveBalanceIncrement)
          v₀.getMaxEffectiveBalance.val) } := capped_of_cut rfl
    exact ⟨⟨_, rfl, .inr hcap.dvd⟩, fun _ => hcap⟩
  · obtain ⟨k, hk⟩ := List.mem_iff_getElem?.1 hv'
    obtain ⟨v, hv, hrebalanced⟩ := forall₂_getElem? hvs.flip hk
    exact hrebalanced.2 (hall v (List.mem_of_getElem? hv))

theorem processParticipationFlagUpdates_changes :
    Ensures s.processParticipationFlagUpdates (Changes .votes .epoch s) := by
  unfold processParticipationFlagUpdates
  refine .found tryFrom_eq_some.1 fun fresh hfresh => ?_
  have hlength : fresh.length = s.validators.length := by
    rw [BoundedList.length, hfresh, List.length_replicate]
  exact .pure (.voting (.single .rotate (congrArg (fun n => { s.registry with
    previousCount := s.currentEpochParticipation.length, currentCount := n }) hlength)) id rfl)

theorem processSyncCommitteeUpdates_changes [Crypto] :
    Ensures s.processSyncCommitteeUpdates (Changes a .epoch s) := by
  unfold processSyncCommitteeUpdates
  exact .skip fun _ => .ite (.skip fun _ => .pure (.of_eq rfl rfl rfl)) (.self s)

theorem processHistoricalSummariesUpdate_writes [Crypto] :
    Ensures s.processHistoricalSummariesUpdate fun s' =>
      s' = { s with historicalSummaries := s'.historicalSummaries } := by
  unfold processHistoricalSummariesUpdate
  exact .ite (.pure rfl) (.skip fun _ => .pure rfl)

theorem processProposerLookahead_shifts [Crypto] : Ensures s.processProposerLookahead fun s' =>
    ∃ tail, s' = { s with
      proposerLookahead := shiftWindow s.proposerLookahead slotsPerEpoch tail } := by
  unfold processProposerLookahead
  exact .skip fun _ => .skip fun _ => .skip fun _ => .skip fun _ => .pure ⟨_, rfl⟩

theorem processPtcWindow_shifts [Crypto] : Ensures s.processPtcWindow fun s' =>
    ∃ tail, s' = { s with ptcWindow := shiftWindow s.ptcWindow slotsPerEpoch tail } := by
  unfold processPtcWindow
  exact .skip fun _ => .skip fun _ => .skip fun _ => .pure ⟨_, rfl⟩

end BeaconState

end Moonglass
