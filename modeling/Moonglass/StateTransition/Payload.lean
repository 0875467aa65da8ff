import Moonglass.StateTransition.Finality
import Moonglass.StateTransition.Withdrawn

/-
  The execution chain in the state. The parent phase decides from the state's latest bid whether
  the parent was full, the withdrawal phase decides the same from the latest block hash, and the
  check of the new bid ties the two: in an accepted block both decide by whether the new bid
  builds on the latest one. Slots and the other phases keep hash, bid and outstanding withdrawals.
-/

namespace Moonglass

open Lib

variable [Preset]

namespace BeaconState

/-- `s'` stands where `s` stands on the execution chain and owes the same withdrawals. -/
structure SameExecution (s s' : BeaconState) : Prop where
  hash : s'.latestBlockHash = s.latestBlockHash
  bid : s'.latestExecutionPayloadBid = s.latestExecutionPayloadBid
  outstanding : s'.payloadExpectedWithdrawals = s.payloadExpectedWithdrawals
  next : s'.nextWithdrawalIndex = s.nextWithdrawalIndex

namespace SameExecution

variable {s s' s'' : BeaconState}

theorem refl (s : BeaconState) : SameExecution s s := ⟨rfl, rfl, rfl, rfl⟩

theorem trans (h : SameExecution s s') (h' : SameExecution s' s'') : SameExecution s s'' :=
  ⟨h'.hash.trans h.hash, h'.bid.trans h.bid, h'.outstanding.trans h.outstanding,
    h'.next.trans h.next⟩

theorem of_payload (h : s'.payloadView = s.payloadView) : SameExecution s s' :=
  ⟨congrArg PayloadView.latestBlockHash h, congrArg PayloadView.latestExecutionPayloadBid h,
    congrArg PayloadView.payloadExpectedWithdrawals h, congrArg PayloadView.nextWithdrawalIndex h⟩

theorem foldlM {α : Type} {f : BeaconState → α → Transition BeaconState} {l : List α}
    (step : ∀ a s, Ensures (f s a) (SameExecution s)) : Ensures (l.foldlM f s) (SameExecution s) :=
  Ensures.rel_foldlM (R := SameExecution) refl trans step

end SameExecution

variable {s s' : BeaconState}

/-! ## Payments -/

theorem queueBuilderPendingWithdrawal_eq (w : BuilderPendingWithdrawal) :
    Ensures (s.queueBuilderPendingWithdrawal w) fun s' =>
      ∃ queue, queue.toList = s.builderPendingWithdrawals.toList ++ [w] ∧
        s' = { s with builderPendingWithdrawals := queue } := by
  unfold queueBuilderPendingWithdrawal
  refine .found BoundedList.push_eq_some.1 fun queue h => ?_
  exact .pure ⟨queue, h.2, rfl⟩

/-- Settling an entry of the window pays it when it holds an amount, and clears it. -/
theorem settleBuilderPayment_eq (index : Nat) :
    Ensures (s.settleBuilderPayment index) fun s' =>
      ∃ payment queue, s.builderPendingPayments[index]? = some payment ∧
        queue.toList = s.builderPendingWithdrawals.toList ++
          (if 0 < payment.withdrawal.amount.val then [payment.withdrawal] else []) ∧
        s' = { s with
          builderPendingWithdrawals := queue
          builderPendingPayments := s.builderPendingPayments.setIfInBounds index .default } := by
  unfold settleBuilderPayment
  refine .lookup fun payment hpayment =>
    .dite (fun hpos => ?_) fun hpos => ?_
  · refine .bind (queueBuilderPendingWithdrawal_eq _) fun s₁ ⟨queue, hqueue, hs₁⟩ => .pure ?_
    exact ⟨payment, queue, hpayment, by rw [if_pos hpos, hqueue], by rw [hs₁]⟩
  · refine .step fun s₁ hs₁ => .pure ?_
    cases hs₁
    exact ⟨payment, s.builderPendingWithdrawals, hpayment,
      by rw [if_neg hpos, List.append_nil], rfl⟩

/-- The payments of the older epoch that reach the quorum. -/
def quorumPayments (s : BeaconState) (threshold : Gwei) : List BuilderPendingPayment :=
  (s.builderPendingPayments.toList.take slotsPerEpoch).filter fun p => threshold ≤ p.weight

theorem settleBuilderPaymentIfQuorum_eq (payment : BuilderPendingPayment) :
    Ensures (s.settleBuilderPaymentIfQuorum payment) fun s' =>
      ∃ threshold queue, s.getBuilderPaymentQuorumThreshold = .ok threshold ∧
        queue.toList = s.builderPendingWithdrawals.toList ++
          (if threshold ≤ payment.weight then [payment.withdrawal] else []) ∧
        s' = { s with builderPendingWithdrawals := queue } := by
  unfold settleBuilderPaymentIfQuorum
  refine .step fun threshold hthreshold => .dite (fun hq => ?_) fun hq => ?_
  · refine (queueBuilderPendingWithdrawal_eq _).imp fun s' ⟨queue, hqueue, hs'⟩ => ?_
    exact ⟨threshold, queue, hthreshold, by rw [if_pos hq, hqueue], hs'⟩
  · exact .pure ⟨threshold, s.builderPendingWithdrawals, hthreshold,
      by rw [if_neg hq, List.append_nil], rfl⟩

/-- The loop over the payments of the older epoch. The quorum does not depend on the queue, so it
is the same for all of them. -/
theorem settleQuorums_eq (payments : List BuilderPendingPayment) {threshold : Gwei}
    (hthreshold : s.getBuilderPaymentQuorumThreshold = .ok threshold) :
    Ensures (payments.foldlM settleBuilderPaymentIfQuorum s) fun s' =>
      ∃ queue, queue.toList = s.builderPendingWithdrawals.toList ++
          (payments.filter fun p => threshold ≤ p.weight).map (·.withdrawal) ∧
        s' = { s with builderPendingWithdrawals := queue } := by
  intro s' h
  induction payments generalizing s with
  | nil =>
    rw [foldlM_nil_eq_ok] at h
    exact ⟨s.builderPendingWithdrawals, by simp, h.symm⟩
  | cons p payments ih =>
    obtain ⟨s₁, hs₁, h⟩ := foldlM_cons_eq_ok.1 h
    obtain ⟨threshold', queue, hthreshold', hqueue, rfl⟩ := settleBuilderPaymentIfQuorum_eq p s₁ hs₁
    cases hthreshold.symm.trans hthreshold'
    obtain ⟨queue', hqueue', rfl⟩ :=
      ih (s := { s with builderPendingWithdrawals := queue }) hthreshold h
    refine ⟨queue', ?_, rfl⟩
    rw [hqueue', hqueue, List.filter_cons]
    by_cases hp : threshold ≤ p.weight
    · simp [hp]
    · simp [hp]

/-- At the end of an epoch the payments that reach the quorum are queued, and the window moves. -/
theorem processBuilderPendingPayments_eq :
    Ensures s.processBuilderPendingPayments fun s' =>
      ∃ threshold queue, s.getBuilderPaymentQuorumThreshold = .ok threshold ∧
        queue.toList = s.builderPendingWithdrawals.toList ++
          (s.quorumPayments threshold).map (·.withdrawal) ∧
        s' = { s with
          builderPendingWithdrawals := queue
          builderPendingPayments :=
            shiftWindow s.builderPendingPayments slotsPerEpoch fun _ => .default } := by
  unfold processBuilderPendingPayments
  refine .step fun settled hsettled => .pure ?_
  obtain ⟨threshold, hthreshold⟩ : ∃ t, s.getBuilderPaymentQuorumThreshold = .ok t := by
    -- the older epoch has a first slot, and its payment is weighed on `s` itself
    cases hpayments : s.builderPendingPayments.toList.take slotsPerEpoch with
    | nil =>
      have hlen := congrArg List.length hpayments
      have hspe := epochs_in_ring
      rw [List.length_take, Vector.length_toList, builderPaymentWindowLen] at hlen
      simp only [List.length_nil] at hlen
      omega
    | cons p payments =>
      rw [hpayments] at hsettled
      obtain ⟨s₁, hs₁, -⟩ := foldlM_cons_eq_ok.1 hsettled
      obtain ⟨threshold, _, hthreshold, -⟩ := settleBuilderPaymentIfQuorum_eq p s₁ hs₁
      exact ⟨threshold, hthreshold⟩
  obtain ⟨queue, hqueue, rfl⟩ := settleQuorums_eq _ hthreshold settled hsettled
  exact ⟨threshold, queue, hthreshold, hqueue, rfl⟩

/-! ## Operations -/

theorem processProposerSlashing_execution [Crypto] (slashing : ProposerSlashing) :
    Ensures (s.processProposerSlashing slashing) (SameExecution s) := by
  refine (processProposerSlashing_slashes slashing).imp fun _ h => ?_
  refine SameExecution.trans ?_ (.of_payload h.untouched.payload)
  rw [clearSlashedPayment_eq]
  exact ⟨rfl, rfl, rfl, rfl⟩

theorem processAttestation_execution [Crypto] (attestation : Attestation) :
    Ensures (s.processAttestation attestation) (SameExecution s) := by
  unfold processAttestation recordAttestationParticipation rewardAttestationProposer
  refine .skip fun accepted => .bind (Q := fun r : BeaconState × U64 => SameExecution s r.1) ?_
    fun r hr => .skip fun proposer => ?_
  · refine .skip fun acc => .pure ?_
    cases accepted.targetIsCurrentEpoch <;> exact ⟨rfl, rfl, rfl, rfl⟩
  · exact (increaseBalance_changes (p := .block) _ _).imp fun _ h =>
      hr.trans (.of_payload h.untouched.payload)

theorem processOperations_execution [Crypto] (body : BeaconBlockBody) :
    Ensures (s.processOperations body) (SameExecution s) := by
  unfold processOperations
  refine .skip fun _ => ?_
  refine .bind (SameExecution.foldlM fun a _ => processProposerSlashing_execution a)
    fun s₁ h₁ => ?_
  refine .bind (Changes.foldlM (a := .registry) fun a _ => processAttesterSlashing_changes a)
    fun s₂ h₂ => ?_
  refine .bind (SameExecution.foldlM fun a _ => processAttestation_execution a) fun s₃ h₃ => ?_
  refine .bind (Changes.foldlM (a := .registry) fun a _ => processVoluntaryExit_changes a)
    fun s₄ h₄ => ?_
  refine .bind (Changes.foldlM (a := .registry) fun a _ => processBlsToExecutionChange_changes a)
    fun s₅ h₅ => .skip fun _ => .pure ?_
  exact ((h₁.trans (.of_payload h₂.untouched.payload)).trans h₃).trans
    (.of_payload (h₄.trans h₅).untouched.payload)

/-! ## The parent's payload -/

theorem processBuilderDepositRequest_eq [Crypto] (request : BuilderDepositRequest) :
    Ensures (s.processBuilderDepositRequest request) fun s' =>
      s' = { s with builders := s'.builders } := by
  unfold processBuilderDepositRequest
  cases s.builderIndex request.pubkey with
  | none =>
    unfold addBuilderToRegistry
    exact .ite (.ite (.pure rfl) (.skip fun _ => .pure rfl)) (.pure rfl)
  | some index =>
    refine .skip fun _ => .skip fun _ => .ite (.skip fun _ => .pure rfl) (.skip fun _ => .pure rfl)

theorem processBuilderExitRequest_eq (request : BuilderExitRequest) :
    Ensures (s.processBuilderExitRequest request) fun s' =>
      s' = { s with builders := s'.builders } := by
  unfold processBuilderExitRequest initiateBuilderExit
  cases s.builderIndex request.pubkey with
  | none => exact .pure rfl
  | some index =>
    refine .skip fun _ => .ite (.pure rfl) (.skip fun _ => .ite (.pure rfl) (.skip fun _ => ?_))
    exact .ite (.pure rfl) (.skip fun _ => .skip fun _ => .pure rfl)

/-- Requests that change the builders only, one after another. -/
theorem foldlM_builders {α : Type} {f : BeaconState → α → Transition BeaconState} {l : List α}
    (step : ∀ r s, Ensures (f s r) fun s' => s' = { s with builders := s'.builders }) :
    Ensures (l.foldlM f s) fun s' => s' = { s with builders := s'.builders } :=
  .rel_foldlM (R := fun a b : BeaconState => b = { a with builders := b.builders })
    (fun _ => rfl) (fun hab hbc => by rw [hbc, hab]) step

/-- The requests of the parent's payload that come before the builder deposits. -/
def beforeBuilderDeposits (s : BeaconState) (requests : ExecutionRequests) :
    Transition BeaconState := do
  let s ← requests.deposits.toList.foldlM processDepositRequest s
  let s ← requests.withdrawals.toList.foldlM processWithdrawalRequest s
  requests.consolidations.toList.foldlM processConsolidationRequest s

theorem beforeBuilderDeposits_untouched (requests : ExecutionRequests) :
    Ensures (s.beforeBuilderDeposits requests) fun s' => Untouched s s' := by
  unfold beforeBuilderDeposits
  refine .bind (Changes.foldlM (a := .registry) fun r _ => processDepositRequest_changes r)
    fun s₁ h₁ => ?_
  refine .bind (Changes.foldlM (a := .registry) fun r _ => processWithdrawalRequest_changes r)
    fun s₂ h₂ => ?_
  exact (Changes.foldlM (a := .registry) fun r _ => processConsolidationRequest_changes r).imp
    fun _ h₃ => ((h₁.trans h₂).trans h₃).untouched

/-- The payment of the parent's bid: the entry of its slot is settled while the window holds it, and
an older bid is queued as it is. -/
def settleParent (s : BeaconState) (parentBid : ExecutionPayloadBid) : Transition BeaconState :=
  match s.builderPaymentIndexForSlot parentBid.slot with
  | some paymentIndex => s.settleBuilderPayment paymentIndex
  | none =>
    if 0 < parentBid.value.val then
      s.queueBuilderPendingWithdrawal
        ⟨parentBid.feeRecipient, parentBid.value, parentBid.builderIndex⟩
    else pure s

/-- The parts of applying the parent's payload: the requests that touch no builder, those that do,
the payment of the parent's bid, and the new place on the execution chain. -/
structure ParentApplied [Crypto] (s : BeaconState) (requests : ExecutionRequests)
    (s' : BeaconState) where
  validated : BeaconState
  deposited : BeaconState
  exited : BeaconState
  settled : BeaconState
  validated_eq : s.beforeBuilderDeposits requests = .ok validated
  deposited_eq :
    requests.builderDeposits.toList.foldlM processBuilderDepositRequest validated = .ok deposited
  exited_eq : requests.builderExits.toList.foldlM processBuilderExitRequest deposited = .ok exited
  settled_eq : exited.settleParent s.latestExecutionPayloadBid = .ok settled
  result : s' = { settled with
    executionPayloadAvailability := s'.executionPayloadAvailability
    latestBlockHash := s.latestExecutionPayloadBid.blockHash }

theorem applyParentExecutionPayload_parts [Crypto] (requests : ExecutionRequests) :
    Ensures (s.applyParentExecutionPayload requests) fun s' =>
      Nonempty (ParentApplied s requests s') := by
  unfold applyParentExecutionPayload
  refine .step fun s₁ h₁ => .step fun s₂ h₂ => ?_
  refine .step fun s₃ h₃ => ?_
  have hbefore : s.beforeBuilderDeposits requests = .ok s₃ := by
    unfold beforeBuilderDeposits
    rw [h₁, ok_bind, h₂, ok_bind, h₃]
  refine .step fun s₄ h₄ => .step fun s₅ h₅ => ?_
  refine .imp (Q := fun s' => ∃ s₆, s₅.settleParent s.latestExecutionPayloadBid = .ok s₆ ∧
    s' = { s₆ with
      executionPayloadAvailability := s'.executionPayloadAvailability
      latestBlockHash := s.latestExecutionPayloadBid.blockHash }) ?_
    fun s' ⟨s₆, h₆, hs'⟩ => ⟨⟨s₃, s₄, s₅, s₆, hbefore, h₄, h₅, h₆, hs'⟩⟩
  unfold settleParent
  cases s₅.builderPaymentIndexForSlot s.latestExecutionPayloadBid.slot with
  | some index => exact .step fun s₆ h₆ => .pure ⟨s₆, h₆, rfl⟩
  | none =>
    refine .dite (fun hpos => ?_) fun hpos => ?_
    · exact .step fun s₆ h₆ => .pure ⟨s₆, by rw [if_pos hpos]; exact h₆, rfl⟩
    · exact .step fun s₆ h₆ => .pure ⟨s₆, by rw [if_neg hpos]; exact h₆, rfl⟩

theorem ParentApplied.untouched [Crypto] {requests : ExecutionRequests}
    (h : ParentApplied s requests s') :
    Untouched s h.validated := beforeBuilderDeposits_untouched _ _ h.validated_eq

/-- Applying the parent's payload moves the block hash to it, and nothing else of the place on the
execution chain. -/
theorem ParentApplied.execution [Crypto] {requests : ExecutionRequests}
    (h : ParentApplied s requests s') : s'.latestBlockHash = s.latestExecutionPayloadBid.blockHash ∧
      s'.latestExecutionPayloadBid = s.latestExecutionPayloadBid ∧
      s'.payloadExpectedWithdrawals = s.payloadExpectedWithdrawals ∧
      s'.nextWithdrawalIndex = s.nextWithdrawalIndex := by
  have h₁ : SameExecution s h.validated := .of_payload h.untouched.payload
  have h₂ : SameExecution h.validated h.deposited :=
    SameExecution.foldlM (fun r s => (processBuilderDepositRequest_eq r).imp
      fun _ h => h ▸ ⟨rfl, rfl, rfl, rfl⟩) _ h.deposited_eq
  have h₃ : SameExecution h.deposited h.exited :=
    SameExecution.foldlM (fun r s => (processBuilderExitRequest_eq r).imp
      fun _ h => h ▸ ⟨rfl, rfl, rfl, rfl⟩) _ h.exited_eq
  have h₄ : SameExecution h.exited h.settled := by
    have hsettled := h.settled_eq
    unfold settleParent at hsettled
    split at hsettled
    · obtain ⟨_, _, -, -, heq⟩ := settleBuilderPayment_eq _ _ hsettled
      rw [heq]
      exact ⟨rfl, rfl, rfl, rfl⟩
    · split at hsettled
      · obtain ⟨_, -, heq⟩ := queueBuilderPendingWithdrawal_eq _ _ hsettled
        rw [heq]
        exact ⟨rfl, rfl, rfl, rfl⟩
      · rw [← Except.ok.inj hsettled]
        exact .refl _
  have hall := ((h₁.trans h₂).trans h₃).trans h₄
  rw [h.result]
  exact ⟨rfl, hall.bid, hall.outstanding, hall.next⟩

/-! ## Blocks -/

/-- The parent phase either applies the parent's payload or leaves the state alone, by whether the
new bid builds on the latest one. -/
theorem processParentExecutionPayload_cases [Crypto] {block : BeaconBlock}
    (h : s.processParentExecutionPayload block = .ok s') :
    block.bid.parentBlockHash ≠ s.latestExecutionPayloadBid.blockHash ∧ s' = s ∧
        block.body.parentExecutionRequests.isEmpty ∨
      block.bid.parentBlockHash = s.latestExecutionPayloadBid.blockHash ∧
        s.applyParentExecutionPayload block.body.parentExecutionRequests = .ok s' := by
  unfold processParentExecutionPayload at h
  dsimp only at h
  split at h
  · rename_i hne
    obtain ⟨_, hempty, h⟩ := bind_eq_ok.1 h
    cases h
    exact .inl ⟨hne, rfl, ensure_eq_ok.1 hempty⟩
  · rename_i heq
    obtain ⟨_, -, h⟩ := bind_eq_ok.1 h
    exact .inr ⟨not_not.1 heq, h⟩

/-- An accepted bid builds on the latest block hash. -/
theorem validateBidIdentity_hash {bid : ExecutionPayloadBid} {u : Unit}
    (h : s.validateBidIdentity bid = .ok u) : bid.parentBlockHash = s.latestBlockHash := by
  unfold validateBidIdentity at h
  simp only [bind_eq_ok] at h
  obtain ⟨_, -, _, -, _, hhash, h⟩ := h
  exact ensure_eq_ok.1 hhash

theorem recordAcceptedBid_eq (s : BeaconState) (bid : ExecutionPayloadBid)
    (proposer : ValidatorIndex) : s.recordAcceptedBid bid proposer = { s with
      latestExecutionPayloadBid := bid
      builderPendingPayments := (s.recordAcceptedBid bid proposer).builderPendingPayments } := by
  unfold recordAcceptedBid
  dsimp only
  split <;> rfl

/-- The bid phase checks the bid and records it. -/
theorem processExecutionPayloadBid_eq [Crypto] (bid : SignedExecutionPayloadBid) :
    Ensures (s.processExecutionPayloadBid bid) fun s' =>
      bid.message.parentBlockHash = s.latestBlockHash ∧
      s.validateBidSignerAndFunding bid = .ok () ∧
      ∃ proposer, s.getBeaconProposerIndex = .ok proposer ∧
        s' = s.recordAcceptedBid bid.message proposer := by
  unfold processExecutionPayloadBid
  refine .bind (fun _ h => validateBidIdentity_hash h) fun _ hhash => ?_
  refine .step fun _ hfunding => .step fun proposer hproposer => ?_
  exact .pure ⟨hhash, hfunding, proposer, hproposer, rfl⟩

/-- What the phases of an accepted block decide about its parent: the parent phase and the
withdrawal phase agree, on whether the new bid builds on the latest one. -/
structure ParentDecision [Crypto] (s : BeaconState) (block : BeaconBlock) (s' : BeaconState)
    (h : BlockPhases s block s') : Prop where
  /-- The test of the withdrawal phase has the outcome of the test of the parent phase. -/
  agree : h.header.latestBlockHash = h.header.latestExecutionPayloadBid.blockHash ↔
    block.bid.parentBlockHash = s.latestExecutionPayloadBid.blockHash
  full : block.bid.parentBlockHash = s.latestExecutionPayloadBid.blockHash →
    s.applyParentExecutionPayload block.body.parentExecutionRequests = .ok h.parent ∧
      h.header.runWithdrawals = .ok h.withdrawals
  empty : block.bid.parentBlockHash ≠ s.latestExecutionPayloadBid.blockHash →
    h.parent = s ∧ block.body.parentExecutionRequests.isEmpty ∧ h.withdrawals = h.header

namespace BlockPhases

variable {block : BeaconBlock}

/-- The header phase leaves the execution chain alone. -/
theorem header_execution [Crypto] (h : BlockPhases s block s') :
    SameExecution h.parent h.header := by
  rw [processBlockHeader_eq block _ h.header_eq]
  exact ⟨rfl, rfl, rfl, rfl⟩

/-- So do the phases after the bid. -/
theorem after_bid [Crypto] (h : BlockPhases s block s') : SameExecution h.bid s' := by
  have h₁ : SameExecution h.bid h.randao :=
    .of_payload (processRandao_untouched _ _ h.randao_eq).payload
  have h₂ : SameExecution h.randao h.eth1 :=
    .of_payload (processEth1Data_untouched _ _ h.eth1_eq).payload
  have h₃ : SameExecution h.eth1 h.operations := processOperations_execution _ _ h.operations_eq
  have h₄ : SameExecution h.operations s' :=
    .of_payload (processSyncAggregate_changes _ _ h.sync_eq).untouched.payload
  exact ((h₁.trans h₂).trans h₃).trans h₄

/-- The withdrawal phase leaves hash and bid alone. -/
theorem withdrawals_execution [Crypto] (h : BlockPhases s block s') :
    h.withdrawals.latestBlockHash = h.header.latestBlockHash ∧
      h.withdrawals.latestExecutionPayloadBid = h.header.latestExecutionPayloadBid := by
  have heq := h.withdrawals_eq
  rw [processWithdrawals_eq] at heq
  split at heq
  · rw [← Except.ok.inj heq]
    exact ⟨rfl, rfl⟩
  · obtain ⟨run⟩ := runWithdrawals_run _ heq
    exact ⟨run.hash, run.bid⟩

/-- The bid of an accepted block builds on the hash that its withdrawal phase has seen. -/
theorem bid_hash [Crypto] (h : BlockPhases s block s') :
    block.bid.parentBlockHash = h.header.latestBlockHash :=
  (processExecutionPayloadBid_eq _ _ h.bid_eq).1.trans h.withdrawals_execution.1

theorem parentDecision [Crypto] (h : BlockPhases s block s') : ParentDecision s block s' h := by
  have hheader := h.header_execution
  have hbid := h.bid_hash
  have hrun := h.withdrawals_eq
  rw [processWithdrawals_eq] at hrun
  rcases processParentExecutionPayload_cases h.parent_eq with ⟨hne, hparent, hempty⟩ | ⟨heq, happly⟩
  · have htest : h.header.latestBlockHash ≠ h.header.latestExecutionPayloadBid.blockHash := by
      rw [← hbid, hheader.bid, hparent]
      exact hne
    rw [if_pos htest] at hrun
    exact ⟨⟨fun h => absurd h htest, fun h => absurd h hne⟩, fun h => absurd h hne,
      fun _ => ⟨hparent, hempty, (Except.ok.inj hrun).symm⟩⟩
  · obtain ⟨happlied⟩ := applyParentExecutionPayload_parts _ _ happly
    have htest : h.header.latestBlockHash = h.header.latestExecutionPayloadBid.blockHash := by
      rw [hheader.hash, hheader.bid, happlied.execution.1, happlied.execution.2.1]
    rw [if_neg (not_not_intro htest)] at hrun
    exact ⟨⟨fun _ => heq, fun _ => htest⟩, fun _ => ⟨happly, hrun⟩, fun hne => absurd heq hne⟩

/-- After a block the state's latest bid is the block's, and its block hash the one the bid builds
on. -/
theorem execution [Crypto] (h : BlockPhases s block s') :
    s'.latestExecutionPayloadBid = block.bid ∧
      s'.latestBlockHash = block.bid.parentBlockHash := by
  obtain ⟨hhash, -, proposer, -, hbid⟩ := processExecutionPayloadBid_eq _ _ h.bid_eq
  have hafter := h.after_bid
  rw [recordAcceptedBid_eq] at hbid
  refine ⟨hafter.bid.trans (by rw [hbid]), hafter.hash.trans ?_⟩
  rw [hbid]
  exact hhash.symm

end BlockPhases

/-! ## Slots -/

theorem processEpoch_execution [Crypto] : Ensures s.processEpoch (SameExecution s) := by
  refine processEpoch_parts.imp fun s' ⟨parts⟩ => ?_
  have hpaid : SameExecution parts.due parts.paid := by
    obtain ⟨_, _, -, -, heq⟩ := processBuilderPendingPayments_eq _ parts.paid_eq
    rw [heq]
    exact ⟨rfl, rfl, rfl, rfl⟩
  have hjustified : SameExecution s parts.justified := by
    rw [processJustificationAndFinalization_writes _ parts.justified_eq]
    exact ⟨rfl, rfl, rfl, rfl⟩
  have hdue : SameExecution parts.justified parts.due := .of_payload parts.before.payload
  exact ((hjustified.trans hdue).trans hpaid).trans (.of_payload parts.payload)

/-- A turn of the slot loop stays in its place on the execution chain. -/
theorem advanceSlot_execution [Crypto] (h : s.advanceSlot = .ok s') : SameExecution s s' := by
  obtain ⟨filed, next, hfiled, hs', -, hparts⟩ := advanceSlot_parts h
  have hslot : SameExecution s filed := by
    unfold processSlot at hfiled
    obtain ⟨_, -, hfiled⟩ := bind_eq_ok.1 hfiled
    rw [← Except.ok.inj hfiled]
    exact ⟨rfl, rfl, rfl, rfl⟩
  have hnext : SameExecution filed next := by
    rcases hparts with ⟨-, rfl⟩ | ⟨-, hepoch⟩
    · exact .refl _
    · exact processEpoch_execution next hepoch
  rw [hs']
  exact (hslot.trans hnext).trans ⟨rfl, rfl, rfl, rfl⟩

theorem processSlots_execution [Crypto] {target : Slot} (h : s.processSlots target = .ok s') :
    SameExecution s s' :=
  (processSlots_inv target (fun _ _ h => advanceSlot_execution h)
    (fun _ _ hs _ h => hs.trans (advanceSlot_execution h)) s' h).2.2

/-! ## Skipping a payload -/

/-- `child`, processed on `pre`, builds on its parent block without the parent's payload: the
parent phase finds the parent empty, the check of the bid passes, and fork choice reads the parent
as empty. -/
structure Skips [Crypto] (pre : BeaconState) (parent child : BeaconBlock) : Prop where
  parentRoot : child.parentRoot = parent.treeRoot
  emptyPath : child.bid.parentBlockHash ≠ pre.latestExecutionPayloadBid.blockHash
  parentPhase : pre.processParentExecutionPayload child = .ok pre
  identity : pre.validateBidIdentity child.bid = .ok ()
  status : ∀ s : Store, s.blocks.lookup child.parentRoot = some parent →
    s.getParentPayloadStatus child = .ok .empty

/-- A block `b` led to `pre`, at the slot of its child. -/
structure ReadyForChild (b : BeaconBlock) (pre : BeaconState) : Prop where
  bid : pre.latestExecutionPayloadBid = b.bid
  hash : pre.latestBlockHash = b.bid.parentBlockHash
  slot : 0 < pre.slot.val

theorem readyForChild [Crypto] {s post pre : BeaconState} {b : SignedBeaconBlock} {target : Slot}
    (h : s.stateTransition b = .ok post) (hpre : post.processSlots target = .ok pre) :
    ReadyForChild b.message pre := by
  obtain ⟨s₁, -, hpost, -⟩ := stateTransition_parts h
  obtain ⟨phases⟩ := processBlock_phases hpost
  have hsame := processSlots_execution hpre
  obtain ⟨hlt, hslot, -⟩ := processSlots_header target pre hpre
  refine ⟨hsame.bid.trans phases.execution.1, hsame.hash.trans phases.execution.2, ?_⟩
  rw [hslot]
  exact Nat.lt_of_le_of_lt (Nat.zero_le _) hlt

/-- A bid for the hash that its block builds on leaves its children no empty path. -/
theorem Skips.hash_ne [Crypto] {pre : BeaconState} {b child : BeaconBlock}
    (hready : ReadyForChild b pre)
    (h : Skips pre b child) : b.bid.blockHash ≠ b.bid.parentBlockHash := by
  have hhash := validateBidIdentity_hash h.identity
  have hempty := h.emptyPath
  rw [hhash, hready.hash, hready.bid] at hempty
  exact hempty.symm

/-- The block that skips the payload of `parent` at `pre`: no operations of its own matter, and the
bid names the block hash of the state. -/
def skippingChild [Crypto] (pre : BeaconState) (parent : BeaconBlock) : BeaconBlock :=
  { parent with
    parentRoot := parent.treeRoot
    body := { parent.body with
      signedExecutionPayloadBid := { parent.body.signedExecutionPayloadBid with
        message := { parent.bid with
          slot := pre.slot
          parentBlockRoot := pre.blockRootAtSlot (pre.slot.satSub 1)
          parentBlockHash := pre.latestBlockHash
          prevRandao := pre.getRandaoMix pre.slot.epoch
          blobKzgCommitments := .empty } }
      parentExecutionRequests := ⟨.empty, .empty, .empty, .empty, .empty⟩ } }

theorem skippingChild_identity [Crypto] {pre : BeaconState} {parent : BeaconBlock}
    (hslot : 0 < pre.slot.val) :
    pre.validateBidIdentity (pre.skippingChild parent).bid = .ok () := by
  have hgenesis : pre.slot ≠ genesisSlot := by
    intro h
    rw [h] at hslot
    exact absurd hslot (by decide)
  have hroot : (pre.skippingChild parent).bid.parentBlockRoot =
      pre.blockRootAtSlot (pre.slot.satSub 1) := rfl
  have hhash : (pre.skippingChild parent).bid.parentBlockHash = pre.latestBlockHash := rfl
  have hrandao : (pre.skippingChild parent).bid.prevRandao =
      pre.getRandaoMix pre.slot.epoch := rfl
  unfold validateBidIdentity
  rw [ensure_of (by simpa [skippingChild] using hgenesis), ok_bind, ensure_of hroot, ok_bind,
    ensure_of hhash, ok_bind, ensure_of hrandao, ok_bind]
  exact ensure_of (Nat.zero_le _) _

/-- A payload can be skipped exactly when the bid for it does not name, as the hash it is going to
produce, the hash it builds on. -/
theorem payload_skippable_iff [Crypto] {s post pre : BeaconState} {b : SignedBeaconBlock}
    {target : Slot}
    (h : s.stateTransition b = .ok post) (hpre : post.processSlots target = .ok pre) :
    (∃ child, Skips pre b.message child) ↔
      b.message.bid.blockHash ≠ b.message.bid.parentBlockHash := by
  have hready := readyForChild h hpre
  refine ⟨fun ⟨child, hchild⟩ => hchild.hash_ne hready, fun hne => ?_⟩
  have hempty : (pre.skippingChild b.message).bid.parentBlockHash ≠
      pre.latestExecutionPayloadBid.blockHash := by
    rw [hready.bid]
    exact fun heq => hne (heq.symm.trans hready.hash)
  refine ⟨pre.skippingChild b.message, rfl, hempty, ?_, skippingChild_identity hready.slot, ?_⟩
  · unfold processParentExecutionPayload
    rw [if_pos hempty]
    rfl
  · intro store hparent
    rw [Store.getParentPayloadStatus_ok hparent]
    exact congrArg Except.ok (Store.parentBranch_eq_empty.2 (hready.bid ▸ hempty))

end BeaconState

end Moonglass

namespace Moonglass.Devnet

open Lib

/-- The first block can be skipped. -/
theorem payload_skippable_firstBlock : ∃ post pre child,
    (stateAfter genesis).stateTransition firstBlock = .ok post ∧
    post.processSlots 2 = .ok pre ∧ pre.Skips firstBlock.message child := by
  obtain ⟨pre, hpre⟩ := exists_ok_of_isOk (show ((stateAfter genesis).stateTransition firstBlock >>=
    fun post => post.processSlots 2).isOk = true by decide +kernel)
  obtain ⟨post, hpost, hpre⟩ := bind_eq_ok.1 hpre
  obtain ⟨child, hchild⟩ := (BeaconState.payload_skippable_iff hpost hpre).2 (by decide)
  exact ⟨post, pre, child, hpost, hpre, hchild⟩

/-- A block of slot 1 whose bid names the hash it builds on as its own. -/
def circularBlock : SignedBeaconBlock :=
  ⟨carrying { bid 1 genesis.treeRoot with blockHash := zeros 32 }, zeros 96⟩

/-- It is accepted, and no block can be built on it without its payload. -/
theorem payload_forced_circularBlock : ∃ post pre,
    (stateAfter genesis).stateTransition circularBlock = .ok post ∧
    post.processSlots 2 = .ok pre ∧ ¬∃ child, pre.Skips circularBlock.message child := by
  obtain ⟨pre, hpre⟩ := exists_ok_of_isOk (show ((stateAfter genesis).stateTransition circularBlock
    >>= fun post => post.processSlots 2).isOk = true by decide +kernel)
  obtain ⟨post, hpost, hpre⟩ := bind_eq_ok.1 hpre
  refine ⟨post, pre, hpost, hpre, fun ⟨child, hchild⟩ => ?_⟩
  exact hchild.hash_ne (BeaconState.readyForChild hpost hpre) rfl

end Moonglass.Devnet
