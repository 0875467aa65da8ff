import Moonglass.StateTransition.Operations

/-
  Execution-layer requests: validator and builder deposits, withdrawals, consolidations and
  builder exits. Most invalid requests are skipped, not rejected: the state is returned unchanged.
-/

namespace Moonglass

open Lib

variable [Preset] [Crypto]

namespace BeaconState

variable (s : BeaconState)

/-! ## Registry growth -/

def addValidatorToRegistry (pubkey : BLSPubkey)
    (withdrawalCredentials : Bytes32) (amount : Gwei) : Transition BeaconState := do
  let maxBalance :=
    if getElem withdrawalCredentials 0 zero_lt_32 = 2 then maxEffectiveBalance
    else minActivationBalance
  let effective : Gwei :=
    Word.wrap (min (amount.val - amount.val % effectiveBalanceIncrement) maxBalance)
  let validator : Validator :=
    { pubkey, withdrawalCredentials, effectiveBalance := effective, slashed := false,
      activationEligibilityEpoch := farFutureEpoch, activationEpoch := farFutureEpoch,
      exitEpoch := farFutureEpoch, withdrawableEpoch := farFutureEpoch }
  let validators ← okOr (s.validators.push validator) (.boundedListFull .validators)
  let balances ← okOr (s.balances.push amount) (.boundedListFull .balances)
  let previous ← okOr (s.previousEpochParticipation.push 0)
    (.boundedListFull .previousEpochParticipation)
  let current ← okOr (s.currentEpochParticipation.push 0)
    (.boundedListFull .currentEpochParticipation)
  let scores ← okOr (s.inactivityScores.push 0) (.boundedListFull .inactivityScores)
  pure { s with
    validators, balances
    previousEpochParticipation := previous
    currentEpochParticipation := current
    inactivityScores := scores }

/-- The first exited and emptied builder slot, or the end of the registry. -/
def getIndexForNewBuilder : Nat :=
  s.builders.toList.findIdx fun b => b.withdrawableEpoch ≤ s.slot.epoch && b.balance == 0

def addBuilderToRegistry (pubkey : BLSPubkey) (version : U8)
    (executionAddress : ExecutionAddress) (amount : Gwei) (slot : Slot) :
    Transition BeaconState := do
  let builder : Builder :=
    { pubkey, version, executionAddress, balance := amount, depositEpoch := slot.epoch,
      withdrawableEpoch := farFutureEpoch }
  let idx := s.getIndexForNewBuilder
  if idx < s.builders.length then
    pure { s with builders := s.builders.set idx builder }
  else do
    let builders ← okOr (s.builders.push builder) (.boundedListFull .builders)
    pure { s with builders }

/-! ## Deposits -/

def isValidBuilderDepositSignature (request : BuilderDepositRequest) : Bool :=
  let domain := computeDomain domainBuilderDeposit genesisForkVersion Root.ZERO
  let msg : DepositMessage := ⟨request.pubkey, request.withdrawalCredentials, request.amount⟩
  let signingRoot := computeSigningRoot (Crypto.depositMessageRoot msg) domain
  (verifySignature request.pubkey signingRoot request.signature .deposit).toBool

def isValidDepositSignature (pubkey : BLSPubkey) (withdrawalCredentials : Bytes32)
    (amount : Gwei) (signature : BLSSignature) : Bool :=
  let domain := computeDomain domainDeposit genesisForkVersion Root.ZERO
  let msg : DepositMessage := ⟨pubkey, withdrawalCredentials, amount⟩
  let signingRoot := computeSigningRoot (Crypto.depositMessageRoot msg) domain
  (verifySignature pubkey signingRoot signature .deposit).toBool

def unsetDepositRequestsStartIndex : U64 := Word.max

def processDepositRequest (request : DepositRequest) : Transition BeaconState := do
  let startIndex := if s.depositRequestsStartIndex = unsetDepositRequestsStartIndex
    then request.index else s.depositRequestsStartIndex
  let queue ← okOr (s.pendingDeposits.push
      ⟨request.pubkey, request.withdrawalCredentials, request.amount, request.signature, s.slot⟩)
    (.boundedListFull .pendingDeposits)
  pure { s with depositRequestsStartIndex := startIndex, pendingDeposits := queue }

/-- The execution address in the last twenty bytes of withdrawal credentials. -/
def withdrawalAddressFromCredentials (credentials : Bytes32) : ExecutionAddress :=
  credentials.extract 12 32

def processBuilderDepositRequest (request : BuilderDepositRequest) : Transition BeaconState := do
  match s.builderIndex request.pubkey with
  | none =>
    if isValidBuilderDepositSignature request then
      s.addBuilderToRegistry request.pubkey (getElem request.withdrawalCredentials 0 zero_lt_32)
        (withdrawalAddressFromCredentials request.withdrawalCredentials) request.amount s.slot
    else pure s
  | some index => do
    let builder ← s.builder index
    let balance ← okOr (builder.balance.checkedAdd request.amount.val) .balanceOverflow
    let withdrawableEpoch ← if builder.withdrawableEpoch ≠ farFutureEpoch then
        okOr (s.slot.epoch.checkedAdd minBuilderWithdrawabilityDelay) (.arithmeticOverflow .epoch)
      else pure builder.withdrawableEpoch
    pure { s with builders :=
      s.builders.set index.val { builder with balance, withdrawableEpoch } }

/-! ## Withdrawals and consolidations -/

/-- Queue a validator's balance above the activation minimum as a pending deposit. -/
def queueExcessActiveBalance (index : ValidatorIndex) : Transition BeaconState := do
  let v ← s.validator index
  let balance ← okOr (s.balances.get? index.val) (.invariant (.missingBalance index))
  if balance.val ≤ minActivationBalance then return s
  let excess ← okOr (balance.checkedSub minActivationBalance) (.arithmeticOverflow .churn)
  let queue ← okOr (s.pendingDeposits.push
      ⟨v.pubkey, v.withdrawalCredentials, excess, g2PointAtInfinity, genesisSlot⟩)
    (.boundedListFull .pendingDeposits)
  pure { s with
    balances := s.balances.set index.val (Word.wrap minActivationBalance)
    pendingDeposits := queue }

def switchToCompoundingValidator (index : ValidatorIndex) : Transition BeaconState := do
  let _ ← s.validator index
  let s := { s with validators := s.validators.modify index.val fun v =>
    { v with withdrawalCredentials := v.withdrawalCredentials.set 0 2 zero_lt_32 } }
  s.queueExcessActiveBalance index

def processWithdrawalRequest (request : WithdrawalRequest) : Transition BeaconState := do
  let isFullExitRequest : Bool := request.amount.val == fullExitRequestAmount
  if !isFullExitRequest && s.pendingPartialWithdrawals.length == pendingPartialWithdrawalsLimit
    then return s
  let some index := s.validatorIndex request.validatorPubkey | return s
  let v ← s.validator index
  if !v.hasExecutionWithdrawalCredential then return s
  if withdrawalAddressFromCredentials v.withdrawalCredentials ≠ request.sourceAddress then return s
  if !v.isActiveValidator s.slot.epoch then return s
  if v.exitEpoch ≠ farFutureEpoch then return s
  if s.slot.epoch < v.activationEpoch.satAdd shardCommitteePeriod then return s
  let pending ← s.getPendingBalanceToWithdraw index
  if isFullExitRequest then
    if pending ≠ 0 then return s
    s.initiateValidatorExit index
  else do
    if !v.hasCompoundingWithdrawalCredential then return s
    let balance ← okOr (s.balances.get? index.val) (.invariant (.missingBalance index))
    let floor ← okOr (pending.checkedAdd minActivationBalance) (.arithmeticOverflow .balanceSum)
    if v.effectiveBalance.val < minActivationBalance ∨ balance ≤ floor then return s
    let toWithdraw : Gwei := Word.wrap (min (balance.val - floor.val) request.amount.val)
    let (s, exitQueueEpoch) ← s.computeExitEpochAndUpdateChurn toWithdraw
    let withdrawableEpoch ← okOr (exitQueueEpoch.checkedAdd minValidatorWithdrawabilityDelay)
      (.operation (.withdrawableEpochOverflow index))
    let queue ← okOr (s.pendingPartialWithdrawals.push ⟨index, toWithdraw, withdrawableEpoch⟩)
      (.boundedListFull .pendingPartialWithdrawals)
    pure { s with pendingPartialWithdrawals := queue }

def isValidSwitchToCompoundingRequest (request : ConsolidationRequest) : Bool :=
  request.sourcePubkey == request.targetPubkey &&
    match s.validatorIndex request.sourcePubkey with
    | none => false
    | some index =>
      match s.validator index with
      | .error _ => false
      | .ok v =>
        withdrawalAddressFromCredentials v.withdrawalCredentials == request.sourceAddress &&
          v.hasEth1WithdrawalCredential && v.isActiveValidator s.slot.epoch &&
          v.exitEpoch == farFutureEpoch

def processConsolidationRequest (request : ConsolidationRequest) : Transition BeaconState := do
  if s.isValidSwitchToCompoundingRequest request then
    let some index := s.validatorIndex request.sourcePubkey | return s
    return ← s.switchToCompoundingValidator index
  if request.sourcePubkey = request.targetPubkey then return s
  if s.pendingConsolidations.length = pendingConsolidationsLimit then return s
  if (← s.getConsolidationChurnLimit).val ≤ minActivationBalance then return s
  let some sourceIndex := s.validatorIndex request.sourcePubkey | return s
  let some targetIndex := s.validatorIndex request.targetPubkey | return s
  let source ← s.validator sourceIndex
  if !source.hasExecutionWithdrawalCredential then return s
  if withdrawalAddressFromCredentials source.withdrawalCredentials ≠ request.sourceAddress then return s
  let target ← s.validator targetIndex
  if !target.hasCompoundingWithdrawalCredential then return s
  let currentEpoch := s.slot.epoch
  if !source.isActiveValidator currentEpoch || !target.isActiveValidator currentEpoch then
    return s
  if source.exitEpoch ≠ farFutureEpoch ∨ target.exitEpoch ≠ farFutureEpoch then return s
  if currentEpoch < source.activationEpoch.satAdd shardCommitteePeriod then return s
  if 0 < (← s.getPendingBalanceToWithdraw sourceIndex).val then return s
  let (s, exitEpoch) ← s.computeConsolidationEpochAndUpdateChurn source.effectiveBalance
  let withdrawableEpoch ← okOr (exitEpoch.checkedAdd minValidatorWithdrawabilityDelay)
    (.operation (.withdrawableEpochOverflow sourceIndex))
  let queue ← okOr (s.pendingConsolidations.push ⟨sourceIndex, targetIndex⟩)
    (.boundedListFull .pendingConsolidations)
  pure { s with
    validators := s.validators.modify sourceIndex.val fun v =>
      { v with exitEpoch, withdrawableEpoch }
    pendingConsolidations := queue }

def processBuilderExitRequest (request : BuilderExitRequest) : Transition BeaconState := do
  let some index := s.builderIndex request.pubkey | return s
  if !(← s.isActiveBuilder index) then return s
  if (← s.builder index).executionAddress ≠ request.sourceAddress then return s
  if (← s.getPendingBalanceToWithdrawForBuilder index) ≠ 0 then return s
  s.initiateBuilderExit index

/-! ## The parent's execution payload -/

/-- Apply the requests of the parent's payload and settle its builder payment. -/
def applyParentExecutionPayload (requests : ExecutionRequests) : Transition BeaconState := do
  let parentBid := s.latestExecutionPayloadBid
  let s ← requests.deposits.toList.foldlM processDepositRequest s
  let s ← requests.withdrawals.toList.foldlM processWithdrawalRequest s
  let s ← requests.consolidations.toList.foldlM processConsolidationRequest s
  let s ← requests.builderDeposits.toList.foldlM processBuilderDepositRequest s
  let s ← requests.builderExits.toList.foldlM processBuilderExitRequest s
  let s ← match s.builderPaymentIndexForSlot parentBid.slot with
    | some paymentIndex => s.settleBuilderPayment paymentIndex
    | none =>
      if 0 < parentBid.value.val then
        s.queueBuilderPendingWithdrawal
          ⟨parentBid.feeRecipient, parentBid.value, parentBid.builderIndex⟩
      else pure s
  pure { s with
    executionPayloadAvailability :=
      ringSet s.executionPayloadAvailability parentBid.slot.val true
    latestBlockHash := parentBid.blockHash }

def processParentExecutionPayload (block : BeaconBlock) : Transition BeaconState := do
  let bid := block.body.signedExecutionPayloadBid.message
  let parentBid := s.latestExecutionPayloadBid
  let requests := block.body.parentExecutionRequests
  if bid.parentBlockHash ≠ parentBid.blockHash then
    ensure requests.isEmpty (.block .parentPayloadUnexpectedRequests)
    return s
  ensure (Crypto.executionRequestsRoot requests = parentBid.executionRequestsRoot)
    (.block .parentPayloadRequestsMismatch)
  s.applyParentExecutionPayload requests

end BeaconState

end Moonglass
