import Moonglass.StateTransition.Balance
import Mathlib.Data.List.Sort

/-
  Builders: bids, pending payments, builder exit, and payload attestations.
-/

namespace Moonglass

open Lib

variable [Preset] [Crypto]

/-- The blob limit active at an epoch: the newest schedule entry at or before it. -/
def getBlobParameters (epoch : Epoch) : Nat :=
  match blobSchedule.reverse.find? fun entry => entry.1 ≤ epoch.val with
  | some entry => entry.2
  | none => maxBlobsPerBlock

/-- Is each value at most the next one? -/
def isSorted : List U64 → Bool
  | a :: b :: l => a ≤ b && isSorted (b :: l)
  | _ => true

namespace BeaconState

variable (s : BeaconState)

def blockRootAtSlot (slot : Slot) : Root := ringGet s.blockRoots slot.val

/-! ## Pending payments -/

def builderPaymentIndexForSlot (slot : Slot) : Option Nat :=
  let offset := slot.val % slotsPerEpoch
  if slot.epoch = s.slot.epoch then some (slotsPerEpoch + offset)
  else if slot.epoch = s.getPreviousEpoch then some offset
  else none

def getBuilderPaymentQuorumThreshold : Transition Gwei := do
  let perSlotBalance := (← s.getTotalActiveBalance).div slotsPerEpoch
  let quorum ← okOr (perSlotBalance.checkedMul builderPaymentThresholdNumerator)
    (.arithmeticOverflow .weight)
  pure (quorum.div builderPaymentThresholdDenominator)

def getPendingBalanceToWithdrawForBuilder (builderIndex : BuilderIndex) : Transition Gwei :=
  checkedSum (.arithmeticOverflow .balanceSum)
    (((s.builderPendingWithdrawals.toList.filter fun w => w.builderIndex = builderIndex).map
      (·.amount)) ++
    ((s.builderPendingPayments.toList.filter fun p => p.withdrawal.builderIndex = builderIndex).map
      (·.withdrawal.amount)))

def queueBuilderPendingWithdrawal (w : BuilderPendingWithdrawal) : Transition BeaconState := do
  let queue ← okOr (s.builderPendingWithdrawals.push w)
    (.operation .builderPendingWithdrawalsFull)
  pure { s with builderPendingWithdrawals := queue }

/-- Pay out and clear one entry of the payment window. -/
def settleBuilderPayment (paymentIndex : Nat) : Transition BeaconState := do
  let payment ← okOr s.builderPendingPayments[paymentIndex]?
    (.operation .builderPaymentIndexOutOfRange)
  let s ← if 0 < payment.withdrawal.amount.val then
      s.queueBuilderPendingWithdrawal payment.withdrawal
    else pure s
  pure { s with builderPendingPayments :=
    s.builderPendingPayments.setIfInBounds paymentIndex BuilderPendingPayment.default }

def settleBuilderPaymentIfQuorum (payment : BuilderPendingPayment) : Transition BeaconState := do
  let threshold ← s.getBuilderPaymentQuorumThreshold
  if threshold ≤ payment.weight then s.queueBuilderPendingWithdrawal payment.withdrawal
  else pure s

/-! ## Bids -/

def isActiveBuilder (builderIndex : BuilderIndex) : Transition Bool := do
  let b ← s.builder builderIndex
  pure (b.depositEpoch < s.finalizedCheckpoint.epoch && b.withdrawableEpoch == farFutureEpoch)

def canBuilderCoverBid (builderIndex : BuilderIndex) (bidValue : Gwei) : Transition Bool := do
  let overflow : TransitionError := .arithmeticOverflow .balanceSum
  let balance := (← s.builder builderIndex).balance
  let pending ← s.getPendingBalanceToWithdrawForBuilder builderIndex
  let minBalance ← okOr (pending.checkedAdd minDepositAmount) overflow
  if balance < minBalance then pure false
  else do
    let available ← okOr (balance.checkedSub minBalance.val) overflow
    pure (bidValue ≤ available)

def validateBidIdentity (bid : ExecutionPayloadBid) : Transition Unit := do
  ensure (¬(bid.slot ≠ s.slot ∨ s.slot = genesisSlot)) (.operation .builderBidSlotMismatch)
  ensure (bid.parentBlockRoot = s.blockRootAtSlot (s.slot.satSub 1))
    (.operation .builderBidParentMismatch)
  ensure (bid.parentBlockHash = s.latestBlockHash) (.operation .builderBidParentMismatch)
  ensure (bid.prevRandao = s.getRandaoMix s.slot.epoch) (.operation .builderBidRandaoMismatch)
  let blobLimit := getBlobParameters s.slot.epoch
  ensure (bid.blobKzgCommitments.length ≤ blobLimit)
    (.operation (.builderBidBlobLimitExceeded bid.blobKzgCommitments.length blobLimit))

def verifyExecutionPayloadBidSignature (signedBid : SignedExecutionPayloadBid) :
    Transition Unit := do
  let builderIndex := signedBid.message.builderIndex
  let b ← s.builder builderIndex
  let signingRoot := s.signingRootFor (Crypto.executionPayloadBidRoot signedBid.message)
    domainBeaconBuilder s.slot.epoch
  verifySignature b.pubkey signingRoot signedBid.signature (.executionPayloadBid builderIndex)

def validateBidSignerAndFunding (signedBid : SignedExecutionPayloadBid) : Transition Unit := do
  let bid := signedBid.message
  let builderIndex := bid.builderIndex
  if builderIndex = builderIndexSelfBuild then do
    ensure (bid.value.val = 0) (.operation .builderBidSelfBuildNonZero)
    ensure (isG2PointAtInfinity signedBid.signature) (.operation .builderBidSelfBuildSignature)
  else do
    ensure (← s.isActiveBuilder builderIndex) (.operation (.builderNotActive builderIndex))
    ensure ((← s.builder builderIndex).version.val = payloadBuilderVersion)
      (.operation (.builderNotPayloadVersion builderIndex))
    ensure (← s.canBuilderCoverBid builderIndex bid.value)
      (.operation (.builderInsufficientBalance builderIndex))
    s.verifyExecutionPayloadBidSignature signedBid

def recordAcceptedBid (bid : ExecutionPayloadBid) (proposerIndex : ValidatorIndex) : BeaconState :=
  let s := { s with latestExecutionPayloadBid := bid }
  if bid.value.val = 0 then s
  else
    let payment : BuilderPendingPayment :=
      ⟨0, ⟨bid.feeRecipient, bid.value, bid.builderIndex⟩, proposerIndex⟩
    let windowIndex := slotsPerEpoch + bid.slot.val % slotsPerEpoch
    { s with builderPendingPayments :=
      s.builderPendingPayments.setIfInBounds windowIndex payment }

def processExecutionPayloadBid (signedBid : SignedExecutionPayloadBid) :
    Transition BeaconState := do
  s.validateBidIdentity signedBid.message
  s.validateBidSignerAndFunding signedBid
  let proposerIndex ← s.getBeaconProposerIndex
  pure (s.recordAcceptedBid signedBid.message proposerIndex)

def initiateBuilderExit (builderIndex : BuilderIndex) : Transition BeaconState := do
  let _ ← s.builder builderIndex
  let withdrawable ← okOr (s.slot.epoch.checkedAdd minBuilderWithdrawabilityDelay)
    (.arithmeticOverflow .epoch)
  pure { s with builders := s.builders.modify builderIndex.val fun b =>
    { b with withdrawableEpoch := withdrawable } }

/-! ## Payload attestations -/

def getIndexedPayloadAttestation (attestation : PayloadAttestation) :
    Transition IndexedPayloadAttestation := do
  let committee ← s.getPtc attestation.data.slot
  let attesting := ((committee.toList.zip attestation.aggregationBits.toList).filterMap
    fun (vi, bit) => if bit then some vi else none).insertionSort (· ≤ ·)
  let indices ← okOr (BoundedList.tryFrom attesting)
    (.boundedListFull .indexedPayloadAttestationIndices)
  pure ⟨indices, attestation.data, attestation.signature⟩

/-- The indices are sorted (repetition is allowed) and signed together. -/
def isValidIndexedPayloadAttestation (indexed : IndexedPayloadAttestation) : Transition Unit := do
  ensure (¬indexed.attestingIndices.isEmpty) (.operation .attestationParticipantsEmpty)
  ensure (isSorted indexed.attestingIndices.toList) (.operation .indexedAttestationNotSorted)
  let pubkeys ← indexed.attestingIndices.toList.mapM fun i => do pure (← s.validator i).pubkey
  let domain := s.domainFor domainPtcAttester indexed.data.slot.epoch
  let signingRoot := computeSigningRoot (Crypto.payloadAttestationDataRoot indexed.data) domain
  fastAggregateVerify pubkeys signingRoot indexed.signature .payloadAttestation

def processPayloadAttestation (attestation : PayloadAttestation) : Transition Unit := do
  ensure (attestation.data.beaconBlockRoot = s.latestBlockHeader.parentRoot)
    (.operation .payloadAttestationBlockRootMismatch)
  let nextSlot ← okOr (attestation.data.slot.checkedAdd 1) (.arithmeticOverflow .slot)
  ensure (nextSlot = s.slot) (.operation .payloadAttestationSlotMismatch)
  let indexed ← s.getIndexedPayloadAttestation attestation
  s.isValidIndexedPayloadAttestation indexed

def ptcWindowIndexForSlot (slot : Slot) : Option Nat :=
  let epoch := slot.epoch.val
  let stateEpoch := s.slot.epoch.val
  let offset := slot.val % slotsPerEpoch
  if epoch + 1 = stateEpoch then some offset
  else if epoch = stateEpoch then some (slotsPerEpoch + offset)
  else if stateEpoch + 1 = epoch then some (2 * slotsPerEpoch + offset)
  else none

end BeaconState

end Moonglass
