import Moonglass.StateTransition.Epoch

/-
  Slots and blocks: the slot loop, block processing, the state transition on a signed block, and
  the verification of an execution-payload envelope against a post-block state.
-/

namespace Moonglass

open Lib

variable [Preset] [Crypto]

def checkedNextSlot (slot : Slot) : Transition Slot :=
  okOr (slot.checkedAdd 1) (.slot (.nextSlotOverflow slot))

structure SyncAggregateRewards where
  participant : Gwei
  proposer : Gwei

namespace BeaconState

variable (s : BeaconState)

/-! ## Slots -/

/-- Cache the state root and the block root of the current slot. -/
def processSlot : Transition BeaconState := do
  let nextSlot ← checkedNextSlot s.slot
  let previousStateRoot := s.treeRoot
  let header := if s.latestBlockHeader.stateRoot = Root.ZERO
    then s.latestBlockHeader.withStateRoot previousStateRoot else s.latestBlockHeader
  pure { s with
    stateRoots := ringSet s.stateRoots s.slot.val previousStateRoot
    latestBlockHeader := header
    blockRoots := ringSet s.blockRoots s.slot.val header.treeRoot
    executionPayloadAvailability := ringSet s.executionPayloadAvailability nextSlot.val false }

/-- One turn of the slot loop: the slot, the epoch at a boundary, then the slot counter. -/
def advanceSlot : Transition BeaconState := do
  let s ← s.processSlot
  let nextSlot ← checkedNextSlot s.slot
  let s ← if nextSlot.val % slotsPerEpoch = 0 then s.processEpoch else pure s
  pure { s with slot := nextSlot }

/-- The slot loop. Each turn adds one to the slot, so `targetSlot - slot` turns suffice. -/
def processSlotsLoop (targetSlot : Slot) : Nat → BeaconState → Transition BeaconState
  | 0, s => pure s
  | n + 1, s => do
    if s.slot < targetSlot then processSlotsLoop targetSlot n (← s.advanceSlot) else pure s

def processSlots (targetSlot : Slot) : Transition BeaconState := do
  ensure (s.slot < targetSlot) (.slot (.notAfter s.slot targetSlot))
  processSlotsLoop targetSlot (targetSlot.val - s.slot.val) s

/-! ## Block processing -/

def processBlockHeader (block : BeaconBlock) : Transition BeaconState := do
  ensure (block.slot = s.slot) (.block (.blockSlotMismatch block.slot s.slot))
  ensure (s.latestBlockHeader.slot < block.slot)
    (.block (.slotNotAfterParent block.slot s.latestBlockHeader.slot))
  let expectedProposer ← s.getBeaconProposerIndex
  ensure (block.proposerIndex = expectedProposer)
    (.block (.proposerIndexMismatch block.proposerIndex expectedProposer))
  let parentRoot := s.latestBlockHeader.treeRoot
  ensure (block.parentRoot = parentRoot)
    (.block (.parentRootMismatch block.parentRoot parentRoot))
  let s := { s with latestBlockHeader := block.header block.body.treeRoot Root.ZERO }
  ensure (¬(← s.validator block.proposerIndex).slashed)
    (.block (.proposerSlashed block.proposerIndex))
  pure s

def processRandao (body : BeaconBlockBody) : Transition BeaconState := do
  let epoch := s.slot.epoch
  let proposerIndex ← s.getBeaconProposerIndex
  let v ← s.validator proposerIndex
  let signingRoot := s.signingRootFor (Crypto.epochRoot epoch) domainRandao epoch
  verifySignature v.pubkey signingRoot body.randaoReveal .randaoReveal
  let revealHash := Crypto.sha256 body.randaoReveal.toList
  let mix := (ringGet s.randaoMixes epoch.val).zipWith (· ^^^ ·) revealHash
  pure { s with randaoMixes := ringSet s.randaoMixes epoch.val mix }

def processEth1Data (body : BeaconBlockBody) : Transition BeaconState := do
  let votes ← okOr (s.eth1DataVotes.push body.eth1Data) (.block .eth1VotesFull)
  let votesFor := votes.toList.countP fun v => v = body.eth1Data
  pure { s with
    eth1DataVotes := votes
    eth1Data := if eth1DataVotesLen < votesFor * 2 then body.eth1Data else s.eth1Data }

/-! ## Sync aggregate -/

def participatingSyncPubkeys (committeePubkeys : List BLSPubkey) (aggregate : SyncAggregate) :
    List BLSPubkey :=
  (committeePubkeys.zip aggregate.syncCommitteeBits.toList).filterMap
    fun (pk, bit) => if bit then some pk else none

def verifySyncAggregateSignature (aggregate : SyncAggregate)
    (participantPubkeys : List BLSPubkey) : Transition Unit :=
  let previousSlot : Slot := s.slot.satSub 1
  let signingRoot := s.signingRootFor (s.blockRootAtSlot previousSlot) domainSyncCommittee
    previousSlot.epoch
  fastAggregateVerify participantPubkeys signingRoot aggregate.syncCommitteeSignature .syncAggregate

/-- The per-member rewards; the products wrap as `u64` products do. -/
def syncAggregateRewards : Transition SyncAggregateRewards := do
  let total ← s.getTotalActiveBalance
  let totalActiveIncrements := total.val / effectiveBalanceIncrement
  let perIncrement ← s.getBaseRewardPerIncrement
  let totalBaseRewards : U64 := Word.wrap (perIncrement * totalActiveIncrements)
  let weighted : U64 := Word.wrap (totalBaseRewards.val * syncRewardWeight)
  let maxParticipantRewards := weighted.val / weightDenominator / slotsPerEpoch
  let participant : Gwei := Word.wrap (maxParticipantRewards / syncCommitteeSize)
  let scaled : U64 := Word.wrap (participant.val * proposerWeight)
  pure ⟨participant, scaled.div (weightDenominator - proposerWeight)⟩

def applySyncAggregateRewards (aggregate : SyncAggregate)
    (committeePubkeys : List BLSPubkey) (rewards : SyncAggregateRewards) :
    Transition BeaconState := do
  let proposerIndex ← s.getBeaconProposerIndex
  (committeePubkeys.zip aggregate.syncCommitteeBits.toList).foldlM
    (fun (s : BeaconState) (pk, bit) => do
      let memberIndex ← okOr (s.validatorIndex pk) (.registry .syncCommitteeMemberNotFound)
      if bit then do
        let s ← s.increaseBalance memberIndex rewards.participant
        s.increaseBalance proposerIndex rewards.proposer
      else s.decreaseBalance memberIndex rewards.participant) s

def processSyncAggregate (aggregate : SyncAggregate) : Transition BeaconState := do
  let committeePubkeys := s.currentSyncCommittee.pubkeys.toList
  s.verifySyncAggregateSignature aggregate (participatingSyncPubkeys committeePubkeys aggregate)
  let rewards ← s.syncAggregateRewards
  s.applySyncAggregateRewards aggregate committeePubkeys rewards

/-! ## The state transition -/

def processBlock (block : BeaconBlock) : Transition BeaconState := do
  let s ← s.processParentExecutionPayload block
  let s ← s.processBlockHeader block
  let s ← s.processWithdrawals
  let s ← s.processExecutionPayloadBid block.body.signedExecutionPayloadBid
  let s ← s.processRandao block.body
  let s ← s.processEth1Data block.body
  let s ← s.processOperations block.body
  s.processSyncAggregate block.body.syncAggregate

def verifyBlockSignature (signedBlock : SignedBeaconBlock) : Transition Unit := do
  let proposerIndex := signedBlock.message.proposerIndex
  let v ← s.validator proposerIndex
  let signingRoot := s.signingRootFor signedBlock.message.treeRoot domainBeaconProposer s.slot.epoch
  verifySignature v.pubkey signingRoot signedBlock.signature (.blockProposer proposerIndex)

def expectPostStateRoot (expected : Root) : Transition Unit :=
  ensure (expected = s.treeRoot) (.stateRootMismatch expected s.treeRoot)

def stateTransition (signedBlock : SignedBeaconBlock) : Transition BeaconState := do
  let next ← s.processSlots signedBlock.message.slot
  next.verifyBlockSignature signedBlock
  let next ← next.processBlock signedBlock.message
  next.expectPostStateRoot signedBlock.message.stateRoot
  pure next

/-! ## Execution-payload envelopes -/

/-- The root of the block this is the post-state of. -/
def currentBlockRoot : Root :=
  (s.latestBlockHeader.withStateRoot s.treeRoot).treeRoot

def executionPayloadEnvelopeSigner (builderIndex : BuilderIndex) : Transition BLSPubkey := do
  if builderIndex = builderIndexSelfBuild then
    let proposer ← s.getBeaconProposerIndex
    return (← s.validator proposer).pubkey
  pure (← s.builder builderIndex).pubkey

def verifyExecutionPayloadEnvelopeSignature
    (signedEnvelope : SignedExecutionPayloadEnvelope) : Transition Unit := do
  let envelope := signedEnvelope.message
  let signerPubkey ← s.executionPayloadEnvelopeSigner envelope.builderIndex
  let signingRoot := s.signingRootFor (Crypto.executionPayloadEnvelopeRoot envelope)
    domainBeaconBuilder s.slot.epoch
  verifySignature signerPubkey signingRoot signedEnvelope.signature
    (.executionPayloadEnvelope envelope.builderIndex)

def computeTimeAtSlot (slot : Slot) : Transition U64 :=
  okOr (((slot.satSub genesisSlot.val).checkedMul slotDurationMs).bind fun ms =>
    s.genesisTime.checkedAdd (ms.val / 1000)) (.block .envelopeTimestampOverflow)

/-- The payload is the one the block's bid committed to, for this slot and parent. -/
def validateExecutionPayloadEnvelope (envelope : ExecutionPayloadEnvelope) : Transition Unit := do
  let bid := s.latestExecutionPayloadBid
  let payload := envelope.payload
  ensure (envelope.builderIndex = bid.builderIndex) (.block .envelopeBuilderMismatch)
  ensure (payload.prevRandao = bid.prevRandao) (.block .envelopeRandaoMismatch)
  ensure (payload.gasLimit = bid.gasLimit) (.block .envelopeGasLimitMismatch)
  ensure (payload.blockHash = bid.blockHash) (.block .envelopePayloadHashMismatch)
  ensure (envelope.executionRequests.treeRoot = bid.executionRequestsRoot)
    (.block .envelopeRequestsRootMismatch)
  ensure (payload.slotNumber = s.slot) (.block .envelopeSlotMismatch)
  ensure (payload.parentHash = s.latestBlockHash)
    (.block (.envelopeParentHashMismatch payload.parentHash s.latestBlockHash))
  let expectedTimestamp ← s.computeTimeAtSlot s.slot
  ensure (payload.timestamp = expectedTimestamp)
    (.block (.envelopeTimestampMismatch payload.timestamp expectedTimestamp))
  ensure (payload.withdrawals = s.payloadExpectedWithdrawals) (.block .withdrawalsRootMismatch)

def verifyExecutionPayloadEnvelope
    (signedEnvelope : SignedExecutionPayloadEnvelope) : Transition Unit := do
  let envelope := signedEnvelope.message
  ensure (envelope.beaconBlockRoot = s.currentBlockRoot) (.block .envelopeBlockRootMismatch)
  ensure (envelope.parentBeaconBlockRoot = s.latestBlockHeader.parentRoot)
    (.block .envelopeParentMismatch)
  s.verifyExecutionPayloadEnvelopeSignature signedEnvelope
  s.validateExecutionPayloadEnvelope envelope

end BeaconState

end Moonglass
