import Moonglass.ForkChoice.Head

/-
  The store handlers for time, blocks and votes. A handler returns the updated store; on failure
  nothing is written, either because it runs on a copy of the store or because all its checks come
  before its writes.
-/

namespace Moonglass

open Lib

variable [Preset] [Crypto]

namespace Store

variable (s : Store)

/-! ## Checkpoints -/

def updateCheckpoints (justified finalized : Checkpoint) : Store :=
  { s with
    justifiedCheckpoint :=
      if s.justifiedCheckpoint.epoch < justified.epoch then justified else s.justifiedCheckpoint
    finalizedCheckpoint :=
      if s.finalizedCheckpoint.epoch < finalized.epoch then finalized else s.finalizedCheckpoint }

def updateUnrealizedCheckpoints (justified finalized : Checkpoint) : Store :=
  { s with
    unrealizedJustifiedCheckpoint :=
      if s.unrealizedJustifiedCheckpoint.epoch < justified.epoch then justified
      else s.unrealizedJustifiedCheckpoint
    unrealizedFinalizedCheckpoint :=
      if s.unrealizedFinalizedCheckpoint.epoch < finalized.epoch then finalized
      else s.unrealizedFinalizedCheckpoint }

/-- The state of a block moved on to the start of the checkpoint's epoch. -/
def targetCheckpointState (target : Checkpoint) : Outcome BeaconState := do
  let state ← orFail (s.blockStates.lookup target.root) (.unknownBlock target.root)
  if state.slot < target.epoch.startSlot then
    ofTransition (state.processSlots target.epoch.startSlot)
  else pure state

def storeTargetCheckpointState (target : Checkpoint) : Outcome Store := do
  if target ∈ s.checkpointStates then return s
  let state ← s.targetCheckpointState target
  pure { s with checkpointStates := s.checkpointStates.insert target state }

/-- Credit a block with the justification its state would reach at the next epoch boundary. -/
def computePulledUpTip (blockRoot : Root) : Outcome Store := do
  let state ← orFail (s.blockStates.lookup blockRoot) (.unknownBlock blockRoot)
  let pulledUp ← ofTransition state.processJustificationAndFinalization
  let block ← orFail (s.blocks.lookup blockRoot) (.unknownBlock blockRoot)
  let justified := pulledUp.currentJustifiedCheckpoint
  let finalized := pulledUp.finalizedCheckpoint
  let s := { s with
    unrealizedJustifications := s.unrealizedJustifications.insert blockRoot justified }
  let s := s.updateUnrealizedCheckpoints justified finalized
  pure (if block.slot.epoch < s.getCurrentStoreEpoch then s.updateCheckpoints justified finalized
    else s)

/-! ## Time -/

def onTickPerSlot (time : U64) : Store :=
  let previousSlot := s.getCurrentSlot
  let s := { s with time }
  if previousSlot < s.getCurrentSlot then
    let s := { s with proposerBoostRoot := Root.ZERO }
    if computeSlotsSinceEpochStart s.getCurrentSlot = 0 then
      s.updateCheckpoints s.unrealizedJustifiedCheckpoint s.unrealizedFinalizedCheckpoint
    else s
  else s

/-- Advance slot by slot to `tickSlot`. Each turn adds one slot. -/
def onTickLoop (tickSlot : Slot) : Nat → Store → Outcome Store
  | 0, s => if s.getCurrentSlot < tickSlot then .error .diverge else pure s
  | fuel + 1, s =>
    if s.getCurrentSlot < tickSlot then
      onTickLoop tickSlot fuel (s.onTickPerSlot (s.slotStartTime (s.getCurrentSlot.satAdd 1)))
    else pure s

def onTick (time : U64) : Outcome Store := do
  require (s.time ≤ time) (.tickWentBackwards s.time time)
  let tickSlot := s.slotAtTime time
  let s ← onTickLoop tickSlot (tickSlot.val - s.getCurrentSlot.val) s
  pure (s.onTickPerSlot time)

/-! ## Payload attestations -/

/-- The committee positions a validator holds in `slot`. -/
def ptcPositionsForValidator (state : BeaconState) (slot : Slot)
    (validatorIndex : ValidatorIndex) : Outcome (List Nat) := do
  let bucketIndex ← orFail (state.ptcWindowIndexForSlot slot) .payloadAttestationSlotOutOfWindow
  let ptc ← orFail state.ptcWindow[bucketIndex]? .payloadAttestationSlotOutOfWindow
  let positions := ptc.toList.zipIdx.filterMap fun (member, i) =>
    if member = validatorIndex then some i else none
  require (¬positions.isEmpty) .payloadAttestationValidatorNotInPtc
  pure positions

def writeVotePositions (votes : PayloadVoteVector) (positions : List Nat) (value : Bool) :
    Outcome PayloadVoteVector :=
  positions.foldlM (fun (votes : PayloadVoteVector) index => do
    require (index < votes.length) (.payloadVoteIndexOutOfBounds index)
    pure (votes.set index (some value))) votes

def recordPayloadVotePositions (blockRoot : Root) (positions : List Nat)
    (payloadPresent blobDataAvailable : Bool) : Outcome Store := do
  let timeliness ← orFail (s.payloadTimelinessVote.lookup blockRoot)
    (.payloadAttestationForUnknownBlock blockRoot)
  let availability ← orFail (s.payloadDataAvailabilityVote.lookup blockRoot)
    (.payloadAttestationForUnknownBlock blockRoot)
  let timeliness ← writeVotePositions timeliness positions payloadPresent
  let availability ← writeVotePositions availability positions blobDataAvailable
  pure { s with
    payloadTimelinessVote := s.payloadTimelinessVote.insert blockRoot timeliness
    payloadDataAvailabilityVote := s.payloadDataAvailabilityVote.insert blockRoot availability }

def buildSingleIndexed (msg : PayloadAttestationMessage) : Outcome IndexedPayloadAttestation := do
  let indices ← orFail (BoundedList.empty.push msg.validatorIndex)
    .payloadAttestationParticipantsFull
  pure ⟨indices, msg.data, msg.signature⟩

def onPayloadAttestationMessageInner (msg : PayloadAttestationMessage)
    (isFromBlock : Bool) : Outcome Store := do
  let data := msg.data
  let state ← orFail (s.blockStates.lookup data.beaconBlockRoot)
    (.payloadAttestationForUnknownBlock data.beaconBlockRoot)
  if data.slot ≠ state.slot then return s
  let positions ← ptcPositionsForValidator state data.slot msg.validatorIndex
  if !isFromBlock then
    require (data.slot = s.getCurrentSlot) .payloadAttestationWrongSlot
    let indexed ← buildSingleIndexed msg
    ofTransition (state.isValidIndexedPayloadAttestation indexed)
  s.recordPayloadVotePositions data.beaconBlockRoot positions data.payloadPresent
    data.blobDataAvailable

/-- Replay the payload attestations carried in a block, one message per attesting validator. -/
def notifyPtcMessages (state : BeaconState)
    (payloadAttestations : List PayloadAttestation) : Outcome Store := do
  if state.slot.val = 0 then return s
  payloadAttestations.foldlM (fun (s : Store) attestation => do
    let indexed ← ofTransition (state.getIndexedPayloadAttestation attestation)
    indexed.attestingIndices.toList.foldlM (fun (s : Store) validatorIndex =>
      s.onPayloadAttestationMessageInner
        ⟨validatorIndex, attestation.data, BLSSignature.default⟩ true) s) s

/-! ## Blocks -/

def recordBlockTimeliness (root : Root) : Outcome Store := do
  let block ← orFail (s.blocks.lookup root) (.unknownBlock root)
  let isCurrentSlot : Bool := s.getCurrentSlot == block.slot
  let timeliness : BlockTimeliness :=
    ⟨isCurrentSlot && s.timeIntoSlotMs < getAttestationDueMs,
      isCurrentSlot && s.timeIntoSlotMs < getPayloadAttestationDueMs⟩
  pure { s with blockTimeliness := s.blockTimeliness.insert root timeliness }

def updateProposerBoostRoot (head root : Root) : Outcome Store := do
  let isFirstBlock : Bool := s.proposerBoostRoot == Root.ZERO
  let timeliness ← orFail (s.blockTimeliness.lookup root) (.unknownBlock root)
  let dependentRoot ← s.getDependentRoot root
  let headDependentRoot ← s.getDependentRoot head
  pure (if timeliness.attestationTimely && isFirstBlock && dependentRoot == headDependentRoot then
    { s with proposerBoostRoot := root }
  else s)

/-- The checks `on_block` makes before the state transition. -/
def checkBlock (block : BeaconBlock) : Outcome Unit := do
  let full ← s.isParentNodeFull block
  require (¬(full ∧ ¬s.isPayloadVerified block.parentRoot))
    (.payloadParentEnvelopeNotRecorded block.parentRoot)
  require (block.slot ≤ s.getCurrentSlot) (.blockFromFuture block.slot s.getCurrentSlot)
  let finalizedSlot := s.finalizedCheckpoint.epoch.startSlot
  require (finalizedSlot < block.slot) (.blockBeforeFinalizedSlot block.slot finalizedSlot)
  let finalizedCheckpointBlock ←
    s.getCheckpointBlock block.parentRoot s.finalizedCheckpoint.epoch
  require (s.finalizedCheckpoint.root = finalizedCheckpointBlock) .blockNotDescendedFromFinalized

/-- File a block and its state, with empty vote vectors. -/
def insertBlock (blockRoot : Root) (block : BeaconBlock) (state : BeaconState) : Store :=
  { s with
    blocks := s.blocks.insert blockRoot block
    blockStates := s.blockStates.insert blockRoot state
    payloadTimelinessVote :=
      s.payloadTimelinessVote.insert blockRoot (List.replicate ptcSize none)
    payloadDataAvailabilityVote :=
      s.payloadDataAvailabilityVote.insert blockRoot (List.replicate ptcSize none) }

/-- What `on_block` does after the state transition and the head selection. -/
def importBlock (blockRoot : Root) (block : BeaconBlock) (state : BeaconState)
    (preImportHead : Root) : Outcome Store := do
  let s := s.insertBlock blockRoot block state
  let s ← s.notifyPtcMessages state block.body.payloadAttestations.toList
  let s ← s.recordBlockTimeliness blockRoot
  let s ← s.updateProposerBoostRoot preImportHead blockRoot
  let s := s.updateCheckpoints state.currentJustifiedCheckpoint state.finalizedCheckpoint
  s.computePulledUpTip blockRoot

def onBlock (o : Orders) (signedBlock : SignedBeaconBlock) : Outcome Store := do
  let block := signedBlock.message
  let parentState ← orFail (s.blockStates.lookup block.parentRoot)
    (.unknownParent block.parentRoot)
  s.checkBlock block
  let state ← ofTransition (parentState.stateTransition signedBlock)
  let preImportHead ← s.getHead o
  s.importBlock block.treeRoot block state preImportHead.root

/-! ## Attestations and slashings -/

def validateTargetEpochAgainstCurrentTime (attestation : Attestation) : Outcome Unit :=
  let targetEpoch := attestation.data.target.epoch
  let currentEpoch := s.getCurrentStoreEpoch
  require (¬(targetEpoch ≠ currentEpoch ∧ targetEpoch ≠ currentEpoch.satSub 1))
    .attestationFromFutureEpoch

def validateOnAttestation (attestation : Attestation) (isFromBlock : Bool) : Outcome Unit := do
  let data := attestation.data
  let target := data.target
  if !isFromBlock then s.validateTargetEpochAgainstCurrentTime attestation
  require (target.epoch = data.slot.epoch) .attestationLmdFfgMismatch
  require (target.root ∈ s.blocks) (.unknownBlock target.root)
  let block ← orFail (s.blocks.lookup data.beaconBlockRoot) (.unknownBlock data.beaconBlockRoot)
  require (block.slot ≤ data.slot) .attestationTooEarly
  require (¬(data.index.val ≠ 0 ∧ data.index.val ≠ 1)) (.attestationIndexInvalid data.index)
  require (¬(block.slot = data.slot ∧ data.index.val ≠ 0)) (.attestationIndexInvalid data.index)
  require (¬(data.index.val = 1 ∧ ¬s.isPayloadVerified data.beaconBlockRoot))
    .attestationPayloadEnvelopeNotRecorded
  let checkpointRoot ← s.getCheckpointBlock data.beaconBlockRoot target.epoch
  require (target.root = checkpointRoot) .attestationLmdFfgMismatch
  require (isAtOrAfterNextSlot data.slot s.getCurrentSlot) .attestationTooEarly

/-- Keep a validator's vote when it is not an equivocator and the vote is newer than its last. -/
def updateLatestMessage (message : LatestMessage)
    (latest : HashMap ValidatorIndex LatestMessage) (index : ValidatorIndex) :
    HashMap ValidatorIndex LatestMessage :=
  if index ∈ s.equivocatingIndices then latest
  else if (latest.lookup index).all fun existing => existing.slot < message.slot then
    latest.insert index message
  else latest

/-- The vote an attestation casts for each of its attesters. -/
def attestationMessage (attestation : Attestation) : LatestMessage :=
  ⟨attestation.data.slot, attestation.data.beaconBlockRoot, attestation.data.index.val == 1⟩

def updateLatestMessages (attestingIndices : List ValidatorIndex)
    (attestation : Attestation) : Store :=
  { s with
    latestMessages := attestingIndices.foldl
      (s.updateLatestMessage (attestationMessage attestation)) s.latestMessages }

/-- The attesters of an attestation, with their aggregate signature checked. -/
def checkedAttesters (targetState : BeaconState) (attestation : Attestation) :
    Outcome (List ValidatorIndex) := do
  let indexed ← ofTransition (targetState.indexedAttestation attestation)
  ofTransition (targetState.validateIndexedAttestation indexed .attestation)
  pure indexed.attestingIndices.toList

def onAttestation (attestation : Attestation) (isFromBlock : Bool) : Outcome Store := do
  s.validateOnAttestation attestation isFromBlock
  let target := attestation.data.target
  let s ← s.storeTargetCheckpointState target
  let targetState ← orFail (s.checkpointStates.lookup target) (.unknownBlock target.root)
  let attesters ← checkedAttesters targetState attestation
  pure (s.updateLatestMessages attesters attestation)

/-- Any failure of an attestation in a slashing becomes one error. -/
def checkSlashingAttestation (state : BeaconState) (indexed : IndexedAttestation)
    (onFail : SignatureError) : Outcome Unit :=
  liftErr (fun _ => .err .invalidAttesterSlashing) (state.validateIndexedAttestation indexed onFail)

def onAttesterSlashing (slashing : AttesterSlashing) : Outcome Store := do
  let a1 := slashing.attestation1
  let a2 := slashing.attestation2
  require (isSlashableAttestationData a1.data a2.data) .invalidAttesterSlashing
  let state ← orFail (s.blockStates.lookup s.justifiedCheckpoint.root) .justifiedStateMissing
  checkSlashingAttestation state a1 .attesterSlashingAttestationOne
  checkSlashingAttestation state a2 .attesterSlashingAttestationTwo
  pure { s with
    equivocatingIndices := s.equivocatingIndices ∪
      (a1.attestingIndices.toList.toFinset ∩ a2.attestingIndices.toList.toFinset) }

/-- Import a block, then replay the attestations and slashings it carries; all or nothing. -/
def onBlockWithEmbeddedMessages (o : Orders) (signedBlock : SignedBeaconBlock) : Outcome Store := do
  let body := signedBlock.message.body
  let s ← s.onBlock o signedBlock
  let s ← body.attestations.toList.foldlM (fun (s : Store) a => s.onAttestation a true) s
  body.attesterSlashings.toList.foldlM onAttesterSlashing s

end Store

end Moonglass
