import Moonglass.ForkChoice.Handlers
import Moonglass.Lib.KeyedList

/-
  Payload delivery: execution-payload envelopes and data-column sidecars. An envelope whose data is
  not available yet is queued; the sidecar that completes the columns releases it. Recording a
  sidecar writes before the queued envelope is checked again, so this handler can fail after a
  write.
-/

namespace Moonglass

open Lib

variable [Preset] [Crypto]

inductive ExecutionPayloadValidity where
  | valid
  | invalid
  deriving DecidableEq

/-- The execution engine's verdict on a delivered envelope. -/
abbrev ExecutionPayloadVerifier := SignedExecutionPayloadEnvelope → ExecutionPayloadValidity

/-- The verifier that accepts every payload. -/
def acceptAllExecutionPayloadVerifier : ExecutionPayloadVerifier := fun _ => .valid

/-! ## Sidecars -/

/-- The shape of a sidecar fits the block's commitments. -/
def verifyDataColumnSidecar (sidecar : DataColumnSidecar)
    (commitments : BoundedList KZGCommitment maxBlobCommitmentsPerBlock) : Bool :=
  sidecar.index.val < numberOfColumns && !sidecar.column.isEmpty &&
    sidecar.column.length == commitments.length && sidecar.column.length == sidecar.kzgProofs.length

def verifyDataColumnSidecarKzgProofs (sidecar : DataColumnSidecar)
    (commitments : BoundedList KZGCommitment maxBlobCommitmentsPerBlock) : Except KzgError Bool :=
  Crypto.verifyCellKzgProofBatch commitments.toList
    (List.replicate sidecar.column.length sidecar.index) sidecar.column.toList
    sidecar.kzgProofs.toList

def validateDataColumnSidecar (sidecar : DataColumnSidecar)
    (commitments : BoundedList KZGCommitment maxBlobCommitmentsPerBlock) : Outcome Unit := do
  let block := sidecar.beaconBlockRoot
  let column := sidecar.index
  require (verifyDataColumnSidecar sidecar commitments) (.dataColumnSidecarInvalid block column)
  match verifyDataColumnSidecarKzgProofs sidecar commitments with
  | .ok true => pure ()
  | .ok false => fail (.dataColumnSidecarProofInvalid block column)
  | .error source => fail (.dataColumnSidecarProofError block column source)

/-- Every column index occurs exactly once. -/
def hasCompleteColumnSet (sidecars : List DataColumnSidecar) : Bool :=
  sidecars.length == numberOfColumns && sidecars.all (fun c => c.index.val < numberOfColumns) &&
    (sidecars.map (·.index)).Nodup

/-- Overwrite the stored sidecar of the same column, or add a new one. -/
def replaceSidecar (sidecar : DataColumnSidecar) (sidecars : List DataColumnSidecar) :
    List DataColumnSidecar :=
  upsert DataColumnSidecar.index sidecar sidecars

def sortSidecars (sidecars : List DataColumnSidecar) : List DataColumnSidecar :=
  sortByKey DataColumnSidecar.index sidecars

/-- The trusted setup, loaded once. -/
def defaultKzgSetup : Outcome Unit := liftErr (fun e => .err (.kzgSetup e)) Crypto.kzgSetup

/-- The blob commitments of a block's bid. -/
def BeaconBlock.blobKzgCommitments (b : BeaconBlock) :
    BoundedList KZGCommitment maxBlobCommitmentsPerBlock :=
  b.body.signedExecutionPayloadBid.message.blobKzgCommitments

namespace Store

variable (s : Store)

/-- Does a stored sidecar belong to the block and verify against its commitments? -/
def sidecarVerifies (beaconBlockRoot : Root) (block : BeaconBlock) (sidecar : DataColumnSidecar) :
    Bool :=
  sidecar.beaconBlockRoot == beaconBlockRoot && sidecar.slot == block.slot &&
    verifyDataColumnSidecar sidecar block.blobKzgCommitments &&
    match verifyDataColumnSidecarKzgProofs sidecar block.blobKzgCommitments with
    | .ok verdict => verdict
    | .error _ => false

def isDataAvailableWithSetup (beaconBlockRoot : Root) : Bool :=
  match s.blocks.lookup beaconBlockRoot with
  | none => false
  | some block =>
    block.blobKzgCommitments.isEmpty ||
      match s.dataColumnSidecars.lookup beaconBlockRoot with
      | none => false
      | some sidecars =>
        hasCompleteColumnSet sidecars && sidecars.all (sidecarVerifies beaconBlockRoot block)

def isDataAvailable (beaconBlockRoot : Root) : Outcome Bool := do
  defaultKzgSetup
  pure (s.isDataAvailableWithSetup beaconBlockRoot)

/-! ## Envelopes -/

def verifyExecutionPayloadEnvelopeConsensus
    (signedEnvelope : SignedExecutionPayloadEnvelope) : Outcome Unit := do
  let root := signedEnvelope.message.beaconBlockRoot
  let blockState ← orFail (s.blockStates.lookup root) (.payloadEnvelopeForUnknownBlock root)
  ofTransition (blockState.verifyExecutionPayloadEnvelope signedEnvelope)

def verifyExecutionPayloadEnvelopeExecution (signedEnvelope : SignedExecutionPayloadEnvelope)
    (verifier : ExecutionPayloadVerifier) : Outcome Unit :=
  require (verifier signedEnvelope ≠ .invalid)
    (.payloadExecutionInvalid signedEnvelope.message.beaconBlockRoot)

def recordVerifiedExecutionPayloadEnvelope
    (signedEnvelope : SignedExecutionPayloadEnvelope) : Store :=
  let root := signedEnvelope.message.beaconBlockRoot
  { s with
    payloads := s.payloads.insert root signedEnvelope.message
    queuedPayloadEnvelopes := s.queuedPayloadEnvelopes.erase root }

def onExecutionPayloadEnvelopeWithVerifier
    (signedEnvelope : SignedExecutionPayloadEnvelope) (verifier : ExecutionPayloadVerifier) :
    Outcome Store := do
  let root := signedEnvelope.message.beaconBlockRoot
  require (root ∈ s.blockStates) (.payloadEnvelopeForUnknownBlock root)
  s.verifyExecutionPayloadEnvelopeConsensus signedEnvelope
  if ← s.isDataAvailable root then
    verifyExecutionPayloadEnvelopeExecution signedEnvelope verifier
    pure (s.recordVerifiedExecutionPayloadEnvelope signedEnvelope)
  else
    pure { s with queuedPayloadEnvelopes := s.queuedPayloadEnvelopes.insert root signedEnvelope }

def onExecutionPayloadEnvelope (signedEnvelope : SignedExecutionPayloadEnvelope) : Outcome Store :=
  s.onExecutionPayloadEnvelopeWithVerifier signedEnvelope acceptAllExecutionPayloadVerifier

/-- Release the queued envelope of a block once its data is available. -/
def processQueuedPayloadEnvelope (beaconBlockRoot : Root)
    (verifier : ExecutionPayloadVerifier) : Outcome Store :=
  match s.queuedPayloadEnvelopes.lookup beaconBlockRoot with
  | none => pure s
  | some signedEnvelope => do
    if !s.isDataAvailableWithSetup beaconBlockRoot then return s
    s.verifyExecutionPayloadEnvelopeConsensus signedEnvelope
    verifyExecutionPayloadEnvelopeExecution signedEnvelope verifier
    pure (s.recordVerifiedExecutionPayloadEnvelope signedEnvelope)

/-- The checks on a sidecar before it is stored. -/
def checkSidecar (sidecar : DataColumnSidecar) : Outcome Unit := do
  defaultKzgSetup
  let root := sidecar.beaconBlockRoot
  let block ← orFail (s.blocks.lookup root) (.unknownBlock root)
  require (sidecar.slot = block.slot) (.dataColumnSidecarSlotMismatch sidecar.slot block.slot)
  validateDataColumnSidecar sidecar block.blobKzgCommitments

/-- Store a sidecar in its column's place. -/
def insertSidecar (sidecar : DataColumnSidecar) : Store :=
  let stored := (s.dataColumnSidecars.lookup sidecar.beaconBlockRoot).getD []
  { s with
    dataColumnSidecars := s.dataColumnSidecars.insert sidecar.beaconBlockRoot
      (sortSidecars (replaceSidecar sidecar stored)) }

/-- Record a sidecar and release the payload it completes. The sidecar stays stored even when the
release fails. -/
def recordDataColumnSidecarWithVerifier (sidecar : DataColumnSidecar)
    (verifier : ExecutionPayloadVerifier) : Outcome Unit × Store :=
  match s.checkSidecar sidecar with
  | .error e => (.error e, s)
  | .ok () =>
    let s := s.insertSidecar sidecar
    match s.processQueuedPayloadEnvelope sidecar.beaconBlockRoot verifier with
    | .error e => (.error e, s)
    | .ok s => (.ok (), s)

def recordDataColumnSidecar (sidecar : DataColumnSidecar) : Outcome Unit × Store :=
  s.recordDataColumnSidecarWithVerifier sidecar acceptAllExecutionPayloadVerifier

end Store

end Moonglass
