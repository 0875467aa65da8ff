import Moonglass.Primitives

/-
  The errors of the source, one inductive type per enumeration, with the data each variant
  carries. Merkleization of a typed value cannot fail (every list is within its limit), so
  `MerkleError` has no counterpart. Conversions with `?` are the constructors of
  `TransitionError` and `ForkChoiceError` that hold another error.
-/

namespace Moonglass

inductive SlotError where
  | notAfter (current target : Slot)
  | nextSlotOverflow (slot : Slot)
  deriving DecidableEq

inductive BlockError where
  | slotNotAfterParent (block parent : Slot)
  | blockSlotMismatch (block state : Slot)
  | parentRootMismatch (got want : Root)
  | proposerIndexMismatch (got want : ValidatorIndex)
  | proposerSlashed (index : ValidatorIndex)
  | proposerLookaheadOutOfRange (slot : Slot)
  | eth1VotesFull
  | committeeIndexOutOfRange (index : CommitteeIndex)
  | emptyActiveValidatorSet
  | parentPayloadRequestsMismatch
  | parentPayloadUnexpectedRequests
  | envelopeBuilderMismatch
  | envelopeRandaoMismatch
  | envelopeGasLimitMismatch
  | envelopePayloadHashMismatch
  | envelopeRequestsRootMismatch
  | envelopeSlotMismatch
  | envelopeParentHashMismatch (got want : Hash32)
  | envelopeTimestampMismatch (got want : U64)
  | envelopeTimestampOverflow
  | envelopeBlockRootMismatch
  | envelopeParentMismatch
  | withdrawalsRootMismatch
  deriving DecidableEq

inductive OperationError where
  | validatorNotActive (index : ValidatorIndex)
  | validatorAlreadyExiting (index : ValidatorIndex)
  | exitTooEarly (current exit : Epoch)
  | validatorTooYoung (validator : ValidatorIndex) (eligible current : Epoch)
  | validatorHasPendingWithdrawal (index : ValidatorIndex)
  | withdrawalCredentialsNotBls (index : ValidatorIndex)
  | blsChangeCredentialMismatch (index : ValidatorIndex)
  | attestationSlotInvalid (slot : Slot)
  | attestationPayloadStatusInvalid
  | attestationSourceMismatch
  | attestationTargetEpochInvalid
  | attestationParticipantsEmpty
  | attestationAggregationBitsLength
  | attesterSlashingNotSlashable
  | attesterSlashingNoIntersection
  | indexedAttestationEmpty
  | indexedAttestationNotSorted
  | proposerSlashingHeadersMatch
  | proposerSlashingSlotMismatch
  | proposerSlashingProposerMismatch
  | proposerSlashingNotSlashable (index : ValidatorIndex)
  | payloadAttestationSlotMismatch
  | payloadAttestationBlockRootMismatch
  | builderNotActive (index : BuilderIndex)
  | builderNotPayloadVersion (index : BuilderIndex)
  | builderInsufficientBalance (index : BuilderIndex)
  | builderBidSelfBuildNonZero
  | builderBidSelfBuildSignature
  | builderBidSlotMismatch
  | builderBidParentMismatch
  | builderBidRandaoMismatch
  | builderBidBlobLimitExceeded (got max : Nat)
  | builderPaymentIndexOutOfRange
  | builderPendingWithdrawalsFull
  | depositsNotAllowed
  | withdrawableEpochOverflow (index : ValidatorIndex)
  deriving DecidableEq

inductive RegistryError where
  | validatorIndexOutOfRange (index : U64)
  | builderIndexOutOfRange (index : U64)
  | syncCommitteeMemberNotFound
  deriving DecidableEq

inductive SignatureError where
  | blockProposer (index : ValidatorIndex)
  | randaoReveal
  | voluntaryExit (index : ValidatorIndex)
  | blsToExecutionChange (index : ValidatorIndex)
  | syncAggregate
  | syncInfinitySignatureRequired
  | attestation
  | proposerSlashingHeaderOne
  | proposerSlashingHeaderTwo
  | attesterSlashingAttestationOne
  | attesterSlashingAttestationTwo
  | payloadAttestation
  | executionPayloadBid (index : BuilderIndex)
  | executionPayloadEnvelope (index : BuilderIndex)
  | deposit
  | aggregatePubkey
  | emptyAggregatePubkeySet
  deriving DecidableEq

inductive PrimitivesError where
  | notBuilderIndex
  | flagIndexOutOfRange (index : Nat)
  | sentinelBuilderIndex
  | builderIndexOutOfRange
  deriving DecidableEq

inductive TransitionArithmetic where
  | slot
  | epoch
  | churn
  | weight
  | withdrawalIndex
  | balanceSum
  | boundedListLength
  deriving DecidableEq

/-- The bounded lists of the consensus containers that an operation can fill up. -/
inductive BoundedListName where
  | validators
  | balances
  | previousEpochParticipation
  | currentEpochParticipation
  | inactivityScores
  | historicalSummaries
  | builders
  | indexedAttestationIndices
  | indexedPayloadAttestationIndices
  | pendingDeposits
  | pendingPartialWithdrawals
  | pendingConsolidations
  | builderPendingWithdrawals
  | payloadExpectedWithdrawals
  deriving DecidableEq

inductive StateTransitionInvariant where
  | missingBalance (index : ValidatorIndex)
  | missingPreviousEpochParticipation (index : ValidatorIndex)
  | missingCurrentEpochParticipation (index : ValidatorIndex)
  | missingInactivityScore (index : ValidatorIndex)
  | missingBuilder (index : BuilderIndex)
  deriving DecidableEq

inductive TransitionError where
  | slot (e : SlotError)
  | block (e : BlockError)
  | operation (e : OperationError)
  | registry (e : RegistryError)
  | signature (e : SignatureError)
  | primitive (e : PrimitivesError)
  | stateRootMismatch (got want : Root)
  | balanceOverflow
  | arithmeticOverflow (a : TransitionArithmetic)
  | boundedListFull (l : BoundedListName)
  | invariant (e : StateTransitionInvariant)
  deriving DecidableEq

/-- A failure inside a KZG operation. The operations are parameters of the development. -/
inductive KzgError where
  | kzg
  deriving DecidableEq

/-- A failure to load the KZG trusted setup. -/
inductive SetupFileError where
  | setup
  deriving DecidableEq

inductive ForkChoiceError where
  | unknownBlock (root : Root)
  | missingUnrealizedJustification (root : Root)
  | missingBlockTimeliness (root : Root)
  | unknownParent (root : Root)
  | blockBeforeFinalizedSlot (blockSlot finalizedSlot : Slot)
  | blockNotDescendedFromFinalized
  | blockFromFuture (blockSlot currentSlot : Slot)
  | attestationTooEarly
  | attestationFromFutureEpoch
  | attestationIndexInvalid (index : U64)
  | attestationPayloadEnvelopeNotRecorded
  | attestationLmdFfgMismatch
  | invalidAttesterSlashing
  | payloadParentEnvelopeNotRecorded (root : Root)
  | payloadEnvelopeForUnknownBlock (root : Root)
  | dataColumnSidecarInvalid (block : Root) (column : ColumnIndex)
  | dataColumnSidecarSlotMismatch (sidecarSlot blockSlot : Slot)
  | dataColumnSidecarProofInvalid (block : Root) (column : ColumnIndex)
  | dataColumnSidecarProofError (block : Root) (column : ColumnIndex) (source : KzgError)
  | payloadExecutionInvalid (root : Root)
  | payloadAttestationForUnknownBlock (root : Root)
  | payloadAttestationSlotOutOfWindow
  | payloadAttestationValidatorNotInPtc
  | payloadAttestationParticipantsFull
  | payloadAttestationWrongSlot
  | tickWentBackwards (start stop : U64)
  | anchorStateRootMismatch (got want : Root)
  | anchorTimeOverflow
  | justifiedStateMissing
  | validatorOutOfBounds (index : ValidatorIndex)
  | notPreviousSlot (root : Root)
  | weightOverflow
  | payloadVoteIndexOutOfBounds (index : Nat)
  | transition (e : TransitionError)
  | kzgSetup (e : SetupFileError)
  deriving DecidableEq

end Moonglass
