import Moonglass.Error
import Moonglass.Lib.BoundedList
import Moonglass.Lib.Ring

/-
  The consensus containers, field by field as the source declares them. SSZ vectors are vectors of
  the declared size, SSZ lists carry their limit, bitvectors and bitlists are vectors and bounded
  lists of booleans.
-/

namespace Moonglass

open Lib

variable [Preset]

abbrev Bitvector (n : Nat) := Vector Bool n
abbrev Bitlist (n : Nat) := BoundedList Bool n

/-! ## Chain -/

structure Fork where
  previousVersion : Version
  currentVersion : Version
  epoch : Epoch

structure ForkData where
  currentVersion : Version
  genesisValidatorsRoot : Root

structure Checkpoint where
  epoch : Epoch
  root : Root
  deriving DecidableEq

structure HistoricalSummary where
  blockSummaryRoot : Root
  stateSummaryRoot : Root

structure Eth1Data where
  depositRoot : Root
  depositCount : U64
  blockHash : Hash32
  deriving DecidableEq

structure SigningData where
  objectRoot : Root
  domain : Domain

/-! ## Validators -/

structure Validator where
  pubkey : BLSPubkey
  withdrawalCredentials : Bytes32
  effectiveBalance : Gwei
  slashed : Bool
  activationEligibilityEpoch : Epoch
  activationEpoch : Epoch
  exitEpoch : Epoch
  withdrawableEpoch : Epoch

structure PendingDeposit where
  pubkey : BLSPubkey
  withdrawalCredentials : Bytes32
  amount : Gwei
  signature : BLSSignature
  slot : Slot

structure PendingPartialWithdrawal where
  validatorIndex : ValidatorIndex
  amount : Gwei
  withdrawableEpoch : Epoch

structure PendingConsolidation where
  sourceIndex : ValidatorIndex
  targetIndex : ValidatorIndex

/-! ## Attestations and slashings -/

structure AttestationData where
  slot : Slot
  index : CommitteeIndex
  beaconBlockRoot : Root
  source : Checkpoint
  target : Checkpoint
  deriving DecidableEq

structure IndexedAttestation where
  attestingIndices : BoundedList ValidatorIndex maxAttestingIndices
  data : AttestationData
  signature : BLSSignature

structure Attestation where
  aggregationBits : Bitlist maxAttestingIndices
  data : AttestationData
  signature : BLSSignature
  committeeBits : Bitvector maxCommitteesPerSlot

structure AttesterSlashing where
  attestation1 : IndexedAttestation
  attestation2 : IndexedAttestation

structure BeaconBlockHeader where
  slot : Slot
  proposerIndex : ValidatorIndex
  parentRoot : Root
  stateRoot : Root
  bodyRoot : Root
  deriving DecidableEq

def BeaconBlockHeader.withStateRoot (h : BeaconBlockHeader) (stateRoot : Root) :
    BeaconBlockHeader :=
  { h with stateRoot }

structure SignedBeaconBlockHeader where
  message : BeaconBlockHeader
  signature : BLSSignature
  deriving DecidableEq

structure ProposerSlashing where
  signedHeader1 : SignedBeaconBlockHeader
  signedHeader2 : SignedBeaconBlockHeader

/-! ## Builders and payload attestations -/

structure Builder where
  pubkey : BLSPubkey
  version : U8
  executionAddress : ExecutionAddress
  balance : Gwei
  depositEpoch : Epoch
  withdrawableEpoch : Epoch

structure BuilderPendingWithdrawal where
  feeRecipient : ExecutionAddress
  amount : Gwei
  builderIndex : BuilderIndex

structure BuilderPendingPayment where
  weight : Gwei
  withdrawal : BuilderPendingWithdrawal
  proposerIndex : ValidatorIndex

def BuilderPendingPayment.default : BuilderPendingPayment :=
  ⟨0, ⟨Vector.replicate 20 0, 0, 0⟩, 0⟩

structure PayloadAttestationData where
  beaconBlockRoot : Root
  slot : Slot
  payloadPresent : Bool
  blobDataAvailable : Bool

structure PayloadAttestation where
  aggregationBits : Bitvector ptcSize
  data : PayloadAttestationData
  signature : BLSSignature

structure PayloadAttestationMessage where
  validatorIndex : ValidatorIndex
  data : PayloadAttestationData
  signature : BLSSignature

structure IndexedPayloadAttestation where
  attestingIndices : BoundedList ValidatorIndex ptcSize
  data : PayloadAttestationData
  signature : BLSSignature

/-! ## Withdrawals, deposits and execution requests -/

structure Withdrawal where
  index : WithdrawalIndex
  validatorIndex : ValidatorIndex
  address : ExecutionAddress
  amount : Gwei
  deriving DecidableEq

structure BLSToExecutionChange where
  validatorIndex : ValidatorIndex
  fromBlsPubkey : BLSPubkey
  toExecutionAddress : ExecutionAddress

structure SignedBLSToExecutionChange where
  message : BLSToExecutionChange
  signature : BLSSignature

structure VoluntaryExit where
  epoch : Epoch
  validatorIndex : ValidatorIndex

structure SignedVoluntaryExit where
  message : VoluntaryExit
  signature : BLSSignature

structure DepositMessage where
  pubkey : BLSPubkey
  withdrawalCredentials : Bytes32
  amount : Gwei

structure DepositData where
  pubkey : BLSPubkey
  withdrawalCredentials : Bytes32
  amount : Gwei
  signature : BLSSignature

structure Deposit where
  proof : Vector Bytes32 depositProofLen
  data : DepositData

structure DepositRequest where
  pubkey : BLSPubkey
  withdrawalCredentials : Bytes32
  amount : Gwei
  signature : BLSSignature
  index : U64

structure WithdrawalRequest where
  sourceAddress : ExecutionAddress
  validatorPubkey : BLSPubkey
  amount : Gwei

structure ConsolidationRequest where
  sourceAddress : ExecutionAddress
  sourcePubkey : BLSPubkey
  targetPubkey : BLSPubkey

structure BuilderDepositRequest where
  pubkey : BLSPubkey
  withdrawalCredentials : Bytes32
  amount : Gwei
  signature : BLSSignature

structure BuilderExitRequest where
  sourceAddress : ExecutionAddress
  pubkey : BLSPubkey

structure ExecutionRequests where
  deposits : BoundedList DepositRequest maxDepositRequestsPerPayload
  withdrawals : BoundedList WithdrawalRequest maxWithdrawalRequestsPerPayload
  consolidations : BoundedList ConsolidationRequest maxConsolidationRequestsPerPayload
  builderDeposits : BoundedList BuilderDepositRequest maxBuilderDepositRequestsPerPayload
  builderExits : BoundedList BuilderExitRequest maxBuilderExitRequestsPerPayload

def ExecutionRequests.isEmpty (r : ExecutionRequests) : Bool :=
  r.deposits.isEmpty && r.withdrawals.isEmpty && r.consolidations.isEmpty &&
    r.builderDeposits.isEmpty && r.builderExits.isEmpty

/-! ## Execution payloads -/

structure ExecutionPayload where
  parentHash : Hash32
  feeRecipient : ExecutionAddress
  stateRoot : Bytes32
  receiptsRoot : Bytes32
  logsBloom : Bytes bytesPerLogsBloom
  prevRandao : Bytes32
  blockNumber : U64
  gasLimit : U64
  gasUsed : U64
  timestamp : U64
  extraData : BoundedList U8 maxExtraDataBytes
  baseFeePerGas : Uint256
  blockHash : Hash32
  transactions : BoundedList (BoundedList U8 maxBytesPerTransaction) maxTransactionsPerPayload
  withdrawals : BoundedList Withdrawal maxWithdrawalsPerPayload
  blobGasUsed : U64
  excessBlobGas : U64
  blockAccessList : BoundedList U8 maxBytesPerTransaction
  slotNumber : U64

structure ExecutionPayloadBid where
  parentBlockHash : Hash32
  parentBlockRoot : Root
  blockHash : Hash32
  prevRandao : Bytes32
  feeRecipient : ExecutionAddress
  gasLimit : U64
  builderIndex : BuilderIndex
  slot : Slot
  value : Gwei
  executionPayment : Gwei
  blobKzgCommitments : BoundedList KZGCommitment maxBlobCommitmentsPerBlock
  executionRequestsRoot : Root

structure SignedExecutionPayloadBid where
  message : ExecutionPayloadBid
  signature : BLSSignature

structure ExecutionPayloadEnvelope where
  payload : ExecutionPayload
  executionRequests : ExecutionRequests
  builderIndex : BuilderIndex
  beaconBlockRoot : Root
  parentBeaconBlockRoot : Root

structure SignedExecutionPayloadEnvelope where
  message : ExecutionPayloadEnvelope
  signature : BLSSignature

structure DataColumnSidecar where
  index : ColumnIndex
  column : BoundedList Cell maxBlobCommitmentsPerBlock
  kzgProofs : BoundedList KZGProof maxBlobCommitmentsPerBlock
  slot : Slot
  beaconBlockRoot : Root

/-! ## Sync committees -/

structure SyncCommittee where
  pubkeys : Vector BLSPubkey syncCommitteeSize
  aggregatePubkey : BLSPubkey

structure SyncAggregate where
  syncCommitteeBits : Bitvector syncCommitteeSize
  syncCommitteeSignature : BLSSignature

/-! ## Blocks -/

structure BeaconBlockBody where
  randaoReveal : BLSSignature
  eth1Data : Eth1Data
  graffiti : Bytes32
  proposerSlashings : BoundedList ProposerSlashing maxProposerSlashings
  attesterSlashings : BoundedList AttesterSlashing maxAttesterSlashings
  attestations : BoundedList Attestation maxAttestations
  deposits : BoundedList Deposit maxDeposits
  voluntaryExits : BoundedList SignedVoluntaryExit maxVoluntaryExits
  syncAggregate : SyncAggregate
  blsToExecutionChanges : BoundedList SignedBLSToExecutionChange maxBlsToExecutionChanges
  signedExecutionPayloadBid : SignedExecutionPayloadBid
  payloadAttestations : BoundedList PayloadAttestation maxPayloadAttestations
  parentExecutionRequests : ExecutionRequests

structure BeaconBlock where
  slot : Slot
  proposerIndex : ValidatorIndex
  parentRoot : Root
  stateRoot : Root
  body : BeaconBlockBody

/-- The bid that a block carries. -/
abbrev BeaconBlock.bid (b : BeaconBlock) : ExecutionPayloadBid :=
  b.body.signedExecutionPayloadBid.message

def BeaconBlock.header (b : BeaconBlock) (bodyRoot stateRoot : Root) : BeaconBlockHeader :=
  { slot := b.slot, proposerIndex := b.proposerIndex, parentRoot := b.parentRoot, stateRoot,
    bodyRoot }

structure SignedBeaconBlock where
  message : BeaconBlock
  signature : BLSSignature

/-! ## State -/

structure BeaconState where
  genesisTime : U64
  genesisValidatorsRoot : Root
  slot : Slot
  fork : Fork
  latestBlockHeader : BeaconBlockHeader
  blockRoots : Vector Root slotsPerHistoricalRoot
  stateRoots : Vector Root slotsPerHistoricalRoot
  historicalRoots : BoundedList Root historicalRootsLimit
  eth1Data : Eth1Data
  eth1DataVotes : BoundedList Eth1Data eth1DataVotesLen
  eth1DepositIndex : U64
  validators : BoundedList Validator validatorRegistryLimit
  balances : BoundedList Gwei validatorRegistryLimit
  randaoMixes : Vector Bytes32 epochsPerHistoricalVector
  slashings : Vector Gwei epochsPerSlashingsVector
  previousEpochParticipation : BoundedList ParticipationFlags validatorRegistryLimit
  currentEpochParticipation : BoundedList ParticipationFlags validatorRegistryLimit
  justificationBits : Bitvector justificationBitsLength
  previousJustifiedCheckpoint : Checkpoint
  currentJustifiedCheckpoint : Checkpoint
  finalizedCheckpoint : Checkpoint
  inactivityScores : BoundedList U64 validatorRegistryLimit
  currentSyncCommittee : SyncCommittee
  nextSyncCommittee : SyncCommittee
  latestBlockHash : Hash32
  nextWithdrawalIndex : WithdrawalIndex
  nextWithdrawalValidatorIndex : ValidatorIndex
  historicalSummaries : BoundedList HistoricalSummary historicalRootsLimit
  depositRequestsStartIndex : U64
  depositBalanceToConsume : Gwei
  exitBalanceToConsume : Gwei
  earliestExitEpoch : Epoch
  consolidationBalanceToConsume : Gwei
  earliestConsolidationEpoch : Epoch
  pendingDeposits : BoundedList PendingDeposit pendingDepositsLimit
  pendingPartialWithdrawals :
    BoundedList PendingPartialWithdrawal pendingPartialWithdrawalsLimit
  pendingConsolidations : BoundedList PendingConsolidation pendingConsolidationsLimit
  proposerLookahead : Vector ValidatorIndex proposerLookaheadLen
  builders : BoundedList Builder builderRegistryLimit
  nextWithdrawalBuilderIndex : BuilderIndex
  executionPayloadAvailability : Bitvector slotsPerHistoricalRoot
  builderPendingPayments : Vector BuilderPendingPayment builderPaymentWindowLen
  builderPendingWithdrawals :
    BoundedList BuilderPendingWithdrawal builderPendingWithdrawalsLimit
  latestExecutionPayloadBid : ExecutionPayloadBid
  payloadExpectedWithdrawals : BoundedList Withdrawal maxWithdrawalsPerPayload
  ptcWindow : Vector (Vector ValidatorIndex ptcSize) ptcWindowLen

end Moonglass
