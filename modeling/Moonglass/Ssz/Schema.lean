import Moonglass.Ssz.Types

/-
  The types that the crate encodes: the numeric and byte-array newtypes, and the containers with
  the types of their fields in order. The names of the fields do not reach the encoding.
-/

namespace Moonglass.Ssz.Schema

variable [Preset]

def container (fields : List SszType) : SszType := .container (.ofList fields)

/-! ## Newtypes -/

def uint8 : SszType := .uint .u8
def uint64 : SszType := .uint .u64
def slot : SszType := uint64
def epoch : SszType := uint64
def gwei : SszType := uint64
def validatorIndex : SszType := uint64
def builderIndex : SszType := uint64
def committeeIndex : SszType := uint64
def columnIndex : SszType := uint64
def rowIndex : SszType := uint64
def withdrawalIndex : SszType := uint64
def participationFlags : SszType := uint8
def bytes32 : SszType := .byteArray 32
def root : SszType := .byteArray 32
def hash32 : SszType := .byteArray 32
def domain : SszType := .byteArray 32
def executionAddress : SszType := .byteArray 20
def version : SszType := .byteArray 4
def blsPubkey : SszType := .byteArray 48
def blsSignature : SszType := .byteArray 96
def kzgCommitment : SszType := .byteArray 48
def kzgProof : SszType := .byteArray 48
def cell : SszType := .byteArray bytesPerCell
def transaction : SszType := .list uint8 maxBytesPerTransaction
def transactions : SszType := .list transaction maxTransactionsPerPayload
def blockAccessList : SszType := .list uint8 maxBytesPerTransaction

/-! ## Chain -/

def blobParameters : SszType := container [epoch, uint64]
def fork : SszType := container [version, version, epoch]
def forkData : SszType := container [version, root]
def checkpoint : SszType := container [epoch, root]
def historicalSummary : SszType := container [root, root]
def eth1Data : SszType := container [root, uint64, hash32]
def signingData : SszType := container [root, domain]

/-! ## Validators -/

def validator : SszType := container [blsPubkey, bytes32, gwei, .bool, epoch, epoch, epoch, epoch]
def pendingDeposit : SszType := container [blsPubkey, bytes32, gwei, blsSignature, slot]
def pendingPartialWithdrawal : SszType := container [validatorIndex, gwei, epoch]
def pendingConsolidation : SszType := container [validatorIndex, validatorIndex]

/-! ## Withdrawals, deposits and requests -/

def withdrawal : SszType := container [withdrawalIndex, validatorIndex, executionAddress, gwei]
def blsToExecutionChange : SszType := container [validatorIndex, blsPubkey, executionAddress]
def signedBlsToExecutionChange : SszType := container [blsToExecutionChange, blsSignature]
def voluntaryExit : SszType := container [epoch, validatorIndex]
def signedVoluntaryExit : SszType := container [voluntaryExit, blsSignature]
def depositMessage : SszType := container [blsPubkey, bytes32, gwei]
def depositData : SszType := container [blsPubkey, bytes32, gwei, blsSignature]
def deposit : SszType := container [.vector bytes32 depositProofLen, depositData]
def depositRequest : SszType := container [blsPubkey, bytes32, gwei, blsSignature, uint64]
def withdrawalRequest : SszType := container [executionAddress, blsPubkey, gwei]
def consolidationRequest : SszType := container [executionAddress, blsPubkey, blsPubkey]
def builderDepositRequest : SszType := container [blsPubkey, bytes32, gwei, blsSignature]
def builderExitRequest : SszType := container [executionAddress, blsPubkey]
def executionRequests : SszType := container [
  .list depositRequest maxDepositRequestsPerPayload,
  .list withdrawalRequest maxWithdrawalRequestsPerPayload,
  .list consolidationRequest maxConsolidationRequestsPerPayload,
  .list builderDepositRequest maxBuilderDepositRequestsPerPayload,
  .list builderExitRequest maxBuilderExitRequestsPerPayload]

/-! ## Builders -/

def builder : SszType := container [blsPubkey, uint8, executionAddress, gwei, epoch, epoch]
def builderPendingWithdrawal : SszType := container [executionAddress, gwei, builderIndex]
def builderPendingPayment : SszType := container [gwei, builderPendingWithdrawal, validatorIndex]
def payloadAttestationData : SszType := container [root, slot, .bool, .bool]
def payloadAttestation : SszType := container [
  .bitvector ptcSize, payloadAttestationData, blsSignature]
def payloadAttestationMessage : SszType := container [
  validatorIndex, payloadAttestationData, blsSignature]
def indexedPayloadAttestation : SszType := container [
  .list validatorIndex ptcSize, payloadAttestationData, blsSignature]

/-! ## Sync committees -/

def syncCommittee : SszType := container [.vector blsPubkey syncCommitteeSize, blsPubkey]
def syncAggregate : SszType := container [.bitvector syncCommitteeSize, blsSignature]
def syncCommitteeMessage : SszType := container [slot, root, validatorIndex, blsSignature]
def syncCommitteeContribution : SszType := container [
  slot, root, uint64, .bitvector (syncCommitteeSize / syncCommitteeSubnetCount), blsSignature]
def contributionAndProof : SszType := container [
  validatorIndex, syncCommitteeContribution, blsSignature]
def signedContributionAndProof : SszType := container [contributionAndProof, blsSignature]
def syncAggregatorSelectionData : SszType := container [slot, uint64]

/-! ## Execution payloads -/

def powBlock : SszType := container [hash32, hash32, .uint .u256]
def executionPayload : SszType := container [
  hash32, executionAddress, bytes32, bytes32, .vector uint8 bytesPerLogsBloom, bytes32, uint64,
  uint64, uint64, uint64, .list uint8 maxExtraDataBytes, .uint .u256, hash32, transactions,
  .list withdrawal maxWithdrawalsPerPayload, uint64, uint64, blockAccessList, uint64]
def executionPayloadBid : SszType := container [
  hash32, root, hash32, bytes32, executionAddress, uint64, builderIndex, slot, gwei, gwei,
  .list kzgCommitment maxBlobCommitmentsPerBlock, root]
def signedExecutionPayloadBid : SszType := container [executionPayloadBid, blsSignature]
def executionPayloadEnvelope : SszType := container [
  executionPayload, executionRequests, builderIndex, root, root]
def signedExecutionPayloadEnvelope : SszType := container [executionPayloadEnvelope, blsSignature]

/-! ## Attestations and slashings -/

def beaconBlockHeader : SszType := container [slot, validatorIndex, root, root, root]
def signedBeaconBlockHeader : SszType := container [beaconBlockHeader, blsSignature]
def attestationData : SszType := container [slot, committeeIndex, root, checkpoint, checkpoint]
def indexedAttestation : SszType := container [
  .list validatorIndex maxAttestingIndices, attestationData, blsSignature]
def attestation : SszType := container [
  .bitlist maxAttestingIndices, attestationData, blsSignature, .bitvector maxCommitteesPerSlot]
def singleAttestation : SszType := container [
  committeeIndex, validatorIndex, attestationData, blsSignature]
def aggregateAndProof : SszType := container [validatorIndex, attestation, blsSignature]
def signedAggregateAndProof : SszType := container [aggregateAndProof, blsSignature]
def attesterSlashing : SszType := container [indexedAttestation, indexedAttestation]
def proposerSlashing : SszType := container [signedBeaconBlockHeader, signedBeaconBlockHeader]

/-! ## Blocks -/

def beaconBlockBody : SszType := container [
  blsSignature, eth1Data, bytes32, .list proposerSlashing maxProposerSlashings,
  .list attesterSlashing maxAttesterSlashings, .list attestation maxAttestations,
  .list deposit maxDeposits, .list signedVoluntaryExit maxVoluntaryExits, syncAggregate,
  .list signedBlsToExecutionChange maxBlsToExecutionChanges, signedExecutionPayloadBid,
  .list payloadAttestation maxPayloadAttestations, executionRequests]
def beaconBlock : SszType := container [slot, validatorIndex, root, root, beaconBlockBody]
def signedBeaconBlock : SszType := container [beaconBlock, blsSignature]

/-! ## Data availability -/

def dataColumnSidecar : SszType := container [
  columnIndex, .list cell maxBlobCommitmentsPerBlock, .list kzgProof maxBlobCommitmentsPerBlock,
  slot, root]
def dataColumnsByRootIdentifier : SszType := container [root, .list columnIndex numberOfColumns]
def matrixEntry : SszType := container [cell, kzgProof, columnIndex, rowIndex]
def partialDataColumnSidecar : SszType := container [
  .bitlist maxBlobCommitmentsPerBlock, .list cell maxBlobCommitmentsPerBlock,
  .list kzgProof maxBlobCommitmentsPerBlock]
def partialDataColumnGroupId : SszType := container [slot, root]

/-! ## Gossip -/

def proposerPreferences : SszType := container [
  root, slot, validatorIndex, executionAddress, uint64]
def signedProposerPreferences : SszType := container [proposerPreferences, blsSignature]

/-! ## The state -/

def beaconState : SszType := container [
  uint64, root, slot, fork, beaconBlockHeader, .vector root slotsPerHistoricalRoot,
  .vector root slotsPerHistoricalRoot, .list root historicalRootsLimit, eth1Data,
  .list eth1Data eth1DataVotesLen, uint64, .list validator validatorRegistryLimit,
  .list gwei validatorRegistryLimit, .vector bytes32 epochsPerHistoricalVector,
  .vector gwei epochsPerSlashingsVector, .list participationFlags validatorRegistryLimit,
  .list participationFlags validatorRegistryLimit, .bitvector justificationBitsLength, checkpoint,
  checkpoint, checkpoint, .list uint64 validatorRegistryLimit, syncCommittee, syncCommittee,
  hash32, withdrawalIndex, validatorIndex, .list historicalSummary historicalRootsLimit, uint64,
  gwei, gwei, epoch, gwei, epoch, .list pendingDeposit pendingDepositsLimit,
  .list pendingPartialWithdrawal pendingPartialWithdrawalsLimit,
  .list pendingConsolidation pendingConsolidationsLimit,
  .vector validatorIndex proposerLookaheadLen, .list builder builderRegistryLimit, builderIndex,
  .bitvector slotsPerHistoricalRoot, .vector builderPendingPayment builderPaymentWindowLen,
  .list builderPendingWithdrawal builderPendingWithdrawalsLimit, executionPayloadBid,
  .list withdrawal maxWithdrawalsPerPayload,
  .vector (.vector validatorIndex ptcSize) ptcWindowLen]

/-- Every container of the crate. -/
def containers : List SszType := [
  blobParameters, fork, forkData, checkpoint, historicalSummary, eth1Data, signingData, validator,
  pendingDeposit, pendingPartialWithdrawal, pendingConsolidation, withdrawal,
  blsToExecutionChange, signedBlsToExecutionChange, voluntaryExit, signedVoluntaryExit,
  depositMessage, depositData, deposit, depositRequest, withdrawalRequest, consolidationRequest,
  builderDepositRequest, builderExitRequest, executionRequests, builder, builderPendingWithdrawal,
  builderPendingPayment, payloadAttestationData, payloadAttestation, payloadAttestationMessage,
  indexedPayloadAttestation, syncCommittee, syncAggregate, syncCommitteeMessage,
  syncCommitteeContribution, contributionAndProof, signedContributionAndProof,
  syncAggregatorSelectionData, powBlock, executionPayload, executionPayloadBid,
  signedExecutionPayloadBid, executionPayloadEnvelope, signedExecutionPayloadEnvelope,
  beaconBlockHeader, signedBeaconBlockHeader, attestationData, indexedAttestation, attestation,
  singleAttestation, aggregateAndProof, signedAggregateAndProof, attesterSlashing,
  proposerSlashing, beaconBlockBody, beaconBlock, signedBeaconBlock, dataColumnSidecar,
  dataColumnsByRootIdentifier, matrixEntry, partialDataColumnSidecar, partialDataColumnGroupId,
  proposerPreferences, signedProposerPreferences, beaconState]

theorem containers_wellFormed : ∀ t ∈ containers, t.WellFormed := by
  rename_i preset
  cases preset with
  | mk name => cases name <;> decide +kernel

end Moonglass.Ssz.Schema
