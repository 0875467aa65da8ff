import Moonglass.Lib.Word

/-
  Presets and constants. The source is compiled with one of two presets, mainnet or minimal; a
  constant whose value depends on it is chosen by `pick`. All definitions of the development are
  over an arbitrary preset, so every theorem holds for both builds.
-/

namespace Moonglass

/-- The two compile-time presets of the source. -/
inductive PresetName where
  | mainnet
  | minimal
  deriving DecidableEq, Repr

/-- The preset in force. -/
class Preset where
  name : PresetName

variable [Preset]

/-- The mainnet value or the minimal value of a constant. -/
def pick {α : Type} (mainnet minimal : α) : α :=
  match Preset.name with
  | .mainnet => mainnet
  | .minimal => minimal

theorem pick_cases {α : Type} (a b : α) : pick a b = a ∨ pick a b = b := by
  unfold pick; split <;> simp

/-! ## Time -/

def slotDurationMs : Nat := pick 12000 6000
def slotsPerEpoch : Nat := pick 32 8
def slotsPerHistoricalRoot : Nat := pick 8192 64
def minAttestationInclusionDelay : Nat := 1
def minSeedLookahead : Nat := 1
def maxSeedLookahead : Nat := 4
def epochsPerEth1VotingPeriod : Nat := pick 64 4
def minEpochsToInactivityPenalty : Nat := 4
def epochsPerSyncCommitteePeriod : Nat := pick 256 8
def minValidatorWithdrawabilityDelay : Nat := 256
def shardCommitteePeriod : Nat := pick 256 64
def minBuilderWithdrawabilityDelay : Nat := pick 8192 2

/-! ## State -/

def epochsPerHistoricalVector : Nat := pick 65536 64
def eth1DataVotesLen : Nat := epochsPerEth1VotingPeriod * slotsPerEpoch
def proposerLookaheadLen : Nat := (minSeedLookahead + 1) * slotsPerEpoch
def epochsPerSlashingsVector : Nat := pick 8192 64
def historicalRootsLimit : Nat := 16777216
def validatorRegistryLimit : Nat := 1099511627776
def pendingDepositsLimit : Nat := 134217728
def pendingPartialWithdrawalsLimit : Nat := pick 134217728 64
def pendingConsolidationsLimit : Nat := pick 262144 64
def builderRegistryLimit : Nat := 1099511627776
def builderPendingWithdrawalsLimit : Nat := 1048576
def justificationBitsLength : Nat := 4

/-! ## Blocks and committees -/

def maxCommitteesPerSlot : Nat := pick 64 4
def targetCommitteeSize : Nat := pick 128 4
def maxValidatorsPerCommittee : Nat := 2048
def maxAttestingIndices : Nat := maxValidatorsPerCommittee * maxCommitteesPerSlot
def shuffleRoundCount : Nat := pick 90 10
def syncCommitteeSize : Nat := pick 512 32
def syncCommitteeSubnetCount : Nat := 4
def ptcSize : Nat := pick 512 16
def maxProposerSlashings : Nat := 16
def maxAttesterSlashings : Nat := 1
def maxAttestations : Nat := 8
def maxDeposits : Nat := 16
def maxVoluntaryExits : Nat := 16
def maxBlsToExecutionChanges : Nat := 16
def maxPayloadAttestations : Nat := 4
def maxDepositRequestsPerPayload : Nat := 8192
def maxWithdrawalRequestsPerPayload : Nat := 16
def maxConsolidationRequestsPerPayload : Nat := 2
def maxBuilderDepositRequestsPerPayload : Nat := 256
def maxBuilderExitRequestsPerPayload : Nat := 16
def maxBytesPerTransaction : Nat := 1073741824
def maxTransactionsPerPayload : Nat := 1048576
def bytesPerLogsBloom : Nat := 256
def maxExtraDataBytes : Nat := 32
def maxBlobCommitmentsPerBlock : Nat := 4096
def bytesPerFieldElement : Nat := 32
def fieldElementsPerBlob : Nat := 4096
def fieldElementsPerExtBlob : Nat := 2 * fieldElementsPerBlob
def fieldElementsPerCell : Nat := 64
def bytesPerCell : Nat := fieldElementsPerCell * bytesPerFieldElement
def cellsPerExtBlob : Nat := fieldElementsPerExtBlob / fieldElementsPerCell
def numberOfColumns : Nat := cellsPerExtBlob
def maxBlobsPerBlock : Nat := 9
def blobSchedule : List (Nat × Nat) := pick [(412672, 15), (419072, 21)] []
def depositProofLen : Nat := 33

/-! ## Builders -/

def builderPaymentWindowLen : Nat := 2 * slotsPerEpoch
def ptcWindowLen : Nat := (2 + minSeedLookahead) * slotsPerEpoch
def builderIndexFlag : Nat := 2 ^ 40
def payloadBuilderVersion : Nat := 0
def builderPaymentThresholdNumerator : Nat := 6
def builderPaymentThresholdDenominator : Nat := 10

/-! ## Fork choice -/

def basisPoints : Nat := 10000
def proposerScoreBoost : Nat := 40
def reorgHeadWeightThreshold : Nat := 20
def attestationDueBpsGloas : Nat := 2500
def payloadAttestationDueBps : Nat := 7500
def payloadTimelyThreshold : Nat := ptcSize / 2
def dataAvailabilityTimelyThreshold : Nat := ptcSize / 2

/-! ## Rewards -/

def baseRewardFactor : Nat := 64
def whistleblowerRewardQuotient : Nat := 4096
def inactivityPenaltyQuotient : Nat := 16777216
def minSlashingPenaltyQuotient : Nat := 4096
def proportionalSlashingMultiplier : Nat := 3
def inactivityScoreBias : Nat := 4
def inactivityScoreRecoveryRate : Nat := 16
def timelySourceFlagIndex : Nat := 0
def timelyTargetFlagIndex : Nat := 1
def timelyHeadFlagIndex : Nat := 2
def timelySourceWeight : Nat := 14
def timelyTargetWeight : Nat := 26
def timelyHeadWeight : Nat := 14
def syncRewardWeight : Nat := 2
def proposerWeight : Nat := 8
def weightDenominator : Nat := 64
def participationFlagWeights : List Nat :=
  [timelySourceWeight, timelyTargetWeight, timelyHeadWeight]

/-! ## Validators -/

def minDepositAmount : Nat := 1000000000
def effectiveBalanceIncrement : Nat := 1000000000
def minActivationBalance : Nat := 32000000000
def maxEffectiveBalance : Nat := 2048000000000
def ejectionBalance : Nat := 16000000000
def hysteresisQuotient : Nat := 4
def hysteresisDownwardMultiplier : Nat := 1
def hysteresisUpwardMultiplier : Nat := 5
def minPerEpochChurnLimit : Nat := pick 128000000000 64000000000
def churnLimitQuotient : Nat := pick 32768 16
def consolidationChurnLimitQuotient : Nat := pick 65536 32
def maxPerEpochActivationChurnLimit : Nat := pick 256000000000 128000000000
def maxWithdrawalsPerPayload : Nat := pick 16 4
def maxValidatorsPerWithdrawalsSweep : Nat := pick 16384 16
def maxPendingPartialsPerWithdrawalsSweep : Nat := pick 8 2
def maxPendingDepositsPerEpoch : Nat := 16
def maxBuildersPerWithdrawalsSweep : Nat := pick 16384 16
def fullExitRequestAmount : Nat := 0

end Moonglass
