import Moonglass.StateTransition.Builder
import Mathlib.Data.List.Dedup

/-
  Block operations: attestations, slashings, voluntary exits and credential changes. A beacon
  attestation is accepted first (`acceptAttestation`, no writes), then its participation flags are
  recorded, then the proposer is rewarded.
-/

namespace Moonglass

open Lib

variable [Preset] [Crypto]

/-- Is each value smaller than the next one? -/
def strictlyIncreasing : List U64 → Bool
  | a :: b :: l => a < b && strictlyIncreasing (b :: l)
  | _ => true

/-- The values of both lists, each once, in increasing order. -/
def sortedIntersection (l l' : List ValidatorIndex) : List ValidatorIndex :=
  ((l.filter (· ∈ l')).insertionSort (· ≤ ·)).dedup

/-- Two votes that break a slashing rule: two votes for one target epoch, or a surround vote. -/
def isSlashableAttestationData (d1 d2 : AttestationData) : Bool :=
  (d1 ≠ d2 && d1.target.epoch == d2.target.epoch) ||
    (d1.source.epoch < d2.source.epoch && d2.target.epoch < d1.target.epoch)

/-- What an accepted attestation will record. -/
structure AcceptedAttestation where
  attestingIndices : List ValidatorIndex
  participationFlags : List Nat
  targetIsCurrentEpoch : Bool
  isSameSlot : Bool
  builderPaymentIndex : Nat

namespace BeaconState

variable (s : BeaconState)

/-! ## Attesters -/

/-- The members of the attested committees whose aggregation bit is set. -/
def attestingIndices (attestation : Attestation) : Transition (List ValidatorIndex) := do
  let (out, offset) ← (getCommitteeIndices attestation.committeeBits).foldlM
    (fun (acc : List ValidatorIndex × Nat) ci => do
      let committee ← s.getBeaconCommittee attestation.data.slot ci
      let attesters := committee.zipIdx.filterMap fun (vi, i) =>
        if (attestation.aggregationBits.get? (acc.2 + i)).getD false then some vi else none
      ensure (¬attesters.isEmpty) (.operation .attestationParticipantsEmpty)
      pure (acc.1 ++ attesters, acc.2 + committee.length)) ([], 0)
  ensure (attestation.aggregationBits.length = offset)
    (.operation .attestationAggregationBitsLength)
  pure (out.insertionSort (· ≤ ·)).dedup

def indexedAttestationFromKnownIndices (attestation : Attestation)
    (attesting : List ValidatorIndex) : Transition IndexedAttestation := do
  let indices ← okOr (BoundedList.tryFrom attesting) (.boundedListFull .indexedAttestationIndices)
  pure ⟨indices, attestation.data, attestation.signature⟩

def indexedAttestation (attestation : Attestation) : Transition IndexedAttestation := do
  indexedAttestationFromKnownIndices attestation (← s.attestingIndices attestation)

def validateIndexedAttestation (indexed : IndexedAttestation)
    (onFail : SignatureError) : Transition Unit := do
  ensure (¬indexed.attestingIndices.isEmpty) (.operation .indexedAttestationEmpty)
  ensure (strictlyIncreasing indexed.attestingIndices.toList)
    (.operation .indexedAttestationNotSorted)
  let pubkeys ← indexed.attestingIndices.toList.mapM fun i => do pure (← s.validator i).pubkey
  let domain := s.domainFor domainBeaconAttester indexed.data.target.epoch
  let signingRoot := computeSigningRoot (Crypto.attestationDataRoot indexed.data) domain
  fastAggregateVerify pubkeys signingRoot indexed.signature onFail

/-! ## Attestations -/

def isAttestationSameSlot (data : AttestationData) : Bool :=
  data.slot.val == 0 ||
    (data.beaconBlockRoot == s.blockRootAtSlot data.slot &&
      data.beaconBlockRoot != s.blockRootAtSlot (data.slot.satSub 1))

/-- The participation flags an attestation earns. -/
def getAttestationParticipationFlagIndices (data : AttestationData)
    (inclusionDelay : Nat) : Transition (List Nat) := do
  let justified := if data.target.epoch = s.slot.epoch then s.currentJustifiedCheckpoint
    else s.previousJustifiedCheckpoint
  ensure (data.source = justified) (.operation .attestationSourceMismatch)
  let isMatchingTarget : Bool :=
    data.target.root == s.blockRootAtSlot data.target.epoch.startSlot
  let payloadMatches : Bool ←
    if s.isAttestationSameSlot data then do
      ensure (data.index.val = 0) (.operation .attestationPayloadStatusInvalid)
      pure true
    else
      pure (data.index.val == (ringGet s.executionPayloadAvailability data.slot.val).toNat)
  let isMatchingHead := isMatchingTarget &&
    data.beaconBlockRoot == s.blockRootAtSlot data.slot && payloadMatches
  let sqrtSlots := integerSquareroot (Word.wrap slotsPerEpoch)
  pure ((if inclusionDelay ≤ sqrtSlots then [timelySourceFlagIndex] else []) ++
    (if isMatchingTarget then [timelyTargetFlagIndex] else []) ++
    (if isMatchingHead && inclusionDelay == minAttestationInclusionDelay then
      [timelyHeadFlagIndex] else []))

/-- Every check on an attestation in a block. -/
def acceptAttestation (attestation : Attestation) : Transition AcceptedAttestation := do
  let data := attestation.data
  let current := s.slot.epoch
  ensure (¬(data.target.epoch ≠ s.getPreviousEpoch ∧ data.target.epoch ≠ current))
    (.operation .attestationTargetEpochInvalid)
  ensure (data.target.epoch = data.slot.epoch) (.operation .attestationTargetEpochInvalid)
  let earliestInclusionSlot ← okOr (data.slot.checkedAdd minAttestationInclusionDelay)
    (.arithmeticOverflow .slot)
  ensure (earliestInclusionSlot ≤ s.slot) (.operation (.attestationSlotInvalid data.slot))
  ensure (data.index.val < 2) (.operation .attestationPayloadStatusInvalid)
  (getCommitteeIndices attestation.committeeBits).forM fun ci =>
    ensure (ci.val < s.getCommitteeCountPerSlot data.target.epoch)
      (.block (.committeeIndexOutOfRange ci))
  let attesting ← s.attestingIndices attestation
  ensure (¬attesting.isEmpty) (.operation .attestationParticipantsEmpty)
  let indexed ← indexedAttestationFromKnownIndices attestation attesting
  s.validateIndexedAttestation indexed .attestation
  let flags ← s.getAttestationParticipationFlagIndices data (s.slot.val - data.slot.val)
  let builderPaymentIndex ← okOr (s.builderPaymentIndexForSlot data.slot)
    (.operation (.attestationSlotInvalid data.slot))
  pure { attestingIndices := attesting
         participationFlags := flags
         targetIsCurrentEpoch := data.target.epoch == current
         isSameSlot := s.isAttestationSameSlot data
         builderPaymentIndex }

/-- The participation list an attestation records in. -/
def participationOf (targetIsCurrentEpoch : Bool) :
    BoundedList ParticipationFlags validatorRegistryLimit :=
  if targetIsCurrentEpoch then s.currentEpochParticipation else s.previousEpochParticipation

def setParticipationOf (targetIsCurrentEpoch : Bool)
    (p : BoundedList ParticipationFlags validatorRegistryLimit) : BeaconState :=
  if targetIsCurrentEpoch then { s with currentEpochParticipation := p }
  else { s with previousEpochParticipation := p }

/-- What the flag loop carries for one attester: the participation list, the proposer-reward
numerator and whether a new flag was set. -/
structure FlagUpdate where
  participation : BoundedList ParticipationFlags validatorRegistryLimit
  numerator : U64
  setNewFlag : Bool

/-- Set the accepted flags of one attester that are not set yet. -/
def recordFlags (accepted : AcceptedAttestation) (vi : ValidatorIndex) (base : Gwei)
    (u : FlagUpdate) : Transition FlagUpdate :=
  participationFlagWeights.zipIdx.foldlM (fun u (weight, flagIndex) =>
    if flagIndex ∈ accepted.participationFlags then do
      let missing : StateTransitionInvariant :=
        if accepted.targetIsCurrentEpoch then .missingCurrentEpochParticipation vi
        else .missingPreviousEpochParticipation vi
      let flags ← okOr (u.participation.get? vi.val) (.invariant missing)
      if ParticipationFlags.hasFlag flags flagIndex then pure u
      else do
        let rewardDelta ← okOr (base.checkedMul weight) (.arithmeticOverflow .weight)
        let numerator ← okOr (u.numerator.checkedAdd rewardDelta.val) (.arithmeticOverflow .weight)
        pure ⟨u.participation.set vi.val (ParticipationFlags.withFlag flags flagIndex), numerator,
          true⟩
    else pure u) u

/-- Record the flags of all attesters; the result carries the proposer-reward numerator. -/
def recordAttestationParticipation (accepted : AcceptedAttestation) :
    Transition (BeaconState × U64) := do
  let payment := s.builderPendingPayments[accepted.builderPaymentIndex]?.getD .default
  let (u, payment) ← accepted.attestingIndices.foldlM
    (fun (acc : FlagUpdate × BuilderPendingPayment) vi => do
      let base ← s.getBaseReward vi
      let u ← recordFlags accepted vi base { acc.1 with setNewFlag := false }
      if accepted.isSameSlot && u.setNewFlag && 0 < acc.2.withdrawal.amount.val then do
        let v ← s.validator vi
        let weight ← okOr (acc.2.weight.checkedAdd v.effectiveBalance.val)
          (.arithmeticOverflow .weight)
        pure (u, { acc.2 with weight })
      else pure (u, acc.2))
    (⟨s.participationOf accepted.targetIsCurrentEpoch, 0, false⟩, payment)
  let s := s.setParticipationOf accepted.targetIsCurrentEpoch u.participation
  pure ({ s with builderPendingPayments :=
    s.builderPendingPayments.setIfInBounds accepted.builderPaymentIndex payment }, u.numerator)

def rewardAttestationProposer (proposerRewardNumerator : U64) : Transition BeaconState := do
  let denominator := (weightDenominator - proposerWeight) * weightDenominator / proposerWeight
  let proposer ← s.getBeaconProposerIndex
  s.increaseBalance proposer (proposerRewardNumerator.div (max denominator 1))

def processAttestation (attestation : Attestation) : Transition BeaconState := do
  let accepted ← s.acceptAttestation attestation
  let (s, numerator) ← s.recordAttestationParticipation accepted
  s.rewardAttestationProposer numerator

/-! ## Slashings -/

/-- Clear the pending payment of the slashed proposer's slot while it is in the window. -/
def clearSlashedPayment (slot : Slot) (proposerIndex : ValidatorIndex) : BeaconState :=
  let clear (i : Nat) : BeaconState :=
    match s.builderPendingPayments[i]? with
    | some p => if p.proposerIndex = proposerIndex then
        { s with builderPendingPayments :=
          s.builderPendingPayments.setIfInBounds i BuilderPendingPayment.default }
      else s
    | none => s
  let offset := slot.val % slotsPerEpoch
  if slot.epoch = s.slot.epoch then clear (slotsPerEpoch + offset)
  else if slot.epoch.val = s.slot.epoch.val - 1 then clear offset
  else s

def processProposerSlashing (slashing : ProposerSlashing) : Transition BeaconState := do
  let h1 := slashing.signedHeader1.message
  let h2 := slashing.signedHeader2.message
  ensure (h1.slot = h2.slot) (.operation .proposerSlashingSlotMismatch)
  ensure (h1.proposerIndex = h2.proposerIndex) (.operation .proposerSlashingProposerMismatch)
  ensure (h1 ≠ h2) (.operation .proposerSlashingHeadersMatch)
  let proposer ← s.validator h1.proposerIndex
  ensure (proposer.isSlashableValidator s.slot.epoch)
    (.operation (.proposerSlashingNotSlashable h1.proposerIndex))
  let sr1 := s.signingRootFor h1.treeRoot domainBeaconProposer h1.slot.epoch
  let sr2 := s.signingRootFor h2.treeRoot domainBeaconProposer h2.slot.epoch
  verifySignature proposer.pubkey sr1 slashing.signedHeader1.signature .proposerSlashingHeaderOne
  verifySignature proposer.pubkey sr2 slashing.signedHeader2.signature .proposerSlashingHeaderTwo
  (s.clearSlashedPayment h1.slot h1.proposerIndex).slashValidator h1.proposerIndex none

def processAttesterSlashing (slashing : AttesterSlashing) : Transition BeaconState := do
  let a1 := slashing.attestation1
  let a2 := slashing.attestation2
  ensure (isSlashableAttestationData a1.data a2.data) (.operation .attesterSlashingNotSlashable)
  s.validateIndexedAttestation a1 .attesterSlashingAttestationOne
  s.validateIndexedAttestation a2 .attesterSlashingAttestationTwo
  let intersection := sortedIntersection a1.attestingIndices.toList a2.attestingIndices.toList
  ensure (¬intersection.isEmpty) (.operation .attesterSlashingNoIntersection)
  let epoch := s.slot.epoch
  let (s, slashedAny) ← intersection.foldlM (fun (acc : BeaconState × Bool) vi => do
    let v ← acc.1.validator vi
    if v.isSlashableValidator epoch then pure (← acc.1.slashValidator vi none, true)
    else pure acc) (s, false)
  ensure slashedAny (.operation .attesterSlashingNotSlashable)
  pure s

/-! ## Exits and credential changes -/

def getPendingBalanceToWithdraw (index : ValidatorIndex) : Transition Gwei :=
  checkedSum (.arithmeticOverflow .balanceSum)
    ((s.pendingPartialWithdrawals.toList.filter fun w => w.validatorIndex = index).map (·.amount))

def processVoluntaryExit (signedExit : SignedVoluntaryExit) : Transition BeaconState := do
  let exit := signedExit.message
  let current := s.slot.epoch
  ensure (exit.epoch ≤ current) (.operation (.exitTooEarly current exit.epoch))
  let domain := computeDomain domainVoluntaryExit capellaForkVersion s.genesisValidatorsRoot
  let signingRoot := computeSigningRoot (Crypto.voluntaryExitRoot exit) domain
  let v ← s.validator exit.validatorIndex
  ensure (v.isActiveValidator current) (.operation (.validatorNotActive exit.validatorIndex))
  ensure (v.exitEpoch = farFutureEpoch)
    (.operation (.validatorAlreadyExiting exit.validatorIndex))
  let eligible := v.activationEpoch.satAdd shardCommitteePeriod
  ensure (eligible ≤ current)
    (.operation (.validatorTooYoung exit.validatorIndex eligible current))
  ensure ((← s.getPendingBalanceToWithdraw exit.validatorIndex) = 0)
    (.operation (.validatorHasPendingWithdrawal exit.validatorIndex))
  verifySignature v.pubkey signingRoot signedExit.signature (.voluntaryExit exit.validatorIndex)
  s.initiateValidatorExit exit.validatorIndex

/-- An execution address as withdrawal credentials: the prefix byte, eleven zeros, the address. -/
def eth1WithdrawalCredentials (address : ExecutionAddress) : Bytes32 :=
  (#v[1] : Bytes 1) ++ (Vector.replicate 11 0 : Bytes 11) ++ address

def processBlsToExecutionChange (signedChange : SignedBLSToExecutionChange) :
    Transition BeaconState := do
  let change := signedChange.message
  let v ← s.validator change.validatorIndex
  let creds := v.withdrawalCredentials
  ensure (getElem creds 0 zero_lt_32 = 0)
    (.operation (.withdrawalCredentialsNotBls change.validatorIndex))
  let pubkeyHash := Crypto.sha256 change.fromBlsPubkey.toList
  ensure (creds.toList.drop 1 = pubkeyHash.toList.drop 1)
    (.operation (.blsChangeCredentialMismatch change.validatorIndex))
  let domain := computeDomain domainBlsToExecutionChange genesisForkVersion
    s.genesisValidatorsRoot
  let signingRoot := computeSigningRoot (Crypto.blsToExecutionChangeRoot change) domain
  verifySignature change.fromBlsPubkey signingRoot signedChange.signature
    (.blsToExecutionChange change.validatorIndex)
  pure { s with validators := s.validators.modify change.validatorIndex.val fun v =>
    { v with withdrawalCredentials := eth1WithdrawalCredentials change.toExecutionAddress } }

/-- All operations of a block body, in consensus order. -/
def processOperations (body : BeaconBlockBody) : Transition BeaconState := do
  ensure body.deposits.isEmpty (.operation .depositsNotAllowed)
  let s ← body.proposerSlashings.toList.foldlM processProposerSlashing s
  let s ← body.attesterSlashings.toList.foldlM processAttesterSlashing s
  let s ← body.attestations.toList.foldlM processAttestation s
  let s ← body.voluntaryExits.toList.foldlM processVoluntaryExit s
  let s ← body.blsToExecutionChanges.toList.foldlM processBlsToExecutionChange s
  body.payloadAttestations.toList.forM s.processPayloadAttestation
  pure s

end BeaconState

end Moonglass
