import Moonglass.Crypto

/-
  Validator predicates, registry lookups and committees: the active set, the seed, the
  swap-or-not shuffle, beacon committees, and the balance-weighted samples for proposers, sync
  committees and the payload-timeliness committee. The two sampling loops count in a `u64` and
  fail when the counter overflows, so `2 ^ 64` steps of fuel are exactly the steps the source can
  take.
-/

namespace Moonglass

open Lib

variable [Preset] [Crypto]

/-- The result of a state-transition function. -/
abbrev Transition := Except TransitionError

/-! ## Validators -/

namespace Validator

variable (v : Validator)

def isActiveValidator (epoch : Epoch) : Bool :=
  v.activationEpoch ≤ epoch && epoch < v.exitEpoch

def isSlashableValidator (epoch : Epoch) : Bool :=
  !v.slashed && v.activationEpoch ≤ epoch && epoch < v.withdrawableEpoch

def hasEth1WithdrawalCredential : Bool :=
  getElem v.withdrawalCredentials 0 zero_lt_32 == 1

def hasCompoundingWithdrawalCredential : Bool :=
  getElem v.withdrawalCredentials 0 zero_lt_32 == 2

def hasExecutionWithdrawalCredential : Bool :=
  v.hasEth1WithdrawalCredential || v.hasCompoundingWithdrawalCredential

def getMaxEffectiveBalance : Gwei :=
  Word.wrap (if v.hasCompoundingWithdrawalCredential then maxEffectiveBalance
    else minActivationBalance)

def isFullyWithdrawableValidator (balance : Gwei) (epoch : Epoch) : Bool :=
  v.hasExecutionWithdrawalCredential && v.withdrawableEpoch ≤ epoch && 0 < balance.val

def isPartiallyWithdrawableValidator (balance : Gwei) : Bool :=
  v.hasExecutionWithdrawalCredential && v.effectiveBalance == v.getMaxEffectiveBalance &&
    v.getMaxEffectiveBalance < balance

end Validator

namespace BeaconState

variable (s : BeaconState)

def validator (index : ValidatorIndex) : Transition Validator :=
  okOr (s.validators.get? index.val) (.registry (.validatorIndexOutOfRange index))

def builder (index : BuilderIndex) : Transition Builder :=
  okOr (s.builders.get? index.val) (.registry (.builderIndexOutOfRange index))

def validatorIndex (pubkey : BLSPubkey) : Option ValidatorIndex :=
  (s.validators.toList.findIdx? fun v => v.pubkey == pubkey).map Word.wrap

def builderIndex (pubkey : BLSPubkey) : Option BuilderIndex :=
  (s.builders.toList.findIdx? fun b => b.pubkey == pubkey).map Word.wrap

def getCurrentEpoch : Epoch := s.slot.epoch

def getPreviousEpoch : Epoch := s.getCurrentEpoch.satSub 1

/-- Indices of the validators active during `epoch`. -/
def getActiveValidatorIndices (epoch : Epoch) : List ValidatorIndex :=
  s.validators.toList.zipIdx.filterMap fun (v, i) =>
    if v.isActiveValidator epoch then some (Word.wrap i) else none

/-- Indices of the validators active and not slashed during `epoch`. The lookup is of an index
just listed, so it is always in range. -/
def activeUnslashedValidatorIndices (epoch : Epoch) : List ValidatorIndex :=
  (s.getActiveValidatorIndices epoch).filter fun index =>
    match s.validators.get? index.val with
    | some v => !v.slashed
    | none => false

end BeaconState

/-! ## Shuffling -/

instance : NeZero epochsPerHistoricalVector := ⟨by
  rcases pick_cases 65536 64 with h | h <;> unfold epochsPerHistoricalVector <;> omega⟩

instance : NeZero slotsPerHistoricalRoot := ⟨by
  rcases pick_cases 8192 64 with h | h <;> unfold slotsPerHistoricalRoot <;> omega⟩

instance : NeZero epochsPerSlashingsVector := ⟨by
  rcases pick_cases 8192 64 with h | h <;> unfold epochsPerSlashingsVector <;> omega⟩

/-- The round pivot, from the low eight bytes of `hash(seed || round)`. -/
def pivotForRound (seed : Bytes32) (round indexCount : Nat) : Nat :=
  fromLeBytes ((Crypto.sha256 (seed.toList ++ [Word.wrap round])).toList.take 8) % indexCount

/-- The swap-or-not bit of a position, from `hash(seed || round || position / 256)`. -/
def sourceBit (seed : Bytes32) (round position : Nat) : Transition Bool := do
  ensure (position / 256 < 2 ^ 32) (.arithmeticOverflow .boundedListLength)
  let source := Crypto.sha256 (seed.toList ++ [Word.wrap round] ++ toLeBytes 4 (position / 256))
  pure ((source.toList.getD (position % 256 / 8) 0).val.testBit (position % 8))

/-- Where the swap-or-not shuffle sends `index` among `indexCount` indices. -/
def computeShuffledIndexChecked (index indexCount : Nat) (seed : Bytes32) : Transition Nat := do
  ensure (indexCount ≠ 0) (.block .emptyActiveValidatorSet)
  ensure (index < indexCount) (.arithmeticOverflow .boundedListLength)
  (List.range shuffleRoundCount).foldlM (fun current round => do
    ensure (round < 256) (.arithmeticOverflow .boundedListLength)
    let pivot := pivotForRound seed round indexCount
    let flip := if current ≤ pivot then pivot - current else indexCount - (current - pivot)
    let bit ← sourceBit seed round (max current flip)
    pure (if bit then flip else current)) index

/-- The shuffled indices that form committee `index` of `count`. -/
def computeCommittee (indices : List ValidatorIndex) (seed : Bytes32) (index count : Nat) :
    Transition (List ValidatorIndex) := do
  let overflow : TransitionError := .arithmeticOverflow .boundedListLength
  ensure (count ≠ 0) overflow
  ensure (index < count) (.block (.committeeIndexOutOfRange (Word.wrap index)))
  let total := indices.length
  ensure (total * index < 2 ^ 64) overflow
  let start := total * index / count
  ensure (index + 1 < 2 ^ 64) overflow
  ensure (total * (index + 1) < 2 ^ 64) overflow
  let stop := total * (index + 1) / count
  (List.range' start (stop - start)).mapM fun i => do
    let shuffled ← computeShuffledIndexChecked i total seed
    okOr indices[shuffled]? overflow

/-- The positions of the set bits of a committee bitvector. -/
def getCommitteeIndices {n : Nat} (committeeBits : Bitvector n) : List CommitteeIndex :=
  committeeBits.toList.zipIdx.filterMap fun (bit, i) => if bit then some (Word.wrap i) else none

namespace BeaconState

variable (s : BeaconState)

def getRandaoMix (epoch : Epoch) : Bytes32 := ringGet s.randaoMixes epoch.val

/-- Hash the seed inputs: domain type, epoch, mix. -/
def seedFromParts (domainType : DomainType) (epoch : Epoch) (mix : Bytes32) : Bytes32 :=
  Crypto.sha256 (domainType.toList ++ toLeBytes 8 epoch.val ++ mix.toList)

def seedLookback : Nat := epochsPerHistoricalVector - minSeedLookahead - 1

def getSeed (epoch : Epoch) (domainType : DomainType) : Transition Bytes32 := do
  let mixEpoch ← okOr (epoch.checkedAdd seedLookback) (.arithmeticOverflow .epoch)
  pure (seedFromParts domainType epoch (s.getRandaoMix mixEpoch))

/-- The seed with a saturating lookback, used for the proposer lookahead. -/
def seed (epoch : Epoch) (domainType : DomainType) : Bytes32 :=
  seedFromParts domainType epoch (s.getRandaoMix (epoch.satAdd seedLookback))

def getCommitteeCountPerSlot (epoch : Epoch) : Nat :=
  max (min ((s.getActiveValidatorIndices epoch).length / slotsPerEpoch / targetCommitteeSize)
    maxCommitteesPerSlot) 1

/-- The beacon committee at a slot and committee index. -/
def getBeaconCommittee (slot : Slot) (committeeIndex : CommitteeIndex) :
    Transition (List ValidatorIndex) := do
  let overflow : TransitionError := .arithmeticOverflow .boundedListLength
  let epoch := slot.epoch
  let committeesPerSlot := s.getCommitteeCountPerSlot epoch
  ensure (committeeIndex.val < committeesPerSlot)
    (.block (.committeeIndexOutOfRange committeeIndex))
  let indices := s.getActiveValidatorIndices epoch
  let seed ← s.getSeed epoch domainBeaconAttester
  ensure (committeesPerSlot * slotsPerEpoch < 2 ^ 64) overflow
  ensure (slot.val % slotsPerEpoch * committeesPerSlot < 2 ^ 64) overflow
  let index := slot.val % slotsPerEpoch * committeesPerSlot + committeeIndex.val
  ensure (index < 2 ^ 64) overflow
  computeCommittee indices seed index (committeesPerSlot * slotsPerEpoch)

/-! ## Balance-weighted sampling -/

def maxRandomValue : Nat := 2 ^ 16 - 1

/-- Two little-endian bytes of a digest as a number. -/
def randomValueAt (digest : Bytes32) (offset : Nat) : Nat :=
  fromLeBytes ((digest.toList.drop offset).take 2)

/-- Is a candidate of this effective balance accepted for the random value? -/
def weightAccepted (effectiveBalance : Gwei) (randomValue : Nat) : Transition Bool := do
  let weight ← okOr (effectiveBalance.checkedMul maxRandomValue) (.arithmeticOverflow .weight)
  ensure (maxEffectiveBalance * randomValue < 2 ^ 64) (.arithmeticOverflow .weight)
  pure (maxEffectiveBalance * randomValue ≤ weight.val)

/-- The sampling loop of `computeProposerIndex` from counter `i`; the fuel runs out when the
counter overflows. -/
def computeProposerIndexLoop (s : BeaconState) (indices : List ValidatorIndex) (seed : Bytes32) :
    Nat → Nat → Transition ValidatorIndex
  | 0, _ => .error (.arithmeticOverflow .boundedListLength)
  | fuel + 1, i => do
    let total := indices.length
    let candidateIndex ← computeShuffledIndexChecked (i % total) total seed
    let candidate := indices.getD candidateIndex 0
    let randomBytes := Crypto.sha256 (seed.toList ++ toLeBytes 8 (i / 16))
    let v ← s.validator candidate
    if ← weightAccepted v.effectiveBalance (randomValueAt randomBytes (i % 16 * 2)) then
      pure candidate
    else computeProposerIndexLoop s indices seed fuel (i + 1)

/-- An effective-balance-weighted random proposer among `indices`. -/
def computeProposerIndex (indices : List ValidatorIndex) (seed : Bytes32) :
    Transition ValidatorIndex := do
  ensure (¬indices.isEmpty) (.block .emptyActiveValidatorSet)
  s.computeProposerIndexLoop indices seed (2 ^ 64) 0

/-- The loop of `computeBalanceWeightedSelection` from counter `i`. -/
def balanceWeightedSelectionLoop (candidates : List ValidatorIndex) (balances : List Gwei)
    (seed : Bytes32) (size : Nat) (shuffleIndices : Bool) :
    Nat → Nat → Bytes32 → List ValidatorIndex → Transition (List ValidatorIndex)
  | 0, _, _, _ => .error (.arithmeticOverflow .boundedListLength)
  | fuel + 1, i, randomBytes, selected =>
    if selected.length < size then do
      let total := candidates.length
      let offset := i % 16 * 2
      let randomBytes :=
        if offset = 0 then Crypto.sha256 (seed.toList ++ toLeBytes 8 (i / 16)) else randomBytes
      let nextIndex ←
        if shuffleIndices then computeShuffledIndexChecked (i % total) total seed
        else pure (i % total)
      if ← weightAccepted (balances.getD nextIndex 0) (randomValueAt randomBytes offset) then
        balanceWeightedSelectionLoop candidates balances seed size shuffleIndices fuel (i + 1)
          randomBytes (selected ++ [candidates.getD nextIndex 0])
      else
        balanceWeightedSelectionLoop candidates balances seed size shuffleIndices fuel (i + 1)
          randomBytes selected
    else pure selected

/-- `size` candidates, with repetition, weighted by effective balance. -/
def computeBalanceWeightedSelection (candidates : List ValidatorIndex)
    (seed : Bytes32) (size : Nat) (shuffleIndices : Bool) :
    Transition (List ValidatorIndex) := do
  ensure (¬candidates.isEmpty) (.block .emptyActiveValidatorSet)
  let balances ← candidates.mapM fun i => do pure (← s.validator i).effectiveBalance
  balanceWeightedSelectionLoop candidates balances seed size shuffleIndices (2 ^ 64) 0
    (Vector.replicate 32 0) []

/-- The payload-timeliness committee of a slot, sampled from all its beacon committees. -/
def computePtc (slot : Slot) : Transition (List ValidatorIndex) := do
  let epoch := slot.epoch
  let baseSeed ← s.getSeed epoch domainPtcAttester
  let seed := Crypto.sha256 (baseSeed.toList ++ toLeBytes 8 slot.val)
  let committees ← (List.range (s.getCommitteeCountPerSlot epoch)).mapM fun ci =>
    s.getBeaconCommittee slot (Word.wrap ci)
  s.computeBalanceWeightedSelection committees.flatten seed ptcSize false

/-- The payload-timeliness committee of a slot, from the cached window. -/
def getPtc (slot : Slot) : Transition (Vector ValidatorIndex ptcSize) := do
  let epoch := slot.epoch
  let stateEpoch := s.slot.epoch
  let offset ←
    if epoch < stateEpoch then do
      ensure (epoch.val + 1 = stateEpoch.val) (.operation .payloadAttestationSlotMismatch)
      pure (slot.val % slotsPerEpoch)
    else do
      ensure (stateEpoch.val + minSeedLookahead < 2 ^ 64) (.arithmeticOverflow .epoch)
      ensure (epoch.val ≤ stateEpoch.val + minSeedLookahead)
        (.operation .payloadAttestationSlotMismatch)
      pure ((epoch.val - stateEpoch.val + 1) * slotsPerEpoch + slot.val % slotsPerEpoch)
  okOr s.ptcWindow[offset]? (.operation .payloadAttestationSlotMismatch)

/-- The slot of an epoch in which a validator is on the payload-timeliness committee. -/
def getPtcAssignment (epoch : Epoch) (validatorIndex : ValidatorIndex) :
    Transition (Option Slot) := do
  let maxEpoch ← okOr (s.getCurrentEpoch.checkedAdd minSeedLookahead) (.arithmeticOverflow .epoch)
  ensure (epoch ≤ maxEpoch) (.operation .payloadAttestationSlotMismatch)
  let startSlot := epoch.startSlot
  let _ ← okOr (startSlot.checkedAdd slotsPerEpoch) (.arithmeticOverflow .slot)
  -- the slots from the start up to, and without, the end
  foldBreakM (fun _ offset => do
    let slot : Slot := Word.wrap (startSlot.val + offset)
    let committee ← s.getPtc slot
    if committee.toList.any (· == validatorIndex) then pure (.done (some slot))
    else pure (.yield none)) none (List.range slotsPerEpoch)

/-- The proposer of the state's slot, from the lookahead. -/
def getBeaconProposerIndex : Transition ValidatorIndex :=
  okOr s.proposerLookahead[s.slot.val % slotsPerEpoch]?
    (.block (.proposerLookaheadOutOfRange s.slot))

end BeaconState

end Moonglass
