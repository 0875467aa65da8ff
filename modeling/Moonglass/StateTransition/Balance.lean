import Moonglass.StateTransition.Committee

/-
  Balances, churn and exits: single-balance updates, total balances, base rewards, participation
  and inactivity deltas, the exit churn budget, validator exit and the slashing mutation.
-/

namespace Moonglass

open Lib

variable [Preset]

/-- Checked sum of a list of amounts. -/
def checkedSum (e : TransitionError) (amounts : List Gwei) : Transition Gwei :=
  amounts.foldlM (fun total a => okOr (total.checkedAdd a.val) e) 0

/-! ## Integer square root -/

/-- The Newton iteration of `integerSquareroot`; `x` decreases, so `n` steps suffice. -/
def integerSquarerootLoop (n : Nat) : Nat → Nat → Nat → Nat
  | 0, x, _ => x
  | fuel + 1, x, y =>
    if y < x then integerSquarerootLoop n fuel y ((y + n / y) / 2) else x

/-- The integer square root of a `u64`. -/
def integerSquareroot (n : U64) : Nat :=
  if n = Word.max then 2 ^ 32 - 1
  else integerSquarerootLoop n.val n.val n.val ((n.val + 1) / 2)

/-! ## Deltas -/

/-- Rewards and penalties, one entry per validator. -/
structure BalanceDeltas where
  rewards : List Gwei
  penalties : List Gwei

namespace BalanceDeltas

def zeroed (validatorCount : Nat) : BalanceDeltas :=
  ⟨List.replicate validatorCount 0, List.replicate validatorCount 0⟩

/-- Add to the entry of one validator. -/
def addDelta (deltas : List Gwei) (index : ValidatorIndex) (delta : Gwei) :
    Transition (List Gwei) := do
  let current ← okOr deltas[index.val]? (.invariant (.missingBalance index))
  let next ← okOr (current.checkedAdd delta.val) .balanceOverflow
  pure (deltas.set index.val next)

def addReward (d : BalanceDeltas) (index : ValidatorIndex) (delta : Gwei) :
    Transition BalanceDeltas := do
  pure { d with rewards := ← addDelta d.rewards index delta }

def addPenalty (d : BalanceDeltas) (index : ValidatorIndex) (delta : Gwei) :
    Transition BalanceDeltas := do
  pure { d with penalties := ← addDelta d.penalties index delta }

/-- Apply all rewards, then all penalties. -/
def applyTo (d : BalanceDeltas) (balances : BoundedList Gwei validatorRegistryLimit) :
    Transition (BoundedList Gwei validatorRegistryLimit) := do
  let rewarded ← d.rewards.zipIdx.foldlM (fun (b : BoundedList Gwei _) (reward, i) => do
    let current ← okOr (b.get? i) (.invariant (.missingBalance (Word.wrap i)))
    let next ← okOr (current.checkedAdd reward.val) .balanceOverflow
    pure (b.set i next)) balances
  d.penalties.zipIdx.foldlM (fun (b : BoundedList Gwei _) (penalty, i) => do
    let current ← okOr (b.get? i) (.invariant (.missingBalance (Word.wrap i)))
    pure (b.set i (current.satSub penalty.val))) rewarded

end BalanceDeltas

namespace BeaconState

variable (s : BeaconState)

/-! ## Single balances -/

/-- Update one balance; the validator and its balance must exist. -/
def updateBalance (index : ValidatorIndex) (f : Gwei → Transition Gwei) :
    Transition BeaconState := do
  let _ ← s.validator index
  let current ← okOr (s.balances.get? index.val) (.invariant (.missingBalance index))
  let next ← f current
  pure { s with balances := s.balances.set index.val next }

def increaseBalance (index : ValidatorIndex) (delta : Gwei) : Transition BeaconState :=
  s.updateBalance index fun b => okOr (b.checkedAdd delta.val) .balanceOverflow

def decreaseBalance (index : ValidatorIndex) (delta : Gwei) : Transition BeaconState :=
  s.updateBalance index fun b => pure (b.satSub delta.val)

/-! ## Totals and base rewards -/

/-- The sum of the effective balances of `indices`, at least one increment. -/
def getTotalBalance (indices : List ValidatorIndex) : Transition Gwei := do
  let total ← indices.foldlM (fun (total : Gwei) index => do
    let v ← s.validator index
    okOr (total.checkedAdd v.effectiveBalance.val) (.arithmeticOverflow .balanceSum)) 0
  pure (max total (Word.wrap effectiveBalanceIncrement))

def getTotalActiveBalance : Transition Gwei :=
  s.getTotalBalance (s.getActiveValidatorIndices s.getCurrentEpoch)

def getBaseRewardPerIncrement : Transition Nat := do
  let total ← s.getTotalActiveBalance
  ensure (effectiveBalanceIncrement * baseRewardFactor < 2 ^ 64) (.arithmeticOverflow .weight)
  pure (effectiveBalanceIncrement * baseRewardFactor / integerSquareroot total)

def getBaseReward (index : ValidatorIndex) : Transition Gwei := do
  let v ← s.validator index
  let increments := v.effectiveBalance.div effectiveBalanceIncrement
  let perIncrement ← s.getBaseRewardPerIncrement
  okOr (increments.checkedMul perIncrement) (.arithmeticOverflow .weight)

def getFinalityDelay : Transition U64 :=
  okOr (s.getPreviousEpoch.checkedSub s.finalizedCheckpoint.epoch.val)
    (.arithmeticOverflow .epoch)

def isInInactivityLeak : Transition Bool := do
  let delay ← s.getFinalityDelay
  pure (minEpochsToInactivityPenalty < delay.val)

def getEligibleValidatorIndices : Transition (List ValidatorIndex) := do
  let previous := s.getPreviousEpoch
  let next ← okOr (previous.checkedAdd 1) (.arithmeticOverflow .epoch)
  pure (s.validators.toList.zipIdx.filterMap fun (v, i) =>
    if v.isActiveValidator previous || (v.slashed && next < v.withdrawableEpoch) then
      some (Word.wrap i)
    else none)

/-! ## Participation -/

def participationFlagWeight (flagIndex : Nat) : Transition Nat :=
  okOr participationFlagWeights[flagIndex]? (.primitive (.flagIndexOutOfRange flagIndex))

/-- The participation list of the current or the previous epoch, with the error for a validator
that has no entry in it. -/
def participationAt (epoch : Epoch) :
    Transition (BoundedList ParticipationFlags validatorRegistryLimit ×
      (ValidatorIndex → StateTransitionInvariant)) :=
  if epoch = s.getCurrentEpoch then
    pure (s.currentEpochParticipation, .missingCurrentEpochParticipation)
  else if epoch = s.getPreviousEpoch then
    pure (s.previousEpochParticipation, .missingPreviousEpochParticipation)
  else .error (.operation .attestationTargetEpochInvalid)

/-- The unslashed validators, active in `epoch`, that have the flag set for it. -/
def getUnslashedParticipatingIndices (flagIndex : Nat) (epoch : Epoch) :
    Transition (List ValidatorIndex) := do
  let _ ← participationFlagWeight flagIndex
  let (participation, missing) ← s.participationAt epoch
  s.validators.toList.zipIdx.foldlM (fun out (v, i) =>
    if v.isActiveValidator epoch then do
      let index : ValidatorIndex := Word.wrap i
      let flags ← okOr (participation.get? i) (.invariant (missing index))
      pure (if ParticipationFlags.hasFlag flags flagIndex && !v.slashed then out ++ [index]
        else out)
    else pure out) []

/-- The rewards and penalties of one participation flag for the previous epoch. -/
def getFlagIndexDeltas (flagIndex : Nat) : Transition BalanceDeltas := do
  let overflow : TransitionError := .arithmeticOverflow .weight
  let participating ← s.getUnslashedParticipatingIndices flagIndex s.getPreviousEpoch
  let weight ← participationFlagWeight flagIndex
  let participatingIncrements := (← s.getTotalBalance participating).val / effectiveBalanceIncrement
  let activeIncrements := (← s.getTotalActiveBalance).div effectiveBalanceIncrement
  let inLeak ← s.isInInactivityLeak
  let eligible ← s.getEligibleValidatorIndices
  eligible.foldlM (fun (d : BalanceDeltas) index => do
    let base ← s.getBaseReward index
    if index ∈ participating then
      if inLeak then pure d
      else do
        let weighted ← okOr (base.checkedMul weight) overflow
        let numerator ← okOr (weighted.checkedMul participatingIncrements) overflow
        let denominator ← okOr (activeIncrements.checkedMul weightDenominator) overflow
        d.addReward index (numerator.div denominator.val)
    else if flagIndex ≠ timelyHeadFlagIndex then do
      let weighted ← okOr (base.checkedMul weight) overflow
      d.addPenalty index (weighted.div weightDenominator)
    else pure d) (BalanceDeltas.zeroed s.validators.length)

/-- The inactivity-leak penalties. -/
def getInactivityPenaltyDeltas : Transition BalanceDeltas := do
  let overflow : TransitionError := .arithmeticOverflow .weight
  let matching ← s.getUnslashedParticipatingIndices timelyTargetFlagIndex s.getPreviousEpoch
  let denominator := inactivityScoreBias * inactivityPenaltyQuotient
  let eligible ← s.getEligibleValidatorIndices
  eligible.foldlM (fun (d : BalanceDeltas) index =>
    if index ∈ matching then pure d
    else do
      let v ← s.validator index
      let score ← okOr (s.inactivityScores.get? index.val)
        (.invariant (.missingInactivityScore index))
      let numerator ← okOr (v.effectiveBalance.checkedMul score.val) overflow
      d.addPenalty index (numerator.div denominator)) (BalanceDeltas.zeroed s.validators.length)

/-! ## Churn and exits -/

def computeActivationExitEpoch (epoch : Epoch) : Transition Epoch :=
  okOr ((epoch.checkedAdd 1).bind fun e => e.checkedAdd maxSeedLookahead)
    (.arithmeticOverflow .epoch)

def getBalanceChurnLimit : Transition Gwei := do
  let total ← s.getTotalActiveBalance
  let churn := max minPerEpochChurnLimit (total.val / churnLimitQuotient)
  pure (Word.wrap (churn - churn % effectiveBalanceIncrement))

def getActivationChurnLimit : Transition Gwei := do
  pure (min (Word.wrap maxPerEpochActivationChurnLimit) (← s.getBalanceChurnLimit))

def getExitChurnLimit : Transition Gwei := s.getBalanceChurnLimit

def getConsolidationChurnLimit : Transition Gwei := do
  let total ← s.getTotalActiveBalance
  let raw := total.val / consolidationChurnLimitQuotient
  pure (Word.wrap (raw - raw % effectiveBalanceIncrement))

/-- Take `requestedBalance` out of the churn budget: the epoch it fits in and what remains. -/
def consumeChurnBudget (currentEpoch cursorEpoch : Epoch)
    (cursorBalance requestedBalance perEpochChurn : Gwei) : Transition (Epoch × Gwei) := do
  let overflow : TransitionError := .arithmeticOverflow .churn
  let earliest := max cursorEpoch (← computeActivationExitEpoch currentEpoch)
  let available := if cursorEpoch < earliest then perEpochChurn else cursorBalance
  let (epoch, available) ←
    if available < requestedBalance then do
      ensure (perEpochChurn.val ≠ 0) overflow
      let balanceToProcess ← okOr (requestedBalance.checkedSub available.val) overflow
      let additionalEpochs := (balanceToProcess.val - 1) / perEpochChurn.val + 1
      let epoch ← okOr (earliest.checkedAdd additionalEpochs) overflow
      ensure (additionalEpochs * perEpochChurn.val < 2 ^ 64) overflow
      let available ← okOr (available.checkedAdd (additionalEpochs * perEpochChurn.val)) overflow
      pure (epoch, available)
    else pure (earliest, available)
  let remaining ← okOr (available.checkedSub requestedBalance.val) overflow
  pure (epoch, remaining)

def computeExitEpochAndUpdateChurn (exitBalance : Gwei) : Transition (BeaconState × Epoch) := do
  let perEpochChurn ← s.getExitChurnLimit
  let (exitEpoch, remaining) ← consumeChurnBudget s.slot.epoch s.earliestExitEpoch
    s.exitBalanceToConsume exitBalance perEpochChurn
  pure ({ s with exitBalanceToConsume := remaining, earliestExitEpoch := exitEpoch }, exitEpoch)

def computeConsolidationEpochAndUpdateChurn (consolidationBalance : Gwei) :
    Transition (BeaconState × Epoch) := do
  let perEpochChurn ← s.getConsolidationChurnLimit
  let (epoch, remaining) ← consumeChurnBudget s.slot.epoch s.earliestConsolidationEpoch
    s.consolidationBalanceToConsume consolidationBalance perEpochChurn
  pure ({ s with consolidationBalanceToConsume := remaining, earliestConsolidationEpoch := epoch },
    epoch)

/-- Schedule a validator's exit, unless one is scheduled already. -/
def initiateValidatorExit (index : ValidatorIndex) : Transition BeaconState := do
  let v ← s.validator index
  if v.exitEpoch ≠ farFutureEpoch then pure s
  else do
    let (s, exitEpoch) ← s.computeExitEpochAndUpdateChurn v.effectiveBalance
    let withdrawable ← okOr (exitEpoch.checkedAdd minValidatorWithdrawabilityDelay)
      (.operation (.withdrawableEpochOverflow index))
    pure { s with validators := s.validators.modify index.val fun v =>
      { v with exitEpoch := exitEpoch, withdrawableEpoch := withdrawable } }

/-- Slash a validator: exit it, mark it, book the penalty and pay the whistleblower. -/
def slashValidator (slashedIndex : ValidatorIndex)
    (whistleblowerIndex : Option ValidatorIndex) : Transition BeaconState := do
  let currentEpoch := s.getCurrentEpoch
  let effectiveBalance := (← s.validator slashedIndex).effectiveBalance
  let extended ← okOr (currentEpoch.checkedAdd epochsPerSlashingsVector)
    (.arithmeticOverflow .epoch)
  let updatedBucket ← okOr ((ringGet s.slashings currentEpoch.val).checkedAdd effectiveBalance.val)
    (.arithmeticOverflow .balanceSum)
  let s ← s.initiateValidatorExit slashedIndex
  let s := { s with validators := s.validators.modify slashedIndex.val fun v =>
    { v with slashed := true, withdrawableEpoch := max v.withdrawableEpoch extended } }
  let s := { s with slashings := ringSet s.slashings currentEpoch.val updatedBucket }
  let s ← s.decreaseBalance slashedIndex (effectiveBalance.div minSlashingPenaltyQuotient)
  let proposerIndex ← s.getBeaconProposerIndex
  let whistleblower := whistleblowerIndex.getD proposerIndex
  let whistleblowerReward := effectiveBalance.val / whistleblowerRewardQuotient
  let proposerReward := whistleblowerReward * proposerWeight / weightDenominator
  let s ← s.increaseBalance proposerIndex (Word.wrap proposerReward)
  s.increaseBalance whistleblower (Word.wrap (whistleblowerReward - proposerReward))

end BeaconState

end Moonglass
