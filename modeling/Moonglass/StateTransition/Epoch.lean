import Moonglass.StateTransition.Withdrawal

/-
  Epoch processing, in the order of `processEpoch`: justification and finalization, inactivity
  scores, rewards and penalties, the validator registry, slashing penalties, the pending queues,
  builder payments, resets, sync committees and the proposer and payload-committee windows.
-/

namespace Moonglass

open Lib

variable [Preset] [Crypto]

def checkedEpochAdd (epoch : Epoch) (delta : Nat) : Transition Epoch :=
  okOr (epoch.checkedAdd delta) (.arithmeticOverflow .epoch)

def checkedStartSlot (epoch : Epoch) : Transition Slot :=
  okOr (epoch.checkedMul slotsPerEpoch) (.arithmeticOverflow .slot)

def checkedSlotOffset (slot : Slot) (offset : Nat) : Transition Slot :=
  okOr (slot.checkedAdd offset) (.arithmeticOverflow .slot)

/-! ## Finality -/

def hasTwoThirdsSupport (target total : Gwei) : Transition Bool := do
  let lhs ← okOr (target.checkedMul 3) (.arithmeticOverflow .weight)
  let rhs ← okOr (total.checkedMul 2) (.arithmeticOverflow .weight)
  pure (rhs ≤ lhs)

/-- The inputs of the four finalization rules. -/
structure FinalityUpdate where
  oldPrevious : Checkpoint
  oldCurrent : Checkpoint
  currentEpoch : Epoch
  bits : Bitvector justificationBitsLength

namespace FinalityUpdate

/-- Are the bits `start, …, stop - 1` all set? -/
def bitsAreSet (f : FinalityUpdate) (start stop : Nat) : Bool :=
  (List.range' start (stop - start)).all fun i => f.bits[i]?.getD false

def checkpointIs (f : FinalityUpdate) (checkpointEpoch : Epoch) (delta : Nat) :
    Transition Bool := do
  let expected ← checkedEpochAdd checkpointEpoch delta
  pure (expected == f.currentEpoch)

/-- One finalization rule: `checkpoint` is `delta` epochs back and the bits up to it are set. -/
def rule (f : FinalityUpdate) (checkpoint : Checkpoint) (start stop delta : Nat)
    (finalized : Option Checkpoint) : Transition (Option Checkpoint) := do
  let holds ← if f.bitsAreSet start stop then f.checkpointIs checkpoint.epoch delta
    else pure false
  pure (if holds then some checkpoint else finalized)

/-- The finalized checkpoint, if a rule applies; the last rule that applies decides. -/
def finalizedCheckpoint (f : FinalityUpdate) : Transition (Option Checkpoint) := do
  let c ← f.rule f.oldPrevious 1 4 3 none
  let c ← f.rule f.oldPrevious 1 3 2 c
  let c ← f.rule f.oldCurrent 0 3 2 c
  f.rule f.oldCurrent 0 2 1 c

end FinalityUpdate

/-- Shift the justification bits by one epoch; the new epoch's bit is clear. -/
def shiftJustificationBits (bits : Bitvector justificationBitsLength) :
    Bitvector justificationBitsLength :=
  Vector.ofFn fun i => if i.val = 0 then false else bits[i.val - 1]?.getD false

namespace BeaconState

variable (s : BeaconState)

/-- The checkpoint of an epoch on this state's own chain. -/
def checkpointAt (epoch : Epoch) : Checkpoint :=
  ⟨epoch, s.blockRootAtSlot epoch.startSlot⟩

/-- Justify one epoch when its target votes have two thirds of the total. -/
def justify (target total : Gwei) (epoch : Epoch) (bit : Nat) : Transition BeaconState := do
  if ← hasTwoThirdsSupport target total then
    pure { s with
      currentJustifiedCheckpoint := s.checkpointAt epoch
      justificationBits := s.justificationBits.setIfInBounds bit true }
  else pure s

def processJustificationAndFinalization : Transition BeaconState := do
  let currentEpoch := s.slot.epoch
  if currentEpoch.val ≤ genesisEpoch.val + 1 then return s
  let previousEpoch := s.getPreviousEpoch
  let total ← s.getTotalActiveBalance
  let previous ← s.getUnslashedParticipatingIndices timelyTargetFlagIndex previousEpoch
  let current ← s.getUnslashedParticipatingIndices timelyTargetFlagIndex currentEpoch
  let previousTarget ← s.getTotalBalance previous
  let currentTarget ← s.getTotalBalance current
  let oldPrevious := s.previousJustifiedCheckpoint
  let oldCurrent := s.currentJustifiedCheckpoint
  let s := { s with
    previousJustifiedCheckpoint := oldCurrent
    justificationBits := shiftJustificationBits s.justificationBits }
  let s ← s.justify previousTarget total previousEpoch 1
  let s ← s.justify currentTarget total currentEpoch 0
  let finality : FinalityUpdate := ⟨oldPrevious, oldCurrent, currentEpoch, s.justificationBits⟩
  match ← finality.finalizedCheckpoint with
  | some finalized => pure { s with finalizedCheckpoint := finalized }
  | none => pure s

/-! ## Accounting -/

def processInactivityUpdates : Transition BeaconState := do
  if s.slot.epoch = genesisEpoch then return s
  let matching ← s.getUnslashedParticipatingIndices timelyTargetFlagIndex s.getPreviousEpoch
  let inLeak ← s.isInInactivityLeak
  let eligible ← s.getEligibleValidatorIndices
  let scores ← eligible.foldlM (fun (scores : BoundedList U64 validatorRegistryLimit) vi => do
    let score ← okOr (scores.get? vi.val) (.invariant (.missingInactivityScore vi))
    let score ← if vi ∈ matching then pure (score.satSub (min 1 score.val))
      else okOr (score.checkedAdd inactivityScoreBias) (.arithmeticOverflow .weight)
    let score := if inLeak then score
      else score.satSub (min inactivityScoreRecoveryRate score.val)
    pure (scores.set vi.val score)) s.inactivityScores
  pure { s with inactivityScores := scores }

def processRewardsAndPenalties : Transition BeaconState := do
  if s.slot.epoch = genesisEpoch then return s
  let flagDeltas ← (List.range participationFlagWeights.length).mapM s.getFlagIndexDeltas
  let inactivity ← s.getInactivityPenaltyDeltas
  let balances ← (flagDeltas ++ [inactivity]).foldlM
    (fun balances (d : BalanceDeltas) => d.applyTo balances) s.balances
  pure { s with balances }

def processSlashings : Transition BeaconState := do
  let total ← s.getTotalActiveBalance
  let sumSlashings ← checkedSum (.arithmeticOverflow .balanceSum) s.slashings.toList
  let scaled ← okOr (sumSlashings.checkedMul proportionalSlashingMultiplier)
    (.arithmeticOverflow .balanceSum)
  let adjusted := min scaled total
  let totalIncrements := total.val / effectiveBalanceIncrement
  let penaltyPerIncrement := adjusted.div totalIncrements
  let slashEpoch ← checkedEpochAdd s.slot.epoch (epochsPerSlashingsVector / 2)
  s.validators.toList.zipIdx.foldlM (fun (s : BeaconState) (v, i) => do
    if v.slashed && slashEpoch == v.withdrawableEpoch then do
      let penalty ← okOr
        (penaltyPerIncrement.checkedMul (v.effectiveBalance.val / effectiveBalanceIncrement))
        (.arithmeticOverflow .balanceSum)
      s.decreaseBalance (Word.wrap i) penalty
    else pure s) s

/-! ## Registry -/

def processRegistryUpdates : Transition BeaconState := do
  let current := s.slot.epoch
  let s := { s with validators := s.validators.map fun v =>
    if v.activationEligibilityEpoch = farFutureEpoch ∧
      minActivationBalance ≤ v.effectiveBalance.val then
      { v with activationEligibilityEpoch := current.satAdd 1 }
    else v }
  let toExit : List ValidatorIndex := s.validators.toList.zipIdx.filterMap fun (v, i) =>
    if v.isActiveValidator current && v.effectiveBalance.val ≤ ejectionBalance then
      some (Word.wrap i)
    else none
  let s ← toExit.foldlM initiateValidatorExit s
  let activationEpoch ← computeActivationExitEpoch current
  let finalizedEpoch := s.finalizedCheckpoint.epoch
  pure { s with validators := s.validators.map fun v =>
    if v.activationEpoch = farFutureEpoch ∧ v.activationEligibilityEpoch ≤ finalizedEpoch then
      { v with activationEpoch }
    else v }

/-- Credit a known validator, or add a new one when the deposit signature is valid. -/
def applyPendingDeposit (deposit : PendingDeposit) : Transition BeaconState :=
  match s.validatorIndex deposit.pubkey with
  | some index => s.increaseBalance index deposit.amount
  | none =>
    if isValidDepositSignature deposit.pubkey deposit.withdrawalCredentials deposit.amount
        deposit.signature then
      s.addValidatorToRegistry deposit.pubkey deposit.withdrawalCredentials deposit.amount
    else pure s

/-- What the deposit loop carries. -/
structure DepositSweep where
  state : BeaconState
  processedAmount : Gwei
  nextDepositIndex : Nat
  postponed : List PendingDeposit
  churnLimitReached : Bool

/-- One turn of the deposit loop. -/
def depositStep (nextEpoch : Epoch) (finalizedSlot : Slot) (available : Gwei) (d : DepositSweep)
    (deposit : PendingDeposit) : Transition (ForInStep DepositSweep) := do
  if finalizedSlot < deposit.slot then return .done d
  if maxPendingDepositsPerEpoch ≤ d.nextDepositIndex then return .done d
  let existing := d.state.validators.toList.find? fun v => v.pubkey = deposit.pubkey
  let isExited : Bool := existing.any fun v => v.exitEpoch < farFutureEpoch
  let isWithdrawn : Bool := existing.any fun v => v.withdrawableEpoch < nextEpoch
  if isWithdrawn then do
    let state ← d.state.applyPendingDeposit deposit
    pure (.yield { d with state, nextDepositIndex := d.nextDepositIndex + 1 })
  else if isExited then
    pure (.yield { d with
      postponed := d.postponed ++ [deposit], nextDepositIndex := d.nextDepositIndex + 1 })
  else do
    let processed ← okOr (d.processedAmount.checkedAdd deposit.amount.val)
      (.arithmeticOverflow .churn)
    if available < processed then return .done { d with churnLimitReached := true }
    let state ← d.state.applyPendingDeposit deposit
    pure (.yield { d with
      state, processedAmount := processed, nextDepositIndex := d.nextDepositIndex + 1 })

def processPendingDeposits : Transition BeaconState := do
  let nextEpoch ← checkedEpochAdd s.slot.epoch 1
  let churnLimit ← s.getActivationChurnLimit
  let available ← okOr (s.depositBalanceToConsume.checkedAdd churnLimit.val)
    (.arithmeticOverflow .churn)
  let finalizedSlot ← checkedStartSlot s.finalizedCheckpoint.epoch
  let queue := s.pendingDeposits.toList
  let d ← foldBreakM (depositStep nextEpoch finalizedSlot available) ⟨s, 0, 0, [], false⟩ queue
  let kept ← okOr (BoundedList.tryFrom (queue.drop d.nextDepositIndex ++ d.postponed))
    (.boundedListFull .pendingDeposits)
  let toConsume ← if d.churnLimitReached then
      okOr (available.checkedSub d.processedAmount.val) (.arithmeticOverflow .churn)
    else pure 0
  pure { d.state with pendingDeposits := kept, depositBalanceToConsume := toConsume }

/-- One turn of the consolidation loop, with the number of consumed entries. -/
def consolidationStep (nextEpoch : Epoch) (acc : BeaconState × Nat)
    (entry : PendingConsolidation) : Transition (ForInStep (BeaconState × Nat)) := do
  let (s, consumed) := acc
  let source ← s.validator entry.sourceIndex
  if source.slashed then return .yield (s, consumed + 1)
  if nextEpoch < source.withdrawableEpoch then return .done (s, consumed)
  let balance ← okOr (s.balances.get? entry.sourceIndex.val)
    (.invariant (.missingBalance entry.sourceIndex))
  let moved := min balance source.effectiveBalance
  let s ← s.decreaseBalance entry.sourceIndex moved
  let s ← s.increaseBalance entry.targetIndex moved
  pure (.yield (s, consumed + 1))

def processPendingConsolidations : Transition BeaconState := do
  let nextEpoch ← checkedEpochAdd s.slot.epoch 1
  let queue := s.pendingConsolidations
  let (s, consumed) ← foldBreakM (consolidationStep nextEpoch) (s, 0) queue.toList
  pure { s with pendingConsolidations := queue.drop consumed }

/-- Follow the balances with the effective balances, with hysteresis. -/
def processEffectiveBalanceUpdates : Transition BeaconState := do
  let increment := effectiveBalanceIncrement / max hysteresisQuotient 1
  let downward := increment * hysteresisDownwardMultiplier
  let upward := increment * hysteresisUpwardMultiplier
  let validators ← (List.range s.validators.length).foldlM
    (fun (vs : BoundedList Validator validatorRegistryLimit) i => do
      let balance ← okOr (s.balances.get? i) (.invariant (.missingBalance (Word.wrap i)))
      let v ← okOr (vs.get? i) (.registry (.validatorIndexOutOfRange (Word.wrap i)))
      let low ← okOr (balance.checkedAdd downward) (.arithmeticOverflow .balanceSum)
      let high ← okOr (v.effectiveBalance.checkedAdd upward) (.arithmeticOverflow .balanceSum)
      if low < v.effectiveBalance ∨ high < balance then
        let rounded := balance.val - balance.val % effectiveBalanceIncrement
        pure (vs.set i { v with
          effectiveBalance := Word.wrap (min rounded v.getMaxEffectiveBalance.val) })
      else pure vs) s.validators
  pure { s with validators }

/-! ## Builder payments -/

/-- Pay the payments of the older epoch that reached the quorum, and move the window on. -/
def processBuilderPendingPayments : Transition BeaconState := do
  let settled ← (s.builderPendingPayments.toList.take slotsPerEpoch).foldlM
    settleBuilderPaymentIfQuorum s
  pure { settled with
    builderPendingPayments :=
      shiftWindow settled.builderPendingPayments slotsPerEpoch fun _ => .default }

/-! ## Resets -/

def processEth1DataReset : BeaconState :=
  if (s.slot.epoch.val + 1) % epochsPerEth1VotingPeriod = 0 then
    { s with eth1DataVotes := .empty }
  else s

def processSlashingsReset : BeaconState :=
  { s with slashings := ringSet s.slashings (s.slot.epoch.val + 1) 0 }

def processRandaoMixesReset : BeaconState :=
  { s with
    randaoMixes :=
      ringSet s.randaoMixes (s.slot.epoch.val + 1) (ringGet s.randaoMixes s.slot.epoch.val) }

def processHistoricalSummariesUpdate : Transition BeaconState := do
  if (s.slot.epoch.val + 1) % (slotsPerHistoricalRoot / slotsPerEpoch) ≠ 0 then return s
  let summaries ← okOr
    (s.historicalSummaries.push ⟨Crypto.rootsRoot s.blockRoots, Crypto.rootsRoot s.stateRoots⟩)
    (.boundedListFull .historicalSummaries)
  pure { s with historicalSummaries := summaries }

def processParticipationFlagUpdates : Transition BeaconState := do
  let fresh ← okOr (BoundedList.tryFrom (List.replicate s.validators.length 0))
    (.boundedListFull .currentEpochParticipation)
  pure { s with
    previousEpochParticipation := s.currentEpochParticipation
    currentEpochParticipation := fresh }

/-! ## Committees -/

def getNextSyncCommitteeIndices : Transition (List ValidatorIndex) := do
  let epoch ← checkedEpochAdd s.slot.epoch 1
  let seed ← s.getSeed epoch domainSyncCommittee
  s.computeBalanceWeightedSelection (s.getActiveValidatorIndices epoch) seed syncCommitteeSize true

def getNextSyncCommittee : Transition SyncCommittee := do
  let indices ← s.getNextSyncCommitteeIndices
  let pubkeys ← indices.mapM fun i => do pure (← s.validator i).pubkey
  let aggregatePubkey ← aggregatePubkeys pubkeys
  pure ⟨Vector.ofFn fun i => pubkeys[i.val]?.getD (Vector.replicate 48 0), aggregatePubkey⟩

def processSyncCommitteeUpdates : Transition BeaconState := do
  let nextEpoch ← checkedEpochAdd s.slot.epoch 1
  if nextEpoch.val % epochsPerSyncCommitteePeriod = 0 then do
    let next ← s.getNextSyncCommittee
    pure { s with currentSyncCommittee := s.nextSyncCommittee, nextSyncCommittee := next }
  else pure s

def processProposerLookahead : Transition BeaconState := do
  let next ← checkedEpochAdd s.slot.epoch (1 + minSeedLookahead)
  let indices := s.activeUnslashedValidatorIndices next
  let seed := s.seed next domainBeaconProposer
  ensure (¬indices.isEmpty) (.block .emptyActiveValidatorSet)
  let nextStartSlot ← checkedStartSlot next
  let proposers ← (List.range slotsPerEpoch).mapM fun offset => do
    let slot ← checkedSlotOffset nextStartSlot offset
    let slotSeed := Crypto.sha256 (seed.toList ++ toLeBytes 8 slot.val)
    s.computeProposerIndex indices slotSeed
  pure { s with
    proposerLookahead :=
      shiftWindow s.proposerLookahead slotsPerEpoch fun i => proposers[i]?.getD 0 }

def processPtcWindow : Transition BeaconState := do
  let nextEpoch ← checkedEpochAdd s.slot.epoch (minSeedLookahead + 1)
  let startSlot ← checkedStartSlot nextEpoch
  let samples ← (List.range slotsPerEpoch).mapM fun offset => do
    s.computePtc (← checkedSlotOffset startSlot offset)
  pure { s with
    ptcWindow := shiftWindow s.ptcWindow slotsPerEpoch fun k =>
      Vector.ofFn fun i => ((samples[k]?.getD [])[i.val]?).getD 0 }

def processEpoch : Transition BeaconState := do
  let s ← s.processJustificationAndFinalization
  let s ← s.processInactivityUpdates
  let s ← s.processRewardsAndPenalties
  let s ← s.processRegistryUpdates
  let s ← s.processSlashings
  let s := s.processEth1DataReset
  let s ← s.processPendingDeposits
  let s ← s.processPendingConsolidations
  let s ← s.processBuilderPendingPayments
  let s ← s.processEffectiveBalanceUpdates
  let s := s.processSlashingsReset
  let s := s.processRandaoMixesReset
  let s ← s.processHistoricalSummariesUpdate
  let s ← s.processParticipationFlagUpdates
  let s ← s.processSyncCommitteeUpdates
  let s ← s.processProposerLookahead
  s.processPtcWindow

end BeaconState

end Moonglass
