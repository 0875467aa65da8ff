import Moonglass.StateTransition.Requests

/-
  Withdrawals: builder payouts, pending partial withdrawals, the builder sweep and the validator
  sweep, collected in this order and applied to the balances.
-/

namespace Moonglass

open Lib

variable [Preset]

/-! ## Builder indices as flagged validator indices -/

def BuilderIndex.toValidatorIndex (index : BuilderIndex) : Transition ValidatorIndex := do
  ensure (index ≠ builderIndexSelfBuild) (.primitive .sentinelBuilderIndex)
  ensure (index.val < builderIndexFlag) (.primitive .builderIndexOutOfRange)
  pure (Word.wrap (index.val ||| builderIndexFlag))

def ValidatorIndex.isBuilderIndex (index : ValidatorIndex) : Bool :=
  index.val &&& builderIndexFlag != 0

/-- Clear the builder flag; an index with higher bits set is out of range. -/
def ValidatorIndex.toBuilderIndex (index : ValidatorIndex) : Transition BuilderIndex := do
  ensure (ValidatorIndex.isBuilderIndex index) (.primitive .notBuilderIndex)
  let value : BuilderIndex := Word.wrap (index.val ^^^ builderIndexFlag)
  ensure (value.val < builderIndexFlag) (.primitive .builderIndexOutOfRange)
  pure value

/-! ## Collecting withdrawals -/

/-- What a withdrawal loop carries: the withdrawals so far, the next withdrawal index and the
number of entries it has looked at. -/
structure WithdrawalSweep where
  withdrawals : List Withdrawal
  withdrawalIndex : WithdrawalIndex
  processedCount : U64

namespace WithdrawalSweep

def start (index : WithdrawalIndex) : WithdrawalSweep := ⟨[], index, 0⟩

def push (w : WithdrawalSweep) (validatorIndex : ValidatorIndex) (address : ExecutionAddress)
    (amount : Gwei) : Transition WithdrawalSweep := do
  let next ← okOr (w.withdrawalIndex.checkedAdd 1) (.arithmeticOverflow .withdrawalIndex)
  pure { w with
    withdrawals := w.withdrawals ++ [⟨w.withdrawalIndex, validatorIndex, address, amount⟩]
    withdrawalIndex := next }

def countOne (w : WithdrawalSweep) : Transition WithdrawalSweep := do
  let count ← okOr (w.processedCount.checkedAdd 1) (.arithmeticOverflow .boundedListLength)
  pure { w with processedCount := count }

end WithdrawalSweep

structure ExpectedWithdrawals where
  withdrawals : List Withdrawal
  processedBuilderWithdrawalsCount : U64
  processedPartialWithdrawalsCount : U64
  processedBuildersSweepCount : U64
  processedSweepWithdrawalsCount : U64

namespace BeaconState

variable (s : BeaconState)

def getBalanceAfterWithdrawals (index : ValidatorIndex)
    (withdrawals : List Withdrawal) : Transition Gwei := do
  let starting ← okOr (s.balances.get? index.val) (.invariant (.missingBalance index))
  let withdrawn ← checkedSum (.arithmeticOverflow .balanceSum)
    ((withdrawals.filter fun w => w.validatorIndex = index).map (·.amount))
  pure (starting.satSub withdrawn.val)

def isEligibleForPartialWithdrawals (v : Validator) (balance : Gwei) : Bool :=
  v.exitEpoch == farFutureEpoch && minActivationBalance ≤ v.effectiveBalance.val &&
    minActivationBalance < balance.val

def getBuilderWithdrawals (withdrawalIndex : WithdrawalIndex)
    (prior : List Withdrawal) : Transition WithdrawalSweep := do
  let limit := maxWithdrawalsPerPayload - 1
  ensure (prior.length ≤ limit) (.boundedListFull .payloadExpectedWithdrawals)
  foldBreakM (fun (w : WithdrawalSweep) (entry : BuilderPendingWithdrawal) => do
    if limit ≤ prior.length + w.withdrawals.length then return .done w
    let index ← BuilderIndex.toValidatorIndex entry.builderIndex
    let w ← w.push index entry.feeRecipient entry.amount
    pure (.yield (← w.countOne)))
    (.start withdrawalIndex) s.builderPendingWithdrawals.toList

def getPendingPartialWithdrawals (withdrawalIndex : WithdrawalIndex)
    (prior : List Withdrawal) : Transition WithdrawalSweep := do
  let limit := min (prior.length + maxPendingPartialsPerWithdrawalsSweep)
    (maxWithdrawalsPerPayload - 1)
  ensure (prior.length ≤ limit) (.boundedListFull .payloadExpectedWithdrawals)
  foldBreakM (fun (w : WithdrawalSweep) (entry : PendingPartialWithdrawal) => do
    if s.slot.epoch < entry.withdrawableEpoch ∨ limit ≤ prior.length + w.withdrawals.length then
      return .done w
    let v ← s.validator entry.validatorIndex
    let balance ← s.getBalanceAfterWithdrawals entry.validatorIndex (prior ++ w.withdrawals)
    let w ← if isEligibleForPartialWithdrawals v balance then
        w.push entry.validatorIndex (withdrawalAddressFromCredentials v.withdrawalCredentials)
          (Word.wrap (min entry.amount.val (balance.val - minActivationBalance)))
      else pure w
    pure (.yield (← w.countOne)))
    (.start withdrawalIndex) s.pendingPartialWithdrawals.toList

/-- Look at builders from the cursor on, around the end of the registry. -/
def getBuildersSweepWithdrawals (withdrawalIndex : WithdrawalIndex)
    (prior : List Withdrawal) : Transition WithdrawalSweep := do
  let builderLen := s.builders.length
  if builderLen = 0 then return .start withdrawalIndex
  let nextIndex := s.nextWithdrawalBuilderIndex
  ensure (nextIndex.val < builderLen) (.registry (.builderIndexOutOfRange nextIndex))
  let limit := maxWithdrawalsPerPayload - 1
  ensure (prior.length ≤ limit) (.boundedListFull .payloadExpectedWithdrawals)
  foldBreakM (fun (w : WithdrawalSweep) i => do
    if limit ≤ prior.length + w.withdrawals.length then return .done w
    let cursor : BuilderIndex := Word.wrap ((nextIndex.val + i) % builderLen)
    let b ← s.builder cursor
    let w ← if b.withdrawableEpoch ≤ s.slot.epoch ∧ 0 < b.balance.val then do
        w.push (← BuilderIndex.toValidatorIndex cursor) b.executionAddress b.balance
      else pure w
    pure (.yield (← w.countOne)))
    (.start withdrawalIndex) (List.range (min maxBuildersPerWithdrawalsSweep builderLen))

/-- Look at validators from the cursor on, around the end of the registry. -/
def getValidatorsSweepWithdrawals (withdrawalIndex : WithdrawalIndex)
    (prior : List Withdrawal) : Transition WithdrawalSweep := do
  let registryLen := s.validators.length
  if registryLen = 0 then return .start withdrawalIndex
  ensure (prior.length < maxWithdrawalsPerPayload) (.boundedListFull .payloadExpectedWithdrawals)
  let nextIndex := s.nextWithdrawalValidatorIndex
  ensure (nextIndex.val < registryLen) (.registry (.validatorIndexOutOfRange nextIndex))
  foldBreakM (fun (w : WithdrawalSweep) i => do
    if maxWithdrawalsPerPayload ≤ prior.length + w.withdrawals.length then return .done w
    let cursor : ValidatorIndex := Word.wrap ((nextIndex.val + i) % registryLen)
    let v ← s.validator cursor
    let balance ← s.getBalanceAfterWithdrawals cursor (prior ++ w.withdrawals)
    let address := withdrawalAddressFromCredentials v.withdrawalCredentials
    let w ← if v.isFullyWithdrawableValidator balance s.slot.epoch then
        w.push cursor address balance
      else if v.isPartiallyWithdrawableValidator balance then
        w.push cursor address (balance.satSub v.getMaxEffectiveBalance.val)
      else pure w
    pure (.yield (← w.countOne)))
    (.start withdrawalIndex) (List.range (min maxValidatorsPerWithdrawalsSweep registryLen))

def getExpectedWithdrawals : Transition ExpectedWithdrawals := do
  let payouts ← s.getBuilderWithdrawals s.nextWithdrawalIndex []
  let ws := payouts.withdrawals
  let partials ← s.getPendingPartialWithdrawals payouts.withdrawalIndex ws
  let ws := ws ++ partials.withdrawals
  let builders ← s.getBuildersSweepWithdrawals partials.withdrawalIndex ws
  let ws := ws ++ builders.withdrawals
  let validators ← s.getValidatorsSweepWithdrawals builders.withdrawalIndex ws
  pure ⟨ws ++ validators.withdrawals, payouts.processedCount, partials.processedCount,
    builders.processedCount, validators.processedCount⟩

/-! ## Applying withdrawals -/

def applyWithdrawals (withdrawals : List Withdrawal) : Transition BeaconState :=
  withdrawals.foldlM (fun (s : BeaconState) w => do
    if ValidatorIndex.isBuilderIndex w.validatorIndex then do
      let index ← ValidatorIndex.toBuilderIndex w.validatorIndex
      let b ← s.builder index
      pure { s with builders :=
        s.builders.set index.val { b with balance := b.balance.satSub w.amount.val } }
    else s.decreaseBalance w.validatorIndex w.amount) s

def updateNextWithdrawalIndex (withdrawals : List Withdrawal) : Transition BeaconState :=
  match withdrawals.getLast? with
  | some latest => do
    let next ← okOr (latest.index.checkedAdd 1) (.arithmeticOverflow .withdrawalIndex)
    pure { s with nextWithdrawalIndex := next }
  | none => pure s

def updatePayloadExpectedWithdrawals (withdrawals : List Withdrawal) : Transition BeaconState := do
  let expected ← okOr (BoundedList.tryFrom withdrawals)
    (.boundedListFull .payloadExpectedWithdrawals)
  pure { s with payloadExpectedWithdrawals := expected }

def updateNextWithdrawalBuilderIndex (processedCount : U64) : Transition BeaconState := do
  if s.builders.length = 0 then return s
  let next ← okOr (s.nextWithdrawalBuilderIndex.checkedAdd processedCount.val)
    (.arithmeticOverflow .boundedListLength)
  pure { s with nextWithdrawalBuilderIndex := Word.wrap (next.val % s.builders.length) }

def updateNextWithdrawalValidatorIndex (withdrawals : List Withdrawal) :
    Transition BeaconState := do
  if s.validators.length = 0 then return s
  if withdrawals.length = maxWithdrawalsPerPayload then
    match withdrawals.getLast? with
    | some latest => do
      let next ← okOr (latest.validatorIndex.checkedAdd 1) (.arithmeticOverflow .boundedListLength)
      pure { s with nextWithdrawalValidatorIndex := Word.wrap (next.val % s.validators.length) }
    | none => pure s
  else do
    let next ← okOr (s.nextWithdrawalValidatorIndex.checkedAdd maxValidatorsPerWithdrawalsSweep)
      (.arithmeticOverflow .boundedListLength)
    pure { s with nextWithdrawalValidatorIndex := Word.wrap (next.val % s.validators.length) }

def processWithdrawals : Transition BeaconState := do
  if s.latestBlockHash ≠ s.latestExecutionPayloadBid.blockHash then return s
  let expected ← s.getExpectedWithdrawals
  let s ← s.applyWithdrawals expected.withdrawals
  let s ← s.updateNextWithdrawalIndex expected.withdrawals
  let s ← s.updatePayloadExpectedWithdrawals expected.withdrawals
  -- the two queues lose the entries that were paid or looked at
  let s := { s with
    builderPendingWithdrawals :=
      s.builderPendingWithdrawals.drop expected.processedBuilderWithdrawalsCount.val
    pendingPartialWithdrawals :=
      s.pendingPartialWithdrawals.drop expected.processedPartialWithdrawalsCount.val }
  let s ← s.updateNextWithdrawalBuilderIndex expected.processedBuildersSweepCount
  s.updateNextWithdrawalValidatorIndex expected.withdrawals

end BeaconState

end Moonglass
