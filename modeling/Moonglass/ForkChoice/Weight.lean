import Moonglass.ForkChoice.Helpers

/-
  Payload verdicts and node weights: the payload-committee votes, the payload-status tie-break,
  attestation scores, the proposer boost and its re-org guard.
-/

namespace Moonglass

open Lib

variable [Preset] [Crypto]

/-- Do more than `threshold` votes say `expected`? -/
def votesClearThreshold (votes : PayloadVoteVector) (expected : Bool) (threshold : Nat) : Bool :=
  threshold < votes.countP (· == some expected)

def addWeight (total weight : Gwei) : Outcome Gwei :=
  orFail (total.checkedAdd weight.val) .weightOverflow

def computeProposerScore (state : BeaconState) : Outcome Gwei :=
  calculateCommitteeFraction state proposerScoreBoost

namespace Store

variable (s : Store)

/-! ## Payload verdicts -/

def isPayloadVerified (root : Root) : Bool := root ∈ s.payloads

def payloadVoteVerdict (root : Root) (votes : PayloadVoteVector) (expected : Bool)
    (threshold : Nat) : Bool :=
  if s.isPayloadVerified root then votesClearThreshold votes expected threshold else !expected

def payloadTimeliness (root : Root) (timely : Bool) : Outcome Bool := do
  let votes ← orFail (s.payloadTimelinessVote.lookup root) (.unknownBlock root)
  pure (s.payloadVoteVerdict root votes timely payloadTimelyThreshold)

def payloadDataAvailability (root : Root) (available : Bool) : Outcome Bool := do
  let votes ← orFail (s.payloadDataAvailabilityVote.lookup root) (.unknownBlock root)
  pure (s.payloadVoteVerdict root votes available dataAvailabilityTimelyThreshold)

/-- Is the node an empty-or-full decision about a block of the previous slot? -/
def isPreviousSlotPayloadDecision (node : ForkChoiceNode) : Outcome Bool := do
  let block ← orFail (s.blocks.lookup node.root) (.unknownBlock node.root)
  pure (isNextSlot block.slot s.getCurrentSlot && node.isPayloadDecision)

/-- Does head selection prefer the full branch of a block of the previous slot? -/
def shouldExtendPayload (root : Root) : Outcome Bool := do
  let block ← orFail (s.blocks.lookup root) (.unknownBlock root)
  if !isNextSlot block.slot s.getCurrentSlot then fail (.notPreviousSlot root)
  else if !s.isPayloadVerified root then pure false
  else do
    let payloadIsTimely ← s.payloadTimeliness root true
    let payloadDataIsAvailable ← s.payloadDataAvailability root true
    if payloadIsTimely && payloadDataIsAvailable then return true
    let proposerRoot := s.proposerBoostRoot
    if proposerRoot = Root.ZERO then return true
    let proposerBlock ← orFail (s.blocks.lookup proposerRoot) (.unknownBlock proposerRoot)
    if proposerBlock.parentRoot ≠ root then return true
    s.isParentNodeFull proposerBlock

def getPayloadStatusTiebreaker (node : ForkChoiceNode) : Outcome Nat := do
  if ← s.isPreviousSlotPayloadDecision node then
    match node.payloadStatus with
    | .empty => pure 1
    | .full => do pure (if ← s.shouldExtendPayload node.root then 2 else 0)
    | .pending => pure 2
  else pure node.payloadStatus.ordinaryTiebreakerRank

/-! ## Attestation score -/

/-- The stake one validator adds to `node`: nothing without a vote, for an equivocator, or when
the vote is not for `node` or a descendant. -/
def addVote (node : ForkChoiceNode) (state : BeaconState) (total : Gwei)
    (validator : ValidatorIndex) : Outcome Gwei :=
  match s.latestMessages.lookup validator with
  | none => pure total
  | some message => do
    if validator ∈ s.equivocatingIndices then return total
    let supportedNode ← s.getSupportedNode message
    if ← s.isAncestor supportedNode node then
      let v ← orFail (state.validators.get? validator.val) (.validatorOutOfBounds validator)
      addWeight total v.effectiveBalance
    else pure total

def getAttestationScore (node : ForkChoiceNode) (state : BeaconState) : Outcome Gwei :=
  (state.activeUnslashedValidatorIndices state.slot.epoch).foldlM (s.addVote node state) 0

/-! ## Proposer boost -/

def getProposerScore : Outcome Gwei := do
  computeProposerScore (← s.getJustifiedState)

def equivocatingCommitteeWeight (state : BeaconState)
    (committee : List ValidatorIndex) : Outcome Gwei :=
  (committee.filter (· ∈ s.equivocatingIndices)).foldlM (fun total index => do
    let v ← orFail (state.validators.get? index.val) (.validatorOutOfBounds index)
    addWeight total v.effectiveBalance) 0

/-- Does the block have less support than the re-org threshold, its slot's equivocators counted
for it? -/
def isHeadWeak (headRoot : Root) : Outcome Bool := do
  let justifiedState ← s.getJustifiedState
  let reorgThreshold ← calculateCommitteeFraction justifiedState reorgHeadWeightThreshold
  let headState ← orFail (s.blockStates.lookup headRoot) (.unknownBlock headRoot)
  let headBlock ← orFail (s.blocks.lookup headRoot) (.unknownBlock headRoot)
  let headWeight ← s.getAttestationScore (.pending headRoot) justifiedState
  let committees := headState.getCommitteeCountPerSlot headBlock.slot.epoch
  let headWeight ← (List.range committees).foldlM (fun headWeight index => do
    let committee ← ofTransition (headState.getBeaconCommittee headBlock.slot (Word.wrap index))
    let weight ← s.equivocatingCommitteeWeight justifiedState committee
    addWeight headWeight weight) headWeight
  pure (headWeight < reorgThreshold)

/-- Look for a timely block of the same proposer as the parent, in the slot before `slot`. -/
def noTimelyEquivocation (s : Store) (parentRoot : Root) (proposerIndex : ValidatorIndex)
    (slot : Slot) : List (Root × BeaconBlock) → Outcome Bool
  | [] => pure true
  | (root, b) :: rest => do
    if root = parentRoot ∨ b.proposerIndex ≠ proposerIndex ∨ !isNextSlot b.slot slot then
      return ← noTimelyEquivocation s parentRoot proposerIndex slot rest
    let timeliness ← orFail (s.blockTimeliness.lookup root) (.missingBlockTimeliness root)
    if timeliness.payloadAttestationTimely then return false
    noTimelyEquivocation s parentRoot proposerIndex slot rest

def shouldApplyProposerBoost (o : Orders) : Outcome Bool := do
  if s.proposerBoostRoot = Root.ZERO then return false
  let block ← orFail (s.blocks.lookup s.proposerBoostRoot) (.unknownBlock s.proposerBoostRoot)
  let parent ← orFail (s.blocks.lookup block.parentRoot) (.unknownParent block.parentRoot)
  if !isNextSlot parent.slot block.slot then return true
  if !(← s.isHeadWeak block.parentRoot) then return true
  s.noTimelyEquivocation block.parentRoot parent.proposerIndex block.slot
    (o.blocks.entries s.blocks)

def getWeight (o : Orders) (node : ForkChoiceNode) : Outcome Gwei := do
  if ← s.isPreviousSlotPayloadDecision node then return 0
  let state ← s.getJustifiedState
  let attestationScore ← s.getAttestationScore node state
  if !(← s.shouldApplyProposerBoost o) then return attestationScore
  let proposerScore ← if ← s.isAncestor (.pending s.proposerBoostRoot) node then
      s.getProposerScore
    else pure 0
  addWeight attestationScore proposerScore

end Store

end Moonglass
