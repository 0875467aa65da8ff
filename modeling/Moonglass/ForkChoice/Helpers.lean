import Moonglass.ForkChoice.Store

/-
  Time, ancestry and voting sources: what the rest of fork choice reads off the store.
-/

namespace Moonglass

open Lib

variable [Preset]

/-! ## Slots and deadlines -/

def isNextSlot (previous next : Slot) : Bool := previous.checkedAdd 1 == some next

def isAtOrAfterNextSlot (previous current : Slot) : Bool :=
  (previous.checkedAdd 1).any fun next => next ≤ current

def computeSlotsSinceEpochStart (slot : Slot) : Nat := slot.val - slot.epoch.startSlot.val

def secondsToMilliseconds (seconds : U64) : U64 := seconds.satMul 1000

def getSlotComponentDurationMs (bps : Nat) : Nat := bps * slotDurationMs / basisPoints

def getAttestationDueMs : Nat := getSlotComponentDurationMs attestationDueBpsGloas

def getPayloadAttestationDueMs : Nat := getSlotComponentDurationMs payloadAttestationDueBps

/-- A percentage of one committee's share of the stake; the product wraps as a `u64` product. -/
def calculateCommitteeFraction (state : BeaconState) (committeePercent : Nat) :
    Outcome Gwei := do
  let committeeWeight := (← ofTransition state.getTotalActiveBalance).div slotsPerEpoch
  let scaled : Gwei := Word.wrap (committeeWeight.val * committeePercent)
  pure (scaled.div 100)

namespace Store

variable (s : Store)

def slotAtTime (time : U64) : Slot :=
  (secondsToMilliseconds (time.satSub s.genesisTime.val)).div slotDurationMs

def getCurrentSlot : Slot := s.slotAtTime s.time

/-- The start time of a slot in seconds. -/
def slotStartTime (slot : Slot) : U64 :=
  s.genesisTime.satAdd ((slot.satMul slotDurationMs).val / 1000)

def getCurrentStoreEpoch : Epoch := Slot.epoch s.getCurrentSlot

def timeIntoSlotMs : Nat :=
  (secondsToMilliseconds (s.time.satSub s.genesisTime.val)).val % slotDurationMs

def getJustifiedState : Outcome BeaconState :=
  orFail (s.checkpointStates.lookup s.justifiedCheckpoint) .justifiedStateMissing

/-! ## Ancestry -/

/-- The branch a child's bid says its parent `parentBlock` is on. -/
def parentBranch (childBlock parentBlock : BeaconBlock) : PayloadStatus :=
  if childBlock.body.signedExecutionPayloadBid.message.parentBlockHash =
      parentBlock.body.signedExecutionPayloadBid.message.blockHash then .full else .empty

theorem parentBranch_eq_full {b p : BeaconBlock} :
    parentBranch b p = .full ↔ b.bid.parentBlockHash = p.bid.blockHash := by
  unfold parentBranch
  split <;> simp_all

theorem parentBranch_eq_empty {b p : BeaconBlock} :
    parentBranch b p = .empty ↔ b.bid.parentBlockHash ≠ p.bid.blockHash := by
  unfold parentBranch
  split <;> simp_all

def getParentPayloadStatus (childBlock : BeaconBlock) : Outcome PayloadStatus := do
  let parentBlock ← orFail (s.blocks.lookup childBlock.parentRoot)
    (.unknownParent childBlock.parentRoot)
  pure (parentBranch childBlock parentBlock)

theorem getParentPayloadStatus_ok {s : Store} {b p : BeaconBlock}
    (h : s.blocks.lookup b.parentRoot = some p) :
    s.getParentPayloadStatus b = .ok (parentBranch b p) := by
  rw [getParentPayloadStatus, h]; rfl

def isParentNodeFull (block : BeaconBlock) : Outcome Bool := do
  pure ((← s.getParentPayloadStatus block) == .full)

/-- The parent walk. It visits stored blocks only, so with more fuel than blocks it runs out of
fuel only when it comes back to a block, and then the source's loop does not end. -/
def getAncestorLoop (s : Store) (slot : Slot) : Nat → ForkChoiceNode → Outcome ForkChoiceNode
  | 0, _ => .error .diverge
  | fuel + 1, current => do
    let block ← orFail (s.blocks.lookup current.root) (.unknownBlock current.root)
    if block.slot ≤ slot then return current
    let parentStatus ← s.getParentPayloadStatus block
    getAncestorLoop s slot fuel ⟨block.parentRoot, parentStatus⟩

/-- The ancestor of `node` at or before `slot`, with the branch its descendants chose. -/
def getAncestor (node : ForkChoiceNode) (slot : Slot) : Outcome ForkChoiceNode :=
  s.getAncestorLoop slot (s.blocks.keys.card + 1) node

def isAncestor (node ancestor : ForkChoiceNode) : Outcome Bool := do
  let ancestorBlock ← orFail (s.blocks.lookup ancestor.root) (.unknownBlock ancestor.root)
  let nodeAncestor ← s.getAncestor node ancestorBlock.slot
  pure (nodeAncestor.root == ancestor.root &&
    (nodeAncestor.payloadStatus == ancestor.payloadStatus || ancestor.payloadStatus == .pending))

def getCheckpointBlock (root : Root) (epoch : Epoch) : Outcome Root := do
  pure (← s.getAncestor (.pending root) epoch.startSlot).root

/-- The node a vote supports. -/
def getSupportedNode (message : LatestMessage) : Outcome ForkChoiceNode := do
  let block ← orFail (s.blocks.lookup message.root) (.unknownBlock message.root)
  pure ⟨message.root, message.supportedPayloadStatus block.slot⟩

/-- The justified checkpoint a block votes from. -/
def getVotingSource (blockRoot : Root) : Outcome Checkpoint := do
  let block ← orFail (s.blocks.lookup blockRoot) (.unknownBlock blockRoot)
  if block.slot.epoch < s.getCurrentStoreEpoch then
    orFail (s.unrealizedJustifications.lookup blockRoot)
      (.missingUnrealizedJustification blockRoot)
  else do
    let headState ← orFail (s.blockStates.lookup blockRoot) (.unknownBlock blockRoot)
    pure headState.currentJustifiedCheckpoint

/-- The block whose root seeds the duties of `root`'s chain in the current epoch. -/
def getDependentRoot (root : Root) : Outcome Root := do
  let epoch := s.getCurrentStoreEpoch
  if epoch.val ≤ minSeedLookahead then return Root.ZERO
  let dependentEpoch : Epoch := epoch.satSub minSeedLookahead
  let dependentSlot : Slot := dependentEpoch.startSlot.satSub 1
  pure (← s.getAncestor (.pending root) dependentSlot).root

end Store

end Moonglass
