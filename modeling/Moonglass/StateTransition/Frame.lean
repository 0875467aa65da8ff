import Moonglass.StateTransition.Block

/-
  What block and epoch processing leave alone. Slots, headers, block roots, checkpoints and
  justification bits are written by a handful of functions only, and so is participation;
  `Frame` says that a step wrote none of them. `Untouched` says that it also left the payload and
  the builders alone, which most steps do.
-/

namespace Moonglass

open Lib

variable [Preset]

/-- The part of a state that records its chain: position, past blocks and finality. -/
structure ChainView where
  slot : Slot
  latestBlockHeader : BeaconBlockHeader
  blockRoots : Vector Root slotsPerHistoricalRoot
  previousJustifiedCheckpoint : Checkpoint
  currentJustifiedCheckpoint : Checkpoint
  finalizedCheckpoint : Checkpoint
  justificationBits : Bitvector justificationBitsLength

/-- The part of a state that follows the execution chain: the latest payload and bid, the
withdrawals that the next payload owes, and the builders with what they owe. -/
structure PayloadView where
  latestBlockHash : Hash32
  latestExecutionPayloadBid : ExecutionPayloadBid
  payloadExpectedWithdrawals : BoundedList Withdrawal maxWithdrawalsPerPayload
  nextWithdrawalIndex : WithdrawalIndex
  builders : BoundedList Builder builderRegistryLimit
  builderPendingPayments : Vector BuilderPendingPayment builderPaymentWindowLen
  builderPendingWithdrawals :
    BoundedList BuilderPendingWithdrawal builderPendingWithdrawalsLimit

namespace BeaconState

def chainView (s : BeaconState) : ChainView :=
  ⟨s.slot, s.latestBlockHeader, s.blockRoots, s.previousJustifiedCheckpoint,
    s.currentJustifiedCheckpoint, s.finalizedCheckpoint, s.justificationBits⟩

def payloadView (s : BeaconState) : PayloadView :=
  ⟨s.latestBlockHash, s.latestExecutionPayloadBid, s.payloadExpectedWithdrawals,
    s.nextWithdrawalIndex, s.builders, s.builderPendingPayments, s.builderPendingWithdrawals⟩

/-- `s'` differs from `s` neither in its chain nor in its participation. -/
structure Frame (s s' : BeaconState) : Prop where
  chain : s'.chainView = s.chainView
  previous : s'.previousEpochParticipation = s.previousEpochParticipation
  current : s'.currentEpochParticipation = s.currentEpochParticipation

/-- `s'` has the chain, the participation, the payload and the builders of `s`. -/
structure Untouched (s s' : BeaconState) : Prop where
  chain : s'.chainView = s.chainView
  previous : s'.previousEpochParticipation = s.previousEpochParticipation
  current : s'.currentEpochParticipation = s.currentEpochParticipation
  payload : s'.payloadView = s.payloadView

variable {s s' s'' : BeaconState}

theorem Untouched.trans (h : Untouched s s') (h' : Untouched s' s'') : Untouched s s'' :=
  ⟨h'.chain.trans h.chain, h'.previous.trans h.previous, h'.current.trans h.current,
    h'.payload.trans h.payload⟩

theorem Untouched.frame (h : Untouched s s') : Frame s s' := ⟨h.chain, h.previous, h.current⟩

end BeaconState

end Moonglass
