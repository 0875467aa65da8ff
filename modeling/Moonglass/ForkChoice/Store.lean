import Moonglass.StateTransition.Block
import Moonglass.Lib.HashMap

/-
  The fork-choice store: this node's clock, the blocks and states it knows, the votes and payloads
  it has seen. A fork-choice function either returns, fails with an error, or never returns: the
  source's loops over parent links have no bound of their own, so each loop below carries fuel that
  no run over distinct nodes can use up, and running out of it is the outcome `diverge`.
-/

namespace Moonglass

open Lib List

/-- Why a fork-choice function returns no value. -/
inductive Halt where
  | err (e : ForkChoiceError)
  | diverge
  deriving DecidableEq

/-- The outcome of a fork-choice function. -/
abbrev Outcome := Except Halt

/-- A failing outcome. -/
def fail {α : Type} (e : ForkChoiceError) : Outcome α := .error (.err e)

/-- The value of an option, or a failing outcome. -/
def orFail {α : Type} (o : Option α) (e : ForkChoiceError) : Outcome α := okOr o (.err e)

/-- Fail unless `p` holds. -/
def require (p : Prop) [Decidable p] (e : ForkChoiceError) : Outcome Unit := ensure p (.err e)

/-- Run a state-transition function; its error becomes a fork-choice error. -/
def ofTransition {α : Type} (x : Except TransitionError α) : Outcome α :=
  liftErr (fun e => .err (.transition e)) x

@[simp] theorem orFail_eq_ok {α : Type} {o : Option α} {e : ForkChoiceError} {a : α} :
    orFail o e = .ok a ↔ o = some a := okOr_eq_ok

@[simp] theorem orFail_some {α : Type} (a : α) (e : ForkChoiceError) :
    orFail (some a) e = .ok a := rfl

@[simp] theorem orFail_none {α : Type} (e : ForkChoiceError) :
    (orFail none e : Outcome α) = fail e := rfl

@[simp] theorem require_eq_ok {p : Prop} [Decidable p] {e : ForkChoiceError} {u : Unit} :
    require p e = .ok u ↔ p := ensure_eq_ok

theorem require_of {p : Prop} [Decidable p] (h : p) (e : ForkChoiceError) :
    require p e = .ok () := ensure_of h _

theorem require_of_not {p : Prop} [Decidable p] (h : ¬p) (e : ForkChoiceError) :
    require p e = fail e := ensure_of_not h _

@[simp] theorem ofTransition_eq_ok {α : Type} {x : Except TransitionError α} {a : α} :
    ofTransition x = .ok a ↔ x = .ok a := liftErr_eq_ok

/-- The function returns, with a value or with an error. -/
def Returns {α : Type} (x : Outcome α) : Prop := x ≠ .error .diverge

namespace Returns

variable {α β : Type}

theorem ok (a : α) : Returns (.ok a) := nofun

theorem pure (a : α) : Returns (Pure.pure a : Outcome α) := nofun

theorem fail (e : ForkChoiceError) : Returns (Moonglass.fail e : Outcome α) := nofun

theorem orFail (x : Option α) (e : ForkChoiceError) : Returns (Moonglass.orFail x e) := by
  cases x with
  | none => exact fail e
  | some a => exact ok a

theorem ofTransition (x : Except TransitionError α) : Returns (Moonglass.ofTransition x) := by
  cases x <;> nofun

theorem bind {x : Outcome α} {f : α → Outcome β} (hx : Returns x)
    (hf : ∀ a, x = .ok a → Returns (f a)) : Returns (x >>= f) := by
  intro h
  rcases bind_eq_error.1 h with h | ⟨a, ha, h⟩
  · exact hx h
  · exact hf a ha h

theorem ite {c : Prop} [Decidable c] {x y : Outcome α} (hx : Returns x) (hy : Returns y) :
    Returns (if c then x else y) := by
  by_cases h : c
  · rw [if_pos h]; exact hx
  · rw [if_neg h]; exact hy

theorem foldlM {f : β → α → Outcome β} {l : List α} (h : ∀ a ∈ l, ∀ b, Returns (f b a)) (b : β) :
    Returns (l.foldlM f b) := by
  induction l generalizing b with
  | nil => exact pure b
  | cons a l ih =>
    rw [foldlM_cons]
    exact bind (h a mem_cons_self b) fun b' _ =>
      ih (fun a ha => h a (mem_cons_of_mem _ ha)) b'

end Returns

/-! ## Nodes and votes -/

inductive PayloadStatus where
  | empty
  | full
  | pending
  deriving DecidableEq

namespace PayloadStatus

def isPayloadDecision : PayloadStatus → Bool
  | empty => true
  | full => true
  | pending => false

def ordinaryTiebreakerRank : PayloadStatus → Nat
  | empty => 0
  | full => 1
  | pending => 2

end PayloadStatus

/-- A block together with its payload branch. -/
structure ForkChoiceNode where
  root : Root
  payloadStatus : PayloadStatus
  deriving DecidableEq

namespace ForkChoiceNode

abbrev pending (root : Root) : ForkChoiceNode := ⟨root, .pending⟩
abbrev empty (root : Root) : ForkChoiceNode := ⟨root, .empty⟩
abbrev full (root : Root) : ForkChoiceNode := ⟨root, .full⟩

def isPayloadDecision (n : ForkChoiceNode) : Bool := n.payloadStatus.isPayloadDecision

end ForkChoiceNode

/-- The latest vote of one validator. -/
structure LatestMessage where
  slot : Slot
  root : Root
  payloadPresent : Bool
  deriving DecidableEq

/-- The branch a vote supports of a block at `blockSlot`. -/
def LatestMessage.supportedPayloadStatus (m : LatestMessage) (blockSlot : Slot) : PayloadStatus :=
  if blockSlot < m.slot then (if m.payloadPresent then .full else .empty) else .pending

structure BlockTimeliness where
  attestationTimely : Bool
  payloadAttestationTimely : Bool
  deriving DecidableEq

/-- The payload votes about one block, one entry per committee position. -/
abbrev PayloadVoteVector := List (Option Bool)

variable [Preset]

structure Store where
  time : U64
  genesisTime : U64
  justifiedCheckpoint : Checkpoint
  finalizedCheckpoint : Checkpoint
  unrealizedJustifiedCheckpoint : Checkpoint
  unrealizedFinalizedCheckpoint : Checkpoint
  proposerBoostRoot : Root
  equivocatingIndices : Finset ValidatorIndex
  blocks : HashMap Root BeaconBlock
  blockStates : HashMap Root BeaconState
  blockTimeliness : HashMap Root BlockTimeliness
  checkpointStates : HashMap Checkpoint BeaconState
  latestMessages : HashMap ValidatorIndex LatestMessage
  unrealizedJustifications : HashMap Root Checkpoint
  payloads : HashMap Root ExecutionPayloadEnvelope
  queuedPayloadEnvelopes : HashMap Root SignedExecutionPayloadEnvelope
  dataColumnSidecars : HashMap Root (List DataColumnSidecar)
  payloadTimelinessVote : HashMap Root PayloadVoteVector
  payloadDataAvailabilityVote : HashMap Root PayloadVoteVector

/-- The store seeded with one trusted block and its state. -/
def Store.seed [Crypto] (anchorState : BeaconState) (anchorBlock : BeaconBlock) (time : U64) :
    Store :=
  let anchorRoot := anchorBlock.treeRoot
  let justified : Checkpoint := ⟨anchorState.slot.epoch, anchorRoot⟩
  { time
    genesisTime := anchorState.genesisTime
    justifiedCheckpoint := justified
    finalizedCheckpoint := justified
    unrealizedJustifiedCheckpoint := justified
    unrealizedFinalizedCheckpoint := justified
    proposerBoostRoot := Root.ZERO
    equivocatingIndices := ∅
    blocks := Finmap.singleton anchorRoot anchorBlock
    blockStates := Finmap.singleton anchorRoot anchorState
    blockTimeliness := Finmap.singleton anchorRoot ⟨true, true⟩
    checkpointStates := Finmap.singleton justified anchorState
    latestMessages := ∅
    unrealizedJustifications := Finmap.singleton anchorRoot justified
    payloads := ∅
    queuedPayloadEnvelopes := ∅
    dataColumnSidecars := ∅
    payloadTimelinessVote := ∅
    payloadDataAvailabilityVote := ∅ }

/-- A store anchored at a trusted block and state. -/
def getForkchoiceStore [Crypto] (anchorState : BeaconState) (anchorBlock : BeaconBlock) :
    Outcome Store := do
  require (anchorBlock.stateRoot = anchorState.treeRoot)
    (.anchorStateRootMismatch anchorBlock.stateRoot anchorState.treeRoot)
  let time ← orFail ((anchorState.slot.checkedMul slotDurationMs).bind fun product =>
    anchorState.genesisTime.checkedAdd (product.val / 1000)) .anchorTimeOverflow
  pure (Store.seed anchorState anchorBlock time)

/-- The iteration orders of one call: of the store's blocks, and of the filtered block tree. -/
structure Orders where
  blocks : HashMap.IterOrder Root BeaconBlock
  filtered : HashMap.IterOrder Root BeaconBlock

end Moonglass
