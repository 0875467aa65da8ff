import Moonglass.ForkChoice.PayloadEnvelope

/-
  Runs of the store: any sequence of handler calls, accepted or rejected, from the store that
  `getForkchoiceStore` builds. The iteration order of the hash maps may differ from call to call.
  Block roots are hashes, so a run is only meaningful when no two blocks of it collide; that is
  the hypothesis `NoCollision`, stated about the blocks of the run and not about the hash.
-/

namespace Moonglass

open Lib

variable [Preset] [Crypto]

/-- One call of a store handler. -/
inductive Call where
  | tick (time : U64)
  | block (o : Orders) (b : SignedBeaconBlock)
  | blockWithEmbeddedMessages (o : Orders) (b : SignedBeaconBlock)
  | attestation (a : Attestation) (isFromBlock : Bool)
  | attesterSlashing (a : AttesterSlashing)
  | payloadAttestationMessage (m : PayloadAttestationMessage) (isFromBlock : Bool)
  | executionPayloadEnvelope (e : SignedExecutionPayloadEnvelope)
      (verifier : ExecutionPayloadVerifier)
  | dataColumnSidecar (c : DataColumnSidecar) (verifier : ExecutionPayloadVerifier)

namespace Store

/-- Commit the store a handler returns; a failed handler leaves the store as it was. -/
def commit (s : Store) : Outcome Store → Outcome Unit × Store
  | .ok s' => (.ok (), s')
  | .error e => (.error e, s)

/-- The outcome of a call and the store after it. -/
def call (s : Store) : Call → Outcome Unit × Store
  | .tick time => s.commit (s.onTick time)
  | .block o b => s.commit (s.onBlock o b)
  | .blockWithEmbeddedMessages o b => s.commit (s.onBlockWithEmbeddedMessages o b)
  | .attestation a isFromBlock => s.commit (s.onAttestation a isFromBlock)
  | .attesterSlashing a => s.commit (s.onAttesterSlashing a)
  | .payloadAttestationMessage m isFromBlock =>
    s.commit (s.onPayloadAttestationMessageInner m isFromBlock)
  | .executionPayloadEnvelope e verifier =>
    s.commit (s.onExecutionPayloadEnvelopeWithVerifier e verifier)
  | .dataColumnSidecar c verifier => s.recordDataColumnSidecarWithVerifier c verifier

/-- The store after a sequence of calls. -/
def run (s : Store) (calls : List Call) : Store := calls.foldl (fun s c => (s.call c).2) s

@[simp] theorem run_cons (s : Store) (c : Call) (calls : List Call) :
    s.run (c :: calls) = (s.call c).2.run calls := rfl

theorem run_append (s : Store) (calls calls' : List Call) :
    s.run (calls ++ calls') = (s.run calls).run calls' := by
  simp [run, List.foldl_append]

end Store

/-- The block a call hands in. -/
def Call.importedBlock : Call → Option BeaconBlock
  | .block _ b => some b.message
  | .blockWithEmbeddedMessages _ b => some b.message
  | _ => none

/-- The blocks of a run: the anchor and every block handed in. -/
def runBlocks (anchor : BeaconBlock) (calls : List Call) : List BeaconBlock :=
  anchor :: calls.filterMap Call.importedBlock

/-- A block of the run that links back to the anchor by parent roots. -/
inductive DescendsFrom (anchor : BeaconBlock) (blocks : List BeaconBlock) : BeaconBlock → Prop where
  | anchor : DescendsFrom anchor blocks anchor
  | child {p b : BeaconBlock} (hp : DescendsFrom anchor blocks p) (hb : b ∈ blocks)
      (hparent : b.parentRoot = p.treeRoot) : DescendsFrom anchor blocks b

/-- The roots that the anchor and its state hold: the parent of the anchor, the justified root of
the state and the block roots it has filed. -/
def NamedByAnchor (state : BeaconState) (anchor : BeaconBlock) (r : Root) : Prop :=
  r = anchor.parentRoot ∨ r = state.currentJustifiedCheckpoint.root ∨
    ∃ i, r = ringGet state.blockRoots i

/-- Hash assumptions about the blocks of a run from `anchor` and its `state`. -/
structure NoCollision (state : BeaconState) (anchor : BeaconBlock) (blocks : List BeaconBlock) :
    Prop where
  /-- Two blocks with one root are one block. -/
  block_eq : ∀ b ∈ blocks, ∀ b' ∈ blocks, b.treeRoot = b'.treeRoot → b = b'
  /-- A header with the root of the anchor is the anchor's header. -/
  header_slot : ∀ r : Root, (state.latestBlockHeader.withStateRoot r).treeRoot = anchor.treeRoot →
    state.latestBlockHeader.slot = anchor.slot
  /-- Hashes do not close a cycle: a root that went into the anchor's root is not the root of a
  block whose own root is built on the anchor's. -/
  acyclic : ∀ b, DescendsFrom anchor blocks b → ¬NamedByAnchor state anchor b.treeRoot
  /-- No state that a block of the run commits to hashes to the unset root. -/
  state_root_ne : ∀ b ∈ blocks, ∀ s : BeaconState, b.stateRoot = s.treeRoot → s.treeRoot ≠ Root.ZERO

/-- What the post-state of a block has in common with it, as far as fork choice relies on it: the
slot and the header, and no justified epoch after its own. -/
structure IsPostState (state : BeaconState) (block : BeaconBlock) : Prop where
  slot : state.slot = block.slot
  header : state.latestBlockHeader = block.header block.body.treeRoot Root.ZERO
  justified : state.currentJustifiedCheckpoint.epoch ≤ state.slot.epoch

/-- The call does not import a block without its messages. -/
def Call.ImportsMessages : Call → Prop
  | .block _ _ => False
  | _ => True

/-! ## The follower -/

/-- A decoded gossip message; the last two kinds are only logged. -/
inductive GossipMessage where
  | beaconBlock (b : SignedBeaconBlock)
  | aggregateAndProof (aggregate : Attestation)
  | executionPayload (e : SignedExecutionPayloadEnvelope)
  | payloadAttestation (m : PayloadAttestationMessage)
  | dataColumnSidecar (c : DataColumnSidecar)
  | executionPayloadBid
  | proposerPreferences

inductive GossipOutcome where
  | applied
  | loggedOnly
  deriving DecidableEq

/-- Hand a gossip message to its handler, if it has one. -/
def GossipMessage.dispatch (s : Store) (o : Orders) :
    GossipMessage → Option (Outcome Unit × Store)
  | .beaconBlock b => some (s.commit (s.onBlockWithEmbeddedMessages o b))
  | .aggregateAndProof aggregate => some (s.commit (s.onAttestation aggregate false))
  | .executionPayload e => some (s.commit (s.onExecutionPayloadEnvelope e))
  | .payloadAttestation m => some (s.commit (s.onPayloadAttestationMessageInner m false))
  | .dataColumnSidecar c => some (s.recordDataColumnSidecar c)
  | .executionPayloadBid => none
  | .proposerPreferences => none

/-- Feed a decoded gossip message to the store. -/
def handleGossip (s : Store) (o : Orders) (m : GossipMessage) : Outcome GossipOutcome × Store :=
  match m.dispatch s o with
  | some (result, s') => (result.map fun _ => .applied, s')
  | none => (.ok .loggedOnly, s)

end Moonglass
