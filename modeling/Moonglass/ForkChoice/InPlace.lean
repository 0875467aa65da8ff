import Moonglass.Lib.InPlace
import Moonglass.ForkChoice.Delivery

/-
  The store handlers as they write: each works on a mutable store, makes its writes in the order of
  the source and leaves them there when it fails later. Handlers that clone the store and commit the
  clone run `onCopy`; the others are atomic only if they fail before their first write. Every handler
  computes the function of the same name, so that a run of calls in place is a run of `Store.call`.
-/

namespace Moonglass

open Lib
open Lib.InPlace (inspect check write within onCopy)

variable [Preset] [Crypto]

/-- A computation on a mutable store. -/
abbrev Mutation := InPlace Store Halt

namespace Mutation

/-! ## Checkpoints and time -/

def storeTargetCheckpointState (target : Checkpoint) : Mutation Unit := do
  let cached ← inspect fun s => .ok (decide (target ∈ s.checkpointStates))
  if cached then pure ()
  else
    let state ← inspect (Store.targetCheckpointState · target)
    write fun s => { s with checkpointStates := s.checkpointStates.insert target state }

def computePulledUpTip (blockRoot : Root) : Mutation Unit := do
  let state ← inspect fun s => orFail (s.blockStates.lookup blockRoot) (.unknownBlock blockRoot)
  let pulledUp ← check (ofTransition state.processJustificationAndFinalization)
  let block ← inspect fun s => orFail (s.blocks.lookup blockRoot) (.unknownBlock blockRoot)
  let currentEpoch ← inspect fun s => .ok s.getCurrentStoreEpoch
  let justified := pulledUp.currentJustifiedCheckpoint
  let finalized := pulledUp.finalizedCheckpoint
  write fun s => { s with
    unrealizedJustifications := s.unrealizedJustifications.insert blockRoot justified }
  write (Store.updateUnrealizedCheckpoints · justified finalized)
  if block.slot.epoch < currentEpoch then write (Store.updateCheckpoints · justified finalized)
  else pure ()

def onTickLoop (tickSlot : Slot) : Nat → Mutation Unit
  | 0 => do
    let behind ← inspect fun s => .ok (decide (s.getCurrentSlot < tickSlot))
    if behind then throw .diverge else pure ()
  | fuel + 1 => do
    let behind ← inspect fun s => .ok (decide (s.getCurrentSlot < tickSlot))
    if behind then
      write fun s => s.onTickPerSlot (s.slotStartTime (s.getCurrentSlot.satAdd 1))
      onTickLoop tickSlot fuel
    else pure ()

def onTick (time : U64) : Mutation Unit := do
  inspect fun s => require (s.time ≤ time) (.tickWentBackwards s.time time)
  let tickSlot ← inspect fun s => .ok (s.slotAtTime time)
  let currentSlot ← inspect fun s => .ok s.getCurrentSlot
  onTickLoop tickSlot (tickSlot.val - currentSlot.val)
  write (Store.onTickPerSlot · time)

/-! ## Payload attestations -/

/-- Write the vote into one cell after the other. -/
def writeVotePositions (positions : List Nat) (value : Bool) :
    InPlace PayloadVoteVector Halt Unit :=
  positions.forM fun index => do
    inspect fun votes => require (index < votes.length) (.payloadVoteIndexOutOfBounds index)
    write fun votes => votes.set index (some value)

def recordPayloadVotePositions (blockRoot : Root) (positions : List Nat)
    (payloadPresent blobDataAvailable : Bool) : Mutation Unit := do
  -- both vectors are resolved before either is written
  let timeliness ← inspect fun s => orFail (s.payloadTimelinessVote.lookup blockRoot)
    (.payloadAttestationForUnknownBlock blockRoot)
  let availability ← inspect fun s => orFail (s.payloadDataAvailabilityVote.lookup blockRoot)
    (.payloadAttestationForUnknownBlock blockRoot)
  within timeliness (fun votes s =>
    { s with payloadTimelinessVote := s.payloadTimelinessVote.insert blockRoot votes })
    (writeVotePositions positions payloadPresent)
  within availability (fun votes s =>
    { s with payloadDataAvailabilityVote := s.payloadDataAvailabilityVote.insert blockRoot votes })
    (writeVotePositions positions blobDataAvailable)
  pure ()

def onPayloadAttestationMessageInner (msg : PayloadAttestationMessage) (isFromBlock : Bool) :
    Mutation Unit := do
  let data := msg.data
  let state ← inspect fun s => orFail (s.blockStates.lookup data.beaconBlockRoot)
    (.payloadAttestationForUnknownBlock data.beaconBlockRoot)
  if data.slot ≠ state.slot then pure ()
  else
    let positions ← check (Store.ptcPositionsForValidator state data.slot msg.validatorIndex)
    let record := recordPayloadVotePositions data.beaconBlockRoot positions data.payloadPresent
      data.blobDataAvailable
    if !isFromBlock then
      inspect fun s => require (data.slot = s.getCurrentSlot) .payloadAttestationWrongSlot
      let indexed ← check (Store.buildSingleIndexed msg)
      check (ofTransition (state.isValidIndexedPayloadAttestation indexed))
      record
    else record

def notifyPtcMessages (state : BeaconState) (payloadAttestations : List PayloadAttestation) :
    Mutation Unit :=
  if state.slot.val = 0 then pure ()
  else payloadAttestations.forM fun attestation => do
    let indexed ← check (ofTransition (state.getIndexedPayloadAttestation attestation))
    indexed.attestingIndices.toList.forM fun validatorIndex =>
      onPayloadAttestationMessageInner
        ⟨validatorIndex, attestation.data, BLSSignature.default⟩ true

/-! ## Blocks -/

def recordBlockTimeliness (root : Root) : Mutation Unit := do
  let block ← inspect fun s => orFail (s.blocks.lookup root) (.unknownBlock root)
  let timeIntoSlot ← inspect fun s => .ok s.timeIntoSlotMs
  let isCurrentSlot ← inspect fun s => .ok (s.getCurrentSlot == block.slot)
  let timeliness : BlockTimeliness :=
    ⟨isCurrentSlot && timeIntoSlot < getAttestationDueMs,
      isCurrentSlot && timeIntoSlot < getPayloadAttestationDueMs⟩
  write fun s => { s with blockTimeliness := s.blockTimeliness.insert root timeliness }

def updateProposerBoostRoot (head root : Root) : Mutation Unit := do
  let isFirstBlock ← inspect fun s => .ok (s.proposerBoostRoot == Root.ZERO)
  let timeliness ← inspect fun s => orFail (s.blockTimeliness.lookup root) (.unknownBlock root)
  let dependentRoot ← inspect (Store.getDependentRoot · root)
  let headDependentRoot ← inspect (Store.getDependentRoot · head)
  if timeliness.attestationTimely && isFirstBlock && dependentRoot == headDependentRoot then
    write fun s => { s with proposerBoostRoot := root }
  else pure ()

def onBlockInner (o : Orders) (signedBlock : SignedBeaconBlock) : Mutation Unit := do
  let block := signedBlock.message
  let parentState ← inspect fun s => orFail (s.blockStates.lookup block.parentRoot)
    (.unknownParent block.parentRoot)
  inspect (Store.checkBlock · block)
  let state ← check (ofTransition (parentState.stateTransition signedBlock))
  let preImportHead ← inspect (Store.getHead · o)
  write (Store.insertBlock · block.treeRoot block state)
  notifyPtcMessages state block.body.payloadAttestations.toList
  recordBlockTimeliness block.treeRoot
  updateProposerBoostRoot preImportHead.root block.treeRoot
  write (Store.updateCheckpoints · state.currentJustifiedCheckpoint state.finalizedCheckpoint)
  computePulledUpTip block.treeRoot

/-! ## Attestations and slashings -/

def onAttestationInner (attestation : Attestation) (isFromBlock : Bool) : Mutation Unit := do
  let target := attestation.data.target
  inspect (Store.validateOnAttestation · attestation isFromBlock)
  storeTargetCheckpointState target
  let targetState ← inspect fun s =>
    orFail (s.checkpointStates.lookup target) (.unknownBlock target.root)
  let attesters ← check (Store.checkedAttesters targetState attestation)
  write (Store.updateLatestMessages · attesters attestation)

def onAttesterSlashing (slashing : AttesterSlashing) : Mutation Unit := do
  let a1 := slashing.attestation1
  let a2 := slashing.attestation2
  check (require (isSlashableAttestationData a1.data a2.data) .invalidAttesterSlashing)
  let state ← inspect fun s =>
    orFail (s.blockStates.lookup s.justifiedCheckpoint.root) .justifiedStateMissing
  check (Store.checkSlashingAttestation state a1 .attesterSlashingAttestationOne)
  check (Store.checkSlashingAttestation state a2 .attesterSlashingAttestationTwo)
  write fun s => { s with
    equivocatingIndices := s.equivocatingIndices ∪
      (a1.attestingIndices.toList.toFinset ∩ a2.attestingIndices.toList.toFinset) }

def onBlockWithEmbeddedMessages (o : Orders) (signedBlock : SignedBeaconBlock) : Mutation Unit :=
  onCopy do
    onBlockInner o signedBlock
    signedBlock.message.body.attestations.toList.forM (onAttestationInner · true)
    signedBlock.message.body.attesterSlashings.toList.forM onAttesterSlashing

/-! ## Payload delivery -/

def onExecutionPayloadEnvelopeWithVerifier (signedEnvelope : SignedExecutionPayloadEnvelope)
    (verifier : ExecutionPayloadVerifier) : Mutation Unit := do
  let root := signedEnvelope.message.beaconBlockRoot
  inspect fun s => require (root ∈ s.blockStates) (.payloadEnvelopeForUnknownBlock root)
  inspect (Store.verifyExecutionPayloadEnvelopeConsensus · signedEnvelope)
  let available ← inspect (Store.isDataAvailable · root)
  if available then
    check (Store.verifyExecutionPayloadEnvelopeExecution signedEnvelope verifier)
    write (Store.recordVerifiedExecutionPayloadEnvelope · signedEnvelope)
  else
    write fun s => { s with
      queuedPayloadEnvelopes := s.queuedPayloadEnvelopes.insert root signedEnvelope }

def processQueuedPayloadEnvelope (beaconBlockRoot : Root) (verifier : ExecutionPayloadVerifier) :
    Mutation Unit := do
  let queued ← inspect fun s => .ok (s.queuedPayloadEnvelopes.lookup beaconBlockRoot)
  match queued with
  | none => pure ()
  | some signedEnvelope =>
    let available ← inspect fun s => .ok (s.isDataAvailableWithSetup beaconBlockRoot)
    if !available then pure ()
    else
      inspect (Store.verifyExecutionPayloadEnvelopeConsensus · signedEnvelope)
      check (Store.verifyExecutionPayloadEnvelopeExecution signedEnvelope verifier)
      write (Store.recordVerifiedExecutionPayloadEnvelope · signedEnvelope)

/-- The sidecar is written before the queued envelope is tried. -/
def recordDataColumnSidecarWithSetupAndVerifier (sidecar : DataColumnSidecar)
    (verifier : ExecutionPayloadVerifier) : Mutation Unit := do
  let root := sidecar.beaconBlockRoot
  let block ← inspect fun s => orFail (s.blocks.lookup root) (.unknownBlock root)
  check (require (sidecar.slot = block.slot)
    (.dataColumnSidecarSlotMismatch sidecar.slot block.slot))
  check (validateDataColumnSidecar sidecar block.blobKzgCommitments)
  write (Store.insertSidecar · sidecar)
  processQueuedPayloadEnvelope root verifier

def recordDataColumnSidecarWithVerifier (sidecar : DataColumnSidecar)
    (verifier : ExecutionPayloadVerifier) : Mutation Unit := do
  check defaultKzgSetup
  recordDataColumnSidecarWithSetupAndVerifier sidecar verifier

/-- The handler of a call. -/
def call : Call → Mutation Unit
  | .tick time => onTick time
  | .block o b => onCopy (onBlockInner o b)
  | .blockWithEmbeddedMessages o b => onBlockWithEmbeddedMessages o b
  | .attestation a isFromBlock => onCopy (onAttestationInner a isFromBlock)
  | .attesterSlashing a => onAttesterSlashing a
  | .payloadAttestationMessage m isFromBlock =>
    onCopy (onPayloadAttestationMessageInner m isFromBlock)
  | .executionPayloadEnvelope e verifier => onExecutionPayloadEnvelopeWithVerifier e verifier
  | .dataColumnSidecar c verifier => recordDataColumnSidecarWithVerifier c verifier

/-! ## What the handlers compute -/

section

variable {s : Store}

open InPlace (Computes Atomic)

theorem storeTargetCheckpointState_computes (target : Checkpoint) (s : Store) :
    Computes (storeTargetCheckpointState target) s (s.storeTargetCheckpointState target) := by
  refine .get ?_
  unfold Store.storeTargetCheckpointState
  by_cases h : target ∈ s.checkpointStates
  · rw [if_pos h, if_pos (decide_eq_true h)]
    exact .pure s
  · rw [if_neg h, if_neg (by simpa using h)]
    exact .inspect fun _ _ => .write _

omit [Crypto] in
theorem computePulledUpTip_computes (blockRoot : Root) (s : Store) :
    Computes (computePulledUpTip blockRoot) s (s.computePulledUpTip blockRoot) := by
  refine .inspect fun state _ => .check fun pulledUp _ => .inspect fun block _ => .get ?_
  refine .write_bind (.write_bind ?_)
  -- the writes do not move the clock, so the epoch read before them is the epoch after them
  show Computes _ _ (pure (if block.slot.epoch < s.getCurrentStoreEpoch then _ else _))
  by_cases h : block.slot.epoch < s.getCurrentStoreEpoch
  · rw [if_pos h, if_pos h]
    exact .write _
  · rw [if_neg h, if_neg h]
    exact .pure _

omit [Crypto] in
theorem onTickLoop_computes (tickSlot : Slot) (fuel : Nat) (s : Store) :
    Computes (onTickLoop tickSlot fuel) s (Store.onTickLoop tickSlot fuel s) := by
  induction fuel generalizing s with
  | zero =>
    refine .get ?_
    rw [Store.onTickLoop]
    by_cases h : s.getCurrentSlot < tickSlot
    · rw [if_pos h, if_pos (decide_eq_true h)]
      exact .throw _
    · rw [if_neg h, if_neg (by simpa using h)]
      exact .pure s
  | succ fuel ih =>
    refine .get ?_
    rw [Store.onTickLoop]
    by_cases h : s.getCurrentSlot < tickSlot
    · rw [if_pos h, if_pos (decide_eq_true h)]
      exact .write_bind (ih _)
    · rw [if_neg h, if_neg (by simpa using h)]
      exact .pure s

omit [Crypto] in
theorem onTick_computes (time : U64) (s : Store) : Computes (onTick time) s (s.onTick time) :=
  .inspect fun _ _ => .get <| .get <| .bind (onTickLoop_computes _ _ s) fun _ _ => .write _

omit [Preset] [Crypto] in
theorem writeVotePositions_computes (positions : List Nat) (value : Bool)
    (votes : PayloadVoteVector) :
    Computes (writeVotePositions positions value) votes
      (Store.writeVotePositions votes positions value) :=
  .forM (fun _ _ => .inspect fun _ _ => .write _) positions votes

omit [Crypto] in
theorem recordPayloadVotePositions_computes (blockRoot : Root) (positions : List Nat)
    (payloadPresent blobDataAvailable : Bool) (s : Store) :
    Computes (recordPayloadVotePositions blockRoot positions payloadPresent blobDataAvailable) s
      (s.recordPayloadVotePositions blockRoot positions payloadPresent blobDataAvailable) :=
  .inspect fun _ _ => .inspect fun _ _ =>
    .within (writeVotePositions_computes _ _ _) fun _ _ =>
      .within (writeVotePositions_computes _ _ _) fun _ _ => .pure _

theorem onPayloadAttestationMessageInner_computes (msg : PayloadAttestationMessage)
    (isFromBlock : Bool) (s : Store) :
    Computes (onPayloadAttestationMessageInner msg isFromBlock) s
      (s.onPayloadAttestationMessageInner msg isFromBlock) := by
  refine .inspect fun state _ => .ite (fun _ => .pure s) fun _ => .check fun positions _ => ?_
  cases isFromBlock with
  | true => exact recordPayloadVotePositions_computes _ _ _ _ s
  | false =>
    exact .inspect fun _ _ => .check fun _ _ => .check fun _ _ =>
      recordPayloadVotePositions_computes _ _ _ _ s

theorem notifyPtcMessages_computes (state : BeaconState) (attestations : List PayloadAttestation)
    (s : Store) :
    Computes (notifyPtcMessages state attestations) s (s.notifyPtcMessages state attestations) :=
  .ite (fun _ => .pure s) fun _ => .forM (fun _ _ => .check fun _ _ =>
    .forM (fun _ s => onPayloadAttestationMessageInner_computes _ true s) _ _) _ s

omit [Crypto] in
theorem recordBlockTimeliness_computes (root : Root) (s : Store) :
    Computes (recordBlockTimeliness root) s (s.recordBlockTimeliness root) :=
  .inspect fun _ _ => .get <| .get <| .write _

omit [Crypto] in
theorem updateProposerBoostRoot_computes (head root : Root) (s : Store) :
    Computes (updateProposerBoostRoot head root) s (s.updateProposerBoostRoot head root) := by
  refine .get <| .inspect fun timeliness _ => .inspect fun dependentRoot _ =>
    .inspect fun headDependentRoot _ => ?_
  by_cases h : (timeliness.attestationTimely && (s.proposerBoostRoot == Root.ZERO) &&
      dependentRoot == headDependentRoot) = true
  · rw [if_pos h, if_pos h]
    exact .write _
  · rw [if_neg h, if_neg h]
    exact .pure s

theorem onBlockInner_computes (o : Orders) (b : SignedBeaconBlock) (s : Store) :
    Computes (onBlockInner o b) s (s.onBlock o b) := by
  refine .inspect fun _ _ => .inspect fun _ _ => .check fun state _ => .inspect fun _ _ => ?_
  refine .write_bind <| .bind (notifyPtcMessages_computes _ _ _) fun _ _ => ?_
  refine .bind (recordBlockTimeliness_computes _ _) fun _ _ => ?_
  refine .bind (updateProposerBoostRoot_computes _ _ _) fun _ _ => ?_
  exact .write_bind (computePulledUpTip_computes _ _)

theorem onAttestationInner_computes (a : Attestation) (isFromBlock : Bool) (s : Store) :
    Computes (onAttestationInner a isFromBlock) s (s.onAttestation a isFromBlock) :=
  .inspect fun _ _ => .bind (storeTargetCheckpointState_computes _ s) fun _ _ =>
    .inspect fun _ _ => .check fun _ _ => .write _

theorem onAttesterSlashing_computes (a : AttesterSlashing) (s : Store) :
    Computes (onAttesterSlashing a) s (s.onAttesterSlashing a) :=
  .check fun _ _ => .inspect fun _ _ => .check fun _ _ => .check fun _ _ => .write _

theorem onExecutionPayloadEnvelope_computes (e : SignedExecutionPayloadEnvelope)
    (verifier : ExecutionPayloadVerifier) (s : Store) :
    Computes (onExecutionPayloadEnvelopeWithVerifier e verifier) s
      (s.onExecutionPayloadEnvelopeWithVerifier e verifier) :=
  .inspect fun _ _ => .inspect fun _ _ => .inspect fun _ _ =>
    .ite (fun _ => .check fun _ _ => .write _) fun _ => .write _

theorem processQueuedPayloadEnvelope_computes (root : Root) (verifier : ExecutionPayloadVerifier)
    (s : Store) :
    Computes (processQueuedPayloadEnvelope root verifier) s
      (s.processQueuedPayloadEnvelope root verifier) := by
  refine .get ?_
  unfold Store.processQueuedPayloadEnvelope
  cases s.queuedPayloadEnvelopes.lookup root with
  | none => exact .pure s
  | some e =>
    exact .get <| .ite (fun _ => .pure s) fun _ => .inspect fun _ _ => .check fun _ _ => .write _

/-! ## Atomic handlers -/

theorem onTick_atomic (time : U64) (s : Store) : Atomic (onTick time) s := by
  refine .inspect fun _ htime => ?_
  -- past the check of the time no step of the clock fails
  obtain ⟨s₁, hs₁, -⟩ := @Store.onTickLoop_steps _ (fun _ => True) _ _ _
    ((s.slotAtTime time).val - s.getCurrentSlot.val) s rfl (require_eq_ok.1 htime) (by omega)
  have hloop := onTickLoop_computes (s.slotAtTime time)
    ((s.slotAtTime time).val - s.getCurrentSlot.val) s
  rw [hs₁] at hloop
  exact .inspect fun tickSlot htick => .inspect fun currentSlot hcurrent => by
    cases htick
    cases hcurrent
    exact .of_ok (congrArg Prod.fst (InPlace.exec_bind_ok hloop _))

theorem onAttesterSlashing_atomic (a : AttesterSlashing) (s : Store) :
    Atomic (onAttesterSlashing a) s :=
  .check fun _ _ => .inspect fun _ _ => .check fun _ _ => .check fun _ _ => .write _

theorem onExecutionPayloadEnvelope_atomic (e : SignedExecutionPayloadEnvelope)
    (verifier : ExecutionPayloadVerifier) (s : Store) :
    Atomic (onExecutionPayloadEnvelopeWithVerifier e verifier) s :=
  .inspect fun _ _ => .inspect fun _ _ => .inspect fun _ _ =>
    .ite (.check fun _ _ => .write _) (.write _)

theorem processQueuedPayloadEnvelope_atomic (root : Root) (verifier : ExecutionPayloadVerifier)
    (s : Store) : Atomic (processQueuedPayloadEnvelope root verifier) s := by
  refine .inspect fun queued _ => ?_
  cases queued with
  | none => exact .of_ok rfl
  | some e =>
    exact .inspect fun _ _ => .ite (.of_ok rfl) (.inspect fun _ _ => .check fun _ _ => .write _)

/-- The checks of a sidecar that do not load the setup. -/
def checkSidecarWithSetup (s : Store) (sidecar : DataColumnSidecar) : Outcome Unit := do
  let root := sidecar.beaconBlockRoot
  let block ← orFail (s.blocks.lookup root) (.unknownBlock root)
  require (sidecar.slot = block.slot) (.dataColumnSidecarSlotMismatch sidecar.slot block.slot)
  validateDataColumnSidecar sidecar block.blobKzgCommitments

/-- What the sidecar handler does past its checks: it stores the sidecar and tries the queue. -/
def storeAndRelease (sidecar : DataColumnSidecar) (verifier : ExecutionPayloadVerifier) :
    Mutation Unit := do
  write (Store.insertSidecar · sidecar)
  processQueuedPayloadEnvelope sidecar.beaconBlockRoot verifier

theorem storeAndRelease_exec (sidecar : DataColumnSidecar) (verifier : ExecutionPayloadVerifier)
    (s : Store) : (storeAndRelease sidecar verifier).exec s =
      InPlace.committed (s.insertSidecar sidecar)
        ((s.insertSidecar sidecar).processQueuedPayloadEnvelope sidecar.beaconBlockRoot verifier) :=
  (processQueuedPayloadEnvelope_atomic _ verifier _).exec_eq
    (processQueuedPayloadEnvelope_computes _ verifier _)

theorem recordDataColumnSidecarWithSetup_guarded (sidecar : DataColumnSidecar)
    (verifier : ExecutionPayloadVerifier) (s : Store) :
    InPlace.Guarded (recordDataColumnSidecarWithSetupAndVerifier sidecar verifier) s
      (checkSidecarWithSetup s sidecar) (storeAndRelease sidecar verifier) :=
  .inspect fun _ _ => .check fun _ _ => .last _ _

theorem recordDataColumnSidecar_guarded (sidecar : DataColumnSidecar)
    (verifier : ExecutionPayloadVerifier) (s : Store) :
    InPlace.Guarded (recordDataColumnSidecarWithVerifier sidecar verifier) s
      (s.checkSidecar sidecar) (storeAndRelease sidecar verifier) :=
  .check fun _ _ => recordDataColumnSidecarWithSetup_guarded sidecar verifier s

/-! ## Calls -/

omit [Crypto] in
theorem commit_eq (s : Store) (r : Outcome Store) : s.commit r = InPlace.committed s r := by
  cases r <;> rfl

theorem onBlockWithEmbeddedMessages_exec (o : Orders) (b : SignedBeaconBlock) (s : Store) :
    (onBlockWithEmbeddedMessages o b).exec s =
      InPlace.committed s (s.onBlockWithEmbeddedMessages o b) := by
  refine InPlace.Computes.onCopy ?_
  refine .bind (onBlockInner_computes o b s) fun s₁ _ => ?_
  refine .bind (.forM (fun a s => onAttestationInner_computes a true s) _ s₁) fun s₂ _ => ?_
  exact .forM onAttesterSlashing_computes _ s₂

/-- A call in place is the call of the store. -/
theorem call_exec (c : Call) (s : Store) : (call c).exec s = s.call c := by
  cases c with
  | tick time =>
    rw [Store.call, commit_eq]
    exact (onTick_atomic time s).exec_eq (onTick_computes time s)
  | block o b =>
    rw [Store.call, commit_eq]
    exact (onBlockInner_computes o b s).onCopy
  | blockWithEmbeddedMessages o b =>
    rw [Store.call, commit_eq]
    exact onBlockWithEmbeddedMessages_exec o b s
  | attestation a isFromBlock =>
    rw [Store.call, commit_eq]
    exact (onAttestationInner_computes a isFromBlock s).onCopy
  | attesterSlashing a =>
    rw [Store.call, commit_eq]
    exact (onAttesterSlashing_atomic a s).exec_eq (onAttesterSlashing_computes a s)
  | payloadAttestationMessage m isFromBlock =>
    rw [Store.call, commit_eq]
    exact (onPayloadAttestationMessageInner_computes m isFromBlock s).onCopy
  | executionPayloadEnvelope e verifier =>
    rw [Store.call, commit_eq]
    exact (onExecutionPayloadEnvelope_atomic e verifier s).exec_eq
      (onExecutionPayloadEnvelope_computes e verifier s)
  | dataColumnSidecar c verifier =>
    have hguard := recordDataColumnSidecar_guarded c verifier s
    show (recordDataColumnSidecarWithVerifier c verifier).exec s =
      s.recordDataColumnSidecarWithVerifier c verifier
    unfold Store.recordDataColumnSidecarWithVerifier
    cases hcheck : s.checkSidecar c with
    | error e =>
      rw [hcheck] at hguard
      exact hguard
    | ok u =>
      rw [hcheck] at hguard
      refine (hguard.trans (storeAndRelease_exec c verifier s)).trans ?_
      cases hrelease : (s.insertSidecar c).processQueuedPayloadEnvelope c.beaconBlockRoot verifier <;>
        simp only [hrelease, InPlace.committed]

/-- An error leaves the store as it was; only the sidecar handler can fail after a write, when the
release of a queued envelope fails, and has then stored the sidecar and nothing else. -/
theorem errors_leave_store (s : Store) (e : ForkChoiceError) :
    (∀ c, (∀ sidecar verifier, c ≠ .dataColumnSidecar sidecar verifier) →
      ((call c).exec s).1 = .error (.err e) → ((call c).exec s).2 = s) ∧
    ∀ sidecar verifier,
      ((recordDataColumnSidecarWithSetupAndVerifier sidecar verifier).exec s).1 =
        .error (.err e) →
      ((recordDataColumnSidecarWithSetupAndVerifier sidecar verifier).exec s).2 = s ∨
      (s.insertSidecar sidecar).processQueuedPayloadEnvelope sidecar.beaconBlockRoot verifier =
          .error (.err e) ∧
        ((recordDataColumnSidecarWithSetupAndVerifier sidecar verifier).exec s).2 =
          s.insertSidecar sidecar := by
  refine ⟨fun c hc he => ?_, fun sidecar verifier he => ?_⟩
  · have hatomic : Atomic (call c) s := by
      cases c with
      | tick time => exact onTick_atomic time s
      | block o b => exact .onCopy _ s
      | blockWithEmbeddedMessages o b => exact .onCopy _ s
      | attestation a isFromBlock => exact .onCopy _ s
      | attesterSlashing a => exact onAttesterSlashing_atomic a s
      | payloadAttestationMessage m isFromBlock => exact .onCopy _ s
      | executionPayloadEnvelope e verifier => exact onExecutionPayloadEnvelope_atomic e verifier s
      | dataColumnSidecar sidecar verifier => exact absurd rfl (hc sidecar verifier)
    exact hatomic _ he
  · have hguard := recordDataColumnSidecarWithSetup_guarded sidecar verifier s
    cases hcheck : checkSidecarWithSetup s sidecar with
    | error e' =>
      rw [hcheck] at hguard
      exact .inl (congrArg Prod.snd hguard)
    | ok u =>
      rw [hcheck] at hguard
      have hexec := hguard.trans (storeAndRelease_exec sidecar verifier s)
      rw [hexec] at he ⊢
      cases hrelease : (s.insertSidecar sidecar).processQueuedPayloadEnvelope
          sidecar.beaconBlockRoot verifier with
      | ok s' =>
        rw [hrelease] at he
        cases he
      | error e' =>
        rw [hrelease] at he
        cases he
        exact .inr ⟨rfl, rfl⟩

end

end Mutation

end Moonglass

namespace Moonglass.Devnet

open Lib Lib.InPlace

/-- The engine that rejects every payload. -/
def rejectAll : ExecutionPayloadVerifier := fun _ => .invalid

/-- All columns of the blob but the last have arrived, and the envelope waits for it. -/
def awaiting : Store :=
  (seed blobGenesis).run (.executionPayloadEnvelope genesisEnvelope rejectAll ::
    blobColumns.dropLast.map (.dataColumnSidecar · rejectAll))

def lastColumn : DataColumnSidecar := blobColumn 127

/-- The envelope of a block that nobody has seen. -/
def strayEnvelope : SignedExecutionPayloadEnvelope :=
  { genesisEnvelope with message := { genesisEnvelope.message with beaconBlockRoot := Root.ZERO } }

/-- A rejected envelope changes nothing; a column whose payload is rejected is stored. -/
theorem errors_leave_store_awaiting :
    ((Mutation.call (.executionPayloadEnvelope strayEnvelope rejectAll)).exec awaiting).2 =
      awaiting ∧
    (((Mutation.recordDataColumnSidecarWithSetupAndVerifier lastColumn rejectAll).exec
        awaiting).2 = awaiting ∨
      (awaiting.insertSidecar lastColumn).processQueuedPayloadEnvelope lastColumn.beaconBlockRoot
          rejectAll = .error (.err (.payloadExecutionInvalid blobGenesis.treeRoot)) ∧
        ((Mutation.recordDataColumnSidecarWithSetupAndVerifier lastColumn rejectAll).exec
          awaiting).2 = awaiting.insertSidecar lastColumn) :=
  ⟨(Mutation.errors_leave_store awaiting (.payloadEnvelopeForUnknownBlock Root.ZERO)).1
      (.executionPayloadEnvelope strayEnvelope rejectAll) nofun (by decide +kernel),
    (Mutation.errors_leave_store awaiting (.payloadExecutionInvalid blobGenesis.treeRoot)).2
      lastColumn rejectAll (by decide +kernel)⟩

/-- The number of columns stored for the block. -/
def storedColumns (s : Store) : Option Nat :=
  (s.dataColumnSidecars.lookup blobGenesis.treeRoot).map List.length

/-- The last column makes the engine reject the envelope: the handler fails, and the column stays. -/
theorem sidecar_kept_lastColumn :
    ((Mutation.recordDataColumnSidecarWithSetupAndVerifier lastColumn rejectAll).exec awaiting).1 =
      .error (.err (.payloadExecutionInvalid blobGenesis.treeRoot)) ∧
    ((Mutation.recordDataColumnSidecarWithSetupAndVerifier lastColumn rejectAll).exec awaiting).2 ≠
      awaiting := by
  refine ⟨by decide +kernel, fun heq => ?_⟩
  have hafter : storedColumns ((Mutation.recordDataColumnSidecarWithSetupAndVerifier lastColumn
      rejectAll).exec awaiting).2 = some 128 := by decide +kernel
  have hbefore : storedColumns awaiting = some 127 := by decide +kernel
  rw [heq, hbefore] at hafter
  exact absurd hafter (by decide)

end Moonglass.Devnet
