import Moonglass.ForkChoice.Invariant
import Moonglass.Devnet

/-
  Payload delivery. The envelope of a block and the columns of its data come in any order, through
  two handlers that share a queue. In every run a recorded payload has verified against the state of
  its block and its data is there (`Delivered`). While one envelope and one full set of columns are
  being delivered, `Delivering` says what is stored so far; once all have arrived it leaves one store
  only, whatever the order was.
-/

namespace Moonglass

open Lib HashMap

variable [Preset] [Crypto]
variable {c : DataColumnSidecar} {sidecars : List DataColumnSidecar}

/-! ## Columns -/

/-- The columns stored for the block `b` with root `r`: one sidecar per column, in column order,
each verified against the block. -/
structure Columns (r : Root) (b : BeaconBlock) (sidecars : List DataColumnSidecar) : Prop where
  ordered : KeyOrdered DataColumnSidecar.index sidecars
  verified : ∀ c ∈ sidecars, Store.sidecarVerifies r b c = true

theorem Columns.nil (r : Root) (b : BeaconBlock) : Columns r b [] := ⟨.nil, nofun⟩

variable {b : BeaconBlock} {r : Root}

theorem sidecarVerifies_index {c : DataColumnSidecar}
    (h : Store.sidecarVerifies r b c = true) : c.index.val < numberOfColumns := by
  simp only [Store.sidecarVerifies, verifyDataColumnSidecar, Bool.and_eq_true,
    decide_eq_true_eq] at h
  exact h.1.2.1.1.1

/-- A new sidecar takes the place of the one of its column and leaves the others. -/
theorem Columns.mem_store (h : Columns r b sidecars) {c' : DataColumnSidecar} :
    c' ∈ sortSidecars (replaceSidecar c sidecars) ↔
      c' = c ∨ c' ∈ sidecars ∧ c'.index ≠ c.index := by
  rw [sortSidecars, mem_sortByKey, replaceSidecar, mem_upsert h.ordered.nodup]

theorem Columns.store (h : Columns r b sidecars) (hc : Store.sidecarVerifies r b c = true) :
    Columns r b (sortSidecars (replaceSidecar c sidecars)) where
  ordered := keyOrdered_sortByKey (nodup_upsert h.ordered.nodup)
  verified := by
    intro c' hc'
    rcases h.mem_store.1 hc' with rfl | ⟨hc', -⟩
    · exact hc
    · exact h.verified c' hc'

/-- A full set: every column index occurs. -/
theorem Columns.complete_iff (h : Columns r b sidecars) : hasCompleteColumnSet sidecars = true ↔
      ∀ i < numberOfColumns, ∃ c ∈ sidecars, c.index.val = i := by
  have hnodup : (sidecars.map fun c => c.index.val).Nodup := by
    have := h.ordered.nodup.map Fin.val_injective
    rwa [List.map_map] at this
  have hlt : ∀ i ∈ sidecars.map fun c => c.index.val, i < numberOfColumns := by
    intro i hi
    obtain ⟨c, hc, rfl⟩ := List.mem_map.1 hi
    exact sidecarVerifies_index (h.verified c hc)
  have hsub : (sidecars.map fun c => c.index.val) ⊆ List.range numberOfColumns :=
    fun i hi => List.mem_range.2 (hlt i hi)
  have hsubperm := hnodup.subperm hsub
  rw [hasCompleteColumnSet]
  simp only [Bool.and_eq_true, beq_iff_eq, List.all_eq_true, decide_eq_true_eq]
  constructor
  · rintro ⟨⟨hlength, -⟩, -⟩ i hi
    have hperm := hsubperm.perm_of_length_le (by simp [hlength])
    obtain ⟨c, hc, heq⟩ := List.mem_map.1 (hperm.mem_iff.2 (List.mem_range.2 hi))
    exact ⟨c, hc, heq⟩
  · intro hall
    have hsup : List.range numberOfColumns ⊆ sidecars.map fun c => c.index.val := by
      intro i hi
      obtain ⟨c, hc, heq⟩ := hall i (List.mem_range.1 hi)
      exact List.mem_map.2 ⟨c, hc, heq⟩
    have hperm := hsubperm.antisymm (List.nodup_range.subperm hsup)
    refine ⟨⟨?_, fun c hc => hlt _ (List.mem_map_of_mem hc)⟩, h.ordered.nodup⟩
    simpa using hperm.length_eq

namespace Store

variable {g : Origin} {s s' t : Store}

/-- The sidecars stored for a block. -/
def sidecarsOf (s : Store) (r : Root) : List DataColumnSidecar :=
  (s.dataColumnSidecars.lookup r).getD []

/-- The data of the block `b` with root `r` is there: it has none, or all columns are stored and
verified. -/
def DataStored (s : Store) (r : Root) (b : BeaconBlock) : Prop :=
  b.blobKzgCommitments.isEmpty = true ∨ ∃ sidecars, s.dataColumnSidecars.lookup r = some sidecars ∧
    hasCompleteColumnSet sidecars = true ∧ ∀ c ∈ sidecars, sidecarVerifies r b c = true

theorem isDataAvailableWithSetup_iff (hb : s.blocks.lookup r = some b) :
    s.isDataAvailableWithSetup r = true ↔ s.DataStored r b := by
  unfold isDataAvailableWithSetup DataStored
  rw [hb]
  dsimp only
  rw [Bool.or_eq_true]
  refine or_congr_right ?_
  cases s.dataColumnSidecars.lookup r with
  | none => simp
  | some sidecars => simp [List.all_eq_true]

theorem isDataAvailableWithSetup_mem (h : s.isDataAvailableWithSetup r = true) :
    ∃ b, s.blocks.lookup r = some b := by
  unfold isDataAvailableWithSetup at h
  cases hb : s.blocks.lookup r with
  | none => rw [hb] at h; cases h
  | some b => exact ⟨b, rfl⟩

/-- What the checks on a sidecar establish. -/
theorem checkSidecar_verifies (h : s.checkSidecar c = .ok ()) :
    ∃ b, s.blocks.lookup c.beaconBlockRoot = some b ∧
      sidecarVerifies c.beaconBlockRoot b c = true := by
  unfold checkSidecar at h
  obtain ⟨_, -, h⟩ := bind_eq_ok.1 h
  dsimp only at h
  obtain ⟨b, hb, h⟩ := bind_eq_ok.1 h
  obtain ⟨_, hslot, h⟩ := bind_eq_ok.1 h
  refine ⟨b, orFail_eq_ok.1 hb, ?_⟩
  unfold validateDataColumnSidecar at h
  obtain ⟨_, hshape, h⟩ := bind_eq_ok.1 h
  unfold sidecarVerifies
  rw [require_eq_ok.1 hshape, require_eq_ok.1 hslot]
  cases hproofs : verifyDataColumnSidecarKzgProofs c b.blobKzgCommitments with
  | error e => rw [hproofs] at h; cases h
  | ok verdict =>
    cases verdict with
    | false => rw [hproofs] at h; cases h
    | true => simp

/-! ## Recorded payloads in every run -/

/-- A recorded envelope has verified against the state of its block, and its data is there. -/
structure Recorded (s : Store) (r : Root) (envelope : ExecutionPayloadEnvelope) : Prop where
  verified : ∃ state signature, s.blockStates.lookup r = some state ∧
    state.verifyExecutionPayloadEnvelope ⟨envelope, signature⟩ = .ok ()
  available : s.isDataAvailableWithSetup r = true

/-- What the delivery handlers keep. -/
structure Delivered (s : Store) : Prop where
  columns : ∀ {r sidecars}, s.dataColumnSidecars.lookup r = some sidecars →
    ∃ b, s.blocks.lookup r = some b ∧ Columns r b sidecars
  queued : ∀ {r e}, s.queuedPayloadEnvelopes.lookup r = some e → e.message.beaconBlockRoot = r
  payload : ∀ {r envelope}, s.payloads.lookup r = some envelope → Recorded s r envelope

/-- Stored data stays there as the store grows. -/
theorem DataStored.grows (h : s.DataStored r b)
    (hsidecars : s'.dataColumnSidecars.lookup r = s.dataColumnSidecars.lookup r) :
    s'.DataStored r b := by
  unfold DataStored
  rw [hsidecars]
  exact h

theorem Recorded.of_grows {envelope : ExecutionPayloadEnvelope}
    (h : Recorded s r envelope) (hgrows : Grows s s')
    (hdata : ∀ b, s.blocks.lookup r = some b → s.DataStored r b → s'.DataStored r b) :
    Recorded s' r envelope := by
  obtain ⟨state, signature, hstate, hverified⟩ := h.verified
  obtain ⟨b, hb⟩ := isDataAvailableWithSetup_mem h.available
  refine ⟨⟨state, signature, hgrows.states hstate, hverified⟩, ?_⟩
  rw [isDataAvailableWithSetup_iff (hgrows.blocks hb)]
  exact hdata b hb ((isDataAvailableWithSetup_iff hb).1 h.available)

/-- Steps that write nothing of a delivery keep what it relies on. -/
theorem Delivered.of_grows (h : Delivered s) (hgrows : Grows s s')
    (hpayloads : s'.payloads = s.payloads)
    (hqueued : s'.queuedPayloadEnvelopes = s.queuedPayloadEnvelopes)
    (hsidecars : s'.dataColumnSidecars = s.dataColumnSidecars) : Delivered s' where
  columns := by
    intro r sidecars hr
    rw [hsidecars] at hr
    obtain ⟨b, hb, hcolumns⟩ := h.columns hr
    exact ⟨b, hgrows.blocks hb, hcolumns⟩
  queued := by
    rw [hqueued]
    exact h.queued
  payload := by
    intro r envelope hr
    rw [hpayloads] at hr
    exact (h.payload hr).of_grows hgrows fun b _ hdata => hdata.grows (by rw [hsidecars])

theorem Delivered.columns_of (h : Delivered s)
    (hb : s.blocks.lookup r = some b) : Columns r b (s.sidecarsOf r) := by
  unfold sidecarsOf
  cases hr : s.dataColumnSidecars.lookup r with
  | none => exact .nil r b
  | some sidecars =>
    obtain ⟨b', hb', hcolumns⟩ := h.columns hr
    cases hb.symm.trans hb'
    exact hcolumns

omit [Crypto] in
theorem insertSidecar_lookup (s : Store) (c : DataColumnSidecar) (r : Root) :
    (s.insertSidecar c).dataColumnSidecars.lookup r =
      if r = c.beaconBlockRoot then
        some (sortSidecars (replaceSidecar c (s.sidecarsOf c.beaconBlockRoot)))
      else s.dataColumnSidecars.lookup r :=
  lookup_insert_eq _ _ _ _

/-- A verified sidecar does not take away stored data. -/
theorem DataStored.insertSidecar (h : s.DataStored r b) (hcolumns : Columns r b (s.sidecarsOf r))
    (hc : c.beaconBlockRoot = r → sidecarVerifies r b c = true) :
    (s.insertSidecar c).DataStored r b := by
  by_cases hr : r = c.beaconBlockRoot
  · rcases h with hempty | ⟨sidecars, hlookup, hcomplete, -⟩
    · exact .inl hempty
    · have hsidecars : s.sidecarsOf r = sidecars := by rw [sidecarsOf, hlookup, Option.getD_some]
      rw [hsidecars] at hcolumns
      have hstored := hcolumns.store (hc hr.symm)
      refine .inr ⟨_, ?_, hstored.complete_iff.2 fun i hi => ?_, hstored.verified⟩
      · rw [insertSidecar_lookup, if_pos hr, ← hr, hsidecars]
      · obtain ⟨c', hc', heq⟩ := hcolumns.complete_iff.1 hcomplete i hi
        by_cases hindex : c'.index = c.index
        · exact ⟨c, hcolumns.mem_store.2 (.inl rfl), hindex ▸ heq⟩
        · exact ⟨c', hcolumns.mem_store.2 (.inr ⟨hc', hindex⟩), heq⟩
  · exact h.grows (by rw [insertSidecar_lookup, if_neg hr])

theorem Delivered.insertSidecar (h : Delivered s) (hc : s.checkSidecar c = .ok ()) :
    Delivered (s.insertSidecar c) := by
  obtain ⟨b, hb, hverifies⟩ := checkSidecar_verifies hc
  have hkept : Kept s (s.insertSidecar c) := .of_fields rfl rfl rfl rfl rfl rfl rfl
  refine ⟨?_, h.queued, ?_⟩
  · intro r sidecars hr
    rw [insertSidecar_lookup] at hr
    by_cases heq : r = c.beaconBlockRoot
    · rw [if_pos heq] at hr
      cases hr
      subst heq
      exact ⟨b, hb, (h.columns_of hb).store hverifies⟩
    · rw [if_neg heq] at hr
      exact h.columns hr
  · intro r envelope hr
    refine (h.payload hr).of_grows hkept.grows fun b' hb' hdata => ?_
    refine hdata.insertSidecar (h.columns_of hb') fun heq => ?_
    subst heq
    cases hb.symm.trans hb'
    exact hverifies

/-- Recording a verified envelope whose data is there. -/
theorem Delivered.record (h : Delivered s) {e : SignedExecutionPayloadEnvelope}
    (hverified : EnvelopeVerified s e)
    (havailable : s.isDataAvailableWithSetup e.message.beaconBlockRoot = true) :
    Delivered (s.recordVerifiedExecutionPayloadEnvelope e) := by
  have hgrows := (recordVerifiedExecutionPayloadEnvelope_kept hverified).grows
  refine ⟨h.columns, ?_, ?_⟩
  · intro r e' hr
    refine h.queued ?_
    by_cases heq : r = e.message.beaconBlockRoot
    · subst heq
      rw [recordVerifiedExecutionPayloadEnvelope, Finmap.lookup_erase] at hr
      cases hr
    · rwa [recordVerifiedExecutionPayloadEnvelope, Finmap.lookup_erase_ne heq] at hr
  · intro r envelope hr
    rcases of_lookup_insert hr with ⟨rfl, rfl⟩ | hr
    · obtain ⟨state, hstate, hverified⟩ := hverified
      exact ⟨⟨state, e.signature, hstate, hverified⟩, havailable⟩
    · exact (h.payload hr).of_grows hgrows fun b _ hdata => hdata

theorem Delivered.step (inv : Inv g s) (h : Delivered s) (hstep : Step (· ∈ g.blocks) s s') :
    Delivered s' := by
  have hgrows := (inv.step hstep).2
  cases hstep with
  | tick hle _ =>
    obtain ⟨boost, justified, finalized, heq, -⟩ := onTickPerSlot_eq s ‹_›
    exact h.of_grows hgrows (by rw [heq]) (by rw [heq]) (by rw [heq])
  | block hb hok =>
    obtain ⟨parentState, state, pulledUp, head, -, -, -, -, himported⟩ := onBlock_effect hok
    exact h.of_grows hgrows himported.payloads himported.queuedPayloadEnvelopes
      himported.dataColumnSidecars
  | attestation hok =>
    obtain ⟨s₁, targetState, attesters, -, hs₁, -, -, rfl⟩ := onAttestation_effect hok
    rcases storeTargetCheckpointState_eq _ _ hs₁ with ⟨rfl, -⟩ | ⟨state, -, -, rfl⟩ <;>
      exact h.of_grows hgrows rfl rfl rfl
  | attesterSlashing hok =>
    rw [onAttesterSlashing_eq hok] at hgrows ⊢
    exact h.of_grows hgrows rfl rfl rfl
  | payloadAttestation hok =>
    have heq := (onPayloadAttestationMessageInner_votes _ _ _ hok).eq
    rw [heq] at hgrows ⊢
    exact h.of_grows hgrows rfl rfl rfl
  | envelope hok =>
    obtain ⟨hverified, ⟨havailable, rfl⟩ | ⟨-, rfl⟩⟩ := onExecutionPayloadEnvelope_effect _ hok
    · exact h.record hverified havailable
    · refine ⟨h.columns, ?_, fun hr => (h.payload hr).of_grows hgrows fun _ _ hdata => hdata⟩
      intro r e hr
      rcases of_lookup_insert hr with ⟨heq, rfl⟩ | hr
      · exact heq.symm
      · exact h.queued hr
  | sidecar hok => exact h.insertSidecar hok
  | release hok =>
    rcases processQueuedPayloadEnvelope_effect _ hok with rfl | ⟨e, hqueued, hverified, havailable, rfl⟩
    · exact h
    · rw [← h.queued hqueued] at havailable
      exact h.record hverified havailable

theorem Delivered.seed (state : BeaconState) (anchor : BeaconBlock) (time : U64) :
    Delivered (Store.seed state anchor time) where
  columns := nofun
  queued := nofun
  payload := nofun

theorem Delivered.run {state : BeaconState} {anchor : BeaconBlock} {calls : List Call}
    (h : getForkchoiceStore state anchor = .ok s)
    (hc : NoCollision state anchor (runBlocks anchor calls)) : Delivered (s.run calls) := by
  have hrun : Inv (originOfRun h hc) (s.run calls) ∧ Delivered (s.run calls) := by
    refine run_inv h (P := fun s => Inv (originOfRun h hc) s ∧ Delivered s) ?_ ?_
    · exact fun time => ⟨Inv.seed (originOfRun h hc) time, .seed state anchor time⟩
    · rintro s₁ s₂ ⟨inv, hdelivered⟩ hstep
      exact ⟨(inv.step hstep).1, hdelivered.step inv hstep⟩
  exact hrun.2

/-! ## The handlers on one delivery -/

/-- An envelope that passes the consensus checks is recorded when its data is there, and queued
otherwise. -/
theorem onExecutionPayloadEnvelope_eq {e : SignedExecutionPayloadEnvelope}
    (hsetup : defaultKzgSetup = .ok ())
    (hverify : t.verifyExecutionPayloadEnvelopeConsensus e = .ok ()) :
    t.onExecutionPayloadEnvelopeWithVerifier e acceptAllExecutionPayloadVerifier =
      .ok (if t.isDataAvailableWithSetup e.message.beaconBlockRoot then
          t.recordVerifiedExecutionPayloadEnvelope e
        else { t with queuedPayloadEnvelopes :=
          t.queuedPayloadEnvelopes.insert e.message.beaconBlockRoot e }) := by
  obtain ⟨state, hstate, -⟩ := verifyConsensus_verified () hverify
  unfold onExecutionPayloadEnvelopeWithVerifier isDataAvailable
  dsimp only
  rw [require_of (mem_of_lookup hstate), ok_bind, hverify, ok_bind, hsetup, ok_bind,
    pure_eq_ok, ok_bind]
  cases t.isDataAvailableWithSetup e.message.beaconBlockRoot with
  | false => rfl
  | true => rfl

/-- A checked sidecar is stored; then either the queued envelope is released, or nothing more
happens: none is queued, data is missing, or the queued envelope does not verify. -/
theorem recordDataColumnSidecar_cases (h : t.checkSidecar c = .ok ()) :
    (∃ x, (t.insertSidecar c).queuedPayloadEnvelopes.lookup c.beaconBlockRoot = some x ∧
      (t.recordDataColumnSidecarWithVerifier c acceptAllExecutionPayloadVerifier).2 =
        (t.insertSidecar c).recordVerifiedExecutionPayloadEnvelope x) ∨
    (t.recordDataColumnSidecarWithVerifier c acceptAllExecutionPayloadVerifier).2 =
        t.insertSidecar c ∧
      ∀ x, (t.insertSidecar c).queuedPayloadEnvelopes.lookup c.beaconBlockRoot = some x →
        (t.insertSidecar c).isDataAvailableWithSetup c.beaconBlockRoot = false ∨
        (t.insertSidecar c).verifyExecutionPayloadEnvelopeConsensus x ≠ .ok () := by
  unfold recordDataColumnSidecarWithVerifier
  rw [h]
  dsimp only
  generalize t.insertSidecar c = t₁
  unfold processQueuedPayloadEnvelope
  cases hqueued : t₁.queuedPayloadEnvelopes.lookup c.beaconBlockRoot with
  | none => exact .inr ⟨rfl, nofun⟩
  | some x =>
    dsimp only
    cases havailable : t₁.isDataAvailableWithSetup c.beaconBlockRoot with
    | false => exact .inr ⟨rfl, fun _ _ => .inl rfl⟩
    | true =>
      rcases ok_or_error (t₁.verifyExecutionPayloadEnvelopeConsensus x) with ⟨_, hok⟩ | ⟨err, herr⟩
      · refine .inl ⟨x, rfl, ?_⟩
        rw [hok]
        rfl
      · refine .inr ⟨by rw [herr]; rfl, fun x' hx' => .inr ?_⟩
        cases hx'
        rw [herr]
        nofun

/-! ## Interleavings -/

/-- The calls that deliver an envelope and the columns of its data. -/
def deliveries (e : SignedExecutionPayloadEnvelope) (columns : List DataColumnSidecar) :
    List Call :=
  .executionPayloadEnvelope e acceptAllExecutionPayloadVerifier ::
    columns.map fun c => .dataColumnSidecar c acceptAllExecutionPayloadVerifier

/-- An envelope that passes the consensus checks, and a valid sidecar of its block for each column.
A block without commitments has no valid sidecar. -/
structure FullDelivery (s : Store) (e : SignedExecutionPayloadEnvelope)
    (columns : List DataColumnSidecar) : Prop where
  envelope : s.verifyExecutionPayloadEnvelopeConsensus e = .ok ()
  root : ∀ c ∈ columns, c.beaconBlockRoot = e.message.beaconBlockRoot
  valid : ∀ c ∈ columns, s.checkSidecar c = .ok ()
  indices : (columns.map fun c => c.index.val).Perm (List.range numberOfColumns)

/-- `t` is a store of a delivery for the block `b` with root `r` that started in `s`: it differs
from `s` only in what is delivered for `r`, and holds the sidecars `done`. -/
structure Delivering (s : Store) (r : Root) (b : BeaconBlock) (done : List DataColumnSidecar)
    (t : Store) : Prop where
  rest : t = { s with
    payloads := t.payloads
    queuedPayloadEnvelopes := t.queuedPayloadEnvelopes
    dataColumnSidecars := t.dataColumnSidecars }
  payloads : ∀ {r'}, r' ≠ r → t.payloads.lookup r' = s.payloads.lookup r'
  queued : ∀ {r'}, r' ≠ r → t.queuedPayloadEnvelopes.lookup r' = s.queuedPayloadEnvelopes.lookup r'
  sidecars : ∀ {r'}, r' ≠ r → t.dataColumnSidecars.lookup r' = s.dataColumnSidecars.lookup r'
  columns : Columns r b (t.sidecarsOf r)
  stored : ∀ c ∈ done, c ∈ t.sidecarsOf r
  key : ∀ {x}, t.queuedPayloadEnvelopes.lookup r = some x → x.message.beaconBlockRoot = r

/-- The envelope has arrived: it is recorded, or waits in the queue for its data. -/
def Arrived (e : SignedExecutionPayloadEnvelope) (t : Store) : Prop :=
  t.payloads.lookup e.message.beaconBlockRoot = some e.message ∧
      t.queuedPayloadEnvelopes.lookup e.message.beaconBlockRoot = none ∨
    t.queuedPayloadEnvelopes.lookup e.message.beaconBlockRoot = some e ∧
      t.isDataAvailableWithSetup e.message.beaconBlockRoot = false

section Interleaving

variable {r : Root} {b : BeaconBlock} {e : SignedExecutionPayloadEnvelope}
  {done columns : List DataColumnSidecar}

theorem Delivering.blocks (h : Delivering s r b done t) : t.blocks = s.blocks := by rw [h.rest]

theorem Delivering.states (h : Delivering s r b done t) : t.blockStates = s.blockStates := by
  rw [h.rest]

theorem Delivering.verifyConsensus (h : Delivering s r b done t)
    (x : SignedExecutionPayloadEnvelope) :
    t.verifyExecutionPayloadEnvelopeConsensus x = s.verifyExecutionPayloadEnvelopeConsensus x := by
  unfold verifyExecutionPayloadEnvelopeConsensus
  rw [h.states]

theorem Delivering.checkSidecar (h : Delivering s r b done t) (c : DataColumnSidecar) :
    t.checkSidecar c = s.checkSidecar c := by
  unfold Store.checkSidecar
  rw [h.blocks]

theorem Delivering.record (h : Delivering s r b done t) {x : SignedExecutionPayloadEnvelope}
    (hx : x.message.beaconBlockRoot = r) :
    Delivering s r b done (t.recordVerifiedExecutionPayloadEnvelope x) where
  rest := by
    have hrest := h.rest
    exact congrArg (fun t : Store => t.recordVerifiedExecutionPayloadEnvelope x) hrest
  payloads := by
    intro r' hr'
    rw [← h.payloads hr', recordVerifiedExecutionPayloadEnvelope]
    exact Finmap.lookup_insert_of_ne _ (hx ▸ hr')
  queued := by
    intro r' hr'
    rw [← h.queued hr', recordVerifiedExecutionPayloadEnvelope]
    exact Finmap.lookup_erase_ne (hx ▸ hr')
  sidecars := h.sidecars
  columns := h.columns
  stored := h.stored
  key := by
    intro y hy
    rw [recordVerifiedExecutionPayloadEnvelope, hx, Finmap.lookup_erase] at hy
    cases hy

theorem Arrived.record : Arrived e (t.recordVerifiedExecutionPayloadEnvelope e) :=
  .inl ⟨Finmap.lookup_insert _, Finmap.lookup_erase _ _⟩

theorem Delivering.queue (h : Delivering s r b done t) (he : e.message.beaconBlockRoot = r) :
    Delivering s r b done { t with queuedPayloadEnvelopes :=
      t.queuedPayloadEnvelopes.insert e.message.beaconBlockRoot e } where
  rest := by
    have hrest := h.rest
    generalize t.queuedPayloadEnvelopes.insert e.message.beaconBlockRoot e = queued
    rw [hrest]
  payloads := h.payloads
  queued := by
    intro r' hr'
    rw [← h.queued hr']
    exact Finmap.lookup_insert_of_ne _ (he ▸ hr')
  sidecars := h.sidecars
  columns := h.columns
  stored := h.stored
  key := by
    intro y hy
    rw [he, Finmap.lookup_insert] at hy
    cases hy
    exact he

theorem Delivering.insertSidecar (h : Delivering s r b done t) (hc : c.beaconBlockRoot = r)
    (hverifies : sidecarVerifies r b c = true) (hdone : ∀ c' ∈ done, c'.index = c.index → c' = c) :
    Delivering s r b (c :: done) (t.insertSidecar c) := by
  have hstored : (t.insertSidecar c).sidecarsOf r =
      sortSidecars (replaceSidecar c (t.sidecarsOf r)) := by
    rw [sidecarsOf, insertSidecar_lookup, if_pos hc.symm, Option.getD_some, hc]
  refine ⟨?_, h.payloads, h.queued, ?_, ?_, ?_, h.key⟩
  · exact congrArg (fun t : Store => t.insertSidecar c) h.rest
  · intro r' hr'
    rw [insertSidecar_lookup, if_neg (hc ▸ hr')]
    exact h.sidecars hr'
  · rw [hstored]
    exact h.columns.store hverifies
  · intro c' hc'
    rw [hstored, h.columns.mem_store]
    rcases List.mem_cons.1 hc' with rfl | hc'
    · exact .inl rfl
    · by_cases hindex : c'.index = c.index
      · exact .inl (hdone c' hc' hindex)
      · exact .inr ⟨h.stored c' hc', hindex⟩

/-- The sidecars among the calls of a delivery. -/
def sidecarsIn (calls : List Call) : List DataColumnSidecar :=
  calls.filterMap fun
    | .dataColumnSidecar c _ => some c
    | _ => none

/-- A state of the delivery after the calls `done`. -/
structure DeliveryStep (s : Store) (b : BeaconBlock) (e : SignedExecutionPayloadEnvelope)
    (done : List Call) (t : Store) : Prop where
  delivering : Delivering s e.message.beaconBlockRoot b (sidecarsIn done) t
  arrived : .executionPayloadEnvelope e acceptAllExecutionPayloadVerifier ∈ done → Arrived e t

theorem DeliveryStep.envelope {done : List Call} (h : DeliveryStep s b e done t)
    (hsetup : defaultKzgSetup = .ok ())
    (hverify : s.verifyExecutionPayloadEnvelopeConsensus e = .ok ()) :
    DeliveryStep s b e (.executionPayloadEnvelope e acceptAllExecutionPayloadVerifier :: done)
      (t.call (.executionPayloadEnvelope e acceptAllExecutionPayloadVerifier)).2 := by
  have hcall : (t.call (.executionPayloadEnvelope e acceptAllExecutionPayloadVerifier)).2 =
      if t.isDataAvailableWithSetup e.message.beaconBlockRoot then
        t.recordVerifiedExecutionPayloadEnvelope e
      else { t with queuedPayloadEnvelopes :=
        t.queuedPayloadEnvelopes.insert e.message.beaconBlockRoot e } := by
    rw [call, onExecutionPayloadEnvelope_eq hsetup (h.delivering.verifyConsensus e ▸ hverify)]
    rfl
  rw [hcall]
  cases havailable : t.isDataAvailableWithSetup e.message.beaconBlockRoot with
  | true => exact ⟨h.delivering.record rfl, fun _ => Arrived.record⟩
  | false =>
    exact ⟨h.delivering.queue rfl, fun _ => .inr ⟨Finmap.lookup_insert _, havailable⟩⟩

theorem DeliveryStep.sidecar {done : List Call} (h : DeliveryStep s b e done t)
    (hb : s.blocks.lookup e.message.beaconBlockRoot = some b)
    (hverify : s.verifyExecutionPayloadEnvelopeConsensus e = .ok ())
    (hroot : c.beaconBlockRoot = e.message.beaconBlockRoot) (hvalid : s.checkSidecar c = .ok ())
    (hdone : ∀ c' ∈ sidecarsIn done, c'.index = c.index → c' = c) :
    DeliveryStep s b e (.dataColumnSidecar c acceptAllExecutionPayloadVerifier :: done)
      (t.call (.dataColumnSidecar c acceptAllExecutionPayloadVerifier)).2 := by
  obtain ⟨b', hb', hverifies⟩ := checkSidecar_verifies hvalid
  rw [hroot, hb] at hb'
  cases hb'
  rw [hroot] at hverifies
  have hinsert := h.delivering.insertSidecar hroot hverifies hdone
  have harrived (harr : .executionPayloadEnvelope e acceptAllExecutionPayloadVerifier ∈
      .dataColumnSidecar c acceptAllExecutionPayloadVerifier :: done) : Arrived e t := by
    rcases List.mem_cons.1 harr with heq | harr
    · cases heq
    · exact h.arrived harr
  rw [call]
  rcases recordDataColumnSidecar_cases (h.delivering.checkSidecar c ▸ hvalid) with
    ⟨x, hx, heq⟩ | ⟨heq, hno⟩
  · -- the queued envelope is released; once `e` has arrived, it is `e`
    rw [heq]
    rw [hroot] at hx
    refine ⟨hinsert.record (h.delivering.key hx), fun harr => ?_⟩
    rcases harrived harr with ⟨-, hnone⟩ | ⟨hsome, -⟩
    · cases hx.symm.trans hnone
    · cases hx.symm.trans hsome
      exact Arrived.record
  · rw [heq]
    refine ⟨hinsert, fun harr => ?_⟩
    rcases harrived harr with hrecorded | ⟨hsome, -⟩
    · exact .inl hrecorded
    · -- `e` is still queued, and it verifies, so its data is not complete yet
      rw [hroot] at hno
      rcases hno e hsome with hmissing | hfails
      · exact .inr ⟨hsome, hmissing⟩
      · exact absurd (hinsert.verifyConsensus e ▸ hverify) hfails

/-- Any sequence of calls of the delivery. -/
theorem DeliveryStep.run (hfull : s.FullDelivery e columns)
    (hb : s.blocks.lookup e.message.beaconBlockRoot = some b) (hsetup : defaultKzgSetup = .ok ())
    {calls done : List Call} (hcalls : ∀ c ∈ calls, c ∈ deliveries e columns)
    (hdone : ∀ c ∈ done, c ∈ deliveries e columns) (h : DeliveryStep s b e done t) :
    DeliveryStep s b e (calls.reverse ++ done) (t.run calls) := by
  have hcolumn {c : DataColumnSidecar} {verifier : ExecutionPayloadVerifier}
      (hc : .dataColumnSidecar c verifier ∈ deliveries e columns) :
      c ∈ columns ∧ verifier = acceptAllExecutionPayloadVerifier := by
    rcases List.mem_cons.1 hc with hc | hc
    · cases hc
    · obtain ⟨c', hc', heq⟩ := List.mem_map.1 hc
      cases heq
      exact ⟨hc', rfl⟩
  -- two sidecars of the delivery with one column are one sidecar
  have hindex : ∀ c ∈ columns, ∀ c' ∈ columns, c'.index = c.index → c' = c := by
    have hnodup := hfull.indices.nodup_iff.2 List.nodup_range
    exact fun c hc c' hc' heq => List.inj_on_of_nodup_map hnodup hc' hc (congrArg Fin.val heq)
  induction calls generalizing t done with
  | nil => exact h
  | cons call calls ih =>
    rw [run_cons, List.reverse_cons, List.append_assoc, List.singleton_append]
    have hcall := hcalls call List.mem_cons_self
    refine ih (fun c hc => hcalls c (List.mem_cons_of_mem _ hc)) ?_ ?_
    · intro c hc
      rcases List.mem_cons.1 hc with rfl | hc
      · exact hcall
      · exact hdone c hc
    · rcases List.mem_cons.1 hcall with rfl | hmem
      · exact h.envelope hsetup hfull.envelope
      · obtain ⟨c, hc, rfl⟩ := List.mem_map.1 hmem
        refine h.sidecar hb hfull.envelope (hfull.root c hc) (hfull.valid c hc) fun c' hc' heq => ?_
        refine hindex c hc c' ?_ heq
        obtain ⟨call, hmem', hsome⟩ := List.mem_filterMap.1 hc'
        cases call <;> cases hsome
        exact (hcolumn (hdone _ hmem')).1

/-- The store once everything has been delivered. -/
def afterDelivery (s : Store) (e : SignedExecutionPayloadEnvelope)
    (columns : List DataColumnSidecar) : Store :=
  { s with
    payloads := s.payloads.insert e.message.beaconBlockRoot e.message
    queuedPayloadEnvelopes := s.queuedPayloadEnvelopes.erase e.message.beaconBlockRoot
    dataColumnSidecars :=
      s.dataColumnSidecars.insert e.message.beaconBlockRoot (sortSidecars columns) }

/-- Once all columns are stored, they are all that is stored. -/
theorem FullDelivery.sidecarsOf_eq (hfull : s.FullDelivery e columns)
    (hcolumns : Columns r b (t.sidecarsOf r)) (hstored : ∀ c ∈ columns, c ∈ t.sidecarsOf r) :
    t.sidecarsOf r = sortSidecars columns := by
  have hnodup := hfull.indices.nodup_iff.2 List.nodup_range
  have hlength : columns.length = numberOfColumns := by
    simpa using hfull.indices.length_eq
  refine hcolumns.ordered.eq_sortByKey ?_ hstored ?_
  · refine List.Nodup.of_map Fin.val ?_
    rwa [List.map_map]
  · have hsub : ((t.sidecarsOf r).map fun c => c.index.val) ⊆ List.range numberOfColumns := by
      intro i hi
      obtain ⟨c, hc, rfl⟩ := List.mem_map.1 hi
      exact List.mem_range.2 (sidecarVerifies_index (hcolumns.verified c hc))
    have hkeys : ((t.sidecarsOf r).map fun c => c.index.val).Nodup := by
      have := hcolumns.ordered.nodup.map Fin.val_injective
      rwa [List.map_map] at this
    have := (hkeys.subperm hsub).length_le
    simpa [hlength] using this

/-- A full set of columns is stored in the order of their indices. -/
theorem FullDelivery.sorted_indices (hfull : s.FullDelivery e columns) :
    (sortSidecars columns).map (fun c => c.index.val) = List.range numberOfColumns := by
  have hnodup : (columns.map DataColumnSidecar.index).Nodup := by
    refine List.Nodup.of_map Fin.val ?_
    rw [List.map_map]
    exact hfull.indices.nodup_iff.2 List.nodup_range
  have hordered : KeyOrdered DataColumnSidecar.index (sortSidecars columns) :=
    keyOrdered_sortByKey hnodup
  have hsorted : ((sortSidecars columns).map fun c => c.index.val).Pairwise (· < ·) :=
    List.pairwise_map.2 hordered
  have hperm := ((perm_sortByKey DataColumnSidecar.index columns).map
    fun c => c.index.val).trans hfull.indices
  exact hperm.eq_of_pairwise (fun a b _ _ hlt hlt' => absurd hlt' (Nat.lt_asymm hlt)) hsorted
    List.pairwise_lt_range

theorem DeliveryStep.complete (hfull : s.FullDelivery e columns)
    (hb : s.blocks.lookup e.message.beaconBlockRoot = some b) {done : List Call}
    (h : DeliveryStep s b e done t) (hdone : ∀ c ∈ deliveries e columns, c ∈ done) :
    t = s.afterDelivery e columns := by
  have hd := h.delivering
  have hstored : ∀ c ∈ columns, c ∈ t.sidecarsOf e.message.beaconBlockRoot := by
    intro c hc
    refine hd.stored c (List.mem_filterMap.2 ⟨_, hdone (.dataColumnSidecar c
      acceptAllExecutionPayloadVerifier) ?_, rfl⟩)
    exact List.mem_cons_of_mem _ (List.mem_map.2 ⟨c, hc, rfl⟩)
  have hsidecars := hfull.sidecarsOf_eq hd.columns hstored
  have hlookup : t.dataColumnSidecars.lookup e.message.beaconBlockRoot =
      some (sortSidecars columns) := by
    rw [← hsidecars, sidecarsOf]
    cases hr : t.dataColumnSidecars.lookup e.message.beaconBlockRoot with
    | some sidecars => rfl
    | none =>
      -- nothing stored would leave no column at all
      have hempty : sortSidecars columns = [] := by rw [← hsidecars, sidecarsOf, hr]; rfl
      have hindices := hfull.sorted_indices
      rw [hempty] at hindices
      cases hindices
  have hcomplete : hasCompleteColumnSet (sortSidecars columns) = true := by
    rw [← hsidecars, hd.columns.complete_iff, hsidecars]
    intro i hi
    have hmem : i ∈ (sortSidecars columns).map fun c => c.index.val :=
      hfull.sorted_indices ▸ List.mem_range.2 hi
    obtain ⟨c, hc, heq⟩ := List.mem_map.1 hmem
    exact ⟨c, hc, heq⟩
  have havailable : t.isDataAvailableWithSetup e.message.beaconBlockRoot = true := by
    rw [isDataAvailableWithSetup_iff (hd.blocks.symm ▸ hb)]
    refine .inr ⟨_, hlookup, hcomplete, ?_⟩
    rw [← hsidecars]
    exact hd.columns.verified
  obtain ⟨hpayload, hqueue⟩ : t.payloads.lookup e.message.beaconBlockRoot = some e.message ∧
      t.queuedPayloadEnvelopes.lookup e.message.beaconBlockRoot = none := by
    rcases h.arrived (hdone _ List.mem_cons_self) with hrecorded | ⟨-, hmissing⟩
    · exact hrecorded
    · rw [havailable] at hmissing
      cases hmissing
  have hpayloads : t.payloads = s.payloads.insert e.message.beaconBlockRoot e.message := by
    refine Finmap.ext_lookup fun r => ?_
    rw [lookup_insert_eq]
    split
    · next heq => rw [heq, hpayload]
    · next hne => exact hd.payloads hne
  have hqueued : t.queuedPayloadEnvelopes =
      s.queuedPayloadEnvelopes.erase e.message.beaconBlockRoot := by
    refine Finmap.ext_lookup fun r => ?_
    by_cases heq : r = e.message.beaconBlockRoot
    · rw [heq, hqueue, Finmap.lookup_erase]
    · rw [hd.queued heq, Finmap.lookup_erase_ne heq]
  have hcolumns : t.dataColumnSidecars =
      s.dataColumnSidecars.insert e.message.beaconBlockRoot (sortSidecars columns) := by
    refine Finmap.ext_lookup fun r => ?_
    rw [lookup_insert_eq]
    split
    · next heq => rw [heq, hlookup]
    · next hne => exact hd.sidecars hne
  rw [hd.rest, hpayloads, hqueued, hcolumns]
  rfl

end Interleaving

/-- Payload delivery. In every reachable store a recorded payload verifies against the state of its
block, and the block has no commitments or a complete verified set of columns is stored. From every
reachable store, all interleavings of an envelope that passes the consensus checks and a full set of
valid sidecars end in one store, with the payload recorded, no envelope queued for the block and
the sidecars stored once each in column order. -/
theorem payload_delivery {state : BeaconState} {anchor : BeaconBlock} {calls : List Call}
    (h₀ : getForkchoiceStore state anchor = .ok s)
    (hc : NoCollision state anchor (runBlocks anchor calls)) :
    (∀ r envelope, (s.run calls).payloads.lookup r = some envelope → ∃ b blockState signature,
      (s.run calls).blocks.lookup r = some b ∧
      (s.run calls).blockStates.lookup r = some blockState ∧
      blockState.verifyExecutionPayloadEnvelope ⟨envelope, signature⟩ = .ok () ∧
      (s.run calls).DataStored r b) ∧
    ∀ e columns, (s.run calls).FullDelivery e columns → ∃ t,
      (∀ interleaving, interleaving.Perm (deliveries e columns) →
        (s.run calls).run interleaving = t) ∧
      t.payloads.lookup e.message.beaconBlockRoot = some e.message ∧
      t.queuedPayloadEnvelopes.lookup e.message.beaconBlockRoot = none ∧
      ∃ sidecars, t.dataColumnSidecars.lookup e.message.beaconBlockRoot = some sidecars ∧
        sidecars.Perm columns ∧
        sidecars.map (fun c => c.index.val) = List.range numberOfColumns := by
  have hdelivered := Delivered.run h₀ hc
  refine ⟨fun r envelope hr => ?_, fun e columns hfull => ?_⟩
  · obtain ⟨⟨blockState, signature, hstate, hverified⟩, havailable⟩ := hdelivered.payload hr
    obtain ⟨b, hb⟩ := isDataAvailableWithSetup_mem havailable
    exact ⟨b, blockState, signature, hb, hstate, hverified,
      (isDataAvailableWithSetup_iff hb).1 havailable⟩
  · -- there is a first column, so the block is stored and the trusted setup is loaded
    obtain ⟨c, hcmem⟩ : ∃ c, c ∈ columns := by
      have hmem : 0 ∈ columns.map fun c => c.index.val :=
        hfull.indices.mem_iff.2 (List.mem_range.2 (by decide))
      obtain ⟨c, hc, -⟩ := List.mem_map.1 hmem
      exact ⟨c, hc⟩
    have hvalid := hfull.valid c hcmem
    obtain ⟨b, hb, -⟩ := checkSidecar_verifies hvalid
    rw [hfull.root c hcmem] at hb
    have hsetup : defaultKzgSetup = .ok () := by
      obtain ⟨_, hsetup, -⟩ := bind_eq_ok.1 hvalid
      exact hsetup
    have hstart : DeliveryStep (s.run calls) b e [] (s.run calls) :=
      ⟨⟨rfl, fun _ => rfl, fun _ => rfl, fun _ => rfl, hdelivered.columns_of hb, nofun,
        hdelivered.queued⟩, nofun⟩
    refine ⟨(s.run calls).afterDelivery e columns, fun interleaving hperm => ?_,
      Finmap.lookup_insert _, Finmap.lookup_erase _ _, sortSidecars columns,
      Finmap.lookup_insert _, perm_sortByKey _ _, hfull.sorted_indices⟩
    have hsteps := DeliveryStep.run hfull hb hsetup (fun c hc => hperm.mem_iff.1 hc)
      (fun c hc => absurd hc List.not_mem_nil) hstart
    refine hsteps.complete hfull hb fun c hc => ?_
    rw [List.append_nil, List.mem_reverse]
    exact hperm.mem_iff.2 hc

end Store

end Moonglass

namespace Moonglass.Devnet

open Lib List

/-- A genesis block whose bid commits to one blob. -/
def blobGenesis : BeaconBlock :=
  { genesis with
    body := body 0 { bid 0 Root.ZERO with blobKzgCommitments := ⟨[zeros 48], by decide⟩ } }

def blobColumn (index : ColumnIndex) : DataColumnSidecar :=
  { index, column := ⟨[zeros _], by decide⟩, kzgProofs := ⟨[zeros 48], by decide⟩
    slot := 0, beaconBlockRoot := blobGenesis.treeRoot }

def blobColumns : List DataColumnSidecar :=
  (List.range numberOfColumns).map fun i => blobColumn (Word.wrap i)

theorem blobDelivery : (seed blobGenesis).FullDelivery genesisEnvelope blobColumns where
  envelope := by
    have heval : ((seed blobGenesis).verifyExecutionPayloadEnvelopeConsensus genesisEnvelope).isOk =
        true := by decide +kernel
    obtain ⟨_, h⟩ := exists_ok_of_isOk heval
    exact h
  root := by
    intro c hc
    obtain ⟨i, -, rfl⟩ := mem_map.1 hc
    rfl
  valid := by
    have heval : blobColumns.all (fun c => ((seed blobGenesis).checkSidecar c).isOk) = true := by
      decide +kernel
    intro c hc
    obtain ⟨_, h⟩ := exists_ok_of_isOk (all_eq_true.1 heval c hc)
    exact h
  indices := by
    have heval : blobColumns.map (fun c => c.index.val) = List.range numberOfColumns := by
      decide +kernel
    rw [heval]

/-- In the small network every interleaving of the envelope and its columns records the payload. -/
theorem payload_delivery_blobGenesis : ∃ t,
    (∀ interleaving, interleaving.Perm (Store.deliveries genesisEnvelope blobColumns) →
      ((seed blobGenesis).run []).run interleaving = t) ∧
    t.payloads.lookup blobGenesis.treeRoot = some genesisEnvelope.message := by
  have h₀ : getForkchoiceStore (stateAfter blobGenesis) blobGenesis = .ok (seed blobGenesis) :=
    getForkchoiceStore_seed rfl (by decide)
  have hc : NoCollision (stateAfter blobGenesis) blobGenesis (runBlocks blobGenesis []) :=
    noCollision rfl (nodup_singleton _)
  obtain ⟨t, hsame, hrecorded, -⟩ := (Store.payload_delivery h₀ hc).2 _ _ blobDelivery
  exact ⟨t, hsame, hrecorded⟩

end Moonglass.Devnet
