import Moonglass.ForkChoice.Effect
import Moonglass.ForkChoice.Filter

/-
  The invariant of a run. The stored blocks form a tree under the anchor, each with the state that
  its block leads to from its parent's state; every vote is for a stored block that is not newer
  than the vote, and older than the clock. A run never loses a block, a state or a payload.
-/

namespace Moonglass

open Lib HashMap BeaconState

variable [Preset] [Crypto]
variable {r : Root} {p anchor : BeaconBlock} {a : Attestation} {P : Store → Prop}
  {calls : List Call}

/-- The transition of a block does not depend on its signature, once that is accepted. -/
theorem BeaconState.stateTransition_congr {s state state' : BeaconState} {b b' : SignedBeaconBlock}
    (hb : b.message = b'.message) (h : s.stateTransition b = .ok state)
    (h' : s.stateTransition b' = .ok state') : state = state' := by
  obtain ⟨s₁, hs₁, hstate, -⟩ := stateTransition_parts h
  obtain ⟨s₂, hs₂, hstate', -⟩ := stateTransition_parts h'
  rw [← hb] at hs₂ hstate'
  cases hs₁.symm.trans hs₂
  exact Except.ok.inj (hstate.symm.trans hstate')

/-- Where a run starts and which blocks it is handed, none of them colliding. -/
structure Origin where
  state : BeaconState
  anchor : BeaconBlock
  blocks : List BeaconBlock
  anchor_mem : anchor ∈ blocks
  state_root : anchor.stateRoot = state.treeRoot
  noCollision : NoCollision state anchor blocks

/-- The root of the anchor block. -/
abbrev Origin.root (g : Origin) : Root := g.anchor.treeRoot

namespace Store

/-- A stored block, its stored parent and the states of both. -/
structure Extends (s : Store) (b p : BeaconBlock) (parentState state : BeaconState) : Prop where
  parent : s.blocks.lookup b.parentRoot = some p
  parent_state : s.blockStates.lookup b.parentRoot = some parentState
  post_state : s.blockStates.lookup b.treeRoot = some state
  transition : ∃ signature, parentState.stateTransition ⟨b, signature⟩ = .ok state
  full : parentBranch b p = .full → b.parentRoot ∈ s.payloads
  past : b.slot ≤ s.getCurrentSlot

/-- A vote for a stored block, cast at or after its slot and before the current slot. -/
structure VoteStored (s : Store) (m : LatestMessage) : Prop where
  block : ∃ b, s.blocks.lookup m.root = some b ∧ b.slot ≤ m.slot
  payload : m.payloadPresent = true → m.root ∈ s.payloads
  past : m.slot.val + 1 ≤ s.getCurrentSlot.val

/-- The invariant of every run from `g`. -/
structure Inv (g : Origin) (s : Store) : Prop where
  anchor_block : s.blocks.lookup g.root = some g.anchor
  anchor_state : s.blockStates.lookup g.root = some g.state
  block : ∀ {r b}, s.blocks.lookup r = some b → b ∈ g.blocks ∧ b.treeRoot = r
  state_mem : ∀ {r}, r ∈ s.blockStates → r ∈ s.blocks
  child : ∀ {r b}, s.blocks.lookup r = some b → r ≠ g.root →
    ∃ p parentState state, Extends s b p parentState state
  descends : ∀ {r b}, s.blocks.lookup r = some b → DescendsFrom g.anchor g.blocks b
  payload_mem : ∀ {r}, r ∈ s.payloads → r ∈ s.blocks
  vote : ∀ {v m}, s.latestMessages.lookup v = some m → VoteStored s m
  boost : s.proposerBoostRoot = Root.ZERO ∨ s.proposerBoostRoot ∈ s.blocks
  timeliness : ∀ {r}, r ∈ s.blocks → r ∈ s.blockTimeliness
  unrealized : ∀ {r}, r ∈ s.blocks → r ∈ s.unrealizedJustifications
  timelinessVote : ∀ r, (s.payloadTimelinessVote.lookup r).map List.length =
    if r ∈ s.blocks ∧ r ≠ g.root then some ptcSize else none
  availabilityVote : ∀ r, (s.payloadDataAvailabilityVote.lookup r).map List.length =
    if r ∈ s.blocks ∧ r ≠ g.root then some ptcSize else none

variable {g : Origin} {s s' : Store}

/-! ## Growth -/

/-- Nothing stored is lost or replaced, and the clock does not go back. -/
structure Grows (s s' : Store) : Prop where
  blocks : ∀ {r b}, s.blocks.lookup r = some b → s'.blocks.lookup r = some b
  states : ∀ {r state}, s.blockStates.lookup r = some state → s'.blockStates.lookup r = some state
  payloads : ∀ {r}, r ∈ s.payloads → r ∈ s'.payloads
  clock : s.getCurrentSlot ≤ s'.getCurrentSlot

variable {parentState state : BeaconState} {b : BeaconBlock}

namespace Grows

omit [Crypto] in
theorem mem_blocks (h : Grows s s') (hr : r ∈ s.blocks) : r ∈ s'.blocks := by
  obtain ⟨b, hb⟩ := mem_iff_lookup.1 hr
  exact mem_of_lookup (h.blocks hb)

theorem extension (h : Grows s s')
    (hb : Extends s b p parentState state) : Extends s' b p parentState state :=
  ⟨h.blocks hb.parent, h.states hb.parent_state, h.states hb.post_state, hb.transition,
    fun hfull => h.payloads (hb.full hfull), Nat.le_trans hb.past h.clock⟩

omit [Crypto] in
theorem vote (h : Grows s s') {m : LatestMessage} (hm : VoteStored s m) : VoteStored s' m := by
  obtain ⟨b, hb, hslot⟩ := hm.block
  exact ⟨⟨b, h.blocks hb, hslot⟩, fun hp => h.payloads (hm.payload hp),
    Nat.le_trans hm.past h.clock⟩

end Grows

/-! ## The tree of a run -/

variable {state : BeaconState}

namespace Inv

/-- What the transition to a stored block has checked. -/
theorem transitioned (h : Extends s b p parentState state) : parentState.Transitioned b state := by
  obtain ⟨signature, h⟩ := h.transition
  exact stateTransition_chain ⟨b, signature⟩ state h

theorem child_of (inv : Inv g s) (hb : s.blocks.lookup r = some b) (hr : r ≠ g.root)
    (hstate : s.blockStates.lookup r = some state) :
    ∃ p parentState, Extends s b p parentState state := by
  obtain ⟨p, parentState, state', h⟩ := inv.child hb hr
  have hstate' := h.post_state
  rw [(inv.block hb).2, hstate] at hstate'
  cases hstate'
  exact ⟨p, parentState, h⟩

/-- The header in the parent's state is the parent's header. -/
theorem header_slot (inv : Inv g s)
    (h : Extends s b p parentState state) : parentState.latestBlockHeader.slot = p.slot := by
  by_cases hr : b.parentRoot = g.root
  · have hp := h.parent
    rw [hr, inv.anchor_block] at hp
    have hstate := h.parent_state
    rw [hr, inv.anchor_state] at hstate
    cases hp
    cases hstate
    obtain ⟨r, hparent⟩ := (transitioned h).parent_root
    exact g.noCollision.header_slot r (hparent.symm.trans hr)
  · obtain ⟨q, grandState, hq⟩ := inv.child_of h.parent hr h.parent_state
    rw [(transitioned hq).header]
    rfl

/-- The stored blocks form a tree under the anchor. -/
theorem tree (inv : Inv g s) : BlockTree s g.root where
  anchor_mem := mem_of_lookup inv.anchor_block
  parent := by
    intro r b hb hr
    obtain ⟨p, parentState, state, h⟩ := inv.child hb hr
    exact ⟨p, h.parent, inv.header_slot h ▸ (transitioned h).header_slot_lt⟩

/-- The parent of the anchor is not stored, so no walk goes past the anchor. -/
theorem anchor_parent (inv : Inv g s) : g.anchor.parentRoot ∉ s.blocks := by
  intro hmem
  obtain ⟨b, hb⟩ := mem_iff_lookup.1 hmem
  exact g.noCollision.acyclic b (inv.descends hb) (.inl (inv.block hb).2)

theorem rooted (inv : Inv g s) : RootedTree s g.root where
  toBlockTree := inv.tree
  anchor_parent := by
    intro b hb
    rw [inv.anchor_block] at hb
    cases hb
    exact inv.anchor_parent

end Inv

/-! ## Steps without a block -/

/-- What a step that imports no block does to the parts the invariant speaks about. -/
structure Kept (s s' : Store) : Prop where
  blocks : s'.blocks = s.blocks
  states : s'.blockStates = s.blockStates
  time : s.time ≤ s'.time ∧ s'.genesisTime = s.genesisTime
  payloads : ∀ {r}, r ∈ s.payloads → r ∈ s'.payloads
  payload_mem : ∀ {r}, r ∈ s'.payloads → r ∈ s.payloads ∨ r ∈ s.blockStates
  vote : ∀ {v m}, s'.latestMessages.lookup v = some m →
    s.latestMessages.lookup v = some m ∨ VoteStored s m
  boost : s'.proposerBoostRoot = s.proposerBoostRoot ∨ s'.proposerBoostRoot = Root.ZERO
  timeliness : s'.blockTimeliness = s.blockTimeliness
  unrealized : s'.unrealizedJustifications = s.unrealizedJustifications
  timelinessVote : ∀ r, (s'.payloadTimelinessVote.lookup r).map List.length =
    (s.payloadTimelinessVote.lookup r).map List.length
  availabilityVote : ∀ r, (s'.payloadDataAvailabilityVote.lookup r).map List.length =
    (s.payloadDataAvailabilityVote.lookup r).map List.length
  unrealizedJustified : s'.unrealizedJustifiedCheckpoint = s.unrealizedJustifiedCheckpoint
  justified : s'.justifiedCheckpoint = s.justifiedCheckpoint ∨
    s'.justifiedCheckpoint = s.unrealizedJustifiedCheckpoint ∧
      s.getCurrentSlot < s'.getCurrentSlot ∧
      s.justifiedCheckpoint.epoch < s.unrealizedJustifiedCheckpoint.epoch
  cache : ∀ {c state}, s'.checkpointStates.lookup c = some state →
    s.checkpointStates.lookup c = some state ∨ s.targetCheckpointState c = .ok state
  cached : ∀ {c state}, s.checkpointStates.lookup c = some state →
    s'.checkpointStates.lookup c = some state

omit [Crypto] in
theorem slotAtTime_mono (s : Store) {time time' : U64} (h : time ≤ time') :
    s.slotAtTime time ≤ s.slotAtTime time' := by
  have hle : time.val ≤ time'.val := h
  rw [Fin.le_def, slotAtTime_val, slotAtTime_val]
  refine Nat.div_le_div_right ?_
  omega

theorem Kept.clock (h : Kept s s') : s.getCurrentSlot ≤ s'.getCurrentSlot := by
  rw [getCurrentSlot, getCurrentSlot, slotAtTime_congr h.time.2]
  exact s.slotAtTime_mono h.time.1

theorem Kept.grows (h : Kept s s') : Grows s s' :=
  ⟨fun hb => h.blocks ▸ hb, fun hs => h.states ▸ hs, h.payloads, h.clock⟩

theorem Inv.kept (inv : Inv g s) (h : Kept s s') : Inv g s' where
  anchor_block := h.blocks ▸ inv.anchor_block
  anchor_state := h.states ▸ inv.anchor_state
  block := by
    rw [h.blocks]
    exact inv.block
  state_mem := by
    rw [h.blocks, h.states]
    exact inv.state_mem
  child := by
    rw [h.blocks]
    intro r b hb hr
    obtain ⟨p, parentState, state, hext⟩ := inv.child hb hr
    exact ⟨p, parentState, state, h.grows.extension hext⟩
  descends := by
    rw [h.blocks]
    exact inv.descends
  payload_mem := by
    intro r hr
    rw [h.blocks]
    rcases h.payload_mem hr with hr | hr
    · exact inv.payload_mem hr
    · exact inv.state_mem hr
  vote := by
    intro v m hm
    rcases h.vote hm with hm | hm
    · exact h.grows.vote (inv.vote hm)
    · exact h.grows.vote hm
  boost := by
    rw [h.blocks]
    rcases h.boost with hb | hb
    · rw [hb]; exact inv.boost
    · exact .inl hb
  timeliness := by
    rw [h.blocks, h.timeliness]
    exact inv.timeliness
  unrealized := by
    rw [h.blocks, h.unrealized]
    exact inv.unrealized
  timelinessVote r := by
    rw [h.timelinessVote, h.blocks]
    exact inv.timelinessVote r
  availabilityVote r := by
    rw [h.availabilityVote, h.blocks]
    exact inv.availabilityVote r

/-- A step that writes no part the invariant speaks about. -/
theorem Kept.of_fields (hblocks : s'.blocks = s.blocks) (hstates : s'.blockStates = s.blockStates)
    (htime : (s'.time, s'.genesisTime) = (s.time, s.genesisTime))
    (hpayloads : s'.payloads = s.payloads)
    (hvotes : (s'.latestMessages, s'.proposerBoostRoot) = (s.latestMessages, s.proposerBoostRoot))
    (hrest : (s'.blockTimeliness, s'.unrealizedJustifications, s'.payloadTimelinessVote,
      s'.payloadDataAvailabilityVote) = (s.blockTimeliness, s.unrealizedJustifications,
        s.payloadTimelinessVote, s.payloadDataAvailabilityVote))
    (hcheckpoints : (s'.justifiedCheckpoint, s'.unrealizedJustifiedCheckpoint, s'.checkpointStates) =
      (s.justifiedCheckpoint, s.unrealizedJustifiedCheckpoint, s.checkpointStates)) : Kept s s' := by
  simp only [Prod.mk.injEq] at htime hvotes hrest hcheckpoints
  exact ⟨hblocks, hstates, ⟨htime.1.ge, htime.2⟩, fun h => hpayloads ▸ h, fun h => .inl (hpayloads ▸ h),
    fun h => .inl (hvotes.1 ▸ h), .inl hvotes.2, hrest.1, hrest.2.1,
    fun r => by rw [hrest.2.2.1], fun r => by rw [hrest.2.2.2], hcheckpoints.2.1,
    .inl hcheckpoints.1, fun h => .inl (hcheckpoints.2.2 ▸ h), fun h => hcheckpoints.2.2 ▸ h⟩

theorem onTickPerSlot_kept {time : U64} (h : s.time ≤ time) : Kept s (s.onTickPerSlot time) := by
  obtain ⟨boost, justified, finalized, heq, hboost, hjustified, -⟩ := s.onTickPerSlot_eq time
  rw [heq]
  exact ⟨rfl, rfl, ⟨h, rfl⟩, id, .inl, .inl, hboost, rfl, rfl, fun _ => rfl,
    fun _ => rfl, rfl, hjustified, .inl, id⟩

omit [Crypto] in
/-- An accepted attestation's vote is for a stored block. -/
theorem ValidAttestation.voteStored (h : ValidAttestation s a) :
    VoteStored s (attestationMessage a) :=
  ⟨h.block, fun hp => h.payload (beq_iff_eq.1 hp), h.past⟩

theorem onAttestation_kept {isFromBlock : Bool} (h : s.onAttestation a isFromBlock = .ok s') :
    Kept s s' := by
  obtain ⟨s₁, targetState, attesters, hvalid, hs₁, -, -, rfl⟩ := onAttestation_effect h
  -- up to the votes, only the cache of target states is new
  have hcache : s₁ = { s with checkpointStates := s₁.checkpointStates } := by
    rcases storeTargetCheckpointState_eq _ s₁ hs₁ with ⟨rfl, -⟩ | ⟨state, -, -, rfl⟩
    · rfl
    · rfl
  have hnew : ∀ {c state}, s₁.checkpointStates.lookup c = some state →
      s.checkpointStates.lookup c = some state ∨ s.targetCheckpointState c = .ok state := by
    intro c state hc
    rcases storeTargetCheckpointState_eq _ s₁ hs₁ with ⟨rfl, -⟩ | ⟨state', -, hstate', rfl⟩
    · exact .inl hc
    · rcases of_lookup_insert hc with ⟨rfl, rfl⟩ | hc
      · exact .inr hstate'
      · exact .inl hc
  have hold : ∀ {c state}, s.checkpointStates.lookup c = some state →
      s₁.checkpointStates.lookup c = some state := by
    intro c state hc
    rcases storeTargetCheckpointState_eq _ s₁ hs₁ with ⟨rfl, -⟩ | ⟨state', hmissing, -, rfl⟩
    · exact hc
    · rw [lookup_insert_eq, if_neg, hc]
      rintro rfl
      exact hmissing (mem_of_lookup hc)
  refine ⟨by rw [hcache]; rfl, by rw [hcache]; rfl, by rw [hcache]; exact ⟨le_rfl, rfl⟩,
    by rw [hcache]; exact id, by rw [hcache]; exact .inl, ?_, by rw [hcache]; exact .inl rfl,
    by rw [hcache]; rfl, by rw [hcache]; rfl, by rw [hcache]; exact fun _ => rfl,
    by rw [hcache]; exact fun _ => rfl, by rw [hcache]; rfl, by rw [hcache]; exact .inl rfl, hnew,
    hold⟩
  intro v m hm
  rcases s₁.updateLatestMessages_lookup attesters a v with hold | hnew
  · rw [hold, hcache] at hm
    exact .inl hm
  · rw [hnew] at hm
    cases hm
    exact .inr hvalid.voteStored

theorem VotesOnly.kept (h : VotesOnly s s') : Kept s s' := by
  have htimeliness := h.timeliness
  have havailability := h.availability
  rw [h.eq] at htimeliness havailability ⊢
  exact ⟨rfl, rfl, ⟨le_rfl, rfl⟩, id, .inl, .inl, .inl rfl, rfl, rfl, htimeliness, havailability,
    rfl, .inl rfl, .inl, id⟩

theorem recordVerifiedExecutionPayloadEnvelope_kept {e : SignedExecutionPayloadEnvelope}
    (h : EnvelopeVerified s e) : Kept s (s.recordVerifiedExecutionPayloadEnvelope e) := by
  obtain ⟨state, hstate, -⟩ := h
  refine ⟨rfl, rfl, ⟨le_rfl, rfl⟩, fun hr => ?_, fun hr => ?_, .inl, .inl rfl, rfl, rfl,
    fun _ => rfl, fun _ => rfl, rfl, .inl rfl, .inl, id⟩
  · exact Finmap.mem_insert.2 (.inr hr)
  · rcases Finmap.mem_insert.1 hr with rfl | hr
    · exact .inr (mem_of_lookup hstate)
    · exact .inl hr

/-- A step imports a block or keeps what the invariant speaks about. -/
theorem Step.kept_or_block {blk : BeaconBlock → Prop} (h : Step blk s s') :
    Kept s s' ∨ ∃ o b, blk b.message ∧ s.onBlock o b = .ok s' := by
  cases h with
  | tick hle _ => exact .inl (onTickPerSlot_kept hle)
  | block hb h => exact .inr ⟨_, _, hb, h⟩
  | attestation h => exact .inl (onAttestation_kept h)
  | attesterSlashing h =>
    rw [onAttesterSlashing_eq h]
    exact .inl (Kept.of_fields rfl rfl rfl rfl rfl rfl rfl)
  | payloadAttestation h => exact .inl (onPayloadAttestationMessageInner_votes _ _ _ h).kept
  | envelope h =>
    obtain ⟨hverified, ⟨-, rfl⟩ | ⟨-, rfl⟩⟩ := onExecutionPayloadEnvelope_effect _ h
    · exact .inl (recordVerifiedExecutionPayloadEnvelope_kept hverified)
    · exact .inl (Kept.of_fields rfl rfl rfl rfl rfl rfl rfl)
  | sidecar h => exact .inl (Kept.of_fields rfl rfl rfl rfl rfl rfl rfl)
  | release h =>
    rcases processQueuedPayloadEnvelope_effect _ h with rfl | ⟨e, -, hverified, -, rfl⟩
    · exact .inl (Kept.of_fields rfl rfl rfl rfl rfl rfl rfl)
    · exact .inl (recordVerifiedExecutionPayloadEnvelope_kept hverified)

/-! ## Blocks -/

section Import

variable {b : SignedBeaconBlock} {parentState state pulledUp : BeaconState}

/-- The anchor cannot be imported again: its parent is not stored. -/
theorem Inv.imported_ne_anchor (inv : Inv g s) (hb : b.message ∈ g.blocks)
    (hparent : s.blockStates.lookup b.message.parentRoot = some parentState) :
    b.message.treeRoot ≠ g.root := by
  intro h
  have heq := g.noCollision.block_eq _ hb _ g.anchor_mem h
  refine inv.anchor_parent ?_
  rw [← heq]
  exact inv.state_mem (mem_of_lookup hparent)

theorem Inv.stored (inv : Inv g s) (hb : b.message ∈ g.blocks)
    (hmem : b.message.treeRoot ∈ s.blocks) :
    s.blocks.lookup b.message.treeRoot = some b.message := by
  obtain ⟨b', hb'⟩ := mem_iff_lookup.1 hmem
  obtain ⟨hin, hroot⟩ := inv.block hb'
  rwa [g.noCollision.block_eq b' hin b.message hb hroot] at hb'

/-- A block whose root is stored already is the stored block, and leads to the stored state. -/
theorem Inv.reimport (inv : Inv g s) (hb : b.message ∈ g.blocks)
    (hparent : s.blockStates.lookup b.message.parentRoot = some parentState)
    (hstate : parentState.stateTransition b = .ok state) (hmem : b.message.treeRoot ∈ s.blocks) :
    s.blocks.lookup b.message.treeRoot = some b.message ∧
      s.blockStates.lookup b.message.treeRoot = some state := by
  have hb' := inv.stored hb hmem
  refine ⟨hb', ?_⟩
  obtain ⟨p, parentState', state', hext⟩ := inv.child hb' (inv.imported_ne_anchor hb hparent)
  cases hparent.symm.trans hext.parent_state
  obtain ⟨signature, htransition⟩ := hext.transition
  have heq : b.message = (⟨b.message, signature⟩ : SignedBeaconBlock).message := rfl
  rw [hext.post_state, stateTransition_congr heq hstate htransition]

theorem Inv.imported_grows (inv : Inv g s) (hb : b.message ∈ g.blocks)
    (hparent : s.blockStates.lookup b.message.parentRoot = some parentState)
    (hstate : parentState.stateTransition b = .ok state)
    (himported : Imported s b.message state pulledUp s') : Grows s s' := by
  refine ⟨fun {r b'} hr => ?_, fun {r state'} hr => ?_, fun hr => himported.payloads ▸ hr, ?_⟩
  · rw [himported.blocks, lookup_insert_eq]
    by_cases h : r = b.message.treeRoot
    · subst h
      have := (inv.reimport hb hparent hstate (mem_of_lookup hr)).1
      rw [if_pos rfl, ← hr, this]
    · rw [if_neg h, hr]
  · rw [himported.blockStates, lookup_insert_eq]
    by_cases h : r = b.message.treeRoot
    · subst h
      have hmem := inv.state_mem (mem_of_lookup hr)
      rw [if_pos rfl, ← hr, (inv.reimport hb hparent hstate hmem).2]
    · rw [if_neg h, hr]
  · rw [getCurrentSlot, getCurrentSlot, himported.time, slotAtTime_congr himported.genesisTime]

/-- The vote vectors stay in step with the blocks. -/
theorem Inv.voteKeys (inv : Inv g s) (hb : b.message ∈ g.blocks)
    (hparent : s.blockStates.lookup b.message.parentRoot = some parentState)
    (himported : Imported s b.message state pulledUp s') {length : Option Nat}
    (h : length = if r ∈ s.blocks ∧ r ≠ g.root then some ptcSize else none) :
    (if r = b.message.treeRoot then some ptcSize else length) =
      if r ∈ s'.blocks ∧ r ≠ g.root then some ptcSize else none := by
  have hne := inv.imported_ne_anchor hb hparent
  have hmem : r ∈ s'.blocks ↔ r = b.message.treeRoot ∨ r ∈ s.blocks := by
    rw [himported.blocks, Finmap.mem_insert]
  simp only [h, hmem]
  by_cases hr : r = b.message.treeRoot
  · rw [if_pos hr, if_pos ⟨.inl hr, hr ▸ hne⟩]
  · simp only [hr, if_false, false_or]

/-- An imported block keeps the invariant. -/
theorem Inv.imported (inv : Inv g s) (hb : b.message ∈ g.blocks)
    (hparent : s.blockStates.lookup b.message.parentRoot = some parentState)
    (hchecked : BlockChecked s b.message) (hstate : parentState.stateTransition b = .ok state)
    (himported : Imported s b.message state pulledUp s') : Inv g s' := by
  have hgrows := inv.imported_grows hb hparent hstate himported
  -- a stored block is the new one or was stored before
  have hcases : ∀ {r b'}, s'.blocks.lookup r = some b' →
      r = b.message.treeRoot ∧ b' = b.message ∨ s.blocks.lookup r = some b' := by
    intro r b' hr
    exact of_lookup_insert (himported.blocks ▸ hr)
  exact
    { anchor_block := hgrows.blocks inv.anchor_block
      anchor_state := hgrows.states inv.anchor_state
      block := by
        intro r b' hr
        rcases hcases hr with ⟨rfl, rfl⟩ | hr
        · exact ⟨hb, rfl⟩
        · exact inv.block hr
      state_mem := by
        intro r hr
        rw [himported.blockStates, Finmap.mem_insert] at hr
        rw [himported.blocks, Finmap.mem_insert]
        exact hr.imp id inv.state_mem
      child := by
        intro r b' hr hne
        rcases hcases hr with ⟨rfl, rfl⟩ | hr
        · obtain ⟨p, hp, hfull⟩ := hchecked.parent
          refine ⟨p, parentState, state, hgrows.blocks hp, hgrows.states hparent, ?_,
            ⟨b.signature, hstate⟩, fun h => hgrows.payloads (hfull h),
            Nat.le_trans hchecked.past hgrows.clock⟩
          rw [himported.blockStates, lookup_insert_eq, if_pos rfl]
        · obtain ⟨p, parentState', state', hext⟩ := inv.child hr hne
          exact ⟨p, parentState', state', hgrows.extension hext⟩
      descends := by
        intro r b' hr
        rcases hcases hr with ⟨rfl, rfl⟩ | hr
        · obtain ⟨p, hp, -⟩ := hchecked.parent
          exact .child (inv.descends hp) hb (inv.block hp).2.symm
        · exact inv.descends hr
      payload_mem := fun hr => hgrows.mem_blocks (inv.payload_mem (himported.payloads ▸ hr))
      vote := fun hm => hgrows.vote (inv.vote (himported.latestMessages ▸ hm))
      boost := by
        rcases himported.proposerBoostRoot with h | h
        · rw [h]
          exact inv.boost.imp id hgrows.mem_blocks
        · rw [h, himported.blocks]
          exact .inr (Finmap.mem_insert.2 (.inl rfl))
      timeliness := by
        intro r hr
        rw [himported.blocks, Finmap.mem_insert] at hr
        rw [himported.blockTimeliness, Finmap.mem_insert]
        exact hr.imp id inv.timeliness
      unrealized := by
        intro r hr
        rw [himported.blocks, Finmap.mem_insert] at hr
        rw [himported.unrealizedJustifications, Finmap.mem_insert]
        exact hr.imp id inv.unrealized
      timelinessVote := fun r => (himported.timelinessVote r).trans
        (inv.voteKeys hb hparent himported (inv.timelinessVote r))
      availabilityVote := fun r => (himported.availabilityVote r).trans
        (inv.voteKeys hb hparent himported (inv.availabilityVote r)) }

end Import

/-! ## Runs -/

/-- Every step keeps the invariant and loses nothing. -/
theorem Inv.step (inv : Inv g s) (h : Step (· ∈ g.blocks) s s') : Inv g s' ∧ Grows s s' := by
  rcases h.kept_or_block with h | ⟨o, b, hb, h⟩
  · exact ⟨inv.kept h, h.grows⟩
  · obtain ⟨parentState, state, pulledUp, head, hparent, hchecked, hstate, -, himported⟩ :=
      onBlock_effect h
    exact ⟨inv.imported hb hparent hchecked hstate himported,
      inv.imported_grows hb hparent hstate himported⟩

/-- The store an accepted anchor gives; its clock shows the start of the anchor state's slot. -/
theorem getForkchoiceStore_eq (h : getForkchoiceStore state anchor = .ok s) : ∃ time : U64,
      anchor.stateRoot = state.treeRoot ∧
      time.val = state.genesisTime.val + state.slot.val * slotDurationMs / 1000 ∧
      state.slot.val * slotDurationMs < 2 ^ 64 ∧ s = Store.seed state anchor time := by
  unfold getForkchoiceStore at h
  obtain ⟨_, hroot, h⟩ := bind_eq_ok.1 h
  obtain ⟨time, htime, h⟩ := bind_eq_ok.1 h
  cases h
  obtain ⟨product, hproduct, htime⟩ := Option.bind_eq_some_iff.1 (orFail_eq_ok.1 htime)
  rw [Word.checkedMul_eq_some] at hproduct
  rw [Word.checkedAdd_eq_some, hproduct] at htime
  exact ⟨time, require_eq_ok.1 hroot, htime, hproduct ▸ product.isLt, rfl⟩

theorem Inv.seed (g : Origin) (time : U64) : Inv g (Store.seed g.state g.anchor time) where
  anchor_block := Finmap.lookup_singleton_eq
  anchor_state := Finmap.lookup_singleton_eq
  block := by
    intro r b hb
    obtain ⟨rfl, rfl⟩ := eq_of_lookup_singleton hb
    exact ⟨g.anchor_mem, rfl⟩
  state_mem := by
    intro r hr
    rw [Store.seed, Finmap.mem_singleton] at hr ⊢
    exact hr
  child := fun hb hr => absurd (eq_of_lookup_singleton hb).1 hr
  descends := by
    intro r b hb
    obtain ⟨-, rfl⟩ := eq_of_lookup_singleton hb
    exact .anchor
  payload_mem := fun hr => absurd hr Finmap.notMem_empty
  vote := by
    intro v m hm
    cases hm
  boost := .inl rfl
  timeliness := fun hr => (Finmap.mem_singleton _ _ _).2 ((Finmap.mem_singleton _ _ _).1 hr)
  unrealized := fun hr => (Finmap.mem_singleton _ _ _).2 ((Finmap.mem_singleton _ _ _).1 hr)
  timelinessVote := by
    intro r
    rw [if_neg fun h => h.2 ((Finmap.mem_singleton _ _ _).1 h.1)]
    rfl
  availabilityVote := by
    intro r
    rw [if_neg fun h => h.2 ((Finmap.mem_singleton _ _ _).1 h.1)]
    rfl

/-- The origin of a run from an accepted anchor. -/
def originOfRun {state : BeaconState} {anchor : BeaconBlock} {calls : List Call}
    (h : getForkchoiceStore state anchor = .ok s)
    (hc : NoCollision state anchor (runBlocks anchor calls)) : Origin where
  state := state
  anchor := anchor
  blocks := runBlocks anchor calls
  anchor_mem := List.mem_cons_self
  state_root := (getForkchoiceStore_eq h).choose_spec.1
  noCollision := hc

/-- The rule for runs whose blocks are all in a list: what holds of the seeded store and is kept by
every step holds at the end. -/
theorem run_inv_within {blocks : List BeaconBlock} (h : getForkchoiceStore state anchor = .ok s)
    (hblocks : ∀ b ∈ calls.filterMap Call.importedBlock, b ∈ blocks)
    (hseed : ∀ time, P (Store.seed state anchor time))
    (hstep : ∀ s₁ s₂, P s₁ → Step (· ∈ blocks) s₁ s₂ → P s₂) : P (s.run calls) := by
  obtain ⟨time, -, -, -, rfl⟩ := getForkchoiceStore_eq h
  exact (run_steps _ calls hblocks).inv hstep (hseed time)

theorem run_inv (h : getForkchoiceStore state anchor = .ok s)
    (hseed : ∀ time, P (Store.seed state anchor time))
    (hstep : ∀ s₁ s₂, P s₁ → Step (· ∈ runBlocks anchor calls) s₁ s₂ → P s₂) : P (s.run calls) :=
  run_inv_within h (fun _ hb => List.mem_cons_of_mem _ hb) hseed hstep

/-- Every store of a run from an accepted anchor satisfies the invariant. -/
theorem Inv.run (h : getForkchoiceStore state anchor = .ok s)
    (hc : NoCollision state anchor (runBlocks anchor calls)) :
    Inv (originOfRun h hc) (s.run calls) :=
  run_inv h (fun time => Inv.seed (originOfRun h hc) time) fun _ _ inv hstep => (inv.step hstep).1

end Store

end Moonglass
