import Moonglass.ForkChoice.Invariant
import Moonglass.StateTransition.Finality
import Moonglass.Devnet

/-
  The checkpoints of the store in closed form. Blocks, past-epoch pull-ups and epoch ticks raise
  the checkpoints of the store, each to the newer of two epochs; so the epochs they hold are the
  maxima of what the stored blocks offer, whatever the order in which these arrived. `offeredEpochs`
  and `pulledEpochs` are these offers; a step adds to them exactly what it raises the checkpoints to.
-/

namespace Moonglass

open Lib HashMap BeaconState

variable [Preset] [Crypto]

namespace Store

variable {s s' : Store}

omit [Preset] [Crypto] in
theorem raise_epoch (old new : Checkpoint) : (raise old new).epoch = max old.epoch new.epoch := by
  unfold raise
  split
  · exact (max_eq_right (le_of_lt ‹_›)).symm
  · exact (max_eq_left (not_lt.1 ‹_›)).symm

omit [Preset] [Crypto] in
theorem le_raise_epoch (old new : Checkpoint) : old.epoch ≤ (raise old new).epoch :=
  raise_epoch old new ▸ le_max_left _ _

/-! ## What a step does to the checkpoints -/

/-- What a step does that imports no block: in the first slot of an epoch the unrealized checkpoints
are adopted. -/
structure Ticked (s s' : Store) : Prop where
  unrealizedJustified : s'.unrealizedJustifiedCheckpoint = s.unrealizedJustifiedCheckpoint
  unrealizedFinalized : s'.unrealizedFinalizedCheckpoint = s.unrealizedFinalizedCheckpoint
  blocks : s'.blocks = s.blocks
  states : s'.blockStates = s.blockStates
  filed : s'.unrealizedJustifications = s.unrealizedJustifications
  realized :
    s'.getCurrentStoreEpoch = s.getCurrentStoreEpoch ∧
      s'.justifiedCheckpoint = s.justifiedCheckpoint ∧
      s'.finalizedCheckpoint = s.finalizedCheckpoint ∨
    s.getCurrentStoreEpoch < s'.getCurrentStoreEpoch ∧
      s'.justifiedCheckpoint = raise s.justifiedCheckpoint s.unrealizedJustifiedCheckpoint ∧
      s'.finalizedCheckpoint = raise s.finalizedCheckpoint s.unrealizedFinalizedCheckpoint

omit [Crypto] in
/-- The next slot is the first of the next epoch, or in the same epoch. -/
theorem nextSlot_epoch {slot next : Slot} (h : next.val = slot.val + 1) :
    (computeSlotsSinceEpochStart next = 0 → slot.epoch < next.epoch) ∧
      (computeSlotsSinceEpochStart next ≠ 0 → next.epoch = slot.epoch) := by
  have hstart : computeSlotsSinceEpochStart next = next.val % slotsPerEpoch := by
    have hdiv := Nat.div_add_mod next.val slotsPerEpoch
    rw [Nat.mul_comm] at hdiv
    show next.val - next.epoch.startSlot.val = _
    rw [Slot.startSlot_epoch_val]
    omega
  rw [hstart, h]
  constructor
  · intro hzero
    rw [Fin.lt_def, Slot.epoch_val, Slot.epoch_val, h, Nat.succ_div_of_mod_eq_zero hzero]
    exact Nat.lt_succ_self _
  · intro hne
    apply Fin.ext
    rw [Slot.epoch_val, Slot.epoch_val, h]
    exact Nat.succ_div_of_mod_ne_zero hne

omit [Crypto] in
theorem onTickPerSlot_ticked {time : U64} (hle : s.time ≤ time)
    (hnext : (s.slotAtTime time).val ≤ s.getCurrentSlot.val + 1) :
    Ticked s (s.onTickPerSlot time) := by
  have hmono : s.getCurrentSlot.val ≤ (s.slotAtTime time).val := s.slotAtTime_mono hle
  have hcases : s.onTickPerSlot time =
      if s.getCurrentSlot < s.slotAtTime time then
        if computeSlotsSinceEpochStart (s.slotAtTime time) = 0 then
          ({ s with time, proposerBoostRoot := Root.ZERO } : Store).updateCheckpoints
            s.unrealizedJustifiedCheckpoint s.unrealizedFinalizedCheckpoint
        else { s with time, proposerBoostRoot := Root.ZERO }
      else { s with time } := rfl
  rw [hcases]
  by_cases hnew : s.getCurrentSlot < s.slotAtTime time
  · have hone : (s.slotAtTime time).val = s.getCurrentSlot.val + 1 := by
      have := Fin.lt_def.1 hnew
      omega
    obtain ⟨hstart, hinner⟩ := nextSlot_epoch hone
    rw [if_pos hnew]
    by_cases hzero : computeSlotsSinceEpochStart (s.slotAtTime time) = 0
    · rw [if_pos hzero]
      exact ⟨rfl, rfl, rfl, rfl, rfl, .inr ⟨hstart hzero, rfl, rfl⟩⟩
    · rw [if_neg hzero]
      exact ⟨rfl, rfl, rfl, rfl, rfl, .inl ⟨hinner hzero, rfl, rfl⟩⟩
  · have hsame : s.slotAtTime time = s.getCurrentSlot := by
      apply Fin.ext
      have := Fin.lt_def.not.1 hnew
      omega
    rw [if_neg hnew]
    exact ⟨rfl, rfl, rfl, rfl, rfl, .inl ⟨congrArg Slot.epoch hsame, rfl, rfl⟩⟩

/-- A step imports a block, or only a tick into a new epoch moves the checkpoints. -/
theorem Step.checkpoints {blk : BeaconBlock → Prop} (h : Step blk s s') :
    Ticked s s' ∨ ∃ o b, blk b.message ∧ s.onBlock o b = .ok s' := by
  cases h with
  | tick hle hnext => exact .inl (onTickPerSlot_ticked hle hnext)
  | block hb h => exact .inr ⟨_, _, hb, h⟩
  | attestation h =>
    obtain ⟨s₁, _, _, -, hs₁, -, -, rfl⟩ := onAttestation_effect h
    rcases storeTargetCheckpointState_eq _ s₁ hs₁ with ⟨rfl, -⟩ | ⟨_, -, -, rfl⟩
    · exact .inl ⟨rfl, rfl, rfl, rfl, rfl, .inl ⟨rfl, rfl, rfl⟩⟩
    · exact .inl ⟨rfl, rfl, rfl, rfl, rfl, .inl ⟨rfl, rfl, rfl⟩⟩
  | attesterSlashing h =>
    rw [onAttesterSlashing_eq h]
    exact .inl ⟨rfl, rfl, rfl, rfl, rfl, .inl ⟨rfl, rfl, rfl⟩⟩
  | payloadAttestation h =>
    rw [(onPayloadAttestationMessageInner_votes _ _ _ h).eq]
    exact .inl ⟨rfl, rfl, rfl, rfl, rfl, .inl ⟨rfl, rfl, rfl⟩⟩
  | envelope h =>
    obtain ⟨-, ⟨-, rfl⟩ | ⟨-, rfl⟩⟩ := onExecutionPayloadEnvelope_effect _ h
    · exact .inl ⟨rfl, rfl, rfl, rfl, rfl, .inl ⟨rfl, rfl, rfl⟩⟩
    · exact .inl ⟨rfl, rfl, rfl, rfl, rfl, .inl ⟨rfl, rfl, rfl⟩⟩
  | sidecar h => exact .inl ⟨rfl, rfl, rfl, rfl, rfl, .inl ⟨rfl, rfl, rfl⟩⟩
  | release h =>
    rcases processQueuedPayloadEnvelope_effect _ h with rfl | ⟨_, -, -, -, rfl⟩
    · exact .inl ⟨rfl, rfl, rfl, rfl, rfl, .inl ⟨rfl, rfl, rfl⟩⟩
    · exact .inl ⟨rfl, rfl, rfl, rfl, rfl, .inl ⟨rfl, rfl, rfl⟩⟩

/-- No checkpoint of the store goes back to an older epoch. -/
structure NeverLower (s s' : Store) : Prop where
  justified : s.justifiedCheckpoint.epoch ≤ s'.justifiedCheckpoint.epoch
  finalized : s.finalizedCheckpoint.epoch ≤ s'.finalizedCheckpoint.epoch
  unrealizedJustified :
    s.unrealizedJustifiedCheckpoint.epoch ≤ s'.unrealizedJustifiedCheckpoint.epoch
  unrealizedFinalized :
    s.unrealizedFinalizedCheckpoint.epoch ≤ s'.unrealizedFinalizedCheckpoint.epoch

omit [Crypto] in
theorem NeverLower.refl (s : Store) : NeverLower s s := ⟨le_rfl, le_rfl, le_rfl, le_rfl⟩

omit [Crypto] in
theorem NeverLower.trans {s'' : Store} (h : NeverLower s s') (h' : NeverLower s' s'') :
    NeverLower s s'' :=
  ⟨h.justified.trans h'.justified, h.finalized.trans h'.finalized,
    h.unrealizedJustified.trans h'.unrealizedJustified,
    h.unrealizedFinalized.trans h'.unrealizedFinalized⟩

omit [Preset] [Crypto] in
theorem raiseRealized_epoch (past : Prop) [Decidable past] (old realized pulledUp : Checkpoint) :
    (raiseRealized past old realized pulledUp).epoch =
      if past then max (max old.epoch realized.epoch) pulledUp.epoch
      else max old.epoch realized.epoch := by
  unfold raiseRealized
  split <;> simp only [raise_epoch]

omit [Preset] [Crypto] in
theorem le_raiseRealized_epoch (past : Prop) [Decidable past] (old realized pulledUp : Checkpoint) :
    old.epoch ≤ (raiseRealized past old realized pulledUp).epoch := by
  rw [raiseRealized_epoch]
  split
  · exact (le_max_left _ _).trans (le_max_left _ _)
  · exact le_max_left _ _

theorem Step.neverLower {blk : BeaconBlock → Prop} (h : Step blk s s') : NeverLower s s' := by
  rcases h.checkpoints with h | ⟨o, b, -, h⟩
  · have hunrealizedJ := (congrArg Checkpoint.epoch h.unrealizedJustified).ge
    have hunrealizedF := (congrArg Checkpoint.epoch h.unrealizedFinalized).ge
    rcases h.realized with ⟨-, hj, hf⟩ | ⟨-, hj, hf⟩
    · exact ⟨(congrArg Checkpoint.epoch hj).ge, (congrArg Checkpoint.epoch hf).ge, hunrealizedJ,
        hunrealizedF⟩
    · exact ⟨hj ▸ le_raise_epoch _ _, hf ▸ le_raise_epoch _ _, hunrealizedJ, hunrealizedF⟩
  · obtain ⟨_, _, _, _, -, -, -, -, h⟩ := onBlock_effect h
    exact ⟨h.justified_eq ▸ le_raiseRealized_epoch _ _ _ _,
      h.finalized_eq ▸ le_raiseRealized_epoch _ _ _ _,
      h.unrealizedJustified_eq ▸ le_raise_epoch _ _, h.unrealizedFinalized_eq ▸ le_raise_epoch _ _⟩

theorem run_neverLower (s : Store) (calls : List Call) : NeverLower s (s.run calls) :=
  (@run_steps _ (fun _ => True) _ s calls fun _ _ => trivial).inv
    (fun _ _ h hstep => h.trans hstep.neverLower) (.refl s)

/-! ## What the stored blocks offer -/

/-- `pulledUp` is the post-state of `r` after justification and finalization. -/
def PulledUp (s : Store) (r : Root) (pulledUp : BeaconState) : Prop :=
  ∃ state, s.blockStates.lookup r = some state ∧
    state.processJustificationAndFinalization = .ok pulledUp

/-- The epochs of the checkpoint `field` that raise the realized checkpoint of the store: the
anchor's, and of the blocks imported since those of their states and, when they are of past epochs,
the pulled-up ones. -/
def offeredEpochs (anchor : Root) (A : Epoch) (field : BeaconState → Checkpoint) (s : Store) :
    Set Epoch :=
  { e | e = A ∨
    (∃ r state, r ≠ anchor ∧ s.blockStates.lookup r = some state ∧ e = (field state).epoch) ∨
    ∃ r b pulledUp, s.blocks.lookup r = some b ∧ r ≠ anchor ∧
      b.slot.epoch < s.getCurrentStoreEpoch ∧ s.PulledUp r pulledUp ∧ e = (field pulledUp).epoch }

/-- The epochs that raise the unrealized checkpoint: the anchor's and the pulled-up ones of the
blocks imported since. -/
def pulledEpochs (anchor : Root) (A : Epoch) (field : BeaconState → Checkpoint) (s : Store) :
    Set Epoch :=
  { e | e = A ∨ ∃ r pulledUp, r ∈ s.blocks ∧ r ≠ anchor ∧ s.PulledUp r pulledUp ∧
    e = (field pulledUp).epoch }

variable {g : Origin} {A : Epoch} {field : BeaconState → Checkpoint}

omit [Crypto] in
theorem offeredEpochs_congr (anchor : Root) (hblocks : s'.blocks = s.blocks)
    (hstates : s'.blockStates = s.blockStates)
    (hepoch : s'.getCurrentStoreEpoch = s.getCurrentStoreEpoch) :
    s'.offeredEpochs anchor A field = s.offeredEpochs anchor A field := by
  unfold offeredEpochs PulledUp
  rw [hblocks, hstates, hepoch]

omit [Crypto] in
theorem pulledEpochs_congr (anchor : Root) (hblocks : s'.blocks = s.blocks)
    (hstates : s'.blockStates = s.blockStates) :
    s'.pulledEpochs anchor A field = s.pulledEpochs anchor A field := by
  unfold pulledEpochs PulledUp
  rw [hblocks, hstates]

/-- In a new epoch all stored blocks are of past epochs, so all pulled-up epochs count. -/
theorem offeredEpochs_newEpoch (inv : Inv g s) (hblocks : s'.blocks = s.blocks)
    (hstates : s'.blockStates = s.blockStates)
    (hepoch : s.getCurrentStoreEpoch < s'.getCurrentStoreEpoch) :
    s'.offeredEpochs g.root A field =
      s.offeredEpochs g.root A field ∪ s.pulledEpochs g.root A field := by
  have hpast : ∀ {r b}, s.blocks.lookup r = some b → r ≠ g.root →
      b.slot.epoch ≤ s.getCurrentStoreEpoch := by
    intro r b hb hr
    obtain ⟨_, _, _, hext⟩ := inv.child hb hr
    exact Slot.epoch_mono hext.past
  unfold offeredEpochs pulledEpochs PulledUp
  rw [hblocks, hstates]
  ext e
  constructor
  · rintro (h | h | ⟨r, b, p, hb, hr, -, hp, he⟩)
    · exact .inl (.inl h)
    · exact .inl (.inr (.inl h))
    · exact .inr (.inr ⟨r, p, mem_of_lookup hb, hr, hp, he⟩)
  · rintro ((h | h | ⟨r, b, p, hb, hr, hlt, hp, he⟩) | h | ⟨r, p, hmem, hr, hp, he⟩)
    · exact .inl h
    · exact .inr (.inl h)
    · exact .inr (.inr ⟨r, b, p, hb, hr, hlt.trans hepoch, hp, he⟩)
    · exact .inl h
    · obtain ⟨b, hb⟩ := mem_iff_lookup.1 hmem
      exact .inr (.inr ⟨r, b, p, hb, hr, (hpast hb hr).trans_lt hepoch, hp, he⟩)

section Import

variable {b : SignedBeaconBlock} {parentState state pulledUp : BeaconState}

theorem Imported.storeEpoch (h : Imported s b.message state pulledUp s') :
    s'.getCurrentStoreEpoch = s.getCurrentStoreEpoch := by
  unfold getCurrentStoreEpoch getCurrentSlot
  rw [h.time, slotAtTime_congr h.genesisTime]

/-- The new block is stored with its state and its pull-up. -/
theorem Imported.stored (h : Imported s b.message state pulledUp s') :
    s'.blocks.lookup b.message.treeRoot = some b.message ∧
      s'.blockStates.lookup b.message.treeRoot = some state ∧
      s'.PulledUp b.message.treeRoot pulledUp := by
  have hstate : s'.blockStates.lookup b.message.treeRoot = some state := by
    rw [h.blockStates, lookup_insert_eq, if_pos rfl]
  refine ⟨?_, hstate, state, hstate, h.pulled⟩
  rw [h.blocks, lookup_insert_eq, if_pos rfl]

/-- A pull-up of a stored block is the new one or was there before. -/
theorem Imported.pulledUp_cases (h : Imported s b.message state pulledUp s') {r : Root}
    {p : BeaconState} (hp : s'.PulledUp r p) :
    r = b.message.treeRoot ∧ p = pulledUp ∨ s.PulledUp r p := by
  obtain ⟨state', hstate', hp⟩ := hp
  rcases of_lookup_insert (h.blockStates ▸ hstate') with ⟨hr, rfl⟩ | hold
  · rw [h.pulled] at hp
    exact .inl ⟨hr, (Except.ok.inj hp).symm⟩
  · exact .inr ⟨state', hold, hp⟩

/-- An import adds the epochs of its own state, and of its pull-up when it is of a past epoch. -/
theorem Imported.offeredEpochs (inv : Inv g s) (hb : b.message ∈ g.blocks)
    (hparent : s.blockStates.lookup b.message.parentRoot = some parentState)
    (hgrows : Grows s s') (h : Imported s b.message state pulledUp s') :
    s'.offeredEpochs g.root A field = s.offeredEpochs g.root A field ∪ {(field state).epoch} ∪
      { e | b.message.slot.epoch < s.getCurrentStoreEpoch ∧ e = (field pulledUp).epoch } := by
  have hne := inv.imported_ne_anchor hb hparent
  obtain ⟨hblock, hstate, hpulled⟩ := h.stored
  ext e
  constructor
  · rintro (he | ⟨r, state', hr, hstate', he⟩ | ⟨r, b', p, hb', hr, hlt, hp, he⟩)
    · exact .inl (.inl (.inl he))
    · rcases of_lookup_insert (h.blockStates ▸ hstate') with ⟨-, rfl⟩ | hs
      · exact .inl (.inr he)
      · exact .inl (.inl (.inr (.inl ⟨r, state', hr, hs, he⟩)))
    · rw [h.storeEpoch] at hlt
      rcases of_lookup_insert (h.blocks ▸ hb') with ⟨rfl, rfl⟩ | hb''
      · rcases h.pulledUp_cases hp with ⟨-, rfl⟩ | ⟨state', hs, hp'⟩
        · exact .inr ⟨hlt, he⟩
        · rw [hgrows.states hs] at hstate
          cases hstate
          rw [h.pulled] at hp'
          cases hp'
          exact .inr ⟨hlt, he⟩
      · rcases h.pulledUp_cases hp with ⟨rfl, rfl⟩ | hp'
        · cases (hgrows.blocks hb'').symm.trans hblock
          exact .inr ⟨hlt, he⟩
        · exact .inl (.inl (.inr (.inr ⟨r, b', p, hb'', hr, hlt, hp', he⟩)))
  · rintro (((he | ⟨r, state', hr, hstate', he⟩ |
      ⟨r, b', p, hb', hr, hlt, ⟨state', hs, hp⟩, he⟩) | rfl) | ⟨hpast, rfl⟩)
    · exact .inl he
    · exact .inr (.inl ⟨r, state', hr, hgrows.states hstate', he⟩)
    · exact .inr (.inr ⟨r, b', p, hgrows.blocks hb', hr, h.storeEpoch.symm ▸ hlt,
        ⟨state', hgrows.states hs, hp⟩, he⟩)
    · exact .inr (.inl ⟨_, state, hne, hstate, rfl⟩)
    · exact .inr (.inr ⟨_, b.message, pulledUp, hblock, hne, h.storeEpoch.symm ▸ hpast, hpulled,
        rfl⟩)

/-- An import adds the epoch of its pull-up. -/
theorem Imported.pulledEpochs (inv : Inv g s) (hb : b.message ∈ g.blocks)
    (hparent : s.blockStates.lookup b.message.parentRoot = some parentState)
    (hgrows : Grows s s') (h : Imported s b.message state pulledUp s') :
    s'.pulledEpochs g.root A field =
      s.pulledEpochs g.root A field ∪ {(field pulledUp).epoch} := by
  have hne := inv.imported_ne_anchor hb hparent
  obtain ⟨hblock, -, hpulled⟩ := h.stored
  ext e
  constructor
  · rintro (he | ⟨r, p, hmem, hr, hp, he⟩)
    · exact .inl (.inl he)
    · rcases h.pulledUp_cases hp with ⟨-, rfl⟩ | ⟨state', hs, hp'⟩
      · exact .inr he
      · exact .inl (.inr ⟨r, p, inv.state_mem (mem_of_lookup hs), hr, ⟨state', hs, hp'⟩, he⟩)
  · rintro ((he | ⟨r, p, hmem, hr, ⟨state', hs, hp⟩, he⟩) | rfl)
    · exact .inl he
    · exact .inr ⟨r, p, hgrows.mem_blocks hmem, hr, ⟨state', hgrows.states hs, hp⟩, he⟩
    · exact .inr ⟨_, pulledUp, mem_of_lookup hblock, hne, hpulled, rfl⟩

end Import

/-! ## The closed form -/

/-- The epoch the run starts in. -/
abbrev anchorEpoch (g : Origin) : Epoch := g.state.slot.epoch

/-- The checkpoints of the store are the maxima of what its blocks offer. -/
structure ClosedForm (g : Origin) (s : Store) : Prop where
  pulled : ∀ {r}, r ∈ s.blocks → r ≠ g.root → ∃ p, s.PulledUp r p ∧
    s.unrealizedJustifications.lookup r = some p.currentJustifiedCheckpoint
  justified : IsGreatest
    (s.offeredEpochs g.root (anchorEpoch g) BeaconState.currentJustifiedCheckpoint)
    s.justifiedCheckpoint.epoch
  finalized : IsGreatest
    (s.offeredEpochs g.root (anchorEpoch g) BeaconState.finalizedCheckpoint)
    s.finalizedCheckpoint.epoch
  unrealizedJustified : IsGreatest
    (s.pulledEpochs g.root (anchorEpoch g) BeaconState.currentJustifiedCheckpoint)
    s.unrealizedJustifiedCheckpoint.epoch
  unrealizedFinalized : IsGreatest
    (s.pulledEpochs g.root (anchorEpoch g) BeaconState.finalizedCheckpoint)
    s.unrealizedFinalizedCheckpoint.epoch

theorem ClosedForm.tick (inv : Inv g s) (closed : ClosedForm g s) (h : Ticked s s') :
    ClosedForm g s' := by
  have hunrealizedJ := closed.unrealizedJustified
  have hunrealizedF := closed.unrealizedFinalized
  refine ⟨?_, ?_, ?_, ?_, ?_⟩
  · intro r hmem hr
    obtain ⟨p, ⟨state, hs, hp⟩, hfiled⟩ := closed.pulled (h.blocks ▸ hmem) hr
    exact ⟨p, ⟨state, h.states ▸ hs, hp⟩, h.filed ▸ hfiled⟩
  · rcases h.realized with ⟨hepoch, hj, -⟩ | ⟨hepoch, hj, -⟩
    · rw [offeredEpochs_congr _ h.blocks h.states hepoch, hj]; exact closed.justified
    · rw [offeredEpochs_newEpoch inv h.blocks h.states hepoch, hj, raise_epoch]
      exact closed.justified.union hunrealizedJ
  · rcases h.realized with ⟨hepoch, -, hf⟩ | ⟨hepoch, -, hf⟩
    · rw [offeredEpochs_congr _ h.blocks h.states hepoch, hf]; exact closed.finalized
    · rw [offeredEpochs_newEpoch inv h.blocks h.states hepoch, hf, raise_epoch]
      exact closed.finalized.union hunrealizedF
  · rw [pulledEpochs_congr _ h.blocks h.states, h.unrealizedJustified]; exact hunrealizedJ
  · rw [pulledEpochs_congr _ h.blocks h.states, h.unrealizedFinalized]; exact hunrealizedF

omit [Preset] [Crypto] in
/-- A maximum raised by what an import adds. -/
theorem isGreatest_raiseRealized {S : Set Epoch} {old realized pulledUp : Checkpoint} (past : Prop)
    [Decidable past] (h : IsGreatest S old.epoch) :
    IsGreatest (S ∪ {realized.epoch} ∪ { e | past ∧ e = pulledUp.epoch })
      (raiseRealized past old realized pulledUp).epoch := by
  have hrealized := h.union (isGreatest_singleton (a := realized.epoch))
  rw [raiseRealized_epoch]
  by_cases hpast : past
  · simpa [hpast] using hrealized.union (isGreatest_singleton (a := pulledUp.epoch))
  · simpa [hpast] using hrealized

theorem ClosedForm.imported (inv : Inv g s) (closed : ClosedForm g s) {b : SignedBeaconBlock}
    {parentState state pulledUp : BeaconState} (hb : b.message ∈ g.blocks)
    (hparent : s.blockStates.lookup b.message.parentRoot = some parentState)
    (hstate : parentState.stateTransition b = .ok state)
    (h : Imported s b.message state pulledUp s') : ClosedForm g s' := by
  have hgrows := inv.imported_grows hb hparent hstate h
  refine ⟨?_, ?_, ?_, ?_, ?_⟩
  · intro r hmem hr
    rw [h.unrealizedJustifications, lookup_insert_eq]
    by_cases heq : r = b.message.treeRoot
    · rw [if_pos heq]
      exact ⟨pulledUp, heq ▸ h.stored.2.2, rfl⟩
    · rw [h.blocks, Finmap.mem_insert] at hmem
      obtain ⟨p, ⟨state', hs, hp⟩, hfiled⟩ := closed.pulled (hmem.resolve_left heq) hr
      exact ⟨p, ⟨state', hgrows.states hs, hp⟩, (if_neg heq).trans hfiled⟩
  · rw [h.offeredEpochs inv hb hparent hgrows, h.justified_eq]
    exact isGreatest_raiseRealized _ closed.justified
  · rw [h.offeredEpochs inv hb hparent hgrows, h.finalized_eq]
    exact isGreatest_raiseRealized _ closed.finalized
  · rw [h.pulledEpochs inv hb hparent hgrows, h.unrealizedJustified_eq, raise_epoch]
    exact closed.unrealizedJustified.union isGreatest_singleton
  · rw [h.pulledEpochs inv hb hparent hgrows, h.unrealizedFinalized_eq, raise_epoch]
    exact closed.unrealizedFinalized.union isGreatest_singleton

theorem ClosedForm.seed (g : Origin) (time : U64) :
    ClosedForm g (Store.seed g.state g.anchor time) := by
  have hstates : ∀ {r state}, (Store.seed g.state g.anchor time).blockStates.lookup r = some state →
      r = g.root := fun hs => (eq_of_lookup_singleton hs).1
  have hblocks : ∀ {r b}, (Store.seed g.state g.anchor time).blocks.lookup r = some b →
      r = g.root := fun hb => (eq_of_lookup_singleton hb).1
  have hoffered : ∀ field : BeaconState → Checkpoint,
      IsGreatest ((Store.seed g.state g.anchor time).offeredEpochs g.root (anchorEpoch g) field)
        (anchorEpoch g) := by
    intro field
    refine ⟨.inl rfl, ?_⟩
    rintro e (rfl | ⟨r, state, hr, hs, -⟩ | ⟨r, b, _, hb, hr, -⟩)
    · exact le_rfl
    · exact absurd (hstates hs) hr
    · exact absurd (hblocks hb) hr
  have hpulled : ∀ field : BeaconState → Checkpoint,
      IsGreatest ((Store.seed g.state g.anchor time).pulledEpochs g.root (anchorEpoch g) field)
        (anchorEpoch g) := by
    intro field
    refine ⟨.inl rfl, ?_⟩
    rintro e (rfl | ⟨r, _, hmem, hr, -⟩)
    · exact le_rfl
    · obtain ⟨b, hb⟩ := mem_iff_lookup.1 hmem
      exact absurd (hblocks hb) hr
  refine ⟨?_, hoffered _, hoffered _, hpulled _, hpulled _⟩
  intro r hmem hr
  obtain ⟨b, hb⟩ := mem_iff_lookup.1 hmem
  exact absurd (hblocks hb) hr

theorem ClosedForm.step (inv : Inv g s) (closed : ClosedForm g s)
    (h : Step (· ∈ g.blocks) s s') : ClosedForm g s' := by
  rcases h.checkpoints with h | ⟨o, b, hb, h⟩
  · exact closed.tick inv h
  · obtain ⟨_, _, _, _, hparent, -, hstate, -, h⟩ := onBlock_effect h
    exact closed.imported inv hb hparent hstate h

/-! ## What follows -/

/-- The epochs that a realized checkpoint is the maximum of: the anchor's, those of the stored
blocks' states, and the pulled-up ones of the blocks of past epochs but the anchor. -/
def realizedEpochs (anchor : Root) (A : Epoch) (field : BeaconState → Checkpoint) (s : Store) :
    Set Epoch :=
  { e | e = A ∨
    (∃ r state, r ∈ s.blocks ∧ s.blockStates.lookup r = some state ∧ e = (field state).epoch) ∨
    ∃ r b pulledUp, s.blocks.lookup r = some b ∧ r ≠ anchor ∧
      b.slot.epoch < s.getCurrentStoreEpoch ∧ s.PulledUp r pulledUp ∧ e = (field pulledUp).epoch }

/-- The epochs that an unrealized checkpoint is the maximum of: the anchor's and the pulled-up
ones of all stored blocks. -/
def unrealizedEpochs (A : Epoch) (field : BeaconState → Checkpoint) (s : Store) : Set Epoch :=
  { e | e = A ∨ ∃ r pulledUp, r ∈ s.blocks ∧ s.PulledUp r pulledUp ∧ e = (field pulledUp).epoch }

/-- The anchor's own checkpoints are not newer than its epoch. -/
structure AnchorDated (state : BeaconState) : Prop where
  previous : state.previousJustifiedCheckpoint.epoch ≤ state.slot.epoch
  current : state.currentJustifiedCheckpoint.epoch ≤ state.slot.epoch
  finalized : state.finalizedCheckpoint.epoch ≤ state.slot.epoch

variable {state : BeaconState}

omit [Crypto] in
theorem AnchorDated.ordered (h : AnchorDated state) : state.Ordered state.slot.epoch.val :=
  ⟨le_max_of_le_left h.finalized, le_max_of_le_left h.previous, le_max_of_le_left h.current⟩

/-- The checkpoints of every stored state are in order, as far as they are newer than the anchor. -/
def StatesOrdered (g : Origin) (s : Store) : Prop :=
  ∀ {r state}, s.blockStates.lookup r = some state → state.Ordered (anchorEpoch g).val

theorem StatesOrdered.step (ordered : StatesOrdered g s) (h : Step (· ∈ g.blocks) s s') :
    StatesOrdered g s' := by
  intro r state hs
  rcases h.checkpoints with h | ⟨o, b, -, h⟩
  · exact ordered (h.states ▸ hs)
  · obtain ⟨_, _, _, _, hparent, -, hstate, -, h⟩ := onBlock_effect h
    rcases of_lookup_insert (h.blockStates ▸ hs) with ⟨-, rfl⟩ | hs
    · exact ((stateTransition_reaches hstate).ordered (ordered hparent)).1
    · exact ordered hs

/-- The invariants of a run from an anchor with dated checkpoints. -/
theorem ClosedForm.run {anchor : BeaconBlock} {calls : List Call}
    (h₀ : getForkchoiceStore state anchor = .ok s)
    (hc : NoCollision state anchor (runBlocks anchor calls)) (hdated : AnchorDated state) :
    ClosedForm (originOfRun h₀ hc) (s.run calls) ∧
      StatesOrdered (originOfRun h₀ hc) (s.run calls) := by
  let g := originOfRun h₀ hc
  refine (run_inv (P := fun s => Inv g s ∧ ClosedForm g s ∧ StatesOrdered g s) h₀ ?_ ?_).2
  · intro time
    refine ⟨Inv.seed g time, ClosedForm.seed g time, fun hs => ?_⟩
    rw [(eq_of_lookup_singleton hs).2]
    exact hdated.ordered
  · exact fun _ _ ⟨inv, closed, ordered⟩ hstep =>
      ⟨(inv.step hstep).1, closed.step inv hstep, ordered.step hstep⟩

/-- Pulling up the anchor's own state offers nothing newer than its epoch. -/
theorem StatesOrdered.anchor_pulledUp (inv : Inv g s) (ordered : StatesOrdered g s) {p : BeaconState}
    (hp : s.PulledUp g.root p) : p.currentJustifiedCheckpoint.epoch ≤ anchorEpoch g ∧
      p.finalizedCheckpoint.epoch ≤ anchorEpoch g := by
  obtain ⟨state, hs, hp⟩ := hp
  obtain ⟨-, hfinalized, hprevious, hcurrent⟩ :=
    processJustificationAndFinalization_ordered (ordered hs) hp
  rw [inv.anchor_state] at hs
  cases hs
  rw [max_self] at hcurrent
  exact ⟨hcurrent, Fin.le_def.2 (by omega)⟩

/-- So the maximum over the imported blocks is the one over all stored blocks. -/
theorem ClosedForm.unrealizedEpochs {top : Epoch}
    (hanchor : ∀ p, s.PulledUp g.root p → (field p).epoch ≤ anchorEpoch g)
    (h : IsGreatest (s.pulledEpochs g.root (anchorEpoch g) field) top) :
    IsGreatest (s.unrealizedEpochs (anchorEpoch g) field) top := by
  refine ⟨?_, ?_⟩
  · rcases h.1 with h | ⟨r, p, hmem, -, hp, he⟩
    · exact .inl h
    · exact .inr ⟨r, p, hmem, hp, he⟩
  · rintro e (rfl | ⟨r, p, hmem, hp, rfl⟩)
    · exact h.2 (.inl rfl)
    · by_cases hr : r = g.root
      · exact (hanchor p (hr ▸ hp)).trans (h.2 (.inl rfl))
      · exact h.2 (.inr ⟨r, p, hmem, hr, hp, rfl⟩)

/-- With a dated anchor, the maximum over the imported blocks is the one over all stored blocks. -/
theorem ClosedForm.realizedEpochs (inv : Inv g s) {top : Epoch}
    (hanchor : (field g.state).epoch ≤ anchorEpoch g)
    (h : IsGreatest (s.offeredEpochs g.root (anchorEpoch g) field) top) :
    IsGreatest (s.realizedEpochs g.root (anchorEpoch g) field) top := by
  refine ⟨?_, ?_⟩
  · rcases h.1 with h | ⟨r, state, -, hs, he⟩ | h
    · exact .inl h
    · exact .inr (.inl ⟨r, state, inv.state_mem (mem_of_lookup hs), hs, he⟩)
    · exact .inr (.inr h)
  · rintro e (rfl | ⟨r, state, -, hs, rfl⟩ | he)
    · exact h.2 (.inl rfl)
    · by_cases hr : r = g.root
      · rw [hr, inv.anchor_state] at hs
        cases hs
        exact hanchor.trans (h.2 (.inl rfl))
      · exact h.2 (.inr (.inl ⟨r, state, hr, hs, rfl⟩))
    · exact h.2 (.inr (.inr he))

/-- Every finalized epoch on offer comes with a justified one that is not older. -/
theorem ClosedForm.finalized_le (closed : ClosedForm g s) (ordered : StatesOrdered g s) :
    s.finalizedCheckpoint.epoch ≤ s.justifiedCheckpoint.epoch := by
  have hanchor : anchorEpoch g ≤ s.justifiedCheckpoint.epoch := closed.justified.2 (.inl rfl)
  rcases closed.finalized.1 with h | ⟨r, state, hr, hs, he⟩ |
      ⟨r, b, p, hb, hr, hlt, ⟨state, hs, hp⟩, he⟩
  · exact h ▸ hanchor
  · have hordered := ordered hs
    have hfinalized := hordered.finalized
    have hprevious := hordered.previous
    have hcurrent : state.currentJustifiedCheckpoint.epoch ≤ s.justifiedCheckpoint.epoch :=
      closed.justified.2 (.inr (.inl ⟨r, state, hr, hs, rfl⟩))
    rw [he, Fin.le_def]
    rw [Fin.le_def] at hcurrent hanchor
    omega
  · obtain ⟨-, hfinalized, hprevious, -⟩ :=
      processJustificationAndFinalization_ordered (ordered hs) hp
    have hcurrent : p.currentJustifiedCheckpoint.epoch ≤ s.justifiedCheckpoint.epoch :=
      closed.justified.2 (.inr (.inr ⟨r, b, p, hb, hr, hlt, ⟨state, hs, hp⟩, rfl⟩))
    rw [he, Fin.le_def]
    rw [Fin.le_def] at hcurrent hanchor
    omega

/-- Every justified epoch on offer is pulled up to one that is not older. -/
theorem ClosedForm.justified_le (inv : Inv g s) (closed : ClosedForm g s)
    (ordered : StatesOrdered g s) :
    s.justifiedCheckpoint.epoch ≤ s.unrealizedJustifiedCheckpoint.epoch := by
  have hanchor : anchorEpoch g ≤ s.unrealizedJustifiedCheckpoint.epoch :=
    closed.unrealizedJustified.2 (.inl rfl)
  rcases closed.justified.1 with h | ⟨r, state, hr, hs, he⟩ | ⟨r, b, p, hb, hr, -, hp, he⟩
  · exact h ▸ hanchor
  · have hmem := inv.state_mem (mem_of_lookup hs)
    obtain ⟨p, ⟨state', hs', hp⟩, -⟩ := closed.pulled hmem hr
    cases hs.symm.trans hs'
    have hraised := (processJustificationAndFinalization_ordered
      (ordered hs) hp).1.current
    have hcurrent : p.currentJustifiedCheckpoint.epoch ≤ s.unrealizedJustifiedCheckpoint.epoch :=
      closed.unrealizedJustified.2 (.inr ⟨r, p, hmem, hr, ⟨state, hs, hp⟩, rfl⟩)
    rw [he, Fin.le_def]
    rw [Fin.le_def] at hcurrent hanchor
    omega
  · exact he ▸ closed.unrealizedJustified.2 (.inr ⟨r, p, mem_of_lookup hb, hr, hp, rfl⟩)

/-- Two runs from one anchor that store the same blocks store the same states. -/
theorem Inv.states_eq {g' : Origin} (inv : Inv g s) (inv' : Inv g' s') (hstate : g'.state = g.state)
    (hanchor : g'.anchor = g.anchor) (hblocks : s'.blocks = s.blocks) :
    s'.blockStates = s.blockStates := by
  have hroot : g'.root = g.root := congrArg BeaconBlock.treeRoot hanchor
  -- by induction on the slot: the parent's state and the block determine the state
  have hstored : ∀ n r b, b.slot.val = n → s.blocks.lookup r = some b →
      ∃ state, s.blockStates.lookup r = some state ∧ s'.blockStates.lookup r = some state := by
    intro n
    induction n using Nat.strong_induction_on with
    | _ n ih =>
      intro r b hn hb
      by_cases hr : r = g.root
      · refine ⟨g.state, hr ▸ inv.anchor_state, ?_⟩
        rw [hr, ← hroot, ← hstate]
        exact inv'.anchor_state
      obtain ⟨p, parentState, state, hext⟩ := inv.child hb hr
      obtain ⟨p', parentState', state', hext'⟩ :=
        inv'.child (hblocks.symm ▸ hb) (hroot.symm ▸ hr)
      obtain ⟨q, hq, hlt⟩ := inv.tree.parent hb hr
      obtain ⟨common, hcommon, hcommon'⟩ := ih q.slot.val (hn ▸ hlt) b.parentRoot q rfl hq
      cases hext.parent_state.symm.trans hcommon
      cases hext'.parent_state.symm.trans hcommon'
      obtain ⟨signature, ht⟩ := hext.transition
      obtain ⟨signature', ht'⟩ := hext'.transition
      have hmessage : (⟨b, signature⟩ : SignedBeaconBlock).message =
          (⟨b, signature'⟩ : SignedBeaconBlock).message := rfl
      have heq : state = state' := stateTransition_congr hmessage ht ht'
      have hpost := hext.post_state
      have hpost' := hext'.post_state
      rw [(inv.block hb).2] at hpost hpost'
      exact ⟨state, hpost, heq ▸ hpost'⟩
  refine Finmap.ext_lookup fun r => ?_
  by_cases hmem : r ∈ s.blocks
  · obtain ⟨b, hb⟩ := mem_iff_lookup.1 hmem
    obtain ⟨state, hs, hs'⟩ := hstored _ r b rfl hb
    rw [hs, hs']
  · rw [Finmap.lookup_eq_none.2 fun h => hmem (inv.state_mem h),
      Finmap.lookup_eq_none.2 fun h => hmem (hblocks ▸ inv'.state_mem h)]

/-- The four epochs are equal. -/
structure SameEpochs (s s' : Store) : Prop where
  justified : s'.justifiedCheckpoint.epoch = s.justifiedCheckpoint.epoch
  finalized : s'.finalizedCheckpoint.epoch = s.finalizedCheckpoint.epoch
  unrealizedJustified :
    s'.unrealizedJustifiedCheckpoint.epoch = s.unrealizedJustifiedCheckpoint.epoch
  unrealizedFinalized :
    s'.unrealizedFinalizedCheckpoint.epoch = s.unrealizedFinalizedCheckpoint.epoch

/-- The checkpoint epochs of every run are the maxima of what the anchor and the stored blocks
offer at the epoch of the clock. So they do not depend on the order of arrival, never go down, and
the finalized epoch is at most the justified one, and that at most the unrealized one. -/
theorem checkpoints_closedForm {anchor : BeaconBlock} {calls : List Call}
    (h₀ : getForkchoiceStore state anchor = .ok s)
    (hc : NoCollision state anchor (runBlocks anchor calls)) (hdated : AnchorDated state) :
    (IsGreatest ((s.run calls).realizedEpochs anchor.treeRoot state.slot.epoch
        BeaconState.currentJustifiedCheckpoint) (s.run calls).justifiedCheckpoint.epoch ∧
      IsGreatest ((s.run calls).realizedEpochs anchor.treeRoot state.slot.epoch
        BeaconState.finalizedCheckpoint) (s.run calls).finalizedCheckpoint.epoch) ∧
    (IsGreatest ((s.run calls).unrealizedEpochs state.slot.epoch
        BeaconState.currentJustifiedCheckpoint) (s.run calls).unrealizedJustifiedCheckpoint.epoch ∧
      IsGreatest ((s.run calls).unrealizedEpochs state.slot.epoch
        BeaconState.finalizedCheckpoint) (s.run calls).unrealizedFinalizedCheckpoint.epoch) ∧
    (∀ r ∈ (s.run calls).blocks, r ≠ anchor.treeRoot → ∃ p, (s.run calls).PulledUp r p) ∧
    (∀ calls', NoCollision state anchor (runBlocks anchor calls') →
      (s.run calls').blocks = (s.run calls).blocks →
      (s.run calls').getCurrentStoreEpoch = (s.run calls).getCurrentStoreEpoch →
      SameEpochs (s.run calls) (s.run calls')) ∧
    (∀ calls', NeverLower (s.run calls) (s.run (calls ++ calls'))) ∧
    (s.run calls).finalizedCheckpoint.epoch ≤ (s.run calls).justifiedCheckpoint.epoch ∧
    (s.run calls).justifiedCheckpoint.epoch ≤
      (s.run calls).unrealizedJustifiedCheckpoint.epoch := by
  have inv := Inv.run h₀ hc
  obtain ⟨closed, ordered⟩ := ClosedForm.run h₀ hc hdated
  refine ⟨⟨ClosedForm.realizedEpochs inv hdated.current closed.justified,
      ClosedForm.realizedEpochs inv hdated.finalized closed.finalized⟩,
    ⟨ClosedForm.unrealizedEpochs (g := originOfRun h₀ hc)
        (fun _ hp => (ordered.anchor_pulledUp inv hp).1) closed.unrealizedJustified,
      ClosedForm.unrealizedEpochs (g := originOfRun h₀ hc)
        (fun _ hp => (ordered.anchor_pulledUp inv hp).2) closed.unrealizedFinalized⟩,
    fun _ hmem hr => (closed.pulled hmem hr).imp fun _ h => h.1, ?_, ?_, closed.finalized_le ordered,
    closed.justified_le inv ordered⟩
  · intro calls' hc' hblocks hepoch
    have closed' := (ClosedForm.run h₀ hc' hdated).1
    have hstates := inv.states_eq (Inv.run h₀ hc') rfl rfl hblocks
    have hoffered : ∀ field, (s.run calls').offeredEpochs anchor.treeRoot state.slot.epoch field =
        (s.run calls).offeredEpochs anchor.treeRoot state.slot.epoch field :=
      fun _ => offeredEpochs_congr _ hblocks hstates hepoch
    have hpulled : ∀ field, (s.run calls').pulledEpochs anchor.treeRoot state.slot.epoch field =
        (s.run calls).pulledEpochs anchor.treeRoot state.slot.epoch field :=
      fun _ => pulledEpochs_congr _ hblocks hstates
    refine ⟨?_, ?_, ?_, ?_⟩
    · exact closed'.justified.unique (hoffered _ ▸ closed.justified)
    · exact closed'.finalized.unique (hoffered _ ▸ closed.finalized)
    · exact closed'.unrealizedJustified.unique (hpulled _ ▸ closed.unrealizedJustified)
    · exact closed'.unrealizedFinalized.unique (hpulled _ ▸ closed.unrealizedFinalized)
  · intro calls'
    rw [run_append]
    exact run_neverLower _ calls'

end Store

end Moonglass

namespace Moonglass.Devnet

/-- The vote in a block of epoch 2 raises the justified checkpoint when that epoch ends. -/
def raising : List Call := [.tick 102, .block orders votingBlock, .tick 144]

/-- The closed form on that run: the raised epoch is the greatest the network offers. -/
theorem checkpoints_closedForm_raising :
    (seed genesis).justifiedCheckpoint.epoch = 0 ∧
    IsGreatest (((seed genesis).run raising).realizedEpochs genesis.treeRoot
      (stateAfter genesis).slot.epoch BeaconState.currentJustifiedCheckpoint) 2 ∧
    ((seed genesis).run raising).finalizedCheckpoint.epoch ≤ 2 := by
  have hraised : ((seed genesis).run raising).justifiedCheckpoint.epoch = 2 := by decide +kernel
  have hdated : Store.AnchorDated (stateAfter genesis) :=
    ⟨Fin.zero_le _, Fin.zero_le _, Fin.zero_le _⟩
  have h := Store.checkpoints_closedForm seed_genesis
    (noCollision rfl (by decide) : NoCollision _ _ (runBlocks genesis raising)) hdated
  rw [hraised] at h
  exact ⟨rfl, h.1.1, h.2.2.2.2.2.1⟩

end Moonglass.Devnet
