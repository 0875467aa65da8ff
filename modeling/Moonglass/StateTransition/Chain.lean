import Moonglass.StateTransition.EpochEffect

/-
  What slots, epochs and blocks do to the position of a state in its chain. Epoch processing keeps
  slot, header and block roots; a slot fills in the header's state root and files the block root;
  a block replaces the header. `stateTransition_chain` states the result for a signed block.
-/

namespace Moonglass

open Lib

variable [Preset] [Crypto]

namespace BeaconState

/-! ## Block operations keep the chain -/

/-- `s'` differs from `s` not in its chain; participation may differ. -/
def SameChain (s s' : BeaconState) : Prop := s'.chainView = s.chainView

namespace SameChain

variable {s s' s'' : BeaconState}

omit [Crypto] in
theorem trans (h : SameChain s s') (h' : SameChain s' s'') : SameChain s s'' := Eq.trans h' h

end SameChain

variable {s : BeaconState}

/-! ## Slots -/

/-- The latest header with its state root filled in, as a slot files it. -/
def filledHeader (s : BeaconState) : BeaconBlockHeader :=
  if s.latestBlockHeader.stateRoot = Root.ZERO then s.latestBlockHeader.withStateRoot s.treeRoot
  else s.latestBlockHeader

/-- What a slot writes before its epoch is processed. -/
structure SlotFiled (s s' : BeaconState) : Prop where
  slot : s'.slot = s.slot
  header : s'.latestBlockHeader = s.filledHeader
  blockRoots : s'.blockRoots = ringSet s.blockRoots s.slot.val s.filledHeader.treeRoot
  justified : s'.currentJustifiedCheckpoint = s.currentJustifiedCheckpoint
  previous : s'.previousEpochParticipation = s.previousEpochParticipation
  current : s'.currentEpochParticipation = s.currentEpochParticipation
  validators : s'.validators = s.validators

theorem processSlot_effect : Ensures s.processSlot (SlotFiled s) := by
  unfold processSlot
  exact .skip fun next => .pure ⟨rfl, rfl, rfl, rfl, rfl, rfl, rfl⟩

/-- What one turn of the slot loop writes, within an epoch and at its end. -/
structure SlotAdvanced (s s' : BeaconState) : Prop where
  slot : s'.slot.val = s.slot.val + 1
  header : s'.latestBlockHeader = s.filledHeader
  blockRoots : s'.blockRoots = ringSet s.blockRoots s.slot.val s.filledHeader.treeRoot
  inner : (s.slot.val + 1) % slotsPerEpoch ≠ 0 →
    s'.currentJustifiedCheckpoint = s.currentJustifiedCheckpoint ∧
    s'.previousEpochParticipation = s.previousEpochParticipation ∧
    s'.currentEpochParticipation = s.currentEpochParticipation
  boundary : (s.slot.val + 1) % slotsPerEpoch = 0 →
    (∃ s₀ s₁, SlotFiled s s₀ ∧ JustifiedBy s₀ s₁ ∧
      s'.currentJustifiedCheckpoint = s₁.currentJustifiedCheckpoint) ∧
    FlagsFrom s.currentEpochParticipation s'.previousEpochParticipation ∧
    NoFlags s'.currentEpochParticipation

omit [Crypto] in
/-- Within an epoch the next slot has the same epoch. -/
theorem epoch_of_inner {slot slot' : Slot} (h : slot'.val = slot.val + 1)
    (hinner : slot'.val % slotsPerEpoch ≠ 0) : slot'.epoch.val = slot.epoch.val := by
  change slot'.val / slotsPerEpoch = slot.val / slotsPerEpoch
  rw [h] at hinner ⊢
  rw [Nat.succ_div, if_neg (fun hdvd => hinner (Nat.mod_eq_zero_of_dvd hdvd)), Nat.add_zero]

omit [Crypto] in
/-- At a boundary the next slot has the next epoch. -/
theorem epoch_of_boundary {slot slot' : Slot} (h : slot'.val = slot.val + 1)
    (hboundary : slot'.val % slotsPerEpoch = 0) : slot'.epoch.val = slot.epoch.val + 1 := by
  change slot'.val / slotsPerEpoch = slot.val / slotsPerEpoch + 1
  rw [h] at hboundary ⊢
  rw [Nat.succ_div, if_pos (Nat.dvd_of_mod_eq_zero hboundary)]

variable {s' : BeaconState}

/-- One turn of the slot loop: the slot is filed, the epoch processed at its end, and the slot
counter moved on. -/
theorem advanceSlot_parts (h : s.advanceSlot = .ok s') : ∃ filed next,
    s.processSlot = .ok filed ∧ s' = { next with slot := s'.slot } ∧
      s'.slot.val = s.slot.val + 1 ∧
      (s'.slot.val % slotsPerEpoch ≠ 0 ∧ next = filed ∨
        s'.slot.val % slotsPerEpoch = 0 ∧ filed.processEpoch = .ok next) := by
  unfold advanceSlot at h
  obtain ⟨filed, hfiled, h⟩ := bind_eq_ok.1 h
  obtain ⟨slot, hslot, h⟩ := bind_eq_ok.1 h
  rw [checkedNextSlot, okOr_eq_ok, Word.checkedAdd_eq_some,
    (processSlot_effect filed hfiled).slot] at hslot
  by_cases hboundary : slot.val % slotsPerEpoch = 0
  · rw [if_pos hboundary] at h
    obtain ⟨next, hnext, h⟩ := bind_eq_ok.1 h
    cases h
    exact ⟨filed, next, hfiled, rfl, hslot, .inr ⟨hboundary, hnext⟩⟩
  · rw [if_neg hboundary] at h
    cases h
    exact ⟨filed, filed, hfiled, rfl, hslot, .inl ⟨hboundary, rfl⟩⟩

theorem advanceSlot_effect : Ensures s.advanceSlot (SlotAdvanced s) := by
  intro s' h
  obtain ⟨filed, next, hfiled, hs', hslot, hparts⟩ := advanceSlot_parts h
  have hfiled := processSlot_effect filed hfiled
  rcases hparts with ⟨hinner, rfl⟩ | ⟨hboundary, hepoch⟩
  · rw [hs', hslot] at hinner
    rw [hs']
    exact ⟨hslot, hfiled.header, hfiled.blockRoots,
      fun _ => ⟨hfiled.justified, hfiled.previous, hfiled.current⟩, fun h => absurd h hinner⟩
  · have hepoch := processEpoch_effect next hepoch
    have hposition := hepoch.position
    rw [hslot] at hboundary
    rw [hs']
    refine ⟨hslot, hposition.header.trans hfiled.header,
      hposition.blockRoots.trans hfiled.blockRoots, fun h => absurd hboundary h,
      fun _ => ⟨?_, hfiled.current ▸ hepoch.previous, hepoch.current⟩⟩
    obtain ⟨s₁, h₁, hchain⟩ := hepoch.justified
    exact ⟨filed, s₁, hfiled, h₁, congrArg ChainView.currentJustifiedCheckpoint hchain⟩

/-- The header of `s'` is the header of `s`, its state root filled in or not. -/
def SameHeader (s s' : BeaconState) : Prop :=
  ∃ r, s'.latestBlockHeader = s.latestBlockHeader.withStateRoot r

omit [Crypto] in
theorem SameHeader.trans {s s' s'' : BeaconState} (h : SameHeader s s') (h' : SameHeader s' s'') :
    SameHeader s s'' := by
  obtain ⟨r, hr⟩ := h
  obtain ⟨r', hr'⟩ := h'
  exact ⟨r', by rw [hr', hr]; rfl⟩

omit [Crypto] in
theorem SameHeader.slot {s s' : BeaconState} (h : SameHeader s s') :
    s'.latestBlockHeader.slot = s.latestBlockHeader.slot := by
  obtain ⟨r, hr⟩ := h
  rw [hr]
  rfl

theorem SlotAdvanced.sameHeader {s s' : BeaconState} (h : SlotAdvanced s s') : SameHeader s s' := by
  unfold SameHeader
  rw [h.header, filledHeader]
  split
  · exact ⟨s.treeRoot, rfl⟩
  · exact ⟨s.latestBlockHeader.stateRoot, rfl⟩

/-- What every turn of the slot loop keeps, the loop keeps, and it ends at the target slot. -/
theorem processSlotsLoop_inv {P : BeaconState → Prop} (target : Slot)
    (step : ∀ s s', P s → s.slot < target → s.advanceSlot = .ok s' → P s') (n : Nat)
    (s : BeaconState) (hn : target.val = s.slot.val + n) (hs : P s) :
    Ensures (processSlotsLoop target n s) fun s' => s'.slot = target ∧ P s' := by
  induction n generalizing s with
  | zero => exact .pure ⟨Fin.ext hn.symm, hs⟩
  | succ n ih =>
    have hlt : s.slot < target := Fin.lt_def.2 (by omega)
    unfold processSlotsLoop
    rw [if_pos hlt]
    refine .step fun s₁ h₁ => ?_
    have hslot := (advanceSlot_effect s₁ h₁).slot
    exact ih s₁ (by omega) (step s s₁ hs hlt h₁)

/-- The rule for the slots up to a block: what the first turn establishes and every further turn
keeps holds at the target slot. -/
theorem processSlots_inv {P : BeaconState → Prop} (target : Slot)
    (first : ∀ s', s.slot < target → s.advanceSlot = .ok s' → P s')
    (step : ∀ s s', P s → s.slot < target → s.advanceSlot = .ok s' → P s') :
    Ensures (s.processSlots target) fun s' => s.slot < target ∧ s'.slot = target ∧ P s' := by
  unfold processSlots
  refine .bind (Q := fun _ => s.slot < target) (fun _ h => ensure_eq_ok.1 h) fun _ hlt => ?_
  obtain ⟨n, hn⟩ : ∃ n, target.val - s.slot.val = n + 1 :=
    ⟨target.val - s.slot.val - 1, by have := Fin.lt_def.1 hlt; omega⟩
  rw [hn]
  unfold processSlotsLoop
  rw [if_pos hlt]
  refine .step fun s₁ h₁ => ?_
  have hslot := (advanceSlot_effect s₁ h₁).slot
  exact (processSlotsLoop_inv target step n s₁ (by omega) (first s₁ hlt h₁)).imp
    fun _ h => ⟨hlt, h⟩

theorem processSlots_header (target : Slot) : Ensures (s.processSlots target) fun s' =>
    s.slot < target ∧ s'.slot = target ∧ SameHeader s s' :=
  processSlots_inv target (fun s' _ h => (advanceSlot_effect s' h).sameHeader)
    fun _ s' h _ h' => h.trans (advanceSlot_effect s' h').sameHeader

/-! ## Blocks -/

/-- What a block does to the chain of the state at its slot. -/
structure BlockProcessed (s : BeaconState) (block : BeaconBlock) (s' : BeaconState) : Prop where
  header_slot_lt : s.latestBlockHeader.slot < block.slot
  parent_root : block.parentRoot = s.latestBlockHeader.treeRoot
  slot_eq : block.slot = s.slot
  slot : s'.slot = s.slot
  header : s'.latestBlockHeader = block.header block.body.treeRoot Root.ZERO
  blockRoots : s'.blockRoots = s.blockRoots
  justified : s'.currentJustifiedCheckpoint = s.currentJustifiedCheckpoint

theorem processBlockHeader_chain (block : BeaconBlock) :
    Ensures (s.processBlockHeader block) (BlockProcessed s block) := by
  unfold processBlockHeader
  refine .bind (Q := fun _ => block.slot = s.slot) (fun _ h => ensure_eq_ok.1 h) fun _ hslot => ?_
  refine .bind (Q := fun _ => s.latestBlockHeader.slot < block.slot)
    (fun _ h => ensure_eq_ok.1 h) fun _ hlt => .skip fun _ => .skip fun _ => ?_
  refine .bind (Q := fun _ => block.parentRoot = s.latestBlockHeader.treeRoot)
    (fun _ h => ensure_eq_ok.1 h) fun _ hparent => .skip fun _ => .skip fun _ => ?_
  exact .pure ⟨hlt, hparent, hslot, rfl, rfl, rfl, rfl⟩

variable {block : BeaconBlock}

/-- Only the block header moves the chain. -/
theorem BlockProcessed.of_chain {s₁ s₂ s' : BeaconState} (h : BlockProcessed s₁ block s₂)
    (hbefore : SameChain s s₁) (hafter : SameChain s₂ s') : BlockProcessed s block s' := by
  have hpre := SamePosition.of_chain hbefore
  have hpost := SamePosition.of_chain hafter
  refine ⟨hpre.header ▸ h.header_slot_lt, hpre.header ▸ h.parent_root, hpre.slot ▸ h.slot_eq,
    hpost.slot.trans (h.slot.trans hpre.slot), hpost.header.trans h.header,
    hpost.blockRoots.trans (h.blockRoots.trans hpre.blockRoots), ?_⟩
  have h1 : s'.currentJustifiedCheckpoint = s₂.currentJustifiedCheckpoint :=
    congrArg ChainView.currentJustifiedCheckpoint hafter
  have h2 : s₁.currentJustifiedCheckpoint = s.currentJustifiedCheckpoint :=
    congrArg ChainView.currentJustifiedCheckpoint hbefore
  exact h1.trans (h.justified.trans h2)

/-- The phases of an accepted block: the state after each of them but the last. -/
structure BlockPhases (s : BeaconState) (block : BeaconBlock) (s' : BeaconState) where
  parent : BeaconState
  header : BeaconState
  withdrawals : BeaconState
  bid : BeaconState
  randao : BeaconState
  eth1 : BeaconState
  operations : BeaconState
  parent_eq : s.processParentExecutionPayload block = .ok parent
  header_eq : parent.processBlockHeader block = .ok header
  withdrawals_eq : header.processWithdrawals = .ok withdrawals
  bid_eq : withdrawals.processExecutionPayloadBid block.body.signedExecutionPayloadBid = .ok bid
  randao_eq : bid.processRandao block.body = .ok randao
  eth1_eq : randao.processEth1Data block.body = .ok eth1
  operations_eq : eth1.processOperations block.body = .ok operations
  sync_eq : operations.processSyncAggregate block.body.syncAggregate = .ok s'

theorem processBlock_phases
    (h : s.processBlock block = .ok s') : Nonempty (BlockPhases s block s') := by
  unfold processBlock at h
  simp only [bind_eq_ok] at h
  obtain ⟨parent, hparent, header, hheader, withdrawals, hwithdrawals, bid, hbid, randao, hrandao,
    eth1, heth1, operations, hoperations, h⟩ := h
  exact ⟨parent, header, withdrawals, bid, randao, eth1, operations,
    hparent, hheader, hwithdrawals, hbid, hrandao, heth1, hoperations, h⟩

/-- Only the header phase moves the chain. -/
theorem BlockPhases.chain (h : BlockPhases s block s') :
    SameChain s h.parent ∧ SameChain h.header s' := by
  have h₁ := (processWithdrawals_changes _ h.withdrawals_eq).trans
    (processExecutionPayloadBid_changes _ _ h.bid_eq)
  have h₂ : SameChain h.bid h.randao := (processRandao_untouched _ _ h.randao_eq).chain
  have h₃ : SameChain h.randao h.eth1 := (processEth1Data_untouched _ _ h.eth1_eq).chain
  have h₄ := (processOperations_changes _ _ h.operations_eq).trans
    (processSyncAggregate_changes _ _ h.sync_eq)
  have hbefore : SameChain h.header h.bid := h₁.chain
  exact ⟨(processParentExecutionPayload_frame _ _ h.parent_eq).chain,
    ((hbefore.trans h₂).trans h₃).trans h₄.chain⟩

theorem processBlock_chain (block : BeaconBlock) :
    Ensures (s.processBlock block) (BlockProcessed s block) := by
  intro s' h
  obtain ⟨h⟩ := processBlock_phases h
  exact (processBlockHeader_chain block _ h.header_eq).of_chain h.chain.1 h.chain.2

/-- The parts of an accepted state transition. -/
theorem stateTransition_parts {signedBlock : SignedBeaconBlock}
    (h : s.stateTransition signedBlock = .ok s') : ∃ s₁,
      s.processSlots signedBlock.message.slot = .ok s₁ ∧
      s₁.processBlock signedBlock.message = .ok s' ∧
      signedBlock.message.stateRoot = s'.treeRoot := by
  unfold stateTransition at h
  simp only [bind_eq_ok] at h
  obtain ⟨s₁, hs₁, _, -, s₂, hs₂, _, hroot, h⟩ := h
  cases h
  exact ⟨s₁, hs₁, hs₂, ensure_eq_ok.1 hroot⟩

/-- What a signed block does to the chain of the state it is applied to. -/
structure Transitioned (s : BeaconState) (block : BeaconBlock) (s' : BeaconState) : Prop where
  slot_lt : s.slot < block.slot
  header_slot_lt : s.latestBlockHeader.slot < block.slot
  parent_root : ∃ r, block.parentRoot = (s.latestBlockHeader.withStateRoot r).treeRoot
  slot : s'.slot = block.slot
  header : s'.latestBlockHeader = block.header block.body.treeRoot Root.ZERO
  state_root : block.stateRoot = s'.treeRoot

theorem stateTransition_chain (signedBlock : SignedBeaconBlock) :
    Ensures (s.stateTransition signedBlock) (Transitioned s signedBlock.message) := by
  intro s' h
  obtain ⟨s₁, hs₁, hs', hroot⟩ := stateTransition_parts h
  obtain ⟨hlt, hslot, r, hr⟩ := processSlots_header _ s₁ hs₁
  have hblock := processBlock_chain _ s' hs'
  have hheaderLt := hblock.header_slot_lt
  have hparent := hblock.parent_root
  rw [hr] at hheaderLt hparent
  exact ⟨hlt, hheaderLt, ⟨r, hparent⟩, hblock.slot.trans hslot, hblock.header, hroot⟩

end BeaconState

end Moonglass
