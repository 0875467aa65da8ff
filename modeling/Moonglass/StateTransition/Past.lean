import Moonglass.StateTransition.Chain

/-
  What a state knows of the past. Slots file the root of the last block, epochs justify roots read
  from that file; so every root a state names is one it started with or the root of a block of an
  earlier slot. `Old q r` stands for "`r` is a root from before slot `q`".
-/

namespace Moonglass

open Lib

variable [Preset]

/-- The first slot of a slot's epoch, without saturation. -/
theorem Slot.startSlot_epoch_val (s : Slot) :
    s.epoch.startSlot.val = s.val / slotsPerEpoch * slotsPerEpoch := by
  have h := Nat.div_mul_le_self s.val slotsPerEpoch
  have hlt := s.isLt
  rw [Epoch.startSlot_val, Slot.epoch_val]
  exact Nat.min_eq_left (by omega)

namespace BeaconState

variable {s s' : BeaconState} {Old : Nat → Root → Prop}

/-- The roots `s` names are old: those it has filed are from before its slot, and the justified one
from before the slot that came before. -/
structure Aged (Old : Nat → Root → Prop) (s : BeaconState) : Prop where
  roots : ∀ i, Old s.slot.val (ringGet s.blockRoots i)
  justified : Old (s.slot.val - 1) s.currentJustifiedCheckpoint.root

omit [Preset] in
/-- The last slot of an epoch lies after the first one. -/
theorem lastSlot_bounds {slot spe : Nat} (hspe : 2 ≤ spe) (hb : (slot + 1) % spe = 0) :
    slot / spe * spe < slot := by
  have hdiv := Nat.div_add_mod slot spe
  rw [Nat.mul_comm] at hdiv
  by_contra hle
  have hzero : slot % spe = 0 := by omega
  have hone : (slot + 1) % spe = 1 := by
    rw [Nat.add_mod, hzero, Nat.zero_add, Nat.mod_mod, Nat.mod_eq_of_lt (by omega)]
  omega

/-- The first slot of this epoch and of the one before are in the ring, and not after this slot. -/
theorem startSlot_bounds (s : BeaconState) : s.slot.epoch.startSlot.val ≤ s.slot.val ∧
    s.slot.val < s.slot.epoch.startSlot.val + slotsPerHistoricalRoot ∧
    (0 < s.slot.epoch.val → s.getPreviousEpoch.startSlot.val < s.slot.val ∧
      s.slot.val < s.getPreviousEpoch.startSlot.val + slotsPerHistoricalRoot) := by
  obtain ⟨hspe, hring⟩ := epochs_in_ring
  have hslot := s.slot.isLt
  have hdiv := Nat.div_add_mod s.slot.val slotsPerEpoch
  have hmod := Nat.mod_lt s.slot.val (show 0 < slotsPerEpoch by omega)
  rw [Nat.mul_comm] at hdiv
  rw [Slot.startSlot_epoch_val]
  refine ⟨by omega, by omega, fun hpos => ?_⟩
  have hpred : (s.slot.val / slotsPerEpoch - 1) * slotsPerEpoch =
      s.slot.val / slotsPerEpoch * slotsPerEpoch - slotsPerEpoch := by
    rw [Nat.sub_mul, Nat.one_mul]
  have hone : slotsPerEpoch ≤ s.slot.val / slotsPerEpoch * slotsPerEpoch :=
    Nat.le_mul_of_pos_left _ hpos
  have hstart : s.getPreviousEpoch.startSlot.val =
      s.slot.val / slotsPerEpoch * slotsPerEpoch - slotsPerEpoch := by
    rw [Epoch.startSlot_val, ← hpred]
    refine Nat.min_eq_left ?_
    show (s.slot.val / slotsPerEpoch - 1) * slotsPerEpoch ≤ _
    omega
  omega

/-- At the end of an epoch, the first slots of this epoch and of the one before are past and still
in the ring. -/
theorem Supported.startSlot_bounds {epoch : Epoch} (h : Supported s epoch)
    (hlate : 0 < s.slot.epoch.val) (hb : (s.slot.val + 1) % slotsPerEpoch = 0) :
    epoch.startSlot.val < s.slot.val ∧
      s.slot.val < epoch.startSlot.val + slotsPerHistoricalRoot := by
  obtain ⟨-, hring, hprevious⟩ := s.startSlot_bounds
  rcases h.epoch_eq with rfl | rfl
  · refine ⟨?_, hring⟩
    rw [Slot.startSlot_epoch_val]
    exact lastSlot_bounds epochs_in_ring.1 hb
  · exact hprevious hlate

/-- At the end of an epoch, justification reads a root from before its last slot. -/
theorem JustifiedBy.old [Crypto] {s₀ s₁ : BeaconState} (hfiled : SlotFiled s s₀)
    (h : JustifiedBy s₀ s₁) (hb : (s.slot.val + 1) % slotsPerEpoch = 0)
    (hroots : ∀ i, Old s.slot.val (ringGet s.blockRoots i))
    (hjustified : Old s.slot.val s.currentJustifiedCheckpoint.root) :
    Old s.slot.val s₁.currentJustifiedCheckpoint.root := by
  rcases h.justified with h | ⟨hlate, epoch, h, hsupported⟩
  · rw [h, hfiled.justified]
    exact hjustified
  -- the epoch is this one or the one before, so its first slot is not the one just filed
  rw [← hfiled.slot] at hb
  obtain ⟨hpast, hkept⟩ := hsupported.startSlot_bounds (by omega) hb
  rw [hfiled.slot] at hpast hkept
  rw [h]
  show Old s.slot.val (ringGet s₀.blockRoots epoch.startSlot.val)
  rw [hfiled.blockRoots, ringGet_ringSet_of_near hpast hkept]
  exact hroots _

/-- A slot keeps the roots old, when the root it files is. -/
theorem SlotAdvanced.aged [Crypto] (hmono : ∀ q q' r, q ≤ q' → Old q r → Old q' r)
    (h : SlotAdvanced s s')
    (hs : Aged Old s) (hroot : Old (s.slot.val + 1) s.filledHeader.treeRoot) : Aged Old s' := by
  have hslot := h.slot
  constructor
  · intro i
    rw [h.blockRoots, ringGet_ringSet, hslot]
    split
    · exact hroot
    · exact hmono _ _ _ (Nat.le_succ _) (hs.roots i)
  · rw [hslot, Nat.add_sub_cancel]
    have hjustified : Old s.slot.val s.currentJustifiedCheckpoint.root :=
      hmono _ _ _ (Nat.sub_le _ _) hs.justified
    by_cases hb : (s.slot.val + 1) % slotsPerEpoch = 0
    · obtain ⟨⟨s₀, s₁, hfiled, hby, heq⟩, -, -⟩ := h.boundary hb
      rw [heq]
      exact hby.old hfiled hb hs.roots hjustified
    · rw [(h.inner hb).1]
      exact hjustified

/-! ## Whole transitions -/

/-- The header filed by the first slot keeps being filed until the next block. -/
theorem filledHeader_eq_self [Crypto] (h : s.latestBlockHeader.stateRoot ≠ Root.ZERO) :
    s.filledHeader = s.latestBlockHeader := if_neg h

theorem filledHeader_stateRoot_ne [Crypto] (h : s.treeRoot ≠ Root.ZERO) :
    s.filledHeader.stateRoot ≠ Root.ZERO := by
  unfold filledHeader
  split
  · exact h
  · assumption

/-- Slots keep the roots old, and the header they end with is the one filed first. -/
theorem processSlots_aged [Crypto] (hmono : ∀ q q' r, q ≤ q' → Old q r → Old q' r)
    (hzero : s.treeRoot ≠ Root.ZERO) (hs : Aged Old s)
    (hroot : Old (s.slot.val + 1) s.filledHeader.treeRoot) (target : Slot) :
    Ensures (s.processSlots target) fun s' => s'.slot = target ∧ Aged Old s' ∧
      s'.latestBlockHeader = s.filledHeader := by
  refine Ensures.imp (processSlots_inv (P := fun s' => s.slot.val ≤ s'.slot.val ∧ Aged Old s' ∧
    s'.latestBlockHeader = s.filledHeader) target ?_ ?_) fun _ h => ⟨h.2.1, h.2.2.2⟩
  · intro s' _ h
    have h := advanceSlot_effect s' h
    exact ⟨by rw [h.slot]; omega, h.aged hmono hs hroot, h.header⟩
  · rintro s₁ s' ⟨hle, haged, hheader⟩ - h
    have h := advanceSlot_effect s' h
    have hfilled : s₁.filledHeader = s.filledHeader := by
      rw [filledHeader_eq_self (hheader ▸ filledHeader_stateRoot_ne hzero), hheader]
    refine ⟨by rw [h.slot]; omega, h.aged hmono haged ?_, h.header.trans hfilled⟩
    rw [hfilled]
    exact hmono _ _ _ (by omega) hroot

/-- A block keeps the roots old, when its parent is from before the slot after its own. -/
theorem stateTransition_aged [Crypto] (hmono : ∀ q q' r, q ≤ q' → Old q r → Old q' r)
    (hzero : s.treeRoot ≠ Root.ZERO) (hs : Aged Old s) (signedBlock : SignedBeaconBlock)
    (hroot : Old (s.slot.val + 1) s.filledHeader.treeRoot) :
    Ensures (s.stateTransition signedBlock) (Aged Old) := by
  intro s' h
  obtain ⟨s₁, hs₁, hs', -⟩ := stateTransition_parts h
  obtain ⟨-, haged, -⟩ := processSlots_aged hmono hzero hs hroot _ s₁ hs₁
  have hblock := processBlock_chain _ s' hs'
  refine ⟨fun i => ?_, ?_⟩
  · rw [hblock.slot, hblock.blockRoots]
    exact haged.roots i
  · rw [hblock.slot, hblock.justified]
    exact haged.justified

/-- The parent root of an accepted block is the root its slots have filed. -/
theorem stateTransition_parentRoot [Crypto] {signedBlock : SignedBeaconBlock}
    (hzero : s.treeRoot ≠ Root.ZERO) (h : s.stateTransition signedBlock = .ok s') :
    signedBlock.message.parentRoot = s.filledHeader.treeRoot := by
  obtain ⟨s₁, hs₁, hs', -⟩ := stateTransition_parts h
  have haged : Aged (fun _ _ => True) s := ⟨fun _ => trivial, trivial⟩
  obtain ⟨-, -, hheader⟩ :=
    processSlots_aged (fun _ _ _ _ _ => trivial) hzero haged trivial _ s₁ hs₁
  rw [(processBlock_chain _ s' hs').parent_root, hheader]

end BeaconState

end Moonglass
