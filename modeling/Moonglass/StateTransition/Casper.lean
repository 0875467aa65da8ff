import Moonglass.StateTransition.Finality
import Moonglass.Devnet

/-
  Justification and finalization over a whole chain. `History` pairs every state a chain reaches
  with the checkpoints that were justified on the way. From a state whose checkpoints are zero and
  whose bits are clear, the bits are a window on that history, a justified epoch has one root, and
  an epoch is finalized only once it and its successor are justified.
-/

namespace Moonglass

open Lib

variable [Preset] [Crypto]
variable {c : Checkpoint} {filed weighed : BeaconState}

namespace BeaconState

/-- The checkpoints justified when the slot of `s` ends: those of the weighed epochs that have two
thirds of the stake. -/
def justifiedAtEnd (s : BeaconState) : Set Checkpoint :=
  { c | (s.slot.val + 1) % slotsPerEpoch = 0 ∧ genesisEpoch.val + 1 < s.slot.epoch.val ∧
    ∃ filed epoch, s.processSlot = .ok filed ∧ Supported filed epoch ∧
      c = filed.checkpointAt epoch }

variable {s₀ s s' : BeaconState} {J : Set Checkpoint}

/-- What holds of every state and its history. -/
structure Casper (J : Set Checkpoint) (s : BeaconState) : Prop where
  ordered : Ordered 0 s
  past : ∀ c ∈ J, 1 ≤ c.epoch.val ∧ c.epoch.val < s.slot.epoch.val
  unique : ∀ c ∈ J, ∀ c' ∈ J, c.epoch = c'.epoch → c = c'
  /-- The root justified for the epoch before is still in the ring. -/
  recent : ∀ c ∈ J, s.slot.epoch.val ≤ c.epoch.val + 1 →
    c.root = ringGet s.blockRoots c.epoch.startSlot.val
  bits : ∀ i, s.justificationBit i = true → ∃ c ∈ J, c.epoch.val + (i + 1) = s.slot.epoch.val
  finalized : s.finalizedCheckpoint.epoch.val = 0 ∨ ∃ c ∈ J, ∃ c' ∈ J,
    c.epoch = s.finalizedCheckpoint.epoch ∧ c'.epoch.val = s.finalizedCheckpoint.epoch.val + 1

omit [Crypto] in
/-- Bits past the last one are clear. -/
theorem lt_of_justificationBit {i : Nat} (h : s.justificationBit i = true) :
    i < justificationBitsLength := by
  by_contra hge
  unfold justificationBit at h
  rw [Vector.getElem?_eq_none (not_lt.1 hge)] at h
  cases h

omit [Crypto] in
/-- A checkpoint justified for the epoch before keeps its place in the ring while the slots of this
epoch are filed. -/
theorem Casper.recent_filed (h : Casper J s) (hc : c ∈ J)
    (hrecent : s.slot.epoch.val ≤ c.epoch.val + 1) (root : Root) :
    c.root = ringGet (ringSet s.blockRoots s.slot.val root) c.epoch.startSlot.val := by
  obtain ⟨hpos, hlt⟩ := h.past c hc
  have hprevious : c.epoch = s.getPreviousEpoch := by
    apply Fin.ext
    show c.epoch.val = s.slot.epoch.val - 1
    omega
  obtain ⟨hbefore, hring⟩ := s.startSlot_bounds.2.2 (by omega)
  rw [← hprevious] at hbefore hring
  rw [ringGet_ringSet_of_near hbefore hring]
  exact h.recent c hc hrecent

/-- A block keeps the invariant: it writes none of what it speaks about. -/
theorem Casper.block (h : Casper J s) {b : BeaconBlock} (hb : s.processBlock b = .ok s') :
    Casper J s' := by
  have hsame := processBlock_finality b s' hb
  have hchain := processBlock_chain b s' hb
  have hbit : ∀ i, s'.justificationBit i = s.justificationBit i := fun i => by
    unfold justificationBit; rw [hsame.bits]
  refine ⟨((ChainStep.block b hb).ordered h.ordered).1, ?_, h.unique, ?_, ?_, ?_⟩
  · rw [hchain.slot]; exact h.past
  · rw [hchain.slot, hchain.blockRoots]; exact h.recent
  · intro i hi
    rw [hchain.slot]
    exact h.bits i (hbit i ▸ hi)
  · rw [hsame.finalized]; exact h.finalized

/-- A slot within an epoch keeps the invariant: it files a root, which is not a recent target. -/
theorem Casper.inner (h : Casper J s) (hslot : s.advanceSlot = .ok s')
    (hinner : s'.slot.val % slotsPerEpoch ≠ 0) (hsame : SameFinality s s') : Casper J s' := by
  have heffect := advanceSlot_effect s' hslot
  have hepoch : s'.slot.epoch.val = s.slot.epoch.val := by
    rw [heffect.slot] at hinner
    rw [Slot.epoch_val, Slot.epoch_val, heffect.slot]
    exact Nat.succ_div_of_not_dvd fun hdvd => hinner (Nat.eq_zero_of_dvd_of_lt
      ((Nat.dvd_mod_iff (dvd_refl _)).2 hdvd) (Nat.mod_lt _ slotsPerEpoch_pos))
  have hbit : ∀ i, s'.justificationBit i = s.justificationBit i := fun i => by
    unfold justificationBit; rw [hsame.bits]
  refine ⟨((ChainStep.slot hslot).ordered h.ordered).1, ?_, h.unique, ?_, ?_, ?_⟩
  · rw [hepoch]; exact h.past
  · intro c hc hrecent
    rw [hepoch] at hrecent
    rw [heffect.blockRoots]
    exact h.recent_filed hc hrecent _
  · intro i hi
    rw [hepoch]
    exact h.bits i (hbit i ▸ hi)
  · rw [hsame.finalized]; exact h.finalized

/-- The checkpoints justified at the end of an epoch are of this epoch or the one before. -/
theorem justifiedAtEnd_epoch (hc : c ∈ s.justifiedAtEnd) :
    1 < s.slot.epoch.val ∧ (c.epoch = s.slot.epoch ∨ c.epoch = s.getPreviousEpoch) := by
  obtain ⟨-, hlate, filed, epoch, hfiled, hsupported, rfl⟩ := hc
  have hslot := (processSlot_effect filed hfiled).slot
  refine ⟨hlate, ?_⟩
  have hprevious : filed.getPreviousEpoch = s.getPreviousEpoch := by
    unfold getPreviousEpoch getCurrentEpoch; rw [hslot]
  rcases hsupported.epoch_eq with h | h
  · exact .inl (by rw [← hslot]; exact h)
  · exact .inr (hprevious ▸ h)

/-- The roots justified at the end of an epoch are read from the ring, after the slot is filed. -/
theorem justifiedAtEnd_root (hc : c ∈ s.justifiedAtEnd) :
    c.root = ringGet (ringSet s.blockRoots s.slot.val s.filledHeader.treeRoot)
      c.epoch.startSlot.val := by
  obtain ⟨-, -, filed, epoch, hfiled, -, rfl⟩ := hc
  rw [← (processSlot_effect filed hfiled).blockRoots]
  rfl

/-- A justified epoch keeps its root when it is justified again. -/
theorem Casper.unique_end (h : Casper J s) : ∀ c ∈ J ∪ s.justifiedAtEnd,
    ∀ c' ∈ J ∪ s.justifiedAtEnd, c.epoch = c'.epoch → c = c' := by
  -- the only epoch that can be justified twice is the one before
  have hagain : ∀ c ∈ J, ∀ c' ∈ s.justifiedAtEnd, c.epoch = c'.epoch → c = c' := by
    intro c hc c' hc' heq
    obtain ⟨hlate, hepoch⟩ := justifiedAtEnd_epoch hc'
    obtain ⟨-, hlt⟩ := h.past c hc
    have hrecent : s.slot.epoch.val ≤ c.epoch.val + 1 := by
      rw [heq]
      rcases hepoch with h | h
      · rw [h]; omega
      · rw [h]
        show s.slot.epoch.val ≤ s.slot.epoch.val - 1 + 1
        omega
    have hroot := (h.recent_filed hc hrecent _).trans (heq ▸ (justifiedAtEnd_root hc').symm)
    cases c
    cases c'
    cases heq
    cases hroot
    rfl
  rintro c (hc | hc) c' (hc' | hc') heq
  · exact h.unique c hc c' hc' heq
  · exact hagain c hc c' hc' heq
  · exact (hagain c' hc' c hc heq.symm).symm
  · have hroot := (justifiedAtEnd_root hc).trans (heq ▸ (justifiedAtEnd_root hc').symm)
    cases c
    cases c'
    cases heq
    cases hroot
    rfl

/-- What the bits say after an epoch is in the history. -/
theorem Casper.bits_end (h : Casper J s) (hfiled : s.processSlot = .ok filed)
    (hsame : SameFinality s filed)
    (hweighed : filed.processJustificationAndFinalization = .ok weighed)
    (hboundary : (s.slot.val + 1) % slotsPerEpoch = 0) (i : Nat)
    (hi : weighed.justificationBit i = true) :
    ∃ c ∈ J ∪ s.justifiedAtEnd, c.epoch.val + i = s.slot.epoch.val := by
  have hslot := (processSlot_effect filed hfiled).slot
  have hold : ∀ i, filed.justificationBit i = s.justificationBit i := fun i => by
    unfold justificationBit; rw [hsame.bits]
  -- a bit that was set moves on with its epoch
  have hmoved : ∀ i, filed.justificationBit i = true →
      ∃ c ∈ J ∪ s.justifiedAtEnd, c.epoch.val + (i + 1) = s.slot.epoch.val := by
    intro i hi
    obtain ⟨c, hc, hepoch⟩ := h.bits i (hold i ▸ hi)
    exact ⟨c, .inl hc, hepoch⟩
  rcases processJustificationAndFinalization_weighed hweighed with ⟨hearly, rfl⟩ | ⟨hlate, p, c, hw⟩
  · obtain ⟨c, hc, hepoch⟩ := h.bits i (hold i ▸ hi)
    have := h.past c hc
    rw [hslot] at hearly
    have hgenesis : genesisEpoch.val = 0 := rfl
    omega
  have hnew : ∀ epoch, Supported filed epoch → filed.checkpointAt epoch ∈ s.justifiedAtEnd :=
    fun epoch hsupported => ⟨hboundary, hslot ▸ hlate, filed, epoch, hfiled, hsupported, rfl⟩
  match i, lt_of_justificationBit hi with
  | 0, _ =>
    rw [hw.bit_current] at hi
    exact ⟨_, .inr (hnew _ (hw.support_current hi)), congrArg (fun slot : Slot => slot.epoch.val) hslot⟩
  | 1, _ =>
    rw [hw.bit_previous, Bool.or_eq_true] at hi
    rcases hi with hi | hi
    · refine ⟨_, .inr (hnew _ (hw.support_previous hi)), ?_⟩
      show filed.slot.epoch.val - 1 + 1 = s.slot.epoch.val
      rw [hslot] at hlate ⊢
      omega
    · exact hmoved 0 hi
  | 2, _ => exact hmoved 1 (hw.bit_older 1 (by omega) (by omega) ▸ hi)
  | 3, _ => exact hmoved 2 (hw.bit_older 2 (by omega) (by omega) ▸ hi)

/-- The end of an epoch keeps the invariant, with what was justified there. -/
theorem Casper.boundary (h : Casper J s) (hslot : s.advanceSlot = .ok s')
    (hboundary : s'.slot.val % slotsPerEpoch = 0) (hfiled : s.processSlot = .ok filed)
    (hsame : SameFinality s filed) (hlast : SameFinality weighed s')
    (hweighed : filed.processJustificationAndFinalization = .ok weighed) :
    Casper (J ∪ s.justifiedAtEnd) s' := by
  have heffect := advanceSlot_effect s' hslot
  rw [heffect.slot] at hboundary
  have hepoch : s'.slot.epoch.val = s.slot.epoch.val + 1 := by
    rw [Slot.epoch_val, Slot.epoch_val, heffect.slot]
    exact Nat.succ_div_of_mod_eq_zero hboundary
  have hnew : ∀ c ∈ s.justifiedAtEnd, 1 < s.slot.epoch.val ∧
      (c.epoch.val = s.slot.epoch.val ∨ c.epoch.val = s.slot.epoch.val - 1) := by
    intro c hc
    obtain ⟨hlate, h | h⟩ := justifiedAtEnd_epoch hc
    · exact ⟨hlate, .inl (congrArg Fin.val h)⟩
    · exact ⟨hlate, .inr (congrArg Fin.val h)⟩
  have hbits : ∀ i, s'.justificationBit i = true →
      ∃ c ∈ J ∪ s.justifiedAtEnd, c.epoch.val + i = s.slot.epoch.val := by
    intro i hi
    refine h.bits_end hfiled hsame hweighed hboundary i ?_
    unfold justificationBit at hi ⊢
    rwa [hlast.bits] at hi
  refine ⟨((ChainStep.slot hslot).ordered h.ordered).1, ?_, h.unique_end, ?_, ?_, ?_⟩
  · rintro c (hc | hc)
    · have := h.past c hc
      omega
    · have := hnew c hc
      omega
  · rintro c (hc | hc) hrecent
    · have := h.past c hc
      omega
    · rw [heffect.blockRoots]
      exact justifiedAtEnd_root hc
  · intro i hi
    obtain ⟨c, hc, heq⟩ := hbits i hi
    exact ⟨c, hc, by omega⟩
  · rw [hlast.finalized]
    have hkept : s.finalizedCheckpoint.epoch.val = 0 ∨ ∃ c ∈ J ∪ s.justifiedAtEnd,
        ∃ c' ∈ J ∪ s.justifiedAtEnd, c.epoch = s.finalizedCheckpoint.epoch ∧
          c'.epoch.val = s.finalizedCheckpoint.epoch.val + 1 := by
      rcases h.finalized with hzero | ⟨c, hc, c', hc', heq, heq'⟩
      · exact .inl hzero
      · exact .inr ⟨c, .inl hc, c', .inl hc', heq, heq'⟩
    rw [← hsame.finalized] at hkept
    rcases processJustificationAndFinalization_weighed hweighed with ⟨-, rfl⟩ | ⟨-, p, c, hw⟩
    · exact hkept
    rcases hw.finalized with heq | ⟨delta, -, -, hdelta, hbit, hbit'⟩
    · rw [heq]; exact hkept
    -- a rule asks for the bits of the finalized epoch and of the one after
    rw [(processSlot_effect filed hfiled).slot] at hdelta
    obtain ⟨c₁, hc₁, h₁⟩ := h.bits_end hfiled hsame hweighed hboundary _ hbit
    obtain ⟨c₂, hc₂, h₂⟩ := h.bits_end hfiled hsame hweighed hboundary _ hbit'
    exact .inr ⟨c₁, hc₁, c₂, hc₂, Fin.ext (by omega), by omega⟩

end BeaconState

end Moonglass

namespace Moonglass.Devnet

open Lib BeaconState

/-- A network in epoch 2 in which every validator has voted in time, in this epoch and the last. -/
def voted : BeaconState :=
  { anchorState 16 with
    previousEpochParticipation := perValidator 7 7 eight_le
    currentEpochParticipation := perValidator 7 7 eight_le }

end Moonglass.Devnet
