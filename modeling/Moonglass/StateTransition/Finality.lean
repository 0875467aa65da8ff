import Moonglass.StateTransition.Past

/-
  Casper bookkeeping. At the end of an epoch `c` the target votes of `c - 1` and `c` are weighed;
  `Weighed` lists everything that writes: the two justified checkpoints, the four justification
  bits and, by one of the four rules, the finalized checkpoint. From it follows that the three
  checkpoints stay in order (`Ordered`), up to the epoch `A` the chain starts in: what is older
  than the start may be in any order, since the start is not checked.
-/

namespace Moonglass

open Lib

variable [Preset]

/-! ## The finalization rules -/

namespace FinalityUpdate

/-- Bit `i` of the update, clear past the end. -/
def bit (f : FinalityUpdate) (i : Nat) : Bool := f.bits[i]?.getD false

variable {f : FinalityUpdate}

omit [Preset] in
theorem bit_of_bitsAreSet {start stop i : Nat} (h : f.bitsAreSet start stop = true)
    (hstart : start ≤ i) (hstop : i < stop) : f.bit i = true := by
  unfold bitsAreSet at h
  rw [List.all_eq_true] at h
  exact h i (List.mem_range'_1.2 ⟨hstart, by omega⟩)

omit [Preset] in
/-- A rule keeps the checkpoint found so far or finds its own. -/
theorem rule_effect (checkpoint : Checkpoint) (start stop delta : Nat)
    (found : Option Checkpoint) : Ensures (f.rule checkpoint start stop delta found) fun r =>
      r = found ∨ r = some checkpoint ∧ f.bitsAreSet start stop = true ∧
        checkpoint.epoch.val + delta = f.currentEpoch.val := by
  unfold rule
  by_cases hbits : f.bitsAreSet start stop = true
  · rw [if_pos hbits]
    refine .bind (Q := fun holds => holds = true →
      checkpoint.epoch.val + delta = f.currentEpoch.val) ?_ fun holds hholds => .pure ?_
    · unfold checkpointIs checkedEpochAdd
      refine .lookup fun expected hexpected => .pure fun heq => ?_
      rw [Word.checkedAdd_eq_some] at hexpected
      rw [← hexpected, beq_iff_eq.1 heq]
    · cases holds with
      | false => exact .inl rfl
      | true => exact .inr ⟨rfl, hbits, hholds rfl⟩
  · rw [if_neg hbits]
    exact .pure (.inl rfl)

/-- `c` is one of the two old justified checkpoints, `delta` epochs back, and both its epoch and
the one after are justified by the bits. -/
structure Finalizes (f : FinalityUpdate) (c : Checkpoint) (delta : Nat) : Prop where
  old : c = f.oldPrevious ∨ c = f.oldCurrent
  epoch : c.epoch.val + (delta + 1) = f.currentEpoch.val
  delta_lt : delta < 3
  bit : f.bit (delta + 1) = true
  bit_next : f.bit delta = true

omit [Preset] in
theorem finalizedCheckpoint_effect :
    Ensures f.finalizedCheckpoint fun r => ∀ c, r = some c → ∃ delta, f.Finalizes c delta := by
  unfold finalizedCheckpoint
  refine .bind (rule_effect _ _ _ _ _) fun r₁ h₁ => ?_
  refine .bind (rule_effect _ _ _ _ _) fun r₂ h₂ => ?_
  refine .bind (rule_effect _ _ _ _ _) fun r₃ h₃ => ?_
  refine (rule_effect _ _ _ _ _).imp fun r₄ h₄ c hc => ?_
  -- the last rule that applied decides; each has both bits among those it asks for
  rcases h₄ with rfl | ⟨rfl, hbits, hepoch⟩
  · rcases h₃ with rfl | ⟨rfl, hbits, hepoch⟩
    · rcases h₂ with rfl | ⟨rfl, hbits, hepoch⟩
      · rcases h₁ with rfl | ⟨rfl, hbits, hepoch⟩
        · cases hc
        · cases hc
          exact ⟨2, .inl rfl, hepoch, by omega, bit_of_bitsAreSet hbits (by omega) (by omega),
            bit_of_bitsAreSet hbits (by omega) (by omega)⟩
      · cases hc
        exact ⟨1, .inl rfl, hepoch, by omega, bit_of_bitsAreSet hbits (by omega) (by omega),
          bit_of_bitsAreSet hbits (by omega) (by omega)⟩
    · cases hc
      exact ⟨1, .inr rfl, hepoch, by omega, bit_of_bitsAreSet hbits (by omega) (by omega),
        bit_of_bitsAreSet hbits (by omega) (by omega)⟩
  · cases hc
    exact ⟨0, .inr rfl, hepoch, by omega, bit_of_bitsAreSet hbits (by omega) (by omega),
      bit_of_bitsAreSet hbits (by omega) (by omega)⟩

end FinalityUpdate

namespace BeaconState

/-! ## Weighing one epoch -/

/-- Bit `i` of the state: is the epoch `i` before the last processed one justified? -/
def justificationBit (s : BeaconState) (i : Nat) : Bool := s.justificationBits[i]?.getD false

/-- `s'` has the checkpoints and the justification bits of `s`. -/
structure SameFinality (s s' : BeaconState) : Prop where
  previous : s'.previousJustifiedCheckpoint = s.previousJustifiedCheckpoint
  current : s'.currentJustifiedCheckpoint = s.currentJustifiedCheckpoint
  finalized : s'.finalizedCheckpoint = s.finalizedCheckpoint
  bits : s'.justificationBits = s.justificationBits

theorem SameFinality.of_chain {s s' : BeaconState} (h : s'.chainView = s.chainView) :
    SameFinality s s' :=
  ⟨congrArg ChainView.previousJustifiedCheckpoint h,
    congrArg ChainView.currentJustifiedCheckpoint h, congrArg ChainView.finalizedCheckpoint h,
    congrArg ChainView.justificationBits h⟩

theorem SameFinality.trans {s s' s'' : BeaconState} (h : SameFinality s s')
    (h' : SameFinality s' s'') : SameFinality s s'' :=
  ⟨h'.previous.trans h.previous, h'.current.trans h.current, h'.finalized.trans h.finalized,
    h'.bits.trans h.bits⟩

/-- What weighing the votes of an epoch writes, when the previous and the current epoch are found
to have their two thirds or not. -/
structure Weighed (s s' : BeaconState) (previous current : Bool) : Prop where
  support_previous : previous = true → Supported s s.getPreviousEpoch
  support_current : current = true → Supported s s.slot.epoch
  previousJustified : s'.previousJustifiedCheckpoint = s.currentJustifiedCheckpoint
  currentJustified : s'.currentJustifiedCheckpoint =
    if current then s.checkpointAt s.slot.epoch
    else if previous then s.checkpointAt s.getPreviousEpoch else s.currentJustifiedCheckpoint
  bit_current : s'.justificationBit 0 = current
  bit_previous : s'.justificationBit 1 = (previous || s.justificationBit 0)
  bit_older : ∀ i, 1 ≤ i → i < 3 → s'.justificationBit (i + 1) = s.justificationBit i
  finalized : s'.finalizedCheckpoint = s.finalizedCheckpoint ∨ ∃ delta, delta < 3 ∧
    (s'.finalizedCheckpoint = s.previousJustifiedCheckpoint ∨
      s'.finalizedCheckpoint = s.currentJustifiedCheckpoint) ∧
    s'.finalizedCheckpoint.epoch.val + (delta + 1) = s.slot.epoch.val ∧
    s'.justificationBit (delta + 1) = true ∧ s'.justificationBit delta = true

omit [Preset] in
theorem getElem?_setIfInBounds_getD (bits : Bitvector justificationBitsLength) (i j : Nat)
    (hi : i < justificationBitsLength) :
    (bits.setIfInBounds i true)[j]?.getD false = (decide (i = j) || bits[j]?.getD false) := by
  rw [Vector.getElem?_setIfInBounds]
  by_cases h : i = j
  · subst h
    simp [hi]
  · simp [h]

omit [Preset] in
theorem getElem?_shiftJustificationBits (bits : Bitvector justificationBitsLength) (j : Nat)
    (hj : j < justificationBitsLength) : (shiftJustificationBits bits)[j]?.getD false =
      if j = 0 then false else bits[j - 1]?.getD false := by
  unfold shiftJustificationBits
  rw [Vector.getElem?_ofFn, dif_pos hj]
  rfl

omit [Preset] in
theorem weighedBits_getD (bits : Bitvector justificationBitsLength) (p c : Bool) (i : Nat)
    (hi : i < justificationBitsLength) :
    (weighedBits bits p c)[i]?.getD false =
      (c && decide (0 = i) || (p && decide (1 = i) ||
        if i = 0 then false else bits[i - 1]?.getD false)) := by
  rw [← getElem?_shiftJustificationBits bits i hi]
  unfold weighedBits
  have h0 : 0 < justificationBitsLength := by decide
  have h1 : 1 < justificationBitsLength := by decide
  cases c <;> cases p <;>
    simp only [if_true, if_false, Bool.false_eq_true, Bool.true_and, Bool.false_and,
      Bool.false_or, getElem?_setIfInBounds_getD _ _ _ h0, getElem?_setIfInBounds_getD _ _ _ h1]

variable {s s' : BeaconState}

/-- In the first two epochs nothing is weighed; later, the votes of two epochs are. -/
theorem processJustificationAndFinalization_weighed
    (h : s.processJustificationAndFinalization = .ok s') :
    s.slot.epoch.val ≤ genesisEpoch.val + 1 ∧ s' = s ∨
      genesisEpoch.val + 1 < s.slot.epoch.val ∧ ∃ previous current,
        Weighed s s' previous current := by
  rcases processJustificationAndFinalization_cases h with
    hearly | ⟨hlate, p, c, finalized, hprevious, hcurrent, hfinalized, rfl⟩
  · exact .inl hearly
  refine .inr ⟨hlate, p, c, ?_⟩
  have hfinalized := FinalityUpdate.finalizedCheckpoint_effect _ hfinalized
  have hbit := weighedBits_getD s.justificationBits p c
  refine
    { support_previous := hprevious
      support_current := hcurrent
      previousJustified := rfl
      currentJustified := rfl
      bit_current := (hbit 0 (by decide)).trans (by simp)
      bit_previous := (hbit 1 (by decide)).trans (by simp [justificationBit])
      bit_older := fun i h1 h3 => ?_
      finalized := ?_ }
  · have hne : i ≠ 0 := by omega
    exact (hbit (i + 1) (by unfold justificationBitsLength; omega)).trans
      (by simp [justificationBit, hne])
  · cases finalized with
    | none => exact .inl rfl
    | some found =>
      obtain ⟨delta, hdelta⟩ := hfinalized found rfl
      exact .inr ⟨delta, hdelta.delta_lt, hdelta.old, hdelta.epoch, hdelta.bit, hdelta.bit_next⟩

/-! ## Chains -/

/-- One turn of the slot loop, or a block. -/
inductive ChainStep [Crypto] : BeaconState → BeaconState → Prop where
  | slot {s s' : BeaconState} : s.advanceSlot = .ok s' → ChainStep s s'
  | block {s s' : BeaconState} (b : BeaconBlock) : s.processBlock b = .ok s' → ChainStep s s'

/-- A chain of slots and blocks leads from one state to the other. -/
abbrev Reaches [Crypto] : BeaconState → BeaconState → Prop := Relation.ReflTransGen ChainStep

theorem processSlots_reaches [Crypto] {target : Slot} (h : s.processSlots target = .ok s') :
    Reaches s s' :=
  (processSlots_inv (P := Reaches s) target (fun _ _ h => .single (.slot h))
    (fun _ _ hs _ h => hs.tail (.slot h)) s' h).2.2

theorem stateTransition_reaches [Crypto] {b : SignedBeaconBlock}
    (h : s.stateTransition b = .ok s') : Reaches s s' := by
  obtain ⟨s₁, hs₁, hs', -⟩ := stateTransition_parts h
  exact (processSlots_reaches hs₁).tail (.block _ hs')

theorem processSlot_finality [Crypto] : Ensures s.processSlot (SameFinality s) := by
  unfold processSlot
  exact .skip fun _ => .pure ⟨rfl, rfl, rfl, rfl⟩

/-- The header phase writes the header. -/
theorem processBlockHeader_eq [Crypto] (block : BeaconBlock) :
    Ensures (s.processBlockHeader block) fun s' =>
      s' = { s with latestBlockHeader := block.header block.body.treeRoot Root.ZERO } := by
  unfold processBlockHeader
  refine .skip fun _ => .skip fun _ => .skip fun _ => .skip fun _ => .skip fun _ => ?_
  exact .skip fun _ => .skip fun _ => .pure rfl

theorem processBlock_finality [Crypto] (block : BeaconBlock) :
    Ensures (s.processBlock block) (SameFinality s) := by
  intro s' h
  obtain ⟨h⟩ := processBlock_phases h
  have hheader : SameFinality h.parent h.header := by
    rw [processBlockHeader_eq block _ h.header_eq]
    exact ⟨rfl, rfl, rfl, rfl⟩
  exact ((SameFinality.of_chain h.chain.1).trans hheader).trans (.of_chain h.chain.2)

/-- What a turn of the slot loop does to finality: nothing within an epoch, and at its end the
votes are weighed on the filed state. -/
theorem advanceSlot_finality [Crypto] (h : s.advanceSlot = .ok s') : ∃ filed,
    s.processSlot = .ok filed ∧ SameFinality s filed ∧ filed.slot = s.slot ∧
      s'.slot.val = s.slot.val + 1 ∧
      (s'.slot.val % slotsPerEpoch ≠ 0 ∧ SameFinality s s' ∨
        s'.slot.val % slotsPerEpoch = 0 ∧ ∃ weighed, SameFinality weighed s' ∧
          filed.processJustificationAndFinalization = .ok weighed) := by
  obtain ⟨filed, next, hfiled, hs', hslot, hparts⟩ := advanceSlot_parts h
  have hsame := processSlot_finality filed hfiled
  refine ⟨filed, hfiled, hsame, (processSlot_effect filed hfiled).slot, hslot, ?_⟩
  rcases hparts with ⟨hinner, rfl⟩ | ⟨hboundary, hepoch⟩
  · refine .inl ⟨hinner, ?_⟩
    rw [hs']
    exact ⟨hsame.previous, hsame.current, hsame.finalized, hsame.bits⟩
  · obtain ⟨parts⟩ := processEpoch_parts next hepoch
    refine .inr ⟨hboundary, parts.justified, ?_, parts.justified_eq⟩
    have hlast := SameFinality.of_chain parts.chain
    rw [hs']
    exact ⟨hlast.previous, hlast.current, hlast.finalized, hlast.bits⟩

/-! ## Order -/

/-- The checkpoints of a state are in order, and the justified one is not of the current epoch, as
far as they are newer than the epoch `A`. -/
structure Ordered (A : Nat) (s : BeaconState) : Prop where
  finalized : s.finalizedCheckpoint.epoch.val ≤ max A s.previousJustifiedCheckpoint.epoch.val
  previous : s.previousJustifiedCheckpoint.epoch.val ≤ max A s.currentJustifiedCheckpoint.epoch.val
  current : s.currentJustifiedCheckpoint.epoch.val ≤ max A (s.slot.epoch.val - 1)

/-- No checkpoint goes back, as far as it is newer than the epoch `A`. -/
structure Raised (A : Nat) (s s' : BeaconState) : Prop where
  previous : s.previousJustifiedCheckpoint.epoch.val ≤
    max A s'.previousJustifiedCheckpoint.epoch.val
  current : s.currentJustifiedCheckpoint.epoch.val ≤ max A s'.currentJustifiedCheckpoint.epoch.val
  finalized : s.finalizedCheckpoint.epoch.val ≤ max A s'.finalizedCheckpoint.epoch.val

variable {A : Nat}

theorem Raised.of_same (h : SameFinality s s') : Raised A s s' := by
  refine ⟨?_, ?_, ?_⟩
  · rw [h.previous]; exact le_max_right _ _
  · rw [h.current]; exact le_max_right _ _
  · rw [h.finalized]; exact le_max_right _ _

theorem Raised.trans {s'' : BeaconState} (h : Raised A s s') (h' : Raised A s' s'') :
    Raised A s s'' := by
  have := h.previous
  have := h.current
  have := h.finalized
  have := h'.previous
  have := h'.current
  have := h'.finalized
  exact ⟨by omega, by omega, by omega⟩

/-- Weighing raises the checkpoints and keeps them in order; the current epoch may now be
justified. -/
theorem processJustificationAndFinalization_ordered (hs : Ordered A s)
    (h : s.processJustificationAndFinalization = .ok s') :
    Raised A s s' ∧
      s'.finalizedCheckpoint.epoch.val ≤ max A s'.previousJustifiedCheckpoint.epoch.val ∧
      s'.previousJustifiedCheckpoint.epoch.val ≤ max A s'.currentJustifiedCheckpoint.epoch.val ∧
      s'.currentJustifiedCheckpoint.epoch.val ≤ max A s.slot.epoch.val := by
  have hfinalized := hs.finalized
  have hprevious := hs.previous
  have hcurrent := hs.current
  rcases processJustificationAndFinalization_weighed h with ⟨-, rfl⟩ | ⟨hlate, p, c, hw⟩
  · exact ⟨.of_same ⟨rfl, rfl, rfl, rfl⟩, hfinalized, hprevious, by omega⟩
  -- the justified epoch moves to this epoch, to the one before, or not at all
  have hjustified : s'.currentJustifiedCheckpoint.epoch.val = s.slot.epoch.val ∨
      s'.currentJustifiedCheckpoint.epoch.val = s.slot.epoch.val - 1 ∨
      s'.currentJustifiedCheckpoint = s.currentJustifiedCheckpoint := by
    rw [hw.currentJustified]
    cases c with
    | true => exact .inl rfl
    | false =>
      cases p with
      | true => exact .inr (.inl rfl)
      | false => exact .inr (.inr rfl)
  have hraised : s.currentJustifiedCheckpoint.epoch.val ≤
      max A s'.currentJustifiedCheckpoint.epoch.val := by
    rcases hjustified with h | h | h
    · omega
    · omega
    · rw [h]; exact le_max_right _ _
  have hbound : s'.currentJustifiedCheckpoint.epoch.val ≤ max A s.slot.epoch.val := by
    rcases hjustified with h | h | h
    · omega
    · omega
    · rw [h]; omega
  have hrecord : s'.finalizedCheckpoint = s.finalizedCheckpoint ∨
      s'.finalizedCheckpoint = s.previousJustifiedCheckpoint ∨
      s'.finalizedCheckpoint = s.currentJustifiedCheckpoint := by
    rcases hw.finalized with h | ⟨_, -, h | h, -⟩
    · exact .inl h
    · exact .inr (.inl h)
    · exact .inr (.inr h)
  have hprevious' := congrArg (fun c : Checkpoint => c.epoch.val) hw.previousJustified
  rcases hrecord with h | h | h
  all_goals
    rw [h]
    refine ⟨⟨by omega, hraised, by rw [h]; omega⟩, by omega, by omega, hbound⟩

theorem ChainStep.ordered [Crypto] (hs : Ordered A s) (h : ChainStep s s') :
    Ordered A s' ∧ Raised A s s' := by
  cases h with
  | block b h =>
    have hsame := processBlock_finality b s' h
    refine ⟨⟨?_, ?_, ?_⟩, .of_same hsame⟩
    · rw [hsame.finalized, hsame.previous]; exact hs.finalized
    · rw [hsame.previous, hsame.current]; exact hs.previous
    · rw [hsame.current, (processBlock_chain b s' h).slot]; exact hs.current
  | slot h =>
    obtain ⟨filed, -, hfiled, hslot, hnext, ⟨-, hsame⟩ | ⟨hboundary, weighed, hsame, hweighed⟩⟩ :=
      advanceSlot_finality h
    · have hepoch : s.slot.epoch.val ≤ s'.slot.epoch.val :=
        Nat.div_le_div_right (by omega)
      have hcurrent := hs.current
      refine ⟨⟨?_, ?_, ?_⟩, .of_same hsame⟩
      · rw [hsame.finalized, hsame.previous]; exact hs.finalized
      · rw [hsame.previous, hsame.current]; exact hs.previous
      · rw [hsame.current]; omega
    · have hordered : Ordered A filed := by
        refine ⟨?_, ?_, ?_⟩
        · rw [hfiled.finalized, hfiled.previous]; exact hs.finalized
        · rw [hfiled.previous, hfiled.current]; exact hs.previous
        · rw [hfiled.current, hslot]; exact hs.current
      obtain ⟨hraised, hfinalized, hprevious, hcurrent⟩ :=
        processJustificationAndFinalization_ordered hordered hweighed
      have hepoch : s'.slot.epoch.val = s.slot.epoch.val + 1 := by
        rw [Slot.epoch_val, Slot.epoch_val, hnext]
        rw [hnext] at hboundary
        exact Nat.succ_div_of_mod_eq_zero hboundary
      refine ⟨⟨?_, ?_, ?_⟩, ((Raised.of_same hfiled).trans hraised).trans (.of_same hsame)⟩
      · rw [hsame.finalized, hsame.previous]; exact hfinalized
      · rw [hsame.previous, hsame.current]; exact hprevious
      · rw [hsame.current, hepoch, ← hslot]; exact hcurrent

/-- The rule for chains: what every step keeps, the chain keeps. -/
theorem Reaches.inv [Crypto] {P : BeaconState → Prop} (step : ∀ s s', P s → ChainStep s s' → P s')
    (h : Reaches s s') (hs : P s) : P s' := by
  induction h with
  | refl => exact hs
  | tail _ hstep ih => exact step _ _ ih hstep

theorem Reaches.ordered [Crypto] (h : Reaches s s') (hs : Ordered A s) :
    Ordered A s' ∧ Raised A s s' := by
  refine h.inv (P := fun s' => Ordered A s' ∧ Raised A s s') ?_ ⟨hs, .of_same ⟨rfl, rfl, rfl, rfl⟩⟩
  intro s₁ s₂ ⟨hordered, hraised⟩ hstep
  obtain ⟨hordered₂, hraised₂⟩ := hstep.ordered hordered
  exact ⟨hordered₂, hraised.trans hraised₂⟩

end BeaconState

end Moonglass
