import Moonglass.ForkChoice.Invariant
import Moonglass.StateTransition.Past

/-
  How old justified roots are. Every root that a stored state has filed or justified is one that
  the anchor came with, the anchor's own, or the root of a stored block from before the state's
  slot; so the justified root of the store, unless it is the anchor, is at least two slots old.
-/

namespace Moonglass

open Lib HashMap BeaconState

variable [Preset] [Crypto]

namespace Store

/-- A root the anchor came with, or of a stored block that is older than slot `q`. -/
def OlderThan (g : Origin) (s : Store) (q : Nat) (r : Root) : Prop :=
  NamedByAnchor g.state g.anchor r ∨ r = g.root ∨
    ∃ b, s.blocks.lookup r = some b ∧ b.slot.val < q

/-- The states of the store speak about the past, and so do its justified checkpoints. -/
structure Dated (g : Origin) (s : Store) : Prop where
  state : ∀ {r state}, s.blockStates.lookup r = some state → state.Aged (OlderThan g s)
  unrealized : OlderThan g s s.getCurrentSlot.val s.unrealizedJustifiedCheckpoint.root
  justified : OlderThan g s (s.getCurrentSlot.val - 1) s.justifiedCheckpoint.root

variable {g : Origin} {s s' : Store} {r : Root}

theorem OlderThan.mono {q q' : Nat} (hq : q ≤ q') (h : OlderThan g s q r) : OlderThan g s q' r := by
  rcases h with h | h | ⟨b, hb, hlt⟩
  · exact .inl h
  · exact .inr (.inl h)
  · exact .inr (.inr ⟨b, hb, by omega⟩)

theorem OlderThan.grows {q : Nat} (hs : Grows s s') (h : OlderThan g s q r) :
    OlderThan g s' q r := by
  rcases h with h | h | ⟨b, hb, hlt⟩
  · exact .inl h
  · exact .inr (.inl h)
  · exact .inr (.inr ⟨b, hs.blocks hb, hlt⟩)

variable {state : BeaconState}

theorem aged_grows (hs : Grows s s') (h : state.Aged (OlderThan g s)) :
    state.Aged (OlderThan g s') :=
  ⟨fun i => (h.roots i).grows hs, h.justified.grows hs⟩

/-! ## Steps without a block -/

theorem Dated.kept (dated : Dated g s) (h : Kept s s') : Dated g s' where
  state := by
    rw [h.states]
    exact fun hstate => aged_grows h.grows (dated.state hstate)
  unrealized := by
    rw [h.unrealizedJustified]
    exact (dated.unrealized.grows h.grows).mono h.clock
  justified := by
    have hclock : s.getCurrentSlot.val ≤ s'.getCurrentSlot.val := h.clock
    rcases h.justified with hj | ⟨hj, hlt, -⟩
    · rw [hj]
      exact (dated.justified.grows h.grows).mono (by omega)
    · -- the unrealized checkpoint is adopted when a new slot begins
      have hlt : s.getCurrentSlot.val < s'.getCurrentSlot.val := hlt
      rw [hj]
      exact (dated.unrealized.grows h.grows).mono (by omega)

/-! ## Blocks -/

/-- The state of a stored block has the root the block commits to. -/
theorem Inv.state_root (inv : Inv g s) {b : BeaconBlock} (hb : s.blocks.lookup r = some b)
    (hstate : s.blockStates.lookup r = some state) : b.stateRoot = state.treeRoot := by
  by_cases hr : r = g.root
  · rw [hr, inv.anchor_block] at hb
    rw [hr, inv.anchor_state] at hstate
    cases hb
    cases hstate
    exact g.state_root
  · obtain ⟨p, parentState, h⟩ := inv.child_of hb hr hstate
    exact (Inv.transitioned h).state_root

theorem Inv.state_root_ne (inv : Inv g s)
    (hstate : s.blockStates.lookup r = some state) : state.treeRoot ≠ Root.ZERO := by
  obtain ⟨b, hb⟩ := mem_iff_lookup.1 (inv.state_mem (mem_of_lookup hstate))
  exact g.noCollision.state_root_ne b (inv.block hb).1 state (inv.state_root hb hstate)

/-- A stored block is the anchor or from before the slot after its state's. -/
theorem Inv.olderThan_succ (inv : Inv g s)
    (hstate : s.blockStates.lookup r = some state) : OlderThan g s (state.slot.val + 1) r := by
  by_cases hr : r = g.root
  · exact .inr (.inl hr)
  · obtain ⟨b, hb⟩ := mem_iff_lookup.1 (inv.state_mem (mem_of_lookup hstate))
    obtain ⟨p, parentState, h⟩ := inv.child_of hb hr hstate
    refine .inr (.inr ⟨b, hb, ?_⟩)
    rw [(Inv.transitioned h).slot]
    omega

/-- A pull-up justifies a root from before the state's slot. -/
theorem pulledUp_older {state pulledUp : BeaconState} (h : state.Aged (OlderThan g s))
    (hpulled : state.processJustificationAndFinalization = .ok pulledUp) :
    OlderThan g s state.slot.val pulledUp.currentJustifiedCheckpoint.root := by
  rcases (processJustificationAndFinalization_effect _ hpulled).justified with
    hsame | ⟨-, epoch, hmoved, -⟩
  · rw [hsame]
    exact h.justified.mono (Nat.sub_le _ _)
  · rw [hmoved]
    exact h.roots _

section Import

variable {b : SignedBeaconBlock} {parentState state pulledUp : BeaconState}

/-- The post-state of an imported block speaks about the past. -/
theorem Dated.transition (dated : Dated g s) (inv : Inv g s)
    (hparent : s.blockStates.lookup b.message.parentRoot = some parentState)
    (hstate : parentState.stateTransition b = .ok state) : state.Aged (OlderThan g s) := by
  have hne := inv.state_root_ne hparent
  have hmono : ∀ q q' r, q ≤ q' → OlderThan g s q r → OlderThan g s q' r := fun _ _ _ hq h => h.mono hq
  refine stateTransition_aged hmono hne (dated.state hparent) b ?_ state hstate
  rw [← stateTransition_parentRoot hne hstate]
  exact inv.olderThan_succ hparent

theorem Dated.imported (dated : Dated g s) (inv : Inv g s) (hb : b.message ∈ g.blocks)
    (hparent : s.blockStates.lookup b.message.parentRoot = some parentState)
    (hchecked : BlockChecked s b.message) (hstate : parentState.stateTransition b = .ok state)
    (himported : Imported s b.message state pulledUp s') : Dated g s' := by
  have hgrows := inv.imported_grows hb hparent hstate himported
  have haged : state.Aged (OlderThan g s') := aged_grows hgrows (dated.transition inv hparent hstate)
  have hslot : state.slot.val ≤ s'.getCurrentSlot.val := by
    rw [(stateTransition_chain b state hstate).slot]
    exact Nat.le_trans hchecked.past hgrows.clock
  have hpulled := pulledUp_older haged himported.pulled
  have hclock : s'.getCurrentSlot = s.getCurrentSlot := by
    rw [getCurrentSlot, getCurrentSlot, himported.time, slotAtTime_congr himported.genesisTime]
  refine ⟨?_, ?_, ?_⟩
  · intro r state' hr
    rcases of_lookup_insert (himported.blockStates ▸ hr) with ⟨-, rfl⟩ | hr
    · exact haged
    · exact aged_grows hgrows (dated.state hr)
  · rcases himported.unrealizedJustified with h | h
    · rw [h, hclock]
      exact dated.unrealized.grows hgrows
    · rw [h]
      exact hpulled.mono hslot
  · rcases himported.justified with h | ⟨-, h | ⟨h, hepoch⟩⟩
    · rw [h, hclock]
      exact dated.justified.grows hgrows
    · rw [h]
      exact haged.justified.mono (by omega)
    · -- a block of an earlier epoch is older than the current slot
      have hlt : b.message.slot.val < s'.getCurrentSlot.val := by
        by_contra hle
        have hmono : s.getCurrentSlot.epoch ≤ b.message.slot.epoch :=
          Slot.epoch_mono (Fin.le_def.2 (by rw [← hclock]; omega))
        exact absurd hepoch (not_lt.2 hmono)
      rw [(stateTransition_chain b state hstate).slot] at hpulled
      rw [h]
      exact hpulled.mono (by omega)

end Import

/-! ## Runs -/

theorem Dated.step (dated : Dated g s) (inv : Inv g s) (h : Step (· ∈ g.blocks) s s') :
    Dated g s' := by
  rcases h.kept_or_block with h | ⟨o, b, hb, h⟩
  · exact dated.kept h
  · obtain ⟨parentState, state, pulledUp, head, hparent, hchecked, hstate, -, himported⟩ :=
      onBlock_effect h
    exact dated.imported inv hb hparent hchecked hstate himported

theorem Dated.seed (g : Origin) (time : U64) : Dated g (Store.seed g.state g.anchor time) where
  state := by
    intro r state hstate
    obtain ⟨-, rfl⟩ := eq_of_lookup_singleton hstate
    exact ⟨fun i => .inl (.inr (.inr ⟨i, rfl⟩)), .inl (.inr (.inl rfl))⟩
  unrealized := .inr (.inl rfl)
  justified := .inr (.inl rfl)

theorem Dated.run {anchor : BeaconBlock} {calls : List Call}
    (h : getForkchoiceStore state anchor = .ok s)
    (hc : NoCollision state anchor (runBlocks anchor calls)) :
    Dated (originOfRun h hc) (s.run calls) := by
  refine (run_inv (P := fun s => Inv (originOfRun h hc) s ∧ Dated (originOfRun h hc) s) h
    (fun time => ⟨Inv.seed (originOfRun h hc) time, Dated.seed (originOfRun h hc) time⟩) ?_).2
  rintro s₁ s₂ ⟨inv, dated⟩ hstep
  exact ⟨(inv.step hstep).1, dated.step inv hstep⟩

/-- Unless it is the anchor, the justified block is older than the previous slot. -/
theorem Dated.justified_slot (dated : Dated g s) (inv : Inv g s) {b : BeaconBlock}
    (hb : s.blocks.lookup s.justifiedCheckpoint.root = some b)
    (hne : s.justifiedCheckpoint.root ≠ g.root) : b.slot.val + 1 < s.getCurrentSlot.val := by
  rcases dated.justified with h | h | ⟨b', hb', hlt⟩
  · rw [← (inv.block hb).2] at h
    exact absurd h (g.noCollision.acyclic b (inv.descends hb))
  · exact absurd h hne
  · rw [hb] at hb'
    cases hb'
    omega

end Store

end Moonglass
