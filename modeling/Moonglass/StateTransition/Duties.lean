import Moonglass.StateTransition.Runs

/-
  Duties are settled early. The committees of an epoch come from its active set and its seed. In
  the epochs from the one before to the one after, no block, slot or end of an epoch changes either:
  exits and activations take effect later, and the mixes written are not the one behind the seed. So
  every state of a chain in those three epochs expands an attestation to the same validators.
-/

namespace Moonglass

open Lib

variable [Preset]

namespace BeaconState

variable {s s' s'' : BeaconState} {epoch : Epoch} {events : List ChainEvent}

/-- The two states agree on what decides the committees of an epoch: who is active, and the mix
that seeds the shuffle. -/
structure SameDuties (epoch : Epoch) (s s' : BeaconState) : Prop where
  active : ∀ i, s'.activeAt epoch i = s.activeAt epoch i
  mix : ringGet s'.randaoMixes (epoch.val + seedLookback) =
    ringGet s.randaoMixes (epoch.val + seedLookback)

namespace SameDuties

theorem refl (epoch : Epoch) (s : BeaconState) : SameDuties epoch s s := ⟨fun _ => rfl, rfl⟩

theorem symm (h : SameDuties epoch s s') : SameDuties epoch s' s :=
  ⟨fun i => (h.active i).symm, h.mix.symm⟩

theorem trans (h : SameDuties epoch s s') (h' : SameDuties epoch s' s'') : SameDuties epoch s s'' :=
  ⟨fun i => (h'.active i).trans (h.active i), h'.mix.trans h.mix⟩

theorem getActiveValidatorIndices_eq (h : SameDuties epoch s s') :
    s'.getActiveValidatorIndices epoch = s.getActiveValidatorIndices epoch :=
  getActiveValidatorIndices_congr h.active

theorem getCommitteeCountPerSlot_eq (h : SameDuties epoch s s') :
    s'.getCommitteeCountPerSlot epoch = s.getCommitteeCountPerSlot epoch := by
  unfold getCommitteeCountPerSlot
  rw [h.getActiveValidatorIndices_eq]

theorem getSeed_eq [Crypto] (h : SameDuties epoch s s') (domain : DomainType) :
    s'.getSeed epoch domain = s.getSeed epoch domain := by
  unfold getSeed
  cases hmix : epoch.checkedAdd seedLookback with
  | none => rfl
  | some mixEpoch =>
    have hval : mixEpoch.val = epoch.val + seedLookback := Word.checkedAdd_eq_some.1 hmix
    have hsame : s'.getRandaoMix mixEpoch = s.getRandaoMix mixEpoch := by
      unfold getRandaoMix
      rw [hval]
      exact h.mix
    rw [okOr_some, ok_bind, ok_bind, hsame]

theorem getBeaconCommittee_eq [Crypto] {slot : Slot} (h : SameDuties slot.epoch s s')
    (index : CommitteeIndex) : s'.getBeaconCommittee slot index = s.getBeaconCommittee slot index := by
  unfold getBeaconCommittee
  dsimp only
  rw [h.getCommitteeCountPerSlot_eq, h.getActiveValidatorIndices_eq, h.getSeed_eq]

theorem attestingIndices_eq [Crypto] {attestation : Attestation}
    (h : SameDuties attestation.data.slot.epoch s s') :
    s'.attestingIndices attestation = s.attestingIndices attestation := by
  have hcommittee : s'.getBeaconCommittee attestation.data.slot =
      s.getBeaconCommittee attestation.data.slot := funext h.getBeaconCommittee_eq
  unfold attestingIndices
  rw [hcommittee]

end SameDuties

/-! ## Steps -/

/-- The mix behind the seed of an epoch is not one written in the epochs around it. -/
theorem ringGet_seedMix {v : Vector Bytes32 epochsPerHistoricalVector} {mix : Bytes32} {e : Nat}
    (hlow : epoch.val ≤ e + 1) (hhigh : e ≤ epoch.val + 1) :
    ringGet (ringSet v e mix) (epoch.val + seedLookback) =
      ringGet v (epoch.val + seedLookback) := by
  have hsize : 4 < epochsPerHistoricalVector := by
    rcases pick_cases 65536 64 with h | h <;> unfold epochsPerHistoricalVector <;> omega
  have hlookback : seedLookback + 2 = epochsPerHistoricalVector := by
    unfold seedLookback minSeedLookahead
    omega
  exact ringGet_ringSet_of_ne (by omega) (by omega) (by omega)

theorem blockStep_duties [Crypto] {block : BeaconBlock} (h : s.processBlock block = .ok s')
    (hlow : epoch.val ≤ s.slot.epoch.val + 1) (hhigh : s.slot.epoch.val ≤ epoch.val + 1) :
    SameDuties epoch s s' := by
  have hduties := processBlock_duties h
  obtain ⟨mix, hmix⟩ := hduties.randao
  refine ⟨hduties.active epoch (by unfold maxSeedLookahead; omega), ?_⟩
  rw [hmix]
  exact ringGet_seedMix hlow hhigh

theorem slotStep_duties [Crypto] (h : s.advanceSlot = .ok s')
    (hlow : epoch.val ≤ s.slot.epoch.val + 1)
    (hhigh : s'.slot.epoch.val ≤ epoch.val + 1) : SameDuties epoch s s' := by
  have hduties := advanceSlot_duties h
  refine ⟨hduties.active epoch (by unfold maxSeedLookahead; omega), ?_⟩
  by_cases hboundary : s'.slot.val % slotsPerEpoch = 0
  · have hepoch := (advanceSlot_payments h).epoch_boundary hboundary
    rw [(hduties.boundary hboundary).2.2.2]
    exact ringGet_seedMix (by omega) (by omega)
  · rw [(hduties.inner hboundary).2.2.2]

end BeaconState

open BeaconState

/-! ## Runs -/

section Runs

variable {s s' : BeaconState} {epoch : Epoch} {events : List ChainEvent}

/-- A chain that begins no earlier than the epoch before and ends no later than the one after keeps
the duties of an epoch. -/
theorem Runs.sameDuties [Crypto] (h : Runs s events s') (hlow : epoch.val ≤ s.slot.epoch.val + 1)
    (hhigh : s'.slot.epoch.val ≤ epoch.val + 1) : SameDuties epoch s s' := by
  induction h with
  | nil s => exact .refl epoch s
  | @cons e es s' head tail ih =>
    obtain ⟨s₀, block, s₁⟩ := e
    have hstep : Runs s₀ [⟨s₀, block, s₁⟩] s₁ := .cons (e := ⟨s₀, block, s₁⟩) head (.nil s₁)
    have hbefore : s₀.slot.epoch.val ≤ s₁.slot.epoch.val := hstep.epoch_le
    have hafter : s₁.slot.epoch.val ≤ s'.slot.epoch.val := tail.epoch_le
    have hfirst : epoch.val ≤ s₀.slot.epoch.val + 1 := hlow
    have hrest : SameDuties epoch s₁ s' := ih (show epoch.val ≤ s₁.slot.epoch.val + 1 by omega) hhigh
    have hlast : s₁.slot.epoch.val ≤ epoch.val + 1 := hafter.trans hhigh
    refine SameDuties.trans ?_ hrest
    cases block with
    | none => exact slotStep_duties head hfirst hlast
    | some block => exact blockStep_duties head hfirst (hbefore.trans hlast)

/-- Any two states of a chain in the epochs from the one before to the one after `epoch` have the
same number of committees in it, the same committees, and expand an attestation for it to the same
validators. -/
theorem BeaconState.duties_stable [Crypto] (h : Runs s events s') {a b : BeaconState}
    (ha : a ∈ statesOf s events) (hb : b ∈ statesOf s events)
    (hepochA : epoch.val ≤ a.slot.epoch.val + 1 ∧ a.slot.epoch.val ≤ epoch.val + 1)
    (hepochB : epoch.val ≤ b.slot.epoch.val + 1 ∧ b.slot.epoch.val ≤ epoch.val + 1) :
    a.getCommitteeCountPerSlot epoch = b.getCommitteeCountPerSlot epoch ∧
    (∀ slot : Slot, slot.epoch = epoch → ∀ index,
      a.getBeaconCommittee slot index = b.getBeaconCommittee slot index) ∧
    ∀ attestation : Attestation, attestation.data.slot.epoch = epoch →
      a.attestingIndices attestation = b.attestingIndices attestation := by
  have hsame : SameDuties epoch b a := by
    rcases h.connected ha hb with ⟨es, hes⟩ | ⟨es, hes⟩
    · exact (hes.sameDuties hepochA.1 hepochB.2).symm
    · exact hes.sameDuties hepochB.1 hepochA.2
  refine ⟨hsame.getCommitteeCountPerSlot_eq, ?_, ?_⟩
  · rintro slot rfl index
    exact hsame.getBeaconCommittee_eq index
  · rintro attestation rfl
    exact hsame.attestingIndices_eq

end Runs

end Moonglass

namespace Moonglass.Devnet

/-- From slot 0 to the first slot of epoch 1, with a block on the way. -/
def firstEpoch : List (Option BeaconBlock) :=
  [none, some firstBlock.message] ++ List.replicate 7 none

/-- The first and the last state of the chain agree on the duties of epoch 1. -/
theorem duties_stable_firstEpoch : ∃ events s', Runs (stateAfter genesis) events s' ∧
    events.map (·.block) = firstEpoch ∧ s'.slot = 8 ∧
    (stateAfter genesis).getCommitteeCountPerSlot 1 = s'.getCommitteeCountPerSlot 1 ∧
    (∀ slot : Slot, slot.epoch = 1 → ∀ index,
      (stateAfter genesis).getBeaconCommittee slot index = s'.getBeaconCommittee slot index) ∧
    ∀ attestation : Attestation, attestation.data.slot.epoch = 1 →
      (stateAfter genesis).attestingIndices attestation = s'.attestingIndices attestation := by
  have hcheck : followCheck (fun _ s' => s'.slot = 8) (stateAfter genesis) firstEpoch = true := by
    decide +kernel
  obtain ⟨events, s', hruns, hblocks, hslot⟩ := followCheck_runs hcheck
  have hepoch : s'.slot.epoch = 1 := by
    rw [hslot]
    decide
  exact ⟨events, s', hruns, hblocks, hslot, BeaconState.duties_stable hruns List.mem_cons_self
    hruns.mem_statesOf (by decide) (by rw [hepoch]; decide)⟩

end Moonglass.Devnet
