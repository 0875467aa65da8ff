import Moonglass.StateTransition.RegistrySteps

/-
  What epoch processing writes. Justification may move the justified checkpoint to an epoch whose
  target votes have two thirds of the stake; new validators come without participation flags; and
  at the end the current flags become the previous ones. Everything else about the chain is kept.
-/

namespace Moonglass

open Lib List BoundedList

variable [Preset]

namespace BeaconState

/-- `s'` stands where `s` stands, with the same past; its checkpoints may differ. -/
structure SamePosition (s s' : BeaconState) : Prop where
  slot : s'.slot = s.slot
  header : s'.latestBlockHeader = s.latestBlockHeader
  blockRoots : s'.blockRoots = s.blockRoots

namespace SamePosition

variable {s s' s'' : BeaconState}

theorem trans (h : SamePosition s s') (h' : SamePosition s' s'') : SamePosition s s'' :=
  ⟨h'.slot.trans h.slot, h'.header.trans h.header, h'.blockRoots.trans h.blockRoots⟩

theorem of_chain (h : s'.chainView = s.chainView) : SamePosition s s' :=
  ⟨congrArg ChainView.slot h, congrArg ChainView.latestBlockHeader h,
    congrArg ChainView.blockRoots h⟩

end SamePosition

/-! ## Justification -/

/-- The target votes of `epoch` have two thirds of the active balance. -/
structure Supported (s : BeaconState) (epoch : Epoch) : Prop where
  epoch_eq : epoch = s.slot.epoch ∨ epoch = s.getPreviousEpoch
  support : ∃ total indices target, s.getTotalActiveBalance = .ok total ∧
    s.getUnslashedParticipatingIndices timelyTargetFlagIndex epoch = .ok indices ∧
    s.getTotalBalance indices = .ok target ∧ hasTwoThirdsSupport target total = .ok true

/-- What justification and finalization write. -/
structure JustifiedBy (s s' : BeaconState) : Prop where
  position : SamePosition s s'
  previous : s'.previousEpochParticipation = s.previousEpochParticipation
  current : s'.currentEpochParticipation = s.currentEpochParticipation
  justified : s'.currentJustifiedCheckpoint = s.currentJustifiedCheckpoint ∨
    genesisEpoch.val + 1 < s.slot.epoch.val ∧ ∃ epoch,
      s'.currentJustifiedCheckpoint = s.checkpointAt epoch ∧ Supported s epoch

variable {s s' : BeaconState}

/-- The bits after an epoch: shifted, with the bits of the justified epochs set. -/
def weighedBits (bits : Bitvector justificationBitsLength) (previous current : Bool) :
    Bitvector justificationBitsLength :=
  let bits := shiftJustificationBits bits
  let bits := if previous then bits.setIfInBounds 1 true else bits
  if current then bits.setIfInBounds 0 true else bits

/-- Justifying one epoch, as a function of the outcome. -/
theorem justify_eq {target total : Gwei} {epoch : Epoch} {bit : Nat}
    (h : s.justify target total epoch bit = .ok s') : ∃ supported,
      hasTwoThirdsSupport target total = .ok supported ∧ s' = { s with
        currentJustifiedCheckpoint :=
          if supported then s.checkpointAt epoch else s.currentJustifiedCheckpoint
        justificationBits :=
          if supported then s.justificationBits.setIfInBounds bit true
          else s.justificationBits } := by
  unfold justify at h
  obtain ⟨supported, hsupported, h⟩ := bind_eq_ok.1 h
  refine ⟨supported, hsupported, ?_⟩
  cases supported <;> cases h <;> rfl

/-- In the first two epochs nothing is written; later the votes of two epochs are weighed, and the
finality rules read the new bits. -/
theorem processJustificationAndFinalization_cases
    (h : s.processJustificationAndFinalization = .ok s') :
    s.slot.epoch.val ≤ genesisEpoch.val + 1 ∧ s' = s ∨
      genesisEpoch.val + 1 < s.slot.epoch.val ∧ ∃ previous current finalized,
        (previous = true → Supported s s.getPreviousEpoch) ∧
        (current = true → Supported s s.slot.epoch) ∧
        FinalityUpdate.finalizedCheckpoint ⟨s.previousJustifiedCheckpoint,
          s.currentJustifiedCheckpoint, s.slot.epoch,
          weighedBits s.justificationBits previous current⟩ = .ok finalized ∧
        s' = { s with
          previousJustifiedCheckpoint := s.currentJustifiedCheckpoint
          currentJustifiedCheckpoint :=
            if current then s.checkpointAt s.slot.epoch
            else if previous then s.checkpointAt s.getPreviousEpoch
            else s.currentJustifiedCheckpoint
          justificationBits := weighedBits s.justificationBits previous current
          finalizedCheckpoint := finalized.getD s.finalizedCheckpoint } := by
  unfold processJustificationAndFinalization at h
  dsimp only at h
  by_cases hearly : s.slot.epoch.val ≤ genesisEpoch.val + 1
  · rw [if_pos hearly] at h
    cases h
    exact .inl ⟨hearly, rfl⟩
  rw [if_neg hearly] at h
  simp only [bind_eq_ok] at h
  obtain ⟨total, htotal, previous, hprevious, current, hcurrent, previousTarget, hpreviousTarget,
    currentTarget, hcurrentTarget, s₁, hs₁, s₂, hs₂, finalized, hfinalized, h⟩ := h
  obtain ⟨p, hp, rfl⟩ := justify_eq hs₁
  obtain ⟨c, hc, rfl⟩ := justify_eq hs₂
  refine .inr ⟨not_le.1 hearly, p, c, finalized, fun h => ?_, fun h => ?_, hfinalized, ?_⟩
  · exact ⟨.inr rfl, total, previous, previousTarget, htotal, hprevious, hpreviousTarget, h ▸ hp⟩
  · exact ⟨.inl rfl, total, current, currentTarget, htotal, hcurrent, hcurrentTarget, h ▸ hc⟩
  · cases finalized <;> cases h <;> rfl

/-- Justification and finalization write the checkpoints and the justification bits. -/
theorem processJustificationAndFinalization_writes :
    Ensures s.processJustificationAndFinalization fun s' => s' = { s with
      previousJustifiedCheckpoint := s'.previousJustifiedCheckpoint
      currentJustifiedCheckpoint := s'.currentJustifiedCheckpoint
      finalizedCheckpoint := s'.finalizedCheckpoint
      justificationBits := s'.justificationBits } := by
  intro s' h
  rcases processJustificationAndFinalization_cases h with ⟨-, rfl⟩ | ⟨-, _, _, _, -, -, -, rfl⟩
  · rfl
  · rfl

theorem processJustificationAndFinalization_position :
    Ensures s.processJustificationAndFinalization (SamePosition s) :=
  processJustificationAndFinalization_writes.imp fun _ h => h ▸ ⟨rfl, rfl, rfl⟩

theorem processJustificationAndFinalization_effect :
    Ensures s.processJustificationAndFinalization (JustifiedBy s) := by
  intro s' h
  have hposition := processJustificationAndFinalization_position s' h
  rcases processJustificationAndFinalization_cases h with
    ⟨-, rfl⟩ | ⟨hlate, previous, current, _, hprevious, hcurrent, -, rfl⟩
  · exact ⟨hposition, rfl, rfl, .inl rfl⟩
  refine ⟨hposition, rfl, rfl, ?_⟩
  -- the later of the supported epochs is the one justified
  cases current with
  | true => exact .inr ⟨hlate, _, rfl, hcurrent rfl⟩
  | false =>
    cases previous with
    | true => exact .inr ⟨hlate, _, rfl, hprevious rfl⟩
    | false => exact .inl rfl

/-! ## Participation -/

/-- Flags that are set in `p'` are set in `p`. -/
def FlagsFrom (p p' : BoundedList ParticipationFlags validatorRegistryLimit) : Prop :=
  ∀ i f, p'.get? i = some f → f ≠ 0 → p.get? i = some f

/-- `s'` differs from `s` not in its chain or payload, and by new validators without flags at
most. -/
structure Padded (s s' : BeaconState) : Prop where
  chain : s'.chainView = s.chainView
  payload : s'.payloadView = s.payloadView
  previous : FlagsFrom s.previousEpochParticipation s'.previousEpochParticipation
  current : FlagsFrom s.currentEpochParticipation s'.currentEpochParticipation

namespace Padded

variable {s s' s'' : BeaconState}

theorem refl (s : BeaconState) : Padded s s := ⟨rfl, rfl, fun _ _ h _ => h, fun _ _ h _ => h⟩

theorem trans (h : Padded s s') (h' : Padded s' s'') : Padded s s'' :=
  ⟨h'.chain.trans h.chain, h'.payload.trans h.payload,
    fun i f hf hne => h.previous i f (h'.previous i f hf hne) hne,
    fun i f hf hne => h.current i f (h'.current i f hf hne) hne⟩

theorem of_untouched (h : Untouched s s') : Padded s s' :=
  ⟨h.chain, h.payload, fun _ _ hf _ => h.previous ▸ hf, fun _ _ hf _ => h.current ▸ hf⟩

end Padded

omit [Preset] in
theorem flagsFrom_push {p p' : BoundedList ParticipationFlags validatorRegistryLimit}
    (h : p.push 0 = some p') : FlagsFrom p p' := by
  intro i f hf hne
  rw [push_eq_some] at h
  unfold BoundedList.get? at hf ⊢
  rw [h.2, getElem?_append] at hf
  split at hf
  · exact hf
  · rw [getElem?_singleton] at hf
    split at hf
    · exact absurd (Option.some.inj hf).symm hne
    · cases hf

theorem applyPendingDeposit_padded [Crypto] (deposit : PendingDeposit) :
    Ensures (s.applyPendingDeposit deposit) (Padded s) := by
  unfold applyPendingDeposit
  cases s.validatorIndex deposit.pubkey with
  | some index =>
    exact (increaseBalance_changes (p := .deposits) _ _).imp fun _ h => .of_untouched h.untouched
  | none =>
    refine .ite ?_ (.pure (Padded.refl s))
    unfold addValidatorToRegistry
    refine .skip fun _ => .skip fun _ => ?_
    refine .lookup fun previous hprevious => ?_
    refine .lookup fun current hcurrent => .skip fun _ => ?_
    exact .pure ⟨rfl, rfl, flagsFrom_push hprevious, flagsFrom_push hcurrent⟩

theorem depositStep_padded [Crypto] (nextEpoch : Epoch) (finalizedSlot : Slot) (available : Gwei)
    (d : DepositSweep) (deposit : PendingDeposit) :
    Ensures (depositStep nextEpoch finalizedSlot available d deposit)
      fun r => Padded d.state r.value.state := by
  have hself : Padded d.state d.state := Padded.refl _
  unfold depositStep
  refine .ite (.pure hself) (.ite (.pure hself) (.ite ?_ (.ite (.pure hself) ?_)))
  · exact .bind (applyPendingDeposit_padded _) fun _ h => .pure h
  · refine .skip fun processed => .ite (.pure hself) ?_
    exact .bind (applyPendingDeposit_padded _) fun _ h => .pure h

theorem processPendingDeposits_padded [Crypto] : Ensures s.processPendingDeposits (Padded s) := by
  unfold processPendingDeposits
  refine .skip fun nextEpoch => .skip fun _ => .skip fun available => .skip fun slot => ?_
  refine .bind (Q := fun d : DepositSweep => Padded s d.state) ?_ fun d hd => ?_
  · refine .foldBreakM (fun deposit d hd => ?_) (Padded.refl s)
    exact (depositStep_padded nextEpoch slot available d deposit).imp fun _ h => hd.trans h
  · exact .skip fun _ => .ite (.skip fun _ => .pure ⟨hd.chain, hd.payload, hd.previous, hd.current⟩)
      (.skip fun _ => .pure ⟨hd.chain, hd.payload, hd.previous, hd.current⟩)

/-- No flag is set. -/
def NoFlags (p : BoundedList ParticipationFlags validatorRegistryLimit) : Prop :=
  ∀ i f, p.get? i = some f → f = 0

theorem processParticipationFlagUpdates_effect :
    Ensures s.processParticipationFlagUpdates fun s' => s'.chainView = s.chainView ∧
      s'.payloadView = s.payloadView ∧
      s'.previousEpochParticipation = s.currentEpochParticipation ∧
      NoFlags s'.currentEpochParticipation := by
  unfold processParticipationFlagUpdates
  refine .lookup fun fresh hfresh => .pure ⟨rfl, rfl, rfl, ?_⟩
  intro i f hf
  have hlist : fresh.toList = List.replicate s.validators.length 0 :=
    tryFrom_eq_some.1 hfresh
  have hf : fresh.toList[i]? = some f := hf
  rw [hlist] at hf
  exact eq_of_mem_replicate (mem_of_getElem? hf)

/-! ## Epochs -/

/-- What epoch processing writes of the chain and of participation. -/
structure EpochProcessed (s s' : BeaconState) : Prop where
  justified : ∃ s₁, JustifiedBy s s₁ ∧ s'.chainView = s₁.chainView
  previous : FlagsFrom s.currentEpochParticipation s'.previousEpochParticipation
  current : NoFlags s'.currentEpochParticipation

theorem EpochProcessed.position {s s' : BeaconState} (h : EpochProcessed s s') :
    SamePosition s s' := by
  obtain ⟨s₁, h₁, hchain⟩ := h.justified
  exact h₁.position.trans (.of_chain hchain)

/-- The end of epoch processing, from the rotation of the flags on. -/
theorem rotate_effect [Crypto] : Ensures (do
    let s ← s.processParticipationFlagUpdates
    let s ← s.processSyncCommitteeUpdates
    let s ← s.processProposerLookahead
    s.processPtcWindow) fun s' => s'.chainView = s.chainView ∧ s'.payloadView = s.payloadView ∧
      s'.previousEpochParticipation = s.currentEpochParticipation ∧
      NoFlags s'.currentEpochParticipation := by
  refine .bind processParticipationFlagUpdates_effect
    fun s₁ ⟨hchain, hpayload, hprevious, hcurrent⟩ => ?_
  refine .bind (processSyncCommitteeUpdates_changes (a := .registry)) fun s₂ h₂ => ?_
  refine .bind processProposerLookahead_shifts fun s₃ ⟨_, h₃⟩ => ?_
  refine processPtcWindow_shifts.imp fun s' ⟨_, h⟩ => ?_
  have hsync := h₂.untouched
  rw [h, h₃]
  exact ⟨hsync.chain.trans hchain, hsync.payload.trans hpayload, hsync.previous.trans hprevious,
    hsync.current ▸ hcurrent⟩

/-- The parts of epoch processing: justification, the builder payments, and steps that keep the
chain and the payload. -/
structure EpochParts (s s' : BeaconState) where
  justified : BeaconState
  due : BeaconState
  paid : BeaconState
  justified_eq : s.processJustificationAndFinalization = .ok justified
  before : Padded justified due
  paid_eq : due.processBuilderPendingPayments = .ok paid
  payload : s'.payloadView = paid.payloadView
  chain : s'.chainView = justified.chainView
  previous : FlagsFrom justified.currentEpochParticipation s'.previousEpochParticipation
  current : NoFlags s'.currentEpochParticipation

/-- Epoch processing up to the builder payments. -/
def beforeBuilderPayments [Crypto] (s : BeaconState) : Transition BeaconState := do
  let s ← s.processJustificationAndFinalization
  let s ← s.processInactivityUpdates
  let s ← s.processRewardsAndPenalties
  let s ← s.processRegistryUpdates
  let s ← s.processSlashings
  let s := s.processEth1DataReset
  let s ← s.processPendingDeposits
  s.processPendingConsolidations

/-- Only the deposits touch the participation lists, and they add entries without flags. -/
theorem beforeBuilderPayments_effect [Crypto] : Ensures s.beforeBuilderPayments fun due =>
    ∃ justified, s.processJustificationAndFinalization = .ok justified ∧ Padded justified due := by
  unfold beforeBuilderPayments
  refine .step fun s₁ h₁ => ?_
  refine .bind (processInactivityUpdates_changes (a := .registry)) fun s₂ h₂ => ?_
  refine .bind (processRewardsAndPenalties_changes (a := .registry)) fun s₃ h₃ => ?_
  refine .bind (processRegistryUpdates_changes (a := .registry)) fun s₄ h₄ => ?_
  refine .bind (processSlashings_changes (a := .registry)) fun s₅ h₅ => ?_
  refine .bind processPendingDeposits_padded fun s₆ h₆ => ?_
  refine (processPendingConsolidations_changes (a := .registry)).imp fun s₇ h₇ => ⟨s₁, h₁, ?_⟩
  have hbefore : Untouched s₁ s₅.processEth1DataReset := by
    rw [processEth1DataReset_eq]
    exact (((h₂.trans h₃).trans h₄).trans h₅).untouched.trans ⟨rfl, rfl, rfl, rfl⟩
  exact ((Padded.of_untouched hbefore).trans h₆).trans (.of_untouched h₇.untouched)

theorem processEpoch_eq [Crypto] : s.processEpoch = (do
    let due ← s.beforeBuilderPayments
    let s ← due.processBuilderPendingPayments
    let s ← s.processEffectiveBalanceUpdates
    let s ← s.processSlashingsReset.processRandaoMixesReset.processHistoricalSummariesUpdate
    let s ← s.processParticipationFlagUpdates
    let s ← s.processSyncCommitteeUpdates
    let s ← s.processProposerLookahead
    s.processPtcWindow) := by
  unfold processEpoch beforeBuilderPayments
  simp only [bind_assoc]

/-- Epoch processing has its parts, and the builder payments are settled in the state before them. -/
theorem processEpoch_due [Crypto] : Ensures s.processEpoch fun s' =>
    ∃ parts : EpochParts s s', s.beforeBuilderPayments = .ok parts.due := by
  rw [processEpoch_eq]
  refine .step fun due hdue => .step fun paid hpaid => ?_
  refine .bind (processEffectiveBalanceUpdates_changes (a := .registry)) fun s₁ h₁ => ?_
  refine .bind processHistoricalSummariesUpdate_writes fun s₂ h₂ => ?_
  obtain ⟨justified, hjustified, hbefore⟩ := beforeBuilderPayments_effect due hdue
  have hframe := (processBuilderPendingPayments_changes paid hpaid).frame
  have hafter : Untouched paid s₂ := by
    rw [h₂]
    exact h₁.untouched.trans ⟨rfl, rfl, rfl, rfl⟩
  refine rotate_effect.imp fun s' ⟨hchain, hpayload, hprevious, hcurrent⟩ =>
    ⟨⟨justified, due, paid, hjustified, hbefore, hpaid, hpayload.trans hafter.payload,
      hchain.trans (hafter.chain.trans (hframe.chain.trans hbefore.chain)), ?_, hcurrent⟩, hdue⟩
  rw [hprevious, hafter.current, hframe.current]
  exact hbefore.current

theorem processEpoch_parts [Crypto] : Ensures s.processEpoch fun s' => Nonempty (EpochParts s s') :=
  processEpoch_due.imp fun _ ⟨parts, _⟩ => ⟨parts⟩

theorem processEpoch_effect [Crypto] : Ensures s.processEpoch (EpochProcessed s) := by
  refine processEpoch_parts.imp fun s' ⟨h⟩ => ?_
  have hjustified := processJustificationAndFinalization_effect h.justified h.justified_eq
  exact ⟨⟨h.justified, hjustified, h.chain⟩, hjustified.current ▸ h.previous, h.current⟩

end BeaconState

end Moonglass
