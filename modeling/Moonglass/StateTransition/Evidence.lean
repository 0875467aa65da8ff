import Moonglass.StateTransition.Past

/-
  Where justification comes from. An epoch is justified with two thirds of the stake, so some
  validator has the target flag for it; the flag was set by an attestation, included in a block of
  this chain, whose target is the very checkpoint that is justified. `Backed Seen s` says that every
  target flag and the justified checkpoint of `s` are for checkpoints in `Seen`; slots keep it, and
  a block keeps it when the targets of its attestations are in `Seen`.
-/

namespace Moonglass

open Lib Word

variable [Preset]
variable {indices : List ValidatorIndex} {flagIndex : Nat} {epoch : Epoch}
  {attestation : Attestation}

/-- The next slot is in the same epoch, or in the next one at an epoch boundary. -/
theorem Slot.epoch_val_succ {slot slot' : Slot} (h : slot'.val = slot.val + 1) :
    slot'.epoch.val = if (slot.val + 1) % slotsPerEpoch = 0 then slot.epoch.val + 1
      else slot.epoch.val := by
  rw [Slot.epoch_val, Slot.epoch_val, h]
  split
  · exact Nat.succ_div_of_dvd (Nat.dvd_of_mod_eq_zero ‹_›)
  · exact Nat.succ_div_of_not_dvd fun hd => ‹¬_› (Nat.mod_eq_zero_of_dvd hd)

namespace BeaconState

variable {s s' : BeaconState} {Seen : Checkpoint → Prop}

/-- Some validator has the target flag. -/
def TargetFlag (p : BoundedList ParticipationFlags validatorRegistryLimit) : Prop :=
  ∃ (i : Nat) (f : ParticipationFlags), p.get? i = some f ∧
    ParticipationFlags.hasFlag f timelyTargetFlagIndex = true

/-- The target flags of `s` and its justified checkpoint are for checkpoints in `Seen`. While the
first slot of the epoch is not filed, flags for the epoch need every checkpoint of it in `Seen`. -/
structure Backed (Seen : Checkpoint → Prop) (s : BeaconState) : Prop where
  current : TargetFlag s.currentEpochParticipation → (∀ root, Seen ⟨s.slot.epoch, root⟩) ∨
    s.slot.epoch.startSlot.val < s.slot.val ∧ Seen (s.checkpointAt s.slot.epoch)
  previous : TargetFlag s.previousEpochParticipation → 0 < s.slot.epoch.val →
    Seen (s.checkpointAt s.getPreviousEpoch)
  justified : Seen s.currentJustifiedCheckpoint

/-- The stake of a state is at least two increments. -/
def WellStaked (s : BeaconState) : Prop :=
  ∀ total, s.getTotalActiveBalance = .ok total → 2 * effectiveBalanceIncrement ≤ total.val

theorem Backed.mono {Seen' : Checkpoint → Prop} (h : Backed Seen s)
    (hseen : ∀ c, Seen c → Seen' c) : Backed Seen' s :=
  ⟨fun hf => (h.current hf).imp (fun hall root => hseen _ (hall root))
      fun hstarted => ⟨hstarted.1, hseen _ hstarted.2⟩,
    fun hf he => hseen _ (h.previous hf he), hseen _ h.justified⟩

/-! ## Two thirds of the stake -/

/-- Nobody's stake counts as one increment, which is not two thirds of two increments. -/
theorem indices_ne_nil {total target : Gwei} (htotal : 2 * effectiveBalanceIncrement ≤ total.val)
    (htarget : s.getTotalBalance indices = .ok target)
    (h : hasTwoThirdsSupport target total = .ok true) : indices ≠ [] := by
  rintro rfl
  have hone : target.val = effectiveBalanceIncrement := by
    cases htarget
    rfl
  unfold hasTwoThirdsSupport at h
  obtain ⟨lhs, hlhs, h⟩ := bind_eq_ok.1 h
  obtain ⟨rhs, hrhs, h⟩ := bind_eq_ok.1 h
  rw [okOr_eq_ok, checkedMul_eq_some] at hlhs hrhs
  have hle : rhs.val ≤ lhs.val := of_decide_eq_true (Except.ok.inj h)
  have hpos : 0 < effectiveBalanceIncrement := by decide
  omega

/-- A counted participant has the flag. -/
theorem exists_flag_of_mem {participation : BoundedList ParticipationFlags validatorRegistryLimit}
    {missing : ValidatorIndex → StateTransitionInvariant}
    (hp : s.participationAt epoch = .ok (participation, missing))
    (h : s.getUnslashedParticipatingIndices flagIndex epoch = .ok indices) (hne : indices ≠ []) :
    ∃ (i : Nat) (f : ParticipationFlags), participation.get? i = some f ∧
      ParticipationFlags.hasFlag f flagIndex = true := by
  unfold getUnslashedParticipatingIndices at h
  obtain ⟨_, -, h⟩ := bind_eq_ok.1 h
  rw [hp, ok_bind] at h
  -- an entry is only added for a validator whose flag is set
  refine (Ensures.foldlM (P := fun out : List ValidatorIndex => out ≠ [] →
    ∃ (i : Nat) (f : ParticipationFlags), participation.get? i = some f ∧
      ParticipationFlags.hasFlag f flagIndex = true) ?_ (fun h => absurd rfl h)) indices h hne
  rintro ⟨v, i⟩ out hout
  refine .ite ?_ (.pure hout)
  refine .lookup fun flags hflags => .pure fun hout' => ?_
  by_cases hflag : ParticipationFlags.hasFlag flags flagIndex = true
  · exact ⟨i, flags, hflags, hflag⟩
  · refine hout ?_
    rw [if_neg (by simp [hflag])] at hout'
    exact hout'

/-- A supported epoch has a target flag behind it. -/
theorem Supported.targetFlag (h : Supported s epoch) (hstake : WellStaked s)
    (hlate : genesisEpoch.val + 1 < s.slot.epoch.val) :
    epoch = s.slot.epoch ∧ TargetFlag s.currentEpochParticipation ∨
      epoch = s.getPreviousEpoch ∧ TargetFlag s.previousEpochParticipation := by
  obtain ⟨total, indices, target, htotal, hindices, htarget, hsupport⟩ := h.support
  have hne := indices_ne_nil (hstake total htotal) htarget hsupport
  have hdistinct : s.getPreviousEpoch ≠ s.getCurrentEpoch := by
    intro heq
    have hval : s.slot.epoch.val - 1 = s.slot.epoch.val := congrArg Fin.val heq
    omega
  rcases h.epoch_eq with rfl | rfl
  · exact .inl ⟨rfl, exists_flag_of_mem (if_pos rfl) hindices hne⟩
  · have hlist : s.participationAt s.getPreviousEpoch =
        .ok (s.previousEpochParticipation, .missingPreviousEpochParticipation) := by
      unfold participationAt
      rw [if_neg hdistinct, if_pos rfl]
      rfl
    exact .inr ⟨rfl, exists_flag_of_mem hlist hindices hne⟩

/-- Justification of a backed state is for a checkpoint in `Seen`. -/
theorem Supported.seen (h : Supported s epoch) (hstake : WellStaked s)
    (hlate : genesisEpoch.val + 1 < s.slot.epoch.val) (hs : Backed Seen s) :
    Seen (s.checkpointAt epoch) := by
  rcases h.targetFlag hstake hlate with ⟨rfl, hflag⟩ | ⟨rfl, hflag⟩
  · exact (hs.current hflag).elim (fun hall => hall _) And.right
  · exact hs.previous hflag (by omega)

theorem JustifiedBy.seen (h : JustifiedBy s s') (hstake : WellStaked s) (hs : Backed Seen s) :
    Seen s'.currentJustifiedCheckpoint := by
  rcases h.justified with hsame | ⟨hlate, epoch, hmoved, hsupported⟩
  · rw [hsame]
    exact hs.justified
  · rw [hmoved]
    exact hsupported.seen hstake hlate hs

/-! ## Slots -/

/-- Filing a block root leaves the checkpoints of past epochs as they were. -/
theorem checkpointAt_of_filed {root : Root}
    (hroots : s'.blockRoots = ringSet s.blockRoots s.slot.val root)
    (hpast : epoch.startSlot.val < s.slot.val)
    (hkept : s.slot.val < epoch.startSlot.val + slotsPerHistoricalRoot) :
    s'.checkpointAt epoch = s.checkpointAt epoch := by
  unfold checkpointAt blockRootAtSlot
  rw [hroots, ringGet_ringSet_of_near hpast hkept]

/-- Filing the slot of a backed state keeps it backed. -/
theorem SlotFiled.backed [Crypto] (h : SlotFiled s s') (hs : Backed Seen s) : Backed Seen s' := by
  obtain ⟨-, hring, hprevious⟩ := s.startSlot_bounds
  refine ⟨fun hf => ?_, fun hf he => ?_, ?_⟩
  · rw [h.current] at hf
    rw [h.slot]
    refine (hs.current hf).imp_right fun ⟨hlt, hseen⟩ => ?_
    rw [checkpointAt_of_filed h.blockRoots hlt hring]
    exact ⟨hlt, hseen⟩
  · rw [h.previous] at hf
    rw [h.slot] at he
    obtain ⟨hlt, hring⟩ := hprevious he
    have heq : s'.getPreviousEpoch = s.getPreviousEpoch := by
      unfold getPreviousEpoch getCurrentEpoch
      rw [h.slot]
    rw [heq, checkpointAt_of_filed h.blockRoots hlt hring]
    exact hs.previous hf he
  · rw [h.justified]
    exact hs.justified

theorem SlotFiled.wellStaked [Crypto] (h : SlotFiled s s') (hs : WellStaked s) : WellStaked s' := by
  have heq : s'.getTotalActiveBalance = s.getTotalActiveBalance := by
    unfold getTotalActiveBalance getTotalBalance getActiveValidatorIndices getCurrentEpoch validator
    rw [h.validators, h.slot]
  intro total htotal
  exact hs total (heq ▸ htotal)

omit [Preset] in
theorem TargetFlag.of_flagsFrom {p p' : BoundedList ParticipationFlags validatorRegistryLimit}
    (h : FlagsFrom p p') (hf : TargetFlag p') : TargetFlag p := by
  obtain ⟨i, f, hget, hflag⟩ := hf
  refine ⟨i, f, h i f hget ?_, hflag⟩
  rintro rfl
  revert hflag
  decide

omit [Preset] in
theorem NoFlags.not_targetFlag {p : BoundedList ParticipationFlags validatorRegistryLimit}
    (h : NoFlags p) : ¬TargetFlag p := by
  rintro ⟨i, f, hget, hflag⟩
  rw [h i f hget] at hflag
  revert hflag
  decide

/-- A slot keeps a state backed; at the end of an epoch this is where justification happens. -/
theorem SlotAdvanced.backed [Crypto] (h : SlotAdvanced s s') (hstake : WellStaked s)
    (hs : Backed Seen s) : Backed Seen s' := by
  obtain ⟨-, hring, hprevious⟩ := s.startSlot_bounds
  have hepoch := Slot.epoch_val_succ h.slot
  by_cases hb : (s.slot.val + 1) % slotsPerEpoch = 0
  · rw [if_pos hb] at hepoch
    obtain ⟨⟨s₀, s₁, hfiled, hby, hjustified⟩, hflags, hnone⟩ := h.boundary hb
    refine ⟨fun hf => absurd hf hnone.not_targetFlag, fun hf _ => ?_, ?_⟩
    · -- the epoch that just ended is now the previous one
      have heq : s'.getPreviousEpoch = s.slot.epoch := by
        apply Fin.ext
        show s'.slot.epoch.val - 1 = s.slot.epoch.val
        omega
      rw [heq]
      rcases hs.current (hf.of_flagsFrom hflags) with hall | ⟨hlt, hseen⟩
      · exact hall _
      · rw [checkpointAt_of_filed h.blockRoots hlt hring]
        exact hseen
    · rw [hjustified]
      exact hby.seen (hfiled.wellStaked hstake) (hfiled.backed hs)
  · rw [if_neg hb] at hepoch
    have hepoch : s'.slot.epoch = s.slot.epoch := Fin.ext hepoch
    obtain ⟨hjustified, hprev, hcur⟩ := h.inner hb
    refine ⟨fun hf => ?_, fun hf he => ?_, ?_⟩
    · rw [hcur] at hf
      rw [hepoch]
      refine (hs.current hf).imp_right fun ⟨hlt, hseen⟩ => ?_
      rw [checkpointAt_of_filed h.blockRoots hlt hring]
      exact ⟨by rw [h.slot]; omega, hseen⟩
    · rw [hprev] at hf
      rw [hepoch] at he
      obtain ⟨hlt, hring⟩ := hprevious he
      have heq : s'.getPreviousEpoch = s.getPreviousEpoch := by
        unfold getPreviousEpoch getCurrentEpoch
        rw [hepoch]
      rw [heq, checkpointAt_of_filed h.blockRoots hlt hring]
      exact hs.previous hf he
    · rw [hjustified]
      exact hs.justified

/-! ## Blocks -/

theorem Frame.backed (h : Frame s s') (hs : Backed Seen s) : Backed Seen s' := by
  have hposition := SamePosition.of_chain h.chain
  have hcheckpoint : ∀ epoch, s'.checkpointAt epoch = s.checkpointAt epoch := by
    intro epoch
    unfold checkpointAt blockRootAtSlot
    rw [hposition.blockRoots]
  have hprevious : s'.getPreviousEpoch = s.getPreviousEpoch := by
    unfold getPreviousEpoch getCurrentEpoch
    rw [hposition.slot]
  refine ⟨?_, ?_, ?_⟩
  · rw [h.current, hposition.slot, hcheckpoint]
    exact hs.current
  · rw [h.previous, hposition.slot, hprevious, hcheckpoint]
    exact hs.previous
  · have hjustified : s'.currentJustifiedCheckpoint = s.currentJustifiedCheckpoint :=
      congrArg ChainView.currentJustifiedCheckpoint h.chain
    rw [hjustified]
    exact hs.justified

omit [Preset] in
/-- Setting another flag does not set the target flag. -/
theorem hasFlag_withFlag {f : ParticipationFlags} {flagIndex : Nat}
    (hne : flagIndex ≠ timelyTargetFlagIndex)
    (h : ParticipationFlags.hasFlag (ParticipationFlags.withFlag f flagIndex)
      timelyTargetFlagIndex = true) :
    ParticipationFlags.hasFlag f timelyTargetFlagIndex = true := by
  unfold ParticipationFlags.hasFlag ParticipationFlags.withFlag at *
  rw [wrap_val, Nat.testBit_mod_two_pow, Nat.testBit_or, Nat.testBit_shiftLeft] at h
  simp only [Bool.and_eq_true, Bool.or_eq_true, decide_eq_true_eq] at h
  rcases h.2 with h | ⟨hle, h⟩
  · exact h
  · rw [Nat.testBit_one_eq_true_iff_self_eq_zero] at h
    omega

omit [Preset] in
/-- The flag loop sets the target flag only for an attestation that earned it. -/
theorem recordFlags_targetFlag {accepted : AcceptedAttestation} {vi : ValidatorIndex}
    {base : Gwei} {u : FlagUpdate} (hnot : timelyTargetFlagIndex ∉ accepted.participationFlags) :
    Ensures (recordFlags accepted vi base u) fun u' =>
      TargetFlag u'.participation → TargetFlag u.participation := by
  unfold recordFlags
  refine .foldlM (fun entry u' hu' => ?_) id
  obtain ⟨weight, flagIndex⟩ := entry
  dsimp only
  by_cases hmem : flagIndex ∈ accepted.participationFlags
  · rw [if_pos hmem]
    refine .lookup fun flags hflags => .ite (.pure hu') ?_
    refine .skip fun _ => .skip fun _ => .pure fun ⟨i, f, hget, hflag⟩ => hu' ?_
    unfold BoundedList.get? at hget hflags
    rw [BoundedList.toList_set, List.getElem?_set] at hget
    split at hget
    · split at hget
      · cases hget
        have hne : flagIndex ≠ timelyTargetFlagIndex := fun h => hnot (h ▸ hmem)
        exact ⟨vi.val, flags, hflags, hasFlag_withFlag hne hflag⟩
      · cases hget
    · exact ⟨i, f, hget, hflag⟩
  · rw [if_neg hmem]
    exact .pure hu'

/-- The target an attestation earns the target flag for. -/
theorem getAttestationParticipationFlagIndices_target {data : AttestationData} {delay : Nat} :
    Ensures (s.getAttestationParticipationFlagIndices data delay) fun flags =>
      timelyTargetFlagIndex ∈ flags → data.target = s.checkpointAt data.target.epoch := by
  have hmem : ∀ (source : Prop) [Decidable source] (matching head : Bool), timelyTargetFlagIndex ∈
      (if source then [timelySourceFlagIndex] else []) ++
        (if matching then [timelyTargetFlagIndex] else []) ++
        (if head then [timelyHeadFlagIndex] else []) → matching = true := by
    intro source _ matching head
    by_cases hsource : source
    · rw [if_pos hsource]
      revert matching head
      decide
    · rw [if_neg hsource]
      revert matching head
      decide
  have htarget : (data.target.root == s.blockRootAtSlot data.target.epoch.startSlot) = true →
      data.target = s.checkpointAt data.target.epoch := by
    intro hroot
    rw [checkpointAt, ← beq_iff_eq.1 hroot]
  unfold getAttestationParticipationFlagIndices
  refine .skip fun _ => .ite (.skip fun _ => .skip fun _ => .pure ?_) (.skip fun _ => .pure ?_)
  all_goals exact fun h => htarget (hmem _ _ _ h)

/-- What an accepted attestation has been checked for, as far as its target goes. -/
structure TargetChecked (s : BeaconState) (data : AttestationData)
    (accepted : AcceptedAttestation) : Prop where
  epoch_eq : data.target.epoch = s.slot.epoch ∧ accepted.targetIsCurrentEpoch = true ∨
    data.target.epoch = s.getPreviousEpoch ∧ accepted.targetIsCurrentEpoch = false
  started : data.target.epoch.startSlot.val < s.slot.val
  target_eq : timelyTargetFlagIndex ∈ accepted.participationFlags →
    data.target = s.checkpointAt data.target.epoch

theorem acceptAttestation_target [Crypto] :
    Ensures (s.acceptAttestation attestation) (TargetChecked s attestation.data) := by
  intro accepted h
  unfold acceptAttestation at h
  dsimp only at h
  simp only [bind_eq_ok] at h
  obtain ⟨_, hepoch, _, hslotEpoch, earliest, hearliest, _, hdelay, _, -, _, -, attesting, -, _, -,
    indexed, -, _, -, flags, hflags, paymentIndex, -, h⟩ := h
  cases h
  refine ⟨?_, ?_, getAttestationParticipationFlagIndices_target _ hflags⟩
  · by_cases hcur : attestation.data.target.epoch = s.slot.epoch
    · exact .inl ⟨hcur, beq_iff_eq.2 hcur⟩
    · refine .inr ⟨?_, beq_eq_false_iff_ne.2 hcur⟩
      by_contra hprev
      exact ensure_eq_ok.1 hepoch ⟨hprev, hcur⟩
  · rw [okOr_eq_ok, checkedAdd_eq_some] at hearliest
    have hle : earliest.val ≤ s.slot.val := ensure_eq_ok.1 hdelay
    have hstart : attestation.data.slot.epoch.startSlot.val ≤ attestation.data.slot.val :=
      Slot.startSlot_epoch_le _
    rw [ensure_eq_ok.1 hslotEpoch]
    have hone : minAttestationInclusionDelay = 1 := rfl
    omega

/-- An attestation keeps a state backed when its target is in `Seen`. -/
theorem processAttestation_backed [Crypto] (hseen : Seen attestation.data.target)
    (hs : Backed Seen s) : Ensures (s.processAttestation attestation) (Backed Seen) := by
  unfold processAttestation
  refine .bind acceptAttestation_target fun accepted haccepted => ?_
  refine .bind (Q := fun r : BeaconState × U64 => Backed Seen r.1) ?_ fun r hr => ?_
  · unfold recordAttestationParticipation
    refine .bind (Q := fun r : FlagUpdate × BuilderPendingPayment =>
      TargetFlag r.1.participation →
        TargetFlag (s.participationOf accepted.targetIsCurrentEpoch) ∨
          timelyTargetFlagIndex ∈ accepted.participationFlags) ?_ fun r hr => .pure ?_
    · refine .foldlM (fun vi acc hacc => .skip fun base => ?_) .inl
      refine .bind (Q := fun u : FlagUpdate => TargetFlag u.participation →
        TargetFlag (s.participationOf accepted.targetIsCurrentEpoch) ∨
          timelyTargetFlagIndex ∈ accepted.participationFlags) ?_ fun u hu => ?_
      · by_cases hmem : timelyTargetFlagIndex ∈ accepted.participationFlags
        · exact fun _ _ _ => .inr hmem
        · exact (recordFlags_targetFlag hmem).imp fun _ h hf => hacc (h hf)
      · exact .ite (.skip fun _ => .skip fun _ => .pure hu) (.pure hu)
    · -- the list of the target's epoch was written, the other one was not
      rcases haccepted.epoch_eq with ⟨hepoch, hcurrent⟩ | ⟨hepoch, hcurrent⟩
      · rw [hcurrent] at hr ⊢
        refine ⟨fun hf => ?_, hs.previous, hs.justified⟩
        rcases hr hf with hf | hmem
        · exact hs.current hf
        · have htarget := haccepted.target_eq hmem
          have hstarted := haccepted.started
          rw [hepoch] at htarget hstarted
          exact .inr ⟨hstarted, show Seen (s.checkpointAt s.slot.epoch) from htarget ▸ hseen⟩
      · rw [hcurrent] at hr ⊢
        refine ⟨hs.current, fun hf he => ?_, hs.justified⟩
        rcases hr hf with hf | hmem
        · exact hs.previous hf he
        · have htarget := haccepted.target_eq hmem
          rw [hepoch] at htarget
          exact show Seen (s.checkpointAt s.getPreviousEpoch) from htarget ▸ hseen
  · unfold rewardAttestationProposer
    exact .skip fun _ => (increaseBalance_changes (p := .block) _ _).imp
      fun _ h => h.frame.backed hr

theorem processOperations_backed [Crypto] {body : BeaconBlockBody}
    (hseen : ∀ a ∈ body.attestations.toList, Seen a.data.target) (hs : Backed Seen s) :
    Ensures (s.processOperations body) (Backed Seen) := by
  unfold processOperations
  refine .skip fun _ => ?_
  refine .bind (Changes.foldlM fun a _ => processProposerSlashing_changes a) fun s₁ h₁ => ?_
  refine .bind (Changes.foldlM (a := .payload) fun a _ => processAttesterSlashing_changes a)
    fun s₂ h₂ => ?_
  refine .bind (Q := Backed Seen) ?_ fun s₃ h₃ => ?_
  · intro s₃ h
    exact foldlM_inv (Backed Seen)
      (fun a ha s s' hs h => processAttestation_backed (hseen a ha) hs s' h)
      ((h₁.trans h₂).frame.backed hs) h
  refine .bind (Changes.foldlM (a := .payload) fun a _ => processVoluntaryExit_changes a)
    fun s₄ h₄ => ?_
  refine .bind (Changes.foldlM (a := .payload) fun a _ => processBlsToExecutionChange_changes a)
    fun s₅ h₅ => ?_
  exact .skip fun _ => .pure ((h₄.trans h₅).frame.backed h₃)

theorem processBlock_backed [Crypto] {block : BeaconBlock}
    (hseen : ∀ a ∈ block.body.attestations.toList, Seen a.data.target) (hs : Backed Seen s) :
    Ensures (s.processBlock block) (Backed Seen) := by
  unfold processBlock
  refine .bind (processParentExecutionPayload_frame _) fun s₁ h₁ => ?_
  refine .bind (Q := Backed Seen) ?_ fun s₂ h₂ => ?_
  · -- the header is no part of the evidence
    refine (processBlockHeader_writes _).imp fun s₂ h₂ => ?_
    have hs₁ := h₁.backed hs
    rw [h₂]
    exact ⟨hs₁.current, hs₁.previous, hs₁.justified⟩
  refine .bind processWithdrawals_changes fun s₃ h₃ => ?_
  refine .bind (processExecutionPayloadBid_changes _) fun s₄ h₄ => ?_
  refine .bind (processRandao_untouched _) fun s₅ h₅ => ?_
  refine .bind (processEth1Data_untouched _) fun s₆ h₆ => ?_
  refine .bind (processOperations_backed hseen
    ((h₅.trans h₆).frame.backed ((h₃.trans h₄).frame.backed h₂))) fun s₇ h₇ => ?_
  exact (processSyncAggregate_changes _).imp fun _ h => h.frame.backed h₇

/-! ## The states of a run -/

/-- The states that slots and blocks, taken from `blocks`, lead through from `start`. -/
inductive Visits [Crypto] (start : BeaconState) (blocks : List BeaconBlock) : BeaconState → Prop
  | start : Visits start blocks start
  | slot {s s' : BeaconState} {b : BeaconBlock} : Visits start blocks s → b ∈ blocks →
      s.slot < b.slot → s.advanceSlot = .ok s' → Visits start blocks s'
  | block {s s' : BeaconState} {b : BeaconBlock} : Visits start blocks s → b ∈ blocks →
      s.processBlock b = .ok s' → Visits start blocks s'

variable {start : BeaconState} {blocks : List BeaconBlock}

/-- A signed block keeps a state backed, when its targets are in `Seen` and all states on the way
have enough stake. -/
theorem stateTransition_backed [Crypto] (hstake : ∀ s, Visits start blocks s → WellStaked s)
    (hvisits : Visits start blocks s) (hs : Backed Seen s) {signedBlock : SignedBeaconBlock}
    (hb : signedBlock.message ∈ blocks)
    (hseen : ∀ a ∈ signedBlock.message.body.attestations.toList, Seen a.data.target) :
    Ensures (s.stateTransition signedBlock) fun s' => Visits start blocks s' ∧ Backed Seen s' := by
  intro s' h
  obtain ⟨s₁, hs₁, hs', -⟩ := stateTransition_parts h
  have hstep : ∀ s s', Visits start blocks s ∧ Backed Seen s → s.slot < signedBlock.message.slot →
      s.advanceSlot = .ok s' → Visits start blocks s' ∧ Backed Seen s' :=
    fun s s' h hlt hadvance => ⟨.slot h.1 hb hlt hadvance,
      (advanceSlot_effect s' hadvance).backed (hstake s h.1) h.2⟩
  obtain ⟨-, -, hvisits₁, hbacked₁⟩ := processSlots_inv signedBlock.message.slot
    (fun s' => hstep s s' ⟨hvisits, hs⟩) hstep s₁ hs₁
  exact ⟨.block hvisits₁ hb hs', processBlock_backed hseen hbacked₁ s' hs'⟩

end BeaconState

end Moonglass
