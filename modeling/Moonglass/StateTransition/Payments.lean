import Moonglass.StateTransition.Payload
import Moonglass.Lib.SlidingWindow

/-
  The payments that bids promise. The window holds a payment for each slot of the current and the
  previous epoch; a block settles the payment of its parent, records its own, and its operations
  weigh or clear the others. What leaves the window on the way to the queue is a release.
-/

namespace Moonglass

open Lib Word

variable [Preset]

/-- The payment that a bid promises. -/
def ExecutionPayloadBid.payment (bid : ExecutionPayloadBid) : BuilderPendingWithdrawal :=
  ⟨bid.feeRecipient, bid.value, bid.builderIndex⟩

/-- The slashing reports `proposer` for the slot. -/
def ProposerSlashing.Reports (slashing : ProposerSlashing) (slot : Slot)
    (proposer : ValidatorIndex) : Prop :=
  slashing.signedHeader1.message.slot = slot ∧
    slashing.signedHeader1.message.proposerIndex = proposer

namespace BeaconState

variable {s s' : BeaconState}

/-- The window has a place for each slot of two epochs. -/
theorem epochs_in_window : 2 * slotsPerEpoch ≤ builderPaymentWindowLen := le_rfl

/-- What the window holds for the bid of a slot. -/
def paymentOf (s : BeaconState) (slot : Nat) : Option BuilderPendingPayment :=
  windowAt s.builderPendingPayments slotsPerEpoch s.slot.epoch.val slot

/-- The place of a slot is its place in a window of two epochs. -/
theorem builderPaymentIndexForSlot_eq (s : BeaconState) (slot : Slot) :
    s.builderPaymentIndexForSlot slot =
      windowIndex slotsPerEpoch s.slot.epoch.val slot.val := by
  unfold builderPaymentIndexForSlot windowIndex
  have hslot : slot.epoch.val = slot.val / slotsPerEpoch := rfl
  have hprevious : s.getPreviousEpoch.val = s.slot.epoch.val - 1 := rfl
  dsimp only
  by_cases hcurrent : slot.val / slotsPerEpoch = s.slot.epoch.val
  · rw [if_pos hcurrent, if_pos (Fin.ext (hslot.trans hcurrent))]
  · rw [if_neg hcurrent, if_neg fun h => hcurrent (hslot ▸ congrArg Fin.val h)]
    by_cases hlast : slot.val / slotsPerEpoch + 1 = s.slot.epoch.val
    · rw [if_pos hlast, if_pos (Fin.ext (by omega))]
    · rw [if_neg hlast, if_neg]
      intro h
      have := congrArg Fin.val h
      omega

/-! ## The operations of a block -/

/-- What the operations of a block do to one payment: nothing, or they clear it, which only
slashings do, or they weigh one that holds an amount. The payment that the block itself recorded is
not weighed. -/
def Tended (slashing fresh : Prop) (p p' : BuilderPendingPayment) : Prop :=
  p' = p ∨ slashing ∧ p' = .default ∨
    ¬fresh ∧ 0 < p.withdrawal.amount.val ∧ p' = { p with weight := p'.weight }

omit [Preset] in
theorem Tended.trans {slashing fresh : Prop} {p p' p'' : BuilderPendingPayment}
    (h : Tended slashing fresh p p') (h' : Tended slashing fresh p' p'') :
    Tended slashing fresh p p'' := by
  rcases h' with rfl | hcleared | ⟨hfresh, hpos, h'⟩
  · exact h
  · exact .inr (.inl hcleared)
  · rcases h with rfl | ⟨-, rfl⟩ | ⟨-, hpos', h⟩
    · exact .inr (.inr ⟨hfresh, hpos, h'⟩)
    · exact absurd hpos (by decide)
    · refine .inr (.inr ⟨hfresh, hpos', ?_⟩)
      rw [h', h]

/-- The place of the current slot. -/
def currentPlace (s : BeaconState) : Nat := slotsPerEpoch + s.slot.val % slotsPerEpoch

theorem windowIndex_slot (s : BeaconState) :
    windowIndex slotsPerEpoch s.slot.epoch.val s.slot.val = some s.currentPlace :=
  windowIndex_of_current rfl

theorem currentPlace_lt (s : BeaconState) : s.currentPlace < builderPaymentWindowLen :=
  ((windowIndex_eq_some slotsPerEpoch_pos).1 s.windowIndex_slot).1

/-- `s'` is `s` after operations of a block, perhaps with a slashing among them. -/
structure Tends (slashing : Prop) (s s' : BeaconState) : Prop where
  slot : s'.slot = s.slot
  payments : ∀ i p, s.builderPendingPayments[i]? = some p →
    ∃ p', s'.builderPendingPayments[i]? = some p' ∧ Tended slashing (i = s.currentPlace) p p'
  queue : s'.builderPendingWithdrawals = s.builderPendingWithdrawals
  builders : s'.builders = s.builders

namespace Tends

variable {s'' : BeaconState} {slashing : Prop}

theorem refl (s : BeaconState) : Tends slashing s s := ⟨rfl, fun _ p hp => ⟨p, hp, .inl rfl⟩, rfl, rfl⟩

theorem currentPlace (h : Tends slashing s s') : s'.currentPlace = s.currentPlace := by
  unfold BeaconState.currentPlace
  rw [h.slot]

theorem trans (h : Tends slashing s s') (h' : Tends slashing s' s'') : Tends slashing s s'' where
  slot := h'.slot.trans h.slot
  payments i p hp := by
    obtain ⟨p', hp', htended⟩ := h.payments i p hp
    obtain ⟨p'', hp'', htended'⟩ := h'.payments i p' hp'
    rw [h.currentPlace] at htended'
    exact ⟨p'', hp'', htended.trans htended'⟩
  queue := h'.queue.trans h.queue
  builders := h'.builders.trans h.builders

theorem bind {x : Transition BeaconState} {f : BeaconState → Transition BeaconState}
    (hx : Ensures x (Tends slashing s)) (hf : ∀ s₁, Ensures (f s₁) (Tends slashing s₁)) :
    Ensures (x >>= f) (Tends slashing s) := Ensures.rel_bind (R := Tends slashing) trans hx hf

theorem foldlM {α : Type} {f : BeaconState → α → Transition BeaconState} {l : List α}
    (step : ∀ a s, Ensures (f s a) (Tends slashing s)) :
    Ensures (l.foldlM f s) (Tends slashing s) :=
  Ensures.rel_foldlM (R := Tends slashing) refl trans step

/-- Without a slashing, the payment that the block recorded stays. -/
theorem fresh (h : Tends False s s') :
    s'.builderPendingPayments[s.currentPlace]? = s.builderPendingPayments[s.currentPlace]? := by
  have hp : s.builderPendingPayments[s.currentPlace]? = _ :=
    Vector.getElem?_eq_getElem s.currentPlace_lt
  obtain ⟨p', hp', htended⟩ := h.payments _ _ hp
  rcases htended with rfl | ⟨hnot, -⟩ | ⟨hnot, -⟩
  · rw [hp', hp]
  · exact hnot.elim
  · exact absurd rfl hnot

theorem of_untouched (h : Untouched s s') : Tends slashing s s' where
  slot := congrArg ChainView.slot h.chain
  payments i p hp := by
    have hwindow : s'.builderPendingPayments = s.builderPendingPayments :=
      congrArg PayloadView.builderPendingPayments h.payload
    exact ⟨p, hwindow ▸ hp, .inl rfl⟩
  queue := congrArg PayloadView.builderPendingWithdrawals h.payload
  builders := congrArg PayloadView.builders h.payload

theorem mono (h : Tends False s s') : Tends slashing s s' where
  slot := h.slot
  payments i p hp := by
    obtain ⟨p', hp', htended⟩ := h.payments i p hp
    exact ⟨p', hp', htended.imp_right (.imp_left fun h => h.1.elim)⟩
  queue := h.queue
  builders := h.builders

/-- Writing one place of the window. -/
theorem set {i : Nat} {p' : BuilderPendingPayment}
    (h : ∀ p, s.builderPendingPayments[i]? = some p →
      Tended slashing (i = s.currentPlace) p p') :
    Tends slashing s { s with
      builderPendingPayments := s.builderPendingPayments.setIfInBounds i p' } where
  slot := rfl
  payments j p hp := by
    rw [Vector.getElem?_setIfInBounds]
    by_cases hij : i = j
    · subst hij
      have hlt : i < builderPaymentWindowLen := (Vector.getElem?_eq_some_iff.1 hp).1
      rw [if_pos rfl, if_pos hlt]
      exact ⟨p', rfl, h p hp⟩
    · rw [if_neg hij]
      exact ⟨p, hp, .inl rfl⟩
  queue := rfl
  builders := rfl

end Tends

theorem clearSlashedPayment_tends (slot : Slot) (proposer : ValidatorIndex) :
    Tends True s (s.clearSlashedPayment slot proposer) := by
  unfold clearSlashedPayment
  dsimp only
  repeat' split
  all_goals first
    | exact Tends.set fun _ _ => .inr (.inl ⟨trivial, rfl⟩)
    | exact Tends.refl s

theorem processProposerSlashing_tends [Crypto] (slashing : ProposerSlashing) :
    Ensures (s.processProposerSlashing slashing) (Tends True s) := by
  refine (processProposerSlashing_slashes slashing).imp fun _ h => ?_
  exact (clearSlashedPayment_tends _ _).trans (.of_untouched h.untouched)

theorem foldlM_processProposerSlashing_tends [Crypto] {l : List ProposerSlashing}
    (h : l.foldlM processProposerSlashing s = .ok s') : Tends True s s' :=
  Tends.foldlM (fun x _ => processProposerSlashing_tends x) s' h

/-- A payment is cleared if a slashing reports its proposer, and otherwise stays. -/
def ClearedIf (reported : Prop) (p p' : BuilderPendingPayment) : Prop :=
  (reported → p' = .default) ∧ (¬reported → p' = p)

variable {p : BuilderPendingPayment}

theorem clearSlashedPayment_fresh {slot : Slot} {proposer : ValidatorIndex}
    (hp : s.builderPendingPayments[s.currentPlace]? = some p) :
    ∃ p', (s.clearSlashedPayment slot proposer).builderPendingPayments[s.currentPlace]? = some p' ∧
      ClearedIf (slot = s.slot ∧ proposer = p.proposerIndex) p p' := by
  have hmod := Nat.mod_lt slot.val slotsPerEpoch_pos
  have hplace : s.currentPlace = slotsPerEpoch + s.slot.val % slotsPerEpoch := rfl
  by_cases hslot : slot = s.slot
  · subst hslot
    unfold clearSlashedPayment
    simp only [if_true, ← hplace, hp]
    by_cases hproposer : p.proposerIndex = proposer
    · rw [if_pos hproposer]
      exact ⟨.default, by simp [currentPlace_lt], fun _ => rfl, fun h => absurd ⟨trivial, hproposer.symm⟩ h⟩
    · rw [if_neg hproposer]
      exact ⟨p, hp, fun h => absurd h.2.symm hproposer, fun _ => rfl⟩
  · refine ⟨p, ?_, fun h => absurd h.1 hslot, fun _ => rfl⟩
    -- another slot of the epoch has another place
    have hother : slot.epoch = s.slot.epoch →
        slotsPerEpoch + slot.val % slotsPerEpoch ≠ s.currentPlace := by
      intro hepoch heq
      have hdiv : slot.val / slotsPerEpoch = s.slot.val / slotsPerEpoch := congrArg Fin.val hepoch
      have h₁ := Nat.div_add_mod slot.val slotsPerEpoch
      have h₂ := Nat.div_add_mod s.slot.val slotsPerEpoch
      rw [hdiv] at h₁
      exact hslot (Fin.ext (by omega))
    unfold clearSlashedPayment
    dsimp only
    repeat' split
    all_goals first
      | exact hp
      | dsimp only
        rw [Vector.getElem?_setIfInBounds_ne (by first | exact hother ‹_› | omega)]
        exact hp

theorem processProposerSlashing_fresh [Crypto] (slashing : ProposerSlashing)
    (hp : s.builderPendingPayments[s.currentPlace]? = some p) :
    Ensures (s.processProposerSlashing slashing) fun s' => s'.slot = s.slot ∧
      ∃ p', s'.builderPendingPayments[s.currentPlace]? = some p' ∧
        ClearedIf (slashing.Reports s.slot p.proposerIndex) p p' := by
  intro s' h
  have huntouched := (processProposerSlashing_slashes slashing s' h).untouched
  have hwindow : s'.builderPendingPayments = _ :=
    congrArg PayloadView.builderPendingPayments huntouched.payload
  refine ⟨(processProposerSlashing_tends slashing s' h).slot, ?_⟩
  rw [hwindow]
  exact clearSlashedPayment_fresh hp

/-- The proposer slashings of a block clear the payment that it recorded exactly when one of them
reports its proposer for its slot. -/
theorem foldlM_processProposerSlashing_fresh [Crypto] {l : List ProposerSlashing}
    (hp : s.builderPendingPayments[s.currentPlace]? = some p)
    (h : l.foldlM processProposerSlashing s = .ok s') :
    ∃ p', s'.builderPendingPayments[s.currentPlace]? = some p' ∧
      ClearedIf (∃ x ∈ l, x.Reports s.slot p.proposerIndex) p p' := by
  induction l generalizing s p with
  | nil =>
    cases h
    exact ⟨p, hp, by simp, fun _ => rfl⟩
  | cons x l ih =>
    rw [List.foldlM_cons] at h
    obtain ⟨s₁, h₁, h⟩ := bind_eq_ok.1 h
    obtain ⟨hslot, p₁, hp₁, hcleared, hkept⟩ := processProposerSlashing_fresh x hp s₁ h₁
    have hplace : s₁.currentPlace = s.currentPlace := by unfold currentPlace; rw [hslot]
    rw [← hplace] at hp₁
    obtain ⟨p', hp', hcleared', hkept'⟩ := ih hp₁ h
    rw [hplace] at hp'
    rw [hslot] at hcleared' hkept'
    refine ⟨p', hp', ?_, ?_⟩
    · intro hreported
      by_cases hx : x.Reports s.slot p.proposerIndex
      · have hblank := hcleared hx
        by_cases hrest : ∃ y ∈ l, y.Reports s.slot p₁.proposerIndex
        · exact hcleared' hrest
        · rw [hkept' hrest, hblank]
      · rw [hkept hx] at hcleared'
        exact hcleared' (((List.exists_mem_cons_iff ..).1 hreported).resolve_left hx)
    · intro hnone
      rw [List.exists_mem_cons_iff, not_or] at hnone
      have hsame := hkept hnone.1
      rw [hsame] at hkept'
      exact hkept' hnone.2

/-- An accepted attestation is for an earlier slot, and weighs the payment of that slot. -/
theorem acceptAttestation_payment [Crypto] (attestation : Attestation) :
    Ensures (s.acceptAttestation attestation) fun accepted =>
      attestation.data.slot.val < s.slot.val ∧
        s.builderPaymentIndexForSlot attestation.data.slot = some accepted.builderPaymentIndex := by
  unfold acceptAttestation
  refine .skip fun _ => .skip fun _ => .lookup fun earliest hearliest => ?_
  refine .guard fun hle => .skip fun _ => .skip fun _ => ?_
  refine .skip fun _ => .skip fun _ => .skip fun _ => .skip fun _ => .skip fun _ => ?_
  refine .lookup fun index hindex => .pure ⟨?_, hindex⟩
  rw [checkedAdd_eq_some] at hearliest
  have hle : earliest.val ≤ s.slot.val := hle
  have hdelay : minAttestationInclusionDelay = 1 := rfl
  omega

/-- The loop over the attesters weighs the payment, and only one that holds an amount. -/
theorem recordAttestationParticipation_tends {accepted : AcceptedAttestation}
    (hplace : accepted.builderPaymentIndex ≠ s.currentPlace) :
    Ensures (s.recordAttestationParticipation accepted) fun r => Tends False s r.1 := by
  unfold recordAttestationParticipation
  dsimp only
  refine .bind (Q := fun acc : FlagUpdate × BuilderPendingPayment =>
    Tended False (accepted.builderPaymentIndex = s.currentPlace)
      (s.builderPendingPayments[accepted.builderPaymentIndex]?.getD .default) acc.2) ?_
    fun acc hacc => .pure ?_
  · refine .foldlM (fun vi acc hacc => .skip fun base => .skip fun u => ?_) (.inl rfl)
    refine .dite (fun hweigh => .skip fun v => .skip fun weight => .pure ?_) fun _ => .pure hacc
    simp only [Bool.and_eq_true, decide_eq_true_eq] at hweigh
    exact hacc.trans (.inr (.inr ⟨hplace, hweigh.2, rfl⟩))
  · have hset : Tends False s { s with builderPendingPayments :=
        s.builderPendingPayments.setIfInBounds accepted.builderPaymentIndex acc.2 } :=
      .set fun p hp => by rwa [hp] at hacc
    unfold setParticipationOf
    split <;> exact ⟨rfl, hset.payments, rfl, rfl⟩

theorem processAttestation_tends [Crypto] (attestation : Attestation) :
    Ensures (s.processAttestation attestation) (Tends False s) := by
  unfold processAttestation rewardAttestationProposer
  refine .bind (acceptAttestation_payment attestation) fun accepted ⟨hslot, hindex⟩ => ?_
  -- the attested slot is before the current one, so it has another place
  have hplace : accepted.builderPaymentIndex ≠ s.currentPlace := by
    intro heq
    rw [builderPaymentIndexForSlot_eq, heq] at hindex
    have := windowIndex_inj slotsPerEpoch_pos hindex s.windowIndex_slot
    omega
  refine .bind (recordAttestationParticipation_tends hplace) fun r hr => .skip fun proposer => ?_
  exact (increaseBalance_changes (p := .block) _ _).imp fun _ h =>
    hr.trans (.of_untouched h.untouched)

/-- The operations are the proposer slashings, and others after them. -/
theorem processOperations_tends [Crypto] (body : BeaconBlockBody) :
    Ensures (s.processOperations body) fun s' => ∃ s₁,
      body.proposerSlashings.toList.foldlM processProposerSlashing s = .ok s₁ ∧
        Tends False s₁ s' := by
  unfold processOperations
  refine .skip fun _ => .step fun s₁ h₁ => Ensures.imp ?_ fun _ h => ⟨s₁, h₁, h⟩
  refine Tends.bind (Tends.foldlM fun a _ => (processAttesterSlashing_changes a).imp
    fun _ h => Tends.of_untouched h.untouched) fun s₂ => ?_
  refine Tends.bind (Tends.foldlM fun a _ => processAttestation_tends a) fun s₃ => ?_
  refine Tends.bind (Tends.foldlM fun a _ => (processVoluntaryExit_changes a).imp
    fun _ h => Tends.of_untouched h.untouched) fun s₄ => ?_
  refine Tends.bind (Tends.foldlM fun a _ => (processBlsToExecutionChange_changes a).imp
    fun _ h => Tends.of_untouched h.untouched) fun s₅ => ?_
  exact .skip fun _ => .pure (.refl s₅)

/-! ## Settling the parent -/

/-- The window without the payment of the latest bid. -/
def clearedPayments (s : BeaconState) : Vector BuilderPendingPayment builderPaymentWindowLen :=
  match s.builderPaymentIndexForSlot s.latestExecutionPayloadBid.slot with
  | some i => s.builderPendingPayments.setIfInBounds i .default
  | none => s.builderPendingPayments

/-- What a child that counts the latest bid as full releases: the payment that the window holds for
it, and once the bid is older than the window, the payment that it promised. -/
def parentRelease (s : BeaconState) : List BuilderPendingWithdrawal :=
  match s.builderPaymentIndexForSlot s.latestExecutionPayloadBid.slot with
  | some i =>
    match s.builderPendingPayments[i]? with
    | some p => if 0 < p.withdrawal.amount.val then [p.withdrawal] else []
    | none => []
  | none =>
    if 0 < s.latestExecutionPayloadBid.value.val then [s.latestExecutionPayloadBid.payment] else []

theorem settleParent_eq : Ensures (s.settleParent s.latestExecutionPayloadBid) fun s' =>
    ∃ queue, queue.toList = s.builderPendingWithdrawals.toList ++ s.parentRelease ∧
      s' = { s with
        builderPendingWithdrawals := queue
        builderPendingPayments := s.clearedPayments } := by
  unfold settleParent parentRelease clearedPayments
  cases s.builderPaymentIndexForSlot s.latestExecutionPayloadBid.slot with
  | some i =>
    refine (settleBuilderPayment_eq i).imp fun s' ⟨payment, queue, hpayment, hqueue, hs'⟩ => ?_
    exact ⟨queue, by dsimp only; rw [hqueue, hpayment], hs'⟩
  | none =>
    refine .dite (fun hpos => ?_) fun hpos => ?_
    · refine (queueBuilderPendingWithdrawal_eq _).imp fun s' ⟨queue, hqueue, hs'⟩ => ?_
      exact ⟨queue, by dsimp only; rw [hqueue, if_pos hpos]; rfl, hs'⟩
    · exact .pure ⟨s.builderPendingWithdrawals, by simp [hpos], rfl⟩

/-- Applying the parent's payload releases the payment of the parent's bid. -/
theorem ParentApplied.payments [Crypto] {requests : ExecutionRequests}
    (h : ParentApplied s requests s') : s'.builderPendingPayments = s.clearedPayments ∧
      s'.builderPendingWithdrawals.toList =
        s.builderPendingWithdrawals.toList ++ s.parentRelease ∧
      s'.builders = h.exited.builders ∧
      h.exited = { h.validated with builders := h.exited.builders } := by
  have hdeposited : h.deposited = { h.validated with builders := h.deposited.builders } :=
    foldlM_builders (fun r _ => processBuilderDepositRequest_eq r) _ h.deposited_eq
  have hexited : h.exited = { h.deposited with builders := h.exited.builders } :=
    foldlM_builders (fun r _ => processBuilderExitRequest_eq r) _ h.exited_eq
  have hall : h.exited = { h.validated with builders := h.exited.builders } := by
    rw [hexited, hdeposited]
  -- the requests touch nothing that the settlement reads
  have hslot : h.exited.slot = s.slot := by
    rw [hall]
    exact congrArg ChainView.slot h.untouched.chain
  have hbid : h.exited.latestExecutionPayloadBid = s.latestExecutionPayloadBid := by
    rw [hall]
    exact congrArg PayloadView.latestExecutionPayloadBid h.untouched.payload
  have hwindow : h.exited.builderPendingPayments = s.builderPendingPayments := by
    rw [hall]
    exact congrArg PayloadView.builderPendingPayments h.untouched.payload
  have hqueue : h.exited.builderPendingWithdrawals = s.builderPendingWithdrawals := by
    rw [hall]
    exact congrArg PayloadView.builderPendingWithdrawals h.untouched.payload
  have hsettled := h.settled_eq
  rw [← hbid] at hsettled
  obtain ⟨queue, hrelease, hsettled⟩ := settleParent_eq _ hsettled
  have hcleared : h.exited.clearedPayments = s.clearedPayments := by
    unfold clearedPayments builderPaymentIndexForSlot getPreviousEpoch getCurrentEpoch
    rw [hslot, hbid, hwindow]
  have hreleased : h.exited.parentRelease = s.parentRelease := by
    unfold parentRelease builderPaymentIndexForSlot getPreviousEpoch getCurrentEpoch
    rw [hslot, hbid, hwindow]
  have hwindow' := congrArg builderPendingPayments h.result
  have hqueue' := congrArg builderPendingWithdrawals h.result
  have hbuilders' := congrArg builders h.result
  dsimp only at hwindow' hqueue' hbuilders'
  rw [hsettled] at hwindow' hqueue' hbuilders'
  exact ⟨hwindow'.trans hcleared, by rw [hqueue', hrelease, hqueue, hreleased], hbuilders', hall⟩

/-- What a block releases to the queue. -/
def released (s : BeaconState) (block : BeaconBlock) : List BuilderPendingWithdrawal :=
  if block.bid.parentBlockHash = s.latestExecutionPayloadBid.blockHash then s.parentRelease else []

/-- The window after the parent phase of a block. -/
def settledPayments (s : BeaconState) (block : BeaconBlock) :
    Vector BuilderPendingPayment builderPaymentWindowLen :=
  if block.bid.parentBlockHash = s.latestExecutionPayloadBid.blockHash then s.clearedPayments
  else s.builderPendingPayments

/-- The entry that an accepted bid makes. -/
def recordedPayments (s : BeaconState) (block : BeaconBlock) :
    Vector BuilderPendingPayment builderPaymentWindowLen :=
  if block.bid.value.val = 0 then s.settledPayments block
  else (s.settledPayments block).setIfInBounds s.currentPlace
    ⟨0, block.bid.payment, block.proposerIndex⟩

theorem validateBidIdentity_slot {bid : ExecutionPayloadBid} {u : Unit}
    (h : s.validateBidIdentity bid = .ok u) : bid.slot = s.slot := by
  unfold validateBidIdentity at h
  obtain ⟨_, hslot, -⟩ := bind_eq_ok.1 h
  by_contra hne
  exact (ensure_eq_ok.1 hslot) (.inl hne)

theorem processParentExecutionPayload_payments [Crypto] {block : BeaconBlock}
    (h : s.processParentExecutionPayload block = .ok s') :
    s'.builderPendingPayments = s.settledPayments block ∧
      s'.builderPendingWithdrawals.toList =
        s.builderPendingWithdrawals.toList ++ s.released block := by
  unfold settledPayments released
  rcases processParentExecutionPayload_cases h with ⟨hempty, rfl, -⟩ | ⟨hfull, happlied⟩
  · rw [if_neg hempty, if_neg hempty, List.append_nil]
    exact ⟨rfl, rfl⟩
  · obtain ⟨happlied⟩ := applyParentExecutionPayload_parts _ _ happlied
    rw [if_pos hfull, if_pos hfull]
    exact ⟨happlied.payments.1, happlied.payments.2.1⟩

namespace BlockPhases

variable {block : BeaconBlock}

theorem parent_payments [Crypto] (h : BlockPhases s block s') :
    h.parent.builderPendingPayments = s.settledPayments block ∧
      h.parent.builderPendingWithdrawals.toList =
        s.builderPendingWithdrawals.toList ++ s.released block :=
  processParentExecutionPayload_payments h.parent_eq

theorem header_payments [Crypto] (h : BlockPhases s block s') :
    h.header.builderPendingPayments = h.parent.builderPendingPayments ∧
      h.header.builderPendingWithdrawals = h.parent.builderPendingWithdrawals ∧
      h.header.builders = h.parent.builders := by
  rw [processBlockHeader_eq block _ h.header_eq]
  exact ⟨rfl, rfl, rfl⟩

/-- The withdrawal phase pays the head of the queue and leaves the window alone. -/
theorem withdrawals_payments [Crypto] (h : BlockPhases s block s') :
    h.withdrawals.builderPendingPayments = h.header.builderPendingPayments ∧
      ∃ paid, h.header.builderPendingWithdrawals.toList =
        paid ++ h.withdrawals.builderPendingWithdrawals.toList := by
  by_cases hfull : block.bid.parentBlockHash = s.latestExecutionPayloadBid.blockHash
  · obtain ⟨run⟩ := runWithdrawals_run _ (h.parentDecision.full hfull).2
    exact ⟨run.window, _, run.payouts⟩
  · rw [(h.parentDecision.empty hfull).2.2]
    exact ⟨rfl, [], rfl⟩

/-- The slot is the same in every phase. -/
theorem slots [Crypto] (h : BlockPhases s block s') :
    h.parent.slot = s.slot ∧ h.header.slot = s.slot ∧ h.withdrawals.slot = s.slot ∧
      h.bid.slot = s.slot := by
  have hparent : h.parent.slot = s.slot := congrArg ChainView.slot h.chain.1
  have hheader : h.header.slot = s.slot := by
    rw [processBlockHeader_eq block _ h.header_eq]
    exact hparent
  have hwithdrawals : h.withdrawals.slot = s.slot :=
    (processWithdrawals_changes _ h.withdrawals_eq).slot.trans hheader
  exact ⟨hparent, hheader, hwithdrawals,
    (processExecutionPayloadBid_changes _ _ h.bid_eq).slot.trans
      hwithdrawals⟩

/-- The proposer that the bid phase records is the block's. -/
theorem proposer [Crypto] (h : BlockPhases s block s') :
    h.withdrawals.getBeaconProposerIndex = .ok block.proposerIndex := by
  have hheader := processBlockHeader_eq block _ h.header_eq
  have hcore := (processWithdrawals_changes _ h.withdrawals_eq).core
  have hcalendar := congrArg CoreView.calendar hcore
  have heq := h.header_eq
  unfold processBlockHeader at heq
  simp only [bind_eq_ok] at heq
  obtain ⟨_, -, _, -, expected, hexpected, _, hproposer, -⟩ := heq
  have hproposer : block.proposerIndex = expected := ensure_eq_ok.1 hproposer
  have hlookahead : h.withdrawals.proposerLookahead = h.header.proposerLookahead :=
    congrArg CalendarView.proposerLookahead hcalendar
  have hslot : h.withdrawals.slot = h.header.slot := congrArg CalendarView.slot hcalendar
  rw [hproposer, ← hexpected]
  unfold getBeaconProposerIndex
  rw [hlookahead, hslot, hheader]

theorem bid_payments [Crypto] (h : BlockPhases s block s') :
    block.bid.slot = s.slot ∧ h.bid.builders = h.withdrawals.builders ∧
      h.bid.builderPendingWithdrawals = h.withdrawals.builderPendingWithdrawals ∧
      h.bid.builderPendingPayments = s.recordedPayments block := by
  have hslot : block.bid.slot = s.slot := by
    have heq := h.bid_eq
    unfold processExecutionPayloadBid at heq
    obtain ⟨_, hidentity, -⟩ := bind_eq_ok.1 heq
    exact (validateBidIdentity_slot hidentity).trans h.slots.2.2.1
  obtain ⟨-, -, proposer, hproposer, hbid⟩ := processExecutionPayloadBid_eq _ _ h.bid_eq
  cases h.proposer.symm.trans hproposer
  have hwindow : h.withdrawals.builderPendingPayments = s.settledPayments block :=
    h.withdrawals_payments.1.trans (h.header_payments.1.trans h.parent_payments.1)
  refine ⟨hslot, ?_, ?_, ?_⟩
  · rw [hbid, recordAcceptedBid_eq]
  · rw [hbid, recordAcceptedBid_eq]
  · rw [hbid]
    unfold recordAcceptedBid recordedPayments currentPlace
    rw [← hslot]
    dsimp only
    split
    · exact hwindow
    · dsimp only
      rw [hwindow]
      rfl

/-- The phases after the bid tend the window. -/
theorem after_bid_tends [Crypto] (h : BlockPhases s block s') :
    ∃ before after : BeaconState, Tends False h.bid before ∧
      block.body.proposerSlashings.toList.foldlM processProposerSlashing before = .ok after ∧
      Tends False after s' := by
  have h₁ : Tends False h.bid h.randao := .of_untouched (processRandao_untouched _ _ h.randao_eq)
  have h₂ : Tends False h.randao h.eth1 := .of_untouched (processEth1Data_untouched _ _ h.eth1_eq)
  obtain ⟨slashed, hslashed, h₃⟩ := processOperations_tends _ _ h.operations_eq
  have h₄ : Tends False h.operations s' :=
    .of_untouched (processSyncAggregate_changes _ _ h.sync_eq).untouched
  exact ⟨h.eth1, slashed, h₁.trans h₂, hslashed, h₃.trans h₄⟩

theorem tends [Crypto] (h : BlockPhases s block s') : Tends True h.bid s' := by
  obtain ⟨before, after, hbefore, hslashed, hafter⟩ := h.after_bid_tends
  exact (hbefore.mono.trans (foldlM_processProposerSlashing_tends hslashed)).trans hafter.mono

/-- What the block leaves of the payment that it recorded. -/
theorem fresh_payment [Crypto] (h : BlockPhases s block s') (hvalue : 0 < block.bid.value.val) :
    ∃ p, s'.builderPendingPayments[s.currentPlace]? = some p ∧
      ClearedIf (∃ x ∈ block.body.proposerSlashings.toList, x.Reports s.slot block.proposerIndex)
        ⟨0, block.bid.payment, block.proposerIndex⟩ p := by
  obtain ⟨before, after, hbefore, hslashed, hafter⟩ := h.after_bid_tends
  have hslot : before.slot = s.slot := hbefore.slot.trans h.slots.2.2.2
  have hbid : h.bid.currentPlace = s.currentPlace := by
    unfold currentPlace
    rw [h.slots.2.2.2]
  have hplace : before.currentPlace = s.currentPlace := hbefore.currentPlace.trans hbid
  have hplace' : after.currentPlace = s.currentPlace :=
    (foldlM_processProposerSlashing_tends hslashed).currentPlace.trans hplace
  have hrecorded : before.builderPendingPayments[before.currentPlace]? =
      some ⟨0, block.bid.payment, block.proposerIndex⟩ := by
    have hfresh := hbefore.fresh
    rw [hbid, h.bid_payments.2.2.2, recordedPayments, if_neg hvalue.ne'] at hfresh
    rw [hplace, hfresh]
    simp [currentPlace_lt]
  obtain ⟨p, hp, hcleared⟩ := foldlM_processProposerSlashing_fresh hrecorded hslashed
  have hfresh := hafter.fresh
  rw [hplace', ← hplace, hp, hplace] at hfresh
  exact ⟨p, hfresh, hslot ▸ hcleared⟩

end BlockPhases

/-! ## Slots -/

/-- The quorum that the end of an epoch asks of the payments of the epoch before it. -/
def paymentQuorum [Crypto] (s : BeaconState) : Transition Gwei := do
  let filed ← s.processSlot
  let due ← filed.beforeBuilderPayments
  due.getBuilderPaymentQuorumThreshold

/-- Some weight is always asked for. -/
theorem getBuilderPaymentQuorumThreshold_pos :
    Ensures s.getBuilderPaymentQuorumThreshold fun threshold => 0 < threshold.val := by
  unfold getBuilderPaymentQuorumThreshold getTotalActiveBalance getTotalBalance
  refine .bind (Q := fun total : Gwei => effectiveBalanceIncrement ≤ total.val) ?_
    fun total htotal => .lookup fun quorum hquorum => .pure ?_
  · refine .skip fun total => .pure ?_
    exact le_max_right total (Word.wrap effectiveBalanceIncrement : Gwei)
  · rw [checkedMul_eq_some] at hquorum
    rw [div_val, hquorum, div_val]
    have hspe : slotsPerEpoch ≤ 32 := by
      rcases slotsPerEpoch_cases with h | h <;> omega
    have hshare : 1000000000 / 32 ≤ total.val / slotsPerEpoch :=
      Nat.div_le_div htotal hspe slotsPerEpoch_pos.ne'
    unfold builderPaymentThresholdNumerator builderPaymentThresholdDenominator
    omega

theorem paymentQuorum_pos [Crypto] :
    Ensures s.paymentQuorum fun threshold => 0 < threshold.val := by
  unfold paymentQuorum
  exact .skip fun _ => .skip fun _ => getBuilderPaymentQuorumThreshold_pos

/-- What a turn of the slot loop does to the payments: nothing within an epoch, and at its end the
payments with a quorum are queued and the window moves on. -/
structure SlotPaid [Crypto] (s s' : BeaconState) : Prop where
  slot : s'.slot.val = s.slot.val + 1
  bid : s'.latestExecutionPayloadBid = s.latestExecutionPayloadBid
  builders : s'.builders = s.builders
  inner : s'.slot.val % slotsPerEpoch ≠ 0 →
    s'.builderPendingPayments = s.builderPendingPayments ∧
      s'.builderPendingWithdrawals = s.builderPendingWithdrawals
  boundary : s'.slot.val % slotsPerEpoch = 0 → ∃ threshold, s.paymentQuorum = .ok threshold ∧
    s'.builderPendingPayments =
      shiftWindow s.builderPendingPayments slotsPerEpoch (fun _ => .default) ∧
    s'.builderPendingWithdrawals.toList =
      s.builderPendingWithdrawals.toList ++ (s.quorumPayments threshold).map (·.withdrawal)

theorem processSlot_payload [Crypto] :
    Ensures s.processSlot fun s' => s'.payloadView = s.payloadView := by
  unfold processSlot
  exact .skip fun _ => .pure rfl

theorem advanceSlot_payments [Crypto] (h : s.advanceSlot = .ok s') : SlotPaid s s' := by
  obtain ⟨filed, next, hfiled, hs', hslot, hparts⟩ := advanceSlot_parts h
  have hview : filed.payloadView = s.payloadView := processSlot_payload filed hfiled
  have hbid : s'.latestExecutionPayloadBid = s.latestExecutionPayloadBid :=
    (advanceSlot_execution h).bid
  rcases hparts with ⟨hinner, rfl⟩ | ⟨hboundary, hepoch⟩
  · have hview' : s'.payloadView = s.payloadView := by
      rw [hs']
      exact hview
    exact ⟨hslot, hbid, congrArg PayloadView.builders hview', fun _ =>
      ⟨congrArg PayloadView.builderPendingPayments hview',
        congrArg PayloadView.builderPendingWithdrawals hview'⟩, fun h => absurd h hinner⟩
  · obtain ⟨parts, hdue⟩ := processEpoch_due next hepoch
    have hjustified : parts.justified.payloadView = filed.payloadView := by
      rw [processJustificationAndFinalization_writes _ parts.justified_eq]
      rfl
    have hview' : parts.due.payloadView = s.payloadView :=
      parts.before.payload.trans (hjustified.trans hview)
    obtain ⟨threshold, queue, hthreshold, hqueue, hpaid⟩ :=
      processBuilderPendingPayments_eq _ parts.paid_eq
    have hs'view : s'.payloadView = parts.paid.payloadView := by
      rw [hs']
      exact parts.payload
    have hwindow : parts.due.builderPendingPayments = s.builderPendingPayments :=
      congrArg PayloadView.builderPendingPayments hview'
    refine ⟨hslot, hbid, ?_, fun h => absurd hboundary h, fun _ => ⟨threshold, ?_, ?_, ?_⟩⟩
    · refine (congrArg PayloadView.builders hs'view).trans ?_
      rw [hpaid]
      exact congrArg PayloadView.builders hview'
    · unfold paymentQuorum
      rw [hfiled, ok_bind, hdue, ok_bind, hthreshold]
    · refine (congrArg PayloadView.builderPendingPayments hs'view).trans ?_
      rw [hpaid, ← hwindow]
      rfl
    · refine (congrArg (BoundedList.toList ∘ PayloadView.builderPendingWithdrawals) hs'view).trans ?_
      have hold : parts.due.builderPendingWithdrawals = s.builderPendingWithdrawals :=
        congrArg PayloadView.builderPendingWithdrawals hview'
      rw [hpaid, ← hold]
      unfold quorumPayments at hqueue ⊢
      rw [← hwindow]
      exact hqueue

theorem SlotPaid.epoch_inner [Crypto] (h : SlotPaid s s')
    (hinner : s'.slot.val % slotsPerEpoch ≠ 0) :
    s'.slot.epoch.val = s.slot.epoch.val := epoch_of_inner h.slot hinner

theorem SlotPaid.epoch_boundary [Crypto] (h : SlotPaid s s')
    (hboundary : s'.slot.val % slotsPerEpoch = 0) :
    s'.slot.epoch.val = s.slot.epoch.val + 1 := epoch_of_boundary h.slot hboundary

end BeaconState

end Moonglass
