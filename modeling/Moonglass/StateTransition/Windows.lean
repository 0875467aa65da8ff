import Moonglass.StateTransition.Duties

/-
  The rolling windows. Proposers, payload committees and builder payments are kept in arrays that
  are addressed by slot relative to the state's epoch, and that move on by an epoch at its end. The
  address of a slot moves with the array, so a slot keeps its entry for as long as it is in the
  window.
-/

namespace Moonglass

open Lib

variable [Preset]

namespace BeaconState

variable {s s' : BeaconState} {slot : Slot}

/-- The first slot of the state's epoch. -/
def epochStart (s : BeaconState) : Nat := s.slot.epoch.val * slotsPerEpoch

/-- The proposer at the lookahead position of a slot: the lookahead begins with the state's epoch. -/
def assignedProposer (s : BeaconState) (slot : Slot) : Option ValidatorIndex :=
  entryAt s.proposerLookahead s.epochStart slot.val

/-- The committee in the bucket of a slot. -/
def windowPtc (s : BeaconState) (slot : Slot) : Option (Vector ValidatorIndex ptcSize) :=
  (s.ptcWindowIndexForSlot slot).bind fun i => s.ptcWindow[i]?

/-! ## Lookups -/

/-- The proposer of the state's own slot is the one at the slot's lookahead position. -/
theorem getBeaconProposerIndex_eq : s.getBeaconProposerIndex =
    okOr (s.assignedProposer s.slot) (.block (.proposerLookaheadOutOfRange s.slot)) := by
  have hdiv := Nat.div_add_mod s.slot.val slotsPerEpoch
  rw [Nat.mul_comm] at hdiv
  have hplace : s.slot.val - s.epochStart = s.slot.val % slotsPerEpoch := by
    unfold epochStart
    rw [Slot.epoch_val]
    omega
  unfold getBeaconProposerIndex assignedProposer entryAt
  rw [hplace, if_pos (by unfold epochStart; rw [Slot.epoch_val]; omega)]

theorem ptcWindowIndexForSlot_lt {i : Nat} (h : s.ptcWindowIndexForSlot slot = some i) :
    i < ptcWindowLen := by
  have hmod := Nat.mod_lt slot.val slotsPerEpoch_pos
  have hlen : ptcWindowLen = 3 * slotsPerEpoch := rfl
  unfold ptcWindowIndexForSlot at h
  dsimp only at h
  repeat' split at h
  all_goals cases h
  all_goals omega

/-- The bucket of a slot is its place in a window that begins with the epoch before the state's. -/
theorem windowPtc_eq : s.windowPtc slot =
    entryAt s.ptcWindow s.epochStart (slot.val + slotsPerEpoch) := by
  have hpos := slotsPerEpoch_pos
  have hslot : slot.epoch.val * slotsPerEpoch + slot.val % slotsPerEpoch = slot.val := by
    rw [Slot.epoch_val]
    exact Nat.div_add_mod' _ _
  have hmod := Nat.mod_lt slot.val hpos
  unfold windowPtc ptcWindowIndexForSlot entryAt epochStart
  dsimp only
  by_cases hprevious : slot.epoch.val + 1 = s.slot.epoch.val
  · have hbase : s.slot.epoch.val * slotsPerEpoch = slot.epoch.val * slotsPerEpoch + slotsPerEpoch := by
      rw [← hprevious, Nat.succ_mul]
    rw [if_pos hprevious, if_pos (by omega), Option.bind_some]
    congr 1
    omega
  rw [if_neg hprevious]
  by_cases hcurrent : slot.epoch.val = s.slot.epoch.val
  · rw [if_pos hcurrent, ← hcurrent, if_pos (by omega), Option.bind_some]
    congr 1
    omega
  rw [if_neg hcurrent]
  by_cases hnext : s.slot.epoch.val + 1 = slot.epoch.val
  · have hbase : slot.epoch.val * slotsPerEpoch =
        s.slot.epoch.val * slotsPerEpoch + slotsPerEpoch := by
      rw [← hnext, Nat.succ_mul]
    rw [if_pos hnext, if_pos (by omega), Option.bind_some]
    congr 1
    omega
  rw [if_neg hnext, Option.bind_none]
  -- two epochs apart, the slot is in front of the window or past its end
  rcases Nat.lt_or_gt_of_ne hcurrent with hlt | hgt
  · have hbase : (slot.epoch.val + 2) * slotsPerEpoch ≤ s.slot.epoch.val * slotsPerEpoch :=
      Nat.mul_le_mul_right _ (by omega)
    rw [Nat.add_mul] at hbase
    rw [if_neg (by omega)]
  · have hbase : (s.slot.epoch.val + 2) * slotsPerEpoch ≤ slot.epoch.val * slotsPerEpoch :=
      Nat.mul_le_mul_right _ (by omega)
    rw [Nat.add_mul] at hbase
    have hlen : ptcWindowLen = 3 * slotsPerEpoch := rfl
    rw [if_pos (by omega), Vector.getElem?_eq_none (by omega)]

/-- The two lookups of a payload committee agree, and both fail outside the window. -/
theorem getPtc_eq : s.getPtc slot =
    okOr (s.windowPtc slot) (.operation .payloadAttestationSlotMismatch) := by
  have hspe : 2 ≤ slotsPerEpoch := epochs_in_ring.1
  have hsmall : s.slot.epoch.val + minSeedLookahead < 2 ^ 64 := by
    have hle : s.slot.epoch.val ≤ s.slot.val / 2 := by
      rw [Slot.epoch_val]
      exact Nat.div_le_div_left hspe (by omega)
    have := s.slot.isLt
    unfold minSeedLookahead
    omega
  unfold getPtc windowPtc ptcWindowIndexForSlot
  dsimp only
  by_cases hlt : slot.epoch < s.slot.epoch
  · have hlt' : slot.epoch.val < s.slot.epoch.val := hlt
    rw [if_pos hlt]
    by_cases hprevious : slot.epoch.val + 1 = s.slot.epoch.val
    · rw [ensure_of hprevious, if_pos hprevious]
      rfl
    · rw [ensure_of_not hprevious, if_neg hprevious, if_neg (by omega), if_neg (by omega)]
      rfl
  · have hge : s.slot.epoch.val ≤ slot.epoch.val := not_lt.1 hlt
    rw [if_neg hlt, ensure_of hsmall, if_neg (by omega)]
    by_cases hcurrent : slot.epoch.val = s.slot.epoch.val
    · rw [ensure_of (by omega), if_pos hcurrent, hcurrent, Nat.sub_self, Nat.zero_add, Nat.one_mul]
      rfl
    · rw [if_neg hcurrent]
      by_cases hnext : s.slot.epoch.val + 1 = slot.epoch.val
      · have hle : slot.epoch.val ≤ s.slot.epoch.val + minSeedLookahead := hnext.ge
        rw [ensure_of hle, if_pos hnext, ← hnext, Nat.add_sub_cancel_left]
        rfl
      · rw [ensure_of_not (by unfold minSeedLookahead; omega), if_neg hnext]
        rfl

/-! ## Shifts -/

/-- A block stays in its epoch and keeps both windows. -/
theorem processBlock_moves [Crypto] {block : BeaconBlock} (h : s.processBlock block = .ok s') :
    Shifts slotsPerEpoch s.proposerLookahead s'.proposerLookahead s.slot.epoch.val
        s'.slot.epoch.val ∧
      Shifts slotsPerEpoch s.ptcWindow s'.ptcWindow s.slot.epoch.val s'.slot.epoch.val := by
  have hcalendar := (processBlock_duties h).calendar
  have hslot : s'.slot = s.slot := congrArg CalendarView.slot hcalendar
  rw [hslot]
  exact ⟨.inl ⟨rfl, congrArg CalendarView.proposerLookahead hcalendar⟩,
    .inl ⟨rfl, congrArg CalendarView.ptcWindow hcalendar⟩⟩

/-- A turn of the slot loop moves the windows exactly when it enters a new epoch. -/
theorem advanceSlot_moves [Crypto] (h : s.advanceSlot = .ok s') :
    Shifts slotsPerEpoch s.proposerLookahead s'.proposerLookahead s.slot.epoch.val
        s'.slot.epoch.val ∧
      Shifts slotsPerEpoch s.ptcWindow s'.ptcWindow s.slot.epoch.val s'.slot.epoch.val := by
  have hduties := advanceSlot_duties h
  have hpaid := advanceSlot_payments h
  by_cases hboundary : s'.slot.val % slotsPerEpoch = 0
  · have hepoch := hpaid.epoch_boundary hboundary
    obtain ⟨-, hlookahead, hptc, -⟩ := hduties.boundary hboundary
    exact ⟨.inr ⟨hepoch, hlookahead⟩, .inr ⟨hepoch, hptc⟩⟩
  · have hepoch := hpaid.epoch_inner hboundary
    obtain ⟨-, hlookahead, hptc, -⟩ := hduties.inner hboundary
    exact ⟨.inl ⟨hepoch, hlookahead⟩, .inl ⟨hepoch, hptc⟩⟩

/-- At the end of an epoch a payment moves with its address, and the entries of the epoch that
begins are blank. -/
structure PaymentsMoved (s s' : BeaconState) (slot : Slot) : Prop where
  carried : ∀ i j, s.builderPaymentIndexForSlot slot = some i →
    s'.builderPaymentIndexForSlot slot = some j →
    s'.builderPendingPayments[j]? = s.builderPendingPayments[i]?
  fresh : slot.epoch = s'.slot.epoch → ∀ j, s'.builderPaymentIndexForSlot slot = some j →
    s'.builderPendingPayments[j]? = some .default

theorem advanceSlot_paymentsMoved [Crypto] (h : s.advanceSlot = .ok s')
    (hboundary : s'.slot.val % slotsPerEpoch = 0) : PaymentsMoved s s' slot := by
  have hpaid := advanceSlot_payments h
  have hepoch := hpaid.epoch_boundary hboundary
  obtain ⟨-, -, hshift, -⟩ := hpaid.boundary hboundary
  have hpos := slotsPerEpoch_pos
  have hplace : ∀ j, j < 2 * slotsPerEpoch → s'.builderPendingPayments[j]? =
      some (s.builderPendingPayments[j + slotsPerEpoch]?.getD .default) := by
    intro j hj
    rw [hshift]
    exact getElem?_shiftWindow hj
  constructor
  · intro i j hi hj
    rw [builderPaymentIndexForSlot_eq, windowIndex_eq_some hpos] at hi hj
    have hmul : (s.slot.epoch.val + 1) * slotsPerEpoch =
        s.slot.epoch.val * slotsPerEpoch + slotsPerEpoch := Nat.succ_mul _ _
    rw [hepoch] at hj
    obtain rfl : i = j + slotsPerEpoch := by omega
    have hlt : j + slotsPerEpoch < builderPaymentWindowLen := hi.1
    rw [hplace j hj.1, Vector.getElem?_eq_getElem hlt]
    rfl
  · intro hcurrent j hj
    rw [builderPaymentIndexForSlot_eq, windowIndex_of_current (congrArg Fin.val hcurrent)] at hj
    cases hj
    have hmod := Nat.mod_lt slot.val hpos
    have hlen : builderPaymentWindowLen = 2 * slotsPerEpoch := rfl
    rw [hplace _ (by omega), Vector.getElem?_eq_none (by omega)]
    rfl

end BeaconState

open BeaconState

/-! ## Runs -/

section Runs

variable {s s' : BeaconState} {events : List ChainEvent} {t : Nat}

/-- Along a chain both windows keep the entry of a time that is in them at both ends. -/
theorem Runs.entryAt_eq [Crypto] (h : Runs s events s') (hlo : s'.epochStart ≤ t) :
    (t < s.epochStart + proposerLookaheadLen →
      entryAt s'.proposerLookahead s'.epochStart t = entryAt s.proposerLookahead s.epochStart t) ∧
    (t < s.epochStart + ptcWindowLen →
      entryAt s'.ptcWindow s'.epochStart t = entryAt s.ptcWindow s.epochStart t) := by
  induction h with
  | nil s => exact ⟨fun _ => rfl, fun _ => rfl⟩
  | @cons e es s' head tail ih =>
    obtain ⟨s₀, block, s₁⟩ := e
    have hmoves : Shifts slotsPerEpoch s₀.proposerLookahead s₁.proposerLookahead s₀.slot.epoch.val
          s₁.slot.epoch.val ∧
        Shifts slotsPerEpoch s₀.ptcWindow s₁.ptcWindow s₀.slot.epoch.val s₁.slot.epoch.val := by
      cases block with
      | none => exact advanceSlot_moves head
      | some block => exact processBlock_moves head
    have hafter : s₁.epochStart ≤ s'.epochStart := Nat.mul_le_mul_right _ tail.epoch_le
    have hbefore : s₀.epochStart ≤ s₁.epochStart := by
      refine Nat.mul_le_mul_right _ ?_
      rcases hmoves.1 with ⟨h, -⟩ | ⟨h, -⟩ <;> omega
    obtain ⟨hlookahead, hptc⟩ := ih hlo
    constructor
    · intro hhi
      have hhi : t < s₀.epochStart + proposerLookaheadLen := hhi
      rw [hlookahead (show t < s₁.epochStart + proposerLookaheadLen by omega)]
      exact hmoves.1.entryAt_eq (hafter.trans hlo) hhi
    · intro hhi
      have hhi : t < s₀.epochStart + ptcWindowLen := hhi
      rw [hptc (show t < s₁.epochStart + ptcWindowLen by omega)]
      exact hmoves.2.entryAt_eq (hafter.trans hlo) hhi

/-- A slot keeps its address in the windows of a chain: its proposer, its payload committee and its
payment are found at the place of the slot in every state that tracks it. -/
structure KeepsAddress (s : BeaconState) (events : List ChainEvent) (slot : Slot) : Prop where
  proposer : ∀ a ∈ statesOf s events, ∀ b ∈ statesOf s events,
    (a.slot.epoch.val = slot.epoch.val ∨ a.slot.epoch.val + 1 = slot.epoch.val) →
    (b.slot.epoch.val = slot.epoch.val ∨ b.slot.epoch.val + 1 = slot.epoch.val) →
    ∃ p, a.assignedProposer slot = some p ∧ b.assignedProposer slot = some p
  proposing : ∀ a ∈ statesOf s events, a.slot = slot → ∀ p,
    a.assignedProposer slot = some p → a.getBeaconProposerIndex = .ok p
  ptc : ∀ a ∈ statesOf s events, ∀ b ∈ statesOf s events,
    (slot.epoch.val ≤ a.slot.epoch.val + 1 ∧ a.slot.epoch.val ≤ slot.epoch.val + 1) →
    (slot.epoch.val ≤ b.slot.epoch.val + 1 ∧ b.slot.epoch.val ≤ slot.epoch.val + 1) →
    ∃ committee, a.getPtc slot = .ok committee ∧ b.getPtc slot = .ok committee
  bucket : ∀ a ∈ statesOf s events, ∀ committee, a.getPtc slot = .ok committee ↔
    ∃ i, a.ptcWindowIndexForSlot slot = some i ∧ a.ptcWindow[i]? = some committee
  tracked : ∀ a ∈ statesOf s events, (∃ committee, a.getPtc slot = .ok committee) ↔
    ∃ i, a.ptcWindowIndexForSlot slot = some i
  payments : ∀ e ∈ events, e.block = none → e.after.slot.val % slotsPerEpoch = 0 →
    PaymentsMoved e.before e.after slot

/-- A slot lies within its epoch. -/
theorem Slot.epoch_bounds (slot : Slot) : slot.epoch.val * slotsPerEpoch ≤ slot.val ∧
    slot.val < slot.epoch.val * slotsPerEpoch + slotsPerEpoch := by
  have hdiv := Nat.div_add_mod' slot.val slotsPerEpoch
  have hmod := Nat.mod_lt slot.val slotsPerEpoch_pos
  rw [Slot.epoch_val]
  omega

/-- A slot of the state's epoch or of the next one is in the lookahead. -/
theorem lookahead_bounds {slot : Slot}
    (h : s.slot.epoch.val = slot.epoch.val ∨ s.slot.epoch.val + 1 = slot.epoch.val) :
    s.epochStart ≤ slot.val ∧ slot.val < s.epochStart + proposerLookaheadLen := by
  have hslot := slot.epoch_bounds
  have hlen : proposerLookaheadLen = 2 * slotsPerEpoch := rfl
  unfold epochStart
  rcases h with h | h
  · rw [h]
    omega
  · rw [← h, Nat.succ_mul] at hslot
    omega

/-- A slot within an epoch of the state's is in the window of payload committees, which begins with
the epoch before. -/
theorem ptcWindow_bounds {slot : Slot}
    (h : slot.epoch.val ≤ s.slot.epoch.val + 1 ∧ s.slot.epoch.val ≤ slot.epoch.val + 1) :
    s.epochStart ≤ slot.val + slotsPerEpoch ∧
      slot.val + slotsPerEpoch < s.epochStart + ptcWindowLen := by
  have hslot := slot.epoch_bounds
  have hlen : ptcWindowLen = 3 * slotsPerEpoch := rfl
  have hlow : slot.epoch.val * slotsPerEpoch ≤ (s.slot.epoch.val + 1) * slotsPerEpoch :=
    Nat.mul_le_mul_right _ h.1
  have hhigh : s.slot.epoch.val * slotsPerEpoch ≤ (slot.epoch.val + 1) * slotsPerEpoch :=
    Nat.mul_le_mul_right _ h.2
  rw [Nat.succ_mul] at hlow hhigh
  unfold epochStart
  omega

/-- Both ends of a chain name the same committee for a slot within an epoch of theirs. -/
theorem Runs.getPtc_shared [Crypto] {slot : Slot} (h : Runs s events s')
    (hepoch : slot.epoch.val ≤ s.slot.epoch.val + 1 ∧ s.slot.epoch.val ≤ slot.epoch.val + 1)
    (hepoch' : slot.epoch.val ≤ s'.slot.epoch.val + 1 ∧ s'.slot.epoch.val ≤ slot.epoch.val + 1) :
    ∃ committee, s.getPtc slot = .ok committee ∧ s'.getPtc slot = .ok committee := by
  obtain ⟨hlo, hhi⟩ := ptcWindow_bounds hepoch
  have hsame := (h.entryAt_eq (ptcWindow_bounds hepoch').1).2 hhi
  obtain ⟨committee, hcommittee⟩ := entryAt_isSome s.ptcWindow hlo hhi
  refine ⟨committee, ?_, ?_⟩
  · rw [getPtc_eq, windowPtc_eq, hcommittee, okOr_some]
  · rw [getPtc_eq, windowPtc_eq, hsame, hcommittee, okOr_some]

/-- Every slot keeps its address along a chain of slots and blocks. -/
theorem BeaconState.windows_keep_address [Crypto] (h : Runs s events s') (slot : Slot) :
    KeepsAddress s events slot where
  proposer a ha b hb hepochA hepochB := by
    obtain ⟨hloA, hhiA⟩ := lookahead_bounds hepochA
    obtain ⟨hloB, hhiB⟩ := lookahead_bounds hepochB
    have hsame : b.assignedProposer slot = a.assignedProposer slot := by
      rcases h.connected ha hb with ⟨es, hes⟩ | ⟨es, hes⟩
      · exact (hes.entryAt_eq hloB).1 hhiA
      · exact ((hes.entryAt_eq hloA).1 hhiB).symm
    obtain ⟨p, hp⟩ := entryAt_isSome a.proposerLookahead hloA hhiA
    exact ⟨p, hp, hsame.trans hp⟩
  proposing a _ hslot p hp := by
    subst hslot
    rw [getBeaconProposerIndex_eq, hp, okOr_some]
  ptc a ha b hb hepochA hepochB := by
    rcases h.connected ha hb with ⟨es, hes⟩ | ⟨es, hes⟩
    · exact hes.getPtc_shared hepochA hepochB
    · obtain ⟨committee, hcommitteeB, hcommitteeA⟩ := hes.getPtc_shared hepochB hepochA
      exact ⟨committee, hcommitteeA, hcommitteeB⟩
  bucket a _ committee := by
    rw [getPtc_eq, okOr_eq_ok]
    exact Option.bind_eq_some_iff
  tracked a _ := by
    rw [getPtc_eq]
    constructor
    · rintro ⟨committee, hcommittee⟩
      obtain ⟨i, hi, -⟩ := Option.bind_eq_some_iff.1 (okOr_eq_ok.1 hcommittee)
      exact ⟨i, hi⟩
    · rintro ⟨i, hi⟩
      have hlt := ptcWindowIndexForSlot_lt hi
      have hget : a.ptcWindow[i]? = some a.ptcWindow[i] := Vector.getElem?_eq_getElem hlt
      exact ⟨_, okOr_eq_ok.2 (Option.bind_eq_some_iff.2 ⟨i, hi, hget⟩)⟩
  payments e he hslot hboundary := by
    exact advanceSlot_paymentsMoved ((h.accepted he).advanced hslot) hboundary

end Runs

end Moonglass

namespace Moonglass.Devnet

/-- The first slot of epoch 1, seen from the epoch before and from its own. -/
theorem windows_keep_address_firstEpoch : ∃ events s', Runs (stateAfter genesis) events s' ∧
    events.map (·.block) = firstEpoch ∧ s'.slot = 8 ∧
    KeepsAddress (stateAfter genesis) events 8 := by
  have hcheck : followCheck (fun _ s' => s'.slot = 8) (stateAfter genesis) firstEpoch = true := by
    decide +kernel
  obtain ⟨events, s', hruns, hblocks, hslot⟩ := followCheck_runs hcheck
  exact ⟨events, s', hruns, hblocks, hslot, BeaconState.windows_keep_address hruns 8⟩

end Moonglass.Devnet
