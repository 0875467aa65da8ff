import Moonglass.StateTransition.Runs

/-
  No bid is paid twice. A chain is a list of events, each a turn of the slot loop or an accepted
  block, and every event releases payments to the queue, each for the bid of one slot. The window
  holds only what accepted bids promised (`Booked`), and once the bid of a slot has been paid its
  place is blank for good (`Closed`).
-/

namespace Moonglass

open Lib

variable [Preset] [Crypto]
variable {r : Release} {p p' : BuilderPendingPayment} {w : BuilderPendingWithdrawal}
  {threshold : Gwei}

/-- The block carries a slashing of its own proposer for its own slot. -/
def BeaconBlock.SlashesItself (b : BeaconBlock) : Prop :=
  ∃ x ∈ b.body.proposerSlashings.toList, x.Reports b.slot b.proposerIndex

/-- A payment on its way to the queue, with the slot of the bid that it pays. -/
structure Release where
  slot : Nat
  withdrawal : BuilderPendingWithdrawal

/-- The payments of the older epoch that reach the quorum, with their slots. -/
def BeaconState.quorumReleases (s : BeaconState) (threshold : Gwei) : List Release :=
  ((s.builderPendingPayments.toList.take slotsPerEpoch).zipIdx.filter
    fun e => threshold ≤ e.1.weight).map
      fun e => ⟨s.slot.epoch.val * slotsPerEpoch + e.2 - slotsPerEpoch, e.1.withdrawal⟩

namespace ChainEvent

/-- What the event appends to the queue: a block pays the bid before it, the end of an epoch those
that have a quorum. -/
def releases (e : ChainEvent) : List Release :=
  match e.block with
  | some b => (e.before.released b).map (.mk e.before.latestExecutionPayloadBid.slot.val)
  | none =>
    if (e.before.slot.val + 1) % slotsPerEpoch = 0 then
      match e.before.paymentQuorum with
      | .ok threshold => e.before.quorumReleases threshold
      | .error _ => []
    else []

end ChainEvent

def releasesOf (events : List ChainEvent) : List Release := events.flatMap (·.releases)

variable {e : ChainEvent}

theorem mem_releasesOf_cons {es : List ChainEvent} :
    r ∈ releasesOf (e :: es) ↔ r ∈ e.releases ∨ r ∈ releasesOf es := by
  unfold releasesOf
  rw [List.flatMap_cons, List.mem_append]

namespace BeaconState

variable {s s' : BeaconState} {block : BeaconBlock} {blocks : List BeaconBlock} {σ : Nat}

/-! ## The books -/

/-- The payment `p` of slot `t` is the promise of an accepted bid, and the latest bid's has no
weight yet. -/
def Promised (blocks : List BeaconBlock) (latest : ExecutionPayloadBid) (t : Nat)
    (p : BuilderPendingPayment) : Prop :=
  ∃ b ∈ blocks, b.slot.val = t ∧ 0 < b.bid.value.val ∧ p.withdrawal = b.bid.payment ∧
    (t = latest.slot.val → p.weight.val = 0)

/-- What the window and the latest bid have to do with the blocks of the chain so far. -/
structure Booked (blocks : List BeaconBlock) (s : BeaconState) : Prop where
  fills : Fills s.builderPendingPayments slotsPerEpoch s.slot.epoch.val .default
    (Promised blocks s.latestExecutionPayloadBid)
  latest : blocks = [] ∧ s.latestExecutionPayloadBid.value.val = 0 ∨
    ∃ b ∈ blocks, b.bid = s.latestExecutionPayloadBid
  slot : ∀ b ∈ blocks, b.bid.slot = b.slot
  header : ∀ b ∈ blocks, b.slot.val ≤ s.latestBlockHeader.slot.val
  tip : blocks ≠ [] → s.latestExecutionPayloadBid.slot = s.latestBlockHeader.slot
  past : ∀ b ∈ blocks, b.slot.val ≤ s.slot.val
  distinct : ∀ b ∈ blocks, ∀ b' ∈ blocks, b.slot = b'.slot → b = b'
  signer : ∀ b ∈ blocks, 0 < b.bid.value.val → b.bid.builderIndex ≠ builderIndexSelfBuild

/-- Nothing is owed to a builder: the window and the queue are empty and the latest bid promised
nothing. -/
structure NothingOwed (s : BeaconState) : Prop where
  window : ∀ p ∈ s.builderPendingPayments.toList, p = .default
  queue : s.builderPendingWithdrawals.toList = []
  bid : s.latestExecutionPayloadBid.value.val = 0

omit [Crypto] in
theorem NothingOwed.booked (h : NothingOwed s) : Booked [] s where
  fills _ p hp := .inl (h.window p (Vector.mem_toList_iff.2 (Vector.mem_of_getElem? hp)))
  latest := .inl ⟨rfl, h.bid⟩
  slot _ hb := absurd hb List.not_mem_nil
  header _ hb := absurd hb List.not_mem_nil
  tip hne := absurd rfl hne
  past _ hb := absurd hb List.not_mem_nil
  distinct _ hb := absurd hb List.not_mem_nil
  signer _ hb := absurd hb List.not_mem_nil

omit [Crypto] in
theorem Booked.payment (h : Booked blocks s) (hp : s.paymentOf σ = some p) :
    p = .default ∨ Promised blocks s.latestExecutionPayloadBid σ p :=
  h.fills.windowAt slotsPerEpoch_pos hp

theorem Booked.slotStep (h : Booked blocks s) (hs : s.advanceSlot = .ok s') : Booked blocks s' := by
  have hpaid := advanceSlot_payments hs
  have hheader := (advanceSlot_effect s' hs).sameHeader.slot
  refine ⟨?_, ?_, h.slot, ?_, ?_, ?_, h.distinct, h.signer⟩
  · rw [hpaid.bid]
    by_cases hboundary : s'.slot.val % slotsPerEpoch = 0
    · obtain ⟨_, -, hwindow, -⟩ := hpaid.boundary hboundary
      rw [hwindow, hpaid.epoch_boundary hboundary]
      exact h.fills.shift slotsPerEpoch_pos
    · rw [(hpaid.inner hboundary).1, hpaid.epoch_inner hboundary]
      exact h.fills
  · rw [hpaid.bid]
    exact h.latest
  · rw [hheader]
    exact h.header
  · rw [hpaid.bid, hheader]
    exact h.tip
  · intro b hb
    have := h.past b hb
    have := hpaid.slot
    omega

/-! ## Blocks -/

omit [Crypto] in
theorem Fills.cleared {P : Nat → BuilderPendingPayment → Prop}
    (h : Fills s.builderPendingPayments slotsPerEpoch s.slot.epoch.val .default P) :
    Fills s.clearedPayments slotsPerEpoch s.slot.epoch.val .default P := by
  unfold clearedPayments
  split
  · exact h.set_blank _
  · exact h

omit [Crypto] in
theorem Tends.payment_of {slashing : Prop} (h : Tends slashing s s') {i : Nat} {p' : BuilderPendingPayment}
    (hp' : s'.builderPendingPayments[i]? = some p') :
    ∃ p, s.builderPendingPayments[i]? = some p ∧ Tended slashing (i = s.currentPlace) p p' := by
  have hi : i < builderPaymentWindowLen := (Vector.getElem?_eq_some_iff.1 hp').1
  obtain ⟨p'', hp'', htended⟩ := h.payments i _ (Vector.getElem?_eq_getElem hi)
  rw [hp'] at hp''
  cases hp''
  exact ⟨_, Vector.getElem?_eq_getElem hi, htended⟩

/-- A worthwhile bid is not a proposer's own. -/
theorem BlockPhases.signer (h : BlockPhases s block s') (hvalue : 0 < block.bid.value.val) :
    block.bid.builderIndex ≠ builderIndexSelfBuild := by
  intro hself
  obtain ⟨-, hfunding, -⟩ := processExecutionPayloadBid_eq _ _ h.bid_eq
  unfold validateBidSignerAndFunding at hfunding
  rw [if_pos hself] at hfunding
  obtain ⟨_, hzero, -⟩ := bind_eq_ok.1 hfunding
  have : block.bid.value.val = 0 := ensure_eq_ok.1 hzero
  omega

omit [Crypto] in
/-- An older bid keeps its promise when another block comes. -/
theorem Promised.cons (block : BeaconBlock) {latest : ExecutionPayloadBid} {t : Nat}
    (h : Promised blocks latest t p) (hlater : ∀ b ∈ blocks, b.slot.val < block.bid.slot.val) :
    Promised (block :: blocks) block.bid t p := by
  obtain ⟨b, hb, hslot, hvalue, hp, -⟩ := h
  have hlt := hlater b hb
  exact ⟨b, List.mem_cons_of_mem _ hb, hslot, hvalue, hp, fun heq => by omega⟩

theorem Booked.blockStep (h : Booked blocks s) (hs : s.processBlock block = .ok s') :
    Booked (block :: blocks) s' := by
  have hchain := processBlock_chain block s' hs
  obtain ⟨phases⟩ := processBlock_phases hs
  obtain ⟨hbidSlot, -, -, hrecorded⟩ := phases.bid_payments
  have hslot : block.bid.slot = block.slot := hbidSlot.trans hchain.slot_eq.symm
  have hlater : ∀ b ∈ blocks, b.slot.val < block.slot.val := by
    intro b hb
    have := h.header b hb
    have : s.latestBlockHeader.slot.val < block.slot.val := hchain.header_slot_lt
    omega
  have hfills : Fills phases.bid.builderPendingPayments slotsPerEpoch s.slot.epoch.val .default
      (Promised (block :: blocks) block.bid) := by
    have hsettled : Fills (s.settledPayments block) slotsPerEpoch s.slot.epoch.val .default
        (Promised (block :: blocks) block.bid) := by
      have hold := h.fills.mono fun t p hp => hp.cons block (hslot ▸ hlater)
      unfold settledPayments
      split
      · exact Fills.cleared hold
      · exact hold
    rw [hrecorded]
    unfold recordedPayments
    split
    · exact hsettled
    · rename_i hvalue
      exact hsettled.set s.windowIndex_slot (.inr ⟨block, List.mem_cons_self,
        congrArg Fin.val hchain.slot_eq, Nat.pos_of_ne_zero hvalue, rfl, fun _ => rfl⟩)
  have htends := phases.tends
  have hplace : phases.bid.currentPlace = s.currentPlace := by
    unfold currentPlace
    rw [phases.slots.2.2.2]
  refine ⟨?_, ?_, ?_, ?_, ?_, ?_, ?_, ?_⟩
  · rw [phases.execution.1, hchain.slot]
    intro i p' hp'
    obtain ⟨p, hp, htended⟩ := htends.payment_of hp'
    rcases htended with rfl | ⟨-, rfl⟩ | ⟨hplaced, hpos, hweighed⟩
    · exact hfills i _ hp
    · exact .inl rfl
    · -- a payment that was weighed belongs to an earlier slot
      rcases hfills i p hp with rfl | ⟨t, ht, b, hb, hbt, hvalue, hw, -⟩
      · exact absurd hpos (by decide)
      · refine .inr ⟨t, ht, b, hb, hbt, hvalue, ?_, fun heq => absurd ?_ hplaced⟩
        · rw [hweighed]
          exact hw
        · rw [heq, hbidSlot, s.windowIndex_slot] at ht
          rw [hplace]
          exact (Option.some.inj ht).symm
  · exact .inr ⟨block, List.mem_cons_self, phases.execution.1.symm⟩
  · exact List.forall_mem_cons.2 ⟨hslot, h.slot⟩
  · rw [hchain.header]
    exact List.forall_mem_cons.2 ⟨le_rfl, fun b hb => (hlater b hb).le⟩
  · intro _
    rw [phases.execution.1, hchain.header]
    exact hslot
  · rw [hchain.slot, ← hchain.slot_eq]
    exact List.forall_mem_cons.2 ⟨le_rfl, fun b hb => (hlater b hb).le⟩
  · have hne : ∀ b ∈ blocks, b.slot ≠ block.slot := by
      intro b hb heq
      have := hlater b hb
      rw [heq] at this
      omega
    intro b hb b' hb' heq
    rcases List.mem_cons.1 hb with hfirst | hold
    · rcases List.mem_cons.1 hb' with hfirst' | hold'
      · rw [hfirst, hfirst']
      · exact absurd (heq.symm.trans (congrArg _ hfirst)) (hne b' hold')
    · rcases List.mem_cons.1 hb' with hfirst' | hold'
      · exact absurd (heq.trans (congrArg _ hfirst')) (hne b hold)
      · exact h.distinct b hold b' hold' heq
  · exact List.forall_mem_cons.2 ⟨phases.signer, h.signer⟩

/-! ## Releases -/

omit [Crypto] in
theorem paymentOf_eq_none : s.paymentOf σ = none ↔
    windowIndex slotsPerEpoch s.slot.epoch.val σ = none := by
  unfold paymentOf windowAt
  cases hi : windowIndex slotsPerEpoch s.slot.epoch.val σ with
  | none => exact ⟨fun _ => rfl, fun _ => rfl⟩
  | some i =>
    have hlt : i < builderPaymentWindowLen := ((windowIndex_eq_some slotsPerEpoch_pos).1 hi).1
    rw [Option.bind_some, Vector.getElem?_eq_getElem hlt]
    exact ⟨fun h => (nomatch h), fun h => (nomatch h)⟩

omit [Crypto] in
theorem parentRelease_eq (s : BeaconState) : s.parentRelease =
    match s.paymentOf s.latestExecutionPayloadBid.slot.val with
    | some p => if 0 < p.withdrawal.amount.val then [p.withdrawal] else []
    | none =>
      if 0 < s.latestExecutionPayloadBid.value.val then [s.latestExecutionPayloadBid.payment]
      else [] := by
  unfold parentRelease paymentOf windowAt
  rw [builderPaymentIndexForSlot_eq]
  cases hi : windowIndex slotsPerEpoch s.slot.epoch.val s.latestExecutionPayloadBid.slot.val with
  | none => rfl
  | some i =>
    have hlt : i < builderPaymentWindowLen := ((windowIndex_eq_some slotsPerEpoch_pos).1 hi).1
    dsimp only
    rw [Option.bind_some, Vector.getElem?_eq_getElem hlt]

omit [Crypto] in
theorem mem_parentRelease : w ∈ s.parentRelease ↔
    (s.paymentOf s.latestExecutionPayloadBid.slot.val = none ∧
      0 < s.latestExecutionPayloadBid.value.val ∧ w = s.latestExecutionPayloadBid.payment) ∨
    ∃ p, s.paymentOf s.latestExecutionPayloadBid.slot.val = some p ∧
      0 < p.withdrawal.amount.val ∧ w = p.withdrawal := by
  rw [parentRelease_eq]
  cases s.paymentOf s.latestExecutionPayloadBid.slot.val with
  | none => by_cases hpos : 0 < s.latestExecutionPayloadBid.value.val <;> simp [hpos]
  | some p =>
    constructor
    · intro hw
      dsimp only at hw
      split at hw
      · exact .inr ⟨p, rfl, by assumption, List.mem_singleton.1 hw⟩
      · cases hw
    · rintro (⟨hnone, -⟩ | ⟨p', hp', hpos, hw⟩)
      · cases hnone
      · cases hp'
        dsimp only
        rw [if_pos hpos, hw]
        exact List.mem_singleton_self _

omit [Crypto] in
theorem parentRelease_length (s : BeaconState) : s.parentRelease.length ≤ 1 := by
  rw [parentRelease_eq]
  split
  all_goals split <;> simp

omit [Crypto] in
theorem mem_quorumReleases :
    r ∈ s.quorumReleases threshold ↔ ∃ k p, k < slotsPerEpoch ∧
      s.builderPendingPayments[k]? = some p ∧ threshold ≤ p.weight ∧
      r = ⟨s.slot.epoch.val * slotsPerEpoch + k - slotsPerEpoch, p.withdrawal⟩ := by
  unfold quorumReleases
  simp only [List.mem_map, List.mem_filter, decide_eq_true_eq, Prod.exists,
    List.mem_zipIdx_iff_getElem?, List.getElem?_take, Vector.getElem?_toList]
  constructor
  · rintro ⟨p, k, ⟨hk, hweight⟩, rfl⟩
    split at hk
    · exact ⟨k, p, by assumption, hk, hweight, rfl⟩
    · cases hk
  · rintro ⟨k, p, hk, hp, hweight, rfl⟩
    exact ⟨p, k, ⟨by rw [if_pos hk, hp], hweight⟩, rfl⟩

omit [Preset] [Crypto] in
theorem ne_default_of_weight (hpos : 0 < threshold.val) (hweight : threshold ≤ p.weight) :
    p ≠ .default := by
  rintro rfl
  exact absurd hpos (Nat.not_lt.2 hweight)

omit [Crypto] in
/-- In the books of a chain, the releases at the end of an epoch pay the bids of the epoch before
it that have the weight. -/
theorem Booked.mem_quorumReleases (h : Booked blocks s) (hthreshold : 0 < threshold.val) :
    ⟨σ, w⟩ ∈ s.quorumReleases threshold ↔ σ / slotsPerEpoch + 1 = s.slot.epoch.val ∧
      ∃ p, s.paymentOf σ = some p ∧ threshold ≤ p.weight ∧ p.withdrawal = w := by
  have hspe := slotsPerEpoch_pos
  rw [BeaconState.mem_quorumReleases]
  constructor
  · rintro ⟨k, p, hk, hp, hweight, heq⟩
    rw [Release.mk.injEq] at heq
    -- a payment with weight is not blank, so its place belongs to a slot
    obtain ⟨t, ht, -⟩ := (h.fills k p hp).resolve_left (ne_default_of_weight hthreshold hweight)
    have hplace := ((windowIndex_eq_some hspe).1 ht).2
    have hσ : σ = t := by omega
    refine ⟨?_, p, ?_, hweight, heq.2.symm⟩
    · rw [hσ, ← Nat.add_div_right t hspe, hplace, Nat.mul_comm, Nat.mul_add_div hspe,
        Nat.div_eq_of_lt hk]
      rfl
    · unfold paymentOf windowAt
      rw [hσ, ht, Option.bind_some, hp]
  · rintro ⟨hepoch, p, hp, hweight, rfl⟩
    obtain ⟨k, hk, hp⟩ := Option.bind_eq_some_iff.1 hp
    have hplace := ((windowIndex_eq_some hspe).1 hk).2
    have hdm := Nat.div_add_mod σ slotsPerEpoch
    have hmod := Nat.mod_lt σ hspe
    rw [← hepoch, Nat.add_mul, Nat.mul_comm (σ / slotsPerEpoch)] at hplace
    refine ⟨k, p, by omega, hp, hweight, ?_⟩
    rw [← hepoch, Nat.add_mul, Nat.mul_comm (σ / slotsPerEpoch)]
    congr 1
    omega

/-- A bid that has been paid, or can no longer be: it is not the latest, and its place in the window
is blank or gone. -/
def Closed (s : BeaconState) (slot : Nat) : Prop :=
  slot < s.latestExecutionPayloadBid.slot.val ∧ ∀ p, s.paymentOf slot = some p → p = .default

theorem Closed.slotStep (h : Closed s σ) (hs : s.advanceSlot = .ok s') : Closed s' σ := by
  have hpaid := advanceSlot_payments hs
  refine ⟨hpaid.bid ▸ h.1, fun p hp => ?_⟩
  unfold paymentOf at hp
  by_cases hboundary : s'.slot.val % slotsPerEpoch = 0
  · obtain ⟨_, -, hwindow, -⟩ := hpaid.boundary hboundary
    rw [hwindow, hpaid.epoch_boundary hboundary] at hp
    exact (windowAt_of_shift slotsPerEpoch_pos hp).elim id fun hp => h.2 p hp
  · rw [(hpaid.inner hboundary).1, hpaid.epoch_inner hboundary] at hp
    exact h.2 p hp

omit [Crypto] in
theorem paymentOf_settled
    (hp : windowAt (s.settledPayments block) slotsPerEpoch s.slot.epoch.val σ = some p) :
    p = .default ∨ s.paymentOf σ = some p ∧
      ¬(block.bid.parentBlockHash = s.latestExecutionPayloadBid.blockHash ∧
        σ = s.latestExecutionPayloadBid.slot.val) := by
  unfold settledPayments at hp
  split at hp
  · rename_i hfull
    unfold clearedPayments at hp
    split at hp
    · rename_i i hi
      rw [builderPaymentIndexForSlot_eq] at hi
      rw [windowAt_set slotsPerEpoch_pos epochs_in_window hi] at hp
      split at hp
      · exact .inl (Option.some.inj hp).symm
      · exact .inr ⟨hp, fun h => absurd h.2 (by assumption)⟩
    · rename_i hnone
      rw [builderPaymentIndexForSlot_eq] at hnone
      refine .inr ⟨hp, fun h => ?_⟩
      have := paymentOf_eq_none.2 (h.2 ▸ hnone)
      unfold paymentOf at this
      rw [this] at hp
      cases hp
  · exact .inr ⟨hp, fun h => absurd h.1 (by assumption)⟩

/-- What a block leaves in the window for another slot: a blank, or what was there, perhaps with
more weight. The place of a parent that it counts as full is blank. -/
theorem processBlock_paymentOf (hs : s.processBlock block = .ok s') (hσ : σ ≠ s.slot.val)
    (hp' : s'.paymentOf σ = some p') :
    p' = .default ∨ ∃ p, s.paymentOf σ = some p ∧ p' = { p with weight := p'.weight } ∧
      ¬(block.bid.parentBlockHash = s.latestExecutionPayloadBid.blockHash ∧
        σ = s.latestExecutionPayloadBid.slot.val) ∧ (p' = p ∨ 0 < p.withdrawal.amount.val) := by
  obtain ⟨phases⟩ := processBlock_phases hs
  obtain ⟨-, -, -, hrecorded⟩ := phases.bid_payments
  unfold paymentOf at hp'
  rw [(processBlock_chain block s' hs).slot] at hp'
  obtain ⟨i, hi, hp'⟩ := Option.bind_eq_some_iff.1 hp'
  obtain ⟨p, hp, htended⟩ := phases.tends.payment_of hp'
  have hsettled : windowAt (s.settledPayments block) slotsPerEpoch s.slot.epoch.val σ = some p := by
    have hwindow : windowAt (s.recordedPayments block) slotsPerEpoch s.slot.epoch.val σ =
        some p := by
      unfold windowAt
      rw [hi, Option.bind_some, ← hrecorded, hp]
    unfold recordedPayments at hwindow
    split at hwindow
    · exact hwindow
    · rwa [windowAt_set slotsPerEpoch_pos epochs_in_window s.windowIndex_slot, if_neg hσ] at hwindow
  rcases paymentOf_settled hsettled with rfl | ⟨hold, hnot⟩
  · rcases htended with rfl | ⟨-, rfl⟩ | ⟨-, hpos, -⟩
    · exact .inl rfl
    · exact .inl rfl
    · exact absurd hpos (by decide)
  · rcases htended with rfl | ⟨-, rfl⟩ | ⟨-, hpos, hweighed⟩
    · exact .inr ⟨_, hold, rfl, hnot, .inl rfl⟩
    · exact .inl rfl
    · exact .inr ⟨p, hold, hweighed, hnot, .inr hpos⟩

/-- A block comes after the latest bid of its chain. -/
theorem Booked.slot_lt (h : Booked blocks s) (hne : blocks ≠ [])
    (hs : s.processBlock block = .ok s') :
    s.latestExecutionPayloadBid.slot.val < s.slot.val ∧
      s'.latestExecutionPayloadBid.slot = s.slot := by
  obtain ⟨phases⟩ := processBlock_phases hs
  have hchain := processBlock_chain block s' hs
  refine ⟨?_, ?_⟩
  · rw [h.tip hne, ← hchain.slot_eq]
    exact hchain.header_slot_lt
  · rw [phases.execution.1]
    exact phases.bid_payments.1

theorem Closed.blockStep (h : Closed s σ) (hbooked : Booked blocks s) (hne : blocks ≠ [])
    (hs : s.processBlock block = .ok s') : Closed s' σ := by
  obtain ⟨hlt, hslot⟩ := hbooked.slot_lt hne hs
  have hσ := h.1
  refine ⟨by rw [hslot]; omega, fun p' hp' => ?_⟩
  rcases processBlock_paymentOf hs (by omega) hp' with hblank | ⟨p, hp, -, -, hsame | hpos⟩
  · exact hblank
  · rw [hsame]
    exact h.2 p hp
  · rw [h.2 p hp] at hpos
    exact absurd hpos (by decide)

/-- A child that counts the latest bid as full closes it. -/
theorem closed_of_full (hbooked : Booked blocks s) (hne : blocks ≠ [])
    (hs : s.processBlock block = .ok s')
    (hfull : block.bid.parentBlockHash = s.latestExecutionPayloadBid.blockHash) :
    Closed s' s.latestExecutionPayloadBid.slot.val := by
  obtain ⟨hlt, hslot⟩ := hbooked.slot_lt hne hs
  refine ⟨by rw [hslot]; exact hlt, fun p' hp' => ?_⟩
  rcases processBlock_paymentOf hs (by omega) hp' with hblank | ⟨p, -, -, hnot, -⟩
  · exact hblank
  · exact absurd ⟨hfull, rfl⟩ hnot

omit [Crypto] in
/-- What an accepted bid promised is what the window holds for its slot, if it holds anything. -/
theorem Booked.payment_eq (h : Booked blocks s) (hb : block ∈ blocks)
    (hp : s.paymentOf block.slot.val = some p) (hne : p ≠ .default) :
    p.withdrawal = block.bid.payment ∧
      (s.latestExecutionPayloadBid = block.bid → p.weight.val = 0) := by
  obtain ⟨b, hbmem, hslot, -, hw, hweight⟩ := (h.payment hp).resolve_left hne
  have hsame : b = block := h.distinct b hbmem block hb (Fin.ext hslot)
  rw [hsame] at hw
  refine ⟨hw, fun hlatest => hweight ?_⟩
  rw [hlatest, h.slot block hb]

omit [Preset] [Crypto] in
theorem ne_default_of_payment {bid : ExecutionPayloadBid} (hp : p.withdrawal = bid.payment)
    (hvalue : 0 < bid.value.val) : p ≠ .default := by
  rintro rfl
  have hzero : (0 : Nat) = bid.value.val :=
    congrArg (fun w : BuilderPendingWithdrawal => w.amount.val) hp
  omega

/-- The window holds the payment of the block's bid. -/
def Holds (s : BeaconState) (block : BeaconBlock) : Prop :=
  ∃ p, s.paymentOf block.slot.val = some p ∧ p.withdrawal = block.bid.payment

/-- A block leaves the payment of its bid in the window, unless it slashes its own proposer. -/
theorem holds_processBlock (hs : s.processBlock block = .ok s') (hvalue : 0 < block.bid.value.val) :
    s'.Holds block ↔ ¬block.SlashesItself := by
  have hchain := processBlock_chain block s' hs
  obtain ⟨phases⟩ := processBlock_phases hs
  obtain ⟨p, hp, hcleared, hkept⟩ := phases.fresh_payment hvalue
  rw [← hchain.slot_eq] at hcleared hkept
  have hpayment : s'.paymentOf block.slot.val = some p := by
    unfold paymentOf windowAt
    rw [hchain.slot, hchain.slot_eq, s.windowIndex_slot, Option.bind_some, hp]
  constructor
  · rintro ⟨p', hp', hw⟩ hslashes
    cases hpayment.symm.trans hp'
    exact ne_default_of_payment hw hvalue (hcleared hslashes)
  · intro hnot
    exact ⟨p, hpayment, by rw [hkept hnot]⟩

/-- A slot that leaves a bid in the window leaves its payment as it is. -/
theorem SlotPaid.holds_iff (h : SlotPaid s s') (hpast : block.slot.epoch.val ≤ s.slot.epoch.val)
    (hlast : s'.slot.epoch.val < block.slot.epoch.val + 2) : s'.Holds block ↔ s.Holds block := by
  have hthen : block.slot.epoch.val = block.slot.val / slotsPerEpoch := rfl
  have hpayment : s'.paymentOf block.slot.val = s.paymentOf block.slot.val := by
    unfold paymentOf
    by_cases hboundary : s'.slot.val % slotsPerEpoch = 0
    · have hepoch := h.epoch_boundary hboundary
      obtain ⟨_, -, hwindow, -⟩ := h.boundary hboundary
      rw [hwindow, hepoch]
      exact windowAt_shift slotsPerEpoch_pos (by omega)
    · rw [(h.inner hboundary).1, h.epoch_inner hboundary]
  unfold BeaconState.Holds
  rw [hpayment]

end BeaconState

open BeaconState

namespace ChainEvent

variable {e : ChainEvent} {blocks : List BeaconBlock} {block child : BeaconBlock}

/-- The event ends the epoch after the block's, and the window holds the block's payment with the
weight that is asked for. -/
def QuorumFor (e : ChainEvent) (block : BeaconBlock) : Prop :=
  e.block = none ∧ e.before.slot.val + 1 = (block.slot.epoch.val + 2) * slotsPerEpoch ∧
    ∃ p threshold, e.before.paymentOf block.slot.val = some p ∧
      p.withdrawal = block.bid.payment ∧ e.before.paymentQuorum = .ok threshold ∧
      threshold ≤ p.weight

theorem releases_block (hblock : e.block = some child) : e.releases =
    (e.before.released child).map (.mk e.before.latestExecutionPayloadBid.slot.val) := by
  unfold releases
  rw [hblock]

/-- The releases at the end of an epoch are the payments that have the quorum. -/
theorem mem_releases_slot (hbooked : Booked blocks e.before) (hslot : e.block = none)
    (haccepted : e.Accepted) {σ : Nat} :
    ⟨σ, w⟩ ∈ e.releases ↔ (e.before.slot.val + 1) % slotsPerEpoch = 0 ∧
      σ / slotsPerEpoch + 1 = e.before.slot.epoch.val ∧ ∃ p threshold,
        e.before.paymentQuorum = .ok threshold ∧ 0 < threshold.val ∧
        e.before.paymentOf σ = some p ∧ threshold ≤ p.weight ∧ p.withdrawal = w := by
  have hpaid := advanceSlot_payments (haccepted.advanced hslot)
  unfold releases
  rw [hslot]
  dsimp only
  by_cases hboundary : (e.before.slot.val + 1) % slotsPerEpoch = 0
  · obtain ⟨threshold, hthreshold, -, -⟩ := hpaid.boundary (by rw [hpaid.slot]; exact hboundary)
    have hpos := paymentQuorum_pos threshold hthreshold
    rw [if_pos hboundary, hthreshold, hbooked.mem_quorumReleases hpos]
    constructor
    · rintro ⟨hepoch, p, hp, hweight, hw⟩
      exact ⟨hboundary, hepoch, p, threshold, rfl, hpos, hp, hweight, hw⟩
    · rintro ⟨-, hepoch, p, threshold', hthreshold', -, hp, hweight, hw⟩
      cases hthreshold'
      exact ⟨hepoch, p, hp, hweight, hw⟩
  · rw [if_neg hboundary]
    exact ⟨fun h => absurd h List.not_mem_nil, fun h => absurd h.1 hboundary⟩

/-- What an event releases pays, as promised, an accepted bid of the chain before it. -/
theorem releases_promised (hbooked : Booked blocks e.before) (haccepted : e.Accepted)
    (hr : r ∈ e.releases) :
    ∃ b ∈ blocks, r = ⟨b.slot.val, b.bid.payment⟩ ∧ 0 < b.bid.value.val := by
  cases hblock : e.block with
  | none =>
    obtain ⟨-, -, p, threshold, -, hpos, hp, hweight, hw⟩ :=
      (mem_releases_slot hbooked hblock haccepted).1 hr
    obtain ⟨b, hb, hslot, hvalue, hp, -⟩ :=
      (hbooked.payment hp).resolve_left (ne_default_of_weight hpos hweight)
    refine ⟨b, hb, ?_, hvalue⟩
    rw [hslot, ← hp, hw]
  | some child =>
    rw [releases_block hblock] at hr
    obtain ⟨w, hw, rfl⟩ := List.mem_map.1 hr
    unfold released at hw
    split at hw
    · rcases mem_parentRelease.1 hw with ⟨-, hvalue, rfl⟩ | ⟨p, hp, hpos, rfl⟩
      · obtain ⟨b, hb, hbid⟩ := hbooked.latest.resolve_left fun h => absurd h.2 hvalue.ne'
        exact ⟨b, hb, by rw [← hbid, hbooked.slot b hb], hbid ▸ hvalue⟩
      · have hne : p ≠ .default := by
          rintro rfl
          exact absurd hpos (by decide)
        obtain ⟨b, hb, hslot, hvalue, hp, -⟩ := (hbooked.payment hp).resolve_left hne
        exact ⟨b, hb, by rw [hslot, hp], hvalue⟩
    · cases hw

/-- A bid that an event has paid is closed. -/
theorem closed_of_released (hbooked : Booked blocks e.before) (haccepted : e.Accepted)
    (hr : r ∈ e.releases) : Closed e.after r.slot := by
  obtain ⟨b, hb, hrb, hvalue⟩ := releases_promised hbooked haccepted hr
  have hne : blocks ≠ [] := List.ne_nil_of_mem hb
  cases hblock : e.block with
  | none =>
    obtain ⟨hboundary, hepoch, p, threshold, -, hpos, hp, hweight, hw⟩ :=
      (mem_releases_slot hbooked hblock haccepted).1 hr
    have hpaid := advanceSlot_payments (haccepted.advanced hblock)
    have hheader := hbooked.header b hb
    rw [hrb] at hp hw hepoch ⊢
    dsimp only at hp hw hepoch ⊢
    -- the latest bid has no weight yet, so the one that was paid is an earlier one
    have hold : b.slot.val ≠ e.before.latestExecutionPayloadBid.slot.val := by
      intro heq
      have hne' := ne_default_of_payment hw hvalue
      obtain ⟨_, _, _, _, _, hzero⟩ := (hbooked.payment hp).resolve_left hne'
      have hzero := hzero heq
      have : threshold.val ≤ p.weight.val := hweight
      omega
    rw [← hbooked.tip hne] at hheader
    refine ⟨by rw [hpaid.bid]; omega, fun p' hp' => ?_⟩
    have hgone : e.after.paymentOf b.slot.val = none := by
      rw [paymentOf_eq_none, hpaid.epoch_boundary (by rw [hpaid.slot]; exact hboundary)]
      exact windowIndex_eq_none (by omega)
    rw [hgone] at hp'
    cases hp'
  | some child =>
    rw [releases_block hblock] at hr
    obtain ⟨w, hw, rfl⟩ := List.mem_map.1 hr
    unfold released at hw
    split at hw
    · exact closed_of_full hbooked hne (haccepted.processed hblock) (by assumption)
    · cases hw

/-- A closed bid is not paid again. -/
theorem not_released_of_closed (hbooked : Booked blocks e.before) (haccepted : e.Accepted) {σ : Nat}
    (hclosed : Closed e.before σ) (hr : r ∈ e.releases) : r.slot ≠ σ := by
  rintro rfl
  cases hblock : e.block with
  | none =>
    obtain ⟨-, -, p, threshold, -, hpos, hp, hweight, -⟩ :=
      (mem_releases_slot hbooked hblock haccepted).1 hr
    exact ne_default_of_weight hpos hweight (hclosed.2 p hp)
  | some child =>
    rw [releases_block hblock] at hr
    obtain ⟨w, -, rfl⟩ := List.mem_map.1 hr
    exact absurd hclosed.1 (lt_irrefl _)

/-- The books after an event. -/
theorem booked_after (hbooked : Booked blocks e.before) (haccepted : e.Accepted) :
    Booked (e.block.toList ++ blocks) e.after := by
  cases hblock : e.block with
  | none => exact hbooked.slotStep (haccepted.advanced hblock)
  | some child => exact hbooked.blockStep (haccepted.processed hblock)

theorem closed_after (hbooked : Booked blocks e.before) (hne : blocks ≠ [])
    (haccepted : e.Accepted) {σ : Nat} (hclosed : Closed e.before σ) : Closed e.after σ := by
  cases hblock : e.block with
  | none => exact hclosed.slotStep (haccepted.advanced hblock)
  | some child => exact hclosed.blockStep hbooked hne (haccepted.processed hblock)

omit [Crypto] in
theorem quorumReleases_withdrawals (s : BeaconState) (threshold : Gwei) :
    (s.quorumReleases threshold).map (·.withdrawal) =
      (s.quorumPayments threshold).map (·.withdrawal) := by
  unfold quorumReleases quorumPayments
  generalize hl : s.builderPendingPayments.toList.take slotsPerEpoch = l
  conv_rhs => rw [← List.zipIdx_map_fst 0 l, List.filter_map, List.map_map]
  rw [List.map_map]
  rfl

/-- The releases of an event are what it appends to the queue, from whose head a block also pays. -/
theorem Accepted.queued (haccepted : e.Accepted) : ∃ paid, (e.block = none → paid = []) ∧
    e.before.builderPendingWithdrawals.toList ++ e.releases.map (·.withdrawal) =
      paid ++ e.after.builderPendingWithdrawals.toList := by
  cases hblock : e.block with
  | none =>
    have hpaid := advanceSlot_payments (haccepted.advanced hblock)
    refine ⟨[], fun _ => rfl, ?_⟩
    unfold releases
    rw [hblock, List.nil_append]
    dsimp only
    by_cases hboundary : (e.before.slot.val + 1) % slotsPerEpoch = 0
    · obtain ⟨threshold, hthreshold, -, hqueue⟩ :=
        hpaid.boundary (by rw [hpaid.slot]; exact hboundary)
      rw [if_pos hboundary, hthreshold, hqueue, quorumReleases_withdrawals]
    · rw [if_neg hboundary, (hpaid.inner (by rw [hpaid.slot]; exact hboundary)).2]
      exact List.append_nil _
  | some child =>
    obtain ⟨phases⟩ := processBlock_phases (haccepted.processed hblock)
    obtain ⟨paid, hpaid⟩ := phases.withdrawals_payments.2
    refine ⟨paid, fun h => (nomatch h), ?_⟩
    have hwithdrawals : e.releases.map (·.withdrawal) = e.before.released child := by
      rw [releases_block hblock, List.map_map]
      exact List.map_id _
    rw [hwithdrawals, ← phases.parent_payments.2, ← phases.header_payments.2.1, hpaid,
      ← phases.bid_payments.2.2.1, phases.tends.queue]

theorem releases_nodup (hbooked : Booked blocks e.before) (haccepted : e.Accepted) :
    (e.releases.map (·.slot)).Nodup := by
  cases hblock : e.block with
  | some child =>
    have hlength : (e.before.released child).length ≤ 1 := by
      unfold released
      split
      · exact parentRelease_length _
      · simp
    rw [releases_block hblock]
    match e.before.released child, hlength with
    | [], _ => exact List.nodup_nil
    | [w], _ => exact List.nodup_singleton _
  | none =>
    by_cases hepoch : e.before.slot.epoch.val = 0
    · -- the first epoch of all has no epoch before it
      have hnil : e.releases = [] := by
        refine List.eq_nil_iff_forall_not_mem.2 fun r hr => ?_
        obtain ⟨-, hlast, -⟩ := (mem_releases_slot hbooked hblock haccepted).1 hr
        exact absurd (hlast.trans hepoch) (Nat.succ_ne_zero _)
      rw [hnil]
      exact List.nodup_nil
    · unfold releases
      rw [hblock]
      dsimp only
      split
      · split
        · rename_i threshold _
          have hn : slotsPerEpoch ≤ e.before.slot.epoch.val * slotsPerEpoch :=
            Nat.le_mul_of_pos_left _ (Nat.pos_of_ne_zero hepoch)
          unfold quorumReleases
          generalize e.before.builderPendingPayments.toList.take slotsPerEpoch = l
          have hplaces : ((l.zipIdx.filter fun e => threshold ≤ e.1.weight).map Prod.snd).Nodup :=
            (List.nodup_zipIdx_map_snd l).sublist (List.filter_sublist.map _)
          have hslots := hplaces.map (f := fun k =>
            e.before.slot.epoch.val * slotsPerEpoch + k - slotsPerEpoch) fun k k' h => by
              dsimp only at h
              omega
          rw [List.map_map] at hslots ⊢
          exact hslots
        · exact List.nodup_nil
      · exact List.nodup_nil

end ChainEvent

namespace Runs

variable {s s' : BeaconState} {events : List ChainEvent} {blocks : List BeaconBlock}

theorem booked (h : Runs s events s') (hbooked : Booked blocks s) :
    Booked ((blocksOf events).reverse ++ blocks) s' := by
  induction h generalizing blocks with
  | nil => exact hbooked
  | @cons e es s' head _ ih =>
    have hnext := ih (e.booked_after hbooked head)
    have hlist : (blocksOf (e :: es)).reverse ++ blocks =
        (blocksOf es).reverse ++ (e.block.toList ++ blocks) := by
      unfold blocksOf
      cases hblock : e.block <;> simp [hblock]
    rw [hlist]
    exact hnext

/-- A closed bid is not paid in the rest of the chain. -/
theorem not_released (h : Runs s events s') (hbooked : Booked blocks s) (hne : blocks ≠ [])
    {σ : Nat} (hclosed : Closed s σ) (hr : r ∈ releasesOf events) : r.slot ≠ σ := by
  induction h generalizing blocks with
  | nil => cases hr
  | @cons e es s' head _ ih =>
    rcases mem_releasesOf_cons.1 hr with hr | hr
    · exact e.not_released_of_closed hbooked head hclosed hr
    · exact ih (e.booked_after hbooked head) (by simp [hne])
        (e.closed_after hbooked hne head hclosed) hr

theorem promised (h : Runs s events s') (hbooked : Booked blocks s) (hr : r ∈ releasesOf events) :
    ∃ b, (b ∈ blocks ∨ b ∈ blocksOf events) ∧
      r = ⟨b.slot.val, b.bid.payment⟩ ∧ 0 < b.bid.value.val := by
  induction h generalizing blocks with
  | nil => cases hr
  | @cons e es s' head _ ih =>
    rcases mem_releasesOf_cons.1 hr with hr | hr
    · obtain ⟨b, hb, hr, hvalue⟩ := e.releases_promised hbooked head hr
      exact ⟨b, .inl hb, hr, hvalue⟩
    · obtain ⟨b, hb, hr, hvalue⟩ := ih (e.booked_after hbooked head) hr
      refine ⟨b, ?_, hr, hvalue⟩
      unfold blocksOf
      cases hblock : e.block with
      | none => simpa [hblock, blocksOf] using hb
      | some child =>
        simp only [hblock, Option.toList_some, List.singleton_append, List.mem_cons] at hb
        simp only [List.filterMap_cons, hblock, List.mem_cons]
        tauto

/-- No bid is paid twice. -/
theorem releases_nodup (h : Runs s events s') (hbooked : Booked blocks s) :
    ((releasesOf events).map (·.slot)).Nodup := by
  induction h generalizing blocks with
  | nil => exact List.nodup_nil
  | @cons e es s' head tail ih =>
    unfold releasesOf
    rw [List.flatMap_cons, List.map_append, List.nodup_append]
    refine ⟨e.releases_nodup hbooked head, ih (e.booked_after hbooked head), ?_⟩
    intro slot hslot slot' hslot' heq
    obtain ⟨r, hr, rfl⟩ := List.mem_map.1 hslot
    obtain ⟨r', hr', rfl⟩ := List.mem_map.1 hslot'
    obtain ⟨b, hb, -⟩ := e.releases_promised hbooked head hr
    exact tail.not_released (e.booked_after hbooked head)
      (by simp [List.ne_nil_of_mem hb]) (e.closed_of_released hbooked head hr) hr' heq.symm

end Runs

/-! ## When a bid is paid -/

/-- The first block of a chain, with the state it was applied to. -/
def nextBlock (events : List ChainEvent) : Option (BeaconState × BeaconBlock) :=
  events.findSome? fun e => e.block.map (e.before, ·)

/-- The bid of the block was paid, as it promised. -/
def Paid (events : List ChainEvent) (block : BeaconBlock) : Prop :=
  ⟨block.slot.val, block.bid.payment⟩ ∈ releasesOf events

section

variable {s s' : BeaconState} {events : List ChainEvent} {blocks : List BeaconBlock}
variable {block child : BeaconBlock}

omit [Crypto] in
theorem nextBlock_cons (e : ChainEvent) : nextBlock (e :: events) =
    match e.block with
    | none => nextBlock events
    | some b => some (e.before, b) := by
  unfold nextBlock
  rw [List.findSome?_cons]
  cases e.block <;> rfl

theorem paid_cons : Paid (e :: events) block ↔
    ⟨block.slot.val, block.bid.payment⟩ ∈ e.releases ∨ Paid events block := mem_releasesOf_cons

/-- The end of an epoch pays a bid exactly when it is the epoch after the bid's and the window holds
the payment with its quorum. -/
theorem ChainEvent.pays_iff_quorum (hbooked : Booked blocks e.before)
    (haccepted : e.Accepted) (hslot : e.block = none) :
    ⟨block.slot.val, block.bid.payment⟩ ∈ e.releases ↔ e.QuorumFor block := by
  rw [e.mem_releases_slot hbooked hslot haccepted]
  have hspe := slotsPerEpoch_pos
  have hnow : e.before.slot.epoch.val = e.before.slot.val / slotsPerEpoch := rfl
  have hthen : block.slot.epoch.val = block.slot.val / slotsPerEpoch := rfl
  constructor
  · rintro ⟨hboundary, hepoch, p, threshold, hthreshold, -, hp, hweight, hw⟩
    refine ⟨hslot, ?_, p, threshold, hp, hw, hthreshold, hweight⟩
    have hnext : (e.before.slot.val + 1) / slotsPerEpoch = block.slot.epoch.val + 2 := by
      rw [Nat.succ_div, if_pos (Nat.dvd_of_mod_eq_zero hboundary), ← hnow, ← hepoch, hthen]
    rw [← hnext, Nat.div_mul_cancel (Nat.dvd_of_mod_eq_zero hboundary)]
  · rintro ⟨-, hend, p, threshold, hp, hw, hthreshold, hweight⟩
    have hboundary : (e.before.slot.val + 1) % slotsPerEpoch = 0 := by
      rw [hend]
      exact Nat.mul_mod_left _ _
    have hnext : (e.before.slot.val + 1) / slotsPerEpoch = block.slot.epoch.val + 2 := by
      rw [hend, Nat.mul_div_cancel _ hspe]
    rw [Nat.succ_div, if_pos (Nat.dvd_of_mod_eq_zero hboundary)] at hnext
    exact ⟨hboundary, by omega, p, threshold, hthreshold,
      paymentQuorum_pos threshold hthreshold, hp, hweight, hw⟩

/-- A bid that another has followed is paid by a quorum only. -/
theorem Runs.paid_iff_quorum (h : Runs s events s') (hbooked : Booked blocks s)
    (hne : blocks ≠ []) (hold : block.slot.val < s.latestExecutionPayloadBid.slot.val) :
    Paid events block ↔ ∃ e ∈ events, e.QuorumFor block := by
  induction h generalizing blocks with
  | nil => exact ⟨fun h => (nomatch h), fun ⟨_, h, _⟩ => (nomatch h)⟩
  | @cons e es s' head _ ih =>
    have hbooked' := e.booked_after hbooked head
    have hne' : e.block.toList ++ blocks ≠ [] := by simp [hne]
    rw [paid_cons, List.exists_mem_cons_iff]
    cases hblock : e.block with
    | none =>
      have hpaid := advanceSlot_payments (head.advanced hblock)
      rw [e.pays_iff_quorum hbooked head hblock, ih hbooked' hne' (hpaid.bid ▸ hold)]
    | some child =>
      have hlt := hbooked.slot_lt hne (head.processed hblock)
      have hother : ⟨block.slot.val, block.bid.payment⟩ ∉ e.releases := by
        rw [e.releases_block hblock]
        intro hr
        obtain ⟨_, -, heq⟩ := List.mem_map.1 hr
        rw [Release.mk.injEq] at heq
        omega
      rw [ih hbooked' hne' (by rw [hlt.2]; omega)]
      refine or_congr (iff_of_false hother fun hquorum => ?_) Iff.rfl
      rw [hquorum.1] at hblock
      cases hblock

/-- The payment of the latest bid has no weight yet. -/
theorem ChainEvent.not_quorumFor_latest (hbooked : Booked blocks e.before)
    (hblock : block ∈ blocks) (hlatest : e.before.latestExecutionPayloadBid = block.bid)
    (hvalue : 0 < block.bid.value.val) : ¬e.QuorumFor block := by
  rintro ⟨-, -, p, threshold, hp, hw, hthreshold, hweight⟩
  have hpos := paymentQuorum_pos threshold hthreshold
  have hzero := (hbooked.payment_eq hblock hp (ne_default_of_payment hw hvalue)).2 hlatest
  have : threshold.val ≤ p.weight.val := hweight
  omega

/-- A child that counts the latest bid as full pays it exactly when the window still holds the
payment or no longer reaches back to it. -/
theorem ChainEvent.pays_iff_of_full (hbooked : Booked blocks e.before) (hmem : block ∈ blocks)
    (hlatest : e.before.latestExecutionPayloadBid = block.bid) (hvalue : 0 < block.bid.value.val)
    (hblock : e.block = some child) (hfull : child.bid.parentBlockHash = block.bid.blockHash) :
    ⟨block.slot.val, block.bid.payment⟩ ∈ e.releases ↔
      block.slot.epoch.val + 2 ≤ e.before.slot.epoch.val ∨ e.before.Holds block := by
  have hslot : e.before.latestExecutionPayloadBid.slot.val = block.slot.val := by
    rw [hlatest, hbooked.slot block hmem]
  have hreleases : ⟨block.slot.val, block.bid.payment⟩ ∈ e.releases ↔
      block.bid.payment ∈ e.before.parentRelease := by
    rw [e.releases_block hblock, released, if_pos (hlatest ▸ hfull), hslot]
    exact List.mem_map_of_injective fun _ _ h => (Release.mk.inj h).2
  have haged : e.before.paymentOf block.slot.val = none ↔
      block.slot.epoch.val + 2 ≤ e.before.slot.epoch.val := by
    have hpast : block.slot.epoch.val ≤ e.before.slot.epoch.val :=
      Nat.div_le_div_right (hbooked.past block hmem)
    have hthen : block.slot.epoch.val = block.slot.val / slotsPerEpoch := rfl
    rw [paymentOf_eq_none]
    constructor
    · intro hnone
      by_contra hlt
      obtain ⟨i, hi⟩ := windowIndex_isSome (n := slotsPerEpoch) (e := e.before.slot.epoch.val)
        (t := block.slot.val) (by omega)
      rw [hnone] at hi
      cases hi
    · intro hle
      exact windowIndex_eq_none (by omega)
  rw [hreleases, mem_parentRelease, hslot, haged, hlatest]
  constructor
  · rintro (⟨hage, -⟩ | ⟨p, hp, hpos, hw⟩)
    · exact .inl hage
    · exact .inr ⟨p, hp, hw.symm⟩
  · rintro (hage | ⟨p, hp, hw⟩)
    · exact .inl ⟨hage, hvalue, rfl⟩
    · exact .inr ⟨p, hp, by rw [hw]; exact hvalue, hw.symm⟩

/-- How the bid of a block fares in the chain `later` after it. While the window reaches back to the
block, it holds the payment unless the block slashed its own proposer. A first block that counts it
as full pays it if the window holds it or no longer reaches back; without one it is paid by a quorum
only. -/
structure Fares (later : List ChainEvent) (block : BeaconBlock) (paid : Prop) : Prop where
  held : ∀ t child, nextBlock later = some (t, child) →
    t.slot.epoch.val < block.slot.epoch.val + 2 → (t.Holds block ↔ ¬block.SlashesItself)
  full : ∀ t child, nextBlock later = some (t, child) →
    child.bid.parentBlockHash = block.bid.blockHash →
    (paid ↔ block.slot.epoch.val + 2 ≤ t.slot.epoch.val ∨ ¬block.SlashesItself)
  other : (∀ t child, nextBlock later = some (t, child) →
      child.bid.parentBlockHash ≠ block.bid.blockHash) →
    (paid ↔ ∃ e ∈ later, e.QuorumFor block)

/-- The chain from the state right after the block on. -/
theorem Runs.fares (h : Runs s events s') (hbooked : Booked blocks s) (hmem : block ∈ blocks)
    (hlatest : s.latestExecutionPayloadBid = block.bid) (hvalue : 0 < block.bid.value.val)
    (hheld : s.slot.epoch.val < block.slot.epoch.val + 2 → (s.Holds block ↔ ¬block.SlashesItself)) :
    Fares events block (Paid events block) := by
  induction h generalizing blocks with
  | nil => exact ⟨fun _ _ h => (nomatch h), fun _ _ h => (nomatch h), fun _ =>
      ⟨fun h => (nomatch h), fun ⟨_, h, _⟩ => (nomatch h)⟩⟩
  | @cons e es s' head tail ih =>
    have hbooked' := e.booked_after hbooked head
    have hmem' : block ∈ e.block.toList ++ blocks := List.mem_append_right _ hmem
    have hquorum := e.not_quorumFor_latest hbooked hmem hlatest hvalue
    have hne : blocks ≠ [] := List.ne_nil_of_mem hmem
    cases hblock : e.block with
    | none =>
      have hpaid := advanceSlot_payments (head.advanced hblock)
      have hheld' : e.after.slot.epoch.val < block.slot.epoch.val + 2 →
          (e.after.Holds block ↔ ¬block.SlashesItself) := by
        intro hlast
        have hslot : e.before.slot.epoch.val ≤ e.after.slot.epoch.val :=
          Nat.div_le_div_right (by rw [hpaid.slot]; omega)
        rw [hpaid.holds_iff (Nat.div_le_div_right (hbooked.past block hmem)) hlast]
        exact hheld (by omega)
      have hrest := ih hbooked' hmem' (hpaid.bid.trans hlatest) hheld'
      have hfirst : nextBlock (e :: es) = nextBlock es := by
        rw [nextBlock_cons, hblock]
      have hpays : Paid (e :: es) block ↔ Paid es block := by
        rw [paid_cons, e.pays_iff_quorum hbooked head hblock, or_iff_right hquorum]
      refine ⟨?_, ?_, ?_⟩
      · rw [hfirst]
        exact hrest.held
      · rw [hfirst, hpays]
        exact hrest.full
      · rw [hfirst, hpays, List.exists_mem_cons_iff, or_iff_right hquorum]
        exact hrest.other
    | some child =>
      have hfirst : nextBlock (e :: es) = some (e.before, child) := by
        rw [nextBlock_cons, hblock]
      have hprocessed := head.processed hblock
      have hslot : e.before.latestExecutionPayloadBid.slot.val = block.slot.val := by
        rw [hlatest, hbooked.slot block hmem]
      have hne' : e.block.toList ++ blocks ≠ [] := by simp [hne]
      refine ⟨?_, ?_, ?_⟩
      · intro t child' heq
        rw [hfirst] at heq
        cases heq
        exact hheld
      · intro t child' heq hfull
        rw [hfirst] at heq
        cases heq
        -- the child closes the bid, so nothing after it pays
        have hclosed := closed_of_full hbooked hne hprocessed (hlatest ▸ hfull)
        rw [hslot] at hclosed
        have hlater : ¬Paid es block := fun hpaid =>
          tail.not_released hbooked' hne' hclosed hpaid rfl
        rw [paid_cons, or_iff_left hlater,
          e.pays_iff_of_full hbooked hmem hlatest hvalue hblock hfull]
        by_cases hage : block.slot.epoch.val + 2 ≤ e.before.slot.epoch.val
        · exact iff_of_true (.inl hage) (.inl hage)
        · rw [hheld (Nat.not_le.1 hage)]
      · intro hempty
        have hnot := hempty e.before child hfirst
        have hreleases : e.releases = [] := by
          rw [e.releases_block hblock, released, if_neg (hlatest ▸ hnot), List.map_nil]
        have hlt := hbooked.slot_lt hne hprocessed
        have hold : block.slot.val < e.after.latestExecutionPayloadBid.slot.val := by
          rw [hlt.2, ← hslot]
          exact hlt.1
        rw [paid_cons, hreleases, or_iff_right List.not_mem_nil, List.exists_mem_cons_iff,
          or_iff_right hquorum]
        exact tail.paid_iff_quorum hbooked' hne' hold

/-- What a chain owes to the builders whose bids it accepted. -/
structure PaidOnce (events : List ChainEvent) : Prop where
  /-- The releases are what the events append to the queue. -/
  queued : ∀ e ∈ events, ∃ paid, (e.block = none → paid = []) ∧
    e.before.builderPendingWithdrawals.toList ++ e.releases.map (·.withdrawal) =
      paid ++ e.after.builderPendingWithdrawals.toList
  /-- No bid is paid twice. -/
  once : ((releasesOf events).map (·.slot)).Nodup
  /-- Every release pays the bid of a block, as it was promised: to a builder and not nothing. -/
  promised : ∀ r ∈ releasesOf events, ∃ b ∈ blocksOf events,
    r = ⟨b.slot.val, b.bid.payment⟩ ∧ 0 < b.bid.value.val ∧
      b.bid.builderIndex ≠ builderIndexSelfBuild
  fares : ∀ earlier e later block, events = earlier ++ e :: later → e.block = some block →
    0 < block.bid.value.val → Fares later block (Paid events block)

/-- From a state that owes nothing to builders, every accepted bid is paid at most once, and by the
fate of its window entry and its child exactly once or not at all. -/
theorem BeaconState.bids_paid_once (hstart : NothingOwed s) (h : Runs s events s') :
    PaidOnce events := by
  have hbooked := hstart.booked
  have hall := h.booked hbooked
  refine ⟨fun e he => (h.accepted he).queued, h.releases_nodup hbooked, ?_, ?_⟩
  · intro r hr
    obtain ⟨b, hb, hrb, hvalue⟩ := h.promised hbooked hr
    have hb : b ∈ blocksOf events := hb.resolve_left List.not_mem_nil
    exact ⟨b, hb, hrb, hvalue, hall.signer b (by simp [hb]) hvalue⟩
  · rintro earlier e later block rfl hblock hvalue
    obtain ⟨m, hearlier, hrest⟩ := h.split
    cases hrest with
    | cons head tail =>
      have hbefore := hearlier.booked hbooked
      have hafter := e.booked_after hbefore head
      have hmem : block ∈ e.block.toList ++ ((blocksOf earlier).reverse ++ []) := by
        rw [hblock]
        exact List.mem_cons_self
      have hprocessed := head.processed hblock
      have hlatest : e.after.latestExecutionPayloadBid = block.bid := by
        obtain ⟨phases⟩ := processBlock_phases hprocessed
        exact phases.execution.1
      have hchain := processBlock_chain block e.after hprocessed
      -- what was paid before the block, or by it, pays bids of earlier slots
      have hlater : ∀ b ∈ (blocksOf earlier).reverse ++ [], b.slot.val ≠ block.slot.val := by
        intro b hb
        have := hbefore.header b hb
        have : e.before.latestBlockHeader.slot.val < block.slot.val := hchain.header_slot_lt
        omega
      have hnone : ∀ w, ⟨block.slot.val, w⟩ ∉ releasesOf earlier ++ e.releases := by
        intro w hw
        rcases List.mem_append.1 hw with hw | hw
        · obtain ⟨b, hb, heq, -⟩ := hearlier.promised hbooked hw
          have hb : b ∈ blocksOf earlier := hb.resolve_left List.not_mem_nil
          exact hlater b (by simp [hb]) (congrArg Release.slot heq).symm
        · obtain ⟨b, hb, heq, -⟩ := e.releases_promised hbefore head hw
          exact hlater b hb (congrArg Release.slot heq).symm
      have hpaid : Paid (earlier ++ e :: later) block ↔ Paid later block := by
        unfold Paid releasesOf
        rw [List.flatMap_append, List.flatMap_cons, ← List.append_assoc, List.mem_append]
        exact or_iff_right (hnone _)
      rw [hpaid]
      exact tail.fares hafter hmem hlatest hvalue fun _ => holds_processBlock hprocessed hvalue

end

end Moonglass

namespace Moonglass.Devnet

open Lib

theorem market_nothingOwed : market.NothingOwed where
  window p hp := by
    have hp : p ∈ (Vector.replicate builderPaymentWindowLen BuilderPendingPayment.default).toList :=
      hp
    rw [Vector.toList_replicate] at hp
    exact List.eq_of_mem_replicate hp
  queue := rfl
  bid := rfl

/-- The bid of a builder, paid by the next block. -/
theorem bids_paid_once_bidBlock : ∃ events s', market.NothingOwed ∧ Runs market events s' ∧
    events.map (·.block) = [none, some bidBlock, none, some (childOf bidBlock)] ∧
    PaidOnce events := by
  obtain ⟨events, hevents⟩ := exists_ok_of_isOk (show (follow market
    [none, some bidBlock, none, some (childOf bidBlock)]).isOk = true by decide +kernel)
  obtain ⟨⟨s', hruns⟩, hblocks⟩ := follow_runs hevents
  exact ⟨events, s', market_nothingOwed, hruns, hblocks,
    BeaconState.bids_paid_once market_nothingOwed hruns⟩

/-- The slashing clears the payment that the block has just recorded, so its child, which counts it
as full, pays nothing. -/
theorem bid_unpaid_slashedBlock : ∃ events s' earlier e later t, market.NothingOwed ∧
    Runs market events s' ∧ events = earlier ++ e :: later ∧ e.block = some slashedBlock ∧
    0 < slashedBlock.bid.value.val ∧ nextBlock later = some (t, childOf slashedBlock) ∧
    (childOf slashedBlock).bid.parentBlockHash = slashedBlock.bid.blockHash ∧
    releasesOf events = [] := by
  have hcheck : followCheck (fun events _ => (releasesOf events).length = 0) market
      [none, some slashedBlock, none, some (childOf slashedBlock)] = true := by decide +kernel
  obtain ⟨events, s', hruns, hblocks, hnone⟩ := followCheck_runs hcheck
  obtain ⟨e₁, _, rfl, -, hblocks⟩ := List.map_eq_cons_iff.1 hblocks
  obtain ⟨e₂, _, rfl, h₂, hblocks⟩ := List.map_eq_cons_iff.1 hblocks
  obtain ⟨e₃, _, rfl, h₃, hblocks⟩ := List.map_eq_cons_iff.1 hblocks
  obtain ⟨e₄, _, rfl, h₄, hblocks⟩ := List.map_eq_cons_iff.1 hblocks
  obtain rfl := List.map_eq_nil_iff.1 hblocks
  refine ⟨_, s', [e₁], e₂, [e₃, e₄], e₄.before, market_nothingOwed, hruns, rfl, h₂, by decide,
    ?_, rfl, List.eq_nil_of_length_eq_zero hnone⟩
  simp [nextBlock, h₃, h₄]

end Moonglass.Devnet
