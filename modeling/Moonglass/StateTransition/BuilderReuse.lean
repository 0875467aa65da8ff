import Moonglass.StateTransition.BuilderExit

/-
  Places in the builder registry are reused. A new builder takes the place of one that has left and
  has no balance. A builder always has more than it owes, since a bid leaves it a minimum; the only
  way to take everything from it is the sweep, and a payload sweeps builders only when its queue
  phase has emptied the queue. So nobody who stands at zero is owed for, and the place is clean.
-/

namespace Moonglass

open Lib List

variable [Preset] [Crypto]
variable {requests : ExecutionRequests} {request : BuilderDepositRequest} {t : BeaconState}

namespace BeaconState

variable {s s' : BeaconState} {block : BeaconBlock} {blocks : List BeaconBlock}
variable {index : BuilderIndex} {n : Nat}

/-! ## The parent phase -/

/-- What the window holds of a builder. -/
def windowed (s : BeaconState) (index : BuilderIndex) : Nat :=
  tally (BuilderPendingPayment.due index) s.builderPendingPayments.toList

/-- Every builder has more than it owes. One that has left owes queued entries only: it has no
payment in the window, and the latest bid is not its own. -/
structure Reserved (s : BeaconState) : Prop where
  above : ∀ index, 0 < s.obligations index → ∃ b, s.builders.get? index.val = some b ∧
    s.obligations index < b.balance.val
  left : ∀ (index : BuilderIndex) b, s.builders.get? index.val = some b →
    b.withdrawableEpoch ≠ farFutureEpoch →
      s.windowed index = 0 ∧ s.latestExecutionPayloadBid.payment.due index = 0

/-- The same within a block, between the settlement of the parent's bid and the block's own. -/
structure Reserving (s : BeaconState) : Prop where
  above : ∀ index, 0 < s.pending index → ∃ b, s.builders.get? index.val = some b ∧
    s.pending index < b.balance.val
  left : ∀ (index : BuilderIndex) b, s.builders.get? index.val = some b →
    b.withdrawableEpoch ≠ farFutureEpoch → s.windowed index = 0

theorem ParentApplied.above (h : ParentApplied s requests s')
    (hs : ∃ b, s.builders.get? index.val = some b ∧ n < b.balance.val) :
    ∃ b, s'.builders.get? index.val = some b ∧ n < b.balance.val := by
  obtain ⟨b, hb, hn⟩ := hs
  obtain ⟨o, o', hb', hdeposited, hexits⟩ := h.record index
  rw [hb] at hdeposited
  cases hdeposited with
  | kept _ balance _ =>
    cases hexits with
    | kept => exact ⟨_, hb', hn.trans_le balance⟩
    | left _ _ _ => exact ⟨_, hb', hn.trans_le balance⟩
  | replaced _ balance _ _ => omega

omit [Preset] [Crypto] in
/-- Who has left after deposits had left before them, with no more than it has now. -/
theorem DepositedAt.left {o : Option Builder} {b' : Builder} (h : DepositedAt o (some b'))
    (hleft : b'.withdrawableEpoch ≠ farFutureEpoch) :
    ∃ b, o = some b ∧ b.withdrawableEpoch ≠ farFutureEpoch ∧ b.balance.val ≤ b'.balance.val := by
  cases h with
  | kept _ balance exited => exact ⟨_, rfl, fun h => hleft (exited.2 h), balance⟩
  | replaced _ _ _ fresh => exact absurd fresh hleft
  | added fresh => exact absurd fresh hleft

theorem ParentApplied.left (h : ParentApplied s requests s') {b' : Builder}
    (hb' : s'.builders.get? index.val = some b') (hleft : b'.withdrawableEpoch ≠ farFutureEpoch) :
    (∃ b, s.builders.get? index.val = some b ∧ b.withdrawableEpoch ≠ farFutureEpoch) ∨
      s.pending index = 0 := by
  obtain ⟨o, o', ho', hdeposited, hexits⟩ := h.record index
  obtain rfl := hb'.symm.trans ho'
  cases hexits with
  | kept =>
    obtain ⟨b, hb, hgone, -⟩ := hdeposited.left hleft
    exact .inl ⟨b, hb, hgone⟩
  | left _ unowed _ => exact .inr unowed

theorem Reserved.parent (h : Reserved s) (hbooked : Booked blocks s)
    (phases : BlockPhases s block s') : Reserving phases.parent := by
  rcases processParentExecutionPayload_cases phases.parent_eq with ⟨-, hsame, -⟩ | ⟨-, happly⟩
  · rw [hsame]
    refine ⟨fun index hpos => ?_, fun index b hb hleft => (h.left index b hb hleft).1⟩
    have hle := hbooked.pending_le index
    obtain ⟨b, hb, hlt⟩ := h.above index (hpos.trans_le hle)
    exact ⟨b, hb, hle.trans_lt hlt⟩
  · obtain ⟨applied⟩ := applyParentExecutionPayload_parts _ _ happly
    refine ⟨fun index hpos => ?_, fun index b hb hleft => ?_⟩
    · have hle := hbooked.pending_parent_le phases index
      obtain ⟨b, hb, hlt⟩ := h.above index (hpos.trans_le hle)
      exact applied.above ⟨b, hb, hle.trans_lt hlt⟩
    · have hwindow : phases.parent.windowed index ≤ s.windowed index := by
        unfold windowed
        rw [applied.payments.1]
        exact s.clearedPayments_le index
      have hzero : s.windowed index = 0 := by
        rcases applied.left hb hleft with ⟨b₀, hb₀, hleft₀⟩ | hzero
        · exact (h.left index b₀ hb₀ hleft₀).1
        · unfold windowed
          unfold BeaconState.pending at hzero
          omega
      omega

theorem Reserved.header (h : Reserved s) (hbooked : Booked blocks s)
    (phases : BlockPhases s block s') : Reserving phases.header := by
  have hparent := h.parent hbooked phases
  obtain ⟨hwindow, -, hbuilders⟩ := phases.header_payments
  refine ⟨fun index hpos => ?_, fun index b hb hleft => ?_⟩
  · rw [phases.header_pending] at hpos ⊢
    rw [hbuilders]
    exact hparent.above index hpos
  · unfold windowed
    rw [hwindow]
    exact hparent.left index b (hbuilders ▸ hb) hleft

/-! ## The withdrawal phase -/

variable {e : ExpectedWithdrawals}

omit [Crypto] in
theorem Collected.paid_eq (h : Collected s e) :
    h.paid = s.builderPendingWithdrawals.toList.take e.processedBuilderWithdrawalsCount.val := by
  rw [h.paid_count]
  exact prefix_iff_eq_take.1 h.paid_first

omit [Crypto] in
/-- A payload that sweeps a builder has emptied the queue. -/
theorem Collected.swept_drains (h : Collected s e) (he : s.getExpectedWithdrawals = .ok e)
    (hindex : index.val < builderIndexFlag) (hswept : 0 < withdrawnFrom index.flagged h.builders) :
    h.paid = s.builderPendingWithdrawals.toList := by
  obtain ⟨h₀, hcases⟩ := getExpectedWithdrawals_collected e he
  have hsame : h₀.paid = h.paid := h₀.paid_eq.trans h.paid_eq.symm
  have htaken := (h₀.taken_eq hindex).symm.trans (h.taken_eq hindex)
  rw [hsame] at htaken
  rcases hcases with hnone | hall
  · rw [hnone, withdrawnFrom_nil] at htaken
    omega
  · rw [← hsame]
    exact h₀.paid_first.eq_of_length hall

omit [Crypto] in
theorem Reserving.withdrawals (h : Reserving s) (run : WithdrawalsRun s s') : Reserving s' := by
  have hwindow : ∀ index, s'.windowed index = s.windowed index := by
    intro index
    unfold windowed
    rw [run.window]
  refine ⟨fun index hpos => ?_, fun index b' hb' hleft => ?_⟩
  · have hpending := run.pending_eq index
    obtain ⟨b, hb, hlt⟩ := h.above index (by omega)
    have hindex := builder_lt_flag hb
    have htaken := run.collected.taken_eq hindex
    by_cases hswept : 0 < withdrawnFrom index.flagged run.collected.builders
    · -- the sweep takes everything, but then the queue is empty and the window was
      have hdrained := run.collected.swept_drains run.expected_eq hindex hswept
      have hleft : b.withdrawableEpoch ≠ farFutureEpoch := by
        intro hfar
        have := run.collected.swept_taken hb
        rw [hfar, if_neg (not_farFuture_le _)] at this
        omega
      have hempty := h.left index b hb hleft
      have hqueue := run.payouts
      rw [hdrained] at hqueue
      have hqueue : s'.builderPendingWithdrawals.toList = [] := self_eq_append_right.1 hqueue
      have hzero := hwindow index
      unfold BeaconState.pending at hpos
      unfold windowed at hempty hzero
      rw [hqueue, tally_nil] at hpos
      omega
    · refine ⟨_, run.record hb, ?_⟩
      dsimp only
      rw [Word.satSub_val]
      omega
  · rw [hwindow]
    cases hb : s.builders.get? index.val with
    | none =>
      have hindex : index.val < builderIndexFlag := builder_lt_flag hb'
      have hdebited := run.debited.builders index hindex
      rw [hb, ← run.builders, hb'] at hdebited
      cases hdebited
    | some b =>
      have heq := (run.record hb).symm.trans hb'
      cases heq
      exact h.left index b hb hleft

/-! ## Blocks and slots -/

theorem Reserved.blockStep (h : Reserved s) (hbooked : Booked blocks s)
    (hs : s.processBlock block = .ok s') : Reserved s' := by
  obtain ⟨phases⟩ := processBlock_phases hs
  have hwithdrawals : Reserving phases.withdrawals :=
    phases.withdrawals_inv Reserving.withdrawals (h.header hbooked phases)
  have hbuilders := phases.builders_after
  refine ⟨fun index hpos => ?_, fun index b hb hleft => ?_⟩
  · have hle := phases.obligations_le index
    rw [hbuilders]
    by_cases hdue : block.bid.payment.due index = 0
    · rw [hdue, Nat.add_zero] at hle
      obtain ⟨b, hb, hlt⟩ := hwithdrawals.above index (hpos.trans_le hle)
      exact ⟨b, hb, hle.trans_lt hlt⟩
    · -- the bid is its own, and leaves it a minimum
      have hown : block.bid.builderIndex = index := by
        by_contra hother
        exact hdue (if_neg hother)
      have hvalue : block.bid.payment.due index = block.bid.value.val := if_pos hown
      obtain ⟨b, hb, -, hreserve⟩ := phases.bid_reserve (phases.signer (by omega))
      rw [hown] at hb hreserve
      have hmin : 0 < minDepositAmount := by decide
      exact ⟨b, hb, by omega⟩
  · rw [hbuilders] at hb
    have hbid : block.bid.payment.due index = 0 := by
      refine if_neg fun hown => ?_
      have hown : block.bid.builderIndex = index := hown
      obtain ⟨b', hb', hfar, -⟩ := phases.bid_funded (hown ▸ builderIndex_ne_self hb)
      rw [hown, hb] at hb'
      cases hb'
      exact hleft hfar
    refine ⟨?_, by rw [phases.execution.1]; exact hbid⟩
    have hwindow := (hbooked.blockStep hs).window_le index
    have hcleared := phases.cleared_le index
    have hempty := hwithdrawals.left index b hb hleft
    rw [phases.execution.1, hbid] at hwindow
    unfold windowed at hempty ⊢
    omega

theorem SlotPaid.windowed_le (h : SlotPaid s s') (index : BuilderIndex) :
    s'.windowed index ≤ s.windowed index := by
  unfold windowed
  by_cases hboundary : s'.slot.val % slotsPerEpoch = 0
  · obtain ⟨_, -, hwindow, -⟩ := h.boundary hboundary
    have hwhole := tally_take_add_drop (f := BuilderPendingPayment.due index)
      s.builderPendingPayments.toList slotsPerEpoch
    have hshift : tally (BuilderPendingPayment.due index) s'.builderPendingPayments.toList ≤
        tally (BuilderPendingPayment.due index)
          (s.builderPendingPayments.toList.drop slotsPerEpoch) := by
      refine tally_le_tally fun i => ?_
      rw [hwindow, tallyAt_shiftWindow (BuilderPendingPayment.due_default index), tallyAt_drop]
    omega
  · rw [(h.inner hboundary).1]

theorem Reserved.slotStep (h : Reserved s) (hbooked : Booked blocks s)
    (hs : s.advanceSlot = .ok s') : Reserved s' := by
  have hpaid := advanceSlot_payments hs
  refine ⟨fun index hpos => ?_, fun index b hb hleft => ?_⟩
  · have hle := hpaid.obligations_le hbooked index
    obtain ⟨b, hb, hlt⟩ := h.above index (hpos.trans_le hle)
    exact ⟨b, hpaid.builders ▸ hb, hle.trans_lt hlt⟩
  · obtain ⟨hempty, hbid⟩ := h.left index b (hpaid.builders ▸ hb) hleft
    have := hpaid.windowed_le index
    rw [hpaid.bid]
    exact ⟨by omega, hbid⟩

omit [Crypto] in
theorem NothingOwed.reserved (h : NothingOwed s) : Reserved s :=
  ⟨fun index hpos => absurd (h.obligations index) hpos.ne',
    fun index _ _ _ => ⟨h.windowed index, h.bid_due index⟩⟩

/-! ## Registration -/

/-- In `t` the block's builder deposits come to `request`, and it registers a builder. -/
structure Registers (s : BeaconState) (block : BeaconBlock) (request : BuilderDepositRequest)
    (t : BeaconState) : Prop where
  full : block.bid.parentBlockHash = s.latestExecutionPayloadBid.blockHash
  reached : ∃ start done rest,
    s.beforeBuilderDeposits block.body.parentExecutionRequests = .ok start ∧
    block.body.parentExecutionRequests.builderDeposits.toList = done ++ request :: rest ∧
    done.foldlM processBuilderDepositRequest start = .ok t
  unknown : t.builderIndex request.pubkey = none
  signed : isValidBuilderDepositSignature request = true

/-- An accepted block comes to the request in `t`, and goes on with the deposits behind it. -/
theorem Registers.applied (h : s.Registers block request t) (phases : BlockPhases s block s') :
    ∃ applied : ParentApplied s block.body.parentExecutionRequests phases.parent, ∃ done rest t',
      block.body.parentExecutionRequests.builderDeposits.toList = done ++ request :: rest ∧
      done.foldlM processBuilderDepositRequest applied.validated = .ok t ∧
      t.processBuilderDepositRequest request = .ok t' ∧
      rest.foldlM processBuilderDepositRequest t' = .ok applied.deposited := by
  obtain ⟨applied⟩ := applyParentExecutionPayload_parts _ _ (phases.parentDecision.full h.full).1
  obtain ⟨start, done, rest, hstart, hsplit, hdone⟩ := h.reached
  cases hstart.symm.trans applied.validated_eq
  have hdeposited := applied.deposited_eq
  rw [hsplit, foldlM_append, hdone, ok_bind, foldlM_cons] at hdeposited
  obtain ⟨t', ht', hrest⟩ := bind_eq_ok.1 hdeposited
  exact ⟨applied, done, rest, t', hsplit, hdone, ht', hrest⟩

/-- A builder that has left by the time of a registration had left before the block. -/
theorem Registers.left (h : s.Registers block request t) {b : Builder}
    (hb : t.builders.get? index.val = some b) (hleft : b.withdrawableEpoch ≠ farFutureEpoch) :
    ∃ b₀, s.builders.get? index.val = some b₀ ∧ b₀.withdrawableEpoch ≠ farFutureEpoch ∧
      b₀.balance.val ≤ b.balance.val := by
  obtain ⟨start, done, rest, hstart, -, hdone⟩ := h.reached
  have hbuilders : start.builders = s.builders :=
    congrArg PayloadView.builders (beforeBuilderDeposits_untouched _ _ hstart).payload
  have hrecord : DepositedAt (start.builders.get? index.val) (t.builders.get? index.val) :=
    processBuilderDepositRequests_record index _ hdone
  rw [hb, hbuilders] at hrecord
  exact hrecord.left hleft

theorem Registers.payments (h : s.Registers block request t) :
    t.builderPendingPayments = s.builderPendingPayments ∧
      t.builderPendingWithdrawals = s.builderPendingWithdrawals ∧
      t.latestExecutionPayloadBid = s.latestExecutionPayloadBid := by
  obtain ⟨start, done, rest, hstart, -, hdone⟩ := h.reached
  have hview := (beforeBuilderDeposits_untouched _ _ hstart).payload
  have ht : t = { start with builders := t.builders } :=
    foldlM_builders (fun r _ => processBuilderDepositRequest_eq r) _ hdone
  rw [ht]
  exact ⟨congrArg PayloadView.builderPendingPayments hview,
    congrArg PayloadView.builderPendingWithdrawals hview,
    congrArg PayloadView.latestExecutionPayloadBid hview⟩

end BeaconState

open BeaconState

section

variable {s s' : BeaconState} {events : List ChainEvent} {blocks : List BeaconBlock}

theorem Runs.reserved (h : Runs s events s') (hbooked : Booked blocks s) (hs : Reserved s) :
    Reserved s' :=
  h.booked_inv hbooked hs (fun hbooked hs => hs.slotStep hbooked)
    fun _ _ _ _ hbooked hs => hs.blockStep hbooked

/-- When a new builder takes a place in the registry, no entry of the queue or the window names the
place, and the bid that the block settles is not of the builder that held it. -/
theorem BeaconState.reused_place_unnamed (hstart : NothingOwed s) (h : Runs s events s')
    {block : BeaconBlock} {request : BuilderDepositRequest} {t : BeaconState}
    {index : BuilderIndex} (hregisters : s'.Registers block request t)
    (hplace : t.getIndexForNewBuilder = index.val) (hold : index.val < t.builders.length) :
    t.Unnamed index ∧ t.latestExecutionPayloadBid.payment.due index = 0 := by
  have hbooked := h.booked hstart.booked
  have hreserved := h.reserved hstart.booked hstart.reserved
  have hqueue : PositiveQueue s' := by
    refine h.positiveQueue hstart.booked ?_
    unfold PositiveQueue
    rw [hstart.queue]
    exact fun w hw => absurd hw not_mem_nil
  -- who holds the place has left and has nothing, before the block as well
  obtain ⟨b, hb⟩ : ∃ b, t.builders.get? index.val = some b := ⟨_, getElem?_eq_getElem hold⟩
  obtain ⟨hgone, hzero⟩ := getIndexForNewBuilder_spec hplace hb
  have hleft : b.withdrawableEpoch ≠ farFutureEpoch := by
    intro hfar
    exact not_farFuture_le _ (hfar ▸ hgone)
  obtain ⟨b₀, hb₀, hleft₀, hle⟩ := hregisters.left hb hleft
  have hpending : s'.pending index = 0 := by
    by_contra hne
    have hpos := (Nat.pos_of_ne_zero hne).trans_le (hbooked.pending_le index)
    obtain ⟨b₁, hb₁, hlt⟩ := hreserved.above index hpos
    rw [hb₀] at hb₁
    cases hb₁
    omega
  have hunnamed := hbooked.unnamed hqueue hpending
  obtain ⟨hwindow, hqueued, hbid⟩ := hregisters.payments
  refine ⟨⟨?_, ?_⟩, ?_⟩
  · rw [hqueued]
    exact hunnamed.queue
  · rw [hwindow]
    exact hunnamed.window
  · rw [hbid]
    exact (hreserved.left index b₀ hb₀ hleft₀).2

end

end Moonglass

namespace Moonglass.Devnet

/-- A builder nobody has seen. -/
def newcomer : BuilderDepositRequest :=
  ⟨(zeros 48).set 0 9 zero_lt_48, zeros 32, 50000000000, zeros 96⟩

/-- The block whose payload pays out the balance of builder 0. -/
def sweeping : BeaconBlock := fullChild 41 leaving

/-- A block on it that registers a builder. -/
def registering : BeaconBlock :=
  requesting { noRequests with builderDeposits := ⟨[newcomer], by decide⟩ } (fullChild 42 sweeping)

def sweepSteps : List (Option BeaconBlock) :=
  [none, some block25, none, some leaving] ++ List.replicate 15 none ++ [some sweeping, none]

/-- The newcomer takes the place of builder 0, which has left and been paid out. -/
theorem reused_place_unnamed_registering : ∃ events s', market.NothingOwed ∧
    Runs market events s' ∧ s'.Registers registering newcomer s' ∧
    s'.getIndexForNewBuilder = (0 : BuilderIndex).val ∧
    (0 : BuilderIndex).val < s'.builders.length ∧ (s'.processBlock registering).isOk = true ∧
    s'.Unnamed 0 ∧ s'.latestExecutionPayloadBid.payment.due 0 = 0 := by
  have hcheck : followCheck (fun _ s =>
      (decide (s.latestExecutionPayloadBid.blockHash = sweeping.bid.blockHash) &&
        (s.builderIndex newcomer.pubkey).isNone && decide (s.getIndexForNewBuilder = 0) &&
        decide (0 < s.builders.length) && (s.processBlock registering).isOk) = true) market
      sweepSteps = true := by decide +kernel
  obtain ⟨events, s', hruns, -, hcheck⟩ := followCheck_runs hcheck
  simp only [Bool.and_eq_true, decide_eq_true_eq, Option.isNone_iff_eq_none] at hcheck
  obtain ⟨⟨⟨⟨hhash, hunknown⟩, hplace⟩, hold⟩, haccepted⟩ := hcheck
  have hregisters : s'.Registers registering newcomer s' :=
    ⟨hhash.symm, ⟨s', [], [], rfl, rfl, rfl⟩, hunknown, rfl⟩
  exact ⟨events, s', market_nothingOwed, hruns, hregisters, hplace, hold, haccepted,
    BeaconState.reused_place_unnamed market_nothingOwed hruns hregisters hplace hold⟩

end Moonglass.Devnet
