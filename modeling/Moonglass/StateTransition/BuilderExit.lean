import Moonglass.StateTransition.Solvency

/-
  Builders that leave. A builder exits in the parent phase of a block, when nothing is pending that
  names it; so nothing names it after the block either, unless the parent's bid was its own and too
  old for the window. From then on its record keeps a withdrawable epoch for as long as it stands in
  the registry, and no bid of an exited builder is accepted.
-/

namespace Moonglass

open Lib

variable [Preset] [Crypto]

namespace BeaconState

variable {s s' : BeaconState} {block : BeaconBlock} {blocks : List BeaconBlock}
variable {index : BuilderIndex} {pubkey : BLSPubkey}

/-- No entry of the queue names the builder, and no payment of the window. -/
structure Unnamed (s : BeaconState) (index : BuilderIndex) : Prop where
  queue : ∀ w ∈ s.builderPendingWithdrawals.toList, w.builderIndex ≠ index
  window : ∀ p ∈ s.builderPendingPayments.toList, p.withdrawal.builderIndex = index → p = .default

/-- No entry of the queue is empty. -/
def PositiveQueue (s : BeaconState) : Prop :=
  ∀ w ∈ s.builderPendingWithdrawals.toList, 0 < w.amount.val

omit [Crypto] in
theorem Booked.unnamed (h : Booked blocks s) (hqueue : PositiveQueue s)
    (hpending : s.pending index = 0) : Unnamed s index := by
  unfold pending at hpending
  refine ⟨fun w hw heq => ?_, fun p hp heq => ?_⟩
  · have hle : w.due index ≤ _ := le_tally hw
    have hdue : w.due index = w.amount.val := if_pos heq
    have := hqueue w hw
    omega
  · have hle : p.due index ≤ _ := le_tally hp
    have hdue : p.due index = p.withdrawal.amount.val := if_pos heq
    obtain ⟨i, hlt, hi⟩ := List.mem_iff_getElem.1 hp
    have hget : s.builderPendingPayments[i]? = some p := by
      rw [← Vector.getElem?_toList, List.getElem?_eq_getElem hlt, hi]
    refine (h.fills i p hget).resolve_right ?_
    rintro ⟨_, -, b, -, -, hvalue, hw, -⟩
    rw [hw] at hdue
    have hdue : p.due index = b.bid.value.val := hdue
    omega

/-! ## The record of a builder in a block -/

/-- The record under `pubkey` has exited. -/
def ExitedAs (s : BeaconState) (index : BuilderIndex) (pubkey : BLSPubkey) : Prop :=
  ∃ b, s.builders.get? index.val = some b ∧ b.pubkey = pubkey ∧
    b.withdrawableEpoch ≠ farFutureEpoch

/-- The record of another builder stands at the index. -/
def HeldByOther (s : BeaconState) (index : BuilderIndex) (pubkey : BLSPubkey) : Prop :=
  ∃ b, s.builders.get? index.val = some b ∧ b.pubkey ≠ pubkey

/-- The parent phase keeps an exited record or puts a new builder in its place. -/
theorem BlockPhases.parent_exited (h : BlockPhases s block s') (hexited : s.ExitedAs index pubkey) :
    h.parent.ExitedAs index pubkey ∨ h.parent.HeldByOther index pubkey := by
  rcases processParentExecutionPayload_cases h.parent_eq with ⟨-, hsame, -⟩ | ⟨-, happly⟩
  · rw [hsame]
    exact .inl hexited
  · obtain ⟨applied⟩ := applyParentExecutionPayload_parts _ _ happly
    obtain ⟨b, hb, hkey, hexited⟩ := hexited
    obtain ⟨o, o', hb', hdeposited, hexits⟩ := applied.record index
    rw [hb] at hdeposited
    cases hdeposited with
    | kept key _ exited =>
      cases hexits with
      | kept => exact .inl ⟨_, hb', key.trans hkey, fun h => hexited (exited.1 h)⟩
      | left stayed _ _ => exact absurd (exited.1 stayed) hexited
    | replaced _ _ key _ =>
      rw [hkey] at key
      cases hexits with
      | kept => exact .inr ⟨_, hb', key⟩
      | left _ _ _ => exact .inr ⟨_, hb', key⟩

/-- From the parent phase on a record changes its balance only. -/
theorem BlockPhases.record (h : BlockPhases s block s') {b : Builder}
    (hb : h.parent.builders.get? index.val = some b) :
    h.withdrawals.builders = s'.builders ∧
      ∃ balance, s'.builders.get? index.val = some { b with balance } := by
  rw [← h.header_payments.2.2] at hb
  refine ⟨h.builders_after.symm, ?_⟩
  rw [h.builders_after]
  refine h.withdrawals_inv (P := fun t => ∃ balance, t.builders.get? index.val =
    some { b with balance }) (fun ⟨balance, ht⟩ run => ?_) ⟨b.balance, hb⟩
  exact ⟨_, run.record (b := { b with balance }) ht⟩

omit [Crypto] in
theorem builderIndex_ne_self {b : Builder} (hb : s.builders.get? index.val = some b) :
    index ≠ builderIndexSelfBuild := by
  rintro rfl
  have hlt : builderIndexSelfBuild.val < builderIndexFlag := builder_lt_flag hb
  exact absurd hlt (by decide)

/-- A block in which an exited record stays keeps it exited, and carries no bid of its builder. -/
theorem ExitedAs.blockStep (h : s.ExitedAs index pubkey) (hs : s.processBlock block = .ok s')
    (hstays : ¬s'.HeldByOther index pubkey) :
    s'.ExitedAs index pubkey ∧ block.bid.builderIndex ≠ index := by
  obtain ⟨phases⟩ := processBlock_phases hs
  rcases phases.parent_exited h with ⟨b, hb, hkey, hexited⟩ | ⟨b, hb, hkey⟩
  · obtain ⟨hbuilders, balance, hb'⟩ := phases.record hb
    refine ⟨⟨_, hb', hkey, hexited⟩, fun heq => ?_⟩
    subst heq
    obtain ⟨r, hr, hfar, -⟩ := phases.bid_funded (builderIndex_ne_self hb)
    rw [hbuilders, hb'] at hr
    cases hr
    exact hexited hfar
  · obtain ⟨-, balance, hb'⟩ := phases.record hb
    exact absurd ⟨_, hb', hkey⟩ hstays

/-! ## The block of the exit -/

/-- A builder that exits in a block has nothing pending after it, unless the bid that the block
counts as full is its own and older than the window. -/
theorem exit_pending (hbooked : Booked blocks s) (hs : s.processBlock block = .ok s')
    {b b' : Builder} (hb : s.builders.get? index.val = some b)
    (hfar : b.withdrawableEpoch = farFutureEpoch) (hb' : s'.builders.get? index.val = some b')
    (hexited : b'.withdrawableEpoch ≠ farFutureEpoch)
    (hlate : s.LateExit block → s.latestExecutionPayloadBid.builderIndex ≠ index) :
    s'.pending index = 0 := by
  obtain ⟨phases⟩ := processBlock_phases hs
  have hfunded : s.Funded index 0 := ⟨b, hb, hfar, Nat.zero_le _⟩
  -- a record that the parent phase leaves as it was does not exit later in the block
  have hkept : ¬phases.parent.Funded index 0 := by
    rintro ⟨r, hr, hrfar, -⟩
    obtain ⟨-, balance, hr'⟩ := phases.record hr
    rw [hb'] at hr'
    cases hr'
    exact hexited hrfar
  rcases processParentExecutionPayload_cases phases.parent_eq with ⟨-, hsame, -⟩ | ⟨hfull, happly⟩
  · exact absurd (hfunded.of_builders (by rw [hsame])) hkept
  obtain ⟨applied⟩ := applyParentExecutionPayload_parts _ _ happly
  have hparent : phases.parent.pending index = 0 := by
    rcases applied.funded hfunded with hstill | ⟨hzero, hleft⟩
    · exact absurd hstill hkept
    · by_contra hne
      obtain ⟨hexit, hindex⟩ :=
        applied.lateExit phases hfull hb hfar hzero hleft (Nat.pos_of_ne_zero hne)
      exact hlate hexit hindex
  have hwithdrawals : phases.withdrawals.pending index = 0 := by
    obtain ⟨hwindow, paid, hpaid⟩ := phases.withdrawals_payments
    obtain ⟨hwindow', hqueue', -⟩ := phases.header_payments
    unfold BeaconState.pending at hparent ⊢
    rw [hwindow, hwindow']
    rw [← hqueue', hpaid, tally_append] at hparent
    omega
  have hbid : block.bid.payment.due index = 0 := by
    by_contra hne
    have heq : block.bid.builderIndex = index := by
      by_contra hother
      exact hne (if_neg hother)
    subst heq
    obtain ⟨r, hr, hrfar, -⟩ := phases.bid_funded (builderIndex_ne_self hb)
    rw [← phases.builders_after, hb'] at hr
    cases hr
    exact hexited hrfar
  have hle := phases.obligations_le index
  have := (hbooked.blockStep hs).pending_le index
  omega

end BeaconState

open BeaconState

section

variable {s s' : BeaconState} {events : List ChainEvent} {blocks : List BeaconBlock}
variable {index : BuilderIndex} {pubkey : BLSPubkey}

theorem Runs.positiveQueue (h : Runs s events s') (hbooked : Booked blocks s)
    (hqueue : PositiveQueue s) : PositiveQueue s' := by
  induction h generalizing blocks with
  | nil => exact hqueue
  | @cons e es s' head _ ih =>
    refine ih (e.booked_after hbooked head) fun w hw => ?_
    obtain ⟨paid, -, heq⟩ := head.queued
    have hw : w ∈ e.before.builderPendingWithdrawals.toList ++ e.releases.map (·.withdrawal) := by
      rw [heq]
      exact List.mem_append_right _ hw
    rcases List.mem_append.1 hw with hold | hnew
    · exact hqueue w hold
    · obtain ⟨r, hr, rfl⟩ := List.mem_map.1 hnew
      obtain ⟨b, -, hrb, hvalue⟩ := e.releases_promised hbooked head hr
      rw [hrb]
      exact hvalue

/-- While the record of an exited builder stays, no bid of the builder is accepted. -/
theorem Runs.no_bid (h : Runs s events s') (hexited : s.ExitedAs index pubkey)
    (hstays : ∀ e ∈ events, ¬e.after.HeldByOther index pubkey) {e : ChainEvent} (he : e ∈ events)
    {block : BeaconBlock} (hblock : e.block = some block) : block.bid.builderIndex ≠ index := by
  induction h with
  | nil => cases he
  | @cons e₁ es s' head _ ih =>
    have hstep : e₁.after.ExitedAs index pubkey ∧
        ∀ block, e₁.block = some block → block.bid.builderIndex ≠ index := by
      cases hblock₁ : e₁.block with
      | none =>
        refine ⟨?_, fun _ h => (nomatch h)⟩
        unfold ExitedAs
        rw [(advanceSlot_payments (head.advanced hblock₁)).builders]
        exact hexited
      | some block₁ =>
        obtain ⟨hafter, hne⟩ :=
          hexited.blockStep (head.processed hblock₁) (hstays e₁ List.mem_cons_self)
        refine ⟨hafter, fun _ h => ?_⟩
        cases h
        exact hne
    rcases List.mem_cons.1 he with rfl | he
    · exact hstep.2 block hblock
    · exact ih hstep.1 (fun e' he' => hstays e' (List.mem_cons_of_mem _ he')) he

/-- A builder that exits in a block is named by no entry after it, unless the bid that the block
counts as full is its own and older than the window. As long as its record stays, no bid of it is
accepted. -/
theorem BeaconState.exit_without_obligations (hstart : NothingOwed s) (h : Runs s events s')
    {earlier later : List ChainEvent} {e : ChainEvent} {block : BeaconBlock} {b b' : Builder}
    (hevents : events = earlier ++ e :: later) (hblock : e.block = some block)
    (hb : e.before.builders.get? index.val = some b) (hfar : b.withdrawableEpoch = farFutureEpoch)
    (hb' : e.after.builders.get? index.val = some b')
    (hexited : b'.withdrawableEpoch ≠ farFutureEpoch) :
    ((e.before.LateExit block → e.before.latestExecutionPayloadBid.builderIndex ≠ index) →
      e.after.Unnamed index) ∧ ∀ kept rest, later = kept ++ rest →
      (∀ e' ∈ kept, ¬e'.after.HeldByOther index b'.pubkey) →
      ∀ e' ∈ kept, ∀ block', e'.block = some block' → block'.bid.builderIndex ≠ index := by
  subst hevents
  have hbooked := hstart.booked
  obtain ⟨m, hearlier, hrest⟩ := h.split
  cases hrest with
  | cons head tail =>
    have hbefore := hearlier.booked hbooked
    have hprocessed := head.processed hblock
    refine ⟨fun hlate => ?_, ?_⟩
    · have hstartQueue : PositiveQueue s := by
        unfold PositiveQueue
        rw [hstart.queue]
        exact fun w hw => absurd hw List.not_mem_nil
      have hqueue : PositiveQueue e.after :=
        (Runs.cons head (.nil e.after)).positiveQueue hbefore
          (hearlier.positiveQueue hbooked hstartQueue)
      exact (hbefore.blockStep hprocessed).unnamed hqueue
        (exit_pending hbefore hprocessed hb hfar hb' hexited hlate)
    · rintro kept rest rfl hstays e' he' block' hblock'
      obtain ⟨_, hkept, -⟩ := tail.split
      exact hkept.no_bid ⟨b', hb', rfl, hexited⟩ hstays he' hblock'

end

end Moonglass

namespace Moonglass.Devnet

open List

/-- Builder 0 leaves in the block that pays builder 1 for its bid. -/
def leaving : BeaconBlock := requesting exitRequests (childOf block25)

/-- A block on it that counts it as full. -/
def afterLeaving : BeaconBlock := fullChild 27 leaving

def exitSteps : List (Option BeaconBlock) :=
  [none, some block25, none, some leaving, none, some afterLeaving]

/-- The event turns the withdrawable epoch of builder 0 from far future to another. -/
def exits (e : ChainEvent) : Bool :=
  (e.before.builders.get? 0).any (·.withdrawableEpoch == farFutureEpoch) &&
    (e.after.builders.get? 0).any (·.withdrawableEpoch != farFutureEpoch)

theorem exits_eq_true {e : ChainEvent} (h : exits e = true) : ∃ b b',
    e.before.builders.get? 0 = some b ∧ b.withdrawableEpoch = farFutureEpoch ∧
    e.after.builders.get? 0 = some b' ∧ b'.withdrawableEpoch ≠ farFutureEpoch := by
  obtain ⟨hbefore, hafter⟩ := Bool.and_eq_true_iff.1 h
  obtain ⟨b, hb, hfar⟩ := (Option.any_eq_true _ _).1 hbefore
  obtain ⟨b', hb', hexited⟩ := (Option.any_eq_true _ _).1 hafter
  exact ⟨b, b', hb, beq_iff_eq.1 hfar, hb', bne_iff_ne.1 hexited⟩

/-- Builder 0 leaves with nothing pending, and the block after it carries no bid of it. -/
theorem exit_without_obligations_leaving : ∃ events s' earlier e later b', market.NothingOwed ∧
    Runs market events s' ∧ events = earlier ++ e :: later ∧ e.block = some leaving ∧
    exits e = true ∧ later.length = 2 ∧ e.after.builders.get? 0 = some b' ∧
    e.after.Unnamed 0 ∧ ∀ kept rest, later = kept ++ rest →
      (∀ e' ∈ kept, ¬e'.after.HeldByOther 0 b'.pubkey) →
      ∀ e' ∈ kept, ∀ block', e'.block = some block' → block'.bid.builderIndex ≠ 0 := by
  have hcheck : followCheck (fun events _ => ((events.drop 3).head?.any fun e =>
      exits e && e.before.latestExecutionPayloadBid.builderIndex != 0) = true) market exitSteps =
      true := by decide +kernel
  obtain ⟨events, s', hruns, hblocks, hcheck⟩ := followCheck_runs hcheck
  obtain ⟨e₁, _, rfl, -, hblocks⟩ := map_eq_cons_iff.1 hblocks
  obtain ⟨e₂, _, rfl, -, hblocks⟩ := map_eq_cons_iff.1 hblocks
  obtain ⟨e₃, _, rfl, -, hblocks⟩ := map_eq_cons_iff.1 hblocks
  obtain ⟨e₄, later, rfl, h₄, hblocks⟩ := map_eq_cons_iff.1 hblocks
  have hlength : later.length = 2 := by
    rw [← length_map (·.block), hblocks]
    rfl
  obtain ⟨hexits, hother⟩ := Bool.and_eq_true_iff.1 hcheck
  obtain ⟨b, b', hb, hfar, hb', hexited⟩ := exits_eq_true hexits
  have hb : e₄.before.builders.get? (0 : BuilderIndex).val = some b := hb
  obtain ⟨hunnamed, hlater⟩ := BeaconState.exit_without_obligations market_nothingOwed hruns
    (show _ = [e₁, e₂, e₃] ++ e₄ :: later from rfl) h₄ hb hfar hb' hexited
  exact ⟨_, s', [e₁, e₂, e₃], e₄, later, b', market_nothingOwed, hruns, rfl, h₄, hexits, hlength,
    hb', hunnamed fun _ => bne_iff_ne.1 hother, hlater⟩

/-- The chain whose exit comes two epochs after the builder's own bid: the builder has left and the
queue names it. -/
theorem exit_with_debt_block40 : ∃ events s' earlier e b b', market.NothingOwed ∧
    Runs market events s' ∧ events = earlier ++ [e] ∧ e.block = some block40 ∧
    e.before.builders.get? 0 = some b ∧ b.withdrawableEpoch = farFutureEpoch ∧
    e.after.builders.get? 0 = some b' ∧ b'.withdrawableEpoch ≠ farFutureEpoch ∧
    ∃ w ∈ e.after.builderPendingWithdrawals.toList, w.builderIndex = 0 ∧ 0 < w.amount.val := by
  have hcheck : followCheck (fun events _ => (events.getLast?.any fun e =>
      exits e && e.after.builderPendingWithdrawals.toList.any fun w =>
        w.builderIndex == 0 && decide (0 < w.amount.val)) = true) market debtSteps = true := by
    decide +kernel
  obtain ⟨events, s', hruns, hblocks, hcheck⟩ := followCheck_runs hcheck
  obtain ⟨e, hlast, he⟩ := (Option.any_eq_true _ _).1 hcheck
  obtain ⟨hexits, hnamed⟩ := Bool.and_eq_true_iff.1 he
  obtain ⟨b, b', hb, hfar, hb', hexited⟩ := exits_eq_true hexits
  obtain ⟨w, hw, hdue⟩ := any_eq_true.1 hnamed
  obtain ⟨hindex, hamount⟩ := Bool.and_eq_true_iff.1 hdue
  obtain ⟨earlier, rfl⟩ := getLast?_eq_some_iff.1 hlast
  rw [map_append] at hblocks
  have hblock := List.cons.inj (append_inj_right' hblocks rfl)
  exact ⟨_, s', earlier, e, b, b', market_nothingOwed, hruns, rfl, hblock.1, hb, hfar, hb',
    hexited, w, hw, beq_iff_eq.1 hindex, of_decide_eq_true hamount⟩

end Moonglass.Devnet
