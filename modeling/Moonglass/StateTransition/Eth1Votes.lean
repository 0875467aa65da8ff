import Moonglass.StateTransition.Runs

/-
  Eth1 voting over whole chains. Every accepted block adds its vote, no slot has two accepted
  blocks, and the end of a voting period empties the list. So the list never overflows, and the
  eth1 data changes only to what more than half of the slots of a period voted for.
-/

namespace Moonglass

open Lib

variable [Preset] [Crypto]

namespace BeaconState

variable {s s' : BeaconState} {block : BeaconBlock}

/-! ## What a block and a slot do to the votes -/

/-- What a state holds of the eth1 voting. -/
def eth1View (s : BeaconState) : Eth1Data × BoundedList Eth1Data eth1DataVotesLen :=
  (s.eth1Data, s.eth1DataVotes)

omit [Crypto] in
theorem Changes.eth1 {a : Reach} {p : Phase} (h : Changes a p s s') : s'.eth1View = s.eth1View :=
  congrArg (fun v : CoreView => (v.eth1Data, v.eth1DataVotes)) h.core

/-- A block up to its vote. -/
def beforeEth1Data (s : BeaconState) (block : BeaconBlock) : Transition BeaconState := do
  let s ← s.processParentExecutionPayload block
  let s ← s.processBlockHeader block
  let s ← s.processWithdrawals
  let s ← s.processExecutionPayloadBid block.body.signedExecutionPayloadBid
  s.processRandao block.body

/-- A block that comes to its vote is the first one of its slot. -/
theorem beforeEth1Data_keeps (block : BeaconBlock) : Ensures (s.beforeEth1Data block) fun t =>
    t.eth1View = s.eth1View ∧ block.slot = s.slot ∧ s.latestBlockHeader.slot < block.slot := by
  intro t h
  unfold beforeEth1Data at h
  simp only [bind_eq_ok] at h
  obtain ⟨parent, hparent, header, hheader, withdrawals, hwithdrawals, bid, hbid, hrandao⟩ := h
  have hchain := (processParentExecutionPayload_frame _ _ hparent).chain
  have hprocessed := processBlockHeader_chain block _ hheader
  obtain ⟨applied, happlied, hparent⟩ := processParentExecutionPayload_changes _ _ hparent
  obtain ⟨mix, hmix⟩ := processRandao_mix _ _ hrandao
  have hparentView : parent.eth1View = applied.eth1View := by
    rcases hparent with ⟨-, hparent⟩ | ⟨-, hparent⟩
    · rw [hparent]
    · rw [hparent]
      rfl
  have hheaderView : header.eth1View = parent.eth1View := by
    rw [processBlockHeader_writes _ _ hheader]
    rfl
  have hview : t.eth1View = bid.eth1View := (congrArg eth1View hmix).trans rfl
  refine ⟨?_, ?_, ?_⟩
  · rw [hview, (processExecutionPayloadBid_changes _ _ hbid).eth1,
      (processWithdrawals_changes _ hwithdrawals).eth1, hheaderView, hparentView, happlied.eth1]
  · exact hprocessed.slot_eq.trans (congrArg ChainView.slot hchain)
  · have hheaderEq : parent.latestBlockHeader = s.latestBlockHeader :=
      congrArg ChainView.latestBlockHeader hchain
    rw [← hheaderEq]
    exact hprocessed.header_slot_lt

/-- An accepted block adds its vote, and changes the data only to what it votes for, when more than
half of the votes that a period can hold agree. -/
theorem processBlock_eth1 (h : s.processBlock block = .ok s') :
    s'.eth1DataVotes.toList = s.eth1DataVotes.toList ++ [block.body.eth1Data] ∧
      (s'.eth1Data = s.eth1Data ∨ s'.eth1Data = block.body.eth1Data ∧
        eth1DataVotesLen < 2 * s'.eth1DataVotes.toList.countP (· = block.body.eth1Data)) := by
  obtain ⟨h⟩ := processBlock_phases h
  have hbefore : s.beforeEth1Data block = .ok h.randao := by
    unfold beforeEth1Data
    rw [h.parent_eq, ok_bind, h.header_eq, ok_bind, h.withdrawals_eq, ok_bind, h.bid_eq, ok_bind,
      h.randao_eq]
  have hview := (beforeEth1Data_keeps block _ hbefore).1
  have hafter := ((processOperations_changes _ _ h.operations_eq).trans
    (processSyncAggregate_changes _ _ h.sync_eq)).eth1
  have hcast := h.eth1_eq
  unfold processEth1Data at hcast
  obtain ⟨votes, hvotes, hcast⟩ := bind_eq_ok.1 hcast
  have hcast := congrArg eth1View (Except.ok.inj hcast)
  rw [← hafter] at hcast
  obtain ⟨hdata, hlist⟩ := Prod.mk.inj hcast
  obtain ⟨hdata₀, hlist₀⟩ := Prod.mk.inj hview
  have hpush := (BoundedList.push_eq_some.1 (okOr_eq_ok.1 hvotes)).2
  rw [hlist₀] at hpush
  rw [← hlist, ← hdata]
  refine ⟨hpush, ?_⟩
  dsimp only
  split
  · rename_i hmajority
    exact .inr ⟨rfl, by omega⟩
  · exact .inl hdata₀

theorem processEpoch_eth1 (h : s.processEpoch = .ok s') : s'.eth1View = (s.eth1Data,
    if (s.slot.epoch.val + 1) % epochsPerEth1VotingPeriod = 0 then .empty
    else s.eth1DataVotes) := by
  obtain ⟨h⟩ := processEpoch_steps h
  obtain ⟨justified, hjustified, hcharged⟩ := h.before
  have hjustified := processJustificationAndFinalization_writes _ hjustified
  have hbefore : h.punished.eth1View = s.eth1View := by
    rw [h.penalties.eth1, hcharged.eth1, hjustified]
    rfl
  have hslot : h.punished.slot = s.slot := by
    rw [h.penalties.slot, hcharged.slot, hjustified]
  have hafter : s'.eth1View = h.punished.processEth1DataReset.eth1View := by
    obtain ⟨lookahead, window, hs'⟩ := h.result
    have hresult : s'.eth1View = h.synced.eth1View := (congrArg eth1View hs').trans rfl
    have hsummarised : h.summarised.eth1View = h.updated.eth1View :=
      (congrArg eth1View h.summarised_eq).trans rfl
    rw [hresult, h.rotation.eth1, hsummarised, h.updates.eth1, h.deposits.eth1]
  obtain ⟨hdata, hlist⟩ := Prod.mk.inj hbefore
  rw [hafter, ← hdata, ← hlist, ← hslot]
  unfold processEth1DataReset
  split <;> rfl

/-- The votes are cleared when the next slot begins a voting period. -/
theorem advanceSlot_eth1 (h : s.advanceSlot = .ok s') : s'.eth1View = (s.eth1Data,
    if s'.slot.val % eth1DataVotesLen = 0 then .empty else s.eth1DataVotes) := by
  obtain ⟨filed, next, hfiled, hs', hslot, hparts⟩ := advanceSlot_parts h
  have hfiled := processSlot_writes filed hfiled
  have hview : s'.eth1View = next.eth1View := (congrArg eth1View hs').trans rfl
  have hspe := slotsPerEpoch_pos
  rw [hview]
  rcases hparts with ⟨hinner, rfl⟩ | ⟨hboundary, hepoch⟩
  · have hdvd : slotsPerEpoch ∣ eth1DataVotesLen := Nat.dvd_mul_left _ _
    rw [if_neg fun h => hinner (Nat.mod_eq_zero_of_dvd (hdvd.trans (Nat.dvd_of_mod_eq_zero h))),
      hfiled]
    rfl
  · have hperiod : s'.slot.val % eth1DataVotesLen = 0 ↔
        (s.slot.epoch.val + 1) % epochsPerEth1VotingPeriod = 0 := by
      -- the last slot of an epoch comes before the start of the next one
      have hstart : s'.slot.val = (s.slot.epoch.val + 1) * slotsPerEpoch := by
        have hnext : (s.slot.val + 1) / slotsPerEpoch = s.slot.val / slotsPerEpoch + 1 :=
          Nat.succ_div_of_dvd (Nat.dvd_of_mod_eq_zero (hslot ▸ hboundary))
        rw [Slot.epoch_val, ← hnext, ← hslot]
        exact (Nat.div_mul_cancel (Nat.dvd_of_mod_eq_zero hboundary)).symm
      rw [hstart, eth1DataVotesLen, Nat.mul_mod_mul_right, Nat.mul_eq_zero]
      exact or_iff_left hspe.ne'
    rw [processEpoch_eth1 hepoch, hfiled]
    exact congrArg _ (if_congr hperiod.symm rfl rfl)

end BeaconState

open BeaconState

/-! ## Chains -/

/-- The voting period of a slot. -/
def votingPeriod (slot : Slot) : Nat := slot.val / eth1DataVotesLen

/-- The blocks of a voting period. -/
def votersOf (blocks : List BeaconBlock) (period : Nat) : List BeaconBlock :=
  blocks.filter fun b => votingPeriod b.slot = period

/-- The blocks come at increasing slots, and the votes are those of the period's blocks. -/
structure Counted (blocks : List BeaconBlock) (s : BeaconState) : Prop where
  votes : s.eth1DataVotes.toList = (votersOf blocks (votingPeriod s.slot)).map (·.body.eth1Data)
  ordered : blocks.Pairwise fun b b' => b.slot.val < b'.slot.val
  past : ∀ b ∈ blocks, b.slot.val ≤ s.slot.val
  latest : ∀ b ∈ blocks, b.slot.val ≤ s.latestBlockHeader.slot.val

section

variable {s s' : BeaconState} {block : BeaconBlock} {blocks : List BeaconBlock}
variable {events : List ChainEvent}

omit [Crypto] in
theorem eth1DataVotesLen_pos : 0 < eth1DataVotesLen := by
  have : 0 < epochsPerEth1VotingPeriod := by
    unfold epochsPerEth1VotingPeriod pick
    split <;> decide
  exact Nat.mul_pos this slotsPerEpoch_pos

theorem Counted.slotStep (h : Counted blocks s) (hs : s.advanceSlot = .ok s') :
    Counted blocks s' := by
  have heffect := advanceSlot_effect s' hs
  have hslot := heffect.slot
  obtain ⟨-, hvotes⟩ := Prod.mk.inj (advanceSlot_eth1 hs)
  refine ⟨?_, h.ordered, fun b hb => ?_, fun b hb => ?_⟩
  · rw [hvotes]
    split
    · rename_i hboundary
      -- every block so far is of an earlier period
      have hnone : votersOf blocks (votingPeriod s'.slot) = [] := by
        refine List.filter_eq_nil_iff.2 fun b hb => ?_
        have hle := h.past b hb
        have hdvd := Nat.dvd_of_mod_eq_zero hboundary
        have hlt : votingPeriod b.slot < votingPeriod s'.slot :=
          Nat.div_lt_div_of_lt_of_dvd hdvd (by omega)
        simpa using hlt.ne
      rw [hnone]
      rfl
    · rename_i hinner
      have hsame : votingPeriod s'.slot = votingPeriod s.slot := by
        unfold votingPeriod
        rw [hslot] at hinner ⊢
        exact Nat.succ_div_of_mod_ne_zero hinner
      rw [hsame]
      exact h.votes
  · have := h.past b hb
    omega
  · rw [heffect.sameHeader.slot]
    exact h.latest b hb

theorem Counted.blockStep (h : Counted blocks s) (hs : s.processBlock block = .ok s') :
    Counted (blocks ++ [block]) s' := by
  have hchain := processBlock_chain block s' hs
  have hvotes := (processBlock_eth1 hs).1
  have hlt : s.latestBlockHeader.slot.val < block.slot.val := hchain.header_slot_lt
  have hheader : s'.latestBlockHeader.slot = block.slot := congrArg (·.slot) hchain.header
  have hmem : ∀ b ∈ blocks ++ [block], b.slot.val ≤ block.slot.val := by
    intro b hb
    rcases List.mem_append.1 hb with hb | hb
    · exact (h.latest b hb).trans hlt.le
    · rw [List.mem_singleton.1 hb]
  refine ⟨?_, ?_, fun b hb => ?_, fun b hb => ?_⟩
  · have hown : votingPeriod block.slot = votingPeriod s.slot :=
      congrArg votingPeriod hchain.slot_eq
    rw [hvotes, h.votes, hchain.slot]
    unfold votersOf
    rw [List.filter_append, List.filter_singleton]
    simp [hown]
  · refine List.pairwise_append.2 ⟨h.ordered, List.pairwise_singleton _ _, fun b hb b' hb' => ?_⟩
    rw [List.mem_singleton.1 hb']
    exact (h.latest b hb).trans_lt hlt
  · rw [hchain.slot, ← hchain.slot_eq]
    exact hmem b hb
  · rw [hheader]
    exact hmem b hb

theorem Runs.counted (h : Runs s events s') (hs : Counted blocks s) :
    Counted (blocks ++ blocksOf events) s' := by
  induction h generalizing blocks with
  | nil =>
    rw [blocksOf, List.filterMap_nil, List.append_nil]
    exact hs
  | @cons e es s' head _ ih =>
    obtain ⟨before, block, after⟩ := e
    cases block with
    | none => exact ih (hs.slotStep head)
    | some block =>
      have hrest := ih (hs.blockStep head)
      rw [List.append_assoc] at hrest
      exact hrest

omit [Crypto] in
/-- A voting period has at most one vote per slot. -/
theorem Counted.voters_length_le (h : Counted blocks s) {period n : Nat}
    (hlast : ∀ b ∈ votersOf blocks period, b.slot.val < period * eth1DataVotesLen + n) :
    (votersOf blocks period).length ≤ n := by
  have hnodup : ((votersOf blocks period).map (·.slot.val)).Nodup :=
    List.Pairwise.map _ (fun _ _ hlt => hlt.ne) (h.ordered.sublist List.filter_sublist)
  have hrange : ((votersOf blocks period).map (·.slot.val)).toFinset ⊆
      Finset.Ico (period * eth1DataVotesLen) (period * eth1DataVotesLen + n) := by
    intro slot hslot
    obtain ⟨b, hb, rfl⟩ := List.mem_map.1 (List.mem_toFinset.1 hslot)
    have hperiod : votingPeriod b.slot = period := of_decide_eq_true (List.mem_filter.1 hb).2
    rw [Finset.mem_Ico, ← hperiod]
    exact ⟨Nat.div_mul_le_self _ _, hperiod ▸ hlast b hb⟩
  have hcard := Finset.card_le_card hrange
  rwa [List.toFinset_card_of_nodup hnodup, List.length_map, Nat.card_Ico, Nat.add_sub_cancel_left]
    at hcard

/-- The votes for `data` among the blocks of a period. -/
def votesFor (blocks : List BeaconBlock) (period : Nat) (data : Eth1Data) : Nat :=
  (votersOf blocks period).countP fun b => b.body.eth1Data = data

/-- An event that replaces the eth1 data is a block of a majority of the slots of its period. -/
theorem ChainEvent.Accepted.replaced {e : ChainEvent} (h : e.Accepted)
    (hs : Counted blocks e.before) (hnew : e.after.eth1Data ≠ e.before.eth1Data) :
    eth1DataVotesLen <
      2 * votesFor (blocks ++ blocksOf [e]) (votingPeriod e.before.slot) e.after.eth1Data := by
  obtain ⟨before, block, after⟩ := e
  cases block with
  | none => exact absurd (Prod.mk.inj (advanceSlot_eth1 h)).1 hnew
  | some block =>
    have hafter : Counted (blocks ++ [block]) after := hs.blockStep h
    obtain ⟨-, hsame | ⟨hdata, hmajority⟩⟩ := processBlock_eth1 h
    · exact absurd hsame hnew
    · have hslot : after.slot = before.slot := (processBlock_chain block after h).slot
      rw [hafter.votes, List.countP_map, hslot, ← hdata] at hmajority
      exact hmajority

omit [Crypto] in
/-- Two values cannot both have the votes of more than half of the slots of a period. -/
theorem Counted.majority_unique (h : Counted blocks s) {period : Nat} {v w : Eth1Data}
    (hv : eth1DataVotesLen < 2 * votesFor blocks period v)
    (hw : eth1DataVotesLen < 2 * votesFor blocks period w) : v = w := by
  by_contra hne
  have hlength : (votersOf blocks period).length ≤ eth1DataVotesLen := by
    refine h.voters_length_le fun b hb => ?_
    have hperiod : votingPeriod b.slot = period := of_decide_eq_true (List.mem_filter.1 hb).2
    rw [← hperiod, ← Nat.succ_mul]
    exact Nat.lt_mul_of_div_lt (Nat.lt_succ_self _) eth1DataVotesLen_pos
  unfold votesFor at hv hw
  have hsplit := (votersOf blocks period).length_eq_countP_add_countP
    fun b => decide (b.body.eth1Data = v)
  have hother : (votersOf blocks period).countP (fun b => b.body.eth1Data = w) ≤
      (votersOf blocks period).countP fun b => ¬decide (b.body.eth1Data = v) := by
    refine List.countP_mono_left fun b _ hb => ?_
    simp at hb ⊢
    exact fun hb' => hne (hb'.symm.trans hb)
  omega

/-- The votes are those of the accepted blocks of the current period, one for a slot at most, so the
next block finds room for its own; and the eth1 data is replaced only by what more than half of the
slots of a period voted for, of which there is one at most. -/
theorem eth1_votes_one_per_slot (hstart : s.eth1DataVotes.toList = []) (h : Runs s events s') :
    s'.eth1DataVotes.toList =
        (votersOf (blocksOf events) (votingPeriod s'.slot)).map (·.body.eth1Data) ∧
      (votersOf (blocksOf events) (votingPeriod s'.slot)).Pairwise
        (fun b b' => b.slot.val < b'.slot.val) ∧
      (∀ b ∈ votersOf (blocksOf events) (votingPeriod s'.slot), b.slot.val ≤ s'.slot.val) ∧
      s'.eth1DataVotes.length ≤ s'.slot.val % eth1DataVotesLen + 1 ∧
      (∀ block t, s'.beforeEth1Data block = .ok t → ∃ t', t.processEth1Data block.body = .ok t') ∧
      (∀ earlier e later, events = earlier ++ e :: later →
        e.after.eth1Data ≠ e.before.eth1Data → eth1DataVotesLen <
          2 * votesFor (blocksOf (earlier ++ [e])) (votingPeriod e.before.slot) e.after.eth1Data) ∧
      ∀ e₁ ∈ events, ∀ e₂ ∈ events, e₁.after.eth1Data ≠ e₁.before.eth1Data →
        e₂.after.eth1Data ≠ e₂.before.eth1Data →
        votingPeriod e₁.before.slot = votingPeriod e₂.before.slot →
        e₁.after.eth1Data = e₂.after.eth1Data := by
  have hcounted : Counted [] s := ⟨hstart, .nil, nofun, nofun⟩
  have hend : Counted (blocksOf events) s' := h.counted hcounted
  have hreplaced : ∀ earlier e later, events = earlier ++ e :: later →
      e.after.eth1Data ≠ e.before.eth1Data → eth1DataVotesLen <
        2 * votesFor (blocksOf (earlier ++ [e])) (votingPeriod e.before.slot) e.after.eth1Data := by
    rintro earlier e later rfl hnew
    obtain ⟨m, hearlier, hrest⟩ := h.split
    cases hrest with
    | cons head _ =>
      rw [blocksOf_append]
      exact head.replaced (hearlier.counted hcounted) hnew
  -- the whole chain has all the votes that an event found
  have hwhole : ∀ e ∈ events, e.after.eth1Data ≠ e.before.eth1Data → eth1DataVotesLen <
      2 * votesFor (blocksOf events) (votingPeriod e.before.slot) e.after.eth1Data := by
    intro e he hnew
    obtain ⟨earlier, later, hevents⟩ := List.append_of_mem he
    have hfound := hreplaced earlier e later hevents hnew
    have hsub : (blocksOf (earlier ++ [e])).Sublist (blocksOf events) := by
      rw [hevents, List.append_cons earlier e later, blocksOf_append (earlier ++ [e])]
      exact List.sublist_append_left _ _
    have hle : votesFor (blocksOf (earlier ++ [e])) (votingPeriod e.before.slot) e.after.eth1Data ≤
        votesFor (blocksOf events) (votingPeriod e.before.slot) e.after.eth1Data :=
      (hsub.filter _).countP_le
    omega
  have hperiod := Nat.div_add_mod' s'.slot.val eth1DataVotesLen
  refine ⟨hend.votes, hend.ordered.sublist List.filter_sublist, fun b hb => ?_, ?_,
    fun block t ht => ?_, hreplaced, fun e₁ he₁ e₂ he₂ hnew₁ hnew₂ hsame => ?_⟩
  · exact hend.past b (List.mem_filter.1 hb).1
  · unfold BoundedList.length
    rw [hend.votes, List.length_map]
    refine hend.voters_length_le fun b hb => ?_
    have := hend.past b (List.mem_filter.1 hb).1
    unfold votingPeriod
    omega
  · obtain ⟨hview, hslot, hlt⟩ := beforeEth1Data_keeps block t ht
    have hlength : s'.eth1DataVotes.toList.length < eth1DataVotesLen := by
      rw [hend.votes, List.length_map]
      refine (hend.voters_length_le (n := s'.slot.val % eth1DataVotesLen) fun b hb => ?_).trans_lt
        (Nat.mod_lt _ eth1DataVotesLen_pos)
      have hle := hend.latest b (List.mem_filter.1 hb).1
      have hlt : s'.latestBlockHeader.slot.val < block.slot.val := hlt
      rw [hslot] at hlt
      unfold votingPeriod
      omega
    rw [← (Prod.mk.inj hview).2] at hlength
    unfold processEth1Data BoundedList.push
    rw [dif_pos hlength]
    exact ⟨_, rfl⟩
  · have hmajority := hwhole e₁ he₁ hnew₁
    rw [hsame] at hmajority
    exact hend.majority_unique hmajority (hwhole e₂ he₂ hnew₂)

end

end Moonglass

namespace Moonglass.Devnet

/-- Two blocks of one period cast two votes, and the next one finds room for its own. -/
theorem eth1_votes_two_blocks : ∃ events s', Runs market events s' ∧
    events.map (·.block) = [none, some bidBlock, none, some (childOf bidBlock)] ∧
    market.eth1DataVotes.toList = [] ∧ s'.eth1DataVotes.toList = [noEth1, noEth1] ∧
    s'.eth1DataVotes.toList =
      (votersOf (blocksOf events) (votingPeriod s'.slot)).map (·.body.eth1Data) ∧
    ∀ block t, s'.beforeEth1Data block = .ok t → ∃ t', t.processEth1Data block.body = .ok t' := by
  have hcheck : followCheck (fun _ s' => s'.eth1DataVotes.toList = [noEth1, noEth1]) market
      [none, some bidBlock, none, some (childOf bidBlock)] = true := by decide +kernel
  obtain ⟨events, s', hruns, hblocks, hvotes⟩ := followCheck_runs hcheck
  obtain ⟨hvoters, -, -, -, hroom, -⟩ := eth1_votes_one_per_slot rfl hruns
  exact ⟨events, s', hruns, hblocks, rfl, hvotes, hvoters, hroom⟩

end Moonglass.Devnet
