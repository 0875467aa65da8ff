import Moonglass.StateTransition.Payload

/-
  The withdrawal handoff. A block on top of a full parent debits new withdrawals and makes them
  the outstanding ones, while the payload of its parent has carried the old ones; a block on top of
  an empty parent leaves the outstanding ones where they are. Along a chain of blocks nothing that
  was debited is dropped, repeated or reordered.
-/

namespace Moonglass

open Lib List

variable [Preset] [Crypto]

namespace BeaconState

variable {s s' : BeaconState}

/-- The withdrawals that the withdrawal phase of a block debits, when the block is applied to
`s`. -/
def debitedBy (s : BeaconState) (b : SignedBeaconBlock) : Transition (List Withdrawal) := do
  let s ← s.processSlots b.message.slot
  let s ← s.processParentExecutionPayload b.message
  let s ← s.processBlockHeader b.message
  if s.latestBlockHash ≠ s.latestExecutionPayloadBid.blockHash then return []
  pure (← s.getExpectedWithdrawals).withdrawals

/-- The withdrawals that the payload before `b` has carried: those of its block's state `s`, when
`b` counts that block as full. -/
def deliveredTo (s : BeaconState) (b : SignedBeaconBlock) : List Withdrawal :=
  if b.message.bid.parentBlockHash = s.latestExecutionPayloadBid.blockHash then
    s.payloadExpectedWithdrawals.toList
  else []

/-- What a chain of blocks has debited and delivered, and its last state. -/
structure Ledger where
  debited : List Withdrawal
  delivered : List Withdrawal
  tip : BeaconState

/-- Apply a chain of blocks and keep the books. -/
def followChain : BeaconState → List SignedBeaconBlock → Transition Ledger
  | s, [] => pure ⟨[], [], s⟩
  | s, b :: blocks => do
    let debited ← s.debitedBy b
    let next ← s.stateTransition b
    let rest ← followChain next blocks
    pure ⟨debited ++ rest.debited, s.deliveredTo b ++ rest.delivered, rest.tip⟩

/-- What one block hands on: outstanding and debited withdrawals become delivered and outstanding
ones, and the debited ones are numbered from the next index. -/
structure HandsOn (s s' : BeaconState) (debited delivered : List Withdrawal) : Prop where
  books : s.payloadExpectedWithdrawals.toList ++ debited =
    delivered ++ s'.payloadExpectedWithdrawals.toList
  indices : debited.map (·.index.val) = List.range' s.nextWithdrawalIndex.val debited.length
  next : s'.nextWithdrawalIndex.val = s.nextWithdrawalIndex.val + debited.length

omit [Crypto] in
theorem HandsOn.refl (s : BeaconState) : HandsOn s s [] [] := ⟨by simp, rfl, rfl⟩

omit [Crypto] in
theorem HandsOn.trans {s'' : BeaconState} {debited debited' delivered delivered' : List Withdrawal}
    (h : HandsOn s s' debited delivered) (h' : HandsOn s' s'' debited' delivered') :
    HandsOn s s'' (debited ++ debited') (delivered ++ delivered') where
  books := by
    calc s.payloadExpectedWithdrawals.toList ++ (debited ++ debited')
        = (delivered ++ s'.payloadExpectedWithdrawals.toList) ++ debited' := by
          rw [← append_assoc, h.books]
      _ = delivered ++ (delivered' ++ s''.payloadExpectedWithdrawals.toList) := by
          rw [append_assoc, h'.books]
      _ = delivered ++ delivered' ++ s''.payloadExpectedWithdrawals.toList := by
          rw [append_assoc]
  indices := by
    rw [map_append, h.indices, h'.indices, h.next, range'_append_1, length_append]
  next := by
    rw [h'.next, h.next, length_append, Nat.add_assoc]

variable {block : BeaconBlock}

/-- After the withdrawal phase a block leaves the withdrawals alone. -/
theorem BlockPhases.after_withdrawals (h : BlockPhases s block s') :
    s'.payloadExpectedWithdrawals = h.withdrawals.payloadExpectedWithdrawals ∧
      s'.nextWithdrawalIndex = h.withdrawals.nextWithdrawalIndex := by
  obtain ⟨-, -, proposer, -, hbid⟩ := processExecutionPayloadBid_eq _ _ h.bid_eq
  rw [recordAcceptedBid_eq] at hbid
  exact ⟨h.after_bid.outstanding.trans (by rw [hbid]), h.after_bid.next.trans (by rw [hbid])⟩

/-- A block on top of an empty parent hands nothing on. -/
theorem BlockPhases.handsOn_empty (h : BlockPhases s block s')
    (hempty : block.bid.parentBlockHash ≠ s.latestExecutionPayloadBid.blockHash) :
    HandsOn s s' [] [] := by
  obtain ⟨hparent, -, hwithdrawals⟩ := h.parentDecision.empty hempty
  have hheader := h.header_execution
  have houtstanding : s'.payloadExpectedWithdrawals = s.payloadExpectedWithdrawals :=
    calc s'.payloadExpectedWithdrawals
        = h.withdrawals.payloadExpectedWithdrawals := h.after_withdrawals.1
      _ = h.header.payloadExpectedWithdrawals := by rw [hwithdrawals]
      _ = s.payloadExpectedWithdrawals := hheader.outstanding.trans (by rw [hparent])
  have hnext : s'.nextWithdrawalIndex = s.nextWithdrawalIndex :=
    calc s'.nextWithdrawalIndex
        = h.withdrawals.nextWithdrawalIndex := h.after_withdrawals.2
      _ = h.header.nextWithdrawalIndex := by rw [hwithdrawals]
      _ = s.nextWithdrawalIndex := hheader.next.trans (by rw [hparent])
  exact ⟨by rw [houtstanding, append_nil, nil_append], rfl, by rw [hnext]; rfl⟩

/-- A block on top of a full parent debits the expected withdrawals, and the parent's payload has
carried the outstanding ones. -/
theorem BlockPhases.handsOn_full (h : BlockPhases s block s')
    (hfull : block.bid.parentBlockHash = s.latestExecutionPayloadBid.blockHash) :
    ∃ e, h.header.getExpectedWithdrawals = .ok e ∧
      HandsOn s s' e.withdrawals s.payloadExpectedWithdrawals.toList := by
  obtain ⟨happly, hrun⟩ := h.parentDecision.full hfull
  obtain ⟨happlied⟩ := applyParentExecutionPayload_parts _ _ happly
  obtain ⟨run⟩ := runWithdrawals_run _ hrun
  have hstart : h.header.nextWithdrawalIndex = s.nextWithdrawalIndex :=
    h.header_execution.next.trans happlied.execution.2.2.2
  refine ⟨run.expected, run.expected_eq, ?_, hstart ▸ run.collected.indices, ?_⟩
  · rw [h.after_withdrawals.1, run.outstanding]
  · rw [h.after_withdrawals.2, run.next, hstart]

/-- One block: what it debits is defined, and it hands on as its parent was full or empty. -/
theorem stateTransition_handsOn {b : SignedBeaconBlock} (h : s.stateTransition b = .ok s') :
    ∃ debited, s.debitedBy b = .ok debited ∧ HandsOn s s' debited (s.deliveredTo b) := by
  obtain ⟨pre, hpre, hblock, -⟩ := stateTransition_parts h
  obtain ⟨phases⟩ := processBlock_phases hblock
  have hsame := processSlots_execution hpre
  have hcarry : HandsOn s pre [] [] :=
    ⟨by rw [hsame.outstanding, append_nil, nil_append], rfl, by rw [hsame.next]; rfl⟩
  unfold debitedBy deliveredTo
  rw [hpre, ok_bind, phases.parent_eq, ok_bind, phases.header_eq, ok_bind]
  by_cases hfull : b.message.bid.parentBlockHash = pre.latestExecutionPayloadBid.blockHash
  · obtain ⟨e, he, hhands⟩ := phases.handsOn_full hfull
    rw [if_neg (not_not_intro (phases.parentDecision.agree.2 hfull)), he,
      if_pos (hsame.bid ▸ hfull)]
    refine ⟨e.withdrawals, rfl, ?_⟩
    have := hcarry.trans hhands
    rwa [nil_append, nil_append, hsame.outstanding] at this
  · rw [if_pos (fun heq => hfull (phases.parentDecision.agree.1 heq)),
      if_neg (fun heq => hfull (hsame.bid ▸ heq))]
    exact ⟨[], rfl, hcarry.trans (phases.handsOn_empty hfull)⟩

/-- The payload of a block has to carry the outstanding withdrawals of its state. -/
theorem verifyExecutionPayloadEnvelope_withdrawals {e : SignedExecutionPayloadEnvelope}
    (h : s.verifyExecutionPayloadEnvelope e = .ok ()) :
    e.message.payload.withdrawals = s.payloadExpectedWithdrawals := by
  unfold verifyExecutionPayloadEnvelope validateExecutionPayloadEnvelope at h
  -- two roots and the signature, seven checks of the bid, the timestamp, then the withdrawals
  simp only [bind_eq_ok] at h
  obtain ⟨_, -, _, -, _, -, _, -, _, -, _, -, _, -, _, -, _, -, _, -, _, -, _, -, h⟩ := h
  exact ensure_eq_ok.1 h

/-- Along every chain of accepted blocks, the withdrawals outstanding at its start and all that it
debits are, in order, those its full blocks have to deliver and those outstanding at its tip. -/
theorem withdrawals_handedOn {blocks : List SignedBeaconBlock} {tip : BeaconState}
    (h : blocks.foldlM stateTransition s = .ok tip) :
    (∃ ledger, s.followChain blocks = .ok ledger ∧ ledger.tip = tip ∧
      HandsOn s tip ledger.debited ledger.delivered) ∧
    ∀ (post : BeaconState) (e : SignedExecutionPayloadEnvelope),
      post.verifyExecutionPayloadEnvelope e = .ok () →
      e.message.payload.withdrawals = post.payloadExpectedWithdrawals := by
  refine ⟨?_, fun _ _ => verifyExecutionPayloadEnvelope_withdrawals⟩
  induction blocks generalizing s with
  | nil =>
    rw [foldlM_nil_eq_ok] at h
    subst h
    exact ⟨⟨[], [], s⟩, rfl, rfl, .refl s⟩
  | cons b blocks ih =>
    obtain ⟨next, hnext, h⟩ := foldlM_cons_eq_ok.1 h
    obtain ⟨debited, hdebited, hhands⟩ := stateTransition_handsOn hnext
    obtain ⟨rest, hrest, htip, hlater⟩ := ih h
    refine ⟨⟨debited ++ rest.debited, s.deliveredTo b ++ rest.delivered, rest.tip⟩, ?_, htip,
      hhands.trans hlater⟩
    unfold followChain
    rw [hdebited, ok_bind, hnext, ok_bind, hrest]
    rfl

end BeaconState

end Moonglass

namespace Moonglass.Devnet

open Lib

/-- A block of slot 1 on top of the payload of the genesis block. -/
def fullBlock : SignedBeaconBlock := ⟨fullChild 1 genesis, zeros 96⟩

/-- The genesis state, with a partial withdrawal of the first validator in the queue. -/
def queuedPartial : BeaconState :=
  { anchorState 0 with pendingPartialWithdrawals := ⟨[⟨0, 6, 0⟩], by decide⟩ }

/-- One block on top of a full parent, which debits the queued withdrawal. -/
theorem withdrawals_handedOn_fullBlock : ∃ tip ledger,
    [fullBlock].foldlM BeaconState.stateTransition queuedPartial = .ok tip ∧
    queuedPartial.followChain [fullBlock] = .ok ledger ∧
    queuedPartial.HandsOn tip ledger.debited ledger.delivered := by
  obtain ⟨tip, htip⟩ := exists_ok_of_isOk (show ([fullBlock].foldlM BeaconState.stateTransition
    queuedPartial).isOk = true by decide +kernel)
  obtain ⟨ledger, hledger, -, hhands⟩ := (BeaconState.withdrawals_handedOn htip).1
  exact ⟨tip, ledger, htip, hledger, hhands⟩

end Moonglass.Devnet
