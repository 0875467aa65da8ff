import Moonglass.StateTransition.Solvency

/-
  The queues of the withdrawal phase name registered entries. A partial withdrawal is queued for a
  validator that its key was found at, a payment to a builder comes from an accepted bid, and the
  two registries never shrink. So if all that can come to a queue is registered at the start of a
  run, the queues never name anyone else.
-/

namespace Moonglass

open Lib

variable [Preset]

namespace BeaconState

variable {s s' : BeaconState} {block : BeaconBlock} {n m : Nat}

/-- The two queues that the withdrawal phase pays from name registered validators and builders. -/
structure QueuesRegistered (s : BeaconState) : Prop where
  partials : ∀ p ∈ s.pendingPartialWithdrawals.toList, p.validatorIndex.val < s.validators.length
  payouts : ∀ p ∈ s.builderPendingWithdrawals.toList, p.builderIndex.val < s.builders.length

/-! ## Builders -/

/-- The payment is blank, or for one of the first `n` builders. -/
def PaysWithin (n : Nat) (p : BuilderPendingPayment) : Prop :=
  p = .default ∨ p.withdrawal.builderIndex.val < n

/-- What is owed to builders, or will be if the latest bid counts as full, is owed to the first `n`
of them. -/
structure OwedWithin (n : Nat) (s : BeaconState) : Prop where
  queue : ∀ w ∈ s.builderPendingWithdrawals.toList, w.builderIndex.val < n
  window : ∀ (i : Nat) p, s.builderPendingPayments[i]? = some p → PaysWithin n p
  bid : 0 < s.latestExecutionPayloadBid.value.val →
    s.latestExecutionPayloadBid.builderIndex.val < n

theorem OwedWithin.slotStep [Crypto] (h : OwedWithin n s) (hs : s.advanceSlot = .ok s') :
    OwedWithin n s' := by
  have hpaid := advanceSlot_payments hs
  have hbid := hpaid.bid ▸ h.bid
  by_cases hboundary : s'.slot.val % slotsPerEpoch = 0
  · obtain ⟨threshold, hthreshold, hwindow, hqueue⟩ := hpaid.boundary hboundary
    have hpos := paymentQuorum_pos threshold hthreshold
    refine ⟨?_, ?_, hbid⟩
    · rw [hqueue, List.forall_mem_append]
      refine ⟨h.queue, fun w hw => ?_⟩
      obtain ⟨p, hp, rfl⟩ := List.mem_map.1 hw
      obtain ⟨hp, hweight⟩ := List.mem_filter.1 hp
      obtain ⟨i, hi⟩ := List.getElem?_of_mem (List.mem_of_mem_take hp)
      rw [Vector.getElem?_toList] at hi
      exact (h.window i p hi).resolve_left (ne_default_of_weight hpos (of_decide_eq_true hweight))
    · intro i p hp
      rw [hwindow] at hp
      exact (of_getElem?_shiftWindow hp).elim .inl (h.window _ p)
  · obtain ⟨hwindow, hqueue⟩ := hpaid.inner hboundary
    exact ⟨hqueue ▸ h.queue, hwindow ▸ h.window, hbid⟩

/-- What a block releases for its parent was owed. -/
theorem OwedWithin.parent_queue [Crypto] (h : OwedWithin n s)
    (hparent : s.processParentExecutionPayload block = .ok s') :
    ∀ w ∈ s'.builderPendingWithdrawals.toList, w.builderIndex.val < n := by
  rw [(processParentExecutionPayload_payments hparent).2, List.forall_mem_append]
  refine ⟨h.queue, fun w hw => ?_⟩
  unfold released at hw
  split at hw
  · rcases mem_parentRelease.1 hw with ⟨-, hvalue, rfl⟩ | ⟨p, hp, hpos, rfl⟩
    · exact h.bid hvalue
    · obtain ⟨i, -, hp⟩ := Option.bind_eq_some_iff.1 hp
      refine (h.window i p hp).resolve_left ?_
      rintro rfl
      exact absurd hpos (by decide)
  · cases hw

theorem OwedWithin.settled (h : OwedWithin n s) {i : Nat} {p : BuilderPendingPayment}
    (hp : (s.settledPayments block)[i]? = some p) : PaysWithin n p := by
  unfold settledPayments clearedPayments at hp
  split at hp
  · split at hp
    · rw [Vector.getElem?_setIfInBounds] at hp
      split at hp
      · split at hp
        · exact .inl (Option.some.inj hp).symm
        · cases hp
      · exact h.window i p hp
    · exact h.window i p hp
  · exact h.window i p hp

/-- A bid with a value is of a registered builder. -/
theorem BlockPhases.bid_registered [Crypto] (h : BlockPhases s block s')
    (hvalue : 0 < block.bid.value.val) : block.bid.builderIndex.val < s'.builders.length := by
  obtain ⟨b, hb, -⟩ := h.bid_reserve (h.signer hvalue)
  rw [h.builders_after]
  exact (List.getElem?_eq_some_iff.1 hb).1

theorem OwedWithin.blockStep [Crypto] (h : OwedWithin n s) (hs : s.processBlock block = .ok s')
    (hle : n ≤ s'.builders.length) : OwedWithin s'.builders.length s' := by
  obtain ⟨phases⟩ := processBlock_phases hs
  obtain ⟨-, -, hqueue, hwindow⟩ := phases.bid_payments
  obtain ⟨paid, hheader⟩ := phases.withdrawals_payments.2
  rw [phases.header_payments.2.1] at hheader
  refine ⟨fun w hw => ?_, fun i p' hp' => ?_, ?_⟩
  · rw [phases.tends.queue, hqueue] at hw
    exact (h.parent_queue phases.parent_eq w (hheader ▸ List.mem_append_right _ hw)).trans_le hle
  · obtain ⟨p, hp, htended⟩ := phases.tends.payment_of hp'
    have hrecorded : PaysWithin s'.builders.length p := by
      rw [hwindow, recordedPayments] at hp
      split at hp
      · exact (h.settled hp).imp_right (·.trans_le hle)
      · rename_i hvalue
        rw [Vector.getElem?_setIfInBounds] at hp
        split at hp
        · split at hp
          · cases hp
            exact .inr (phases.bid_registered (Nat.pos_of_ne_zero hvalue))
          · cases hp
        · exact (h.settled hp).imp_right (·.trans_le hle)
    rcases htended with rfl | ⟨-, rfl⟩ | ⟨-, hpos, hweighed⟩
    · exact hrecorded
    · exact .inl rfl
    · rw [hweighed]
      refine .inr (hrecorded.resolve_left ?_)
      rintro rfl
      exact absurd hpos (by decide)
  · rw [phases.execution.1]
    exact phases.bid_registered

end BeaconState

/-! ## The registries -/

/-- Neither registry shrinks. -/
theorem RegistryMove.lengths_le {p : Phase} {r r' : Registry} (move : RegistryMove p r r') :
    r.validators.length ≤ r'.validators.length ∧ r.builderKeys.length ≤ r'.builderKeys.length := by
  refine ⟨?_, ?_⟩
  · rcases move.grows with hsame | ⟨v, -, hpushed⟩
    · exact hsame.ge
    · rw [hpushed, List.length_append]
      exact Nat.le_add_right _ _
  · cases move with
    | build hkeys =>
      obtain ⟨key, -, rfl | ⟨i, rfl⟩⟩ := hkeys
      · rw [List.length_append]
        exact Nat.le_add_right _ _
      · rw [List.length_set]
    | _ => exact le_rfl

/-- The queued partial withdrawals name registered validators. -/
def Registry.PartialsRegistered (r : Registry) : Prop :=
  ∀ p ∈ r.pendingPartialWithdrawals, p.validatorIndex.val < r.validators.length

theorem RegistryMove.partialsRegistered {p : Phase} {r r' : Registry} (move : RegistryMove p r r')
    (h : r.PartialsRegistered) : r'.PartialsRegistered := by
  have hle := move.lengths_le.1
  cases move with
  | queuePartial hindex hat =>
    exact List.forall_mem_append.2 ⟨h, List.forall_mem_singleton.2 hindex⟩
  | dropPartials => exact fun p hp => h p (List.mem_of_mem_drop hp)
  | _ => exact fun p hp => (h p hp).trans_le hle

theorem BeaconState.Moves.builders_le {p : Phase} {s s' : BeaconState} (h : Moves p s s') :
    s.builders.length ≤ s'.builders.length := by
  have hkeys : s.registry.builderKeys.length ≤ s'.registry.builderKeys.length :=
    h.inv (P := fun r => s.registry.builderKeys.length ≤ r.builderKeys.length)
      (fun move hle => hle.trans move.lengths_le.2) le_rfl
  exact (List.length_map _).ge.trans (hkeys.trans (List.length_map _).le)

/-! ## Runs -/

namespace BeaconState

/-- All that is in a queue of the withdrawal phase, or can come to one without a new request or bid,
is registered. -/
structure EntriesRegistered (s : BeaconState) : Prop where
  partials : s.registry.PartialsRegistered
  owed : OwedWithin s.builders.length s

theorem EntriesRegistered.queues {s : BeaconState} (h : s.EntriesRegistered) :
    s.QueuesRegistered := ⟨h.partials, h.owed.queue⟩

end BeaconState

open BeaconState

variable {s s' : BeaconState} {events : List ChainEvent}

/-- Registered entries stay registered along every run. -/
theorem Runs.entriesRegistered [Crypto] (h : Runs s events s') (hs : s.EntriesRegistered) :
    s'.EntriesRegistered := by
  refine ⟨h.registry_inv (fun move => move.partialsRegistered) (fun _ h => h) hs.partials, ?_⟩
  have howed := hs.owed
  clear hs
  induction h with
  | nil => exact howed
  | @cons e es s' head tail ih =>
    refine ih ?_
    cases hblock : e.block with
    | none =>
      have hslot := head.advanced hblock
      rw [(advanceSlot_payments hslot).builders]
      exact howed.slotStep hslot
    | some block =>
      have hprocessed := head.processed hblock
      exact howed.blockStep hprocessed (processBlock_registryMoves hprocessed).builders_le

/-- They are registered when a block comes to its withdrawals, too. -/
theorem BeaconState.EntriesRegistered.header [Crypto] {block : BeaconBlock}
    {parent header : BeaconState}
    (h : s.EntriesRegistered) (hparent : s.processParentExecutionPayload block = .ok parent)
    (hheader : parent.processBlockHeader block = .ok header) : header.QueuesRegistered := by
  have hmoves := beforeWithdrawals_moves hparent hheader
  refine ⟨hmoves.inv (fun move => move.partialsRegistered) h.partials, fun w hw => ?_⟩
  have hqueue : header.builderPendingWithdrawals = parent.builderPendingWithdrawals := by
    rw [processBlockHeader_writes _ _ hheader]
  rw [hqueue] at hw
  exact (h.owed.parent_queue hparent w hw).trans_le hmoves.builders_le

end Moonglass
