import Moonglass.StateTransition.PaidOnce
import Moonglass.Lib.Tally
import Mathlib.Data.Nat.ModEq

/-
  What builders owe. A builder pays the entries of the queue and of the window that name it, and,
  if a child counts the latest bid as full, the latest bid. These obligations stay below its
  balance, and a builder that has any has not exited. The one step that can break this is the exit
  of a builder whose own bid is the full parent's and older than the window: the check on its
  pending balance no longer sees the bid, and the bid is queued right after.
-/

namespace Moonglass

open Lib BoundedList Word

variable [Preset]
variable {b : Builder} {o o' o'' : Option Builder} {requests : ExecutionRequests}
  {P : BeaconState → Prop}

/-- What an entry takes from a builder. -/
def BuilderPendingWithdrawal.due (index : BuilderIndex) (w : BuilderPendingWithdrawal) : Nat :=
  if w.builderIndex = index then w.amount.val else 0

/-- The amount of a payment of the window, as far as it is the builder's. -/
def BuilderPendingPayment.due (index : BuilderIndex) (p : BuilderPendingPayment) : Nat :=
  p.withdrawal.due index

omit [Preset] in
theorem BuilderPendingPayment.due_default (index : BuilderIndex) :
    BuilderPendingPayment.default.due index = 0 := by
  unfold BuilderPendingPayment.due BuilderPendingWithdrawal.due
  split <;> rfl

namespace BeaconState

variable {s s' : BeaconState} {block : BeaconBlock} {blocks : List BeaconBlock}
variable {index : BuilderIndex} {n : Nat}

/-! ## Obligations -/

/-- What the queue and the window take from a builder. -/
def pending (s : BeaconState) (index : BuilderIndex) : Nat :=
  tally (BuilderPendingWithdrawal.due index) s.builderPendingWithdrawals.toList +
    tally (BuilderPendingPayment.due index) s.builderPendingPayments.toList

/-- What may still be taken from a builder: the queue, the window apart from the latest bid, and the
latest bid. -/
def obligations (s : BeaconState) (index : BuilderIndex) : Nat :=
  tally (BuilderPendingWithdrawal.due index) s.builderPendingWithdrawals.toList +
    tally (BuilderPendingPayment.due index) s.clearedPayments.toList +
    s.latestExecutionPayloadBid.payment.due index

theorem getPendingBalanceToWithdrawForBuilder_eq :
    Ensures (s.getPendingBalanceToWithdrawForBuilder index) fun total =>
      total.val = s.pending index := by
  intro total h
  rw [checkedSum_eq_ok h, List.map_append, List.sum_append, List.map_map, List.map_map]
  unfold pending
  congr 1
  · refine (tally_filter (f := fun w : BuilderPendingWithdrawal => w.amount.val) _ _).trans ?_
    simp only [decide_eq_true_eq]
    rfl
  · refine (tally_filter (f := fun p : BuilderPendingPayment => p.withdrawal.amount.val)
      _ _).trans ?_
    simp only [decide_eq_true_eq]
    rfl

theorem clearedPayments_tallyAt (s : BeaconState) (i : Nat) :
    tallyAt (BuilderPendingPayment.due index) s.clearedPayments.toList i =
      if windowIndex slotsPerEpoch s.slot.epoch.val s.latestExecutionPayloadBid.slot.val = some i
      then 0 else tallyAt (BuilderPendingPayment.due index) s.builderPendingPayments.toList i := by
  unfold clearedPayments
  rw [builderPaymentIndexForSlot_eq]
  cases hi : windowIndex slotsPerEpoch s.slot.epoch.val s.latestExecutionPayloadBid.slot.val with
  | none => simp
  | some j =>
    dsimp only
    rw [Vector.toList_setIfInBounds, tallyAt_set_blank (BuilderPendingPayment.due_default index)]
    simp

theorem clearedPayments_le (s : BeaconState) (index : BuilderIndex) :
    tally (BuilderPendingPayment.due index) s.clearedPayments.toList ≤
      tally (BuilderPendingPayment.due index) s.builderPendingPayments.toList := by
  refine tally_le_tally fun i => ?_
  rw [clearedPayments_tallyAt]
  split
  · exact Nat.zero_le _
  · exact le_rfl

/-- The payment of the latest bid is what the window holds for it, if it holds anything. -/
theorem Booked.latest_payment (h : Booked blocks s) {p : BuilderPendingPayment}
    (hp : s.paymentOf s.latestExecutionPayloadBid.slot.val = some p) (hne : p ≠ .default) :
    p.withdrawal = s.latestExecutionPayloadBid.payment ∧ p.weight.val = 0 := by
  obtain ⟨b, hb, hslot, -, hw, hweight⟩ := (h.payment hp).resolve_left hne
  obtain ⟨b', hb', hlatest⟩ := h.latest.resolve_left fun hnil => by
    rw [hnil.1] at hb
    cases hb
  have hsame : b = b' := by
    refine h.distinct b hb b' hb' (Fin.ext ?_)
    rw [hslot, ← hlatest, h.slot b' hb']
  rw [hsame, hlatest] at hw
  exact ⟨hw, hweight rfl⟩

theorem Booked.window_le (h : Booked blocks s) (index : BuilderIndex) :
    tally (BuilderPendingPayment.due index) s.builderPendingPayments.toList ≤
      tally (BuilderPendingPayment.due index) s.clearedPayments.toList +
        s.latestExecutionPayloadBid.payment.due index := by
  unfold clearedPayments
  rw [builderPaymentIndexForSlot_eq]
  cases hi : windowIndex slotsPerEpoch s.slot.epoch.val s.latestExecutionPayloadBid.slot.val with
  | none => exact Nat.le_add_right _ _
  | some i =>
    dsimp only
    have hset := tally_set_blank (BuilderPendingPayment.due_default index)
      s.builderPendingPayments.toList i
    have hat : tallyAt (BuilderPendingPayment.due index) s.builderPendingPayments.toList i ≤
        s.latestExecutionPayloadBid.payment.due index := by
      have hlt : i < builderPaymentWindowLen := ((windowIndex_eq_some slotsPerEpoch_pos).1 hi).1
      have hp : s.paymentOf s.latestExecutionPayloadBid.slot.val =
          some s.builderPendingPayments[i] := by
        unfold paymentOf windowAt
        rw [hi, Option.bind_some, Vector.getElem?_eq_getElem hlt]
      rw [tallyAt_of_some (a := s.builderPendingPayments[i]) (by simp [hlt])]
      by_cases hblank : s.builderPendingPayments[i] = .default
      · rw [hblank, BuilderPendingPayment.due_default]
        exact Nat.zero_le _
      · unfold BuilderPendingPayment.due
        rw [(h.latest_payment hp hblank).1]
    rw [Vector.toList_setIfInBounds]
    omega

theorem Booked.release_le (h : Booked blocks s) (index : BuilderIndex) :
    tally (BuilderPendingWithdrawal.due index) s.parentRelease ≤
      s.latestExecutionPayloadBid.payment.due index := by
  rw [parentRelease_eq]
  split
  · rename_i p hp
    split
    · rename_i hpos
      have hne : p ≠ .default := by
        rintro rfl
        exact absurd hpos (by decide)
      rw [tally_cons, tally_nil, (h.latest_payment hp hne).1]
      exact le_rfl
    · exact Nat.zero_le _
  · split
    · rw [tally_cons, tally_nil]
      exact le_rfl
    · exact Nat.zero_le _

theorem Booked.pending_le (h : Booked blocks s) (index : BuilderIndex) :
    s.pending index ≤ s.obligations index := by
  have := h.window_le index
  unfold pending obligations
  omega

/-- After the parent phase nothing more is pending than was owed before. -/
theorem Booked.pending_parent_le [Crypto] (h : Booked blocks s) (phases : BlockPhases s block s')
    (index : BuilderIndex) : phases.parent.pending index ≤ s.obligations index := by
  have hrelease := h.release_le index
  have hwindow := h.window_le index
  unfold pending obligations
  rw [phases.parent_payments.1, phases.parent_payments.2, tally_append]
  unfold settledPayments released
  split
  · omega
  · rw [tally_nil]
    omega

/-! ## Builders -/

/-- The builder is registered, has not exited, and has at least `n`. -/
def Funded (s : BeaconState) (index : BuilderIndex) (n : Nat) : Prop :=
  ∃ b, s.builders.get? index.val = some b ∧ b.withdrawableEpoch = farFutureEpoch ∧
    n ≤ b.balance.val

/-- The builder is registered and has exited. -/
def Exited (s : BeaconState) (index : BuilderIndex) : Prop :=
  ∃ b, s.builders.get? index.val = some b ∧ b.withdrawableEpoch ≠ farFutureEpoch

theorem Funded.mono {m : Nat} (h : s.Funded index n) (hle : m ≤ n) : s.Funded index m := by
  obtain ⟨b, hb, hfar, hn⟩ := h
  exact ⟨b, hb, hfar, hle.trans hn⟩

theorem Funded.of_builders (h : s.Funded index n) (heq : s'.builders = s.builders) :
    s'.Funded index n := by
  unfold Funded
  rw [heq]
  exact h

theorem not_farFuture_le (slot : Slot) : ¬farFutureEpoch ≤ slot.epoch := by
  intro hle
  have hle : farFutureEpoch.val ≤ slot.epoch.val := hle
  have := epoch_lt_farFuture slot
  omega

/-- The place of a new builder is free: it is past the end, or its builder has left. -/
theorem getIndexForNewBuilder_spec {i : Nat} (hi : s.getIndexForNewBuilder = i)
    (hb : s.builders.get? i = some b) : b.withdrawableEpoch ≤ s.slot.epoch ∧ b.balance.val = 0 := by
  unfold getIndexForNewBuilder at hi
  obtain ⟨hlt, hget⟩ := List.getElem?_eq_some_iff.1 hb
  have := List.findIdx_getElem (p := fun b : Builder =>
    b.withdrawableEpoch ≤ s.slot.epoch && b.balance == 0) (w := hi ▸ hlt)
  simp only [hi, hget, Bool.and_eq_true, decide_eq_true_eq, beq_iff_eq] at this
  exact ⟨this.1, congrArg Fin.val this.2⟩

theorem delay_le : minBuilderWithdrawabilityDelay ≤ 8192 := by
  unfold minBuilderWithdrawabilityDelay pick
  split <;> decide

/-- The epoch from which an exiting builder may withdraw is not the far future. -/
theorem withdrawable_ne_farFuture {slot : Slot} {epoch : Epoch}
    (h : slot.epoch.checkedAdd minBuilderWithdrawabilityDelay = some epoch) :
    epoch ≠ farFutureEpoch := by
  rintro rfl
  rw [checkedAdd_eq_some] at h
  have := epoch_lt_farFuture slot
  have := delay_le
  omega

/-- What deposits make of a place of the registry: they leave it free, keep its builder, with at
least its balance and exited if it had, put a new one in the place of one that has left with nothing,
or add a new one. -/
inductive DepositedAt : Option Builder → Option Builder → Prop
  | free : DepositedAt none none
  | kept {b b' : Builder} (pubkey : b'.pubkey = b.pubkey) (balance : b.balance.val ≤ b'.balance.val)
      (exited : b'.withdrawableEpoch = farFutureEpoch ↔ b.withdrawableEpoch = farFutureEpoch) :
      DepositedAt (some b) (some b')
  | replaced {b b' : Builder} (left : b.withdrawableEpoch ≠ farFutureEpoch)
      (balance : b.balance.val = 0) (pubkey : b'.pubkey ≠ b.pubkey)
      (fresh : b'.withdrawableEpoch = farFutureEpoch) : DepositedAt (some b) (some b')
  | added {b : Builder} (fresh : b.withdrawableEpoch = farFutureEpoch) : DepositedAt none (some b)

omit [Preset] in
theorem DepositedAt.refl (o : Option Builder) : DepositedAt o o := by
  cases o with
  | none => exact .free
  | some b => exact .kept rfl le_rfl Iff.rfl

omit [Preset] in
theorem DepositedAt.trans (h : DepositedAt o o') (h' : DepositedAt o' o'') : DepositedAt o o'' := by
  cases h with
  | free => exact h'
  | kept pubkey balance exited =>
    cases h' with
    | kept pubkey' balance' exited' =>
      exact .kept (pubkey'.trans pubkey) (balance.trans balance') (exited'.trans exited)
    | replaced left balance' pubkey' fresh =>
      exact .replaced (fun h => left (exited.2 h)) (by omega) (pubkey ▸ pubkey') fresh
  | replaced left balance pubkey fresh =>
    cases h' with
    | kept pubkey' _ exited' => exact .replaced left balance (pubkey' ▸ pubkey) (exited'.2 fresh)
    | replaced left' _ _ _ => exact absurd fresh left'
  | added fresh =>
    cases h' with
    | kept _ _ exited' => exact .added (exited'.2 fresh)
    | replaced left' _ _ _ => exact absurd fresh left'

theorem processBuilderDepositRequest_record [Crypto] (request : BuilderDepositRequest)
    (index : BuilderIndex) : Ensures (s.processBuilderDepositRequest request) fun s' =>
      DepositedAt (s.builders.get? index.val) (s'.builders.get? index.val) := by
  have hsame := DepositedAt.refl (s.builders.get? index.val)
  unfold processBuilderDepositRequest
  cases hfind : s.builderIndex request.pubkey with
  | none =>
    refine .ite ?_ (.pure hsame)
    unfold addBuilderToRegistry
    refine .ite (.pure ?_) ?_
    · dsimp only
      rw [get?_set]
      by_cases hplace : s.getIndexForNewBuilder = index.val
      · rw [if_pos hplace]
        cases hb : s.builders.get? index.val with
        | none => exact .free
        | some b =>
          -- the new builder has a key that no builder had
          have hnew : request.pubkey ≠ b.pubkey := by
            intro heq
            unfold builderIndex at hfind
            rw [Option.map_eq_none_iff, List.findIdx?_eq_none_iff] at hfind
            have := hfind b (List.mem_of_getElem? hb)
            rw [heq] at this
            simp at this
          obtain ⟨hgone, hzero⟩ := getIndexForNewBuilder_spec hplace hb
          exact .replaced (fun hfar => not_farFuture_le _ (hfar ▸ hgone)) hzero hnew rfl
      · rw [if_neg hplace]
        exact hsame
    · refine .found push_eq_some.1 fun builders hpush => ?_
      refine .pure ?_
      unfold BoundedList.get? at hsame ⊢
      dsimp only
      rw [hpush.2, List.getElem?_append]
      split
      · exact hsame
      · rename_i hlen
        rw [List.getElem?_eq_none (Nat.not_lt.1 hlen), List.getElem?_singleton]
        split
        · exact .added rfl
        · exact .free
  | some i =>
    refine .lookup fun b hb => ?_
    refine .lookup fun balance hbalance => ?_
    rw [checkedAdd_eq_some] at hbalance
    have hset : ∀ epoch, (epoch = farFutureEpoch ↔ b.withdrawableEpoch = farFutureEpoch) →
        DepositedAt (s.builders.get? index.val)
          ((s.builders.set i.val { b with balance, withdrawableEpoch := epoch }).get?
            index.val) := by
      intro epoch hepoch
      rw [get?_set]
      by_cases hi : i.val = index.val
      · rw [if_pos hi, ← hi, hb]
        exact .kept rfl (by dsimp only; omega) hepoch
      · rw [if_neg hi]
        exact hsame
    refine .dite (fun hleft => ?_) fun hstays => ?_
    · refine .lookup fun epoch hepoch => .pure (hset epoch ?_)
      exact iff_of_false (withdrawable_ne_farFuture hepoch) hleft
    · exact .pure (hset b.withdrawableEpoch Iff.rfl)

theorem processBuilderDepositRequests_record [Crypto] {requests : List BuilderDepositRequest}
    (index : BuilderIndex) : Ensures (requests.foldlM processBuilderDepositRequest s) fun s' =>
      DepositedAt (s.builders.get? index.val) (s'.builders.get? index.val) :=
  .rel_foldlM (R := fun a b : BeaconState =>
      DepositedAt (a.builders.get? index.val) (b.builders.get? index.val))
    (fun _ => .refl _) .trans fun request _ => processBuilderDepositRequest_record request index

/-- What exit requests make of a place: nothing, or its builder exits, which had not, and which
owed nothing. -/
inductive LeftAt (unowed : Prop) : Option Builder → Option Builder → Prop
  | kept (o : Option Builder) : LeftAt unowed o o
  | left {b : Builder} {epoch : Epoch} (stayed : b.withdrawableEpoch = farFutureEpoch)
      (owes : unowed) (gone : epoch ≠ farFutureEpoch) :
      LeftAt unowed (some b) (some { b with withdrawableEpoch := epoch })

omit [Preset] in
theorem LeftAt.trans {unowed : Prop} (h : LeftAt unowed o o') (h' : LeftAt unowed o' o'') :
    LeftAt unowed o o'' := by
  cases h with
  | kept => exact h'
  | left stayed owes gone =>
    cases h' with
    | kept => exact .left stayed owes gone
    | left stayed' _ _ => exact absurd stayed' gone

theorem processBuilderExitRequest_record (request : BuilderExitRequest) (index : BuilderIndex) :
    Ensures (s.processBuilderExitRequest request) fun s' => LeftAt (s.pending index = 0)
      (s.builders.get? index.val) (s'.builders.get? index.val) := by
  unfold processBuilderExitRequest
  cases s.builderIndex request.pubkey with
  | none => exact .pure (.kept _)
  | some i =>
    refine .bind (Q := fun active => active = true → ∃ b, s.builders.get? i.val = some b ∧
      b.withdrawableEpoch = farFutureEpoch) ?_ fun active hactive => ?_
    · unfold isActiveBuilder
      refine .lookup fun b hb => .pure fun h => ⟨b, hb, ?_⟩
      simp only [Bool.and_eq_true, beq_iff_eq] at h
      exact h.2
    refine .dite (fun _ => .pure (.kept _)) fun h => .skip fun _ => .ite (.pure (.kept _)) ?_
    obtain ⟨b, hb, hfar⟩ := hactive (by simpa using h)
    refine .bind getPendingBalanceToWithdrawForBuilder_eq fun total htotal => ?_
    refine .dite (fun _ => .pure (.kept _)) fun hzero => ?_
    unfold initiateBuilderExit
    refine .skip fun _ => .lookup fun epoch hepoch => .pure ?_
    dsimp only
    rw [get?_modify]
    by_cases hi : i = index
    · subst hi
      rw [if_pos rfl, hb]
      refine .left hfar ?_ (withdrawable_ne_farFuture hepoch)
      rw [← htotal, not_not.1 hzero]
      rfl
    · rw [if_neg fun h => hi (Fin.ext h)]
      exact .kept _

theorem processBuilderExitRequests_record {requests : List BuilderExitRequest}
    (index : BuilderIndex) : Ensures (requests.foldlM processBuilderExitRequest s) fun s' =>
      LeftAt (s.pending index = 0) (s.builders.get? index.val) (s'.builders.get? index.val) := by
  refine .imp (Q := fun s' => s'.pending index = s.pending index ∧ LeftAt (s.pending index = 0)
    (s.builders.get? index.val) (s'.builders.get? index.val)) ?_ fun _ h => h.2
  refine .foldlM (fun request t ⟨hpending, ht⟩ t' ht' => ⟨?_, ?_⟩) ⟨rfl, .kept _⟩
  · rw [processBuilderExitRequest_eq request t' ht']
    exact hpending
  · have hstep := processBuilderExitRequest_record request index t' ht'
    rw [hpending] at hstep
    exact ht.trans hstep

/-! ## The parent phase -/

/-- The block exits the builder of the full parent's bid, and the bid is older than the window. -/
def LateExit [Crypto] (s : BeaconState) (block : BeaconBlock) : Prop :=
  block.bid.parentBlockHash = s.latestExecutionPayloadBid.blockHash ∧
    s.builderPaymentIndexForSlot s.latestExecutionPayloadBid.slot = none ∧
    0 < s.latestExecutionPayloadBid.value.val ∧
    (∃ b, s.builders.get? s.latestExecutionPayloadBid.builderIndex.val = some b ∧
      b.withdrawableEpoch = farFutureEpoch) ∧
    ∃ s', s.processParentExecutionPayload block = .ok s' ∧
      s'.Exited s.latestExecutionPayloadBid.builderIndex

/-- Every builder covers its obligations, and has not exited while it has any. -/
def Solvent (s : BeaconState) : Prop :=
  ∀ index, 0 < s.obligations index → s.Funded index (s.obligations index)

/-- Every builder covers what is pending. -/
def Covering (s : BeaconState) : Prop :=
  ∀ index, 0 < s.pending index → s.Funded index (s.pending index)

/-- The requests of the parent's payload at a place of the registry: the deposits, then the exits. -/
theorem ParentApplied.record [Crypto] (h : ParentApplied s requests s') (index : BuilderIndex) :
    ∃ o o', s'.builders.get? index.val = o' ∧
      DepositedAt (s.builders.get? index.val) o ∧ LeftAt (s.pending index = 0) o o' := by
  have hview := h.untouched.payload
  have hpending : h.deposited.pending index = s.pending index := by
    rw [foldlM_builders (fun r _ => processBuilderDepositRequest_eq r) _ h.deposited_eq]
    unfold BeaconState.pending
    dsimp only
    rw [show h.validated.builderPendingWithdrawals = s.builderPendingWithdrawals from
        congrArg PayloadView.builderPendingWithdrawals hview,
      show h.validated.builderPendingPayments = s.builderPendingPayments from
        congrArg PayloadView.builderPendingPayments hview]
  have hdeposited := processBuilderDepositRequests_record index _ h.deposited_eq
  have hexited := processBuilderExitRequests_record index _ h.exited_eq
  rw [show h.validated.builders = s.builders from congrArg PayloadView.builders hview] at hdeposited
  rw [hpending, ← h.payments.2.2.1] at hexited
  exact ⟨_, _, rfl, hdeposited, hexited⟩

/-- A funded builder stays so, or exits with nothing pending. -/
theorem ParentApplied.funded [Crypto] (h : ParentApplied s requests s') (hs : s.Funded index n) :
    s'.Funded index n ∨ s.pending index = 0 ∧ s'.Exited index := by
  obtain ⟨b, hb, hfar, hn⟩ := hs
  obtain ⟨o, o', hb', hdeposited, hexits⟩ := h.record index
  rw [hb] at hdeposited
  cases hdeposited with
  | kept _ balance exited =>
    cases hexits with
    | kept => exact .inl ⟨_, hb', exited.2 hfar, hn.trans balance⟩
    | left _ unowed gone => exact .inr ⟨unowed, _, hb', gone⟩
  | replaced left _ _ _ => exact absurd hfar left

/-- A builder that the requests of the parent's payload find without a pending entry has none after
the settlement either, unless the bid was older than the window. -/
theorem parentRelease_due_pos (hpending : s.pending index = 0)
    (hpos : 0 < tally (BuilderPendingWithdrawal.due index) s.parentRelease) :
    s.builderPaymentIndexForSlot s.latestExecutionPayloadBid.slot = none ∧
      0 < s.latestExecutionPayloadBid.value.val ∧
      s.latestExecutionPayloadBid.builderIndex = index := by
  unfold BeaconState.pending at hpending
  unfold parentRelease at hpos
  split at hpos
  · split at hpos
    · rename_i p hp
      have hle : p.due index ≤ tally (BuilderPendingPayment.due index)
          s.builderPendingPayments.toList :=
        le_tally (Vector.mem_toList_iff.2 (Vector.mem_of_getElem? hp))
      split at hpos
      · rw [tally_cons, tally_nil] at hpos
        have hpos : 0 < p.due index := hpos
        omega
      · exact absurd hpos (lt_irrefl 0)
    · exact absurd hpos (lt_irrefl 0)
  · rename_i hnone
    split at hpos
    · rename_i hvalue
      refine ⟨hnone, hvalue, ?_⟩
      by_contra hne
      have hother : s.latestExecutionPayloadBid.payment.due index = 0 := if_neg hne
      rw [tally_cons, tally_nil, hother] at hpos
      omega
    · exact absurd hpos (lt_irrefl 0)

/-- A builder that exits in the parent phase owes after it only the bid of a late exit. -/
theorem ParentApplied.lateExit [Crypto] (phases : BlockPhases s block s')
    (applied : ParentApplied s block.body.parentExecutionRequests phases.parent)
    (hfull : block.bid.parentBlockHash = s.latestExecutionPayloadBid.blockHash)
    (hb : s.builders.get? index.val = some b) (hfar : b.withdrawableEpoch = farFutureEpoch)
    (hzero : s.pending index = 0) (hexited : phases.parent.Exited index)
    (hpos : 0 < phases.parent.pending index) :
    s.LateExit block ∧ s.latestExecutionPayloadBid.builderIndex = index := by
  obtain ⟨hcleared, hqueue, -⟩ := applied.payments
  have hwindow := s.clearedPayments_le index
  have hrelease : 0 < tally (BuilderPendingWithdrawal.due index) s.parentRelease := by
    unfold BeaconState.pending at hpos hzero
    rw [hcleared, hqueue, tally_append] at hpos
    omega
  obtain ⟨hnone, hvalue, hindex⟩ := parentRelease_due_pos hzero hrelease
  subst hindex
  exact ⟨⟨hfull, hnone, hvalue, ⟨b, hb, hfar⟩, phases.parent, phases.parent_eq, hexited⟩, rfl⟩

theorem Solvent.parent [Crypto] (h : Solvent s) (hbooked : Booked blocks s)
    (phases : BlockPhases s block s') (hlate : ¬s.LateExit block) : Covering phases.parent := by
  intro index hpos
  have hle := hbooked.pending_parent_le phases index
  have hfunded := (h index (hpos.trans_le hle)).mono hle
  rcases processParentExecutionPayload_cases phases.parent_eq with ⟨-, hsame, -⟩ | ⟨hfull, happly⟩
  · exact hfunded.of_builders (by rw [hsame])
  · obtain ⟨applied⟩ := applyParentExecutionPayload_parts _ _ happly
    refine (applied.funded hfunded).resolve_right fun ⟨hzero, hexited⟩ => ?_
    obtain ⟨b, hb, hfar, -⟩ := hfunded
    exact hlate (applied.lateExit phases hfull hb hfar hzero hexited hpos).1

/-! ## The withdrawal phase -/

/-- What a payee's withdrawal takes from an index. -/
def takenBy (index : ValidatorIndex) (payee : ValidatorIndex × ExecutionAddress × Gwei) : Nat :=
  if payee.1 = index then payee.2.2.val else 0

omit [Preset] in
theorem takenBy_mk (index payee : ValidatorIndex) (address : ExecutionAddress) (amount : Gwei) :
    takenBy index (payee, address, amount) = if payee = index then amount.val else 0 := rfl

omit [Preset] in
theorem withdrawnFrom_eq_tally (index : ValidatorIndex) (ws : List Withdrawal) :
    withdrawnFrom index ws = tally (takenBy index) (ws.map (·.payee)) := by
  rw [tally_map]
  refine (tally_filter (f := fun w : Withdrawal => w.amount.val) _ _).trans ?_
  simp only [decide_eq_true_eq]
  rfl

theorem builder_lt_flag (hb : s.builders.get? index.val = some b) :
    index.val < builderIndexFlag := by
  have hlt : index.val < s.builders.toList.length := (List.getElem?_eq_some_iff.1 hb).1
  have hle := s.builders.length_le
  exact hlt.trans_le hle

variable {e : ExpectedWithdrawals}

theorem Collected.payouts_taken (h : Collected s e) (hindex : index.val < builderIndexFlag) :
    withdrawnFrom index.flagged h.payouts = tally (BuilderPendingWithdrawal.due index) h.paid := by
  rw [withdrawnFrom_eq_tally, h.paid_payees, tally_map]
  refine tally_congr fun p hp => ?_
  unfold BuilderPendingWithdrawal.payee BuilderPendingWithdrawal.due
  by_cases heq : p.builderIndex = index
  · rw [takenBy_mk, if_pos (by rw [heq]), if_pos heq]
  · rw [takenBy_mk, if_neg heq,
      if_neg fun h' => heq ((BuilderIndex.flagged_inj (h.paid_flagged p hp) hindex).1 h')]

theorem Collected.unflagged_taken (h : Collected s e) (hindex : index.val < builderIndexFlag)
    {ws : List Withdrawal} (hws : ∀ w ∈ ws, w ∈ h.partials ++ h.validators) :
    withdrawnFrom index.flagged ws = 0 := by
  rw [withdrawnFrom_eq_tally, tally_map]
  refine List.sum_eq_zero fun x hx => ?_
  obtain ⟨w, hw, rfl⟩ := List.mem_map.1 hx
  unfold Withdrawal.payee
  rw [takenBy_mk, if_neg (BuilderIndex.flagged_ne hindex (h.unflagged w (hws w hw))).symm]

/-- The sweep comes to no builder twice. -/
theorem sweepCursor_nodup {swept : List Nat}
    (h : swept <+: List.range (min maxBuildersPerWithdrawalsSweep s.builders.length)) :
    (swept.map s.sweepCursor).Nodup := by
  have hsub := h.sublist
  refine List.Nodup.map_on ?_ (List.nodup_range.sublist hsub)
  intro i hi j hj heq
  have hi : i < s.builders.length :=
    (List.mem_range.1 (hsub.subset hi)).trans_le (min_le_right _ _)
  have hj : j < s.builders.length :=
    (List.mem_range.1 (hsub.subset hj)).trans_le (min_le_right _ _)
  have hmod := congrArg Fin.val heq
  rw [sweepCursor_val s i (by omega), sweepCursor_val s j (by omega)] at hmod
  have hcancel : i ≡ j [MOD s.builders.length] := Nat.ModEq.add_left_cancel' _ hmod
  exact hcancel.eq_of_lt_of_lt hi hj

/-- The sweep takes the balance of a builder that may withdraw, and nothing from any other. -/
theorem Collected.swept_taken (h : Collected s e) (hb : s.builders.get? index.val = some b) :
    withdrawnFrom index.flagged h.builders ≤
      if b.withdrawableEpoch ≤ s.slot.epoch then b.balance.val else 0 := by
  have hindex := builder_lt_flag hb
  have hlen : 0 < s.builders.length :=
    (Nat.zero_le _).trans_lt (List.getElem?_eq_some_iff.1 hb).1
  rw [withdrawnFrom_eq_tally, h.swept_payees, tally_filterMap]
  refine le_trans (tally_mono fun i _ => ?_) (tally_ite_le s.sweepCursor
    (sweepCursor_nodup h.swept_first) index _)
  have hcursor : (s.sweepCursor i).val < builderIndexFlag := by
    have hle := s.builders.length_le
    rw [sweepCursor_val s i hlen]
    exact (Nat.mod_lt _ hlen).trans_le hle
  unfold sweptBuilder
  cases hb' : s.builders.get? (s.sweepCursor i).val with
  | none => exact Nat.zero_le _
  | some b' =>
    rw [Option.bind_some]
    split
    · rename_i hdue
      rw [Option.elim_some, takenBy_mk]
      by_cases hi : s.sweepCursor i = index
      · rw [hi, hb] at hb'
        cases hb'
        rw [if_pos (by rw [hi]), if_pos hi, if_pos hdue.1]
      · rw [if_neg fun h => hi ((BuilderIndex.flagged_inj hcursor hindex).1 h)]
        exact Nat.zero_le _
    · exact Nat.zero_le _

theorem Collected.taken_eq (h : Collected s e) (hindex : index.val < builderIndexFlag) :
    withdrawnFrom index.flagged e.withdrawals =
      tally (BuilderPendingWithdrawal.due index) h.paid +
        withdrawnFrom index.flagged h.builders := by
  rw [h.withdrawals, withdrawnFrom_append, withdrawnFrom_append, withdrawnFrom_append,
    h.payouts_taken hindex, h.unflagged_taken hindex fun w hw => List.mem_append_left _ hw,
    h.unflagged_taken hindex fun w hw => List.mem_append_right _ hw]
  omega

theorem Collected.taken_le (h : Collected s e) (hb : s.builders.get? index.val = some b) :
    withdrawnFrom index.flagged e.withdrawals ≤
      tally (BuilderPendingWithdrawal.due index) h.paid +
        if b.withdrawableEpoch ≤ s.slot.epoch then b.balance.val else 0 := by
  rw [h.taken_eq (builder_lt_flag hb)]
  exact Nat.add_le_add_left (h.swept_taken hb) _

/-- No builder is asked for more than it has, and each pays exactly what it is asked for. -/
structure NotOverdrawn (s : BeaconState) : Prop where
  sum_le : ∀ e, s.getExpectedWithdrawals = .ok e → ∀ (index : BuilderIndex) b,
    s.builders.get? index.val = some b →
      withdrawnFrom index.flagged e.withdrawals ≤ b.balance.val
  exact : ∀ e s', s.getExpectedWithdrawals = .ok e → s.applyWithdrawals e.withdrawals = .ok s' →
    ∀ (index : BuilderIndex) b, s.builders.get? index.val = some b →
      ∃ b', s'.builders.get? index.val = some b' ∧
        b'.balance.val + withdrawnFrom index.flagged e.withdrawals = b.balance.val

theorem Covering.notOverdrawn (h : Covering s) : NotOverdrawn s := by
  have hsum : ∀ e, s.getExpectedWithdrawals = .ok e → ∀ (index : BuilderIndex) b,
      s.builders.get? index.val = some b →
        withdrawnFrom index.flagged e.withdrawals ≤ b.balance.val := by
    intro e he index b hb
    obtain ⟨collected⟩ := getExpectedWithdrawals_spec e he
    have htaken := collected.taken_le hb
    have hpaid : tally (BuilderPendingWithdrawal.due index) collected.paid ≤ s.pending index := by
      obtain ⟨left, hleft⟩ := collected.paid_first
      unfold BeaconState.pending
      rw [← hleft, tally_append]
      omega
    by_cases hpos : 0 < s.pending index
    · -- a builder with a pending entry has not exited, so the sweep passes over it
      obtain ⟨b', hb', hfar, hle⟩ := h index hpos
      rw [hb] at hb'
      cases hb'
      rw [hfar, if_neg (not_farFuture_le _)] at htaken
      omega
    · split at htaken <;> omega
  refine ⟨hsum, fun e s' he hs' index b hb => ?_⟩
  have hdebited := (applyWithdrawals_debited _ s' hs').builders index (builder_lt_flag hb)
  rw [hb] at hdebited
  refine ⟨_, hdebited, ?_⟩
  have := hsum e he index b hb
  dsimp only
  rw [satSub_val]
  omega

/-- The withdrawals of a payload pay what they take from the queue. -/
theorem WithdrawalsRun.pending_eq (run : WithdrawalsRun s s') (index : BuilderIndex) :
    s.pending index =
      tally (BuilderPendingWithdrawal.due index) run.collected.paid + s'.pending index := by
  unfold BeaconState.pending
  rw [run.payouts, run.window, tally_append]
  omega

/-- And what they take from a builder they debit. -/
theorem WithdrawalsRun.record (run : WithdrawalsRun s s') {b : Builder}
    (hb : s.builders.get? index.val = some b) : s'.builders.get? index.val = some { b with
      balance := b.balance.satSub (withdrawnFrom index.flagged run.expected.withdrawals) } := by
  have hdebited := run.debited.builders index (builder_lt_flag hb)
  rw [hb, ← run.builders] at hdebited
  exact hdebited

theorem Covering.withdrawals (h : Covering s) (run : WithdrawalsRun s s') : Covering s' := by
  intro index hpos
  have hpending := run.pending_eq index
  obtain ⟨b, hb, hfar, hle⟩ := h index (by omega)
  have htaken := run.collected.taken_le hb
  rw [hfar, if_neg (not_farFuture_le _)] at htaken
  refine ⟨_, run.record hb, hfar, ?_⟩
  dsimp only
  rw [satSub_val]
  omega

/-! ## The bid and the operations -/

omit [Preset] in
theorem Tended.due_le {slashing fresh : Prop} {p p' : BuilderPendingPayment}
    (h : Tended slashing fresh p p') : p'.due index ≤ p.due index := by
  rcases h with rfl | ⟨-, rfl⟩ | ⟨-, -, h⟩
  · exact le_rfl
  · rw [BuilderPendingPayment.due_default]
    exact Nat.zero_le _
  · rw [h]
    exact le_rfl

/-- A bid that is not the proposer's own comes from an active builder that covers it on top of what
is pending, and keeps a minimum. -/
theorem BlockPhases.bid_reserve [Crypto] (h : BlockPhases s block s')
    (hself : block.bid.builderIndex ≠ builderIndexSelfBuild) :
    h.withdrawals.Funded block.bid.builderIndex
      (h.withdrawals.pending block.bid.builderIndex + block.bid.value.val + minDepositAmount) := by
  obtain ⟨-, hfunding, -⟩ := processExecutionPayloadBid_eq _ _ h.bid_eq
  unfold validateBidSignerAndFunding at hfunding
  rw [if_neg hself] at hfunding
  simp only [bind_eq_ok] at hfunding
  obtain ⟨active, hactive, _, hisActive, _, -, _, -, covers, hcovers, _, hdoesCover, -⟩ := hfunding
  have hisActive : active = true := ensure_eq_ok.1 hisActive
  have hdoesCover : covers = true := ensure_eq_ok.1 hdoesCover
  unfold isActiveBuilder at hactive
  obtain ⟨b, hb, hactive⟩ := bind_eq_ok.1 hactive
  rw [← Except.ok.inj hactive] at hisActive
  simp only [Bool.and_eq_true, beq_iff_eq] at hisActive
  refine ⟨b, okOr_eq_ok.1 hb, hisActive.2, ?_⟩
  unfold canBuilderCoverBid at hcovers
  obtain ⟨b', hb', hcovers⟩ := bind_eq_ok.1 hcovers
  cases hb.symm.trans hb'
  obtain ⟨total, htotal, hcovers⟩ := bind_eq_ok.1 hcovers
  have htotal : total.val = h.withdrawals.pending block.bid.builderIndex :=
    getPendingBalanceToWithdrawForBuilder_eq total htotal
  obtain ⟨minimum, hminimum, hcovers⟩ := bind_eq_ok.1 hcovers
  rw [okOr_eq_ok, checkedAdd_eq_some] at hminimum
  split at hcovers
  · rw [← Except.ok.inj hcovers] at hdoesCover
    cases hdoesCover
  · obtain ⟨available, havailable, hcovers⟩ := bind_eq_ok.1 hcovers
    rw [okOr_eq_ok, checkedSub_eq_some] at havailable
    rw [← Except.ok.inj hcovers, decide_eq_true_eq] at hdoesCover
    have hle : block.bid.value.val ≤ available.val := hdoesCover
    omega

theorem BlockPhases.bid_funded [Crypto] (h : BlockPhases s block s')
    (hself : block.bid.builderIndex ≠ builderIndexSelfBuild) :
    h.withdrawals.Funded block.bid.builderIndex
      (h.withdrawals.pending block.bid.builderIndex + block.bid.value.val) :=
  (h.bid_reserve hself).mono (Nat.le_add_right _ _)

/-- Apart from its own bid, a block leaves in the window at most what its parent phase left there. -/
theorem BlockPhases.cleared_le [Crypto] (h : BlockPhases s block s') (index : BuilderIndex) :
    tally (BuilderPendingPayment.due index) s'.clearedPayments.toList ≤
      tally (BuilderPendingPayment.due index) h.withdrawals.builderPendingPayments.toList := by
  obtain ⟨hslot, -, -, hrecorded⟩ := h.bid_payments
  have htends := h.tends
  have hwindow : h.withdrawals.builderPendingPayments = s.settledPayments block :=
    h.withdrawals_payments.1.trans (h.header_payments.1.trans h.parent_payments.1)
  have hs'slot : s'.slot = s.slot := htends.slot.trans h.slots.2.2.2
  have hplace : h.bid.currentPlace = s.currentPlace := by
    unfold currentPlace
    rw [h.slots.2.2.2]
  refine tally_le_tally fun i => ?_
  rw [clearedPayments_tallyAt, h.execution.1, hs'slot, hslot, s.windowIndex_slot]
  split
  · exact Nat.zero_le _
  · -- away from its own place, the block only tends what the parent phase left
    rename_i hi
    have hi : s.currentPlace ≠ i := fun heq => hi (congrArg some heq)
    by_cases hlt : i < builderPaymentWindowLen
    · obtain ⟨p, hp, htended⟩ := htends.payment_of (Vector.getElem?_eq_getElem hlt)
      have hold : h.withdrawals.builderPendingPayments[i]? = some p := by
        rw [hwindow, ← hp, hrecorded]
        unfold recordedPayments
        split
        · rfl
        · rw [Vector.getElem?_setIfInBounds, if_neg hi]
      rw [tallyAt_of_some (a := s'.builderPendingPayments[i]) (by simp [hlt]),
        tallyAt_of_some (a := p) (by rw [Vector.getElem?_toList]; exact hold)]
      exact htended.due_le
    · rw [tallyAt_of_le (by rw [Vector.length_toList]; omega)]
      exact Nat.zero_le _

/-- After a block a builder owes at most what was pending before the bid, and the bid if it is its
own. -/
theorem BlockPhases.obligations_le [Crypto] (h : BlockPhases s block s') (index : BuilderIndex) :
    s'.obligations index ≤ h.withdrawals.pending index + block.bid.payment.due index := by
  obtain ⟨-, -, hqueue, -⟩ := h.bid_payments
  have hle := h.cleared_le index
  unfold BeaconState.obligations BeaconState.pending
  rw [h.tends.queue, hqueue, h.execution.1]
  omega

theorem BlockPhases.header_pending [Crypto] (h : BlockPhases s block s') (index : BuilderIndex) :
    h.header.pending index = h.parent.pending index := by
  unfold BeaconState.pending
  rw [h.header_payments.1, h.header_payments.2.1]

/-- When a block comes to its withdrawals every builder covers what is pending. -/
theorem Solvent.header [Crypto] (h : Solvent s) (hbooked : Booked blocks s)
    (phases : BlockPhases s block s') (hlate : ¬s.LateExit block) : Covering phases.header := by
  intro index hpos
  rw [phases.header_pending] at hpos ⊢
  exact (h.parent hbooked phases hlate index hpos).of_builders phases.header_payments.2.2

/-- What holds before the withdrawals of a block and is kept by those of a payload holds after
them. -/
theorem BlockPhases.withdrawals_inv [Crypto] (h : BlockPhases s block s')
    (step : ∀ {t t'}, P t → WithdrawalsRun t t' → P t') (hheader : P h.header) :
    P h.withdrawals := by
  by_cases hfull : block.bid.parentBlockHash = s.latestExecutionPayloadBid.blockHash
  · obtain ⟨run⟩ := runWithdrawals_run _ (h.parentDecision.full hfull).2
    exact step hheader run
  · rw [(h.parentDecision.empty hfull).2.2]
    exact hheader

/-- The bid and the operations leave the builders. -/
theorem BlockPhases.builders_after [Crypto] (h : BlockPhases s block s') :
    s'.builders = h.withdrawals.builders :=
  h.tends.builders.trans h.bid_payments.2.1

theorem Solvent.blockStep [Crypto] (h : Solvent s) (hbooked : Booked blocks s)
    (hs : s.processBlock block = .ok s') (hlate : ¬s.LateExit block) : Solvent s' := by
  obtain ⟨phases⟩ := processBlock_phases hs
  have hwithdrawals : Covering phases.withdrawals :=
    phases.withdrawals_inv Covering.withdrawals (h.header hbooked phases hlate)
  have hbuilders := phases.builders_after
  intro index hpos
  have hle := phases.obligations_le index
  by_cases hown : block.bid.builderIndex = index ∧ 0 < block.bid.value.val
  · have hdue : block.bid.payment.due index = block.bid.value.val := if_pos hown.1
    rw [hdue] at hle
    have hfunded := phases.bid_funded (phases.signer hown.2)
    rw [hown.1] at hfunded
    exact (hfunded.mono hle).of_builders hbuilders
  · have hdue : block.bid.payment.due index = 0 := by
      unfold BuilderPendingWithdrawal.due
      split
      · rename_i heq
        exact Nat.eq_zero_of_not_pos fun hvalue => hown ⟨heq, hvalue⟩
      · rfl
    rw [hdue, Nat.add_zero] at hle
    exact ((hwithdrawals index (hpos.trans_le hle)).mono hle).of_builders hbuilders

/-! ## Slots -/

/-- The quorum never takes the latest bid, which has no weight yet. -/
theorem Booked.quorum_le (h : Booked blocks s) {threshold : Gwei} (hthreshold : 0 < threshold.val)
    (index : BuilderIndex) :
    tally (BuilderPendingWithdrawal.due index)
        ((s.quorumPayments threshold).map (·.withdrawal)) ≤
      tally (BuilderPendingPayment.due index) (s.clearedPayments.toList.take slotsPerEpoch) := by
  unfold quorumPayments
  rw [tally_map, tally_filter]
  refine tally_le_tally fun i => ?_
  rw [tallyAt_take, tallyAt_take]
  split
  · rw [clearedPayments_tallyAt]
    cases hp : s.builderPendingPayments[i]? with
    | none =>
      have hlen : s.builderPendingPayments.toList.length ≤ i := by
        rw [Vector.length_toList]
        exact Vector.getElem?_eq_none_iff.1 hp
      rw [tallyAt_of_le hlen]
      exact Nat.zero_le _
    | some p =>
      have hget : s.builderPendingPayments.toList[i]? = some p := by
        rw [Vector.getElem?_toList]
        exact hp
      rw [tallyAt_of_some hget, tallyAt_of_some hget]
      by_cases hlatest : windowIndex slotsPerEpoch s.slot.epoch.val
          s.latestExecutionPayloadBid.slot.val = some i
      · have hpay : s.paymentOf s.latestExecutionPayloadBid.slot.val = some p := by
          unfold paymentOf windowAt
          rw [hlatest, Option.bind_some, hp]
        have hzero : p.weight.val = 0 := by
          by_cases hblank : p = .default
          · rw [hblank]
            rfl
          · exact (h.latest_payment hpay hblank).2
        have hlight : ¬threshold ≤ p.weight := by
          intro hle
          have hle : threshold.val ≤ p.weight.val := hle
          omega
        rw [if_pos hlatest, if_neg (by simpa using hlight)]
      · rw [if_neg hlatest]
        split
        · exact le_rfl
        · exact Nat.zero_le _
  · exact le_rfl

theorem SlotPaid.cleared_le [Crypto] (h : SlotPaid s s')
    (hboundary : s'.slot.val % slotsPerEpoch = 0) (index : BuilderIndex) :
    tally (BuilderPendingPayment.due index) s'.clearedPayments.toList ≤
      tally (BuilderPendingPayment.due index) (s.clearedPayments.toList.drop slotsPerEpoch) := by
  obtain ⟨_, -, hwindow, -⟩ := h.boundary hboundary
  have hspe := slotsPerEpoch_pos
  refine tally_le_tally fun i => ?_
  rw [tallyAt_drop, clearedPayments_tallyAt, clearedPayments_tallyAt, hwindow,
    tallyAt_shiftWindow (BuilderPendingPayment.due_default index), h.bid,
    h.epoch_boundary hboundary]
  by_cases hlatest : windowIndex slotsPerEpoch s.slot.epoch.val
      s.latestExecutionPayloadBid.slot.val = some (i + slotsPerEpoch)
  · have hlt := ((windowIndex_eq_some hspe).1 hlatest).1
    rw [if_pos hlatest, if_pos ((windowIndex_succ hspe (by omega)).2 hlatest)]
  · rw [if_neg hlatest]
    split
    · exact Nat.zero_le _
    · exact le_rfl

/-- A slot moves payments from the window to the queue, and adds none. -/
theorem SlotPaid.obligations_le [Crypto] (hpaid : SlotPaid s s') (hbooked : Booked blocks s)
    (index : BuilderIndex) : s'.obligations index ≤ s.obligations index := by
  unfold BeaconState.obligations
  rw [hpaid.bid]
  by_cases hboundary : s'.slot.val % slotsPerEpoch = 0
  · obtain ⟨threshold, hthreshold, -, hqueue⟩ := hpaid.boundary hboundary
    have hquorum := hbooked.quorum_le (paymentQuorum_pos threshold hthreshold) index
    have hcleared := hpaid.cleared_le hboundary index
    have hwhole := tally_take_add_drop (f := BuilderPendingPayment.due index)
      s.clearedPayments.toList slotsPerEpoch
    rw [hqueue, tally_append]
    omega
  · obtain ⟨hwindow, hqueue⟩ := hpaid.inner hboundary
    have hcleared : tally (BuilderPendingPayment.due index) s'.clearedPayments.toList ≤
        tally (BuilderPendingPayment.due index) s.clearedPayments.toList := by
      refine tally_le_tally fun i => ?_
      rw [clearedPayments_tallyAt, clearedPayments_tallyAt, hpaid.bid, hwindow,
        hpaid.epoch_inner hboundary]
    rw [hqueue]
    omega

theorem Solvent.slotStep [Crypto] (h : Solvent s) (hbooked : Booked blocks s)
    (hs : s.advanceSlot = .ok s') : Solvent s' := by
  have hpaid := advanceSlot_payments hs
  intro index hpos
  have hle := hpaid.obligations_le hbooked index
  exact ((h index (hpos.trans_le hle)).mono hle).of_builders hpaid.builders

/-! ## Chains -/

theorem NothingOwed.windowed (h : NothingOwed s) (index : BuilderIndex) :
    tally (BuilderPendingPayment.due index) s.builderPendingPayments.toList = 0 := by
  refine List.sum_eq_zero fun x hx => ?_
  obtain ⟨p, hp, rfl⟩ := List.mem_map.1 hx
  rw [h.window p hp, BuilderPendingPayment.due_default]

theorem NothingOwed.bid_due (h : NothingOwed s) (index : BuilderIndex) :
    s.latestExecutionPayloadBid.payment.due index = 0 := by
  unfold BuilderPendingWithdrawal.due
  split
  · exact h.bid
  · rfl

theorem NothingOwed.obligations (h : NothingOwed s) (index : BuilderIndex) :
    s.obligations index = 0 := by
  have hwindow := h.windowed index
  have hcleared := s.clearedPayments_le index
  unfold BeaconState.obligations
  rw [h.queue, tally_nil, h.bid_due]
  omega

theorem NothingOwed.solvent (h : NothingOwed s) : Solvent s :=
  fun index hpos => absurd (h.obligations index) hpos.ne'

end BeaconState

open BeaconState

/-- No block exits the builder of a full parent's bid that is older than the window. -/
def NoLateExit [Crypto] (events : List ChainEvent) : Prop :=
  ∀ e ∈ events, ∀ block, e.block = some block → ¬e.before.LateExit block

section

variable {s s' : BeaconState} {events : List ChainEvent} {blocks : List BeaconBlock}

/-- What the slots and the accepted blocks of a run keep, with the promises of its bids booked. -/
theorem Runs.booked_inv [Crypto] {P : BeaconState → Prop} (h : Runs s events s')
    (hbooked : Booked blocks s)
    (hs : P s) (slot : ∀ {blocks s s'}, Booked blocks s → P s → s.advanceSlot = .ok s' → P s')
    (block : ∀ {blocks}, ∀ e ∈ events, ∀ b, e.block = some b → Booked blocks e.before →
      P e.before → e.before.processBlock b = .ok e.after → P e.after) : P s' := by
  induction h generalizing blocks with
  | nil => exact hs
  | @cons e es s' head _ ih =>
    refine ih (e.booked_after hbooked head) ?_ fun e' he' => block e' (List.mem_cons_of_mem _ he')
    cases hblock : e.block with
    | none => exact slot hbooked hs (head.advanced hblock)
    | some b => exact block e List.mem_cons_self b hblock hbooked hs (head.processed hblock)

theorem Runs.solvent [Crypto] (h : Runs s events s') (hexits : NoLateExit events)
    (hbooked : Booked blocks s) (hsolvent : Solvent s) : Solvent s' :=
  h.booked_inv hbooked hsolvent (fun hbooked hs => hs.slotStep hbooked)
    fun e he b hblock hbooked hs hb => hs.blockStep hbooked hb (hexits e he b hblock)

theorem BeaconState.Solvent.covering (h : Solvent s) (hbooked : Booked blocks s) : Covering s :=
  fun index hpos => (h index (hpos.trans_le (hbooked.pending_le index))).mono
    (hbooked.pending_le index)

/-- While no builder exits with its own bid as the full parent's and older than the window, no
builder is asked for more than it has: in no state of the chain, and in no block when it comes to
its withdrawals. -/
theorem BeaconState.builders_not_overdrawn [Crypto] (hstart : NothingOwed s) (h : Runs s events s')
    (hexits : NoLateExit events) :
    s'.NotOverdrawn ∧ ∀ earlier e later block parent header, events = earlier ++ e :: later →
      e.block = some block → e.before.processParentExecutionPayload block = .ok parent →
      parent.processBlockHeader block = .ok header → header.NotOverdrawn := by
  have hbooked := hstart.booked
  refine ⟨?_, ?_⟩
  · exact ((h.solvent hexits hbooked hstart.solvent).covering (h.booked hbooked)).notOverdrawn
  · rintro earlier e later block parent header rfl hblock hparent hheader
    obtain ⟨m, hearlier, hrest⟩ := h.split
    cases hrest with
    | cons head _ =>
      have hbefore := hearlier.booked hbooked
      have hsolvent := hearlier.solvent
        (fun e' he' => hexits e' (List.mem_append_left _ he')) hbooked hstart.solvent
      obtain ⟨phases⟩ := processBlock_phases (head.processed hblock)
      obtain rfl := Except.ok.inj (phases.parent_eq.symm.trans hparent)
      obtain rfl := Except.ok.inj (phases.header_eq.symm.trans hheader)
      exact (hsolvent.header hbefore phases
        (hexits e (by simp) block hblock)).notOverdrawn

end

end Moonglass

namespace Moonglass.Devnet

open Lib

/-- A late exit needs a bid that promised something and is older than the window. -/
theorem noLateExit_of_check {events : List ChainEvent}
    (h : (events.all fun e => e.block.isNone || e.before.latestExecutionPayloadBid.value == 0 ||
      (e.before.builderPaymentIndexForSlot e.before.latestExecutionPayloadBid.slot).isSome) =
        true) : NoLateExit events := by
  rintro e he block hblock ⟨-, hnone, hvalue, -⟩
  have := List.all_eq_true.1 h e he
  rw [hblock, hnone] at this
  simp only [Option.isNone_some, Bool.false_or, Option.isSome_none, Bool.or_false,
    beq_iff_eq] at this
  rw [this] at hvalue
  exact absurd hvalue (lt_irrefl 0)

/-- The bid of a builder, paid by the next block. -/
theorem builders_not_overdrawn_bidBlock : ∃ events s', market.NothingOwed ∧
    Runs market events s' ∧
    events.map (·.block) = [none, some bidBlock, none, some (childOf bidBlock)] ∧
    NoLateExit events ∧ s'.NotOverdrawn := by
  have hcheck : followCheck (fun events _ => (events.all fun e =>
      e.block.isNone || e.before.latestExecutionPayloadBid.value == 0 ||
      (e.before.builderPaymentIndexForSlot e.before.latestExecutionPayloadBid.slot).isSome) = true)
      market [none, some bidBlock, none, some (childOf bidBlock)] = true := by decide +kernel
  obtain ⟨events, s', hruns, hblocks, hexits⟩ := followCheck_runs hcheck
  have hexits := noLateExit_of_check hexits
  exact ⟨events, s', market_nothingOwed, hruns, hblocks, hexits,
    (BeaconState.builders_not_overdrawn market_nothingOwed hruns hexits).1⟩

/-! A builder that leaves with a debt. The second builder's bids of slots 25 to 27 are counted as
empty, but get their quorum from the block of slot 28, which carries the first builder's bid. Two
epochs later a block counts that bid as full and exits its builder. -/

def secondBid (slot : Slot) (parent : BeaconBlock) (proposerIndex : ValidatorIndex) : BeaconBlock :=
  { carrying (builderBid slot parent.treeRoot 1 5) with proposerIndex }

def block25 : BeaconBlock := secondBid 25 (anchorBlock 24) 0
def block26 : BeaconBlock := secondBid 26 block25 1
def block27 : BeaconBlock := secondBid 27 block26 0

/-- The vote of the committee of a slot for the block of that slot. -/
def voteFor (block : BeaconBlock) : Attestation :=
  attestation block.slot (anchorBlock 24).treeRoot block.treeRoot

def block28 : BeaconBlock :=
  let b := carrying (builderBid 28 block27.treeRoot 0 7)
  { b with body := { b.body with
    attestations := ⟨[voteFor block25, voteFor block26, voteFor block27], by decide⟩ } }

def exitRequests : ExecutionRequests :=
  { noRequests with builderExits := ⟨[⟨zeros 20, (builder 0).pubkey⟩], by decide⟩ }

def block40 : BeaconBlock := requesting exitRequests (fullChild 40 block28)

/-- The chain up to the exit. -/
def debtSteps : List (Option BeaconBlock) :=
  [none, some block25, none, some block26, none, some block27, none, some block28] ++
    List.replicate 12 none ++ [some block40]

/-- When the exited builder may withdraw, it is asked for its whole balance and for the bid. -/
theorem builder_overdrawn_block40 : ∃ events s' e b, market.NothingOwed ∧ Runs market events s' ∧
    s'.getExpectedWithdrawals = .ok e ∧ s'.builders.get? 0 = some b ∧
    b.balance.val < withdrawnFrom (BuilderIndex.flagged 0) e.withdrawals := by
  have hcheck : followCheck (fun _ s' => (s'.getExpectedWithdrawals >>= fun e => pure
      ((s'.builders.get? 0).any fun b =>
        b.balance.val < withdrawnFrom (BuilderIndex.flagged 0) e.withdrawals)) = .ok true) market
      (debtSteps ++ List.replicate 16 none) = true := by decide +kernel
  obtain ⟨events, s', hruns, -, hcheck⟩ := followCheck_runs hcheck
  obtain ⟨e, he, hcheck⟩ := bind_eq_ok.1 hcheck
  obtain ⟨b, hb, hlt⟩ := (Option.any_eq_true _ _).1 (Except.ok.inj hcheck)
  exact ⟨events, s', e, b, market_nothingOwed, hruns, he, hb, of_decide_eq_true hlt⟩

end Moonglass.Devnet
