import Moonglass.StateTransition.Sweeps
import Moonglass.StateTransition.Frame
import Moonglass.Devnet

/-
  What the withdrawal phase debits. The expected withdrawals are the payouts, the partial
  withdrawals and the two sweeps in this order, numbered without a gap; applying them takes from
  every validator exactly what they name, and the queues lose the entries that were gone through.
-/

namespace Moonglass

open Lib List BoundedList Word

variable [Preset]

namespace BeaconState

variable {s s' : BeaconState}

/-! ## The expected withdrawals -/

/-- The parts of the expected withdrawals, loop by loop. -/
structure Collected (s : BeaconState) (e : ExpectedWithdrawals) where
  paid : List BuilderPendingWithdrawal
  looked : List PendingPartialWithdrawal
  swept : List Nat
  payouts : List Withdrawal
  partials : List Withdrawal
  builders : List Withdrawal
  validators : List Withdrawal
  withdrawals : e.withdrawals = payouts ++ partials ++ builders ++ validators
  paid_first : paid <+: s.builderPendingWithdrawals.toList
  paid_count : e.processedBuilderWithdrawalsCount.val = paid.length
  paid_payees : payouts.map (·.payee) = paid.map (·.payee)
  paid_flagged : ∀ p ∈ paid, p.builderIndex.val < builderIndexFlag
  looked_first : looked <+: s.pendingPartialWithdrawals.toList
  looked_count : e.processedPartialWithdrawalsCount.val = looked.length
  swept_first : swept <+: List.range (min maxBuildersPerWithdrawalsSweep s.builders.length)
  swept_payees : builders.map (·.payee) = swept.filterMap s.sweptBuilder
  unflagged : ∀ w ∈ partials ++ validators,
    ValidatorIndex.isBuilderIndex w.validatorIndex = false
  covered : Covered s e.withdrawals
  indices : e.withdrawals.map (·.index.val) =
    List.range' s.nextWithdrawalIndex.val e.withdrawals.length
  bound : e.withdrawals.length ≤ maxWithdrawalsPerPayload

/-- Every payout is a builder's. -/
theorem PayoutsOf.isBuilderIndex {first : WithdrawalIndex} {prior : Nat}
    {paid : List BuilderPendingWithdrawal} {w : WithdrawalSweep}
    (h : PayoutsOf s first prior paid w) {x : Withdrawal} (hx : x ∈ w.withdrawals) :
    ValidatorIndex.isBuilderIndex x.validatorIndex = true := by
  have hpayee : x.payee ∈ paid.map (·.payee) := h.payees ▸ mem_map_of_mem hx
  obtain ⟨e, he, heq⟩ := mem_map.1 hpayee
  simp only [Withdrawal.payee, BuilderPendingWithdrawal.payee, Prod.mk.injEq] at heq
  rw [← heq.1]
  exact BuilderIndex.isBuilderIndex_flagged (h.flagged e he)

theorem maxWithdrawalsPerPayload_pos : 0 < maxWithdrawalsPerPayload := by
  unfold maxWithdrawalsPerPayload pick
  split <;> decide

/-- The loops one after the other. The builder sweep picks nothing unless the payouts have gone
through the whole queue. -/
theorem getExpectedWithdrawals_collected :
    Ensures s.getExpectedWithdrawals fun e => ∃ h : Collected s e,
      h.builders = [] ∨ h.paid.length = s.builderPendingWithdrawals.toList.length := by
  have hmax := maxWithdrawalsPerPayload_pos
  unfold getExpectedWithdrawals
  refine .bind (fun w hw => And.intro (getBuilderWithdrawals_spec _ _ w hw)
    (getBuilderWithdrawals_drains _ _ w hw)) fun payouts ⟨⟨paid, hpaid, hpayouts⟩, hdrains⟩ => ?_
  have hcovered : Covered s payouts.withdrawals := by
    have := Covered.nil.append_builders (s := s) fun w hw => hpayouts.isBuilderIndex hw
    rwa [nil_append] at this
  refine .bind (getPendingPartialWithdrawals_spec _ hcovered)
    fun partials ⟨looked, hlooked, hpartials⟩ => ?_
  have hroom : (payouts.withdrawals ++ partials.withdrawals).length ≤
      maxWithdrawalsPerPayload - 1 := by
    rw [length_append]
    exact hpartials.sweeping.bound
  refine .bind (fun w hw => And.intro (getBuildersSweepWithdrawals_spec _ _ hroom w hw)
    fun hfull => getBuildersSweepWithdrawals_full _ hfull w hw)
    fun builders ⟨⟨swept, hswept, hbuilders⟩, hsweep⟩ => ?_
  have hbound : (payouts.withdrawals ++ partials.withdrawals ++ builders.withdrawals).length ≤
      maxWithdrawalsPerPayload := by
    have := hbuilders.sweeping.bound
    rw [length_append]
    omega
  refine .bind (getValidatorsSweepWithdrawals_spec _
    (hpartials.covered.append_builders hbuilders.flagged) hbound)
    fun validators ⟨_, hvalidators⟩ => .pure ?_
  have h₁ := hpayouts.sweeping
  have h₂ := hpartials.sweeping
  have h₃ := hbuilders.sweeping
  have h₄ := hvalidators.sweeping
  refine ⟨⟨paid, looked, swept, payouts.withdrawals, partials.withdrawals, builders.withdrawals,
    validators.withdrawals, rfl, hpaid, h₁.count, hpayouts.payees, hpayouts.flagged, hlooked,
    h₂.count, hswept, hbuilders.payees, ?_, hvalidators.covered, ?_, ?_⟩, ?_⟩
  · intro w hw
    rcases mem_append.1 hw with hw | hw
    · exact hpartials.unflagged w hw
    · exact hvalidators.unflagged w hw
  · -- each loop numbers on from where the one before it ended
    simp only [map_append, h₁.indices, h₂.indices, h₃.indices, h₄.indices, h₁.next, h₂.next,
      h₃.next, range'_append_1, length_append, Nat.add_assoc]
  · have := h₄.bound
    rw [length_append]
    exact this
  · rcases hdrains with hall | hfull
    · exact .inr (h₁.count.symm.trans hall)
    · refine .inl (hsweep ?_)
      rw [length_append]
      exact hfull.trans (by rw [length_nil]; omega)

theorem getExpectedWithdrawals_spec :
    Ensures s.getExpectedWithdrawals fun e => Nonempty (Collected s e) :=
  getExpectedWithdrawals_collected.imp fun _ ⟨h, _⟩ => ⟨h⟩

theorem Collected.withdrawnFrom_le {e : ExpectedWithdrawals} (h : Collected s e)
    {index : ValidatorIndex} {v : Validator} {balance : Gwei}
    (hv : s.validators.get? index.val = some v)
    (hbalance : s.balances.get? index.val = some balance) :
    withdrawnFrom index e.withdrawals ≤ balance.val :=
  h.covered.withdrawnFrom_le (isBuilderIndex_of_validator hv) hbalance

/-- The first withdrawals pay the first entries of the builder queue. -/
theorem Collected.take_paid {e : ExpectedWithdrawals} (h : Collected s e) :
    (e.withdrawals.take h.paid.length).map (·.payee) = h.paid.map (·.payee) := by
  have hlength : h.paid.length = h.payouts.length := by
    rw [← length_map (·.payee), ← h.paid_payees, length_map]
  rw [h.withdrawals, append_assoc, append_assoc, hlength, take_left, h.paid_payees]

/-! ## Applying them -/

/-- `ws` took from every validator and builder what it names, saturating, and left everything else
alone. -/
structure Debited (ws : List Withdrawal) (s s' : BeaconState) : Prop where
  balances : ∀ index : ValidatorIndex, ValidatorIndex.isBuilderIndex index = false →
    s'.balances.get? index.val =
      (s.balances.get? index.val).map fun b => b.satSub (withdrawnFrom index ws)
  builders : ∀ index : BuilderIndex, index.val < builderIndexFlag →
    s'.builders.get? index.val = (s.builders.get? index.val).map fun b =>
      { b with balance := b.balance.satSub (withdrawnFrom index.flagged ws) }
  length : s'.builders.length = s.builders.length
  rest : s' = { s with balances := s'.balances, builders := s'.builders }

theorem Debited.refl (s : BeaconState) : Debited [] s s where
  balances index _ := by simp
  builders index _ := by simp
  length := rfl
  rest := rfl

theorem Debited.trans {ws ws' : List Withdrawal} {s'' : BeaconState} (h : Debited ws s s')
    (h' : Debited ws' s' s'') : Debited (ws ++ ws') s s'' where
  balances index hindex := by
    rw [h'.balances index hindex, h.balances index hindex, Option.map_map, withdrawnFrom_append]
    simp only [Function.comp_def, satSub_satSub]
  builders index hindex := by
    rw [h'.builders index hindex, h.builders index hindex, Option.map_map, withdrawnFrom_append]
    simp only [Function.comp_def, satSub_satSub]
  length := h'.length.trans h.length
  rest := by
    rw [h'.rest, h.rest]

theorem debited_validator (w : Withdrawal)
    (hw : ValidatorIndex.isBuilderIndex w.validatorIndex = false) :
    Ensures (s.decreaseBalance w.validatorIndex w.amount) (Debited [w] s) := by
  unfold decreaseBalance updateBalance
  refine .skip fun _ => .lookup fun balance hbalance => ?_
  refine .step fun next hnext => .pure ?_
  cases hnext
  refine ⟨fun index _ => ?_, fun index hindex => ?_, rfl, rfl⟩
  · rw [withdrawnFrom_singleton, get?_set]
    by_cases heq : w.validatorIndex = index
    · rw [if_pos (congrArg Fin.val heq), if_pos heq, ← heq, hbalance]
      rfl
    · rw [if_neg (fun h => heq (Fin.ext h)), if_neg heq]
      simp
  · rw [withdrawnFrom_singleton, if_neg (BuilderIndex.flagged_ne hindex hw).symm]
    simp

theorem debited_builder (w : Withdrawal) :
    Ensures (do
      let index ← ValidatorIndex.toBuilderIndex w.validatorIndex
      let b ← s.builder index
      pure { s with builders :=
        s.builders.set index.val { b with balance := b.balance.satSub w.amount.val } })
      (Debited [w] s) := by
  refine .bind (fun _ h => ValidatorIndex.toBuilderIndex_eq_ok h) fun paid ⟨hpaid, hw'⟩ => ?_
  refine .lookup fun b hb => .pure ?_
  refine ⟨fun index hindex => ?_, fun index hindex => ?_, BoundedList.length_set _ _ _, rfl⟩
  · rw [withdrawnFrom_singleton, hw', if_neg (BuilderIndex.flagged_ne hpaid hindex)]
    simp
  · rw [withdrawnFrom_singleton, hw', get?_set]
    by_cases heq : paid = index
    · rw [if_pos (congrArg Fin.val heq), heq, if_pos rfl, ← heq, hb]
      rfl
    · rw [if_neg (fun h => heq (Fin.ext h)),
        if_neg fun h => heq ((BuilderIndex.flagged_inj hpaid hindex).1 h)]
      simp

theorem applyWithdrawals_debited (withdrawals : List Withdrawal) :
    Ensures (s.applyWithdrawals withdrawals) (Debited withdrawals s) := by
  intro s' h
  unfold applyWithdrawals at h
  induction withdrawals generalizing s with
  | nil =>
    rw [foldlM_nil_eq_ok] at h
    exact h ▸ Debited.refl s
  | cons w ws ih =>
    obtain ⟨s₁, hs₁, h⟩ := foldlM_cons_eq_ok.1 h
    have hw : Debited [w] s s₁ := by
      refine Ensures.dite (fun _ => ?_) (fun hw => ?_) s₁ hs₁
      · exact debited_builder w
      · exact debited_validator w (Bool.eq_false_iff.2 hw)
    exact hw.trans (ih h)

/-! ## The withdrawal phase -/

/-- The body of the withdrawal phase, which runs on top of a full parent. -/
def runWithdrawals (s : BeaconState) : Transition BeaconState := do
  let expected ← s.getExpectedWithdrawals
  let s ← s.applyWithdrawals expected.withdrawals
  let s ← s.updateNextWithdrawalIndex expected.withdrawals
  let s ← s.updatePayloadExpectedWithdrawals expected.withdrawals
  let s := { s with
    builderPendingWithdrawals :=
      s.builderPendingWithdrawals.drop expected.processedBuilderWithdrawalsCount.val
    pendingPartialWithdrawals :=
      s.pendingPartialWithdrawals.drop expected.processedPartialWithdrawalsCount.val }
  let s ← s.updateNextWithdrawalBuilderIndex expected.processedBuildersSweepCount
  s.updateNextWithdrawalValidatorIndex expected.withdrawals

theorem processWithdrawals_eq : s.processWithdrawals =
    if s.latestBlockHash ≠ s.latestExecutionPayloadBid.blockHash then pure s
    else s.runWithdrawals := rfl

/-- A run of the body: what was expected, the state it was debited from, and what else changed. -/
structure WithdrawalsRun (s s' : BeaconState) where
  expected : ExpectedWithdrawals
  expected_eq : s.getExpectedWithdrawals = .ok expected
  collected : Collected s expected
  applied : BeaconState
  debited : Debited expected.withdrawals s applied
  balances : s'.balances = applied.balances
  builders : s'.builders = applied.builders
  next : s'.nextWithdrawalIndex.val = s.nextWithdrawalIndex.val + expected.withdrawals.length
  outstanding : s'.payloadExpectedWithdrawals.toList = expected.withdrawals
  payouts : s.builderPendingWithdrawals.toList =
    collected.paid ++ s'.builderPendingWithdrawals.toList
  partials : s.pendingPartialWithdrawals.toList =
    collected.looked ++ s'.pendingPartialWithdrawals.toList
  window : s'.builderPendingPayments = s.builderPendingPayments
  hash : s'.latestBlockHash = s.latestBlockHash
  bid : s'.latestExecutionPayloadBid = s.latestExecutionPayloadBid

theorem updateNextWithdrawalIndex_next {ws : List Withdrawal}
    (hws : ws.map (·.index.val) = List.range' s.nextWithdrawalIndex.val ws.length) :
    Ensures (s.updateNextWithdrawalIndex ws) fun s' =>
      s' = { s with nextWithdrawalIndex := s'.nextWithdrawalIndex } ∧
        s'.nextWithdrawalIndex.val = s.nextWithdrawalIndex.val + ws.length := by
  unfold updateNextWithdrawalIndex
  cases hlast : ws.getLast? with
  | none =>
    rw [getLast?_eq_none_iff.1 hlast]
    exact .pure ⟨rfl, rfl⟩
  | some latest =>
    refine .lookup fun next hnext => .pure ⟨rfl, ?_⟩
    rw [checkedAdd_eq_some] at hnext
    have hindex := congrArg List.getLast? hws
    rw [getLast?_map, hlast, getLast?_range'] at hindex
    split at hindex
    · cases hindex
    · have := Option.some.inj hindex
      dsimp only at this ⊢
      omega

/-- The end of the body moves the two sweep cursors only. -/
theorem cursors_eq (count : U64) (ws : List Withdrawal) :
    Ensures (do
      let s ← s.updateNextWithdrawalBuilderIndex count
      s.updateNextWithdrawalValidatorIndex ws) fun s' =>
        s' = { s with
          nextWithdrawalBuilderIndex := s'.nextWithdrawalBuilderIndex
          nextWithdrawalValidatorIndex := s'.nextWithdrawalValidatorIndex } := by
  refine .bind (Q := fun s₁ => s₁ = { s with
    nextWithdrawalBuilderIndex := s₁.nextWithdrawalBuilderIndex }) ?_ fun s₁ hs₁ => ?_
  · unfold updateNextWithdrawalBuilderIndex
    exact .ite (.pure rfl) (.skip fun _ => .pure rfl)
  · rw [hs₁]
    unfold updateNextWithdrawalValidatorIndex
    refine .ite (.pure rfl) (.ite ?_ (.skip fun _ => .pure rfl))
    cases ws.getLast? with
    | none => exact .pure rfl
    | some latest => exact .skip fun _ => .pure rfl

theorem runWithdrawals_run : Ensures s.runWithdrawals fun s' => Nonempty (WithdrawalsRun s s') := by
  unfold runWithdrawals
  refine .step fun e he => ?_
  obtain ⟨collected⟩ := getExpectedWithdrawals_spec e he
  obtain ⟨left, hleft⟩ := collected.paid_first
  obtain ⟨later, hlater⟩ := collected.looked_first
  refine .bind (applyWithdrawals_debited _) fun applied hdebited => ?_
  have hrest := hdebited.rest
  have hindex : applied.nextWithdrawalIndex = s.nextWithdrawalIndex := by rw [hrest]
  refine .bind (updateNextWithdrawalIndex_next (hindex ▸ collected.indices))
    fun s₂ ⟨hs₂, hnext⟩ => ?_
  refine .bind (Q := fun s₃ => s₃.payloadExpectedWithdrawals.toList = e.withdrawals ∧
    s₃ = { s₂ with payloadExpectedWithdrawals := s₃.payloadExpectedWithdrawals }) ?_
    fun s₃ ⟨houtstanding, hs₃⟩ => (cursors_eq _ _).imp fun s' hs' => ⟨?_⟩
  · unfold updatePayloadExpectedWithdrawals
    exact .found tryFrom_eq_some.1
      fun _ h => .pure ⟨h, rfl⟩
  refine ⟨e, he, collected, applied, hdebited, ?_, ?_, ?_, ?_, ?_, ?_, ?_, ?_, ?_⟩
  · rw [hs', hs₃, hs₂]
  · rw [hs', hs₃, hs₂]
  · rw [hs']
    dsimp only
    rw [hs₃]
    dsimp only
    rw [hnext, hindex]
  · rw [hs']
    exact houtstanding
  · rw [hs', hs₃, hs₂, hrest]
    simp [BoundedList.drop, ← hleft, collected.paid_count]
  · rw [hs', hs₃, hs₂, hrest]
    simp [BoundedList.drop, ← hlater, collected.looked_count]
  · rw [hs', hs₃, hs₂, hrest]
  · rw [hs', hs₃, hs₂, hrest]
  · rw [hs', hs₃, hs₂, hrest]

/-! ## Conservation -/

/-- What the withdrawal phase owes to the validators and to the queues. -/
structure Conserves (s s' : BeaconState) (e : ExpectedWithdrawals) : Prop where
  /-- No validator is overdrawn, and each loses exactly what the withdrawals name. -/
  balances : ∀ index : ValidatorIndex, index.val < s.validators.length →
    ∃ balance balance', s.balances.get? index.val = some balance ∧
      s'.balances.get? index.val = some balance' ∧
      withdrawnFrom index e.withdrawals ≤ balance.val ∧
      balance'.val = balance.val - withdrawnFrom index e.withdrawals
  positive : s.PositivePartials → ∀ w ∈ e.withdrawals,
    ValidatorIndex.isBuilderIndex w.validatorIndex = false → 0 < w.amount.val
  length : e.withdrawals.length ≤ maxWithdrawalsPerPayload
  indices : e.withdrawals.map (·.index.val) =
    List.range' s.nextWithdrawalIndex.val e.withdrawals.length
  next : s'.nextWithdrawalIndex.val = s.nextWithdrawalIndex.val + e.withdrawals.length
  /-- The builder queue loses the entries that the first withdrawals pay. -/
  payouts : ∃ paid, s.builderPendingWithdrawals.toList =
      paid ++ s'.builderPendingWithdrawals.toList ∧
    paid.length = e.processedBuilderWithdrawalsCount.val ∧
    (e.withdrawals.take paid.length).map (·.payee) = paid.map (·.payee)
  /-- The partial queue loses the entries that were gone through. -/
  partials : ∃ looked, s.pendingPartialWithdrawals.toList =
      looked ++ s'.pendingPartialWithdrawals.toList ∧
    looked.length = e.processedPartialWithdrawalsCount.val

/-- When the withdrawal phase runs its body on aligned registries, it conserves the balances of
the validators. -/
theorem processWithdrawals_conserves (haligned : s.balances.length = s.validators.length)
    (hbody : s.latestBlockHash = s.latestExecutionPayloadBid.blockHash)
    (h : s.processWithdrawals = .ok s') :
    ∃ e, s.getExpectedWithdrawals = .ok e ∧ Conserves s s' e := by
  rw [processWithdrawals_eq, if_neg (not_not_intro hbody)] at h
  obtain ⟨run⟩ := runWithdrawals_run s' h
  refine ⟨run.expected, run.expected_eq, ?_, ?_, run.collected.bound, run.collected.indices,
    run.next, ⟨_, run.payouts, run.collected.paid_count.symm, run.collected.take_paid⟩,
    ⟨_, run.partials, run.collected.looked_count.symm⟩⟩
  · intro index hindex
    obtain ⟨v, hv⟩ : ∃ v, s.validators.get? index.val = some v :=
      ⟨_, getElem?_eq_getElem hindex⟩
    obtain ⟨balance, hbalance⟩ : ∃ b, s.balances.get? index.val = some b :=
      ⟨_, getElem?_eq_getElem (Nat.lt_of_lt_of_eq hindex haligned.symm)⟩
    have hafter := run.debited.balances index (isBuilderIndex_of_validator hv)
    rw [← run.balances, hbalance, Option.map_some] at hafter
    exact ⟨balance, _, hbalance, hafter, run.collected.withdrawnFrom_le hv hbalance,
      satSub_val _ _⟩
  · intro hpositive w hw hunflagged
    obtain ⟨before, hpayable⟩ := run.collected.covered.mem hw
    cases hpayable with
    | builder hflagged => exact absurd (hflagged.symm.trans hunflagged) (by decide)
    | validator _ _ _ _ hamount => exact hamount hpositive
end BeaconState

end Moonglass

namespace Moonglass.Devnet

open Lib

/-- A state on top of a full parent, with a partial withdrawal of the first validator in the
queue. -/
def withPartial : BeaconState :=
  { anchorState 0 with
    latestBlockHash := genesis.bid.blockHash
    pendingPartialWithdrawals := ⟨[⟨0, 5, 0⟩], by decide⟩ }

theorem processWithdrawals_conserves_partial : ∃ s' e, withPartial.processWithdrawals = .ok s' ∧
    withPartial.getExpectedWithdrawals = .ok e ∧ withPartial.Conserves s' e := by
  obtain ⟨s', h⟩ := exists_ok_of_isOk
    (show withPartial.processWithdrawals.isOk = true by decide +kernel)
  obtain ⟨e, he, hconserves⟩ := BeaconState.processWithdrawals_conserves (by decide) (by decide) h
  exact ⟨s', e, h, he, hconserves⟩

end Moonglass.Devnet
