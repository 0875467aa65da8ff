import Moonglass.StateTransition.QueueEntries

/-
  The two withdrawal sweeps leave nobody out. A sweep goes around its registry from the cursor and
  withdraws, at each place, what is due there; the cursor then moves on to a place that the sweep
  has come to. Reached from zero the cursors stay in range, so a lookup of the withdrawal phase can
  fail for an entry of a queue only.
-/

namespace Moonglass

open Lib List BoundedList Word

variable [Preset]
variable {address : ExecutionAddress} {amount : Gwei} {index : BuilderIndex}

namespace BeaconState

variable {s s' : BeaconState}

/-! ## The validator sweep -/

/-- The validator at the `i`-th place of the sweep. -/
def sweepValidator (s : BeaconState) (i : Nat) : ValidatorIndex :=
  Word.wrap ((s.nextWithdrawalValidatorIndex.val + i) % s.validators.length)

theorem sweepValidator_val (s : BeaconState) (i : Nat) (hlen : 0 < s.validators.length) :
    (s.sweepValidator i).val =
      (s.nextWithdrawalValidatorIndex.val + i) % s.validators.length :=
  wrap_mod_val _ s.validators.length_le hlen

/-- Two places less than a turn apart are of different validators. -/
theorem sweepValidator_ne {i j : Nat} (hij : i < j) (hj : j < s.validators.length) :
    s.sweepValidator i ≠ s.sweepValidator j := by
  intro heq
  have hval := congrArg Fin.val heq
  rw [sweepValidator_val s i (by omega), sweepValidator_val s j (by omega)] at hval
  have := eq_of_mod_eq hval (by omega) (by omega)
  omega

/-- The withdrawal of the validator at the `i`-th place of the sweep, if one is due: all that the
withdrawals `prior` leave of the balance, or what is left beyond the largest effective balance. -/
def sweptValidator (s : BeaconState) (prior : List Withdrawal) (i : Nat) :
    Option (ValidatorIndex × ExecutionAddress × Gwei) :=
  (s.validators.get? (s.sweepValidator i).val).bind fun v =>
    (s.balances.get? (s.sweepValidator i).val).bind fun balance =>
      let left := balance.satSub (withdrawnFrom (s.sweepValidator i) prior)
      let address := withdrawalAddressFromCredentials v.withdrawalCredentials
      if v.isFullyWithdrawableValidator left s.slot.epoch then
        some (s.sweepValidator i, address, left)
      else if v.isPartiallyWithdrawableValidator left then
        some (s.sweepValidator i, address, left.satSub v.getMaxEffectiveBalance.val)
      else none

theorem sweptValidator_index {prior : List Withdrawal} {i : Nat}
    {payee : ValidatorIndex × ExecutionAddress × Gwei} (h : s.sweptValidator prior i = some payee) :
    (s.sweepValidator i).val < s.validators.length ∧ payee.1 = s.sweepValidator i := by
  unfold sweptValidator at h
  obtain ⟨v, hv, h⟩ := Option.bind_eq_some_iff.1 h
  obtain ⟨balance, -, h⟩ := Option.bind_eq_some_iff.1 h
  refine ⟨lt_length_of_get? hv, ?_⟩
  dsimp only at h
  split at h
  · cases h
    rfl
  · split at h
    · cases h
      rfl
    · cases h

/-- What the validator sweep has picked after `k` places. When it has filled the list, the last
entry is that of the last place. -/
structure SweptValidators (s : BeaconState) (prior : List Withdrawal) (k : Nat)
    (w : WithdrawalSweep) : Prop where
  count : w.processedCount.val = k
  payees : w.withdrawals.map (·.payee) = (List.range k).filterMap (s.sweptValidator prior)
  last : maxWithdrawalsPerPayload ≤ prior.length + w.withdrawals.length →
    ∃ x, w.withdrawals.getLast? = some x ∧ 0 < k ∧ x.validatorIndex = s.sweepValidator (k - 1)

section

variable {prior : List Withdrawal} {k : Nat} {w w₁ w₂ : WithdrawalSweep}

theorem SweptValidators.mem (h : SweptValidators s prior k w) {x : Withdrawal}
    (hx : x ∈ w.withdrawals) : ∃ i < k, (s.sweepValidator i).val < s.validators.length ∧
      x.validatorIndex = s.sweepValidator i := by
  have hpayee : x.payee ∈ (List.range k).filterMap (s.sweptValidator prior) :=
    h.payees ▸ mem_map_of_mem hx
  obtain ⟨i, hi, hpick⟩ := mem_filterMap.1 hpayee
  exact ⟨i, mem_range.1 hi, sweptValidator_index hpick⟩

/-- The sweep has withdrawn nothing yet from the validator it comes to. -/
theorem SweptValidators.withdrawnFrom_eq (h : SweptValidators s prior k w)
    (hk : k < s.validators.length) :
    withdrawnFrom (s.sweepValidator k) (prior ++ w.withdrawals) =
      withdrawnFrom (s.sweepValidator k) prior := by
  have hnone : (w.withdrawals.filter fun x => x.validatorIndex = s.sweepValidator k) = [] := by
    refine filter_eq_nil_iff.2 fun x hx hsame => ?_
    obtain ⟨i, hi, -, hxi⟩ := h.mem hx
    exact sweepValidator_ne hi hk (hxi.symm.trans (of_decide_eq_true hsame))
  rw [withdrawnFrom_append]
  simp [withdrawnFrom, hnone]

theorem SweptValidators.skip (h : SweptValidators s prior k w)
    (hroom : ¬maxWithdrawalsPerPayload ≤ prior.length + w.withdrawals.length)
    (hpick : s.sweptValidator prior k = none) (hw₁ : w.countOne = .ok w₁) :
    SweptValidators s prior (k + 1) w₁ := by
  obtain ⟨hlist, -, hcount⟩ := WithdrawalSweep.countOne_eq_ok hw₁
  refine ⟨by rw [hcount, h.count], ?_, fun hfull => absurd (hlist ▸ hfull) hroom⟩
  rw [hlist, h.payees, range_succ, filterMap_append, filterMap_cons, hpick]
  simp

theorem SweptValidators.pick (h : SweptValidators s prior k w)
    (hpick : s.sweptValidator prior k = some (s.sweepValidator k, address, amount))
    (hw₁ : w.push (s.sweepValidator k) address amount = .ok w₁) (hw₂ : w₁.countOne = .ok w₂) :
    SweptValidators s prior (k + 1) w₂ := by
  obtain ⟨hlist₁, -, hcount₁⟩ := WithdrawalSweep.push_eq_ok hw₁
  obtain ⟨hlist₂, -, hcount₂⟩ := WithdrawalSweep.countOne_eq_ok hw₂
  have hlist := hlist₂.trans hlist₁
  refine ⟨by rw [hcount₂, hcount₁, h.count], ?_,
    fun _ => ⟨⟨w.withdrawalIndex, s.sweepValidator k, address, amount⟩, ?_, Nat.succ_pos k, rfl⟩⟩
  · rw [hlist, map_append, h.payees, range_succ, filterMap_append,
      filterMap_cons, hpick]
    rfl
  · rw [hlist, getLast?_concat]

end

omit [Preset] in
/-- The places before one that a range is cut at. -/
theorem range_cut {n i : Nat} {seen rest : List Nat} (h : List.range n = seen ++ i :: rest) :
    seen.length = i ∧ i < n := by
  have hlt : seen.length < (List.range n).length := by
    rw [h, length_append, length_cons]
    omega
  have hget : (List.range n)[seen.length]? = some i := by
    rw [h, getElem?_append_right (Nat.le_refl _), Nat.sub_self]
    rfl
  rw [length_range] at hlt
  rw [getElem?_range hlt] at hget
  cases hget
  exact ⟨rfl, hlt⟩

/-- The validator sweep goes through all its places or fills the list. -/
theorem getValidatorsSweepWithdrawals_swept (first : WithdrawalIndex) {prior : List Withdrawal}
    (hprior : prior.length < maxWithdrawalsPerPayload) :
    Ensures (s.getValidatorsSweepWithdrawals first prior) fun w =>
      (0 < s.validators.length → s.nextWithdrawalValidatorIndex.val < s.validators.length) ∧
      ∃ k, SweptValidators s prior k w ∧
        (k = min maxValidatorsPerWithdrawalsSweep s.validators.length ∨
          maxWithdrawalsPerPayload ≤ prior.length + w.withdrawals.length) := by
  have hstart : SweptValidators s prior 0 (.start first) := by
    refine ⟨rfl, rfl, fun hfull => ?_⟩
    simp only [WithdrawalSweep.start, length_nil] at hfull
    omega
  unfold getValidatorsSweepWithdrawals
  refine .dite (fun hzero => .pure ⟨fun hpos => absurd hzero hpos.ne', 0, hstart, .inl ?_⟩)
    fun hne => .skip fun _ => .guard fun hcursor => ?_
  · rw [hzero, Nat.min_zero]
  refine (Ensures.foldBreakM_split
    (P := fun (seen : List Nat) w => SweptValidators s prior seen.length w)
    (Q := fun seen _ w => SweptValidators s prior seen.length w ∧
      maxWithdrawalsPerPayload ≤ prior.length + w.withdrawals.length) ?_ hstart).imp ?_
  · intro seen i rest hl w hw
    obtain ⟨rfl, hi⟩ := range_cut hl
    refine .dite (fun hfull => .pure ⟨hw, hfull⟩) fun hroom => ?_
    refine .bind (Q := fun v => s.validators.get? (s.sweepValidator seen.length).val = some v)
      (fun _ h => okOr_eq_ok.1 h) fun v hv => .step fun left hleft => ?_
    obtain ⟨balance, hbalance, hval⟩ := getBalanceAfterWithdrawals_eq_ok hleft
    have hk := Nat.lt_of_lt_of_le hi (Nat.min_le_right _ _)
    -- what the loop sees of the balance is what the withdrawals before the sweep leave
    have hleft : left = balance.satSub (withdrawnFrom (s.sweepValidator seen.length) prior) :=
      Fin.ext (hval.trans (congrArg (balance.val - ·) (hw.withdrawnFrom_eq hk)))
    have hpick := sweptValidator.eq_1 s prior seen.length
    rw [show s.balances.get? (s.sweepValidator seen.length).val = some balance from hbalance,
      hv, Option.bind_some, Option.bind_some, ← hleft] at hpick
    have hnext : (seen ++ [seen.length]).length = seen.length + 1 := length_append
    refine .dite (fun hfull => ?_) fun hfull => .dite (fun hpart => ?_) fun hpart => ?_
    · refine .step fun w₁ hw₁ => .step fun w₂ hw₂ => .pure ?_
      rw [Cut, hnext]
      exact hw.pick (hpick.trans (if_pos hfull)) hw₁ hw₂
    · refine .step fun w₁ hw₁ => .step fun w₂ hw₂ => .pure ?_
      rw [Cut, hnext]
      exact hw.pick (hpick.trans ((if_neg hfull).trans (if_pos hpart))) hw₁ hw₂
    · refine .step fun w₁ hw₁ => .step fun w₂ hw₂ => .pure ?_
      cases hw₁
      rw [Cut, hnext]
      exact hw.skip hroom (hpick.trans ((if_neg hfull).trans (if_neg hpart))) hw₂
  · intro w hw
    refine ⟨fun _ => hcursor, ?_⟩
    rcases hw with hw | ⟨seen, _, _, _, hw, hfull⟩
    · rw [length_range] at hw
      exact ⟨_, hw, .inl rfl⟩
    · exact ⟨_, hw, .inr hfull⟩

/-! ## The loops of one execution -/

/-- The four loops of the withdrawal phase, one after the other. -/
structure SweepRun (s : BeaconState) (e : ExpectedWithdrawals) where
  payouts : WithdrawalSweep
  partials : WithdrawalSweep
  builders : WithdrawalSweep
  validators : WithdrawalSweep
  payouts_eq : s.getBuilderWithdrawals s.nextWithdrawalIndex [] = .ok payouts
  partials_eq : s.getPendingPartialWithdrawals payouts.withdrawalIndex payouts.withdrawals =
    .ok partials
  builders_eq : s.getBuildersSweepWithdrawals partials.withdrawalIndex
    (payouts.withdrawals ++ partials.withdrawals) = .ok builders
  validators_eq : s.getValidatorsSweepWithdrawals builders.withdrawalIndex
    (payouts.withdrawals ++ partials.withdrawals ++ builders.withdrawals) = .ok validators
  withdrawals : e.withdrawals = payouts.withdrawals ++ partials.withdrawals ++
    builders.withdrawals ++ validators.withdrawals
  expected_eq : s.getExpectedWithdrawals = .ok e
  builders_count : e.processedBuildersSweepCount = builders.processedCount
  validators_count : e.processedSweepWithdrawalsCount = validators.processedCount

theorem getExpectedWithdrawals_run :
    Ensures s.getExpectedWithdrawals fun e => Nonempty (SweepRun s e) := by
  intro e he
  have hexpected := he
  unfold getExpectedWithdrawals at he
  simp only [bind_eq_ok] at he
  obtain ⟨payouts, hpayouts, partials, hpartials, builders, hbuilders, validators, hvalidators, he⟩
    := he
  cases he
  exact ⟨payouts, partials, builders, validators, hpayouts, hpartials, hbuilders, hvalidators, rfl,
    hexpected, rfl, rfl⟩

section

variable {e : ExpectedWithdrawals}

/-- The withdrawals before the validator sweep. -/
def SweepRun.prior (run : SweepRun s e) : List Withdrawal :=
  run.payouts.withdrawals ++ run.partials.withdrawals ++ run.builders.withdrawals

theorem SweepRun.covered_payouts (run : SweepRun s e) : Covered s run.payouts.withdrawals := by
  obtain ⟨_, -, hpayouts⟩ := getBuilderWithdrawals_spec _ _ _ run.payouts_eq
  have h := Covered.nil.append_builders (s := s) fun w hw => hpayouts.isBuilderIndex hw
  rwa [nil_append] at h

/-- What the builder sweep has picked, and that there is room for one more. -/
theorem SweepRun.swept_builders (run : SweepRun s e) :
    ∃ k, run.builders.processedCount.val = k ∧
      run.builders.withdrawals.map (·.payee) = (List.range k).filterMap s.sweptBuilder ∧
      run.prior.length < maxWithdrawalsPerPayload := by
  obtain ⟨_, -, hpartials⟩ := getPendingPartialWithdrawals_spec _ run.covered_payouts _
    run.partials_eq
  have hroom : (run.payouts.withdrawals ++ run.partials.withdrawals).length ≤
      maxWithdrawalsPerPayload - 1 := by
    rw [length_append]
    exact hpartials.sweeping.bound
  obtain ⟨seen, hseen, hbuilders⟩ := getBuildersSweepWithdrawals_spec _ _ hroom _ run.builders_eq
  have hrange : seen = List.range seen.length := by
    have htake := prefix_iff_eq_take.1 hseen
    rw [take_range] at htake
    have hlength := congrArg List.length htake
    rw [length_range] at hlength
    exact htake.trans (congrArg List.range hlength.symm)
  refine ⟨seen.length, hbuilders.sweeping.count, hrange ▸ hbuilders.payees, ?_⟩
  have hbound := hbuilders.sweeping.bound
  have hmax := maxWithdrawalsPerPayload_pos
  unfold SweepRun.prior
  rw [length_append]
  omega

/-- A builder sweep that returns began in range. -/
theorem SweepRun.builder_cursor_lt (run : SweepRun s e) (hpos : 0 < s.builders.length) :
    s.nextWithdrawalBuilderIndex.val < s.builders.length := by
  have hcursor : Ensures (s.getBuildersSweepWithdrawals run.partials.withdrawalIndex
      (run.payouts.withdrawals ++ run.partials.withdrawals)) fun _ =>
      s.nextWithdrawalBuilderIndex.val < s.builders.length := by
    unfold getBuildersSweepWithdrawals
    refine .dite (fun hzero => absurd hzero hpos.ne') fun _ => ?_
    exact .guard fun hlt => .skip fun _ => fun _ _ => hlt
  exact hcursor _ run.builders_eq

end

/-! ## The cursors -/

/-- Where one execution of the body moves the cursors. -/
structure CursorsMoved (s s' : BeaconState) (e : ExpectedWithdrawals) : Prop where
  no_builder : s.builders.length = 0 →
    s'.nextWithdrawalBuilderIndex = s.nextWithdrawalBuilderIndex
  builder : 0 < s.builders.length → s'.nextWithdrawalBuilderIndex.val =
    (s.nextWithdrawalBuilderIndex.val + e.processedBuildersSweepCount.val) % s.builders.length
  no_validator : s.validators.length = 0 →
    s'.nextWithdrawalValidatorIndex = s.nextWithdrawalValidatorIndex
  /-- Past the last entry of a full list. -/
  full : 0 < s.validators.length → e.withdrawals.length = maxWithdrawalsPerPayload →
    ∃ x, e.withdrawals.getLast? = some x ∧
      s'.nextWithdrawalValidatorIndex.val = (x.validatorIndex.val + 1) % s.validators.length
  /-- By the sweep bound otherwise. -/
  stride : 0 < s.validators.length → e.withdrawals.length ≠ maxWithdrawalsPerPayload →
    s'.nextWithdrawalValidatorIndex.val =
      (s.nextWithdrawalValidatorIndex.val + maxValidatorsPerWithdrawalsSweep) %
        s.validators.length

theorem updateNextWithdrawalBuilderIndex_eq (count : U64) :
    Ensures (s.updateNextWithdrawalBuilderIndex count) fun s' =>
      s' = { s with nextWithdrawalBuilderIndex := s'.nextWithdrawalBuilderIndex } ∧
      (s.builders.length = 0 → s'.nextWithdrawalBuilderIndex = s.nextWithdrawalBuilderIndex) ∧
      (0 < s.builders.length → s'.nextWithdrawalBuilderIndex.val =
        (s.nextWithdrawalBuilderIndex.val + count.val) % s.builders.length) := by
  unfold updateNextWithdrawalBuilderIndex
  refine .dite (fun hzero => .pure ⟨rfl, fun _ => rfl, fun hpos => absurd hzero hpos.ne'⟩)
    fun hne => .found checkedAdd_eq_some.1 fun next hnext => ?_
  refine .pure ⟨rfl, fun hzero => absurd hzero hne, fun hpos => ?_⟩
  rw [← hnext]
  exact wrap_mod_val _ s.builders.length_le hpos

theorem updateNextWithdrawalValidatorIndex_eq (ws : List Withdrawal) :
    Ensures (s.updateNextWithdrawalValidatorIndex ws) fun s' =>
      s' = { s with nextWithdrawalValidatorIndex := s'.nextWithdrawalValidatorIndex } ∧
      (s.validators.length = 0 →
        s'.nextWithdrawalValidatorIndex = s.nextWithdrawalValidatorIndex) ∧
      (0 < s.validators.length → ws.length = maxWithdrawalsPerPayload →
        ∃ x, ws.getLast? = some x ∧ s'.nextWithdrawalValidatorIndex.val =
          (x.validatorIndex.val + 1) % s.validators.length) ∧
      (0 < s.validators.length → ws.length ≠ maxWithdrawalsPerPayload →
        s'.nextWithdrawalValidatorIndex.val =
          (s.nextWithdrawalValidatorIndex.val + maxValidatorsPerWithdrawalsSweep) %
            s.validators.length) := by
  unfold updateNextWithdrawalValidatorIndex
  refine .dite (fun hzero => .pure ⟨rfl, fun _ => rfl, fun hpos => absurd hzero hpos.ne',
    fun hpos => absurd hzero hpos.ne'⟩) fun hne => .dite (fun hfull => ?_) fun hfull => ?_
  · cases hlast : ws.getLast? with
    | none =>
      have hmax := maxWithdrawalsPerPayload_pos
      rw [getLast?_eq_none_iff.1 hlast, length_nil] at hfull
      omega
    | some latest =>
      refine .found checkedAdd_eq_some.1 fun next hnext => ?_
      refine .pure ⟨rfl, fun hzero => absurd hzero hne, fun hpos _ => ⟨latest, rfl, ?_⟩,
        fun _ hnot => absurd hfull hnot⟩
      rw [← hnext]
      exact wrap_mod_val _ s.validators.length_le hpos
  · refine .found checkedAdd_eq_some.1 fun next hnext => ?_
    refine .pure ⟨rfl, fun hzero => absurd hzero hne, fun _ hyes => absurd hyes hfull,
      fun hpos _ => ?_⟩
    rw [← hnext]
    exact wrap_mod_val _ s.validators.length_le hpos

theorem runWithdrawals_cursors : Ensures s.runWithdrawals fun s' =>
    ∃ e, Nonempty (SweepRun s e) ∧ CursorsMoved s s' e := by
  unfold runWithdrawals
  refine .step fun e he => ?_
  obtain ⟨collected⟩ := getExpectedWithdrawals_spec e he
  refine .bind (applyWithdrawals_debited _) fun applied hdebited => ?_
  have hrest := hdebited.rest
  have hindex : applied.nextWithdrawalIndex = s.nextWithdrawalIndex := by rw [hrest]
  refine .bind (updateNextWithdrawalIndex_next (hindex ▸ collected.indices)) fun s₂ ⟨hs₂, _⟩ => ?_
  refine .bind (Q := fun s₃ => s₃ = { s₂ with
    payloadExpectedWithdrawals := s₃.payloadExpectedWithdrawals }) ?_ fun s₃ hs₃ => ?_
  · unfold updatePayloadExpectedWithdrawals
    exact .skip fun _ => .pure rfl
  -- so far neither registry has changed its length, and no cursor has moved
  have hbuilders : s₃.builders.length = s.builders.length := by
    rw [hs₃, hs₂]
    exact hdebited.length
  have hvalidators : s₃.validators = s.validators := by rw [hs₃, hs₂, hrest]
  have hbuilder : s₃.nextWithdrawalBuilderIndex = s.nextWithdrawalBuilderIndex := by
    rw [hs₃, hs₂, hrest]
  have hvalidator : s₃.nextWithdrawalValidatorIndex = s.nextWithdrawalValidatorIndex := by
    rw [hs₃, hs₂, hrest]
  refine .bind (updateNextWithdrawalBuilderIndex_eq _) fun s₄ ⟨hs₄, hnone, hsome⟩ => ?_
  refine (updateNextWithdrawalValidatorIndex_eq _).imp fun s₅ ⟨hs₅, hnone', hfull, hstride⟩ => ?_
  rw [hs₄] at hs₅ hnone' hfull hstride
  dsimp only at hnone hsome hnone' hfull hstride
  rw [hvalidators, hvalidator] at hnone' hstride
  rw [hvalidators] at hfull
  rw [hbuilders, hbuilder] at hnone hsome
  have hmoved : s₅.nextWithdrawalBuilderIndex = s₄.nextWithdrawalBuilderIndex := by rw [hs₅]
  refine ⟨e, getExpectedWithdrawals_run e he, ⟨fun hzero => ?_, fun hpos => ?_, hnone', hfull,
    hstride⟩⟩
  · rw [hmoved, hnone hzero]
  · rw [hmoved, hsome hpos]

/-! ## Coverage -/

/-- The builders that the sweep examined. -/
def examinedBuilders (s : BeaconState) (e : ExpectedWithdrawals) : List Nat :=
  around s.builders.length s.nextWithdrawalBuilderIndex.val e.processedBuildersSweepCount.val

/-- The validators that the sweep examined. -/
def examinedValidators (s : BeaconState) (e : ExpectedWithdrawals) : List Nat :=
  around s.validators.length s.nextWithdrawalValidatorIndex.val
    e.processedSweepWithdrawalsCount.val

/-- One execution of the body from `s` to `s'` leaves out nobody that a cursor moves past. -/
structure SweepRun.NeverSkips {e : ExpectedWithdrawals} (run : SweepRun s e) (s' : BeaconState) :
    Prop where
  /-- At each examined builder the sweep withdraws what is due, in order and nothing else. -/
  builders_due : run.builders.withdrawals.map (·.payee) =
    (List.range e.processedBuildersSweepCount.val).filterMap s.sweptBuilder
  /-- At each examined validator the sweep withdraws what is due, in order and nothing else. -/
  validators_due : run.validators.withdrawals.map (·.payee) =
    (List.range e.processedSweepWithdrawalsCount.val).filterMap (s.sweptValidator run.prior)
  builders_passed : passedOver s.builders.length s.nextWithdrawalBuilderIndex.val
    s'.nextWithdrawalBuilderIndex.val ⊆ s.examinedBuilders e
  validators_passed : passedOver s.validators.length s.nextWithdrawalValidatorIndex.val
    s'.nextWithdrawalValidatorIndex.val ⊆ s.examinedValidators e
  all_examined : e.withdrawals.length ≠ maxWithdrawalsPerPayload →
    s.validators.length ≤ maxValidatorsPerWithdrawalsSweep →
    ∀ j < s.validators.length, j ∈ s.examinedValidators e
  full_last : e.withdrawals.length = maxWithdrawalsPerPayload →
    ∃ x, e.withdrawals.getLast? = some x ∧ run.validators.withdrawals.getLast? = some x

omit [Preset] in
theorem passedOver_self_zero (a : Nat) : passedOver 0 a a = [] := by
  simp [passedOver, around]

section

variable {e : ExpectedWithdrawals}

theorem SweepRun.builders_passed (run : SweepRun s e) (hmoved : CursorsMoved s s' e) :
    passedOver s.builders.length s.nextWithdrawalBuilderIndex.val
      s'.nextWithdrawalBuilderIndex.val ⊆ s.examinedBuilders e := by
  rcases Nat.eq_zero_or_pos s.builders.length with hzero | hpos
  · rw [hmoved.no_builder hzero, hzero, passedOver_self_zero]
    exact nil_subset _
  · rw [hmoved.builder hpos]
    exact passedOver_subset (run.builder_cursor_lt hpos) _

/-- The last entry of a full list is the last pick of the validator sweep. -/
theorem SweepRun.full_last (run : SweepRun s e) {k : Nat} (hswept : SweptValidators s run.prior k run.validators)
    (hfull : e.withdrawals.length = maxWithdrawalsPerPayload) :
    ∃ x, e.withdrawals.getLast? = some x ∧ run.validators.withdrawals.getLast? = some x ∧
      0 < k ∧ x.validatorIndex = s.sweepValidator (k - 1) := by
  have hsum : e.withdrawals = run.prior ++ run.validators.withdrawals := run.withdrawals
  have hlength : maxWithdrawalsPerPayload ≤
      run.prior.length + run.validators.withdrawals.length := by
    rw [← hfull, hsum, length_append]
  obtain ⟨x, hx, hk, hindex⟩ := hswept.last hlength
  refine ⟨x, ?_, hx, hk, hindex⟩
  rw [hsum, getLast?_append, hx]
  rfl

theorem SweepRun.validators_passed (run : SweepRun s e) (hmoved : CursorsMoved s s' e)
    {k : Nat} (hswept : SweptValidators s run.prior k run.validators)
    (hcursor : 0 < s.validators.length →
      s.nextWithdrawalValidatorIndex.val < s.validators.length)
    (hends : k = min maxValidatorsPerWithdrawalsSweep s.validators.length ∨
      e.withdrawals.length = maxWithdrawalsPerPayload) :
    passedOver s.validators.length s.nextWithdrawalValidatorIndex.val
      s'.nextWithdrawalValidatorIndex.val ⊆ s.examinedValidators e := by
  have hcount : e.processedSweepWithdrawalsCount.val = k := by
    rw [run.validators_count, hswept.count]
  unfold examinedValidators
  rw [hcount]
  rcases Nat.eq_zero_or_pos s.validators.length with hzero | hpos
  · rw [hmoved.no_validator hzero, hzero, passedOver_self_zero]
    exact nil_subset _
  · by_cases hfull : e.withdrawals.length = maxWithdrawalsPerPayload
    · obtain ⟨x, hx, hcursor'⟩ := hmoved.full hpos hfull
      obtain ⟨y, hy, -, hk, hindex⟩ := run.full_last hswept hfull
      cases hx.symm.trans hy
      have hplace : (x.validatorIndex.val + 1) % s.validators.length =
          (s.nextWithdrawalValidatorIndex.val + k) % s.validators.length := by
        rw [hindex, sweepValidator_val s _ hpos, Nat.mod_add_mod,
          show s.nextWithdrawalValidatorIndex.val + (k - 1) + 1 =
            s.nextWithdrawalValidatorIndex.val + k by omega]
      rw [hcursor', hplace]
      exact passedOver_subset (hcursor hpos) k
    · have hk := hends.resolve_right hfull
      rw [hmoved.stride hpos hfull]
      intro j hj
      have hbound := passedOver_subset (hcursor hpos) _ hj
      rcases Nat.le_total maxValidatorsPerWithdrawalsSweep s.validators.length with hle | hle
      · rwa [hk, Nat.min_eq_left hle]
      · -- the bound takes the cursor around at least once, and so did the sweep
        obtain ⟨i, -, rfl⟩ := mem_around.1 hbound
        rw [hk, Nat.min_eq_right hle]
        exact mem_around_of_lt (hcursor hpos) (Nat.le_refl _) (Nat.mod_lt _ hpos)

/-- An execution of the body leaves out nobody. -/
theorem SweepRun.neverSkips (run : SweepRun s e) (hmoved : CursorsMoved s s' e) :
    run.NeverSkips s' := by
  obtain ⟨k, hcount, hpayees, hroom⟩ := run.swept_builders
  obtain ⟨hcursor, k', hswept, hends⟩ := getValidatorsSweepWithdrawals_swept _ hroom _
    run.validators_eq
  have hcount' : e.processedSweepWithdrawalsCount.val = k' := by
    rw [run.validators_count, hswept.count]
  have hends : k' = min maxValidatorsPerWithdrawalsSweep s.validators.length ∨
      e.withdrawals.length = maxWithdrawalsPerPayload := by
    refine hends.imp_right fun hfull => ?_
    obtain ⟨collected⟩ := getExpectedWithdrawals_spec e run.expected_eq
    refine Nat.le_antisymm collected.bound ?_
    rw [run.withdrawals, length_append]
    exact hfull
  refine ⟨?_, ?_, run.builders_passed hmoved, run.validators_passed hmoved hswept hcursor hends,
    fun hnot hle j hj => ?_, fun hfull => ?_⟩
  · rw [run.builders_count, hcount, hpayees]
  · rw [hcount', hswept.payees]
  · unfold examinedValidators
    rw [hcount', hends.resolve_right hnot, Nat.min_eq_right hle]
    exact mem_around_of_lt (hcursor (Nat.zero_lt_of_lt hj)) (Nat.le_refl _) hj
  · obtain ⟨x, hx, hx', -⟩ := run.full_last hswept hfull
    exact ⟨x, hx, hx'⟩

end

/-! ## Index errors -/

end BeaconState

/-- The error is not about an index. -/
def TransitionError.NotIndex (e : TransitionError) : Prop :=
  (∀ r, e ≠ .registry r) ∧ ∀ p, e ≠ .primitive p

omit [Preset] in
@[simp] theorem TransitionError.notIndex_iff {e : TransitionError} :
    e.NotIndex ↔ (∀ r, e ≠ .registry r) ∧ ∀ p, e ≠ .primitive p := .rfl

/-- The computation does not fail for an index. -/
abbrev NoIndexError {α : Type} (x : Transition α) : Prop := Fails x TransitionError.NotIndex

namespace BeaconState

variable {s s' : BeaconState}

/-- A cursor points at an entry, if there are any. -/
structure CursorsInRange (s : BeaconState) : Prop where
  builder : 0 < s.builders.length → s.nextWithdrawalBuilderIndex.val < s.builders.length
  validator : 0 < s.validators.length → s.nextWithdrawalValidatorIndex.val < s.validators.length

/-- The index of a registered validator, or the flagged one of a registered builder. -/
def Registered (s : BeaconState) (index : ValidatorIndex) : Prop :=
  index.val < s.validators.length ∨
    ∃ b : BuilderIndex, b.val < s.builders.length ∧ index = b.flagged

theorem lt_flag_of_registered (h : index.val < s.builders.length) :
    index.val < builderIndexFlag := Nat.lt_of_lt_of_le h s.builders.length_le

theorem validator_noIndexError {index : ValidatorIndex} (h : index.val < s.validators.length) :
    NoIndexError (s.validator index) :=
  fails_okOr.2 fun hnone => absurd hnone (get?_ne_none h)

theorem builder_noIndexError (h : index.val < s.builders.length) : NoIndexError (s.builder index) :=
  fails_okOr.2 fun hnone => absurd hnone (get?_ne_none h)

omit [Preset] in
theorem toValidatorIndex_noIndexError (h : index.val < builderIndexFlag) :
    NoIndexError index.toValidatorIndex := by
  have hself : index ≠ builderIndexSelfBuild := by
    rintro rfl
    revert h
    decide
  unfold BuilderIndex.toValidatorIndex
  rw [ensure_of hself, ok_bind, ensure_of h, ok_bind]
  exact fails_pure _

omit [Preset] in
@[simp] theorem push_noIndexError (w : WithdrawalSweep) (index : ValidatorIndex)
    (address : ExecutionAddress) (amount : Gwei) : NoIndexError (w.push index address amount) := by
  simp [WithdrawalSweep.push]

omit [Preset] in
@[simp] theorem countOne_noIndexError (w : WithdrawalSweep) : NoIndexError w.countOne := by
  simp [WithdrawalSweep.countOne]

@[simp] theorem getBalanceAfterWithdrawals_noIndexError (s : BeaconState) (index : ValidatorIndex)
    (withdrawals : List Withdrawal) :
    NoIndexError (s.getBalanceAfterWithdrawals index withdrawals) := by
  unfold getBalanceAfterWithdrawals
  exact .skip (by simp) fun _ => .skip (fails_checkedSum (by simp) _) fun _ => fails_pure _

/-! ### The four loops -/

theorem getBuilderWithdrawals_noIndexError (hqueues : s.QueuesRegistered) (first : WithdrawalIndex)
    (prior : List Withdrawal) : NoIndexError (s.getBuilderWithdrawals first prior) := by
  unfold getBuilderWithdrawals
  refine .skip (by simp) fun _ => .foldBreakM_each fun w entry hentry => ?_
  refine .ite (fails_pure _) ?_
  have hlt := lt_flag_of_registered (hqueues.payouts entry hentry)
  exact .skip (toValidatorIndex_noIndexError hlt) fun _ => by simp

theorem getPendingPartialWithdrawals_noIndexError (hqueues : s.QueuesRegistered)
    (first : WithdrawalIndex) (prior : List Withdrawal) :
    NoIndexError (s.getPendingPartialWithdrawals first prior) := by
  unfold getPendingPartialWithdrawals
  refine .skip (by simp) fun _ => .foldBreakM_each fun w entry hentry => ?_
  refine .ite (fails_pure _) ?_
  exact .skip (validator_noIndexError (hqueues.partials entry hentry)) fun _ => by simp

theorem getBuildersSweepWithdrawals_noIndexError (hcursors : s.CursorsInRange)
    (first : WithdrawalIndex) (prior : List Withdrawal) :
    NoIndexError (s.getBuildersSweepWithdrawals first prior) := by
  unfold getBuildersSweepWithdrawals
  refine fails_ite.2 ⟨fun _ => fails_pure _, fun hne => ?_⟩
  have hpos := Nat.pos_of_ne_zero hne
  refine .skip (fails_ensure.2 fun hout => absurd (hcursors.builder hpos) hout) fun _ => ?_
  refine .skip (by simp) fun _ => .foldBreakM_each fun w i _ => ?_
  refine .ite (fails_pure _) ?_
  have hplace : (s.sweepCursor i).val < s.builders.length := by
    rw [sweepCursor_val s i hpos]
    exact Nat.mod_lt _ hpos
  refine .skip (builder_noIndexError hplace) fun b => fails_ite.2 ⟨fun _ => ?_, fun _ => by simp⟩
  exact .skip (toValidatorIndex_noIndexError (lt_flag_of_registered hplace)) fun _ => by simp

theorem getValidatorsSweepWithdrawals_noIndexError (hcursors : s.CursorsInRange)
    (first : WithdrawalIndex) (prior : List Withdrawal) :
    NoIndexError (s.getValidatorsSweepWithdrawals first prior) := by
  unfold getValidatorsSweepWithdrawals
  refine fails_ite.2 ⟨fun _ => fails_pure _, fun hne => .skip (by simp) fun _ => ?_⟩
  have hpos := Nat.pos_of_ne_zero hne
  refine .skip (fails_ensure.2 fun hout => absurd (hcursors.validator hpos) hout) fun _ => ?_
  refine .foldBreakM_each fun w i _ => .ite (fails_pure _) ?_
  have hplace : (s.sweepValidator i).val < s.validators.length := by
    rw [sweepValidator_val s i hpos]
    exact Nat.mod_lt _ hpos
  exact .skip (validator_noIndexError hplace) fun _ => by simp

theorem getExpectedWithdrawals_noIndexError (hcursors : s.CursorsInRange)
    (hqueues : s.QueuesRegistered) : NoIndexError s.getExpectedWithdrawals := by
  unfold getExpectedWithdrawals
  refine .skip (getBuilderWithdrawals_noIndexError hqueues _ _) fun _ => ?_
  refine .skip (getPendingPartialWithdrawals_noIndexError hqueues _ _) fun _ => ?_
  refine .skip (getBuildersSweepWithdrawals_noIndexError hcursors _ _) fun _ => ?_
  exact .skip (getValidatorsSweepWithdrawals_noIndexError hcursors _ _) fun _ => fails_pure _

/-! ### What the loops withdraw from -/

/-- All withdrawals are from registered validators and builders. -/
def AllRegistered (s : BeaconState) (ws : List Withdrawal) : Prop :=
  ∀ x ∈ ws, s.Registered x.validatorIndex

theorem AllRegistered.append {ws ws' : List Withdrawal} (h : s.AllRegistered ws)
    (h' : s.AllRegistered ws') : s.AllRegistered (ws ++ ws') := by
  intro x hx
  rcases mem_append.1 hx with hx | hx
  · exact h x hx
  · exact h' x hx

theorem AllRegistered.push {w w₁ : WithdrawalSweep} (h : s.AllRegistered w.withdrawals)
    {index : ValidatorIndex} (hindex : s.Registered index)
    (hw₁ : w.push index address amount = .ok w₁) : s.AllRegistered w₁.withdrawals := by
  rw [(WithdrawalSweep.push_eq_ok hw₁).1]
  refine h.append fun x hx => ?_
  rw [mem_singleton.1 hx]
  exact hindex

theorem getPendingPartialWithdrawals_registered (first : WithdrawalIndex)
    (prior : List Withdrawal) :
    Ensures (s.getPendingPartialWithdrawals first prior) fun w =>
      s.AllRegistered w.withdrawals := by
  unfold getPendingPartialWithdrawals
  refine .skip fun _ => .foldBreakM (fun entry w hw => ?_) (fun x hx => by cases hx)
  refine .ite (.pure hw) (.lookup fun v hv => .skip fun left => ?_)
  have hindex : s.Registered entry.validatorIndex := .inl (lt_length_of_get? hv)
  have hnext : ∀ w₁ : WithdrawalSweep, s.AllRegistered w₁.withdrawals → Ensures (do
      let w₂ ← w₁.countOne
      pure (ForInStep.yield w₂)) fun r => s.AllRegistered r.value.withdrawals :=
    fun w₁ hw₁ => .step fun w₂ hw₂ =>
      .pure ((WithdrawalSweep.countOne_eq_ok hw₂).1.symm ▸ hw₁)
  refine .ite ?_ (hnext w hw)
  exact .bind (fun w₁ h => hw.push hindex h) hnext

theorem SweepRun.registered {e : ExpectedWithdrawals} (run : SweepRun s e)
    (hqueues : s.QueuesRegistered) : s.AllRegistered e.withdrawals := by
  have hpayouts : s.AllRegistered run.payouts.withdrawals := by
    intro x hx
    obtain ⟨paid, hpaid, h⟩ := getBuilderWithdrawals_spec _ _ _ run.payouts_eq
    have hpayee : x.payee ∈ paid.map (·.payee) := h.payees ▸ mem_map_of_mem hx
    obtain ⟨entry, hentry, heq⟩ := mem_map.1 hpayee
    exact .inr ⟨entry.builderIndex, hqueues.payouts entry (hpaid.subset hentry),
      (congrArg Prod.fst heq).symm⟩
  obtain ⟨_, -, hpicks, hroom⟩ := run.swept_builders
  have hbuilders : s.AllRegistered run.builders.withdrawals := by
    intro x hx
    have hpayee := hpicks ▸ mem_map_of_mem (f := Withdrawal.payee) hx
    obtain ⟨i, -, hpick⟩ := mem_filterMap.1 hpayee
    obtain ⟨b, hb, hpick⟩ := Option.bind_eq_some_iff.1 hpick
    obtain ⟨-, hpick⟩ := Option.ite_none_right_eq_some.1 hpick
    exact .inr ⟨s.sweepCursor i, lt_length_of_get? hb,
      (congrArg Prod.fst (Option.some.inj hpick)).symm⟩
  have hvalidators : s.AllRegistered run.validators.withdrawals := by
    intro x hx
    obtain ⟨_, k, hswept, -⟩ := getValidatorsSweepWithdrawals_swept _ hroom _ run.validators_eq
    obtain ⟨i, -, hlt, hindex⟩ := hswept.mem hx
    exact .inl (hindex ▸ hlt)
  rw [run.withdrawals]
  exact ((hpayouts.append (getPendingPartialWithdrawals_registered _ _ _ run.partials_eq)).append
    hbuilders).append hvalidators

/-! ### The whole phase -/

theorem applyWithdrawals_noIndexError {ws : List Withdrawal} (hws : s.AllRegistered ws) :
    NoIndexError (s.applyWithdrawals ws) := by
  unfold applyWithdrawals
  refine .foldlM (Q := fun t : BeaconState => t.validators.length = s.validators.length ∧
    t.builders.length = s.builders.length) (fun t w hw ⟨hvalidators, hbuilders⟩ => ⟨?_, ?_⟩)
    ⟨rfl, rfl⟩
  · rcases hws w hw with hlt | ⟨b, hb, hflagged⟩
    · have hplain : ValidatorIndex.isBuilderIndex w.validatorIndex = false :=
        ValidatorIndex.not_isBuilderIndex (Nat.lt_of_lt_of_le hlt s.validators.length_le)
      rw [hplain]
      unfold decreaseBalance updateBalance
      exact .skip (validator_noIndexError (hvalidators ▸ hlt)) fun _ => by simp
    · have hflag := lt_flag_of_registered hb
      rw [hflagged, BuilderIndex.isBuilderIndex_flagged hflag,
        BuilderIndex.toBuilderIndex_flagged hflag]
      refine .bind (fails_ok b) (fun _ h => Except.ok.inj h) ?_
      rintro _ rfl
      exact .skip (builder_noIndexError (hbuilders ▸ hb)) fun _ => fails_pure _
  · refine .ite (.skip fun index => .skip fun b => .pure ⟨hvalidators, ?_⟩) ?_
    · rw [BoundedList.length_set]
      exact hbuilders
    · unfold decreaseBalance updateBalance
      exact .skip fun _ => .skip fun _ => .skip fun _ => .pure ⟨hvalidators, hbuilders⟩

/-- With the cursors in range only an entry of a queue can make the withdrawal phase fail for an
index. -/
theorem processWithdrawals_noIndexError (hcursors : s.CursorsInRange)
    (hqueues : s.QueuesRegistered) : NoIndexError s.processWithdrawals := by
  unfold processWithdrawals
  refine .ite (fails_pure _) ?_
  refine .bind (getExpectedWithdrawals_noIndexError hcursors hqueues)
    getExpectedWithdrawals_run fun e ⟨run⟩ => ?_
  refine .skip (applyWithdrawals_noIndexError (run.registered hqueues)) fun s₁ =>
    .skip ?_ fun s₂ => .skip ?_ fun s₃ => ?_
  · unfold updateNextWithdrawalIndex
    split <;> simp
  · simp [updatePayloadExpectedWithdrawals]
  · refine .skip (by simp [updateNextWithdrawalBuilderIndex]) fun s₄ => ?_
    unfold updateNextWithdrawalValidatorIndex
    refine fails_ite.2 ⟨fun _ => fails_pure _, fun _ => fails_ite.2 ⟨fun _ => ?_, fun _ => by simp⟩⟩
    split <;> simp

/-! ## Whole runs -/

/-- What the withdrawal phase does in a state whose cursors are in range. -/
structure SweepsSound (s : BeaconState) : Prop where
  cursors : s.CursorsInRange
  no_index_error : s.QueuesRegistered → NoIndexError s.processWithdrawals
  never_skips : ∀ s', s.latestBlockHash = s.latestExecutionPayloadBid.blockHash →
    s.processWithdrawals = .ok s' → ∃ e, ∃ run : SweepRun s e, run.NeverSkips s'

theorem CursorsInRange.sound (h : s.CursorsInRange) : s.SweepsSound where
  cursors := h
  no_index_error := processWithdrawals_noIndexError h
  never_skips s' hbody hs' := by
    rw [processWithdrawals_eq, if_neg (not_not_intro hbody)] at hs'
    obtain ⟨e, ⟨run⟩, hmoved⟩ := runWithdrawals_cursors s' hs'
    exact ⟨e, run, run.neverSkips hmoved⟩

end BeaconState

/-- Each cursor is at zero or in range. -/
def Registry.CursorsStay (r : Registry) : Prop :=
  (r.nextWithdrawalBuilderIndex.val = 0 ∨
    r.nextWithdrawalBuilderIndex.val < r.builderKeys.length) ∧
  (r.nextWithdrawalValidatorIndex.val = 0 ∨
    r.nextWithdrawalValidatorIndex.val < r.validators.length)

omit [Preset] in
theorem CursorMoves.stays {count : Nat} {cursor cursor' : U64} (h : CursorMoves count cursor cursor')
    (hcursor : cursor.val = 0 ∨ cursor.val < count) : cursor'.val = 0 ∨ cursor'.val < count := by
  rcases h with ⟨-, rfl⟩ | hlt
  · exact hcursor
  · exact .inr hlt

theorem RegistryMove.cursorsStay {p : Phase} {r r' : Registry} (move : RegistryMove p r r')
    (h : r.CursorsStay) : r'.CursorsStay := by
  obtain ⟨hbuilder, hvalidator⟩ := h
  obtain ⟨hvalidators, hbuilders⟩ := move.lengths_le
  cases move with
  | moveBuilderCursor hcursor => exact ⟨hcursor.stays hbuilder, hvalidator⟩
  | moveValidatorCursor hcursor => exact ⟨hbuilder, hcursor.stays hvalidator⟩
  | _ =>
    exact ⟨hbuilder.imp_right (·.trans_le hbuilders),
      hvalidator.imp_right (·.trans_le hvalidators)⟩

theorem Registry.CursorsStay.inRange {s : BeaconState} (h : s.registry.CursorsStay) :
    s.CursorsInRange where
  builder hpos := by
    have hlength : s.registry.builderKeys.length = s.builders.length := length_map _
    rcases h.1 with hzero | hlt
    · exact hzero ▸ hpos
    · exact Nat.lt_of_lt_of_eq hlt hlength
  validator hpos := by
    rcases h.2 with hzero | hlt
    · exact hzero ▸ hpos
    · exact hlt

/-- Along a run from zero cursors the sweeps are sound in every state, and in every state from
which a block begins its withdrawal phase. If the entries at the start are registered, no lookup of
the withdrawal phase fails. -/
theorem sweeps_never_skip [Crypto] {s s' : BeaconState} {events : List ChainEvent}
    (hrun : Runs s events s') (hbuilder : s.nextWithdrawalBuilderIndex = 0)
    (hvalidator : s.nextWithdrawalValidatorIndex = 0) :
    (s'.SweepsSound ∧ (s.EntriesRegistered → NoIndexError s'.processWithdrawals)) ∧
    ∀ block parent header, s'.processParentExecutionPayload block = .ok parent →
      parent.processBlockHeader block = .ok header →
      header.SweepsSound ∧ (s.EntriesRegistered → NoIndexError header.processWithdrawals) := by
  have hstart : s.registry.CursorsStay :=
    ⟨.inl (congrArg Fin.val hbuilder), .inl (congrArg Fin.val hvalidator)⟩
  have hend : s'.registry.CursorsStay :=
    hrun.registry_inv (fun move => move.cursorsStay) (fun _ h => h) hstart
  have hsound := hend.inRange.sound
  refine ⟨⟨hsound, fun hs => hsound.no_index_error (hrun.entriesRegistered hs).queues⟩,
    fun block parent header hparent hheader => ?_⟩
  have hmoves := BeaconState.beforeWithdrawals_moves hparent hheader
  have hstays : header.registry.CursorsStay := hmoves.inv (fun move => move.cursorsStay) hend
  have hsound := hstays.inRange.sound
  exact ⟨hsound, fun hs =>
    hsound.no_index_error ((hrun.entriesRegistered hs).header hparent hheader)⟩

end Moonglass

namespace Moonglass.Devnet

theorem stakers_entriesRegistered : stakers.EntriesRegistered where
  partials _ hp := absurd hp List.not_mem_nil
  owed.queue _ hw := absurd hw List.not_mem_nil
  owed.window i p hp := by
    have hp : (Vector.replicate builderPaymentWindowLen BuilderPendingPayment.default)[i]? =
      some p := hp
    rw [Vector.getElem?_replicate] at hp
    split at hp
    · exact .inl (Option.some.inj hp).symm
    · cases hp
  owed.bid h := absurd h (by decide)

/-- A block on a full parent sweeps: from registered entries its withdrawal phase meets no index
error, pays out the first validator and passes nobody over. -/
theorem sweeps_never_skip_stakeChild : ∃ events s' s'',
    Runs stakers events s' ∧ events.map (·.block) = [none, some stakeBlock, none] ∧
    s'.processBlock stakeChild = .ok s'' ∧
    s''.payloadExpectedWithdrawals.toList.map (·.validatorIndex) = [0] ∧
    ∃ phases : s'.BlockPhases stakeChild s'', NoIndexError phases.header.processWithdrawals ∧
      ∃ e, ∃ run : phases.header.SweepRun e, run.NeverSkips phases.withdrawals := by
  have hcheck : followCheck (fun _ s' =>
      s'.latestExecutionPayloadBid.blockHash = stakeBlock.bid.blockHash ∧
        (s'.processBlock stakeChild).toOption.map
          (·.payloadExpectedWithdrawals.toList.map (·.validatorIndex)) = some [0]) stakers
      [none, some stakeBlock, none] = true := by decide +kernel
  obtain ⟨events, s', hruns, hblocks, hfull, hswept⟩ := followCheck_runs hcheck
  cases hs'' : s'.processBlock stakeChild with
  | error e =>
    rw [hs''] at hswept
    cases hswept
  | ok s'' =>
    rw [hs''] at hswept
    obtain ⟨phases⟩ := BeaconState.processBlock_phases hs''
    obtain ⟨hsound, hregistered⟩ := (sweeps_never_skip hruns rfl rfl).2 stakeChild _ _
      phases.parent_eq phases.header_eq
    exact ⟨events, s', s'', hruns, hblocks, hs'', Option.some.inj hswept, phases,
      hregistered stakers_entriesRegistered,
      hsound.never_skips _ (phases.parentDecision.agree.2 hfull.symm) phases.withdrawals_eq⟩

/-- A state on top of a full parent, with a partial withdrawal of a validator that is not
registered. -/
def strayPartial : BeaconState :=
  { withPartial with pendingPartialWithdrawals := ⟨[⟨99, 5, 0⟩], by decide⟩ }

/-- The cursors are at zero and in range, and the withdrawal phase fails for an index. -/
theorem strayPartial_index_error : Runs strayPartial [] strayPartial ∧
    strayPartial.nextWithdrawalBuilderIndex = 0 ∧
    strayPartial.nextWithdrawalValidatorIndex = 0 ∧ strayPartial.CursorsInRange ∧
    strayPartial.processWithdrawals = .error (.registry (.validatorIndexOutOfRange 99)) := by
  refine ⟨.nil _, by decide, by decide, ⟨by decide, by decide⟩, ?_⟩
  have hcheck : (match strayPartial.processWithdrawals with
    | .error e => decide (e = .registry (.validatorIndexOutOfRange 99))
    | .ok _ => false) = true := by decide +kernel
  cases hresult : strayPartial.processWithdrawals with
  | ok s' =>
    rw [hresult] at hcheck
    cases hcheck
  | error e =>
    rw [hresult] at hcheck
    rw [of_decide_eq_true hcheck]

end Moonglass.Devnet
