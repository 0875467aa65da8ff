import Moonglass.StateTransition.Withdrawal
import Mathlib.Data.Nat.Bitwise

/-
  What the four withdrawal loops collect. Each loop numbers what it picks from the index it is
  given, stays within its limit and counts the entries it has gone through. The two builder loops
  pick flagged indices only; the two validator loops pick at most what the earlier picks have left
  of a balance, so all picks of one validator together are covered by its balance.
-/

namespace Moonglass

open Lib List Word

variable [Preset]
variable {index : ValidatorIndex} {e : TransitionError} {address : ExecutionAddress}
  {amount left : Gwei} {ws : List Withdrawal} {v : Validator}

/-! ## Flagged indices -/

omit [Preset] in
theorem ValidatorIndex.isBuilderIndex_iff (index : ValidatorIndex) :
    ValidatorIndex.isBuilderIndex index = true ↔ index.val.testBit 40 = true := by
  unfold ValidatorIndex.isBuilderIndex builderIndexFlag
  rw [bne_iff_ne, Nat.and_two_pow]
  cases index.val.testBit 40 <;> simp

omit [Preset] in
theorem ValidatorIndex.not_isBuilderIndex (h : index.val < 2 ^ 40) :
    ValidatorIndex.isBuilderIndex index = false := by
  rw [Bool.eq_false_iff, Ne, ValidatorIndex.isBuilderIndex_iff, Nat.testBit_lt_two_pow h]
  exact Bool.false_ne_true

/-- The flagged index of a builder. -/
def BuilderIndex.flagged (index : BuilderIndex) : ValidatorIndex :=
  Word.wrap (index.val + builderIndexFlag)

variable {index : BuilderIndex}

omit [Preset] in
theorem BuilderIndex.flagged_val (h : index.val < builderIndexFlag) :
    index.flagged.val = index.val + builderIndexFlag := by
  unfold BuilderIndex.flagged
  unfold builderIndexFlag at h ⊢
  exact wrap_val_of_lt (by omega)

omit [Preset] in
/-- Below the flag, setting or toggling it adds it. -/
theorem lor_builderIndexFlag {n : Nat} (h : n < builderIndexFlag) :
    n ||| builderIndexFlag = n + builderIndexFlag := by
  have hor := Nat.two_pow_add_eq_or_of_lt (show n < 2 ^ 40 from h) 1
  unfold builderIndexFlag
  rw [Nat.mul_one] at hor
  rw [Nat.lor_comm, ← hor, Nat.add_comm]

omit [Preset] in
theorem xor_builderIndexFlag {n : Nat} (h : n < builderIndexFlag) :
    n ^^^ builderIndexFlag = n + builderIndexFlag := by
  rw [← lor_builderIndexFlag h]
  refine Nat.eq_of_testBit_eq fun i => ?_
  rw [Nat.testBit_xor, Nat.testBit_or, builderIndexFlag, Nat.testBit_two_pow]
  by_cases hi : 40 = i
  · subst hi
    simp [Nat.testBit_lt_two_pow (show n < 2 ^ 40 from h)]
  · simp [hi]

omit [Preset] in
theorem BuilderIndex.toValidatorIndex_eq_ok {flagged : ValidatorIndex}
    (h : index.toValidatorIndex = .ok flagged) :
    index.val < builderIndexFlag ∧ flagged = index.flagged := by
  unfold BuilderIndex.toValidatorIndex at h
  obtain ⟨_, -, h⟩ := bind_eq_ok.1 h
  obtain ⟨_, hlt, h⟩ := bind_eq_ok.1 h
  have hlt := ensure_eq_ok.1 hlt
  cases h
  refine ⟨hlt, ?_⟩
  unfold BuilderIndex.flagged
  rw [lor_builderIndexFlag hlt]

omit [Preset] in
theorem BuilderIndex.isBuilderIndex_flagged (h : index.val < builderIndexFlag) :
    ValidatorIndex.isBuilderIndex index.flagged = true := by
  rw [ValidatorIndex.isBuilderIndex_iff, BuilderIndex.flagged_val h, builderIndexFlag,
    Nat.add_comm, Nat.testBit_two_pow_add_eq, Nat.testBit_lt_two_pow h]
  rfl

omit [Preset] in
theorem ValidatorIndex.toBuilderIndex_eq_ok {flagged : ValidatorIndex}
    (h : ValidatorIndex.toBuilderIndex flagged = .ok index) :
    index.val < builderIndexFlag ∧ flagged = index.flagged := by
  unfold ValidatorIndex.toBuilderIndex at h
  obtain ⟨_, -, h⟩ := bind_eq_ok.1 h
  obtain ⟨_, hlt, h⟩ := bind_eq_ok.1 h
  have hlt := ensure_eq_ok.1 hlt
  cases h
  refine ⟨hlt, Fin.ext ?_⟩
  rw [BuilderIndex.flagged_val hlt]
  have hxor : flagged.val ^^^ builderIndexFlag < 2 ^ 64 :=
    Nat.xor_lt_two_pow flagged.isLt (by decide)
  rw [wrap_val_of_lt hxor] at hlt ⊢
  -- what is below the flag once it is toggled is above it before
  rw [← xor_builderIndexFlag hlt, Nat.xor_assoc, Nat.xor_self, Nat.xor_zero]

omit [Preset] in
/-- The flag is cleared again. -/
theorem BuilderIndex.toBuilderIndex_flagged
    (h : index.val < builderIndexFlag) : ValidatorIndex.toBuilderIndex index.flagged = .ok index := by
  have hxor : index.flagged.val ^^^ builderIndexFlag = index.val := by
    rw [BuilderIndex.flagged_val h, ← xor_builderIndexFlag h, Nat.xor_assoc, Nat.xor_self,
      Nat.xor_zero]
  have hwrap : (Word.wrap (index.flagged.val ^^^ builderIndexFlag) : BuilderIndex) = index :=
    Fin.ext (by rw [hxor, wrap_val_of_lt index.isLt])
  unfold ValidatorIndex.toBuilderIndex
  rw [hwrap, ensure_of (BuilderIndex.isBuilderIndex_flagged h), ok_bind]
  dsimp only
  rw [ensure_of h, ok_bind]
  rfl

omit [Preset] in
/-- A builder's flagged index is not that of a validator. -/
theorem BuilderIndex.flagged_ne (h : index.val < builderIndexFlag) {other : ValidatorIndex}
    (hother : ValidatorIndex.isBuilderIndex other = false) : index.flagged ≠ other := by
  intro heq
  rw [← heq, BuilderIndex.isBuilderIndex_flagged h] at hother
  cases hother

omit [Preset] in
theorem BuilderIndex.flagged_inj {i j : BuilderIndex} (hi : i.val < builderIndexFlag)
    (hj : j.val < builderIndexFlag) : i.flagged = j.flagged ↔ i = j := by
  refine ⟨fun h => Fin.ext ?_, fun h => h ▸ rfl⟩
  have := congrArg Fin.val h
  rw [BuilderIndex.flagged_val hi, BuilderIndex.flagged_val hj] at this
  omega

/-! ## Sums -/

omit [Preset] in
theorem checkedSum_eq_ok {e : TransitionError} {amounts : List Gwei} {total : Gwei}
    (h : checkedSum e amounts = .ok total) : total.val = (amounts.map (·.val)).sum := by
  have hsum := foldlM_checkedAdd (x := fun a : Gwei => a.val) (e := e) (l := amounts)
    (fun _ _ _ => rfl) (0 : Gwei)
  have htotal := checkedAdd_eq_some.1 (okOr_eq_ok.1 (hsum.symm.trans h))
  exact htotal.trans (Nat.zero_add _)

omit [Preset] in
/-- A sum fails with its own error only. -/
theorem fails_checkedSum {P : TransitionError → Prop} (he : P e) (amounts : List Gwei) :
    Fails (checkedSum e amounts) P :=
  .foldlM_each fun _ _ _ => fails_okOr.2 fun _ => he

/-- What withdrawals take from one index, in total. -/
def withdrawnFrom (index : ValidatorIndex) (withdrawals : List Withdrawal) : Nat :=
  ((withdrawals.filter fun w => w.validatorIndex = index).map (·.amount.val)).sum

omit [Preset] in
@[simp] theorem withdrawnFrom_nil (index : ValidatorIndex) : withdrawnFrom index [] = 0 := rfl

omit [Preset] in
theorem withdrawnFrom_append (index : ValidatorIndex) (ws ws' : List Withdrawal) :
    withdrawnFrom index (ws ++ ws') = withdrawnFrom index ws + withdrawnFrom index ws' := by
  simp [withdrawnFrom]

omit [Preset] in
theorem withdrawnFrom_singleton (index : ValidatorIndex) (w : Withdrawal) :
    withdrawnFrom index [w] = if w.validatorIndex = index then w.amount.val else 0 := by
  by_cases h : w.validatorIndex = index <;> simp [withdrawnFrom, h]

/-! ## One loop -/

namespace WithdrawalSweep

/-- A loop that started at `first` and has gone through `seen` entries. -/
structure Sweeping (first : WithdrawalIndex) (limit prior seen : Nat) (w : WithdrawalSweep) :
    Prop where
  indices : w.withdrawals.map (·.index.val) = List.range' first.val w.withdrawals.length
  next : w.withdrawalIndex.val = first.val + w.withdrawals.length
  count : w.processedCount.val = seen
  bound : prior + w.withdrawals.length ≤ limit

variable {first : WithdrawalIndex} {limit prior seen : Nat} {w w' : WithdrawalSweep}

omit [Preset] in
theorem Sweeping.start (h : prior ≤ limit) : Sweeping first limit prior 0 (.start first) :=
  ⟨rfl, rfl, rfl, h⟩

omit [Preset] in
theorem push_eq_ok (h : w.push index address amount = .ok w') :
    w'.withdrawals = w.withdrawals ++ [⟨w.withdrawalIndex, index, address, amount⟩] ∧
      w'.withdrawalIndex.val = w.withdrawalIndex.val + 1 ∧
      w'.processedCount = w.processedCount := by
  unfold push at h
  obtain ⟨next, hnext, h⟩ := bind_eq_ok.1 h
  rw [okOr_eq_ok, checkedAdd_eq_some] at hnext
  cases h
  exact ⟨rfl, hnext, rfl⟩

omit [Preset] in
theorem countOne_eq_ok (h : w.countOne = .ok w') : w'.withdrawals = w.withdrawals ∧
    w'.withdrawalIndex = w.withdrawalIndex ∧
    w'.processedCount.val = w.processedCount.val + 1 := by
  unfold countOne at h
  obtain ⟨count, hcount, h⟩ := bind_eq_ok.1 h
  rw [okOr_eq_ok, checkedAdd_eq_some] at hcount
  cases h
  exact ⟨rfl, rfl, hcount⟩

omit [Preset] in
theorem Sweeping.countOne (h : Sweeping first limit prior seen w) (hw : w.countOne = .ok w') :
    Sweeping first limit prior (seen + 1) w' := by
  obtain ⟨hlist, hindex, hcount⟩ := countOne_eq_ok hw
  exact ⟨hlist ▸ h.indices, by rw [hindex, hlist]; exact h.next, by rw [hcount, h.count],
    hlist ▸ h.bound⟩

omit [Preset] in
theorem Sweeping.push (h : Sweeping first limit prior seen w)
    (hroom : ¬limit ≤ prior + w.withdrawals.length) (hw : w.push index address amount = .ok w') :
    Sweeping first limit prior seen w' := by
  obtain ⟨hlist, hindex, hcount⟩ := push_eq_ok hw
  have hlen : w'.withdrawals.length = w.withdrawals.length + 1 := by simp [hlist]
  have hnext := h.next
  refine ⟨?_, by omega, hcount ▸ h.count, by omega⟩
  rw [hlen, range'_concat, hlist, map_append, h.indices, map_singleton, hnext,
    Nat.one_mul]

end WithdrawalSweep

open WithdrawalSweep

/-- Whom a withdrawal pays, where and how much. -/
def Withdrawal.payee (w : Withdrawal) : ValidatorIndex × ExecutionAddress × Gwei :=
  (w.validatorIndex, w.address, w.amount)

/-- The withdrawal that an entry of the builder queue asks for. -/
def BuilderPendingWithdrawal.payee (e : BuilderPendingWithdrawal) :
    ValidatorIndex × ExecutionAddress × Gwei :=
  (e.builderIndex.flagged, e.feeRecipient, e.amount)

namespace BeaconState

variable {s : BeaconState}

/-! ## Builder withdrawals -/

/-- What the payouts are: the first entries of the builder queue. -/
structure PayoutsOf (s : BeaconState) (first : WithdrawalIndex) (prior : Nat)
    (paid : List BuilderPendingWithdrawal) (w : WithdrawalSweep) : Prop where
  sweeping : Sweeping first (maxWithdrawalsPerPayload - 1) prior paid.length w
  payees : w.withdrawals.map (·.payee) = paid.map (·.payee)
  flagged : ∀ e ∈ paid, e.builderIndex.val < builderIndexFlag

theorem getBuilderWithdrawals_spec (first : WithdrawalIndex) (prior : List Withdrawal) :
    Ensures (s.getBuilderWithdrawals first prior) fun w =>
      ∃ paid, paid <+: s.builderPendingWithdrawals.toList ∧
        PayoutsOf s first prior.length paid w := by
  unfold getBuilderWithdrawals
  refine .guard fun hprior => ?_
  refine .foldBreakM_seen ?_ ⟨.start hprior, rfl, by simp⟩
  intro seen e _ w hw
  refine .dite (fun _ => .pure hw) fun hroom => ?_
  refine .bind (fun _ h => BuilderIndex.toValidatorIndex_eq_ok h) fun index hindex => ?_
  refine .step fun w₁ hw₁ => .step fun w₂ hw₂ => .pure ?_
  obtain ⟨hlt, rfl⟩ := hindex
  have hlist : w₂.withdrawals = w.withdrawals ++
      [⟨w.withdrawalIndex, e.builderIndex.flagged, e.feeRecipient, e.amount⟩] :=
    (countOne_eq_ok hw₂).1.trans (push_eq_ok hw₁).1
  refine ⟨?_, ?_, ?_⟩
  · rw [length_append]
    exact (hw.sweeping.push hroom hw₁).countOne hw₂
  · rw [hlist, map_append, map_append, hw.payees]
    rfl
  · intro e' he'
    rcases mem_append.1 he' with he' | he'
    · exact hw.flagged e' he'
    · rw [mem_singleton.1 he']
      exact hlt

/-- The payouts go through the whole queue or use up the limit. -/
theorem getBuilderWithdrawals_drains (first : WithdrawalIndex) (prior : List Withdrawal) :
    Ensures (s.getBuilderWithdrawals first prior) fun w =>
      w.processedCount.val = s.builderPendingWithdrawals.toList.length ∨
        maxWithdrawalsPerPayload - 1 ≤ prior.length + w.withdrawals.length := by
  refine .skip fun _ => (Ensures.foldBreakM_cut
    (P := fun (seen : List _) (w : WithdrawalSweep) => w.processedCount.val = seen.length)
    (Q := fun _ _ w => maxWithdrawalsPerPayload - 1 ≤ prior.length + w.withdrawals.length)
    (fun seen e _ w hcount => ?_) rfl).imp fun _ h => h.imp_right fun ⟨_, _, _, _, hfull⟩ => hfull
  refine .dite (fun hfull => .pure hfull) fun _ => ?_
  refine .skip fun _ => .bind (fun _ h => push_eq_ok h) fun w₁ hw₁ => ?_
  refine .bind (fun _ h => countOne_eq_ok h) fun w₂ hw₂ => .pure ?_
  show w₂.processedCount.val = (seen ++ [e]).length
  rw [hw₂.2.2, hw₁.2.2, hcount, length_append, length_singleton]

omit [Preset] in
/-- A place in a registry is a machine word. -/
theorem wrap_mod_val {len : Nat} (n : Nat) (hle : len ≤ 2 ^ 40) (hpos : 0 < len) :
    (Word.wrap (n % len) : U64).val = n % len :=
  wrap_val_of_lt (Nat.lt_trans (Nat.lt_of_lt_of_le (Nat.mod_lt n hpos) hle) (by decide))

/-- The builder at the `i`-th place of the sweep. -/
def sweepCursor (s : BeaconState) (i : Nat) : BuilderIndex :=
  Word.wrap ((s.nextWithdrawalBuilderIndex.val + i) % s.builders.length)

theorem sweepCursor_val (s : BeaconState) (i : Nat) (hlen : 0 < s.builders.length) :
    (s.sweepCursor i).val = (s.nextWithdrawalBuilderIndex.val + i) % s.builders.length :=
  wrap_mod_val _ s.builders.length_le hlen

/-- The withdrawal of the builder at the `i`-th place of the sweep, if it is due. -/
def sweptBuilder (s : BeaconState) (i : Nat) : Option (ValidatorIndex × ExecutionAddress × Gwei) :=
  (s.builders.get? (s.sweepCursor i).val).bind fun b =>
    if b.withdrawableEpoch ≤ s.slot.epoch ∧ 0 < b.balance.val then
      some ((s.sweepCursor i).flagged, b.executionAddress, b.balance)
    else none

/-- What the builder sweep picks at the places it has gone through. -/
structure SweptBuilders (s : BeaconState) (first : WithdrawalIndex) (prior : Nat)
    (seen : List Nat) (w : WithdrawalSweep) : Prop where
  sweeping : Sweeping first (maxWithdrawalsPerPayload - 1) prior seen.length w
  payees : w.withdrawals.map (·.payee) = seen.filterMap s.sweptBuilder
  flagged : ∀ w' ∈ w.withdrawals, ValidatorIndex.isBuilderIndex w'.validatorIndex = true

theorem getBuildersSweepWithdrawals_spec (first : WithdrawalIndex) (prior : List Withdrawal)
    (hprior : prior.length ≤ maxWithdrawalsPerPayload - 1) :
    Ensures (s.getBuildersSweepWithdrawals first prior) fun w =>
      ∃ seen, seen <+: List.range (min maxBuildersPerWithdrawalsSweep s.builders.length) ∧
        SweptBuilders s first prior.length seen w := by
  have hstart : SweptBuilders s first prior.length [] (.start first) :=
    ⟨.start hprior, rfl, by simp [WithdrawalSweep.start]⟩
  unfold getBuildersSweepWithdrawals
  refine .ite (.pure ⟨[], nil_prefix, hstart⟩) (.skip fun _ => .skip fun _ => ?_)
  refine .foldBreakM_seen ?_ hstart
  intro seen i _ w hw
  refine .dite (fun _ => .pure hw) fun hroom => ?_
  refine .bind (Q := fun b => s.builders.get? (s.sweepCursor i).val = some b)
    (fun _ h => okOr_eq_ok.1 h) fun b hb => .dite (fun hdue => ?_) fun hdue => ?_
  · refine .bind (fun _ h => BuilderIndex.toValidatorIndex_eq_ok h) fun index hindex => ?_
    refine .step fun w₁ hw₁ => .step fun w₂ hw₂ => .pure ?_
    obtain ⟨hlt, rfl⟩ := hindex
    have hlist := (countOne_eq_ok hw₂).1.trans (push_eq_ok hw₁).1
    refine ⟨?_, ?_, ?_⟩
    · rw [length_append]
      exact (hw.sweeping.push hroom hw₁).countOne hw₂
    · have hswept : s.sweptBuilder i =
          some ((s.sweepCursor i).flagged, b.executionAddress, b.balance) := by
        rw [sweptBuilder, hb, Option.bind_some, if_pos hdue]
      rw [hlist, map_append, filterMap_append, hw.payees, filterMap_cons, hswept]
      rfl
    · intro w' hw'
      rw [hlist] at hw'
      rcases mem_append.1 hw' with hw' | hw'
      · exact hw.flagged w' hw'
      · rw [mem_singleton.1 hw']
        exact BuilderIndex.isBuilderIndex_flagged hlt
  · refine .step fun w₁ hw₁ => .step fun w₂ hw₂ => .pure ?_
    cases hw₁
    have hlist := (countOne_eq_ok hw₂).1
    refine ⟨?_, ?_, hlist ▸ hw.flagged⟩
    · rw [length_append]
      exact hw.sweeping.countOne hw₂
    · have hswept : s.sweptBuilder i = none := by
        rw [sweptBuilder, hb, Option.bind_some, if_neg hdue]
      rw [hlist, filterMap_append, hw.payees, filterMap_cons, hswept]
      simp

variable {prior : List Withdrawal}

/-- When the earlier withdrawals use up the limit the sweep picks nothing. -/
theorem getBuildersSweepWithdrawals_full (first : WithdrawalIndex)
    (hfull : maxWithdrawalsPerPayload - 1 ≤ prior.length) :
    Ensures (s.getBuildersSweepWithdrawals first prior) fun w => w.withdrawals = [] := by
  unfold getBuildersSweepWithdrawals
  refine .ite (.pure rfl) (.skip fun _ => .skip fun _ => ?_)
  refine .foldBreakM (fun i w hw => ?_) rfl
  refine .dite (fun _ => .pure hw) fun hroom => ?_
  exact absurd (hfull.trans (Nat.le_add_right _ _)) hroom

/-! ## Validator withdrawals -/

/-- No queued partial withdrawal asks for nothing. -/
def PositivePartials (s : BeaconState) : Prop :=
  ∀ e ∈ s.pendingPartialWithdrawals.toList, 0 < e.amount.val

/-- A withdrawal that may follow the earlier ones `ws`: a builder's, or one that the balance of a
validator still covers. -/
inductive Payable (s : BeaconState) (ws : List Withdrawal) (w : Withdrawal) : Prop where
  | builder : ValidatorIndex.isBuilderIndex w.validatorIndex = true → Payable s ws w
  | validator (balance : Gwei) : s.balances.get? w.validatorIndex.val = some balance →
      ValidatorIndex.isBuilderIndex w.validatorIndex = false →
      withdrawnFrom w.validatorIndex ws + w.amount.val ≤ balance.val →
      (s.PositivePartials → 0 < w.amount.val) → Payable s ws w

/-- Withdrawals each of which may follow those before it. -/
inductive Covered (s : BeaconState) : List Withdrawal → Prop where
  | nil : Covered s []
  | snoc {ws : List Withdrawal} {w : Withdrawal} : Covered s ws → Payable s ws w →
      Covered s (ws ++ [w])

theorem Covered.append_builders {ws' : List Withdrawal} (h : Covered s ws)
    (h' : ∀ w ∈ ws', ValidatorIndex.isBuilderIndex w.validatorIndex = true) :
    Covered s (ws ++ ws') := by
  induction ws' generalizing ws with
  | nil => rwa [append_nil]
  | cons w ws' ih =>
    have hw := ih (h.snoc (.builder (h' w mem_cons_self)))
      fun w' hw' => h' w' (mem_cons_of_mem _ hw')
    rwa [append_assoc, singleton_append] at hw

/-- All withdrawals of one validator together are covered by its balance. -/
theorem Covered.withdrawnFrom_le (h : Covered s ws) {balance : Gwei}
    (hindex : ValidatorIndex.isBuilderIndex index = false)
    (hbalance : s.balances.get? index.val = some balance) :
    withdrawnFrom index ws ≤ balance.val := by
  induction h with
  | nil => simp
  | @snoc ws w _ hw ih =>
    rw [withdrawnFrom_append, withdrawnFrom_singleton]
    by_cases heq : w.validatorIndex = index
    · subst heq
      rw [if_pos rfl]
      cases hw with
      | builder hb => exact absurd (hb.symm.trans hindex) (by decide)
      | validator balance' hb _ hle _ =>
        cases hbalance.symm.trans hb
        exact hle
    · rw [if_neg heq]
      exact ih

theorem Covered.mem (h : Covered s ws) {w : Withdrawal} (hw : w ∈ ws) :
    ∃ before, Payable s before w := by
  induction h with
  | nil => cases hw
  | @snoc ws w' _ hw' ih =>
    rcases mem_append.1 hw with hw | hw
    · exact ih hw
    · rw [mem_singleton.1 hw]
      exact ⟨ws, hw'⟩

theorem getBalanceAfterWithdrawals_eq_ok (h : s.getBalanceAfterWithdrawals index ws = .ok left) :
    ∃ balance, s.balances.get? index.val = some balance ∧
      left.val = balance.val - withdrawnFrom index ws := by
  unfold getBalanceAfterWithdrawals at h
  obtain ⟨balance, hbalance, h⟩ := bind_eq_ok.1 h
  obtain ⟨withdrawn, hwithdrawn, h⟩ := bind_eq_ok.1 h
  cases h
  refine ⟨balance, okOr_eq_ok.1 hbalance, ?_⟩
  rw [satSub_val, checkedSum_eq_ok hwithdrawn, map_map]
  rfl

/-- The registry is too short for an index of a validator to carry the flag. -/
theorem isBuilderIndex_of_validator (h : s.validators.get? index.val = some v) :
    ValidatorIndex.isBuilderIndex index = false := by
  have hlt : index.val < s.validators.toList.length := (List.getElem?_eq_some_iff.1 h).1
  have hle : s.validators.toList.length ≤ 2 ^ 40 := s.validators.length_le
  exact ValidatorIndex.not_isBuilderIndex (Nat.lt_of_lt_of_le hlt hle)

/-- What is left of a balance may be withdrawn in part. -/
theorem payable_of_left {w : Withdrawal} (hws : Covered s ws)
    (hleft : s.getBalanceAfterWithdrawals index ws = .ok left)
    (hv : s.validators.get? index.val = some v) (hw : w.validatorIndex = index)
    (hamount : w.amount.val ≤ left.val) (hpositive : s.PositivePartials → 0 < w.amount.val) :
    Payable s ws w := by
  subst hw
  obtain ⟨balance, hbalance, hval⟩ := getBalanceAfterWithdrawals_eq_ok hleft
  have hle := hws.withdrawnFrom_le (isBuilderIndex_of_validator hv) hbalance
  exact .validator balance hbalance (isBuilderIndex_of_validator hv) (by omega) hpositive

/-- What a validator loop has collected, with the withdrawals of the loops before it. -/
structure Collecting (s : BeaconState) (first : WithdrawalIndex) (limit : Nat)
    (prior : List Withdrawal) (seen : Nat) (w : WithdrawalSweep) : Prop where
  sweeping : Sweeping first limit prior.length seen w
  covered : Covered s (prior ++ w.withdrawals)
  unflagged : ∀ w' ∈ w.withdrawals, ValidatorIndex.isBuilderIndex w'.validatorIndex = false

section Validators

variable {first : WithdrawalIndex} {limit seen : Nat} {prior : List Withdrawal}
  {w w₁ w₂ : WithdrawalSweep}

theorem Collecting.start (hbound : prior.length ≤ limit) (hprior : Covered s prior) :
    Collecting s first limit prior 0 (.start first) :=
  ⟨.start hbound, by rwa [WithdrawalSweep.start, append_nil], by simp [WithdrawalSweep.start]⟩

theorem Collecting.skip (hw : Collecting s first limit prior seen w) (hw₂ : w.countOne = .ok w₂) :
    Collecting s first limit prior (seen + 1) w₂ :=
  ⟨hw.sweeping.countOne hw₂, (countOne_eq_ok hw₂).1 ▸ hw.covered,
    (countOne_eq_ok hw₂).1 ▸ hw.unflagged⟩

theorem Collecting.pick (hw : Collecting s first limit prior seen w)
    (hroom : ¬limit ≤ prior.length + w.withdrawals.length)
    (hleft : s.getBalanceAfterWithdrawals index (prior ++ w.withdrawals) = .ok left)
    (hv : s.validators.get? index.val = some v) (hamount : amount.val ≤ left.val)
    (hpositive : s.PositivePartials → 0 < amount.val) (hw₁ : w.push index address amount = .ok w₁)
    (hw₂ : w₁.countOne = .ok w₂) : Collecting s first limit prior (seen + 1) w₂ := by
  have hlist := (countOne_eq_ok hw₂).1.trans (push_eq_ok hw₁).1
  refine ⟨(hw.sweeping.push hroom hw₁).countOne hw₂, ?_, ?_⟩
  · rw [hlist, ← append_assoc]
    exact hw.covered.snoc (payable_of_left hw.covered hleft hv rfl hamount hpositive)
  · intro w' hw'
    rw [hlist] at hw'
    rcases mem_append.1 hw' with hw' | hw'
    · exact hw.unflagged w' hw'
    · rw [mem_singleton.1 hw']
      exact isBuilderIndex_of_validator hv

end Validators

theorem getPendingPartialWithdrawals_spec (first : WithdrawalIndex) (hprior : Covered s prior) :
    Ensures (s.getPendingPartialWithdrawals first prior) fun w =>
      ∃ seen, seen <+: s.pendingPartialWithdrawals.toList ∧
        Collecting s first (maxWithdrawalsPerPayload - 1) prior seen.length w := by
  unfold getPendingPartialWithdrawals
  refine .guard fun hbound => ?_
  refine (Ensures.foldBreakM_seen (P := fun seen => Collecting s first _ prior seen.length) ?_
    (.start hbound hprior)).imp ?_
  · intro seen e he w hw
    refine .dite (fun _ => .pure hw) fun hgoOn => ?_
    obtain ⟨_, hroom⟩ := not_or.1 hgoOn
    refine .lookup fun v hv => .step fun left hleft => ?_
    refine .dite (fun heligible => ?_) fun _ => ?_
    · refine .step fun w₁ hw₁ => .step fun w₂ hw₂ => .pure ?_
      have hexcess : minActivationBalance < left.val := by
        simp only [isEligibleForPartialWithdrawals, Bool.and_eq_true, decide_eq_true_eq]
          at heligible
        exact heligible.2
      have hamount : (Word.wrap (min e.amount.val (left.val - minActivationBalance)) : Gwei).val =
          min e.amount.val (left.val - minActivationBalance) :=
        wrap_val_of_lt (Nat.lt_of_le_of_lt (Nat.min_le_left _ _) e.amount.isLt)
      rw [Advanced, length_append]
      refine hw.pick hroom hleft hv ?_ (fun hpositive => ?_) hw₁ hw₂
      · rw [hamount]
        omega
      · have := hpositive e he
        rw [hamount]
        omega
    · refine .step fun w₁ hw₁ => .step fun w₂ hw₂ => .pure ?_
      cases hw₁
      rw [Advanced, length_append]
      exact hw.skip hw₂
  · -- the loop's own limit is at most that of the payload
    intro w ⟨seen, hseen, hw⟩
    have hsweeping := hw.sweeping
    exact ⟨seen, hseen, ⟨hsweeping.indices, hsweeping.next, hsweeping.count,
      Nat.le_trans hsweeping.bound (Nat.min_le_right _ _)⟩, hw.covered, hw.unflagged⟩

theorem getValidatorsSweepWithdrawals_spec (first : WithdrawalIndex) (hprior : Covered s prior)
    (hbound : prior.length ≤ maxWithdrawalsPerPayload) :
    Ensures (s.getValidatorsSweepWithdrawals first prior) fun w =>
      ∃ seen, Collecting s first maxWithdrawalsPerPayload prior seen w := by
  have hstart : Collecting s first maxWithdrawalsPerPayload prior 0 (.start first) :=
    .start hbound hprior
  unfold getValidatorsSweepWithdrawals
  refine .ite (.pure ⟨0, hstart⟩) (.skip fun _ => .skip fun _ => ?_)
  refine .foldBreakM (fun i w ⟨seen, hw⟩ => ?_) ⟨0, hstart⟩
  refine .dite (fun _ => .pure ⟨seen, hw⟩) fun hroom => ?_
  refine .lookup fun v hv => .step fun left hleft => ?_
  refine .dite (fun hfull => ?_) fun _ => .dite (fun hpart => ?_) fun _ => ?_
  · refine .step fun w₁ hw₁ => .step fun w₂ hw₂ =>
      .pure ⟨seen + 1, ?_⟩
    have hpositive : 0 < left.val := by
      simp only [Validator.isFullyWithdrawableValidator, Bool.and_eq_true,
        decide_eq_true_eq] at hfull
      exact hfull.2
    exact hw.pick hroom hleft hv (Nat.le_refl _) (fun _ => hpositive) hw₁ hw₂
  · refine .step fun w₁ hw₁ => .step fun w₂ hw₂ =>
      .pure ⟨seen + 1, ?_⟩
    have hexcess : v.getMaxEffectiveBalance.val < left.val := by
      simp only [Validator.isPartiallyWithdrawableValidator, Bool.and_eq_true,
        decide_eq_true_eq] at hpart
      exact hpart.2
    refine hw.pick hroom hleft hv ?_ (fun _ => ?_) hw₁ hw₂
    · exact Nat.sub_le _ _
    · rw [satSub_val]
      omega
  · refine .step fun w₁ hw₁ => .step fun w₂ hw₂ =>
      .pure ⟨seen + 1, ?_⟩
    cases hw₁
    exact hw.skip hw₂

end BeaconState

end Moonglass
