import Moonglass.Lib.ListUpdate
import Moonglass.StateTransition.Calendar

/-
  What a step can do to the registry. Every block operation and every epoch phase is a sequence of
  a few moves: an exit, a slashing, a new validator, an entry queued, and so on, each with the
  guards under which the code makes it. Invariants of the registry are then checked move by move.
-/

namespace Moonglass

open Lib Word

variable [Preset]

/-- The registry with its queues and cursors. Of the lists that run beside the validators only
the lengths are kept, and of the builders their public keys. -/
structure Registry where
  slot : Slot
  validators : List Validator
  balanceCount : Nat
  previousCount : Nat
  currentCount : Nat
  scoreCount : Nat
  builderKeys : List BLSPubkey
  slashings : Vector Gwei epochsPerSlashingsVector
  pendingDeposits : List PendingDeposit
  depositBalanceToConsume : Gwei
  pendingPartialWithdrawals : List PendingPartialWithdrawal
  pendingConsolidations : List PendingConsolidation
  earliestExitEpoch : Epoch
  earliestConsolidationEpoch : Epoch
  nextWithdrawalBuilderIndex : BuilderIndex
  nextWithdrawalValidatorIndex : ValidatorIndex

def BeaconState.registry (s : BeaconState) : Registry where
  slot := s.slot
  validators := s.validators.toList
  balanceCount := s.balances.length
  previousCount := s.previousEpochParticipation.length
  currentCount := s.currentEpochParticipation.length
  scoreCount := s.inactivityScores.length
  builderKeys := s.builders.toList.map (·.pubkey)
  slashings := s.slashings
  pendingDeposits := s.pendingDeposits.toList
  depositBalanceToConsume := s.depositBalanceToConsume
  pendingPartialWithdrawals := s.pendingPartialWithdrawals.toList
  pendingConsolidations := s.pendingConsolidations.toList
  earliestExitEpoch := s.earliestExitEpoch
  earliestConsolidationEpoch := s.earliestConsolidationEpoch
  nextWithdrawalBuilderIndex := s.nextWithdrawalBuilderIndex
  nextWithdrawalValidatorIndex := s.nextWithdrawalValidatorIndex

/-! ## Changes of one validator -/

/-- Only the credentials or the eligibility epoch change. -/
def Revised (v v' : Validator) : Prop :=
  ∃ credentials eligibility, v' = { v with
    withdrawalCredentials := credentials, activationEligibilityEpoch := eligibility }

/-- The validator waits for its activation and is given the epoch, or nothing changes. -/
def ActivatedAt (epoch : Epoch) (v v' : Validator) : Prop :=
  v' = v ∨ v.activationEpoch = farFutureEpoch ∧ v' = { v with activationEpoch := epoch }

/-- Only the effective balance changes, to a multiple of the increment. -/
def Rebalanced (v v' : Validator) : Prop :=
  ∃ balance : Gwei, v' = { v with effectiveBalance := balance } ∧
    (balance = v.effectiveBalance ∨ effectiveBalanceIncrement ∣ balance.val)

/-- A validator as a deposit enters it. -/
structure Entered (v : Validator) : Prop where
  slashed : v.slashed = false
  activationEpoch : v.activationEpoch = farFutureEpoch
  exitEpoch : v.exitEpoch = farFutureEpoch
  withdrawableEpoch : v.withdrawableEpoch = farFutureEpoch
  effectiveBalance : effectiveBalanceIncrement ∣ v.effectiveBalance.val

/-- A validator may leave at an epoch: it has no exit yet and has been activated. -/
structure MayLeave (v : Validator) (epoch : Epoch) : Prop where
  staying : v.exitEpoch = farFutureEpoch
  activated : v.activationEpoch ≤ epoch

/-- An exit epoch that a churn cursor assigns, with the withdrawable epoch that follows it. -/
structure LeavesAt (current cursor exitEpoch withdrawableEpoch : Epoch) : Prop where
  cursor_le : cursor ≤ exitEpoch
  later : current.val + 1 + maxSeedLookahead ≤ exitEpoch.val
  withdrawable : withdrawableEpoch.val = exitEpoch.val + minValidatorWithdrawabilityDelay

omit [Preset] in
/-- An assigned exit epoch is not the far future. -/
theorem LeavesAt.ne_farFuture {current cursor exitEpoch withdrawableEpoch : Epoch}
    (h : LeavesAt current cursor exitEpoch withdrawableEpoch) : exitEpoch ≠ farFutureEpoch := by
  rintro rfl
  have hw := h.withdrawable
  have hlt := withdrawableEpoch.isLt
  unfold farFutureEpoch minValidatorWithdrawabilityDelay at hw
  rw [max_val] at hw
  omega

/-! ## Moves -/

/-- Which part of the transition makes a move: a block, the deposits of an epoch, or the rest of
the epoch. -/
inductive Phase where
  | block
  | deposits
  | epoch

/-- A key takes the end of the list, or one place in it. -/
def Rekeyed (keys keys' : List BLSPubkey) : Prop :=
  ∃ key, key ∉ keys ∧ (keys' = keys ++ [key] ∨ ∃ i, keys' = keys.set i key)

/-- A cursor over `count` entries stays where it is when there are none, and is in range
otherwise. -/
def CursorMoves (count : Nat) (cursor cursor' : U64) : Prop :=
  count = 0 ∧ cursor' = cursor ∨ cursor'.val < count

/-- What a step can do to the registry. -/
inductive RegistryMove : Phase → Registry → Registry → Prop where
  | revise {p : Phase} {r : Registry} {vs : List Validator}
    (h : List.Forall₂ Revised r.validators vs) : RegistryMove p r { r with validators := vs }
  | exit {p : Phase} {r : Registry} {i : Nat} {v : Validator} {exitEpoch withdrawableEpoch : Epoch}
    (hv : r.validators[i]? = some v) (hmay : MayLeave v r.slot.epoch)
    (hat : LeavesAt r.slot.epoch r.earliestExitEpoch exitEpoch withdrawableEpoch) :
    RegistryMove p r { r with
      validators := r.validators.modify i fun v => { v with exitEpoch, withdrawableEpoch }
      earliestExitEpoch := exitEpoch }
  | slash {r : Registry} {i : Nat} {v : Validator} {extended : Epoch} {bucket : Gwei}
    (hv : r.validators[i]? = some v) (hslashed : v.slashed = false)
    (hexit : v.exitEpoch ≠ farFutureEpoch)
    (hextended : extended.val = r.slot.epoch.val + epochsPerSlashingsVector)
    (hbucket : bucket.val =
      (ringGet r.slashings r.slot.epoch.val).val + v.effectiveBalance.val) :
    RegistryMove .block r { r with
      validators := r.validators.modify i fun v =>
        { v with slashed := true, withdrawableEpoch := max v.withdrawableEpoch extended }
      slashings := ringSet r.slashings r.slot.epoch.val bucket }
  | consolidate {r : Registry} {source target : ValidatorIndex} {v : Validator}
    {exitEpoch withdrawableEpoch : Epoch} (hv : r.validators[source.val]? = some v)
    (hmay : MayLeave v r.slot.epoch)
    (hat : LeavesAt r.slot.epoch r.earliestConsolidationEpoch exitEpoch withdrawableEpoch) :
    RegistryMove .block r { r with
      validators := r.validators.modify source.val fun v => { v with exitEpoch, withdrawableEpoch }
      earliestConsolidationEpoch := exitEpoch
      pendingConsolidations := r.pendingConsolidations ++ [⟨source, target⟩] }
  | queuePartial {r : Registry} {index : ValidatorIndex} {amount : Gwei}
    {exitEpoch withdrawableEpoch : Epoch} (hindex : index.val < r.validators.length)
    (hat : LeavesAt r.slot.epoch r.earliestExitEpoch exitEpoch withdrawableEpoch) :
    RegistryMove .block r { r with
      earliestExitEpoch := exitEpoch
      pendingPartialWithdrawals :=
        r.pendingPartialWithdrawals ++ [⟨index, amount, withdrawableEpoch⟩] }
  | queueDeposit {r : Registry} {deposit : PendingDeposit} :
    RegistryMove .block r { r with pendingDeposits := r.pendingDeposits ++ [deposit] }
  | build {r : Registry} {keys : List BLSPubkey} (h : Rekeyed r.builderKeys keys) :
    RegistryMove .block r { r with builderKeys := keys }
  | dropPartials {r : Registry} {n : Nat} :
    RegistryMove .block r { r with
      pendingPartialWithdrawals := r.pendingPartialWithdrawals.drop n }
  | moveBuilderCursor {r : Registry} {cursor : BuilderIndex}
    (h : CursorMoves r.builderKeys.length r.nextWithdrawalBuilderIndex cursor) :
    RegistryMove .block r { r with nextWithdrawalBuilderIndex := cursor }
  | moveValidatorCursor {r : Registry} {cursor : ValidatorIndex}
    (h : CursorMoves r.validators.length r.nextWithdrawalValidatorIndex cursor) :
    RegistryMove .block r { r with nextWithdrawalValidatorIndex := cursor }
  | activate {r : Registry} {vs : List Validator} {epoch : Epoch}
    (hepoch : epoch.val = r.slot.epoch.val + 1 + maxSeedLookahead)
    (h : List.Forall₂ (ActivatedAt epoch) r.validators vs) :
    RegistryMove .epoch r { r with validators := vs }
  | rebalance {r : Registry} {vs : List Validator} (h : List.Forall₂ Rebalanced r.validators vs) :
    RegistryMove .epoch r { r with validators := vs }
  | resetSlashings {r : Registry} :
    RegistryMove .epoch r { r with
      slashings := ringSet r.slashings (r.slot.epoch.val + 1) 0 }
  | dropConsolidations {r : Registry} {n : Nat} :
    RegistryMove .epoch r { r with pendingConsolidations := r.pendingConsolidations.drop n }
  | rotate {r : Registry} :
    RegistryMove .epoch r { r with
      previousCount := r.currentCount, currentCount := r.validators.length }
  | enter {r : Registry} {v : Validator} (hv : Entered v)
    (hnew : ∀ v' ∈ r.validators, v'.pubkey ≠ v.pubkey) :
    RegistryMove .deposits r { r with
      validators := r.validators ++ [v]
      balanceCount := r.balanceCount + 1
      previousCount := r.previousCount + 1
      currentCount := r.currentCount + 1
      scoreCount := r.scoreCount + 1 }
  | settleDeposits {r : Registry} {deposits : List PendingDeposit} {toConsume : Gwei} :
    RegistryMove .deposits r { r with
      pendingDeposits := deposits, depositBalanceToConsume := toConsume }

variable {r r' : Registry} {v' : Validator} {amount : Gwei} {p : Phase}

theorem RegistryMove.slot_eq (h : RegistryMove p r r') : r'.slot = r.slot := by
  cases h <;> rfl

/-! ## Moves of one validator -/

/-- What a move does to one validator that is in the registry. -/
inductive ValidatorMove (epoch : Epoch) : Validator → Validator → Prop where
  | keep (v : Validator) : ValidatorMove epoch v v
  | revise {v v' : Validator} (h : Revised v v') : ValidatorMove epoch v v'
  | exit {v : Validator} {cursor exitEpoch withdrawableEpoch : Epoch} (hmay : MayLeave v epoch)
    (hat : LeavesAt epoch cursor exitEpoch withdrawableEpoch) :
    ValidatorMove epoch v { v with exitEpoch, withdrawableEpoch }
  | slash {v : Validator} {extended : Epoch} (hslashed : v.slashed = false)
    (hexit : v.exitEpoch ≠ farFutureEpoch)
    (hextended : extended.val = epoch.val + epochsPerSlashingsVector) :
    ValidatorMove epoch v
      { v with slashed := true, withdrawableEpoch := max v.withdrawableEpoch extended }
  | activate {v : Validator} {activationEpoch : Epoch}
    (hepoch : activationEpoch.val = epoch.val + 1 + maxSeedLookahead)
    (hwaiting : v.activationEpoch = farFutureEpoch) :
    ValidatorMove epoch v { v with activationEpoch }
  | rebalance {v v' : Validator} (h : Rebalanced v v') : ValidatorMove epoch v v'

variable {v : Validator}

/-- A validator in the registry stays at its place, and a move of the registry is one of the
validator. -/
theorem RegistryMove.validator (h : RegistryMove p r r') {k : Nat}
    (hv : r.validators[k]? = some v) :
    ∃ v', r'.validators[k]? = some v' ∧ ValidatorMove r.slot.epoch v v' := by
  cases h with
  | revise h =>
    obtain ⟨v', hv', hrevised⟩ := forall₂_getElem? h hv
    exact ⟨v', hv', .revise hrevised⟩
  | exit hi hmay hat => exact modify_getElem? hi hv (.keep v) (.exit hmay hat)
  | slash hi hslashed hexit hextended hbucket =>
    exact modify_getElem? hi hv (.keep v) (.slash hslashed hexit hextended)
  | consolidate hi hmay hat => exact modify_getElem? hi hv (.keep v) (.exit hmay hat)
  | activate hepoch h =>
    obtain ⟨v', hv', rfl | ⟨hwaiting, rfl⟩⟩ := forall₂_getElem? h hv
    · exact ⟨v', hv', .keep v'⟩
    · exact ⟨_, hv', .activate hepoch hwaiting⟩
  | rebalance h =>
    obtain ⟨v', hv', hrebalanced⟩ := forall₂_getElem? h hv
    exact ⟨v', hv', .rebalance hrebalanced⟩
  | enter _ _ =>
    exact ⟨v, List.getElem?_append_left (List.getElem?_eq_some_iff.1 hv).1 ▸ hv, .keep v⟩
  | queuePartial | queueDeposit | build | dropPartials | moveBuilderCursor | moveValidatorCursor
  | resetSlashings | dropConsolidations | rotate | settleDeposits => exact ⟨v, hv, .keep v⟩

/-- The registry grows by validators that a deposit enters, one at a time. -/
theorem RegistryMove.grows (h : RegistryMove p r r') : r'.validators.length = r.validators.length ∨
      ∃ v, Entered v ∧ r'.validators = r.validators ++ [v] := by
  cases h with
  | revise h => exact .inl h.length_eq.symm
  | activate _ h => exact .inl h.length_eq.symm
  | rebalance h => exact .inl h.length_eq.symm
  | exit | slash | consolidate => exact .inl (List.length_modify _ _ _)
  | enter hv _ => exact .inr ⟨_, hv, rfl⟩
  | queuePartial | queueDeposit | build | dropPartials | moveBuilderCursor | moveValidatorCursor
  | resetSlashings | dropConsolidations | rotate | settleDeposits => exact .inl rfl

/-- A validator after a move was there before it, or has just been entered. -/
theorem RegistryMove.validator_origin (h : RegistryMove p r r') {k : Nat}
    (hv' : r'.validators[k]? = some v') :
    (∃ v, r.validators[k]? = some v ∧ ValidatorMove r.slot.epoch v v') ∨ Entered v' := by
  cases hv : r.validators[k]? with
  | some v =>
    obtain ⟨v'', hv'', hmove⟩ := h.validator hv
    obtain rfl := Option.some.inj (hv'.symm.trans hv'')
    exact .inl ⟨v, rfl, hmove⟩
  | none =>
    have hlength := List.getElem?_eq_none_iff.1 hv
    have hlt := (List.getElem?_eq_some_iff.1 hv').1
    rcases h.grows with hsame | ⟨v, hentered, happend⟩
    · omega
    · rw [happend, List.getElem?_append_right hlength] at hv'
      obtain rfl := List.mem_singleton.1 (List.mem_of_getElem? hv')
      exact .inr hentered

/-! ## Active sets -/

/-- A move takes effect on the active sets after the lookahead only. -/
theorem ValidatorMove.isActiveValidator_eq {epoch e : Epoch}
    (h : ValidatorMove epoch v v') (he : e.val ≤ epoch.val + maxSeedLookahead) :
    v'.isActiveValidator e = v.isActiveValidator e := by
  cases h with
  | keep => rfl
  | revise h =>
    obtain ⟨_, _, rfl⟩ := h
    rfl
  | exit hmay hleaves =>
    have hlater := hleaves.later
    exact BeaconState.isActiveValidator_exit hmay.staying (Fin.lt_def.2 (by omega))
  | slash => rfl
  | activate hepoch hwaiting =>
    exact BeaconState.isActiveValidator_activation hwaiting (Fin.lt_def.2 (by omega))
  | rebalance h =>
    obtain ⟨_, rfl, -⟩ := h
    rfl

omit [Preset] in
/-- A validator that a deposit enters is not active before it is activated. -/
theorem Entered.isActiveValidator_eq (h : Entered v) (epoch : Epoch) :
    v.isActiveValidator epoch = false := by
  unfold Validator.isActiveValidator
  rw [h.activationEpoch, h.exitEpoch, Bool.and_eq_false_iff, decide_eq_false_iff_not,
    decide_eq_false_iff_not]
  by_cases hle : farFutureEpoch ≤ epoch
  · exact .inr (not_lt.2 hle)
  · exact .inl hle

/-- Is there a validator at `i`, and is it active in `epoch`? -/
def Registry.activeAt (r : Registry) (epoch : Epoch) (i : Nat) : Bool :=
  r.validators[i]?.any (·.isActiveValidator epoch)

theorem RegistryMove.activeAt_eq (h : RegistryMove p r r') {epoch : Epoch}
    (hepoch : epoch.val ≤ r.slot.epoch.val + maxSeedLookahead) (i : Nat) :
    r'.activeAt epoch i = r.activeAt epoch i := by
  unfold Registry.activeAt
  cases hv : r.validators[i]? with
  | some v =>
    obtain ⟨v', hv', hmove⟩ := h.validator hv
    rw [hv']
    exact hmove.isActiveValidator_eq hepoch
  | none =>
    cases hv' : r'.validators[i]? with
    | none => rfl
    | some v' =>
      rcases h.validator_origin hv' with ⟨v, hsome, -⟩ | hentered
      · rw [hv] at hsome
        cases hsome
      · exact hentered.isActiveValidator_eq epoch

/-! ## Caps -/

namespace Validator

/-- The effective balance is a multiple of the increment, and at most what the credentials
allow. -/
structure Capped (v : Validator) : Prop where
  dvd : effectiveBalanceIncrement ∣ v.effectiveBalance.val
  le : v.effectiveBalance ≤ v.getMaxEffectiveBalance

instance (v : Validator) : Decidable v.Capped :=
  decidable_of_iff (effectiveBalanceIncrement ∣ v.effectiveBalance.val ∧
    v.effectiveBalance ≤ v.getMaxEffectiveBalance) ⟨fun h => ⟨h.1, h.2⟩, fun h => ⟨h.dvd, h.le⟩⟩

variable {v : Validator}

omit [Preset] in
theorem getMaxEffectiveBalance_le (v : Validator) :
    v.getMaxEffectiveBalance.val ≤ maxEffectiveBalance := by
  unfold getMaxEffectiveBalance
  split <;> decide

omit [Preset] in
/-- Credentials that allow as much keep a validator capped. -/
theorem Capped.of_cap (h : v.Capped) (hsame : v'.effectiveBalance = v.effectiveBalance)
    (hcap : v.getMaxEffectiveBalance ≤ v'.getMaxEffectiveBalance) : v'.Capped :=
  ⟨hsame ▸ h.dvd, hsame ▸ h.le.trans hcap⟩

omit [Preset] in
/-- Compounding credentials allow the most. -/
theorem Capped.compounding (h : v.Capped) : ({ v with
    withdrawalCredentials := v.withdrawalCredentials.set 0 2 } : Validator).Capped := by
  refine h.of_cap rfl (Fin.le_def.2 (v.getMaxEffectiveBalance_le.trans ?_))
  have hcompounding : ({ v with withdrawalCredentials := v.withdrawalCredentials.set 0 2 } :
      Validator).hasCompoundingWithdrawalCredential = true := by
    unfold hasCompoundingWithdrawalCredential
    simp
  unfold getMaxEffectiveBalance
  rw [hcompounding]
  decide

omit [Preset] in
/-- Credentials that are not compounding allow as much as any others that are not. -/
theorem Capped.execution (h : v.Capped) (hbls : v.withdrawalCredentials[0] = 0)
    (address : ExecutionAddress) : ({ v with
      withdrawalCredentials := BeaconState.eth1WithdrawalCredentials address } :
        Validator).Capped := by
  have hcompounding : v.hasCompoundingWithdrawalCredential = false := by
    unfold hasCompoundingWithdrawalCredential
    rw [hbls]
    decide
  have hcap : v.getMaxEffectiveBalance = Word.wrap minActivationBalance := by
    unfold getMaxEffectiveBalance
    rw [hcompounding]
    rfl
  refine h.of_cap rfl ?_
  rw [hcap]
  unfold getMaxEffectiveBalance
  split <;> decide

end Validator

namespace BeaconState

omit [Preset] in
/-- The effective balance of a new validator is a multiple of the increment. -/
theorem effectiveBalance_dvd (amount : Gwei) {limit : Nat}
    (hlimit : effectiveBalanceIncrement ∣ limit) :
    effectiveBalanceIncrement ∣ (Word.wrap (w := 64)
      (min (amount.val - amount.val % effectiveBalanceIncrement) limit)).val := by
  have hlt : min (amount.val - amount.val % effectiveBalanceIncrement) limit < 2 ^ 64 :=
    lt_of_le_of_lt (min_le_left _ _) (lt_of_le_of_lt (Nat.sub_le _ _) amount.isLt)
  rw [wrap_val_of_lt hlt]
  rcases min_choice (amount.val - amount.val % effectiveBalanceIncrement) limit with h | h
  · rw [h]
    exact Nat.dvd_sub_mod _
  · rw [h]
    exact hlimit

omit [Preset] in
theorem maxEffectiveBalance_dvd (v : Validator) :
    effectiveBalanceIncrement ∣ v.getMaxEffectiveBalance.val := by
  unfold Validator.getMaxEffectiveBalance
  split <;> decide

omit [Preset] in
/-- A balance that is rounded down and cut at the cap is capped. -/
theorem capped_of_cut {amount : Gwei} (h : v.effectiveBalance =
    Word.wrap (min (amount.val - amount.val % effectiveBalanceIncrement)
      v.getMaxEffectiveBalance.val)) : v.Capped := by
  refine ⟨?_, Fin.le_def.2 ?_⟩
  · rw [h]
    exact effectiveBalance_dvd amount (maxEffectiveBalance_dvd v)
  · rw [h, wrap_val]
    exact (Nat.mod_le _ _).trans (Nat.min_le_right _ _)

omit [Preset] in
/-- The cap of the credentials that a validator enters with. -/
theorem getMaxEffectiveBalance_entering (v : Validator) : v.getMaxEffectiveBalance.val =
    if v.withdrawalCredentials[0] = 2 then maxEffectiveBalance else minActivationBalance := by
  unfold Validator.getMaxEffectiveBalance Validator.hasCompoundingWithdrawalCredential
  by_cases hbyte : v.withdrawalCredentials[0] = 2
  · rw [hbyte]
    rfl
  · rw [if_neg hbyte, beq_eq_false_iff_ne.2 hbyte]
    rfl

omit [Preset] in
theorem capped_of_entering {amount : Gwei} (h : v.effectiveBalance =
    Word.wrap (min (amount.val - amount.val % effectiveBalanceIncrement)
      (if v.withdrawalCredentials[0] = 2 then maxEffectiveBalance else minActivationBalance))) :
    v.Capped := by
  rw [← getMaxEffectiveBalance_entering] at h
  exact capped_of_cut h

variable {s s' s'' : BeaconState}

def AllCapped (s : BeaconState) : Prop := ∀ v ∈ s.validators.toList, v.Capped

instance (s : BeaconState) : Decidable s.AllCapped :=
  inferInstanceAs (Decidable (∀ v ∈ s.validators.toList, v.Capped))

/-- `s'` is capped if `s` is. -/
def KeepsCapped (s s' : BeaconState) : Prop := s.AllCapped → s'.AllCapped

theorem KeepsCapped.trans (h : KeepsCapped s s') (h' : KeepsCapped s' s'') : KeepsCapped s s'' :=
  h' ∘ h

theorem KeepsCapped.of_validators (h : s'.registry.validators = s.registry.validators) :
    KeepsCapped s s' := by
  intro hs v hv
  have hold : v ∈ s.registry.validators := h ▸ (show v ∈ s'.registry.validators from hv)
  exact hs v hold

end BeaconState

namespace BeaconState

/-- `s'` comes from `s` by moves of one phase. -/
def Moves (p : Phase) (s s' : BeaconState) : Prop :=
  Relation.ReflTransGen (RegistryMove p) s.registry s'.registry

namespace Moves

variable {p : Phase} {s s' s'' : BeaconState}

theorem refl (s : BeaconState) : Moves p s s := Relation.ReflTransGen.refl

theorem trans (h : Moves p s s') (h' : Moves p s' s'') : Moves p s s'' :=
  Relation.ReflTransGen.trans h h'

theorem of_eq (h : s'.registry = s.registry) : Moves p s s' := by
  unfold Moves
  rw [h]

theorem single (move : RegistryMove p s.registry r) (h : s'.registry = r) : Moves p s s' := by
  unfold Moves
  rw [h]
  exact Relation.ReflTransGen.single move

theorem slot (h : Moves p s s') : s'.slot = s.slot := by
  unfold Moves at h
  generalize hr' : s'.registry = r' at h
  have hslot : r'.slot = s.registry.slot := by
    clear hr'
    induction h with
    | refl => rfl
    | tail _ move ih => exact move.slot_eq.trans ih
  exact (congrArg Registry.slot hr').trans hslot

/-- What every move of a phase keeps, its steps keep. -/
theorem inv {P : Registry → Prop} (h : Moves p s s')
    (step : ∀ {r r'}, RegistryMove p r r' → P r → P r') (hs : P s.registry) : P s'.registry := by
  unfold Moves at h
  generalize s'.registry = r' at h ⊢
  induction h with
  | refl => exact hs
  | tail _ move ih => exact step move ih

/-- A relation that composes and holds of every move of a phase holds of its steps. -/
theorem rel {R : Registry → Registry → Prop} (h : Moves p s s') (refl : ∀ r, R r r)
    (trans : ∀ {a b c}, R a b → R b c → R a c) (step : ∀ {r r'}, RegistryMove p r r' → R r r') :
    R s.registry s'.registry := by
  unfold Moves at h
  generalize s'.registry = r' at h ⊢
  induction h with
  | refl => exact refl _
  | tail _ move ih => exact trans ih (step move)

end Moves

/-! ## Steps -/

/-- How far a step writes beyond the registry: not at all, to the payload and the builders, or to
the participation flags as well. -/
inductive Reach where
  | registry
  | payload
  | votes

/-- The part of a state that only a few phases write: the position and the past of the chain, the
calendar, the randao mixes, the payload bits and the eth1 votes. -/
structure CoreView where
  chain : ChainView
  calendar : CalendarView
  randaoMixes : Vector Bytes32 epochsPerHistoricalVector
  executionPayloadAvailability : Bitvector slotsPerHistoricalRoot
  eth1Data : Eth1Data
  eth1DataVotes : BoundedList Eth1Data eth1DataVotesLen

def coreView (s : BeaconState) : CoreView :=
  ⟨s.chainView, s.calendarView, s.randaoMixes, s.executionPayloadAvailability, s.eth1Data,
    s.eth1DataVotes⟩

/-- The core and the participation flags. -/
def voteView (s : BeaconState) : CoreView × BoundedList ParticipationFlags validatorRegistryLimit ×
    BoundedList ParticipationFlags validatorRegistryLimit :=
  ⟨s.coreView, s.previousEpochParticipation, s.currentEpochParticipation⟩

/-- What almost every step does: moves of one phase that keep the caps, and no write to the core. -/
structure Changes (a : Reach) (p : Phase) (s s' : BeaconState) : Prop where
  moves : Moves p s s'
  capped : KeepsCapped s s'
  core : s'.coreView = s.coreView
  votes : a ≠ .votes → s'.voteView = s.voteView
  payload : a = .registry → s'.payloadView = s.payloadView

namespace Changes

variable {a : Reach} {p : Phase}

theorem refl (s : BeaconState) : Changes a p s s := ⟨.refl s, id, rfl, fun _ => rfl, fun _ => rfl⟩

theorem trans (h : Changes a p s s') (h' : Changes a p s' s'') : Changes a p s s'' :=
  ⟨h.moves.trans h'.moves, h.capped.trans h'.capped, h'.core.trans h.core,
    fun ha => (h'.votes ha).trans (h.votes ha), fun ha => (h'.payload ha).trans (h.payload ha)⟩

/-- A step that writes beside the registry alone. -/
theorem of_eq (h : s'.registry = s.registry) (hvotes : s'.voteView = s.voteView)
    (hpayload : s'.payloadView = s.payloadView) : Changes a p s s' :=
  ⟨.of_eq h, .of_validators (congrArg Registry.validators h),
    congrArg Prod.fst hvotes, fun _ => hvotes, fun _ => hpayload⟩

/-- A step that writes to the payload or the builders. -/
theorem of_payload (h : s'.registry = s.registry) (hvotes : s'.voteView = s.voteView) :
    Changes .payload p s s' :=
  ⟨.of_eq h, .of_validators (congrArg Registry.validators h), congrArg Prod.fst hvotes,
    fun _ => hvotes, nofun⟩

/-- One move. -/
theorem single (move : RegistryMove p s.registry r) (h : s'.registry = r)
    (hvotes : s'.voteView = s.voteView) (hpayload : s'.payloadView = s.payloadView)
    (hcapped : (∀ v ∈ s.registry.validators, v.Capped) → ∀ v ∈ r.validators, v.Capped) :
    Changes a p s s' := by
  subst h
  exact ⟨.single move rfl, hcapped, congrArg Prod.fst hvotes, fun _ => hvotes, fun _ => hpayload⟩

/-- Moves that leave the validators alone, and writes to the payload or the builders. -/
theorem building (h : Moves p s s') (hvalidators : s'.validators = s.validators)
    (hvotes : s'.voteView = s.voteView) : Changes .payload p s s' :=
  ⟨h, .of_validators (congrArg BoundedList.toList hvalidators), congrArg Prod.fst hvotes,
    fun _ => hvotes, nofun⟩

/-- Moves with writes to the participation flags. -/
theorem voting (h : Moves p s s') (hcapped : KeepsCapped s s') (hcore : s'.coreView = s.coreView) :
    Changes .votes p s s' := ⟨h, hcapped, hcore, fun hne => absurd rfl hne, nofun⟩

/-- A step that writes no further than the registry does so under every reach. -/
theorem widen (h : Changes .registry p s s') : Changes a p s s' :=
  ⟨h.moves, h.capped, h.core, fun _ => h.votes nofun, fun _ => h.payload rfl⟩

theorem toVotes (h : Changes a p s s') : Changes .votes p s s' :=
  ⟨h.moves, h.capped, h.core, fun h => absurd rfl h, nofun⟩

theorem bind {x : Transition BeaconState} {f : BeaconState → Transition BeaconState}
    (hx : Ensures x (Changes a p s)) (hf : ∀ s₁, Ensures (f s₁) (Changes a p s₁)) :
    Ensures (x >>= f) (Changes a p s) := Ensures.rel_bind (R := Changes a p) trans hx hf

theorem foldlM {α : Type} {f : BeaconState → α → Transition BeaconState} {l : List α}
    (step : ∀ x s, Ensures (f s x) (Changes a p s)) : Ensures (l.foldlM f s) (Changes a p s) :=
  Ensures.rel_foldlM (R := Changes a p) refl trans step

theorem self (s : BeaconState) : Ensures (pure s : Transition BeaconState) (Changes a p s) :=
  .pure (refl s)

theorem slot (h : Changes a p s s') : s'.slot = s.slot := h.moves.slot

theorem chain (h : Changes a p s s') : s'.chainView = s.chainView := congrArg CoreView.chain h.core

theorem frame (h : Changes .payload p s s') : Frame s s' :=
  ⟨h.chain, congrArg (·.2.1) (h.votes nofun), congrArg (·.2.2) (h.votes nofun)⟩

theorem untouched (h : Changes .registry p s s') : Untouched s s' :=
  ⟨h.chain, congrArg (·.2.1) (h.votes nofun), congrArg (·.2.2) (h.votes nofun), h.payload rfl⟩

/-- The active sets that are settled stay as they are. -/
theorem keeps (h : Changes a p s s') : KeepsDuties s s' where
  calendar := congrArg CoreView.calendar h.core
  randao := congrArg CoreView.randaoMixes h.core
  availability := congrArg CoreView.executionPayloadAvailability h.core
  active epoch hepoch i := by
    refine (h.moves.rel (R := fun r r' => r'.slot = r.slot ∧
      (epoch.val ≤ r.slot.epoch.val + maxSeedLookahead →
        r'.activeAt epoch i = r.activeAt epoch i)) (fun _ => ⟨rfl, fun _ => rfl⟩) ?_
      fun move => ⟨move.slot_eq, fun hepoch => move.activeAt_eq hepoch i⟩).2 hepoch
    rintro _ _ _ ⟨hslot, hactive⟩ ⟨hslot', hactive'⟩
    exact ⟨hslot'.trans hslot, fun hepoch => (hactive' (hslot ▸ hepoch)).trans (hactive hepoch)⟩

end Changes

end BeaconState

end Moonglass
