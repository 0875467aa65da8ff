import Moonglass.StateTransition.Runs

/-
  The registry updates against their reference, one pass over the validators in index order with
  exclusive branches. The code queues, exits and activates in three passes with independent tests.
  Queueing and activating only mark a validator: they leave the active set and its balance alone,
  so an exit comes out the same before and after them.
-/

namespace Moonglass

open Lib List BoundedList

variable [Preset]
variable {f : Nat → Validator → Validator} {k : Nat}

/-! ## The reference -/

namespace Validator

/-- The validator has not been queued and has the balance for it. -/
def isEligibleForActivationQueue (v : Validator) : Bool :=
  v.activationEligibilityEpoch == farFutureEpoch && minActivationBalance ≤ v.effectiveBalance.val

/-- The validator is active and its balance has fallen to the ejection balance. -/
def isEjected (v : Validator) (epoch : Epoch) : Bool :=
  v.isActiveValidator epoch && v.effectiveBalance.val ≤ ejectionBalance

/-- The validator waits for its activation and its queueing is finalized. -/
def isEligibleForActivation (v : Validator) (finalized : Epoch) : Bool :=
  v.activationEligibilityEpoch ≤ finalized && v.activationEpoch == farFutureEpoch

end Validator

namespace BeaconState

/-- The reference for one validator. -/
def registryStep (activationEpoch : Epoch) (s : BeaconState) (i : Nat) : Transition BeaconState :=
  match s.validators.get? i with
  | none => pure s
  | some v =>
    if v.isEligibleForActivationQueue then
      pure { s with validators := s.validators.modify i fun v =>
        { v with activationEligibilityEpoch := s.slot.epoch.satAdd 1 } }
    else if v.isEjected s.slot.epoch then s.initiateValidatorExit (Word.wrap i)
    else if v.isEligibleForActivation s.finalizedCheckpoint.epoch then
      pure { s with validators := s.validators.modify i fun v => { v with activationEpoch } }
    else pure s

/-- The reference: a single pass in index order. -/
def registryUpdatesReference (s : BeaconState) : Transition BeaconState := do
  let activationEpoch ← computeActivationExitEpoch s.slot.epoch
  (List.range s.validators.length).foldlM (registryStep activationEpoch) s

variable {s s' : BeaconState}

/-! ## Marks -/

/-- Update every validator by its position. -/
def mark (s : BeaconState) (f : Nat → Validator → Validator) : BeaconState :=
  { s with validators := ⟨s.validators.toList.mapIdx f, by simpa using s.validators.length_le⟩ }

@[simp] theorem mark_slot (s : BeaconState) (f : Nat → Validator → Validator) :
    (s.mark f).slot = s.slot := rfl

@[simp] theorem mark_finalizedCheckpoint (s : BeaconState) (f : Nat → Validator → Validator) :
    (s.mark f).finalizedCheckpoint = s.finalizedCheckpoint := rfl

theorem mark_get? (s : BeaconState) (f : Nat → Validator → Validator) (i : Nat) :
    (s.mark f).validators.get? i = (s.validators.get? i).map (f i) := getElem?_mapIdx

theorem mark_congr {g : Nat → Validator → Validator}
    (h : ∀ i v, s.validators.get? i = some v → f i v = g i v) : s.mark f = s.mark g := by
  have hlist : s.validators.toList.mapIdx f = s.validators.toList.mapIdx g := by
    refine ext_getElem? fun i => ?_
    rw [getElem?_mapIdx, getElem?_mapIdx]
    cases hv : s.validators.toList[i]? with
    | none => rfl
    | some v => exact congrArg some (h i v hv)
  unfold mark
  simp only [hlist]

theorem mark_id (hf : ∀ i v, f i v = v) : s.mark f = s := by
  have hlist : s.validators.toList.mapIdx f = s.validators.toList := by
    refine ext_getElem? fun i => ?_
    rw [getElem?_mapIdx]
    cases s.validators.toList[i]? with
    | none => rfl
    | some v => exact congrArg some (hf i v)
  simp only [mark, hlist]

/-- An update that an exit at the epoch does not notice and that does not notice an exit. -/
structure Harmless (epoch : Epoch) (f : Nat → Validator → Validator) : Prop where
  active : ∀ i v, (f i v).isActiveValidator epoch = v.isActiveValidator epoch
  balance : ∀ i v, (f i v).effectiveBalance = v.effectiveBalance
  staying : ∀ i v, (f i v).exitEpoch = v.exitEpoch
  leaving : ∀ i v exitEpoch withdrawableEpoch,
    f i { v with exitEpoch, withdrawableEpoch } = { f i v with exitEpoch, withdrawableEpoch }

theorem getTotalActiveBalance_mark (hf : Harmless s.slot.epoch f) :
    (s.mark f).getTotalActiveBalance = s.getTotalActiveBalance := by
  have hactive : (s.mark f).getActiveValidatorIndices s.slot.epoch =
      s.getActiveValidatorIndices s.slot.epoch := by
    refine getActiveValidatorIndices_congr fun i => ?_
    unfold activeAt
    rw [mark_get?]
    cases s.validators.get? i with
    | none => rfl
    | some v => exact hf.active i v
  have hlookup : ∀ (total : Gwei) (index : ValidatorIndex), (do
      let v ← (s.mark f).validator index
      okOr (total.checkedAdd v.effectiveBalance.val) (.arithmeticOverflow .balanceSum) :
        Transition Gwei) = (do
      let v ← s.validator index
      okOr (total.checkedAdd v.effectiveBalance.val) (.arithmeticOverflow .balanceSum)) := by
    intro total index
    unfold validator
    rw [mark_get?]
    cases s.validators.get? index.val with
    | none => rfl
    | some v =>
      show okOr (total.checkedAdd (f index.val v).effectiveBalance.val) _ = _
      rw [hf.balance]
      rfl
  show getTotalBalance (s.mark f) ((s.mark f).getActiveValidatorIndices s.slot.epoch) = _
  unfold getTotalBalance
  rw [hactive]
  simp only [hlookup]
  rfl

/-- A mark after an exit is a mark before it. -/
theorem modify_mark (hf : Harmless s.slot.epoch f) (index : Nat) (remaining : Gwei)
    (exitEpoch withdrawableEpoch : Epoch) :
    ({ s.mark f with
      exitBalanceToConsume := remaining
      earliestExitEpoch := exitEpoch
      validators := (s.mark f).validators.modify index fun v =>
        { v with exitEpoch, withdrawableEpoch } } : BeaconState) =
    ({ s with
      exitBalanceToConsume := remaining
      earliestExitEpoch := exitEpoch
      validators := s.validators.modify index fun v =>
        { v with exitEpoch, withdrawableEpoch } } : BeaconState).mark f := by
  have hlist : (s.validators.toList.mapIdx f).modify index
      (fun v => { v with exitEpoch, withdrawableEpoch }) =
      (s.validators.toList.modify index
        fun v => { v with exitEpoch, withdrawableEpoch }).mapIdx f := by
    refine ext_getElem? fun i => ?_
    rw [getElem?_modify, getElem?_mapIdx, getElem?_mapIdx, getElem?_modify]
    cases s.validators.toList[i]? with
    | none => rfl
    | some v =>
      by_cases hi : index = i
      · simp only [hi, if_true, Option.map_eq_map, Option.map_some]
        exact congrArg some (hf.leaving i v exitEpoch withdrawableEpoch).symm
      · simp [hi]
  simp only [mark, BoundedList.modify, hlist]

theorem initiateValidatorExit_mark (hf : Harmless s.slot.epoch f) (index : ValidatorIndex) :
    (s.mark f).initiateValidatorExit index = (s.initiateValidatorExit index).map (·.mark f) := by
  have hlimit : (s.mark f).getExitChurnLimit = s.getExitChurnLimit := by
    unfold getExitChurnLimit getBalanceChurnLimit
    rw [getTotalActiveBalance_mark hf]
  unfold initiateValidatorExit validator
  rw [mark_get?]
  cases s.validators.get? index.val with
  | none => rfl
  | some v =>
    show (if (f index.val v).exitEpoch ≠ farFutureEpoch then pure (s.mark f) else _) =
      Except.map _ (if v.exitEpoch ≠ farFutureEpoch then pure s else _)
    rw [hf.staying, hf.balance]
    by_cases hstaying : v.exitEpoch ≠ farFutureEpoch
    · rw [if_pos hstaying, if_pos hstaying]
      rfl
    · rw [if_neg hstaying, if_neg hstaying]
      unfold computeExitEpochAndUpdateChurn
      rw [hlimit]
      cases s.getExitChurnLimit with
      | error e => rfl
      | ok perEpochChurn =>
        simp only [ok_bind]
        show (consumeChurnBudget s.slot.epoch s.earliestExitEpoch s.exitBalanceToConsume
          v.effectiveBalance perEpochChurn >>= _ >>= _) = Except.map _ (_ >>= _ >>= _)
        cases consumeChurnBudget s.slot.epoch s.earliestExitEpoch s.exitBalanceToConsume
            v.effectiveBalance perEpochChurn with
        | error e => rfl
        | ok budget =>
          obtain ⟨exitEpoch, remaining⟩ := budget
          simp only [ok_bind, pure_eq_ok]
          cases okOr (exitEpoch.checkedAdd minValidatorWithdrawabilityDelay)
              (TransitionError.operation (.withdrawableEpochOverflow index)) with
          | error e => rfl
          | ok withdrawable => exact congrArg Except.ok (modify_mark hf _ _ _ _)

/-- An exit keeps the clock, the finalized checkpoint and every other validator; its own keeps
what the marks look at. -/
structure ExitedAt (index : Nat) (s s' : BeaconState) : Prop where
  slot : s'.slot = s.slot
  finalized : s'.finalizedCheckpoint = s.finalizedCheckpoint
  others : ∀ i, i ≠ index → s'.validators.get? i = s.validators.get? i
  self : ∀ v, s.validators.get? index = some v → ∃ exitEpoch withdrawableEpoch,
    s'.validators.get? index = some { v with exitEpoch, withdrawableEpoch }

theorem initiateValidatorExit_exitedAt (index : ValidatorIndex) :
    Ensures (s.initiateValidatorExit index) (ExitedAt index.val s) := by
  refine (initiateValidatorExit_effect index).imp fun s' ⟨v, hv, h⟩ => ?_
  rcases h with ⟨-, rfl⟩ | ⟨-, exitEpoch, withdrawableEpoch, remaining, -, rfl⟩
  · exact ⟨rfl, rfl, fun _ _ => rfl, fun v hv => ⟨v.exitEpoch, v.withdrawableEpoch, hv⟩⟩
  · refine ⟨rfl, rfl, fun i hi => ?_, fun v hv => ⟨exitEpoch, withdrawableEpoch, ?_⟩⟩
    · rw [get?_modify, if_neg hi.symm]
    · rw [get?_modify, if_pos rfl, hv]
      rfl

theorem foldlM_exit_mark (indices : List ValidatorIndex) (s : BeaconState)
    (hf : Harmless s.slot.epoch f) :
    indices.foldlM initiateValidatorExit (s.mark f) =
      (indices.foldlM initiateValidatorExit s).map (·.mark f) := by
  induction indices generalizing s with
  | nil => rfl
  | cons index indices ih =>
    rw [foldlM_cons, foldlM_cons, initiateValidatorExit_mark hf]
    cases hexit : s.initiateValidatorExit index with
    | error e => rfl
    | ok t =>
      have hslot := (initiateValidatorExit_exitedAt index t hexit).slot
      exact ih t (hslot ▸ hf)

/-! ## The two marks -/

/-- Queue a validator that is eligible. -/
def queued (current : Epoch) (v : Validator) : Validator :=
  if v.isEligibleForActivationQueue then
    { v with activationEligibilityEpoch := current.satAdd 1 } else v

/-- Activate a validator whose queueing is finalized. -/
def activated (activationEpoch finalized : Epoch) (v : Validator) : Validator :=
  if v.isEligibleForActivation finalized then { v with activationEpoch } else v

/-- What the code exits, position by position. -/
def exitsBefore (s : BeaconState) (k : Nat) : List ValidatorIndex :=
  ((List.range k).filter fun i =>
    (s.validators.get? i).any (·.isEjected s.slot.epoch)).map Word.wrap

omit [Preset] in
theorem queued_harmless (epoch current : Epoch) : Harmless epoch fun _ => queued current := by
  refine ⟨fun i v => ?_, fun i v => ?_, fun i v => ?_, fun i v exitEpoch withdrawableEpoch => ?_⟩
  · unfold queued
    split <;> rfl
  · unfold queued
    split <;> rfl
  · unfold queued
    split <;> rfl
  · have hsame : ({ v with exitEpoch, withdrawableEpoch } :
        Validator).isEligibleForActivationQueue = v.isEligibleForActivationQueue := rfl
    unfold queued
    rw [hsame]
    split <;> rfl

omit [Preset] in
/-- An activation in the future leaves the active set of the epoch alone. -/
theorem activated_harmless {epoch activationEpoch : Epoch} (finalized : Epoch)
    (hlater : epoch < activationEpoch) (hfar : epoch < farFutureEpoch) :
    Harmless epoch fun _ => activated activationEpoch finalized := by
  refine ⟨fun i v => ?_, fun i v => ?_, fun i v => ?_, fun i v exitEpoch withdrawableEpoch => ?_⟩
  · unfold activated
    split
    · rename_i heligible
      simp only [Validator.isEligibleForActivation, Bool.and_eq_true, beq_iff_eq] at heligible
      unfold Validator.isActiveValidator
      dsimp only
      rw [heligible.2, decide_eq_false (not_le.2 hlater), decide_eq_false (not_le.2 hfar)]
    · rfl
  · unfold activated
    split <;> rfl
  · unfold activated
    split <;> rfl
  · have hsame : ({ v with exitEpoch, withdrawableEpoch } :
        Validator).isEligibleForActivation finalized = v.isEligibleForActivation finalized := rfl
    unfold activated
    rw [hsame]
    split <;> rfl

/-- The marks of the reference after `k` steps. -/
def markedBefore (current activationEpoch finalized : Epoch) (k i : Nat) (v : Validator) :
    Validator :=
  if i < k then activated activationEpoch finalized (queued current v) else v

section

variable {current activationEpoch finalized : Epoch} {v : Validator}

omit [Preset] in
theorem markedBefore_harmless (hlater : current < activationEpoch) (hfar : current < farFutureEpoch)
    (k : Nat) : Harmless current (markedBefore current activationEpoch finalized k) := by
  have hq := queued_harmless current current
  have ha := activated_harmless finalized hlater hfar
  refine ⟨fun i v => ?_, fun i v => ?_, fun i v => ?_, fun i v exitEpoch withdrawableEpoch => ?_⟩
  · unfold markedBefore
    split
    · exact (ha.active i _).trans (hq.active i v)
    · rfl
  · unfold markedBefore
    split
    · exact (ha.balance i _).trans (hq.balance i v)
    · rfl
  · unfold markedBefore
    split
    · exact (ha.staying i _).trans (hq.staying i v)
    · rfl
  · unfold markedBefore
    split
    · exact (congrArg _ (hq.leaving i v exitEpoch withdrawableEpoch)).trans (ha.leaving i _ _ _)
    · rfl

omit [Preset] in
/-- A validator that is queued now is not activated now. -/
theorem marked_of_eligible (hfinalized : finalized ≤ current) (hfar : current < farFutureEpoch)
    (h : v.isEligibleForActivationQueue = true) :
    activated activationEpoch finalized (queued current v) =
      { v with activationEligibilityEpoch := current.satAdd 1 } := by
  have hnot : ¬current.satAdd 1 ≤ finalized := by
    intro hle
    have h₁ := Fin.le_def.1 hle
    have h₂ := Fin.le_def.1 hfinalized
    have h₃ := Fin.lt_def.1 hfar
    rw [Word.satAdd_val] at h₁
    unfold farFutureEpoch at h₃
    rw [Word.max_val] at h₃
    omega
  unfold queued
  rw [if_pos h]
  unfold activated Validator.isEligibleForActivation
  dsimp only
  rw [decide_eq_false hnot, Bool.false_and]
  rfl

omit [Preset] in
theorem marked_of_not_eligible (h : v.isEligibleForActivationQueue = false) :
    activated activationEpoch finalized (queued current v) =
      activated activationEpoch finalized v := by
  unfold queued
  rw [h]
  rfl

omit [Preset] in
/-- The balance of an ejected validator is too low for the queue. -/
theorem not_isEjected_of_eligible (h : v.isEligibleForActivationQueue = true) (epoch : Epoch) :
    v.isEjected epoch = false := by
  simp only [Validator.isEligibleForActivationQueue, Bool.and_eq_true, decide_eq_true_eq] at h
  have hlow : ¬v.effectiveBalance.val ≤ ejectionBalance := by
    have := h.2
    unfold minActivationBalance at this
    unfold ejectionBalance
    omega
  unfold Validator.isEjected
  rw [decide_eq_false hlow, Bool.and_false]

omit [Preset] in
/-- An active validator has been activated. -/
theorem activated_of_isEjected (hfar : current < farFutureEpoch)
    (h : v.isEjected current = true) : activated activationEpoch finalized v = v := by
  simp only [Validator.isEjected, Validator.isActiveValidator, Bool.and_eq_true,
    decide_eq_true_eq] at h
  have hactivated : v.activationEpoch ≠ farFutureEpoch := fun heq =>
    absurd (heq ▸ h.1.1) (not_le.2 hfar)
  unfold activated Validator.isEligibleForActivation
  rw [beq_eq_false_iff_ne.2 hactivated, Bool.and_false]
  rfl

end

/-! ## The pass -/

variable {v : Validator} {current activationEpoch finalized : Epoch}

/-- One more mark, written by position. -/
theorem mark_succ {f : Validator → Validator} (hv : s.validators.get? k = some v)
    (hf : activated activationEpoch finalized (queued current v) = f v) :
    ({ s.mark (markedBefore current activationEpoch finalized k) with
      validators := (s.mark (markedBefore current activationEpoch finalized k)).validators.modify k
        f } : BeaconState) =
      s.mark (markedBefore current activationEpoch finalized (k + 1)) := by
  have hlist :
      (s.validators.toList.mapIdx (markedBefore current activationEpoch finalized k)).modify k f =
        s.validators.toList.mapIdx (markedBefore current activationEpoch finalized (k + 1)) := by
    refine ext_getElem? fun i => ?_
    rw [getElem?_modify, getElem?_mapIdx, getElem?_mapIdx]
    by_cases hi : k = i
    · subst hi
      rw [show s.validators.toList[k]? = some v from hv]
      simp [markedBefore, hf]
    · cases s.validators.toList[i]? with
      | none => rfl
      | some v' =>
        have hiff : i < k + 1 ↔ i < k := by omega
        simp [markedBefore, hiff, hi]
  simp only [mark, BoundedList.modify, hlist]

/-- A mark that changes nothing. -/
theorem mark_succ_of_eq (hv : s.validators.get? k = some v)
    (hsame : activated activationEpoch finalized (queued current v) = v) :
    s.mark (markedBefore current activationEpoch finalized (k + 1)) =
      s.mark (markedBefore current activationEpoch finalized k) := by
  refine mark_congr fun i v' hv' => ?_
  unfold markedBefore
  by_cases hi : i = k
  · subst hi
    cases hv.symm.trans hv'
    rw [if_pos (Nat.lt_succ_self i), if_neg (Nat.lt_irrefl i), hsame]
  · have hiff : i < k + 1 ↔ i < k := by omega
    simp only [hiff]

/-- What the exits before position `k` leave alone. -/
structure ExitedBefore (k : Nat) (s s' : BeaconState) : Prop where
  slot : s'.slot = s.slot
  finalized : s'.finalizedCheckpoint = s.finalizedCheckpoint
  later : ∀ i, k ≤ i → s'.validators.get? i = s.validators.get? i

theorem exitsBefore_exited (k : Nat) :
    Ensures ((s.exitsBefore k).foldlM initiateValidatorExit s) (ExitedBefore k s) := by
  have hrel : ∀ (l : List ValidatorIndex) (t : BeaconState), (∀ index ∈ l, index.val < k) →
      ExitedBefore k s t →
      Ensures (l.foldlM initiateValidatorExit t) (ExitedBefore k s) := by
    intro l
    induction l with
    | nil => exact fun t _ ht => .pure ht
    | cons index l ih =>
      intro t hl ht
      rw [foldlM_cons]
      refine .bind (initiateValidatorExit_exitedAt index) fun t' ht' => ih t' ?_ ?_
      · exact fun index' h => hl index' (.tail _ h)
      · refine ⟨ht'.slot.trans ht.slot, ht'.finalized.trans ht.finalized, fun i hi => ?_⟩
        have hindex := hl index mem_cons_self
        rw [ht'.others i (by omega), ht.later i hi]
  refine hrel _ s (fun index hindex => ?_) ⟨rfl, rfl, fun _ _ => rfl⟩
  obtain ⟨i, hi, rfl⟩ := mem_map.1 hindex
  have hlt := mem_range.1 (mem_filter.1 hi).1
  exact Nat.lt_of_le_of_lt (Nat.mod_le _ _) hlt

theorem exitsBefore_succ (hv : s.validators.get? k = some v) : s.exitsBefore (k + 1) =
      s.exitsBefore k ++ if v.isEjected s.slot.epoch then [Word.wrap k] else [] := by
  unfold exitsBefore
  rw [range_succ, filter_append, map_append, filter_singleton, hv]
  cases hv : v.isEjected s.slot.epoch <;> simp [hv]

/-- The reference on a validator whose predecessors are marked. -/
theorem registryStep_mark {current activationEpoch : Epoch} (hcurrent : s.slot.epoch = current)
    (hlater : current < activationEpoch) (hfinalized : s.finalizedCheckpoint.epoch ≤ current)
    (hfar : current < farFutureEpoch) (hk : k < 2 ^ 64) (hv : s.validators.get? k = some v) :
    registryStep activationEpoch
        (s.mark (markedBefore current activationEpoch s.finalizedCheckpoint.epoch k)) k =
      ((if v.isEjected current then [Word.wrap k] else []).foldlM initiateValidatorExit s).map
        (·.mark (markedBefore current activationEpoch s.finalizedCheckpoint.epoch (k + 1))) := by
  subst hcurrent
  have hharmless : ∀ k, Harmless s.slot.epoch
      (markedBefore s.slot.epoch activationEpoch s.finalizedCheckpoint.epoch k) :=
    markedBefore_harmless hlater hfar
  have hget : (s.mark (markedBefore s.slot.epoch activationEpoch s.finalizedCheckpoint.epoch
      k)).validators.get? k = some v := by
    rw [mark_get?, hv]
    exact congrArg some (if_neg (Nat.lt_irrefl k))
  unfold registryStep
  rw [hget, mark_slot, mark_finalizedCheckpoint]
  dsimp only
  by_cases hqueue : v.isEligibleForActivationQueue = true
  · rw [if_pos hqueue, not_isEjected_of_eligible hqueue]
    exact congrArg Except.ok (mark_succ hv (marked_of_eligible hfinalized hfar hqueue))
  have hqueue := Bool.eq_false_iff.2 hqueue
  rw [hqueue]
  by_cases heject : v.isEjected s.slot.epoch = true
  · -- the exit commutes with the marks below it, and the validator itself gets none
    have hsame : activated activationEpoch s.finalizedCheckpoint.epoch
        (queued s.slot.epoch v) = v :=
      (marked_of_not_eligible hqueue).trans (activated_of_isEjected hfar heject)
    have hval : (Word.wrap k : ValidatorIndex).val = k := Nat.mod_eq_of_lt hk
    rw [if_neg Bool.false_ne_true, if_pos heject, if_pos heject, initiateValidatorExit_mark
      (hharmless k), foldlM_cons]
    cases hexit : s.initiateValidatorExit (Word.wrap k) with
    | error e => rfl
    | ok t =>
      have hexited := initiateValidatorExit_exitedAt _ t hexit
      rw [hval] at hexited
      obtain ⟨exitEpoch, withdrawableEpoch, hv'⟩ := hexited.self v hv
      refine congrArg Except.ok (mark_succ_of_eq hv' ?_).symm
      have hleave := (hharmless (k + 1)).leaving k v exitEpoch withdrawableEpoch
      simp only [markedBefore, if_pos (Nat.lt_succ_self k), hsame] at hleave
      exact hleave
  have heject := Bool.eq_false_iff.2 heject
  rw [heject, if_neg Bool.false_ne_true, if_neg Bool.false_ne_true]
  by_cases hactivate : v.isEligibleForActivation s.finalizedCheckpoint.epoch = true
  · rw [if_pos hactivate]
    exact congrArg Except.ok
      (mark_succ hv ((marked_of_not_eligible hqueue).trans (if_pos hactivate)))
  · rw [if_neg hactivate]
    exact congrArg Except.ok
      (mark_succ_of_eq hv ((marked_of_not_eligible hqueue).trans (if_neg hactivate))).symm

/-- The reference after `k` validators: the exits among them, then their marks. -/
theorem foldlM_registryStep {activationEpoch : Epoch} (hlater : s.slot.epoch < activationEpoch)
    (hfinalized : s.finalizedCheckpoint.epoch ≤ s.slot.epoch) (hfar : s.slot.epoch < farFutureEpoch)
    (hk : k ≤ s.validators.length) :
    (List.range k).foldlM (registryStep activationEpoch) s =
      ((s.exitsBefore k).foldlM initiateValidatorExit s).map
        (·.mark (markedBefore s.slot.epoch activationEpoch s.finalizedCheckpoint.epoch k)) := by
  induction k with
  | zero =>
    exact congrArg Except.ok (mark_id fun i v => if_neg (Nat.not_lt_zero i)).symm
  | succ k ih =>
    have hlt : k < s.validators.length := hk
    have hword : k < 2 ^ 64 := by
      have hle := s.validators.length_le
      have hlimit : validatorRegistryLimit ≤ 2 ^ 64 := by decide
      exact Nat.lt_of_lt_of_le (Nat.lt_of_lt_of_le hlt hle) hlimit
    obtain ⟨v, hv⟩ : ∃ v, s.validators.get? k = some v :=
      ⟨_, getElem?_eq_getElem hlt⟩
    rw [range_succ, foldlM_append, ih (Nat.le_of_lt hlt), exitsBefore_succ hv,
      foldlM_append]
    cases hexits : (s.exitsBefore k).foldlM initiateValidatorExit s with
    | error e => rfl
    | ok t =>
      have hexited := exitsBefore_exited k t hexits
      have hstep := registryStep_mark (s := t) (k := k) (v := v) (congrArg Slot.epoch hexited.slot)
        hlater (by rw [hexited.finalized]; exact hfinalized) hfar hword
        ((hexited.later k (Nat.le_refl k)).trans hv)
      rw [hexited.finalized] at hstep
      show [k].foldlM (registryStep activationEpoch) (t.mark _) =
        Except.map _ (List.foldlM initiateValidatorExit t _)
      rw [foldlM_cons, hstep]
      cases ((if v.isEjected s.slot.epoch then [Word.wrap k] else []).foldlM initiateValidatorExit
        t : Transition BeaconState) <;> rfl

/-! ## The three passes -/

theorem mark_const (s : BeaconState) (f : Validator → Validator) :
    s.mark (fun _ => f) = { s with validators := s.validators.map f } := by
  have hlist : s.validators.toList.mapIdx (fun _ => f) = s.validators.toList.map f := by
    refine ext_getElem? fun i => ?_
    rw [getElem?_mapIdx, getElem?_map]
  simp only [mark, BoundedList.map, hlist]

omit [Preset] in
theorem queued_eq (current : Epoch) : queued current = fun v =>
    if v.activationEligibilityEpoch = farFutureEpoch ∧
      minActivationBalance ≤ v.effectiveBalance.val then
      { v with activationEligibilityEpoch := current.satAdd 1 }
    else v := by
  funext v
  simp only [queued, Validator.isEligibleForActivationQueue, Bool.and_eq_true, beq_iff_eq,
    decide_eq_true_eq]

omit [Preset] in
theorem activated_eq (activationEpoch finalized : Epoch) :
    activated activationEpoch finalized = fun v =>
      if v.activationEpoch = farFutureEpoch ∧ v.activationEligibilityEpoch ≤ finalized then
        { v with activationEpoch }
      else v := by
  funext v
  simp only [activated, Validator.isEligibleForActivation, Bool.and_eq_true, beq_iff_eq,
    decide_eq_true_eq, and_comm]

omit [Preset] in
/-- Queueing changes nothing that the ejection looks at. -/
theorem queued_isEjected (current : Epoch) (v : Validator) :
    (queued current v).isEjected current = v.isEjected current := by
  have h := queued_harmless current current
  unfold Validator.isEjected
  rw [h.active 0 v, h.balance 0 v]

theorem exits_queued (s : BeaconState) :
    ((s.validators.map (queued s.slot.epoch)).toList.zipIdx.filterMap fun x : Validator × Nat =>
      if x.1.isActiveValidator s.slot.epoch && x.1.effectiveBalance.val ≤ ejectionBalance then
        some (Word.wrap x.2 : ValidatorIndex)
      else none) = s.exitsBefore s.validators.length := by
  have hlength : (s.validators.map (queued s.slot.epoch)).toList.length = s.validators.length :=
    length_map _
  refine (filterMap_zipIdx (fun v : Validator => v.isEjected s.slot.epoch) Word.wrap _).trans ?_
  unfold exitsBefore
  rw [hlength]
  refine congrArg _ (filter_congr fun i _ => ?_)
  show ((s.validators.toList.map (queued s.slot.epoch))[i]?).any _ = (s.validators.toList[i]?).any _
  rw [getElem?_map]
  cases s.validators.toList[i]? with
  | none => rfl
  | some v => exact queued_isEjected s.slot.epoch v

theorem mark_mark (s : BeaconState) (f g : Validator → Validator) :
    (s.mark fun _ => f).mark (fun _ => g) = s.mark fun _ v => g (f v) := by
  simp only [mark, mapIdx_mapIdx, Function.comp_def]

/-- The code: the exits, then both marks. -/
theorem processRegistryUpdates_eq {activationEpoch : Epoch}
    (hactivation : computeActivationExitEpoch s.slot.epoch = .ok activationEpoch) :
    s.processRegistryUpdates =
      ((s.exitsBefore s.validators.length).foldlM initiateValidatorExit s).map
        (·.mark fun _ v => activated activationEpoch s.finalizedCheckpoint.epoch
          (queued s.slot.epoch v)) := by
  have hqueue := mark_const s (queued s.slot.epoch)
  rw [queued_eq] at hqueue
  unfold processRegistryUpdates
  dsimp only
  rw [← hqueue, ← queued_eq, exits_queued, foldlM_exit_mark _ s (queued_harmless _ _)]
  cases hexits : (s.exitsBefore s.validators.length).foldlM initiateValidatorExit s with
  | error e => rfl
  | ok t =>
    have hfinalized := (exitsBefore_exited _ t hexits).finalized
    have hactivate := mark_const (t.mark fun _ => queued s.slot.epoch)
      (activated activationEpoch s.finalizedCheckpoint.epoch)
    rw [mark_mark, activated_eq, ← hfinalized] at hactivate
    rw [hactivation, activated_eq, ← hfinalized]
    exact congrArg Except.ok hactivate.symm

/-- Three passes with independent tests do what the single pass with exclusive branches does. -/
theorem processRegistryUpdates_eq_reference (s : BeaconState)
    (hfinalized : s.finalizedCheckpoint.epoch ≤ s.slot.epoch) :
    s.processRegistryUpdates = s.registryUpdatesReference := by
  obtain ⟨activationEpoch, hactivation, hlater⟩ := computeActivationExitEpoch_ok s.slot
  have hfar : s.slot.epoch < farFutureEpoch := by
    have := epoch_lt_farFuture s.slot
    exact Fin.lt_def.2 (by omega)
  unfold registryUpdatesReference
  rw [processRegistryUpdates_eq hactivation, hactivation, ok_bind,
    foldlM_registryStep hlater hfinalized hfar (Nat.le_refl _)]
  cases hexits : (s.exitsBefore s.validators.length).foldlM initiateValidatorExit s with
  | error e => rfl
  | ok t =>
    -- no exit adds a validator, so every position of the result is below the old length
    refine congrArg Except.ok (mark_congr fun i v hv => ?_)
    have hi : i < s.validators.length := by
      by_contra hge
      rw [(exitsBefore_exited _ t hexits).later i (not_lt.1 hge)] at hv
      exact hge (List.getElem?_eq_some_iff.1 hv).1
    exact (if_pos hi).symm

end BeaconState

end Moonglass

namespace Moonglass.Devnet

open Lib

/-- The market with a validator to eject and one to queue. -/
def registryMarket : BeaconState :=
  { market with validators := (market.validators.modify 1 fun v =>
      { v with effectiveBalance := Word.wrap ejectionBalance }).modify 2 fun v =>
        { v with activationEligibilityEpoch := farFutureEpoch } }

theorem processRegistryUpdates_eq_reference_registryMarket :
    registryMarket.finalizedCheckpoint.epoch ≤ registryMarket.slot.epoch ∧
    registryMarket.exitsBefore registryMarket.validators.length = [1] ∧
    registryMarket.processRegistryUpdates = registryMarket.registryUpdatesReference :=
  ⟨by decide, by decide +kernel,
    BeaconState.processRegistryUpdates_eq_reference registryMarket (by decide)⟩

end Moonglass.Devnet
