import Moonglass.StateTransition.Runs

/-
  The life of a validator. Whatever a chain does, a validator is activated once, leaves once, is
  slashed once, and its withdrawable epoch follows its exit; a slashing can raise it once more.
-/

namespace Moonglass

open Lib

variable [Preset]

/-! ## The law of one step -/

/-- The three epochs of a validator are in order. -/
structure Validator.Ordered (v : Validator) : Prop where
  activation_le_exit : v.activationEpoch ≤ v.exitEpoch
  exit_le_withdrawable : v.exitEpoch ≤ v.withdrawableEpoch

/-- What may happen to a validator in an epoch. -/
structure Lifecycle (epoch : Epoch) (v v' : Validator) : Prop where
  activation : v'.activationEpoch = v.activationEpoch ∨
    v.activationEpoch = farFutureEpoch ∧
      epoch.val + 1 + maxSeedLookahead ≤ v'.activationEpoch.val
  exit : v'.exitEpoch = v.exitEpoch ∨
    v.exitEpoch = farFutureEpoch ∧ v'.exitEpoch ≠ farFutureEpoch ∧
      epoch.val + 1 + maxSeedLookahead ≤ v'.exitEpoch.val
  /-- The withdrawable epoch is set together with the exit epoch, or raised by a slashing. -/
  withdrawable : v'.withdrawableEpoch = v.withdrawableEpoch ∨
    v.exitEpoch = farFutureEpoch ∧ v'.exitEpoch ≠ farFutureEpoch ∨
    v.exitEpoch ≠ farFutureEpoch ∧ v.slashed = false ∧ v'.slashed = true ∧
      v.withdrawableEpoch < v'.withdrawableEpoch
  delay : v.exitEpoch = farFutureEpoch → v'.exitEpoch ≠ farFutureEpoch →
    v'.exitEpoch.val + minValidatorWithdrawabilityDelay ≤ v'.withdrawableEpoch.val
  slashed : v.slashed = true → v'.slashed = true
  ordered : v.Ordered → v'.Ordered

namespace Lifecycle

variable {epoch : Epoch} {v v' v'' : Validator}

omit [Preset] in
/-- Nothing of the lifecycle changes. -/
theorem of_eq (hactivation : v'.activationEpoch = v.activationEpoch)
    (hexit : v'.exitEpoch = v.exitEpoch) (hwithdrawable : v'.withdrawableEpoch = v.withdrawableEpoch)
    (hslashed : v'.slashed = v.slashed) : Lifecycle epoch v v' where
  activation := .inl hactivation
  exit := .inl hexit
  withdrawable := .inl hwithdrawable
  delay hfar hne := absurd (hexit.trans hfar) hne
  slashed h := hslashed.trans h
  ordered h := by
    refine ⟨?_, ?_⟩
    · rw [hactivation, hexit]
      exact h.activation_le_exit
    · rw [hexit, hwithdrawable]
      exact h.exit_le_withdrawable

omit [Preset] in
theorem refl (v : Validator) : Lifecycle epoch v v := of_eq rfl rfl rfl rfl

omit [Preset] in
/-- A validator that has left keeps its exit epoch. -/
theorem exit_eq (h : Lifecycle epoch v v') (hne : v.exitEpoch ≠ farFutureEpoch) :
    v'.exitEpoch = v.exitEpoch := by
  rcases h.exit with hexit | ⟨hfar, -⟩
  · exact hexit
  · exact absurd hfar hne

omit [Preset] in
theorem exit_ne (h : Lifecycle epoch v v') (hne : v.exitEpoch ≠ farFutureEpoch) :
    v'.exitEpoch ≠ farFutureEpoch := h.exit_eq hne ▸ hne

omit [Preset] in
/-- After the exit the withdrawable epoch is only ever raised. -/
theorem withdrawable_le (h : Lifecycle epoch v v') (hne : v.exitEpoch ≠ farFutureEpoch) :
    v.withdrawableEpoch ≤ v'.withdrawableEpoch := by
  rcases h.withdrawable with heq | ⟨hfar, -⟩ | ⟨-, -, -, hlt⟩
  · exact heq.ge
  · exact absurd hfar hne
  · exact hlt.le

omit [Preset] in
theorem trans (h : Lifecycle epoch v v') (h' : Lifecycle epoch v' v'') : Lifecycle epoch v v'' where
  activation := by
    rcases h'.activation with heq' | ⟨hfar', hlate'⟩
    · rw [heq']
      exact h.activation
    · rcases h.activation with heq | ⟨hfar, -⟩
      · exact .inr ⟨heq ▸ hfar', hlate'⟩
      · exact .inr ⟨hfar, hlate'⟩
  exit := by
    rcases h'.exit with heq' | ⟨hfar', hne', hlate'⟩
    · rw [heq']
      exact h.exit
    · rcases h.exit with heq | ⟨hfar, -⟩
      · exact .inr ⟨heq ▸ hfar', hne', hlate'⟩
      · exact .inr ⟨hfar, hne', hlate'⟩
  withdrawable := by
    by_cases hleft : v.exitEpoch = farFutureEpoch
    · by_cases hleft'' : v''.exitEpoch = farFutureEpoch
      · -- a validator that stays through both steps keeps its withdrawable epoch
        have hstays : v'.exitEpoch = farFutureEpoch := by
          by_contra hne
          exact h'.exit_ne hne hleft''
        have h₁ : v'.withdrawableEpoch = v.withdrawableEpoch := by
          rcases h.withdrawable with heq | ⟨-, hne⟩ | ⟨hne, -⟩
          · exact heq
          · exact absurd hstays hne
          · exact absurd hleft hne
        have h₂ : v''.withdrawableEpoch = v'.withdrawableEpoch := by
          rcases h'.withdrawable with heq | ⟨-, hne⟩ | ⟨hne, -⟩
          · exact heq
          · exact absurd hleft'' hne
          · exact absurd hstays hne
        exact .inl (h₂.trans h₁)
      · exact .inr (.inl ⟨hleft, hleft''⟩)
    · rcases h.withdrawable with heq | ⟨hfar, -⟩ | ⟨-, hunslashed, hslashed, hlt⟩
      · rw [← heq]
        rcases h'.withdrawable with heq' | ⟨hfar', -⟩ | ⟨-, hunslashed', hslashed', hlt'⟩
        · exact .inl heq'
        · exact absurd hfar' (h.exit_ne hleft)
        · refine .inr (.inr ⟨hleft, ?_, hslashed', hlt'⟩)
          by_contra hslashed
          rw [h.slashed (by simpa using hslashed)] at hunslashed'
          cases hunslashed'
      · exact absurd hfar hleft
      · exact .inr (.inr ⟨hleft, hunslashed, h'.slashed hslashed,
          hlt.trans_le (h'.withdrawable_le (h.exit_ne hleft))⟩)
  delay hfar hne := by
    by_cases hstays : v'.exitEpoch = farFutureEpoch
    · exact h'.delay hstays hne
    · rw [h'.exit_eq hstays]
      exact (h.delay hfar hstays).trans (h'.withdrawable_le hstays)
  slashed hs := h'.slashed (h.slashed hs)
  ordered ho := h'.ordered (h.ordered ho)

end Lifecycle

omit [Preset] in
theorem le_farFuture (epoch : Epoch) : epoch ≤ farFutureEpoch := by
  have := epoch.isLt
  exact Fin.le_def.2 (by unfold farFutureEpoch; rw [Word.max_val]; omega)

/-- Every move of a validator follows the law. -/
theorem ValidatorMove.lifecycle {epoch : Epoch} {v v' : Validator}
    (h : ValidatorMove epoch v v') : Lifecycle epoch v v' := by
  cases h with
  | keep => exact .refl v
  | revise h =>
    obtain ⟨_, _, rfl⟩ := h
    exact .of_eq rfl rfl rfl rfl
  | rebalance h =>
    obtain ⟨_, rfl, -⟩ := h
    exact .of_eq rfl rfl rfl rfl
  | @exit cursor exitEpoch withdrawableEpoch hmay hat =>
    have hw := hat.withdrawable
    have hlate := hat.later
    refine ⟨.inl rfl, .inr ⟨hmay.staying, hat.ne_farFuture, hlate⟩,
      .inr (.inl ⟨hmay.staying, hat.ne_farFuture⟩), fun _ _ => hw.ge, fun h => h, fun _ => ⟨?_, ?_⟩⟩
    · have hactivated := Fin.le_def.1 hmay.activated
      exact Fin.le_def.2 (by simp only; omega)
    · exact Fin.le_def.2 (by simp only; omega)
  | @slash extended hslashed hexit hextended =>
    refine ⟨.inl rfl, .inl rfl, ?_, fun hfar _ => absurd hfar hexit, fun _ => rfl, fun ho =>
      ⟨ho.activation_le_exit, ho.exit_le_withdrawable.trans (le_max_left _ _)⟩⟩
    rcases (le_max_left v.withdrawableEpoch extended).eq_or_lt with heq | hlt
    · exact .inl heq.symm
    · exact .inr (.inr ⟨hexit, hslashed, rfl, hlt⟩)
  | @activate activationEpoch hepoch hwaiting =>
    refine ⟨.inr ⟨hwaiting, hepoch.ge⟩, .inl rfl, .inl rfl, fun hfar hne => absurd hfar hne,
      fun h => h, fun ho => ⟨?_, ho.exit_le_withdrawable⟩⟩
    -- a validator that waits for its activation has no exit yet
    have hexit : farFutureEpoch ≤ v.exitEpoch := hwaiting ▸ ho.activation_le_exit
    exact (le_farFuture _).trans hexit

/-- A step of a chain follows the law for every validator in the registry. -/
theorem ChainEvent.Accepted.lifecycle [Crypto] {e : ChainEvent} (h : e.Accepted) {k : Nat}
    {v : Validator} (hv : e.before.validators.get? k = some v) :
    ∃ v', e.after.validators.get? k = some v' ∧ Lifecycle e.before.slot.epoch v v' := by
  obtain ⟨r, hmoves, -, hafter⟩ := h.moved
  have hkept : ∃ v', r.validators[k]? = some v' ∧ Lifecycle e.before.slot.epoch v v' ∧
      r.slot = e.before.slot := by
    clear hafter
    induction hmoves with
    | refl => exact ⟨v, hv, .refl v, rfl⟩
    | tail _ move ih =>
      obtain ⟨v₁, hv₁, hlife, hslot⟩ := ih
      obtain ⟨p, move⟩ := move
      obtain ⟨v₂, hv₂, hmove⟩ := move.validator hv₁
      exact ⟨v₂, hv₂, hlife.trans (hslot ▸ hmove.lifecycle), move.slot_eq.trans hslot⟩
  obtain ⟨v', hv', hlife, -⟩ := hkept
  have hvalidators : e.after.validators.toList = r.validators := congrArg Registry.validators hafter
  exact ⟨v', (congrArg (·[k]?) hvalidators).trans hv', hlife⟩

/-! ## The law of a run -/

/-- A change that leaves a state in which it cannot happen again, and that nothing undoes, happens
at most once in a run. -/
theorem Runs.countP_le_one [Crypto] {s s' : BeaconState} {events : List ChainEvent}
    (h : Runs s events s') {flag : ChainEvent → Bool} (D : BeaconState → Prop)
    (hflag : ∀ e : ChainEvent, e.Accepted → flag e = true → ¬D e.before ∧ D e.after)
    (hkeep : ∀ e : ChainEvent, e.Accepted → D e.before → D e.after) :
    (D s → events.countP flag = 0) ∧ events.countP flag ≤ 1 := by
  induction h with
  | nil s => exact ⟨fun _ => rfl, Nat.zero_le _⟩
  | @cons e es s' head tail ih =>
    rw [List.countP_cons]
    cases hf : flag e with
    | true =>
      obtain ⟨hbefore, hafter⟩ := hflag e head hf
      have hzero := ih.1 hafter
      exact ⟨fun hD => absurd hD hbefore, by rw [hzero]; rfl⟩
    | false =>
      exact ⟨fun hD => ih.1 (hkeep e head hD), ih.2⟩

namespace ChainEvent

/-- Does a field of the validator at `k` change in this step? -/
def changes {α : Type} [DecidableEq α] (f : Validator → α) (k : Nat) (e : ChainEvent) : Bool :=
  match e.before.validators.get? k, e.after.validators.get? k with
  | some v, some v' => f v ≠ f v'
  | _, _ => false

/-- Does the withdrawable epoch of a validator change that had its exit before? -/
def raises (k : Nat) (e : ChainEvent) : Bool :=
  ((e.before.validators.get? k).any fun v => v.exitEpoch ≠ farFutureEpoch) &&
    e.changes Validator.withdrawableEpoch k

theorem changes_eq_true {α : Type} [DecidableEq α] {f : Validator → α} {k : Nat} {e : ChainEvent}
    (h : e.changes f k = true) : ∃ v v', e.before.validators.get? k = some v ∧
      e.after.validators.get? k = some v' ∧ f v ≠ f v' := by
  unfold changes at h
  split at h
  · rename_i v v' hv hv'
    exact ⟨v, v', hv, hv', by simpa using h⟩
  · cases h

end ChainEvent

/-- The validator at `k` is registered and has the property. -/
def BeaconState.HasAt (s : BeaconState) (k : Nat) (P : Validator → Prop) : Prop :=
  ∃ v, s.validators.get? k = some v ∧ P v

section

variable {s s' : BeaconState} {events : List ChainEvent}

/-- A change of a validator that the law allows once happens once. -/
theorem Runs.once [Crypto] (h : Runs s events s') {flag : ChainEvent → Bool} {k : Nat}
    {P : Validator → Prop} (hflag : ∀ e v v', flag e = true → e.before.validators.get? k = some v →
      e.after.validators.get? k = some v' → Lifecycle e.before.slot.epoch v v' → ¬P v ∧ P v')
    (hregistered : ∀ e, flag e = true → ∃ v, e.before.validators.get? k = some v)
    (hkeep : ∀ epoch v v', Lifecycle epoch v v' → P v → P v') : events.countP flag ≤ 1 := by
  refine (h.countP_le_one (fun s => s.HasAt k P) ?_ ?_).2
  · intro e he hf
    obtain ⟨v, hv⟩ := hregistered e hf
    obtain ⟨v', hv', hlife⟩ := he.lifecycle hv
    obtain ⟨hnot, hP⟩ := hflag e v v' hf hv hv' hlife
    refine ⟨fun ⟨v₁, hv₁, hP₁⟩ => hnot ?_, v', hv', hP⟩
    rwa [Option.some.inj (hv.symm.trans hv₁)]
  · intro e he ⟨v, hv, hP⟩
    obtain ⟨v', hv', hlife⟩ := he.lifecycle hv
    exact ⟨v', hv', hkeep _ _ _ hlife hP⟩

/-- A field of a validator that changes only from a first value to others changes once. -/
theorem Runs.changes_once [Crypto] {α : Type} [DecidableEq α] (h : Runs s events s') (k : Nat)
    {f : Validator → α} (first : α)
    (hf : ∀ epoch v v', Lifecycle epoch v v' → f v' = f v ∨ f v = first) :
    events.countP (·.changes f k) ≤ 1 := by
  refine h.once (k := k) (P := fun v => f v ≠ first) ?_ ?_ ?_
  · intro e v v' hchange hv hv' hlife
    obtain ⟨v₁, v₁', hv₁, hv₁', hne⟩ := ChainEvent.changes_eq_true hchange
    obtain rfl := Option.some.inj (hv.symm.trans hv₁)
    obtain rfl := Option.some.inj (hv'.symm.trans hv₁')
    have hfirst := (hf _ _ _ hlife).resolve_left (Ne.symm hne)
    exact ⟨not_not.2 hfirst, fun h => hne (hfirst.trans h.symm)⟩
  · intro e hchange
    obtain ⟨v, -, hv, -⟩ := ChainEvent.changes_eq_true hchange
    exact ⟨v, hv⟩
  · intro epoch v v' hlife hne
    exact fun h => hne ((hf _ _ _ hlife).resolve_left fun heq => hne (heq ▸ h))

theorem Runs.raises_once [Crypto] (h : Runs s events s') (k : Nat) :
    events.countP (·.raises k) ≤ 1 := by
  refine h.once (k := k) (P := fun v => v.slashed = true) ?_ ?_ fun _ _ _ hlife => hlife.slashed
  · intro e v v' hraises hv hv' hlife
    obtain ⟨hexit, hchange⟩ := Bool.and_eq_true_iff.1 hraises
    obtain ⟨v₁, v₁', hv₁, hv₁', hne⟩ := ChainEvent.changes_eq_true hchange
    obtain rfl := Option.some.inj (hv.symm.trans hv₁)
    obtain rfl := Option.some.inj (hv'.symm.trans hv₁')
    rw [hv] at hexit
    have hexit : v.exitEpoch ≠ farFutureEpoch := by simpa using hexit
    rcases hlife.withdrawable with heq | ⟨hfar, -⟩ | ⟨-, hunslashed, hslashed, -⟩
    · exact absurd heq.symm hne
    · exact absurd hfar hexit
    · exact ⟨by simp [hunslashed], hslashed⟩
  · intro e hraises
    obtain ⟨v, -, hv, -⟩ := ChainEvent.changes_eq_true (Bool.and_eq_true_iff.1 hraises).2
    exact ⟨v, hv⟩

end

/-- Every registered validator has its epochs in order. -/
def Registry.Ordered (r : Registry) : Prop :=
  ∀ (k : Nat) (v : Validator), r.validators[k]? = some v → v.Ordered

theorem RegistryMove.ordered {p : Phase} {r r' : Registry} (h : RegistryMove p r r')
    (hr : r.Ordered) : r'.Ordered := by
  intro k v' hv'
  rcases h.validator_origin hv' with ⟨v, hv, hmove⟩ | hentered
  · exact hmove.lifecycle.ordered (hr k v hv)
  · refine ⟨?_, ?_⟩
    · rw [hentered.activationEpoch, hentered.exitEpoch]
    · rw [hentered.exitEpoch, hentered.withdrawableEpoch]

/-- The lifecycle of a validator along a run from a state with all epochs in order. Every step
follows the law; the activation epoch and the exit epoch each change at most once, the
withdrawable epoch at most once after the exit, and a validator is slashed at most once; and the
epochs of every validator stay in order. -/
theorem validator_lifecycle [Crypto] {s s' : BeaconState} {events : List ChainEvent}
    (hrun : Runs s events s') (hordered : ∀ v ∈ s.validators.toList, v.Ordered) (k : Nat) :
    (∀ e ∈ events, ∀ v, e.before.validators.get? k = some v →
      ∃ v', e.after.validators.get? k = some v' ∧ Lifecycle e.before.slot.epoch v v') ∧
    events.countP (·.changes Validator.activationEpoch k) ≤ 1 ∧
    events.countP (·.changes Validator.exitEpoch k) ≤ 1 ∧
    events.countP (·.raises k) ≤ 1 ∧
    events.countP (·.changes Validator.slashed k) ≤ 1 ∧
    ∀ b ∈ statesOf s events, ∀ v ∈ b.validators.toList, v.Ordered := by
  refine ⟨fun e he v hv => (hrun.accepted he).lifecycle hv, ?_, ?_, hrun.raises_once k, ?_, ?_⟩
  · exact hrun.changes_once k farFutureEpoch fun _ _ _ h => h.activation.imp_right And.left
  · exact hrun.changes_once k farFutureEpoch fun _ _ _ h => h.exit.imp_right And.left
  · refine hrun.changes_once k false fun _ v v' h => ?_
    cases hslashed : v.slashed with
    | true => exact .inl (h.slashed hslashed)
    | false => exact .inr rfl
  · intro b hb v hv
    obtain ⟨es, hes⟩ := hrun.reaches hb
    have hstart : s.registry.Ordered := fun k v hv => hordered v (List.mem_of_getElem? hv)
    obtain ⟨k, hk⟩ := List.mem_iff_getElem?.1 hv
    exact hes.registry_inv (P := Registry.Ordered) RegistryMove.ordered (fun _ h => h) hstart k v hk

end Moonglass

namespace Moonglass.Devnet

theorem market_ordered : ∀ v ∈ market.validators.toList, v.Ordered := by
  intro v hmem
  obtain rfl : v = validator 32000000000 := by
    rcases List.mem_cons.1 hmem with rfl | hmem
    · rfl
    · exact List.eq_of_mem_replicate hmem
  exact ⟨by decide, by decide⟩

/-- The proposer of slot 25 reports itself: its exit and its slashing are the only changes, and
each is counted once. -/
theorem validator_lifecycle_slashedBlock : ∃ events s', Runs market events s' ∧
    events.map (·.block) = [none, some slashedBlock] ∧
    (∀ v ∈ market.validators.toList, v.Ordered) ∧
    events.countP (·.changes Validator.slashed 0) = 1 ∧
    events.countP (·.changes Validator.exitEpoch 0) = 1 ∧
    events.countP (·.changes Validator.activationEpoch 0) ≤ 1 ∧
    ∀ b ∈ statesOf market events, ∀ v ∈ b.validators.toList, v.Ordered := by
  have hcheck : followCheck (fun events _ =>
      events.countP (·.changes Validator.slashed 0) = 1 ∧
      events.countP (·.changes Validator.exitEpoch 0) = 1) market
      [none, some slashedBlock] = true := by decide +kernel
  obtain ⟨events, s', hruns, hblocks, hslashed, hexit⟩ := followCheck_runs hcheck
  obtain ⟨-, hactivation, -, -, -, hordered⟩ := validator_lifecycle hruns market_ordered 0
  exact ⟨events, s', hruns, hblocks, market_ordered, hslashed, hexit, hactivation, hordered⟩

end Moonglass.Devnet
