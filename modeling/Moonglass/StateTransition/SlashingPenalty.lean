import Moonglass.StateTransition.SlashingLedger

/-
  The proportional slashing penalty. An epoch charges the slashed validators whose withdrawable
  epoch lies half a turn of the slashings vector ahead. A slashed validator's withdrawable epoch
  does not move any more, so it is charged when the chain passes one epoch, and only then.
-/

namespace Moonglass

open Lib Word

variable [Preset]
variable {p : Phase} {r r' : Registry} {k epoch : Nat} {t : BeaconState} {v : Validator}

/-! ## The charge -/

/-- The penalty that `processSlashings` computes for a validator, from the sum of the slashings
vector and the total active balance. -/
def proportionalPenalty (sumSlashings total : Nat) (v : Validator) : Nat :=
  min (sumSlashings * proportionalSlashingMultiplier) total / (total / effectiveBalanceIncrement) *
    (v.effectiveBalance.val / effectiveBalanceIncrement)

omit [Preset] in
/-- With a total of whole increments the penalty is at most the effective balance. -/
theorem proportionalPenalty_le {sumSlashings total : Nat} (v : Validator)
    (htotal : effectiveBalanceIncrement ∣ total) :
    proportionalPenalty sumSlashings total v ≤ v.effectiveBalance.val := by
  obtain ⟨increments, rfl⟩ := htotal
  unfold proportionalPenalty
  rw [Nat.mul_div_cancel_left increments (by decide : 0 < effectiveBalanceIncrement)]
  have hper : min (sumSlashings * proportionalSlashingMultiplier)
      (effectiveBalanceIncrement * increments) / increments ≤ effectiveBalanceIncrement := by
    refine Nat.div_le_of_le_mul ?_
    rw [Nat.mul_comm increments]
    exact Nat.min_le_right _ _
  exact (Nat.mul_le_mul_right _ hper).trans (Nat.mul_div_le _ _)

namespace BeaconState

variable {s : BeaconState}

/-- Is the validator charged at the end of the state's epoch? -/
def charges (s : BeaconState) (v : Validator) : Bool :=
  v.slashed && s.slot.epoch.val + epochsPerSlashingsVector / 2 == v.withdrawableEpoch.val

theorem updateBalance_balances (index : ValidatorIndex) {f : Gwei → Transition Gwei}
    {g : Gwei → Gwei} (hf : ∀ b, Ensures (f b) (· = g b)) :
    Ensures (s.updateBalance index f) fun s' =>
      ∀ k, s'.balances.get? k =
        if index.val = k then (s.balances.get? k).map g else s.balances.get? k := by
  unfold updateBalance
  refine .skip fun _ => .lookup fun current hcurrent => ?_
  refine .bind (hf current) fun next hnext => .pure fun k => ?_
  show (s.balances.set index.val next).get? k = _
  rw [BoundedList.get?_set, hnext]
  by_cases hk : index.val = k
  · rw [if_pos hk, if_pos hk, ← hk, hcurrent]
    rfl
  · rw [if_neg hk, if_neg hk]

omit [Preset] in
/-- A loop whose step for the `i`-th value changes the `i`-th place only changes each place by its
own value. -/
theorem foldlM_zipIdx_places {α β σ ε : Type} (read : σ → Nat → Option β)
    {f : σ → α × Nat → Except ε σ} {g : α → β → β} {m : Nat}
    (step : ∀ s a i, i < m → Ensures (f s (a, i)) fun s' =>
      ∀ j, read s' j = if i = j then (read s j).map (g a) else read s j)
    (l : List α) (n : Nat) (hn : n + l.length ≤ m) (s : σ) :
    Ensures ((l.zipIdx n).foldlM f s) fun s' => ∀ j, read s' j =
      (read s j).map fun b => (if n ≤ j then l[j - n]? else none).elim b (g · b) := by
  induction l generalizing n s with
  | nil => exact .pure fun j => by simp
  | cons a l ih =>
    rw [List.length_cons] at hn
    rw [List.zipIdx_cons, List.foldlM_cons]
    refine .bind (step s a n (by omega)) fun s₁ h₁ => ?_
    refine (ih (n + 1) (by omega) s₁).imp fun s' h' j => ?_
    rw [h' j, h₁ j]
    rcases Nat.lt_trichotomy n j with hlt | rfl | hgt
    · have hplace : j - n = j - (n + 1) + 1 := by omega
      rw [if_neg hlt.ne, if_pos (show n + 1 ≤ j from hlt), if_pos hlt.le, hplace,
        List.getElem?_cons_succ]
    · rw [if_pos rfl, if_neg (Nat.not_succ_le_self n), if_pos le_rfl, Nat.sub_self,
        List.getElem?_cons_zero, Option.map_map]
      rfl
    · rw [if_neg hgt.ne', if_neg (by omega), if_neg (by omega)]

/-- What `processSlashings` charges, validator by validator. -/
theorem processSlashings_balances : Ensures s.processSlashings fun s' =>
    ∃ total, s.getTotalActiveBalance = .ok total ∧
      ∀ k v, s.validators.get? k = some v → s'.balances.get? k =
        (s.balances.get? k).map fun balance =>
          if s.charges v then
            balance.satSub (proportionalPenalty (tally (·.val) s.slashings.toList) total.val v)
          else balance := by
  unfold processSlashings
  refine .step fun total htotal => ?_
  refine .bind (fun _ h => checkedSum_eq_ok h) fun sumSlashings hsum => ?_
  refine .found checkedMul_eq_some.1 fun scaled hscaled => ?_
  refine .found checkedAdd_eq_some.1 fun slashEpoch hepoch => ?_
  have hadjusted : (min scaled total).val =
      min (tally (·.val) s.slashings.toList * proportionalSlashingMultiplier) total.val := by
    rw [tally, ← hsum, ← hscaled]
    exact Fin.val_strictMono.monotone.map_min
  have hlimit : 0 + s.validators.toList.length ≤ 2 ^ 64 := by
    have hle : s.validators.toList.length ≤ 2 ^ 40 := s.validators.length_le
    omega
  refine (foldlM_zipIdx_places (fun (s : BeaconState) k => s.balances.get? k)
    (g := fun (v : Validator) (balance : Gwei) => if s.charges v then
      balance.satSub (proportionalPenalty (tally (·.val) s.slashings.toList) total.val v)
      else balance) ?_ _ 0 hlimit s).imp fun s' h => ⟨total, htotal, fun k v hv => ?_⟩
  · intro s₁ v i hi
    have hdue : (v.slashed && slashEpoch == v.withdrawableEpoch) = s.charges v := by
      unfold charges
      rw [← hepoch]
      congr 1
      exact decide_eq_decide.2 Fin.ext_iff
    have hindex : (Word.wrap i : ValidatorIndex).val = i := Nat.mod_eq_of_lt hi
    simp only [hdue]
    refine .dite (fun hcharged => ?_) fun hnot => .pure fun j => ?_
    · refine .found checkedMul_eq_some.1 fun penalty hpenalty => ?_
      have hamount : penalty.val =
          proportionalPenalty (tally (·.val) s.slashings.toList) total.val v := by
        rw [hpenalty]
        unfold proportionalPenalty
        rw [← hadjusted]
        rfl
      refine (updateBalance_balances _ fun _ => .pure rfl).imp fun s₂ h₂ j => ?_
      rw [h₂ j, hindex, hamount]
      simp only [hcharged, if_true]
    · simp only [hnot, Bool.false_eq_true, if_false, Option.map_id']
      split <;> rfl
  · have hv : s.validators.toList[k]? = some v := hv
    rw [h k, if_pos (Nat.zero_le k), Nat.sub_zero, hv]
    rfl

/-- The total active balance is made of whole increments when the effective balances are. -/
theorem getTotalActiveBalance_dvd
    (h : ∀ v ∈ s.validators.toList, effectiveBalanceIncrement ∣ v.effectiveBalance.val) :
    Ensures s.getTotalActiveBalance fun total => effectiveBalanceIncrement ∣ total.val := by
  unfold getTotalActiveBalance getTotalBalance
  refine .bind (Ensures.foldlM (P := fun total : Gwei => effectiveBalanceIncrement ∣ total.val)
    (fun index total htotal => ?_) (Nat.dvd_zero _)) fun total htotal => .pure ?_
  · refine .lookup fun v hv => ?_
    intro total' htotal'
    rw [checkedAdd_eq_some.1 (okOr_eq_ok.1 htotal')]
    exact Nat.dvd_add htotal (h v (List.mem_of_getElem? hv))
  · rcases max_choice total (Word.wrap effectiveBalanceIncrement : Gwei) with hmax | hmax
    · rwa [hmax]
    · rw [hmax]
      exact Nat.dvd_refl effectiveBalanceIncrement

end BeaconState

/-! ## Invariants of a slashed validator -/

/-- All effective balances are made of whole increments. -/
def Registry.Increments (r : Registry) : Prop :=
  ∀ (k : Nat) v, r.validators[k]? = some v → effectiveBalanceIncrement ∣ v.effectiveBalance.val

theorem RegistryMove.increments (move : RegistryMove p r r') (h : r.Increments) :
    r'.Increments := by
  intro k v' hv'
  rcases move.validator_origin hv' with ⟨v, hv, hmove⟩ | hentered
  · have hbefore := h k v hv
    cases hmove with
    | revise hrevised =>
      obtain ⟨_, _, rfl⟩ := hrevised
      exact hbefore
    | rebalance hrebalanced =>
      obtain ⟨balance, rfl, rfl | hdvd⟩ := hrebalanced
      · exact hbefore
      · exact hdvd
    | keep | exit | slash | activate => exact hbefore
  · exact hentered.effectiveBalance

/-- A slashed validator has its exit. -/
def Registry.SlashedLeft (r : Registry) : Prop :=
  ∀ (k : Nat) v, r.validators[k]? = some v → v.slashed = true → v.exitEpoch ≠ farFutureEpoch

theorem RegistryMove.slashedLeft (move : RegistryMove p r r') (h : r.SlashedLeft) :
    r'.SlashedLeft := by
  intro k v' hv' hslashed
  rcases move.validator_origin hv' with ⟨v, hv, hmove⟩ | hentered
  · cases hmove with
    | slash _ hexit => exact hexit
    | exit _ hat => exact hat.ne_farFuture
    | revise hrevised =>
      obtain ⟨_, _, rfl⟩ := hrevised
      exact h k v hv hslashed
    | rebalance hrebalanced =>
      obtain ⟨_, rfl, -⟩ := hrebalanced
      exact h k v hv hslashed
    | keep => exact h k v' hv hslashed
    | activate => exact h k v hv hslashed
  · rw [hentered.slashed] at hslashed
    cases hslashed

/-- The validator at `k` is slashed, with a withdrawable epoch that is there to stay. -/
def Registry.SlashedUntil (k : Nat) (withdrawable : Epoch) (r : Registry) : Prop :=
  ∃ v, r.validators[k]? = some v ∧ v.slashed = true ∧ v.exitEpoch ≠ farFutureEpoch ∧
    v.withdrawableEpoch = withdrawable

theorem RegistryMove.slashedUntil (move : RegistryMove p r r') {withdrawable : Epoch}
    (h : r.SlashedUntil k withdrawable) : r'.SlashedUntil k withdrawable := by
  obtain ⟨v, hv, hslashed, hexit, hw⟩ := h
  obtain ⟨v', hv', hmove⟩ := move.validator hv
  have hlife := hmove.lifecycle
  refine ⟨v', hv', hlife.slashed hslashed, hlife.exit_ne hexit, ?_⟩
  rcases hlife.withdrawable with heq | ⟨hfar, -⟩ | ⟨-, hunslashed, -⟩
  · exact heq.trans hw
  · exact absurd hfar hexit
  · rw [hslashed] at hunslashed
    cases hunslashed

variable [Crypto]

/-- The validator at `k`, once slashed, stays for a turn of the slashings vector from `epoch`. -/
structure Registry.SlashedFrom (k epoch : Nat) (r : Registry) : Prop where
  epoch_le : epoch ≤ r.slot.epoch.val
  withdrawable_ge : ∀ v, r.validators[k]? = some v → v.slashed = true →
    epoch + epochsPerSlashingsVector ≤ v.withdrawableEpoch.val

omit [Crypto] in
theorem RegistryMove.slashedFrom (move : RegistryMove p r r') (h : r.SlashedFrom k epoch)
    (hleft : r.SlashedLeft) :
    r'.SlashedFrom k epoch where
  epoch_le := move.slot_eq ▸ h.epoch_le
  withdrawable_ge := by
    intro v' hv' hslashed
    rcases move.validator_origin hv' with ⟨v, hv, hmove⟩ | hentered
    · cases hbefore : v.slashed with
      | true =>
        exact (h.withdrawable_ge v hv hbefore).trans
          (Fin.le_def.1 (hmove.lifecycle.withdrawable_le (hleft k v hv hbefore)))
      | false =>
        -- only a slashing sets the flag, and it extends the withdrawable epoch
        cases hmove with
        | @slash extended _ _ hextended =>
          have hle := Fin.le_def.1 (le_max_right v.withdrawableEpoch extended)
          have := h.epoch_le
          show _ ≤ (max v.withdrawableEpoch extended).val
          omega
        | revise hrevised =>
          obtain ⟨_, _, rfl⟩ := hrevised
          exact absurd hslashed (by simp [hbefore])
        | rebalance hrebalanced =>
          obtain ⟨_, rfl, -⟩ := hrebalanced
          exact absurd hslashed (by simp [hbefore])
        | keep | exit | activate => exact absurd hslashed (by simp [hbefore])
    · rw [hentered.slashed] at hslashed
      cases hslashed

/-! ## The epochs a run passes -/

namespace ChainEvent

/-- Does the step end the epoch? -/
def passes (epoch : Nat) (e : ChainEvent) : Bool :=
  e.before.slot.epoch.val == epoch && e.after.slot.epoch.val == epoch + 1

/-- The state on which the step computes its slashing penalties, if it ends an epoch. -/
def slashingState (e : ChainEvent) : Option BeaconState :=
  if e.block.isNone && e.after.slot.val % slotsPerEpoch == 0 then
    (e.before.processSlot >>= BeaconState.beforeSlashings).toOption
  else none

/-- Does the step charge the validator at `k` the proportional penalty? -/
def charges (k : Nat) (e : ChainEvent) : Bool :=
  e.slashingState.any fun t => (t.validators.get? k).any t.charges

end ChainEvent

variable {e : ChainEvent}

theorem ChainEvent.Accepted.epoch_eq (h : e.Accepted) :
    e.after.slot.epoch.val = e.before.slot.epoch.val ∨
      e.after.slot.epoch.val = e.before.slot.epoch.val + 1 := by
  rcases h.slashings_cases with hblock | ⟨r, -, -, ⟨hsame, -⟩ | ⟨hnext, -⟩⟩
  · exact .inl (congrArg (fun slot : Slot => slot.epoch.val) hblock.slot)
  · exact .inl hsame
  · exact .inr hnext

/-- A run passes each epoch from its first to its last once. -/
theorem Runs.countP_passes {s s' : BeaconState} {events : List ChainEvent} (h : Runs s events s')
    (epoch : Nat) : events.countP (·.passes epoch) =
      if s.slot.epoch.val ≤ epoch ∧ epoch < s'.slot.epoch.val then 1 else 0 := by
  induction h with
  | nil s => rw [if_neg (by omega), List.countP_nil]
  | @cons e es s' head tail ih =>
    have hlater := tail.epoch_le
    have hepoch := head.epoch_eq
    rw [List.countP_cons, ih]
    simp only [ChainEvent.passes, Bool.and_eq_true, beq_iff_eq]
    split <;> split <;> split <;> omega

/-! ## Where the penalties are charged -/

/-- The state of a step's slashing penalties, with what leads to it and what it leads to. -/
structure ChainEvent.Penalises (e : ChainEvent) (t : BeaconState) : Prop where
  next : e.after.slot.epoch.val = e.before.slot.epoch.val + 1
  moves : ∃ filed : BeaconState, filed.registry = e.before.registry ∧ filed.Moves .epoch t
  charged : ∃ t', t.processSlashings = .ok t'

omit [Crypto] in
theorem ChainEvent.Penalises.epoch_eq (h : e.Penalises t) : t.slot.epoch = e.before.slot.epoch := by
  obtain ⟨filed, hfiled, hmoves⟩ := h.moves
  exact congrArg Slot.epoch (hmoves.slot.trans (congrArg Registry.slot hfiled))

omit [Crypto] in
/-- What every move keeps holds where the penalties are charged. -/
theorem ChainEvent.Penalises.inv {P : Registry → Prop} (h : e.Penalises t)
    (step : ∀ {p r r'}, RegistryMove p r r' → P r → P r') (hbefore : P e.before.registry) :
    P t.registry := by
  obtain ⟨filed, hfiled, hmoves⟩ := h.moves
  exact hmoves.inv step (hfiled ▸ hbefore)

namespace ChainEvent.Accepted

variable {e : ChainEvent}

theorem penalises (h : e.Accepted) (ht : e.slashingState = some t) : e.Penalises t := by
  obtain ⟨s, block, s'⟩ := e
  unfold slashingState at ht
  split at ht
  · rename_i hends
    obtain ⟨hnone, hboundary⟩ := Bool.and_eq_true_iff.1 hends
    obtain rfl := Option.isNone_iff_eq_none.1 hnone
    obtain ⟨hslot, ⟨hinner, -⟩ | ⟨hboundary, filed, next, hfiled, hregistry, hepoch, -⟩⟩ :=
      BeaconState.advanceSlot_registry h
    · exact absurd (beq_iff_eq.1 hboundary) hinner
    · obtain ⟨hmoves⟩ := BeaconState.processEpoch_registryMoves hepoch
      have hstate : (s.processSlot >>= BeaconState.beforeSlashings) = .ok hmoves.charged := by
        rw [hfiled, ok_bind, hmoves.before_eq]
      rw [hstate] at ht
      obtain rfl := Option.some.inj ht
      exact ⟨BeaconState.epoch_of_boundary hslot hboundary, ⟨filed, hregistry, hmoves.before⟩,
        hmoves.punished, hmoves.slashings_eq⟩
  · cases ht

/-- A step that ends an epoch slashes no one. -/
theorem slashings_eq_nil (h : e.Accepted)
    (hnext : e.after.slot.epoch.val = e.before.slot.epoch.val + 1) : e.slashings = [] := by
  rcases h.slashings_cases with hblock | ⟨r, hkeeps, hafter, -⟩
  · have hslot : e.after.slot = e.before.slot := hblock.slot
    rw [hslot] at hnext
    omega
  · exact hkeeps.slashings_eq_nil (congrArg Registry.validators hafter)

/-- A step that ends an epoch charges its penalties. -/
theorem exists_slashingState (h : e.Accepted)
    (hnext : e.after.slot.epoch.val = e.before.slot.epoch.val + 1) :
    ∃ t, e.slashingState = some t := by
  obtain ⟨s, block, s'⟩ := e
  cases block with
  | some block =>
    have hslot : s'.slot = s.slot := (BeaconState.processBlock_registryMoves h).slot
    have hsame : s'.slot.epoch.val = s.slot.epoch.val := by rw [hslot]
    have hnext : s'.slot.epoch.val = s.slot.epoch.val + 1 := hnext
    omega
  | none =>
    obtain ⟨hslot, ⟨hinner, -⟩ | ⟨hboundary, filed, next, hfiled, -, hepoch, -⟩⟩ :=
      BeaconState.advanceSlot_registry h
    · have hsame := BeaconState.epoch_of_inner hslot hinner
      have hnext : s'.slot.epoch.val = s.slot.epoch.val + 1 := hnext
      omega
    · obtain ⟨hmoves⟩ := BeaconState.processEpoch_registryMoves hepoch
      refine ⟨hmoves.charged, ?_⟩
      unfold slashingState
      rw [if_pos (by simp [hboundary])]
      show (s.processSlot >>= BeaconState.beforeSlashings).toOption = _
      rw [hfiled, ok_bind, hmoves.before_eq]
      rfl

end ChainEvent.Accepted

section

variable {s s' : BeaconState} {events : List ChainEvent}

theorem Runs.slashedLeft (h : Runs s events s')
    (hnone : ∀ v ∈ s.validators.toList, v.slashed = false) : s'.registry.SlashedLeft := by
  refine h.registry_inv RegistryMove.slashedLeft (fun _ h => h) fun k v hv hslashed => ?_
  rw [hnone v (List.mem_of_getElem? hv)] at hslashed
  cases hslashed

/-- A validator that a run slashes is withdrawable a turn of the vector after the run's start. -/
theorem Runs.withdrawable_ge (h : Runs s events s') (hleft : s.registry.SlashedLeft)
    (hunslashed : ¬s.HasAt k (·.slashed = true)) (hv : s'.validators.get? k = some v)
    (hslashed : v.slashed = true) :
    s.slot.epoch.val + epochsPerSlashingsVector ≤ v.withdrawableEpoch.val := by
  have hstart : s.registry.SlashedFrom k s.slot.epoch.val ∧ s.registry.SlashedLeft :=
    ⟨⟨le_rfl, fun w hw hs => absurd ⟨w, hw, hs⟩ hunslashed⟩, hleft⟩
  have hend := h.registry_inv
    (P := fun r => r.SlashedFrom k s.slot.epoch.val ∧ r.SlashedLeft)
    (fun move ⟨hfrom, hleft⟩ => ⟨move.slashedFrom hfrom hleft, move.slashedLeft hleft⟩)
    (fun hle ⟨hfrom, hleft⟩ =>
      ⟨⟨hfrom.epoch_le.trans (Nat.div_le_div_right hle), hfrom.withdrawable_ge⟩, hleft⟩) hstart
  exact hend.1.withdrawable_ge v hv hslashed

/-- The steps that charge a slashed validator are those that pass the epoch half a turn of the
vector before its withdrawable epoch. -/
theorem Runs.charges_iff (h : Runs s events s')
    (hnone : ∀ v ∈ s.validators.toList, v.slashed = false) (hv : s'.validators.get? k = some v)
    (hslashed : v.slashed = true)
    (hepoch : epoch + epochsPerSlashingsVector / 2 = v.withdrawableEpoch.val)
    (he : e ∈ events) : e.charges k = e.passes epoch := by
  obtain ⟨pre, post, hpre, haccepted, hpost⟩ := h.around he
  have hleft := hpre.slashedLeft hnone
  -- from the step on, a validator slashed before it keeps the withdrawable epoch of the end
  have hstays : ∀ v₀, e.before.validators.get? k = some v₀ → v₀.slashed = true →
      e.before.registry.SlashedUntil k v.withdrawableEpoch := by
    intro v₀ hv₀ hslashed₀
    have hbefore : e.before.registry.SlashedUntil k v₀.withdrawableEpoch :=
      ⟨v₀, hv₀, hslashed₀, hleft k v₀ hv₀ hslashed₀, rfl⟩
    have hrest : Runs e.before (e :: post) s' := .cons haccepted hpost
    obtain ⟨v', hv', -, -, hw⟩ := hrest.registry_inv
      (fun move => move.slashedUntil) (fun _ h => h) hbefore
    obtain rfl := Option.some.inj (hv'.symm.trans hv)
    exact hw ▸ hbefore
  have hcharged : ∀ t, e.Penalises t → e.before.registry.SlashedUntil k v.withdrawableEpoch →
      ∃ v₁, t.validators.get? k = some v₁ ∧ v₁.slashed = true ∧
        v₁.withdrawableEpoch = v.withdrawableEpoch := by
    intro t ht hbefore
    obtain ⟨v₁, hv₁, hslashed₁, -, hw₁⟩ := ht.inv (fun move => move.slashedUntil) hbefore
    exact ⟨v₁, hv₁, hslashed₁, hw₁⟩
  unfold ChainEvent.charges ChainEvent.passes
  rw [Bool.eq_iff_iff, Option.any_eq_true, Bool.and_eq_true, beq_iff_eq, beq_iff_eq]
  constructor
  · -- a validator that is charged was slashed before the step
    rintro ⟨t, ht, hany⟩
    obtain ⟨v₁, hv₁, hdue⟩ := (Option.any_eq_true _ _).1 hany
    obtain ⟨hslashed₁, hdue⟩ := Bool.and_eq_true_iff.1 hdue
    have hpenalises := haccepted.penalises ht
    obtain ⟨filed, hfiled, hmoves⟩ := hpenalises.moves
    obtain ⟨v₀, hv₀, hslashed₀⟩ := (hmoves.keepsSlashings nofun).origin k v₁ hv₁ hslashed₁
    rw [hfiled] at hv₀
    obtain ⟨v₂, hv₂, -, hw⟩ := hcharged t hpenalises (hstays v₀ hv₀ hslashed₀)
    obtain rfl := Option.some.inj (hv₁.symm.trans hv₂)
    have hdue := beq_iff_eq.1 hdue
    have hnext := hpenalises.next
    rw [hpenalises.epoch_eq, hw] at hdue
    omega
  · rintro ⟨hbefore, hafter⟩
    obtain ⟨t, ht⟩ := haccepted.exists_slashingState (by omega)
    have hpenalises := haccepted.penalises ht
    -- a slashing after the step would extend the withdrawable epoch too far
    have hslashedAfter : e.after.HasAt k (·.slashed = true) := by
      by_contra hunslashed
      have hge := hpost.withdrawable_ge ((hpre.append (.cons haccepted (.nil _))).slashedLeft hnone)
        hunslashed hv hslashed
      omega
    obtain ⟨v₀, hv₀, hslashed₀⟩ : e.before.HasAt k (·.slashed = true) := by
      refine ((haccepted.slashed_iff k).1 hslashedAfter).resolve_right fun ⟨x, hx, _⟩ => ?_
      rw [haccepted.slashings_eq_nil hpenalises.next] at hx
      cases hx
    obtain ⟨v₁, hv₁, hslashed₁, hw₁⟩ := hcharged t hpenalises (hstays v₀ hv₀ hslashed₀)
    refine ⟨t, ht, (Option.any_eq_true _ _).2 ⟨v₁, hv₁, ?_⟩⟩
    unfold BeaconState.charges
    rw [hslashed₁, hpenalises.epoch_eq, hw₁, hbefore, hepoch]
    simp

/-- A slashed validator is charged once in a run that reaches its withdrawable epoch. -/
theorem Runs.countP_charges (h : Runs s events s')
    (hnone : ∀ v ∈ s.validators.toList, v.slashed = false) (hv : s'.validators.get? k = some v)
    (hslashed : v.slashed = true) (hreached : v.withdrawableEpoch ≤ s'.slot.epoch) :
    events.countP (·.charges k) = 1 := by
  have hunslashed : ¬s.HasAt k (·.slashed = true) := by
    rintro ⟨v₀, hv₀, hslashed₀⟩
    rw [hnone v₀ (List.mem_of_getElem? hv₀)] at hslashed₀
    cases hslashed₀
  have hge := h.withdrawable_ge ((Runs.nil s).slashedLeft hnone) hunslashed hv hslashed
  have hhalf : 0 < epochsPerSlashingsVector / 2 := by
    rcases pick_cases 8192 64 with h | h <;> unfold epochsPerSlashingsVector <;> omega
  have hreached := Fin.le_def.1 hreached
  have hsame := List.countP_congr fun e he => Bool.eq_iff_iff.1 (h.charges_iff hnone hv hslashed
    (Nat.sub_add_cancel (by omega : epochsPerSlashingsVector / 2 ≤ v.withdrawableEpoch.val)) he)
  rw [hsame, h.countP_passes, if_pos (by omega)]

end

/-! ## The ledger and its penalties -/

/-- From a state without slashings, and with effective balances of whole increments: the slashings
vector sums to the effective balances, at their slashing, of the validators slashed in the last
turn of the vector; a validator is in the ledger, once, if and only if it is slashed; a slashed
validator is charged in one epoch of a run that reaches its withdrawable epoch; and the charge is
the proportional penalty, at most its effective balance. -/
theorem slashing_ledger {s s' : BeaconState} {events : List ChainEvent} (hrun : Runs s events s')
    (hnone : ∀ v ∈ s.validators.toList, v.slashed = false)
    (hzero : ∀ amount ∈ s.slashings.toList, amount = 0)
    (hincrements : ∀ v ∈ s.validators.toList,
      effectiveBalanceIncrement ∣ v.effectiveBalance.val) :
    tally (·.val) s'.slashings.toList = tally (·.amount.val) ((slashingLedger events).filter
      fun x => s'.slot.epoch.val < x.epoch.val + epochsPerSlashingsVector) ∧
    ((slashingLedger events).map (·.validator)).Nodup ∧
    (∀ k, s'.HasAt k (·.slashed = true) ↔ ∃ x ∈ slashingLedger events, x.validator = k) ∧
    (∀ k v, s'.validators.get? k = some v → v.slashed = true →
      v.withdrawableEpoch ≤ s'.slot.epoch → events.countP (·.charges k) = 1) ∧
    ∀ e ∈ events, ∀ t, e.slashingState = some t → ∃ t' total, t.processSlashings = .ok t' ∧
      t.getTotalActiveBalance = .ok total ∧
      ∀ k v, t.validators.get? k = some v →
        t'.balances.get? k = ((t.balances.get? k).map fun balance =>
          if t.charges v then
            balance.satSub (proportionalPenalty (tally (·.val) t.slashings.toList) total.val v)
          else balance) ∧
        proportionalPenalty (tally (·.val) t.slashings.toList) total.val v ≤
          v.effectiveBalance.val := by
  have hstart : s.Recorded [] := Tallies.start fun t =>
    congrArg Fin.val (hzero _ (Vector.mem_toList_iff.2 (Vector.getElem_mem _)))
  have hledger := hrun.recorded hstart
  refine ⟨hledger.total, hrun.ledger_nodup.1, fun k => ?_, fun k v hv hslashed hreached =>
    hrun.countP_charges hnone hv hslashed hreached, fun e he t ht => ?_⟩
  · rw [hrun.slashed_iff]
    refine or_iff_right ?_
    rintro ⟨v, hv, hslashed⟩
    rw [hnone v (List.mem_of_getElem? hv)] at hslashed
    cases hslashed
  · obtain ⟨pre, post, hpre, haccepted, -⟩ := hrun.around he
    have hpenalises := haccepted.penalises ht
    obtain ⟨t', ht'⟩ := hpenalises.charged
    obtain ⟨total, htotal, hbalances⟩ := BeaconState.processSlashings_balances t' ht'
    have hwhole : s.registry.Increments := fun k v hv => hincrements v (List.mem_of_getElem? hv)
    have hthere : t.registry.Increments := hpenalises.inv RegistryMove.increments
      (hpre.registry_inv RegistryMove.increments (fun _ h => h) hwhole)
    have hdvd := BeaconState.getTotalActiveBalance_dvd (fun v hv => by
      obtain ⟨k, hk⟩ := List.mem_iff_getElem?.1 hv
      exact hthere k v hk) total htotal
    exact ⟨t', total, ht', htotal, fun k v hv =>
      ⟨hbalances k v hv, proportionalPenalty_le v hdvd⟩⟩

end Moonglass

namespace Moonglass.Devnet

open Lib

/-- The slashing of one validator of the market is the one entry of its ledger, and the vector
sums to its effective balance. -/
theorem slashing_ledger_slashedBlock : ∃ events s', Runs market events s' ∧
    events.map (·.block) = [none, some slashedBlock] ∧
    (slashingLedger events).map (·.validator) = [0] ∧
    s'.HasAt 0 (·.slashed = true) ∧
    tally (·.val) s'.slashings.toList = 32000000000 := by
  have hcheck : followCheck (fun events s' =>
      (slashingLedger events).map (·.validator) = [0] ∧
      tally (·.amount.val) ((slashingLedger events).filter fun x =>
        s'.slot.epoch.val < x.epoch.val + epochsPerSlashingsVector) = 32000000000) market
      [none, some slashedBlock] = true := by decide +kernel
  obtain ⟨events, s', hruns, hblocks, hledger, hsum⟩ := followCheck_runs hcheck
  have hvalidators : ∀ v ∈ market.validators.toList, v = validator 32000000000 := by
    intro v hmem
    rcases List.mem_cons.1 hmem with rfl | hmem
    · rfl
    · exact List.eq_of_mem_replicate hmem
  have hzero : ∀ amount ∈ market.slashings.toList, amount = 0 := fun amount hmem =>
    (Vector.mem_replicate.1 (Vector.mem_toList_iff.1 hmem)).2
  obtain ⟨htotal, -, hslashed, -⟩ := slashing_ledger hruns
    (fun v hv => hvalidators v hv ▸ rfl) hzero
    (fun v hv => by rw [hvalidators v hv]; decide)
  have hmem : (0 : Nat) ∈ (slashingLedger events).map (·.validator) := by
    rw [hledger]
    exact List.mem_singleton_self 0
  exact ⟨events, s', hruns, hblocks, hledger, (hslashed 0).2 (List.mem_map.1 hmem),
    htotal.trans hsum⟩

end Moonglass.Devnet
