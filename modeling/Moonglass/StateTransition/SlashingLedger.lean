import Moonglass.Lib.RingLedger
import Moonglass.StateTransition.Lifecycle

/-
  The slashings vector as a ledger. A slashing adds the validator's effective balance to the bucket
  of the current epoch, and an epoch ends with the bucket of the next one cleared; so the vector
  sums to the effective balances of the validators slashed in the last epochs it has room for.

  The ledger itself is read off a run: the validators that become slashed in each of its steps,
  with the effective balances they have there.
-/

namespace Moonglass

open Lib

variable [Preset]

/-! ## The ledger of a run -/

structure SlashingRecord where
  epoch : Epoch
  validator : Nat
  amount : Gwei

/-- The record of a validator that is slashed between two states. -/
def slashingRecord (epoch : Epoch) : (Validator × Validator) × Nat → Option SlashingRecord
  | ((v, v'), k) =>
    if !v.slashed && v'.slashed then some ⟨epoch, k, v.effectiveBalance⟩ else none

/-- The slashings of one step of a chain. -/
def ChainEvent.slashings (e : ChainEvent) : List SlashingRecord :=
  (e.before.validators.toList.zip e.after.validators.toList).zipIdx.filterMap
    (slashingRecord e.before.slot.epoch)

/-- The slashings of a run, in order. -/
def slashingLedger (events : List ChainEvent) : List SlashingRecord :=
  events.flatMap ChainEvent.slashings

/-- What a validator has counted for in the vector when it is slashed. -/
def Validator.slashedStake (v : Validator) : Nat :=
  if v.slashed then v.effectiveBalance.val else 0

omit [Preset] in
theorem slashingRecord_eq_some {epoch : Epoch} {v v' : Validator} {k : Nat} {x : SlashingRecord} :
    slashingRecord epoch ((v, v'), k) = some x ↔
      v.slashed = false ∧ v'.slashed = true ∧ x = ⟨epoch, k, v.effectiveBalance⟩ := by
  unfold slashingRecord
  rw [Option.ite_none_right_eq_some, Bool.and_eq_true, Bool.not_eq_true', Option.some.injEq,
    and_assoc]
  exact and_congr_right fun _ => and_congr_right fun _ => eq_comm

namespace ChainEvent

variable {e : ChainEvent}

theorem mem_slashings {x : SlashingRecord} : x ∈ e.slashings ↔ ∃ v v',
    e.before.validators.get? x.validator = some v ∧ e.after.validators.get? x.validator = some v' ∧
      v.slashed = false ∧ v'.slashed = true ∧
      x = ⟨e.before.slot.epoch, x.validator, v.effectiveBalance⟩ := by
  unfold slashings BoundedList.get?
  rw [List.mem_filterMap]
  constructor
  · rintro ⟨⟨⟨v, v'⟩, k⟩, hmem, hx⟩
    obtain ⟨hunslashed, hslashed, rfl⟩ := slashingRecord_eq_some.1 hx
    have hk := List.getElem?_zip_eq_some.1 (List.mem_zipIdx_iff_getElem?.1 hmem)
    exact ⟨v, v', hk.1, hk.2, hunslashed, hslashed, rfl⟩
  · rintro ⟨v, v', hv, hv', hunslashed, hslashed, hx⟩
    refine ⟨((v, v'), x.validator), ?_, slashingRecord_eq_some.2 ⟨hunslashed, hslashed, hx⟩⟩
    exact List.mem_zipIdx_iff_getElem?.2 (List.getElem?_zip_eq_some.2 ⟨hv, hv'⟩)

theorem slashings_nodup (e : ChainEvent) : (e.slashings.map (·.validator)).Nodup := by
  unfold slashings
  rw [List.map_filterMap]
  refine List.Pairwise.filterMap _ ?_ (List.pairwise_map.1 (List.nodup_zipIdx_map_snd _))
  rintro ⟨⟨v, v'⟩, k⟩ ⟨⟨w, w'⟩, j⟩ hne a ha b hb
  obtain ⟨x, hx, rfl⟩ := Option.map_eq_some_iff.1 ha
  obtain ⟨y, hy, rfl⟩ := Option.map_eq_some_iff.1 hb
  rw [(slashingRecord_eq_some.1 hx).2.2, (slashingRecord_eq_some.1 hy).2.2]
  exact hne

end ChainEvent

/-! ## Blocks -/

/-- A block keeps the effective balance of a validator and undoes no slashing. -/
def KeepsStake (v v' : Validator) : Prop :=
  v'.effectiveBalance = v.effectiveBalance ∧ (v.slashed = true → v'.slashed = true)

/-- What is slashed from `r` to `r'` is added to the bucket of the epoch. -/
structure Registry.Slashes (r r' : Registry) : Prop where
  slot : r'.slot = r.slot
  validators : List.Forall₂ KeepsStake r.validators r'.validators
  bucket : ∀ t, (ringGet r'.slashings t).val +
      (if t % epochsPerSlashingsVector = r.slot.epoch.val % epochsPerSlashingsVector then
        tally Validator.slashedStake r.validators else 0) =
    (ringGet r.slashings t).val +
      if t % epochsPerSlashingsVector = r.slot.epoch.val % epochsPerSlashingsVector then
        tally Validator.slashedStake r'.validators else 0

omit [Preset] in
theorem KeepsStake.refl (v : Validator) : KeepsStake v v := ⟨rfl, fun h => h⟩

omit [Preset] in
/-- Validators that keep their stake and their flag count for the same. -/
theorem tally_slashedStake_congr {vs vs' : List Validator}
    (h : List.Forall₂ (fun v v' => v'.slashedStake = v.slashedStake) vs vs') :
    tally Validator.slashedStake vs' = tally Validator.slashedStake vs := by
  induction h with
  | nil => rfl
  | cons hv _ ih => rw [tally_cons, tally_cons, hv, ih]

namespace Registry.Slashes

variable {r r' r'' : Registry}

theorem refl (r : Registry) : r.Slashes r :=
  ⟨rfl, List.forall₂_same.2 fun v _ => .refl v, fun _ => rfl⟩

theorem trans (h : r.Slashes r') (h' : r'.Slashes r'') : r.Slashes r'' where
  slot := h'.slot.trans h.slot
  validators := by
    have hcomp := h.validators
    have hcomp' := h'.validators
    generalize r.validators = vs, r'.validators = vs', r''.validators = vs'' at hcomp hcomp' ⊢
    induction hcomp generalizing vs'' with
    | nil => exact hcomp'
    | cons hv _ ih =>
      cases hcomp' with
      | cons hv' htail =>
        exact .cons ⟨hv'.1.trans hv.1, fun hs => hv'.2 (hv.2 hs)⟩ (ih _ htail)
  bucket := by
    intro t
    have hfirst := h.bucket t
    have hsecond := h'.bucket t
    rw [h.slot] at hsecond
    omega

/-- A move that slashes no one. -/
theorem of_validators {vs : List Validator} (hslot : r'.slot = r.slot)
    (hslashings : r'.slashings = r.slashings) (hvs : r'.validators = vs)
    (h : List.Forall₂ (fun v v' : Validator =>
      v'.effectiveBalance = v.effectiveBalance ∧ v'.slashed = v.slashed) r.validators vs) :
    r.Slashes r' where
  slot := hslot
  validators := hvs ▸ h.imp fun v v' hv => ⟨hv.1, fun hs => hv.2.trans hs⟩
  bucket := by
    intro t
    have hstake : tally Validator.slashedStake vs = tally Validator.slashedStake r.validators :=
      tally_slashedStake_congr (h.imp fun v v' hv => by
        unfold Validator.slashedStake
        rw [hv.1, hv.2])
    rw [hslashings, hvs, hstake]

end Registry.Slashes

/-- The moves of a block add to the bucket what they slash. -/
theorem RegistryMove.slashes {r r' : Registry} (move : RegistryMove .block r r') :
    r.Slashes r' := by
  have hsame : List.Forall₂ (fun v v' : Validator =>
      v'.effectiveBalance = v.effectiveBalance ∧ v'.slashed = v.slashed) r.validators
      r.validators := List.forall₂_same.2 fun _ _ => ⟨rfl, rfl⟩
  cases move with
  | revise h =>
    refine .of_validators rfl rfl rfl (h.imp fun v v' hv => ?_)
    obtain ⟨_, _, rfl⟩ := hv
    exact ⟨rfl, rfl⟩
  | exit hi | consolidate hi =>
    exact .of_validators rfl rfl rfl (forall₂_modify_of (fun _ => ⟨rfl, rfl⟩) hi ⟨rfl, rfl⟩)
  | @slash _ i v extended bucket hi hslashed hexit hextended hbucket =>
    refine ⟨rfl, forall₂_modify_of KeepsStake.refl hi ⟨rfl, fun _ => rfl⟩, fun t => ?_⟩
    have hstake := tally_modify (f := Validator.slashedStake)
      (h := fun v : Validator =>
        { v with slashed := true, withdrawableEpoch := max v.withdrawableEpoch extended }) hi
    have hbefore : v.slashedStake = 0 := by simp [Validator.slashedStake, hslashed]
    have hafter : ({ v with
        slashed := true
        withdrawableEpoch := max v.withdrawableEpoch extended } : Validator).slashedStake =
        v.effectiveBalance.val := rfl
    rw [hbefore, hafter] at hstake
    rw [ringGet_ringSet]
    by_cases ht : t % epochsPerSlashingsVector = r.slot.epoch.val % epochsPerSlashingsVector
    · have hsamebucket : ringGet r.slashings t = ringGet r.slashings r.slot.epoch.val := by
        unfold ringGet
        simp only [ht]
      rw [if_pos ht.symm, if_pos ht, if_pos ht, hbucket, hsamebucket]
      dsimp only
      omega
    · rw [if_neg (Ne.symm ht), if_neg ht, if_neg ht]
  | queuePartial | queueDeposit | build | dropPartials | moveBuilderCursor
  | moveValidatorCursor => exact .of_validators rfl rfl rfl hsame

/-- The records of a block add up to what it slashes. -/
theorem tally_slashings {e : ChainEvent}
    (h : List.Forall₂ KeepsStake e.before.validators.toList e.after.validators.toList) :
    tally (·.amount.val) e.slashings + tally Validator.slashedStake e.before.validators.toList =
      tally Validator.slashedStake e.after.validators.toList := by
  unfold ChainEvent.slashings
  generalize e.before.validators.toList = vs, e.after.validators.toList = vs' at h ⊢
  generalize e.before.slot.epoch = epoch
  generalize (0 : Nat) = n
  induction h generalizing n with
  | nil => rfl
  | @cons v v' vs vs' hv _ ih =>
    have hrest := ih (n + 1)
    rw [List.zip_cons_cons, List.zipIdx_cons, tally_cons, tally_cons]
    cases hslashed : v.slashed with
    | true =>
      have hslashed' := hv.2 hslashed
      rw [List.filterMap_cons_none (by simp [slashingRecord, hslashed])]
      simp only [Validator.slashedStake, hslashed, hslashed', if_true, hv.1]
      omega
    | false =>
      cases hslashed' : v'.slashed with
      | true =>
        rw [List.filterMap_cons_some (slashingRecord_eq_some.2 ⟨hslashed, hslashed', rfl⟩),
          tally_cons]
        simp only [Validator.slashedStake, hslashed, hslashed', if_true, hv.1]
        simp only [Bool.false_eq_true, if_false]
        omega
      | false =>
        rw [List.filterMap_cons_none (by simp [slashingRecord, hslashed'])]
        simp only [Validator.slashedStake, hslashed, hslashed', Bool.false_eq_true, if_false]
        omega

/-! ## Epochs -/

/-- Nothing is slashed from `r` to `r'`, and only the next epoch's bucket may be cleared. -/
structure Registry.KeepsSlashings (r r' : Registry) : Prop where
  slot : r'.slot = r.slot
  kept : ∀ (k : Nat) v, r.validators[k]? = some v →
    ∃ v', r'.validators[k]? = some v' ∧ v'.slashed = v.slashed
  origin : ∀ (k : Nat) v', r'.validators[k]? = some v' → v'.slashed = true →
    ∃ v, r.validators[k]? = some v ∧ v.slashed = true
  bucket : ∀ t, t % epochsPerSlashingsVector ≠
    (r.slot.epoch.val + 1) % epochsPerSlashingsVector →
    ringGet r'.slashings t = ringGet r.slashings t
  cleared : ringGet r.slashings (r.slot.epoch.val + 1) = 0 →
    ringGet r'.slashings (r.slot.epoch.val + 1) = 0

namespace Registry.KeepsSlashings

variable {r r' r'' : Registry}

theorem refl (r : Registry) : r.KeepsSlashings r :=
  ⟨rfl, fun _ v hv => ⟨v, hv, rfl⟩, fun _ v hv hs => ⟨v, hv, hs⟩, fun _ _ => rfl, fun h => h⟩

theorem trans (h : r.KeepsSlashings r') (h' : r'.KeepsSlashings r'') : r.KeepsSlashings r'' where
  slot := h'.slot.trans h.slot
  kept := by
    intro k v hv
    obtain ⟨v', hv', hsame⟩ := h.kept k v hv
    obtain ⟨v'', hv'', hsame'⟩ := h'.kept k v' hv'
    exact ⟨v'', hv'', hsame'.trans hsame⟩
  origin := by
    intro k v'' hv'' hs
    obtain ⟨v', hv', hs'⟩ := h'.origin k v'' hv'' hs
    exact h.origin k v' hv' hs'
  bucket := by
    intro t ht
    have hsecond := h'.bucket t
    rw [h.slot] at hsecond
    exact (hsecond ht).trans (h.bucket t ht)
  cleared := by
    have hsecond := h'.cleared
    rw [h.slot] at hsecond
    exact fun hzero => hsecond (h.cleared hzero)

end Registry.KeepsSlashings

/-- Outside of blocks a move leaves a validator's flag alone. -/
theorem RegistryMove.keeps_slashed {p : Phase} {r r' : Registry} (move : RegistryMove p r r')
    (hp : p ≠ .block) {k : Nat} {v : Validator} (hv : r.validators[k]? = some v) :
    ∃ v', r'.validators[k]? = some v' ∧ v'.slashed = v.slashed := by
  cases move with
  | revise h =>
    obtain ⟨v', hv', _, _, rfl⟩ := forall₂_getElem? h hv
    exact ⟨_, hv', rfl⟩
  | exit hi =>
    exact modify_getElem? (R := fun v v' : Validator => v'.slashed = v.slashed) hi hv rfl rfl
  | activate _ h =>
    obtain ⟨v', hv', rfl | ⟨-, rfl⟩⟩ := forall₂_getElem? h hv
    · exact ⟨v', hv', rfl⟩
    · exact ⟨_, hv', rfl⟩
  | rebalance h =>
    obtain ⟨v', hv', _, rfl, -⟩ := forall₂_getElem? h hv
    exact ⟨_, hv', rfl⟩
  | enter =>
    exact ⟨v, List.getElem?_append_left (List.getElem?_eq_some_iff.1 hv).1 ▸ hv, rfl⟩
  | resetSlashings | dropConsolidations | rotate | settleDeposits => exact ⟨v, hv, rfl⟩
  | slash | consolidate | queuePartial | queueDeposit | build | dropPartials | moveBuilderCursor
  | moveValidatorCursor => exact absurd rfl hp

theorem RegistryMove.keepsSlashings {p : Phase} {r r' : Registry} (move : RegistryMove p r r')
    (hp : p ≠ .block) : r.KeepsSlashings r' where
  slot := move.slot_eq
  kept k v hv := move.keeps_slashed hp hv
  origin := by
    intro k v' hv' hs
    rcases move.validator_origin hv' with ⟨v, hv, -⟩ | hentered
    · obtain ⟨v'', hv'', hsame⟩ := move.keeps_slashed hp hv
      obtain rfl := Option.some.inj (hv'.symm.trans hv'')
      exact ⟨v, hv, hsame.symm.trans hs⟩
    · rw [hentered.slashed] at hs
      cases hs
  bucket := by
    intro t ht
    cases move with
    | resetSlashings => exact (ringGet_ringSet _ _ _ _).trans (if_neg (Ne.symm ht))
    | revise | exit | activate | rebalance | enter | dropConsolidations | rotate
    | settleDeposits => rfl
    | slash | consolidate | queuePartial | queueDeposit | build | dropPartials
    | moveBuilderCursor | moveValidatorCursor => exact absurd rfl hp
  cleared := by
    intro hzero
    cases move with
    | resetSlashings => exact ringGet_ringSet_self _ _ _
    | revise | exit | activate | rebalance | enter | dropConsolidations | rotate
    | settleDeposits => exact hzero
    | slash | consolidate | queuePartial | queueDeposit | build | dropPartials
    | moveBuilderCursor | moveValidatorCursor => exact absurd rfl hp

namespace BeaconState

variable {s s' : BeaconState}

theorem Moves.keepsSlashings {p : Phase} (h : Moves p s s') (hp : p ≠ .block) :
    s.registry.KeepsSlashings s'.registry :=
  h.rel Registry.KeepsSlashings.refl Registry.KeepsSlashings.trans fun move =>
    move.keepsSlashings hp

theorem processEpoch_keepsSlashings [Crypto] (h : s.processEpoch = .ok s') :
    s.registry.KeepsSlashings s'.registry ∧ ringGet s'.slashings (s.slot.epoch.val + 1) = 0 := by
  have hslot := (processEpoch_effect s' h).position.slot
  obtain ⟨steps⟩ := processEpoch_steps h
  have hbefore := steps.moves.before.keepsSlashings nofun
  have hdeposits := steps.moves.deposits.keepsSlashings nofun
  rw [steps.moves.penalties] at hdeposits
  refine ⟨(hbefore.trans hdeposits).trans (steps.moves.after.keepsSlashings nofun), ?_⟩
  -- once cleared, the next epoch's bucket stays clear to the end of the epoch
  obtain ⟨lookahead, window, hs'⟩ := steps.result
  have hclear : ringGet steps.summarised.slashings (steps.summarised.slot.epoch.val + 1) = 0 := by
    rw [steps.summarised_eq]
    exact ringGet_ringSet_self _ _ _
  have hsynced := (steps.rotation.moves.keepsSlashings nofun).cleared hclear
  have hsyncedSlot : steps.synced.slot = s.slot := (congrArg BeaconState.slot hs').symm.trans hslot
  rw [congrArg BeaconState.slashings hs', ← hsyncedSlot, steps.rotation.slot]
  exact hsynced

end BeaconState

/-! ## Runs -/

/-- What a step of a chain does to the slashings. -/
theorem ChainEvent.Accepted.slashings_cases [Crypto] {e : ChainEvent} (h : e.Accepted) :
    e.before.registry.Slashes e.after.registry ∨
      (∃ r, e.before.registry.KeepsSlashings r ∧ e.after.registry = { r with slot := e.after.slot } ∧
        (e.after.slot.epoch.val = e.before.slot.epoch.val ∧ r.slashings = e.before.slashings ∨
          e.after.slot.epoch.val = e.before.slot.epoch.val + 1 ∧
            ringGet r.slashings (e.before.slot.epoch.val + 1) = 0)) := by
  obtain ⟨s, block, s'⟩ := e
  cases block with
  | some block =>
    refine .inl ((BeaconState.processBlock_registryMoves h).rel Registry.Slashes.refl
      Registry.Slashes.trans RegistryMove.slashes)
  | none =>
    obtain ⟨hslot, ⟨hinner, hs'⟩ | ⟨hboundary, filed, next, -, hfiled, hepoch, hs'⟩⟩ :=
      BeaconState.advanceSlot_registry h
    · exact .inr ⟨s.registry, .refl _, hs', .inl ⟨BeaconState.epoch_of_inner hslot hinner, rfl⟩⟩
    · obtain ⟨hkeeps, hclear⟩ := BeaconState.processEpoch_keepsSlashings hepoch
      have hsame : filed.slot = s.slot := congrArg Registry.slot hfiled
      rw [hfiled] at hkeeps
      rw [hsame] at hclear
      exact .inr ⟨next.registry, hkeeps, hs', .inr ⟨BeaconState.epoch_of_boundary hslot hboundary, hclear⟩⟩

/-- The slashings vector of a state holds the records of the last turn of its ring. -/
def BeaconState.Recorded (s : BeaconState) (ledger : List SlashingRecord) : Prop :=
  Tallies (fun amount : Gwei => amount.val) (·.epoch.val) (·.amount.val) s.slashings ledger
    s.slot.epoch.val

section

variable {e : ChainEvent} {r : Registry}

theorem Registry.KeepsSlashings.slashings_eq_nil (h : e.before.registry.KeepsSlashings r)
    (hafter : e.after.validators.toList = r.validators) : e.slashings = [] := by
  refine List.eq_nil_iff_forall_not_mem.2 fun x hx => ?_
  obtain ⟨v, v', hv, hv', hunslashed, hslashed, -⟩ := ChainEvent.mem_slashings.1 hx
  obtain ⟨v'', hv'', hsame⟩ := h.kept _ v hv
  have hv' : e.after.validators.toList[x.validator]? = some v' := hv'
  rw [hafter, hv''] at hv'
  obtain rfl := Option.some.inj hv'
  rw [hsame, hunslashed] at hslashed
  cases hslashed

theorem ChainEvent.Accepted.recorded [Crypto] (h : e.Accepted) {ledger : List SlashingRecord}
    (hledger : e.before.Recorded ledger) : e.after.Recorded (ledger ++ e.slashings) := by
  have hepochs : ∀ x ∈ e.slashings, x.epoch = e.before.slot.epoch := by
    intro x hx
    obtain ⟨v, v', -, -, -, -, heq⟩ := mem_slashings.1 hx
    rw [heq]
  unfold BeaconState.Recorded at hledger ⊢
  rcases h.slashings_cases with hblock | ⟨r, hkeeps, hafter, hepoch⟩
  · have hslot : e.after.slot = e.before.slot := hblock.slot
    have htally := tally_slashings hblock.validators
    rw [hslot]
    refine hledger.record (fun x hx => congrArg Fin.val (hepochs x hx)) fun t => ?_
    have hbucket : (ringGet e.after.slashings t).val +
        (if t % epochsPerSlashingsVector = e.before.slot.epoch.val % epochsPerSlashingsVector then
          tally Validator.slashedStake e.before.validators.toList else 0) =
        (ringGet e.before.slashings t).val +
        if t % epochsPerSlashingsVector = e.before.slot.epoch.val % epochsPerSlashingsVector then
          tally Validator.slashedStake e.after.validators.toList else 0 := hblock.bucket t
    split at hbucket <;> rename_i ht
    · rw [if_pos ht]
      omega
    · rw [if_neg ht]
      exact hbucket
  · have hvalidators : e.after.validators.toList = r.validators :=
      congrArg Registry.validators hafter
    have hring : e.after.slashings = r.slashings := congrArg Registry.slashings hafter
    rw [hkeeps.slashings_eq_nil hvalidators, List.append_nil, hring]
    rcases hepoch with ⟨hsame, hslashings⟩ | ⟨hnext, hclear⟩
    · rw [hsame, hslashings]
      exact hledger
    · rw [hnext]
      exact hledger.tick (congrArg Fin.val hclear) hkeeps.bucket

/-- A validator is slashed after a step when it was before, or when the step slashes it. -/
theorem ChainEvent.Accepted.slashed_iff [Crypto] (h : e.Accepted) (k : Nat) :
    e.after.HasAt k (·.slashed = true) ↔
      e.before.HasAt k (·.slashed = true) ∨ ∃ x ∈ e.slashings, x.validator = k := by
  constructor
  · rintro ⟨v', hv', hslashed⟩
    have horigin : ∃ v, e.before.validators.get? k = some v := by
      rcases h.slashings_cases with hblock | ⟨r, hkeeps, hafter, -⟩
      · have hlt : k < e.after.validators.toList.length := (List.getElem?_eq_some_iff.1 hv').1
        have hlength : e.before.validators.toList.length = e.after.validators.toList.length :=
          hblock.validators.length_eq
        exact ⟨_, List.getElem?_eq_getElem (hlength ▸ hlt)⟩
      · have hvalidators : e.after.validators.toList = r.validators :=
          congrArg Registry.validators hafter
        obtain ⟨v, hv, -⟩ := hkeeps.origin k v'
          ((congrArg (·[k]?) hvalidators).symm.trans hv') hslashed
        exact ⟨v, hv⟩
    obtain ⟨v, hv⟩ := horigin
    cases hbefore : v.slashed with
    | true => exact .inl ⟨v, hv, hbefore⟩
    | false =>
      exact .inr ⟨⟨_, k, v.effectiveBalance⟩,
        mem_slashings.2 ⟨v, v', hv, hv', hbefore, hslashed, rfl⟩, rfl⟩
  · rintro (⟨v, hv, hslashed⟩ | ⟨x, hx, rfl⟩)
    · obtain ⟨v', hv', hlife⟩ := h.lifecycle hv
      exact ⟨v', hv', hlife.slashed hslashed⟩
    · obtain ⟨v, v', -, hv', -, hslashed, -⟩ := mem_slashings.1 hx
      exact ⟨v', hv', hslashed⟩

end

section

variable {s s' : BeaconState} {events : List ChainEvent}

theorem slashingLedger_cons (e : ChainEvent) (events : List ChainEvent) :
    slashingLedger (e :: events) = e.slashings ++ slashingLedger events := rfl

theorem Runs.recorded [Crypto] (h : Runs s events s') {ledger : List SlashingRecord}
    (hledger : s.Recorded ledger) : s'.Recorded (ledger ++ slashingLedger events) := by
  induction h generalizing ledger with
  | nil s => rwa [slashingLedger, List.flatMap_nil, List.append_nil]
  | @cons e es s' head tail ih =>
    rw [slashingLedger_cons, ← List.append_assoc]
    exact ih (head.recorded hledger)

theorem Runs.slashed_iff [Crypto] (h : Runs s events s') (k : Nat) : s'.HasAt k (·.slashed = true) ↔
    s.HasAt k (·.slashed = true) ∨ ∃ x ∈ slashingLedger events, x.validator = k := by
  induction h with
  | nil s => simp [slashingLedger]
  | @cons e es s' head tail ih =>
    rw [ih, head.slashed_iff, slashingLedger_cons, or_assoc]
    simp only [List.mem_append, or_and_right, exists_or]

/-- No validator is recorded twice, nor one that is slashed from the start. -/
theorem Runs.ledger_nodup [Crypto] (h : Runs s events s') :
    ((slashingLedger events).map (·.validator)).Nodup ∧
      ∀ x ∈ slashingLedger events, ¬s.HasAt x.validator (·.slashed = true) := by
  induction h with
  | nil s => simp [slashingLedger]
  | @cons e es s' head tail ih =>
    obtain ⟨hnodup, hfresh⟩ := ih
    have hrecorded : ∀ x ∈ e.slashings, e.after.HasAt x.validator (·.slashed = true) :=
      fun x hx => (head.slashed_iff _).2 (.inr ⟨x, hx, rfl⟩)
    rw [slashingLedger_cons, List.map_append]
    refine ⟨List.nodup_append.2 ⟨e.slashings_nodup, hnodup, ?_⟩, fun x hx => ?_⟩
    · rintro _ hk _ hk' rfl
      obtain ⟨x, hx, rfl⟩ := List.mem_map.1 hk
      obtain ⟨y, hy, hxy⟩ := List.mem_map.1 hk'
      exact hfresh y hy (hxy ▸ hrecorded x hx)
    · rcases List.mem_append.1 hx with hx | hx
      · obtain ⟨v, v', hv, -, hunslashed, -⟩ := ChainEvent.mem_slashings.1 hx
        rintro ⟨w, hw, hslashed⟩
        obtain rfl := Option.some.inj (hv.symm.trans hw)
        rw [hunslashed] at hslashed
        cases hslashed
      · intro hslashed
        exact hfresh x hx ((head.slashed_iff _).2 (.inl hslashed))

end

end Moonglass
