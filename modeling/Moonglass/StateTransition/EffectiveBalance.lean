import Moonglass.StateTransition.Runs

/-
  Effective balances follow the balances with hysteresis. An update moves an effective balance only
  when the balance has left a band around it, rounds down to the increment and stays at or below
  the cap that the withdrawal credentials allow. Credentials change between updates, but the cap
  they allow never falls.
-/

namespace Moonglass

open Lib BoundedList Word

variable [Preset]
variable {vs : BoundedList Validator validatorRegistryLimit} {i : Nat}

/-- How far the balance may fall below the effective balance. -/
def hysteresisDownward : Nat :=
  effectiveBalanceIncrement / max hysteresisQuotient 1 * hysteresisDownwardMultiplier

/-- How far the balance may rise above the effective balance. -/
def hysteresisUpward : Nat :=
  effectiveBalanceIncrement / max hysteresisQuotient 1 * hysteresisUpwardMultiplier

/-! ## One validator -/

namespace Validator

variable {v : Validator} {b : Gwei}

/-- The balance is within the band around the effective balance. -/
def InBand (v : Validator) (b : Gwei) : Prop :=
  v.effectiveBalance.val ≤ b.val + hysteresisDownward ∧
    b.val ≤ v.effectiveBalance.val + hysteresisUpward

instance (v : Validator) (b : Gwei) : Decidable (v.InBand b) :=
  inferInstanceAs (Decidable (_ ∧ _))

/-- The validator after an update with its balance. -/
def rebalanced (v : Validator) (b : Gwei) : Validator :=
  if v.InBand b then v else { v with
    effectiveBalance := Word.wrap
      (min (b.val - b.val % effectiveBalanceIncrement) v.getMaxEffectiveBalance.val) }

omit [Preset] in
theorem rebalanced_of_inBand (h : v.InBand b) : v.rebalanced b = v := if_pos h

omit [Preset] in
theorem rebalanced_of_not_inBand (h : ¬v.InBand b) : v.rebalanced b = { v with
    effectiveBalance := Word.wrap
      (min (b.val - b.val % effectiveBalanceIncrement) v.getMaxEffectiveBalance.val) } := if_neg h

omit [Preset] in
theorem rebalanced_cap (v : Validator) (b : Gwei) :
    (v.rebalanced b).getMaxEffectiveBalance = v.getMaxEffectiveBalance := by
  unfold rebalanced
  split <;> rfl

omit [Preset] in
/-- What an update out of the band writes. -/
theorem rebalanced_val (h : ¬v.InBand b) : (v.rebalanced b).effectiveBalance.val =
    min (b.val - b.val % effectiveBalanceIncrement) v.getMaxEffectiveBalance.val := by
  rw [rebalanced_of_not_inBand h]
  refine wrap_val_of_lt (lt_of_le_of_lt (min_le_left _ _) ?_)
  exact lt_of_le_of_lt (Nat.sub_le _ _) b.isLt

omit [Preset] in
/-- After an update the balance is within the band, or above it with the cap reached. -/
theorem rebalanced_settled (v : Validator) (b : Gwei) : (v.rebalanced b).InBand b ∨
    (v.rebalanced b).effectiveBalance = (v.rebalanced b).getMaxEffectiveBalance ∧
      (v.rebalanced b).effectiveBalance < b := by
  by_cases hband : v.InBand b
  · rw [rebalanced_of_inBand hband]
    exact .inl hband
  have hval := rebalanced_val hband
  have hmod := Nat.mod_lt b.val (show 0 < effectiveBalanceIncrement by decide)
  have hup : effectiveBalanceIncrement ≤ hysteresisUpward := by decide
  by_cases hcap : b.val - b.val % effectiveBalanceIncrement ≤ v.getMaxEffectiveBalance.val
  · rw [min_eq_left hcap] at hval
    refine .inl ⟨?_, ?_⟩ <;> rw [hval] <;> omega
  · rw [min_eq_right (Nat.le_of_not_le hcap)] at hval
    refine .inr ⟨?_, ?_⟩
    · rw [rebalanced_cap]
      exact Fin.ext hval
    · exact Fin.lt_def.2 (by omega)

omit [Preset] in
/-- A second update changes nothing. -/
theorem rebalanced_rebalanced (v : Validator) (b : Gwei) :
    (v.rebalanced b).rebalanced b = v.rebalanced b := by
  by_cases hband : v.InBand b
  · rw [rebalanced_of_inBand hband, rebalanced_of_inBand hband]
  by_cases hband' : (v.rebalanced b).InBand b
  · exact rebalanced_of_inBand hband'
  -- out of the band both updates write the same minimum
  rw [rebalanced_of_not_inBand hband', rebalanced_cap, rebalanced_of_not_inBand hband]

end Validator

namespace BeaconState

variable {s s' : BeaconState}

/-! ## The update -/

/-- One turn of the update loop. -/
def effectiveBalanceStep (s : BeaconState) (vs : BoundedList Validator validatorRegistryLimit)
    (i : Nat) : Transition (BoundedList Validator validatorRegistryLimit) := do
  let balance ← okOr (s.balances.get? i) (.invariant (.missingBalance (Word.wrap i)))
  let v ← okOr (vs.get? i) (.registry (.validatorIndexOutOfRange (Word.wrap i)))
  let low ← okOr (balance.checkedAdd hysteresisDownward) (.arithmeticOverflow .balanceSum)
  let high ← okOr (v.effectiveBalance.checkedAdd hysteresisUpward)
    (.arithmeticOverflow .balanceSum)
  if low < v.effectiveBalance ∨ high < balance then
    let rounded := balance.val - balance.val % effectiveBalanceIncrement
    pure (vs.set i { v with
      effectiveBalance := Word.wrap (min rounded v.getMaxEffectiveBalance.val) })
  else pure vs

theorem processEffectiveBalanceUpdates_eq (s : BeaconState) :
    s.processEffectiveBalanceUpdates = (do
      let validators ← (List.range s.validators.length).foldlM s.effectiveBalanceStep s.validators
      pure { s with validators }) := rfl

/-- A turn has the validator and its balance at hand, and neither threshold overflows. -/
structure Updatable (v : Validator) (b : Gwei) : Prop where
  low : b.val + hysteresisDownward < 2 ^ 64
  high : v.effectiveBalance.val + hysteresisUpward < 2 ^ 64

omit [Preset] in
theorem Updatable.rebalanced {v : Validator} {b : Gwei} (h : Updatable v b) :
    Updatable (v.rebalanced b) b := by
  refine ⟨h.low, ?_⟩
  by_cases hband : v.InBand b
  · rw [Validator.rebalanced_of_inBand hband]
    exact h.high
  · have hcap := v.getMaxEffectiveBalance_le
    have hmax : maxEffectiveBalance + hysteresisUpward < 2 ^ 64 := by decide
    have hle := Nat.min_le_right (b.val - b.val % effectiveBalanceIncrement)
      v.getMaxEffectiveBalance.val
    rw [Validator.rebalanced_val hband]
    omega

omit [Preset] in
/-- Writing back what is there. -/
theorem set_of_get? {v : Validator} (hv : vs.get? i = some v) : vs.set i v = vs := by
  obtain ⟨hi, hget⟩ := List.getElem?_eq_some_iff.1 hv
  refine BoundedList.ext ?_
  rw [toList_set, ← hget]
  exact List.set_getElem_self hi

omit [Preset] in
/-- The test of a turn, without the thresholds. -/
theorem leaves_band_iff {v : Validator} {b low high : Gwei}
    (hlow : low.val = b.val + hysteresisDownward)
    (hhigh : high.val = v.effectiveBalance.val + hysteresisUpward) :
    (low < v.effectiveBalance ∨ high < b) ↔ ¬v.InBand b := by
  rw [Fin.lt_def, Fin.lt_def, hlow, hhigh]
  unfold Validator.InBand
  omega

theorem effectiveBalanceStep_eq_ok {vs' : BoundedList Validator validatorRegistryLimit} :
    s.effectiveBalanceStep vs i = .ok vs' ↔ ∃ b v, s.balances.get? i = some b ∧
      vs.get? i = some v ∧ Updatable v b ∧ vs' = vs.set i (v.rebalanced b) := by
  unfold effectiveBalanceStep
  -- with both thresholds at hand, a turn writes the updated validator
  have hturn : ∀ {b low high : Gwei} {v : Validator}, vs.get? i = some v →
      low.val = b.val + hysteresisDownward →
      high.val = v.effectiveBalance.val + hysteresisUpward →
      (if low < v.effectiveBalance ∨ high < b then
        pure (vs.set i { v with
          effectiveBalance := Word.wrap
            (min (b.val - b.val % effectiveBalanceIncrement) v.getMaxEffectiveBalance.val) })
      else pure vs : Transition _) = .ok (vs.set i (v.rebalanced b)) := by
    intro b low high v hv hlow hhigh
    by_cases hband : v.InBand b
    · rw [if_neg fun h => (leaves_band_iff hlow hhigh).1 h hband,
        Validator.rebalanced_of_inBand hband, set_of_get? hv]
      rfl
    · rw [if_pos ((leaves_band_iff hlow hhigh).2 hband), Validator.rebalanced_of_not_inBand hband]
      rfl
  constructor
  · intro h
    simp only [bind_eq_ok] at h
    obtain ⟨b, hb, v, hv, low, hlow, high, hhigh, h⟩ := h
    rw [okOr_eq_ok] at hb hv hlow hhigh
    rw [checkedAdd_eq_some] at hlow hhigh
    refine ⟨b, v, hb, hv, ⟨hlow ▸ low.isLt, hhigh ▸ high.isLt⟩, ?_⟩
    exact Except.ok.inj (h.symm.trans (hturn hv hlow hhigh))
  · rintro ⟨b, v, hb, hv, hupdatable, rfl⟩
    have hlow : b.checkedAdd hysteresisDownward = some ⟨_, hupdatable.low⟩ :=
      checkedAdd_eq_some.2 rfl
    have hhigh : v.effectiveBalance.checkedAdd hysteresisUpward = some ⟨_, hupdatable.high⟩ :=
      checkedAdd_eq_some.2 rfl
    rw [hb, okOr_some, ok_bind, hv, okOr_some, ok_bind, hlow, okOr_some, ok_bind, hhigh, okOr_some,
      ok_bind]
    exact hturn hv rfl rfl

/-- The registry after `k` turns: updated below `k`, as it was from `k` on. -/
structure UpdatedBelow (s : BeaconState) (k : Nat)
    (vs : BoundedList Validator validatorRegistryLimit) : Prop where
  length : vs.length = s.validators.length
  later : ∀ i, k ≤ i → vs.get? i = s.validators.get? i
  updated : ∀ i < k, ∃ b v, s.balances.get? i = some b ∧ s.validators.get? i = some v ∧
    Updatable v b ∧ vs.get? i = some (v.rebalanced b)

theorem processEffectiveBalanceUpdates_updated (h : s.processEffectiveBalanceUpdates = .ok s') :
    ∃ vs, s' = { s with validators := vs } ∧ UpdatedBelow s s.validators.length vs := by
  rw [processEffectiveBalanceUpdates_eq] at h
  obtain ⟨vs, hvs, h⟩ := bind_eq_ok.1 h
  refine ⟨vs, (Except.ok.inj h).symm, ?_⟩
  refine foldlM_range (P := UpdatedBelow s) (fun k _ vs vs' hP hstep => ?_)
    ⟨rfl, fun _ _ => rfl, fun i hi => absurd hi (Nat.not_lt_zero i)⟩ hvs
  obtain ⟨b, v, hb, hv, hupdatable, rfl⟩ := effectiveBalanceStep_eq_ok.1 hstep
  refine ⟨(length_set _ _ _).trans hP.length, fun i hi => ?_, fun i hi => ?_⟩
  · rw [get?_set, if_neg (by omega)]
    exact hP.later i (by omega)
  · by_cases hik : i = k
    · subst hik
      refine ⟨b, v, hb, (hP.later i (Nat.le_refl i)).symm.trans hv, hupdatable, ?_⟩
      rw [get?_set, if_pos rfl, hv]
      rfl
    · obtain ⟨b', v', hb', hv', hupdatable', hget⟩ := hP.updated i (by omega)
      refine ⟨b', v', hb', hv', hupdatable', ?_⟩
      rw [get?_set, if_neg (Ne.symm hik)]
      exact hget

/-- The registry after the update, validator by validator. -/
theorem UpdatedBelow.get? (h : UpdatedBelow s s.validators.length vs) {v' : Validator}
    (hv' : vs.get? i = some v') : ∃ b v, s.balances.get? i = some b ∧
      s.validators.get? i = some v ∧ Updatable v b ∧ v' = v.rebalanced b := by
  have hi : i < s.validators.length := h.length ▸ lt_length_of_get? hv'
  obtain ⟨b, v, hb, hv, hupdatable, hget⟩ := h.updated i hi
  exact ⟨b, v, hb, hv, hupdatable, Option.some.inj (hv'.symm.trans hget)⟩

theorem processEffectiveBalanceUpdates_again (h : s.processEffectiveBalanceUpdates = .ok s') :
    s'.processEffectiveBalanceUpdates = .ok s' := by
  obtain ⟨vs, rfl, hupdated⟩ := processEffectiveBalanceUpdates_updated h
  have hturn : ∀ i ∈ List.range vs.length,
      effectiveBalanceStep { s with validators := vs } vs i = .ok vs := by
    intro i hi
    obtain ⟨v', hv'⟩ : ∃ v', vs.get? i = some v' :=
      ⟨_, List.getElem?_eq_getElem (List.mem_range.1 hi)⟩
    obtain ⟨b, v, hb, hv, hupdatable, rfl⟩ := hupdated.get? hv'
    refine effectiveBalanceStep_eq_ok.2 ⟨b, _, hb, hv', hupdatable.rebalanced, ?_⟩
    rw [Validator.rebalanced_rebalanced, set_of_get? hv']
  obtain ⟨vs', hloop, hvs'⟩ := foldlM_ok (f := effectiveBalanceStep { s with validators := vs })
    (fun vs' => vs' = vs) (b := vs) (fun i hi vs' hvs' => ⟨vs, by
      rw [hvs']
      exact hturn i hi, rfl⟩) rfl
  rw [hvs'] at hloop
  rw [processEffectiveBalanceUpdates_eq]
  exact (congrArg (· >>= _) hloop).trans rfl

end BeaconState

/-! ## Caps -/

theorem BeaconState.advanceSlot_keepsCapped [Crypto] {s s' : BeaconState}
    (h : s.advanceSlot = .ok s') : s.KeepsCapped s' := by
  obtain ⟨-, ⟨-, hinner⟩ | ⟨-, filed, next, -, hfiled, hepoch, hs'⟩⟩ := advanceSlot_registry h
  · exact .of_validators (by rw [hinner])
  · obtain ⟨steps⟩ := processEpoch_steps hepoch
    have hbefore : KeepsCapped s filed := .of_validators (congrArg Registry.validators hfiled)
    exact (hbefore.trans steps.capped).trans (.of_validators (by rw [hs']))

/-- A chain of slots and blocks keeps every effective balance capped. -/
theorem Runs.allCapped [Crypto] {s s' : BeaconState} {events : List ChainEvent}
    (h : Runs s events s') (hs : s.AllCapped) : s'.AllCapped := by
  induction h with
  | nil => exact hs
  | @cons e es s' head tail ih =>
    refine ih ?_
    obtain ⟨s, block, s'⟩ := e
    cases block with
    | none => exact BeaconState.advanceSlot_keepsCapped head hs
    | some block => exact (BeaconState.processBlock_changes head).capped hs

/-- Effective balances along chains, and what an update leaves. -/
theorem effective_balances [Crypto] :
    (∀ s events s', Runs s events s' → s.AllCapped → s'.AllCapped) ∧
    ∀ s s' : BeaconState, s.processEffectiveBalanceUpdates = .ok s' →
      (∀ i v, s'.validators.get? i = some v → ∃ b, s'.balances.get? i = some b ∧
        (v.InBand b ∨ v.effectiveBalance = v.getMaxEffectiveBalance ∧ v.effectiveBalance < b)) ∧
      s'.processEffectiveBalanceUpdates = .ok s' := by
  refine ⟨fun s events s' h hs => h.allCapped hs, fun s s' h => ⟨fun i v' hv' => ?_, ?_⟩⟩
  · obtain ⟨vs, rfl, hupdated⟩ := BeaconState.processEffectiveBalanceUpdates_updated h
    obtain ⟨b, v, hb, -, -, rfl⟩ := hupdated.get? hv'
    exact ⟨b, hb, v.rebalanced_settled b⟩
  · exact BeaconState.processEffectiveBalanceUpdates_again h

end Moonglass

namespace Moonglass.Devnet

open Lib

/-- The market with one balance above the band of its effective balance and one below. -/
def driftedMarket : BeaconState :=
  { market with balances := (market.balances.set 1 40000000000).set 2 20000000000 }

/-- A block that slashes a validator leaves the market capped. An update leaves the first drifted
validator at its cap, and a second update changes nothing. -/
theorem effective_balances_driftedMarket :
    (∃ events s', Runs market events s' ∧ events.map (·.block) = [none, some slashedBlock] ∧
      s'.AllCapped) ∧
    ∃ s', driftedMarket.processEffectiveBalanceUpdates = .ok s' ∧
      s'.processEffectiveBalanceUpdates = .ok s' := by
  have hcheck : followCheck (fun _ _ => True) market [none, some slashedBlock] = true := by
    decide +kernel
  obtain ⟨events, s', hruns, hblocks, -⟩ := followCheck_runs hcheck
  obtain ⟨s'', hs''⟩ := exists_ok_of_isOk
    (show driftedMarket.processEffectiveBalanceUpdates.isOk = true by decide +kernel)
  exact ⟨⟨events, s', hruns, hblocks, effective_balances.1 market events s' hruns (by decide)⟩,
    s'', hs'', (effective_balances.2 driftedMarket s'' hs'').2⟩

end Moonglass.Devnet
