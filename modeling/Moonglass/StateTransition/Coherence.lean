import Moonglass.StateTransition.Lifecycle

/-
  The registry is coherent: the lists that run parallel to the validators have their length, and no
  key is registered twice. Every move keeps this.
-/

namespace Moonglass

open List

variable [Preset]
variable {r r' : Registry} {p : Phase} {events : List ChainEvent}

/-- The lists that are indexed by validators have an entry for each of them. -/
structure Registry.Parallel (r : Registry) : Prop where
  balances : r.balanceCount = r.validators.length
  previous : r.previousCount = r.validators.length
  current : r.currentCount = r.validators.length
  scores : r.scoreCount = r.validators.length

/-- No key is registered twice. -/
structure Registry.DistinctKeys (r : Registry) : Prop where
  validators : (r.validators.map (·.pubkey)).Nodup
  builders : r.builderKeys.Nodup

/-- A state whose registry is coherent. -/
structure BeaconState.Coherent (s : BeaconState) : Prop where
  balances : s.balances.length = s.validators.length
  previous : s.previousEpochParticipation.length = s.validators.length
  current : s.currentEpochParticipation.length = s.validators.length
  scores : s.inactivityScores.length = s.validators.length
  validatorKeys : (s.validators.toList.map (·.pubkey)).Nodup
  builderKeys : (s.builders.toList.map (·.pubkey)).Nodup

theorem BeaconState.coherent_iff {s : BeaconState} :
    s.Coherent ↔ s.registry.Parallel ∧ s.registry.DistinctKeys :=
  ⟨fun h => ⟨⟨h.balances, h.previous, h.current, h.scores⟩, h.validatorKeys, h.builderKeys⟩,
    fun h => ⟨h.1.balances, h.1.previous, h.1.current, h.1.scores, h.2.validators, h.2.builders⟩⟩

theorem Registry.Parallel.of_length (h : r.Parallel)
    (hlength : r'.validators.length = r.validators.length)
    (hbalances : r'.balanceCount = r.balanceCount) (hprevious : r'.previousCount = r.previousCount)
    (hcurrent : r'.currentCount = r.currentCount) (hscores : r'.scoreCount = r.scoreCount) :
    r'.Parallel where
  balances := by rw [hbalances, hlength, h.balances]
  previous := by rw [hprevious, hlength, h.previous]
  current := by rw [hcurrent, hlength, h.current]
  scores := by rw [hscores, hlength, h.scores]

theorem RegistryMove.parallel (move : RegistryMove p r r') (h : r.Parallel) : r'.Parallel := by
  cases move with
  | revise hvs => exact h.of_length hvs.length_eq.symm rfl rfl rfl rfl
  | activate _ hvs => exact h.of_length hvs.length_eq.symm rfl rfl rfl rfl
  | rebalance hvs => exact h.of_length hvs.length_eq.symm rfl rfl rfl rfl
  | exit | slash | consolidate => exact h.of_length (length_modify _ _ _) rfl rfl rfl rfl
  | rotate => exact ⟨h.balances, h.current, rfl, h.scores⟩
  | @enter _ v =>
    have hnew : (r.validators ++ [v]).length = r.validators.length + 1 := length_append
    exact ⟨(congrArg (· + 1) h.balances).trans hnew.symm,
      (congrArg (· + 1) h.previous).trans hnew.symm, (congrArg (· + 1) h.current).trans hnew.symm,
      (congrArg (· + 1) h.scores).trans hnew.symm⟩
  | queuePartial | queueDeposit | build | dropPartials | moveBuilderCursor | moveValidatorCursor
  | resetSlashings | dropConsolidations | settleDeposits => exact h.of_length rfl rfl rfl rfl rfl

/-- A move of a validator keeps its key. -/
theorem ValidatorMove.pubkey_eq {epoch : Epoch} {v v' : Validator} (h : ValidatorMove epoch v v') :
    v'.pubkey = v.pubkey := by
  cases h with
  | revise h =>
    obtain ⟨_, _, rfl⟩ := h
    rfl
  | rebalance h =>
    obtain ⟨_, rfl, -⟩ := h
    rfl
  | keep | exit | slash | activate => rfl

/-- The keys of the validators stay, unless a new one is entered. -/
theorem RegistryMove.pubkeys_eq (move : RegistryMove p r r')
    (hlength : r'.validators.length = r.validators.length) :
    r'.validators.map (·.pubkey) = r.validators.map (·.pubkey) := by
  refine ext_getElem? fun k => ?_
  rw [getElem?_map, getElem?_map]
  cases hv : r.validators[k]? with
  | some v =>
    obtain ⟨v', hv', hmove⟩ := move.validator hv
    rw [hv']
    exact congrArg some hmove.pubkey_eq
  | none =>
    rw [getElem?_eq_none (hlength ▸ List.getElem?_eq_none_iff.1 hv)]

omit [Preset] in
theorem Rekeyed.nodup {keys keys' : List BLSPubkey} (h : Rekeyed keys keys') (hkeys : keys.Nodup) :
    keys'.Nodup := by
  obtain ⟨key, hnew, rfl | ⟨i, rfl⟩⟩ := h
  · exact nodup_append.2 ⟨hkeys, nodup_singleton key, by
      rintro a ha b hb rfl
      exact hnew (mem_singleton.1 hb ▸ ha)⟩
  · exact hkeys.set hnew

theorem RegistryMove.distinctKeys (move : RegistryMove p r r') (h : r.DistinctKeys) :
    r'.DistinctKeys where
  validators := by
    by_cases hlength : r'.validators.length = r.validators.length
    · rw [move.pubkeys_eq hlength]
      exact h.validators
    · cases move with
      | @enter _ v _ hnew =>
        show ((r.validators ++ [v]).map (·.pubkey)).Nodup
        rw [map_append, nodup_append]
        refine ⟨h.validators, nodup_singleton _, ?_⟩
        rintro a ha b hb rfl
        obtain ⟨v', hv', rfl⟩ := mem_map.1 ha
        exact hnew v' hv' (mem_singleton.1 hb)
      | revise hvs => exact absurd hvs.length_eq.symm hlength
      | activate _ hvs => exact absurd hvs.length_eq.symm hlength
      | rebalance hvs => exact absurd hvs.length_eq.symm hlength
      | exit | slash | consolidate => exact absurd (length_modify _ _ _) hlength
      | queuePartial | queueDeposit | build | dropPartials | moveBuilderCursor
      | moveValidatorCursor | resetSlashings | dropConsolidations | rotate
      | settleDeposits => exact absurd rfl hlength
  builders := by
    cases move with
    | build hkeys => exact hkeys.nodup h.builders
    | revise | exit | slash | consolidate | queuePartial | queueDeposit | dropPartials
    | moveBuilderCursor | moveValidatorCursor | activate | rebalance | resetSlashings
    | dropConsolidations | rotate | enter | settleDeposits => exact h.builders

namespace BeaconState

variable {s s' : BeaconState}

/-- The lists that are indexed by validators, for a state. -/
def Parallel (s : BeaconState) : Prop := s.registry.Parallel

theorem Moves.parallel (h : Moves p s s') (hs : s.Parallel) : s'.Parallel :=
  h.inv RegistryMove.parallel hs

end BeaconState

theorem Runs.parallel [Crypto] {s s' : BeaconState} (h : Runs s events s') (hs : s.Parallel) :
    s'.Parallel :=
  h.registry_inv (P := Registry.Parallel) RegistryMove.parallel
    (fun _ h => ⟨h.balances, h.previous, h.current, h.scores⟩) hs

theorem Runs.coherent [Crypto] {s s' : BeaconState} (h : Runs s events s') (hs : s.Coherent) :
    s'.Coherent := by
  obtain ⟨hparallel, hkeys⟩ := BeaconState.coherent_iff.1 hs
  exact BeaconState.coherent_iff.2 ⟨h.parallel hparallel, h.registry_inv
    (P := Registry.DistinctKeys) RegistryMove.distinctKeys (fun _ h => ⟨h.validators, h.builders⟩)
    hkeys⟩

end Moonglass
