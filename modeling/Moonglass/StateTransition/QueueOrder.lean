import Moonglass.StateTransition.Lifecycle

/-
  The order of the two queues that wait for an epoch. Partial withdrawals and consolidations take
  their epochs from churn cursors that only move forward, so the queues are sorted by the epoch
  their entries wait for. A slashing can make a source wait longer, but the entry of a slashed
  source is dropped, not waited for. Hence a loop that stops at the first entry that is not due
  leaves no due entry behind it.
-/

namespace Moonglass

open Lib List

variable [Preset]

/-! ## The invariant -/

/-- The queues are sorted, and no entry waits longer than the cursor it was assigned by. A slashed
source only waits longer than before, so it may stand later in the order but not earlier. -/
structure Registry.QueueOrder (r : Registry) : Prop where
  partials : r.pendingPartialWithdrawals.Pairwise fun a b =>
    a.withdrawableEpoch ≤ b.withdrawableEpoch
  partials_le : ∀ entry ∈ r.pendingPartialWithdrawals, entry.withdrawableEpoch.val ≤
    r.earliestExitEpoch.val + minValidatorWithdrawabilityDelay
  consolidations : r.pendingConsolidations.Pairwise fun a b => ∀ v w,
    r.validators[a.sourceIndex.val]? = some v → r.validators[b.sourceIndex.val]? = some w →
    v.slashed = false → v.withdrawableEpoch ≤ w.withdrawableEpoch
  /-- A queued source is registered and has its exit. -/
  consolidations_le : ∀ entry ∈ r.pendingConsolidations, ∃ v,
    r.validators[entry.sourceIndex.val]? = some v ∧ v.exitEpoch ≠ farFutureEpoch ∧
    (v.slashed = false → v.withdrawableEpoch.val ≤
      r.earliestConsolidationEpoch.val + minValidatorWithdrawabilityDelay)

omit [Preset] in
/-- A validator that has left and is not slashed keeps its withdrawable epoch. -/
theorem Lifecycle.unslashed {epoch : Epoch} {v v' : Validator} (h : Lifecycle epoch v v')
    (hexit : v.exitEpoch ≠ farFutureEpoch) (hunslashed : v'.slashed = false) :
    v.slashed = false ∧ v'.withdrawableEpoch = v.withdrawableEpoch := by
  have hbefore : v.slashed = false := by
    by_contra hslashed
    rw [h.slashed (by simpa using hslashed)] at hunslashed
    cases hunslashed
  refine ⟨hbefore, ?_⟩
  rcases h.withdrawable with heq | ⟨hfar, -⟩ | ⟨-, -, hslashed, -⟩
  · exact heq
  · exact absurd hfar hexit
  · rw [hunslashed] at hslashed
    cases hslashed

namespace Registry.QueueOrder

variable {r r' : Registry} {epoch : Epoch}

/-- Moves of the validators and of the cursors keep the order of the queues they do not touch. -/
theorem evolve (h : r.QueueOrder)
    (hpartials : r'.pendingPartialWithdrawals = r.pendingPartialWithdrawals)
    (hconsolidations : r'.pendingConsolidations = r.pendingConsolidations)
    (hexit : r.earliestExitEpoch ≤ r'.earliestExitEpoch)
    (hconsolidation : r.earliestConsolidationEpoch ≤ r'.earliestConsolidationEpoch)
    (hvalidators : ∀ (k : Nat) v, r.validators[k]? = some v →
      ∃ v', r'.validators[k]? = some v' ∧ Lifecycle epoch v v') : r'.QueueOrder where
  partials := hpartials ▸ h.partials
  partials_le := by
    intro entry hentry
    rw [hpartials] at hentry
    exact (h.partials_le entry hentry).trans (Nat.add_le_add_right (Fin.le_def.1 hexit) _)
  consolidations := by
    rw [hconsolidations]
    refine h.consolidations.imp_of_mem fun {a b} ha hb hab v' w' hv' hw' hv => ?_
    obtain ⟨v, hva, hvexit, -⟩ := h.consolidations_le a ha
    obtain ⟨w, hwb, hwexit, -⟩ := h.consolidations_le b hb
    obtain ⟨v'', hv'', hvlife⟩ := hvalidators _ v hva
    obtain ⟨w'', hw'', hwlife⟩ := hvalidators _ w hwb
    obtain rfl := Option.some.inj (hv''.symm.trans hv')
    obtain rfl := Option.some.inj (hw''.symm.trans hw')
    obtain ⟨hvbefore, hveq⟩ := hvlife.unslashed hvexit hv
    rw [hveq]
    exact (hab v w hva hwb hvbefore).trans (hwlife.withdrawable_le hwexit)
  consolidations_le := by
    intro entry hentry
    rw [hconsolidations] at hentry
    obtain ⟨v, hv, hexited, hle⟩ := h.consolidations_le entry hentry
    obtain ⟨v', hv', hlife⟩ := hvalidators _ v hv
    refine ⟨v', hv', hlife.exit_ne hexited, fun hunslashed => ?_⟩
    obtain ⟨hbefore, heq⟩ := hlife.unslashed hexited hunslashed
    rw [heq]
    exact (hle hbefore).trans (Nat.add_le_add_right (Fin.le_def.1 hconsolidation) _)

/-- An entry that waits for the cursor's epoch goes to the end of the partial withdrawals. -/
theorem pushPartial (h : r.QueueOrder) {entry : PendingPartialWithdrawal}
    (hentry : entry.withdrawableEpoch.val =
      r.earliestExitEpoch.val + minValidatorWithdrawabilityDelay) :
    ({ r with pendingPartialWithdrawals := r.pendingPartialWithdrawals ++ [entry] } :
      Registry).QueueOrder where
  partials := by
    refine pairwise_append.2 ⟨h.partials, pairwise_singleton _ _, fun a ha b hb => ?_⟩
    rw [mem_singleton.1 hb]
    exact Fin.le_def.2 ((h.partials_le a ha).trans hentry.ge)
  partials_le := by
    intro a ha
    rcases mem_append.1 ha with ha | ha
    · exact h.partials_le a ha
    · rw [mem_singleton.1 ha]
      exact hentry.le
  consolidations := h.consolidations
  consolidations_le := h.consolidations_le

/-- A source that waits for the cursor's epoch goes to the end of the consolidations. -/
theorem pushConsolidation (h : r.QueueOrder) {entry : PendingConsolidation} {source : Validator}
    (hsource : r.validators[entry.sourceIndex.val]? = some source)
    (hexit : source.exitEpoch ≠ farFutureEpoch)
    (hentry : source.withdrawableEpoch.val =
      r.earliestConsolidationEpoch.val + minValidatorWithdrawabilityDelay) :
    ({ r with pendingConsolidations := r.pendingConsolidations ++ [entry] } :
      Registry).QueueOrder where
  partials := h.partials
  partials_le := h.partials_le
  consolidations := by
    refine pairwise_append.2 ⟨h.consolidations, pairwise_singleton _ _,
      fun a ha b hb v w hv hw hunslashed => ?_⟩
    rw [mem_singleton.1 hb, hsource] at hw
    obtain rfl := Option.some.inj hw
    obtain ⟨v', hv', -, hle⟩ := h.consolidations_le a ha
    obtain rfl := Option.some.inj (hv'.symm.trans hv)
    exact Fin.le_def.2 ((hle hunslashed).trans hentry.ge)
  consolidations_le := by
    intro a ha
    rcases mem_append.1 ha with ha | ha
    · exact h.consolidations_le a ha
    · rw [mem_singleton.1 ha]
      exact ⟨source, hsource, hexit, fun _ => hentry.le⟩

theorem dropPartials (h : r.QueueOrder) (n : Nat) :
    ({ r with pendingPartialWithdrawals := r.pendingPartialWithdrawals.drop n } :
      Registry).QueueOrder :=
  ⟨h.partials.drop, fun entry hentry => h.partials_le entry (mem_of_mem_drop hentry),
    h.consolidations, h.consolidations_le⟩

theorem dropConsolidations (h : r.QueueOrder) (n : Nat) :
    ({ r with pendingConsolidations := r.pendingConsolidations.drop n } : Registry).QueueOrder :=
  ⟨h.partials, h.partials_le, h.consolidations.drop,
    fun entry hentry => h.consolidations_le entry (mem_of_mem_drop hentry)⟩

/-- What comes after an entry of a sorted queue waits at least as long. -/
theorem rest_le (h : r.QueueOrder)
    {seen rest : List PendingConsolidation} {entry : PendingConsolidation} {source : Validator}
    (hqueue : r.pendingConsolidations = seen ++ entry :: rest)
    (hsource : r.validators[entry.sourceIndex.val]? = some source)
    (hunslashed : source.slashed = false) : ∀ later ∈ entry :: rest, ∃ v,
      r.validators[later.sourceIndex.val]? = some v ∧
      source.withdrawableEpoch ≤ v.withdrawableEpoch := by
  intro later hlater
  have horder := h.consolidations
  rw [hqueue] at horder
  rcases mem_cons.1 hlater with rfl | hrest
  · exact ⟨source, hsource, le_rfl⟩
  · obtain ⟨v, hv, -⟩ := h.consolidations_le later
      (hqueue ▸ mem_append_right seen (.tail entry hrest))
    have hafter := (pairwise_cons.1 (pairwise_append.1 horder).2.1).1 later hrest
    exact ⟨v, hv, hafter source v hsource hv hunslashed⟩

end Registry.QueueOrder

/-- Every move keeps the order of the queues. -/
theorem RegistryMove.queueOrder {p : Phase} {r r' : Registry} (move : RegistryMove p r r')
    (h : r.QueueOrder) : r'.QueueOrder := by
  have hlife : ∀ (k : Nat) v, r.validators[k]? = some v →
      ∃ v', r'.validators[k]? = some v' ∧ Lifecycle r.slot.epoch v v' := by
    intro k v hv
    obtain ⟨v', hv', hmove⟩ := move.validator hv
    exact ⟨v', hv', hmove.lifecycle⟩
  cases move with
  | exit hi hmay hat => exact h.evolve rfl rfl hat.cursor_le le_rfl hlife
  | @queuePartial _ index amount exitEpoch withdrawableEpoch _ hat =>
    have hevolved : ({ r with earliestExitEpoch := exitEpoch } : Registry).QueueOrder :=
      h.evolve rfl rfl hat.cursor_le le_rfl hlife
    exact hevolved.pushPartial hat.withdrawable
  | @consolidate _ source target v exitEpoch withdrawableEpoch hv hmay hat =>
    have hevolved : ({ r with
        validators := r.validators.modify source.val fun v => { v with exitEpoch, withdrawableEpoch }
        earliestConsolidationEpoch := exitEpoch } : Registry).QueueOrder :=
      h.evolve rfl rfl le_rfl hat.cursor_le hlife
    have hsource : (r.validators.modify source.val fun v =>
        { v with exitEpoch, withdrawableEpoch })[source.val]? =
        some { v with exitEpoch, withdrawableEpoch } := by
      rw [getElem?_modify, hv]
      exact congrArg some (if_pos rfl)
    exact hevolved.pushConsolidation hsource hat.ne_farFuture hat.withdrawable
  | dropPartials => exact h.dropPartials _
  | dropConsolidations => exact h.dropConsolidations _
  | revise | slash | activate | rebalance | enter | queueDeposit | build | moveBuilderCursor
  | moveValidatorCursor | resetSlashings | rotate | settleDeposits =>
    exact h.evolve rfl rfl le_rfl le_rfl hlife

/-! ## Where the loops stop -/

namespace BeaconState

variable {s : BeaconState}

/-- The number of withdrawals at which the partial withdrawals of a payload stop. -/
def partialsLimit (prior : List Withdrawal) : Nat :=
  min (prior.length + maxPendingPartialsPerWithdrawalsSweep) (maxWithdrawalsPerPayload - 1)

/-- The loop over the partial withdrawals counts the entries before the one it stops at, and stops
only at one that is not due or at the limit. -/
theorem getPendingPartialWithdrawals_stops (first : WithdrawalIndex) (prior : List Withdrawal) :
    Ensures (s.getPendingPartialWithdrawals first prior) fun w =>
      w.processedCount.val = s.pendingPartialWithdrawals.toList.length ∨
      ∃ seen entry rest, s.pendingPartialWithdrawals.toList = seen ++ entry :: rest ∧
        w.processedCount.val = seen.length ∧
        (s.slot.epoch < entry.withdrawableEpoch ∨
          partialsLimit prior ≤ prior.length + w.withdrawals.length) := by
  unfold getPendingPartialWithdrawals
  refine .skip fun _ => .foldBreakM_cut
    (P := fun seen (w : WithdrawalSweep) => w.processedCount.val = seen.length)
    (Q := fun seen (entry : PendingPartialWithdrawal) (w : WithdrawalSweep) =>
      w.processedCount.val = seen.length ∧
      (s.slot.epoch < entry.withdrawableEpoch ∨
        partialsLimit prior ≤ prior.length + w.withdrawals.length)) ?_ rfl
  intro seen entry _ w hw
  have hcounted : ∀ w₁ w₂ : WithdrawalSweep, w₁.processedCount = w.processedCount →
      w₁.countOne = .ok w₂ → w₂.processedCount.val = (seen ++ [entry]).length := by
    intro w₁ w₂ hsame hw₂
    rw [(WithdrawalSweep.countOne_eq_ok hw₂).2.2, hsame, hw, length_append]
    rfl
  refine .dite (fun hstop => .pure ⟨hw, hstop⟩) fun _ => .skip fun v => .skip fun balance => ?_
  refine .ite ?_ ?_
  · refine .step fun w₁ hw₁ => .step fun w₂ hw₂ => .pure ?_
    exact hcounted w₁ w₂ (WithdrawalSweep.push_eq_ok hw₁).2.2 hw₂
  · refine .step fun w₁ hw₁ => .step fun w₂ hw₂ => .pure ?_
    cases hw₁
    exact hcounted w w₂ rfl hw₂

/-- The consolidations in `seen` are consumed, and only balances have changed. -/
def Consumed (s : BeaconState) (seen : List PendingConsolidation) (acc : BeaconState × Nat) :
    Prop :=
  acc.1.registry = s.registry ∧ acc.2 = seen.length

/-- The source of the entry is unslashed and not withdrawable by the given epoch. -/
def NotDue (s : BeaconState) (epoch : Epoch) (entry : PendingConsolidation) : Prop :=
  ∃ source, s.validators.get? entry.sourceIndex.val = some source ∧ source.slashed = false ∧
    epoch < source.withdrawableEpoch

theorem consolidationStep_cut (nextEpoch : Epoch) {seen : List PendingConsolidation}
    (entry : PendingConsolidation) {acc : BeaconState × Nat} (hacc : s.Consumed seen acc) :
    Ensures (consolidationStep nextEpoch acc entry)
      (Cut s.Consumed (fun seen entry acc => s.Consumed seen acc ∧ s.NotDue nextEpoch entry)
        seen entry) := by
  obtain ⟨t, consumed⟩ := acc
  obtain ⟨ht, hconsumed⟩ : t.registry = s.registry ∧ consumed = seen.length := hacc
  have hmore : consumed + 1 = (seen ++ [entry]).length := by
    rw [hconsumed, length_append]
    rfl
  unfold consolidationStep
  refine .lookup fun source hsource => ?_
  refine .dite (fun _ => .pure ⟨ht, hmore⟩) fun hslashed => .dite (fun hlater => .pure ?_) ?_
  · refine ⟨⟨ht, hconsumed⟩, source, ?_, by simpa using hslashed, hlater⟩
    have hvalidators : t.validators.toList = s.validators.toList := congrArg Registry.validators ht
    exact (congrArg (·[entry.sourceIndex.val]?) hvalidators).symm.trans hsource
  · intro _
    refine .skip fun balance => .bind (updateBalance_registry _ _) fun t₁ h₁ => ?_
    refine .bind (updateBalance_registry _ _) fun t₂ h₂ => .pure ?_
    exact ⟨h₂.trans (h₁.trans ht), hmore⟩

/-- The loop over the consolidations drops the entries before the one it stops at, and stops only
at an unslashed source that is not withdrawable in the next epoch. -/
theorem processPendingConsolidations_stops : Ensures s.processPendingConsolidations fun s' =>
    s'.validators.toList = s.validators.toList ∧ (s'.pendingConsolidations.toList = [] ∨
      ∃ nextEpoch seen entry rest, nextEpoch.val = s.slot.epoch.val + 1 ∧
        s.pendingConsolidations.toList = seen ++ entry :: rest ∧
        s'.pendingConsolidations.toList = entry :: rest ∧ s.NotDue nextEpoch entry) := by
  unfold processPendingConsolidations
  refine .bind (fun _ h => (Word.checkedAdd_eq_some.1 (okOr_eq_ok.1 h)).symm)
    fun nextEpoch hnext => ?_
  refine .bind (Ensures.foldBreakM_cut (fun _ entry _ _ => consolidationStep_cut nextEpoch entry)
    ⟨rfl, rfl⟩) fun ⟨t, consumed⟩ hcut => .pure ?_
  rcases hcut with ⟨ht, hconsumed⟩ | ⟨seen, entry, rest, hqueue, ⟨ht, hconsumed⟩, hlater⟩
  · exact ⟨congrArg Registry.validators ht, .inl (drop_eq_nil_of_le hconsumed.ge)⟩
  · refine ⟨congrArg Registry.validators ht, .inr ⟨nextEpoch, seen, entry, rest, hnext.symm, hqueue,
      ?_, hlater⟩⟩
    obtain rfl : consumed = seen.length := hconsumed
    show s.pendingConsolidations.toList.drop seen.length = _
    rw [hqueue, drop_left]

/-! ## What the order means for the loops -/

/-- The epochs that the unslashed sources of the queued consolidations wait for. -/
def unslashedSourceEpochs (s : BeaconState) : List Epoch :=
  s.pendingConsolidations.toList.filterMap fun entry =>
    ((s.validators.get? entry.sourceIndex.val).filter (!·.slashed)).map (·.withdrawableEpoch)

/-- Both queues are sorted, and what the two loops leave waits for a later epoch. -/
structure QueuesInOrder (s : BeaconState) : Prop where
  partials : s.pendingPartialWithdrawals.toList.Pairwise fun a b =>
    a.withdrawableEpoch ≤ b.withdrawableEpoch
  consolidations : s.unslashedSourceEpochs.Pairwise (· ≤ ·)
  /-- No partial withdrawal that is due is left behind one that is not. -/
  partials_left : ∀ first prior w, s.getPendingPartialWithdrawals first prior = .ok w →
    (s.pendingPartialWithdrawals.toList.drop w.processedCount.val).Pairwise fun a b =>
      b.withdrawableEpoch ≤ s.slot.epoch → a.withdrawableEpoch ≤ s.slot.epoch
  /-- One that is due is left only when the payload has no room for it. -/
  partials_full : ∀ first prior w, s.getPendingPartialWithdrawals first prior = .ok w →
    prior.length + w.withdrawals.length < partialsLimit prior →
    ∀ entry ∈ s.pendingPartialWithdrawals.toList.drop w.processedCount.val,
      s.slot.epoch < entry.withdrawableEpoch
  /-- No consolidation is left whose source is withdrawable in the next epoch. -/
  consolidations_left : ∀ s', s.processPendingConsolidations = .ok s' →
    ∀ entry ∈ s'.pendingConsolidations.toList, ∃ source,
      s'.validators.get? entry.sourceIndex.val = some source ∧
      s.slot.epoch.val + 1 < source.withdrawableEpoch.val

theorem queuesInOrder (h : s.registry.QueueOrder) : s.QueuesInOrder where
  partials := h.partials
  consolidations := by
    refine pairwise_filterMap.2 (h.consolidations.imp fun hab epoch hepoch epoch' hepoch' => ?_)
    obtain ⟨v, hv, rfl⟩ := Option.map_eq_some_iff.1 hepoch
    obtain ⟨w, hw, rfl⟩ := Option.map_eq_some_iff.1 hepoch'
    obtain ⟨hv, hunslashed⟩ := Option.filter_eq_some_iff.1 hv
    exact hab v w hv (Option.filter_eq_some_iff.1 hw).1 (by simpa using hunslashed)
  partials_left := by
    intro _ _ w _
    exact h.partials.drop.imp fun hab hdue => hab.trans hdue
  partials_full := by
    intro first prior w hw hroom entry hentry
    rcases getPendingPartialWithdrawals_stops first prior w hw with hall | ⟨seen, stop, rest, hqueue,
      hcount, hstop⟩
    · rw [hall, drop_length] at hentry
      cases hentry
    · have hlater : s.slot.epoch < stop.withdrawableEpoch :=
        hstop.resolve_right (Nat.not_le.2 hroom)
      have horder := h.partials
      rw [show s.registry.pendingPartialWithdrawals = seen ++ stop :: rest from hqueue] at horder
      rw [hqueue, hcount, drop_left] at hentry
      rcases mem_cons.1 hentry with rfl | hrest
      · exact hlater
      · exact hlater.trans_le
          ((pairwise_cons.1 (pairwise_append.1 horder).2.1).1 entry hrest)
  consolidations_left := by
    intro s' hs' entry hentry
    obtain ⟨hvalidators, hempty | ⟨nextEpoch, seen, stop, rest, hnext, hqueue, hleft, source,
      hsource, hunslashed, hlater⟩⟩ := processPendingConsolidations_stops s' hs'
    · rw [hempty] at hentry
      cases hentry
    · rw [hleft] at hentry
      obtain ⟨v, hv, hle⟩ := h.rest_le hqueue hsource hunslashed entry hentry
      refine ⟨v, (congrArg (·[entry.sourceIndex.val]?) hvalidators).trans hv, ?_⟩
      rw [← hnext]
      exact Fin.lt_def.1 (hlater.trans_le hle)

end BeaconState

/-! ## Whole runs -/

/-- From empty queues, the queues are in order after every run, and where the next block makes its
withdrawals and the next epoch its consolidations: the loops that stop at the first entry that is
not due leave no due entry behind it. -/
theorem queues_never_blocked [Crypto] {s s' : BeaconState} {events : List ChainEvent}
    (h : Runs s events s') (hpartials : s.pendingPartialWithdrawals.toList = [])
    (hconsolidations : s.pendingConsolidations.toList = []) :
    s'.QueuesInOrder ∧
      (∀ block next, ∀ phases : BeaconState.BlockPhases s' block next,
        phases.header.QueuesInOrder) ∧
      ∀ filed next, s'.processSlot = .ok filed → ∀ epoch : BeaconState.EpochMoves filed next,
        epoch.settled.QueuesInOrder := by
  have hstart : s.registry.QueueOrder := by
    have hnone : s.registry.pendingPartialWithdrawals = [] := hpartials
    have hnone' : s.registry.pendingConsolidations = [] := hconsolidations
    constructor <;> simp only [hnone, hnone', List.Pairwise.nil, not_mem_nil, false_imp_iff,
      implies_true]
  have hend : s'.registry.QueueOrder :=
    h.registry_inv RegistryMove.queueOrder (fun _ h => ⟨h.1, h.2, h.3, h.4⟩) hstart
  refine ⟨BeaconState.queuesInOrder hend, fun block next phases => ?_,
    fun filed next hfiled epoch => ?_⟩
  · have hmoves := BeaconState.beforeWithdrawals_moves phases.parent_eq phases.header_eq
    exact BeaconState.queuesInOrder (hmoves.inv RegistryMove.queueOrder hend)
  · rw [← BeaconState.processSlot_registry filed hfiled] at hend
    have hcharged := epoch.before.inv RegistryMove.queueOrder hend
    rw [← epoch.penalties] at hcharged
    exact BeaconState.queuesInOrder (epoch.deposits.inv RegistryMove.queueOrder hcharged)

end Moonglass

namespace Moonglass.Devnet

/-- From empty queues, requests of a payload queue two partial withdrawals and two consolidations,
the second of each due an epoch after the first. -/
theorem queues_never_blocked_stakeChild : ∃ events s', Runs stakers events s' ∧
    events.map (·.block) = [none, some stakeBlock, none, some stakeChild] ∧
    s'.pendingPartialWithdrawals.toList.map (·.withdrawableEpoch) = [325, 326] ∧
    s'.pendingConsolidations.toList.map (·.sourceIndex) = [1, 2] ∧ s'.QueuesInOrder := by
  have hcheck : followCheck (fun _ s =>
      s.pendingPartialWithdrawals.toList.map (·.withdrawableEpoch) = [325, 326] ∧
        s.pendingConsolidations.toList.map (·.sourceIndex) = [1, 2]) stakers
      [none, some stakeBlock, none, some stakeChild] = true := by decide +kernel
  obtain ⟨events, s', hruns, hblocks, hpartials, hconsolidations⟩ := followCheck_runs hcheck
  exact ⟨events, s', hruns, hblocks, hpartials, hconsolidations,
    (queues_never_blocked hruns rfl rfl).1⟩

end Moonglass.Devnet
