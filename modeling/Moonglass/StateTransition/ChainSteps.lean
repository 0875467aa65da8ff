import Moonglass.StateTransition.Chain

/-
  Whole blocks, epochs and slots: what they do to the registry, to the caps, and to the duties that
  the calendar assigns. A block writes the mix of its epoch and the bit of its parent's slot; the
  end of an epoch moves the windows on.
-/

namespace Moonglass

open Lib

variable [Preset] [Crypto]

namespace BeaconState

variable {s : BeaconState}

/-! ## Blocks -/

/-- What a block writes: the mix of its epoch, and the bit of its parent's slot. -/
structure BlockDuties (s : BeaconState) (block : BeaconBlock) (s' : BeaconState) : Prop where
  calendar : s'.calendarView = s.calendarView
  randao : ∃ mix, s'.randaoMixes = ringSet s.randaoMixes s.slot.epoch.val mix
  availability : s'.executionPayloadAvailability =
    if block.bid.parentBlockHash = s.latestExecutionPayloadBid.blockHash then
      ringSet s.executionPayloadAvailability s.latestExecutionPayloadBid.slot.val true
    else s.executionPayloadAvailability
  active : ∀ epoch : Epoch, epoch.val ≤ s.slot.epoch.val + maxSeedLookahead →
    ∀ i, s'.activeAt epoch i = s.activeAt epoch i

/-- What a block changes of the registry and of the duties. -/
structure BlockChanges (s : BeaconState) (block : BeaconBlock) (s' : BeaconState) : Prop where
  moves : Moves .block s s'
  capped : KeepsCapped s s'
  duties : BlockDuties s block s'

variable {block : BeaconBlock}

/-- The phases before the withdrawals make block moves. -/
theorem beforeWithdrawals_moves {parent header : BeaconState}
    (hparent : s.processParentExecutionPayload block = .ok parent)
    (hheader : parent.processBlockHeader block = .ok header) : Moves .block s header := by
  obtain ⟨applied, happlied, hparent⟩ := processParentExecutionPayload_changes _ _ hparent
  refine happlied.moves.trans (.of_eq ?_)
  rw [processBlockHeader_writes _ _ hheader]
  rcases hparent with ⟨-, rfl⟩ | ⟨-, rfl⟩ <;> rfl

variable {s' : BeaconState}

theorem processBlock_changes (h : s.processBlock block = .ok s') : BlockChanges s block s' := by
  obtain ⟨h⟩ := processBlock_phases h
  obtain ⟨applied, happlied, hparent⟩ := processParentExecutionPayload_changes _ _ h.parent_eq
  have hheader := processBlockHeader_writes _ _ h.header_eq
  have hbefore := (processWithdrawals_changes _ h.withdrawals_eq).trans
    (processExecutionPayloadBid_changes _ _ h.bid_eq)
  obtain ⟨mix, hmix⟩ := processRandao_mix _ _ h.randao_eq
  have heth1 := processEth1Data_writes _ _ h.eth1_eq
  have hafter := (processOperations_changes _ _ h.operations_eq).trans
    (processSyncAggregate_changes _ _ h.sync_eq)
  -- the writes between the changes leave the registry alone
  have hregistry : h.parent.registry = applied.registry := by
    rcases hparent with ⟨-, hp⟩ | ⟨-, hp⟩
    · rw [hp]
    · rw [hp]
      rfl
  have hregistry₁ : h.header.registry = applied.registry := by rw [hheader]; exact hregistry
  have hregistry₂ : h.eth1.registry = h.bid.registry := by rw [heth1, hmix]; rfl
  have hkept : KeepsDuties s applied := happlied.keeps
  have hmiddle : KeepsDuties h.header h.bid := hbefore.keeps
  have hend : KeepsDuties h.eth1 s' := hafter.keeps
  have hcalendar : h.header.calendarView = applied.calendarView := by
    rw [hheader]
    rcases hparent with ⟨-, hp⟩ | ⟨-, hp⟩ <;> rw [hp] <;> rfl
  have hslot : h.header.slot = s.slot := (congrArg CalendarView.slot hcalendar).trans hkept.slot
  have hbidSlot : h.bid.slot = s.slot := hmiddle.slot.trans hslot
  have heth1Slot : h.eth1.slot = s.slot := by rw [heth1, hmix]; exact hbidSlot
  refine ⟨?_, ?_, ?_, ⟨mix, ?_⟩, ?_, fun epoch hepoch i => ?_⟩
  · have hstart : Moves .block s h.header := happlied.moves.trans (.of_eq hregistry₁)
    exact ((hstart.trans hbefore.moves).trans (.of_eq hregistry₂)).trans hafter.moves
  · have hstart : KeepsCapped s h.header :=
      happlied.capped.trans (.of_validators (congrArg Registry.validators hregistry₁))
    have hmixed : KeepsCapped h.bid h.eth1 :=
      .of_validators (congrArg Registry.validators hregistry₂)
    exact ((hstart.trans hbefore.capped).trans hmixed).trans hafter.capped
  · have hmixed : h.eth1.calendarView = h.bid.calendarView := by rw [heth1, hmix]; rfl
    exact hend.calendar.trans (hmixed.trans (hmiddle.calendar.trans
      (hcalendar.trans hkept.calendar)))
  · have hmixes : h.header.randaoMixes = s.randaoMixes := by
      rw [hheader, ← hkept.randao]
      rcases hparent with ⟨-, hp⟩ | ⟨-, hp⟩ <;> rw [hp]
    rw [hend.randao, heth1, hmix, hmiddle.randao, hmixes, hbidSlot]
  · have hbits : s'.executionPayloadAvailability = h.parent.executionPayloadAvailability := by
      rw [hend.availability, heth1, hmix, hmiddle.availability, hheader]
    rw [hbits]
    rcases hparent with ⟨hempty, hp⟩ | ⟨hfull, hp⟩
    · rw [if_neg hempty, hp]
      exact hkept.availability
    · rw [if_pos hfull, hp, ← hkept.availability]
  · have hactive : h.header.activeAt epoch i = applied.activeAt epoch i := by
      rw [hheader]
      rcases hparent with ⟨-, hp⟩ | ⟨-, hp⟩ <;> rw [hp] <;> rfl
    have hmixed : h.eth1.activeAt epoch i = h.bid.activeAt epoch i := by rw [heth1, hmix]; rfl
    rw [hend.active epoch (heth1Slot ▸ hepoch), hmixed, hmiddle.active epoch (hslot ▸ hepoch),
      hactive, hkept.active epoch hepoch]

/-- A block makes block moves only. -/
theorem processBlock_registryMoves
    (h : s.processBlock block = .ok s') : Moves .block s s' := (processBlock_changes h).moves

theorem processBlock_duties
    (h : s.processBlock block = .ok s') : BlockDuties s block s' := (processBlock_changes h).duties

/-! ## Epochs -/

/-- The summaries after the end of an epoch: at the end of a period the roots filed by then are
summarised. -/
def SummariesUpdated (s s' : BeaconState) : Prop :=
  (s.slot.epoch.val + 1) % (slotsPerHistoricalRoot / slotsPerEpoch) ≠ 0 ∧
      s'.historicalSummaries = s.historicalSummaries ∨
    (s.slot.epoch.val + 1) % (slotsPerHistoricalRoot / slotsPerEpoch) = 0 ∧
      s'.historicalSummaries.toList = s.historicalSummaries.toList ++
        [⟨Crypto.rootsRoot s'.blockRoots, Crypto.rootsRoot s'.stateRoots⟩]

theorem SummariesUpdated.of_calendar {s s' s₁ s₁' : BeaconState} (h : SummariesUpdated s₁ s₁')
    (hs : s₁.calendarView = s.calendarView) (hs' : s'.calendarView = s₁'.calendarView) :
    SummariesUpdated s s' := by
  have hslot : s₁.slot = s.slot := congrArg CalendarView.slot hs
  have hbefore : s₁.historicalSummaries = s.historicalSummaries :=
    congrArg CalendarView.historicalSummaries hs
  have hafter : s'.historicalSummaries = s₁'.historicalSummaries :=
    congrArg CalendarView.historicalSummaries hs'
  have hblocks : s'.blockRoots = s₁'.blockRoots := congrArg CalendarView.blockRoots hs'
  have hstates : s'.stateRoots = s₁'.stateRoots := congrArg CalendarView.stateRoots hs'
  unfold SummariesUpdated at h ⊢
  rw [← hslot, ← hbefore, hafter, hblocks, hstates]
  exact h

theorem processHistoricalSummariesUpdate_updates :
    Ensures s.processHistoricalSummariesUpdate (SummariesUpdated s) := by
  unfold processHistoricalSummariesUpdate
  refine .dite (fun h => .pure (.inl ⟨h, rfl⟩)) fun h => ?_
  refine .found BoundedList.push_eq_some.1 fun summaries hpush => ?_
  exact .pure (.inr ⟨not_not.1 h, hpush.2⟩)

/-- Epoch processing up to the slashing penalties. -/
def beforeSlashings (s : BeaconState) : Transition BeaconState := do
  let s ← s.processJustificationAndFinalization
  let s ← s.processInactivityUpdates
  let s ← s.processRewardsAndPenalties
  s.processRegistryUpdates

/-- Epoch processing after the pending deposits. -/
def afterPendingDeposits (s : BeaconState) : Transition BeaconState := do
  let s ← s.processPendingConsolidations
  let s ← s.processBuilderPendingPayments
  let s ← s.processEffectiveBalanceUpdates
  let s ← s.processSlashingsReset.processRandaoMixesReset.processHistoricalSummariesUpdate
  let s ← s.processParticipationFlagUpdates
  let s ← s.processSyncCommitteeUpdates
  let s ← s.processProposerLookahead
  s.processPtcWindow

/-- Epoch processing around the slashing penalties and the pending deposits. -/
theorem processEpoch_cut : s.processEpoch = (do
    let charged ← s.beforeSlashings
    let punished ← charged.processSlashings
    let settled ← punished.processEth1DataReset.processPendingDeposits
    settled.afterPendingDeposits) := by
  unfold processEpoch beforeSlashings afterPendingDeposits
  simp only [bind_assoc]

/-- The states of an epoch around its slashing penalties and its deposits, with the moves between
them. -/
structure EpochMoves (s s' : BeaconState) where
  charged : BeaconState
  punished : BeaconState
  settled : BeaconState
  before_eq : s.beforeSlashings = .ok charged
  slashings_eq : charged.processSlashings = .ok punished
  deposits_eq : punished.processEth1DataReset.processPendingDeposits = .ok settled
  before : Moves .epoch s charged
  penalties : punished.processEth1DataReset.registry = charged.registry
  deposits : Moves .deposits punished.processEth1DataReset settled
  after : Moves .epoch settled s'

/-- The states of an epoch around what it writes beyond the changes of its phases. -/
structure EpochSteps (s s' : BeaconState) where
  charged : BeaconState
  punished : BeaconState
  settled : BeaconState
  updated : BeaconState
  summarised : BeaconState
  synced : BeaconState
  before_eq : s.beforeSlashings = .ok charged
  slashings_eq : charged.processSlashings = .ok punished
  deposits_eq : punished.processEth1DataReset.processPendingDeposits = .ok settled
  after_eq : settled.afterPendingDeposits = .ok s'
  before : ∃ justified, s.processJustificationAndFinalization = .ok justified ∧
    Changes .registry .epoch justified charged
  penalties : Changes .registry .epoch charged punished
  deposits : Changes .votes .deposits punished.processEth1DataReset settled
  updates : Changes .votes .epoch settled updated
  summaries : SummariesUpdated updated.processSlashingsReset.processRandaoMixesReset summarised
  summarised_eq : summarised = { updated.processSlashingsReset.processRandaoMixesReset with
    historicalSummaries := summarised.historicalSummaries }
  rotation : Changes .votes .epoch summarised synced
  result : ∃ lookahead window, s' = { synced with
    proposerLookahead := shiftWindow synced.proposerLookahead slotsPerEpoch lookahead
    ptcWindow := shiftWindow synced.ptcWindow slotsPerEpoch window }

omit [Crypto] in
theorem beforeSlashings_changes : Ensures s.beforeSlashings fun charged =>
    ∃ justified, s.processJustificationAndFinalization = .ok justified ∧
      Changes .registry .epoch justified charged := by
  unfold beforeSlashings
  refine .step fun justified hjustified => Ensures.imp (Q := Changes .registry .epoch
    justified) ?_ fun _ h => ⟨justified, hjustified, h⟩
  refine Changes.bind processInactivityUpdates_changes fun s₂ => ?_
  exact Changes.bind processRewardsAndPenalties_changes fun s₃ => processRegistryUpdates_changes

theorem processEpoch_steps (h : s.processEpoch = .ok s') : Nonempty (EpochSteps s s') := by
  rw [processEpoch_cut] at h
  simp only [bind_eq_ok] at h
  obtain ⟨charged, hcharged, punished, hpunished, settled, hsettled, h⟩ := h
  have hafter := h
  unfold afterPendingDeposits at h
  simp only [bind_eq_ok] at h
  obtain ⟨consolidated, hconsolidated, paid, hpaid, updated, hupdated, summarised, hsummarised,
    rotated, hrotated, synced, hsynced, looked, hlooked, h⟩ := h
  obtain ⟨lookahead, hlooked⟩ := processProposerLookahead_shifts _ hlooked
  obtain ⟨window, hs'⟩ := processPtcWindow_shifts _ h
  have hpayments := (processBuilderPendingPayments_changes _ hpaid).toVotes
  exact ⟨{
    charged, punished, settled, updated, summarised, synced
    before_eq := hcharged
    slashings_eq := hpunished
    deposits_eq := hsettled
    after_eq := hafter
    before := beforeSlashings_changes _ hcharged
    penalties := processSlashings_changes _ hpunished
    deposits := processPendingDeposits_changes _ hsettled
    updates := ((processPendingConsolidations_changes _ hconsolidated).trans hpayments).trans
      (processEffectiveBalanceUpdates_changes _ hupdated)
    summaries := processHistoricalSummariesUpdate_updates _ hsummarised
    summarised_eq := processHistoricalSummariesUpdate_writes _ hsummarised
    rotation := (processParticipationFlagUpdates_changes _ hrotated).trans
      (processSyncCommitteeUpdates_changes _ hsynced)
    result := ⟨lookahead, window, by rw [hs', hlooked]⟩ }⟩

namespace EpochSteps

variable {s' : BeaconState}

theorem afterMoves (h : EpochSteps s s') : Moves .epoch h.settled s' := by
  have hreset : Moves .epoch h.updated h.updated.processSlashingsReset.processRandaoMixesReset :=
    .single .resetSlashings rfl
  have hsummaries : h.summarised.registry =
      h.updated.processSlashingsReset.processRandaoMixesReset.registry :=
    (congrArg BeaconState.registry h.summarised_eq).trans rfl
  obtain ⟨lookahead, window, hs'⟩ := h.result
  have hwindows : s'.registry = h.synced.registry :=
    (congrArg BeaconState.registry hs').trans rfl
  exact (((h.updates.moves.trans hreset).trans (.of_eq hsummaries)).trans h.rotation.moves).trans
    (.of_eq hwindows)

def moves (h : EpochSteps s s') : EpochMoves s s' where
  charged := h.charged
  punished := h.punished
  settled := h.settled
  before_eq := h.before_eq
  slashings_eq := h.slashings_eq
  deposits_eq := h.deposits_eq
  before := by
    obtain ⟨justified, hjustified, hbefore⟩ := h.before
    have hstart : Moves .epoch s justified := by
      rw [processJustificationAndFinalization_writes _ hjustified]
      exact .of_eq rfl
    exact hstart.trans hbefore.moves
  penalties := (processEth1DataReset_registry _).trans (processSlashings_registry _ h.slashings_eq)
  deposits := h.deposits.moves
  after := h.afterMoves

theorem capped (h : EpochSteps s s') : KeepsCapped s s' := by
  obtain ⟨justified, hjustified, hbefore⟩ := h.before
  have hstart : KeepsCapped s justified := by
    rw [processJustificationAndFinalization_writes _ hjustified]
    exact .of_validators rfl
  have hreset : KeepsCapped h.punished h.punished.processEth1DataReset :=
    .of_validators (congrArg Registry.validators (processEth1DataReset_registry _))
  have hsummaries : KeepsCapped h.updated h.summarised := by
    rw [h.summarised_eq]
    exact .of_validators rfl
  obtain ⟨lookahead, window, hs'⟩ := h.result
  have hwindows : KeepsCapped h.synced s' :=
    .of_validators (congrArg (fun t => t.registry.validators) hs')
  have hcharged := (hstart.trans hbefore.capped).trans (h.penalties.capped.trans hreset)
  have hupdated := (hcharged.trans h.deposits.capped).trans h.updates.capped
  exact ((hupdated.trans hsummaries).trans h.rotation.capped).trans hwindows

end EpochSteps

/-- Every epoch makes its moves. -/
theorem processEpoch_registryMoves (h : s.processEpoch = .ok s') : Nonempty (EpochMoves s s') := by
  obtain ⟨steps⟩ := processEpoch_steps h
  exact ⟨steps.moves⟩

/-- What the end of an epoch writes: the summaries, the mix of the next epoch and the two windows,
which move on by an epoch. -/
structure EpochDuties (s s' : BeaconState) : Prop where
  slot : s'.slot = s.slot
  blockRoots : s'.blockRoots = s.blockRoots
  stateRoots : s'.stateRoots = s.stateRoots
  summaries : SummariesUpdated s s'
  lookahead : ∃ tail, s'.proposerLookahead = shiftWindow s.proposerLookahead slotsPerEpoch tail
  ptcWindow : ∃ tail, s'.ptcWindow = shiftWindow s.ptcWindow slotsPerEpoch tail
  randao : s'.randaoMixes = ringSet s.randaoMixes (s.slot.epoch.val + 1)
    (ringGet s.randaoMixes s.slot.epoch.val)
  availability : s'.executionPayloadAvailability = s.executionPayloadAvailability
  active : ∀ epoch : Epoch, epoch.val ≤ s.slot.epoch.val + maxSeedLookahead →
    ∀ i, s'.activeAt epoch i = s.activeAt epoch i

theorem processEpoch_duties (h : s.processEpoch = .ok s') : EpochDuties s s' := by
  obtain ⟨h⟩ := processEpoch_steps h
  obtain ⟨justified, hjustified, hcharged⟩ := h.before
  have hstart : KeepsDuties s justified := by
    rw [processJustificationAndFinalization_writes _ hjustified]
    exact ⟨rfl, rfl, rfl, fun _ _ _ => rfl⟩
  have hreset : KeepsDuties h.punished h.punished.processEth1DataReset := by
    rw [processEth1DataReset_eq]
    exact ⟨rfl, rfl, rfl, fun _ _ _ => rfl⟩
  have hbefore : KeepsDuties s h.updated := (((hstart.trans hcharged.keeps).trans
    (h.penalties.keeps.trans hreset)).trans h.deposits.keeps).trans h.updates.keeps
  have hafter := h.rotation.keeps
  obtain ⟨lookahead, window, hs'⟩ := h.result
  have hcalendar : h.synced.calendarView = { s.calendarView with
      historicalSummaries := h.summarised.historicalSummaries } := by
    rw [hafter.calendar, ← hbefore.calendar]
    exact congrArg calendarView h.summarised_eq
  have hslot : h.summarised.slot = s.slot :=
    (congrArg BeaconState.slot h.summarised_eq).trans hbefore.slot
  rw [hs']
  refine ⟨congrArg CalendarView.slot hcalendar, congrArg CalendarView.blockRoots hcalendar,
    congrArg CalendarView.stateRoots hcalendar, ?_, ⟨lookahead, ?_⟩, ⟨window, ?_⟩, ?_, ?_,
    fun epoch hepoch i => ?_⟩
  · show SummariesUpdated s h.synced
    exact h.summaries.of_calendar hbefore.calendar hafter.calendar
  · exact congrArg (shiftWindow · slotsPerEpoch lookahead)
      (congrArg CalendarView.proposerLookahead hcalendar)
  · exact congrArg (shiftWindow · slotsPerEpoch window)
      (congrArg CalendarView.ptcWindow hcalendar)
  · show h.synced.randaoMixes = _
    rw [hafter.randao, congrArg BeaconState.randaoMixes h.summarised_eq, ← hbefore.randao,
      ← hbefore.slot]
    rfl
  · exact hafter.availability.trans ((congrArg BeaconState.executionPayloadAvailability
      h.summarised_eq).trans hbefore.availability)
  · show h.synced.activeAt epoch i = _
    rw [hafter.active epoch (hslot.symm ▸ hepoch) i, ← hbefore.active epoch hepoch i,
      congrArg (fun t => BeaconState.activeAt t epoch i) h.summarised_eq]
    rfl

/-! ## Slots -/

/-- What one turn of the slot loop writes of the duties: it files the state root and clears the
bit of the next slot; the end of an epoch moves the windows on. -/
structure SlotDuties (s s' : BeaconState) : Prop where
  stateRoots : s'.stateRoots = ringSet s.stateRoots s.slot.val s.treeRoot
  availability : s'.executionPayloadAvailability =
    ringSet s.executionPayloadAvailability (s.slot.val + 1) false
  active : ∀ epoch : Epoch, epoch.val ≤ s.slot.epoch.val + maxSeedLookahead →
    ∀ i, s'.activeAt epoch i = s.activeAt epoch i
  inner : s'.slot.val % slotsPerEpoch ≠ 0 → s'.historicalSummaries = s.historicalSummaries ∧
    s'.proposerLookahead = s.proposerLookahead ∧ s'.ptcWindow = s.ptcWindow ∧
    s'.randaoMixes = s.randaoMixes
  boundary : s'.slot.val % slotsPerEpoch = 0 → SummariesUpdated s s' ∧
    (∃ tail, s'.proposerLookahead = shiftWindow s.proposerLookahead slotsPerEpoch tail) ∧
    (∃ tail, s'.ptcWindow = shiftWindow s.ptcWindow slotsPerEpoch tail) ∧
    s'.randaoMixes = ringSet s.randaoMixes (s.slot.epoch.val + 1)
      (ringGet s.randaoMixes s.slot.epoch.val)

theorem processSlot_writes : Ensures s.processSlot fun s' => s' = { s with
    stateRoots := ringSet s.stateRoots s.slot.val s.treeRoot
    latestBlockHeader := s.filledHeader
    blockRoots := ringSet s.blockRoots s.slot.val s.filledHeader.treeRoot
    executionPayloadAvailability :=
      ringSet s.executionPayloadAvailability (s.slot.val + 1) false } := by
  unfold processSlot checkedNextSlot
  refine .found Word.checkedAdd_eq_some.1 fun next hnext => .pure ?_
  rw [hnext]
  rfl

theorem processSlot_registry : Ensures s.processSlot fun s' => s'.registry = s.registry := by
  refine processSlot_writes.imp fun s' h => ?_
  rw [h]
  rfl

/-- What a turn of the slot loop does to the registry: within an epoch only the slot moves on, and
at the end of an epoch the epoch makes its moves before. -/
theorem advanceSlot_registry (h : s.advanceSlot = .ok s') : s'.slot.val = s.slot.val + 1 ∧
      (s'.slot.val % slotsPerEpoch ≠ 0 ∧ s'.registry = { s.registry with slot := s'.slot } ∨
        s'.slot.val % slotsPerEpoch = 0 ∧ ∃ filed next, s.processSlot = .ok filed ∧
          filed.registry = s.registry ∧ filed.processEpoch = .ok next ∧
          s'.registry = { next.registry with slot := s'.slot }) := by
  obtain ⟨filed, next, hfiled, hs', hslot, hparts⟩ := advanceSlot_parts h
  have hregistry := processSlot_registry filed hfiled
  refine ⟨hslot, ?_⟩
  rcases hparts with ⟨hinner, rfl⟩ | ⟨hboundary, hepoch⟩
  · refine .inl ⟨hinner, ?_⟩
    rw [← hregistry]
    exact congrArg registry hs'
  · exact .inr ⟨hboundary, filed, next, hfiled, hregistry, hepoch, congrArg registry hs'⟩

theorem advanceSlot_duties (h : s.advanceSlot = .ok s') : SlotDuties s s' := by
  obtain ⟨filed, next, hfiled, hs', -, hparts⟩ := advanceSlot_parts h
  have hfiled := processSlot_writes filed hfiled
  obtain ⟨hinner, rfl⟩ | ⟨hboundary, hepoch⟩ := hparts
  · rw [hs'] at hinner ⊢
    rw [hfiled]
    exact ⟨rfl, rfl, fun _ _ _ => rfl, fun _ => ⟨rfl, rfl, rfl, rfl⟩, fun h => absurd h hinner⟩
  · have hepoch := processEpoch_duties hepoch
    rw [hfiled] at hepoch
    rw [hs'] at hboundary ⊢
    exact ⟨hepoch.stateRoots, hepoch.availability, hepoch.active, fun h => absurd hboundary h,
      fun _ => ⟨hepoch.summaries, hepoch.lookahead, hepoch.ptcWindow, hepoch.randao⟩⟩

end BeaconState

end Moonglass
