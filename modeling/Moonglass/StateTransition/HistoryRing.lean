import Moonglass.StateTransition.Runs

/-
  The rings of past roots. Along a chain, every slot files the root of the last block and of the
  state it leaves, and once in `slotsPerHistoricalRoot` slots the two rings are summarised. So the
  ring of block roots answers, for every slot that is still in it, which block was the last one,
  and a summary commits to the roots of its period in slot order.
-/

namespace Moonglass

open Lib

variable [Preset] [Crypto]

/-- The root of the last block of the chain at a slot up to `t`; before the first block it is that
of the block the chain starts from. -/
def lastRoot (start : BeaconState) (events : List ChainEvent) (t : Nat) : Root :=
  (((blocksOf events).filter fun b => b.slot.val ≤ t).getLast?.map BeaconBlock.treeRoot).getD
    start.currentBlockRoot

/-- The chain left slot `t` in a state with this root. -/
def Left (events : List ChainEvent) (t : Nat) (r : Root) : Prop :=
  ∃ e ∈ events, e.block = none ∧ e.before.slot.val = t ∧ r = e.before.treeRoot

/-! ## The last block -/

section LastRoot

variable {start : BeaconState} {events later : List ChainEvent} {e : ChainEvent} {b : BeaconBlock}
  {t : Nat}

/-- Blocks after slot `t` have no part in it. -/
theorem lastRoot_append (h : ∀ b ∈ blocksOf later, t < b.slot.val) :
    lastRoot start (events ++ later) t = lastRoot start events t := by
  have hnone : ((blocksOf later).filter fun b => b.slot.val ≤ t) = [] :=
    List.filter_eq_nil_iff.2 fun b hb => by simpa using h b hb
  unfold lastRoot
  rw [blocksOf_append, List.filter_append, hnone, List.append_nil]

theorem lastRoot_append_block (he : e.block = some b) (ht : b.slot.val ≤ t) :
    lastRoot start (events ++ [e]) t = b.treeRoot := by
  have hlast : blocksOf [e] = [b] := by unfold blocksOf; simp [he]
  unfold lastRoot
  rw [blocksOf_append, List.filter_append, hlast]
  simp [ht]

/-- Past the last block, the last root does not change. -/
theorem lastRoot_eq_of_le {t' : Nat} (h : ∀ b ∈ blocksOf events, b.slot.val ≤ t) (ht : t ≤ t') :
    lastRoot start events t' = lastRoot start events t := by
  have hall : ∀ k, t ≤ k → ((blocksOf events).filter fun b => b.slot.val ≤ k) = blocksOf events :=
    fun k hk => List.filter_eq_self.2 fun b hb => by simpa using (h b hb).trans hk
  unfold lastRoot
  rw [hall t' ht, hall t le_rfl]

end LastRoot

/-! ## Steps and runs -/

/-- The rings of `s` hold what the chain so far has filed, and `s` knows its last block. -/
structure Filed (start : BeaconState) (events : List ChainEvent) (s : BeaconState) : Prop where
  start_le : start.slot.val ≤ s.slot.val
  past : ∀ b ∈ blocksOf events, b.slot.val ≤ s.slot.val
  tip : s.filledHeader.treeRoot = lastRoot start events s.slot.val
  blockRoots : Holds s.blockRoots (fun t r => r = lastRoot start events t) start.slot.val s.slot.val
  stateRoots : Holds s.stateRoots (Left events) start.slot.val s.slot.val

namespace Filed

variable {start s s' : BeaconState} {events : List ChainEvent} {block : BeaconBlock}

theorem refl (hpost : start.latestBlockHeader.stateRoot = Root.ZERO) : Filed start [] start where
  start_le := le_rfl
  past _ hb := absurd hb List.not_mem_nil
  tip := by
    rw [BeaconState.filledHeader, if_pos hpost]
    rfl
  blockRoots := .start _ _ _
  stateRoots := .start _ _ _

theorem left_append {later : List ChainEvent} {t : Nat} {r : Root} (h : Left events t r) :
    Left (events ++ later) t r := by
  obtain ⟨e, he, h⟩ := h
  exact ⟨e, List.mem_append_left _ he, h⟩

/-- A slot files the last root, and the header it leaves is filled in for good. -/
theorem slotStep (h : Filed start events s) (hzero : s.treeRoot ≠ Root.ZERO)
    (hadvance : s.advanceSlot = .ok s') : Filed start (events ++ [⟨s, none, s'⟩]) s' := by
  have hslot := BeaconState.advanceSlot_effect s' hadvance
  have hduties := BeaconState.advanceSlot_duties hadvance
  have hsame : ∀ t, lastRoot start (events ++ [⟨s, none, s'⟩]) t = lastRoot start events t :=
    fun t => lastRoot_append fun b hb => absurd hb List.not_mem_nil
  have hblocks : blocksOf (events ++ [⟨s, none, s'⟩]) = blocksOf events := by
    rw [blocksOf_append]
    exact List.append_nil _
  have hfilled : s'.filledHeader = s.filledHeader := by
    rw [BeaconState.filledHeader_eq_self
      (hslot.header ▸ BeaconState.filledHeader_stateRoot_ne hzero), hslot.header]
  have hbefore := h.start_le
  constructor
  · rw [hslot.slot]
    omega
  · intro b hb
    rw [hblocks] at hb
    rw [hslot.slot]
    exact (h.past b hb).trans (Nat.le_succ _)
  · rw [hfilled, h.tip, hsame, hslot.slot]
    exact (lastRoot_eq_of_le h.past (Nat.le_succ _)).symm
  · rw [hslot.blockRoots, hslot.slot]
    exact (h.blockRoots.imp fun t r _ hr => hr.trans (hsame t).symm).write
      (h.tip.trans (hsame _).symm)
  · rw [hduties.stateRoots, hslot.slot]
    refine (h.stateRoots.imp fun _ _ _ => left_append).write ?_
    exact ⟨_, List.mem_append_right _ List.mem_cons_self, rfl, rfl, rfl⟩

/-- A block becomes the last one; what is filed is from before it. -/
theorem blockStep (h : Filed start events s) (hblock : s.processBlock block = .ok s')
    (hroot : block.stateRoot = s'.treeRoot) : Filed start (events ++ [⟨s, some block, s'⟩]) s' := by
  have hchain := BeaconState.processBlock_chain block s' hblock
  have hduties := BeaconState.processBlock_duties hblock
  have hslot : s'.slot.val = s.slot.val := congrArg Fin.val hchain.slot
  have hblockSlot : block.slot.val = s.slot.val := congrArg Fin.val hchain.slot_eq
  have hblocks : blocksOf (events ++ [⟨s, some block, s'⟩]) = blocksOf events ++ [block] := by
    rw [blocksOf_append]
    rfl
  constructor
  · rw [hslot]
    exact h.start_le
  · intro b hb
    rw [hblocks] at hb
    rw [hslot]
    rcases List.mem_append.1 hb with hb | hb
    · exact h.past b hb
    · rw [List.mem_singleton.1 hb, hblockSlot]
  · have hfilled : s'.filledHeader = block.header block.body.treeRoot block.stateRoot := by
      rw [BeaconState.filledHeader, hchain.header, hroot]
      rfl
    rw [hfilled, lastRoot_append_block rfl (by omega), block.treeRoot_eq_header]
  · rw [hchain.blockRoots, hslot]
    refine h.blockRoots.imp fun t r ht hr => ?_
    rw [lastRoot_append, hr]
    intro b hb
    rw [List.mem_singleton.1 (show b ∈ [block] from hb), hblockSlot]
    exact ht
  · have hstates : s'.stateRoots = s.stateRoots :=
      congrArg CalendarView.stateRoots hduties.calendar
    rw [hstates, hslot]
    exact h.stateRoots.imp fun _ _ _ => left_append

end Filed

section Runs

variable {start s s' : BeaconState} {before events : List ChainEvent}

theorem Runs.filed (h : Runs s events s') (hfiled : Filed start before s) (hsealed : Sealed events)
    (hzero : ∀ e ∈ events, e.before.treeRoot ≠ Root.ZERO) : Filed start (before ++ events) s' := by
  induction h generalizing before with
  | nil => rwa [List.append_nil]
  | @cons e es s' head tail ih =>
    obtain ⟨s₀, block, s₁⟩ := e
    have hnext : Filed start (before ++ [⟨s₀, block, s₁⟩]) s₁ := by
      cases block with
      | none => exact hfiled.slotStep (hzero _ List.mem_cons_self) head
      | some block => exact hfiled.blockStep head (hsealed _ List.mem_cons_self block rfl)
    have := ih hnext (fun e he => hsealed e (.tail _ he)) fun e he => hzero e (.tail _ he)
    rwa [List.append_assoc, List.singleton_append] at this

end Runs

/-! ## Summaries -/

/-- The event ends period `period` and appends its summary. If the period began after the start of
the chain, the summary commits to the last block root and the state root of each of its slots, in
slot order. -/
structure SummarisesPeriod (start : BeaconState) (events : List ChainEvent) (e : ChainEvent)
    (period : Nat) : Prop where
  slot : e.block = none
  last : e.after.slot.val = (period + 1) * slotsPerHistoricalRoot
  appended : ∃ blockRoots stateRoots : Vector Root slotsPerHistoricalRoot,
    e.after.historicalSummaries.toList = e.before.historicalSummaries.toList ++
      [⟨Crypto.rootsRoot blockRoots, Crypto.rootsRoot stateRoots⟩] ∧
    (start.slot.val ≤ period * slotsPerHistoricalRoot → ∀ i : Fin slotsPerHistoricalRoot,
      blockRoots[i] = lastRoot start events (period * slotsPerHistoricalRoot + i.val) ∧
      Left events (period * slotsPerHistoricalRoot + i.val) stateRoots[i])

/-- Blocks after the period have no part in its summary. -/
theorem SummarisesPeriod.extend {start : BeaconState} {events later : List ChainEvent}
    {e : ChainEvent} {period : Nat} (h : SummarisesPeriod start events e period)
    (hlater : ∀ b ∈ blocksOf later, e.after.slot.val ≤ b.slot.val) :
    SummarisesPeriod start (events ++ later) e period := by
  obtain ⟨blockRoots, stateRoots, happended, hroots⟩ := h.appended
  refine ⟨h.slot, h.last, blockRoots, stateRoots, happended, fun hstart i => ?_⟩
  obtain ⟨hblock, hstate⟩ := hroots hstart i
  refine ⟨?_, Filed.left_append hstate⟩
  rw [lastRoot_append, hblock]
  intro b hb
  have hlast := h.last
  rw [Nat.succ_mul] at hlast
  have := hlater b hb
  have := i.isLt
  omega

omit [Crypto] in
theorem epochs_in_period :
    slotsPerEpoch * (slotsPerHistoricalRoot / slotsPerEpoch) = slotsPerHistoricalRoot := by
  unfold slotsPerHistoricalRoot slotsPerEpoch pick
  split <;> rfl

omit [Preset] [Crypto] in
theorem ringGet_period {α : Type} {n : Nat} [NeZero n] (v : Vector α n) (period : Nat)
    (i : Fin n) : ringGet v (period * n + i.val) = v[i] := by
  have hmod : (period * n + i.val) % n = i.val := by
    rw [Nat.mul_add_mod_self_right, Nat.mod_eq_of_lt i.isLt]
  unfold ringGet
  simp only [hmod]
  rfl

namespace BeaconState

variable {start s s' : BeaconState} {events : List ChainEvent}

/-- A slot that appends a summary ends a period. -/
theorem SlotDuties.period (h : SlotDuties s s') (hslot : s'.slot.val = s.slot.val + 1) :
    s'.historicalSummaries = s.historicalSummaries ∨
      (∃ period, s'.slot.val = (period + 1) * slotsPerHistoricalRoot) ∧
        s'.historicalSummaries.toList = s.historicalSummaries.toList ++
          [⟨Crypto.rootsRoot s'.blockRoots, Crypto.rootsRoot s'.stateRoots⟩] := by
  by_cases hinner : s'.slot.val % slotsPerEpoch = 0
  · rcases (h.boundary hinner).1 with ⟨-, hsame⟩ | ⟨hperiod, happended⟩
    · exact .inl hsame
    refine .inr ⟨?_, happended⟩
    -- the slot is a multiple of the epoch, and its epoch one of the epochs in a period
    have hepoch : (s.slot.val + 1) / slotsPerEpoch = s.slot.epoch.val + 1 := by
      rw [hslot] at hinner
      rw [Nat.succ_div, if_pos (Nat.dvd_of_mod_eq_zero hinner)]
      rfl
    obtain ⟨k, hk⟩ := Nat.dvd_of_mod_eq_zero hperiod
    have hmul : s'.slot.val = k * slotsPerHistoricalRoot := by
      rw [← Nat.div_add_mod s'.slot.val slotsPerEpoch, hinner, hslot, hepoch, hk, Nat.add_zero,
        ← Nat.mul_assoc, epochs_in_period, Nat.mul_comm]
    cases k with
    | zero => omega
    | succ k => exact ⟨k, hmul⟩
  · exact .inl (h.inner hinner).1

/-- What a run appends to the summaries, one event at a time. -/
theorem Filed.summarises {e : ChainEvent} (hfiled : Filed start events e.after)
    (haccepted : e.Accepted) : e.after.historicalSummaries = e.before.historicalSummaries ∨
      ∃ period, SummarisesPeriod start events e period := by
  obtain ⟨s, block, s'⟩ := e
  cases block with
  | some block =>
    exact .inl (congrArg CalendarView.historicalSummaries (processBlock_duties haccepted).calendar)
  | none =>
    have hslot : s'.slot.val = s.slot.val + 1 := (advanceSlot_effect s' haccepted).slot
    rcases (advanceSlot_duties haccepted).period hslot with hsame | ⟨⟨period, hperiod⟩, happended⟩
    · exact .inl hsame
    refine .inr ⟨period, rfl, hperiod, s'.blockRoots, s'.stateRoots, happended, fun hstart i => ?_⟩
    have hi := i.isLt
    have hlt : period * slotsPerHistoricalRoot + i.val < s'.slot.val := by
      rw [hperiod, Nat.succ_mul]
      omega
    have hring : s'.slot.val ≤ period * slotsPerHistoricalRoot + i.val + slotsPerHistoricalRoot := by
      rw [hperiod, Nat.succ_mul]
      omega
    have hblock := hfiled.blockRoots _ (by omega) hlt hring
    have hstate := hfiled.stateRoots _ (by omega) hlt hring
    rw [ringGet_period] at hblock hstate
    exact ⟨hblock, hstate⟩

/-- Along a chain from a post-state, the ring of block roots holds, for every slot of the chain
that is still in it, the root of the last block up to that slot; and a summary that the chain
appends commits to the roots of its period, when the period lies inside the chain. -/
theorem history_ring (hpost : s.latestBlockHeader.stateRoot = Root.ZERO) (h : Runs s events s')
    (hsealed : Sealed events) (hzero : ∀ e ∈ events, e.before.treeRoot ≠ Root.ZERO) :
    (∀ t, s.slot.val ≤ t → t < s'.slot.val → s'.slot.val ≤ t + slotsPerHistoricalRoot →
      ringGet s'.blockRoots t = lastRoot s events t) ∧
    ∀ e ∈ events, e.after.historicalSummaries = e.before.historicalSummaries ∨
      ∃ period, SummarisesPeriod s events e period := by
  constructor
  · exact (h.filed (.refl hpost) hsealed hzero).blockRoots
  · intro e he
    obtain ⟨earlier, later, rfl⟩ := List.append_of_mem he
    rw [List.append_cons] at h hsealed hzero ⊢
    obtain ⟨m, hto, hfrom⟩ := h.split
    obtain ⟨haccepted, rfl⟩ := hto.last
    have hfiled := hto.filed (.refl hpost) (fun e he => hsealed e (List.mem_append_left _ he))
      fun e he => hzero e (List.mem_append_left _ he)
    rcases Filed.summarises hfiled haccepted with hsame | ⟨period, hperiod⟩
    · exact .inl hsame
    · exact .inr ⟨period, hperiod.extend hfrom.slot_le.2⟩

end BeaconState

end Moonglass

namespace Moonglass.Devnet

open Lib List

/-- From the genesis block: one empty slot, a block at slot 1, and slots up to the end of the first
period. -/
def periodSteps : List (Option BeaconBlock) :=
  [none, some firstBlock.message] ++ List.replicate 63 none

/-- Every state of the network has the root that its blocks name. -/
theorem sealed_of_stateRoot {events : List ChainEvent}
    (h : ∀ b ∈ blocksOf events, b.stateRoot = stateRoot) : Sealed events :=
  fun e he b hb => h b (mem_filterMap.2 ⟨e, he, hb⟩)

/-- The period ends with one summary, and it lies inside the chain. -/
theorem history_ring_period : ∃ events s', Runs (stateAfter genesis) events s' ∧
    events.map (·.block) = periodSteps ∧ Sealed events ∧ s'.slot = 64 ∧
    s'.historicalSummaries.length = 1 ∧
    (∀ t, 0 ≤ t → t < s'.slot.val → s'.slot.val ≤ t + slotsPerHistoricalRoot →
      ringGet s'.blockRoots t = lastRoot (stateAfter genesis) events t) ∧
    ∀ e ∈ events, e.after.historicalSummaries = e.before.historicalSummaries ∨
      ∃ period, SummarisesPeriod (stateAfter genesis) events e period := by
  have hcheck : followCheck (fun _ s' => s'.slot = 64 ∧ s'.historicalSummaries.length = 1)
      (stateAfter genesis) periodSteps = true := by decide +kernel
  obtain ⟨events, s', hruns, hblocks, hslot, hsummaries⟩ := followCheck_runs hcheck
  have hsealed : Sealed events := by
    refine sealed_of_stateRoot fun b hb => ?_
    obtain ⟨e, he, hb⟩ := mem_filterMap.1 hb
    have hmem : some b ∈ periodSteps := hblocks ▸ hb ▸ mem_map_of_mem he
    have : b = firstBlock.message := by
      simpa [periodSteps] using hmem
    rw [this]
    rfl
  have hzero : stateRoot ≠ Root.ZERO := by decide
  exact ⟨events, s', hruns, hblocks, hsealed, hslot, hsummaries,
    BeaconState.history_ring rfl hruns hsealed fun _ _ => hzero⟩

end Moonglass.Devnet
