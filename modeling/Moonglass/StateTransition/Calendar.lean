import Moonglass.StateTransition.Frame
import Moonglass.StateTransition.Churn

/-
  What the operations of a block leave to slots and epochs. No operation writes the slot counter,
  the rings of block and state roots, the historical summaries or the windows of proposers and
  payload committees. Operations do change the registry, but an exit or an activation takes effect
  more than `maxSeedLookahead` epochs later, so the active sets of the epochs before that are
  settled. `KeepsDuties` says all of this of a step; what slots, epochs and blocks write beyond it
  is read off their parts.
-/

namespace Moonglass

open Lib

variable [Preset]

/-- The part of a state that only slots and epochs write. -/
structure CalendarView where
  slot : Slot
  blockRoots : Vector Root slotsPerHistoricalRoot
  stateRoots : Vector Root slotsPerHistoricalRoot
  historicalSummaries : BoundedList HistoricalSummary historicalRootsLimit
  proposerLookahead : Vector ValidatorIndex proposerLookaheadLen
  ptcWindow : Vector (Vector ValidatorIndex ptcSize) ptcWindowLen

namespace BeaconState

def calendarView (s : BeaconState) : CalendarView :=
  ⟨s.slot, s.blockRoots, s.stateRoots, s.historicalSummaries, s.proposerLookahead, s.ptcWindow⟩

/-! ## Active sets -/

/-- Is there a validator at `i`, and is it active in `epoch`? -/
def activeAt (s : BeaconState) (epoch : Epoch) (i : Nat) : Bool :=
  (s.validators.get? i).any (·.isActiveValidator epoch)

theorem activeAt_eq_false {s : BeaconState} {epoch : Epoch} {i : Nat}
    (hi : s.validators.length ≤ i) : s.activeAt epoch i = false := by
  unfold activeAt BoundedList.get?
  rw [List.getElem?_eq_none hi]
  rfl

/-- The active set, as the positions at which an active validator stands. -/
theorem getActiveValidatorIndices_eq (s : BeaconState) (epoch : Epoch) {n : Nat}
    (hn : s.validators.length ≤ n) :
    s.getActiveValidatorIndices epoch =
      ((List.range n).filter (s.activeAt epoch)).map Word.wrap := by
  have hpast : ((List.range (n - s.validators.length)).map (s.validators.length + ·)).filter
      (s.activeAt epoch) = [] := by
    refine List.filter_eq_nil_iff.2 fun i hi => ?_
    obtain ⟨k, -, rfl⟩ := List.mem_map.1 hi
    rw [activeAt_eq_false (Nat.le_add_right _ _)]
    exact Bool.false_ne_true
  rw [← Nat.add_sub_cancel' hn, List.range_add, List.filter_append, hpast, List.append_nil]
  exact filterMap_zipIdx (·.isActiveValidator epoch) Word.wrap s.validators.toList

/-- States with the same validators active have the same active set. -/
theorem getActiveValidatorIndices_congr {s s' : BeaconState} {epoch : Epoch}
    (h : ∀ i, s'.activeAt epoch i = s.activeAt epoch i) :
    s'.getActiveValidatorIndices epoch = s.getActiveValidatorIndices epoch := by
  rw [getActiveValidatorIndices_eq s epoch (le_max_left s.validators.length s'.validators.length),
    getActiveValidatorIndices_eq s' epoch (le_max_right s.validators.length s'.validators.length)]
  exact congrArg _ (List.filter_congr fun i _ => h i)

/-! ## Steps that keep the duties -/

/-- `s'` has the calendar of `s`, its randao mixes and payload bits, and its active sets of the
epochs that are settled. -/
structure KeepsDuties (s s' : BeaconState) : Prop where
  calendar : s'.calendarView = s.calendarView
  randao : s'.randaoMixes = s.randaoMixes
  availability : s'.executionPayloadAvailability = s.executionPayloadAvailability
  active : ∀ epoch : Epoch, epoch.val ≤ s.slot.epoch.val + maxSeedLookahead →
    ∀ i, s'.activeAt epoch i = s.activeAt epoch i

namespace KeepsDuties

variable {s s' s'' : BeaconState}

theorem slot (h : KeepsDuties s s') : s'.slot = s.slot := congrArg CalendarView.slot h.calendar

theorem trans (h : KeepsDuties s s') (h' : KeepsDuties s' s'') : KeepsDuties s s'' :=
  ⟨h'.calendar.trans h.calendar, h'.randao.trans h.randao, h'.availability.trans h.availability,
    fun epoch hepoch i => (h'.active epoch (h.slot.symm ▸ hepoch) i).trans (h.active epoch hepoch i)⟩

end KeepsDuties

omit [Preset] in
/-- A validator that gets its exit epoch stays active in every epoch before it. -/
theorem isActiveValidator_exit {v : Validator} {epoch exitEpoch withdrawableEpoch : Epoch}
    (hfar : v.exitEpoch = farFutureEpoch) (hlt : epoch < exitEpoch) :
    Validator.isActiveValidator { v with exitEpoch, withdrawableEpoch } epoch =
      v.isActiveValidator epoch := by
  have hmax : epoch < v.exitEpoch := by
    rw [hfar]
    exact lt_of_lt_of_le hlt (Fin.le_def.2 (by
      have := exitEpoch.isLt
      show exitEpoch.val ≤ 2 ^ 64 - 1
      omega))
  unfold Validator.isActiveValidator
  rw [decide_eq_true hmax, decide_eq_true hlt]

omit [Preset] in
/-- A validator that gets its activation epoch is not active in any epoch before it. -/
theorem isActiveValidator_activation {v : Validator} {epoch activationEpoch : Epoch}
    (hfar : v.activationEpoch = farFutureEpoch) (hlt : epoch < activationEpoch) :
    Validator.isActiveValidator { v with activationEpoch } epoch = v.isActiveValidator epoch := by
  have hmax : ¬v.activationEpoch ≤ epoch := by
    rw [hfar, not_le]
    exact lt_of_lt_of_le hlt (Fin.le_def.2 (by
      have := activationEpoch.isLt
      show activationEpoch.val ≤ 2 ^ 64 - 1
      omega))
  unfold Validator.isActiveValidator
  rw [decide_eq_false hmax, decide_eq_false (not_le.2 hlt)]

end BeaconState

end Moonglass
