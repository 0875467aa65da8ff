import Moonglass.ForkChoice.Invariant
import Moonglass.Devnet

/-
  The clock of the store. A tick enters the slots after the current one up to that of its time, in
  order, and apart from the time itself only this has an effect. Entering slots is additive, so it
  does not matter in how many ticks a time is reached.
-/

namespace Moonglass

open Lib

variable [Preset]

namespace Store

variable {s : Store} {time : U64}

/-! ## Entering slots -/

/-- What the store does when a slot begins: the boost ends, and at the start of an epoch the
unrealized checkpoints are taken over. -/
def enterSlot (s : Store) (slot : Slot) : Store :=
  let s := { s with proposerBoostRoot := Root.ZERO }
  if computeSlotsSinceEpochStart slot = 0 then
    s.updateCheckpoints s.unrealizedJustifiedCheckpoint s.unrealizedFinalizedCheckpoint
  else s

/-- Enter the `count` slots after slot `n`. -/
def enterSlots (s : Store) (n : Nat) : Nat → Store
  | 0 => s
  | count + 1 => (s.enterSlots n count).enterSlot (Word.wrap (n + count + 1))

theorem enterSlots_succ (s : Store) (n count : Nat) :
    s.enterSlots n (count + 1) = (s.enterSlots n count).enterSlot (Word.wrap (n + count + 1)) := rfl

/-- Entering slots is additive. -/
theorem enterSlots_add (s : Store) (n a b : Nat) :
    s.enterSlots n (a + b) = (s.enterSlots n a).enterSlots (n + a) b := by
  induction b with
  | zero => rfl
  | succ b ih =>
    rw [← Nat.add_assoc, enterSlots_succ, ih, enterSlots_succ, Nat.add_assoc n a b]

theorem enterSlot_time (s : Store) (time : U64) (slot : Slot) :
    ({ s with time } : Store).enterSlot slot = { s.enterSlot slot with time } := by
  unfold enterSlot
  dsimp only
  split <;> rfl

/-- What happens at the start of a slot does not look at the time. -/
theorem enterSlots_time (s : Store) (time : U64) (n count : Nat) :
    ({ s with time } : Store).enterSlots n count = { s.enterSlots n count with time } := by
  induction count with
  | zero => rfl
  | succ count ih => rw [enterSlots_succ, ih, enterSlot_time, enterSlots_succ]

theorem enterSlot_genesisTime (s : Store) (slot : Slot) :
    (s.enterSlot slot).genesisTime = s.genesisTime := by
  unfold enterSlot
  dsimp only
  split <;> rfl

theorem enterSlots_genesisTime (s : Store) (n count : Nat) :
    (s.enterSlots n count).genesisTime = s.genesisTime := by
  induction count with
  | zero => rfl
  | succ count ih => rw [enterSlots_succ, enterSlot_genesisTime, ih]

/-! ## One step of the clock -/

/-- A step into the next slot enters that slot. -/
theorem onTickPerSlot_of_lt (h : s.getCurrentSlot < s.slotAtTime time) :
    s.onTickPerSlot time = { s.enterSlot (s.slotAtTime time) with time } := by
  rw [← enterSlot_time]
  exact if_pos h

/-- A step within the slot only sets the time. -/
theorem onTickPerSlot_of_not_lt (h : ¬s.getCurrentSlot < s.slotAtTime time) :
    s.onTickPerSlot time = { s with time } := if_neg h

/-- The loop enters the slots up to the one of `time`, with any fuel that is at least their
number. -/
theorem onTickLoop_eq (fuel : Nat) (s : Store) (hle : s.getCurrentSlot ≤ s.slotAtTime time)
    (hfuel : (s.slotAtTime time).val - s.getCurrentSlot.val ≤ fuel) :
    ∃ between, s.slotAtTime between = s.slotAtTime time ∧
      onTickLoop (s.slotAtTime time) fuel s = .ok { s.enterSlots s.getCurrentSlot.val
        ((s.slotAtTime time).val - s.getCurrentSlot.val) with time := between } := by
  -- by the number of slots that are left
  induction hleft : (s.slotAtTime time).val - s.getCurrentSlot.val generalizing s fuel with
  | zero =>
    have hsame : s.getCurrentSlot = s.slotAtTime time := by
      refine Fin.ext ?_
      have := Fin.le_def.1 hle
      omega
    have hnot : ¬s.getCurrentSlot < s.slotAtTime time := fun hlt => absurd hsame hlt.ne
    refine ⟨s.time, hsame, ?_⟩
    cases fuel with
    | zero =>
      rw [onTickLoop, if_neg hnot]
      rfl
    | succ fuel =>
      rw [onTickLoop, if_neg hnot]
      rfl
  | succ left ih =>
    have hlt : s.getCurrentSlot < s.slotAtTime time := Fin.lt_def.2 (by omega)
    obtain ⟨hforward, hbound, hslot⟩ := slotStartTime_next hlt
    generalize hnext : s.slotStartTime (s.getCurrentSlot.satAdd 1) = next at hforward hbound hslot
    have hlater : s.getCurrentSlot < s.slotAtTime next := Fin.lt_def.2 (by omega)
    have hturn := onTickPerSlot_of_lt hlater
    have hgenesis := s.onTickPerSlot_genesisTime next
    have hcurrent : (s.onTickPerSlot next).getCurrentSlot = s.slotAtTime next := by
      rw [getCurrentSlot, onTickPerSlot_time, slotAtTime_congr hgenesis]
    have htick : (s.onTickPerSlot next).slotAtTime time = s.slotAtTime time :=
      slotAtTime_congr hgenesis time
    obtain ⟨fuel, rfl⟩ : ∃ fuel', fuel = fuel' + 1 := ⟨fuel - 1, by omega⟩
    obtain ⟨between, hbetween, hrest⟩ := ih fuel (s.onTickPerSlot next)
      (by rw [hcurrent, htick]; exact Fin.le_def.2 (by omega))
      (by rw [hcurrent, htick]; omega) (by rw [hcurrent, htick]; omega)
    refine ⟨between, ?_, ?_⟩
    · rw [← slotAtTime_congr hgenesis, hbetween, htick]
    · have hfirst : s.slotAtTime next = Word.wrap (s.getCurrentSlot.val + 1) :=
        Fin.ext (by rw [hslot, Word.wrap_val_of_lt (hslot ▸ (s.slotAtTime next).isLt)])
      rw [onTickLoop, if_pos hlt, hnext, ← htick, hrest, hcurrent, hslot, hturn, enterSlots_time,
        Nat.add_comm left 1, enterSlots_add, hfirst]
      rfl

/-- A loop that has ended does not change with more fuel. -/
theorem onTickLoop_mono {tickSlot : Slot} {fuel fuel' : Nat} {s s' : Store} (hle : fuel ≤ fuel')
    (h : onTickLoop tickSlot fuel s = .ok s') : onTickLoop tickSlot fuel' s = .ok s' := by
  induction fuel generalizing s fuel' with
  | zero =>
    rw [onTickLoop] at h
    split at h
    · cases h
    · rename_i hnot
      cases fuel' with
      | zero => rw [onTickLoop, if_neg hnot, h]
      | succ fuel' => rw [onTickLoop, if_neg hnot, h]
  | succ fuel ih =>
    obtain ⟨fuel', rfl⟩ : ∃ n, fuel' = n + 1 := ⟨fuel' - 1, by omega⟩
    rw [onTickLoop] at h ⊢
    split at h
    · rename_i hlt
      rw [if_pos hlt]
      exact ih (Nat.le_of_succ_le_succ hle) h
    · rename_i hnot
      rw [if_neg hnot, h]

/-! ## Ticks -/

/-- A tick enters the slots after the current one up to that of its time, and sets the time. -/
theorem onTick_eq (h : s.time ≤ time) : s.onTick time = .ok { s.enterSlots s.getCurrentSlot.val
    ((s.slotAtTime time).val - s.getCurrentSlot.val) with time } := by
  obtain ⟨between, hbetween, hloop⟩ := onTickLoop_eq _ s (s.slotAtTime_mono h)
    (Nat.le_refl _)
  unfold onTick
  rw [require_of h, ok_bind]
  dsimp only
  rw [hloop, ok_bind]
  refine congrArg Except.ok (onTickPerSlot_of_not_lt ?_)
  -- the loop has ended in the slot of the tick
  generalize hend : ({ s.enterSlots _ _ with time := between } : Store) = s'
  have hgenesis : s'.genesisTime = s.genesisTime := by
    rw [← hend]
    exact enterSlots_genesisTime _ _ _
  have hcurrent : s'.getCurrentSlot = s.slotAtTime between := by
    rw [getCurrentSlot, slotAtTime_congr hgenesis, ← hend]
  rw [hcurrent, slotAtTime_congr hgenesis, hbetween]
  exact lt_irrefl _

/-- A tick ends, whatever its time: the loop is done after as many turns as there are slots to
enter, and no further turn would change anything. Reaching a time in two ticks gives the store that
one tick gives. -/
theorem onTick_path_independent (s : Store) :
    (∀ time, Returns (s.onTick time)) ∧
    (∀ time fuel, (s.slotAtTime time).val - s.getCurrentSlot.val ≤ fuel →
      onTickLoop (s.slotAtTime time) fuel s = onTickLoop (s.slotAtTime time)
        ((s.slotAtTime time).val - s.getCurrentSlot.val) s) ∧
    ∀ t₁ t₂, s.time ≤ t₁ → t₁ ≤ t₂ → ∃ s₁ s₂, s.onTick t₁ = .ok s₁ ∧ s₁.onTick t₂ = .ok s₂ ∧
      s.onTick t₂ = .ok s₂ ∧ s₂.time = t₂ := by
  refine ⟨fun time => ?_, fun time fuel hfuel => ?_, fun t₁ t₂ h₁ h₂ => ?_⟩
  · by_cases h : s.time ≤ time
    · rw [onTick_eq h]
      exact Returns.ok _
    · unfold onTick
      rw [require_of_not h]
      exact Returns.fail _
  · obtain ⟨s', hs'⟩ : ∃ s', onTickLoop (s.slotAtTime time)
        ((s.slotAtTime time).val - s.getCurrentSlot.val) s = .ok s' := by
      by_cases hle : s.getCurrentSlot ≤ s.slotAtTime time
      · obtain ⟨_, -, hloop⟩ := onTickLoop_eq _ s hle (Nat.le_refl _)
        exact ⟨_, hloop⟩
      · have hlt := Fin.le_def.not.1 hle
        rw [Nat.sub_eq_zero_of_le (by omega), onTickLoop, if_neg fun h => hle h.le]
        exact ⟨s, rfl⟩
    rw [hs', onTickLoop_mono hfuel hs']
  · have hmono₁ := Fin.le_def.1 (s.slotAtTime_mono h₁)
    have hmono₂ := Fin.le_def.1 (s.slotAtTime_mono h₂)
    refine ⟨_, _, onTick_eq h₁, ?_, onTick_eq (h₁.trans h₂), rfl⟩
    generalize hs₁ : ({ s.enterSlots s.getCurrentSlot.val
      ((s.slotAtTime t₁).val - s.getCurrentSlot.val) with time := t₁ } : Store) = s₁
    have htime : s₁.time = t₁ := by rw [← hs₁]
    have hgenesis : s₁.genesisTime = s.genesisTime := by
      rw [← hs₁]
      exact enterSlots_genesisTime _ _ _
    have hcurrent : s₁.getCurrentSlot = s.slotAtTime t₁ := by
      rw [getCurrentSlot, htime, slotAtTime_congr hgenesis]
    have hslots : s₁.enterSlots (s.slotAtTime t₁).val
        ((s.slotAtTime t₂).val - (s.slotAtTime t₁).val) = { s.enterSlots s.getCurrentSlot.val
          ((s.slotAtTime t₂).val - s.getCurrentSlot.val) with time := t₁ } := by
      have hcur : s.getCurrentSlot.val = (s.slotAtTime s.time).val := rfl
      rw [show (s.slotAtTime t₂).val - s.getCurrentSlot.val =
          ((s.slotAtTime t₁).val - s.getCurrentSlot.val) +
            ((s.slotAtTime t₂).val - (s.slotAtTime t₁).val) by omega,
        enterSlots_add, ← hs₁, enterSlots_time,
        show s.getCurrentSlot.val + ((s.slotAtTime t₁).val - s.getCurrentSlot.val) =
          (s.slotAtTime t₁).val by omega]
    rw [onTick_eq (htime.symm ▸ h₂), hcurrent, slotAtTime_congr hgenesis, hslots]

end Store

end Moonglass

namespace Moonglass.Devnet

open Lib

/-- The devnet store comes to the last second of the clock, where the milliseconds saturate, in two
ticks as in one. -/
theorem onTick_path_independent_genesis : ∃ s₁ s₂, (seed genesis).onTick 100 = .ok s₁ ∧
    s₁.onTick Word.max = .ok s₂ ∧ (seed genesis).onTick Word.max = .ok s₂ ∧ s₂.time = Word.max :=
  (Store.onTick_path_independent (seed genesis)).2.2 100 Word.max (by decide) (by decide)

end Moonglass.Devnet
