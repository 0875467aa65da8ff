import Moonglass.StateTransition.Payments
import Moonglass.StateTransition.ChainSteps

/-
  Chains as runs of slots and blocks: how runs compose, and that the processing of slots is a run.
-/

namespace Moonglass

open Lib

variable [Preset] [Crypto]

/-- One event of a chain: a turn of the slot loop, or a block. -/
structure ChainEvent where
  before : BeaconState
  block : Option BeaconBlock
  after : BeaconState

namespace ChainEvent

def Accepted (e : ChainEvent) : Prop :=
  match e.block with
  | none => e.before.advanceSlot = .ok e.after
  | some b => e.before.processBlock b = .ok e.after

variable {e : ChainEvent}

theorem Accepted.advanced (h : e.Accepted) (hblock : e.block = none) :
    e.before.advanceSlot = .ok e.after := by
  unfold Accepted at h
  rwa [hblock] at h

theorem Accepted.processed {b : BeaconBlock} (h : e.Accepted) (hblock : e.block = some b) :
    e.before.processBlock b = .ok e.after := by
  unfold Accepted at h
  rwa [hblock] at h

end ChainEvent

/-- The events lead from one state to the other. -/
inductive Runs : BeaconState → List ChainEvent → BeaconState → Prop where
  | nil (s : BeaconState) : Runs s [] s
  | cons {e : ChainEvent} {es : List ChainEvent} {s' : BeaconState} (head : e.Accepted)
    (tail : Runs e.after es s') : Runs e.before (e :: es) s'

/-- The blocks of a chain. -/
def blocksOf (events : List ChainEvent) : List BeaconBlock := events.filterMap (·.block)

variable {s m s' : BeaconState} {xs ys events : List ChainEvent} {e : ChainEvent}

theorem Runs.split (h : Runs s (xs ++ ys) s') : ∃ m, Runs s xs m ∧ Runs m ys s' := by
  induction xs generalizing s with
  | nil => exact ⟨s, .nil s, h⟩
  | cons x xs ih =>
    cases h with
    | cons head tail =>
      obtain ⟨m, hxs, hys⟩ := ih tail
      exact ⟨m, .cons head hxs, hys⟩

theorem Runs.last (h : Runs s (xs ++ [e]) s') : e.Accepted ∧ e.after = s' := by
  obtain ⟨m, -, h⟩ := h.split
  cases h with
  | cons head tail =>
    generalize e.after = m at tail
    cases tail
    exact ⟨head, rfl⟩

/-- The runs before and after a step. -/
theorem Runs.around (h : Runs s events s') (he : e ∈ events) :
    ∃ pre post, Runs s pre e.before ∧ e.Accepted ∧ Runs e.after post s' := by
  obtain ⟨pre, post, rfl⟩ := List.append_of_mem he
  obtain ⟨m, hpre, hrest⟩ := h.split
  cases hrest with
  | cons head tail => exact ⟨pre, post, hpre, head, tail⟩

theorem Runs.accepted (h : Runs s events s') (he : e ∈ events) : e.Accepted := by
  obtain ⟨_, _, -, haccepted, -⟩ := h.around he
  exact haccepted

theorem Runs.append (h : Runs s xs m) (h' : Runs m ys s') : Runs s (xs ++ ys) s' := by
  induction h with
  | nil => exact h'
  | cons head _ ih => exact .cons head (ih h')

omit [Crypto] in
theorem blocksOf_append (events later : List ChainEvent) :
    blocksOf (events ++ later) = blocksOf events ++ blocksOf later := List.filterMap_append

/-- Blocks come at the slot of the state they are applied to, or later. -/
theorem Runs.slot_le (h : Runs s events s') :
    s.slot.val ≤ s'.slot.val ∧ ∀ b ∈ blocksOf events, s.slot.val ≤ b.slot.val := by
  induction h with
  | nil s => exact ⟨le_rfl, fun b hb => absurd hb List.not_mem_nil⟩
  | @cons e es s' head tail ih =>
    obtain ⟨s₀, block, s₁⟩ := e
    obtain ⟨hle, hblocks⟩ : s₁.slot.val ≤ s'.slot.val ∧
      ∀ b ∈ blocksOf es, s₁.slot.val ≤ b.slot.val := ih
    cases block with
    | none =>
      have hslot : s₁.slot.val = s₀.slot.val + 1 := (BeaconState.advanceSlot_effect s₁ head).slot
      show s₀.slot.val ≤ s'.slot.val ∧ ∀ b ∈ blocksOf es, s₀.slot.val ≤ b.slot.val
      exact ⟨by omega, fun b hb => by have := hblocks b hb; omega⟩
    | some block =>
      have hchain := BeaconState.processBlock_chain block s₁ head
      have hslot : s₁.slot.val = s₀.slot.val := congrArg Fin.val hchain.slot
      show s₀.slot.val ≤ s'.slot.val ∧ ∀ b ∈ block :: blocksOf es, s₀.slot.val ≤ b.slot.val
      refine ⟨by omega, fun b hb => ?_⟩
      rcases List.mem_cons.1 hb with rfl | hb
      · exact (congrArg Fin.val hchain.slot_eq).ge
      · have := hblocks b hb
        omega

theorem Runs.epoch_le (h : Runs s events s') : s.slot.epoch.val ≤ s'.slot.epoch.val :=
  Nat.div_le_div_right h.slot_le.1

/-- The states of a chain, from its first on. -/
def statesOf (s : BeaconState) (events : List ChainEvent) : List BeaconState :=
  s :: events.map (·.after)

theorem Runs.reaches (h : Runs s events s') {b : BeaconState} (hb : b ∈ statesOf s events) :
    ∃ es, Runs s es b := by
  induction h with
  | nil s => exact ⟨[], List.mem_singleton.1 hb ▸ .nil s⟩
  | @cons e es s' head tail ih =>
    rcases List.mem_cons.1 hb with rfl | hb
    · exact ⟨[], .nil _⟩
    · obtain ⟨es, hes⟩ := ih hb
      exact ⟨e :: es, .cons head hes⟩

/-- Of two states of a chain, one leads to the other. -/
theorem Runs.connected (h : Runs s events s') {a b : BeaconState} (ha : a ∈ statesOf s events)
    (hb : b ∈ statesOf s events) : (∃ es, Runs a es b) ∨ ∃ es, Runs b es a := by
  induction h with
  | nil s => exact .inl ⟨[], List.mem_singleton.1 ha ▸ List.mem_singleton.1 hb ▸ .nil s⟩
  | @cons e es s' head tail ih =>
    rcases List.mem_cons.1 ha with rfl | ha'
    · exact .inl ((Runs.cons head tail).reaches hb)
    rcases List.mem_cons.1 hb with rfl | hb'
    · exact .inr ((Runs.cons head tail).reaches ha)
    · exact ih ha' hb'

theorem Runs.mem_statesOf (h : Runs s events s') : s' ∈ statesOf s events := by
  induction h with
  | nil s => exact List.mem_cons_self
  | cons _ _ ih => exact .tail _ ih

/-- A chain that goes from before an epoch into it, or past it, enters it with an empty slot. -/
theorem Runs.crosses {e : Nat} (h : Runs s events s') (hlow : s.slot.epoch.val < e)
    (hhigh : e ≤ s'.slot.epoch.val) : ∃ a b : BeaconState, ∃ post, a.advanceSlot = .ok b ∧
      b.slot.val % slotsPerEpoch = 0 ∧ b.slot.epoch.val = e ∧ Runs b post s' := by
  induction h with
  | nil s => exact absurd hhigh (Nat.not_le.2 hlow)
  | @cons event es s' head tail ih =>
    obtain ⟨s₀, block, s₁⟩ := event
    have hlow : s₀.slot.epoch.val < e := hlow
    by_cases hbefore : s₁.slot.epoch.val < e
    · exact ih hbefore hhigh
    · cases block with
      | some block =>
        -- a block stays in its slot
        have hslot : s₁.slot = s₀.slot := (BeaconState.processBlock_chain block s₁ head).slot
        rw [hslot] at hbefore
        exact absurd hlow hbefore
      | none =>
        have hpaid : BeaconState.SlotPaid s₀ s₁ := BeaconState.advanceSlot_payments head
        by_cases hboundary : s₁.slot.val % slotsPerEpoch = 0
        · have hepoch := hpaid.epoch_boundary hboundary
          exact ⟨s₀, s₁, es, head, hboundary, by omega, tail⟩
        · have hepoch := hpaid.epoch_inner hboundary
          omega

/-! ## Evaluation -/

/-- Apply a block, or pass a slot. -/
def BeaconState.takeStep (s : BeaconState) : Option BeaconBlock → Transition BeaconState
  | none => s.advanceSlot
  | some block => s.processBlock block

/-- The events of the chain that takes the given steps. -/
def follow : BeaconState → List (Option BeaconBlock) → Transition (List ChainEvent)
  | _, [] => pure []
  | s, block :: blocks => do
    let s' ← s.takeStep block
    pure (⟨s, block, s'⟩ :: (← follow s' blocks))

theorem follow_runs {blocks : List (Option BeaconBlock)} (h : follow s blocks = .ok events) :
    (∃ s', Runs s events s') ∧ events.map (·.block) = blocks := by
  induction blocks generalizing s events with
  | nil =>
    cases h
    exact ⟨⟨s, .nil s⟩, rfl⟩
  | cons block blocks ih =>
    unfold follow at h
    obtain ⟨s₁, hs₁, h⟩ := bind_eq_ok.1 h
    obtain ⟨rest, hrest, h⟩ := bind_eq_ok.1 h
    cases h
    obtain ⟨⟨s', hruns⟩, hblocks⟩ := ih hrest
    refine ⟨⟨s', .cons (e := ⟨s, block, s₁⟩) ?_ hruns⟩, by rw [List.map_cons, hblocks]⟩
    cases block <;> exact hs₁

/-- The state a chain from `s` ends in. -/
def lastState (s : BeaconState) (events : List ChainEvent) : BeaconState :=
  (events.getLast?.map (·.after)).getD s

theorem Runs.lastState_eq (h : Runs s events s') : lastState s events = s' := by
  rcases List.eq_nil_or_concat events with rfl | ⟨xs, e, rfl⟩
  · cases h
    rfl
  · rw [List.concat_eq_append] at h ⊢
    unfold lastState
    rw [List.getLast?_concat]
    exact h.last.2

/-- Does the chain that takes the given steps have the property, with the state it ends in? -/
def followCheck (P : List ChainEvent → BeaconState → Prop) [∀ events s', Decidable (P events s')]
    (s : BeaconState) (blocks : List (Option BeaconBlock)) : Bool :=
  match follow s blocks with
  | .ok events => decide (P events (lastState s events))
  | .error _ => false

theorem followCheck_runs {P : List ChainEvent → BeaconState → Prop}
    [∀ events s', Decidable (P events s')] {blocks : List (Option BeaconBlock)}
    (h : followCheck P s blocks = true) :
    ∃ events s', Runs s events s' ∧ events.map (·.block) = blocks ∧ P events s' := by
  unfold followCheck at h
  split at h
  · rename_i events hevents
    obtain ⟨⟨s', hruns⟩, hblocks⟩ := follow_runs hevents
    exact ⟨events, s', hruns, hblocks, hruns.lastState_eq ▸ of_decide_eq_true h⟩
  · cases h

/-! ## Calls of the state transition -/

/-- Every block of the chain names the root of its post-state, as the state transition checks. -/
def Sealed (events : List ChainEvent) : Prop :=
  ∀ e ∈ events, ∀ b, e.block = some b → b.stateRoot = e.after.treeRoot

/-- Processing slots is a run without blocks. -/
theorem BeaconState.processSlots_runs {target : Slot} (h : s.processSlots target = .ok s') :
    ∃ events, Runs s events s' ∧ blocksOf events = [] := by
  have hturn : ∀ s₁ s₂ : BeaconState, s₁.advanceSlot = .ok s₂ → Runs s₁ [⟨s₁, none, s₂⟩] s₂ :=
    fun s₁ s₂ h => .cons (e := ⟨s₁, none, s₂⟩) h (.nil s₂)
  refine (processSlots_inv (P := fun s' => ∃ events, Runs s events s' ∧ blocksOf events = [])
    target (fun s₁ _ h => ⟨_, hturn _ _ h, rfl⟩) ?_ s' h).2.2
  rintro s₁ s₂ ⟨events, hruns, hblocks⟩ - h
  refine ⟨events ++ [⟨s₁, none, s₂⟩], hruns.append (hturn _ _ h), ?_⟩
  unfold blocksOf at hblocks ⊢
  rw [List.filterMap_append, hblocks]
  rfl

/-! ## Moves along runs -/

/-- A move of some phase. -/
def AnyMove (r r' : Registry) : Prop := ∃ p, RegistryMove p r r'

namespace BeaconState

omit [Crypto] in
theorem Moves.any {p : Phase} (h : Moves p s s') :
    Relation.ReflTransGen AnyMove s.registry s'.registry :=
  Relation.ReflTransGen.mono (fun _ _ move => ⟨p, move⟩) _ _ h

theorem EpochMoves.any (h : EpochMoves s s') :
    Relation.ReflTransGen AnyMove s.registry s'.registry := by
  have hdeposits := h.deposits.any
  rw [h.penalties] at hdeposits
  exact (h.before.any.trans hdeposits).trans h.after.any

end BeaconState

/-- A step of a chain is a sequence of moves, after which the slot may move on. -/
theorem ChainEvent.Accepted.moved (h : e.Accepted) :
    ∃ r, Relation.ReflTransGen AnyMove e.before.registry r ∧ r.slot = e.before.slot ∧
      e.after.registry = { r with slot := e.after.slot } := by
  obtain ⟨s, block, s'⟩ := e
  cases block with
  | none =>
    obtain ⟨hslot, ⟨-, hinner⟩ | ⟨-, filed, next, -, hfiled, hepoch, hs'⟩⟩ :=
      BeaconState.advanceSlot_registry h
    · exact ⟨s.registry, .refl, rfl, hinner⟩
    · obtain ⟨hmoves⟩ := BeaconState.processEpoch_registryMoves hepoch
      refine ⟨next.registry, hfiled ▸ hmoves.any, ?_, hs'⟩
      exact (BeaconState.processEpoch_effect next hepoch).position.slot.trans
        (congrArg Registry.slot hfiled)
  | some block =>
    have hmoves := BeaconState.processBlock_registryMoves h
    exact ⟨s'.registry, hmoves.any, hmoves.slot, rfl⟩

theorem ChainEvent.Accepted.slot_eq (h : e.Accepted) :
    e.after.slot.val = e.before.slot.val ∨ e.after.slot.val = e.before.slot.val + 1 := by
  obtain ⟨s, block, s'⟩ := e
  cases block with
  | none => exact .inr (BeaconState.advanceSlot_registry h).1
  | some block => exact .inl (congrArg Fin.val (BeaconState.processBlock_registryMoves h).slot)

/-- The rule for runs: what every move keeps, and a later slot, a run keeps. -/
theorem Runs.registry_inv {P : Registry → Prop} (h : Runs s events s')
    (step : ∀ {p r r'}, RegistryMove p r r' → P r → P r')
    (tick : ∀ {r : Registry} {slot : Slot}, r.slot.val ≤ slot.val → P r → P { r with slot })
    (hs : P s.registry) : P s'.registry := by
  induction h with
  | nil => exact hs
  | @cons e es s' head tail ih =>
    refine ih ?_
    obtain ⟨r, hmoves, hslot, hafter⟩ := head.moved
    rw [hafter]
    refine tick (by rw [hslot]; rcases head.slot_eq with h | h <;> omega) ?_
    clear hafter hslot
    induction hmoves with
    | refl => exact hs
    | tail _ move ih => exact step move.choose_spec ih

end Moonglass
