import Moonglass.StateTransition.Runs

/-
  The ring of payload bits. A slot starts with its bit clear, and the bit is set when a later block
  counts the payload of the block at that slot as full, however many slots later. That block writes
  the place of its parent's slot modulo the size of the ring, so the bit is that of the parent's
  slot as long as the two are less than the size of the ring apart.
-/

namespace Moonglass

open Lib

variable [Preset] [Crypto]

/-- Some block of the chain counts the payload of the chain's block at slot `t` as full. `slot` and
`hash` are the slot and the payload hash of the last block before the events. -/
def CountsFull (slot : Slot) (hash : Hash32) : List ChainEvent → Nat → Prop
  | [], _ => False
  | e :: es, t =>
    match e.block with
    | none => CountsFull slot hash es t
    | some child =>
      slot.val = t ∧ child.bid.parentBlockHash = hash ∨
        CountsFull child.slot child.bid.blockHash es t

/-- Every block that counts its parent's payload as full comes less than the size of the ring after
the parent. -/
def ParentsInRing (events : List ChainEvent) : Prop :=
  ∀ e ∈ events, ∀ child ∈ e.block,
    child.bid.parentBlockHash = e.before.latestExecutionPayloadBid.blockHash →
    e.before.slot.val < e.before.latestExecutionPayloadBid.slot.val + slotsPerHistoricalRoot

instance (events : List ChainEvent) : Decidable (ParentsInRing events) :=
  inferInstanceAs (Decidable (∀ e ∈ events, ∀ child ∈ e.block, _ → _))

def decidableCountsFull : ∀ (slot : Slot) (hash : Hash32) (events : List ChainEvent) (t : Nat),
    Decidable (CountsFull slot hash events t)
  | _, _, [], _ => .isFalse id
  | slot, hash, ⟨_, none, _⟩ :: es, t => decidableCountsFull slot hash es t
  | slot, hash, ⟨_, some child, _⟩ :: es, t =>
    have := decidableCountsFull child.slot child.bid.blockHash es t
    inferInstanceAs (Decidable (slot.val = t ∧ child.bid.parentBlockHash = hash ∨
      CountsFull child.slot child.bid.blockHash es t))

instance (slot : Slot) (hash : Hash32) (events : List ChainEvent) (t : Nat) :
    Decidable (CountsFull slot hash events t) := decidableCountsFull slot hash events t

namespace BeaconState

variable {s s' : BeaconState} {events : List ChainEvent} {block : BeaconBlock} {t : Nat}

/-- The payload bit of slot `t`. -/
def payloadBit (s : BeaconState) (t : Nat) : Bool := ringGet s.executionPayloadAvailability t

/-- Entering a slot clears its bit and no other. -/
theorem advanceSlot_payloadBit (h : s.advanceSlot = .ok s') (ht : t ≤ s'.slot.val)
    (hring : s'.slot.val < t + slotsPerHistoricalRoot) :
    s'.payloadBit t = true ↔ t ≤ s.slot.val ∧ s.payloadBit t = true := by
  have hslot := (advanceSlot_effect s' h).slot
  unfold payloadBit
  rw [(advanceSlot_duties h).availability]
  by_cases hlt : t ≤ s.slot.val
  · rw [ringGet_ringSet_of_near (by omega) (by omega)]
    simp [hlt]
  · obtain rfl : t = s.slot.val + 1 := by omega
    rw [ringGet_ringSet_self]
    simp

/-- A block sets the bit of its parent's slot when it counts the payload as full, and no other. -/
theorem processBlock_payloadBit (h : s.processBlock block = .ok s')
    (hbid : s.latestExecutionPayloadBid.slot.val ≤ s.slot.val)
    (hparent : block.bid.parentBlockHash = s.latestExecutionPayloadBid.blockHash →
      s.slot.val < s.latestExecutionPayloadBid.slot.val + slotsPerHistoricalRoot)
    (ht : t ≤ s.slot.val) (hring : s.slot.val < t + slotsPerHistoricalRoot) :
    s'.payloadBit t = true ↔ s.payloadBit t = true ∨
      s.latestExecutionPayloadBid.slot.val = t ∧
        block.bid.parentBlockHash = s.latestExecutionPayloadBid.blockHash := by
  unfold payloadBit
  rw [(processBlock_duties h).availability]
  by_cases hfull : block.bid.parentBlockHash = s.latestExecutionPayloadBid.blockHash
  · have hnear := hparent hfull
    rw [if_pos hfull, ringGet_ringSet]
    have hplace : s.latestExecutionPayloadBid.slot.val % slotsPerHistoricalRoot =
        t % slotsPerHistoricalRoot ↔ s.latestExecutionPayloadBid.slot.val = t :=
      ⟨fun h => eq_of_mod_eq h (by omega) (by omega), fun h => by rw [h]⟩
    simp only [hplace, hfull, and_true]
    split <;> simp_all
  · rw [if_neg hfull]
    simp [hfull]

/-- A block leaves its own bid as the latest one, and the bid has the slot of the block. -/
theorem processBlock_bid (h : s.processBlock block = .ok s') :
    s'.latestExecutionPayloadBid = block.bid ∧ block.bid.slot = block.slot := by
  obtain ⟨phases⟩ := processBlock_phases h
  exact ⟨phases.execution.1,
    phases.bid_payments.1.trans (processBlock_chain block s' h).slot_eq.symm⟩

end BeaconState

open BeaconState

variable {s s' : BeaconState} {events : List ChainEvent} {t : Nat}

/-- What a chain does to the bit of a slot that is in the ring at its end: the bit is there from
before, or a block of the chain has counted the slot's payload as full. -/
theorem Runs.payloadBit (h : Runs s events s')
    (hbid : s.latestExecutionPayloadBid.slot.val ≤ s.slot.val) (hparents : ParentsInRing events)
    (ht : t ≤ s'.slot.val) (hring : s'.slot.val < t + slotsPerHistoricalRoot) :
    s'.payloadBit t = true ↔ t ≤ s.slot.val ∧ s.payloadBit t = true ∨
      CountsFull s.latestExecutionPayloadBid.slot s.latestExecutionPayloadBid.blockHash events t := by
  induction h with
  | nil s => simp [CountsFull, ht]
  | @cons e es s' head tail ih =>
    obtain ⟨s₀, block, s₁⟩ := e
    have hle : s₁.slot.val ≤ s'.slot.val := tail.slot_le.1
    have hrest : ParentsInRing es := fun e he => hparents e (.tail _ he)
    cases block with
    | none =>
      have hpaid := advanceSlot_payments head
      have hslot : s₁.slot.val = s₀.slot.val + 1 := hpaid.slot
      have hsame : s₁.latestExecutionPayloadBid = s₀.latestExecutionPayloadBid := hpaid.bid
      have hbid₁ : s₁.latestExecutionPayloadBid.slot.val ≤ s₁.slot.val := by
        rw [hsame, hslot]
        exact hbid.trans (Nat.le_succ _)
      have hlater := ih hbid₁ hrest ht hring
      -- a slot after the turn has its bit cleared by a later turn
      have hturn : t ≤ s₁.slot.val ∧ s₁.payloadBit t = true ↔
          t ≤ s₀.slot.val ∧ s₀.payloadBit t = true := by
        by_cases hle' : t ≤ s₁.slot.val
        · have hring₁ : s₁.slot.val < t + slotsPerHistoricalRoot := by omega
          rw [← advanceSlot_payloadBit head hle' hring₁]
          exact and_iff_right hle'
        · exact ⟨fun h => absurd h.1 hle', fun h => absurd (h.1.trans (by omega)) hle'⟩
      rw [hlater]
      show (t ≤ s₁.slot.val ∧ s₁.payloadBit t = true ∨
        CountsFull s₁.latestExecutionPayloadBid.slot s₁.latestExecutionPayloadBid.blockHash es t) ↔ _
      rw [hturn, hsame]
      rfl
    | some block =>
      have hchain := processBlock_chain block s₁ head
      obtain ⟨hlatest, hbidSlot⟩ := processBlock_bid head
      have hslot : s₁.slot.val = s₀.slot.val := congrArg Fin.val hchain.slot
      have hbid₁ : s₁.latestExecutionPayloadBid.slot.val ≤ s₁.slot.val := by
        rw [hlatest, hbidSlot, hchain.slot_eq, hslot]
      have hlater := ih hbid₁ hrest ht hring
      have hblock : t ≤ s₁.slot.val ∧ s₁.payloadBit t = true ↔
          t ≤ s₀.slot.val ∧ s₀.payloadBit t = true ∨
            s₀.latestExecutionPayloadBid.slot.val = t ∧
              block.bid.parentBlockHash = s₀.latestExecutionPayloadBid.blockHash := by
        by_cases hle' : t ≤ s₀.slot.val
        · have hring₀ : s₀.slot.val < t + slotsPerHistoricalRoot := by omega
          rw [processBlock_payloadBit head hbid (hparents _ List.mem_cons_self block rfl) hle'
            hring₀, hslot, and_iff_right hle', and_iff_right hle']
        · exact ⟨fun h => absurd (hslot ▸ h.1) hle',
            fun h => absurd (h.elim (·.1) fun h => h.1 ▸ hbid) hle'⟩
      rw [hlater]
      show (t ≤ s₁.slot.val ∧ s₁.payloadBit t = true ∨
        CountsFull s₁.latestExecutionPayloadBid.slot s₁.latestExecutionPayloadBid.blockHash es t) ↔
        t ≤ s₀.slot.val ∧ s₀.payloadBit t = true ∨
          (s₀.latestExecutionPayloadBid.slot.val = t ∧
            block.bid.parentBlockHash = s₀.latestExecutionPayloadBid.blockHash ∨
            CountsFull block.slot block.bid.blockHash es t)
      rw [hblock, hlatest, hbidSlot, or_assoc]

namespace BeaconState

omit [Crypto] in
/-- A vote that is not for the slot's own block earns the head flag only with the payload index that
the slot's bit says. -/
theorem timelyHead_index {data : AttestationData} {delay : Nat} {flags : List Nat}
    (h : s.getAttestationParticipationFlagIndices data delay = .ok flags)
    (hsame : s.isAttestationSameSlot data = false) (hhead : timelyHeadFlagIndex ∈ flags) :
    data.index.val = (s.payloadBit data.slot.val).toNat := by
  unfold getAttestationParticipationFlagIndices at h
  obtain ⟨_, -, h⟩ := bind_eq_ok.1 h
  rw [if_neg (hsame ▸ Bool.false_ne_true)] at h
  cases h
  by_contra hne
  have hbit : (data.index.val == (s.payloadBit data.slot.val).toNat) = false :=
    beq_eq_false_iff_ne.2 hne
  unfold payloadBit at hbit
  rw [List.mem_append, List.mem_append, hbit, Bool.and_false] at hhead
  rcases hhead with (hhead | hhead) | hhead
  · split at hhead <;> simp [timelyHeadFlagIndex, timelySourceFlagIndex] at hhead
  · split at hhead <;> simp [timelyHeadFlagIndex, timelyTargetFlagIndex] at hhead
  · simp at hhead

/-- Along a chain from a state whose payload bits are clear, the bit of a slot that is in the ring
is set if and only if a block of the chain has counted the payload of the slot's block as full,
provided that no block does so for a parent that has left the ring. So a vote for the slot is judged
against the payload of that slot. -/
theorem availability_ring (hclear : ∀ i, s.payloadBit i = false)
    (hbid : s.latestExecutionPayloadBid.slot.val ≤ s.slot.val) (h : Runs s events s')
    (hparents : ParentsInRing events) (ht : t < s'.slot.val)
    (hring : s'.slot.val < t + slotsPerHistoricalRoot) :
    (s'.payloadBit t = true ↔ CountsFull s.latestExecutionPayloadBid.slot
      s.latestExecutionPayloadBid.blockHash events t) ∧
    ∀ (data : AttestationData) (delay : Nat) (flags : List Nat), data.slot.val = t →
      s'.getAttestationParticipationFlagIndices data delay = .ok flags →
      s'.isAttestationSameSlot data = false → timelyHeadFlagIndex ∈ flags →
      (data.index.val = 1 ↔ CountsFull s.latestExecutionPayloadBid.slot
        s.latestExecutionPayloadBid.blockHash events t) := by
  have hbit : s'.payloadBit t = true ↔ CountsFull s.latestExecutionPayloadBid.slot
      s.latestExecutionPayloadBid.blockHash events t := by
    rw [h.payloadBit hbid hparents ht.le hring, hclear]
    simp
  refine ⟨hbit, fun data delay flags hslot hflags hsame hhead => ?_⟩
  rw [timelyHead_index hflags hsame hhead, hslot, ← hbit]
  cases s'.payloadBit t <;> simp

end BeaconState

end Moonglass

namespace Moonglass.Devnet

open Lib

theorem genesis_payloadBit (i : Nat) : (stateAfter genesis).payloadBit i = false :=
  Vector.getElem_replicate (mod_size_lt i)

/-- The block of slot 1 is counted as full by the next one. -/
def promptSteps : List (Option BeaconBlock) :=
  [none, some firstBlock.message, none, some (fullChild 2 firstBlock.message), none]

/-- The bit of slot 1 is set, and so the chain has counted its block as full. -/
theorem availability_ring_promptSteps : ∃ events s', Runs (stateAfter genesis) events s' ∧
    events.map (·.block) = promptSteps ∧ ParentsInRing events ∧ s'.payloadBit 1 = true ∧
    CountsFull 0 (anchorBlock 0).bid.blockHash events 1 := by
  have hcheck : followCheck (fun events s' => ParentsInRing events ∧ s'.slot = 3 ∧
      s'.payloadBit 1 = true) (stateAfter genesis) promptSteps = true := by decide +kernel
  obtain ⟨events, s', hruns, hblocks, hparents, hslot, hbit⟩ := followCheck_runs hcheck
  have hslot : s'.slot.val = 3 := congrArg Fin.val hslot
  have hring : slotsPerHistoricalRoot = 64 := rfl
  have hmain := BeaconState.availability_ring genesis_payloadBit (le_refl 0) hruns hparents
    (t := 1) (by omega) (by omega)
  exact ⟨events, s', hruns, hblocks, hparents, hbit, hmain.1.1 hbit⟩

/-- The same block, and slots up to the one that shares its place in the ring. -/
def recycledSteps : List (Option BeaconBlock) := promptSteps ++ List.replicate 62 none

/-- The child comes as many slots later as the ring is long. -/
def lateSteps : List (Option BeaconBlock) :=
  [none, some firstBlock.message] ++ List.replicate 64 none ++
    [some (fullChild 65 firstBlock.message), none]

/-- At slot 65 the bit of slot 1 is clear although its block was counted as full: the place is that
of slot 65 by then. And a child at slot 65 of the block of slot 1 sets the bit of slot 65, whose own
payload no block has counted. -/
theorem payloadBit_shared_place :
    (∃ events s', Runs (stateAfter genesis) events s' ∧ s'.slot.val = 1 + slotsPerHistoricalRoot ∧
      s'.payloadBit 1 = false ∧ CountsFull 0 (anchorBlock 0).bid.blockHash events 1) ∧
    ∃ events s', Runs (stateAfter genesis) events s' ∧ s'.slot.val = 66 ∧
      s'.payloadBit 65 = true ∧ ¬CountsFull 0 (anchorBlock 0).bid.blockHash events 65 := by
  have hrecycled : followCheck (fun events s' => s'.slot = 65 ∧ s'.payloadBit 1 = false ∧
      CountsFull 0 (anchorBlock 0).bid.blockHash events 1)
      (stateAfter genesis) recycledSteps = true := by decide +kernel
  have hlate : followCheck (fun events s' => s'.slot = 66 ∧ s'.payloadBit 65 = true ∧
      ¬CountsFull 0 (anchorBlock 0).bid.blockHash events 65)
      (stateAfter genesis) lateSteps = true := by decide +kernel
  constructor
  · obtain ⟨events, s', hruns, -, hslot, hbit, hcounted⟩ := followCheck_runs hrecycled
    exact ⟨events, s', hruns, congrArg Fin.val hslot, hbit, hcounted⟩
  · obtain ⟨events, s', hruns, -, hslot, hbit, hcounted⟩ := followCheck_runs hlate
    exact ⟨events, s', hruns, congrArg Fin.val hslot, hbit, hcounted⟩

end Moonglass.Devnet
