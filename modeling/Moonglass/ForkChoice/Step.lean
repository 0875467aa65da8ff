import Moonglass.ForkChoice.Run

/-
  Runs as chains of accepted steps. A handler call either leaves the store as it was or is a chain
  of `Step`s: a tick is one step per slot, a block with embedded messages is a block step followed
  by one step per message. What every step keeps, every run keeps.
-/

namespace Moonglass

open Lib

variable [Preset]

namespace Store

/-- One accepted update of the store; the imported blocks satisfy `blk`. -/
inductive Step [Crypto] (blk : BeaconBlock → Prop) : Store → Store → Prop
  | tick {s : Store} {time : U64} : s.time ≤ time →
      (s.slotAtTime time).val ≤ s.getCurrentSlot.val + 1 → Step blk s (s.onTickPerSlot time)
  | block {s s' : Store} {o : Orders} {b : SignedBeaconBlock} : blk b.message →
      s.onBlock o b = .ok s' → Step blk s s'
  | attestation {s s' : Store} {a : Attestation} {isFromBlock : Bool} :
      s.onAttestation a isFromBlock = .ok s' → Step blk s s'
  | attesterSlashing {s s' : Store} {a : AttesterSlashing} :
      s.onAttesterSlashing a = .ok s' → Step blk s s'
  | payloadAttestation {s s' : Store} {m : PayloadAttestationMessage} {isFromBlock : Bool} :
      s.onPayloadAttestationMessageInner m isFromBlock = .ok s' → Step blk s s'
  | envelope {s s' : Store} {e : SignedExecutionPayloadEnvelope}
      {verifier : ExecutionPayloadVerifier} :
      s.onExecutionPayloadEnvelopeWithVerifier e verifier = .ok s' → Step blk s s'
  | sidecar {s : Store} {c : DataColumnSidecar} : s.checkSidecar c = .ok () →
      Step blk s (s.insertSidecar c)
  | release {s s' : Store} {r : Root} {verifier : ExecutionPayloadVerifier} :
      s.processQueuedPayloadEnvelope r verifier = .ok s' → Step blk s s'

/-- Zero or more accepted updates. -/
abbrev Steps [Crypto] (blk : BeaconBlock → Prop) : Store → Store → Prop :=
  Relation.ReflTransGen (Step blk)

variable {blk : BeaconBlock → Prop} {s s' : Store}

/-- What every step keeps, every chain of steps keeps. -/
theorem Steps.inv [Crypto] {P : Store → Prop} (step : ∀ s s', P s → Step blk s s' → P s')
    (h : Steps blk s s') (hs : P s) : P s' := by
  induction h with
  | refl => exact hs
  | tail _ hstep ih => exact step _ _ ih hstep

/-! ## Ticks -/

theorem onTickPerSlot_time (s : Store) (time : U64) : (s.onTickPerSlot time).time = time := by
  unfold onTickPerSlot
  dsimp only
  split
  · split <;> rfl
  · rfl

theorem onTickPerSlot_genesisTime (s : Store) (time : U64) :
    (s.onTickPerSlot time).genesisTime = s.genesisTime := by
  unfold onTickPerSlot
  dsimp only
  split
  · split <;> rfl
  · rfl

theorem slotAtTime_congr {s s' : Store} (h : s'.genesisTime = s.genesisTime) (time : U64) :
    s'.slotAtTime time = s.slotAtTime time := by
  unfold slotAtTime
  rw [h]

theorem slotDurationMs_cases : slotDurationMs = 12000 ∨ slotDurationMs = 6000 :=
  pick_cases 12000 6000

theorem slotAtTime_val (s : Store) (time : U64) : (s.slotAtTime time).val =
    min ((time.val - s.genesisTime.val) * 1000) (2 ^ 64 - 1) / slotDurationMs := rfl

theorem slotStartTime_val (s : Store) (slot : Slot) : (s.slotStartTime slot).val =
    min (s.genesisTime.val + min (slot.val * slotDurationMs) (2 ^ 64 - 1) / 1000) (2 ^ 64 - 1) :=
  rfl

omit [Preset] in
/-- The arithmetic of the next slot: `q` seconds per slot, and saturation at `m`. -/
theorem next_slot_arith {t g time cur m q : Nat} (hq : 0 < q)
    (hcur : cur = min ((t - g) * 1000) m / (q * 1000))
    (hlt : cur < min ((time - g) * 1000) m / (q * 1000)) (htime : time ≤ m) :
    min (g + min (min (cur + 1) m * (q * 1000)) m / 1000) m = g + (cur + 1) * q ∧
      t ≤ g + (cur + 1) * q ∧ g + (cur + 1) * q ≤ time ∧
        min ((cur + 1) * q * 1000) m / (q * 1000) = cur + 1 := by
  have hpos : 0 < q * 1000 := by omega
  have hnext := (Nat.le_div_iff_mul_le hpos).1 hlt
  have hbefore := (Nat.div_lt_iff_lt_mul hpos).1 (Nat.lt_succ_of_le (Nat.le_of_eq hcur.symm))
  have hassoc : (cur + 1) * (q * 1000) = (cur + 1) * q * 1000 := (Nat.mul_assoc _ _ _).symm
  have hle : cur + 1 ≤ (cur + 1) * q := Nat.le_mul_of_pos_right _ hq
  rw [Nat.succ_eq_add_one, hassoc] at hnext hbefore
  have hmin : min (cur + 1) m = cur + 1 := by omega
  have hdiv : (cur + 1) * q * 1000 / (q * 1000) = cur + 1 := by
    rw [← hassoc]
    exact Nat.mul_div_cancel _ hpos
  rw [hmin, hassoc]
  generalize (cur + 1) * q = n at hnext hbefore hle hdiv ⊢
  have hcap : min (n * 1000) m = n * 1000 := by omega
  rw [hcap, hdiv]
  refine ⟨?_, ?_, ?_, rfl⟩ <;> omega

/-- Before a later time in another slot, the next slot starts in between, one slot away. -/
theorem slotStartTime_next {time : U64} (h : s.getCurrentSlot < s.slotAtTime time) :
    s.time ≤ s.slotStartTime (s.getCurrentSlot.satAdd 1) ∧
      s.slotStartTime (s.getCurrentSlot.satAdd 1) ≤ time ∧
      (s.slotAtTime (s.slotStartTime (s.getCurrentSlot.satAdd 1))).val =
        s.getCurrentSlot.val + 1 := by
  obtain ⟨q, hq, hd⟩ : ∃ q, 0 < q ∧ slotDurationMs = q * 1000 := by
    rcases slotDurationMs_cases with hd | hd
    · exact ⟨12, by decide, hd⟩
    · exact ⟨6, by decide, hd⟩
  have hcur : s.getCurrentSlot.val =
      min ((s.time.val - s.genesisTime.val) * 1000) (2 ^ 64 - 1) / slotDurationMs := rfl
  have hlt : s.getCurrentSlot.val < (s.slotAtTime time).val := h
  rw [slotAtTime_val, hd] at hlt
  rw [hd] at hcur
  obtain ⟨hstart, hle, hle', hslot⟩ :=
    next_slot_arith hq hcur hlt (Nat.le_sub_one_of_lt time.isLt)
  have hval : (s.slotStartTime (s.getCurrentSlot.satAdd 1)).val =
      s.genesisTime.val + (s.getCurrentSlot.val + 1) * q := by
    rw [slotStartTime_val, Word.satAdd_val, hd]
    exact hstart
  refine ⟨Fin.le_def.2 (hval ▸ hle), Fin.le_def.2 (hval ▸ hle'), ?_⟩
  rw [slotAtTime_val, hval, hd, Nat.add_sub_cancel_left]
  exact hslot

theorem onTickLoop_steps [Crypto] {tickSlot : Slot} {time : U64} (fuel : Nat) (s : Store)
    (htick : tickSlot = s.slotAtTime time) (hle : s.time ≤ time)
    (hfuel : tickSlot.val ≤ s.getCurrentSlot.val + fuel) :
    ∃ s', onTickLoop tickSlot fuel s = .ok s' ∧ Steps blk s s' ∧ s'.time ≤ time ∧
      s'.genesisTime = s.genesisTime ∧ tickSlot ≤ s'.getCurrentSlot := by
  induction fuel generalizing s with
  | zero =>
    have hnot : ¬s.getCurrentSlot < tickSlot := fun h => by
      have := Fin.lt_def.1 h
      omega
    refine ⟨s, ?_, .refl, hle, rfl, not_lt.1 hnot⟩
    rw [onTickLoop, if_neg hnot]
    rfl
  | succ fuel ih =>
    by_cases hlt : s.getCurrentSlot < tickSlot
    · have hlater : s.getCurrentSlot < s.slotAtTime time := htick ▸ hlt
      obtain ⟨hforward, hbound, hslot⟩ := slotStartTime_next hlater
      -- one turn sets the clock to the start of the next slot
      let s₁ := s.onTickPerSlot (s.slotStartTime (s.getCurrentSlot.satAdd 1))
      have htime₁ := s.onTickPerSlot_time (s.slotStartTime (s.getCurrentSlot.satAdd 1))
      have hgenesis₁ := s.onTickPerSlot_genesisTime (s.slotStartTime (s.getCurrentSlot.satAdd 1))
      have hcur₁ : s₁.getCurrentSlot.val = s.getCurrentSlot.val + 1 := by
        rw [getCurrentSlot, htime₁, slotAtTime_congr hgenesis₁, hslot]
      have hstep : Step blk s s₁ := .tick hforward (by rw [hslot])
      have hle₁ : s₁.time ≤ time := htime₁ ▸ hbound
      obtain ⟨s', hs', hsteps, htime', hgenesis', hend⟩ :=
        ih s₁ (by rw [slotAtTime_congr hgenesis₁]; exact htick) hle₁ (by omega)
      refine ⟨s', ?_, .head hstep hsteps, htime', hgenesis'.trans hgenesis₁, hend⟩
      rw [onTickLoop, if_pos hlt]
      exact hs'
    · refine ⟨s, ?_, .refl, hle, rfl, not_lt.1 hlt⟩
      rw [onTickLoop, if_neg hlt]
      rfl

theorem onTick_steps [Crypto] {time : U64} (h : s.onTick time = .ok s') : Steps blk s s' := by
  unfold onTick at h
  obtain ⟨_, hle, h⟩ := bind_eq_ok.1 h
  have hle := require_eq_ok.1 hle
  obtain ⟨s₁, hs₁, hsteps, htime, hgenesis, hend⟩ := @onTickLoop_steps _ blk _ _ _
    ((s.slotAtTime time).val - s.getCurrentSlot.val) s rfl hle (by omega)
  dsimp only at h
  rw [hs₁, ok_bind] at h
  cases h
  refine hsteps.tail (.tick htime ?_)
  rw [slotAtTime_congr hgenesis]
  exact Nat.le_succ_of_le hend

/-! ## Calls -/

theorem foldlM_steps [Crypto] {α : Type} {f : Store → α → Outcome Store} {l : List α}
    (step : ∀ a s s', f s a = .ok s' → Steps blk s s') (h : l.foldlM f s = .ok s') :
    Steps blk s s' :=
  foldlM_rel (Steps blk) (fun _ => .refl) (fun h h' => h.trans h')
    (fun a _ s s' => step a s s') h

theorem onBlockWithEmbeddedMessages_steps [Crypto] {o : Orders} {b : SignedBeaconBlock}
    (hb : blk b.message) (h : s.onBlockWithEmbeddedMessages o b = .ok s') : Steps blk s s' := by
  unfold onBlockWithEmbeddedMessages at h
  obtain ⟨s₁, h₁, h⟩ := bind_eq_ok.1 h
  obtain ⟨s₂, h₂, h₃⟩ := bind_eq_ok.1 h
  have hblock : Steps blk s s₁ := .single (.block hb h₁)
  have hattestations : Steps blk s₁ s₂ :=
    foldlM_steps (fun _ _ _ h => .single (.attestation h)) h₂
  have hslashings : Steps blk s₂ s' :=
    foldlM_steps (fun _ _ _ h => .single (.attesterSlashing h)) h₃
  exact hblock.trans (hattestations.trans hslashings)

theorem recordDataColumnSidecar_steps [Crypto] (s : Store) (c : DataColumnSidecar)
    (verifier : ExecutionPayloadVerifier) :
    Steps blk s (s.recordDataColumnSidecarWithVerifier c verifier).2 := by
  unfold recordDataColumnSidecarWithVerifier
  cases hcheck : s.checkSidecar c with
  | error e => exact .refl
  | ok u =>
    have hinsert : Step blk s (s.insertSidecar c) := .sidecar hcheck
    dsimp only
    cases hrelease : (s.insertSidecar c).processQueuedPayloadEnvelope c.beaconBlockRoot verifier
      with
    | error e => exact .single hinsert
    | ok s₁ => exact .head hinsert (.single (.release hrelease))

/-- A committed call is a chain of steps when its accepted outcome is one. -/
theorem commit_steps [Crypto] {x : Outcome Store} (h : ∀ s', x = .ok s' → Steps blk s s') :
    Steps blk s (s.commit x).2 := by
  cases x with
  | error e => exact .refl
  | ok s₁ => exact h s₁ rfl

theorem call_steps [Crypto] (s : Store) (c : Call) (hblk : ∀ b, c.importedBlock = some b → blk b) :
    Steps blk s (s.call c).2 := by
  cases c with
  | tick time => exact commit_steps fun _ h => onTick_steps h
  | block o b => exact commit_steps fun _ h => .single (.block (hblk _ rfl) h)
  | blockWithEmbeddedMessages o b =>
    exact commit_steps fun _ h => onBlockWithEmbeddedMessages_steps (hblk _ rfl) h
  | attestation a isFromBlock => exact commit_steps fun _ h => .single (.attestation h)
  | attesterSlashing a => exact commit_steps fun _ h => .single (.attesterSlashing h)
  | payloadAttestationMessage m isFromBlock =>
    exact commit_steps fun _ h => .single (.payloadAttestation h)
  | executionPayloadEnvelope e verifier => exact commit_steps fun _ h => .single (.envelope h)
  | dataColumnSidecar c verifier => exact recordDataColumnSidecar_steps s c verifier

/-- A run is a chain of steps that import only blocks handed to it. -/
theorem run_steps [Crypto] (s : Store) (calls : List Call)
    (hblk : ∀ b ∈ calls.filterMap Call.importedBlock, blk b) : Steps blk s (s.run calls) := by
  induction calls generalizing s with
  | nil => exact .refl
  | cons c calls ih =>
    have hfirst : Steps blk s (s.call c).2 := by
      refine call_steps s c fun b hb => hblk b ?_
      rw [List.filterMap_cons_some hb]
      exact List.mem_cons_self
    have hrest : Steps blk (s.call c).2 ((s.call c).2.run calls) := by
      refine ih _ fun b hb => hblk b ?_
      obtain ⟨c', hc', hb⟩ := List.mem_filterMap.1 hb
      exact List.mem_filterMap.2 ⟨c', List.mem_cons_of_mem _ hc', hb⟩
    exact hfirst.trans hrest

end Store

end Moonglass
