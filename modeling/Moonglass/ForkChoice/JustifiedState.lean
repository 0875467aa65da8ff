import Moonglass.ForkChoice.Invariant
import Moonglass.StateTransition.Evidence
import Moonglass.Devnet

/-
  The justified state is cached. When blocks are imported together with the attestations they
  carry, every attestation that sets a target flag in a stored state has put its target's state in
  the cache; a checkpoint is justified on such flags, so its state is there when fork choice asks
  for it. Within a call the justified checkpoint may run ahead of the cache; the calls that would
  end that way are rejected as a whole.
-/

namespace Moonglass

open Lib HashMap BeaconState

variable [Preset] [Crypto]
variable {b : SignedBeaconBlock} {e : Epoch} {c : Checkpoint} {calls : List Call}
  {state : BeaconState} {anchor : BeaconBlock}

namespace Store

/-- Every stored state is backed by checkpoints in `Seen`, and the justified checkpoint is `c₀` or a
later one in `Seen`. -/
structure Evidence (start : BeaconState) (blocks : List BeaconBlock) (c₀ : Checkpoint)
    (Seen : Checkpoint → Prop) (s : Store) : Prop where
  state : ∀ {r state}, s.blockStates.lookup r = some state →
    BeaconState.Visits start blocks state ∧ state.Backed Seen
  unrealized : Seen s.unrealizedJustifiedCheckpoint
  justified : s.justifiedCheckpoint = c₀ ∨
    c₀.epoch < s.justifiedCheckpoint.epoch ∧ Seen s.justifiedCheckpoint

/-- A checkpoint that is not after epoch `e`, or whose state is cached. -/
def Cached (e : Epoch) (s : Store) (c : Checkpoint) : Prop := c.epoch ≤ e ∨ c ∈ s.checkpointStates

variable {start : BeaconState} {blocks : List BeaconBlock} {c₀ : Checkpoint}
variable {Seen Seen' : Checkpoint → Prop} {s s' : Store}

theorem Evidence.mono (h : Evidence start blocks c₀ Seen s) (hseen : ∀ c, Seen c → Seen' c) :
    Evidence start blocks c₀ Seen' s :=
  ⟨fun hr => ⟨(h.state hr).1, (h.state hr).2.mono hseen⟩, hseen _ h.unrealized,
    h.justified.imp_right fun hj => ⟨hj.1, hseen _ hj.2⟩⟩

theorem Evidence.le_justified (h : Evidence start blocks c₀ Seen s) :
    c₀.epoch ≤ s.justifiedCheckpoint.epoch := by
  rcases h.justified with h | h
  · rw [h]
  · exact le_of_lt h.1

/-! ## Steps -/

theorem Evidence.kept (h : Evidence start blocks c₀ Seen s) (hkept : Kept s s') :
    Evidence start blocks c₀ Seen s' where
  state := by
    rw [hkept.states]
    exact h.state
  unrealized := hkept.unrealizedJustified ▸ h.unrealized
  justified := by
    rcases hkept.justified with hj | ⟨hj, -, hlt⟩
    · rw [hj]
      exact h.justified
    · rw [hj]
      exact .inr ⟨lt_of_le_of_lt h.le_justified hlt, h.unrealized⟩

/-- Importing a block keeps the evidence when the targets of its attestations are in `Seen`. -/
theorem Evidence.imported (h : Evidence start blocks c₀ Seen s)
    (hstake : ∀ s, BeaconState.Visits start blocks s → s.WellStaked) {o : Orders}
    (hb : b.message ∈ blocks) (hseen : ∀ a ∈ b.message.body.attestations.toList, Seen a.data.target)
    (hblock : s.onBlock o b = .ok s') : Evidence start blocks c₀ Seen s' := by
  obtain ⟨parentState, state, pulledUp, head, hparent, -, hstate, -, himported⟩ :=
    onBlock_effect hblock
  obtain ⟨hvisits, hbacked⟩ := h.state hparent
  obtain ⟨hvisits', hbacked'⟩ :=
    stateTransition_backed hstake hvisits hbacked hb hseen state hstate
  have hpulled : Seen pulledUp.currentJustifiedCheckpoint :=
    (processJustificationAndFinalization_effect _ himported.pulled).seen
      (hstake state hvisits') hbacked'
  refine ⟨?_, ?_, ?_⟩
  · intro r state' hr
    rcases of_lookup_insert (himported.blockStates ▸ hr) with ⟨-, rfl⟩ | hr
    · exact ⟨hvisits', hbacked'⟩
    · exact h.state hr
  · rcases himported.unrealizedJustified with hu | hu
    · rw [hu]
      exact h.unrealized
    · rw [hu]
      exact hpulled
  · rcases himported.justified with hj | ⟨hlt, hj⟩
    · rw [hj]
      exact h.justified
    · refine .inr ⟨lt_of_le_of_lt h.le_justified hlt, ?_⟩
      rcases hj with hj | ⟨hj, -⟩
      · rw [hj]
        exact hbacked'.justified
      · rw [hj]
        exact hpulled

/-! ## Calls -/

theorem Cached.kept (h : Kept s s') (c : Checkpoint) (hc : s.Cached e c) : s'.Cached e c := by
  refine hc.imp_right fun hmem => ?_
  obtain ⟨state, hstate⟩ := mem_iff_lookup.1 hmem
  exact mem_of_lookup (h.cached hstate)

/-- An accepted attestation leaves its target's state in the cache. -/
theorem onAttestation_cached {a : Attestation} {isFromBlock : Bool}
    (h : s.onAttestation a isFromBlock = .ok s') : a.data.target ∈ s'.checkpointStates := by
  obtain ⟨s₁, targetState, attesters, -, -, htarget, -, rfl⟩ := onAttestation_effect h
  exact mem_of_lookup htarget

/-- What is cached stays cached while messages are replayed. -/
theorem foldlM_cached {α : Type} {f : Store → α → Outcome Store} {l : List α}
    (step : ∀ a s s', f s a = .ok s' → Kept s s') (h : l.foldlM f s = .ok s')
    (hc : c ∈ s.checkpointStates) : c ∈ s'.checkpointStates := by
  refine foldlM_inv (fun s => c ∈ s.checkpointStates) (fun a _ s s' hs h => ?_) hc h
  obtain ⟨state, hstate⟩ := mem_iff_lookup.1 hs
  exact mem_of_lookup ((step a s s' h).cached hstate)

/-- After the attestations of a block are replayed, all their targets are cached. -/
theorem foldlM_onAttestation_cached {l : List Attestation}
    (h : l.foldlM (fun (s : Store) a => s.onAttestation a true) s = .ok s') :
    ∀ a ∈ l, a.data.target ∈ s'.checkpointStates := by
  induction l generalizing s with
  | nil => exact nofun
  | cons a l ih =>
    obtain ⟨s₁, h₁, hrest⟩ := foldlM_cons_eq_ok.1 h
    intro a' ha'
    rcases List.mem_cons.1 ha' with rfl | ha'
    · have hcached := onAttestation_cached h₁
      exact foldlM_cached (fun _ _ _ hstep => onAttestation_kept hstep) hrest hcached
    · exact ih hrest a' ha'

theorem onAttesterSlashing_kept {slashing : AttesterSlashing}
    (h : s.onAttesterSlashing slashing = .ok s') : Kept s s' := by
  rw [onAttesterSlashing_eq h]
  exact Kept.of_fields rfl rfl rfl rfl rfl rfl rfl

/-- A block with its messages keeps the evidence: what it needs is cached by the end of the call. -/
theorem Evidence.embedded (h : Evidence start blocks c₀ (s.Cached e) s)
    (hstake : ∀ s, BeaconState.Visits start blocks s → s.WellStaked) {o : Orders}
    (hb : b.message ∈ blocks) (hcall : s.onBlockWithEmbeddedMessages o b = .ok s') :
    Evidence start blocks c₀ (s'.Cached e) s' := by
  unfold onBlockWithEmbeddedMessages at hcall
  obtain ⟨s₁, h₁, hcall⟩ := bind_eq_ok.1 hcall
  obtain ⟨s₂, h₂, h₃⟩ := bind_eq_ok.1 hcall
  have hslashing : ∀ a s s', onAttesterSlashing s a = .ok s' → Kept s s' :=
    fun _ _ _ h => onAttesterSlashing_kept h
  have hattestation : ∀ (a : Attestation) (s s' : Store), s.onAttestation a true = .ok s' →
      Kept s s' := fun _ _ _ h => onAttestation_kept h
  -- whatever was cached before the call, and every embedded target, is cached after it
  have hcache₁ : s₁.checkpointStates = s.checkpointStates := by
    obtain ⟨_, _, _, _, -, -, -, -, himported⟩ := onBlock_effect h₁
    exact himported.checkpointStates
  have hgrows : ∀ c, s.Cached e c → s'.Cached e c := fun c hc => hc.imp_right fun hmem =>
    foldlM_cached hslashing h₃ (foldlM_cached hattestation h₂ (hcache₁ ▸ hmem))
  have htargets : ∀ a ∈ b.message.body.attestations.toList, s'.Cached e a.data.target :=
    fun a ha => .inr (foldlM_cached hslashing h₃ (foldlM_onAttestation_cached h₂ a ha))
  have hafter := (h.mono hgrows).imported hstake hb htargets h₁
  refine foldlM_inv (Evidence start blocks c₀ (s'.Cached e))
    (fun a _ s s' hs h => hs.kept (hslashing a s s' h)) ?_ h₃
  exact foldlM_inv (Evidence start blocks c₀ (s'.Cached e))
    (fun a _ s s' hs h => hs.kept (hattestation a s s' h)) hafter h₂

theorem Evidence.call (h : Evidence start blocks c₀ (s.Cached e) s)
    (hstake : ∀ s, BeaconState.Visits start blocks s → s.WellStaked) {c : Call}
    (hc : c.ImportsMessages) (hb : ∀ b, c.importedBlock = some b → b ∈ blocks) :
    Evidence start blocks c₀ ((s.call c).2.Cached e) (s.call c).2 := by
  -- a call without a block is a chain of steps without a block
  have hsteps : c.importedBlock = none →
      Evidence start blocks c₀ ((s.call c).2.Cached e) (s.call c).2 := by
    intro hnone
    have hchain : Steps (fun _ => False) s (s.call c).2 :=
      call_steps s c fun b hb => by rw [hnone] at hb; cases hb
    refine hchain.inv (P := fun s => Evidence start blocks c₀ (s.Cached e) s) ?_ h
    intro s₁ s₂ h₁ hstep
    rcases hstep.kept_or_block with hkept | ⟨_, _, hfalse, -⟩
    · exact (h₁.kept hkept).mono (Cached.kept hkept)
    · exact hfalse.elim
  cases c with
  | block o b => exact hc.elim
  | blockWithEmbeddedMessages o b =>
    show Evidence start blocks c₀ ((s.commit (s.onBlockWithEmbeddedMessages o b)).2.Cached e)
      (s.commit (s.onBlockWithEmbeddedMessages o b)).2
    cases hcall : s.onBlockWithEmbeddedMessages o b with
    | error e => exact h
    | ok s' => exact h.embedded hstake (hb _ rfl) hcall
  | tick time => exact hsteps rfl
  | attestation a isFromBlock => exact hsteps rfl
  | attesterSlashing a => exact hsteps rfl
  | payloadAttestationMessage m isFromBlock => exact hsteps rfl
  | executionPayloadEnvelope e verifier => exact hsteps rfl
  | dataColumnSidecar c verifier => exact hsteps rfl

/-! ## Runs -/

theorem Evidence.run (h : Evidence start blocks c₀ (s.Cached e) s)
    (hstake : ∀ s, BeaconState.Visits start blocks s → s.WellStaked)
    (hcalls : ∀ c ∈ calls, c.ImportsMessages)
    (hb : ∀ b ∈ calls.filterMap Call.importedBlock, b ∈ blocks) :
    Evidence start blocks c₀ ((s.run calls).Cached e) (s.run calls) := by
  induction calls generalizing s with
  | nil => exact h
  | cons c calls ih =>
    rw [run_cons]
    refine ih (h.call hstake (hcalls c List.mem_cons_self) fun b hcb => hb b ?_)
      (fun c hc => hcalls c (List.mem_cons_of_mem _ hc)) fun b hcb => hb b ?_
    · rw [List.filterMap_cons_some hcb]
      exact List.mem_cons_self
    · obtain ⟨c', hc', hcb⟩ := List.mem_filterMap.1 hcb
      exact List.mem_filterMap.2 ⟨c', List.mem_cons_of_mem _ hc', hcb⟩

/-- What is cached stays cached in a run. -/
theorem cached_run (hc : c ∈ s.checkpointStates) : c ∈ (s.run calls).checkpointStates := by
  have hsteps : Steps (fun _ => True) s (s.run calls) := run_steps s calls fun _ _ => trivial
  refine hsteps.inv (P := fun s => c ∈ s.checkpointStates) ?_ hc
  intro s₁ s₂ h₁ hstep
  rcases hstep.kept_or_block with hkept | ⟨_, _, -, h⟩
  · obtain ⟨state, hstate⟩ := mem_iff_lookup.1 h₁
    exact mem_of_lookup (hkept.cached hstate)
  · obtain ⟨_, _, _, _, -, -, -, -, himported⟩ := onBlock_effect h
    exact himported.checkpointStates ▸ h₁

/-- The evidence of a run from the post-state of an accepted anchor. -/
theorem Evidence.of_run (h₀ : getForkchoiceStore state anchor = .ok s)
    (hpost : IsPostState state anchor) (hcalls : ∀ c ∈ calls, c.ImportsMessages)
    (hstake : ∀ s, BeaconState.Visits state (runBlocks anchor calls) s → s.WellStaked) :
    Evidence state (runBlocks anchor calls) ⟨state.slot.epoch, anchor.treeRoot⟩
      ((s.run calls).Cached state.slot.epoch) (s.run calls) := by
  obtain ⟨time, -, -, -, rfl⟩ := getForkchoiceStore_eq h₀
  have hseed : Evidence state (runBlocks anchor calls) ⟨state.slot.epoch, anchor.treeRoot⟩
      ((Store.seed state anchor time).Cached state.slot.epoch) (Store.seed state anchor time) := by
    refine ⟨?_, .inl (le_refl state.slot.epoch), .inl rfl⟩
    intro r state' hr
    obtain ⟨-, rfl⟩ := eq_of_lookup_singleton hr
    -- nothing that the anchor's state holds is about a later epoch
    exact ⟨.start, fun _ => .inl fun _ => .inl (le_refl _), fun _ _ => .inl (Nat.sub_le _ _),
      .inl hpost.justified⟩
  exact hseed.run hstake hcalls fun _ hb => List.mem_cons_of_mem _ hb

/-- The justified checkpoint of a run is cached: it is the anchor's, or a later one that was seen. -/
theorem justified_mem_checkpointStates (h₀ : getForkchoiceStore state anchor = .ok s)
    (hpost : IsPostState state anchor) (hcalls : ∀ c ∈ calls, c.ImportsMessages)
    (hstake : ∀ s, BeaconState.Visits state (runBlocks anchor calls) s → s.WellStaked) :
    (s.run calls).justifiedCheckpoint ∈ (s.run calls).checkpointStates := by
  have hanchor : (⟨state.slot.epoch, anchor.treeRoot⟩ : Checkpoint) ∈ s.checkpointStates := by
    obtain ⟨time, -, -, -, rfl⟩ := getForkchoiceStore_eq h₀
    exact (Finmap.mem_singleton _ _ _).2 rfl
  rcases (Evidence.of_run h₀ hpost hcalls hstake).justified with h | ⟨hlate, h | h⟩
  · rw [h]
    exact cached_run hanchor
  · exact absurd hlate (not_lt.2 h)
  · exact h

theorem Visits.of_subset {start : BeaconState} {blocks blocks' : List BeaconBlock}
    (hsub : ∀ b ∈ blocks, b ∈ blocks') {s : BeaconState}
    (h : BeaconState.Visits start blocks s) : BeaconState.Visits start blocks' s := by
  induction h with
  | start => exact .start
  | slot _ hb hlt hadvance ih => exact .slot ih (hsub _ hb) hlt hadvance
  | block _ hb hblock ih => exact .block ih (hsub _ hb) hblock

/-- The justified state is always cached. In a run from the post-state of an accepted anchor that
imports blocks only with the messages they carry, and in which every state has a stake of at least
two increments, the justified checkpoint is cached after every call. -/
theorem getJustifiedState_ok {state : BeaconState} {anchor : BeaconBlock} {before after : List Call}
    {s₀ : Store} (h₀ : getForkchoiceStore state anchor = .ok s₀) (hpost : IsPostState state anchor)
    (hcalls : ∀ c ∈ before ++ after, c.ImportsMessages)
    (hstake : ∀ s, BeaconState.Visits state (runBlocks anchor (before ++ after)) s →
      s.WellStaked) :
    (s₀.run before).justifiedCheckpoint ∈ (s₀.run before).checkpointStates ∧
      ∃ justified, (s₀.run before).getJustifiedState = .ok justified := by
  have hsub : ∀ b ∈ runBlocks anchor before, b ∈ runBlocks anchor (before ++ after) := by
    intro b hb
    unfold runBlocks at hb ⊢
    rw [List.filterMap_append, ← List.cons_append]
    exact List.mem_append_left _ hb
  have hmem := justified_mem_checkpointStates h₀ hpost
    (fun c hc => hcalls c (List.mem_append_left _ hc))
    fun s hs => hstake s (Visits.of_subset hsub hs)
  obtain ⟨justified, hjustified⟩ := mem_iff_lookup.1 hmem
  exact ⟨hmem, justified, orFail_eq_ok.2 hjustified⟩

end Store

end Moonglass

namespace Moonglass.Devnet

/-- The states before the voting block, one per slot. -/
def slotState : Nat → BeaconState
  | 0 => stateAfter genesis
  | n + 1 => (slotState n).advanceSlot.toOption.getD (slotState n)

def votedState : BeaconState :=
  ((slotState 17).processBlock votingBlock.message).toOption.getD (slotState 17)

def visited : List BeaconState := votedState :: (List.range 18).map slotState

theorem mem_visited {s : BeaconState} : s ∈ visited ↔ s = votedState ∨ ∃ n < 18, slotState n = s := by
  simp [visited]

/-- The slots of these states, and the blocks they refuse. -/
theorem visited_facts : (∀ n < 18, (slotState n).slot.val = n) ∧ votedState.slot.val = 17 ∧
    (∀ s ∈ visited, (s.processBlock genesis).isOk = false) ∧
    (∀ n < 17, ((slotState n).processBlock votingBlock.message).isOk = false) ∧
    (votedState.processBlock votingBlock.message).isOk = false := by decide +kernel

theorem visits_voting {s : BeaconState}
    (h : BeaconState.Visits (stateAfter genesis) [genesis, votingBlock.message] s) :
    s ∈ visited := by
  obtain ⟨hslots, hlast, hgenesis, hearly, hlate⟩ := visited_facts
  have hblocks : ∀ b ∈ [genesis, votingBlock.message], b.slot.val ≤ 17 := by decide
  induction h with
  | start => exact mem_visited.2 (.inr ⟨0, by decide, rfl⟩)
  | @slot s s' b _ hb hlt hadvance ih =>
    have hlt : s.slot.val < 17 := lt_of_lt_of_le hlt (hblocks b hb)
    rcases mem_visited.1 ih with hs | ⟨n, hn, hs⟩
    · rw [hs, hlast] at hlt
      exact absurd hlt (lt_irrefl _)
    · rw [← hs, hslots n hn] at hlt
      refine mem_visited.2 (.inr ⟨n + 1, by omega, ?_⟩)
      rw [slotState, hs, hadvance]
      rfl
  | @block s s' b _ hb hblock ih =>
    have hok : (s.processBlock b).isOk = true := by rw [hblock]; rfl
    rcases List.mem_pair.1 hb with rfl | rfl
    · rw [hgenesis s ih] at hok
      cases hok
    · rcases mem_visited.1 ih with hs | ⟨n, hn, hs⟩
      · rw [hs, hlate] at hok
        cases hok
      · rcases Nat.lt_succ_iff_lt_or_eq.1 hn with hn | rfl
        · rw [← hs, hearly n hn] at hok
          cases hok
        · refine mem_visited.2 (.inl ?_)
          rw [votedState, hs, hblock]
          rfl

/-- The voting block arrives with the vote it carries, and its epoch ends. -/
def votedRun : List Call := [.tick 102, .blockWithEmbeddedMessages orders votingBlock, .tick 144]

/-- The justified checkpoint is raised, and its state is cached. -/
theorem getJustifiedState_ok_votedRun :
    ((seed genesis).run votedRun).justifiedCheckpoint.epoch = 2 ∧
    ∃ justified, ((seed genesis).run votedRun).getJustifiedState = .ok justified := by
  have hstaked : visited.all (fun s => s.getTotalActiveBalance.toOption.all fun total =>
      2 * effectiveBalanceIncrement ≤ total.val) = true := by decide +kernel
  refine ⟨by decide +kernel, (@Store.getJustifiedState_ok _ _ _ _ votedRun [] _ seed_genesis
    (isPostState genesis) (by simp [votedRun, Call.ImportsMessages]) ?_).2⟩
  intro s hs total htotal
  have htotals := List.all_eq_true.1 hstaked s (visits_voting hs)
  rw [htotal] at htotals
  exact of_decide_eq_true htotals

end Moonglass.Devnet
