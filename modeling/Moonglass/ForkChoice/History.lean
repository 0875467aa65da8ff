import Moonglass.ForkChoice.Invariant
import Moonglass.ForkChoice.VoteOrder

/-
  What the store remembers. A vote gives way to later votes only, and an equivocator's vote to none.
  The state stored for a block is what the stored blocks lead to from the anchor on.
-/

namespace Moonglass

variable [Preset]

namespace Store

variable {s s' : Store}

/-! ## Votes -/

/-- Votes only give way to later ones, and evidence stays. -/
structure VotesHeld (s s' : Store) : Prop where
  convicted : s.equivocatingIndices ⊆ s'.equivocatingIndices
  frozen : ∀ v ∈ s.equivocatingIndices, s'.latestMessages.lookup v = s.latestMessages.lookup v
  forward : ∀ v m, s.latestMessages.lookup v = some m →
    ∃ m', s'.latestMessages.lookup v = some m' ∧ (m' = m ∨ m.slot < m'.slot)

theorem VotesHeld.of_eq (h : s'.equivocatingIndices = s.equivocatingIndices)
    (hvotes : s'.latestMessages = s.latestMessages) : VotesHeld s s' :=
  ⟨h.ge, fun _ _ => by rw [hvotes], fun _ m hm => ⟨m, hvotes ▸ hm, .inl rfl⟩⟩

theorem VotesHeld.trans {s'' : Store} (h : VotesHeld s s') (h' : VotesHeld s' s'') :
    VotesHeld s s'' := by
  refine ⟨h.convicted.trans h'.convicted,
    fun v hv => (h'.frozen v (h.convicted hv)).trans (h.frozen v hv), fun v m hm => ?_⟩
  obtain ⟨m₁, hm₁, h₁⟩ := h.forward v m hm
  obtain ⟨m₂, hm₂, h₂⟩ := h'.forward v m₁ hm₁
  refine ⟨m₂, hm₂, ?_⟩
  rcases h₁ with rfl | h₁
  · exact h₂
  · exact .inr (h₂.elim (fun h => h ▸ h₁) h₁.trans)

theorem VotesHeld.apply (e : VoteEffect) : VotesHeld s (e.apply s) := by
  cases e with
  | equivocation indices =>
    exact ⟨Finset.subset_union_left, fun _ _ => rfl, fun _ m hm => ⟨m, hm, .inl rfl⟩⟩
  | ballot target state message voters =>
    refine ⟨subset_rfl, fun v hv => ?_, fun v m hm => ?_⟩
    · exact (foldl_updateLatestMessage_lookup _ _ _ v).trans (if_neg fun h => h.2 hv)
    · have hvote := foldl_updateLatestMessage_lookup message voters s.latestMessages v (s := s)
      simp only [hm, keepNewer, Option.all_some, decide_eq_true_eq] at hvote
      split at hvote
      · split at hvote
        · exact ⟨_, hvote, .inr ‹_›⟩
        · exact ⟨_, hvote, .inl rfl⟩
      · exact ⟨_, hvote, .inl rfl⟩

variable [Crypto]

theorem VotesHeld.vote {c : VoteCall} (h : s.vote c = .ok s') : VotesHeld s s' := by
  obtain ⟨e, -, rfl⟩ := vote_eq_ok.1 h
  exact .apply e

theorem VotesHeld.step {blk : BeaconBlock → Prop} (h : Step blk s s') : VotesHeld s s' := by
  cases h with
  | tick _ _ =>
    obtain ⟨_, _, _, heq, -⟩ := s.onTickPerSlot_eq _
    rw [heq]
    exact .of_eq rfl rfl
  | block _ h =>
    obtain ⟨_, _, _, _, -, -, -, -, himported⟩ := onBlock_effect h
    exact .of_eq himported.equivocatingIndices himported.latestMessages
  | attestation h => exact .vote (c := .attestation _ _) h
  | attesterSlashing h => exact .vote (c := .attesterSlashing _) h
  | payloadAttestation h =>
    rw [(onPayloadAttestationMessageInner_votes _ _ _ h).eq]
    exact .of_eq rfl rfl
  | envelope h =>
    obtain ⟨-, ⟨-, rfl⟩ | ⟨-, rfl⟩⟩ := onExecutionPayloadEnvelope_effect _ h <;>
      exact .of_eq rfl rfl
  | sidecar h => exact .of_eq rfl rfl
  | release h =>
    obtain rfl | ⟨_, -, -, -, rfl⟩ := processQueuedPayloadEnvelope_effect _ h <;>
      exact .of_eq rfl rfl

/-- No run of the handlers, from any store, takes a vote back. -/
theorem run_votesHeld (s : Store) (calls : List Call) : VotesHeld s (s.run calls) := by
  have hrun : Steps (fun _ => True) s (s.run calls) := run_steps s calls fun _ _ => trivial
  exact hrun.inv (fun _ _ h hstep => h.trans (.step hstep)) (.of_eq rfl rfl)

/-! ## Replay -/

variable {state post : BeaconState} {anchor b : BeaconBlock} {r : Root} {calls : List Call}

/-- `post` is what the transitions of stored blocks, from `anchor` up to `b`, make of `state`. -/
inductive Replayed (s : Store) (state : BeaconState) (anchor : BeaconBlock) :
    BeaconBlock → BeaconState → Prop where
  | anchor : Replayed s state anchor anchor state
  | child {p b parentState post signature} : Replayed s state anchor p parentState →
      b.parentRoot = p.treeRoot → s.blocks.lookup b.treeRoot = some b →
      parentState.stateTransition ⟨b, signature⟩ = .ok post → Replayed s state anchor b post

/-- After every run, the state stored for a block is the replay of its stored chain. -/
theorem stored_states_replayed (h₀ : getForkchoiceStore state anchor = .ok s)
    (hc : NoCollision state anchor (runBlocks anchor calls))
    (hb : (s.run calls).blocks.lookup r = some b)
    (hpost : (s.run calls).blockStates.lookup r = some post) :
    Replayed (s.run calls) state anchor b post := by
  have inv := Inv.run h₀ hc
  -- by induction on the slot: the parent comes before
  induction hslot : b.slot.val using Nat.strongRecOn generalizing r b post with
  | ind n ih =>
    by_cases hr : r = anchor.treeRoot
    · subst hr
      cases hb.symm.trans inv.anchor_block
      cases hpost.symm.trans inv.anchor_state
      exact .anchor
    · obtain ⟨p, parentState, hext⟩ := inv.child_of hb hr hpost
      obtain ⟨signature, htransition⟩ := hext.transition
      have hlt : p.slot.val < n := hslot ▸ inv.tree.parent_slot_lt hr hb hext.parent
      exact .child (ih _ hlt hext.parent hext.parent_state rfl) (inv.block hext.parent).2.symm
        ((inv.block hb).2 ▸ hb) htransition

end Store

end Moonglass

namespace Moonglass.Devnet

/-- The state after the first block is the replay of that block. -/
theorem stored_states_replayed_firstBlock : ∃ post, Store.Replayed
    ((seed genesis).run [.tick 6, .block orders firstBlock]) (stateAfter genesis) genesis
    firstBlock.message post := by
  obtain ⟨post, hpost⟩ := Option.isSome_iff_exists.1 (show (((seed genesis).run
    [.tick 6, .block orders firstBlock]).blockStates.lookup firstBlock.message.treeRoot).isSome
    by decide +kernel)
  exact ⟨post, Store.stored_states_replayed seed_genesis (noCollision rfl (by decide +kernel)) rfl
    hpost⟩

end Moonglass.Devnet
