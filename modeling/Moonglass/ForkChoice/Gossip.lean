import Moonglass.ForkChoice.VoteOrder

/-
  Blocks from gossip. The follower imports a block and replays the attestations and slashings it
  carries as one step: the block is applied exactly when `onBlock` accepts it and fork choice accepts
  every carried message on the store after the import. The state transition admits attestations that
  fork choice refuses (a vote for an unknown head), so `onBlock` alone does not decide.
-/

namespace Moonglass

open Lib List

variable [Preset] [Crypto]

/-- The messages a block carries, in the order they are replayed. -/
def embeddedVotes (body : BeaconBlockBody) : List VoteCall :=
  body.attestations.toList.map (fun a => .attestation a true) ++
    body.attesterSlashings.toList.map .attesterSlashing

namespace Store

variable {s s' : Store}

theorem foldlM_map_vote {α : Type} (f : α → VoteCall) (l : List α) :
    (l.map f).foldlM vote s = l.foldlM (fun s a => s.vote (f a)) s := by
  induction l generalizing s with
  | nil => rfl
  | cons a l ih =>
    rw [map_cons, foldlM_cons, foldlM_cons]
    simp only [ih]

/-- Importing a block with its messages is importing the block and then applying the messages. -/
theorem onBlockWithEmbeddedMessages_eq (o : Orders) (b : SignedBeaconBlock) :
    s.onBlockWithEmbeddedMessages o b =
      (do let s₁ ← s.onBlock o b; (embeddedVotes b.message.body).foldlM vote s₁) := by
  unfold onBlockWithEmbeddedMessages embeddedVotes
  simp only [foldlM_append, foldlM_map_vote]
  rfl

/-- A sequence of votes is accepted exactly when each of them is accepted on the first store. -/
theorem foldlM_vote_ok_iff {calls : List VoteCall} :
    (∃ s', calls.foldlM vote s = .ok s') ↔ ∀ c ∈ calls, ∃ s', s.vote c = .ok s' := by
  constructor
  · rintro ⟨s', h⟩
    induction calls generalizing s with
    | nil => exact fun c hc => absurd hc not_mem_nil
    | cons c calls ih =>
      rw [foldlM_cons] at h
      obtain ⟨s₁, hs₁, h⟩ := bind_eq_ok.1 h
      obtain ⟨e, he, rfl⟩ := vote_eq_ok.1 hs₁
      intro c' hc'
      rcases mem_cons.1 hc' with rfl | hc'
      · exact ⟨_, hs₁⟩
      · -- the first call has not changed the decision about the later one
        obtain ⟨s₂, hs₂⟩ := ih h c' hc'
        obtain ⟨e', he', -⟩ := vote_eq_ok.1 hs₂
        rw [effectOf_apply he] at he'
        exact ⟨_, vote_eq_ok.2 ⟨e', he', rfl⟩⟩
  · intro h
    have hdecided : ∀ c ∈ calls, ∃ e, s.effectOf c = .ok e := by
      intro c hc
      obtain ⟨s', hs'⟩ := h c hc
      obtain ⟨e, he, -⟩ := vote_eq_ok.1 hs'
      exact ⟨e, he⟩
    choose! effect heffect using hdecided
    exact ⟨_, foldlM_vote heffect⟩

theorem vote_blocks {c : VoteCall} (h : s.vote c = .ok s') : s'.blocks = s.blocks := by
  obtain ⟨e, -, rfl⟩ := vote_eq_ok.1 h
  cases e <;> rfl

theorem foldlM_vote_blocks {calls : List VoteCall} (h : calls.foldlM vote s = .ok s') :
    s'.blocks = s.blocks :=
  foldlM_rel (fun s s' : Store => s'.blocks = s.blocks) (fun _ => rfl)
    (fun h h' => h'.trans h) (fun _ _ _ _ h => vote_blocks h) h

/-- The follower applies a gossip block exactly when `onBlock` accepts it and every attestation and
slashing it carries is accepted on the store after the import. Then the block is stored; otherwise
the store stays as it was. -/
theorem handleGossip_block (s : Store) (o : Orders) (b : SignedBeaconBlock) :
    ((handleGossip s o (.beaconBlock b)).1 = .ok .applied ↔
      ∃ s₁, s.onBlock o b = .ok s₁ ∧
        (∀ a ∈ b.message.body.attestations.toList, ∃ s', s₁.onAttestation a true = .ok s') ∧
        ∀ a ∈ b.message.body.attesterSlashings.toList, ∃ s', s₁.onAttesterSlashing a = .ok s') ∧
    ((handleGossip s o (.beaconBlock b)).1 = .ok .applied →
      (handleGossip s o (.beaconBlock b)).2.blocks.lookup b.message.treeRoot = some b.message) ∧
    ((handleGossip s o (.beaconBlock b)).1 ≠ .ok .applied →
      (handleGossip s o (.beaconBlock b)).2 = s) := by
  have hgossip : handleGossip s o (.beaconBlock b) =
      ((s.commit (s.onBlockWithEmbeddedMessages o b)).1.map fun _ => .applied,
        (s.commit (s.onBlockWithEmbeddedMessages o b)).2) := rfl
  have hvotes (s₁ : Store) : (∃ s', (embeddedVotes b.message.body).foldlM vote s₁ = .ok s') ↔
      (∀ a ∈ b.message.body.attestations.toList, ∃ s', s₁.onAttestation a true = .ok s') ∧
        ∀ a ∈ b.message.body.attesterSlashings.toList, ∃ s', s₁.onAttesterSlashing a = .ok s' := by
    rw [foldlM_vote_ok_iff, embeddedVotes, forall_mem_append, forall_mem_map,
      forall_mem_map]
    rfl
  rw [hgossip, onBlockWithEmbeddedMessages_eq]
  cases hblock : s.onBlock o b with
  | error e =>
    refine ⟨⟨fun h => (by cases h), ?_⟩, fun h => (by cases h), fun _ => rfl⟩
    rintro ⟨s₁, h, -⟩
    cases h
  | ok s₁ =>
    rw [ok_bind]
    cases hfold : (embeddedVotes b.message.body).foldlM vote s₁ with
    | error e =>
      refine ⟨⟨fun h => (by cases h), ?_⟩, fun h => (by cases h), fun _ => rfl⟩
      rintro ⟨s₁', h, haccepted⟩
      cases h
      obtain ⟨s', hs'⟩ := (hvotes s₁).2 haccepted
      cases hfold.symm.trans hs'
    | ok s₂ =>
      refine ⟨⟨fun _ => ⟨s₁, rfl, (hvotes s₁).1 ⟨s₂, hfold⟩⟩, fun _ => rfl⟩, fun _ => ?_,
        fun h => absurd rfl h⟩
      obtain ⟨_, _, _, _, -, -, -, -, himported⟩ := onBlock_effect hblock
      change s₂.blocks.lookup b.message.treeRoot = some b.message
      rw [foldlM_vote_blocks hfold, himported.blocks]
      exact Finmap.lookup_insert _

end Store

end Moonglass

namespace Moonglass.Devnet

/-- The first block, carrying a vote of the first validator for a block nobody knows. -/
def strayVoteBlock : SignedBeaconBlock :=
  { firstBlock with
    message := { firstBlock.message with
      body := { firstBlock.message.body with
        attestations := ⟨[attestation 0 genesis.treeRoot (rootOf 0 1)], by decide⟩ } } }

/-- `onBlock` accepts the block, and the follower refuses it because of the vote it carries. -/
theorem handleGossip_strayVote :
    getForkchoiceStore (stateAfter genesis) genesis = .ok (seed genesis) ∧
    (((seed genesis).run [.tick 6]).onBlock orders strayVoteBlock).isOk = true ∧
    (handleGossip ((seed genesis).run [.tick 6]) orders (.beaconBlock strayVoteBlock)).1 =
      fail (.unknownBlock (rootOf 0 1)) ∧
    strayVoteBlock.message.treeRoot ∉
      (handleGossip ((seed genesis).run [.tick 6]) orders (.beaconBlock strayVoteBlock)).2.blocks :=
  ⟨seed_genesis, by decide +kernel⟩

end Moonglass.Devnet
