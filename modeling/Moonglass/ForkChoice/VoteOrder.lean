import Moonglass.ForkChoice.Effect
import Moonglass.ForkChoice.Tree
import Moonglass.Devnet

/-
  Votes commute. An attestation or an attester slashing is decided by parts of the store that no
  vote changes, so each such call splits into a decision (`effectOf`) and a write (`apply`). The
  writes of two calls may leave different latest messages, but only for equivocators, and head
  selection does not read those: the tally, which is the store without its votes together with the
  votes that count, is the same for every order of the calls.
-/

namespace Moonglass

open Lib List HashMap

variable [Preset]

namespace Store

/-! ## What head selection reads of the votes -/

/-- The store with other latest messages. -/
def withVotes (s : Store) (votes : HashMap ValidatorIndex LatestMessage) : Store :=
  { s with latestMessages := votes }

/-- The votes of all validators but the equivocators are those of the store. -/
def SameCounted (s : Store) (votes : HashMap ValidatorIndex LatestMessage) : Prop :=
  ∀ v, v ∉ s.equivocatingIndices → votes.lookup v = s.latestMessages.lookup v

variable {s : Store} {votes : HashMap ValidatorIndex LatestMessage}

theorem withVotes_blocks : (s.withVotes votes).blocks = s.blocks := rfl

theorem isAncestor_withVotes (node ancestor : ForkChoiceNode) :
    (s.withVotes votes).isAncestor node ancestor = s.isAncestor node ancestor :=
  isAncestor_congr withVotes_blocks node ancestor

theorem leafIsViable_withVotes (root : Root) :
    (s.withVotes votes).leafIsViable root = s.leafIsViable root := by
  unfold leafIsViable
  simp only [getCheckpointBlock_congr withVotes_blocks]
  rfl

theorem filterBlockTreeLoop_withVotes (o : Orders) (fuel : Nat) :
    (s.withVotes votes).filterBlockTreeLoop o fuel = s.filterBlockTreeLoop o fuel := by
  induction fuel with
  | zero => rfl
  | succ fuel ih =>
    funext root blocks
    rw [filterBlockTreeLoop, filterBlockTreeLoop]
    simp only [ih, leafIsViable_withVotes]
    rfl

theorem getFilteredBlockTree_withVotes (o : Orders) :
    (s.withVotes votes).getFilteredBlockTree o = s.getFilteredBlockTree o := by
  unfold getFilteredBlockTree filterBlockTree
  rw [filterBlockTreeLoop_withVotes]
  rfl

/-- An equivocator's vote adds nothing, so only the counted votes matter. -/
theorem addVote_withVotes (h : s.SameCounted votes) (node : ForkChoiceNode) (state : BeaconState) :
    (s.withVotes votes).addVote node state = s.addVote node state := by
  funext total v
  by_cases hv : v ∈ s.equivocatingIndices
  · have hskip : ∀ s' : Store, v ∈ s'.equivocatingIndices →
        s'.addVote node state total v = pure total := by
      intro s' hv'
      unfold addVote
      cases s'.latestMessages.lookup v with
      | none => rfl
      | some message => exact if_pos hv'
    rw [hskip s hv, hskip (s.withVotes votes) hv]
  · unfold addVote
    rw [show (s.withVotes votes).latestMessages.lookup v = s.latestMessages.lookup v from h v hv]
    simp only [isAncestor_withVotes]
    rfl

theorem getAttestationScore_withVotes (h : s.SameCounted votes) (node : ForkChoiceNode)
    (state : BeaconState) :
    (s.withVotes votes).getAttestationScore node state = s.getAttestationScore node state := by
  unfold getAttestationScore
  rw [addVote_withVotes h]

theorem noTimelyEquivocation_withVotes (parentRoot : Root) (proposer : ValidatorIndex) (slot : Slot)
    (entries : List (Root × BeaconBlock)) :
    (s.withVotes votes).noTimelyEquivocation parentRoot proposer slot entries =
      s.noTimelyEquivocation parentRoot proposer slot entries := by
  induction entries with
  | nil => rfl
  | cons e entries ih =>
    rw [noTimelyEquivocation, noTimelyEquivocation]
    simp only [ih]
    rfl

theorem shouldApplyProposerBoost_withVotes [Crypto] (h : s.SameCounted votes) (o : Orders) :
    (s.withVotes votes).shouldApplyProposerBoost o = s.shouldApplyProposerBoost o := by
  unfold shouldApplyProposerBoost isHeadWeak
  simp only [getAttestationScore_withVotes h, noTimelyEquivocation_withVotes]
  rfl

theorem getWeight_withVotes [Crypto] (h : s.SameCounted votes) (o : Orders)
    (node : ForkChoiceNode) : (s.withVotes votes).getWeight o node = s.getWeight o node := by
  unfold getWeight
  simp only [getAttestationScore_withVotes h, shouldApplyProposerBoost_withVotes h,
    isAncestor_withVotes]
  rfl

theorem heavierChild_withVotes [Crypto] (h : s.SameCounted votes) (o : Orders) :
    (s.withVotes votes).heavierChild o = s.heavierChild o := by
  funext best child
  unfold heavierChild headSelectionKey
  simp only [getWeight_withVotes h]
  rfl

theorem getHeadLoop_withVotes [Crypto] (h : s.SameCounted votes) (o : Orders)
    (blocks : HashMap Root BeaconBlock) (fuel : Nat) (node : ForkChoiceNode) :
    (s.withVotes votes).getHeadLoop o blocks fuel node = s.getHeadLoop o blocks fuel node := by
  induction fuel generalizing node with
  | zero => rfl
  | succ fuel ih =>
    rw [getHeadLoop, getHeadLoop]
    unfold selectHeaviestChild
    simp only [ih, heavierChild_withVotes h]
    rfl

/-- The head does not depend on the votes of equivocators. -/
theorem getHead_withVotes [Crypto] (h : s.SameCounted votes) (o : Orders) :
    (s.withVotes votes).getHead o = s.getHead o := by
  unfold getHead
  simp only [getFilteredBlockTree_withVotes, getHeadLoop_withVotes h]
  rfl

end Store

/-! ## Decisions and writes -/

/-- A call that brings votes, or evidence against voters. -/
inductive VoteCall where
  | attestation (a : Attestation) (isFromBlock : Bool)
  | attesterSlashing (a : AttesterSlashing)

/-- What an accepted call writes: the votes of an attestation and the state of its target, or the
validators a slashing proves to equivocate. -/
inductive VoteEffect where
  | ballot (target : Checkpoint) (state : BeaconState) (message : LatestMessage)
      (voters : List ValidatorIndex)
  | equivocation (indices : Finset ValidatorIndex)
  deriving Inhabited

/-- The validators on both sides of a slashing. -/
def AttesterSlashing.equivocators (slashing : AttesterSlashing) : Finset ValidatorIndex :=
  slashing.attestation1.attestingIndices.toList.toFinset ∩
    slashing.attestation2.attestingIndices.toList.toFinset

def VoteCall.equivocators : VoteCall → Finset ValidatorIndex
  | .attestation _ _ => ∅
  | .attesterSlashing a => a.equivocators

def VoteEffect.equivocators : VoteEffect → Finset ValidatorIndex
  | .ballot _ _ _ _ => ∅
  | .equivocation indices => indices

def VoteEffect.apply : VoteEffect → Store → Store
  | .ballot target state message voters, s =>
    { s with
      checkpointStates := s.checkpointStates.insert target state
      latestMessages := voters.foldl (s.updateLatestMessage message) s.latestMessages }
  | .equivocation indices, s =>
    { s with equivocatingIndices := s.equivocatingIndices ∪ indices }

variable {e : VoteEffect}

namespace Store

/-- Apply a call through its handler. -/
def vote [Crypto] (s : Store) : VoteCall → Outcome Store
  | .attestation a isFromBlock => s.onAttestation a isFromBlock
  | .attesterSlashing a => s.onAttesterSlashing a

/-- The state that attestations with this target are checked against: the cached one, or the one
that will be cached. -/
def targetState [Crypto] (s : Store) (target : Checkpoint) : Outcome BeaconState :=
  match s.checkpointStates.lookup target with
  | some state => pure state
  | none => s.targetCheckpointState target

/-- The validators an attestation counts as its voters. -/
def attesters [Crypto] (s : Store) (a : Attestation) : Outcome (List ValidatorIndex) := do
  checkedAttesters (← s.targetState a.data.target) a

/-- The checks on a slashing. -/
def checkSlashing [Crypto] (s : Store) (slashing : AttesterSlashing) : Outcome Unit := do
  require (isSlashableAttestationData slashing.attestation1.data slashing.attestation2.data)
    .invalidAttesterSlashing
  let state ← orFail (s.blockStates.lookup s.justifiedCheckpoint.root) .justifiedStateMissing
  checkSlashingAttestation state slashing.attestation1 .attesterSlashingAttestationOne
  checkSlashingAttestation state slashing.attestation2 .attesterSlashingAttestationTwo

/-- What a call will write, if it is accepted. -/
def effectOf [Crypto] (s : Store) : VoteCall → Outcome VoteEffect
  | .attestation a isFromBlock => do
    s.validateOnAttestation a isFromBlock
    let state ← s.targetState a.data.target
    let voters ← checkedAttesters state a
    pure (.ballot a.data.target state (attestationMessage a) voters)
  | .attesterSlashing a => do
    s.checkSlashing a
    pure (.equivocation a.equivocators)

variable {s : Store}

theorem onAttestation_split [Crypto] (a : Attestation) (isFromBlock : Bool) :
    s.onAttestation a isFromBlock =
      (do let e ← s.effectOf (.attestation a isFromBlock); pure (e.apply s)) := by
  unfold onAttestation effectOf targetState storeTargetCheckpointState
  cases hcached : s.checkpointStates.lookup a.data.target with
  | some state =>
    have hmem := mem_of_lookup hcached
    have hsame : s.checkpointStates.insert a.data.target state = s.checkpointStates :=
      insert_lookup hcached
    simp only [if_pos hmem, pure_eq_ok, ok_bind, hcached, orFail_some, bind_assoc,
      VoteEffect.apply, hsame]
    rfl
  | none =>
    have hmem := not_mem_iff_lookup.2 hcached
    simp only [if_neg hmem, pure_eq_ok, ok_bind, bind_assoc, Finmap.lookup_insert, orFail_some,
      hcached]
    rfl

theorem onAttesterSlashing_split [Crypto] (slashing : AttesterSlashing) :
    s.onAttesterSlashing slashing =
      (do let e ← s.effectOf (.attesterSlashing slashing); pure (e.apply s)) := by
  unfold onAttesterSlashing effectOf checkSlashing
  simp only [bind_assoc]
  rfl

/-- A call is its decision followed by its write. -/
theorem vote_eq [Crypto] (c : VoteCall) :
    s.vote c = (do let e ← s.effectOf c; pure (e.apply s)) := by
  cases c with
  | attestation a isFromBlock => exact onAttestation_split a isFromBlock
  | attesterSlashing a => exact onAttesterSlashing_split a

theorem vote_eq_ok [Crypto] {c : VoteCall} {s' : Store} :
    s.vote c = .ok s' ↔ ∃ e, s.effectOf c = .ok e ∧ e.apply s = s' := by
  rw [vote_eq, bind_eq_ok]
  simp only [pure_eq_ok, Except.ok.injEq]

/-! ## Writes do not change decisions -/

theorem validateOnAttestation_congr {s' : Store} (hblocks : s'.blocks = s.blocks)
    (hpayloads : s'.payloads = s.payloads) (hclock : s'.getCurrentSlot = s.getCurrentSlot)
    (a : Attestation) (isFromBlock : Bool) :
    s'.validateOnAttestation a isFromBlock = s.validateOnAttestation a isFromBlock := by
  unfold validateOnAttestation validateTargetEpochAgainstCurrentTime getCurrentStoreEpoch
    isPayloadVerified
  simp only [getCheckpointBlock_congr hblocks, hblocks, hpayloads, hclock]

/-- The state of a target does not change when the state of another target is cached, nor when its
own is. -/
theorem targetState_insert [Crypto] {target : Checkpoint} {state : BeaconState} {s' : Store}
    (h : s.targetState target = .ok state) (hstates : s'.blockStates = s.blockStates)
    (hcache : s'.checkpointStates = s.checkpointStates.insert target state) (c : Checkpoint) :
    s'.targetState c = s.targetState c := by
  unfold targetState targetCheckpointState
  rw [hcache, hstates, lookup_insert_eq]
  by_cases hc : c = target
  · subst hc
    rw [if_pos rfl]
    exact h.symm
  · rw [if_neg hc]

theorem effectOf_apply [Crypto] {c : VoteCall} (h : s.effectOf c = .ok e)
    (c' : VoteCall) : (e.apply s).effectOf c' = s.effectOf c' := by
  have hattestation : ∀ a isFromBlock, (e.apply s).validateOnAttestation a isFromBlock =
      s.validateOnAttestation a isFromBlock := by
    intro a isFromBlock
    refine validateOnAttestation_congr ?_ ?_ ?_ a isFromBlock <;> cases e <;> rfl
  have hslashing : ∀ a, (e.apply s).checkSlashing a = s.checkSlashing a := by
    intro a
    cases e <;> rfl
  have htarget : ∀ target, (e.apply s).targetState target = s.targetState target := by
    intro target
    cases c with
    | attestation a isFromBlock =>
      simp only [effectOf, bind_eq_ok] at h
      obtain ⟨_, -, state, hstate, voters, -, h⟩ := h
      cases h
      refine targetState_insert hstate ?_ ?_ target <;> rfl
    | attesterSlashing a =>
      obtain ⟨_, -, h⟩ := bind_eq_ok.1 h
      cases h
      rfl
  cases c' with
  | attestation a isFromBlock => simp only [effectOf, hattestation, htarget]
  | attesterSlashing a => simp only [effectOf, hslashing]

/-- Calls that are each accepted on a store are accepted on it one after the other. -/
theorem foldlM_vote [Crypto] {calls : List VoteCall} {effect : VoteCall → VoteEffect}
    (h : ∀ c ∈ calls, s.effectOf c = .ok (effect c)) :
    calls.foldlM vote s = .ok (calls.foldl (fun s c => (effect c).apply s) s) := by
  induction calls generalizing s with
  | nil => rfl
  | cons c calls ih =>
    have hc := h c mem_cons_self
    rw [foldlM_cons, vote_eq_ok.2 ⟨_, hc, rfl⟩, ok_bind, foldl_cons]
    refine ih fun c' hc' => ?_
    rw [effectOf_apply hc]
    exact h c' (mem_cons_of_mem _ hc')

end Store

/-! ## The tally -/

/-- Keep the newer of two messages, the one already there among equals. -/
def keepNewer (existing : Option LatestMessage) (message : LatestMessage) : Option LatestMessage :=
  if existing.all fun m => m.slot < message.slot then some message else existing

omit [Preset] in
theorem keepNewer_self (existing : Option LatestMessage) (message : LatestMessage) :
    keepNewer (keepNewer existing message) message = keepNewer existing message := by
  unfold keepNewer
  by_cases h : existing.all fun m => m.slot < message.slot
  · simp [h]
  · simp [h]

omit [Preset] in
/-- Messages of different slots may come in any order. -/
theorem keepNewer_comm (existing : Option LatestMessage) {m m' : LatestMessage}
    (h : m.slot = m'.slot → m = m') :
    keepNewer (keepNewer existing m) m' = keepNewer (keepNewer existing m') m := by
  rcases lt_trichotomy m.slot m'.slot with hlt | heq | hlt
  · cases existing with
    | none => simp [keepNewer, hlt, hlt.le]
    | some x =>
      by_cases h1 : x.slot < m.slot
      · simp [keepNewer, h1, hlt, hlt.le, h1.trans hlt]
      · by_cases h2 : x.slot < m'.slot <;> simp [keepNewer, h1, h2, hlt.le]
  · rw [h heq]
  · cases existing with
    | none => simp [keepNewer, hlt, hlt.le]
    | some x =>
      by_cases h1 : x.slot < m'.slot
      · simp [keepNewer, h1, hlt, hlt.le, h1.trans hlt]
      · by_cases h2 : x.slot < m.slot <;> simp [keepNewer, h1, h2, hlt.le]

/-- A store without its votes, and the votes that count. -/
@[ext] structure Tally where
  base : Store
  votes : ValidatorIndex → Option LatestMessage

/-- The tally of a store, where the validators in `excluded` do not count. -/
def Store.tally (s : Store) (excluded : Finset ValidatorIndex) : Tally where
  base := s.withVotes ∅
  votes v := if v ∈ excluded then none else s.latestMessages.lookup v

/-- What an effect does to a tally. -/
def VoteEffect.count (excluded : Finset ValidatorIndex) : VoteEffect → Tally → Tally
  | .ballot target state message voters, t =>
    { base := { t.base with checkpointStates := t.base.checkpointStates.insert target state }
      votes := fun v =>
        if v ∈ voters ∧ v ∉ excluded then keepNewer (t.votes v) message else t.votes v }
  | .equivocation indices, t =>
    { t with base := { t.base with
        equivocatingIndices := t.base.equivocatingIndices ∪ indices } }

/-- Two effects that agree: one state per target, and no validator that counts votes twice in one
slot. -/
def VoteEffect.Compatible (excluded : Finset ValidatorIndex) : VoteEffect → VoteEffect → Prop
  | .ballot target state message voters, .ballot target' state' message' voters' =>
    (target = target' → state = state') ∧
      ∀ v ∈ voters, v ∈ voters' → v ∉ excluded → message.slot = message'.slot → message = message'
  | _, _ => True

namespace VoteEffect

variable {excluded : Finset ValidatorIndex}

/-- Compatible effects commute on tallies. -/
theorem count_comm {e e' : VoteEffect} (h : Compatible excluded e e') (t : Tally) :
    e'.count excluded (e.count excluded t) = e.count excluded (e'.count excluded t) := by
  cases e with
  | equivocation indices =>
    cases e' with
    | equivocation indices' =>
      simp only [count, Finset.union_assoc, Finset.union_comm indices indices']
    | ballot target' state' message' voters' => rfl
  | ballot target state message voters =>
    cases e' with
    | equivocation indices' => rfl
    | ballot target' state' message' voters' =>
      obtain ⟨hstate, hmessage⟩ := h
      have hcache : ((t.base.checkpointStates.insert target state).insert target' state') =
          ((t.base.checkpointStates.insert target' state').insert target state) := by
        by_cases htarget : target = target'
        · rw [htarget, hstate htarget]
        · exact Finmap.insert_insert_of_ne _ htarget
      refine Tally.ext ?_ ?_
      · simp only [count, hcache]
      · funext v
        simp only [count]
        by_cases hv : v ∈ voters ∧ v ∉ excluded
        · by_cases hv' : v ∈ voters' ∧ v ∉ excluded
          · rw [if_pos hv, if_pos hv, if_pos hv', if_pos hv']
            exact keepNewer_comm _ (hmessage v hv.1 hv'.1 hv.2)
          · rw [if_pos hv, if_pos hv, if_neg hv', if_neg hv']
        · rw [if_neg hv, if_neg hv]

end VoteEffect

namespace Store

variable {s : Store} {excluded : Finset ValidatorIndex}

theorem updateLatestMessage_lookup_eq (message : LatestMessage)
    (latest : HashMap ValidatorIndex LatestMessage) (index v : ValidatorIndex) :
    (s.updateLatestMessage message latest index).lookup v =
      if v = index ∧ v ∉ s.equivocatingIndices then keepNewer (latest.lookup v) message
      else latest.lookup v := by
  unfold updateLatestMessage keepNewer
  by_cases hindex : index ∈ s.equivocatingIndices
  · rw [if_pos hindex, if_neg]
    rintro ⟨rfl, hv⟩
    exact hv hindex
  · rw [if_neg hindex]
    by_cases hv : v = index
    · subst hv
      rw [if_pos (⟨rfl, hindex⟩ : v = v ∧ v ∉ s.equivocatingIndices)]
      by_cases hnewer : (latest.lookup v).all fun existing => existing.slot < message.slot
      · rw [if_pos hnewer, if_pos hnewer, Finmap.lookup_insert]
      · rw [if_neg hnewer, if_neg hnewer]
    · rw [if_neg fun h : v = index ∧ v ∉ s.equivocatingIndices => hv h.1]
      split
      · exact Finmap.lookup_insert_of_ne _ hv
      · rfl

/-- One vote after a ballot: the newer message is kept, and equivocators are skipped. -/
theorem foldl_updateLatestMessage_lookup (message : LatestMessage) (voters : List ValidatorIndex)
    (latest : HashMap ValidatorIndex LatestMessage) (v : ValidatorIndex) :
    (voters.foldl (s.updateLatestMessage message) latest).lookup v =
      if v ∈ voters ∧ v ∉ s.equivocatingIndices then keepNewer (latest.lookup v) message
      else latest.lookup v := by
  induction voters generalizing latest with
  | nil => simp
  | cons index voters ih =>
    rw [foldl_cons, ih, updateLatestMessage_lookup_eq]
    by_cases heq : v ∈ s.equivocatingIndices
    · simp [heq]
    · by_cases hv : v = index
      · -- a second vote of the same validator in one ballot changes nothing
        subst hv
        simp [heq, keepNewer_self]
      · simp [heq, hv]

/-- The write of a call counts its effect, whatever votes of excluded validators it stores. -/
theorem tally_apply (h : s.equivocatingIndices ⊆ excluded) (e : VoteEffect) :
    (e.apply s).tally excluded = e.count excluded (s.tally excluded) := by
  cases e with
  | equivocation indices => rfl
  | ballot target state message voters =>
    refine Tally.ext rfl (funext fun v => ?_)
    simp only [tally, VoteEffect.apply, VoteEffect.count, foldl_updateLatestMessage_lookup]
    by_cases hv : v ∈ excluded
    · simp [hv]
    · have hcounts : v ∉ s.equivocatingIndices := fun hmem => hv (h hmem)
      simp [hv, hcounts]

theorem apply_equivocatingIndices (e : VoteEffect) :
    (e.apply s).equivocatingIndices = s.equivocatingIndices ∪ e.equivocators := by
  cases e with
  | equivocation indices => rfl
  | ballot target state message voters => exact (Finset.union_empty _).symm

/-- The writes of a list of calls. -/
theorem foldl_apply_tally {calls : List VoteCall} {effect : VoteCall → VoteEffect}
    (h : s.equivocatingIndices ⊆ excluded)
    (hcalls : ∀ c ∈ calls, (effect c).equivocators ⊆ excluded) :
    (calls.foldl (fun s c => (effect c).apply s) s).tally excluded =
      calls.foldl (fun t c => (effect c).count excluded t) (s.tally excluded) := by
  induction calls generalizing s with
  | nil => rfl
  | cons c calls ih =>
    rw [foldl_cons, foldl_cons, ← tally_apply h]
    refine ih ?_ fun c' hc' => hcalls c' (mem_cons_of_mem _ hc')
    rw [apply_equivocatingIndices]
    exact Finset.union_subset h (hcalls c mem_cons_self)

/-- The equivocators once all the calls have been applied. -/
def equivocatorsAfter (s : Store) (calls : List VoteCall) : Finset ValidatorIndex :=
  calls.foldl (fun indices c => indices ∪ c.equivocators) s.equivocatingIndices

/-- No validator that ends up counting casts two different votes for one slot in the calls. -/
def NoDoubleVote [Crypto] (s : Store) (calls : List VoteCall) : Prop :=
  ∀ a isFromBlock a' isFromBlock' voters voters' v,
    .attestation a isFromBlock ∈ calls → .attestation a' isFromBlock' ∈ calls →
    s.attesters a = .ok voters → v ∈ voters → s.attesters a' = .ok voters' → v ∈ voters' →
    v ∉ s.equivocatorsAfter calls → a.data.slot = a'.data.slot →
    attestationMessage a = attestationMessage a'

variable {calls : List VoteCall} {effect : VoteCall → VoteEffect}

theorem mem_foldl_union {f : VoteCall → Finset ValidatorIndex} {indices : Finset ValidatorIndex}
    {v : ValidatorIndex} : v ∈ calls.foldl (fun indices c => indices ∪ f c) indices ↔
      v ∈ indices ∨ ∃ c ∈ calls, v ∈ f c := by
  induction calls generalizing indices with
  | nil => simp
  | cons c calls ih =>
    rw [foldl_cons, ih, Finset.mem_union]
    simp [or_assoc]

theorem foldl_apply_equivocatingIndices :
    (calls.foldl (fun s c => (effect c).apply s) s).equivocatingIndices =
      calls.foldl (fun indices c => indices ∪ (effect c).equivocators) s.equivocatingIndices := by
  induction calls generalizing s with
  | nil => rfl
  | cons c calls ih => rw [foldl_cons, foldl_cons, ih, apply_equivocatingIndices]

/-- What an accepted attestation writes, in terms of its voters. -/
theorem effectOf_attestation [Crypto] {a : Attestation} {isFromBlock : Bool}
    (h : s.effectOf (.attestation a isFromBlock) = .ok e) : ∃ state voters,
      s.targetState a.data.target = .ok state ∧ s.attesters a = .ok voters ∧
      e = .ballot a.data.target state (attestationMessage a) voters := by
  simp only [effectOf, bind_eq_ok] at h
  obtain ⟨_, -, state, hstate, voters, hvoters, h⟩ := h
  cases h
  refine ⟨state, voters, hstate, ?_, rfl⟩
  unfold attesters
  rw [hstate, ok_bind, hvoters]

theorem effectOf_attesterSlashing [Crypto] {a : AttesterSlashing}
    (h : s.effectOf (.attesterSlashing a) = .ok e) : e = .equivocation a.equivocators := by
  obtain ⟨_, -, h⟩ := bind_eq_ok.1 h
  cases h
  rfl

theorem effectOf_equivocators [Crypto] {c : VoteCall} (h : s.effectOf c = .ok e) :
    e.equivocators = c.equivocators := by
  cases c with
  | attestation a isFromBlock =>
    obtain ⟨state, voters, -, -, rfl⟩ := effectOf_attestation h
    rfl
  | attesterSlashing a =>
    rw [effectOf_attesterSlashing h]
    rfl

/-- Without double votes, the effects of the calls are compatible. -/
theorem NoDoubleVote.compatible [Crypto] (hvotes : s.NoDoubleVote calls)
    (h : ∀ c ∈ calls, s.effectOf c = .ok (effect c)) {c c' : VoteCall} (hc : c ∈ calls)
    (hc' : c' ∈ calls) :
    VoteEffect.Compatible (s.equivocatorsAfter calls) (effect c) (effect c') := by
  have he := h c hc
  have he' := h c' hc'
  cases c with
  | attesterSlashing a =>
    rw [effectOf_attesterSlashing he]
    trivial
  | attestation a isFromBlock =>
    obtain ⟨state, voters, hstate, hvoters, heq⟩ := effectOf_attestation he
    rw [heq]
    cases c' with
    | attesterSlashing a' =>
      rw [effectOf_attesterSlashing he']
      trivial
    | attestation a' isFromBlock' =>
      obtain ⟨state', voters', hstate', hvoters', heq'⟩ := effectOf_attestation he'
      rw [heq']
      refine ⟨fun htarget => ?_, fun v hv hv' hcounts hslot => ?_⟩
      · rw [htarget, hstate'] at hstate
        exact (Except.ok.inj hstate).symm
      · exact hvotes a isFromBlock a' isFromBlock' voters voters' v hc hc' hvoters hv hvoters' hv'
          hcounts hslot

/-- Stores with one tally differ only in votes that do not count. -/
theorem eq_withVotes_of_tally {s₁ s₂ : Store} (h : s₁.tally excluded = s₂.tally excluded)
    (hexcluded : excluded ⊆ s₁.equivocatingIndices) :
    s₂ = s₁.withVotes s₂.latestMessages ∧ s₁.SameCounted s₂.latestMessages := by
  have hbase : s₁.withVotes ∅ = s₂.withVotes ∅ := congrArg Tally.base h
  refine ⟨?_, fun v hv => ?_⟩
  · calc s₂ = (s₂.withVotes ∅).withVotes s₂.latestMessages := rfl
      _ = (s₁.withVotes ∅).withVotes s₂.latestMessages := by rw [hbase]
      _ = s₁.withVotes s₂.latestMessages := rfl
  · have hvote := congrFun (congrArg Tally.votes h) v
    have hcounts : v ∉ excluded := fun hmem => hv (hexcluded hmem)
    simp only [tally, if_neg hcounts] at hvote
    exact hvote.symm

/-- Calls with compatible effects give one tally in every order. -/
theorem tally_perm {calls' : List VoteCall} (hperm : calls.Perm calls')
    (hcompatible : ∀ c ∈ calls, ∀ c' ∈ calls, (effect c).Compatible excluded (effect c'))
    (hstore : s.equivocatingIndices ⊆ excluded)
    (hcalls : ∀ c ∈ calls, (effect c).equivocators ⊆ excluded) :
    (calls.foldl (fun s c => (effect c).apply s) s).tally excluded =
      (calls'.foldl (fun s c => (effect c).apply s) s).tally excluded := by
  rw [foldl_apply_tally hstore hcalls,
    foldl_apply_tally hstore fun c hc => hcalls c (hperm.mem_iff.2 hc)]
  exact hperm.foldl_eq' (fun c hc c' hc' t =>
    (VoteEffect.count_comm (hcompatible c hc c' hc') t)) _

/-- Vote-order independence. Attestations and slashings that a store accepts one by one are
accepted in every order, and the orders agree on the head and on all weights; what the validators
that end up as equivocators have voted changes neither. -/
theorem getHead_vote_order [Crypto] (haccepted : ∀ c ∈ calls, ∃ s', s.vote c = .ok s')
    (hvotes : s.NoDoubleVote calls) {calls₁ calls₂ : List VoteCall} (h₁ : calls₁.Perm calls)
    (h₂ : calls₂.Perm calls) : ∃ s₁ s₂,
      calls₁.foldlM vote s = .ok s₁ ∧ calls₂.foldlM vote s = .ok s₂ ∧
      (∀ o, s₁.getHead o = s₂.getHead o) ∧
      (∀ o node, s₁.getWeight o node = s₂.getWeight o node) ∧
      ∀ votes : HashMap ValidatorIndex LatestMessage,
        (∀ v, v ∉ s.equivocatorsAfter calls → votes.lookup v = s₁.latestMessages.lookup v) →
        ∀ o, (s₁.withVotes votes).getHead o = s₁.getHead o ∧
          ∀ node, (s₁.withVotes votes).getWeight o node = s₁.getWeight o node := by
  have hdecided : ∀ c ∈ calls, ∃ e, s.effectOf c = .ok e := by
    intro c hc
    obtain ⟨s', hs'⟩ := haccepted c hc
    obtain ⟨e, he, -⟩ := vote_eq_ok.1 hs'
    exact ⟨e, he⟩
  choose! effect heffect using hdecided
  let after (l : List VoteCall) : Store := l.foldl (fun s c => (effect c).apply s) s
  have hrun : ∀ l : List VoteCall, l.Perm calls → l.foldlM vote s = .ok (after l) :=
    fun l hl => foldlM_vote fun c hc => heffect c (hl.mem_iff.1 hc)
  -- the equivocators of the store after the calls, in any order
  have hequivocators : ∀ l : List VoteCall, l.Perm calls →
      (after l).equivocatingIndices = s.equivocatorsAfter calls := by
    intro l hl
    ext v
    rw [foldl_apply_equivocatingIndices, equivocatorsAfter, mem_foldl_union, mem_foldl_union]
    refine or_congr_right ⟨?_, ?_⟩
    · rintro ⟨c, hc, hv⟩
      have hc := hl.mem_iff.1 hc
      exact ⟨c, hc, effectOf_equivocators (heffect c hc) ▸ hv⟩
    · rintro ⟨c, hc, hv⟩
      exact ⟨c, hl.mem_iff.2 hc, (effectOf_equivocators (heffect c hc)).symm ▸ hv⟩
  have htally : (after calls₁).tally (s.equivocatorsAfter calls) =
      (after calls₂).tally (s.equivocatorsAfter calls) := by
    have hmem : ∀ c ∈ calls₁, c ∈ calls := fun c hc => h₁.mem_iff.1 hc
    refine tally_perm (h₁.trans h₂.symm) (fun c hc c' hc' =>
      hvotes.compatible heffect (hmem c hc) (hmem c' hc')) ?_ fun c hc v hv => ?_
    · exact fun v hv => mem_foldl_union.2 (.inl hv)
    · rw [effectOf_equivocators (heffect c (hmem c hc))] at hv
      exact mem_foldl_union.2 (.inr ⟨c, hmem c hc, hv⟩)
  obtain ⟨heq, hcounted⟩ := eq_withVotes_of_tally htally (hequivocators calls₁ h₁).ge
  refine ⟨after calls₁, after calls₂, hrun calls₁ h₁, hrun calls₂ h₂, fun o => ?_,
    fun o node => ?_, fun votes hsame o => ?_⟩
  · rw [heq, getHead_withVotes hcounted]
  · rw [heq, getWeight_withVotes hcounted]
  · have hcounted : (after calls₁).SameCounted votes :=
      fun v hv => hsame v (hequivocators calls₁ h₁ ▸ hv)
    exact ⟨getHead_withVotes hcounted o, getWeight_withVotes hcounted o⟩

end Store

end Moonglass

namespace Moonglass.Devnet

open Lib List

/-- The store of the network in slot 1. -/
def slotOne : Store := (seed genesis).run [.tick 6]

def headVote : Attestation := attestation 0 genesis.treeRoot genesis.treeRoot

/-- Evidence that the first validator has signed two votes for slot 0. -/
def doubleVote : AttesterSlashing :=
  ⟨⟨⟨[0], by decide⟩, headVote.data, zeros 96⟩,
    ⟨⟨[0], by decide⟩, { headVote.data with beaconBlockRoot := Root.ZERO }, zeros 96⟩⟩

/-- The vote and the slashing of one validator may come in either order. -/
theorem getHead_vote_order_slotOne : ∃ s₁ s₂,
    [VoteCall.attestation headVote false, .attesterSlashing doubleVote].foldlM Store.vote slotOne =
      .ok s₁ ∧
    [VoteCall.attesterSlashing doubleVote, .attestation headVote false].foldlM Store.vote slotOne =
      .ok s₂ ∧
    ∀ o, s₁.getHead o = s₂.getHead o := by
  have haccepted : ∀ c ∈ [VoteCall.attestation headVote false, .attesterSlashing doubleVote],
      ∃ s', slotOne.vote c = .ok s' := by
    have hvote : (slotOne.vote (.attestation headVote false)).isOk = true := by decide +kernel
    have hslashing : (slotOne.vote (.attesterSlashing doubleVote)).isOk = true := by
      decide +kernel
    intro c hc
    rcases mem_cons.1 hc with rfl | hc
    · exact exists_ok_of_isOk hvote
    · rw [mem_singleton.1 hc]
      exact exists_ok_of_isOk hslashing
  -- there is one attestation only, so no two of them differ
  have hone : ∀ a isFromBlock, VoteCall.attestation a isFromBlock ∈
      [VoteCall.attestation headVote false, .attesterSlashing doubleVote] → a = headVote := by
    intro a isFromBlock h
    rcases mem_cons.1 h with h | h
    · cases h
      rfl
    · cases mem_singleton.1 h
  have hvotes : slotOne.NoDoubleVote
      [VoteCall.attestation headVote false, .attesterSlashing doubleVote] := by
    intro a isFromBlock a' isFromBlock' voters voters' v ha ha' _ _ _ _ _ _
    rw [hone a isFromBlock ha, hone a' isFromBlock' ha']
  obtain ⟨s₁, s₂, h₁, h₂, hhead, -⟩ := Store.getHead_vote_order haccepted hvotes
    (List.Perm.refl _) (List.Perm.swap _ _ _)
  exact ⟨s₁, s₂, h₁, h₂, hhead⟩

end Moonglass.Devnet
