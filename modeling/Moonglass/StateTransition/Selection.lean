import Moonglass.Lib.Sampling
import Moonglass.StateTransition.Shuffling

/-
  The two samplers of the committee code draw from the same stream. Turn `i` draws a candidate by
  its shuffled position and a random value from the digest of `i / 16`; the proposer sampler
  computes that digest in every turn, the selection keeps it for sixteen turns.
-/

namespace Moonglass

open Lib List

variable [Preset] [Crypto]
variable {index : ValidatorIndex} {v : Validator}

namespace BeaconState

variable {s : BeaconState}

/-- The error of a draw counter that overflows. -/
def drawsExhausted : TransitionError := .arithmeticOverflow .boundedListLength

/-- The digest that the draws `16 * (i / 16)` and the fifteen after it read. -/
def drawDigest (seed : Bytes32) (i : Nat) : Bytes32 :=
  Crypto.sha256 (seed.toList ++ toLeBytes 8 (i / 16))

/-- One turn of the selection: the candidate at the place of the draw, if its balance is accepted
for the random value of the draw. -/
def selectionDraw (candidates : List ValidatorIndex) (balances : List Gwei) (seed : Bytes32)
    (shuffleIndices : Bool) (i : Nat) : Transition (Option ValidatorIndex) := do
  let nextIndex ←
    if shuffleIndices then computeShuffledIndexChecked (i % candidates.length) candidates.length seed
    else pure (i % candidates.length)
  if ← weightAccepted (balances.getD nextIndex 0)
      (randomValueAt (drawDigest seed i) (i % 16 * 2)) then
    pure (some (candidates.getD nextIndex 0))
  else pure none

/-- The selection collects from its draws. The digest it carries is that of the current draw, except
at the draws that compute a new one. -/
theorem balanceWeightedSelectionLoop_eq (candidates : List ValidatorIndex) (balances : List Gwei)
    (seed : Bytes32) (size : Nat) (shuffleIndices : Bool) (fuel i : Nat) (randomBytes : Bytes32)
    (selected : List ValidatorIndex) (hbytes : i % 16 ≠ 0 → randomBytes = drawDigest seed i) :
    balanceWeightedSelectionLoop candidates balances seed size shuffleIndices fuel i
        randomBytes selected =
      collect (selectionDraw candidates balances seed shuffleIndices) drawsExhausted size fuel i
        selected := by
  induction fuel generalizing i randomBytes selected with
  | zero => rfl
  | succ fuel ih =>
    rw [balanceWeightedSelectionLoop, collect]
    have hdigest : (if i % 16 * 2 = 0 then
        Crypto.sha256 (seed.toList ++ toLeBytes 8 (i / 16)) else randomBytes) =
        drawDigest seed i := by
      by_cases hzero : i % 16 = 0
      · rw [if_pos (by rw [hzero])]
        rfl
      · rw [if_neg (by omega), hbytes hzero]
    have hnext : (i + 1) % 16 ≠ 0 → drawDigest seed i = drawDigest seed (i + 1) := by
      intro hinner
      unfold drawDigest
      rw [show (i + 1) / 16 = i / 16 by omega]
    refine if_congr Iff.rfl ?_ rfl
    dsimp only
    rw [hdigest]
    simp only [ih _ _ _ hnext]
    -- the turn and the draw look up the same place and compare the same weight
    unfold selectionDraw
    cases shuffleIndices with
    | true =>
      simp only [if_true, bind_assoc]
      congr 1
      funext nextIndex
      congr 1
      funext accepted
      cases accepted <;> rfl
    | false =>
      simp only [Bool.false_eq_true, if_false, bind_assoc, pure_bind]
      congr 1
      funext accepted
      cases accepted <;> rfl

/-- One turn of the proposer sampler. -/
def proposerDraw (s : BeaconState) (indices : List ValidatorIndex) (seed : Bytes32) (i : Nat) :
    Transition (Option ValidatorIndex) := do
  let candidateIndex ← computeShuffledIndexChecked (i % indices.length) indices.length seed
  let candidate := indices.getD candidateIndex 0
  let v ← s.validator candidate
  if ← weightAccepted v.effectiveBalance (randomValueAt (drawDigest seed i) (i % 16 * 2)) then
    pure (some candidate)
  else pure none

/-- The proposer sampler returns the first accepted draw. -/
theorem computeProposerIndexLoop_eq (indices : List ValidatorIndex) (seed : Bytes32)
    (fuel i : Nat) : s.computeProposerIndexLoop indices seed fuel i =
      firstHit (s.proposerDraw indices seed) drawsExhausted fuel i := by
  induction fuel generalizing i with
  | zero => rfl
  | succ fuel ih =>
    rw [computeProposerIndexLoop, firstHit, proposerDraw]
    simp only [bind_assoc, ih]
    congr 1
    funext candidateIndex
    congr 1
    funext v
    congr 1
    funext accepted
    cases accepted <;> rfl

/-! ## The same draws -/

/-- A shuffled index is in range. -/
theorem computeShuffledIndexChecked_lt (index n : Nat) (seed : Bytes32) :
    Ensures (computeShuffledIndexChecked index n seed) (· < n) := by
  unfold computeShuffledIndexChecked
  refine .guard fun hne => ?_
  refine .guard fun hindex => ?_
  refine .foldlM (fun round current hcurrent => .skip fun _ => .skip fun bit => .pure ?_) hindex
  have hpivot := pivotForRound_lt seed round (Nat.pos_of_ne_zero hne)
  have hswap : swapOrNot n (pivotForRound seed round n) (fun _ => bit) current < n :=
    swapOrNot_lt hpivot hcurrent
  exact hswap

/-- The effective balance of a registered validator. -/
def effectiveBalanceOf (s : BeaconState) (index : ValidatorIndex) : Gwei :=
  ((s.validators.get? index.val).map (·.effectiveBalance)).getD 0

omit [Crypto] in
theorem effectiveBalanceOf_eq (hv : s.validators.get? index.val = some v) :
    s.effectiveBalanceOf index = v.effectiveBalance := by
  unfold effectiveBalanceOf
  rw [hv]
  rfl

omit [Crypto] in
theorem exists_validator (h : index.val < s.validators.length) :
    ∃ v, s.validators.get? index.val = some v := ⟨_, getElem?_eq_getElem h⟩

omit [Crypto] in
theorem validator_of_get? (hv : s.validators.get? index.val = some v) :
    s.validator index = .ok v := by
  unfold validator
  rw [hv]
  rfl

section

variable {candidates : List ValidatorIndex}

omit [Crypto] in
theorem mapM_effectiveBalance (hrange : ∀ c ∈ candidates, c.val < s.validators.length) :
    candidates.mapM (fun i => do pure (← s.validator i).effectiveBalance) =
      .ok (candidates.map s.effectiveBalanceOf) := by
  refine mapM_eq_map fun c hc => ?_
  obtain ⟨v, hv⟩ := exists_validator (hrange c hc)
  rw [validator_of_get? hv, ok_bind, effectiveBalanceOf_eq hv]
  rfl

/-- A turn of the proposer sampler is a turn of the shuffled selection. -/
theorem proposerDraw_eq (hrange : ∀ c ∈ candidates, c.val < s.validators.length)
    (seed : Bytes32) (i : Nat) : s.proposerDraw candidates seed i =
      selectionDraw candidates (candidates.map s.effectiveBalanceOf) seed true i := by
  unfold proposerDraw selectionDraw
  rw [if_pos rfl]
  cases hshuffled : computeShuffledIndexChecked (i % candidates.length) candidates.length seed with
  | error e => rfl
  | ok place =>
    have hplace : place < candidates.length := computeShuffledIndexChecked_lt _ _ _ _ hshuffled
    have hcandidate : candidates.getD place 0 = candidates[place] := by
      rw [getD_eq_getElem?_getD, getElem?_eq_getElem hplace]
      rfl
    obtain ⟨v, hv⟩ := exists_validator (hrange _ (getElem_mem hplace))
    have hbalance : (candidates.map s.effectiveBalanceOf).getD place 0 = v.effectiveBalance := by
      rw [getD_eq_getElem?_getD, getElem?_map, getElem?_eq_getElem hplace]
      exact effectiveBalanceOf_eq hv
    simp only [ok_bind, hcandidate, validator_of_get? hv, hbalance]

theorem computeProposerIndex_eq (hne : candidates ≠ []) (seed : Bytes32) :
    s.computeProposerIndex candidates seed =
      firstHit (s.proposerDraw candidates seed) drawsExhausted (2 ^ 64) 0 := by
  unfold computeProposerIndex
  rw [ensure_of (by simpa using hne), ok_bind, computeProposerIndexLoop_eq]

theorem computeBalanceWeightedSelection_eq (hne : candidates ≠ [])
    (hrange : ∀ c ∈ candidates, c.val < s.validators.length) (seed : Bytes32) (size : Nat)
    (shuffleIndices : Bool) :
    s.computeBalanceWeightedSelection candidates seed size shuffleIndices =
      collect (selectionDraw candidates (candidates.map s.effectiveBalanceOf) seed shuffleIndices)
        drawsExhausted size (2 ^ 64) 0 [] := by
  unfold computeBalanceWeightedSelection
  rw [ensure_of (by simpa using hne), ok_bind, mapM_effectiveBalance hrange, ok_bind]
  exact balanceWeightedSelectionLoop_eq _ _ _ _ _ _ _ _ _ fun h => absurd rfl h

/-- The proposer sampler returns the first accepted draw of its counter, and the shuffled selection
of one candidate returns it too, exactly when the counter can still move past it. A smaller
selection returns the first candidates of a larger one. -/
theorem selections_agree (s : BeaconState) {candidates : List ValidatorIndex}
    (hne : candidates ≠ []) (hrange : ∀ c ∈ candidates, c.val < s.validators.length)
    (seed : Bytes32) :
    (∀ v, s.computeProposerIndex candidates seed = .ok v ↔
      ∃ i < 2 ^ 64, HitAt (s.proposerDraw candidates seed) 0 i v) ∧
    (∀ v, (∃ i < 2 ^ 64 - 1, HitAt (s.proposerDraw candidates seed) 0 i v) ↔
      s.computeBalanceWeightedSelection candidates seed 1 true = .ok [v]) ∧
    ∀ shuffleIndices k n selected, k ≤ n →
      s.computeBalanceWeightedSelection candidates seed n shuffleIndices = .ok selected →
      s.computeBalanceWeightedSelection candidates seed k shuffleIndices =
        .ok (selected.take k) := by
  refine ⟨fun v => ?_, fun v => ?_, fun shuffleIndices k n selected hk h => ?_⟩
  · rw [computeProposerIndex_eq hne, firstHit_eq_ok, Nat.zero_add]
  · have hdraws : s.proposerDraw candidates seed =
        selectionDraw candidates (candidates.map s.effectiveBalanceOf) seed true := by
      funext i
      exact proposerDraw_eq hrange seed i
    rw [computeBalanceWeightedSelection_eq hne hrange, collect_one_eq_ok, hdraws]
    refine exists_congr fun i => and_congr_left fun _ => ?_
    omega
  · rw [computeBalanceWeightedSelection_eq hne hrange] at h ⊢
    exact collect_take hk (Nat.zero_le k) h

end

end BeaconState

end Moonglass

namespace Moonglass.Devnet

open List

/-- Among three validators of the market both samplers return the same one. -/
theorem selections_agree_market : ∃ v, market.computeProposerIndex [0, 1, 2] (zeros 32) = .ok v ∧
    market.computeBalanceWeightedSelection [0, 1, 2] (zeros 32) 1 true = .ok [v] := by
  have hcheck : (market.computeBalanceWeightedSelection [0, 1, 2] (zeros 32) 1 true).map
      List.length = .ok 1 := by
    decide +kernel
  have hrange : ∀ c ∈ ([0, 1, 2] : List ValidatorIndex), c.val < market.validators.length := by
    rw [show market.validators.length = 8 from rfl]
    intro c hc
    simp only [mem_cons, not_mem_nil, or_false] at hc
    rcases hc with rfl | rfl | rfl <;> decide
  obtain ⟨hproposer, hone, -⟩ := BeaconState.selections_agree market
    (show ([0, 1, 2] : List ValidatorIndex) ≠ [] by decide) hrange (zeros 32)
  generalize market.computeBalanceWeightedSelection [0, 1, 2] (zeros 32) 1 true = selected
    at hcheck hone ⊢
  generalize market.computeProposerIndex [0, 1, 2] (zeros 32) = proposer at hproposer ⊢
  cases selected with
  | error e => cases hcheck
  | ok l =>
    obtain ⟨v, rfl⟩ := length_eq_one_iff.1 (Except.ok.inj hcheck)
    obtain ⟨i, hlt, hit⟩ := (hone v).2 rfl
    exact ⟨v, (hproposer v).2 ⟨i, Nat.lt_of_lt_of_le hlt (Nat.sub_le _ _), hit⟩, rfl⟩

end Moonglass.Devnet
