import Mathlib.Tactic.Linarith
import Mathlib.Tactic.Ring
import Moonglass.Devnet

/-
  The integer square root and the reward arithmetic built on it. The root is a Newton iteration
  on `u64`, and the reward functions multiply and divide without checks; both are compared here
  with versions in which an overflow or a division by zero has no result.
-/

namespace Moonglass

open Lib Word

/-! ## The Newton iteration -/

/-- The loop of `integer_squareroot` ends in `r` when it starts with `x` and `y`, and no
    iteration divides by zero. -/
inductive NewtonRuns (n : Nat) : Nat → Nat → Nat → Prop
  | done {x y : Nat} (h : ¬ y < x) : NewtonRuns n x y x
  | step {x y r : Nat} (h : y < x) (hy : y ≠ 0) (hr : NewtonRuns n y ((y + n / y) / 2) r) :
      NewtonRuns n x y r

/-- A Newton step from a positive guess does not fall below the root `z`: otherwise `x` and
    `n / x + 1` would add up to at most `2 * z`, and their product, which exceeds `n`, would be at
    most `z * z`. -/
theorem sqrt_le_newton {n x : Nat} (hx : 0 < x) : Nat.sqrt n ≤ (x + n / x) / 2 := by
  rw [Nat.le_div_iff_mul_le Nat.two_pos]
  by_contra hlt
  have hsum : x + (n / x + 1) ≤ 2 * Nat.sqrt n := by omega
  have hprod : 4 * x * (n / x + 1) ≤ (2 * Nat.sqrt n) ^ 2 :=
    (four_mul_le_sq_add x (n / x + 1)).trans (Nat.pow_le_pow_left hsum 2)
  have hlt : n < x * (n / x + 1) := Nat.lt_mul_div_succ n hx
  have hle : Nat.sqrt n * Nat.sqrt n ≤ n := Nat.sqrt_le n
  linarith [hprod, hlt, hle]

/-- A guess that the next step does not lower is at most the root. -/
theorem le_sqrt_of_newton {n x : Nat} (hx : 0 < x) (h : ¬ (x + n / x) / 2 < x) :
    x ≤ Nat.sqrt n := by
  have hdiv : x ≤ n / x := by omega
  exact Nat.le_sqrt.2 ((Nat.le_div_iff_mul_le hx).1 hdiv)

/-- From a guess not below the root, `x` iterations suffice; the guess stays positive. -/
theorem newtonRuns_loop {n : Nat} (hn : 0 < n) {fuel x : Nat} (hx : 0 < x) (hfuel : x ≤ fuel)
    (hroot : Nat.sqrt n ≤ x) :
    NewtonRuns n x ((x + n / x) / 2) (Nat.sqrt n) ∧
      integerSquarerootLoop n fuel x ((x + n / x) / 2) = Nat.sqrt n := by
  induction fuel generalizing x with
  | zero => omega
  | succ fuel ih =>
    rw [integerSquarerootLoop]
    split
    · rename_i hlt
      have hbelow := sqrt_le_newton (n := n) hx
      have hpos : 0 < (x + n / x) / 2 := (Nat.sqrt_pos.2 hn).trans_le hbelow
      obtain ⟨hruns, hloop⟩ := ih hpos (by omega) hbelow
      exact ⟨.step hlt hpos.ne' hruns, hloop⟩
    · rename_i hge
      have heq : x = Nat.sqrt n := le_antisymm (le_sqrt_of_newton hx hge) hroot
      exact ⟨heq ▸ .done hge, heq⟩

/-- The loop starts at `n` itself, whose Newton step is `n.div_ceil(2)`. -/
theorem newtonRuns_start {n : Nat} (hn : 0 < n) :
    NewtonRuns n n ((n + 1) / 2) (Nat.sqrt n) ∧
      integerSquarerootLoop n n n ((n + 1) / 2) = Nat.sqrt n := by
  have h := newtonRuns_loop hn hn le_rfl (Nat.sqrt_le_self n)
  rwa [Nat.div_self hn] at h

theorem integerSquareroot_eq (n : U64) : integerSquareroot n = Nat.sqrt n.val := by
  unfold integerSquareroot
  split
  · rename_i hmax
    rw [hmax, max_val]
    exact Nat.eq_sqrt.2 (by decide)
  · rcases Nat.eq_zero_or_pos n.val with hzero | hpos
    · rw [hzero]; rfl
    · exact (newtonRuns_start hpos).2

theorem newtonRuns_integerSquareroot (n : U64) :
    NewtonRuns n.val n.val ((n.val + 1) / 2) (integerSquareroot n) := by
  rw [integerSquareroot_eq]
  rcases Nat.eq_zero_or_pos n.val with hzero | hpos
  · rw [hzero]
    exact .done (by decide)
  · exact (newtonRuns_start hpos).1

/-! ## Reward arithmetic with every operation checked -/

/-- The arithmetic of `get_base_reward_per_increment` on a total active balance. -/
def baseRewardPerIncrementChecked (total : U64) : Option U64 := do
  let numerator ← (Word.wrap effectiveBalanceIncrement : U64).checkedMul baseRewardFactor
  numerator.checkedDiv (integerSquareroot total)

/-- The reward of one increment times the number of increments is of the size of the root: a
    total below `(r + 1) ^ 2` is at most `3 * r ^ 2`, and one factor `r` is divided away. -/
theorem totalBaseRewards_lt (total : U64) (htotal : effectiveBalanceIncrement ≤ total.val) :
    effectiveBalanceIncrement * baseRewardFactor / integerSquareroot total *
      (total.val / effectiveBalanceIncrement) < 2 ^ 40 := by
  rw [integerSquareroot_eq]
  have hroot : Nat.sqrt total.val < 2 ^ 32 := Nat.sqrt_lt.2 total.isLt
  have hupper : total.val < (Nat.sqrt total.val + 1) * (Nat.sqrt total.val + 1) :=
    Nat.lt_succ_sqrt total.val
  have hpos : 0 < Nat.sqrt total.val := by
    have : effectiveBalanceIncrement = 1000000000 := rfl
    exact Nat.sqrt_pos.2 (by omega)
  have hper := Nat.div_mul_le_self (effectiveBalanceIncrement * baseRewardFactor)
    (Nat.sqrt total.val)
  have hincs := Nat.div_mul_le_self total.val effectiveBalanceIncrement
  generalize effectiveBalanceIncrement * baseRewardFactor / Nat.sqrt total.val = per at hper ⊢
  generalize total.val / effectiveBalanceIncrement = incs at hincs ⊢
  generalize Nat.sqrt total.val = r at hroot hupper hpos hper
  have hfactor : effectiveBalanceIncrement * baseRewardFactor = 64000000000 := rfl
  have hunit : effectiveBalanceIncrement = 1000000000 := rfl
  rw [hfactor] at hper
  rw [hunit] at hincs
  have htriple : incs * 1000000000 ≤ 3 * (r * r) := by nlinarith
  have hscaled : per * incs * 1000000000 ≤ 64000000000 * (3 * r) :=
    calc per * incs * 1000000000 = per * (incs * 1000000000) := by ring
      _ ≤ per * (3 * (r * r)) := Nat.mul_le_mul_left _ htriple
      _ = per * r * (3 * r) := by ring
      _ ≤ 64000000000 * (3 * r) := Nat.mul_le_mul_right _ hper
  omega

theorem baseRewardPerIncrementChecked_eq (total : U64)
    (htotal : effectiveBalanceIncrement ≤ total.val) :
    ∃ p, baseRewardPerIncrementChecked total = some p ∧
      p.val = effectiveBalanceIncrement * baseRewardFactor / integerSquareroot total := by
  have hpos : integerSquareroot total ≠ 0 := by
    have : effectiveBalanceIncrement = 1000000000 := rfl
    rw [integerSquareroot_eq]
    exact (Nat.sqrt_pos.2 (by omega)).ne'
  let numerator : U64 := ⟨effectiveBalanceIncrement * baseRewardFactor, by decide⟩
  refine ⟨numerator.div (integerSquareroot total), ?_, rfl⟩
  have hmul : (Word.wrap effectiveBalanceIncrement : U64).checkedMul baseRewardFactor =
      some numerator := checkedMul_eq_some.2 rfl
  have hdiv : numerator.checkedDiv (integerSquareroot total) =
      some (numerator.div (integerSquareroot total)) := checkedDiv_eq_some.2 ⟨hpos, rfl⟩
  simp only [baseRewardPerIncrementChecked, hmul, hdiv, Option.bind_eq_bind, Option.bind_some]

section

variable [Preset]

/-- The arithmetic of `sync_aggregate_rewards`, one operation at a time. -/
def syncAggregateRewardsChecked (total perIncrement : U64) : Option SyncAggregateRewards := do
  let totalActiveIncrements ← total.checkedDiv effectiveBalanceIncrement
  let totalBaseRewards ← perIncrement.checkedMul totalActiveIncrements.val
  let weighted ← totalBaseRewards.checkedMul syncRewardWeight
  let perEpoch ← weighted.checkedDiv weightDenominator
  let maxParticipantRewards ← perEpoch.checkedDiv slotsPerEpoch
  let participant ← maxParticipantRewards.checkedDiv syncCommitteeSize
  let scaled ← participant.checkedMul proposerWeight
  let remaining ← (Word.wrap weightDenominator : U64).checkedSub proposerWeight
  let proposer ← scaled.checkedDiv remaining.val
  pure ⟨participant, proposer⟩

/-- With a product below `2 ^ 40`, the later factors of the sync rewards stay in a word, and the
    wrapping arithmetic of the source computes the same rewards. -/
theorem syncAggregateRewardsChecked_eq {total p : U64}
    (hsmall : p.val * (total.val / effectiveBalanceIncrement) < 2 ^ 40) :
    ∃ r, syncAggregateRewardsChecked total p = some r ∧
      ∀ s : BeaconState, s.getTotalActiveBalance = .ok total →
        s.getBaseRewardPerIncrement = .ok p.val → s.syncAggregateRewards = .ok r := by
  let base : U64 := ⟨p.val * (total.val / effectiveBalanceIncrement), by omega⟩
  have hweighted : base.val * syncRewardWeight < 2 ^ 41 :=
    Nat.mul_lt_mul_of_pos_right hsmall (by decide)
  let weighted : U64 := ⟨base.val * syncRewardWeight, by omega⟩
  let participant : U64 :=
    ((weighted.div weightDenominator).div slotsPerEpoch).div syncCommitteeSize
  have hparticipant : participant.val ≤ base.val * syncRewardWeight :=
    (Nat.div_le_self _ _).trans ((Nat.div_le_self _ _).trans (Nat.div_le_self _ _))
  have hscaled : participant.val * proposerWeight < 2 ^ 44 :=
    Nat.mul_lt_mul_of_pos_right (hparticipant.trans_lt hweighted) (by decide)
  let scaled : U64 := ⟨participant.val * proposerWeight, by omega⟩
  refine ⟨⟨participant, scaled.div (weightDenominator - proposerWeight)⟩, ?_, ?_⟩
  · have hslots : slotsPerEpoch ≠ 0 := slotsPerEpoch_pos.ne'
    have hsize : syncCommitteeSize ≠ 0 := by
      unfold syncCommitteeSize
      rcases pick_cases 512 32 with h | h <;> simp [h]
    simp only [syncAggregateRewardsChecked, Option.bind_eq_bind, Option.bind_eq_some_iff,
      checkedDiv_eq_some, checkedMul_eq_some, checkedSub_eq_some]
    exact ⟨total.div effectiveBalanceIncrement, ⟨by decide, rfl⟩, base, rfl, weighted, rfl,
      weighted.div weightDenominator, ⟨by decide, rfl⟩,
      (weighted.div weightDenominator).div slotsPerEpoch, ⟨hslots, rfl⟩,
      participant, ⟨hsize, rfl⟩, scaled, rfl,
      ⟨weightDenominator - proposerWeight, by decide⟩, by decide,
      scaled.div (weightDenominator - proposerWeight), ⟨by decide, rfl⟩, rfl⟩
  · intro s hs hp
    have hwbase : (Word.wrap (p.val * (total.val / effectiveBalanceIncrement)) : U64) = base :=
      Fin.ext (wrap_val_of_lt base.isLt)
    have hwweighted : (Word.wrap (base.val * syncRewardWeight) : U64) = weighted :=
      Fin.ext (wrap_val_of_lt weighted.isLt)
    have hwparticipant : (Word.wrap (weighted.val / weightDenominator / slotsPerEpoch /
        syncCommitteeSize) : U64) = participant := Fin.ext (wrap_val_of_lt participant.isLt)
    have hwscaled : (Word.wrap (participant.val * proposerWeight) : U64) = scaled :=
      Fin.ext (wrap_val_of_lt scaled.isLt)
    simp only [BeaconState.syncAggregateRewards, hs, hp, ok_bind, hwbase, hwweighted,
      hwparticipant, hwscaled]
    rfl

/-- The integer square root ends without a division by zero in the largest number whose square is
    at most its argument. On every total active balance of at least one increment, the reward
    arithmetic with every operation checked has a result, and the unchecked functions return it. -/
theorem integerSquareroot_greatest_rewards_exact :
    (∀ n : U64, (n ≠ Word.max → NewtonRuns n.val n.val ((n.val + 1) / 2) (integerSquareroot n)) ∧
      IsGreatest {x | x * x ≤ n.val} (integerSquareroot n)) ∧
    ∀ total : U64, effectiveBalanceIncrement ≤ total.val →
      ∃ p r, baseRewardPerIncrementChecked total = some p ∧
        syncAggregateRewardsChecked total p = some r ∧
        ∀ s : BeaconState, s.getTotalActiveBalance = .ok total →
          s.getBaseRewardPerIncrement = .ok p.val ∧ s.syncAggregateRewards = .ok r := by
  refine ⟨fun n => ⟨fun _ => newtonRuns_integerSquareroot n, ?_⟩, fun total htotal => ?_⟩
  · rw [integerSquareroot_eq]
    exact ⟨Nat.sqrt_le n.val, fun x hx => Nat.le_sqrt.2 hx⟩
  · obtain ⟨p, hchecked, hp⟩ := baseRewardPerIncrementChecked_eq total htotal
    have hsmall := totalBaseRewards_lt total htotal
    rw [← hp] at hsmall
    obtain ⟨r, hr, hrewards⟩ := syncAggregateRewardsChecked_eq hsmall
    refine ⟨p, r, hchecked, hr, fun s hs => ?_⟩
    have hbase : s.getBaseRewardPerIncrement = .ok p.val := by
      unfold BeaconState.getBaseRewardPerIncrement
      rw [hs, ok_bind, ensure_of (by decide), ok_bind, hp]
      rfl
    exact ⟨hbase, hrewards s hs hbase⟩

end

end Moonglass

namespace Moonglass.Devnet

open Lib

/-- The root of ten is three, and the rewards of the genesis state are exact. -/
theorem integerSquareroot_ten_genesis_rewards :
    (10 : U64) ≠ Word.max ∧ NewtonRuns 10 10 5 (integerSquareroot 10) ∧
    IsGreatest {x | x * x ≤ 10} (integerSquareroot 10) ∧
    (stateAfter genesis).getTotalActiveBalance = .ok 2272000000000 ∧
    ∃ (p : U64) (r : SyncAggregateRewards),
      (stateAfter genesis).getBaseRewardPerIncrement = .ok p.val ∧
      (stateAfter genesis).syncAggregateRewards = .ok r := by
  have hten : (10 : U64) ≠ Word.max := by decide
  obtain ⟨hroot, hrewards⟩ := integerSquareroot_greatest_rewards_exact
  have htotal : (stateAfter genesis).getTotalActiveBalance = .ok 2272000000000 := by
    decide +kernel
  obtain ⟨p, r, -, -, hstate⟩ := hrewards 2272000000000 (by decide)
  obtain ⟨hbase, hsync⟩ := hstate (stateAfter genesis) htotal
  exact ⟨hten, (hroot 10).1 hten, (hroot 10).2, htotal, p, r, hbase, hsync⟩

end Moonglass.Devnet
