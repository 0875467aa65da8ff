import Moonglass.Lib.Tally

/-
  Sums in a ring. Amounts are recorded in the bucket of the time they arrive at, and a step to the
  next time clears that time's bucket. Then the ring of size `n` sums to what was recorded at the
  last `n` times, the current one included.
-/

namespace Moonglass.Lib

open Finset

variable {α β : Type} {n : Nat} [NeZero n]

/-- What the records of the ring's last turn count for in the bucket of time `t`. -/
def bucketSum (n : Nat) (time amount : β → Nat) (l : List β) (now t : Nat) : Nat :=
  tally amount (l.filter fun b => time b % n = t % n ∧ now < time b + n)

/-- The ring holds, bucket by bucket, the records of its last turn. -/
structure Tallies (value : α → Nat) (time amount : β → Nat) (v : Vector α n) (l : List β)
    (now : Nat) : Prop where
  past : ∀ b ∈ l, time b ≤ now
  bucket : ∀ t, value (ringGet v t) = bucketSum n time amount l now t

namespace Tallies

variable {value : α → Nat} {time amount : β → Nat} {v : Vector α n} {l : List β} {now : Nat}

theorem start (hv : ∀ t, value (ringGet v t) = 0) : Tallies value time amount v [] now :=
  ⟨by simp, fun t => hv t⟩

/-- Records of the current time go to its bucket. -/
theorem record (h : Tallies value time amount v l now) {v' : Vector α n} {more : List β}
    (htime : ∀ b ∈ more, time b = now)
    (hv' : ∀ t, value (ringGet v' t) =
      value (ringGet v t) + if t % n = now % n then tally amount more else 0) :
    Tallies value time amount v' (l ++ more) now where
  past := by
    intro b hb
    rcases List.mem_append.1 hb with hb | hb
    · exact h.past b hb
    · exact (htime b hb).le
  bucket := by
    intro t
    have hn : 0 < n := Nat.pos_of_ne_zero (NeZero.ne n)
    have hmore : bucketSum n time amount more now t =
        if t % n = now % n then tally amount more else 0 := by
      unfold bucketSum
      split
      · rename_i ht
        rw [List.filter_eq_self.2 fun b hb => by simp [htime b hb, ht, hn]]
      · rename_i ht
        rw [List.filter_eq_nil_iff.2 fun b hb => by simp [htime b hb, Ne.symm ht]]
        rfl
    rw [hv', h.bucket, ← hmore]
    unfold bucketSum
    rw [List.filter_append, tally_append]

/-- At the next time its bucket is cleared of the records of a turn ago. -/
theorem tick (h : Tallies value time amount v l now) {v' : Vector α n}
    (hcleared : value (ringGet v' (now + 1)) = 0)
    (hother : ∀ t, t % n ≠ (now + 1) % n → ringGet v' t = ringGet v t) :
    Tallies value time amount v' l (now + 1) where
  past b hb := (h.past b hb).trans (Nat.le_succ now)
  bucket := by
    intro t
    unfold bucketSum
    by_cases ht : t % n = (now + 1) % n
    · have hsame : ringGet v' t = ringGet v' (now + 1) := by
        unfold ringGet
        simp only [ht]
      rw [hsame, hcleared, List.filter_eq_nil_iff.2]
      · rfl
      · intro b hb hlive
        obtain ⟨hmod, hlt⟩ : time b % n = t % n ∧ now + 1 < time b + n := by simpa using hlive
        have hpast := h.past b hb
        have := eq_of_mod_eq (hmod.trans ht) (by omega) (by omega)
        omega
    · rw [hother t ht, h.bucket]
      unfold bucketSum
      congr 1
      refine List.filter_congr fun b _ => decide_eq_decide.2 (and_congr_right fun hmod => ?_)
      -- a record that leaves the window now would stand in the cleared bucket
      have hne : now + 1 ≠ time b + n := by
        intro heq
        rw [heq, Nat.add_mod_right] at ht
        exact ht hmod.symm
      omega

/-- The whole ring sums to the records of the last `n` times. -/
theorem total (h : Tallies value time amount v l now) :
    tally value v.toList = tally amount (l.filter fun b => now < time b + n) := by
  have hn : 0 < n := Nat.pos_of_ne_zero (NeZero.ne n)
  have hplaces : tally value v.toList = ∑ i ∈ range n, bucketSum n time amount l now i := by
    rw [tally_eq_sum (n := n) (by simp)]
    refine sum_congr rfl fun i hi => ?_
    have hi := mem_range.1 hi
    rw [← h.bucket i, tallyAt_of_some (a := v[i]) (by simp [hi])]
    unfold ringGet
    simp only [Nat.mod_eq_of_lt hi]
    rfl
  rw [hplaces]
  clear h hplaces
  unfold bucketSum
  -- each record stands in the bucket of its time and in no other
  induction l with
  | nil => simp
  | cons b l ih =>
    have hcell : ∀ i ∈ range n, tally amount
        ((b :: l).filter fun b => time b % n = i % n ∧ now < time b + n) =
        (if time b % n = i then if now < time b + n then amount b else 0 else 0) +
          tally amount (l.filter fun b => time b % n = i % n ∧ now < time b + n) := by
      intro i hi
      rw [Nat.mod_eq_of_lt (mem_range.1 hi)]
      by_cases hb : time b % n = i <;> by_cases hlive : now < time b + n <;> simp [hb, hlive]
    rw [sum_congr rfl hcell, sum_add_distrib, ih, sum_ite_eq (range n),
      if_pos (mem_range.2 (Nat.mod_lt _ hn))]
    by_cases hlive : now < time b + n <;> simp [hlive]

end Tallies

end Moonglass.Lib
