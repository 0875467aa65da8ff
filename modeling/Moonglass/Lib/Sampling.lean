import Moonglass.Lib.Result

/-
  Rejection sampling from a stream of draws. A draw is accepted with a value, rejected, or fails.
  One sampler returns the first accepted value, the other collects accepted values up to a number;
  both give up with an error when their turns run out. The collector needs one more turn than it
  has draws to see that it is done.
-/

namespace Moonglass.Lib

open List

variable {ε α : Type}

/-- The first accepted value from draw `i` on. -/
def firstHit (draw : Nat → Except ε (Option α)) (e : ε) : Nat → Nat → Except ε α
  | 0, _ => .error e
  | fuel + 1, i => do
    match ← draw i with
    | some a => pure a
    | none => firstHit draw e fuel (i + 1)

/-- Accepted values from draw `i` on, until there are `size` of them. -/
def collect (draw : Nat → Except ε (Option α)) (e : ε) (size : Nat) :
    Nat → Nat → List α → Except ε (List α)
  | 0, _, _ => .error e
  | fuel + 1, i, selected =>
    if selected.length < size then do
      match ← draw i with
      | some a => collect draw e size fuel (i + 1) (selected ++ [a])
      | none => collect draw e size fuel (i + 1) selected
    else pure selected

/-- The draws from `i` on are rejected up to draw `j`, which is accepted with `a`. -/
structure HitAt (draw : Nat → Except ε (Option α)) (i j : Nat) (a : α) : Prop where
  le : i ≤ j
  rejected : ∀ k, i ≤ k → k < j → draw k = .ok none
  accepted : draw j = .ok (some a)

section

variable {draw : Nat → Except ε (Option α)} {e : ε} {i j fuel : Nat} {a : α}

theorem HitAt.here (h : draw i = .ok (some a)) : HitAt draw i i a :=
  ⟨Nat.le_refl i, fun _ hle hlt => absurd hle (Nat.not_le.2 hlt), h⟩

theorem HitAt.of_next (h : draw i = .ok none) (hit : HitAt draw (i + 1) j a) :
    HitAt draw i j a := by
  refine ⟨Nat.le_of_succ_le hit.le, fun k hle hlt => ?_, hit.accepted⟩
  rcases Nat.eq_or_lt_of_le hle with rfl | hlater
  · exact h
  · exact hit.rejected k hlater hlt

/-- A hit is at the first draw, or that is rejected and the hit comes after it. -/
theorem HitAt.cases (hit : HitAt draw i j a) :
    j = i ∧ draw i = .ok (some a) ∨ draw i = .ok none ∧ HitAt draw (i + 1) j a := by
  rcases Nat.eq_or_lt_of_le hit.le with rfl | hlt
  · exact .inl ⟨rfl, hit.accepted⟩
  · exact .inr ⟨hit.rejected i (Nat.le_refl i) hlt, hlt,
      fun k hle => hit.rejected k (Nat.le_of_succ_le hle), hit.accepted⟩

/-- The first hit is found when it is among the turns. -/
theorem firstHit_eq_ok : firstHit draw e fuel i = .ok a ↔ ∃ j, j < i + fuel ∧ HitAt draw i j a := by
  induction fuel generalizing i with
  | zero =>
    refine ⟨fun h => (by cases h), fun ⟨j, hlt, hit⟩ => ?_⟩
    exact absurd hit.le (Nat.not_le.2 hlt)
  | succ fuel ih =>
    rw [firstHit, bind_eq_ok]
    constructor
    · rintro ⟨drawn, hdraw, h⟩
      cases drawn with
      | some b =>
        cases h
        exact ⟨i, by omega, .here hdraw⟩
      | none =>
        obtain ⟨j, hlt, hit⟩ := ih.1 h
        exact ⟨j, by omega, .of_next hdraw hit⟩
    · rintro ⟨j, hlt, hit⟩
      rcases hit.cases with ⟨rfl, hdraw⟩ | ⟨hdraw, hlater⟩
      · exact ⟨some a, hdraw, rfl⟩
      · exact ⟨none, hdraw, ih.2 ⟨j, by omega, hlater⟩⟩

/-- Collecting one value finds the first hit, if a turn is left after it. -/
theorem collect_one_eq_ok :
    collect draw e 1 fuel i [] = .ok [a] ↔ ∃ j, j + 1 < i + fuel ∧ HitAt draw i j a := by
  induction fuel generalizing i with
  | zero =>
    refine ⟨fun h => (by cases h), fun ⟨j, hlt, hit⟩ => ?_⟩
    have := hit.le
    omega
  | succ fuel ih =>
    rw [collect, if_pos (show ([] : List α).length < 1 from Nat.one_pos), bind_eq_ok]
    constructor
    · rintro ⟨drawn, hdraw, h⟩
      cases drawn with
      | some b =>
        cases fuel with
        | zero => cases h
        | succ fuel =>
          cases h
          exact ⟨i, by omega, .here hdraw⟩
      | none =>
        obtain ⟨j, hlt, hit⟩ := ih.1 h
        exact ⟨j, by omega, .of_next hdraw hit⟩
    · rintro ⟨j, hlt, hit⟩
      rcases hit.cases with ⟨rfl, hdraw⟩ | ⟨hdraw, hlater⟩
      · refine ⟨some a, hdraw, ?_⟩
        obtain ⟨fuel, rfl⟩ : ∃ n, fuel = n + 1 := ⟨fuel - 1, by omega⟩
        rfl
      · exact ⟨none, hdraw, ih.2 ⟨j, by omega, hlater⟩⟩

variable {size : Nat} {selected result : List α}

/-- What has been collected stays. -/
theorem collect_extends (h : collect draw e size fuel i selected = .ok result) :
    selected <+: result := by
  induction fuel generalizing i selected with
  | zero => cases h
  | succ fuel ih =>
    rw [collect] at h
    split at h
    · obtain ⟨drawn, -, h⟩ := bind_eq_ok.1 h
      cases drawn with
      | some a => exact (prefix_append selected [a]).trans (ih h)
      | none => exact ih h
    · cases h
      exact prefix_rfl

/-- A collector that is done has as many values as it was asked for. -/
theorem collect_length (hselected : selected.length ≤ size)
    (h : collect draw e size fuel i selected = .ok result) : result.length = size := by
  induction fuel generalizing i selected with
  | zero => cases h
  | succ fuel ih =>
    rw [collect] at h
    split at h
    · rename_i hlt
      obtain ⟨drawn, -, h⟩ := bind_eq_ok.1 h
      cases drawn with
      | some a =>
        refine ih ?_ h
        rw [length_append]
        exact hlt
      | none => exact ih hselected h
    · rename_i hdone
      cases h
      omega

/-- What is collected has been accepted. -/
theorem mem_collect (h : collect draw e size fuel i selected = .ok result) (ha : a ∈ result) :
    a ∈ selected ∨ ∃ k, draw k = .ok (some a) := by
  induction fuel generalizing i selected with
  | zero => cases h
  | succ fuel ih =>
    rw [collect] at h
    split at h
    · obtain ⟨drawn, hdraw, h⟩ := bind_eq_ok.1 h
      cases drawn with
      | some b =>
        rcases ih h with hmem | hlater
        · rcases mem_append.1 hmem with hold | hnew
          · exact .inl hold
          · exact .inr ⟨i, mem_singleton.1 hnew ▸ hdraw⟩
        · exact .inr hlater
      | none => exact ih h
    · cases h
      exact .inl ha

/-- Collecting fewer values gives the first ones of those. -/
theorem collect_take {k : Nat} (hk : k ≤ size) (hselected : selected.length ≤ k)
    (h : collect draw e size fuel i selected = .ok result) :
    collect draw e k fuel i selected = .ok (result.take k) := by
  induction fuel generalizing i selected with
  | zero => cases h
  | succ fuel ih =>
    rcases Nat.lt_or_ge selected.length k with hlt | hge
    · rw [collect, if_pos (by omega)] at h
      rw [collect, if_pos hlt, bind_eq_ok]
      obtain ⟨drawn, hdraw, h⟩ := bind_eq_ok.1 h
      refine ⟨drawn, hdraw, ?_⟩
      cases drawn with
      | some a =>
        refine ih ?_ h
        rw [length_append]
        exact hlt
      | none => exact ih hselected h
    · -- the smaller sampler is done; the larger one keeps what it has
      rw [collect, if_neg (Nat.not_lt.2 hge)]
      have hlength : selected.length = k := Nat.le_antisymm hselected hge
      rw [← hlength, ← prefix_iff_eq_take.1 (collect_extends h)]
      rfl

end

end Moonglass.Lib
