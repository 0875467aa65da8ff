import Mathlib.Data.List.Forall2
import Mathlib.Tactic.Cases
import Mathlib.Algebra.GroupWithZero.Nat

/-
  Hash trees. A tree keeps what stands at its leaves; its root is computed by hashing the joined
  roots of the two subtrees. Two trees with the same root agree at their leaves, or walking down
  both from the root meets two inputs of the hash that differ and have the same digest.
-/

namespace Moonglass.Lib

open List

inductive HashTree (α : Type) where
  | leaf (a : α)
  | node (l r : HashTree α)

namespace HashTree

variable {α β : Type}

section Hash

variable (join : α → α → β) (hash : β → α)

def root : HashTree α → α
  | leaf a => a
  | node l r => hash (join l.root r.root)

/-- Everything that is hashed on the way to the root. -/
def inputs : HashTree α → List β
  | leaf _ => []
  | node l r => join (l.root join hash) (r.root join hash) :: (l.inputs ++ r.inputs)

/-- Walk down two trees to the first place where different inputs are hashed. -/
def collision [DecidableEq β] : HashTree α → HashTree α → Option (β × β)
  | node l r, node l' r' =>
    let a := join (l.root join hash) (r.root join hash)
    let b := join (l'.root join hash) (r'.root join hash)
    if a = b then (collision l l').or (collision r r') else some (a, b)
  | _, _ => none

/-- The roots are the same, and there is no collision on the way down. -/
structure Agree [DecidableEq β] (t t' : HashTree α) : Prop where
  root_eq : t.root join hash = t'.root join hash
  no_collision : t.collision join hash t' = none

end Hash

section Collision

variable {join : α → α → β} {hash : β → α} [DecidableEq β]
variable (hjoin : ∀ {a b c d : α}, join a b = join c d → a = c ∧ b = d)

theorem Agree.leaf_eq {a b : α} (h : Agree join hash (leaf a) (leaf b)) : a = b := h.root_eq

include hjoin

theorem Agree.children {l r l' r' : HashTree α} (h : Agree join hash (node l r) (node l' r')) :
    Agree join hash l l' ∧ Agree join hash r r' := by
  have hnone := h.no_collision
  unfold collision at hnone
  dsimp only at hnone
  split at hnone
  · rename_i hsame
    obtain ⟨hl, hr⟩ := hjoin hsame
    obtain ⟨hl', hr'⟩ := Option.or_eq_none_iff.1 hnone
    exact ⟨⟨hl, hl'⟩, ⟨hr, hr'⟩⟩
  · cases hnone

/-- What is found on the way down is a collision, between an input of each tree. -/
theorem collision_spec {t : HashTree α} : ∀ {t' : HashTree α} {a b : β},
    t.root join hash = t'.root join hash → t.collision join hash t' = some (a, b) →
      a ≠ b ∧ hash a = hash b ∧ a ∈ t.inputs join hash ∧ b ∈ t'.inputs join hash := by
  induction t with
  | leaf _ =>
    intro t' a b _ hsome
    cases hsome
  | node l r ihl ihr =>
    intro t' a b hroot hsome
    cases t' with
    | leaf _ => cases hsome
    | node l' r' =>
      unfold collision at hsome
      dsimp only at hsome
      split at hsome
      · -- Both nodes hash the same input, so the roots below are the same.
        rename_i hsame
        obtain ⟨hl, hr⟩ := hjoin hsame
        rcases Option.or_eq_some_iff.1 hsome with h | ⟨-, h⟩
        · obtain ⟨hne, heq, ha, hb⟩ := ihl hl h
          exact ⟨hne, heq, mem_cons_of_mem _ (mem_append_left _ ha),
            mem_cons_of_mem _ (mem_append_left _ hb)⟩
        · obtain ⟨hne, heq, ha, hb⟩ := ihr hr h
          exact ⟨hne, heq, mem_cons_of_mem _ (mem_append_right _ ha),
            mem_cons_of_mem _ (mem_append_right _ hb)⟩
      · rename_i hdiff
        cases hsome
        exact ⟨hdiff, hroot, mem_cons_self, mem_cons_self⟩

end Collision

/-! ## Perfect trees -/

/-- The tree of depth `n` over the given subtrees, with `z` in the places after them. -/
def perfect (z : HashTree α) : Nat → List (HashTree α) → HashTree α
  | 0, ts => ts.headD z
  | n + 1, ts => node (perfect z n (ts.take (2 ^ n))) (perfect z n (ts.drop (2 ^ n)))

/-- The perfect tree of depth `n` over copies of `z`. -/
def zeros (z : HashTree α) : Nat → HashTree α
  | 0 => z
  | n + 1 => node (zeros z n) (zeros z n)

/-- One level up: neighbours are joined, and `z` is the neighbour of a last one without. -/
def pairUp (z : HashTree α) : List (HashTree α) → List (HashTree α)
  | [] => []
  | [t] => [node t z]
  | t :: t' :: ts => node t t' :: pairUp z ts

section Perfect

variable {z : HashTree α}

theorem length_pairUp (ts : List (HashTree α)) : (pairUp z ts).length = (ts.length + 1) / 2 := by
  induction ts using pairUp.induct with
  | case1 => simp [pairUp]
  | case2 t => simp [pairUp]
  | case3 t t' ts ih =>
    unfold pairUp
    rw [length_cons, ih, length_cons, length_cons]
    omega

theorem pairUp_take (ts : List (HashTree α)) : ∀ k : Nat,
    pairUp z (ts.take (2 * k)) = (pairUp z ts).take k := by
  induction ts using pairUp.induct with
  | case1 =>
    intro k
    rw [take_nil]
    exact take_nil.symm
  | case2 t =>
    intro k
    cases k with
    | zero => rfl
    | succ k => simp [pairUp, Nat.mul_succ]
  | case3 t t' ts ih =>
    intro k
    cases k with
    | zero => rfl
    | succ k =>
      rw [Nat.mul_succ, take_succ_cons, take_succ_cons]
      unfold pairUp
      rw [ih, take_succ_cons]

theorem pairUp_drop (ts : List (HashTree α)) : ∀ k : Nat,
    pairUp z (ts.drop (2 * k)) = (pairUp z ts).drop k := by
  induction ts using pairUp.induct with
  | case1 =>
    intro k
    rw [drop_nil]
    exact drop_nil.symm
  | case2 t =>
    intro k
    cases k with
    | zero => rfl
    | succ k => simp [pairUp, Nat.mul_succ]
  | case3 t t' ts ih =>
    intro k
    cases k with
    | zero => rfl
    | succ k =>
      rw [Nat.mul_succ, drop_succ_cons, drop_succ_cons, ih]
      rfl

/-- The tree may be built from below, one level at a time. -/
theorem perfect_succ (n : Nat) : ∀ ts : List (HashTree α),
    perfect z (n + 1) ts = perfect (node z z) n (pairUp z ts) := by
  induction n with
  | zero =>
    intro ts
    match ts with
    | [] => rfl
    | [t] => rfl
    | t :: t' :: ts => rfl
  | succ n ih =>
    intro ts
    have hpow : 2 ^ (n + 1) = 2 * 2 ^ n := Nat.pow_succ'
    show node (perfect z (n + 1) (ts.take (2 ^ (n + 1))))
      (perfect z (n + 1) (ts.drop (2 ^ (n + 1)))) = _
    rw [ih, ih, hpow, pairUp_take, pairUp_drop]
    rfl

end Perfect

section Agreement

variable {join : α → α → β} {hash : β → α} [DecidableEq β]
variable (hjoin : ∀ {a b c d : α}, join a b = join c d → a = c ∧ b = d)
include hjoin

/-- Perfect trees that agree have subtrees that agree, one by one. -/
theorem Agree.perfect {z : HashTree α} (n : Nat) : ∀ {ts us : List (HashTree α)},
    ts.length = us.length → ts.length ≤ 2 ^ n →
    Agree join hash (HashTree.perfect z n ts) (HashTree.perfect z n us) →
      List.Forall₂ (Agree join hash) ts us := by
  induction n with
  | zero =>
    intro ts us hlen hle h
    match ts, us with
    | [], [] => exact .nil
    | [t], [u] => exact .cons h .nil
    | _ :: _ :: _, _ => simp at hle
    | [], _ :: _ => cases hlen
    | [_], _ :: _ :: _ => cases hlen
  | succ n ih =>
    intro ts us hlen hle h
    obtain ⟨hl, hr⟩ := h.children hjoin
    have hpow : 2 ^ (n + 1) = 2 ^ n + 2 ^ n := by rw [Nat.pow_succ, Nat.mul_two]
    have htake := ih (by rw [length_take, length_take, hlen])
      (by rw [length_take]; omega) hl
    have hdrop := ih (by rw [length_drop, length_drop, hlen])
      (by rw [length_drop]; omega) hr
    rw [← take_append_drop (2 ^ n) ts, ← take_append_drop (2 ^ n) us]
    exact rel_append htake hdrop

end Agreement

end HashTree

end Moonglass.Lib
