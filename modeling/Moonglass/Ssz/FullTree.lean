import Mathlib.Data.Nat.Log
import Moonglass.Ssz.Binding

/-
  The full tree. Merging level by level pads only the odd levels and then climbs with the cached
  roots of empty subtrees; the root it ends with is that of the whole tree, in which every place
  behind the given nodes holds the zero node.
-/

namespace Moonglass.Ssz

open Lib List

section FullTree

variable (hash : Bytes 64 → Node)

/-- The root of the full binary tree of a depth, given what stands at each of its leaves. -/
def fullRoot : Nat → (Nat → Node) → Node
  | 0, leaf => leaf 0
  | depth + 1, leaf =>
    hashPair hash (fullRoot depth leaf) (fullRoot depth fun i => leaf (2 ^ depth + i))

variable {hash}

theorem fullRoot_congr (depth : Nat) : ∀ {leaf leaf' : Nat → Node},
    (∀ i < 2 ^ depth, leaf i = leaf' i) → fullRoot hash depth leaf = fullRoot hash depth leaf' := by
  induction depth with
  | zero => exact fun h => h 0 Nat.one_pos
  | succ depth ih =>
    intro leaf leaf' h
    have hpow : 2 ^ (depth + 1) = 2 ^ depth + 2 ^ depth := by rw [Nat.pow_succ, Nat.mul_two]
    unfold fullRoot
    rw [ih fun i hi => h i (by omega), ih fun i hi => h (2 ^ depth + i) (by omega)]

/-- A perfect tree over leaves is the full tree with zero nodes behind them. -/
theorem treeRoot_perfect_leaves (depth : Nat) : ∀ roots : List Node,
    treeRoot hash (.perfect zeroLeaf depth (roots.map .leaf)) =
      fullRoot hash depth fun i => roots.getD i zeroNode := by
  induction depth with
  | zero =>
    intro roots
    cases roots <;> rfl
  | succ depth ih =>
    intro roots
    have hleft := ih (roots.take (2 ^ depth))
    have hright := ih (roots.drop (2 ^ depth))
    rw [map_take] at hleft
    rw [map_drop] at hright
    show hashPair hash (treeRoot hash _) (treeRoot hash _) = _
    rw [hleft, hright]
    refine congrArg₂ (hashPair hash) ?_ ?_
    · refine fullRoot_congr depth fun i hi => ?_
      simp [getD_eq_getElem?_getD, hi]
    · refine fullRoot_congr depth fun i _ => ?_
      simp [getD_eq_getElem?_getD, getElem?_drop]

theorem treeDepthForLimit_eq_clog (limit : Nat) : treeDepthForLimit limit = Nat.clog 2 limit := by
  unfold treeDepthForLimit
  split
  · rename_i hle
    exact (Nat.clog_of_right_le_one hle 2).symm
  · refine le_antisymm ?_ (Nat.clog_le_of_le_pow ?_)
    · refine (Nat.lt_clog_iff_pow_lt one_lt_two).2 ?_
      have := Nat.log2_self_le (n := limit - 1) (by omega)
      omega
    · have := @Nat.lt_log2_self (limit - 1)
      omega

theorem zeroHashAt_of_le {depth : Nat} (h : depth ≤ maxTreeHeight) :
    zeroHashAt hash depth = .ok (zeroHash hash depth) := by
  have hget : (zeroHashes hash)[depth]? = some (zeroHash hash depth) := by
    unfold zeroHashes
    rw [getElem?_map, getElem?_range (Nat.lt_succ_of_le h)]
    rfl
  unfold zeroHashAt
  rw [hget]
  rfl

/-- Merging does not leave the table while the levels that can be left fit it. -/
theorem exists_mergeLevels (hash : Bytes 64 → Node) (n : Nat) : ∀ (depth : Nat) {nodes : List Node},
    nodes.length ≤ 2 ^ n → depth + n ≤ maxTreeHeight →
    ∃ out, mergeLevels hash depth nodes = .ok out := by
  induction n with
  | zero =>
    intro depth nodes hlen _
    rw [mergeLevels, if_pos (by rwa [Nat.pow_zero] at hlen)]
    exact ⟨_, rfl⟩
  | succ n ih =>
    intro depth nodes hlen hdepth
    have hpow : 2 ^ (n + 1) = 2 * 2 ^ n := Nat.pow_succ'
    rw [mergeLevels]
    split
    · exact ⟨_, rfl⟩
    · split
      · exact ih _ (by rw [length_hashPairs]; omega) (by omega)
      · rw [zeroHashAt_of_le (by omega), ok_bind]
        refine ih _ ?_ (by omega)
        rw [length_hashPairs, length_append, length_singleton]
        omega

theorem exists_padding (k : Nat) : ∀ {depth : Nat} {root : Node}, depth + k ≤ maxTreeHeight →
    ∃ out, (List.range' depth k).foldlM (fun root depth => do
      let zero ← zeroHashAt hash depth
      pure (hashPair hash root zero)) root = .ok out := by
  induction k with
  | zero => exact fun _ => ⟨_, rfl⟩
  | succ k ih =>
    intro depth root hdepth
    rw [range'_succ, foldlM_cons, zeroHashAt_of_le (by omega)]
    exact ih (by omega)

variable (hash) in
theorem exists_merkleizeRootsUnchecked {roots : List Node} {limit : Nat} (hlimit : limit ≤ 2 ^ 63)
    (hlen : roots.length ≤ limit) : ∃ root, merkleizeRootsUnchecked hash roots limit = .ok root := by
  have hheight : treeDepthForLimit (max limit 1) ≤ 63 := by
    rw [treeDepthForLimit_eq_clog]
    exact Nat.clog_le_of_le_pow (max_le hlimit Nat.one_le_two_pow)
  unfold merkleizeRootsUnchecked
  dsimp only
  split
  · exact ⟨_, zeroHashAt_of_le (hheight.trans (by decide))⟩
  · rename_i hne
    have hroom : roots.length ≤ 2 ^ treeDepthForLimit (max limit 1) :=
      (hlen.trans (le_max_left _ _)).trans (le_two_pow_treeDepth _)
    obtain ⟨⟨depth, nodes⟩, hmerge⟩ := exists_mergeLevels hash _ 0 hroom
      (by rw [Nat.zero_add]; exact hheight.trans (by decide))
    have hmerge' := hmerge
    rw [← map_treeRoot_leaf hash roots] at hmerge'
    obtain ⟨t, k, rfl, hdepth, -⟩ := mergeLevels_eq_ok _ (by simpa using hne)
      (by rwa [length_map]) hmerge'
    rw [hmerge, ok_bind]
    refine exists_padding _ ?_
    have hmax : maxTreeHeight = 64 := rfl
    dsimp only
    omega

end FullTree

/-- The code's root is that of the full tree, whose leaves are the roots and zero nodes behind
them; zero nodes that are written out make no difference. -/
theorem merkleizeRootsUnchecked_full (hash : Bytes 64 → Node) (roots : List Node) (limit : Nat)
    (hlimit : limit ≤ 2 ^ 63) (hlen : roots.length ≤ limit) :
    merkleizeRootsUnchecked hash roots limit =
        .ok (fullRoot hash (Nat.clog 2 (max limit 1)) fun i => roots.getD i zeroNode) ∧
      ∀ k, roots.length + k ≤ limit →
        merkleizeRootsUnchecked hash (roots ++ List.replicate k zeroNode) limit =
          merkleizeRootsUnchecked hash roots limit := by
  have hroot : ∀ nodes : List Node, nodes.length ≤ limit →
      merkleizeRootsUnchecked hash nodes limit =
        .ok (fullRoot hash (Nat.clog 2 (max limit 1)) fun i => nodes.getD i zeroNode) := by
    intro nodes hnodes
    obtain ⟨root, hok⟩ := exists_merkleizeRootsUnchecked hash hlimit hnodes
    have hok' := hok
    rw [← map_treeRoot_leaf hash nodes] at hok'
    have hroot := merkleizeRootsUnchecked_eq_ok (by rw [length_map]; omega) hok'
    rw [hok, hroot, treeRoot_perfect_leaves, treeDepthForLimit_eq_clog]
  refine ⟨hroot roots hlen, fun k hk => ?_⟩
  rw [hroot roots hlen, hroot _ (by rw [length_append, length_replicate]; exact hk)]
  congr 2
  funext i
  simp only [getD_eq_getElem?_getD, getElem?_append, getElem?_replicate]
  split
  · rfl
  · rename_i hi
    rw [getElem?_eq_none (by omega)]
    split <;> rfl

theorem merkleizeRootsUnchecked_full_three :
    (3 : Nat) ≤ 2 ^ 63 ∧ [padChunk [1], padChunk [2]].length ≤ 3 ∧
      merkleizeRootsUnchecked (fun block => padChunk (block.toList.drop 1))
          [padChunk [1], padChunk [2]] 3 =
        .ok (fullRoot (fun block => padChunk (block.toList.drop 1)) 2
          fun i => [padChunk [1], padChunk [2]].getD i zeroNode) :=
  ⟨by decide, by decide, (merkleizeRootsUnchecked_full _ [padChunk [1], padChunk [2]] 3
    (by decide) (by decide)).1⟩

end Moonglass.Ssz
