import Moonglass.Lib.MerkleTree
import Moonglass.Ssz.Merkle
import Moonglass.Ssz.RoundTrip

/-
  Equal roots. Every value has a tree whose root is its hash tree root: the trees of the items and
  fields stand where their roots are hashed. When the trees of two values agree on the way down
  from the root, the values are the same, by induction over the type. So two values with the same
  root are equal, or the walk down their trees finds two blocks with the same digest.
-/

namespace Moonglass.Ssz

open Lib

variable {root : Node} {t : SszType} {fields : SszFields}

theorem pairBlock_inj {a b c d : Node} (h : pairBlock a b = pairBlock c d) : a = c ∧ b = d := by
  have hlist : a.toList ++ b.toList = c.toList ++ d.toList := by
    rw [← Vector.toList_append, ← Vector.toList_append]
    exact congrArg Vector.toList h
  obtain ⟨hl, hr⟩ := List.append_inj hlist (by rw [Vector.length_toList, Vector.length_toList])
  exact ⟨Vector.toList_inj.1 hl, Vector.toList_inj.1 hr⟩

/-- The empty place of a tree. -/
def zeroLeaf : HashTree Node := .leaf zeroNode

/-! ## The loop builds a perfect tree -/

section Loop

variable (hash : Bytes 64 → Node)

/-- The root of a tree under the node hash. -/
def treeRoot (t : HashTree Node) : Node := t.root pairBlock hash

theorem map_treeRoot_leaf (nodes : List Node) :
    (nodes.map HashTree.leaf).map (treeRoot hash) = nodes := by
  rw [List.map_map]
  exact List.map_id _

variable {hash}

theorem treeRoot_zeros (depth : Nat) : treeRoot hash (.zeros zeroLeaf depth) = zeroHash hash depth := by
  induction depth with
  | zero => rfl
  | succ depth ih =>
    show hash (pairBlock (treeRoot hash _) (treeRoot hash _)) = _
    rw [ih]
    rfl

theorem perfect_nil (z : HashTree Node) (n : Nat) : HashTree.perfect z n [] = .zeros z n := by
  induction n with
  | zero => rfl
  | succ n ih =>
    unfold HashTree.perfect
    rw [List.take_nil, List.drop_nil, ih]
    rfl

theorem zeroHashAt_eq_ok {depth : Nat} {zero : Node} (h : zeroHashAt hash depth = .ok zero) :
    zero = treeRoot hash (.zeros zeroLeaf depth) := by
  have h := okOr_eq_ok.1 h
  unfold zeroHashes at h
  rw [List.getElem?_map] at h
  obtain ⟨d, hd, rfl⟩ := Option.map_eq_some_iff.1 h
  obtain ⟨hlt, rfl⟩ := List.getElem?_eq_some_iff.1 hd
  rw [List.getElem_range, treeRoot_zeros]

theorem hashPairs_even (z : HashTree Node) (ts : List (HashTree Node)) (heven : ts.length % 2 = 0) :
    hashPairs hash (ts.map (treeRoot hash)) = (HashTree.pairUp z ts).map (treeRoot hash) := by
  induction ts using HashTree.pairUp.induct with
  | case1 => rfl
  | case2 t => cases heven
  | case3 t t' ts ih =>
    rw [List.length_cons, List.length_cons] at heven
    exact congrArg (_ :: ·) (ih (by omega))

theorem hashPairs_odd (z : HashTree Node) (ts : List (HashTree Node)) (hodd : ts.length % 2 = 1) :
    hashPairs hash (ts.map (treeRoot hash) ++ [treeRoot hash z]) =
      (HashTree.pairUp z ts).map (treeRoot hash) := by
  induction ts using HashTree.pairUp.induct with
  | case1 => cases hodd
  | case2 t => rfl
  | case3 t t' ts ih =>
    rw [List.length_cons, List.length_cons] at hodd
    exact congrArg (_ :: ·) (ih (by omega))

/-- Merging goes up to the level where one tree is left. -/
theorem mergeLevels_eq_ok (n : Nat) : ∀ {depth depth' : Nat} {ts : List (HashTree Node)}
    {nodes : List Node}, ts ≠ [] → ts.length ≤ 2 ^ n →
    mergeLevels hash depth (ts.map (treeRoot hash)) = .ok (depth', nodes) →
    ∃ t k, nodes = [treeRoot hash t] ∧ depth + n = depth' + k ∧
      HashTree.perfect (.zeros zeroLeaf depth) n ts =
        HashTree.perfect (.zeros zeroLeaf depth') k [t] := by
  induction n with
  | zero =>
    intro depth depth' ts nodes hne hle h
    match ts with
    | [t] =>
      rw [mergeLevels, if_pos (by simp)] at h
      cases h
      exact ⟨t, 0, rfl, rfl, rfl⟩
    | [] => exact absurd rfl hne
    | _ :: _ :: _ => simp at hle
  | succ n ih =>
    intro depth depth' ts nodes hne hle h
    have hlevel : ∀ {ts' : List Node}, ts' = (HashTree.pairUp (.zeros zeroLeaf depth) ts).map
        (treeRoot hash) → mergeLevels hash (depth + 1) ts' = .ok (depth', nodes) →
        ∃ t k, nodes = [treeRoot hash t] ∧ depth + (n + 1) = depth' + k ∧
          HashTree.perfect (.zeros zeroLeaf depth) (n + 1) ts =
            HashTree.perfect (.zeros zeroLeaf depth') k [t] := by
      intro ts' hts' h
      subst hts'
      have hlen := HashTree.length_pairUp (z := .zeros zeroLeaf depth) ts
      have hpos : 0 < ts.length := List.length_pos_of_ne_nil hne
      have hpow : 2 ^ (n + 1) = 2 * 2 ^ n := Nat.pow_succ'
      obtain ⟨t, k, hnodes, hdepth, hperfect⟩ := ih
        (List.ne_nil_of_length_pos (by omega)) (by omega) h
      exact ⟨t, k, hnodes, by omega, (HashTree.perfect_succ n ts).trans hperfect⟩
    rw [mergeLevels] at h
    split at h
    · rename_i hone
      rw [List.length_map] at hone
      match ts with
      | [t] =>
        cases h
        exact ⟨t, n + 1, rfl, rfl, rfl⟩
      | [] => exact absurd rfl hne
      | _ :: _ :: _ => simp at hone
    · split at h
      · rename_i heven
        rw [List.length_map] at heven
        exact hlevel (hashPairs_even _ ts heven) h
      · rename_i hodd
        rw [List.length_map] at hodd
        obtain ⟨zero, hzero, h⟩ := bind_eq_ok.1 h
        rw [zeroHashAt_eq_ok hzero] at h
        exact hlevel (hashPairs_odd _ ts (by omega)) h

/-- Padding goes up from the one tree to the height. -/
theorem padding_eq_ok (k : Nat) : ∀ {depth : Nat} {t : HashTree Node} {root : Node},
    (List.range' depth k).foldlM (fun root depth => do
      let zero ← zeroHashAt hash depth
      pure (hashPair hash root zero)) (treeRoot hash t) = .ok root →
    root = treeRoot hash (.perfect (.zeros zeroLeaf depth) k [t]) := by
  induction k with
  | zero =>
    intro depth t root h
    exact (Except.ok.inj h).symm
  | succ k ih =>
    intro depth t root h
    rw [List.range'_succ, foldlM_cons_eq_ok] at h
    obtain ⟨next, hnext, h⟩ := h
    obtain ⟨zero, hzero, hnext⟩ := bind_eq_ok.1 hnext
    rw [zeroHashAt_eq_ok hzero] at hnext
    have hnext : treeRoot hash (.node t (.zeros zeroLeaf depth)) = next := Except.ok.inj hnext
    rw [← hnext] at h
    rw [HashTree.perfect_succ]
    exact ih h

theorem le_two_pow_treeDepth (limit : Nat) : limit ≤ 2 ^ treeDepthForLimit limit := by
  unfold treeDepthForLimit
  split
  · simpa
  · have := @Nat.lt_log2_self (limit - 1)
    omega

/-- The code's root is the root of the perfect tree with room for the limit. -/
theorem merkleizeRootsUnchecked_eq_ok {ts : List (HashTree Node)} {limit : Nat}
    (hlimit : ts.length ≤ max limit 1)
    (h : merkleizeRootsUnchecked hash (ts.map (treeRoot hash)) limit = .ok root) :
    root = treeRoot hash (.perfect zeroLeaf (treeDepthForLimit (max limit 1)) ts) := by
  unfold merkleizeRootsUnchecked at h
  dsimp only at h
  split at h
  · rename_i hempty
    have hnil : ts = [] := List.map_eq_nil_iff.1 (List.isEmpty_iff.1 hempty)
    rw [hnil, perfect_nil]
    exact zeroHashAt_eq_ok h
  · rename_i hne
    have hne : ts ≠ [] := fun h => hne (by rw [h]; rfl)
    obtain ⟨⟨depth, nodes⟩, hmerge, h⟩ := bind_eq_ok.1 h
    obtain ⟨t, k, rfl, hdepth, hperfect⟩ :=
      mergeLevels_eq_ok _ hne (hlimit.trans (le_two_pow_treeDepth _)) hmerge
    obtain ⟨root', hroot', h⟩ := bind_eq_ok.1 h
    cases hroot'
    have hk : treeDepthForLimit (max limit 1) - depth = k := by omega
    dsimp only at h
    rw [hk] at h
    rw [padding_eq_ok k h, ← hperfect]
    rfl

end Loop

/-! ## Packed bytes -/

section Packing

variable {bytes bytes' : List U8} {byteLimit : Nat}

theorem length_packBytes (bytes : List U8) :
    (packBytes bytes).length = max (chunkCount bytes.length) 1 := by
  unfold packBytes chunkCount bytesPerChunk
  cases bytes with
  | nil => rfl
  | cons b bs =>
    rw [if_neg (by simp), List.length_map, List.length_range, List.length_cons]
    omega

/-- Every byte is found again in its chunk. -/
theorem getD_packBytes {i : Nat} (hi : i < bytes.length) :
    ((packBytes bytes).getD (i / 32) zeroNode).toList.getD (i % 32) 0 = bytes.getD i 0 := by
  have hne : bytes.isEmpty = false := by
    cases bytes with
    | nil => cases hi
    | cons b bs => rfl
  have hchunk : i / 32 < chunkCount bytes.length := by
    unfold chunkCount bytesPerChunk
    omega
  have hget : (packBytes bytes)[i / 32]? = some (padChunk (piece bytes (i / 32 * 32)
      (i / 32 * 32 + 32))) := by
    unfold packBytes
    rw [hne, if_neg Bool.false_ne_true, List.getElem?_map, List.getElem?_range hchunk]
    rfl
  have hchunk : (packBytes bytes).getD (i / 32) zeroNode =
      padChunk (piece bytes (i / 32 * 32) (i / 32 * 32 + 32)) := by
    rw [List.getD_eq_getElem?_getD, hget]
    rfl
  rw [hchunk]
  unfold padChunk piece
  simp only [Vector.toList_ofFn, List.getD_eq_getElem?_getD, List.getElem?_ofFn,
    dif_pos (Nat.mod_lt i (by decide : 0 < 32)), Option.getD_some, List.getElem?_take,
    List.getElem?_drop]
  rw [if_pos (by omega), Nat.div_add_mod']

theorem packBytes_inj (hlen : bytes.length = bytes'.length)
    (h : packBytes bytes = packBytes bytes') : bytes = bytes' := by
  refine List.ext_getElem hlen fun i hi hi' => ?_
  have hbyte := getD_packBytes hi
  rw [h, getD_packBytes hi'] at hbyte
  rwa [List.getD_eq_getElem _ _ hi, List.getD_eq_getElem _ _ hi', eq_comm] at hbyte

/-- The tree over packed bytes. -/
def bytesTree (bytes : List U8) (byteLimit : Nat) : HashTree Node :=
  .perfect zeroLeaf (treeDepthForLimit (max (max (chunkCount byteLimit) 1) 1))
    ((packBytes bytes).map .leaf)

variable {hash : Bytes 64 → Node}

theorem length_packBytes_le (hle : bytes.length ≤ byteLimit) :
    (packBytes bytes).length ≤ max (max (chunkCount byteLimit) 1) 1 := by
  have hcount : chunkCount bytes.length ≤ chunkCount byteLimit :=
    Nat.div_le_div_right (by omega)
  rw [length_packBytes]
  omega

theorem merkleizeByteSequenceWithLimit_eq_ok
    (h : merkleizeByteSequenceWithLimit hash bytes byteLimit = .ok root) :
    root = treeRoot hash (bytesTree bytes byteLimit) := by
  obtain ⟨_, hle, h⟩ := bind_eq_ok.1 h
  have hle := length_packBytes_le (ensure_eq_ok.1 hle)
  rw [← map_treeRoot_leaf hash (packBytes bytes)] at h
  exact merkleizeRootsUnchecked_eq_ok (by rwa [List.length_map]) h

/-- The trees of two values agree on the way down. -/
abbrev Agree (hash : Bytes 64 → Node) : HashTree Node → HashTree Node → Prop :=
  HashTree.Agree pairBlock hash

theorem Agree.bytesTree_inj (hlen : bytes.length = bytes'.length) (hle : bytes.length ≤ byteLimit)
    (h : Agree hash (bytesTree bytes byteLimit) (bytesTree bytes' byteLimit)) : bytes = bytes' := by
  have hcount : ((packBytes bytes).map HashTree.leaf).length =
      ((packBytes bytes').map HashTree.leaf).length := by
    rw [List.length_map, List.length_map, length_packBytes, length_packBytes, hlen]
  have hroom : ((packBytes bytes).map HashTree.leaf).length ≤
      2 ^ treeDepthForLimit (max (max (chunkCount byteLimit) 1) 1) := by
    rw [List.length_map]
    exact (length_packBytes_le hle).trans (le_two_pow_treeDepth _)
  have hleaves := HashTree.Agree.perfect pairBlock_inj _ hcount hroom h
  rw [List.forall₂_map_left_iff, List.forall₂_map_right_iff] at hleaves
  refine packBytes_inj hlen (List.forall₂_eq_eq_eq ▸ hleaves.imp fun _ _ => ?_)
  exact HashTree.Agree.leaf_eq

end Packing

/-! ## Sequences -/

/-- Basic values, which are packed: they are written without failing, all in the same length. -/
structure Packable {α : Type} (c : Codec α) (encode : α → Encoding) : Prop where
  serialize_eq : ∀ v buffer, c.serialize v buffer = .ok (buffer ++ encode v, (encode v).length)
  length_encode : ∀ v, (encode v).length = c.sizeHint
  injective : Function.Injective encode

/-- The code's root is the root of the value's tree, and values whose trees agree are the same. -/
structure Merkleized.Commits {α : Type} (hash : Bytes 64 → Node) (m : Merkleized α)
    (tree : α → HashTree Node) : Prop where
  root_eq : ∀ {v root}, m.hashTreeRoot v = .ok root → root = treeRoot hash (tree v)
  binding : ∀ {v w}, Agree hash (tree v) (tree w) → v = w

/-- The tree of a sequence: over the trees of its items, or over their packed bytes. -/
def collectionTree {α : Type} (isComposite : Bool) (tree : α → HashTree Node)
    (encode : α → Encoding) (size : Nat) (values : List α) (limit : Nat) : HashTree Node :=
  if isComposite then .perfect zeroLeaf (treeDepthForLimit (max limit 1)) (values.map tree)
  else bytesTree (values.flatMap encode) (limit * size)

section Sequences

variable {α : Type} {hash : Bytes 64 → Node} {c : Codec α} {m : Merkleized α}
  {tree : α → HashTree Node} {encode : α → Encoding} {values values' : List α} {limit : Nat}

theorem mapM_hashTreeRoot (hm : m.Commits hash tree) (values : List α) :
    ∀ {roots : List Node}, values.mapM m.hashTreeRoot = .ok roots →
      roots = (values.map tree).map (treeRoot hash) := by
  induction values with
  | nil =>
    intro roots h
    exact (Except.ok.inj h).symm
  | cons v vs ih =>
    intro roots h
    rw [List.mapM_cons] at h
    obtain ⟨root, hroot, h⟩ := bind_eq_ok.1 h
    obtain ⟨rest, hrest, h⟩ := bind_eq_ok.1 h
    rw [← Except.ok.inj h, hm.root_eq hroot, ih hrest]
    rfl

theorem serialize_packed (hc : Packable c encode) (values : List α) : ∀ buffer : Encoding,
    values.foldlM (appendItem c) buffer = .ok (buffer ++ values.flatMap encode) := by
  induction values with
  | nil =>
    intro buffer
    rw [List.flatMap_nil, List.append_nil]
    rfl
  | cons v vs ih =>
    intro buffer
    have happend : appendItem c buffer v = .ok (buffer ++ encode v) := by
      unfold appendItem
      rw [hc.serialize_eq]
    rw [List.foldlM_cons, happend, ok_bind, List.flatMap_cons, ← List.append_assoc]
    exact ih _

theorem length_packed (hc : Packable c encode) (values : List α) :
    (values.flatMap encode).length = values.length * c.sizeHint := by
  induction values with
  | nil => rw [List.length_nil, Nat.zero_mul]; rfl
  | cons v vs ih =>
    rw [List.flatMap_cons, List.length_append, hc.length_encode, ih, List.length_cons,
      Nat.succ_mul, Nat.add_comm]

theorem packed_inj (hc : Packable c encode) : ∀ {values values' : List α},
    values.length = values'.length → values.flatMap encode = values'.flatMap encode →
      values = values' := by
  intro values
  induction values with
  | nil =>
    intro values' hlen _
    exact (List.length_eq_zero_iff.1 hlen.symm).symm
  | cons v vs ih =>
    intro values' hlen h
    cases values' with
    | nil => cases hlen
    | cons w ws =>
      rw [List.flatMap_cons, List.flatMap_cons] at h
      obtain ⟨hv, hvs⟩ := List.append_inj h (by rw [hc.length_encode, hc.length_encode])
      rw [hc.injective hv, ih (Nat.succ.inj hlen) hvs]

theorem collectionRoot_eq_ok (hm : m.Commits hash tree)
    (hc : m.isComposite = false → Packable c encode)
    (h : collectionRoot hash c m values limit = .ok root) :
    root = treeRoot hash
      (collectionTree m.isComposite tree encode c.sizeHint values limit) := by
  unfold collectionRoot at h
  obtain ⟨_, hle, h⟩ := bind_eq_ok.1 h
  have hle := ensure_eq_ok.1 hle
  unfold collectionTree
  cases hcomposite : m.isComposite with
  | true =>
    rw [hcomposite, if_pos rfl] at h
    obtain ⟨roots, hroots, h⟩ := bind_eq_ok.1 h
    obtain ⟨_, -, h⟩ := bind_eq_ok.1 h
    rw [mapM_hashTreeRoot hm values hroots] at h
    exact merkleizeRootsUnchecked_eq_ok (by rw [List.length_map]; omega) h
  | false =>
    rw [hcomposite, if_neg Bool.false_ne_true, serialize_packed (hc hcomposite), ok_bind] at h
    obtain ⟨_, -, h⟩ := bind_eq_ok.1 h
    exact merkleizeByteSequenceWithLimit_eq_ok h

theorem Agree.collection_inj (hm : m.Commits hash tree)
    (hc : m.isComposite = false → Packable c encode) (hlen : values.length = values'.length)
    (hle : values.length ≤ limit)
    (h : Agree hash (collectionTree m.isComposite tree encode c.sizeHint values limit)
      (collectionTree m.isComposite tree encode c.sizeHint values' limit)) : values = values' := by
  unfold collectionTree at h
  cases hcomposite : m.isComposite with
  | true =>
    rw [hcomposite, if_pos rfl, if_pos rfl] at h
    have hitems := HashTree.Agree.perfect pairBlock_inj _
      (by rw [List.length_map, List.length_map, hlen])
      (by rw [List.length_map]
          exact (hle.trans (Nat.le_max_left limit 1)).trans (le_two_pow_treeDepth _)) h
    rw [List.forall₂_map_left_iff, List.forall₂_map_right_iff] at hitems
    exact List.forall₂_eq_eq_eq ▸ hitems.imp fun _ _ => hm.binding
  | false =>
    rw [hcomposite, if_neg Bool.false_ne_true, if_neg Bool.false_ne_true] at h
    have hc := hc hcomposite
    refine packed_inj hc hlen (h.bytesTree_inj ?_ ?_)
    · rw [length_packed hc, length_packed hc, hlen]
    · rw [length_packed hc]
      exact Nat.mul_le_mul_right _ hle

end Sequences

/-! ## Types -/

def SszType.isComposite : SszType → Bool
  | .uint _ => false
  | .bool => false
  | _ => true

mutual

/-- The tree of a value. -/
def SszType.tree : (t : SszType) → t.Value → HashTree Node
  | .uint size, v => .leaf (padChunk (toLeBytes size.bytes v.val))
  | .bool, (v : Bool) => .leaf (padChunk [if v then 1 else 0])
  | .byteArray n, v => bytesTree v.toList n
  | .vector t n, v =>
    collectionTree t.isComposite t.tree t.format.encode t.codec.sizeHint v.toList n
  | .list t n, v => .node
    (collectionTree t.isComposite t.tree t.format.encode t.codec.sizeHint v.toList n)
    (.leaf (lengthChunk v.toList.length))
  | .bitvector n, v => bytesTree (packBits v.toList) (bitfieldByteLen n)
  | .bitlist n, v => .node (bytesTree (packBits v.toList) (bitfieldByteLen n))
    (.leaf (lengthChunk v.toList.length))
  | .container fields, v =>
    .perfect zeroLeaf (treeDepthForLimit (max (fields.trees v).length 1)) (fields.trees v)

def SszFields.trees : (fields : SszFields) → fields.Values → List (HashTree Node)
  | .nil, _ => []
  | .cons t fields, v => t.tree v.1 :: fields.trees v.2

end

mutual

/-- The lengths are `usize` values. -/
def SszType.UsizeLimits : SszType → Prop
  | .uint _ => True
  | .bool => True
  | .byteArray n => n < 2 ^ 64
  | .vector t n => t.UsizeLimits ∧ n < 2 ^ 64
  | .list t n => t.UsizeLimits ∧ n < 2 ^ 64
  | .bitvector n => n < 2 ^ 64
  | .bitlist n => n < 2 ^ 64
  | .container fields => fields.UsizeLimits

def SszFields.UsizeLimits : SszFields → Prop
  | .nil => True
  | .cons t fields => t.UsizeLimits ∧ fields.UsizeLimits

end

section Basic

variable {hash : Bytes 64 → Node}

theorem padChunk_inj {bytes bytes' : List U8} (hlen : bytes.length = bytes'.length)
    (hle : bytes.length ≤ 32) (h : padChunk bytes = padChunk bytes') : bytes = bytes' := by
  refine List.ext_getElem hlen fun i hi hi' => ?_
  have hbyte := congrArg (fun chunk : Node => chunk.toList.getD i 0) h
  unfold padChunk at hbyte
  simp only [Vector.toList_ofFn, List.getD_eq_getElem?_getD, List.getElem?_ofFn,
    dif_pos (show i < 32 by omega), Option.getD_some, List.getElem?_eq_getElem hi,
    List.getElem?_eq_getElem hi'] at hbyte
  exact hbyte

theorem basicRoot_eq_ok {bytes : List U8} (h : basicRoot bytes = .ok root) :
    root = padChunk bytes := by
  obtain ⟨_, -, h⟩ := bind_eq_ok.1 h
  exact (Except.ok.inj h).symm

theorem lengthChunk_inj {m n : Nat} (hm : m < 2 ^ 64) (hn : n < 2 ^ 64)
    (h : lengthChunk m = lengthChunk n) : m = n := by
  unfold lengthChunk at h
  have h := padChunk_inj (by rw [length_toLeBytes, length_toLeBytes])
    (by rw [length_toLeBytes]; decide) h
  rw [Nat.mod_eq_of_lt hm, Nat.mod_eq_of_lt hn] at h
  have hread := fromLeBytes_toLeBytes (n := 8) hm
  rw [h, fromLeBytes_toLeBytes (n := 8) hn] at hread
  exact hread.symm

theorem packBits_inj {bits bits' : List Bool} (hlen : bits.length = bits'.length)
    (h : packBits bits = packBits bits') : bits = bits' := by
  have hbits := map_bitOf_packBits bits []
  rw [List.append_nil, h, hlen] at hbits
  have hbits' := map_bitOf_packBits bits' []
  rw [List.append_nil] at hbits'
  rw [← hbits, hbits']

/-- A codec without overflow packs its values. -/
theorem Packable.of_meets {α : Type} {c : Codec α} {f : Format α} (hc : c.Meets f)
    (hfixed : c.isVariableSize = false) (hfits : ∀ v, f.fits v = true) :
    Packable c f.encode where
  serialize_eq v buffer := by rw [hc.serialize_eq, if_pos (hfits v)]
  length_encode := hc.length_encode hfixed
  injective v w h := by
    have hv := hc.deserialize_encode v (hfits v)
    rw [h, hc.deserialize_encode w (hfits w)] at hv
    exact (Except.ok.inj hv).symm

theorem SszType.packable : (t : SszType) → t.isComposite = false →
    Packable t.codec t.format.encode
  | .uint size, _ => .of_meets (uintCodec_meets size.bytes) rfl fun _ => rfl
  | .bool, _ => .of_meets boolCodec_meets rfl fun _ => rfl

theorem SszType.merkleized_isComposite : (t : SszType) →
    (t.merkleized hash).isComposite = t.isComposite
  | .uint _ => rfl
  | .bool => rfl
  | .byteArray _ => rfl
  | .vector _ _ => rfl
  | .list _ _ => rfl
  | .bitvector _ => rfl
  | .bitlist _ => rfl
  | .container _ => rfl

end Basic

section Commits

variable {hash : Bytes 64 → Node}

theorem uintMerkleized_commits (size : UintSize) :
    (uintMerkleized size.bytes).Commits hash (SszType.uint size).tree where
  root_eq := basicRoot_eq_ok
  binding h := by
    have hbytes := padChunk_inj (by rw [length_toLeBytes, length_toLeBytes])
      (by rw [length_toLeBytes]; cases size <;> decide) h.leaf_eq
    exact (SszType.packable (.uint size) rfl).injective hbytes

theorem boolMerkleized_commits : boolMerkleized.Commits hash SszType.bool.tree where
  root_eq := basicRoot_eq_ok
  binding {v w} h := by
    have hbytes : [if (v : Bool) = true then (1 : U8) else 0] = [if (w : Bool) then 1 else 0] :=
      padChunk_inj rfl (Nat.le_of_ble_eq_true rfl) (HashTree.Agree.leaf_eq h)
    exact (SszType.packable .bool rfl).injective hbytes

theorem byteArrayMerkleized_commits (n : Nat) :
    (byteArrayMerkleized hash n).Commits hash (SszType.byteArray n).tree where
  root_eq := merkleizeByteSequenceWithLimit_eq_ok
  binding h := by
    refine Vector.toList_inj.1 (Agree.bytesTree_inj ?_ ?_ h)
    · rw [Vector.length_toList, Vector.length_toList]
    · exact (Vector.length_toList).le

theorem bitvectorMerkleized_commits (n : Nat) :
    (bitvectorMerkleized hash n).Commits hash (SszType.bitvector n).tree where
  root_eq := merkleizeByteSequenceWithLimit_eq_ok
  binding {v w} h := by
    have hlen : v.toList.length = w.toList.length := by
      rw [Vector.length_toList, Vector.length_toList]
    refine Vector.toList_inj.1 (packBits_inj hlen (Agree.bytesTree_inj ?_ ?_ h))
    · rw [length_packBits, length_packBits, hlen]
    · rw [length_packBits, Vector.length_toList]

theorem bitlistMerkleized_commits {n : Nat} (hn : n < 2 ^ 64) :
    (bitlistMerkleized hash n).Commits hash (SszType.bitlist n).tree where
  root_eq {v root} h := by
    obtain ⟨_, -, h⟩ := bind_eq_ok.1 h
    obtain ⟨root', hroot', h⟩ := bind_eq_ok.1 h
    rw [← Except.ok.inj h, merkleizeByteSequenceWithLimit_eq_ok hroot']
    rfl
  binding {v w} h := by
    obtain ⟨hbits, hlength⟩ := h.children pairBlock_inj
    have hlen : v.toList.length = w.toList.length :=
      lengthChunk_inj (v.length_le.trans_lt hn) (w.length_le.trans_lt hn) hlength.leaf_eq
    refine BoundedList.ext (packBits_inj hlen (Agree.bytesTree_inj ?_ ?_ hbits))
    · rw [length_packBits, length_packBits, hlen]
    · rw [length_packBits]
      exact Nat.div_le_div_right (Nat.add_le_add_right v.length_le 7)

theorem vectorMerkleized_commits (n : Nat) (ht : (t.merkleized hash).Commits hash t.tree) :
    (vectorMerkleized hash t.codec (t.merkleized hash) n).Commits hash
      (SszType.vector t n).tree where
  root_eq {v root} h := by
    obtain ⟨_, -, h⟩ := bind_eq_ok.1 h
    have hroot := collectionRoot_eq_ok ht (fun hc => t.packable (t.merkleized_isComposite ▸ hc)) h
    rwa [t.merkleized_isComposite] at hroot
  binding {v w} h := by
    have hlen : v.toList.length = w.toList.length := by
      rw [Vector.length_toList, Vector.length_toList]
    have hle : v.toList.length ≤ n := (Vector.length_toList).le
    refine Vector.toList_inj.1 (Agree.collection_inj ht
      (fun hc => t.packable (t.merkleized_isComposite ▸ hc)) hlen hle ?_)
    rw [t.merkleized_isComposite]
    exact h

theorem listMerkleized_commits {n : Nat} (hn : n < 2 ^ 64)
    (ht : (t.merkleized hash).Commits hash t.tree) :
    (listMerkleized hash t.codec (t.merkleized hash) n).Commits hash (SszType.list t n).tree where
  root_eq {v root} h := by
    obtain ⟨_, -, h⟩ := bind_eq_ok.1 h
    obtain ⟨root', hroot', h⟩ := bind_eq_ok.1 h
    have hroot := collectionRoot_eq_ok ht
      (fun hc => t.packable (t.merkleized_isComposite ▸ hc)) hroot'
    rw [t.merkleized_isComposite] at hroot
    rw [← Except.ok.inj h, hroot]
    rfl
  binding {v w} h := by
    obtain ⟨hitems, hlength⟩ := h.children pairBlock_inj
    have hlen : v.toList.length = w.toList.length :=
      lengthChunk_inj (v.length_le.trans_lt hn) (w.length_le.trans_lt hn) hlength.leaf_eq
    refine BoundedList.ext (Agree.collection_inj ht
      (fun hc => t.packable (t.merkleized_isComposite ▸ hc)) hlen v.length_le ?_)
    rw [t.merkleized_isComposite]
    exact hitems

theorem SszFields.length_trees : (fields : SszFields) → (v w : fields.Values) →
    (fields.trees v).length = (fields.trees w).length
  | .nil, _, _ => rfl
  | .cons _ fields, v, w => congrArg Nat.succ (fields.length_trees v.2 w.2)

/-- The same for the fields of a container. -/
structure SszFields.Commits (hash : Bytes 64 → Node) (fields : SszFields) : Prop where
  roots_eq : ∀ {v roots}, fields.roots hash v = .ok roots →
    roots = (fields.trees v).map (treeRoot hash)
  binding : ∀ {v w}, List.Forall₂ (Agree hash) (fields.trees v) (fields.trees w) → v = w

theorem containerMerkleized_commits (hf : fields.Commits hash) :
    (containerMerkleized hash (fields.roots hash)).Commits hash
      (SszType.container fields).tree where
  root_eq {v root} h := by
    obtain ⟨roots, hroots, h⟩ := bind_eq_ok.1 h
    rw [hf.roots_eq hroots] at h
    unfold merkleizeRoots at h
    rw [List.length_map] at h
    exact merkleizeRootsUnchecked_eq_ok (Nat.le_max_left _ _) h
  binding {v w} h := by
    have hlen := fields.length_trees v w
    have h : Agree hash
        (.perfect zeroLeaf (treeDepthForLimit (max (fields.trees v).length 1)) (fields.trees v))
        (.perfect zeroLeaf (treeDepthForLimit (max (fields.trees w).length 1)) (fields.trees w)) := h
    rw [← hlen] at h
    exact hf.binding (HashTree.Agree.perfect pairBlock_inj _ hlen
      ((Nat.le_max_left _ _).trans (le_two_pow_treeDepth _)) h)

theorem SszFields.nil_commits : SszFields.nil.Commits hash where
  roots_eq h := (Except.ok.inj h).symm
  binding _ := rfl

theorem SszFields.cons_commits (ht : (t.merkleized hash).Commits hash t.tree)
    (hf : fields.Commits hash) :
    (SszFields.cons t fields).Commits hash where
  roots_eq {v roots} h := by
    obtain ⟨root, hroot, h⟩ := bind_eq_ok.1 h
    obtain ⟨rest, hrest, h⟩ := bind_eq_ok.1 h
    rw [← Except.ok.inj h, ht.root_eq hroot, hf.roots_eq hrest]
    rfl
  binding {v w} h := by
    obtain ⟨hhead, htail⟩ := List.forall₂_cons.1 h
    exact Prod.ext (ht.binding hhead) (hf.binding htail)

mutual

theorem SszType.commits : (t : SszType) → t.UsizeLimits → (t.merkleized hash).Commits hash t.tree
  | .uint size, _ => uintMerkleized_commits size
  | .bool, _ => boolMerkleized_commits
  | .byteArray n, _ => byteArrayMerkleized_commits n
  | .vector t n, h => vectorMerkleized_commits n (t.commits h.1)
  | .list t _, h => listMerkleized_commits h.2 (t.commits h.1)
  | .bitvector n, _ => bitvectorMerkleized_commits n
  | .bitlist _, h => bitlistMerkleized_commits h
  | .container fields, h => containerMerkleized_commits (fields.commits h)

theorem SszFields.commits : (fields : SszFields) → fields.UsizeLimits → fields.Commits hash
  | .nil, _ => SszFields.nil_commits
  | .cons t fields, h => SszFields.cons_commits (t.commits h.1) (fields.commits h.2)

end

/-- Two values of a type with the same root are equal, or walking down their trees finds two
different blocks, one hashed in each, with the same digest. -/
theorem SszType.hashTreeRoot_binding (hash : Bytes 64 → Node) (t : SszType) (ht : t.UsizeLimits)
    (v w : t.Value) (root : Node) (hv : t.hashTreeRoot hash v = .ok root)
    (hw : t.hashTreeRoot hash w = .ok root) :
    treeRoot hash (t.tree v) = root ∧ treeRoot hash (t.tree w) = root ∧
      (v = w ∨ ∃ a b : Bytes 64,
        (t.tree v).collision pairBlock hash (t.tree w) = some (a, b) ∧ a ≠ b ∧ hash a = hash b ∧
          a ∈ (t.tree v).inputs pairBlock hash ∧ b ∈ (t.tree w).inputs pairBlock hash) := by
  have hcommits : (t.merkleized hash).Commits hash t.tree := t.commits ht
  have hv := (hcommits.root_eq hv).symm
  have hw := (hcommits.root_eq hw).symm
  have hroot : treeRoot hash (t.tree v) = treeRoot hash (t.tree w) := hv.trans hw.symm
  refine ⟨hv, hw, ?_⟩
  cases hfound : (t.tree v).collision pairBlock hash (t.tree w) with
  | none => exact .inl (hcommits.binding ⟨hroot, hfound⟩)
  | some found =>
    obtain ⟨a, b⟩ := found
    exact .inr ⟨a, b, rfl, HashTree.collision_spec pairBlock_inj hroot hfound⟩

end Commits

def byteListType : SszType := .list (.uint .u8) 4

def oneZero : byteListType.Value := (⟨[0], by decide⟩ : BoundedList U8 4)

def twoZeros : byteListType.Value := (⟨[0, 0], by decide⟩ : BoundedList U8 4)

/-- Under a constant hash lists of two lengths have the same root, and the blocks that mix in the
lengths are found. -/
theorem hashTreeRoot_binding_lengths :
    byteListType.hashTreeRoot (fun _ => zeroNode) oneZero = .ok zeroNode ∧
    byteListType.hashTreeRoot (fun _ => zeroNode) twoZeros = .ok zeroNode ∧
    (oneZero = twoZeros ∨ ∃ a b : Bytes 64, (byteListType.tree oneZero).collision pairBlock
      (fun _ => zeroNode) (byteListType.tree twoZeros) = some (a, b) ∧ a ≠ b) := by
  have hone : byteListType.hashTreeRoot (fun _ => zeroNode) oneZero = .ok zeroNode := by
    decide +kernel
  have htwo : byteListType.hashTreeRoot (fun _ => zeroNode) twoZeros = .ok zeroNode := by
    decide +kernel
  refine ⟨hone, htwo, ?_⟩
  obtain ⟨-, -, h | ⟨a, b, hfound, hne, -⟩⟩ := SszType.hashTreeRoot_binding (fun _ => zeroNode)
    byteListType ⟨trivial, by decide⟩ oneZero twoZeros zeroNode hone htwo
  · exact .inl h
  · exact .inr ⟨a, b, hfound, hne⟩

end Moonglass.Ssz
