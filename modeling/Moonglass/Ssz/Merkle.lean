import Moonglass.Ssz.Types

/-
  Hash tree roots. The node hash is any function from 64-byte blocks to nodes. Leaves are merged
  level by level, each odd level padded with the root of an empty subtree of its depth, and the
  result is padded up to the depth that the limit gives.
-/

namespace Moonglass.Ssz

open Lib

def bytesPerChunk : Nat := 32

abbrev Node := Bytes 32

/-- The node of zero bytes. -/
def zeroNode : Node := Vector.replicate 32 0

def maxTreeHeight : Nat := 64

inductive MerkleizationError where
  | lengthOverflow
  | listTooLong (len limit : Nat)
  | vectorLength (len expected : Nat)
  | basicValueTooLong (len limit : Nat)
  deriving DecidableEq, Repr

/-- How a root ends without a node. -/
inductive MerkleFault where
  | error (e : MerkleizationError)
  | panic
  deriving DecidableEq, Repr

abbrev Rooted := Except MerkleFault

/-! ## Chunks -/

def chunkCount (bytes : Nat) : Nat := (bytes + 31) / bytesPerChunk

/-- A chunk of the given bytes, filled up with zeros. -/
def padChunk (bytes : List U8) : Node := Vector.ofFn fun i => bytes.getD i 0

def packBytes (bytes : List U8) : List Node :=
  if bytes.isEmpty then [zeroNode]
  else (List.range (chunkCount bytes.length)).map fun i =>
    padChunk (piece bytes (i * bytesPerChunk) (i * bytesPerChunk + bytesPerChunk))

/-- The depth of a tree with room for `limit` leaves: the bits of `limit - 1`. -/
def treeDepthForLimit (limit : Nat) : Nat := if limit ≤ 1 then 0 else Nat.log2 (limit - 1) + 1

/-- The block that is hashed for two nodes. -/
def pairBlock (left right : Node) : Bytes 64 := left ++ right

section Roots

variable (hash : Bytes 64 → Node)

def hashPair (left right : Node) : Node := hash (pairBlock left right)

/-! ## Merging levels -/

/-- The root of the empty subtree of a depth. -/
def zeroHash : Nat → Node
  | 0 => zeroNode
  | depth + 1 => hashPair hash (zeroHash depth) (zeroHash depth)

/-- `ZERO_HASHES`. -/
def zeroHashes : List Node := (List.range (maxTreeHeight + 1)).map (zeroHash hash)

def zeroHashAt (depth : Nat) : Rooted Node := okOr (zeroHashes hash)[depth]? .panic

/-- Hash the nodes in pairs; a single node at the end would be dropped. -/
def hashPairs : List Node → List Node
  | left :: right :: nodes => hashPair hash left right :: hashPairs nodes
  | _ => []

theorem length_hashPairs (nodes : List Node) :
    (hashPairs hash nodes).length = nodes.length / 2 := by
  induction nodes using hashPairs.induct with
  | case1 left right nodes ih =>
    unfold hashPairs
    rw [List.length_cons, ih, List.length_cons, List.length_cons]
    omega
  | case2 nodes h =>
    match nodes with
    | [] => rfl
    | [_] => simp [hashPairs]
    | _ :: _ :: _ => exact absurd rfl (h _ _ _)

/-- Merge levels until one node is left. -/
def mergeLevels (depth : Nat) (nodes : List Node) : Rooted (Nat × List Node) :=
  if nodes.length ≤ 1 then pure (depth, nodes)
  else if nodes.length % 2 = 0 then mergeLevels (depth + 1) (hashPairs hash nodes)
  else do
    let zero ← zeroHashAt hash depth
    mergeLevels (depth + 1) (hashPairs hash (nodes ++ [zero]))
termination_by nodes.length
decreasing_by
  · rw [length_hashPairs]
    omega
  · rw [length_hashPairs, List.length_append, List.length_singleton]
    omega

/-- The root over the nodes, for a tree with room for `limit`. -/
def merkleizeRootsUnchecked (roots : List Node) (limit : Nat) : Rooted Node :=
  let height := treeDepthForLimit (max limit 1)
  if roots.isEmpty then zeroHashAt hash height
  else do
    let (depth, nodes) ← mergeLevels hash 0 roots
    let root ← okOr nodes[0]? .panic
    (List.range' depth (height - depth)).foldlM (fun root depth => do
      let zero ← zeroHashAt hash depth
      pure (hashPair hash root zero)) root

def merkleizeRoots (roots : List Node) : Rooted Node :=
  merkleizeRootsUnchecked hash roots roots.length

def merkleizeRootsWithLimit (roots : List Node) (limit : Nat) : Rooted Node := do
  ensure (roots.length ≤ limit) (.error (.listTooLong roots.length limit))
  merkleizeRootsUnchecked hash roots limit

def merkleizeByteSequenceWithLimit (bytes : List U8) (byteLimit : Nat) : Rooted Node := do
  ensure (bytes.length ≤ byteLimit) (.error (.listTooLong bytes.length byteLimit))
  merkleizeRootsUnchecked hash (packBytes bytes) (max (chunkCount byteLimit) 1)

/-- The length is mixed in as a 64-bit integer. -/
def lengthChunk (length : Nat) : Node := padChunk (toLeBytes 8 (length % 2 ^ 64))

def mixInLength (root : Node) (length : Nat) : Node := hashPair hash root (lengthChunk length)

def basicRoot (bytes : List U8) : Rooted Node := do
  ensure (bytes.length ≤ bytesPerChunk) (.error (.basicValueTooLong bytes.length bytesPerChunk))
  pure (padChunk bytes)

/-! ## Roots of types -/

/-- What the root traits ask of a type. -/
structure Merkleized (α : Type) where
  isComposite : Bool
  hashTreeRoot : α → Rooted Node

variable {α : Type} (c : Codec α) (m : Merkleized α)

/-- Append a basic value; that it cannot be written counts as an overflow. -/
def appendItem (bytes : Encoding) (value : α) : Rooted Encoding :=
  match c.serialize value bytes with
  | .ok (bytes, _) => .ok bytes
  | .error _ => .error (.error .lengthOverflow)

/-- The root of a homogeneous sequence: over the roots of its items, or over their packed bytes. -/
def collectionRoot (values : List α) (limit : Nat) : Rooted Node := do
  ensure (values.length ≤ limit) (.error (.listTooLong values.length limit))
  if m.isComposite then do
    let roots ← values.mapM m.hashTreeRoot
    merkleizeRootsWithLimit hash roots limit
  else do
    let bytes ← values.foldlM (appendItem c) []
    ensure (limit * c.sizeHint < 2 ^ 64) (.error .lengthOverflow)
    merkleizeByteSequenceWithLimit hash bytes (limit * c.sizeHint)

def uintMerkleized (n : Nat) : Merkleized (Word (8 * n)) where
  isComposite := false
  hashTreeRoot v := basicRoot (toLeBytes n v.val)

def boolMerkleized : Merkleized Bool where
  isComposite := false
  hashTreeRoot v := basicRoot [if v then 1 else 0]

def byteArrayMerkleized (n : Nat) : Merkleized (Bytes n) where
  isComposite := true
  hashTreeRoot v := merkleizeByteSequenceWithLimit hash v.toList n

def vectorMerkleized (n : Nat) : Merkleized (Vector α n) where
  isComposite := true
  hashTreeRoot v := do
    ensure (v.toList.length = n) (.error (.vectorLength v.toList.length n))
    collectionRoot hash c m v.toList n

def listMerkleized (n : Nat) : Merkleized (BoundedList α n) where
  isComposite := true
  hashTreeRoot v := do
    ensure (v.toList.length ≤ n) (.error (.listTooLong v.toList.length n))
    let root ← collectionRoot hash c m v.toList n
    pure (mixInLength hash root v.toList.length)

def bitvectorMerkleized (n : Nat) : Merkleized (Bitvector n) where
  isComposite := true
  hashTreeRoot v := merkleizeByteSequenceWithLimit hash (packBits v.toList) (bitfieldByteLen n)

def bitlistMerkleized (n : Nat) : Merkleized (Bitlist n) where
  isComposite := true
  hashTreeRoot v := do
    ensure (v.toList.length ≤ n) (.error (.listTooLong v.toList.length n))
    let root ← merkleizeByteSequenceWithLimit hash (packBits v.toList) (bitfieldByteLen n)
    pure (mixInLength hash root v.toList.length)

/-- A container, given how the roots of its fields are computed in order. -/
def containerMerkleized (fieldRoots : α → Rooted (List Node)) : Merkleized α where
  isComposite := true
  hashTreeRoot v := do
    let roots ← fieldRoots v
    merkleizeRoots hash roots

end Roots

section Types

variable (hash : Bytes 64 → Node)

mutual

def SszType.merkleized : (t : SszType) → Merkleized t.Value
  | .uint size => uintMerkleized size.bytes
  | .bool => boolMerkleized
  | .byteArray n => byteArrayMerkleized hash n
  | .vector t n => vectorMerkleized hash t.codec t.merkleized n
  | .list t n => listMerkleized hash t.codec t.merkleized n
  | .bitvector n => bitvectorMerkleized hash n
  | .bitlist n => bitlistMerkleized hash n
  | .container fields => containerMerkleized hash fields.roots

def SszFields.roots : (fields : SszFields) → fields.Values → Rooted (List Node)
  | .nil, _ => pure []
  | .cons t fields, v => do
    let root ← t.merkleized.hashTreeRoot v.1
    let roots ← fields.roots v.2
    pure (root :: roots)

end

def SszType.hashTreeRoot (t : SszType) (v : t.Value) : Rooted Node :=
  (t.merkleized hash).hashTreeRoot v

end Types

end Moonglass.Ssz
