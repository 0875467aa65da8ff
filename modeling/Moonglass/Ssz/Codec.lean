import Moonglass.Containers
import Moonglass.Lib.Layout
import Moonglass.Lib.Bits

/-
  The SSZ codec. A codec is what a type's implementations of the sizing, encoding and decoding
  traits amount to; the combinators build one from others. Encoding appends to a buffer and returns
  the number of bytes written. Decoding can fail, and it can panic: an index or a range out of
  bounds, or a chunk size of zero. Lengths are `usize`, here 64 bits: checked where the source
  checks, wrapping where it does not.
-/

namespace Moonglass.Ssz

open Lib

abbrev Encoding := List U8

def bytesPerLengthOffset : Nat := 4

/-- Keep the low 64 bits, as unchecked `usize` arithmetic does. -/
def usize (n : Nat) : Nat := n % 2 ^ 64

inductive SerializeError where
  | offsetOverflow
  | containerFixedSize (got expected : Nat)
  | listTooLong (len limit : Nat)
  | vectorLength (len expected : Nat)
  deriving DecidableEq, Repr

inductive DeserializeError where
  | expectedFurtherInput (provided expected : Nat)
  | additionalInput (provided expected : Nat)
  | invalidOffset (offset len : Nat)
  | nonMonotonicOffset (previous offset : Nat)
  | offsetOverflow
  | listTooLong (len limit : Nat)
  | missingBitlistDelimiter
  | nonZeroPaddingBits
  | invalidBool (byte : U8)
  | missingField (field : String)
  deriving DecidableEq, Repr

/-- How decoding ends without a value. -/
inductive Fault where
  | error (e : DeserializeError)
  | panic
  deriving DecidableEq, Repr

abbrev Decoded := Except Fault

/-- The value of a computation together with the fact that it is its value. -/
def attach {α : Type} (x : Decoded α) : Decoded { a : α // x = .ok a } :=
  match x with
  | .ok a => .ok ⟨a, rfl⟩
  | .error e => .error e

/-- An indexed read, which panics out of bounds. -/
def index {α : Type} (l : List α) (i : Nat) : Decoded α := okOr l[i]? .panic

/-- A range of a byte slice, which panics unless it is in order and in bounds. -/
def sliceRange (encoding : Encoding) (start stop : Nat) : Decoded Encoding := do
  ensure (start ≤ stop ∧ stop ≤ encoding.length) .panic
  pure (piece encoding start stop)

/-- The complete chunks of a byte slice; a chunk size of zero panics. -/
def chunksExact (encoding : Encoding) (size : Nat) : Decoded (List Encoding) := do
  ensure (size ≠ 0) .panic
  pure ((List.range (encoding.length / size)).map fun i =>
    piece encoding (i * size) ((i + 1) * size))

/-- What the traits ask of a type. -/
structure Codec (α : Type) where
  isVariableSize : Bool
  sizeHint : Nat
  serialize : α → Encoding → Except SerializeError (Encoding × Nat)
  deserialize : Encoding → Decoded α

/-! ## Offsets -/

def writeOffset (offset : Nat) (buffer : Encoding) : Except SerializeError Encoding := do
  ensure (offset < 2 ^ 32) .offsetOverflow
  pure (buffer ++ toLeBytes 4 offset)

def readOffsetAt (encoding : Encoding) (cursor : Nat) : Decoded Nat := do
  let stop := cursor + bytesPerLengthOffset
  ensure (stop < 2 ^ 64) (.error .offsetOverflow)
  ensure (stop ≤ encoding.length) (.error (.expectedFurtherInput encoding.length stop))
  let bytes ← sliceRange encoding cursor stop
  pure (fromLeBytes bytes)

/-- Check the offsets and return them with the input length appended. -/
def validateVariableOffsets (offsets : List Nat) (fixedEnd inputLen : Nat) : Decoded (List Nat) :=
  match offsets with
  | [] => do
    ensure (fixedEnd = inputLen) (.error (.additionalInput inputLen fixedEnd))
    pure [inputLen]
  | first :: rest => do
    ensure (first = fixedEnd ∧ first ≤ inputLen) (.error (.invalidOffset first inputLen))
    let (bounds, _) ← rest.foldlM (fun (bounds, previous) offset => do
      ensure (previous ≤ offset) (.error (.nonMonotonicOffset previous offset))
      ensure (offset ≤ inputLen) (.error (.invalidOffset offset inputLen))
      pure (bounds ++ [offset], offset)) ([first], first)
    pure (bounds ++ [inputLen])

/-! ## Sequences -/

section Sequences

variable {α : Type} (c : Codec α)
variable {encoding : Encoding} {values : List α}

/-- Encode a homogeneous sequence. -/
def serializeSequence (values : List α) (buffer : Encoding) :
    Except SerializeError (Encoding × Nat) :=
  if c.isVariableSize then do
    let fixedSize := values.length * bytesPerLengthOffset
    ensure (fixedSize < 2 ^ 64) .offsetOverflow
    let (fixed, rest, _) ← values.foldlM (fun (fixed, rest, offset) value => do
      let fixed ← writeOffset offset fixed
      let (rest, written) ← c.serialize value rest
      ensure (offset + written < 2 ^ 64) .offsetOverflow
      pure (fixed, rest, offset + written)) (([], [], fixedSize) : Encoding × Encoding × Nat)
    ensure (fixed.length + rest.length < 2 ^ 64) .offsetOverflow
    pure (buffer ++ fixed ++ rest, fixed.length + rest.length)
  else do
    let start := buffer.length
    let buffer ← values.foldlM (fun buffer value => do
      let (buffer, _) ← c.serialize value buffer
      pure buffer) buffer
    pure (buffer, buffer.length - start)

/-- Decode `count` items of variable size. -/
def deserializeVariableItems (encoding : Encoding) (count : Nat) : Decoded (List α) := do
  let fixedEnd := count * bytesPerLengthOffset
  ensure (fixedEnd < 2 ^ 64) (.error .offsetOverflow)
  ensure (fixedEnd ≤ encoding.length) (.error (.expectedFurtherInput encoding.length fixedEnd))
  let offsets ← (List.range count).mapM fun i => readOffsetAt encoding (i * bytesPerLengthOffset)
  let bounds ← validateVariableOffsets offsets fixedEnd encoding.length
  (List.range count).mapM fun i => do
    let start ← index bounds i
    let stop ← index bounds (i + 1)
    c.deserialize (← sliceRange encoding start stop)

/-- Decode the items of a list of at most `limit`. -/
def deserializeListItems (limit : Nat) (encoding : Encoding) : Decoded (List α) :=
  if c.isVariableSize then
    if encoding.isEmpty then pure []
    else do
      let firstOffset ← readOffsetAt encoding 0
      ensure (firstOffset ≠ 0) (.error (.invalidOffset firstOffset encoding.length))
      ensure (firstOffset % bytesPerLengthOffset = 0)
        (.error (.invalidOffset firstOffset encoding.length))
      let count := firstOffset / bytesPerLengthOffset
      ensure (count ≤ limit) (.error (.listTooLong count limit))
      deserializeVariableItems c encoding count
  else do
    let itemSize := c.sizeHint
    ensure (itemSize ≠ 0) (.error (.invalidOffset 0 encoding.length))
    ensure (encoding.length % itemSize = 0) (.error
      (.additionalInput encoding.length (encoding.length / itemSize * itemSize)))
    let count := encoding.length / itemSize
    ensure (count ≤ limit) (.error (.listTooLong count limit))
    (← chunksExact encoding itemSize).mapM c.deserialize

/-- Decode the items of a vector of `n`. -/
def deserializeVectorItems (n : Nat) (encoding : Encoding) : Decoded (List α) :=
  if c.isVariableSize then
    if n = 0 then do
      ensure encoding.isEmpty (.error (.additionalInput encoding.length 0))
      pure []
    else deserializeVariableItems c encoding n
  else do
    let expected := n * c.sizeHint
    ensure (expected < 2 ^ 64) (.error .offsetOverflow)
    ensure (expected ≤ encoding.length) (.error (.expectedFurtherInput encoding.length expected))
    ensure (encoding.length ≤ expected) (.error (.additionalInput encoding.length expected))
    (← chunksExact encoding c.sizeHint).mapM c.deserialize

/-! The lengths that the decoders promise, so that lists and vectors can be built from them. -/

theorem length_of_mapM {ε α β : Type} {f : α → Except ε β} {l : List α} {l' : List β}
    (h : l.mapM f = .ok l') : l'.length = l.length := by
  induction l generalizing l' with
  | nil => cases h; rfl
  | cons a l ih =>
    simp only [List.mapM_cons, bind_eq_ok, pure_eq_ok] at h
    obtain ⟨b, -, bs, hbs, h⟩ := h
    cases h
    rw [List.length_cons, List.length_cons, ih hbs]

theorem length_deserializeVariableItems {count : Nat}
    (h : deserializeVariableItems c encoding count = .ok values) : values.length = count := by
  unfold deserializeVariableItems at h
  simp only [bind_eq_ok] at h
  obtain ⟨_, _, _, _, offsets, -, bounds, -, h⟩ := h
  rw [length_of_mapM h, List.length_range]

theorem length_chunksExact {size : Nat} {chunks : List Encoding}
    (h : chunksExact encoding size = .ok chunks) :
    size ≠ 0 ∧ chunks.length = encoding.length / size := by
  unfold chunksExact at h
  simp only [bind_eq_ok, ensure_eq_ok, pure_eq_ok] at h
  obtain ⟨_, hsize, h⟩ := h
  cases h
  exact ⟨hsize, by rw [List.length_map, List.length_range]⟩

theorem length_deserializeListItems {limit : Nat}
    (h : deserializeListItems c limit encoding = .ok values) : values.length ≤ limit := by
  unfold deserializeListItems at h
  split at h
  · split at h
    · cases h
      exact Nat.zero_le _
    · simp only [bind_eq_ok, ensure_eq_ok] at h
      obtain ⟨_, -, _, -, _, -, _, hcount, h⟩ := h
      rw [length_deserializeVariableItems c h]
      exact hcount
  · simp only [bind_eq_ok, ensure_eq_ok] at h
    obtain ⟨_, -, _, -, _, hcount, chunks, hchunks, h⟩ := h
    rw [length_of_mapM h, (length_chunksExact hchunks).2]
    exact hcount

theorem length_deserializeVectorItems {n : Nat}
    (h : deserializeVectorItems c n encoding = .ok values) : values.length = n := by
  unfold deserializeVectorItems at h
  split at h
  · split at h
    · simp only [bind_eq_ok, pure_eq_ok] at h
      obtain ⟨_, -, h⟩ := h
      cases h
      exact Eq.symm ‹n = 0›
    · exact length_deserializeVariableItems c h
  · simp only [bind_eq_ok, ensure_eq_ok] at h
    obtain ⟨_, -, _, hlo, _, hhi, chunks, hchunks, h⟩ := h
    obtain ⟨hsize, hlen⟩ := length_chunksExact hchunks
    rw [length_of_mapM h, hlen, Nat.le_antisymm hhi hlo]
    exact Nat.mul_div_cancel _ (Nat.pos_of_ne_zero hsize)

/-- `Vector<T, N>`. -/
def vectorCodec (n : Nat) : Codec (Vector α n) where
  isVariableSize := c.isVariableSize
  sizeHint := if c.isVariableSize then usize (n * bytesPerLengthOffset) else usize (n * c.sizeHint)
  serialize v buffer := do
    ensure (v.toList.length = n) (.vectorLength v.toList.length n)
    serializeSequence c v.toList buffer
  deserialize encoding := do
    let ⟨values, h⟩ ← attach (deserializeVectorItems c n encoding)
    pure ⟨values.toArray, List.size_toArray.trans (length_deserializeVectorItems c h)⟩

/-- `List<T, N>`. -/
def listCodec (n : Nat) : Codec (BoundedList α n) where
  isVariableSize := true
  sizeHint := bytesPerLengthOffset
  serialize v buffer := do
    ensure (v.toList.length ≤ n) (.listTooLong v.toList.length n)
    serializeSequence c v.toList buffer
  deserialize encoding := do
    let ⟨values, h⟩ ← attach (deserializeListItems c n encoding)
    pure ⟨values, length_deserializeListItems c h⟩

end Sequences

/-! ## Basic values -/

/-- Exactly `n` bytes. -/
def deserializeFixedBytes (n : Nat) (encoding : Encoding) : Decoded Encoding := do
  ensure (n ≤ encoding.length) (.error (.expectedFurtherInput encoding.length n))
  ensure (encoding.length ≤ n) (.error (.additionalInput encoding.length n))
  pure encoding

/-- An unsigned integer of `n` bytes. The byte order of the 32-byte integer, which the source keeps
as its bytes, is the same. -/
def uintCodec (n : Nat) : Codec (Word (8 * n)) where
  isVariableSize := false
  sizeHint := n
  serialize v buffer := pure (buffer ++ toLeBytes n v.val, n)
  deserialize encoding := do
    let bytes ← deserializeFixedBytes n encoding
    pure (Word.wrap (fromLeBytes bytes))

def boolCodec : Codec Bool where
  isVariableSize := false
  sizeHint := 1
  serialize v buffer := pure (buffer ++ [if v then 1 else 0], 1)
  deserialize encoding := do
    let byte ← (uintCodec 1).deserialize encoding
    if byte = 0 then pure false
    else if byte = 1 then pure true
    else .error (.error (.invalidBool byte))

/-- `[u8; N]`. -/
def byteArrayCodec (n : Nat) : Codec (Bytes n) where
  isVariableSize := false
  sizeHint := n
  serialize v buffer := pure (buffer ++ v.toList, n)
  deserialize encoding := do
    ensure (n ≤ encoding.length) (.error (.expectedFurtherInput encoding.length n))
    ensure (encoding.length ≤ n) (.error (.additionalInput encoding.length n))
    -- Copying into the array panics when the lengths differ.
    if h : encoding.length = n then pure ⟨encoding.toArray, h⟩ else .error .panic

/-! ## Bitfields -/

def bitfieldByteLen (bits : Nat) : Nat := (bits + 7) / 8

/-- Pack booleans, the first one into the lowest bit of the first byte. -/
def packBits (bits : List Bool) : Encoding :=
  setBits (List.replicate (bitfieldByteLen bits.length) 0) 0 bits

def bitAt (bytes : Encoding) (i : Nat) : Decoded Bool := do
  let byte ← index bytes (i / 8)
  pure (byte.val &&& (1 <<< (i % 8)) ≠ 0)

/-- The complement of a byte. -/
def notByte (n : Nat) : Nat := 255 - n

def validatePaddingBits (bytes : Encoding) (bits : Nat) : Decoded Unit :=
  if bits = 0 ∨ bits % 8 = 0 then pure ()
  else
    let mask := notByte (1 <<< (bits % 8) - 1)
    ensure ((bytes.getLastD 0).val &&& mask = 0) (.error .nonZeroPaddingBits)

/-- `Bitvector<N>`. -/
def bitvectorCodec (n : Nat) : Codec (Bitvector n) where
  isVariableSize := false
  sizeHint := bitfieldByteLen n
  serialize v buffer :=
    let bytes := packBits v.toList
    pure (buffer ++ bytes, bytes.length)
  deserialize encoding := do
    let expected := bitfieldByteLen n
    ensure (expected ≤ encoding.length) (.error (.expectedFurtherInput encoding.length expected))
    ensure (encoding.length ≤ expected) (.error (.additionalInput encoding.length expected))
    validatePaddingBits encoding n
    let ⟨bits, h⟩ ← attach ((List.range n).mapM (bitAt encoding))
    pure ⟨bits.toArray, List.size_toArray.trans ((length_of_mapM h).trans List.length_range)⟩

def leadingZeros (byte : U8) : Nat := if byte = 0 then 8 else 7 - Nat.log2 byte.val

/-- The bytes of a bitlist: its bits and, in the next place, the delimiter. -/
def delimitBits (bits : List Bool) : Encoding :=
  let bytes := packBits bits
  let delimiterIndex := bits.length % 8
  if delimiterIndex = 0 then bytes ++ [1]
  else bytes.modify (bytes.length - 1) fun last => Word.wrap (last.val ||| 1 <<< delimiterIndex)

def deserializeBits (limit : Nat) (encoding : Encoding) : Decoded (List Bool) := do
  let last ← okOr encoding.getLast? (.error .missingBitlistDelimiter)
  ensure (last ≠ 0) (.error .missingBitlistDelimiter)
  let delimiterIndex := 7 - leadingZeros last
  let bitLen := usize ((encoding.length - 1) * 8 + delimiterIndex)
  ensure (bitLen ≤ limit) (.error (.listTooLong bitLen limit))
  let payload := encoding.modify (encoding.length - 1) fun byte =>
    Word.wrap (byte.val &&& notByte (1 <<< delimiterIndex))
  (List.range bitLen).mapM (bitAt payload)

theorem length_deserializeBits {limit : Nat} {bits : List Bool}
    (h : deserializeBits limit encoding = .ok bits) : bits.length ≤ limit := by
  unfold deserializeBits at h
  simp only [bind_eq_ok, ensure_eq_ok] at h
  obtain ⟨_, -, _, -, _, hlen, h⟩ := h
  rw [length_of_mapM h, List.length_range]
  exact hlen

/-- `Bitlist<N>`. -/
def bitlistCodec (n : Nat) : Codec (Bitlist n) where
  isVariableSize := true
  sizeHint := bytesPerLengthOffset
  serialize v buffer := do
    ensure (v.toList.length ≤ n) (.listTooLong v.toList.length n)
    let bytes := delimitBits v.toList
    pure (buffer ++ bytes, bytes.length)
  deserialize encoding := do
    let ⟨bits, h⟩ ← attach (deserializeBits n encoding)
    pure ⟨bits, length_deserializeBits h⟩

/-! ## Containers -/

structure FieldLayout where
  variableSize : Bool
  sizeHint : Nat

def fieldLayout {α : Type} (c : Codec α) : FieldLayout where
  variableSize := c.isVariableSize
  sizeHint := if c.isVariableSize then bytesPerLengthOffset else c.sizeHint

def containerIsVariableSize (fields : List FieldLayout) : Bool := fields.any (·.variableSize)

def containerSizeHint (fields : List FieldLayout) : Nat :=
  fields.foldl (fun sum field => usize (sum + field.sizeHint)) 0

/-- The sections of a container as its fields are written. -/
structure ContainerEncoder where
  fixed : Encoding
  payloads : Encoding
  fixedSize : Nat
  variableOffset : Nat

namespace ContainerEncoder

def new (fixedSize : Nat) : ContainerEncoder := ⟨[], [], fixedSize, fixedSize⟩

def writeField {α : Type} (c : Codec α) (value : α) (enc : ContainerEncoder) :
    Except SerializeError ContainerEncoder :=
  if c.isVariableSize then do
    let fixed ← writeOffset enc.variableOffset enc.fixed
    let (rest, written) ← c.serialize value enc.payloads
    ensure (enc.variableOffset + written < 2 ^ 64) .offsetOverflow
    pure { enc with fixed, payloads := rest, variableOffset := enc.variableOffset + written }
  else do
    let (fixed, _) ← c.serialize value enc.fixed
    pure { enc with fixed }

def finish (enc : ContainerEncoder) (buffer : Encoding) :
    Except SerializeError (Encoding × Nat) := do
  ensure (enc.fixed.length = enc.fixedSize) (.containerFixedSize enc.fixed.length enc.fixedSize)
  ensure (enc.fixed.length + enc.payloads.length < 2 ^ 64) .offsetOverflow
  pure (buffer ++ enc.fixed ++ enc.payloads, enc.fixed.length + enc.payloads.length)

end ContainerEncoder

/-- The field ranges found so far. -/
structure FieldScan where
  cursor : Nat
  ranges : List (Nat × Nat)
  variableFields : List Nat
  variableOffsets : List Nat

/-- Read the fixed section: the ranges of the fixed fields and the offsets of the others. -/
def scanField (encoding : Encoding) (scan : FieldScan) (field : FieldLayout × Nat) :
    Decoded FieldScan :=
  let (layout, fieldIndex) := field
  if layout.variableSize then do
    let offset ← readOffsetAt encoding scan.cursor
    ensure (scan.cursor + bytesPerLengthOffset < 2 ^ 64) (.error .offsetOverflow)
    pure { scan with
      cursor := scan.cursor + bytesPerLengthOffset
      variableFields := scan.variableFields ++ [fieldIndex]
      variableOffsets := scan.variableOffsets ++ [offset] }
  else do
    let stop := scan.cursor + layout.sizeHint
    ensure (stop < 2 ^ 64) (.error .offsetOverflow)
    ensure (stop ≤ encoding.length) (.error (.expectedFurtherInput encoding.length stop))
    pure { scan with cursor := stop, ranges := scan.ranges.set fieldIndex (scan.cursor, stop) }

/-- The byte range of each field. -/
def containerFieldRanges (encoding : Encoding) (layouts : List FieldLayout) :
    Decoded (List (Nat × Nat)) := do
  let scan ← layouts.zipIdx.foldlM (scanField encoding)
    ⟨0, List.replicate layouts.length (0, 0), [], []⟩
  if scan.variableOffsets.isEmpty then do
    ensure (scan.cursor = encoding.length)
      (.error (.additionalInput encoding.length scan.cursor))
    pure scan.ranges
  else do
    let bounds ← validateVariableOffsets scan.variableOffsets scan.cursor encoding.length
    scan.variableFields.zipIdx.foldlM (fun ranges (fieldIndex, variableIndex) => do
      let start ← index bounds variableIndex
      let stop ← index bounds (variableIndex + 1)
      pure (ranges.set fieldIndex (start, stop))) scan.ranges

/-- A container encoding with the ranges of its fields, and the next field to decode. -/
structure ContainerDecoder where
  encoding : Encoding
  ranges : List (Nat × Nat)
  next : Nat

namespace ContainerDecoder

def new (encoding : Encoding) (layouts : List FieldLayout) : Decoded ContainerDecoder := do
  let ranges ← containerFieldRanges encoding layouts
  pure ⟨encoding, ranges, 0⟩

def deserializeNext {α : Type} (c : Codec α) (dec : ContainerDecoder) :
    Decoded (α × ContainerDecoder) := do
  let range ← okOr dec.ranges[dec.next]? (.error (.missingField "past end of layout"))
  let value ← c.deserialize (← sliceRange dec.encoding range.1 range.2)
  pure (value, { dec with next := dec.next + 1 })

end ContainerDecoder

/-- The fields of a container in order: their layouts, and how they are written and read. -/
structure FieldsCodec (α : Type) where
  layouts : List FieldLayout
  write : α → ContainerEncoder → Except SerializeError ContainerEncoder
  read : ContainerDecoder → Decoded (α × ContainerDecoder)

namespace FieldsCodec

def nil : FieldsCodec Unit where
  layouts := []
  write _ enc := pure enc
  read dec := pure ((), dec)

def cons {α β : Type} (c : Codec α) (fields : FieldsCodec β) : FieldsCodec (α × β) where
  layouts := fieldLayout c :: fields.layouts
  write v enc := do
    let enc ← enc.writeField c v.1
    fields.write v.2 enc
  read dec := do
    let (value, dec) ← dec.deserializeNext c
    let (values, dec) ← fields.read dec
    pure ((value, values), dec)

end FieldsCodec

def containerCodec {α : Type} (fields : FieldsCodec α) : Codec α where
  isVariableSize := containerIsVariableSize fields.layouts
  sizeHint := containerSizeHint fields.layouts
  serialize v buffer := do
    let enc ← fields.write v (ContainerEncoder.new (containerSizeHint fields.layouts))
    enc.finish buffer
  deserialize encoding := do
    let dec ← ContainerDecoder.new encoding fields.layouts
    let (value, _) ← fields.read dec
    pure value

end Moonglass.Ssz
