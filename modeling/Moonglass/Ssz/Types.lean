import Moonglass.Ssz.Codec

/-
  The types that the combinators build, as data: nested to any depth, with containers of any
  fields. Each type has its values and its codec.
-/

namespace Moonglass.Ssz

open Lib

/-- The unsigned integers. -/
inductive UintSize where
  | u8
  | u16
  | u32
  | u64
  | u128
  | u256
  deriving DecidableEq, Repr

def UintSize.bytes : UintSize → Nat
  | .u8 => 1
  | .u16 => 2
  | .u32 => 4
  | .u64 => 8
  | .u128 => 16
  | .u256 => 32

mutual

/-- A type built from the combinators. -/
inductive SszType where
  | uint (size : UintSize)
  | bool
  | byteArray (n : Nat)
  | vector (t : SszType) (n : Nat)
  | list (t : SszType) (n : Nat)
  | bitvector (n : Nat)
  | bitlist (n : Nat)
  | container (fields : SszFields)

/-- The fields of a container. -/
inductive SszFields where
  | nil
  | cons (t : SszType) (fields : SszFields)

end

def SszFields.ofList : List SszType → SszFields
  | [] => .nil
  | t :: ts => .cons t (ofList ts)

mutual

/-- The values of a type. Vectors and lists carry their lengths. -/
def SszType.Value : SszType → Type
  | .uint size => Word (8 * size.bytes)
  | .bool => Bool
  | .byteArray n => Bytes n
  | .vector t n => Vector t.Value n
  | .list t n => BoundedList t.Value n
  | .bitvector n => Bitvector n
  | .bitlist n => Bitlist n
  | .container fields => fields.Values

def SszFields.Values : SszFields → Type
  | .nil => Unit
  | .cons t fields => t.Value × fields.Values

end

mutual

/-- The codec of a type. -/
def SszType.codec : (t : SszType) → Codec t.Value
  | .uint size => uintCodec size.bytes
  | .bool => boolCodec
  | .byteArray n => byteArrayCodec n
  | .vector t n => vectorCodec t.codec n
  | .list t n => listCodec t.codec n
  | .bitvector n => bitvectorCodec n
  | .bitlist n => bitlistCodec n
  | .container fields => containerCodec fields.codec

def SszFields.codec : (fields : SszFields) → FieldsCodec fields.Values
  | .nil => .nil
  | .cons t fields => .cons t.codec fields.codec

end

/-- `serialize` into an empty buffer. -/
def SszType.serialize (t : SszType) (v : t.Value) : Except SerializeError Encoding := do
  let (encoding, _) ← t.codec.serialize v []
  pure encoding

def SszType.deserialize (t : SszType) (encoding : Encoding) : Decoded t.Value :=
  t.codec.deserialize encoding

/-! ## Types that can be instantiated -/

mutual

/-- Lengths are `usize` values and fixed sizes fit one; the items of a list or vector, if they have
a fixed size, take at least one byte. -/
def SszType.WellFormed : SszType → Prop
  | .uint _ => True
  | .bool => True
  | .byteArray n => n < 2 ^ 64
  | .vector t n => t.WellFormed ∧ n < 2 ^ 64 ∧ (t.codec.isVariableSize = false →
      0 < t.codec.sizeHint ∧ n * t.codec.sizeHint < 2 ^ 64)
  | .list t n => t.WellFormed ∧ n < 2 ^ 64 ∧ (t.codec.isVariableSize = false →
      0 < t.codec.sizeHint)
  | .bitvector n => n < 2 ^ 64
  | .bitlist n => n < 2 ^ 64
  | .container fields => fields.WellFormed ∧
      (fields.codec.layouts.map (·.sizeHint)).sum < 2 ^ 64

def SszFields.WellFormed : SszFields → Prop
  | .nil => True
  | .cons t fields => t.WellFormed ∧ fields.WellFormed

end

mutual

def SszType.decidableWellFormed : (t : SszType) → Decidable t.WellFormed
  | .uint _ => inferInstanceAs (Decidable True)
  | .bool => inferInstanceAs (Decidable True)
  | .byteArray n => inferInstanceAs (Decidable (n < 2 ^ 64))
  | .vector t n =>
    have := t.decidableWellFormed
    inferInstanceAs (Decidable (t.WellFormed ∧ n < 2 ^ 64 ∧ (t.codec.isVariableSize = false →
      0 < t.codec.sizeHint ∧ n * t.codec.sizeHint < 2 ^ 64)))
  | .list t n =>
    have := t.decidableWellFormed
    inferInstanceAs (Decidable (t.WellFormed ∧ n < 2 ^ 64 ∧ (t.codec.isVariableSize = false →
      0 < t.codec.sizeHint)))
  | .bitvector n => inferInstanceAs (Decidable (n < 2 ^ 64))
  | .bitlist n => inferInstanceAs (Decidable (n < 2 ^ 64))
  | .container fields =>
    have := fields.decidableWellFormed
    inferInstanceAs (Decidable (fields.WellFormed ∧
      (fields.codec.layouts.map (·.sizeHint)).sum < 2 ^ 64))

def SszFields.decidableWellFormed : (fields : SszFields) → Decidable fields.WellFormed
  | .nil => inferInstanceAs (Decidable True)
  | .cons t fields =>
    have := t.decidableWellFormed
    have := fields.decidableWellFormed
    inferInstanceAs (Decidable (t.WellFormed ∧ fields.WellFormed))

end

instance (t : SszType) : Decidable t.WellFormed := t.decidableWellFormed

end Moonglass.Ssz
