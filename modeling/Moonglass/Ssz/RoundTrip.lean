import Moonglass.Ssz.Bitfield
import Moonglass.Ssz.Container
import Moonglass.Ssz.Schema

/-
  Every type built from the combinators has a format that its codec implements, by induction over
  the type. Decoding what was encoded gives the value back, and an encoding that is accepted is
  the encoding of the value it gives.
-/

namespace Moonglass.Ssz

open Lib List

mutual

/-- The byte strings of a type. -/
def SszType.format : (t : SszType) → Format t.Value
  | .uint size => uintFormat size.bytes
  | .bool => boolFormat
  | .byteArray n => byteArrayFormat n
  | .vector t n => vectorFormat t.codec.isVariableSize t.format n
  | .list t n => listFormat t.codec.isVariableSize t.format n
  | .bitvector n => bitvectorFormat n
  | .bitlist n => bitlistFormat n
  | .container fields => containerFormat fields.format

def SszFields.format : (fields : SszFields) → FieldsFormat fields.Values
  | .nil => .nil
  | .cons t fields => .cons t.codec.isVariableSize t.format fields.format

end

mutual

theorem SszType.codec_meets : (t : SszType) → t.WellFormed → t.codec.Meets t.format
  | .uint size, _ => uintCodec_meets size.bytes
  | .bool, _ => boolCodec_meets
  | .byteArray n, _ => byteArrayCodec_meets n
  | .vector t _, h => vectorCodec_meets (t.codec_meets h.1) h.2.2
  | .list t _, h => listCodec_meets (t.codec_meets h.1) h.2.2
  | .bitvector n, _ => bitvectorCodec_meets n
  | .bitlist _, h => bitlistCodec_meets h
  | .container fields, h => containerCodec_meets (fields.codec_meets h.1) h.2

theorem SszFields.codec_meets : (fields : SszFields) → fields.WellFormed →
    fields.codec.Meets fields.format
  | .nil, _ => FieldsCodec.nil_meets
  | .cons t fields, h => FieldsCodec.cons_meets (t.codec_meets h.1) (fields.codec_meets h.2)

end

/-- Values and their encodings determine each other, and the decoder does not panic. A value is
refused exactly when one of its offsets does not fit. -/
structure SszType.Canonical (t : SszType) : Prop where
  round_trip : ∀ v, t.format.fits v = true →
    ∃ encoding, t.serialize v = .ok encoding ∧ t.deserialize encoding = .ok v
  overflow : ∀ v, t.format.fits v = false → t.serialize v = .error .offsetOverflow
  accepted : ∀ encoding v, encoding.length < 2 ^ 61 → t.deserialize encoding = .ok v →
    t.serialize v = .ok encoding
  unique : ∀ encoding encoding' v, encoding.length < 2 ^ 61 → encoding'.length < 2 ^ 61 →
    t.deserialize encoding = .ok v → t.deserialize encoding' = .ok v → encoding = encoding'
  no_panic : ∀ encoding, encoding.length < 2 ^ 61 → t.deserialize encoding ≠ .error .panic

section Canonical

variable {t : SszType}

theorem SszType.serialize_eq (ht : t.WellFormed) (v : t.Value) : t.serialize v =
    if t.format.fits v then .ok (t.format.encode v) else .error .offsetOverflow := by
  unfold SszType.serialize
  rw [(t.codec_meets ht).serialize_eq]
  split <;> rfl

theorem SszType.serialize_of_deserialize (ht : t.WellFormed) {encoding : Encoding} {v : t.Value}
    (hlen : encoding.length < 2 ^ 61) (h : t.deserialize encoding = .ok v) :
    t.serialize v = .ok encoding := by
  obtain ⟨hfits, hencode⟩ := (t.codec_meets ht).of_deserialize encoding v hlen h
  rw [t.serialize_eq ht, if_pos hfits, hencode]

theorem SszType.canonical (ht : t.WellFormed) : t.Canonical where
  round_trip v hfits := by
    refine ⟨t.format.encode v, ?_, (t.codec_meets ht).deserialize_encode v hfits⟩
    rw [t.serialize_eq ht, if_pos hfits]
  overflow v hfits := by
    rw [t.serialize_eq ht, hfits]
    rfl
  accepted _ _ := SszType.serialize_of_deserialize ht
  unique encoding encoding' v hlen hlen' h h' := by
    have hv := SszType.serialize_of_deserialize ht hlen h
    rw [SszType.serialize_of_deserialize ht hlen' h'] at hv
    exact (Except.ok.inj hv).symm
  no_panic := (t.codec_meets ht).no_panic

end Canonical

/-- Every type with items of positive size, and so every container of the crate, has a canonical
codec. -/
theorem codecs_canonical [Preset] :
    (∀ t : SszType, t.WellFormed → t.Canonical) ∧ ∀ t ∈ Schema.containers, t.Canonical :=
  ⟨fun _ => SszType.canonical, fun t ht => SszType.canonical (Schema.containers_wellFormed t ht)⟩

/-- A list of bitlists and a flag. -/
def nestedType : SszType := Schema.container [.list (.bitlist 9) 2, .bool]

def nestedValue : nestedType.Value :=
  (⟨[⟨[true, false], by decide⟩, ⟨[], by decide⟩], by decide⟩, true, ())

theorem codecs_canonical_nested : nestedType.WellFormed ∧
    nestedType.format.fits nestedValue = true ∧ nestedType.Canonical ∧
    ∃ encoding, nestedType.serialize nestedValue = .ok encoding ∧
      nestedType.deserialize encoding = .ok nestedValue :=
  have hcanonical := (@codecs_canonical ⟨.minimal⟩).1 nestedType (by decide)
  ⟨by decide, by decide, hcanonical, hcanonical.round_trip _ (by decide)⟩

theorem deserializeBits_wraps (limit : Nat) :
    deserializeBits limit (List.replicate (2 ^ 61) 0 ++ [1]) = .ok [] := by
  have hlen : (List.replicate (2 ^ 61) (0 : U8) ++ [1]).length = 2 ^ 61 + 1 := by
    rw [length_append, length_replicate, length_singleton]
  have hlast : (7 - leadingZeros 1) = 0 := by decide
  unfold deserializeBits
  dsimp only
  rw [getLast?_concat, okOr_some, ok_bind, ensure_of (by decide), ok_bind, hlast, hlen]
  rw [show usize ((2 ^ 61 + 1 - 1) * 8 + 0) = 0 by decide, ensure_of (Nat.zero_le _), ok_bind]
  rfl

/-- Empty items leave no trace in the encoding of their list, and the decoder rejects it whatever it
holds. The bit length of a bitlist wraps at 2^61 bytes. -/
theorem empty_items_not_decoded :
    ((SszType.list (.byteArray 0) 1).format.fits ⟨[#v[]], by decide⟩ = true ∧
      (SszType.list (.byteArray 0) 1).serialize ⟨[#v[]], by decide⟩ = .ok [] ∧
      (SszType.list (.byteArray 0) 1).deserialize [] = .error (.error (.invalidOffset 0 0))) ∧
    (SszType.bitlist 8).deserialize (List.replicate (2 ^ 61) 0 ++ [1]) =
        .ok ⟨[], by decide⟩ ∧
      (SszType.bitlist 8).serialize ⟨[], by decide⟩ = .ok [1] := by
  refine ⟨⟨by decide, by rfl, by rfl⟩, ?_, by rfl⟩
  exact attach_bind_eq_ok.2 ⟨[], deserializeBits_wraps 8, rfl⟩

end Moonglass.Ssz
