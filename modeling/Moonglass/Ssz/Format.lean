import Moonglass.Ssz.Types

/-
  What the codec is for. A format says which byte string a value stands for, and which values have
  one at all: those whose offsets fit 32 bits. A codec meets a format when it writes exactly these
  strings, reads them back, accepts no others and never panics. Here the basic values and the
  bitfields; sequences and containers follow.
-/

namespace Moonglass.Ssz

open Lib Word

/-! ## Little-endian bytes -/

theorem length_toLeBytes (n v : Nat) : (toLeBytes n v).length = n := by
  induction n generalizing v with
  | zero => rfl
  | succ n ih => rw [toLeBytes, List.length_cons, ih]

theorem fromLeBytes_lt (l : List U8) : fromLeBytes l < 2 ^ (8 * l.length) := by
  induction l with
  | nil => decide
  | cons b l ih =>
    have hb : b.val < 256 := b.isLt
    have hpow : 2 ^ (8 * (b :: l).length) = 256 * 2 ^ (8 * l.length) := by
      rw [List.length_cons, Nat.mul_succ, Nat.pow_add, Nat.mul_comm]
    rw [hpow, fromLeBytes]
    omega

theorem fromLeBytes_toLeBytes {n v : Nat} (h : v < 2 ^ (8 * n)) :
    fromLeBytes (toLeBytes n v) = v := by
  induction n generalizing v with
  | zero =>
    rw [Nat.mul_zero, Nat.pow_zero] at h
    rw [toLeBytes, fromLeBytes]
    omega
  | succ n ih =>
    have hpow : 2 ^ (8 * (n + 1)) = 256 * 2 ^ (8 * n) := by
      rw [Nat.mul_succ, Nat.pow_add, Nat.mul_comm]
    have hrest : v / 256 < 2 ^ (8 * n) := by
      rw [hpow] at h
      exact Nat.div_lt_of_lt_mul h
    rw [toLeBytes, fromLeBytes, ih hrest, wrap_val]
    exact Nat.mod_add_div v 256

theorem toLeBytes_fromLeBytes (l : List U8) : toLeBytes l.length (fromLeBytes l) = l := by
  induction l with
  | nil => rfl
  | cons b l ih =>
    have hb : b.val < 256 := b.isLt
    have hlow : (Word.wrap (b.val + 256 * fromLeBytes l) : U8) = b := by
      apply Fin.ext
      rw [wrap_val]
      omega
    have hhigh : (b.val + 256 * fromLeBytes l) / 256 = fromLeBytes l := by omega
    rw [List.length_cons, fromLeBytes, toLeBytes, hlow, hhigh, ih]

/-- Offsets are written as four little-endian bytes. -/
def offsetCode : WordCode U8 where
  width := 4
  bound := 2 ^ 32
  write := toLeBytes 4
  read := fromLeBytes
  length_write := length_toLeBytes 4
  read_write _ h := fromLeBytes_toLeBytes h
  read_lt l h := by
    have hlt := fromLeBytes_lt l
    rwa [h] at hlt
  write_read l h := by
    have hback := toLeBytes_fromLeBytes l
    rwa [h] at hback

/-! ## Panics -/

def NoPanic {α : Type} (x : Decoded α) : Prop := x ≠ .error .panic

namespace NoPanic

variable {α β : Type}

theorem ok (a : α) : NoPanic (.ok a) := fun h => by cases h

theorem error (e : DeserializeError) : NoPanic (.error (.error e) : Decoded α) := fun h => by cases h

theorem bind {x : Decoded α} {f : α → Decoded β} (hx : NoPanic x)
    (hf : ∀ a, x = .ok a → NoPanic (f a)) : NoPanic (x >>= f) := by
  cases x with
  | ok a => exact hf a rfl
  | error e =>
    intro h
    exact hx (congrArg _ (Except.error.inj h))

theorem ensure (p : Prop) [Decidable p] (e : DeserializeError) :
    NoPanic (Lib.ensure p (.error e) : Decoded Unit) := by
  unfold Lib.ensure
  split
  · exact ok _
  · exact error e

theorem okOr (o : Option α) (e : DeserializeError) : NoPanic (Lib.okOr o (.error e)) := by
  cases o with
  | none => exact error e
  | some a => exact ok a

theorem mapM {f : α → Decoded β} {l : List α} (h : ∀ a ∈ l, NoPanic (f a)) :
    NoPanic (l.mapM f) := by
  induction l with
  | nil => exact ok _
  | cons a l ih =>
    rw [List.mapM_cons]
    exact (h a List.mem_cons_self).bind fun b _ =>
      (ih fun x hx => h x (List.mem_cons_of_mem _ hx)).bind fun bs _ => ok _

theorem foldlM {f : β → α → Decoded β} {l : List α} {b : β} (h : ∀ b, ∀ a ∈ l, NoPanic (f b a)) :
    NoPanic (l.foldlM f b) := by
  induction l generalizing b with
  | nil => exact ok _
  | cons a l ih =>
    rw [List.foldlM_cons]
    exact (h b a List.mem_cons_self).bind fun b' _ =>
      ih fun b x hx => h b x (List.mem_cons_of_mem _ hx)

theorem attach {x : Decoded α} (h : NoPanic x) : NoPanic (Ssz.attach x) := by
  cases x with
  | ok a => exact ok _
  | error e =>
    intro h'
    exact h (congrArg _ (Except.error.inj h'))

end NoPanic

theorem attach_of {α : Type} {x : Decoded α} {a : α} (h : x = .ok a) : attach x = .ok ⟨a, h⟩ := by
  subst h
  rfl

theorem attach_bind_eq_ok {α β : Type} {x : Decoded α} {f : { a : α // x = .ok a } → Decoded β}
    {b : β} : (attach x >>= f) = .ok b ↔ ∃ a, ∃ h : x = .ok a, f ⟨a, h⟩ = .ok b := by
  rw [bind_eq_ok]
  constructor
  · rintro ⟨⟨a, ha⟩, -, h⟩
    exact ⟨a, ha, h⟩
  · rintro ⟨a, ha, h⟩
    exact ⟨⟨a, ha⟩, attach_of ha, h⟩

/-! ## Formats -/

/-- The byte string a value stands for, and whether its offsets fit 32 bits. -/
structure Format (α : Type) where
  encode : α → Encoding
  fits : α → Bool

/-- The offsets of a record fit 32 bits, and its length is a `usize`. -/
def recordFits (parts : List (Piece U8)) : Bool :=
  fits offsetCode (2 ^ 64) (headLength offsetCode (parts.map Piece.shape)) parts

/-- The codec implements the format. Inputs that no memory holds are left out: the bit length of
such an input would not be a `usize`. -/
structure Codec.Meets {α : Type} (c : Codec α) (f : Format α) : Prop where
  serialize_eq : ∀ v buffer, c.serialize v buffer =
    if f.fits v then .ok (buffer ++ f.encode v, (f.encode v).length) else .error .offsetOverflow
  deserialize_encode : ∀ v, f.fits v = true → c.deserialize (f.encode v) = .ok v
  of_deserialize : ∀ encoding v, encoding.length < 2 ^ 61 → c.deserialize encoding = .ok v →
    f.fits v = true ∧ f.encode v = encoding
  no_panic : ∀ encoding, encoding.length < 2 ^ 61 → NoPanic (c.deserialize encoding)
  length_encode : c.isVariableSize = false → ∀ v, (f.encode v).length = c.sizeHint

/-! ## Basic values -/

def uintFormat (n : Nat) : Format (Word (8 * n)) where
  encode v := toLeBytes n v.val
  fits _ := true

def boolFormat : Format Bool where
  encode v := [if v then 1 else 0]
  fits _ := true

def byteArrayFormat (n : Nat) : Format (Bytes n) where
  encode v := v.toList
  fits _ := true

theorem deserializeFixedBytes_eq_ok {n : Nat} {encoding bytes : Encoding} :
    deserializeFixedBytes n encoding = .ok bytes ↔ encoding.length = n ∧ bytes = encoding := by
  unfold deserializeFixedBytes
  simp only [bind_eq_ok, ensure_eq_ok, pure_eq_ok]
  constructor
  · rintro ⟨_, hlo, _, hhi, h⟩
    exact ⟨Nat.le_antisymm hhi hlo, (Except.ok.inj h).symm⟩
  · rintro ⟨rfl, rfl⟩
    exact ⟨(), le_rfl, (), le_rfl, rfl⟩

theorem uintCodec_deserialize_eq_ok {n : Nat} {encoding : Encoding} {v : Word (8 * n)} :
    (uintCodec n).deserialize encoding = .ok v ↔ toLeBytes n v.val = encoding := by
  show (deserializeFixedBytes n encoding >>= fun bytes => pure _) = _ ↔ _
  simp only [bind_eq_ok, deserializeFixedBytes_eq_ok, pure_eq_ok]
  constructor
  · rintro ⟨bytes, ⟨hlen, rfl⟩, h⟩
    have hlt := fromLeBytes_lt bytes
    rw [hlen] at hlt
    rw [← Except.ok.inj h, wrap_val_of_lt hlt, ← hlen]
    exact toLeBytes_fromLeBytes bytes
  · rintro rfl
    refine ⟨_, ⟨length_toLeBytes _ _, rfl⟩, ?_⟩
    rw [fromLeBytes_toLeBytes v.isLt]
    exact congrArg _ (Fin.ext (wrap_val_of_lt v.isLt))

theorem uintCodec_meets (n : Nat) : (uintCodec n).Meets (uintFormat n) where
  serialize_eq v buffer := by
    show Except.ok (buffer ++ toLeBytes n v.val, n) =
      Except.ok (buffer ++ toLeBytes n v.val, (toLeBytes n v.val).length)
    rw [length_toLeBytes]
  deserialize_encode v _ := uintCodec_deserialize_eq_ok.2 rfl
  of_deserialize encoding v _ h := ⟨rfl, uintCodec_deserialize_eq_ok.1 h⟩
  no_panic encoding _ := NoPanic.bind
    ((NoPanic.ensure _ _).bind fun _ _ => (NoPanic.ensure _ _).bind fun _ _ => .ok _)
    fun _ _ => .ok _
  length_encode _ v := length_toLeBytes n v.val

theorem boolCodec_deserialize_eq_ok {encoding : Encoding} {v : Bool} :
    boolCodec.deserialize encoding = .ok v ↔ [if v then 1 else 0] = encoding := by
  show ((uintCodec 1).deserialize encoding >>= fun byte => _) = _ ↔ _
  simp only [bind_eq_ok, uintCodec_deserialize_eq_ok]
  constructor
  · rintro ⟨byte, rfl, h⟩
    by_cases h0 : byte = 0
    · rw [if_pos h0] at h
      rw [← Except.ok.inj h, h0]
      rfl
    · by_cases h1 : byte = 1
      · rw [if_neg h0, if_pos h1] at h
        rw [← Except.ok.inj h, h1]
        rfl
      · rw [if_neg h0, if_neg h1] at h
        cases h
  · rintro rfl
    cases v with
    | false => exact ⟨0, rfl, rfl⟩
    | true => exact ⟨1, rfl, rfl⟩

theorem boolCodec_meets : boolCodec.Meets boolFormat where
  serialize_eq v buffer := rfl
  deserialize_encode v _ := boolCodec_deserialize_eq_ok.2 rfl
  of_deserialize encoding v _ h := ⟨rfl, boolCodec_deserialize_eq_ok.1 h⟩
  no_panic encoding h := by
    refine NoPanic.bind ((uintCodec_meets 1).no_panic encoding h) fun byte _ => ?_
    split
    · exact .ok _
    · split
      · exact .ok _
      · exact .error _
  length_encode _ v := rfl

theorem byteArrayCodec_deserialize_eq {n : Nat} {encoding : Encoding} (h : encoding.length = n) :
    (byteArrayCodec n).deserialize encoding = .ok ⟨encoding.toArray, h⟩ := by
  show (ensure _ _ >>= fun _ => ensure _ _ >>= fun _ => _) = _
  rw [ensure_of h.ge, ensure_of h.le]
  exact dif_pos h

theorem byteArrayCodec_meets (n : Nat) : (byteArrayCodec n).Meets (byteArrayFormat n) where
  serialize_eq v buffer := by
    show Except.ok (buffer ++ v.toList, n) = Except.ok (buffer ++ v.toList, v.toList.length)
    rw [Vector.length_toList]
  deserialize_encode v _ := byteArrayCodec_deserialize_eq (Vector.length_toList)
  of_deserialize encoding v _ h := by
    have hlen : encoding.length = n := by
      simp only [byteArrayCodec, bind_eq_ok, ensure_eq_ok] at h
      obtain ⟨_, hlo, _, hhi, -⟩ := h
      exact Nat.le_antisymm hhi hlo
    rw [byteArrayCodec_deserialize_eq hlen] at h
    exact ⟨rfl, by rw [← Except.ok.inj h]; rfl⟩
  no_panic encoding _ := by
    refine NoPanic.bind (.ensure _ _) fun _ hlo => NoPanic.bind (.ensure _ _) fun _ hhi => ?_
    rw [dif_pos (Nat.le_antisymm (ensure_eq_ok.1 hhi) (ensure_eq_ok.1 hlo))]
    exact .ok _
  length_encode _ v := Vector.length_toList

end Moonglass.Ssz
