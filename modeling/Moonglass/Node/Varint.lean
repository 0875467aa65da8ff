import Mathlib.Data.Nat.Digits.Defs
import Mathlib.Data.Nat.Bitwise
import Moonglass.Primitives

/-
  The length prefix of the request-response framing: an unsigned LEB128 varint. The writer emits
  seven bits a byte with the high bit set on every byte but the last; the reader shifts the low
  seven bits of up to ten bytes into a `u64`. A tenth byte has one bit left to contribute, and the
  reader drops the other six, so it returns the number an encoding stands for modulo `2 ^ 64`.
-/

namespace Moonglass.Node

open Lib List Word

variable {n : Nat} {value v : U64} {front buffer : List U8}

inductive IoErrorKind
  | invalidData
  | unexpectedEof
  deriving DecidableEq, Repr

structure IoError where
  kind : IoErrorKind
  message : String
  deriving DecidableEq, Repr

/-! ## The source functions -/

/-- Append `value` as an unsigned LEB128 varint. -/
def writeVarint (out : List U8) (value : U64) : List U8 :=
  let byte : U8 := Word.wrap (value.val &&& 0x7f)
  let rest : U64 := Word.wrap (value.val >>> 7)
  if rest.val ≠ 0 then writeVarint (out ++ [Word.wrap (byte.val ||| 0x80)]) rest
  else out ++ [byte]
termination_by value.val
decreasing_by
  have hshift : value.val >>> 7 = value.val / 128 := Nat.shiftRight_eq_div_pow value.val 7
  simp only [rest, wrap_val, hshift] at *
  omega

/-- The loop of `read_varint` over the remaining bytes, at position `index`. -/
def readVarintLoop : List U8 → U64 → Nat → Nat → Except IoError (U64 × Nat)
  | [], _, _, _ => .error ⟨.unexpectedEof, "varint is incomplete"⟩
  | byte :: rest, value, shift, index =>
    if 64 ≤ shift then .error ⟨.invalidData, "varint too long"⟩
    else
      let low : U64 := Word.wrap ((byte.val &&& 0x7f) <<< shift)
      let value : U64 := Word.wrap (value.val ||| low.val)
      if byte.val &&& 0x80 = 0 then .ok (value, index + 1)
      else readVarintLoop rest value (shift + 7) (index + 1)

/-- Read an unsigned LEB128 varint, returning the value and bytes consumed. -/
def readVarint (buffer : List U8) : Except IoError (U64 × Nat) := readVarintLoop buffer 0 0 0

/-! ## LEB128 strings -/

/-- Every byte but the last has the continuation bit. -/
def IsLeb128 (bytes : List U8) : Prop :=
  ∃ init last, bytes = init ++ [last] ∧ (∀ b ∈ init, 128 ≤ b.val) ∧ last.val < 128

/-- The number a LEB128 string stands for: its low seven-bit groups, least significant first. -/
def leb128Value (bytes : List U8) : Nat := Nat.ofDigits 128 (bytes.map fun b => b.val % 128)

theorem not_isLeb128_nil : ¬ IsLeb128 [] := by
  rintro ⟨init, last, heq, -⟩
  simp at heq

/-- A LEB128 string is one byte without the continuation bit, or a byte with it in front of a
    LEB128 string. -/
theorem isLeb128_cons {b : U8} {bytes : List U8} :
    IsLeb128 (b :: bytes) ↔ b.val < 128 ∧ bytes = [] ∨ 128 ≤ b.val ∧ IsLeb128 bytes := by
  constructor
  · rintro ⟨_ | ⟨c, init⟩, last, heq, hinit, hlast⟩
    · obtain ⟨rfl, rfl⟩ := List.cons.inj heq
      exact .inl ⟨hlast, rfl⟩
    · obtain ⟨rfl, rfl⟩ := List.cons.inj heq
      obtain ⟨hb, hinit⟩ := forall_mem_cons.1 hinit
      exact .inr ⟨hb, init, last, rfl, hinit, hlast⟩
  · rintro (⟨hb, rfl⟩ | ⟨hb, init, last, rfl, hinit, hlast⟩)
    · exact ⟨[], b, rfl, by simp, hb⟩
    · exact ⟨b :: init, last, rfl, forall_mem_cons.2 ⟨hb, hinit⟩, hlast⟩

/-- The LEB128 strings at the front of a buffer, by its first byte. -/
theorem exists_leb128_cons {P : List U8 → Prop} (b : U8) (rest : List U8) :
    (∃ bytes, bytes <+: b :: rest ∧ IsLeb128 bytes ∧ P bytes) ↔
      b.val < 128 ∧ P [b] ∨
      128 ≤ b.val ∧ ∃ bytes, bytes <+: rest ∧ IsLeb128 bytes ∧ P (b :: bytes) := by
  constructor
  · rintro ⟨bytes, hfront, hleb, hP⟩
    rcases prefix_cons_iff.1 hfront with rfl | ⟨bytes, rfl, hrest⟩
    · exact absurd hleb not_isLeb128_nil
    · rcases isLeb128_cons.1 hleb with ⟨hb, rfl⟩ | ⟨hb, hleb⟩
      · exact .inl ⟨hb, hP⟩
      · exact .inr ⟨hb, bytes, hrest, hleb, hP⟩
  · rintro (⟨hb, hP⟩ | ⟨hb, bytes, hfront, hleb, hP⟩)
    · exact ⟨[b], ⟨rest, rfl⟩, isLeb128_cons.2 (.inl ⟨hb, rfl⟩), hP⟩
    · exact ⟨b :: bytes, prefix_cons_iff.2 (.inr ⟨bytes, rfl, hfront⟩),
        isLeb128_cons.2 (.inr ⟨hb, hleb⟩), hP⟩

@[simp] theorem leb128Value_nil : leb128Value [] = 0 := rfl

theorem leb128Value_cons (b : U8) (bytes : List U8) :
    leb128Value (b :: bytes) = b.val % 128 + 128 * leb128Value bytes :=
  Nat.ofDigits_cons

theorem leb128Value_append (front back : List U8) :
    leb128Value (front ++ back) = leb128Value front + 128 ^ front.length * leb128Value back := by
  simp [leb128Value, Nat.ofDigits_append]

theorem leb128Value_lt (bytes : List U8) : leb128Value bytes < 128 ^ bytes.length := by
  have h : ∀ d ∈ bytes.map fun b : U8 => b.val % 128, d < 128 := by
    simp only [mem_map]
    rintro _ ⟨b, -, rfl⟩
    exact Nat.mod_lt _ (by decide)
  simpa [leb128Value] using Nat.ofDigits_lt_base_pow_length (by decide : 1 < 128) h

/-! ## The writer -/

theorem low_bits (n : Nat) : n &&& 0x7f = n % 128 := Nat.and_two_pow_sub_one_eq_mod n 7

theorem shift_right (n : Nat) : n >>> 7 = n / 128 := Nat.shiftRight_eq_div_pow n 7

/-- Setting the high bit of seven bits adds 128. -/
theorem set_high_bit (h : n < 128) : n ||| 0x80 = n + 128 := by
  rw [Nat.or_comm, ← Nat.two_pow_add_eq_or_of_lt (i := 7) h 1]
  omega

/-- The high bit of a byte is clear exactly below 128. -/
theorem high_bit_eq_zero (b : U8) : b.val &&& 0x80 = 0 ↔ b.val < 128 := by
  revert b
  decide +kernel

/-- One unfolding of the writer, on numbers. -/
theorem writeVarint_eq (out : List U8) (value : U64) :
    writeVarint out value =
      if 128 ≤ value.val then
        writeVarint (out ++ [Word.wrap (value.val % 128 + 128)]) (value.div 128)
      else out ++ [Word.wrap (value.val % 128)] := by
  have hlow : (Word.wrap (value.val &&& 0x7f) : U8) = Word.wrap (value.val % 128) := by
    rw [low_bits]
  have hbyte : (Word.wrap (value.val % 128) : U8).val = value.val % 128 :=
    wrap_val_of_lt (by omega)
  have hrest : (Word.wrap (value.val >>> 7) : U64) = value.div 128 := by
    rw [shift_right]
    exact Fin.ext (wrap_val_of_lt (by omega))
  rw [writeVarint, hlow, hbyte, hrest, set_high_bit (by omega), div_val]
  by_cases h : 128 ≤ value.val
  · rw [if_pos h, if_pos (by omega)]
  · rw [if_neg h, if_neg (by omega)]

/-- Below 128 the writer appends the one byte that is the value. -/
theorem writeVarint_last (h : value.val < 128) (out : List U8) :
    ∃ bytes, writeVarint out value = out ++ bytes ∧ IsLeb128 bytes ∧
      leb128Value bytes = value.val ∧ bytes.length = 1 := by
  have hbyte : (Word.wrap (value.val % 128) : U8).val = value.val := by
    rw [wrap_val_of_lt (by omega)]
    omega
  refine ⟨[Word.wrap (value.val % 128)], ?_, isLeb128_cons.2 (.inl ⟨by omega, rfl⟩), ?_, rfl⟩
  · rw [writeVarint_eq, if_neg (by omega)]
  · rw [leb128Value_cons, leb128Value_nil, hbyte]
    omega

/-- What the writer appends is a LEB128 string of the value, in no more bytes than hold it. -/
theorem writeVarint_spec (k : Nat) (out : List U8) (value : U64) (hk : value.val < 128 ^ (k + 1)) :
    ∃ bytes, writeVarint out value = out ++ bytes ∧ IsLeb128 bytes ∧
      leb128Value bytes = value.val ∧ bytes.length ≤ k + 1 := by
  induction k generalizing out value with
  | zero =>
    obtain ⟨bytes, heq, hleb, hvalue, hlength⟩ := writeVarint_last (by omega) out
    exact ⟨bytes, heq, hleb, hvalue, hlength.le⟩
  | succ k ih =>
    by_cases hlarge : 128 ≤ value.val
    · have hdiv : (value.div 128).val < 128 ^ (k + 1) := by
        rw [div_val, Nat.div_lt_iff_lt_mul (by decide), ← Nat.pow_succ]
        exact hk
      have hbyte : (Word.wrap (value.val % 128 + 128) : U8).val = value.val % 128 + 128 :=
        wrap_val_of_lt (by omega)
      obtain ⟨bytes, heq, hleb, hvalue, hlength⟩ :=
        ih (out ++ [Word.wrap (value.val % 128 + 128)]) (value.div 128) hdiv
      refine ⟨Word.wrap (value.val % 128 + 128) :: bytes, ?_,
        isLeb128_cons.2 (.inr ⟨by omega, hleb⟩), ?_, Nat.succ_le_succ hlength⟩
      · rw [writeVarint_eq, if_pos hlarge, heq, append_assoc, singleton_append]
      · rw [leb128Value_cons, hvalue, hbyte, div_val]
        omega
    · obtain ⟨bytes, heq, hleb, hvalue, hlength⟩ := writeVarint_last (not_le.1 hlarge) out
      exact ⟨bytes, heq, hleb, hvalue, by omega⟩

/-! ## The reader -/

/-- One iteration adds the seven bits at their place; what the word cannot hold is dropped. -/
theorem or_shift_mod {v d shift : Nat} (hv : v < 2 ^ shift) :
    (Word.wrap ((v % 2 ^ 64) ||| (d <<< shift) % 2 ^ 64) : U64).val =
      (v + 2 ^ shift * d) % 2 ^ 64 := by
  rw [← Nat.or_mod_two_pow, wrap_val, Nat.mod_mod, Nat.or_comm,
    ← Nat.shiftLeft_add_eq_or_of_lt hv, Nat.shiftLeft_eq, Nat.add_comm, Nat.mul_comm]

/-- The value with one more byte, as the loop accumulates it. -/
theorem accumulate_byte (byte : U8) (hvalue : value.val = leb128Value front % 2 ^ 64) :
    (Word.wrap (value.val ||| (Word.wrap ((byte.val &&& 0x7f) <<< (7 * front.length)) : U64).val) :
      U64).val = leb128Value (front ++ [byte]) % 2 ^ 64 := by
  have hpow : 128 ^ front.length = 2 ^ (7 * front.length) := (Nat.pow_mul 2 7 front.length).symm
  have hlt : leb128Value front < 2 ^ (7 * front.length) := hpow ▸ leb128Value_lt front
  rw [hvalue, wrap_val ((byte.val &&& 0x7f) <<< (7 * front.length)), or_shift_mod hlt,
    leb128Value_append, leb128Value_cons, leb128Value_nil, hpow, low_bits, Nat.mul_zero,
    Nat.add_zero]

/-- The reader returns `n` bytes exactly when they end at the first byte without a continuation
    bit, within ten bytes, and the number is then the value of these bytes modulo `2 ^ 64`. -/
theorem readVarintLoop_eq_ok (hvalue : value.val = leb128Value front % 2 ^ 64) :
    readVarintLoop buffer value (7 * front.length) front.length = .ok (v, n) ↔
      ∃ bytes, bytes <+: buffer ∧ IsLeb128 bytes ∧ n = front.length + bytes.length ∧
        n ≤ 10 ∧ v.val = leb128Value (front ++ bytes) % 2 ^ 64 := by
  induction buffer generalizing front value with
  | nil =>
    refine ⟨fun h => by simp [readVarintLoop] at h, ?_⟩
    rintro ⟨bytes, hbytes, hleb, -⟩
    rw [prefix_nil.1 hbytes] at hleb
    exact absurd hleb not_isLeb128_nil
  | cons byte rest ih =>
    have hnext := accumulate_byte byte hvalue
    rw [readVarintLoop, exists_leb128_cons]
    by_cases hlong : 64 ≤ 7 * front.length
    · rw [if_pos hlong]
      refine ⟨fun h => by simp at h, ?_⟩
      rintro (⟨-, hn, hten, -⟩ | ⟨-, bytes, -, -, hn, hten, -⟩)
      all_goals simp only [length_cons] at hn; omega
    rw [if_neg hlong]
    by_cases hlast : byte.val < 128
    · rw [if_pos ((high_bit_eq_zero byte).2 hlast)]
      simp only [hlast, not_le.2 hlast, true_and, false_and, or_false, ← hnext, Except.ok.injEq,
        Prod.mk.injEq, length_singleton, ← Fin.ext_iff]
      constructor
      · rintro ⟨rfl, rfl⟩
        exact ⟨rfl, by omega, rfl⟩
      · rintro ⟨rfl, -, rfl⟩
        exact ⟨rfl, rfl⟩
    · rw [if_neg (mt (high_bit_eq_zero byte).1 hlast)]
      have hlength : (front ++ [byte]).length = front.length + 1 := by simp
      have hloop := ih hnext
      rw [hlength, Nat.mul_succ] at hloop
      simp only [hlast, not_lt.1 hlast, true_and, false_and, false_or, length_cons]
      rw [hloop]
      simp only [append_assoc, singleton_append, Nat.add_assoc, Nat.add_comm 1]

theorem readVarint_eq_ok :
    readVarint buffer = .ok (v, n) ↔
      ∃ bytes, bytes <+: buffer ∧ IsLeb128 bytes ∧ n = bytes.length ∧ n ≤ 10 ∧
        v.val = leb128Value bytes % 2 ^ 64 := by
  have h : readVarintLoop buffer 0 (7 * ([] : List U8).length) ([] : List U8).length =
      .ok (v, n) ↔ _ := readVarintLoop_eq_ok rfl
  simpa [readVarint] using h

/-- What the writer appends is read back, with what follows it left over. -/
theorem readVarint_writeVarint (v : U64) (suffix : List U8) :
    readVarint (writeVarint [] v ++ suffix) = .ok (v, (writeVarint [] v).length) := by
  obtain ⟨bytes, heq, hleb, hvalue, hlength⟩ := writeVarint_spec 9 [] v (by omega)
  rw [heq, nil_append, readVarint_eq_ok]
  refine ⟨bytes, prefix_append bytes suffix, hleb, rfl, hlength, ?_⟩
  rw [hvalue, Nat.mod_eq_of_lt v.isLt]

/-! ## Ten-byte encodings -/

/-- Nine continuation bytes and a tenth byte that ends the string with more than the one bit that
    is left of a `u64`. -/
def ExceedsWord (buffer : List U8) : Prop :=
  ∃ last, buffer[9]? = some last ∧ 2 ≤ last.val ∧ last.val < 128 ∧
    ∀ b ∈ buffer.take 9, 128 ≤ b.val

/-- A ten-byte string stands for a `u64` exactly when its last byte is at most one. -/
theorem leb128Value_ten {init : List U8} {last : U8} (hten : init.length = 9)
    (hlast : last.val < 128) : leb128Value (init ++ [last]) < 2 ^ 64 ↔ last.val < 2 := by
  have hinit := leb128Value_lt init
  rw [leb128Value_append, leb128Value_cons, leb128Value_nil, hten]
  rw [hten] at hinit
  omega

/-- The buffer of a ten-byte string, split at its last byte. -/
theorem take_ten {last : U8} (h : buffer[9]? = some last) :
    buffer.take 10 = buffer.take 9 ++ [last] ∧ (buffer.take 9).length = 9 := by
  obtain ⟨hlt, rfl⟩ := List.getElem?_eq_some_iff.1 h
  exact ⟨take_succ_eq_append_getElem hlt, length_take_of_le (by omega)⟩

/-- A string of more than a word is read, but as another number. -/
theorem readVarint_of_exceedsWord (h : ExceedsWord buffer) :
    IsLeb128 (buffer.take 10) ∧ 2 ^ 64 ≤ leb128Value (buffer.take 10) ∧
      readVarint buffer = .ok (Word.wrap (leb128Value (buffer.take 10)), 10) := by
  obtain ⟨last, hget, htwo, hlast, hcont⟩ := h
  obtain ⟨htake, hlength⟩ := take_ten hget
  have hleb : IsLeb128 (buffer.take 10) := ⟨buffer.take 9, last, htake, hcont, hlast⟩
  refine ⟨hleb, ?_, readVarint_eq_ok.2 ⟨buffer.take 10, take_prefix 10 buffer, hleb, ?_,
    le_rfl, rfl⟩⟩
  · rw [htake]
    by_contra hlt
    have := (leb128Value_ten hlength hlast).1 (not_le.1 hlt)
    omega
  · rw [htake, length_append, hlength]
    rfl

/-- The writer's output is read back in front of every suffix. The number read from a buffer is
    the value of the LEB128 string it was read from, except that a ten-byte string whose last byte
    is above one is accepted for its value modulo `2 ^ 64`. -/
theorem readVarint_exact_iff (v : U64) (suffix buffer : List U8) :
    readVarint (writeVarint [] v ++ suffix) = .ok (v, (writeVarint [] v).length) ∧
    ((∀ v n, readVarint buffer = .ok (v, n) →
        IsLeb128 (buffer.take n) ∧ leb128Value (buffer.take n) = v.val) ↔
      ¬ ExceedsWord buffer) := by
  refine ⟨readVarint_writeVarint v suffix, fun hexact hexceeds => ?_, ?_⟩
  · obtain ⟨-, hlarge, hread⟩ := readVarint_of_exceedsWord hexceeds
    obtain ⟨-, hvalue⟩ := hexact _ _ hread
    have := (Word.wrap (leb128Value (buffer.take 10)) : U64).isLt
    omega
  · intro hword v n hread
    obtain ⟨bytes, hfront, hleb, rfl, hten, hv⟩ := readVarint_eq_ok.1 hread
    have htake : buffer.take bytes.length = bytes := (prefix_iff_eq_take.1 hfront).symm
    rw [htake]
    refine ⟨hleb, ?_⟩
    rw [hv, Nat.mod_eq_of_lt]
    -- up to nine bytes hold at most 63 bits; ten bytes are the case of the condition
    rcases Nat.lt_or_eq_of_le hten with hshort | hlong
    · calc leb128Value bytes < 128 ^ bytes.length := leb128Value_lt bytes
        _ ≤ 128 ^ 9 := Nat.pow_le_pow_right (by decide) (by omega)
        _ < 2 ^ 64 := by decide
    · obtain ⟨init, last, rfl, hcont, hlast⟩ := hleb
      have hinit : init.length = 9 := by simpa using hlong
      obtain ⟨rest, rfl⟩ := hfront
      refine (leb128Value_ten hinit hlast).2 ?_
      by_contra htwo
      refine hword ⟨last, ?_, not_lt.1 htwo, hlast, ?_⟩
      · simp [← hinit]
      · simpa [← hinit] using hcont

/-- Nine bytes `0x80` and a byte `0x02` stand for `2 ^ 64` and are read as zero. -/
theorem readVarint_two_pow_64 :
    readVarint (List.replicate 9 128 ++ [2]) = .ok (0, 10) ∧
      leb128Value (List.take 10 (List.replicate 9 128 ++ [2])) = 2 ^ 64 ∧
      leb128Value (List.take 10 (List.replicate 9 128 ++ [2])) ≠ (0 : U64).val := by
  decide

/-- The largest `u64` is read back, and its ten-byte string is exact. -/
theorem readVarint_exact_max :
    readVarint (writeVarint [] Word.max ++ [7]) =
      .ok (Word.max, (writeVarint [] Word.max).length) ∧
    readVarint (List.replicate 9 255 ++ [1]) = .ok (Word.max, 10) ∧
    leb128Value (List.take 10 (List.replicate 9 255 ++ [1])) = (Word.max : U64).val := by
  have hread : readVarint (List.replicate 9 255 ++ [1]) = .ok (Word.max, 10) := by decide
  have hword : ¬ ExceedsWord (List.replicate 9 255 ++ [1]) := by
    rintro ⟨last, hget, htwo, -⟩
    obtain rfl : 1 = last := Option.some.inj hget
    exact absurd htwo (by decide)
  obtain ⟨hwritten, hexact⟩ := readVarint_exact_iff Word.max [7] (List.replicate 9 255 ++ [1])
  exact ⟨hwritten, hread, (hexact.2 hword _ _ hread).2⟩

end Moonglass.Node
