import Moonglass.Ssz.Format

/-
  Bitvectors and bitlists. Both are the packed bits; a bitlist has its delimiter as one more bit.
  The codecs are compared with this bit by bit.
-/

namespace Moonglass.Ssz

open Lib

/-! ## Packed bits -/

section Pack

variable {bits : List Bool} {bytes : Encoding} {i : Nat}

theorem length_packBits (bits : List Bool) :
    (packBits bits).length = bitfieldByteLen bits.length := by
  unfold packBits
  rw [length_setBits, List.length_replicate]

theorem bits_le (n : Nat) : n ≤ 8 * bitfieldByteLen n := by
  unfold bitfieldByteLen
  omega

theorem bitOf_packBits (bits : List Bool) (i : Nat) :
    bitOf (packBits bits) i = bits.getD i false := by
  have hzero : bitOf (List.replicate (bitfieldByteLen bits.length) (0 : U8)) i = false := by
    unfold bitOf
    rw [List.getD_eq_getElem?_getD, List.getElem?_replicate]
    split <;> exact Nat.zero_testBit _
  have hroom : 0 + bits.length ≤
      8 * (List.replicate (bitfieldByteLen bits.length) (0 : U8)).length := by
    rw [List.length_replicate, Nat.zero_add]
    exact bits_le _
  unfold packBits
  rw [bitOf_setBits (by decide) bits hroom, hzero]
  simp

/-- A byte string of the right length is the packing of its bits when the rest are clear. -/
theorem packBits_eq (hlen : bytes.length = bitfieldByteLen bits.length)
    (h : ∀ i, bitOf bytes i = bits.getD i false) : packBits bits = bytes :=
  ext_bitOf (by decide) ((length_packBits bits).trans hlen.symm) fun i _ =>
    (bitOf_packBits bits i).trans (h i).symm

theorem and_ne_zero (x k : Nat) : decide (x &&& 1 <<< k ≠ 0) = x.testBit k := by
  rw [Nat.one_shiftLeft, Nat.and_two_pow]
  cases x.testBit k with
  | false => simp
  | true => simp

theorem bitAt_eq (hi : i < 8 * bytes.length) : bitAt bytes i = .ok (bitOf bytes i) := by
  have hplace : i / 8 < bytes.length := (Nat.div_lt_iff_lt_mul (by decide)).2 (by omega)
  unfold bitAt index bitOf
  rw [List.getElem?_eq_getElem hplace, List.getD_eq_getElem _ _ hplace]
  exact congrArg Except.ok (and_ne_zero _ _)

theorem mapM_bitAt {n : Nat} (hn : n ≤ 8 * bytes.length) :
    (List.range n).mapM (bitAt bytes) = .ok ((List.range n).map (bitOf bytes)) :=
  mapM_eq_map fun _ hi => bitAt_eq ((List.mem_range.1 hi).trans_le hn)

/-- The first bits of a packing are those packed. -/
theorem map_bitOf_packBits (bits rest : List Bool) :
    (List.range bits.length).map (bitOf (packBits (bits ++ rest))) = bits := by
  refine List.ext_getElem (by simp) fun i _ hi => ?_
  rw [List.getElem_map, List.getElem_range, bitOf_packBits,
    List.getD_eq_getElem _ _ (by rw [List.length_append]; omega), List.getElem_append_left hi]

theorem getD_map_range (f : Nat → Bool) (n i : Nat) :
    ((List.range n).map f).getD i false = (decide (i < n) && f i) := by
  rw [List.getD_eq_getElem?_getD, List.getElem?_map]
  rcases Nat.lt_or_ge i n with hi | hi
  · rw [List.getElem?_range hi, decide_eq_true hi]
    rfl
  · rw [List.getElem?_eq_none (by rwa [List.length_range]), decide_eq_false (Nat.not_lt.2 hi)]
    rfl

end Pack

/-! ## Bitvectors -/

section Padding

variable {bytes : Encoding} {n : Nat}

theorem testBit_notByte {x k : Nat} (hx : x < 256) :
    (notByte x).testBit k = (decide (k < 8) && !x.testBit k) := by
  have hsub : notByte x = 2 ^ 8 - (x + 1) := by
    unfold notByte
    omega
  rw [hsub, Nat.testBit_two_pow_sub_succ hx]

/-- No bit of a masked byte: the byte is clear from place `u` on. -/
theorem and_mask_eq_zero {last : U8} {u : Nat} (hu : u < 8) :
    last.val &&& notByte (1 <<< u - 1) = 0 ↔ ∀ k, u ≤ k → last.val.testBit k = false := by
  have hmask : ∀ k, (notByte (1 <<< u - 1)).testBit k = (decide (k < 8) && !decide (k < u)) := by
    intro k
    have hpow : 2 ^ u ≤ 2 ^ 7 := Nat.pow_le_pow_right (by decide) (by omega)
    rw [Nat.one_shiftLeft, testBit_notByte (by omega), Nat.testBit_two_pow_sub_one]
  constructor
  · intro h k hk
    rcases Nat.lt_or_ge k 8 with hk8 | hk8
    · have hbit := congrArg (Nat.testBit · k) h
      simp only [Nat.testBit_and, hmask, Nat.zero_testBit, decide_eq_true hk8,
        decide_eq_false (Nat.not_lt.2 hk)] at hbit
      simpa using hbit
    · exact last.testBit_eq_false hk8
  · intro h
    refine Nat.eq_of_testBit_eq fun k => ?_
    rw [Nat.testBit_and, hmask, Nat.zero_testBit]
    rcases Nat.lt_or_ge k u with hk | hk
    · rw [decide_eq_true hk]
      simp
    · rw [h k hk, Bool.false_and]

theorem getLastD_eq (bytes : Encoding) : bytes.getLastD 0 = bytes.getD (bytes.length - 1) 0 := by
  rw [List.getD_eq_getElem?_getD, ← List.getLast?_eq_getElem?, List.getLastD_eq_getLast?]

/-- The padding check looks at the last byte, where all padding is. -/
theorem validatePaddingBits_eq_ok (hlen : bytes.length = bitfieldByteLen n) :
    validatePaddingBits bytes n = .ok () ↔ ∀ i, n ≤ i → bitOf bytes i = false := by
  unfold validatePaddingBits
  unfold bitfieldByteLen at hlen
  by_cases hfull : n = 0 ∨ n % 8 = 0
  · rw [if_pos hfull]
    refine ⟨fun _ i hi => bitOf_eq_false ?_ (by decide), fun _ => rfl⟩
    omega
  · rw [if_neg hfull, ensure_eq_ok, and_mask_eq_zero (Nat.mod_lt _ (by decide))]
    have hplace : bytes.length - 1 = n / 8 := by omega
    rw [getLastD_eq, hplace]
    constructor
    · intro h i hi
      rcases Nat.lt_or_ge i (8 * bytes.length) with hin | hout
      · have hword : i / 8 = n / 8 := by omega
        unfold bitOf
        rw [hword]
        exact h _ (by omega)
      · exact bitOf_eq_false hout (by decide)
    · intro h k hk
      rcases Nat.lt_or_ge k 8 with hk8 | hk8
      · have hbit := h (8 * (n / 8) + k) (by omega)
        unfold bitOf at hbit
        rwa [Nat.mul_add_div (by decide), Nat.div_eq_of_lt hk8, Nat.add_zero, Nat.mul_add_mod,
          Nat.mod_eq_of_lt hk8] at hbit
      · exact Word.testBit_eq_false _ hk8

end Padding

def bitvectorFormat (n : Nat) : Format (Bitvector n) where
  encode v := packBits v.toList
  fits _ := true

theorem bitvectorCodec_deserialize_eq_ok {n : Nat} {encoding : Encoding} {v : Bitvector n} :
    (bitvectorCodec n).deserialize encoding = .ok v ↔ packBits v.toList = encoding := by
  simp only [bitvectorCodec, bind_eq_ok (x := ensure _ _), ensure_eq_ok,
    bind_eq_ok (x := validatePaddingBits _ _), attach_bind_eq_ok]
  constructor
  · rintro ⟨_, hlo, _, hhi, _, hpad, bits, hbits, h⟩
    have hlen : encoding.length = bitfieldByteLen n := Nat.le_antisymm hhi hlo
    have hread := mapM_bitAt (show n ≤ 8 * encoding.length by rw [hlen]; exact bits_le n)
    rw [← Except.ok.inj h]
    show packBits bits = encoding
    rw [← Except.ok.inj (hread.symm.trans hbits)]
    refine packBits_eq (by simpa using hlen) fun i => ?_
    rw [getD_map_range]
    rcases Nat.lt_or_ge i n with hi | hi
    · rw [decide_eq_true hi, Bool.true_and]
    · rw [decide_eq_false (Nat.not_lt.2 hi), (validatePaddingBits_eq_ok hlen).1 hpad i hi]
      rfl
  · rintro rfl
    have hlen : (packBits v.toList).length = bitfieldByteLen n := by
      rw [length_packBits, Vector.length_toList]
    have hpad : ∀ i, n ≤ i → bitOf (packBits v.toList) i = false := by
      intro i hi
      rw [bitOf_packBits]
      exact List.getD_eq_default _ _ (by rwa [Vector.length_toList])
    have hread := mapM_bitAt (show n ≤ 8 * (packBits v.toList).length by
      rw [hlen]; exact bits_le n)
    have hbits : (List.range n).map (bitOf (packBits v.toList)) = v.toList := by
      simpa using map_bitOf_packBits v.toList []
    rw [hbits] at hread
    exact ⟨(), hlen.ge, (), hlen.le, (), (validatePaddingBits_eq_ok hlen).2 hpad, _, hread, rfl⟩

theorem bitvectorCodec_meets (n : Nat) : (bitvectorCodec n).Meets (bitvectorFormat n) where
  serialize_eq v buffer := rfl
  deserialize_encode v _ := bitvectorCodec_deserialize_eq_ok.2 rfl
  of_deserialize encoding v _ h := ⟨rfl, bitvectorCodec_deserialize_eq_ok.1 h⟩
  no_panic encoding _ := by
    refine NoPanic.bind (.ensure _ _) fun _ hlo => NoPanic.bind (.ensure _ _) fun _ hhi => ?_
    have hlen : encoding.length = bitfieldByteLen n :=
      Nat.le_antisymm (ensure_eq_ok.1 hhi) (ensure_eq_ok.1 hlo)
    have hread := mapM_bitAt (show n ≤ 8 * encoding.length by rw [hlen]; exact bits_le n)
    refine NoPanic.bind ?_ fun _ _ => NoPanic.bind (.attach ?_) fun _ _ => .ok _
    · unfold validatePaddingBits
      split
      · exact .ok _
      · exact .ensure _ _
    · rw [hread]
      exact .ok _
  length_encode _ v := by
    show (packBits v.toList).length = bitfieldByteLen n
    rw [length_packBits, Vector.length_toList]

/-! ## Bitlists -/

section Delimiter

variable {bits : List Bool} {encoding : Encoding} {last : U8}

theorem getD_append_true (bits : List Bool) (i : Nat) :
    (bits ++ [true]).getD i false = (decide (bits.length = i) || bits.getD i false) := by
  rcases Nat.lt_trichotomy i bits.length with hi | rfl | hi
  · rw [List.getD_append _ _ _ _ hi, decide_eq_false hi.ne', Bool.false_or]
  · rw [List.getD_append_right _ _ _ _ le_rfl, Nat.sub_self, decide_eq_true rfl]
    rfl
  · rw [List.getD_eq_default _ _ (by rw [List.length_append]; exact hi),
      List.getD_eq_default _ _ hi.le, decide_eq_false hi.ne, Bool.false_or]

theorem bitOf_append_one (bytes : Encoding) (i : Nat) :
    bitOf (bytes ++ [1]) i = (decide (8 * bytes.length = i) || bitOf bytes i) := by
  rcases Nat.lt_trichotomy (i / 8) bytes.length with hi | hi | hi
  · unfold bitOf
    rw [List.getD_append _ _ _ _ hi, decide_eq_false (by omega), Bool.false_or]
  · have hold : bitOf bytes i = false := bitOf_eq_false (by omega) (by decide)
    have hone : (1 : Nat).testBit (i % 8) = decide (8 * bytes.length = i) := by
      rw [show (1 : Nat) = 2 ^ 0 from rfl, Nat.testBit_two_pow]
      exact decide_eq_decide.2 ⟨by omega, by omega⟩
    rw [hold, Bool.or_false, ← hone]
    unfold bitOf
    rw [List.getD_append_right _ _ _ _ hi.ge, hi, Nat.sub_self]
    rfl
  · rw [bitOf_eq_false (by rw [List.length_append, List.length_singleton]; omega) (by decide),
      bitOf_eq_false (by omega) (by decide), decide_eq_false (by omega), Bool.or_false]

/-- The delimiter is one more bit. -/
theorem delimitBits_eq (bits : List Bool) : delimitBits bits = packBits (bits ++ [true]) := by
  have hlen := length_packBits bits
  have hgoal : bitfieldByteLen (bits ++ [true]).length = bits.length / 8 + 1 := by
    rw [List.length_append, List.length_singleton]
    unfold bitfieldByteLen
    omega
  unfold bitfieldByteLen at hlen
  symm
  unfold delimitBits
  dsimp only
  by_cases hfull : bits.length % 8 = 0
  · rw [if_pos hfull]
    refine packBits_eq ?_ fun i => ?_
    · rw [hgoal, List.length_append, hlen, List.length_singleton]
      omega
    · have hplace : 8 * ((bits.length + 7) / 8) = bits.length := by omega
      rw [bitOf_append_one, bitOf_packBits, getD_append_true, hlen, hplace]
  · -- The place of the delimiter is in the last byte, as if its bit were set there.
    have hset : ((packBits bits).modify ((packBits bits).length - 1) fun last =>
        Word.wrap (last.val ||| 1 <<< (bits.length % 8))) = setBit (packBits bits) bits.length := by
      unfold setBit
      rw [hlen]
      congr 1
      omega
    rw [if_neg hfull, hset]
    refine packBits_eq ?_ fun i => ?_
    · rw [hgoal, length_setBit, hlen]
      omega
    · rw [bitOf_setBit (by decide) (by rw [hlen]; omega), bitOf_packBits, getD_append_true]

theorem leadingZeros_eq (h : last ≠ 0) : 7 - leadingZeros last = Nat.log2 last.val := by
  have hne : last.val ≠ 0 := fun h' => h (Fin.ext h')
  have hlog : Nat.log2 last.val < 8 := (Nat.log2_lt hne).2 last.isLt
  unfold leadingZeros
  rw [if_neg h]
  omega

/-- The bits in front of the delimiter are not touched when it is cleared. -/
theorem bitOf_clear {d i : Nat} (hd : d < 8) (hi : i < (encoding.length - 1) * 8 + d) :
    bitOf (encoding.modify (encoding.length - 1) fun byte =>
      Word.wrap (byte.val &&& notByte (1 <<< d))) i = bitOf encoding i := by
  unfold bitOf
  rw [List.getD_eq_getElem?_getD, List.getElem?_modify, List.getD_eq_getElem?_getD]
  by_cases hlast : encoding.length - 1 = i / 8
  · simp only [if_pos hlast]
    cases hbyte : encoding[i / 8]? with
    | none => rfl
    | some byte =>
      have hpow : 2 ^ d ≤ 2 ^ 7 := Nat.pow_le_pow_right (by decide) (by omega)
      have hne : d ≠ i % 8 := by omega
      show (Word.wrap _ : U8).val.testBit (i % 8) = byte.val.testBit (i % 8)
      rw [Word.wrap_val, Nat.testBit_mod_two_pow, Nat.testBit_and,
        testBit_notByte (by rw [Nat.one_shiftLeft]; omega), Nat.one_shiftLeft,
        Nat.testBit_two_pow, decide_eq_false hne, decide_eq_true (by omega : i % 8 < 8)]
      simp
  · simp only [if_neg hlast]
    cases encoding[i / 8]? <;> rfl

/-- The last byte of a delimited bitlist: the delimiter is its highest bit. -/
theorem log2_last {d : Nat} (hset : last.val.testBit d = true)
    (hclear : ∀ k, d < k → last.val.testBit k = false) : last ≠ 0 ∧ Nat.log2 last.val = d := by
  have hge : 2 ^ d ≤ last.val := Nat.ge_two_pow_of_testBit hset
  have hpos : 0 < 2 ^ d := Nat.two_pow_pos d
  have hne : last.val ≠ 0 := by omega
  refine ⟨fun h => hne (by rw [h]; rfl), (Nat.log2_eq_iff hne).2 ⟨hge, ?_⟩⟩
  exact Nat.lt_pow_two_of_testBit _ fun k hk => hclear k hk

theorem deserializeBits_delimitBits {limit : Nat} (hbits : bits.length ≤ limit)
    (hlimit : limit < 2 ^ 64) : deserializeBits limit (delimitBits bits) = .ok bits := by
  have hlen : (delimitBits bits).length = bits.length / 8 + 1 := by
    rw [delimitBits_eq, length_packBits, List.length_append, List.length_singleton]
    unfold bitfieldByteLen
    omega
  have hbit : ∀ i, bitOf (delimitBits bits) i = (bits ++ [true]).getD i false := by
    intro i
    rw [delimitBits_eq, bitOf_packBits]
  -- The last byte ends with the delimiter.
  obtain ⟨last, hlast⟩ : ∃ last, (delimitBits bits)[bits.length / 8]? = some last :=
    ⟨_, List.getElem?_eq_getElem (by omega)⟩
  have hlastBit : ∀ k < 8, last.val.testBit k =
      (bits ++ [true]).getD (8 * (bits.length / 8) + k) false := by
    intro k hk
    have h := hbit (8 * (bits.length / 8) + k)
    unfold bitOf at h
    rwa [Nat.mul_add_div (by decide), Nat.div_eq_of_lt hk, Nat.add_zero, Nat.mul_add_mod,
      Nat.mod_eq_of_lt hk, List.getD_eq_getElem?_getD, hlast] at h
  obtain ⟨hne, hlog⟩ : last ≠ 0 ∧ Nat.log2 last.val = bits.length % 8 := by
    refine log2_last ?_ fun k hk => ?_
    · rw [hlastBit _ (Nat.mod_lt _ (by decide)), Nat.div_add_mod, getD_append_true,
        decide_eq_true rfl, Bool.true_or]
    · rcases Nat.lt_or_ge k 8 with hk8 | hk8
      · rw [hlastBit k hk8]
        exact List.getD_eq_default _ _ (by rw [List.length_append, List.length_singleton]; omega)
      · exact last.testBit_eq_false hk8
  have hlast? : (delimitBits bits).getLast? = some last := by
    rw [List.getLast?_eq_getElem?, hlen]
    exact hlast
  have hbitLen : usize (((delimitBits bits).length - 1) * 8 + (7 - leadingZeros last)) =
      bits.length := by
    rw [leadingZeros_eq hne, hlog, hlen, usize, Nat.mod_eq_of_lt (by omega)]
    omega
  unfold deserializeBits
  rw [hlast?, okOr_some, ok_bind, ensure_of hne]
  show (ensure (usize _ ≤ limit) _ >>= fun _ => (List.range (usize _)).mapM _) = _
  rw [hbitLen, ensure_of hbits, leadingZeros_eq hne, hlog]
  show (List.range bits.length).mapM _ = _
  rw [mapM_bitAt (by rw [List.length_modify, hlen]; omega)]
  refine congrArg Except.ok ((List.map_congr_left fun i hi => ?_).trans
    (map_bitOf_packBits bits [true]))
  rw [← delimitBits_eq]
  exact bitOf_clear (Nat.mod_lt _ (by decide)) (by have := List.mem_range.1 hi; omega)

theorem delimitBits_of_deserializeBits {limit : Nat} (hlen : encoding.length < 2 ^ 61)
    (h : deserializeBits limit encoding = .ok bits) : delimitBits bits = encoding := by
  unfold deserializeBits at h
  simp only [bind_eq_ok, okOr_eq_ok, ensure_eq_ok] at h
  obtain ⟨last, hlast, _, hne, _, -, h⟩ := h
  have hval : last.val ≠ 0 := fun h' => hne (Fin.ext h')
  have hlog : Nat.log2 last.val < 8 := (Nat.log2_lt hval).2 last.isLt
  have hpos : 0 < encoding.length := by
    rcases encoding with _ | ⟨b, l⟩
    · cases hlast
    · exact Nat.succ_pos _
  rw [List.getLast?_eq_getElem?] at hlast
  -- Bit `8 * (n - 1) + k` of the input is bit `k` of its last byte.
  have hlastBit : ∀ i, i / 8 = encoding.length - 1 →
      bitOf encoding i = last.val.testBit (i % 8) := by
    intro i hi
    unfold bitOf
    rw [hi, List.getD_eq_getElem?_getD, hlast]
    rfl
  rw [leadingZeros_eq hne, usize, Nat.mod_eq_of_lt (by omega),
    mapM_bitAt (by rw [List.length_modify]; omega)] at h
  have hbits : bits = (List.range ((encoding.length - 1) * 8 + Nat.log2 last.val)).map
      (bitOf encoding) := by
    rw [← Except.ok.inj h]
    exact List.map_congr_left fun i hi => bitOf_clear hlog (List.mem_range.1 hi)
  have hcount : bits.length = (encoding.length - 1) * 8 + Nat.log2 last.val := by
    rw [hbits, List.length_map, List.length_range]
  rw [delimitBits_eq]
  refine packBits_eq ?_ fun i => ?_
  · rw [List.length_append, List.length_singleton, hcount]
    unfold bitfieldByteLen
    omega
  · rw [getD_append_true, hcount, hbits, getD_map_range]
    rcases Nat.lt_trichotomy i ((encoding.length - 1) * 8 + Nat.log2 last.val) with hi | hi | hi
    · rw [decide_eq_false hi.ne', decide_eq_true hi]
      simp
    · rw [hlastBit i (by omega), show i % 8 = Nat.log2 last.val by omega, Nat.testBit_log2 hval,
        decide_eq_true hi.symm, Bool.true_or]
    · have hclear : bitOf encoding i = false := by
        rcases Nat.lt_or_ge i (8 * encoding.length) with hin | hout
        · rw [hlastBit i (by omega)]
          exact Nat.testBit_lt_two_pow (Nat.lt_log2_self.trans_le
            (Nat.pow_le_pow_right (by decide) (by omega)))
        · exact bitOf_eq_false hout (by decide)
      rw [decide_eq_false hi.ne, hclear, Bool.and_false, Bool.or_false]

end Delimiter

def bitlistFormat (n : Nat) : Format (Bitlist n) where
  encode v := packBits (v.toList ++ [true])
  fits _ := true

theorem bitlistCodec_meets {n : Nat} (hn : n < 2 ^ 64) :
    (bitlistCodec n).Meets (bitlistFormat n) where
  serialize_eq v buffer := by
    show (ensure _ _ >>= fun _ => _) = Except.ok
      (buffer ++ packBits (v.toList ++ [true]), (packBits (v.toList ++ [true])).length)
    rw [ensure_of v.length_le, ← delimitBits_eq]
    rfl
  deserialize_encode v _ := by
    have hread := deserializeBits_delimitBits v.length_le hn
    rw [delimitBits_eq] at hread
    exact attach_bind_eq_ok.2 ⟨v.toList, hread, rfl⟩
  of_deserialize encoding v hlen h := by
    obtain ⟨bits, hbits, h⟩ := attach_bind_eq_ok.1 h
    rw [← Except.ok.inj h]
    exact ⟨rfl, (delimitBits_eq bits).symm.trans (delimitBits_of_deserializeBits hlen hbits)⟩
  no_panic encoding hlen := by
    refine NoPanic.bind (.attach ?_) fun _ _ => .ok _
    refine NoPanic.bind (.okOr _ _) fun last hlast => NoPanic.bind (.ensure _ _) fun _ _ =>
      NoPanic.bind (.ensure _ _) fun _ _ => ?_
    have hpos : 0 < encoding.length := by
      rcases encoding with _ | ⟨b, l⟩
      · cases hlast
      · exact Nat.succ_pos _
    have hbits : usize ((encoding.length - 1) * 8 + (7 - leadingZeros last)) ≤
        (encoding.length - 1) * 8 + (7 - leadingZeros last) := Nat.mod_le _ _
    rw [mapM_bitAt (by rw [List.length_modify]; omega)]
    exact .ok _
  length_encode h := by cases h

end Moonglass.Ssz
