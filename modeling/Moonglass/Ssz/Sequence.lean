import Moonglass.Ssz.Format

/-
  Sequences. The items of a list or vector are the parts of a record: their bodies stand side by
  side when the items have a fixed size, and behind an offset table otherwise. Both decoders cut
  the input into parts of one shape and decode each.
-/

namespace Moonglass.Ssz

open Lib

variable {α : Type} {c : Codec α} {f : Format α}
variable {offset inputLen count : Nat} {bounds : List Nat} {parts : List (Piece U8)}

/-- The items of a sequence as the parts of a record. -/
def items (isVariable : Bool) (f : Format α) (vs : List α) : List (Piece U8) :=
  vs.map fun v => ⟨isVariable, f.encode v⟩

def sequenceFormat (isVariable : Bool) (f : Format α) : Format (List α) where
  encode vs := layout offsetCode (items isVariable f vs)
  fits vs := vs.all f.fits && recordFits (items isVariable f vs)

theorem items_cons (isVariable : Bool) (v : α) (vs : List α) :
    items isVariable f (v :: vs) = ⟨isVariable, f.encode v⟩ :: items isVariable f vs := rfl

/-! ## Writing -/

theorem writeOffset_of (h : offset < 2 ^ 32) (buffer : Encoding) :
    writeOffset offset buffer = .ok (buffer ++ offsetCode.write offset) := by
  unfold writeOffset
  rw [ensure_of h]
  rfl

theorem writeOffset_of_not (h : ¬offset < 2 ^ 32) (buffer : Encoding) :
    writeOffset offset buffer = .error .offsetOverflow := by
  unfold writeOffset
  rw [ensure_of_not h]
  rfl

/-- Writing one part of variable size: its offset into the head, its body behind the others. -/
theorem serialize_variable {γ : Type} (hc : c.Meets f) (v : α) (fixed rest : Encoding)
    (offset : Nat) (next : Encoding → Encoding → Nat → Except SerializeError γ) :
    (do
      let fixed ← writeOffset offset fixed
      let (rest, written) ← c.serialize v rest
      ensure (offset + written < 2 ^ 64) .offsetOverflow
      next fixed rest written) =
    if f.fits v && (decide (offset < 2 ^ 32) && decide (offset + (f.encode v).length < 2 ^ 64)) then
      next (fixed ++ offsetCode.write offset) (rest ++ f.encode v) (f.encode v).length
    else .error .offsetOverflow := by
  by_cases hoffset : offset < 2 ^ 32
  · rw [writeOffset_of hoffset, ok_bind, hc.serialize_eq, decide_eq_true hoffset, Bool.true_and]
    cases f.fits v with
    | false => rfl
    | true =>
      rw [if_pos rfl, ok_bind, Bool.true_and]
      dsimp only
      by_cases hend : offset + (f.encode v).length < 2 ^ 64
      · rw [ensure_of hend, decide_eq_true hend]
        rfl
      · rw [ensure_of_not hend, decide_eq_false hend]
        rfl
  · rw [writeOffset_of_not hoffset, decide_eq_false hoffset, Bool.false_and, Bool.and_false]
    rfl

/-- The conditions on one part of variable size and those on the parts behind it. -/
theorem and_fits_variable (a b : Bool) (offset : Nat) (body : Encoding) (ps : List (Piece U8)) :
    (a && b && fits offsetCode (2 ^ 64) offset (⟨true, body⟩ :: ps)) =
      ((a && (decide (offset < 2 ^ 32) && decide (offset + body.length < 2 ^ 64))) &&
        (b && fits offsetCode (2 ^ 64) (offset + body.length) ps)) := by
  show (a && b && (decide (offset < 2 ^ 32) && _ && _)) = _
  ac_rfl

/-- The loop over items of variable size writes the head and the bodies of the record. -/
theorem serialize_variable_loop (hc : c.Meets f) (vs : List α) :
    ∀ (fixed rest : Encoding) (offset : Nat),
      vs.foldlM (fun (fixed, rest, offset) value => do
        let fixed ← writeOffset offset fixed
        let (rest, written) ← c.serialize value rest
        ensure (offset + written < 2 ^ 64) .offsetOverflow
        pure (fixed, rest, offset + written)) ((fixed, rest, offset) : Encoding × Encoding × Nat) =
      if vs.all f.fits && fits offsetCode (2 ^ 64) offset (items true f vs) then
        .ok (fixed ++ head offsetCode offset (items true f vs), rest ++ tail (items true f vs),
          offset + (tail (items true f vs)).length)
      else .error .offsetOverflow := by
  induction vs with
  | nil =>
    intro fixed rest offset
    simp [items, fits, head, tail]
  | cons v vs ih =>
    intro fixed rest offset
    have hstep := serialize_variable hc v fixed rest offset fun fixed rest written =>
      pure (fixed, rest, offset + written)
    rw [List.foldlM_cons, items_cons]
    refine (congrArg (fun x => x >>= fun state => vs.foldlM _ state) hstep).trans ?_
    rw [List.all_cons, and_fits_variable]
    simp only [head, tail, if_true]
    cases f.fits v && (decide (offset < 2 ^ 32) &&
      decide (offset + (f.encode v).length < 2 ^ 64)) with
    | false => rfl
    | true =>
      rw [if_pos rfl, pure_eq_ok, ok_bind, ih, Bool.true_and]
      simp only [List.append_assoc, List.length_append, Nat.add_assoc]

/-- Items of fixed size are written one after the other. -/
theorem serialize_fixed_loop (hc : c.Meets f) (vs : List α) : ∀ buffer : Encoding,
    vs.foldlM (fun buffer value => do
      let (buffer, _) ← c.serialize value buffer
      pure buffer) buffer =
    if vs.all f.fits then .ok (buffer ++ vs.flatMap f.encode) else .error .offsetOverflow := by
  induction vs with
  | nil =>
    intro buffer
    simp
  | cons v vs ih =>
    intro buffer
    rw [List.foldlM_cons, hc.serialize_eq, List.all_cons]
    cases f.fits v with
    | false => rfl
    | true =>
      rw [if_pos rfl, Bool.true_and]
      show vs.foldlM _ (buffer ++ f.encode v) = _
      rw [ih, List.flatMap_cons, List.append_assoc]

theorem sequenceFormat_false (vs : List α) :
    (sequenceFormat false f).encode vs = vs.flatMap f.encode ∧
      (sequenceFormat false f).fits vs = vs.all f.fits := by
  have hparts : (∀ offset, head offsetCode offset (items false f vs) = vs.flatMap f.encode) ∧
      tail (items false f vs) = [] ∧
      ∀ offset, fits offsetCode (2 ^ 64) offset (items false f vs) = true := by
    induction vs with
    | nil => exact ⟨fun _ => rfl, rfl, fun _ => rfl⟩
    | cons v vs ih =>
      obtain ⟨hhead, htail, hfits⟩ := ih
      exact ⟨fun offset => congrArg (f.encode v ++ ·) (hhead offset), htail, hfits⟩
  obtain ⟨hhead, htail, hfits⟩ := hparts
  constructor
  · show head _ _ _ ++ tail _ = _
    rw [hhead, htail, List.append_nil]
  · show (vs.all f.fits && fits offsetCode _ _ _) = _
    rw [hfits, Bool.and_true]

theorem headLength_items_true (vs : List α) :
    headLength offsetCode ((items true f vs).map Piece.shape) = vs.length * 4 := by
  have hshapes : (items true f vs).map Piece.shape = List.replicate vs.length none := by
    simp [items, Piece.shape, Function.comp_def]
  rw [hshapes, headLength_replicate]
  rfl

variable {vs : List α}

/-- An offset table that is too long for its first offset does not fit. -/
theorem recordFits_items_true (h : ¬vs.length * 4 < 2 ^ 64) :
    recordFits (items true f vs) = false := by
  cases vs with
  | nil => exact absurd (by decide : 0 * 4 < 2 ^ 64) h
  | cons v vs =>
    unfold recordFits
    rw [headLength_items_true, items_cons]
    have hfirst : ¬(v :: vs).length * 4 < 2 ^ 32 := by omega
    simp only [fits, if_true]
    rw [show offsetCode.bound = 2 ^ 32 from rfl, decide_eq_false hfirst, Bool.false_and,
      Bool.false_and]

/-- What `serializeSequence` writes. -/
theorem serializeSequence_eq (hc : c.Meets f) (vs : List α) (buffer : Encoding) :
    serializeSequence c vs buffer =
      if (sequenceFormat c.isVariableSize f).fits vs then
        .ok (buffer ++ (sequenceFormat c.isVariableSize f).encode vs,
          ((sequenceFormat c.isVariableSize f).encode vs).length)
      else .error .offsetOverflow := by
  unfold serializeSequence
  cases c.isVariableSize with
  | false =>
    obtain ⟨hencode, hfits⟩ := sequenceFormat_false (f := f) vs
    rw [if_neg Bool.false_ne_true, serialize_fixed_loop hc, hencode, hfits]
    cases vs.all f.fits with
    | false => rfl
    | true =>
      show Except.ok (_, (buffer ++ vs.flatMap f.encode).length - buffer.length) = _
      rw [List.length_append, Nat.add_sub_cancel_left]
      rfl
  | true =>
    have hfits : (sequenceFormat true f).fits vs = (vs.all f.fits &&
        fits offsetCode (2 ^ 64) (vs.length * 4) (items true f vs)) := by
      rw [← headLength_items_true (f := f)]
      rfl
    rw [if_pos rfl]
    dsimp only
    by_cases hsize : vs.length * bytesPerLengthOffset < 2 ^ 64
    · rw [ensure_of hsize, ok_bind, serialize_variable_loop hc, hfits]
      cases hall : vs.all f.fits && fits offsetCode (2 ^ 64) (vs.length * 4) (items true f vs) with
      | false =>
        rw [show vs.length * bytesPerLengthOffset = vs.length * 4 from rfl, hall]
        rfl
      | true =>
        rw [show vs.length * bytesPerLengthOffset = vs.length * 4 from rfl, hall, if_pos rfl,
          ok_bind]
        dsimp only
        have hrecord := (Bool.and_eq_true_iff.1 hall).2
        have hhead : (head offsetCode (vs.length * 4) (items true f vs)).length =
            vs.length * 4 := by
          rw [length_head, headLength_items_true]
        have hlen : ([] ++ head offsetCode (vs.length * 4) (items true f vs)).length +
            ([] ++ tail (items true f vs)).length < 2 ^ 64 := by
          rw [List.nil_append, List.nil_append, hhead]
          exact add_length_tail_lt hsize hrecord
        have hencode : (sequenceFormat true f).encode vs =
            head offsetCode (vs.length * 4) (items true f vs) ++ tail (items true f vs) := by
          rw [← headLength_items_true (f := f)]
          rfl
        rw [ensure_of hlen, ok_bind, List.nil_append, List.nil_append, hencode, List.length_append,
          List.append_assoc]
        rfl
    · rw [ensure_of_not hsize]
      have hnot : (sequenceFormat true f).fits vs = false := by
        show (vs.all f.fits && recordFits _) = false
        rw [recordFits_items_true hsize, Bool.and_false]
      rw [hnot]
      rfl

/-! ## Offsets -/

variable {encoding : Encoding}

theorem readOffsetAt_eq_ok {cursor : Nat} : readOffsetAt encoding cursor = .ok offset ↔
      cursor + 4 < 2 ^ 64 ∧ cursor + 4 ≤ encoding.length ∧
        offsetCode.read (piece encoding cursor (cursor + 4)) = offset := by
  unfold readOffsetAt sliceRange
  simp only [bind_eq_ok, ensure_eq_ok, pure_eq_ok]
  constructor
  · rintro ⟨_, hsize, _, hlen, bytes, ⟨_, -, h⟩, h'⟩
    cases h
    exact ⟨hsize, hlen, Except.ok.inj h'⟩
  · rintro ⟨hsize, hlen, rfl⟩
    exact ⟨(), hsize, (), hlen, _, ⟨(), ⟨Nat.le_add_right _ _, hlen⟩, rfl⟩, rfl⟩

theorem readOffsetAt_noPanic (encoding : Encoding) (cursor : Nat) :
    NoPanic (readOffsetAt encoding cursor) := by
  refine NoPanic.bind (.ensure _ _) fun _ _ => NoPanic.bind (.ensure _ _) fun _ hlen => ?_
  refine NoPanic.bind ?_ fun _ _ => .ok _
  unfold sliceRange
  rw [ensure_of ⟨Nat.le_add_right _ _, ensure_eq_ok.1 hlen⟩]
  exact .ok _

/-- The loop over the later offsets collects them, if each is at least the one before. -/
theorem validate_loop {out : List Nat} (rest : List Nat) :
    ∀ {bounds : List Nat} {previous : Nat}, previous ≤ inputLen →
      ((∃ last, rest.foldlM (fun (bounds, previous) offset => do
        ensure (previous ≤ offset) (Fault.error (.nonMonotonicOffset previous offset))
        ensure (offset ≤ inputLen) (Fault.error (.invalidOffset offset inputLen))
        pure (bounds ++ [offset], offset)) (bounds, previous) = .ok (out, last)) ↔
      out = bounds ++ rest ∧ (previous :: (rest ++ [inputLen])).IsChain (· ≤ ·)) := by
  induction rest with
  | nil =>
    intro bounds previous hprevious
    rw [List.append_nil]
    constructor
    · rintro ⟨last, h⟩
      exact ⟨(congrArg Prod.fst (Except.ok.inj h)).symm, by simpa using hprevious⟩
    · rintro ⟨rfl, -⟩
      exact ⟨previous, rfl⟩
  | cons offset rest ih =>
    intro bounds previous hprevious
    simp only [List.foldlM_cons, bind_eq_ok, ensure_eq_ok, pure_eq_ok]
    constructor
    · rintro ⟨last, state, ⟨_, hle, _, hin, h⟩, hrest⟩
      cases h
      obtain ⟨hout, hchain⟩ := (ih hin).1 ⟨last, hrest⟩
      refine ⟨by rw [hout, List.append_assoc]; rfl, ?_⟩
      exact List.isChain_cons_cons.2 ⟨hle, hchain⟩
    · rintro ⟨hout, hchain⟩
      obtain ⟨hle, hchain⟩ := List.isChain_cons_cons.1 hchain
      have hordered : ((offset :: rest) ++ [inputLen]).IsChain (· ≤ ·) := hchain
      have hin : offset ≤ inputLen := le_of_ordered hordered List.mem_cons_self
      have hout' : out = (bounds ++ [offset]) ++ rest := by
        rw [hout, List.append_assoc]
        rfl
      obtain ⟨last, hrest⟩ := (ih hin).2 ⟨hout', hchain⟩
      exact ⟨last, _, ⟨(), hle, (), hin, rfl⟩, hrest⟩

/-- The offsets pass when, with the input length at the end, they begin at the end of the head and
are in order. -/
theorem validateVariableOffsets_eq_ok {offsets : List Nat} {fixedEnd : Nat} :
    validateVariableOffsets offsets fixedEnd inputLen = .ok bounds ↔
      bounds = offsets ++ [inputLen] ∧ (offsets ++ [inputLen]).head? = some fixedEnd ∧
        (offsets ++ [inputLen]).IsChain (· ≤ ·) := by
  cases offsets with
  | nil =>
    simp only [validateVariableOffsets, bind_eq_ok, ensure_eq_ok, pure_eq_ok, List.nil_append,
      List.head?_cons]
    constructor
    · rintro ⟨_, hend, h⟩
      exact ⟨(Except.ok.inj h).symm, by rw [hend], List.isChain_singleton _⟩
    · rintro ⟨rfl, hend, -⟩
      exact ⟨(), (Option.some.inj hend).symm, rfl⟩
  | cons first rest =>
    simp only [validateVariableOffsets, bind_eq_ok, ensure_eq_ok, pure_eq_ok]
    constructor
    · rintro ⟨_, ⟨rfl, hin⟩, ⟨out, last⟩, hloop, h⟩
      obtain ⟨hout, hchain⟩ := (validate_loop rest hin).1 ⟨last, hloop⟩
      refine ⟨?_, rfl, hchain⟩
      rw [← Except.ok.inj h]
      show out ++ [inputLen] = _
      rw [hout]
      rfl
    · rintro ⟨rfl, hstart, hchain⟩
      have hin : first ≤ inputLen := le_of_ordered hchain List.mem_cons_self
      have hout : first :: rest = [first] ++ rest := rfl
      obtain ⟨last, hloop⟩ := (validate_loop rest hin).2 ⟨hout, hchain⟩
      exact ⟨(), ⟨Option.some.inj hstart, hin⟩, _, hloop, rfl⟩

theorem validateVariableOffsets_noPanic (offsets : List Nat) (fixedEnd inputLen : Nat) :
    NoPanic (validateVariableOffsets offsets fixedEnd inputLen) := by
  cases offsets with
  | nil => exact NoPanic.bind (.ensure _ _) fun _ _ => .ok _
  | cons first rest =>
    refine NoPanic.bind (.ensure _ _) fun _ _ => NoPanic.bind (.foldlM fun state offset _ => ?_)
      fun _ _ => .ok _
    exact NoPanic.bind (.ensure _ _) fun _ _ => NoPanic.bind (.ensure _ _) fun _ _ => .ok _

/-! ## Reading -/

/-- Decode each part. -/
def readParts (c : Codec α) (parts : List (Piece U8)) : Decoded (List α) :=
  parts.mapM fun p => c.deserialize p.body

theorem readParts_items (hc : c.Meets f) (hfits : vs.all f.fits = true) :
    readParts c (items c.isVariableSize f vs) = .ok vs := by
  unfold readParts items
  induction vs with
  | nil => rfl
  | cons v vs ih =>
    rw [List.all_cons, Bool.and_eq_true] at hfits
    rw [List.map_cons, List.mapM_cons, hc.deserialize_encode v hfits.1, ih hfits.2]
    rfl

/-- Parts that decode are the items of the values they decode to. -/
theorem items_of_readParts (hc : c.Meets f)
    (hparts : ∀ p ∈ parts, p.isVariable = c.isVariableSize ∧ p.body.length < 2 ^ 61)
    (h : readParts c parts = .ok vs) :
    vs.all f.fits = true ∧ items c.isVariableSize f vs = parts := by
  unfold readParts at h
  induction parts generalizing vs with
  | nil =>
    cases h
    exact ⟨rfl, rfl⟩
  | cons p parts ih =>
    simp only [List.mapM_cons, bind_eq_ok, pure_eq_ok] at h
    obtain ⟨v, hv, vs, hvs, h⟩ := h
    cases h
    obtain ⟨hkind, hlen⟩ := hparts p List.mem_cons_self
    obtain ⟨hfits, hencode⟩ := hc.of_deserialize _ _ hlen hv
    obtain ⟨hall, hitems⟩ := ih (fun q hq => hparts q (List.mem_cons_of_mem _ hq)) hvs
    refine ⟨by rw [List.all_cons, hfits, hall]; rfl, ?_⟩
    rw [items_cons, hitems, hencode, ← hkind]

theorem readParts_noPanic (hc : c.Meets f) (hparts : ∀ p ∈ parts, p.body.length < 2 ^ 61) :
    NoPanic (readParts c parts) :=
  .mapM fun p hp => hc.no_panic _ (hparts p hp)

/-- The shape of the items of a sequence. -/
def itemShape (c : Codec α) : Option Nat := if c.isVariableSize then none else some c.sizeHint

theorem map_shape_items (hc : c.Meets f) (vs : List α) :
    (items c.isVariableSize f vs).map Piece.shape = List.replicate vs.length (itemShape c) := by
  induction vs with
  | nil => rfl
  | cons v vs ih =>
    rw [items_cons, List.map_cons, ih, List.length_cons, List.replicate_succ]
    congr 1
    unfold itemShape Piece.shape
    cases hvar : c.isVariableSize with
    | false => simp [hc.length_encode hvar v]
    | true => rfl

/-- A sequence decoder cuts the input into parts of the item shape and decodes each. -/
def ReadsItems (c : Codec α) (encoding : Encoding) (count : Nat) (vs : List α) : Prop :=
  Cuttable offsetCode encoding (List.replicate count (itemShape c)) ∧
    readParts c (partsOf offsetCode encoding (List.replicate count (itemShape c))) = .ok vs

theorem readsItems_encode (hc : c.Meets f)
    (h : (sequenceFormat c.isVariableSize f).fits vs = true) :
    ReadsItems c ((sequenceFormat c.isVariableSize f).encode vs) vs.length vs := by
  obtain ⟨hall, hrecord⟩ := Bool.and_eq_true_iff.1 h
  unfold ReadsItems
  rw [← map_shape_items hc]
  refine ⟨cuttable_layout hrecord, ?_⟩
  show readParts c (partsOf offsetCode (layout offsetCode _) _) = _
  rw [partsOf_layout hrecord]
  exact readParts_items hc hall

theorem encode_of_readsItems (hc : c.Meets f)
    (hlen : encoding.length < 2 ^ 61) (h : ReadsItems c encoding count vs) :
    (sequenceFormat c.isVariableSize f).fits vs = true ∧
      (sequenceFormat c.isVariableSize f).encode vs = encoding := by
  obtain ⟨hcut, hread⟩ := h
  have hparts : ∀ p ∈ partsOf offsetCode encoding (List.replicate count (itemShape c)),
      p.isVariable = c.isVariableSize ∧ p.body.length < 2 ^ 61 := by
    intro p hp
    refine ⟨?_, (length_body_le hp).trans_lt hlen⟩
    have hshape : p.shape ∈ List.replicate count (itemShape c) := by
      rw [← hcut.map_shape]
      exact List.mem_map_of_mem hp
    have hshape := List.eq_of_mem_replicate hshape
    unfold Piece.shape itemShape at hshape
    cases hp : p.isVariable <;> cases hc : c.isVariableSize <;> simp [hp, hc] at hshape ⊢
  obtain ⟨hall, hitems⟩ := items_of_readParts hc hparts hread
  constructor
  · show (vs.all f.fits && recordFits (items c.isVariableSize f vs)) = true
    rw [hall, hitems, Bool.true_and]
    unfold recordFits
    rw [hcut.map_shape]
    exact hcut.fits_partsOf (by omega)
  · show layout offsetCode (items c.isVariableSize f vs) = encoding
    rw [hitems]
    exact hcut.layout_partsOf

/-! ## Items of variable size -/

section Variable

variable {encoding : Encoding}

theorem offsetsAt_replicate (count : Nat) : ∀ cursor,
    offsetsAt offsetCode encoding cursor (List.replicate count none) =
      (List.range count).map fun i =>
        offsetCode.read (piece encoding (cursor + i * 4) (cursor + i * 4 + 4)) := by
  induction count with
  | zero => exact fun _ => rfl
  | succ count ih =>
    intro cursor
    rw [List.replicate_succ, List.range_succ_eq_map, List.map_cons, List.map_map]
    show _ :: offsetsAt offsetCode encoding (cursor + 4) _ = _
    rw [ih, Nat.zero_mul]
    refine congrArg _ (List.map_congr_left fun i _ => ?_)
    show _ = offsetCode.read (piece encoding (cursor + (i + 1) * 4) (cursor + (i + 1) * 4 + 4))
    rw [show cursor + 4 + i * 4 = cursor + (i + 1) * 4 by omega]

theorem spans_replicate (count : Nat) : ∀ (cursor : Nat) (bounds : List Nat),
    spans offsetCode cursor bounds (List.replicate count none) =
      (List.range count).map fun i => (bounds.getD i 0, bounds.getD (i + 1) 0) := by
  induction count with
  | zero => exact fun _ _ => rfl
  | succ count ih =>
    intro cursor bounds
    rw [List.replicate_succ, List.range_succ_eq_map, List.map_cons, List.map_map]
    show (bounds.headD 0, bounds.tail.headD 0) :: spans offsetCode _ bounds.tail _ = _
    have hhead : ∀ l : List Nat, l.headD 0 = l.getD 0 0 := fun l => by cases l <;> rfl
    have htail : ∀ i, bounds.tail.getD i 0 = bounds.getD (i + 1) 0 := by
      intro i
      cases bounds with
      | nil => rfl
      | cons b bounds => rfl
    rw [ih, hhead, hhead, htail]
    refine congrArg _ (List.map_congr_left fun i _ => ?_)
    rw [htail, htail]
    rfl

theorem partsOf_replicate (count : Nat) (shape : Option Nat) :
    partsOf offsetCode encoding (List.replicate count shape) =
      (spans offsetCode 0 (offsetsAt offsetCode encoding 0 (List.replicate count shape) ++
        [encoding.length]) (List.replicate count shape)).map fun span =>
          ⟨shape.isNone, piece encoding span.1 span.2⟩ := by
  have hzip : ∀ (n : Nat) (l : List (Nat × Nat)), l.length = n →
      (List.replicate n shape).zip l = l.map (Prod.mk shape) := by
    intro n l hl
    subst hl
    induction l with
    | nil => rfl
    | cons a l ih => exact congrArg _ ih
  unfold partsOf partsAt
  rw [hzip _ _ (by rw [length_spans, List.length_replicate]), List.map_map]
  rfl

theorem itemShape_none (hvar : c.isVariableSize = true) : itemShape c = none := if_pos hvar

/-- The items between consecutive bounds are the parts. -/
theorem mapM_bounds {count : Nat} {bounds : List Nat} (hvar : c.isVariableSize = true)
    (hcut : Cuttable offsetCode encoding (List.replicate count (itemShape c)))
    (hbounds : bounds = offsetsAt offsetCode encoding 0 (List.replicate count (itemShape c)) ++
      [encoding.length]) :
    ((List.range count).mapM fun i => do
      let start ← index bounds i
      let stop ← index bounds (i + 1)
      c.deserialize (← sliceRange encoding start stop)) =
    readParts c (partsOf offsetCode encoding (List.replicate count (itemShape c))) := by
  have hshape := itemShape_none hvar
  have hspans := hcut.recut.spans_le
  rw [← hbounds] at hspans
  have hlen : bounds.length = count + 1 := by
    rw [hbounds, hshape, offsetsAt_replicate]
    simp
  unfold readParts
  rw [partsOf_replicate, ← hbounds, hshape, spans_replicate, List.map_map, List.mapM_map]
  rw [hshape, spans_replicate] at hspans
  refine mapM_congr fun i hi => ?_
  have hi := List.mem_range.1 hi
  obtain ⟨hle, hin⟩ := hspans _ (List.mem_map.2 ⟨i, List.mem_range.2 hi, rfl⟩)
  have hindex : ∀ j < bounds.length, index bounds j = .ok (bounds.getD j 0) := by
    intro j hj
    unfold index
    rw [List.getElem?_eq_getElem hj, List.getD_eq_getElem _ _ hj]
    rfl
  rw [hindex i (by omega), ok_bind, hindex (i + 1) (by omega), ok_bind]
  unfold sliceRange
  rw [ensure_of ⟨hle, hin⟩]
  rfl

theorem mapM_readOffsetAt (hsize : count * 4 < 2 ^ 64) (hle : count * 4 ≤ encoding.length) :
    ((List.range count).mapM fun i => readOffsetAt encoding (i * bytesPerLengthOffset)) =
      .ok (offsetsAt offsetCode encoding 0 (List.replicate count none)) := by
  rw [offsetsAt_replicate]
  refine mapM_eq_map fun i hi => ?_
  have hi := List.mem_range.1 hi
  have hcursor : i * bytesPerLengthOffset = i * 4 := rfl
  rw [readOffsetAt_eq_ok, Nat.zero_add, hcursor]
  exact ⟨by omega, by omega, rfl⟩

theorem headLength_itemShape (hvar : c.isVariableSize = true) (count : Nat) :
    headLength offsetCode (List.replicate count (itemShape c)) = count * 4 := by
  rw [itemShape_none hvar, headLength_replicate]
  rfl

/-- Offsets that pass cut the input. -/
theorem cuttable_of_validate {count : Nat} {bounds : List Nat} (hvar : c.isVariableSize = true)
    (hle : count * 4 ≤ encoding.length)
    (h : validateVariableOffsets (offsetsAt offsetCode encoding 0 (List.replicate count none))
      (count * 4) encoding.length = .ok bounds) :
    Cuttable offsetCode encoding (List.replicate count (itemShape c)) ∧
      bounds = offsetsAt offsetCode encoding 0 (List.replicate count (itemShape c)) ++
        [encoding.length] := by
  have hhead := headLength_itemShape hvar count
  obtain ⟨hbounds, hstart, hchain⟩ := validateVariableOffsets_eq_ok.1 h
  rw [← itemShape_none hvar] at hbounds hstart hchain
  rw [← hhead] at hle hstart
  exact ⟨⟨hle, hstart, hchain⟩, hbounds⟩

/-- What the decoder of items of variable size accepts. -/
theorem deserializeVariableItems_eq_ok (hvar : c.isVariableSize = true) :
    deserializeVariableItems c encoding count = .ok vs ↔
      count * 4 < 2 ^ 64 ∧ ReadsItems c encoding count vs := by
  unfold deserializeVariableItems ReadsItems
  simp only [bind_eq_ok (x := ensure _ _), ensure_eq_ok]
  constructor
  · rintro ⟨_, hsize, _, hle, h⟩
    rw [mapM_readOffsetAt hsize hle, ok_bind] at h
    obtain ⟨bounds, hbounds, h⟩ := bind_eq_ok.1 h
    obtain ⟨hcut, hbounds⟩ := cuttable_of_validate hvar hle hbounds
    exact ⟨hsize, hcut, (mapM_bounds hvar hcut hbounds).symm.trans h⟩
  · rintro ⟨hsize, hcut, hread⟩
    have hshape := itemShape_none hvar
    have hhead := headLength_itemShape hvar count
    have hle : count * 4 ≤ encoding.length := hhead ▸ hcut.head_le
    refine ⟨(), hsize, (), hle, ?_⟩
    have hstart := hcut.starts
    have hchain := hcut.ordered
    rw [hhead, hshape] at hstart
    rw [hshape] at hchain
    rw [mapM_readOffsetAt hsize hle, ok_bind]
    refine bind_eq_ok.2 ⟨_, validateVariableOffsets_eq_ok.2 ⟨rfl, hstart, hchain⟩, ?_⟩
    exact (mapM_bounds hvar hcut (by rw [hshape])).trans hread

theorem deserializeVariableItems_noPanic (hc : c.Meets f) (hvar : c.isVariableSize = true)
    (hlen : encoding.length < 2 ^ 61) : NoPanic (deserializeVariableItems c encoding count) := by
  refine NoPanic.bind (.ensure _ _) fun _ hsize => NoPanic.bind (.ensure _ _) fun _ hle => ?_
  rw [mapM_readOffsetAt (ensure_eq_ok.1 hsize) (ensure_eq_ok.1 hle), ok_bind]
  refine NoPanic.bind (validateVariableOffsets_noPanic _ _ _) fun bounds hbounds => ?_
  obtain ⟨hcut, hbounds⟩ := cuttable_of_validate hvar (ensure_eq_ok.1 hle) hbounds
  rw [mapM_bounds hvar hcut hbounds]
  exact readParts_noPanic hc fun p hp => (length_body_le hp).trans_lt hlen

end Variable

/-! ## Items of fixed size -/

section Fixed

variable {encoding : Encoding}

theorem itemShape_some (hvar : c.isVariableSize = false) : itemShape c = some c.sizeHint := by
  unfold itemShape
  rw [hvar]
  rfl

theorem offsetsAt_replicate_some (size count : Nat) : ∀ cursor,
    offsetsAt offsetCode encoding cursor (List.replicate count (some size)) = [] := by
  induction count with
  | zero => exact fun _ => rfl
  | succ count ih => exact fun cursor => ih (cursor + size)

theorem spans_replicate_some (size count : Nat) : ∀ (cursor : Nat) (bounds : List Nat),
    spans offsetCode cursor bounds (List.replicate count (some size)) =
      (List.range count).map fun i => (cursor + i * size, cursor + (i + 1) * size) := by
  induction count with
  | zero => exact fun _ _ => rfl
  | succ count ih =>
    intro cursor bounds
    rw [List.replicate_succ, List.range_succ_eq_map, List.map_cons, List.map_map]
    show (cursor, cursor + size) :: spans offsetCode (cursor + size) bounds _ = _
    rw [ih, Nat.zero_mul, Nat.zero_add, Nat.one_mul]
    refine congrArg _ (List.map_congr_left fun i _ => ?_)
    show _ = (cursor + (i + 1) * size, cursor + (i + 1 + 1) * size)
    rw [Nat.succ_mul (i + 1), Nat.succ_mul i]
    exact Prod.ext (by omega) (by omega)

theorem cuttable_replicate_some {size : Nat} :
    Cuttable offsetCode encoding (List.replicate count (some size)) ↔
      encoding.length = count * size := by
  constructor
  · intro h
    have hstart := h.starts
    rw [offsetsAt_replicate_some, headLength_replicate] at hstart
    exact Option.some.inj hstart
  · intro h
    refine ⟨?_, ?_, ?_⟩
    · rw [headLength_replicate, h]
      rfl
    · rw [offsetsAt_replicate_some, headLength_replicate, h]
      rfl
    · rw [offsetsAt_replicate_some]
      exact List.isChain_singleton _

/-- The chunks of the item size are the parts. -/
theorem mapM_chunks (hvar : c.isVariableSize = false) (hpos : 0 < c.sizeHint)
    (hlen : encoding.length = count * c.sizeHint) :
    (chunksExact encoding c.sizeHint >>= fun chunks => chunks.mapM c.deserialize) =
      readParts c (partsOf offsetCode encoding (List.replicate count (itemShape c))) := by
  unfold chunksExact readParts
  rw [ensure_of hpos.ne', hlen, Nat.mul_div_cancel _ hpos, partsOf_replicate,
    itemShape_some hvar, spans_replicate_some, List.map_map, List.mapM_map]
  show ((List.range count).map _).mapM c.deserialize = _
  rw [List.mapM_map]
  refine mapM_congr fun i _ => ?_
  show c.deserialize (piece encoding (i * c.sizeHint) ((i + 1) * c.sizeHint)) =
    c.deserialize (piece encoding (0 + i * c.sizeHint) (0 + (i + 1) * c.sizeHint))
  rw [Nat.zero_add, Nat.zero_add]

end Fixed

/-! ## Vectors -/

theorem readsItems_zero : ReadsItems c encoding 0 vs ↔ encoding = [] ∧ vs = [] := by
  constructor
  · rintro ⟨hcut, hread⟩
    have hstart : some encoding.length = some 0 := hcut.starts
    exact ⟨List.length_eq_zero_iff.1 (Option.some.inj hstart), (Except.ok.inj hread).symm⟩
  · rintro ⟨rfl, rfl⟩
    exact ⟨⟨le_rfl, rfl, List.isChain_singleton _⟩, rfl⟩

section Vectors

variable {n : Nat} {encoding : Encoding} {vs : List α}

theorem deserializeVectorItems_eq_ok
    (hsize : c.isVariableSize = false → 0 < c.sizeHint ∧ n * c.sizeHint < 2 ^ 64) :
    deserializeVectorItems c n encoding = .ok vs ↔
      (c.isVariableSize = true → n * 4 < 2 ^ 64) ∧ ReadsItems c encoding n vs := by
  unfold deserializeVectorItems
  cases hvar : c.isVariableSize with
  | true =>
    rw [if_pos rfl]
    by_cases hn : n = 0
    · subst hn
      rw [if_pos rfl, readsItems_zero]
      simp only [bind_eq_ok, ensure_eq_ok, pure_eq_ok]
      constructor
      · rintro ⟨_, hempty, h⟩
        exact ⟨fun _ => by decide, List.isEmpty_iff.1 hempty, (Except.ok.inj h).symm⟩
      · rintro ⟨-, rfl, rfl⟩
        exact ⟨(), rfl, rfl⟩
    · rw [if_neg hn, deserializeVariableItems_eq_ok hvar]
      exact and_congr_left fun _ => ⟨fun h _ => h, fun h => h rfl⟩
  | false =>
    obtain ⟨hpos, hsize⟩ := hsize hvar
    rw [if_neg Bool.false_ne_true]
    dsimp only
    rw [ensure_of hsize, ok_bind]
    simp only [bind_eq_ok (x := ensure _ _), ensure_eq_ok]
    constructor
    · rintro ⟨_, hlo, _, hhi, h⟩
      have hlen := Nat.le_antisymm hhi hlo
      rw [mapM_chunks hvar hpos hlen] at h
      refine ⟨fun hfalse => absurd hfalse Bool.false_ne_true, ?_, h⟩
      rw [itemShape_some hvar]
      exact cuttable_replicate_some.2 hlen
    · rintro ⟨-, hcut, h⟩
      rw [itemShape_some hvar] at hcut
      have hlen := cuttable_replicate_some.1 hcut
      refine ⟨(), hlen.ge, (), hlen.le, ?_⟩
      rw [mapM_chunks hvar hpos hlen]
      exact h

theorem deserializeVectorItems_noPanic (hc : c.Meets f)
    (hsize : c.isVariableSize = false → 0 < c.sizeHint ∧ n * c.sizeHint < 2 ^ 64)
    (hlen : encoding.length < 2 ^ 61) : NoPanic (deserializeVectorItems c n encoding) := by
  unfold deserializeVectorItems
  cases hvar : c.isVariableSize with
  | true =>
    rw [if_pos rfl]
    split
    · exact NoPanic.bind (.ensure _ _) fun _ _ => .ok _
    · exact deserializeVariableItems_noPanic hc hvar hlen
  | false =>
    rw [if_neg Bool.false_ne_true]
    refine NoPanic.bind (.ensure _ _) fun _ _ => NoPanic.bind (.ensure _ _) fun _ hlo =>
      NoPanic.bind (.ensure _ _) fun _ hhi => ?_
    rw [mapM_chunks hvar (hsize hvar).1
      (Nat.le_antisymm (ensure_eq_ok.1 hhi) (ensure_eq_ok.1 hlo))]
    exact readParts_noPanic hc fun p hp => (length_body_le hp).trans_lt hlen

def vectorFormat (isVariable : Bool) (f : Format α) (n : Nat) : Format (Vector α n) where
  encode v := (sequenceFormat isVariable f).encode v.toList
  fits v := (sequenceFormat isVariable f).fits v.toList

theorem length_encode_false (hc : c.Meets f) (hvar : c.isVariableSize = false) (vs : List α) :
    ((sequenceFormat c.isVariableSize f).encode vs).length = vs.length * c.sizeHint := by
  rw [hvar, (sequenceFormat_false vs).1]
  induction vs with
  | nil => exact (Nat.zero_mul _).symm
  | cons v vs ih =>
    rw [List.flatMap_cons, List.length_append, ih, hc.length_encode hvar, List.length_cons,
      Nat.succ_mul]
    exact Nat.add_comm _ _

/-- Only a sequence whose offset table is short enough fits. -/
theorem table_lt_of_fits (hvar : c.isVariableSize = true)
    (h : (sequenceFormat c.isVariableSize f).fits vs = true) : vs.length * 4 < 2 ^ 64 := by
  by_contra hnot
  rw [hvar] at h
  have hrecord := (Bool.and_eq_true_iff.1 h).2
  rw [recordFits_items_true hnot] at hrecord
  cases hrecord

theorem vectorCodec_meets (hc : c.Meets f)
    (hsize : c.isVariableSize = false → 0 < c.sizeHint ∧ n * c.sizeHint < 2 ^ 64) :
    (vectorCodec c n).Meets (vectorFormat c.isVariableSize f n) where
  serialize_eq v buffer := by
    show (ensure _ _ >>= fun _ => _) = _
    rw [ensure_of Vector.length_toList]
    exact serializeSequence_eq hc v.toList buffer
  deserialize_encode v h := by
    have hreads := readsItems_encode hc h
    rw [Vector.length_toList] at hreads
    have htable : c.isVariableSize = true → n * 4 < 2 ^ 64 := fun hvar => by
      have htable := table_lt_of_fits hvar h
      rwa [Vector.length_toList] at htable
    exact attach_bind_eq_ok.2
      ⟨v.toList, (deserializeVectorItems_eq_ok hsize).2 ⟨htable, hreads⟩, rfl⟩
  of_deserialize encoding v hlen h := by
    obtain ⟨vs, hvs, h⟩ := attach_bind_eq_ok.1 h
    rw [← Except.ok.inj h]
    exact encode_of_readsItems hc hlen ((deserializeVectorItems_eq_ok hsize).1 hvs).2
  no_panic encoding hlen :=
    NoPanic.bind (.attach (deserializeVectorItems_noPanic hc hsize hlen)) fun _ _ => .ok _
  length_encode hvar v := by
    have hvar : c.isVariableSize = false := hvar
    show ((sequenceFormat c.isVariableSize f).encode v.toList).length = if c.isVariableSize then
      _ else usize (n * c.sizeHint)
    rw [length_encode_false hc hvar, Vector.length_toList, hvar, if_neg Bool.false_ne_true, usize,
      Nat.mod_eq_of_lt (hsize hvar).2]

end Vectors

/-! ## Lists -/

section Lists

variable {n : Nat} {encoding : Encoding} {vs : List α}

theorem readsItems_of_deserializeListItems (hpos : c.isVariableSize = false → 0 < c.sizeHint)
    (h : deserializeListItems c n encoding = .ok vs) : ∃ count, ReadsItems c encoding count vs := by
  unfold deserializeListItems at h
  cases hvar : c.isVariableSize with
  | true =>
    rw [hvar, if_pos rfl] at h
    split at h
    · rename_i hempty
      exact ⟨0, readsItems_zero.2 ⟨List.isEmpty_iff.1 hempty, (Except.ok.inj h).symm⟩⟩
    · simp only [bind_eq_ok] at h
      obtain ⟨_, -, _, -, _, -, _, -, h⟩ := h
      exact ⟨_, ((deserializeVariableItems_eq_ok hvar).1 h).2⟩
  | false =>
    rw [hvar, if_neg Bool.false_ne_true] at h
    simp only [bind_eq_ok (x := ensure _ _), ensure_eq_ok] at h
    obtain ⟨_, -, _, hmod, _, -, h⟩ := h
    have hlen : encoding.length = encoding.length / c.sizeHint * c.sizeHint :=
      (Nat.div_mul_cancel (Nat.dvd_of_mod_eq_zero hmod)).symm
    rw [mapM_chunks hvar (hpos hvar) hlen] at h
    refine ⟨_, ?_, h⟩
    rw [itemShape_some hvar]
    exact cuttable_replicate_some.2 hlen

theorem deserializeListItems_encode (hc : c.Meets f)
    (hpos : c.isVariableSize = false → 0 < c.sizeHint) (hn : vs.length ≤ n)
    (h : (sequenceFormat c.isVariableSize f).fits vs = true) :
    deserializeListItems c n ((sequenceFormat c.isVariableSize f).encode vs) = .ok vs := by
  have hreads := readsItems_encode hc h
  generalize (sequenceFormat c.isVariableSize f).encode vs = encoding at hreads
  unfold deserializeListItems
  cases hvar : c.isVariableSize with
  | true =>
    have hread := (deserializeVariableItems_eq_ok hvar).2 ⟨table_lt_of_fits hvar h, hreads⟩
    rw [if_pos rfl]
    cases vs with
    | nil =>
      rw [(readsItems_zero.1 hreads).1]
      rfl
    | cons v vs =>
      -- The first offset is the length of the table.
      obtain ⟨hcut, -⟩ := hreads
      have hhead := hcut.head_le
      have hstart := hcut.starts
      rw [headLength_itemShape hvar] at hhead hstart
      rw [itemShape_none hvar] at hstart
      have hfirst : offsetCode.read (piece encoding 0 (0 + 4)) = (v :: vs).length * 4 :=
        Option.some.inj hstart
      have hnonempty : encoding.isEmpty = false := by
        cases encoding with
        | nil => simp at hhead
        | cons b l => rfl
      have hoffset : readOffsetAt encoding 0 = .ok ((v :: vs).length * 4) :=
        readOffsetAt_eq_ok.2 ⟨by decide, by rw [List.length_cons] at hhead; omega, hfirst⟩
      have hcount : (v :: vs).length * 4 / bytesPerLengthOffset = (v :: vs).length :=
        Nat.mul_div_cancel _ (by decide)
      rw [hnonempty, if_neg Bool.false_ne_true, hoffset, ok_bind,
        ensure_of (by rw [List.length_cons]; omega),
        ensure_of (show (v :: vs).length * 4 % bytesPerLengthOffset = 0 from Nat.mul_mod_left _ _)]
      show (ensure ((v :: vs).length * 4 / bytesPerLengthOffset ≤ n) _ >>= fun _ => _) = _
      rw [hcount, ensure_of hn]
      exact hread
  | false =>
    have hcut := hreads.1
    rw [itemShape_some hvar] at hcut
    have hlen := cuttable_replicate_some.1 hcut
    have hcount : encoding.length / c.sizeHint = vs.length := by
      rw [hlen, Nat.mul_div_cancel _ (hpos hvar)]
    rw [if_neg Bool.false_ne_true]
    dsimp only
    rw [ensure_of (hpos hvar).ne', ensure_of (show encoding.length % c.sizeHint = 0 by
      rw [hlen]; exact Nat.mul_mod_left _ _), hcount, ensure_of hn]
    show (chunksExact _ _ >>= fun _ => _) = _
    rw [mapM_chunks hvar (hpos hvar) hlen]
    exact hreads.2

theorem deserializeListItems_noPanic (hc : c.Meets f)
    (hpos : c.isVariableSize = false → 0 < c.sizeHint) (hlen : encoding.length < 2 ^ 61) :
    NoPanic (deserializeListItems c n encoding) := by
  unfold deserializeListItems
  cases hvar : c.isVariableSize with
  | true =>
    rw [if_pos rfl]
    split
    · exact .ok _
    · exact NoPanic.bind (readOffsetAt_noPanic _ _) fun _ _ => NoPanic.bind (.ensure _ _) fun _ _ =>
        NoPanic.bind (.ensure _ _) fun _ _ => NoPanic.bind (.ensure _ _) fun _ _ =>
        deserializeVariableItems_noPanic hc hvar hlen
  | false =>
    rw [if_neg Bool.false_ne_true]
    refine NoPanic.bind (.ensure _ _) fun _ _ => NoPanic.bind (.ensure _ _) fun _ hmod =>
      NoPanic.bind (.ensure _ _) fun _ _ => ?_
    rw [mapM_chunks hvar (hpos hvar)
      (Nat.div_mul_cancel (Nat.dvd_of_mod_eq_zero (ensure_eq_ok.1 hmod))).symm]
    exact readParts_noPanic hc fun p hp => (length_body_le hp).trans_lt hlen

def listFormat (isVariable : Bool) (f : Format α) (n : Nat) : Format (BoundedList α n) where
  encode v := (sequenceFormat isVariable f).encode v.toList
  fits v := (sequenceFormat isVariable f).fits v.toList

theorem listCodec_meets (hc : c.Meets f) (hpos : c.isVariableSize = false → 0 < c.sizeHint) :
    (listCodec c n).Meets (listFormat c.isVariableSize f n) where
  serialize_eq v buffer := by
    show (ensure _ _ >>= fun _ => _) = _
    rw [ensure_of v.length_le]
    exact serializeSequence_eq hc v.toList buffer
  deserialize_encode v h :=
    attach_bind_eq_ok.2 ⟨v.toList, deserializeListItems_encode hc hpos v.length_le h, rfl⟩
  of_deserialize encoding v hlen h := by
    obtain ⟨vs, hvs, h⟩ := attach_bind_eq_ok.1 h
    obtain ⟨count, hreads⟩ := readsItems_of_deserializeListItems hpos hvs
    rw [← Except.ok.inj h]
    exact encode_of_readsItems hc hlen hreads
  no_panic encoding hlen :=
    NoPanic.bind (.attach (deserializeListItems_noPanic hc hpos hlen)) fun _ _ => .ok _
  length_encode h := by cases h

end Lists

end Moonglass.Ssz
