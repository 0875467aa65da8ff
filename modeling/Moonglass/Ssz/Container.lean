import Moonglass.Ssz.Sequence

/-
  Containers. The fields are the parts of a record. The encoder keeps its two sections apart until
  all fields are written; the decoder finds the range of every field first and decodes them in
  order. The ranges it finds are the places of the parts.
-/

namespace Moonglass.Ssz

open Lib

variable {l : FieldLayout} {dec : ContainerDecoder} {r : Nat × Nat}
  {rest : List (Nat × Nat)}

/-- The fields of a container as the parts of a record. -/
structure FieldsFormat (α : Type) where
  parts : α → List (Piece U8)
  fits : α → Bool

namespace FieldsFormat

def nil : FieldsFormat Unit where
  parts _ := []
  fits _ := true

def cons {α β : Type} (isVariable : Bool) (f : Format α) (fields : FieldsFormat β) :
    FieldsFormat (α × β) where
  parts v := ⟨isVariable, f.encode v.1⟩ :: fields.parts v.2
  fits v := f.fits v.1 && fields.fits v.2

end FieldsFormat

def containerFormat {α : Type} (fields : FieldsFormat α) : Format α where
  encode v := layout offsetCode (fields.parts v)
  fits v := fields.fits v && recordFits (fields.parts v)

/-! ## Field ranges -/

def FieldLayout.shape (l : FieldLayout) : Option Nat :=
  if l.variableSize then none else some l.sizeHint

section Ranges

variable {encoding : Encoding} {layouts : List FieldLayout}

/-- The ranges after the first pass: those of the fixed fields. -/
def fixedRanges : Nat → List FieldLayout → List (Nat × Nat)
  | _, [] => []
  | cursor, l :: ls =>
    if l.variableSize then (0, 0) :: fixedRanges (cursor + bytesPerLengthOffset) ls
    else (cursor, cursor + l.sizeHint) :: fixedRanges (cursor + l.sizeHint) ls

/-- The positions of the variable fields, counted from `k`. -/
def variableFields : Nat → List FieldLayout → List Nat
  | _, [] => []
  | k, l :: ls => if l.variableSize then k :: variableFields (k + 1) ls else variableFields (k + 1) ls

theorem shape_variable (hvar : l.variableSize = true) : l.shape = none :=
  if_pos hvar

theorem shape_fixed (hvar : l.variableSize = false) : l.shape = some l.sizeHint := by
  unfold FieldLayout.shape
  rw [hvar]
  rfl

/-- The scan behind a field, when the input is long enough for it. -/
def scanned (encoding : Encoding) (scan : FieldScan) (field : FieldLayout × Nat) : FieldScan :=
  let stop := scan.cursor + shapeWidth offsetCode field.1.shape
  if field.1.variableSize then
    ⟨stop, scan.ranges, scan.variableFields ++ [field.2],
      scan.variableOffsets ++ [offsetCode.read (piece encoding scan.cursor stop)]⟩
  else ⟨stop, scan.ranges.set field.2 (scan.cursor, stop), scan.variableFields,
    scan.variableOffsets⟩

theorem scanned_cursor (encoding : Encoding) (scan : FieldScan) (field : FieldLayout × Nat) :
    (scanned encoding scan field).cursor =
      scan.cursor + shapeWidth offsetCode field.1.shape := by
  unfold scanned
  dsimp only
  split <;> rfl

theorem scanField_eq_ok {scan scan' : FieldScan} {i : Nat}
    (hsize : scan.cursor + shapeWidth offsetCode l.shape < 2 ^ 64) :
    scanField encoding scan (l, i) = .ok scan' ↔
      scan.cursor + shapeWidth offsetCode l.shape ≤ encoding.length ∧
        scan' = scanned encoding scan (l, i) := by
  unfold scanField scanned
  cases hvar : l.variableSize with
  | true =>
    rw [shape_variable hvar] at hsize ⊢
    simp only [hvar, if_true, bind_eq_ok, readOffsetAt_eq_ok, ensure_eq_ok, pure_eq_ok]
    constructor
    · rintro ⟨_, ⟨-, hle, rfl⟩, _, -, h⟩
      exact ⟨hle, (Except.ok.inj h).symm⟩
    · rintro ⟨hle, rfl⟩
      exact ⟨_, ⟨hsize, hle, rfl⟩, (), hsize, rfl⟩
  | false =>
    rw [shape_fixed hvar] at hsize ⊢
    simp only [hvar, Bool.false_eq_true, if_false, bind_eq_ok, ensure_eq_ok, pure_eq_ok]
    constructor
    · rintro ⟨_, -, _, hle, h⟩
      exact ⟨hle, (Except.ok.inj h).symm⟩
    · rintro ⟨hle, rfl⟩
      exact ⟨(), hsize, (), hle, rfl⟩

/-- The first pass succeeds when the head is complete. -/
theorem scan_fields (layouts : List FieldLayout) : ∀ {k : Nat} {scan scan' : FieldScan},
    scan.cursor ≤ encoding.length →
    scan.cursor + headLength offsetCode (layouts.map FieldLayout.shape) < 2 ^ 64 →
    ((layouts.zipIdx k).foldlM (scanField encoding) scan = .ok scan' ↔
      scan.cursor + headLength offsetCode (layouts.map FieldLayout.shape) ≤ encoding.length ∧
        scan' = (layouts.zipIdx k).foldl (scanned encoding) scan) := by
  induction layouts with
  | nil =>
    intro k scan scan' hcursor _
    exact ⟨fun h => ⟨hcursor, (Except.ok.inj h).symm⟩, fun h => congrArg _ h.2.symm⟩
  | cons l ls ih =>
    intro k scan scan' hcursor hsize
    rw [List.zipIdx_cons, foldlM_cons_eq_ok, List.foldl_cons]
    rw [List.map_cons, headLength_cons, ← Nat.add_assoc] at hsize ⊢
    have hnext := scanned_cursor encoding scan (l, k)
    constructor
    · rintro ⟨_, hstep, hrest⟩
      obtain ⟨hle, rfl⟩ := (scanField_eq_ok (by omega)).1 hstep
      rw [ih (hnext.trans_le hle) (by rw [hnext]; exact hsize), hnext] at hrest
      exact hrest
    · rintro ⟨hend, h⟩
      refine ⟨_, (scanField_eq_ok (by omega)).2 ⟨by omega, rfl⟩, ?_⟩
      rw [ih (by rw [hnext]; dsimp only; omega) (by rw [hnext]; exact hsize), hnext]
      exact ⟨hend, h⟩

theorem set_append_length {γ : Type} (done rest : List γ) (x y : γ) :
    (done ++ x :: rest).set done.length y = (done ++ [y]) ++ rest := by
  rw [List.set_append_right _ _ le_rfl, Nat.sub_self, List.set_cons_zero, List.append_assoc]
  rfl

/-- The first pass reads the head. -/
theorem foldl_scanned (encoding : Encoding) (layouts : List FieldLayout) :
    ∀ (cursor : Nat) (done : List (Nat × Nat)) (fields offsets : List Nat),
      (layouts.zipIdx done.length).foldl (scanned encoding)
        ⟨cursor, done ++ List.replicate layouts.length (0, 0), fields, offsets⟩ =
      ⟨cursor + headLength offsetCode (layouts.map FieldLayout.shape),
        done ++ fixedRanges cursor layouts, fields ++ variableFields done.length layouts,
        offsets ++ offsetsAt offsetCode encoding cursor (layouts.map FieldLayout.shape)⟩ := by
  induction layouts with
  | nil =>
    intro cursor done fields offsets
    simp [fixedRanges, variableFields, offsetsAt]
  | cons l ls ih =>
    intro cursor done fields offsets
    rw [List.zipIdx_cons, List.foldl_cons, List.map_cons, headLength_cons, ← Nat.add_assoc,
      List.length_cons, List.replicate_succ]
    unfold scanned fixedRanges variableFields
    cases hvar : l.variableSize with
    | true =>
      have hrest := ih (cursor + 4) (done ++ [(0, 0)]) (fields ++ [done.length])
        (offsets ++ [offsetCode.read (piece encoding cursor (cursor + 4))])
      rw [List.length_append, List.append_assoc, List.append_assoc, List.append_assoc,
        List.append_assoc] at hrest
      rw [shape_variable hvar]
      exact hrest
    | false =>
      have hrest := ih (cursor + l.sizeHint) (done ++ [(cursor, cursor + l.sizeHint)]) fields offsets
      rw [← set_append_length done _ (0, 0), List.length_append, List.append_assoc] at hrest
      rw [shape_fixed hvar]
      exact hrest

/-- The second pass fills in the ranges of the variable fields from the bounds. -/
theorem fill_ranges (layouts : List FieldLayout) :
    ∀ (j cursor : Nat) (done : List (Nat × Nat)) (bounds : List Nat),
      bounds.length = j + (variableFields done.length layouts).length + 1 →
      ((variableFields done.length layouts).zipIdx j).foldlM
        (fun ranges (fieldIndex, variableIndex) => do
          let start ← index bounds variableIndex
          let stop ← index bounds (variableIndex + 1)
          pure (ranges.set fieldIndex (start, stop))) (done ++ fixedRanges cursor layouts) =
      .ok (done ++ spans offsetCode cursor (bounds.drop j) (layouts.map FieldLayout.shape)) := by
  induction layouts with
  | nil => exact fun _ _ _ _ _ => rfl
  | cons l ls ih =>
    intro j cursor done bounds hbounds
    rw [List.map_cons]
    unfold variableFields at hbounds ⊢
    unfold fixedRanges
    cases hvar : l.variableSize with
    | true =>
      rw [hvar, if_pos rfl, List.length_cons] at hbounds
      have hj : j < bounds.length := by omega
      have hj' : j + 1 < bounds.length := by omega
      have hrest := ih (j + 1) (cursor + 4) (done ++ [(bounds[j], bounds[j + 1])]) bounds
        (by rw [List.length_append]; dsimp only [List.length_singleton]; omega)
      rw [← set_append_length done _ (0, 0), List.length_append, List.append_assoc] at hrest
      rw [if_pos rfl, if_pos rfl, List.zipIdx_cons, List.foldlM_cons, shape_variable hvar]
      have hindex : ∀ {i : Nat} (hi : i < bounds.length), index bounds i = .ok bounds[i] := by
        intro i hi
        unfold index
        rw [List.getElem?_eq_getElem hi]
        rfl
      dsimp only
      rw [hindex hj, hindex hj', ok_bind, ok_bind, pure_eq_ok, ok_bind]
      refine hrest.trans ?_
      rw [List.drop_eq_getElem_cons hj, List.drop_eq_getElem_cons hj']
      rfl
    | false =>
      rw [hvar, if_neg Bool.false_ne_true] at hbounds
      have hrest := ih j (cursor + l.sizeHint) (done ++ [(cursor, cursor + l.sizeHint)]) bounds
        (by rw [List.length_append]; exact hbounds)
      rw [List.length_append, List.append_assoc, List.append_assoc] at hrest
      rw [if_neg Bool.false_ne_true, if_neg Bool.false_ne_true, shape_fixed hvar]
      exact hrest

theorem length_variableFields (layouts : List FieldLayout) : ∀ k cursor : Nat,
    (variableFields k layouts).length =
      (offsetsAt offsetCode encoding cursor (layouts.map FieldLayout.shape)).length := by
  induction layouts with
  | nil => exact fun _ _ => rfl
  | cons l ls ih =>
    intro k cursor
    rw [List.map_cons]
    unfold variableFields FieldLayout.shape
    cases l.variableSize with
    | true => exact congrArg Nat.succ (ih _ _)
    | false => exact ih _ _

theorem scan_container {scan : FieldScan}
    (hsize : headLength offsetCode (layouts.map FieldLayout.shape) < 2 ^ 64) :
    layouts.zipIdx.foldlM (scanField encoding)
        ⟨0, List.replicate layouts.length (0, 0), [], []⟩ = .ok scan ↔
      headLength offsetCode (layouts.map FieldLayout.shape) ≤ encoding.length ∧
        scan = ⟨headLength offsetCode (layouts.map FieldLayout.shape), fixedRanges 0 layouts,
          variableFields 0 layouts,
          offsetsAt offsetCode encoding 0 (layouts.map FieldLayout.shape)⟩ := by
  have hfold := foldl_scanned encoding layouts 0 [] [] []
  refine (scan_fields layouts (Nat.zero_le _) (by rwa [Nat.zero_add])).trans ?_
  rw [Nat.zero_add] at hfold ⊢
  exact and_congr_right fun _ => ⟨fun h => h.trans hfold, fun h => h.trans hfold.symm⟩

theorem fill_container (encoding : Encoding) (layouts : List FieldLayout) :
    (variableFields 0 layouts).zipIdx.foldlM (fun ranges (fieldIndex, variableIndex) => do
      let start ← index (offsetsAt offsetCode encoding 0 (layouts.map FieldLayout.shape) ++
        [encoding.length]) variableIndex
      let stop ← index (offsetsAt offsetCode encoding 0 (layouts.map FieldLayout.shape) ++
        [encoding.length]) (variableIndex + 1)
      pure (ranges.set fieldIndex (start, stop))) (fixedRanges 0 layouts) =
    .ok (spans offsetCode 0
      (offsetsAt offsetCode encoding 0 (layouts.map FieldLayout.shape) ++ [encoding.length])
      (layouts.map FieldLayout.shape)) := by
  have hlen : (offsetsAt offsetCode encoding 0 (layouts.map FieldLayout.shape) ++
      [encoding.length]).length = 0 + (variableFields 0 layouts).length + 1 := by
    rw [List.length_append, length_variableFields layouts 0 0, Nat.zero_add]
    rfl
  exact fill_ranges layouts 0 0 [] _ hlen

/-- What the ranges of a container are. -/
theorem containerFieldRanges_eq_ok {ranges : List (Nat × Nat)}
    (hsize : headLength offsetCode (layouts.map FieldLayout.shape) < 2 ^ 64) :
    containerFieldRanges encoding layouts = .ok ranges ↔
      Cuttable offsetCode encoding (layouts.map FieldLayout.shape) ∧
        ranges = spans offsetCode 0
          (offsetsAt offsetCode encoding 0 (layouts.map FieldLayout.shape) ++ [encoding.length])
          (layouts.map FieldLayout.shape) := by
  have hfill := fill_container encoding layouts
  unfold containerFieldRanges
  rw [bind_eq_ok]
  constructor
  · rintro ⟨scan, hscan, h⟩
    obtain ⟨hle, rfl⟩ := (scan_container hsize).1 hscan
    dsimp only at h
    split at h
    · rename_i hempty
      have hoffsets := List.isEmpty_iff.1 hempty
      have hfields : variableFields 0 layouts = [] := by
        rw [← List.length_eq_zero_iff, length_variableFields layouts 0 0, hoffsets]
        rfl
      simp only [bind_eq_ok, ensure_eq_ok, pure_eq_ok] at h
      obtain ⟨_, hend, h⟩ := h
      rw [hfields] at hfill
      refine ⟨⟨hle, ?_, ?_⟩, Except.ok.inj (h.symm.trans hfill)⟩
      · rw [hoffsets, hend]
        rfl
      · rw [hoffsets]
        exact List.isChain_singleton _
    · obtain ⟨bounds, hbounds, h⟩ := bind_eq_ok.1 h
      obtain ⟨rfl, hstart, hchain⟩ := validateVariableOffsets_eq_ok.1 hbounds
      exact ⟨⟨hle, hstart, hchain⟩, Except.ok.inj (h.symm.trans hfill)⟩
  · rintro ⟨hcut, rfl⟩
    refine ⟨_, (scan_container hsize).2 ⟨hcut.head_le, rfl⟩, ?_⟩
    dsimp only
    split
    · rename_i hempty
      have hoffsets := List.isEmpty_iff.1 hempty
      have hfields : variableFields 0 layouts = [] := by
        rw [← List.length_eq_zero_iff, length_variableFields layouts 0 0, hoffsets]
        rfl
      have hstart := hcut.starts
      rw [hoffsets] at hstart
      rw [ensure_of (Option.some.inj hstart).symm]
      rw [hfields] at hfill
      exact hfill
    · exact bind_eq_ok.2
        ⟨_, validateVariableOffsets_eq_ok.2 ⟨rfl, hcut.starts, hcut.ordered⟩, hfill⟩

theorem containerFieldRanges_noPanic
    (hsize : headLength offsetCode (layouts.map FieldLayout.shape) < 2 ^ 64) :
    NoPanic (containerFieldRanges encoding layouts) := by
  refine NoPanic.bind (.foldlM fun scan field _ => ?_) fun scan hscan => ?_
  · unfold scanField
    dsimp only
    split
    · exact NoPanic.bind (readOffsetAt_noPanic _ _) fun _ _ =>
        NoPanic.bind (.ensure _ _) fun _ _ => .ok _
    · exact NoPanic.bind (.ensure _ _) fun _ _ => NoPanic.bind (.ensure _ _) fun _ _ => .ok _
  · obtain ⟨-, rfl⟩ := (scan_container hsize).1 hscan
    split
    · exact NoPanic.bind (.ensure _ _) fun _ _ => .ok _
    · refine NoPanic.bind (validateVariableOffsets_noPanic _ _ _) fun bounds hbounds => ?_
      obtain ⟨rfl, -⟩ := validateVariableOffsets_eq_ok.1 hbounds
      rw [fill_container encoding layouts]
      exact .ok _

end Ranges

/-! ## Fields -/

/-- Every range is in order and inside the encoding. -/
def RangesIn (encoding : Encoding) (ranges : List (Nat × Nat)) : Prop :=
  ∀ r ∈ ranges, r.1 ≤ r.2 ∧ r.2 ≤ encoding.length

/-- The fields' codecs implement the formats of the fields. -/
structure FieldsCodec.Meets {α : Type} (c : FieldsCodec α) (f : FieldsFormat α) : Prop where
  shapes : ∀ v, (f.parts v).map Piece.shape = c.layouts.map FieldLayout.shape
  hints : headLength offsetCode (c.layouts.map FieldLayout.shape) =
    (c.layouts.map (·.sizeHint)).sum
  write_eq : ∀ v (enc : ContainerEncoder), c.write v enc =
    if f.fits v && fits offsetCode (2 ^ 64) enc.variableOffset (f.parts v) then
      .ok ⟨enc.fixed ++ head offsetCode enc.variableOffset (f.parts v),
        enc.payloads ++ tail (f.parts v), enc.fixedSize,
        enc.variableOffset + (tail (f.parts v)).length⟩
    else .error .offsetOverflow
  read_parts : ∀ v (dec : ContainerDecoder), f.fits v = true →
    RangesIn dec.encoding (dec.ranges.drop dec.next) →
    (dec.ranges.drop dec.next).map (fun r => piece dec.encoding r.1 r.2) =
      (f.parts v).map Piece.body → ∃ dec', c.read dec = .ok (v, dec')
  of_read : ∀ v (dec dec' : ContainerDecoder), dec.encoding.length < 2 ^ 61 →
    RangesIn dec.encoding (dec.ranges.drop dec.next) →
    (dec.ranges.drop dec.next).length = c.layouts.length → c.read dec = .ok (v, dec') →
    f.fits v = true ∧ (f.parts v).map Piece.body =
      (dec.ranges.drop dec.next).map fun r => piece dec.encoding r.1 r.2
  no_panic : ∀ dec : ContainerDecoder, dec.encoding.length < 2 ^ 61 →
    RangesIn dec.encoding (dec.ranges.drop dec.next) → NoPanic (c.read dec)

theorem FieldsCodec.nil_meets : FieldsCodec.nil.Meets FieldsFormat.nil where
  shapes _ := rfl
  hints := rfl
  write_eq v enc := by
    show Except.ok enc = Except.ok (⟨enc.fixed ++ [], enc.payloads ++ [], enc.fixedSize, _⟩)
    rw [List.append_nil, List.append_nil]
    rfl
  read_parts v dec _ _ _ := ⟨dec, rfl⟩
  of_read v dec dec' _ _ hlen _ := by
    refine ⟨rfl, ?_⟩
    rw [List.length_eq_zero_iff.1 hlen]
    rfl
  no_panic dec _ _ := .ok _

section Cons

variable {α β : Type} {c : Codec α} {c' : FieldsCodec β} {f : Format α}

theorem writeField_variable (hc : c.Meets f) (hvar : c.isVariableSize = true) (v : α)
    (enc : ContainerEncoder) : enc.writeField c v =
      if f.fits v && (decide (enc.variableOffset < 2 ^ 32) &&
        decide (enc.variableOffset + (f.encode v).length < 2 ^ 64)) then
        .ok ⟨enc.fixed ++ offsetCode.write enc.variableOffset, enc.payloads ++ f.encode v,
          enc.fixedSize, enc.variableOffset + (f.encode v).length⟩
      else .error .offsetOverflow := by
  unfold ContainerEncoder.writeField
  rw [if_pos hvar]
  exact serialize_variable hc v enc.fixed enc.payloads enc.variableOffset
    fun fixed rest written =>
      pure (ContainerEncoder.mk fixed rest enc.fixedSize (enc.variableOffset + written))

theorem writeField_fixed (hc : c.Meets f) (hvar : c.isVariableSize = false) (v : α)
    (enc : ContainerEncoder) : enc.writeField c v =
      if f.fits v then .ok ⟨enc.fixed ++ f.encode v, enc.payloads, enc.fixedSize,
        enc.variableOffset⟩
      else .error .offsetOverflow := by
  unfold ContainerEncoder.writeField
  rw [hvar, if_neg Bool.false_ne_true, hc.serialize_eq]
  split <;> rfl

/-- The first field is read from the next range, the others from the ranges behind it. -/
theorem cons_read (hdrop : dec.ranges.drop dec.next = r :: rest)
    (hr : r.1 ≤ r.2 ∧ r.2 ≤ dec.encoding.length) :
    (FieldsCodec.cons c c').read dec = (do
      let value ← c.deserialize (piece dec.encoding r.1 r.2)
      let (values, dec) ← c'.read { dec with next := dec.next + 1 }
      pure ((value, values), dec)) := by
  have hrange : dec.ranges[dec.next]? = some r := by
    rw [← List.head?_drop, hdrop]
    rfl
  unfold FieldsCodec.cons ContainerDecoder.deserializeNext sliceRange
  dsimp only
  rw [hrange, okOr_some, ok_bind, ensure_of hr, ok_bind, pure_eq_ok, ok_bind]
  cases c.deserialize (piece dec.encoding r.1 r.2) <;> rfl

theorem drop_next (hdrop : dec.ranges.drop dec.next = r :: rest) :
    dec.ranges.drop (dec.next + 1) = rest := by
  rw [← List.drop_drop, hdrop]
  rfl

theorem fieldLayout_shape (hc : c.Meets f) (v : α) :
    (⟨c.isVariableSize, f.encode v⟩ : Piece U8).shape = (fieldLayout c).shape := by
  unfold Piece.shape FieldLayout.shape fieldLayout
  cases hvar : c.isVariableSize with
  | true => rfl
  | false => exact congrArg some (hc.length_encode hvar v)

theorem FieldsCodec.cons_meets {f' : FieldsFormat β} (hc : c.Meets f) (hc' : c'.Meets f') :
    (FieldsCodec.cons c c').Meets (.cons c.isVariableSize f f') where
  shapes v := by
    show Piece.shape ⟨c.isVariableSize, f.encode v.1⟩ :: (f'.parts v.2).map Piece.shape =
      (fieldLayout c).shape :: c'.layouts.map FieldLayout.shape
    rw [hc'.shapes, fieldLayout_shape hc v.1]
  hints := by
    show shapeWidth offsetCode (fieldLayout c).shape +
      headLength offsetCode (c'.layouts.map FieldLayout.shape) =
        (fieldLayout c).sizeHint + (c'.layouts.map (·.sizeHint)).sum
    rw [hc'.hints]
    congr 1
    unfold FieldLayout.shape fieldLayout
    cases c.isVariableSize <;> rfl
  write_eq v enc := by
    show (enc.writeField c v.1 >>= fun enc => c'.write v.2 enc) = if (f.fits v.1 && f'.fits v.2) &&
      fits offsetCode (2 ^ 64) enc.variableOffset
        (⟨c.isVariableSize, f.encode v.1⟩ :: f'.parts v.2) then .ok ⟨enc.fixed ++
          head offsetCode enc.variableOffset (⟨c.isVariableSize, f.encode v.1⟩ :: f'.parts v.2),
          enc.payloads ++ tail (⟨c.isVariableSize, f.encode v.1⟩ :: f'.parts v.2), _, _⟩ else _
    cases hvar : c.isVariableSize with
    | true =>
      rw [writeField_variable hc hvar, and_fits_variable]
      simp only [head, tail, if_true]
      cases f.fits v.1 && (decide (enc.variableOffset < 2 ^ 32) &&
        decide (enc.variableOffset + (f.encode v.1).length < 2 ^ 64)) with
      | false => rfl
      | true =>
        have htail : (tail ((FieldsFormat.cons true f f').parts v)).length =
            (f.encode v.1).length + (tail (f'.parts v.2)).length :=
          List.length_append
        rw [if_pos rfl, ok_bind, hc'.write_eq, Bool.true_and, htail]
        simp only [List.append_assoc, Nat.add_assoc]
    | false =>
      rw [writeField_fixed hc hvar]
      simp only [fits, head, tail, Bool.false_eq_true, if_false]
      cases f.fits v.1 with
      | false => rfl
      | true =>
        rw [if_pos rfl, ok_bind, hc'.write_eq, Bool.true_and, List.append_assoc]
        rfl
  read_parts v dec hfits hin hparts := by
    obtain ⟨hfits, hfits'⟩ := Bool.and_eq_true_iff.1 hfits
    cases hdrop : dec.ranges.drop dec.next with
    | nil =>
      rw [hdrop] at hparts
      cases hparts
    | cons r rest =>
      rw [hdrop] at hparts hin
      obtain ⟨hbody, hbodies⟩ := List.cons.inj hparts
      have hrest := drop_next hdrop
      obtain ⟨dec', hread⟩ := hc'.read_parts v.2 { dec with next := dec.next + 1 } hfits'
        (by rw [hrest]; exact fun q hq => hin q (List.mem_cons_of_mem _ hq))
        (by rw [hrest]; exact hbodies)
      refine ⟨dec', ?_⟩
      have hbody : piece dec.encoding r.1 r.2 = f.encode v.1 := hbody
      rw [cons_read hdrop (hin r List.mem_cons_self), hbody, hc.deserialize_encode v.1 hfits,
        ok_bind, hread]
      rfl
  of_read v dec dec' hlen hin hcount hread := by
    cases hdrop : dec.ranges.drop dec.next with
    | nil =>
      rw [hdrop] at hcount
      cases hcount
    | cons r rest =>
      rw [hdrop] at hcount hin
      have hrest := drop_next hdrop
      rw [cons_read hdrop (hin r List.mem_cons_self)] at hread
      simp only [bind_eq_ok, pure_eq_ok] at hread
      obtain ⟨value, hvalue, ⟨values, dec''⟩, hvalues, h⟩ := hread
      cases h
      obtain ⟨hfits, hencode⟩ := hc.of_deserialize _ _ ((length_piece_le _ _ _).trans_lt hlen) hvalue
      obtain ⟨hfits', hbodies⟩ := hc'.of_read _ { dec with next := dec.next + 1 } _ hlen
        (by rw [hrest]; exact fun q hq => hin q (List.mem_cons_of_mem _ hq))
        (by rw [hrest]; exact Nat.succ.inj hcount) hvalues
      refine ⟨Bool.and_eq_true_iff.2 ⟨hfits, hfits'⟩, ?_⟩
      rw [hrest] at hbodies
      show f.encode value :: (f'.parts values).map Piece.body = _
      rw [hencode, hbodies]
      rfl
  no_panic dec hlen hin := by
    cases hdrop : dec.ranges.drop dec.next with
    | nil =>
      have hrange : dec.ranges[dec.next]? = none := by
        rw [← List.head?_drop, hdrop]
        rfl
      unfold FieldsCodec.cons ContainerDecoder.deserializeNext
      dsimp only
      rw [hrange]
      exact .error _
    | cons r rest =>
      rw [hdrop] at hin
      rw [cons_read hdrop (hin r List.mem_cons_self)]
      refine NoPanic.bind (hc.no_panic _ ((length_piece_le _ _ _).trans_lt hlen)) fun _ _ =>
        NoPanic.bind (hc'.no_panic _ hlen ?_) fun _ _ => .ok _
      rw [drop_next hdrop]
      exact fun q hq => hin q (List.mem_cons_of_mem _ hq)

end Cons

/-! ## Containers -/

theorem foldl_sizeHint (layouts : List FieldLayout) : ∀ sum : Nat,
    sum + (layouts.map (·.sizeHint)).sum < 2 ^ 64 →
    layouts.foldl (fun sum field => usize (sum + field.sizeHint)) sum =
      sum + (layouts.map (·.sizeHint)).sum := by
  induction layouts with
  | nil => exact fun _ _ => rfl
  | cons l ls ih =>
    intro sum hsum
    rw [List.map_cons, List.sum_cons, ← Nat.add_assoc] at hsum ⊢
    have husize : usize (sum + l.sizeHint) = sum + l.sizeHint :=
      Nat.mod_eq_of_lt (by omega)
    rw [List.foldl_cons, husize]
    exact ih _ hsum

theorem containerSizeHint_eq {layouts : List FieldLayout}
    (hsize : (layouts.map (·.sizeHint)).sum < 2 ^ 64) :
    containerSizeHint layouts = (layouts.map (·.sizeHint)).sum := by
  refine (foldl_sizeHint layouts 0 ?_).trans (Nat.zero_add _)
  rwa [Nat.zero_add]

theorem finish_eq {enc : ContainerEncoder} (hfixed : enc.fixed.length = enc.fixedSize)
    (htotal : enc.fixedSize + enc.payloads.length < 2 ^ 64) (buffer : Encoding) :
    enc.finish buffer =
      .ok (buffer ++ (enc.fixed ++ enc.payloads), (enc.fixed ++ enc.payloads).length) := by
  rw [← hfixed] at htotal
  unfold ContainerEncoder.finish
  rw [ensure_of hfixed, ok_bind, ensure_of htotal, ok_bind, List.length_append, List.append_assoc]
  rfl

section Container

variable {α : Type} {c : FieldsCodec α} {f : FieldsFormat α}

/-- The head of a container is as long as the code's size hint says. -/
theorem headLength_parts (hc : c.Meets f) (hsize : (c.layouts.map (·.sizeHint)).sum < 2 ^ 64)
    (v : α) : headLength offsetCode ((f.parts v).map Piece.shape) = containerSizeHint c.layouts := by
  rw [hc.shapes, hc.hints, containerSizeHint_eq hsize]

theorem container_serialize_eq (hc : c.Meets f)
    (hsize : (c.layouts.map (·.sizeHint)).sum < 2 ^ 64) (v : α) (buffer : Encoding) :
    (containerCodec c).serialize v buffer =
      if (containerFormat f).fits v then
        .ok (buffer ++ (containerFormat f).encode v, ((containerFormat f).encode v).length)
      else .error .offsetOverflow := by
  have hhead := headLength_parts hc hsize v
  have hhint : containerSizeHint c.layouts < 2 ^ 64 := by
    rw [containerSizeHint_eq hsize]
    exact hsize
  have hfits : (containerFormat f).fits v = (f.fits v &&
      fits offsetCode (2 ^ 64) (containerSizeHint c.layouts) (f.parts v)) := by
    rw [← hhead]
    rfl
  show (c.write v (.new (containerSizeHint c.layouts)) >>= fun enc => enc.finish buffer) = _
  rw [hc.write_eq, hfits, show (ContainerEncoder.new (containerSizeHint c.layouts)).variableOffset =
    containerSizeHint c.layouts from rfl]
  cases hcond : f.fits v && fits offsetCode (2 ^ 64) (containerSizeHint c.layouts) (f.parts v) with
  | false => rfl
  | true =>
    have hlen := length_head (w := offsetCode) (containerSizeHint c.layouts) (f.parts v)
    rw [hhead] at hlen
    have htotal := add_length_tail_lt hhint (Bool.and_eq_true_iff.1 hcond).2
    have hencode : (containerFormat f).encode v =
        head offsetCode (containerSizeHint c.layouts) (f.parts v) ++ tail (f.parts v) := by
      rw [← hhead]
      rfl
    rw [if_pos rfl, if_pos rfl, ok_bind, finish_eq hlen htotal, hencode]
    rfl

/-- Where the decoder stands when it has found the ranges of all fields. -/
theorem decoder_new_eq_ok (hc : c.Meets f) (hsize : (c.layouts.map (·.sizeHint)).sum < 2 ^ 64)
    {encoding : Encoding} (hnew : ContainerDecoder.new encoding c.layouts = .ok dec) :
    Cuttable offsetCode encoding (c.layouts.map FieldLayout.shape) ∧ dec.encoding = encoding ∧
      RangesIn encoding (dec.ranges.drop dec.next) ∧
      (dec.ranges.drop dec.next).length = c.layouts.length ∧
      ((dec.ranges.drop dec.next).map fun r => piece encoding r.1 r.2) =
        (partsOf offsetCode encoding (c.layouts.map FieldLayout.shape)).map Piece.body := by
  unfold ContainerDecoder.new at hnew
  obtain ⟨ranges, hranges, hdec⟩ := bind_eq_ok.1 hnew
  cases hdec
  obtain ⟨hcut, rfl⟩ := (containerFieldRanges_eq_ok (hc.hints.trans_lt hsize)).1 hranges
  refine ⟨hcut, rfl, hcut.recut.spans_le, ?_, (map_body_partsAt _ _ _ _).symm⟩
  rw [List.drop_zero, length_spans, List.length_map]

theorem decoder_new_of_cuttable (hc : c.Meets f) (hsize : (c.layouts.map (·.sizeHint)).sum < 2 ^ 64)
    {encoding : Encoding} (hcut : Cuttable offsetCode encoding (c.layouts.map FieldLayout.shape)) :
    ∃ dec, ContainerDecoder.new encoding c.layouts = .ok dec :=
  ⟨_, bind_eq_ok.2 ⟨_, (containerFieldRanges_eq_ok (hc.hints.trans_lt hsize)).2 ⟨hcut, rfl⟩, rfl⟩⟩

theorem containerCodec_meets (hc : c.Meets f) (hsize : (c.layouts.map (·.sizeHint)).sum < 2 ^ 64) :
    (containerCodec c).Meets (containerFormat f) where
  serialize_eq := container_serialize_eq hc hsize
  deserialize_encode v hfits := by
    obtain ⟨hfits, hrecord⟩ := Bool.and_eq_true_iff.1 hfits
    have hcut := cuttable_layout hrecord
    have hparts := partsOf_layout hrecord
    rw [hc.shapes] at hcut hparts
    obtain ⟨dec, hnew⟩ := decoder_new_of_cuttable hc hsize hcut
    obtain ⟨-, henc, hin, -, hbodies⟩ := decoder_new_eq_ok hc hsize hnew
    rw [hparts] at hbodies
    rw [← henc] at hin hbodies
    obtain ⟨dec', hread⟩ := hc.read_parts v dec hfits hin hbodies
    exact bind_eq_ok.2 ⟨dec, hnew, bind_eq_ok.2 ⟨_, hread, rfl⟩⟩
  of_deserialize encoding v hlen hdec := by
    obtain ⟨dec, hnew, h⟩ := bind_eq_ok.1 hdec
    obtain ⟨⟨value, dec'⟩, hread, h⟩ := bind_eq_ok.1 h
    cases h
    obtain ⟨hcut, rfl, hin, hcount, hbodies⟩ := decoder_new_eq_ok hc hsize hnew
    obtain ⟨hfits, hparts⟩ := hc.of_read _ dec dec' hlen hin hcount hread
    -- The parts of the value are the parts the encoding is cut into.
    have hparts : f.parts v =
        partsOf offsetCode dec.encoding (c.layouts.map FieldLayout.shape) :=
      ext_parts ((hc.shapes v).trans hcut.map_shape.symm) (hparts.trans hbodies)
    refine ⟨Bool.and_eq_true_iff.2 ⟨hfits, ?_⟩, ?_⟩
    · unfold recordFits
      rw [hc.shapes, hparts]
      exact hcut.fits_partsOf (by omega)
    · show layout offsetCode (f.parts v) = _
      rw [hparts]
      exact hcut.layout_partsOf
  no_panic encoding hlen := by
    refine NoPanic.bind (NoPanic.bind
      (containerFieldRanges_noPanic (hc.hints.trans_lt hsize)) fun _ _ => .ok _) fun dec hnew => ?_
    obtain ⟨-, rfl, hin, -, -⟩ := decoder_new_eq_ok hc hsize hnew
    exact NoPanic.bind (hc.no_panic dec hlen hin) fun _ _ => .ok _
  length_encode hfixed v := by
    have htail : tail (f.parts v) = [] := by
      refine tail_eq_nil fun p hp => ?_
      have hshape : p.shape ∈ c.layouts.map FieldLayout.shape := by
        rw [← hc.shapes v]
        exact List.mem_map_of_mem hp
      obtain ⟨l, hl, hl'⟩ := List.mem_map.1 hshape
      have hvar : l.variableSize = false :=
        Bool.eq_false_iff.2 (List.any_eq_false.1 hfixed l hl)
      unfold FieldLayout.shape Piece.shape at hl'
      cases hp : p.isVariable with
      | false => rfl
      | true => simp [hvar, hp] at hl'
    show (layout offsetCode (f.parts v)).length = containerSizeHint c.layouts
    rw [layout, List.length_append, length_head, htail, headLength_parts hc hsize]
    rfl

end Container

end Moonglass.Ssz
