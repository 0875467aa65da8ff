import Mathlib.Data.List.Chain
import Mathlib.Algebra.GroupWithZero.Nat

/-
  Layouts with an offset table. A record is a sequence of parts. A part of known length stands in
  the head of the layout; any other part leaves there only the offset of its body, and the bodies
  follow the head in order. Reading a layout back takes the lengths of the known parts and the
  offsets: when these are in order, begin where the head ends and stay inside the input, the parts
  they cut out are laid out to exactly that input.
-/

namespace Moonglass.Lib

variable {β : Type}

/-! ## Pieces -/

/-- The symbols from place `a` up to place `b`. -/
def piece (l : List β) (a b : Nat) : List β := (l.drop a).take (b - a)

section Piece

variable {l : List β} {a b c : Nat}

theorem length_piece (hb : b ≤ l.length) : (piece l a b).length = b - a := by
  unfold piece
  rw [List.length_take, List.length_drop]
  omega

theorem length_piece_le (l : List β) (a b : Nat) : (piece l a b).length ≤ l.length := by
  unfold piece
  rw [List.length_take, List.length_drop]
  omega

@[simp] theorem piece_self (l : List β) (a : Nat) : piece l a a = [] := by
  simp [piece]

theorem piece_append (hab : a ≤ b) (hbc : b ≤ c) : piece l a b ++ piece l b c = piece l a c := by
  have hlen : c - a = (b - a) + (c - b) := by omega
  unfold piece
  rw [hlen, List.take_add, List.drop_drop, Nat.add_sub_cancel' hab]

theorem piece_zero_append_drop (l : List β) (a : Nat) : piece l 0 a ++ l.drop a = l := by
  simp [piece]

theorem piece_length (l : List β) (a : Nat) : piece l a l.length = l.drop a := by
  unfold piece
  exact List.take_of_length_le (by simp)

theorem piece_middle {pre body post : List β} (hl : l = pre ++ (body ++ post))
    (ha : a = pre.length) : piece l a (a + body.length) = body := by
  rw [hl, ha]
  simp [piece]

end Piece

/-! ## Layouts -/

/-- Numbers below a bound, written in words of one width. -/
structure WordCode (β : Type) where
  width : Nat
  bound : Nat
  write : Nat → List β
  read : List β → Nat
  length_write : ∀ n, (write n).length = width
  read_write : ∀ n, n < bound → read (write n) = n
  read_lt : ∀ l, l.length = width → read l < bound
  write_read : ∀ l, l.length = width → write (read l) = l

/-- A part of a record: its body, and whether only an offset of it stands in the head. -/
structure Piece (β : Type) where
  isVariable : Bool
  body : List β

/-- What the reader knows of a part: its length, if it stands in the head. -/
def Piece.shape (p : Piece β) : Option Nat := if p.isVariable then none else some p.body.length

/-- Parts are determined by their shapes and bodies. -/
theorem ext_parts {ps qs : List (Piece β)} (hshape : ps.map Piece.shape = qs.map Piece.shape)
    (hbody : ps.map Piece.body = qs.map Piece.body) : ps = qs := by
  induction ps generalizing qs with
  | nil =>
    cases qs with
    | nil => rfl
    | cons q qs => cases hshape
  | cons p ps ih =>
    cases qs with
    | nil => cases hshape
    | cons q qs =>
      obtain ⟨hshape, hshapes⟩ := List.cons.inj hshape
      obtain ⟨hbody, hbodies⟩ := List.cons.inj hbody
      have hpq : p = q := by
        obtain ⟨pv, pb⟩ := p
        obtain ⟨qv, qb⟩ := q
        cases hbody
        cases pv <;> cases qv <;> simp_all [Piece.shape]
      rw [hpq, ih hshapes hbodies]

section Layout

variable (w : WordCode β)

/-- The room a part takes in the head. -/
def shapeWidth : Option Nat → Nat
  | none => w.width
  | some n => n

def headLength (shapes : List (Option Nat)) : Nat := (shapes.map (shapeWidth w)).sum

/-- The head, when the first body stands at `offset`. -/
def head : Nat → List (Piece β) → List β
  | _, [] => []
  | offset, p :: ps =>
    if p.isVariable then w.write offset ++ head (offset + p.body.length) ps
    else p.body ++ head offset ps

/-- The bodies behind the head. -/
def tail : List (Piece β) → List β
  | [] => []
  | p :: ps => if p.isVariable then p.body ++ tail ps else tail ps

def layout (ps : List (Piece β)) : List β :=
  head w (headLength w (ps.map Piece.shape)) ps ++ tail ps

/-- Every offset can be written as a word, and every body ends below `limit`. -/
def fits (limit : Nat) : Nat → List (Piece β) → Bool
  | _, [] => true
  | offset, p :: ps =>
    if p.isVariable then
      decide (offset < w.bound) && decide (offset + p.body.length < limit) &&
        fits limit (offset + p.body.length) ps
    else fits limit offset ps

/-- Where the bodies begin, and where the last one ends. -/
def bodyBounds : Nat → List (Piece β) → List Nat
  | offset, [] => [offset]
  | offset, p :: ps =>
    if p.isVariable then offset :: bodyBounds (offset + p.body.length) ps else bodyBounds offset ps

/-! ## Reading -/

/-- The offsets in a head that begins at `cursor`. -/
def offsetsAt (l : List β) : Nat → List (Option Nat) → List Nat
  | _, [] => []
  | cursor, none :: ss =>
    w.read (piece l cursor (cursor + w.width)) :: offsetsAt l (cursor + w.width) ss
  | cursor, some n :: ss => offsetsAt l (cursor + n) ss

/-- The places of the parts, given the bounds of the bodies. -/
def spans : Nat → List Nat → List (Option Nat) → List (Nat × Nat)
  | _, _, [] => []
  | cursor, bounds, none :: ss =>
    (bounds.headD 0, bounds.tail.headD 0) :: spans (cursor + w.width) bounds.tail ss
  | cursor, bounds, some n :: ss => (cursor, cursor + n) :: spans (cursor + n) bounds ss

/-- The parts at those places. -/
def partsAt (l : List β) (cursor : Nat) (bounds : List Nat) (shapes : List (Option Nat)) :
    List (Piece β) :=
  (shapes.zip (spans w cursor bounds shapes)).map fun (shape, span) =>
    ⟨shape.isNone, piece l span.1 span.2⟩

/-- The input can be cut: its head is complete, and the bounds of the bodies begin at its end and
are in order. -/
structure Cuttable (l : List β) (shapes : List (Option Nat)) : Prop where
  head_le : headLength w shapes ≤ l.length
  starts : (offsetsAt w l 0 shapes ++ [l.length]).head? = some (headLength w shapes)
  ordered : (offsetsAt w l 0 shapes ++ [l.length]).IsChain (· ≤ ·)

variable {w}

@[simp] theorem headLength_nil : headLength w [] = 0 := rfl

@[simp] theorem headLength_cons (s : Option Nat) (ss : List (Option Nat)) :
    headLength w (s :: ss) = shapeWidth w s + headLength w ss := rfl

theorem headLength_replicate (n : Nat) (shape : Option Nat) :
    headLength w (List.replicate n shape) = n * shapeWidth w shape := by
  simp [headLength]

theorem length_head (offset : Nat) (ps : List (Piece β)) :
    (head w offset ps).length = headLength w (ps.map Piece.shape) := by
  induction ps generalizing offset with
  | nil => rfl
  | cons p ps ih =>
    unfold head
    split <;> rename_i hvar <;> simp [Piece.shape, hvar, shapeWidth, w.length_write, ih]

theorem bodyBounds_head? (offset : Nat) (ps : List (Piece β)) :
    (bodyBounds offset ps).head? = some offset := by
  induction ps with
  | nil => rfl
  | cons p ps ih =>
    unfold bodyBounds
    split
    · rfl
    · exact ih

theorem bodyBounds_ordered (offset : Nat) (ps : List (Piece β)) :
    (bodyBounds offset ps).IsChain (· ≤ ·) := by
  induction ps generalizing offset with
  | nil => exact List.isChain_singleton _
  | cons p ps ih =>
    unfold bodyBounds
    split
    · refine List.isChain_cons.2 ⟨fun next hnext => ?_, ih _⟩
      rw [bodyBounds_head?] at hnext
      cases hnext
      exact Nat.le_add_right _ _
    · exact ih offset

theorem partsAt_none (l : List β) (cursor : Nat) (bounds : List Nat) (ss : List (Option Nat)) :
    partsAt w l cursor bounds (none :: ss) =
      ⟨true, piece l (bounds.headD 0) (bounds.tail.headD 0)⟩ ::
        partsAt w l (cursor + w.width) bounds.tail ss := rfl

theorem partsAt_some (l : List β) (cursor n : Nat) (bounds : List Nat) (ss : List (Option Nat)) :
    partsAt w l cursor bounds (some n :: ss) =
      ⟨false, piece l cursor (cursor + n)⟩ :: partsAt w l (cursor + n) bounds ss := rfl

theorem length_spans (shapes : List (Option Nat)) : ∀ (cursor : Nat) (bounds : List Nat),
    (spans w cursor bounds shapes).length = shapes.length := by
  induction shapes with
  | nil => exact fun _ _ => rfl
  | cons shape ss ih =>
    intro cursor bounds
    cases shape with
    | none => exact congrArg Nat.succ (ih _ _)
    | some n => exact congrArg Nat.succ (ih _ _)

/-- The bodies are the pieces of the input at the spans. -/
theorem map_body_partsAt (l : List β) (cursor : Nat) (bounds : List Nat)
    (shapes : List (Option Nat)) : (partsAt w l cursor bounds shapes).map Piece.body =
      (spans w cursor bounds shapes).map fun span => piece l span.1 span.2 := by
  unfold partsAt
  rw [List.map_map]
  have hbody : (Piece.body ∘ fun ((shape, span) : Option Nat × (Nat × Nat)) =>
      (⟨shape.isNone, piece l span.1 span.2⟩ : Piece β)) =
      (fun span => piece l span.1 span.2) ∘ Prod.snd := rfl
  rw [hbody, ← List.map_map, List.map_snd_zip (length_spans shapes cursor bounds).le]

variable {ps : List (Piece β)}

/-- A record whose parts all stand in the head has no tail. -/
theorem tail_eq_nil (h : ∀ p ∈ ps, p.isVariable = false) : tail ps = [] := by
  induction ps with
  | nil => rfl
  | cons p ps ih =>
    unfold tail
    rw [h p List.mem_cons_self]
    exact ih fun q hq => h q (List.mem_cons_of_mem _ hq)

theorem length_body_le {l : List β} {bounds : List Nat} {shapes : List (Option Nat)} {p : Piece β}
    {cursor : Nat} (hp : p ∈ partsAt w l cursor bounds shapes) : p.body.length ≤ l.length := by
  obtain ⟨⟨shape, span⟩, -, rfl⟩ := List.mem_map.1 hp
  exact length_piece_le _ _ _

/-- The bodies that fit end below the limit. -/
theorem add_length_tail_lt {limit offset : Nat} (hoffset : offset < limit)
    (h : fits w limit offset ps = true) : offset + (tail ps).length < limit := by
  induction ps generalizing offset with
  | nil => exact hoffset
  | cons p ps ih =>
    unfold fits at h
    unfold tail
    split at h <;> rename_i hvar
    · simp only [Bool.and_eq_true, decide_eq_true_eq] at h
      have hrest := ih h.1.2 h.2
      rw [if_pos hvar, List.length_append]
      omega
    · rw [if_neg hvar]
      exact ih hoffset h

/-! ## What is laid out is read back -/

/-- Reading in the middle: the head so far is in `pre`, the bodies so far are in `mid`. -/
theorem read_middle {limit : Nat} (ps : List (Piece β)) :
    ∀ {l pre mid : List β} {offset : Nat}, fits w limit offset ps = true →
      l = pre ++ (head w offset ps ++ (mid ++ tail ps)) →
      offset = pre.length + (head w offset ps).length + mid.length →
      offsetsAt w l pre.length (ps.map Piece.shape) ++ [l.length] = bodyBounds offset ps ∧
        partsAt w l pre.length (bodyBounds offset ps) (ps.map Piece.shape) = ps := by
  induction ps with
  | nil =>
    intro l pre mid offset _ hl hoffset
    have hend : l.length = offset := by
      rw [hl, hoffset]
      simp [tail, head]
    exact ⟨by rw [hend]; rfl, rfl⟩
  | cons p ps ih =>
    intro l pre mid offset hfits hl hoffset
    obtain ⟨isVariable, body⟩ := p
    cases isVariable with
    | false =>
      have hl' : l = (pre ++ body) ++ (head w offset ps ++ (mid ++ tail ps)) := by
        rw [hl]
        simp [head, tail]
      have hoffset' : offset =
          (pre ++ body).length + (head w offset ps).length + mid.length := by
        simp only [head, Bool.false_eq_true, if_false, List.length_append] at hoffset ⊢
        omega
      obtain ⟨hbounds, hparts⟩ := ih hfits hl' hoffset'
      rw [List.length_append] at hbounds hparts
      refine ⟨hbounds, ?_⟩
      show partsAt w l pre.length (bodyBounds offset ps) (some body.length :: ps.map Piece.shape) = _
      have hbody : piece l pre.length (pre.length + body.length) = body :=
        piece_middle (hl'.trans (List.append_assoc _ _ _)) rfl
      rw [partsAt_some, hparts, hbody]
    | true =>
      simp only [fits, if_true, Bool.and_eq_true, decide_eq_true_eq] at hfits
      obtain ⟨⟨hbound, -⟩, hfits⟩ := hfits
      simp only [head, if_true, List.length_append, w.length_write] at hoffset
      have hl' : l = (pre ++ w.write offset) ++ (head w (offset + body.length) ps ++
          ((mid ++ body) ++ tail ps)) := by
        rw [hl]
        simp [head, tail]
      have hoffset' : offset + body.length = (pre ++ w.write offset).length +
          (head w (offset + body.length) ps).length + (mid ++ body).length := by
        simp only [List.length_append, w.length_write]
        omega
      obtain ⟨hbounds, hparts⟩ := ih hfits hl' hoffset'
      rw [List.length_append, w.length_write] at hbounds hparts
      have hword : piece l pre.length (pre.length + w.width) = w.write offset := by
        rw [← w.length_write offset]
        exact piece_middle (hl'.trans (List.append_assoc _ _ _)) rfl
      have hbody : piece l offset (offset + body.length) = body := by
        have hpre : l = (pre ++ w.write offset ++ head w (offset + body.length) ps ++ mid) ++
            (body ++ tail ps) := by
          rw [hl']
          simp
        have hlen : offset =
            (pre ++ w.write offset ++ head w (offset + body.length) ps ++ mid).length := by
          simp only [List.length_append, w.length_write]
          omega
        exact piece_middle hpre hlen
      have hnext : (bodyBounds (offset + body.length) ps).headD 0 = offset + body.length := by
        rw [List.headD_eq_head?_getD, bodyBounds_head?]
        rfl
      constructor
      · show w.read (piece l pre.length (pre.length + w.width)) ::
          (offsetsAt w l (pre.length + w.width) (ps.map Piece.shape) ++ [l.length]) = _
        rw [hbounds, hword, w.read_write offset hbound]
        rfl
      · show partsAt w l pre.length (offset :: bodyBounds (offset + body.length) ps)
          (none :: ps.map Piece.shape) = _
        rw [partsAt_none, List.tail_cons, hparts, hnext, List.headD_cons, hbody]

section Read

variable {limit : Nat} {ps : List (Piece β)}

/-- A layout whose offsets fit can be cut, and the parts cut out are those laid out. -/
theorem read_layout (hfits : fits w limit (headLength w (ps.map Piece.shape)) ps = true) :
    offsetsAt w (layout w ps) 0 (ps.map Piece.shape) ++ [(layout w ps).length] =
        bodyBounds (headLength w (ps.map Piece.shape)) ps ∧
      partsAt w (layout w ps) 0 (bodyBounds (headLength w (ps.map Piece.shape)) ps)
        (ps.map Piece.shape) = ps := by
  have hoffset : headLength w (ps.map Piece.shape) = ([] : List β).length +
      (head w (headLength w (ps.map Piece.shape)) ps).length + ([] : List β).length := by
    simp [length_head]
  exact read_middle ps hfits (by simp [layout]) hoffset

theorem cuttable_layout (hfits : fits w limit (headLength w (ps.map Piece.shape)) ps = true) :
    Cuttable w (layout w ps) (ps.map Piece.shape) := by
  have hbounds := (read_layout hfits).1
  refine ⟨?_, ?_, ?_⟩
  · rw [layout, List.length_append, length_head]
    exact Nat.le_add_right _ _
  · rw [hbounds]
    exact bodyBounds_head? _ _
  · rw [hbounds]
    exact bodyBounds_ordered _ _

end Read

/-! ## What is read is laid out to the input -/

section Write

variable {l : List β} {shapes : List (Option Nat)}

theorem map_shape_partsAt (bounds : List Nat) :
    ∀ {cursor : Nat}, cursor + headLength w shapes ≤ l.length →
      (partsAt w l cursor bounds shapes).map Piece.shape = shapes := by
  induction shapes generalizing bounds with
  | nil => exact fun _ => rfl
  | cons s ss ih =>
    intro cursor hle
    rw [headLength_cons] at hle
    cases s with
    | none =>
      rw [partsAt_none, List.map_cons, ih _ (by simp only [shapeWidth] at hle; omega)]
      rfl
    | some n =>
      simp only [shapeWidth] at hle
      rw [partsAt_some, List.map_cons, ih _ (by omega)]
      simp only [Piece.shape, Bool.false_eq_true, if_false]
      rw [length_piece (by omega), Nat.add_sub_cancel_left]

/-- Bounds in order are at most the last one. -/
theorem le_of_ordered {offsets : List Nat} {last b : Nat}
    (hchain : (offsets ++ [last]).IsChain (· ≤ ·)) (hb : b ∈ offsets ++ [last]) : b ≤ last := by
  have hpairs := List.isChain_iff_pairwise.1 hchain
  rcases List.mem_append.1 hb with hb | hb
  · exact (List.pairwise_append.1 hpairs).2.2 b hb last List.mem_cons_self
  · exact (List.mem_singleton.1 hb).le

/-- At an offset, the first bound is the one read here and the second begins the bounds of the
rest. -/
theorem bounds_none {cursor offset : Nat} {bounds : List Nat} {ss : List (Option Nat)}
    (hbounds : bounds = offsetsAt w l cursor (none :: ss) ++ [l.length])
    (hstart : bounds.head? = some offset) (hchain : bounds.IsChain (· ≤ ·)) :
    ∃ next, w.read (piece l cursor (cursor + w.width)) = offset ∧
      bounds = offset :: (offsetsAt w l (cursor + w.width) ss ++ [l.length]) ∧
      offset ≤ next ∧ next ≤ l.length ∧
      (offsetsAt w l (cursor + w.width) ss ++ [l.length]).head? = some next ∧
      (offsetsAt w l (cursor + w.width) ss ++ [l.length]).headD 0 = next ∧
      (offsetsAt w l (cursor + w.width) ss ++ [l.length]).IsChain (· ≤ ·) := by
  obtain ⟨next, hnext⟩ : ∃ next,
      (offsetsAt w l (cursor + w.width) ss ++ [l.length]).head? = some next := by
    cases offsetsAt w l (cursor + w.width) ss with
    | nil => exact ⟨_, rfl⟩
    | cons o os => exact ⟨o, rfl⟩
  have hread : w.read (piece l cursor (cursor + w.width)) = offset := by
    rw [hbounds] at hstart
    exact Option.some.inj hstart
  have hcons : bounds = offset :: (offsetsAt w l (cursor + w.width) ss ++ [l.length]) := by
    rw [hbounds, ← hread]
    rfl
  rw [hcons, List.isChain_cons] at hchain
  obtain ⟨hstep, hchain⟩ := hchain
  refine ⟨next, hread, hcons, hstep next hnext,
    le_of_ordered hchain (List.mem_of_mem_head? hnext), hnext, ?_, hchain⟩
  rw [List.headD_eq_head?_getD, hnext]
  rfl

/-- What the parts read from `cursor` on are, when the first body begins at `offset`: they are laid
out to what they were read from, their offsets can be written again, and every part is cut out
inside the input. -/
structure Recut (w : WordCode β) (l : List β) (shapes : List (Option Nat)) (cursor offset : Nat)
    (bounds : List Nat) : Prop where
  head_eq : head w offset (partsAt w l cursor bounds shapes) =
    piece l cursor (cursor + headLength w shapes)
  tail_eq : tail (partsAt w l cursor bounds shapes) = l.drop offset
  fits_eq : ∀ limit, l.length < limit →
    fits w limit offset (partsAt w l cursor bounds shapes) = true
  spans_le : ∀ span ∈ spans w cursor bounds shapes, span.1 ≤ span.2 ∧ span.2 ≤ l.length

/-- The running offset of the writer is the next bound of the reader. -/
theorem recut : ∀ {cursor offset : Nat} {bounds : List Nat},
    cursor + headLength w shapes ≤ l.length →
    bounds = offsetsAt w l cursor shapes ++ [l.length] → bounds.head? = some offset →
    bounds.IsChain (· ≤ ·) → Recut w l shapes cursor offset bounds := by
  induction shapes with
  | nil =>
    intro cursor offset bounds _ hbounds hstart _
    rw [hbounds] at hstart
    have hoffset : l.length = offset := by simpa [offsetsAt] using hstart
    refine ⟨by simp [partsAt, spans, head], ?_, fun _ _ => rfl, fun span hspan => by cases hspan⟩
    rw [← hoffset, List.drop_length]
    rfl
  | cons s ss ih =>
    intro cursor offset bounds hle hbounds hstart hchain
    rw [headLength_cons] at hle
    cases s with
    | some n =>
      simp only [shapeWidth] at hle
      have hrest := ih (by omega) hbounds hstart hchain
      refine ⟨?_, hrest.tail_eq, hrest.fits_eq, fun span hspan => ?_⟩
      · rw [partsAt_some, headLength_cons]
        simp only [head, shapeWidth, Bool.false_eq_true, if_false]
        rw [hrest.head_eq, ← Nat.add_assoc]
        exact piece_append (Nat.le_add_right _ _) (by omega)
      · rcases List.mem_cons.1 hspan with rfl | hspan
        · exact ⟨Nat.le_add_right _ _, by show cursor + n ≤ _; omega⟩
        · exact hrest.spans_le span hspan
    | none =>
      simp only [shapeWidth] at hle
      obtain ⟨next, hread, hcons, hle_next, hnext_le, hnext, hnextD, hchain⟩ :=
        bounds_none hbounds hstart hchain
      have hrest := ih (by omega) rfl hnext hchain
      have hwidth : (piece l cursor (cursor + w.width)).length = w.width := by
        rw [length_piece (by omega), Nat.add_sub_cancel_left]
      have hlen : offset + (piece l offset next).length = next := by
        rw [length_piece hnext_le, Nat.add_sub_cancel' hle_next]
      have hparts : partsAt w l cursor bounds (none :: ss) = ⟨true, piece l offset next⟩ ::
          partsAt w l (cursor + w.width) (offsetsAt w l (cursor + w.width) ss ++ [l.length]) ss := by
        rw [hcons, partsAt_none, List.headD_cons, List.tail_cons, hnextD]
      refine ⟨?_, ?_, fun limit hlimit => ?_, fun span hspan => ?_⟩
      · rw [hparts, headLength_cons]
        simp only [head, shapeWidth, if_true]
        rw [hlen, hrest.head_eq, ← hread, w.write_read _ hwidth, ← Nat.add_assoc]
        exact piece_append (Nat.le_add_right _ _) (by omega)
      · rw [hparts]
        simp only [tail, if_true]
        rw [hrest.tail_eq, ← piece_length l next, piece_append hle_next hnext_le, piece_length]
      · have hword : offset < w.bound := hread ▸ w.read_lt _ hwidth
        rw [hparts]
        simp only [fits, if_true, Bool.and_eq_true, decide_eq_true_eq]
        rw [hlen]
        exact ⟨⟨hword, by omega⟩, hrest.fits_eq limit hlimit⟩
      · rw [hcons] at hspan
        rcases List.mem_cons.1 hspan with rfl | hspan
        · rw [List.headD_cons, List.tail_cons, hnextD]
          exact ⟨hle_next, hnext_le⟩
        · exact hrest.spans_le span hspan

/-- What the reader cuts out of an input. -/
def partsOf (w : WordCode β) (l : List β) (shapes : List (Option Nat)) : List (Piece β) :=
  partsAt w l 0 (offsetsAt w l 0 shapes ++ [l.length]) shapes

namespace Cuttable

theorem head_le' (h : Cuttable w l shapes) : 0 + headLength w shapes ≤ l.length := by
  rw [Nat.zero_add]
  exact h.head_le

theorem recut (h : Cuttable w l shapes) : Recut w l shapes 0 (headLength w shapes)
    (offsetsAt w l 0 shapes ++ [l.length]) :=
  Lib.recut h.head_le' rfl h.starts h.ordered

theorem map_shape (h : Cuttable w l shapes) : (partsOf w l shapes).map Piece.shape = shapes :=
  map_shape_partsAt _ h.head_le'

/-- An input that can be cut is the layout of its parts. -/
theorem layout_partsOf (h : Cuttable w l shapes) : layout w (partsOf w l shapes) = l := by
  unfold layout
  rw [h.map_shape]
  refine (congrArg₂ (· ++ ·) h.recut.head_eq h.recut.tail_eq).trans ?_
  rw [Nat.zero_add]
  exact piece_zero_append_drop _ _

theorem fits_partsOf (h : Cuttable w l shapes) {limit : Nat} (hlimit : l.length < limit) :
    fits w limit (headLength w shapes) (partsOf w l shapes) = true :=
  h.recut.fits_eq limit hlimit

end Cuttable

theorem partsOf_layout {limit : Nat}
    (hfits : fits w limit (headLength w (ps.map Piece.shape)) ps = true) :
    partsOf w (layout w ps) (ps.map Piece.shape) = ps := by
  obtain ⟨hbounds, hparts⟩ := read_layout hfits
  unfold partsOf
  rw [hbounds]
  exact hparts

end Write

end Layout

end Moonglass.Lib
