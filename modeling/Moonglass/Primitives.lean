import Moonglass.Preset
import Mathlib.Data.List.Lex
import Mathlib.Order.Fin.Basic

/-
  Primitive types: machine integers, byte strings, roots, slots and epochs. Roots are ordered as
  their bytes are, lexicographically. The numeric newtypes of the source are all `u64`, so they
  are names for one type here.
-/

namespace Moonglass

open Lib

abbrev U8 := Word 8
abbrev U64 := Word 64
abbrev Slot := U64
abbrev Epoch := U64
abbrev ValidatorIndex := U64
abbrev BuilderIndex := U64
abbrev CommitteeIndex := U64
abbrev ColumnIndex := U64
abbrev CellIndex := U64
abbrev WithdrawalIndex := U64
abbrev Gwei := U64

instance neZero_u8 : NeZero (2 ^ 8) := ⟨by decide⟩

instance neZero_u64 : NeZero (2 ^ 64) := ⟨by decide⟩

instance lawfulBEq_u64 : LawfulBEq U64 := inferInstance

theorem zero_lt_32 : 0 < 32 := by decide

/-- A byte string of length `n`. -/
abbrev Bytes (n : Nat) := Vector U8 n

abbrev Bytes32 := Bytes 32
abbrev Hash32 := Bytes 32
abbrev Uint256 := Bytes 32
abbrev ExecutionAddress := Bytes 20
abbrev Version := Bytes 4
abbrev Domain := Bytes 32
abbrev DomainType := Bytes 4
abbrev BLSPubkey := Bytes 48
abbrev BLSSignature := Bytes 96
abbrev KZGCommitment := Bytes 48
abbrev KZGProof := Bytes 48
abbrev Cell := Bytes bytesPerCell

/-- A 32-byte SSZ hash tree root. -/
structure Root where
  bytes : Bytes 32
  deriving DecidableEq

namespace Root

/-- The all-zero root, an unset placeholder. -/
def ZERO : Root := ⟨Vector.replicate 32 0⟩

/-- The bytes of a root as a list. -/
def toList (r : Root) : List U8 := r.bytes.toList

theorem toList_injective : Function.Injective toList := by
  rintro ⟨a⟩ ⟨b⟩ h
  simpa [toList, Vector.toList_inj] using h

instance : LinearOrder Root := LinearOrder.lift' toList toList_injective

end Root

/-- The all-zero signature. -/
def BLSSignature.default : BLSSignature := Vector.replicate 96 0

/-- The compressed encoding of the G2 point at infinity. -/
def g2PointAtInfinity : BLSSignature := (Vector.replicate 96 0).set 0 0xC0

def isG2PointAtInfinity (s : BLSSignature) : Bool := s == g2PointAtInfinity

variable [Preset]

/-- The epoch a slot belongs to. -/
def Slot.epoch (s : Slot) : Epoch := s.div slotsPerEpoch

/-- The first slot of an epoch. -/
def Epoch.startSlot (e : Epoch) : Slot := e.satMul slotsPerEpoch

def genesisEpoch : Epoch := 0
def genesisSlot : Slot := 0
def farFutureEpoch : Epoch := Word.max
def builderIndexSelfBuild : BuilderIndex := Word.max

/-- The little-endian bytes of a number, `n` of them. -/
def toLeBytes : Nat → Nat → List U8
  | 0, _ => []
  | n + 1, v => Word.wrap v :: toLeBytes n (v / 256)

/-- The number with the given little-endian bytes. -/
def fromLeBytes : List U8 → Nat
  | [] => 0
  | b :: bs => b.val + 256 * fromLeBytes bs

/-! ## Participation flags -/

/-- Three attestation flags of one validator in one epoch, one bit each. -/
abbrev ParticipationFlags := U8

namespace ParticipationFlags

/-- Is the flag's bit set? (The flag indices in use are below eight.) -/
def hasFlag (f : ParticipationFlags) (flagIndex : Nat) : Bool := f.val.testBit flagIndex

def withFlag (f : ParticipationFlags) (flagIndex : Nat) : ParticipationFlags :=
  Word.wrap (f.val ||| (1 <<< flagIndex))

end ParticipationFlags

/-! ## Slots and epochs -/

theorem slotsPerEpoch_cases : slotsPerEpoch = 32 ∨ slotsPerEpoch = 8 := pick_cases _ _

/-- Two epochs of block roots fit in the ring, so those of the last two epochs are all kept. -/
theorem epochs_in_ring : 2 ≤ slotsPerEpoch ∧ 2 * slotsPerEpoch ≤ slotsPerHistoricalRoot := by
  unfold slotsPerEpoch slotsPerHistoricalRoot pick
  split <;> decide

theorem slotsPerEpoch_pos : 0 < slotsPerEpoch := by
  rcases slotsPerEpoch_cases with h | h <;> omega

@[simp] theorem Slot.epoch_val (s : Slot) : s.epoch.val = s.val / slotsPerEpoch := rfl

theorem Epoch.startSlot_val (e : Epoch) :
    e.startSlot.val = Nat.min (e.val * slotsPerEpoch) (2 ^ 64 - 1) := rfl

theorem Slot.epoch_mono {s t : Slot} (h : s ≤ t) : s.epoch ≤ t.epoch :=
  Nat.div_le_div_right h

/-- An epoch starts at or before every slot in it. -/
theorem Slot.startSlot_epoch_le (s : Slot) : s.epoch.startSlot ≤ s := by
  have h : s.epoch.val * slotsPerEpoch ≤ s.val := by
    rw [Slot.epoch_val]; exact Nat.div_mul_le_self _ _
  exact Nat.le_trans (Nat.min_le_left _ _) h

end Moonglass
