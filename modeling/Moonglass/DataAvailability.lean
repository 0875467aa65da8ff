import Mathlib.Data.List.DropRight
import Moonglass.Devnet
import Moonglass.Ssz.Format

/-
  Node identifiers and custody groups. An identifier is a `uint256` of 32 little-endian bytes: it
  is parsed from decimal digits by a byte-wise multiplication with carry, and it is the counter
  whose hashes draw the custody groups of a node. The drawing loop has no bound of its own, so it
  is modelled with fuel, and `none` stands for a loop that is still running.
-/

namespace Moonglass

open Lib Word

/-- A 256-bit node identifier, 32 little-endian bytes. -/
abbrev NodeId := Bytes 32
abbrev CustodyIndex := U64
abbrev U16 := Word 16

def numberOfCustodyGroups : Nat := 128

inductive DataAvailabilityError
  | tooManyCustodyGroups (requested limit : U64)
  | invalidNodeIdDecimal
  | nodeIdOverflow
  deriving DecidableEq, Repr

namespace NodeId

/-- The number an identifier stands for. -/
def value (id : NodeId) : Nat := fromLeBytes id.toList

/-! ## Decimal identifiers -/

/-- The byte loop of `multiply_node_id_by_10_and_add`, with the carry it leaves. -/
def mulAddLoop : List U8 → U16 → List U8 × U16
  | [], carry => ([], carry)
  | byte :: rest, carry =>
    let next : U16 := Word.wrap (byte.val * 10 + carry.val)
    let (out, carry) := mulAddLoop rest (Word.wrap (next.val >>> 8))
    (Word.wrap (next.val &&& 0xff) :: out, carry)

theorem mulAddLoop_length (bytes : List U8) (carry : U16) :
    (mulAddLoop bytes carry).1.length = bytes.length := by
  induction bytes generalizing carry with
  | nil => rfl
  | cons byte rest ih => simp [mulAddLoop, ih]

/-- Multiply a little-endian `uint256` by 10 and add one decimal digit. -/
def multiplyNodeIdBy10AndAdd (bytes : NodeId) (digit : U8) : Except DataAvailabilityError NodeId :=
  let out := mulAddLoop bytes.toList (Word.wrap digit.val)
  if out.2.val ≠ 0 then .error .nodeIdOverflow
  else .ok ⟨out.1.toArray, by simp [out, mulAddLoop_length]⟩

/-- Is the byte an ASCII digit? -/
def isAsciiDigit (byte : U8) : Bool := 48 ≤ byte.val && byte.val ≤ 57

/-- Rust's `char::is_whitespace`: the code points with the property `White_Space`. -/
def isWhitespace (c : Char) : Bool :=
  let n := c.toNat
  (9 ≤ n && n ≤ 13) || n == 0x20 || n == 0x85 || n == 0xa0 || n == 0x1680 ||
    (0x2000 ≤ n && n ≤ 0x200a) || n == 0x2028 || n == 0x2029 || n == 0x202f || n == 0x205f ||
    n == 0x3000

/-- The characters of a string without leading and trailing whitespace. -/
def trim (s : String) : List Char :=
  (s.toList.dropWhile isWhitespace).rdropWhile isWhitespace

/-- The UTF-8 bytes of a string. -/
def utf8Bytes (chars : List Char) : List U8 :=
  chars.flatMap fun c => (String.utf8EncodeChar c).map fun b => Word.wrap b.toNat

/-- One iteration of the digit loop. -/
def pushDigit (out : NodeId) (byte : U8) : Except DataAvailabilityError NodeId := do
  ensure (isAsciiDigit byte) .invalidNodeIdDecimal
  multiplyNodeIdBy10AndAdd out (Word.wrap (byte.val - 48))

end NodeId

open NodeId in
/-- Parse a decimal `uint256` node identifier into little-endian bytes. -/
def nodeIdFromDecimal (decimal : String) : Except DataAvailabilityError NodeId := do
  let trimmed := trim decimal
  ensure (trimmed ≠ []) .invalidNodeIdDecimal
  (utf8Bytes trimmed).foldlM pushDigit (Vector.replicate 32 0)

namespace NodeId

/-- The decimal value of a run of digits. -/
def decimalValue (digits : List Char) : Nat :=
  digits.foldl (fun v c => 10 * v + (c.toNat - 48)) 0

/-! ### The byte loop -/

/-- The loop multiplies by ten and adds the carry it starts with; what does not fit in the bytes
    is the carry it ends with. The carry stays below 256, so no `u16` overflows. -/
theorem mulAddLoop_value (bytes : List U8) (carry : U16) (hcarry : carry.val < 256) :
    fromLeBytes (mulAddLoop bytes carry).1 + 256 ^ bytes.length * (mulAddLoop bytes carry).2.val =
      10 * fromLeBytes bytes + carry.val := by
  induction bytes generalizing carry with
  | nil => simp [mulAddLoop, fromLeBytes]
  | cons byte rest ih =>
    have hbyte := byte.isLt
    have hnext : (Word.wrap (byte.val * 10 + carry.val) : U16).val = byte.val * 10 + carry.val :=
      wrap_val_of_lt (by omega)
    have hhigh : (Word.wrap ((byte.val * 10 + carry.val) >>> 8) : U16).val =
        (byte.val * 10 + carry.val) / 256 := by
      rw [Nat.shiftRight_eq_div_pow]
      exact wrap_val_of_lt (by omega)
    have hlow : (Word.wrap ((byte.val * 10 + carry.val) &&& 0xff) : U8).val =
        (byte.val * 10 + carry.val) % 256 := by
      rw [show (0xff : Nat) = 2 ^ 8 - 1 from rfl, Nat.and_two_pow_sub_one_eq_mod]
      exact wrap_val_of_lt (by omega)
    have hrest := ih (Word.wrap ((byte.val * 10 + carry.val) >>> 8)) (by omega)
    simp only [mulAddLoop, hnext, fromLeBytes, hlow, List.length_cons, Nat.pow_succ]
    rw [hhigh] at hrest
    generalize mulAddLoop rest (Word.wrap ((byte.val * 10 + carry.val) >>> 8)) = r at hrest ⊢
    rw [Nat.mul_right_comm (256 ^ rest.length)]
    omega

theorem value_lt (id : NodeId) : id.value < 2 ^ 256 := by
  have h := Ssz.fromLeBytes_lt id.toList
  rwa [Vector.length_toList] at h

theorem value_injective : Function.Injective value := by
  intro a b h
  have hbytes := congrArg (toLeBytes 32) h
  have ha := Ssz.toLeBytes_fromLeBytes a.toList
  have hb := Ssz.toLeBytes_fromLeBytes b.toList
  rw [Vector.length_toList] at ha hb
  exact Vector.toList_inj.1 (ha.symm.trans (hbytes.trans hb))

theorem exists_value {v : Nat} (h : v < 2 ^ 256) : ∃ id : NodeId, id.value = v :=
  ⟨⟨(toLeBytes 32 v).toArray, by simp [Ssz.length_toLeBytes]⟩, Ssz.fromLeBytes_toLeBytes h⟩

/-- Appending a digit succeeds exactly when the new number fits in 256 bits. -/
theorem multiplyNodeIdBy10AndAdd_eq_ok {id out : NodeId} {digit : U8} :
    multiplyNodeIdBy10AndAdd id digit = .ok out ↔ out.value = 10 * id.value + digit.val := by
  have hdigit : (Word.wrap digit.val : U16).val = digit.val := wrap_val_of_lt (by omega)
  have hloop := mulAddLoop_value id.toList (Word.wrap digit.val) (by omega)
  rw [hdigit, Vector.length_toList] at hloop
  change _ = 10 * id.value + digit.val at hloop
  unfold multiplyNodeIdBy10AndAdd
  dsimp only
  split
  · rename_i hoverflow
    have hpos := Nat.mul_le_mul_left (256 ^ 32) (Nat.pos_of_ne_zero hoverflow)
    have hlt := value_lt out
    refine ⟨fun h => (by cases h), fun h => ?_⟩
    omega
  · rename_i hfits
    rw [not_not.1 hfits, Nat.mul_zero, Nat.add_zero] at hloop
    rw [← hloop, Except.ok.injEq]
    exact ⟨fun h => (h ▸ rfl : out.value = _), fun h => (value_injective h).symm⟩

/-- A byte is pushed exactly when it is a digit and the new number fits in 256 bits. -/
theorem pushDigit_eq_ok {id out : NodeId} {byte : U8} :
    pushDigit id byte = .ok out ↔
      isAsciiDigit byte ∧ out.value = 10 * id.value + (byte.val - 48) := by
  have hbyte : (Word.wrap (byte.val - 48) : U8).val = byte.val - 48 :=
    wrap_val_of_lt (by omega)
  unfold pushDigit
  by_cases hdigit : isAsciiDigit byte
  · rw [ensure_of hdigit, ok_bind, multiplyNodeIdBy10AndAdd_eq_ok, hbyte]
    exact ⟨fun h => ⟨hdigit, h⟩, fun h => h.2⟩
  · rw [ensure_of_not hdigit, error_bind]
    exact ⟨fun h => (by cases h), fun h => absurd h.1 hdigit⟩

/-- The value of the digits read after a number. -/
def appendValue (v : Nat) (bytes : List U8) : Nat :=
  bytes.foldl (fun v b => 10 * v + (b.val - 48)) v

theorem le_appendValue (v : Nat) (bytes : List U8) : v ≤ appendValue v bytes := by
  induction bytes generalizing v with
  | nil => exact le_rfl
  | cons b bytes ih =>
    have h := ih (10 * v + (b.val - 48))
    exact le_trans (by omega) h

/-- The digit loop returns the number that its digits append to the one it starts with. -/
theorem foldlM_pushDigit_eq_ok {bytes : List U8} {id out : NodeId} :
    bytes.foldlM pushDigit id = .ok out ↔
      (∀ b ∈ bytes, isAsciiDigit b) ∧ out.value = appendValue id.value bytes := by
  induction bytes generalizing id with
  | nil =>
    simp only [List.foldlM_nil, List.not_mem_nil, false_imp_iff, implies_true, true_and]
    exact ⟨fun h => by cases h; rfl, fun h => congrArg Except.ok (value_injective h).symm⟩
  | cons b bytes ih =>
    simp only [List.foldlM_cons, bind_eq_ok, pushDigit_eq_ok, ih, List.forall_mem_cons]
    constructor
    · rintro ⟨mid, ⟨hb, hmid⟩, hbytes, hout⟩
      exact ⟨⟨hb, hbytes⟩, by rw [hout, hmid]; rfl⟩
    · rintro ⟨⟨hb, hbytes⟩, hout⟩
      -- the number with one more digit is below the final one, so it has 32 bytes
      have hle := le_appendValue (10 * id.value + (b.val - 48)) bytes
      have hlt : 10 * id.value + (b.val - 48) < 2 ^ 256 :=
        hle.trans_lt (hout ▸ value_lt out)
      obtain ⟨mid, hmid⟩ := exists_value hlt
      exact ⟨mid, ⟨hb, hmid⟩, hbytes, by rw [hout, hmid]; rfl⟩

/-! ### Characters and bytes -/

theorem isDigit_iff (c : Char) : c.isDigit ↔ 48 ≤ c.toNat ∧ c.toNat ≤ 57 := by
  simp [Char.isDigit, UInt32.le_iff_toNat_le]

theorem isAsciiDigit_iff (b : U8) : isAsciiDigit b ↔ 48 ≤ b.val ∧ b.val ≤ 57 := by
  simp [isAsciiDigit]

/-- The last byte of a character beyond ASCII is at least 128. -/
theorem last_byte_mem {c : Char} (h : 127 < c.toNat) :
    UInt8.ofNat (c.toNat % 64 + 128) ∈ String.utf8EncodeChar c := by
  unfold String.utf8EncodeChar
  dsimp only
  rw [if_neg (show ¬ c.val.toNat ≤ 127 from not_le.2 h)]
  split
  · exact List.mem_cons_of_mem _ (List.mem_singleton.2 rfl)
  · split
    · exact List.mem_cons_of_mem _ (List.mem_cons_of_mem _ (List.mem_singleton.2 rfl))
    · exact List.mem_cons_of_mem _
        (List.mem_cons_of_mem _ (List.mem_cons_of_mem _ (List.mem_singleton.2 rfl)))

/-- An ASCII character is the one byte of its code point. -/
theorem utf8Bytes_of_ascii {c : Char} (h : c.toNat ≤ 127) :
    utf8Bytes [c] = [Word.wrap c.toNat] := by
  have hencode : String.utf8EncodeChar c = [UInt8.ofNat c.toNat] := by
    unfold String.utf8EncodeChar
    exact if_pos h
  have hbyte : (UInt8.ofNat c.toNat).toNat = c.toNat :=
    UInt8.toNat_ofNat_of_lt (show _ < 256 by omega)
  simp [utf8Bytes, hencode, hbyte]

/-- The bytes of a character that are digits, if all of them are, are that one digit. -/
theorem utf8Bytes_digits (c : Char) : (∀ b ∈ utf8Bytes [c], isAsciiDigit b) ↔ c.isDigit := by
  rcases Nat.lt_or_ge 127 c.toNat with hbeyond | hascii
  · rw [isDigit_iff]
    refine ⟨fun h => ?_, fun h => by omega⟩
    have hmem : Word.wrap (UInt8.ofNat (c.toNat % 64 + 128)).toNat ∈ utf8Bytes [c] := by
      simp only [utf8Bytes, List.flatMap_singleton]
      exact List.mem_map_of_mem (last_byte_mem hbeyond)
    have hbyte : (UInt8.ofNat (c.toNat % 64 + 128)).toNat = c.toNat % 64 + 128 :=
      UInt8.toNat_ofNat_of_lt (show _ < 256 by omega)
    have hdigit := (isAsciiDigit_iff _).1 (h _ hmem)
    rw [hbyte, wrap_val_of_lt (by omega)] at hdigit
    omega
  · rw [utf8Bytes_of_ascii hascii, List.forall_mem_singleton, isAsciiDigit_iff, isDigit_iff,
      wrap_val_of_lt (by omega)]

theorem utf8Bytes_cons (c : Char) (chars : List Char) :
    utf8Bytes (c :: chars) = utf8Bytes [c] ++ utf8Bytes chars := by
  simp [utf8Bytes]

theorem forall_utf8Bytes (chars : List Char) :
    (∀ b ∈ utf8Bytes chars, isAsciiDigit b) ↔ ∀ c ∈ chars, c.isDigit := by
  induction chars with
  | nil => simp [utf8Bytes]
  | cons c chars ih =>
    rw [utf8Bytes_cons, List.forall_mem_append, List.forall_mem_cons, ih, utf8Bytes_digits]

/-- The bytes of digit characters append the decimal value of the characters. -/
theorem appendValue_utf8Bytes (v : Nat) {chars : List Char} (h : ∀ c ∈ chars, c.isDigit) :
    appendValue v (utf8Bytes chars) = chars.foldl (fun v c => 10 * v + (c.toNat - 48)) v := by
  induction chars generalizing v with
  | nil => rfl
  | cons c chars ih =>
    obtain ⟨hc, hchars⟩ := List.forall_mem_cons.1 h
    have hrange := (isDigit_iff c).1 hc
    rw [utf8Bytes_cons, utf8Bytes_of_ascii (by omega), List.foldl_cons, ← ih _ hchars]
    simp only [appendValue, List.singleton_append, List.foldl_cons]
    rw [wrap_val_of_lt (by omega)]

theorem nodeIdFromDecimal_eq_ok {decimal : String} {id : NodeId} :
    nodeIdFromDecimal decimal = .ok id ↔
      trim decimal ≠ [] ∧ (∀ c ∈ trim decimal, c.isDigit) ∧
        id.value = decimalValue (trim decimal) := by
  unfold nodeIdFromDecimal
  dsimp only
  by_cases hempty : trim decimal = []
  · rw [ensure_of_not (not_not.2 hempty), error_bind]
    exact ⟨fun h => (by cases h), fun h => absurd hempty h.1⟩
  · rw [ensure_of hempty, ok_bind, foldlM_pushDigit_eq_ok, forall_utf8Bytes]
    have hzero : value (Vector.replicate 32 0) = 0 := by decide
    have happend (h : ∀ c ∈ trim decimal, c.isDigit) :
        appendValue (value (Vector.replicate 32 0)) (utf8Bytes (trim decimal)) =
          decimalValue (trim decimal) := by
      rw [hzero]
      exact appendValue_utf8Bytes 0 h
    constructor
    · rintro ⟨hdigits, hvalue⟩
      exact ⟨hempty, hdigits, hvalue.trans (happend hdigits)⟩
    · rintro ⟨-, hdigits, hvalue⟩
      exact ⟨hdigits, hvalue.trans (happend hdigits).symm⟩

/-- A string is parsed exactly when what is left of it without surrounding whitespace is a
    non-empty run of digits below `2 ^ 256`, and the bytes are then those of its value. -/
theorem nodeIdFromDecimal_exact (decimal : String) :
    ((∃ id, nodeIdFromDecimal decimal = .ok id) ↔
      trim decimal ≠ [] ∧ (∀ c ∈ trim decimal, c.isDigit) ∧
        decimalValue (trim decimal) < 2 ^ 256) ∧
    ∀ id, nodeIdFromDecimal decimal = .ok id → id.value = decimalValue (trim decimal) := by
  refine ⟨⟨?_, ?_⟩, fun id h => (nodeIdFromDecimal_eq_ok.1 h).2.2⟩
  · rintro ⟨id, h⟩
    obtain ⟨hempty, hdigits, hvalue⟩ := nodeIdFromDecimal_eq_ok.1 h
    exact ⟨hempty, hdigits, hvalue ▸ value_lt id⟩
  · rintro ⟨hempty, hdigits, hlt⟩
    obtain ⟨id, hid⟩ := exists_value hlt
    exact ⟨id, nodeIdFromDecimal_eq_ok.2 ⟨hempty, hdigits, hid⟩⟩

/-- A padded string with a leading zero. -/
theorem nodeIdFromDecimal_exact_padded :
    ∃ id, nodeIdFromDecimal " 0258\n" = .ok id ∧ id.value = 258 := by
  have hdigits : (trim " 0258\n").all Char.isDigit = true := by decide
  obtain ⟨id, hid⟩ := (nodeIdFromDecimal_exact " 0258\n").1.2
    ⟨by decide, List.all_eq_true.1 hdigits, by decide⟩
  exact ⟨id, hid, (nodeIdFromDecimal_exact " 0258\n").2 id hid⟩

/-! ## Custody groups -/

/-- The byte loop of `increment_node_id`: a byte that overflows hands on to the next one. -/
def incrementLoop : List U8 → List U8
  | [] => []
  | byte :: rest => if byte.val + 1 < 256 then (byte + 1) :: rest else 0 :: incrementLoop rest

theorem incrementLoop_length (bytes : List U8) : (incrementLoop bytes).length = bytes.length := by
  induction bytes with
  | nil => rfl
  | cons byte rest ih =>
    rw [incrementLoop]
    split
    · rfl
    · simp [ih]

/-- Increment a little-endian `uint256`, wrapping to zero on overflow. -/
def incrementNodeId (id : NodeId) : NodeId :=
  ⟨(incrementLoop id.toList).toArray, by simp [incrementLoop_length]⟩

end NodeId

section

variable [Preset] [Crypto]

/-- The group drawn by the hash of an identifier. -/
def custodyGroupOf (id : NodeId) : CustodyIndex :=
  Word.wrap (fromLeBytes ((Crypto.sha256 id.toList).toList.take 8) % numberOfCustodyGroups)

/-- The loop of `get_custody_groups`; `none` when it is still running after `fuel` checks. -/
def custodyLoop (size : Nat) : Nat → NodeId → List CustodyIndex → Option (List CustodyIndex)
  | 0, _, _ => none
  | fuel + 1, currentId, groups =>
    if groups.length < size then
      let group := custodyGroupOf currentId
      let groups := if group ∈ groups then groups else groups ++ [group]
      custodyLoop size fuel currentId.incrementNodeId groups
    else some groups

/-- Return the custody groups assigned to a node identifier. -/
def getCustodyGroups (fuel : Nat) (nodeId : NodeId) (count : U64) :
    Option (Except DataAvailabilityError (List CustodyIndex)) :=
  if numberOfCustodyGroups < count.val then
    some (.error (.tooManyCustodyGroups count (Word.wrap numberOfCustodyGroups)))
  else if count.val = numberOfCustodyGroups then
    some (.ok ((List.range numberOfCustodyGroups).map Word.wrap))
  else
    (custodyLoop count.val fuel nodeId []).map fun groups =>
      .ok (groups.insertionSort (· ≤ ·))

/-- `count` distinct groups in range, in increasing order. -/
structure IsAssignment (count : U64) (groups : List CustodyIndex) : Prop where
  length : groups.length = count.val
  increasing : groups.Pairwise (· < ·)
  inRange : ∀ g ∈ groups, g.val < numberOfCustodyGroups

variable {size fuel : Nat} {id : NodeId} {groups result : List CustodyIndex}

theorem custodyGroupOf_lt (id : NodeId) : (custodyGroupOf id).val < numberOfCustodyGroups := by
  have h := Nat.mod_lt (fromLeBytes ((Crypto.sha256 id.toList).toList.take 8))
    (show 0 < numberOfCustodyGroups by decide)
  exact (Nat.mod_le _ _).trans_lt h

/-- The groups after one draw. -/
def drawGroup (id : NodeId) (groups : List CustodyIndex) : List CustodyIndex :=
  if custodyGroupOf id ∈ groups then groups else groups ++ [custodyGroupOf id]

theorem custodyLoop_succ : custodyLoop size (fuel + 1) id groups =
    if groups.length < size then custodyLoop size fuel id.incrementNodeId (drawGroup id groups)
    else some groups := rfl

/-- Distinct groups in range, no more than asked for. -/
structure Drawing (size : Nat) (groups : List CustodyIndex) : Prop where
  length : groups.length ≤ size
  nodup : groups.Nodup
  inRange : ∀ g ∈ groups, g.val < numberOfCustodyGroups

omit [Preset] [Crypto] in
omit [Preset] [Crypto] in
theorem Drawing.nil : Drawing size [] := ⟨Nat.zero_le size, List.nodup_nil, by simp⟩

theorem Drawing.draw (h : Drawing size groups) (hlt : groups.length < size) :
    Drawing size (drawGroup id groups) := by
  unfold drawGroup
  split
  · exact h
  · rename_i hnew
    refine ⟨?_, ?_, ?_⟩
    · rw [List.length_append]
      exact hlt
    · exact h.nodup.append (List.nodup_singleton _) (List.disjoint_singleton.2 hnew)
    · intro g hg
      rcases List.mem_append.1 hg with hold | hlast
      · exact h.inRange g hold
      · exact List.mem_singleton.1 hlast ▸ custodyGroupOf_lt id

theorem drawGroup_extends (id : NodeId) (groups : List CustodyIndex) :
    groups <+: drawGroup id groups := by
  unfold drawGroup
  split
  · exact List.prefix_rfl
  · exact List.prefix_append _ _

/-- The groups in hand stay in front of those that are drawn later. -/
theorem custodyLoop_extends (h : custodyLoop size fuel id groups = some result) :
    groups <+: result := by
  induction fuel generalizing id groups with
  | zero => cases h
  | succ fuel ih =>
    rw [custodyLoop_succ] at h
    split at h
    · exact (drawGroup_extends id groups).trans (ih h)
    · cases h
      exact List.prefix_rfl

/-- A loop that ends has drawn as many groups as were asked for. -/
theorem custodyLoop_drawing (hgroups : Drawing size groups)
    (h : custodyLoop size fuel id groups = some result) :
    Drawing size result ∧ result.length = size := by
  induction fuel generalizing id groups with
  | zero => cases h
  | succ fuel ih =>
    rw [custodyLoop_succ] at h
    split at h
    · rename_i hlt
      exact ih (hgroups.draw hlt) h
    · rename_i hdone
      cases h
      exact ⟨hgroups, Nat.le_antisymm hgroups.length (not_lt.1 hdone)⟩

/-- A loop that asks for fewer groups stops at the first ones of a loop that asks for more. -/
theorem custodyLoop_mono {size' fuel' : Nat} {result' : List CustodyIndex} (hle : size ≤ size')
    (h : custodyLoop size fuel id groups = some result)
    (h' : custodyLoop size' fuel' id groups = some result') : result <+: result' := by
  induction fuel generalizing fuel' id groups with
  | zero => cases h
  | succ fuel ih =>
    rw [custodyLoop_succ] at h
    split at h
    · rename_i hlt
      cases fuel' with
      | zero => cases h'
      | succ fuel' =>
        rw [custodyLoop_succ, if_pos (hlt.trans_le hle)] at h'
        exact ih h h'
    · cases h
      exact custodyLoop_extends h'

/-- What a call returns: all groups, or the sorted groups of the loop. -/
theorem getCustodyGroups_eq_ok {count : U64} (hcount : count.val ≤ numberOfCustodyGroups)
    (h : getCustodyGroups fuel id count = some (.ok result)) :
    count.val = numberOfCustodyGroups ∧
      result = (List.range numberOfCustodyGroups).map Word.wrap ∨
    count.val ≠ numberOfCustodyGroups ∧ ∃ drawn,
      custodyLoop count.val fuel id [] = some drawn ∧
      result = drawn.insertionSort (· ≤ ·) := by
  unfold getCustodyGroups at h
  rw [if_neg (not_lt.2 hcount)] at h
  split at h
  · rename_i hfull
    cases h
    exact .inl ⟨hfull, rfl⟩
  · rename_i hpart
    obtain ⟨drawn, hdrawn, heq⟩ := Option.map_eq_some_iff.1 h
    cases heq
    exact .inr ⟨hpart, drawn, hdrawn, rfl⟩

omit [Preset] [Crypto] in
omit [Preset] [Crypto] in
theorem allGroups_isAssignment {count : U64} (hcount : count.val = numberOfCustodyGroups) :
    IsAssignment count ((List.range numberOfCustodyGroups).map Word.wrap) := by
  have hval {i : Nat} (h : i ∈ List.range numberOfCustodyGroups) :
      (Word.wrap i : CustodyIndex).val = i ∧ i < numberOfCustodyGroups := by
    have hlt : i < 128 := List.mem_range.1 h
    exact ⟨wrap_val_of_lt (by omega), hlt⟩
  refine ⟨?_, ?_, ?_⟩
  · rw [List.length_map, List.length_range, hcount]
  · refine List.pairwise_map.2 (List.pairwise_lt_range.imp_of_mem fun ha hb hlt => ?_)
    rw [Fin.lt_def, (hval ha).1, (hval hb).1]
    exact hlt
  · intro g hg
    obtain ⟨i, hi, rfl⟩ := List.mem_map.1 hg
    rw [(hval hi).1]
    exact (hval hi).2

omit [Preset] [Crypto] in
omit [Preset] [Crypto] in
theorem mem_allGroups {g : CustodyIndex} (h : g.val < numberOfCustodyGroups) :
    g ∈ (List.range numberOfCustodyGroups).map Word.wrap := by
  refine List.mem_map.2 ⟨g.val, List.mem_range.2 h, Fin.ext (wrap_val_of_lt g.isLt)⟩

theorem getCustodyGroups_isAssignment {count : U64} (hcount : count.val ≤ numberOfCustodyGroups)
    (h : getCustodyGroups fuel id count = some (.ok result)) : IsAssignment count result := by
  rcases getCustodyGroups_eq_ok hcount h with ⟨hfull, rfl⟩ | ⟨-, drawn, hdrawn, rfl⟩
  · exact allGroups_isAssignment hfull
  · obtain ⟨hdrawing, hlength⟩ := custodyLoop_drawing Drawing.nil hdrawn
    have hperm : (drawn.insertionSort (· ≤ ·)).Perm drawn := List.perm_insertionSort _ drawn
    have hsorted : (drawn.insertionSort (· ≤ ·)).SortedLT :=
      List.sortedLE_insertionSort.sortedLT_of_nodup (hperm.nodup_iff.2 hdrawing.nodup)
    exact ⟨hperm.length_eq.trans hlength, hsorted.pairwise,
      fun g hg => hdrawing.inRange g (hperm.mem_iff.1 hg)⟩

/-- For every identifier and hash function, a node that takes custody of more groups keeps those
    it had, and what a call returns are as many distinct groups in order as were asked for. -/
theorem getCustodyGroups_mono (nodeId : NodeId) {c₁ c₂ : U64} (hle : c₁ ≤ c₂)
    (hlimit : c₂.val ≤ numberOfCustodyGroups) {fuel₁ fuel₂ : Nat}
    {groups₁ groups₂ : List CustodyIndex}
    (h₁ : getCustodyGroups fuel₁ nodeId c₁ = some (.ok groups₁))
    (h₂ : getCustodyGroups fuel₂ nodeId c₂ = some (.ok groups₂)) :
    IsAssignment c₁ groups₁ ∧ IsAssignment c₂ groups₂ ∧ groups₁ ⊆ groups₂ := by
  have hlimit₁ : c₁.val ≤ numberOfCustodyGroups := le_trans hle hlimit
  have hassigned₁ := getCustodyGroups_isAssignment hlimit₁ h₁
  refine ⟨hassigned₁, getCustodyGroups_isAssignment hlimit h₂, fun g hg => ?_⟩
  rcases getCustodyGroups_eq_ok hlimit h₂ with ⟨-, rfl⟩ | ⟨hpart, drawn₂, hdrawn₂, rfl⟩
  · exact mem_allGroups (hassigned₁.inRange g hg)
  · rcases getCustodyGroups_eq_ok hlimit₁ h₁ with ⟨hfull, -⟩ | ⟨-, drawn₁, hdrawn₁, rfl⟩
    · exact absurd (le_antisymm hlimit (hfull ▸ hle)) hpart
    · have hextends := custodyLoop_mono hle hdrawn₁ hdrawn₂
      rw [List.mem_insertionSort] at hg ⊢
      exact hextends.subset hg

end

end Moonglass

namespace Moonglass.Devnet

open Lib

section

/-- A hash that repeats the first byte of its input. -/
local instance firstByte : Crypto :=
  { crypto with sha256 := fun bytes => (zeros 32).set 0 (bytes.headD 0) zero_lt_32 }

/-- The largest identifier, whose successor is zero, draws one group and then another. -/
theorem getCustodyGroups_mono_last :
    ∃ groups₁ groups₂, getCustodyGroups 3 (Vector.replicate 32 255) 1 = some (.ok groups₁) ∧
      getCustodyGroups 3 (Vector.replicate 32 255) 2 = some (.ok groups₂) ∧
      groups₁ = [127] ∧ groups₂ = [0, 127] ∧
      IsAssignment 1 groups₁ ∧ IsAssignment 2 groups₂ ∧ groups₁ ⊆ groups₂ := by
  have h₁ : getCustodyGroups 3 (Vector.replicate 32 255) 1 = some (.ok [127]) := by decide +kernel
  have h₂ : getCustodyGroups 3 (Vector.replicate 32 255) 2 = some (.ok [0, 127]) := by
    decide +kernel
  exact ⟨_, _, h₁, h₂, rfl, rfl,
    getCustodyGroups_mono (Vector.replicate 32 255) (by decide) (by decide) h₁ h₂⟩

end

end Moonglass.Devnet
