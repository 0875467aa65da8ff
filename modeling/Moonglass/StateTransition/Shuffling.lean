import Moonglass.Lib.Shuffle
import Moonglass.StateTransition.Runs

/-
  The committees of an epoch. The shuffle of `n` indices is a permutation for every seed, whatever
  the hash is: up to the registry limit no position is too large for its bit to be looked up. The
  committees are the slices of the shuffled active set, one for each slot and committee index, so
  they split the active set.
-/

namespace Moonglass

open Lib Word

variable [Preset]
variable {index : CommitteeIndex} {indices committee : List ValidatorIndex} {seed : Bytes32}
  {duty : Slot × CommitteeIndex}

/-! ## The shuffle -/

section Shuffle

variable {n : Nat}

/-- The bit of a position, where it can be looked up. -/
def bitAt [Crypto] (seed : Bytes32) (round position : Nat) : Bool :=
  (sourceBit seed round position).toOption.getD false

theorem sourceBit_eq [Crypto] (seed : Bytes32) (round : Nat) {position : Nat}
    (h : position < 2 ^ 40) : sourceBit seed round position = .ok (bitAt seed round position) := by
  have hblock : position / 256 < 2 ^ 32 := by omega
  unfold bitAt sourceBit
  rw [ensure_of hblock]
  rfl

/-- The rounds of the shuffle of `n` indices. -/
def roundsOf [Crypto] (n : Nat) (seed : Bytes32) : List (Nat × (Nat → Bool)) :=
  (List.range shuffleRoundCount).map fun round => (pivotForRound seed round n, bitAt seed round)

theorem shuffleRoundCount_le : shuffleRoundCount ≤ 256 := by
  rcases pick_cases 90 10 with h | h <;> exact h.trans_le (by decide)

theorem pivotForRound_lt [Crypto] (seed : Bytes32) (round : Nat) (hn : 0 < n) :
    pivotForRound seed round n < n := Nat.mod_lt _ hn

theorem computeShuffledIndexChecked_eq [Crypto] (seed : Bytes32) {index : Nat} (hindex : index < n)
    (hn : n ≤ 2 ^ 40) : computeShuffledIndexChecked index n seed =
      .ok (shuffleRounds n (roundsOf n seed) index) := by
  have hpos : 0 < n := Nat.zero_lt_of_lt hindex
  unfold computeShuffledIndexChecked shuffleRounds roundsOf
  rw [ensure_of hpos.ne', ensure_of hindex, List.foldl_map]
  -- A round stays below `n`, so the next one finds its position's bit.
  refine foldlM_eq_foldl (· < n) (fun round hround current hcurrent => ?_) hindex
  have hpivot := pivotForRound_lt seed round hpos
  have hposition : max current (partner n (pivotForRound seed round n) current) < 2 ^ 40 :=
    (max_lt hcurrent (partner_lt hpivot)).trans_le hn
  refine ⟨?_, swapOrNot_lt hpivot hcurrent⟩
  show (ensure _ _ >>= fun _ => sourceBit seed round
    (max current (partner n (pivotForRound seed round n) current)) >>= fun bit => _) = _
  rw [ensure_of ((List.mem_range.1 hround).trans_le shuffleRoundCount_le),
    sourceBit_eq seed round hposition]
  rfl

/-- The shuffle as a permutation of the indices. -/
theorem exists_perm_shuffled [Crypto] (seed : Bytes32) (hn : n ≤ 2 ^ 40) :
    ∃ σ : Equiv.Perm (Fin n), ∀ i : Fin n, computeShuffledIndexChecked i.val n seed =
      .ok (σ i).val ∧ shuffleRounds n (roundsOf n seed) i.val = (σ i).val := by
  rcases Nat.eq_zero_or_pos n with rfl | hpos
  · exact ⟨Equiv.refl _, fun i => i.elim0⟩
  · have hpivots : ∀ round ∈ roundsOf n seed, round.1 < n := by
      intro round hround
      obtain ⟨r, -, rfl⟩ := List.mem_map.1 hround
      exact pivotForRound_lt seed r hpos
    obtain ⟨σ, hσ⟩ := exists_shufflePerm hpivots
    exact ⟨σ, fun i => ⟨by rw [computeShuffledIndexChecked_eq seed i.isLt hn, hσ], hσ i⟩⟩

end Shuffle

/-! ## Committees -/

/-- Place `i` of the shuffled list. -/
def shuffledAt [Crypto] (indices : List ValidatorIndex) (seed : Bytes32) (i : Nat) :
    ValidatorIndex :=
  indices.getD (shuffleRounds indices.length (roundsOf indices.length seed) i) 0

theorem shuffledAt_perm [Crypto] (seed : Bytes32) (hlen : indices.length ≤ 2 ^ 40) :
    ((List.range indices.length).map (shuffledAt indices seed)).Perm indices := by
  obtain ⟨σ, hσ⟩ := exists_perm_shuffled seed hlen
  refine map_getElem_perm σ _ fun i => ?_
  unfold shuffledAt
  rw [(hσ i).2]
  exact List.getD_eq_getElem _ _ (σ i).isLt

/-- Two places of the shuffled list hold different validators. -/
theorem shuffledAt_inj [Crypto] (hlen : indices.length ≤ 2 ^ 40) (hnodup : indices.Nodup)
    {i j : Nat} (hi : i < indices.length) (hj : j < indices.length)
    (h : shuffledAt indices seed i = shuffledAt indices seed j) : i = j := by
  have hmap : ((List.range indices.length).map (shuffledAt indices seed)).Nodup :=
    (shuffledAt_perm seed hlen).nodup_iff.2 hnodup
  exact List.inj_on_of_nodup_map hmap (List.mem_range.2 hi) (List.mem_range.2 hj) h

/-- A committee is a slice of the shuffled list. -/
theorem computeCommittee_eq [Crypto] (seed : Bytes32) {index count : Nat}
    (hlen : indices.length ≤ 2 ^ 40) (hindex : index < count) (hcount : count ≤ 2 ^ 20) :
    computeCommittee indices seed index count =
      .ok ((slice indices.length count index).map (shuffledAt indices seed)) := by
  have hproduct : indices.length * (index + 1) < 2 ^ 64 :=
    calc indices.length * (index + 1) ≤ 2 ^ 40 * 2 ^ 20 := Nat.mul_le_mul hlen (by omega)
      _ < 2 ^ 64 := by decide
  have hproduct' : indices.length * index < 2 ^ 64 :=
    (Nat.mul_le_mul_left _ (Nat.le_succ index)).trans_lt hproduct
  unfold computeCommittee
  dsimp only
  rw [ensure_of (Nat.ne_zero_of_lt hindex), ensure_of hindex, ensure_of hproduct',
    ensure_of (show index + 1 < 2 ^ 64 by omega), ensure_of hproduct]
  refine mapM_eq_map fun i hi => ?_
  have hi := lt_of_mem_slice hindex hi
  obtain ⟨σ, hσ⟩ := exists_perm_shuffled seed hlen
  obtain ⟨hshuffled, hplace⟩ := hσ ⟨i, hi⟩
  unfold shuffledAt
  rw [hshuffled, hplace, List.getD_eq_getElem _ _ (σ ⟨i, hi⟩).isLt]
  exact okOr_eq_ok.2 (List.getElem?_eq_getElem _)

namespace BeaconState

variable {s : BeaconState} {slot : Slot}

theorem getActiveValidatorIndices_length_le (s : BeaconState) (epoch : Epoch) :
    (s.getActiveValidatorIndices epoch).length ≤ 2 ^ 40 := by
  rw [getActiveValidatorIndices_eq s epoch le_rfl, List.length_map]
  calc _ ≤ (List.range s.validators.length).length := List.length_filter_le _ _
    _ = s.validators.length := List.length_range
    _ ≤ 2 ^ 40 := s.validators.length_le

theorem getActiveValidatorIndices_nodup (s : BeaconState) (epoch : Epoch) :
    (s.getActiveValidatorIndices epoch).Nodup := by
  rw [getActiveValidatorIndices_eq s epoch le_rfl]
  have hsmall : ∀ i ∈ (List.range s.validators.length).filter (s.activeAt epoch), i < 2 ^ 64 := by
    intro i hi
    have hlen : s.validators.length ≤ 2 ^ 40 := s.validators.length_le
    have := List.mem_range.1 (List.mem_of_mem_filter hi)
    omega
  exact (List.nodup_range.filter _).map_on fun i hi j hj h =>
    wrap_inj (hsmall i hi) (hsmall j hj) h

theorem getCommitteeCountPerSlot_bounds (s : BeaconState) (epoch : Epoch) :
    0 < s.getCommitteeCountPerSlot epoch ∧ s.getCommitteeCountPerSlot epoch ≤ 64 := by
  have hmax : maxCommitteesPerSlot ≤ 64 := by
    rcases pick_cases 64 4 with h | h <;> exact h.trans_le (by decide)
  unfold getCommitteeCountPerSlot
  omega

/-- A slot's epoch is far from the largest, so its seed can be looked up. -/
theorem getSeed_ok [Crypto] (s : BeaconState) (slot : Slot) (domainType : DomainType) :
    ∃ seed, s.getSeed slot.epoch domainType = .ok seed := by
  have hepoch : slot.epoch.val ≤ slot.val / 8 := by
    rw [Slot.epoch_val]
    exact Nat.div_le_div_left (by rcases slotsPerEpoch_cases with h | h <;> omega) (by decide)
  have hback : seedLookback ≤ 65536 := by
    have hring : epochsPerHistoricalVector ≤ 65536 := by
      rcases pick_cases 65536 64 with h | h <;> exact h.trans_le (by decide)
    unfold seedLookback
    omega
  have hslot := slot.isLt
  have hsum : slot.epoch.val + seedLookback < 2 ^ 64 := by omega
  unfold getSeed
  rw [show slot.epoch.checkedAdd seedLookback = some ⟨_, hsum⟩ from checkedAdd_eq_some.2 rfl]
  exact ⟨_, rfl⟩

/-- The place of a duty among those of its epoch, slot by slot. -/
def dutyPlace (s : BeaconState) (epoch : Epoch) (duty : Slot × CommitteeIndex) : Nat :=
  duty.1.val % slotsPerEpoch * s.getCommitteeCountPerSlot epoch + duty.2.val

theorem dutyPlace_lt (hindex : duty.2.val < s.getCommitteeCountPerSlot slot.epoch) :
    s.dutyPlace slot.epoch duty < s.getCommitteeCountPerSlot slot.epoch * slotsPerEpoch := by
  have hrow : duty.1.val % slotsPerEpoch + 1 ≤ slotsPerEpoch := Nat.mod_lt _ slotsPerEpoch_pos
  calc s.dutyPlace slot.epoch duty
      < (duty.1.val % slotsPerEpoch + 1) * s.getCommitteeCountPerSlot slot.epoch := by
        unfold dutyPlace
        rw [Nat.succ_mul]
        omega
    _ ≤ slotsPerEpoch * s.getCommitteeCountPerSlot slot.epoch := Nat.mul_le_mul_right _ hrow
    _ = _ := Nat.mul_comm _ _

/-- The committee of a duty is the slice at its place. -/
theorem getBeaconCommittee_eq [Crypto]
    (hseed : s.getSeed slot.epoch domainBeaconAttester = .ok seed)
    (hindex : index.val < s.getCommitteeCountPerSlot slot.epoch) :
    s.getBeaconCommittee slot index = .ok
      ((slice (s.getActiveValidatorIndices slot.epoch).length
        (s.getCommitteeCountPerSlot slot.epoch * slotsPerEpoch)
        (s.dutyPlace slot.epoch (slot, index))).map
          (shuffledAt (s.getActiveValidatorIndices slot.epoch) seed)) := by
  have hplace : s.dutyPlace slot.epoch (slot, index) <
      s.getCommitteeCountPerSlot slot.epoch * slotsPerEpoch := dutyPlace_lt hindex
  have hcount : s.getCommitteeCountPerSlot slot.epoch * slotsPerEpoch ≤ 64 * 32 :=
    Nat.mul_le_mul (s.getCommitteeCountPerSlot_bounds _).2
      (by rcases slotsPerEpoch_cases with h | h <;> omega)
  have hrow : slot.val % slotsPerEpoch * s.getCommitteeCountPerSlot slot.epoch ≤
      s.dutyPlace slot.epoch (slot, index) := Nat.le_add_right _ _
  unfold getBeaconCommittee
  dsimp only
  rw [ensure_of hindex, hseed, ensure_of (hcount.trans_lt (by decide)),
    ensure_of (show _ < 2 ^ 64 by omega),
    ensure_of (show slot.val % slotsPerEpoch * _ + index.val < 2 ^ 64 from
      hplace.trans (hcount.trans_lt (by decide)))]
  exact computeCommittee_eq seed (s.getActiveValidatorIndices_length_le _) hplace
    (hcount.trans (by decide))

/-- A committee that exists is the slice at the place of its duty. -/
theorem getBeaconCommittee_eq_ok [Crypto]
    (hseed : s.getSeed slot.epoch domainBeaconAttester = .ok seed)
    (h : s.getBeaconCommittee slot index = .ok committee) :
    index.val < s.getCommitteeCountPerSlot slot.epoch ∧ committee =
      (slice (s.getActiveValidatorIndices slot.epoch).length
        (s.getCommitteeCountPerSlot slot.epoch * slotsPerEpoch)
        (s.dutyPlace slot.epoch (slot, index))).map
          (shuffledAt (s.getActiveValidatorIndices slot.epoch) seed) := by
  have hindex : index.val < s.getCommitteeCountPerSlot slot.epoch := by
    unfold getBeaconCommittee at h
    obtain ⟨_, hindex, _⟩ := bind_eq_ok.1 h
    exact ensure_eq_ok.1 hindex
  exact ⟨hindex, Except.ok.inj (h.symm.trans (getBeaconCommittee_eq hseed hindex))⟩

theorem getBeaconCommittee_nodup [Crypto] :
    Ensures (s.getBeaconCommittee slot index) List.Nodup := by
  intro committee h
  obtain ⟨seed, hseed⟩ := s.getSeed_ok slot domainBeaconAttester
  obtain ⟨hindex, rfl⟩ := getBeaconCommittee_eq_ok hseed h
  refine (nodup_slice _ _ _).map_on fun i hi j hj heq => ?_
  have hplace : s.dutyPlace slot.epoch (slot, index) <
      s.getCommitteeCountPerSlot slot.epoch * slotsPerEpoch := dutyPlace_lt hindex
  exact shuffledAt_inj (s.getActiveValidatorIndices_length_le _)
    (s.getActiveValidatorIndices_nodup _) (lt_of_mem_slice hplace hi)
    (lt_of_mem_slice hplace hj) heq

/-- The place of a duty determines the slot within its epoch and the committee index. -/
theorem dutyPlace_inj {duty' : Slot × CommitteeIndex} (hepoch : duty.1.epoch = duty'.1.epoch)
    (hindex : duty.2.val < s.getCommitteeCountPerSlot slot.epoch)
    (hindex' : duty'.2.val < s.getCommitteeCountPerSlot slot.epoch)
    (h : s.dutyPlace slot.epoch duty = s.dutyPlace slot.epoch duty') : duty = duty' := by
  unfold dutyPlace at h
  generalize s.getCommitteeCountPerSlot slot.epoch = count at h hindex hindex'
  have hquotient : ∀ {row col : Nat}, col < count → (row * count + col) / count = row := by
    intro row col hcol
    rw [Nat.add_comm, Nat.add_mul_div_right _ _ (Nat.zero_lt_of_lt hcol), Nat.div_eq_of_lt hcol,
      Nat.zero_add]
  have hrow : duty.1.val % slotsPerEpoch = duty'.1.val % slotsPerEpoch := by
    have hsame := congrArg (· / count) h
    rwa [hquotient hindex, hquotient hindex'] at hsame
  have hepoch : duty.1.val / slotsPerEpoch = duty'.1.val / slotsPerEpoch := congrArg Fin.val hepoch
  have hslot : duty.1.val = duty'.1.val := by
    rw [← Nat.div_add_mod duty.1.val slotsPerEpoch, hepoch, hrow, Nat.div_add_mod]
  have hcol : duty.2.val = duty'.2.val := by
    rw [hrow] at h
    omega
  exact Prod.ext (Fin.ext hslot) (Fin.ext hcol)

/-- Two duties of one epoch have no validator in common. -/
theorem getBeaconCommittee_disjoint [Crypto] (duty duty' : Slot × CommitteeIndex)
    {committee' : List ValidatorIndex} (hepoch : duty.1.epoch = duty'.1.epoch) (hne : duty ≠ duty')
    (h : s.getBeaconCommittee duty.1 duty.2 = .ok committee)
    (h' : s.getBeaconCommittee duty'.1 duty'.2 = .ok committee') :
    committee.Disjoint committee' := by
  obtain ⟨seed, hseed⟩ := s.getSeed_ok duty.1 domainBeaconAttester
  obtain ⟨hindex, rfl⟩ := getBeaconCommittee_eq_ok hseed h
  rw [hepoch] at hseed
  obtain ⟨hindex', rfl⟩ := getBeaconCommittee_eq_ok hseed h'
  rw [← hepoch] at hindex' ⊢
  have hplace : s.dutyPlace duty.1.epoch duty <
      s.getCommitteeCountPerSlot duty.1.epoch * slotsPerEpoch := dutyPlace_lt hindex
  have hplace' : s.dutyPlace duty.1.epoch duty' <
      s.getCommitteeCountPerSlot duty.1.epoch * slotsPerEpoch := dutyPlace_lt hindex'
  have hplaces : s.dutyPlace duty.1.epoch duty ≠ s.dutyPlace duty.1.epoch duty' :=
    fun heq => hne (dutyPlace_inj hepoch hindex hindex' heq)
  intro v hv hv'
  obtain ⟨i, hi, rfl⟩ := List.mem_map.1 hv
  obtain ⟨j, hj, heq⟩ := List.mem_map.1 hv'
  have hij := shuffledAt_inj (s.getActiveValidatorIndices_length_le _)
    (s.getActiveValidatorIndices_nodup _) (lt_of_mem_slice hplace' hj)
    (lt_of_mem_slice hplace hi) heq
  exact disjoint_slice hplace hplace' hplaces hi (hij ▸ hj)

/-! ## All committees of an epoch -/

end BeaconState

/-- The slots of an epoch. -/
def Epoch.slots (epoch : Epoch) : List Slot :=
  (List.range slotsPerEpoch).map fun offset => Word.wrap (epoch.val * slotsPerEpoch + offset)

/-- The epoch of a slot ends before the slots do. -/
theorem Slot.epoch_add_lt (slot : Slot) {offset : Nat} (h : offset < slotsPerEpoch) :
    slot.epoch.val * slotsPerEpoch + offset < 2 ^ 64 := by
  have hslot : slot.val < 2 ^ 64 := slot.isLt
  rw [Slot.epoch_val]
  -- The number of slots is a multiple of the epoch's length.
  rcases slotsPerEpoch_cases with hsize | hsize <;> rw [hsize] at h ⊢ <;> omega

theorem Slot.mem_slots {slot slot' : Slot} :
    slot' ∈ slot.epoch.slots ↔ slot'.epoch = slot.epoch := by
  unfold Epoch.slots
  rw [List.mem_map]
  constructor
  · rintro ⟨offset, hoffset, rfl⟩
    have hoffset := List.mem_range.1 hoffset
    apply Fin.ext
    rw [Slot.epoch_val, wrap_val_of_lt (slot.epoch_add_lt hoffset), Nat.mul_comm,
      Nat.mul_add_div slotsPerEpoch_pos, Nat.div_eq_of_lt hoffset, Nat.add_zero]
  · intro hepoch
    have hoffset : slot'.val % slotsPerEpoch < slotsPerEpoch := Nat.mod_lt _ slotsPerEpoch_pos
    refine ⟨slot'.val % slotsPerEpoch, List.mem_range.2 hoffset, Fin.ext ?_⟩
    rw [wrap_val_of_lt (slot.epoch_add_lt hoffset), ← hepoch, Slot.epoch_val]
    exact Nat.div_add_mod' _ _

namespace BeaconState

variable {s : BeaconState} {slot : Slot}

/-- Every slot of the epoch with every committee index. -/
def epochDuties (s : BeaconState) (epoch : Epoch) : List (Slot × CommitteeIndex) :=
  epoch.slots.flatMap fun slot =>
    (List.range (s.getCommitteeCountPerSlot epoch)).map fun index => (slot, Word.wrap index)

/-- The committees of all slots and all committee indices of an epoch. -/
def epochCommittees [Crypto] (s : BeaconState) (epoch : Epoch) :
    Transition (List (List ValidatorIndex)) :=
  (s.epochDuties epoch).mapM fun duty => s.getBeaconCommittee duty.1 duty.2

/-- The places of the duties are counted through without a gap. -/
theorem map_dutyPlace (s : BeaconState) (slot : Slot) :
    (s.epochDuties slot.epoch).map (s.dutyPlace slot.epoch) =
      List.range (slotsPerEpoch * s.getCommitteeCountPerSlot slot.epoch) := by
  have hbound := (s.getCommitteeCountPerSlot_bounds slot.epoch).2
  unfold epochDuties Epoch.slots
  rw [List.map_flatMap, List.flatMap_map, ← flatMap_grid]
  refine List.flatMap_congr fun offset hoffset => ?_
  rw [List.map_map]
  refine List.map_congr_left fun index hindex => ?_
  have hoffset := List.mem_range.1 hoffset
  have hindex := List.mem_range.1 hindex
  have hslot : (slot.epoch.val * slotsPerEpoch + offset) % slotsPerEpoch = offset := by
    rw [Nat.mul_comm, Nat.mul_add_mod, Nat.mod_eq_of_lt hoffset]
  show (Word.wrap _ : Slot).val % slotsPerEpoch * _ + (Word.wrap index : CommitteeIndex).val = _
  rw [wrap_val_of_lt (slot.epoch_add_lt hoffset), hslot, wrap_val_of_lt (by omega)]

theorem mem_epochDuties :
    duty ∈ s.epochDuties slot.epoch ↔
      duty.1.epoch = slot.epoch ∧ duty.2.val < s.getCommitteeCountPerSlot slot.epoch := by
  have hbound := (s.getCommitteeCountPerSlot_bounds slot.epoch).2
  unfold epochDuties
  rw [List.mem_flatMap]
  constructor
  · rintro ⟨slot', hslot', hduty⟩
    obtain ⟨index, hindex, rfl⟩ := List.mem_map.1 hduty
    have hindex := List.mem_range.1 hindex
    refine ⟨Slot.mem_slots.1 hslot', ?_⟩
    show (Word.wrap index : CommitteeIndex).val < _
    rwa [wrap_val_of_lt (by omega)]
  · rintro ⟨hepoch, hindex⟩
    refine ⟨duty.1, Slot.mem_slots.2 hepoch,
      List.mem_map.2 ⟨duty.2.val, List.mem_range.2 hindex, ?_⟩⟩
    exact Prod.ext rfl (Fin.ext (wrap_val_of_lt duty.2.isLt))

/-- The committees of an epoch, joined, are a shuffle of its active set. -/
theorem epochCommittees_ok [Crypto] (s : BeaconState) (slot : Slot) :
    ∃ committees, s.epochCommittees slot.epoch = .ok committees ∧
      committees.flatten.Perm (s.getActiveValidatorIndices slot.epoch) := by
  obtain ⟨seed, hseed⟩ := s.getSeed_ok slot domainBeaconAttester
  have hlen := s.getActiveValidatorIndices_length_le slot.epoch
  generalize hindices : s.getActiveValidatorIndices slot.epoch = indices at hlen
  generalize hcount : s.getCommitteeCountPerSlot slot.epoch * slotsPerEpoch = count
  refine ⟨(s.epochDuties slot.epoch).map fun duty =>
    (slice indices.length count (s.dutyPlace slot.epoch duty)).map (shuffledAt indices seed),
    mapM_eq_map fun duty hduty => ?_, ?_⟩
  · obtain ⟨hepoch, hindex⟩ := mem_epochDuties.1 hduty
    rw [← hindices, ← hcount, ← hepoch]
    rw [← hepoch] at hseed hindex
    exact getBeaconCommittee_eq hseed hindex
  · have hpos : 0 < count := by
      rw [← hcount]
      exact Nat.mul_pos (s.getCommitteeCountPerSlot_bounds _).1 slotsPerEpoch_pos
    have hjoin : ((s.epochDuties slot.epoch).map fun duty =>
        (slice indices.length count (s.dutyPlace slot.epoch duty)).map
          (shuffledAt indices seed)).flatten =
        (List.range indices.length).map (shuffledAt indices seed) := by
      calc _ = (((s.epochDuties slot.epoch).map (s.dutyPlace slot.epoch)).flatMap
            (slice indices.length count)).map (shuffledAt indices seed) := by
            rw [List.map_flatMap, List.flatMap_map, List.flatMap_def]
        _ = ((List.range count).flatMap (slice indices.length count)).map
            (shuffledAt indices seed) := by
            rw [map_dutyPlace, Nat.mul_comm, hcount]
        _ = _ := by
            rw [flatMap_slice, Nat.mul_div_cancel _ hpos]
    rw [hjoin]
    exact shuffledAt_perm seed hlen

/-- For every seed and every count up to the registry limit the shuffle is a permutation, and the
committees of all slots and committee indices of an epoch are disjoint and hold every validator
active in it exactly once. The epochs are those with slots: the ones a `u64` slot lies in. -/
theorem committees_partition [Crypto] :
    (∀ (seed : Bytes32) (n : Nat), 1 ≤ n → n ≤ 2 ^ 40 → ∃ σ : Equiv.Perm (Fin n),
      ∀ i : Fin n, computeShuffledIndexChecked i.val n seed = .ok (σ i).val) ∧
    ∀ (s : BeaconState) (slot : Slot), ∃ committees,
      s.epochCommittees slot.epoch = .ok committees ∧ committees.Pairwise List.Disjoint ∧
      committees.flatten.Nodup ∧
      committees.flatten.Perm (s.getActiveValidatorIndices slot.epoch) := by
  constructor
  · intro seed n _ hn
    obtain ⟨σ, hσ⟩ := exists_perm_shuffled seed hn
    exact ⟨σ, fun i => (hσ i).1⟩
  · intro s slot
    obtain ⟨committees, hok, hperm⟩ := s.epochCommittees_ok slot
    have hnodup : committees.flatten.Nodup :=
      hperm.nodup_iff.2 (s.getActiveValidatorIndices_nodup slot.epoch)
    exact ⟨committees, hok, (List.nodup_flatten.1 hnodup).2, hnodup, hperm⟩

end BeaconState

end Moonglass

namespace Moonglass.Devnet

open BeaconState

/-- Five indices under the zero seed, and the committees of the first epoch. -/
theorem committees_partition_genesis :
    (∃ σ : Equiv.Perm (Fin 5), ∀ i : Fin 5,
      computeShuffledIndexChecked i.val 5 (Vector.replicate 32 0) = .ok (σ i).val) ∧
    ∃ committees, (stateAfter genesis).epochCommittees (Slot.epoch 0) = .ok committees ∧
      committees.Pairwise List.Disjoint ∧ committees.flatten.Nodup ∧
      committees.flatten.Perm ((stateAfter genesis).getActiveValidatorIndices (Slot.epoch 0)) :=
  ⟨committees_partition.1 _ 5 (by decide) (by decide),
    committees_partition.2 _ 0⟩

end Moonglass.Devnet
