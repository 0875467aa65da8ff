import Moonglass.Lib.Mask
import Moonglass.StateTransition.Shuffling

/-
  The expansion of an attestation into its attesters. The selected committees are read one after
  the other against one aggregation bitlist. They are disjoint, so the joined committees hold every
  validator once, and each bit stands for exactly one of them.
-/

namespace Moonglass

open Lib

variable [Preset] [Crypto]

/-! ## Selected committees -/

omit [Preset] [Crypto] in
/-- No committee is selected twice. -/
theorem getCommitteeIndices_nodup {n : Nat} (hn : n ≤ 2 ^ 64) (bits : Bitvector n) :
    (getCommitteeIndices bits).Nodup := by
  have hplaces : getCommitteeIndices bits =
      ((List.range bits.toList.length).filter fun i => bits.toList[i]?.any id).map Word.wrap :=
    filterMap_zipIdx id Word.wrap bits.toList
  rw [hplaces]
  refine (List.nodup_range.filter _).map_on fun i hi j hj h => ?_
  have hi := List.mem_range.1 (List.mem_of_mem_filter hi)
  have hj := List.mem_range.1 (List.mem_of_mem_filter hj)
  rw [Vector.length_toList] at hi hj
  exact Word.wrap_inj (hi.trans_le hn) (hj.trans_le hn) h

namespace BeaconState

variable {s : BeaconState} {attestation : Attestation}

/-- The aggregation bit of a place; a place past the end has none. -/
def aggregationMask (attestation : Attestation) (k : Nat) : Bool :=
  (attestation.aggregationBits.get? k).getD false

/-- The committees an attestation selects, in order. -/
def selectedCommittees (s : BeaconState) (attestation : Attestation) :
    Transition (List (List ValidatorIndex)) :=
  (getCommitteeIndices attestation.committeeBits).mapM
    (s.getBeaconCommittee attestation.data.slot)

/-- Different committees of one slot, joined, hold no validator twice. -/
theorem mapM_getBeaconCommittee_nodup {slot : Slot} {indices : List CommitteeIndex}
    {committees : List (List ValidatorIndex)} (hindices : indices.Nodup)
    (h : indices.mapM (s.getBeaconCommittee slot) = .ok committees) : committees.flatten.Nodup := by
  induction indices generalizing committees with
  | nil =>
    cases h
    exact List.nodup_nil
  | cons ci indices ih =>
    obtain ⟨hci, hindices⟩ := List.nodup_cons.1 hindices
    obtain ⟨committee, rest, hcommittee, hrest, rfl⟩ := mapM_cons_eq_ok.1 h
    rw [List.flatten_cons, List.nodup_append']
    refine ⟨getBeaconCommittee_nodup committee hcommittee, ih hindices hrest, fun v hv hv' => ?_⟩
    obtain ⟨committee', hmem, hv'⟩ := List.mem_flatten.1 hv'
    obtain ⟨ci', hci', hcommittee'⟩ := Ensures.mapM (P := fun c => ∃ ci' ∈ indices,
      s.getBeaconCommittee slot ci' = .ok c) (fun ci' hci' c hc => ⟨ci', hci', hc⟩)
      rest hrest committee' hmem
    have hne : (slot, ci) ≠ (slot, ci') := fun heq => hci ((Prod.mk.inj heq).2 ▸ hci')
    exact getBeaconCommittee_disjoint (slot, ci) (slot, ci') rfl hne hcommittee hcommittee' hv hv'

/-- One turn of the expansion. -/
def expandStep (s : BeaconState) (attestation : Attestation) (acc : List ValidatorIndex × Nat)
    (ci : CommitteeIndex) : Transition (List ValidatorIndex × Nat) := do
  let committee ← s.getBeaconCommittee attestation.data.slot ci
  let attesters := committee.zipIdx.filterMap fun (vi, i) =>
    if (attestation.aggregationBits.get? (acc.2 + i)).getD false then some vi else none
  ensure (¬attesters.isEmpty) (.operation .attestationParticipantsEmpty)
  pure (acc.1 ++ attesters, acc.2 + committee.length)

theorem attestingIndices_eq (s : BeaconState) (attestation : Attestation) :
    s.attestingIndices attestation = (do
      let (out, offset) ← (getCommitteeIndices attestation.committeeBits).foldlM
        (s.expandStep attestation) ([], 0)
      ensure (attestation.aggregationBits.length = offset)
        (.operation .attestationAggregationBitsLength)
      pure (out.insertionSort (· ≤ ·)).dedup) := rfl

theorem expandStep_eq_ok {acc acc' : List ValidatorIndex × Nat} {ci : CommitteeIndex}
    (h : s.expandStep attestation acc ci = .ok acc') :
    ∃ committee, s.getBeaconCommittee attestation.data.slot ci = .ok committee ∧
      masked (aggregationMask attestation) acc.2 committee ≠ [] ∧
      acc' = (acc.1 ++ masked (aggregationMask attestation) acc.2 committee,
        acc.2 + committee.length) := by
  unfold expandStep at h
  obtain ⟨committee, hcommittee, h⟩ := bind_eq_ok.1 h
  have hmasked := filterMap_zipIdx_eq_masked (aggregationMask attestation) acc.2 committee
  unfold aggregationMask at hmasked
  dsimp only at h
  rw [hmasked] at h
  obtain ⟨_, hsome, h⟩ := bind_eq_ok.1 h
  have hsome := ensure_eq_ok.1 hsome
  refine ⟨committee, hcommittee, fun hnil => hsome ?_, (Except.ok.inj h).symm⟩
  exact List.isEmpty_iff.2 hnil

/-- The expansion after all selected committees. -/
theorem foldlM_expandStep {indices : List CommitteeIndex} {out out' : List ValidatorIndex}
    {offset offset' : Nat}
    (h : indices.foldlM (s.expandStep attestation) (out, offset) = .ok (out', offset')) :
    ∃ committees, indices.mapM (s.getBeaconCommittee attestation.data.slot) = .ok committees ∧
      out' = out ++ masked (aggregationMask attestation) offset committees.flatten ∧
      offset' = offset + committees.flatten.length ∧
      ∀ committee ∈ committees, ∃ v ∈ committee, v ∈ out' := by
  induction indices generalizing out offset with
  | nil =>
    rw [foldlM_nil_eq_ok] at h
    cases h
    exact ⟨[], rfl, by simp, by simp, by simp⟩
  | cons ci indices ih =>
    obtain ⟨⟨out₁, offset₁⟩, hstep, h⟩ := foldlM_cons_eq_ok.1 h
    obtain ⟨committee, hcommittee, hsome, hacc⟩ := expandStep_eq_ok hstep
    obtain ⟨rfl, rfl⟩ := Prod.mk.inj hacc
    obtain ⟨committees, hcommittees, rfl, rfl, hmembers⟩ := ih h
    refine ⟨committee :: committees, mapM_cons_eq_ok.2 ⟨_, _, hcommittee, hcommittees, rfl⟩,
      ?_, ?_, ?_⟩
    · rw [List.flatten_cons, masked_append, List.append_assoc]
    · rw [List.flatten_cons, List.length_append, Nat.add_assoc]
    · intro c hc
      rcases List.mem_cons.1 hc with rfl | hc
      · obtain ⟨v, hv⟩ := List.exists_mem_of_ne_nil _ hsome
        exact ⟨v, (masked_sublist _ _).subset hv,
          List.mem_append_left _ (List.mem_append_right _ hv)⟩
      · exact hmembers c hc

/-- The expansion of an attestation is exact: each bit decides about the validator at its place of
the joined selected committees, and sorting and removing duplicates lose no one. -/
theorem attestingIndices_exact (s : BeaconState) (attestation : Attestation)
    (attesters : List ValidatorIndex) (h : s.attestingIndices attestation = .ok attesters) :
    ∃ committees, s.selectedCommittees attestation = .ok committees ∧
      committees.flatten.length = attestation.aggregationBits.length ∧
      committees.flatten.Nodup ∧
      attesters.Pairwise (· < ·) ∧
      attesters.length = attestation.aggregationBits.toList.count true ∧
      (∀ committee ∈ committees, ∃ v ∈ committee, v ∈ attesters) ∧
      (∀ k v, committees.flatten[k]? = some v →
        (v ∈ attesters ↔ attestation.aggregationBits.get? k = some true)) ∧
      (∀ v ∈ attesters, v ∈ committees.flatten) ∧
      attesters = (masked (aggregationMask attestation) 0 committees.flatten).insertionSort
        (· ≤ ·) := by
  rw [attestingIndices_eq] at h
  obtain ⟨⟨out, offset⟩, hloop, h⟩ := bind_eq_ok.1 h
  obtain ⟨_, hlength, h⟩ := bind_eq_ok.1 h
  have hlength : attestation.aggregationBits.length = offset := ensure_eq_ok.1 hlength
  obtain ⟨committees, hcommittees, hout, hoffset, hmembers⟩ := foldlM_expandStep hloop
  rw [List.nil_append] at hout
  rw [Nat.zero_add, ← hlength] at hoffset
  have hwidth : maxCommitteesPerSlot ≤ 2 ^ 64 := by
    rcases pick_cases 64 4 with h | h <;> exact h.trans_le (by decide)
  have hnodup := mapM_getBeaconCommittee_nodup
    (getCommitteeIndices_nodup hwidth attestation.committeeBits) hcommittees
  have houtNodup : out.Nodup := hout ▸ hnodup.sublist (masked_sublist _ _)
  have hsorted : (out.insertionSort (· ≤ ·)).Nodup :=
    (List.perm_insertionSort _ out).nodup_iff.2 houtNodup
  have hattesters : attesters = out.insertionSort (· ≤ ·) := by
    rw [← List.dedup_eq_self.2 hsorted]
    exact (Except.ok.inj h).symm
  have hmem : ∀ v, v ∈ attesters ↔ v ∈ out := by
    intro v
    rw [hattesters]
    exact List.mem_insertionSort _
  refine ⟨committees, hcommittees, hoffset.symm, hnodup, ?_, ?_, ?_, ?_, ?_, hout ▸ hattesters⟩
  · rw [hattesters]
    have hle := List.pairwise_insertionSort (· ≤ ·) out
    exact (hle.and hsorted).imp fun h => lt_of_le_of_ne h.1 h.2
  · rw [hattesters, List.length_insertionSort, hout, length_masked, ← hoffset]
    exact countP_range_getD attestation.aggregationBits.toList
  · intro committee hcommittee
    obtain ⟨v, hv, hvout⟩ := hmembers committee hcommittee
    exact ⟨v, hv, (hmem v).2 hvout⟩
  · intro k v hv
    rw [hmem, hout, mem_masked_iff hnodup 0 hv, Nat.zero_add]
    unfold aggregationMask
    cases attestation.aggregationBits.get? k with
    | none => simp
    | some bit => simp
  · intro v hv
    rw [hmem, hout] at hv
    exact (masked_sublist _ _).subset hv

end BeaconState

end Moonglass

namespace Moonglass.Devnet

open Lib

/-- The market with enough validators for two committees of four in each slot. -/
def crowdedMarket : BeaconState :=
  { market with validators := ⟨List.replicate 64 (validator 32000000000), by decide⟩ }

/-- Three votes out of the two committees of slot 24. -/
def jointVote : Attestation :=
  { attestation 24 Root.ZERO Root.ZERO with
    aggregationBits := ⟨[true, false, false, true, false, true, false, false], by decide⟩
    committeeBits := (Vector.replicate _ false).set 0 true zero_lt_committees |>.set 1 true }

theorem attestingIndices_exact_jointVote : ∃ attesters,
    crowdedMarket.attestingIndices jointVote = .ok attesters ∧ attesters.length = 3 ∧
      attesters.Pairwise (· < ·) := by
  obtain ⟨attesters, hattesters⟩ := exists_ok_of_isOk
    (show (crowdedMarket.attestingIndices jointVote).isOk = true by decide +kernel)
  obtain ⟨_, -, -, -, hsorted, hlength, -⟩ :=
    BeaconState.attestingIndices_exact crowdedMarket jointVote attesters hattesters
  exact ⟨attesters, hattesters, hlength, hsorted⟩

end Moonglass.Devnet
