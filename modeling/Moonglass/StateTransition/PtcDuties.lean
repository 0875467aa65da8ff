import Moonglass.StateTransition.Selection
import Moonglass.StateTransition.Windows

/-
  Duties on the payload-timeliness committee. The members of a slot are sampled from the beacon
  committees of the slot, two epochs ahead, when the epoch before last ends. The committees of the
  epoch are settled by then, so the members still belong to them when the window is read. Slots of
  one epoch have no validator in common, so a validator serves in one of them at most.
-/

namespace Moonglass

open Lib Word

variable [Preset] [Crypto]
variable {v : ValidatorIndex} {epoch : Epoch}

namespace BeaconState

variable {s s' : BeaconState} {slot : Slot}

/-! ## Sampling -/

/-- The validator is on one of the beacon committees of the slot. -/
def ServesAt (s : BeaconState) (slot : Slot) (v : ValidatorIndex) : Prop :=
  ∃ index committee, s.getBeaconCommittee slot index = .ok committee ∧ v ∈ committee

/-- A draw that is accepted returns a candidate. -/
theorem selectionDraw_mem {candidates : List ValidatorIndex} (hne : candidates ≠ [])
    (balances : List Gwei) (seed : Bytes32) (shuffleIndices : Bool) (i : Nat) :
    Ensures (selectionDraw candidates balances seed shuffleIndices i) fun drawn =>
      ∀ v, drawn = some v → v ∈ candidates := by
  have hpos : 0 < candidates.length := List.length_pos_iff.2 hne
  have haccepted : ∀ nextIndex < candidates.length, ∀ accepted : Bool,
      Ensures (if accepted then pure (some (candidates.getD nextIndex 0)) else pure none :
        Transition (Option ValidatorIndex)) fun drawn => ∀ v, drawn = some v → v ∈ candidates := by
    intro nextIndex hlt accepted
    refine .ite (.pure fun v hv => ?_) (.pure fun v hv => nomatch hv)
    rw [List.getD_eq_getElem _ _ hlt] at hv
    exact Option.some.inj hv ▸ List.getElem_mem hlt
  unfold selectionDraw
  exact .ite
    (.bind (computeShuffledIndexChecked_lt _ _ _) fun nextIndex hlt =>
      .skip fun accepted => haccepted nextIndex hlt accepted)
    (.bind (Q := (· < candidates.length)) (.pure (Nat.mod_lt i hpos)) fun nextIndex hlt =>
      .skip fun accepted => haccepted nextIndex hlt accepted)

theorem computeBalanceWeightedSelection_mem (candidates : List ValidatorIndex) (seed : Bytes32)
    (size : Nat) (shuffleIndices : Bool) :
    Ensures (s.computeBalanceWeightedSelection candidates seed size shuffleIndices) fun sample =>
      sample.length = size ∧ ∀ v ∈ sample, v ∈ candidates := by
  unfold computeBalanceWeightedSelection
  refine .guard fun hsome => .skip fun balances => ?_
  intro sample h
  have hne : candidates ≠ [] := fun hnil => hsome (List.isEmpty_iff.2 hnil)
  rw [balanceWeightedSelectionLoop_eq _ _ _ _ _ _ _ _ _ (fun h => absurd rfl h)] at h
  have hnone : ([] : List ValidatorIndex).length ≤ size := Nat.zero_le size
  refine ⟨collect_length hnone h, fun v hv => ?_⟩
  rcases mem_collect h hv with hold | ⟨k, hdraw⟩
  · cases hold
  · exact selectionDraw_mem hne _ _ _ k (some v) hdraw v rfl

/-- The committee sampled for a slot serves in it. -/
theorem computePtc_serves (s : BeaconState) (slot : Slot) :
    Ensures (s.computePtc slot) fun sample =>
      sample.length = ptcSize ∧ ∀ v ∈ sample, s.ServesAt slot v := by
  unfold computePtc
  refine .skip fun baseSeed => .bind (Q := fun committees => ∀ committee ∈ committees,
    ∃ index, s.getBeaconCommittee slot index = .ok committee)
    (.mapM fun ci _ committee h => ⟨_, h⟩) fun committees hcommittees => ?_
  refine (computeBalanceWeightedSelection_mem _ _ _ _).imp fun sample ⟨hlength, hmem⟩ => ?_
  refine ⟨hlength, fun v hv => ?_⟩
  obtain ⟨committee, hcommittee, hv⟩ := List.mem_flatten.1 (hmem v hv)
  obtain ⟨index, hindex⟩ := hcommittees committee hcommittee
  exact ⟨index, committee, hindex, hv⟩

theorem ServesAt.of_same (hv : s.ServesAt slot v) (h : SameDuties slot.epoch s s') :
    s'.ServesAt slot v := by
  obtain ⟨index, committee, hcommittee, hmem⟩ := hv
  exact ⟨index, committee, (h.getBeaconCommittee_eq index).trans hcommittee, hmem⟩

/-- A validator serves in one slot of an epoch at most. -/
theorem ServesAt.unique {slot' : Slot} (hepoch : slot.epoch = slot'.epoch) (h : s.ServesAt slot v)
    (h' : s.ServesAt slot' v) : slot = slot' := by
  obtain ⟨index, committee, hcommittee, hmem⟩ := h
  obtain ⟨index', committee', hcommittee', hmem'⟩ := h'
  by_contra hne
  have hduty : (slot, index) ≠ (slot', index') := fun heq => hne (congrArg Prod.fst heq)
  exact getBeaconCommittee_disjoint _ _ hepoch hduty hcommittee hcommittee' hmem hmem'

/-! ## The window -/

/-- The window has a committee for the slot, and its members serve in the slot. -/
def PtcServes (s : BeaconState) (slot : Slot) : Prop :=
  ∃ ptc, s.getPtc slot = .ok ptc ∧ ∀ v ∈ ptc.toList, s.ServesAt slot v

/-- The end of an epoch samples the epoch after the next one. -/
theorem processPtcWindow_samples : Ensures s.processPtcWindow fun s' => ∃ tail,
    s' = { s with ptcWindow := shiftWindow s.ptcWindow slotsPerEpoch tail } ∧
    ∀ slot : Slot, slot.epoch.val = s.slot.epoch.val + 2 →
      ∀ v ∈ (tail (slot.val % slotsPerEpoch)).toList, s.ServesAt slot v := by
  unfold processPtcWindow
  refine .found checkedAdd_eq_some.1 fun nextEpoch hnext => ?_
  refine .found checkedMul_eq_some.1 fun startSlot hstart => ?_
  refine .step fun samples hsamples => .pure ⟨_, rfl, fun slot hepoch v hv => ?_⟩
  have hmod := Nat.mod_lt slot.val slotsPerEpoch_pos
  obtain ⟨sample, hsample, hdrawn⟩ := getElem?_of_mapM hsamples (List.getElem?_range hmod)
  obtain ⟨slot', hslot', hdrawn⟩ := bind_eq_ok.1 hdrawn
  -- the slot at the offset is the slot itself
  have hoffset : slot'.val = startSlot.val + slot.val % slotsPerEpoch :=
    checkedAdd_eq_some.1 (okOr_eq_ok.1 hslot')
  have hdiv := Nat.div_add_mod' slot.val slotsPerEpoch
  have hsame : slot'.val = slot.val := by
    rw [hoffset, hstart, hnext, ← hdiv, ← Slot.epoch_val, hepoch]
    simp [minSeedLookahead]
  rw [Fin.ext hsame] at hdrawn
  obtain ⟨hlength, hserves⟩ := computePtc_serves s slot sample hdrawn
  rw [hsample, Option.getD_some, Vector.toList_ofFn, List.mem_ofFn] at hv
  obtain ⟨i, rfl⟩ := hv
  have hi : i.val < sample.length := i.isLt.trans_eq hlength.symm
  rw [List.getElem?_eq_getElem hi]
  exact hserves _ (List.getElem_mem hi)

/-- After the step into an epoch the committees of the next epoch are in the window. -/
theorem advanceSlot_samples (h : s.advanceSlot = .ok s')
    (hboundary : s'.slot.val % slotsPerEpoch = 0)
    (hnext : slot.epoch.val = s'.slot.epoch.val + 1) : s'.PtcServes slot := by
  have hepoch := (advanceSlot_payments h).epoch_boundary hboundary
  obtain ⟨filed, next, hfiled, hs', -, ⟨hinner, -⟩ | ⟨-, hprocess⟩⟩ := advanceSlot_parts h
  · exact absurd hboundary hinner
  have hfiledSlot : filed.slot = s.slot := (processSlot_effect filed hfiled).slot
  have hslot : next.slot = filed.slot := (processEpoch_duties hprocess).slot
  rw [processEpoch_eq] at hprocess
  simp only [bind_eq_ok] at hprocess
  obtain ⟨_, -, _, -, _, -, _, -, _, -, _, -, before, -, hprocess⟩ := hprocess
  obtain ⟨tail, rfl, hserves⟩ := processPtcWindow_samples next hprocess
  have hbefore : before.slot.epoch.val = s.slot.epoch.val :=
    congrArg (fun slot : Slot => slot.epoch.val) (hslot.trans hfiledSlot)
  -- only the window and the slot have changed since the sampling
  have hduties : SameDuties slot.epoch before s' := by
    rw [hs']
    exact ⟨fun _ => rfl, rfl⟩
  have hwindow : s'.ptcWindow = shiftWindow before.ptcWindow slotsPerEpoch tail := by
    rw [hs']
  have hbounds := slot.epoch_bounds
  have hlen : ptcWindowLen = 3 * slotsPerEpoch := rfl
  have hstart : slot.epoch.val * slotsPerEpoch =
      s.slot.epoch.val * slotsPerEpoch + 2 * slotsPerEpoch := by
    rw [hnext, hepoch, ← Nat.add_mul]
  have hmod : slot.val % slotsPerEpoch = slot.val - slot.epoch.val * slotsPerEpoch := by
    rw [Slot.epoch_val]
    have hdiv := Nat.div_add_mod' slot.val slotsPerEpoch
    omega
  have hplace : slot.val + slotsPerEpoch - (s.slot.epoch.val * slotsPerEpoch + ptcWindowLen) =
      slot.val % slotsPerEpoch := by
    omega
  refine ⟨tail (slot.val % slotsPerEpoch), ?_, fun v hv => ?_⟩
  · rw [getPtc_eq, windowPtc_eq, hwindow, epochStart, hepoch,
      entryAt_shiftWindow_tail (by omega) (by omega) (by rw [Nat.succ_mul]; omega), hplace,
      okOr_some]
  · exact (hserves slot (by omega) v hv).of_same hduties

/-! ## The loop of the assignment -/

/-- The validator is on the payload-timeliness committee of the slot. -/
def OnPtc (s : BeaconState) (slot : Slot) (v : ValidatorIndex) : Prop :=
  ∃ ptc, s.getPtc slot = .ok ptc ∧ v ∈ ptc.toList

omit [Crypto] in
theorem onPtc_iff {ptc : Vector ValidatorIndex ptcSize} (h : s.getPtc slot = .ok ptc) :
    s.OnPtc slot v ↔ v ∈ ptc.toList := by
  constructor
  · rintro ⟨ptc', h', hv⟩
    rw [h] at h'
    cases h'
    exact hv
  · exact fun hv => ⟨ptc, h, hv⟩

omit [Crypto] in
/-- The assignment is the first slot of the epoch with the validator on its committee. -/
theorem getPtcAssignment_eq {epoch : Epoch} {v : ValidatorIndex}
    {ptcAt : Nat → Vector ValidatorIndex ptcSize} (hnext : epoch.val ≤ s.slot.epoch.val + 1)
    (hend : epoch.val * slotsPerEpoch + slotsPerEpoch < 2 ^ 64)
    (hptc : ∀ offset < slotsPerEpoch,
      s.getPtc (Word.wrap (epoch.startSlot.val + offset)) = .ok (ptcAt offset)) :
    s.getPtcAssignment epoch v =
      .ok (((List.range slotsPerEpoch).find? fun offset => (ptcAt offset).toList.any (· == v)).map
        fun offset => Word.wrap (epoch.startSlot.val + offset)) := by
  have hspe : 2 ≤ slotsPerEpoch := epochs_in_ring.1
  have hstart : epoch.startSlot.val = epoch.val * slotsPerEpoch := by
    rw [Epoch.startSlot_val]
    exact Nat.min_eq_left (by omega)
  have hcurrent : s.slot.epoch.val ≤ s.slot.val / 2 := by
    rw [Slot.epoch_val]
    exact Nat.div_le_div_left hspe (by omega)
  have hslot := s.slot.isLt
  have hmax : s.getCurrentEpoch.checkedAdd minSeedLookahead =
      some (Word.wrap (s.slot.epoch.val + 1)) := by
    rw [checkedAdd_eq_some, wrap_val_of_lt (by omega)]
    rfl
  have hlast : epoch.startSlot.checkedAdd slotsPerEpoch =
      some (Word.wrap (epoch.startSlot.val + slotsPerEpoch)) := by
    rw [checkedAdd_eq_some, wrap_val_of_lt (by omega)]
  have hle : epoch ≤ (Word.wrap (s.slot.epoch.val + 1) : Epoch) := by
    show epoch.val ≤ (Word.wrap (s.slot.epoch.val + 1) : Epoch).val
    rw [wrap_val_of_lt (by omega)]
    exact hnext
  unfold getPtcAssignment
  rw [hmax, okOr_some, ok_bind, ensure_of hle, ok_bind]
  dsimp only
  rw [hlast, okOr_some, ok_bind]
  refine foldBreakM_find fun _ offset hoffset => ?_
  rw [hptc offset (List.mem_range.1 hoffset), ok_bind]
  split <;> rfl

/-- The payload-timeliness duties of an epoch in the window: every slot has a committee that serves
in the slot, a validator has a duty in one slot at most, and the assignment finds that slot. -/
structure PtcDuties (s : BeaconState) (epoch : Epoch) : Prop where
  serves : ∀ slot : Slot, slot.epoch = epoch → s.PtcServes slot
  once : ∀ v, ∀ slot slot' : Slot, slot.epoch = epoch → slot'.epoch = epoch → s.OnPtc slot v →
    s.OnPtc slot' v → slot = slot'
  assigned : epoch.val * slotsPerEpoch + slotsPerEpoch < 2 ^ 64 → ∀ v, ∃ found,
    s.getPtcAssignment epoch v = .ok found ∧
      ∀ slot, found = some slot ↔ slot.epoch = epoch ∧ s.OnPtc slot v

theorem PtcServes.onPtc (h : s.PtcServes slot) (hv : s.OnPtc slot v) : s.ServesAt slot v := by
  obtain ⟨ptc, hptc, hserves⟩ := h
  exact hserves v ((onPtc_iff hptc).1 hv)

omit [Crypto] in
/-- The slots of an epoch are those at the offsets from its start. -/
theorem mem_epoch_iff (hend : epoch.val * slotsPerEpoch + slotsPerEpoch < 2 ^ 64) :
    slot.epoch = epoch ↔ ∃ offset < slotsPerEpoch,
      (Word.wrap (epoch.startSlot.val + offset) : Slot) = slot := by
  have hstart : epoch.startSlot.val = epoch.val * slotsPerEpoch := by
    rw [Epoch.startSlot_val]
    exact Nat.min_eq_left (by omega)
  constructor
  · rintro rfl
    have hbounds := slot.epoch_bounds
    refine ⟨slot.val - slot.epoch.val * slotsPerEpoch, by omega, Fin.ext ?_⟩
    rw [wrap_val_of_lt (by omega)]
    omega
  · rintro ⟨offset, hoffset, rfl⟩
    refine Fin.ext ?_
    rw [Slot.epoch_val, wrap_val_of_lt (by omega), hstart, Nat.mul_comm,
      Nat.mul_add_div slotsPerEpoch_pos, Nat.div_eq_of_lt hoffset]
    rfl

/-- Committees that serve in the slots of an epoch give its duties. -/
theorem PtcDuties.of_serves (hnext : epoch.val ≤ s.slot.epoch.val + 1)
    (hserves : ∀ slot : Slot, slot.epoch = epoch → s.PtcServes slot) : s.PtcDuties epoch := by
  have honce : ∀ v, ∀ slot slot' : Slot, slot.epoch = epoch → slot'.epoch = epoch →
      s.OnPtc slot v → s.OnPtc slot' v → slot = slot' := by
    intro v slot slot' hslot hslot' hv hv'
    exact ServesAt.unique (hslot.trans hslot'.symm) ((hserves slot hslot).onPtc hv)
      ((hserves slot' hslot').onPtc hv')
  refine ⟨hserves, honce, fun hend v => ?_⟩
  -- the slot at an offset, and its committee
  let slotAt : Nat → Slot := fun offset => Word.wrap (epoch.startSlot.val + offset)
  have hslotAt : ∀ offset < slotsPerEpoch, (slotAt offset).epoch = epoch :=
    fun offset hoffset => (mem_epoch_iff hend).2 ⟨offset, hoffset, rfl⟩
  let ptcAt : Nat → Vector ValidatorIndex ptcSize := fun offset =>
    (s.windowPtc (slotAt offset)).getD (Vector.replicate _ 0)
  have hptc : ∀ offset < slotsPerEpoch, s.getPtc (slotAt offset) = .ok (ptcAt offset) := by
    intro offset hoffset
    obtain ⟨ptc, hptc, -⟩ := hserves _ (hslotAt offset hoffset)
    rw [hptc]
    rw [getPtc_eq, okOr_eq_ok] at hptc
    show _ = Except.ok ((s.windowPtc (slotAt offset)).getD _)
    rw [hptc]
    rfl
  have hfind : ∀ offset < slotsPerEpoch,
      (ptcAt offset).toList.any (· == v) = true ↔ s.OnPtc (slotAt offset) v := by
    intro offset hoffset
    rw [onPtc_iff (hptc offset hoffset), List.any_beq', List.contains_iff_mem]
  refine ⟨_, getPtcAssignment_eq hnext hend hptc, fun slot => ?_⟩
  rw [Option.map_eq_some_iff]
  constructor
  · rintro ⟨offset, hfound, rfl⟩
    have hoffset := List.mem_range.1 (List.mem_of_find?_eq_some hfound)
    have hmember := List.find?_some hfound
    exact ⟨hslotAt offset hoffset, (hfind offset hoffset).1 hmember⟩
  · rintro ⟨hslot, hv⟩
    obtain ⟨offset, hoffset, rfl⟩ := (mem_epoch_iff hend).1 hslot
    cases hfound : (List.range slotsPerEpoch).find?
        fun offset => (ptcAt offset).toList.any (· == v) with
    | none =>
      have hnot := List.find?_eq_none.1 hfound offset (List.mem_range.2 hoffset)
      rw [hfind offset hoffset] at hnot
      exact absurd hv hnot
    | some first =>
      -- the first slot found is the only one
      have hfirst := List.mem_range.1 (List.mem_of_find?_eq_some hfound)
      have hmember := List.find?_some hfound
      exact ⟨first, rfl, honce v _ _ (hslotAt first hfirst) hslot
        ((hfind first hfirst).1 hmember) hv⟩

end BeaconState

open BeaconState

/-! ## Runs -/

section Runs

variable {s s' : BeaconState} {events : List ChainEvent} {slot : Slot}

/-- A committee that was sampled along the chain serves in its slot for as long as it is in the
window. -/
theorem Runs.ptcServes (h : Runs s events s') (hsampled : s.slot.epoch.val + 1 < slot.epoch.val)
    (hwindow : slot.epoch.val ≤ s'.slot.epoch.val + 1 ∧ s'.slot.epoch.val ≤ slot.epoch.val + 1) :
    s'.PtcServes slot := by
  -- the step that samples the epoch of the slot enters the epoch before
  obtain ⟨a, b, post, hstep, hboundary, hepoch, hpost⟩ :=
    h.crosses (e := slot.epoch.val - 1) (by omega) (by omega)
  have hnext : slot.epoch.val = b.slot.epoch.val + 1 := by omega
  obtain ⟨ptc, hptc, hserves⟩ := advanceSlot_samples hstep hboundary hnext
  have hduties : SameDuties slot.epoch b s' := hpost.sameDuties hnext.le hwindow.2
  have hhi : slot.val + slotsPerEpoch < b.epochStart + ptcWindowLen :=
    (ptcWindow_bounds ⟨hnext.le, by omega⟩).2
  have hentry := (hpost.entryAt_eq (ptcWindow_bounds hwindow).1).2 hhi
  refine ⟨ptc, ?_, fun v hv => (hserves v hv).of_same hduties⟩
  rw [getPtc_eq, windowPtc_eq, hentry, ← windowPtc_eq, ← getPtc_eq]
  exact hptc

/-- Once a chain has filled the window, the duties of every epoch in it are in order. -/
theorem BeaconState.ptc_duties (h : Runs s events s')
    (hfilled : s.slot.epoch.val + 3 ≤ s'.slot.epoch.val) (epoch : Epoch)
    (hwindow : epoch.val ≤ s'.slot.epoch.val + 1 ∧ s'.slot.epoch.val ≤ epoch.val + 1) :
    s'.PtcDuties epoch := by
  refine .of_serves hwindow.1 fun slot hslot => ?_
  subst hslot
  exact h.ptcServes (by omega) hwindow

end Runs

end Moonglass

namespace Moonglass.Devnet

open Lib BeaconState

/-- Two epochs and a slot without blocks: from the last slot of an epoch they enter three. -/
def emptyEpochs : List (Option BeaconBlock) := List.replicate 17 none

theorem ptc_duties_market : ∃ events s', Runs { market with slot := 31 } events s' ∧
    events.map (·.block) = emptyEpochs ∧ s'.slot = 48 ∧ s'.PtcDuties 5 ∧ s'.PtcDuties 6 ∧
    s'.PtcDuties 7 := by
  have hcheck : followCheck (fun _ s' => s'.slot = 48) { market with slot := 31 } emptyEpochs =
      true := by
    decide +kernel
  obtain ⟨events, s', hruns, hblocks, hslot⟩ := followCheck_runs hcheck
  have hepoch : s'.slot.epoch = 6 := by
    rw [hslot]
    decide
  have hfilled : ({ market with slot := 31 } : BeaconState).slot.epoch.val + 3 ≤
      s'.slot.epoch.val := by
    rw [hepoch]
    decide
  exact ⟨events, s', hruns, hblocks, hslot,
    ptc_duties hruns hfilled 5 (by rw [hepoch]; decide),
    ptc_duties hruns hfilled 6 (by rw [hepoch]; decide),
    ptc_duties hruns hfilled 7 (by rw [hepoch]; decide)⟩

/-- The last slot of the fifth epoch from the end of time. -/
def lateMarket : BeaconState := { market with slot := Word.wrap (2 ^ 64 - 33) }

/-- The last epoch is in the window and its slots have their committees, but the slot that would
come after it cannot be computed. -/
theorem getPtcAssignment_lastEpoch : ∃ events s', Runs lateMarket events s' ∧
    events.map (·.block) = emptyEpochs ∧
    lateMarket.slot.epoch.val + 3 ≤ s'.slot.epoch.val ∧
    (Word.wrap (2 ^ 61 - 1) : Epoch).val = s'.slot.epoch.val + 1 ∧
    (∃ ptc, s'.getPtc (Word.wrap (2 ^ 64 - 1)) = .ok ptc) ∧
    s'.getPtcAssignment (Word.wrap (2 ^ 61 - 1)) 0 = .error (.arithmeticOverflow .slot) := by
  have hcheck : followCheck (fun _ s' => s'.slot.val = 2 ^ 64 - 16 ∧
      (s'.getPtc (Word.wrap (2 ^ 64 - 1))).isOk = true ∧
      s'.getPtcAssignment (Word.wrap (2 ^ 61 - 1)) 0 = .error (.arithmeticOverflow .slot))
      lateMarket emptyEpochs = true := by
    decide +kernel
  obtain ⟨events, s', hruns, hblocks, hslot, hptc, herror⟩ := followCheck_runs hcheck
  have hepoch : s'.slot.epoch.val = 2 ^ 61 - 2 := by
    rw [Slot.epoch_val, hslot]
    decide
  exact ⟨events, s', hruns, hblocks, by rw [hepoch]; decide, by rw [hepoch]; decide,
    exists_ok_of_isOk hptc, herror⟩

end Moonglass.Devnet
