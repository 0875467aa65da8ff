import Moonglass.Lib.Tally
import Moonglass.StateTransition.Runs

/-
  Stake moves between balances and the deposit queue. A consolidation moves it between balances, a
  switch to compounding credentials moves the excess of a balance into the queue, and the epoch
  moves the queue into balances. What is lost on the way are the deposits for new keys without a
  valid signature, which leave the queue and reach no balance.
-/

namespace Moonglass

open Lib List BoundedList Word

variable [Preset]
variable {seen : List PendingDeposit} {d : DepositSweep} {deposit : PendingDeposit}

/-! ## Sums -/

namespace BeaconState

/-- The sum of all balances. -/
def totalBalance (s : BeaconState) : Nat := tally (fun b : Gwei => b.val) s.balances.toList

end BeaconState

/-- The sum of the amounts of deposits. -/
def depositAmounts (deposits : List PendingDeposit) : Nat :=
  tally (fun d : PendingDeposit => d.amount.val) deposits

namespace BeaconState

/-- All balances and all pending deposits. -/
def totalStake (s : BeaconState) : Nat := s.totalBalance + depositAmounts s.pendingDeposits.toList

variable {s s' : BeaconState}

/-! ## Single balances -/

theorem updateBalance_effect (index : ValidatorIndex) (f : Gwei → Transition Gwei) :
    Ensures (s.updateBalance index f) fun s' => ∃ b b', s.balances.get? index.val = some b ∧
      f b = .ok b' ∧ s' = { s with balances := s.balances.set index.val b' } := by
  unfold updateBalance
  refine .skip fun _ => .bind (fun b hb => okOr_eq_ok.1 hb) fun b hb => ?_
  exact .bind (fun b' hb' => hb') fun b' hb' => .pure ⟨b, b', hb, hb', rfl⟩

theorem increaseBalance_effect (index : ValidatorIndex) (delta : Gwei) :
    Ensures (s.increaseBalance index delta) fun s' =>
      s'.validators = s.validators ∧ s'.totalBalance = s.totalBalance + delta.val := by
  refine (updateBalance_effect index _).imp fun s' ⟨b, b', hb, hb', hs'⟩ => ?_
  have hval := checkedAdd_eq_some.1 (okOr_eq_ok.1 hb')
  have htotal := tally_set (f := fun b : Gwei => b.val) b' hb
  subst hs'
  refine ⟨rfl, ?_⟩
  unfold totalBalance
  rw [toList_set]
  omega

/-- A decrease that does not saturate. -/
theorem decreaseBalance_total {index : ValidatorIndex} {b delta : Gwei}
    (hb : s.balances.get? index.val = some b) (hle : delta.val ≤ b.val) :
    Ensures (s.decreaseBalance index delta) fun s' =>
      s'.totalBalance + delta.val = s.totalBalance := by
  refine (updateBalance_effect index _).imp fun s' ⟨b₁, b', hb₁, hb', hs'⟩ => ?_
  obtain rfl := Option.some.inj (hb.symm.trans hb₁)
  obtain rfl := Except.ok.inj hb'
  have htotal := tally_set (f := fun b : Gwei => b.val) (b.satSub delta.val) hb
  rw [satSub_val] at htotal
  subst hs'
  unfold totalBalance
  rw [toList_set]
  omega

/-! ## Consolidations -/

theorem consolidationStep_total (nextEpoch : Epoch) (acc : BeaconState × Nat)
    (entry : PendingConsolidation) :
    Ensures (consolidationStep nextEpoch acc entry) fun r =>
      r.value.1.totalBalance = acc.1.totalBalance := by
  obtain ⟨s, consumed⟩ := acc
  unfold consolidationStep
  refine .skip fun source => .ite (.pure rfl) (.ite (.pure rfl) ?_)
  refine .bind (fun b hb => okOr_eq_ok.1 hb) fun balance hbalance => ?_
  -- the clamp to the balance keeps the decrease from saturating
  have hle : (min balance source.effectiveBalance).val ≤ balance.val :=
    Fin.le_def.1 (min_le_left _ _)
  refine .bind (decreaseBalance_total hbalance hle) fun s₁ h₁ => ?_
  refine .bind (increaseBalance_effect _ _) fun s₂ h₂ => .pure ?_
  exact h₂.2.trans h₁

theorem processPendingConsolidations_total :
    Ensures s.processPendingConsolidations fun s' => s'.totalBalance = s.totalBalance := by
  unfold processPendingConsolidations
  refine .skip fun nextEpoch => ?_
  refine .bind (Q := fun acc : BeaconState × Nat => acc.1.totalBalance = s.totalBalance) ?_
    fun acc hacc => .pure hacc
  refine .foldBreakM (fun entry acc hacc => ?_) rfl
  exact (consolidationStep_total nextEpoch acc entry).imp fun _ h => h.trans hacc

/-! ## Compounding credentials -/

theorem queueExcessActiveBalance_stake (index : ValidatorIndex) :
    Ensures (s.queueExcessActiveBalance index) fun s' => s'.totalStake = s.totalStake := by
  unfold queueExcessActiveBalance
  refine .skip fun v => .bind (fun b hb => okOr_eq_ok.1 hb) fun balance hbalance => ?_
  refine .ite (.pure rfl) ?_
  refine .bind (fun b hb => checkedSub_eq_some.1 (okOr_eq_ok.1 hb)) fun excess hexcess => ?_
  refine .bind (fun q hq => push_eq_some.1 (okOr_eq_ok.1 hq)) fun queue hqueue => ?_
  refine .pure ?_
  have htotal := tally_set (f := fun b : Gwei => b.val) (Word.wrap minActivationBalance) hbalance
  have hmin : (Word.wrap minActivationBalance : Gwei).val = minActivationBalance := rfl
  unfold totalStake totalBalance depositAmounts
  rw [hqueue.2, tally_append, tally_cons, tally_nil, toList_set]
  dsimp only
  omega

theorem switchToCompoundingValidator_stake (index : ValidatorIndex) :
    Ensures (s.switchToCompoundingValidator index) fun s' => s'.totalStake = s.totalStake := by
  unfold switchToCompoundingValidator
  exact .skip fun _ => queueExcessActiveBalance_stake index

end BeaconState

/-! ## The deposit queue -/

namespace PendingDeposit

/-- The deposit may add its key to the registry. -/
def hasValidSignature [Crypto] (d : PendingDeposit) : Bool :=
  BeaconState.isValidDepositSignature d.pubkey d.withdrawalCredentials d.amount d.signature

end PendingDeposit

variable [Crypto]

/-- The keys known after a deposit has been applied. -/
def learn (known : BLSPubkey → Bool) (d : PendingDeposit) (pubkey : BLSPubkey) : Bool :=
  known pubkey || d.hasValidSignature && d.pubkey == pubkey

/-- Of deposits applied in order, those for a key that is new at their turn and whose signature is
invalid. -/
def droppedDeposits (known : BLSPubkey → Bool) : List PendingDeposit → List PendingDeposit
  | [] => []
  | d :: ds =>
    if known d.pubkey || d.hasValidSignature then droppedDeposits (learn known d) ds
    else d :: droppedDeposits (learn known d) ds

theorem droppedDeposits_append (known : BLSPubkey → Bool) (ds ds' : List PendingDeposit) :
    droppedDeposits known (ds ++ ds') =
      droppedDeposits known ds ++ droppedDeposits (ds.foldl learn known) ds' := by
  induction ds generalizing known with
  | nil => rfl
  | cons d ds ih =>
    rw [cons_append, droppedDeposits, droppedDeposits, ih, foldl_cons]
    split <;> rfl

theorem learn_of_known {known : BLSPubkey → Bool} {d : PendingDeposit}
    (h : known d.pubkey = true) : learn known d = known := by
  funext pubkey
  unfold learn
  by_cases heq : d.pubkey = pubkey
  · rw [← heq, h, Bool.true_or]
  · rw [beq_eq_false_iff_ne.2 heq, Bool.and_false, Bool.or_false]

namespace BeaconState

variable {s s' : BeaconState}

def isKnown (s : BeaconState) (pubkey : BLSPubkey) : Bool :=
  s.validators.toList.any fun v => v.pubkey == pubkey

/-- What the deposit loop of the epoch returns. -/
def depositSweep (s : BeaconState) : Transition DepositSweep := do
  let nextEpoch ← checkedEpochAdd s.slot.epoch 1
  let churnLimit ← s.getActivationChurnLimit
  let available ← okOr (s.depositBalanceToConsume.checkedAdd churnLimit.val)
    (.arithmeticOverflow .churn)
  let finalizedSlot ← checkedStartSlot s.finalizedCheckpoint.epoch
  foldBreakM (depositStep nextEpoch finalizedSlot available) ⟨s, 0, 0, [], false⟩
    s.pendingDeposits.toList

omit [Crypto] in
/-- The index of a key is found exactly when the key is known. -/
theorem isSome_validatorIndex (s : BeaconState) (pubkey : BLSPubkey) :
    (s.validatorIndex pubkey).isSome = s.isKnown pubkey := by
  unfold validatorIndex isKnown
  rw [Option.isSome_map]
  exact findIdx?_isSome

omit [Crypto] in
theorem addValidatorToRegistry_added {pubkey : BLSPubkey} {credentials : Bytes32} {amount : Gwei} :
    Ensures (s.addValidatorToRegistry pubkey credentials amount) fun s' =>
      (∀ key, s'.isKnown key = (s.isKnown key || pubkey == key)) ∧
        s'.totalBalance = s.totalBalance + amount.val := by
  unfold addValidatorToRegistry
  refine .found push_eq_some.1 fun vs hvs => ?_
  refine .found push_eq_some.1 fun bs hbs => ?_
  refine .skip fun _ => .skip fun _ => .skip fun _ => .pure ⟨fun key => ?_, ?_⟩
  · unfold isKnown
    rw [hvs.2, any_append, any_cons, any_nil, Bool.or_false]
  · unfold totalBalance
    rw [hbs.2, tally_append, tally_cons, tally_nil]
    rfl

/-- What applying a deposit does to the keys and to the sum of the balances. -/
structure Credited (d : PendingDeposit) (s s' : BeaconState) : Prop where
  known : s'.isKnown = learn s.isKnown d
  balance : s'.totalBalance + depositAmounts (droppedDeposits s.isKnown [d]) =
    s.totalBalance + d.amount.val

theorem applyPendingDeposit_credited (d : PendingDeposit) :
    Ensures (s.applyPendingDeposit d) (Credited d s) := by
  unfold applyPendingDeposit
  cases hindex : s.validatorIndex d.pubkey with
  | some index =>
    have hknown : s.isKnown d.pubkey = true := by rw [← isSome_validatorIndex, hindex]; rfl
    refine (increaseBalance_effect index d.amount).imp fun s' ⟨hvalidators, htotal⟩ => ⟨?_, ?_⟩
    · rw [learn_of_known hknown]
      unfold isKnown
      rw [hvalidators]
    · rw [droppedDeposits, hknown]
      exact htotal
  | none =>
    have hknown : s.isKnown d.pubkey = false := by rw [← isSome_validatorIndex, hindex]; rfl
    refine .dite (fun hvalid => ?_) fun hvalid => ?_
    · have hvalid : d.hasValidSignature = true := hvalid
      refine addValidatorToRegistry_added.imp fun s' ⟨hkeys, htotal⟩ => ⟨?_, ?_⟩
      · funext pubkey
        rw [hkeys, learn, hvalid, Bool.true_and]
      · rw [droppedDeposits, hvalid, Bool.or_true]
        exact htotal
    · have hvalid : d.hasValidSignature = false := Bool.eq_false_iff.2 hvalid
      refine .pure ⟨?_, ?_⟩
      · funext pubkey
        rw [learn, hvalid, Bool.false_and, Bool.or_false]
      · rw [droppedDeposits, hknown, hvalid]
        rfl

/-- The sweep after the deposits `seen`: what it has counted, the keys it knows, and where the
amounts are. -/
structure SweptDeposits (s : BeaconState) (seen : List PendingDeposit) (d : DepositSweep) :
    Prop where
  counted : d.nextDepositIndex = seen.length
  known : d.state.isKnown = seen.foldl learn s.isKnown
  stake : d.state.totalBalance + depositAmounts d.postponed +
      depositAmounts (droppedDeposits s.isKnown seen) = s.totalBalance + depositAmounts seen

theorem SweptDeposits.credit {state : BeaconState} {processedAmount : Gwei}
    (hd : SweptDeposits s seen d) (h : Credited deposit d.state state) :
    SweptDeposits s (seen ++ [deposit])
      { d with state, processedAmount, nextDepositIndex := d.nextDepositIndex + 1 } := by
  have hstake := hd.stake
  have hbalance := h.balance
  have hknown := h.known
  rw [hd.known] at hbalance hknown
  refine ⟨?_, ?_, ?_⟩
  · rw [length_append, hd.counted]
    rfl
  · rw [foldl_append, hknown]
    rfl
  · rw [droppedDeposits_append]
    unfold depositAmounts at hstake hbalance ⊢
    rw [tally_append, tally_append, tally_cons, tally_nil]
    dsimp only
    omega

theorem SweptDeposits.postpone (hd : SweptDeposits s seen d)
    (hknown : d.state.isKnown deposit.pubkey = true) :
    SweptDeposits s (seen ++ [deposit])
      { d with
        postponed := d.postponed ++ [deposit]
        nextDepositIndex := d.nextDepositIndex + 1 } := by
  have hstake := hd.stake
  rw [hd.known] at hknown
  refine ⟨?_, ?_, ?_⟩
  · rw [length_append, hd.counted]
    rfl
  · rw [foldl_append, foldl_cons, foldl_nil, learn_of_known hknown]
    exact hd.known
  · have hnone : droppedDeposits (seen.foldl learn s.isKnown) [deposit] = [] := by
      rw [droppedDeposits, hknown]
      rfl
    rw [droppedDeposits_append, hnone, append_nil]
    unfold depositAmounts at hstake ⊢
    rw [tally_append, tally_append, tally_cons, tally_nil]
    dsimp only
    omega

theorem depositStep_swept (nextEpoch : Epoch) (finalizedSlot : Slot) (available : Gwei)
    (deposit : PendingDeposit) (hd : SweptDeposits s seen d) :
    Ensures (depositStep nextEpoch finalizedSlot available d deposit)
      (Advanced (SweptDeposits s) seen deposit) := by
  unfold depositStep
  refine .ite (.pure hd) (.ite (.pure hd) ?_)
  refine .ite ?_ (.dite (fun hexited => ?_) fun _ => ?_)
  · exact .bind (applyPendingDeposit_credited deposit) fun _ h => .pure (hd.credit h)
  · -- an exiting validator has the key of the deposit
    refine .pure (hd.postpone ?_)
    obtain ⟨v, hv, -⟩ := (Option.any_eq_true _ _).1 hexited
    refine any_eq_true.2 ⟨v, mem_of_find?_eq_some hv, ?_⟩
    have hkey := find?_some hv
    exact beq_iff_eq.2 (of_decide_eq_true hkey)
  · refine .skip fun processed => .ite (.pure ⟨hd.counted, hd.known, hd.stake⟩) ?_
    exact .bind (applyPendingDeposit_credited deposit) fun _ h => .pure (hd.credit h)

/-- The sweep goes through a first part of the queue. -/
theorem depositSweep_swept : Ensures s.depositSweep fun d =>
    SweptDeposits s (s.pendingDeposits.toList.take d.nextDepositIndex) d := by
  unfold depositSweep
  refine .skip fun nextEpoch => .skip fun _ => .skip fun available => .skip fun finalizedSlot => ?_
  refine (Ensures.foldBreakM_seen (P := SweptDeposits s) (fun seen deposit _ d hd =>
    depositStep_swept nextEpoch finalizedSlot available deposit hd) ⟨rfl, rfl, rfl⟩).imp
    fun d ⟨seen, hseen, hd⟩ => ?_
  rw [hd.counted, ← prefix_iff_eq_take.1 hseen]
  exact hd

/-- The epoch keeps what the sweep has not gone through and what it has postponed. -/
theorem processPendingDeposits_swept : Ensures s.processPendingDeposits fun s' =>
    ∃ d, s.depositSweep = .ok d ∧ s'.balances = d.state.balances ∧ s'.pendingDeposits.toList =
      s.pendingDeposits.toList.drop d.nextDepositIndex ++ d.postponed := by
  unfold processPendingDeposits
  refine .step fun nextEpoch hnext => ?_
  refine .step fun churnLimit hlimit => ?_
  refine .step fun available havailable => ?_
  refine .step fun finalizedSlot hfinalized => ?_
  refine .step fun d hd => ?_
  refine .found tryFrom_eq_some.1 fun kept hkept => ?_
  have hsweep : s.depositSweep = .ok d := by
    unfold depositSweep
    rw [hnext, ok_bind, hlimit, ok_bind, havailable, ok_bind, hfinalized, ok_bind]
    exact hd
  exact .ite (.skip fun _ => .pure ⟨d, hsweep, rfl, hkept⟩)
    (.skip fun _ => .pure ⟨d, hsweep, rfl, hkept⟩)

theorem processPendingDeposits_stake : Ensures s.processPendingDeposits fun s' =>
    ∃ d, s.depositSweep = .ok d ∧ s'.totalStake + depositAmounts (droppedDeposits s.isKnown
      (s.pendingDeposits.toList.take d.nextDepositIndex)) = s.totalStake := by
  refine processPendingDeposits_swept.imp fun s' ⟨d, hsweep, hbalances, hqueue⟩ => ?_
  refine ⟨d, hsweep, ?_⟩
  have hstake := (depositSweep_swept d hsweep).stake
  have hsplit := tally_take_add_drop (f := fun d : PendingDeposit => d.amount.val)
    s.pendingDeposits.toList d.nextDepositIndex
  unfold totalStake totalBalance depositAmounts at *
  rw [hbalances, hqueue, tally_append]
  omega

/-- Stake is conserved by consolidations and by switches to compounding credentials; the deposit
queue loses the deposits it drops. -/
theorem stake_conserved (s s' : BeaconState) :
    (s.processPendingConsolidations = .ok s' → s'.totalBalance = s.totalBalance) ∧
    (∀ index, s.switchToCompoundingValidator index = .ok s' → s'.totalStake = s.totalStake) ∧
    (s.processPendingDeposits = .ok s' → ∃ d, s.depositSweep = .ok d ∧
      s'.totalStake + depositAmounts (droppedDeposits s.isKnown
        (s.pendingDeposits.toList.take d.nextDepositIndex)) = s.totalStake) :=
  ⟨processPendingConsolidations_total s', fun index => switchToCompoundingValidator_stake index s',
    processPendingDeposits_stake s'⟩

end BeaconState

end Moonglass

namespace Moonglass.Devnet

open Lib BeaconState

/-- A network on which no signature is valid. -/
@[reducible] def rejecting : Crypto := { crypto with blsVerify := fun _ _ _ => false }

/-- A deposit of five for the validators' key. -/
def topUp : PendingDeposit := ⟨zeros 48, zeros 32, 5, zeros 96, 0⟩

/-- A deposit of seven for a new key. -/
def strangerDeposit : PendingDeposit :=
  ⟨(zeros 48).set 0 9 zero_lt_48, zeros 32, 7, zeros 96, 0⟩

/-- The market with stake to move: two deposits in the queue, a validator whose consolidation is
due, and one above the minimal balance. -/
def stakeMarket : BeaconState :=
  { market with
    validators := market.validators.modify 1 fun v => { v with withdrawableEpoch := 2 }
    balances := market.balances.set 3 40000000000
    pendingDeposits := ⟨[topUp, strangerDeposit], by decide⟩
    pendingConsolidations := ⟨[⟨1, 2⟩], by decide⟩ }

theorem stake_conserved_stakeMarket :
    (∃ s', stakeMarket.processPendingConsolidations = .ok s' ∧
      s'.totalBalance = stakeMarket.totalBalance) ∧
    (∃ s', stakeMarket.switchToCompoundingValidator 3 = .ok s' ∧
      s'.totalStake = stakeMarket.totalStake) ∧
    ∃ s', @BeaconState.processPendingDeposits preset rejecting stakeMarket = .ok s' ∧
      s'.totalStake + 7 = stakeMarket.totalStake := by
  obtain ⟨s₁, h₁⟩ := exists_ok_of_isOk
    (show stakeMarket.processPendingConsolidations.isOk = true by decide +kernel)
  obtain ⟨s₂, h₂⟩ := exists_ok_of_isOk
    (show (stakeMarket.switchToCompoundingValidator 3).isOk = true by decide +kernel)
  obtain ⟨s₃, h₃⟩ := exists_ok_of_isOk
    (show (@BeaconState.processPendingDeposits preset rejecting stakeMarket).isOk = true by
      decide +kernel)
  obtain ⟨d, hd, hstake⟩ := (@stake_conserved preset rejecting stakeMarket s₃).2.2 h₃
  -- the sweep goes through both deposits and drops the one for the new key
  have hdropped : (match @BeaconState.depositSweep preset rejecting stakeMarket with
      | .ok d => decide (depositAmounts (@droppedDeposits preset rejecting stakeMarket.isKnown
          (stakeMarket.pendingDeposits.toList.take d.nextDepositIndex)) = 7)
      | .error _ => false) = true := by
    decide +kernel
  rw [hd] at hdropped
  rw [of_decide_eq_true hdropped] at hstake
  exact ⟨⟨s₁, h₁, (stake_conserved stakeMarket s₁).1 h₁⟩,
    ⟨s₂, h₂, (stake_conserved stakeMarket s₂).2.1 3 h₂⟩, ⟨s₃, h₃, hstake⟩⟩

end Moonglass.Devnet
