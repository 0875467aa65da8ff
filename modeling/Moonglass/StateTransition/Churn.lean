import Moonglass.StateTransition.Balance
import Moonglass.Lib.Budget

/-
  The churn budget as a spending cursor. Exits and consolidations take their balance out of a
  budget of one churn limit per epoch; the state keeps the epoch reached and what is left in it.
-/

namespace Moonglass

open Lib Word

namespace BeaconState

theorem computeActivationExitEpoch_val {epoch e : Epoch}
    (h : computeActivationExitEpoch epoch = .ok e) : e.val = epoch.val + 1 + maxSeedLookahead := by
  unfold computeActivationExitEpoch at h
  obtain ⟨next, hnext, h⟩ := Option.bind_eq_some_iff.1 (okOr_eq_ok.1 h)
  rw [checkedAdd_eq_some] at hnext h
  omega

/-- No epoch of a slot is the far future. -/
theorem epoch_lt_farFuture [Preset] (slot : Slot) : slot.epoch.val + 2 ^ 62 < farFutureEpoch.val := by
  have hslot : slot.val < 2 ^ 64 := slot.isLt
  have hepoch : slot.epoch.val = slot.val / slotsPerEpoch := rfl
  have hfar : farFutureEpoch.val = 2 ^ 64 - 1 := rfl
  rcases slotsPerEpoch_cases with h | h <;> rw [hepoch, h, hfar] <;> omega

/-- The delay of an activation or an exit does not overflow from the epoch of a slot. -/
theorem computeActivationExitEpoch_ok [Preset] (slot : Slot) :
    ∃ e, computeActivationExitEpoch slot.epoch = .ok e ∧ slot.epoch < e := by
  have hfar := epoch_lt_farFuture slot
  have hmax : farFutureEpoch.val = 2 ^ 64 - 1 := rfl
  have hdelay : maxSeedLookahead ≤ 2 ^ 32 := by decide
  obtain ⟨next, hnext⟩ : ∃ next, slot.epoch.checkedAdd 1 = some next :=
    ⟨⟨slot.epoch.val + 1, by omega⟩, checkedAdd_eq_some.2 rfl⟩
  have hval := checkedAdd_eq_some.1 hnext
  obtain ⟨e, he⟩ : ∃ e, next.checkedAdd maxSeedLookahead = some e :=
    ⟨⟨next.val + maxSeedLookahead, by omega⟩, checkedAdd_eq_some.2 rfl⟩
  have hval' := checkedAdd_eq_some.1 he
  refine ⟨e, okOr_eq_ok.2 (Option.bind_eq_some_iff.2 ⟨next, hnext, he⟩), Fin.lt_def.2 ?_⟩
  omega

/-- One request to the churn budget: the clock, the balance and the churn limit it is made with. -/
structure ChurnCall where
  currentEpoch : Epoch
  requestedBalance : Gwei
  perEpochChurn : Gwei

namespace ChurnCall

/-- The first epoch a request may be given: no earlier than the cursor, nor than an exit made now
takes effect. -/
def startingEpoch (call : ChurnCall) (cursorEpoch : Epoch) : Nat :=
  max cursorEpoch.val (call.currentEpoch.val + 1 + maxSeedLookahead)

/-- What the starting epoch has to give: a fresh budget when it is past the cursor, what the
cursor left otherwise. -/
def startingBudget (call : ChurnCall) (cursor : Epoch × Gwei) : Nat :=
  if cursor.1.val < call.startingEpoch cursor.1 then call.perEpochChurn.val else cursor.2.val

/-- The budget accumulated from the starting epoch to `epoch`. -/
def accumulatedBudget (call : ChurnCall) (cursor : Epoch × Gwei) (epoch : Nat) : Nat :=
  call.startingBudget cursor + call.perEpochChurn.val * (epoch - call.startingEpoch cursor.1)

/-- The epochs from the starting one on whose accumulated budget covers the request. -/
def Covers (call : ChurnCall) (cursor : Epoch × Gwei) (epoch : Nat) : Prop :=
  call.startingEpoch cursor.1 ≤ epoch ∧
    call.requestedBalance.val ≤ call.accumulatedBudget cursor epoch

/-- How many epochs after the starting one the request has to wait. -/
def delay (call : ChurnCall) (cursor : Epoch × Gwei) : Nat :=
  waiting (call.startingBudget cursor) call.perEpochChurn.val call.requestedBalance.val

/-- Make the request. -/
def consume (call : ChurnCall) (cursor : Epoch × Gwei) : Transition (Epoch × Gwei) :=
  consumeChurnBudget call.currentEpoch cursor.1 cursor.2 call.requestedBalance call.perEpochChurn

end ChurnCall

variable {call : ChurnCall} {cursor next : Epoch × Gwei}

/-- What an answered request says: it waits for the budget to cover it, and leaves the rest. -/
theorem consume_eq_ok (h : call.consume cursor = .ok next) :
    next.1.val = call.startingEpoch cursor.1 + call.delay cursor ∧
      next.2.val + call.requestedBalance.val =
        call.startingBudget cursor + call.perEpochChurn.val * call.delay cursor ∧
      (call.startingBudget cursor < call.requestedBalance.val → 0 < call.perEpochChurn.val) := by
  unfold ChurnCall.consume consumeChurnBudget at h
  obtain ⟨first, hfirst, h⟩ := bind_eq_ok.1 h
  have hstart : (max cursor.1 first).val = call.startingEpoch cursor.1 := by
    rw [ChurnCall.startingEpoch, ← computeActivationExitEpoch_val hfirst]
    rfl
  have hbase : (if cursor.1 < max cursor.1 first then call.perEpochChurn else cursor.2).val =
      call.startingBudget cursor := by
    rw [ChurnCall.startingBudget, ← hstart]
    exact apply_ite Fin.val _ _ _
  simp only [pure_eq_ok, ok_bind] at h
  generalize (if cursor.1 < max cursor.1 first then call.perEpochChurn else cursor.2) = base
    at h hbase
  generalize max cursor.1 first = start at h hstart
  have hdelay : call.delay cursor =
      waiting base.val call.perEpochChurn.val call.requestedBalance.val := by
    rw [ChurnCall.delay, hbase]
  rw [hdelay, ← hstart, ← hbase]
  unfold waiting
  split at h
  · rename_i hshort
    simp only [bind_eq_ok] at h
    obtain ⟨_, hpos, missing, hmissing, later, hlater, -, -, grown, hgrown, remaining, hremaining,
      h⟩ := h
    obtain rfl := Except.ok.inj h
    rw [ensure_eq_ok] at hpos
    rw [okOr_eq_ok] at hmissing hlater hgrown hremaining
    rw [checkedSub_eq_some] at hmissing hremaining
    rw [checkedAdd_eq_some] at hlater hgrown
    have hdiff : call.requestedBalance.val - base.val = missing.val := by omega
    rw [if_pos (Fin.lt_def.1 hshort), hdiff]
    refine ⟨hlater, ?_, fun _ => Nat.pos_of_ne_zero hpos⟩
    rw [Nat.mul_comm call.perEpochChurn.val, ← hgrown, hremaining]
  · rename_i hcovers
    obtain ⟨remaining, hremaining, h⟩ := bind_eq_ok.1 h
    obtain rfl := Except.ok.inj h
    rw [okOr_eq_ok, checkedSub_eq_some] at hremaining
    rw [if_neg (mt Fin.lt_def.2 hcovers)]
    exact ⟨rfl, hremaining.symm, fun hlt => absurd (Fin.lt_def.2 hlt) hcovers⟩

/-- A request is given the first epoch that can pay for it. -/
theorem consume_isLeast (h : call.consume cursor = .ok next) :
    IsLeast {epoch | call.Covers cursor epoch} next.1.val := by
  obtain ⟨hepoch, -, hpos⟩ := consume_eq_ok h
  rw [hepoch]
  exact isLeast_waiting hpos

/-- The churn assigns no epoch before the cursor, nor before the first one that exits may take
effect in. -/
theorem consumeChurnBudget_epoch (current cursorEpoch : Epoch) (balance requested churn : Gwei) :
    Ensures (consumeChurnBudget current cursorEpoch balance requested churn) fun r =>
      cursorEpoch ≤ r.1 ∧ current.val + 1 + maxSeedLookahead ≤ r.1.val := by
  intro r h
  have hconsume : (ChurnCall.mk current requested churn).consume (cursorEpoch, balance) = .ok r := h
  have hstart := (consume_isLeast hconsume).1.1
  exact ⟨Fin.le_def.2 ((le_max_left _ _).trans hstart), (le_max_right _ _).trans hstart⟩

/-- The position of a churn cursor. -/
def cursorOf (cursor : Epoch × Gwei) : Cursor := ⟨cursor.1.val, cursor.2.val⟩

/-- A request spends its balance out of a budget that grows by the churn limit. -/
theorem consume_spends {C : Nat} (h : call.consume cursor = .ok next)
    (hchurn : call.perEpochChurn.val ≤ C) :
    (cursorOf cursor).Spends C call.requestedBalance.val (cursorOf next) := by
  obtain ⟨hepoch, hleft, hpos⟩ := consume_eq_ok h
  have hcover : call.requestedBalance.val ≤
      call.startingBudget cursor + call.perEpochChurn.val * call.delay cursor :=
    waiting_covers hpos
  have hnext : cursorOf next = ⟨call.startingEpoch cursor.1 + call.delay cursor,
      call.startingBudget cursor + call.perEpochChurn.val * call.delay cursor -
        call.requestedBalance.val⟩ := by
    rw [cursorOf, hepoch]
    congr 1
    omega
  rw [hnext]
  -- the budget starts afresh exactly when the starting epoch is past the cursor
  by_cases hlate : cursor.1.val < call.startingEpoch cursor.1
  · have hbase : call.startingBudget cursor = call.perEpochChurn.val := if_pos hlate
    unfold ChurnCall.delay at hcover ⊢
    rw [hbase] at hcover ⊢
    exact .of_fresh hchurn hlate hcover
  · have hbase : call.startingBudget cursor = cursor.2.val := if_neg hlate
    have hstart : call.startingEpoch cursor.1 = cursor.1.val :=
      Nat.le_antisymm (Nat.le_of_not_lt hlate) (le_max_left _ _)
    unfold ChurnCall.delay at hcover ⊢
    rw [hbase] at hcover ⊢
    rw [hstart]
    exact .of_left hchurn hcover

/-! ## Sequences of requests -/

/-- Thread a cursor through a sequence of requests: the cursor before each request and the one
after the last. -/
def churnCursors (cursor : Epoch × Gwei) : List ChurnCall → Transition (List (Epoch × Gwei))
  | [] => pure [cursor]
  | call :: calls => do
    let next ← call.consume cursor
    let later ← churnCursors next calls
    pure (cursor :: later)

variable {calls : List ChurnCall} {points : List (Epoch × Gwei)}

theorem churnCursors_zero (h : churnCursors cursor calls = .ok points) :
    points[0]? = some cursor := by
  cases calls with
  | nil =>
    obtain rfl := Except.ok.inj h
    rfl
  | cons call calls =>
    obtain ⟨_, _, h⟩ := bind_eq_ok.1 h
    obtain ⟨_, _, h⟩ := bind_eq_ok.1 h
    obtain rfl := Except.ok.inj h
    rfl

theorem churnCursors_length (h : churnCursors cursor calls = .ok points) :
    points.length = calls.length + 1 := by
  induction calls generalizing cursor points with
  | nil =>
    obtain rfl := Except.ok.inj h
    rfl
  | cons call calls ih =>
    obtain ⟨_, _, h⟩ := bind_eq_ok.1 h
    obtain ⟨later, hlater, h⟩ := bind_eq_ok.1 h
    obtain rfl := Except.ok.inj h
    rw [List.length_cons, ih hlater, List.length_cons]

/-- Neighbouring cursors are those before and after one request. -/
theorem churnCursors_step (h : churnCursors cursor calls = .ok points) {i : Nat}
    {a b : Epoch × Gwei} (ha : points[i]? = some a) (hb : points[i + 1]? = some b) :
    ∃ call, calls[i]? = some call ∧ call.consume a = .ok b := by
  induction calls generalizing cursor points i with
  | nil =>
    obtain rfl := Except.ok.inj h
    simp at hb
  | cons call calls ih =>
    obtain ⟨next, hnext, h⟩ := bind_eq_ok.1 h
    obtain ⟨later, hlater, h⟩ := bind_eq_ok.1 h
    obtain rfl := Except.ok.inj h
    cases i with
    | zero =>
      obtain rfl : cursor = a := Option.some.inj ha
      have hb' : later[0]? = some b := hb
      rw [churnCursors_zero hlater] at hb'
      obtain rfl := Option.some.inj hb'
      exact ⟨call, rfl, hnext⟩
    | succ i => exact ih hlater ha hb

/-- What the requests between two points of the sequence ask for, in total. -/
def requestedBetween (calls : List ChurnCall) (i j : Nat) : Nat :=
  (((calls.take j).drop i).map fun call => call.requestedBalance.val).sum

theorem requestedBetween_self (i : Nat) : requestedBetween calls i i = 0 := by
  simp [requestedBetween]

theorem requestedBetween_succ {i j : Nat} (hij : i ≤ j) (hcall : calls[j]? = some call) :
    requestedBetween calls i (j + 1) =
      requestedBetween calls i j + call.requestedBalance.val := by
  have hj : j < calls.length := (List.getElem?_eq_some_iff.1 hcall).1
  have hlen : i ≤ (calls.take j).length := by
    rw [List.length_take]
    omega
  unfold requestedBetween
  rw [List.take_add_one, hcall, List.drop_append_of_le_length hlen]
  simp

/-- Between two points of the sequence the requests are paid for by what the first point had
left and by one churn limit per epoch. -/
theorem churnCursors_spends {C : Nat} (h : churnCursors cursor calls = .ok points)
    (hchurn : ∀ call ∈ calls, call.perEpochChurn.val ≤ C) {i j : Nat} (hij : i ≤ j)
    {a b : Epoch × Gwei} (ha : points[i]? = some a) (hb : points[j]? = some b) :
    (cursorOf a).Spends C (requestedBetween calls i j) (cursorOf b) := by
  induction j, hij using Nat.le_induction generalizing b with
  | base =>
    obtain rfl := Option.some.inj (ha.symm.trans hb)
    rw [requestedBetween_self]
    exact .refl _
  | succ j hij ih =>
    have hj : j < points.length :=
      Nat.lt_of_succ_lt (List.getElem?_eq_some_iff.1 hb).1
    have hmid := List.getElem?_eq_getElem hj
    obtain ⟨call, hcall, hconsume⟩ := churnCursors_step h hmid hb
    rw [requestedBetween_succ hij hcall]
    exact (ih hmid).trans (consume_spends hconsume (hchurn call (List.mem_of_getElem? hcall)))

/-- The churn limit. Along every sequence of answered requests whose churn never exceeds `C`, the
assigned epochs do not decrease, and between two points the balances taken out are at most what
the first left plus `C` per epoch, less what the second leaves. Each request is given the
earliest epoch whose accumulated budget covers it, no sooner than an exit made at its clock
takes effect. The clocks need not be in order for this. -/
theorem churn_limit {C : Nat} (h : churnCursors cursor calls = .ok points)
    (hchurn : ∀ call ∈ calls, call.perEpochChurn.val ≤ C) :
    (∀ i j a b, i < j → points[i]? = some a → points[j]? = some b →
      a.1 ≤ b.1 ∧
      requestedBetween calls i j + b.2.val ≤ a.2.val + C * (b.1.val - a.1.val)) ∧
    points.length = calls.length + 1 ∧
    ∀ i call a b, calls[i]? = some call → points[i]? = some a → points[i + 1]? = some b →
      call.currentEpoch.val + 1 + maxSeedLookahead ≤ b.1.val ∧
      IsLeast {epoch | call.Covers a epoch} b.1.val := by
  refine ⟨fun i j a b hij ha hb => ?_, ?_, fun i call a b hcall ha hb => ?_⟩
  · have hspends := churnCursors_spends h hchurn hij.le ha hb
    exact ⟨Fin.le_def.2 hspends.time_le, hspends.covered⟩
  · exact churnCursors_length h
  · obtain ⟨call', hcall', hconsume⟩ := churnCursors_step h ha hb
    obtain rfl := Option.some.inj (hcall.symm.trans hcall')
    have hleast := consume_isLeast hconsume
    exact ⟨(le_max_right _ _).trans hleast.1.1, hleast⟩

/-- Three exits with a limit of sixteen: the first takes three epochs' budget, the second what
that left, and the last comes after the clock has overtaken the cursor. -/
theorem churn_limit_three_exits :
    let calls : List ChurnCall := [⟨0, 40, 16⟩, ⟨0, 8, 16⟩, ⟨9, 5, 12⟩]
    let points : List (Epoch × Gwei) := [(0, 0), (7, 8), (7, 0), (14, 7)]
    churnCursors (0, 0) calls = .ok points ∧
      requestedBetween calls 0 3 + 7 ≤ 0 + 16 * (14 - 0) ∧
      IsLeast {epoch | (⟨0, 40, 16⟩ : ChurnCall).Covers (0, 0) epoch} 7 := by
  have hrun : churnCursors (0, 0) [⟨0, 40, 16⟩, ⟨0, 8, 16⟩, ⟨9, 5, 12⟩] =
      .ok [(0, 0), (7, 8), (7, 0), (14, 7)] := by decide +kernel
  obtain ⟨hspent, -, hleast⟩ := churn_limit (C := 16) hrun (by decide)
  exact ⟨hrun, (hspent 0 3 _ _ (by decide) rfl rfl).2, (hleast 0 _ _ _ rfl rfl rfl).2⟩

end BeaconState

end Moonglass
