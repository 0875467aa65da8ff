import Moonglass.StateTransition.Payload
import Moonglass.ForkChoice.Invariant

/-
  Fork choice and the state transition agree on the execution chain. Fork choice compares the bids
  of two stored blocks; the transition compares a new bid with fields of the state. The state of a
  stored block holds the bid of that block, so the comparisons are one, and the block hash in the
  state is that of the last ancestor whose payload was built upon.
-/

namespace Moonglass

open Lib BeaconState

variable [Preset] [Crypto]
variable {b p : BeaconBlock} {parentState post pre : BeaconState}

namespace Store

variable {g : Origin} {s : Store}

/-- `LastFull s anchor b last`: `last` is the nearest proper ancestor of `b` that is full from its
child on the chain of `b`, if there is one above the anchor. -/
inductive LastFull (s : Store) (anchor : Root) : BeaconBlock → Option BeaconBlock → Prop where
  | full {b p : BeaconBlock} : s.blocks.lookup b.parentRoot = some p →
      s.getParentPayloadStatus b = .ok .full → LastFull s anchor b (some p)
  | top {b : BeaconBlock} : b.parentRoot = anchor →
      s.getParentPayloadStatus b = .ok .empty → LastFull s anchor b none
  | empty {b p : BeaconBlock} {last : Option BeaconBlock} : b.parentRoot ≠ anchor →
      s.blocks.lookup b.parentRoot = some p → s.getParentPayloadStatus b = .ok .empty →
      LastFull s anchor p last → LastFull s anchor b last

/-- The status decides what the phases of the block did about its parent. -/
structure StatusDecides {pre post : BeaconState} {b : BeaconBlock}
    (phases : pre.BlockPhases b post) (status : PayloadStatus) : Prop where
  decided : status = .full ∨ status = .empty
  parent_test : status = .full ↔
    b.bid.parentBlockHash = pre.latestExecutionPayloadBid.blockHash
  withdrawals_test : status = .full ↔
    phases.header.latestBlockHash = phases.header.latestExecutionPayloadBid.blockHash
  full : status = .full →
    pre.applyParentExecutionPayload b.body.parentExecutionRequests = .ok phases.parent ∧
      phases.header.runWithdrawals = .ok phases.withdrawals
  empty : status = .empty →
    phases.parent = pre ∧ b.body.parentExecutionRequests.isEmpty ∧
      phases.withdrawals = phases.header

/-- How a stored block was reached from the stored state of its parent. -/
structure ReachedFrom (s : Store) (b : BeaconBlock) (parentState pre post : BeaconState) :
    Prop where
  parent : s.blockStates.lookup b.parentRoot = some parentState
  slots : parentState.processSlots b.slot = .ok pre
  block : pre.processBlock b = .ok post
  stored : s.blockStates.lookup b.treeRoot = some post

theorem Extends.reached (h : Extends s b p parentState post) :
    ∃ pre, ReachedFrom s b parentState pre post := by
  obtain ⟨signature, htransition⟩ := h.transition
  obtain ⟨pre, hpre, hpost, -⟩ := stateTransition_parts htransition
  exact ⟨pre, h.parent_state, hpre, hpost, h.post_state⟩

/-- The state of a stored block holds the bid of the block. -/
theorem Inv.stored_bid (inv : Inv g s) (hbid : g.state.latestExecutionPayloadBid = g.anchor.bid)
    {r : Root} {state : BeaconState} (hb : s.blocks.lookup r = some b)
    (hstate : s.blockStates.lookup r = some state) : state.latestExecutionPayloadBid = b.bid := by
  by_cases hr : r = g.root
  · subst hr
    cases inv.anchor_block.symm.trans hb
    cases inv.anchor_state.symm.trans hstate
    exact hbid
  · obtain ⟨p, parentState, h⟩ := inv.child_of hb hr hstate
    obtain ⟨pre, hreached⟩ := h.reached
    obtain ⟨phases⟩ := processBlock_phases hreached.block
    exact phases.execution.1

/-- The state in which a stored block was processed still holds its parent's bid. -/
theorem Inv.parent_bid (inv : Inv g s) (hbid : g.state.latestExecutionPayloadBid = g.anchor.bid)
    (hp : s.blocks.lookup b.parentRoot = some p) (h : ReachedFrom s b parentState pre post) :
    pre.latestExecutionPayloadBid = p.bid :=
  (processSlots_execution h.slots).bid.trans (inv.stored_bid hbid hp h.parent)

theorem Inv.statusDecides (inv : Inv g s) (hbid : g.state.latestExecutionPayloadBid = g.anchor.bid)
    (hp : s.blocks.lookup b.parentRoot = some p) (h : ReachedFrom s b parentState pre post)
    (phases : pre.BlockPhases b post) : StatusDecides phases (parentBranch b p) := by
  have hpre := inv.parent_bid hbid hp h
  have hfull : parentBranch b p = .full ↔
      b.bid.parentBlockHash = pre.latestExecutionPayloadBid.blockHash := by
    rw [parentBranch_eq_full, hpre]
  have hempty : parentBranch b p = .empty ↔
      b.bid.parentBlockHash ≠ pre.latestExecutionPayloadBid.blockHash := by
    rw [parentBranch_eq_empty, hpre]
  have hdecision := phases.parentDecision
  refine ⟨?_, hfull, hfull.trans hdecision.agree.symm, fun h => hdecision.full (hfull.1 h),
    fun h => hdecision.empty (hempty.1 h)⟩
  by_cases heq : b.bid.parentBlockHash = pre.latestExecutionPayloadBid.blockHash
  · exact .inl (hfull.2 heq)
  · exact .inr (hempty.2 heq)

/-- The block hash that the state of a block holds, by its last full ancestor. -/
def lastFullHash (state : BeaconState) : Option BeaconBlock → Hash32
  | some p => p.bid.blockHash
  | none => state.latestBlockHash

/-- The block hash in the state of a stored block is that of its last full ancestor. The induction
is on the rank in the tree: an empty parent hands its own block hash on. -/
theorem Inv.lastFull (inv : Inv g s) (hbid : g.state.latestExecutionPayloadBid = g.anchor.bid)
    {r : Root} (hb : s.blocks.lookup r = some b) (hr : r ≠ g.root)
    (hpost : s.blockStates.lookup r = some post) :
    ∃ last, LastFull s g.root b last ∧ post.latestBlockHash = lastFullHash g.state last := by
  induction hrank : b.slot.val using Nat.strongRecOn generalizing r b post with
  | _ n ih =>
    obtain ⟨p, parentState, h⟩ := inv.child_of hb hr hpost
    obtain ⟨pre, hreached⟩ := h.reached
    obtain ⟨phases⟩ := processBlock_phases hreached.block
    have hstatus := getParentPayloadStatus_ok h.parent
    have hdecides := inv.statusDecides hbid h.parent hreached phases
    have hhash := phases.execution.2
    rcases hdecides.decided with hfull | hempty
    · refine ⟨some p, .full h.parent (hfull ▸ hstatus), hhash.trans ?_⟩
      exact parentBranch_eq_full.1 hfull
    · -- the parent state's hash is carried over by the slots and by the empty parent phase
      have hcarried : post.latestBlockHash = parentState.latestBlockHash := by
        rw [hhash, phases.bid_hash, phases.header_execution.hash, (hdecides.empty hempty).1,
          (processSlots_execution hreached.slots).hash]
      by_cases hp : b.parentRoot = g.root
      · refine ⟨none, .top hp (hempty ▸ hstatus), hcarried.trans ?_⟩
        have hparent := hreached.parent
        rw [hp, inv.anchor_state] at hparent
        cases hparent
        rfl
      · have hslot : p.slot.val < n := by
          rw [← hrank]
          exact inv.tree.parent_slot_lt hr hb h.parent
        obtain ⟨last, hlast, hlastHash⟩ := ih p.slot.val hslot h.parent hp hreached.parent rfl
        exact ⟨last, .empty hp h.parent (hempty ▸ hstatus) hlast, hcarried.trans hlastHash⟩

/-- Fork choice and the state transition agree on the execution chain, for every block that a run
stores on top of its anchor. -/
theorem executionChain_agrees {state : BeaconState} {anchor : BeaconBlock} {calls : List Call}
    {s₀ : Store} (h₀ : getForkchoiceStore state anchor = .ok s₀)
    (hc : NoCollision state anchor (runBlocks anchor calls))
    (hbid : state.latestExecutionPayloadBid = anchor.bid) {r : Root} {b : BeaconBlock}
    (hb : (s₀.run calls).blocks.lookup r = some b) (hr : r ≠ anchor.treeRoot) :
    ∃ parentState pre post status, ∃ phases : pre.BlockPhases b post,
      ReachedFrom (s₀.run calls) b parentState pre post ∧
      (s₀.run calls).blockStates.lookup r = some post ∧
      (s₀.run calls).getParentPayloadStatus b = .ok status ∧ StatusDecides phases status ∧
      ∃ last, LastFull (s₀.run calls) anchor.treeRoot b last ∧
        post.latestBlockHash = lastFullHash state last := by
  have inv : Inv (originOfRun h₀ hc) (s₀.run calls) := Inv.run h₀ hc
  obtain ⟨p, parentState, post, h⟩ := inv.child hb hr
  have hpost := h.post_state
  rw [(inv.block hb).2] at hpost
  obtain ⟨pre, hreached⟩ := h.reached
  obtain ⟨phases⟩ := processBlock_phases hreached.block
  exact ⟨parentState, pre, post, parentBranch b p, phases, hreached, hpost,
    getParentPayloadStatus_ok h.parent, inv.statusDecides hbid h.parent hreached phases,
    inv.lastFull hbid hb hr hpost⟩

end Store

end Moonglass

namespace Moonglass.Devnet

open Lib

/-- A block of slot 1 that counts the genesis block as full. -/
def onFullGenesis : SignedBeaconBlock :=
  let bid := { bid 1 genesis.treeRoot with parentBlockHash := genesis.bid.blockHash }
  ⟨{ block 1 genesis.treeRoot 1 with body := body 1 bid }, zeros 96⟩

/-- A block on the empty genesis block, the payload of the genesis block, and a block on that. -/
def bothParents : List Call :=
  [.tick 12, .block orders firstBlock,
    .executionPayloadEnvelope genesisEnvelope acceptAllExecutionPayloadVerifier,
    .block orders onFullGenesis]

/-- The execution chain on the network with a child of an empty block and one of a full block. -/
theorem executionChain_agrees_bothParents :
    [firstBlock, onFullGenesis].map (fun b => ((seed genesis).run bothParents).getParentPayloadStatus
      b.message) = [.ok .empty, .ok .full] ∧
    ∀ signed ∈ [firstBlock, onFullGenesis], ∃ b post last,
      ((seed genesis).run bothParents).blocks.lookup signed.message.treeRoot = some b ∧
      ((seed genesis).run bothParents).blockStates.lookup signed.message.treeRoot = some post ∧
      Store.LastFull ((seed genesis).run bothParents) genesis.treeRoot b last ∧
      post.latestBlockHash = Store.lastFullHash (stateAfter genesis) last := by
  have hmem : ∀ signed ∈ [firstBlock, onFullGenesis], signed.message.treeRoot ∈
      ((seed genesis).run bothParents).blocks ∧ signed.message.treeRoot ≠ genesis.treeRoot := by
    decide +kernel
  refine ⟨by decide +kernel, fun signed hsigned => ?_⟩
  obtain ⟨hmem, hne⟩ := hmem signed hsigned
  obtain ⟨b, hb⟩ := HashMap.mem_iff_lookup.1 hmem
  obtain ⟨_, _, post, _, _, -, hpost, -, -, last, hlast, hhash⟩ :=
    Store.executionChain_agrees seed_genesis (noCollision rfl (by decide)) rfl hb hne
  exact ⟨b, post, last, hb, hpost, hlast, hhash⟩

end Moonglass.Devnet
