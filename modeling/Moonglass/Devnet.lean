import Moonglass.ForkChoice.Run

/-
  A small network to evaluate the model on: the minimal preset, eight validators, and hashes that
  are short labels. The root of a block names its slot and the first byte of its graffiti, all
  states share one root, and every signature and proof verifies. The labels are kept apart from the
  zero root, so blocks that differ in slot or graffiti do not collide (`noCollision`).
-/

namespace Moonglass.Devnet

open Lib Word

scoped instance preset : Preset := ⟨.minimal⟩

def zeros (n : Nat) : Bytes n := Vector.replicate n 0

theorem zero_lt_48 : 0 < 48 := by decide

/-- The label of a block. -/
def rootOf (slot : Slot) (tag : U8) : Root :=
  ⟨(((zeros 32).set 0 1 zero_lt_32).set 1 (Word.wrap slot.val)).set 2 tag⟩

/-- The root of every state. -/
def stateRoot : Root := ⟨(zeros 32).set 0 2 zero_lt_32⟩

scoped instance crypto : Crypto where
  sha256 _ := zeros 32
  beaconStateRoot _ := stateRoot
  beaconBlockRoot b := rootOf b.slot (getElem b.body.graffiti 0 zero_lt_32)
  beaconBlockHeaderRoot h := rootOf h.slot (getElem h.bodyRoot.bytes 0 zero_lt_32)
  beaconBlockBodyRoot b := ⟨b.graffiti⟩
  forkDataRoot _ := Root.ZERO
  signingDataRoot _ := Root.ZERO
  epochRoot _ := Root.ZERO
  attestationDataRoot _ := Root.ZERO
  payloadAttestationDataRoot _ := Root.ZERO
  voluntaryExitRoot _ := Root.ZERO
  blsToExecutionChangeRoot _ := Root.ZERO
  depositMessageRoot _ := Root.ZERO
  executionPayloadBidRoot _ := Root.ZERO
  executionPayloadEnvelopeRoot _ := Root.ZERO
  executionRequestsRoot _ := Root.ZERO
  rootsRoot _ := Root.ZERO
  blsVerify _ _ _ := true
  blsFastAggregateVerify _ _ _ := true
  blsAggregatePubkeys pubkeys := pubkeys.head?
  kzgSetup := .ok ()
  verifyCellKzgProofBatch _ _ _ _ := .ok true
  beaconBlockRoot_eq_header _ := rfl

/-! ## Blocks -/

def noRequests : ExecutionRequests := ⟨.empty, .empty, .empty, .empty, .empty⟩

def noEth1 : Eth1Data := ⟨Root.ZERO, 0, zeros 32⟩

/-- A proposer's own bid on an empty parent, for a payload without blobs. -/
def bid (slot : Slot) (parent : Root) : ExecutionPayloadBid :=
  { parentBlockHash := zeros 32, parentBlockRoot := parent
    blockHash := (zeros 32).set 0 (Word.wrap (slot.val + 1)) zero_lt_32
    prevRandao := zeros 32, feeRecipient := zeros 20, gasLimit := 0
    builderIndex := builderIndexSelfBuild, slot, value := 0, executionPayment := 0
    blobKzgCommitments := .empty, executionRequestsRoot := Root.ZERO }

/-- A body without operations. -/
def body (tag : U8) (bid : ExecutionPayloadBid) : BeaconBlockBody :=
  { randaoReveal := zeros 96, eth1Data := noEth1, graffiti := (zeros 32).set 0 tag zero_lt_32
    proposerSlashings := .empty, attesterSlashings := .empty, attestations := .empty
    deposits := .empty, voluntaryExits := .empty
    syncAggregate := ⟨Vector.replicate _ false, g2PointAtInfinity⟩
    blsToExecutionChanges := .empty, signedExecutionPayloadBid := ⟨bid, g2PointAtInfinity⟩
    payloadAttestations := .empty, parentExecutionRequests := noRequests }

/-- A block without operations. -/
def block (slot : Slot) (parent : Root) (tag : U8) : BeaconBlock :=
  { slot, proposerIndex := 0, parentRoot := parent, stateRoot, body := body tag (bid slot parent) }

/-- The block a network starts from. -/
def anchorBlock (slot : Slot) : BeaconBlock := block slot Root.ZERO 0

/-! ## States -/

/-- A validator active from the start. -/
def validator (effectiveBalance : Gwei) : Validator :=
  { pubkey := zeros 48, withdrawalCredentials := zeros 32, effectiveBalance
    slashed := false, activationEligibilityEpoch := 0, activationEpoch := 0
    exitEpoch := farFutureEpoch, withdrawableEpoch := farFutureEpoch }

/-- One value per validator: the first has its own. -/
def perValidator {α : Type} {n : Nat} (first others : α) (h : 8 ≤ n) : BoundedList α n :=
  ⟨first :: List.replicate 7 others, by simpa using h⟩

theorem eight_le : 8 ≤ validatorRegistryLimit := by decide

def syncCommittee : SyncCommittee := ⟨Vector.replicate _ (zeros 48), zeros 48⟩

/-- The state after `anchor`: eight validators, the first with most of the stake, and no history. -/
def stateAfter (anchor : BeaconBlock) : BeaconState :=
  { genesisTime := 0, genesisValidatorsRoot := Root.ZERO, slot := anchor.slot
    fork := ⟨zeros 4, zeros 4, 0⟩
    latestBlockHeader := anchor.header anchor.body.treeRoot Root.ZERO
    blockRoots := Vector.replicate _ Root.ZERO, stateRoots := Vector.replicate _ Root.ZERO
    historicalRoots := .empty, eth1Data := noEth1, eth1DataVotes := .empty, eth1DepositIndex := 0
    validators := perValidator (validator 2048000000000) (validator 32000000000) eight_le
    balances := perValidator 2048000000000 32000000000 eight_le
    randaoMixes := Vector.replicate _ (zeros 32), slashings := Vector.replicate _ 0
    previousEpochParticipation := perValidator 0 0 eight_le
    currentEpochParticipation := perValidator 0 0 eight_le
    justificationBits := Vector.replicate _ false
    previousJustifiedCheckpoint := ⟨0, Root.ZERO⟩, currentJustifiedCheckpoint := ⟨0, Root.ZERO⟩
    finalizedCheckpoint := ⟨0, Root.ZERO⟩, inactivityScores := perValidator 0 0 eight_le
    currentSyncCommittee := syncCommittee, nextSyncCommittee := syncCommittee
    latestBlockHash := zeros 32, nextWithdrawalIndex := 0, nextWithdrawalValidatorIndex := 0
    historicalSummaries := .empty, depositRequestsStartIndex := 0, depositBalanceToConsume := 0
    exitBalanceToConsume := 0, earliestExitEpoch := 0, consolidationBalanceToConsume := 0
    earliestConsolidationEpoch := 0, pendingDeposits := .empty
    pendingPartialWithdrawals := .empty, pendingConsolidations := .empty
    proposerLookahead := Vector.replicate _ 0, builders := .empty, nextWithdrawalBuilderIndex := 0
    executionPayloadAvailability := Vector.replicate _ false
    builderPendingPayments := Vector.replicate _ .default, builderPendingWithdrawals := .empty
    latestExecutionPayloadBid := anchor.body.signedExecutionPayloadBid.message
    payloadExpectedWithdrawals := .empty
    ptcWindow := Vector.replicate _ (Vector.replicate _ 0) }

def anchorState (slot : Slot) : BeaconState := stateAfter (anchorBlock slot)

/-! ## Runs -/

/-- Iteration in the order of the roots. -/
def orders : Orders := ⟨.sorted, .sorted⟩

theorem zero_lt_committees : 0 < maxCommitteesPerSlot := by decide

/-- An attestation of the whole committee of `slot`, which has one member. -/
def attestation (slot : Slot) (target head : Root) : Attestation :=
  { aggregationBits := ⟨[true], by decide⟩
    data := ⟨slot, 0, head, ⟨0, Root.ZERO⟩, ⟨slot.epoch, target⟩⟩
    signature := zeros 96
    committeeBits := (Vector.replicate _ false).set 0 true zero_lt_committees }

def genesis : BeaconBlock := anchorBlock 0

/-- A block of slot 1 on the genesis block. -/
def firstBlock : SignedBeaconBlock := ⟨block 1 genesis.treeRoot 0, zeros 96⟩

/-- Another block of that slot. -/
def rival : SignedBeaconBlock := ⟨block 1 genesis.treeRoot 1, zeros 96⟩

/-- The two blocks of slot 1 arrive, and eight slots pass. -/
def rivals : List Call := [.tick 6, .block orders firstBlock, .block orders rival, .tick 54]

/-- Then the first validator votes for the first block. -/
def oneVote : List Call :=
  let root := firstBlock.message.treeRoot
  rivals ++ [.attestation (attestation 8 root root) false]

/-- A block of epoch 2 on the genesis block, with a vote of the first validator for that epoch. -/
def votingBlock : SignedBeaconBlock :=
  let b := block 17 genesis.treeRoot 0
  let vote := attestation 16 genesis.treeRoot genesis.treeRoot
  ⟨{ b with body := { b.body with attestations := ⟨[vote], by decide⟩ } }, zeros 96⟩

/-- The payload that the bid of the genesis block promises. -/
def genesisPayload : ExecutionPayload :=
  { parentHash := zeros 32, feeRecipient := zeros 20, stateRoot := zeros 32
    receiptsRoot := zeros 32, logsBloom := zeros _, prevRandao := zeros 32, blockNumber := 0
    gasLimit := 0, gasUsed := 0, timestamp := 0, extraData := .empty, baseFeePerGas := zeros 32
    blockHash := genesis.bid.blockHash, transactions := .empty, withdrawals := .empty
    blobGasUsed := 0, excessBlobGas := 0, blockAccessList := .empty, slotNumber := 0 }

def genesisEnvelope : SignedExecutionPayloadEnvelope :=
  ⟨⟨genesisPayload, noRequests, builderIndexSelfBuild, genesis.treeRoot, Root.ZERO⟩, zeros 96⟩

/-- The store at the start of the network. -/
def seed (anchor : BeaconBlock) : Store :=
  Store.seed (stateAfter anchor) anchor (Word.wrap (anchor.slot.val * 6))

theorem blockRoot_ne_zero (b : BeaconBlock) : b.treeRoot ≠ Root.ZERO := by
  intro h
  have hbyte := congrArg (fun r : Root => r.bytes[0]) h
  simp [BeaconBlock.treeRoot, Crypto.beaconBlockRoot, rootOf, zeros, Root.ZERO] at hbyte

/-- Blocks with different labels make a run without collisions. -/
theorem noCollision {anchor : BeaconBlock} {blocks : List BeaconBlock}
    (hparent : anchor.parentRoot = Root.ZERO) (h : (blocks.map BeaconBlock.treeRoot).Nodup) :
    NoCollision (stateAfter anchor) anchor blocks where
  block_eq _ hb _ hb' heq := List.inj_on_of_nodup_map h hb hb' heq
  header_slot _ _ := rfl
  acyclic := by
    rintro b - (hr | hr | ⟨i, hr⟩)
    · exact blockRoot_ne_zero b (hr.trans hparent)
    · exact blockRoot_ne_zero b hr
    · exact blockRoot_ne_zero b (hr.trans (Vector.getElem_replicate (mod_size_lt i)))
  state_root_ne _ _ s _ := by
    change stateRoot ≠ Root.ZERO
    decide

theorem isPostState (anchor : BeaconBlock) : IsPostState (stateAfter anchor) anchor where
  slot := rfl
  header := rfl
  justified := Fin.zero_le _

/-- Fork choice accepts every anchor of the network before the clock overflows. -/
theorem getForkchoiceStore_seed {anchor : BeaconBlock} (hroot : anchor.stateRoot = stateRoot)
    (hslot : anchor.slot.val < 2 ^ 48) :
    getForkchoiceStore (stateAfter anchor) anchor = .ok (seed anchor) := by
  have hduration : slotDurationMs = 6000 := rfl
  have hproduct : anchor.slot.checkedMul slotDurationMs =
      some (Word.wrap (anchor.slot.val * 6000)) := by
    rw [checkedMul_eq_some, wrap_val_of_lt (by omega), hduration]
  have htime : (0 : U64).checkedAdd (anchor.slot.val * 6000 / 1000) =
      some (Word.wrap (anchor.slot.val * 6)) := by
    rw [checkedAdd_eq_some, wrap_val_of_lt (by omega), Fin.val_zero]
    omega
  unfold getForkchoiceStore
  rw [require_of (show anchor.stateRoot = (stateAfter anchor).treeRoot from hroot), ok_bind]
  have hclock : ((stateAfter anchor).slot.checkedMul slotDurationMs).bind (fun product =>
      (stateAfter anchor).genesisTime.checkedAdd (product.val / 1000)) =
      some (Word.wrap (anchor.slot.val * 6)) := by
    change (anchor.slot.checkedMul slotDurationMs).bind (fun product =>
      (0 : U64).checkedAdd (product.val / 1000)) = _
    rw [hproduct, Option.bind_some, wrap_val_of_lt (by omega), htime]
  rw [hclock]
  rfl

theorem seed_genesis : getForkchoiceStore (stateAfter genesis) genesis = .ok (seed genesis) :=
  getForkchoiceStore_seed rfl (by decide)

/-! ## Builders -/

/-- A builder from the start. -/
def builder (tag : U8) : Builder :=
  { pubkey := (zeros 48).set 0 tag zero_lt_48, version := 0, executionAddress := zeros 20
    balance := 100000000000, depositEpoch := 0, withdrawableEpoch := farFutureEpoch }

/-- A network in epoch 3 with eight equal validators and two builders. -/
def market : BeaconState :=
  { anchorState 24 with
    validators := perValidator (validator 32000000000) (validator 32000000000) eight_le
    balances := perValidator 32000000000 32000000000 eight_le
    finalizedCheckpoint := ⟨1, Root.ZERO⟩
    builders := ⟨[builder 0, builder 1], by decide⟩
    proposerLookahead := (Vector.replicate _ 0).set 2 1 (by decide) }

/-- A block on `parent` that carries `bid`. -/
def carrying (bid : ExecutionPayloadBid) : BeaconBlock :=
  { slot := bid.slot, proposerIndex := 0, parentRoot := bid.parentBlockRoot, stateRoot
    body := body 0 bid }

/-- A block of `slot` on `parent` that counts it as full. -/
def fullChild (slot : Slot) (parent : BeaconBlock) : BeaconBlock :=
  carrying { bid slot parent.treeRoot with parentBlockHash := parent.bid.blockHash }

/-- The block with the requests of its parent's payload. -/
def requesting (requests : ExecutionRequests) (b : BeaconBlock) : BeaconBlock :=
  { b with body := { b.body with parentExecutionRequests := requests } }

/-- A bid of a builder on an empty parent. -/
def builderBid (slot : Slot) (parent : Root) (builderIndex : BuilderIndex) (value : Gwei) :
    ExecutionPayloadBid :=
  { bid slot parent with builderIndex, value }

def bidBlock : BeaconBlock := carrying (builderBid 25 (anchorBlock 24).treeRoot 0 5)

/-- A child of `parent` in the next slot that counts it as full. -/
def childOf (parent : BeaconBlock) : BeaconBlock := { fullChild 26 parent with proposerIndex := 1 }

/-- Two headers of the proposer of slot 25. -/
def doubleProposal : ProposerSlashing :=
  let header (root : Root) : SignedBeaconBlockHeader := ⟨⟨25, 0, root, root, root⟩, zeros 96⟩
  ⟨header Root.ZERO, header stateRoot⟩

/-- A block of slot 25 with a bid that reports its own proposer. -/
def slashedBlock : BeaconBlock :=
  { bidBlock with body := { bidBlock.body with proposerSlashings := ⟨[doubleProposal], by decide⟩ } }

/-! ## Stakes -/

def key (tag : U8) : BLSPubkey := (zeros 48).set 0 tag zero_lt_48

/-- A validator whose stake an execution address can move. -/
def staker (tag : U8) (effectiveBalance : Gwei) : Validator :=
  { validator effectiveBalance with
    pubkey := key tag, withdrawalCredentials := (zeros 32).set 0 2 zero_lt_32 }

/-- A network in epoch 64 with three such validators, the first above its limit. -/
def stakers : BeaconState :=
  { anchorState 512 with
    validators := ⟨[staker 0 2048000000000, staker 1 32000000000, staker 2 64000000000] ++
      List.replicate 5 (validator 32000000000), by decide⟩
    balances := ⟨[2050000000000, 32000000000, 64000000000] ++ List.replicate 5 32000000000,
      by decide⟩ }

/-- Two partial withdrawals of the first validator, and consolidations of the others into it. -/
def stakeRequests : ExecutionRequests :=
  { noRequests with
    withdrawals := ⟨[⟨zeros 20, key 0, 5⟩, ⟨zeros 20, key 0, 200000000000⟩], by decide⟩
    consolidations := ⟨[⟨zeros 20, key 1, key 0⟩, ⟨zeros 20, key 2, key 0⟩], by decide⟩ }

def stakeBlock : BeaconBlock := carrying (bid 513 (anchorBlock 512).treeRoot)

/-- A child that counts it as full, with the requests of its payload. -/
def stakeChild : BeaconBlock := requesting stakeRequests (fullChild 514 stakeBlock)

end Moonglass.Devnet
