import Moonglass.ForkChoice.Weight
import Mathlib.Data.Prod.Lex

/-
  Head selection: the filtered block tree, the children of a node, the heaviest child and the
  walk from the justified root to the head.
-/

namespace Moonglass

open Lib

variable [Preset] [Crypto]

/-- The key by which siblings are compared: weight, then root, then payload status. -/
abbrev HeadKey := Lex (Gwei × Lex (Root × Nat))

structure WeightedForkChoiceNode where
  root : Root
  payloadStatus : PayloadStatus
  weight : Gwei
  deriving DecidableEq

namespace Store

variable (s : Store)

/-! ## The filtered block tree -/

/-- The roots of the blocks that name `blockRoot` as their parent. -/
def childRoots (o : Orders) (blockRoot : Root) : List Root :=
  (o.blocks.entries s.blocks).filterMap fun (root, b) =>
    if b.parentRoot = blockRoot then some root else none

/-- Is a block without children viable for the head? -/
def leafIsViable (blockRoot : Root) : Outcome Bool := do
  let currentEpoch := s.getCurrentStoreEpoch
  let votingSource ← s.getVotingSource blockRoot
  let finalizedCheckpointBlock ← s.getCheckpointBlock blockRoot s.finalizedCheckpoint.epoch
  let correctJustified : Bool := s.justifiedCheckpoint.epoch == genesisEpoch ||
    votingSource.epoch == s.justifiedCheckpoint.epoch ||
    currentEpoch ≤ votingSource.epoch.satAdd 2
  let correctFinalized : Bool := s.finalizedCheckpoint.epoch == genesisEpoch ||
    s.finalizedCheckpoint.root == finalizedCheckpointBlock
  pure (correctJustified && correctFinalized)

/-- A verdict on a subtree, with the viable blocks found so far. -/
abbrev FilterResult := Bool × HashMap Root BeaconBlock

/-- Visit the children of a block and join their verdicts. -/
def filterChildren (visit : Root → HashMap Root BeaconBlock → Outcome FilterResult)
    (children : List Root) (acc : FilterResult) : Outcome FilterResult :=
  children.foldlM (fun (acc : FilterResult) child => do
    let (childViable, blocks) ← visit child acc.2
    pure (acc.1 || childViable, blocks)) acc

/-- The filter recursion. A branch that is longer than the number of blocks meets a block twice,
and then the source's recursion does not end. -/
def filterBlockTreeLoop (s : Store) (o : Orders) :
    Nat → Root → HashMap Root BeaconBlock → Outcome FilterResult
  | 0, _, _ => .error .diverge
  | fuel + 1, blockRoot, blocks => do
    let block ← orFail (s.blocks.lookup blockRoot) (.unknownBlock blockRoot)
    let children := s.childRoots o blockRoot
    let result ← ite children.isEmpty
      (do pure (← s.leafIsViable blockRoot, blocks))
      (filterChildren (filterBlockTreeLoop s o fuel) children (false, blocks))
    pure (result.1, if result.1 then result.2.insert blockRoot block else result.2)

def filterBlockTree (o : Orders) (blockRoot : Root)
    (blocks : HashMap Root BeaconBlock) : Outcome FilterResult :=
  s.filterBlockTreeLoop o (s.blocks.keys.card + 1) blockRoot blocks

def getFilteredBlockTree (o : Orders) : Outcome (HashMap Root BeaconBlock) := do
  pure (← s.filterBlockTree o s.justifiedCheckpoint.root ∅).2

/-! ## The head walk -/

/-- Add the pending node of a block that lies under the decided node. -/
def addPendingChild (node : ForkChoiceNode) (children : List ForkChoiceNode)
    (entry : Root × BeaconBlock) : Outcome (List ForkChoiceNode) := do
  if entry.2.parentRoot ≠ node.root then return children
  let parentStatus ← s.getParentPayloadStatus entry.2
  if node.payloadStatus ≠ parentStatus then return children
  pure (children ++ [.pending entry.1])

/-- The pending children of a decided node, among `entries`. -/
def pendingChildren (node : ForkChoiceNode) (entries : List (Root × BeaconBlock)) :
    Outcome (List ForkChoiceNode) :=
  entries.foldlM (s.addPendingChild node) []

def getNodeChildren (o : Orders) (blocks : HashMap Root BeaconBlock)
    (node : ForkChoiceNode) : Outcome (List ForkChoiceNode) :=
  if node.payloadStatus = .pending then
    pure (.empty node.root :: if s.isPayloadVerified node.root then [.full node.root] else [])
  else s.pendingChildren node (o.filtered.entries blocks)

def headSelectionKey (o : Orders) (node : ForkChoiceNode) : Outcome HeadKey := do
  let weight ← s.getWeight o node
  let tiebreaker ← s.getPayloadStatusTiebreaker node
  pure (toLex (weight, toLex (node.root, tiebreaker)))

/-- Keep the heavier of the best child so far and the next one. -/
def heavierChild (o : Orders) (best : Option (ForkChoiceNode × HeadKey))
    (child : ForkChoiceNode) : Outcome (Option (ForkChoiceNode × HeadKey)) := do
  let key ← s.headSelectionKey o child
  pure (if best.all fun current => current.2 < key then some (child, key) else best)

/-- The child with the largest key; the first one among equals. -/
def selectHeaviestChild (o : Orders) (children : List ForkChoiceNode) :
    Outcome (Option ForkChoiceNode) := do
  let heaviest ← children.foldlM (s.heavierChild o) none
  pure (heaviest.map Prod.fst)

/-- The head walk. It goes from a node to one of its children, and there are three nodes per
block, so it runs out of fuel only when it comes back to a node. -/
def getHeadLoop (s : Store) (o : Orders) (blocks : HashMap Root BeaconBlock) :
    Nat → ForkChoiceNode → Outcome ForkChoiceNode
  | 0, _ => .error .diverge
  | fuel + 1, head => do
    let children ← s.getNodeChildren o blocks head
    match ← s.selectHeaviestChild o children with
    | some next => getHeadLoop s o blocks fuel next
    | none => pure head

def getHead (o : Orders) : Outcome ForkChoiceNode := do
  let blocks ← s.getFilteredBlockTree o
  s.getHeadLoop o blocks (3 * s.blocks.keys.card + 1) (.pending s.justifiedCheckpoint.root)

/-! ## Viable leaves -/

/-- The stack loop of `getViableForHeadNodes`: the last node pushed is taken first. -/
def viableLoop (s : Store) (o : Orders) (blocks : HashMap Root BeaconBlock) :
    Nat → List ForkChoiceNode → List WeightedForkChoiceNode → Outcome (List WeightedForkChoiceNode)
  | _, [], out => pure out
  | 0, _ :: _, _ => .error .diverge
  | fuel + 1, node :: pending, out => do
    let children ← s.getNodeChildren o blocks node
    if children.isEmpty then do
      let weight ← s.getWeight o node
      viableLoop s o blocks fuel pending (out ++ [⟨node.root, node.payloadStatus, weight⟩])
    else viableLoop s o blocks fuel (children.reverse ++ pending) out

def getViableForHeadNodes (o : Orders) : Outcome (List WeightedForkChoiceNode) := do
  let blocks ← s.getFilteredBlockTree o
  s.viableLoop o blocks (3 * s.blocks.keys.card + 1) [.pending s.justifiedCheckpoint.root] []

end Store

end Moonglass
