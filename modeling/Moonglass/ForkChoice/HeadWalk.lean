import Moonglass.ForkChoice.Filter
import Moonglass.ForkChoice.Score

/-
  The head walk over the node tree. Head selection compares the children of a node by weight, root
  and payload status; none of this depends on how the hash maps are iterated. The walk follows the
  links of the node tree, so it ends, and it ends at a node without children.
-/

namespace Moonglass

open Lib List HashMap

variable [Preset]
variable {parentRoot r : Root} {proposerIndex : ValidatorIndex} {p : BeaconBlock}
  {c n h : ForkChoiceNode} {blocks : HashMap Root BeaconBlock} {seen children : List ForkChoiceNode}
  {best : Option (ForkChoiceNode × HeadKey)} {P : ForkChoiceNode → Prop}

namespace Store

variable {s : Store} {anchor : Root} {o o' : Orders} {node : ForkChoiceNode}

/-! ## Weights -/

/-- Does an entry stand against the parent as a timely block of the same proposer? -/
def isTimelyEquivocation (s : Store) (parentRoot : Root) (proposerIndex : ValidatorIndex)
    (slot : Slot) (entry : Root × BeaconBlock) : Bool :=
  decide ¬(entry.1 = parentRoot ∨ entry.2.proposerIndex ≠ proposerIndex ∨
      !isNextSlot entry.2.slot slot) &&
    (s.blockTimeliness.lookup entry.1).any (·.payloadAttestationTimely)

/-- When every block's timeliness is recorded, the search looks at all entries alike. -/
theorem noTimelyEquivocation_eq {slot : Slot} {entries : List (Root × BeaconBlock)}
    (h : ∀ e ∈ entries, e.1 ∈ s.blockTimeliness) :
    s.noTimelyEquivocation parentRoot proposerIndex slot entries =
      .ok (!entries.any (s.isTimelyEquivocation parentRoot proposerIndex slot)) := by
  induction entries with
  | nil => rfl
  | cons e entries ih =>
    obtain ⟨root, b⟩ := e
    have hrest := ih fun e he => h e (mem_cons_of_mem _ he)
    obtain ⟨timeliness, ht⟩ := mem_iff_lookup.1 (h _ mem_cons_self)
    unfold noTimelyEquivocation
    by_cases hskip : root = parentRoot ∨ b.proposerIndex ≠ proposerIndex ∨
        !isNextSlot b.slot slot
    · rw [if_pos hskip, hrest, any_cons, isTimelyEquivocation,
        decide_eq_false (not_not.2 hskip)]
      rfl
    · rw [if_neg hskip, ht, orFail_some, ok_bind, hrest, any_cons, isTimelyEquivocation,
        decide_eq_true hskip, ht]
      cases htimely : timeliness.payloadAttestationTimely <;> simp [htimely]

/-- The proposer boost does not depend on the order of iteration. -/
theorem shouldApplyProposerBoost_orders [Crypto] (h : ∀ {r}, r ∈ s.blocks → r ∈ s.blockTimeliness) :
    s.shouldApplyProposerBoost o = s.shouldApplyProposerBoost o' := by
  have hentries : ∀ (o : Orders), ∀ e ∈ o.blocks.entries s.blocks, e.1 ∈ s.blockTimeliness :=
    fun o e he => h (mem_of_lookup ((o.blocks.mem_entries s.blocks e.1 e.2).1 he))
  unfold shouldApplyProposerBoost
  simp only [noTimelyEquivocation_eq (hentries o), noTimelyEquivocation_eq (hentries o'),
    (o.blocks.entries_perm o'.blocks s.blocks).any_eq]

theorem headSelectionKey_orders [Crypto] (h : ∀ {r}, r ∈ s.blocks → r ∈ s.blockTimeliness) :
    s.headSelectionKey o node = s.headSelectionKey o' node := by
  unfold headSelectionKey getWeight
  rw [shouldApplyProposerBoost_orders h]

/-- What a weight is made of. -/
theorem getWeight_cases [Crypto] {weight : Gwei} (h : s.getWeight o node = .ok weight) :
    s.isPreviousSlotPayloadDecision node = .ok true ∧ weight = 0 ∨
    s.isPreviousSlotPayloadDecision node = .ok false ∧ ∃ state score,
      s.getJustifiedState = .ok state ∧ s.getAttestationScore node state = .ok score ∧
      (weight = score ∨ ∃ boost, s.getProposerScore = .ok boost ∧
        weight.val = score.val + boost.val) := by
  unfold getWeight at h
  obtain ⟨previous, hprevious, h⟩ := bind_eq_ok.1 h
  cases previous with
  | true =>
    cases h
    exact .inl ⟨hprevious, rfl⟩
  | false =>
    rw [if_neg (by simp)] at h
    obtain ⟨state, hstate, h⟩ := bind_eq_ok.1 h
    obtain ⟨score, hscore, h⟩ := bind_eq_ok.1 h
    refine .inr ⟨hprevious, state, score, hstate, hscore, ?_⟩
    obtain ⟨apply, -, h⟩ := bind_eq_ok.1 h
    cases apply with
    | false =>
      cases h
      exact .inl rfl
    | true =>
      rw [if_neg (by simp)] at h
      obtain ⟨boosted, -, h⟩ := bind_eq_ok.1 h
      cases boosted with
      | false =>
        have h := Word.checkedAdd_eq_some.1 (orFail_eq_ok.1 h)
        exact .inl (Fin.ext h)
      | true =>
        rw [if_pos rfl] at h
        obtain ⟨boost, hboost, h⟩ := bind_eq_ok.1 h
        exact .inr ⟨boost, hboost, Word.checkedAdd_eq_some.1 (orFail_eq_ok.1 h)⟩

/-! ## Children -/

/-- Head selection compares `c` with its siblings under `n`. -/
def IsChild (s : Store) (blocks : HashMap Root BeaconBlock) (n c : ForkChoiceNode) : Prop :=
  if n.payloadStatus = .pending then c = .empty n.root ∨ c = .full n.root ∧ n.root ∈ s.payloads
  else c.payloadStatus = .pending ∧ ∃ b p, blocks.lookup c.root = some b ∧
    b.parentRoot = n.root ∧ s.blocks.lookup n.root = some p ∧ parentBranch b p = n.payloadStatus

/-- The child a block adds to a decided node whose own block is `p`. -/
def childOf (n : ForkChoiceNode) (p : BeaconBlock) (entry : Root × BeaconBlock) :
    Option ForkChoiceNode :=
  if entry.2.parentRoot = n.root ∧ parentBranch entry.2 p = n.payloadStatus then
    some (.pending entry.1)
  else none

theorem addPendingChild_eq (hp : s.blocks.lookup node.root = some p)
    (children : List ForkChoiceNode) (entry : Root × BeaconBlock) :
    s.addPendingChild node children entry =
      .ok (children ++ (childOf node p entry).toList) := by
  unfold addPendingChild childOf
  by_cases hparent : entry.2.parentRoot = node.root
  · rw [getParentPayloadStatus_ok (hparent ▸ hp)]
    by_cases hbranch : parentBranch entry.2 p = node.payloadStatus
    · simp [hparent, hbranch]
    · simp [hparent, hbranch, Ne.symm hbranch]
  · simp [hparent]

theorem pendingChildren_eq (hp : s.blocks.lookup node.root = some p)
    (entries : List (Root × BeaconBlock)) :
    s.pendingChildren node entries = .ok (entries.filterMap (childOf node p)) := by
  have aux : ∀ children, entries.foldlM (s.addPendingChild node) children =
      .ok (children ++ entries.filterMap (childOf node p)) := by
    induction entries with
    | nil => intro children; simp
    | cons entry entries ih =>
      intro children
      rw [foldlM_cons, addPendingChild_eq hp, ok_bind, ih, append_assoc,
        filterMap_cons]
      cases childOf node p entry <;> rfl
  exact aux []

theorem childOf_eq_some {entry : Root × BeaconBlock} :
    childOf node p entry = some c ↔ entry.2.parentRoot = node.root ∧
      parentBranch entry.2 p = node.payloadStatus ∧ c = .pending entry.1 := by
  unfold childOf
  split
  · rename_i h
    simp [h, eq_comm]
  · rename_i h
    constructor
    · intro h; cases h
    · rintro ⟨h1, h2, -⟩
      exact absurd ⟨h1, h2⟩ h

/-- The children of a stored node are listed, each once. -/
theorem getNodeChildren_ok (blocks : HashMap Root BeaconBlock) (hnode : node.root ∈ s.blocks) :
    ∃ children, s.getNodeChildren o blocks node = .ok children ∧ children.Nodup ∧
      ∀ c, c ∈ children ↔ s.IsChild blocks node c := by
  unfold getNodeChildren IsChild
  by_cases hpending : node.payloadStatus = .pending
  · simp only [if_pos hpending]
    refine ⟨_, rfl, ?_, fun c => ?_⟩
    · split <;> simp
    · by_cases hpayload : node.root ∈ s.payloads <;> simp [isPayloadVerified, hpayload]
  · simp only [if_neg hpending]
    obtain ⟨p, hp⟩ := mem_iff_lookup.1 hnode
    refine ⟨_, pendingChildren_eq hp _, ?_, fun c => ?_⟩
    · refine o.filtered.nodup_filterMap blocks ForkChoiceNode.root fun e c h => ?_
      exact congrArg ForkChoiceNode.root (childOf_eq_some.1 h).2.2
    · rw [mem_filterMap]
      constructor
      · rintro ⟨⟨root, b⟩, hmem, h⟩
        obtain ⟨hparent, hbranch, rfl⟩ := childOf_eq_some.1 h
        exact ⟨rfl, b, p, (o.filtered.mem_entries _ _ _).1 hmem, hparent, hp, hbranch⟩
      · rintro ⟨hc, b, p', hb, hparent, hp', hbranch⟩
        cases hp.symm.trans hp'
        obtain ⟨root, status⟩ := c
        cases hc
        exact ⟨(root, b), (o.filtered.mem_entries _ _ _).2 hb,
          childOf_eq_some.2 ⟨hparent, hbranch, rfl⟩⟩

theorem IsChild.root_mem (h : s.IsChild blocks n c)
    (hblocks : ∀ {r b}, blocks.lookup r = some b → s.blocks.lookup r = some b)
    (hn : n.root ∈ s.blocks) : c.root ∈ s.blocks := by
  unfold IsChild at h
  split at h
  · rcases h with rfl | ⟨rfl, -⟩ <;> exact hn
  · obtain ⟨-, b, -, hb, -⟩ := h
    exact mem_of_lookup (hblocks hb)

/-- Children are children in the node tree. -/
theorem RootedTree.nodeParent_of_isChild (t : RootedTree s anchor)
    (hblocks : ∀ {r b}, blocks.lookup r = some b → s.blocks.lookup r = some b)
    (h : s.IsChild blocks n c) : t.nodeForest.parent c = some n := by
  obtain ⟨r, status⟩ := n
  show s.nodeParent anchor c = some ⟨r, status⟩
  unfold IsChild at h
  split at h
  · rename_i hpending
    cases hpending
    rcases h with rfl | ⟨rfl, -⟩
    · exact nodeParent_eq_pending.2 (.inl rfl)
    · exact nodeParent_eq_pending.2 (.inr rfl)
  · obtain ⟨hc, b, p, hb, hparent, hp, hbranch⟩ := h
    obtain ⟨root, status'⟩ := c
    cases hc
    cases hparent
    cases hbranch
    refine nodeParent_pending.2 ⟨?_, b, p, hblocks hb, hp, rfl⟩
    rintro rfl
    exact t.anchor_parent (hblocks hb) (mem_of_lookup hp)

/-! ## The heaviest child -/

/-- `c` has the largest key of all `children`, and every key exists. -/
structure IsHeaviest [Crypto] (s : Store) (o : Orders) (children : List ForkChoiceNode)
    (c : ForkChoiceNode) (key : HeadKey) : Prop where
  mem : c ∈ children
  key_eq : s.headSelectionKey o c = .ok key
  le : ∀ c' ∈ children, ∃ key', s.headSelectionKey o c' = .ok key' ∧ key' ≤ key

/-- The best of the children seen so far. -/
def BestOf [Crypto] (s : Store) (o : Orders) (children : List ForkChoiceNode) :
    Option (ForkChoiceNode × HeadKey) → Prop
  | none => children = []
  | some (c, key) => IsHeaviest s o children c key

theorem heavierChild_best [Crypto] {child : ForkChoiceNode} (hbest : BestOf s o seen best) :
    Ensures (s.heavierChild o best child) (BestOf s o (seen ++ [child])) := by
  unfold heavierChild
  refine .step fun key hkey => .pure ?_
  have hchild : ∀ c' ∈ [child], ∃ key', s.headSelectionKey o c' = .ok key' ∧ key' ≤ key := by
    intro c' hc'
    rw [mem_singleton.1 hc']
    exact ⟨key, hkey, le_refl key⟩
  cases best with
  | none =>
    cases hbest
    exact ⟨mem_singleton_self child, hkey, hchild⟩
  | some current =>
    obtain ⟨c, current⟩ := current
    by_cases hlt : current < key
    · rw [if_pos (by simpa using hlt)]
      refine ⟨by simp, hkey, fun c' hc' => ?_⟩
      rcases mem_append.1 hc' with hc' | hc'
      · obtain ⟨key', hkey', hle⟩ := hbest.le c' hc'
        exact ⟨key', hkey', le_trans hle (le_of_lt hlt)⟩
      · exact hchild c' hc'
    · rw [if_neg (by simpa using hlt)]
      refine ⟨mem_append_left _ hbest.mem, hbest.key_eq, fun c' hc' => ?_⟩
      rcases mem_append.1 hc' with hc' | hc'
      · exact hbest.le c' hc'
      · obtain ⟨key', hkey', hle⟩ := hchild c' hc'
        exact ⟨key', hkey', le_trans hle (not_lt.1 hlt)⟩

theorem foldlM_heavierChild [Crypto] {rest : List ForkChoiceNode} (hbest : BestOf s o seen best) :
    Ensures (rest.foldlM (s.heavierChild o) best) (BestOf s o (seen ++ rest)) := by
  induction rest generalizing seen best with
  | nil =>
    rw [append_nil]
    exact .pure hbest
  | cons child rest ih =>
    rw [foldlM_cons]
    refine .bind (heavierChild_best hbest) fun best' hbest' => ?_
    have h := ih hbest'
    rwa [append_assoc] at h

/-- What head selection returns: nothing for no children, otherwise the heaviest child. -/
theorem selectHeaviestChild_cases [Crypto] {c : Option ForkChoiceNode}
    (h : s.selectHeaviestChild o children = .ok c) :
    children = [] ∧ c = none ∨ ∃ next key, c = some next ∧ IsHeaviest s o children next key := by
  obtain ⟨best, hbest, h⟩ := bind_eq_ok.1 h
  cases h
  have hnone : BestOf s o [] none := rfl
  have hbest := foldlM_heavierChild hnone best hbest
  cases best with
  | none => exact .inl ⟨hbest, rfl⟩
  | some current => exact .inr ⟨current.1, current.2, rfl, hbest⟩

/-- Head selection succeeds when every key exists. -/
theorem selectHeaviestChild_ok [Crypto]
    (h : ∀ c ∈ children, ∃ key, s.headSelectionKey o c = .ok key) :
    ∃ c, s.selectHeaviestChild o children = .ok c := by
  obtain ⟨best, hbest, -⟩ := foldlM_ok (f := s.heavierChild o) (fun _ => True) (b := none)
    (fun c hc best _ => by
      obtain ⟨key, hkey⟩ := h c hc
      rw [heavierChild, hkey]
      exact ⟨_, rfl, trivial⟩) trivial
  exact ⟨best.map Prod.fst, by rw [selectHeaviestChild, hbest]; rfl⟩

/-! ## Siblings have different keys -/

/-- The tie-break tells the two decided nodes of a block apart. -/
theorem tiebreaker_ne {a b : Nat} (ha : s.getPayloadStatusTiebreaker (.empty r) = .ok a)
    (hb : s.getPayloadStatusTiebreaker (.full r) = .ok b) : a ≠ b := by
  unfold getPayloadStatusTiebreaker at ha hb
  obtain ⟨previous, hprevious, ha⟩ := bind_eq_ok.1 ha
  -- whether the block is of the previous slot does not depend on the branch
  have hsame : s.isPreviousSlotPayloadDecision (.full r) =
      s.isPreviousSlotPayloadDecision (.empty r) := rfl
  rw [hsame, hprevious, ok_bind] at hb
  cases previous with
  | true =>
    cases ha
    obtain ⟨extend, -, hb⟩ := bind_eq_ok.1 hb
    cases extend <;> cases hb <;> decide
  | false =>
    cases ha
    cases hb
    exact Nat.zero_ne_one

theorem headSelectionKey_inj [Crypto] {c' : ForkChoiceNode} {key : HeadKey}
    (hc : s.IsChild blocks n c) (hc' : s.IsChild blocks n c') (h : s.headSelectionKey o c = .ok key)
    (h' : s.headSelectionKey o c' = .ok key) : c = c' := by
  unfold headSelectionKey at h h'
  obtain ⟨weight, -, h⟩ := bind_eq_ok.1 h
  obtain ⟨tiebreaker, htie, h⟩ := bind_eq_ok.1 h
  obtain ⟨weight', -, h'⟩ := bind_eq_ok.1 h'
  obtain ⟨tiebreaker', htie', h'⟩ := bind_eq_ok.1 h'
  have heq := (Except.ok.inj h).trans (Except.ok.inj h').symm
  simp only [toLex_inj, Prod.mk.injEq] at heq
  obtain ⟨-, hroot, htiebreaker⟩ := heq
  unfold IsChild at hc hc'
  split at hc
  · rename_i hpending
    rw [if_pos hpending] at hc'
    rcases hc with rfl | ⟨rfl, -⟩ <;> rcases hc' with rfl | ⟨rfl, -⟩
    · rfl
    · exact absurd htiebreaker (tiebreaker_ne htie htie')
    · exact absurd htiebreaker.symm (tiebreaker_ne htie' htie)
    · rfl
  · rename_i hpending
    rw [if_neg hpending] at hc'
    obtain ⟨root, status⟩ := c
    obtain ⟨root', status'⟩ := c'
    cases hc.1
    cases hc'.1
    cases hroot
    rfl

/-! ## The walk -/

/-- What holds at the start of the walk and passes from a node to its heaviest child holds at the
head, and the head has no children. -/
theorem getHeadLoop_inv [Crypto] {blocks : HashMap Root BeaconBlock} {P : ForkChoiceNode → Prop}
    (hblocks : ∀ {r b}, blocks.lookup r = some b → s.blocks.lookup r = some b)
    (hP : ∀ {n c : ForkChoiceNode} {children : List ForkChoiceNode} {key : HeadKey},
      n.root ∈ s.blocks → (∀ c, c ∈ children ↔ s.IsChild blocks n c) →
      IsHeaviest s o children c key → P n → P c)
    {fuel : Nat} {n h : ForkChoiceNode} (hn : n.root ∈ s.blocks) (hPn : P n)
    (hh : s.getHeadLoop o blocks fuel n = .ok h) :
    P h ∧ h.root ∈ s.blocks ∧ ∀ c, ¬s.IsChild blocks h c := by
  induction fuel generalizing n with
  | zero => cases hh
  | succ fuel ih =>
    unfold getHeadLoop at hh
    obtain ⟨children, hchildren, -, hmem⟩ := getNodeChildren_ok (o := o) blocks hn
    rw [hchildren, ok_bind] at hh
    obtain ⟨next, hnext, hh⟩ := bind_eq_ok.1 hh
    rcases selectHeaviestChild_cases hnext with ⟨rfl, rfl⟩ | ⟨c, key, rfl, hc⟩
    · cases hh
      exact ⟨hPn, hn, fun c hc => not_mem_nil ((hmem c).2 hc)⟩
    · exact ih (((hmem c).1 hc.mem).root_mem hblocks hn) (hP hn hmem hc hPn) hh

theorem getHeadLoop_orders [Crypto] (htimely : ∀ {r}, r ∈ s.blocks → r ∈ s.blockTimeliness)
    (hblocks : ∀ {r b}, blocks.lookup r = some b → s.blocks.lookup r = some b) {fuel : Nat}
    (hn : n.root ∈ s.blocks) (hh : s.getHeadLoop o blocks fuel n = .ok h) :
    s.getHeadLoop o' blocks fuel n = .ok h := by
  induction fuel generalizing n with
  | zero => cases hh
  | succ fuel ih =>
    unfold getHeadLoop at hh ⊢
    obtain ⟨children, hchildren, -, hmem⟩ := getNodeChildren_ok (o := o) blocks hn
    obtain ⟨children', hchildren', -, hmem'⟩ := getNodeChildren_ok (o := o') blocks hn
    rw [hchildren, ok_bind] at hh
    rw [hchildren', ok_bind]
    obtain ⟨next, hnext, hh⟩ := bind_eq_ok.1 hh
    have hkeys : ∀ c ∈ children', ∃ key, s.headSelectionKey o' c = .ok key := by
      intro c hc
      rcases selectHeaviestChild_cases hnext with ⟨rfl, -⟩ | ⟨best, key, -, hbest⟩
      · exact absurd ((hmem c).2 ((hmem' c).1 hc)) not_mem_nil
      · obtain ⟨key', hkey', -⟩ := hbest.le c ((hmem c).2 ((hmem' c).1 hc))
        exact ⟨key', (headSelectionKey_orders htimely).trans hkey'⟩
    obtain ⟨next', hnext'⟩ := selectHeaviestChild_ok hkeys
    rw [hnext', ok_bind]
    rcases selectHeaviestChild_cases hnext with ⟨rfl, rfl⟩ | ⟨c, key, rfl, hc⟩
    · rcases selectHeaviestChild_cases hnext' with ⟨-, rfl⟩ | ⟨c', key', -, hc'⟩
      · exact hh
      · exact absurd ((hmem c').2 ((hmem' c').1 hc'.mem)) not_mem_nil
    · rcases selectHeaviestChild_cases hnext' with ⟨rfl, -⟩ | ⟨c', key', rfl, hc'⟩
      · exact absurd ((hmem' c).2 ((hmem c).1 hc.mem)) not_mem_nil
      · have hchild := (hmem c).1 hc.mem
        have hchild' := (hmem' c').1 hc'.mem
        -- each of the two is at least as heavy as the other, so they are one child
        have heq : c = c' := by
          obtain ⟨key₁, hkey₁, hle₁⟩ := hc.le c' ((hmem c').2 hchild')
          obtain ⟨key₂, hkey₂, hle₂⟩ := hc'.le c ((hmem' c).2 hchild)
          have horders : ∀ node, s.headSelectionKey o' node = s.headSelectionKey o node :=
            fun _ => headSelectionKey_orders htimely
          rw [horders, hc.key_eq] at hkey₂
          have hk' := hc'.key_eq
          rw [horders, hkey₁] at hk'
          cases hkey₂
          cases hk'
          exact headSelectionKey_inj hchild hchild' hc.key_eq (le_antisymm hle₂ hle₁ ▸ hkey₁)
        rw [← heq]
        exact ih (hchild.root_mem hblocks hn) hh

/-! ## Termination -/

theorem isAncestor_returns (t : RootedTree s anchor) (n a : ForkChoiceNode) :
    Returns (s.isAncestor n a) :=
  .bind (.orFail _ _) fun _ _ => .bind (getAncestor_returns t _ _) fun _ _ => .pure _

theorem getAttestationScore_returns (t : RootedTree s anchor) (n : ForkChoiceNode)
    (state : BeaconState) : Returns (s.getAttestationScore n state) := by
  unfold getAttestationScore
  refine .foldlM (fun v _ total => ?_) 0
  unfold addVote
  cases s.latestMessages.lookup v with
  | none => exact .pure total
  | some message =>
    refine .ite (.pure total) (.bind (.bind (.orFail _ _) fun _ _ => .pure _) fun _ _ => ?_)
    refine .bind (isAncestor_returns t _ _) fun _ _ => .ite ?_ (.pure total)
    exact .bind (.orFail _ _) fun _ _ => .orFail _ _

theorem calculateCommitteeFraction_returns (state : BeaconState) (percent : Nat) :
    Returns (calculateCommitteeFraction state percent) :=
  .bind (.ofTransition _) fun _ _ => .pure _

theorem isHeadWeak_returns [Crypto] (t : RootedTree s anchor) (r : Root) :
    Returns (s.isHeadWeak r) := by
  unfold isHeadWeak
  refine .bind (.orFail _ _) fun state _ => .bind (calculateCommitteeFraction_returns _ _)
    fun _ _ => .bind (.orFail _ _) fun _ _ => .bind (.orFail _ _) fun _ _ => ?_
  refine .bind (getAttestationScore_returns t _ _) fun _ _ => .bind (.foldlM ?_ _) fun _ _ => .pure _
  intro _ _ _
  refine .bind (.ofTransition _) fun _ _ => .bind (.foldlM ?_ _) fun _ _ => .orFail _ _
  intro _ _ _
  exact .bind (.orFail _ _) fun _ _ => .orFail _ _

theorem noTimelyEquivocation_returns {slot : Slot} (entries : List (Root × BeaconBlock)) :
    Returns (s.noTimelyEquivocation parentRoot proposerIndex slot entries) := by
  induction entries with
  | nil => exact .pure true
  | cons e entries ih =>
    unfold noTimelyEquivocation
    exact .ite ih (.bind (.orFail _ _) fun _ _ => .ite (.pure false) ih)

theorem getWeight_returns [Crypto] (t : RootedTree s anchor) (n : ForkChoiceNode) :
    Returns (s.getWeight o n) := by
  unfold getWeight shouldApplyProposerBoost
  refine .bind (.bind (.orFail _ _) fun _ _ => .pure _) fun _ _ => .ite (.pure 0) ?_
  refine .bind (.orFail _ _) fun state _ => .bind (getAttestationScore_returns t _ _) fun _ _ => ?_
  refine .bind (.ite (.pure false) (.bind (.orFail _ _) fun _ _ => .bind (.orFail _ _) fun _ _ =>
    .ite (.pure true) (.bind (isHeadWeak_returns t _) fun _ _ => .ite (.pure true)
      (noTimelyEquivocation_returns _)))) fun _ _ => .ite (.pure _) ?_
  refine .bind (isAncestor_returns t _ _) fun _ _ => .ite ?_ ?_
  · exact .bind (.bind (.orFail _ _) fun _ _ => calculateCommitteeFraction_returns _ _)
      fun _ _ => .orFail _ _
  · exact .bind (.pure 0) fun _ _ => .orFail _ _

theorem getPayloadStatusTiebreaker_returns (n : ForkChoiceNode) :
    Returns (s.getPayloadStatusTiebreaker n) := by
  unfold getPayloadStatusTiebreaker shouldExtendPayload
  refine .bind (.bind (.orFail _ _) fun _ _ => .pure _) fun _ _ => .ite ?_ (.pure _)
  cases n.payloadStatus with
  | empty => exact .pure 1
  | pending => exact .pure 2
  | full =>
    refine .bind (.bind (.orFail _ _) fun _ _ => .ite (.fail _) (.ite (.pure false) ?_))
      fun _ _ => .pure _
    refine .bind (.bind (.orFail _ _) fun _ _ => .pure _) fun _ _ =>
      .bind (.bind (.orFail _ _) fun _ _ => .pure _) fun _ _ => .ite (.pure true) ?_
    refine .ite (.pure true) (.bind (.orFail _ _) fun _ _ => .ite (.pure true) ?_)
    exact .bind (.bind (.orFail _ _) fun _ _ => .pure _) fun _ _ => .pure _

theorem headSelectionKey_returns [Crypto] (t : RootedTree s anchor) (n : ForkChoiceNode) :
    Returns (s.headSelectionKey o n) :=
  .bind (getWeight_returns t n) fun _ _ =>
    .bind (getPayloadStatusTiebreaker_returns n) fun _ _ => .pure _

/-- The nodes of the stored blocks. -/
def nodes (s : Store) : Finset ForkChoiceNode :=
  s.blocks.keys.biUnion fun r => {.pending r, .empty r, .full r}

theorem mem_nodes : n ∈ s.nodes ↔ n.root ∈ s.blocks := by
  obtain ⟨r, status⟩ := n
  simp only [nodes, Finset.mem_biUnion, Finmap.mem_keys, Finset.mem_insert, Finset.mem_singleton,
    ForkChoiceNode.mk.injEq]
  constructor
  · rintro ⟨q, hq, h⟩
    rcases h with ⟨rfl, -⟩ | ⟨rfl, -⟩ | ⟨rfl, -⟩ <;> exact hq
  · intro h
    refine ⟨r, h, ?_⟩
    cases status <;> simp

theorem card_nodes_le (s : Store) : s.nodes.card ≤ 3 * s.blocks.keys.card := by
  rw [Nat.mul_comm]
  exact Finset.card_biUnion_le_card_mul _ _ _ fun r _ => Finset.card_le_three

theorem getHeadLoop_returns [Crypto] (t : RootedTree s anchor)
    (hblocks : ∀ {r b}, blocks.lookup r = some b → s.blocks.lookup r = some b) (fuel : Nat)
    (hn : n.root ∈ s.blocks) (hfuel : t.nodeForest.above s.nodes n < fuel) :
    Returns (s.getHeadLoop o blocks fuel n) := by
  induction fuel generalizing n with
  | zero => omega
  | succ fuel ih =>
    unfold getHeadLoop
    obtain ⟨children, hchildren, -, hmem⟩ := getNodeChildren_ok (o := o) blocks hn
    rw [hchildren, ok_bind]
    refine .bind (.bind (.foldlM (fun c _ _ => ?_) none) fun _ _ => .pure _) fun next hnext => ?_
    · exact .bind (headSelectionKey_returns t c) fun _ _ => .pure _
    · rcases selectHeaviestChild_cases hnext with ⟨-, rfl⟩ | ⟨c, key, rfl, hc⟩
      · exact .pure n
      · have hchild := (hmem c).1 hc.mem
        have habove := t.nodeForest.above_lt (mem_nodes.2 hn)
          (t.nodeForest.rank_lt (t.nodeParent_of_isChild hblocks hchild))
        exact ih (hchild.root_mem hblocks hn) (by omega)

/-! ## The head -/

/-- The filtered tree holds the viable stored blocks at or below the justified root. -/
theorem lookup_filtered (t : RootedTree s anchor) (h : s.getFilteredBlockTree o = .ok blocks)
    {b : BeaconBlock} :
    blocks.lookup r = some b ↔ s.blocks.lookup r = some b ∧
      t.blockForest.Le s.justifiedCheckpoint.root r ∧ Viable t.toBlockTree r := by
  classical
  rw [((getFilteredBlockTree_eq_ok t).1 h).2.2 r]
  split
  · rename_i hr
    simp [hr]
  · rename_i hr
    simp [hr]

/-- The filtered tree and the head do not depend on the order of iteration. -/
theorem getFilteredBlockTree_orders (t : RootedTree s anchor)
    (h : s.getFilteredBlockTree o = .ok blocks) : s.getFilteredBlockTree o' = .ok blocks :=
  (getFilteredBlockTree_eq_ok t).2 ((getFilteredBlockTree_eq_ok t).1 h)

theorem getHead_orders [Crypto] (t : RootedTree s anchor)
    (htimely : ∀ {r}, r ∈ s.blocks → r ∈ s.blockTimeliness) (hh : s.getHead o = .ok h) :
    s.getHead o' = .ok h := by
  unfold getHead at hh ⊢
  obtain ⟨blocks, hblocks, hh⟩ := bind_eq_ok.1 hh
  rw [getFilteredBlockTree_orders t hblocks, ok_bind]
  exact getHeadLoop_orders htimely (fun hb => ((lookup_filtered t hblocks).1 hb).1)
    ((getFilteredBlockTree_eq_ok t).1 hblocks).1 hh

/-- The head walk ends, with a head or an error. -/
theorem getHead_returns [Crypto] (t : RootedTree s anchor) : Returns (s.getHead o) := by
  refine .bind (getFilteredBlockTree_returns t) fun blocks hblocks => ?_
  refine getHeadLoop_returns t (fun hb => ((lookup_filtered t hblocks).1 hb).1) _
    ((getFilteredBlockTree_eq_ok t).1 hblocks).1 (Nat.lt_succ_of_le ?_)
  exact Nat.le_trans (t.nodeForest.above_le_card s.nodes _) s.card_nodes_le

/-- What passes from a node to its heaviest child and holds at the justified root holds at the
head. -/
theorem getHead_inv [Crypto] (t : RootedTree s anchor) {P : ForkChoiceNode → Prop}
    {h : ForkChoiceNode}
    {blocks : HashMap Root BeaconBlock} (hblocks : s.getFilteredBlockTree o = .ok blocks)
    (hroot : P (.pending s.justifiedCheckpoint.root))
    (hP : ∀ {n c : ForkChoiceNode} {children : List ForkChoiceNode} {key : HeadKey},
      n.root ∈ s.blocks → (∀ c, c ∈ children ↔ s.IsChild blocks n c) →
      IsHeaviest s o children c key → P n → P c) (hh : s.getHead o = .ok h) :
    P h ∧ h.root ∈ s.blocks ∧ ∀ c, ¬s.IsChild blocks h c := by
  unfold getHead at hh
  rw [hblocks, ok_bind] at hh
  exact getHeadLoop_inv (fun hb => ((lookup_filtered t hblocks).1 hb).1) hP
    ((getFilteredBlockTree_eq_ok t).1 hblocks).1 hroot hh

/-- The head lies below the justified root. -/
theorem justified_le_head [Crypto] (t : RootedTree s anchor) (hh : s.getHead o = .ok h) :
    t.nodeForest.Le (.pending s.justifiedCheckpoint.root) h := by
  obtain ⟨blocks, hblocks, -⟩ := bind_eq_ok.1 hh
  refine (getHead_inv t (P := fun n => t.nodeForest.Le (.pending s.justifiedCheckpoint.root) n)
    hblocks (Forest.Le.refl _) ?_ hh).1
  intro n c children key _ hmem hc hn
  have hchild := (hmem c).1 hc.mem
  exact hn.trans (Forest.le_of_parent
    (t.nodeParent_of_isChild (fun hb => ((lookup_filtered t hblocks).1 hb).1) hchild))

end Store

end Moonglass
