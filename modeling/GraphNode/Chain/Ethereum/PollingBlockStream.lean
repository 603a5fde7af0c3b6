import GraphNode.Chain.Ethereum.Trigger
import GraphNode.Data.Entity
import GraphNode.Lib.ParentForest

/-!
# The next reconciliation step of the polling block stream

`PollingBlockStreamContext::get_next_step` decides how the block stream of a subgraph moves
its pointer towards the chain head: it reverts the block the pointer is at, processes blocks
after it, retries, or is done. Far behind the head (more than the reorg threshold, which is
clamped to the head's number so that genesis can be processed) it trusts the RPC node: it asks
whether the pointer is on the main chain, and scans for blocks with triggers up to the reorg
threshold. Within the threshold it walks back from the head in the chain store, to the block
after the pointer, and compares that block's parent with the pointer.

The chain store and the RPC adapter are an interface (`TriggersAdapter`); their errors, which
end `get_next_step` with the error, are not modelled. `TriggersAdapter.Answers` says that they
answer from one block tree with one head: `is_on_main_chain` is membership of the head's line
of ancestors, `parent_ptr` the parent, `ancestor_block` the walk `walk_back_ancestor` of the
code, and `scan_triggers` returns blocks of that line in the range it reports.

* **`get_next_step` reconciles** (`getNextStep_reconciles`): it reverts only a pointer off the
  head's line, to its parent; far behind, it processes only blocks of the line after the pointer
  and at most the reorg threshold below the head; within the threshold, exactly the block of the
  line whose parent is the pointer; and it is done only without a head or at the head.
* The threshold in those bounds is the clamped one: with a reorg threshold above the head's
  number and no pointer, the stream processes the genesis block, which lies less than the
  reorg threshold below the head (`getNextStep_processes_genesis`).
-/

namespace GraphNode.Ethereum

/-! ### The step -/

/-- `ReconciliationStep`. -/
inductive ReconciliationStep
  | processDescendantBlocks (blocks : List BlockPtr) (rangeSize : BlockNumber)
  | retry
  | done
  | revert (parentPtr : BlockPtr)
  deriving DecidableEq, Repr

/-- The error of `parent_ptr`: "Failed to get parent pointer for {block_ptr} ({reason})". -/
structure ParentPtrError where
  blockPtr : BlockPtr
  reason : String
  deriving DecidableEq, Repr

/-- What `get_next_step` asks of the chain store and the RPC adapter. A block is its pointer:
the triggers of a block are not modelled. -/
structure TriggersAdapter where
  /-- `chain_head_ptr` of the chain store. -/
  chainHeadPtr : Option BlockPtr
  /-- `is_on_main_chain`, asked of the RPC node. -/
  isOnMainChain : BlockPtr → Bool
  /-- `parent_ptr`. -/
  parentPtr : BlockPtr → Option BlockPtr
  /-- `ancestor_block`: the block reached, with its `parent_hash`. -/
  ancestorBlock : BlockPtr → BlockNumber → Option B256 → Option (BlockPtr × Option B256)
  /-- `scan_triggers`: the blocks with triggers from `from` to `to`, and the end of the range
  actually scanned. -/
  scanTriggers : BlockNumber → BlockNumber → List BlockPtr × BlockNumber

/-- The fields of `PollingBlockStreamContext` that `get_next_step` reads. -/
structure PollingBlockStreamContext where
  adapter : TriggersAdapter
  currentBlock : Option BlockPtr
  reorgThreshold : BlockNumber
  startBlocks : List BlockNumber
  previousTriggersPerBlock : Float
  previousBlockRangeSize : BlockNumber
  maxBlockRangeSize : BlockNumber
  targetTriggersPerBlockRange : Nat

/-- `walk_back_ancestor`: up to `offset` steps back along `parent_getter`, stopping at the child
of `root`; `none` where a parent is missing. -/
def walkBackAncestor (parentGetter : BlockPtr → Option BlockPtr) (startPtr : BlockPtr)
    (offset : BlockNumber) (root : Option B256) : Option BlockPtr :=
  go offset.toNat startPtr
where
  /-- The loop, with the steps left. -/
  go : Nat → BlockPtr → Option BlockPtr
    | 0, currentPtr => some currentPtr
    | n + 1, currentPtr =>
      match parentGetter currentPtr with
      | some parent => if root = some parent.hash then some currentPtr else go n parent
      | none => none

namespace PollingBlockStreamContext

variable (ctx : PollingBlockStreamContext)

/-- `parent_ptr`: the parent the adapter knows, or the error. -/
def parentPtr (blockPtr : BlockPtr) (reason : String) : Except ParentPtrError BlockPtr :=
  match ctx.adapter.parentPtr blockPtr with
  | some ptr => .ok ptr
  | none => .error ⟨blockPtr, reason⟩

/-- The scan of `get_next_step` beyond the reorg threshold: from the block after the pointer to
the next start block or the reorg threshold, in a range adapted to the triggers found before. -/
def scanForward (headPtr : BlockPtr) (reorgThreshold : BlockNumber)
    (subgraphPtr : Option BlockPtr) : ReconciliationStep :=
  let fromBlock := subgraphPtr.elim 0 fun ptr => ptr.number + 1
  let nextStartBlock := ((ctx.startBlocks.filter (· > fromBlock)).min?).getD BLOCK_NUMBER_MAX
  let toLimit := min (headPtr.number - reorgThreshold) (nextStartBlock - 1)
  let rangeSizeUpperLimit := min ctx.maxBlockRangeSize (ctx.previousBlockRangeSize * 10)
  let targetRangeSize : BlockNumber :=
    if ctx.previousTriggersPerBlock == 0.0 then rangeSizeUpperLimit
    else (min (max (Float.ofNat ctx.targetTriggersPerBlockRange / ctx.previousTriggersPerBlock)
      1.0) (Float.ofInt rangeSizeUpperLimit)).toInt32.toInt
  let toBlock := min (fromBlock + targetRangeSize - 1) toLimit
  -- the range actually scanned, past skipped null blocks
  let (blocks, toBlock) := ctx.adapter.scanTriggers fromBlock toBlock
  let rangeSize := toBlock - fromBlock + 1
  -- a range that ends within the reorg threshold waits for the head to advance
  if toBlock > headPtr.number - reorgThreshold then .retry
  else .processDescendantBlocks blocks rangeSize

/-- `get_next_step` beyond the reorg threshold: revert a pointer off the main chain, else scan. -/
def stepBeyondReorgThreshold (headPtr : BlockPtr) (reorgThreshold : BlockNumber)
    (subgraphPtr : Option BlockPtr) : Except ParentPtrError ReconciliationStep :=
  match subgraphPtr with
  | some ptr =>
    if !ctx.adapter.isOnMainChain ptr then
      (ctx.parentPtr ptr "is_on_main_chain").map .revert
    else .ok (ctx.scanForward headPtr reorgThreshold subgraphPtr)
  | none => .ok (ctx.scanForward headPtr reorgThreshold subgraphPtr)

/-- `get_next_step` within the reorg threshold: walk back from the head to one block short of
the pointer, and step to that block if the pointer is its parent, else revert. -/
def stepWithinReorgThreshold (headPtr subgraphPtr : BlockPtr) :
    Except ParentPtrError ReconciliationStep :=
  let offset := headPtr.number - subgraphPtr.number - 1
  match ctx.adapter.ancestorBlock headPtr offset (some subgraphPtr.hash) with
  -- the block is missing in the block store
  | none => .ok .retry
  | some (headAncestor, parentHash) =>
    if parentHash = some subgraphPtr.hash then .ok (.processDescendantBlocks [headAncestor] 1)
    else (ctx.parentPtr subgraphPtr "nonfinal").map .revert

/-- `PollingBlockStreamContext::get_next_step`. -/
def getNextStep : Except ParentPtrError ReconciliationStep :=
  match ctx.adapter.chainHeadPtr with
  -- no reconciliation until the chain store has blocks
  | none => .ok .done
  | some headPtr =>
    let reorgThreshold := min ctx.reorgThreshold headPtr.number
    match ctx.currentBlock with
    | some ptr =>
      if ptr.number ≥ headPtr.number then .ok .done
      else if headPtr.number - ptr.number > reorgThreshold then
        ctx.stepBeyondReorgThreshold headPtr reorgThreshold (some ptr)
      else ctx.stepWithinReorgThreshold headPtr ptr
    | none => ctx.stepBeyondReorgThreshold headPtr reorgThreshold none

end PollingBlockStreamContext

/-! ### One block tree behind the adapter -/

/-- The pointer of the block of hash `h`, in a tree whose ranks are block numbers. -/
def blockPtrOf (t : ParentForest B256) (h : B256) : BlockPtr := ⟨h, t.rank h⟩

/-- The block of hash `h` is on the line of ancestors of the head. -/
def Canonical (t : ParentForest B256) (head : Option B256) (h : B256) : Prop :=
  ∃ hd, head = some hd ∧ t.Ancestor h hd

/-- The chain store and the RPC adapter answer from the block tree `t` with the head `head`. -/
structure TriggersAdapter.Answers (a : TriggersAdapter) (t : ParentForest B256)
    (head : Option B256) : Prop where
  chainHeadPtr : a.chainHeadPtr = head.map (blockPtrOf t)
  isOnMainChain : ∀ h, a.isOnMainChain (blockPtrOf t h) = true ↔ Canonical t head h
  parentPtr : ∀ h, a.parentPtr (blockPtrOf t h) = (t.parent h).map (blockPtrOf t)
  ancestorBlock : ∀ ptr offset root, a.ancestorBlock ptr offset root =
    (walkBackAncestor a.parentPtr ptr offset root).map fun b => (b, t.parent b.hash)
  scanTriggers : ∀ fromBlock toBlock, ∀ b ∈ (a.scanTriggers fromBlock toBlock).1,
    blockPtrOf t b.hash = b ∧ Canonical t head b.hash ∧ fromBlock ≤ b.number ∧
      b.number ≤ (a.scanTriggers fromBlock toBlock).2

/-! ### The walk back -/

section Walk

variable {a : TriggersAdapter} {t : ParentForest B256}
  (hparent : ∀ h, a.parentPtr (blockPtrOf t h) = (t.parent h).map (blockPtrOf t))
include hparent

/-- The walk stays on the ancestors of the block it starts from. -/
theorem walkBackAncestor_go_ancestor {root : Option B256} {n : Nat} {s : B256} {b : BlockPtr}
    (h : walkBackAncestor.go a.parentPtr root n (blockPtrOf t s) = some b) :
    ∃ c, b = blockPtrOf t c ∧ t.Ancestor c s := by
  induction n generalizing s with
  | zero =>
    rw [walkBackAncestor.go] at h
    exact ⟨s, (Option.some.inj h).symm, .refl s⟩
  | succ n ih =>
    rw [walkBackAncestor.go, hparent] at h
    cases hp : t.parent s with
    | none => simp [hp] at h
    | some p =>
      rw [hp, Option.map_some] at h
      dsimp only at h
      split_ifs at h
      · exact ⟨s, (Option.some.inj h).symm, .refl s⟩
      · obtain ⟨c, rfl, hc⟩ := ih h
        exact ⟨c, rfl, hc.trans (.of_parent hp)⟩

/-- **The walk finds the child of a proper ancestor** on its way, with a step for every number
between them. -/
theorem walkBackAncestor_go_child {n : Nat} {r s : B256} (hrs : t.Ancestor r s) (hne : r ≠ s)
    (hsteps : t.rank s - t.rank r ≤ n + 1) :
    ∃ c, walkBackAncestor.go a.parentPtr (some r) n (blockPtrOf t s) = some (blockPtrOf t c) ∧
      t.parent c = some r := by
  induction n generalizing s with
  | zero =>
    -- no step is left: the parent of `s` has no lower number than `r`, so it is `r`
    obtain ⟨p, hp, hrp⟩ := hrs.exists_parent_of_ne hne
    have hlt := t.rank_parent_lt s p hp
    have hrp' : r = p := hrp.eq_of_rank_le (by omega)
    exact ⟨s, rfl, hrp' ▸ hp⟩
  | succ n ih =>
    obtain ⟨p, hp, hrp⟩ := hrs.exists_parent_of_ne hne
    rw [walkBackAncestor.go, hparent, hp, Option.map_some]
    dsimp only
    by_cases hrp' : r = p
    · -- the parent is the root: the walk stops at `s`
      rw [if_pos (by rw [hrp']; rfl)]
      exact ⟨s, rfl, hrp' ▸ hp⟩
    · rw [if_neg (by simpa [blockPtrOf] using hrp')]
      have hlt := t.rank_parent_lt s p hp
      exact ih hrp hrp' (by omega)

end Walk

/-! ### The branches -/

theorem map_revert_eq_ok {x : Except ParentPtrError BlockPtr} {s : ReconciliationStep}
    (h : x.map .revert = .ok s) : ∃ p, x = .ok p ∧ s = .revert p := by
  cases x with
  | error e => cases h
  | ok p => exact ⟨p, rfl, (Except.ok.inj h).symm⟩

/-- The scan asks `scan_triggers` from the block after the pointer; its range size and its end
are whatever the adapter reports. -/
theorem scanForward_eq (ctx : PollingBlockStreamContext) (headPtr : BlockPtr)
    (reorgThreshold : BlockNumber) (subgraphPtr : Option BlockPtr) :
    ∃ toBlock, ctx.scanForward headPtr reorgThreshold subgraphPtr =
      let fromBlock := subgraphPtr.elim 0 fun ptr => ptr.number + 1
      let r := ctx.adapter.scanTriggers fromBlock toBlock
      if r.2 > headPtr.number - reorgThreshold then .retry
      else .processDescendantBlocks r.1 (r.2 - fromBlock + 1) :=
  ⟨_, rfl⟩

section Branches

variable {ctx : PollingBlockStreamContext} {t : ParentForest B256} {head : Option B256}
  (ha : ctx.adapter.Answers t head)
include ha

/-- `parent_ptr` answers the parent in the tree. -/
theorem parentPtr_eq_ok {ptr p : BlockPtr} {reason : String} (hptr : blockPtrOf t ptr.hash = ptr)
    (h : ctx.parentPtr ptr reason = .ok p) :
    t.parent ptr.hash = some p.hash ∧ blockPtrOf t p.hash = p := by
  unfold PollingBlockStreamContext.parentPtr at h
  rw [← hptr, ha.parentPtr] at h
  cases hp : t.parent ptr.hash with
  | none => simp [hp] at h
  | some q =>
    rw [hp, Option.map_some] at h
    cases h
    exact ⟨rfl, rfl⟩

/-- A revert is to the parent of the pointer. -/
theorem map_parentPtr_eq_ok {ptr : BlockPtr} {reason : String} {s : ReconciliationStep}
    (hptr : blockPtrOf t ptr.hash = ptr) (h : (ctx.parentPtr ptr reason).map .revert = .ok s) :
    ∃ p, s = .revert p ∧ t.parent ptr.hash = some p.hash ∧ blockPtrOf t p.hash = p := by
  obtain ⟨p, hp, rfl⟩ := map_revert_eq_ok h
  exact ⟨p, rfl, parentPtr_eq_ok ha hptr hp⟩

/-- **The scan processes blocks of the head's line** from the block after the pointer to the
reorg threshold, or retries. -/
theorem scanForward_spec (headPtr : BlockPtr) (reorgThreshold : BlockNumber)
    (subgraphPtr : Option BlockPtr) :
    ctx.scanForward headPtr reorgThreshold subgraphPtr = .retry ∨
      ∃ blocks n, ctx.scanForward headPtr reorgThreshold subgraphPtr =
        .processDescendantBlocks blocks n ∧ ∀ b ∈ blocks, blockPtrOf t b.hash = b ∧
          Canonical t head b.hash ∧ subgraphPtr.elim 0 (fun ptr => ptr.number + 1) ≤ b.number ∧
          b.number ≤ headPtr.number - reorgThreshold := by
  obtain ⟨toBlock, heq⟩ := scanForward_eq ctx headPtr reorgThreshold subgraphPtr
  rw [heq]
  dsimp only
  split_ifs with hto
  · exact .inl rfl
  · refine .inr ⟨_, _, rfl, fun b hb => ?_⟩
    obtain ⟨hb₁, hb₂, hb₃, hb₄⟩ := ha.scanTriggers _ _ b hb
    dsimp only [BlockNumber] at hto hb₄
    exact ⟨hb₁, hb₂, hb₃, by omega⟩

/-- **Beyond the reorg threshold**, `get_next_step` reverts a pointer off the head's line to its
parent, or processes blocks of the line after the pointer and up to the threshold, or retries. -/
theorem stepBeyondReorgThreshold_spec {headPtr : BlockPtr} {reorgThreshold : BlockNumber}
    {subgraphPtr : Option BlockPtr}
    (hsp : ∀ ptr, subgraphPtr = some ptr → blockPtrOf t ptr.hash = ptr) {s : ReconciliationStep}
    (h : ctx.stepBeyondReorgThreshold headPtr reorgThreshold subgraphPtr = .ok s) :
    s = .retry ∨
      (∃ blocks n, s = .processDescendantBlocks blocks n ∧ ∀ b ∈ blocks,
        blockPtrOf t b.hash = b ∧ Canonical t head b.hash ∧
          subgraphPtr.elim 0 (fun ptr => ptr.number + 1) ≤ b.number ∧
          b.number ≤ headPtr.number - reorgThreshold) ∨
      ∃ ptr p, subgraphPtr = some ptr ∧ s = .revert p ∧ ¬ Canonical t head ptr.hash ∧
        t.parent ptr.hash = some p.hash ∧ blockPtrOf t p.hash = p := by
  -- the scan, with or without a pointer
  have hscan : ctx.scanForward headPtr reorgThreshold subgraphPtr = s → s = .retry ∨
      ∃ blocks n, s = .processDescendantBlocks blocks n ∧ ∀ b ∈ blocks,
        blockPtrOf t b.hash = b ∧ Canonical t head b.hash ∧
          subgraphPtr.elim 0 (fun ptr => ptr.number + 1) ≤ b.number ∧
          b.number ≤ headPtr.number - reorgThreshold := by
    rintro rfl
    exact scanForward_spec ha headPtr reorgThreshold subgraphPtr
  unfold PollingBlockStreamContext.stepBeyondReorgThreshold at h
  cases hsub : subgraphPtr with
  | none =>
    rw [hsub] at h hscan
    exact (hscan (Except.ok.inj h)).elim .inl fun hp => .inr (.inl hp)
  | some ptr =>
    rw [hsub] at h hscan
    have hptr := hsp ptr hsub
    dsimp only at h
    split_ifs at h with hmain
    · -- the node does not have the pointer on its main chain
      obtain ⟨p, rfl, hp, hpp⟩ := map_parentPtr_eq_ok ha hptr h
      have hoff : ¬ Canonical t head ptr.hash := by
        rw [← ha.isOnMainChain, hptr]
        simpa using hmain
      exact .inr (.inr ⟨ptr, p, rfl, rfl, hoff, hp, hpp⟩)
    · exact (hscan (Except.ok.inj h)).elim .inl fun hp => .inr (.inl hp)

/-- **Within the reorg threshold**, `get_next_step` processes the child of the pointer on the
head's line, or reverts a pointer off that line to its parent, or retries. -/
theorem stepWithinReorgThreshold_spec {hd : B256} {ptr : BlockPtr} (hhead : head = some hd)
    (hptr : blockPtrOf t ptr.hash = ptr) (hlt : ptr.number < t.rank hd) {s : ReconciliationStep}
    (h : ctx.stepWithinReorgThreshold (blockPtrOf t hd) ptr = .ok s) :
    s = .retry ∨
      (∃ c, s = .processDescendantBlocks [c] 1 ∧ Canonical t head c.hash ∧
        blockPtrOf t c.hash = c ∧ t.parent c.hash = some ptr.hash) ∨
      ∃ p, s = .revert p ∧ ¬ Canonical t head ptr.hash ∧ t.parent ptr.hash = some p.hash ∧
        blockPtrOf t p.hash = p := by
  unfold PollingBlockStreamContext.stepWithinReorgThreshold at h
  dsimp only at h
  rw [ha.ancestorBlock] at h
  set offset := (blockPtrOf t hd).number - ptr.number - 1 with hoffset
  cases hwalk : walkBackAncestor ctx.adapter.parentPtr (blockPtrOf t hd) offset
      (some ptr.hash) with
  | none =>
    rw [hwalk] at h
    exact .inl (Except.ok.inj h).symm
  | some b =>
    rw [hwalk] at h
    -- the block reached is on the head's line
    obtain ⟨c, rfl, hc⟩ := walkBackAncestor_go_ancestor ha.parentPtr hwalk
    rw [Option.map_some] at h
    dsimp only at h
    split_ifs at h with hpar
    · refine .inr (.inl ⟨blockPtrOf t c, (Except.ok.inj h).symm, ⟨hd, hhead, hc⟩, rfl, hpar⟩)
    · obtain ⟨p, rfl, hp, hpp⟩ := map_parentPtr_eq_ok ha hptr h
      refine .inr (.inr ⟨p, rfl, ?_, hp, hpp⟩)
      -- on the head's line, the walk would have stopped at the child of the pointer
      rintro ⟨hd', hhd', hanc⟩
      rw [hhead, Option.some_inj] at hhd'
      subst hhd'
      have hrank : t.rank ptr.hash = ptr.number := by rw [← hptr]; rfl
      have hne : ptr.hash ≠ hd := fun heq => by rw [heq] at hrank; omega
      obtain ⟨c', hwalk', hc'⟩ := walkBackAncestor_go_child ha.parentPtr (n := offset.toNat) hanc
        hne (by simp only [hoffset, blockPtrOf]; omega)
      have hcc : c = c' := by
        have := hwalk.symm.trans hwalk'
        exact congrArg BlockPtr.hash (Option.some.inj this)
      exact hpar (by rw [hcc]; exact hc')

end Branches

/-! ### Reconciliation -/

/-- What it takes for the step `s` to reconcile the pointer `ptr` with the head's line of the
tree `t`, where `threshold n` is the reorg threshold at a head of number `n`. A subgraph without a
pointer has the whole chain ahead of it: it counts as far behind. -/
structure Reconciles (t : ParentForest B256) (head : Option B256) (ptr : Option BlockPtr)
    (threshold : BlockNumber → BlockNumber) (s : ReconciliationStep) : Prop where
  /-- A revert is of a pointer off the head's line, to its parent. -/
  revert : ∀ p, s = .revert p → ∃ q, ptr = some q ∧ ¬ Canonical t head q.hash ∧
    t.parent q.hash = some p.hash ∧ blockPtrOf t p.hash = p
  /-- Far behind, the blocks processed are on the head's line, after the pointer, and at least
  the threshold below the head. -/
  processBeyond : ∀ blocks n hd, s = .processDescendantBlocks blocks n → head = some hd →
    ptr.elim True (fun q => t.rank hd - q.number > threshold (t.rank hd)) → ∀ b ∈ blocks,
      blockPtrOf t b.hash = b ∧ Canonical t head b.hash ∧
        ptr.elim 0 (fun q => q.number + 1) ≤ b.number ∧
        b.number ≤ t.rank hd - threshold (t.rank hd)
  /-- Within the threshold, the one block processed is the child of the pointer on the line. -/
  processWithin : ∀ blocks n hd q, s = .processDescendantBlocks blocks n → head = some hd →
    ptr = some q → t.rank hd - q.number ≤ threshold (t.rank hd) →
      ∃ c, blocks = [c] ∧ Canonical t head c.hash ∧ t.parent c.hash = some q.hash ∧
        blockPtrOf t c.hash = c
  /-- Done is without a head, or with the pointer not behind it. -/
  done : s = .done → head = none ∨
    ∃ hd q, head = some hd ∧ ptr = some q ∧ t.rank hd ≤ q.number

namespace Reconciles

variable {t : ParentForest B256} {head : Option B256} {ptr : Option BlockPtr}
  {threshold : BlockNumber → BlockNumber}

/-- A retry changes nothing. -/
theorem retry : Reconciles t head ptr threshold .retry where
  revert _ h := by cases h
  processBeyond _ _ _ h := by cases h
  processWithin _ _ _ _ h := by cases h
  done h := by cases h

theorem of_revert {q p : BlockPtr} (hq : ptr = some q) (hoff : ¬ Canonical t head q.hash)
    (hp : t.parent q.hash = some p.hash) (hpp : blockPtrOf t p.hash = p) :
    Reconciles t head ptr threshold (.revert p) where
  revert _ h := by
    cases h
    exact ⟨q, hq, hoff, hp, hpp⟩
  processBeyond _ _ _ h := by cases h
  processWithin _ _ _ _ h := by cases h
  done h := by cases h

theorem of_done (h : head = none ∨ ∃ hd q, head = some hd ∧ ptr = some q ∧ t.rank hd ≤ q.number) :
    Reconciles t head ptr threshold .done where
  revert _ h := by cases h
  processBeyond _ _ _ h := by cases h
  processWithin _ _ _ _ h := by cases h
  done _ := h

/-- Blocks processed far behind the head, in the bounds of the far regime. -/
theorem of_beyond {hd : B256} {blocks : List BlockPtr} {n : BlockNumber}
    (hhead : head = some hd)
    (hfar : ∀ q, ptr = some q → t.rank hd - q.number > threshold (t.rank hd))
    (hblocks : ∀ b ∈ blocks, blockPtrOf t b.hash = b ∧ Canonical t head b.hash ∧
      ptr.elim 0 (fun q => q.number + 1) ≤ b.number ∧
      b.number ≤ t.rank hd - threshold (t.rank hd)) :
    Reconciles t head ptr threshold (.processDescendantBlocks blocks n) where
  revert _ h := by cases h
  processBeyond _ _ hd' h hhead' _ := by
    cases h
    obtain rfl : hd = hd' := Option.some.inj (hhead.symm.trans hhead')
    exact hblocks
  processWithin _ _ hd' q _ hhead' hq hnear := by
    obtain rfl : hd = hd' := Option.some.inj (hhead.symm.trans hhead')
    exact absurd hnear (not_le.mpr (hfar q hq))
  done h := by cases h

/-- The child of the pointer on the head's line, processed within the threshold. -/
theorem of_within {hd : B256} {q c : BlockPtr} (hhead : head = some hd) (hq : ptr = some q)
    (hnear : t.rank hd - q.number ≤ threshold (t.rank hd)) (hc : Canonical t head c.hash)
    (hcp : t.parent c.hash = some q.hash) (hcc : blockPtrOf t c.hash = c) :
    Reconciles t head ptr threshold (.processDescendantBlocks [c] 1) where
  revert _ h := by cases h
  processBeyond _ _ hd' _ hhead' hfar := by
    obtain rfl : hd = hd' := Option.some.inj (hhead.symm.trans hhead')
    rw [hq] at hfar
    exact absurd hnear (not_le.mpr hfar)
  processWithin _ _ _ q' h _ hq' _ := by
    cases h
    obtain rfl : q = q' := Option.some.inj (hq.symm.trans hq')
    exact ⟨c, rfl, hc, hcp, hcc⟩
  done h := by cases h

end Reconciles

/-- **`get_next_step` reconciles** the subgraph pointer with the head's line of the block tree
the chain store and the RPC adapter answer from, with the reorg threshold clamped to the head's
number as the code clamps it. -/
theorem getNextStep_reconciles {ctx : PollingBlockStreamContext} {t : ParentForest B256}
    {head : Option B256} (ha : ctx.adapter.Answers t head)
    (hptr : ∀ q, ctx.currentBlock = some q → blockPtrOf t q.hash = q) {s : ReconciliationStep}
    (h : ctx.getNextStep = .ok s) :
    Reconciles t head ctx.currentBlock (fun n => min ctx.reorgThreshold n) s := by
  unfold PollingBlockStreamContext.getNextStep at h
  rw [ha.chainHeadPtr] at h
  cases head with
  | none =>
    -- no reconciliation without a head
    cases h
    exact .of_done (.inl rfl)
  | some hd =>
    rw [Option.map_some] at h
    dsimp only at h
    cases hcur : ctx.currentBlock with
    | none =>
      -- no pointer: the scan from genesis
      rw [hcur] at h
      rcases stepBeyondReorgThreshold_spec ha (by simp) h with rfl | ⟨blocks, n, rfl, hb⟩ |
        ⟨q, p, hq, -⟩
      · exact .retry
      · exact .of_beyond rfl (by simp) hb
      · cases hq
    | some q =>
      rw [hcur] at h
      have hq := hptr q hcur
      dsimp only at h
      split_ifs at h with hge hfar
      · cases h
        exact .of_done (.inr ⟨hd, q, rfl, rfl, hge⟩)
      · rcases stepBeyondReorgThreshold_spec ha (by simpa using hq) h with rfl |
          ⟨blocks, n, rfl, hb⟩ | ⟨q', p, hq', rfl, hoff, hp, hpp⟩
        · exact .retry
        · exact .of_beyond rfl (fun _ hq' => by cases hq'; exact hfar) hb
        · cases hq'
          exact .of_revert rfl hoff hp hpp
      · rcases stepWithinReorgThreshold_spec ha rfl hq (by simpa [blockPtrOf] using hge) h with
          rfl | ⟨c, rfl, hc, hcc, hcp⟩ | ⟨p, rfl, hoff, hp, hpp⟩
        · exact .retry
        · exact .of_within rfl rfl (not_lt.mp hfar) hc hcp hcc
        · exact .of_revert rfl hoff hp hpp

/-! ### A chain younger than the reorg threshold -/

/-- Genesis `0` and the head `5` after four null blocks; every other hash is an uncle of the
head. -/
def genesisAndHead : ParentForest B256 where
  rank h := if h = 0 then 0 else 5
  parent h := if h = 0 then none else some 0
  rank_parent_lt a p hp := by
    by_cases ha : a = 0
    · rw [if_pos ha] at hp
      cases hp
    · -- an uncle's parent is genesis
      rw [if_neg ha] at hp
      cases hp
      rw [if_pos rfl, if_neg ha]
      decide

/-- The blocks on the head's line are genesis and the head. -/
theorem canonical_genesisAndHead (h : B256) :
    Canonical genesisAndHead (some 5) h ↔ h = 0 ∨ h = 5 := by
  have hrank : genesisAndHead.rank 5 = 5 := rfl
  have hparent : genesisAndHead.parent 5 = some 0 := rfl
  constructor
  · rintro ⟨hd, hhd, hanc⟩
    cases hhd
    by_cases h0 : h = 0
    · exact .inl h0
    · -- an uncle has the head's number, so it is the head
      have hr : genesisAndHead.rank h = 5 := if_neg h0
      exact .inr (hanc.eq_of_rank_le (by rw [hr, hrank]))
  · rintro (rfl | rfl)
    · exact ⟨5, rfl, .of_parent hparent⟩
    · exact ⟨5, rfl, .refl 5⟩

/-- `parent_ptr` of the chain store. -/
def genesisAndHeadParentPtr (ptr : BlockPtr) : Option BlockPtr :=
  if ptr.hash = 0 then none else some ⟨0, 0⟩

/-- The chain store and an RPC node that finds triggers in genesis only. -/
def genesisAndHeadAdapter : TriggersAdapter where
  chainHeadPtr := some ⟨5, 5⟩
  isOnMainChain ptr := ptr.hash = 0 || ptr.hash = 5
  parentPtr := genesisAndHeadParentPtr
  ancestorBlock ptr offset root := (walkBackAncestor genesisAndHeadParentPtr ptr offset root).map
    fun b => (b, genesisAndHead.parent b.hash)
  scanTriggers fromBlock _ := if fromBlock ≤ 0 then ([⟨0, 0⟩], 0) else ([], fromBlock)

theorem genesisAndHeadAdapter_answers :
    genesisAndHeadAdapter.Answers genesisAndHead (some 5) where
  chainHeadPtr := rfl
  isOnMainChain h := by
    rw [canonical_genesisAndHead]
    simp [genesisAndHeadAdapter, blockPtrOf]
  parentPtr h := by
    show (if h = 0 then none else some ⟨0, 0⟩) =
      Option.map (blockPtrOf genesisAndHead) (if h = 0 then none else some 0)
    split_ifs <;> rfl
  ancestorBlock _ _ _ := rfl
  scanTriggers fromBlock toBlock b hb := by
    simp only [genesisAndHeadAdapter] at hb ⊢
    split_ifs at hb ⊢ with hfrom
    · obtain rfl : b = ⟨0, 0⟩ := List.mem_singleton.mp hb
      exact ⟨rfl, (canonical_genesisAndHead 0).mpr (.inl rfl), hfrom, le_refl 0⟩
    · cases hb

/-- A subgraph without a pointer, with the default settings of the stream. -/
def genesisAndHeadContext : PollingBlockStreamContext where
  adapter := genesisAndHeadAdapter
  currentBlock := none
  reorgThreshold := 250
  startBlocks := []
  previousTriggersPerBlock := 1000000.0
  previousBlockRangeSize := 1
  maxBlockRangeSize := 2000
  targetTriggersPerBlockRange := 100

/-- The reorg threshold of `getNextStep_reconciles` is the clamped one: at a head five blocks
after genesis and the default reorg threshold of 250, a subgraph without a pointer processes
genesis, which is not 250 blocks below the head. -/
theorem getNextStep_processes_genesis :
    genesisAndHeadContext.adapter.Answers genesisAndHead (some 5) ∧
      genesisAndHeadContext.getNextStep = .ok (.processDescendantBlocks [⟨0, 0⟩] 1) ∧
      ¬ Reconciles genesisAndHead (some 5) genesisAndHeadContext.currentBlock
        (fun _ => genesisAndHeadContext.reorgThreshold) (.processDescendantBlocks [⟨0, 0⟩] 1) := by
  refine ⟨genesisAndHeadAdapter_answers, rfl, fun hr => ?_⟩
  have hbound := (hr.processBeyond _ _ 5 rfl rfl trivial ⟨0, 0⟩ (List.mem_singleton_self _)).2.2.2
  have hrank : genesisAndHead.rank 5 = 5 := rfl
  rw [hrank] at hbound
  exact absurd hbound (by decide)

/-- With the clamped threshold, the same step reconciles. -/
theorem getNextStep_reconciles_genesis :
    Reconciles genesisAndHead (some 5) genesisAndHeadContext.currentBlock
      (fun n => min genesisAndHeadContext.reorgThreshold n)
      (.processDescendantBlocks [⟨0, 0⟩] 1) :=
  getNextStep_reconciles genesisAndHeadAdapter_answers (fun _ h => by cases h) rfl

end GraphNode.Ethereum
