import GraphNode.Chain.Ethereum.Adapter

/-!
# The order of a block's triggers

The triggers of a block are handed to the mappings in the order of `Ord for EthereumTrigger`:
the `Start` block trigger first, then the logs and calls of the block's transactions, then the
other block triggers. `Trigger<C>` wraps them with the triggers of subgraph data sources, which
come last, ordered by their data source and version id. `BlockWithTriggers::new` sorts the
triggers with Rust's stable `sort` and removes duplicates with `dedup`, which drops an element
equal (`PartialEq`) to the one it keeps before it.

**The comparison is not an order.** Its first arm answers `Less` for a `Start` trigger against
any trigger, itself included, so a `Start` trigger is less than itself
(`start_lt_self`). And it answers `Equal` for any two block triggers other than `Start`,
whether they are equal or not, so the stable sort keeps the block triggers in the order they
came in, and `dedup` only drops a duplicate that stands next to its copy. A block with calls to
`a`, `b` and `a` again, each of them matching a block handler's call filter, gets the block
trigger with a call to `a` twice (`newWithTriggers_keeps_duplicate`).

The fields of a call, a log and a subgraph trigger are those the two comparisons read. The
comparison unwraps a log's transaction index, which every log of a block has, so it is a number
here. Rust's stable sort is `List.mergeSort`: on triggers whose comparisons are consistent,
every stable sort returns the same list.
-/

namespace GraphNode.Ethereum

/-- `BlockPtr`: the hash and number of a block. -/
structure BlockPtr where
  hash : B256
  number : Int
  deriving DecidableEq, Repr

/-- `EthereumBlockTriggerType`. -/
inductive EthereumBlockTriggerType where
  | start
  | «end»
  | withCallTo (address : Address)
  deriving DecidableEq, Repr

/-- `EthereumCall`, a call found in the traces of a block. -/
structure EthereumCall where
  «from» : Address
  «to» : Address
  value : Nat
  gasUsed : Nat
  input : List UInt8
  output : List UInt8
  blockNumber : Int
  blockHash : B256
  transactionHash : Option B256
  transactionIndex : Nat
  deriving DecidableEq, Repr

/-- The fields of the `Log` of a `LogRef` that the comparisons read. -/
structure LogRef where
  transactionHash : Option B256
  transactionIndex : Nat
  logIndex : Option Nat
  deriving DecidableEq, Repr

/-- `EthereumTrigger`. -/
inductive EthereumTrigger where
  | block (ptr : BlockPtr) (kind : EthereumBlockTriggerType)
  | call (call : EthereumCall)
  | log (log : LogRef)
  deriving Repr

namespace EthereumTrigger

/-- `PartialEq for EthereumTrigger`: a log is known by its transaction and log index. -/
def eq : EthereumTrigger → EthereumTrigger → Bool
  | block aPtr aKind, block bPtr bKind => aPtr == bPtr && aKind == bKind
  | call a, call b => a == b
  | log a, log b => a.transactionHash == b.transactionHash && a.logIndex == b.logIndex
  | _, _ => false

/-- `Ord for EthereumTrigger`, arm by arm. -/
def cmp : EthereumTrigger → EthereumTrigger → Ordering
  -- Block triggers with `EthereumBlockTriggerType::Start` always come first
  | block _ .start, _ => .lt
  | _, block _ .start => .gt
  -- Keep the order when comparing two block triggers
  | block .., block .. => .eq
  -- Block triggers with `EthereumBlockTriggerType::End` always come last
  | block .., _ => .gt
  | _, block .. => .lt
  -- Calls are ordered by their tx indexes
  | call a, call b => compare a.transactionIndex b.transactionIndex
  -- Events are ordered by their log index
  | log a, log b => compare a.logIndex b.logIndex
  -- Calls vs. events are logged by their tx index; if they are from the same transaction,
  -- events come first
  | call a, log b =>
    if a.transactionIndex = b.transactionIndex then .gt
    else compare a.transactionIndex b.transactionIndex
  | log a, call b =>
    if a.transactionIndex = b.transactionIndex then .lt
    else compare a.transactionIndex b.transactionIndex

instance : BEq EthereumTrigger := ⟨eq⟩

instance : Ord EthereumTrigger := ⟨cmp⟩

@[simp] theorem beq_eq (a b : EthereumTrigger) : (a == b) = a.eq b := rfl

@[simp] theorem compare_eq (a b : EthereumTrigger) : compare a b = a.cmp b := rfl

end EthereumTrigger

/-- The fields of `subgraph::TriggerData` that its order reads, and its data source. -/
structure SubgraphTriggerData where
  source : String
  vid : Int
  sourceIdx : Nat
  deriving DecidableEq, Repr

/-- `Ord for subgraph::TriggerData`: by data source, then by version id. -/
def SubgraphTriggerData.cmp (a b : SubgraphTriggerData) : Ordering :=
  match compare a.sourceIdx b.sourceIdx with
  | .eq => compare a.vid b.vid
  | ord => ord

/-- `Trigger<C>`: a trigger of the chain, or of a subgraph data source. -/
inductive Trigger (α : Type) where
  | chain (data : α)
  | subgraph (data : SubgraphTriggerData)
  deriving Repr

namespace Trigger

variable {α : Type}

/-- `PartialEq for Trigger<C>`. -/
def eq [BEq α] : Trigger α → Trigger α → Bool
  | chain data1, chain data2 => data1 == data2
  | subgraph a, subgraph b => a == b
  | _, _ => false

/-- `Ord for Trigger<C>`: the chain's triggers first. -/
def cmp [Ord α] : Trigger α → Trigger α → Ordering
  | chain data1, chain data2 => compare data1 data2
  | subgraph _, chain _ => .gt
  | chain _, subgraph _ => .lt
  | subgraph t1, subgraph t2 => t1.cmp t2

instance [BEq α] : BEq (Trigger α) := ⟨eq⟩

instance [Ord α] : Ord (Trigger α) := ⟨cmp⟩

@[simp] theorem beq_eq [BEq α] (a b : Trigger α) : (a == b) = a.eq b := rfl

@[simp] theorem compare_eq [Ord α] (a b : Trigger α) : compare a b = a.cmp b := rfl

end Trigger

/-- The triggers of `BlockWithTriggers::new_with_triggers`: sorted by the stable `sort`, which
moves an element before one it is `is_less` than, then `dedup`, which drops an element equal to
the one kept before it. -/
def newWithTriggers {α : Type} [BEq α] [Ord α] (triggerData : List (Trigger α)) :
    List (Trigger α) :=
  (triggerData.mergeSort fun a b => compare b a != .lt).destutter fun kept next =>
    (next == kept) = false

/-! ### The laws the comparison keeps and those it breaks -/

namespace EthereumTrigger

/-- Whether a trigger is a `Start` block trigger. -/
def IsStart : EthereumTrigger → Prop
  | block _ .start => True
  | _ => False

theorem eq_self (t : EthereumTrigger) : t.eq t = true := by
  cases t <;> simp [eq]

/-- **The comparison is antisymmetric except between two `Start` triggers.** -/
theorem cmp_swap {a b : EthereumTrigger} (h : ¬(a.IsStart ∧ b.IsStart)) :
    b.cmp a = (a.cmp b).swap := by
  -- split on the shapes of both triggers, then on the kinds of block triggers
  cases a with
  | block _ aKind =>
    cases b with
    | block _ bKind => cases aKind <;> cases bKind <;> simp_all [cmp, IsStart]
    | call | log => cases aKind <;> rfl
  | call a =>
    cases b with
    | block _ bKind => cases bKind <;> rfl
    | call b => exact (Nat.compare_swap a.transactionIndex b.transactionIndex).symm
    | log b =>
      by_cases hab : a.transactionIndex = b.transactionIndex
      · simp [cmp, hab]
      · simp [cmp, hab, Ne.symm hab, Nat.compare_swap]
  | log a =>
    cases b with
    | block _ bKind => cases bKind <;> rfl
    | call b =>
      by_cases hab : a.transactionIndex = b.transactionIndex
      · simp [cmp, hab]
      · simp [cmp, hab, Ne.symm hab, Nat.compare_swap]
    | log b => exact Std.OrientedOrd.eq_swap

/-- A `Start` trigger is less than every `Start` trigger, itself included. -/
theorem cmp_start (p q : BlockPtr) : (block p .start).cmp (block q .start) = .lt := rfl

end EthereumTrigger

/-- Two block triggers that are not `Start` compare `Equal`, whatever their kinds. -/
theorem cmp_chain_block {p q : BlockPtr} {k l : EthereumBlockTriggerType} (hk : k ≠ .start)
    (hl : l ≠ .start) :
    compare (Trigger.chain (EthereumTrigger.block p k)) (Trigger.chain (.block q l)) = .eq := by
  cases k <;> cases l <;> simp_all [Trigger.cmp, EthereumTrigger.cmp]

/-- **A duplicate that does not stand next to its copy survives.** Block triggers for calls to
`a`, to `b ≠ a` and to `a` again, in the order of the block's calls, come out as they came in:
all three compare `Equal`, so the stable sort leaves them, and `dedup` compares neighbours
only. -/
theorem newWithTriggers_keeps_duplicate (ptr : BlockPtr) {a b : Address} (hab : a ≠ b) :
    let callTo := fun address => Trigger.chain (EthereumTrigger.block ptr (.withCallTo address))
    newWithTriggers [callTo a, callTo b, callTo a] = [callTo a, callTo b, callTo a] := by
  intro callTo
  have hsorted : [callTo a, callTo b, callTo a].Pairwise fun x y => compare y x != .lt := by
    simp [callTo, Trigger.cmp, EthereumTrigger.cmp]
  rw [newWithTriggers, List.mergeSort_of_pairwise hsorted]
  simp [List.destutter, List.destutter', callTo, Trigger.eq, EthereumTrigger.eq, hab,
    Ne.symm hab]

/-- **`Ord for EthereumTrigger` is not an order, and `BlockWithTriggers::new` can keep a
duplicate.** A `Start` block trigger is equal to itself and yet less than itself, alone and
wrapped in `Trigger<C>`. Block triggers for calls to two addresses compare `Equal` without
being equal, and the triggers for calls to `a`, `b` and `a` again keep both triggers for `a`
through the sort and `dedup`. Between any two triggers but two `Start` triggers the comparison
is antisymmetric. -/
theorem trigger_cmp_inconsistent :
    (∀ ptr : BlockPtr, let start := EthereumTrigger.block ptr .start
      (start == start) = true ∧ compare start start = .lt ∧
      (Trigger.chain start == Trigger.chain start) = true ∧
      compare (Trigger.chain start) (Trigger.chain start) = .lt) ∧
    (∀ (ptr : BlockPtr) (a b : Address), a ≠ b →
      let callTo := fun address => Trigger.chain (EthereumTrigger.block ptr (.withCallTo address))
      compare (callTo a) (callTo b) = .eq ∧ (callTo a == callTo b) = false ∧
      newWithTriggers [callTo a, callTo b, callTo a] = [callTo a, callTo b, callTo a]) ∧
    ∀ a b : EthereumTrigger, ¬(a.IsStart ∧ b.IsStart) → compare b a = (compare a b).swap := by
  refine ⟨fun ptr => ?_, fun ptr a b hab => ?_, fun a b h => EthereumTrigger.cmp_swap h⟩
  · have hself := EthereumTrigger.eq_self (.block ptr .start)
    exact ⟨hself, EthereumTrigger.cmp_start ptr ptr, hself, EthereumTrigger.cmp_start ptr ptr⟩
  · refine ⟨cmp_chain_block (by simp) (by simp), ?_, newWithTriggers_keeps_duplicate ptr hab⟩
    simp [Trigger.eq, EthereumTrigger.eq, hab]

/-- The block triggers for calls to the addresses `1`, `2` and `1` of a block. -/
theorem trigger_cmp_inconsistent_calls_to_one_two_one :
    let ptr : BlockPtr := ⟨0, 1⟩
    let callTo := fun address => Trigger.chain (EthereumTrigger.block ptr (.withCallTo address))
    (1 : Address) ≠ 2 ∧ compare (callTo 1) (callTo 2) = .eq ∧ (callTo 1 == callTo 2) = false ∧
      newWithTriggers [callTo 1, callTo 2, callTo 1] = [callTo 1, callTo 2, callTo 1] :=
  ⟨by decide, trigger_cmp_inconsistent.2.1 ⟨0, 1⟩ 1 2 (by decide)⟩

end GraphNode.Ethereum
