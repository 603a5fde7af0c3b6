import GraphNode.Store.Postgres.Query
import GraphNode.Store.Postgres.BatchWrite

/-!
# The write queue and the reads that look through it

A writable store does not write a batch when the subgraph hands it over: it
queues a `Request` – a batch to write, a revert, or a stop – and a background
writer executes the requests in order. Until a request has been executed, reads
must see its effect anyway. `Queue::get`, `Queue::get_many` and
`Queue::get_derived` therefore walk the queue from the newest request to the
oldest, with a `BlockTracker` that remembers the smallest block a newer revert
goes back to and the block at which the database may be read, and only then ask
the database for what the queue does not answer.

The queue is a list of requests, oldest first; `BoundedQueue::find_map` and
`BoundedQueue::fold` walk it reversed. The maps the reads build are association
lists (what is read of a `BTreeMap` is only the value of a key and the set of
keys), and the maps they return are functions from keys. The writer executes a
request with `Request::execute`: a batch through `apply_entity_modifications`,
a revert through `revert_block_operations`; `Stop` ends it. The block pointer,
cursor and metadata of the deployment are not modelled.
-/

namespace GraphNode

/-- `Request`: an entry of the writer's queue. -/
inductive Request where
  | write (batch : Batch)
  | revertTo (blockPtr : BlockNumber)
  | stop

/-! ### What a batch says about an entity -/

namespace Batch

/-- `Batch::last_op`: what the batch leaves for `key` at `block`, from the group
of its type. -/
def lastOp (writeBatchMemoize : Bool) (batch : Batch) (key : EntityKey) (block : BlockNumber) :
    Option EntityOp :=
  (batch.mods.group key.entityType).bind (·.lastOp writeBatchMemoize key block)

/-- `Batch::effective_ops`: the operations of the group of `entityType` in effect
at `at_`. -/
def effectiveOps (batch : Batch) (entityType : EntityType) (at_ : BlockNumber) : List EntityOp :=
  match batch.mods.group entityType with
  | some group => group.effectiveOps at_
  | none => []

end Batch

/-! ### The block tracker -/

/-- `BlockTracker`: the smallest block a revert seen so far goes back to, and the
largest block the requests seen so far leave alone. The field `revert` of the
code is `revert_`, as the method `revert` has its name. -/
structure BlockTracker where
  revert_ : BlockNumber
  block : BlockNumber

namespace BlockTracker

/-- `BlockTracker::new`. -/
def new : BlockTracker := ⟨BLOCK_NUMBER_MAX, BLOCK_NUMBER_MAX⟩

/-- `BlockTracker::write`: a batch with block pointer `blockPtr` was seen. -/
def write (tracker : BlockTracker) (blockPtr : BlockNumber) : BlockTracker :=
  { tracker with block := min tracker.block (blockPtr - 1) }

/-- `BlockTracker::revert`: a revert to `blockPtr` was seen; `blockPtr` itself is
not affected by it. -/
def revert (tracker : BlockTracker) (blockPtr : BlockNumber) : BlockTracker :=
  ⟨min tracker.revert_ blockPtr, min tracker.block blockPtr⟩

/-- `BlockTracker::query_block`. -/
def queryBlock (tracker : BlockTracker) : BlockNumber := tracker.block

/-- The closure of `BlockTracker::find_map`, run over the requests from the
newest on: a batch whose first block a newer revert leaves is asked, at the
block of that revert; the first answer ends the walk. -/
def findMapFrom {R : Type} (f : Batch → BlockNumber → Option R) (tracker : BlockTracker) :
    List Request → Option R × BlockTracker
  | [] => (none, tracker)
  | .write batch :: older =>
    let tracker := tracker.write batch.blockPtr
    if batch.firstBlock ≤ tracker.revert_ then
      match f batch tracker.revert_ with
      | some res => (some res, tracker)
      | none => findMapFrom f tracker older
    else findMapFrom f tracker older
  | .revertTo blockPtr :: older => findMapFrom f (tracker.revert blockPtr) older
  | .stop :: older => findMapFrom f tracker older

/-- `BlockTracker::find_map`: the first answer of `f`, from the newest request
to the oldest, and the block to query the database at. -/
def findMap {R : Type} (queue : List Request) (f : Batch → BlockNumber → Option R) :
    Option R × BlockNumber :=
  let (res, tracker) := findMapFrom f new queue.reverse
  (res, tracker.queryBlock)

/-- The closure of `BlockTracker::fold`, run over the requests from the newest
on. -/
def foldFrom {B : Type} (f : B → Batch → BlockNumber → B) :
    B × BlockTracker → List Request → B × BlockTracker
  | acc, [] => acc
  | (accum, tracker), .write batch :: older =>
    let tracker := tracker.write batch.blockPtr
    let accum := if batch.firstBlock ≤ tracker.revert_ then f accum batch tracker.revert_ else accum
    foldFrom f (accum, tracker) older
  | (accum, tracker), .revertTo blockPtr :: older =>
    foldFrom f (accum, tracker.revert blockPtr) older
  | acc, .stop :: older => foldFrom f acc older

/-- `BlockTracker::fold`: `f` over the batches a newer revert leaves, from the
newest to the oldest, and the block to query the database at. -/
def fold {B : Type} (queue : List Request) (init : B) (f : B → Batch → BlockNumber → B) :
    B × BlockNumber :=
  let (accum, tracker) := foldFrom f (init, new) queue.reverse
  (accum, tracker.queryBlock)

end BlockTracker

/-! ### Reads through the queue -/

namespace Queue

variable (writeBatchMemoize : Bool)

/-- `Queue::get`: the newest answer of a queued batch, or else the database at
the query block. -/
def get (queue : List Request) (db : Layout.Db) (key : EntityKey) : Option Entity :=
  match BlockTracker.findMap queue (fun batch at_ => batch.lastOp writeBatchMemoize key at_) with
  | (some (.write _ entity), _) => some entity
  | (some (.remove _), _) => none
  | (none, queryBlock) => Layout.find db key queryBlock

/-- The closure of `Queue::get_many`'s fold: for each key without an entry yet,
the operation the batch leaves for it. -/
def getManyStep (keys : List EntityKey) (map : List (EntityKey × Option Entity)) (batch : Batch)
    (at_ : BlockNumber) : List (EntityKey × Option Entity) :=
  keys.foldl (fun map key =>
    if (map.lookup key).isSome then map
    else
      match batch.lastOp writeBatchMemoize key at_ with
      | some (.write _ entity) => map ++ [(key, some entity)]
      | some (.remove _) => map ++ [(key, none)]
      | none => map) map

/-- `Queue::get_many`: the entries the queue has, and the database at the query
block for the other keys. -/
def getMany (queue : List Request) (db : Layout.Db) (keys : List EntityKey) :
    EntityKey → Option Entity :=
  let (entitiesInQueue, queryBlock) :=
    BlockTracker.fold queue [] (getManyStep writeBatchMemoize keys)
  let fromStore :=
    Layout.findMany db (keys.filter fun key => (entitiesInQueue.lookup key).isNone) queryBlock
  fun key =>
    match entitiesInQueue.lookup key with
    | some (some entity) => some entity
    | _ => fromStore key

/-- The `effective_ops` of `Queue::get_derived`: the writes of related entities,
and the removes. -/
def derivedOps (q : DerivedEntityQuery) (batch : Batch) (at_ : BlockNumber) :
    List (EntityKey × Option Entity) :=
  (batch.effectiveOps q.entityType at_).filterMap fun
    | .write key entity => if q.isRelated entity then some (key, some entity) else none
    | .remove key => some (key, none)

/-- `map.entry(k).or_insert(v)`. -/
def orInsert (map : List (EntityKey × Option Entity)) (kv : EntityKey × Option Entity) :
    List (EntityKey × Option Entity) :=
  if (map.lookup kv.1).isSome then map else map ++ [kv]

/-- `Queue::get_derived`: the related entities of the queue, and those of the
database at the query block, leaving out the keys the queue has an entry for. -/
def getDerived (queue : List Request) (db : Layout.Db) (q : DerivedEntityQuery) :
    EntityKey → Option Entity :=
  let (entitiesInQueue, queryBlock) :=
    BlockTracker.fold queue [] fun map batch at_ => (derivedOps q batch at_).foldl orInsert map
  let itemsFromDatabase := Layout.findDerived db q queryBlock (entitiesInQueue.map (·.1))
  fun key =>
    match entitiesInQueue.lookup key with
    | some (some entity) => some entity
    | _ => itemsFromDatabase key

end Queue

/-! ### Executing the queue -/

/-- `ExecResult`: whether the writer goes on after a request. -/
inductive ExecResult where
  | continue
  | stop

/-- `Request::execute`: write a batch (unless appending to it failed), revert, or
stop. `chunkSize` is the insert chunk size of the table of each type. -/
def Request.execute (chunkSize : EntityType → Nat) (db : Layout.Db) :
    Request → Except StoreError (ExecResult × Layout.Db)
  | .write batch =>
    match batch.error with
    | some err => .error err
    | none =>
      match Layout.applyEntityModifications chunkSize batch.mods.groups db with
      | .error e => .error e
      | .ok (_, db) => .ok (.continue, db)
  | .revertTo blockPtr => .ok (.continue, Layout.revertBlockOperations blockPtr db)
  | .stop => .ok (.stop, db)

/-- The background writer: execute the requests in order, oldest first, until a
stop or an error. -/
def processQueue (chunkSize : EntityType → Nat) :
    List Request → Layout.Db → Except StoreError Layout.Db
  | [], db => .ok db
  | request :: rest, db =>
    match request.execute chunkSize db with
    | .error e => .error e
    | .ok (.stop, db) => .ok db
    | .ok (.continue, db) => processQueue chunkSize rest db

/-! ### Reads against the queue's outcome -/

/-- **`Queue::get` answers for a key of another causality region.** With
memoization on, a queued batch that inserted the entity `a` in the causality
region `1` makes `get` of `a` in the onchain region return that entity, whether or
not the batch has been written yet; written, the database holds no onchain `a`,
and without memoization the queue answers nothing either. -/
theorem get_other_region :
    ∃ (k₀ k₁ : EntityKey) (batch : Batch) (db' : Layout.Db),
      k₀.entityType = k₁.entityType ∧ k₀.entityId = k₁.entityId ∧ k₀ ≠ k₁ ∧
      Batch.new true 3 [.insert k₁ .empty 3 none] = .ok batch ∧
      processQueue (fun _ => 1) [.write batch] (fun _ => []) = .ok db' ∧
      Layout.find db' k₀ BLOCK_NUMBER_MAX = none ∧
      Queue.get false [.write batch] (fun _ => []) k₀ = none ∧
      Queue.get true [.write batch] (fun _ => []) k₀ = some .empty ∧
      Queue.get true [.write batch] db' k₀ = some .empty := by
  let t : EntityType := ⟨"Thing", false, false⟩
  let k₀ : EntityKey := ⟨t, .string "a", .ONCHAIN⟩
  let k₁ : EntityKey := ⟨t, .string "a", ⟨1⟩⟩
  let batch : Batch := ⟨3, 3, ⟨[⟨t, [.insert k₁ .empty 3 none],
    ⟨Function.update (fun _ => none) (.string "a") (some 0)⟩⟩]⟩, none⟩
  have hnew : Batch.new true 3 [.insert k₁ .empty 3 none] = .ok batch := by
    simp only [Batch.new, Batch.sortMods, List.mergeSort_singleton]
    rfl
  exact ⟨k₀, k₁, batch, _, rfl, rfl, by decide, hnew, rfl, rfl, rfl, rfl, rfl⟩

/-- **`Queue::get_derived` returns an entity a queued batch took out of the
relation.** The database holds `a` with `owner = "o"` since block 1; a queued
batch overwrites it at block 2 with `owner = "p"`. The queue drops that write as
unrelated without excluding `a`, so the database's version at the query block 1
is returned for `owner = "o"` – before the batch is written and after – though
once the queue is processed `a` has `owner = "p"`. Independently, once two distinct
ids are excluded, the exclusion `id != any(..)` holds of every id. -/
theorem getDerived_stale :
    (∃ (a : EntityKey) (eOld eNew : Entity) (q : DerivedEntityQuery) (batch : Batch)
      (db db' : Layout.Db),
      a.entityType = q.entityType ∧ a.causalityRegion = q.causalityRegion ∧
      q.isRelated eOld = true ∧ q.isRelated eNew = false ∧
      Layout.find db a BLOCK_NUMBER_MAX = some eOld ∧
      Batch.new true 2 [.overwrite a eNew 2 none] = .ok batch ∧
      processQueue (fun _ => 1) [.write batch] db = .ok db' ∧
      Layout.find db' a BLOCK_NUMBER_MAX = some eNew ∧
      Queue.getDerived [.write batch] db q a = some eOld ∧
      Queue.getDerived [.write batch] db' q a = some eOld) ∧
    ∀ (excluded : List Id) (a b : Id), a ≠ b → a ∈ excluded → b ∈ excluded →
      ∀ x, Layout.neAny x excluded = true := by
  let t : EntityType := ⟨"Thing", false, false⟩
  let a : EntityKey := ⟨t, .string "a", .ONCHAIN⟩
  let eOld := Entity.empty.insert "owner" (.string "o")
  let eNew := Entity.empty.insert "owner" (.string "p")
  let q : DerivedEntityQuery := ⟨t, "owner", .string "o", .ONCHAIN⟩
  let G : RowGroup := ⟨t, [.overwrite a eNew 2 none],
    ⟨Function.update (fun _ => none) (.string "a") (some 0)⟩⟩
  let batch : Batch := ⟨2, 2, ⟨[G]⟩, none⟩
  let db : Layout.Db := Function.update (fun _ => []) t [⟨.string "a", eOld, .ONCHAIN, 1, none⟩]
  have hnew : Batch.new true 2 [.overwrite a eNew 2 none] = .ok batch := by
    simp only [Batch.new, Batch.sortMods, List.mergeSort_singleton]
    rfl
  -- the batch clamps the old version at 2 and inserts the new one
  have hone : batch.mods.OneGroup t G := ⟨rfl, .inl rfl⟩
  have herr : batch.error = none := rfl
  have happly : Layout.applyEntityModifications (fun _ => 1) batch.mods.groups db =
      .ok (G.entityCountChange, Function.update db t (writeGroup G (db t))) :=
    applyEntityModifications_oneGroup rfl Nat.one_pos hone db
  have hwrite : processQueue (fun _ => 1) [.write batch] db =
      .ok (Function.update db t (writeGroup G (db t))) := by
    simp only [processQueue, Request.execute, herr, happly]
  exact ⟨⟨a, eOld, eNew, q, batch, db, _, rfl, rfl, rfl, rfl, rfl, hnew, hwrite, rfl, rfl, rfl⟩,
    fun _ _ _ hab ha hb => Layout.neAny_of_two hab ha hb⟩

end GraphNode
