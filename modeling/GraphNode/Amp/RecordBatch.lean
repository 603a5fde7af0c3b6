import GraphNode.Lib.List

/-!
# Record batches grouped by block

The aggregator of an `amp` stream groups the rows of the record batches it reads by their
block pointer, a pair of a block number and a block hash, in a `BTreeMap` (`Aggregator`).
It hands the groups over once they are complete: a group is complete when a group of a
later block follows it, or when the stream has ended. `Buffer` holds one aggregator per
stream. It completes the groups of all streams at once, up to the least block that every
stream has completed (`Buffer.maxCompletedBlockPtr`), so that the groups come out in block
order across the streams.

A row is modelled with the two columns the aggregator decodes (`Decoder::block_number` and
`Decoder::block_hash`, `None` where a column is null) and an opaque payload; a record batch
is the list of its rows. A group keeps one part per record batch it has rows of, with their
row indices. A batch is known by a serial number, which stands for the identity of its
`Arc`: the weak references that count the batches an aggregator holds compare by it.
-/

namespace GraphNode.Amp

/-- `alloy::primitives::BlockNumber`. -/
abbrev BlockNumber := Nat

/-- `alloy::primitives::BlockHash`. -/
abbrev BlockHash := Nat

/-- The `(BlockNumber, BlockHash)` key of a group. -/
structure BlockPtr where
  number : BlockNumber
  hash : BlockHash
  deriving DecidableEq, Repr

/-- The key as a pair, for the lexicographic order of the tuple. -/
def BlockPtr.lex (ptr : BlockPtr) : BlockNumber ×ₗ BlockHash := toLex (ptr.number, ptr.hash)

theorem BlockPtr.lex_injective : Function.Injective BlockPtr.lex := by
  rintro ⟨a, b⟩ ⟨c, d⟩ h
  simp only [BlockPtr.lex, toLex_inj, Prod.mk.injEq] at h
  rw [h.1, h.2]

instance : LinearOrder BlockPtr := LinearOrder.lift' BlockPtr.lex BlockPtr.lex_injective

/-- A row of a record batch, with the columns the aggregator reads. -/
structure Row where
  blockNumber : Option BlockNumber
  blockHash : Option BlockHash
  data : Nat
  deriving DecidableEq, Repr

/-- `arrow::array::RecordBatch`, as its rows. -/
abbrev RecordBatch := List Row

/-! ### Groups -/

/-- `Part`: rows of one record batch in a group. -/
structure Part where
  recordBatch : RecordBatch
  serial : Nat
  rowIndices : List Nat
  deriving DecidableEq, Repr

/-- `GroupData`: the rows of one group, batch by batch. -/
abbrev GroupData := List Part

namespace GroupData

/-- `GroupData::new`. -/
def new (recordBatch : RecordBatch) (serial rowIndex : Nat) : GroupData :=
  [⟨recordBatch, serial, [rowIndex]⟩]

/-- `GroupData::add`: a part for a record batch the group has no rows of yet. -/
def add (self : GroupData) (recordBatch : RecordBatch) (serial rowIndex : Nat) : GroupData :=
  self ++ [⟨recordBatch, serial, [rowIndex]⟩]

/-- `GroupData::add_row_index`: a row of the most recent record batch of the group. -/
def addRowIndex (rowIndex : Nat) : GroupData → GroupData
  | [] => []
  | [part] => [{ part with rowIndices := part.rowIndices ++ [rowIndex] }]
  | part :: parts => part :: addRowIndex rowIndex parts

/-- `GroupData::into_record_batch`: the rows of the parts, `take_record_batch` of each
concatenated. -/
def intoRecordBatch (self : GroupData) : RecordBatch :=
  self.flatMap fun part => part.rowIndices.filterMap (part.recordBatch[·]?)

/-- Whether the group holds a part of the record batch with this serial number. -/
def holds (self : GroupData) (serial : Nat) : Bool := self.any (·.serial == serial)

end GroupData

/-! ### The aggregator of one stream -/

/-- The errors of the aggregators, with the data their messages print. -/
inductive AggregatorError where
  /-- "invalid group data at row {row_index}": "block number is empty" -/
  | blockNumberEmpty (rowIndex : Nat)
  /-- "invalid group data at row {row_index}": "block hash is empty" -/
  | blockHashEmpty (rowIndex : Nat)
  /-- "invalid group data at row {row_index}": "received block number {block_number} after
  {max_block_number}" -/
  | blockNumberDecreased (rowIndex : Nat) (blockNumber maxBlockNumber : BlockNumber)
  /-- "invalid group data at row {row_index}": "received block hash '0x{}' after '0x{}' for
  block number {block_number}" -/
  | blockHashChanged (rowIndex : Nat) (blockHash maxBlockHash : BlockHash)
      (blockNumber : BlockNumber)
  /-- "aggregated data is corrupted: stream {} produced block hash '0x{}' for block {}, but
  a previous stream set the block hash to '0x{}'" -/
  | corrupted (streamIndex : Nat) (blockHash : BlockHash) (blockNumber : BlockNumber)
      (previousBlockHash : BlockHash)
  deriving DecidableEq, Repr

/-- `Decoder::block_number` and `Decoder::block_hash` of a row: the key of its group. -/
def Decoder.blockPtr (row : Row) (rowIndex : Nat) : Except AggregatorError BlockPtr :=
  match row.blockNumber, row.blockHash with
  | none, _ => .error (.blockNumberEmpty rowIndex)
  | some _, none => .error (.blockHashEmpty rowIndex)
  | some blockNumber, some blockHash => .ok ⟨blockNumber, blockHash⟩

/-- `Aggregator`: the groups of one stream by block pointer. -/
structure Aggregator where
  buffer : List (BlockPtr × GroupData)
  /-- `buffered_record_batches`, the weak references, by serial number. -/
  bufferedRecordBatches : List Nat
  isFinalized : Bool
  /-- The serial number of the next record batch. -/
  nextSerial : Nat

namespace Aggregator

/-- `Aggregator::new`. -/
def new : Aggregator := ⟨[], [], false, 0⟩

/-- `Aggregator::ensure_incremental_update`: the row's block is at least the last block of
the buffer, with the same hash if it is the same number. -/
def ensureIncrementalUpdate (self : Aggregator) (rowIndex : Nat) (ptr : BlockPtr) :
    Except AggregatorError Unit :=
  match self.buffer.getLast? with
  | none => .ok ()
  | some (max, _) =>
    if ptr.number < max.number then
      .error (.blockNumberDecreased rowIndex ptr.number max.number)
    else if ptr.number = max.number ∧ ptr.hash ≠ max.hash then
      .error (.blockHashChanged rowIndex ptr.hash max.hash ptr.number)
    else .ok ()

/-- One turn of the loop over the rows in `Aggregator::extend`: the row joins its group.
`buffered` is `record_batch_buffered`, the groups the batch already has a part in. -/
def extendRow (recordBatch : RecordBatch) (serial : Nat) (acc : Aggregator × List BlockPtr)
    (row : Row × Nat) : Except AggregatorError (Aggregator × List BlockPtr) := do
  let (self, buffered) := acc
  let rowIndex := row.2
  let ptr ← Decoder.blockPtr row.1 rowIndex
  self.ensureIncrementalUpdate rowIndex ptr
  let group : Option GroupData → GroupData := fun
    | none => GroupData.new recordBatch serial rowIndex
    | some g => if buffered.contains ptr then g.addRowIndex rowIndex
      else g.add recordBatch serial rowIndex
  pure ({ self with buffer := OrdMap.alter ptr group self.buffer }, ptr :: buffered)

/-- `Aggregator::extend`. -/
def extend (self : Aggregator) (recordBatch : RecordBatch) : Except AggregatorError Aggregator :=
  do
  let serial := self.nextSerial
  let self := { self with
    bufferedRecordBatches := self.bufferedRecordBatches ++ [serial], nextSerial := serial + 1 }
  let (self, _) ← recordBatch.zipIdx.foldlM (extendRow recordBatch serial) (self, [])
  pure self

/-- `Aggregator::max_completed_block_ptr`: the last key if the stream has ended, and the
one before it otherwise. -/
def maxCompletedBlockPtr (self : Aggregator) : Option BlockPtr :=
  let keys := (self.buffer.map (·.1)).reverse
  if self.isFinalized then keys.head? else keys[1]?

/-- `Aggregator::has_completed_groups`. -/
def hasCompletedGroups (self : Aggregator) : Bool :=
  (self.isFinalized && !self.buffer.isEmpty) || self.buffer.length > 1

/-- Whether a group still holds the record batch with this serial number: whether its weak
reference is alive. -/
def holds (self : Aggregator) (serial : Nat) : Bool := self.buffer.any (·.2.holds serial)

/-- `Aggregator::len`: the record batches still held. -/
def len (self : Aggregator) : Nat := (self.bufferedRecordBatches.filter self.holds).length

/-- `Aggregator::completed_groups`: removes the groups up to `maxBlockPtr` and returns them
as record batches. -/
def completedGroups (self : Aggregator) (maxBlockPtr : BlockPtr) :
    Option (List (BlockPtr × RecordBatch)) × Aggregator :=
  if self.buffer.isEmpty then (none, self)
  else match self.maxCompletedBlockPtr with
  | none => (none, self)
  | some _ =>
    let (completed, incomplete) := OrdMap.splitOff maxBlockPtr self.buffer
    -- the group at `maxBlockPtr` itself is completed too
    let (completed, incomplete) := match incomplete with
      | (ptr, group) :: rest =>
        if ptr = maxBlockPtr then (completed ++ [(ptr, group)], rest) else (completed, incomplete)
      | [] => (completed, [])
    let self := { self with buffer := incomplete }
    if completed.isEmpty then (none, self)
    else
      (some (completed.map fun (ptr, group) => (ptr, group.intoRecordBatch)),
        { self with bufferedRecordBatches := self.bufferedRecordBatches.filter self.holds })

/-- `Aggregator::finalize`. -/
def finalize (self : Aggregator) : Aggregator := { self with isFinalized := true }

end Aggregator

/-! ### The buffer of all streams -/

/-- `StreamRecordBatch`: a record batch and the index of its stream. -/
structure StreamRecordBatch where
  streamIndex : Nat
  recordBatch : RecordBatch
  deriving DecidableEq, Repr

/-- `RecordBatchGroups`: for each block pointer, the `record_batches` of its
`RecordBatchGroup`. -/
abbrev RecordBatchGroups := List (BlockPtr × List StreamRecordBatch)

/-- `Buffer`: an aggregator per stream. -/
structure Buffer where
  aggregators : List Aggregator
  numStreams : Nat
  bufferSize : Nat

namespace Buffer

/-- `Buffer::new`. -/
def new (numStreams bufferSize : Nat) : Buffer :=
  ⟨List.replicate numStreams Aggregator.new, numStreams, bufferSize⟩

/-- The aggregator of a stream (`self.aggregators[stream_index]`, which the callers only
index below `num_streams`). -/
def aggregator (self : Buffer) (streamIndex : Nat) : Aggregator :=
  self.aggregators.getD streamIndex Aggregator.new

/-- `Buffer::extend`. -/
def extend (self : Buffer) (streamIndex : Nat) (recordBatch : RecordBatch) :
    Except AggregatorError Buffer := do
  let aggregator ← (self.aggregator streamIndex).extend recordBatch
  pure { self with aggregators := self.aggregators.set streamIndex aggregator }

/-- `Buffer::finalize`. -/
def finalize (self : Buffer) (streamIndex : Nat) : Buffer :=
  { self with
    aggregators := self.aggregators.set streamIndex (self.aggregator streamIndex).finalize }

/-- `Buffer::is_finalized`. -/
def isFinalized (self : Buffer) (streamIndex : Nat) : Bool :=
  (self.aggregator streamIndex).isFinalized

/-- `Buffer::all_finalized`. -/
def allFinalized (self : Buffer) : Bool := self.aggregators.all (·.isFinalized)

/-- `Buffer::has_capacity`. -/
def hasCapacity (self : Buffer) (streamIndex : Nat) : Bool :=
  (self.aggregator streamIndex).len < self.bufferSize

/-- `Buffer::is_blocked`. -/
def isBlocked (self : Buffer) (streamIndex : Nat) : Bool :=
  !self.hasCapacity streamIndex && !self.isFinalized streamIndex &&
    !(self.aggregator streamIndex).hasCompletedGroups

/-- The loop of `Buffer::max_completed_block_ptr` from stream `streamIndex` on, with the
`BTreeMap` of the maxima found so far, by block number; `none` is the early `Ok(None)` of a
stream that has not ended and has no completed group. -/
def collectMaxCompleted (streamIndex : Nat) (ptrs : List (BlockNumber × BlockHash)) :
    List Aggregator → Except AggregatorError (Option (List (BlockNumber × BlockHash)))
  | [] => .ok (some ptrs)
  | agg :: aggs =>
    match agg.maxCompletedBlockPtr with
    | none =>
      if agg.isFinalized then collectMaxCompleted (streamIndex + 1) ptrs aggs else .ok none
    | some ptr =>
      match OrdMap.lookup ptr.number ptrs with
      | none =>
        collectMaxCompleted (streamIndex + 1) (OrdMap.alter ptr.number (fun _ => ptr.hash) ptrs)
          aggs
      | some hash =>
        if hash ≠ ptr.hash then .error (.corrupted streamIndex ptr.hash ptr.number hash)
        else collectMaxCompleted (streamIndex + 1) ptrs aggs

/-- `Buffer::max_completed_block_ptr`: the least of the streams' greatest completed blocks. -/
def maxCompletedBlockPtr (self : Buffer) : Except AggregatorError (Option BlockPtr) := do
  let some ptrs ← collectMaxCompleted 0 [] self.aggregators | pure none
  pure (ptrs.head?.map fun (number, hash) => ⟨number, hash⟩)

/-- The loop of `Buffer::completed_groups` from stream `streamIndex` on: each aggregator's
completed groups join the groups by block pointer. -/
def collectCompleted (maxBlockPtr : BlockPtr) (streamIndex : Nat) (groups : RecordBatchGroups) :
    List Aggregator → RecordBatchGroups × List Aggregator
  | [] => (groups, [])
  | agg :: aggs =>
    let (completed, agg) := agg.completedGroups maxBlockPtr
    let groups := (completed.getD []).foldl (fun groups (ptr, recordBatch) =>
      OrdMap.alter ptr (fun group => group.getD [] ++ [⟨streamIndex, recordBatch⟩]) groups) groups
    let (groups, aggs) := collectCompleted maxBlockPtr (streamIndex + 1) groups aggs
    (groups, agg :: aggs)

/-- `Buffer::completed_groups`. -/
def completedGroups (self : Buffer) :
    Except AggregatorError (Option RecordBatchGroups × Buffer) := do
  let some maxBlockPtr ← self.maxCompletedBlockPtr | pure (none, self)
  let (groups, aggregators) := collectCompleted maxBlockPtr 0 [] self.aggregators
  pure (some groups, { self with aggregators })

end Buffer

end GraphNode.Amp
