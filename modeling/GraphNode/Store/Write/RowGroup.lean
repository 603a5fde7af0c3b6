import GraphNode.Store.Write.Modification
import GraphNode.Lib.List

/-!
# Row groups: the changes to one entity type

A `RowGroup` holds the modifications of one entity type that a write batch will
persist, in the order they were appended, which is the order of their blocks.
The heart of it is `GraphNode.RowGroup.appendRow`: a new modification for an id
that already has a row is folded into that row whenever possible – a `Remove`
clamps the previous write in memory, an `Overwrite` clamps it and becomes an
`Insert` – so that the database needs fewer clamps.

Every mutating method of the code takes `&mut self` and returns a `Result`; the
model returns the outcome together with the group as it stands afterwards, so
that what a failing call leaves behind is part of the model.

The index `last_mod` of the last row of each id is consulted and written only
when the environment variable `GRAPH_STORE_WRITE_BATCH_MEMOIZE` is set. It is a
parameter `writeBatchMemoize` of every function that reads or writes it.

The iterators of the code (`clamps_by_block`, `write_chunks`) are modelled over
the rows from their current position on: the position of a `Vec` iterator and
the suffix of the list it has not consumed carry the same information.
-/

namespace GraphNode

/-- `LastMod`: for each id, the index of its last row. -/
structure LastMod where
  map : Id → Option Nat

namespace LastMod

/-- `LastMod::new`: no id has a row. -/
def new : LastMod := ⟨fun _ => none⟩

variable (writeBatchMemoize : Bool)

/-- `LastMod::get`: only answers when memoization is on. -/
def get (m : LastMod) (id : Id) : Option Nat := if writeBatchMemoize then m.map id else none

/-- `LastMod::insert`: only records when memoization is on. -/
def insert (m : LastMod) (id : Id) (idx : Nat) : LastMod :=
  if writeBatchMemoize then ⟨Function.update m.map id (some idx)⟩ else m

end LastMod

/-- `RowGroup`: all changes for one entity type, in the order of their blocks. -/
structure RowGroup where
  entityType : EntityType
  rows : List EntityModification
  lastMod : LastMod

namespace RowGroup

/-- `RowGroup::new`. -/
def new (entityType : EntityType) : RowGroup := ⟨entityType, [], LastMod.new⟩

/-- `RowGroup::row_count`. -/
def rowCount (g : RowGroup) : Nat := g.rows.length

/-- `RowGroup::entity_count_change`: the change in the number of entities that
writing the group makes. -/
def entityCountChange (g : RowGroup) : Int := (g.rows.map (·.entityCountChange)).sum

/-- `RowGroup::writes`: the changes that write a new version. -/
def writes (g : RowGroup) : List EntityModification := g.rows.filter (·.isWrite)

/-- `RowGroup::has_clamps`. -/
def hasClamps (g : RowGroup) : Bool := g.rows.any (·.isClamp)

/-- `RowGroup::ids`. -/
def ids (g : RowGroup) : List Id := g.rows.map (·.id)

/-- Replace the row at index `i`, through the mutable reference the code holds. -/
def setRow (g : RowGroup) (i : Nat) (row : EntityModification) : RowGroup :=
  { g with rows := g.rows.set i row }

section Memoize

variable (writeBatchMemoize : Bool)

/-- `RowGroup::push_row`: append a row and remember its index. -/
def pushRow (g : RowGroup) (row : EntityModification) : RowGroup :=
  { g with
    lastMod := g.lastMod.insert writeBatchMemoize row.id g.rows.length
    rows := g.rows ++ [row] }

/-- `RowGroup::prev_row_mut`: the index and the value of the most recent row
for `id`. With memoization on, the index comes from `last_mod` and is not
searched for even when out of range; otherwise the rows are searched from the
end. -/
def prevRowMut (g : RowGroup) (id : Id) : Option (Nat × EntityModification) :=
  match g.lastMod.get writeBatchMemoize id with
  | some idx => g.rows[idx]?.map (idx, ·)
  | none => (rfindIdx (fun emod => emod.id == id) g.rows).bind fun i => g.rows[i]?.map (i, ·)

/-- The mutable branch of `RowGroup::append_row` once the most recent row `prev`
of the id has been found at index `i`: **the heart of the matter**. Depending
on the two kinds, `prev` is clamped and `row` dropped or turned into an
`Insert`, or `row` is pushed as it is, or the combination is impossible. -/
def foldRow (g : RowGroup) (i : Nat) (prev row : EntityModification) :
    Except StoreError Unit × RowGroup :=
  if row.block ≤ prev.block then (.error (.goesBackwards prev row), g)
  else if row.id ≠ prev.id then (.error (.lastModCorrupted prev.id row.id), g)
  else
    match prev, row with
    | .insert _ _ _ none, .insert .. | .overwrite _ _ _ none, .insert ..
    | .remove .., .overwrite ..
    | .insert _ _ _ (some _), .overwrite .. | .overwrite _ _ _ (some _), .overwrite ..
    | .insert _ _ _ (some _), .remove .. | .overwrite _ _ _ (some _), .remove .. =>
      (.error (.impossibleCombination prev row), g)
    -- ignore the new row: `prev` is already a delete
    | .remove .., .remove .. => (.ok (), g)
    -- `prev` was deleted
    | .insert _ _ _ (some _), .insert .. | .overwrite _ _ _ (some _), .insert ..
    | .remove .., .insert .. => (.ok (), g.pushRow writeBatchMemoize row)
    | .insert _ _ _ none, .overwrite _ _ b _ | .overwrite _ _ _ none, .overwrite _ _ b _ =>
      match prev.clamp b with
      | .error e => (.error e, g)
      | .ok prev' =>
        let g := g.setRow i prev'
        match row.intoInsert g.entityType with
        | .error e => (.error e, g)
        | .ok row => (.ok (), g.pushRow writeBatchMemoize row)
    | .insert _ _ _ none, .remove _ b | .overwrite _ _ _ none, .remove _ b =>
      match prev.clamp b with
      | .error e => (.error e, g)
      | .ok prev' => (.ok (), g.setRow i prev')

/-- `RowGroup::append_row`: append `row`, combining it with the previous row
for its id where possible. An immutable type only takes inserts, and an insert
of an id already inserted at another block only when duplicates are skipped. -/
def appendRow (g : RowGroup) (row : EntityModification) : Except StoreError Unit × RowGroup :=
  if g.entityType.isImmutable then
    match row with
    | .insert .. =>
      -- an insert of an id inserted at another block is refused (or skipped)
      match (g.lastMod.get writeBatchMemoize row.id).bind (fun idx => g.rows[idx]?) with
      | some prev =>
        if prev.block ≠ row.block then
          if g.entityType.skipDuplicates then (.ok (), g)
          else (.error (.immutableReinsert row.key row.block prev.block), g)
        else (.ok (), g.pushRow writeBatchMemoize row)
      | none => (.ok (), g.pushRow writeBatchMemoize row)
    | .overwrite .. | .remove .. =>
      if g.entityType.skipDuplicates then (.ok (), g)
      else (.error (.immutableOnlyInserts g.entityType row), g)
  else
    match g.prevRowMut writeBatchMemoize row.id with
    | some (i, prev) => g.foldRow writeBatchMemoize i prev row
    | none => (.ok (), g.pushRow writeBatchMemoize row)

/-- `RowGroup::push`: append `emod` as a change at `block`, refusing to go
back before the block of the last row. -/
def push (g : RowGroup) (emod : EntityModification) (block : BlockNumber) :
    Except StoreError Unit × RowGroup :=
  match g.rows.getLast? with
  | some last =>
    if last.block ≤ block then g.appendRow writeBatchMemoize emod
    else (.error (.notForward last.block emod), g)
  | none => g.appendRow writeBatchMemoize emod

/-- The loop of `RowGroup::append`: append the rows one by one, stopping at the
first error. -/
def appendRows (g : RowGroup) : List EntityModification → Except StoreError Unit × RowGroup
  | [] => (.ok (), g)
  | row :: rows =>
    match g.appendRow writeBatchMemoize row with
    | (.ok (), g') => appendRows g' rows
    | (.error e, g') => (.error e, g')

/-- `RowGroup::append`: append the rows of another group of the same type. -/
def append (g other : RowGroup) : Except StoreError Unit × RowGroup :=
  if g.entityType ≠ other.entityType then
    (.error (.groupTypeMismatch other.entityType g.entityType), g)
  else g.appendRows writeBatchMemoize other.rows

/-- `RowGroup::last_op`: what the group leaves for `key` at block `at`. The
memoized last row answers if it is not after `at`; otherwise the rows are
scanned from the end for the last change of `key` at or before `at`. -/
def lastOp (g : RowGroup) (key : EntityKey) (at_ : BlockNumber) : Option EntityOp :=
  let memo := (g.lastMod.get writeBatchMemoize key.entityId).bind fun idx =>
    g.rows[idx]?.bind fun emod => if emod.block ≤ at_ then some (emod.asEntityOp at_) else none
  match memo with
  | some op => some op
  | none =>
    (g.rows.reverse.find? fun emod => emod.key == key && decide (emod.block ≤ at_)).map
      (·.asEntityOp at_)

end Memoize

/-- The filter of `RowGroup::effective_ops`, with the set `seen` of the ids it
has let through: walking the rows from the last, the first change of each id
at or before `at`. -/
def effectiveOpsFrom (at_ : BlockNumber) : List EntityModification → List Id → List EntityOp
  | [], _ => []
  | emod :: rest, seen =>
    if emod.block ≤ at_ then
      if emod.id ∈ seen then effectiveOpsFrom at_ rest seen
      else emod.asEntityOp at_ :: effectiveOpsFrom at_ rest (emod.id :: seen)
    else effectiveOpsFrom at_ rest seen

/-- `RowGroup::effective_ops`: one operation for every id with a change at or
before `at`, the one its last such change leaves. -/
def effectiveOps (g : RowGroup) (at_ : BlockNumber) : List EntityOp :=
  effectiveOpsFrom at_ g.rows.reverse []

/-! ### Clamps by block -/

/-- Whether a row continues the run of clamps at `block`. -/
def inRun (block : BlockNumber) (r : EntityModification) : Bool := r.block == block && r.isClamp

/-- `ClampsByBlockIterator::next`, on the rows from the iterator's position on:
skip to the next clamp, and return the run of consecutive clamps at its block
with the rows after it. -/
def clampsNext (rest : List EntityModification) :
    Option ((BlockNumber × List EntityModification) × List EntityModification) :=
  match rest.dropWhile (fun r => !r.isClamp) with
  | [] => none
  | r :: more => some ((r.block, (r :: more).takeWhile (inRun r.block)),
      (r :: more).dropWhile (inRun r.block))

theorem clampsNext_length {rest rest' : List EntityModification}
    {item : BlockNumber × List EntityModification} (h : clampsNext rest = some (item, rest')) :
    rest'.length < rest.length := by
  unfold clampsNext at h
  split at h
  · simp at h
  · rename_i r more hdrop
    simp only [Option.some.injEq, Prod.mk.injEq] at h
    obtain ⟨-, rfl⟩ := h
    have hr : inRun r.block r = true := by
      have hc : r.isClamp = true := by
        have := List.head_dropWhile_not (fun r : EntityModification => !r.isClamp) (l := rest)
          (by simp [hdrop])
        simpa [hdrop] using this
      simp [inRun, hc]
    have h1 : ((r :: more).dropWhile (inRun r.block)).length ≤ more.length := by
      rw [List.dropWhile_cons_of_pos hr]
      exact (List.dropWhile_suffix _).length_le
    have h2 : (r :: more).length ≤ rest.length := by
      rw [← hdrop]
      exact (List.dropWhile_suffix _).length_le
    simp at h2
    omega

/-- All the runs `ClampsByBlockIterator` yields from the rows `rest` on. -/
def clampsByBlockFrom (rest : List EntityModification) :
    List (BlockNumber × List EntityModification) :=
  match _hnext : clampsNext rest with
  | none => []
  | some (item, rest') => item :: clampsByBlockFrom rest'
termination_by rest.length
decreasing_by exact clampsNext_length _hnext

/-- `RowGroup::clamps_by_block`: the runs of clamps of the same block, in the
order of the rows. -/
def clampsByBlock (g : RowGroup) : List (BlockNumber × List EntityModification) :=
  clampsByBlockFrom g.rows

/-! ### Write chunks -/

/-- The advance of `WriteChunker::next`: step over rows until `n` more writes
have been passed. -/
def chunkAdvance : Nat → List EntityModification → List EntityModification
  | 0, rest => rest
  | _ + 1, [] => []
  | n + 1, r :: rest => if r.isWrite then chunkAdvance n rest else chunkAdvance (n + 1) rest

/-- `WriteChunkIter`: the writes of a chunk, at most `n` of them, from its
position on. -/
def chunkWrites : Nat → List EntityModification → List EntityWrite
  | 0, _ => []
  | _ + 1, [] => []
  | n + 1, r :: rest =>
    match r.asWrite with
    | some w => w :: chunkWrites n rest
    | none => chunkWrites (n + 1) rest

/-- `WriteChunker` run to its end with `fuel` calls of `next`: each chunk is
given by the rows from its position on. With a chunk size of at least one,
every call consumes a row, so the number of rows plus one calls suffice. -/
def writeChunksFrom (chunkSize : Nat) :
    Nat → List EntityModification → List (List EntityModification)
  | 0, _ => []
  | _ + 1, [] => []
  | fuel + 1, r :: rest =>
    (r :: rest) :: writeChunksFrom chunkSize fuel (chunkAdvance chunkSize (r :: rest))

/-- `RowGroup::write_chunks`. -/
def writeChunks (g : RowGroup) (chunkSize : Nat) : List (List EntityModification) :=
  writeChunksFrom chunkSize (g.rows.length + 1) g.rows

/-- `WriteChunk::len`: the rows from the chunk's position on, at most `chunk_size` of them.
Removals are counted too, although the chunk's iterator steps over them. -/
def chunkLen (chunkSize : Nat) (chunk : List EntityModification) : Nat :=
  min chunk.length chunkSize

/-- `WriteChunk::as_single_writes`: a chunk of size one at each of the first `len` positions
of the chunk. -/
def asSingleWrites (chunkSize : Nat) (chunk : List EntityModification) :
    List (List EntityModification) :=
  (List.range (chunkLen chunkSize chunk)).map chunk.drop

end RowGroup

end GraphNode
