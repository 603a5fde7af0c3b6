import GraphNode.Store.Write.RowGroup

/-!
# Write batches

A `Batch` collects the changes of one or more consecutive blocks before they are
written in one transaction. `Batch::new` takes the modifications of one block,
sorts them so that the clamps of the block are consecutive – removes first, then
overwrites, then inserts – and pushes them into the group of their entity type.
`Batch::append` appends the batch of a later block, group by group, with
`RowGroup::append`.

The sort of `Batch::new` is `sort_unstable_by_key`, which fixes the order of
modifications with different keys only; the model sorts with `List.mergeSort`,
one of the orders it may produce.

Of a batch, the model keeps what the write path and the queue read: the block
pointer, the first block, the groups and the error a failed append leaves. The
block times, cursor, data sources, deterministic errors and the weight are not
modelled.
-/

namespace GraphNode

/-- `RowGroups`: the changes of a batch, one group per entity type. -/
structure RowGroups where
  groups : List RowGroup

namespace RowGroups

/-- `RowGroups::new`. -/
def new : RowGroups := ⟨[]⟩

/-- `RowGroups::group`: the group of an entity type, if there is one. -/
def group (gs : RowGroups) (entityType : EntityType) : Option RowGroup :=
  gs.groups.find? (·.entityType == entityType)

/-- `RowGroups::group_entry` followed by the change `f` the caller makes through
the reference it hands out: the first group of `entityType`, or a new group for
it pushed at the end. -/
def updateEntry (entityType : EntityType) (f : RowGroup → Except StoreError Unit × RowGroup) :
    List RowGroup → Except StoreError Unit × List RowGroup
  | [] =>
    let (r, g) := f (RowGroup.new entityType)
    (r, [g])
  | g :: gs =>
    if g.entityType = entityType then
      let (r, g') := f g
      (r, g' :: gs)
    else
      let (r, gs') := updateEntry entityType f gs
      (r, g :: gs')

/-- `group_entry(entity_type)` with the change `f` applied. -/
def withGroup (gs : RowGroups) (entityType : EntityType)
    (f : RowGroup → Except StoreError Unit × RowGroup) : Except StoreError Unit × RowGroups :=
  let (r, groups) := updateEntry entityType f gs.groups
  (r, ⟨groups⟩)

/-- `RowGroups::entity_count`: the number of rows of all groups. -/
def entityCount (gs : RowGroups) : Nat := (gs.groups.map (·.rowCount)).sum

variable (writeBatchMemoize : Bool)

/-- The loop of `RowGroups::append` over the groups still to append, stopping at
the first error. -/
def appendGroups (gs : RowGroups) : List RowGroup → Except StoreError Unit × RowGroups
  | [] => (.ok (), gs)
  | g :: rest =>
    match gs.withGroup g.entityType (·.append writeBatchMemoize g) with
    | (.ok (), gs') => appendGroups gs' rest
    | (.error e, gs') => (.error e, gs')

/-- `RowGroups::append`: append every group of `other` to the group of its type. -/
def append (gs other : RowGroups) : Except StoreError Unit × RowGroups :=
  gs.appendGroups writeBatchMemoize other.groups

end RowGroups

/-- `Batch`: the changes of the blocks from `firstBlock` to `blockPtr`. -/
structure Batch where
  /-- The number of `block_ptr`, the last block of the batch. -/
  blockPtr : BlockNumber
  /-- The first block of the batch. -/
  firstBlock : BlockNumber
  mods : RowGroups
  /-- Set when an append failed; the batch must not be written then. -/
  error : Option StoreError

namespace Batch

/-- The key of the sort in `Batch::new`: removes, then overwrites, then inserts. -/
def sortKey : EntityModification → Nat
  | .insert .. => 2
  | .overwrite .. => 1
  | .remove .. => 0

/-- The sort of `Batch::new`, so that the clamps of a block are consecutive. -/
def sortMods (rawMods : List EntityModification) : List EntityModification :=
  rawMods.mergeSort fun a b => decide (sortKey a ≤ sortKey b)

variable (writeBatchMemoize : Bool)

/-- The loop of `Batch::new`: push each modification into the group of its
entity type, stopping at the first error. -/
def pushMods (block : BlockNumber) (gs : RowGroups) :
    List EntityModification → Except StoreError RowGroups
  | [] => .ok gs
  | m :: rest =>
    match gs.withGroup m.key.entityType (·.push writeBatchMemoize m block) with
    | (.ok (), gs') => pushMods block gs' rest
    | (.error e, _) => .error e

/-- `Batch::new`: the batch of the modifications `rawMods` of one block. -/
def new (block : BlockNumber) (rawMods : List EntityModification) : Except StoreError Batch :=
  match pushMods writeBatchMemoize block RowGroups.new (sortMods rawMods) with
  | .ok gs => .ok ⟨block, block, gs, none⟩
  | .error e => .error e

/-- `Batch::append_inner`: append the batch of a later block. The block pointer
moves forward before the groups are appended. -/
def appendInner (self batch : Batch) : Except StoreError Unit × Batch :=
  if batch.blockPtr ≤ self.blockPtr then
    (.error (.batchNotForward batch.blockPtr self.blockPtr), self)
  else
    let self := { self with blockPtr := batch.blockPtr }
    let (r, mods) := self.mods.append writeBatchMemoize batch.mods
    (r, { self with mods })

/-- `Batch::append`: append, and mark the batch as broken if that fails. -/
def append (self batch : Batch) : Except StoreError Unit × Batch :=
  match self.appendInner writeBatchMemoize batch with
  | (.ok (), self') => (.ok (), self')
  | (.error e, self') => (.error e, { self' with error := some e })

end Batch

end GraphNode
