import GraphNode.Data.Entity

/-!
# Entity modifications tagged with a block

`EntityModification` is the unit of the write path: the insert of a new entity,
the overwrite of an existing one, or its removal, each at a block. The store only
ever does two things with one: it *clamps* the block range of the entity's
current version at the block, and it *writes* a new version. An `Insert` only
writes, a `Remove` only clamps, an `Overwrite` does both.

The `end` of an `Insert` or `Overwrite` is the block at which the version it
writes stops being visible. It is `none` when the modification comes out of one
block, and becomes `some b` when a later `Remove` or `Overwrite` at `b` is folded
into it in memory (`GraphNode.RowGroup.appendRow`), which saves the database a
clamp.

The errors of the write path are `GraphNode.StoreError`, one constructor per
place that raises one, carrying the data its message formats.
-/

namespace GraphNode

/-- `EntityModification`: a change to one entity at one block. -/
inductive EntityModification where
  /-- Insert the entity. -/
  | insert (key : EntityKey) (data : Entity) (block : BlockNumber) (end_ : Option BlockNumber)
  /-- Update the entity by overwriting it. -/
  | overwrite (key : EntityKey) (data : Entity) (block : BlockNumber) (end_ : Option BlockNumber)
  /-- Remove the entity. -/
  | remove (key : EntityKey) (block : BlockNumber)

/-- `EntityOp` of the write batch: what the batch will leave for an entity at a
block, a new version or its removal. -/
inductive EntityOp where
  | write (key : EntityKey) (entity : Entity)
  | remove (key : EntityKey)

/-- `EntityWrite`: the data of one row to insert. -/
structure EntityWrite where
  id : Id
  entity : Entity
  causalityRegion : CausalityRegion
  block : BlockNumber
  end_ : Option BlockNumber

/-- `StoreError`, for the errors the write path raises. Each constructor is one
call site, with the values its message shows. -/
inductive StoreError where
  /-- `"can not clamp {emod:?} to block {block}"` -/
  | cannotClamp (emod : EntityModification) (block : BlockNumber)
  /-- `"can not clamp block range for removal of {emod:?} to {block}"` -/
  | cannotClampRemoval (emod : EntityModification) (block : BlockNumber)
  /-- `"a remove for {entity_type}[{id}] can not be converted into an insert"` -/
  | removeIntoInsert (entityType : EntityType) (id : Id)
  /-- `"we already have a modification for block {last}, can not append {emod:?}"` -/
  | notForward (lastBlock : BlockNumber) (emod : EntityModification)
  /-- `StoreError::Input("entity {key} is immutable; inserting it at block {block} is not
  possible as it was already inserted at block {prev}")` -/
  | immutableReinsert (key : EntityKey) (block prevBlock : BlockNumber)
  /-- `"immutable entity type {entity_type} only allows inserts, not {row:?}"` -/
  | immutableOnlyInserts (entityType : EntityType) (row : EntityModification)
  /-- `"can not append operations that go backwards from {prev:?} to {row:?}"` -/
  | goesBackwards (prev row : EntityModification)
  /-- `"last_mod map is corrupted: got id {prev} looking up id {row}"` -/
  | lastModCorrupted (prevId rowId : Id)
  /-- `"impossible combination of entity operations: {prev:?} and then {row:?}"` -/
  | impossibleCombination (prev row : EntityModification)
  /-- `"Can not append a row group for {other} to a row group for {self}"` -/
  | groupTypeMismatch (other self : EntityType)
  /-- `"Batches must go forward. Can't append a batch with block pointer {new} to one with
  block pointer {old}"` -/
  | batchNotForward (newBlock oldBlock : BlockNumber)
  /-- `"entities of type {entity_type} can not be deleted since they are immutable. Entity
  ids are [{ids}]"` -/
  | immutableDelete (entityType : EntityType) (ids : List Id)

namespace EntityModification

/-- `EntityModification::key`. -/
def key : EntityModification → EntityKey
  | insert key .. | overwrite key .. | remove key .. => key

/-- `EntityModification::id`: the id of the entity. -/
def id (m : EntityModification) : Id := m.key.entityId

/-- `EntityModification::block`. -/
def block : EntityModification → BlockNumber
  | insert _ _ b _ | overwrite _ _ b _ | remove _ b => b

/-- `EntityModification::is_write`: the modification writes a new version. -/
def isWrite : EntityModification → Bool
  | insert .. | overwrite .. => true
  | remove .. => false

/-- `EntityModification::is_clamp`: the modification clamps an existing version. -/
def isClamp : EntityModification → Bool
  | insert .. => false
  | overwrite .. | remove .. => true

/-- `EntityModification::creates_entity`. -/
def createsEntity : EntityModification → Bool
  | insert .. => true
  | overwrite .. | remove .. => false

/-- `EntityModification::entity_count_change`: how the modification changes the
number of entities once written. -/
def entityCountChange : EntityModification → Int
  | insert _ _ _ none => 1
  -- an insert followed by a remove
  | insert _ _ _ (some _) => 0
  | overwrite _ _ _ none => 0
  -- an overwrite followed by a remove
  | overwrite _ _ _ (some _) => -1
  | remove .. => -1

/-- `EntityModification::clamp`: end the version the modification writes at
`block`; an error if it ends already or writes none. -/
def clamp (m : EntityModification) (block : BlockNumber) : Except StoreError EntityModification :=
  match m with
  | insert key data b none => .ok (insert key data b (some block))
  | overwrite key data b none => .ok (overwrite key data b (some block))
  | insert _ _ _ (some _) | overwrite _ _ _ (some _) => .error (.cannotClamp m block)
  | remove .. => .error (.cannotClampRemoval m block)

/-- `EntityModification::into_insert`: turn an `Overwrite` into an `Insert`. -/
def intoInsert (m : EntityModification) (entityType : EntityType) :
    Except StoreError EntityModification :=
  match m with
  | insert .. => .ok m
  | overwrite key data block end_ => .ok (insert key data block end_)
  | remove key _ => .error (.removeIntoInsert entityType key.entityId)

/-- `EntityModification::as_entity_op`: what the modification leaves at block
`at`, for a modification at or before `at`: its data while the version is
visible, a removal once it has ended. -/
def asEntityOp (m : EntityModification) (at_ : BlockNumber) : EntityOp :=
  match m with
  | insert key data _ none | overwrite key data _ none => .write key data
  | insert key data _ (some e) | overwrite key data _ (some e) =>
    if at_ < e then .write key data else .remove key
  | remove key _ => .remove key

/-- `EntityModification::as_write`: the row to insert, for a write. -/
def asWrite : EntityModification → Option EntityWrite
  | insert key data block end_ | overwrite key data block end_ =>
    some ⟨key.entityId, data, key.causalityRegion, block, end_⟩
  | remove .. => none

/-- The version end of a write, `none` for a removal. -/
def end? : EntityModification → Option BlockNumber
  | insert _ _ _ e | overwrite _ _ _ e => e
  | remove .. => none

/-- The data a write carries. -/
def data? : EntityModification → Option Entity
  | insert _ d _ _ | overwrite _ d _ _ => some d
  | remove .. => none

@[simp] theorem key_insert (k : EntityKey) (d : Entity) (b : BlockNumber) (e : Option BlockNumber) :
    (insert k d b e).key = k := rfl
@[simp] theorem key_overwrite (k : EntityKey) (d : Entity) (b : BlockNumber)
    (e : Option BlockNumber) : (overwrite k d b e).key = k := rfl
@[simp] theorem key_remove (k : EntityKey) (b : BlockNumber) : (remove k b).key = k := rfl
@[simp] theorem block_insert (k : EntityKey) (d : Entity) (b : BlockNumber)
    (e : Option BlockNumber) : (insert k d b e).block = b := rfl
@[simp] theorem block_overwrite (k : EntityKey) (d : Entity) (b : BlockNumber)
    (e : Option BlockNumber) : (overwrite k d b e).block = b := rfl
@[simp] theorem block_remove (k : EntityKey) (b : BlockNumber) : (remove k b).block = b := rfl

/-- A clamp keeps the key, the block and the kind of the modification, and sets
its end. -/
theorem clamp_eq_ok {m m' : EntityModification} {b : BlockNumber} (h : m.clamp b = .ok m') :
    m'.key = m.key ∧ m'.block = m.block ∧ m'.isWrite = true ∧ m.isWrite = true ∧
      m.end? = none ∧ m'.end? = some b ∧ m'.isClamp = m.isClamp ∧ m'.data? = m.data? := by
  cases m with
  | insert k d b' e =>
    cases e with
    | none =>
      obtain rfl : insert k d b' (some b) = m' := by simpa [clamp] using h
      exact ⟨rfl, rfl, rfl, rfl, rfl, rfl, rfl, rfl⟩
    | some _ => simp [clamp] at h
  | overwrite k d b' e =>
    cases e with
    | none =>
      obtain rfl : overwrite k d b' (some b) = m' := by simpa [clamp] using h
      exact ⟨rfl, rfl, rfl, rfl, rfl, rfl, rfl, rfl⟩
    | some _ => simp [clamp] at h
  | remove k b' => simp [clamp] at h

/-- Modifications with the same key have the same id. -/
theorem id_eq_of_key_eq {m m' : EntityModification} (h : m'.key = m.key) : m'.id = m.id :=
  congrArg EntityKey.entityId h

/-- Turning a modification into an insert keeps its key, block, end and data, and
makes it a write that clamps nothing. -/
theorem intoInsert_eq_ok {m m' : EntityModification} {t : EntityType}
    (h : m.intoInsert t = .ok m') :
    m'.key = m.key ∧ m'.block = m.block ∧ m'.end? = m.end? ∧ m'.isWrite = true ∧
      m'.isClamp = false ∧ m'.data? = m.data? := by
  cases m with
  | insert k d b e =>
    obtain rfl : insert k d b e = m' := by simpa [intoInsert] using h
    exact ⟨rfl, rfl, rfl, rfl, rfl, rfl⟩
  | overwrite k d b e =>
    obtain rfl : insert k d b e = m' := by simpa [intoInsert] using h
    exact ⟨rfl, rfl, rfl, rfl, rfl, rfl⟩
  | remove k b => simp [intoInsert] at h

/-- A modification writes exactly when it has a row to insert. -/
theorem isSome_asWrite (m : EntityModification) : m.asWrite.isSome = m.isWrite := by
  cases m <;> rfl

/-! ### What a modification stands for -/

/-- The operation a modification of one block stands for: the version it writes,
or the removal. -/
def effect : EntityModification → EntityOp
  | insert key data .. | overwrite key data .. => .write key data
  | remove key _ => .remove key

/-- A modification of one block leaves its own effect at every block. -/
theorem asEntityOp_of_end_none {m : EntityModification} (h : m.end? = none) (at_ : BlockNumber) :
    m.asEntityOp at_ = m.effect := by
  cases m with
  | insert k d b e => cases e <;> simp_all [asEntityOp, effect, end?]
  | overwrite k d b e => cases e <;> simp_all [asEntityOp, effect, end?]
  | remove k b => rfl

/-- A version clamped at `b` reads as before below `b` and as a removal from `b` on. -/
theorem asEntityOp_clamp {m m' : EntityModification} {b : BlockNumber} (h : m.clamp b = .ok m')
    (at_ : BlockNumber) :
    m'.asEntityOp at_ = if at_ < b then m.asEntityOp at_ else .remove m.key := by
  cases m with
  | insert k d b' e =>
    cases e with
    | none =>
      obtain rfl : insert k d b' (some b) = m' := by simpa [clamp] using h
      by_cases hlt : at_ < b <;> simp [asEntityOp, hlt]
    | some _ => simp [clamp] at h
  | overwrite k d b' e =>
    cases e with
    | none =>
      obtain rfl : overwrite k d b' (some b) = m' := by simpa [clamp] using h
      by_cases hlt : at_ < b <;> simp [asEntityOp, hlt]
    | some _ => simp [clamp] at h
  | remove k b' => simp [clamp] at h

/-- An overwrite turned into an insert stands for the same version. -/
theorem effect_intoInsert {m m' : EntityModification} {t : EntityType}
    (h : m.intoInsert t = .ok m') : m'.effect = m.effect := by
  cases m with
  | insert k d b e =>
    obtain rfl : insert k d b e = m' := by simpa [intoInsert] using h
    rfl
  | overwrite k d b e =>
    obtain rfl : insert k d b e = m' := by simpa [intoInsert] using h
    rfl
  | remove k b => simp [intoInsert] at h

/-- An overwrite turned into an insert writes the same row. -/
theorem asWrite_intoInsert {m m' : EntityModification} {t : EntityType}
    (h : m.intoInsert t = .ok m') : m'.asWrite = m.asWrite := by
  cases m with
  | insert k d b e =>
    obtain rfl : insert k d b e = m' := by simpa [intoInsert] using h
    rfl
  | overwrite k d b e =>
    obtain rfl : insert k d b e = m' := by simpa [intoInsert] using h
    rfl
  | remove k b => simp [intoInsert] at h

/-- Clamping a version counts its entity as removed. -/
theorem entityCountChange_clamp {m m' : EntityModification} {b : BlockNumber}
    (h : m.clamp b = .ok m') : m'.entityCountChange = m.entityCountChange - 1 := by
  cases m with
  | insert k d b' e =>
    cases e with
    | none =>
      obtain rfl : insert k d b' (some b) = m' := by simpa [clamp] using h
      rfl
    | some _ => simp [clamp] at h
  | overwrite k d b' e =>
    cases e with
    | none =>
      obtain rfl : overwrite k d b' (some b) = m' := by simpa [clamp] using h
      rfl
    | some _ => simp [clamp] at h
  | remove k b' => simp [clamp] at h

/-- What a single-block modification does to the number of entities: an insert
adds one, an overwrite none, a remove takes one away. -/
theorem entityCountChange_of_end_none {m : EntityModification} (h : m.end? = none) :
    m.entityCountChange = if m.isClamp then (if m.isWrite then 0 else -1) else 1 := by
  cases m with
  | insert k d b e => cases e <;> simp_all [entityCountChange, isClamp, end?]
  | overwrite k d b e => cases e <;> simp_all [entityCountChange, isClamp, isWrite, end?]
  | remove k b => rfl

end EntityModification

end GraphNode
