import GraphNode.Store.EntityCache.Accumulate
import GraphNode.Store.Write.Modification

/-!
# The modifications of a block

At the end of a block, `EntityCache::as_modifications` turns the change accumulated for
each key into at most one `EntityModification`, which the write path then persists. It
compares with the entity the store has for the key: a new entity is an `Insert`, a removed
one a `Remove`, and a changed one an `Overwrite`; no modification is made where nothing
changed. It also hands on the entity cache for the next block, with each updated key mapped
to what the block leaves of it.

Which entity the store has is read from `current`, after the entities of mutable types that
`current` lacks have been loaded with `get_many`; an immutable entity is taken to be new. The
maps of the cache are functions here, so the keys of `updates`, in the order the map yields
them, are an argument `keys` of the model. The eviction of the cache and the errors of the
store and of the attribute pool are not modelled.

**An overwrite is not compared up to `Null` attributes.** The change of a key that was removed
and set again in the block is an `EntityOp::Overwrite`. Its branch compares the stored entity
with the new data with `!=`, which ignores the version id but counts an attribute set to `Null`
as an attribute, and it emits the data as they are, `Null` attributes included. An entity
removed and set again to what it was, with an attribute set to `Null`, so gets an `Overwrite`
that carries the `Null` (`asModifications_spurious_overwrite`).
-/

namespace GraphNode

namespace EntityCache

/-- The entity `as_modifications` compares with for a key of `updates`: what `current`
remembers, or what `get_many` loads from the store for a key of a mutable type it does not
remember. -/
def loaded (c : EntityCache) (store : EntityKey → Option Entity) (key : EntityKey) :
    Option Entity :=
  match c.current key with
  | some entity => entity
  | none => if key.entityType.isImmutable then none else store key

/-- One arm of the loop of `as_modifications`: the modification for the change `update` of
`key`, from the entity `current` the store has, and the entry of the key in the cache handed
on, `none` where the key is dropped from it. -/
def modificationFor (key : EntityKey) (block : BlockNumber) :
    Option Entity → EntityOp → Option EntityModification × Option (Option Entity)
  -- the entity was created
  | none, .update updates | none, .overwrite updates =>
    let data := updates.removeNullFields
    (some (.insert key data block none), some (some data))
  -- the entity may have been changed
  | some current, .update updates =>
    let (data, changed) := current.mergeRemoveNullFields updates
    (if changed then some (.overwrite key data block none) else none, some (some data))
  -- the entity was removed and then updated, so it is overwritten
  | some current, .overwrite data =>
    (if !current.beq data then some (.overwrite key data block none) else none, some (some data))
  -- an existing entity was deleted
  | some _, .remove => (some (.remove key block), some none)
  -- the entity was deleted, but the store does not have it
  | none, .remove => (none, none)

/-- `EntityCache::as_modifications` over the keys `keys` of `updates`: the modifications in the
order of the keys, and the `current` map handed on. -/
def asModifications (c : EntityCache) (store : EntityKey → Option Entity)
    (keys : List EntityKey) (block : BlockNumber) :
    Except CacheError (List EntityModification × (EntityKey → Option (Option Entity))) :=
  if c.inHandler then .error .handlerAssertion
  else .ok (keys.foldl (fun (acc : List EntityModification × (EntityKey → Option (Option Entity)))
      key =>
    match c.updates key with
    | none => acc
    | some op =>
      let (modification, entry) := modificationFor key block (c.loaded store key) op
      (acc.1 ++ modification.toList, Function.update acc.2 key entry)) ([], c.current))

/-- **A block that removes an entity and sets it again to what it was gets an `Overwrite` with
a `Null` attribute.** The store holds `a` with name `x` and version id `5`, and the cache
remembers it. The block removes `a` and then sets it to name `x` and `other` set to `Null`.
What the block leaves of `a` is what the store has, up to the version id and `Null`
attributes, yet `as_modifications` emits an `Overwrite` of `a`, and its data hold
`other: Null`. -/
theorem asModifications_spurious_overwrite :
    let k : EntityKey := ⟨⟨"Thing", false, false⟩, .string "a", .ONCHAIN⟩
    let stored := (Entity.empty.insert "name" (.string "x")).insert VID_FIELD (.int8 5)
    let store : EntityKey → Option Entity := fun key => if key = k then some stored else none
    let data := (Entity.empty.insert "name" (.string "x")).insert "other" .null
    let c₀ := withCurrent (fun key => (store key).map some) (SeqGenerator.new 1)
    ∃ c current, runCalls store c₀ [.remove k, .set k data] = .ok c ∧
      c.asModifications store [k] 1 =
        .ok ([.overwrite k (data.insert VID_FIELD (.int8 (2 ^ 32 + 100))) 1 none], current) ∧
      (data.insert VID_FIELD (.int8 (2 ^ 32 + 100))).get "other" = some .null ∧
      OptEqUpTo (EntityOp.applyOpt (c.updates k) (store k)) (store k) := by
  intro k stored store data c₀
  refine ⟨_, _, rfl, rfl, rfl, ?_⟩
  -- the overwrite leaves name `x`, and `other` is absent once `Null` is read as absence
  show Entity.EqUpTo (data.insert VID_FIELD (.int8 (2 ^ 32 + 100))) stored
  intro a ha
  simp only [data, stored, Entity.get_insert, ha, if_false]
  by_cases hname : a = "name" <;> by_cases hother : a = "other" <;>
    simp_all [Entity.get, Entity.empty]

end EntityCache

end GraphNode
