import GraphNode.Store.Postgres.Layout

/-!
# Reading entity tables

The queries the read path sends to the database, each modelled by the rows its
`WHERE` clause selects from the list of versions of a table:
`Layout::find` (the version of one key at a block), `Layout::find_many` (the
same for a set of keys) and `Layout::find_derived` (the entities whose field
holds a given id, leaving out the ids of `excluded_keys`). The revert of a whole
deployment, `revert_block_operations`, applies `Layout::revert_block` to every
table.

The exclusion in `FindDerivedQuery` is written `id != any($excluded)`. In SQL
that holds when the id differs from *some* element of the array, not from all
of them: as soon as two distinct ids are excluded, it excludes nothing
(`GraphNode.Layout.neAny_of_two`).

Every table is taken to have a causality region column; a table without one
holds only onchain entities, which the comparison with the onchain region of
their keys then selects alike.
-/

namespace GraphNode

/-- `BlockRangeColumn::contains`: the version is visible at `block`
(`block_range @> $block`). -/
def Version.atBlock (block : BlockNumber) (v : Version) : Bool :=
  decide (v.lo ≤ block) && v.hi.all fun hi => decide (block < hi)

/-- `DerivedEntityQuery`: the entities of `entityType` whose attribute
`entityField` holds the id `value`, created in the causality region
`causalityRegion`. -/
structure DerivedEntityQuery where
  entityType : EntityType
  entityField : Word
  value : Id
  causalityRegion : CausalityRegion

/-- Whether the attribute the query compares holds its id; a missing attribute
does not (`is_related` in `Queue::get_derived`, and `field = $value` in SQL). -/
def DerivedEntityQuery.isRelated (q : DerivedEntityQuery) (entity : Entity) : Bool :=
  (entity.get q.entityField).any q.value.eqValue

namespace Layout

/-- Whether a version is a version of `key` visible at `block`: the filters
`id_eq`, `at_block` and `belongs_to_causality_region` of `Layout::find`. -/
def findFilter (key : EntityKey) (block : BlockNumber) (v : Version) : Bool :=
  v.id == key.entityId && v.atBlock block && v.causalityRegion == key.causalityRegion

/-- `Layout::find`: the entity `key` at `block`, from the table of its type. -/
def find (db : Db) (key : EntityKey) (block : BlockNumber) : Option Entity :=
  ((db key.entityType).find? (findFilter key block)).map (·.entity)

/-- `Layout::find_many`: the entities of the keys `keys` at `block`, as the map it
returns. -/
def findMany (db : Db) (keys : List EntityKey) (block : BlockNumber) : EntityKey → Option Entity :=
  fun key => if key ∈ keys then find db key block else none

/-- SQL's `x != any($arr)`: `x` differs from at least one element of `arr`. -/
def neAny (x : Id) (arr : List Id) : Bool := arr.any (x != ·)

/-- The `WHERE` clause of `FindDerivedQuery`: the exclusion (left out when no
key is excluded), the compared field, the causality region and the block. -/
def findDerivedWhere (q : DerivedEntityQuery) (block : BlockNumber) (excludedKeys : List Id)
    (v : Version) : Bool :=
  (excludedKeys.isEmpty || neAny v.id excludedKeys) && q.isRelated v.entity &&
    v.causalityRegion == q.causalityRegion && v.atBlock block

/-- `Layout::find_derived`: the entities `FindDerivedQuery` selects, by key; a
later row of the result replaces an earlier one of the same key. -/
def findDerived (db : Db) (q : DerivedEntityQuery) (block : BlockNumber)
    (excludedKeys : List EntityKey) : EntityKey → Option Entity :=
  let rows := (db q.entityType).filter (findDerivedWhere q block (excludedKeys.map (·.entityId)))
  fun key =>
    if key.entityType = q.entityType then
      ((rows.filter fun v => v.id == key.entityId && v.causalityRegion == key.causalityRegion
        ).getLast?).map (·.entity)
    else none

/-- `revert_block_operations` to `blockPtrTo`: `Layout::revert_block` of the first
block to get rid of, `blockPtrTo + 1`, on every table. -/
def revertBlockOperations (blockPtrTo : BlockNumber) (db : Db) : Db :=
  fun t => revertBlock t.immutable (blockPtrTo + 1) (db t)

/-! ### The exclusion of `FindDerivedQuery` -/

theorem neAny_eq_true_iff (x : Id) (arr : List Id) : neAny x arr = true ↔ ∃ y ∈ arr, x ≠ y := by
  simp [neAny]

/-- **`id != any(..)` with two distinct ids excludes no id.** -/
theorem neAny_of_two {a b : Id} {arr : List Id} (hab : a ≠ b) (ha : a ∈ arr) (hb : b ∈ arr)
    (x : Id) : neAny x arr = true := by
  rw [neAny_eq_true_iff]
  by_cases hx : x = a
  · exact ⟨b, hb, hx ▸ hab⟩
  · exact ⟨a, ha, hx⟩

end Layout

end GraphNode
