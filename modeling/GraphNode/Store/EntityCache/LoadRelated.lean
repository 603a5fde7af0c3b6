import GraphNode.Store.EntityCache
import GraphNode.Store.Postgres.Query

/-!
# Loading the entities related to an entity

`EntityCache::load_related` answers a derived field: the entities of a type whose field
holds a given id. The store answers for the start of the block (`get_derived`), and the
block's changes have to be layered over that answer. An entity can join the result in the
block, be created in it, leave it, be overwritten or be removed, and each of these can
happen in the block's layer or in the running handler's.

The code resolves a set of candidate keys: those the store returned, and every key of the
right type and causality region that either layer has a change for. Each candidate's state
is then the store's entity with the block's change and the handler's applied, and it is kept
if it still matches the query. Every key whose layered state exists is a candidate, so the
result is exactly the set of layered states that match (`mem_loadRelated_iff`).

The query is taken as `load_related` builds it, after the schema has resolved the request's
type and field (`get_field_related`). The maps of the cache are functions, so the keys of
`updates` and `handler_updates` are arguments. The candidates are a list without duplicates
in place of the code's `BTreeSet`, so the result is the code's up to order. The errors of the
store and of the attribute pool are not modelled.
-/

namespace GraphNode

/-- `DerivedEntityQuery::matches`: the key has the query's type and causality region, and the
entity's field holds the query's id. -/
def DerivedEntityQuery.matches (q : DerivedEntityQuery) (key : EntityKey) (entity : Entity) :
    Bool :=
  key.entityType == q.entityType && key.causalityRegion == q.causalityRegion && q.isRelated entity

namespace EntityCache

/-- The state of `key` that `load_related` resolves: the entity `get_derived` returned, with
the block's change and then the handler's applied. -/
def layered (c : EntityCache) (stored : List (EntityKey × Entity)) (key : EntityKey) :
    Option Entity :=
  EntityOp.applyOpt (c.handlerUpdates key) (EntityOp.applyOpt (c.updates key) (stored.lookup key))

/-- The candidate keys of `load_related`: the keys `get_derived` returned, and the keys of the
query's type and causality region among `updateKeys` and `handlerKeys`, the keys of the two
layers. -/
def candidates (q : DerivedEntityQuery) (stored : List (EntityKey × Entity))
    (updateKeys handlerKeys : List EntityKey) : List EntityKey :=
  (stored.map (·.1) ++ (updateKeys ++ handlerKeys).filter fun key =>
    key.entityType == q.entityType && key.causalityRegion == q.causalityRegion).dedup

/-- `EntityCache::load_related` for the query `q`, given the answer `stored` of `get_derived`:
the entities, and the cache, which now remembers the stored entities it did not know. -/
def loadRelated (c : EntityCache) (q : DerivedEntityQuery) (stored : List (EntityKey × Entity))
    (updateKeys handlerKeys : List EntityKey) : List Entity × EntityCache :=
  let current := stored.foldl (fun current (p : EntityKey × Entity) =>
    if (current p.1).isSome then current else Function.update current p.1 (some (some p.2)))
    c.current
  ((candidates q stored updateKeys handlerKeys).filterMap fun key =>
    (c.layered stored key).filter (q.matches key), { c with current })

section LoadRelated

variable {c : EntityCache} {q : DerivedEntityQuery} {stored : List (EntityKey × Entity)}
  {updateKeys handlerKeys : List EntityKey}

/-- A key without a stored entity or a change of either layer has no layered state. -/
theorem layered_eq_none (hs : stored.lookup key = none) (hu : c.updates key = none)
    (hh : c.handlerUpdates key = none) : c.layered stored key = none := by
  simp [layered, hs, hu, hh, EntityOp.applyOpt]

/-- Every key of the query's type and region with a layered state is a candidate, as long as
`updateKeys` and `handlerKeys` list every key of their layers. -/
theorem mem_candidates (hupd : ∀ key, c.updates key ≠ none → key ∈ updateKeys)
    (hhandler : ∀ key, c.handlerUpdates key ≠ none → key ∈ handlerKeys) {key : EntityKey}
    (htype : key.entityType = q.entityType) (hregion : key.causalityRegion = q.causalityRegion)
    (hsome : c.layered stored key ≠ none) :
    key ∈ candidates q stored updateKeys handlerKeys := by
  have hq : (key.entityType == q.entityType && key.causalityRegion == q.causalityRegion) = true :=
    by simp [htype, hregion]
  rw [candidates, List.mem_dedup, List.mem_append, List.mem_filter, List.mem_append]
  -- the stored entity, or else the change of one of the layers, puts the key in the list
  by_cases hs : stored.lookup key = none
  · by_cases hu : c.updates key = none
    · have hh : c.handlerUpdates key ≠ none := fun hh => hsome (layered_eq_none hs hu hh)
      exact .inr ⟨.inr (hhandler key hh), hq⟩
    · exact .inr ⟨.inl (hupd key hu), hq⟩
  · obtain ⟨p, hp, hkey⟩ : ∃ p ∈ stored, key = p.1 := by simpa using hs
    exact .inl (List.mem_map.mpr ⟨p, hp, hkey.symm⟩)

/-- **`load_related` returns exactly the layered states that match the query.** An entity is
in the result if and only if some key of the query's type and causality region has it as its
state once the block's change (`updates`) and then the handler's (`handler_updates`) are
applied to what `get_derived` returned, and its field holds the requested id. -/
theorem mem_loadRelated_iff (hupd : ∀ key, c.updates key ≠ none → key ∈ updateKeys)
    (hhandler : ∀ key, c.handlerUpdates key ≠ none → key ∈ handlerKeys) (e : Entity) :
    e ∈ (c.loadRelated q stored updateKeys handlerKeys).1 ↔
      ∃ key, key.entityType = q.entityType ∧ key.causalityRegion = q.causalityRegion ∧
        EntityOp.applyOpt (c.handlerUpdates key)
          (EntityOp.applyOpt (c.updates key) (stored.lookup key)) = some e ∧
        (e.get q.entityField).any q.value.eqValue = true := by
  simp only [loadRelated, List.mem_filterMap, Option.filter_eq_some_iff]
  constructor
  · rintro ⟨key, -, hlayered, hmatch⟩
    simp only [DerivedEntityQuery.matches, Bool.and_eq_true, beq_iff_eq] at hmatch
    exact ⟨key, hmatch.1.1, hmatch.1.2, hlayered, hmatch.2⟩
  · rintro ⟨key, htype, hregion, hlayered, hrelated⟩
    have hsome : c.layered stored key ≠ none := by
      rw [layered, hlayered]
      exact Option.some_ne_none e
    have hmem := mem_candidates hupd hhandler htype hregion hsome
    refine ⟨key, hmem, hlayered, ?_⟩
    simp [DerivedEntityQuery.matches, DerivedEntityQuery.isRelated, htype, hregion, hrelated]

end LoadRelated

/-- In the block, a wallet `w` of collection `c` moves to collection `d`, and the handler
creates a wallet `v` in collection `c`. `load_related` of `c` returns the new wallet, and not the
state of `w` that `get_derived` returned. -/
theorem mem_loadRelated_iff_wallet_leaves :
    let t : EntityType := ⟨"Wallet", false, false⟩
    let w : EntityKey := ⟨t, .string "w", .ONCHAIN⟩
    let v : EntityKey := ⟨t, .string "v", .ONCHAIN⟩
    let before := Entity.empty.insert "collection" (.string "c")
    let after := Entity.empty.insert "collection" (.string "d")
    let joined := (Entity.empty.insert "collection" (.string "c")).insert "name" (.string "v")
    let c : EntityCache := { withCurrent (fun _ => none) (SeqGenerator.new 1) with
      updates := Function.update (fun _ => none) w (some (.update after))
      handlerUpdates := Function.update (fun _ => none) v (some (.update joined)) }
    let q : DerivedEntityQuery := ⟨t, "collection", .string "c", .ONCHAIN⟩
    (∀ key, c.updates key ≠ none → key ∈ [w]) ∧
      (∀ key, c.handlerUpdates key ≠ none → key ∈ [v]) ∧
      joined ∈ (c.loadRelated q [(w, before)] [w] [v]).1 ∧
      before ∉ (c.loadRelated q [(w, before)] [w] [v]).1 := by
  intro t w v before after joined c q
  have hupd : ∀ key, c.updates key ≠ none → key ∈ [w] := by
    intro key h
    by_cases hk : key = w
    · simp [hk]
    · simp [c, Function.update_of_ne hk] at h
  have hhandler : ∀ key, c.handlerUpdates key ≠ none → key ∈ [v] := by
    intro key h
    by_cases hk : key = v
    · simp [hk]
    · simp [c, Function.update_of_ne hk] at h
  have hvw : v ≠ w := by decide
  -- the three states differ in the fields `collection` and `name`
  have hbefore : before.get "collection" = some (.string "c") ∧ before.get "name" = none := by
    decide
  have hjoined : joined.get "name" = some (.string "v") := by decide
  have hmoved : (before.mergeRemoveNullFields after).1.get "collection" = some (.string "d") := by
    decide
  have hlook : ∀ key, key ≠ w → [(w, before)].lookup key = none := by
    intro key hk
    simp [List.lookup, beq_false_of_ne hk]
  refine ⟨hupd, hhandler, (mem_loadRelated_iff hupd hhandler joined).mpr ⟨v, rfl, rfl, ?_, ?_⟩,
    fun hmem => ?_⟩
  · simp [c, Function.update_of_ne hvw, hlook v hvw, EntityOp.applyOpt, EntityOp.applyTo]
  · decide
  · -- only `w` and `v` have a state, and neither is `before`
    obtain ⟨key, -, -, hkey, -⟩ := (mem_loadRelated_iff hupd hhandler before).mp hmem
    by_cases hw : key = w
    · subst hw
      simp [c, Function.update_of_ne hvw.symm, EntityOp.applyOpt, EntityOp.applyTo] at hkey
      rw [hkey] at hmoved
      simp [hmoved] at hbefore
    · by_cases hv : key = v
      · subst hv
        simp [c, Function.update_of_ne hvw, hlook _ hvw, EntityOp.applyOpt,
          EntityOp.applyTo] at hkey
        rw [hkey, hbefore.2] at hjoined
        cases hjoined
      · simp [c, Function.update_of_ne hw, Function.update_of_ne hv, hlook key hw,
          EntityOp.applyOpt] at hkey

end EntityCache

end GraphNode
