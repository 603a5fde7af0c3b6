import GraphNode.Data.Entity

/-!
# The entity cache of a block

While a block is processed, the mappings read and write entities through an
`EntityCache`. Reads go to the store once and are remembered in `current`;
writes are not sent anywhere but accumulated, one `EntityOp` per key, in
`updates`. While a handler runs, its writes go to a second layer,
`handler_updates`, which `exit_handler` folds into `updates` and
`exit_handler_and_discard_changes` throws away. `get` composes the layers at
read time: the store's entity, then the change in `updates`, then the change in
`handler_updates`.

The maps of the cache are functions from keys; `exit_handler` drains
`handler_updates` into `updates` key by key, and each key only changes its own
entry, so it is modelled pointwise. The store is the function `store` that
`ReadStore::get` computes for the block. Not modelled: the write capacity check
of `set` (the weight of entities), the schema validation of `set` (which reads
the entity back but changes nothing `get` answers), `load_related`, `extend`,
`as_modifications` and the eviction of `current`.

The main result, `GraphNode.EntityCache.get_after_run`: `get` after any
successful run of operations from a fresh cache agrees, up to the version id
and `Null` attributes, with applying to the store exactly the changes that were
not made inside a handler that was then discarded; and discarding a handler
restores the block's changes, and every answer of `get`, as they were when it
was entered. The proof is a simulation: `GraphNode.EntityCache.Follows` relates
the two layers of the cache to the reference, each operation keeps it, and the
run lemma `GraphNode.EntityCache.Follows.runCalls` carries it along a run.
-/

namespace GraphNode

/-- `SeqGenerator`: the version ids of the block, the block number in the upper
32 bits and a sequence number in the lower ones. -/
structure SeqGenerator where
  block : BlockNumber
  vidSeq : UInt32

/-- `RESERVED_VIDS`: the sequence numbers kept for version ids made elsewhere. -/
def RESERVED_VIDS : UInt32 := 100

/-- `SeqGenerator::new`. -/
def SeqGenerator.new (block : BlockNumber) : SeqGenerator := ⟨block, RESERVED_VIDS⟩

/-- `SeqGenerator::vid`: the next version id, and the generator after it. -/
def SeqGenerator.vid (g : SeqGenerator) : Int × SeqGenerator :=
  (g.block * 2 ^ 32 + g.vidSeq.toNat, { g with vidSeq := g.vidSeq + 1 })

/-- `EntityOperation`: a change handed to `EntityCache::append`. -/
inductive EntityOperation where
  | set (key : EntityKey) (data : Entity)
  | remove (key : EntityKey)

/-- `GetScope`: read the entity from the store and the block's changes, or only
from the block's changes. -/
inductive GetScope where
  | store
  | inBlock

namespace EntityCache

/-- The cache's `EntityOp`: the change accumulated for one key. An `update`
merges attributes into the entity; an `overwrite` replaces it. -/
inductive EntityOp where
  | remove
  | update (entity : Entity)
  | overwrite (entity : Entity)

namespace EntityOp

/-- `EntityOp::apply_to`: the entity after the change. An update of an absent
entity is the update itself. -/
def applyTo : EntityOp → Option Entity → Option Entity
  | .remove, _ => none
  | .overwrite new, _ | .update new, none => some new
  | .update changes, some entity => some (entity.mergeRemoveNullFields changes).1

/-- `EntityOp::accumulate`: the change `self` followed by `next`. A remove or an
overwrite replaces what was there; an update merges into it, and after a remove
becomes an overwrite. -/
def accumulate (self next : EntityOp) : EntityOp :=
  match next with
  | .remove | .overwrite _ => next
  | .update changes =>
    match self with
    | .remove => .overwrite changes
    | .update current => .update (current.merge changes)
    | .overwrite current => .overwrite (current.merge changes)

/-- `updates.entry(key)` in `entity_op`: a vacant entry takes the change, an
occupied one accumulates it. -/
def entry (current : Option EntityOp) (op : EntityOp) : EntityOp :=
  match current with
  | none => op
  | some current => current.accumulate op

/-- The entity after an optional change. -/
def applyOpt : Option EntityOp → Option Entity → Option Entity
  | none, entity => entity
  | some op, entity => op.applyTo entity

end EntityOp

/-- Errors of the cache's operations. -/
inductive CacheError where
  /-- `assert!(self.in_handler)` or `assert!(!self.in_handler)` failed: the
  operation panics. -/
  | handlerAssertion
  /-- `"VID: {ovid} of entity: {entity_type} with ID: {id} was already present when
  set in EntityCache"` -/
  | vidPresent (ovid : Value) (entityType : EntityType)

end EntityCache

open EntityCache

/-- `EntityCache`: the store's entities read so far (`some none` for a key the
store does not have), the changes of the block, the changes of the running
handler, whether a handler runs, and the version id generator. -/
structure EntityCache where
  current : EntityKey → Option (Option Entity)
  updates : EntityKey → Option EntityCache.EntityOp
  handlerUpdates : EntityKey → Option EntityCache.EntityOp
  inHandler : Bool
  seqGen : SeqGenerator

namespace EntityCache

/-- `EntityCache::with_current`: a cache for a new block, seeded with the
entities read in earlier blocks. -/
def withCurrent (current : EntityKey → Option (Option Entity)) (seqGen : SeqGenerator) :
    EntityCache :=
  ⟨current, fun _ => none, fun _ => none, false, seqGen⟩

/-- `EntityCache::enter_handler`. -/
def enterHandler (c : EntityCache) : Except CacheError EntityCache :=
  if c.inHandler then .error .handlerAssertion else .ok { c with inHandler := true }

/-- `EntityCache::exit_handler`: the changes of the handler are accumulated into
those of the block. -/
def exitHandler (c : EntityCache) : Except CacheError EntityCache :=
  if !c.inHandler then .error .handlerAssertion
  else
    .ok { c with
      inHandler := false
      updates := fun key =>
        match c.handlerUpdates key with
        | none => c.updates key
        | some op => some (EntityOp.entry (c.updates key) op)
      handlerUpdates := fun _ => none }

/-- `EntityCache::exit_handler_and_discard_changes`. -/
def exitHandlerAndDiscardChanges (c : EntityCache) : Except CacheError EntityCache :=
  if !c.inHandler then .error .handlerAssertion
  else .ok { c with inHandler := false, handlerUpdates := fun _ => none }

/-- `EntityCache::get`: the store's entity (read once and remembered), or none in
the block scope, with the block's change and then the handler's applied. -/
def get (c : EntityCache) (store : EntityKey → Option Entity) (key : EntityKey)
    (scope : GetScope) : Option Entity × EntityCache :=
  let (entity, c) : Option Entity × EntityCache :=
    match scope with
    | .store =>
      match c.current key with
      | some entity => (entity, c)
      | none => (store key, { c with current := Function.update c.current key (some (store key)) })
    | .inBlock => (none, c)
  (EntityOp.applyOpt (c.handlerUpdates key) (EntityOp.applyOpt (c.updates key) entity), c)

/-- `EntityCache::entity_op`: record a change in the layer of the handler if one
runs, of the block otherwise. -/
def entityOp (c : EntityCache) (key : EntityKey) (op : EntityOp) : EntityCache :=
  if c.inHandler then
    { c with handlerUpdates :=
        Function.update c.handlerUpdates key (some (EntityOp.entry (c.handlerUpdates key) op)) }
  else
    { c with updates := Function.update c.updates key (some (EntityOp.entry (c.updates key) op)) }

/-- `EntityCache::remove`. -/
def remove (c : EntityCache) (key : EntityKey) : EntityCache := c.entityOp key .remove

/-- `EntityCache::set`: the entity gets the next version id, which it must not
have had, and is recorded as an update. -/
def set (c : EntityCache) (key : EntityKey) (entity : Entity) : Except CacheError EntityCache :=
  let (vid, seqGen) := c.seqGen.vid
  match entity.get VID_FIELD with
  | some ovid => .error (.vidPresent ovid key.entityType)
  | none => .ok ({ c with seqGen }.entityOp key (.update (entity.insert VID_FIELD (.int8 vid))))

/-- The change of an `EntityOperation`, as `append` records it. -/
def EntityOperation.toOp : EntityOperation → EntityKey × EntityOp
  | .set key data => (key, .update data)
  | .remove key => (key, .remove)

/-- `EntityCache::append`: record changes made outside any handler. -/
def append (c : EntityCache) (operations : List EntityOperation) : Except CacheError EntityCache :=
  if c.inHandler then .error .handlerAssertion
  else .ok (operations.foldl (fun c operation =>
    let (key, op) := EntityOperation.toOp operation
    c.entityOp key op) c)

/-! ### Runs of operations -/

/-- A call of the cache's interface. -/
inductive Call where
  | get (key : EntityKey) (scope : GetScope)
  | set (key : EntityKey) (entity : Entity)
  | remove (key : EntityKey)
  | enterHandler
  | exitHandler
  | exitHandlerAndDiscardChanges
  | append (operations : List EntityOperation)

/-- One call, against the store `store`; a `get` keeps only what it remembers. -/
def Call.run (store : EntityKey → Option Entity) (c : EntityCache) :
    Call → Except CacheError EntityCache
  | .get key scope => .ok (c.get store key scope).2
  | .set key entity => c.set key entity
  | .remove key => .ok (c.remove key)
  | .enterHandler => c.enterHandler
  | .exitHandler => c.exitHandler
  | .exitHandlerAndDiscardChanges => c.exitHandlerAndDiscardChanges
  | .append operations => c.append operations

/-- The calls one after the other, stopping at the first error. -/
def runCalls (store : EntityKey → Option Entity) :
    EntityCache → List Call → Except CacheError EntityCache
  | c, [] => .ok c
  | c, call :: calls =>
    match call.run store c with
    | .error e => .error e
    | .ok c => runCalls store c calls

/-! ### The reference: the changes applied to the store -/

/-- What a set leaves of an entity: the attributes of `data` merged in, the ones
it sets to `Null` deleted. -/
def setValue (old : Option Entity) (data : Entity) : Entity :=
  match old with
  | none => data.removeNullFields
  | some entity => (entity.mergeRemoveNullFields data).1

/-- A change applied to the entities of the store. -/
def applyChange (S : EntityKey → Option Entity) : EntityOperation → EntityKey → Option Entity
  | .set key data => Function.update S key (some (setValue (S key) data))
  | .remove key => Function.update S key none

/-- The changes of a run that stay, in order: those made outside a handler at
once, those of a handler when it exits or when the run ends inside it; the
changes of a discarded handler are dropped. `handler` holds the changes of the
running handler. -/
def keptChanges : Option (List EntityOperation) → List Call → List EntityOperation
  | handler, [] => handler.getD []
  | handler, .get _ _ :: calls => keptChanges handler calls
  | none, .set key data :: calls => .set key data :: keptChanges none calls
  | some buf, .set key data :: calls => keptChanges (some (buf ++ [.set key data])) calls
  | none, .remove key :: calls => .remove key :: keptChanges none calls
  | some buf, .remove key :: calls => keptChanges (some (buf ++ [.remove key])) calls
  | _, .enterHandler :: calls => keptChanges (some []) calls
  | handler, .exitHandler :: calls => handler.getD [] ++ keptChanges none calls
  | _, .exitHandlerAndDiscardChanges :: calls => keptChanges none calls
  | handler, .append operations :: calls => operations ++ keptChanges handler calls

/-! ### Agreement up to the version id and `Null` attributes -/

/-- Two optional entities agree up to the version id and `Null` attributes. -/
def OptEqUpTo : Option Entity → Option Entity → Prop
  | none, none => True
  | some e, some e' => Entity.EqUpTo e e'
  | _, _ => False

theorem OptEqUpTo.refl : ∀ x : Option Entity, OptEqUpTo x x
  | none => trivial
  | some e => Entity.EqUpTo.refl e

theorem OptEqUpTo.trans {x y z : Option Entity} (h : OptEqUpTo x y) (h' : OptEqUpTo y z) :
    OptEqUpTo x z := by
  cases x <;> cases y <;> cases z <;> simp only [OptEqUpTo] at h h' ⊢
  exact h.trans h'

/-- Two states of the store agree on every key. -/
def Agrees (f g : EntityKey → Option Entity) : Prop := ∀ key, OptEqUpTo (f key) (g key)

theorem Agrees.trans {f g h : EntityKey → Option Entity} (hfg : Agrees f g) (hgh : Agrees g h) :
    Agrees f h :=
  fun key => (hfg key).trans (hgh key)

namespace EntityOp

/-- A change keeps the agreement of two entities. -/
theorem applyTo_congr (op : EntityOp) {x y : Option Entity} (h : OptEqUpTo x y) :
    OptEqUpTo (op.applyTo x) (op.applyTo y) := by
  cases op with
  | remove => trivial
  | overwrite new => exact OptEqUpTo.refl _
  | update changes =>
    cases x <;> cases y <;> simp only [OptEqUpTo] at h
    · exact OptEqUpTo.refl _
    · exact h.mergeRemoveNullFields changes

/-- **`accumulate` is the two changes one after the other**, up to `Null`
attributes. -/
theorem applyTo_accumulate (op next : EntityOp) (x : Option Entity) :
    OptEqUpTo ((op.accumulate next).applyTo x) (next.applyTo (op.applyTo x)) := by
  cases next with
  | remove => trivial
  | overwrite new => exact OptEqUpTo.refl _
  | update changes =>
    cases op with
    | remove => exact OptEqUpTo.refl _
    | update current =>
      cases x with
      | none => exact Entity.eqUpTo_merge_mergeRemoveNullFields current changes
      | some entity =>
        exact Entity.EqUpTo.of_get_eq
          (Entity.get_mergeRemoveNullFields_merge entity current changes)
    | overwrite current => exact Entity.eqUpTo_merge_mergeRemoveNullFields current changes

theorem applyTo_entry (current : Option EntityOp) (op : EntityOp) (x : Option Entity) :
    OptEqUpTo ((entry current op).applyTo x) (op.applyTo (applyOpt current x)) := by
  cases current with
  | none => exact OptEqUpTo.refl _
  | some current => exact applyTo_accumulate current op x

end EntityOp

/-- The change `op` of the cache does to `key` what `change` does in the
reference: a set with the same attributes but the version id, or a remove. -/
def SameChange (key : EntityKey) (op : EntityOp) : EntityOperation → Prop
  | .set key' data =>
    key' = key ∧ ∃ data', op = .update data' ∧ ∀ k, k ≠ VID_FIELD → data'.get k = data.get k
  | .remove key' => key' = key ∧ op = .remove

theorem sameChange_toOp (operation : EntityOperation) :
    SameChange (EntityOperation.toOp operation).1 (EntityOperation.toOp operation).2 operation := by
  cases operation with
  | set key data => exact ⟨rfl, data, rfl, fun _ _ => rfl⟩
  | remove key => exact ⟨rfl, rfl⟩

theorem applyChange_of_ne {key k : EntityKey} {op : EntityOp} {change : EntityOperation}
    (hsame : SameChange key op change) (hk : k ≠ key) (S : EntityKey → Option Entity) :
    applyChange S change k = S k := by
  cases change with
  | set key' data =>
    obtain ⟨rfl, -⟩ := hsame
    exact Function.update_of_ne hk _ _
  | remove key' =>
    obtain ⟨rfl, -⟩ := hsame
    exact Function.update_of_ne hk _ _

/-- The change of the cache, on an entity that agrees with the reference's, leaves
what the reference's change leaves. -/
theorem applyChange_self {key : EntityKey} {op : EntityOp} {change : EntityOperation}
    (hsame : SameChange key op change) {S : EntityKey → Option Entity} {x : Option Entity}
    (hx : OptEqUpTo x (S key)) : OptEqUpTo (op.applyTo x) (applyChange S change key) := by
  cases change with
  | set key' data =>
    obtain ⟨rfl, data', rfl, hdata⟩ := hsame
    rw [applyChange, Function.update_self]
    cases x <;> cases hS : S key' <;> rw [hS] at hx <;> simp only [OptEqUpTo] at hx
    · -- a new entity: the update itself, with its `Null` attributes
      intro k hk
      rw [setValue, Entity.get_removeNullFields, Entity.nonNull_nonNull, hdata k hk]
    · intro k hk
      rw [setValue, Entity.get_mergeRemoveNullFields, Entity.get_mergeRemoveNullFields,
        Entity.nonNull_mergeNullValue, Entity.nonNull_mergeNullValue, hdata k hk, hx k hk]
  | remove key' =>
    obtain ⟨rfl, rfl⟩ := hsame
    rw [applyChange, Function.update_self]
    trivial

/-! ### The layers of the cache -/

/-- A layer of changes over the entities `base`. -/
def overlay (layer : EntityKey → Option EntityOp) (base : EntityKey → Option Entity) :
    EntityKey → Option Entity :=
  fun key => EntityOp.applyOpt (layer key) (base key)

/-- The block's changes over the store. -/
def committed (c : EntityCache) (store : EntityKey → Option Entity) : EntityKey → Option Entity :=
  overlay c.updates store

/-- The handler's changes over those of the block: what `get` answers. -/
def visible (c : EntityCache) (store : EntityKey → Option Entity) : EntityKey → Option Entity :=
  overlay c.handlerUpdates (c.committed store)

@[simp] theorem overlay_none (base : EntityKey → Option Entity) :
    overlay (fun _ => none) base = base := rfl

/-- **Recording a change in a layer** does to the layer's view what the change
does in the reference. -/
theorem Agrees.upsert {layer : EntityKey → Option EntityOp} {base S : EntityKey → Option Entity}
    (h : Agrees (overlay layer base) S) {key : EntityKey} {op : EntityOp} {change : EntityOperation}
    (hsame : SameChange key op change) :
    Agrees (overlay (Function.update layer key (some (EntityOp.entry (layer key) op))) base)
      (applyChange S change) := by
  intro k
  by_cases hk : k = key
  · subst hk
    have hentry := EntityOp.applyTo_entry (layer k) op (base k)
    simp only [overlay, Function.update_self, EntityOp.applyOpt]
    exact hentry.trans (applyChange_self hsame (h k))
  · simp only [overlay, Function.update_of_ne hk]
    rw [applyChange_of_ne hsame hk]
    exact h k

/-! ### The cache follows the reference -/

/-- The cache follows the reference state `S` of the changes kept so far, with
`handler` the changes of the running handler, if one runs. -/
structure Follows (store : EntityKey → Option Entity) (c : EntityCache)
    (S : EntityKey → Option Entity) (handler : Option (List EntityOperation)) : Prop where
  inHandler_eq : c.inHandler = handler.isSome
  idle : handler = none → c.handlerUpdates = fun _ => none
  agrees_committed : Agrees (c.committed store) S
  agrees_visible : Agrees (c.visible store) ((handler.getD []).foldl applyChange S)

/-- Where the reference records a change: at once outside a handler, after the
handler's changes inside one. -/
def record (S : EntityKey → Option Entity) (handler : Option (List EntityOperation))
    (change : EntityOperation) : (EntityKey → Option Entity) × Option (List EntityOperation) :=
  match handler with
  | none => (applyChange S change, none)
  | some buf => (S, some (buf ++ [change]))

section Follows

variable {store : EntityKey → Option Entity} {c c₁ : EntityCache} {S : EntityKey → Option Entity}
  {handler : Option (List EntityOperation)}

theorem Follows.fresh (current : EntityKey → Option (Option Entity)) (seqGen : SeqGenerator) :
    Follows store (withCurrent current seqGen) store none :=
  ⟨rfl, fun _ => rfl, fun _ => OptEqUpTo.refl _, fun _ => OptEqUpTo.refl _⟩

theorem Follows.withSeqGen (h : Follows store c S handler) (seqGen : SeqGenerator) :
    Follows store { c with seqGen } S handler :=
  ⟨h.inHandler_eq, h.idle, h.agrees_committed, h.agrees_visible⟩

/-- **A recorded change** moves the cache along the reference. -/
theorem Follows.entityOp (h : Follows store c S handler) {key : EntityKey} {op : EntityOp}
    {change : EntityOperation} (hsame : SameChange key op change) :
    Follows store (c.entityOp key op) (record S handler change).1 (record S handler change).2 := by
  cases handler with
  | none =>
    -- outside a handler the change goes to the block's layer
    have hin : c.inHandler = false := h.inHandler_eq
    have hcommitted := h.agrees_committed.upsert hsame
    rw [EntityCache.entityOp, if_neg (by simp [hin])]
    refine ⟨hin, fun _ => h.idle rfl, hcommitted, ?_⟩
    show Agrees (overlay c.handlerUpdates (overlay _ store)) _
    rw [h.idle rfl]
    exact hcommitted
  | some buf =>
    -- inside one, to the handler's layer, after the handler's changes
    have hin : c.inHandler = true := h.inHandler_eq
    have hvisible := h.agrees_visible.upsert hsame
    rw [EntityCache.entityOp, if_pos hin]
    refine ⟨hin, fun hn => absurd hn (by simp [record]), h.agrees_committed, ?_⟩
    show Agrees (overlay _ (c.committed store)) _
    simpa only [record, Option.getD_some, List.foldl_append, List.foldl_cons, List.foldl_nil]
      using hvisible

theorem Follows.set (h : Follows store c S handler) {key : EntityKey} {entity : Entity}
    (hset : c.set key entity = .ok c₁) :
    Follows store c₁ (record S handler (.set key entity)).1
      (record S handler (.set key entity)).2 := by
  unfold EntityCache.set at hset
  generalize c.seqGen.vid = next at hset
  obtain ⟨vid, seqGen⟩ := next
  cases hvid : entity.get VID_FIELD with
  | some ovid => simp [hvid] at hset
  | none =>
    simp only [hvid, Except.ok.injEq] at hset
    subst hset
    -- the version id is the only attribute the recorded update adds
    refine (h.withSeqGen seqGen).entityOp ⟨rfl, _, rfl, fun k hk => ?_⟩
    simp [Entity.get_insert, hk]

theorem Follows.remove (h : Follows store c S handler) (key : EntityKey) :
    Follows store (c.remove key) (record S handler (.remove key)).1
      (record S handler (.remove key)).2 :=
  h.entityOp ⟨rfl, rfl⟩

/-- `get` only remembers what it read from the store. -/
theorem get_snd (c : EntityCache) (store : EntityKey → Option Entity) (key : EntityKey)
    (scope : GetScope) : ∃ current, (c.get store key scope).2 = { c with current } := by
  unfold EntityCache.get
  cases scope with
  | store =>
    cases c.current key with
    | some entity => exact ⟨c.current, rfl⟩
    | none => exact ⟨_, rfl⟩
  | inBlock => exact ⟨c.current, rfl⟩

theorem Follows.get (h : Follows store c S handler) (key : EntityKey) (scope : GetScope) :
    Follows store (c.get store key scope).2 S handler := by
  obtain ⟨current, hc⟩ := get_snd c store key scope
  rw [hc]
  exact ⟨h.inHandler_eq, h.idle, h.agrees_committed, h.agrees_visible⟩

theorem Follows.enterHandler (h : Follows store c S handler) (henter : c.enterHandler = .ok c₁) :
    handler = none ∧ Follows store c₁ S (some []) := by
  unfold EntityCache.enterHandler at henter
  cases handler with
  | some buf => simp [h.inHandler_eq] at henter
  | none =>
    have hin : c.inHandler = false := h.inHandler_eq
    simp only [hin, Bool.false_eq_true, if_false, Except.ok.injEq] at henter
    subst henter
    refine ⟨rfl, rfl, fun hn => absurd hn (by simp), h.agrees_committed, ?_⟩
    show Agrees (overlay c.handlerUpdates (c.committed store)) S
    rw [h.idle rfl]
    exact h.agrees_committed

theorem Follows.exitHandler (h : Follows store c S handler) (hexit : c.exitHandler = .ok c₁) :
    ∃ buf, handler = some buf ∧ Follows store c₁ (buf.foldl applyChange S) none := by
  unfold EntityCache.exitHandler at hexit
  cases handler with
  | none => simp [h.inHandler_eq] at hexit
  | some buf =>
    have hin : c.inHandler = true := h.inHandler_eq
    simp only [hin, Bool.not_true, Bool.false_eq_true, if_false, Except.ok.injEq] at hexit
    subst hexit
    -- the handler's changes, accumulated into the block's, leave what they left on top
    have hcommitted : Agrees (overlay (fun key =>
        match c.handlerUpdates key with
        | none => c.updates key
        | some op => some (EntityOp.entry (c.updates key) op)) store) (c.visible store) := by
      intro key
      simp only [overlay, visible, committed]
      cases c.handlerUpdates key with
      | none => exact OptEqUpTo.refl _
      | some op => exact EntityOp.applyTo_entry (c.updates key) op (store key)
    have hfold := hcommitted.trans h.agrees_visible
    exact ⟨buf, rfl, rfl, fun _ => rfl, hfold, hfold⟩

theorem Follows.exitHandlerAndDiscardChanges (h : Follows store c S handler)
    (hexit : c.exitHandlerAndDiscardChanges = .ok c₁) :
    (∃ buf, handler = some buf) ∧ Follows store c₁ S none := by
  unfold EntityCache.exitHandlerAndDiscardChanges at hexit
  cases handler with
  | none => simp [h.inHandler_eq] at hexit
  | some buf =>
    have hin : c.inHandler = true := h.inHandler_eq
    simp only [hin, Bool.not_true, Bool.false_eq_true, if_false, Except.ok.injEq] at hexit
    subst hexit
    exact ⟨⟨buf, rfl⟩, rfl, fun _ => rfl, h.agrees_committed, h.agrees_committed⟩

theorem Follows.foldl_entityOp (operations : List EntityOperation) :
    ∀ {c : EntityCache} {S : EntityKey → Option Entity}, Follows store c S none →
      Follows store (operations.foldl (fun c operation =>
        (c.entityOp (EntityOperation.toOp operation).1 (EntityOperation.toOp operation).2)) c)
        (operations.foldl applyChange S) none := by
  induction operations with
  | nil => exact fun h => h
  | cons operation operations ih =>
    intro c S h
    exact ih (h.entityOp (sameChange_toOp operation))

theorem Follows.append (h : Follows store c S handler) {operations : List EntityOperation}
    (happ : c.append operations = .ok c₁) :
    handler = none ∧ Follows store c₁ (operations.foldl applyChange S) none := by
  unfold EntityCache.append at happ
  cases handler with
  | some buf => simp [h.inHandler_eq] at happ
  | none =>
    have hin : c.inHandler = false := h.inHandler_eq
    simp only [hin, Bool.false_eq_true, if_false, Except.ok.injEq] at happ
    subst happ
    exact ⟨rfl, Follows.foldl_entityOp operations h⟩

/-- **The run lemma**: along a successful run the cache keeps following the
reference, which applies the changes `keptChanges` keeps. The induction is on
the calls; each case is the lemma of its operation. -/
theorem Follows.runCalls : ∀ {calls : List Call} {c c' : EntityCache}
    {S : EntityKey → Option Entity} {handler : Option (List EntityOperation)},
    Follows store c S handler → runCalls store c calls = .ok c' →
    ∃ S' handler', Follows store c' S' handler' ∧
      (keptChanges handler calls).foldl applyChange S = (handler'.getD []).foldl applyChange S'
  | [], c, c', S, handler, h, hrun => by
    simp only [EntityCache.runCalls, Except.ok.injEq] at hrun
    subst hrun
    exact ⟨S, handler, h, rfl⟩
  | call :: calls, c, c', S, handler, h, hrun => by
    simp only [EntityCache.runCalls] at hrun
    rcases hc : call.run store c with e | c₁
    · rw [hc] at hrun
      cases hrun
    rw [hc] at hrun
    simp only at hrun
    cases call with
    | get key scope =>
      simp only [Call.run, Except.ok.injEq] at hc
      subst hc
      have hnext := Follows.runCalls (h.get key scope) hrun
      exact hnext
    | set key entity =>
      obtain ⟨S', handler', h', heq⟩ := Follows.runCalls (h.set hc) hrun
      refine ⟨S', handler', h', ?_⟩
      rw [← heq]
      cases handler <;> rfl
    | remove key =>
      simp only [Call.run, Except.ok.injEq] at hc
      subst hc
      obtain ⟨S', handler', h', heq⟩ := Follows.runCalls (h.remove key) hrun
      refine ⟨S', handler', h', ?_⟩
      rw [← heq]
      cases handler <;> rfl
    | enterHandler =>
      obtain ⟨rfl, h₁⟩ := h.enterHandler hc
      have hnext := Follows.runCalls h₁ hrun
      exact hnext
    | exitHandler =>
      -- the handler's changes are kept, before those of the rest of the run
      obtain ⟨buf, rfl, h₁⟩ := h.exitHandler hc
      obtain ⟨S', handler', h', heq⟩ := Follows.runCalls h₁ hrun
      refine ⟨S', handler', h', ?_⟩
      rw [← heq, keptChanges, Option.getD_some, List.foldl_append]
    | exitHandlerAndDiscardChanges =>
      obtain ⟨⟨buf, rfl⟩, h₁⟩ := h.exitHandlerAndDiscardChanges hc
      have hnext := Follows.runCalls h₁ hrun
      exact hnext
    | append operations =>
      obtain ⟨rfl, h₁⟩ := h.append hc
      obtain ⟨S', handler', h', heq⟩ := Follows.runCalls h₁ hrun
      refine ⟨S', handler', h', ?_⟩
      rw [← heq, keptChanges, List.foldl_append]

end Follows

/-! ### What `get` reads from the store -/

/-- What the cache remembers of the store is what the store has. -/
def Consistent (store : EntityKey → Option Entity) (c : EntityCache) : Prop :=
  ∀ key entity, c.current key = some entity → entity = store key

section Consistent

variable {store : EntityKey → Option Entity} {c c₁ : EntityCache}

theorem current_entityOp (c : EntityCache) (key : EntityKey) (op : EntityOp) :
    (c.entityOp key op).current = c.current := by
  unfold EntityCache.entityOp
  split <;> rfl

theorem current_foldl_entityOp (operations : List EntityOperation) :
    ∀ c : EntityCache,
      (operations.foldl
        (fun c operation =>
          (c.entityOp (EntityOperation.toOp operation).1 (EntityOperation.toOp operation).2))
        c).current = c.current := by
  induction operations with
  | nil => exact fun _ => rfl
  | cons operation operations ih =>
    intro c
    rw [List.foldl_cons, ih, current_entityOp]

theorem Consistent.get (h : Consistent store c) (key : EntityKey) (scope : GetScope) :
    Consistent store (c.get store key scope).2 := by
  unfold EntityCache.get
  cases scope with
  | store =>
    cases hc : c.current key with
    | some entity => exact h
    | none =>
      show Consistent store { c with current := Function.update c.current key (some (store key)) }
      intro k entity hk
      by_cases hkey : k = key
      · subst hkey
        simp only [Function.update_self, Option.some.injEq] at hk
        exact hk.symm
      · simp only [Function.update_of_ne hkey] at hk
        exact h k entity hk
  | inBlock => exact h

/-- Only `get` changes what the cache remembers of the store. -/
theorem Consistent.run (h : Consistent store c) {call : Call} (hrun : call.run store c = .ok c₁) :
    Consistent store c₁ := by
  cases call with
  | get key scope =>
    simp only [Call.run, Except.ok.injEq] at hrun
    exact hrun ▸ h.get key scope
  | set key entity =>
    simp only [Call.run, EntityCache.set] at hrun
    generalize c.seqGen.vid = next at hrun
    obtain ⟨vid, seqGen⟩ := next
    cases hvid : entity.get VID_FIELD with
    | some ovid => simp [hvid] at hrun
    | none =>
      simp only [hvid, Except.ok.injEq] at hrun
      subst hrun
      intro key' entity' hk
      exact h key' entity' (by rwa [current_entityOp] at hk)
  | remove key =>
    simp only [Call.run, Except.ok.injEq] at hrun
    subst hrun
    intro key' entity' hk
    exact h key' entity' (by rwa [EntityCache.remove, current_entityOp] at hk)
  | enterHandler =>
    simp only [Call.run, EntityCache.enterHandler] at hrun
    split at hrun
    · cases hrun
    · simp only [Except.ok.injEq] at hrun
      exact hrun ▸ h
  | exitHandler =>
    simp only [Call.run, EntityCache.exitHandler] at hrun
    split at hrun
    · cases hrun
    · simp only [Except.ok.injEq] at hrun
      exact hrun ▸ h
  | exitHandlerAndDiscardChanges =>
    simp only [Call.run, EntityCache.exitHandlerAndDiscardChanges] at hrun
    split at hrun
    · cases hrun
    · simp only [Except.ok.injEq] at hrun
      exact hrun ▸ h
  | append operations =>
    simp only [Call.run, EntityCache.append] at hrun
    split at hrun
    · cases hrun
    · simp only [Except.ok.injEq] at hrun
      subst hrun
      intro key' entity' hk
      exact h key' entity' (by rwa [current_foldl_entityOp] at hk)

theorem Consistent.runCalls : ∀ {calls : List Call} {c c₁ : EntityCache}, Consistent store c →
    runCalls store c calls = .ok c₁ → Consistent store c₁
  | [], c, c₁, h, hrun => by
    simp only [EntityCache.runCalls, Except.ok.injEq] at hrun
    exact hrun ▸ h
  | call :: calls, c, c₁, h, hrun => by
    simp only [EntityCache.runCalls] at hrun
    rcases hc : call.run store c with e | c₂
    · rw [hc] at hrun
      cases hrun
    · rw [hc] at hrun
      exact Consistent.runCalls (h.run hc) hrun

/-- In the store scope, `get` answers the handler's changes over the block's over
the store. -/
theorem get_store (h : Consistent store c) (key : EntityKey) :
    (c.get store key .store).1 = c.visible store key := by
  unfold EntityCache.get
  cases hc : c.current key with
  | none => rfl
  | some entity =>
    rw [h key entity hc]
    rfl

/-- What `get` answers depends on the two layers only. -/
theorem get_fst_congr {c' : EntityCache} (h : Consistent store c) (h' : Consistent store c')
    (hupdates : c'.updates = c.updates) (hhandler : c'.handlerUpdates = c.handlerUpdates)
    (key : EntityKey) (scope : GetScope) :
    (c'.get store key scope).1 = (c.get store key scope).1 := by
  cases scope with
  | store =>
    rw [get_store h, get_store h', visible, visible, committed, committed, hupdates, hhandler]
  | inBlock =>
    show EntityOp.applyOpt (c'.handlerUpdates key) (EntityOp.applyOpt (c'.updates key) none) =
      EntityOp.applyOpt (c.handlerUpdates key) (EntityOp.applyOpt (c.updates key) none)
    rw [hupdates, hhandler]

end Consistent

/-! ### Discarding a handler -/

/-- Whether a call enters or leaves a handler. -/
def Call.isHandlerCall : Call → Bool
  | .enterHandler | .exitHandler | .exitHandlerAndDiscardChanges => true
  | _ => false

section Discard

variable {store : EntityKey → Option Entity} {c c₁ : EntityCache}

/-- Inside a handler, a call that does not leave it leaves the block's changes alone. -/
theorem updates_run_inHandler (hin : c.inHandler = true) {call : Call}
    (hcall : call.isHandlerCall = false) (hrun : call.run store c = .ok c₁) :
    c₁.updates = c.updates ∧ c₁.inHandler = true := by
  cases call with
  | get key scope =>
    simp only [Call.run, Except.ok.injEq] at hrun
    obtain ⟨current, hc⟩ := get_snd c store key scope
    rw [← hrun, hc]
    exact ⟨rfl, hin⟩
  | set key entity =>
    simp only [Call.run, EntityCache.set] at hrun
    generalize c.seqGen.vid = next at hrun
    obtain ⟨vid, seqGen⟩ := next
    cases hvid : entity.get VID_FIELD with
    | some ovid => simp [hvid] at hrun
    | none =>
      simp only [hvid, Except.ok.injEq] at hrun
      subst hrun
      rw [EntityCache.entityOp, if_pos hin]
      exact ⟨rfl, hin⟩
  | remove key =>
    simp only [Call.run, Except.ok.injEq] at hrun
    subst hrun
    rw [EntityCache.remove, EntityCache.entityOp, if_pos hin]
    exact ⟨rfl, hin⟩
  | append operations =>
    simp [Call.run, EntityCache.append, hin] at hrun
  | enterHandler | exitHandler | exitHandlerAndDiscardChanges => simp [Call.isHandlerCall] at hcall

theorem updates_runCalls_inHandler : ∀ {inner : List Call} {c c₁ : EntityCache},
    c.inHandler = true → (∀ call ∈ inner, call.isHandlerCall = false) →
    runCalls store c inner = .ok c₁ → c₁.updates = c.updates ∧ c₁.inHandler = true
  | [], c, c₁, hin, _, hrun => by
    simp only [EntityCache.runCalls, Except.ok.injEq] at hrun
    exact hrun ▸ ⟨rfl, hin⟩
  | call :: inner, c, c₁, hin, hinner, hrun => by
    simp only [EntityCache.runCalls] at hrun
    rcases hc : call.run store c with e | c₂
    · rw [hc] at hrun
      cases hrun
    · rw [hc] at hrun
      obtain ⟨hu₂, hin₂⟩ := updates_run_inHandler hin (hinner call List.mem_cons_self) hc
      obtain ⟨hu₁, hin₁⟩ :=
        updates_runCalls_inHandler hin₂ (fun call' h' => hinner call' (.tail _ h'))
        hrun
      exact ⟨hu₁.trans hu₂, hin₁⟩

theorem runCalls_append (c : EntityCache) (calls calls' : List Call) :
    runCalls store c (calls ++ calls') =
      match runCalls store c calls with
      | .error e => .error e
      | .ok c => runCalls store c calls' := by
  induction calls generalizing c with
  | nil => rfl
  | cons call calls ih =>
    simp only [List.cons_append, EntityCache.runCalls]
    cases call.run store c with
    | error e => rfl
    | ok c₂ => exact ih c₂

/-- **Discarding a handler** leaves the block's changes as they were when it was
entered, and no changes of a handler. -/
theorem runCalls_discard (hin : c.inHandler = false) {inner : List Call}
    (hinner : ∀ call ∈ inner, call.isHandlerCall = false)
    (hrun : runCalls store c (.enterHandler :: inner ++ [.exitHandlerAndDiscardChanges]) = .ok c₁) :
    c₁.updates = c.updates ∧ c₁.handlerUpdates = fun _ => none := by
  rw [List.cons_append, EntityCache.runCalls] at hrun
  simp only [Call.run, EntityCache.enterHandler, hin, Bool.false_eq_true, if_false] at hrun
  rw [runCalls_append] at hrun
  rcases hmid : runCalls store { c with inHandler := true } inner with e | c₂
  · rw [hmid] at hrun
    cases hrun
  rw [hmid] at hrun
  obtain ⟨hu₂, hin₂⟩ := updates_runCalls_inHandler rfl hinner hmid
  simp only [EntityCache.runCalls, Call.run, EntityCache.exitHandlerAndDiscardChanges, hin₂,
    Bool.not_true, Bool.false_eq_true, if_false] at hrun
  simp only [Except.ok.injEq] at hrun
  subst hrun
  exact ⟨hu₂, rfl⟩

end Discard

/-- **The entity cache against the store.** From a fresh cache whose `current`
holds what the store has, after any successful run of operations: `get` in the
store scope answers, for every key, up to the version id and `Null` attributes,
what applying to the store in order the changes that were not made inside a
discarded handler leaves; and when no handler runs, entering a handler, calls
that do not leave it, and `exit_handler_and_discard_changes` leave the block's
changes and every answer of `get` as they were. -/
theorem get_after_run (store : EntityKey → Option Entity)
    (current : EntityKey → Option (Option Entity)) (seqGen : SeqGenerator)
    (hcurrent : ∀ key entity, current key = some entity → entity = store key) (calls : List Call)
    (c : EntityCache) (hrun : runCalls store (withCurrent current seqGen) calls = .ok c) :
    (∀ key, OptEqUpTo (c.get store key .store).1
      ((keptChanges none calls).foldl applyChange store key)) ∧
    (c.inHandler = false → ∀ (inner : List Call) (c' : EntityCache),
      (∀ call ∈ inner, call.isHandlerCall = false) →
      runCalls store c (.enterHandler :: inner ++ [.exitHandlerAndDiscardChanges]) = .ok c' →
      c'.updates = c.updates ∧
        ∀ key scope, (c'.get store key scope).1 = (c.get store key scope).1) := by
  have hcons : Consistent store c :=
    Consistent.runCalls (c := withCurrent current seqGen) hcurrent hrun
  obtain ⟨S', handler', hf, heq⟩ :=
    (Follows.fresh current seqGen : Follows store _ store none).runCalls hrun
  refine ⟨fun key => ?_, fun hin inner c' hinner hdiscard => ?_⟩
  · rw [get_store hcons, heq]
    exact hf.agrees_visible key
  · -- no handler runs, so the handler's layer is empty before and after
    have hnone : handler' = none := by
      cases handler' with
      | none => rfl
      | some buf => simp [hf.inHandler_eq] at hin
    obtain ⟨hupdates, hhandler⟩ := runCalls_discard hin hinner hdiscard
    refine ⟨hupdates, fun key scope =>
      get_fst_congr hcons (hcons.runCalls hdiscard) hupdates ?_ key scope⟩
    rw [hhandler, hf.idle hnone]

/-- A run that removes an entity the store does not have. -/
theorem get_after_run_remove :
    (∀ key, OptEqUpTo ((EntityCache.mk (fun _ => none)
        (Function.update (fun _ => none) ⟨⟨"Thing", false, false⟩, .string "a", .ONCHAIN⟩
          (some .remove)) (fun _ => none) false (SeqGenerator.new 1)).get (fun _ => none) key
          .store).1
      ((keptChanges none [.remove ⟨⟨"Thing", false, false⟩, .string "a", .ONCHAIN⟩]).foldl
        applyChange (fun _ => none) key)) ∧
    ((EntityCache.mk (fun _ => none)
        (Function.update (fun _ => none) ⟨⟨"Thing", false, false⟩, .string "a", .ONCHAIN⟩
          (some .remove)) (fun _ => none) false (SeqGenerator.new 1)).inHandler = false →
      ∀ (inner : List Call) (c' : EntityCache), (∀ call ∈ inner, call.isHandlerCall = false) →
      runCalls (fun _ => none) (EntityCache.mk (fun _ => none)
          (Function.update (fun _ => none) ⟨⟨"Thing", false, false⟩, .string "a", .ONCHAIN⟩
            (some .remove)) (fun _ => none) false (SeqGenerator.new 1))
          (.enterHandler :: inner ++ [.exitHandlerAndDiscardChanges]) = .ok c' →
      c'.updates = Function.update (fun _ => none) ⟨⟨"Thing", false, false⟩, .string "a", .ONCHAIN⟩
          (some .remove) ∧
        ∀ key scope, (c'.get (fun _ => none) key scope).1 = ((EntityCache.mk (fun _ => none)
          (Function.update (fun _ => none) ⟨⟨"Thing", false, false⟩, .string "a", .ONCHAIN⟩
            (some .remove)) (fun _ => none) false (SeqGenerator.new 1)).get (fun _ => none) key
              scope).1) :=
  get_after_run (fun _ => none) (fun _ => none) (SeqGenerator.new 1) (fun _ _ h => by cases h)
    [.remove ⟨⟨"Thing", false, false⟩, .string "a", .ONCHAIN⟩] _ rfl

end EntityCache

end GraphNode
