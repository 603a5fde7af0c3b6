import GraphNode.Store.EntityCache

/-!
# Accumulating the changes of a key

The cache keeps one `EntityOp` per key and folds every new change into it with
`EntityOp::accumulate`. Applying the accumulated change must do what applying the changes one
after the other does. This holds up to the version id and `Null` attributes (`OptEqUpTo`),
because `accumulate` merges with `Entity::merge`, which keeps `Null` values, while `apply_to`
merges with `merge_remove_null_fields`, which deletes them
(`GraphNode.EntityCache.EntityOp.applyTo_accumulate`).

Two further facts make the fold of a whole sequence sound. `accumulate` is associative, and
exactly so, up to the order of the attributes (`accumulate_assoc`). And recording a sequence
of changes in a layer of the cache leaves, for each key, what its own changes leave when
applied one by one (`applyOpt_foldl_recordOp`). This holds whether the changes go straight
into `updates` or first into `handler_updates`, which `exit_handler` then folds into `updates`
(`accumulate_sound`).
-/

namespace GraphNode

namespace EntityCache

namespace EntityOp

/-! ### Associativity -/

/-- Two changes of the same kind whose entities have the same attributes. -/
def Equiv : EntityOp → EntityOp → Prop
  | .remove, .remove => True
  | .update e, .update e' => ∀ k, e.get k = e'.get k
  | .overwrite e, .overwrite e' => ∀ k, e.get k = e'.get k
  | _, _ => False

theorem Equiv.refl : ∀ a : EntityOp, Equiv a a
  | .remove => trivial
  | .update _ => fun _ => rfl
  | .overwrite _ => fun _ => rfl

/-- Changes of the same kind with the same attributes do the same, up to `Null` attributes. -/
theorem applyTo_of_equiv {a b : EntityOp} (h : Equiv a b) (x : Option Entity) :
    OptEqUpTo (a.applyTo x) (b.applyTo x) := by
  cases a <;> cases b <;> simp only [Equiv] at h
  case remove.remove => trivial
  case overwrite.overwrite e e' => exact Entity.EqUpTo.of_get_eq h
  case update.update e e' =>
    cases x with
    | none => exact Entity.EqUpTo.of_get_eq h
    | some entity =>
      refine Entity.EqUpTo.of_get_eq fun k => ?_
      simp only [Entity.get_mergeRemoveNullFields, h k]

/-- `Entity::merge` is associative on the attributes. -/
theorem get_merge_assoc (x y z : Entity) (k : Word) :
    ((x.merge y).merge z).get k = (x.merge (y.merge z)).get k := by
  simp only [Entity.get_merge, Option.or_assoc]

/-- **`accumulate` is associative**, up to the order of the attributes. Where the last change
is no update it wins on both sides; otherwise the update is merged into what the first two
leave, which the case split on the middle change and then the first makes equal. -/
theorem accumulate_assoc (a b c : EntityOp) :
    Equiv ((a.accumulate b).accumulate c) (a.accumulate (b.accumulate c)) := by
  cases c with
  | remove => exact Equiv.refl _
  | overwrite _ => exact Equiv.refl _
  | update z =>
    cases b with
    | remove => exact Equiv.refl _
    | overwrite y => exact Equiv.refl _
    | update y =>
      cases a with
      | remove => exact Equiv.refl _
      | update x => exact get_merge_assoc x y z
      | overwrite x => exact get_merge_assoc x y z

/-! ### Folding the changes of a sequence -/

/-- Applying changes one after the other. -/
def applyAll (ops : List EntityOp) (x : Option Entity) : Option Entity :=
  ops.foldl (fun x op => op.applyTo x) x

@[simp] theorem applyAll_nil (x : Option Entity) : applyAll [] x = x := rfl

@[simp] theorem applyAll_cons (op : EntityOp) (ops : List EntityOp) (x : Option Entity) :
    applyAll (op :: ops) x = applyAll ops (op.applyTo x) := rfl

/-- Changes applied one after the other keep the agreement of two entities. -/
theorem applyAll_congr (ops : List EntityOp) {x y : Option Entity} (h : OptEqUpTo x y) :
    OptEqUpTo (applyAll ops x) (applyAll ops y) := by
  induction ops generalizing x y with
  | nil => exact h
  | cons op ops ih => exact ih (op.applyTo_congr h)

end EntityOp

open EntityOp

/-- What `entity_op` does to a layer of the cache: the change is accumulated into the entry of
its key. -/
def recordOp (layer : EntityKey → Option EntityOp) (key : EntityKey) (op : EntityOp) :
    EntityKey → Option EntityOp :=
  Function.update layer key (some (entry (layer key) op))

/-- The changes of `key` in a sequence of changes, in order. -/
def opsOf (key : EntityKey) (changes : List (EntityKey × EntityOp)) : List EntityOp :=
  (changes.filter fun p => p.1 = key).map (·.2)

@[simp] theorem opsOf_nil (key : EntityKey) : opsOf key [] = [] := rfl

theorem opsOf_cons (key k : EntityKey) (op : EntityOp) (changes : List (EntityKey × EntityOp)) :
    opsOf key ((k, op) :: changes) = if k = key then op :: opsOf key changes else opsOf key changes
    := by
  by_cases hk : k = key <;> simp [opsOf, hk]

/-- **Recording a sequence of changes in a layer** leaves, at each key, what the changes of
that key leave when applied one by one to what the layer had. The induction is on the
changes; a change of another key leaves the entry alone, and one of `key` is accumulated,
which `applyTo_entry` turns into one more step. -/
theorem applyOpt_foldl_recordOp (changes : List (EntityKey × EntityOp))
    (layer : EntityKey → Option EntityOp) (key : EntityKey) (x : Option Entity) :
    OptEqUpTo (applyOpt ((changes.foldl (fun l p => recordOp l p.1 p.2) layer) key) x)
      (applyAll (opsOf key changes) (applyOpt (layer key) x)) := by
  induction changes generalizing layer with
  | nil => exact OptEqUpTo.refl _
  | cons change changes ih =>
    obtain ⟨k, op⟩ := change
    have hstep := ih (recordOp layer k op)
    rw [List.foldl_cons, opsOf_cons]
    by_cases hk : k = key
    · subst hk
      rw [if_pos rfl, applyAll_cons]
      simp only [recordOp, Function.update_self, applyOpt] at hstep
      exact hstep.trans (applyAll_congr _ (applyTo_entry (layer k) op x))
    · rw [if_neg hk]
      simpa only [recordOp, Function.update_of_ne (Ne.symm hk)] using hstep

/-! ### The layers of the cache -/

variable {c : EntityCache}

/-- Outside a handler, `entity_op` records in `updates`. -/
theorem entityOp_of_not_inHandler (hin : c.inHandler = false) (key : EntityKey)
    (op : EntityOp) :
    c.entityOp key op = { c with updates := recordOp c.updates key op } := by
  simp [EntityCache.entityOp, hin, recordOp]

/-- Inside a handler, `entity_op` records in `handler_updates`. -/
theorem entityOp_of_inHandler (hin : c.inHandler = true) (key : EntityKey) (op : EntityOp) :
    c.entityOp key op = { c with handlerUpdates := recordOp c.handlerUpdates key op } := by
  simp [EntityCache.entityOp, hin, recordOp]

/-- The changes of a sequence, recorded outside a handler. -/
theorem foldl_entityOp_of_not_inHandler (hin : c.inHandler = false)
    (changes : List (EntityKey × EntityOp)) :
    changes.foldl (fun c p => c.entityOp p.1 p.2) c =
      { c with updates := changes.foldl (fun l p => recordOp l p.1 p.2) c.updates } := by
  induction changes generalizing c with
  | nil => rfl
  | cons change changes ih =>
    rw [List.foldl_cons, entityOp_of_not_inHandler hin]
    exact ih hin

/-- The changes of a sequence, recorded inside a handler. -/
theorem foldl_entityOp_of_inHandler (hin : c.inHandler = true)
    (changes : List (EntityKey × EntityOp)) :
    changes.foldl (fun c p => c.entityOp p.1 p.2) c =
      { c with handlerUpdates := changes.foldl (fun l p => recordOp l p.1 p.2) c.handlerUpdates }
    := by
  induction changes generalizing c with
  | nil => rfl
  | cons change changes ih =>
    rw [List.foldl_cons, entityOp_of_inHandler hin]
    exact ih hin

/-- `exit_handler` folds the handler's change of a key into the block's: applying the result
is applying the two, up to `Null` attributes. -/
theorem applyOpt_exitHandler {c' : EntityCache} (hexit : c.exitHandler = .ok c')
    (key : EntityKey) (x : Option Entity) :
    OptEqUpTo (applyOpt (c'.updates key) x)
      (applyOpt (c.handlerUpdates key) (applyOpt (c.updates key) x)) := by
  unfold EntityCache.exitHandler at hexit
  split at hexit
  · cases hexit
  · cases hexit
    dsimp only
    cases c.handlerUpdates key with
    | none => exact OptEqUpTo.refl _
    | some op => exact applyTo_entry (c.updates key) op x

/-- **Accumulating the changes of the cache is applying them one by one**, up to the version
id and `Null` attributes. One change accumulated into another does what the two do one after
the other, and `accumulate` is associative. So a sequence of changes recorded outside a
handler leaves in `updates`, for each key, a change that does what that key's changes do one
by one. Changes recorded inside a handler and then folded into `updates` by `exit_handler`
do the same, after what the two layers held. -/
theorem accumulate_sound :
    (∀ (a b : EntityOp) (x : Option Entity),
      OptEqUpTo ((a.accumulate b).applyTo x) (b.applyTo (a.applyTo x))) ∧
    (∀ (a b d : EntityOp) (x : Option Entity),
      OptEqUpTo (((a.accumulate b).accumulate d).applyTo x)
        ((a.accumulate (b.accumulate d)).applyTo x)) ∧
    (∀ (c : EntityCache) (changes : List (EntityKey × EntityOp)) (key : EntityKey)
      (x : Option Entity), c.inHandler = false →
      OptEqUpTo (applyOpt ((changes.foldl (fun c p => c.entityOp p.1 p.2) c).updates key) x)
        (applyAll (opsOf key changes) (applyOpt (c.updates key) x))) ∧
    (∀ (c c' : EntityCache) (changes : List (EntityKey × EntityOp)) (key : EntityKey)
      (x : Option Entity), c.inHandler = true →
      (changes.foldl (fun c p => c.entityOp p.1 p.2) c).exitHandler = .ok c' →
      OptEqUpTo (applyOpt (c'.updates key) x)
        (applyAll (opsOf key changes)
          (applyOpt (c.handlerUpdates key) (applyOpt (c.updates key) x)))) := by
  refine ⟨applyTo_accumulate, fun a b d x => applyTo_of_equiv (accumulate_assoc a b d) x,
    fun c changes key x hin => ?_, fun c c' changes key x hin hexit => ?_⟩
  · rw [foldl_entityOp_of_not_inHandler hin]
    exact applyOpt_foldl_recordOp changes c.updates key x
  · -- the handler's layer holds the changes; `exit_handler` puts them over the block's
    rw [foldl_entityOp_of_inHandler hin] at hexit
    exact (applyOpt_exitHandler hexit key x).trans
      (applyOpt_foldl_recordOp changes c.handlerUpdates key _)

/-- An update and then a removal of one key, in a fresh cache and inside a handler. -/
theorem accumulate_sound_update_remove :
    let k : EntityKey := ⟨⟨"Thing", false, false⟩, .string "a", .ONCHAIN⟩
    let c := withCurrent (fun _ => none) (SeqGenerator.new 1)
    let changes : List (EntityKey × EntityOp) := [(k, .update .empty), (k, .remove)]
    (c.inHandler = false ∧
      OptEqUpTo (applyOpt ((changes.foldl (fun c p => c.entityOp p.1 p.2) c).updates k) none)
        (applyAll (opsOf k changes) (applyOpt (c.updates k) none))) ∧
    ∃ c', { c with inHandler := true }.inHandler = true ∧
      (changes.foldl (fun (c : EntityCache) p => c.entityOp p.1 p.2)
        { c with inHandler := true }).exitHandler =
        .ok c' ∧
      OptEqUpTo (applyOpt (c'.updates k) none)
        (applyAll (opsOf k changes) (applyOpt (c.handlerUpdates k) (applyOpt (c.updates k) none)))
    :=
  ⟨⟨rfl, accumulate_sound.2.2.1 _ _ _ _ rfl⟩,
    _, rfl, rfl, accumulate_sound.2.2.2 { withCurrent (fun _ => none) (SeqGenerator.new 1) with
      inHandler := true } _ _ _ _ rfl rfl⟩

end EntityCache

end GraphNode
