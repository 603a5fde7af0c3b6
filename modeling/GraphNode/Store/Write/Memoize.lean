import GraphNode.Store.Write.LastOp

/-!
# The row group with and without memoization

`GRAPH_STORE_WRITE_BATCH_MEMOIZE` decides whether a group keeps `last_mod`, the index of the
last row of each id; what the group holds should not depend on it. The memo is read in
three places. `prev_row_mut` and `last_op` fall back to a scan of the rows when the memo has
nothing, and with a correct memo they answer as the scan does
(`GraphNode.RowGroup.prevRowMut_eq`, `GraphNode.RowGroup.lastOp_eq_scan`).

**The immutable branch of `append_row` has no fallback.** It refuses (or, for a type that
skips duplicates, drops) the insert of an id that was inserted at another block, and it
finds that earlier insert in `last_mod` only. With memoization off the lookup never finds
anything, so an immutable group takes every insert (`appendRows_false_of_createsEntity`).
With it on, the second insert of an id at a later block is refused or dropped
(`appendRow_true_reinsert`). The two modes then disagree on the result, on the rows and on
what `last_op` answers (`appendRows_memoize_diverges`).
-/

namespace GraphNode

namespace LastMod

/-- Memoization off, `last_mod` never answers. -/
@[simp] theorem get_false (m : LastMod) (id : Id) : m.get false id = none := rfl

/-- Memoization off, `last_mod` records nothing. -/
@[simp] theorem insert_false (m : LastMod) (id : Id) (idx : Nat) : m.insert false id idx = m :=
  rfl

/-- Memoization on, `last_mod` answers with the index it last recorded for the id. -/
@[simp] theorem get_insert_true (m : LastMod) (id : Id) (idx : Nat) :
    (m.insert true id idx).get true id = some idx := by
  simp [get, insert]

end LastMod

namespace RowGroup

open EntityModification

variable {g : RowGroup}

@[simp] theorem pushRow_entityType (writeBatchMemoize : Bool) (row : EntityModification) :
    (g.pushRow writeBatchMemoize row).entityType = g.entityType := rfl

@[simp] theorem pushRow_rows (writeBatchMemoize : Bool) (row : EntityModification) :
    (g.pushRow writeBatchMemoize row).rows = g.rows ++ [row] := rfl

/-! ### Memoization off: no insert is refused -/

/-- Memoization off, an immutable group appends every insert as it is. -/
theorem appendRow_false_of_createsEntity (ht : g.entityType.isImmutable = true)
    {row : EntityModification} (hrow : row.createsEntity = true) :
    g.appendRow false row = (.ok (), g.pushRow false row) := by
  cases row with
  | insert k d b e => simp [appendRow, ht]
  | overwrite | remove => simp [createsEntity] at hrow

/-- Memoization off, an immutable group takes a run of inserts whole, duplicates included. -/
theorem appendRows_false_of_createsEntity (ht : g.entityType.isImmutable = true)
    {rows : List EntityModification} (hrows : ∀ r ∈ rows, r.createsEntity = true) :
    g.appendRows false rows = (.ok (), { g with rows := g.rows ++ rows }) := by
  induction rows generalizing g with
  | nil => simp [appendRows]
  | cons r rows ih =>
    have hr : r.createsEntity = true := hrows r List.mem_cons_self
    have hrest : ∀ r ∈ rows, r.createsEntity = true :=
      fun r h => hrows r (List.mem_cons_of_mem _ h)
    rw [appendRows, appendRow_false_of_createsEntity ht hr]
    simp only
    rw [ih (by simpa using ht) hrest]
    simp [pushRow]

/-! ### Memoization on: the memoized insert refuses the next -/

/-- Memoization on, an insert of an id whose memoized row is at another block is refused,
or dropped for a type that skips duplicates; the group is left as it is. -/
theorem appendRow_true_reinsert (ht : g.entityType.isImmutable = true)
    {k : EntityKey} {d : Entity} {b : BlockNumber} {e : Option BlockNumber} {i : Nat}
    {prev : EntityModification} (hidx : g.lastMod.get true k.entityId = some i)
    (hprev : g.rows[i]? = some prev) (hb : prev.block ≠ b) :
    g.appendRow true (.insert k d b e) =
      (if g.entityType.skipDuplicates then .ok ()
        else .error (.immutableReinsert k b prev.block), g) := by
  have hid : (insert k d b e).id = k.entityId := rfl
  simp only [appendRow, ht, if_true, hid, hidx, Option.bind_some, hprev]
  rw [if_pos (by simpa using hb)]
  by_cases hs : g.entityType.skipDuplicates = true <;> simp [hs]

/-- **Memoization changes what a group of an immutable type holds.** Two inserts of one key
at blocks `b₁ < b₂`: with memoization off both are appended and `last_op` at `b₂` answers
with the second; with it on the second is refused (or dropped, when duplicates are
skipped), only the first stays, and `last_op` answers with it. -/
theorem appendRows_memoize_diverges (t : EntityType) (ht : t.isImmutable = true)
    (k : EntityKey) (d₁ d₂ : Entity) {b₁ b₂ : BlockNumber} (hb : b₁ < b₂) :
    let r₁ := insert k d₁ b₁ none
    let r₂ := insert k d₂ b₂ none
    let off := (RowGroup.new t).appendRows false [r₁, r₂]
    let on := (RowGroup.new t).appendRows true [r₁, r₂]
    off.1 = .ok () ∧ off.2.rows = [r₁, r₂] ∧ off.2.lastOp false k b₂ = some (.write k d₂) ∧
      on.1 = (if t.skipDuplicates then .ok () else .error (.immutableReinsert k b₂ b₁)) ∧
      on.2.rows = [r₁] ∧ on.2.lastOp true k b₂ = some (.write k d₁) := by
  intro r₁ r₂ off on
  have ht' : (RowGroup.new t).entityType.isImmutable = true := ht
  have hcreates : ∀ r ∈ [r₁, r₂], r.createsEntity = true := by simp [r₁, r₂, createsEntity]
  have hoff : off = (.ok (), { RowGroup.new t with rows := [r₁, r₂] }) :=
    appendRows_false_of_createsEntity ht' hcreates
  -- memoization on: the first insert is pushed and memoized at index `0`
  let g₁ := (RowGroup.new t).pushRow true r₁
  have h₁ : (RowGroup.new t).appendRow true r₁ = (.ok (), g₁) := by
    simp [appendRow, ht, g₁, r₁, RowGroup.new, LastMod.new, LastMod.get]
  have h₂ : g₁.appendRow true r₂ =
      (if t.skipDuplicates then .ok () else .error (.immutableReinsert k b₂ b₁), g₁) :=
    appendRow_true_reinsert ht
      (show g₁.lastMod.get true k.entityId = some 0 by
        simp [g₁, pushRow, RowGroup.new, r₁, EntityModification.id])
      (show g₁.rows[0]? = some r₁ from rfl) (by simpa [r₁] using hb.ne)
  have hon :
      on = (if t.skipDuplicates then .ok () else .error (.immutableReinsert k b₂ b₁), g₁) := by
    cases hs : t.skipDuplicates <;> simp [on, appendRows, h₁, h₂, hs]
  refine ⟨by rw [hoff], by rw [hoff], ?_, by rw [hon], by rw [hon]; rfl, ?_⟩
  · -- the scan finds the second insert first
    rw [hoff, lastOp_false]
    simp [Matches, r₁, r₂, asEntityOp]
  · -- the memo points at the first insert, which is at or before `b₂`
    rw [hon]
    simp [lastOp, g₁, pushRow, RowGroup.new, r₁, EntityModification.id, hb.le, asEntityOp]

/-- The divergence at an immutable type that does not skip duplicates: an empty entity at
block `1`, then one with a name at block `2`. -/
theorem appendRows_memoize_diverges_at_thing :
    let t : EntityType := ⟨"Thing", true, false⟩
    let k : EntityKey := ⟨t, .string "x", .ONCHAIN⟩
    let d₂ := Entity.empty.insert "name" (.string "b")
    t.isImmutable = true ∧ (1 : BlockNumber) < 2 ∧
      (let r₁ := insert k .empty 1 none
       let r₂ := insert k d₂ 2 none
       let off := (RowGroup.new t).appendRows false [r₁, r₂]
       let on := (RowGroup.new t).appendRows true [r₁, r₂]
       off.1 = .ok () ∧ off.2.rows = [r₁, r₂] ∧ off.2.lastOp false k 2 = some (.write k d₂) ∧
         on.1 = (if t.skipDuplicates then .ok () else .error (.immutableReinsert k 2 1)) ∧
         on.2.rows = [r₁] ∧ on.2.lastOp true k 2 = some (.write k .empty)) :=
  ⟨rfl, by decide, appendRows_memoize_diverges _ rfl _ .empty _ (by decide)⟩

end RowGroup

end GraphNode
