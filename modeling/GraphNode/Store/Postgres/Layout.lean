import GraphNode.Store.Write.Iterators

/-!
# Entity tables and the queries that write them

The table of an entity type holds versions: a row for each version of an entity,
with the block range `[lo, hi)` at which it is visible; an open range (`hi` is
infinite, `block_range @> INTMAX`) marks the current version. The write path
changes a table with two statements only. `ClampRangeQuery` closes the current
versions of some ids at a block, and `InsertQuery` adds versions; a revert uses
`RevertRemoveQuery` and `RevertClampQuery`. Each is modelled by what its SQL
does to the list of versions.

`Layout::delete` and `Layout::insert` write a row group with them: first the
clamps, run by run of `clamps_by_block` and in chunks of ids, then the writes,
chunk by chunk of `write_chunks`. Neither the runs nor the chunks matter to the
result: deleting closes, row by row, the current versions of every clamp of the
group (`GraphNode.Layout.delete_eq`), and inserting adds the versions of its
writes in order (`GraphNode.Layout.insert_eq`).

Database failures (a connection error, a violated constraint) and the
interface uniqueness check of `apply_entity_modifications` are not modelled.
-/

namespace GraphNode

/-- A row of an entity table: a version of an entity, visible at the blocks of
`[lo, hi)`, where `hi = none` is the open upper bound. -/
structure Version where
  id : Id
  entity : Entity
  causalityRegion : CausalityRegion
  lo : BlockNumber
  hi : Option BlockNumber

/-- The rows of one entity table. -/
abbrev Table := List Version

/-- The version an `EntityWrite` inserts. -/
def Version.ofWrite (w : EntityWrite) : Version :=
  ⟨w.id, w.entity, w.causalityRegion, w.block, w.end_⟩

namespace Layout

/-! ### The statements -/

/-- `ClampRangeQuery`:
`update table set block_range = int4range(lower(block_range), $block)
 where id in ($ids) and block_range @> INTMAX`. -/
def clampRangeQuery (ids : List Id) (block : BlockNumber) (T : Table) : Table :=
  T.map fun v => if v.id ∈ ids ∧ v.hi = none then { v with hi := some block } else v

/-- `InsertQuery`: a version for each write of the chunk. -/
def insertQuery (chunk : List EntityWrite) (T : Table) : Table :=
  T ++ chunk.map Version.ofWrite

/-- `RevertRemoveQuery`: `delete from table where lower(block_range) >= $block`. -/
def revertRemoveQuery (block : BlockNumber) (T : Table) : Table :=
  T.filter fun v => decide (v.lo < block)

/-- Whether `RevertClampQuery` at `block` reopens a version: its range contains
`block` and ends before `INTMAX`. -/
def reopens (block : BlockNumber) (v : Version) : Bool :=
  match v.hi with
  | some e => decide (v.lo ≤ block ∧ block < e ∧ e < BLOCK_NUMBER_MAX)
  | none => false

/-- `RevertClampQuery`: `update table set block_range = int4range(lower(block_range), null)
 where block_range @> $block and not block_range @> INTMAX`. -/
def revertClampQuery (block : BlockNumber) (T : Table) : Table :=
  T.map fun v => if reopens block v then { v with hi := none } else v

/-- `DELETE_OPERATION_CHUNK_SIZE`: the most ids one `ClampRangeQuery` names. -/
def DELETE_OPERATION_CHUNK_SIZE : Nat := 1000

/-! ### Writing a row group -/

/-- `Layout::delete`: close the current versions of the clamps of a group, run by
run of `clamps_by_block` and chunk by chunk of ids. An immutable type has no
versions to close: its clamps are an error, or skipped for a type that skips
duplicates. -/
def delete (g : RowGroup) (T : Table) : Except StoreError Table :=
  if !g.hasClamps then .ok T
  else if g.entityType.immutable then
    if g.entityType.skipDuplicates then .ok T else .error (.immutableDelete g.entityType g.ids)
  else
    .ok (g.clampsByBlock.foldl (fun T run =>
      (chunks DELETE_OPERATION_CHUNK_SIZE (run.2.map (·.id))).foldl
        (fun T chunk => clampRangeQuery chunk run.1 T) T) T)

/-- One step of `Layout::insert`: the writes of a chunk, unless there are none. -/
def insertChunk (chunkSize : Nat) (T : Table) (chunk : List EntityModification) : Table :=
  let writes := RowGroup.chunkWrites chunkSize chunk
  if writes.isEmpty then T else insertQuery writes T

/-- `Layout::insert`: insert the writes of a group, `chunkSize` of them per query. -/
def insert (g : RowGroup) (chunkSize : Nat) (T : Table) : Table :=
  (g.writeChunks chunkSize).foldl (insertChunk chunkSize) T

/-- The row-by-row fallback of `Layout::insert`, taken when the insert of a whole chunk fails
with "value too large to transmit": an `InsertQuery` for each chunk of `as_single_writes`,
each of chunk size one. -/
def insertSingleWrites (chunkSize : Nat) (T : Table) (chunk : List EntityModification) : Table :=
  (RowGroup.asSingleWrites chunkSize chunk).foldl
    (fun T single => insertQuery (RowGroup.chunkWrites 1 single) T) T

/-- `Layout::revert_block` on one table: remove the versions that start at or
after `block`, and reopen those that were closed at `block`. -/
def revertBlock (immutable : Bool) (block : BlockNumber) (T : Table) : Table :=
  let T := revertRemoveQuery block T
  if immutable then T else revertClampQuery (block - 1) T

/-- The database: a table for every entity type. -/
abbrev Db := EntityType → Table

/-- `DeploymentStore::apply_entity_modifications`: write the groups one after the
other, each by `Layout::delete` and then `Layout::insert`, adding up their
changes to the number of entities. `chunkSize` is `InsertQuery::chunk_size` of
the table of each type. -/
def applyEntityModifications (chunkSize : EntityType → Nat) :
    List RowGroup → Db → Except StoreError (Int × Db)
  | [], db => .ok (0, db)
  | g :: groups, db =>
    match delete g (db g.entityType) with
    | .error e => .error e
    | .ok T =>
      let db := Function.update db g.entityType (insert g (chunkSize g.entityType) T)
      match applyEntityModifications chunkSize groups db with
      | .error e => .error e
      | .ok (count, db) => .ok (g.entityCountChange + count, db)

/-! ### Clamps -/

/-- Closing the current versions of the clamps of `rows`, one row after the
other. -/
def clampRows (rows : List EntityModification) (T : Table) : Table :=
  rows.foldl (fun T r => if r.isClamp then clampRangeQuery [r.id] r.block T else T) T

@[simp] theorem clampRangeQuery_nil (block : BlockNumber) (T : Table) :
    clampRangeQuery [] block T = T := by
  simp [clampRangeQuery]

/-- Closing the versions of two lists of ids, one after the other. -/
theorem clampRangeQuery_append (ids₁ ids₂ : List Id) (block : BlockNumber) (T : Table) :
    clampRangeQuery (ids₁ ++ ids₂) block T =
      clampRangeQuery ids₂ block (clampRangeQuery ids₁ block T) := by
  simp only [clampRangeQuery, List.map_map]
  congr 1
  funext v
  -- a version closed by the first query is no longer current for the second
  simp only [Function.comp_apply, List.mem_append]
  by_cases h₁ : v.id ∈ ids₁ <;> by_cases h₂ : v.id ∈ ids₂ <;> cases hv : v.hi <;>
    simp [h₁, h₂, hv]

/-- The chunks of ids make no difference. -/
theorem foldl_chunks_clampRangeQuery (n : Nat) (ids : List Id) (block : BlockNumber)
    (T : Table) :
    (chunks n ids).foldl (fun T chunk => clampRangeQuery chunk block T) T =
      clampRangeQuery ids block T := by
  conv_rhs => rw [← flatten_chunks n ids]
  generalize chunks n ids = L
  induction L generalizing T with
  | nil => simp
  | cons c L ih => rw [List.foldl_cons, ih, List.flatten_cons, clampRangeQuery_append]

/-- A run of clamps at one block, row by row. -/
theorem clampRows_of_run {rows : List EntityModification} {block : BlockNumber}
    (hrun : ∀ r ∈ rows, r.isClamp = true ∧ r.block = block) (T : Table) :
    clampRows rows T = clampRangeQuery (rows.map (·.id)) block T := by
  induction rows generalizing T with
  | nil => simp [clampRows]
  | cons r rows ih =>
    obtain ⟨hc, hb⟩ := hrun r List.mem_cons_self
    simp only [clampRows, List.foldl_cons, hc, if_true, hb] at ih ⊢
    rw [ih (fun r' hr' => hrun r' (.tail _ hr')), List.map_cons,
      show r.id :: rows.map (·.id) = [r.id] ++ rows.map (·.id) from rfl, clampRangeQuery_append]

theorem clampRows_append (rows₁ rows₂ : List EntityModification) (T : Table) :
    clampRows (rows₁ ++ rows₂) T = clampRows rows₂ (clampRows rows₁ T) := by
  simp [clampRows]

/-- Rows that clamp nothing close nothing. -/
theorem clampRows_of_not_clamp {rows : List EntityModification}
    (h : ∀ r ∈ rows, r.isClamp = false) (T : Table) : clampRows rows T = T := by
  induction rows generalizing T with
  | nil => rfl
  | cons r rows ih =>
    simp only [clampRows, List.foldl_cons, h r List.mem_cons_self] at ih ⊢
    exact ih (fun r' hr' => h r' (.tail _ hr')) T

/-- Runs that split the rows as `ClampRuns` says, closed run by run, close what the clamp
rows close one by one. -/
theorem foldl_clampRuns {rows : List EntityModification}
    {runs : List (BlockNumber × List EntityModification)} (h : RowGroup.ClampRuns rows runs)
    (T : Table) :
    runs.foldl (fun T run => clampRangeQuery (run.2.map (·.id)) run.1 T) T = clampRows rows T := by
  induction h generalizing T with
  | done h => exact (clampRows_of_not_clamp h T).symm
  | run hpre hne hrun hmax h ih =>
    -- the rows skipped close nothing, and the run closes its ids at its block
    rw [List.foldl_cons, ih, clampRows_append, clampRows_append, clampRows_of_not_clamp hpre,
      clampRows_of_run hrun]

/-- The runs of `clamps_by_block`, closed run by run, close what the clamp rows
close one by one. -/
theorem foldl_clampsByBlockFrom (rest : List EntityModification) (T : Table) :
    (RowGroup.clampsByBlockFrom rest).foldl
        (fun T run => clampRangeQuery (run.2.map (·.id)) run.1 T) T =
      clampRows rest T :=
  foldl_clampRuns (RowGroup.clampRuns_clampsByBlockFrom rest) T

/-- **`Layout::delete` closes the versions the clamps of the group close.** -/
theorem delete_eq {g : RowGroup} (hmut : g.entityType.immutable = false) (T : Table) :
    delete g T = .ok (clampRows g.rows T) := by
  unfold delete
  by_cases hc : g.hasClamps = true
  · rw [if_neg (by simp [hc]), if_neg (by simp [hmut])]
    congr 1
    rw [← foldl_clampsByBlockFrom g.rows T, RowGroup.clampsByBlock]
    simp only [foldl_chunks_clampRangeQuery]
  · -- without clamps nothing is closed
    rw [if_pos (by simpa using hc)]
    refine congrArg _ (clampRows_of_not_clamp (fun r hr => ?_) T).symm
    simpa [RowGroup.hasClamps] using fun h => hc (List.any_eq_true.mpr ⟨r, hr, h⟩)

/-! ### Writes -/

theorem insertChunk_eq (chunkSize : Nat) (T : Table) (chunk : List EntityModification) :
    insertChunk chunkSize T chunk =
      T ++ (RowGroup.chunkWrites chunkSize chunk).map Version.ofWrite := by
  unfold insertChunk
  dsimp only
  split
  · rename_i h
    simp [List.isEmpty_iff.mp h]
  · rfl

/-- The chunks of `write_chunks`, inserted one after the other, insert every
write in order. -/
theorem foldl_writeChunksFrom {n : Nat} (hn : 0 < n) (fuel : Nat) (rows : List EntityModification)
    (hfuel : rows.length < fuel) (T : Table) :
    (RowGroup.writeChunksFrom n fuel rows).foldl (insertChunk n) T =
      T ++ (rows.filterMap (·.asWrite)).map Version.ofWrite := by
  -- induction on the calls of `next` left, each consuming at least one row
  induction fuel generalizing rows T with
  | zero => omega
  | succ fuel ih =>
    cases rows with
    | nil => simp [RowGroup.writeChunksFrom]
    | cons r rows =>
      have hlt := RowGroup.length_chunkAdvance_lt hn r rows
      rw [RowGroup.writeChunksFrom, List.foldl_cons, ih _ (by omega), insertChunk_eq,
        List.append_assoc, ← List.map_append, RowGroup.chunkWrites_append_chunkAdvance]

/-- **`Layout::insert` adds the versions of the writes of the group, in order.** -/
theorem insert_eq (g : RowGroup) {n : Nat} (hn : 0 < n) (T : Table) :
    insert g n T = T ++ (g.rows.filterMap (·.asWrite)).map Version.ofWrite :=
  foldl_writeChunksFrom hn _ g.rows (Nat.lt_succ_self _) T

/-! ### The row-by-row fallback -/

theorem chunkLen_cons (n : Nat) (r : EntityModification) (rest : List EntityModification) :
    RowGroup.chunkLen (n + 1) (r :: rest) = RowGroup.chunkLen n rest + 1 := by
  simp [RowGroup.chunkLen]

@[simp] theorem asSingleWrites_zero (chunk : List EntityModification) :
    RowGroup.asSingleWrites 0 chunk = [] := by
  simp [RowGroup.asSingleWrites, RowGroup.chunkLen]

@[simp] theorem asSingleWrites_nil (n : Nat) : RowGroup.asSingleWrites n [] = [] := by
  simp [RowGroup.asSingleWrites, RowGroup.chunkLen]

/-- The single chunks of a chunk: one at its position, then those of the rest. -/
theorem asSingleWrites_cons (n : Nat) (r : EntityModification) (rest : List EntityModification) :
    RowGroup.asSingleWrites (n + 1) (r :: rest) =
      (r :: rest) :: RowGroup.asSingleWrites n rest := by
  rw [RowGroup.asSingleWrites, chunkLen_cons, List.range_succ_eq_map]
  simp [RowGroup.asSingleWrites, Function.comp_def]

/-- The fallback inserts, one query after the other, the writes each single chunk yields. -/
theorem insertSingleWrites_eq (n : Nat) (T : Table) (chunk : List EntityModification) :
    insertSingleWrites n T chunk =
      T ++ ((RowGroup.asSingleWrites n chunk).flatMap (RowGroup.chunkWrites 1)).map
        Version.ofWrite := by
  unfold insertSingleWrites
  generalize RowGroup.asSingleWrites n chunk = singles
  induction singles generalizing T with
  | nil => simp
  | cons single singles ih =>
    rw [List.foldl_cons, ih, insertQuery, List.flatMap_cons, List.map_append, List.append_assoc]

/-- On a chunk whose first `len` rows are writes, `len` counts its writes and the single
chunks yield them in order, each once. -/
theorem asSingleWrites_of_isWrite {n : Nat} {chunk : List EntityModification}
    (hw : ∀ r ∈ chunk.take (RowGroup.chunkLen n chunk), r.isWrite = true) :
    RowGroup.chunkLen n chunk = (RowGroup.chunkWrites n chunk).length ∧
      (RowGroup.asSingleWrites n chunk).flatMap (RowGroup.chunkWrites 1) =
        RowGroup.chunkWrites n chunk := by
  induction chunk generalizing n with
  | nil => cases n <;> simp [RowGroup.chunkLen, RowGroup.chunkWrites]
  | cons r rest ih =>
    cases n with
    | zero => simp [RowGroup.chunkLen, RowGroup.chunkWrites]
    | succ n =>
      rw [chunkLen_cons, List.take_succ_cons] at hw
      have hr : r.isWrite = true := hw r List.mem_cons_self
      have hrest := ih fun r' h => hw r' (List.mem_cons_of_mem _ h)
      obtain ⟨w, hw'⟩ : ∃ w, r.asWrite = some w :=
        Option.isSome_iff_exists.mp (by rw [r.isSome_asWrite, hr])
      refine ⟨?_, ?_⟩
      · simp [chunkLen_cons, RowGroup.chunkWrites, hw', hrest.1]
      · simp [asSingleWrites_cons, RowGroup.chunkWrites, hw', hrest.2]

/-- **On a chunk of writes, the fallback inserts what the chunk would.** Where the first
`len` rows of a chunk are all writes – as every row of a group of an immutable type is –
`len` is the number of rows the chunk inserts, and inserting its single chunks one by one
adds the same versions, in the same order, as inserting the chunk at once. -/
theorem insertSingleWrites_eq_insertChunk {n : Nat} {chunk : List EntityModification}
    (hw : ∀ r ∈ chunk.take (RowGroup.chunkLen n chunk), r.isWrite = true) (T : Table) :
    RowGroup.chunkLen n chunk = (RowGroup.chunkWrites n chunk).length ∧
      insertSingleWrites n T chunk = insertChunk n T chunk := by
  obtain ⟨hlen, hsingles⟩ := asSingleWrites_of_isWrite hw
  exact ⟨hlen, by rw [insertSingleWrites_eq, insertChunk_eq, hsingles]⟩

/-- Two inserts of an immutable type, in a chunk of size two. -/
theorem insertSingleWrites_eq_insertChunk_two_inserts :
    let key : String → EntityKey := fun s => ⟨⟨"Thing", true, false⟩, .string s, .ONCHAIN⟩
    let chunk : List EntityModification :=
      [.insert (key "b") .empty 1 none, .insert (key "c") .empty 1 none]
    (∀ r ∈ chunk.take (RowGroup.chunkLen 2 chunk), r.isWrite = true) ∧
      RowGroup.chunkLen 2 chunk = (RowGroup.chunkWrites 2 chunk).length ∧
      insertSingleWrites 2 [] chunk = insertChunk 2 [] chunk := by
  intro key chunk
  have hw : ∀ r ∈ chunk.take (RowGroup.chunkLen 2 chunk), r.isWrite = true := by
    simp [chunk, RowGroup.chunkLen, EntityModification.isWrite]
  exact ⟨hw, insertSingleWrites_eq_insertChunk hw []⟩

/-- **The fallback inserts a write twice after a removal.** A group of a mutable type that
holds the removal of `a` and then the inserts of `b` and `c`, all at block `1`, is a single
chunk for every chunk size `n ≥ 3`. Its `len` is `3` while it holds two writes. The single
chunk at the position of the removal yields the next write, that of `b`, so the row-by-row
fallback inserts `b` twice where the chunk inserts it once. -/
theorem insertSingleWrites_duplicates {n : Nat} (hn : 3 ≤ n) :
    let t : EntityType := ⟨"Thing", false, false⟩
    let key : String → EntityKey := fun s => ⟨t, .string s, .ONCHAIN⟩
    let rows : List EntityModification :=
      [.remove (key "a") 1, .insert (key "b") .empty 1 none, .insert (key "c") .empty 1 none]
    let g := ((RowGroup.new t).appendRows true rows).2
    let version : String → Version := fun s => ⟨.string s, .empty, .ONCHAIN, 1, none⟩
    g.rows = rows ∧ g.writeChunks n = [rows] ∧
      RowGroup.chunkLen n rows = 3 ∧ (RowGroup.chunkWrites n rows).length = 2 ∧
      insertChunk n [] rows = [version "b", version "c"] ∧
      insertSingleWrites n [] rows = [version "b", version "b", version "c"] := by
  intro t key rows g version
  obtain ⟨m, rfl⟩ : ∃ m, n = m + 3 := ⟨n - 3, by omega⟩
  have hrows : g.rows = rows := rfl
  have hwrites : RowGroup.chunkWrites (m + 3) rows =
      [⟨.string "b", .empty, .ONCHAIN, 1, none⟩, ⟨.string "c", .empty, .ONCHAIN, 1, none⟩] := by
    simp [rows, RowGroup.chunkWrites, EntityModification.asWrite, key]
  refine ⟨hrows, ?_, ?_, by rw [hwrites]; rfl, ?_, ?_⟩
  · -- the advance steps over the removal and both inserts
    simp [RowGroup.writeChunks, hrows, rows, RowGroup.writeChunksFrom, RowGroup.chunkAdvance,
      EntityModification.isWrite]
  · simp [RowGroup.chunkLen, rows]
  · rw [insertChunk_eq, hwrites]
    rfl
  · -- the single chunks start at the removal, at `b` and at `c`
    rw [insertSingleWrites_eq]
    simp [rows, asSingleWrites_cons, RowGroup.chunkWrites, EntityModification.asWrite, key,
      version, Version.ofWrite]

/-- The duplicate at chunk size `3`. -/
theorem insertSingleWrites_duplicates_three :
    let t : EntityType := ⟨"Thing", false, false⟩
    let key : String → EntityKey := fun s => ⟨t, .string s, .ONCHAIN⟩
    let rows : List EntityModification :=
      [.remove (key "a") 1, .insert (key "b") .empty 1 none, .insert (key "c") .empty 1 none]
    let g := ((RowGroup.new t).appendRows true rows).2
    let version : String → Version := fun s => ⟨.string s, .empty, .ONCHAIN, 1, none⟩
    3 ≤ 3 ∧ g.rows = rows ∧ g.writeChunks 3 = [rows] ∧
      RowGroup.chunkLen 3 rows = 3 ∧ (RowGroup.chunkWrites 3 rows).length = 2 ∧
      insertChunk 3 [] rows = [version "b", version "c"] ∧
      insertSingleWrites 3 [] rows = [version "b", version "b", version "c"] :=
  ⟨le_refl 3, insertSingleWrites_duplicates (le_refl 3)⟩

end Layout

end GraphNode
