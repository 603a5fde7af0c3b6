import GraphNode.Store.Write.RowGroup

/-!
# The iterators of a row group

`Layout::delete` and `Layout::insert` walk a row group with two iterators, each of which keeps
a position into the rows and moves it with a loop of its own.

* `ClampsByBlockIterator` skips the rows that are not clamps, then yields the run of
  consecutive clamps that share the block of the first. The rows split into what it skips and
  the runs it yields, each run maximal: the row after it is not a clamp of its block
  (`ClampRuns`, `clampRuns_clampsByBlockFrom`). So the runs are not empty, hold clamps of one
  block, and together are the clamps of the rows in order; there are at most as many runs as
  rows (`clampsByBlock_partition`).
* `WriteChunker` yields a chunk at its position, then moves the position past `chunk_size`
  writes. The iterator of a chunk scans from the same position for `chunk_size` writes, so the
  two loops stop at the same write: every chunk but the last yields exactly `chunk_size`
  writes, and together the chunks yield the writes of the group in order, each once
  (`writeChunks_partition`). The chunker runs out after at most as many chunks as rows.
-/

namespace GraphNode

namespace RowGroup

/-! ### Clamp runs -/

/-- How the rows split into the runs `clamps_by_block` should yield: rows that are not clamps,
then a nonempty run of clamps of one block that the next row does not continue, then the rest,
split the same way; after the last run, no clamp. -/
inductive ClampRuns :
    List EntityModification → List (BlockNumber × List EntityModification) → Prop
  | done {rows : List EntityModification} (h : ∀ r ∈ rows, r.isClamp = false) :
      ClampRuns rows []
  | run {pre run rest : List EntityModification}
      {runs : List (BlockNumber × List EntityModification)} {block : BlockNumber}
      (hpre : ∀ r ∈ pre, r.isClamp = false) (hne : run ≠ [])
      (hrun : ∀ r ∈ run, r.isClamp = true ∧ r.block = block)
      (hmax : ∀ r ∈ rest.head?, ¬(r.isClamp = true ∧ r.block = block))
      (h : ClampRuns rest runs) :
      ClampRuns (pre ++ run ++ rest) ((block, run) :: runs)

theorem clampsNext_eq_none_iff {rest : List EntityModification} :
    clampsNext rest = none ↔ ∀ r ∈ rest, r.isClamp = false := by
  unfold clampsNext
  split
  · rename_i hdrop
    refine iff_of_true rfl fun r hr => ?_
    simpa using List.dropWhile_eq_nil_iff.mp hdrop r hr
  · rename_i r more hdrop
    refine iff_of_false (by simp) fun h => ?_
    -- the first row the loop stops at is a clamp
    have hr : r ∈ rest := (List.dropWhile_suffix _).subset (hdrop ▸ List.mem_cons_self)
    have hclamp := List.head_dropWhile_not (fun r : EntityModification => !r.isClamp)
      (l := rest) (by simp [hdrop])
    simp [hdrop, h r hr] at hclamp

/-- **One call of `next`** skips rows that are not clamps and yields a run of clamps of one
block, which the row after it does not continue. -/
theorem clampsNext_eq_some {rest rest' run : List EntityModification} {block : BlockNumber}
    (h : clampsNext rest = some ((block, run), rest')) :
    ∃ pre, rest = pre ++ run ++ rest' ∧ (∀ r ∈ pre, r.isClamp = false) ∧ run ≠ [] ∧
      (∀ r ∈ run, r.isClamp = true ∧ r.block = block) ∧
      ∀ r ∈ rest'.head?, ¬(r.isClamp = true ∧ r.block = block) := by
  unfold clampsNext at h
  split at h
  · simp at h
  · rename_i r more hdrop
    simp only [Option.some.injEq, Prod.mk.injEq] at h
    obtain ⟨⟨rfl, rfl⟩, rfl⟩ := h
    have hclamp : r.isClamp = true := by
      simpa [hdrop] using List.head_dropWhile_not (fun r : EntityModification => !r.isClamp)
        (l := rest) (by simp [hdrop])
    refine ⟨rest.takeWhile fun r => !r.isClamp, ?_, fun r' hr' => ?_, ?_, fun r' hr' => ?_, ?_⟩
    · -- the skipped rows, then the run, then what is left
      rw [List.append_assoc, List.takeWhile_append_dropWhile, ← hdrop,
        List.takeWhile_append_dropWhile]
    · simpa using List.mem_takeWhile_imp hr'
    · rw [List.takeWhile_cons_of_pos (by simp [inRun, hclamp])]
      exact List.cons_ne_nil _ _
    · have := List.mem_takeWhile_imp hr'
      simp only [inRun, Bool.and_eq_true, beq_iff_eq] at this
      exact ⟨this.2, this.1⟩
    · -- the loop stopped at the row after the run
      intro r' hr' hcont
      have hstop := List.head?_dropWhile_not (inRun r.block) (r :: more)
      rw [hr'] at hstop
      simp [inRun, hcont.1, hcont.2] at hstop

/-- **The runs `ClampsByBlockIterator` yields split the rows as `ClampRuns` says.** -/
theorem clampRuns_clampsByBlockFrom (rest : List EntityModification) :
    ClampRuns rest (clampsByBlockFrom rest) := by
  -- induction along the iterator: one run per call of `next`
  induction rest using clampsByBlockFrom.induct with
  | case1 rest hnone =>
    rw [clampsByBlockFrom, hnone]
    exact .done (clampsNext_eq_none_iff.mp hnone)
  | case2 rest item rest' hsome ih =>
    rw [clampsByBlockFrom, hsome]
    obtain ⟨pre, hsplit, hpre, hne, hrun, hmax⟩ := clampsNext_eq_some hsome
    rw [hsplit]
    exact .run hpre hne hrun hmax ih

namespace ClampRuns

variable {rows : List EntityModification} {runs : List (BlockNumber × List EntityModification)}

/-- The runs hold the clamps of the rows, in order. -/
theorem flatMap_eq_filter (h : ClampRuns rows runs) :
    runs.flatMap (·.2) = rows.filter (·.isClamp) := by
  induction h with
  | done h => exact (List.filter_eq_nil_iff.mpr fun r hr => by simp [h r hr]).symm
  | run hpre hne hrun hmax h ih =>
    rename_i pre run rest runs block
    have hpre' : pre.filter (·.isClamp) = [] :=
      List.filter_eq_nil_iff.mpr fun r hr => by simp [hpre r hr]
    have hrun' : run.filter (·.isClamp) = run := List.filter_eq_self.mpr fun r hr => (hrun r hr).1
    rw [List.flatMap_cons, ih, List.filter_append, List.filter_append, hpre', hrun',
      List.nil_append]

theorem mem (h : ClampRuns rows runs) {run : BlockNumber × List EntityModification}
    (hmem : run ∈ runs) : run.2 ≠ [] ∧ ∀ r ∈ run.2, r.isClamp = true ∧ r.block = run.1 := by
  induction h with
  | done => simp at hmem
  | run hpre hne hrun hmax h ih =>
    rcases List.mem_cons.mp hmem with rfl | hmem
    · exact ⟨hne, hrun⟩
    · exact ih hmem

/-- Each run takes a row, so there are at most as many runs as rows. -/
theorem length_le (h : ClampRuns rows runs) : runs.length ≤ rows.length := by
  induction h with
  | done => exact Nat.zero_le _
  | run hpre hne hrun hmax h ih =>
    rename_i pre run rest runs block
    have hrun : 0 < run.length := List.length_pos_iff.mpr hne
    simp only [List.length_cons, List.length_append]
    omega

end ClampRuns

/-- **`ClampsByBlockIterator` yields the maximal runs of clamps of one block.** The runs split
the rows as `ClampRuns` says: rows that are not clamps, then a run of clamps of one block that
the next row does not continue, and so on. So every run is nonempty and holds clamps of its
block only, the runs together are the clamp rows in order, and there are at most as many runs
as rows. -/
theorem clampsByBlock_partition (g : RowGroup) :
    ClampRuns g.rows g.clampsByBlock ∧
    (∀ run ∈ g.clampsByBlock, run.2 ≠ [] ∧ ∀ r ∈ run.2, r.isClamp = true ∧ r.block = run.1) ∧
    g.clampsByBlock.flatMap (·.2) = g.rows.filter (·.isClamp) ∧
    g.clampsByBlock.length ≤ g.rows.length := by
  have h := clampRuns_clampsByBlockFrom g.rows
  exact ⟨h, fun _ hmem => h.mem hmem, h.flatMap_eq_filter, h.length_le⟩

/-! ### Write chunks -/

/-- A chunk takes the first writes, and the advance steps over them. -/
theorem chunkWrites_append_chunkAdvance (n : Nat) (rows : List EntityModification) :
    chunkWrites n rows ++ (chunkAdvance n rows).filterMap (·.asWrite) =
      rows.filterMap (·.asWrite) := by
  induction rows generalizing n with
  | nil => cases n <;> simp [chunkWrites, chunkAdvance]
  | cons r rows ih =>
    cases n with
    | zero => simp [chunkWrites, chunkAdvance]
    | succ n =>
      have hw := r.isSome_asWrite
      cases hr : r.asWrite with
      | none =>
        have : r.isWrite = false := by simpa [hr] using hw.symm
        simp [chunkWrites, chunkAdvance, hr, this, ih]
      | some w =>
        have : r.isWrite = true := by simpa [hr] using hw.symm
        simp [chunkWrites, chunkAdvance, hr, this, ih]

theorem length_chunkAdvance_le (n : Nat) (rows : List EntityModification) :
    (chunkAdvance n rows).length ≤ rows.length := by
  induction rows generalizing n with
  | nil => cases n <;> simp [chunkAdvance]
  | cons r rows ih =>
    cases n with
    | zero => simp [chunkAdvance]
    | succ n =>
      simp only [chunkAdvance]
      split
      · exact (ih n).trans (by simp)
      · exact (ih (n + 1)).trans (by simp)

/-- With a chunk size of at least one, the advance consumes a row. -/
theorem length_chunkAdvance_lt {n : Nat} (hn : 0 < n) (r : EntityModification)
    (rows : List EntityModification) :
    (chunkAdvance n (r :: rows)).length < (r :: rows).length := by
  obtain ⟨n, rfl⟩ : ∃ m, n = m + 1 := ⟨n - 1, by omega⟩
  simp only [chunkAdvance]
  split
  · exact Nat.lt_succ_of_le (length_chunkAdvance_le n rows)
  · exact Nat.lt_succ_of_le (length_chunkAdvance_le (n + 1) rows)

/-- A chunk of size `n` yields the first `n` writes from its position on. -/
theorem chunkWrites_eq_take (n : Nat) (rows : List EntityModification) :
    chunkWrites n rows = (rows.filterMap (·.asWrite)).take n := by
  induction rows generalizing n with
  | nil => cases n <;> simp [chunkWrites]
  | cons r rows ih =>
    cases n with
    | zero => simp [chunkWrites]
    | succ n => cases hr : r.asWrite <;> simp [chunkWrites, hr, ih]

/-- If rows are left after the advance, it stopped at its count: the chunk yields `n`
writes. -/
theorem length_chunkWrites_of_chunkAdvance_ne_nil {n : Nat} {rows : List EntityModification}
    (h : chunkAdvance n rows ≠ []) : (chunkWrites n rows).length = n := by
  -- the two loops count the same writes from the same position
  induction rows generalizing n with
  | nil => cases n <;> simp [chunkAdvance] at h ⊢
  | cons r rows ih =>
    cases n with
    | zero => simp [chunkWrites]
    | succ n =>
      have hw := r.isSome_asWrite
      cases hr : r.asWrite with
      | none =>
        have hnw : r.isWrite = false := by simpa [hr] using hw.symm
        simp only [chunkAdvance, hnw, Bool.false_eq_true, if_false] at h
        simpa [chunkWrites, hr] using ih h
      | some w =>
        have hwr : r.isWrite = true := by simpa [hr] using hw.symm
        simp only [chunkAdvance, hwr, if_true] at h
        simpa [chunkWrites, hr] using ih h

@[simp] theorem writeChunksFrom_nil (n fuel : Nat) : writeChunksFrom n fuel [] = [] := by
  cases fuel <;> rfl

section Chunker

variable {n : Nat} (hn : 0 < n)
include hn

/-- More calls of `next` than rows exhaust the chunker: more fuel adds no chunk. -/
theorem writeChunksFrom_fuel {fuel fuel' : Nat} {rows : List EntityModification}
    (hfuel : rows.length < fuel) (hfuel' : rows.length < fuel') :
    writeChunksFrom n fuel rows = writeChunksFrom n fuel' rows := by
  induction fuel generalizing fuel' rows with
  | zero => omega
  | succ fuel ih =>
    obtain ⟨fuel', rfl⟩ : ∃ f, fuel' = f + 1 := ⟨fuel' - 1, by omega⟩
    cases rows with
    | nil => rfl
    | cons r rows =>
      have hlt := length_chunkAdvance_lt hn r rows
      have h : (chunkAdvance n (r :: rows)).length < fuel := by omega
      have h' : (chunkAdvance n (r :: rows)).length < fuel' := by omega
      simp only [writeChunksFrom]
      rw [ih h h']

/-- What the chunks of a run of the chunker satisfy: each starts with a row, yields at most
`n` writes and, unless it is the last, exactly `n`; there are at most as many chunks as rows,
and they yield the writes of the rows in order. -/
theorem writeChunksFrom_spec (fuel : Nat) {rows : List EntityModification}
    (hfuel : rows.length < fuel) :
    let chunks := writeChunksFrom n fuel rows
    chunks.length ≤ rows.length ∧
    (∀ chunk ∈ chunks, (chunkWrites n chunk).length ≤ n) ∧
    (∀ i (hi : i + 1 < chunks.length), (chunkWrites n chunks[i]).length = n) ∧
    chunks.flatMap (chunkWrites n) = rows.filterMap (·.asWrite) := by
  -- induction on the calls of `next` left, each consuming at least one row
  induction fuel generalizing rows with
  | zero => omega
  | succ fuel ih =>
    cases rows with
    | nil => simp [writeChunksFrom]
    | cons r rows =>
      have hlt := length_chunkAdvance_lt hn r rows
      have hfuel' : (chunkAdvance n (r :: rows)).length < fuel := by omega
      obtain ⟨hlen, hle, hfull, hwrites⟩ := ih hfuel'
      intro chunks
      simp only [chunks, writeChunksFrom]
      refine ⟨?_, ?_, fun i hi => ?_, ?_⟩
      · simp only [List.length_cons] at hlt ⊢
        omega
      · intro chunk hchunk
        rcases List.mem_cons.mp hchunk with rfl | hchunk
        · rw [chunkWrites_eq_take]
          exact List.length_take_le _ _
        · exact hle chunk hchunk
      · cases i with
        | zero =>
          -- a chunk follows, so the advance stopped at its count
          have hne : chunkAdvance n (r :: rows) ≠ [] := by
            intro hnil
            simp [hnil, writeChunksFrom_nil] at hi
          exact length_chunkWrites_of_chunkAdvance_ne_nil hne
        | succ i => exact hfull i (by simpa using hi)
      · rw [List.flatMap_cons, hwrites, chunkWrites_append_chunkAdvance]

end Chunker

/-- **`WriteChunker` partitions the writes of a group.** For a chunk size of at least one, the
chunker runs out after at most as many chunks as rows (more calls of `next` yield nothing
more); every chunk yields at most `chunk_size` writes and every chunk but the last exactly
`chunk_size`; and the chunks together yield the writes of the group, as `EntityWrite`s, in
order. -/
theorem writeChunks_partition (g : RowGroup) {chunkSize : Nat} (hn : 1 ≤ chunkSize) :
    let chunks := g.writeChunks chunkSize
    chunks.length ≤ g.rows.length ∧
    (∀ fuel, g.rows.length < fuel → writeChunksFrom chunkSize fuel g.rows = chunks) ∧
    (∀ chunk ∈ chunks, (chunkWrites chunkSize chunk).length ≤ chunkSize) ∧
    (∀ i (hi : i + 1 < chunks.length), (chunkWrites chunkSize chunks[i]).length = chunkSize) ∧
    chunks.flatMap (chunkWrites chunkSize) = g.writes.filterMap (·.asWrite) := by
  intro chunks
  obtain ⟨hlen, hle, hfull, hwrites⟩ :=
    writeChunksFrom_spec hn (g.rows.length + 1) (Nat.lt_succ_self _)
  refine ⟨hlen, fun fuel hfuel => writeChunksFrom_fuel hn hfuel (Nat.lt_succ_self _), hle,
    hfull, ?_⟩
  -- the removals the group's writes leave out map to no write
  have hfilter : g.writes.filterMap (·.asWrite) = g.rows.filterMap (·.asWrite) := by
    rw [writes, List.filterMap_filter]
    congr 1
    funext r
    cases r <;> rfl
  rw [hfilter]
  exact hwrites

/-- Chunks of one write over an insert, a removal and another insert: the removal is skipped
between the two chunks. -/
theorem writeChunks_partition_remove_between :
    let t : EntityType := ⟨"Thing", false, false⟩
    let key : String → EntityKey := fun s => ⟨t, .string s, .ONCHAIN⟩
    let g : RowGroup := ⟨t, [.insert (key "a") .empty 1 none, .remove (key "b") 1,
      .insert (key "c") .empty 1 none], LastMod.new⟩
    1 ≤ 1 ∧ (g.writeChunks 1).flatMap (chunkWrites 1) = g.writes.filterMap (·.asWrite) := by
  intro t key g
  exact ⟨le_refl 1, (writeChunks_partition g (le_refl 1)).2.2.2.2⟩

end RowGroup

end GraphNode
