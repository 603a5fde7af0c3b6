import GraphNode.Store.Write.RowGroup

/-!
# The representation invariant of a row group

Several methods of `RowGroup` rely on facts about its rows that nothing checks:
`last_op` scans backwards and stops at the first change of a key,
`clamps_by_block` expects clamps of one id to come first, and the clamp query
assumes one clamp per id. This file states those facts as one invariant,
`GraphNode.RowGroup.Inv`, and proves that the appends of the code keep it.

For two rows `a` before `b` of a group, `GraphNode.RowGroup.Precedes a b` says:
`a` is at a block no later than `b`, and if they are rows of one id then `a` is
strictly earlier, `b` is not a clamp – so only the first row of an id clamps –
and a write `a` ends at a block after its own and no later than `b`. With the
correctness of the index `last_mod`, that is the invariant.

It is not inductive by itself: the end of the *last* row of an id is not
constrained by it, yet becomes constrained as soon as another row of the id is
pushed. `GraphNode.RowGroup.Wf` adds that every ended version ends after it
starts, and that is what the appends preserve (`GraphNode.RowGroup.Wf.appendRow`).

**Why the append must not go back.** `RowGroup::push` refuses a modification
for a block before the block of the last row. A `Remove` folded into an earlier
row leaves no row of its own, so its block escapes that check: after the rows
`Insert(x, 1)` and `Remove(x, 5)` the group holds one row, ended at `5`, and
`push` accepts an `Insert(x, 3)`, after which the two versions of `x` overlap
(`GraphNode.RowGroup.push_breaks_inv`). The write batch never appends to a group
below a block it has recorded; the preservation results assume exactly that,
for every block the group records, in a row or in an end
(`GraphNode.RowGroup.AtOrAfter`).
-/

namespace GraphNode

namespace RowGroup

open EntityModification

/-! ### The invariant -/

/-- The relation of a row `a` to a later row `b` of the same group. -/
def Precedes (a b : EntityModification) : Prop :=
  a.block ≤ b.block ∧ (a.id = b.id → a.block < b.block ∧ b.isClamp = false ∧
    (a.isWrite = true → ∃ e, a.end? = some e ∧ a.block < e ∧ e ≤ b.block))

/-- The index `last_mod` holds the last row of every id, when it is used. -/
def LastModCorrect (writeBatchMemoize : Bool) (g : RowGroup) : Prop :=
  writeBatchMemoize = true → ∀ x, g.lastMod.map x = rfindIdx (fun r => r.id == x) g.rows

/-- **The representation invariant**: rows in order of blocks, the rows of an id
at strictly increasing blocks with only the first a clamp, every write but the
last of an id ended no later than the next row of the id, and `last_mod`
pointing at the last row of each id. -/
structure Inv (writeBatchMemoize : Bool) (g : RowGroup) : Prop where
  precedes : g.rows.Pairwise Precedes
  lastMod : LastModCorrect writeBatchMemoize g

/-- The invariant with what makes it inductive: an ended version ends after
it starts. -/
structure Wf (writeBatchMemoize : Bool) (g : RowGroup) : Prop extends Inv writeBatchMemoize g where
  endAfter : ∀ r ∈ g.rows, ∀ e, r.end? = some e → r.block < e

/-- The block `b` is at or after every block the group records, as the block of
a row or as the end of a version. -/
def AtOrAfter (g : RowGroup) (b : BlockNumber) : Prop :=
  ∀ r ∈ g.rows, r.block ≤ b ∧ ∀ e, r.end? = some e → e ≤ b

variable {writeBatchMemoize : Bool} {g g' : RowGroup}

theorem wf_new (writeBatchMemoize : Bool) (t : EntityType) : Wf writeBatchMemoize (new t) where
  precedes := List.Pairwise.nil
  lastMod := fun _ _ => rfl
  endAfter := fun _ h => by simp [new] at h

/-! ### Finding the previous row -/

/-- With a correct index, `prev_row_mut` finds the last row of the id, memoized
or not. -/
theorem prevRowMut_eq (h : LastModCorrect writeBatchMemoize g) (x : Id) :
    g.prevRowMut writeBatchMemoize x =
      (rfindIdx (fun r => r.id == x) g.rows).bind fun i => g.rows[i]?.map (i, ·) := by
  unfold prevRowMut LastMod.get
  cases writeBatchMemoize with
  | false => rfl
  | true =>
    rw [if_pos rfl, h rfl x]
    cases rfindIdx (fun r => r.id == x) g.rows <;> rfl

/-- The row found for an id is its last row. -/
theorem prevRowMut_some (h : LastModCorrect writeBatchMemoize g) {x : Id} {i : Nat}
    {prev : EntityModification} (hp : g.prevRowMut writeBatchMemoize x = some (i, prev)) :
    ∃ hi : i < g.rows.length, g.rows[i] = prev ∧ prev.id = x ∧
      ∀ j (hj : j < g.rows.length), i < j → g.rows[j].id ≠ x := by
  rw [prevRowMut_eq h] at hp
  rcases hf : rfindIdx (fun r => r.id == x) g.rows with _ | k
  · simp [hf] at hp
  · obtain ⟨hk, hpk, hafter⟩ := rfindIdx_spec hf
    simp only [hf, Option.bind_some, List.getElem?_eq_getElem hk, Option.map_some,
      Option.some.injEq, Prod.mk.injEq] at hp
    obtain ⟨rfl, rfl⟩ := hp
    refine ⟨hk, rfl, by simpa using hpk, fun j hj hij => ?_⟩
    simpa using hafter j hj hij

/-- No row is found exactly when the id has no row. -/
theorem prevRowMut_none (h : LastModCorrect writeBatchMemoize g) {x : Id}
    (hp : g.prevRowMut writeBatchMemoize x = none) : ∀ r ∈ g.rows, r.id ≠ x := by
  rw [prevRowMut_eq h] at hp
  rcases hf : rfindIdx (fun r => r.id == x) g.rows with _ | k
  · intro r hr
    simpa using (rfindIdx_eq_none_iff g.rows).mp hf r hr
  · obtain ⟨hk, -, -⟩ := rfindIdx_spec hf
    simp [hf, List.getElem?_eq_getElem hk] at hp

/-! ### What one append does -/

/-- **What a successful fold did.** The new row is later than the previous row
of its id, and: a second remove is dropped; an insert after a deleted entity is
pushed; an overwrite clamps the open version and is pushed as an insert; a
remove clamps the open version. -/
theorem foldRow_ok {i : Nat} {prev row : EntityModification}
    (h : g.foldRow writeBatchMemoize i prev row = (.ok (), g')) :
    prev.block < row.block ∧ row.id = prev.id ∧
    ((prev.isWrite = false ∧ row.isWrite = false ∧ g' = g) ∨
     ((prev.isWrite = false ∨ prev.end? ≠ none) ∧ row.isWrite = true ∧ row.isClamp = false ∧
        g' = g.pushRow writeBatchMemoize row) ∨
     (∃ prev' row', prev.clamp row.block = .ok prev' ∧ row.isWrite = true ∧
        row.isClamp = true ∧ row.intoInsert g.entityType = .ok row' ∧
        g' = (g.setRow i prev').pushRow writeBatchMemoize row') ∨
     (∃ prev', prev.clamp row.block = .ok prev' ∧ row.isWrite = false ∧
        g' = g.setRow i prev')) := by
  unfold foldRow at h
  by_cases hb : row.block ≤ prev.block
  · simp [hb] at h
  by_cases hid : row.id = prev.id
  swap
  · simp [hb, hid] at h
  rw [if_neg hb, if_neg (not_not.mpr hid)] at h
  refine ⟨lt_of_not_ge hb, hid, ?_⟩
  split at h <;> try simp only [Prod.mk.injEq, reduceCtorEq, false_and] at h
  -- a second remove is dropped
  · exact .inl ⟨rfl, rfl, h.2.symm⟩
  -- an insert after an ended version or a remove is pushed
  · exact .inr (.inl ⟨by simp [end?], rfl, rfl, h.2.symm⟩)
  · exact .inr (.inl ⟨by simp [end?], rfl, rfl, h.2.symm⟩)
  · exact .inr (.inl ⟨by simp [isWrite], rfl, rfl, h.2.symm⟩)
  -- an overwrite of an open version
  · simp only [clamp, intoInsert, Prod.mk.injEq] at h
    exact .inr (.inr (.inl ⟨_, _, rfl, rfl, rfl, rfl, h.2.symm⟩))
  · simp only [clamp, intoInsert, Prod.mk.injEq] at h
    exact .inr (.inr (.inl ⟨_, _, rfl, rfl, rfl, rfl, h.2.symm⟩))
  -- a remove of an open version
  · simp only [clamp, Prod.mk.injEq] at h
    exact .inr (.inr (.inr ⟨_, rfl, rfl, h.2.symm⟩))
  · simp only [clamp, Prod.mk.injEq] at h
    exact .inr (.inr (.inr ⟨_, rfl, rfl, h.2.symm⟩))

/-- A failed fold leaves the group as it was. -/
theorem foldRow_error {i : Nat} {prev row : EntityModification} {e : StoreError}
    (h : g.foldRow writeBatchMemoize i prev row = (.error e, g')) : g' = g := by
  unfold foldRow at h
  by_cases hb : row.block ≤ prev.block
  · simp only [hb, if_true, Prod.mk.injEq] at h
    exact h.2.symm
  by_cases hid : row.id = prev.id
  swap
  · rw [if_neg hb, if_pos hid] at h
    simp only [Prod.mk.injEq] at h
    exact h.2.symm
  rw [if_neg hb, if_neg (not_not.mpr hid)] at h
  -- every error is raised before the group is touched
  split at h <;> first
    | (simp only [Prod.mk.injEq] at h; exact h.2.symm)
    | simp [clamp, intoInsert] at h

/-- **A failed `append_row` leaves the rows and `last_mod` as they were.** Every
error of `append_row` is raised before anything is written. -/
theorem appendRow_error {row : EntityModification} {e : StoreError}
    (h : g.appendRow writeBatchMemoize row = (.error e, g')) : g' = g := by
  unfold appendRow at h
  split at h
  · split at h
    · -- an insert into an immutable type
      split at h
      · split at h
        · split at h <;> simp_all
        · simp at h
      · simp at h
    -- an overwrite or a remove of an immutable type
    all_goals split at h <;> simp_all
  · split at h
    · exact foldRow_error h
    · simp at h

/-- **What a successful `append_row` did.** For an immutable type the row is
skipped or pushed; otherwise it is pushed as the first row of its id, or folded
into the last row of its id. -/
theorem appendRow_ok {row : EntityModification}
    (h : g.appendRow writeBatchMemoize row = (.ok (), g')) :
    (g.entityType.isImmutable = true ∧ (g' = g ∨ g' = g.pushRow writeBatchMemoize row)) ∨
    (g.entityType.isImmutable = false ∧
      ((g.prevRowMut writeBatchMemoize row.id = none ∧ g' = g.pushRow writeBatchMemoize row) ∨
       ∃ i prev, g.prevRowMut writeBatchMemoize row.id = some (i, prev) ∧
         g.foldRow writeBatchMemoize i prev row = (.ok (), g'))) := by
  unfold appendRow at h
  by_cases himm : g.entityType.isImmutable = true
  · rw [if_pos himm] at h
    refine .inl ⟨himm, ?_⟩
    split at h
    · -- an insert: skipped as a duplicate, or pushed
      split at h
      · split at h
        · split at h
          · exact .inl (Prod.mk.inj h).2.symm
          · simp at h
        · exact .inr (Prod.mk.inj h).2.symm
      · exact .inr (Prod.mk.inj h).2.symm
    -- an overwrite or a remove can only be skipped
    all_goals
      split at h
      · exact .inl (Prod.mk.inj h).2.symm
      · simp at h
  · rw [if_neg himm] at h
    refine .inr ⟨by simpa using himm, ?_⟩
    split at h
    · rename_i i prev hp
      exact .inr ⟨i, prev, hp, h⟩
    · rename_i hp
      exact .inl ⟨hp, (Prod.mk.inj h).2.symm⟩

/-- A successful `push` is a successful `append_row`. -/
theorem push_ok {emod : EntityModification} {block : BlockNumber}
    (h : g.push writeBatchMemoize emod block = (.ok (), g')) :
    g.appendRow writeBatchMemoize emod = (.ok (), g') := by
  unfold push at h
  split at h
  · split at h
    · exact h
    · simp at h
  · exact h

/-- Appending never changes the entity type of a group. -/
theorem appendRow_entityType {row : EntityModification}
    (h : g.appendRow writeBatchMemoize row = (.ok (), g')) : g'.entityType = g.entityType := by
  rcases appendRow_ok h with ⟨-, rfl | rfl⟩ | ⟨-, ⟨-, rfl⟩ | ⟨i, prev, -, hfold⟩⟩
  · rfl
  · rfl
  · rfl
  · obtain ⟨-, -, ⟨-, -, rfl⟩ | ⟨-, -, -, rfl⟩ | ⟨_, _, -, -, -, -, rfl⟩ | ⟨_, -, -, rfl⟩⟩ :=
      foldRow_ok hfold <;> rfl

theorem appendRows_entityType {rows : List EntityModification}
    (h : g.appendRows writeBatchMemoize rows = (.ok (), g')) : g'.entityType = g.entityType := by
  induction rows generalizing g with
  | nil =>
    simp only [appendRows, Prod.mk.injEq] at h
    rw [← h.2]
  | cons row rows ih =>
    simp only [appendRows] at h
    split at h
    · rename_i g₁ h₁
      rw [ih h, appendRow_entityType h₁]
    · simp at h

/-! ### Facts about `Precedes` and `AtOrAfter` -/

/-- Rows of different ids only need to be in order of blocks. -/
theorem precedes_of_ne {a b : EntityModification} (hb : a.block ≤ b.block) (hid : a.id ≠ b.id) :
    Precedes a b :=
  ⟨hb, fun h => absurd h hid⟩

/-- A row that precedes the row `p` of its id precedes any later row of the id that
clamps nothing. -/
theorem Precedes.trans_later {a p b : EntityModification} (h : Precedes a p) (hap : a.id = p.id)
    (hpb : p.block < b.block) (hc : b.isClamp = false) : Precedes a b := by
  obtain ⟨hlt, -, hend⟩ := h.2 hap
  refine ⟨(hlt.trans hpb).le, fun _ => ⟨hlt.trans hpb, hc, fun hw => ?_⟩⟩
  obtain ⟨e, he, hae, hep⟩ := hend hw
  exact ⟨e, he, hae, hep.trans hpb.le⟩

/-- Of the later row, `Precedes` only looks at the block, the id and whether it
clamps. -/
theorem Precedes.congr_right {a b b' : EntityModification} (h : Precedes a b)
    (hblock : b'.block = b.block) (hid : b'.id = b.id) (hc : b'.isClamp = b.isClamp) :
    Precedes a b' := by
  simp only [Precedes, hblock, hid, hc]
  exact h

theorem AtOrAfter.pushRow {b : BlockNumber} {row : EntityModification} (h : AtOrAfter g b)
    (hrow : row.block ≤ b) (hfresh : row.end? = none) :
    AtOrAfter (g.pushRow writeBatchMemoize row) b := by
  intro r hr
  simp only [RowGroup.pushRow, List.mem_append, List.mem_singleton] at hr
  rcases hr with hr | rfl
  · exact h r hr
  · exact ⟨hrow, by simp [hfresh]⟩

/-- Clamping a row at a block no later than `b` records nothing after `b`. -/
theorem AtOrAfter.setRow {b c : BlockNumber} {i : Nat} {prev p' : EntityModification}
    (h : AtOrAfter g b) (hprev : prev ∈ g.rows) (hc : prev.clamp c = .ok p') (hcb : c ≤ b) :
    AtOrAfter (g.setRow i p') b := by
  obtain ⟨-, hblock, -, -, -, hend, -⟩ := EntityModification.clamp_eq_ok hc
  intro r hr
  rcases List.mem_or_eq_of_mem_set hr with hr | rfl
  · exact h r hr
  · refine ⟨hblock ▸ (h prev hprev).1, fun e he => ?_⟩
    rw [hend, Option.some.injEq] at he
    exact he ▸ hcb

/-- The row `prev_row_mut` hands out is a row of the group, at the index it gives. -/
theorem prevRowMut_mem {x : Id} {i : Nat} {prev : EntityModification}
    (hp : g.prevRowMut writeBatchMemoize x = some (i, prev)) :
    ∃ hi : i < g.rows.length, g.rows[i] = prev := by
  unfold prevRowMut at hp
  split at hp
  all_goals
    simp only [Option.bind_eq_some_iff, Option.map_eq_some_iff, Prod.mk.injEq] at hp
  · rename_i idx _
    obtain ⟨r, hr, rfl, rfl⟩ := hp
    exact List.getElem?_eq_some_iff.mp hr
  · obtain ⟨k, -, r, hr, rfl, rfl⟩ := hp
    exact List.getElem?_eq_some_iff.mp hr

/-- **A successful `append_row` of a single-block row records nothing after a block
`b` at or after the row's.** -/
theorem AtOrAfter.appendRow {b : BlockNumber} {row : EntityModification} (h : AtOrAfter g b)
    (hrow : row.block ≤ b) (hfresh : row.end? = none)
    (happ : g.appendRow writeBatchMemoize row = (.ok (), g')) : AtOrAfter g' b := by
  rcases appendRow_ok happ with ⟨-, rfl | rfl⟩ | ⟨-, ⟨-, rfl⟩ | ⟨i, prev, hsome, hfold⟩⟩
  · exact h
  · exact h.pushRow hrow hfresh
  · exact h.pushRow hrow hfresh
  obtain ⟨hi, hprev⟩ := prevRowMut_mem hsome
  have hmem : prev ∈ g.rows := hprev ▸ List.getElem_mem hi
  obtain ⟨-, -, hcases⟩ := foldRow_ok hfold
  rcases hcases with
    ⟨-, -, rfl⟩ | ⟨-, -, -, rfl⟩ | ⟨p', row', hc, -, -, hins, rfl⟩ | ⟨p', hc, -, rfl⟩
  · exact h
  · exact h.pushRow hrow hfresh
  · obtain ⟨-, hb, he, -⟩ := EntityModification.intoInsert_eq_ok hins
    exact (h.setRow hmem hc hrow).pushRow (hb ▸ hrow) (he ▸ hfresh)
  · exact h.setRow hmem hc hrow

/-! ### The appends keep the group well formed -/

theorem LastModCorrect.pushRow {row : EntityModification} (h : LastModCorrect writeBatchMemoize g) :
    LastModCorrect writeBatchMemoize (g.pushRow writeBatchMemoize row) := by
  intro hm x
  subst hm
  simp only [RowGroup.pushRow, LastMod.insert, if_true]
  by_cases hx : x = row.id
  · subst hx
    rw [Function.update_self, rfindIdx_append_of_pos _ (by simp)]
  · rw [Function.update_of_ne hx, h rfl x,
      rfindIdx_append_of_neg (p := fun r : EntityModification => r.id == x) g.rows
        (beq_eq_false_iff_ne.mpr (Ne.symm hx))]

/-- Replacing a row by one of the same id keeps `last_mod` correct. -/
theorem LastModCorrect.setRow {i : Nat} {p' : EntityModification}
    (h : LastModCorrect writeBatchMemoize g)
    (hid : ∀ hi : i < g.rows.length, p'.id = g.rows[i].id) :
    LastModCorrect writeBatchMemoize (g.setRow i p') := by
  intro hm x
  rw [show (g.setRow i p').lastMod = g.lastMod from rfl, h hm x]
  simp only [RowGroup.setRow]
  rw [rfindIdx_set]
  intro hi
  rw [hid hi]

/-- Pushing a row that every row precedes, and that ends after it starts. -/
theorem Wf.pushRow {row : EntityModification} (hw : Wf writeBatchMemoize g)
    (hprec : ∀ r ∈ g.rows, Precedes r row) (hend : ∀ e, row.end? = some e → row.block < e) :
    Wf writeBatchMemoize (g.pushRow writeBatchMemoize row) where
  precedes := by
    refine List.pairwise_append.mpr ⟨hw.precedes, List.pairwise_singleton _ _, fun a ha b hb => ?_⟩
    rw [List.mem_singleton] at hb
    exact hb ▸ hprec a ha
  lastMod := hw.lastMod.pushRow
  endAfter := by
    intro r hr
    simp only [RowGroup.pushRow, List.mem_append, List.mem_singleton] at hr
    rcases hr with hr | rfl
    · exact hw.endAfter r hr
    · exact hend

/-- **Clamping the last row of an id at a later block keeps the group well formed.** -/
theorem Wf.setRow {i : Nat} {b : BlockNumber} {prev p' : EntityModification}
    (hw : Wf writeBatchMemoize g) (hi : i < g.rows.length) (hprev : g.rows[i] = prev)
    (hlast : ∀ j (hj : j < g.rows.length), i < j → g.rows[j].id ≠ prev.id)
    (hc : prev.clamp b = .ok p') (hb : prev.block < b) :
    Wf writeBatchMemoize (g.setRow i p') := by
  obtain ⟨hkey, hblock, -, -, -, hend, hclamp, -⟩ := EntityModification.clamp_eq_ok hc
  have hid : p'.id = prev.id := EntityModification.id_eq_of_key_eq hkey
  have hpw := List.pairwise_iff_getElem.mp hw.precedes
  refine ⟨⟨?_, hw.lastMod.setRow fun _ => hprev ▸ hid⟩, ?_⟩
  · refine pairwise_set hw.precedes (fun j hj hji => ?_) (fun j hj hij => ?_)
    -- the rows before keep preceding it: it keeps its block, id and kind
    · exact (hprev ▸ hpw j i hj hi hji).congr_right hblock hid hclamp
    -- the rows after it are of other ids
    · refine precedes_of_ne ?_ ?_
      · rw [hblock, ← hprev]
        exact (hpw i j hi hj hij).1
      · rw [hid]
        exact (hlast j hj hij).symm
  · intro r hr e he
    rcases List.mem_or_eq_of_mem_set hr with hr | rfl
    · exact hw.endAfter r hr e he
    · rw [hend, Option.some.injEq] at he
      rw [hblock, ← he]
      exact hb

/-- A row of an id, after the last row `prev` of the id and at or after every block
the group records, follows every row of the group, provided it clamps nothing
and `prev` no longer holds a live version. -/
theorem precedes_of_last {i : Nat} {prev row : EntityModification}
    (hw : Wf writeBatchMemoize g) (hi : i < g.rows.length) (hprev : g.rows[i] = prev)
    (hlast : ∀ j (hj : j < g.rows.length), i < j → g.rows[j].id ≠ row.id)
    (hat : AtOrAfter g row.block) (hid : prev.id = row.id) (hlt : prev.block < row.block)
    (hc : row.isClamp = false) (hend : prev.isWrite = true → prev.end? ≠ none) :
    ∀ r ∈ g.rows, Precedes r row := by
  intro r hr
  obtain ⟨j, hj, rfl⟩ := List.getElem_of_mem hr
  by_cases hrid : g.rows[j].id = row.id
  swap
  · exact precedes_of_ne (hat _ hr).1 hrid
  rcases lt_trichotomy j i with hji | rfl | hij
  · -- an earlier row of the id precedes the last one
    have hp : Precedes g.rows[j] prev :=
      hprev ▸ List.pairwise_iff_getElem.mp hw.precedes j i hj hi hji
    exact hp.trans_later (hrid.trans hid.symm) hlt hc
  · -- the last row of the id: its version ended, at a block the group records
    subst hprev
    refine ⟨le_of_lt hlt, fun _ => ⟨hlt, hc, fun hwr => ?_⟩⟩
    obtain ⟨e, he⟩ := Option.ne_none_iff_exists'.mp (hend hwr)
    exact ⟨e, he, hw.endAfter _ hr e he, (hat _ hr).2 e he⟩
  · exact absurd hrid (hlast j hj hij)

/-- **A successful `append_row` of a single-block row at or after every block the
group records keeps a group of a mutable type well formed.** -/
theorem Wf.appendRow {row : EntityModification} (hw : Wf writeBatchMemoize g)
    (hmut : g.entityType.isImmutable = false) (hat : AtOrAfter g row.block)
    (hfresh : row.end? = none) (h : g.appendRow writeBatchMemoize row = (.ok (), g')) :
    Wf writeBatchMemoize g' := by
  have hend : ∀ e, row.end? = some e → row.block < e := by simp [hfresh]
  rcases appendRow_ok h with ⟨himm, -⟩ | ⟨-, ⟨hnone, rfl⟩ | ⟨i, prev, hsome, hfold⟩⟩
  · simp [hmut] at himm
  · -- the first row of its id
    exact hw.pushRow
      (fun r hr => precedes_of_ne (hat r hr).1 (prevRowMut_none hw.lastMod hnone r hr)) hend
  obtain ⟨hi, hprev, hpid, hlast⟩ := prevRowMut_some hw.lastMod hsome
  obtain ⟨hlt, hid, hcases⟩ := foldRow_ok hfold
  rcases hcases with ⟨-, -, rfl⟩ | ⟨hdel, -, hc, rfl⟩ | ⟨p', row', hclamp, -, -, hins, rfl⟩ |
    ⟨p', hclamp, -, rfl⟩
  · -- a second remove
    exact hw
  · -- an insert after a deleted version
    refine hw.pushRow (precedes_of_last hw hi hprev hlast hat hpid hlt hc fun hwr => ?_) hend
    exact hdel.resolve_left (by simp [hwr])
  · -- an overwrite: the last row is clamped, then the row pushed as an insert
    have hlast' : ∀ j (hj : j < g.rows.length), i < j → g.rows[j].id ≠ prev.id := by
      rw [hpid]
      exact hlast
    have hw' := hw.setRow hi hprev hlast' hclamp hlt
    obtain ⟨hk, hb, he, -, hc', -⟩ := EntityModification.intoInsert_eq_ok hins
    obtain ⟨hkey, hblock, -, -, -, hpend, -⟩ := EntityModification.clamp_eq_ok hclamp
    have hid' : row'.id = row.id := EntityModification.id_eq_of_key_eq hk
    have hi' : i < (g.setRow i p').rows.length := by simpa [RowGroup.setRow] using hi
    have hprev' : (g.setRow i p').rows[i] = p' := by simp [RowGroup.setRow]
    refine hw'.pushRow (precedes_of_last hw' hi' hprev' (fun j hj hij => ?_) ?_ ?_ ?_ hc'
      fun _ => by simp [hpend]) (by simp [he, hfresh])
    · simp only [RowGroup.setRow, List.getElem_set_ne (Nat.ne_of_lt hij), hid']
      exact hlast j (by simpa [RowGroup.setRow] using hj) hij
    · rw [hb]
      exact (hat.setRow (hprev ▸ List.getElem_mem hi) hclamp le_rfl)
    · rw [EntityModification.id_eq_of_key_eq hkey, hid', hpid]
    · rw [hblock, hb]
      exact hlt
  · -- a remove: the last row is clamped
    have hlast' : ∀ j (hj : j < g.rows.length), i < j → g.rows[j].id ≠ prev.id := by
      rw [hpid]
      exact hlast
    exact hw.setRow hi hprev hlast' hclamp hlt

/-- A successful `push` of a single-block row at or after every block the group
records keeps a group of a mutable type well formed. -/
theorem Wf.push {row : EntityModification} {block : BlockNumber} (hw : Wf writeBatchMemoize g)
    (hmut : g.entityType.isImmutable = false) (hat : AtOrAfter g row.block)
    (hfresh : row.end? = none) (h : g.push writeBatchMemoize row block = (.ok (), g')) :
    Wf writeBatchMemoize g' :=
  hw.appendRow hmut hat hfresh (push_ok h)

/-- The loop of `append` keeps a group well formed when the rows come in order of
blocks, each single-block and at or after every block the group records. -/
theorem Wf.appendRows {rows : List EntityModification} (hw : Wf writeBatchMemoize g)
    (hmut : g.entityType.isImmutable = false) (hfresh : ∀ r ∈ rows, r.end? = none)
    (hat : ∀ r ∈ rows, AtOrAfter g r.block) (hsorted : rows.Pairwise (·.block ≤ ·.block))
    (h : g.appendRows writeBatchMemoize rows = (.ok (), g')) : Wf writeBatchMemoize g' := by
  -- induction on the rows still to append; the group grows along
  induction rows generalizing g with
  | nil =>
    simp only [appendRows, Prod.mk.injEq] at h
    exact h.2 ▸ hw
  | cons row rows ih =>
    simp only [appendRows] at h
    split at h
    · rename_i g₁ h₁
      obtain ⟨hrow, hrows⟩ := List.pairwise_cons.mp hsorted
      have hfresh₀ := hfresh row List.mem_cons_self
      refine ih (hw.appendRow hmut (hat row List.mem_cons_self) hfresh₀ h₁)
        (by rw [appendRow_entityType h₁]; exact hmut) (fun r hr => hfresh r (.tail _ hr))
        (fun r hr => ?_) hrows h
      exact (hat r (.tail _ hr)).appendRow (hrow r hr) hfresh₀ h₁
    · simp at h

/-- A successful `append` of rows in order of blocks, each single-block and at
or after every block the group records, keeps a group of a mutable type well formed. -/
theorem Wf.append {other : RowGroup} (hw : Wf writeBatchMemoize g)
    (hmut : g.entityType.isImmutable = false) (hfresh : ∀ r ∈ other.rows, r.end? = none)
    (hat : ∀ r ∈ other.rows, AtOrAfter g r.block)
    (hsorted : other.rows.Pairwise (·.block ≤ ·.block))
    (h : g.append writeBatchMemoize other = (.ok (), g')) : Wf writeBatchMemoize g' := by
  unfold RowGroup.append at h
  split at h
  · simp at h
  · exact hw.appendRows hmut hfresh hat hsorted h

theorem append_entityType {other : RowGroup}
    (h : g.append writeBatchMemoize other = (.ok (), g')) : g'.entityType = g.entityType := by
  unfold append at h
  split at h
  · simp at h
  · exact appendRows_entityType h

/-! ### Every group the appends build -/

/-- The groups of type `t` that the appends build from the empty group, each
append taking single-block rows at or after every block the group records, in
order of blocks. -/
inductive Reachable (writeBatchMemoize : Bool) (t : EntityType) : RowGroup → Prop
  | new : Reachable writeBatchMemoize t (RowGroup.new t)
  | appendRow {g g' : RowGroup} {row : EntityModification} :
      Reachable writeBatchMemoize t g → AtOrAfter g row.block → row.end? = none →
      g.appendRow writeBatchMemoize row = (.ok (), g') → Reachable writeBatchMemoize t g'
  | push {g g' : RowGroup} {row : EntityModification} {block : BlockNumber} :
      Reachable writeBatchMemoize t g → AtOrAfter g row.block → row.end? = none →
      g.push writeBatchMemoize row block = (.ok (), g') → Reachable writeBatchMemoize t g'
  | append {g g' other : RowGroup} :
      Reachable writeBatchMemoize t g → (∀ r ∈ other.rows, r.end? = none) →
      (∀ r ∈ other.rows, AtOrAfter g r.block) → other.rows.Pairwise (·.block ≤ ·.block) →
      g.append writeBatchMemoize other = (.ok (), g') → Reachable writeBatchMemoize t g'

theorem Reachable.entityType {t : EntityType} (h : Reachable writeBatchMemoize t g) :
    g.entityType = t := by
  induction h with
  | new => rfl
  | appendRow _ _ _ happ ih => rw [appendRow_entityType happ, ih]
  | push _ _ _ hpush ih => rw [appendRow_entityType (push_ok hpush), ih]
  | append _ _ _ _ happ ih => rw [append_entityType happ, ih]

/-- Every group the appends build for a mutable type is well formed. -/
theorem Reachable.wf {t : EntityType} (hmut : t.isImmutable = false)
    (h : Reachable writeBatchMemoize t g) : Wf writeBatchMemoize g := by
  induction h with
  | new => exact wf_new writeBatchMemoize t
  | appendRow hr hat hfresh happ ih => exact ih.appendRow (hr.entityType ▸ hmut) hat hfresh happ
  | push hr hat hfresh hpush ih => exact ih.push (hr.entityType ▸ hmut) hat hfresh hpush
  | append hr hfresh hat hsorted happ ih =>
    exact ih.append (hr.entityType ▸ hmut) hfresh hat hsorted happ

/-- **The representation invariant of a row group.** For a mutable entity type,
every group that successful `push`, `append_row` and `append` calls build from
the empty group, from rows of one block each (`end = None`) that are at or after
every block the group records, satisfies the invariant; and a failed `append_row`
leaves the rows and `last_mod` as they were. -/
theorem rowGroup_inv_of_reachable (t : EntityType) (hmut : t.isImmutable = false) :
    (∀ g, Reachable writeBatchMemoize t g → Inv writeBatchMemoize g) ∧
    ∀ (g g' : RowGroup) (row : EntityModification) (e : StoreError),
      g.appendRow writeBatchMemoize row = (.error e, g') →
        g'.rows = g.rows ∧ g'.lastMod = g.lastMod := by
  refine ⟨fun g hg => (hg.wf hmut).toInv, fun g g' row e herr => ?_⟩
  rw [appendRow_error herr]
  exact ⟨rfl, rfl⟩

theorem rowGroup_inv_of_reachable_memoized :
    (∀ g, Reachable true ⟨"Thing", false, false⟩ g → Inv true g) ∧
    ∀ (g g' : RowGroup) (row : EntityModification) (e : StoreError),
      g.appendRow true row = (.error e, g') → g'.rows = g.rows ∧ g'.lastMod = g.lastMod :=
  rowGroup_inv_of_reachable ⟨"Thing", false, false⟩ rfl

/-- **`push` alone does not keep the invariant.** The condition it checks, that the
new row is not below the group's last row, lets through an `Insert(x, 3)` after
`Insert(x, 1)` and `Remove(x, 5)`: the remove left no row of its own, and the
version of `x` from block `1` to `5` then overlaps the one from `3` on. -/
theorem push_breaks_inv :
    ∃ (t : EntityType) (g : RowGroup) (row : EntityModification),
      t.isImmutable = false ∧ Reachable true t g ∧ Inv true g ∧
      (∀ last ∈ g.rows.getLast?, last.block ≤ row.block) ∧ row.end? = none ∧
      (g.push true row row.block).1 = .ok () ∧ ¬ Inv true (g.push true row row.block).2 := by
  let t : EntityType := ⟨"Thing", false, false⟩
  let x : EntityKey := ⟨t, .string "x", .ONCHAIN⟩
  let row : EntityModification := .insert x .empty 3 none
  let g₁ := ((RowGroup.new t).push true (.insert x .empty 1 none) 1).2
  let g₂ := (g₁.push true (.remove x 5) 5).2
  have h₁ : (RowGroup.new t).push true (.insert x .empty 1 none) 1 = (.ok (), g₁) :=
    Prod.ext rfl rfl
  have h₂ : g₁.push true (.remove x 5) 5 = (.ok (), g₂) := Prod.ext rfl rfl
  -- the remove at 5 is folded into the insert at 1, which now ends at 5
  have hg₁ : g₁.rows = [.insert x .empty 1 none] := rfl
  have hg₂ : g₂.rows = [.insert x .empty 1 (some 5)] := rfl
  have hreach : Reachable true t g₂ := by
    refine .push (.push .new (fun _ h => by simp [RowGroup.new] at h) rfl h₁) (fun r hr => ?_)
      rfl h₂
    rw [hg₁, List.mem_singleton] at hr
    subst hr
    exact ⟨by decide, by simp [EntityModification.end?]⟩
  refine ⟨t, g₂, row, rfl, hreach, (hreach.wf rfl).toInv, fun last hlast => ?_, rfl, rfl,
    fun hinv => ?_⟩
  · rw [hg₂] at hlast
    obtain rfl : last = .insert x .empty 1 (some 5) := by simpa using hlast.symm
    decide
  · -- the two versions of `x` overlap: the first ends at 5, after the second starts
    have hrows : (g₂.push true row row.block).2.rows =
        [.insert x .empty 1 (some 5), .insert x .empty 3 none] := rfl
    have hprec := hinv.precedes
    rw [hrows, List.pairwise_pair] at hprec
    obtain ⟨e, he, -, hle⟩ := (hprec.2 rfl).2.2 rfl
    simp only [EntityModification.end?, Option.some.injEq] at he
    subst he
    exact absurd hle (by decide)

end RowGroup

end GraphNode
