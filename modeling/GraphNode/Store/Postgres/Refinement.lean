import GraphNode.Store.Write.Invariant
import GraphNode.Store.Write.Batch
import GraphNode.Store.Postgres.Layout

/-!
# Writing a batch is writing its blocks one by one

`Batch::append` promises that writing the appended batch "has the same effect as
writing `self` first and then `batch` in separate transactions". This file
proves it for the table of a mutable entity type.

The reference is `GraphNode.writeMod`: a modification written on its own closes
the current version of its entity at its block if it is a clamp, and adds the
version it writes if it is a write. A row group is written by
`Layout::delete` and `Layout::insert`, that is by `GraphNode.writeGroup`: the
clamps of all rows first, then the versions of all writes, with the ends that
folding gave them.

The two are related one append at a time
(`GraphNode.RowGroup.writeGroup_appendRow`): writing the group after an append
is writing the modification after the group. What makes this work is that folding
only ever ends the *current* version of an id, at the block where the reference
would close it, and that the clamps of the group have left no current version of
any id the group touches (`GraphNode.RowGroup.Settled`). The reference needs the
modifications to be valid – a clamp only for an entity that exists, an insert only
for one that does not – which is what `GraphNode.ValidRun` says.
-/

namespace GraphNode

open EntityModification

/-! ### The reference: one modification at a time -/

/-- Close the current versions of `id` at `block`. -/
def closeCurrent (id : Id) (block : BlockNumber) (T : Table) : Table :=
  T.map fun v => if v.id = id ∧ v.hi = none then { v with hi := some block } else v

/-- The entity `id` exists in `T`: it has a current version. -/
def Live (T : Table) (id : Id) : Prop := ∃ v ∈ T, v.id = id ∧ v.hi = none

/-- The version a modification writes, if it writes one. -/
def versionOf (m : EntityModification) : Table := (m.asWrite.map Version.ofWrite).toList

/-- **Writing one modification on its own**: a clamp closes the current version
of its entity at its block, a write adds the version it writes. -/
def writeMod (T : Table) (m : EntityModification) : Table :=
  (if m.isClamp then closeCurrent m.id m.block T else T) ++ versionOf m

/-- Modifications that are valid when written one after the other from `T`: a
clamp only for an entity that exists, an insert only for one that does not. -/
def ValidRun : Table → List EntityModification → Prop
  | _, [] => True
  | T, m :: rest => (m.isClamp = true ↔ Live T m.id) ∧ ValidRun (writeMod T m) rest

section Reference

variable {T A B : Table} {x y : Id} {b : BlockNumber} {m : EntityModification}

theorem closeCurrent_append :
    closeCurrent x b (A ++ B) = closeCurrent x b A ++ closeCurrent x b B :=
  List.map_append

theorem closeCurrent_of_not_live (h : ¬Live T x) : closeCurrent x b T = T := by
  unfold closeCurrent
  conv_rhs => rw [← List.map_id T]
  refine List.map_congr_left fun v hv => ?_
  rw [if_neg fun hv' => h ⟨v, hv, hv'⟩]
  rfl

theorem live_append : Live (A ++ B) x ↔ Live A x ∨ Live B x := by
  simp only [Live, List.mem_append, or_and_right, exists_or]

/-- After closing, `x` has no current version. -/
theorem not_live_closeCurrent : ¬Live (closeCurrent x b T) x := by
  rintro ⟨v, hv, hid, hhi⟩
  obtain ⟨w, -, rfl⟩ := List.mem_map.mp hv
  by_cases hw : w.id = x ∧ w.hi = none
  · rw [if_pos hw] at hhi
    simp at hhi
  · rw [if_neg hw] at hid hhi
    exact hw ⟨hid, hhi⟩

/-- Closing `y` changes nothing for another id. -/
theorem live_closeCurrent_of_ne (hne : y ≠ x) : Live (closeCurrent y b T) x ↔ Live T x := by
  constructor
  · rintro ⟨v, hv, hid, hhi⟩
    obtain ⟨w, hw, rfl⟩ := List.mem_map.mp hv
    by_cases hw' : w.id = y ∧ w.hi = none
    · rw [if_pos hw'] at hid
      exact absurd (hw'.1.symm.trans hid) hne
    · rw [if_neg hw'] at hid hhi
      exact ⟨w, hw, hid, hhi⟩
  · rintro ⟨v, hv, hid, hhi⟩
    refine ⟨v, List.mem_map.mpr ⟨v, hv, ?_⟩, hid, hhi⟩
    rw [if_neg fun h => hne (h.1.symm.trans hid)]

/-- Closing never makes a version current. -/
theorem live_of_live_closeCurrent (h : Live (closeCurrent y b T) x) : Live T x := by
  by_cases hxy : y = x
  · subst hxy
    exact absurd h not_live_closeCurrent
  · exact (live_closeCurrent_of_ne hxy).mp h

theorem mem_versionOf {v : Version} (hv : v ∈ versionOf m) :
    v.id = m.id ∧ v.hi = m.end? ∧ m.isWrite = true := by
  cases m <;> simp_all [versionOf, asWrite, Version.ofWrite, EntityModification.id, end?, isWrite]

/-- The version of a single-block write is current. -/
theorem live_versionOf (hfresh : m.end? = none) (hw : m.isWrite = true) :
    Live (versionOf m) m.id := by
  cases m with
  | insert k d b e => exact ⟨_, List.mem_singleton_self _, rfl, hfresh⟩
  | overwrite k d b e => exact ⟨_, List.mem_singleton_self _, rfl, hfresh⟩
  | remove k b => simp [isWrite] at hw

theorem not_live_versionOf (hne : m.id ≠ x) : ¬Live (versionOf m) x := by
  rintro ⟨v, hv, hid, -⟩
  exact hne ((mem_versionOf hv).1.symm.trans hid)

/-- Writing another entity leaves `x` as it was. -/
theorem live_writeMod_of_ne (hne : m.id ≠ x) : Live (writeMod T m) x ↔ Live T x := by
  unfold writeMod
  rw [live_append, or_iff_left (not_live_versionOf hne)]
  split
  · exact live_closeCurrent_of_ne hne
  · rfl

/-- After a single-block modification, its entity exists exactly when it wrote. -/
theorem live_writeMod_self (hfresh : m.end? = none) (hc : m.isClamp = true ∨ ¬Live T m.id) :
    Live (writeMod T m) m.id ↔ m.isWrite = true := by
  unfold writeMod
  rw [live_append]
  constructor
  · rintro (h | h)
    · -- an insert adds no current version to an entity that does not exist
      split at h
      · exact absurd h not_live_closeCurrent
      · rename_i hnc
        exact absurd h (hc.resolve_left hnc)
    · obtain ⟨v, hv, -⟩ := h
      exact (mem_versionOf hv).2.2
  · intro hw
    exact .inr (live_versionOf hfresh hw)

theorem validRun_append {ms ms' : List EntityModification} :
    ValidRun T (ms ++ ms') ↔ ValidRun T ms ∧ ValidRun (ms.foldl writeMod T) ms' := by
  induction ms generalizing T with
  | nil => simp [ValidRun]
  | cons m ms ih => simp only [List.cons_append, ValidRun, List.foldl_cons, ih, and_assoc]

end Reference

/-! ### The same versions in another order

A table is a list, but what the writes leave is the set of its versions: two tables that are
permutations of each other hold the same versions. Modifications of different entities can be
written in either order, so a block written in any order leaves the same versions. -/

section Order

variable {T T' : Table} {x y : Id} {m m' : EntityModification}

/-- Closing two different ids, in either order. -/
theorem closeCurrent_comm (hne : x ≠ y) (b b' : BlockNumber) (T : Table) :
    closeCurrent x b (closeCurrent y b' T) = closeCurrent y b' (closeCurrent x b T) := by
  unfold closeCurrent
  rw [List.map_map, List.map_map]
  refine List.map_congr_left fun v _ => ?_
  -- a current version is closed by at most one of the two
  by_cases hh : v.hi = none
  · by_cases hx : v.id = x
    · simp [hx, hh, hne]
    · by_cases hy : v.id = y <;> simp [hx, hy, hh, Ne.symm hne]
  · simp [hh]

theorem writeMod_perm (h : T.Perm T') (m : EntityModification) :
    (writeMod T m).Perm (writeMod T' m) := by
  unfold writeMod closeCurrent
  split
  · exact (h.map _).append_right _
  · exact h.append_right _

/-- Writing after the version of another entity: the clamp leaves that version alone. -/
theorem writeMod_append_versionOf (hne : m.id ≠ m'.id) (A : Table) :
    writeMod (A ++ versionOf m) m' =
      (if m'.isClamp then closeCurrent m'.id m'.block A else A) ++ versionOf m ++ versionOf m' := by
  unfold writeMod
  split
  · rw [closeCurrent_append, closeCurrent_of_not_live (not_live_versionOf hne)]
  · rfl

/-- **Two modifications of different entities, in either order, write the same versions.** -/
theorem writeMod_comm (hne : m.id ≠ m'.id) (T : Table) :
    (writeMod (writeMod T m) m').Perm (writeMod (writeMod T m') m) := by
  -- the two clamps commute, and the two versions are added in either order
  have hclamps : (if m'.isClamp then closeCurrent m'.id m'.block
        (if m.isClamp then closeCurrent m.id m.block T else T)
      else if m.isClamp then closeCurrent m.id m.block T else T) =
      (if m.isClamp then closeCurrent m.id m.block
        (if m'.isClamp then closeCurrent m'.id m'.block T else T)
      else if m'.isClamp then closeCurrent m'.id m'.block T else T) := by
    split_ifs <;> first | rfl | exact closeCurrent_comm (Ne.symm hne) _ _ T
  have hm : writeMod T m = (if m.isClamp then closeCurrent m.id m.block T else T) ++ versionOf m :=
    rfl
  have hm' : writeMod T m' =
      (if m'.isClamp then closeCurrent m'.id m'.block T else T) ++ versionOf m' := rfl
  rw [hm, hm', writeMod_append_versionOf hne, writeMod_append_versionOf (Ne.symm hne), hclamps,
    List.append_assoc, List.append_assoc]
  exact List.Perm.append_left _ List.perm_append_comm

theorem foldl_writeMod_perm_of_perm (h : T.Perm T') (ms : List EntityModification) :
    (ms.foldl writeMod T).Perm (ms.foldl writeMod T') := by
  induction ms generalizing T T' with
  | nil => exact h
  | cons m ms ih => exact ih (writeMod_perm h m)

/-- **Modifications of distinct entities, in any order, write the same versions.** -/
theorem foldl_writeMod_perm {ms ms' : List EntityModification} (hp : ms.Perm ms')
    (hnodup : (ms.map (·.id)).Nodup) (T : Table) :
    (ms.foldl writeMod T).Perm (ms'.foldl writeMod T) := by
  induction hp generalizing T with
  | nil => exact .refl _
  | cons m _ ih => exact ih (List.nodup_cons.mp hnodup).2 _
  | swap m' m ms =>
    -- `m` and `m'` are different entities, written either way round before the others
    have hne : m.id ≠ m'.id := by
      rw [List.map_cons, List.map_cons, List.nodup_cons, List.mem_cons] at hnodup
      exact fun h => hnodup.1 (.inl h)
    exact foldl_writeMod_perm_of_perm (writeMod_comm hne T) ms
  | trans h₁ _ ih₁ ih₂ => exact (ih₁ hnodup T).trans (ih₂ ((h₁.map _).nodup_iff.mp hnodup) T)

end Order

/-! ### Writing a row group -/

/-- The versions the writes of `rows` insert. -/
def writesOf (rows : List EntityModification) : Table :=
  (rows.filterMap (·.asWrite)).map Version.ofWrite

/-- What `Layout::delete` and then `Layout::insert` make of a table: the clamps
of all rows, then the versions of all writes. -/
def writeGroup (g : RowGroup) (T : Table) : Table := Layout.clampRows g.rows T ++ writesOf g.rows

section Group

variable {T : Table} {x : Id} {b : BlockNumber} {rows : List EntityModification}

theorem writesOf_append (rows₁ rows₂ : List EntityModification) :
    writesOf (rows₁ ++ rows₂) = writesOf rows₁ ++ writesOf rows₂ := by
  simp [writesOf]

theorem writesOf_cons (r : EntityModification) (rows : List EntityModification) :
    writesOf (r :: rows) = versionOf r ++ writesOf rows := by
  cases h : r.asWrite <;> simp [writesOf, versionOf, h]

theorem clampRows_cons (r : EntityModification) (T : Table) :
    Layout.clampRows (r :: rows) T =
      Layout.clampRows rows (if r.isClamp then closeCurrent r.id r.block T else T) := by
  simp [Layout.clampRows, Layout.clampRangeQuery, closeCurrent]

/-- The versions the writes insert are those of the rows, with their ends. -/
theorem mem_writesOf {v : Version} (hv : v ∈ writesOf rows) :
    ∃ r ∈ rows, v.id = r.id ∧ v.hi = r.end? ∧ r.isWrite = true := by
  induction rows with
  | nil => simp [writesOf] at hv
  | cons r rows ih =>
    rw [writesOf_cons, List.mem_append] at hv
    rcases hv with hv | hv
    · exact ⟨r, List.mem_cons_self, mem_versionOf hv⟩
    · obtain ⟨r', hr', h⟩ := ih hv
      exact ⟨r', .tail _ hr', h⟩

/-- No write of `x` among the rows is current. -/
theorem not_live_writesOf (h : ∀ r ∈ rows, r.id = x → r.isWrite = true → r.end? ≠ none) :
    ¬Live (writesOf rows) x := by
  rintro ⟨v, hv, hid, hhi⟩
  obtain ⟨r, hr, hvid, hvhi, hw⟩ := mem_writesOf hv
  exact h r hr (hvid.symm.trans hid) hw (hvhi ▸ hhi)

end Group

/-! ### One append -/

namespace RowGroup

variable {writeBatchMemoize : Bool} {g g' : RowGroup} {T : Table}

/-- After the clamps of the group, no id the group touches has a current version
left in `T`: every such version has been closed, or there was none. -/
def Settled (g : RowGroup) (T : Table) : Prop :=
  ∀ r ∈ g.rows, ¬Live (Layout.clampRows g.rows T) r.id

theorem clampRows_append_singleton (rows : List EntityModification) (m : EntityModification)
    (T : Table) :
    Layout.clampRows (rows ++ [m]) T =
      if m.isClamp then closeCurrent m.id m.block (Layout.clampRows rows T)
      else Layout.clampRows rows T := by
  rw [Layout.clampRows_append, clampRows_cons]
  rfl

theorem writeGroup_pushRow (m : EntityModification) :
    writeGroup (g.pushRow writeBatchMemoize m) T =
      (if m.isClamp then closeCurrent m.id m.block (Layout.clampRows g.rows T)
        else Layout.clampRows g.rows T) ++ writesOf g.rows ++ versionOf m := by
  rw [writeGroup, pushRow, clampRows_append_singleton, writesOf_append, writesOf_cons,
    show writesOf [] = [] from rfl, List.append_nil, List.append_assoc]

theorem entityCountChange_pushRow (m : EntityModification) :
    (g.pushRow writeBatchMemoize m).entityCountChange =
      g.entityCountChange + m.entityCountChange := by
  simp [entityCountChange, pushRow]

/-- The rows of an id before its last row are removes or ended versions. -/
theorem ended_before_last (hw : Wf writeBatchMemoize g) {i : Nat} (hi : i < g.rows.length)
    {prev : EntityModification} (hprev : g.rows[i] = prev) :
    ∀ r ∈ g.rows.take i, r.id = prev.id → r.isWrite = true → r.end? ≠ none := by
  intro r hr hrid hrw
  obtain ⟨j, hj, rfl⟩ := List.getElem_of_mem hr
  have hji : j < i := by
    rw [List.length_take] at hj
    omega
  rw [List.getElem_take] at hrid hrw ⊢
  have hp := List.pairwise_iff_getElem.mp hw.precedes j i (by omega) hi hji
  rw [hprev] at hp
  obtain ⟨e, he, -⟩ := (hp.2 hrid).2.2 hrw
  simp [he]

/-- The last row of an id, if a write, holds the only version of the id that may
be current among the writes. -/
theorem not_live_writesOf_of_last (hw : Wf writeBatchMemoize g) {i : Nat} (hi : i < g.rows.length)
    {prev : EntityModification} (hprev : g.rows[i] = prev)
    (hlast : ∀ j (hj : j < g.rows.length), i < j → g.rows[j].id ≠ prev.id)
    (hend : prev.isWrite = true → prev.end? ≠ none) : ¬Live (writesOf g.rows) prev.id := by
  refine not_live_writesOf fun r hr hrid hrw => ?_
  obtain ⟨j, hj, rfl⟩ := List.getElem_of_mem hr
  rcases lt_trichotomy j i with hji | rfl | hij
  · exact ended_before_last hw hi hprev _
      (List.mem_take_iff_getElem.mpr ⟨j, by simp; omega, by simp⟩)
      hrid hrw
  · exact hprev ▸ hend (hprev ▸ hrw)
  · exact absurd hrid (hlast j hj hij)

/-- Clamping a row keeps what the clamps of the group close. -/
theorem clampRows_setRow {i : Nat} (hi : i < g.rows.length) {prev p' : EntityModification}
    {b : BlockNumber} (hprev : g.rows[i] = prev) (hc : prev.clamp b = .ok p') :
    Layout.clampRows (g.setRow i p').rows T = Layout.clampRows g.rows T := by
  obtain ⟨hkey, hblock, -, -, -, -, hclamp, -⟩ := EntityModification.clamp_eq_ok hc
  have hsplit : g.rows = g.rows.take i ++ prev :: g.rows.drop (i + 1) :=
    hprev ▸ eq_take_append_getElem_cons_drop hi
  simp only [setRow]
  conv_rhs => rw [hsplit]
  rw [set_eq_take_append_cons_drop' hi p', Layout.clampRows_append, Layout.clampRows_append,
    clampRows_cons, clampRows_cons, hclamp, EntityModification.id_eq_of_key_eq hkey, hblock]

/-- **Clamping the last row of an id at `b`** writes what closing the current version
of the id at `b` among the writes does. -/
theorem writeGroup_setRow (hw : Wf writeBatchMemoize g) {i : Nat} (hi : i < g.rows.length)
    {prev p' : EntityModification} {b : BlockNumber} (hprev : g.rows[i] = prev)
    (hlast : ∀ j (hj : j < g.rows.length), i < j → g.rows[j].id ≠ prev.id)
    (hc : prev.clamp b = .ok p') :
    writeGroup (g.setRow i p') T =
      Layout.clampRows g.rows T ++ closeCurrent prev.id b (writesOf g.rows) := by
  have hsplit : g.rows = g.rows.take i ++ prev :: g.rows.drop (i + 1) :=
    hprev ▸ eq_take_append_getElem_cons_drop hi
  -- the rows after `i` are of other ids
  have hafter : ∀ r ∈ g.rows.drop (i + 1), r.id ≠ prev.id := by
    intro r hr
    obtain ⟨j, hj, rfl⟩ := List.getElem_of_mem hr
    rw [List.getElem_drop]
    exact hlast _ (by simp at hj; omega) (by omega)
  -- the clamped row is the version of `prev`, closed
  have hversion : closeCurrent prev.id b (versionOf prev) = versionOf p' := by
    cases prev with
    | remove k b' => simp [clamp] at hc
    | insert k d b' e =>
      cases e with
      | some _ => simp [clamp] at hc
      | none =>
        obtain rfl : insert k d b' (some b) = p' := by simpa [clamp] using hc
        simp [closeCurrent, versionOf, asWrite, Version.ofWrite, EntityModification.id]
    | overwrite k d b' e =>
      cases e with
      | some _ => simp [clamp] at hc
      | none =>
        obtain rfl : overwrite k d b' (some b) = p' := by simpa [clamp] using hc
        simp [closeCurrent, versionOf, asWrite, Version.ofWrite, EntityModification.id]
  rw [writeGroup, clampRows_setRow hi hprev hc]
  congr 1
  simp only [setRow]
  conv_rhs => rw [hsplit]
  rw [set_eq_take_append_cons_drop' hi p', writesOf_append, writesOf_append, writesOf_cons,
    writesOf_cons, closeCurrent_append, closeCurrent_append, hversion,
    closeCurrent_of_not_live (not_live_writesOf (ended_before_last hw hi hprev)),
    closeCurrent_of_not_live (not_live_writesOf fun r hr hrid => absurd hrid (hafter r hr))]

theorem entityCountChange_setRow {i : Nat} (hi : i < g.rows.length) {prev p' : EntityModification}
    {b : BlockNumber} (hprev : g.rows[i] = prev) (hc : prev.clamp b = .ok p') :
    (g.setRow i p').entityCountChange = g.entityCountChange - 1 := by
  have hsplit : g.rows = g.rows.take i ++ prev :: g.rows.drop (i + 1) :=
    hprev ▸ eq_take_append_getElem_cons_drop hi
  simp only [entityCountChange, setRow]
  conv_rhs => rw [hsplit]
  rw [set_eq_take_append_cons_drop' hi p']
  simp only [List.map_append, List.map_cons, List.sum_append, List.sum_cons,
    EntityModification.entityCountChange_clamp hc]
  ring

/-- **One append writes what the modification does when written after the group.**
For a mutable type and a valid single-block modification `m`, writing the group
after the append is writing `m` after the group; the clamps still leave no current
version of the ids the group touches; and the count of the group grows by that
of `m`. -/
theorem writeGroup_appendRow {m : EntityModification} (hw : Wf writeBatchMemoize g)
    (hmut : g.entityType.isImmutable = false) (hfresh : m.end? = none) (hset : Settled g T)
    (hvalid : m.isClamp = true ↔ Live (writeGroup g T) m.id)
    (h : g.appendRow writeBatchMemoize m = (.ok (), g')) :
    writeGroup g' T = writeMod (writeGroup g T) m ∧ Settled g' T ∧
      g'.entityCountChange = g.entityCountChange + m.entityCountChange := by
  rcases appendRow_ok h with ⟨himm, -⟩ | ⟨-, ⟨hnone, rfl⟩ | ⟨i, prev, hsome, hfold⟩⟩
  · simp [hmut] at himm
  · -- the first row of its id: the writes hold no version of it
    have hno := prevRowMut_none hw.lastMod hnone
    have hnlive : ¬Live (writesOf g.rows) m.id :=
      not_live_writesOf fun r hr hrid => absurd hrid (hno r hr)
    refine ⟨?_, fun r hr => ?_, entityCountChange_pushRow m⟩
    · rw [writeGroup_pushRow, writeMod, writeGroup]
      split
      · rw [closeCurrent_append, closeCurrent_of_not_live hnlive, List.append_assoc]
      · rw [List.append_assoc]
    · simp only [pushRow, List.mem_append, List.mem_singleton] at hr
      show ¬Live (Layout.clampRows (g.rows ++ [m]) T) r.id
      rw [clampRows_append_singleton]
      rcases hr with hr | rfl
      · split
        · exact fun hl => hset r hr (live_of_live_closeCurrent hl)
        · exact hset r hr
      · split
        · exact not_live_closeCurrent
        · -- an insert: the entity did not exist
          rename_i hc
          have := mt hvalid.mpr hc
          rw [writeGroup, live_append, not_or] at this
          exact this.1
  obtain ⟨hi, hprev, hpid, hlast⟩ := prevRowMut_some hw.lastMod hsome
  have hlast' : ∀ j (hj : j < g.rows.length), i < j → g.rows[j].id ≠ prev.id := by
    rw [hpid]
    exact hlast
  have hmem : prev ∈ g.rows := hprev ▸ List.getElem_mem hi
  -- the clamps of the group left no current version of the id
  have hsettled : ¬Live (Layout.clampRows g.rows T) m.id := hpid ▸ hset prev hmem
  have hcount := EntityModification.entityCountChange_of_end_none hfresh
  obtain ⟨-, -, hcases⟩ := foldRow_ok hfold
  rcases hcases with ⟨hpw, hmw, -⟩ | ⟨-, hmw, hmc, rfl⟩ | ⟨p', m', hclamp, hmw, hmc, hins, rfl⟩ |
    ⟨p', hclamp, hmw, rfl⟩
  · -- a second remove: the entity does not exist, so the remove is not valid
    have hdead : ¬Live (writeGroup g T) m.id := by
      rw [writeGroup, live_append, not_or]
      exact ⟨hsettled, hpid ▸ not_live_writesOf_of_last hw hi hprev hlast' (by simp [hpw])⟩
    have hclamp : m.isClamp = true := by cases m <;> simp_all [isWrite, isClamp]
    exact absurd (hvalid.mp hclamp) hdead
  · -- an insert after a deleted version
    refine ⟨?_, fun r hr => ?_, entityCountChange_pushRow m⟩
    · rw [writeGroup_pushRow, writeMod, if_neg (by simp [hmc]), if_neg (by simp [hmc]), writeGroup,
        List.append_assoc]
    · simp only [pushRow, List.mem_append, List.mem_singleton] at hr
      show ¬Live (Layout.clampRows (g.rows ++ [m]) T) r.id
      rw [clampRows_append_singleton, if_neg (by simp [hmc])]
      rcases hr with hr | rfl
      · exact hset r hr
      · exact hsettled
  · -- an overwrite: the last version is ended at the block of `m`, and `m` inserted
    obtain ⟨hk', -, he', -, hc', -⟩ := EntityModification.intoInsert_eq_ok hins
    have hver : versionOf m' = versionOf m := by
      simp [versionOf, EntityModification.asWrite_intoInsert hins]
    obtain ⟨hkey, -⟩ := EntityModification.clamp_eq_ok hclamp
    refine ⟨?_, fun r hr => ?_, ?_⟩
    · rw [writeGroup_pushRow, if_neg (by simp [hc']), hver,
        show Layout.clampRows (g.setRow i p').rows T ++ writesOf (g.setRow i p').rows =
          writeGroup (g.setRow i p') T from rfl,
        writeGroup_setRow hw hi hprev hlast' hclamp, writeMod, if_pos hmc, writeGroup,
        closeCurrent_append, closeCurrent_of_not_live hsettled, hpid]
    · simp only [pushRow, List.mem_append, List.mem_singleton] at hr
      show ¬Live (Layout.clampRows ((g.setRow i p').rows ++ [m']) T) r.id
      rw [clampRows_append_singleton, if_neg (by simp [hc']), clampRows_setRow hi hprev hclamp]
      rcases hr with hr | rfl
      · rcases List.mem_or_eq_of_mem_set hr with hr | rfl
        · exact hset r hr
        · rw [EntityModification.id_eq_of_key_eq hkey]
          exact hset prev hmem
      · rw [EntityModification.id_eq_of_key_eq hk']
        exact hsettled
    · have hcount' := EntityModification.entityCountChange_of_end_none (he'.trans hfresh)
      rw [entityCountChange_pushRow, entityCountChange_setRow hi hprev hclamp, hcount', hcount,
        if_neg (by simp [hc']), if_pos hmc, if_pos hmw]
      ring
  · -- a remove: the last version is ended at the block of `m`
    have hnover : versionOf m = [] := by cases m <;> simp_all [isWrite, versionOf, asWrite]
    have hmc : m.isClamp = true := by cases m <;> simp_all [isWrite, isClamp]
    obtain ⟨hkey, -⟩ := EntityModification.clamp_eq_ok hclamp
    refine ⟨?_, fun r hr => ?_, ?_⟩
    · rw [writeGroup_setRow hw hi hprev hlast' hclamp, writeMod, if_pos hmc, writeGroup,
        closeCurrent_append, closeCurrent_of_not_live hsettled, hpid, hnover, List.append_nil]
    · show ¬Live (Layout.clampRows (g.setRow i p').rows T) r.id
      rw [clampRows_setRow hi hprev hclamp]
      rcases List.mem_or_eq_of_mem_set hr with hr | rfl
      · exact hset r hr
      · rw [EntityModification.id_eq_of_key_eq hkey]
        exact hset prev hmem
    · rw [entityCountChange_setRow hi hprev hclamp, hcount, if_pos hmc, if_neg (by simp [hmw])]
      ring

/-- Single-block rows at or after `b` keep everything a group records at or before `b`. -/
theorem AtOrAfter.appendRows {b : BlockNumber} {rows : List EntityModification}
    (h : AtOrAfter g b) (hrows : ∀ r ∈ rows, r.block ≤ b ∧ r.end? = none)
    (happ : g.appendRows writeBatchMemoize rows = (.ok (), g')) : AtOrAfter g' b := by
  induction rows generalizing g with
  | nil =>
    simp only [appendRows, Prod.mk.injEq] at happ
    exact happ.2 ▸ h
  | cons row rows ih =>
    simp only [appendRows] at happ
    split at happ
    · rename_i g₁ h₁
      have hrow := hrows row List.mem_cons_self
      exact ih (h.appendRow hrow.1 hrow.2 h₁) (fun r hr => hrows r (.tail _ hr)) happ
    · simp at happ

/-- **A run of appends writes what its modifications do when written one after
the other after the group.** -/
theorem writeGroup_appendRows {rows : List EntityModification} (hw : Wf writeBatchMemoize g)
    (hmut : g.entityType.isImmutable = false) (hset : Settled g T)
    (hfresh : ∀ r ∈ rows, r.end? = none) (hat : ∀ r ∈ rows, AtOrAfter g r.block)
    (hsorted : rows.Pairwise (·.block ≤ ·.block)) (hvalid : ValidRun (writeGroup g T) rows)
    (h : g.appendRows writeBatchMemoize rows = (.ok (), g')) :
    writeGroup g' T = rows.foldl writeMod (writeGroup g T) ∧ Settled g' T ∧
      Wf writeBatchMemoize g' ∧
      g'.entityCountChange = g.entityCountChange + (rows.map (·.entityCountChange)).sum := by
  -- induction on the rows still to append; the group and the reference grow along
  induction rows generalizing g with
  | nil =>
    simp only [appendRows, Prod.mk.injEq] at h
    rw [← h.2]
    exact ⟨rfl, hset, hw, by simp⟩
  | cons row rows ih =>
    simp only [appendRows] at h
    split at h
    · rename_i g₁ h₁
      obtain ⟨hrow, hsorted'⟩ := List.pairwise_cons.mp hsorted
      have hfresh₀ := hfresh row List.mem_cons_self
      obtain ⟨hv₀, hvalid'⟩ := hvalid
      obtain ⟨hwrite, hset₁, hcount⟩ := writeGroup_appendRow hw hmut hfresh₀ hset hv₀ h₁
      obtain ⟨h₁', h₂, h₃, h₄⟩ := ih (hw.appendRow hmut (hat row List.mem_cons_self) hfresh₀ h₁)
        (by rw [appendRow_entityType h₁]; exact hmut) hset₁ (fun r hr => hfresh r (.tail _ hr))
        (fun r hr => (hat r (.tail _ hr)).appendRow (hrow r hr) hfresh₀ h₁) hsorted'
        (by rw [hwrite]; exact hvalid') h
      refine ⟨by rw [h₁', hwrite]; rfl, h₂, h₃, ?_⟩
      rw [h₄, hcount, List.map_cons, List.sum_cons]
      ring
    · simp at h

/-- No row of a group has the id: `prev_row_mut` finds nothing. -/
theorem prevRowMut_eq_none (hlm : LastModCorrect writeBatchMemoize g) {x : Id}
    (h : ∀ r ∈ g.rows, r.id ≠ x) : g.prevRowMut writeBatchMemoize x = none := by
  rw [prevRowMut_eq hlm, (rfindIdx_eq_none_iff g.rows).mpr (fun r hr => by simpa using h r hr)]
  rfl

/-- Rows of distinct ids, none of them in the group yet, are pushed as they are. -/
theorem appendRows_distinct {rows : List EntityModification}
    (hlm : LastModCorrect writeBatchMemoize g)
    (hmut : g.entityType.isImmutable = false) (hnodup : (rows.map (·.id)).Nodup)
    (hnew : ∀ r ∈ g.rows, ∀ m ∈ rows, r.id ≠ m.id)
    (h : g.appendRows writeBatchMemoize rows = (.ok (), g')) : g'.rows = g.rows ++ rows := by
  induction rows generalizing g with
  | nil =>
    simp only [appendRows, Prod.mk.injEq] at h
    rw [← h.2, List.append_nil]
  | cons row rows ih =>
    rw [List.map_cons, List.nodup_cons] at hnodup
    simp only [appendRows] at h
    split at h
    · rename_i g₁ h₁
      have hnone := prevRowMut_eq_none hlm fun r hr => hnew r hr row List.mem_cons_self
      -- the first row of its id is pushed
      have hg₁ : g₁ = g.pushRow writeBatchMemoize row := by
        rcases appendRow_ok h₁ with ⟨himm, -⟩ | ⟨-, ⟨-, rfl⟩ | ⟨i, prev, hsome, -⟩⟩
        · simp [hmut] at himm
        · rfl
        · rw [hnone] at hsome
          cases hsome
      subst hg₁
      rw [ih hlm.pushRow (by rw [← hmut]; rfl) hnodup.2 (fun r hr m hm => ?_) h]
      · simp [pushRow]
      simp only [pushRow, List.mem_append, List.mem_singleton] at hr
      rcases hr with hr | rfl
      · exact hnew r hr m (.tail _ hm)
      · exact fun heq => hnodup.1 (List.mem_map.mpr ⟨m, hm, heq.symm⟩)
    · simp at h

end RowGroup

/-! ### Valid blocks -/

/-- Modifications of distinct entities, each valid against `T`, are valid one
after the other. -/
theorem validRun_of_distinct {T : Table} {ms : List EntityModification}
    (hnodup : (ms.map (·.id)).Nodup) (h : ∀ m ∈ ms, m.isClamp = true ↔ Live T m.id) :
    ValidRun T ms := by
  induction ms generalizing T with
  | nil => trivial
  | cons m ms ih =>
    rw [List.map_cons, List.nodup_cons] at hnodup
    refine ⟨h m List.mem_cons_self, ih hnodup.2 fun m' hm' => ?_⟩
    have hne : m.id ≠ m'.id := fun heq => hnodup.1 (List.mem_map.mpr ⟨m', hm', heq.symm⟩)
    rw [live_writeMod_of_ne hne]
    exact h m' (.tail _ hm')

/-- **Which entities exist after a block**: those the block writes, and those that
existed and the block does not touch. -/
theorem live_foldl_writeMod {T : Table} {x : Id} {ms : List EntityModification}
    (hnodup : (ms.map (·.id)).Nodup) (hfresh : ∀ m ∈ ms, m.end? = none)
    (hins : ∀ m ∈ ms, m.isClamp = true ∨ ¬Live T m.id) :
    Live (ms.foldl writeMod T) x ↔
      (∃ m ∈ ms, m.id = x ∧ m.isWrite = true) ∨ (Live T x ∧ ∀ m ∈ ms, m.id ≠ x) := by
  induction ms generalizing T with
  | nil => simp
  | cons m ms ih =>
    rw [List.map_cons, List.nodup_cons] at hnodup
    have hne : ∀ m' ∈ ms, m.id ≠ m'.id :=
      fun m' hm' heq => hnodup.1 (List.mem_map.mpr ⟨m', hm', heq.symm⟩)
    have hins' : ∀ m' ∈ ms, m'.isClamp = true ∨ ¬Live (writeMod T m) m'.id := by
      intro m' hm'
      rw [live_writeMod_of_ne (hne m' hm')]
      exact hins m' (.tail _ hm')
    rw [List.foldl_cons, ih hnodup.2 (fun m' hm' => hfresh m' (.tail _ hm')) hins']
    by_cases hx : m.id = x
    · -- the block's own modification of `x` decides
      subst hx
      rw [live_writeMod_self (hfresh m List.mem_cons_self) (hins m List.mem_cons_self)]
      have hnone : ¬∃ m' ∈ ms, m'.id = m.id ∧ m'.isWrite = true :=
        fun ⟨m', hm', heq, _⟩ => hne m' hm' heq.symm
      simp only [hnone, false_or, List.mem_cons, exists_eq_or_imp, true_and, forall_eq_or_imp,
        ne_eq, not_true_eq_false, false_and, and_false, or_false]
      constructor
      · exact fun h => h.1
      · exact fun h => ⟨h, fun m' hm' heq => hne m' hm' heq.symm⟩
    · rw [live_writeMod_of_ne hx]
      simp only [List.mem_cons, exists_eq_or_imp, hx, false_and, false_or, forall_eq_or_imp,
        ne_eq, not_false_eq_true, true_and]

/-- The same block in another order leaves the same entities existing. -/
theorem live_foldl_writeMod_perm {T T' : Table} {ms ms' : List EntityModification}
    (hperm : ms'.Perm ms) (hnodup : (ms.map (·.id)).Nodup) (hfresh : ∀ m ∈ ms, m.end? = none)
    (hlive : ∀ x, Live T' x ↔ Live T x) (hvalid : ∀ m ∈ ms, m.isClamp = true ↔ Live T m.id)
    (x : Id) : Live (ms'.foldl writeMod T') x ↔ Live (ms.foldl writeMod T) x := by
  have hins : ∀ m ∈ ms, m.isClamp = true ∨ ¬Live T m.id := by
    intro m hm
    by_cases hc : m.isClamp = true
    · exact .inl hc
    · exact .inr (mt (hvalid m hm).mpr hc)
  rw [live_foldl_writeMod hnodup hfresh hins,
    live_foldl_writeMod ((hperm.map _).nodup_iff.mpr hnodup)
      (fun m hm => hfresh m (hperm.mem_iff.mp hm))
      (fun m hm => by rw [hlive]; exact hins m (hperm.mem_iff.mp hm))]
  simp only [hperm.mem_iff, hlive]

/-- The modifications of each block, valid against the table the earlier blocks
leave, written one modification after the other in the order given. -/
def ValidBlocks (T : Table) : List (BlockNumber × List EntityModification) → Prop
  | [] => True
  | (_, ms) :: rest =>
    (∀ m ∈ ms, m.isClamp = true ↔ Live T m.id) ∧ ValidBlocks (ms.foldl writeMod T) rest

/-- Valid blocks stay valid with every block sorted as `Batch::new` sorts it. -/
theorem validRun_sortMods {T T' : Table} (hlive : ∀ x, Live T' x ↔ Live T x) :
    ∀ {blocks : List (BlockNumber × List EntityModification)},
      (∀ p ∈ blocks, (p.2.map (·.id)).Nodup) → (∀ p ∈ blocks, ∀ m ∈ p.2, m.end? = none) →
      ValidBlocks T blocks → ValidRun T' (blocks.flatMap fun p => Batch.sortMods p.2)
  | [], _, _, _ => trivial
  | (b, ms) :: rest, hnodup, hfresh, ⟨hvalid, hrest⟩ => by
    have hperm := List.mergeSort_perm ms fun a b => decide (Batch.sortKey a ≤ Batch.sortKey b)
    have hnd := hnodup (b, ms) List.mem_cons_self
    have hfr := hfresh (b, ms) List.mem_cons_self
    rw [List.flatMap_cons, validRun_append]
    refine ⟨validRun_of_distinct ((hperm.map _).nodup_iff.mpr hnd) fun m hm => ?_, ?_⟩
    · rw [hlive]
      exact hvalid m (hperm.mem_iff.mp hm)
    · exact validRun_sortMods (live_foldl_writeMod_perm hperm hnd hfr hlive hvalid)
        (fun p hp => hnodup p (.tail _ hp)) (fun p hp => hfresh p (.tail _ hp)) hrest

end GraphNode
