import GraphNode.Store.Write.Batch
import GraphNode.Store.Postgres.Refinement

/-!
# Writing a batch of several blocks

The writer does not write each block as it comes: it appends the batch of a
block to the batch still queued with `Batch::append`, and writes the combined
batch with `DeploymentStore::apply_entity_modifications`. This module shows that
for the changes of one mutable entity type this is the same as writing the
blocks one after the other: the combined batch leaves the versions that writing the
modifications one at a time leaves (`GraphNode.writeMod`: close the current version of a
clamped entity, add the version a write writes), the same table that writing each block in
its own `apply_entity_modifications` leaves, and reports the sum of the blocks' changes to
the number of entities.

`Batch::new` sorts the modifications of a block, so the table holds the versions in another
order than the reference; the modifications of a block are of distinct entities, and such
modifications written in either order leave the same versions
(`GraphNode.foldl_writeMod_perm`).

The blocks are given as in the subgraph: the modifications of each block, of
distinct entities, each a single-block change (`end = None`) made at the block,
and valid against the table the earlier blocks leave (`ValidBlocks`).
-/

namespace GraphNode

/-! ### Batches of one entity type -/

namespace RowGroups

/-- The groups hold the changes of the type `t` only, as the group `G`: either
that group, or no group yet, which stands for the empty group of `t`. -/
def OneGroup (gs : RowGroups) (t : EntityType) (G : RowGroup) : Prop :=
  G.entityType = t ∧ (gs.groups = [G] ∨ (gs.groups = [] ∧ G = RowGroup.new t))

variable {writeBatchMemoize : Bool} {gs gs' other : RowGroups} {t : EntityType}
  {G G₂ : RowGroup}

theorem oneGroup_new (t : EntityType) : OneGroup new t (RowGroup.new t) :=
  ⟨rfl, .inr ⟨rfl, rfl⟩⟩

/-- `group_entry` of the only type hands out its group. -/
theorem withGroup_oneGroup (h : OneGroup gs t G)
    (f : RowGroup → Except StoreError Unit × RowGroup) :
    gs.withGroup t f = ((f G).1, ⟨[(f G).2]⟩) := by
  obtain ⟨hty, hg | ⟨hg, rfl⟩⟩ := h
  · cases hf : f G
    simp [withGroup, updateEntry, hg, hty, hf]
  · cases hf : f (RowGroup.new t)
    simp [withGroup, updateEntry, hg, hf]

/-- Appending the groups of another batch of the same type appends its rows. -/
theorem append_ok (hgs : OneGroup gs t G) (hother : OneGroup other t G₂)
    (h : gs.append writeBatchMemoize other = (.ok (), gs')) :
    ∃ G', OneGroup gs' t G' ∧ G.appendRows writeBatchMemoize G₂.rows = (.ok (), G') := by
  obtain ⟨hty₂, ho | ⟨ho, rfl⟩⟩ := hother
  · -- the one group of `other` goes through `RowGroup::append`
    have happ : G.append writeBatchMemoize G₂ = G.appendRows writeBatchMemoize G₂.rows := by
      unfold RowGroup.append
      rw [if_neg (by rw [hgs.1, hty₂]; exact fun h => h rfl)]
    simp only [append, ho, appendGroups] at h
    rw [hty₂, withGroup_oneGroup hgs] at h
    rcases hG : G.append writeBatchMemoize G₂ with ⟨r, G'⟩
    rw [hG] at h
    cases r with
    | error e => simp at h
    | ok u =>
      simp only [Prod.mk.injEq] at h
      refine ⟨G', h.2 ▸ ⟨?_, .inl rfl⟩, happ ▸ hG⟩
      rw [RowGroup.append_entityType hG, hgs.1]
  · -- `other` has no group: nothing is appended
    simp only [append, ho, appendGroups, Prod.mk.injEq] at h
    exact ⟨G, h.2 ▸ hgs, rfl⟩

/-- The groups report the change to the number of entities of their one group. -/
theorem OneGroup.sum_entityCountChange (h : OneGroup gs t G) :
    (gs.groups.map RowGroup.entityCountChange).sum = G.entityCountChange := by
  obtain ⟨-, hg | ⟨hg, rfl⟩⟩ := h
  · simp [hg]
  · rw [hg]
    rfl

end RowGroups

namespace RowGroup

variable {writeBatchMemoize : Bool} {g : RowGroup}

/-- `push` at a block no earlier than every row of the group is `append_row`. -/
theorem push_eq_appendRow {m : EntityModification} {block : BlockNumber}
    (h : ∀ r ∈ g.rows, r.block ≤ block) :
    g.push writeBatchMemoize m block = g.appendRow writeBatchMemoize m := by
  unfold push
  split
  · rename_i last hlast
    rw [if_pos (h last (List.mem_of_getLast? hlast))]
  · rfl

theorem AtOrAfter.mono {b c : BlockNumber} (h : AtOrAfter g b) (hbc : b ≤ c) : AtOrAfter g c :=
  fun r hr => ⟨(h r hr).1.trans hbc, fun e he => ((h r hr).2 e he).trans hbc⟩

theorem atOrAfter_new (t : EntityType) (b : BlockNumber) : AtOrAfter (new t) b :=
  fun _ hr => absurd hr List.not_mem_nil

theorem writeGroup_new (t : EntityType) (T : Table) : writeGroup (new t) T = T := by
  simp [writeGroup, new, Layout.clampRows, writesOf]

@[simp] theorem entityCountChange_new (t : EntityType) : (new t).entityCountChange = 0 := rfl

theorem settled_new (t : EntityType) (T : Table) : Settled (new t) T :=
  fun _ hr => absurd hr List.not_mem_nil

end RowGroup

namespace Batch

variable {writeBatchMemoize : Bool} {t : EntityType} {b : BlockNumber}

/-- Changes of the type `t`, each a single-block change made at the block `b`. -/
def AtBlock (t : EntityType) (b : BlockNumber) (ms : List EntityModification) : Prop :=
  ∀ m ∈ ms, m.key.entityType = t ∧ m.block = b ∧ m.end? = none

theorem atBlock_sortMods {ms : List EntityModification} (h : AtBlock t b ms) :
    AtBlock t b (sortMods ms) :=
  fun m hm => h m (List.mem_mergeSort.mp hm)

/-- The loop of `Batch::new` appends the rows to the one group. -/
theorem pushMods_ok : ∀ {ms : List EntityModification} {gs gs' : RowGroups} {G : RowGroup},
    gs.OneGroup t G → RowGroup.AtOrAfter G b → AtBlock t b ms →
    pushMods writeBatchMemoize b gs ms = .ok gs' →
    ∃ G', gs'.OneGroup t G' ∧ G.appendRows writeBatchMemoize ms = (.ok (), G')
  | [], gs, gs', G, hone, _, _, h => by
    simp only [pushMods, Except.ok.injEq] at h
    exact ⟨G, h ▸ hone, rfl⟩
  | m :: ms, gs, gs', G, hone, hat, hms, h => by
    obtain ⟨hty, hb, hfresh⟩ := hms m List.mem_cons_self
    simp only [pushMods] at h
    rw [hty, RowGroups.withGroup_oneGroup hone,
      RowGroup.push_eq_appendRow fun r hr => hb ▸ (hat r hr).1] at h
    rcases happ : G.appendRow writeBatchMemoize m with ⟨r, G₁⟩
    rw [happ] at h
    cases r with
    | error e => simp at h
    | ok u =>
      have hone₁ : RowGroups.OneGroup ⟨[G₁]⟩ t G₁ :=
        ⟨(RowGroup.appendRow_entityType happ).trans hone.1, .inl rfl⟩
      obtain ⟨G', hone', happ'⟩ := pushMods_ok hone₁ (hat.appendRow hb.le hfresh happ)
        (fun m' hm' => hms m' (.tail _ hm')) h
      exact ⟨G', hone', by simp [RowGroup.appendRows, happ, happ']⟩

/-- **`Batch::new` of the changes of one block puts them, sorted, into the group
of their type.** -/
theorem new_ok {ms : List EntityModification} {batch : Batch} (hms : AtBlock t b ms)
    (h : Batch.new writeBatchMemoize b ms = .ok batch) :
    batch.blockPtr = b ∧ ∃ G, batch.mods.OneGroup t G ∧
      (RowGroup.new t).appendRows writeBatchMemoize (sortMods ms) = (.ok (), G) := by
  unfold Batch.new at h
  split at h
  · rename_i gs hgs
    simp only [Except.ok.injEq] at h
    subst h
    exact ⟨rfl, pushMods_ok (RowGroups.oneGroup_new t) (RowGroup.atOrAfter_new t b)
      (atBlock_sortMods hms) hgs⟩
  · simp at h

/-- `Batch::append` of a later batch of the same type appends its rows and moves
the block pointer to the later block. -/
theorem append_ok {self next self' : Batch} {G G₂ : RowGroup} (hself : self.mods.OneGroup t G)
    (hnext : next.mods.OneGroup t G₂) (h : self.append writeBatchMemoize next = (.ok (), self')) :
    self.blockPtr < next.blockPtr ∧ self'.blockPtr = next.blockPtr ∧
      ∃ G', self'.mods.OneGroup t G' ∧ G.appendRows writeBatchMemoize G₂.rows = (.ok (), G') := by
  unfold Batch.append appendInner at h
  by_cases hlt : next.blockPtr ≤ self.blockPtr
  · simp [hlt] at h
  · rw [if_neg hlt] at h
    dsimp only at h
    rcases hmods : self.mods.append writeBatchMemoize next.mods with ⟨r, mods⟩
    rw [hmods] at h
    cases r with
    | error e => simp at h
    | ok u =>
      simp only [Prod.mk.injEq] at h
      rw [← h.2]
      exact ⟨lt_of_not_ge hlt, rfl, RowGroups.append_ok hself hnext hmods⟩

end Batch

/-! ### Building a batch, and writing blocks one by one -/

section Write

variable (writeBatchMemoize : Bool)

/-- The writer's queue: the batch of each further block, built by `Batch::new`,
is appended to the batch still queued; the first error stops it. -/
def appendBatches (batch : Batch) :
    List (BlockNumber × List EntityModification) → Except StoreError Batch
  | [] => .ok batch
  | (b, ms) :: rest =>
    match Batch.new writeBatchMemoize b ms with
    | .error e => .error e
    | .ok next =>
      match batch.append writeBatchMemoize next with
      | (.ok (), batch') => appendBatches batch' rest
      | (.error e, _) => .error e

/-- The batch of the first block with the batches of the further blocks
appended. -/
def buildBatch (block : BlockNumber) (rawMods : List EntityModification)
    (rest : List (BlockNumber × List EntityModification)) : Except StoreError Batch :=
  match Batch.new writeBatchMemoize block rawMods with
  | .error e => .error e
  | .ok first => appendBatches writeBatchMemoize first rest

/-- Each block written on its own: `Batch::new`, then
`apply_entity_modifications`, adding up the changes to the number of
entities. -/
def writeSeparately (chunkSize : EntityType → Nat) :
    List (BlockNumber × List EntityModification) → Layout.Db → Except StoreError (Int × Layout.Db)
  | [], db => .ok (0, db)
  | (b, ms) :: rest, db =>
    match Batch.new writeBatchMemoize b ms with
    | .error e => .error e
    | .ok batch =>
      match Layout.applyEntityModifications chunkSize batch.mods.groups db with
      | .error e => .error e
      | .ok (count, db) =>
        match writeSeparately chunkSize rest db with
        | .error e => .error e
        | .ok (count', db) => .ok (count + count', db)

end Write

/-- The modifications of the blocks, each block sorted as `Batch::new` sorts it. -/
def sortedRun (blocks : List (BlockNumber × List EntityModification)) : List EntityModification :=
  blocks.flatMap fun p => Batch.sortMods p.2

@[simp] theorem sortedRun_nil : sortedRun [] = [] := rfl

@[simp] theorem sortedRun_cons (b : BlockNumber) (ms : List EntityModification)
    (rest : List (BlockNumber × List EntityModification)) :
    sortedRun ((b, ms) :: rest) = Batch.sortMods ms ++ sortedRun rest := rfl

/-- Sorting each block leaves the sum of a quantity over the modifications. -/
theorem sum_map_sortedRun (f : EntityModification → Int) :
    ∀ blocks : List (BlockNumber × List EntityModification),
      ((sortedRun blocks).map f).sum = (blocks.map fun p => (p.2.map f).sum).sum
  | [] => rfl
  | (b, ms) :: rest => by
    have hperm := List.mergeSort_perm ms fun a b => decide (Batch.sortKey a ≤ Batch.sortKey b)
    rw [sortedRun_cons, List.map_append, List.sum_append, sum_map_sortedRun f rest, List.map_cons,
      List.sum_cons, Batch.sortMods, (hperm.map f).sum_eq]

/-- **The blocks, each sorted as `Batch::new` sorts it, write the versions the blocks
write.** -/
theorem foldl_writeMod_sortedRun_perm :
    ∀ {blocks : List (BlockNumber × List EntityModification)},
      (∀ p ∈ blocks, (p.2.map (·.id)).Nodup) → ∀ T : Table,
      ((sortedRun blocks).foldl writeMod T).Perm ((blocks.flatMap (·.2)).foldl writeMod T)
  | [], _, T => .refl _
  | (b, ms) :: rest, hnodup, T => by
    have hperm := List.mergeSort_perm ms fun a b => decide (Batch.sortKey a ≤ Batch.sortKey b)
    have hnd := hnodup (b, ms) List.mem_cons_self
    rw [sortedRun_cons, List.flatMap_cons, List.foldl_append, List.foldl_append]
    -- the sorted block writes what the block writes, and the rest goes on from either table
    exact (foldl_writeMod_perm_of_perm
      (foldl_writeMod_perm hperm ((hperm.map _).nodup_iff.mpr hnd) T) _).trans
      (foldl_writeMod_sortedRun_perm (fun p hp => hnodup p (.tail _ hp)) _)

section Proofs

variable {writeBatchMemoize : Bool} {t : EntityType} {T : Table}

/-- `apply_entity_modifications` of the group of a mutable type writes the group
into the table of the type. -/
theorem applyEntityModifications_oneGroup {chunkSize : EntityType → Nat} {gs : RowGroups}
    {G : RowGroup} (hmut : t.isImmutable = false) (hn : 0 < chunkSize t) (h : gs.OneGroup t G)
    (db : Layout.Db) :
    Layout.applyEntityModifications chunkSize gs.groups db =
      .ok (G.entityCountChange, Function.update db t (writeGroup G (db t))) := by
  obtain ⟨hty, hg | ⟨hg, rfl⟩⟩ := h
  · subst hty
    rw [hg, Layout.applyEntityModifications, Layout.delete_eq hmut]
    simp only [Layout.applyEntityModifications, Layout.insert_eq G hn, add_zero]
    rfl
  · rw [hg, RowGroup.writeGroup_new, Function.update_eq_self]
    rfl

/-- The group `Batch::new` builds of one block, sorted, of distinct ids. -/
theorem rows_of_new {ms : List EntityModification} {G : RowGroup} (hmut : t.isImmutable = false)
    (hnodup : (ms.map (·.id)).Nodup)
    (h : (RowGroup.new t).appendRows writeBatchMemoize (Batch.sortMods ms) = (.ok (), G)) :
    G.rows = Batch.sortMods ms := by
  have hperm := List.mergeSort_perm ms fun a b => decide (Batch.sortKey a ≤ Batch.sortKey b)
  have hrows := RowGroup.appendRows_distinct (RowGroup.wf_new writeBatchMemoize t).lastMod hmut
    ((hperm.map _).nodup_iff.mpr hnodup) (fun _ hr => absurd hr List.not_mem_nil) h
  rwa [show (RowGroup.new t).rows = [] from rfl, List.nil_append] at hrows

/-- The rows of one block, all at the block, come in order of blocks. -/
theorem sorted_of_atBlock {b : BlockNumber} {ms : List EntityModification}
    (h : Batch.AtBlock t b ms) : ms.Pairwise (·.block ≤ ·.block) :=
  List.pairwise_of_forall_mem_list fun x hx y hy => ((h x hx).2.1.trans (h y hy).2.1.symm).le

/-- The step of both loops: appending the rows of one block to a group of the
type writes the block after the group, and keeps what the next block needs. -/
theorem writeGroup_appendRows_block {b : BlockNumber} {ms : List EntityModification}
    {G G' : RowGroup} (hmut : t.isImmutable = false) (hty : G.entityType = t)
    (hw : RowGroup.Wf writeBatchMemoize G) (hset : RowGroup.Settled G T)
    (hat : RowGroup.AtOrAfter G b) (hms : Batch.AtBlock t b ms)
    (hvalid : ValidRun (writeGroup G T) ms)
    (h : G.appendRows writeBatchMemoize ms = (.ok (), G')) :
    writeGroup G' T = ms.foldl writeMod (writeGroup G T) ∧ RowGroup.Settled G' T ∧
      RowGroup.Wf writeBatchMemoize G' ∧ RowGroup.AtOrAfter G' b ∧ G'.entityType = t ∧
      G'.entityCountChange = G.entityCountChange + (ms.map (·.entityCountChange)).sum := by
  obtain ⟨hwrite, hset', hw', hcount⟩ := RowGroup.writeGroup_appendRows hw (hty ▸ hmut) hset
    (fun r hr => (hms r hr).2.2) (fun r hr => (hms r hr).2.1 ▸ hat) (sorted_of_atBlock hms)
    hvalid h
  exact ⟨hwrite, hset', hw', hat.appendRows (fun r hr => ⟨(hms r hr).2.1.le, (hms r hr).2.2⟩) h,
    (RowGroup.appendRows_entityType h).trans hty, hcount⟩

/-- The batch `Batch::new` builds of one block writes the block, sorted, and is
ready for the next block. -/
theorem writeGroup_new_batch {b : BlockNumber} {ms : List EntityModification} {batch : Batch}
    (hmut : t.isImmutable = false) (hms : Batch.AtBlock t b ms)
    (hvalid : ValidRun T (Batch.sortMods ms)) (h : Batch.new writeBatchMemoize b ms = .ok batch) :
    batch.blockPtr = b ∧ ∃ G, batch.mods.OneGroup t G ∧
      writeGroup G T = (Batch.sortMods ms).foldl writeMod T ∧ RowGroup.Settled G T ∧
      RowGroup.Wf writeBatchMemoize G ∧ RowGroup.AtOrAfter G b ∧
      G.entityCountChange = ((Batch.sortMods ms).map (·.entityCountChange)).sum := by
  obtain ⟨hptr, G, hone, hG⟩ := Batch.new_ok hms h
  obtain ⟨hwrite, hset, hw, hat, -, hcount⟩ := writeGroup_appendRows_block hmut rfl
    (RowGroup.wf_new writeBatchMemoize t) (RowGroup.settled_new t T) (RowGroup.atOrAfter_new t b)
    (Batch.atBlock_sortMods hms) (by rw [RowGroup.writeGroup_new]; exact hvalid) hG
  rw [RowGroup.writeGroup_new] at hwrite
  rw [RowGroup.entityCountChange_new, zero_add] at hcount
  exact ⟨hptr, G, hone, hwrite, hset, hw, hat, hcount⟩

/-- **The queue's run**: appending the batches of further blocks to a batch of
the group `G` leaves one group, which writes the blocks, sorted, after `G`. -/
theorem appendBatches_ok (hmut : t.isImmutable = false) :
    ∀ {blocks : List (BlockNumber × List EntityModification)} {batch batch' : Batch} {G : RowGroup},
    batch.mods.OneGroup t G → RowGroup.Wf writeBatchMemoize G → RowGroup.Settled G T →
    RowGroup.AtOrAfter G batch.blockPtr → (∀ p ∈ blocks, Batch.AtBlock t p.1 p.2) →
    (∀ p ∈ blocks, (p.2.map (·.id)).Nodup) → ValidRun (writeGroup G T) (sortedRun blocks) →
    appendBatches writeBatchMemoize batch blocks = .ok batch' →
    (∀ p ∈ blocks, ∃ nb, Batch.new writeBatchMemoize p.1 p.2 = .ok nb) ∧
    ∃ G', batch'.mods.OneGroup t G' ∧
      writeGroup G' T = (sortedRun blocks).foldl writeMod (writeGroup G T) ∧
      G'.entityCountChange =
        G.entityCountChange + ((sortedRun blocks).map (·.entityCountChange)).sum
  | [], batch, batch', G, hone, _, _, _, _, _, _, h => by
    simp only [appendBatches, Except.ok.injEq] at h
    subst h
    exact ⟨by simp, G, hone, rfl, by simp⟩
  | (b, ms) :: rest, batch, batch', G, hone, hw, hset, hat, hms, hnodup, hvalid, h => by
    simp only [appendBatches] at h
    rcases hnew : Batch.new writeBatchMemoize b ms with e | next
    · simp [hnew] at h
    rw [hnew] at h
    simp only at h
    rcases happ : batch.append writeBatchMemoize next with ⟨r, batch₁⟩
    rw [happ] at h
    cases r with
    | error e => simp at h
    | ok u =>
    simp only at h
    have hms₀ := hms (b, ms) List.mem_cons_self
    -- the batch of the block holds its rows, sorted
    obtain ⟨hptr, G₂, hone₂, hG₂⟩ := Batch.new_ok hms₀ hnew
    have hrows₂ := rows_of_new hmut (hnodup (b, ms) List.mem_cons_self) hG₂
    obtain ⟨hlt, hptr₁, G₁, hone₁, hG₁⟩ := Batch.append_ok hone hone₂ happ
    rw [hrows₂] at hG₁
    rw [sortedRun_cons, validRun_append] at hvalid
    -- the rows of the block are appended to `G`
    obtain ⟨hwrite, hset₁, hw₁, hat₁, -, hcount⟩ := writeGroup_appendRows_block hmut hone.1 hw hset
      (hat.mono (hptr ▸ hlt.le)) (Batch.atBlock_sortMods hms₀) hvalid.1 hG₁
    obtain ⟨hnews, G', hone', hwrite', hcount'⟩ := appendBatches_ok hmut hone₁ hw₁ hset₁
      (by rw [hptr₁, hptr]; exact hat₁) (fun p hp => hms p (.tail _ hp))
      (fun p hp => hnodup p (.tail _ hp)) (hwrite ▸ hvalid.2) h
    refine ⟨?_, G', hone', ?_, ?_⟩
    · intro p hp
      rcases List.mem_cons.mp hp with rfl | hp
      · exact ⟨next, hnew⟩
      · exact hnews p hp
    · rw [hwrite', hwrite, sortedRun_cons, List.foldl_append]
    · rw [hcount', hcount, sortedRun_cons, List.map_append, List.sum_append]
      ring

/-- **Writing the blocks one by one** writes them, sorted, into the table of
their type, and adds up their changes to the number of entities. -/
theorem writeSeparately_ok {chunkSize : EntityType → Nat} (hmut : t.isImmutable = false)
    (hn : 0 < chunkSize t) :
    ∀ {blocks : List (BlockNumber × List EntityModification)} {db : Layout.Db},
    (∀ p ∈ blocks, Batch.AtBlock t p.1 p.2) → (∀ p ∈ blocks, (p.2.map (·.id)).Nodup) →
    (∀ p ∈ blocks, ∃ nb, Batch.new writeBatchMemoize p.1 p.2 = .ok nb) →
    ValidRun (db t) (sortedRun blocks) →
    writeSeparately writeBatchMemoize chunkSize blocks db =
      .ok (((sortedRun blocks).map (·.entityCountChange)).sum,
        Function.update db t ((sortedRun blocks).foldl writeMod (db t)))
  | [], db, _, _, _, _ => by simp [writeSeparately]
  | (b, ms) :: rest, db, hms, hnodup, hnews, hvalid => by
    obtain ⟨nb, hnew⟩ := hnews (b, ms) List.mem_cons_self
    rw [sortedRun_cons, validRun_append] at hvalid
    obtain ⟨-, G, hone, hwrite, -, -, -, hcount⟩ :=
      writeGroup_new_batch hmut (hms (b, ms) List.mem_cons_self) hvalid.1 hnew
    -- the rest is written after the block, into the table the block leaves
    have hrest : writeSeparately writeBatchMemoize chunkSize rest
        (Function.update db t ((Batch.sortMods ms).foldl writeMod (db t))) = _ :=
      writeSeparately_ok hmut hn (fun p hp => hms p (.tail _ hp))
        (fun p hp => hnodup p (.tail _ hp)) (fun p hp => hnews p (.tail _ hp))
        (by rw [Function.update_self]; exact hvalid.2)
    rw [Function.update_self, Function.update_idem] at hrest
    simp only [writeSeparately, hnew, applyEntityModifications_oneGroup hmut hn hone, hwrite, hrest,
      hcount, sortedRun_cons, List.map_append, List.sum_append, List.foldl_append]

/-- **Writing a batch of several blocks is writing the blocks one by one.** For
one mutable entity type, if `Batch::new` of the first block and `Batch::append`
of the batch of each further block succeed, then the row groups of the batch report as
their change to the number of entities the sum of the changes of the blocks, and
`apply_entity_modifications` of the batch leaves the tables of the other types as they were
and the table of the type with the versions the blocks write, each modification on its own
in the order of the blocks: it closes the current version of its entity, if it is a clamp,
and adds the version it writes, if it writes one. Writing each block in its own
`apply_entity_modifications` leaves the same tables and reports the same change. -/
theorem batch_write_eq_separate_writes (t : EntityType) (hmut : t.isImmutable = false)
    (chunkSize : EntityType → Nat) (hn : 0 < chunkSize t) (db : Layout.Db) (b₁ : BlockNumber)
    (M₁ : List EntityModification) (rest : List (BlockNumber × List EntityModification))
    (hmods : ∀ p ∈ (b₁, M₁) :: rest, Batch.AtBlock t p.1 p.2)
    (hnodup : ∀ p ∈ (b₁, M₁) :: rest, (p.2.map (·.id)).Nodup)
    (hvalid : ValidBlocks (db t) ((b₁, M₁) :: rest)) {batch : Batch}
    (hbatch : buildBatch writeBatchMemoize b₁ M₁ rest = .ok batch) :
    let count := (((b₁, M₁) :: rest).map fun p => (p.2.map (·.entityCountChange)).sum).sum
    (batch.mods.groups.map RowGroup.entityCountChange).sum = count ∧
    ∃ db', Layout.applyEntityModifications chunkSize batch.mods.groups db = .ok (count, db') ∧
      writeSeparately writeBatchMemoize chunkSize ((b₁, M₁) :: rest) db = .ok (count, db') ∧
      (∀ t', t' ≠ t → db' t' = db t') ∧
      (db' t).Perm ((((b₁, M₁) :: rest).flatMap (·.2)).foldl writeMod (db t)) := by
  intro count
  unfold buildBatch at hbatch
  rcases hnew : Batch.new writeBatchMemoize b₁ M₁ with e | first
  · rw [hnew] at hbatch
    cases hbatch
  rw [hnew] at hbatch
  -- the blocks, each sorted, are valid one modification after the other
  have hrun : ValidRun (db t) (sortedRun ((b₁, M₁) :: rest)) :=
    validRun_sortMods (fun _ => Iff.rfl) hnodup (fun p hp m hm => (hmods p hp m hm).2.2) hvalid
  have hrun₁ := hrun
  rw [sortedRun_cons, validRun_append] at hrun₁
  obtain ⟨hptr, G₁, hone₁, hwrite₁, hset₁, hw₁, hat₁, hcount₁⟩ :=
    writeGroup_new_batch hmut (hmods (b₁, M₁) List.mem_cons_self) hrun₁.1 hnew
  obtain ⟨hnews, G, hone, hwrite, hcount⟩ := appendBatches_ok hmut hone₁ hw₁ hset₁ (hptr ▸ hat₁)
    (fun p hp => hmods p (.tail _ hp)) (fun p hp => hnodup p (.tail _ hp)) (hwrite₁ ▸ hrun₁.2)
    hbatch
  -- the one group of the batch writes the blocks, each sorted, and adds up their changes
  have hsum : G.entityCountChange = count := by
    rw [hcount, hcount₁, ← List.sum_append, ← List.map_append, ← sortedRun_cons]
    exact sum_map_sortedRun _ _
  have hwriteAll : writeGroup G (db t) = (sortedRun ((b₁, M₁) :: rest)).foldl writeMod (db t) := by
    rw [hwrite, hwrite₁, sortedRun_cons, List.foldl_append]
  -- the batch of every block was built on the way
  have hnews' : ∀ p ∈ (b₁, M₁) :: rest, ∃ nb, Batch.new writeBatchMemoize p.1 p.2 = .ok nb := by
    intro p hp
    rcases List.mem_cons.mp hp with rfl | hp
    · exact ⟨first, hnew⟩
    · exact hnews p hp
  refine ⟨hone.sum_entityCountChange.trans hsum,
    Function.update db t ((sortedRun ((b₁, M₁) :: rest)).foldl writeMod (db t)), ?_, ?_,
    fun t' ht' => Function.update_of_ne ht' _ _, ?_⟩
  · rw [applyEntityModifications_oneGroup hmut hn hone db, hsum, hwriteAll]
  · rw [writeSeparately_ok hmut hn hmods hnodup hnews' hrun, sum_map_sortedRun]
  · rw [Function.update_self]
    exact foldl_writeMod_sortedRun_perm hnodup _

/-- An insert at block 1 and an overwrite at block 2, with memoization: the
batch folds the overwrite into an insert and closes the first version at 2; it reports one
more entity, and the table holds the two versions of `a`. -/
theorem batch_write_eq_separate_writes_insert_overwrite :
    let thing : EntityType := ⟨"Thing", false, false⟩
    let a : EntityKey := ⟨thing, .string "a", .ONCHAIN⟩
    let batch : Batch := ⟨2, 1, ⟨[⟨thing, [.insert a .empty 1 (some 2), .insert a .empty 2 none],
      ⟨Function.update (Function.update (fun _ => none) (.string "a") (some 0))
        (.string "a") (some 1)⟩⟩]⟩, none⟩
    buildBatch true 1 [.insert a .empty 1 none] [(2, [.overwrite a .empty 2 none])] = .ok batch ∧
      (batch.mods.groups.map RowGroup.entityCountChange).sum = 1 ∧
      ∃ db', Layout.applyEntityModifications (fun _ => 1) batch.mods.groups (fun _ => []) =
          .ok (1, db') ∧
        writeSeparately true (fun _ => 1)
          [(1, [.insert a .empty 1 none]), (2, [.overwrite a .empty 2 none])] (fun _ => []) =
          .ok (1, db') ∧
        (∀ t', t' ≠ thing → db' t' = []) ∧
        (db' thing).Perm
          ([.insert a .empty 1 none, .overwrite a .empty 2 none].foldl writeMod []) := by
  intro thing a batch
  have hbatch : buildBatch true 1 [.insert a .empty 1 none] [(2, [.overwrite a .empty 2 none])] =
      .ok batch := by
    simp only [buildBatch, appendBatches, Batch.new, Batch.sortMods, List.mergeSort_singleton]
    rfl
  exact ⟨hbatch, batch_write_eq_separate_writes thing rfl (fun _ => 1) Nat.one_pos (fun _ => []) 1
    [.insert a .empty 1 none] [(2, [.overwrite a .empty 2 none])]
    (by simp [Batch.AtBlock, EntityModification.end?, a, thing]) (by simp)
    (by simp [ValidBlocks, Live, writeMod, versionOf, EntityModification.asWrite, Version.ofWrite,
      EntityModification.isClamp, EntityModification.id, a])
    hbatch⟩

end Proofs

end GraphNode
