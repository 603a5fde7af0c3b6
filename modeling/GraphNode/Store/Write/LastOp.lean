import GraphNode.Store.Write.Invariant

/-!
# What a row group leaves for a key

`RowGroup::last_op(key, at)` answers what the pending changes of a group leave
for `key` at block `at`: nothing, a new version, or its removal. Its reference
is `GraphNode.opAt`: apply the appended modifications of `key` at or before
`at` one after the other; the last one decides.

The answer has to be read off rows that no longer are the modifications that
were appended: a `Remove` or an `Overwrite` has been folded into the end of the
previous version, and a second `Remove` dropped. The scan from the end
(`lastOp` with memoization off) recovers it: the fold clamps only the *last* row
of an id, and a clamped row reads as before below its end and as a removal from
its end on (`GraphNode.EntityModification.asEntityOp_clamp`). One append changes
the scan exactly as it changes the reference (`GraphNode.RowGroup.lastOp_appendRow`),
and a run of appends keeps the two equal (`GraphNode.RowGroup.lastOp_eq_opAt`).

**The memoized path reads by id.** `last_mod` is keyed by the id alone, while a
key also names a causality region, and the memoized answer is taken without
comparing keys. When the last row of an id belongs to another causality region,
`last_op` answers with that entity (`GraphNode.RowGroup.lastOp_other_region`),
although a data source must not read an entity of another causality region. The
scan compares whole keys and answers correctly; so does the memoized path as
long as the id of the key is not used under another key
(`GraphNode.RowGroup.lastOp_eq_scan`).
-/

namespace GraphNode

open EntityModification

/-- **The reference**: what the modifications `hist`, applied one after the
other, leave for `key` at block `at`: nothing if none of them touches `key` at
or before `at`, and otherwise the effect of the last that does. -/
def opAt (hist : List EntityModification) (key : EntityKey) (at_ : BlockNumber) :
    Option EntityOp :=
  ((hist.filter fun m => m.key == key && decide (m.block ≤ at_)).getLast?).map (·.effect)

@[simp] theorem opAt_nil (key : EntityKey) (at_ : BlockNumber) : opAt [] key at_ = none := rfl

/-- Applying one more modification. -/
theorem opAt_append_singleton (hist : List EntityModification) (m : EntityModification)
    (key : EntityKey) (at_ : BlockNumber) :
    opAt (hist ++ [m]) key at_ =
      if m.key = key ∧ m.block ≤ at_ then some m.effect else opAt hist key at_ := by
  by_cases h : m.key = key ∧ m.block ≤ at_
  · simp [opAt, h]
  · rw [if_neg h]
    simp only [opAt, List.filter_append, List.filter_singleton]
    rw [show (m.key == key && decide (m.block ≤ at_)) = false by simpa using h]
    simp

namespace RowGroup

variable {writeBatchMemoize : Bool} {g g' : RowGroup} {key : EntityKey} {at_ : BlockNumber}

/-- The rows `last_op` looks for: of `key`, at or before `at`. -/
def Matches (key : EntityKey) (at_ : BlockNumber) (emod : EntityModification) : Bool :=
  emod.key == key && decide (emod.block ≤ at_)

/-- With memoization off, `last_op` is the scan from the end. -/
theorem lastOp_false (g : RowGroup) (key : EntityKey) (at_ : BlockNumber) :
    g.lastOp false key at_ = (g.rows.reverse.find? (Matches key at_)).map (·.asEntityOp at_) :=
  rfl

/-! ### The scan, one change at a time -/

/-- A pushed row answers for its key from its block on. -/
theorem lastOp_pushRow (row : EntityModification) :
    (g.pushRow writeBatchMemoize row).lastOp false key at_ =
      if row.key = key ∧ row.block ≤ at_ then some (row.asEntityOp at_)
      else g.lastOp false key at_ := by
  rw [lastOp_false, lastOp_false, pushRow, find?_reverse_append_singleton]
  by_cases h : row.key = key ∧ row.block ≤ at_
  · simp [Matches, h]
  · rw [if_neg h, show Matches key at_ row = false by simpa [Matches] using h, if_neg (by simp)]

/-- The rows after the last row of an id are no rows of its key. -/
theorem matches_after_last {i : Nat} {prev : EntityModification}
    (hlast : ∀ j (hj : j < g.rows.length), i < j → g.rows[j].id ≠ prev.id)
    (hkey : prev.key = key) :
    ∀ j (hj : j < g.rows.length), i < j → Matches key at_ g.rows[j] = false := by
  intro j hj hij
  have hne := hlast j hj hij
  simp only [Matches, Bool.and_eq_false_iff, beq_eq_false_iff_ne]
  left
  intro heq
  exact hne (by rw [EntityModification.id, heq, ← hkey]; rfl)

/-- The last row of an id, when of `key` and at or before `at`, is what the scan
finds. -/
theorem lastOp_of_last {i : Nat} (hi : i < g.rows.length) {prev : EntityModification}
    (hprev : g.rows[i] = prev)
    (hlast : ∀ j (hj : j < g.rows.length), i < j → g.rows[j].id ≠ prev.id)
    (hkey : prev.key = key) (hat : prev.block ≤ at_) :
    g.lastOp false key at_ = some (prev.asEntityOp at_) := by
  rw [lastOp_false, find?_reverse_of_after hi (matches_after_last hlast hkey), hprev]
  simp [Matches, hkey, hat]

/-- **Clamping the last row of an id at `b`** turns the answer for its key into a
removal from `b` on, and changes nothing else. -/
theorem lastOp_setRow_clamp {i : Nat} (hi : i < g.rows.length) {prev p' : EntityModification}
    {b : BlockNumber} (hprev : g.rows[i] = prev)
    (hlast : ∀ j (hj : j < g.rows.length), i < j → g.rows[j].id ≠ prev.id)
    (hc : prev.clamp b = .ok p') (hb : prev.block < b) :
    (g.setRow i p').lastOp false key at_ =
      if prev.key = key ∧ b ≤ at_ then some (.remove key) else g.lastOp false key at_ := by
  obtain ⟨hkey', hblock', -⟩ := EntityModification.clamp_eq_ok hc
  -- the clamped row is looked for exactly when the row was
  have hsame : Matches key at_ p' = Matches key at_ prev := by simp [Matches, hkey', hblock']
  rw [lastOp_false, lastOp_false, setRow]
  by_cases hkey : prev.key = key
  · rw [find?_reverse_set p' hi (matches_after_last hlast hkey),
      find?_reverse_of_after hi (matches_after_last hlast hkey), hprev, hsame]
    by_cases hbat : b ≤ at_
    · -- from `b` on, the clamped row is found and reads as a removal
      have hm : Matches key at_ prev = true := by simp [Matches, hkey, hb.le.trans hbat]
      simp [hm, hkey, hbat, asEntityOp_clamp hc, not_lt.mpr hbat]
    · -- before `b` it reads as the row did
      rw [if_neg (show ¬(prev.key = key ∧ b ≤ at_) from fun h => hbat h.2)]
      cases hm : Matches key at_ prev
      · simp
      · simp [asEntityOp_clamp hc, lt_of_not_ge hbat]
  · -- a row of another key is not looked for
    rw [if_neg (by simp [hkey])]
    have hm : Matches key at_ prev = false := by simp [Matches, hkey]
    rw [find?_reverse_set_of_false _ _ (hsame.trans hm) fun _ => hprev ▸ hm]

/-! ### One append, and a run of appends -/

/-- The rows of the id of `key` are rows of `key`. -/
def KeyOwnsId (key : EntityKey) (g : RowGroup) : Prop :=
  ∀ r ∈ g.rows, r.id = key.entityId → r.key = key

theorem KeyOwnsId.pushRow {row : EntityModification} (h : KeyOwnsId key g)
    (hrow : row.id = key.entityId → row.key = key) :
    KeyOwnsId key (g.pushRow writeBatchMemoize row) := by
  intro r hr
  simp only [RowGroup.pushRow, List.mem_append, List.mem_singleton] at hr
  rcases hr with hr | rfl
  · exact h r hr
  · exact hrow

theorem KeyOwnsId.setRow {i : Nat} {b : BlockNumber} {prev p' : EntityModification}
    (h : KeyOwnsId key g) (hprev : prev ∈ g.rows) (hc : prev.clamp b = .ok p') :
    KeyOwnsId key (g.setRow i p') := by
  obtain ⟨hkey', -⟩ := EntityModification.clamp_eq_ok hc
  intro r hr
  rcases List.mem_or_eq_of_mem_set hr with hr | rfl
  · exact h r hr
  · intro hid
    rw [hkey']
    exact h prev hprev (by rw [← EntityModification.id_eq_of_key_eq hkey']; exact hid)

/-- **One append changes the scan as it changes the reference.** For a mutable
type, appending a single-block row `m` to a well-formed group makes `m` the
answer for its key from its block on, and changes no other answer. -/
theorem lastOp_appendRow {m : EntityModification} (hw : Wf writeBatchMemoize g)
    (hmut : g.entityType.isImmutable = false) (hfresh : m.end? = none)
    (hown : KeyOwnsId key g) (hm : m.id = key.entityId → m.key = key)
    (h : g.appendRow writeBatchMemoize m = (.ok (), g')) :
    (∀ at_, g'.lastOp false key at_ =
      if m.key = key ∧ m.block ≤ at_ then some m.effect else g.lastOp false key at_) ∧
    KeyOwnsId key g' := by
  rcases appendRow_ok h with ⟨himm, -⟩ | ⟨-, ⟨-, rfl⟩ | ⟨i, prev, hsome, hfold⟩⟩
  · simp [hmut] at himm
  · -- the first row of its id
    refine ⟨fun at_ => ?_, hown.pushRow hm⟩
    rw [lastOp_pushRow, asEntityOp_of_end_none hfresh]
  obtain ⟨hi, hprev, hpid, hlast⟩ := prevRowMut_some hw.lastMod hsome
  have hlast' : ∀ j (hj : j < g.rows.length), i < j → g.rows[j].id ≠ prev.id := by
    rw [hpid]
    exact hlast
  have hmem : prev ∈ g.rows := hprev ▸ List.getElem_mem hi
  -- the last row of the id is of `key` exactly when `m` is
  have hprevkey : prev.key = key ↔ m.key = key := by
    constructor
    · intro hk
      exact hm (by rw [← hpid, EntityModification.id, hk])
    · intro hk
      exact hown prev hmem (by rw [hpid, EntityModification.id, hk])
  obtain ⟨hlt, -, hcases⟩ := foldRow_ok hfold
  rcases hcases with ⟨hpw, hmw, rfl⟩ | ⟨-, -, -, rfl⟩ | ⟨p', m', hclamp, -, -, hins, rfl⟩ |
    ⟨p', hclamp, hmw, rfl⟩
  · -- a second remove: the first already answers with a removal
    refine ⟨fun at_ => ?_, hown⟩
    by_cases hk : m.key = key ∧ m.block ≤ at_
    · rw [if_pos hk, lastOp_of_last hi hprev hlast' (hprevkey.mpr hk.1) (hlt.le.trans hk.2)]
      cases prev <;> cases m <;> simp_all [isWrite, asEntityOp, effect]
    · rw [if_neg hk]
  · -- an insert after a deleted version
    refine ⟨fun at_ => ?_, hown.pushRow hm⟩
    rw [lastOp_pushRow, asEntityOp_of_end_none hfresh]
  · -- an overwrite: the last row is clamped, and `m` pushed as an insert
    obtain ⟨hk', hb', he', -⟩ := EntityModification.intoInsert_eq_ok hins
    obtain ⟨hkeyp, -⟩ := EntityModification.clamp_eq_ok hclamp
    refine ⟨fun at_ => ?_, (hown.setRow hmem hclamp).pushRow fun h' => ?_⟩
    · rw [lastOp_pushRow, lastOp_setRow_clamp hi hprev hlast' hclamp hlt, hk', hb',
        asEntityOp_of_end_none (he'.trans hfresh), effect_intoInsert hins]
      by_cases hk : m.key = key ∧ m.block ≤ at_
      · rw [if_pos hk, if_pos hk]
      · rw [if_neg hk, if_neg hk, if_neg fun h'' => hk ⟨hprevkey.mp h''.1, h''.2⟩]
    · rw [hk']
      exact hm (by rw [← EntityModification.id_eq_of_key_eq hk']; exact h')
  · -- a remove: the last row is clamped
    refine ⟨fun at_ => ?_, hown.setRow hmem hclamp⟩
    rw [lastOp_setRow_clamp hi hprev hlast' hclamp hlt]
    by_cases hk : m.key = key ∧ m.block ≤ at_
    · rw [if_pos ⟨hprevkey.mpr hk.1, hk.2⟩, if_pos hk]
      cases m <;> simp_all [isWrite, effect]
    · rw [if_neg fun h'' => hk ⟨hprevkey.mp h''.1, h''.2⟩, if_neg hk]

/-- The memoized answer is the scan's, as long as the rows of the id of `key`
are rows of `key`. -/
theorem lastOp_eq_scan (hlm : LastModCorrect writeBatchMemoize g) (hown : KeyOwnsId key g) :
    g.lastOp writeBatchMemoize key at_ = g.lastOp false key at_ := by
  cases writeBatchMemoize with
  | false => rfl
  | true =>
    have hmap := hlm rfl key.entityId
    cases hf : rfindIdx (fun r => r.id == key.entityId) g.rows with
    | none => simp [lastOp, LastMod.get, hmap, hf]
    | some i =>
      obtain ⟨hi, hpi, hafter⟩ := rfindIdx_spec hf
      have hid : g.rows[i].id = key.entityId := by simpa using hpi
      have hkey : g.rows[i].key = key := hown _ (List.getElem_mem hi) hid
      by_cases hat : g.rows[i].block ≤ at_
      · -- the memoized row is the last row of `key`, and at or before `at`
        have hlast : ∀ j (hj : j < g.rows.length), i < j → g.rows[j].id ≠ g.rows[i].id := by
          intro j hj hij
          rw [hid]
          simpa using hafter j hj hij
        rw [lastOp_of_last hi rfl hlast hkey hat]
        simp [lastOp, LastMod.get, hmap, hf, List.getElem?_eq_getElem hi, hat]
      · -- the memoized row is after `at`: the scan answers
        simp [lastOp, LastMod.get, hmap, hf, List.getElem?_eq_getElem hi, hat]

/-- A run of appends keeps the scan equal to the reference. -/
theorem lastOp_appendRows {hist rows : List EntityModification} (hw : Wf writeBatchMemoize g)
    (hmut : g.entityType.isImmutable = false) (hown : KeyOwnsId key g)
    (hsim : ∀ at_, g.lastOp false key at_ = opAt hist key at_)
    (hfresh : ∀ r ∈ rows, r.end? = none) (hat : ∀ r ∈ rows, AtOrAfter g r.block)
    (hsorted : rows.Pairwise (·.block ≤ ·.block))
    (hrows : ∀ r ∈ rows, r.id = key.entityId → r.key = key)
    (h : g.appendRows writeBatchMemoize rows = (.ok (), g')) :
    (∀ at_, g'.lastOp false key at_ = opAt (hist ++ rows) key at_) ∧ KeyOwnsId key g' ∧
      Wf writeBatchMemoize g' := by
  -- induction on the rows still to append; the group and the history grow along
  induction rows generalizing g hist with
  | nil =>
    simp only [appendRows, Prod.mk.injEq] at h
    rw [← h.2, List.append_nil]
    exact ⟨hsim, hown, hw⟩
  | cons row rows ih =>
    simp only [appendRows] at h
    split at h
    · rename_i g₁ h₁
      obtain ⟨hrow, hsorted'⟩ := List.pairwise_cons.mp hsorted
      have hfresh₀ := hfresh row List.mem_cons_self
      obtain ⟨hsim₁, hown₁⟩ :=
        lastOp_appendRow hw hmut hfresh₀ hown (hrows row List.mem_cons_self) h₁
      have hstep : ∀ at_, g₁.lastOp false key at_ = opAt (hist ++ [row]) key at_ := by
        intro at_
        rw [hsim₁, opAt_append_singleton, hsim]
      have := ih (hw.appendRow hmut (hat row List.mem_cons_self) hfresh₀ h₁)
        (by rw [appendRow_entityType h₁]; exact hmut) hown₁ hstep
        (fun r hr => hfresh r (.tail _ hr))
        (fun r hr => (hat r (.tail _ hr)).appendRow (hrow r hr) hfresh₀ h₁) hsorted'
        (fun r hr => hrows r (.tail _ hr)) h
      rwa [List.append_assoc, List.singleton_append] at this
    · simp at h

/-- **`last_op` answers as the reference.** For a mutable type, a group built by
successful appends of single-block rows in order of blocks answers for `key`,
at every block, what applying the rows one after the other leaves, provided the
id of `key` is used under no other key. -/
theorem lastOp_eq_opAt (t : EntityType) (hmut : t.isImmutable = false)
    {hist : List EntityModification} (hfresh : ∀ m ∈ hist, m.end? = none)
    (hsorted : hist.Pairwise (·.block ≤ ·.block))
    (hkey : ∀ m ∈ hist, m.id = key.entityId → m.key = key)
    (h : (RowGroup.new t).appendRows writeBatchMemoize hist = (.ok (), g)) (at_ : BlockNumber) :
    g.lastOp writeBatchMemoize key at_ = opAt hist key at_ := by
  have hnew : ∀ b, AtOrAfter (RowGroup.new t) b := fun _ _ hr => by simp [RowGroup.new] at hr
  have hsim₀ : ∀ at_, (RowGroup.new t).lastOp false key at_ = opAt [] key at_ := fun _ => rfl
  obtain ⟨hsim, hown, hw⟩ := lastOp_appendRows (wf_new writeBatchMemoize t) hmut
    (fun _ hr => by simp [RowGroup.new] at hr) hsim₀ hfresh (fun r _ => hnew r.block)
    hsorted hkey h
  rw [lastOp_eq_scan hw.lastMod hown, hsim, List.nil_append]

/-- **The memoized `last_op` reads across causality regions.** An insert of the
id `a` in causality region `1`, looked up at block `5` under the same id in the
onchain region: nothing of that key was written, and the scan says so, but the
memoized path answers with the entity of region `1`. -/
theorem lastOp_other_region :
    ∃ (t : EntityType) (k₀ k₁ : EntityKey) (g : RowGroup),
      t.isImmutable = false ∧ k₀.entityId = k₁.entityId ∧ k₀ ≠ k₁ ∧
      (RowGroup.new t).appendRow true (.insert k₁ .empty 3 none) = (.ok (), g) ∧
      opAt [.insert k₁ .empty 3 none] k₀ 5 = none ∧
      g.lastOp false k₀ 5 = none ∧ g.lastOp true k₀ 5 = some (.write k₁ .empty) := by
  let t : EntityType := ⟨"Thing", false, false⟩
  let k₀ : EntityKey := ⟨t, .string "a", .ONCHAIN⟩
  let k₁ : EntityKey := ⟨t, .string "a", ⟨1⟩⟩
  exact ⟨t, k₀, k₁, _, rfl, rfl, by decide, Prod.ext rfl rfl, rfl, rfl, rfl⟩

end RowGroup

end GraphNode
