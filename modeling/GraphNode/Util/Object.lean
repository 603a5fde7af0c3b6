import GraphNode.Util.Intern

/-!
# Objects keyed by interned strings

An `Object` is the map of an entity: a list of entries whose keys are atoms of an `AtomPool`.
`remove` does not take an entry out. It turns the entry's key into the tombstone and its value
into the null value; `len`, `get` and the iterators skip tombstones, and `retain` drops them.
`PartialEq`, `eq_ignore_key` and `merge` each have two paths. Where both objects hold the same
`Arc` of a pool they compare and copy atoms; otherwise they go through the strings.

The entries an object shows are its *live* entries, those that are not tombstones
(`Object.live`). An object is well formed (`Object.Wf`) when its pool is a well-formed chain of
fewer atoms than the tombstone, no atom keys two live entries, and the pool has a word for every
live key. Each operation is first described by what it does to the live entries, then by what
it does to `get`:

| operation | `get` afterwards | theorem |
|---|---|---|
| `insert` | the key has the value | `Object.insertAtom_spec` |
| `remove` | the key has none | `Object.remove_spec` |
| `retain` | the values `f` keeps | `Object.retain_spec` |
| `merge` | the other object's, then its own | `Object.mergeByKey_spec` |

From these, a run of operations is a run of the reference map `String → Option V`
(`Object.run_spec`); the iterators list the reference map (`Object.iter_spec`); and the
same-pool paths answer what the paths through the strings answer (`Object.allByAtom_eq_allByKey`,
`Object.mergeByKey_eq_mergeByAtom`).

**An object over a well-formed pool refines a finite map** (`object_refines_map`), and **over
the pool of a child of a child it does not** (`object_grandchild_merges_keys`): there two words
share an atom, so inserting the second overwrites the first.

A panic of the code (`unwrap` of an atom the pool has no word for, `expect` of a word the pool
does not intern) is `none`. The identity of the pool's `Arc`, which `same_pool` compares, is the
number `poolPtr`; the null value of `NullValue` is `default`.
-/

namespace GraphNode

namespace Intern

/-- `Error`: the key given to `Object::insert` is not interned in the object's pool. -/
inductive Error
  | notInterned (key : String)
  deriving DecidableEq, Repr

end Intern

/-- `Entry`: an atom and its value. -/
structure Entry (V : Type) where
  key : Atom
  value : V

/-- `Object<V>`: the pool its keys are interned in, the identity of that pool's `Arc`, and the
entries. -/
structure Object (V : Type) where
  pool : AtomPool
  poolPtr : Nat
  entries : List (Entry V)

namespace Object

variable {V : Type}

/-! ### The operations -/

/-- `Object::new`. -/
def new (pool : AtomPool) (poolPtr : Nat) : Object V := ⟨pool, poolPtr, []⟩

/-- `Object::len`: the entries that are not tombstones. -/
def len (self : Object V) : Nat :=
  (self.entries.filter fun entry => entry.key != TOMBSTONE_KEY).length

/-- `entries.iter().find(|entry| entry.key == key).map(|entry| &entry.value)`. -/
def findValue (entries : List (Entry V)) (key : Atom) : Option V :=
  (entries.find? fun entry => entry.key == key).map (·.value)

/-- `Object::get`. -/
def get (self : Object V) (key : String) : Option V :=
  match self.pool.lookup key with
  | none => none
  | some key => findValue self.entries key

/-- `Object::get_by_atom`. -/
def getByAtom (self : Object V) (atom : Atom) : Option V :=
  if atom = TOMBSTONE_KEY then none else findValue self.entries atom

/-- `entries.iter_mut().find(|entry| entry.key == key)` and `std::mem::replace` of the entry it
finds by `entry`: the value the entry held, and the entries after the replacement. -/
def replaceFirst (key : Atom) (entry : Entry V) : List (Entry V) → Option V × List (Entry V)
  | [] => (none, [])
  | e :: es =>
    if e.key = key then (some e.value, entry :: es)
    else
      let r := replaceFirst key entry es
      (r.1, e :: r.2)

/-- `Object::insert_atom`: the value replaces that of the atom's entry, or a new entry is
pushed. -/
def insertAtom (self : Object V) (key : Atom) (value : V) : Option V × Object V :=
  -- attempts to insert the tombstone key are ignored
  if key = TOMBSTONE_KEY then (none, self)
  else
    -- the entry found keeps its key, so replacing its value is replacing it by `⟨key, value⟩`
    match replaceFirst key ⟨key, value⟩ self.entries with
    | (some old, entries) => (some old, { self with entries })
    | (none, _) => (none, { self with entries := self.entries ++ [⟨key, value⟩] })

/-- `Object::insert`: a key the pool does not have is an error. -/
def insert (self : Object V) (key : String) (value : V) :
    Except Intern.Error (Option V × Object V) :=
  match self.pool.lookup key with
  | none => .error (.notInterned key)
  | some key => .ok (self.insertAtom key value)

/-- `Object::remove`: the entry of the key becomes a tombstone holding the null value. -/
def remove [Inhabited V] (self : Object V) (key : String) : Option V × Object V :=
  match self.pool.lookup key with
  | none => (none, self)
  | some key =>
    let r := replaceFirst key ⟨TOMBSTONE_KEY, default⟩ self.entries
    (r.1, { self with entries := r.2 })

/-- `Object::same_pool`: `Arc::ptr_eq` of the two pools. -/
def samePool (self other : Object V) : Bool := self.poolPtr == other.poolPtr

/-- `ObjectIter`: the words and values of the entries that are not tombstones, in order.
`unwrap` of an atom the pool has no word for panics. -/
def iter (self : Object V) : Option (List (String × V)) :=
  (self.entries.filter fun entry => entry.key != TOMBSTONE_KEY).mapM fun entry =>
    (self.pool.get entry.key).map fun key => (key, entry.value)

/-- `ObjectOwningIter`, the iterator of `into_iter`: the loop of `ObjectIter`, moving the values
out. -/
def intoIter (self : Object V) : Option (List (String × V)) := self.iter

/-- `Iterator::all` over the `ObjectIter` of `entries`: it stops at the first pair that fails
`p`, before the `unwrap` of a later entry. -/
def iterAll (pool : AtomPool) (p : String → V → Bool) : List (Entry V) → Option Bool
  | [] => some true
  | entry :: entries =>
    if entry.key = TOMBSTONE_KEY then iterAll pool p entries
    else
      match pool.get entry.key with
      | none => none
      | some key => if p key entry.value then iterAll pool p entries else some false

/-- `Object::merge` when both objects use one pool: every entry of `other` is inserted by its
atom, and `insert_atom` skips the tombstones. -/
def mergeByAtom (self other : Object V) : Object V :=
  other.entries.foldl (fun o entry => (o.insertAtom entry.key entry.value).2) self

/-- `Object::merge` over another pool: the words and values of `other` are inserted by key, and
`expect` of a word the pool does not intern panics. -/
def mergeByKey (self other : Object V) : Option (Object V) := do
  let pairs ← other.intoIter
  pairs.foldlM (fun o pair =>
    match o.insert pair.1 pair.2 with
    | .ok r => some r.2
    | .error _ => none) self

/-- `Object::merge`. -/
def merge (self other : Object V) : Option (Object V) :=
  if self.samePool other then some (self.mergeByAtom other) else self.mergeByKey other

/-- `self.entries.retain(..)` with the closure of `Object::retain`: tombstones go, and a live
entry stays if `f` keeps its word and value. `unwrap` of an atom the pool has no word for
panics. -/
def retainEntries (pool : AtomPool) (f : String → V → Bool) :
    List (Entry V) → Option (List (Entry V))
  | [] => some []
  | entry :: entries =>
    if entry.key = TOMBSTONE_KEY then retainEntries pool f entries
    else
      match pool.get entry.key with
      | none => none
      | some key =>
        (retainEntries pool f entries).map fun rest =>
          if f key entry.value then entry :: rest else rest

/-- `Object::retain`. -/
def retain (self : Object V) (f : String → V → Bool) : Option (Object V) :=
  (retainEntries self.pool f self.entries).map fun entries => { self with entries }

/-- `Object::len_ignore_atom`. -/
def lenIgnoreAtom (self : Object V) (atom : Atom) : Nat :=
  (self.entries.filter fun entry => entry.key != TOMBSTONE_KEY && entry.key != atom).length

section Eq

variable [DecidableEq V]

/-- The same-pool path of `PartialEq` and `eq_ignore_key`: every entry of `self` that is not a
tombstone and whose atom `keep` keeps has its value at its atom in `other`. -/
def allByAtom (self other : Object V) (keep : Atom → Bool) : Bool :=
  (self.entries.filter fun e => e.key != TOMBSTONE_KEY && keep e.key).all fun e =>
    other.getByAtom e.key == some e.value

/-- The path of `PartialEq` and `eq_ignore_key` through the strings: every word of `self` that
`keep` keeps has its value at that word in `other`. -/
def allByKey (self other : Object V) (keep : String → Bool) : Option Bool :=
  iterAll self.pool (fun key value => !keep key || other.get key == some value) self.entries

/-- `PartialEq::eq` for `Object`. -/
def eq (self other : Object V) : Option Bool :=
  if self.len ≠ other.len then some false
  else if self.samePool other then some (self.allByAtom other fun _ => true)
  else self.allByKey other fun _ => true

/-- `Object::eq_ignore_key`. -/
def eqIgnoreKey (self other : Object V) (ignoreKey : String) : Option Bool :=
  let ignore := self.pool.lookup ignoreKey
  let len1 := match ignore with
    | some toIgnore => self.lenIgnoreAtom toIgnore
    | none => self.len
  let len2 := match other.pool.lookup ignoreKey with
    | some toIgnore => other.lenIgnoreAtom toIgnore
    | none => other.len
  if len1 ≠ len2 then some false
  else if self.samePool other then some (self.allByAtom other fun key => ignore != some key)
  else self.allByKey other fun key => key != ignoreKey

end Eq

/-! ### Live entries -/

/-- The entries that are not tombstones: those `len`, `get` and the iterators see. -/
def live (entries : List (Entry V)) : List (Entry V) :=
  entries.filter fun entry => entry.key != TOMBSTONE_KEY

/-- No atom keys two live entries. -/
def KeysNodup (entries : List (Entry V)) : Prop := ((live entries).map (·.key)).Nodup

@[simp] theorem mem_live {entries : List (Entry V)} {e : Entry V} :
    e ∈ live entries ↔ e ∈ entries ∧ e.key ≠ TOMBSTONE_KEY := by
  simp [live]

@[simp] theorem live_nil : live ([] : List (Entry V)) = [] := rfl

@[simp] theorem live_append (l₁ l₂ : List (Entry V)) : live (l₁ ++ l₂) = live l₁ ++ live l₂ :=
  List.filter_append ..

theorem live_cons_of_ne {e : Entry V} (h : e.key ≠ TOMBSTONE_KEY) (l : List (Entry V)) :
    live (e :: l) = e :: live l := by
  simp [live, h]

theorem live_cons_of_eq {e : Entry V} (h : e.key = TOMBSTONE_KEY) (l : List (Entry V)) :
    live (e :: l) = live l := by
  simp [live, h]

theorem len_eq_length_live (o : Object V) : o.len = (live o.entries).length := rfl

/-- Two live entries with one atom are one entry. -/
theorem KeysNodup.eq_of_key_eq {entries : List (Entry V)} (h : KeysNodup entries)
    {e₁ e₂ : Entry V} (h₁ : e₁ ∈ live entries) (h₂ : e₂ ∈ live entries)
    (hk : e₁.key = e₂.key) : e₁ = e₂ :=
  List.inj_on_of_nodup_map h h₁ h₂ hk

theorem KeysNodup.sublist {l₁ l₂ : List (Entry V)} (h : KeysNodup l₂)
    (hs : (live l₁).Sublist (live l₂)) : KeysNodup l₁ :=
  List.Nodup.sublist (hs.map _) h

theorem KeysNodup.of_cons {e : Entry V} {l : List (Entry V)} (h : KeysNodup (e :: l)) :
    KeysNodup l :=
  h.sublist (by by_cases he : e.key = TOMBSTONE_KEY <;> simp [live_cons_of_eq, live_cons_of_ne, he])

/-- In entries without a repeated live atom, no live entry after the one of an atom has that
atom. -/
theorem KeysNodup.key_ne_of_mem_right {pre post : List (Entry V)} {x e : Entry V}
    (h : KeysNodup (pre ++ x :: post)) (hx : x.key ≠ TOMBSTONE_KEY) (he : e ∈ live post) :
    e.key ≠ x.key := by
  intro hk
  have he' : e ∈ live (pre ++ x :: post) := by simp_all
  have hx' : x ∈ live (pre ++ x :: post) := by simp [hx]
  have hxe := h.eq_of_key_eq he' hx' hk
  subst hxe
  unfold KeysNodup at h
  rw [live_append, live_cons_of_ne hx, List.map_append, List.map_cons] at h
  exact (List.nodup_cons.mp (List.nodup_append.mp h).2.1).1 (List.mem_map_of_mem he)

/-- **`iter_mut().find()` and `std::mem::replace`**: either no entry has the atom and nothing
changes, or the first entry with it is replaced and its value returned. -/
theorem replaceFirst_spec (key : Atom) (entry : Entry V) (entries : List (Entry V)) :
    ((∀ x ∈ entries, x.key ≠ key) ∧ replaceFirst key entry entries = (none, entries)) ∨
    ∃ pre x post, entries = pre ++ x :: post ∧ (∀ y ∈ pre, y.key ≠ key) ∧ x.key = key ∧
      replaceFirst key entry entries = (some x.value, pre ++ entry :: post) := by
  induction entries with
  | nil => exact .inl ⟨by simp, rfl⟩
  | cons e es ih =>
    by_cases he : e.key = key
    · -- the first entry has the atom
      exact .inr ⟨[], e, es, rfl, by simp, he, by simp [replaceFirst, he]⟩
    · rcases ih with ⟨hnone, hr⟩ | ⟨pre, x, post, rfl, hpre, hx, hr⟩
      · refine .inl ⟨?_, by simp [replaceFirst, he, hr]⟩
        intro x hx
        rcases List.mem_cons.mp hx with rfl | hx
        · exact he
        · exact hnone x hx
      · refine .inr ⟨e :: pre, x, post, rfl, ?_, hx, by simp [replaceFirst, he, hr]⟩
        intro y hy
        rcases List.mem_cons.mp hy with rfl | hy
        · exact he
        · exact hpre y hy

/-- **The value found at a live atom is that of its one live entry.** -/
theorem findValue_eq_some_iff {entries : List (Entry V)} (h : KeysNodup entries) {a : Atom}
    (ha : a ≠ TOMBSTONE_KEY) {v : V} : findValue entries a = some v ↔ ⟨a, v⟩ ∈ entries := by
  unfold findValue
  constructor
  · intro hf
    obtain ⟨e, he, rfl⟩ := Option.map_eq_some_iff.mp hf
    have hkey : e.key = a := by simpa using List.find?_some he
    subst hkey
    exact List.mem_of_find?_eq_some he
  · intro hmem
    obtain ⟨e, he⟩ : ∃ e, entries.find? (fun entry => entry.key == a) = some e :=
      Option.isSome_iff_exists.mp (List.find?_isSome.mpr ⟨_, hmem, by simp⟩)
    have hkey : e.key = a := by simpa using List.find?_some he
    have heq : e = ⟨a, v⟩ :=
      h.eq_of_key_eq (by simp [List.mem_of_find?_eq_some he, hkey, ha]) (by simp [hmem, ha]) hkey
    simp [he, heq]

/-! ### What each operation does to the live entries -/

@[simp] theorem insertAtom_pool (o : Object V) (a : Atom) (v : V) :
    (o.insertAtom a v).2.pool = o.pool := by
  unfold insertAtom
  split
  · rfl
  · split <;> rfl

@[simp] theorem insertAtom_poolPtr (o : Object V) (a : Atom) (v : V) :
    (o.insertAtom a v).2.poolPtr = o.poolPtr := by
  unfold insertAtom
  split
  · rfl
  · split <;> rfl

theorem insertAtom_of_eq (o : Object V) {a : Atom} (ha : a = TOMBSTONE_KEY) (v : V) :
    (o.insertAtom a v).2 = o := by
  simp [insertAtom, ha]

/-- **What `insert_atom` does to the live entries**: the atom's entry holds the value and the
other live entries stay; still no atom keys two of them. -/
theorem insertAtom_live {o : Object V} (h : KeysNodup o.entries) {a : Atom}
    (ha : a ≠ TOMBSTONE_KEY) (v : V) :
    KeysNodup (o.insertAtom a v).2.entries ∧ ∀ e, e ∈ live (o.insertAtom a v).2.entries ↔
      e = ⟨a, v⟩ ∨ (e ∈ live o.entries ∧ e.key ≠ a) := by
  unfold insertAtom
  rw [if_neg ha]
  rcases replaceFirst_spec a ⟨a, v⟩ o.entries with
    ⟨hnone, hr⟩ | ⟨pre, x, post, hes, hpre, hx, hr⟩
  · -- no entry has the atom: a new one is pushed
    rw [hr]
    have hlive : live (o.entries ++ [⟨a, v⟩]) = live o.entries ++ [⟨a, v⟩] := by
      simp [live, ha]
    refine ⟨?_, fun e => ?_⟩
    · unfold KeysNodup
      rw [hlive, List.map_append, List.nodup_append]
      refine ⟨h, by simp, ?_⟩
      intro b hb c hc
      obtain ⟨e, he, rfl⟩ := List.mem_map.mp hb
      rw [List.map_singleton, List.mem_singleton] at hc
      rw [hc]
      exact hnone e (mem_live.mp he).1
    · rw [hlive, List.mem_append, List.mem_singleton]
      constructor
      · rintro (he | rfl)
        · exact .inr ⟨he, hnone e (mem_live.mp he).1⟩
        · exact .inl rfl
      · rintro (rfl | ⟨he, -⟩)
        · exact .inr rfl
        · exact .inl he
  · -- the atom's entry is replaced in place
    rw [hr]
    dsimp only
    have hxa : x.key ≠ TOMBSTONE_KEY := hx ▸ ha
    rw [hes] at h ⊢
    have hlive : live (pre ++ ⟨a, v⟩ :: post) = live pre ++ ⟨a, v⟩ :: live post := by
      rw [live_append, live_cons_of_ne (e := ⟨a, v⟩) ha]
    rw [hlive]
    refine ⟨?_, fun e => ?_⟩
    · unfold KeysNodup at h ⊢
      rw [hlive]
      simpa [live_append, live_cons_of_ne hxa, hx] using h
    · have hpost : ∀ e ∈ live post, e.key ≠ a := fun e he =>
        hx ▸ KeysNodup.key_ne_of_mem_right h hxa he
      rw [live_append, live_cons_of_ne hxa]
      simp only [List.mem_append, List.mem_cons]
      constructor
      · rintro (he | rfl | he)
        · exact .inr ⟨.inl he, hpre e (mem_live.mp he).1⟩
        · exact .inl rfl
        · exact .inr ⟨.inr (.inr he), hpost e he⟩
      · rintro (rfl | ⟨he | rfl | he, hne⟩)
        · exact .inr (.inl rfl)
        · exact .inl he
        · exact absurd hx hne
        · exact .inr (.inr he)

/-- **What a tombstone does to the live entries**: the atom's entry leaves them, and no other
does. -/
theorem replaceFirst_tombstone_live {entries : List (Entry V)} (h : KeysNodup entries)
    {a : Atom} (ha : a ≠ TOMBSTONE_KEY) (d : V) :
    (live (replaceFirst a ⟨TOMBSTONE_KEY, d⟩ entries).2).Sublist (live entries) ∧
      ∀ e, e ∈ live (replaceFirst a ⟨TOMBSTONE_KEY, d⟩ entries).2 ↔
        e ∈ live entries ∧ e.key ≠ a := by
  rcases replaceFirst_spec a ⟨TOMBSTONE_KEY, d⟩ entries with
    ⟨hnone, hr⟩ | ⟨pre, x, post, hes, hpre, hx, hr⟩
  · rw [hr]
    exact ⟨List.Sublist.refl _, fun e => ⟨fun he => ⟨he, hnone e (mem_live.mp he).1⟩, And.left⟩⟩
  · rw [hr]
    have hxa : x.key ≠ TOMBSTONE_KEY := hx ▸ ha
    subst hes
    have hpost : ∀ e ∈ live post, e.key ≠ a := fun e he =>
      hx ▸ KeysNodup.key_ne_of_mem_right h hxa he
    simp only [live_append, live_cons_of_eq (e := ⟨TOMBSTONE_KEY, d⟩) rfl, live_cons_of_ne hxa]
    refine ⟨(List.sublist_cons_self x _).append_left _, fun e => ?_⟩
    simp only [List.mem_append, List.mem_cons]
    constructor
    · rintro (he | he)
      · exact ⟨.inl he, hpre e (mem_live.mp he).1⟩
      · exact ⟨.inr (.inr he), hpost e he⟩
    · rintro ⟨he | rfl | he, hne⟩
      · exact .inl he
      · exact absurd hx hne
      · exact .inr he

/-- **`retain` keeps the live entries `f` keeps**, where the pool has a word for every live
atom. -/
theorem retainEntries_eq (pool : AtomPool) (f : String → V → Bool) {entries : List (Entry V)}
    (hb : ∀ e ∈ live entries, (pool.get e.key).isSome) :
    retainEntries pool f entries =
      some ((live entries).filter fun e => (pool.get e.key).any fun w => f w e.value) := by
  induction entries with
  | nil => rfl
  | cons e es ih =>
    by_cases he : e.key = TOMBSTONE_KEY
    · rw [live_cons_of_eq he] at hb ⊢
      rw [retainEntries, if_pos he]
      exact ih hb
    · rw [live_cons_of_ne he] at hb ⊢
      obtain ⟨w, hw⟩ := Option.isSome_iff_exists.mp (hb e List.mem_cons_self)
      rw [retainEntries, if_neg he, hw, ih (fun x hx => hb x (List.mem_cons_of_mem _ hx))]
      by_cases hf : f w e.value <;> simp [hw, hf]

/-- **Inserting the entries of a list one by one**: the live entries of the list replace those
of their atoms. -/
theorem foldl_insertAtom_live {L : List (Entry V)} (hL : KeysNodup L) {o : Object V}
    (h : KeysNodup o.entries) :
    let o' := L.foldl (fun o e => (o.insertAtom e.key e.value).2) o
    o'.pool = o.pool ∧ o'.poolPtr = o.poolPtr ∧ KeysNodup o'.entries ∧
      ∀ e, e ∈ live o'.entries ↔
        e ∈ live L ∨ (e ∈ live o.entries ∧ ∀ x ∈ live L, x.key ≠ e.key) := by
  induction L generalizing o with
  | nil => simp [h]
  | cons x L ih =>
    simp only [List.foldl_cons]
    by_cases hx : x.key = TOMBSTONE_KEY
    · -- `insert_atom` skips a tombstone
      rw [insertAtom_of_eq o hx, live_cons_of_eq hx]
      exact ih hL.of_cons h
    · obtain ⟨hn₁, hmem₁⟩ := insertAtom_live h hx x.value
      obtain ⟨hp, hpp, hn, hmem⟩ := ih hL.of_cons hn₁
      have hxL : ∀ y ∈ live L, y.key ≠ x.key := by
        intro y hy hyx
        exact KeysNodup.key_ne_of_mem_right (show KeysNodup ([] ++ x :: L) from hL) hx hy hyx
      refine ⟨by rw [hp, insertAtom_pool], by rw [hpp, insertAtom_poolPtr], hn, fun e => ?_⟩
      rw [hmem e, hmem₁ e, live_cons_of_ne hx]
      constructor
      · rintro (he | ⟨he | ⟨he, hne⟩, hall⟩)
        · exact .inl (List.mem_cons_of_mem _ he)
        · subst he
          exact .inl List.mem_cons_self
        · refine .inr ⟨he, fun y hy => ?_⟩
          rcases List.mem_cons.mp hy with rfl | hy
          · exact Ne.symm hne
          · exact hall y hy
      · rintro (he | ⟨he, hall⟩)
        · rcases List.mem_cons.mp he with rfl | he
          · exact .inr ⟨.inl rfl, hxL⟩
          · exact .inl he
        · exact .inr ⟨.inr ⟨he, fun hk => hall x List.mem_cons_self hk.symm⟩, fun y hy =>
            hall y (List.mem_cons_of_mem _ hy)⟩

/-! ### Well-formed objects and `get` -/

/-- **A well-formed object**: its pool is a well-formed chain of at most `AtomInt::MAX` atoms,
so that no atom is the tombstone; no atom keys two live entries; and every live atom lies
within the chain. -/
structure Wf (o : Object V) : Prop where
  pool : o.pool.Wf
  small : o.pool.all.length ≤ ATOM_INT_MAX
  nodup : KeysNodup o.entries
  backed : ∀ e ∈ live o.entries, e.key.val < o.pool.all.length

theorem wf_new {pool : AtomPool} (h : pool.Wf) (hs : pool.all.length ≤ ATOM_INT_MAX)
    (poolPtr : Nat) : (new pool poolPtr : Object V).Wf :=
  ⟨h, hs, List.nodup_nil, by simp [new]⟩

theorem Wf.ne_tombstone {o : Object V} (h : o.Wf) {k : String} {a : Atom}
    (hl : o.pool.lookup k = some a) : a ≠ TOMBSTONE_KEY :=
  AtomPool.ne_tombstone_of_lt h.small (AtomPool.lt_of_lookup h.pool hl)

/-- **`get` reads the live entry of the word's atom.** -/
theorem get_eq_some_iff {o : Object V} (h : o.Wf) {k : String} {v : V} :
    o.get k = some v ↔ ∃ a, o.pool.lookup k = some a ∧ ⟨a, v⟩ ∈ live o.entries := by
  unfold get
  split
  · rename_i hl
    simp [hl]
  · rename_i a hl
    have ha := h.ne_tombstone hl
    rw [findValue_eq_some_iff h.nodup ha]
    simp [hl, ha]

theorem get_eq_some_iff_of_lookup {o : Object V} (h : o.Wf) {k : String} {a : Atom}
    (hl : o.pool.lookup k = some a) {v : V} : o.get k = some v ↔ ⟨a, v⟩ ∈ live o.entries := by
  rw [get_eq_some_iff h]
  simp [hl]

theorem get_eq_none_of_lookup {o : Object V} {k : String} (hl : o.pool.lookup k = none) :
    o.get k = none := by
  simp [get, hl]

/-- Every live entry is the entry of a word: the word of its atom. -/
theorem Wf.exists_word {o : Object V} (h : o.Wf) {e : Entry V} (he : e ∈ live o.entries) :
    ∃ k, o.pool.get e.key = some k ∧ o.pool.lookup k = some e.key :=
  AtomPool.exists_get_of_lt h.pool (h.backed e he)

/-- **`insert` of an interned word**: the word has the value, every other word keeps its own,
and the object stays well formed. -/
theorem insertAtom_spec {o : Object V} (h : o.Wf) {k : String} {a : Atom}
    (hl : o.pool.lookup k = some a) (v : V) :
    (o.insertAtom a v).2.Wf ∧
      ∀ k', (o.insertAtom a v).2.get k' = Function.update o.get k (some v) k' := by
  have ha := h.ne_tombstone hl
  obtain ⟨hn, hmem⟩ := insertAtom_live h.nodup ha v
  have hwf : (o.insertAtom a v).2.Wf := by
    refine ⟨by simpa using h.pool, by simpa using h.small, hn, fun e he => ?_⟩
    rw [insertAtom_pool]
    rcases (hmem e).mp he with rfl | ⟨he, -⟩
    · exact AtomPool.lt_of_lookup h.pool hl
    · exact h.backed e he
  refine ⟨hwf, fun k' => Option.ext fun w => ?_⟩
  rw [get_eq_some_iff hwf, insertAtom_pool]
  by_cases hk : k' = k
  · -- the inserted word
    subst hk
    simp only [Function.update_self, hl, Option.some.injEq, exists_eq_left', hmem,
      Entry.mk.injEq, true_and, ne_eq, not_true_eq_false, and_false, or_false]
    exact eq_comm
  · -- another word is at another atom
    rw [Function.update_of_ne hk, get_eq_some_iff h]
    have hne : ∀ b, o.pool.lookup k' = some b → b ≠ a := fun b hb hba =>
      hk (AtomPool.lookup_inj h.pool (hba ▸ hb) hl)
    constructor
    · rintro ⟨b, hb, hmem'⟩
      rcases (hmem _).mp hmem' with heq | ⟨hmem', -⟩
      · exact absurd (Entry.mk.inj heq).1 (hne b hb)
      · exact ⟨b, hb, hmem'⟩
    · rintro ⟨b, hb, hmem'⟩
      exact ⟨b, hb, (hmem _).mpr (.inr ⟨hmem', hne b hb⟩)⟩

@[simp] theorem remove_pool [Inhabited V] (o : Object V) (k : String) :
    (o.remove k).2.pool = o.pool := by
  unfold remove
  split <;> rfl

@[simp] theorem remove_poolPtr [Inhabited V] (o : Object V) (k : String) :
    (o.remove k).2.poolPtr = o.poolPtr := by
  unfold remove
  split <;> rfl

/-- **`remove`**: the word has no value afterwards, every other word keeps its own, and the
object stays well formed. -/
theorem remove_spec [Inhabited V] {o : Object V} (h : o.Wf) (k : String) :
    (o.remove k).2.Wf ∧ ∀ k', (o.remove k).2.get k' = Function.update o.get k none k' := by
  unfold remove
  split
  · -- a word the pool does not have: nothing changes, and the word has no value
    rename_i hl
    refine ⟨h, fun k' => ?_⟩
    by_cases hk : k' = k
    · subst hk
      rw [Function.update_self, get_eq_none_of_lookup hl]
    · rw [Function.update_of_ne hk]
  · rename_i a hl
    have ha := h.ne_tombstone hl
    obtain ⟨hsub, hmem⟩ := replaceFirst_tombstone_live h.nodup ha (default : V)
    have hwf : Wf { o with entries := (replaceFirst a ⟨TOMBSTONE_KEY, default⟩ o.entries).2 } :=
      ⟨h.pool, h.small, h.nodup.sublist hsub, fun e he => h.backed e (hsub.subset he)⟩
    refine ⟨hwf, fun k' => Option.ext fun w => ?_⟩
    rw [get_eq_some_iff hwf]
    by_cases hk : k' = k
    · subst hk
      simp [hl, hmem]
    · rw [Function.update_of_ne hk, get_eq_some_iff h]
      have hne : ∀ b, o.pool.lookup k' = some b → b ≠ a := fun b hb hba =>
        hk (AtomPool.lookup_inj h.pool (hba ▸ hb) hl)
      simp only [hmem]
      constructor
      · rintro ⟨b, hb, hmem', -⟩
        exact ⟨b, hb, hmem'⟩
      · rintro ⟨b, hb, hmem'⟩
        exact ⟨b, hb, hmem', hne b hb⟩

/-- **`retain`**: a word keeps its value where `f` keeps it, and the object stays well
formed. -/
theorem retain_spec {o : Object V} (h : o.Wf) (f : String → V → Bool) :
    ∃ o', o.retain f = some o' ∧ o'.Wf ∧ o'.pool = o.pool ∧ o'.poolPtr = o.poolPtr ∧
      ∀ k, o'.get k = (o.get k).filter (f k) := by
  have hb : ∀ e ∈ live o.entries, (o.pool.get e.key).isSome := fun e he => by
    obtain ⟨k, hk, -⟩ := h.exists_word he
    simp [hk]
  -- the entries kept are live, so they are their own live entries
  have hL : live ((live o.entries).filter fun e => (o.pool.get e.key).any fun w => f w e.value) =
      (live o.entries).filter fun e => (o.pool.get e.key).any fun w => f w e.value :=
    List.filter_eq_self.mpr fun e he => by simpa using (mem_live.mp (List.mem_filter.mp he).1).2
  have hsub : (live ((live o.entries).filter fun e => (o.pool.get e.key).any fun w =>
      f w e.value)).Sublist (live o.entries) := by
    rw [hL]
    exact List.filter_sublist
  have hwf : Wf { o with entries := (live o.entries).filter fun e =>
      (o.pool.get e.key).any fun w => f w e.value } :=
    ⟨h.pool, h.small, h.nodup.sublist hsub, fun e he => h.backed e (hsub.subset he)⟩
  refine ⟨_, by simp [retain, retainEntries_eq o.pool f hb], hwf, rfl, rfl,
    fun k => Option.ext fun w => ?_⟩
  rw [Option.filter_eq_some_iff]
  cases hl : o.pool.lookup k with
  | none => simp [get, hl]
  | some a =>
    rw [get_eq_some_iff_of_lookup hwf hl, get_eq_some_iff_of_lookup h hl]
    dsimp only
    rw [hL, List.mem_filter, AtomPool.get_of_lookup h.pool hl]
    simp

/-! ### The iterators -/

/-- The words and values of the live entries, in order: what the iterators list when no
`unwrap` panics. -/
def view (o : Object V) : List (String × V) :=
  (live o.entries).filterMap fun e => (o.pool.get e.key).map fun k => (k, e.value)

/-- `mapM` in `Option` of a function that never fails is its `filterMap`. -/
theorem mapM_eq_some_filterMap {α β : Type} {f : α → Option β} :
    ∀ {l : List α}, (∀ x ∈ l, (f x).isSome) → l.mapM f = some (l.filterMap f)
  | [], _ => rfl
  | x :: l, hl => by
    obtain ⟨b, hb⟩ := Option.isSome_iff_exists.mp (hl x List.mem_cons_self)
    rw [List.mapM_cons, hb, mapM_eq_some_filterMap (fun y hy => hl y (List.mem_cons_of_mem _ hy)),
      List.filterMap_cons, hb]
    rfl

theorem iter_eq_view {o : Object V} (h : o.Wf) : o.iter = some o.view := by
  apply mapM_eq_some_filterMap
  intro e he
  obtain ⟨k, hk, -⟩ := h.exists_word he
  simp [hk]

theorem mem_view {o : Object V} (h : o.Wf) {k : String} {v : V} :
    (k, v) ∈ o.view ↔ o.get k = some v := by
  rw [get_eq_some_iff h]
  unfold view
  simp only [List.mem_filterMap, Option.map_eq_some_iff, Prod.mk.injEq]
  constructor
  · rintro ⟨e, he, k', hk', rfl, rfl⟩
    exact ⟨e.key, AtomPool.lookup_of_get h.pool hk', he⟩
  · rintro ⟨a, hl, he⟩
    exact ⟨⟨a, v⟩, he, k, AtomPool.get_of_lookup h.pool hl, rfl, rfl⟩

/-- Each word is listed once: the atoms of the live entries are distinct, and the pool has one
word per atom. -/
theorem nodup_view {o : Object V} (h : o.Wf) : (o.view.map Prod.fst).Nodup := by
  unfold view
  rw [List.map_filterMap]
  have hfm : ((live o.entries).filterMap fun e =>
      ((o.pool.get e.key).map fun k => (k, e.value)).map Prod.fst) =
      ((live o.entries).map (·.key)).filterMap o.pool.get := by
    rw [List.filterMap_map]
    exact List.filterMap_congr fun e _ => by simp [Option.map_map, Function.comp_def]
  rw [hfm]
  refine List.Nodup.filterMap (fun a a' k hk hk' => ?_) h.nodup
  have h₁ := AtomPool.lookup_of_get h.pool (Option.mem_def.mp hk)
  rw [AtomPool.lookup_of_get h.pool (Option.mem_def.mp hk')] at h₁
  exact (Option.some.inj h₁).symm

/-- The pairs the iterators list are distinct. -/
theorem Wf.nodup_view_pairs {o : Object V} (h : o.Wf) : o.view.Nodup :=
  (nodup_view h).of_map _

theorem length_view {o : Object V} (h : o.Wf) : o.view.length = o.len := by
  unfold view
  rw [len_eq_length_live, List.filterMap_length_eq_length]
  intro e he
  obtain ⟨k, hk, -⟩ := h.exists_word he
  simp [hk]

/-! ### `merge` -/

/-- **Inserting interned words one by one is inserting their atoms one by one.** -/
theorem foldlM_insert_eq {pool : AtomPool} {pairs : List (String × V)}
    (hp : ∀ p ∈ pairs, (pool.lookup p.1).isSome) {o : Object V} (ho : o.pool = pool) :
    pairs.foldlM (fun o pair =>
      match o.insert pair.1 pair.2 with
      | .ok r => some r.2
      | .error _ => none) o =
    some ((pairs.map fun p => (⟨(pool.lookup p.1).getD TOMBSTONE_KEY, p.2⟩ : Entry V)).foldl
      (fun o e => (o.insertAtom e.key e.value).2) o) := by
  induction pairs generalizing o with
  | nil => rfl
  | cons p ps ih =>
    obtain ⟨a, ha⟩ := Option.isSome_iff_exists.mp (hp p List.mem_cons_self)
    have hins : o.insert p.1 p.2 = .ok (o.insertAtom a p.2) := by simp [insert, ho, ha]
    rw [List.foldlM_cons, hins, List.map_cons, List.foldl_cons, ha, Option.getD_some]
    exact ih (fun q hq => hp q (List.mem_cons_of_mem _ hq)) (by rw [insertAtom_pool, ho])

/-- The entries `merge` inserts over another pool: the atoms, in the object's pool, of the other
object's words. -/
theorem mem_mergeEntries {o other : Object V} (h' : other.Wf)
    (hk : ∀ k, (other.get k).isSome → (o.pool.lookup k).isSome) {e : Entry V} :
    e ∈ other.view.map (fun p => (⟨(o.pool.lookup p.1).getD TOMBSTONE_KEY, p.2⟩ : Entry V)) ↔
      ∃ k, o.pool.lookup k = some e.key ∧ other.get k = some e.value := by
  simp only [List.mem_map, Prod.exists]
  constructor
  · rintro ⟨k, v, hkv, rfl⟩
    have hv := (mem_view h').mp hkv
    obtain ⟨a, ha⟩ := Option.isSome_iff_exists.mp (hk k (by simp [hv]))
    exact ⟨k, by simp [ha], hv⟩
  · rintro ⟨k, hl, hv⟩
    exact ⟨k, e.value, (mem_view h').mpr hv, by simp [hl]⟩

/-- `merge` over another pool inserts the atoms of the other object's words, in order. -/
theorem mergeByKey_eq_foldl {o other : Object V} (h' : other.Wf)
    (hk : ∀ k, (other.get k).isSome → (o.pool.lookup k).isSome) :
    o.mergeByKey other = some ((other.view.map fun p =>
      (⟨(o.pool.lookup p.1).getD TOMBSTONE_KEY, p.2⟩ : Entry V)).foldl
        (fun o e => (o.insertAtom e.key e.value).2) o) := by
  simp only [mergeByKey, intoIter, iter_eq_view h', Option.bind_eq_bind, Option.bind_some]
  exact foldlM_insert_eq (fun p hp => hk p.1 (by simp [(mem_view h').mp hp])) rfl

/-- **`merge` over another pool**: a word has the other object's value if it has one, and its
own otherwise; the object stays well formed. -/
theorem mergeByKey_spec {o other : Object V} (h : o.Wf) (h' : other.Wf)
    (hk : ∀ k, (other.get k).isSome → (o.pool.lookup k).isSome) :
    ∃ o', o.mergeByKey other = some o' ∧ o'.Wf ∧ o'.pool = o.pool ∧ o'.poolPtr = o.poolPtr ∧
      ∀ k, o'.get k = (other.get k).or (o.get k) := by
  set L := other.view.map fun p => (⟨(o.pool.lookup p.1).getD TOMBSTONE_KEY, p.2⟩ : Entry V)
  have hmemL : ∀ e, e ∈ L ↔ ∃ k, o.pool.lookup k = some e.key ∧ other.get k = some e.value :=
    fun e => mem_mergeEntries h' hk
  have hliveL : live L = L := List.filter_eq_self.mpr fun e he => by
    obtain ⟨k, hl, -⟩ := (hmemL e).mp he
    simpa using h.ne_tombstone hl
  have hnL : KeysNodup L := by
    unfold KeysNodup
    rw [hliveL, List.map_map]
    refine List.Nodup.map_on (fun p hp q hq hpq => ?_) h'.nodup_view_pairs
    obtain ⟨a, ha⟩ := Option.isSome_iff_exists.mp (hk p.1 (by simp [(mem_view h').mp hp]))
    obtain ⟨b, hb⟩ := Option.isSome_iff_exists.mp (hk q.1 (by simp [(mem_view h').mp hq]))
    simp only [Function.comp_apply, ha, hb, Option.getD_some] at hpq
    subst hpq
    have hpq1 := AtomPool.lookup_inj h.pool ha hb
    have hv₁ := (mem_view h').mp hp
    rw [hpq1, (mem_view h').mp hq] at hv₁
    exact Prod.ext hpq1 (Option.some.inj hv₁).symm
  obtain ⟨hp, hpp, hn, hmem⟩ := foldl_insertAtom_live hnL h.nodup
  have hlive : ∀ e, e ∈ live (L.foldl (fun o e => (o.insertAtom e.key e.value).2) o).entries ↔
      e ∈ L ∨ (e ∈ live o.entries ∧ ∀ x ∈ L, x.key ≠ e.key) := by
    intro e
    rw [hmem e, hliveL]
  have hwf : (L.foldl (fun o e => (o.insertAtom e.key e.value).2) o).Wf := by
    refine ⟨hp ▸ h.pool, hp ▸ h.small, hn, fun e he => ?_⟩
    rw [hp]
    rcases (hlive e).mp he with he | ⟨he, -⟩
    · obtain ⟨k, hl, -⟩ := (hmemL e).mp he
      exact AtomPool.lt_of_lookup h.pool hl
    · exact h.backed e he
  refine ⟨_, mergeByKey_eq_foldl h' hk, hwf, hp, hpp, fun k => Option.ext fun w => ?_⟩
  rw [Option.or_eq_some_iff]
  cases hl : o.pool.lookup k with
  | none =>
    -- a word the pool does not intern has a value in neither object
    have hother : other.get k = none := by
      cases hv : other.get k with
      | none => rfl
      | some v => simpa [hl] using hk k (by simp [hv])
    rw [hother, get_eq_none_of_lookup (by rw [hp]; exact hl), get_eq_none_of_lookup hl]
    simp
  | some a =>
    rw [get_eq_some_iff_of_lookup hwf (by rw [hp]; exact hl), hlive, get_eq_some_iff_of_lookup h hl]
    -- the entry of `a` in `L` is the other object's value at `k`
    have hinL : ∀ v, (⟨a, v⟩ : Entry V) ∈ L ↔ other.get k = some v := fun v => by
      rw [hmemL]
      constructor
      · rintro ⟨k', hl', hv⟩
        rwa [AtomPool.lookup_inj h.pool hl' hl] at hv
      · intro hv
        exact ⟨k, hl, hv⟩
    have hnone : (∀ x ∈ L, x.key ≠ a) ↔ other.get k = none := by
      rw [Option.eq_none_iff_forall_ne_some]
      constructor
      · intro hall v hv
        exact hall ⟨a, v⟩ ((hinL v).mpr hv) rfl
      · intro hne x hx hxa
        obtain ⟨k', hl', hv⟩ := (hmemL x).mp hx
        rw [hxa, AtomPool.lookup_inj h.pool hl' hl] at *
        exact hne x.value hv
    rw [hinL, hnone, and_comm]

/-- Inserting the live entries of a list is inserting all of them: `insert_atom` skips a
tombstone. -/
theorem foldl_insertAtom_live_eq (L : List (Entry V)) (o : Object V) :
    (live L).foldl (fun o e => (o.insertAtom e.key e.value).2) o =
      L.foldl (fun o e => (o.insertAtom e.key e.value).2) o := by
  induction L generalizing o with
  | nil => rfl
  | cons x L ih =>
    by_cases hx : x.key = TOMBSTONE_KEY
    · rw [live_cons_of_eq hx, ih, List.foldl_cons, insertAtom_of_eq o hx]
    · rw [live_cons_of_ne hx, List.foldl_cons, List.foldl_cons, ih]

/-- **The same-pool path of `merge` gives what the path through the strings gives**: over one
pool, the atom of the word of an entry is the entry's atom. -/
theorem mergeByKey_eq_mergeByAtom {o other : Object V} (h' : other.Wf)
    (hp : other.pool = o.pool) : o.mergeByKey other = some (o.mergeByAtom other) := by
  have hk : ∀ k, (other.get k).isSome → (o.pool.lookup k).isSome := fun k hv => by
    cases hl : other.pool.lookup k with
    | none => simp [get_eq_none_of_lookup hl] at hv
    | some a => simp [← hp, hl]
  rw [mergeByKey_eq_foldl h' hk, mergeByAtom, ← foldl_insertAtom_live_eq other.entries]
  congr 2
  -- each live entry comes back as itself
  unfold view
  rw [List.map_filterMap]
  refine (List.filterMap_congr fun e he => ?_).trans (List.filterMap_some)
  obtain ⟨k, hk, hl⟩ := h'.exists_word he
  rw [← hp] at *
  simp [hk, hl]

/-! ### The same-pool comparisons -/

/-- **`Iterator::all` over the iterator**, where no `unwrap` panics: every live entry's word and
value pass. -/
theorem iterAll_eq (pool : AtomPool) (p : String → V → Bool) {entries : List (Entry V)}
    (hb : ∀ e ∈ live entries, (pool.get e.key).isSome) :
    iterAll pool p entries =
      some ((live entries).all fun e => (pool.get e.key).all fun k => p k e.value) := by
  induction entries with
  | nil => rfl
  | cons e es ih =>
    by_cases he : e.key = TOMBSTONE_KEY
    · rw [live_cons_of_eq he] at hb ⊢
      rw [iterAll, if_pos he]
      exact ih hb
    · rw [live_cons_of_ne he] at hb ⊢
      obtain ⟨k, hk⟩ := Option.isSome_iff_exists.mp (hb e List.mem_cons_self)
      rw [iterAll, if_neg he, hk, ih (fun x hx => hb x (List.mem_cons_of_mem _ hx))]
      by_cases hpe : p k e.value <;> simp [hk, hpe]

theorem get_eq_getByAtom {o : Object V} {k : String} {a : Atom}
    (hl : o.pool.lookup k = some a) (ha : a ≠ TOMBSTONE_KEY) : o.get k = o.getByAtom a := by
  simp [get, getByAtom, hl, ha]

/-- **The same-pool path of `PartialEq` and `eq_ignore_key` answers what the path through the
strings answers**, where the atoms `keep` keeps are those of the words `keep'` keeps. -/
theorem allByAtom_eq_allByKey [DecidableEq V] {o other : Object V} (h : o.Wf)
    (hp : other.pool = o.pool) {keep : Atom → Bool} {keep' : String → Bool}
    (hkeep : ∀ a k, o.pool.get a = some k → keep a = keep' k) :
    some (o.allByAtom other keep) = o.allByKey other keep' := by
  have hb : ∀ e ∈ live o.entries, (o.pool.get e.key).isSome := fun e he => by
    obtain ⟨k, hk, -⟩ := h.exists_word he
    simp [hk]
  rw [allByKey, iterAll_eq _ _ hb, allByAtom]
  congr 1
  have hfilter : (o.entries.filter fun e => e.key != TOMBSTONE_KEY && keep e.key) =
      (live o.entries).filter fun e => keep e.key := by
    rw [live, List.filter_filter]
    exact List.filter_congr fun e _ => Bool.and_comm ..
  rw [hfilter, List.all_filter]
  apply Bool.eq_iff_iff.mpr
  simp only [List.all_eq_true]
  refine forall₂_congr fun e he => ?_
  -- over one pool, the word of the entry's atom is looked up at that atom
  obtain ⟨k, hk, hl⟩ := h.exists_word he
  rw [hk, hkeep e.key k hk, Option.all_some,
    get_eq_getByAtom (o := other) (by rw [hp]; exact hl) (mem_live.mp he).2]

/-! ### Runs of operations against the reference map -/

/-- The operations a program runs on an object. -/
inductive Op (V : Type)
  | insert (key : String) (value : V)
  | remove (key : String)
  | merge (other : Object V)
  | retain (f : String → V → Bool)

/-- The operations a program runs on an object over `pool`, whose `Arc` has the identity
`poolPtr`: a key it inserts is interned in the pool, and an object it merges is well formed,
holds the pool if it holds the pool's `Arc`, and has only words the pool interns. -/
def Op.Valid (pool : AtomPool) (poolPtr : Nat) : Op V → Prop
  | .insert key _ => (pool.lookup key).isSome
  | .remove _ => True
  | .merge other =>
    other.Wf ∧ (other.poolPtr = poolPtr → other.pool = pool) ∧
      ∀ k, (other.get k).isSome → (pool.lookup k).isSome
  | .retain _ => True

/-- What an operation does to the reference map; `merge` reads the other object through
`get`. -/
def Op.applyRef : Op V → (String → Option V) → String → Option V
  | .insert key value, m => Function.update m key (some value)
  | .remove key, m => Function.update m key none
  | .merge other, m => fun k => (other.get k).or (m k)
  | .retain f, m => fun k => (m k).filter (f k)

/-- A run of operations on the reference map. -/
def runRef (ops : List (Op V)) (m : String → Option V) : String → Option V :=
  ops.foldl (fun m op => op.applyRef m) m

section Run

variable [Inhabited V]

/-- One operation on an object: the error of `insert` leaves the object as it is, and a panic
is `none`. -/
def Op.apply : Op V → Object V → Option (Object V)
  | .insert key value, o =>
    match o.insert key value with
    | .ok r => some r.2
    | .error _ => some o
  | .remove key, o => some (o.remove key).2
  | .merge other, o => o.merge other
  | .retain f, o => o.retain f

/-- A run of operations on an object. -/
def run (ops : List (Op V)) (o : Object V) : Option (Object V) :=
  ops.foldlM (fun o op => op.apply o) o

/-- **One operation on a well-formed object is one operation on its map**, and the object stays
well formed over the same pool. -/
theorem Op.apply_spec {op : Op V} {o : Object V} (h : o.Wf) (hv : op.Valid o.pool o.poolPtr) :
    ∃ o', op.apply o = some o' ∧ o'.Wf ∧ o'.pool = o.pool ∧ o'.poolPtr = o.poolPtr ∧
      o'.get = op.applyRef o.get := by
  cases op with
  | insert k v =>
    obtain ⟨a, ha⟩ := Option.isSome_iff_exists.mp hv
    obtain ⟨hwf, hget⟩ := insertAtom_spec h ha v
    exact ⟨_, by simp [Op.apply, Object.insert, ha], hwf, insertAtom_pool .., insertAtom_poolPtr ..,
      funext hget⟩
  | remove k =>
    obtain ⟨hwf, hget⟩ := remove_spec h k
    exact ⟨_, rfl, hwf, remove_pool .., remove_poolPtr .., funext hget⟩
  | merge other =>
    obtain ⟨h', hsame, hk⟩ := hv
    obtain ⟨o', hm, hwf, hp, hpp, hget⟩ := mergeByKey_spec h h' hk
    refine ⟨o', ?_, hwf, hp, hpp, funext hget⟩
    simp only [Op.apply, Object.merge]
    split
    · -- the same `Arc`: the same-pool path gives what the path through the strings gives
      rename_i hs
      have hptr : other.poolPtr = o.poolPtr := (beq_iff_eq.mp hs).symm
      rw [← Option.some.inj ((mergeByKey_eq_mergeByAtom h' (hsame hptr)).symm.trans hm)]
    · exact hm
  | retain f =>
    obtain ⟨o', hr, hwf, hp, hpp, hget⟩ := retain_spec h f
    exact ⟨o', hr, hwf, hp, hpp, funext hget⟩

/-- **A run on a well-formed object is a run on its map.** -/
theorem run_spec {ops : List (Op V)} {o : Object V} (h : o.Wf)
    (hv : ∀ op ∈ ops, op.Valid o.pool o.poolPtr) :
    ∃ o', run ops o = some o' ∧ o'.Wf ∧ o'.pool = o.pool ∧ o'.poolPtr = o.poolPtr ∧
      o'.get = runRef ops o.get := by
  induction ops generalizing o with
  | nil => exact ⟨o, rfl, h, rfl, rfl, rfl⟩
  | cons op ops ih =>
    obtain ⟨o₁, h₁, hwf₁, hp₁, hpp₁, hget₁⟩ := Op.apply_spec h (hv op List.mem_cons_self)
    have hv₁ : ∀ op' ∈ ops, op'.Valid o₁.pool o₁.poolPtr := fun op' hop => by
      rw [hp₁, hpp₁]
      exact hv op' (List.mem_cons_of_mem _ hop)
    obtain ⟨o', h', hwf', hp', hpp', hget'⟩ := ih hwf₁ hv₁
    refine ⟨o', ?_, hwf', hp'.trans hp₁, hpp'.trans hpp₁, ?_⟩
    · rw [run, List.foldlM_cons, h₁]
      exact h'
    · rw [hget', hget₁]
      rfl

end Run

theorem get_new (pool : AtomPool) (poolPtr : Nat) :
    (new pool poolPtr : Object V).get = fun _ => none := by
  funext k
  unfold get
  split <;> rfl

/-- **The iterators list every word that has a value once, with its value, and `len` counts
those words.** -/
theorem iter_spec {o : Object V} (h : o.Wf) :
    o.iter = some o.view ∧ o.intoIter = some o.view ∧ (o.view.map Prod.fst).Nodup ∧
      (∀ k v, (k, v) ∈ o.view ↔ o.get k = some v) ∧ o.len = {k | (o.get k).isSome}.ncard := by
  have hset : {k | (o.get k).isSome} = ↑(o.view.map Prod.fst).toFinset := by
    ext k
    simp only [Set.mem_ofPred_eq, Finset.mem_coe, List.mem_toFinset, List.mem_map, Prod.exists,
      exists_and_right, exists_eq_right, Option.isSome_iff_exists]
    exact exists_congr fun v => (mem_view h).symm
  refine ⟨iter_eq_view h, iter_eq_view h, nodup_view h, fun k v => mem_view h, ?_⟩
  rw [hset, Set.ncard_coe_finset, List.toFinset_card_of_nodup (nodup_view h), List.length_map,
    length_view h]

/-- **An object over a well-formed pool of at most `AtomInt::MAX` atoms refines a finite map.**
Along every run of the operations a program runs on a new object, `get` is the reference map,
the iterators list each word of the map once with its value, and `len` is the number of words
the map has. For any two well-formed objects over one pool, the same-pool paths of
`PartialEq`, `eq_ignore_key` and `merge` give what the paths through the strings give. -/
theorem object_refines_map [DecidableEq V] [Inhabited V] {pool : AtomPool} (hwf : pool.Wf)
    (hs : pool.all.length ≤ ATOM_INT_MAX) (poolPtr : Nat) {ops : List (Op V)}
    (hv : ∀ op ∈ ops, op.Valid pool poolPtr) :
    (∃ o, run ops (new pool poolPtr) = some o ∧
      (∀ k, o.get k = runRef ops (fun _ => none) k) ∧
      (∃ l, o.iter = some l ∧ o.intoIter = some l ∧ (l.map Prod.fst).Nodup ∧
        ∀ k v, (k, v) ∈ l ↔ runRef ops (fun _ => none) k = some v) ∧
      o.len = {k | (runRef ops (fun _ => none) k).isSome}.ncard) ∧
    ∀ o other : Object V, o.Wf → other.Wf → other.pool = o.pool →
      some (o.allByAtom other fun _ => true) = o.allByKey other (fun _ => true) ∧
      (∀ ignoreKey, some (o.allByAtom other fun a => o.pool.lookup ignoreKey != some a) =
        o.allByKey other fun k => k != ignoreKey) ∧
      o.mergeByKey other = some (o.mergeByAtom other) := by
  refine ⟨?_, fun o other h h' hp => ⟨allByAtom_eq_allByKey h hp fun _ _ _ => rfl,
    fun ignoreKey => allByAtom_eq_allByKey h hp fun a k hk => ?_,
    mergeByKey_eq_mergeByAtom h' hp⟩⟩
  · obtain ⟨o, hrun, hwf', -, -, hget⟩ := run_spec (wf_new (V := V) hwf hs poolPtr) hv
    rw [get_new] at hget
    obtain ⟨hiter, hinto, hnodup, hmem, hlen⟩ := iter_spec hwf'
    refine ⟨o, hrun, fun k => by rw [hget], ⟨o.view, hiter, hinto, hnodup, ?_⟩, ?_⟩
    · intro k v
      rw [hmem, hget]
    · rw [hlen, hget]
  · -- the ignored word is looked up at an atom exactly when the atom's word is that word
    have hiff : o.pool.lookup ignoreKey = some a ↔ k = ignoreKey := by
      constructor
      · intro hl
        have := AtomPool.get_of_lookup h.pool hl
        rw [hk] at this
        exact Option.some.inj this
      · rintro rfl
        exact AtomPool.lookup_of_get h.pool hk
    rw [Bool.eq_iff_iff, bne_iff_ne, bne_iff_ne, ne_eq, ne_eq, hiff]

/-- The reference map of the run that inserts `"a"` and removes it. -/
theorem object_refines_map_rootA :
    AtomPool.rootA.Wf ∧ AtomPool.rootA.all.length ≤ ATOM_INT_MAX ∧
      (∀ op ∈ [Op.insert "a" (1 : Nat), .remove "a"], op.Valid AtomPool.rootA 0) ∧
      ∃ o, run [Op.insert "a" (1 : Nat), .remove "a"] (new AtomPool.rootA 0) = some o ∧
        ∀ k, o.get k = runRef [Op.insert "a" (1 : Nat), .remove "a"] (fun _ => none) k := by
  have hs : AtomPool.rootA.all.length ≤ ATOM_INT_MAX := by
    simp [AtomPool.all, AtomPool.rootA, ATOM_INT_MAX]
  have hv : ∀ op ∈ [Op.insert "a" (1 : Nat), .remove "a"], op.Valid AtomPool.rootA 0 := by
    simp [Op.Valid, AtomPool.lookup, AtomPool.rootA]
  obtain ⟨o, hrun, hget, -⟩ := (object_refines_map AtomPool.wf_rootA hs 0 hv).1
  exact ⟨AtomPool.wf_rootA, hs, hv, o, hrun, hget⟩

/-- **Over a child of a child, an object is no map.** In `grandchildAB`, which the code builds,
`"a"` and `"b"` share atom `0`: inserting `"b"` overwrites the value of `"a"`, and the object has
one entry for the two words of the reference map. -/
theorem object_grandchild_merges_keys :
    AtomPool.Built (fun _ => True) AtomPool.grandchildAB ∧
    (∀ op ∈ [Op.insert "a" (1 : Nat), .insert "b" 2], op.Valid AtomPool.grandchildAB 0) ∧
    ∃ o, run [Op.insert "a" (1 : Nat), .insert "b" 2] (new AtomPool.grandchildAB 0) = some o ∧
      o.get "a" = some 2 ∧
      runRef [Op.insert "a" (1 : Nat), .insert "b" 2] (fun _ => none) "a" = some 1 ∧
      o.len = 1 := by
  obtain ⟨ha, hb⟩ := AtomPool.grandchildAB_lookup
  refine ⟨.intern AtomPool.built_grandchildA AtomPool.grandchildA_intern_b,
    by simp [Op.Valid, ha, hb],
    ⟨AtomPool.grandchildAB, 0, [⟨⟨0⟩, 2⟩]⟩, ?_, ?_, ?_, ?_⟩
  · simp [run, Op.apply, Object.insert, ha, hb, insertAtom, replaceFirst, new, TOMBSTONE_KEY,
      ATOM_INT_MAX]
  · simp [get, findValue, ha]
  · simp [runRef, Op.applyRef]
  · simp [len, TOMBSTONE_KEY, ATOM_INT_MAX]

end Object

end GraphNode
