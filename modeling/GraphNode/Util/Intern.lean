import Mathlib

/-!
# Interned strings

An `AtomPool` numbers the strings interned in it: an `Atom` is a `u16`. A pool may extend a
base pool, and the chain of a pool and its ancestors is meant to act as one pool, whose atoms
are those of the base followed by the pool's own: `child` starts the atoms of a child at
`base_sym`, and `get` hands an atom below `base_sym` to the base.

The chain of a pool is read here as the list of its words, in the order of their atoms
(`AtomPool.all`). Where the pool is well formed (`AtomPool.Wf`: every pool of the chain starts
its atoms where its base's chain ends, and its word map answers its own atoms), `get` reads
that list (`get_eq_getElem?_all`) and `lookup` finds a word's place in it
(`lookup_eq_some_iff`), so the chain is one injective pool. `new` and `intern` keep the
invariant, and so does `child` of a pool whose base chain holds no atom.

**`child` of a child breaks the chain** (`atomPool_chain_breaks`). `child` computes
`base_sym` from the pool's own atoms only, not from those of the pool's base. A child of a
child of a pool with an atom starts at `0`: it looks the word of atom `0` up in its ancestors,
yet answers `None` for atom `0`, and it interns a new word at atom `0` as well.

A panic of the code (`unwrap` and `expect` of an atom beyond `u16`, or an atom equal to the
tombstone) is `none`. The word map of a pool is a function; the `Arc` of the base is its value.
-/

namespace GraphNode

/-! ### Atoms and pools -/

/-- `Atom`: an `AtomInt`, a `u16`. -/
structure Atom where
  val : Nat
  deriving DecidableEq, Repr

/-- `AtomInt::MAX`. -/
def ATOM_INT_MAX : Nat := 65535

/-- `TOMBSTONE_KEY`: the marker of an empty entry of an `Object`. -/
def TOMBSTONE_KEY : Atom := ⟨ATOM_INT_MAX⟩

/-- `AtomPool`: the base pool it extends, the atom its own atoms start at, its own words in the
order of their atoms, and the map from its own words to their atoms. -/
structure AtomPool where
  base : Option AtomPool
  baseSym : Nat
  atoms : List String
  words : String → Option Atom

namespace AtomPool

/-- `AtomPool::new`. -/
def new : AtomPool := ⟨none, 0, [], fun _ => none⟩

/-- `AtomPool::child`: `base_sym` is the number of the pool's own atoms. -/
def child (self : AtomPool) : Option AtomPool :=
  -- `AtomInt::try_from(self.atoms.len()).unwrap()`
  if self.atoms.length ≤ ATOM_INT_MAX then some ⟨some self, self.atoms.length, [], fun _ => none⟩
  else none

/-- `AtomPool::get`. -/
def get : AtomPool → Atom → Option String
  | ⟨base, baseSym, atoms, _⟩, atom =>
    if atom.val < baseSym then
      match base with
      | some base => base.get atom
      | none => none
    else atoms[atom.val - baseSym]?

/-- `AtomPool::lookup`: the base chain first, then the pool's own words. -/
def lookup : AtomPool → String → Option Atom
  | ⟨base, _, _, words⟩, word =>
    match base with
    | some base =>
      match base.lookup word with
      | some atom => some atom
      | none => words word
    | none => words word

/-- `AtomPool::intern`: the atom of the word if the chain has it, or the next atom of the
pool. -/
def intern (self : AtomPool) (word : String) : Option (AtomPool × Atom) :=
  match self.lookup word with
  | some atom => some (self, atom)
  | none =>
    let atom := self.baseSym + self.atoms.length
    -- `AtomInt::try_from(..).expect("too many atoms")`, and the tombstone is no atom
    if ATOM_INT_MAX < atom then none
    else if (⟨atom⟩ : Atom) = TOMBSTONE_KEY then none
    else
      some ({ self with
          atoms := self.atoms ++ [word]
          words := fun w => if w = word then some ⟨atom⟩ else self.words w }, ⟨atom⟩)

/-! ### The chain as one pool -/

/-- The words of the chain of a pool, in the order of their atoms: those of the base chain,
then the pool's own. -/
def all : AtomPool → List String
  | ⟨base, _, atoms, _⟩ =>
    match base with
    | some base => base.all ++ atoms
    | none => atoms

/-- The word map of a pool answers exactly its own words, at `baseSym` plus their place. -/
def OwnWords (baseSym : Nat) (atoms : List String) (words : String → Option Atom) : Prop :=
  ∀ w a, words w = some a ↔ ∃ i, atoms[i]? = some w ∧ a.val = baseSym + i

/-- **A pool whose chain acts as one pool**: a root starts its atoms at `0`; a pool with a
base is over a well-formed base, starts its atoms where the base's chain ends and holds no word
of the base's chain; and the word map answers the pool's own words. -/
def Wf : AtomPool → Prop
  | ⟨none, baseSym, atoms, words⟩ => baseSym = 0 ∧ OwnWords baseSym atoms words
  | ⟨some base, baseSym, atoms, words⟩ =>
    base.Wf ∧ baseSym = base.all.length ∧ (∀ w ∈ atoms, base.lookup w = none) ∧
      OwnWords baseSym atoms words

theorem ownWords_iff {baseSym : Nat} {atoms : List String} {words : String → Option Atom}
    (h : OwnWords baseSym atoms words) {w : String} {a : Atom} (ha : baseSym ≤ a.val) :
    words w = some a ↔ atoms[a.val - baseSym]? = some w := by
  rw [h w a]
  constructor
  · rintro ⟨i, hi, hia⟩
    rw [hia, Nat.add_sub_cancel_left]
    exact hi
  · intro hw
    exact ⟨a.val - baseSym, hw, by omega⟩

theorem ownWords_lt {baseSym : Nat} {atoms : List String} {words : String → Option Atom}
    (h : OwnWords baseSym atoms words) {w : String} {a : Atom} (hw : words w = some a) :
    baseSym ≤ a.val := by
  obtain ⟨i, -, hi⟩ := (h w a).mp hw
  omega

theorem all_length {p : AtomPool} (h : p.Wf) : p.all.length = p.baseSym + p.atoms.length := by
  obtain ⟨base, baseSym, atoms, words⟩ := p
  cases base with
  | none =>
    obtain ⟨rfl, -⟩ := h
    simp [all]
  | some base =>
    obtain ⟨-, rfl, -, -⟩ := h
    simp [all]

/-- **`get` reads the words of the chain.** -/
theorem get_eq_getElem?_all : ∀ {p : AtomPool}, p.Wf → ∀ a, p.get a = p.all[a.val]?
  | ⟨none, baseSym, atoms, words⟩, h, a => by
    obtain ⟨rfl, -⟩ := h
    simp [get, all]
  | ⟨some base, baseSym, atoms, words⟩, h, a => by
    obtain ⟨hbase, rfl, -, -⟩ := h
    simp only [get, all]
    split
    · -- an atom of the base chain
      rename_i hlt
      rw [get_eq_getElem?_all hbase a, List.getElem?_append_left hlt]
    · rw [List.getElem?_append_right (by omega)]

/-- **`lookup` finds the place of a word in the chain.** -/
theorem lookup_eq_some_iff : ∀ {p : AtomPool}, p.Wf → ∀ w a,
    p.lookup w = some a ↔ p.all[a.val]? = some w
  | ⟨none, baseSym, atoms, words⟩, h, w, a => by
    obtain ⟨rfl, hown⟩ := h
    simp only [lookup, all]
    simpa using ownWords_iff hown (a := a) (w := w) (Nat.zero_le _)
  | ⟨some base, baseSym, atoms, words⟩, h, w, a => by
    obtain ⟨hbase, rfl, hfresh, hown⟩ := h
    have ih := lookup_eq_some_iff hbase
    simp only [lookup, all]
    constructor
    · intro hl
      split at hl
      · -- the base chain has the word
        rename_i atom hb
        obtain rfl := Option.some.inj hl
        have hget := (ih w atom).mp hb
        have hlt : atom.val < base.all.length := (List.getElem?_eq_some_iff.mp hget).1
        rwa [List.getElem?_append_left hlt]
      · -- the pool's own word
        have hle := ownWords_lt hown hl
        rw [List.getElem?_append_right hle]
        exact (ownWords_iff hown hle).mp hl
    · intro hget
      by_cases hlt : a.val < base.all.length
      · rw [List.getElem?_append_left hlt] at hget
        rw [(ih w a).mpr hget]
      · rw [List.getElem?_append_right (by omega)] at hget
        have hmem : w ∈ atoms := List.mem_of_getElem? hget
        rw [hfresh w hmem]
        exact (ownWords_iff hown (by omega)).mpr hget

/-- Within a well-formed chain, the atom a word is looked up at denotes it. -/
theorem get_of_lookup {p : AtomPool} (h : p.Wf) {w : String} {a : Atom}
    (hl : p.lookup w = some a) : p.get a = some w := by
  rw [get_eq_getElem?_all h, ← lookup_eq_some_iff h]
  exact hl

/-- Within a well-formed chain, the word an atom denotes is looked up at it. -/
theorem lookup_of_get {p : AtomPool} (h : p.Wf) {a : Atom} {w : String}
    (hg : p.get a = some w) : p.lookup w = some a := by
  rw [lookup_eq_some_iff h, ← get_eq_getElem?_all h]
  exact hg

/-- A word the chain does not have is in none of its pools. -/
theorem not_mem_all_of_lookup_eq_none {p : AtomPool} (h : p.Wf) {w : String}
    (hl : p.lookup w = none) : w ∉ p.all := by
  intro hw
  obtain ⟨i, hi, hiw⟩ := List.getElem_of_mem hw
  have := (lookup_eq_some_iff h w ⟨i⟩).mpr (by simp [hi, hiw])
  simp [hl] at this

/-- Within a well-formed chain, two words looked up at one atom are the same word. -/
theorem lookup_inj {p : AtomPool} (h : p.Wf) {w w' : String} {a : Atom}
    (hw : p.lookup w = some a) (hw' : p.lookup w' = some a) : w = w' := by
  have hget := get_of_lookup h hw
  rw [get_of_lookup h hw'] at hget
  exact (Option.some.inj hget).symm

/-- The atom a word is looked up at lies within the chain. -/
theorem lt_of_lookup {p : AtomPool} (h : p.Wf) {w : String} {a : Atom}
    (hl : p.lookup w = some a) : a.val < p.all.length :=
  (List.getElem?_eq_some_iff.mp ((lookup_eq_some_iff h w a).mp hl)).1

/-- An atom within the chain has a word, and it is looked up there. -/
theorem exists_get_of_lt {p : AtomPool} (h : p.Wf) {a : Atom} (ha : a.val < p.all.length) :
    ∃ w, p.get a = some w ∧ p.lookup w = some a := by
  refine ⟨p.all[a.val], ?_, ?_⟩
  · rw [get_eq_getElem?_all h, List.getElem?_eq_getElem ha]
  · exact lookup_of_get h (by rw [get_eq_getElem?_all h, List.getElem?_eq_getElem ha])

/-- An atom within a chain of at most `AtomInt::MAX` atoms is not the tombstone. -/
theorem ne_tombstone_of_lt {p : AtomPool} (hs : p.all.length ≤ ATOM_INT_MAX) {a : Atom}
    (ha : a.val < p.all.length) : a ≠ TOMBSTONE_KEY := by
  rintro rfl
  simp only [TOMBSTONE_KEY] at ha
  omega

/-! ### The operations keep the chain one pool -/

theorem wf_new : new.Wf := ⟨rfl, fun w a => by simp⟩

/-- A new word of the pool's own: the word map of `intern` answers the pool's words and it. -/
theorem ownWords_append {baseSym : Nat} {atoms : List String} {words : String → Option Atom}
    (h : OwnWords baseSym atoms words) {word : String} (hnew : word ∉ atoms) :
    OwnWords baseSym (atoms ++ [word])
      (fun w => if w = word then some ⟨baseSym + atoms.length⟩ else words w) := by
  rintro w ⟨a⟩
  dsimp only
  by_cases hw : w = word
  · subst hw
    rw [if_pos rfl]
    constructor
    · intro ha
      obtain rfl := Atom.mk.inj (Option.some.inj ha)
      exact ⟨atoms.length, by simp, rfl⟩
    · rintro ⟨i, hi, rfl⟩
      -- the word is not among the pool's own, so it is the last
      by_cases hlt : i < atoms.length
      · rw [List.getElem?_append_left hlt] at hi
        exact absurd (List.mem_of_getElem? hi) hnew
      · rw [List.getElem?_append_right (by omega)] at hi
        have : i - atoms.length = 0 := by
          by_contra hne
          simp [hne] at hi
        congr 2
        omega
  · rw [if_neg hw, h w ⟨a⟩]
    constructor
    · rintro ⟨i, hi, rfl⟩
      exact ⟨i, by rw [List.getElem?_append_left (List.getElem?_eq_some_iff.mp hi).1]; exact hi,
        rfl⟩
    · rintro ⟨i, hi, rfl⟩
      refine ⟨i, ?_, rfl⟩
      by_cases hlt : i < atoms.length
      · rwa [List.getElem?_append_left hlt] at hi
      · rw [List.getElem?_append_right (by omega)] at hi
        have : i - atoms.length = 0 := by
          by_contra hne
          simp [hne] at hi
        simp [this, Ne.symm hw] at hi

/-- **What `intern` does to a well-formed pool**: a word the chain has keeps its atom; a new
one is added at the end of the chain, at the next atom. The pool stays well formed. -/
theorem intern_spec {p p' : AtomPool} (h : p.Wf) {word : String} {atom : Atom}
    (hi : p.intern word = some (p', atom)) :
    p'.Wf ∧ (p.lookup word = some atom ∧ p' = p ∨
      p.lookup word = none ∧ atom.val = p.all.length ∧ p'.all = p.all ++ [word]) := by
  unfold intern at hi
  split at hi
  · rename_i a hl
    obtain ⟨rfl, rfl⟩ := Prod.mk.inj (Option.some.inj hi)
    exact ⟨h, .inl ⟨hl, rfl⟩⟩
  · rename_i hl
    dsimp only at hi
    split at hi
    · simp at hi
    split at hi
    · simp at hi
    obtain ⟨rfl, rfl⟩ := Prod.mk.inj (Option.some.inj hi)
    have hnot := not_mem_all_of_lookup_eq_none h hl
    obtain ⟨base, baseSym, atoms, words⟩ := p
    cases base with
    | none =>
      obtain ⟨rfl, hown⟩ := h
      refine ⟨⟨rfl, ?_⟩, .inr ⟨hl, by simp [all], by simp [all]⟩⟩
      exact ownWords_append hown (by simpa [all] using hnot)
    | some base =>
      obtain ⟨hbase, rfl, hfresh, hown⟩ := h
      -- the word is neither in the base chain nor among the pool's own
      have hbl : base.lookup word = none := by
        simp only [lookup] at hl
        split at hl
        · simp at hl
        · assumption
      simp only [all, List.mem_append, not_or] at hnot
      refine ⟨⟨hbase, rfl, fun w hw => ?_, ownWords_append hown hnot.2⟩,
        .inr ⟨hl, by simp [all], by simp [all]⟩⟩
      rcases List.mem_append.mp hw with hw | hw
      · exact hfresh w hw
      · rw [List.mem_singleton.mp hw]
        exact hbl

/-- **`child` of a pool whose base chain has no atom is well formed**: its atoms start where
the pool's chain ends. -/
theorem wf_child {p c : AtomPool} (h : p.Wf) (hroot : p.baseSym = 0) (hc : p.child = some c) :
    c.Wf := by
  unfold child at hc
  split at hc
  · obtain rfl := Option.some.inj hc
    refine ⟨h, ?_, fun w hw => by simp at hw, fun w a => by simp⟩
    rw [all_length h, hroot, Nat.zero_add]
  · simp at hc

/-- The pools a program builds with `new`, `intern` and `child`, `child` being called on the
pools `branch` allows. -/
inductive Built (branch : AtomPool → Prop) : AtomPool → Prop
  | new : Built branch AtomPool.new
  | intern {p p' : AtomPool} {word : String} {atom : Atom} (hp : Built branch p)
      (h : p.intern word = some (p', atom)) : Built branch p'
  | child {p c : AtomPool} (hp : Built branch p) (hb : branch p) (h : p.child = some c) :
      Built branch c

/-- Every pool built with `child` called on pools whose base chain has no atom is well
formed. -/
theorem wf_of_built {p : AtomPool} (h : Built (fun p => p.baseSym = 0) p) : p.Wf := by
  induction h with
  | new => exact wf_new
  | intern hp hi ih => exact (intern_spec ih hi).1
  | child hp hb hc ih => exact wf_child ih hb hc

/-- **The chain of a well-formed pool acts as one injective pool.** The atom of a word denotes
it, the word of an atom is looked up at it, and `intern` returns an atom that denotes the word
and denoted no other word before. -/
theorem chain_injective {p : AtomPool} (h : p.Wf) :
    (∀ w a, p.lookup w = some a → p.get a = some w) ∧
    (∀ a w, p.get a = some w → p.lookup w = some a) ∧
    (∀ w p' a, p.intern w = some (p', a) →
      p'.get a = some w ∧ ∀ w', p.get a = some w' → w' = w) := by
  refine ⟨fun w a => get_of_lookup h, fun a w => lookup_of_get h, fun w p' a hi => ?_⟩
  obtain ⟨hwf', hcases⟩ := intern_spec h hi
  rcases hcases with ⟨hl, rfl⟩ | ⟨-, ha, hall⟩
  · have hget := get_of_lookup h hl
    exact ⟨hget, fun w' hw' => Option.some.inj (hw'.symm.trans hget)⟩
  · -- the next atom denotes nothing before the word is added
    rw [get_eq_getElem?_all hwf', get_eq_getElem?_all h, hall, ha]
    refine ⟨by simp, fun w' hw' => ?_⟩
    simp at hw'

/-! ### A child of a child -/

/-- The pool the code builds for the word `"a"`: a root with the atom `0`. -/
def rootA : AtomPool := ⟨none, 0, ["a"], fun w => if w = "a" then some ⟨0⟩ else none⟩

/-- The child of `rootA`, with no atom of its own: `base_sym` is `1`. -/
def childA : AtomPool := ⟨some rootA, 1, [], fun _ => none⟩

/-- The child of `childA`: `base_sym` is the number of `childA`'s own atoms, `0`. -/
def grandchildA : AtomPool := ⟨some childA, 0, [], fun _ => none⟩

/-- `grandchildA` after interning `"b"`. -/
def grandchildAB : AtomPool :=
  ⟨some childA, 0, ["b"], fun w => if w = "b" then some ⟨0⟩ else none⟩

theorem new_intern_a : new.intern "a" = some (rootA, ⟨0⟩) := by
  simp [new, intern, lookup, rootA, ATOM_INT_MAX, TOMBSTONE_KEY]

theorem wf_rootA : rootA.Wf := (intern_spec wf_new new_intern_a).1

theorem rootA_child : rootA.child = some childA := by
  simp [child, rootA, childA, ATOM_INT_MAX]

theorem childA_child : childA.child = some grandchildA := by
  simp [child, childA, grandchildA, ATOM_INT_MAX]

theorem grandchildA_intern_b : grandchildA.intern "b" = some (grandchildAB, ⟨0⟩) := by
  simp [intern, lookup, grandchildA, grandchildAB, childA, rootA, ATOM_INT_MAX, TOMBSTONE_KEY]

/-- `grandchildA` is built by `new`, `intern` and `child`. -/
theorem built_grandchildA : Built (fun _ => True) grandchildA :=
  .child (.child (.intern .new new_intern_a) trivial rootA_child) trivial childA_child

/-- In `grandchildAB`, both words are looked up at atom `0`. -/
theorem grandchildAB_lookup : grandchildAB.lookup "a" = some ⟨0⟩ ∧
    grandchildAB.lookup "b" = some ⟨0⟩ := by
  simp [lookup, grandchildAB, childA, rootA]

/-- **The chain is one injective pool for pools built with `child` of roots only, not for a
child of a child.** The first part holds of every pool built by `new`, `intern` and `child`
called on pools whose own atoms start at `0`. In the second, the grandchild of a root with the
atom `0` for `"a"` looks `"a"` up at atom `0`, has no word for atom `0`, and interns `"b"` at
atom `0` as well. -/
theorem atomPool_chain_breaks :
    (∀ p, Built (fun p => p.baseSym = 0) p →
      (∀ w a, p.lookup w = some a → p.get a = some w) ∧
      (∀ a w, p.get a = some w → p.lookup w = some a) ∧
      (∀ w p' a, p.intern w = some (p', a) →
        p'.get a = some w ∧ ∀ w', p.get a = some w' → w' = w)) ∧
    (new.intern "a" = some (rootA, ⟨0⟩) ∧ rootA.child = some childA ∧
      childA.child = some grandchildA ∧ Built (fun _ => True) grandchildA ∧
      grandchildA.lookup "a" = some ⟨0⟩ ∧ grandchildA.get ⟨0⟩ = none ∧
      grandchildA.intern "b" = some (grandchildAB, ⟨0⟩) ∧
      grandchildAB.lookup "a" = some ⟨0⟩ ∧ grandchildAB.lookup "b" = some ⟨0⟩) := by
  refine ⟨fun p hp => chain_injective (wf_of_built hp), new_intern_a, rootA_child, childA_child,
    built_grandchildA, ?_, ?_, grandchildA_intern_b, grandchildAB_lookup⟩
  · simp [lookup, grandchildA, childA, rootA]
  · simp [get, grandchildA]

end AtomPool

end GraphNode
