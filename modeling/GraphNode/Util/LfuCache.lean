import GraphNode.Lib.PriorityQueue

/-!
# The LFU cache

`LfuCache` keeps its entries in a priority queue with the priority `(stale, Reverse(frequency))`,
so that `pop` takes a stale entry first, then the entry used least often. `total_weight` is kept
by hand: `insert` adds the weight of a new entry or trades the old weight of an entry for the
new one, `remove` raises the entry to the top priority `(true, Reverse(0))` and pops it, and
`evict_with_period` pops entries until the total is within the bound.

The invariant of a cache (`LfuCache.Inv`) is that the keys of the queue are distinct,
`total_weight` is the sum of the weights in the queue, and every frequency is positive, so that
no entry but the one `remove` raised sits at the top priority. `insert`, `get`, `remove` and
`evict_with_period` keep it and never panic (`LfuCache.run_inv`); after an eviction the total is
within the bound, and the entries evicted come before those that stay in the order stale first,
then lowest frequency (`LfuCache.evictWithPeriod_spec`).

**`extend` breaks it** (`lfuCache_extend_breaks_weight`). It pushes the entries of another cache
into the queue and leaves `total_weight` alone, which is what `EntityCache::extend` does to its
cache of current entities. The weight of the entries it adds is then counted nowhere, and
removing one of them subtracts its weight from a total that does not hold it.

The queue is the one of the `priority_queue` crate, whose operations are a parameter
(`PriorityQueue.Ops`) with what the crate documents of them; which of several entries of
greatest priority `pop` takes is left to it. `lfuCache_extend_breaks_weight_listOps` runs the
test on the implementation on lists, whose `pop` takes the first entry of greatest priority.
A subtraction of `usize` that would underflow is a panic, as under overflow checks, and a panic
is `none`. Frequencies are counted in `Nat`. The time `evict_with_period` takes is left out of
its statistics.
-/

namespace GraphNode

/-- `CacheWeight`: an estimate of the memory a value owns beyond its own size. -/
class CacheWeight (α : Type) where
  indirectWeight : α → Nat

/-- `CacheWeight` of `usize`: nothing beyond its size. -/
instance : CacheWeight Nat := ⟨fun _ => 0⟩

/-- `CacheEntry`: its weight, key, value, and whether it goes stale at the end of the period. -/
structure CacheEntry (K V : Type) where
  weight : Nat
  key : K
  value : V
  willStale : Bool

/-- `CacheEntry::weight`. -/
def CacheEntry.weightOf {K V : Type} [CacheWeight K] [CacheWeight V] (key : K) (value : V) :
    Nat :=
  CacheWeight.indirectWeight value + CacheWeight.indirectWeight key

/-- `Priority`: `(stale, Reverse(frequency))`. -/
structure Priority where
  stale : Bool
  freq : Nat
  deriving DecidableEq, Repr

/-- The order of `(bool, Reverse<u64>)`: a stale entry above a fresh one, then the lower
frequency above the higher. -/
instance : LE Priority :=
  ⟨fun p q => (p.stale = false ∧ q.stale = true) ∨ (p.stale = q.stale ∧ q.freq ≤ p.freq)⟩

instance (p q : Priority) : Decidable (p ≤ q) := inferInstanceAs (Decidable (_ ∨ _))

theorem Priority.le_iff {p q : Priority} :
    p ≤ q ↔ (p.stale = false ∧ q.stale = true) ∨ (p.stale = q.stale ∧ q.freq ≤ p.freq) :=
  Iff.rfl

instance : Std.Total (fun p q : Priority => p ≤ q) where
  total p q := by
    rcases p with ⟨_ | _, a⟩ <;> rcases q with ⟨_ | _, b⟩ <;> simp [Priority.le_iff] <;> omega

instance : IsTrans Priority (· ≤ ·) where
  trans p q r := by
    rcases p with ⟨_ | _, a⟩ <;> rcases q with ⟨_ | _, b⟩ <;> rcases r with ⟨_ | _, c⟩ <;>
      simp [Priority.le_iff] <;> omega

/-- `STALE_PERIOD`: the number of `evict` calls without access after which an entry is stale. -/
def STALE_PERIOD : Nat := 100

/-- `EvictStats`, without the time eviction took. -/
structure EvictStats where
  newWeight : Nat
  evictedWeight : Nat
  newCount : Nat
  evictedCount : Nat
  staleUpdate : Bool
  accesses : Nat
  hits : Nat

/-- `LfuCache<K, V>`. -/
structure LfuCache (K V : Type) where
  queue : List (CacheEntry K V × Priority)
  totalWeight : Nat
  staleCounter : Nat
  deadWeight : Bool
  accesses : Nat
  hits : Nat

namespace LfuCache

open PriorityQueue

variable {K V : Type} [DecidableEq K]

/-! ### The operations -/

/-- `LfuCache::new`, `dead_weight` being read from the environment. -/
def new (deadWeight : Bool) : LfuCache K V := ⟨[], 0, 0, deadWeight, 0, 0⟩

section Queue

variable (pq : Ops Priority (@CacheEntry.key K V))

/-- `LfuCache::get_mut`: the frequency of the key goes up by one, and an entry found is no
longer to go stale; the entry, after that. -/
def getMut (self : LfuCache K V) (key : K) : Option (CacheEntry K V) × LfuCache K V :=
  -- `change_priority_by` bumps the frequency
  let queue := pq.modify self.queue key fun x => (x.1, { x.2 with freq := x.2.freq + 1 })
  let self := { self with queue, accesses := self.accesses + 1 }
  match pq.get self.queue key with
  | none => (none, self)
  | some x =>
    (some { x.1 with willStale := false },
      { self with
        hits := self.hits + 1
        queue := pq.modify self.queue key fun y => ({ y.1 with willStale := false }, y.2) })

/-- `LfuCache::insert`: a new key is pushed with frequency `1`; an entry found takes the weight
and the value. `self.total_weight -= old_weight` panics where it would underflow. -/
def insert [CacheWeight K] [CacheWeight V] (self : LfuCache K V) (key : K) (value : V) :
    Option (LfuCache K V) :=
  let weight := CacheEntry.weightOf key value
  match self.getMut pq key with
  | (none, self) =>
    some { self with
      totalWeight := self.totalWeight + weight
      queue := pq.push self.queue ⟨weight, key, value, false⟩ ⟨false, 1⟩ }
  | (some entry, self) =>
    if entry.weight ≤ self.totalWeight then
      some { self with
        totalWeight := self.totalWeight - entry.weight + weight
        queue := pq.modify self.queue key fun x => ({ x.1 with weight, value }, x.2) }
    else none

/-- `LfuCache::get`. -/
def get (self : LfuCache K V) (key : K) : Option V × LfuCache K V :=
  let r := self.getMut pq key
  (r.1.map (·.value), r.2)

/-- `LfuCache::remove`: the entry's priority becomes the absolute top, and `pop` takes it; the
entry popped must have the key (`assert_eq!`), and `self.total_weight -= e.weight` panics where
it would underflow. -/
def remove (self : LfuCache K V) (key : K) : Option (Option V × LfuCache K V) :=
  match pq.get self.queue key with
  | none => some (none, self)
  | some _ =>
    let queue := pq.modify self.queue key fun x => (x.1, ⟨true, 0⟩)
    match pq.pop queue with
    | none => some (none, { self with queue })
    | some ((e, _), rest) =>
      if e.key = key ∧ e.weight ≤ self.totalWeight then
        some (some e.value, { self with queue := rest, totalWeight := self.totalWeight - e.weight })
      else none

/-- The loop of `evict_with_period`: while the total and the dead weight exceed the bound, pop
an entry and take its weight off. `expect` of `pop` of an empty queue panics, and so does a
subtraction that would underflow. The answer is the queue, the total and the weight evicted. -/
def evictLoop (maxWeight deadWeight : Nat) (queue : List (CacheEntry K V × Priority))
    (total evicted : Nat) : Option (List (CacheEntry K V × Priority) × Nat × Nat) :=
  if maxWeight < total + deadWeight then
    match _hpop : pq.pop queue with
    | none => none
    | some (x, rest) =>
      if x.1.weight ≤ total then
        evictLoop maxWeight deadWeight rest (total - x.1.weight) (evicted + x.1.weight)
      else none
  else some (queue, total, evicted)
termination_by queue.length
decreasing_by exact pq.length_lt_of_pop _hpop

end Queue

/-- The start of `evict_with_period` once it has something to evict: the stale counter moves,
and at the end of a period every entry's priority takes `will_stale` as its staleness and every
entry is set to go stale at the end of the next (`iter_mut`). -/
def tick (self : LfuCache K V) (stalePeriod : Nat) : LfuCache K V :=
  let self := { self with staleCounter := self.staleCounter + 1 }
  if self.staleCounter = stalePeriod then
    { self with
      staleCounter := 0
      accesses := 0
      hits := 0
      queue := self.queue.map fun x =>
        ({ x.1 with willStale := true }, { x.2 with stale := x.1.willStale }) }
  else self

section Queue

variable (pq : Ops Priority (@CacheEntry.key K V))

/-- `LfuCache::evict_with_period`; `entrySize` is `size_of::<CacheEntry<K, V>>()`. -/
def evictWithPeriod (entrySize : Nat) (self : LfuCache K V) (maxWeight stalePeriod : Nat) :
    Option (Option EvictStats × LfuCache K V) :=
  if self.totalWeight ≤ maxWeight then some (none, self)
  else
    let accesses := self.accesses
    let hits := self.hits
    let self := self.tick stalePeriod
    let oldLen := self.queue.length
    let deadWeight := if self.deadWeight then self.queue.length * (entrySize + 40) else 0
    match evictLoop pq maxWeight deadWeight self.queue self.totalWeight 0 with
    | none => none
    | some (queue, total, evicted) =>
      some (some ⟨total, evicted, queue.length, oldLen - queue.length, self.staleCounter == 0,
          accesses, hits⟩,
        { self with queue, totalWeight := total })

/-- `LfuCache::evict`. -/
def evict (entrySize : Nat) (self : LfuCache K V) (maxWeight : Nat) :
    Option (Option EvictStats × LfuCache K V) :=
  evictWithPeriod pq entrySize self maxWeight STALE_PERIOD

/-- `Extend` for `LfuCache`: the pairs go into the queue, and `total_weight` stays. -/
def extend (self : LfuCache K V) (items : List (CacheEntry K V × Priority)) : LfuCache K V :=
  { self with queue := pq.extend self.queue items }

end Queue

/-- `IntoIterator` for `LfuCache`: the entries of the queue with their priorities. -/
def intoIter (self : LfuCache K V) : List (CacheEntry K V × Priority) := self.queue

/-! ### The invariant -/

/-- **The invariant of a cache**: the keys of the queue are distinct, `total_weight` is the sum
of the weights in the queue, and every frequency is positive. -/
structure Inv (c : LfuCache K V) : Prop where
  nodup : KeysNodup CacheEntry.key c.queue
  weight : c.totalWeight = sumBy CacheEntry.weight c.queue
  freq_pos : ∀ x ∈ c.queue, 0 < x.2.freq

section Queue

variable (pq : Ops Priority (@CacheEntry.key K V))

/-- Changing the entry of a key in place, keeping its key and leaving a positive frequency
positive, keeps the keys distinct and the frequencies positive. -/
theorem keys_freq_modify {q : List (CacheEntry K V × Priority)}
    (hn : KeysNodup CacheEntry.key q) (hp : ∀ x ∈ q, 0 < x.2.freq) (key : K)
    {f : CacheEntry K V × Priority → CacheEntry K V × Priority} (hk : ∀ x, (f x).1.key = x.1.key)
    (hf : ∀ x, 0 < x.2.freq → 0 < (f x).2.freq) :
    KeysNodup CacheEntry.key (pq.modify q key f) ∧ ∀ y ∈ pq.modify q key f, 0 < y.2.freq := by
  refine ⟨pq.keysNodup_modify hn hk, fun y hy => ?_⟩
  obtain ⟨x, hx, rfl⟩ := pq.mem_modify hk hy
  split
  · exact hf x (hp x hx)
  · exact hp x hx

/-- **`get_mut`** keeps the invariant and the total, and answers the entry the queue holds for
the key afterwards. -/
theorem getMut_spec {c : LfuCache K V} (h : c.Inv) (key : K) :
    (c.getMut pq key).2.Inv ∧ (c.getMut pq key).2.totalWeight = c.totalWeight ∧
      (c.getMut pq key).2.deadWeight = c.deadWeight ∧
      (c.getMut pq key).1 = (pq.get (c.getMut pq key).2.queue key).map (·.1) := by
  -- the bump of the frequency keeps the keys and the weights, and frequencies stay positive
  obtain ⟨hn₁, hf₁⟩ := keys_freq_modify pq h.nodup h.freq_pos key
    (f := fun x => (x.1, { x.2 with freq := x.2.freq + 1 })) (fun _ => rfl)
    fun _ _ => Nat.succ_pos _
  have hw₁ : sumBy CacheEntry.weight (pq.modify c.queue key fun x =>
      (x.1, { x.2 with freq := x.2.freq + 1 })) = sumBy CacheEntry.weight c.queue :=
    pq.sumBy_modify_of_weight (fun _ => rfl) fun _ => rfl
  dsimp only at hn₁ hf₁ hw₁
  unfold getMut
  dsimp only
  split
  · rename_i hfind
    exact ⟨⟨hn₁, h.weight.trans hw₁.symm, hf₁⟩, rfl, rfl, by rw [hfind]; rfl⟩
  · rename_i x hfind
    -- the write through `get_mut` changes `will_stale` only
    obtain ⟨hn₂, hf₂⟩ := keys_freq_modify pq hn₁ hf₁ key
      (f := fun y => ({ y.1 with willStale := false }, y.2)) (fun _ => rfl) fun _ hy => hy
    have hw₂ : sumBy CacheEntry.weight (pq.modify (pq.modify c.queue key fun x =>
        (x.1, { x.2 with freq := x.2.freq + 1 })) key fun y =>
          ({ y.1 with willStale := false }, y.2)) = sumBy CacheEntry.weight c.queue :=
      (pq.sumBy_modify_of_weight (fun _ => by rfl) fun _ => by rfl).trans hw₁
    have hg := pq.get_modify hn₁ (k := key)
      (f := fun y => ({ y.1 with willStale := false }, y.2)) fun _ => rfl
    rw [hfind] at hg
    exact ⟨⟨hn₂, h.weight.trans hw₂.symm, hf₂⟩, rfl, rfl, (congrArg (Option.map Prod.fst) hg).symm⟩

/-- **`insert`** keeps the invariant and never panics: an entry found weighs no more than the
total, which counts it. -/
theorem insert_spec [CacheWeight K] [CacheWeight V] {c : LfuCache K V} (h : c.Inv) (key : K)
    (value : V) :
    ∃ c', c.insert pq key value = some c' ∧ c'.Inv ∧ c'.deadWeight = c.deadWeight := by
  obtain ⟨h₁, -, hdead, hentry⟩ := getMut_spec pq h key
  unfold insert
  rcases hm : c.getMut pq key with ⟨_ | entry, c₁⟩
  all_goals
    rw [hm] at h₁ hdead hentry
    dsimp only at h₁ hdead hentry ⊢
  · -- a new key: the entry is pushed
    have hnone : pq.get c₁.queue
        (CacheEntry.key (⟨CacheEntry.weightOf key value, key, value, false⟩ : CacheEntry K V)) =
          none := by
      simpa using hentry.symm
    have hfresh := (pq.get_eq_none_iff _ _).mp hnone
    have hperm := pq.push_of_get_none ⟨false, 1⟩ hnone
    refine ⟨_, rfl, ⟨?_, ?_, fun y hy => ?_⟩, hdead⟩
    · exact KeysNodup.of_perm (keysNodup_cons.mpr ⟨fun y hy => hfresh y hy, h₁.nodup⟩) hperm
    · rw [sumBy_of_perm_cons _ hperm, ← h₁.weight]
      exact Nat.add_comm _ _
    · rcases List.mem_cons.mp (hperm.mem_iff.mp hy) with rfl | hy
      · exact Nat.one_pos
      · exact h₁.freq_pos y hy
  · -- an entry found: its weight is traded for the new one
    obtain ⟨x, hx, rfl⟩ := Option.map_eq_some_iff.mp hentry.symm
    have hle : x.1.weight ≤ c₁.totalWeight :=
      h₁.weight ▸ le_sumBy (pq.mem_of_get_eq_some hx).1
    rw [if_pos hle]
    obtain ⟨hn₂, hf₂⟩ := keys_freq_modify pq h₁.nodup h₁.freq_pos key
      (f := fun x => ({ x.1 with weight := CacheEntry.weightOf key value, value }, x.2))
      (fun _ => rfl) fun _ hy => hy
    refine ⟨_, rfl, ⟨hn₂, ?_, hf₂⟩, hdead⟩
    have hsum := pq.sumBy_modify_add (w := CacheEntry.weight) h₁.nodup hx
      (f := fun x => ({ x.1 with weight := CacheEntry.weightOf key value, value }, x.2))
      fun _ => rfl
    have hw := h₁.weight
    dsimp only at hsum ⊢
    omega

/-- **`get`** keeps the invariant. -/
theorem get_spec {c : LfuCache K V} (h : c.Inv) (key : K) :
    (c.get pq key).2.Inv ∧ (c.get pq key).2.deadWeight = c.deadWeight :=
  ⟨(getMut_spec pq h key).1, (getMut_spec pq h key).2.2.1⟩

/-- **`remove`** keeps the invariant and never panics. The entry of the key is raised to the
top priority, where no other entry is, since every other frequency is positive; so `pop` takes
that entry, and the total counts its weight. -/
theorem remove_spec {c : LfuCache K V} (h : c.Inv) (key : K) :
    ∃ r c', c.remove pq key = some (r, c') ∧ c'.Inv ∧ c'.deadWeight = c.deadWeight := by
  unfold remove
  split
  · exact ⟨none, c, rfl, h, rfl⟩
  · rename_i x₀ hfind
    dsimp only
    obtain ⟨hx₀, hk₀⟩ := pq.mem_of_get_eq_some hfind
    have hn₁ : KeysNodup CacheEntry.key
        (pq.modify c.queue key fun x => (x.1, (⟨true, 0⟩ : Priority))) :=
      pq.keysNodup_modify h.nodup fun _ => rfl
    have hw₁ : sumBy CacheEntry.weight
        (pq.modify c.queue key fun x => (x.1, (⟨true, 0⟩ : Priority))) =
          sumBy CacheEntry.weight c.queue :=
      pq.sumBy_modify_of_weight (fun _ => rfl) fun _ => rfl
    -- the entry of the key, raised, is in the queue
    have hraised : (x₀.1, (⟨true, 0⟩ : Priority)) ∈
        pq.modify c.queue key fun x => (x.1, (⟨true, 0⟩ : Priority)) :=
      (pq.modify_perm c.queue key (fun x => (x.1, (⟨true, 0⟩ : Priority))) fun _ => rfl).mem_iff.mpr
        (List.mem_map.mpr ⟨x₀, hx₀, by rw [if_pos hk₀]⟩)
    split
    · -- the queue holds the entry, so `pop` answers
      rename_i hpop
      rw [pq.pop_eq_none_iff] at hpop
      rw [hpop] at hraised
      exact absurd hraised List.not_mem_nil
    · rename_i e pe rest hpop
      obtain ⟨hmax, hperm⟩ := pq.pop_spec hpop
      have hkey : e.key = key := by
        -- an entry of another key was in the queue, with a positive frequency, below the top
        by_contra hne
        have hpos := h.freq_pos _
          (pq.mem_of_mem_modify (fun _ => by rfl) (hperm.mem_iff.mpr List.mem_cons_self) hne)
        rcases Priority.le_iff.mp (hmax _ hraised) with ⟨h₁, -⟩ | ⟨-, h₂⟩
        · exact absurd h₁ Bool.noConfusion
        · dsimp only at h₂ hpos
          omega
      have hsum := sumBy_of_perm_cons CacheEntry.weight hperm
      have hle : e.weight ≤ c.totalWeight := by
        rw [h.weight, ← hw₁, hsum]
        exact Nat.le_add_right _ _
      rw [if_pos ⟨hkey, hle⟩]
      refine ⟨_, _, rfl, ⟨hn₁.of_perm_cons hperm, ?_, fun y hy => ?_⟩, rfl⟩
      · dsimp only
        have hw := h.weight
        simp only at hsum
        omega
      · -- no other entry has the key, so every other entry keeps its frequency
        have hyk : y.1.key ≠ key := by
          rw [← hkey]
          exact (keysNodup_cons.mp (hn₁.of_perm hperm.symm)).1 y hy
        exact h.freq_pos y (pq.mem_of_mem_modify (fun _ => by rfl)
          (hperm.mem_iff.mpr (List.mem_cons_of_mem _ hy)) hyk)

end Queue

omit [DecidableEq K] in
/-- **The stale period** keeps the invariant and the total: it changes staleness only. -/
theorem tick_spec {c : LfuCache K V} (h : c.Inv) (stalePeriod : Nat) :
    (c.tick stalePeriod).Inv ∧ (c.tick stalePeriod).totalWeight = c.totalWeight ∧
      (c.tick stalePeriod).deadWeight = c.deadWeight := by
  unfold tick
  dsimp only
  split
  · refine ⟨⟨?_, ?_, ?_⟩, rfl, rfl⟩
    · unfold KeysNodup
      rw [List.map_map]
      exact h.nodup
    · dsimp only
      rw [h.weight]
      simp [sumBy, Function.comp_def]
    · intro y hy
      obtain ⟨x, hx, rfl⟩ := List.mem_map.mp hy
      exact h.freq_pos x hx
  · exact ⟨⟨h.nodup, h.weight, h.freq_pos⟩, rfl, rfl⟩

section Queue

variable (pq : Ops Priority (@CacheEntry.key K V))

/-- **The eviction loop**, over a queue whose total it holds and without dead weight, pops
entries until the total is within the bound, and never panics: a total above the bound leaves
an entry to pop, and each entry popped weighs no more than the total. The entries it pops come
first in the order of priorities: none of those that stay outranks one of them. -/
theorem evictLoop_spec (maxWeight : Nat) (queue : List (CacheEntry K V × Priority))
    (total evicted : Nat) (hsum : total = sumBy CacheEntry.weight queue) :
    ∃ queue' total' evicted' popped,
      evictLoop pq maxWeight 0 queue total evicted = some (queue', total', evicted') ∧
      total' ≤ maxWeight ∧ total' = sumBy CacheEntry.weight queue' ∧
      queue.Perm (popped ++ queue') ∧ ∀ x ∈ popped, ∀ y ∈ queue', y.2 ≤ x.2 := by
  -- induction on the calls of the loop, each popping one entry
  induction queue, total, evicted using evictLoop.induct pq maxWeight 0 with
  | case1 queue total evicted hover hpop =>
    -- an empty queue holds no weight, so the total is not above the bound
    rw [pq.pop_eq_none_iff] at hpop
    subst hpop
    simp [sumBy] at hsum
    omega
  | case2 queue total evicted hover x rest hpop hle ih =>
    obtain ⟨hmax, hperm⟩ := pq.pop_spec hpop
    have hrest : total - x.1.weight = sumBy CacheEntry.weight rest := by
      rw [hsum, sumBy_of_perm_cons _ hperm]
      omega
    obtain ⟨queue', total', evicted', popped, hrun, hbound, hsum', hperm', horder⟩ := ih hrest
    refine ⟨queue', total', evicted', x :: popped, ?_, hbound, hsum', ?_, ?_⟩
    · rw [evictLoop, if_pos hover]
      split
      · rename_i hpop'
        rw [hpop] at hpop'
        exact absurd hpop' (Option.some_ne_none _)
      · rename_i x' rest' hpop'
        rw [hpop] at hpop'
        obtain ⟨rfl, rfl⟩ := Prod.mk.inj (Option.some.inj hpop')
        rw [if_pos hle]
        exact hrun
    · exact hperm.trans (hperm'.cons x)
    · intro z hz y hy
      rcases List.mem_cons.mp hz with rfl | hz
      · -- the entry popped first outranks every entry of the queue, those that stay included
        exact hmax y (hperm.mem_iff.mpr (List.mem_cons_of_mem _
          (hperm'.mem_iff.mpr (List.mem_append_right _ hy))))
      · exact horder z hz y hy
  | case3 queue total evicted hover x rest hpop hgt =>
    -- the entry popped is counted in the total
    have hx : x ∈ queue := (pq.pop_spec hpop).2.mem_iff.mpr List.mem_cons_self
    exact absurd (hsum ▸ le_sumBy hx) hgt
  | case4 queue total evicted hle =>
    refine ⟨queue, total, evicted, [], ?_, by omega, hsum, List.Perm.refl _, by simp⟩
    rw [evictLoop, if_neg hle]

/-- **`evict_with_period`**, without dead weight, keeps the invariant and never panics.
Afterwards the total is within the bound; and where it evicted, the entries it evicted, with the
priorities they had once the stale period moved, come first in the order of priorities. -/
theorem evictWithPeriod_spec {c : LfuCache K V} (h : c.Inv) (hd : c.deadWeight = false)
    (entrySize maxWeight stalePeriod : Nat) :
    ∃ r c', c.evictWithPeriod pq entrySize maxWeight stalePeriod = some (r, c') ∧
      c'.Inv ∧ c'.deadWeight = c.deadWeight ∧ c'.totalWeight ≤ maxWeight ∧
      ((r = none ∧ c' = c) ∨ ∃ popped, (c.tick stalePeriod).queue.Perm (popped ++ c'.queue) ∧
        ∀ x ∈ popped, ∀ y ∈ c'.queue, y.2 ≤ x.2) := by
  unfold evictWithPeriod
  split
  · rename_i hle
    exact ⟨none, c, rfl, h, rfl, hle, .inl ⟨rfl, rfl⟩⟩
  · obtain ⟨ht, -, htd⟩ := tick_spec h stalePeriod
    obtain ⟨queue', total', evicted', popped, hrun, hbound, hsum', hperm, horder⟩ :=
      evictLoop_spec pq maxWeight (c.tick stalePeriod).queue (c.tick stalePeriod).totalWeight
        0 ht.weight
    have hdw : (c.tick stalePeriod).deadWeight = false := htd.trans hd
    dsimp only
    rw [hdw, if_neg Bool.false_ne_true, hrun]
    -- the entries that stay are among those of the queue
    have hmem : ∀ y ∈ queue', y ∈ (c.tick stalePeriod).queue := fun y hy =>
      hperm.mem_iff.mpr (List.mem_append_right _ hy)
    refine ⟨_, _, rfl, ⟨?_, hsum', fun y hy => ht.freq_pos y (hmem y hy)⟩, hd.symm, hbound,
      .inr ⟨popped, hperm, horder⟩⟩
    have hn := (hperm.map fun y : CacheEntry K V × Priority => y.1.key).nodup_iff.mp ht.nodup
    rw [List.map_append] at hn
    exact (List.nodup_append.mp hn).2.1

end Queue

/-! ### Runs of calls -/

/-- The calls a program makes on a cache. -/
inductive Op (K V : Type)
  | insert (key : K) (value : V)
  | get (key : K)
  | remove (key : K)
  | evictWithPeriod (maxWeight stalePeriod : Nat)
  | extend (items : List (CacheEntry K V × Priority))

/-- Whether a call is `extend`. -/
def Op.isExtend : Op K V → Bool
  | .extend _ => true
  | _ => false

section Run

variable [CacheWeight K] [CacheWeight V] (pq : Ops Priority (@CacheEntry.key K V))
  (entrySize : Nat)

/-- One call on a cache; a panic is `none`. -/
def Op.apply : Op K V → LfuCache K V → Option (LfuCache K V)
  | .insert key value, c => c.insert pq key value
  | .get key, c => some (c.get pq key).2
  | .remove key, c => (c.remove pq key).map (·.2)
  | .evictWithPeriod maxWeight stalePeriod, c =>
    (c.evictWithPeriod pq entrySize maxWeight stalePeriod).map (·.2)
  | .extend items, c => some (c.extend pq items)

/-- A run of calls on a cache. -/
def run (ops : List (Op K V)) (c : LfuCache K V) : Option (LfuCache K V) :=
  ops.foldlM (fun c op => op.apply pq entrySize c) c

/-- Every call but `extend` keeps the invariant and never panics. -/
theorem Op.apply_inv {op : Op K V} {c : LfuCache K V} (h : c.Inv) (hd : c.deadWeight = false)
    (hop : op.isExtend = false) :
    ∃ c', op.apply pq entrySize c = some c' ∧ c'.Inv ∧ c'.deadWeight = false := by
  cases op with
  | insert key value =>
    obtain ⟨c', hc', hinv, hdead⟩ := insert_spec pq h key value
    exact ⟨c', hc', hinv, hdead.trans hd⟩
  | get key =>
    obtain ⟨hinv, hdead⟩ := get_spec pq h key
    exact ⟨_, rfl, hinv, hdead.trans hd⟩
  | remove key =>
    obtain ⟨r, c', hc', hinv, hdead⟩ := remove_spec pq h key
    exact ⟨c', by simp [Op.apply, hc'], hinv, hdead.trans hd⟩
  | evictWithPeriod maxWeight stalePeriod =>
    obtain ⟨r, c', hc', hinv, hdead, -⟩ :=
      evictWithPeriod_spec pq h hd entrySize maxWeight stalePeriod
    exact ⟨c', by simp [Op.apply, hc'], hinv, hdead.trans hd⟩
  | extend items => exact absurd hop (by simp [Op.isExtend])

/-- **Every run of calls without `extend` keeps the invariant and never panics.** -/
theorem run_inv {ops : List (Op K V)} {c : LfuCache K V} (h : c.Inv) (hd : c.deadWeight = false)
    (hops : ∀ op ∈ ops, op.isExtend = false) :
    ∃ c', run pq entrySize ops c = some c' ∧ c'.Inv ∧ c'.deadWeight = false := by
  induction ops generalizing c with
  | nil => exact ⟨c, rfl, h, hd⟩
  | cons op ops ih =>
    obtain ⟨c₁, h₁, hinv₁, hd₁⟩ := Op.apply_inv pq entrySize h hd (hops op List.mem_cons_self)
    obtain ⟨c', h', hinv', hd'⟩ :=
      ih hinv₁ hd₁ fun op' hop => hops op' (List.mem_cons_of_mem _ hop)
    refine ⟨c', ?_, hinv', hd'⟩
    rw [run, List.foldlM_cons, h₁]
    exact h'

end Run

/-- `Weight`, the value of the cache's test: it weighs its number. -/
structure Weight where
  val : Nat

instance : CacheWeight Weight := ⟨Weight.val⟩

/-- The cache of the test after inserting key `1` weighing `5`. -/
def cacheOne : LfuCache Nat Weight :=
  ⟨[(⟨5, 1, ⟨5⟩, false⟩, ⟨false, 1⟩)], 5, 0, false, 1, 0⟩

section Test

variable (pq : Ops Priority (@CacheEntry.key Nat Weight))

theorem new_insert_one : (new false : LfuCache Nat Weight).insert pq 1 ⟨5⟩ = some cacheOne := by
  have hm : pq.modify [] 1 (fun x => (x.1, { x.2 with freq := x.2.freq + 1 })) = [] :=
    pq.modify_nil 1 fun _ => rfl
  have hg : pq.get [] 1 = none := (pq.get_eq_none_iff _ _).mpr nofun
  simp [insert, getMut, new, hm, hg, pq.push_nil, CacheEntry.weightOf, CacheWeight.indirectWeight,
    cacheOne]

end Test

/-- **Calls without `extend` keep the cache's invariant; `extend` breaks it.** Along a run of
`insert`, `get`, `remove` and `evict_with_period` calls without dead weight, no call panics and
the invariant holds; after `evict_with_period` the total is within the bound, and the entries
evicted come first in the order of priorities. But for any priority queue, a new cache extended
by the entries of `cacheOne`, as `EntityCache::extend` extends its cache, has the total `0` and
an entry of weight `5`: `evict` to `0` evicts nothing, and `remove` of key `1` subtracts `5` from
`0`. -/
theorem lfuCache_extend_breaks_weight [CacheWeight K] [CacheWeight V]
    (pq : Ops Priority (@CacheEntry.key K V)) (entrySize : Nat) :
    (∀ (ops : List (Op K V)) (c : LfuCache K V), c.Inv → c.deadWeight = false →
      (∀ op ∈ ops, op.isExtend = false) → ∃ c', run pq entrySize ops c = some c' ∧ c'.Inv) ∧
    (∀ c : LfuCache K V, c.Inv → c.deadWeight = false → ∀ maxWeight stalePeriod, ∃ r c',
      c.evictWithPeriod pq entrySize maxWeight stalePeriod = some (r, c') ∧ c'.Inv ∧
      c'.totalWeight ≤ maxWeight ∧
      ((r = none ∧ c' = c) ∨ ∃ popped, (c.tick stalePeriod).queue.Perm (popped ++ c'.queue) ∧
        ∀ x ∈ popped, ∀ y ∈ c'.queue, y.2 ≤ x.2)) ∧
    ∀ pq' : Ops Priority (@CacheEntry.key Nat Weight),
      (new false : LfuCache Nat Weight).insert pq' 1 ⟨5⟩ = some cacheOne ∧
      ((new false : LfuCache Nat Weight).extend pq' cacheOne.intoIter).totalWeight = 0 ∧
      sumBy CacheEntry.weight ((new false : LfuCache Nat Weight).extend pq'
        cacheOne.intoIter).queue = 5 ∧
      (∀ entrySize' : Nat, ((new false).extend pq' cacheOne.intoIter).evict pq' entrySize' 0 =
          some (none, (new false).extend pq' cacheOne.intoIter)) ∧
      ((new false).extend pq' cacheOne.intoIter).remove pq' 1 = none := by
  refine ⟨fun ops c h hd hops => ?_, fun c h hd maxWeight stalePeriod => ?_, fun pq' => ?_⟩
  · obtain ⟨c', hrun, hinv, -⟩ := run_inv pq entrySize h hd hops
    exact ⟨c', hrun, hinv⟩
  · obtain ⟨r, c', hc', hinv, -, hbound, horder⟩ :=
      evictWithPeriod_spec pq h hd entrySize maxWeight stalePeriod
    exact ⟨r, c', hc', hinv, hbound, horder⟩
  · -- the extended cache holds the entry of `cacheOne`, and its total is `0`
    have hq : pq'.extend [] cacheOne.intoIter = cacheOne.queue := pq'.extend_nil_singleton _
    refine ⟨new_insert_one pq', rfl, ?_, fun entrySize' => rfl, ?_⟩
    · show sumBy CacheEntry.weight (pq'.extend [] cacheOne.intoIter) = 5
      rw [hq]
      rfl
    · -- the entry popped is the key's, and its weight is more than the total
      have hn : KeysNodup CacheEntry.key cacheOne.queue := List.nodup_singleton 1
      have hg : pq'.get cacheOne.queue 1 = some (⟨5, 1, ⟨5⟩, false⟩, ⟨false, 1⟩) :=
        (pq'.get_eq_some_iff hn).mpr ⟨List.mem_singleton_self _, rfl⟩
      have hm : pq'.modify cacheOne.queue 1 (fun x => (x.1, (⟨true, 0⟩ : Priority))) =
          [(⟨5, 1, ⟨5⟩, false⟩, ⟨true, 0⟩)] :=
        List.perm_singleton.mp (pq'.modify_perm _ _ _ fun _ => rfl)
      simp [remove, extend, new, hq, hg, hm, pq'.pop_singleton]

/-- The test on the priority queue on lists, whose `pop` takes the first entry of greatest
priority. -/
theorem lfuCache_extend_breaks_weight_listOps :
    ((new false : LfuCache Nat Weight).extend (listOps CacheEntry.key)
      cacheOne.intoIter).totalWeight = 0 ∧
    sumBy CacheEntry.weight ((new false : LfuCache Nat Weight).extend (listOps CacheEntry.key)
      cacheOne.intoIter).queue = 5 ∧
    ((new false : LfuCache Nat Weight).extend (listOps CacheEntry.key) cacheOne.intoIter).remove
      (listOps CacheEntry.key) 1 = none := by
  obtain ⟨-, htotal, hsum, -, hremove⟩ :=
    (lfuCache_extend_breaks_weight (K := Nat) (V := Weight) (listOps CacheEntry.key) 0).2.2
      (listOps CacheEntry.key)
  exact ⟨htotal, hsum, hremove⟩

end LfuCache

end GraphNode
