import GraphNode.Lib.Transition

/-!
# A bounded queue under concurrent callers

`BoundedQueue<T>` is a `VecDeque` behind a mutex, with two semaphores: `push_semaphore` has a
permit for each free place, and `pop_semaphore` one for each entry. `push` takes a push
permit, pushes under the lock and adds a pop permit; `pop` and `try_pop` take a pop permit, pop
the front under the lock with `expect("the queue is not empty")` and add a push permit; `peek`
takes a pop permit, reads the front under the lock and gives the permit back when it drops it;
`wait_empty` takes `capacity as u32` push permits at once and drops them; `clear` calls
`try_pop` until it returns `None`.

Each caller is a thread, and each line of those methods that touches a semaphore or the queue
is one step of it (`BoundedQueue.step`); what happens under the lock is one step, since the
lock makes it atomic. The threads are interleaved in every order (`BoundedQueue.spec`), and a
thread that waits for permits may take them whenever there are enough: that includes the
first-come first-served order of tokio's semaphore, so what holds here holds there.

The semaphores count what the code says they count, up to the permits in flight. The entries
are the pop permits and those a caller holds between taking a pop permit and popping, or owes
between pushing and adding its pop permit (`popHeld`); the free places are the push permits
and those a caller holds between taking one and pushing, or owes between popping and adding
it back, with the `capacity as u32` that `wait_empty` holds (`pushHeld`). Both counts are kept
over every interleaving (`pop_conserved`, `push_conserved`). Hence the `expect` of `pop`,
`try_pop` and `peek` never fails (`never_panics`), the queue never holds more than `capacity`
entries (`length_le_capacity`), and for a capacity below `2 ^ 32`, while `wait_empty` holds its
permits, the queue is empty and no `push` is between its permit and its `push_back`
(`waitEmpty_empty`). From a capacity of `2 ^ 32` on, `capacity as u32` wraps and `wait_empty`
can return with entries in the queue.
-/

namespace GraphNode

open Transition

/-- `BoundedQueue`: the capacity, the entries (front first), and the permits the two
semaphores have. -/
structure BoundedQueue (α : Type) where
  capacity : Nat
  queue : List α
  pushSemaphore : Nat
  popSemaphore : Nat
  deriving DecidableEq

namespace BoundedQueue

variable {α : Type}

/-- `with_capacity`. -/
def withCapacity (capacity : Nat) : BoundedQueue α := ⟨capacity, [], capacity, 0⟩

/-- `capacity as u32`: the permits `wait_empty` takes. -/
def waitEmptyPermits (q : BoundedQueue α) : Nat := q.capacity % 2 ^ 32

/-- The method that pops: `pop` waits for a permit; `try_pop` returns `None` without one;
`clear` calls `try_pop` until that returns `None`. -/
inductive PopCall
  | pop
  | tryPop
  | clear
  deriving DecidableEq

/-- Where a caller is in a method of the queue. -/
inductive Caller (α : Type)
  /-- `push(item)`, before `push_semaphore.acquire()`. -/
  | push (item : α)
  /-- In `push`, with a push permit, before `push_back`. -/
  | pushAcquired (item : α)
  /-- In `push`, after `push_back`, before `pop_semaphore.add_permits(1)`. -/
  | pushPushed
  /-- In `pop`, `try_pop` or `clear`, before taking a pop permit. -/
  | pop (call : PopCall)
  /-- With a pop permit, before `pop_front().expect(..)`. -/
  | popAcquired (call : PopCall)
  /-- After popping `item`, before `push_semaphore.add_permits(1)`. -/
  | popPopped (call : PopCall) (item : α)
  /-- `peek` or `peek_with`, before `pop_semaphore.acquire()`. -/
  | peek
  /-- In `peek`, with a pop permit, before `front().expect(..)`. -/
  | peekAcquired
  /-- In `peek`, after reading `item`, before the permit is dropped. -/
  | peekRead (item : α)
  /-- `wait_empty`, before `push_semaphore.acquire_many(capacity as u32)`. -/
  | waitEmpty
  /-- In `wait_empty`, with the permits, before they are dropped. -/
  | waitEmptyAcquired
  /-- The method has returned `result`. -/
  | returned (result : Option α)
  /-- An `expect` has failed. -/
  | panicked
  deriving DecidableEq

/-- One step of a caller: the queue and where the caller is after it, or `none` while the
caller waits for permits, and after it has returned. -/
def step (q : BoundedQueue α) : Caller α → Option (BoundedQueue α × Caller α)
  | .push item =>
    if 0 < q.pushSemaphore then
      some ({ q with pushSemaphore := q.pushSemaphore - 1 }, .pushAcquired item)
    else none
  | .pushAcquired item => some ({ q with queue := q.queue ++ [item] }, .pushPushed)
  | .pushPushed => some ({ q with popSemaphore := q.popSemaphore + 1 }, .returned none)
  | .pop call =>
    if 0 < q.popSemaphore then
      some ({ q with popSemaphore := q.popSemaphore - 1 }, .popAcquired call)
    else
      match call with
      -- `acquire` waits; `try_acquire` fails, and `try_pop` returns `None`
      | .pop => none
      | .tryPop | .clear => some (q, .returned none)
  | .popAcquired call =>
    match q.queue with
    | [] => some (q, .panicked)
    | item :: rest => some ({ q with queue := rest }, .popPopped call item)
  | .popPopped call item =>
    let q := { q with pushSemaphore := q.pushSemaphore + 1 }
    match call with
    -- `try_pop` returned `Some`, so `clear` tries again
    | .clear => some (q, .pop .clear)
    | .pop | .tryPop => some (q, .returned (some item))
  | .peek =>
    if 0 < q.popSemaphore then
      some ({ q with popSemaphore := q.popSemaphore - 1 }, .peekAcquired)
    else none
  | .peekAcquired =>
    match q.queue with
    | [] => some (q, .panicked)
    | item :: _ => some (q, .peekRead item)
  | .peekRead item => some ({ q with popSemaphore := q.popSemaphore + 1 }, .returned (some item))
  | .waitEmpty =>
    if q.waitEmptyPermits ≤ q.pushSemaphore then
      some ({ q with pushSemaphore := q.pushSemaphore - q.waitEmptyPermits }, .waitEmptyAcquired)
    else none
  | .waitEmptyAcquired =>
    some ({ q with pushSemaphore := q.pushSemaphore + q.waitEmptyPermits }, .returned none)
  | .returned _ | .panicked => none

/-- The calls a thread can start with: `push`, `pop`, `try_pop`, `clear`, `peek`,
`peek_with` and `wait_empty`. -/
def Caller.IsCall : Caller α → Prop
  | .push _ | .pop _ | .peek | .waitEmpty => True
  | _ => False

/-- Callers of a queue made by `with_capacity capacity`, interleaved in every order. -/
def spec (α : Type) (capacity : Nat) : Spec (Config (BoundedQueue α) (Caller α)) :=
  interleave (· = withCapacity capacity) (fun q a q' b => q.step a = some (q', b)) Caller.IsCall

/-! ### What a step does -/

/-- The steps of a caller, one constructor for each. -/
inductive Step : BoundedQueue α → Caller α → BoundedQueue α → Caller α → Prop
  | pushAcquire {q : BoundedQueue α} {item : α} : 0 < q.pushSemaphore →
    Step q (.push item) { q with pushSemaphore := q.pushSemaphore - 1 } (.pushAcquired item)
  | pushBack {q : BoundedQueue α} {item : α} :
    Step q (.pushAcquired item) { q with queue := q.queue ++ [item] } .pushPushed
  | pushRelease {q : BoundedQueue α} :
    Step q .pushPushed { q with popSemaphore := q.popSemaphore + 1 } (.returned none)
  | popAcquire {q : BoundedQueue α} {call : PopCall} : 0 < q.popSemaphore →
    Step q (.pop call) { q with popSemaphore := q.popSemaphore - 1 } (.popAcquired call)
  | tryPopNone {q : BoundedQueue α} {call : PopCall} : q.popSemaphore = 0 → call ≠ .pop →
    Step q (.pop call) q (.returned none)
  | popFront {q : BoundedQueue α} {call : PopCall} {item : α} {rest : List α} :
    q.queue = item :: rest →
    Step q (.popAcquired call) { q with queue := rest } (.popPopped call item)
  | popEmpty {q : BoundedQueue α} {call : PopCall} : q.queue = [] →
    Step q (.popAcquired call) q .panicked
  | popRelease {q : BoundedQueue α} {call : PopCall} {item : α} : call ≠ .clear →
    Step q (.popPopped call item) { q with pushSemaphore := q.pushSemaphore + 1 }
      (.returned (some item))
  | clearRelease {q : BoundedQueue α} {item : α} :
    Step q (.popPopped .clear item) { q with pushSemaphore := q.pushSemaphore + 1 } (.pop .clear)
  | peekAcquire {q : BoundedQueue α} : 0 < q.popSemaphore →
    Step q .peek { q with popSemaphore := q.popSemaphore - 1 } .peekAcquired
  | peekFront {q : BoundedQueue α} {item : α} {rest : List α} : q.queue = item :: rest →
    Step q .peekAcquired q (.peekRead item)
  | peekEmpty {q : BoundedQueue α} : q.queue = [] → Step q .peekAcquired q .panicked
  | peekRelease {q : BoundedQueue α} {item : α} :
    Step q (.peekRead item) { q with popSemaphore := q.popSemaphore + 1 } (.returned (some item))
  | waitEmptyAcquire {q : BoundedQueue α} : q.waitEmptyPermits ≤ q.pushSemaphore →
    Step q .waitEmpty { q with pushSemaphore := q.pushSemaphore - q.waitEmptyPermits }
      .waitEmptyAcquired
  | waitEmptyRelease {q : BoundedQueue α} :
    Step q .waitEmptyAcquired { q with pushSemaphore := q.pushSemaphore + q.waitEmptyPermits }
      (.returned none)

/-- Every step of `step` is one of `Step`. -/
theorem step_spec {q q' : BoundedQueue α} {a b : Caller α} (h : q.step a = some (q', b)) :
    Step q a q' b := by
  cases a with
  | push item =>
    by_cases hp : 0 < q.pushSemaphore
    · simp only [step, if_pos hp, Option.some.injEq, Prod.mk.injEq] at h
      obtain ⟨rfl, rfl⟩ := h
      exact .pushAcquire hp
    · simp [step, hp] at h
  | pushAcquired item =>
    simp only [step, Option.some.injEq, Prod.mk.injEq] at h
    obtain ⟨rfl, rfl⟩ := h
    exact .pushBack
  | pushPushed =>
    simp only [step, Option.some.injEq, Prod.mk.injEq] at h
    obtain ⟨rfl, rfl⟩ := h
    exact .pushRelease
  | pop call =>
    by_cases hp : 0 < q.popSemaphore
    · simp only [step, if_pos hp, Option.some.injEq, Prod.mk.injEq] at h
      obtain ⟨rfl, rfl⟩ := h
      exact .popAcquire hp
    · simp only [step, if_neg hp] at h
      cases call with
      | pop => cases h
      | tryPop | clear =>
        simp only [Option.some.injEq, Prod.mk.injEq] at h
        obtain ⟨rfl, rfl⟩ := h
        exact .tryPopNone (by omega) (by decide)
  | popAcquired call =>
    rcases hq : q.queue with _ | ⟨item, rest⟩
    · simp only [step, hq, Option.some.injEq, Prod.mk.injEq] at h
      obtain ⟨rfl, rfl⟩ := h
      exact .popEmpty hq
    · simp only [step, hq, Option.some.injEq, Prod.mk.injEq] at h
      obtain ⟨rfl, rfl⟩ := h
      exact .popFront hq
  | popPopped call item =>
    cases call with
    | pop | tryPop =>
      simp only [step, Option.some.injEq, Prod.mk.injEq] at h
      obtain ⟨rfl, rfl⟩ := h
      exact .popRelease (by decide)
    | clear =>
      simp only [step, Option.some.injEq, Prod.mk.injEq] at h
      obtain ⟨rfl, rfl⟩ := h
      exact .clearRelease
  | peek =>
    by_cases hp : 0 < q.popSemaphore
    · simp only [step, if_pos hp, Option.some.injEq, Prod.mk.injEq] at h
      obtain ⟨rfl, rfl⟩ := h
      exact .peekAcquire hp
    · simp [step, hp] at h
  | peekAcquired =>
    rcases hq : q.queue with _ | ⟨item, rest⟩
    · simp only [step, hq, Option.some.injEq, Prod.mk.injEq] at h
      obtain ⟨rfl, rfl⟩ := h
      exact .peekEmpty hq
    · simp only [step, hq, Option.some.injEq, Prod.mk.injEq] at h
      obtain ⟨rfl, rfl⟩ := h
      exact .peekFront hq
  | peekRead item =>
    simp only [step, Option.some.injEq, Prod.mk.injEq] at h
    obtain ⟨rfl, rfl⟩ := h
    exact .peekRelease
  | waitEmpty =>
    by_cases hp : q.waitEmptyPermits ≤ q.pushSemaphore
    · simp only [step, if_pos hp, Option.some.injEq, Prod.mk.injEq] at h
      obtain ⟨rfl, rfl⟩ := h
      exact .waitEmptyAcquire hp
    · simp [step, hp] at h
  | waitEmptyAcquired =>
    simp only [step, Option.some.injEq, Prod.mk.injEq] at h
    obtain ⟨rfl, rfl⟩ := h
    exact .waitEmptyRelease
  | returned result => cases h
  | panicked => cases h

/-! ### The permits -/

/-- The pop permits a caller holds or owes: taken and not yet used up by a pop or given back,
or, after a push, not yet added. A caller whose `expect` failed keeps its permit. -/
def popHeld : Caller α → Nat
  | .pushPushed | .popAcquired _ | .peekAcquired | .peekRead _ | .panicked => 1
  | _ => 0

/-- The push permits a caller holds or owes: taken and not yet used up by a push, or, after a
pop, not yet added; `wait_empty` holds `permits`. -/
def pushHeld (permits : Nat) : Caller α → Nat
  | .pushAcquired _ | .popPopped _ _ => 1
  | .waitEmptyAcquired => permits
  | _ => 0

section Steps

variable {q q' : BoundedQueue α} {a b : Caller α}

theorem Step.capacity (h : Step q a q' b) : q'.capacity = q.capacity := by
  cases h <;> rfl

/-- A step trades pop permits against entries and what the caller holds. -/
theorem Step.pop_conserved (h : Step q a q' b) :
    ((q'.popSemaphore : ℤ) - q'.queue.length) + popHeld b =
      ((q.popSemaphore : ℤ) - q.queue.length) + popHeld a := by
  cases h <;> simp_all [popHeld] <;> omega

/-- A step trades push permits against entries and what the caller holds. -/
theorem Step.push_conserved (h : Step q a q' b) :
    ((q'.queue.length + q'.pushSemaphore : ℕ) : ℤ) + pushHeld q.waitEmptyPermits b =
      ((q.queue.length + q.pushSemaphore : ℕ) : ℤ) + pushHeld q.waitEmptyPermits a := by
  cases h <;> simp_all [pushHeld] <;> omega

end Steps

/-- The calls start holding no permit. -/
theorem Caller.IsCall.held {a : Caller α} (ha : a.IsCall) (permits : Nat) :
    popHeld a = 0 ∧ pushHeld permits a = 0 := by
  cases a <;> first | exact ⟨rfl, rfl⟩ | exact ha.elim

variable (α) (capacity : Nat)

/-- The capacity never changes. -/
theorem capacity_eq : Invariant (spec α capacity) fun c => c.shared.capacity = capacity := by
  unfold spec
  refine shared_invariant (fun q : BoundedQueue α => q.capacity = capacity) ?_ ?_
  · rintro q rfl
    rfl
  · intro q a q' b hq h
    exact (step_spec h).capacity.trans hq

/-- **The entries are the pop permits and those the callers hold or owe**, over every
interleaving. -/
theorem pop_conserved : Invariant (spec α capacity) fun c =>
    ((c.shared.popSemaphore : ℤ) - c.shared.queue.length) +
      ((c.threads.map popHeld).sum : ℤ) = 0 := by
  unfold spec
  refine conserved (fun _ => True)
    (fun q : BoundedQueue α => (q.popSemaphore : ℤ) - q.queue.length) popHeld ?_ ?_ ?_ ?_
  · exact shared_invariant _ (fun _ _ => trivial) fun _ _ _ _ _ _ => trivial
  · rintro q rfl
    rfl
  · intro q a q' b _ h
    exact (step_spec h).pop_conserved
  · intro a ha
    exact (Caller.IsCall.held ha 0).1

/-- **The free places are the push permits and those the callers hold or owe**, over every
interleaving. -/
theorem push_conserved : Invariant (spec α capacity) fun c =>
    ((c.shared.queue.length + c.shared.pushSemaphore : ℕ) : ℤ) +
      ((c.threads.map (pushHeld (capacity % 2 ^ 32))).sum : ℤ) = capacity := by
  have hcap := capacity_eq α capacity
  unfold spec at hcap ⊢
  refine conserved (fun q : BoundedQueue α => q.capacity = capacity)
    (fun q : BoundedQueue α => ((q.queue.length + q.pushSemaphore : ℕ) : ℤ))
    (pushHeld (capacity % 2 ^ 32)) hcap
    ?_ ?_ fun a ha => (Caller.IsCall.held ha _).2
  · rintro q rfl
    simp [withCapacity]
  · intro q a q' b hq h
    have hpermits : q.waitEmptyPermits = capacity % 2 ^ 32 := by rw [waitEmptyPermits, hq]
    rw [← hpermits]
    exact (step_spec h).push_conserved

/-! ### Safety over every interleaving -/

/-- **The `expect` of `pop`, `try_pop` and `peek` never fails**: over every interleaving of
any number of callers, a caller that holds a pop permit finds an entry under the lock. -/
theorem never_panics : Invariant (spec α capacity) fun c => Caller.panicked ∉ c.threads := by
  have hpop := pop_conserved α capacity
  unfold spec at hpop ⊢
  refine (forall_threads (P := fun t => t ≠ Caller.panicked) hpop ?_ ?_).mono
    fun c h hmem => h _ hmem rfl
  · intro a ha
    cases a <;> first | exact ha.elim | exact nofun
  · intro q a q' b ts hq _ h
    dsimp only at hq
    simp only [Multiset.map_cons, Multiset.sum_cons, Nat.cast_add] at hq
    -- the pop permit of a caller that finds no entry would stand for an entry
    cases step_spec h with
    | popEmpty hempty =>
      simp only [popHeld, hempty, List.length_nil, Nat.cast_zero, Nat.cast_one] at hq
      omega
    | peekEmpty hempty =>
      simp only [popHeld, hempty, List.length_nil, Nat.cast_zero, Nat.cast_one] at hq
      omega
    | _ => exact nofun

/-- **The queue never holds more than `capacity` entries**, over every interleaving. -/
theorem length_le_capacity :
    Invariant (spec α capacity) fun c => c.shared.queue.length ≤ capacity :=
  (push_conserved α capacity).mono fun _ h => by omega

/-- **`wait_empty` returns on an empty queue.** For a capacity below `2 ^ 32`, while a caller of
`wait_empty` holds its permits, the queue is empty and no caller of `push` holds a permit it has
not pushed with: the queue stays empty until the permits are dropped. -/
theorem waitEmpty_empty (hcap : capacity < 2 ^ 32) :
    Invariant (spec α capacity) fun c => Caller.waitEmptyAcquired ∈ c.threads →
      c.shared.queue = [] ∧ ∀ item, Caller.pushAcquired item ∉ c.threads := by
  refine (push_conserved α capacity).mono fun c h hwait => ?_
  rw [Nat.mod_eq_of_lt hcap] at h
  -- `wait_empty` holds all `capacity` permits
  obtain ⟨ts, hts⟩ := Multiset.exists_cons_of_mem hwait
  rw [hts, Multiset.map_cons, Multiset.sum_cons] at h
  simp only [pushHeld, Nat.cast_add] at h
  refine ⟨List.eq_nil_of_length_eq_zero (by omega), fun item hpush => ?_⟩
  -- so a `push` with a permit would hold one more than there are
  rw [hts] at hpush
  obtain ⟨ts', rfl⟩ := Multiset.exists_cons_of_mem
    ((Multiset.mem_cons.mp hpush).resolve_left nofun)
  simp only [Multiset.map_cons, Multiset.sum_cons, pushHeld, Nat.cast_add, Nat.cast_one] at h
  omega

/-- A capacity below `2 ^ 32`. -/
theorem waitEmpty_empty_capacity_one :
    1 < 2 ^ 32 ∧ Invariant (spec Unit 1) fun c => Caller.waitEmptyAcquired ∈ c.threads →
      c.shared.queue = [] ∧ ∀ item, Caller.pushAcquired item ∉ c.threads :=
  ⟨by decide, waitEmpty_empty Unit 1 (by decide)⟩

/-- At a capacity of `2 ^ 32`, `capacity as u32` is `0`: a `push` pushes an entry, and
`wait_empty` takes its `0` permits with the entry in the queue. -/
theorem waitEmpty_nonempty_at_two_pow_32 :
    ∃ c, Reachable (spec Unit (2 ^ 32)) c ∧ Caller.waitEmptyAcquired ∈ c.threads ∧
      c.shared.queue ≠ [] := by
  refine ⟨⟨⟨2 ^ 32, [()], 2 ^ 32 - 1, 0⟩, .waitEmptyAcquired ::ₘ .pushPushed ::ₘ 0⟩, ?_,
    by simp, by simp⟩
  -- `push(())` takes a permit and pushes; then `wait_empty` starts and takes no permit
  have h₀ : Reachable (spec Unit (2 ^ 32)) ⟨withCapacity (2 ^ 32), 0⟩ := .init ⟨rfl, rfl⟩
  have h₁ := h₀.step (.start (show (Caller.push ()).IsCall from trivial))
  have h₂ := h₁.step (.step (b := .pushAcquired ()) rfl)
  have h₃ := h₂.step (.step (b := .pushPushed) rfl)
  have h₄ := h₃.step (.start (show (Caller.waitEmpty : Caller Unit).IsCall from trivial))
  exact h₄.step (.step rfl)

end BoundedQueue

end GraphNode
