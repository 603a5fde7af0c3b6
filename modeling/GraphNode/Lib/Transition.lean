import Mathlib

/-!
# Transition systems and interleaved threads

A system is an initial predicate and a next-state relation (`Transition.Spec`). A property is
an invariant when it holds in every state a run reaches (`Transition.Invariant`); it is shown
by an inductive invariant that implies it (`Transition.invariant_of_inductive`), which may use
invariants already known (`Transition.invariant_of_inductive_with`).

Threads that share a state and run interleaved form a system whose states are the shared part
and the local states of the threads started so far (`Transition.Config`): at each step one
thread moves, reading and writing the shared part, or a new thread starts
(`Transition.interleave`). The threads are a multiset, as nothing depends on their names, and
a thread that has returned stays in it. Two rules cover what holds over every interleaving:

* a **conservation law**: a quantity of the shared part that every step trades against what
  the moving thread holds, such as the permits of a semaphore against the threads that took
  them, keeps its total (`Transition.conserved`);
* a **local invariant**: a property every thread starts with and every thread keeps through
  its own steps holds of all threads (`Transition.forall_threads`).
-/

namespace GraphNode

namespace Transition

variable {σ L : Type}

/-- A transition system: its initial states and its steps. -/
structure Spec (σ : Type) where
  init : σ → Prop
  next : σ → σ → Prop

/-- The states that a run from an initial state reaches. -/
inductive Reachable (S : Spec σ) : σ → Prop
  | init {s : σ} : S.init s → Reachable S s
  | step {s t : σ} : Reachable S s → S.next s t → Reachable S t

/-- `P` holds in every reachable state. -/
def Invariant (S : Spec σ) (P : σ → Prop) : Prop :=
  ∀ s, Reachable S s → P s

/-- **The inductive-invariant rule.** -/
theorem invariant_of_inductive {S : Spec σ} {P Inv : σ → Prop} (hinit : ∀ s, S.init s → Inv s)
    (hstep : ∀ s t, Inv s → S.next s t → Inv t) (himp : ∀ s, Inv s → P s) : Invariant S P := by
  intro s hs
  apply himp
  induction hs with
  | init h => exact hinit _ h
  | step _ hn ih => exact hstep _ _ ih hn

/-- The inductive-invariant rule, where a step may use an invariant already known. -/
theorem invariant_of_inductive_with {S : Spec σ} {P Q Inv : σ → Prop} (hQ : Invariant S Q)
    (hinit : ∀ s, S.init s → Inv s) (hstep : ∀ s t, Q s → Inv s → S.next s t → Inv t)
    (himp : ∀ s, Inv s → P s) : Invariant S P := by
  intro s hs
  apply himp
  induction hs with
  | init h => exact hinit _ h
  | step hr hn ih => exact hstep _ _ (hQ _ hr) ih hn

/-- An invariant implies what follows from it in every state. -/
theorem Invariant.mono {S : Spec σ} {P Q : σ → Prop} (h : Invariant S P) (himp : ∀ s, P s → Q s) :
    Invariant S Q :=
  fun s hs => himp s (h s hs)

/-! ### Runs of a partial step over a list of inputs -/

/-- The shared part, and the local states of the threads. -/
structure Config (σ L : Type) where
  shared : σ
  threads : Multiset L

/-- One thread moves from `a` to `b`, taking the shared part from `s` to `s'`; or a thread
starts. -/
inductive Interleaved (step : σ → L → σ → L → Prop) (start : L → Prop) :
    Config σ L → Config σ L → Prop
  | step {s s' : σ} {a b : L} {ts : Multiset L} :
    step s a s' b → Interleaved step start ⟨s, a ::ₘ ts⟩ ⟨s', b ::ₘ ts⟩
  | start {s : σ} {a : L} {ts : Multiset L} :
    start a → Interleaved step start ⟨s, ts⟩ ⟨s, a ::ₘ ts⟩

/-- Threads interleaved from a shared part with `init` and no thread. -/
def interleave (init : σ → Prop) (step : σ → L → σ → L → Prop) (start : L → Prop) :
    Spec (Config σ L) where
  init c := init c.shared ∧ c.threads = 0
  next := Interleaved step start

section Rules

variable {init : σ → Prop} {step : σ → L → σ → L → Prop} {start : L → Prop}

/-- A property of the shared part that its initial states have and every step keeps. -/
theorem shared_invariant (I : σ → Prop) (hinit : ∀ s, init s → I s)
    (hstep : ∀ s a s' b, I s → step s a s' b → I s') :
    Invariant (interleave init step start) fun c => I c.shared :=
  invariant_of_inductive (fun c hc => hinit _ hc.1)
    (fun c c' hc hn => by
      cases hn with
      | step h => exact hstep _ _ _ _ hc h
      | start _ => exact hc)
    fun _ h => h

/-- **A conservation law.** In the states where `I` holds, every step trades `Φ` of the shared
part against the weight `w` of the moving thread, and a thread starts with weight `0`: then
`Φ` and the weights of all threads keep the total `k` they start with. -/
theorem conserved (I : σ → Prop) (Φ : σ → ℤ) (w : L → ℕ) {k : ℤ}
    (hI : Invariant (interleave init step start) fun c => I c.shared)
    (hinit : ∀ s, init s → Φ s = k)
    (hstep : ∀ s a s' b, I s → step s a s' b → Φ s' + w b = Φ s + w a)
    (hstart : ∀ a, start a → w a = 0) :
    Invariant (interleave init step start)
      fun c => Φ c.shared + ((c.threads.map w).sum : ℤ) = k := by
  refine invariant_of_inductive_with hI ?_ ?_ fun _ h => h
  · rintro c ⟨hs, ht⟩
    rw [ht, Multiset.map_zero, Multiset.sum_zero, Nat.cast_zero, add_zero]
    exact hinit _ hs
  · intro c c' hI hc hn
    cases hn with
    | @step s s' a b ts h =>
      -- the moving thread trades its weight against `Φ`; the others keep theirs
      have hw := hstep s a s' b hI h
      simp only [Multiset.map_cons, Multiset.sum_cons, Nat.cast_add] at hc ⊢
      omega
    | @start s a ts h =>
      simp only [Multiset.map_cons, Multiset.sum_cons, Nat.cast_add, hstart a h] at hc ⊢
      omega

/-- **A local invariant.** Where `Q` holds, every thread that starts has `P`, and a thread with
`P` keeps it through its own steps: then every thread has `P`. -/
theorem forall_threads {P : L → Prop} {Q : Config σ L → Prop}
    (hQ : Invariant (interleave init step start) Q) (hstart : ∀ a, start a → P a)
    (hstep : ∀ s a s' b ts, Q ⟨s, a ::ₘ ts⟩ → P a → step s a s' b → P b) :
    Invariant (interleave init step start) fun c => ∀ t ∈ c.threads, P t := by
  refine invariant_of_inductive_with hQ ?_ ?_ fun _ h => h
  · rintro c ⟨-, ht⟩ t hmem
    rw [ht] at hmem
    exact absurd hmem (Multiset.notMem_zero t)
  · intro c c' hq hc hn
    cases hn with
    | @step s s' a b ts h =>
      intro t ht
      rcases Multiset.mem_cons.mp ht with rfl | ht
      · exact hstep s a s' t ts hq (hc a (Multiset.mem_cons_self a ts)) h
      · exact hc t (Multiset.mem_cons_of_mem ht)
    | @start s a ts h =>
      intro t ht
      rcases Multiset.mem_cons.mp ht with rfl | ht
      · exact hstart t h
      · exact hc t ht

end Rules

end Transition

end GraphNode
