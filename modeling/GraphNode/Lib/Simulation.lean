import Mathlib

/-!
# Simulation of fallible computations that may panic

A computation of `ExceptT ε Option α` ends in one of three ways: a value, an error, or a panic
(`none`). Two such computations, one running on machine arithmetic and one on exact numbers,
go through the same branches as long as the first has not given up on an arithmetic overflow.
`Simulates absorb P m n` says so: `m` and `n` panic together, fail with the same error, or
return values related by `P`; except that an error of `m` that `absorb` accepts (an overflow)
stands for any outcome of `n`.

The rules compose along `bind` (`Simulates.bind`) and through a left fold
(`Simulates.foldlM`), which is how a loop with an accumulator is simulated step by step. What a
simulation is for is read off with `Simulates.ok`, `Simulates.error` and `Simulates.panic`.
-/

namespace GraphNode

variable {ε α β γ δ : Type}

/-- `Option::ok_or` followed by `?`: the value, or the error `e`. -/
def okOr (o : Option α) (e : ε) : ExceptT ε Option α :=
  match o with
  | some a => pure a
  | none => throw e

/-- `Option::unwrap`: the value, or a panic. -/
def unwrap (o : Option α) : ExceptT ε Option α :=
  ExceptT.lift o

@[simp] theorem okOr_some (a : α) (e : ε) : okOr (some a) e = pure a := rfl

@[simp] theorem okOr_none (e : ε) : (okOr none e : ExceptT ε Option α) = throw e := rfl

@[simp] theorem unwrap_some_bind (a : α) (f : α → ExceptT ε Option β) :
    (unwrap (some a) >>= f) = f a := rfl

@[simp] theorem unwrap_none_bind (f : α → ExceptT ε Option β) :
    (unwrap none >>= f) = unwrap none := rfl

theorem run_unwrap_none : (unwrap none : ExceptT ε Option α).run = none := rfl

/-- How the outcomes of two computations correspond. -/
inductive ResultRel (absorb : ε → Prop) (P : α → β → Prop) :
    Option (Except ε α) → Option (Except ε β) → Prop
  | panic : ResultRel absorb P none none
  | error (e : ε) : ResultRel absorb P (some (.error e)) (some (.error e))
  | ok {a : α} {b : β} : P a b → ResultRel absorb P (some (.ok a)) (some (.ok b))
  | absorbed {e : ε} {r : Option (Except ε β)} : absorb e → ResultRel absorb P (some (.error e)) r

/-- `m` simulates `n`: their outcomes correspond. -/
def Simulates (absorb : ε → Prop) (P : α → β → Prop) (m : ExceptT ε Option α)
    (n : ExceptT ε Option β) : Prop :=
  ResultRel absorb P m.run n.run

namespace Simulates

variable {absorb : ε → Prop} {P : α → β → Prop} {Q : γ → δ → Prop}

theorem pure {a : α} {b : β} (h : P a b) :
    Simulates absorb P (Pure.pure a : ExceptT ε Option α) (Pure.pure b) :=
  .ok h

theorem throw (e : ε) :
    Simulates absorb P (MonadExcept.throw e : ExceptT ε Option α) (MonadExcept.throw e) :=
  .error e

/-- An absorbed error stands for anything. -/
theorem of_absorb {e : ε} (he : absorb e) (n : ExceptT ε Option β) :
    Simulates absorb P (MonadExcept.throw e : ExceptT ε Option α) n :=
  .absorbed he

/-- A computation simulates itself. -/
theorem refl (m : ExceptT ε Option α) : Simulates absorb Eq m m := by
  unfold Simulates
  rcases m.run with _ | _ | a
  · exact .panic
  · exact .error _
  · exact .ok rfl

/-- A bind against a value of the simulated side. -/
theorem bind_pure {m : ExceptT ε Option α} {b : β} {k : α → ExceptT ε Option γ}
    {n : ExceptT ε Option δ} (h : Simulates absorb P m (Pure.pure b))
    (hk : ∀ a, P a b → Simulates absorb Q (k a) n) : Simulates absorb Q (m >>= k) n := by
  unfold Simulates at h ⊢
  rw [ExceptT.run_bind]
  rw [ExceptT.run_pure] at h
  generalize m.run = r at h
  cases h with
  | ok hab => exact hk _ hab
  | absorbed he => exact .absorbed he

/-- **Simulation composes along `bind`.** -/
theorem bind {m : ExceptT ε Option α} {n : ExceptT ε Option β} {k : α → ExceptT ε Option γ}
    {l : β → ExceptT ε Option δ} (h : Simulates absorb P m n)
    (hk : ∀ a b, P a b → Simulates absorb Q (k a) (l b)) :
    Simulates absorb Q (m >>= k) (n >>= l) := by
  unfold Simulates at h ⊢
  rw [ExceptT.run_bind, ExceptT.run_bind]
  cases h with
  | panic => exact .panic
  | error e => exact .error e
  | ok hab => exact hk _ _ hab
  | absorbed he => exact .absorbed he

/-- **Simulation of a left fold**, from accumulators related by `V` and steps that keep them
related. -/
theorem foldlM {σ τ ι : Type} {V : σ → τ → Prop} {f : σ → ι → ExceptT ε Option σ}
    {g : τ → ι → ExceptT ε Option τ} (xs : List ι)
    (hstep : ∀ s t, ∀ x ∈ xs, V s t → Simulates absorb V (f s x) (g t x)) {s : σ} {t : τ}
    (hst : V s t) : Simulates absorb V (xs.foldlM f s) (xs.foldlM g t) := by
  induction xs generalizing s t with
  | nil => exact .pure hst
  | cons x xs ih =>
    rw [List.foldlM_cons, List.foldlM_cons]
    refine .bind (hstep s t x List.mem_cons_self hst) fun s' t' hst' => ?_
    exact ih (fun s t y hy => hstep s t y (List.mem_cons_of_mem x hy)) hst'

/-! ### What a simulation says -/

/-- A value of the simulating computation is related to a value of the simulated one. -/
theorem ok {m : ExceptT ε Option α} {n : ExceptT ε Option β} (h : Simulates absorb P m n)
    {a : α} (hm : m.run = some (.ok a)) : ∃ b, n.run = some (.ok b) ∧ P a b := by
  unfold Simulates at h
  rw [hm] at h
  cases h with
  | ok hab => exact ⟨_, rfl, hab⟩

/-- An error that is not absorbed is an error of both. -/
theorem error {m : ExceptT ε Option α} {n : ExceptT ε Option β} (h : Simulates absorb P m n)
    {e : ε} (hm : m.run = some (.error e)) (he : ¬ absorb e) : n.run = some (.error e) := by
  unfold Simulates at h
  rw [hm] at h
  cases h with
  | error => rfl
  | absorbed he' => exact absurd he' he

/-- A panic is a panic of both. -/
theorem panic {m : ExceptT ε Option α} {n : ExceptT ε Option β} (h : Simulates absorb P m n)
    (hm : m.run = none) : n.run = none := by
  unfold Simulates at h
  rw [hm] at h
  cases h with
  | panic => rfl

/-- Read from the simulated side: a value of `n` is matched by a related value of `m`, or `m`
gave up with an absorbed error. -/
theorem of_ok {m : ExceptT ε Option α} {n : ExceptT ε Option β} (h : Simulates absorb P m n)
    {b : β} (hn : n.run = some (.ok b)) :
    (∃ a, m.run = some (.ok a) ∧ P a b) ∨ ∃ e, m.run = some (.error e) ∧ absorb e := by
  unfold Simulates at h
  rw [hn] at h
  generalize hr : m.run = r at h
  cases h with
  | ok hab => exact .inl ⟨_, rfl, hab⟩
  | absorbed he => exact .inr ⟨_, rfl, he⟩

end Simulates

end GraphNode
