import Mathlib

/-!
# Values merged on every write

A map whose writes merge the new value into the one already there, with some operation `f`,
answers each key with the merge of everything written to it. `insertWith` is that write on an
association list, and `insertAllWith` writes every entry of a second map. Read through
`Option.merge f`, where a key nobody wrote is `none`:

* one write merges a singleton (`lookup_insertWith`);
* writing all of `t` merges `t` (`lookup_insertAllWith`);
* a run of steps each of which merges a contribution merges, for an associative `f`, the merge of
  the contributions (`obs_foldl_of_merge`), and runs over two lists merge their two results
  (`foldl_merge_append`).

For a linear order, the least element of a list is determined by the bounds its elements
reach, and the least element of two lists is the `min` of theirs (`min?_eq_merge_of_exists_le`).
-/

namespace GraphNode

section AList

variable {α β : Type} [DecidableEq α] (f : β → β → β)

/-- Write `b` at `a`, merged by `f` into the value already there. -/
def insertWith (a : α) (b : β) (s : AList fun _ : α => β) : AList fun _ : α => β :=
  s.insert a (match s.lookup a with
    | some old => f old b
    | none => b)

/-- Every entry of `t` written into `s` by `insertWith`, in the order of `t`. -/
def insertAllWith (s t : AList fun _ : α => β) : AList fun _ : α => β :=
  t.foldl (fun s a b => insertWith f a b s) s

theorem lookup_insertWith (a : α) (b : β) (s : AList fun _ : α => β) (a' : α) :
    (insertWith f a b s).lookup a' =
      Option.merge f (s.lookup a') (if a' = a then some b else none) := by
  unfold insertWith
  by_cases h : a' = a
  · subst h
    rw [AList.lookup_insert, if_pos rfl]
    cases s.lookup a' <;> rfl
  · rw [AList.lookup_insert_ne h, if_neg h, Option.merge_none_right]

/-- Writing a list of entries with distinct keys merges each key's entry. -/
theorem lookup_foldl_insertWith {l : List (Sigma fun _ : α => β)} (hl : l.NodupKeys)
    (s : AList fun _ : α => β) (a : α) :
    (l.foldl (fun s p => insertWith f p.1 p.2 s) s).lookup a =
      Option.merge f (s.lookup a) (l.dlookup a) := by
  induction l generalizing s with
  | nil => simp [List.dlookup_nil]
  | cons p l ih =>
    obtain ⟨hp, hl⟩ := List.nodupKeys_cons.mp hl
    rw [List.foldl_cons, ih hl, lookup_insertWith]
    by_cases ha : a = p.1
    · -- the key of `p` is written once, by `p`
      subst ha
      have hnone : l.dlookup p.1 = none := List.dlookup_eq_none.mpr hp
      rw [hnone, if_pos rfl, Option.merge_none_right, List.dlookup_cons_eq]
    · rw [if_neg ha, Option.merge_none_right, List.dlookup_cons_ne l p ha]

theorem lookup_insertAllWith (s t : AList fun _ : α => β) (a : α) :
    (insertAllWith f s t).lookup a = Option.merge f (s.lookup a) (t.lookup a) :=
  lookup_foldl_insertWith f t.nodupKeys s a

end AList

section Runs

variable {σ ι β : Type} (f : β → β → β) [Std.Associative f]

/-- The contributions of a run, merged. -/
def mergeAll (c : ι → Option β) (l : List ι) : Option β :=
  l.foldl (fun acc i => Option.merge f acc (c i)) none

theorem foldl_merge (c : ι → Option β) (l : List ι) (x : Option β) :
    l.foldl (fun acc i => Option.merge f acc (c i)) x = Option.merge f x (mergeAll f c l) := by
  induction l generalizing x with
  | nil => simp [mergeAll]
  | cons i l ih =>
    rw [List.foldl_cons, ih]
    conv_rhs => rw [mergeAll, List.foldl_cons, Option.merge_none_left, ih]
    exact @Std.Associative.assoc _ (Option.merge f) _ _ _ _

theorem mergeAll_cons (c : ι → Option β) (i : ι) (l : List ι) :
    mergeAll f c (i :: l) = Option.merge f (c i) (mergeAll f c l) := by
  rw [mergeAll, List.foldl_cons, Option.merge_none_left, foldl_merge]

/-- **A run of steps that each merge a contribution merges them all.** -/
theorem obs_foldl_of_merge (obs : σ → Option β) {step : σ → ι → σ} {c : ι → Option β}
    (hstep : ∀ s i, obs (step s i) = Option.merge f (obs s) (c i)) (l : List ι) (s : σ) :
    obs (l.foldl step s) = Option.merge f (obs s) (mergeAll f c l) := by
  induction l generalizing s with
  | nil => simp [mergeAll]
  | cons i l ih =>
    rw [List.foldl_cons, ih, hstep, mergeAll_cons]
    exact @Std.Associative.assoc _ (Option.merge f) _ _ _ _

theorem foldl_merge_append (c : ι → Option β) (l₁ l₂ : List ι) :
    mergeAll f c (l₁ ++ l₂) = Option.merge f (mergeAll f c l₁) (mergeAll f c l₂) := by
  rw [mergeAll, List.foldl_append, foldl_merge]
  rfl

end Runs

section Least

variable {α : Type} [LinearOrder α]

theorem min?_append (l₁ l₂ : List α) : (l₁ ++ l₂).min? = Option.merge min l₁.min? l₂.min? := by
  induction l₁ with
  | nil => simp
  | cons x l₁ ih =>
    rw [List.cons_append, List.min?_cons, List.min?_cons, ih]
    cases l₁.min? <;> cases l₂.min? <;> simp [min_assoc]

/-- Two lists whose elements reach the same bounds have the same least element. -/
theorem min?_eq_of_exists_le {l l' : List α} (h : ∀ n, (∃ x ∈ l, x ≤ n) ↔ ∃ x ∈ l', x ≤ n) :
    l.min? = l'.min? := by
  cases hl : l.min? with
  | none =>
    -- no bound is reached, so `l'` is empty too
    have hnil : l' = [] := List.eq_nil_iff_forall_not_mem.mpr fun y hy => by
      obtain ⟨x, hx, -⟩ := (h y).mpr ⟨y, hy, le_rfl⟩
      simp [List.min?_eq_none_iff.mp hl] at hx
    rw [hnil, List.min?_nil]
  | some m =>
    obtain ⟨hm, hle⟩ := List.min?_eq_some_iff.mp hl
    obtain ⟨x, hx, hxm⟩ := (h m).mp ⟨m, hm, le_rfl⟩
    refine (List.min?_eq_some_iff.mpr ⟨?_, fun b hb => ?_⟩).symm
    · -- the element of `l'` below `m` is `m`, since some element of `l` lies below it
      obtain ⟨y, hy, hyx⟩ := (h x).mpr ⟨x, hx, le_rfl⟩
      rwa [le_antisymm hxm ((hle y hy).trans hyx)] at hx
    · obtain ⟨y, hy, hyb⟩ := (h b).mpr ⟨b, hb, le_rfl⟩
      exact (hle y hy).trans hyb

/-- **The least element of a list that reaches the bounds either of two lists reaches is the
`min` of theirs.** -/
theorem min?_eq_merge_of_exists_le {l l₁ l₂ : List α}
    (h : ∀ n, (∃ x ∈ l, x ≤ n) ↔ (∃ x ∈ l₁, x ≤ n) ∨ ∃ x ∈ l₂, x ≤ n) :
    l.min? = Option.merge min l₁.min? l₂.min? := by
  rw [← min?_append]
  refine min?_eq_of_exists_le fun n => ?_
  rw [h n]
  simp only [List.mem_append]
  constructor
  · rintro (⟨x, hx, hxn⟩ | ⟨x, hx, hxn⟩)
    · exact ⟨x, .inl hx, hxn⟩
    · exact ⟨x, .inr hx, hxn⟩
  · rintro ⟨x, hx | hx, hxn⟩
    · exact .inl ⟨x, hx, hxn⟩
    · exact .inr ⟨x, hx, hxn⟩

end Least

end GraphNode
