import Mathlib

/-!
# Searching a list from its end

`Iterator::rfind` over `iter_mut()` hands back a reference to the *last* element
satisfying a predicate; a model that later writes to that element needs its
index. `GraphNode.rfindIdx` is that index, and the lemmas below are all a
caller needs of it: the element found satisfies the predicate, nothing after it
does, and the search fails exactly when no element does.
-/

namespace GraphNode

variable {α : Type}

/-- The index of the last element of `l` satisfying `p`. -/
def rfindIdx (p : α → Bool) : List α → Option Nat
  | [] => none
  | a :: l =>
    match rfindIdx p l with
    | some i => some (i + 1)
    | none => if p a then some 0 else none

variable {p : α → Bool}

theorem rfindIdx_eq_none_iff (l : List α) : rfindIdx p l = none ↔ ∀ a ∈ l, p a = false := by
  induction l with
  | nil => simp [rfindIdx]
  | cons a l ih =>
    simp only [rfindIdx]
    rcases h : rfindIdx p l with _ | i
    · rw [ih] at h
      by_cases ha : p a
      · simp [ha]
      · simp only [ha, Bool.false_eq_true, if_false, true_iff, List.mem_cons, forall_eq_or_imp]
        exact ⟨trivial, h⟩
    · have : ¬∀ b ∈ l, p b = false := by rw [← ih, h]; simp
      simp only [reduceCtorEq, false_iff, List.mem_cons, forall_eq_or_imp, not_and]
      exact fun _ => this

/-- The element found is in range and satisfies `p`, and no later one does. -/
theorem rfindIdx_spec {l : List α} {i : Nat} (h : rfindIdx p l = some i) :
    ∃ hi : i < l.length, p l[i] = true ∧ ∀ j (hj : j < l.length), i < j → p l[j] = false := by
  induction l generalizing i with
  | nil => simp [rfindIdx] at h
  | cons a l ih =>
    simp only [rfindIdx] at h
    rcases hl : rfindIdx p l with _ | k
    · rw [hl] at h
      have hnone := (rfindIdx_eq_none_iff l).mp hl
      by_cases ha : p a
      · simp only [ha, if_true, Option.some.injEq] at h
        subst h
        refine ⟨by simp, by simpa using ha, fun j hj hij => ?_⟩
        obtain ⟨j, rfl⟩ : ∃ j', j = j' + 1 := ⟨j - 1, by omega⟩
        exact hnone _ (by simp)
      · simp [ha] at h
    · rw [hl] at h
      simp only [Option.some.injEq] at h
      subst h
      obtain ⟨hk, hpk, hafter⟩ := ih hl
      refine ⟨by simp; omega, by simpa using hpk, fun j hj hij => ?_⟩
      obtain ⟨j, rfl⟩ : ∃ j', j = j' + 1 := ⟨j - 1, by omega⟩
      simpa using hafter j (by simpa using hj) (by omega)

/-- Appending an element satisfying `p` moves the search to it. -/
theorem rfindIdx_append_of_pos (l : List α) {a : α} (ha : p a = true) :
    rfindIdx p (l ++ [a]) = some l.length := by
  induction l with
  | nil => simp [rfindIdx, ha]
  | cons b l ih => simp [rfindIdx, ih]

/-- Appending an element failing `p` leaves the search where it was. -/
theorem rfindIdx_append_of_neg (l : List α) {a : α} (ha : p a = false) :
    rfindIdx p (l ++ [a]) = rfindIdx p l := by
  induction l with
  | nil => simp [rfindIdx, ha]
  | cons b l ih => simp [rfindIdx, ih]

/-- Replacing an element by one with the same verdict leaves the search unchanged. -/
theorem rfindIdx_set (l : List α) (i : Nat) {a : α} (ha : ∀ h : i < l.length, p a = p l[i]) :
    rfindIdx p (l.set i a) = rfindIdx p l := by
  induction l generalizing i with
  | nil => simp
  | cons b l ih =>
    cases i with
    | zero => simp [rfindIdx, ha (by simp)]
    | succ i =>
      simp only [List.set_cons_succ, rfindIdx]
      rw [ih i fun h => by
        have := ha (by simpa using h)
        rwa [List.getElem_cons_succ] at this]

/-- Replacing an element keeps a list pairwise related when the new element is
related to every element before it and after it. -/
theorem pairwise_set {R : α → α → Prop} {l : List α} {i : Nat} {a : α} (hl : l.Pairwise R)
    (hbefore : ∀ j (hj : j < l.length), j < i → R l[j] a)
    (hafter : ∀ j (hj : j < l.length), i < j → R a l[j]) : (l.set i a).Pairwise R := by
  rw [List.pairwise_iff_getElem] at hl ⊢
  intro j k hj hk hjk
  simp only [List.length_set] at hj hk
  rw [List.getElem_set, List.getElem_set]
  by_cases hij : i = j
  · subst hij
    have hik : i ≠ k := by omega
    rw [if_pos rfl, if_neg hik]
    exact hafter k hk hjk
  · rw [if_neg hij]
    by_cases hik : i = k
    · subst hik
      rw [if_pos rfl]
      exact hbefore j hj hjk
    · rw [if_neg hik]
      exact hl j k hj hk hjk

/-! ### The last element satisfying a predicate

`iter().rev().find(p)` is `l.reverse.find? p`. -/

/-- Appending an element: it is the last one satisfying `p` if it does. -/
theorem find?_reverse_append_singleton (l : List α) (a : α) :
    (l ++ [a]).reverse.find? p = if p a then some a else l.reverse.find? p := by
  cases h : p a <;> simp [h]

/-- Replacing an element by one that fails `p`, like the one replaced, changes
nothing. -/
theorem find?_reverse_set_of_false (l : List α) (i : Nat) {a : α} (ha : p a = false)
    (hi : ∀ h : i < l.length, p l[i] = false) :
    (l.set i a).reverse.find? p = l.reverse.find? p := by
  induction l generalizing i with
  | nil => simp
  | cons b l ih =>
    cases i with
    | zero =>
      have hb : p b = false := hi (by simp)
      simp [List.find?_append, ha, hb]
    | succ i =>
      simp only [List.set_cons_succ, List.reverse_cons, List.find?_append]
      rw [ih i fun h => by
        have := hi (by simpa using h)
        rwa [List.getElem_cons_succ] at this]

/-- When nothing after index `i` satisfies `p`, the last element of `l.set i a`
satisfying `p` is `a` if it does, and otherwise the last one before `i`. -/
theorem find?_reverse_set {l : List α} {i : Nat} (a : α) (hi : i < l.length)
    (hafter : ∀ j (hj : j < l.length), i < j → p l[j] = false) :
    (l.set i a).reverse.find? p = if p a then some a else (l.take i).reverse.find? p := by
  have hnone : (l.drop (i + 1)).reverse.find? p = none := by
    rw [List.find?_eq_none]
    intro x hx
    rw [List.mem_reverse, List.mem_drop_iff_getElem] at hx
    obtain ⟨j, hj, rfl⟩ := hx
    simp [hafter (j + (i + 1)) hj (by omega), Nat.add_comm]
  rw [List.set_eq_take_append_cons_drop, if_pos hi, List.reverse_append, List.reverse_cons,
    List.find?_append, List.find?_append, hnone, Option.none_or]
  cases h : p a <;> simp [h]

/-- The same, read on `l` itself. -/
theorem find?_reverse_of_after {l : List α} {i : Nat} (hi : i < l.length)
    (hafter : ∀ j (hj : j < l.length), i < j → p l[j] = false) :
    l.reverse.find? p = if p l[i] then some l[i] else (l.take i).reverse.find? p := by
  conv_lhs => rw [← List.set_getElem_self hi]
  exact find?_reverse_set _ hi hafter

/-! ### Pieces of a list -/

/-- `slice::chunks(n)`: consecutive pieces of `n` elements, the last one possibly
shorter. (`chunks(0)` panics in Rust; it is taken as `chunks(1)` here.) -/
def chunks (n : Nat) : List α → List (List α)
  | [] => []
  | a :: l => (a :: l).take (max n 1) :: chunks n ((a :: l).drop (max n 1))
termination_by l => l.length
decreasing_by simp only [List.length_drop, List.length_cons]; omega

/-- The pieces put together are the list. -/
theorem flatten_chunks (n : Nat) (l : List α) : (chunks n l).flatten = l := by
  induction l using chunks.induct n with
  | case1 => simp [chunks]
  | case2 a l ih => rw [chunks, List.flatten_cons, ih, List.take_append_drop]

/-- A nonempty list of at most `n` elements is one piece. -/
theorem chunks_of_length_le {n : Nat} {l : List α} (hl : l ≠ []) (hlen : l.length ≤ max n 1) :
    chunks n l = [l] := by
  obtain ⟨a, l, rfl⟩ := List.exists_cons_of_ne_nil hl
  rw [chunks, List.take_of_length_le hlen, List.drop_of_length_le hlen, chunks]

/-- A full first piece is split off whatever follows it. -/
theorem chunks_append_of_length_eq {n : Nat} {l : List α} (r : List α) (hl : l ≠ [])
    (hlen : l.length = max n 1) : chunks n (l ++ r) = l :: chunks n r := by
  obtain ⟨a, l', rfl⟩ := List.exists_cons_of_ne_nil hl
  rw [List.cons_append, chunks, ← List.cons_append, List.take_left' hlen, List.drop_left' hlen]

/-- Every piece is nonempty and holds at most `n` elements. -/
theorem length_of_mem_chunks {n : Nat} {l c : List α} (hc : c ∈ chunks n l) :
    c ≠ [] ∧ c.length ≤ max n 1 := by
  induction l using chunks.induct n with
  | case1 => simp [chunks] at hc
  | case2 a l ih =>
    rw [chunks, List.mem_cons] at hc
    rcases hc with rfl | hc
    · exact ⟨by simp [List.take_cons (by omega : 0 < max n 1)], List.length_take_le _ _⟩
    · exact ih hc

/-- An element is in some piece exactly when it is in the list. -/
theorem exists_mem_chunks_iff (n : Nat) (l : List α) (a : α) :
    (∃ c ∈ chunks n l, a ∈ c) ↔ a ∈ l := by
  conv_rhs => rw [← flatten_chunks n l]
  exact List.mem_flatten.symm

/-! ### The last maximum of a key

`Iterator::max_by_key` keeps the element it holds only while every later one has
a strictly smaller key, so it returns the *last* element of maximal key. -/

section MaxByKey

variable {β : Type} [LinearOrder β] (f : α → β)

/-- One step of `Iterator::max_by_key`: ties go to the later element. -/
def maxByKeyStep : Option α → α → Option α
  | none, a => some a
  | some m, a => if f a < f m then some m else some a

/-- `Iterator::max_by_key` over a list. -/
def maxByKey (l : List α) : Option α := l.foldl (maxByKeyStep f) none

variable {f}

/-- A step yields the new element or the one held, with the larger key of the two. -/
theorem maxByKeyStep_spec (acc : Option α) (a : α) :
    ∃ m, maxByKeyStep f acc a = some m ∧ (m = a ∨ acc = some m) ∧ f a ≤ f m ∧
      ∀ m₀, acc = some m₀ → f m₀ ≤ f m := by
  cases acc with
  | none => exact ⟨a, rfl, .inl rfl, le_rfl, by simp⟩
  | some m₀ =>
    by_cases h : f a < f m₀
    · exact ⟨m₀, by simp [maxByKeyStep, h], .inr rfl, h.le, by simp⟩
    · exact ⟨a, by simp [maxByKeyStep, h], .inl rfl, le_rfl, by simpa using h⟩

/-- The fold ends on an element it was given, of key at least every other one. -/
theorem foldl_maxByKeyStep_spec (l : List α) (acc : Option α) {m : α}
    (h : l.foldl (maxByKeyStep f) acc = some m) :
    (m ∈ l ∨ acc = some m) ∧ (∀ a ∈ l, f a ≤ f m) ∧
      ∀ m₀, acc = some m₀ → f m₀ ≤ f m := by
  induction l generalizing acc with
  | nil =>
    refine ⟨.inr h, by simp, fun m₀ h₀ => ?_⟩
    rw [List.foldl_nil, h₀, Option.some.injEq] at h
    rw [h]
  | cons a l ih =>
    obtain ⟨m₁, hm₁, hm₁a, ha, hacc⟩ := maxByKeyStep_spec (f := f) acc a
    rw [List.foldl_cons, hm₁] at h
    obtain ⟨hmem, hle, hm⟩ := ih (some m₁) h
    refine ⟨?_, ?_, fun m₀ h₀ => (hacc m₀ h₀).trans (hm m₁ rfl)⟩
    · rcases hmem with hmem | hmem
      · exact .inl (List.mem_cons_of_mem a hmem)
      · cases hmem
        rcases hm₁a with rfl | hm₁a
        · exact .inl List.mem_cons_self
        · exact .inr hm₁a
    · rintro b (_ | ⟨_, hb⟩)
      · exact ha.trans (hm m₁ rfl)
      · exact hle b hb

/-- **What `max_by_key` returns**: an element of the list whose key is maximal. -/
theorem maxByKey_spec {l : List α} {m : α} (h : maxByKey f l = some m) :
    m ∈ l ∧ ∀ a ∈ l, f a ≤ f m := by
  obtain ⟨hmem, hle, -⟩ := foldl_maxByKeyStep_spec l none h
  exact ⟨hmem.resolve_right (by simp), hle⟩

/-- `max_by_key` of a nonempty list returns an element. -/
theorem maxByKey_ne_none {l : List α} (hl : l ≠ []) : maxByKey f l ≠ none := by
  obtain ⟨a, l, rfl⟩ := List.exists_cons_of_ne_nil hl
  obtain ⟨m, hm, -⟩ := maxByKeyStep_spec (f := f) none a
  have hsome : ∀ (l : List α) (m : α), l.foldl (maxByKeyStep f) (some m) ≠ none := by
    intro l
    induction l with
    | nil => simp
    | cons b l ih =>
      intro m
      obtain ⟨m', hm', -⟩ := maxByKeyStep_spec (f := f) (some m) b
      rw [List.foldl_cons, hm']
      exact ih m'
  rw [maxByKey, List.foldl_cons, hm]
  exact hsome l m

end MaxByKey

/-! ### Ordered maps

A `BTreeMap` is modelled by the list of its entries in increasing key order
(`OrdMap.Sorted`); below are the operations the models take from it. -/

namespace OrdMap

variable {K V : Type} [LinearOrder K]

/-- The entries are in strictly increasing key order. -/
def Sorted (m : List (K × V)) : Prop := m.Pairwise fun a b => a.1 < b.1

/-- `BTreeMap::entry(k)` with its update: `f none` goes in at a vacant key, and `f (some v)`
replaces the value `v` of an occupied one. -/
def alter (k : K) (f : Option V → V) : List (K × V) → List (K × V)
  | [] => [(k, f none)]
  | (k', v) :: m =>
    if k < k' then (k, f none) :: (k', v) :: m
    else if k = k' then (k', f (some v)) :: m
    else (k', v) :: alter k f m

/-- `BTreeMap::get`. -/
def lookup (k : K) (m : List (K × V)) : Option V := (m.find? (·.1 = k)).map (·.2)

/-- `BTreeMap::split_off(k)`: the entries below `k`, which stay, and those at or above it,
which are returned. -/
def splitOff (k : K) (m : List (K × V)) : List (K × V) × List (K × V) :=
  (m.filter (·.1 < k), m.filter (k ≤ ·.1))

end OrdMap

/-! ### Splitting a list at an index -/

/-- A list is its elements before `i`, its `i`-th element and those after. -/
theorem eq_take_append_getElem_cons_drop {l : List α} {i : Nat} (hi : i < l.length) :
    l = l.take i ++ l[i] :: l.drop (i + 1) := by
  conv_lhs => rw [← List.take_append_drop i l, List.drop_eq_getElem_cons hi]

/-- Replacing the `i`-th element, split the same way. -/
theorem set_eq_take_append_cons_drop' {l : List α} {i : Nat} (hi : i < l.length) (a : α) :
    l.set i a = l.take i ++ a :: l.drop (i + 1) := by
  rw [List.set_eq_take_append_cons_drop, if_pos hi]

/-! ### Chains with a gap -/

/-- A sum over the elements of a list that satisfy a predicate is at most the sum over all. -/
theorem sum_map_filter_le (p : α → Bool) (f : α → Nat) (l : List α) :
    ((l.filter p).map f).sum ≤ (l.map f).sum :=
  (List.filter_sublist.map f).sum_le_sum fun _ _ => Nat.zero_le _

/-- A sum over a list, split by the values of a key: the sum, over each value, of the sum over
the elements of that key. -/
theorem sum_map_eq_sum_fibers {n : Nat} (key : α → Fin n) (w : α → Nat) :
    ∀ l : List α, (l.map w).sum = ∑ i, ((l.filter fun x => key x = i).map w).sum
  | [] => by simp
  | x :: l => by
    have ih := sum_map_eq_sum_fibers key w l
    -- the head lands in the fibre of its own key only
    have hx : ∑ i, (if key x = i then w x else 0) = w x := by
      rw [Finset.sum_ite_eq]
      simp
    simp only [List.map_cons, List.sum_cons, List.filter_cons, decide_eq_true_eq]
    calc w x + (l.map w).sum
        = ∑ i, (if key x = i then w x else 0) +
            ∑ i, ((l.filter fun x => key x = i).map w).sum := by rw [hx, ih]
      _ = ∑ i, ((if key x = i then x :: l.filter (fun x => key x = i) else
            l.filter fun x => key x = i).map w).sum := by
          rw [← Finset.sum_add_distrib]
          refine Finset.sum_congr rfl fun i _ => ?_
          split_ifs <;> simp

end GraphNode
