import Mathlib

/-!
# A priority queue of keyed items

The `priority_queue` crate keeps items with priorities, and two items are one item when their
keys agree (`Eq` and `Hash` of an item may look at a key only). A queue is read here as the list
of its items with their priorities. The crate documents what each operation does to the items
and their priorities, not where they sit in its heap or its map, so the operations are a
parameter (`Ops`), and what the crate documents of each is a law of it, up to the order of the
list:

* `get` answers the item of a key, if there is one (`get_eq_none_iff`, `mem_of_get_eq_some`);
* `modify` changes the item of a key in place without changing its key, as `change_priority`,
  `change_priority_by` and a write through `get_mut` do (`modify_perm`);
* `push` of an item whose key is there only gives that item the new priority, and the item it
  holds stays (`push_of_get_some`); another item is added (`push_of_get_none`);
* `pop` answers an item that no other item outranks, and the other items (`pop_spec`), and it
  answers nothing on the empty queue only (`pop_eq_none_iff`);
* `extend` pushes each pair in turn (`extend_perm`).

Over queues whose keys are distinct (`KeysNodup`), the lemmas of `Ops` say which item a key has
after an operation and how a weight summed over the items (`sumBy`) moves. `listOps` meets the
laws on plain lists, its `pop` taking the first item of greatest priority.
-/

namespace GraphNode

namespace PriorityQueue

variable {κ I P : Type} [DecidableEq κ] (key : I → κ)

/-! ### Items of a list -/

/-- `f` applied to the item of the key `k`, in place. -/
def update (q : List (I × P)) (k : κ) (f : I × P → I × P) : List (I × P) :=
  q.map fun x => if key x.1 = k then f x else x

/-- The keys of the items are distinct. -/
def KeysNodup (q : List (I × P)) : Prop := (q.map fun x => key x.1).Nodup

/-- A weight summed over the items. -/
def sumBy (w : I → Nat) (q : List (I × P)) : Nat := (q.map fun x => w x.1).sum

variable (P) in
/-- The operations of a priority queue on the list of its items with their priorities, with
what the crate documents of each. -/
structure Ops [LE P] where
  get : List (I × P) → κ → Option (I × P)
  modify : List (I × P) → κ → (I × P → I × P) → List (I × P)
  push : List (I × P) → I → P → List (I × P)
  pop : List (I × P) → Option ((I × P) × List (I × P))
  extend : List (I × P) → List (I × P) → List (I × P)
  get_eq_none_iff : ∀ q k, get q k = none ↔ ∀ x ∈ q, key x.1 ≠ k
  mem_of_get_eq_some : ∀ {q k x}, get q k = some x → x ∈ q ∧ key x.1 = k
  modify_perm : ∀ q k f, (∀ x, key (f x).1 = key x.1) → (modify q k f).Perm (update key q k f)
  push_of_get_none : ∀ {q item} p, get q (key item) = none → (push q item p).Perm ((item, p) :: q)
  push_of_get_some : ∀ {q item x} p, get q (key item) = some x →
    (push q item p).Perm (update key q (key item) fun y => (y.1, p))
  pop_eq_none_iff : ∀ q, pop q = none ↔ q = []
  pop_spec : ∀ {q x q'}, pop q = some (x, q') → (∀ y ∈ q, y.2 ≤ x.2) ∧ q.Perm (x :: q')
  extend_perm : ∀ q items, (extend q items).Perm (items.foldl (fun q x => push q x.1 x.2) q)

variable {key}

/-! ### Keys and weights -/

omit [DecidableEq κ] in
theorem KeysNodup.of_perm {q q' : List (I × P)} (h : KeysNodup key q) (hp : q'.Perm q) :
    KeysNodup key q' :=
  (hp.map _).nodup_iff.mpr h

omit [DecidableEq κ] in
/-- Two items of a queue with distinct keys that have one key are one item. -/
theorem KeysNodup.eq_of_key_eq {q : List (I × P)} (h : KeysNodup key q) {x y : I × P}
    (hx : x ∈ q) (hy : y ∈ q) (hk : key x.1 = key y.1) : x = y :=
  List.inj_on_of_nodup_map h hx hy hk

omit [DecidableEq κ] in
theorem keysNodup_cons {x : I × P} {q : List (I × P)} :
    KeysNodup key (x :: q) ↔ (∀ y ∈ q, key y.1 ≠ key x.1) ∧ KeysNodup key q := by
  unfold KeysNodup
  rw [List.map_cons, List.nodup_cons, List.mem_map]
  constructor
  · rintro ⟨hx, hq⟩
    exact ⟨fun y hy hk => hx ⟨y, hy, hk⟩, hq⟩
  · rintro ⟨hx, hq⟩
    exact ⟨fun ⟨y, hy, hk⟩ => hx y hy hk, hq⟩

omit [DecidableEq κ] in
theorem KeysNodup.of_perm_cons {q q' : List (I × P)} {x : I × P} (h : KeysNodup key q)
    (hp : q.Perm (x :: q')) : KeysNodup key q' :=
  (keysNodup_cons.mp (h.of_perm hp.symm)).2

theorem sumBy_of_perm (w : I → Nat) {q q' : List (I × P)} (hp : q'.Perm q) :
    sumBy w q' = sumBy w q :=
  (hp.map _).sum_eq

theorem sumBy_of_perm_cons (w : I → Nat) {q q' : List (I × P)} {x : I × P}
    (hp : q.Perm (x :: q')) : sumBy w q = w x.1 + sumBy w q' := by
  rw [sumBy_of_perm w hp]
  simp [sumBy]

theorem le_sumBy {w : I → Nat} {q : List (I × P)} {x : I × P} (hx : x ∈ q) :
    w x.1 ≤ sumBy w q :=
  List.le_sum_of_mem (List.mem_map.mpr ⟨x, hx, rfl⟩)

/-! ### `update` -/

/-- Updating keeps the keys, where `f` keeps the key. -/
theorem map_key_update {q : List (I × P)} {k : κ} {f : I × P → I × P}
    (hf : ∀ x, key (f x).1 = key x.1) :
    (update key q k f).map (fun x => key x.1) = q.map fun x => key x.1 := by
  unfold update
  rw [List.map_map]
  exact List.map_congr_left fun x _ => by by_cases hx : key x.1 = k <;> simp [hx, hf]

theorem mem_update {q : List (I × P)} {k : κ} {f : I × P → I × P} {y : I × P}
    (hy : y ∈ update key q k f) : ∃ x ∈ q, y = if key x.1 = k then f x else x := by
  obtain ⟨x, hx, rfl⟩ := List.mem_map.mp hy
  exact ⟨x, hx, rfl⟩

/-- Where no item has the key, updating it changes nothing. -/
theorem update_eq_self {q : List (I × P)} {k : κ} (f : I × P → I × P)
    (h : ∀ x ∈ q, key x.1 ≠ k) : update key q k f = q := by
  unfold update
  conv => rhs; rw [← List.map_id q]
  exact List.map_congr_left fun x hx => if_neg (h x hx)

theorem sumBy_update_of_weight {w : I → Nat} {q : List (I × P)} {k : κ} {f : I × P → I × P}
    (hw : ∀ x, w (f x).1 = w x.1) : sumBy w (update key q k f) = sumBy w q := by
  unfold sumBy update
  rw [List.map_map]
  congr 1
  exact List.map_congr_left fun x _ => by by_cases hx : key x.1 = k <;> simp [hx, hw]

/-- **Updating the one item of a key** trades its weight for that of the updated item. -/
theorem sumBy_update_add {w : I → Nat} {q : List (I × P)} (h : KeysNodup key q) {x : I × P}
    (hx : x ∈ q) (f : I × P → I × P) :
    sumBy w (update key q (key x.1) f) + w x.1 = sumBy w q + w (f x).1 := by
  -- move the item of the key to the front: no other item has its key
  obtain ⟨s, t, rfl⟩ := List.append_of_mem hx
  have hq : (s ++ x :: t).Perm (x :: (s ++ t)) := List.perm_middle
  have hrest : ∀ y ∈ s ++ t, key y.1 ≠ key x.1 := (keysNodup_cons.mp (h.of_perm hq.symm)).1
  have hu : (update key (s ++ x :: t) (key x.1) f).Perm (f x :: (s ++ t)) := by
    have hid : (s ++ t).map (fun y => if key y.1 = key x.1 then f y else y) = s ++ t :=
      update_eq_self f hrest
    have := hq.map fun y => if key y.1 = key x.1 then f y else y
    rw [List.map_cons, if_pos rfl, hid] at this
    exact this
  rw [sumBy_of_perm_cons w hu, sumBy_of_perm_cons w hq]
  omega

/-! ### What the laws give -/

namespace Ops

variable [LE P] (pq : Ops P key)

/-- Over distinct keys, `get` answers the one item of the key. -/
theorem get_eq_some_iff {q : List (I × P)} (h : KeysNodup key q) {k : κ} {x : I × P} :
    pq.get q k = some x ↔ x ∈ q ∧ key x.1 = k := by
  constructor
  · exact pq.mem_of_get_eq_some
  · rintro ⟨hx, rfl⟩
    cases hg : pq.get q (key x.1) with
    | none => exact absurd rfl ((pq.get_eq_none_iff q _).mp hg x hx)
    | some y =>
      obtain ⟨hy, hk⟩ := pq.mem_of_get_eq_some hg
      rw [h.eq_of_key_eq hy hx hk]

theorem mem_modify {q : List (I × P)} {k : κ} {f : I × P → I × P}
    (hf : ∀ x, key (f x).1 = key x.1) {y : I × P} (hy : y ∈ pq.modify q k f) :
    ∃ x ∈ q, y = if key x.1 = k then f x else x :=
  mem_update ((pq.modify_perm q k f hf).mem_iff.mp hy)

/-- An item of another key after `modify` was there before. -/
theorem mem_of_mem_modify {q : List (I × P)} {k : κ} {f : I × P → I × P}
    (hf : ∀ x, key (f x).1 = key x.1) {y : I × P} (hy : y ∈ pq.modify q k f)
    (hk : key y.1 ≠ k) : y ∈ q := by
  obtain ⟨x, hx, rfl⟩ := pq.mem_modify hf hy
  by_cases hxk : key x.1 = k
  · rw [if_pos hxk, hf] at hk
    exact absurd hxk hk
  · rw [if_neg hxk]
    exact hx

theorem keysNodup_modify {q : List (I × P)} (h : KeysNodup key q) {k : κ}
    {f : I × P → I × P} (hf : ∀ x, key (f x).1 = key x.1) : KeysNodup key (pq.modify q k f) := by
  refine KeysNodup.of_perm ?_ (pq.modify_perm q k f hf)
  unfold KeysNodup
  rw [map_key_update hf]
  exact h

/-- Modifying leaves the weights alone where `f` keeps the weight. -/
theorem sumBy_modify_of_weight {w : I → Nat} {q : List (I × P)} {k : κ} {f : I × P → I × P}
    (hf : ∀ x, key (f x).1 = key x.1) (hw : ∀ x, w (f x).1 = w x.1) :
    sumBy w (pq.modify q k f) = sumBy w q := by
  rw [sumBy_of_perm w (pq.modify_perm q k f hf), sumBy_update_of_weight hw]

/-- **Modifying the one item of a key** trades its weight for that of the modified item. -/
theorem sumBy_modify_add {w : I → Nat} {q : List (I × P)} (h : KeysNodup key q) {k : κ}
    {x : I × P} (hx : pq.get q k = some x) {f : I × P → I × P}
    (hf : ∀ x, key (f x).1 = key x.1) :
    sumBy w (pq.modify q k f) + w x.1 = sumBy w q + w (f x).1 := by
  obtain ⟨hmem, rfl⟩ := pq.mem_of_get_eq_some hx
  rw [sumBy_of_perm w (pq.modify_perm q _ f hf)]
  exact sumBy_update_add h hmem f

/-- The item of a key after modifying it is the modified item. -/
theorem get_modify {q : List (I × P)} (h : KeysNodup key q) {k : κ} {f : I × P → I × P}
    (hf : ∀ x, key (f x).1 = key x.1) : pq.get (pq.modify q k f) k = (pq.get q k).map f := by
  have h' := pq.keysNodup_modify h (k := k) hf
  cases hg : pq.get q k with
  | none =>
    -- no item has the key, before or after
    rw [Option.map_none, pq.get_eq_none_iff]
    intro y hy hk
    obtain ⟨x, hx, rfl⟩ := pq.mem_modify hf hy
    have hxk : key x.1 ≠ k := (pq.get_eq_none_iff q k).mp hg x hx
    rw [if_neg hxk] at hk
    exact hxk hk
  | some x =>
    obtain ⟨hx, hk⟩ := pq.mem_of_get_eq_some hg
    rw [Option.map_some, pq.get_eq_some_iff h']
    refine ⟨(pq.modify_perm q k f hf).mem_iff.mpr (List.mem_map.mpr ⟨x, hx, ?_⟩), ?_⟩
    · rw [if_pos hk]
    · rw [hf, hk]

theorem length_lt_of_pop {q q' : List (I × P)} {x : I × P} (h : pq.pop q = some (x, q')) :
    q'.length < q.length := by
  rw [(pq.pop_spec h).2.length_eq, List.length_cons]
  exact Nat.lt_succ_self _

/-- The one item of a queue is the one `pop` takes. -/
theorem pop_singleton (x : I × P) : pq.pop [x] = some (x, []) := by
  cases hp : pq.pop [x] with
  | none => exact absurd ((pq.pop_eq_none_iff _).mp hp) (List.cons_ne_nil x [])
  | some r =>
    obtain ⟨y, q'⟩ := r
    obtain ⟨rfl, rfl⟩ := List.cons.inj (List.singleton_perm.mp (pq.pop_spec hp).2)
    rfl

/-- On the empty queue, `push` adds the item. -/
theorem push_nil (item : I) (p : P) : pq.push [] item p = [(item, p)] :=
  List.perm_singleton.mp (pq.push_of_get_none p ((pq.get_eq_none_iff _ _).mpr nofun))

/-- On the empty queue, `modify` has nothing to change. -/
theorem modify_nil (k : κ) {f : I × P → I × P} (hf : ∀ x, key (f x).1 = key x.1) :
    pq.modify [] k f = [] :=
  (List.Perm.nil_eq (pq.modify_perm [] k f hf).symm).symm

/-- Extending the empty queue by one pair gives the queue of that pair. -/
theorem extend_nil_singleton (x : I × P) : pq.extend [] [x] = [x] := by
  have h : (pq.extend [] [x]).Perm (pq.push [] x.1 x.2) := pq.extend_perm [] [x]
  rw [pq.push_nil] at h
  exact List.perm_singleton.mp h

end Ops

/-! ### An implementation on lists -/

section OnLists

variable (key)

/-- `get` on a list: the first item of the key. -/
def listGet (q : List (I × P)) (k : κ) : Option (I × P) :=
  q.find? fun x => key x.1 = k

/-- `push` on a list: the priority of the item of the key changes, or the item goes last. -/
def listPush (q : List (I × P)) (item : I) (p : P) : List (I × P) :=
  match listGet key q (key item) with
  | some _ => update key q (key item) fun x => (x.1, p)
  | none => q ++ [(item, p)]

variable {key}

theorem listGet_eq_none_iff {q : List (I × P)} {k : κ} :
    listGet key q k = none ↔ ∀ x ∈ q, key x.1 ≠ k := by
  simp [listGet]

theorem mem_of_listGet_eq_some {q : List (I × P)} {k : κ} {x : I × P}
    (h : listGet key q k = some x) : x ∈ q ∧ key x.1 = k :=
  ⟨List.mem_of_find?_eq_some h, by simpa using List.find?_some h⟩

variable [LE P] [DecidableLE P] [Std.Total (fun a b : P => a ≤ b)] [IsTrans P (· ≤ ·)]

omit [DecidableLE P] in
/-- A nonempty queue has an item that no item outranks. -/
theorem exists_forall_le : ∀ {q : List (I × P)}, q ≠ [] → ∃ x ∈ q, ∀ y ∈ q, y.2 ≤ x.2
  | [], h => absurd rfl h
  | [x], _ => ⟨x, List.mem_singleton_self x, fun y hy => by
      rw [List.mem_singleton.mp hy]
      exact (total_of (· ≤ ·) x.2 x.2).elim id id⟩
  | x :: y :: q, _ => by
    obtain ⟨m, hm, hmax⟩ := exists_forall_le (List.cons_ne_nil y q)
    rcases total_of (· ≤ ·) x.2 m.2 with hxm | hmx
    · -- the greatest of the tail outranks the head too
      refine ⟨m, List.mem_cons_of_mem _ hm, fun z hz => ?_⟩
      rcases List.mem_cons.mp hz with rfl | hz
      · exact hxm
      · exact hmax z hz
    · refine ⟨x, List.mem_cons_self, fun z hz => ?_⟩
      rcases List.mem_cons.mp hz with rfl | hz
      · exact (total_of (· ≤ ·) z.2 z.2).elim id id
      · exact trans_of (· ≤ ·) (hmax z hz) hmx

/-- The index of the first item that no item outranks. -/
def firstMax (q : List (I × P)) : Nat :=
  q.findIdx fun x => q.all fun y => decide (y.2 ≤ x.2)

theorem firstMax_lt {q : List (I × P)} (hq : q ≠ []) : firstMax q < q.length := by
  obtain ⟨x, hx, hmax⟩ := exists_forall_le hq
  exact List.findIdx_lt_length_of_exists ⟨x, hx, by simpa using hmax⟩

theorem le_firstMax {q : List (I × P)} (hq : q ≠ []) :
    ∀ y ∈ q, y.2 ≤ (q.get ⟨firstMax q, firstMax_lt hq⟩).2 := by
  intro y hy
  have hall : (q.all fun z => decide (z.2 ≤ (q.get ⟨firstMax q, firstMax_lt hq⟩).2)) = true :=
    List.findIdx_getElem (w := firstMax_lt hq)
  exact of_decide_eq_true (List.all_eq_true.mp hall y hy)

/-- `pop` on a list: the first item of greatest priority. -/
def listPop (q : List (I × P)) : Option ((I × P) × List (I × P)) :=
  if h : q = [] then none else some (q.get ⟨firstMax q, firstMax_lt h⟩, q.eraseIdx (firstMax q))

theorem listPop_spec {q q' : List (I × P)} {x : I × P} (h : listPop q = some (x, q')) :
    (∀ y ∈ q, y.2 ≤ x.2) ∧ q.Perm (x :: q') := by
  unfold listPop at h
  split at h
  · simp at h
  · rename_i hq
    obtain ⟨rfl, rfl⟩ := Prod.mk.inj (Option.some.inj h)
    exact ⟨le_firstMax hq, by simpa using (List.getElem_cons_eraseIdx_perm (firstMax_lt hq)).symm⟩

variable (key)

/-- **The operations on plain lists**, `pop` taking the first item of greatest priority. -/
def listOps : Ops P key where
  get := listGet key
  modify := update key
  push := listPush key
  pop := listPop
  extend q items := items.foldl (fun q x => listPush key q x.1 x.2) q
  get_eq_none_iff _ _ := listGet_eq_none_iff
  mem_of_get_eq_some := mem_of_listGet_eq_some
  modify_perm _ _ _ _ := List.Perm.refl _
  push_of_get_none p h := by
    rw [listPush, h]
    exact List.perm_append_singleton _ _
  push_of_get_some p h := by rw [listPush, h]
  pop_eq_none_iff q := by
    unfold listPop
    split <;> simp_all
  pop_spec := listPop_spec
  extend_perm _ _ := List.Perm.refl _

end OnLists

end PriorityQueue

end GraphNode
