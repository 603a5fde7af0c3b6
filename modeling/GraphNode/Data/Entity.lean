import Mathlib

/-!
# Entities, their values and their keys

The data model shared by the write path, the read path and the entity cache of
the store: a `GraphNode.Value` is what an attribute holds, an
`GraphNode.Entity` maps attribute names to values, and an
`GraphNode.EntityKey` names one entity by its type, its id and the causality
region of the data source that created it.

An entity is stored in the code as an `Object<Value>`, a vector of interned
attribute names with their values. What the store and the cache read of it is a
finite map: `get`, `insert` replacing the value of an attribute already there,
`remove`, and the two merges of an update into an entity. So an entity is
modelled here as an association list whose names are pairwise distinct – the
structure carries that fact, and every operation keeps it – and every
operation comes with its **pointwise specification**, the value `get` returns
for any name afterwards. Everything later about entities is proved from those
specifications alone.

Interning is not modelled: every name an entity of the schema uses is in the
pool, so `Object::insert` never fails on them.
-/

namespace GraphNode

/-! ### Values -/

/-- A block number; `i32` in the code, whose block numbers never reach the ends
of its range. -/
abbrev BlockNumber := Int

/-- The largest block number, `i32::MAX`: queries at this block see the current
version of every entity. -/
def BLOCK_NUMBER_MAX : BlockNumber := 2147483647

/-- An attribute name. -/
abbrev Word := String

/-- The value of an attribute (`store::Value`). A big decimal is its digits and
its scale, as `bigdecimal` keeps it (always normalized by the code); a
timestamp is its microseconds since the epoch. -/
inductive Value where
  | string (s : String)
  | int (i : Int)
  | int8 (i : Int)
  | timestamp (micros : Int)
  | bigDecimal (digits : Int) (scale : Int)
  | bool (b : Bool)
  | list (vs : List Value)
  | null
  | bytes (bs : List UInt8)
  | bigInt (i : Int)
deriving Repr

namespace Value

mutual

/-- Equality of values is decidable; the derived handler does not reach through
the list of a `List` value, so the two recursions are written out. -/
def decEq : (a b : Value) → Decidable (a = b)
  | .string s, .string t => if h : s = t then isTrue (h ▸ rfl) else isFalse (by simp [h])
  | .int i, .int j => if h : i = j then isTrue (h ▸ rfl) else isFalse (by simp [h])
  | .int8 i, .int8 j => if h : i = j then isTrue (h ▸ rfl) else isFalse (by simp [h])
  | .timestamp i, .timestamp j => if h : i = j then isTrue (h ▸ rfl) else isFalse (by simp [h])
  | .bigDecimal d s, .bigDecimal d' s' =>
    if h : d = d' ∧ s = s' then isTrue (h.1 ▸ h.2 ▸ rfl) else isFalse (by simpa using h)
  | .bool b, .bool c => if h : b = c then isTrue (h ▸ rfl) else isFalse (by simp [h])
  | .list as, .list bs =>
    match decEqList as bs with
    | isTrue h => isTrue (h ▸ rfl)
    | isFalse h => isFalse (fun he => h (Value.list.inj he))
  | .null, .null => isTrue rfl
  | .bytes b, .bytes c => if h : b = c then isTrue (h ▸ rfl) else isFalse (by simp [h])
  | .bigInt i, .bigInt j => if h : i = j then isTrue (h ▸ rfl) else isFalse (by simp [h])
  -- two different constructors
  | .string .., .int .. | .string .., .int8 .. | .string .., .timestamp ..
  | .string .., .bigDecimal .. | .string .., .bool .. | .string .., .list ..
  | .string .., .null | .string .., .bytes .. | .string .., .bigInt .. | .int .., .string ..
  | .int .., .int8 .. | .int .., .timestamp .. | .int .., .bigDecimal .. | .int .., .bool ..
  | .int .., .list .. | .int .., .null | .int .., .bytes .. | .int .., .bigInt ..
  | .int8 .., .string .. | .int8 .., .int .. | .int8 .., .timestamp ..
  | .int8 .., .bigDecimal .. | .int8 .., .bool .. | .int8 .., .list .. | .int8 .., .null
  | .int8 .., .bytes .. | .int8 .., .bigInt .. | .timestamp .., .string ..
  | .timestamp .., .int .. | .timestamp .., .int8 .. | .timestamp .., .bigDecimal ..
  | .timestamp .., .bool .. | .timestamp .., .list .. | .timestamp .., .null
  | .timestamp .., .bytes .. | .timestamp .., .bigInt .. | .bigDecimal .., .string ..
  | .bigDecimal .., .int .. | .bigDecimal .., .int8 .. | .bigDecimal .., .timestamp ..
  | .bigDecimal .., .bool .. | .bigDecimal .., .list .. | .bigDecimal .., .null
  | .bigDecimal .., .bytes .. | .bigDecimal .., .bigInt .. | .bool .., .string ..
  | .bool .., .int .. | .bool .., .int8 .. | .bool .., .timestamp .. | .bool .., .bigDecimal ..
  | .bool .., .list .. | .bool .., .null | .bool .., .bytes .. | .bool .., .bigInt ..
  | .list .., .string .. | .list .., .int .. | .list .., .int8 .. | .list .., .timestamp ..
  | .list .., .bigDecimal .. | .list .., .bool .. | .list .., .null | .list .., .bytes ..
  | .list .., .bigInt .. | .null, .string .. | .null, .int .. | .null, .int8 ..
  | .null, .timestamp .. | .null, .bigDecimal .. | .null, .bool .. | .null, .list ..
  | .null, .bytes .. | .null, .bigInt .. | .bytes .., .string .. | .bytes .., .int ..
  | .bytes .., .int8 .. | .bytes .., .timestamp .. | .bytes .., .bigDecimal ..
  | .bytes .., .bool .. | .bytes .., .list .. | .bytes .., .null | .bytes .., .bigInt ..
  | .bigInt .., .string .. | .bigInt .., .int .. | .bigInt .., .int8 ..
  | .bigInt .., .timestamp .. | .bigInt .., .bigDecimal .. | .bigInt .., .bool ..
  | .bigInt .., .list .. | .bigInt .., .null | .bigInt .., .bytes .. =>
    isFalse (fun h => Value.noConfusion h)

/-- Equality of lists of values. -/
def decEqList : (as bs : List Value) → Decidable (as = bs)
  | [], [] => isTrue rfl
  | [], _ :: _ => isFalse (by simp)
  | _ :: _, [] => isFalse (by simp)
  | a :: as, b :: bs =>
    match decEq a b, decEqList as bs with
    | isTrue h, isTrue h' => isTrue (h ▸ h' ▸ rfl)
    | isFalse h, _ => isFalse (fun he => h (List.cons.inj he).1)
    | _, isFalse h' => isFalse (fun he => h' (List.cons.inj he).2)

end

instance : DecidableEq Value := decEq

/-- `Value::is_null`. -/
def isNull : Value → Bool
  | .null => true
  | _ => false

@[simp] theorem isNull_null : isNull .null = true := rfl

theorem isNull_iff (v : Value) : v.isNull = true ↔ v = .null := by
  cases v <;> simp [isNull]

end Value

/-- The id of an entity (`store::Id`). -/
inductive Id where
  | string (s : Word)
  | bytes (b : List UInt8)
  | int8 (i : Int)
deriving DecidableEq, Repr

/-- `impl PartialEq<Value> for Id`: an id equals a value of its own kind with the
same content. -/
def Id.eqValue : Id → Value → Bool
  | .string s, .string v => s == v
  | .bytes s, .bytes v => s == v
  | .int8 s, .int8 v => s == v
  | _, _ => false

/-- The causality region of a data source; `0` is the onchain region. -/
structure CausalityRegion where
  val : Int
deriving DecidableEq, Repr

/-- The causality region of onchain data sources. -/
def CausalityRegion.ONCHAIN : CausalityRegion := ⟨0⟩

/-- An entity type, with the two properties of its schema declaration that the
write path reads: `@entity(immutable: true)` and `skipDuplicates`. -/
structure EntityType where
  name : String
  immutable : Bool
  skipDuplicates : Bool
deriving DecidableEq, Repr

/-- `EntityType::is_immutable`. -/
def EntityType.isImmutable (t : EntityType) : Bool := t.immutable

/-- `EntityKey`: an entity is named by its type, its id and the causality region
of the data source that created it. -/
structure EntityKey where
  entityType : EntityType
  entityId : Id
  causalityRegion : CausalityRegion
deriving DecidableEq, Repr

/-! ### Entities -/

/-- An entity: a finite map from attribute names to values, as an association
list with pairwise distinct names. -/
structure Entity where
  entries : List (Word × Value)
  nodup : (entries.map Prod.fst).Nodup

/-- The name of the attribute holding the version id of an entity. -/
def VID_FIELD : Word := "vid"

namespace Entity

/-- The entity with no attributes. -/
def empty : Entity := ⟨[], List.nodup_nil⟩

/-- `Entity::get`: the value of an attribute. -/
def get (e : Entity) (k : Word) : Option Value := e.entries.lookup k

theorem lookup_eq_none_of_not_mem {l : List (Word × Value)} {k : Word}
    (h : k ∉ l.map Prod.fst) : l.lookup k = none := by
  induction l with
  | nil => rfl
  | cons p l ih =>
    have hp : (k == p.1) = false := by
      simpa using fun he : k = p.1 => h (by simp [he])
    have hl : k ∉ l.map Prod.fst := fun hm => h (List.mem_cons_of_mem _ hm)
    simp [List.lookup, hp, ih hl]

/-- Replace the value of `k` where it occurs, keeping the order of the names. -/
def replaceAt (l : List (Word × Value)) (k : Word) (v : Value) : List (Word × Value) :=
  l.map fun p => if p.1 = k then (k, v) else p

theorem replaceAt_keys (l : List (Word × Value)) (k : Word) (v : Value) :
    (replaceAt l k v).map Prod.fst = l.map Prod.fst := by
  simp only [replaceAt, List.map_map]
  refine List.map_congr_left fun p _ => ?_
  by_cases h : p.1 = k <;> simp [h]

theorem lookup_replaceAt_self {l : List (Word × Value)} {k : Word} (v : Value)
    (h : k ∈ l.map Prod.fst) : (replaceAt l k v).lookup k = some v := by
  induction l with
  | nil => simp at h
  | cons p l ih =>
    by_cases hp : p.1 = k
    · simp [replaceAt, hp]
    · have hl : k ∈ l.map Prod.fst := by
        rcases List.mem_cons.mp h with h | h
        · exact absurd h.symm hp
        · exact h
      have hne : (k == p.1) = false := by simpa using fun he : k = p.1 => hp he.symm
      simp only [replaceAt, List.map_cons, hp, if_false, List.lookup, hne] at ih ⊢
      exact ih hl

theorem lookup_replaceAt_of_ne (l : List (Word × Value)) {k k' : Word} (v : Value)
    (hk : k' ≠ k) : (replaceAt l k v).lookup k' = l.lookup k' := by
  induction l with
  | nil => rfl
  | cons p l ih =>
    obtain ⟨a, b⟩ := p
    have hne : (k' == k) = false := by simpa using hk
    by_cases hp : a = k
    · subst hp
      simp only [replaceAt, List.map_cons, if_true, List.lookup, hne] at ih ⊢
      exact ih
    · simp only [replaceAt, List.map_cons, hp, if_false, List.lookup] at ih ⊢
      rw [ih]

/-- `Object::insert`: set the value of `k`, in place if the entity has the
attribute already, at the end otherwise. -/
def insert (e : Entity) (k : Word) (v : Value) : Entity :=
  if h : k ∈ e.entries.map Prod.fst then
    ⟨replaceAt e.entries k v, by rw [replaceAt_keys]; exact e.nodup⟩
  else
    ⟨e.entries ++ [(k, v)], by
      rw [List.map_append, List.nodup_append]
      refine ⟨e.nodup, by simp, ?_⟩
      intro a ha b hb hab
      have hbk : b = k := by simpa using hb
      rw [hab, hbk] at ha
      exact h ha⟩

@[simp] theorem get_insert (e : Entity) (k k' : Word) (v : Value) :
    (e.insert k v).get k' = if k' = k then some v else e.get k' := by
  unfold insert get
  split
  · rename_i h
    by_cases hk : k' = k
    · subst hk
      simp [lookup_replaceAt_self v h]
    · simp [lookup_replaceAt_of_ne _ v hk, hk]
  · rename_i h
    rw [List.lookup_append]
    by_cases hk : k' = k
    · subst hk
      simp [lookup_eq_none_of_not_mem h, List.lookup]
    · have hne : (k' == k) = false := by simpa using hk
      cases hl : e.entries.lookup k' <;> simp [hk, List.lookup, hne]

/-- `Object::remove`, at the level of the map: the attribute is gone. -/
def remove (e : Entity) (k : Word) : Entity :=
  ⟨e.entries.filter (fun p => p.1 ≠ k), by
    have := e.nodup
    exact (List.Nodup.sublist (List.Sublist.map _ (List.filter_sublist)) this)⟩

theorem lookup_filter_ne (l : List (Word × Value)) (k k' : Word) :
    (l.filter (fun p => p.1 ≠ k)).lookup k' = if k' = k then none else l.lookup k' := by
  induction l with
  | nil => simp
  | cons p l ih =>
    obtain ⟨a, b⟩ := p
    by_cases hak : a = k
    · subst hak
      by_cases hk : k' = a
      · simp [hk] at ih ⊢
        exact ih
      · have hne : (k' == a) = false := by simpa using hk
        simp [hk, List.lookup, hne] at ih ⊢
        exact ih
    · by_cases hk : k' = a
      · subst hk
        simp [hak, List.lookup]
      · have hne : (k' == a) = false := by simpa using hk
        simp [hak, List.lookup, hne] at ih ⊢
        exact ih

@[simp] theorem get_remove (e : Entity) (k k' : Word) :
    (e.remove k).get k' = if k' = k then none else e.get k' := by
  unfold remove get
  exact lookup_filter_ne _ _ _

/-- `Entity::merge`: every attribute of `update` overwrites the entity's, a
`Null` included. -/
def merge (e update : Entity) : Entity :=
  update.entries.foldl (fun acc p => acc.insert p.1 p.2) e

theorem get_foldl_insert (l : List (Word × Value)) (hl : (l.map Prod.fst).Nodup) (e : Entity)
    (k : Word) :
    (l.foldl (fun acc p => acc.insert p.1 p.2) e).get k = (l.lookup k).or (e.get k) := by
  induction l generalizing e with
  | nil => rfl
  | cons p l ih =>
    obtain ⟨a, b⟩ := p
    have hl' : (l.map Prod.fst).Nodup := (List.nodup_cons.mp hl).2
    have ha : a ∉ l.map Prod.fst := (List.nodup_cons.mp hl).1
    simp only [List.foldl_cons]
    rw [ih hl']
    by_cases hk : k = a
    · subst hk
      simp [lookup_eq_none_of_not_mem ha, List.lookup]
    · have hne : (k == a) = false := by simpa using hk
      simp [hk, List.lookup, hne]

@[simp] theorem get_merge (e update : Entity) (k : Word) :
    (e.merge update).get k = (update.get k).or (e.get k) :=
  get_foldl_insert _ update.nodup e k

/-- One attribute of `Entity::merge_remove_null_fields`: a `Null` removes the
attribute, any other value sets it; the flag records a change to an attribute
other than the version id. -/
def mergeRemoveNullStep (acc : Entity × Bool) (p : Word × Value) : Entity × Bool :=
  let (e, changed) := acc
  let (key, value) := p
  let isVid := key = VID_FIELD
  match value with
  | .null => (e.remove key, changed || ((e.get key).isSome && !isVid))
  | _ =>
    let different := match e.get key with
      | none => true
      | some old => old ≠ value
    (e.insert key value, changed || (different && !isVid))

/-- `Entity::merge_remove_null_fields`: merge `update` into the entity,
removing the attributes it sets to `Null`; also return whether anything but the
version id changed. -/
def mergeRemoveNullFields (e update : Entity) : Entity × Bool :=
  update.entries.foldl mergeRemoveNullStep (e, false)

/-- What `merge_remove_null_fields` leaves in one attribute. -/
def mergeNullValue (u : Option Value) (old : Option Value) : Option Value :=
  match u with
  | some .null => none
  | some v => some v
  | none => old

theorem mergeRemoveNullStep_fst (acc : Entity × Bool) (p : Word × Value) (k : Word) :
    (mergeRemoveNullStep acc p).1.get k =
      if k = p.1 then mergeNullValue (some p.2) (acc.1.get k) else acc.1.get k := by
  obtain ⟨e, c⟩ := acc
  obtain ⟨a, v⟩ := p
  cases v <;> by_cases hk : k = a <;> simp [mergeRemoveNullStep, mergeNullValue, hk]

theorem get_foldl_mergeRemoveNullStep (l : List (Word × Value)) (hl : (l.map Prod.fst).Nodup)
    (acc : Entity × Bool) (k : Word) :
    (l.foldl mergeRemoveNullStep acc).1.get k = mergeNullValue (l.lookup k) (acc.1.get k) := by
  induction l generalizing acc with
  | nil => rfl
  | cons p l ih =>
    obtain ⟨a, b⟩ := p
    have hl' : (l.map Prod.fst).Nodup := (List.nodup_cons.mp hl).2
    have ha : a ∉ l.map Prod.fst := (List.nodup_cons.mp hl).1
    simp only [List.foldl_cons]
    rw [ih hl', mergeRemoveNullStep_fst]
    by_cases hk : k = a
    · subst hk
      simp [lookup_eq_none_of_not_mem ha, List.lookup, mergeNullValue]
    · have hne : (k == a) = false := by simpa using hk
      simp [hk, List.lookup, hne]

@[simp] theorem get_mergeRemoveNullFields (e update : Entity) (k : Word) :
    (e.mergeRemoveNullFields update).1.get k = mergeNullValue (update.get k) (e.get k) :=
  get_foldl_mergeRemoveNullStep _ update.nodup _ k

/-- `Entity::remove_null_fields`: drop the attributes holding `Null`. -/
def removeNullFields (e : Entity) : Entity :=
  ⟨e.entries.filter (fun p => !p.2.isNull), by
    exact (List.Nodup.sublist (List.Sublist.map _ (List.filter_sublist)) e.nodup)⟩

/-- A value with `Null` read as absence. -/
def nonNull : Option Value → Option Value
  | some .null => none
  | v => v

@[simp] theorem nonNull_none : nonNull none = none := rfl

@[simp] theorem nonNull_some_null : nonNull (some .null) = none := rfl

theorem nonNull_some {v : Value} (h : v.isNull = false) : nonNull (some v) = some v := by
  cases v <;> simp_all [nonNull, Value.isNull]

theorem lookup_filter_nonNull (l : List (Word × Value)) (hl : (l.map Prod.fst).Nodup) (k : Word) :
    (l.filter (fun p => !p.2.isNull)).lookup k = nonNull (l.lookup k) := by
  induction l with
  | nil => rfl
  | cons p l ih =>
    obtain ⟨a, b⟩ := p
    have hl' : (l.map Prod.fst).Nodup := (List.nodup_cons.mp hl).2
    have ha : a ∉ l.map Prod.fst := (List.nodup_cons.mp hl).1
    rw [List.filter_cons]
    by_cases hk : k = a
    · subst hk
      cases hb : b.isNull
      · simp [List.lookup, nonNull_some hb]
      · have hbn : b = .null := (Value.isNull_iff b).mp hb
        subst hbn
        simp [ih hl', lookup_eq_none_of_not_mem ha, List.lookup]
    · have hne : (k == a) = false := by simpa using hk
      cases hb : b.isNull
      · simp [List.lookup, hne, ih hl']
      · simp [ih hl', List.lookup, hne]

@[simp] theorem get_removeNullFields (e : Entity) (k : Word) :
    e.removeNullFields.get k = nonNull (e.get k) :=
  lookup_filter_nonNull _ e.nodup k

/-- `Object::eq_ignore_key`, through the attribute names: the same number of attributes other
than `ignoreKey`, and every attribute of the first other than `ignoreKey` with the same value in
the second, in whatever order. The pool of an entity is its schema's, which interns every
attribute name and `vid`, so `len_ignore_atom` counts the attributes other than `ignoreKey`. -/
def eqIgnoreKey (e e' : Entity) (ignoreKey : Word) : Bool :=
  let own := e.entries.filter (·.1 != ignoreKey)
  own.length == (e'.entries.filter (·.1 != ignoreKey)).length &&
    own.all fun p => e'.get p.1 == some p.2

/-- `PartialEq for Entity`: `eq_ignore_key` of the version id, which two versions of one entity
never share. -/
def beq (e e' : Entity) : Bool := e.eqIgnoreKey e' VID_FIELD

/-- Two entities agree **up to the version id and `Null` attributes**: every
attribute other than `vid` holds the same value in both, reading `Null` as
absent. This is the equality under which the cache's answers are stated. -/
def EqUpTo (e e' : Entity) : Prop := ∀ k, k ≠ VID_FIELD → nonNull (e.get k) = nonNull (e'.get k)

theorem EqUpTo.refl (e : Entity) : EqUpTo e e := fun _ _ => rfl

theorem EqUpTo.symm {e e' : Entity} (h : EqUpTo e e') : EqUpTo e' e :=
  fun k hk => (h k hk).symm

theorem EqUpTo.trans {e e' e'' : Entity} (h : EqUpTo e e') (h' : EqUpTo e' e'') :
    EqUpTo e e'' := fun k hk => (h k hk).trans (h' k hk)

theorem EqUpTo.of_get_eq {e e' : Entity} (h : ∀ k, e.get k = e'.get k) : EqUpTo e e' :=
  fun k _ => by rw [h k]

/-! ### The merges up to `Null` attributes -/

theorem nonNull_nonNull (v : Option Value) : nonNull (nonNull v) = nonNull v := by
  rcases v with _ | v
  · rfl
  · cases v <;> rfl

theorem nonNull_mergeNullValue (u old : Option Value) :
    nonNull (mergeNullValue u old) = mergeNullValue u (nonNull old) := by
  rcases u with _ | v
  · rfl
  · cases v <;> rfl

/-- Read with `Null` as absence, `merge` and `merge_remove_null_fields` agree. -/
theorem nonNull_or (u old : Option Value) :
    nonNull (u.or old) = nonNull (mergeNullValue u old) := by
  rcases u with _ | v
  · rfl
  · cases v <;> rfl

/-- Merging two updates one after the other is merging their merge. -/
theorem mergeNullValue_or (u c old : Option Value) :
    mergeNullValue (u.or c) old = mergeNullValue u (mergeNullValue c old) := by
  rcases u with _ | v
  · rfl
  · cases v <;> rfl

/-- `merge_remove_null_fields` of one update keeps the agreement of two entities. -/
theorem EqUpTo.mergeRemoveNullFields {e e' : Entity} (h : EqUpTo e e') (update : Entity) :
    EqUpTo (e.mergeRemoveNullFields update).1 (e'.mergeRemoveNullFields update).1 := by
  intro k hk
  rw [get_mergeRemoveNullFields, get_mergeRemoveNullFields, nonNull_mergeNullValue,
    nonNull_mergeNullValue, h k hk]

theorem eqUpTo_merge_mergeRemoveNullFields (e update : Entity) :
    EqUpTo (e.merge update) (e.mergeRemoveNullFields update).1 := by
  intro k _
  rw [get_merge, get_mergeRemoveNullFields, nonNull_or]

theorem get_mergeRemoveNullFields_merge (e c update : Entity) (k : Word) :
    (e.mergeRemoveNullFields (c.merge update)).1.get k =
      ((e.mergeRemoveNullFields c).1.mergeRemoveNullFields update).1.get k := by
  simp only [get_mergeRemoveNullFields, get_merge, mergeNullValue_or]

end Entity

end GraphNode
