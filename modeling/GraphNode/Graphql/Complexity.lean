import GraphNode.Lib.Simulation

/-!
# The complexity of a GraphQL query

`Query::new` checks the complexity of a query before it validates its fields and converts it:
`RawQuery::check_complexity` rejects a query whose complexity exceeds `max_complexity`. The
complexity of a selection set is the sum over its selections, computed by `complexity_inner`:
a field without a selection set counts nothing, another field counts its selection set, a list
field counts `first + first · C` where `C` counts its selection set and `first` is its `first`
argument (`EntityRange::FIRST` by default), and a fragment counts its selection set. The
recursion stops with `TooDeep` at `max_depth` levels, with `CyclicalFragment` at a fragment
spread inside itself, and with `Invalid` (a complexity of `0`, which leaves the error to
validation) at a field the schema does not know. An unknown fragment is a panic (`unwrap`).

The arithmetic is `u64`. The product and sum of a list field and the running total after a list
field or a fragment are checked, and an overflow is `TooComplex(u64::MAX, 0)`; the running total
after a field that is not a list is an unchecked `+`, which wraps in a release build, as we
model it.

* **The complexity is exact modulo `2 ^ 64`** (`complexityInner_simulates`): the `u64`
  recursion simulates the same recursion over `Nat` (`complexityNat`), with the same errors and
  panics, except where it gives up on an overflow.
* **What the check guarantees**: a query that passes has a complexity at most `max_complexity`
  modulo `2 ^ 64` (`checkComplexity_ok`), and a query whose exact complexity lies above
  `max_complexity` and below `2 ^ 64` is rejected (`checkComplexity_rejects`).
* The complexity is that of the query as written, before its variables are replaced by their
  values: `first: $n` counts as `EntityRange::FIRST` whatever `$n` is
  (`checkComplexity_reads_variable_first_as_default`).
-/

namespace GraphNode.Graphql

/-! ### Schemas -/

/-- `s::Type`, the type of a field. -/
inductive FieldType
  | namedType (name : String)
  | listType (inner : FieldType)
  | nonNullType (inner : FieldType)
  deriving DecidableEq, Repr

/-- `TypeExt::get_base_type`: the named type under the list and non-null wrappers. -/
def FieldType.getBaseType : FieldType → String
  | .namedType name => name
  | .nonNullType inner => inner.getBaseType
  | .listType inner => inner.getBaseType

/-- `s::Field`, a field of an object or interface type. -/
structure SchemaField where
  name : String
  fieldType : FieldType
  deriving DecidableEq, Repr

/-- `is_list_or_non_null_list_field`. -/
def SchemaField.isListOrNonNullListField (field : SchemaField) : Bool :=
  match field.fieldType with
  | .listType _ => true
  | .nonNullType (.listType _) => true
  | _ => false

/-- The `__typename` field that `get_field` finds in every object and interface. -/
def typenameField : SchemaField := ⟨"__typename", .nonNullType (.namedType "String")⟩

/-- `get_field` of an object or interface type with the fields `fields`. -/
def getField (fields : List SchemaField) (name : String) : Option SchemaField :=
  if name = typenameField.name then some typenameField else fields.find? (·.name == name)

/-- `s::TypeDefinition`: the name of each type, and the fields of objects and interfaces. -/
inductive TypeDefinition
  | scalar (name : String)
  | object (name : String) (fields : List SchemaField)
  | interface (name : String) (fields : List SchemaField)
  | union (name : String)
  | enum (name : String)
  | inputObject (name : String)
  deriving DecidableEq, Repr

namespace TypeDefinition

/-- `TypeDefinitionExt::name`. -/
def name : TypeDefinition → String
  | .scalar name | .object name _ | .interface name _ | .union name | .enum name
  | .inputObject name => name

/-- The field `name` of a type, as `complexity_inner` looks it up: scalars and enums have no
selection sets, input objects are not selected, and unions are not supported. -/
def getField (ty : TypeDefinition) (name : String) : Option SchemaField :=
  match ty with
  | .object _ fields | .interface _ fields => Graphql.getField fields name
  | .scalar _ | .enum _ | .inputObject _ | .union _ => none

end TypeDefinition

/-- The type definitions of an API schema, in the order of its document. -/
structure ApiSchema where
  definitions : List TypeDefinition

namespace ApiSchema

/-- `get_named_type`. -/
def getNamedType (schema : ApiSchema) (name : String) : Option TypeDefinition :=
  schema.definitions.find? (·.name == name)

/-- `get_root_query_type_def`: the object type `Query`. -/
def getRootQueryTypeDef (schema : ApiSchema) : Option TypeDefinition :=
  schema.definitions.find? fun
    | .object name _ => name == "Query"
    | _ => false

end ApiSchema

/-! ### Queries -/

/-- `q::Value`. -/
inductive Value
  | variable (name : String)
  | int (n : Int64)
  | float (x : Float)
  | string (s : String)
  | boolean (b : Bool)
  | null
  | enum (name : String)
  | list (items : List Value)
  | object (fields : List (String × Value))

/-- `q::Selection`. A selection set is the list of its items. -/
inductive Selection
  | field (name : String) (arguments : List (String × Value)) (selectionSet : List Selection)
  | fragmentSpread (fragmentName : String)
  | inlineFragment (typeCondition : Option String) (selectionSet : List Selection)

/-- `q::FragmentDefinition`. -/
structure FragmentDefinition where
  typeCondition : String
  selectionSet : List Selection

/-- `get_argument_value`. -/
def getArgumentValue (arguments : List (String × Value)) (name : String) : Option Value :=
  (arguments.find? (·.1 == name)).map (·.2)

/-- `EntityRange::FIRST`, the default of `first`. -/
def EntityRange.FIRST : UInt32 := 100

/-- The `first` argument of a list field as `complexity_inner` reads it: an integer as a `u64`
(`as_i64` always succeeds, and `as u64` wraps a negative one), anything else, a variable
included, as `EntityRange::FIRST`. -/
def maxEntities (arguments : List (String × Value)) : UInt64 :=
  ((getArgumentValue arguments "first").bind fun
    | .int n => some n.toUInt64
    | _ => none).getD EntityRange.FIRST.toUInt64

/-- `RawQuery`: the schema, the coerced variables (`variables`, their values written as query
values), the root selection set and the fragments by name. -/
structure RawQuery where
  schema : ApiSchema
  coercedVariables : List (String × Value)
  selectionSet : List Selection
  fragments : List (String × FragmentDefinition)

/-- `ComplexityError`. -/
inductive ComplexityError
  | tooDeep
  | overflow
  | invalid
  | cyclicalFragment (name : String)
  deriving DecidableEq, Repr

/-- The variants of `QueryExecutionError` that the complexity check returns. -/
inductive QueryExecutionError
  | tooComplex (complexity maxComplexity : UInt64)
  | tooDeep (maxDepth : UInt8)
  | cyclicalFragment (name : String)
  deriving DecidableEq, Repr

/-- `u64::checked_add`. -/
def checkedAdd (a b : UInt64) : Option UInt64 :=
  if a.toNat + b.toNat < 2 ^ 64 then some (a + b) else none

/-- `u64::checked_mul`. -/
def checkedMul (a b : UInt64) : Option UInt64 :=
  if a.toNat * b.toNat < 2 ^ 64 then some (a * b) else none

/-- `u64::MAX`. -/
def u64Max : UInt64 := 18446744073709551615

/-! ### The complexity -/

namespace RawQuery

variable (q : RawQuery)

/-- The schema field of a selected field and the type it returns, or `Invalid`. -/
def fieldType (ty : TypeDefinition) (name : String) :
    ExceptT ComplexityError Option (SchemaField × TypeDefinition) := do
  let sField ← okOr (ty.getField name) .invalid
  let fieldTy ← okOr (q.schema.getNamedType sField.fieldType.getBaseType) .invalid
  pure (sField, fieldTy)

/-- A fragment spread: the definition, its type, and the fragments visited inside it. An
unknown fragment panics (`unwrap`), and one already visited is `CyclicalFragment`. -/
def spreadFragment (visitedFragments : List String) (fragmentName : String) :
    ExceptT ComplexityError Option (FragmentDefinition × TypeDefinition × List String) := do
  let fragmentDef ← unwrap (q.fragments.lookup fragmentName)
  let ty ← okOr (q.schema.getNamedType fragmentDef.typeCondition) .invalid
  -- copy `visited_fragments` on write
  if fragmentName ∈ visitedFragments then throw (.cyclicalFragment fragmentName)
  pure (fragmentDef, ty, fragmentName :: visitedFragments)

/-- The type of an inline fragment: its type condition, or the enclosing type. -/
def inlineFragmentType (ty : TypeDefinition) :
    Option String → ExceptT ComplexityError Option TypeDefinition
  | some typeName => okOr (q.schema.getNamedType typeName) .invalid
  | none => pure ty

/-- What a field with a selection set adds to the running total: a field that is not a list
passes its complexity through with an unchecked `+`, a list field multiplies it by `first`. -/
def addFieldComplexity (sField : SchemaField) (arguments : List (String × Value))
    (totalComplexity fieldComplexity : UInt64) : ExceptT ComplexityError Option UInt64 :=
  if !sField.isListOrNonNullListField then pure (totalComplexity + fieldComplexity)
  else do
    let maxEntities := maxEntities arguments
    let product ← okOr (checkedMul maxEntities fieldComplexity) .overflow
    let complexity ← okOr (checkedAdd maxEntities product) .overflow
    okOr (checkedAdd totalComplexity complexity) .overflow

/-- One selection of the `try_fold` of `complexity_inner`, from the running total, where
`inner` is the recursion one level down. -/
def complexityStep
    (inner : TypeDefinition → List Selection → List String → ExceptT ComplexityError Option UInt64)
    (ty : TypeDefinition) (visitedFragments : List String) (totalComplexity : UInt64) :
    Selection → ExceptT ComplexityError Option UInt64
  | .field name arguments selectionSet =>
    -- empty selection sets are the base case
    if selectionSet.isEmpty then pure totalComplexity
    else do
      let (sField, fieldTy) ← q.fieldType ty name
      let fieldComplexity ← inner fieldTy selectionSet visitedFragments
      addFieldComplexity sField arguments totalComplexity fieldComplexity
  | .fragmentSpread fragmentName => do
    let (fragmentDef, ty, visitedFragments) ← q.spreadFragment visitedFragments fragmentName
    let complexity ← inner ty fragmentDef.selectionSet visitedFragments
    okOr (checkedAdd totalComplexity complexity) .overflow
  | .inlineFragment typeCondition selectionSet => do
    let ty ← q.inlineFragmentType ty typeCondition
    let complexity ← inner ty selectionSet visitedFragments
    okOr (checkedAdd totalComplexity complexity) .overflow

/-- `complexity_inner`. The recursion is on the levels left below `max_depth`: each call at
`depth + 1` has one less, and `depth >= max_depth` is none left. -/
def complexityInner (ty : TypeDefinition) (selectionSet : List Selection) (maxDepth depth : Nat)
    (visitedFragments : List String) : ExceptT ComplexityError Option UInt64 :=
  go (maxDepth - depth) ty selectionSet visitedFragments
where
  /-- The recursion on the levels left. -/
  go : Nat → TypeDefinition → List Selection → List String →
      ExceptT ComplexityError Option UInt64
    | 0, _, _, _ => throw .tooDeep
    | levels + 1, ty, selectionSet, visitedFragments =>
      selectionSet.foldlM (q.complexityStep (go levels) ty visitedFragments) 0

/-- `RawQuery::complexity`: `Invalid` is a complexity of `0`, an overflow is too complex. -/
def complexity (maxDepth : UInt8) : ExceptT QueryExecutionError Option UInt64 := do
  let rootType ← unwrap q.schema.getRootQueryTypeDef
  match (q.complexityInner rootType q.selectionSet maxDepth.toNat 0 []).run with
  | none => unwrap none
  | some (.ok complexity) => pure complexity
  | some (.error .invalid) => pure 0
  | some (.error .tooDeep) => throw (.tooDeep maxDepth)
  | some (.error .overflow) => throw (.tooComplex u64Max 0)
  | some (.error (.cyclicalFragment name)) => throw (.cyclicalFragment name)

/-- `RawQuery::check_complexity`. -/
def checkComplexity (maxComplexity : Option UInt64) (maxDepth : UInt8) :
    ExceptT (List QueryExecutionError) Option UInt64 := do
  let complexity ← (q.complexity maxDepth).adapt fun e => [e]
  if let some maxComplexity := maxComplexity then
    if complexity > maxComplexity then throw [.tooComplex complexity maxComplexity]
  pure complexity

/-! ### The complexity as a number -/

/-- What a field with a selection set adds to the running total, over `Nat`: `first + first · C`
for a list field, with `first` as `complexity_inner` reads it. -/
def addFieldComplexityNat (sField : SchemaField) (arguments : List (String × Value))
    (totalComplexity fieldComplexity : Nat) : Nat :=
  if !sField.isListOrNonNullListField then totalComplexity + fieldComplexity
  else
    let first := (maxEntities arguments).toNat
    totalComplexity + (first + first * fieldComplexity)

/-- One selection of the complexity over `Nat`: the recursion of `complexityStep` with exact
arithmetic. -/
def complexityNatStep
    (inner : TypeDefinition → List Selection → List String → ExceptT ComplexityError Option Nat)
    (ty : TypeDefinition) (visitedFragments : List String) (totalComplexity : Nat) :
    Selection → ExceptT ComplexityError Option Nat
  | .field name arguments selectionSet =>
    if selectionSet.isEmpty then pure totalComplexity
    else do
      let (sField, fieldTy) ← q.fieldType ty name
      let fieldComplexity ← inner fieldTy selectionSet visitedFragments
      pure (addFieldComplexityNat sField arguments totalComplexity fieldComplexity)
  | .fragmentSpread fragmentName => do
    let (fragmentDef, ty, visitedFragments) ← q.spreadFragment visitedFragments fragmentName
    let complexity ← inner ty fragmentDef.selectionSet visitedFragments
    pure (totalComplexity + complexity)
  | .inlineFragment typeCondition selectionSet => do
    let ty ← q.inlineFragmentType ty typeCondition
    let complexity ← inner ty selectionSet visitedFragments
    pure (totalComplexity + complexity)

/-- The complexity of a selection set as a number: the sum over its selections, with
`first + first · C` for a list field, and the errors and panics of `complexity_inner`. -/
def complexityNat (ty : TypeDefinition) (selectionSet : List Selection) (maxDepth depth : Nat)
    (visitedFragments : List String) : ExceptT ComplexityError Option Nat :=
  go (maxDepth - depth) ty selectionSet visitedFragments
where
  /-- The recursion on the levels left. -/
  go : Nat → TypeDefinition → List Selection → List String → ExceptT ComplexityError Option Nat
    | 0, _, _, _ => throw .tooDeep
    | levels + 1, ty, selectionSet, visitedFragments =>
      selectionSet.foldlM (q.complexityNatStep (go levels) ty visitedFragments) 0

/-- The complexity of the query as a number. -/
def exactComplexity (maxDepth : UInt8) : ExceptT ComplexityError Option Nat := do
  let rootType ← unwrap q.schema.getRootQueryTypeDef
  q.complexityNat rootType q.selectionSet maxDepth.toNat 0 []

/-! ### Exact modulo `2 ^ 64` -/

/-- A `u64` stands for a number: it is the number modulo `2 ^ 64`. -/
def Wraps (c : UInt64) (C : Nat) : Prop := c.toNat = C % 2 ^ 64

/-- The error that the `u64` recursion gives up with. -/
def IsOverflow (e : ComplexityError) : Prop := e = .overflow

theorem Wraps.zero : Wraps 0 0 := rfl

theorem wraps_toNat (a : UInt64) : Wraps a a.toNat := (Nat.mod_eq_of_lt a.toNat_lt).symm

theorem Wraps.add {a b : UInt64} {A B : Nat} (ha : Wraps a A) (hb : Wraps b B) :
    Wraps (a + b) (A + B) := by
  unfold Wraps at *
  rw [UInt64.toNat_add, ha, hb, ← Nat.add_mod]

theorem Wraps.mul {a b : UInt64} {A B : Nat} (ha : Wraps a A) (hb : Wraps b B) :
    Wraps (a * b) (A * B) := by
  unfold Wraps at *
  rw [UInt64.toNat_mul, ha, hb, ← Nat.mul_mod]

/-- A checked sum is the sum, or an overflow. -/
theorem simulates_checkedAdd {a b : UInt64} {A B : Nat} (ha : Wraps a A) (hb : Wraps b B) :
    Simulates IsOverflow Wraps (okOr (checkedAdd a b) .overflow) (pure (A + B)) := by
  unfold checkedAdd
  split_ifs
  · exact .pure (ha.add hb)
  · exact .of_absorb (show IsOverflow .overflow from rfl) _

/-- A checked product is the product, or an overflow. -/
theorem simulates_checkedMul {a b : UInt64} {A B : Nat} (ha : Wraps a A) (hb : Wraps b B) :
    Simulates IsOverflow Wraps (okOr (checkedMul a b) .overflow) (pure (A * B)) := by
  unfold checkedMul
  split_ifs
  · exact .pure (ha.mul hb)
  · exact .of_absorb (show IsOverflow .overflow from rfl) _

theorem simulates_addFieldComplexity (sField : SchemaField) (arguments : List (String × Value))
    {total fieldComplexity : UInt64} {TOTAL FIELD : Nat} (htotal : Wraps total TOTAL)
    (hfield : Wraps fieldComplexity FIELD) :
    Simulates IsOverflow Wraps (addFieldComplexity sField arguments total fieldComplexity)
      (pure (addFieldComplexityNat sField arguments TOTAL FIELD)) := by
  unfold addFieldComplexity addFieldComplexityNat
  cases sField.isListOrNonNullListField with
  | false => exact .pure (htotal.add hfield)
  | true =>
    -- the product, the sum and the new total, each checked
    refine .bind_pure (simulates_checkedMul (wraps_toNat _) hfield) fun product hproduct => ?_
    refine .bind_pure (simulates_checkedAdd (wraps_toNat _) hproduct) fun sum hsum => ?_
    exact simulates_checkedAdd htotal hsum

section Step

variable
  {innerC : TypeDefinition → List Selection → List String → ExceptT ComplexityError Option UInt64}
  {innerN : TypeDefinition → List Selection → List String → ExceptT ComplexityError Option Nat}

/-- One selection of the `u64` recursion simulates the exact one, from totals that correspond,
when the recursions one level down do. -/
theorem simulates_complexityStep
    (hinner : ∀ ty selectionSet visitedFragments, Simulates IsOverflow Wraps
      (innerC ty selectionSet visitedFragments) (innerN ty selectionSet visitedFragments))
    (ty : TypeDefinition) (visitedFragments : List String) {total : UInt64} {TOTAL : Nat}
    (htotal : Wraps total TOTAL) (selection : Selection) :
    Simulates IsOverflow Wraps (q.complexityStep innerC ty visitedFragments total selection)
      (q.complexityNatStep innerN ty visitedFragments TOTAL selection) := by
  cases selection with
  | field name arguments selectionSet =>
    dsimp only [complexityStep, complexityNatStep]
    split_ifs
    · exact .pure htotal
    · -- the same schema lookups on both sides
      refine .bind (.refl _) fun field field' hfield => ?_
      subst hfield
      obtain ⟨sField, fieldTy⟩ := field
      refine .bind (hinner _ _ _) fun fieldComplexity FIELD hfield => ?_
      exact simulates_addFieldComplexity sField arguments htotal hfield
  | fragmentSpread fragmentName =>
    refine .bind (.refl _) fun spread spread' hspread => ?_
    subst hspread
    obtain ⟨fragmentDef, ty', visited⟩ := spread
    refine .bind (hinner _ _ _) fun complexity COMPLEXITY hcomplexity => ?_
    exact simulates_checkedAdd htotal hcomplexity
  | inlineFragment typeCondition selectionSet =>
    refine .bind (.refl _) fun ty' ty'' hty => ?_
    subst hty
    refine .bind (hinner _ _ _) fun complexity COMPLEXITY hcomplexity => ?_
    exact simulates_checkedAdd htotal hcomplexity

end Step

/-- The recursion on the levels left, by induction on them: each level is a fold of
`simulates_complexityStep` from totals `0`. -/
theorem complexityInner_go_simulates (levels : Nat) :
    ∀ ty selectionSet visitedFragments, Simulates IsOverflow Wraps
      (complexityInner.go q levels ty selectionSet visitedFragments)
      (complexityNat.go q levels ty selectionSet visitedFragments) := by
  induction levels with
  | zero =>
    intro _ _ _
    exact .throw ComplexityError.tooDeep
  | succ levels ih =>
    intro ty selectionSet visitedFragments
    rw [complexityInner.go, complexityNat.go]
    exact .foldlM selectionSet
      (fun _ _ selection _ hst => q.simulates_complexityStep ih ty visitedFragments hst selection)
      Wraps.zero

/-- **`complexity_inner` is the exact complexity modulo `2 ^ 64`**: it panics when the exact
recursion does, fails with the same error, or returns the exact complexity modulo `2 ^ 64`;
or else it gives up on an overflow. -/
theorem complexityInner_simulates (ty : TypeDefinition) (selectionSet : List Selection)
    (maxDepth depth : Nat) (visitedFragments : List String) :
    Simulates IsOverflow Wraps (q.complexityInner ty selectionSet maxDepth depth visitedFragments)
      (q.complexityNat ty selectionSet maxDepth depth visitedFragments) :=
  q.complexityInner_go_simulates _ ty selectionSet visitedFragments

/-! ### The check -/

/-- The exact complexity is that of the root query type. -/
theorem exactComplexity_run {maxDepth : UInt8} {rootType : TypeDefinition}
    (hroot : q.schema.getRootQueryTypeDef = some rootType) :
    (q.exactComplexity maxDepth).run =
      (q.complexityNat rootType q.selectionSet maxDepth.toNat 0 []).run := by
  unfold exactComplexity
  rw [ExceptT.run_bind, hroot]
  rfl

/-- A complexity is that of `complexity_inner` at the root, or `0` for an invalid query. -/
theorem complexity_ok {maxDepth : UInt8} {c : UInt64}
    (h : (q.complexity maxDepth).run = some (.ok c)) :
    ∃ rootType, q.schema.getRootQueryTypeDef = some rootType ∧
      ((q.complexityInner rootType q.selectionSet maxDepth.toNat 0 []).run = some (.ok c) ∨
        (q.complexityInner rootType q.selectionSet maxDepth.toNat 0 []).run =
          some (.error .invalid) ∧ c = 0) := by
  unfold complexity at h
  cases hroot : q.schema.getRootQueryTypeDef with
  | none =>
    rw [hroot, unwrap_none_bind, run_unwrap_none] at h
    cases h
  | some rootType =>
    rw [hroot, unwrap_some_bind] at h
    refine ⟨rootType, rfl, ?_⟩
    generalize (q.complexityInner rootType q.selectionSet maxDepth.toNat 0 []).run = r at h ⊢
    rcases r with _ | e | c'
    · cases h
    · cases e with
      | invalid =>
        -- an invalid query counts `0`
        cases h
        exact .inr ⟨rfl, rfl⟩
      | tooDeep | overflow | cyclicalFragment _ => cases h
    · cases h
      exact .inl rfl

/-- An overflow of `complexity_inner` at the root is `TooComplex(u64::MAX, 0)`. -/
theorem complexity_of_overflow {maxDepth : UInt8} {rootType : TypeDefinition}
    (hroot : q.schema.getRootQueryTypeDef = some rootType)
    (h : (q.complexityInner rootType q.selectionSet maxDepth.toNat 0 []).run =
      some (.error .overflow)) :
    (q.complexity maxDepth).run = some (.error (.tooComplex u64Max 0)) := by
  unfold complexity
  rw [hroot, unwrap_some_bind, h]
  rfl

/-- A complexity of `complexity_inner` at the root is the complexity. -/
theorem complexity_of_ok {maxDepth : UInt8} {rootType : TypeDefinition} {c : UInt64}
    (hroot : q.schema.getRootQueryTypeDef = some rootType)
    (h : (q.complexityInner rootType q.selectionSet maxDepth.toNat 0 []).run = some (.ok c)) :
    (q.complexity maxDepth).run = some (.ok c) := by
  unfold complexity
  rw [hroot, unwrap_some_bind, h]
  rfl

/-- `check_complexity` with a bound: a complexity above it is `TooComplex`, and an error of
`complexity` is passed on. -/
theorem checkComplexity_run (maxComplexity : UInt64) (maxDepth : UInt8) :
    (q.checkComplexity (some maxComplexity) maxDepth).run = (q.complexity maxDepth).run.map fun
      | .ok c => if c > maxComplexity then .error [.tooComplex c maxComplexity] else .ok c
      | .error e => .error [e] := by
  unfold checkComplexity
  rw [ExceptT.run_bind, ExceptT.run_adapt]
  rcases (q.complexity maxDepth).run with _ | e | c
  · rfl
  · rfl
  · by_cases hgt : c > maxComplexity
    · simp [hgt, Except.mapError]
    · simp [hgt, Except.mapError]

/-- **A query that passes the check** has a complexity at most `max_complexity`: `0` for an
invalid query, and otherwise its exact complexity modulo `2 ^ 64`. -/
theorem checkComplexity_ok {maxComplexity c : UInt64} {maxDepth : UInt8}
    (h : (q.checkComplexity (some maxComplexity) maxDepth).run = some (.ok c)) :
    c ≤ maxComplexity ∧
      ((q.exactComplexity maxDepth).run = some (.error .invalid) ∧ c = 0 ∨
        ∃ C, (q.exactComplexity maxDepth).run = some (.ok C) ∧ c.toNat = C % 2 ^ 64) := by
  rw [checkComplexity_run] at h
  obtain ⟨r, hr, hc⟩ := Option.map_eq_some_iff.mp h
  rcases r with e | c'
  · cases hc
  · dsimp only at hc
    split_ifs at hc with hgt
    cases hc
    refine ⟨UInt64.not_lt.mp hgt, ?_⟩
    obtain ⟨rootType, hroot, hinner⟩ := q.complexity_ok hr
    have hsim := q.complexityInner_simulates rootType q.selectionSet maxDepth.toNat 0 []
    rw [q.exactComplexity_run hroot]
    rcases hinner with hok | ⟨hinvalid, rfl⟩
    · exact .inr (hsim.ok hok)
    · -- the exact recursion meets the same unknown field
      exact .inl ⟨hsim.error hinvalid (by simp [IsOverflow]), rfl⟩

/-- **A query whose exact complexity is above `max_complexity`** and below `2 ^ 64` is
rejected. -/
theorem checkComplexity_rejects {maxComplexity : UInt64} {maxDepth : UInt8} {C : Nat}
    (hC : (q.exactComplexity maxDepth).run = some (.ok C)) (hlt : maxComplexity.toNat < C)
    (hbound : C < 2 ^ 64) :
    ∃ errors, (q.checkComplexity (some maxComplexity) maxDepth).run = some (.error errors) := by
  -- the exact complexity is that of the root type
  obtain ⟨rootType, hroot⟩ : ∃ rootType, q.schema.getRootQueryTypeDef = some rootType := by
    unfold exactComplexity at hC
    cases hroot : q.schema.getRootQueryTypeDef with
    | none =>
      rw [hroot, unwrap_none_bind, run_unwrap_none] at hC
      cases hC
    | some rootType => exact ⟨rootType, rfl⟩
  rw [q.exactComplexity_run hroot] at hC
  have hsim := q.complexityInner_simulates rootType q.selectionSet maxDepth.toNat 0 []
  rw [checkComplexity_run]
  rcases hsim.of_ok hC with ⟨c, hc, hwraps⟩ | ⟨e, he, rfl⟩
  · -- no overflow: the complexity is exact, and above the bound
    have hgt : c > maxComplexity := by
      have hcC : c.toNat = C := by rw [hwraps, Nat.mod_eq_of_lt hbound]
      rw [gt_iff_lt, UInt64.lt_iff_toNat_lt, hcC]
      exact hlt
    rw [q.complexity_of_ok hroot hc]
    exact ⟨[.tooComplex c maxComplexity], by simp [hgt]⟩
  · rw [q.complexity_of_overflow hroot he]
    exact ⟨_, rfl⟩

end RawQuery

/-! ### The query with its variables replaced -/

mutual

/-- A value with each variable replaced by its value in `vars`. -/
def Value.substitute (vars : List (String × Value)) : Value → Value
  | .variable name => (vars.lookup name).getD (.variable name)
  | .list items => .list (Value.substituteList vars items)
  | .object fields => .object (Value.substituteFields vars fields)
  | value => value

/-- `Value.substitute` on each item of a list. -/
def Value.substituteList (vars : List (String × Value)) : List Value → List Value
  | [] => []
  | value :: values => value.substitute vars :: Value.substituteList vars values

/-- `Value.substitute` on each value of named fields or arguments. -/
def Value.substituteFields (vars : List (String × Value)) :
    List (String × Value) → List (String × Value)
  | [] => []
  | (name, value) :: fields =>
    (name, value.substitute vars) :: Value.substituteFields vars fields

end

mutual

/-- A selection with each variable in its arguments replaced by its value. -/
def Selection.substitute (vars : List (String × Value)) : Selection → Selection
  | .field name arguments selectionSet =>
    .field name (Value.substituteFields vars arguments)
      (Selection.substituteAll vars selectionSet)
  | .fragmentSpread fragmentName => .fragmentSpread fragmentName
  | .inlineFragment typeCondition selectionSet =>
    .inlineFragment typeCondition (Selection.substituteAll vars selectionSet)

/-- `Selection.substitute` on each selection of a selection set. -/
def Selection.substituteAll (vars : List (String × Value)) :
    List Selection → List Selection
  | [] => []
  | selection :: selections =>
    selection.substitute vars :: Selection.substituteAll vars selections

end

/-- The query in which every variable, in the operation and in the fragments, is replaced by
its coerced value. -/
def RawQuery.substitute (q : RawQuery) : RawQuery :=
  { q with
    selectionSet := Selection.substituteAll q.coercedVariables q.selectionSet
    fragments := q.fragments.map fun (name, fragmentDef) =>
      (name, { fragmentDef with
        selectionSet := Selection.substituteAll q.coercedVariables fragmentDef.selectionSet }) }

/-! ### Variables and wrapping -/

/-- A root list of `Thing`s, and one `Thing`, whose `things` are again a list. -/
def thingsSchema : ApiSchema :=
  ⟨[.object "Query"
      [⟨"things", .nonNullType (.listType (.nonNullType (.namedType "Thing")))⟩,
        ⟨"thing", .namedType "Thing"⟩],
    .object "Thing"
      [⟨"id", .nonNullType (.namedType "ID")⟩,
        ⟨"things", .nonNullType (.listType (.nonNullType (.namedType "Thing")))⟩],
    .scalar "ID"]⟩

/-- `query($n: Int) { things(first: $n) { id } }`, with `1000` for `$n`. -/
def firstVariableQuery : RawQuery :=
  ⟨thingsSchema, [("n", .int 1000)],
    [.field "things" [("first", .variable "n")] [.field "id" [] []]], []⟩

/-- The check counts `first: $n` as `EntityRange::FIRST`: with `max_complexity = 500` it passes
the query with the complexity `100`, while the query with `$n` replaced by its value has the
complexity `1000`. -/
theorem checkComplexity_reads_variable_first_as_default :
    (firstVariableQuery.checkComplexity (some 500) 255).run = some (.ok 100) ∧
      (firstVariableQuery.substitute.exactComplexity 255).run = some (.ok 1000) :=
  ⟨rfl, rfl⟩

/-- Three fields `thing { things(first: 9223372036854775807) { id } }`. -/
def wrappingQuery : RawQuery :=
  let thing := Selection.field "thing" []
    [.field "things" [("first", .int 9223372036854775807)] [.field "id" [] []]]
  ⟨thingsSchema, [], [thing, thing, thing], []⟩

/-- The sum after a field that is not a list wraps: three times `2 ^ 63 - 1` passes the check
as `2 ^ 63 - 3`. -/
example :
    (wrappingQuery.checkComplexity (some 9223372036854775808) 255).run =
        some (.ok 9223372036854775805) ∧
      (wrappingQuery.exactComplexity 255).run = some (.ok 27670116110564327421) :=
  ⟨rfl, rfl⟩

end GraphNode.Graphql
