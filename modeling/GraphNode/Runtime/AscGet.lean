import GraphNode.Runtime.AscAbi
import GraphNode.Data.Entity

/-!
# The nesting of `asc_get`

`asc_get` reads the object a pointer of the mapping's memory points to and decodes it with the
`FromAscObj` of its class. The decoders of nested values — a `store::Value` holding a list of
values, an `ethabi` value holding an array or a tuple, an entity holding values — reach the
objects they contain only through `asc_get`, handing on the depth they received. `asc_get`
increments the depth first and fails with "recursion limit reached" beyond
`MAX_RECURSION_DEPTH`. The memory is the mapping's, so its pointers may form cycles; only the
depth stops the recursion.

The recursion of the model is bounded by a fuel, one unit per nested call of `asc_get` that
decodes a value further, and `none` is a run that the fuel did not let finish. The decoders
pass their depth on faithfully, so fuel of `MAX_RECURSION_DEPTH` always lets them finish
(`isSome_ascGetEnum`, `isSome_ascGetEntity`). Within that fuel the depth check answers first,
and a pointer cycle ends with the recursion limit error (`ascGetEnum_cycle`). More fuel changes
no answer (`ascGetEnum_mono`), so the model's answer is the code's.

The decoders of `store::Value` and of `ethabi` values share their shape: an `AscEnum` whose
kinds either hold an array of values of the same enum or reach no further value. Both are
`ascGetEnum`, applied to the arms of their `from_asc_obj`, and its three results are proved
once for both.

The heap is given by what `read_ptr` reads at a pointer for each class the decoders read: the
kind and payload of an `AscEnum`, the pointers of an `Array`, the entries of a typed map, the
two pointers of a map entry or a big decimal. The leaves (strings and typed arrays) and the
conversions that reach no further object (timestamps, big integers and big decimals from their
bytes and digits) are parameters; how they can fail is the matter of
`GraphNode.Runtime.AscAbi`.
-/

namespace GraphNode

/-- `MAX_RECURSION_DEPTH`. -/
def MAX_RECURSION_DEPTH : Nat := 128

/-- `StoreValueKind`, the kinds of `store::Value` in the mapping's memory. -/
inductive StoreValueKind where
  | string | int | bigDecimal | bool | array | null | bytes | bigInt | int8 | timestamp
  deriving DecidableEq, Repr

/-- `EthereumValueKind`, the kinds of `ethabi` values in the mapping's memory. -/
inductive EthereumValueKind where
  | address | fixedBytes | bytes | int | uint | bool | string | fixedArray | array | tuple
  | function
  deriving DecidableEq, Repr

/-- `DynSolValue`, the `ethabi` values the host decodes. -/
inductive DynSolValue where
  | address (bytes : List UInt8)
  | fixedBytes (bytes : List UInt8)
  | bytes (bytes : List UInt8)
  | int (i : Int)
  | uint (n : Int)
  | bool (b : Bool)
  | string (s : String)
  | fixedArray (values : List DynSolValue)
  | array (values : List DynSolValue)
  | tuple (values : List DynSolValue)
  | function (bytes : List UInt8)

/-- The objects `read_ptr` reads at a pointer, for each class the decoders read. -/
structure AscHeap where
  /-- An `AscEnum<StoreValueKind>`: its kind and payload. -/
  storeEnum : UInt32 → Except DeterministicHostError (StoreValueKind × UInt64)
  /-- An `AscEnum<EthereumValueKind>`: its kind and payload. -/
  ethereumEnum : UInt32 → Except DeterministicHostError (EthereumValueKind × UInt64)
  /-- An `Array<AscPtr<C>>`, read by `to_vec`: its pointers. -/
  array : UInt32 → Except DeterministicHostError (List UInt32)
  /-- An `AscTypedMap`: the pointer to its entries. -/
  typedMap : UInt32 → Except DeterministicHostError UInt32
  /-- An `AscTypedMapEntry` (key and value) or an `AscBigDecimal` (digits and exponent). -/
  pair : UInt32 → Except DeterministicHostError (UInt32 × UInt32)
  /-- An `AscString`, decoded. -/
  string : UInt32 → Except DeterministicHostError String
  /-- A typed array of bytes (`Uint8Array`, `AscBigInt`), read by `to_vec`. -/
  bytes : UInt32 → Except DeterministicHostError (List UInt8)

/-- The conversions of the decoders that reach no further object. -/
structure AscConversions where
  /-- `Timestamp::from_microseconds_since_epoch`. -/
  timestamp : Int → Except DeterministicHostError Int
  /-- `BigInt::from_signed_bytes_le`, with its bound on the size. -/
  bigInt : List UInt8 → Except DeterministicHostError Int
  /-- The big decimal of its digits and exponent (`GraphNode.BigDecimal.fromAscObj`). -/
  bigDecimal : Int → Int → Except DeterministicHostError Value
  /-- `DynSolValue::fixed_bytes_from_slice`. -/
  fixedBytes : List UInt8 → Except DeterministicHostError DynSolValue
  /-- `to_i256` and `to_unsigned_u256` of a `BigInt`, for a signed and an unsigned value. -/
  int256 : Bool → Int → Except DeterministicHostError DynSolValue

/-! ### Runs with a bounded nesting -/

/-- The result of a decoding: `none` where the nesting the fuel allows ran out. -/
abbrev Decoded (α : Type) := Option (Except DeterministicHostError α)

namespace Decoded

variable {α β : Type}

/-- A step that needs no fuel. -/
def lift (x : Except DeterministicHostError α) : Decoded α := some x

/-- Sequencing, stopping at the first error. -/
def bind (x : Decoded α) (f : α → Decoded β) : Decoded β :=
  match x with
  | none => none
  | some (.error e) => some (.error e)
  | some (.ok a) => f a

/-- `.map(...).collect()` into a `Result<Vec<_>, _>`: the elements in order, stopping at the
first error. -/
def mapM (f : β → Decoded α) : List β → Decoded (List α)
  | [] => some (.ok [])
  | b :: bs => bind (f b) fun a => bind (mapM f bs) fun as => some (.ok (a :: as))

theorem isSome_bind {x : Decoded α} {f : α → Decoded β} (hx : x.isSome)
    (hf : ∀ a, x = some (.ok a) → (f a).isSome) : (bind x f).isSome := by
  match x, hx with
  | some (.error e), _ => rfl
  | some (.ok a), _ => exact hf a rfl

theorem isSome_mapM {f : β → Decoded α} {l : List β} (hf : ∀ b ∈ l, (f b).isSome) :
    (mapM f l).isSome := by
  induction l with
  | nil => rfl
  | cons b l ih =>
    refine isSome_bind (hf b List.mem_cons_self) fun _ _ => isSome_bind ?_ fun _ _ => rfl
    exact ih fun b' h => hf b' (List.mem_cons_of_mem _ h)

/-- `y` answers wherever `x` does, and alike: the order of runs by their fuel. -/
def Le (x y : Decoded α) : Prop := ∀ r, x = some r → y = some r

theorem Le.refl (x : Decoded α) : Le x x := fun _ h => h

theorem none_le (y : Decoded α) : Le none y := fun _ h => nomatch h

/-- A run that answers is the answer of every run above it. -/
theorem Le.eq_of_isSome {x y : Decoded α} (h : Le x y) (hx : x.isSome) : y = x := by
  obtain ⟨r, hr⟩ := Option.isSome_iff_exists.mp hx
  rw [h r hr, hr]

theorem bind_le {x y : Decoded α} {f g : α → Decoded β} (hx : Le x y)
    (hf : ∀ a, Le (f a) (g a)) : Le (bind x f) (bind y g) := by
  intro r h
  match x, h with
  | some (.error e), h => rw [hx _ rfl]; exact h
  | some (.ok a), h => rw [hx _ rfl]; exact hf a r h

theorem mapM_le {f g : β → Decoded α} {l : List β} (hf : ∀ b ∈ l, Le (f b) (g b)) :
    Le (mapM f l) (mapM g l) := by
  induction l with
  | nil => exact Le.refl _
  | cons b l ih =>
    refine bind_le (hf b List.mem_cons_self) fun _ => bind_le ?_ fun _ => Le.refl _
    exact ih fun b' h => hf b' (List.mem_cons_of_mem _ h)

/-- Runs whose fuel only adds answers all answer alike once one of them answers. -/
theorem eq_of_le_of_isSome {run : Nat → Decoded α} (hmono : ∀ n, Le (run n) (run (n + 1)))
    {m n : Nat} (hsome : (run m).isSome) (hle : m ≤ n) : run n = run m := by
  obtain ⟨k, rfl⟩ := Nat.exists_eq_add_of_le hle
  induction k with
  | zero => rfl
  | succ k ih =>
    have hk : run (m + k) = run m := ih (Nat.le_add_right m k)
    rw [← Nat.add_assoc, (hmono (m + k)).eq_of_isSome (hk ▸ hsome), hk]

end Decoded

/-- The depth check of `asc_get`: the incremented depth must not pass `MAX_RECURSION_DEPTH`. -/
def depthExceeded (depth : Nat) : Bool := MAX_RECURSION_DEPTH < depth + 1

/-- `asc_get` of an object that reaches no further object. -/
def ascGetLeaf {α : Type} (depth : Nat) (read : Except DeterministicHostError α) : Decoded α :=
  if depthExceeded depth then some (.error .recursionLimit) else some read

theorem isSome_ascGetLeaf {α : Type} (depth : Nat) (read : Except DeterministicHostError α) :
    (ascGetLeaf depth read).isSome := by
  unfold ascGetLeaf
  split <;> rfl

/-- `i32::from(EnumPayload)`: the low 32 bits, signed. -/
def EnumPayload.toI32 (payload : UInt64) : Int := Int.bmod (payload.toNat % 2 ^ 32) (2 ^ 32)

/-- `i64::from(EnumPayload)`: the 64 bits, signed. -/
def EnumPayload.toI64 (payload : UInt64) : Int := Int.bmod payload.toNat (2 ^ 64)

/-- `AscPtr::from(EnumPayload)`: the low 32 bits. -/
def EnumPayload.toPtr (payload : UInt64) : UInt32 := payload.toUInt32

/-- `asc_get` into a `BigDecimal`: the depth check, then `asc_get` of its digits and of its
exponent, two `BigInt`s. -/
def ascGetBigDecimal (heap : AscHeap) (conv : AscConversions) (depth : Nat) (ptr : UInt32) :
    Decoded Value :=
  if depthExceeded depth then some (.error .recursionLimit)
  else
    Decoded.bind (Decoded.lift (heap.pair ptr)) fun (digits, exp) =>
    Decoded.bind (ascGetLeaf (depth + 1) (heap.bytes digits >>= conv.bigInt)) fun digits =>
    Decoded.bind (ascGetLeaf (depth + 1) (heap.bytes exp >>= conv.bigInt)) fun exp =>
    Decoded.lift (conv.bigDecimal digits exp)

theorem isSome_ascGetBigDecimal (heap : AscHeap) (conv : AscConversions) (depth : Nat)
    (ptr : UInt32) : (ascGetBigDecimal heap conv depth ptr).isSome := by
  unfold ascGetBigDecimal
  split
  · rfl
  · exact Decoded.isSome_bind rfl fun _ _ => Decoded.isSome_bind (isSome_ascGetLeaf _ _)
      fun _ _ => Decoded.isSome_bind (isSome_ascGetLeaf _ _) fun _ _ => rfl

/-! ### Enums whose values nest through arrays -/

section Enum

variable {K V : Type} (readEnum : UInt32 → Except DeterministicHostError (K × UInt64))
  (readArray : UInt32 → Except DeterministicHostError (List UInt32))
  (node : K → Option (List V → V)) (leaf : Nat → K → UInt64 → Decoded V)

mutual

/-- `asc_get` into a value of an `AscEnum` whose kinds hold either an array of values of the same
enum (`node`, with the value it builds of them) or something that reaches no further value
(`leaf`, the arm of `from_asc_obj` for the kind, given the depth it received). -/
def ascGetEnum (fuel depth : Nat) (ptr : UInt32) : Decoded V :=
  if depthExceeded depth then some (.error .recursionLimit)
  else match fuel with
    | 0 => none
    | fuel + 1 =>
      Decoded.bind (Decoded.lift (readEnum ptr)) fun (kind, payload) =>
      match node kind with
      | some build => Decoded.bind (ascGetEnums fuel (depth + 1) (EnumPayload.toPtr payload))
          fun values => some (.ok (build values))
      | none => leaf (depth + 1) kind payload

/-- `asc_get` into a `Vec` of the values of an array (`FromAscObj<Array<AscPtr<C>>>`): each
element by `asc_get` with the depth received. -/
def ascGetEnums (fuel depth : Nat) (ptr : UInt32) : Decoded (List V) :=
  if depthExceeded depth then some (.error .recursionLimit)
  else match fuel with
    | 0 => none
    | fuel + 1 =>
      Decoded.bind (Decoded.lift (readArray ptr)) fun ptrs =>
      Decoded.mapM (ascGetEnum fuel (depth + 1)) ptrs

end

variable {readEnum readArray node leaf}

theorem depthExceeded_iff {depth : Nat} :
    depthExceeded depth = true ↔ MAX_RECURSION_DEPTH ≤ depth := by
  simp [depthExceeded]

/-! The decoders as they unfold: past the depth limit, out of fuel, and one step. -/

section Unfold

variable {depth : Nat} (fuel : Nat) (ptr : UInt32)

theorem ascGetEnum_of_depthExceeded (hd : depthExceeded depth = true) :
    ascGetEnum readEnum readArray node leaf fuel depth ptr = some (.error .recursionLimit) := by
  rw [ascGetEnum.eq_def, if_pos hd]

theorem ascGetEnums_of_depthExceeded (hd : depthExceeded depth = true) :
    ascGetEnums readEnum readArray node leaf fuel depth ptr = some (.error .recursionLimit) := by
  rw [ascGetEnums.eq_def, if_pos hd]

theorem ascGetEnum_zero (hd : depthExceeded depth = false) :
    ascGetEnum readEnum readArray node leaf 0 depth ptr = none := by
  rw [ascGetEnum.eq_def, if_neg (by simp [hd])]

theorem ascGetEnums_zero (hd : depthExceeded depth = false) :
    ascGetEnums readEnum readArray node leaf 0 depth ptr = none := by
  rw [ascGetEnums.eq_def, if_neg (by simp [hd])]

theorem ascGetEnum_succ (hd : depthExceeded depth = false) :
    ascGetEnum readEnum readArray node leaf (fuel + 1) depth ptr =
      Decoded.bind (Decoded.lift (readEnum ptr)) fun (kind, payload) =>
      match node kind with
      | some build => Decoded.bind
          (ascGetEnums readEnum readArray node leaf fuel (depth + 1) (EnumPayload.toPtr payload))
          fun values => some (.ok (build values))
      | none => leaf (depth + 1) kind payload := by
  rw [ascGetEnum.eq_def, if_neg (by simp [hd])]

theorem ascGetEnums_succ (hd : depthExceeded depth = false) :
    ascGetEnums readEnum readArray node leaf (fuel + 1) depth ptr =
      Decoded.bind (Decoded.lift (readArray ptr)) fun ptrs =>
      Decoded.mapM (ascGetEnum readEnum readArray node leaf fuel (depth + 1)) ptrs := by
  rw [ascGetEnums.eq_def, if_neg (by simp [hd])]

end Unfold

/-- **Fuel of what is left of the depth lets the decoders finish**, on every heap, as long as
the leaves answer. -/
theorem isSome_ascGetEnum (hleaf : ∀ depth kind payload, (leaf depth kind payload).isSome)
    (fuel : Nat) :
    (∀ depth ptr, MAX_RECURSION_DEPTH ≤ fuel + depth →
      (ascGetEnum readEnum readArray node leaf fuel depth ptr).isSome) ∧
    (∀ depth ptr, MAX_RECURSION_DEPTH ≤ fuel + depth →
      (ascGetEnums readEnum readArray node leaf fuel depth ptr).isSome) := by
  -- on the fuel, for both decoders at once: each calls the other with one unit less, one
  -- level deeper
  induction fuel with
  | zero =>
    have hd : ∀ depth, MAX_RECURSION_DEPTH ≤ 0 + depth → depthExceeded depth = true :=
      fun depth h => depthExceeded_iff.mpr (by omega)
    refine ⟨fun depth ptr h => ?_, fun depth ptr h => ?_⟩
    · rw [ascGetEnum_of_depthExceeded 0 ptr (hd depth h)]; rfl
    · rw [ascGetEnums_of_depthExceeded 0 ptr (hd depth h)]; rfl
  | succ fuel ih =>
    refine ⟨fun depth ptr h => ?_, fun depth ptr h => ?_⟩
    · cases hd : depthExceeded depth
      case true => rw [ascGetEnum_of_depthExceeded _ ptr hd]; rfl
      case false =>
        rw [ascGetEnum_succ fuel ptr hd]
        refine Decoded.isSome_bind rfl fun ⟨kind, payload⟩ _ => ?_
        dsimp only
        cases node kind with
        | some build => exact Decoded.isSome_bind (ih.2 (depth + 1) _ (by omega)) fun _ _ => rfl
        | none => exact hleaf _ _ _
    · cases hd : depthExceeded depth
      case true => rw [ascGetEnums_of_depthExceeded _ ptr hd]; rfl
      case false =>
        rw [ascGetEnums_succ fuel ptr hd]
        exact Decoded.isSome_bind rfl fun ptrs _ =>
          Decoded.isSome_mapM fun p _ => ih.1 _ p (by omega)

/-- **More fuel changes no answer.** -/
theorem ascGetEnum_mono (fuel : Nat) :
    (∀ depth ptr, Decoded.Le (ascGetEnum readEnum readArray node leaf fuel depth ptr)
      (ascGetEnum readEnum readArray node leaf (fuel + 1) depth ptr)) ∧
    (∀ depth ptr, Decoded.Le (ascGetEnums readEnum readArray node leaf fuel depth ptr)
      (ascGetEnums readEnum readArray node leaf (fuel + 1) depth ptr)) := by
  -- on the fuel, for both decoders at once; past the depth limit both runs fail alike
  induction fuel with
  | zero =>
    refine ⟨fun depth ptr => ?_, fun depth ptr => ?_⟩
    · cases hd : depthExceeded depth
      case true =>
        rw [ascGetEnum_of_depthExceeded _ ptr hd, ascGetEnum_of_depthExceeded _ ptr hd]
        exact Decoded.Le.refl _
      case false => rw [ascGetEnum_zero ptr hd]; exact Decoded.none_le _
    · cases hd : depthExceeded depth
      case true =>
        rw [ascGetEnums_of_depthExceeded _ ptr hd, ascGetEnums_of_depthExceeded _ ptr hd]
        exact Decoded.Le.refl _
      case false => rw [ascGetEnums_zero ptr hd]; exact Decoded.none_le _
  | succ fuel ih =>
    refine ⟨fun depth ptr => ?_, fun depth ptr => ?_⟩
    · cases hd : depthExceeded depth
      case true =>
        rw [ascGetEnum_of_depthExceeded _ ptr hd, ascGetEnum_of_depthExceeded _ ptr hd]
        exact Decoded.Le.refl _
      case false =>
        rw [ascGetEnum_succ fuel ptr hd, ascGetEnum_succ (fuel + 1) ptr hd]
        refine Decoded.bind_le (Decoded.Le.refl _) fun ⟨kind, payload⟩ => ?_
        dsimp only
        cases node kind with
        | some build => exact Decoded.bind_le (ih.2 _ _) fun _ => Decoded.Le.refl _
        | none => exact Decoded.Le.refl _
    · cases hd : depthExceeded depth
      case true =>
        rw [ascGetEnums_of_depthExceeded _ ptr hd, ascGetEnums_of_depthExceeded _ ptr hd]
        exact Decoded.Le.refl _
      case false =>
        rw [ascGetEnums_succ fuel ptr hd, ascGetEnums_succ (fuel + 1) ptr hd]
        exact Decoded.bind_le (Decoded.Le.refl _) fun ptrs =>
          Decoded.mapM_le fun p _ => ih.1 _ p

/-- **A value that holds an array holding the value itself ends with the recursion limit**,
once the fuel covers the depth: each round of the cycle goes two levels deeper, and the depth
check answers first. -/
theorem ascGetEnum_cycle {p : UInt32} {kind : K} {payload : UInt64}
    {build : List V → V} {rest : List UInt32} (henum : readEnum p = .ok (kind, payload))
    (hnode : node kind = some build)
    (harray : readArray (EnumPayload.toPtr payload) = .ok (p :: rest)) (fuel : Nat) :
    (∀ depth, MAX_RECURSION_DEPTH ≤ fuel + depth →
      ascGetEnum readEnum readArray node leaf fuel depth p = some (.error .recursionLimit)) ∧
    (∀ depth, MAX_RECURSION_DEPTH ≤ fuel + depth →
      ascGetEnums readEnum readArray node leaf fuel depth (EnumPayload.toPtr payload) =
        some (.error .recursionLimit)) := by
  -- on the fuel, for the value and its array at once
  induction fuel with
  | zero =>
    have hd : ∀ depth, MAX_RECURSION_DEPTH ≤ 0 + depth → depthExceeded depth = true :=
      fun depth h => depthExceeded_iff.mpr (by omega)
    exact ⟨fun depth h => ascGetEnum_of_depthExceeded 0 p (hd depth h),
      fun depth h => ascGetEnums_of_depthExceeded 0 _ (hd depth h)⟩
  | succ fuel ih =>
    refine ⟨fun depth h => ?_, fun depth h => ?_⟩
    · cases hd : depthExceeded depth
      case true => exact ascGetEnum_of_depthExceeded _ p hd
      case false =>
        rw [ascGetEnum_succ fuel p hd, Decoded.lift, henum]
        simp only [Decoded.bind, hnode, ih.2 (depth + 1) (by omega)]
    · cases hd : depthExceeded depth
      case true => exact ascGetEnums_of_depthExceeded _ _ hd
      case false =>
        rw [ascGetEnums_succ fuel _ hd, Decoded.lift, harray]
        simp only [Decoded.bind, Decoded.mapM, ih.1 (depth + 1) (by omega)]

end Enum

/-! ### The decoders -/

section Decoders

variable (heap : AscHeap) (conv : AscConversions)

/-- The arms of `FromAscObj<AscEnum<StoreValueKind>> for store::Value` other than `Array`,
given the depth the decoder received. -/
def valueLeaf (depth : Nat) : StoreValueKind → UInt64 → Decoded Value
  | .string, payload => Decoded.bind (ascGetLeaf depth (heap.string (EnumPayload.toPtr payload)))
      fun s => some (.ok (.string s))
  | .int, payload => some (.ok (.int (EnumPayload.toI32 payload)))
  | .int8, payload => some (.ok (.int8 (EnumPayload.toI64 payload)))
  | .timestamp, payload =>
      Decoded.lift ((conv.timestamp (EnumPayload.toI64 payload)).map .timestamp)
  | .bigDecimal, payload => ascGetBigDecimal heap conv depth (EnumPayload.toPtr payload)
  | .bool, payload => some (.ok (.bool (payload != 0)))
  -- the nested arm, `node`
  | .array, _ => some (.ok .null)
  | .null, _ => some (.ok .null)
  | .bytes, payload => Decoded.bind (ascGetLeaf depth (heap.bytes (EnumPayload.toPtr payload)))
      fun bytes => some (.ok (.bytes bytes))
  | .bigInt, payload =>
      Decoded.bind (ascGetLeaf depth (heap.bytes (EnumPayload.toPtr payload) >>= conv.bigInt))
        fun i => some (.ok (.bigInt i))

/-- The nested arm of the decoder of `store::Value`: `Array` is a list of values. -/
def valueNode : StoreValueKind → Option (List Value → Value)
  | .array => some .list
  | _ => none

/-- `asc_get` into a `store::Value` (`FromAscObj<AscEnum<StoreValueKind>>`), with `fuel` nested
calls that decode further. -/
def ascGetValue (fuel depth : Nat) (ptr : UInt32) : Decoded Value :=
  ascGetEnum heap.storeEnum heap.array valueNode (valueLeaf heap conv) fuel depth ptr

/-- The arms of `FromAscObj<AscEnum<EthereumValueKind>> for DynSolValue` other than the arrays
and tuples, given the depth the decoder received. -/
def ethereumValueLeaf (depth : Nat) (kind : EthereumValueKind) (payload : UInt64) :
    Decoded DynSolValue :=
  let ptr := EnumPayload.toPtr payload
  let bytes := ascGetLeaf depth (heap.bytes ptr)
  match kind with
  | .address => Decoded.bind bytes fun bytes =>
      if bytes.length = 20 then some (.ok (.address bytes))
      else some (.error (.arrayLength 20 bytes.length))
  | .fixedBytes => Decoded.bind bytes fun bytes => Decoded.lift (conv.fixedBytes bytes)
  | .bytes => Decoded.bind bytes fun bytes => some (.ok (.bytes bytes))
  | .int => Decoded.bind (ascGetLeaf depth (heap.bytes ptr >>= conv.bigInt))
      fun n => Decoded.lift (conv.int256 true n)
  | .uint => Decoded.bind (ascGetLeaf depth (heap.bytes ptr >>= conv.bigInt))
      fun n => Decoded.lift (conv.int256 false n)
  | .bool => some (.ok (.bool (payload != 0)))
  | .string => Decoded.bind (ascGetLeaf depth (heap.string ptr)) fun s => some (.ok (.string s))
  -- the nested arms, `node`
  | .fixedArray | .array | .tuple => some (.ok (.tuple []))
  | .function => Decoded.bind bytes fun bytes =>
      if bytes.length = 24 then some (.ok (.function bytes))
      else some (.error (.arrayLength 24 bytes.length))

/-- The nested arms of the decoder of `DynSolValue`: fixed arrays, arrays and tuples. -/
def ethereumValueNode : EthereumValueKind → Option (List DynSolValue → DynSolValue)
  | .fixedArray => some .fixedArray
  | .array => some .array
  | .tuple => some .tuple
  | _ => none

/-- `asc_get` into a `DynSolValue` (`FromAscObj<AscEnum<EthereumValueKind>>`). -/
def ascGetEthereumValue (fuel depth : Nat) (ptr : UInt32) : Decoded DynSolValue :=
  ascGetEnum heap.ethereumEnum heap.array ethereumValueNode (ethereumValueLeaf heap conv)
    fuel depth ptr

/-- `asc_get` into a map entry `(String, store::Value)` (`FromAscObj<AscTypedMapEntry>`). -/
def ascGetEntry (fuel depth : Nat) (ptr : UInt32) : Decoded (String × Value) :=
  if depthExceeded depth then some (.error .recursionLimit)
  else
    Decoded.bind (Decoded.lift (heap.pair ptr)) fun (key, value) =>
    Decoded.bind (ascGetLeaf (depth + 1) (heap.string key)) fun key =>
    Decoded.bind (ascGetValue heap conv fuel (depth + 1) value) fun value =>
    some (.ok (key, value))

/-- `asc_get` into an entity, `HashMap<Word, store::Value>` (`FromAscObj<AscTypedMap>`): the
entries, an `Array` of entries each read by `asc_get`, in order. -/
def ascGetEntity (fuel depth : Nat) (ptr : UInt32) : Decoded (List (String × Value)) :=
  if depthExceeded depth then some (.error .recursionLimit)
  else
    Decoded.bind (Decoded.lift (heap.typedMap ptr)) fun entries =>
    if depthExceeded (depth + 1) then some (.error .recursionLimit)
    else
      Decoded.bind (Decoded.lift (heap.array entries)) fun ptrs =>
      Decoded.mapM (ascGetEntry heap conv fuel (depth + 2)) ptrs

/-! ### Every decoding finishes -/

theorem isSome_valueLeaf (depth : Nat) (kind : StoreValueKind) (payload : UInt64) :
    (valueLeaf heap conv depth kind payload).isSome := by
  cases kind with
  | string | bytes | bigInt => exact Decoded.isSome_bind (isSome_ascGetLeaf _ _) fun _ _ => rfl
  | bigDecimal => exact isSome_ascGetBigDecimal heap conv depth _
  | int | int8 | timestamp | bool | array | null => rfl

theorem isSome_ethereumValueLeaf (depth : Nat) (kind : EthereumValueKind) (payload : UInt64) :
    (ethereumValueLeaf heap conv depth kind payload).isSome := by
  -- the leaves read bytes or a string first, then check a length or convert
  cases kind with
  | address | function =>
    exact Decoded.isSome_bind (isSome_ascGetLeaf _ _) fun _ _ => by split <;> rfl
  | fixedBytes | bytes | int | uint | string =>
    exact Decoded.isSome_bind (isSome_ascGetLeaf _ _) fun _ _ => rfl
  | bool | fixedArray | array | tuple => rfl

theorem isSome_ascGetValue {fuel depth : Nat} (h : MAX_RECURSION_DEPTH ≤ fuel + depth)
    (ptr : UInt32) : (ascGetValue heap conv fuel depth ptr).isSome :=
  (isSome_ascGetEnum (isSome_valueLeaf heap conv) fuel).1 depth ptr h

theorem isSome_ascGetEthereumValue {fuel depth : Nat} (h : MAX_RECURSION_DEPTH ≤ fuel + depth)
    (ptr : UInt32) : (ascGetEthereumValue heap conv fuel depth ptr).isSome :=
  (isSome_ascGetEnum (isSome_ethereumValueLeaf heap conv) fuel).1 depth ptr h

theorem isSome_ascGetEntry {fuel depth : Nat} (h : MAX_RECURSION_DEPTH ≤ fuel + depth)
    (ptr : UInt32) : (ascGetEntry heap conv fuel depth ptr).isSome := by
  unfold ascGetEntry
  split
  · rfl
  · exact Decoded.isSome_bind rfl fun (_, value) _ =>
      Decoded.isSome_bind (isSome_ascGetLeaf _ _) fun _ _ =>
      Decoded.isSome_bind (isSome_ascGetValue heap conv (by omega) value) fun _ _ => rfl

theorem isSome_ascGetEntity {fuel depth : Nat} (h : MAX_RECURSION_DEPTH ≤ fuel + depth)
    (ptr : UInt32) : (ascGetEntity heap conv fuel depth ptr).isSome := by
  unfold ascGetEntity
  split
  · rfl
  · refine Decoded.isSome_bind rfl fun _ _ => ?_
    split
    · rfl
    · exact Decoded.isSome_bind rfl fun _ _ =>
        Decoded.isSome_mapM fun p _ => isSome_ascGetEntry heap conv (by omega) p

/-! ### The answer does not depend on the fuel -/

theorem ascGetEntry_mono (fuel depth : Nat) (ptr : UInt32) :
    Decoded.Le (ascGetEntry heap conv fuel depth ptr)
      (ascGetEntry heap conv (fuel + 1) depth ptr) := by
  unfold ascGetEntry
  split
  · exact Decoded.Le.refl _
  · refine Decoded.bind_le (Decoded.Le.refl _) fun (_, value) => ?_
    refine Decoded.bind_le (Decoded.Le.refl _) fun _ => ?_
    exact Decoded.bind_le ((ascGetEnum_mono fuel).1 _ value) fun _ => Decoded.Le.refl _

theorem ascGetEntity_mono (fuel depth : Nat) (ptr : UInt32) :
    Decoded.Le (ascGetEntity heap conv fuel depth ptr)
      (ascGetEntity heap conv (fuel + 1) depth ptr) := by
  unfold ascGetEntity
  split
  · exact Decoded.Le.refl _
  · refine Decoded.bind_le (Decoded.Le.refl _) fun _ => ?_
    split
    · exact Decoded.Le.refl _
    · exact Decoded.bind_le (Decoded.Le.refl _) fun _ =>
        Decoded.mapM_le fun p _ => ascGetEntry_mono heap conv fuel _ p

end Decoders

/-- **`asc_get` finishes on every heap, cycles included.** Started at depth zero, the decoders
of a `store::Value`, of an `ethabi` value and of an entity answer with fuel
`MAX_RECURSION_DEPTH`, so no run nests deeper than the limit, and more fuel changes no answer.
A value whose array holds the value itself, the shortest cycle of pointers, ends with the
recursion limit error. -/
theorem ascGet_terminates (heap : AscHeap) (conv : AscConversions) :
    (∀ fuel ptr, MAX_RECURSION_DEPTH ≤ fuel →
      (ascGetValue heap conv fuel 0 ptr).isSome ∧
      ascGetValue heap conv fuel 0 ptr = ascGetValue heap conv MAX_RECURSION_DEPTH 0 ptr) ∧
    (∀ fuel ptr, MAX_RECURSION_DEPTH ≤ fuel →
      (ascGetEthereumValue heap conv fuel 0 ptr).isSome ∧
      ascGetEthereumValue heap conv fuel 0 ptr =
        ascGetEthereumValue heap conv MAX_RECURSION_DEPTH 0 ptr) ∧
    (∀ fuel ptr, MAX_RECURSION_DEPTH ≤ fuel →
      (ascGetEntity heap conv fuel 0 ptr).isSome ∧
      ascGetEntity heap conv fuel 0 ptr = ascGetEntity heap conv MAX_RECURSION_DEPTH 0 ptr) ∧
    (∀ p payload rest, heap.storeEnum p = .ok (.array, payload) →
      heap.array (EnumPayload.toPtr payload) = .ok (p :: rest) →
      ascGetValue heap conv MAX_RECURSION_DEPTH 0 p = some (.error .recursionLimit)) := by
  have hmax : MAX_RECURSION_DEPTH ≤ MAX_RECURSION_DEPTH + 0 := Nat.le_refl _
  refine ⟨fun fuel ptr h => ⟨isSome_ascGetValue heap conv (by omega) ptr, ?_⟩,
    fun fuel ptr h => ⟨isSome_ascGetEthereumValue heap conv (by omega) ptr, ?_⟩,
    fun fuel ptr h => ⟨isSome_ascGetEntity heap conv (by omega) ptr, ?_⟩,
    fun p payload rest henum harray => ?_⟩
  · exact Decoded.eq_of_le_of_isSome (fun n => (ascGetEnum_mono n).1 0 ptr)
      (isSome_ascGetValue heap conv hmax ptr) h
  · exact Decoded.eq_of_le_of_isSome (fun n => (ascGetEnum_mono n).1 0 ptr)
      (isSome_ascGetEthereumValue heap conv hmax ptr) h
  · exact Decoded.eq_of_le_of_isSome (fun n => ascGetEntity_mono heap conv n 0 ptr)
      (isSome_ascGetEntity heap conv hmax ptr) h
  · exact (ascGetEnum_cycle henum rfl harray MAX_RECURSION_DEPTH).1 0 hmax

/-- A list value whose array holds the list itself. -/
theorem ascGet_terminates_self_list :
    let conv : AscConversions := ⟨.ok, fun _ => .ok 0, fun _ _ => .ok .null,
      fun bytes => .ok (.fixedBytes bytes), fun _ n => .ok (.int n)⟩
    let heap : AscHeap := ⟨fun _ => .ok (.array, 8), fun _ => .ok (.bool, 0),
      fun _ => .ok [16], fun _ => .ok 0, fun _ => .ok (0, 0), fun _ => .ok "", fun _ => .ok []⟩
    heap.storeEnum 16 = .ok (.array, 8) ∧ heap.array (EnumPayload.toPtr 8) = .ok [16] ∧
      ascGetValue heap conv MAX_RECURSION_DEPTH 0 16 = some (.error .recursionLimit) := by
  intro conv heap
  exact ⟨rfl, rfl, (ascGet_terminates heap conv).2.2.2 16 8 [] rfl rfl⟩

end GraphNode
