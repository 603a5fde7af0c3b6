import GraphNode.Lib.Bytes
import GraphNode.Lib.List

/-!
# Reading values from the memory of a mapping

A mapping hands its values to the host as AssemblyScript objects in its wasm memory, and the
host decodes them with `FromAscObj`. Everything it reads there — pointers, lengths, offsets,
the bytes of a `BigInt` — is under the mapping's control, so a decoder must turn every bad
value into a `DeterministicHostError` and never panic.

Two decoders slice without a check. `ArrayBuffer::get` reads `self.content[byte_offset..]`,
which panics when the offset lies beyond the content; `TypedArray::to_vec` hands it the
distance of the view's `data_start` from its buffer, which the mapping writes. And
`BigDecimal::from_asc_obj` copies the bytes of the exponent into an eight-byte array with
`byte_array[..bytes.len()]`, which panics when the exponent needs more than eight bytes.
`none` stands for a panic in the model. The decoders panic exactly there
(`ArrayBuffer.get_eq_none_iff`, `TypedArray.toVec_eq_none_iff`,
`BigDecimal.ascExponent_eq`); where they do not, the exponent is read back unchanged.

The heap is not modelled: a decoder takes the bytes it has read. The normalization that
`BigDecimal::new` applies (rounding to 34 significant digits, dropping trailing zeros) is a
parameter.
-/

namespace GraphNode

/-- `DeterministicHostError`, for the errors the decoders modelled here raise themselves. -/
inductive DeterministicHostError where
  /-- "Tried to read AssemblyScript value that is 'null'. ..." -/
  | nullPointer
  /-- "Subtract overflow on pointer: {data_start}" -/
  | subtractOverflow (ptr : UInt32)
  /-- "big decimal exponent `{exp}` is outside the `{min_exp}` to `{max_exp}` range" -/
  | bigDecimalExponent (exp minExp maxExp : Int)
  /-- "recursion limit reached" -/
  | recursionLimit
  /-- "expected array of length {LEN}, found length {len}" -/
  | arrayLength (expected found : Nat)
  /-- An error of the decoder of an element, `T::from_asc_bytes`. -/
  | element (message : String)
  deriving DecidableEq, Repr

/-! ### Arrays -/

namespace ArrayBuffer

variable {α : Type}

/-- `ArrayBuffer::get`, alike in both versions of the ABI: `length` elements of `size` bytes
from `byte_offset` on, each read by `fromAscBytes`, stopping at the first error. `none` is a
panic: `self.content[byte_offset..]` panics when the offset lies beyond the content, and
`chunks` on a size of zero. -/
def get (content : List UInt8) (byteOffset length : UInt32) (size : Nat)
    (fromAscBytes : List UInt8 → Except DeterministicHostError α) :
    Option (Except DeterministicHostError (List α)) :=
  if content.length < byteOffset.toNat ∨ size = 0 then none
  else some (((chunks size (content.drop byteOffset.toNat)).take length.toNat).mapM fromAscBytes)

/-- **`ArrayBuffer::get` panics exactly when the offset lies beyond the content**, for
elements of at least one byte. -/
theorem get_eq_none_iff (content : List UInt8) (byteOffset length : UInt32) {size : Nat}
    (hsize : 0 < size) (fromAscBytes : List UInt8 → Except DeterministicHostError α) :
    get content byteOffset length size fromAscBytes = none ↔
      content.length < byteOffset.toNat := by
  unfold get
  by_cases h : content.length < byteOffset.toNat
  · simp [h]
  · simp [h, Nat.pos_iff_ne_zero.mp hsize]

end ArrayBuffer

/-- A `TypedArray` of the newer ABI: a view into an `ArrayBuffer`, by the pointer to the buffer,
the pointer to where its data start, and their length in bytes. -/
structure TypedArray where
  buffer : UInt32
  dataStart : UInt32
  byteLength : UInt32

namespace TypedArray

variable {α : Type}

/-- `TypedArray::to_vec`, with the content of the buffer as `read_ptr` reads it: the elements
from the offset of `data_start` into the buffer on. `none` is a panic, as in
`ArrayBuffer.get`, or the division of the length by a size of zero. -/
def toVec (self : TypedArray) (content : List UInt8) (size : Nat)
    (fromAscBytes : List UInt8 → Except DeterministicHostError α) :
    Option (Except DeterministicHostError (List α)) :=
  if self.buffer = 0 then some (.error .nullPointer)
  -- `checked_sub`
  else if self.dataStart < self.buffer then some (.error (.subtractOverflow self.dataStart))
  else if size = 0 then none
  else ArrayBuffer.get content (self.dataStart - self.buffer)
    (self.byteLength / size.toUInt32) size fromAscBytes

/-- **`TypedArray::to_vec` panics exactly when `data_start` lies beyond the buffer's content**,
once the pointers have passed their checks. -/
theorem toVec_eq_none_iff (self : TypedArray) (content : List UInt8) {size : Nat}
    (hbuffer : self.buffer ≠ 0) (hstart : self.buffer ≤ self.dataStart) (hsize : 0 < size)
    (fromAscBytes : List UInt8 → Except DeterministicHostError α) :
    self.toVec content size fromAscBytes = none ↔
      content.length < (self.dataStart - self.buffer).toNat := by
  have hlt : ¬self.dataStart < self.buffer := UInt32.not_lt.mpr hstart
  rw [toVec, if_neg hbuffer, if_neg hlt, if_neg (Nat.pos_iff_ne_zero.mp hsize)]
  exact ArrayBuffer.get_eq_none_iff content _ _ hsize fromAscBytes

end TypedArray

/-! ### Big decimals -/

namespace BigDecimal

/-- `BigDecimal::MIN_EXP`. -/
def MIN_EXP : Int := -6143

/-- `BigDecimal::MAX_EXP`. -/
def MAX_EXP : Int := 6144

/-- The exponent `BigDecimal::from_asc_obj` reads: the bytes of `exp.to_signed_bytes_le()`
copied over eight bytes of the sign of `exp`, read by `i64::from_le_bytes`. `none` is the
panic of the copy when the bytes are more than eight. -/
def ascExponent (exp : Int) : Option Int :=
  let bytes := toSignedBytesLe exp
  let byteArray := List.replicate 8 (if 0 ≤ exp then (0 : UInt8) else 255)
  if bytes.length ≤ byteArray.length then
    some (i64FromLeBytes (bytes ++ byteArray.drop bytes.length))
  else none

/-- **The exponent is read back unchanged on the range of `i64`, and panics outside it.** -/
theorem ascExponent_eq (exp : Int) :
    ascExponent exp = if -2 ^ 63 ≤ exp ∧ exp < 2 ^ 63 then some exp else none := by
  unfold ascExponent
  simp only [List.length_replicate]
  by_cases h : -2 ^ 63 ≤ exp ∧ exp < 2 ^ 63
  · have hlen := (length_toSignedBytesLe_le_eight_iff exp).mpr h
    rw [if_pos hlen, if_pos h, List.drop_replicate, length_toSignedBytesLe,
      i64FromLeBytes_toSignedBytesLe h]
  · have hlen : ¬(toSignedBytesLe exp).length ≤ 8 :=
      fun hlen => h ((length_toSignedBytesLe_le_eight_iff exp).mp hlen)
    rw [if_neg hlen, if_neg h]

/-- `BigDecimal::from_asc_obj` on the decoded digits and exponent: the big decimal as the digits
and scale of the `bigdecimal` crate once `normalized`, if the exponent of the normalized value
lies in `[MIN_EXP, MAX_EXP]`. `BigDecimal::new` negates the `i64` exponent into a scale, which
wraps for the least `i64` in a release build. -/
def fromAscObj (normalized : Int × Int → Int × Int) (digits exp : Int) :
    Option (Except DeterministicHostError (Int × Int)) :=
  (ascExponent exp).map fun e =>
    let bigDecimal := normalized (digits, Int.bmod (-e) (2 ^ 64))
    let exp := -bigDecimal.2
    if exp < MIN_EXP ∨ MAX_EXP < exp then .error (.bigDecimalExponent exp MIN_EXP MAX_EXP)
    else .ok bigDecimal

end BigDecimal

/-- **Decoding panics on values the mapping controls.** `BigDecimal::from_asc_obj` panics
exactly when its exponent lies outside the range of `i64`, whatever the digits. For elements
of at least one byte, `ArrayBuffer::get` panics exactly when the offset lies beyond the
content; and `TypedArray::to_vec`, once its pointers pass their checks, panics exactly when
`data_start` lies beyond the content of the buffer. -/
theorem asc_decode_panics :
    (∀ (normalized : Int × Int → Int × Int) (digits exp : Int),
      BigDecimal.fromAscObj normalized digits exp = none ↔ exp < -2 ^ 63 ∨ 2 ^ 63 ≤ exp) ∧
    (∀ {α : Type} (content : List UInt8) (byteOffset length : UInt32) (size : Nat)
      (fromAscBytes : List UInt8 → Except DeterministicHostError α), 0 < size →
      (ArrayBuffer.get content byteOffset length size fromAscBytes = none ↔
        content.length < byteOffset.toNat)) ∧
    (∀ {α : Type} (self : TypedArray) (content : List UInt8) (size : Nat)
      (fromAscBytes : List UInt8 → Except DeterministicHostError α),
      self.buffer ≠ 0 → self.buffer ≤ self.dataStart → 0 < size →
      (self.toVec content size fromAscBytes = none ↔
        content.length < (self.dataStart - self.buffer).toNat)) := by
  refine ⟨fun normalized digits exp => ?_,
    fun content byteOffset length size fromAscBytes hsize =>
      ArrayBuffer.get_eq_none_iff content byteOffset length hsize fromAscBytes,
    fun self content size fromAscBytes hbuffer hstart hsize =>
      self.toVec_eq_none_iff content hbuffer hstart hsize fromAscBytes⟩
  rw [BigDecimal.fromAscObj, Option.map_eq_none_iff, BigDecimal.ascExponent_eq]
  by_cases h : -2 ^ 63 ≤ exp ∧ exp < 2 ^ 63
  · simp only [if_pos h, reduceCtorEq, false_iff, not_or, not_lt]
    exact ⟨h.1, not_le.mpr h.2⟩
  · simp only [if_neg h, true_iff]
    omega

/-- The panics at an exponent of `2 ^ 64`, and at a view whose data start one byte after the
end of an empty buffer. -/
theorem asc_decode_panics_at_two_pow_64 :
    BigDecimal.fromAscObj id 1 (2 ^ 64) = none ∧
    (0 < 1 ∧ (ArrayBuffer.get [] 1 1 1 (fun _ => .ok ()) = none ↔
      ([] : List UInt8).length < (1 : UInt32).toNat)) ∧
    (let view : TypedArray := ⟨8, 9, 1⟩
     view.buffer ≠ 0 ∧ view.buffer ≤ view.dataStart ∧ 0 < 1 ∧
      (view.toVec [] 1 (fun _ => .ok ()) = none ↔
        ([] : List UInt8).length < (view.dataStart - view.buffer).toNat)) :=
  ⟨(asc_decode_panics.1 id 1 (2 ^ 64)).mpr (.inr (by norm_num)),
    ⟨by decide, asc_decode_panics.2.1 [] 1 1 1 (fun _ => .ok ()) (by decide)⟩,
    by decide, by decide, by decide,
    asc_decode_panics.2.2 ⟨8, 9, 1⟩ [] 1 (fun _ => .ok ()) (by decide) (by decide) (by decide)⟩

end GraphNode
