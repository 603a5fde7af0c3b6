import Mathlib

/-!
# Little-endian bytes

Integers as the bytes of their little-endian encodings, as Rust's standard library and
`num-bigint` write and read them. `leBytes` writes an unsigned value over a fixed number of
bytes and `leValue` reads bytes back. `toSignedBytesLe` is `BigInt::to_signed_bytes_le`, the
shortest two's-complement encoding, and `i64FromLeBytes` is `i64::from_le_bytes`.

The one fact a decoder needs of them: the shortest encoding of an integer of the range of
`i64`, extended to eight bytes by its sign, reads back as the integer
(`i64FromLeBytes_toSignedBytesLe`); and the shortest encoding is at most eight bytes long
exactly on that range (`length_toSignedBytesLe_le_eight_iff`).
-/

namespace GraphNode

/-! ### Unsigned values -/

/-- The value of little-endian bytes. -/
def leValue : List UInt8 → Nat
  | [] => 0
  | b :: bs => b.toNat + 256 * leValue bs

/-- The `n` low bytes of `v`, least significant first. -/
def leBytes : Nat → Nat → List UInt8
  | 0, _ => []
  | n + 1, v => (v % 256).toUInt8 :: leBytes n (v / 256)

@[simp] theorem length_leBytes (n v : Nat) : (leBytes n v).length = n := by
  induction n generalizing v with
  | zero => rfl
  | succ n ih => simp [leBytes, ih]

/-- Reading back the `n` low bytes of `v` gives `v` modulo `256 ^ n`. -/
theorem leValue_leBytes (n v : Nat) : leValue (leBytes n v) = v % 256 ^ n := by
  induction n generalizing v with
  | zero => simp [leBytes, leValue, Nat.mod_one]
  | succ n ih =>
    rw [leBytes, leValue, ih, pow_succ', Nat.mod_mul]
    simp

theorem leValue_append (l r : List UInt8) :
    leValue (l ++ r) = leValue l + 256 ^ l.length * leValue r := by
  induction l with
  | nil => simp [leValue]
  | cons b l ih =>
    rw [List.cons_append, leValue, leValue, ih, List.length_cons, pow_succ']
    ring

@[simp] theorem leValue_replicate_zero (k : Nat) : leValue (List.replicate k 0) = 0 := by
  induction k with
  | zero => rfl
  | succ k ih => simp [List.replicate_succ, leValue, ih]

/-- Bytes of all ones are one less than the next power of `256`. -/
theorem leValue_replicate_255 (k : Nat) : leValue (List.replicate k 255) + 1 = 256 ^ k := by
  induction k with
  | zero => rfl
  | succ k ih =>
    rw [List.replicate_succ, leValue, pow_succ', ← ih]
    simp
    ring

/-! ### Two's complement -/

/-- The number of bytes of `BigInt::to_signed_bytes_le`: one more than the whole bytes of the
bits of the value, or of its complement for a negative value. It is the least `n`, and at
least one, for which the value lies in `[-2 ^ (8 n - 1), 2 ^ (8 n - 1))`. -/
def signedBytesLength (x : Int) : Nat :=
  Nat.size (if 0 ≤ x then x.toNat else (-x - 1).toNat) / 8 + 1

/-- `BigInt::to_signed_bytes_le`: the shortest two's-complement encoding, least significant
byte first; zero is the single byte `0`. -/
def toSignedBytesLe (x : Int) : List UInt8 :=
  leBytes (signedBytesLength x) (x % 2 ^ (8 * signedBytesLength x)).toNat

/-- `i64::from_le_bytes`: eight bytes read as a two's-complement integer. -/
def i64FromLeBytes (bs : List UInt8) : Int :=
  Int.bmod (leValue bs) (2 ^ 64)

@[simp] theorem length_toSignedBytesLe (x : Int) :
    (toSignedBytesLe x).length = signedBytesLength x := by
  simp [toSignedBytesLe]

/-- The magnitude the length is measured on fits the bytes below the sign bit. -/
theorem magnitude_lt (x : Int) :
    (if 0 ≤ x then x.toNat else (-x - 1).toNat) < 2 ^ (8 * (signedBytesLength x - 1) + 7) := by
  set m := if 0 ≤ x then x.toNat else (-x - 1).toNat
  have hsize : Nat.size m ≤ 8 * (signedBytesLength x - 1) + 7 := by
    simp only [signedBytesLength, Nat.add_sub_cancel, m]
    omega
  exact (Nat.lt_size_self m).trans_le (Nat.pow_le_pow_right (by norm_num) hsize)

/-- An integer lies in the range its encoding can hold. -/
theorem range_of_signedBytesLength (x : Int) :
    -2 ^ (8 * (signedBytesLength x - 1) + 7) ≤ x ∧ x < 2 ^ (8 * (signedBytesLength x - 1) + 7) := by
  have h := magnitude_lt x
  set k := 8 * (signedBytesLength x - 1) + 7
  have hk : (2 : Int) ^ k = ((2 ^ k : Nat) : Int) := by push_cast; rfl
  by_cases hx : 0 ≤ x
  · rw [if_pos hx] at h
    constructor <;> omega
  · rw [if_neg hx] at h
    constructor <;> omega

/-- **The shortest encoding is at most eight bytes long exactly on the range of `i64`.** -/
theorem length_toSignedBytesLe_le_eight_iff (x : Int) :
    (toSignedBytesLe x).length ≤ 8 ↔ -2 ^ 63 ≤ x ∧ x < 2 ^ 63 := by
  rw [length_toSignedBytesLe, signedBytesLength]
  set m := if 0 ≤ x then x.toNat else (-x - 1).toNat with hm
  have hsize : Nat.size m / 8 + 1 ≤ 8 ↔ m < 2 ^ 63 := by
    rw [← Nat.size_le]
    omega
  rw [hsize]
  have h63 : ((2 ^ 63 : Nat) : Int) = 2 ^ 63 := by norm_num
  by_cases hx : 0 ≤ x
  · rw [hm, if_pos hx]
    omega
  · rw [hm, if_neg hx]
    omega

/-- **The shortest encoding, extended by its sign to eight bytes, reads back as the integer**,
for an integer of the range of `i64`. -/
theorem i64FromLeBytes_toSignedBytesLe {x : Int} (h : -2 ^ 63 ≤ x ∧ x < 2 ^ 63) :
    i64FromLeBytes (toSignedBytesLe x ++
      List.replicate (8 - signedBytesLength x) (if 0 ≤ x then 0 else 255)) = x := by
  have hn : signedBytesLength x ≤ 8 := by
    simpa using (length_toSignedBytesLe_le_eight_iff x).mpr h
  have hrange := range_of_signedBytesLength x
  have hpos : 0 < signedBytesLength x := Nat.succ_pos _
  unfold i64FromLeBytes
  rw [leValue_append, toSignedBytesLe, leValue_leBytes, length_leBytes]
  generalize signedBytesLength x = n at hn hpos hrange ⊢
  -- `2 ^ (8 n)` is the modulus of the encoding, `2 ^ 64` that of `i64`
  have hK : (2 : Int) ^ (8 * n) = 2 * 2 ^ (8 * (n - 1) + 7) := by
    rw [← pow_succ']
    congr 1
    omega
  have h256 : (256 : Nat) ^ n = 2 ^ (8 * n) := by
    rw [pow_mul]
    norm_num
  have hcast : ((2 ^ (8 * n) : Nat) : Int) = 2 ^ (8 * n) := by push_cast; rfl
  have hbmod : ∀ y : Int, -2 ^ 63 ≤ y → y < 2 ^ 63 → y.bmod (2 ^ 64) = y := fun y h₁ h₂ =>
    Int.bmod_eq_of_le (by norm_num; omega) (by norm_num; omega)
  rw [h256]
  by_cases hx : 0 ≤ x
  · -- the encoding is the value itself, padded with zeros
    rw [if_pos hx, leValue_replicate_zero, Nat.mul_zero, Nat.add_zero,
      Int.emod_eq_of_lt hx (by omega), Nat.mod_eq_of_lt (by omega), Int.toNat_of_nonneg hx]
    exact hbmod x h.1 h.2
  · -- the encoding is the value plus `2 ^ (8 n)`, padded with ones up to `2 ^ 64`
    rw [if_neg hx]
    have hmod : x % 2 ^ (8 * n) = x + 2 ^ (8 * n) := by
      rw [← Int.add_emod_right]
      exact Int.emod_eq_of_lt (by omega) (by omega)
    have hones : ((leValue (List.replicate (8 - n) 255) : Nat) : Int) + 1 = 2 ^ (8 * (8 - n)) := by
      have h' := congrArg (fun m : Nat => (m : Int)) (leValue_replicate_255 (8 - n))
      push_cast at h'
      rw [h', pow_mul]
      norm_num
    have h64 : (2 : Int) ^ (8 * n) * 2 ^ (8 * (8 - n)) = 2 ^ 64 := by
      rw [← pow_add]
      congr 1
      omega
    rw [Nat.mod_eq_of_lt (by omega)]
    push_cast
    rw [Int.toNat_of_nonneg (by omega), hmod]
    have hval : x + 2 ^ (8 * n) + 2 ^ (8 * n) * ((leValue (List.replicate (8 - n) 255) : Nat) : Int)
        = x + 2 ^ 64 := by
      calc x + 2 ^ (8 * n) + 2 ^ (8 * n) * ((leValue (List.replicate (8 - n) 255) : Nat) : Int)
          = x + 2 ^ (8 * n) * (((leValue (List.replicate (8 - n) 255) : Nat) : Int) + 1) := by
            ring
        _ = x + 2 ^ 64 := by rw [hones, h64]
    rw [hval]
    have hshift := Int.add_bmod_right x (2 ^ 64)
    norm_num at hshift ⊢
    rw [hshift]
    exact hbmod x h.1 h.2

end GraphNode
