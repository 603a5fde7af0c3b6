import GraphNode.Lib.Decimal

/-!
# `BigDecimal` in a `numeric` column

The store writes a `BigDecimal` to Postgres as a `PgNumeric`: a sign, a `weight`, a `scale` and
digits in base `10000`, the most significant first; the first digit stands at the power `weight`
of `10000`, and `scale` counts the decimal digits after the point. `From<&BigDecimal> for
PgNumeric` (`pgNumericOf`) and `TryFrom<&PgNumeric> for BigDecimal` (`tryFromPgNumeric`) are
modelled with the machine types of the source: digits and weight are `i16`, the scale `u16`.

The store's `BigDecimal` wraps the decimal of the `bigdecimal` crate (`OldBigDecimal`, a
`GraphNode.Decimal`), whose `with_scale` the decoder calls. The crate is not part of the
repository: its `with_scale` is a parameter (`Decimal.Rescale`), with the one law the round trip
needs, that a move to a scale at which the value has a representation keeps the value
(`Decimal.Rescale.withScale_value`). Diesel's binary form of a
`PgNumeric` is not part of the repository and is not modelled: writing a value through `ToSql`
and reading it back through `FromSql` is the round trip of the two conversions.

* The encoder writes the integer, padded with zeros up to a digit boundary, in base `10000`
  (`toBase10000`, which agrees with `Nat.digits`), and drops the zero digits at the low end
  (`pgNumericOf_of_ne_zero`).
* Its digits are digits of base `10000` with no zero at either end (`digits_pgNumericOf`).
* Reading back gives the same number whenever the scale fits a `u16` and the number of digits
  fits the `i16` weight (`tryFromPgNumeric_pgNumericOf`); the store's decimals, with at most 34
  significant digits and a scale in `[-6144, 16383]`, always do (`pgNumeric_round_trip`).
-/

namespace GraphNode

/-! ### The types -/

/-- `old_bigdecimal::BigDecimal`, the decimal of the `bigdecimal` crate. -/
abbrev OldBigDecimal := Decimal

/-- `num_bigint::Sign`. -/
inductive Sign
  | minus
  | noSign
  | plus
  deriving DecidableEq, Repr

/-- `sign` of a decimal of the crate: the sign of its integer. -/
def OldBigDecimal.sign (d : OldBigDecimal) : Sign :=
  if d.intVal < 0 then .minus else if d.intVal = 0 then .noSign else .plus

/-- `BigInt::from_biguint`: a magnitude with a sign; `NoSign` gives zero. -/
def fromBiguint (sign : Sign) (n : Nat) : Int :=
  match sign with
  | .minus => -n
  | .noSign => 0
  | .plus => n

/-- The store's `BigDecimal`, a wrapper of the crate's decimal. -/
structure BigDecimal where
  val : OldBigDecimal
  deriving DecidableEq, Repr

/-- Diesel's `PgNumeric`. -/
inductive PgNumeric
  | positive (weight : Int16) (scale : UInt16) (digits : List Int16)
  | negative (weight : Int16) (scale : UInt16) (digits : List Int16)
  | naN
  deriving DecidableEq, Repr

/-- The digits of a `PgNumeric`; `NaN` has none. -/
def PgNumeric.digits : PgNumeric → List Int16
  | .positive _ _ digits => digits
  | .negative _ _ digits => digits
  | .naN => []

/-! ### The conversions -/

/-- `ToBase10000`: the digits of `v` in base `10000`, the least significant first. The iterator
yields a digit and goes on while the quotient is not zero, so `0` has the one digit `0`; a digit
is below `10000`, so `to_i16` never fails. -/
def toBase10000 (v : Nat) : List Int16 :=
  (v % 10000).toInt16 :: if hdiv : v / 10000 = 0 then [] else toBase10000 (v / 10000)
termination_by v
decreasing_by exact Nat.div_lt_self (Nat.pos_of_ne_zero fun hv => hdiv (by rw [hv])) (by norm_num)

/-- `From<&BigDecimal> for PgNumeric`. -/
def pgNumericOf (decimal : BigDecimal) : PgNumeric :=
  -- `as_bigint_and_exponent`
  let integer := decimal.val.intVal
  let scale := decimal.val.scale
  -- a negative scale goes into the integer as zeros, and the scale becomes `0`
  let integer := if scale < 0 then integer * 10 ^ (-scale).toNat else integer
  let scale : UInt16 := if scale < 0 then 0 else scale.toNat.toUInt16
  -- `abs` and `to_biguint`, with the zeros that put the point on a boundary of digits
  let integer := integer.natAbs * 10 ^ (4 - scale % 4).toNat
  let digits := (toBase10000 integer).reverse
  let digitsAfterDecimal := scale / 4 + 1
  let weight := digits.length.toInt16 - digitsAfterDecimal.toInt16 - 1
  let unnecessaryZeroes := (digits.reverse.takeWhile (· == 0)).length
  let relevantDigits := digits.length - unnecessaryZeroes
  let digits := digits.take relevantDigits
  match decimal.val.sign with
  | .plus => .positive weight scale digits
  | .minus => .negative weight scale digits
  | .noSign => .positive 0 0 [0]

/-- `digit as u64` for an `i16` digit: the sign is extended, so the digit modulo `2 ^ 64`. -/
def asU64 (digit : Int16) : Nat := (digit.toInt % 2 ^ 64).toNat

section Decode

variable (rescale : Decimal.Rescale)

/-- The decimal `TryFrom<&PgNumeric>` builds from a sign, a weight, a scale and digits. -/
def fromPgNumericParts (sign : Sign) (weight : Int16) (scale : UInt16) (digits : List Int16) :
    BigDecimal :=
  let result := digits.foldl (fun result digit => result * 10000 + asU64 digit) 0
  let count : Int := digits.length
  -- the first digit got the factor `10000 ^ (count - 1)`, but should get `10000 ^ weight`
  let correctionExp := 4 * (weight.toInt - count + 1)
  ⟨rescale.withScale ⟨fromBiguint sign result, -correctionExp⟩ scale.toNat⟩

/-- `TryFrom<&PgNumeric> for BigDecimal`. -/
def tryFromPgNumeric : PgNumeric → Except String BigDecimal
  | .positive weight scale digits => .ok (fromPgNumericParts rescale .plus weight scale digits)
  | .negative weight scale digits => .ok (fromPgNumericParts rescale .minus weight scale digits)
  | .naN => .error "NaN is not (yet) supported in BigDecimal"

end Decode

/-! ### Machine casts -/

theorem toInt_toInt16_of_lt {x : Nat} (h : x < 2 ^ 15) : x.toInt16.toInt = x := by
  rw [show x.toInt16 = Int16.ofNat x from rfl, Int16.toInt_ofNat']
  apply Int.bmod_eq_of_le <;> simp only [Int16.size] <;> omega

theorem toInt_uint16_toInt16 (s : UInt16) : s.toInt16.toInt = (s.toNat : Int).bmod 65536 := by
  rw [Int16.toInt, BitVec.toInt_eq_toNat_bmod]
  rfl

theorem asU64_toInt16 {x : Nat} (h : x < 2 ^ 15) : asU64 x.toInt16 = x := by
  rw [asU64, toInt_toInt16_of_lt h]
  omega

theorem toNat_four_sub_mod_four (s : UInt16) : (4 - s % 4).toNat = 4 - s.toNat % 4 := by
  have h : s % 4 ≤ 4 := by
    rw [UInt16.le_iff_toNat_le, UInt16.toNat_mod]
    have := Nat.mod_lt s.toNat (show 0 < (4 : UInt16).toNat by decide)
    simp only [UInt16.toNat_ofNat] at this ⊢
    omega
  rw [UInt16.toNat_sub_of_le _ _ h, UInt16.toNat_mod]
  rfl

theorem toNat_div_four_add_one (s : UInt16) : (s / 4 + 1).toNat = s.toNat / 4 + 1 := by
  rw [UInt16.toNat_add, UInt16.toNat_div]
  have := s.toNat_lt
  simp only [UInt16.toNat_ofNat, Nat.reducePow, Nat.reduceMod]
  omega

/-! ### Base `10000` -/

theorem toBase10000_zero : toBase10000 0 = [0] := by
  rw [toBase10000]
  rfl

/-- **`ToBase10000` is `Nat.digits 10000`** on a nonzero integer. -/
theorem toBase10000_eq_digits {v : Nat} (hv : v ≠ 0) :
    toBase10000 v = (Nat.digits 10000 v).map Nat.toInt16 := by
  induction v using Nat.strong_induction_on with
  | _ v ih =>
    rw [toBase10000, Nat.digits_eq_cons_digits_div (by norm_num) hv, List.map_cons]
    by_cases hdiv : v / 10000 = 0
    · rw [dif_pos hdiv, hdiv, Nat.digits_zero, List.map_nil]
    · have hlt : v / 10000 < v := Nat.div_lt_self (Nat.pos_of_ne_zero hv) (by norm_num)
      rw [dif_neg hdiv, ih (v / 10000) hlt hdiv]

/-- Every digit is a digit of base `10000`. -/
theorem mem_toBase10000 {v : Nat} {x : Int16} (hx : x ∈ toBase10000 v) :
    ∃ n < 10000, x = n.toInt16 := by
  by_cases hv : v = 0
  · rw [hv, toBase10000_zero, List.mem_singleton] at hx
    exact ⟨0, by norm_num, hx⟩
  · rw [toBase10000_eq_digits hv] at hx
    obtain ⟨n, hn, rfl⟩ := List.mem_map.mp hx
    exact ⟨n, Nat.digits_lt_base (by norm_num) hn, rfl⟩

theorem map_asU64_toBase10000 {v : Nat} (hv : v ≠ 0) :
    (toBase10000 v).map asU64 = Nat.digits 10000 v := by
  rw [toBase10000_eq_digits hv, List.map_map]
  conv_rhs => rw [← List.map_id (Nat.digits 10000 v)]
  refine List.map_congr_left fun n hn => ?_
  have hlt := Nat.digits_lt_base (by norm_num) hn
  exact asU64_toInt16 (by omega)

/-- The most significant digit of a nonzero integer is not zero. -/
theorem getLast_toBase10000 {v : Nat} (hv : v ≠ 0) (h : toBase10000 v ≠ []) :
    (toBase10000 v).getLast h ≠ 0 := by
  have hd : Nat.digits 10000 v ≠ [] := Nat.digits_ne_nil_iff_ne_zero.mpr hv
  have hlast := Nat.getLast_digit_ne_zero 10000 hv
  simp only [toBase10000_eq_digits hv, List.getLast_map]
  intro h0
  have hlt := Nat.digits_lt_base (by norm_num) (List.getLast_mem hd)
  have := congrArg Int16.toInt h0
  rw [toInt_toInt16_of_lt (by omega), Int16.toInt_zero] at this
  exact hlast (by exact_mod_cast this)

theorem length_toBase10000_le {v n : Nat} (hn : 0 < n) (hv : v < 10000 ^ n) :
    (toBase10000 v).length ≤ n := by
  by_cases h0 : v = 0
  · rw [h0, toBase10000_zero]
    exact hn
  · rw [toBase10000_eq_digits h0, List.length_map]
    exact (Nat.digits_length_le_iff (by norm_num) v).mpr hv

/-! ### What the encoder writes -/

/-- The scale `PgNumeric::from` writes: `0` for a negative scale, else the scale cast to `u16`. -/
def pgScale (scale : Int) : UInt16 := if scale < 0 then 0 else scale.toNat.toUInt16

/-- The integer whose base-`10000` digits `PgNumeric::from` writes. -/
def pgCoefficient (d : OldBigDecimal) : Nat :=
  (if d.scale < 0 then d.intVal * 10 ^ (-d.scale).toNat else d.intVal).natAbs *
    10 ^ (4 - pgScale d.scale % 4).toNat

/-- The weight `PgNumeric::from` writes. -/
def pgWeight (d : OldBigDecimal) : Int16 :=
  (toBase10000 (pgCoefficient d)).length.toInt16 - (pgScale d.scale / 4 + 1).toInt16 - 1

/-- **What `PgNumeric::from` writes for a nonzero decimal**: the digits of its coefficient, the
most significant first, without the zero digits at the low end. -/
theorem pgNumericOf_of_ne_zero {decimal : BigDecimal} (h : decimal.val.intVal ≠ 0) :
    pgNumericOf decimal =
      (if decimal.val.intVal < 0 then PgNumeric.negative else PgNumeric.positive)
        (pgWeight decimal.val) (pgScale decimal.val.scale)
        ((toBase10000 (pgCoefficient decimal.val)).dropWhile (· == 0)).reverse := by
  -- truncating the reversed digits is reversing what is left after the low zeros
  have htake : ∀ l : List Int16, l.reverse.take (l.length - (l.takeWhile (· == 0)).length) =
      (l.dropWhile (· == 0)).reverse := by
    intro l
    rw [List.take_reverse, Nat.sub_sub_self (List.takeWhile_prefix _).length_le,
      drop_length_takeWhile]
  unfold pgNumericOf pgWeight pgCoefficient pgScale OldBigDecimal.sign
  simp only [List.reverse_reverse, List.length_reverse, htake]
  by_cases hneg : decimal.val.intVal < 0
  · simp [hneg]
  · simp [hneg, h]

theorem pgCoefficient_ne_zero {d : OldBigDecimal} (h : d.intVal ≠ 0) : pgCoefficient d ≠ 0 := by
  unfold pgCoefficient
  split_ifs <;> simp [h]

/-- **The digits `PgNumeric::from` writes** for a nonzero decimal are digits of base `10000`,
and neither the first nor the last of them is zero. -/
theorem digits_pgNumericOf {decimal : BigDecimal} (h : decimal.val.intVal ≠ 0) :
    (∀ x ∈ (pgNumericOf decimal).digits, 0 ≤ x.toInt ∧ x.toInt ≤ 9999) ∧
      ∃ hne : (pgNumericOf decimal).digits ≠ [],
        (pgNumericOf decimal).digits.head hne ≠ 0 ∧
          (pgNumericOf decimal).digits.getLast hne ≠ 0 := by
  set L := toBase10000 (pgCoefficient decimal.val) with hL
  have hN := pgCoefficient_ne_zero h
  have hdigits : (pgNumericOf decimal).digits = (L.dropWhile (· == 0)).reverse := by
    rw [pgNumericOf_of_ne_zero h]
    split_ifs <;> rfl
  -- some digit is not zero, since the digits read back to the coefficient
  have hrest : L.dropWhile (· == 0) ≠ [] := by
    intro hnil
    have hread := ofDigits_map_eq_pow_mul_dropWhile 10000 asU64
      (p := (· == 0)) (fun x hx => by rw [beq_iff_eq.mp hx]; rfl) L
    rw [hnil, hL, map_asU64_toBase10000 hN, Nat.ofDigits_digits] at hread
    exact hN (by simpa using hread)
  have hLne : L ≠ [] := fun hnil => hrest (by rw [hnil]; rfl)
  rw [hdigits]
  refine ⟨fun x hx => ?_, List.reverse_ne_nil_iff.mpr hrest, ?_, ?_⟩
  · obtain ⟨n, hn, rfl⟩ := mem_toBase10000
      ((List.dropWhile_sublist _).subset (List.mem_reverse.mp hx))
    rw [toInt_toInt16_of_lt (by omega)]
    omega
  · -- the first digit written is the most significant digit of the coefficient
    rw [List.head_reverse]
    simp only [← drop_length_takeWhile, List.getLast_drop]
    exact getLast_toBase10000 hN hLne
  · -- the last digit written is the first that is not a low zero
    rw [List.getLast_reverse]
    simpa using List.head_dropWhile_not (· == 0) hrest

/-- `123.456` is written as the digits `123` and `4560`, the first at the power `0`, as the
test `bigdecimal_to_pg_numeric_retains_sign` has it. -/
example : pgNumericOf ⟨⟨123456, 3⟩⟩ = .positive 0 3 [123, 4560] := by
  simp [pgNumericOf, OldBigDecimal.sign, toBase10000]
  decide

/-! ### Reading back -/

/-- What `TryFrom<&PgNumeric>` builds: the digits read by Horner's rule, at the exponent the
weight gives the first digit, moved to the scale written. -/
theorem fromPgNumericParts_val (rescale : Decimal.Rescale) (sign : Sign) (weight : Int16)
    (scale : UInt16) (digits : List Int16) :
    (fromPgNumericParts rescale sign weight scale digits).val =
      rescale.withScale ⟨fromBiguint sign (Nat.ofDigits 10000 (digits.reverse.map asU64)),
        -(4 * (weight.toInt - digits.length + 1))⟩ scale.toNat := by
  unfold fromPgNumericParts
  rw [← List.foldl_map (f := asU64) (g := fun result digit => result * 10000 + digit),
    foldl_mul_add_eq_ofDigits, List.map_reverse]

theorem fromBiguint_mul (sign : Sign) (a b : Nat) :
    fromBiguint sign (a * b) = fromBiguint sign a * b := by
  cases sign <;> simp [fromBiguint, neg_mul]

/-- The sign and the magnitude of an integer give it back. -/
theorem fromBiguint_natAbs (x : Int) :
    fromBiguint (if x < 0 then .minus else .plus) x.natAbs = x := by
  by_cases hx : x < 0
  · rw [if_pos hx, fromBiguint]
    omega
  · rw [if_neg hx, fromBiguint]
    omega

/-- The scale written, where it fits a `u16`. -/
theorem toNat_pgScale {scale : Int} (h : scale < 2 ^ 16) :
    (pgScale scale).toNat = if scale < 0 then 0 else scale.toNat := by
  unfold pgScale
  split_ifs
  · rfl
  · rw [show scale.toNat.toUInt16 = UInt16.ofNat scale.toNat from rfl, UInt16.toNat_ofNat']
    omega

/-- A negative scale moved into the integer keeps the value, where the scale fits a `u16`. -/
theorem value_pgScale {d : OldBigDecimal} (h : d.scale < 2 ^ 16) :
    (⟨if d.scale < 0 then d.intVal * 10 ^ (-d.scale).toNat else d.intVal,
      (pgScale d.scale).toNat⟩ : OldBigDecimal).value = d.value := by
  rw [toNat_pgScale h]
  by_cases hneg : d.scale < 0
  · simp only [if_pos hneg]
    have key := Decimal.value_mul_pow d.intVal d.scale (-d.scale).toNat
    rw [show d.scale + ((-d.scale).toNat : Int) = ((0 : Nat) : Int) by omega] at key
    exact key
  · simp only [if_neg hneg]
    rw [Int.toNat_of_nonneg (by omega)]

/-- The weight written, where the number of digits fits an `i16`. -/
theorem toInt_pgWeight {d : OldBigDecimal}
    (hlen : (toBase10000 (pgCoefficient d)).length < 2 ^ 15) :
    (pgWeight d).toInt =
      (toBase10000 (pgCoefficient d)).length - ((pgScale d.scale).toNat / 4 + 1) - 1 := by
  have hdad := toNat_div_four_add_one (pgScale d.scale)
  have hlt := (pgScale d.scale).toNat_lt
  have hdad' : (pgScale d.scale / 4 + 1).toInt16.toInt = (pgScale d.scale).toNat / 4 + 1 := by
    rw [toInt_uint16_toInt16, hdad]
    apply Int.bmod_eq_of_le <;> omega
  unfold pgWeight
  rw [Int16.toInt_sub, Int16.toInt_sub, toInt_toInt16_of_lt hlen, hdad', Int16.toInt_one]
  have hin : ((toBase10000 (pgCoefficient d)).length - ((pgScale d.scale).toNat / 4 + 1) :
      Int).bmod (2 ^ 16) =
      (toBase10000 (pgCoefficient d)).length - ((pgScale d.scale).toNat / 4 + 1) := by
    apply Int.bmod_eq_of_le <;> omega
  rw [hin]
  apply Int.bmod_eq_of_le <;> omega

/-- The coefficient with the sign of the decimal, at the scale of the digits written, is the
decimal. -/
theorem value_pgCoefficient {d : OldBigDecimal} (h : d.scale < 2 ^ 16) :
    (⟨fromBiguint (if d.intVal < 0 then .minus else .plus) (pgCoefficient d),
      ((4 * ((pgScale d.scale).toNat / 4 + 1) : Nat) : Int)⟩ : OldBigDecimal).value =
      d.value := by
  set integer := if d.scale < 0 then d.intVal * 10 ^ (-d.scale).toNat else d.intVal
    with hinteger
  -- moving the scale into the integer keeps its sign
  have hsign : (if d.intVal < 0 then Sign.minus else .plus) =
      if integer < 0 then .minus else .plus := by
    have hpos : (0 : Int) < 10 ^ (-d.scale).toNat := by positivity
    have hiff : integer < 0 ↔ d.intVal < 0 := by
      rw [hinteger]
      split_ifs
      · constructor <;> intro <;> nlinarith
      · rfl
    simp only [hiff]
  have hcoef : fromBiguint (if d.intVal < 0 then .minus else .plus) (pgCoefficient d) =
      integer * 10 ^ (4 - (pgScale d.scale).toNat % 4) := by
    rw [pgCoefficient, ← hinteger, fromBiguint_mul, toNat_four_sub_mod_four, hsign,
      fromBiguint_natAbs]
    push_cast
    rfl
  have hscale : ((4 * ((pgScale d.scale).toNat / 4 + 1) : Nat) : Int) =
      ((pgScale d.scale).toNat : Int) + ((4 - (pgScale d.scale).toNat % 4 : Nat) : Int) := by
    omega
  rw [hcoef, hscale, Decimal.value_mul_pow]
  exact value_pgScale h

/-- **A decimal reads back from `PgNumeric` unchanged in value** whenever its scale fits a `u16`
and the number of base-`10000` digits of its coefficient fits the `i16` weight. -/
theorem tryFromPgNumeric_pgNumericOf (rescale : Decimal.Rescale) (decimal : BigDecimal)
    (hscale : decimal.val.scale < 2 ^ 16)
    (hlen : (toBase10000 (pgCoefficient decimal.val)).length < 2 ^ 15) :
    ∃ d', tryFromPgNumeric rescale (pgNumericOf decimal) = .ok d' ∧
      d'.val.value = decimal.val.value := by
  by_cases h0 : decimal.val.intVal = 0
  · -- zero is written as the one digit `0`, and read back as zero
    have hpg : pgNumericOf decimal = .positive 0 0 [0] := by
      unfold pgNumericOf OldBigDecimal.sign
      simp [h0]
    refine ⟨_, by rw [hpg]; rfl, ?_⟩
    have hzero : asU64 0 = 0 := rfl
    -- the digit `0` reads as zero, which every scale represents
    rw [fromPgNumericParts_val, rescale.withScale_value (z := 0)]
    · simp [fromBiguint, Decimal.value, h0, hzero]
    · simp [fromBiguint, Decimal.value, hzero]
  · set sign : Sign := if decimal.val.intVal < 0 then .minus else .plus with hsign
    set L := toBase10000 (pgCoefficient decimal.val) with hL
    have hread : tryFromPgNumeric rescale (pgNumericOf decimal) =
        .ok (fromPgNumericParts rescale sign (pgWeight decimal.val) (pgScale decimal.val.scale)
          (L.dropWhile (· == 0)).reverse) := by
      rw [pgNumericOf_of_ne_zero h0, hsign]
      split_ifs <;> rfl
    refine ⟨_, hread, ?_⟩
    rw [fromPgNumericParts_val, List.reverse_reverse, List.length_reverse]
    -- the digits after the low zeros, with the zeros put back, are the coefficient
    set k := (L.takeWhile (· == 0)).length
    set R := Nat.ofDigits 10000 ((L.dropWhile (· == 0)).map asU64)
    have hN : 10000 ^ k * R = pgCoefficient decimal.val := by
      have hzero : ∀ x : Int16, (x == 0) = true → asU64 x = 0 := fun x hx => by
        rw [beq_iff_eq.mp hx]
        rfl
      rw [← ofDigits_map_eq_pow_mul_dropWhile 10000 asU64 hzero L, hL,
        map_asU64_toBase10000 (pgCoefficient_ne_zero h0), Nat.ofDigits_digits]
    have hdrop : (L.dropWhile (· == 0)).length + k = L.length := by
      rw [← drop_length_takeWhile, List.length_drop]
      exact Nat.sub_add_cancel (List.takeWhile_prefix _).length_le
    -- the exponent the weight gives the first digit is that of the digits written, less `4 k`
    have hexp : -(4 * ((pgWeight decimal.val).toInt -
        ((L.dropWhile (· == 0)).length : Int) + 1)) + ((4 * k : Nat) : Int) =
        ((4 * ((pgScale decimal.val.scale).toNat / 4 + 1) : Nat) : Int) := by
      rw [toInt_pgWeight hlen, ← hL]
      omega
    have hR : fromBiguint sign R * 10 ^ (4 * k) = fromBiguint sign (pgCoefficient decimal.val) := by
      rw [← hN, mul_comm (10000 ^ k) R, fromBiguint_mul, pow_mul]
      norm_num
    have hpre := Decimal.value_mul_pow (fromBiguint sign R)
      (-(4 * ((pgWeight decimal.val).toInt - ((L.dropWhile (· == 0)).length : Int) + 1))) (4 * k)
    rw [hR, hexp, hsign, value_pgCoefficient hscale] at hpre
    rw [rescale.withScale_value (hpre.symm.trans (value_pgScale hscale).symm), ← hpre]

/-! ### The decimals of the store -/

/-- The coefficient is at most the integer with the zeros of a negative scale and four more. -/
theorem pgCoefficient_le (d : OldBigDecimal) :
    pgCoefficient d ≤ d.intVal.natAbs * 10 ^ ((-d.scale).toNat + 4) := by
  have hpad : 10 ^ (4 - pgScale d.scale % 4).toNat ≤ 10 ^ 4 := by
    apply Nat.pow_le_pow_right (by norm_num)
    rw [toNat_four_sub_mod_four]
    omega
  unfold pgCoefficient
  split_ifs with hneg
  · rw [Int.natAbs_mul, Int.natAbs_pow, pow_add, Nat.mul_assoc]
    exact Nat.mul_le_mul_left _ (Nat.mul_le_mul_left _ hpad)
  · rw [show (-d.scale).toNat = 0 by omega, zero_add]
    exact Nat.mul_le_mul_left _ hpad

/-- **A decimal the store keeps reads back from `PgNumeric` unchanged in value.** With at most 34
significant digits and a scale in `[-6144, 16383]` (which holds for every normalized decimal of
exponent in `[MIN_EXP, MAX_EXP]`), `BigDecimal::try_from(&PgNumeric::from(&d))` succeeds with
the value of `d`; and for a nonzero `d` the digits written are digits of base `10000`, with
neither the first nor the last zero. -/
theorem pgNumeric_round_trip (rescale : Decimal.Rescale) (decimal : BigDecimal)
    (hdigits : decimal.val.intVal.natAbs < 10 ^ 34) (hlo : -6144 ≤ decimal.val.scale)
    (hhi : decimal.val.scale ≤ 16383) :
    (∃ d', tryFromPgNumeric rescale (pgNumericOf decimal) = .ok d' ∧
      d'.val.value = decimal.val.value) ∧
      (decimal.val.intVal ≠ 0 →
        (∀ x ∈ (pgNumericOf decimal).digits, 0 ≤ x.toInt ∧ x.toInt ≤ 9999) ∧
          ∃ hne : (pgNumericOf decimal).digits ≠ [],
            (pgNumericOf decimal).digits.head hne ≠ 0 ∧
              (pgNumericOf decimal).digits.getLast hne ≠ 0) := by
  -- the coefficient has fewer than `6182` decimal digits, far fewer than `2 ^ 15` of base `10000`
  have h4 : (10 : Nat) ^ 4 = 10000 := by norm_num
  have hcoef : pgCoefficient decimal.val < 10000 ^ 32767 :=
    calc pgCoefficient decimal.val
        ≤ decimal.val.intVal.natAbs * 10 ^ ((-decimal.val.scale).toNat + 4) :=
          pgCoefficient_le _
      _ < 10 ^ 34 * 10 ^ 6148 :=
          Nat.mul_lt_mul_of_lt_of_le hdigits (Nat.pow_le_pow_right (by norm_num) (by omega))
            (by positivity)
      _ = 10 ^ (34 + 6148) := by rw [Nat.pow_add]
      _ ≤ 10 ^ (4 * 32767) := by
          apply Nat.pow_le_pow_right (by norm_num)
          norm_num
      _ = 10000 ^ 32767 := by rw [← h4, ← Nat.pow_mul]
  have hlen := length_toBase10000_le (by norm_num) hcoef
  exact ⟨tryFromPgNumeric_pgNumericOf rescale decimal (by omega) (by omega), digits_pgNumericOf⟩

theorem pgNumeric_round_trip_minus_123_456 :
    (-123456 : Int).natAbs < 10 ^ 34 ∧ (-6144 : Int) ≤ 3 ∧ (3 : Int) ≤ 16383 ∧
      ((∃ d', tryFromPgNumeric Decimal.truncating (pgNumericOf ⟨⟨-123456, 3⟩⟩) = .ok d' ∧
          d'.val.value = (⟨-123456, 3⟩ : OldBigDecimal).value) ∧
        ((-123456 : Int) ≠ 0 →
          (∀ x ∈ (pgNumericOf ⟨⟨-123456, 3⟩⟩).digits, 0 ≤ x.toInt ∧ x.toInt ≤ 9999) ∧
            ∃ hne : (pgNumericOf ⟨⟨-123456, 3⟩⟩).digits ≠ [],
              (pgNumericOf ⟨⟨-123456, 3⟩⟩).digits.head hne ≠ 0 ∧
                (pgNumericOf ⟨⟨-123456, 3⟩⟩).digits.getLast hne ≠ 0)) :=
  ⟨by decide, by decide, by decide,
    pgNumeric_round_trip Decimal.truncating ⟨⟨-123456, 3⟩⟩ (by decide) (by decide) (by decide)⟩

end GraphNode
