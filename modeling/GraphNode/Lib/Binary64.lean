import Mathlib

/-!
# IEEE 754 binary64 arithmetic, rounding to nearest

A binary64 value is a finite number, an infinity or NaN. We keep a finite value as the
rational it stands for, and compute every operation the IEEE 754 way: exactly on the
rationals, then rounded to the nearest representable value, ties to even (`Binary64.ofRat`).
The significand has `53` bits, the exponent of its last bit is at least `-1074` (subnormals),
and a result from `2 ^ 1024` on after rounding is an infinity.

Zero is unsigned: `-0.0` is not modelled, which only matters for the sign of an infinity
from a division by zero. The operations are those of Rust's `f64` that a program converting
between integers and floats needs: `+`, `*`, `/`, `%` (which is exact), `rem_euclid`, `round`
(half away from zero), and the saturating casts `as f64` and `as i64`.

What a zero numerator leaves after a product, a quotient and a rounding is zero or NaN
(`ZeroOrNaN`), and both cast to the integer `0` (`ZeroOrNaN.toInt64`).
-/

namespace GraphNode

/-- An IEEE 754 binary64 value: a finite one as the rational it stands for, an infinity with
its sign, or NaN. -/
inductive Binary64
  | finite (x : ℚ)
  | inf (negative : Bool)
  | nan
  deriving DecidableEq

namespace Binary64

/-! ### Rounding -/

/-- The binade of a positive rational `x`: the exponent `e` with `2 ^ e ≤ x < 2 ^ (e + 1)`,
which is one of the two next to the difference of the binary logarithms of its numerator and
denominator. -/
def binade (x : ℚ) : Int :=
  let e : Int := (Nat.log2 x.num.natAbs : Int) - Nat.log2 x.den
  if (2 : ℚ) ^ e ≤ x then e else e - 1

/-- The integer nearest to `x`, ties to even. -/
def roundHalfEven (x : ℚ) : Int :=
  let f := ⌊x⌋
  if x - f < 1 / 2 then f
  else if 1 / 2 < x - f then f + 1
  else if f % 2 = 0 then f else f + 1

/-- The binary64 value nearest to `x`, ties to even: an integer multiple of the quantum
`2 ^ e` of the binade of `x` (never below `2 ^ -1074`), or an infinity. -/
def ofRat (x : ℚ) : Binary64 :=
  if x = 0 then .finite 0
  else
    let e := max (binade |x|) (-1022) - 52
    let y := (roundHalfEven (x / 2 ^ e) : ℚ) * 2 ^ e
    if 2 ^ 1024 ≤ |y| then .inf (decide (x < 0)) else .finite y

/-- `as f64` of an integer. -/
def ofInt (n : Int) : Binary64 := ofRat n

/-- `as f64` of a natural number. -/
def ofNat (n : Nat) : Binary64 := ofRat n

/-! ### Operations -/

/-- IEEE addition. -/
def add : Binary64 → Binary64 → Binary64
  | .finite x, .finite y => ofRat (x + y)
  | .finite _, .inf s | .inf s, .finite _ => .inf s
  | .inf s, .inf t => if s = t then .inf s else .nan
  | .nan, _ | _, .nan => .nan

/-- IEEE multiplication. -/
def mul : Binary64 → Binary64 → Binary64
  | .finite x, .finite y => ofRat (x * y)
  | .finite x, .inf s | .inf s, .finite x =>
    if x = 0 then .nan else .inf (s != decide (x < 0))
  | .inf s, .inf t => .inf (s != t)
  | .nan, _ | _, .nan => .nan

/-- IEEE division. -/
def div : Binary64 → Binary64 → Binary64
  | .finite x, .finite y =>
    if y = 0 then (if x = 0 then .nan else .inf (decide (x < 0))) else ofRat (x / y)
  | .finite _, .inf _ => .finite 0
  | .inf s, .finite y => .inf (s != decide (y < 0))
  | .inf _, .inf _ | .nan, _ | _, .nan => .nan

instance : Add Binary64 := ⟨add⟩
instance : Mul Binary64 := ⟨mul⟩
instance : Div Binary64 := ⟨div⟩

/-- `%`, the remainder of the division truncated towards zero, which is exact. -/
def rem : Binary64 → Binary64 → Binary64
  | .finite x, .finite y =>
    if y = 0 then .nan else .finite (x - y * (x / y).num.tdiv (x / y).den)
  | .finite x, .inf _ => .finite x
  | _, _ => .nan

/-- `abs`. -/
def abs : Binary64 → Binary64
  | .finite x => .finite |x|
  | .inf _ => .inf false
  | .nan => .nan

/-- `< 0.0`. -/
def isNeg : Binary64 → Bool
  | .finite x => decide (x < 0)
  | .inf s => s
  | .nan => false

/-- `rem_euclid`: the remainder made non-negative. -/
def remEuclid (a b : Binary64) : Binary64 :=
  let r := rem a b
  if r.isNeg then r + b.abs else r

/-- `round`: the nearest integer, half-way cases away from zero. -/
def round : Binary64 → Binary64
  | .finite x => .finite (if x < 0 then -⌊-x + 1 / 2⌋ else ⌊x + 1 / 2⌋)
  | v => v

/-- `as i64`: truncation towards zero, saturating, with `0` for NaN. -/
def toInt64 : Binary64 → Int64
  | .finite x =>
    let t := x.num.tdiv x.den
    if t < -2 ^ 63 then Int64.minValue
    else if 2 ^ 63 ≤ t then Int64.maxValue
    else Int64.ofInt t
  | .inf true => Int64.minValue
  | .inf false => Int64.maxValue
  | .nan => 0

/-! ### Zero numerators -/

@[simp] theorem ofRat_zero : ofRat 0 = .finite 0 := by
  simp [ofRat]

/-- Zero, or NaN: what is left of a zero after products, quotients and rounding. -/
def ZeroOrNaN (v : Binary64) : Prop := v = .finite 0 ∨ v = .nan

theorem ZeroOrNaN.zero : ZeroOrNaN (.finite 0) := .inl rfl

theorem ZeroOrNaN.mul {v : Binary64} (h : ZeroOrNaN v) (w : Binary64) : ZeroOrNaN (v * w) := by
  rcases h with rfl | rfl
  · cases w with
    | finite y => exact .inl (show ofRat (0 * y) = .finite 0 by rw [zero_mul, ofRat_zero])
    | inf s =>
      show ZeroOrNaN (if (0 : ℚ) = 0 then nan else .inf (s != decide ((0 : ℚ) < 0)))
      exact .inr (if_pos rfl)
    | nan => exact .inr rfl
  · cases w <;> exact .inr rfl

theorem ZeroOrNaN.div {v : Binary64} (h : ZeroOrNaN v) (w : Binary64) : ZeroOrNaN (v / w) := by
  rcases h with rfl | rfl
  · cases w with
    | finite y =>
      show ZeroOrNaN
        (if y = 0 then (if (0 : ℚ) = 0 then nan else .inf (decide ((0 : ℚ) < 0)))
          else ofRat (0 / y))
      by_cases hy : y = 0
      · exact .inr (by rw [if_pos hy, if_pos rfl])
      · exact .inl (by rw [if_neg hy, zero_div, ofRat_zero])
    | inf s => exact .inl rfl
    | nan => exact .inr rfl
  · cases w <;> exact .inr rfl

theorem ZeroOrNaN.round {v : Binary64} (h : ZeroOrNaN v) : ZeroOrNaN v.round := by
  rcases h with rfl | rfl
  · exact .inl (by simp [Binary64.round]; norm_num)
  · exact .inr rfl

theorem ZeroOrNaN.toInt64 {v : Binary64} (h : ZeroOrNaN v) : v.toInt64 = 0 := by
  rcases h with rfl | rfl
  · decide +kernel
  · rfl

end Binary64

end GraphNode
