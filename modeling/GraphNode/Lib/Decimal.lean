import Mathlib

/-!
# Decimals and base-`b` numerals

A decimal in the manner of the `bigdecimal` crate is an integer with a scale: `⟨m, s⟩` stands
for `m · 10 ^ (-s)` (`Decimal.value`). A move to another scale (`Decimal.Rescale`) is asked only
to keep the value where the value has a representation at the new scale: that is what
`with_scale` of the crate documents, and what a round trip through another scale needs.
`Decimal.withScale` is such a move: it multiplies the integer up, or divides it down and drops
digits towards zero, and keeps the value exactly in that case (`Decimal.withScale_value_of_eq`).

A numeral with its most significant digit first is read by Horner's rule, which is
`Nat.ofDigits` of the reversed list (`foldl_mul_add_eq_ofDigits`). Zero digits at the low end of
a numeral only multiply it by a power of the base (`ofDigits_map_eq_pow_mul_dropWhile`): dropping
them loses nothing once the exponent of the numeral counts them.
-/

namespace GraphNode

/-! ### Decimals -/

/-- An integer `intVal` scaled down by `10 ^ scale`. -/
structure Decimal where
  intVal : Int
  scale : Int
  deriving DecidableEq, Repr

namespace Decimal

/-- The number a decimal stands for. -/
def value (d : Decimal) : ℚ := d.intVal * 10 ^ (-d.scale)

/-- `with_scale`: the decimal at the scale `newScale`. Going up multiplies the integer by a power
of ten; going down divides it, rounding towards zero. -/
def withScale (d : Decimal) (newScale : Int) : Decimal :=
  if d.intVal = 0 then ⟨0, newScale⟩
  else if newScale > d.scale then ⟨d.intVal * 10 ^ (newScale - d.scale).toNat, newScale⟩
  else if newScale < d.scale then ⟨d.intVal.tdiv (10 ^ (d.scale - newScale).toNat), newScale⟩
  else d

/-- Trading a power of ten between the integer and the scale keeps the value. -/
theorem value_mul_pow (a s : Int) (k : Nat) :
    (⟨a * 10 ^ k, s + k⟩ : Decimal).value = (⟨a, s⟩ : Decimal).value := by
  have hten : (10 : ℚ) ^ (k : Int) * 10 ^ (-(k : Int)) = 1 := by
    rw [← zpow_add₀ (by norm_num), add_neg_cancel, zpow_zero]
  simp only [value, neg_add, zpow_add₀ (show (10 : ℚ) ≠ 0 by norm_num), Int.cast_mul,
    Int.cast_pow, Int.cast_ofNat]
  calc (a : ℚ) * 10 ^ k * (10 ^ (-s) * 10 ^ (-(k : Int)))
      = a * 10 ^ (-s) * (10 ^ (k : Int) * 10 ^ (-(k : Int))) := by rw [zpow_natCast]; ring
    _ = a * 10 ^ (-s) := by rw [hten, mul_one]

/-- **`withScale` keeps the value** when the integer is a multiple of the power of ten that a
move down divides it by. -/
theorem withScale_value {d : Decimal} {newScale : Int}
    (h : (10 : Int) ^ (d.scale - newScale).toNat ∣ d.intVal) :
    (d.withScale newScale).value = d.value := by
  unfold withScale
  split_ifs with h0 hup hdown
  · simp [value, h0]
  · -- up: the scale grows by `newScale - d.scale`, and the integer by as many zeros
    have hs : d.scale + ((newScale - d.scale).toNat : Int) = newScale := by omega
    have key := value_mul_pow d.intVal d.scale (newScale - d.scale).toNat
    rw [hs] at key
    exact key
  · -- down: the division is exact
    obtain ⟨q, hq⟩ := h
    have hs : d.scale = newScale + ((d.scale - newScale).toNat : Int) := by omega
    have hq' : d.intVal = q * 10 ^ (d.scale - newScale).toNat := by rw [hq, mul_comm]
    rw [hq, Int.mul_tdiv_cancel_left q (pow_ne_zero _ (by norm_num))]
    calc (⟨q, newScale⟩ : Decimal).value
        = (⟨q * 10 ^ (d.scale - newScale).toNat,
            newScale + ((d.scale - newScale).toNat : Int)⟩ : Decimal).value :=
          (value_mul_pow q newScale _).symm
      _ = d.value := by rw [← hs, ← hq']
  · rfl

/-- **`withScale` keeps the value** when the value has a representation `⟨z, newScale⟩`. -/
theorem withScale_value_of_eq {d : Decimal} {newScale z : Int}
    (h : d.value = (⟨z, newScale⟩ : Decimal).value) :
    (d.withScale newScale).value = d.value := by
  apply withScale_value
  by_cases hle : newScale ≤ d.scale
  · -- the integer is `z` followed by `d.scale - newScale` zeros
    have hs : newScale + ((d.scale - newScale).toNat : Int) = d.scale := by omega
    have hv : (⟨d.intVal, d.scale⟩ : Decimal).value =
        (⟨z * 10 ^ (d.scale - newScale).toNat, d.scale⟩ : Decimal).value := by
      have key := value_mul_pow z newScale (d.scale - newScale).toNat
      rw [hs] at key
      rw [key]
      exact h
    have hne : (10 : ℚ) ^ (-d.scale) ≠ 0 := zpow_ne_zero _ (by norm_num)
    have hint : d.intVal = z * 10 ^ (d.scale - newScale).toNat := by
      simp only [value] at hv
      exact_mod_cast mul_right_cancel₀ hne hv
    exact ⟨z, by rw [hint, mul_comm]⟩
  · -- a move up divides by nothing
    rw [show (d.scale - newScale).toNat = 0 by omega, pow_zero]
    exact one_dvd _

/-- A move of decimals to another scale that keeps the value wherever the value has a
representation at the new scale. -/
structure Rescale where
  withScale : Decimal → Int → Decimal
  withScale_value : ∀ {d : Decimal} {newScale z : Int},
    d.value = (⟨z, newScale⟩ : Decimal).value → (withScale d newScale).value = d.value

/-- The move that multiplies the integer up, or divides it down towards zero. -/
def truncating : Rescale := ⟨withScale, withScale_value_of_eq⟩

end Decimal

/-! ### Numerals in a base -/

/-- **Horner's rule** on a numeral with its most significant digit first. -/
theorem foldl_mul_add_eq_ofDigits (b : Nat) (l : List Nat) :
    l.foldl (fun r d => r * b + d) 0 = Nat.ofDigits b l.reverse := by
  induction l using List.reverseRecOn with
  | nil => rfl
  | append_singleton l d ih =>
    rw [List.foldl_append, ih, List.reverse_append, List.reverse_singleton, List.singleton_append,
      Nat.ofDigits_cons]
    simp only [List.foldl_cons, List.foldl_nil]
    ring

/-- **Low zeros of a numeral** (its digits least significant first) multiply the rest by a power
of the base. The digits are read through `f`, and those `p` marks are zeros. -/
theorem ofDigits_map_eq_pow_mul_dropWhile {α : Type} (b : Nat) (f : α → Nat) {p : α → Bool}
    (hp : ∀ x, p x = true → f x = 0) (l : List α) :
    Nat.ofDigits b (l.map f) =
      b ^ (l.takeWhile p).length * Nat.ofDigits b ((l.dropWhile p).map f) := by
  have hzeros : (l.takeWhile p).map f = List.replicate (l.takeWhile p).length 0 := by
    refine List.eq_replicate_iff.mpr ⟨List.length_map _, fun x hx => ?_⟩
    obtain ⟨y, hy, rfl⟩ := List.mem_map.mp hx
    exact hp y (List.mem_takeWhile_imp hy)
  conv_lhs => rw [← List.takeWhile_append_dropWhile (p := p) (l := l)]
  rw [List.map_append, Nat.ofDigits_append, hzeros, Nat.ofDigits_replicate_zero,
    List.length_replicate, zero_add]

/-- Dropping as many digits as `takeWhile` takes is `dropWhile`. -/
theorem drop_length_takeWhile {α : Type} (p : α → Bool) (l : List α) :
    l.drop (l.takeWhile p).length = l.dropWhile p := by
  have hl := List.takeWhile_append_dropWhile (p := p) (l := l)
  calc l.drop (l.takeWhile p).length
      = (l.takeWhile p ++ l.dropWhile p).drop (l.takeWhile p).length := by rw [hl]
    _ = l.dropWhile p := List.drop_left

end GraphNode
