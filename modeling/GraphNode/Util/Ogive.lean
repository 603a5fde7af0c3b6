import GraphNode.Lib.Binary64
import GraphNode.Lib.Simulation

/-!
# Ogives

An `Ogive` is the cumulative function `f` of a histogram whose bins hold the same number of
entries: for the sorted breakpoints `points`, `f (points[i]) = i * bin_size`, linear in
between, and its inverse `g` is the same interpolation the other way. `next_point` computes
`g (f point + size)`: the point that `size` entries after `point` reach.

Both directions are computed in `f64` and truncated to `i64`, so `g (f point)` need not be
`point`: on one bin `[0, 2 ^ 20]` of `2 ^ 20 + 1` entries, `f point` rounds down to `point` and
`g point` rounds down to `point - 1`. The arithmetic is that of `GraphNode.Binary64`, and a
division of `i64` by zero panics (`none`).
-/

namespace GraphNode

open Binary64

/-- The errors of `Ogive`, each an `internal_error!`. -/
inductive OgiveError
  /-- "histogram must have at least one point" -/
  | emptyHistogram
  /-- "point {point} is outside of the range [{start}, {end}]" -/
  | outOfRange (point rangeStart rangeEnd : Int64)
  /-- "value {value} can not be negative" -/
  | negativeValue (value : Int64)
  deriving DecidableEq

/-- `Ogive`: the breakpoints, the size of each bin, and the range `points[0]..=points[bins]`. -/
structure Ogive where
  points : List Int64
  binSize : Binary64
  rangeStart : Int64
  rangeEnd : Int64
  deriving DecidableEq

namespace Ogive

/-- `from_equi_histogram`. After `sort_unstable` and `dedup` the points are sorted without
repeats, and the first and the last exist. -/
def fromEquiHistogram (points : List Int64) (total : UInt64) :
    ExceptT OgiveError Option Ogive :=
  if points.isEmpty then throw .emptyHistogram
  else
    let points := (points.insertionSort (· ≤ ·)).destutter (· ≠ ·)
    let bins := points.length - 1
    let binSize := ofNat total.toNat / ofNat bins
    pure ⟨points, binSize, points.getD 0 0, points.getD bins 0⟩

variable (o : Ogive)

/-- `check_in_range`. -/
def checkInRange (point : Int64) : ExceptT OgiveError Option Unit :=
  if o.rangeStart ≤ point ∧ point ≤ o.rangeEnd then pure ()
  else throw (.outOfRange point o.rangeStart o.rangeEnd)

/-- `interval_start`: the index of the breakpoint at or before `point`. In range, the first
breakpoint after `point`, if any, is not the first one, so the `- 1` does not underflow. -/
def intervalStart (point : Int64) : ExceptT OgiveError Option Nat := do
  o.checkInRange point
  pure (((o.points.findIdx? fun p => decide (point < p)).getD (o.points.length - 1)) - 1)

/-- `value`: `f point`, truncated to an integer. -/
def value (point : Int64) : ExceptT OgiveError Option Int64 :=
  if o.points.length = 1 then pure o.rangeEnd
  else do
    let idx ← o.intervalStart point
    let a := o.points.getD idx 0
    let b := o.points.getD (idx + 1) 0
    let offset := ofInt (point - a).toInt / ofInt (b - a).toInt
    let value := (ofNat idx + offset) * o.binSize
    pure value.toInt64

/-- `inverse`: `g value`, truncated to an integer, and the last point beyond the last bin. The
division by `bin_size as i64` panics when that is `0`. -/
def inverse (value : Int64) : ExceptT OgiveError Option Int64 :=
  if value < 0 then throw (.negativeValue value)
  else if o.binSize.toInt64 = 0 then unwrap none
  else
    let j := (value / o.binSize.toInt64).toUInt64.toNat
    if j ≥ o.points.length - 1 then pure o.rangeEnd
    else
      let a := o.points.getD j 0
      let b := o.points.getD (j + 1) 0
      let offset := remEuclid (ofInt value.toInt) o.binSize * ofInt (b - a).toInt
      pure (a + (offset / o.binSize).toInt64)

/-- `next_point`: `g (f point + size)`, and the end of the range from there on. -/
def nextPoint (point : Int64) (size : UInt64) : ExceptT OgiveError Option Int64 :=
  if point ≥ o.rangeEnd then pure o.rangeEnd
  else do
    -- this can only fail if `point < self.range.start`
    o.checkInRange point
    let pointValue ← o.value point
    let nextValue := pointValue + size.toInt64
    o.inverse nextValue

end Ogive

end GraphNode
