import GraphNode.Lib.List
import GraphNode.Lib.Transition

/-!
# Lock-free moving statistics

`AtomicMovingStats` is the lock-free alternative to `MovingStats`: a fixed ring of
`window_size / bin_size` bins, each an `AtomicU128` that packs the epoch of the bin (32 bits),
the number of its measurements (32 bits) and their total duration in nanoseconds (64 bits)
(`PackedBin::pack`). The epoch of an instant is the number of whole bins since the start, in
milliseconds and cast to `u32` (`epoch_at`); a measurement goes to the bin of its epoch modulo
the number of bins. `add_at` loads that bin and writes it back with `compare_exchange_weak`, in
a loop: a bin of the same epoch gets one more measurement, a bin of another epoch starts again
with this one alone. `average_at` and `duration_at` read the bins one by one and sum those
whose epoch is fewer than `num_bins` epochs before the current one.

Three results:

* the packing loses nothing: `pack` and `unpack` are inverse bijections between triples of a
  `u32` epoch, a `u32` count and a `u64` total, and `u128` values (`unpack_pack_bijection`);
* concurrent callers lose no update: in every interleaving of their loops, with the weak
  exchange failing spuriously whenever it may, the bins are what the sequential `add_at` of
  the calls that returned leaves, in some order, and calls still in their loop leave no trace
  (`reachable_eq_run_returned`);
* for measurements whose instants do not decrease, as the code expects of its callers, the
  sums count exactly the measurements of the last `num_bins` epochs
  (`averageAt_run_eq_window`), as long as nothing wraps or saturates: the epochs stay below
  `2 ^ 32`, there are fewer than `2 ^ 32` measurements, and their total is below `2 ^ 64`
  nanoseconds.

`new` checks that a bin is at least a millisecond and that there is a bin, which the structure
keeps as fields: the division of `epoch_at` and the index into the bins never fail.

Instants and durations are natural numbers of nanoseconds, `saturating_duration_since` is
truncated subtraction and `as_millis` division by `10 ^ 6`. The sums of `average_at` are over
`u64` and `u128` in the code, which cannot overflow with fewer than `2 ^ 32` bins; they are
natural numbers here, as are the millisecond counts that `new` casts to `usize`, which wrap
only for sizes beyond `2 ^ 64` milliseconds.
-/

namespace GraphNode

/-! ### Machine arithmetic -/

/-- `saturating_add` on unsigned integers of `bits` bits. -/
def saturatingAdd (bits a b : Nat) : Nat := min (a + b) (2 ^ bits - 1)

/-- `wrapping_sub` on unsigned integers of `bits` bits. -/
def wrappingSub (bits a b : Nat) : Nat := (a + (2 ^ bits - b)) % 2 ^ bits

theorem saturatingAdd_lt (bits a b : Nat) : saturatingAdd bits a b < 2 ^ bits := by
  have := Nat.one_le_two_pow (n := bits)
  unfold saturatingAdd
  omega

theorem saturatingAdd_of_lt {bits a b : Nat} (h : a + b < 2 ^ bits) :
    saturatingAdd bits a b = a + b :=
  min_eq_left (by omega)

theorem wrappingSub_of_le {bits a b : Nat} (hba : b ≤ a) (ha : a < 2 ^ bits) :
    wrappingSub bits a b = a - b := by
  have h : a + (2 ^ bits - b) = a - b + 2 ^ bits := by omega
  rw [wrappingSub, h, Nat.add_mod_right, Nat.mod_eq_of_lt (by omega)]

/-! ### Packed bins -/

namespace PackedBin

/-- `PackedBin::pack`. -/
def pack (epoch count durationNanos : Nat) : Nat :=
  (epoch <<< 96) ||| (count <<< 64) ||| durationNanos

/-- `PackedBin::unpack`: each `as` cast keeps the low bits. -/
def unpack (packed : Nat) : Nat × Nat × Nat :=
  ((packed >>> 96) % 2 ^ 32, (packed >>> 64) % 2 ^ 32, packed % 2 ^ 64)

/-- The fields of a packed bin lie side by side: the bitwise or is a sum. -/
theorem pack_eq {epoch count durationNanos : Nat} (hc : count < 2 ^ 32)
    (hd : durationNanos < 2 ^ 64) :
    pack epoch count durationNanos = 2 ^ 64 * (2 ^ 32 * epoch + count) + durationNanos := by
  have h96 : epoch <<< 96 = (2 ^ 32 * epoch) <<< 64 := by
    rw [Nat.shiftLeft_eq, Nat.shiftLeft_eq]
    ring
  rw [pack, h96, ← Nat.shiftLeft_or_distrib, ← Nat.two_pow_add_eq_or_of_lt hc,
    Nat.shiftLeft_eq, Nat.mul_comm, ← Nat.two_pow_add_eq_or_of_lt hd]

theorem unpack_pack {epoch count durationNanos : Nat} (he : epoch < 2 ^ 32)
    (hc : count < 2 ^ 32) (hd : durationNanos < 2 ^ 64) :
    unpack (pack epoch count durationNanos) = (epoch, count, durationNanos) := by
  rw [unpack, pack_eq hc hd, Nat.shiftRight_eq_div_pow, Nat.shiftRight_eq_div_pow]
  simp only [Prod.mk.injEq]
  omega

theorem unpack_zero : unpack 0 = (0, 0, 0) := rfl

/-- **Packing is a bijection.** `PackedBin::pack` takes every triple of a `u32` epoch, a `u32`
count and a `u64` total into a `u128`, from which `unpack` recovers it; and every `u128` is the
packing of what `unpack` reads from it. -/
theorem unpack_pack_bijection {epoch count durationNanos : Nat} (he : epoch < 2 ^ 32)
    (hc : count < 2 ^ 32) (hd : durationNanos < 2 ^ 64) {packed : Nat}
    (hp : packed < 2 ^ 128) :
    pack epoch count durationNanos < 2 ^ 128 ∧
      unpack (pack epoch count durationNanos) = (epoch, count, durationNanos) ∧
      pack (unpack packed).1 (unpack packed).2.1 (unpack packed).2.2 = packed := by
  refine ⟨?_, unpack_pack he hc hd, ?_⟩
  · rw [pack_eq hc hd]
    omega
  · rw [unpack, Nat.shiftRight_eq_div_pow, Nat.shiftRight_eq_div_pow,
      pack_eq (Nat.mod_lt _ (by norm_num)) (Nat.mod_lt _ (by norm_num))]
    omega

theorem unpack_pack_bijection_max :
    (2 ^ 32 - 1 < 2 ^ 32 ∧ 2 ^ 32 - 1 < 2 ^ 32 ∧ 2 ^ 64 - 1 < 2 ^ 64 ∧ 2 ^ 128 - 1 < 2 ^ 128) ∧
      pack (2 ^ 32 - 1) (2 ^ 32 - 1) (2 ^ 64 - 1) < 2 ^ 128 ∧
      unpack (pack (2 ^ 32 - 1) (2 ^ 32 - 1) (2 ^ 64 - 1)) = (2 ^ 32 - 1, 2 ^ 32 - 1, 2 ^ 64 - 1) ∧
      pack (unpack (2 ^ 128 - 1)).1 (unpack (2 ^ 128 - 1)).2.1 (unpack (2 ^ 128 - 1)).2.2 =
        2 ^ 128 - 1 :=
  ⟨by decide, unpack_pack_bijection (by decide) (by decide) (by decide) (by decide)⟩

end PackedBin

open PackedBin

/-! ### The stats -/

/-- `AtomicMovingStats`: the start, the size of a bin, and the packed bins. -/
structure AtomicMovingStats where
  startTime : Nat
  binSize : Nat
  bins : List Nat
  /-- `new` asserts that a bin is at least a millisecond. -/
  binMillis_pos : 0 < binSize / 10 ^ 6
  /-- `new` makes at least one bin, as a bin is smaller than the window. -/
  length_pos : 0 < bins.length

namespace AtomicMovingStats

/-- `AtomicMovingStats::new`, which panics unless both sizes are at least a millisecond and a
bin is smaller than the window; `startTime` is its `Instant::now()`, and every bin is
`PackedBin::new()`, a zero. -/
def new (windowSize binSize startTime : Nat) : Option AtomicMovingStats :=
  if h : 0 < windowSize / 10 ^ 6 ∧ 0 < binSize / 10 ^ 6 ∧ binSize < windowSize then
    some
      { startTime, binSize
        bins := List.replicate (windowSize / 10 ^ 6 / (binSize / 10 ^ 6)) 0
        binMillis_pos := h.2.1
        length_pos := by
          rw [List.length_replicate]
          exact Nat.div_pos (Nat.div_le_div_right h.2.2.le) h.2.1 }
  else none

/-- `epoch_at`: the whole bins since the start, in milliseconds, cast to `u32`. -/
def epochAt (s : AtomicMovingStats) (now : Nat) : Nat :=
  (now - s.startTime) / 10 ^ 6 / (s.binSize / 10 ^ 6) % 2 ^ 32

/-- The index of the bin of an instant, `current_epoch as usize % self.bins.len()`. -/
def binIdx (s : AtomicMovingStats) (now : Nat) : Nat := s.epochAt now % s.bins.length

theorem binIdx_lt (s : AtomicMovingStats) (now : Nat) : s.binIdx now < s.bins.length :=
  Nat.mod_lt _ s.length_pos

/-- `self.bins[bin_idx]`, loaded. -/
def binAt (s : AtomicMovingStats) (now : Nat) : Nat :=
  s.bins.get ⟨s.binIdx now, s.binIdx_lt now⟩

/-- The bin of an instant, written. -/
def setBinAt (s : AtomicMovingStats) (now packed : Nat) : AtomicMovingStats :=
  { s with
    bins := s.bins.set (s.binIdx now) packed
    length_pos := by
      rw [List.length_set]
      exact s.length_pos }

/-- The value the loop of `add_at` exchanges for the `current` value of the bin: in a bin of
the current epoch, one more measurement; in a bin of another epoch, this measurement alone. -/
def next (current epoch durationNanos : Nat) : Nat :=
  let bin := unpack current
  if bin.1 = epoch then
    pack epoch (saturatingAdd 32 bin.2.1 1) (saturatingAdd 64 bin.2.2 durationNanos)
  else pack epoch 1 durationNanos

/-- `add_at` when its first exchange succeeds, as it does without interference;
`duration.as_nanos() as u64` keeps the low 64 bits. -/
def addAt (s : AtomicMovingStats) (now duration : Nat) : AtomicMovingStats :=
  s.setBinAt now (next (s.binAt now) (s.epochAt now) (duration % 2 ^ 64))

/-- The measurements `(now, duration)` added one after the other. -/
def run (s : AtomicMovingStats) (events : List (Nat × Nat)) : AtomicMovingStats :=
  events.foldl (fun s e => s.addAt e.1 e.2) s

/-- One turn of the loops of `average_at` and `duration_at` over the bins: a bin whose epoch is
fewer than `numBins` epochs before `currentEpoch` adds its count and total. -/
def sumStep (currentEpoch numBins : Nat) (acc : Nat × Nat) (packed : Nat) : Nat × Nat :=
  let bin := unpack packed
  if wrappingSub 32 currentEpoch bin.1 < numBins then (acc.1 + bin.2.1, acc.2 + bin.2.2)
  else acc

/-- The count and the total of the bins within the window at `now`; `num_bins` is
`self.bins.len() as u32`. -/
def windowTotals (s : AtomicMovingStats) (now : Nat) : Nat × Nat :=
  s.bins.foldl (sumStep (s.epochAt now) (s.bins.length % 2 ^ 32)) (0, 0)

/-- `average_at`: the total over the count, cast to `u64`, unless the count is zero. -/
def averageAt (s : AtomicMovingStats) (now : Nat) : Option Nat :=
  if 0 < (s.windowTotals now).1 then
    some ((s.windowTotals now).2 / (s.windowTotals now).1 % 2 ^ 64)
  else none

/-- `average_gt`, at `now`: whether the average is above `duration`; `false` without
measurements. -/
def averageGt (s : AtomicMovingStats) (now duration : Nat) : Bool :=
  ((s.averageAt now).map fun avg => decide (duration < avg)).getD false

/-- `duration_at`: the total of the bins within the window, cast to `u64`; its loop is that of
`average_at` without the count. -/
def durationAt (s : AtomicMovingStats) (now : Nat) : Nat := (s.windowTotals now).2 % 2 ^ 64

/-! ### What a write keeps -/

@[simp] theorem setBinAt_startTime (s : AtomicMovingStats) (now packed : Nat) :
    (s.setBinAt now packed).startTime = s.startTime := rfl

@[simp] theorem setBinAt_binSize (s : AtomicMovingStats) (now packed : Nat) :
    (s.setBinAt now packed).binSize = s.binSize := rfl

@[simp] theorem length_bins_setBinAt (s : AtomicMovingStats) (now packed : Nat) :
    (s.setBinAt now packed).bins.length = s.bins.length := List.length_set

@[simp] theorem epochAt_setBinAt (s : AtomicMovingStats) (now packed t : Nat) :
    (s.setBinAt now packed).epochAt t = s.epochAt t := rfl

theorem epochAt_lt (s : AtomicMovingStats) (now : Nat) : s.epochAt now < 2 ^ 32 :=
  Nat.mod_lt _ (by norm_num)

/-- Below `2 ^ 32` bins since the start, the cast of `epoch_at` keeps the count. -/
theorem epochAt_eq {s : AtomicMovingStats} {now : Nat}
    (h : (now - s.startTime) / 10 ^ 6 / (s.binSize / 10 ^ 6) < 2 ^ 32) :
    s.epochAt now = (now - s.startTime) / 10 ^ 6 / (s.binSize / 10 ^ 6) :=
  Nat.mod_eq_of_lt h

/-- Epochs do not decrease with the instants, up to an instant within `2 ^ 32` bins of the
start. -/
theorem epochAt_mono {s : AtomicMovingStats} {t t' now : Nat} (ht : t ≤ t') (ht' : t' ≤ now)
    (h : (now - s.startTime) / 10 ^ 6 / (s.binSize / 10 ^ 6) < 2 ^ 32) :
    s.epochAt t ≤ s.epochAt t' := by
  have hmono : ∀ {a b : Nat}, a ≤ b → (a - s.startTime) / 10 ^ 6 / (s.binSize / 10 ^ 6) ≤
      (b - s.startTime) / 10 ^ 6 / (s.binSize / 10 ^ 6) := fun hab =>
    Nat.div_le_div_right (Nat.div_le_div_right (Nat.sub_le_sub_right hab _))
  have h' := lt_of_le_of_lt (hmono ht') h
  rw [epochAt_eq h', epochAt_eq (lt_of_le_of_lt (hmono ht) h')]
  exact hmono ht

/-- **The spec of the exchanged value**: the bin of the current epoch gets one more measurement,
a bin of another epoch this one alone. -/
theorem unpack_next (current : Nat) {epoch durationNanos : Nat} (he : epoch < 2 ^ 32)
    (hd : durationNanos < 2 ^ 64) :
    unpack (next current epoch durationNanos) =
      if (unpack current).1 = epoch then
        (epoch, saturatingAdd 32 (unpack current).2.1 1,
          saturatingAdd 64 (unpack current).2.2 durationNanos)
      else (epoch, 1, durationNanos) := by
  by_cases h : (unpack current).1 = epoch
  · rw [next, if_pos h, if_pos h]
    exact unpack_pack he (saturatingAdd_lt _ _ _) (saturatingAdd_lt _ _ _)
  · rw [next, if_neg h, if_neg h]
    exact unpack_pack he (by norm_num) hd

/-! ### Concurrent callers of `add_at` -/

/-- Where a caller of `add_at` is in its loop. -/
inductive Adder where
  /-- At the top of the loop: `load` is next. -/
  | loading (now duration : Nat)
  /-- `compare_exchange_weak` is next, with the value `current` the caller loaded. -/
  | exchanging (now duration current : Nat)
  /-- The exchange succeeded: the loop broke, and `add_at` returned. -/
  | returned (now duration : Nat)

namespace Adder

/-- One step of a caller of `add_at`; `spurious` is a failure of `compare_exchange_weak`
although the bin holds `current`, which the weak exchange allows. -/
def step (spurious : Bool) (s : AtomicMovingStats) :
    Adder → Option (AtomicMovingStats × Adder)
  | loading now duration => some (s, exchanging now duration (s.binAt now))
  | exchanging now duration current =>
    if s.binAt now = current ∧ spurious = false then
      some (s.setBinAt now (next current (s.epochAt now) (duration % 2 ^ 64)),
        returned now duration)
    else some (s, loading now duration)
  | returned _ _ => none

/-- The calls a caller starts with. -/
def IsCall : Adder → Prop
  | loading _ _ => True
  | _ => False

/-- The measurement of a call that returned. -/
def returnedMeasurement : Adder → Option (Nat × Nat)
  | returned now duration => some (now, duration)
  | _ => none

/-- **What one step of a caller does**: nothing to the bins or to the calls that returned, or
the exchange of the value it loaded, which is the sequential `add_at`. -/
theorem step_cases {spurious : Bool} {s s' : AtomicMovingStats} {a b : Adder}
    (h : a.step spurious s = some (s', b)) :
    (s' = s ∧ b.returnedMeasurement = a.returnedMeasurement) ∨
      ∃ now duration, a = exchanging now duration (s.binAt now) ∧
        b = returned now duration ∧ s' = s.addAt now duration := by
  cases a with
  | loading now duration =>
    simp only [step, Option.some.injEq, Prod.mk.injEq] at h
    obtain ⟨rfl, rfl⟩ := h
    exact .inl ⟨rfl, rfl⟩
  | exchanging now duration current =>
    simp only [step] at h
    split_ifs at h with hex
    · -- the exchange succeeds: the bin still held the value loaded
      obtain ⟨rfl, -⟩ := hex
      simp only [Option.some.injEq, Prod.mk.injEq] at h
      obtain ⟨rfl, rfl⟩ := h
      exact .inr ⟨now, duration, rfl, rfl, rfl⟩
    · simp only [Option.some.injEq, Prod.mk.injEq] at h
      obtain ⟨rfl, rfl⟩ := h
      exact .inl ⟨rfl, rfl⟩
  | returned now duration => simp [step] at h

end Adder

/-- Callers of `add_at` on the stats `s₀`, interleaved in every order. -/
def spec (s₀ : AtomicMovingStats) : Transition.Spec (Transition.Config AtomicMovingStats Adder) :=
  Transition.interleave (· = s₀)
    (fun s a s' b => ∃ spurious, a.step spurious s = some (s', b)) Adder.IsCall

/-- **No update is lost or counted twice.** However the loops of concurrent callers of
`add_at` interleave, and whenever the weak exchange fails spuriously, the bins are those the
sequential `add_at` leaves after the calls that returned, in some order of theirs; the calls
still in their loop have left no trace. -/
theorem reachable_eq_run_returned (s₀ : AtomicMovingStats) :
    Transition.Invariant (spec s₀) fun c => ∃ l : List (Nat × Nat),
      (l : Multiset (Nat × Nat)) = c.threads.filterMap Adder.returnedMeasurement ∧
        c.shared = s₀.run l := by
  refine Transition.invariant_of_inductive (fun c hc => ?_) (fun c c' hc hn => ?_)
    fun _ h => h
  · obtain ⟨hs, ht⟩ := hc
    exact ⟨[], by rw [ht, Multiset.filterMap_zero]; rfl, by rw [hs]; rfl⟩
  · obtain ⟨l, hl, hs⟩ := hc
    cases hn with
    | @step s s' a b ts h =>
      dsimp only at hl hs ⊢
      obtain ⟨spurious, h⟩ := h
      rcases Adder.step_cases h with ⟨rfl, hb⟩ | ⟨now, duration, rfl, rfl, rfl⟩
      · -- the same bins, and the same calls returned
        refine ⟨l, ?_, hs⟩
        rw [hl]
        simp only [Multiset.filterMap_cons, hb]
      · -- the linearization point: the returned call goes last
        refine ⟨l ++ [(now, duration)], ?_, ?_⟩
        · rw [Multiset.filterMap_cons_none _ _ rfl] at hl
          rw [Multiset.filterMap_cons_some Adder.returnedMeasurement _ _ rfl, ← hl,
            Multiset.cons_coe]
          exact Multiset.coe_eq_coe.mpr (List.perm_append_singleton _ _)
        · rw [hs]
          simp only [run, List.foldl_append, List.foldl_cons, List.foldl_nil]
    | @start s a ts h =>
      dsimp only at hl hs ⊢
      refine ⟨l, ?_, hs⟩
      cases a with
      | loading now duration => rw [Multiset.filterMap_cons_none _ _ rfl, hl]
      | exchanging => exact absurd h id
      | returned => exact absurd h id

/-! ### The window of a run -/

/-- The measurements of `es` whose epoch falls in bin `i`. -/
def fiber (s : AtomicMovingStats) (es : List (Nat × Nat)) (i : Nat) : List (Nat × Nat) :=
  es.filter fun e => s.epochAt e.1 % s.bins.length = i

/-- What a bin holds of the measurements `F` that fall in it, `epoch` being the epoch of an
instant: the epoch of the newest, `0` before the first, and the number and the total duration
of those of that epoch. -/
structure Holds (epoch : Nat → Nat) (F : List (Nat × Nat)) (bin : Nat × Nat × Nat) :
    Prop where
  newest : ∀ e ∈ F, epoch e.1 ≤ bin.1
  origin : bin.1 = 0 ∨ ∃ e ∈ F, epoch e.1 = bin.1
  count : bin.2.1 = (F.filter fun e => epoch e.1 = bin.1).length
  total : bin.2.2 = ((F.filter fun e => epoch e.1 = bin.1).map Prod.snd).sum

/-- **The invariant of a run**: every bin holds what `Holds` says of the measurements of `es`
that fall in it. -/
def Tracks (es : List (Nat × Nat)) (s : AtomicMovingStats) : Prop :=
  ∀ (i : Nat) (hi : i < s.bins.length), Holds s.epochAt (s.fiber es i) (unpack s.bins[i])

@[simp] theorem epochAt_addAt (s : AtomicMovingStats) (now duration : Nat) :
    (s.addAt now duration).epochAt = s.epochAt := rfl

@[simp] theorem length_bins_addAt (s : AtomicMovingStats) (now duration : Nat) :
    (s.addAt now duration).bins.length = s.bins.length := length_bins_setBinAt _ _ _

theorem fiber_addAt (s : AtomicMovingStats) (now duration : Nat) :
    (s.addAt now duration).fiber = s.fiber := by
  funext es i
  rw [fiber, fiber, length_bins_addAt]
  rfl

theorem fiber_append (s : AtomicMovingStats) (es : List (Nat × Nat)) (x : Nat × Nat)
    (i : Nat) :
    s.fiber (es ++ [x]) i =
      if s.epochAt x.1 % s.bins.length = i then s.fiber es i ++ [x] else s.fiber es i := by
  unfold fiber
  rw [List.filter_append]
  split_ifs with h <;> simp [h]

theorem epochAt_run (s : AtomicMovingStats) :
    ∀ es : List (Nat × Nat), (s.run es).epochAt = s.epochAt
  | [] => rfl
  | x :: es => epochAt_run (s.addAt x.1 x.2) es

theorem length_bins_run (s : AtomicMovingStats) :
    ∀ es : List (Nat × Nat), (s.run es).bins.length = s.bins.length
  | [] => rfl
  | x :: es => (length_bins_run (s.addAt x.1 x.2) es).trans (length_bins_addAt _ _ _)

theorem run_append (s : AtomicMovingStats) (es : List (Nat × Nat)) (x : Nat × Nat) :
    s.run (es ++ [x]) = (s.run es).addAt x.1 x.2 := by
  rw [run, List.foldl_append]
  rfl

theorem holds_nil (epoch : Nat → Nat) : Holds epoch [] (0, 0, 0) :=
  ⟨nofun, .inl rfl, rfl, rfl⟩

section Append

variable {epoch : Nat → Nat} {F : List (Nat × Nat)} {x : Nat × Nat}

/-- **One measurement more in a bin**, of an epoch no older than those already in it: the bin
of the same epoch counts it, a bin of an older epoch starts again with it. Neither the count
nor the total saturates below `2 ^ 32` measurements and `2 ^ 64` nanoseconds. -/
theorem Holds.append {be c d : Nat} (h : Holds epoch F (be, c, d))
    (hx : ∀ e ∈ F, epoch e.1 ≤ epoch x.1) (hlen : F.length + 1 < 2 ^ 32)
    (hsum : (F.map Prod.snd).sum + x.2 < 2 ^ 64) :
    Holds epoch (F ++ [x])
      (if be = epoch x.1 then (epoch x.1, saturatingAdd 32 c 1, saturatingAdd 64 d x.2)
      else (epoch x.1, 1, x.2)) := by
  obtain ⟨hnewest, horigin, hc, hd⟩ := h
  dsimp only at hnewest horigin hc hd
  -- the epoch of the bin is that of a measurement in it, or `0`: no newer than `x`
  have hbe : be ≤ epoch x.1 := by
    rcases horigin with h0 | ⟨e, he, rfl⟩
    · omega
    · exact hx e he
  have hnewest' : ∀ e ∈ F ++ [x], epoch e.1 ≤ epoch x.1 := by
    intro e he
    rcases List.mem_append.mp he with he | he
    · exact hx e he
    · rw [List.mem_singleton.mp he]
  have horigin' : ∃ e ∈ F ++ [x], epoch e.1 = epoch x.1 :=
    ⟨x, List.mem_append_right _ (List.mem_singleton_self x), rfl⟩
  by_cases heq : be = epoch x.1
  · -- the same epoch: one more measurement
    subst heq
    rw [if_pos rfl]
    have hcF : c ≤ F.length := hc ▸ List.length_filter_le _ _
    have hdF : d ≤ (F.map Prod.snd).sum := hd ▸ sum_map_filter_le _ _ _
    have hc' : saturatingAdd 32 c 1 = c + 1 := saturatingAdd_of_lt (by omega)
    have hd' : saturatingAdd 64 d x.2 = d + x.2 := saturatingAdd_of_lt (by omega)
    refine ⟨hnewest', .inr horigin', ?_, ?_⟩
    · rw [hc', hc, List.filter_append, List.length_append]
      simp
    · rw [hd', hd, List.filter_append, List.map_append, List.sum_append]
      simp
  · -- an older epoch: none of the measurements in the bin is of the epoch of `x`
    rw [if_neg heq]
    have hnone : (F.filter fun e => epoch e.1 = epoch x.1) = [] := by
      rw [List.filter_eq_nil_iff]
      intro e he
      have := hnewest e he
      simp only [decide_eq_true_eq]
      omega
    refine ⟨hnewest', .inr horigin', ?_, ?_⟩
    · rw [List.filter_append, hnone]
      simp
    · rw [List.filter_append, hnone]
      simp

end Append

/-- **The step of a run.** An `add_at` at an epoch no older than those of the measurements
before keeps the invariant. -/
theorem Tracks.addAt {es : List (Nat × Nat)} {s : AtomicMovingStats} (h : Tracks es s)
    {x : Nat × Nat} (hx : ∀ e ∈ es, s.epochAt e.1 ≤ s.epochAt x.1)
    (hlen : es.length + 1 < 2 ^ 32) (hsum : (es.map Prod.snd).sum + x.2 < 2 ^ 64) :
    Tracks (es ++ [x]) (s.addAt x.1 x.2) := by
  intro i hi
  rw [length_bins_addAt] at hi
  rw [fiber_addAt, epochAt_addAt]
  have hi' : i < (s.bins.set (s.binIdx x.1)
      (next (s.binAt x.1) (s.epochAt x.1) (x.2 % 2 ^ 64))).length := by
    rw [List.length_set]
    exact hi
  show Holds s.epochAt (s.fiber (es ++ [x]) i)
    (unpack (s.bins.set (s.binIdx x.1) (next (s.binAt x.1) (s.epochAt x.1) (x.2 % 2 ^ 64)))[i])
  rw [List.getElem_set, fiber_append]
  by_cases hidx : s.binIdx x.1 = i
  · -- the bin of `x`
    have hidx' : s.epochAt x.1 % s.bins.length = i := hidx
    rw [if_pos hidx, if_pos hidx']
    have hF : s.fiber es i ⊆ es := List.filter_subset_self es
    have hbin := h i hi
    have hx2 : x.2 % 2 ^ 64 = x.2 := Nat.mod_eq_of_lt (by omega)
    have hlen' : (s.fiber es i).length + 1 < 2 ^ 32 := by
      have := List.length_filter_le (fun e => decide (s.epochAt e.1 % s.bins.length = i)) es
      unfold fiber
      omega
    have hsum' : ((s.fiber es i).map Prod.snd).sum + x.2 < 2 ^ 64 := by
      have := sum_map_filter_le (fun e => decide (s.epochAt e.1 % s.bins.length = i))
        Prod.snd es
      unfold fiber
      omega
    rw [binAt, List.get_eq_getElem]
    simp only [hidx]
    rw [unpack_next _ (s.epochAt_lt _) (Nat.mod_lt _ (by norm_num)), hx2]
    exact Holds.append hbin (fun e he => hx e (hF he)) hlen' hsum'
  · have hidx' : ¬s.epochAt x.1 % s.bins.length = i := hidx
    rw [if_neg hidx, if_neg hidx']
    exact h i hi

/-- **The run lemma.** From fresh bins, along measurements whose instants do not decrease and
stay within `2 ^ 32` bins of the start, fewer than `2 ^ 32` of them with a total below `2 ^ 64`
nanoseconds, every bin holds the newest epoch that falls in it, with the number and the total
of the measurements of that epoch. -/
theorem tracks_run {s : AtomicMovingStats} (hfresh : ∀ p ∈ s.bins, p = 0) {now : Nat}
    (hwrap : (now - s.startTime) / 10 ^ 6 / (s.binSize / 10 ^ 6) < 2 ^ 32) :
    ∀ es : List (Nat × Nat), (es.map Prod.fst).IsChain (· ≤ ·) → (∀ e ∈ es, e.1 ≤ now) →
      es.length < 2 ^ 32 → (es.map Prod.snd).sum < 2 ^ 64 → Tracks es (s.run es) := by
  intro es
  induction es using List.reverseRecOn with
  | nil =>
    intro _ _ _ _ i hi
    rw [hfresh _ (List.getElem_mem hi), unpack_zero]
    exact holds_nil _
  | append_singleton pre x ih =>
    intro hmono hnow hlen hsum
    -- the instants before `x` are no later than it
    have hpw := List.isChain_iff_pairwise.mp hmono
    rw [List.map_append, List.pairwise_append] at hpw
    obtain ⟨hpre, -, hcross⟩ := hpw
    have hxnow : x.1 ≤ now := hnow x (List.mem_append_right _ (List.mem_singleton_self x))
    have hx : ∀ e ∈ pre, (s.run pre).epochAt e.1 ≤ (s.run pre).epochAt x.1 := by
      intro e he
      rw [epochAt_run]
      exact epochAt_mono (hcross _ (List.mem_map_of_mem he) _ (List.mem_singleton_self _))
        hxnow hwrap
    have hlen' : pre.length + 1 < 2 ^ 32 := by
      rw [List.length_append, List.length_singleton] at hlen
      exact hlen
    have hsum' : (pre.map Prod.snd).sum + x.2 < 2 ^ 64 := by
      rw [List.map_append, List.sum_append, List.map_singleton, List.sum_singleton] at hsum
      exact hsum
    have hT := ih (List.isChain_iff_pairwise.mpr hpre)
      (fun e he => hnow e (List.mem_append_left _ he)) (by omega) (by omega)
    rw [run_append]
    exact hT.addAt hx hlen' hsum'

/-- The loops of `average_at` and `duration_at`: sums over the bins of what each adds. -/
theorem foldl_sumStep (E n : Nat) : ∀ (bins : List Nat) (acc : Nat × Nat),
    bins.foldl (sumStep E n) acc =
      (acc.1 + (bins.map fun p =>
          if wrappingSub 32 E (unpack p).1 < n then (unpack p).2.1 else 0).sum,
        acc.2 + (bins.map fun p =>
          if wrappingSub 32 E (unpack p).1 < n then (unpack p).2.2 else 0).sum)
  | [], acc => by simp
  | p :: bins, acc => by
    rw [List.foldl_cons, foldl_sumStep E n bins]
    by_cases h : wrappingSub 32 E (unpack p).1 < n
    · simp only [sumStep, if_pos h, List.map_cons, List.sum_cons, Prod.mk.injEq]
      omega
    · simp only [sumStep, if_neg h, List.map_cons, List.sum_cons, Prod.mk.injEq]
      omega

/-- **What one bin adds at the epoch `E`**, no older than the measurements: its count and total
if it is within the window, which are those of its measurements fewer than `num_bins` epochs
before `E`; nothing otherwise, and then it holds no such measurement. -/
theorem Holds.window {s : AtomicMovingStats} {es : List (Nat × Nat)} {i : Nat}
    {bin : Nat × Nat × Nat} (h : Holds s.epochAt (s.fiber es i) bin) {E : Nat}
    (hE : ∀ e ∈ es, s.epochAt e.1 ≤ E) (hE32 : E < 2 ^ 32) :
    (if wrappingSub 32 E bin.1 < s.bins.length then bin.2.1 else 0) =
        ((s.fiber es i).filter fun e => E - s.epochAt e.1 < s.bins.length).length ∧
      (if wrappingSub 32 E bin.1 < s.bins.length then bin.2.2 else 0) =
        (((s.fiber es i).filter fun e => E - s.epochAt e.1 < s.bins.length).map
          Prod.snd).sum := by
  obtain ⟨hnewest, horigin, hc, hd⟩ := h
  have hF : ∀ e ∈ s.fiber es i, e ∈ es ∧ s.epochAt e.1 % s.bins.length = i := by
    intro e he
    simpa [fiber] using he
  have hbinE : bin.1 ≤ E := by
    rcases horigin with h0 | ⟨e, he, heq⟩
    · omega
    · exact heq ▸ hE e (hF e he).1
  rw [wrappingSub_of_le hbinE hE32]
  by_cases hw : E - bin.1 < s.bins.length
  · -- within the window: its measurements of its epoch are those of the window
    rw [if_pos hw, if_pos hw]
    have hfilter : ((s.fiber es i).filter fun e => E - s.epochAt e.1 < s.bins.length) =
        (s.fiber es i).filter fun e => s.epochAt e.1 = bin.1 := by
      apply List.filter_congr
      intro e he
      have hle := hnewest e he
      -- a measurement in the bin has the epoch of the bin, modulo the number of bins
      have hmod : s.epochAt e.1 % s.bins.length = bin.1 % s.bins.length := by
        rcases horigin with h0 | ⟨e', he', heq⟩
        · rw [h0] at hle ⊢
          rw [Nat.le_zero.mp hle]
        · rw [← heq, (hF e he).2, (hF e' he').2]
      have hsub := Nat.sub_mod_eq_zero_of_mod_eq hmod.symm
      simp only [decide_eq_decide]
      constructor
      · intro hlt
        have := Nat.mod_eq_of_lt (show bin.1 - s.epochAt e.1 < s.bins.length by omega)
        omega
      · intro heq
        omega
    rw [hfilter]
    exact ⟨hc, hd⟩
  · -- out of the window, with all its measurements
    rw [if_neg hw, if_neg hw]
    have hnil : ((s.fiber es i).filter fun e => E - s.epochAt e.1 < s.bins.length) = [] := by
      rw [List.filter_eq_nil_iff]
      intro e he
      have := hnewest e he
      simp only [decide_eq_true_eq]
      omega
    rw [hnil]
    simp

/-- **The sums of a tracked run** at an epoch `E` no older than its measurements: the count
and the total of the measurements fewer than `num_bins` epochs before `E`. -/
theorem Tracks.window {es : List (Nat × Nat)} {s : AtomicMovingStats} (h : Tracks es s)
    {E : Nat} (hE : ∀ e ∈ es, s.epochAt e.1 ≤ E) (hE32 : E < 2 ^ 32) :
    s.bins.foldl (sumStep E s.bins.length) (0, 0) =
      ((es.filter fun e => E - s.epochAt e.1 < s.bins.length).length,
        ((es.filter fun e => E - s.epochAt e.1 < s.bins.length).map Prod.snd).sum) := by
  -- a measurement is summed in its bin, the bin of its epoch
  let key : Nat × Nat → Fin s.bins.length :=
    fun e => ⟨s.epochAt e.1 % s.bins.length, Nat.mod_lt _ s.length_pos⟩
  have hfib : ∀ i : Fin s.bins.length,
      ((es.filter fun e => E - s.epochAt e.1 < s.bins.length).filter fun e => key e = i) =
        (s.fiber es i).filter fun e => E - s.epochAt e.1 < s.bins.length := by
    intro i
    simp only [fiber, List.filter_filter]
    apply List.filter_congr
    intro e _
    simp only [key, Fin.ext_iff, Bool.and_comm]
  have hsums : ∀ w : Nat × Nat → Nat,
      ((es.filter fun e => E - s.epochAt e.1 < s.bins.length).map w).sum =
        ∑ i : Fin s.bins.length,
          (((s.fiber es i).filter fun e => E - s.epochAt e.1 < s.bins.length).map w).sum := by
    intro w
    rw [sum_map_eq_sum_fibers key w]
    exact Finset.sum_congr rfl fun i _ => by rw [hfib i]
  rw [foldl_sumStep, Nat.zero_add, Nat.zero_add, ← Fin.sum_univ_fun_getElem,
    ← Fin.sum_univ_fun_getElem, Prod.mk.injEq]
  constructor
  · calc _ = ∑ i : Fin s.bins.length,
          ((s.fiber es i).filter fun e => E - s.epochAt e.1 < s.bins.length).length :=
          Finset.sum_congr rfl fun i _ => ((h i i.2).window hE hE32).1
      _ = _ := by simpa using (hsums fun _ => 1).symm
  · rw [hsums]
    exact Finset.sum_congr rfl fun i _ => ((h i i.2).window hE hE32).2

theorem new_spec {windowSize binSize startTime : Nat} {s : AtomicMovingStats}
    (h : new windowSize binSize startTime = some s) :
    s.startTime = startTime ∧ s.binSize = binSize ∧
      s.bins = List.replicate (windowSize / 10 ^ 6 / (binSize / 10 ^ 6)) 0 := by
  unfold new at h
  split_ifs at h
  rw [Option.some.injEq] at h
  subst h
  exact ⟨rfl, rfl, rfl⟩

/-- **The sums cover exactly the last `num_bins` epochs.** From `AtomicMovingStats::new`, after
measurements at instants that do not decrease, up to `now`: `duration_at` is the total, and
`average_at` the average, of the measurements fewer than `num_bins` epochs before the epoch of
`now`, as long as nothing wraps or saturates: `now` is within `2 ^ 32` bins of the start,
there are fewer than `2 ^ 32` bins and `2 ^ 32` measurements, and their total is below `2 ^ 64`
nanoseconds. -/
theorem averageAt_run_eq_window {windowSize binSize start : Nat} {s : AtomicMovingStats}
    (hnew : new windowSize binSize start = some s) {events : List (Nat × Nat)}
    (hmono : (events.map Prod.fst).IsChain (· ≤ ·)) {now : Nat}
    (hnow : ∀ e ∈ events, e.1 ≤ now)
    (hwrap : (now - start) / 10 ^ 6 / (binSize / 10 ^ 6) < 2 ^ 32)
    (hbins : windowSize / 10 ^ 6 / (binSize / 10 ^ 6) < 2 ^ 32)
    (hcount : events.length < 2 ^ 32) (hsum : (events.map Prod.snd).sum < 2 ^ 64) :
    let window := events.filter fun e => s.epochAt now - s.epochAt e.1 < s.bins.length
    (s.run events).durationAt now = (window.map Prod.snd).sum ∧
      (s.run events).averageAt now =
        if window = [] then none else some ((window.map Prod.snd).sum / window.length) := by
  intro window
  obtain ⟨hstart, hbin, hbins_eq⟩ := new_spec hnew
  have hfresh : ∀ p ∈ s.bins, p = 0 := by
    intro p hp
    rw [hbins_eq] at hp
    exact List.eq_of_mem_replicate hp
  have hwrap' : (now - s.startTime) / 10 ^ 6 / (s.binSize / 10 ^ 6) < 2 ^ 32 := by
    rw [hstart, hbin]
    exact hwrap
  have hlen : (s.run events).bins.length % 2 ^ 32 = s.bins.length := by
    rw [length_bins_run, hbins_eq, List.length_replicate]
    exact Nat.mod_eq_of_lt hbins
  have hE : ∀ e ∈ events, (s.run events).epochAt e.1 ≤ s.epochAt now := by
    intro e he
    rw [epochAt_run]
    exact epochAt_mono (hnow e he) le_rfl hwrap'
  have hT := tracks_run hfresh hwrap' events hmono hnow hcount hsum
  have htotals : (s.run events).windowTotals now =
      (window.length, (window.map Prod.snd).sum) := by
    rw [windowTotals, hlen, epochAt_run]
    have hw := hT.window hE (s.epochAt_lt now)
    rw [epochAt_run, length_bins_run] at hw
    exact hw
  have hwsum : (window.map Prod.snd).sum < 2 ^ 64 :=
    lt_of_le_of_lt (sum_map_filter_le _ _ _) hsum
  refine ⟨?_, ?_⟩
  · rw [durationAt, htotals]
    exact Nat.mod_eq_of_lt hwsum
  · rw [averageAt, htotals]
    by_cases hnil : window = []
    · rw [if_pos hnil, if_neg (by simp [hnil])]
    · rw [if_neg hnil, if_pos (List.length_pos_iff.mpr hnil),
        Nat.mod_eq_of_lt (lt_of_le_of_lt (Nat.div_le_self _ _) hwsum)]

theorem averageAt_run_eq_window_add_one_const :
    new (5 * 10 ^ 9) (10 ^ 9) 0 = some ((new (5 * 10 ^ 9) (10 ^ 9) 0).get (by decide)) ∧
      (((List.range 10).map fun i => (i * 10 ^ 9, 10 ^ 9)).map Prod.fst).IsChain (· ≤ ·) ∧
      (∀ e ∈ (List.range 10).map (fun i => (i * 10 ^ 9, 10 ^ 9)), e.1 ≤ 9 * 10 ^ 9) ∧
      (9 * 10 ^ 9 - 0) / 10 ^ 6 / (10 ^ 9 / 10 ^ 6) < 2 ^ 32 ∧
      5 * 10 ^ 9 / 10 ^ 6 / (10 ^ 9 / 10 ^ 6) < 2 ^ 32 ∧
      ((List.range 10).map fun i => (i * 10 ^ 9, 10 ^ 9)).length < 2 ^ 32 ∧
      (((List.range 10).map fun i => (i * 10 ^ 9, 10 ^ 9)).map Prod.snd).sum < 2 ^ 64 ∧
      let s := (new (5 * 10 ^ 9) (10 ^ 9) 0).get (by decide)
      let events := (List.range 10).map fun i => (i * 10 ^ 9, 10 ^ 9)
      let window := events.filter fun e =>
        s.epochAt (9 * 10 ^ 9) - s.epochAt e.1 < s.bins.length
      (s.run events).durationAt (9 * 10 ^ 9) = (window.map Prod.snd).sum ∧
        (s.run events).averageAt (9 * 10 ^ 9) =
          if window = [] then none else some ((window.map Prod.snd).sum / window.length) :=
  ⟨(Option.some_get _).symm, by decide, by decide, by decide, by decide, by decide, by decide,
    averageAt_run_eq_window (Option.some_get _).symm (by decide) (by decide) (by decide)
      (by decide) (by decide) (by decide)⟩

end AtomicMovingStats

end GraphNode
