import GraphNode.Util.Ogive

/-!
# Batching through a range of `vid`s

`VidBatcher` moves through an inclusive range of `vid`s in batches that should each take
about the target duration: `step` hands the batch `[start, end]` to a callback, adapts the
batch size to the time the callback took (`AdaptiveBatchSize::adapt`), and moves `start` past
`end` and `end` to `next_point (start, size)` of an ogive of the `vid` histogram.

The batch size adapts by `min (2 · size, round (size · target / duration))`. A batch that
takes more than twice as long as the target, with a small batch size, rounds the size down
to `0`, and a size of `0` stays `0` whatever the later durations are (`adapt_zero`): the
doubling starts from nothing. With a size of `0`, `next_point (start, 0)` is `g (f start)`,
which the truncations of the ogive can put at `start - 1`; the batcher is then stuck at an
empty batch `[start, start - 1]` (`step_stuck`, `run_stuck`). From a range of `2 ^ 20 + 1`
`vid`s without a histogram and batches that each take four times the target, it never
finishes (`vidBatcher_stalls_at_batch_size_zero`).

Durations are in milliseconds, as `adapt` reads them with `as_millis`; the callback always
succeeds, and its result is not modelled.
-/

namespace GraphNode

open Binary64

/-- `INITIAL_BATCH_SIZE`, for tables without an array column. -/
def INITIAL_BATCH_SIZE : Int64 := 10000

/-- `INITIAL_BATCH_SIZE_LIST`, for tables with an array column. -/
def INITIAL_BATCH_SIZE_LIST : Int64 := 100

/-- `AdaptiveBatchSize`, with the target duration in milliseconds. -/
structure AdaptiveBatchSize where
  size : Int64
  target : Nat
  deriving DecidableEq

namespace AdaptiveBatchSize

/-- `AdaptiveBatchSize::new` for a table, by whether it has a list column. -/
def new (hasListColumn : Bool) (target : Nat) : AdaptiveBatchSize :=
  ⟨if hasListColumn then INITIAL_BATCH_SIZE_LIST else INITIAL_BATCH_SIZE, target⟩

/-- `adapt`: extrapolate the size to the target duration, at most doubling it. -/
def adapt (b : AdaptiveBatchSize) (duration : Nat) : AdaptiveBatchSize :=
  -- avoid division by zero
  let duration := max duration 1
  let newBatchSize := ofInt b.size.toInt * ofNat b.target / ofNat duration
  { b with size := min (2 * b.size) newBatchSize.round.toInt64 }

/-- **A batch size of `0` stays `0`**, whatever the duration: the extrapolation of `0` is `0`
or NaN, which both cast to `0`. -/
theorem adapt_zero {b : AdaptiveBatchSize} (hsize : b.size = 0) (duration : Nat) :
    b.adapt duration = b := by
  have hnew : (ofInt b.size.toInt * ofNat b.target / ofNat (max duration 1)).round.toInt64 = 0 := by
    rw [hsize]
    exact ((((ZeroOrNaN.zero.mul _).div _)).round).toInt64
  unfold adapt
  dsimp only
  rw [hnew]
  obtain ⟨size, target⟩ := b
  dsimp only at hsize
  subst hsize
  rfl

end AdaptiveBatchSize

/-- `VidRange`: the inclusive range `[min, max]`. -/
structure VidRange where
  min : Int64
  max : Int64

namespace VidRange

/-- `is_empty`: no `vid` (`max = -1`), or a finished copy (`min > max`). -/
def isEmpty (range : VidRange) : Bool := range.max = -1 || range.min > range.max

/-- `size`: the number of `vid`s. -/
def size (range : VidRange) : UInt64 := (range.max - range.min).toUInt64 + 1

end VidRange

/-- `VidBatcher`, with `batchEnd` for its field `end`. -/
structure VidBatcher where
  batchSize : AdaptiveBatchSize
  start : Int64
  batchEnd : Int64
  maxVid : Int64
  ogive : Option Ogive
  deriving DecidableEq

namespace VidBatcher

/-- `VidBatcher::new`. -/
def new (bounds : List Int64) (range : VidRange) (batchSize : AdaptiveBatchSize) :
    ExceptT OgiveError Option VidBatcher := do
  let start := range.min
  -- keep the histogram bounds in the range, with the range's ends for the first and last one,
  -- or one bucket from `min` to `max` without a histogram
  let bounds := bounds.filter fun bound => decide (range.min ≤ bound) && decide (range.max ≥ bound)
  let bounds :=
    if bounds.length > 1 then (bounds.set 0 range.min).set (bounds.length - 1) range.max
    else [range.min, range.max]
  let ogive ← if range.isEmpty then pure none
    else some <$> Ogive.fromEquiHistogram bounds range.size
  let batchEnd ← match ogive with
    | none => pure (start + batchSize.size)
    | some ogive => ogive.nextPoint start batchSize.size.toUInt64
  pure ⟨batchSize, start, batchEnd, range.max, ogive⟩

/-- `finished`. -/
def finished (b : VidBatcher) : Bool := b.start > b.maxVid

/-- `step`, where the callback took `duration`: the batch handed to the callback, if any, and
the batcher after. -/
def step (b : VidBatcher) (duration : Nat) :
    ExceptT OgiveError Option (Option (Int64 × Int64) × VidBatcher) :=
  if b.finished then pure (none, b)
  else
    match b.ogive with
    | none => pure (none, b)
    | some ogive => do
      let batchSize := b.batchSize.adapt duration
      -- we can't possibly copy farther than `max_vid`
      let start := min (b.batchEnd + 1) (b.maxVid + 1)
      let batchEnd ← ogive.nextPoint start batchSize.size.toUInt64
      pure (some (b.start, b.batchEnd), { b with batchSize, start, batchEnd })

/-- One step of a drive: the batches handed to the callback so far, and the batcher. -/
def driveStep (acc : List (Int64 × Int64) × VidBatcher) (duration : Nat) :
    ExceptT OgiveError Option (List (Int64 × Int64) × VidBatcher) := do
  let (batch, b) ← acc.2.step duration
  pure (acc.1 ++ batch.toList, b)

/-- Driving `step` with one duration for each step: the batches handed to the callback, and
the batcher after. -/
def run (durations : List Nat) (b : VidBatcher) :
    ExceptT OgiveError Option (List (Int64 × Int64) × VidBatcher) :=
  durations.foldlM driveStep ([], b)

/-- The test `vid_batcher_handles_large_vid`: a histogram of large `vid`s, batches that take
`100` seconds for a target of `180`, and the `44` batches the `f64` run hands out. -/
example : (do
    let b ← VidBatcher.new
      [186155521970012263, 186155552034783334, 186166744719556711, 187571594162339943,
      187571628522078310, 187576619274076263, 187576649338847334, 187580570643988583,
      187590242910339175, 187590268680142950, 187963647367053415, 187970828552372324,
      187986749996138596, 187989601854423140]
      ⟨186155521970012263, 187989601854423140⟩ ⟨10000, 180000⟩
    let r ← b.run (List.replicate 44 100000)
    pure (r.1, r.2.finished)).run =
    some (.ok (
      [(186155521970012263, 186155521970012265), (186155521970012266, 186155521970012269),
      (186155521970012270, 186155521970012276), (186155521970012277, 186155521970012289),
      (186155521970012290, 186155521970012312), (186155521970012313, 186155521970012353),
      (186155521970012354, 186155521970012426), (186155521970012427, 186155521970012557),
      (186155521970012558, 186155521970012792), (186155521970012793, 186155521970013215),
      (186155521970013216, 186155521970013976), (186155521970013977, 186155521970015346),
      (186155521970015347, 186155521970017812), (186155521970017813, 186155521970022250),
      (186155521970022251, 186155521970030238), (186155521970030239, 186155521970044616),
      (186155521970044617, 186155521970070495), (186155521970070496, 186155521970117077),
      (186155521970117078, 186155521970200925), (186155521970200926, 186155521970351851),
      (186155521970351852, 186155521970623517), (186155521970623518, 186155521971112515),
      (186155521971112516, 186155521971992710), (186155521971992711, 186155521973577061),
      (186155521973577062, 186155521976428893), (186155521976428894, 186155521981562190),
      (186155521981562191, 186155521990802124), (186155521990802125, 186155522007434004),
      (186155522007434005, 186155522037371388), (186155522037371389, 186155522091258678),
      (186155522091258679, 186155522188255800), (186155522188255801, 186155522362850619),
      (186155522362850620, 186155522677121292), (186155522677121293, 186155523242808503),
      (186155523242808504, 186155524261045483), (186155524261045484, 186155526093872046),
      (186155526093872047, 186155529392959859), (186155529392959860, 186155535331317922),
      (186155535331317923, 186155546020362436), (186155546020362437, 186160475833232786),
      (186160475833232787, 186998193536485260), (186998193536485261, 187574948946679478),
      (187574948946679479, 187590253155585376), (187590253155585377, 187989601854423140)],
      true)) := by
  decide +kernel

/-- **A stuck batcher**: at a batch size of `0`, with `end + 1 = start` within the range and
`next_point (start, 0) = end`, a step hands `[start, end]` to the callback again and changes
nothing, whatever the duration. -/
theorem step_stuck {b : VidBatcher} {o : Ogive} (hogive : b.ogive = some o)
    (hsize : b.batchSize.size = 0) (hstart : b.start ≤ b.maxVid) (hclamp : b.start ≤ b.maxVid + 1)
    (hend : b.batchEnd + 1 = b.start) (hnext : o.nextPoint b.start 0 = pure b.batchEnd)
    (duration : Nat) : b.step duration = pure (some (b.start, b.batchEnd), b) := by
  have hfinished : b.finished = false := by simpa [finished] using hstart
  have hmin : min (b.batchEnd + 1) (b.maxVid + 1) = b.start := by
    rw [hend]
    exact if_pos hclamp
  unfold step
  rw [hfinished, if_neg Bool.false_ne_true, hogive]
  dsimp only
  rw [AdaptiveBatchSize.adapt_zero hsize, hmin, hsize]
  rw [show (0 : Int64).toUInt64 = 0 from rfl, hnext, pure_bind, ← hogive]

/-- **A stuck batcher stays stuck**: every step hands it the same batch. -/
theorem run_stuck {b : VidBatcher} {o : Ogive} (hogive : b.ogive = some o)
    (hsize : b.batchSize.size = 0) (hstart : b.start ≤ b.maxVid) (hclamp : b.start ≤ b.maxVid + 1)
    (hend : b.batchEnd + 1 = b.start) (hnext : o.nextPoint b.start 0 = pure b.batchEnd)
    (batches : List (Int64 × Int64)) (durations : List Nat) :
    durations.foldlM driveStep (batches, b) =
      pure (batches ++ List.replicate durations.length (b.start, b.batchEnd), b) := by
  induction durations generalizing batches with
  | nil => simp
  | cons duration durations ih =>
    rw [List.foldlM_cons, driveStep, step_stuck hogive hsize hstart hclamp hend hnext, pure_bind]
    dsimp only
    rw [pure_bind, ih, List.length_cons, List.replicate_succ, Option.toList_some,
      List.append_assoc, List.singleton_append]

/-- The batcher of `[0, 2 ^ 20]` without a histogram, stuck at `start = 13334` with a batch size
of `0`. -/
def stalledBatcher : VidBatcher :=
  ⟨⟨0, 180000⟩, 13334, 13333, 1048576, some ⟨[0, 1048576], .finite 1048577, 0, 1048576⟩⟩

/-- From the `vid`s `[0, 2 ^ 20]` of a table without a histogram or an array column, with the
default target of `180` seconds, and batches that each take `720` seconds, the batch size falls
`10000, 2500, 625, 156, 39, 10, 3, 1, 0`; from the ninth step on, every step hands the empty
batch `[13334, 13333]` to the callback, and the batcher never finishes. -/
theorem vidBatcher_stalls_at_batch_size_zero :
    ∃ batcher, (VidBatcher.new [] ⟨0, 1048576⟩ (AdaptiveBatchSize.new false 180000)).run =
        some (.ok batcher) ∧
      ∀ n, ∃ b, (batcher.run (List.replicate (8 + n) 720000)).run =
          some (.ok ([(0, 9999), (10000, 12499), (12500, 13124), (13125, 13280), (13281, 13319),
            (13320, 13329), (13330, 13332), (13333, 13333)] ++ List.replicate n (13334, 13333),
            b)) ∧
        b.finished = false := by
  refine ⟨⟨⟨10000, 180000⟩, 0, 9999, 1048576, some ⟨[0, 1048576], .finite 1048577, 0, 1048576⟩⟩,
    by decide +kernel, fun n => ⟨stalledBatcher, ?_, by decide⟩⟩
  -- eight steps bring the batch size to `0`, and the batcher to a stuck state
  have height : (List.replicate 8 720000).foldlM driveStep
      ([], ⟨⟨10000, 180000⟩, 0, 9999, 1048576, some ⟨[0, 1048576], .finite 1048577, 0, 1048576⟩⟩) =
      pure ([(0, 9999), (10000, 12499), (12500, 13124), (13125, 13280), (13281, 13319),
        (13320, 13329), (13330, 13332), (13333, 13333)], stalledBatcher) :=
    ExceptT.ext (by decide +kernel)
  have hnext : (⟨[0, 1048576], .finite 1048577, 0, 1048576⟩ : Ogive).nextPoint 13334 0 =
      pure 13333 :=
    ExceptT.ext (by decide +kernel)
  have hstuck := run_stuck (b := stalledBatcher) rfl rfl (by decide) (by decide) rfl hnext
  rw [run, List.replicate_add, List.foldlM_append, height, pure_bind, hstuck,
    List.length_replicate]
  rfl

end VidBatcher

end GraphNode
