import GraphNode.Data.Entity

/-!
# Rolling up aggregations

The timeseries of a subgraph are aggregated per hour and per day. When a batch of blocks is
written, `Layout::rollup` fills the buckets that ended since the last rollup: for each block
time of the batch in turn, and each rollup of the layout, it takes the buckets from the one
holding the previous time (`last_rollup` at first) up to the one holding the block's time,
inserts the first of them at the block, and moves `last_rollup` on to the block's time. The
loop over the rollups `break`s at the first one without a bucket.

That `break` is harmless because the rollups come in the order of `agg_mappings`, which is
sorted by interval, and a day is a whole number of hours: a time that has not left the hour of
the time before has not left its day (`rollupBlock_eq_stepInserts`). So a rollup inserts, at
each block whose time leaves the bucket of the time before, that bucket
(`rollup_eq_rollupSpec`, where `rollupSpec` says so without the loops).

`BlockTime::bucket` counts a time before the epoch as the epoch, so the buckets are those of
the times clamped to the epoch: a time two hours before the epoch and one a minute after it
share a bucket (`rollup_before_epoch`). For block times in order, no rollup inserts a bucket
twice (`pairwise_rollup`), and rolling up two batches one after the other, the second from the
last time of the first, inserts what rolling up the appended batch does (`rollup_append`).

A block time is its millisecond count since the epoch, all that `bucket` reads, and an insert
is recorded by its rollup, bucket and block; the SQL of the rollup is not modelled. The
`nr as u32` of `buckets` is left out: a `Timestamp` ends before the year 262144, fewer than
`2^32` hours after the epoch.
-/

namespace GraphNode

/-- `BlockTime`, by the milliseconds since the epoch of its `timestamp_millis()`. -/
abbrev BlockTime := Int

/-- `BlockTime::bucket`: the number of the last bucket of `length` milliseconds that starts
before the time, a time before the epoch counting as the epoch. -/
def BlockTime.bucket (self : BlockTime) (length : Nat) : Nat := self.toNat / length

/-- `AggregationInterval`, in the order its derived `Ord` gives. -/
inductive AggregationInterval where
  | hour
  | day
  deriving DecidableEq, Repr

namespace AggregationInterval

/-- The place of an interval in the derived order. -/
def rank : AggregationInterval → Nat
  | hour => 0
  | day => 1

/-- `AggregationInterval::as_duration`, in milliseconds. -/
def asDuration : AggregationInterval → Nat
  | hour => 3600 * 1000
  | day => 3600 * 24 * 1000

/-- The range of bucket number `nr`. -/
def bucketRange (self : AggregationInterval) (nr : Nat) : BlockTime × BlockTime :=
  let start : BlockTime := self.asDuration * nr
  (start, start + self.asDuration)

/-- `AggregationInterval::buckets`: the ranges of the buckets from the one `from` falls in up to,
and not including, the one `to` falls in. -/
def buckets (self : AggregationInterval) («from» «to» : BlockTime) :
    List (BlockTime × BlockTime) :=
  let first := BlockTime.bucket «from» self.asDuration
  let last := BlockTime.bucket «to» self.asDuration
  (List.range' first (last - first)).map self.bucketRange

end AggregationInterval

/-- `AggregationMapping`: an interval of an aggregation, by the index of the aggregation's type
and of the interval among the aggregation's. -/
structure AggregationMapping where
  interval : AggregationInterval
  aggregation : Nat
  aggType : Nat
  deriving DecidableEq, Repr

/-- The derived order of `AggregationMapping`: by interval, then aggregation, then index. -/
def AggregationMapping.key (m : AggregationMapping) : Nat ×ₗ Nat ×ₗ Nat :=
  toLex (m.interval.rank, toLex (m.aggregation, m.aggType))

/-- The mappings of the aggregation of index `aggregation`, one for each of its intervals. -/
def aggregationMappings (aggregation : Nat) (intervals : List AggregationInterval) :
    List AggregationMapping :=
  intervals.zipIdx.map fun (interval, aggType) => ⟨interval, aggregation, aggType⟩

/-- `agg_mappings` of `InputSchema::parse`: the mappings of each type of the schema that is an
aggregation, by its index, then `sort`. A type is given by its intervals if it is an
aggregation. -/
def aggMappings (tsTypes : List (Option (List AggregationInterval))) :
    List AggregationMapping :=
  let mappings := (tsTypes.zipIdx.filterMap fun (ti, idx) => ti.map fun aggType => (idx, aggType))
    |>.flatMap fun (aggregation, aggType) => aggregationMappings aggregation aggType
  mappings.mergeSort fun a b => decide (a.key ≤ b.key)

/-- `Rollup::insert` of a bucket, at a block. -/
structure RollupInsert where
  rollup : AggregationMapping
  bucket : BlockTime × BlockTime
  block : BlockNumber
  deriving DecidableEq, Repr

namespace Layout

/-- The loop over the rollups for one block: the first bucket between `lastRollup` and the
block's time, for each rollup up to the first that has none. -/
def rollupBlock (lastRollup : BlockTime) (block : BlockNumber) (blockTime : BlockTime) :
    List AggregationMapping → List RollupInsert
  | [] => []
  | rollup :: rollups =>
    match (rollup.interval.buckets lastRollup blockTime).head? with
    -- The rollups are in increasing order of interval size, so if a smaller interval doesn't
    -- have a bucket between last_rollup and block_time, a larger one can't either
    | none => []
    | some bucket => ⟨rollup, bucket, block⟩ :: rollupBlock lastRollup block blockTime rollups

/-- The loop over the block times, moving `last_rollup` on to each block's time. -/
def rollupLoop (rollups : List AggregationMapping) (lastRollup : BlockTime) :
    List (BlockNumber × BlockTime) → List RollupInsert
  | [] => []
  | (block, blockTime) :: blockTimes =>
    rollupBlock lastRollup block blockTime rollups ++ rollupLoop rollups blockTime blockTimes

/-- `Layout::rollup`, with the rollups of the layout, in the order of the aggregation
mappings. -/
def rollup (rollups : List AggregationMapping) (lastRollup : Option BlockTime) :
    List (BlockNumber × BlockTime) → List RollupInsert
  | [] => []
  | (block, blockTime) :: blockTimes =>
    -- If we have never done a rollup, we can just use the smallest block time
    let lastRollup := lastRollup.getD ((blockTimes.map (·.2)).foldl min blockTime)
    rollupLoop rollups lastRollup ((block, blockTime) :: blockTimes)

end Layout

/-! ### Buckets -/

/-- `bucket` is monotone in the time. -/
theorem BlockTime.bucket_le_bucket {t t' : BlockTime} (h : t ≤ t') (length : Nat) :
    t.bucket length ≤ t'.bucket length :=
  Nat.div_le_div_right (Int.toNat_le_toNat h)

namespace AggregationInterval

/-- The day bucket of a time is its hour bucket divided by `24`: a day is a whole number of
hours. -/
theorem bucket_day (t : BlockTime) : t.bucket day.asDuration = t.bucket hour.asDuration / 24 := by
  simp only [BlockTime.bucket, asDuration, Nat.div_div_eq_div_mul]

/-- Whether `t` falls in a later bucket of the interval than `t₀`. -/
def leavesBucket (self : AggregationInterval) (t₀ t : BlockTime) : Prop :=
  t₀.bucket self.asDuration < t.bucket self.asDuration

instance (self : AggregationInterval) (t₀ t : BlockTime) : Decidable (self.leavesBucket t₀ t) :=
  inferInstanceAs (Decidable (_ < _))

/-- **A time that leaves a bucket of an interval leaves the bucket of every shorter interval.** -/
theorem leavesBucket_of_rank_le {I J : AggregationInterval} (h : I.rank ≤ J.rank)
    {t₀ t : BlockTime} (hJ : J.leavesBucket t₀ t) : I.leavesBucket t₀ t := by
  cases I <;> cases J
  case hour.day =>
    -- two times in one hour are in one day
    unfold leavesBucket at hJ ⊢
    rw [bucket_day, bucket_day] at hJ
    by_contra hle
    exact absurd hJ (not_lt.mpr (Nat.div_le_div_right (not_lt.mp hle)))
  case day.hour => simp [rank] at h
  all_goals exact hJ

/-- The first of the buckets between two times is the bucket of the first time, if the second
time has left it. -/
theorem head?_buckets (I : AggregationInterval) (t₀ t : BlockTime) :
    (I.buckets t₀ t).head? =
      if I.leavesBucket t₀ t then some (I.bucketRange (t₀.bucket I.asDuration)) else none := by
  unfold buckets
  rw [List.head?_map, List.head?_range']
  by_cases h : I.leavesBucket t₀ t
  · have hne : t.bucket I.asDuration - t₀.bucket I.asDuration ≠ 0 := by
      unfold leavesBucket at h
      omega
    rw [if_neg hne, if_pos h]
    rfl
  · have heq : t.bucket I.asDuration - t₀.bucket I.asDuration = 0 := by
      unfold leavesBucket at h
      omega
    rw [if_pos heq, if_neg h]
    rfl

theorem bucketRange_injective (I : AggregationInterval) : Function.Injective I.bucketRange := by
  intro n m h
  have hstart := congrArg Prod.fst h
  -- `omega` reads `Int`, not the abbreviation `BlockTime`
  cases I <;> dsimp only [bucketRange, asDuration, BlockTime] at hstart <;> omega

/-- **From the epoch on, the bucket `bucket` numbers is the one the time falls in.** -/
theorem mem_bucketRange_bucket (I : AggregationInterval) {t : BlockTime} (h : 0 ≤ t) :
    (I.bucketRange (t.bucket I.asDuration)).1 ≤ t ∧
      t < (I.bucketRange (t.bucket I.asDuration)).2 := by
  have ht : (t.toNat : Int) = t := Int.toNat_of_nonneg h
  cases I <;> dsimp only [bucketRange, BlockTime.bucket, asDuration, BlockTime] <;> omega

end AggregationInterval

/-! ### The order of the rollups -/

/-- **`agg_mappings` is sorted**, by the derived order. -/
theorem pairwise_key_aggMappings (tsTypes : List (Option (List AggregationInterval))) :
    (aggMappings tsTypes).Pairwise fun a b => a.key ≤ b.key := by
  have hsorted : ∀ l : List AggregationMapping,
      (l.mergeSort fun a b => decide (a.key ≤ b.key)).Pairwise
        fun a b => decide (a.key ≤ b.key) :=
    List.pairwise_mergeSort
      (fun a b c hab hbc =>
        decide_eq_true (le_trans (of_decide_eq_true hab) (of_decide_eq_true hbc)))
      (fun a b => by simpa using le_total a.key b.key)
  exact (hsorted _).imp of_decide_eq_true

/-- The rollups come in increasing order of interval. -/
theorem pairwise_rank_aggMappings (tsTypes : List (Option (List AggregationInterval))) :
    (aggMappings tsTypes).Pairwise fun r s => r.interval.rank ≤ s.interval.rank := by
  refine (pairwise_key_aggMappings tsTypes).imp fun h => ?_
  rcases Prod.Lex.toLex_le_toLex.mp h with hlt | ⟨heq, -⟩
  · exact le_of_lt hlt
  · exact heq.le

theorem aggregation_of_mem_aggregationMappings {aggregation : Nat}
    {intervals : List AggregationInterval} {m : AggregationMapping}
    (h : m ∈ aggregationMappings aggregation intervals) : m.aggregation = aggregation := by
  obtain ⟨⟨interval, aggType⟩, -, rfl⟩ := List.mem_map.mp h
  rfl

theorem nodup_aggregationMappings (aggregation : Nat) (intervals : List AggregationInterval) :
    (aggregationMappings aggregation intervals).Nodup := by
  refine List.Nodup.map ?_ ((List.nodup_zipIdx_map_snd intervals).of_map _)
  rintro ⟨interval, aggType⟩ ⟨interval', aggType'⟩ h
  simp only [AggregationMapping.mk.injEq] at h
  obtain ⟨rfl, -, rfl⟩ := h
  rfl

/-- **No mapping is in `agg_mappings` twice**: the aggregations are told apart by their index,
and the intervals of one by theirs. -/
theorem nodup_aggMappings (tsTypes : List (Option (List AggregationInterval))) :
    (aggMappings tsTypes).Nodup := by
  -- the aggregations come in increasing order of index
  have hidx : tsTypes.zipIdx.Pairwise fun a b => a.2 < b.2 := by
    have h : (tsTypes.zipIdx.map Prod.snd).Pairwise (· < ·) := by
      rw [List.zipIdx_map_snd]
      exact List.pairwise_lt_range'
    exact List.pairwise_map.mp h
  refine (List.mergeSort_perm _ _).nodup_iff.mpr (List.nodup_flatMap.mpr ⟨?_, ?_⟩)
  · rintro ⟨aggregation, intervals⟩ -
    exact nodup_aggregationMappings aggregation intervals
  · refine List.Pairwise.imp ?_
      (hidx.filterMap _ ?_ :
        List.Pairwise (fun p q : Nat × List AggregationInterval => p.1 < q.1) _)
    · rintro ⟨aggregation, intervals⟩ ⟨aggregation', intervals'⟩ hlt m hm hm'
      have h := aggregation_of_mem_aggregationMappings hm
      have h' := aggregation_of_mem_aggregationMappings hm'
      simp only at hlt
      omega
    · rintro ⟨ti, idx⟩ ⟨ti', idx'⟩ hlt p hp p' hp'
      obtain ⟨_, -, rfl⟩ := Option.map_eq_some_iff.mp hp
      obtain ⟨_, -, rfl⟩ := Option.map_eq_some_iff.mp hp'
      exact hlt

/-! ### What a rollup inserts -/

namespace Layout

/-- The inserts at a block whose time is `blockTime`, when the time before was `prev`: for
each rollup whose interval the block time leaves the bucket of `prev` in, that bucket. -/
def stepInserts (rollups : List AggregationMapping) (prev : BlockTime) (block : BlockNumber)
    (blockTime : BlockTime) : List RollupInsert :=
  (rollups.filter fun r => r.interval.leavesBucket prev blockTime).map fun r =>
    ⟨r, r.interval.bucketRange (prev.bucket r.interval.asDuration), block⟩

/-- What rolling up a batch should insert: the inserts of each block, from the time of the
block before it, and from `lastRollup` for the first. -/
def rollupSpec (rollups : List AggregationMapping) (lastRollup : BlockTime)
    (blockTimes : List (BlockNumber × BlockTime)) : List RollupInsert :=
  ((lastRollup :: blockTimes.map (·.2)).zip blockTimes).flatMap fun (prev, block, blockTime) =>
    stepInserts rollups prev block blockTime

@[simp] theorem rollupSpec_nil (rollups : List AggregationMapping) (lastRollup : BlockTime) :
    rollupSpec rollups lastRollup [] = [] := rfl

theorem rollupSpec_cons (rollups : List AggregationMapping) (prev : BlockTime)
    (block : BlockNumber) (blockTime : BlockTime) (blockTimes : List (BlockNumber × BlockTime)) :
    rollupSpec rollups prev ((block, blockTime) :: blockTimes) =
      stepInserts rollups prev block blockTime ++ rollupSpec rollups blockTime blockTimes := by
  simp [rollupSpec]

theorem mem_stepInserts {rollups : List AggregationMapping} {prev : BlockTime}
    {block : BlockNumber} {blockTime : BlockTime} {i : RollupInsert} :
    i ∈ stepInserts rollups prev block blockTime ↔
      i.rollup ∈ rollups ∧ i.rollup.interval.leavesBucket prev blockTime ∧
        i.bucket = i.rollup.interval.bucketRange (prev.bucket i.rollup.interval.asDuration) ∧
        i.block = block := by
  obtain ⟨rollup, bucket, block'⟩ := i
  simp only [stepInserts, List.mem_map, List.mem_filter, decide_eq_true_eq,
    RollupInsert.mk.injEq]
  constructor
  · rintro ⟨r, ⟨hr, hleaves⟩, rfl, rfl, rfl⟩
    exact ⟨hr, hleaves, rfl, rfl⟩
  · rintro ⟨hr, hleaves, rfl, rfl⟩
    exact ⟨rollup, ⟨hr, hleaves⟩, rfl, rfl, rfl⟩

section Sorted

variable {rollups : List AggregationMapping}
  (hsorted : rollups.Pairwise fun r s => r.interval.rank ≤ s.interval.rank)
include hsorted

/-- **The `break` at the first rollup without a bucket skips no rollup that has one**, for
rollups in increasing order of interval. -/
theorem rollupBlock_eq_stepInserts (lastRollup : BlockTime) (block : BlockNumber)
    (blockTime : BlockTime) :
    rollupBlock lastRollup block blockTime rollups =
      stepInserts rollups lastRollup block blockTime := by
  induction rollups with
  | nil => rfl
  | cons r rollups ih =>
    obtain ⟨hle, hsorted⟩ := List.pairwise_cons.mp hsorted
    rw [rollupBlock, AggregationInterval.head?_buckets, stepInserts]
    by_cases hleaves : r.interval.leavesBucket lastRollup blockTime
    · rw [if_pos hleaves, ih hsorted, stepInserts,
        List.filter_cons_of_pos (by simpa using hleaves)]
      rfl
    · -- no later rollup, whose interval is as long, leaves its bucket either
      have hnone : rollups.filter (fun s => s.interval.leavesBucket lastRollup blockTime) = [] :=
        List.filter_eq_nil_iff.mpr fun s hs hleaves' => hleaves
          (AggregationInterval.leavesBucket_of_rank_le (hle s hs) (of_decide_eq_true hleaves'))
      rw [if_neg hleaves, List.filter_cons_of_neg (by simpa using hleaves), hnone]
      rfl

theorem rollupLoop_eq_rollupSpec (lastRollup : BlockTime)
    (blockTimes : List (BlockNumber × BlockTime)) :
    rollupLoop rollups lastRollup blockTimes = rollupSpec rollups lastRollup blockTimes := by
  induction blockTimes generalizing lastRollup with
  | nil => rfl
  | cons bt blockTimes ih =>
    obtain ⟨block, blockTime⟩ := bt
    rw [rollupLoop, rollupSpec_cons, rollupBlock_eq_stepInserts hsorted, ih]

end Sorted

/-- A rollup starts from the `last_rollup` it is given, or from the least block time. -/
theorem rollup_eq_rollupLoop (rollups : List AggregationMapping)
    {lastRollup : Option BlockTime} {blockTimes : List (BlockNumber × BlockTime)}
    {start : BlockTime} (hstart : lastRollup = some start ∨
      lastRollup = none ∧ (blockTimes.map (·.2)).min? = some start) :
    rollup rollups lastRollup blockTimes = rollupLoop rollups start blockTimes := by
  cases blockTimes with
  | nil => rfl
  | cons bt blockTimes =>
    obtain ⟨block, blockTime⟩ := bt
    rcases hstart with rfl | ⟨rfl, hmin⟩
    · rfl
    · rw [List.map_cons, List.min?_cons', Option.some_inj] at hmin
      rw [rollup, Option.getD_none, hmin]

/-- **What `Layout::rollup` inserts**: at each block, for each rollup of the schema, the
bucket of the time before if the block's time has left it. -/
theorem rollup_eq_rollupSpec (tsTypes : List (Option (List AggregationInterval)))
    {lastRollup : Option BlockTime} {blockTimes : List (BlockNumber × BlockTime)}
    {start : BlockTime} (hstart : lastRollup = some start ∨
      lastRollup = none ∧ (blockTimes.map (·.2)).min? = some start) :
    rollup (aggMappings tsTypes) lastRollup blockTimes =
      rollupSpec (aggMappings tsTypes) start blockTimes := by
  rw [rollup_eq_rollupLoop _ hstart, rollupLoop_eq_rollupSpec (pairwise_rank_aggMappings tsTypes)]

/-! ### Batches one after the other -/

/-- The least of block times in order is the first. -/
theorem foldl_min_of_le {t : BlockTime} {l : List BlockTime} (h : ∀ x ∈ l, t ≤ x) :
    l.foldl min t = t := by
  induction l with
  | nil => rfl
  | cons x l ih =>
    rw [List.foldl_cons, min_eq_left (h x List.mem_cons_self)]
    exact ih fun y hy => h y (List.mem_cons_of_mem x hy)

theorem rollup_some (rollups : List AggregationMapping) (lastRollup : BlockTime)
    (blockTimes : List (BlockNumber × BlockTime)) :
    rollup rollups (some lastRollup) blockTimes = rollupLoop rollups lastRollup blockTimes :=
  rollup_eq_rollupLoop rollups (.inl rfl)

/-- The loop over two batches is the loop over the first, then the loop over the second from
the last time of the first. -/
theorem rollupLoop_append (rollups : List AggregationMapping) (lastRollup : BlockTime)
    (blockTimes blockTimes' : List (BlockNumber × BlockTime)) :
    rollupLoop rollups lastRollup (blockTimes ++ blockTimes') =
      rollupLoop rollups lastRollup blockTimes ++
        rollupLoop rollups ((blockTimes.map (·.2)).getLast?.getD lastRollup) blockTimes' := by
  induction blockTimes generalizing lastRollup with
  | nil => rfl
  | cons bt blockTimes ih =>
    obtain ⟨block, blockTime⟩ := bt
    rw [List.cons_append, rollupLoop, rollupLoop, ih, List.append_assoc, List.map_cons,
      List.getLast?_cons, Option.getD_some]

/-- **Rolling up a batch of block times in order does what rolling up its two parts does**,
the second from the last time of the first. -/
theorem rollup_append (rollups : List AggregationMapping) (lastRollup : Option BlockTime)
    {blockTimes blockTimes' : List (BlockNumber × BlockTime)} (hne : blockTimes ≠ [])
    (hsorted : ((blockTimes ++ blockTimes').map (·.2)).Pairwise (· ≤ ·)) :
    rollup rollups lastRollup (blockTimes ++ blockTimes') =
      rollup rollups lastRollup blockTimes ++
        rollup rollups (blockTimes.map (·.2)).getLast? blockTimes' := by
  obtain ⟨⟨block, blockTime⟩, blockTimes, rfl⟩ := List.exists_cons_of_ne_nil hne
  rw [List.cons_append, List.map_cons, List.pairwise_cons] at hsorted
  -- both rollups of a batch that starts with `blockTime` start from it, if from no given time
  have hfirst : ((blockTimes ++ blockTimes').map (·.2)).foldl min blockTime = blockTime :=
    foldl_min_of_le hsorted.1
  have hfirst' : (blockTimes.map (·.2)).foldl min blockTime = blockTime :=
    foldl_min_of_le fun x hx => hsorted.1 x (by
      rw [List.map_append]
      exact List.mem_append.mpr (.inl hx))
  rw [List.cons_append, rollup, rollup, hfirst, hfirst', ← List.cons_append, rollupLoop_append,
    List.map_cons, List.getLast?_cons, rollup_some, Option.getD_some]

/-! ### No bucket twice -/

/-- Every insert of a rollup from `prev` on, for block times in order from `prev`, is of a
bucket no earlier than that of `prev`. -/
theorem bucket_of_mem_rollupSpec {rollups : List AggregationMapping} {prev : BlockTime}
    {blockTimes : List (BlockNumber × BlockTime)}
    (hsorted : (prev :: blockTimes.map (·.2)).Pairwise (· ≤ ·)) {i : RollupInsert}
    (hi : i ∈ rollupSpec rollups prev blockTimes) :
    ∃ n, prev.bucket i.rollup.interval.asDuration ≤ n ∧
      i.bucket = i.rollup.interval.bucketRange n := by
  induction blockTimes generalizing prev with
  | nil => simp at hi
  | cons bt blockTimes ih =>
    obtain ⟨block, blockTime⟩ := bt
    rw [List.map_cons, List.pairwise_cons] at hsorted
    rw [rollupSpec_cons, List.mem_append] at hi
    rcases hi with hi | hi
    · exact ⟨_, le_rfl, (mem_stepInserts.mp hi).2.2.1⟩
    · obtain ⟨n, hn, hbucket⟩ := ih hsorted.2 hi
      have hle := BlockTime.bucket_le_bucket (hsorted.1 blockTime List.mem_cons_self)
        i.rollup.interval.asDuration
      exact ⟨n, hle.trans hn, hbucket⟩

/-- The inserts at one block are of distinct rollups. -/
theorem pairwise_stepInserts {rollups : List AggregationMapping} (hrollups : rollups.Nodup)
    (prev : BlockTime) (block : BlockNumber) (blockTime : BlockTime) :
    (stepInserts rollups prev block blockTime).Pairwise fun i j => i.rollup ≠ j.rollup :=
  List.pairwise_map.mpr (hrollups.filter _)

/-- **For block times in order, no rollup inserts a bucket twice.** -/
theorem pairwise_rollupSpec {rollups : List AggregationMapping} (hrollups : rollups.Nodup)
    (prev : BlockTime) {blockTimes : List (BlockNumber × BlockTime)}
    (hsorted : (blockTimes.map (·.2)).Pairwise (· ≤ ·)) :
    (rollupSpec rollups prev blockTimes).Pairwise
      fun i j => i.rollup = j.rollup → i.bucket ≠ j.bucket := by
  induction blockTimes generalizing prev with
  | nil => simp
  | cons bt blockTimes ih =>
    obtain ⟨block, blockTime⟩ := bt
    have hsorted : (blockTime :: blockTimes.map (·.2)).Pairwise (· ≤ ·) := hsorted
    have htail := (List.pairwise_cons.mp hsorted).2
    rw [rollupSpec_cons, List.pairwise_append]
    refine ⟨(pairwise_stepInserts hrollups prev block blockTime).imp fun hne heq => ?_,
      ih blockTime htail, fun i hi j hj heq hbucket => ?_⟩
    · exact absurd heq hne
    · -- `i` is of the bucket of `prev`, which `blockTime` has left, and `j` of one no earlier
      -- than the bucket of `blockTime`
      obtain ⟨-, hleaves, hi, -⟩ := mem_stepInserts.mp hi
      obtain ⟨n, hn, hj⟩ := bucket_of_mem_rollupSpec hsorted hj
      rw [hi, hj, heq] at hbucket
      have := AggregationInterval.bucketRange_injective _ hbucket
      unfold AggregationInterval.leavesBucket at hleaves
      rw [heq] at hleaves
      omega

/-- A rollup of a nonempty batch starts from some time. -/
theorem exists_start (lastRollup : Option BlockTime) {blockTimes : List (BlockNumber × BlockTime)}
    (hne : blockTimes ≠ []) :
    ∃ start, lastRollup = some start ∨
      lastRollup = none ∧ (blockTimes.map (·.2)).min? = some start := by
  obtain ⟨⟨block, blockTime⟩, blockTimes, rfl⟩ := List.exists_cons_of_ne_nil hne
  cases lastRollup with
  | some start => exact ⟨start, .inl rfl⟩
  | none => exact ⟨_, .inr ⟨rfl, List.min?_cons'⟩⟩

/-- For block times in order, no rollup of a schema inserts a bucket twice. -/
theorem pairwise_rollup (tsTypes : List (Option (List AggregationInterval)))
    (lastRollup : Option BlockTime) {blockTimes : List (BlockNumber × BlockTime)}
    (hsorted : (blockTimes.map (·.2)).Pairwise (· ≤ ·)) :
    (rollup (aggMappings tsTypes) lastRollup blockTimes).Pairwise
      fun i j => i.rollup = j.rollup → i.bucket ≠ j.bucket := by
  by_cases hne : blockTimes = []
  · subst hne
    simp [rollup]
  · obtain ⟨start, hstart⟩ := exists_start lastRollup hne
    rw [rollup_eq_rollupSpec tsTypes hstart]
    exact pairwise_rollupSpec (nodup_aggMappings tsTypes) start hsorted

end Layout

/-! ### Before the epoch -/

/-- **A time before the epoch is in the bucket of the epoch.** Two hours before the epoch and a
minute after it are in different hours, yet rolling up an hourly aggregation from the one to
the other inserts nothing: `BlockTime::bucket` numbers both `0`. -/
theorem rollup_before_epoch :
    (-7200000 : Int) / AggregationInterval.hour.asDuration <
      60000 / AggregationInterval.hour.asDuration ∧
    Layout.rollup (aggMappings [some [.hour]]) (some (-7200000)) [(1, 60000)] = [] := by
  have hmappings : aggMappings [some [.hour]] = [⟨.hour, 0, 0⟩] := by
    simp [aggMappings, aggregationMappings]
  refine ⟨by decide, ?_⟩
  rw [hmappings, Layout.rollup_some]
  decide

/-- **What `Layout::rollup` inserts, for the rollups of any schema.** At each block and for
each rollup, the bucket that `BlockTime::bucket` gives the time before (`last_rollup`, or the
least block time, at the first block), if the block's time is in a later one; from the epoch
on, that bucket is the one the time falls in. For block times in order, rolling up a batch
inserts what rolling up its two parts one after the other does, the second from the last time
of the first, and no rollup inserts a bucket twice. -/
theorem rollup_fills_buckets (tsTypes : List (Option (List AggregationInterval))) :
    let rollups := aggMappings tsTypes
    (∀ (lastRollup : Option BlockTime) (blockTimes : List (BlockNumber × BlockTime)) start,
      (lastRollup = some start ∨ lastRollup = none ∧ (blockTimes.map (·.2)).min? = some start) →
      Layout.rollup rollups lastRollup blockTimes = Layout.rollupSpec rollups start blockTimes) ∧
    (∀ (I : AggregationInterval) (t : BlockTime), 0 ≤ t →
      (I.bucketRange (t.bucket I.asDuration)).1 ≤ t ∧
        t < (I.bucketRange (t.bucket I.asDuration)).2) ∧
    (∀ (lastRollup : Option BlockTime) (blockTimes blockTimes' : List (BlockNumber × BlockTime)),
      blockTimes ≠ [] → ((blockTimes ++ blockTimes').map (·.2)).Pairwise (· ≤ ·) →
      Layout.rollup rollups lastRollup (blockTimes ++ blockTimes') =
        Layout.rollup rollups lastRollup blockTimes ++
          Layout.rollup rollups (blockTimes.map (·.2)).getLast? blockTimes') ∧
    (∀ (lastRollup : Option BlockTime) (blockTimes : List (BlockNumber × BlockTime)),
      (blockTimes.map (·.2)).Pairwise (· ≤ ·) →
      (Layout.rollup rollups lastRollup blockTimes).Pairwise
        fun i j => i.rollup = j.rollup → i.bucket ≠ j.bucket) :=
  ⟨fun _ _ _ hstart => Layout.rollup_eq_rollupSpec tsTypes hstart,
    fun I _ h => I.mem_bucketRange_bucket h,
    fun lastRollup _ _ hne hsorted => Layout.rollup_append _ lastRollup hne hsorted,
    fun lastRollup _ hsorted => Layout.pairwise_rollup tsTypes lastRollup hsorted⟩

/-- An hour and a day aggregation, rolled up over block times at the epoch and an hour after
it, in one batch and in two. -/
theorem rollup_fills_buckets_two_batches :
    let rollups := aggMappings [some [.hour, .day]]
    let first : List (BlockNumber × BlockTime) := [(1, 0)]
    let second : List (BlockNumber × BlockTime) := [(2, 3600000)]
    first ≠ [] ∧ ((first ++ second).map (·.2)).Pairwise (· ≤ ·) ∧
      Layout.rollup rollups none (first ++ second) =
        Layout.rollup rollups none first ++ Layout.rollup rollups (some 0) second :=
  ⟨by decide, by decide,
    (rollup_fills_buckets [some [.hour, .day]]).2.2.1 none [(1, 0)] [(2, 3600000)] (by decide)
      (by decide)⟩

end GraphNode
