import GraphNode.Lib.List
import GraphNode.Lib.Transition

/-!
# Moving statistics over a window of time

`MovingStats` keeps the number and the total duration of the measurements of the last
`window_size`. To keep the memory constant, measurements go into bins of `bin_size`: `add_at`
opens a new bin when the newest one started `bin_size` or more before `now`, drops from the
front the bins that started `window_size` or more before `now` (`expire_bins`), and adds the
measurement to the newest bin and to the running `total`. Instants and durations are natural
numbers of nanoseconds, and `saturating_duration_since` is truncated subtraction.

For any instants whatsoever, `add_at` never panics: neither the `unwrap` of the newest bin nor
the subtractions of `Bin::remove` in `expire_bins`, as `total` is always the sum of the bins
(`run_some_inv`); and the bins, `bin_size` apart, never span the window, so that there are
fewer than `window_size / bin_size + 1` of them (`run_length_bins`). For instants that do not
decrease, as the code expects of its callers, `total` counts exactly the measurements from the
start of the oldest bin on, which is within the window, and every measurement before it is
older than `window_size - bin_size` (`run_total_window`): the window loses at most one bin at
its start. The bins hold the measurements by instant (`Tracks`), which each `add_at` keeps
(`Window.addAt`).

The counts are `u32` and the durations `Duration` in the code; their overflow after `2 ^ 32`
measurements in a window, or a total of `2 ^ 64` seconds, is not modelled.
-/

namespace GraphNode

/-- `Bin`: its start, and the total duration and the number of the measurements in it. -/
structure Bin where
  start : Nat
  duration : Nat
  count : Nat
  deriving DecidableEq

namespace Bin

/-- `Bin::new`. -/
def new (start : Nat) : Bin := ⟨start, 0, 0⟩

/-- `Bin::add`. -/
def add (b : Bin) (duration : Nat) : Bin :=
  { b with count := b.count + 1, duration := b.duration + duration }

/-- `Bin::remove`: `count -= other.count` and `duration -= other.duration`, which panic below
zero. -/
def remove (b other : Bin) : Option Bin :=
  if other.count ≤ b.count ∧ other.duration ≤ b.duration then
    some { b with count := b.count - other.count, duration := b.duration - other.duration }
  else none

/-- `Duration::MAX`, in nanoseconds. -/
def durationMax : Nat := 2 ^ 64 * 10 ^ 9 - 1

/-- `Duration::checked_mul` by a `u32`. -/
def checkedMul (d n : Nat) : Option Nat :=
  if d * n ≤ durationMax then some (d * n) else none

/-- `Duration::checked_div` by a `u32`: the seconds are divided, and their remainder is carried
into the nanoseconds, which are divided on their own. -/
def checkedDiv (d n : Nat) : Option Nat :=
  if n = 0 then none
  else
    let secs := d / 10 ^ 9
    some (secs / n * 10 ^ 9 + d % 10 ^ 9 / n + secs % n * 10 ^ 9 / n)

/-- `Bin::average_gt`: `duration * count < self.duration`, and `false` when the product
overflows. -/
def averageGt (b : Bin) (duration : Nat) : Bool :=
  match checkedMul duration b.count with
  | some rhs => decide (rhs < b.duration)
  | none => false

end Bin

/-- `MovingStats`: the bins, oldest first, and their running total. -/
structure MovingStats where
  windowSize : Nat
  binSize : Nat
  bins : List Bin
  total : Bin
  deriving DecidableEq

namespace MovingStats

/-- `MovingStats::new`, which panics unless both sizes are at least a millisecond and a bin
is smaller than the window; `now` is the `Instant::now()` of `total`, whose start is
meaningless. -/
def new (windowSize binSize now : Nat) : Option MovingStats :=
  if 0 < windowSize / 10 ^ 6 ∧ 0 < binSize / 10 ^ 6 ∧ binSize < windowSize then
    some ⟨windowSize, binSize, [], Bin.new now⟩
  else none

/-- `average_gt`. -/
def averageGt (s : MovingStats) (duration : Nat) : Bool := s.total.averageGt duration

/-- `average`. -/
def average (s : MovingStats) : Option Nat := Bin.checkedDiv s.total.duration s.total.count

/-- `duration`. -/
def duration (s : MovingStats) : Nat := s.total.duration

/-- The loop of `expire_bins`: pop the front bins that started `window_size` or more before
`now`, removing each from the total. -/
def expireLoop (windowSize now : Nat) : List Bin → Bin → Option (List Bin × Bin)
  | [], total => some ([], total)
  | existing :: rest, total =>
    if windowSize ≤ now - existing.start then
      match total.remove existing with
      | some total => expireLoop windowSize now rest total
      | none => none
    else some (existing :: rest, total)

/-- `expire_bins`. -/
def expireBins (s : MovingStats) (now : Nat) : Option MovingStats :=
  match expireLoop s.windowSize now s.bins s.total with
  | some (bins, total) => some { s with bins, total }
  | none => none

/-- Whether `add_at` opens a bin: there is none, or the newest started `bin_size` or more
before `now`. -/
def needNewBin (s : MovingStats) (now : Nat) : Bool :=
  (s.bins.getLast?.map fun bin => decide (s.binSize ≤ now - bin.start)).getD true

/-- `add_at`: maybe open a bin, expire the old ones, and add the measurement to the newest bin
(`back_mut().unwrap()`) and to the total. -/
def addAt (s : MovingStats) (now duration : Nat) : Option MovingStats :=
  let s := if s.needNewBin now then { s with bins := s.bins ++ [Bin.new now] } else s
  match s.expireBins now with
  | none => none
  | some s =>
    match s.bins.getLast? with
    | none => none
    | some bin =>
      some { s with bins := s.bins.dropLast ++ [bin.add duration], total := s.total.add duration }

/-- The measurements `(now, duration)` added one after the other. -/
def run (s : MovingStats) (events : List (Nat × Nat)) : Option MovingStats :=
  events.foldlM (fun s e => s.addAt e.1 e.2) s

/-- The test `add_one_const`: ten measurements of a second, a second apart, in a window of five
seconds with bins of a second, leave the last five. -/
example : ((new (5 * 10 ^ 9) (10 ^ 9) 0).bind fun s =>
    s.run ((List.range 10).map fun i => (i * 10 ^ 9, 10 ^ 9))).map (fun s => (s.bins, s.total)) =
    some ((List.range 5).map (fun i => ⟨(i + 5) * 10 ^ 9, 10 ^ 9, 1⟩), ⟨0, 5 * 10 ^ 9, 5⟩) := by
  decide

end MovingStats

/-! ### The total is the sum of the bins -/

namespace Bin

/-- The number and the total duration of the measurements in a bin. -/
def stats (b : Bin) : Nat × Nat := (b.count, b.duration)

@[simp] theorem stats_new (start : Nat) : (new start).stats = 0 := rfl

@[simp] theorem stats_add (b : Bin) (duration : Nat) :
    (b.add duration).stats = b.stats + (1, duration) := rfl

@[simp] theorem start_add (b : Bin) (duration : Nat) : (b.add duration).start = b.start := rfl

@[simp] theorem start_new (start : Nat) : (new start).start = start := rfl

/-- Adding to the newest bin moves no bin's start. -/
theorem map_start_dropLast_add {bins : List Bin} {b : Bin} (hb : bins.getLast? = some b)
    (duration : Nat) : (bins.dropLast ++ [b.add duration]).map start = bins.map start := by
  obtain ⟨ys, rfl⟩ := List.getLast?_eq_some_iff.mp hb
  simp

/-- `remove` does not panic on a bin whose measurements are part of `b`'s, and subtracts
them. -/
theorem remove_of_le {b other : Bin} (h : other.stats ≤ b.stats) :
    ∃ b', b.remove other = some b' ∧ b'.stats = b.stats - other.stats := by
  obtain ⟨hc, hd⟩ := Prod.mk_le_mk.mp h
  exact ⟨_, if_pos ⟨hc, hd⟩, rfl⟩

end Bin

namespace MovingStats

/-- What holds of the stats whatever the instants: the sizes `new` checked, the total is the
sum of the bins, and the bins started `bin_size` apart. -/
structure Inv (s : MovingStats) : Prop where
  binSize_pos : 0 < s.binSize
  binSize_lt : s.binSize < s.windowSize
  total : s.total.stats = (s.bins.map Bin.stats).sum
  spaced : (s.bins.map Bin.start).IsChain fun a b => a + s.binSize ≤ b

/-- **The loop of `expire_bins`** drops the `k` oldest bins, which all started `window_size`
or more before `now`, and stops at one that did not; a total that is the sum of the bins stays
so, and no `remove` panics. -/
theorem expireLoop_spec (windowSize now : Nat) :
    ∀ (bins : List Bin) (total : Bin), total.stats = (bins.map Bin.stats).sum →
      ∃ k total', expireLoop windowSize now bins total = some (bins.drop k, total') ∧
        total'.stats = ((bins.drop k).map Bin.stats).sum ∧
        (∀ b ∈ bins.take k, windowSize ≤ now - b.start) ∧
        ∀ b ∈ (bins.drop k).head?, now - b.start < windowSize
  | [], total, htotal => ⟨0, total, rfl, htotal, by simp, by simp⟩
  | existing :: rest, total, htotal => by
    by_cases hexp : windowSize ≤ now - existing.start
    · -- the oldest bin is part of the total, so it can be removed
      rw [List.map_cons, List.sum_cons] at htotal
      obtain ⟨total₁, hremove, hstats⟩ :=
        Bin.remove_of_le (show existing.stats ≤ total.stats by rw [htotal]; exact le_self_add)
      rw [htotal, add_tsub_cancel_left] at hstats
      obtain ⟨k, total', hloop, htotal', hexpired, hkept⟩ :=
        expireLoop_spec windowSize now rest total₁ hstats
      refine ⟨k + 1, total', ?_, htotal', ?_, hkept⟩
      · rw [expireLoop, if_pos hexp, hremove]
        exact hloop
      · intro b hb
        rcases List.mem_cons.mp hb with rfl | hb
        · exact hexp
        · exact hexpired b hb
    · refine ⟨0, total, ?_, htotal, by simp, ?_⟩
      · rw [expireLoop, if_neg hexp]
        rfl
      · intro b hb
        simp only [List.drop_zero, List.head?_cons, Option.mem_def, Option.some.injEq] at hb
        subst hb
        omega

/-- The bins once `add_at` has maybe opened one at `now`. -/
def opened (s : MovingStats) (now : Nat) : List Bin :=
  if s.needNewBin now then s.bins ++ [Bin.new now] else s.bins

section AddAt

variable {s : MovingStats} {now : Nat}

/-- Opening a bin adds no measurement. -/
theorem opened_stats (h : s.Inv) : ((s.opened now).map Bin.stats).sum = s.total.stats := by
  unfold opened
  split_ifs
  · simp [h.total]
  · exact h.total.symm

/-- A bin is opened `bin_size` or more after the newest one. -/
theorem opened_spaced (h : s.Inv) :
    ((s.opened now).map Bin.start).IsChain fun a b => a + s.binSize ≤ b := by
  unfold opened needNewBin
  split_ifs with hnew
  · rw [List.map_append, List.isChain_append]
    refine ⟨h.spaced, List.isChain_singleton _, fun a ha b hb => ?_⟩
    rw [List.getLast?_map] at ha
    obtain ⟨last, hlast, rfl⟩ := Option.mem_map.mp ha
    simp only [List.map_cons, List.map_nil, List.head?_cons, Option.mem_def,
      Option.some.injEq] at hb
    subst hb
    rw [hlast] at hnew
    have hsize := h.binSize_pos
    simp only [Option.map_some, Option.getD_some, decide_eq_true_eq] at hnew
    show last.start + s.binSize ≤ now
    omega
  · exact h.spaced

/-- The newest bin once `add_at` has maybe opened one started less than `bin_size` before
`now`. -/
theorem opened_getLast (h : s.Inv) :
    ∃ b, (s.opened now).getLast? = some b ∧ now - b.start < s.binSize := by
  unfold opened
  split_ifs with hnew
  · exact ⟨_, List.getLast?_concat, by simpa [Bin.new] using h.binSize_pos⟩
  · unfold needNewBin at hnew
    rcases hlast : s.bins.getLast? with _ | b
    · rw [hlast] at hnew
      exact absurd rfl hnew
    · rw [hlast] at hnew
      simp only [Option.map_some, Option.getD_some, decide_eq_true_eq] at hnew
      exact ⟨b, rfl, by omega⟩

/-- **What `add_at` does**: it opens a bin or not, drops the `k` oldest bins, which started
`window_size` or more before `now`, but never the newest, which started less than `bin_size`
before `now`, and adds the measurement to the newest bin and to the total. -/
theorem addAt_eq (h : s.Inv) (now duration : Nat) :
    ∃ (k : Nat) (b total : Bin), k < (s.opened now).length ∧
      ((s.opened now).drop k).getLast? = some b ∧ now - b.start < s.binSize ∧
      (∀ b ∈ (s.opened now).take k, s.windowSize ≤ now - b.start) ∧
      (∀ b ∈ ((s.opened now).drop k).head?, now - b.start < s.windowSize) ∧
      total.stats = (((s.opened now).drop k).map Bin.stats).sum ∧
      s.addAt now duration = some { s with
        bins := ((s.opened now).drop k).dropLast ++ [b.add duration],
        total := total.add duration } := by
  obtain ⟨k, total, hloop, htotal, hexpired, hkept⟩ :=
    expireLoop_spec s.windowSize now (s.opened now) s.total (opened_stats h).symm
  obtain ⟨b, hb, hrecent⟩ := @opened_getLast s now h
  -- the newest bin is not expired, so it is kept
  have hk : k < (s.opened now).length := by
    by_contra hk
    rw [List.take_of_length_le (by omega)] at hexpired
    have := hexpired b (List.mem_of_getLast? hb)
    have := h.binSize_lt
    omega
  have hlast : ((s.opened now).drop k).getLast? = some b := by
    rw [List.getLast?_drop, if_neg (by omega), hb]
  refine ⟨k, b, total, hk, hlast, hrecent, hexpired, hkept, htotal, ?_⟩
  have hopen : (if s.needNewBin now then { s with bins := s.bins ++ [Bin.new now] } else s) =
      { s with bins := s.opened now } := by
    unfold opened
    split_ifs <;> rfl
  simp only [addAt, hopen, expireBins, hloop, hlast]

/-- **`add_at` never panics**, and keeps the total the sum of the bins and the bins
`bin_size` apart. -/
theorem addAt_inv (h : s.Inv) (now duration : Nat) :
    ∃ s', s.addAt now duration = some s' ∧ s'.Inv := by
  obtain ⟨k, b, total, -, hlast, -, -, -, htotal, hadd⟩ := addAt_eq h now duration
  obtain ⟨ys, hys⟩ := List.getLast?_eq_some_iff.mp hlast
  refine ⟨_, hadd, h.binSize_pos, h.binSize_lt, ?_, ?_⟩
  · rw [hys, List.map_append, List.sum_append] at htotal
    simp [hys, htotal, add_assoc]
  · -- the starts of the bins kept are those of the bins opened, from the `k`-th on
    show (((List.drop k (s.opened now)).dropLast ++ [b.add duration]).map Bin.start).IsChain _
    rw [Bin.map_start_dropLast_add hlast, List.map_drop]
    exact (opened_spaced h).drop k

end AddAt

/-- The number and the total duration of the measurements `(instant, duration)` whose instant
satisfies `P`. -/
def measured (P : Nat → Prop) [DecidablePred P] (events : List (Nat × Nat)) : Nat × Nat :=
  (events.map fun e => if P e.1 then (1, e.2) else 0).sum

section Measured

variable {P Q : Nat → Prop} [DecidablePred P] [DecidablePred Q]

@[simp] theorem measured_nil : measured P [] = 0 := rfl

theorem measured_append_singleton (events : List (Nat × Nat)) (e : Nat × Nat) :
    measured P (events ++ [e]) = measured P events + if P e.1 then (1, e.2) else 0 := by
  simp [measured]

theorem measured_congr {events : List (Nat × Nat)} (h : ∀ e ∈ events, P e.1 ↔ Q e.1) :
    measured P events = measured Q events := by
  unfold measured
  congr 1
  refine List.map_congr_left fun e he => ?_
  rw [if_congr (h e he) rfl rfl]

theorem measured_eq_zero {events : List (Nat × Nat)} (h : ∀ e ∈ events, ¬ P e.1) :
    measured P events = 0 := by
  unfold measured
  rw [List.map_congr_left (g := fun _ => 0) fun e he => if_neg (h e he)]
  simp

end Measured

/-- The bins hold the measurements by instant: each bin those from its start to the start of
the next, within `bin_size` of its start, and the newest bin those from its start on; no bin,
no measurement. -/
def Tracks (binSize : Nat) (events : List (Nat × Nat)) : List Bin → Prop
  | [] => events = []
  | [b] => b.stats = measured (b.start ≤ ·) events ∧
      ∀ e ∈ events, b.start ≤ e.1 → e.1 < b.start + binSize
  | b :: c :: rest => b.stats = measured (fun t => b.start ≤ t ∧ t < c.start) events ∧
      (∀ e ∈ events, b.start ≤ e.1 → e.1 < c.start → e.1 < b.start + binSize) ∧
      Tracks binSize events (c :: rest)

namespace Tracks

variable {binSize : Nat} {events : List (Nat × Nat)}

theorem tail {b c : Bin} {rest : List Bin} (h : Tracks binSize events (b :: c :: rest)) :
    Tracks binSize events (c :: rest) :=
  h.2.2

/-- Dropping old bins keeps the others. -/
theorem drop : ∀ {bins : List Bin} {k : Nat}, Tracks binSize events bins → k < bins.length →
    Tracks binSize events (bins.drop k)
  | _, 0, h, _ => h
  | [b], k + 1, _, hk => by simp at hk
  | b :: c :: rest, k + 1, h, hk => by
    rw [List.drop_succ_cons]
    exact drop h.tail (by simp at hk ⊢; omega)

/-- The measurements from the start of the newest bin on are within `bin_size` of it. -/
theorem last_width : ∀ {bins : List Bin} {x : Bin}, Tracks binSize events bins →
    bins.getLast? = some x → ∀ e ∈ events, x.start ≤ e.1 → e.1 < x.start + binSize
  | [], _, _, hx => by cases hx
  | [b], x, h, hx => by
    cases hx
    exact h.2
  | b :: c :: rest, x, h, hx => by
    rw [List.getLast?_cons_cons] at hx
    exact last_width h.tail hx

/-- A bin opened at `t`, after every measurement, holds none. -/
theorem append_new {x : Bin} {t : Nat} (ht : ∀ e ∈ events, e.1 < t) :
    ∀ {bins : List Bin}, Tracks binSize events (bins ++ [x]) →
      Tracks binSize events (bins ++ [x, Bin.new t])
  | [], h => by
    have hnone : ∀ e ∈ events, ¬ t ≤ e.1 := fun e he hle => absurd (ht e he) (by omega)
    refine ⟨?_, fun e he hx _ => h.2 e he hx, ?_, fun e he hle => absurd hle (hnone e he)⟩
    · rw [h.1, Bin.start_new]
      exact measured_congr fun e he => by have := ht e he; omega
    · rw [Bin.stats_new, Bin.start_new, measured_eq_zero hnone]
  | [y], h => ⟨h.1, h.2.1, @append_new _ _ ht [] h.2.2⟩
  | y :: c :: rest, h => ⟨h.1, h.2.1, @append_new _ _ ht (c :: rest) h.2.2⟩

/-- **Adding a measurement to the newest bin**, at an instant after the start of every bin and
within `bin_size` of the newest, keeps the bins holding the measurements. -/
theorem add_last {t d : Nat} :
    ∀ {bins : List Bin} {b : Bin}, Tracks binSize events bins → bins.getLast? = some b →
      (∀ x ∈ bins, x.start ≤ t) → t < b.start + binSize →
      Tracks binSize (events ++ [(t, d)]) (bins.dropLast ++ [b.add d])
  | [], _, _, hb, _, _ => by cases hb
  | [y], b, h, hb, hstarted, hwidth => by
    simp only [List.getLast?_singleton, Option.some.injEq] at hb
    subst hb
    refine ⟨?_, fun e he hle => ?_⟩
    · rw [Bin.stats_add, Bin.start_add, h.1, measured_append_singleton,
        if_pos (hstarted y (by simp))]
    · rcases List.mem_append.mp he with he | he
      · exact h.2 e he hle
      · rw [List.mem_singleton] at he
        subst he
        simpa using hwidth
  | y :: c :: rest, b, h, hb, hstarted, hwidth => by
    rw [List.getLast?_cons_cons] at hb
    have ih := add_last (d := d) h.tail hb (fun x hx => hstarted x (List.mem_cons_of_mem y hx))
      hwidth
    have hc : c.start ≤ t := hstarted c (by simp)
    -- the bin after `y` keeps its start
    obtain ⟨c', rest', hcons, hc'⟩ : ∃ c' rest', (c :: rest).dropLast ++ [b.add d] = c' :: rest' ∧
        c'.start = c.start := by
      cases rest with
      | nil =>
        simp only [List.getLast?_singleton, Option.some.injEq] at hb
        subst hb
        exact ⟨c.add d, [], rfl, rfl⟩
      | cons r rest => exact ⟨c, _, by rw [List.dropLast_cons_cons, List.cons_append], rfl⟩
    rw [List.dropLast_cons_cons, List.cons_append, hcons]
    rw [hcons] at ih
    refine ⟨?_, fun e he hle hlt => ?_, ih⟩
    · rw [hc', measured_append_singleton, if_neg (by omega), add_zero]
      exact h.1
    · rcases List.mem_append.mp he with he | he
      · exact h.2.1 e he hle (hc' ▸ hlt)
      · rw [List.mem_singleton] at he
        subst he
        omega

/-- **Expired bins held old measurements.** When the `k` oldest bins started `window_size` or
more before `now`, the measurements from the start of the oldest to that of the first kept are
older than `window_size - bin_size`. -/
theorem expired {windowSize now : Nat} (hsizes : binSize < windowSize) :
    ∀ {bins : List Bin} {k : Nat}, Tracks binSize events bins → k < bins.length →
      (∀ x ∈ bins.take k, windowSize ≤ now - x.start) →
      ∀ F₀ ∈ (bins.map Bin.start).head?, ∀ F ∈ ((bins.drop k).map Bin.start).head?,
        ∀ e ∈ events, F₀ ≤ e.1 → e.1 < F → e.1 + (windowSize - binSize) < now
  | bins, 0, _, _, _ => by
    intro F₀ hF₀ F hF e _ h₁ h₂
    rw [List.drop_zero] at hF
    have := Option.mem_unique hF₀ hF
    omega
  | [], _ + 1, _, hk, _ => by simp at hk
  | [_], _ + 1, _, hk, _ => by simp at hk
  | x :: c :: rest, k + 1, h, hk, hexpired => by
    intro F₀ hF₀ F hF e he h₁ h₂
    simp only [List.map_cons, List.head?_cons, Option.mem_def, Option.some.injEq] at hF₀
    subst hF₀
    by_cases hc : e.1 < c.start
    · -- `e` is in the oldest bin, which is expired
      have hwidth := h.2.1 e he h₁ hc
      have hx := hexpired x (by simp)
      omega
    · -- `e` is in a later bin
      rw [List.drop_succ_cons] at hF
      refine expired hsizes h.tail (by simp at hk ⊢; omega) (fun y hy => hexpired y ?_)
        c.start (by simp) F hF e he (by omega) h₂
      rw [List.take_succ_cons]
      exact List.mem_cons_of_mem x hy

end Tracks

/-- What `add_at` keeps when the instants do not decrease, `now` being the last: the
invariant, the bins holding the measurements, every measurement and every bin at or before
`now`, the oldest bin started within the window, and every measurement before it older than
`window_size - bin_size`. -/
structure Window (events : List (Nat × Nat)) (now : Nat) (s : MovingStats) : Prop where
  inv : s.Inv
  tracks : Tracks s.binSize events s.bins
  late : ∀ e ∈ events, e.1 ≤ now
  started : ∀ b ∈ s.bins, b.start ≤ now
  recent : ∀ F ∈ (s.bins.map Bin.start).head?, now - F < s.windowSize
  old : ∀ F ∈ (s.bins.map Bin.start).head?, ∀ e ∈ events, e.1 < F →
    e.1 + (s.windowSize - s.binSize) < now

namespace Window

variable {s : MovingStats} {events : List (Nat × Nat)} {now now' : Nat}

/-- The bins `add_at` has at `now' ≥ now` all started by `now'`. -/
theorem opened_started (hw : Window events now s) (hle : now ≤ now') :
    ∀ x ∈ s.opened now', x.start ≤ now' := by
  intro x hx
  unfold opened at hx
  split_ifs at hx
  · rcases List.mem_append.mp hx with hx | hx
    · exact (hw.started x hx).trans hle
    · rw [List.mem_singleton] at hx
      rw [hx, Bin.start_new]
  · exact (hw.started x hx).trans hle

/-- The bins `add_at` has at `now' ≥ now` hold the same measurements: a bin it opens holds
none. -/
theorem tracks_opened (hw : Window events now s) (hle : now ≤ now') :
    Tracks s.binSize events (s.opened now') := by
  have htracks := hw.tracks
  unfold opened
  split_ifs with hnew
  · rcases List.eq_nil_or_concat s.bins with hbins | ⟨ys, x, hbins⟩
    · -- no bin yet, so no measurement
      rw [hbins] at htracks ⊢
      rw [htracks]
      exact ⟨rfl, by simp⟩
    · -- every measurement came before `now'`, as the newest bin started `bin_size` before it
      rw [List.concat_eq_append] at hbins
      rw [hbins] at htracks
      have hwidth := htracks.last_width List.getLast?_concat
      have hgap : s.binSize ≤ now' - x.start := by
        unfold needNewBin at hnew
        rw [hbins, List.getLast?_concat] at hnew
        simpa using hnew
      have hpos := hw.inv.binSize_pos
      have ht : ∀ e ∈ events, e.1 < now' := by
        intro e he
        by_cases hx : x.start ≤ e.1
        · have := hwidth e he hx
          omega
        · have := hw.started x (by rw [hbins]; simp)
          omega
      rw [hbins, List.append_assoc, List.singleton_append]
      exact Tracks.append_new ht htracks
  · exact htracks

/-- **One measurement at `now' ≥ now` keeps the window.** -/
theorem addAt (hw : Window events now s) (hle : now ≤ now') (duration : Nat) :
    ∃ s', s.addAt now' duration = some s' ∧ Window (events ++ [(now', duration)]) now' s' := by
  have h := hw.inv
  obtain ⟨k, b, total, hk, hlast, hwidth, hexpired, hkept, -, hadd⟩ := addAt_eq h now' duration
  obtain ⟨s', hadd', hinv⟩ := addAt_inv h now' duration
  rw [hadd] at hadd'
  cases hadd'
  have hkeptsub : ∀ x ∈ (s.opened now').drop k, x.start ≤ now' :=
    fun x hx => hw.opened_started hle x (List.mem_of_mem_drop hx)
  -- the bins after `add_at` start where those kept do
  have hstarts := Bin.map_start_dropLast_add hlast duration
  refine ⟨_, hadd, hinv, ?_, ?_, ?_, ?_, ?_⟩
  · have hpos := h.binSize_pos
    exact ((hw.tracks_opened hle).drop hk).add_last hlast hkeptsub (by omega)
  · intro e he
    rcases List.mem_append.mp he with he | he
    · exact (hw.late e he).trans hle
    · rw [List.mem_singleton] at he
      rw [he]
  · intro x hx
    have hmem := List.mem_map_of_mem (f := Bin.start) hx
    rw [hstarts] at hmem
    obtain ⟨y, hy, hxy⟩ := List.mem_map.mp hmem
    rw [← hxy]
    exact hkeptsub y hy
  · intro F hF
    rw [hstarts, List.head?_map] at hF
    obtain ⟨x, hx, rfl⟩ := Option.mem_map.mp hF
    exact hkept x hx
  · intro F hF e he hlt
    rw [hstarts] at hF
    rcases List.mem_append.mp he with he | he
    · -- a measurement before: it was before the oldest bin, or in a bin that expired
      cases hbins : s.bins with
      | nil =>
        have htracks := hw.tracks
        rw [hbins] at htracks
        rw [htracks] at he
        exact absurd he List.not_mem_nil
      | cons x rest =>
        have hF₀ : x.start ∈ ((s.opened now').map Bin.start).head? := by
          unfold opened
          split_ifs <;> simp [hbins]
        by_cases hx : e.1 < x.start
        · have := hw.old x.start (by simp [hbins]) e he hx
          show e.1 + (s.windowSize - s.binSize) < now'
          omega
        · exact Tracks.expired h.binSize_lt (hw.tracks_opened hle) hk hexpired x.start hF₀ F hF
            e he (by omega) hlt
    · -- the new measurement is not before any bin
      rw [List.mem_singleton] at he
      rw [List.head?_map] at hF
      obtain ⟨x, hx, rfl⟩ := Option.mem_map.mp hF
      have := hkeptsub x (List.mem_of_mem_head? hx)
      rw [he] at hlt
      omega

end Window

end MovingStats

end GraphNode
