import GraphNode.Amp.RecordBatch

/-!
# The stream aggregator

`StreamAggregator` reads record batches from several streams and yields them grouped by
block, in block order across the streams. Each call of `poll_next` makes one pass over the
streams (`poll_all_streams`). It polls every stream that has not ended and has room in its
buffer, and buffers what the stream yields; then, if anything changed, it yields the groups
the buffer has completed. Once every stream has ended it sets `is_finalized`, and from then
on `poll_next` answers `Ready(None)`.

A stream is modelled as the record batches it has still to yield. Whether a polled stream
is ready is the choice of a scheduler (`ready`), one per pass: a ready stream yields its next
batch, or `None` once it has none left. The waker the code re-arms after a pass that made no
output is not modelled, since the scheduler is arbitrary anyway.

**Rows are lost when the streams end together** (`run_loses_rows`). The pass in which the
last stream ends sets `is_finalized` before it yields the groups completed in that pass.
Those reach only up to the least of the streams' last blocks, and the next call answers
`Ready(None)`. The rows of the later blocks of the other streams stay in their buffers and
are never yielded.
-/

namespace GraphNode.Amp

/-- `std::task::Poll`. -/
inductive Poll (α : Type) where
  | ready (value : α)
  | pending
  deriving Repr

/-- The errors the stream aggregator yields. -/
inductive Error where
  /-- `Error::Buffer` with "buffer is blocked" -/
  | bufferBlocked (streamIndex : Nat)
  /-- `Error::Buffer` with the error of `Buffer::extend` -/
  | buffer (streamIndex : Nat) (source : AggregatorError)
  /-- `Error::Aggregation` -/
  | aggregation (source : AggregatorError)
  deriving DecidableEq, Repr

/-- What `poll_next` returns: `Poll<Option<Result<RecordBatchGroups, Error>>>`. -/
abbrev Item := Poll (Option (Except Error RecordBatchGroups))

/-- `StreamAggregator`. -/
structure StreamAggregator where
  /-- The record batches each stream has still to yield. -/
  namedStreams : List (List RecordBatch)
  buffer : Buffer
  isFinalized : Bool
  isFailed : Bool

namespace StreamAggregator

/-- `StreamAggregator::new`. -/
def new (namedStreams : List (List RecordBatch)) (bufferSize : Nat) : StreamAggregator :=
  ⟨namedStreams, Buffer.new namedStreams.length bufferSize, false, false⟩

/-- One turn of the loop of `poll_all_streams`, at the stream `streamIndex`, ready or not as
the scheduler decides: the new state and whether it made progress, or the error the pass
returns. -/
def pollStream (self : StreamAggregator) (streamIndex : Nat) (ready : Bool) :
    Except Error (StreamAggregator × Bool) :=
  if self.buffer.isFinalized streamIndex then .ok (self, false)
  else if self.buffer.isBlocked streamIndex then .error (.bufferBlocked streamIndex)
  else if !self.buffer.hasCapacity streamIndex then .ok (self, false)
  -- `Poll::Pending`
  else if !ready then .ok (self, false)
  else match self.namedStreams.getD streamIndex [] with
    | recordBatch :: rest =>
      let self := { self with namedStreams := self.namedStreams.set streamIndex rest }
      if recordBatch.length ≠ 0 then
        match self.buffer.extend streamIndex recordBatch with
        | .ok buffer => .ok ({ self with buffer }, true)
        | .error e => .error (.buffer streamIndex e)
      -- an empty record batch
      else .ok (self, false)
    -- `Poll::Ready(None)`: the stream has ended
    | [] =>
      let buffer := self.buffer.finalize streamIndex
      .ok ({ self with buffer, isFinalized := buffer.allFinalized || self.isFinalized }, true)

/-- The loop of `poll_all_streams` over the streams in `streamIndices`, with
`made_progress`; an error stops it and sets `is_failed`. -/
def pollStreams (ready : Nat → Bool) :
    List Nat → StreamAggregator → Bool → Except (Error × StreamAggregator) (StreamAggregator × Bool)
  | [], self, madeProgress => .ok (self, madeProgress)
  | streamIndex :: streamIndices, self, madeProgress =>
    match self.pollStream streamIndex (ready streamIndex) with
    | .error e => .error (e, { self with isFailed := true })
    | .ok (self, progress) => pollStreams ready streamIndices self (madeProgress || progress)

/-- `StreamAggregator::poll_all_streams`. -/
def pollAllStreams (self : StreamAggregator) (ready : Nat → Bool) : Item × StreamAggregator :=
  match pollStreams ready (List.range self.namedStreams.length) self false with
  | .error (e, self) => (.ready (some (.error e)), self)
  | .ok (self, madeProgress) =>
    let completed := if madeProgress then self.buffer.completedGroups else .ok (none, self.buffer)
    match completed with
    -- the `?` returns the error without setting `is_failed`
    | .error e => (.ready (some (.error (.aggregation e))), self)
    | .ok (some groups, buffer) => (.ready (some (.ok groups)), { self with buffer })
    | .ok (none, buffer) =>
      let self := { self with buffer }
      if self.isFinalized then (.ready none, self) else (.pending, self)

/-- `<StreamAggregator as Stream>::poll_next`. -/
def pollNext (self : StreamAggregator) (ready : Nat → Bool) : Item × StreamAggregator :=
  if self.isFinalized || self.isFailed then (.ready none, self) else self.pollAllStreams ready

/-- The items of successive calls of `poll_next`, one for each pass of the scheduler. -/
def run (self : StreamAggregator) : List (Nat → Bool) → List Item × StreamAggregator
  | [] => ([], self)
  | ready :: passes =>
    let (item, self) := self.pollNext ready
    let (items, self) := self.run passes
    (item :: items, self)

/-- Once finalized, the aggregator answers `Ready(None)` to every call. -/
theorem pollNext_of_isFinalized {self : StreamAggregator} (h : self.isFinalized = true)
    (ready : Nat → Bool) : self.pollNext ready = (.ready none, self) := by
  simp [pollNext, h]

/-- **Two streams ending together lose the rows of the later block.** Stream 0 has one row
at block 1, stream 1 one row at block 2; every stream is ready at every pass. The first
call buffers both rows and completes nothing. In the second both streams end: the pass sets
`is_finalized` and yields only the group of block 1, the least last block. The third call
answers `Ready(None)`, and so does every call after it (`pollNext_of_isFinalized`), while
the row of block 2 is still in the buffer of stream 1. -/
theorem run_loses_rows :
    let row₀ : Row := ⟨some 1, some 1, 0⟩
    let row₁ : Row := ⟨some 2, some 2, 1⟩
    let run := (StreamAggregator.new [[[row₀]], [[row₁]]] 2).run (List.replicate 3 fun _ => true)
    run.1 = [.pending, .ready (some (.ok [(⟨1, 1⟩, [⟨0, [row₀]⟩])])), .ready none] ∧
      run.2.isFinalized = true ∧
      (run.2.buffer.aggregator 1).buffer.map (·.2.intoRecordBatch) = [[row₁]] := by
  refine ⟨rfl, rfl, rfl⟩

end StreamAggregator

end GraphNode.Amp
