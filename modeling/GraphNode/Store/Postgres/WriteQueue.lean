import GraphNode.Store.Postgres.Writable
import GraphNode.Lib.Transition

/-!
# The writer's queue, with batching

A `WritableStore` hands its changes to a background writer through a queue
(`Queue`). The frontend – the subgraph runner calling `transact_block_operations`,
`revert_block_operations`, `flush` and `stop` – pushes requests at the back. The writer
task (`start_writer`) marks the oldest request as being processed (`peek_with` with
`start_process`), executes it against the store, and only then pops it, so that reads
through the queue see it while it is written. While the subgraph syncs, `push_write` does
not queue a new write when the newest request is a write the writer has not started: it
appends the batch to the batch of that request (`QueuedBatch::append`), so that one
transaction writes many blocks.

## The model

The two tasks share the queue, the error slot `write_err`, and the flags `poisoned` and
`batch_writes`; each step below is one atomic action of one task – a lock held, or an
atomic load or store – and the steps of the two tasks interleave in any order
(`System.step`). The frontend makes a given list of calls (`Call`). What `push_write` reads
that the model does not – how old the newest request is, whether its lock is free, and its
weight against `write_batch_size` – is a choice of the step (`Action.frontend`), as is the
outcome of each call to the store (`Action.writer`). The store itself is the list of the
requests the writer has had it execute. Waiting – for a request in `peek_with`, for room in
`BoundedQueue::push`, for the batch to fill in `start_writer`, for the queue to empty in
`flush` – is a step that is not enabled yet.

## What holds over every interleaving

* **No request is lost, duplicated or reordered** (`handed_eq_executed_pending`): while
  the queue is not poisoned, the requests of the calls made so far are, in order, those the
  writer has executed, then those still queued, then the one being handed over; the
  writer executes consecutive writes as one batch, `Batch::append` of their batches.
* **What the writer executes is a prefix** (`executed_prefix_of_handed`): in every state, the
  writer has executed the requests of the calls in order, each at most once.

A call that fails stops the frontend (`Frontend.failed`), which keeps the calls it does not
make and the requests of the failed call that never reached the queue. The writer goes on
meanwhile: after a failed `Batch::append` the queue is not poisoned, and the writer executes
the requests ahead of the broken batch before it meets the batch's error. Both invariants
speak of these states too.
* **A closed batch is never appended to** (`pushWrite_never_closed`): every closed batch
  belongs to a request marked processed, which `push_write` leaves alone, so the internal
  error `attempt to append to closed batch` is never raised.
-/

namespace GraphNode

/-! ### Queued requests -/

/-- `QueuedBatch`: a batch the frontend may still append to, or one the writer has closed.
The placeholder `Invalid`, which `close` never lets be seen, is left out. -/
inductive QueuedBatch where
  | open_ (batch : Batch)
  | closed (batch : Batch)

/-- The errors the queue reports: those of the store and of `Batch::append`, and the
`StoreError`s the queue raises itself. -/
inductive QueueError where
  | store (e : StoreError)
  /-- `StoreError::Poisoned`. -/
  | poisoned
  /-- `internal_error!("attempt to append to closed batch")`. -/
  | appendToClosedBatch
  /-- `internal_error!("Subgraph writer for {} is not running")`. -/
  | writerNotRunning

namespace QueuedBatch

variable (writeBatchMemoize : Bool)

/-- `Deref`: the batch, open or closed. -/
def batch : QueuedBatch → Batch
  | open_ batch | closed batch => batch

/-- `QueuedBatch::append`: `Batch::append` to an open batch; a closed one is an error. -/
def append : QueuedBatch → Batch → Except QueueError Unit × QueuedBatch
  | open_ batch, other =>
    match batch.append writeBatchMemoize other with
    | (.ok (), batch) => (.ok (), open_ batch)
    | (.error e, batch) => (.error (.store e), open_ batch)
  | closed batch, _ => (.error .appendToClosedBatch, closed batch)

/-- `QueuedBatch::close`: the batch is closed, and handed out. -/
def close : QueuedBatch → QueuedBatch × Batch
  | open_ batch | closed batch => (closed batch, batch)

end QueuedBatch

/-- `Request` as it sits in the queue: a write with its `QueuedBatch`, or a revert, each with
its flag `processed`, or a stop. -/
inductive QueuedRequest where
  | write (batch : QueuedBatch) (processed : Bool)
  | revertTo (blockPtr : BlockNumber) (processed : Bool)
  | stop

namespace QueuedRequest

/-- `Request::processed`. -/
def processed : QueuedRequest → Bool
  | write _ processed | revertTo _ processed => processed
  | stop => false

/-- `Request::start_process`. -/
def startProcess : QueuedRequest → QueuedRequest
  | write batch _ => write batch true
  | revertTo blockPtr _ => revertTo blockPtr true
  | stop => stop

/-- Whether the request is a write whose batch is closed. -/
def closed : QueuedRequest → Bool
  | write (.closed _) _ => true
  | _ => false

/-- What the request asks of the store, as the reads through the queue see it. -/
def request : QueuedRequest → Request
  | write batch _ => .write batch.batch
  | revertTo blockPtr _ => .revertTo blockPtr
  | stop => .stop

end QueuedRequest

/-- `Request::is_write`. -/
def Request.isWrite : Request → Bool
  | .write _ => true
  | .revertTo _ | .stop => false

/-- `Request::write` and `Request::revert`: a new request, with an open batch, not
processed. -/
def Request.queued : Request → QueuedRequest
  | .write batch => .write (.open_ batch) false
  | .revertTo blockPtr => .revertTo blockPtr false
  | .stop => .stop

/-! ### The queue -/

/-- `Queue`: the requests, oldest first, and what the two tasks share besides. -/
structure Queue where
  queue : List QueuedRequest
  writeErr : Option StoreError
  poisoned : Bool
  batchWrites : Bool

namespace Queue

/-- `Queue::start`: an empty queue that batches writes. -/
def start : Queue := ⟨[], none, false, true⟩

/-- `Queue::check_err`: the error the writer left, which is taken, or `Poisoned`. -/
def checkErr (q : Queue) : Except QueueError Unit × Queue :=
  match q.writeErr with
  | some err => (.error (.store err), { q with writeErr := none })
  | none => if q.poisoned then (.error .poisoned, q) else (.ok (), q)

/-- `Queue::stop_batching`. -/
def stopBatching (q : Queue) : Queue := { q with batchWrites := false }

/-- `Queue::start_batching`. -/
def startBatching (q : Queue) : Queue := { q with batchWrites := true }

/-- `Writer::check_queue_running`: `check_err`, then whether the writer task still runs. -/
def checkQueueRunning (q : Queue) (running : Bool) : Except QueueError Unit × Queue :=
  match q.checkErr with
  | (.error e, q) => (.error e, q)
  | (.ok (), q) => if running then (.ok (), q) else (.error .writerNotRunning, q)

variable (writeBatchMemoize : Bool)

/-- `Queue::push_write` up to its `push`. Without batching, or when the newest request is not
a write the writer has not started, the batch is to be pushed as a new request
(`some batch`). Otherwise the closure of `map_newest` appends it when `append` holds – the
request is younger than `write_batch_duration`, its lock is free and its weight below
`write_batch_size` – and returns what `QueuedBatch::append` returns. -/
def pushWrite (append : Bool) (q : Queue) (batch : Batch) :
    Except QueueError (Option Batch) × Queue :=
  if !q.batchWrites then (.ok (some batch), q)
  else
    match q.queue.getLast? with
    | none => (.ok (some batch), q)
    | some newest =>
      if newest.processed then (.ok (some batch), q)
      else
        match newest with
        | .write existing processed =>
          if append then
            let (res, existing) := existing.append writeBatchMemoize batch
            let q := { q with queue := q.queue.dropLast ++ [.write existing processed] }
            match res with
            | .ok () => (.ok none, q)
            | .error e => (.error e, q)
          else (.ok (some batch), q)
        | .revertTo .. | .stop => (.ok (some batch), q)

end Queue

/-! ### The writer task -/

/-- Where the writer task, `start_writer`, is. -/
inductive WriterTask where
  /-- At the top of its loop, waiting in `peek_with` for a request. -/
  | idle
  /-- `peek_with` has marked the oldest request as processed. -/
  | started
  /-- `execute` has closed the batch and calls the store with `request`. -/
  | executing (request : Request)
  /-- `execute` returned `Ok(Continue)` or, with `stop`, `Ok(Stop)`: the request is popped
  next. -/
  | popping (stop : Bool)
  /-- `execute` returned `Err(e)`: `record_err` stores it next. -/
  | failing (e : StoreError)
  /-- `record_err` has stored the error; it marks the queue poisoned next. -/
  | recording
  /-- `record_err` clears the queue, one `try_pop` at a time. -/
  | clearing
  /-- The task has returned. -/
  | stopped

namespace WriterTask

/-- Whether the task has not returned, as `JoinHandle::is_finished` tells. -/
def running : WriterTask → Bool
  | stopped => false
  | _ => true

/-- One step of `start_writer`, `result` being what a call to the store returns; with the
requests it has executed. -/
def step (result : Except StoreError Unit) (q : Queue) :
    WriterTask → Option (Queue × WriterTask × List Request)
  | idle =>
    match q.queue with
    | [] => none
    | req :: rest => some ({ q with queue := req.startProcess :: rest }, started, [])
  | started =>
    match q.queue with
    | [] => none
    | .write batch processed :: rest =>
      let (batch, b) := batch.close
      let q := { q with queue := .write batch processed :: rest }
      -- an append that failed left its error in the batch, which must not be written
      match b.error with
      | some err => some (q, failing err, [])
      | none => some (q, executing (.write b), [])
    | .revertTo blockPtr _ :: _ => some (q, executing (.revertTo blockPtr), [])
    | .stop :: _ => some (q, popping true, [.stop])
  | executing request =>
    match result with
    | .ok () => some (q, popping false, [request])
    | .error e => some (q, failing e, [])
  | popping stop =>
    match q.queue with
    | [] => none
    | _ :: rest => some ({ q with queue := rest }, if stop then stopped else idle, [])
  | failing e => some ({ q with writeErr := some e }, recording, [])
  | recording => some ({ q with poisoned := true }, clearing, [])
  | clearing =>
    match q.queue with
    | [] => some (q, stopped, [])
    | _ :: rest => some ({ q with queue := rest }, clearing, [])
  | stopped => none

end WriterTask

/-! ### The frontend -/

/-- A call of the subgraph runner to its store, as far as it reaches the queue. -/
inductive Call where
  /-- `transact_block_operations`, through `Writer::write`. -/
  | write (batch : Batch)
  /-- `revert_block_operations`, through `Writer::revert`. -/
  | revert (blockPtr : BlockNumber)
  | flush
  | stop
  | deploymentSynced
  | startBatching

/-- The requests a call hands to the queue. -/
def Call.requests : Call → List Request
  | .write batch => [.write batch]
  | .revert blockPtr => [.revertTo blockPtr]
  | .stop => [.stop]
  | .flush | .deploymentSynced | .startBatching => []

/-- Where the frontend is in its calls. -/
inductive Frontend where
  /-- Between two calls. -/
  | ready (calls : List Call)
  /-- `Writer::write` has checked that the writer runs; `push_write` is next. -/
  | writing (batch : Batch) (calls : List Call)
  /-- `Queue::push`, before its `check_err`. -/
  | pushing (request : Request) (calls : List Call)
  /-- `Queue::push`, in `BoundedQueue::push`. -/
  | enqueuing (request : Request) (calls : List Call)
  /-- `Queue::flush`, before its first `check_err`. -/
  | flushing (calls : List Call)
  /-- `Queue::flush`, in `wait_empty`, with the `batch_writes` to restore. -/
  | waitingEmpty (batching : Bool) (calls : List Call)
  /-- `Queue::flush`, before its last `check_err`. -/
  | flushed (calls : List Call)
  /-- A call returned an error, and the runner stops: the requests of that call it never
  handed to the queue, and the calls after it, which it does not make. -/
  | failed (e : QueueError) (lost : List Request) (calls : List Call)

namespace Frontend

/-- The calls the frontend has still to make, or, once it failed, those it does not make. -/
def remaining : Frontend → List Call
  | ready calls | writing _ calls | pushing _ calls | enqueuing _ calls | flushing calls
  | waitingEmpty _ calls | flushed calls | failed _ _ calls => calls

/-- The requests the frontend is handing over, or, once it failed, those its failed call
never handed over. -/
def inflight : Frontend → List Request
  | writing batch _ => [.write batch]
  | pushing request _ | enqueuing request _ => [request]
  | failed _ lost _ => lost
  | _ => []

/-- The frontend goes on to `next` when a check passed, and fails with its error
otherwise, with the requests of the call it was making not handed over. -/
def afterCheck : Except QueueError Unit × Queue → Frontend → Queue × Frontend
  | (.error e, q), next => (q, failed e next.inflight next.remaining)
  | (.ok (), q), next => (q, next)

variable (writeBatchMemoize : Bool)

/-- One step of the frontend: `append` is the choice of `push_write`, and `running` whether
the writer task runs. -/
def step (append running : Bool) (q : Queue) : Frontend → Option (Queue × Frontend)
  | ready [] => none
  | ready (call :: calls) =>
    some <| match call with
    | .write batch => afterCheck (q.checkQueueRunning running) (writing batch calls)
    | .revert blockPtr =>
      afterCheck (q.checkQueueRunning running) (pushing (.revertTo blockPtr) calls)
    | .flush => afterCheck (q.checkQueueRunning running) (flushing calls)
    | .stop => (q.stopBatching, pushing .stop calls)
    | .deploymentSynced => (q.stopBatching, ready calls)
    | .startBatching => (q.startBatching, ready calls)
  | writing batch calls =>
    -- a failed append leaves the batch, marked broken, in the queue
    some <| match q.pushWrite writeBatchMemoize append batch with
    | (.error e, q) => (q, failed e [] calls)
    | (.ok none, q) => (q, ready calls)
    | (.ok (some batch), q) => (q, pushing (.write batch) calls)
  | pushing request calls =>
    -- anything but a write turns batching off before it is queued
    some <| match q.checkErr with
    | (.error e, q) => (q, failed e [request] calls)
    | (.ok (), q) => (if request.isWrite then q else q.stopBatching, enqueuing request calls)
  | enqueuing request calls =>
    some ({ q with queue := q.queue ++ [request.queued] }, ready calls)
  | flushing calls =>
    some <| match q.checkErr with
    | (.error e, q) => (q, failed e [] calls)
    | (.ok (), q) => (q.stopBatching, waitingEmpty q.batchWrites calls)
  | waitingEmpty batching calls =>
    if q.queue.isEmpty then some ({ q with batchWrites := batching }, flushed calls) else none
  | flushed calls => some (afterCheck q.checkErr (ready calls))
  | failed .. => none

end Frontend

/-! ### The two tasks -/

/-- The queue, the writer task, the frontend, and the requests the writer has had the store
execute, oldest first. -/
structure System where
  queue : Queue
  writer : WriterTask
  frontend : Frontend
  executed : List Request

/-- Which task moves, with the choice it makes. -/
inductive Action where
  | frontend (append : Bool)
  | writer (result : Except StoreError Unit)

namespace System

/-- A started queue, and a frontend with its calls to make. -/
def init (calls : List Call) : System := ⟨Queue.start, .idle, .ready calls, []⟩

variable (writeBatchMemoize : Bool)

/-- One step of one of the tasks. -/
def step (S : System) : Action → Option System
  | .frontend append =>
    (S.frontend.step writeBatchMemoize append S.writer.running S.queue).map
      fun (q, f) => { S with queue := q, frontend := f }
  | .writer result =>
    (S.writer.step result S.queue).map
      fun (q, w, done) => { S with queue := q, writer := w, executed := S.executed ++ done }

/-- The runs of the two tasks, interleaved, from the frontend's calls `calls`. -/
def spec (calls : List Call) : Transition.Spec System where
  init S := S = init calls
  next S S' := ∃ a, S.step writeBatchMemoize a = some S'

end System

/-! ### Requests the writer executes as one -/

section Merging

variable (writeBatchMemoize : Bool)

/-- The batch `Batch::append` of `bs`, one after the other, leaves of `b`. -/
def appendAll (b : Batch) (bs : List Batch) : Batch :=
  bs.foldl (fun acc next => (acc.append writeBatchMemoize next).2) b

/-- Requests of the frontend that the writer executes as one: writes whose batches were
appended to the first, a revert, or a stop. -/
inductive Merged where
  | write (b : Batch) (bs : List Batch)
  | revertTo (blockPtr : BlockNumber)
  | stop

namespace Merged

/-- The request the writer executes. -/
def request : Merged → Request
  | write b bs => .write (appendAll writeBatchMemoize b bs)
  | revertTo blockPtr => .revertTo blockPtr
  | stop => .stop

/-- The requests of the frontend it stands for. -/
def parts : Merged → List Request
  | write b bs => (b :: bs).map .write
  | revertTo blockPtr => [.revertTo blockPtr]
  | stop => [.stop]

/-- A request on its own. -/
def single : Request → Merged
  | .write b => write b []
  | .revertTo blockPtr => revertTo blockPtr
  | .stop => stop

@[simp] theorem request_single (r : Request) : (single r).request writeBatchMemoize = r := by
  cases r <;> rfl

@[simp] theorem parts_single (r : Request) : (single r).parts = [r] := by
  cases r <;> rfl

/-- Appending one more batch to merged writes. -/
theorem request_write_append (b : Batch) (bs : List Batch) (next : Batch) :
    (write b (bs ++ [next])).request writeBatchMemoize =
      .write ((appendAll writeBatchMemoize b bs).append writeBatchMemoize next).2 := by
  simp [request, appendAll, List.foldl_append]

@[simp] theorem parts_write_append (b : Batch) (bs : List Batch) (next : Batch) :
    (write b (bs ++ [next])).parts = (write b bs).parts ++ [.write next] := by
  simp [parts]

/-- The merged requests a write of the writer stands for are writes. -/
theorem eq_write_of_request {m : Merged} {batch : Batch}
    (h : m.request writeBatchMemoize = .write batch) :
    ∃ b bs, m = write b bs ∧ appendAll writeBatchMemoize b bs = batch := by
  cases m with
  | write b bs => exact ⟨b, bs, rfl, Request.write.inj h⟩
  | revertTo _ => cases h
  | stop => cases h

end Merged

end Merging

/-! ### What each task knows of the other -/

namespace QueuedRequest

/-- A request `push_write` may append to: a write the writer has not started. -/
def appendable : QueuedRequest → Bool
  | write _ false => true
  | _ => false

@[simp] theorem request_startProcess (r : QueuedRequest) :
    r.startProcess.request = r.request := by
  cases r <;> rfl

@[simp] theorem appendable_startProcess (r : QueuedRequest) :
    r.startProcess.appendable = false := by
  cases r <;> rfl

theorem closed_startProcess {r : QueuedRequest} (h : r.startProcess.closed = true) :
    r.startProcess.processed = true := by
  cases r <;> simp_all [startProcess, closed, processed]

@[simp] theorem request_queued (r : Request) : r.queued.request = r := by
  cases r <;> rfl

@[simp] theorem processed_queued (r : Request) : r.queued.processed = false := by
  cases r <;> rfl

@[simp] theorem closed_queued (r : Request) : r.queued.closed = false := by
  cases r <;> rfl

end QueuedRequest

theorem QueuedBatch.batch_close (qb : QueuedBatch) : qb.close.1.batch = qb.close.2 := by
  cases qb <;> rfl

theorem QueuedBatch.close_batch (qb : QueuedBatch) : qb.close.2 = qb.batch := by
  cases qb <;> rfl

namespace WriterTask

/-- The requests the writer has yet to execute: those queued, but for the oldest once it is
executed and not yet popped. -/
def pending (queue : List QueuedRequest) : WriterTask → List Request
  | popping _ => (queue.drop 1).map QueuedRequest.request
  | _ => queue.map QueuedRequest.request

/-- What the writer's position says of the queue: idle, it has marked no request; busy with
the oldest request, that one is not appendable, and it is the one it executes. -/
def Holds (queue : List QueuedRequest) : WriterTask → Prop
  | idle => ∀ r ∈ queue, r.processed = false
  | executing request => ∃ r rest, queue = r :: rest ∧ r.appendable = false ∧
      r.request = request
  | started | popping _ | failing _ | recording =>
    ∃ r rest, queue = r :: rest ∧ r.appendable = false
  | clearing | stopped => True

/-- A request added behind those the writer has still to execute. -/
theorem pending_append {w : WriterTask} {queue : List QueuedRequest}
    (hne : ∀ stop, w = popping stop → queue ≠ []) (r : QueuedRequest) :
    w.pending (queue ++ [r]) = w.pending queue ++ [r.request] := by
  cases w with
  | popping stop =>
    have := hne stop rfl
    simp only [pending]
    rw [List.drop_append_of_le_length (by cases queue <;> simp_all)]
    simp
  | _ => simp [pending]

end WriterTask

/-! ### What one step of the frontend does -/

namespace Queue

/-- `check_err` only takes the error. -/
theorem checkErr_queue (q : Queue) :
    q.checkErr.2.queue = q.queue ∧ q.checkErr.2.poisoned = q.poisoned := by
  unfold checkErr
  split
  · exact ⟨rfl, rfl⟩
  · split <;> exact ⟨rfl, rfl⟩

/-- `check_err` fails with the writer's error or with `Poisoned`. -/
theorem checkErr_ne (q : Queue) : q.checkErr.1 ≠ .error .appendToClosedBatch := by
  unfold checkErr
  split
  · nofun
  · split <;> nofun

theorem checkQueueRunning_queue (q : Queue) (running : Bool) :
    (q.checkQueueRunning running).2.queue = q.queue ∧
      (q.checkQueueRunning running).2.poisoned = q.poisoned := by
  have hcheck := q.checkErr_queue
  unfold checkQueueRunning
  rcases h : q.checkErr with ⟨_ | _, q₁⟩ <;> rw [h] at hcheck <;> dsimp only
  · exact hcheck
  · split <;> exact hcheck

theorem checkQueueRunning_ne (q : Queue) (running : Bool) :
    (q.checkQueueRunning running).1 ≠ .error .appendToClosedBatch := by
  have hcheck := q.checkErr_ne
  unfold checkQueueRunning
  rcases h : q.checkErr with ⟨_ | _, q₁⟩ <;> rw [h] at hcheck <;> dsimp only
  · exact hcheck
  · split <;> simp

variable {writeBatchMemoize : Bool}

/-- **What `push_write` does.** It leaves the queue as it is and hands the batch back to be
pushed, or appends it to the newest request, an open write the writer has not started, and
returns the outcome of `Batch::append`: it never meets a closed batch when every closed
batch is processed. -/
theorem pushWrite_cases {append : Bool} {q q' : Queue} {batch : Batch}
    {res : Except QueueError (Option Batch)}
    (hclosed : ∀ r ∈ q.queue, r.closed = true → r.processed = true)
    (h : q.pushWrite writeBatchMemoize append batch = (res, q')) :
    (res = .ok (some batch) ∧ q' = q) ∨
      ∃ pre x, q.queue = pre ++ [.write (.open_ x) false] ∧
        q' = { q with
          queue := pre ++ [.write (.open_ (x.append writeBatchMemoize batch).2) false] } ∧
        (res = .ok none ∨ ∃ e, res = .error (.store e)) := by
  unfold pushWrite at h
  -- every way out but the append leaves the queue and hands the batch back
  have hback : ((Except.ok (some batch) : Except QueueError (Option Batch)), q) = (res, q') →
      res = .ok (some batch) ∧ q' = q := fun h => (Prod.mk.inj h).imp Eq.symm Eq.symm
  by_cases hbatch : q.batchWrites = false
  · exact .inl <| hback (by simpa [hbatch] using h)
  rw [if_neg (by simpa using hbatch)] at h
  rcases hlast : q.queue.getLast? with _ | newest
  · exact .inl <| hback (by simpa [hlast] using h)
  rw [hlast] at h
  dsimp only at h
  by_cases hprocessed : newest.processed = true
  · exact .inl <| hback (by simpa [hprocessed] using h)
  rw [if_neg hprocessed] at h
  obtain ⟨pre, hpre⟩ := List.getLast?_eq_some_iff.mp hlast
  cases newest with
  | write existing processed =>
    have hfalse : processed = false := by simpa [QueuedRequest.processed] using hprocessed
    subst hfalse
    dsimp only at h
    by_cases happend : append = true
    · rw [if_pos happend] at h
      -- the newest request is a write the writer has not started, hence open
      cases existing with
      | closed x =>
        have := hclosed (.write (.closed x) false) (by rw [hpre]; simp) rfl
        simp [QueuedRequest.processed] at this
      | open_ x =>
        refine .inr ⟨pre, x, hpre, ?_⟩
        rcases hx : x.append writeBatchMemoize batch with ⟨_ | _, b⟩ <;>
          simp only [QueuedBatch.append, hx, hpre, List.dropLast_concat, Prod.mk.injEq] at h <;>
          obtain ⟨rfl, rfl⟩ := h
        · exact ⟨rfl, .inr ⟨_, rfl⟩⟩
        · exact ⟨rfl, .inl rfl⟩
    · exact .inl <| hback (by simpa [happend] using h)
  | revertTo _ _ => exact .inl (hback h)
  | stop => exact .inl (hback h)

end Queue

namespace Frontend

/-- The frontend has gone on with its calls: the calls made on the way, after what it was
handing over, are what it hands over now, or what its failed call never handed over. -/
def Moves (f f' : Frontend) : Prop :=
  ∃ made, f.remaining = made ++ f'.remaining ∧
    f.inflight ++ made.flatMap Call.requests = f'.inflight

theorem Moves.same {f f' : Frontend} (hr : f'.remaining = f.remaining)
    (hi : f'.inflight = f.inflight) : Moves f f' :=
  ⟨[], by rw [hr, List.nil_append], by rw [hi, List.flatMap_nil, List.append_nil]⟩

/-- One call made from `ready`. -/
theorem Moves.call {call : Call} {calls : List Call} {f' : Frontend}
    (hr : f'.remaining = calls) (hi : f'.inflight = call.requests) :
    Moves (ready (call :: calls)) f' :=
  ⟨[call], by rw [hr]; rfl, by rw [hi]; simp [inflight]⟩

/-- After a check, the frontend goes on or fails, keeping what it was about to hand over. -/
theorem afterCheck_cases (r : Except QueueError Unit × Queue) (next : Frontend) :
    (afterCheck r next).1 = r.2 ∧
      ((afterCheck r next).2 = next ∨ ∃ e, r.1 = .error e ∧
        (afterCheck r next).2 = failed e next.inflight next.remaining) := by
  obtain ⟨_ | _, q⟩ := r
  · exact ⟨rfl, .inr ⟨_, rfl, rfl⟩⟩
  · exact ⟨rfl, .inl rfl⟩

variable {writeBatchMemoize : Bool}

/-- A check of the frontend keeps the queue, and goes on to `next` or fails. -/
theorem afterCheck_step {r : Except QueueError Unit × Queue} {q q' : Queue}
    {f f' next : Frontend} (hq : r.2.queue = q.queue ∧ r.2.poisoned = q.poisoned)
    (hne : r.1 ≠ .error .appendToClosedBatch)
    (hnext : ∀ lost rest, next ≠ failed .appendToClosedBatch lost rest)
    (hmoves : Moves f next) (h : afterCheck r next = (q', f')) :
    q'.poisoned = q.poisoned ∧ (∀ lost rest, f' ≠ failed .appendToClosedBatch lost rest) ∧
      q'.queue = q.queue ∧ Moves f f' := by
  obtain ⟨h₁, h₂⟩ := afterCheck_cases r next
  rw [h] at h₁ h₂
  subst h₁
  refine ⟨hq.2, ?_, hq.1, ?_⟩
  · rcases h₂ with rfl | ⟨e, he, rfl⟩
    · exact hnext
    · exact fun _ _ hf => hne (by cases hf; exact he)
  · -- the failed frontend still names the calls and the requests of `next`
    rcases h₂ with rfl | ⟨e, -, rfl⟩
    · exact hmoves
    · obtain ⟨made, hrem, hinfl⟩ := hmoves
      exact ⟨made, hrem, hinfl⟩

/-- **What one step of the frontend does.** It keeps the queue and goes on with its calls, or
queues the request it was pushing, or appends the batch it was writing to the newest request,
an open write the writer has not started. It never fails with `appendToClosedBatch` while
every closed batch is processed. -/
theorem step_cases {append running : Bool} {q q' : Queue} {f f' : Frontend}
    (hclosed : ∀ r ∈ q.queue, r.closed = true → r.processed = true)
    (h : f.step writeBatchMemoize append running q = some (q', f')) :
    q'.poisoned = q.poisoned ∧ (∀ lost rest, f' ≠ failed .appendToClosedBatch lost rest) ∧
      ((q'.queue = q.queue ∧ Moves f f') ∨
        (∃ request rest, f = enqueuing request rest ∧ f' = ready rest ∧
          q'.queue = q.queue ++ [request.queued]) ∨
        (∃ batch rest pre x, f = writing batch rest ∧ f'.inflight = [] ∧ f'.remaining = rest ∧
          q.queue = pre ++ [.write (.open_ x) false] ∧
          q'.queue = pre ++ [.write (.open_ (x.append writeBatchMemoize batch).2) false])) := by
  -- the steps that only check something keep the queue
  have hcheck : ∀ {r : Except QueueError Unit × Queue} {next : Frontend},
      afterCheck r next = (q', f') → r.2.queue = q.queue ∧ r.2.poisoned = q.poisoned →
      r.1 ≠ .error .appendToClosedBatch →
      (∀ lost rest, next ≠ failed .appendToClosedBatch lost rest) → Moves f next →
      q'.poisoned = q.poisoned ∧ (∀ lost rest, f' ≠ failed .appendToClosedBatch lost rest) ∧
        (q'.queue = q.queue ∧ Moves f f') :=
    fun h hq hne hnext hmoves => afterCheck_step hq hne hnext hmoves h
  cases f with
  | ready calls =>
    cases calls with
    | nil => cases h
    | cons call calls =>
      simp only [step, Option.some.injEq] at h
      cases call with
      | write batch =>
        obtain ⟨hp, hne, hmoves⟩ := hcheck h (q.checkQueueRunning_queue running)
          (q.checkQueueRunning_ne running) (fun _ _ => nofun) (Moves.call rfl rfl)
        exact ⟨hp, hne, .inl hmoves⟩
      | revert blockPtr =>
        obtain ⟨hp, hne, hmoves⟩ := hcheck h (q.checkQueueRunning_queue running)
          (q.checkQueueRunning_ne running) (fun _ _ => nofun) (Moves.call rfl rfl)
        exact ⟨hp, hne, .inl hmoves⟩
      | flush =>
        obtain ⟨hp, hne, hmoves⟩ := hcheck h (q.checkQueueRunning_queue running)
          (q.checkQueueRunning_ne running) (fun _ _ => nofun) (Moves.call rfl rfl)
        exact ⟨hp, hne, .inl hmoves⟩
      | stop =>
        obtain ⟨rfl, rfl⟩ := Prod.mk.inj h
        exact ⟨rfl, fun _ _ => nofun, .inl ⟨rfl, Moves.call rfl rfl⟩⟩
      | deploymentSynced =>
        obtain ⟨rfl, rfl⟩ := Prod.mk.inj h
        exact ⟨rfl, fun _ _ => nofun, .inl ⟨rfl, Moves.call rfl rfl⟩⟩
      | startBatching =>
        obtain ⟨rfl, rfl⟩ := Prod.mk.inj h
        exact ⟨rfl, fun _ _ => nofun, .inl ⟨rfl, Moves.call rfl rfl⟩⟩
  | writing batch rest =>
    simp only [step, Option.some.injEq] at h
    rcases hpush : q.pushWrite writeBatchMemoize append batch with ⟨res, q₁⟩
    rw [hpush] at h
    rcases Queue.pushWrite_cases hclosed hpush with ⟨rfl, rfl⟩ | ⟨pre, x, hpre, rfl, hres⟩
    · -- the batch is pushed as a new request
      obtain ⟨rfl, rfl⟩ := Prod.mk.inj h
      exact ⟨rfl, fun _ _ => nofun, .inl ⟨rfl, Moves.same rfl rfl⟩⟩
    · -- the batch is appended to the newest request, or left there broken
      rcases hres with rfl | ⟨e, rfl⟩ <;> obtain ⟨rfl, rfl⟩ := Prod.mk.inj h
      · exact ⟨rfl, fun _ _ => nofun, .inr (.inr ⟨batch, rest, pre, x, rfl, rfl, rfl, hpre, rfl⟩)⟩
      · exact ⟨rfl, fun _ _ => nofun, .inr (.inr ⟨batch, rest, pre, x, rfl, rfl, rfl, hpre, rfl⟩)⟩
  | pushing request rest =>
    simp only [step, Option.some.injEq] at h
    obtain ⟨hq, hp⟩ := q.checkErr_queue
    have hne := q.checkErr_ne
    rcases hc : q.checkErr with ⟨_ | _, q₁⟩ <;> rw [hc] at h hq hp hne <;>
      obtain ⟨rfl, rfl⟩ := Prod.mk.inj h
    · exact ⟨hp, fun _ _ hf => hne (by cases hf; rfl), .inl ⟨hq, Moves.same rfl rfl⟩⟩
    · refine ⟨?_, fun _ _ => nofun, .inl ⟨?_, Moves.same rfl rfl⟩⟩ <;>
        split <;> assumption
  | enqueuing request rest =>
    simp only [step, Option.some.injEq] at h
    obtain ⟨rfl, rfl⟩ := Prod.mk.inj h
    exact ⟨rfl, fun _ _ => nofun, .inr (.inl ⟨request, rest, rfl, rfl, rfl⟩)⟩
  | flushing rest =>
    simp only [step, Option.some.injEq] at h
    obtain ⟨hq, hp⟩ := q.checkErr_queue
    have hne := q.checkErr_ne
    rcases hc : q.checkErr with ⟨_ | _, q₁⟩ <;> rw [hc] at h hq hp hne <;>
      obtain ⟨rfl, rfl⟩ := Prod.mk.inj h
    · exact ⟨hp, fun _ _ hf => hne (by cases hf; rfl), .inl ⟨hq, Moves.same rfl rfl⟩⟩
    · exact ⟨hp, fun _ _ => nofun, .inl ⟨hq, Moves.same rfl rfl⟩⟩
  | waitingEmpty batching rest =>
    simp only [step] at h
    split_ifs at h
    obtain ⟨rfl, rfl⟩ := Prod.mk.inj (Option.some.inj h)
    exact ⟨rfl, fun _ _ => nofun, .inl ⟨rfl, Moves.same rfl rfl⟩⟩
  | flushed rest =>
    simp only [step, Option.some.injEq] at h
    obtain ⟨hp, hne, hmoves⟩ :=
      hcheck h q.checkErr_queue q.checkErr_ne (fun _ _ => nofun) (Moves.same rfl rfl)
    exact ⟨hp, hne, .inl hmoves⟩
  | failed e lost calls => cases h

end Frontend

/-! ### The invariant of the two tasks -/

namespace WriterTask

/-- A request added at the back keeps what the writer's position says. -/
theorem Holds.append {w : WriterTask} {queue : List QueuedRequest} (h : w.Holds queue)
    {r : QueuedRequest} (hr : r.processed = false) : w.Holds (queue ++ [r]) := by
  cases w with
  | idle =>
    intro x hx
    rcases List.mem_append.mp hx with hx | hx
    · exact h x hx
    · rw [List.mem_singleton] at hx
      exact hx ▸ hr
  | executing request =>
    obtain ⟨r₀, rest, rfl, h₀⟩ := h
    exact ⟨r₀, rest ++ [r], rfl, h₀⟩
  | started | popping _ | failing _ | recording =>
    obtain ⟨r₀, rest, rfl, h₀⟩ := h
    exact ⟨r₀, rest ++ [r], rfl, h₀⟩
  | clearing | stopped => trivial

/-- The busy writer's request is not appendable, so it is not the newest when that one is. -/
theorem Holds.ne_nil {w : WriterTask} {pre : List QueuedRequest} {r : QueuedRequest}
    (h : w.Holds (pre ++ [r])) (hr : r.appendable = true) (stop : Bool)
    (hw : w = popping stop) : pre ≠ [] := by
  subst hw
  rintro rfl
  obtain ⟨r₀, rest, heq, h₀⟩ := h
  rw [List.nil_append, List.cons_eq_cons] at heq
  rw [← heq.1, hr] at h₀
  cases h₀

/-- Replacing the newest request, appendable, by one not processed keeps what the writer's
position says. -/
theorem Holds.replace_last {w : WriterTask} {pre : List QueuedRequest} {r r' : QueuedRequest}
    (h : w.Holds (pre ++ [r])) (hr : r.appendable = true) (hr' : r'.processed = false) :
    w.Holds (pre ++ [r']) := by
  -- a busy writer works on the oldest request, which is not the newest
  have hhead : ∀ {r₀ : QueuedRequest} {rest : List QueuedRequest}, pre ++ [r] = r₀ :: rest →
      r₀.appendable = false → ∃ rest', pre ++ [r'] = r₀ :: rest' := by
    intro r₀ rest heq h₀
    cases pre with
    | nil =>
      rw [List.nil_append, List.cons_eq_cons] at heq
      rw [← heq.1, hr] at h₀
      cases h₀
    | cons p pre =>
      rw [List.cons_append, List.cons_eq_cons] at heq
      exact ⟨pre ++ [r'], by rw [heq.1, List.cons_append]⟩
  cases w with
  | idle =>
    intro x hx
    rcases List.mem_append.mp hx with hx | hx
    · exact h x (List.mem_append_left _ hx)
    · rw [List.mem_singleton] at hx
      exact hx ▸ hr'
  | executing request =>
    obtain ⟨r₀, rest, heq, h₀, hreq⟩ := h
    obtain ⟨rest', heq'⟩ := hhead heq h₀
    exact ⟨r₀, rest', heq', h₀, hreq⟩
  | started | popping _ | failing _ | recording =>
    obtain ⟨r₀, rest, heq, h₀⟩ := h
    obtain ⟨rest', heq'⟩ := hhead heq h₀
    exact ⟨r₀, rest', heq', h₀⟩
  | clearing | stopped => trivial

end WriterTask

namespace System

variable (writeBatchMemoize : Bool)

/-- The requests the writer has yet to execute. -/
def pending (S : System) : List Request := S.writer.pending S.queue.queue

/-- The requests of the calls made so far are those the writer has executed, then those
pending, then the one being handed over; the writer executes runs of consecutive writes as
one appended batch. -/
def Exact (calls : List Call) (S : System) : Prop :=
  ∃ done pend : List Merged, S.executed = done.map (Merged.request writeBatchMemoize) ∧
    S.pending = pend.map (Merged.request writeBatchMemoize) ∧
    ∃ made, calls = made ++ S.frontend.remaining ∧
      made.flatMap Call.requests = (done ++ pend).flatMap Merged.parts ++ S.frontend.inflight

/-- The requests the writer has executed stand for the first requests of the calls made so
far. -/
def Prefix (calls : List Call) (S : System) : Prop :=
  ∃ done : List Merged, S.executed = done.map (Merged.request writeBatchMemoize) ∧
    ∃ made, calls = made ++ S.frontend.remaining ∧
      done.flatMap Merged.parts <+: made.flatMap Call.requests

/-- The invariant of the two tasks: closed batches are processed; only the oldest request can
be processed, and only by a busy writer; the queue is poisoned exactly once the writer clears
it; and what the writer executed and has still to execute stands for what the frontend handed
over. -/
structure Inv (calls : List Call) (S : System) : Prop where
  closed_processed : ∀ r ∈ S.queue.queue, r.closed = true → r.processed = true
  tail_unprocessed : ∀ r ∈ S.queue.queue.tail, r.processed = false
  holds : S.writer.Holds S.queue.queue
  clearing_poisoned : S.writer = .clearing → S.queue.poisoned = true
  poisoned_clearing : S.queue.poisoned = true → S.writer = .clearing ∨ S.writer = .stopped
  exact : S.queue.poisoned = false → Exact writeBatchMemoize calls S
  prefix_ : Prefix writeBatchMemoize calls S
  not_closed : ∀ lost rest, S.frontend ≠ .failed .appendToClosedBatch lost rest

variable {writeBatchMemoize}

theorem Exact.prefix_ {calls : List Call} {S : System} (h : Exact writeBatchMemoize calls S) :
    Prefix writeBatchMemoize calls S := by
  obtain ⟨done, pend, hex, -, made, hcalls, hreq⟩ := h
  refine ⟨done, hex, made, hcalls, ?_⟩
  rw [hreq, List.flatMap_append, List.append_assoc]
  exact List.prefix_append _ _

theorem inv_init (calls : List Call) : Inv writeBatchMemoize calls (init calls) where
  closed_processed r hr := by simp [init, Queue.start] at hr
  tail_unprocessed r hr := by simp [init, Queue.start] at hr
  holds r hr := by simp [init, Queue.start] at hr
  clearing_poisoned h := by cases h
  poisoned_clearing h := by cases h
  exact _ := ⟨[], [], rfl, rfl, [], rfl, rfl⟩
  prefix_ := ⟨[], rfl, [], rfl, List.nil_prefix⟩
  not_closed _ _ h := by cases h

/-- The requests of the calls keep standing for what the writer executed and has still to
execute while the frontend only goes on with its calls. -/
theorem Inv.of_moves {calls : List Call} {S S' : System} (hI : Inv writeBatchMemoize calls S)
    (hq : S'.queue.queue = S.queue.queue) (hp : S'.queue.poisoned = S.queue.poisoned)
    (hw : S'.writer = S.writer) (he : S'.executed = S.executed)
    (hmoves : S.frontend.Moves S'.frontend)
    (hnc : ∀ lost rest, S'.frontend ≠ .failed .appendToClosedBatch lost rest) :
    Inv writeBatchMemoize calls S' := by
  have hpending : S'.pending = S.pending := by
    unfold pending
    rw [hq, hw]
  refine ⟨hq ▸ hI.closed_processed, hq ▸ hI.tail_unprocessed, hq ▸ hw ▸ hI.holds,
    fun h => hp ▸ hI.clearing_poisoned (hw ▸ h), fun h => hw ▸ hI.poisoned_clearing (hp ▸ h),
    fun h => ?_, ?_, hnc⟩
  · obtain ⟨done, pend, hex, hpend, made₀, hcalls, hreq⟩ := hI.exact (hp ▸ h)
    obtain ⟨made, hrem, hinfl⟩ := hmoves
    refine ⟨done, pend, he ▸ hex, hpending ▸ hpend, made₀ ++ made,
      by rw [hcalls, hrem, List.append_assoc], ?_⟩
    rw [List.flatMap_append, hreq, List.append_assoc, hinfl]
  · obtain ⟨done, hex, made₀, hcalls, hpre⟩ := hI.prefix_
    obtain ⟨made, hrem, -⟩ := hmoves
    refine ⟨done, he ▸ hex, made₀ ++ made, by rw [hcalls, hrem, List.append_assoc], ?_⟩
    rw [List.flatMap_append]
    exact hpre.trans (List.prefix_append _ _)

/-- **A request queued by the frontend** is pending behind the others. -/
theorem Inv.enqueue {calls : List Call} {S : System} (hI : Inv writeBatchMemoize calls S)
    {request : Request} {rest : List Call} (hf : S.frontend = .enqueuing request rest)
    (q' : Queue) (hq : q'.queue = S.queue.queue ++ [request.queued])
    (hp : q'.poisoned = S.queue.poisoned) :
    Inv writeBatchMemoize calls { S with queue := q', frontend := .ready rest } := by
  have hne : ∀ stop, S.writer = .popping stop → S.queue.queue ≠ [] := by
    intro stop hw
    have := hI.holds
    rw [hw] at this
    obtain ⟨r, rest, heq, -⟩ := this
    simp [heq]
  refine ⟨?_, ?_, ?_, fun h => hp ▸ hI.clearing_poisoned h, fun h => hI.poisoned_clearing (hp ▸ h),
    fun h => ?_, ?_, fun _ _ => nofun⟩
  · intro r hr hc
    rw [hq] at hr
    rcases List.mem_append.mp hr with hr | hr
    · exact hI.closed_processed r hr hc
    · rw [List.mem_singleton] at hr
      subst hr
      simp at hc
  · intro r hr
    rw [hq] at hr
    rcases hqueue : S.queue.queue with _ | ⟨r₀, rest₀⟩
    · rw [hqueue] at hr
      simp at hr
    · rw [hqueue, List.cons_append, List.tail_cons] at hr
      rcases List.mem_append.mp hr with hr | hr
      · exact hI.tail_unprocessed r (by rw [hqueue]; exact hr)
      · rw [List.mem_singleton] at hr
        simp [hr]
  · show S.writer.Holds q'.queue
    rw [hq]
    exact hI.holds.append (QueuedRequest.processed_queued request)
  · obtain ⟨done, pend, hex, hpend, made, hcalls, hreq⟩ := hI.exact (hp ▸ h)
    refine ⟨done, pend ++ [.single request], hex, ?_, made, by rw [hcalls, hf]; rfl, ?_⟩
    · show S.writer.pending q'.queue = _
      rw [hq, WriterTask.pending_append hne, List.map_append, ← hpend]
      simp [pending]
    · rw [hreq, hf]
      simp [Frontend.inflight]
  · obtain ⟨done, hex, made, hcalls, hpre⟩ := hI.prefix_
    exact ⟨done, hex, made, by rw [hcalls, hf]; rfl, hpre⟩

/-- **A batch appended by the frontend to the newest request** joins the writes that request
stands for. -/
theorem Inv.append {calls : List Call} {S : System} (hI : Inv writeBatchMemoize calls S)
    {batch x : Batch} {rest : List Call} {pre : List QueuedRequest}
    (hf : S.frontend = .writing batch rest)
    (hqueue : S.queue.queue = pre ++ [.write (.open_ x) false]) (q' : Queue) (f' : Frontend)
    (hq : q'.queue = pre ++ [.write (.open_ (x.append writeBatchMemoize batch).2) false])
    (hp : q'.poisoned = S.queue.poisoned) (hinfl : f'.inflight = [])
    (hrem : f'.remaining = rest) (hnc : ∀ lost rest, f' ≠ .failed .appendToClosedBatch lost rest) :
    Inv writeBatchMemoize calls { S with queue := q', frontend := f' } := by
  have hholds := hI.holds
  rw [hqueue] at hholds
  have hne : ∀ stop, S.writer = .popping stop → pre ≠ [] := hholds.ne_nil rfl
  refine ⟨?_, ?_, ?_, fun h => hp ▸ hI.clearing_poisoned h, fun h => hI.poisoned_clearing (hp ▸ h),
    fun h => ?_, ?_, hnc⟩
  · intro r hr hc
    rw [hq] at hr
    rcases List.mem_append.mp hr with hr | hr
    · exact hI.closed_processed r (by rw [hqueue]; exact List.mem_append_left _ hr) hc
    · rw [List.mem_singleton] at hr
      subst hr
      simp [QueuedRequest.closed] at hc
  · intro r hr
    rw [hq] at hr
    cases pre with
    | nil => simp at hr
    | cons p pre =>
      rw [List.cons_append, List.tail_cons] at hr
      rcases List.mem_append.mp hr with hr | hr
      · exact hI.tail_unprocessed r (by rw [hqueue]; simp [hr])
      · rw [List.mem_singleton] at hr
        simp [hr, QueuedRequest.processed]
  · show S.writer.Holds q'.queue
    rw [hq]
    exact hholds.replace_last rfl rfl
  · obtain ⟨done, pend, hex, hpend, made, hcalls, hreq⟩ := hI.exact (hp ▸ h)
    -- the newest request stands for the last writes pending
    have hpend' :
        S.writer.pending pre ++ [.write x] = pend.map (Merged.request writeBatchMemoize) := by
      rw [← hpend]
      unfold pending
      rw [hqueue, WriterTask.pending_append hne]
      rfl
    obtain ⟨pend₀, ms, rfl, h₀, hms⟩ := List.map_eq_append_iff.mp hpend'.symm
    obtain ⟨m, rfl, hm⟩ := List.map_eq_singleton_iff.mp hms
    obtain ⟨b, bs, rfl, hx⟩ := Merged.eq_write_of_request writeBatchMemoize hm
    refine ⟨done, pend₀ ++ [.write b (bs ++ [batch])], hex, ?_, made,
      by rw [hcalls, hf, hrem]; rfl, ?_⟩
    · show S.writer.pending q'.queue = _
      rw [hq, WriterTask.pending_append hne, List.map_append, h₀, List.map_singleton,
        Merged.request_write_append, hx]
      rfl
    · rw [hreq, hf, hinfl]
      simp [Frontend.inflight]
  · obtain ⟨done, hex, made, hcalls, hpre⟩ := hI.prefix_
    exact ⟨done, hex, made, by rw [hcalls, hf, hrem]; rfl, hpre⟩

/-- **Every step of the frontend keeps the invariant.** -/
theorem Inv.frontend_step {calls : List Call} {S : System} (hI : Inv writeBatchMemoize calls S)
    {append : Bool} {q' : Queue} {f' : Frontend}
    (h : S.frontend.step writeBatchMemoize append S.writer.running S.queue = some (q', f')) :
    Inv writeBatchMemoize calls { S with queue := q', frontend := f' } := by
  obtain ⟨hp, hnc, hcase⟩ := Frontend.step_cases hI.closed_processed h
  rcases hcase with ⟨hq, hmoves⟩ | ⟨request, rest, hf, rfl, hq⟩ |
    ⟨batch, rest, pre, x, hf, hinfl, hrem, hqueue, hq⟩
  · exact hI.of_moves hq hp rfl rfl hmoves hnc
  · exact hI.enqueue hf q' hq hp
  · exact hI.append hf hqueue q' f' hq hp hinfl hrem hnc

/-! ### The writer's steps -/

/-- A writer that is neither clearing the queue nor stopped has not poisoned it. -/
theorem Inv.not_poisoned {calls : List Call} {S : System} (hI : Inv writeBatchMemoize calls S)
    (hc : S.writer ≠ .clearing) (hs : S.writer ≠ .stopped) : S.queue.poisoned = false := by
  cases hp : S.queue.poisoned
  · rfl
  · rcases hI.poisoned_clearing hp with h | h
    · exact absurd h hc
    · exact absurd h hs

/-- A step of the writer leaves what it executed and what is pending as they were, or executes
the oldest pending request. -/
theorem Exact.of_writer {calls : List Call} {S S' : System} (h : Exact writeBatchMemoize calls S)
    (hf : S'.frontend = S.frontend)
    (hmove : (S'.executed = S.executed ∧ S'.pending = S.pending) ∨
      ∃ req, S'.executed = S.executed ++ [req] ∧ S.pending = req :: S'.pending) :
    Exact writeBatchMemoize calls S' := by
  obtain ⟨done, pend, hex, hpend, hfr⟩ := h
  rcases hmove with ⟨he, hp⟩ | ⟨req, he, hp⟩
  · exact ⟨done, pend, he ▸ hex, hp ▸ hpend, hf ▸ hfr⟩
  · -- the oldest pending request joins those executed
    rw [hp] at hpend
    obtain ⟨m, pend', rfl, hm, hpend'⟩ := List.map_eq_cons_iff.mp hpend.symm
    obtain ⟨made, hcalls, hreq⟩ := hfr
    refine ⟨done ++ [m], pend', by rw [he, hex, List.map_append, List.map_singleton, hm],
      hpend'.symm, made, hf ▸ hcalls, by rw [hf, hreq]; simp⟩

theorem Prefix.of_same {calls : List Call} {S S' : System} (h : Prefix writeBatchMemoize calls S)
    (he : S'.executed = S.executed) (hf : S'.frontend = S.frontend) :
    Prefix writeBatchMemoize calls S' := by
  obtain ⟨done, hex, hfr⟩ := h
  exact ⟨done, he ▸ hex, hf ▸ hfr⟩

/-- **Every step of the writer keeps the invariant.** -/
theorem Inv.writer_step {calls : List Call} {S : System} (hI : Inv writeBatchMemoize calls S)
    {result : Except StoreError Unit} {q' : Queue} {w' : WriterTask} {done : List Request}
    (h : S.writer.step result S.queue = some (q', w', done)) :
    Inv writeBatchMemoize calls
      { S with queue := q', writer := w', executed := S.executed ++ done } := by
  obtain ⟨q, w, f, ex⟩ := S
  cases w with
  | idle =>
    -- `peek_with` marks the oldest request
    have hp := hI.not_poisoned nofun nofun
    rcases hqueue : q.queue with _ | ⟨r, rest⟩
    · simp [WriterTask.step, hqueue] at h
    simp only [WriterTask.step, hqueue, Option.some.injEq, Prod.mk.injEq] at h
    obtain ⟨rfl, rfl, rfl⟩ := h
    have hex : Exact writeBatchMemoize calls
        ⟨{ q with queue := r.startProcess :: rest }, .started, f, ex ++ []⟩ :=
      Exact.of_writer (hI.exact hp) rfl
        (.inl ⟨List.append_nil _, by simp [pending, WriterTask.pending, hqueue]⟩)
    refine ⟨fun x hx hc => ?_, fun x hx => hI.tail_unprocessed x (by rw [hqueue]; exact hx),
      ⟨_, rest, rfl, QueuedRequest.appendable_startProcess r⟩, nofun,
      fun h => absurd (hp ▸ h) (by simp), fun _ => hex, hex.prefix_, hI.not_closed⟩
    rcases List.mem_cons.mp hx with rfl | hx
    · exact QueuedRequest.closed_startProcess hc
    · exact hI.closed_processed x (by rw [hqueue]; exact List.mem_cons_of_mem _ hx) hc
  | started =>
    -- `execute` closes the batch of the oldest request, or executes a stop
    have hp := hI.not_poisoned nofun nofun
    obtain ⟨r, rest, hqueue, happ⟩ := hI.holds
    dsimp only at hqueue
    cases r with
    | write qb processed =>
      have hproc : processed = true := by
        cases processed
        · simp [QueuedRequest.appendable] at happ
        · rfl
      subst hproc
      rcases hclose : qb.close with ⟨qb', b⟩
      have hb : qb'.batch = b := by simpa [hclose] using QueuedBatch.batch_close qb
      have hbq : b = qb.batch := by simpa [hclose] using QueuedBatch.close_batch qb
      simp only [WriterTask.step, hqueue, hclose] at h
      have hclosed : ∀ x ∈ QueuedRequest.write qb' true :: rest, x.closed = true →
          x.processed = true := by
        intro x hx hc
        rcases List.mem_cons.mp hx with rfl | hx
        · rfl
        · exact hI.closed_processed x (by rw [hqueue]; exact List.mem_cons_of_mem _ hx) hc
      have htail : ∀ x ∈ (QueuedRequest.write qb' true :: rest).tail, x.processed = false :=
        fun x hx => hI.tail_unprocessed x (by rw [hqueue]; exact hx)
      -- the request keeps its batch, closed
      have hpending : (QueuedRequest.write qb' true :: rest).map QueuedRequest.request =
          q.queue.map QueuedRequest.request := by
        rw [hqueue]
        simp [QueuedRequest.request, hb, hbq]
      cases herr : b.error with
      | some err =>
        simp only [herr, Option.some.injEq, Prod.mk.injEq] at h
        obtain ⟨rfl, rfl, rfl⟩ := h
        have hex : Exact writeBatchMemoize calls
            ⟨{ q with queue := .write qb' true :: rest }, .failing err, f, ex ++ []⟩ :=
          Exact.of_writer (hI.exact hp) rfl (.inl ⟨List.append_nil _, hpending⟩)
        exact ⟨hclosed, htail, ⟨_, rest, rfl, rfl⟩, nofun, fun h => absurd (hp ▸ h) (by simp),
          fun _ => hex, hex.prefix_, hI.not_closed⟩
      | none =>
        simp only [herr, Option.some.injEq, Prod.mk.injEq] at h
        obtain ⟨rfl, rfl, rfl⟩ := h
        have hex : Exact writeBatchMemoize calls
            ⟨{ q with queue := .write qb' true :: rest }, .executing (.write b), f, ex ++ []⟩ :=
          Exact.of_writer (hI.exact hp) rfl (.inl ⟨List.append_nil _, hpending⟩)
        exact ⟨hclosed, htail, ⟨_, rest, rfl, rfl, by simp [QueuedRequest.request, hb]⟩, nofun,
          fun h => absurd (hp ▸ h) (by simp), fun _ => hex, hex.prefix_, hI.not_closed⟩
    | revertTo blockPtr processed =>
      simp only [WriterTask.step, hqueue, Option.some.injEq, Prod.mk.injEq] at h
      obtain ⟨rfl, rfl, rfl⟩ := h
      have hex : Exact writeBatchMemoize calls ⟨q, .executing (.revertTo blockPtr), f, ex ++ []⟩ :=
        Exact.of_writer (hI.exact hp) rfl (.inl ⟨List.append_nil _, rfl⟩)
      exact ⟨hI.closed_processed, hI.tail_unprocessed, ⟨_, rest, hqueue, happ, rfl⟩, nofun,
        fun h => absurd (hp ▸ h) (by simp), fun _ => hex, hex.prefix_, hI.not_closed⟩
    | stop =>
      simp only [WriterTask.step, hqueue, Option.some.injEq, Prod.mk.injEq] at h
      obtain ⟨rfl, rfl, rfl⟩ := h
      have hex : Exact writeBatchMemoize calls ⟨q, .popping true, f, ex ++ [.stop]⟩ :=
        Exact.of_writer (hI.exact hp) rfl (.inr ⟨.stop, rfl, by
          simp [pending, WriterTask.pending, hqueue, QueuedRequest.request]⟩)
      exact ⟨hI.closed_processed, hI.tail_unprocessed, ⟨_, rest, hqueue, happ⟩, nofun,
        fun h => absurd (hp ▸ h) (by simp), fun _ => hex, hex.prefix_, hI.not_closed⟩
  | executing request =>
    -- the store executes the oldest request, or fails
    have hp := hI.not_poisoned nofun nofun
    obtain ⟨r, rest, hqueue, happ, hreq⟩ := hI.holds
    dsimp only at hqueue
    cases result with
    | ok u =>
      simp only [WriterTask.step, Option.some.injEq, Prod.mk.injEq] at h
      obtain ⟨rfl, rfl, rfl⟩ := h
      have hex : Exact writeBatchMemoize calls ⟨q, .popping false, f, ex ++ [request]⟩ :=
        Exact.of_writer (hI.exact hp) rfl (.inr ⟨request, rfl, by
          simp [pending, WriterTask.pending, hqueue, hreq]⟩)
      exact ⟨hI.closed_processed, hI.tail_unprocessed, ⟨_, rest, hqueue, happ⟩, nofun,
        fun h => absurd (hp ▸ h) (by simp), fun _ => hex, hex.prefix_, hI.not_closed⟩
    | error e =>
      simp only [WriterTask.step, Option.some.injEq, Prod.mk.injEq] at h
      obtain ⟨rfl, rfl, rfl⟩ := h
      have hex : Exact writeBatchMemoize calls ⟨q, .failing e, f, ex ++ []⟩ :=
        Exact.of_writer (hI.exact hp) rfl (.inl ⟨List.append_nil _, rfl⟩)
      exact ⟨hI.closed_processed, hI.tail_unprocessed, ⟨_, rest, hqueue, happ⟩, nofun,
        fun h => absurd (hp ▸ h) (by simp), fun _ => hex, hex.prefix_, hI.not_closed⟩
  | popping stop =>
    -- the executed request leaves the queue
    have hp := hI.not_poisoned nofun nofun
    obtain ⟨r, rest, hqueue, -⟩ := hI.holds
    dsimp only at hqueue
    simp only [WriterTask.step, hqueue, Option.some.injEq, Prod.mk.injEq] at h
    obtain ⟨rfl, rfl, rfl⟩ := h
    have hrest : ∀ x ∈ rest, x.processed = false :=
      fun x hx => hI.tail_unprocessed x (by rw [hqueue]; exact hx)
    have hpending : WriterTask.pending rest (if stop then .stopped else .idle) =
        WriterTask.pending q.queue (.popping stop) := by
      cases stop <;> simp [WriterTask.pending, hqueue]
    have hex : Exact writeBatchMemoize calls
        ⟨{ q with queue := rest }, if stop then .stopped else .idle, f, ex ++ []⟩ :=
      Exact.of_writer (hI.exact hp) rfl (.inl ⟨List.append_nil _, hpending⟩)
    refine ⟨fun x hx => hI.closed_processed x (by rw [hqueue]; exact List.mem_cons_of_mem _ hx),
      fun x hx => hrest x (List.mem_of_mem_tail hx), ?_, ?_,
      fun h => absurd (hp ▸ h) (by simp), fun _ => hex, hex.prefix_, hI.not_closed⟩
    · cases stop
      · exact hrest
      · trivial
    · cases stop <;> nofun
  | failing e =>
    -- `record_err` stores the error
    have hp := hI.not_poisoned nofun nofun
    simp only [WriterTask.step, Option.some.injEq, Prod.mk.injEq] at h
    obtain ⟨rfl, rfl, rfl⟩ := h
    have hex : Exact writeBatchMemoize calls
        ⟨{ q with writeErr := some e }, .recording, f, ex ++ []⟩ :=
      Exact.of_writer (hI.exact hp) rfl (.inl ⟨List.append_nil _, rfl⟩)
    exact ⟨hI.closed_processed, hI.tail_unprocessed, hI.holds, nofun,
      fun h => absurd (hp ▸ h) (by simp), fun _ => hex, hex.prefix_, hI.not_closed⟩
  | recording =>
    -- `record_err` poisons the queue: from now on nothing more is executed
    have hp := hI.not_poisoned nofun nofun
    simp only [WriterTask.step, Option.some.injEq, Prod.mk.injEq] at h
    obtain ⟨rfl, rfl, rfl⟩ := h
    exact ⟨hI.closed_processed, hI.tail_unprocessed, trivial, fun _ => rfl, fun _ => .inl rfl,
      nofun, Prefix.of_same (hI.exact hp).prefix_ (List.append_nil _) rfl, hI.not_closed⟩
  | clearing =>
    -- `record_err` pops the requests one by one
    have hp : q.poisoned = true := hI.clearing_poisoned rfl
    have hprefix : ∀ q' w', Prefix writeBatchMemoize calls ⟨q', w', f, ex ++ []⟩ :=
      fun _ _ => Prefix.of_same hI.prefix_ (List.append_nil _) rfl
    rcases hqueue : q.queue with _ | ⟨r, rest⟩ <;>
      simp only [WriterTask.step, hqueue, Option.some.injEq, Prod.mk.injEq] at h <;>
      obtain ⟨rfl, rfl, rfl⟩ := h
    · exact ⟨hI.closed_processed, hI.tail_unprocessed, trivial, nofun, fun _ => .inr rfl,
        fun h => absurd (hp ▸ h) (by simp), hprefix _ _, hI.not_closed⟩
    · exact ⟨fun x hx => hI.closed_processed x (by rw [hqueue]; exact List.mem_cons_of_mem _ hx),
        fun x hx => hI.tail_unprocessed x (by rw [hqueue]; exact List.mem_of_mem_tail hx),
        trivial, fun _ => hp, fun _ => .inl rfl, fun h => absurd (hp ▸ h) (by simp),
        hprefix _ _, hI.not_closed⟩
  | stopped => cases h

/-- **Every step of either task keeps the invariant**, in every state it reaches. -/
theorem inv_reachable (calls : List Call) :
    Transition.Invariant (spec writeBatchMemoize calls) (Inv writeBatchMemoize calls) := by
  refine Transition.invariant_of_inductive (fun S hS => ?_) (fun S S' hI hnext => ?_)
    fun _ h => h
  · rw [hS]
    exact inv_init calls
  · obtain ⟨a, ha⟩ := hnext
    cases a with
    | frontend append =>
      obtain ⟨⟨q', f'⟩, hf, rfl⟩ := Option.map_eq_some_iff.mp ha
      exact hI.frontend_step hf
    | writer result =>
      obtain ⟨⟨q', w', done⟩, hw, rfl⟩ := Option.map_eq_some_iff.mp ha
      exact hI.writer_step hw

/-- **No request is lost, duplicated or reordered.** Over every interleaving of the frontend's
calls with the writer's steps, while no error has poisoned the queue, the requests of the
calls made so far – each write's batch, each revert, each stop, in the order of the calls –
are those the writer has had the store execute, then those pending in the queue, then the one
the frontend is handing over, or, once a call failed, the one that call never handed over;
the writer executes each run of consecutive writes that `push_write` merged as one request,
whose batch is `Batch::append` of theirs. -/
theorem handed_eq_executed_pending (calls : List Call) :
    Transition.Invariant (spec writeBatchMemoize calls) fun S => S.queue.poisoned = false →
      ∃ done pend : List Merged, S.executed = done.map (Merged.request writeBatchMemoize) ∧
        S.pending = pend.map (Merged.request writeBatchMemoize) ∧
        ∃ made, calls = made ++ S.frontend.remaining ∧
          made.flatMap Call.requests =
            (done ++ pend).flatMap Merged.parts ++ S.frontend.inflight :=
  (inv_reachable calls).mono fun _ hI hp => hI.exact hp

/-- **The writer executes the first requests of the calls, in order.** In every state, the
requests the writer has executed stand, merged, for the first requests of the calls the
frontend has made: none out of order, none twice. This holds after a call has failed, while
the writer goes on with the queue, and after an error of the store or of an append has
poisoned the queue and the writer has cleared it. -/
theorem executed_prefix_of_handed (calls : List Call) :
    Transition.Invariant (spec writeBatchMemoize calls) fun S =>
      ∃ done : List Merged, S.executed = done.map (Merged.request writeBatchMemoize) ∧
        ∃ made, calls = made ++ S.frontend.remaining ∧
          done.flatMap Merged.parts <+: made.flatMap Call.requests :=
  (inv_reachable calls).mono fun _ hI => hI.prefix_

/-- **`push_write` never appends to a closed batch.** Over every interleaving, every closed
batch in the queue belongs to a request the writer has marked processed, and the frontend
never fails with `attempt to append to closed batch`. -/
theorem pushWrite_never_closed (calls : List Call) :
    Transition.Invariant (spec writeBatchMemoize calls) fun S =>
      (∀ r ∈ S.queue.queue, r.closed = true → r.processed = true) ∧
        ∀ lost rest, S.frontend ≠ .failed .appendToClosedBatch lost rest :=
  (inv_reachable calls).mono fun _ hI => ⟨hI.closed_processed, hI.not_closed⟩

end System

end GraphNode
