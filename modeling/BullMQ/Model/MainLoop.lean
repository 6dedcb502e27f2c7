import BullMQ.Model.AsyncFifoQueue

/-!
# The main loop of a worker

`mainLoop` fetches jobs one after the other while it has room for them, queues the promises of the
fetches and of the processors in one `AsyncFifoQueue`, and takes from it what to process next: a
fetched job, or the job that a processor got together with the completion of its own. `MainLoop` is
what the loop works on, and `resume` runs it from one `await` to the next. In between, promises
settle, and the rest of the worker changes the flags that the loop reads.

The promises of the queue never reject. That of a fetch is one of `retryIfFailed`, which tries again
on an error of the connection, emits any other one and resolves to nothing then (`onlyEmitError`);
so does the call of `processJob` that catches what its others throw. The concurrency is that of the
start of the loop: its setter is not modelled.
-/

namespace BullMQ

/-- What a promise in the queue is for: `_getNextJob` with a token, or `processJob`. -/
inductive Task (J : Type)
  | getNextJob (tokenPostfix : ℕ)
  | processJob (job : J)

/-- The flags of a worker that its main loop reads. -/
structure WorkerFlags where
  closing : Bool := false
  paused : Bool := false
  /-- Whether a call of `waitForJob` is going on. -/
  waiting : Bool := false
  drained : Bool := false
  /-- Whether `limitUntil` is set, and whether it lies ahead. -/
  limitUntil : Bool := false
  isRateLimited : Bool := false
  /-- Whether `blockUntil` is set. -/
  blockUntil : Bool := false
  deriving DecidableEq, Repr

/-- The `await` that the loop has come to. -/
inductive Await (J : Type)
  /-- `await fetchedJob`, with the value once it is there. -/
  | fetchedJob (promise : ℕ) (value : Option (Option J))
  /-- In `asyncFifoQueue.fetch`, for a `nextPromise`. -/
  | nextPromise (promise : ℕ)
  /-- `await asyncFifoQueue.fetch()`, which has its value. -/
  | job (job : Option J)
  /-- `await waitForRateLimit()`, with or without a delay. -/
  | rateLimit (delayed : Bool)
  /-- None: the loop has ended. -/
  | ended
  deriving DecidableEq, Repr

/-- The main loop with its queue. Promises are numbered in the order in which they are made. -/
structure MainLoop (J : Type) where
  fifo : AsyncFifoQueue (Option J) := {}
  tasks : List (Task J) := []
  tokenPostfix : ℕ := 0
  flags : WorkerFlags := {}
  await : Await J := .ended
  /-- The jobs that the promises have resolved to so far. -/
  handed : List J := []

/-- The value of a promise reaches the loop if it awaits that promise. -/
def Await.settle {J : Type} (promise : ℕ) (value : Option J) : Await J → Await J
  | .fetchedJob fetched none =>
    .fetchedJob fetched (if fetched = promise then some value else none)
  | await => await

namespace MainLoop

variable {J : Type}

/-- Queue the promise of a task. -/
def add (task : Task J) (m : MainLoop J) : MainLoop J :=
  { m with fifo := m.fifo.add m.tasks.length, tasks := m.tasks ++ [task] }

/-- The loop of `asyncFifoQueue.fetch`. -/
def fetchLoop (m : MainLoop J) : MainLoop J :=
  match m.fifo.queue with
  | [] => { m with await := .nextPromise m.fifo.nextPromise }
  | value :: queue => { m with fifo := { m.fifo with queue }, await := .job value.join }

/-- `asyncFifoQueue.fetch`. -/
def fetch (m : MainLoop J) : MainLoop J :=
  if m.fifo.numPending = 0 ∧ m.fifo.numQueued = 0 then { m with await := .job none }
  else m.fetchLoop

/-- Whether a call of `_getNextJob` begins to wait for a job. -/
def waitsForJob (flags : WorkerFlags) : Bool :=
  flags.drained && !flags.limitUntil && !flags.waiting

/-- The inner loop up to its first `await`, or what follows it. -/
def innerLoop (concurrency : ℕ) (m : MainLoop J) : MainLoop J :=
  if ¬ m.flags.closing ∧ ¬ m.flags.paused ∧ ¬ m.flags.waiting ∧ m.fifo.numTotal < concurrency ∧
      ¬ m.flags.isRateLimited then
    let promise := m.tasks.length
    let flags := { m.flags with waiting := m.flags.waiting || waitsForJob m.flags }
    let m : MainLoop J :=
      { m.add (.getNextJob m.tokenPostfix) with tokenPostfix := m.tokenPostfix + 1, flags }
    if m.flags.waiting ∧ 1 < m.fifo.numTotal then m.fetch
    else { m with await := .fetchedJob promise none }
  else m.fetch

/-- The outer loop, from its condition on. -/
def outerLoop (concurrency : ℕ) (m : MainLoop J) : MainLoop J :=
  if ¬ m.flags.closing ∧ ¬ m.flags.paused ∨ 0 < m.fifo.numTotal then m.innerLoop concurrency
  else { m with await := .ended }

/-- Run the loop from the `await` that it is at to the next, if it can go on. -/
def resume (concurrency : ℕ) (m : MainLoop J) : Option (MainLoop J) :=
  match m.await with
  | .fetchedJob _ none => none
  | .fetchedJob _ (some job) =>
    -- No more jobs waiting but we have others that could start processing already.
    if job.isNone ∧ 1 < m.fifo.numTotal then some m.fetch
    else if m.flags.blockUntil then some m.fetch
    else some (m.innerLoop concurrency)
  | .nextPromise promise => if promise < m.fifo.nextPromise then some m.fetchLoop else none
  | .job job =>
    if job.isNone ∧ 0 < m.fifo.numQueued then some m.fetch
    else
      match job with
      | some job => some ((m.add (.processJob job)).outerLoop concurrency)
      | none => some { m with await := .rateLimit m.flags.isRateLimited }
  | .rateLimit delayed =>
    let flags :=
      if delayed then { m.flags with drained := false, limitUntil := false, isRateLimited := false }
      else m.flags
    some ({ m with flags }.outerLoop concurrency)
  | .ended => none

/-- The callbacks of a promise that has resolved: that of the queue, and the loop, if it waits. -/
def settle (promise : ℕ) (value : Option J) (m : MainLoop J) : Option (MainLoop J) :=
  if promise ∈ m.fifo.pending then
    some { m with
      fifo := m.fifo.onResolved promise value
      await := m.await.settle promise value
      handed := m.handed ++ value.toList }
  else none

end MainLoop

/-- What can happen. -/
inductive LoopAction (J : Type)
  | settle (promise : ℕ) (value : Option J)
  | setFlags (flags : WorkerFlags)
  | resume

/-- One step. -/
def MainLoop.step {J : Type} (concurrency : ℕ) :
    LoopAction J → MainLoop J → Option (MainLoop J)
  | .settle promise value, m => m.settle promise value
  | .setFlags flags, m => some { m with flags }
  | .resume, m => m.resume concurrency

/-- A new main loop, up to its first `await`. -/
def MainLoop.start {J : Type} (concurrency : ℕ) (flags : WorkerFlags) : MainLoop J :=
  outerLoop concurrency { flags }

/-- Steps from a main loop on, or nothing if one of them cannot happen. -/
def MainLoop.run {J : Type} (concurrency : ℕ) (actions : List (LoopAction J)) (m : MainLoop J) :
    Option (MainLoop J) :=
  actions.foldlM (fun m action => step concurrency action m) m

end BullMQ
