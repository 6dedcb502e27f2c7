import Mathlib.Data.Finset.Card

/-!
# The asynchronous queue of a worker

An `AsyncFifoQueue` queues the values of promises in the order in which they resolve. A consumer
that finds nothing queued waits for `nextPromise`, which the next promise that settles settles in
turn. Promises are numbers, and the callbacks of a promise run some time after it has settled, in
any order; `World` has the queue, the callbacks that have not run yet and the consumer, and `step`
is what one of them does next.
-/

namespace BullMQ

/-- `AsyncFifoQueue`. A queued value is absent where the source queues `undefined` for an error. -/
structure AsyncFifoQueue (V : Type) where
  queue : List (Option V) := []
  /-- The promises that have been added and whose callbacks have not run. -/
  pending : Finset ℕ := ∅
  /-- The number of `nextPromise`: those before it have been settled. -/
  nextPromise : ℕ := 0

namespace AsyncFifoQueue

variable {V : Type}

def numTotal (q : AsyncFifoQueue V) : ℕ := q.pending.card + q.queue.length

def numPending (q : AsyncFifoQueue V) : ℕ := q.pending.card

def numQueued (q : AsyncFifoQueue V) : ℕ := q.queue.length

/-- `resolvePromise` and `rejectPromise`: settle `nextPromise` and take a new one. Whether it is
resolved or rejected, the consumer looks at the queue again. -/
def settlePromise (q : AsyncFifoQueue V) : AsyncFifoQueue V :=
  { q with nextPromise := q.nextPromise + 1 }

def push (data : Option V) (q : AsyncFifoQueue V) : AsyncFifoQueue V :=
  { q with queue := q.queue ++ [data] }

/-- `add`; the callbacks are in the world. -/
def add (promise : ℕ) (q : AsyncFifoQueue V) : AsyncFifoQueue V :=
  { q with pending := insert promise q.pending }

/-- The callback of a promise that has resolved. -/
def onResolved (promise : ℕ) (data : V) (q : AsyncFifoQueue V) : AsyncFifoQueue V :=
  let q := { q with pending := q.pending.erase promise }
  let q := if q.queue.length = 0 then q.settlePromise else q
  q.push (some data)

/-- The callback of a promise that has been rejected. -/
def onRejected (ignoreErrors : Bool) (promise : ℕ) (q : AsyncFifoQueue V) : AsyncFifoQueue V :=
  let q := if ignoreErrors then q.push none else q
  let q := { q with pending := q.pending.erase promise }
  q.settlePromise

end AsyncFifoQueue

/-- What a call of `fetch` returns: nothing, or what it has taken from the queue. -/
inductive Fetched (V : Type)
  | nothing
  | value (data : Option V)
  deriving DecidableEq, Repr

/-- The consumer is not in `fetch`, or waits in it for a `nextPromise`. -/
inductive Consumer
  | idle
  | waiting (promise : ℕ)
  deriving DecidableEq, Repr

/-- The queue, the callbacks that have not run, the consumer, and what it has fetched. -/
structure World (V : Type) where
  fifo : AsyncFifoQueue V := {}
  callbacks : List ℕ := []
  consumer : Consumer := .idle
  fetched : List (Fetched V) := []

/-- What can happen. -/
inductive FifoAction
  | add (promise : ℕ)
  | settle (promise : ℕ)
  | fetch
  /-- The consumer goes on after its `await`. -/
  | resume
  deriving DecidableEq, Repr

namespace World

variable {V : Type}

/-- The loop of `fetch`: take the first value, or wait. -/
def fetchLoop (w : World V) : World V :=
  match w.fifo.queue with
  | [] => { w with consumer := .waiting w.fifo.nextPromise }
  | data :: queue =>
    { w with
      fifo := { w.fifo with queue }
      consumer := .idle
      fetched := w.fetched ++ [.value data] }

/-- `fetch`. -/
def fetch (w : World V) : World V :=
  if w.fifo.pending.card = 0 ∧ w.fifo.queue.length = 0 then
    { w with fetched := w.fetched ++ [.nothing] }
  else w.fetchLoop

/-- One step. A promise resolves to its outcome, or is rejected if it has none. -/
def step (outcome : ℕ → Option V) (ignoreErrors : Bool) : FifoAction → World V → Option (World V)
  | .add promise, w =>
    some { w with fifo := w.fifo.add promise, callbacks := w.callbacks ++ [promise] }
  | .settle promise, w =>
    if promise ∈ w.callbacks then
      some { w with
        fifo :=
          match outcome promise with
          | some data => w.fifo.onResolved promise data
          | none => w.fifo.onRejected ignoreErrors promise
        callbacks := w.callbacks.erase promise }
    else none
  | .fetch, w => if w.consumer = .idle then some w.fetch else none
  | .resume, w =>
    match w.consumer with
    | .waiting promise => if promise < w.fifo.nextPromise then some w.fetchLoop else none
    | .idle => none

/-- Steps from a world on, or nothing if one of them cannot happen. -/
def run (outcome : ℕ → Option V) (ignoreErrors : Bool) (actions : List FifoAction) (w : World V) :
    Option (World V) :=
  actions.foldlM (fun w action => step outcome ignoreErrors action w) w

end World

end BullMQ
