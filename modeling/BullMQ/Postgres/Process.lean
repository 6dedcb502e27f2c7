import Mathlib.Data.Int.ConditionallyCompleteOrder
import Mathlib.Data.List.MinMax
import Mathlib.Data.List.Sort
import Mathlib.Data.Prod.Lex
import Mathlib.Order.WithBot
import BullMQ.Postgres.Add

/-!
# Processing jobs in PostgreSQL

The functions a worker calls: it claims the next job (`moveToActive`), keeps its lock
(`extendLock`), and ends the activation (`moveToCompleted`, `moveToFailed`, `moveToDelayed`,
`retryJob`, `moveActiveToWait`, `moveToWaitingChildren`). `moveStalledJobsToWait` takes back jobs
whose worker is gone. A function that raises an exception returns the error code.
-/

namespace BullMQ.Postgres

open Sql

/-! ### Rate limits -/

/-- `rate_limit_effective`. -/
def rateLimitEffective (queue : String) (limiterMax : Option ℤ) (now : ℤ) (db : Db) : ℤ :=
  match (db.queueMeta queue).max.or limiterMax with
  | none => 0
  | some max =>
    match db.rateLimit queue with
    | none => 0
    | some row =>
      if row.expireAt ≤ now then 0 else if max ≤ row.points then row.expireAt - now else 0

/-- `rate_limit_consume`. -/
def rateLimitConsume (queue : String) (duration now : ℤ) (db : Db) : Db :=
  let row : RateLimitRow :=
    match db.rateLimit queue with
    | none => ⟨1, now + duration⟩
    | some row => if row.expireAt ≤ now then ⟨1, now + duration⟩ else ⟨row.points + 1, row.expireAt⟩
  { db with rateLimit := Function.update db.rateLimit queue (some row) }

/-- `set_rate_limit`. -/
def setRateLimit (queue : String) (expire now : ℤ) (db : Db) : Db :=
  { db with
    rateLimit := Function.update db.rateLimit queue (some ⟨9007199254740991, now + expire⟩) }

/-! ### Claims -/

/-- The jobs of a queue in a state. -/
def Db.inState (db : Db) (queue : String) (state : JobState) : List (JobKey × JobRow) :=
  db.job.select fun k row => decide (k.queue = queue) && decide (row.state = state)

/-- Whether a delayed job of a queue is due. -/
def dueIn (queue : String) (now : ℤ) (k : JobKey) (row : JobRow) : Bool :=
  decide (k.queue = queue) && decide (row.state = .delayed) &&
    row.processAt.any fun processAt => decide (processAt ≤ now)

/-- Turn delayed jobs that are due into waiting ones. -/
def promoteDue (queue : String) (now : ℤ) (db : Db) : Db :=
  let ids := (db.job.select (dueIn queue now)).map fun r => r.1.id
  let db := db.updateJobs (dueIn queue now) fun row => { row with state := .waiting, delay := 0 }
  ids.foldl (fun db id => publishEvent queue (.waiting id (some "delayed")) db) db

/-- `ORDER BY` with `LIMIT 1`: a row that is first by the value of `f`. -/
def firstBy {α β : Type} [LinearOrder β] (f : α → β) (rows : List α) : Option α := rows.argmin f

/-- The next job to claim: the waiting one that is first by priority and position. -/
def Db.nextWaiting (db : Db) (queue : String) : Option (JobKey × JobRow) :=
  firstBy (fun r => toLex (r.2.priority, r.2.seq)) (db.inState queue .waiting)

/-- A claim: the row of a job that a worker starts. -/
def JobRow.claim (row : JobRow) (token : String) (lockMs now : ℤ) (name : Option String) : JobRow :=
  { row with
    state := .active
    lockToken := some token
    lockedUntil := some (now + lockMs)
    processedAt := some now
    processedBy := name
    attemptsStarted := row.attemptsStarted + 1 }

/-- The arguments of a claim. -/
structure ClaimArgs where
  token : String
  lockMs : ℤ
  now : ℤ
  name : Option String := none
  limiterMax : Option ℤ := none
  limiterDuration : Option ℤ := none
  deriving DecidableEq, Repr

/-- Whether a queue has as many active jobs as it may have. -/
def Db.maxed (db : Db) (queue : String) : Bool :=
  (db.queueMeta queue).concurrency.any fun concurrency =>
    decide (concurrency ≤ ((db.inState queue .active).length : ℤ))

/-- Consume a token of the limiter that applies, if any does. -/
def consumeToken (queue : String) (args : ClaimArgs) (db : Db) : Db :=
  match (db.queueMeta queue).max.or args.limiterMax with
  | none => db
  | some _ =>
    match args.limiterDuration.or (db.queueMeta queue).duration with
    | none => db
    | some duration => rateLimitConsume queue duration args.now db

/-- `move_to_active`: the id of the job that was claimed, if one was. -/
def moveToActive (queue : String) (args : ClaimArgs) (db : Db) : Option String × Db :=
  let db := promoteDue queue args.now db
  if (db.queueMeta queue).paused then (none, db)
  else if db.maxed queue then (none, db)
  else if 0 < rateLimitEffective queue args.limiterMax args.now db then (none, db)
  else
    match db.nextWaiting queue with
    | none => (none, db)
    | some (k, _) =>
      let db := consumeToken queue args db
      let db := db.updateJob k fun row => row.claim args.token args.lockMs args.now args.name
      (some k.id, publishEvent queue (.active k.id "waiting") db)

/-- `extend_lock`: whether the lock was still held. -/
def extendLock (k : JobKey) (token : String) (lockMs now : ℤ) (db : Db) : Bool × Db :=
  let held (row : JobRow) : Bool :=
    decide (row.state = .active) && decide (row.lockToken = some token)
  ((db.job.find k).any held,
    db.updateJobs (fun k' row => decide (k' = k) && held row) fun row =>
      { row with lockedUntil := some (now + lockMs) })

/-! ### Checks -/

/-- The checks before an active job is moved: it exists, is active, and the token holds its lock. -/
def Db.heldJob (db : Db) (k : JobKey) (token : String) : Except ℤ JobRow :=
  match db.job.find k with
  | none => .error (-1)
  | some row =>
    if row.state ≠ .active then .error (-3)
    else if token ≠ "0" ∧ row.lockToken ≠ some token then .error (-6)
    else .ok row

/-- Whether a job has a dependency in a status. -/
def Db.hasDep (db : Db) (parent : JobKey) (status : DepStatus) : Bool :=
  db.dependency.rows.any fun r => decide (r.1.1 = parent) && decide (r.2.status = status)

/-! ### Retention -/

/-- Which finished jobs are kept. -/
structure KeepJobs where
  removeAll : Bool := false
  age : Option ℤ := none
  count : Option ℤ := none
  deriving DecidableEq, Repr

/-- The order of finished jobs; one without a time of its own comes last. -/
def JobRow.finishOrder (row : JobRow) : WithTop ℤ ×ₗ ℤ :=
  toLex (row.finishedAt.elim ⊤ fun finishedAt => (finishedAt : WithTop ℤ), row.seq)

/-- The jobs of a queue in a state, the last finished ones first. -/
def Db.lastFinished (db : Db) (queue : String) (state : JobState) : List (JobKey × JobRow) :=
  (db.inState queue state).insertionSort fun a b => b.2.finishOrder ≤ a.2.finishOrder

/-- `apply_retention`. -/
def applyRetention (k : JobKey) (state : JobState) (now : ℤ) (keep : KeepJobs) (db : Db) : Db :=
  if keep.removeAll then
    let db :=
      match (db.job.find k).bind JobRow.parent with
      | none => db
      | some parent => detachPending k parent now db
    db.deleteJob k
  else
    let db :=
      match keep.age with
      | none => db
      | some age =>
        if 0 ≤ age then
          db.deleteJobs fun k' row =>
            decide (k'.queue = k.queue) && decide (row.state = state) &&
              row.finishedAt.any fun finishedAt => decide (finishedAt ≤ now - age * 1000)
        else db
    match keep.count with
    | none => db
    | some count =>
      if 0 ≤ count then
        let kept := ((db.lastFinished k.queue state).take count.toNat).map fun r => r.1.id
        db.deleteJobs fun k' row =>
          decide (k'.queue = k.queue) && decide (row.state = state) && decide (k'.id ∉ kept)
      else db

/-! ### Ends of an activation -/

/-- Announce that nothing is left to run. -/
def announceDrained (queue : String) (db : Db) : Db :=
  if db.inState queue .active = [] ∧
      ((db.queueMeta queue).paused ∨ db.inState queue .waiting = []) then
    publishEvent queue .drained db
  else db

/-- The row of a job that gives up its lock. -/
def JobRow.unlock (row : JobRow) (state : JobState) : JobRow :=
  { row with state := state, lockToken := none, lockedUntil := none }

/-- What follows when a job has finished: retention, then the deduplication key and its successor.
-/
def finishJob (k : JobKey) (dedupId : Option String) (state : JobState) (now : ℤ) (keep : KeepJobs)
    (db : Db) : Db :=
  let db := applyRetention k state now keep db
  let db := dedupFinalize k.queue dedupId k.id now db
  let db := requeueDedupNext k.queue dedupId now db
  announceDrained k.queue db

/-- Account for a completed child with its parent. -/
def processDependency (child : JobKey) (parent : Option JobKey) (value : Option String) (now : ℤ)
    (db : Db) : Db :=
  match parent with
  | none => db
  | some parent =>
    settleDependency parent now
      { db with dependency := db.dependency.updateKey (parent, child) fun _ => ⟨.processed, value⟩ }

/-- `move_to_completed`. -/
def moveToCompleted (k : JobKey) (token : String) (returnValue : Option String) (finishedOn : ℤ)
    (keep : KeepJobs) (db : Db) : Except ℤ Db :=
  match db.heldJob k token with
  | .error code => .error code
  | .ok row =>
    if db.hasDep k .pending then .error (-4)
    else if db.hasDep k .failed then .error (-9)
    else
      let db := db.updateJob k fun row =>
        { row.unlock .completed with
          returnValue := returnValue
          finishedAt := some finishedOn
          attemptsMade := row.attemptsMade + 1 }
      let db := publishEvent k.queue
        (.finished .completed k.id (returnValue.getD "null") "active") db
      let db := processDependency k row.parent returnValue finishedOn db
      .ok (finishJob k row.dedupId .completed finishedOn keep db)

/-- `move_to_failed`. -/
def moveToFailed (k : JobKey) (token failedReason : String) (stacktrace : Option String)
    (finishedOn : ℤ) (keep : KeepJobs) (db : Db) : Except ℤ Db :=
  match db.heldJob k token with
  | .error code => .error code
  | .ok row =>
    let db := db.updateJob k fun row =>
      { row.unlock .failed with
        failedReason := some failedReason
        stacktrace := stacktrace.or row.stacktrace
        finishedAt := some finishedOn
        deferredFailure := none
        attemptsMade := row.attemptsMade + 1 }
    let db := publishEvent k.queue (.finished .failed k.id failedReason "active") db
    let db := publishEvent k.queue (.retriesExhausted k.id (row.attemptsMade + 1)) db
    let db := handleChildFailure k failedReason finishedOn db
    .ok (finishJob k row.dedupId .failed finishedOn keep db)

/-- `move_to_delayed`. -/
def moveToDelayed (k : JobKey) (token : String) (processAt delay : ℤ) (skipAttempt : Bool)
    (failedReason stacktrace : Option String) (db : Db) : Except ℤ Db :=
  match db.heldJob k token with
  | .error code => .error code
  | .ok _ =>
    let db := db.updateJob k fun row =>
      { row.unlock .delayed with
        processAt := some processAt
        delay := delay
        failedReason := failedReason.or row.failedReason
        stacktrace := stacktrace.or row.stacktrace
        attemptsMade := if skipAttempt then row.attemptsMade else row.attemptsMade + 1 }
    .ok (publishEvent k.queue (.delayed k.id processAt) db)

/-- `retry_job`. -/
def retryJob (k : JobKey) (token : String) (lifo : Bool) (failedReason stacktrace : Option String)
    (db : Db) : Except ℤ Db :=
  match db.heldJob k token with
  | .error code => .error code
  | .ok _ =>
    let (seq, db) := db.nextJobSeq
    let db := db.updateJob k fun row =>
      { row.unlock .waiting with
        seq := if lifo then -seq else seq
        processAt := none
        failedReason := failedReason.or row.failedReason
        stacktrace := stacktrace.or row.stacktrace
        attemptsMade := row.attemptsMade + 1 }
    .ok (publishEvent k.queue (.waiting k.id (some "active")) db)

/-- `move_active_to_wait`: the remaining window of the limiter, or -1 if there is no such job. -/
def moveActiveToWait (k : JobKey) (token : String) (now : ℤ) (db : Db) : ℤ × Db :=
  match db.job.find k with
  | none => (-1, db)
  | some row =>
    let db :=
      if row.state = .active ∧ (token = "0" ∨ row.lockToken = some token) then
        let (seq, db) := db.nextJobSeq
        let db := db.updateJob k fun row =>
          { row.unlock .waiting with seq := if 0 < row.priority then -seq else seq }
        publishEvent k.queue (.waiting k.id (some "active")) db
      else db
    match db.rateLimit k.queue with
    | none => (0, db)
    | some row => (if now < row.expireAt then row.expireAt - now else 0, db)

/-- `move_to_waiting_children`: whether the job waits now. -/
def moveToWaitingChildren (k : JobKey) (token : String) (db : Db) : Except ℤ (Bool × Db) :=
  match db.job.find k with
  | none => .error (-1)
  | some row =>
    if db.hasDep k .failed then .error (-9)
    else if token ≠ "0" ∧ row.lockToken = none then .error (-2)
    else if token ≠ "0" ∧ row.lockToken ≠ some token then .error (-6)
    else if row.state ≠ .active then .error (-3)
    else if 0 < row.pendingDeps then
      .ok (true, db.updateJob k fun row => row.unlock .waitingChildren)
    else .ok (false, db)

/-- `move_to_completed_fetch`. -/
def moveToCompletedFetch (k : JobKey) (returnValue : Option String) (finishedOn : ℤ)
    (keep : KeepJobs) (args : ClaimArgs) (db : Db) : Except ℤ (Option String × Db) :=
  (moveToCompleted k args.token returnValue finishedOn keep db).map (moveToActive k.queue args)

/-- `move_to_failed_fetch`. -/
def moveToFailedFetch (k : JobKey) (failedReason : String) (stacktrace : Option String)
    (finishedOn : ℤ) (keep : KeepJobs) (args : ClaimArgs) (db : Db) :
    Except ℤ (Option String × Db) :=
  (moveToFailed k args.token failedReason stacktrace finishedOn keep db).map
    (moveToActive k.queue args)

/-! ### Stalled jobs -/

/-- Whether a pass over stalled jobs is throttled. -/
def Db.stalledThrottled (db : Db) (queue : String) (now maxCheckTime : ℤ) : Bool :=
  (db.queueMeta queue).stalledCheck.any fun last => decide (now < last + maxCheckTime)

/-- Whether a pass takes back a job: it was marked on an earlier pass, and its lock has expired. -/
def reclaims (queue : String) (now : ℤ) (k : JobKey) (row : JobRow) : Bool :=
  decide (k.queue = queue) && decide (row.state = .active) && row.stalledMarked &&
    row.lockedUntil.any fun lockedUntil => decide (lockedUntil < now)

/-- One round of the loop over the jobs to take back. -/
def reclaimJob (maxStalled : ℤ) (db : Db) (r : JobKey × JobRow) : Db :=
  let repeatable := r.2.schedulerId.any fun schedulerId =>
    (db.scheduler.find (r.1.queue, schedulerId)).isSome
  let count := r.2.stalledCount + 1
  let (seq, db) := db.nextJobSeq
  let db := db.updateJob r.1 fun row =>
    { row.unlock .waiting with
      stalledMarked := false
      stalledCount := count
      seq := seq
      deferredFailure :=
        if maxStalled < count ∧ ¬ repeatable then some "job stalled more than allowable limit"
        else row.deferredFailure }
  publishEvent r.1.queue (.stalled r.1.id) db

/-- `move_stalled_jobs_to_wait`: the ids of the jobs that were taken back. -/
def moveStalledJobsToWait (queue : String) (maxStalled now maxCheckTime : ℤ) (db : Db) :
    List String × Db :=
  if db.stalledThrottled queue now maxCheckTime then ([], db)
  else
    let queueMeta := { db.queueMeta queue with stalledCheck := some now }
    let db := { db with queueMeta := Function.update db.queueMeta queue queueMeta }
    let stalled := db.job.select (reclaims queue now)
    let db := stalled.foldl (reclaimJob maxStalled) db
    let db := db.updateJobs (fun k row => decide (k.queue = queue) && row.stalledMarked) fun row =>
      { row with stalledMarked := false }
    let db := db.updateJobs (fun k row => decide (k.queue = queue) && decide (row.state = .active))
      fun row => { row with stalledMarked := true }
    (stalled.map fun r => r.1.id, db)

end BullMQ.Postgres
