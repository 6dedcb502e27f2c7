import BullMQ.Postgres.Process

/-!
# Administration of queues in PostgreSQL

What a client does to the jobs of a queue outside of their processing: pausing, draining, removing
and cleaning, retrying and promoting in bulk or one at a time, changes of delay and priority, and
the destruction of a queue. The time that `remove` reads from the clock is an argument.
-/

namespace BullMQ.Postgres

open Sql

/-- The state of a job that finished. -/
def finishedState : FinishedStatus → JobState
  | .completed => .completed
  | .failed => .failed

/-- `pause`. -/
def pause (queue : String) (paused : Bool) (db : Db) : Db :=
  let queueMeta := { db.queueMeta queue with paused := paused }
  let db := { db with queueMeta := Function.update db.queueMeta queue queueMeta }
  publishEvent queue (if paused then .paused else .resumed) db

/-! ### Parents of swept jobs -/

/-- The number of pending dependencies of a job. -/
def Db.pendingCount (db : Db) (parent : JobKey) : ℕ :=
  (db.dependency.select fun d row => decide (d.1 = parent) && decide (row.status = .pending)).length

/-- Count the pending children of a parent again. One that waits for children and has none left is
deleted with the queue that is swept, or goes back to waiting in its own. -/
def recountParent (queue : String) (db : Db) (parent : JobKey) : Db :=
  let count := db.pendingCount parent
  let db := db.updateJob parent fun row => { row with pendingDeps := count }
  if (db.job.find parent).any fun row =>
      decide (row.state = .waitingChildren) && decide (row.pendingDeps = 0) then
    if parent.queue = queue then db.deleteJob parent
    else
      let (seq, db) := db.nextJobSeq
      let db := db.updateJob parent fun row => { row with state := .waiting, seq := seq }
      publishEvent parent.queue (.waiting parent.id (some "waiting-children")) db
  else db

/-- The distinct parents of the jobs that meet a condition. -/
def Db.parentsOf (db : Db) (cond : JobKey → JobRow → Bool) : List JobKey :=
  ((db.job.select cond).filterMap fun r => r.2.parent).dedup

/-! ### Drain -/

/-- Whether `drain` deletes a job. -/
def drains (queue : String) (delayed : Bool) (k : JobKey) (row : JobRow) : Bool :=
  decide (k.queue = queue) && row.schedulerId.isNone &&
    (decide (row.state = .waiting) || delayed && decide (row.state = .delayed))

/-- `drain`. -/
def drain (queue : String) (delayed : Bool) (db : Db) : Db :=
  let parents := db.parentsOf (drains queue delayed)
  let job := db.job
  let db := { db with dependency := db.dependency.delete fun d _ =>
    (job.find d.2).any fun row => drains queue delayed d.2 row && decide (row.parent = some d.1) }
  let db := db.deleteJobs (drains queue delayed)
  parents.foldl (recountParent queue) db

/-! ### Removal -/

/-- Whether a worker holds the lock of a job. -/
def JobRow.locked (row : JobRow) (now : ℤ) : Bool :=
  row.lockToken.isSome && row.lockedUntil.any fun lockedUntil => decide (now < lockedUntil)

/-- The children of a job whose dependency is pending. -/
def Db.pendingChildren (db : Db) (k : JobKey) : List JobKey :=
  (db.dependency.select fun d row => decide (d.1 = k) && decide (row.status = .pending)).map
    fun r => r.1.2

/-- The jobs whose parent is a job. -/
def Db.childrenOf (db : Db) (k : JobKey) : List JobKey :=
  (db.job.select fun _ row => decide (row.parent = some k)).map Prod.fst

/-- The jobs whose locks `remove` checks. -/
def Db.lockTree (db : Db) (k : JobKey) (removeChildren : Bool) : List JobKey :=
  if removeChildren then closure db.pendingChildren (db.dependency.rows.length + 1) [k] [k] else [k]

/-- The jobs that `remove` deletes. -/
def Db.removeTree (db : Db) (k : JobKey) (removeChildren : Bool) : List JobKey :=
  if removeChildren then closure db.childrenOf (db.job.rows.length + 1) [k] [k] else [k]

/-- Delete a job and its deduplication key, which is read before. -/
def removeOne (dedupId : JobKey → Option String) (db : Db) (k : JobKey) : Db :=
  (dedupOnRemoval k.queue k.id (dedupId k) db).deleteJob k

/-- `remove`: the number of jobs that were deleted. -/
def remove (k : JobKey) (removeChildren : Bool) (now : ℤ) (db : Db) : Except ℤ (ℕ × Db) :=
  match db.job.find k with
  | none => .ok (0, db)
  | some row =>
    if row.schedulerId.isSome then .error (-8)
    else if (db.lockTree k removeChildren).any fun k' =>
        (db.job.find k').any fun row => row.locked now then .ok (0, db)
    else
      let db :=
        match row.parent with
        | none => db
        | some parent => detachPending k parent now db
      let tree := db.removeTree k removeChildren
      let dedupId (k' : JobKey) : Option String := (db.job.find k').bind JobRow.dedupId
      .ok (tree.length, tree.foldl (removeOne dedupId) db)

/-! ### Clean -/

/-- The types of jobs that can be cleaned. -/
inductive CleanType
  | completed
  | failed
  | delayed
  | prioritized
  | wait
  | active
  deriving DecidableEq, Repr

/-- Whether `clean` may delete a job. -/
def cleans (queue : String) (type : CleanType) (ts : ℤ) (k : JobKey) (row : JobRow) : Bool :=
  decide (k.queue = queue) &&
    match type with
    | .completed =>
      decide (row.state = .completed) && row.finishedAt.any fun t => decide (t ≤ ts)
    | .failed => decide (row.state = .failed) && row.finishedAt.any fun t => decide (t ≤ ts)
    | .delayed =>
      decide (row.state = .delayed) && decide (row.addedAt ≤ ts) && row.schedulerId.isNone
    | .prioritized =>
      decide (row.state = .waiting) && decide (0 < row.priority) && decide (row.addedAt ≤ ts) &&
        row.schedulerId.isNone
    | .wait =>
      decide (row.state = .waiting) && decide (row.priority = 0) && decide (row.addedAt ≤ ts) &&
        row.schedulerId.isNone
    | .active =>
      decide (row.state = .active) && decide (row.addedAt ≤ ts) && row.schedulerId.isNone

/-- The jobs that `clean` deletes: the first ones by position, up to a limit above zero. -/
def Db.cleaned (db : Db) (queue : String) (type : CleanType) (ts limit : ℤ) : List JobKey :=
  let rows := (db.job.select (cleans queue type ts)).insertionSort fun a b => a.2.seq ≤ b.2.seq
  (if 0 < limit then rows.take limit.toNat else rows).map Prod.fst

/-- `clean`: the ids of the jobs that were deleted. -/
def clean (queue : String) (type : CleanType) (ts limit : ℤ) (db : Db) : List String × Db :=
  let keys := db.cleaned queue type ts limit
  if keys = [] then ([], db)
  else
    let parents := db.parentsOf fun k _ => decide (k ∈ keys)
    let db := { db with dependency := db.dependency.delete fun d _ => decide (d.2 ∈ keys) }
    let db := db.deleteJobs fun k _ => decide (k ∈ keys)
    let db := parents.foldl (recountParent queue) db
    (keys.map JobKey.id, publishEvent queue (.cleaned keys.length) db)

/-! ### Retries and promotions -/

/-- Give each of some jobs a new position and change its row otherwise. -/
def requeueAll (keys : List JobKey) (f : JobRow → JobRow) (db : Db) : Db :=
  keys.foldl
    (fun db k =>
      let (seq, db) := db.nextJobSeq
      db.updateJob k fun row => { f row with seq := seq })
    db

/-- The row of a finished job that is retried with others. -/
def JobRow.reset (row : JobRow) : JobRow :=
  { row.unlock .waiting with
    finishedAt := none
    processedAt := none
    returnValue := none
    failedReason := none
    stacktrace := none
    attemptsMade := 0
    attemptsStarted := 0 }

/-- `retry_jobs`: the number of jobs that were moved. -/
def retryJobs (queue : String) (state : FinishedStatus) (count : ℕ) (timestamp : Option ℤ)
    (db : Db) :
    ℕ × Db :=
  let rows := db.job.select fun k row =>
    decide (k.queue = queue) && decide (row.state = finishedState state) &&
      timestamp.all fun timestamp => row.finishedAt.any fun t => decide (t ≤ timestamp)
  let batch := (rows.insertionSort fun a b =>
    (a.2.finishedAt.elim ⊤ fun t => (t : WithTop ℤ)) ≤
      (b.2.finishedAt.elim ⊤ fun t => (t : WithTop ℤ))).take count
  (batch.length, requeueAll (batch.map Prod.fst) JobRow.reset db)

/-- `promote_jobs`: the number of jobs that were moved. -/
def promoteJobs (queue : String) (count : ℕ) (db : Db) : ℕ × Db :=
  let batch := ((db.inState queue .delayed).insertionSort fun a b =>
    (a.2.processAt.elim ⊤ fun t => (t : WithTop ℤ)) ≤
      (b.2.processAt.elim ⊤ fun t => (t : WithTop ℤ))).take count
  (batch.length, requeueAll (batch.map Prod.fst)
    (fun row => { row with state := .waiting, processAt := none }) db)

/-- `promote`. -/
def promote (k : JobKey) (db : Db) : ℤ × Db :=
  match db.job.find k with
  | none => (-1, db)
  | some row =>
    if row.state ≠ .delayed then (-3, db)
    else
      let (seq, db) := db.nextJobSeq
      let db := db.updateJob k fun row =>
        { row with state := .waiting, processAt := none, delay := 0, seq := seq }
      (0, publishEvent k.queue (.waiting k.id (some "delayed")) db)

/-- `change_delay`. -/
def changeDelay (k : JobKey) (delay now : ℤ) (db : Db) : ℤ × Db :=
  match db.job.find k with
  | none => (-1, db)
  | some row =>
    if row.state ≠ .delayed then (-3, db)
    else
      (0, db.updateJob k fun row => { row with delay := delay, processAt := some (now + delay) })

/-- `change_priority`. -/
def changePriority (k : JobKey) (priority : ℤ) (lifo : Bool) (db : Db) : ℤ × Db :=
  match db.job.find k with
  | none => (-1, db)
  | some row =>
    if row.state = .waiting then
      let (seq, db) := db.nextJobSeq
      (0, db.updateJob k fun row =>
        { row with priority := priority, seq := if lifo then -seq else seq })
    else (0, db.updateJob k fun row => { row with priority := priority })

/-- The status of the dependency of a job that finished in a state. -/
def finishedDep : FinishedStatus → DepStatus
  | .completed => .processed
  | .failed => .failed

/-- Let the parent of a job that is retried await it again. -/
def awaitAgain (child : JobKey) (parent : Option JobKey) (state : FinishedStatus) (db : Db) : Db :=
  match parent with
  | none => db
  | some parent =>
    if db.jobExists parent ∧ db.depStatus parent child = some (finishedDep state) then
      Db.incrementDeps
        { db with dependency := db.dependency.updateKey (parent, child) fun _ => {} } parent
    else db

/-- `reprocess_job`. -/
def reprocessJob (k : JobKey) (state : FinishedStatus) (lifo resetMade resetStarted : Bool)
    (db : Db) :
    ℤ × Db :=
  match db.job.find k with
  | none => (-1, db)
  | some row =>
    if row.state ≠ finishedState state then (-3, db)
    else
      let (seq, db) := db.nextJobSeq
      let db := db.updateJob k fun row =>
        { row with
          state := .waiting
          seq := if lifo then -seq else seq
          processAt := none
          processedAt := none
          finishedAt := none
          returnValue := none
          failedReason := none
          stacktrace := none
          attemptsMade := if resetMade then 0 else row.attemptsMade
          attemptsStarted := if resetStarted then 0 else row.attemptsStarted }
      let db := awaitAgain k row.parent state db
      let prev := match state with
        | .completed => "completed"
        | .failed => "failed"
      (1, publishEvent k.queue (.waiting k.id (some prev)) db)

/-! ### Obliteration -/

/-- `obliterate`. -/
def obliterate (queue : String) (count : ℕ) (force : Bool) (db : Db) : ℤ × Db :=
  if ¬ (db.queueMeta queue).paused then (-1, db)
  else if ¬ force ∧ db.inState queue .active ≠ [] then (-2, db)
  else
    let batch := (db.job.select fun k _ => decide (k.queue = queue)).take count
    let keys := batch.map Prod.fst
    let db := db.deleteJobs fun k _ => decide (k ∈ keys)
    if count ≤ batch.length then (1, db)
    else
      (0, { db with
        scheduler := db.scheduler.delete fun k _ => decide (k.1 = queue)
        rateLimit := Function.update db.rateLimit queue none
        event := db.event.filter fun r => decide (r.queue ≠ queue)
        dedup := db.dedup.delete fun k _ => decide (k.1 = queue)
        dedupNext := db.dedupNext.delete fun k _ => decide (k.1 = queue)
        queueMeta := Function.update db.queueMeta queue {}
        jobIdSeq := Function.update db.jobIdSeq queue 0 })

end BullMQ.Postgres
