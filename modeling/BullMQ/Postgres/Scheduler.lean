import BullMQ.Postgres.Admin

/-!
# Job schedulers in PostgreSQL

A scheduler is a row with its template and the time of its next iteration, whose job has the id
`repeat:<id>:<millis>`. `addJobScheduler` is the upsert by a client, `updateJobSchedulerNextMillis`
the step by the worker that has fetched the pending iteration.
-/

namespace BullMQ.Postgres

open Sql

/-- The id of the iteration of a scheduler at a time. -/
def schedulerJobId (schedulerId : String) (millis : ℤ) : String :=
  "repeat:" ++ schedulerId ++ ":" ++ millis.repr

/-- The template data of a scheduler without data, an empty JSON object. -/
def emptyData : String := "\x7b\x7d"

/-- `scheduler_every_next_millis`: the time of the next iteration and the offset. Division of
`bigint` values rounds towards zero. -/
def schedulerEveryNextMillis (prev : Option ℤ) (every now : ℤ) (offset start : Option ℤ) : ℤ × ℤ :=
  let next :=
    match prev with
    | none =>
      match start with
      | some start => max start now
      | none =>
        if 0 < offset.getD 0 then
          let aligned := now.tdiv every * every + offset.getD 0
          if aligned ≤ now then aligned + every else aligned
        else now
    | some prev =>
      if prev + every < now then now.tdiv every * every + every + offset.getD 0 else prev + every
  (next, if offset.getD 0 = 0 then next - next.tdiv every * every else offset.getD 0)

/-- The arguments of `add_job_scheduler`; `repeatOffset` and `timestamp` are in the options of the
job. -/
structure SchedulerArgs where
  schedulerId : String
  nextMillis : ℤ
  name : String
  every : Option ℤ := none
  offset : Option ℤ := none
  startDate : Option ℤ := none
  templateData : String
  jobOpts : JobsOptions := {}
  repeatOffset : Option ℤ := none
  timestamp : Option ℤ := none
  now : ℤ
  deriving DecidableEq, Repr

/-- The row of the job of an iteration. -/
def schedulerJob (schedulerId name data : String) (opts : JobsOptions) (timestamp now next : ℤ)
    (seq : ℤ) : JobRow :=
  let delay := max (next - now) 0
  { seq := seq
    name := name
    state := if 0 < delay then .delayed else .waiting
    data := data
    opts := { opts with delay := delay }
    priority := opts.priority
    delay := delay
    maxAttempts := opts.attempts
    addedAt := timestamp
    processAt := if 0 < delay then some next else none
    schedulerId := some schedulerId }

/-- Replace a job by that of an iteration; what the row keeps is not written by the upsert. -/
def JobRow.replaceBy (row job : JobRow) : JobRow :=
  { row with
    seq := job.seq
    name := job.name
    state := job.state
    data := job.data
    opts := job.opts
    priority := job.priority
    delay := job.delay
    maxAttempts := job.maxAttempts
    attemptsMade := 0
    attemptsStarted := 0
    addedAt := job.addedAt
    processAt := job.processAt
    processedAt := none
    finishedAt := none
    returnValue := none
    failedReason := none
    stacktrace := none
    lockToken := none
    lockedUntil := none
    stalledCount := 0
    processedBy := none
    schedulerId := job.schedulerId }

/-- Whether an upsert deletes a pending iteration. -/
def JobRow.pendingIteration (row : JobRow) : Bool :=
  decide (row.state = .delayed) || decide (row.state = .waiting)

/-- The slot of an upsert: the first one or, with an interval, the one after it. A pattern fails on
a slot that is taken, unless an iteration was removed. -/
def schedulerSlot (queue schedulerId : String) (every : Option ℤ) (removed : Bool) (next : ℤ)
    (db : Db) : Except ℤ ℤ :=
  if db.jobExists ⟨queue, schedulerJobId schedulerId next⟩ then
    match every with
    | some every =>
      if db.jobExists ⟨queue, schedulerJobId schedulerId (next + every)⟩ then .error (-11)
      else .ok (next + every)
    | none => if removed then .ok next else .error (-10)
  else .ok next

/-- The time of the pending iteration of a scheduler. -/
def Db.nextRun (db : Db) (queue schedulerId : String) : Option ℤ :=
  (db.scheduler.find (queue, schedulerId)).bind SchedulerRow.nextRun

/-- Whether an upsert changes the interval of a scheduler. -/
def changesEvery (queue : String) (a : SchedulerArgs) (db : Db) : Bool :=
  a.every.isSome && (db.nextRun queue a.schedulerId).isSome &&
    decide ((db.scheduler.find (queue, a.schedulerId)).bind SchedulerRow.every ≠ a.every)

/-- The offset that an upsert is given. -/
def SchedulerArgs.offsetGiven (a : SchedulerArgs) : ℤ := (a.offset.or a.repeatOffset).getD 0

/-- The time of the next iteration of an upsert with an interval, and the offset. -/
def upsertTiming (queue : String) (a : SchedulerArgs) (db : Db) : Option (ℤ × ℤ) :=
  a.every.map fun every =>
    schedulerEveryNextMillis
      (if changesEvery queue a db then none else db.nextRun queue a.schedulerId) every a.now
      (some a.offsetGiven) a.startDate

/-- The offset that an upsert stores: that of the scheduler stays unless another one is given. -/
def upsertOffset (queue : String) (a : SchedulerArgs) (db : Db) : ℤ :=
  match upsertTiming queue a db with
  | none => a.offsetGiven
  | some timing =>
    if a.offset.isNone ∧ a.repeatOffset.isNone then
      ((db.scheduler.find (queue, a.schedulerId)).bind SchedulerRow.offset).getD timing.2
    else timing.2

/-- Whether an upsert deletes the pending iteration. -/
def deletesPending (queue schedulerId : String) (db : Db) : Bool :=
  (db.nextRun queue schedulerId).any fun prev =>
    (db.job.find ⟨queue, schedulerJobId schedulerId prev⟩).any JobRow.pendingIteration

/-- The part of an upsert that deletes the pending iteration. -/
def deletePending (queue schedulerId : String) (db : Db) : Db :=
  match db.nextRun queue schedulerId with
  | some prev =>
    if deletesPending queue schedulerId db then
      db.deleteJob ⟨queue, schedulerJobId schedulerId prev⟩
    else db
  | none => db

/-- The slot at which an upsert starts: that of the deleted iteration, if the interval stays. -/
def upsertSlot (queue : String) (a : SchedulerArgs) (db : Db) : ℤ :=
  let next := ((upsertTiming queue a db).map Prod.fst).getD a.nextMillis
  if deletesPending queue a.schedulerId db ∧ a.every.isSome ∧ ¬ changesEvery queue a db then
    (db.nextRun queue a.schedulerId).getD next
  else next

/-- The row that an upsert writes. -/
def upsertRow (queue : String) (a : SchedulerArgs) (next : ℤ) (db : Db) : SchedulerRow where
  name := a.name
  nextRun := some next
  every := a.every
  startDate := a.startDate
  offset := some (upsertOffset queue a db)
  iterationCount :=
    ((db.scheduler.find (queue, a.schedulerId)).map SchedulerRow.iterationCount).getD 1
  templateData := a.templateData

/-- Store the row of a scheduler and the job of its next iteration. -/
def storeScheduler (queue : String) (a : SchedulerArgs) (row : SchedulerRow) (next : ℤ) (db : Db) :
    Db :=
  let db := { db with scheduler := db.scheduler.upsert (queue, a.schedulerId) row fun _ => row }
  let (seq, db) := db.nextJobSeq
  let job := schedulerJob a.schedulerId a.name a.templateData a.jobOpts
    (a.timestamp.getD a.now) a.now
    next seq
  { db with
    job := db.job.upsert ⟨queue, schedulerJobId a.schedulerId next⟩ job fun row =>
      row.replaceBy job }

/-- `add_job_scheduler`: the id of the next job and its delay. -/
def addJobScheduler (queue : String) (a : SchedulerArgs) (db : Db) : Except ℤ ((String × ℤ) × Db) :=
  let removed := deletesPending queue a.schedulerId db
  let db' := deletePending queue a.schedulerId db
  match schedulerSlot queue a.schedulerId a.every removed (upsertSlot queue a db) db' with
  | .error code => .error code
  | .ok next =>
    .ok ((schedulerJobId a.schedulerId next, max (next - a.now) 0),
      storeScheduler queue a (upsertRow queue a next db) next db')

/-- The arguments of `update_job_scheduler_next_millis`; `repeatEvery` and `repeatOffset` are in the
options of the job that produces the iteration. -/
structure AdvanceArgs where
  schedulerId : String
  nextMillis : ℤ
  templateData : Option String := none
  jobOpts : JobsOptions := {}
  repeatEvery : Option ℤ := none
  repeatOffset : Option ℤ := none
  timestamp : Option ℤ := none
  now : ℤ
  producerId : String
  deriving DecidableEq, Repr

/-- `update_job_scheduler_next_millis`: the id of the new job. -/
def updateJobSchedulerNextMillis (queue : String) (a : AdvanceArgs) (db : Db) :
    Option String × Db :=
  match db.scheduler.find (queue, a.schedulerId) with
  | none => (none, db)
  | some row =>
    let timing := (row.every.or a.repeatEvery).map fun every =>
      schedulerEveryNextMillis row.nextRun every a.now
        (some ((row.offset.or a.repeatOffset).getD 0)) row.startDate
    let next := (timing.map Prod.fst).getD a.nextMillis
    -- Without a time of the last iteration the text of its id is NULL.
    if row.nextRun.any fun prev => decide (a.producerId = schedulerJobId a.schedulerId prev) then
      let jobId := schedulerJobId a.schedulerId next
      if db.jobExists ⟨queue, jobId⟩ then (none, publishEvent queue (.duplicated jobId) db)
      else
        let db := { db with scheduler := db.scheduler.updateKey (queue, a.schedulerId) fun row =>
          { row with
            nextRun := some next
            iterationCount := row.iterationCount + 1
            offset := row.offset.or (timing.map Prod.snd)
            templateData :=
              if a.templateData.any fun data => decide (data ≠ emptyData) then
                a.templateData.getD row.templateData
              else row.templateData } }
        let (seq, db) := db.nextJobSeq
        let data :=
          if row.templateData ≠ emptyData then row.templateData else a.templateData.getD emptyData
        let job := schedulerJob a.schedulerId row.name data a.jobOpts (a.timestamp.getD a.now) a.now
          next seq
        (some jobId, { db with job := db.job.insert ⟨queue, jobId⟩ job })
    else (none, db)

/-- `remove_job_scheduler`: 0 if there was such a scheduler. -/
def removeJobScheduler (queue schedulerId : String) (db : Db) : ℤ × Db :=
  let next := (db.scheduler.find (queue, schedulerId)).bind SchedulerRow.nextRun
  let existed := (db.scheduler.find (queue, schedulerId)).isSome
  let db : Db :=
    match next with
    | none => db
    | some next =>
      let k : JobKey := ⟨queue, schedulerJobId schedulerId next⟩
      if (db.job.find k).any fun row => decide (row.state = .delayed) then
        publishEvent queue (.removed k.id "delayed") (db.deleteJob k)
      else db
  (if existed then 0 else 1,
    { db with scheduler := db.scheduler.deleteKey (queue, schedulerId) })

end BullMQ.Postgres
