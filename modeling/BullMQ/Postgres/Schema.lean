import BullMQ.Sql.Table
import BullMQ.Model.Store

/-!
# The data a queue keeps in PostgreSQL

`Db` holds the tables of `0001_schema.sql` as far as the functions of `0002_functions.sql` that are
modelled read them, for all queues of a schema. A column that may be `NULL` is an `Option`; a
comparison with `NULL` is not true. The coordinates of a parent are one entry, and a dependency is
keyed by the parent and the child themselves: the text `queue:id` in the source's key names one
child, since the name of a queue has no colon. Sequences hold the last value drawn.

A function that raises an exception leaves all tables as they were. The advisory locks order the
transactions, which are therefore executed one at a time, and are always free.
-/

namespace BullMQ.Postgres

open Sql

/-! ### Rows -/

/-- `job_state`. -/
inductive JobState
  | waiting
  | active
  | completed
  | failed
  | delayed
  | waitingChildren
  deriving DecidableEq, Repr

/-- `dep_status`. -/
inductive DepStatus
  | pending
  | processed
  | ignored
  | failed
  deriving DecidableEq, Repr

/-- The primary key of `job`. -/
structure JobKey where
  queue : String
  id : String
  deriving DecidableEq, Repr

/-- The text `queue:id`. -/
def JobKey.text (k : JobKey) : String := k.queue ++ ":" ++ k.id

/-- The job options that functions read. -/
structure JobsOptions where
  delay : ℤ := 0
  priority : ℤ := 0
  lifo : Bool := false
  attempts : ℤ := 1
  deduplication : Option DeduplicationOpts := none
  failParentOnFailure : Bool := false
  continueParentOnFailure : Bool := false
  ignoreDependencyOnFailure : Bool := false
  removeDependencyOnFailure : Bool := false
  deriving DecidableEq, Repr

/-- A row of `job`. -/
structure JobRow where
  seq : ℤ
  name : String
  state : JobState
  data : String
  opts : JobsOptions := {}
  priority : ℤ := 0
  delay : ℤ := 0
  maxAttempts : ℤ := 1
  attemptsMade : ℕ := 0
  attemptsStarted : ℕ := 0
  returnValue : Option String := none
  failedReason : Option String := none
  stacktrace : Option String := none
  deferredFailure : Option String := none
  processedBy : Option String := none
  addedAt : ℤ
  processAt : Option ℤ := none
  processedAt : Option ℤ := none
  finishedAt : Option ℤ := none
  lockToken : Option String := none
  lockedUntil : Option ℤ := none
  stalledCount : ℕ := 0
  dedupId : Option String := none
  schedulerId : Option String := none
  parent : Option JobKey := none
  pendingDeps : ℕ := 0
  stalledMarked : Bool := false
  deriving DecidableEq, Repr

/-- A row of `job_dependency`, under the parent and the child. -/
structure DepRow where
  status : DepStatus := .pending
  value : Option String := none
  deriving DecidableEq, Repr

/-- A row of `dedup`. -/
structure DedupRow where
  jobId : String
  expireAt : Option ℤ := none
  deriving DecidableEq, Repr

/-- A row of `dedup_next`. -/
structure DedupPayload where
  name : String
  data : String
  opts : JobsOptions
  jobId : String
  deriving DecidableEq, Repr

/-- A row of `scheduler`. -/
structure SchedulerRow where
  name : String
  nextRun : Option ℤ
  every : Option ℤ := none
  startDate : Option ℤ := none
  offset : Option ℤ := none
  iterationCount : ℕ := 0
  templateData : String
  deriving DecidableEq, Repr

/-- A row of `event`. -/
structure EventRow where
  queue : String
  id : ℕ
  event : Event
  deriving DecidableEq, Repr

/-- The fields of `meta` of a queue. -/
structure QueueMeta where
  paused : Bool := false
  concurrency : Option ℤ := none
  max : Option ℤ := none
  duration : Option ℤ := none
  maxLenEvents : Option ℤ := none
  stalledCheck : Option ℤ := none
  deriving DecidableEq, Repr

/-- A row of `rate_limit`. -/
structure RateLimitRow where
  points : ℤ
  expireAt : ℤ
  deriving DecidableEq, Repr

/-- The tables and sequences. -/
structure Db where
  job : Table JobKey JobRow
  dependency : Table (JobKey × JobKey) DepRow
  dedup : Table (String × String) DedupRow
  dedupNext : Table (String × String) DedupPayload
  scheduler : Table (String × String) SchedulerRow
  event : List EventRow
  queueMeta : String → QueueMeta
  rateLimit : String → Option RateLimitRow
  jobSeq : ℕ
  eventSeq : ℕ
  jobIdSeq : String → ℕ

/-- The tables right after the migration. -/
def Db.empty : Db where
  job := ∅
  dependency := ∅
  dedup := ∅
  dedupNext := ∅
  scheduler := ∅
  event := []
  queueMeta := fun _ => {}
  rateLimit := fun _ => none
  jobSeq := 0
  eventSeq := 0
  jobIdSeq := fun _ => 0

namespace Db

/-! ### Statements -/

/-- `UPDATE job … WHERE queue = … AND id = …`. -/
def updateJob (db : Db) (k : JobKey) (f : JobRow → JobRow) : Db :=
  { db with job := db.job.updateKey k f }

/-- `UPDATE job … WHERE …`. -/
def updateJobs (db : Db) (cond : JobKey → JobRow → Bool) (f : JobRow → JobRow) : Db :=
  { db with job := db.job.update cond f }

/-- `DELETE FROM job WHERE …`; the rows of `job_dependency` that a deleted parent owns go with it.
-/
def deleteJobs (db : Db) (cond : JobKey → JobRow → Bool) : Db :=
  { db with
    job := db.job.delete cond
    dependency := db.dependency.delete fun d _ => (db.job.find d.1).any (cond d.1) }

/-- `DELETE FROM job WHERE queue = … AND id = …`. -/
def deleteJob (db : Db) (k : JobKey) : Db := db.deleteJobs fun k' _ => decide (k' = k)

/-- Whether a job exists. -/
def jobExists (db : Db) (k : JobKey) : Bool := (db.job.find k).isSome

theorem find_deleteJob (db : Db) (k k' : JobKey) :
    (db.deleteJob k).job.find k' = if k' = k then none else db.job.find k' := by
  rw [deleteJob, deleteJobs, Table.find_delete]
  by_cases h : k' = k
  · simp [h]
  · cases db.job.find k' <;> simp [h]

theorem jobExists_deleteJob (db : Db) (k k' : JobKey) :
    (db.deleteJob k).jobExists k' = true ↔ db.jobExists k' = true ∧ k' ≠ k := by
  rw [jobExists, find_deleteJob, jobExists]
  by_cases h : k' = k <;> simp [h]

/-- `nextval('job_seq')`. -/
def nextJobSeq (db : Db) : ℤ × Db :=
  (db.jobSeq + 1, { db with jobSeq := db.jobSeq + 1 })

/-- `next_job_id`. -/
def nextJobId (db : Db) (queue : String) : String × Db :=
  ((db.jobIdSeq queue + 1).repr,
    { db with jobIdSeq := Function.update db.jobIdSeq queue (db.jobIdSeq queue + 1) })

end Db

/-! ### Events -/

/-- The bound on the events of a queue. -/
def Db.maxLenEvents (db : Db) (queue : String) : ℤ := (db.queueMeta queue).maxLenEvents.getD 10000

/-- `DELETE FROM event WHERE queue = … AND id <= …`. -/
def Db.trimEvents (db : Db) (queue : String) (cutoff : ℤ) : Db :=
  { db with
    event := db.event.filter fun r => !(decide (r.queue = queue) && decide ((r.id : ℤ) ≤ cutoff)) }

/-- Append an event under the next value of `event_seq`. -/
def Db.appendEvent (db : Db) (queue : String) (e : Event) : Db :=
  { db with event := db.event ++ [⟨queue, db.eventSeq + 1, e⟩], eventSeq := db.eventSeq + 1 }

/-- `publish_event`: append an event, and trim the queue's events at every 256th id. -/
def publishEvent (queue : String) (e : Event) (db : Db) : Db :=
  let db := db.appendEvent queue e
  let id := db.eventSeq
  let max := db.maxLenEvents queue
  if 0 < max ∧ max < id ∧ id % 256 = 0 then db.trimEvents queue (id - max) else db

/-- An event is published beside the other tables. -/
theorem publishEvent_frame (queue : String) (e : Event) (db : Db) :
    ∃ event, publishEvent queue e db = { db with event := event, eventSeq := db.eventSeq + 1 } := by
  unfold publishEvent
  dsimp only
  split
  · exact ⟨_, rfl⟩
  · exact ⟨_, rfl⟩

section Frame

variable (queue : String) (e : Event) (db : Db)

@[simp]
theorem publishEvent_job : (publishEvent queue e db).job = db.job := by
  obtain ⟨_, heq⟩ := publishEvent_frame queue e db
  rw [heq]

@[simp]
theorem publishEvent_dependency : (publishEvent queue e db).dependency = db.dependency := by
  obtain ⟨_, heq⟩ := publishEvent_frame queue e db
  rw [heq]

@[simp]
theorem publishEvent_dedup : (publishEvent queue e db).dedup = db.dedup := by
  obtain ⟨_, heq⟩ := publishEvent_frame queue e db
  rw [heq]

@[simp]
theorem publishEvent_dedupNext : (publishEvent queue e db).dedupNext = db.dedupNext := by
  obtain ⟨_, heq⟩ := publishEvent_frame queue e db
  rw [heq]

@[simp]
theorem publishEvent_queueMeta : (publishEvent queue e db).queueMeta = db.queueMeta := by
  obtain ⟨_, heq⟩ := publishEvent_frame queue e db
  rw [heq]

@[simp]
theorem publishEvent_jobSeq : (publishEvent queue e db).jobSeq = db.jobSeq := by
  obtain ⟨_, heq⟩ := publishEvent_frame queue e db
  rw [heq]

end Frame

end BullMQ.Postgres
