import BullMQ.Postgres.Scheduler

/-!
# Commands of the PostgreSQL backend

A `Command` is a call of one of the functions with its arguments; `Command.exec` is its effect on
the tables. A call that raises an exception leaves them as they were, but for the sequences, which
are not rolled back: `skip` stands for values that are drawn without effect. The functions that
finish a job and fetch the next one are two commands.
-/

namespace BullMQ.Postgres

/-- The calls that change the tables. -/
inductive Command
  | addJob (e : Entry)
  | addFlow (entries : List Entry)
  | addJobsBulk (queue : String) (entries : List Entry)
  | moveToActive (queue : String) (args : ClaimArgs)
  | extendLock (k : JobKey) (token : String) (lockMs now : ℤ)
  | moveToCompleted (k : JobKey) (token : String) (returnValue : Option String) (finishedOn : ℤ)
      (keep : KeepJobs)
  | moveToFailed (k : JobKey) (token failedReason : String) (stacktrace : Option String)
      (finishedOn : ℤ) (keep : KeepJobs)
  | moveToDelayed (k : JobKey) (token : String) (processAt delay : ℤ) (skipAttempt : Bool)
      (failedReason stacktrace : Option String)
  | retryJob (k : JobKey) (token : String) (lifo : Bool) (failedReason stacktrace : Option String)
  | moveActiveToWait (k : JobKey) (token : String) (now : ℤ)
  | moveToWaitingChildren (k : JobKey) (token : String)
  | moveStalledJobsToWait (queue : String) (maxStalled now maxCheckTime : ℤ)
  | removeChildDependency (child : JobKey) (now : ℤ)
  | removeUnprocessedChildren (k : JobKey)
  | pause (queue : String) (paused : Bool)
  | configure (queue : String) (concurrency max duration maxLenEvents : Option ℤ)
  | setRateLimit (queue : String) (expire now : ℤ)
  | drain (queue : String) (delayed : Bool)
  | remove (k : JobKey) (removeChildren : Bool) (now : ℤ)
  | clean (queue : String) (type : CleanType) (ts limit : ℤ)
  | retryJobs (queue : String) (state : FinishedStatus) (count : ℕ) (timestamp : Option ℤ)
  | promoteJobs (queue : String) (count : ℕ)
  | promote (k : JobKey)
  | changeDelay (k : JobKey) (delay now : ℤ)
  | changePriority (k : JobKey) (priority : ℤ) (lifo : Bool)
  | reprocessJob (k : JobKey) (state : FinishedStatus) (lifo resetMade resetStarted : Bool)
  | obliterate (queue : String) (count : ℕ) (force : Bool)
  | addJobScheduler (queue : String) (a : SchedulerArgs)
  | updateJobSchedulerNextMillis (queue : String) (a : AdvanceArgs)
  | removeJobScheduler (queue schedulerId : String)
  | skip (jobSeq eventSeq : ℕ) (queue : String) (jobIdSeq : ℕ)

/-- The tables after a call that may raise an exception. -/
def orUnchanged {α : Type} (db : Db) (result : Except ℤ α) (tables : α → Db) : Db :=
  match result with
  | .ok a => tables a
  | .error _ => db

/-- Write fields of `meta`, as the client does. -/
def configure (queue : String) (concurrency max duration maxLenEvents : Option ℤ) (db : Db) : Db :=
  let queueMeta := { db.queueMeta queue with
    concurrency := concurrency
    max := max
    duration := duration
    maxLenEvents := maxLenEvents }
  { db with queueMeta := Function.update db.queueMeta queue queueMeta }

/-- Execute a command. -/
def Command.exec (db : Db) : Command → Db
  | addJob e => orUnchanged db (Postgres.addJob e db) Prod.snd
  | addFlow entries => (Postgres.addFlow entries db).2
  | addJobsBulk queue entries => (Postgres.addJobsBulk queue entries db).2
  | moveToActive queue args => (Postgres.moveToActive queue args db).2
  | extendLock k token lockMs now => (Postgres.extendLock k token lockMs now db).2
  | moveToCompleted k token returnValue finishedOn keep =>
    orUnchanged db (Postgres.moveToCompleted k token returnValue finishedOn keep db) id
  | moveToFailed k token failedReason stacktrace finishedOn keep =>
    orUnchanged db (Postgres.moveToFailed k token failedReason stacktrace finishedOn keep db) id
  | moveToDelayed k token processAt delay skipAttempt failedReason stacktrace =>
    orUnchanged db
      (Postgres.moveToDelayed k token processAt delay skipAttempt failedReason stacktrace db) id
  | retryJob k token lifo failedReason stacktrace =>
    orUnchanged db (Postgres.retryJob k token lifo failedReason stacktrace db) id
  | moveActiveToWait k token now => (Postgres.moveActiveToWait k token now db).2
  | moveToWaitingChildren k token =>
    orUnchanged db (Postgres.moveToWaitingChildren k token db) Prod.snd
  | moveStalledJobsToWait queue maxStalled now maxCheckTime =>
    (Postgres.moveStalledJobsToWait queue maxStalled now maxCheckTime db).2
  | removeChildDependency child now =>
    orUnchanged db (Postgres.removeChildDependency child now db) Prod.snd
  | removeUnprocessedChildren k => Postgres.removeUnprocessedChildren k db
  | pause queue paused => Postgres.pause queue paused db
  | configure queue concurrency max duration maxLenEvents =>
    Postgres.configure queue concurrency max duration maxLenEvents db
  | setRateLimit queue expire now => Postgres.setRateLimit queue expire now db
  | drain queue delayed => Postgres.drain queue delayed db
  | remove k removeChildren now => orUnchanged db (Postgres.remove k removeChildren now db) Prod.snd
  | clean queue type ts limit => (Postgres.clean queue type ts limit db).2
  | retryJobs queue state count timestamp => (Postgres.retryJobs queue state count timestamp db).2
  | promoteJobs queue count => (Postgres.promoteJobs queue count db).2
  | promote k => (Postgres.promote k db).2
  | changeDelay k delay now => (Postgres.changeDelay k delay now db).2
  | changePriority k priority lifo => (Postgres.changePriority k priority lifo db).2
  | reprocessJob k state lifo resetMade resetStarted =>
    (Postgres.reprocessJob k state lifo resetMade resetStarted db).2
  | obliterate queue count force => (Postgres.obliterate queue count force db).2
  | addJobScheduler queue a => orUnchanged db (Postgres.addJobScheduler queue a db) Prod.snd
  | updateJobSchedulerNextMillis queue a => (Postgres.updateJobSchedulerNextMillis queue a db).2
  | removeJobScheduler queue schedulerId => (Postgres.removeJobScheduler queue schedulerId db).2
  | skip jobSeq eventSeq queue jobIdSeq =>
    { db with
      jobSeq := db.jobSeq + jobSeq
      eventSeq := db.eventSeq + eventSeq
      jobIdSeq := Function.update db.jobIdSeq queue (db.jobIdSeq queue + jobIdSeq) }

/-- Execute commands one after the other. -/
def runCommands (cmds : List Command) (db : Db) : Db := cmds.foldl Command.exec db

theorem runCommands_append (cmds : List Command) (cmd : Command) (db : Db) :
    runCommands (cmds ++ [cmd]) db = cmd.exec (runCommands cmds db) := by
  rw [runCommands, List.foldl_append]
  rfl

theorem orUnchanged_rec {α : Type} {P : Db → Prop} {db : Db} {result : Except ℤ α} {tables : α → Db}
    (herror : P db) (hok : ∀ a, result = .ok a → P (tables a)) :
    P (orUnchanged db result tables) := by
  cases result with
  | ok a => exact hok a rfl
  | error code => exact herror

end BullMQ.Postgres
