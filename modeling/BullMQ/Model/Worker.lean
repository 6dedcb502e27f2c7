import BullMQ.Model.Activation

/-!
# Workers

What a worker does with the job it was handed: when the processor throws, `Job.moveToFailed` decides
from the attempts counted so far and the number of attempts in the job's options, as the worker read
them from the hash it was handed, between a retry at once, a retry with a delay and the failed set;
a processor may also move its job away without using up an attempt.
-/

namespace BullMQ

/-- `opts.attempts` of a job hash, zero when there are no options (`Job.fromJSON`). -/
def attemptsOption (data : Option Job) : ℤ := ((data.bind Job.opts).map JobOpts.attempts).getD 0

/-- What a worker has of the job it processes: its token, and from the hash the count of attempts
and the number of attempts in the options. -/
structure HeldJob where
  token : String
  attemptsMade : ℕ
  attempts : ℤ
  deriving DecidableEq, Repr

/-- One failure of a processor, with what the worker adds to its call. `backoff` is the result of
`Backoffs.calculate`, which is only asked for where a retry is left. -/
structure Failure where
  timestamp : ℤ
  failedReason : String
  unrecoverable : Bool := false
  backoff : ℤ
  lifo : Bool := false
  fetchNext : Bool := false
  opts : FetchOpts
  removeOnFail : KeepJobs := {}
  maxMetricsSize : Option ℤ := none
  fieldsToUpdate : FieldsToUpdate := {}
  deriving DecidableEq, Repr

/-- `shouldRetryJob`: whether to retry, and after which delay. -/
def shouldRetryJob (job : HeldJob) (f : Failure) : Bool × ℤ :=
  if job.attemptsMade + 1 < job.attempts ∧ f.unrecoverable = false then
    if f.backoff = -1 then (false, 0) else (true, f.backoff)
  else (false, 0)

/-- `Job.moveToFailed`: the script a failure is reported with. -/
def moveToFailed (p jobId : String) (job : HeldJob) (f : Failure) : Command :=
  let opts := { f.opts with token := job.token }
  match shouldRetryJob job f with
  | (true, retryDelay) =>
    if retryDelay ≠ 0 then
      .moveToDelayed p
        { jobId := jobId, timestamp := f.timestamp, token := job.token, delay := retryDelay,
          fieldsToUpdate := some f.fieldsToUpdate,
          fetchNext := if f.fetchNext then some opts else none }
    else
      .retryJob p
        { jobId := jobId, timestamp := f.timestamp, token := job.token,
          pushCmd := if f.lifo then .rpush else .lpush,
          fieldsToUpdate := some f.fieldsToUpdate }
  | (false, _) =>
    .moveToFinished p
      { jobId := jobId, timestamp := f.timestamp, value := f.failedReason, target := .failed,
        fetchNext := f.fetchNext, opts := opts, keepJobs := f.removeOnFail,
        attempts := job.attempts, maxMetricsSize := f.maxMetricsSize,
        fieldsToUpdate := some f.fieldsToUpdate }

/-- The moves by which a processor gives its job away without using up an attempt:
`Job.moveToDelayed`, `Job.moveToWait` and `Job.moveToWaitingChildren`. -/
inductive VoluntaryMove
  | moveToDelayed (timestamp now : ℤ)
  | moveToWait
  | moveToWaitingChildren (childKey : String) (now : ℤ)
  deriving DecidableEq, Repr

/-- The script of a voluntary move. -/
def VoluntaryMove.command (p jobId token : String) : VoluntaryMove → Command
  | .moveToDelayed timestamp now =>
    .moveToDelayed p
      { jobId := jobId, timestamp := now, token := token, delay := max 0 (timestamp - now),
        skipAttempt := true }
  | .moveToWait => .moveJobFromActiveToWait p jobId token
  | .moveToWaitingChildren childKey now => .moveToWaitingChildren p jobId token childKey now

/-- The job that a command hands out: its queue, its id and what the worker has of it. -/
def Command.handsOut (c : Command) (reply : Reply) : Option (String × String × HeldJob) :=
  match c.fetchOpts, reply with
  | some (p, o), .job data jobId =>
    some (p, jobId, ⟨o.token, (data.map Job.atm).getD 0, attemptsOption data⟩)
  | _, _ => none

end BullMQ
