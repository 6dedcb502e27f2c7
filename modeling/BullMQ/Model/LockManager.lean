import BullMQ.Placement.Ownership
import BullMQ.Model.QueueCommand

/-!
# Lock renewal

`LockManager` renews the locks of the jobs that a worker processes: a timer looks for those that
were renewed more than half of `lockRenewTime` ago, extends them with one `extendLocks`, and is
started again when the reply is there.

`LockWorld` puts it between the clock and Redis, whose locks now have the time at which they
expire. Messages and timers take time, at most as long as `Timing` says: the clock does not advance
past the time at which one of them is due. Everything else that goes on in Redis is a `Command`:
the scripts about jobs, and the expiry of locks, of deduplication keys and of the rate limiter.
Those of job schedulers and of cleaning a queue up are left out.
-/

namespace BullMQ

open Redis

/-- An entry of `trackedJobs`: a job with the token of its lock and the time of its last renewal. -/
structure TrackedJob where
  jobId : String
  token : String
  ts : ℕ
  deriving DecidableEq, Repr

/-- The options of a lock manager, with the base of the queue's keys. -/
structure LockManagerOptions where
  base : String
  lockRenewTime : ℕ
  lockDuration : ℕ
  deriving Repr

/-- A lock manager. `trackedJobs` is a `Map`, in the order of its entries. -/
structure LockManager where
  trackedJobs : List TrackedJob := []
  /-- When the timer fires. -/
  lockRenewalTimer : Option ℕ := none
  closed : Bool := false
  deriving DecidableEq, Repr

namespace LockManager

/-- `this.trackedJobs.set(jobId, ...)`. -/
def setJob (job : TrackedJob) (jobs : List TrackedJob) : List TrackedJob :=
  if jobs.any (·.jobId == job.jobId) then
    jobs.map fun other => if other.jobId = job.jobId then job else other
  else jobs ++ [job]

/-- `trackJob`. -/
def trackJob (job : TrackedJob) (m : LockManager) : LockManager :=
  if ¬ m.closed ∧ job.jobId ≠ "" then { m with trackedJobs := setJob job m.trackedJobs } else m

/-- `untrackJob`. -/
def untrackJob (jobId : String) (m : LockManager) : LockManager :=
  { m with trackedJobs := m.trackedJobs.filter (·.jobId ≠ jobId) }

/-- The delay of the timer: `setTimeout` drops the fraction, and waits at least a millisecond. -/
def timeout (lockRenewTime : ℕ) : ℕ := max 1 (lockRenewTime / 2)

/-- `startLockExtenderTimer`. -/
def startLockExtenderTimer (lockRenewTime now : ℕ) (m : LockManager) : LockManager :=
  { m with lockRenewalTimer := if m.closed then none else some (now + timeout lockRenewTime) }

/-- `start`. -/
def start (lockRenewTime now : ℕ) (m : LockManager) : LockManager :=
  if m.closed then m
  else if 0 < lockRenewTime then m.startLockExtenderTimer lockRenewTime now
  else m

/-- The last renewal of a job was more than half of `lockRenewTime` ago. -/
def isDue (lockRenewTime now : ℕ) (job : TrackedJob) : Bool :=
  job.ts != 0 && 2 * job.ts + lockRenewTime < 2 * now

/-- The locks that the timer extends, as tokens and ids. -/
def jobsToExtend (lockRenewTime now : ℕ) (m : LockManager) : List (String × String) :=
  (m.trackedJobs.filter (isDue lockRenewTime now)).map fun job => (job.token, job.jobId)

/-- What the timer does to the entries. One without a time gets the present one. -/
def touch (lockRenewTime now : ℕ) (job : TrackedJob) : TrackedJob :=
  if job.ts = 0 ∨ isDue lockRenewTime now job then { job with ts := now } else job

/-- `close`. -/
def close (m : LockManager) : LockManager :=
  if m.closed then m else { trackedJobs := [], lockRenewalTimer := none, closed := true }

end LockManager

/-! ### Between the clock and Redis -/

/-- Bounds on what takes time: how late a timer fires, how long a message takes from the worker to
Redis or back, and how long it takes from the call that fetches a job until the job is tracked. -/
structure Timing where
  late : ℕ
  hop : ℕ
  pickup : ℕ

/-- An `extendLocks` call on its way to Redis, or its reply on the way back. -/
structure Extension where
  locks : List (String × String)
  sentAt : ℕ
  failedJobs : Option (List String) := none

/-- A worker's lock manager, Redis and the clock. -/
structure LockWorld where
  now : ℕ
  store : Store
  /-- The last millisecond of the lock of a job key, if it has one. -/
  expires : String → ℕ
  manager : LockManager
  extension : Option Extension := none
  /-- The jobs that Redis has handed to the worker and that are not tracked yet. -/
  fetched : List TrackedJob := []
  /-- The job keys handed to the worker, with the token, until a finishing call with that token. -/
  held : List (String × String) := []

/-- The timestamp of the fetch inside a command. -/
def Command.fetchTimestamp : Command → ℤ
  | moveToActive _ t _ => t
  | moveToFinished _ a => a.timestamp
  | moveToDelayed _ a => a.timestamp
  | _ => 0

/-- A command is a finishing call for a job key with a token. -/
def Command.finishes (c : Command) (lock : String × String) : Bool :=
  match c.finishing with
  | some (p, jobId, token) => (p ++ jobId, token) == lock
  | none => false

namespace LockWorld

/-- When the locks expire after a fetch, which sets that of the job it hands out. -/
def expiresAfterFetch (c : Command) (w : LockWorld) : String → ℕ :=
  match c.fetchOpts with
  | some (p, opts) =>
    match c.activates w.store p with
    | some jobId => Function.update w.expires (p ++ jobId) (w.now + opts.lockDuration.toNat)
    | none => w.expires
  | none => w.expires

/-- When the locks expire after a command. -/
def expiresAfter (c : Command) (w : LockWorld) : String → ℕ :=
  match c with
  | .extendLock p token duration jobId =>
    if w.store .lock (p ++ jobId) = some token then
      Function.update w.expires (p ++ jobId) (w.now + duration.toNat)
    else w.expires
  | .extendLocks p locks duration =>
    locks.foldl (fun expires lock =>
      if w.store .lock (p ++ lock.2) = some lock.1 then
        Function.update expires (p ++ lock.2) (w.now + duration.toNat)
      else expires) w.expires
  | c => w.expiresAfterFetch c

/-- Redis executes a command. A lock expires after its last millisecond. -/
def exec (c : Command) (w : LockWorld) : Option (Reply × LockWorld) :=
  match c with
  | .expireLock k => if w.expires k < w.now then go else none
  | _ => go
where
  go := (c.exec w.store).map fun r => (r.1, { w with
    store := r.2
    expires := w.expiresAfter c
    held := w.held.filter fun lock => !c.finishes lock })

/-- The worker makes a call that fetches a job, under the options of its lock manager. -/
def fetch (opts : LockManagerOptions) (timing : Timing) (c : Command) (w : LockWorld) :
    Option LockWorld :=
  match c.fetchOpts with
  | none => none
  | some (p, o) =>
    let ts := c.fetchTimestamp.toNat
    if p = opts.base ∧ o.token ≠ "0" ∧ o.lockDuration = opts.lockDuration ∧ 0 < ts ∧ ts ≤ w.now ∧
        w.now ≤ ts + timing.pickup then
      (w.exec c).map fun (reply, w) =>
        match reply with
        | .job _ jobId => { w with
            fetched := w.fetched ++ [{ jobId, token := o.token, ts }]
            held := w.held ++ [(p ++ jobId, o.token)] }
        | _ => w
    else none

/-- The timer fires. -/
def fire (opts : LockManagerOptions) (w : LockWorld) : Option LockWorld :=
  match w.manager.lockRenewalTimer with
  | none => none
  | some due =>
    if due ≤ w.now then
      let locks := w.manager.jobsToExtend opts.lockRenewTime w.now
      let manager := { w.manager with
        trackedJobs := w.manager.trackedJobs.map (LockManager.touch opts.lockRenewTime w.now)
        lockRenewalTimer := none }
      if locks = [] then
        some { w with manager := manager.startLockExtenderTimer opts.lockRenewTime w.now }
      else some { w with manager, extension := some { locks, sentAt := w.now } }
    else none

/-- The call reaches Redis. -/
def extend (opts : LockManagerOptions) (w : LockWorld) : Option LockWorld :=
  match w.extension with
  | some { locks, sentAt := _, failedJobs := none } =>
    (w.exec (.extendLocks opts.base locks opts.lockDuration)).map fun (reply, w) =>
      let failedJobs := match reply with
        | .ids failedJobs => failedJobs
        | _ => []
      { w with extension := some { locks, sentAt := w.now, failedJobs := some failedJobs } }
  | _ => none

/-- The reply is there. -/
def extended (opts : LockManagerOptions) (w : LockWorld) : Option LockWorld :=
  match w.extension with
  | some { locks := _, sentAt := _, failedJobs := some _ } =>
    some { w with
      extension := none
      manager := w.manager.startLockExtenderTimer opts.lockRenewTime w.now }
  | _ => none

/-- Nothing is due before the next millisecond. -/
def mayElapse (timing : Timing) (w : LockWorld) : Prop :=
  (∀ due ∈ w.manager.lockRenewalTimer, w.now < due + timing.late) ∧
    (∀ e ∈ w.extension, w.now < e.sentAt + timing.hop) ∧
    ∀ job ∈ w.fetched, w.now < job.ts + timing.pickup

instance (timing : Timing) (w : LockWorld) : Decidable (w.mayElapse timing) :=
  inferInstanceAs (Decidable (_ ∧ _))

end LockWorld

/-- What can happen. -/
inductive LockAction
  /-- A millisecond passes. -/
  | elapse
  | command (c : Command)
  | fetch (c : Command)
  | track (job : TrackedJob)
  | untrack (jobId : String)
  | fire
  | extend
  | extended
  | close
  | expireDeduplicationKey (p deduplicationId : String)
  | elapseDeduplicationKey (p deduplicationId : String) (ms : ℕ)

/-- One step. -/
def LockWorld.step (opts : LockManagerOptions) (timing : Timing) (w : LockWorld) :
    LockAction → Option LockWorld
  | .elapse => if w.mayElapse timing then some { w with now := w.now + 1 } else none
  | .command c => (w.exec c).map Prod.snd
  | .fetch c => w.fetch opts timing c
  | .track job =>
    if job ∈ w.fetched then
      some { w with fetched := w.fetched.erase job, manager := w.manager.trackJob job }
    else none
  | .untrack jobId => some { w with manager := w.manager.untrackJob jobId }
  | .fire => w.fire opts
  | .extend => w.extend opts
  | .extended => w.extended opts
  | .close => some { w with manager := w.manager.close }
  | .expireDeduplicationKey p d => some { w with store := expireDeduplicationKey p d w.store }
  | .elapseDeduplicationKey p d ms =>
    some { w with store := elapseDeduplicationKey p d ms w.store }

/-- A worker starts. -/
def LockWorld.start (opts : LockManagerOptions) (now : ℕ) (s : Store) (expires : String → ℕ) :
    LockWorld :=
  { now, store := s, expires, manager := LockManager.start opts.lockRenewTime now {} }

/-- Steps from a world on, or nothing if one of them cannot happen. -/
def LockWorld.run (opts : LockManagerOptions) (timing : Timing) (actions : List LockAction)
    (w : LockWorld) : Option LockWorld :=
  actions.foldlM (fun w a => w.step opts timing a) w

end BullMQ
