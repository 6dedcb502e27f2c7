import BullMQ.Model.Cleanup
import BullMQ.Model.Maintain

/-!
# The calls of a queue object

`Queue.clean` calls `cleanJobsInSet` until a call deletes fewer jobs than it was allowed to, or as
many jobs as were asked for are deleted. `Queue.retryJobs`, `Queue.promoteJobs`, `Queue.obliterate`
and a resume call a script until it reports that nothing is left to do.
-/

namespace BullMQ

/-- The loop of `Queue.clean`, where `maxCount` is absent for `Infinity`. The fuel bounds the number
of calls. -/
def cleanLoop (p : String) (timestamp : ℤ) (maxCount : Option ℤ) (maxCountPerCall : ℤ)
    (type : CleanState) : ℕ → List String → Store → Option (List String × Store)
  | 0, _, _ => none
  | fuel + 1, deletedJobsIds, s =>
    if ∀ n ∈ maxCount, deletedJobsIds.length < n then
      match Script.cleanJobsInSet p timestamp maxCountPerCall type s with
      | (.ids jobsIds, s) =>
        let deletedJobsIds := deletedJobsIds ++ jobsIds
        if jobsIds.length < maxCountPerCall then some (deletedJobsIds, s)
        else cleanLoop p timestamp maxCount maxCountPerCall type fuel deletedJobsIds s
      | (_, s) => some (deletedJobsIds, s)
    else some (deletedJobsIds, s)

/-- `Queue.clean`: the ids that were deleted. `now` is the time of the call, and a limit of zero is
none. -/
def Queue.clean (fuel : ℕ) (p : String) (now grace limit : ℤ) (type : CleanState) (s : Store) :
    Option (List String × Store) :=
  let maxCount := if limit = 0 then none else some limit
  let maxCountPerCall := maxCount.elim 10000 (min 10000)
  cleanLoop p (now - grace) maxCount maxCountPerCall type fuel [] s

/-- The loop of `RedisQueueBackend.pause(false)`. -/
def resumeLoop (p : String) : ℕ → Bool → Store → Option Store
  | 0, _, _ => none
  | calls + 1, emitEvent, s =>
    match Script.pause p false emitEvent s with
    | (.code legacyPausedRemaining, s) =>
      if 0 < legacyPausedRemaining then resumeLoop p calls false s else some s
    | (_, s) => some s

/-- `RedisQueueBackend.pause`, with at most so many calls. -/
def RedisQueueBackend.pause (calls : ℕ) (p : String) (pause : Bool) (s : Store) : Option Store :=
  if pause then some (Script.pause p true true s).2 else resumeLoop p calls true s

/-- The loop of `Queue.retryJobs` and `Queue.promoteJobs`, from call number `call` on. -/
def moveJobsLoop (p : String) (state : BulkState) (count : ℤ) (timestamp : ℕ → ℤ) :
    ℕ → ℕ → Store → Option Store
  | 0, _, _ => none
  | calls + 1, call, s =>
    match Script.moveJobsToWait p state count (timestamp call) s with
    | (.code cursor, s) =>
      if cursor ≠ 0 then moveJobsLoop p state count timestamp calls (call + 1) s else some s
    | (_, s) => some s

/-- `Queue.retryJobs`, with at most so many calls. Without a timestamp each call takes the time
`now` of its own. -/
def Queue.retryJobs (calls : ℕ) (p : String) (count : ℤ) (state : FinishedStatus)
    (timestamp : Option ℤ) (now : ℕ → ℤ) (s : Store) : Option Store :=
  moveJobsLoop p (.finished state) count (fun call => timestamp.getD (now call)) calls 0 s

/-- `Number.MAX_VALUE`. -/
def numberMaxValue : ℤ := 2 ^ 1024 - 2 ^ 971

/-- `Queue.promoteJobs`, with at most so many calls. -/
def Queue.promoteJobs (calls : ℕ) (p : String) (count : ℤ) (s : Store) : Option Store :=
  moveJobsLoop p .delayed count (fun _ => numberMaxValue) calls 0 s

/-- The loop of `Queue.obliterate`: the error it throws, if it does, and the store. -/
def obliterateLoop (p : String) (count : ℤ) (force : Bool) :
    ℕ → Store → Option (Except String Unit × Store)
  | 0, _ => none
  | calls + 1, s =>
    match Script.obliterate p count force s with
    | (.code result, s) =>
      if result = -1 then some (.error "Cannot obliterate non-paused queue", s)
      else if result = -2 then some (.error "Cannot obliterate queue with active jobs", s)
      else if result ≠ 0 then obliterateLoop p count force calls s
      else some (.ok (), s)
    | (_, s) => some (.ok (), s)

/-- `Queue.obliterate`, which pauses the queue first, with at most so many calls. -/
def Queue.obliterate (calls : ℕ) (p : String) (count : ℤ) (force : Bool) (s : Store) :
    Option (Except String Unit × Store) :=
  obliterateLoop p count force calls (Script.pause p true true s).2

end BullMQ
