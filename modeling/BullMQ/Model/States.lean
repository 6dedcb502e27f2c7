import BullMQ.Model.GetJobs

/-!
# The states of the jobs

`getState` and `getStateV2` look a job up in the containers of its queue, `isFinished` looks only at
the sets of finished jobs, and `getCounts` returns how much the containers hold. `getCounts` is no
mere reader either: it pops a legacy marker.
-/

namespace BullMQ

open Redis

/-- What `getState` answers. -/
inductive JobState
  | completed
  | failed
  | delayed
  | active
  | prioritized
  | waiting
  | waitingChildren
  | unknown
  deriving DecidableEq, Repr

/-- `checkItemInList`. -/
def checkItemInList (list : List String) (item : String) : Option ℕ :=
  list.findSome? fun v => if v = item then some 1 else none

namespace Script

/-- `getState`. -/
def getState (p jobId : String) (s : Store) : JobState :=
  if ((s (.zset .completed) p).zscore jobId).isSome then .completed
  else if ((s (.zset .failed) p).zscore jobId).isSome then .failed
  else if ((s (.zset .delayed) p).zscore jobId).isSome then .delayed
  else if ((s (.zset .prioritized) p).zscore jobId).isSome then .prioritized
  else if (checkItemInList (s (.list .active) p) jobId).isSome then .active
  else if (checkItemInList (s (.list .wait) p) jobId).isSome then .waiting
  else if (checkItemInList (s (.list .paused) p) jobId).isSome then .waiting
  else if ((s (.zset .waitingChildren) p).zscore jobId).isSome then .waitingChildren
  else .unknown

/-- `getStateV2`, for servers that know `LPOS`. -/
def getStateV2 (p jobId : String) (s : Store) : JobState :=
  if ((s (.zset .completed) p).zscore jobId).isSome then .completed
  else if ((s (.zset .failed) p).zscore jobId).isSome then .failed
  else if ((s (.zset .delayed) p).zscore jobId).isSome then .delayed
  else if ((s (.zset .prioritized) p).zscore jobId).isSome then .prioritized
  else if ((s (.list .active) p).idxOf? jobId).isSome then .active
  else if ((s (.list .wait) p).idxOf? jobId).isSome then .waiting
  else if ((s (.list .paused) p).idxOf? jobId).isSome then .waiting
  else if ((s (.zset .waitingChildren) p).zscore jobId).isSome then .waitingChildren
  else .unknown

/-- `isFinished`: a code, and with `returnValue` the value or the reason that goes with it. -/
def isFinished (p jobId : String) (returnValue : Bool) (s : Store) : ℤ × Option String :=
  let jobKey := p ++ jobId
  match s .hash jobKey with
  | none =>
    (-1, if returnValue then some ("Missing key for job " ++ jobKey ++ ". isFinished") else none)
  | some job =>
    if ((s (.zset .completed) p).zscore jobId).isSome then
      (1, if returnValue then job.returnvalue else none)
    else if ((s (.zset .failed) p).zscore jobId).isSome then
      (2, if returnValue then job.failedReason else none)
    else (0, none)

end Script

/-! ### Counting -/

/-- The types that jobs are counted by. -/
inductive JobType
  | completed
  | failed
  | active
  | delayed
  | prioritized
  | waiting
  | waitingChildren
  | repeat
  | wait
  deriving DecidableEq, Repr

/-- What `getCounts` counts: the entries of a list or of a sorted set. -/
inductive StateKey
  | list (l : ListKey)
  | zset (z : ZSetKey)
  | repeat
  deriving DecidableEq, Repr

/-- `getCountsArgs`. -/
def JobType.stateKey : JobType → StateKey
  | .completed => .zset .completed
  | .failed => .zset .failed
  | .active => .list .active
  | .delayed => .zset .delayed
  | .prioritized => .zset .prioritized
  | .waiting | .wait => .list .wait
  | .waitingChildren => .zset .waitingChildren
  | .repeat => .repeat

/-- The body of the loop of `getCounts`. -/
def countState (p : String) (key : StateKey) (s : Store) : ℕ × Store :=
  match key with
  | .list .active => ((s (.list .active) p).length, s)
  | .list l =>
    match rpop (s (.list l) p) with
    | some (marker, rest) =>
      if isLegacyMarker marker then
        let count := (s (.list l) p).length
        if 1 < count then (count - 1, s.set (.list l) p rest) else (0, s)
      else ((s (.list l) p).length, s)
    | none => ((s (.list l) p).length, s)
  | .zset z => ((s (.zset z) p).members.length, s)
  | .repeat => ((s .repeatSet p).members.length, s)

/-- `getCounts`. -/
def Script.getCounts (p : String) : List StateKey → Store → List ℕ × Store
  | [], s => ([], s)
  | key :: types, s =>
    let (count, s) := countState p key s
    let (results, s) := getCounts p types s
    (count :: results, s)

/-- `sanitizeJobTypes`: each type once, and the default types if there are none. -/
def sanitizeJobTypes (types : List JobType) : List JobType :=
  if types ≠ [] then types.eraseDups
  else [.active, .completed, .delayed, .failed, .prioritized, .waiting, .waitingChildren]

namespace Queue

/-- `getJobCounts`: the types with their counts. -/
def getJobCounts (p : String) (types : List JobType) (s : Store) : List (JobType × ℕ) × Store :=
  let currentTypes := sanitizeJobTypes types
  let (responses, s) := Script.getCounts p (currentTypes.map JobType.stateKey) s
  (currentTypes.zip responses, s)

/-- `getJobCountByTypes`. -/
def getJobCountByTypes (p : String) (types : List JobType) (s : Store) : ℕ × Store :=
  let (counts, s) := getJobCounts p types s
  ((counts.map Prod.snd).sum, s)

/-- `count`. -/
def count (p : String) (s : Store) : ℕ × Store :=
  getJobCountByTypes p [.waiting, .delayed, .prioritized, .waitingChildren] s

end Queue

end BullMQ
