import BullMQ.Model.Finish
import BullMQ.Model.Scheduler

/-!
# Keys as Redis sees them, and the removal of orphaned jobs

To Redis a family of the store and a name in it are one string (`Kind.keys`), and `DEL` deletes
whatever is held under a string. `removeOrphanedJobs` works on this level: it scans the keys of the
queue, reads job ids off their names, and deletes the keys of every id that is in no container.
-/

namespace BullMQ

open Redis

/-! ### Key names -/

/-- The last part of the key of a list. -/
def ListKey.suffix : ListKey → String
  | wait => "wait"
  | paused => "paused"
  | active => "active"

/-- The last part of the key of a sorted set. -/
def ZSetKey.suffix : ZSetKey → String
  | prioritized => "prioritized"
  | delayed => "delayed"
  | completed => "completed"
  | failed => "failed"
  | waitingChildren => "waiting-children"

/-- The keys that hold a value of a family: one, but for the metrics, whose data points are a list
of their own. -/
def Kind.keys : Kind → String → List String
  | .list l, p => [p ++ l.suffix]
  | .zset z, p => [p ++ z.suffix]
  | .id, p => [p ++ "id"]
  | .pc, p => [p ++ "pc"]
  | .metaPaused, p | .metaConcurrency, p | .metaMax, p | .metaDuration, p
  | .metaMaxLenEvents, p => [p ++ "meta"]
  | .stalled, p => [p ++ "stalled"]
  | .stalledCheck, p => [p ++ "stalled-check"]
  | .limiter, p => [p ++ "limiter"]
  | .marker, p => [p ++ "marker"]
  | .events, p => [p ++ "events"]
  | .repeatSet, p => [p ++ "repeat"]
  | .metrics, k => [k, k ++ ":data"]
  | .scheduler, k | .de, k | .dn, k | .hash, k => [k]
  | .lock, k => [k ++ ":" ++ "lock"]
  | .logs, k => [k ++ ":" ++ "logs"]
  | .dependencies, k => [k ++ ":" ++ "dependencies"]
  | .processed, k => [k ++ ":" ++ "processed"]
  | .failedChildren, k => [k ++ ":" ++ "failed"]
  | .unsuccessful, k => [k ++ ":" ++ "unsuccessful"]

/-- The families of a job's own keys. -/
def jobKinds : List Kind :=
  [.hash, .lock, .logs, .dependencies, .processed, .failedChildren, .unsuccessful]

/-- The names that the queue `p` has in a family. -/
def Kind.OfQueue (p : String) : Kind → String → Prop
  | .metrics, k => ∃ status : FinishedStatus, k = p ++ "metrics:" ++ status.name
  | .scheduler, k => ∃ jobSchedulerId, k = schedulerKey p jobSchedulerId
  | .de, k => ∃ d, k = deduplicationKey p d
  | .dn, k => ∃ d, k = deduplicationNextKey p d
  | .hash, k | .lock, k | .logs, k | .dependencies, k | .processed, k | .failedChildren, k
  | .unsuccessful, k => ∃ j, k = p ++ j
  | _, q => q = p

/-- A key, if it exists, is one of the family `κ`. Redis has one key space, the model one for each
family: where two families share a key, the scripts fail with a type error or overwrite what the
other family holds there, and the model says nothing about it. -/
def Store.OnlyIn (s : Store) (κ : Kind) (key : String) : Prop :=
  ∀ κ' k, key ∈ κ'.keys k → κ' ≠ κ → s κ' k = Val.missing κ'

/-- What is left of the value with the name `k` when a key is deleted. -/
def Val.without (key k : String) : (κ : Kind) → Val κ → Val κ
  | .metrics, m =>
    if k = key then { data := m.data }
    else if k ++ ":data" = key then { m with data := [] }
    else m
  | κ, v => if key ∈ κ.keys k then Val.missing κ else v

/-- `DEL`, of one key. -/
def Store.del (s : Store) (key : String) : Store := ⟨fun κ k => Val.without key k κ (s κ k)⟩

/-! ### removeOrphanedJobs -/

/-- The keys of jobs that `removeOrphanedJobs` knows of (`jobSubKeySuffixes`). -/
def jobSubKeySuffixes : List String :=
  ["logs", "dependencies", "processed", "failed", "unsuccessful", "lock"]

/-- The keys that may hold ids (`stateKeySuffixes`). -/
def stateKeySuffixes : List String := queueKeyNames.filter (· ≠ "")

/-- `LPOS`, `ZSCORE` or `SISMEMBER`, as the type of the key demands. The queue's other keys are of
neither type. -/
def Store.stateHolds (s : Store) (p jobId : String) : String → Bool
  | "active" => jobId ∈ s (.list .active) p
  | "wait" => jobId ∈ s (.list .wait) p
  | "paused" => jobId ∈ s (.list .paused) p
  | "waiting-children" => jobId ∈ s (.zset .waitingChildren) p
  | "delayed" => jobId ∈ s (.zset .delayed) p
  | "prioritized" => jobId ∈ s (.zset .prioritized) p
  | "completed" => jobId ∈ s (.zset .completed) p
  | "failed" => jobId ∈ s (.zset .failed) p
  | "stalled" => jobId ∈ s .stalled p
  | "repeat" => jobId ∈ s .repeatSet p
  | "marker" => jobId ∈ s .marker p
  | _ => false

/-- The keys deleted with a job. -/
def orphanKeys (p jobId : String) : List String :=
  (p ++ jobId) :: jobSubKeySuffixes.map fun suffix => p ++ jobId ++ ":" ++ suffix

/-- One turn of the loop of the script: a candidate is deleted unless it is found somewhere. -/
def removeOrphan (p : String) (acc : ℕ × Store) (jobId : String) : ℕ × Store :=
  if stateKeySuffixes.any (acc.2.stateHolds p jobId) then acc
  else (acc.1 + 1, (orphanKeys p jobId).foldl Store.del acc.2)

/-- The script `removeOrphanedJobs`. Returns the number of removed jobs. -/
def Script.removeOrphanedJobs (p : String) (candidateJobIds : List String) (s : Store) :
    ℕ × Store :=
  candidateJobIds.foldl (removeOrphan p) (0, s)

/-- The job id that a scanned key stands for, if any: the part of it in front of the first colon,
where that is no key of the queue and what follows it is a key of a job. -/
def candidateJobId (p key : String) : Option String :=
  let suffix := String.ofList (key.toList.drop p.toList.length)
  if suffix ∈ queueKeyNames then none
  else
    let prefixPart := String.ofList (suffix.toList.takeWhile fun c => decide (c ≠ ':'))
    if prefixPart = suffix then some suffix
    else if prefixPart ∈ queueKeyNames then none
    else
      let subKey := String.ofList (suffix.toList.drop (prefixPart.toList.length + 1))
      if subKey ∈ jobSubKeySuffixes then some prefixPart else none

/-- The candidates of a batch of scanned keys, each once. -/
def candidateJobIds (p : String) (scannedKeys : List String) : List String :=
  (scannedKeys.filterMap (candidateJobId p)).eraseDups

/-- `removeOrphanedJobs` of the backend, given the batches that `SCAN` returns until its cursor is
back at zero and the number of jobs removed so far. -/
def removeOrphanedJobs (p : String) (limit : ℤ) : List (List String) → ℕ → Store → ℕ × Store
  | [], totalRemoved, s => (totalRemoved, s)
  | scannedKeys :: batches, totalRemoved, s =>
    let candidates := candidateJobIds p scannedKeys
    if candidates = [] then removeOrphanedJobs p limit batches totalRemoved s
    else
      let (result, s) := Script.removeOrphanedJobs p candidates s
      let totalRemoved := totalRemoved + result
      if 0 < limit ∧ limit ≤ totalRemoved then (totalRemoved, s)
      else removeOrphanedJobs p limit batches totalRemoved s

end BullMQ
