import BullMQ.Model.Fetch
import BullMQ.Model.Remove

/-!
# Ending an activation

The scripts by which a worker gives up an active job: `moveToFinished`, `moveToDelayed`,
`moveToWaitingChildren`, `retryJob` and `moveJobFromActiveToWait`. All of them begin by releasing
the lock; the first four then take the id off the active list and fail with `-3` if it is not
there, after the lock is gone (`removeJobFromActive`).
-/

namespace BullMQ

open Redis

/-! ### Giving up a job -/

/-- `removeLock`: a token other than `"0"` has to own the lock. -/
def removeLock (p jobId token : String) (s : Store) : ℤ × Store :=
  let jobKey := p ++ jobId
  if token = "0" then (0, s)
  else
    match s .lock jobKey with
    | none => (-2, s)
    | some lockToken =>
      if lockToken = token then
        let s : Store := s.set .lock jobKey none
        (0, s.modify .stalled p (·.srem jobId))
      else (-6, s)

/-- The job fields a finishing script may be asked to write. -/
structure FieldsToUpdate where
  failedReason : Option String := none
  stacktrace : Option String := none
  tm : Option String := none
  deriving DecidableEq, Repr

/-- `updateJobFields`. -/
def updateJobFields (jobKey : String) (fields : Option FieldsToUpdate) (s : Store) : Store :=
  match fields with
  | none => s
  | some fields =>
    s.hset jobKey fun job =>
      { job with
        failedReason := fields.failedReason <|> job.failedReason
        stacktrace := fields.stacktrace <|> job.stacktrace
        tm := fields.tm <|> job.tm }

/-- `removeJobFromActive`, as `moveToWaitingChildren` calls it and as the other scripts spell it
out with an update of fields in between: release the lock, update the fields and take the id off
the active list. The code is `0`, `-2`, `-6` or `-3`. -/
def removeJobFromActive (p jobId token : String) (fields : Option FieldsToUpdate) (s : Store) :
    ℤ × Store :=
  let (errorCode, s) := removeLock p jobId token s
  if errorCode < 0 then (errorCode, s)
  else
    let s := updateJobFields (p ++ jobId) fields s
    if jobId ∈ s (.list .active) p then (0, s.modify (.list .active) p (lremRight jobId))
    else (-3, s)

/-! ### Metrics -/

/-- `collectMetrics`: one data point for every minute since the last one. -/
def collectMetrics (key : String) (maxDataPoints timestamp : ℤ) (s : Store) : Store :=
  s.modify .metrics key fun m =>
    let count := m.count
    let m := { m with count := m.count + 1 }
    match m.prevTS with
    | none => { m with prevTS := some timestamp, prevCount := 0 }
    | some prevTS =>
      let N := min (timestamp / 60000 - prevTS / 60000) maxDataPoints
      if 0 < N then
        let delta := count - m.prevCount
        let points := delta :: List.replicate (N.toNat - 1) 0
        let data := (batches points.length 7000).foldl
          (fun data range => (unpack points range).foldl (fun data x => lpush x data) data) m.data
        { m with
          data := data.take maxDataPoints.toNat, prevCount := count, prevTS := some timestamp }
      else m

/-! ### moveToFinished -/

/-- How many finished jobs are kept, and for how long. -/
structure KeepJobs where
  count : Option ℤ := none
  age : Option ℤ := none
  limit : Option ℤ := none
  deriving DecidableEq, Repr

/-- The arguments of `moveToFinished`, apart from the queue. -/
structure FinishArgs where
  jobId : String
  timestamp : ℤ
  /-- The return value or the failed reason. -/
  value : String
  target : FinishedStatus
  fetchNext : Bool
  opts : FetchOpts
  keepJobs : KeepJobs := {}
  attempts : ℤ := 0
  maxMetricsSize : Option ℤ := none
  fieldsToUpdate : Option FieldsToUpdate := none
  deriving DecidableEq, Repr

/-- Account for a finished child with its parent. -/
def notifyParent (parent : Option Parent) (jobIdKey : String) (a : FinishArgs) (s : Store) :
    Store :=
  match parent with
  | none => s
  | some P =>
    if P.id = "" then s
    else
      match a.target with
      | .completed =>
        if jobIdKey ∈ s .dependencies P.key then
          updateParentDepsIfNeeded P jobIdKey a.value a.timestamp
            (s.modify .dependencies P.key (·.srem jobIdKey))
        else s
      | .failed => moveChildFromDependenciesIfNeeded (some P) jobIdKey a.value a.timestamp s

/-- The result fields of a job that is kept. -/
def FinishArgs.record (a : FinishArgs) (job : Job) : Job :=
  match a.target with
  | .completed => { job with returnvalue := some a.value, finishedOn := some a.timestamp }
  | .failed => { job with failedReason := some a.value, finishedOn := some a.timestamp }

/-- Put a finished job into its set, with its result. -/
def recordFinished (p : String) (a : FinishArgs) (s : Store) : Store :=
  let jobIdKey := p ++ a.jobId
  let s : Store := s.modify (.zset a.target.zset) p (·.zadd a.timestamp a.jobId)
  let s := s.hset jobIdKey a.record
  if a.target = .failed then s.hdel jobIdKey fun job => { job with defa := none } else s

/-- Retention by age. -/
def retainByAge (p : String) (a : FinishArgs) (s : Store) : Store :=
  match a.keepJobs.age with
  | some maxAge =>
    removeJobsByMaxAge p a.timestamp maxAge a.target.zset (a.keepJobs.limit.getD 1000) s
  | none => s

/-- Retention by number. -/
def retainByCount (p : String) (a : FinishArgs) (s : Store) : Store :=
  match a.keepJobs.count with
  | some maxCount =>
    if 0 < maxCount then removeJobsByMaxCount p maxCount.toNat a.target.zset s else s
  | none => s

/-- Keep a finished job in its set and apply the retention to the set. -/
def keepFinished (p : String) (a : FinishArgs) (s : Store) : Store :=
  retainByCount p a (retainByAge p a (recordFinished p a s))

/-- Keep or delete a finished job. -/
def keepOrRemove (p : String) (parent : Option Parent) (a : FinishArgs) (s : Store) : Store :=
  let jobIdKey := p ++ a.jobId
  if a.keepJobs.count ≠ some 0 then keepFinished p a s
  else
    let s := removeJobKeys jobIdKey s
    match parent with
    | some P => (removeParentDependencyKey jobIdKey (some P.key) s).2
    | none => s

/-- The name of a finished status in keys and events. -/
def FinishedStatus.name : FinishedStatus → String
  | .completed => "completed"
  | .failed => "failed"

/-- The `finished` event of a job, and the event of its last attempt. -/
def emitFinished (p : String) (a : FinishArgs) (attemptsMade : ℕ) (s : Store) : Store :=
  let s := s.xadd p (.finished a.target a.jobId a.value "active")
  if a.target = .failed ∧ a.attempts ≤ attemptsMade then
    s.xadd p (.retriesExhausted a.jobId attemptsMade)
  else s

/-- The part of `moveToFinished` that deals with the other jobs: the successor kept under the
deduplication id and the parent. -/
def settleFinished (p : String) (a : FinishArgs) (s : Store) : Store :=
  let jobIdKey := p ++ a.jobId
  let parent := s.parentOf jobIdKey
  let deid := s.deidOf jobIdKey
  let s := trimEvents p s
  let s := removeDeduplicationKeyIfNeededOnFinalization p deid a.jobId s
  let s := requeueDeduplicatedJob p deid a.timestamp s
  notifyParent parent jobIdKey a s

/-- The part of `moveToFinished` between the removal from the active list and the fetch. -/
def finishJob (p : String) (a : FinishArgs) (s : Store) : Store :=
  let jobIdKey := p ++ a.jobId
  let parent := s.parentOf jobIdKey
  let s := settleFinished p a s
  let s := s.hset jobIdKey fun job => { job with atm := job.atm + 1 }
  let attemptsMade := ((s .hash jobIdKey).map Job.atm).getD 0
  let s := keepOrRemove p parent a s
  let s := emitFinished p a attemptsMade s
  match a.maxMetricsSize with
  | some maxMetricsSize =>
    collectMetrics (p ++ "metrics:" ++ a.target.name) maxMetricsSize a.timestamp s
  | none => s

/-- The `drained` event of a queue in which no job is left to process. -/
def emitDrained (p : String) (s : Store) : Store :=
  if s (.list .wait) p = [] ∧ s (.list .active) p = [] ∧ s (.zset .prioritized) p = ∅ then
    s.xadd p .drained
  else s

/-- The last part of `moveToFinished`: hand out the next job or announce a drained queue. -/
def fetchOrDrain (p : String) (a : FinishArgs) (s : Store) : Reply × Store :=
  if a.fetchNext then
    let (result, s) := fetchNextJob p a.timestamp a.opts s
    match result with
    | some result => (result, s)
    | none => (.code 0, emitDrained p s)
  else (.code 0, emitDrained p s)

namespace Script

/-- `moveToFinished`. -/
def moveToFinished (p : String) (a : FinishArgs) (s : Store) : Reply × Store :=
  let jobIdKey := p ++ a.jobId
  if ¬ s.jobExists jobIdKey then (.code (-1), s)
  else if a.target = .completed ∧ s .dependencies jobIdKey ≠ ∅ then (.code (-4), s)
  else if a.target = .completed ∧ s .unsuccessful jobIdKey ≠ ∅ then (.code (-9), s)
  else
    let (errorCode, s) := removeJobFromActive p a.jobId a.opts.token a.fieldsToUpdate s
    if errorCode < 0 then (.code errorCode, s) else fetchOrDrain p a (finishJob p a s)

end Script

/-! ### The other finishing scripts -/

/-- The arguments of `moveToDelayed`, apart from the queue. -/
structure DelayArgs where
  jobId : String
  timestamp : ℤ
  token : String
  delay : ℤ
  skipAttempt : Bool := false
  fieldsToUpdate : Option FieldsToUpdate := none
  /-- The options of the fetch that follows, if one does. -/
  fetchNext : Option FetchOpts := none
  deriving DecidableEq, Repr

/-- The part of `moveToDelayed` between the removal from the active list and the fetch. -/
def delayJob (p : String) (a : DelayArgs) (s : Store) : Store :=
  let jobKey := p ++ a.jobId
  let (score, delayedTimestamp) := getDelayedScore p a.timestamp a.delay s
  let s := if a.skipAttempt then s else s.hset jobKey fun job => { job with atm := job.atm + 1 }
  let s := s.hset jobKey fun job => { job with delay := some a.delay }
  let s := getOrSetMaxEvents p s
  let s : Store := s.modify (.zset .delayed) p (·.zadd score a.jobId)
  s.xadd p (.delayed a.jobId delayedTimestamp)

/-- The last part of `moveToDelayed`: hand out the next job or leave the delay marker. -/
def fetchOrMark (p : String) (a : DelayArgs) (s : Store) : Reply × Store :=
  match a.fetchNext with
  | none => (.code 0, addDelayMarkerIfNeeded p s)
  | some opts =>
    let (result, s) := fetchNextJob p a.timestamp opts s
    match result with
    | some (.job data jobId) => (.job data jobId, s)
    | some .error => (.error, s)
    | _ => (.code 0, addDelayMarkerIfNeeded p s)

/-- The arguments of `retryJob`, apart from the queue. -/
structure RetryArgs where
  jobId : String
  timestamp : ℤ
  token : String
  pushCmd : PushCmd
  fieldsToUpdate : Option FieldsToUpdate := none
  deriving DecidableEq, Repr

/-- The part of `retryJob` after the removal from the active list. -/
def requeueJob (p : String) (a : RetryArgs) (s : Store) : Store :=
  let jobKey := p ++ a.jobId
  let priority := s.priorityOf jobKey
  let isPausedOrMaxed := isQueuePausedOrMaxed p s
  let s :=
    if priority = 0 then addJobInTargetList p a.pushCmd isPausedOrMaxed a.jobId s
    else addJobWithPriority p priority a.jobId isPausedOrMaxed s
  let s := s.hset jobKey fun job => { job with atm := job.atm + 1 }
  let s := getOrSetMaxEvents p s
  s.xadd p (.waiting a.jobId (some "active"))

/-- The part of `moveJobFromActiveToWait` after the removal from the active list. -/
def pushBackJob (p jobId : String) (s : Store) : Store :=
  let isPausedOrMaxed := isQueuePausedOrMaxed p s
  let priority := s.priorityOf (p ++ jobId)
  let s :=
    if 0 < priority then pushBackJobWithPriority p priority jobId s
    else addJobInTargetList p .rpush isPausedOrMaxed jobId s
  let s := getOrSetMaxEvents p s
  s.xadd p (.waiting jobId (some "active"))

namespace Script

/-- `moveToDelayed`. -/
def moveToDelayed (p : String) (a : DelayArgs) (s : Store) : Reply × Store :=
  if ¬ s.jobExists (p ++ a.jobId) then (.code (-1), s)
  else
    let (errorCode, s) := removeJobFromActive p a.jobId a.token a.fieldsToUpdate s
    if errorCode < 0 then (.code errorCode, s) else fetchOrMark p a (delayJob p a s)

/-- `moveToWaitingChildren`. `childKey` is empty when any pending child will do. -/
def moveToWaitingChildren (p jobId token childKey : String) (timestamp : ℤ) (s : Store) :
    Reply × Store :=
  let jobKey := p ++ jobId
  if ¬ s.jobExists jobKey then (.code (-1), s)
  else if s .unsuccessful jobKey ≠ ∅ then (.code (-9), s)
  else if if childKey ≠ "" then childKey ∈ s .dependencies jobKey
      else s .dependencies jobKey ≠ ∅ then
    let (errorCode, s) := removeJobFromActive p jobId token none s
    if errorCode < 0 then (.code errorCode, s)
    else
      let s : Store := s.modify (.zset .waitingChildren) p (·.zadd timestamp jobId)
      (.code 0, s.xadd p (.waitingChildren jobId (some "active")))
  else (.code 1, s)

/-- `retryJob`. The promotion of delayed jobs comes before any check. -/
def retryJob (p : String) (a : RetryArgs) (s : Store) : Reply × Store :=
  let s := promoteDelayedJobs p a.timestamp (isQueuePausedOrMaxed p s) s
  if ¬ s.jobExists (p ++ a.jobId) then (.code (-1), s)
  else
    let (errorCode, s) := removeJobFromActive p a.jobId a.token a.fieldsToUpdate s
    if errorCode < 0 then (.code errorCode, s)
    else (.code 0, requeueJob p a s)

/-- `moveJobFromActiveToWait`: the reply is the rate limit's time to live. -/
def moveJobFromActiveToWait (p jobId token : String) (s : Store) : Reply × Store :=
  if ¬ s.jobExists (p ++ jobId) then (.code (-1), s)
  else
    let (errorCode, s) := removeLock p jobId token s
    if errorCode < 0 then (.code errorCode, s)
    else
      let s :=
        if jobId ∈ s (.list .active) p then
          pushBackJob p jobId (s.modify (.list .active) p (lremLeft jobId))
        else s
      (.code (((s .limiter p).bind Limiter.pttl).getD 0 : ℕ), s)

end Script

/-! ### What giving up a job does -/

/-- A token may release a job: it is the lock-less `"0"` or owns the lock. -/
def MayRelease (s : Store) (p j token : String) : Prop :=
  token = "0" ∨ s .lock (p ++ j) = some token

theorem removeLock_frame (p j t : String) (s : Store) {κ : Kind} (h : κ ∉ [Kind.lock, .stalled]) :
    (removeLock p j t s).2 κ = s κ := by
  simp only [List.mem_cons, List.not_mem_nil, or_false, not_or] at h
  simp only [removeLock]
  split
  · rfl
  · split
    · rfl
    · split
      · rw [Keyspace.modify_of_ne _ h.2, Keyspace.set_of_ne _ h.1]
      · rfl

/-- `removeLock` succeeds for a token that may release the job, and else changes nothing. -/
theorem removeLock_cases (p j t : String) (s : Store) :
    (MayRelease s p j t ∧ (removeLock p j t s).1 = 0) ∨
      (¬ MayRelease s p j t ∧ ∃ n : ℤ, n < 0 ∧ n ≠ -3 ∧ removeLock p j t s = (n, s)) := by
  unfold MayRelease
  by_cases ht : t = "0"
  · exact .inl ⟨.inl ht, by simp [removeLock, ht]⟩
  · rcases hl : s .lock (p ++ j) with _ | t'
    · exact .inr ⟨by simp [ht], -2, by decide, by decide, by simp [removeLock, ht, hl]⟩
    · by_cases htt : t' = t
      · exact .inl ⟨.inr (by rw [htt]), by simp [removeLock, ht, hl, htt]⟩
      · exact .inr ⟨by simp [ht, htt], -6, by decide, by decide, by simp [removeLock, ht, hl, htt]⟩

theorem updateJobFields_frame (k : String) (f : Option FieldsToUpdate) (s : Store) {κ : Kind}
    (h : κ ≠ .hash) : updateJobFields k f s κ = s κ := by
  unfold updateJobFields
  split
  · rfl
  · exact Store.hset_of_ne _ _ _ h

/-- The store in which a job has lost its lock and got its fields. -/
def releasedJob (p j t : String) (f : Option FieldsToUpdate) (s : Store) : Store :=
  updateJobFields (p ++ j) f (removeLock p j t s).2

theorem releasedJob_frame (p j t : String) (f : Option FieldsToUpdate) (s : Store) {κ : Kind}
    (h : κ ∉ [Kind.lock, .stalled, .hash]) : releasedJob p j t f s κ = s κ := by
  have hhash : κ ≠ .hash := by rintro rfl; simp at h
  rw [releasedJob, updateJobFields_frame _ _ _ hhash,
    removeLock_frame _ _ _ _ (Kind.notMem_mono h (by decide))]

/-- The store in which a released job is off the active list. -/
def leftActive (p j t : String) (f : Option FieldsToUpdate) (s : Store) : Store :=
  (releasedJob p j t f s).modify (.list .active) p (lremRight j)

theorem leftActive_frame (p j t : String) (f : Option FieldsToUpdate) (s : Store) {κ : Kind}
    (h : κ ∉ [Kind.lock, .stalled, .hash, .list .active]) : leftActive p j t f s κ = s κ := by
  have hact : κ ≠ .list .active := by rintro rfl; simp at h
  rw [leftActive, Keyspace.modify_of_ne _ hact,
    releasedJob_frame _ _ _ _ _ (Kind.notMem_mono h (by decide))]

theorem leftActive_active (p j t : String) (f : Option FieldsToUpdate) (s : Store) :
    leftActive p j t f s (.list .active) =
      Function.update (s (.list .active)) p (lremRight j (s (.list .active) p)) := by
  rw [leftActive, Keyspace.modify_self, releasedJob_frame _ _ _ _ _ (by decide)]

/-- The three ends of `removeJobFromActive`: the token does not own the lock and nothing happens;
the job is not active, but its lock and fields are changed; the job leaves the active list. -/
theorem removeJobFromActive_cases (p j t : String) (f : Option FieldsToUpdate) (s : Store) :
    (¬ MayRelease s p j t ∧ ∃ n : ℤ, n < 0 ∧ n ≠ -3 ∧ removeJobFromActive p j t f s = (n, s)) ∨
    (MayRelease s p j t ∧ j ∉ s (.list .active) p ∧
      removeJobFromActive p j t f s = (-3, releasedJob p j t f s)) ∨
    (MayRelease s p j t ∧ j ∈ s (.list .active) p ∧ removeJobFromActive p j t f s =
      (0, leftActive p j t f s)) := by
  obtain ⟨hmay, hcode⟩ | ⟨hmay, n, hn, hn3, hres⟩ := removeLock_cases p j t s
  · have hact : releasedJob p j t f s (.list .active) = s (.list .active) :=
      releasedJob_frame p j t f s (by decide)
    right
    simp only [removeJobFromActive, hcode]
    by_cases hj : j ∈ s (.list .active) p
    · refine .inr ⟨hmay, hj, ?_⟩
      rw [← hact] at hj
      exact if_pos hj
    · refine .inl ⟨hmay, hj, ?_⟩
      rw [← hact] at hj
      exact if_neg hj
  · exact .inl ⟨hmay, n, hn, hn3, by simp [removeJobFromActive, hres, hn]⟩

/-! ### The ends of the finishing scripts -/

/-- A finishing call with this token gives up the job: the job exists and is active, and the
token may release it. -/
structure GivesUp (s : Store) (p j token : String) : Prop where
  jobExists : s.jobExists (p ++ j) = true
  mayRelease : MayRelease s p j token
  active : j ∈ s (.list .active) p

/-- A finishing call with this token releases a job that is not active. -/
structure ReleasesOnly (s : Store) (p j token : String) : Prop where
  jobExists : s.jobExists (p ++ j) = true
  mayRelease : MayRelease s p j token
  notActive : j ∉ s (.list .active) p

theorem ReleasesOnly.not_givesUp {s : Store} {p j token : String}
    (h : ReleasesOnly s p j token) : ¬ GivesUp s p j token :=
  fun hg => h.notActive hg.active

/-- `moveToFinished` finishes its job: besides, no child stands in the way of a completion. -/
def FinishesJob (s : Store) (p : String) (a : FinishArgs) : Prop :=
  GivesUp s p a.jobId a.opts.token ∧ (a.target = .completed →
    s .dependencies (p ++ a.jobId) = ∅ ∧ s .unsuccessful (p ++ a.jobId) = ∅)

theorem ReleasesOnly.not_finishesJob {s : Store} {p : String} {a : FinishArgs}
    (h : ReleasesOnly s p a.jobId a.opts.token) : ¬ FinishesJob s p a :=
  fun hf => h.not_givesUp hf.1

instance (s : Store) (p j token : String) : Decidable (GivesUp s p j token) :=
  decidable_of_iff (s.jobExists (p ++ j) = true ∧ (token = "0" ∨ s .lock (p ++ j) = some token) ∧
    j ∈ s (.list .active) p) ⟨fun h => ⟨h.1, h.2.1, h.2.2⟩, fun h => ⟨h.1, h.2, h.3⟩⟩

instance (s : Store) (p : String) (a : FinishArgs) : Decidable (FinishesJob s p a) :=
  inferInstanceAs (Decidable (_ ∧ _))

namespace Script

/-- The ends of `moveToFinished`: refused without effect; refused with `-3`; carried out. -/
theorem moveToFinished_cases (p : String) (a : FinishArgs) (s : Store) :
    (¬ FinishesJob s p a ∧ ∃ n : ℤ, n < 0 ∧ n ≠ -3 ∧ moveToFinished p a s = (.code n, s)) ∨
    (ReleasesOnly s p a.jobId a.opts.token ∧ moveToFinished p a s =
      (.code (-3), releasedJob p a.jobId a.opts.token a.fieldsToUpdate s)) ∨
    (FinishesJob s p a ∧ moveToFinished p a s = fetchOrDrain p a
      (finishJob p a (leftActive p a.jobId a.opts.token a.fieldsToUpdate s))) := by
  simp only [moveToFinished]
  by_cases hex : s.jobExists (p ++ a.jobId) = true
  · by_cases hdep : a.target = .completed ∧ s .dependencies (p ++ a.jobId) ≠ ∅
    · refine .inl ⟨fun h => hdep.2 (h.2 hdep.1).1, -4, by decide, by decide, ?_⟩
      rw [if_neg (by simp [hex]), if_pos hdep]
    · by_cases huns : a.target = .completed ∧ s .unsuccessful (p ++ a.jobId) ≠ ∅
      · refine .inl ⟨fun h => huns.2 (h.2 huns.1).2, -9, by decide, by decide, ?_⟩
        rw [if_neg (by simp [hex]), if_neg hdep, if_pos huns]
      · rw [if_neg (by simp [hex]), if_neg hdep, if_neg huns]
        obtain ⟨hmay, n, hn, hn3, hres⟩ | ⟨hmay, hact, hres⟩ | ⟨hmay, hact, hres⟩ :=
          removeJobFromActive_cases p a.jobId a.opts.token a.fieldsToUpdate s
        · exact .inl ⟨fun h => hmay h.1.mayRelease, n, hn, hn3, by rw [hres, if_pos hn]⟩
        · exact .inr (.inl ⟨⟨hex, hmay, hact⟩, by simp [hres]⟩)
        · refine .inr (.inr ⟨⟨⟨hex, hmay, hact⟩, fun ht => ⟨?_, ?_⟩⟩, ?_⟩)
          · simpa [ht] using hdep
          · simpa [ht] using huns
          · simp [hres]
  · exact .inl ⟨fun h => hex h.1.jobExists, -1, by decide, by decide, by rw [if_pos hex]⟩

/-- The ends of `moveToDelayed`. -/
theorem moveToDelayed_cases (p : String) (a : DelayArgs) (s : Store) :
    (¬ GivesUp s p a.jobId a.token ∧
      ∃ n : ℤ, n < 0 ∧ n ≠ -3 ∧ moveToDelayed p a s = (.code n, s)) ∨
    (ReleasesOnly s p a.jobId a.token ∧
      moveToDelayed p a s = (.code (-3), releasedJob p a.jobId a.token a.fieldsToUpdate s)) ∨
    (GivesUp s p a.jobId a.token ∧ moveToDelayed p a s = fetchOrMark p a
      (delayJob p a (leftActive p a.jobId a.token a.fieldsToUpdate s))) := by
  simp only [moveToDelayed]
  by_cases hex : s.jobExists (p ++ a.jobId) = true
  · rw [if_neg (by simp [hex])]
    obtain ⟨hmay, n, hn, hn3, hres⟩ | ⟨hmay, hact, hres⟩ | ⟨hmay, hact, hres⟩ :=
      removeJobFromActive_cases p a.jobId a.token a.fieldsToUpdate s
    · exact .inl ⟨fun h => hmay h.mayRelease, n, hn, hn3, by rw [hres, if_pos hn]⟩
    · exact .inr (.inl ⟨⟨hex, hmay, hact⟩, by simp [hres]⟩)
    · exact .inr (.inr ⟨⟨hex, hmay, hact⟩, by simp [hres]⟩)
  · exact .inl ⟨fun h => hex h.jobExists, -1, by decide, by decide, by rw [if_pos hex]⟩

/-- A job moved from the active list to those that wait for children. -/
def movedToWaitingChildren (p j t : String) (ts : ℤ) (s : Store) : Store :=
  Store.xadd ((leftActive p j t none s).modify (.zset .waitingChildren) p (·.zadd ts j)) p
    (.waitingChildren j (some "active"))

/-- The ends of `moveToWaitingChildren`, which may also find no pending child. -/
theorem moveToWaitingChildren_cases (p j t c : String) (ts : ℤ) (s : Store) :
    (∃ n : ℤ, (n < 0 ∧ n ≠ -3 ∨ n = 1) ∧ moveToWaitingChildren p j t c ts s = (.code n, s)) ∨
    (ReleasesOnly s p j t ∧
      moveToWaitingChildren p j t c ts s = (.code (-3), releasedJob p j t none s)) ∨
    (GivesUp s p j t ∧ s .dependencies (p ++ j) ≠ ∅ ∧ moveToWaitingChildren p j t c ts s =
      (.code 0, movedToWaitingChildren p j t ts s)) := by
  simp only [moveToWaitingChildren]
  by_cases hex : s.jobExists (p ++ j) = true
  · rw [if_neg (by simp [hex])]
    by_cases huns : s .unsuccessful (p ++ j) ≠ ∅
    · exact .inl ⟨-9, .inl (by decide), by rw [if_pos huns]⟩
    · rw [if_neg huns]
      by_cases hpend : if c ≠ "" then c ∈ s .dependencies (p ++ j) else s .dependencies (p ++ j) ≠ ∅
      · rw [if_pos hpend]
        obtain ⟨-, n, hn, hn3, hres⟩ | ⟨hmay, hact, hres⟩ | ⟨hmay, hact, hres⟩ :=
          removeJobFromActive_cases p j t none s
        · exact .inl ⟨n, .inl ⟨hn, hn3⟩, by rw [hres, if_pos hn]⟩
        · exact .inr (.inl ⟨⟨hex, hmay, hact⟩, by simp [hres]⟩)
        · refine .inr (.inr ⟨⟨hex, hmay, hact⟩, ?_, ?_⟩)
          · split at hpend
            · intro hemp
              rw [hemp] at hpend
              exact MemberSet.notMem_empty _ hpend
            · exact hpend
          · simp [hres, movedToWaitingChildren]
      · exact .inl ⟨1, .inr rfl, by rw [if_neg hpend]⟩
  · exact .inl ⟨-1, .inl (by decide), by rw [if_pos hex]⟩

/-- The ends of `retryJob`, all of them after the promotion of delayed jobs. -/
theorem retryJob_cases (p : String) (a : RetryArgs) (s : Store) :
    ∃ s₀, s₀ = promoteDelayedJobs p a.timestamp (isQueuePausedOrMaxed p s) s ∧
    ((¬ GivesUp s₀ p a.jobId a.token ∧
      ∃ n : ℤ, n < 0 ∧ n ≠ -3 ∧ retryJob p a s = (.code n, s₀)) ∨
    (ReleasesOnly s₀ p a.jobId a.token ∧
      retryJob p a s = (.code (-3), releasedJob p a.jobId a.token a.fieldsToUpdate s₀)) ∨
    (GivesUp s₀ p a.jobId a.token ∧ retryJob p a s =
      (.code 0, requeueJob p a (leftActive p a.jobId a.token a.fieldsToUpdate s₀)))) := by
  refine ⟨_, rfl, ?_⟩
  simp only [retryJob]
  generalize promoteDelayedJobs p a.timestamp (isQueuePausedOrMaxed p s) s = s₀
  by_cases hex : s₀.jobExists (p ++ a.jobId) = true
  · rw [if_neg (by simp [hex])]
    obtain ⟨hmay, n, hn, hn3, hres⟩ | ⟨hmay, hact, hres⟩ | ⟨hmay, hact, hres⟩ :=
      removeJobFromActive_cases p a.jobId a.token a.fieldsToUpdate s₀
    · exact .inl ⟨fun h => hmay h.mayRelease, n, hn, hn3, by rw [hres, if_pos hn]⟩
    · exact .inr (.inl ⟨⟨hex, hmay, hact⟩, by simp [hres]⟩)
    · exact .inr (.inr ⟨⟨hex, hmay, hact⟩, by simp [hres]⟩)
  · exact .inl ⟨fun h => hex h.jobExists, -1, by decide, by decide, by rw [if_pos hex]⟩

/-- The ends of `moveJobFromActiveToWait`, which does not mind a job that is not active. -/
theorem moveJobFromActiveToWait_cases (p j t : String) (s : Store) :
    (¬ GivesUp s p j t ∧ ∃ n : ℤ, n < 0 ∧ moveJobFromActiveToWait p j t s = (.code n, s)) ∨
    (ReleasesOnly s p j t ∧
      ∃ n : ℕ, moveJobFromActiveToWait p j t s = (.code n, (removeLock p j t s).2)) ∨
    (GivesUp s p j t ∧ ∃ n : ℕ, moveJobFromActiveToWait p j t s = (.code n, pushBackJob p j
      ((removeLock p j t s).2.modify (.list .active) p (lremLeft j)))) := by
  simp only [moveJobFromActiveToWait]
  by_cases hex : s.jobExists (p ++ j) = true
  · rw [if_neg (by simp [hex])]
    have hact : (removeLock p j t s).2 (.list .active) = s (.list .active) :=
      removeLock_frame _ _ _ _ (by decide)
    obtain ⟨hmay, hcode⟩ | ⟨hmay, n, hn, -, hres⟩ := removeLock_cases p j t s
    · right
      rw [hcode, if_neg (by decide), hact]
      by_cases hj : j ∈ s (.list .active) p
      · exact .inr ⟨⟨hex, hmay, hj⟩, _, by rw [if_pos hj]⟩
      · exact .inl ⟨⟨hex, hmay, hj⟩, _, by rw [if_neg hj]⟩
    · exact .inl ⟨fun h => hmay h.mayRelease, n, hn, by rw [hres, if_pos hn]⟩
  · exact .inl ⟨fun h => hex h.jobExists, -1, by decide, by rw [if_pos hex]⟩

end Script

/-! ### What the finishing scripts write -/

theorem collectMetrics_frame (k : String) (m t : ℤ) (s : Store) {κ : Kind} (h : κ ≠ .metrics) :
    collectMetrics k m t s κ = s κ :=
  Keyspace.modify_of_ne _ h ..

theorem notifyParent_frame (P : Option Parent) (k : String) (a : FinishArgs) (s : Store) {κ : Kind}
    (h : κ ∉ Kind.processed :: childFailureWrites) : notifyParent P k a s κ = s κ := by
  have hdep : κ ≠ .dependencies := by rintro rfl; exact h (by decide)
  unfold notifyParent
  split
  · rfl
  · split
    · rfl
    · split
      · split
        · rw [updateParentDepsIfNeeded_frame _ _ _ _ _ (Kind.notMem_mono h (by decide)),
            Keyspace.modify_of_ne _ hdep]
        · rfl
      · exact moveChildFromDependenciesIfNeeded_frame _ _ _ _ _ (Kind.notMem_mono h (by decide))

/-- The families the keeping or removal of a finished job writes. -/
def keepWrites : List Kind := .zset .completed :: .zset .failed :: removalWrites

theorem recordFinished_frame (p : String) (a : FinishArgs) (s : Store) {κ : Kind}
    (h : κ ∉ [Kind.hash, .zset a.target.zset]) : recordFinished p a s κ = s κ := by
  simp only [List.mem_cons, List.not_mem_nil, or_false, not_or] at h
  simp only [recordFinished]
  split
  · rw [Store.hdel_of_ne _ _ _ h.1, Store.hset_of_ne _ _ _ h.1, Keyspace.modify_of_ne _ h.2]
  · rw [Store.hset_of_ne _ _ _ h.1, Keyspace.modify_of_ne _ h.2]

theorem retainByAge_frame (p : String) (a : FinishArgs) (s : Store) {κ : Kind}
    (h : κ ∉ Kind.zset a.target.zset :: removalWrites) : retainByAge p a s κ = s κ := by
  unfold retainByAge
  split
  · exact removeJobsByMaxAge_frame _ _ _ _ _ _ h
  · rfl

theorem retainByCount_frame (p : String) (a : FinishArgs) (s : Store) {κ : Kind}
    (h : κ ∉ Kind.zset a.target.zset :: removalWrites) : retainByCount p a s κ = s κ := by
  unfold retainByCount
  split
  · split
    · exact removeJobsByMaxCount_frame _ _ _ _ h
    · rfl
  · rfl

theorem keepFinished_frame (p : String) (a : FinishArgs) (s : Store) {κ : Kind}
    (h : κ ∉ keepWrites) : keepFinished p a s κ = s κ := by
  have hz : Kind.zset a.target.zset :: removalWrites ⊆ keepWrites := by
    cases a.target <;> decide
  have hrec : [Kind.hash, .zset a.target.zset] ⊆ keepWrites := by cases a.target <;> decide
  rw [keepFinished, retainByCount_frame _ _ _ (Kind.notMem_mono h hz),
    retainByAge_frame _ _ _ (Kind.notMem_mono h hz),
    recordFinished_frame _ _ _ (Kind.notMem_mono h hrec)]

theorem keepOrRemove_frame (p : String) (P : Option Parent) (a : FinishArgs) (s : Store)
    {κ : Kind} (h : κ ∉ keepWrites) : keepOrRemove p P a s κ = s κ := by
  simp only [keepOrRemove]
  split
  · exact keepFinished_frame p a s h
  · split
    · rw [removeParentDependencyKey_frame _ _ _ (Kind.notMem_mono h (by decide)),
        removeJobKeys_frame _ _ (Kind.notMem_mono h (by decide))]
    · exact removeJobKeys_frame _ _ (Kind.notMem_mono h (by decide))

/-- An invariant rule for `keepFinished`: the job is recorded; retention removes jobs and takes them
out of the set. -/
theorem keepFinished_rule {I : Store → Prop} {p : String} {a : FinishArgs}
    (hrecord : ∀ s, I s → I (recordFinished p a s))
    (hset : ∀ s (l : ZSet → List String), I s →
      I (s.modify (.zset a.target.zset) p fun z => z.zremAll (l z)))
    (hremove : ∀ s j, I s → I (removeJob p false s j)) {s : Store} (hs : I s) :
    I (keepFinished p a s) := by
  have hfold : ∀ (l : List String) (s : Store), I s → I (l.foldl (removeJob p false) s) := by
    intro l
    induction l with
    | nil => exact fun s hs => hs
    | cons j l ih => exact fun s hs => ih _ (hremove s j hs)
  have hsets : ∀ (l : List String) (rs : List (ℕ × ℕ)) (s : Store), I s → I (rs.foldl
      (fun s range => s.modify (.zset a.target.zset) p (·.zremAll (unpack l range))) s) := by
    intro l rs
    induction rs with
    | nil => exact fun s hs => hs
    | cons r rs ih => exact fun s hs => ih _ (hset s _ hs)
  have hage : ∀ s, I s → I (retainByAge p a s) := by
    intro s hs
    unfold retainByAge removeJobsByMaxAge
    split
    · simp only
      split
      · exact hfold _ s hs
      · split
        · exact hset _ _ (hfold _ s hs)
        · exact hsets _ _ _ (hfold _ s hs)
    · exact hs
  unfold keepFinished retainByCount removeJobsByMaxCount
  split
  · split
    · exact hset _ _ (hfold _ _ (hage _ (hrecord s hs)))
    · exact hage _ (hrecord s hs)
  · exact hage _ (hrecord s hs)

/-- An invariant rule for `keepOrRemove`: the job is kept, or its keys are deleted and its link
removed. -/
theorem keepOrRemove_rule {I : Store → Prop} {p : String} {a : FinishArgs}
    (hrecord : ∀ s, I s → I (recordFinished p a s))
    (hset : ∀ s (l : ZSet → List String), I s →
      I (s.modify (.zset a.target.zset) p fun z => z.zremAll (l z)))
    (hremove : ∀ s j, I s → I (removeJob p false s j))
    (hdelete : ∀ s, I s → I (removeJobKeys (p ++ a.jobId) s))
    (hunlink : ∀ s k, I s → I (removeParentDependencyKey (p ++ a.jobId) (some k) s).2)
    (P : Option Parent) {s : Store} (hs : I s) : I (keepOrRemove p P a s) := by
  simp only [keepOrRemove]
  split
  · exact keepFinished_rule hrecord hset hremove hs
  · split
    · exact hunlink _ _ (hdelete s hs)
    · exact hdelete s hs

/-- Retention leaves the deduplication keys and payloads alone. -/
theorem keepOrRemove_dedup (p : String) (P : Option Parent) (a : FinishArgs) (s : Store)
    {κ : Kind} (h : κ ∈ [Kind.de, .dn]) : keepOrRemove p P a s κ = s κ := by
  have hz : κ ≠ .zset a.target.zset := by rintro rfl; simp at h
  have hother : κ ≠ .hash ∧ κ ∉ unlinkWrites ∧ κ ∉ jobKeyWrites := by
    clear hz
    revert κ
    decide
  obtain ⟨hhash, hunlink, hkeys⟩ := hother
  refine keepOrRemove_rule (I := fun s' => s' κ = s κ)
    (fun s' hs' => ?_) (fun s' f hs' => ?_) (fun s' j hs' => ?_) (fun s' hs' => ?_)
    (fun s' k hs' => ?_) P rfl
  · rw [recordFinished_frame _ _ _ (by simp [hz, hhash]), hs']
  · rw [Keyspace.modify_of_ne _ hz, hs']
  · simp only [removeJob, Bool.false_eq_true, if_false]
    rw [removeJobKeys_frame _ _ hkeys, removeParentDependencyKey_frame _ _ _ hunlink, hs']
  · rw [removeJobKeys_frame _ _ hkeys, hs']
  · rw [removeParentDependencyKey_frame _ _ _ hunlink, hs']

theorem emitFinished_frame (p : String) (a : FinishArgs) (n : ℕ) (s : Store) {κ : Kind}
    (h : κ ≠ .events) : emitFinished p a n s κ = s κ := by
  simp only [emitFinished]
  split
  · rw [Store.xadd_of_ne _ _ _ h, Store.xadd_of_ne _ _ _ h]
  · exact Store.xadd_of_ne _ _ _ h

theorem emitDrained_frame (p : String) (s : Store) {κ : Kind} (h : κ ≠ .events) :
    emitDrained p s κ = s κ := by
  unfold emitDrained
  split
  · exact Store.xadd_of_ne _ _ _ h
  · rfl

theorem settleFinished_frame (p : String) (a : FinishArgs) (s : Store) {κ : Kind}
    (h : κ ∉ Kind.processed :: (childFailureWrites ++ requeueWrites)) :
    settleFinished p a s κ = s κ := by
  have hde : κ ≠ .de := by rintro rfl; exact h (by decide)
  simp only [settleFinished]
  rw [notifyParent_frame _ _ _ _ (Kind.notMem_mono h (by decide)),
    requeueDeduplicatedJob_frame _ _ _ _ (Kind.notMem_mono h (by decide)),
    removeDeduplicationKeyIfNeededOnFinalization_frame _ _ _ _ hde,
    trimEvents_frame _ _ (Kind.notMem_mono h (by decide))]

/-- The families `finishJob` writes. -/
def finishWrites : List Kind :=
  .metrics :: .processed :: (childFailureWrites ++ requeueWrites ++ keepWrites)

theorem finishJob_frame (p : String) (a : FinishArgs) (s : Store) {κ : Kind}
    (h : κ ∉ finishWrites) : finishJob p a s κ = s κ := by
  have hev : κ ≠ .events := by rintro rfl; exact h (by decide)
  have hhash : κ ≠ .hash := by rintro rfl; exact h (by decide)
  have hmet : κ ≠ .metrics := by rintro rfl; exact h (by decide)
  simp only [finishJob]
  split
  · rw [collectMetrics_frame _ _ _ _ hmet, emitFinished_frame _ _ _ _ hev,
      keepOrRemove_frame _ _ _ _ (Kind.notMem_mono h (by decide)), Store.hset_of_ne _ _ _ hhash,
      settleFinished_frame _ _ _ (Kind.notMem_mono h (by decide))]
  · rw [emitFinished_frame _ _ _ _ hev,
      keepOrRemove_frame _ _ _ _ (Kind.notMem_mono h (by decide)), Store.hset_of_ne _ _ _ hhash,
      settleFinished_frame _ _ _ (Kind.notMem_mono h (by decide))]

theorem delayJob_frame (p : String) (a : DelayArgs) (s : Store) {κ : Kind}
    (h : κ ∉ [Kind.hash, .metaMaxLenEvents, .zset .delayed, .events]) :
    delayJob p a s κ = s κ := by
  simp only [List.mem_cons, List.not_mem_nil, or_false, not_or] at h
  obtain ⟨hhash, hmax, hdel, hev⟩ := h
  simp only [delayJob]
  rw [Store.xadd_of_ne _ _ _ hev, Keyspace.modify_of_ne _ hdel,
    getOrSetMaxEvents_frame _ _ (by simpa using hmax), Store.hset_of_ne _ _ _ hhash]
  split
  · rfl
  · exact Store.hset_of_ne _ _ _ hhash

theorem requeueJob_frame (p : String) (a : RetryArgs) (s : Store) {κ : Kind}
    (h : κ ∉ Kind.metaMaxLenEvents :: enqueueWrites) : requeueJob p a s κ = s κ := by
  have hhash : κ ≠ .hash := by rintro rfl; exact h (by decide)
  have hev : κ ≠ .events := by rintro rfl; exact h (by decide)
  simp only [requeueJob]
  rw [Store.xadd_of_ne _ _ _ hev, getOrSetMaxEvents_frame _ _ (Kind.notMem_mono h (by decide)),
    Store.hset_of_ne _ _ _ hhash]
  split
  · exact addJobInTargetList_frame _ _ _ _ _ (Kind.notMem_mono h (by decide))
  · exact addJobWithPriority_frame _ _ _ _ _ (Kind.notMem_mono h (by decide))

theorem pushBackJob_frame (p j : String) (s : Store) {κ : Kind}
    (h : κ ∉ [Kind.list .wait, .marker, .zset .prioritized, .metaMaxLenEvents, .events]) :
    pushBackJob p j s κ = s κ := by
  have hev : κ ≠ .events := by rintro rfl; simp at h
  simp only [pushBackJob]
  rw [Store.xadd_of_ne _ _ _ hev, getOrSetMaxEvents_frame _ _ (Kind.notMem_mono h (by decide))]
  split
  · exact pushBackJobWithPriority_frame _ _ _ _ (Kind.notMem_mono h (by decide))
  · exact addJobInTargetList_frame _ _ _ _ _ (Kind.notMem_mono h (by decide))

theorem fetchOrDrain_frame (p : String) (a : FinishArgs) (s : Store) {κ : Kind}
    (h : κ ∉ fetchWrites) : (fetchOrDrain p a s).2 κ = s κ := by
  have hev : κ ≠ .events := by rintro rfl; exact h (by decide)
  simp only [fetchOrDrain]
  split
  · split
    · exact fetchNextJob_frame _ _ _ _ h
    · rw [emitDrained_frame _ _ hev, fetchNextJob_frame _ _ _ _ h]
  · exact emitDrained_frame _ _ hev

theorem fetchOrMark_frame (p : String) (a : DelayArgs) (s : Store) {κ : Kind}
    (h : κ ∉ fetchWrites) : (fetchOrMark p a s).2 κ = s κ := by
  have hmark : κ ∉ [Kind.marker] := Kind.notMem_mono h (by decide)
  simp only [fetchOrMark]
  split
  · exact addDelayMarkerIfNeeded_frame _ _ hmark
  · split
    · exact fetchNextJob_frame _ _ _ _ h
    · exact fetchNextJob_frame _ _ _ _ h
    · rw [addDelayMarkerIfNeeded_frame _ _ hmark, fetchNextJob_frame _ _ _ _ h]

namespace Script

theorem moveToFinished_frame (p : String) (a : FinishArgs) (s : Store) {κ : Kind}
    (h : κ ∉ [Kind.lock, .stalled, .hash, .list .active] ++ finishWrites ++ fetchWrites) :
    (moveToFinished p a s).2 κ = s κ := by
  obtain ⟨-, n, -, -, hres⟩ | ⟨-, hres⟩ | ⟨-, hres⟩ := moveToFinished_cases p a s
  · rw [hres]
  · rw [hres, releasedJob_frame _ _ _ _ _ (Kind.notMem_mono h (by decide))]
  · rw [hres, fetchOrDrain_frame _ _ _ (Kind.notMem_mono h (by decide)),
      finishJob_frame _ _ _ (Kind.notMem_mono h (by decide)),
      leftActive_frame _ _ _ _ _ (Kind.notMem_mono h (by decide))]

theorem moveToDelayed_frame (p : String) (a : DelayArgs) (s : Store) {κ : Kind}
    (h : κ ∉ [Kind.lock, .stalled, .hash, .list .active, .metaMaxLenEvents] ++ fetchWrites) :
    (moveToDelayed p a s).2 κ = s κ := by
  obtain ⟨-, n, -, -, hres⟩ | ⟨-, hres⟩ | ⟨-, hres⟩ := moveToDelayed_cases p a s
  · rw [hres]
  · rw [hres, releasedJob_frame _ _ _ _ _ (Kind.notMem_mono h (by decide))]
  · rw [hres, fetchOrMark_frame _ _ _ (Kind.notMem_mono h (by decide)),
      delayJob_frame _ _ _ (Kind.notMem_mono h (by decide)),
      leftActive_frame _ _ _ _ _ (Kind.notMem_mono h (by decide))]

theorem moveToWaitingChildren_frame (p j t c : String) (ts : ℤ) (s : Store) {κ : Kind}
    (h : κ ∉ [Kind.lock, .stalled, .hash, .list .active, .zset .waitingChildren, .events]) :
    (moveToWaitingChildren p j t c ts s).2 κ = s κ := by
  have hev : κ ≠ .events := by rintro rfl; simp at h
  have hwc : κ ≠ .zset .waitingChildren := by rintro rfl; simp at h
  obtain ⟨n, -, hres⟩ | ⟨-, hres⟩ | ⟨-, -, hres⟩ := moveToWaitingChildren_cases p j t c ts s
  · rw [hres]
  · rw [hres, releasedJob_frame _ _ _ _ _ (Kind.notMem_mono h (by decide))]
  · rw [hres, movedToWaitingChildren, Store.xadd_of_ne _ _ _ hev, Keyspace.modify_of_ne _ hwc,
      leftActive_frame _ _ _ _ _ (Kind.notMem_mono h (by decide))]

theorem retryJob_frame (p : String) (a : RetryArgs) (s : Store) {κ : Kind}
    (h : κ ∉ [Kind.lock, .stalled, .list .active, .metaMaxLenEvents] ++ promotionWrites) :
    (retryJob p a s).2 κ = s κ := by
  obtain ⟨s₀, hs₀, hcases⟩ := retryJob_cases p a s
  have hprom : s₀ κ = s κ := by
    rw [hs₀, promoteDelayedJobs_frame _ _ _ _ (Kind.notMem_mono h (by decide))]
  obtain ⟨-, n, -, -, hres⟩ | ⟨-, hres⟩ | ⟨-, hres⟩ := hcases
  · rw [hres, hprom]
  · rw [hres, releasedJob_frame _ _ _ _ _ (Kind.notMem_mono h (by decide)), hprom]
  · rw [hres, requeueJob_frame _ _ _ (Kind.notMem_mono h (by decide)),
      leftActive_frame _ _ _ _ _ (Kind.notMem_mono h (by decide)), hprom]

theorem moveJobFromActiveToWait_frame (p j t : String) (s : Store) {κ : Kind}
    (h : κ ∉ [Kind.lock, .stalled, .list .active, .list .wait, .marker, .zset .prioritized,
      .metaMaxLenEvents, .events]) : (moveJobFromActiveToWait p j t s).2 κ = s κ := by
  have hact : κ ≠ .list .active := by rintro rfl; simp at h
  obtain ⟨-, n, -, hres⟩ | ⟨-, n, hres⟩ | ⟨-, n, hres⟩ := moveJobFromActiveToWait_cases p j t s
  · rw [hres]
  · rw [hres, removeLock_frame _ _ _ _ (Kind.notMem_mono h (by decide))]
  · rw [hres, pushBackJob_frame _ _ _ (Kind.notMem_mono h (by decide)),
      Keyspace.modify_of_ne _ hact, removeLock_frame _ _ _ _ (Kind.notMem_mono h (by decide))]

end Script

end BullMQ
