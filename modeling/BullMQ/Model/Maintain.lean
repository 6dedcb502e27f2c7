import BullMQ.Model.Finish

/-!
# Locks, stalled jobs and moves on request

Lock renewal (`extendLock`, `extendLocks`), the stalled check, and the scripts that move a job
between states on request: `promote`, `changeDelay`, `changePriority`, `reprocessJob`,
`moveJobsToWait`, and `pause`, which also resumes.
-/

namespace BullMQ

open Redis

/-! ### Locks -/

/-- `extendLock` on the lock of a job of the queue. Without a positive duration `SET ... PX`
raises an error. -/
def Script.extendLock (p token : String) (duration : ℤ) (jobId : String) (s : Store) :
    Reply × Store :=
  if s .lock (p ++ jobId) = some token then
    if 0 < duration then
      let s : Store := s.set .lock (p ++ jobId) (some token)
      (.code 1, s.modify .stalled p (·.srem jobId))
    else (.error, s)
  else (.code 0, s)

/-- One round of the loop of `extendLocks`: the ids that failed so far, or `none` once the script
has raised an error. -/
def extendLocksStep (p : String) (duration : ℤ) (acc : Option (List String) × Store)
    (lock : String × String) : Option (List String) × Store :=
  match acc.1 with
  | none => acc
  | some failedJobs =>
    let (token, jobId) := lock
    let s := acc.2
    if s .lock (p ++ jobId) = some token then
      if 0 < duration then
        let s : Store := s.set .lock (p ++ jobId) (some token)
        (some failedJobs, s.modify .stalled p (·.srem jobId))
      else (none, s)
    else (some (failedJobs ++ [jobId]), s)

/-- `extendLocks`: the tokens and ids, given pairwise; the reply lists the ids that failed. -/
def Script.extendLocks (p : String) (locks : List (String × String)) (duration : ℤ) (s : Store) :
    Reply × Store :=
  let (failedJobs, s) := locks.foldl (extendLocksStep p duration) (some [], s)
  (failedJobs.elim .error .ids, s)

/-! ### The stalled check -/

/-- The deferred failure of a job that stalled too often. -/
def stalledFailure : String := "job stalled more than allowable limit"

/-- Whether the scheduler that a job names exists, as a hash or as a legacy entry. -/
def isRepeatableJob (p jobKey : String) (s : Store) : Bool :=
  match (s .hash jobKey).bind Job.rjk with
  | none => false
  | some jobSchedulerId =>
    (s .scheduler (p ++ "repeat:" ++ jobSchedulerId)).isSome || decide
      (jobSchedulerId ∈ s .repeatSet p)

/-- Count a stall, and defer the failure of a job that stalled too often. -/
def countStall (p jobId : String) (maxStalledJobCount : ℤ) (s : Store) : Store :=
  let jobKey := p ++ jobId
  let s := s.hset jobKey fun job => { job with stc := job.stc + 1 }
  let stalledCount := ((s .hash jobKey).map Job.stc).getD 0
  if maxStalledJobCount < stalledCount ∧ ¬ isRepeatableJob p jobKey s then
    s.hset jobKey fun job => { job with defa := some stalledFailure }
  else s

/-- One round of the loop of `moveStalledJobsToWait`: reclaim a job that is marked, active and
unlocked. -/
def reclaimStalledJob (p : String) (maxStalledJobCount : ℤ) (acc : List String × Store)
    (jobId : String) : List String × Store :=
  let (stalled, s) := acc
  if isLegacyMarker jobId then (stalled, s.modify (.list .active) p (lremLeft jobId))
  else if s .lock (p ++ jobId) = none ∧ jobId ∈ s (.list .active) p then
    let s : Store := s.modify (.list .active) p (lremLeft jobId)
    let s := countStall p jobId maxStalledJobCount s
    let s := moveJobToWait p jobId .rpush s
    (stalled ++ [jobId], s.xadd p (.stalled jobId))
  else (stalled, s)

/-- Mark the active jobs, in batches. -/
def markActive (p : String) (s : Store) : Store :=
  let active := s (.list .active) p
  (batches active.length 7000).foldl
    (fun s range => s.modify .stalled p (·.saddAll (unpack active range))) s

/-- `moveStalledJobsToWait`. An earlier check's key makes the call idle. -/
def Script.moveStalledJobsToWait (p : String) (maxStalledJobCount timestamp maxCheckTime : ℤ)
    (s : Store) : Reply × Store :=
  if (s .stalledCheck p).isSome then (.ids [], s)
  else if maxCheckTime ≤ 0 then (.error, s)
  else
    let s : Store := s.set .stalledCheck p (some timestamp)
    let s := trimEvents p s
    let stalling := (s .stalled p).members
    let s : Store := s.set .stalled p ∅
    let (stalled, s) := stalling.foldl (reclaimStalledJob p maxStalledJobCount) ([], s)
    (.ids stalled, markActive p s)

/-! ### Moves on request -/

/-- Drop a legacy marker at the left end of the wait list. -/
def dropHeadMarker (p : String) (s : Store) : Store :=
  s.modify (.list .wait) p fun l =>
    match l with
    | marker :: rest => if isLegacyMarker marker then rest else l
    | [] => l

/-- `promote`. -/
def Script.promote (p jobId : String) (s : Store) : Reply × Store :=
  if jobId ∈ s (.zset .delayed) p then
    let s : Store := s.modify (.zset .delayed) p (·.zrem jobId)
    let jobKey := p ++ jobId
    let priority := s.priorityOf jobKey
    let isPausedOrMaxed := isQueuePausedOrMaxed p s
    let s := dropHeadMarker p s
    let s :=
      if priority = 0 then addJobInTargetList p .lpush isPausedOrMaxed jobId s
      else addJobWithPriority p priority jobId isPausedOrMaxed s
    let s := s.xadd p (.waiting jobId (some "delayed"))
    (.code 0, s.hset jobKey fun job => { job with delay := some 0 })
  else (.code (-3), s)

/-- `changeDelay`. -/
def Script.changeDelay (p : String) (delay timestamp : ℤ) (jobId : String) (s : Store) :
    Reply × Store :=
  let jobKey := p ++ jobId
  if ¬ s.jobExists jobKey then (.code (-1), s)
  else
    let (score, delayedTimestamp) := getDelayedScore p timestamp delay s
    if jobId ∉ s (.zset .delayed) p then (.code (-3), s)
    else
      let s : Store := s.modify (.zset .delayed) p (·.zrem jobId)
      let s := s.hset jobKey fun job => { job with delay := some delay }
      let s : Store := s.modify (.zset .delayed) p (·.zadd score jobId)
      let s := getOrSetMaxEvents p s
      let s := s.xadd p (.delayed jobId delayedTimestamp)
      (.code 0, addDelayMarkerIfNeeded p s)

/-- `reAddJobWithNewPriority`. -/
def reAddJobWithNewPriority (p : String) (lifo : Bool) (priority : ℤ) (jobId : String)
    (isPausedOrMaxed : Bool) (s : Store) : Store :=
  if priority = 0 then
    addJobInTargetList p (if lifo then .rpush else .lpush) isPausedOrMaxed jobId s
  else if lifo then pushBackJobWithPriority p priority jobId s
  else addJobWithPriority p priority jobId isPausedOrMaxed s

/-- `changePriority`. -/
def Script.changePriority (p : String) (priority : ℤ) (jobId : String) (lifo : Bool) (s : Store) :
    Reply × Store :=
  let jobKey := p ++ jobId
  if ¬ s.jobExists jobKey then (.code (-1), s)
  else
    let isPausedOrMaxed := isQueuePausedOrMaxed p s
    let s :=
      if jobId ∈ s (.zset .prioritized) p then
        reAddJobWithNewPriority p lifo priority jobId isPausedOrMaxed
          (s.modify (.zset .prioritized) p (·.zrem jobId))
      else if jobId ∈ s (.list .wait) p then
        reAddJobWithNewPriority p lifo priority jobId isPausedOrMaxed
          (s.modify (.list .wait) p (lremRight jobId))
      else s
    (.code 0, s.hset jobKey fun job => { job with priority := some priority })

/-- Delete the result fields of a job that is to be processed again. -/
def Job.clearResult (job : Job) : FinishedStatus → Job
  | .completed => { job with finishedOn := none, processedOn := none, returnvalue := none }
  | .failed => { job with finishedOn := none, processedOn := none, failedReason := none }

/-- Make a child that is processed again a pending dependency of its parent again. -/
def restoreDependency (jobKey : String) (state : FinishedStatus) (s : Store) : Store :=
  match s.parentOf jobKey with
  | none => s
  | some P =>
    if ¬ s.jobExists P.key then s
    else
      match state with
      | .failed =>
        if jobKey ∈ s .unsuccessful P.key then
          (s.modify .unsuccessful P.key (·.zrem jobKey)).modify .dependencies P.key (·.sadd jobKey)
        else if jobKey ∈ s .failedChildren P.key then
          (s.modify .failedChildren P.key (·.erase jobKey)).modify .dependencies P.key
            (·.sadd jobKey)
        else s
      | .completed =>
        if jobKey ∈ s .processed P.key then
          (s.modify .processed P.key (·.erase jobKey)).modify .dependencies P.key (·.sadd jobKey)
        else s

/-- The arguments of `reprocessJob`, apart from the queue. -/
structure ReprocessArgs where
  jobId : String
  state : FinishedStatus
  pushCmd : PushCmd
  resetAttemptsMade : Bool := false
  resetAttemptsStarted : Bool := false
  deriving DecidableEq, Repr

/-- `reprocessJob`. -/
def Script.reprocessJob (p : String) (a : ReprocessArgs) (s : Store) : Reply × Store :=
  let jobKey := p ++ a.jobId
  if ¬ s.jobExists jobKey then (.code (-1), s)
  else if a.jobId ∈ s (.zset a.state.zset) p then
    let s : Store := s.modify (.zset a.state.zset) p (·.zrem a.jobId)
    let s := s.hdel jobKey fun job =>
      let job := job.clearResult a.state
      { job with
        atm := if a.resetAttemptsMade then 0 else job.atm
        ats := if a.resetAttemptsStarted then 0 else job.ats }
    let isPausedOrMaxed := isQueuePausedOrMaxed p s
    let s := addJobInTargetList p a.pushCmd isPausedOrMaxed a.jobId s
    let s := restoreDependency jobKey a.state s
    let s := getOrSetMaxEvents p s
    (.code 1, s.xadd p (.waiting a.jobId (some a.state.name)))
  else (.code (-3), s)

/-- The states `moveJobsToWait` takes jobs from. -/
inductive BulkState
  | finished (status : FinishedStatus)
  | delayed
  deriving DecidableEq, Repr

/-- The set of such a state. -/
def BulkState.zset : BulkState → ZSetKey
  | .finished status => status.zset
  | .delayed => .delayed

/-- The name of such a state. -/
def BulkState.name : BulkState → String
  | .finished status => status.name
  | .delayed => "delayed"

/-- Delete the result fields of one of the jobs. -/
def clearResultOf (p : String) (state : BulkState) (s : Store) (jobId : String) : Store :=
  match state with
  | .finished status => s.hdel (p ++ jobId) (Job.clearResult · status)
  | .delayed => s

/-- Move one batch of jobs to the wait list. -/
def moveBatchToWait (p : String) (z : ZSetKey) (s : Store) (jobs : List String) : Store :=
  let s : Store := s.modify (.zset z) p (·.zremAll jobs)
  s.modify (.list .wait) p fun l => jobs.foldl (fun l jobId => lpush jobId l) l

/-- `moveJobsToWait`. -/
def Script.moveJobsToWait (p : String) (state : BulkState) (maxCount timestamp : ℤ) (s : Store) :
    Reply × Store :=
  let isPausedOrMaxed := isQueuePausedOrMaxed p s
  let jobs := limitTo maxCount ((s (.zset state.zset) p).rangeByScore 0 timestamp)
  let s :=
    if jobs = [] then s
    else
      let s := jobs.foldl (clearResultOf p state) s
      let s := getOrSetMaxEvents p s
      let s := jobs.foldl (fun s jobId => s.xadd p (.waiting jobId (some state.name))) s
      let s := (batches jobs.length 7000).foldl
        (fun s range => moveBatchToWait p state.zset s (unpack jobs range)) s
      addBaseMarkerIfNeeded p isPausedOrMaxed s
  (if maxCount - jobs.length ≤ 0 then .code 1 else .code 0, s)

/-- Move the jobs of the legacy paused list to the wait list, at most 7000 behind others. -/
def drainPaused (p : String) (s : Store) : Store :=
  let paused := s (.list .paused) p
  if paused = [] then s
  else if s (.list .wait) p = [] then (s.set (.list .wait) p paused).set (.list .paused) p []
  else
    let s : Store := s.modify (.list .wait) p (· ++ paused.take 7000)
    s.set (.list .paused) p (paused.drop 7000)

/-- Leave the marker a resumed queue needs. -/
def markResumed (p : String) (s : Store) : Store :=
  if s (.list .wait) p ≠ [] ∨ s (.zset .prioritized) p ≠ ∅ then s.modify .marker p (·.zadd 0 "0")
  else addDelayMarkerIfNeeded p s

/-- The part of `pause` that pauses. -/
def pauseQueue (p : String) (s : Store) : Store := (s.set .metaPaused p true).set .marker p ∅

/-- The part of `pause` that resumes. -/
def resumeQueue (p : String) (s : Store) : Store :=
  markResumed p (drainPaused p (s.set .metaPaused p false))

/-- `pause`, with `paused` false for a resume. The reply is the number of jobs that are left in
the legacy paused list, zero after a pause. -/
def Script.pause (p : String) (paused emitEvent : Bool) (s : Store) : Reply × Store :=
  let s := if paused then pauseQueue p s else resumeQueue p s
  let legacyPausedRemaining := if paused then 0 else (s (.list .paused) p).length
  (.code legacyPausedRemaining,
    if emitEvent then s.xadd p (if paused then .paused else .resumed) else s)

/-! ### What these scripts write -/

theorem Script.extendLock_frame (p t : String) (d : ℤ) (j : String) (s : Store) {κ : Kind}
    (h : κ ∉ [Kind.lock, .stalled]) : (extendLock p t d j s).2 κ = s κ := by
  simp only [List.mem_cons, List.not_mem_nil, or_false, not_or] at h
  simp only [extendLock]
  split
  · split
    · rw [Keyspace.modify_of_ne _ h.2, Keyspace.set_of_ne _ h.1]
    · rfl
  · rfl

theorem extendLocksStep_frame (p : String) (d : ℤ) (acc : Option (List String) × Store)
    (lock : String × String) {κ : Kind} (h : κ ∉ [Kind.lock, .stalled]) :
    (extendLocksStep p d acc lock).2 κ = acc.2 κ := by
  simp only [List.mem_cons, List.not_mem_nil, or_false, not_or] at h
  simp only [extendLocksStep]
  split
  · rfl
  · split
    · split
      · rw [Keyspace.modify_of_ne _ h.2, Keyspace.set_of_ne _ h.1]
      · rfl
    · rfl

theorem foldl_extendLocksStep_frame (p : String) (d : ℤ) (locks : List (String × String))
    (acc : Option (List String) × Store) {κ : Kind} (h : κ ∉ [Kind.lock, .stalled]) :
    (locks.foldl (extendLocksStep p d) acc).2 κ = acc.2 κ := by
  induction locks generalizing acc with
  | nil => rfl
  | cons l locks ih => rw [List.foldl_cons, ih, extendLocksStep_frame _ _ _ _ h]

theorem Script.extendLocks_frame (p : String) (locks : List (String × String)) (d : ℤ) (s : Store)
    {κ : Kind} (h : κ ∉ [Kind.lock, .stalled]) : (extendLocks p locks d s).2 κ = s κ :=
  foldl_extendLocksStep_frame p d locks (some [], s) h

theorem countStall_frame (p j : String) (m : ℤ) (s : Store) {κ : Kind} (h : κ ≠ .hash) :
    countStall p j m s κ = s κ := by
  simp only [countStall]
  split
  · rw [Store.hset_of_ne _ _ _ h, Store.hset_of_ne _ _ _ h]
  · exact Store.hset_of_ne _ _ _ h

/-- The families a reclaim writes. -/
def reclaimWrites : List Kind := [.list .active, .hash, .list .wait, .marker, .events]

theorem reclaimStalledJob_frame (p : String) (m : ℤ) (acc : List String × Store) (j : String)
    {κ : Kind} (h : κ ∉ reclaimWrites) : (reclaimStalledJob p m acc j).2 κ = acc.2 κ := by
  simp only [reclaimWrites, List.mem_cons, List.not_mem_nil, or_false, not_or] at h
  obtain ⟨hact, hhash, hwait, hmark, hev⟩ := h
  simp only [reclaimStalledJob]
  split
  · exact Keyspace.modify_of_ne _ hact ..
  · split
    · rw [Store.xadd_of_ne _ _ _ hev, moveJobToWait_frame _ _ _ _ (by simp [*]),
        countStall_frame _ _ _ _ hhash, Keyspace.modify_of_ne _ hact]
    · rfl

theorem foldl_reclaimStalledJob_frame (p : String) (m : ℤ) (l : List String)
    (acc : List String × Store) {κ : Kind} (h : κ ∉ reclaimWrites) :
    (l.foldl (reclaimStalledJob p m) acc).2 κ = acc.2 κ := by
  induction l generalizing acc with
  | nil => rfl
  | cons j l ih => rw [List.foldl_cons, ih, reclaimStalledJob_frame _ _ _ _ h]

theorem markActive_frame (p : String) (s : Store) {κ : Kind} (h : κ ≠ .stalled) :
    markActive p s κ = s κ := by
  simp only [markActive]
  generalize s (.list .active) p = l
  induction batches l.length 7000 generalizing s with
  | nil => rfl
  | cons r rs ih => rw [List.foldl_cons, ih, Keyspace.modify_of_ne _ h]

/-- The families the stalled check writes. -/
def stalledWrites : List Kind :=
  .stalledCheck :: .metaMaxLenEvents :: .stalled :: reclaimWrites

theorem Script.moveStalledJobsToWait_frame (p : String) (m t c : ℤ) (s : Store) {κ : Kind}
    (h : κ ∉ stalledWrites) : (moveStalledJobsToWait p m t c s).2 κ = s κ := by
  have hst : κ ≠ .stalled := by rintro rfl; exact h (by decide)
  have hck : κ ≠ .stalledCheck := by rintro rfl; exact h (by decide)
  simp only [moveStalledJobsToWait]
  split
  · rfl
  · split
    · rfl
    · rw [markActive_frame _ _ hst,
        foldl_reclaimStalledJob_frame _ _ _ _ (Kind.notMem_mono h (by decide)),
        Keyspace.set_of_ne _ hst, trimEvents_frame _ _ (Kind.notMem_mono h (by decide)),
        Keyspace.set_of_ne _ hck]

theorem dropHeadMarker_frame (p : String) (s : Store) {κ : Kind} (h : κ ≠ .list .wait) :
    dropHeadMarker p s κ = s κ :=
  Keyspace.modify_of_ne _ h ..

theorem Script.promote_frame (p j : String) (s : Store) {κ : Kind} (h : κ ∉ promotionWrites) :
    (promote p j s).2 κ = s κ := by
  have hhash : κ ≠ .hash := by rintro rfl; exact h (by decide)
  have hev : κ ≠ .events := by rintro rfl; exact h (by decide)
  have hwait : κ ≠ .list .wait := by rintro rfl; exact h (by decide)
  have hdel : κ ≠ .zset .delayed := by rintro rfl; exact h (by decide)
  simp only [promote]
  split
  · rw [Store.hset_of_ne _ _ _ hhash, Store.xadd_of_ne _ _ _ hev]
    split
    · rw [addJobInTargetList_frame _ _ _ _ _ (Kind.notMem_mono h (by decide)),
        dropHeadMarker_frame _ _ hwait, Keyspace.modify_of_ne _ hdel]
    · rw [addJobWithPriority_frame _ _ _ _ _ (Kind.notMem_mono h (by decide)),
        dropHeadMarker_frame _ _ hwait, Keyspace.modify_of_ne _ hdel]
  · rfl

theorem Script.changeDelay_frame (p : String) (d t : ℤ) (j : String) (s : Store) {κ : Kind}
    (h : κ ∉ [Kind.hash, .zset .delayed, .metaMaxLenEvents, .events, .marker]) :
    (changeDelay p d t j s).2 κ = s κ := by
  simp only [List.mem_cons, List.not_mem_nil, or_false, not_or] at h
  obtain ⟨hhash, hdel, hmax, hev, hmark⟩ := h
  simp only [changeDelay]
  split
  · rfl
  · split
    · rfl
    · rw [addDelayMarkerIfNeeded_frame _ _ (by simpa using hmark), Store.xadd_of_ne _ _ _ hev,
        getOrSetMaxEvents_frame _ _ (by simpa using hmax), Keyspace.modify_of_ne _ hdel,
        Store.hset_of_ne _ _ _ hhash, Keyspace.modify_of_ne _ hdel]

theorem reAddJobWithNewPriority_frame (p : String) (l : Bool) (n : ℤ) (j : String) (b : Bool)
    (s : Store) {κ : Kind} (h : κ ∉ [Kind.list .wait, .zset .prioritized, .pc, .marker]) :
    reAddJobWithNewPriority p l n j b s κ = s κ := by
  unfold reAddJobWithNewPriority
  split
  · exact addJobInTargetList_frame _ _ _ _ _ (Kind.notMem_mono h (by decide))
  · split
    · exact pushBackJobWithPriority_frame _ _ _ _ (Kind.notMem_mono h (by decide))
    · exact addJobWithPriority_frame _ _ _ _ _ (Kind.notMem_mono h (by decide))

theorem Script.changePriority_frame (p : String) (n : ℤ) (j : String) (l : Bool) (s : Store)
    {κ : Kind} (h : κ ∉ [Kind.hash, .list .wait, .zset .prioritized, .pc, .marker]) :
    (changePriority p n j l s).2 κ = s κ := by
  have hhash : κ ≠ .hash := by rintro rfl; simp at h
  have hwait : κ ≠ .list .wait := by rintro rfl; simp at h
  have hprio : κ ≠ .zset .prioritized := by rintro rfl; simp at h
  simp only [changePriority]
  split
  · rfl
  · rw [Store.hset_of_ne _ _ _ hhash]
    split
    · rw [reAddJobWithNewPriority_frame _ _ _ _ _ _ (Kind.notMem_mono h (by decide)),
        Keyspace.modify_of_ne _ hprio]
    · split
      · rw [reAddJobWithNewPriority_frame _ _ _ _ _ _ (Kind.notMem_mono h (by decide)),
          Keyspace.modify_of_ne _ hwait]
      · rfl

theorem restoreDependency_frame (k : String) (st : FinishedStatus) (s : Store) {κ : Kind}
    (h : κ ∉ [Kind.dependencies, .processed, .failedChildren, .unsuccessful]) :
    restoreDependency k st s κ = s κ := by
  simp only [List.mem_cons, List.not_mem_nil, or_false, not_or] at h
  obtain ⟨hdep, hproc, hfc, huns⟩ := h
  unfold restoreDependency
  split
  · rfl
  · split
    · rfl
    · split
      · split
        · rw [Keyspace.modify_of_ne _ hdep, Keyspace.modify_of_ne _ huns]
        · split
          · rw [Keyspace.modify_of_ne _ hdep, Keyspace.modify_of_ne _ hfc]
          · rfl
      · split
        · rw [Keyspace.modify_of_ne _ hdep, Keyspace.modify_of_ne _ hproc]
        · rfl

/-- The families `reprocessJob` writes. -/
def reprocessWrites : List Kind :=
  [.zset .completed, .zset .failed, .hash, .list .wait, .marker, .dependencies, .processed,
    .failedChildren, .unsuccessful, .metaMaxLenEvents, .events]

theorem Script.reprocessJob_frame (p : String) (a : ReprocessArgs) (s : Store) {κ : Kind}
    (h : κ ∉ reprocessWrites) : (reprocessJob p a s).2 κ = s κ := by
  have hhash : κ ≠ .hash := by rintro rfl; exact h (by decide)
  have hev : κ ≠ .events := by rintro rfl; exact h (by decide)
  have hz : κ ≠ .zset a.state.zset := by
    rintro rfl
    exact h (by cases a.state <;> decide)
  simp only [reprocessJob]
  split
  · rfl
  · split
    · rw [Store.xadd_of_ne _ _ _ hev, getOrSetMaxEvents_frame _ _ (Kind.notMem_mono h (by decide)),
        restoreDependency_frame _ _ _ (Kind.notMem_mono h (by decide)),
        addJobInTargetList_frame _ _ _ _ _ (Kind.notMem_mono h (by decide)),
        Store.hdel_of_ne _ _ _ hhash, Keyspace.modify_of_ne _ hz]
    · rfl

theorem foldl_clearResultOf_frame (p : String) (st : BulkState) (jobs : List String) (s : Store)
    {κ : Kind} (h : κ ≠ .hash) : jobs.foldl (clearResultOf p st) s κ = s κ := by
  induction jobs generalizing s with
  | nil => rfl
  | cons j jobs ih =>
    rw [List.foldl_cons, ih]
    cases st with
    | finished status => exact Store.hdel_of_ne _ _ _ h
    | delayed => rfl

theorem foldl_xadd_frame {α : Type} (p : String) (e : α → Event) (l : List α) (s : Store)
    {κ : Kind} (h : κ ≠ .events) : l.foldl (fun s a => s.xadd p (e a)) s κ = s κ := by
  induction l generalizing s with
  | nil => rfl
  | cons a l ih => rw [List.foldl_cons, ih, Store.xadd_of_ne _ _ _ h]

theorem foldl_moveBatchToWait_frame (p : String) (z : ZSetKey) (jobs : List String)
    (rs : List (ℕ × ℕ)) (s : Store) {κ : Kind} (h : κ ∉ [Kind.zset z, .list .wait]) :
    rs.foldl (fun s range => moveBatchToWait p z s (unpack jobs range)) s κ = s κ := by
  simp only [List.mem_cons, List.not_mem_nil, or_false, not_or] at h
  induction rs generalizing s with
  | nil => rfl
  | cons r rs ih =>
    rw [List.foldl_cons, ih, moveBatchToWait, Keyspace.modify_of_ne _ h.2,
      Keyspace.modify_of_ne _ h.1]

/-- The families `moveJobsToWait` writes. -/
def bulkWrites : List Kind :=
  [.zset .completed, .zset .failed, .zset .delayed, .hash, .list .wait, .marker,
    .metaMaxLenEvents, .events]

theorem Script.moveJobsToWait_frame (p : String) (st : BulkState) (m t : ℤ) (s : Store)
    {κ : Kind} (h : κ ∉ bulkWrites) : (moveJobsToWait p st m t s).2 κ = s κ := by
  have hhash : κ ≠ .hash := by rintro rfl; exact h (by decide)
  have hev : κ ≠ .events := by rintro rfl; exact h (by decide)
  have hz : [Kind.zset st.zset, .list .wait] ⊆ bulkWrites := by
    rcases st with _ | _
    · next status => cases status <;> decide
    · decide
  simp only [moveJobsToWait]
  split
  · rfl
  · rw [addBaseMarkerIfNeeded_frame _ _ _ (Kind.notMem_mono h (by decide)),
      foldl_moveBatchToWait_frame _ _ _ _ _ (Kind.notMem_mono h hz),
      foldl_xadd_frame _ _ _ _ hev, getOrSetMaxEvents_frame _ _ (Kind.notMem_mono h (by decide)),
      foldl_clearResultOf_frame _ _ _ _ hhash]

theorem drainPaused_frame (p : String) (s : Store) {κ : Kind}
    (h : κ ∉ [Kind.list .wait, .list .paused]) : drainPaused p s κ = s κ := by
  simp only [List.mem_cons, List.not_mem_nil, or_false, not_or] at h
  simp only [drainPaused]
  split
  · rfl
  · split
    · rw [Keyspace.set_of_ne _ h.2, Keyspace.set_of_ne _ h.1]
    · rw [Keyspace.set_of_ne _ h.2, Keyspace.modify_of_ne _ h.1]

theorem markResumed_frame (p : String) (s : Store) {κ : Kind} (h : κ ≠ .marker) :
    markResumed p s κ = s κ := by
  unfold markResumed
  split
  · exact Keyspace.modify_of_ne _ h ..
  · exact addDelayMarkerIfNeeded_frame _ _ (by simpa using h)

theorem Script.pause_frame (p : String) (b e : Bool) (s : Store) {κ : Kind}
    (h : κ ∉ [Kind.metaPaused, .marker, .list .wait, .list .paused, .events]) :
    (pause p b e s).2 κ = s κ := by
  simp only [List.mem_cons, List.not_mem_nil, or_false, not_or] at h
  obtain ⟨hpause, hmark, hwait, hpaused, hev⟩ := h
  have hmain : (if b then pauseQueue p s else resumeQueue p s) κ = s κ := by
    split
    · rw [pauseQueue, Keyspace.set_of_ne _ hmark, Keyspace.set_of_ne _ hpause]
    · rw [resumeQueue, markResumed_frame _ _ hmark, drainPaused_frame _ _ (by simp [*]),
        Keyspace.set_of_ne _ hpause]
  simp only [pause]
  split
  · rw [Store.xadd_of_ne _ _ _ hev, hmain]
  · exact hmain

end BullMQ
