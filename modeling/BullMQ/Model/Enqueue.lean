import BullMQ.Model.Store
import BullMQ.Numbers.Double

/-!
# Storing and enqueueing jobs

The helpers by which scripts put a job id into `wait`, `prioritized` or `delayed` and wake up a
worker: the markers, the two score functions, `storeJob`, and the promotion of due delayed jobs.
Each helper has a `_frame` lemma that names the key families it writes.
-/

namespace BullMQ

open Redis Numbers

/-! ### Queue metadata -/

/-- `getOrSetMaxEvents`: the bound of the event stream, written with its default when missing. -/
def getOrSetMaxEvents (p : String) (s : Store) : Store :=
  match s .metaMaxLenEvents p with
  | some _ => s
  | none => s.set .metaMaxLenEvents p (some 10000)

/-- `trimEvents`: an approximate trim of the stream, after `getOrSetMaxEvents`. -/
def trimEvents (p : String) (s : Store) : Store := getOrSetMaxEvents p s

/-- `isQueuePausedOrMaxed`. -/
def isQueuePausedOrMaxed (p : String) (s : Store) : Bool :=
  if s .metaPaused p then true
  else
    match s .metaConcurrency p with
    | some concurrency => decide (concurrency ≤ (s (.list .active) p).length)
    | none => false

theorem getOrSetMaxEvents_frame (p : String) (s : Store) {κ : Kind}
    (h : κ ∉ [Kind.metaMaxLenEvents]) : getOrSetMaxEvents p s κ = s κ := by
  rw [List.mem_singleton] at h
  unfold getOrSetMaxEvents
  split
  · rfl
  · exact Keyspace.set_of_ne _ h ..

theorem trimEvents_frame (p : String) (s : Store) {κ : Kind}
    (h : κ ∉ [Kind.metaMaxLenEvents]) : trimEvents p s κ = s κ :=
  getOrSetMaxEvents_frame p s h

/-! ### Markers -/

/-- `addBaseMarkerIfNeeded`: the marker of an available job. -/
def addBaseMarkerIfNeeded (p : String) (isPausedOrMaxed : Bool) (s : Store) : Store :=
  if isPausedOrMaxed then s else s.modify .marker p (·.zadd 0 "0")

/-- `getNextDelayedTimestamp`: when the next delayed job is due. -/
def getNextDelayedTimestamp (p : String) (s : Store) : Option ℚ :=
  (s (.zset .delayed) p).entries.head?.map fun e => ((ofLex e).1 : ℚ) / 0x1000

/-- `addDelayMarkerIfNeeded`: the marker of the next delayed job. -/
def addDelayMarkerIfNeeded (p : String) (s : Store) : Store :=
  match getNextDelayedTimestamp p s with
  | some nextTimestamp => s.modify .marker p (·.zadd nextTimestamp "1")
  | none => s

theorem addBaseMarkerIfNeeded_frame (p : String) (b : Bool) (s : Store) {κ : Kind}
    (h : κ ∉ [Kind.marker]) : addBaseMarkerIfNeeded p b s κ = s κ := by
  rw [List.mem_singleton] at h
  unfold addBaseMarkerIfNeeded
  split
  · rfl
  · exact Keyspace.modify_of_ne _ h ..

theorem addDelayMarkerIfNeeded_frame (p : String) (s : Store) {κ : Kind}
    (h : κ ∉ [Kind.marker]) : addDelayMarkerIfNeeded p s κ = s κ := by
  rw [List.mem_singleton] at h
  unfold addDelayMarkerIfNeeded
  split
  · exact Keyspace.modify_of_ne _ h ..
  · rfl

/-! ### Enqueueing -/

/-- `addJobInTargetList`, whose target is always the wait list. -/
def addJobInTargetList (p : String) (pushCmd : PushCmd) (isPausedOrMaxed : Bool) (jobId : String)
    (s : Store) : Store :=
  addBaseMarkerIfNeeded p isPausedOrMaxed (s.modify (.list .wait) p (pushCmd.push jobId))

/-- `getPriorityScore`: the priority packed with the next value of the priority counter. -/
def getPriorityScore (p : String) (priority : ℤ) (s : Store) : ℤ × Store :=
  let s : Store := s.modify .pc p (· + 1)
  (priority * 0x100000000 + (s .pc p : ℤ) % 0x100000000, s)

/-- `addJobWithPriority`. -/
def addJobWithPriority (p : String) (priority : ℤ) (jobId : String) (isPausedOrMaxed : Bool)
    (s : Store) : Store :=
  let (score, s) := getPriorityScore p priority s
  addBaseMarkerIfNeeded p isPausedOrMaxed (s.modify (.zset .prioritized) p (·.zadd score jobId))

/-- `pushBackJobWithPriority`: in front of the jobs of the same priority. -/
def pushBackJobWithPriority (p : String) (priority : ℤ) (jobId : String) (s : Store) : Store :=
  s.modify (.zset .prioritized) p (·.zadd (priority * 0x100000000) jobId)

/-- The last score of the jobs that are due at a millisecond, as Lua computes it in doubles. -/
def maxDelayedScore (due : ℤ) : ℤ := toDouble (toDouble (toDouble (due + 1) * 0x1000) - 1)

/-- `getDelayedScore`: the score of a job to be delayed and the millisecond it is due. Lua computes
in doubles, and a packed timestamp outgrows 53 bits in the year 2039: every result is rounded. -/
def getDelayedScore (p : String) (timestamp delay : ℤ) (s : Store) : ℤ × ℤ :=
  let delayedTimestamp := if 0 < delay then toDouble (timestamp + delay) else timestamp
  let minScore := toDouble (delayedTimestamp * 0x1000)
  let maxScore := maxDelayedScore delayedTimestamp
  match ((s (.zset .delayed) p).entriesByScore minScore maxScore).getLast? with
  | some e =>
    (if maxScore ≤ (ofLex e).1 then maxScore else toDouble ((ofLex e).1 + 1), delayedTimestamp)
  | none => (minScore, delayedTimestamp)

/-- `includes/addDelayedJob`: put a stored job into the delayed set. -/
def addDelayedJob (p : String) (jobId : String) (timestamp delay : ℤ) (s : Store) : Store :=
  let (score, delayedTimestamp) := getDelayedScore p timestamp delay s
  let s : Store := s.modify (.zset .delayed) p (·.zadd score jobId)
  let s : Store := s.xadd p (.delayed jobId delayedTimestamp)
  addDelayMarkerIfNeeded p s

/-- `moveJobToWait`, from the active list. -/
def moveJobToWait (p : String) (jobId : String) (pushCmd : PushCmd) (s : Store) : Store :=
  (addJobInTargetList p pushCmd (isQueuePausedOrMaxed p s) jobId s).xadd p
    (.waiting jobId (some "active"))

theorem addJobInTargetList_frame (p : String) (c : PushCmd) (b : Bool) (j : String) (s : Store)
    {κ : Kind} (h : κ ∉ [Kind.list .wait, .marker]) : addJobInTargetList p c b j s κ = s κ := by
  simp only [List.mem_cons, List.not_mem_nil, or_false, not_or] at h
  rw [addJobInTargetList, addBaseMarkerIfNeeded_frame _ _ _ (by simpa using h.2)]
  exact Keyspace.modify_of_ne _ h.1 ..

theorem addJobWithPriority_frame (p : String) (n : ℤ) (j : String) (b : Bool) (s : Store)
    {κ : Kind} (h : κ ∉ [Kind.zset .prioritized, .pc, .marker]) :
    addJobWithPriority p n j b s κ = s κ := by
  simp only [List.mem_cons, List.not_mem_nil, or_false, not_or] at h
  simp only [addJobWithPriority, getPriorityScore]
  rw [addBaseMarkerIfNeeded_frame _ _ _ (by simpa using h.2.2), Keyspace.modify_of_ne _ h.1,
    Keyspace.modify_of_ne _ h.2.1]

theorem pushBackJobWithPriority_frame (p : String) (n : ℤ) (j : String) (s : Store)
    {κ : Kind} (h : κ ∉ [Kind.zset .prioritized]) : pushBackJobWithPriority p n j s κ = s κ := by
  rw [List.mem_singleton] at h
  exact Keyspace.modify_of_ne _ h ..

theorem addDelayedJob_frame (p j : String) (t d : ℤ) (s : Store) {κ : Kind}
    (h : κ ∉ [Kind.zset .delayed, .events, .marker]) : addDelayedJob p j t d s κ = s κ := by
  simp only [List.mem_cons, List.not_mem_nil, or_false, not_or] at h
  simp only [addDelayedJob]
  rw [addDelayMarkerIfNeeded_frame _ _ (by simpa using h.2.2), Store.xadd_of_ne _ _ _ h.2.1,
    Keyspace.modify_of_ne _ h.1]

theorem moveJobToWait_frame (p j : String) (c : PushCmd) (s : Store) {κ : Kind}
    (h : κ ∉ [Kind.list .wait, .marker, .events]) : moveJobToWait p j c s κ = s κ := by
  simp only [List.mem_cons, List.not_mem_nil, or_false, not_or] at h
  rw [moveJobToWait, Store.xadd_of_ne _ _ _ h.2.2, addJobInTargetList_frame]
  simp [h]

/-! ### Storing -/

/-- `storeJob`: write the job hash. The delay and the priority it returns are those of `opts`. -/
def storeJob (p : String) (jobId : String) (name data : String) (opts : JobOpts) (timestamp : ℤ)
    (parent : Option Parent) (repeatJobKey : Option String) (s : Store) : Store :=
  let s : Store := s.hset (p ++ jobId) fun job =>
    { job with
      name := some name
      data := some data
      opts := some opts
      timestamp := some timestamp
      delay := some opts.delay
      priority := some opts.priority
      parent := parent <|> job.parent
      rjk := repeatJobKey <|> job.rjk
      deid := opts.de.map DeduplicationOpts.id <|> job.deid }
  s.xadd p (.added jobId (some name))

/-- `storeAndEnqueueJob`. -/
def storeAndEnqueueJob (p : String) (jobId : String) (name data : String) (opts : JobOpts)
    (timestamp : ℤ) (parent : Option Parent) (repeatJobKey : Option String) (s : Store) : Store :=
  let s : Store := storeJob p jobId name data opts timestamp parent repeatJobKey s
  if opts.delay ≠ 0 then addDelayedJob p jobId timestamp opts.delay s
  else
    let isPausedOrMaxed := isQueuePausedOrMaxed p s
    let s : Store :=
      if 0 < opts.priority then addJobWithPriority p opts.priority jobId isPausedOrMaxed s
      else addJobInTargetList p (if opts.lifo then .rpush else .lpush) isPausedOrMaxed jobId s
    s.xadd p (.waiting jobId none)

theorem storeJob_frame (p j n d : String) (o : JobOpts) (t : ℤ) (P : Option Parent)
    (r : Option String) (s : Store) {κ : Kind} (h : κ ∉ [Kind.hash, .events]) :
    storeJob p j n d o t P r s κ = s κ := by
  simp only [List.mem_cons, List.not_mem_nil, or_false, not_or] at h
  rw [storeJob, Store.xadd_of_ne _ _ _ h.2, Store.hset_of_ne _ _ _ h.1]

/-! ### Promotion of delayed jobs -/

/-- One round of the loop of `promoteDelayedJobs`. -/
def promoteDelayedJob (p : String) (s : Store) (jobId : String) : Store :=
  let priority := s.priorityOf (p ++ jobId)
  let s : Store :=
    if priority = 0 then s.modify (.list .wait) p (lpush jobId)
    else
      let (score, s) := getPriorityScore p priority s
      s.modify (.zset .prioritized) p (·.zadd score jobId)
  let s : Store := s.xadd p (.waiting jobId (some "delayed"))
  s.hset (p ++ jobId) fun job => { job with delay := some 0 }

/-- The delayed jobs that are due at a time, at most a thousand. -/
def dueJobs (p : String) (timestamp : ℤ) (s : Store) : List String :=
  ((s (.zset .delayed) p).rangeByScore 0 (maxDelayedScore timestamp)).take 1000

/-- `promoteDelayedJobs`: move the due delayed jobs to `wait` or `prioritized`. -/
def promoteDelayedJobs (p : String) (timestamp : ℤ) (isPaused : Bool) (s : Store) : Store :=
  let jobs := dueJobs p timestamp s
  if jobs = [] then s
  else
    let s : Store := s.modify (.zset .delayed) p (·.zremAll jobs)
    addBaseMarkerIfNeeded p isPaused (jobs.foldl (promoteDelayedJob p) s)

/-- The families `promoteDelayedJobs` writes. -/
def promotionWrites : List Kind :=
  [.list .wait, .zset .prioritized, .zset .delayed, .pc, .events, .hash, .marker]

theorem promoteDelayedJob_frame (p j : String) (s : Store) {κ : Kind}
    (h : κ ∉ [Kind.list .wait, .zset .prioritized, .pc, .events, .hash]) :
    promoteDelayedJob p s j κ = s κ := by
  simp only [List.mem_cons, List.not_mem_nil, or_false, not_or] at h
  obtain ⟨hwait, hprio, hpc, hev, hhash⟩ := h
  simp only [promoteDelayedJob]
  rw [Store.hset_of_ne _ _ _ hhash, Store.xadd_of_ne _ _ _ hev]
  split
  · exact Keyspace.modify_of_ne _ hwait ..
  · simp only [getPriorityScore]
    rw [Keyspace.modify_of_ne _ hprio, Keyspace.modify_of_ne _ hpc]

theorem foldl_promoteDelayedJob_frame (p : String) (jobs : List String) (s : Store) {κ : Kind}
    (h : κ ∉ [Kind.list .wait, .zset .prioritized, .pc, .events, .hash]) :
    jobs.foldl (promoteDelayedJob p) s κ = s κ := by
  induction jobs generalizing s with
  | nil => rfl
  | cons j jobs ih => rw [List.foldl_cons, ih, promoteDelayedJob_frame p j s h]

theorem promoteDelayedJobs_frame (p : String) (t : ℤ) (b : Bool) (s : Store) {κ : Kind}
    (h : κ ∉ promotionWrites) : promoteDelayedJobs p t b s κ = s κ := by
  simp only [promotionWrites, List.mem_cons, List.not_mem_nil, or_false, not_or] at h
  obtain ⟨hwait, hprio, hdel, hpc, hev, hhash, hmark⟩ := h
  simp only [promoteDelayedJobs]
  split
  · rfl
  · rw [addBaseMarkerIfNeeded_frame _ _ _ (by simpa using hmark),
      foldl_promoteDelayedJob_frame _ _ _ (by simp [*]), Keyspace.modify_of_ne _ hdel]

end BullMQ
