import BullMQ.Model.Enqueue

/-!
# Fetching the next job

`moveToActive` and the fetch at the end of the finishing scripts (`fetchNextJob`) read the
queue's metadata, promote what is due, give way to the rate limit and to a paused or maxed queue,
pop an id and prepare it for processing. They share that course (`fetchWith`) and differ in how
they treat the legacy markers `0:...` of the wait list.
-/

namespace BullMQ

open Redis

/-! ### Options and limits -/

/-- The rate limiter option of a worker. -/
structure RateLimiter where
  max : ℤ
  duration : ℤ
  deriving DecidableEq, Repr

/-- The options a worker fetches with. -/
structure FetchOpts where
  token : String
  lockDuration : ℤ
  limiter : Option RateLimiter := none
  name : Option String := none
  deriving DecidableEq, Repr

/-- `getQueueMetadata`: paused or maxed, and the queue's global rate limit. -/
def getQueueMetadata (p : String) (s : Store) : Bool × Option ℤ × Option ℤ :=
  (isQueuePausedOrMaxed p s, s .metaMax p, s .metaDuration p)

/-- The count of the rate limiter, zero when its key is missing. -/
def limiterCount (p : String) (s : Store) : ℕ := ((s .limiter p).map Limiter.count).getD 0

/-- `getRateLimitTTL`: the milliseconds until the rate limit ends. A limiter in its last
millisecond is deleted. -/
def getRateLimitTTL (maxJobs : Option ℤ) (p : String) (s : Store) : ℕ × Store :=
  match maxJobs with
  | none => (0, s)
  | some maxJobs =>
    if maxJobs ≤ limiterCount p s then
      match (s .limiter p).bind Limiter.pttl with
      | some 0 => (0, s.set .limiter p none)
      | some pttl => (pttl, s)
      | none => (0, s)
    else (0, s)

/-- The part of `prepareJobForProcessing` that counts an activation. `PEXPIRE` with zero deletes
the key; without a duration `math.abs` raises an error, which the `false` stands for. -/
def countActivation (maxJobs limiterDuration : Option ℤ) (p : String) (s : Store) : Bool × Store :=
  match maxJobs with
  | none => (true, s)
  | some _ =>
    let s : Store := s.modify .limiter p fun l => some ⟨(l.map Limiter.count).getD 0 + 1,
      l.bind Limiter.pttl⟩
    if limiterCount p s = 1 then
      match limiterDuration with
      | none => (false, s)
      | some duration =>
        let integerDuration := duration.natAbs
        if integerDuration = 0 then (true, s.set .limiter p none)
        else (true, s.modify .limiter p (·.map fun l => { l with pttl := some integerDuration }))
    else (true, s)

/-- `prepareJobForProcessing`: count the activation, lock the job and hand it out. `SET ... PX`
refuses a duration that is not positive. -/
def prepareJobForProcessing (p jobId : String) (processedOn : ℤ)
    (maxJobs limiterDuration : Option ℤ) (opts : FetchOpts) (s : Store) : Reply × Store :=
  let jobKey := p ++ jobId
  let (counted, s) := countActivation maxJobs limiterDuration p s
  if ¬ counted ∨ opts.token ≠ "0" ∧ opts.lockDuration ≤ 0 then (.error, s)
  else
    let s : Store := if opts.token ≠ "0" then s.set .lock jobKey (some opts.token) else s
    let s : Store := s.xadd p (.active jobId "waiting")
    let s : Store := s.hset jobKey fun job =>
      { job with processedOn := some processedOn, pb := opts.name <|> job.pb }
    let s : Store := s.hset jobKey fun job => { job with ats := job.ats + 1 }
    let s := addBaseMarkerIfNeeded p false s
    (.job (s .hash jobKey) jobId, s)

/-! ### Popping -/

/-- `RPOPLPUSH` from `wait` to `active`. -/
def rpoplpush (p : String) (s : Store) : Option String × Store :=
  match rpop (s (.list .wait) p) with
  | none => (none, s)
  | some (jobId, rest) =>
    (some jobId, (s.set (.list .wait) p rest).modify (.list .active) p (lpush jobId))

/-- `moveJobFromPrioritizedToActive`. -/
def moveJobFromPrioritizedToActive (p : String) (s : Store) : Option String × Store :=
  match (s (.zset .prioritized) p).zpopmin with
  | some (jobId, rest) =>
    (some jobId, (s.set (.zset .prioritized) p rest).modify (.list .active) p (lpush jobId))
  | none => (none, s.set .pc p (0 : ℕ))

/-- What a fetch popped. -/
inductive Popped
  | job (jobId : String)
  | nothing
  /-- The script raised an error. -/
  | failed
  deriving DecidableEq

/-- A popped id, if there is one. -/
def Popped.ofOption : Option String → Popped
  | some jobId => .job jobId
  | none => .nothing

/-- The popped id, if there is one. -/
def Popped.toOption : Popped → Option String
  | .job jobId => some jobId
  | _ => none

/-- `RPOPLPUSH` behind at most one legacy marker, which `moveToActive` drops. -/
def rpoplpushPastMarker (p : String) (s : Store) : Option String × Store :=
  let (jobId, s) := rpoplpush p s
  match jobId with
  | some jobId =>
    if isLegacyMarker jobId then rpoplpush p (s.modify (.list .active) p (lremLeft jobId))
    else (some jobId, s)
  | none => (none, s)

/-- How `moveToActive` pops. -/
def popForMoveToActive (p : String) (s : Store) : Popped × Store :=
  let (jobId, s) := rpoplpushPastMarker p s
  match jobId with
  | some jobId => (.job jobId, s)
  | none =>
    let (jobId, s) := moveJobFromPrioritizedToActive p s
    (.ofOption jobId, s)

/-- How `fetchNextJob` pops: the legacy marker `0:0` announces a prioritized job, whose absence
is an error; any other legacy marker is dropped. -/
def popForFetchNextJob (p : String) (s : Store) : Popped × Store :=
  let (jobId, s) := rpoplpush p s
  match jobId with
  | some jobId =>
    if isLegacyMarker jobId then
      let s : Store := s.modify (.list .active) p (lremLeft jobId)
      if jobId = "0:0" then
        let (jobId, s) := moveJobFromPrioritizedToActive p s
        (jobId.elim .failed .job, s)
      else (.nothing, s)
    else (.job jobId, s)
  | none =>
    let (jobId, s) := moveJobFromPrioritizedToActive p s
    (.ofOption jobId, s)

/-! ### Fetching -/

/-- The maximum of the rate limit that holds for a fetch: the queue's own, else the worker's. -/
def maxJobsOf (p : String) (opts : FetchOpts) (s : Store) : Option ℤ :=
  s .metaMax p <|> opts.limiter.map RateLimiter.max

/-- The duration of the rate limit that holds for a fetch: the worker's, else the queue's own. -/
def limiterDurationOf (p : String) (opts : FetchOpts) (s : Store) : Option ℤ :=
  opts.limiter.map RateLimiter.duration <|> s .metaDuration p

/-- The first half of a fetch: promote what is due and look at the rate limit. -/
def startFetch (p : String) (timestamp : ℤ) (opts : FetchOpts) (s : Store) : ℕ × Store :=
  getRateLimitTTL (maxJobsOf p opts s) p
    (promoteDelayedJobs p timestamp (getQueueMetadata p s).1 s)

/-- The second half of a fetch: pop an id and prepare it. The reply is `none` where there is
neither a job to hand out nor a delayed one to wait for. -/
def takeJob (pop : String → Store → Popped × Store) (p : String) (timestamp : ℤ)
    (maxJobs limiterDuration : Option ℤ) (opts : FetchOpts) (s : Store) : Option Reply × Store :=
  let (popped, s) := pop p s
  match popped with
  | .job jobId =>
    let (reply, s) := prepareJobForProcessing p jobId timestamp maxJobs limiterDuration opts s
    (some reply, s)
  | .failed => (some .error, s)
  | .nothing =>
    -- Redis truncates a number that a script returns.
    ((getNextDelayedTimestamp p s).map fun t => .noJob 0 (t.num.tdiv t.den), s)

/-- The course of a fetch. -/
def fetchWith (pop : String → Store → Popped × Store) (p : String) (timestamp : ℤ)
    (opts : FetchOpts) (s : Store) : Option Reply × Store :=
  let (isPausedOrMaxed, _) := getQueueMetadata p s
  let (expireTime, s') := startFetch p timestamp opts s
  if 0 < expireTime then (some (.noJob expireTime 0), s')
  else if isPausedOrMaxed then (some (.noJob 0 0), s')
  else takeJob pop p timestamp (maxJobsOf p opts s) (limiterDurationOf p opts s) opts s'

/-- `fetchNextJob`. -/
def fetchNextJob : String → ℤ → FetchOpts → Store → Option Reply × Store :=
  fetchWith popForFetchNextJob

/-- `moveToActive`. -/
def Script.moveToActive (p : String) (timestamp : ℤ) (opts : FetchOpts) (s : Store) :
    Reply × Store :=
  let (reply, s) := fetchWith popForMoveToActive p timestamp opts s
  (reply.getD (.noJob 0 0), s)

/-! ### What a fetch writes -/

/-- The families a fetch writes. -/
def fetchWrites : List Kind := .limiter :: .lock :: .list .active :: promotionWrites

theorem getRateLimitTTL_frame (m : Option ℤ) (p : String) (s : Store) {κ : Kind}
    (h : κ ≠ .limiter) : (getRateLimitTTL m p s).2 κ = s κ := by
  unfold getRateLimitTTL
  split
  · rfl
  · split
    · split
      · exact Keyspace.set_of_ne _ h ..
      · rfl
      · rfl
    · rfl

theorem countActivation_frame (m d : Option ℤ) (p : String) (s : Store) {κ : Kind}
    (h : κ ≠ .limiter) : (countActivation m d p s).2 κ = s κ := by
  unfold countActivation
  split
  · rfl
  · simp only
    split
    · split
      · simp only [Keyspace.modify_of_ne _ h]
      · split
        · rw [Keyspace.set_of_ne _ h, Keyspace.modify_of_ne _ h]
        · rw [Keyspace.modify_of_ne _ h, Keyspace.modify_of_ne _ h]
    · simp only [Keyspace.modify_of_ne _ h]

theorem prepareJobForProcessing_frame (p j : String) (t : ℤ) (m d : Option ℤ) (o : FetchOpts)
    (s : Store) {κ : Kind} (h : κ ∉ [Kind.limiter, .lock, .events, .hash, .marker]) :
    (prepareJobForProcessing p j t m d o s).2 κ = s κ := by
  simp only [List.mem_cons, List.not_mem_nil, or_false, not_or] at h
  obtain ⟨hlim, hlock, hev, hhash, hmark⟩ := h
  have hcount := countActivation_frame m d p s hlim
  rcases hres : countActivation m d p s with ⟨counted, s'⟩
  rw [hres] at hcount
  simp only [prepareJobForProcessing, hres]
  split
  · exact hcount
  · rw [addBaseMarkerIfNeeded_frame _ _ _ (by simpa using hmark), Store.hset_of_ne _ _ _ hhash,
      Store.hset_of_ne _ _ _ hhash, Store.xadd_of_ne _ _ _ hev, ← hcount]
    split
    · exact Keyspace.set_of_ne _ hlock ..
    · rfl

theorem rpoplpush_frame (p : String) (s : Store) {κ : Kind}
    (h : κ ∉ [Kind.list .wait, .list .active]) : (rpoplpush p s).2 κ = s κ := by
  simp only [List.mem_cons, List.not_mem_nil, or_false, not_or] at h
  unfold rpoplpush
  split
  · rfl
  · simp only
    rw [Keyspace.modify_of_ne _ h.2, Keyspace.set_of_ne _ h.1]

theorem moveJobFromPrioritizedToActive_frame (p : String) (s : Store) {κ : Kind}
    (h : κ ∉ [Kind.zset .prioritized, .list .active, .pc]) :
    (moveJobFromPrioritizedToActive p s).2 κ = s κ := by
  simp only [List.mem_cons, List.not_mem_nil, or_false, not_or] at h
  unfold moveJobFromPrioritizedToActive
  split
  · simp only
    rw [Keyspace.modify_of_ne _ h.2.1, Keyspace.set_of_ne _ h.1]
  · exact Keyspace.set_of_ne _ h.2.2 ..

/-- The families a pop writes. -/
def popWrites : List Kind := [.list .wait, .list .active, .zset .prioritized, .pc]

theorem rpoplpushPastMarker_frame (p : String) (s : Store) {κ : Kind}
    (h : κ ∉ [Kind.list .wait, .list .active]) : (rpoplpushPastMarker p s).2 κ = s κ := by
  have hact : κ ≠ .list .active := by rintro rfl; simp at h
  simp only [rpoplpushPastMarker]
  split
  · split
    · rw [rpoplpush_frame _ _ h, Keyspace.modify_of_ne _ hact, rpoplpush_frame _ _ h]
    · exact rpoplpush_frame _ _ h
  · exact rpoplpush_frame _ _ h

theorem popForMoveToActive_frame (p : String) (s : Store) {κ : Kind} (h : κ ∉ popWrites) :
    (popForMoveToActive p s).2 κ = s κ := by
  have hpop := rpoplpushPastMarker_frame p s (κ := κ) (Kind.notMem_mono h (by decide))
  simp only [popForMoveToActive]
  split
  · exact hpop
  · rw [moveJobFromPrioritizedToActive_frame _ _ (Kind.notMem_mono h (by decide)), hpop]

theorem popForFetchNextJob_frame (p : String) (s : Store) {κ : Kind} (h : κ ∉ popWrites) :
    (popForFetchNextJob p s).2 κ = s κ := by
  have hact : κ ≠ .list .active := by rintro rfl; exact h (by decide)
  have hpop := rpoplpush_frame p s (κ := κ) (Kind.notMem_mono h (by decide))
  have hprio : ∀ s : Store, (moveJobFromPrioritizedToActive p s).2 κ = s κ := fun s =>
    moveJobFromPrioritizedToActive_frame p s (Kind.notMem_mono h (by decide))
  simp only [popForFetchNextJob]
  split
  · split
    · split
      · rw [hprio, Keyspace.modify_of_ne _ hact, hpop]
      · rw [Keyspace.modify_of_ne _ hact, hpop]
    · exact hpop
  · rw [hprio, hpop]

theorem startFetch_frame (p : String) (t : ℤ) (o : FetchOpts) (s : Store) {κ : Kind}
    (h : κ ∉ Kind.limiter :: promotionWrites) : (startFetch p t o s).2 κ = s κ := by
  obtain ⟨hlim, hprom⟩ : κ ≠ .limiter ∧ κ ∉ promotionWrites := by simpa using h
  rw [startFetch, getRateLimitTTL_frame _ _ _ hlim, promoteDelayedJobs_frame _ _ _ _ hprom]

theorem takeJob_frame {pop : String → Store → Popped × Store} {p : String}
    (hpop : ∀ s κ, κ ∉ popWrites → (pop p s).2 κ = s κ) (t : ℤ) (m d : Option ℤ) (o : FetchOpts)
    (s : Store) {κ : Kind} (h : κ ∉ fetchWrites) : (takeJob pop p t m d o s).2 κ = s κ := by
  have h1 := hpop s κ (Kind.notMem_mono h (by decide))
  simp only [takeJob]
  split
  · rw [prepareJobForProcessing_frame _ _ _ _ _ _ _ (Kind.notMem_mono h (by decide)), h1]
  · exact h1
  · exact h1

/-- A fetch stops after its first half or goes on to its second. -/
theorem fetchWith_cases (pop : String → Store → Popped × Store) (p : String) (t : ℤ)
    (o : FetchOpts) (s : Store) :
    (∃ e, (0 < (startFetch p t o s).1 ∨ isQueuePausedOrMaxed p s = true) ∧
      fetchWith pop p t o s = (some (.noJob e 0), (startFetch p t o s).2)) ∨
    ((startFetch p t o s).1 = 0 ∧ isQueuePausedOrMaxed p s = false ∧
      fetchWith pop p t o s =
        takeJob pop p t (maxJobsOf p o s) (limiterDurationOf p o s) o (startFetch p t o s).2) := by
  simp only [fetchWith, getQueueMetadata]
  rcases Nat.eq_zero_or_pos (startFetch p t o s).1 with hexp | hexp
  · by_cases hmax : isQueuePausedOrMaxed p s = true
    · exact .inl ⟨0, .inr hmax, by simp [hexp, hmax]⟩
    · exact .inr ⟨hexp, by simpa using hmax, by simp [hexp, hmax]⟩
  · exact .inl ⟨(startFetch p t o s).1, .inl hexp, by rw [if_pos hexp]⟩

/-- A fetch replies with a job, with no job or with an error, never with a code. -/
theorem fetchWith_ne_code (pop : String → Store → Popped × Store) (p : String) (t : ℤ)
    (o : FetchOpts) (s : Store) (n : ℤ) : (fetchWith pop p t o s).1 ≠ some (.code n) := by
  have hprep : ∀ j m d s, (prepareJobForProcessing p j t m d o s).1 ≠ .code n := by
    intro j m d s
    simp only [prepareJobForProcessing]
    split <;> simp
  obtain ⟨e, -, hres⟩ | ⟨-, -, hres⟩ := fetchWith_cases pop p t o s
  · simp [hres]
  · rw [hres]
    simp only [takeJob]
    split
    · simpa using hprep _ _ _ _
    · simp
    · simp

theorem fetchWith_frame {pop : String → Store → Popped × Store} {p : String}
    (hpop : ∀ s κ, κ ∉ popWrites → (pop p s).2 κ = s κ) (t : ℤ) (o : FetchOpts) (s : Store)
    {κ : Kind} (h : κ ∉ fetchWrites) : (fetchWith pop p t o s).2 κ = s κ := by
  have hstart := startFetch_frame p t o s (κ := κ) (Kind.notMem_mono h (by decide))
  obtain ⟨e, -, hres⟩ | ⟨-, -, hres⟩ := fetchWith_cases pop p t o s
  · rw [hres, ← hstart]
  · rw [hres, takeJob_frame hpop _ _ _ _ _ h, hstart]

theorem fetchNextJob_frame (p : String) (t : ℤ) (o : FetchOpts) (s : Store) {κ : Kind}
    (h : κ ∉ fetchWrites) : (fetchNextJob p t o s).2 κ = s κ :=
  fetchWith_frame (fun s _ hκ => popForFetchNextJob_frame p s hκ) t o s h

theorem Script.moveToActive_frame (p : String) (t : ℤ) (o : FetchOpts) (s : Store) {κ : Kind}
    (h : κ ∉ fetchWrites) : (Script.moveToActive p t o s).2 κ = s κ :=
  fetchWith_frame (fun s _ hκ => popForMoveToActive_frame p s hκ) t o s h

/-! ### What a pop does -/

/-- `RPOPLPUSH` moves the last id of `wait` to the front of `active`. -/
theorem rpoplpush_cases (p : String) (s : Store) :
    (s (.list .wait) p = [] ∧ rpoplpush p s = (none, s)) ∨
    ∃ j l, s (.list .wait) p = l ++ [j] ∧ rpoplpush p s =
      (some j, (s.set (.list .wait) p l).modify (.list .active) p (lpush j)) := by
  unfold rpoplpush
  rcases hpop : rpop (s (.list .wait) p) with _ | ⟨j, l⟩
  · exact .inl ⟨rpop_eq_none.mp hpop, rfl⟩
  · exact .inr ⟨j, l, rpop_eq_some hpop, rfl⟩

/-- `ZPOPMIN` moves an id of `prioritized` to the front of `active`, or resets the counter. -/
theorem moveJobFromPrioritizedToActive_cases (p : String) (s : Store) :
    (s (.zset .prioritized) p = ∅ ∧
      moveJobFromPrioritizedToActive p s = (none, s.set .pc p (0 : ℕ))) ∨
    ∃ j, j ∈ s (.zset .prioritized) p ∧ moveJobFromPrioritizedToActive p s =
      (some j, (s.modify (.zset .prioritized) p (·.zrem j)).modify (.list .active) p
      (lpush j)) := by
  unfold moveJobFromPrioritizedToActive
  rcases hpop : (s (.zset .prioritized) p).zpopmin with _ | ⟨j, z⟩
  · exact .inl ⟨SortedSet.eq_empty_iff.mpr (SortedSet.zpopmin_eq_none.mp hpop), rfl⟩
  · obtain ⟨hj, rfl⟩ := SortedSet.zpopmin_eq_some hpop
    exact .inr ⟨j, hj, rfl⟩

/-- The active lists after a pop: the popped id is pushed, nothing else changes. -/
def Popped.activeAfter (popped : Popped) (p : String) (active : String → List String) :
    String → List String :=
  match popped with
  | .job j => Function.update active p (j :: active p)
  | _ => active

theorem rpoplpush_active (p : String) (s : Store) :
    (rpoplpush p s).2 (.list .active) =
      (Popped.ofOption (rpoplpush p s).1).activeAfter p (s (.list .active)) := by
  obtain ⟨-, hres⟩ | ⟨j, l, -, hres⟩ := rpoplpush_cases p s
  · rw [hres]
    rfl
  · rw [hres, Keyspace.modify_self, Keyspace.set_of_ne _ (by decide)]
    rfl

theorem moveJobFromPrioritizedToActive_active (p : String) (s : Store) :
    (moveJobFromPrioritizedToActive p s).2 (.list .active) =
      (Popped.ofOption (moveJobFromPrioritizedToActive p s).1).activeAfter p
        (s (.list .active)) := by
  obtain ⟨-, hres⟩ | ⟨j, -, hres⟩ := moveJobFromPrioritizedToActive_cases p s
  · rw [hres, Keyspace.set_of_ne _ (by decide)]
    rfl
  · rw [hres, Keyspace.modify_self, Keyspace.modify_of_ne _ (by decide)]
    rfl

/-- A legacy marker that was just popped leaves the active list again. -/
theorem drop_popped_active {p j : String} {s : Store} (h : (rpoplpush p s).1 = some j) :
    (rpoplpush p s).2.modify (.list .active) p (lremLeft j) (.list .active) =
      s (.list .active) := by
  rw [Keyspace.modify_self, rpoplpush_active, h]
  simp [Popped.ofOption, Popped.activeAfter, lremLeft]

theorem rpoplpushPastMarker_active (p : String) (s : Store) :
    (rpoplpushPastMarker p s).2 (.list .active) =
      (Popped.ofOption (rpoplpushPastMarker p s).1).activeAfter p (s (.list .active)) := by
  have hfst := rpoplpush_active p s
  simp only [rpoplpushPastMarker]
  split
  · next j hj =>
    split
    · rw [rpoplpush_active, drop_popped_active hj]
    · rw [hfst, hj]
  · next hj => rw [hfst, hj]

theorem popForMoveToActive_active (p : String) (s : Store) :
    (popForMoveToActive p s).2 (.list .active) =
      (popForMoveToActive p s).1.activeAfter p (s (.list .active)) := by
  have hfst := rpoplpushPastMarker_active p s
  simp only [popForMoveToActive]
  split
  · next j hj =>
    rw [hfst, hj]
    rfl
  · next hj =>
    rw [moveJobFromPrioritizedToActive_active, hfst, hj]
    rfl

theorem popForFetchNextJob_active (p : String) (s : Store) :
    (popForFetchNextJob p s).2 (.list .active) =
      (popForFetchNextJob p s).1.activeAfter p (s (.list .active)) := by
  have hfst := rpoplpush_active p s
  simp only [popForFetchNextJob]
  split
  · next j hj =>
    split
    · split
      · rw [moveJobFromPrioritizedToActive_active, drop_popped_active hj]
        cases (moveJobFromPrioritizedToActive p _).1 <;> rfl
      · exact drop_popped_active hj
    · rw [hfst, hj]
      rfl
  · next hj =>
    rw [moveJobFromPrioritizedToActive_active, hfst, hj]
    rfl

/-- The second half of a fetch pushes what it popped. -/
theorem takeJob_active {pop : String → Store → Popped × Store} {p : String}
    (hpop : ∀ s, (pop p s).2 (.list .active) = (pop p s).1.activeAfter p (s (.list .active)))
    (t : ℤ) (m d : Option ℤ) (o : FetchOpts) (s : Store) :
    (takeJob pop p t m d o s).2 (.list .active) =
      (pop p s).1.activeAfter p (s (.list .active)) := by
  rw [← hpop s]
  simp only [takeJob]
  split
  · exact prepareJobForProcessing_frame _ _ _ _ _ _ _ (by decide)
  · rfl
  · rfl

end BullMQ
