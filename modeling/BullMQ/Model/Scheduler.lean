import BullMQ.Model.Cleanup

/-!
# Job schedulers

A job scheduler has a hash with its template, an entry in the queue's `repeat` set whose score is
the time of its next iteration, and the job of that iteration, with the id `repeat:<id>:<millis>`.
`addJobScheduler` is the upsert by a client: it takes the pending iteration out of the queue and
stores another one. `updateJobScheduler` is the step by the worker that has fetched the pending
iteration: it stores the one after it.
-/

namespace BullMQ

open Redis

/-- The id of the iteration of a job scheduler at a time. -/
def iterationId (jobSchedulerId : String) (millis : ℤ) : String :=
  "repeat:" ++ jobSchedulerId ++ ":" ++ millis.repr

theorem not_colonFree_iterationId (jobSchedulerId : String) (millis : ℤ) :
    ¬ ColonFree (iterationId jobSchedulerId millis) := by
  simp [ColonFree, iterationId]

/-- The keys of iterations do not name the queue they are in, since their ids hold colons. -/
theorem keyBase_iterationId (p jobSchedulerId : String) (m : ℤ) :
    keyBase (p ++ iterationId jobSchedulerId m) ≠ p := by
  intro h
  have hsplit := getJobKeyPrefix_append_getJobIdFromKey (p ++ iterationId jobSchedulerId m)
  rw [show getJobKeyPrefix _ _ = p from h] at hsplit
  have hid := (String.append_right_inj p).mp hsplit
  exact not_colonFree_iterationId jobSchedulerId m (hid ▸ colonFree_getJobIdFromKey _)

/-- The key of a job scheduler. -/
def schedulerKey (p jobSchedulerId : String) : String := p ++ "repeat:" ++ jobSchedulerId

/-- The options of a job scheduler that scripts read. An upsert has an interval (`every`) or a
pattern, whose next time the client computes. -/
structure SchedulerOpts where
  name : String
  every : Option ℤ := none
  startDate : Option ℤ := none
  offset : Option ℤ := none
  deriving DecidableEq, Repr

/-- The arguments of `addJobScheduler`; `repeatOffset` is the offset in the options of the job. -/
structure UpsertArgs where
  nextMillis : ℤ
  opts : SchedulerOpts
  jobSchedulerId : String
  templateData : String
  jobOpts : JobOpts := {}
  repeatOffset : Option ℤ := none
  timestamp : ℤ
  deriving DecidableEq, Repr

/-- The arguments of `updateJobScheduler`; `repeatEvery` and `repeatOffset` are the interval and
the offset in the options of the job that produces the iteration. -/
structure IterateArgs where
  nextMillis : ℤ
  jobSchedulerId : String
  jobOpts : JobOpts := {}
  repeatEvery : Option ℤ := none
  repeatOffset : Option ℤ := none
  timestamp : ℤ
  producerId : String
  deriving DecidableEq, Repr

/-! ### The time of the next iteration -/

/-- The start of the interval slot that a time is in. -/
def slotStart (millis every : ℤ) : ℤ := millis.fdiv every * every

/-- `getJobSchedulerEveryNextMillis`: the time of the next iteration and the offset. -/
def getJobSchedulerEveryNextMillis (prevMillis : Option ℤ) (every now offset : ℤ)
    (startDate : Option ℤ) : ℤ × ℤ :=
  let nextMillis :=
    match prevMillis with
    | none =>
      match startDate with
      | some startDate => if now < startDate then startDate else now
      | none =>
        if 0 < offset then
          let aligned := slotStart now every + offset
          if aligned ≤ now then aligned + every else aligned
        else now
    | some prevMillis =>
      let nextMillis := prevMillis + every
      if nextMillis < now then
        -- Iterations were missed.
        let aligned := slotStart now every + offset
        if aligned ≤ now then aligned + every else aligned
      else nextMillis
  (nextMillis, if offset = 0 then nextMillis - slotStart nextMillis every else offset)

/-- What an upsert computes before it looks at jobs. -/
structure UpsertTiming where
  nextMillis : ℤ
  newOffset : ℤ
  updatedEvery : Bool
  deriving DecidableEq, Repr

/-- The next time of an upsert, its offset, and whether it changes the interval. -/
def upsertTiming (p : String) (a : UpsertArgs) (s : Store) : UpsertTiming :=
  let offset := a.opts.offset.getD (a.repeatOffset.getD 0)
  match a.opts.every with
  | none => ⟨a.nextMillis, offset, false⟩
  | some every =>
    let prevMillis := (s .repeatSet p).zscore a.jobSchedulerId
    let prevEvery := (s .scheduler (schedulerKey p a.jobSchedulerId)).bind JobScheduler.every
    let updatedEvery := prevMillis.isSome && decide (prevEvery ≠ some every)
    let next := getJobSchedulerEveryNextMillis (if updatedEvery then none else prevMillis) every
      a.timestamp offset a.opts.startDate
    ⟨next.1, next.2, updatedEvery⟩

/-! ### Storing an iteration -/

/-- The template data of a scheduler without data, an empty JSON object. -/
def noTemplateData : String := "\x7b\x7d"

/-- `storeJobScheduler`. -/
def storeJobScheduler (p jobSchedulerId : String) (nextMillis : ℤ) (opts : SchedulerOpts)
    (templateData : String) (s : Store) : Store :=
  let s : Store := s.modify .repeatSet p (·.zadd nextMillis jobSchedulerId)
  s.modify .scheduler (schedulerKey p jobSchedulerId) fun scheduler =>
    some
      { name := some opts.name
        data := if templateData = noTemplateData then none else some templateData
        every := opts.every
        startDate := opts.startDate
        offset := opts.offset <|> scheduler.bind JobScheduler.offset
        ic := some ((scheduler.bind JobScheduler.ic).getD 1) }

/-- `addJobFromScheduler`. -/
def addJobFromScheduler (p jobId name data : String) (jobOpts : JobOpts) (timestamp : ℤ)
    (jobSchedulerId : String) (repeatDelay : ℤ) (s : Store) : Store :=
  storeAndEnqueueJob p jobId name data { jobOpts with delay := repeatDelay } timestamp none
    (some jobSchedulerId) s

/-- The delay until a time, not less than zero. -/
def delayUntil (millis now : ℤ) : ℤ := if millis - now < 0 then 0 else millis - now

/-! ### The upsert -/

/-- The list in which an upsert looks for the pending iteration. -/
def pausedOrWait (p : String) (s : Store) : ListKey := if s .metaPaused p then .paused else .wait

/-- `removeJobFromScheduler`: take the pending iteration out of the queue. Returns whether it was
found. -/
def removeJobFromScheduler (p jobId : String) (s : Store) : Bool × Store :=
  if jobId ∈ s (.zset .delayed) p then
    (true, (removeJobHard p s jobId).modify (.zset .delayed) p (·.zrem jobId))
  else if jobId ∈ s (.zset .prioritized) p then
    (true, (removeJobHard p s jobId).modify (.zset .prioritized) p (·.zrem jobId))
  else if jobId ∈ s (.list (pausedOrWait p s)) p then
    (true, removeJobHard p (s.modify (.list (pausedOrWait p s)) p (lremLeft jobId)) jobId)
  else (false, s)

/-- The pending iteration, if its job exists. -/
def pendingIteration (p jobSchedulerId : String) (s : Store) : Option String :=
  ((s .repeatSet p).zscore jobSchedulerId).bind fun prevMillis =>
    let currentJobId := iterationId jobSchedulerId prevMillis
    if s.jobExists (p ++ currentJobId) then some currentJobId else none

/-- The part of an upsert that removes the pending iteration. -/
def removePendingIteration (p jobSchedulerId : String) (s : Store) : Bool × Store :=
  match pendingIteration p jobSchedulerId s with
  | some currentJobId => removeJobFromScheduler p currentJobId s
  | none => (false, s)

/-- The slot from which an upsert looks for a free one: that of the removed iteration, if the
interval stays the same. -/
def firstSlot (p : String) (a : UpsertArgs) (removedPrevJob : Bool) (s : Store) : ℤ :=
  let timing := upsertTiming p a s
  if removedPrevJob ∧ a.opts.every.isSome ∧ ¬ timing.updatedEvery then
    ((s .repeatSet p).zscore a.jobSchedulerId).getD timing.nextMillis
  else timing.nextMillis

/-- The options that an upsert stores. -/
def upsertOpts (p : String) (a : UpsertArgs) (removedPrevJob : Bool) (s : Store) :
    SchedulerOpts :=
  if removedPrevJob then a.opts
  else { a.opts with offset := some (upsertTiming p a s).newOffset }

/-- The loop over the slots after one that is taken, at most so many. -/
def findSlot (p jobSchedulerId : String) (every : ℤ) (s : Store) : ℕ → ℤ → Option ℤ
  | 0, _ => none
  | scans + 1, millis =>
    if s.jobExists (p ++ iterationId jobSchedulerId (millis + every)) then
      findSlot p jobSchedulerId every s scans (millis + every)
    else some (millis + every)

/-- Store the next iteration of an upsert. -/
def storeIteration (p : String) (a : UpsertArgs) (opts : SchedulerOpts) (nextMillis : ℤ)
    (s : Store) : Reply × Store :=
  let jobId := iterationId a.jobSchedulerId nextMillis
  let delay := delayUntil nextMillis a.timestamp
  let s := storeJobScheduler p a.jobSchedulerId nextMillis opts a.templateData s
  let s : Store := s.modify .id p (· + 1)
  (.scheduled jobId delay,
    addJobFromScheduler p jobId opts.name a.templateData a.jobOpts a.timestamp a.jobSchedulerId
      delay s)

/-- `addJobScheduler`. -/
def Script.addJobScheduler (p : String) (a : UpsertArgs) (s : Store) : Reply × Store :=
  let s₀ := getOrSetMaxEvents p s
  let (removedPrevJob, s) := removePendingIteration p a.jobSchedulerId s₀
  let nextMillis := firstSlot p a removedPrevJob s₀
  let opts := upsertOpts p a removedPrevJob s₀
  let taken := s.jobExists (p ++ iterationId a.jobSchedulerId nextMillis)
  match a.opts.every with
  | some every =>
    if taken then
      match findSlot p a.jobSchedulerId every s 32 nextMillis with
      | some nextMillis => storeIteration p a opts nextMillis s
      | none => (.code (-11), s)
    else storeIteration p a opts nextMillis s
  | none =>
    if taken ∧ ¬ removedPrevJob then (.code (-10), s) else storeIteration p a opts nextMillis s

/-! ### The next iteration -/

/-- The time that `updateJobScheduler` computes. The interval is that of the scheduler, else that
of the job. -/
def iterateMillis (a : IterateArgs) (scheduler : Option JobScheduler) (prevMillis : ℤ) : ℤ :=
  match scheduler.bind JobScheduler.every <|> a.repeatEvery with
  | some every =>
    let offset := (scheduler.bind JobScheduler.offset).getD (a.repeatOffset.getD 0)
    (getJobSchedulerEveryNextMillis (some prevMillis) every a.timestamp offset none).1
  | none => a.nextMillis

/-- `updateJobScheduler`. -/
def Script.updateJobScheduler (p : String) (a : IterateArgs) (s : Store) : Reply × Store :=
  match (s .repeatSet p).zscore a.jobSchedulerId with
  | none => (.nil, s)
  | some prevMillis =>
    let key := schedulerKey p a.jobSchedulerId
    let scheduler := s .scheduler key
    let nextMillis := iterateMillis a scheduler prevMillis
    let nextDelayedJobId := iterationId a.jobSchedulerId nextMillis
    if a.producerId = iterationId a.jobSchedulerId prevMillis then
      let s := getOrSetMaxEvents p s
      if s.jobExists (p ++ nextDelayedJobId) then (.nil, s.xadd p (.duplicated nextDelayedJobId))
      else
        let s : Store := s.modify .repeatSet p (·.zadd nextMillis a.jobSchedulerId)
        let s : Store := s.modify .scheduler key fun scheduler =>
          some { scheduler.getD {} with
            ic := some (((scheduler.bind JobScheduler.ic).getD 0) + 1) }
        let s : Store := s.modify .id p (· + 1)
        match scheduler.bind JobScheduler.name with
        -- Lua refuses the missing name as an argument of `HMSET`.
        | none => (.error, s)
        | some name =>
          let data := (scheduler.bind JobScheduler.data).getD noTemplateData
          (.id nextDelayedJobId,
            addJobFromScheduler p nextDelayedJobId name data a.jobOpts a.timestamp
              a.jobSchedulerId (delayUntil nextMillis a.timestamp) s)
    else (.nil, s)

/-! ### The end of a scheduler -/

/-- `removeJobScheduler`: the pending iteration is deleted where it is delayed. -/
def Script.removeJobScheduler (p jobSchedulerId : String) (s : Store) : Reply × Store :=
  let s :=
    match (s .repeatSet p).zscore jobSchedulerId with
    | some millis =>
      let delayedJobId := iterationId jobSchedulerId millis
      if delayedJobId ∈ s (.zset .delayed) p then
        let s : Store := s.modify (.zset .delayed) p (·.zrem delayedJobId)
        let s := removeJobKeys (p ++ delayedJobId) s
        s.xadd p (.removed delayedJobId "delayed")
      else s
    | none => s
  if jobSchedulerId ∈ s .repeatSet p then
    let s : Store := s.modify .repeatSet p (·.zrem jobSchedulerId)
    (.code 0, s.set .scheduler (schedulerKey p jobSchedulerId) none)
  else (.code 1, s)

/-! ### The search for a slot -/

theorem findSlot_eq_none {p S : String} {every : ℤ} {s : Store} {n : ℕ} {m : ℤ} :
    findSlot p S every s n m = none ↔
      ∀ k < n, s.jobExists (p ++ iterationId S (m + (k + 1 : ℕ) * every)) = true := by
  induction n generalizing m with
  | zero => simp [findSlot]
  | succ n ih =>
    have hshift : ∀ k : ℕ, m + every + (k + 1 : ℕ) * every = m + (k + 1 + 1 : ℕ) * every := by
      intro k
      push_cast
      ring
    unfold findSlot
    split
    · next hex =>
      rw [ih]
      constructor
      · intro h k hk
        rcases k with _ | k
        · simpa using hex
        · rw [← hshift]
          exact h k (by omega)
      · intro h k hk
        rw [hshift]
        exact h (k + 1) (by omega)
    · next hfree =>
      refine iff_of_false (by simp) fun h => hfree ?_
      simpa using h 0 (by omega)

theorem findSlot_eq_some {p S : String} {every : ℤ} {s : Store} {n : ℕ} {m m' : ℤ}
    (h : findSlot p S every s n m = some m') : s.jobExists (p ++ iterationId S m') = false := by
  induction n generalizing m with
  | zero => cases h
  | succ n ih =>
    unfold findSlot at h
    split at h
    · exact ih h
    · next hfree =>
      obtain rfl : m + every = m' := by simpa using h
      simpa using hfree

/-- Every slot that is tried is taken. -/
theorem slots_taken_iff {p S : String} {every : ℤ} {s : Store} {m : ℤ} :
    (s.jobExists (p ++ iterationId S m) = true ∧ findSlot p S every s 32 m = none) ↔
      ∀ n : ℕ, n ≤ 32 → s.jobExists (p ++ iterationId S (m + n * every)) = true := by
  rw [findSlot_eq_none]
  constructor
  · rintro ⟨h₀, h⟩ n hn
    rcases n with _ | n
    · simpa using h₀
    · exact h n (by omega)
  · intro h
    exact ⟨by simpa using h 0 (by omega), fun k hk => h (k + 1) (by omega)⟩

theorem firstSlot_of_pattern {p : String} {a : UpsertArgs} (h : a.opts.every = none) (b : Bool)
    (s : Store) : firstSlot p a b s = a.nextMillis := by
  simp [firstSlot, upsertTiming, h]

/-- The ends of an upsert, over the removal of the pending iteration. -/
theorem Script.addJobScheduler_cases {p : String} {a : UpsertArgs} {s t : Store} {b : Bool}
    (hrem : removePendingIteration p a.jobSchedulerId (getOrSetMaxEvents p s) = (b, t)) :
    (∃ o m, Script.addJobScheduler p a s = storeIteration p a o m t ∧
      (t.jobExists (p ++ iterationId a.jobSchedulerId m) = false ∨
        a.opts.every = none ∧ b = true ∧ m = a.nextMillis)) ∨
    (∃ every, a.opts.every = some every ∧ Script.addJobScheduler p a s = (.code (-11), t) ∧
      ∀ n : ℕ, n ≤ 32 → t.jobExists (p ++ iterationId a.jobSchedulerId
        (firstSlot p a b (getOrSetMaxEvents p s) + n * every)) = true) ∨
    (a.opts.every = none ∧ b = false ∧ Script.addJobScheduler p a s = (.code (-10), t) ∧
      t.jobExists (p ++ iterationId a.jobSchedulerId a.nextMillis) = true) := by
  simp only [addJobScheduler, hrem]
  split
  · next every hevery =>
    split
    · next htaken =>
      split
      · next m hm => exact .inl ⟨_, m, rfl, .inl (findSlot_eq_some hm)⟩
      · next hnone =>
        exact .inr (.inl ⟨every, hevery, rfl, slots_taken_iff.mp ⟨htaken, hnone⟩⟩)
    · next hfree => exact .inl ⟨_, _, rfl, .inl (by simpa using hfree)⟩
  · next hpattern =>
    rw [firstSlot_of_pattern hpattern]
    split
    · next h => exact .inr (.inr ⟨hpattern, by simpa using h.2, rfl, h.1⟩)
    · next h =>
      refine .inl ⟨_, _, rfl, ?_⟩
      by_cases htaken : t.jobExists (p ++ iterationId a.jobSchedulerId a.nextMillis) = true
      · exact .inr ⟨hpattern, by simpa [htaken] using h, rfl⟩
      · exact .inl (by simpa using htaken)

/-- An upsert whose slots are all taken is refused. -/
theorem Script.addJobScheduler_of_taken {p : String} {a : UpsertArgs} {s t : Store} {b : Bool}
    {every : ℤ} (hrem : removePendingIteration p a.jobSchedulerId (getOrSetMaxEvents p s) = (b, t))
    (hevery : a.opts.every = some every)
    (hbusy : ∀ n : ℕ, n ≤ 32 → t.jobExists (p ++ iterationId a.jobSchedulerId
      (firstSlot p a b (getOrSetMaxEvents p s) + n * every)) = true) :
    Script.addJobScheduler p a s = (.code (-11), t) := by
  obtain ⟨htaken, hnone⟩ := slots_taken_iff.mpr hbusy
  simp only [addJobScheduler, hrem, hevery, htaken, hnone, if_true]

/-- An upsert with a pattern stores the time it is given, unless that is taken and there was no
pending iteration to take out. -/
theorem Script.addJobScheduler_of_pattern {p : String} {a : UpsertArgs} {s t : Store} {b : Bool}
    (hrem : removePendingIteration p a.jobSchedulerId (getOrSetMaxEvents p s) = (b, t))
    (hpattern : a.opts.every = none) :
    Script.addJobScheduler p a s =
      if t.jobExists (p ++ iterationId a.jobSchedulerId a.nextMillis) = true ∧ b = false then
        (.code (-10), t)
      else storeIteration p a (upsertOpts p a b (getOrSetMaxEvents p s)) a.nextMillis t := by
  simp only [addJobScheduler, hrem, hpattern, firstSlot_of_pattern hpattern, Bool.not_eq_true]

/-! ### What the scheduler scripts write -/

/-- The families that `updateJobScheduler` writes. -/
def iterateWrites : List Kind :=
  .metaMaxLenEvents :: .repeatSet :: .scheduler :: .id :: enqueueWrites

/-- The families that the removal of a pending iteration writes. -/
def pendingWrites : List Kind :=
  .list .paused :: .list .wait :: .zset .delayed :: .zset .prioritized :: hardWrites

theorem removePendingIteration_frame (p S : String) (s : Store) {κ : Kind}
    (h : κ ∉ pendingWrites) :
    (removePendingIteration p S s).2 κ = s κ := by
  have hhard : κ ∉ hardWrites := Kind.notMem_mono h (by decide)
  have hdel : κ ≠ .zset .delayed := by rintro rfl; exact h (by decide)
  have hprio : κ ≠ .zset .prioritized := by rintro rfl; exact h (by decide)
  have hlist : κ ≠ .list (pausedOrWait p s) := by
    unfold pausedOrWait
    rintro rfl
    exact h (by split <;> decide)
  unfold removePendingIteration
  split
  · unfold removeJobFromScheduler
    split
    · rw [Keyspace.modify_of_ne _ hdel, removeJobHard_frame _ _ _ hhard]
    · split
      · rw [Keyspace.modify_of_ne _ hprio, removeJobHard_frame _ _ _ hhard]
      · split
        · rw [removeJobHard_frame _ _ _ hhard, Keyspace.modify_of_ne _ hlist]
        · rfl
  · rfl

theorem storeJobScheduler_frame (p S : String) (m : ℤ) (o : SchedulerOpts) (d : String) (s : Store)
    {κ : Kind} (h : κ ∉ [Kind.repeatSet, .scheduler]) : storeJobScheduler p S m o d s κ = s κ := by
  simp only [List.mem_cons, List.not_mem_nil, or_false, not_or] at h
  rw [storeJobScheduler, Keyspace.modify_of_ne _ h.2, Keyspace.modify_of_ne _ h.1]

theorem storeIteration_frame (p : String) (a : UpsertArgs) (o : SchedulerOpts) (m : ℤ) (s : Store)
    {κ : Kind} (h : κ ∉ iterateWrites) : (storeIteration p a o m s).2 κ = s κ := by
  have hid : κ ≠ .id := by rintro rfl; exact h (by decide)
  simp only [storeIteration, addJobFromScheduler]
  rw [storeAndEnqueueJob_frame _ _ _ _ _ _ _ _ _ (Kind.notMem_mono h (by decide)),
    Keyspace.modify_of_ne _ hid,
      storeJobScheduler_frame _ _ _ _ _ _ (Kind.notMem_mono h (by decide))]

namespace Script

theorem addJobScheduler_frame (p : String) (a : UpsertArgs) (s : Store) {κ : Kind}
    (h : κ ∉ iterateWrites ++ pendingWrites) : (addJobScheduler p a s).2 κ = s κ := by
  have hmax : getOrSetMaxEvents p s κ = s κ :=
    getOrSetMaxEvents_frame p s (Kind.notMem_mono h (by decide))
  have hpending := removePendingIteration_frame p a.jobSchedulerId (getOrSetMaxEvents p s)
    (Kind.notMem_mono h (List.subset_append_right _ _))
  rcases hrem : removePendingIteration p a.jobSchedulerId (getOrSetMaxEvents p s) with ⟨b, t⟩
  rw [hrem] at hpending
  obtain ⟨o, m, heq, -⟩ | ⟨every, -, heq, -⟩ | ⟨-, -, heq, -⟩ := addJobScheduler_cases hrem <;>
    rw [heq]
  · rw [storeIteration_frame _ _ _ _ _ (Kind.notMem_mono h (List.subset_append_left _ _)),
      hpending, hmax]
  · exact hpending.trans hmax
  · exact hpending.trans hmax

theorem updateJobScheduler_frame (p : String) (a : IterateArgs) (s : Store) {κ : Kind}
    (h : κ ∉ iterateWrites) : (updateJobScheduler p a s).2 κ = s κ := by
  have hmax : getOrSetMaxEvents p s κ = s κ :=
    getOrSetMaxEvents_frame p s (Kind.notMem_mono h (by decide))
  have hrep : κ ≠ .repeatSet := by rintro rfl; exact h (by decide)
  have hsched : κ ≠ .scheduler := by rintro rfl; exact h (by decide)
  have hid : κ ≠ .id := by rintro rfl; exact h (by decide)
  have hev : κ ≠ .events := by rintro rfl; exact h (by decide)
  simp only [updateJobScheduler]
  split
  · rfl
  · split
    · split
      · rw [Store.xadd_of_ne _ _ _ hev, hmax]
      · split
        · rw [Keyspace.modify_of_ne _ hid, Keyspace.modify_of_ne _ hsched,
            Keyspace.modify_of_ne _ hrep, hmax]
        · rw [addJobFromScheduler,
            storeAndEnqueueJob_frame _ _ _ _ _ _ _ _ _ (Kind.notMem_mono h (by decide)),
            Keyspace.modify_of_ne _ hid, Keyspace.modify_of_ne _ hsched,
            Keyspace.modify_of_ne _ hrep, hmax]
    · rfl

end Script

end BullMQ
