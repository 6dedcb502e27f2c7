import BullMQ.Model.Command
import BullMQ.Model.Flow
import BullMQ.Model.Orphans
import BullMQ.Naming.HousedScripts

/-!
# Admitted ids that are no job ids

Jobs share the key space of their queue with the queue's own keys, and scripts that meet a legacy
marker `0:...` at the end of a list drop it. `Job.validateOptions` looks at neither: it admits ids
without a colon that are no integers, and ids with two colons. An admitted id is handled as that of
a job (`HandledAsJob`) exactly when it does not start like a legacy marker and names none of the
queue's own keys (`handledAsJob_iff`).
-/

namespace BullMQ

open Redis Transition

/-! ### Ids -/

/-- The custom ids that `Job.validateOptions` admits: no integers, without a colon or with two. -/
def admitsJobId (jobId : String) : Bool :=
  !isIntegerId jobId && (jobId.toList.count ':' == 0 || jobId.toList.count ':' == 2)

/-- The names of single keys of a queue. -/
def ownKeyNames : List String :=
  ["wait", "paused", "active", "prioritized", "delayed", "completed", "failed", "waiting-children",
    "id", "pc", "meta", "stalled", "stalled-check", "limiter", "marker", "events", "repeat",
    "metrics:completed", "metrics:completed:data", "metrics:failed", "metrics:failed:data"]

/-- An id that is spelled like a key of the queue: of a single one, of a job scheduler or of a
deduplication id. -/
def isOwnKeyName (jobId : String) : Bool :=
  ownKeyNames.contains jobId ||
    ["repeat:", "de:", "dn:"].any fun start => start.toList.isPrefixOf jobId.toList

theorem isOwnKeyName_of_start {start x : String} (h : start ∈ ["repeat:", "de:", "dn:"]) :
    isOwnKeyName (start ++ x) = true := by
  have hany : ["repeat:", "de:", "dn:"].any
      (fun start' => start'.toList.isPrefixOf (start ++ x).toList) = true := by
    refine List.any_eq_true.mpr ⟨start, h, ?_⟩
    rw [String.toList_append]
    exact List.isPrefixOf_iff_prefix.mpr (List.prefix_append _ _)
  rw [isOwnKeyName, hany, Bool.or_true]

theorem exists_of_isOwnKeyName {j : String} (h : isOwnKeyName j = true) :
    j ∈ ownKeyNames ∨ ∃ start ∈ ["repeat:", "de:", "dn:"], ∃ x, j = start ++ x := by
  rw [isOwnKeyName, Bool.or_eq_true] at h
  obtain h | h := h
  · exact .inl (List.contains_iff_mem.mp h)
  · obtain ⟨start, hstart, hpre⟩ := List.any_eq_true.mp h
    obtain ⟨t, ht⟩ := List.isPrefixOf_iff_prefix.mp hpre
    refine .inr ⟨start, hstart, String.ofList t, String.toList_injective ?_⟩
    rw [String.toList_append, String.toList_ofList, ht]

/-- The keys of a queue that are no keys of a job, by the names of the ids that have them. -/
theorem own_key_iff (p j : String) :
    (∃ κ, κ ∉ jobKinds ∧ ∃ k, κ.OfQueue p k ∧ p ++ j ∈ κ.keys k) ↔ isOwnKeyName j = true := by
  have hname : ∀ {x : String}, x ∈ ownKeyNames → p ++ j = p ++ x → isOwnKeyName j = true := by
    intro x hx heq
    obtain rfl := (String.append_right_inj _).mp heq
    rw [isOwnKeyName, List.contains_iff_mem.mpr hx, Bool.true_or]
  have hstart : ∀ {start x : String}, start ∈ ["repeat:", "de:", "dn:"] →
      p ++ j = p ++ start ++ x → isOwnKeyName j = true := by
    intro start x hs heq
    rw [String.append_assoc] at heq
    obtain rfl := (String.append_right_inj _).mp heq
    exact isOwnKeyName_of_start hs
  constructor
  · -- By the family: a key with a fixed name of the queue, or one that starts like a scheduler or a
    -- deduplication key.
    rintro ⟨κ, hκ, k, hk, hmem⟩
    cases κ with
    | list l =>
      obtain rfl : k = p := hk
      exact hname (by cases l <;> decide) (List.mem_singleton.mp hmem)
    | zset z =>
      obtain rfl : k = p := hk
      exact hname (by cases z <;> decide) (List.mem_singleton.mp hmem)
    | metrics =>
      obtain ⟨status, rfl⟩ := hk
      obtain heq | heq : p ++ j = p ++ "metrics:" ++ status.name ∨
          p ++ j = p ++ "metrics:" ++ status.name ++ ":data" := by
        simpa [Kind.keys] using hmem
      · rw [String.append_assoc] at heq
        exact hname (by cases status <;> decide) heq
      · simp only [String.append_assoc] at heq
        exact hname (by cases status <;> decide) heq
    | scheduler =>
      obtain ⟨S, rfl⟩ := hk
      exact hstart (by decide) (List.mem_singleton.mp hmem)
    | de =>
      obtain ⟨d, rfl⟩ := hk
      exact hstart (by decide) (List.mem_singleton.mp hmem)
    | dn =>
      obtain ⟨d, rfl⟩ := hk
      exact hstart (by decide) (List.mem_singleton.mp hmem)
    | id | pc | metaPaused | metaConcurrency | metaMax | metaDuration | metaMaxLenEvents | stalled
    | stalledCheck | limiter | marker | events | repeatSet =>
      obtain rfl : k = p := hk
      exact hname (by decide) (List.mem_singleton.mp hmem)
    | hash | lock | logs | dependencies | processed | failedChildren | unsuccessful =>
      exact absurd (by decide) hκ
  · intro h
    obtain hin | ⟨start, hs, x, rfl⟩ := exists_of_isOwnKeyName h
    · simp only [ownKeyNames, List.mem_cons, List.not_mem_nil, or_false] at hin
      rcases hin with rfl | rfl | rfl | rfl | rfl | rfl | rfl | rfl | rfl | rfl | rfl | rfl | rfl |
        rfl | rfl | rfl | rfl | rfl | rfl | rfl | rfl
      · -- One family for each of the names.
        exact ⟨.list .wait, by decide, p, rfl, .head _⟩
      · exact ⟨.list .paused, by decide, p, rfl, .head _⟩
      · exact ⟨.list .active, by decide, p, rfl, .head _⟩
      · exact ⟨.zset .prioritized, by decide, p, rfl, .head _⟩
      · exact ⟨.zset .delayed, by decide, p, rfl, .head _⟩
      · exact ⟨.zset .completed, by decide, p, rfl, .head _⟩
      · exact ⟨.zset .failed, by decide, p, rfl, .head _⟩
      · exact ⟨.zset .waitingChildren, by decide, p, rfl, .head _⟩
      · exact ⟨.id, by decide, p, rfl, .head _⟩
      · exact ⟨.pc, by decide, p, rfl, .head _⟩
      · exact ⟨.metaPaused, by decide, p, rfl, .head _⟩
      · exact ⟨.stalled, by decide, p, rfl, .head _⟩
      · exact ⟨.stalledCheck, by decide, p, rfl, .head _⟩
      · exact ⟨.limiter, by decide, p, rfl, .head _⟩
      · exact ⟨.marker, by decide, p, rfl, .head _⟩
      · exact ⟨.events, by decide, p, rfl, .head _⟩
      · exact ⟨.repeatSet, by decide, p, rfl, .head _⟩
      · exact ⟨.metrics, by decide, _, ⟨.completed, rfl⟩,
          by simp [Kind.keys, FinishedStatus.name, String.append_assoc]⟩
      · exact ⟨.metrics, by decide, _, ⟨.completed, rfl⟩,
          by simp [Kind.keys, FinishedStatus.name, String.append_assoc]⟩
      · exact ⟨.metrics, by decide, _, ⟨.failed, rfl⟩,
          by simp [Kind.keys, FinishedStatus.name, String.append_assoc]⟩
      · exact ⟨.metrics, by decide, _, ⟨.failed, rfl⟩,
          by simp [Kind.keys, FinishedStatus.name, String.append_assoc]⟩
    · obtain rfl | rfl | rfl : start = "repeat:" ∨ start = "de:" ∨ start = "dn:" := by
        simpa using hs
      · exact ⟨.scheduler, by decide, _, ⟨x, rfl⟩,
          by simp [Kind.keys, schedulerKey, String.append_assoc]⟩
      · exact ⟨.de, by decide, _, ⟨x, rfl⟩,
          by simp [Kind.keys, deduplicationKey, String.append_assoc]⟩
      · exact ⟨.dn, by decide, _, ⟨x, rfl⟩,
          by simp [Kind.keys, deduplicationNextKey, String.append_assoc]⟩

/-! ### Traffic -/

/-- What goes on in a queue that jobs are added to, processed and read from. -/
inductive Traffic
  | command (c : Command)
  | getJobs (p : String) (rangeStart rangeEnd : ℤ) (asc : Bool) (maxIterations : ℕ)
      (types : List Container)

/-- Execute an operation. -/
def Traffic.exec : Traffic → Store → Option Store
  | command c, s => (c.exec s).map Prod.snd
  | getJobs p rangeStart rangeEnd asc maxIterations types, s =>
    some (Script.getJobs p rangeStart rangeEnd asc maxIterations types s).2

/-- The adds, fetches, finishes and stalled checks on queues of `Q`, and the time that passes. No
add brings the name of a key of the queue: the key families of the model are apart, so that it could
not tell what becomes of a queue whose wait list, say, is the hash of a job. -/
def Command.IsTraffic (Q : QueueSet) : Command → Prop
  | .addStandardJob p a | .addDelayedJob p a | .addPrioritizedJob p a | .addParentJob p a =>
    Q.Base p ∧
      (a.customId ≠ "" → admitsJobId a.customId = true ∧ isOwnKeyName a.customId = false)
  | .moveToActive p .. | .moveToFinished p .. | .moveStalledJobsToWait p .. => Q.Base p
  | .expireLock .. | .expireStalledCheck .. | .expireLimiter .. | .elapseLimiter ..
  | .reorderStalled .. => True
  | _ => False

/-- The operations on queues of `Q`. -/
def Traffic.Of (Q : QueueSet) : Traffic → Prop
  | command c => c.IsTraffic Q
  | getJobs p .. => Q.Base p

/-- One operation on queues of `Q`. -/
def TrafficStep (Q : QueueSet) (s : Store) (o : Traffic) (s' : Store) : Prop :=
  o.Of Q ∧ o.exec s = some s'

/-- The script that finishes a job. -/
def Traffic.Finishes (p j : String) : Traffic → Prop
  | command (.moveToFinished q a) => q = p ∧ a.jobId = j
  | _ => False

/-! ### Handling -/

/-- A fetch on a queue that is neither paused, maxed nor rate limited, by a worker that can lock a
job: if the id is at the popping end of the wait list, it is moved to the active list, locked and
handed out. -/
def FetchedAsJob (pop : String → Store → Popped × Store) (p j : String) : Prop :=
  ∀ (t : ℤ) (o : FetchOpts) (s : Store) (rest : List String),
    isQueuePausedOrMaxed p s = false → (startFetch p t o s).1 = 0 →
    (o.token ≠ "0" → 0 < o.lockDuration) →
    (countActivation (maxJobsOf p o s) (limiterDurationOf p o s) p
      (startFetch p t o s).2).1 = true →
    (startFetch p t o s).2 (.list .wait) p = rest ++ [j] →
    ∃ job, (fetchWith pop p t o s).1 = some (.job job j) ∧
      (fetchWith pop p t o s).2 (.list .wait) p = rest ∧
      j ∈ (fetchWith pop p t o s).2 (.list .active) p ∧
      (o.token ≠ "0" → (fetchWith pop p t o s).2 .lock (p ++ j) = some o.token)

/-- An id is handled as that of a job: its key is none of the queue's own, both fetches treat it as
a job, only the script that finishes the job takes it off the lists, and no run leaves the job
outside the containers, as long as no add of the run brings the name of a key. -/
structure HandledAsJob (Q : QueueSet) (p j : String) : Prop where
  key : ∀ κ, κ ∉ jobKinds → ∀ k, κ.OfQueue p k → p ++ j ∉ κ.keys k
  moveToActive : FetchedAsJob popForMoveToActive p j
  fetchNextJob : FetchedAsJob popForFetchNextJob p j
  listed : ∀ steps s, Run (TrafficStep Q) .empty steps s → ∀ o s', TrafficStep Q s o s' →
    ¬ o.Finishes p j → OnList p j s → OnList p j s'
  housed : ∀ steps s, Run (TrafficStep Q) .empty steps s → Housed p j s

section Handled

variable {Q : QueueSet} {p j : String} {s s' : Store}

/-- Every operation but the script that finishes the job. -/
theorem Keeps.trafficStep {o : Traffic} (hj : isLegacyMarker j = false) (hp : Q.Base p)
    (hstep : TrafficStep Q s o s') (ho : ¬ o.Finishes p j) : Keeps p j s s' := by
  obtain ⟨hof, hexec⟩ := hstep
  cases o with
  | getJobs q a b asc n types =>
    obtain rfl := Option.some.inj hexec
    exact .getJobs hj q a b asc n types s
  | command c =>
    obtain ⟨r, hr, rfl⟩ := Option.map_eq_some_iff.mp hexec
    cases c with
    | addStandardJob q a =>
      obtain rfl := Option.some.inj hr
      exact .addJobWith standardMode_adds hp hof.1 a
    | addDelayedJob q a =>
      obtain rfl := Option.some.inj hr
      exact .addJobWith delayedMode_adds hp hof.1 a
    | addPrioritizedJob q a =>
      obtain rfl := Option.some.inj hr
      exact .addJobWith prioritizedMode_adds hp hof.1 a
    | addParentJob q a =>
      obtain rfl := Option.some.inj hr
      exact .addJobWith parentMode_adds hp hof.1 a
    | moveToActive q t o =>
      obtain rfl := Option.some.inj hr
      exact .moveToActive hj hp hof t o
    | moveToFinished q a =>
      obtain rfl := Option.some.inj hr
      -- A key determines its queue and its id, so that the finished job is another one.
      refine .moveToFinished hj hp hof fun heq => ho ?_
      obtain rfl := Q.apart hof hp heq
      exact ⟨rfl, (String.append_right_inj _).mp heq⟩
    | moveStalledJobsToWait q m t c =>
      obtain rfl := Option.some.inj hr
      exact .moveStalledJobsToWait hj hp hof m t c
    | expireLock k =>
      obtain rfl := Option.some.inj hr
      exact .set (κ := .lock) (by decide) _ _
    | expireStalledCheck q =>
      obtain rfl := Option.some.inj hr
      exact .set (κ := .stalledCheck) (by decide) _ _
    | expireLimiter q =>
      obtain rfl := Option.some.inj hr
      simp only [BullMQ.expireLimiter]
      split
      · exact .set (κ := .limiter) (by decide) _ _
      · exact .refl p j s
    | elapseLimiter q ms =>
      obtain rfl := Option.some.inj hr
      exact .modify (κ := .limiter) (by decide) _ _
    | reorderStalled q m =>
      obtain rfl := Option.some.inj hr
      exact .modify (κ := .stalled) (by decide) _ _
    | _ => exact hof.elim

theorem Housed.trafficStep {o : Traffic} (h : Housed p j s) (hj : isLegacyMarker j = false)
    (hp : Q.Base p) (hstep : TrafficStep Q s o s') : Housed p j s' := by
  by_cases ho : o.Finishes p j
  · obtain ⟨hof, hexec⟩ := hstep
    unfold Traffic.Finishes at ho
    split at ho
    · obtain ⟨rfl, rfl⟩ := ho
      obtain rfl := Option.some.inj hexec
      exact h.moveToFinished hj hp
    · exact ho.elim
  · exact h.keeps (.trafficStep hj hp hstep ho)

/-! ### Popping -/

theorem rpoplpush_of_wait {rest : List String} (h : s (.list .wait) p = rest ++ [j]) :
    rpoplpush p s = (some j, (s.set (.list .wait) p rest).modify (.list .active) p (lpush j)) := by
  obtain ⟨hnil, -⟩ | ⟨i, l, hl, heq⟩ := rpoplpush_cases p s
  · simp [hnil] at h
  · obtain ⟨rfl, hi⟩ := List.append_inj' (hl.symm.trans h) rfl
    obtain rfl : i = j := by simpa using hi
    exact heq

/-- Whether an activation can be counted depends on the limiter alone. -/
theorem countActivation_congr {m d : Option ℤ} (h : s' .limiter = s .limiter) :
    (countActivation m d p s').1 = (countActivation m d p s).1 := by
  cases m with
  | none => rfl
  | some m =>
    have hcount : ∀ f, limiterCount p (s'.modify .limiter p f) =
        limiterCount p (s.modify .limiter p f) := fun f => by
      rw [limiterCount, limiterCount, Keyspace.modify_self, Keyspace.modify_self,
        Function.update_self, Function.update_self, h]
    simp only [countActivation, hcount]
    split
    · split
      · rfl
      · split
        · rfl
        · rfl
    · rfl

/-- A pop that moves the id from the wait list to the active list leads to its preparation. -/
theorem fetchedAsJob_of_pop {pop : String → Store → Popped × Store}
    (hpop : ∀ {s : Store} {rest}, s (.list .wait) p = rest ++ [j] → pop p s =
      (.job j, (s.set (.list .wait) p rest).modify (.list .active) p (lpush j))) :
    FetchedAsJob pop p j := by
  intro t o s rest hmax hexp hlock hcount hwait
  obtain ⟨e, hor, -⟩ | ⟨-, -, hres⟩ := fetchWith_cases pop p t o s
  · obtain h | h := hor
    · omega
    · rw [hmax] at h
      cases h
  rw [hres]
  generalize (startFetch p t o s).2 = s₁ at hwait hcount ⊢
  -- From here on only the store after the promotion of delayed jobs matters.
  have hpopped := hpop hwait
  generalize hs₂ : (s₁.set (.list .wait) p rest).modify (.list .active) p (lpush j) = s₂ at hpopped
  have hwait₂ : s₂ (.list .wait) p = rest := by
    rw [← hs₂, Keyspace.modify_of_ne _ (by decide), Keyspace.set_self, Function.update_self]
  have hactive₂ : j ∈ s₂ (.list .active) p := by
    rw [← hs₂, Keyspace.modify_self, Function.update_self]
    exact .head _
  have hcounted : (countActivation (maxJobsOf p o s) (limiterDurationOf p o s) p s₂).1 = true := by
    rw [← hcount]
    refine countActivation_congr ?_
    rw [← hs₂, Keyspace.modify_of_ne _ (by decide), Keyspace.set_of_ne _ (by decide)]
  -- The job is counted and its lock has a duration, so that its preparation goes through.
  have hgo : ¬ (¬ (countActivation (maxJobsOf p o s) (limiterDurationOf p o s) p s₂).1 ∨
      o.token ≠ "0" ∧ o.lockDuration ≤ 0) := by
    rintro (h | ⟨h, h'⟩)
    · exact h hcounted
    · have := hlock h
      omega
  have hframe : ∀ κ : Kind, κ ∉ [Kind.limiter, .lock, .events, .hash, .marker] →
      (takeJob pop p t (maxJobsOf p o s) (limiterDurationOf p o s) o s₁).2 κ = s₂ κ := by
    intro κ hκ
    simp only [takeJob, hpopped]
    exact prepareJobForProcessing_frame _ _ _ _ _ _ _ hκ
  rw [hframe _ (by decide), hframe _ (by decide)]
  simp only [takeJob, hpopped, prepareJobForProcessing, if_neg hgo]
  refine ⟨_, rfl, hwait₂, hactive₂, fun ht => ?_⟩
  rw [addBaseMarkerIfNeeded_frame _ _ _ (by decide), Store.hset_of_ne _ _ _ (by decide),
    Store.hset_of_ne _ _ _ (by decide), Store.xadd_of_ne _ _ _ (by decide), if_pos ht,
    Keyspace.set_self, Function.update_self]

theorem fetchedAsJob_moveToActive (hj : isLegacyMarker j = false) :
    FetchedAsJob popForMoveToActive p j := by
  refine fetchedAsJob_of_pop fun hwait => ?_
  simp [popForMoveToActive, rpoplpushPastMarker, rpoplpush_of_wait hwait, hj]

theorem fetchedAsJob_fetchNextJob (hj : isLegacyMarker j = false) :
    FetchedAsJob popForFetchNextJob p j := by
  refine fetchedAsJob_of_pop fun hwait => ?_
  simp [popForFetchNextJob, rpoplpush_of_wait hwait, hj]

/-! ### Legacy markers -/

/-- A fetch drops a legacy marker that is all there is to fetch. -/
theorem moveToActive_drops {t : ℤ} {o : FetchOpts} (hj : isLegacyMarker j = true)
    (hmax : isQueuePausedOrMaxed p s = false) (hlimit : maxJobsOf p o s = none)
    (hdelayed : s (.zset .delayed) p = ∅) (hprio : s (.zset .prioritized) p = ∅)
    (hwait : s (.list .wait) p = [j]) :
    (Script.moveToActive p t o s).2 (.list .wait) p = [] ∧
      (Script.moveToActive p t o s).2 (.list .active) = s (.list .active) ∧
      ∀ κ, κ ∉ [Kind.list .wait, .list .active, .pc] →
        (Script.moveToActive p t o s).2 κ = s κ := by
  have hdue : dueJobs p t s = [] := by
    rw [dueJobs, hdelayed]
    rfl
  have hstart : startFetch p t o s = (0, s) := by
    rw [startFetch, hlimit, promoteDelayedJobs, hdue]
    rfl
  generalize hleft : ((s.set (.list .wait) p []).modify (.list .active) p (lpush j)).modify
    (.list .active) p (lremLeft j) = s₁
  have hwait₁ : s₁ (.list .wait) p = [] := by
    rw [← hleft, Keyspace.modify_of_ne _ (by decide), Keyspace.modify_of_ne _ (by decide),
      Keyspace.set_self, Function.update_self]
  have hprio₁ : s₁ (.zset .prioritized) p = ∅ := by
    rw [← hleft, Keyspace.modify_of_ne _ (by decide), Keyspace.modify_of_ne _ (by decide),
      Keyspace.set_of_ne _ (by decide), hprio]
  have hfst : rpoplpush p s =
      (some j, (s.set (.list .wait) p []).modify (.list .active) p (lpush j)) :=
    rpoplpush_of_wait (show s (.list .wait) p = [] ++ [j] from hwait)
  have hsnd : rpoplpush p s₁ = (none, s₁) := by
    obtain ⟨-, h⟩ | ⟨i, l, hl, -⟩ := rpoplpush_cases p s₁
    · exact h
    · simp [hwait₁] at hl
  -- The wait list is empty now, and so is the set that is looked at next.
  have hthd : moveJobFromPrioritizedToActive p s₁ = (none, s₁.set .pc p (0 : ℕ)) := by
    obtain ⟨-, h⟩ | ⟨i, hi, -⟩ := moveJobFromPrioritizedToActive_cases p s₁
    · exact h
    · rw [hprio₁] at hi
      exact absurd hi List.not_mem_nil
  have hpop : popForMoveToActive p s = (.nothing, s₁.set .pc p (0 : ℕ)) := by
    simp only [popForMoveToActive, rpoplpushPastMarker, hfst, hj, if_true, hleft, hsnd, hthd]
    rfl
  have hres : (Script.moveToActive p t o s).2 = s₁.set .pc p (0 : ℕ) := by
    simp only [Script.moveToActive, fetchWith, getQueueMetadata, hstart, hmax, takeJob, hpop]
    rfl
  have hactive := popForMoveToActive_active p s
  rw [hpop] at hactive
  rw [hres]
  refine ⟨?_, hactive, fun κ hκ => ?_⟩
  · rw [Keyspace.set_of_ne _ (by decide), hwait₁]
  · simp only [List.mem_cons, List.not_mem_nil, or_false, not_or] at hκ
    rw [Keyspace.set_of_ne _ hκ.2.2, ← hleft, Keyspace.modify_of_ne _ hκ.2.1,
      Keyspace.modify_of_ne _ hκ.2.1, Keyspace.set_of_ne _ hκ.1]

/-- A job that is added to an empty queue with an id of its own. -/
theorem addStandardJob_empty (p : String) {a : AddArgs} (hid : a.customId ≠ "")
    (hde : a.opts.de = none) (hparent : a.parent = none) :
    (Script.addStandardJob p a .empty).2.jobExists (p ++ a.customId) = true ∧
      (Script.addStandardJob p a .empty).2 (.list .wait) p = [a.customId] ∧
      ∀ κ, κ ∉ [Kind.hash, .events, .list .wait, .marker, .id, .metaMaxLenEvents] →
        (Script.addStandardJob p a .empty).2 κ = Store.empty κ := by
  have hnew : (Script.addStandardJob p a .empty).2 =
      storeNewJob (standardMode p) p a.customId a (drawId p .empty) := by
    obtain ⟨⟨P, hP, -⟩, -⟩ | ⟨-, hex, -⟩ | ⟨i, hi, -, heq⟩ :=
      addJobWith_ends (standardMode p) p a .empty
    · rw [hparent] at hP
      cases hP
    · cases hex
    · obtain ⟨hempty, -⟩ | ⟨rfl, -⟩ := hi
      · exact absurd hempty hid
      · rw [Script.addStandardJob, heq, addNewJob_of_none hde]
  rw [hnew, storeNewJob, hparent]
  simp only [addParentDependency, standardMode, enqueueStandard, addJobInTargetList]
  refine ⟨?_, ?_, fun κ hκ => ?_⟩
  · rw [Store.jobExists, Store.xadd_of_ne _ _ _ (by decide),
      addBaseMarkerIfNeeded_frame _ _ _ (by decide), Keyspace.modify_of_ne _ (by decide), storeJob,
      Store.xadd_of_ne _ _ _ (by decide), Store.hset_hash, if_pos rfl]
    rfl
  · rw [Store.xadd_of_ne _ _ _ (by decide), addBaseMarkerIfNeeded_frame _ _ _ (by decide),
      Keyspace.modify_self, Function.update_self, storeJob_frame _ _ _ _ _ _ _ _ _ (by decide),
      drawId_frame _ _ (by decide)]
    split <;> rfl
  · simp only [List.mem_cons, List.not_mem_nil, or_false, not_or] at hκ
    obtain ⟨hhash, hevents, hwait, hmarker, hcount, hmaxlen⟩ := hκ
    rw [Store.xadd_of_ne _ _ _ hevents, addBaseMarkerIfNeeded_frame _ _ _ (by simpa using hmarker),
      Keyspace.modify_of_ne _ hwait,
      storeJob_frame _ _ _ _ _ _ _ _ _ (by simp [hhash, hevents]),
      drawId_frame _ _ (by simp [hcount, hmaxlen])]

/-- Added and fetched, a job with the id of a legacy marker is nowhere. -/
theorem not_housed_of_legacy (hp : Q.Base p) (hadmitted : admitsJobId j = true)
    (hown : isOwnKeyName j = false) (hj : isLegacyMarker j = true) :
    ∃ steps s, Run (TrafficStep Q) .empty steps s ∧ ¬ Housed p j s := by
  have hne : j ≠ "" := by
    rintro rfl
    cases hj
  let a : AddArgs := { customId := j, name := "n", data := "d", timestamp := 0 }
  let o : FetchOpts := { token := "t", lockDuration := 1 }
  obtain ⟨hex, hwait, hframe⟩ := addStandardJob_empty p (a := a) hne rfl rfl
  generalize hs₁ : (Script.addStandardJob p a .empty).2 = s₁ at hex hwait hframe
  obtain ⟨hwait₂, hactive₂, hframe₂⟩ := moveToActive_drops (t := 0) (o := o) hj
    (by simp only [isQueuePausedOrMaxed, hframe .metaPaused (by decide),
      hframe .metaConcurrency (by decide)]; rfl)
    (by simp only [maxJobsOf, hframe .metaMax (by decide)]; rfl)
    (by rw [hframe _ (by decide)]; rfl) (by rw [hframe _ (by decide)]; rfl) hwait
  have hadd : TrafficStep Q .empty (.command (.addStandardJob p a)) s₁ :=
    ⟨⟨hp, fun _ => ⟨hadmitted, hown⟩⟩, by
      simp only [Traffic.exec, Command.exec, Option.map_some, hs₁]⟩
  have hfetch : TrafficStep Q s₁ (.command (.moveToActive p 0 o))
      (Script.moveToActive p 0 o s₁).2 :=
    ⟨hp, rfl⟩
  -- The hash is there, and each list and set is either empty as at first or empty by the fetch.
  refine ⟨_, _, (Run.single hadd).snoc hfetch, fun hhoused => ?_⟩
  have hthere : (Script.moveToActive p 0 o s₁).2.jobExists (p ++ j) = true := by
    rwa [Store.jobExists, hframe₂ _ (by decide), ← Store.jobExists]
  obtain ⟨l, hl⟩ | ⟨z, hz⟩ := hhoused hthere
  · cases l with
    | wait =>
      rw [hwait₂] at hl
      exact absurd hl List.not_mem_nil
    | paused =>
      rw [hframe₂ _ (by decide), hframe _ (by decide)] at hl
      exact absurd hl List.not_mem_nil
    | active =>
      rw [hactive₂, hframe _ (by decide)] at hl
      exact absurd hl List.not_mem_nil
  · rw [hframe₂ _ (by simp), hframe _ (by simp)] at hz
    exact absurd hz List.not_mem_nil

end Handled

/-- **An admitted id is handled as that of a job**, among others that are no names of keys, exactly
when it does not start with `0:`, as the legacy markers do, and is not spelled like a key of the
queue. -/
theorem handledAsJob_iff {Q : QueueSet} {p j : String} (hp : Q.Base p)
    (hadmitted : admitsJobId j = true) :
    HandledAsJob Q p j ↔ isLegacyMarker j = false ∧ isOwnKeyName j = false := by
  constructor
  · intro h
    have hown : isOwnKeyName j = false := Bool.eq_false_iff.mpr fun hown => by
      obtain ⟨κ, hκ, k, hk, hmem⟩ := (own_key_iff p j).mpr hown
      exact h.key κ hκ k hk hmem
    refine ⟨Bool.eq_false_iff.mpr fun hj => ?_, hown⟩
    obtain ⟨steps, s, hrun, hlost⟩ := not_housed_of_legacy hp hadmitted hown hj
    exact hlost (h.housed steps s hrun)
  · rintro ⟨hj, hown⟩
    refine ⟨fun κ hκ k hk hmem => ?_, fetchedAsJob_moveToActive hj, fetchedAsJob_fetchNextJob hj,
      fun steps s _ o s' hstep ho => (Keeps.trafficStep hj hp hstep ho).lists,
      fun steps s hrun => ?_⟩
    · have hclash := (own_key_iff p j).mp ⟨κ, hκ, k, hk, hmem⟩
      rw [hown] at hclash
      cases hclash
    · refine hrun.invariant (I := Housed p j) (fun hex => by cases hex) fun t o u ht hstep => ?_
      exact ht.trafficStep hj hp hstep

theorem bullQueue_base : (QueueSet.ofPrefix "bull").Base "bull:q:" := ⟨"q", by decide, rfl⟩

/-- An ordinary id, and one with two colons. -/
theorem ordinary_ids_handled :
    HandledAsJob (.ofPrefix "bull") "bull:q:" "mail-1" ∧
      HandledAsJob (.ofPrefix "bull") "bull:q:" "1:2:3" :=
  ⟨(handledAsJob_iff bullQueue_base (by decide)).mpr ⟨by decide, by decide⟩,
    (handledAsJob_iff bullQueue_base (by decide)).mpr ⟨by decide, by decide⟩⟩

/-- The queue in which a job `0:1:2` was added and then fetched. -/
def markerQueue : Store :=
  (Script.moveToActive "bull:q:" 0 { token := "t", lockDuration := 1 }
    (Script.addStandardJob "bull:q:"
      { customId := "0:1:2", name := "n", data := "d", timestamp := 0 } .empty).2).2

/-- The job `0:1:2` is admitted, and the first fetch drops it from all lists while its hash remains;
a job `wait` is admitted and its key is that of the wait list. -/
theorem marker_job_dropped :
    (admitsJobId "0:1:2" = true ∧ markerQueue.jobExists "bull:q:0:1:2" = true ∧
      (∀ l, markerQueue (.list l) "bull:q:" = []) ∧
      ∀ z, (markerQueue (.zset z) "bull:q:").members = []) ∧
    (admitsJobId "wait" = true ∧ "bull:q:" ++ "wait" ∈ (Kind.list .wait).keys "bull:q:") ∧
    ¬ ∀ j, admitsJobId j = true → HandledAsJob (.ofPrefix "bull") "bull:q:" j := by
  refine ⟨⟨by decide, by decide +kernel, fun l => ?_, fun z => ?_⟩, ⟨by decide, .head _⟩,
    fun h => ?_⟩
  · cases l <;> decide +kernel
  · cases z <;> decide +kernel
  · exact (h "wait" (by decide)).key (.list .wait) (by decide) "bull:q:" rfl (.head _)

end BullMQ
