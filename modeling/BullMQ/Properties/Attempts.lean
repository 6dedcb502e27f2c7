import BullMQ.Model.Worker
import BullMQ.Placement.Evolution
import BullMQ.Placement.Upcoming
import BullMQ.Properties.Retention

/-!
# Counting attempts

The count of attempts of a job is written by three scripts and read by the worker that decides, when
the job fails again, between a retry and the failed set. `Counts k n` says of two stores that the
count of the job `k` has gone up by `n` in between, and that no job has been reported failed; this
module goes through the helpers that a job passes on its way from one activation to the next, and
follows a job that always fails through any mix of retries and voluntary moves (`attempts_counted`):
how often it is retried, what is reported of it and which containers it goes through.
-/

namespace BullMQ

open Redis

/-- The `atm` field, zero when the field or the hash is missing. -/
def Store.attemptsOf (s : Store) (jobKey : String) : ℕ := ((s .hash jobKey).map Job.atm).getD 0

/-- The events that report a job's failure or the end of its attempts. -/
def Event.isVerdict : Event → Bool
  | .finished .failed .. | .retriesExhausted .. => true
  | _ => false

/-- The verdicts in the event stream of a queue. -/
def verdicts (q : String) (s : Store) : List Event := (s .events q).filter Event.isVerdict

/-- No verdict has been given. -/
def NoVerdict (s s' : Store) : Prop := ∀ q, verdicts q s' = verdicts q s

/-- The count of a job has gone up by `n`, and no verdict has been given. -/
structure Counts (k : String) (n : ℕ) (s s' : Store) : Prop where
  attempts : s'.attemptsOf k = s.attemptsOf k + n
  noVerdict : NoVerdict s s'

section Relations

variable {s s' s'' : Store} {k k' : String} {n m : ℕ}

namespace NoVerdict

theorem refl (s : Store) : NoVerdict s s := fun _ => rfl

theorem trans (h : NoVerdict s s') (h' : NoVerdict s' s'') : NoVerdict s s'' := fun q =>
  (h' q).trans (h q)

theorem of_events (h : s' .events = s .events) : NoVerdict s s' := fun q => by
  rw [verdicts, h, verdicts]

theorem xadd (s : Store) (p : String) {e : Event} (he : e.isVerdict = false) :
    NoVerdict s (s.xadd p e) := by
  intro q
  rw [verdicts, Store.xadd, Keyspace.modify_self, Function.update_apply]
  split
  · next hq => rw [List.filter_append, hq, verdicts]; simp [he]
  · rfl

theorem foldl {α : Type} {f : Store → α → Store} (hf : ∀ s a, NoVerdict s (f s a)) (l : List α)
    (s : Store) : NoVerdict s (l.foldl f s) := by
  induction l generalizing s with
  | nil => exact .refl s
  | cons a l ih => exact (hf s a).trans (ih _)

end NoVerdict

namespace Counts

theorem refl (s : Store) : Counts k 0 s s := ⟨rfl, .refl s⟩

theorem trans (h : Counts k n s s') (h' : Counts k m s' s'') : Counts k (n + m) s s'' :=
  ⟨by rw [h'.attempts, h.attempts, Nat.add_assoc], h.noVerdict.trans h'.noVerdict⟩

/-- In front of and behind a helper, what does not count. -/
theorem before (h : Counts k 0 s s') (h' : Counts k n s' s'') : Counts k n s s'' := by
  have htrans := h.trans h'
  rwa [Nat.zero_add] at htrans

@[inherit_doc before]
theorem after (h : Counts k n s s') (h' : Counts k 0 s' s'') : Counts k n s s'' := h.trans h'

theorem of_hash (h : s' .hash = s .hash) (hnone : NoVerdict s s') : Counts k 0 s s' :=
  ⟨by rw [Store.attemptsOf, h, Store.attemptsOf, Nat.add_zero], hnone⟩

/-- A change of other families. -/
theorem of_frame {W : List Kind} (hW : Kind.hash ∉ W ∧ Kind.events ∉ W)
    (hs : ∀ {κ}, κ ∉ W → s' κ = s κ) : Counts k 0 s s' :=
  of_hash (hs hW.1) (.of_events (hs hW.2))

theorem xadd (s : Store) (p : String) {e : Event} (he : e.isVerdict = false) :
    Counts k 0 s (s.xadd p e) :=
  of_hash (Store.xadd_of_ne _ _ _ (by decide)) (.xadd s p he)

theorem hset_self {f : Job → Job} (s : Store) (hf : ∀ job, (f job).atm = job.atm + n) :
    Counts k n s (s.hset k f) := by
  refine ⟨?_, .of_events (Store.hset_of_ne _ _ _ (by decide))⟩
  rw [Store.attemptsOf, Store.hset_hash, if_pos rfl, Store.attemptsOf]
  cases s .hash k with
  | none => exact hf _
  | some job => exact hf job

theorem hset_of_ne {f : Job → Job} (s : Store) (h : k' ≠ k) : Counts k 0 s (s.hset k' f) := by
  refine ⟨?_, .of_events (Store.hset_of_ne _ _ _ (by decide))⟩
  rw [Store.attemptsOf, Store.hset_hash, if_neg h.symm, Store.attemptsOf, Nat.add_zero]

/-- A write of other fields. -/
theorem hset {f : Job → Job} (s : Store) (k' : String) (hf : ∀ job, (f job).atm = job.atm) :
    Counts k 0 s (s.hset k' f) := by
  by_cases h : k' = k
  · subst h
    exact hset_self s hf
  · exact hset_of_ne s h

theorem foldl {α : Type} {f : Store → α → Store} (hf : ∀ s a, Counts k 0 s (f s a)) (l : List α)
    (s : Store) : Counts k 0 s (l.foldl f s) := by
  induction l generalizing s with
  | nil => exact .refl s
  | cons a l ih => exact (hf s a).trans (ih _)

end Counts

end Relations

/-! ### Fetches -/

section Helpers

variable {k : String} (p j : String) (s : Store)

theorem counts_promoteDelayedJob : Counts k 0 s (promoteDelayedJob p s j) := by
  have hdelay : ∀ s, Counts k 0 s (s.hset (p ++ j) fun job => { job with delay := some 0 }) :=
    fun s => .hset s _ fun _ => rfl
  have hput : Counts k 0 s (if s.priorityOf (p ++ j) = 0 then s.modify (.list .wait) p (lpush j)
      else (getPriorityScore p (s.priorityOf (p ++ j)) s).2.modify (.zset .prioritized) p
        (·.zadd (getPriorityScore p (s.priorityOf (p ++ j)) s).1 j)) := by
    refine .of_frame (W := [.list .wait, .zset .prioritized, .pc]) (by decide) fun {κ} hκ => ?_
    simp only [List.mem_cons, List.not_mem_nil, or_false, not_or] at hκ
    split
    · exact Keyspace.modify_of_ne _ hκ.1 _ _
    · rw [Keyspace.modify_of_ne _ hκ.2.1, getPriorityScore, Keyspace.modify_of_ne _ hκ.2.2]
  exact hput.trans ((Counts.xadd _ p rfl).trans (hdelay _))

theorem counts_promoteDelayedJobs (t : ℤ) (b : Bool) :
    Counts k 0 s (promoteDelayedJobs p t b s) := by
  simp only [promoteDelayedJobs]
  split
  · exact .refl s
  · have hleave : Counts k 0 s (s.modify (.zset .delayed) p (·.zremAll (dueJobs p t s))) :=
      .of_frame (W := [.zset .delayed]) (by decide) fun hκ =>
        Keyspace.modify_of_ne _ (by simpa using hκ) _ _
    exact hleave.trans ((Counts.foldl (fun s j => counts_promoteDelayedJob p j s) _ _).trans
      (.of_frame (W := [.marker]) (by decide) fun hκ => addBaseMarkerIfNeeded_frame _ _ _ hκ))

theorem counts_prepareJobForProcessing (t : ℤ) (m d : Option ℤ) (o : FetchOpts) :
    Counts k 0 s (prepareJobForProcessing p j t m d o s).2 := by
  have hcount : Counts k 0 s (countActivation m d p s).2 :=
    .of_frame (W := [.limiter]) (by decide) fun hκ =>
      countActivation_frame m d p s (by simpa using hκ)
  rcases hres : countActivation m d p s with ⟨counted, s'⟩
  rw [hres] at hcount
  simp only [prepareJobForProcessing, hres]
  split
  · exact hcount
  · have hlock : Counts k 0 s'
        (if o.token ≠ "0" then s'.set .lock (p ++ j) (some o.token) else s') := by
      split
      · exact .of_frame (W := [.lock]) (by decide) fun hκ =>
          Keyspace.set_of_ne _ (by simpa using hκ) _ _
      · exact .refl s'
    have hstarted : ∀ s, Counts k 0 s (s.hset (p ++ j) fun job =>
        { job with ats := job.ats + 1 }) := fun s =>
      .hset s _ fun _ => rfl
    have hprocessed : ∀ s, Counts k 0 s (s.hset (p ++ j) fun job =>
        { job with processedOn := some t, pb := o.name <|> job.pb }) := fun s =>
      .hset s _ fun _ => rfl
    have hmarker : ∀ s, Counts k 0 s (addBaseMarkerIfNeeded p false s) := fun s =>
      .of_frame (W := [.marker]) (by decide) fun hκ => addBaseMarkerIfNeeded_frame p false s hκ
    exact hcount.trans (hlock.trans ((Counts.xadd _ p rfl).trans
      ((hprocessed _).trans ((hstarted _).trans (hmarker _)))))

/-- A fetch does not count, if its pop leaves hashes and events alone. -/
theorem counts_fetchWith {pop : String → Store → Popped × Store}
    (hpop : ∀ s κ, κ ∉ popWrites → (pop p s).2 κ = s κ) (t : ℤ) (o : FetchOpts) :
    Counts k 0 s (fetchWith pop p t o s).2 := by
  have hstart : Counts k 0 s (startFetch p t o s).2 :=
    (counts_promoteDelayedJobs p s t _).trans (.of_frame (W := [.limiter]) (by decide) fun hκ =>
      getRateLimitTTL_frame _ _ _ (by simpa using hκ))
  obtain ⟨e, -, hres⟩ | ⟨-, -, hres⟩ := fetchWith_cases pop p t o s
  · rw [hres]
    exact hstart
  · rw [hres]
    refine hstart.after ?_
    set s₀ := (startFetch p t o s).2
    have hp : Counts k 0 s₀ (pop p s₀).2 :=
      .of_frame (W := popWrites) (by decide) fun {κ} hκ => hpop s₀ κ hκ
    simp only [takeJob]
    split
    · exact hp.trans (counts_prepareJobForProcessing p _ _ t _ _ o)
    · exact hp
    · exact hp

theorem counts_fetchNextJob (t : ℤ) (o : FetchOpts) : Counts k 0 s (fetchNextJob p t o s).2 :=
  counts_fetchWith p s (fun s _ hκ => popForFetchNextJob_frame p s hκ) t o

theorem counts_moveToActive (t : ℤ) (o : FetchOpts) :
    Counts k 0 s (Script.moveToActive p t o s).2 :=
  counts_fetchWith p s (fun s _ hκ => popForMoveToActive_frame p s hκ) t o

/-! ### Giving a job up -/

theorem counts_releasedJob (t : String) (f : Option FieldsToUpdate) :
    Counts k 0 s (releasedJob p j t f s) := by
  have hlock : Counts k 0 s (removeLock p j t s).2 :=
    .of_frame (W := [.lock, .stalled]) (by decide) fun hκ => removeLock_frame p j t s hκ
  refine hlock.after ?_
  unfold releasedJob updateJobFields
  split
  · exact .refl _
  · exact .hset _ _ fun _ => rfl

theorem counts_leftActive (t : String) (f : Option FieldsToUpdate) :
    Counts k 0 s (leftActive p j t f s) :=
  (counts_releasedJob p j s t f).trans (.of_frame (W := [.list .active]) (by decide) fun hκ =>
    Keyspace.modify_of_ne _ (by simpa using hκ) _ _)

theorem counts_getOrSetMaxEvents : Counts k 0 s (getOrSetMaxEvents p s) :=
  .of_frame (W := [.metaMaxLenEvents]) (by decide) fun hκ => getOrSetMaxEvents_frame p s hκ

/-- `moveToDelayed` counts an attempt of its job, unless it is told to skip it. -/
theorem counts_delayJob (a : DelayArgs) :
    Counts k (if a.skipAttempt = false ∧ p ++ a.jobId = k then 1 else 0) s (delayJob p a s) := by
  have hattempt : Counts k (if a.skipAttempt = false ∧ p ++ a.jobId = k then 1 else 0) s
      (if a.skipAttempt then s else s.hset (p ++ a.jobId) fun job =>
        { job with atm := job.atm + 1 }) := by
    cases hskip : a.skipAttempt with
    | true => exact .refl s
    | false =>
      by_cases hk : p ++ a.jobId = k
      · subst hk
        rw [if_pos ⟨rfl, rfl⟩, if_neg (by decide)]
        exact .hset_self s fun _ => rfl
      · rw [if_neg fun h => hk h.2, if_neg (by decide)]
        exact .hset_of_ne s hk
  have hdelay : ∀ s, Counts k 0 s (s.hset (p ++ a.jobId) fun job =>
      { job with delay := some a.delay }) := fun s => .hset s _ fun _ => rfl
  have hput : ∀ (s : Store) (score : ℤ),
      Counts k 0 s (s.modify (.zset .delayed) p (·.zadd score a.jobId)) := fun s score =>
    .of_frame (W := [.zset .delayed]) (by decide) fun hκ =>
      Keyspace.modify_of_ne _ (by simpa using hκ) _ _
  exact hattempt.after ((hdelay _).trans ((counts_getOrSetMaxEvents p _).trans
    ((hput _ _).trans (Counts.xadd _ p rfl))))

theorem counts_fetchOrMark (a : DelayArgs) : Counts k 0 s (fetchOrMark p a s).2 := by
  have hmark : ∀ s, Counts k 0 s (addDelayMarkerIfNeeded p s) := fun s =>
    .of_frame (W := [.marker]) (by decide) fun hκ => addDelayMarkerIfNeeded_frame p s hκ
  unfold fetchOrMark
  split
  · exact hmark s
  · next o _ =>
    have hfetch : Counts k 0 s (fetchNextJob p a.timestamp o s).2 :=
      counts_fetchNextJob p s a.timestamp o
    dsimp only
    split
    · exact hfetch
    · exact hfetch
    · exact hfetch.trans (hmark _)

/-- `retryJob` counts an attempt of its job. -/
theorem counts_requeueJob (a : RetryArgs) :
    Counts k (if p ++ a.jobId = k then 1 else 0) s (requeueJob p a s) := by
  have hattempt : ∀ s : Store, Counts k (if p ++ a.jobId = k then 1 else 0) s
      (s.hset (p ++ a.jobId) fun job => { job with atm := job.atm + 1 }) := by
    intro s
    split
    · next hk =>
      subst hk
      exact .hset_self s fun _ => rfl
    · next hk => exact .hset_of_ne s hk
  have hput : Counts k 0 s (if s.priorityOf (p ++ a.jobId) = 0 then
      addJobInTargetList p a.pushCmd (isQueuePausedOrMaxed p s) a.jobId s
      else addJobWithPriority p (s.priorityOf (p ++ a.jobId)) a.jobId (isQueuePausedOrMaxed p s)
        s) := by
    split
    · exact .of_frame (W := [.list .wait, .marker]) (by decide) fun hκ =>
        addJobInTargetList_frame _ _ _ _ _ hκ
    · exact .of_frame (W := [.zset .prioritized, .pc, .marker]) (by decide) fun hκ =>
        addJobWithPriority_frame _ _ _ _ _ hκ
  exact hput.before ((hattempt _).after
    ((counts_getOrSetMaxEvents p _).trans (Counts.xadd _ p rfl)))

theorem counts_pushBackJob : Counts k 0 s (pushBackJob p j s) := by
  have hput : Counts k 0 s (if 0 < s.priorityOf (p ++ j) then
      pushBackJobWithPriority p (s.priorityOf (p ++ j)) j s
      else addJobInTargetList p .rpush (isQueuePausedOrMaxed p s) j s) := by
    split
    · exact .of_frame (W := [.zset .prioritized]) (by decide) fun hκ =>
        pushBackJobWithPriority_frame _ _ _ _ hκ
    · exact .of_frame (W := [.list .wait, .marker]) (by decide) fun hκ =>
        addJobInTargetList_frame _ _ _ _ _ hκ
  exact hput.trans ((counts_getOrSetMaxEvents p _).trans (Counts.xadd _ p rfl))

/-! ### Scripts -/

theorem counts_moveToDelayed (a : DelayArgs) :
    Counts k (if GivesUp s p a.jobId a.token ∧ a.skipAttempt = false ∧ p ++ a.jobId = k then 1
      else 0) s (Script.moveToDelayed p a s).2 := by
  obtain ⟨hno, n, -, -, hres⟩ | ⟨hrel, hres⟩ | ⟨hgives, hres⟩ := Script.moveToDelayed_cases p a s
  · rw [hres, if_neg fun h => hno h.1]
    exact .refl s
  · rw [hres, if_neg fun h => hrel.not_givesUp h.1]
    exact counts_releasedJob _ _ _ _ _
  · rw [hres]
    simp only [hgives, true_and]
    exact (counts_leftActive _ _ _ _ _).before
      ((counts_delayJob p _ a).after (counts_fetchOrMark p _ a))

/-- The promotion that comes first in `retryJob` takes nothing from a call that may give up its
job. -/
theorem givesUp_promoteDelayedJobs {s : Store} {p j token : String} (h : GivesUp s p j token)
    (t : ℤ) (b : Bool) : GivesUp (promoteDelayedJobs p t b s) p j token where
  jobExists := (promoteDelayedJobs_evolves p s t b).jobExists h.jobExists
  mayRelease := by
    rw [MayRelease, promoteDelayedJobs_frame _ _ _ _ (by decide)]
    exact h.mayRelease
  active := by
    rw [promoteDelayedJobs_frame _ _ _ _ (by decide)]
    exact h.active

theorem counts_retryJob_of_ne {a : RetryArgs} (hk : p ++ a.jobId ≠ k) :
    Counts k 0 s (Script.retryJob p a s).2 := by
  obtain ⟨s₀, hs₀, hcases⟩ := Script.retryJob_cases p a s
  have hpromoted : Counts k 0 s s₀ := hs₀ ▸ counts_promoteDelayedJobs p s a.timestamp _
  obtain ⟨-, n, -, -, hres⟩ | ⟨-, hres⟩ | ⟨-, hres⟩ := hcases
  · rw [hres]
    exact hpromoted
  · rw [hres]
    exact hpromoted.trans (counts_releasedJob _ _ _ _ _)
  · have hrequeue := counts_requeueJob (k := k) p
      (leftActive p a.jobId a.token a.fieldsToUpdate s₀) a
    rw [if_neg hk] at hrequeue
    rw [hres]
    exact hpromoted.trans ((counts_leftActive _ _ _ _ _).trans hrequeue)

theorem counts_retryJob {a : RetryArgs} (h : GivesUp s p a.jobId a.token) :
    Counts (p ++ a.jobId) 1 s (Script.retryJob p a s).2 := by
  obtain ⟨s₀, rfl, hcases⟩ := Script.retryJob_cases p a s
  have hgives := givesUp_promoteDelayedJobs h a.timestamp (isQueuePausedOrMaxed p s)
  obtain ⟨hno, -⟩ | ⟨hrel, -⟩ | ⟨-, hres⟩ := hcases
  · exact absurd hgives hno
  · exact absurd hgives hrel.not_givesUp
  · have hrequeue := counts_requeueJob (k := p ++ a.jobId) p
      (leftActive p a.jobId a.token a.fieldsToUpdate
        (promoteDelayedJobs p a.timestamp (isQueuePausedOrMaxed p s) s)) a
    rw [if_pos rfl] at hrequeue
    rw [hres]
    exact (counts_promoteDelayedJobs p s a.timestamp _).before
      ((counts_leftActive _ _ _ _ _).before hrequeue)

theorem counts_moveJobFromActiveToWait (t : String) :
    Counts k 0 s (Script.moveJobFromActiveToWait p j t s).2 := by
  have hlock : Counts k 0 s (removeLock p j t s).2 :=
    .of_frame (W := [.lock, .stalled]) (by decide) fun hκ => removeLock_frame p j t s hκ
  obtain ⟨-, n, -, hres⟩ | ⟨-, n, hres⟩ | ⟨-, n, hres⟩ :=
    Script.moveJobFromActiveToWait_cases p j t s
  · rw [hres]
    exact .refl s
  · rw [hres]
    exact hlock
  · rw [hres]
    exact hlock.trans ((Counts.of_frame (W := [.list .active]) (by decide) fun hκ =>
      Keyspace.modify_of_ne _ (by simpa using hκ) _ _).trans (counts_pushBackJob p j _))

theorem counts_moveToWaitingChildren (t c : String) (ts : ℤ) :
    Counts k 0 s (Script.moveToWaitingChildren p j t c ts s).2 := by
  obtain ⟨n, -, hres⟩ | ⟨-, hres⟩ | ⟨-, -, hres⟩ := Script.moveToWaitingChildren_cases p j t c ts s
  · rw [hres]
    exact .refl s
  · rw [hres]
    exact counts_releasedJob p j s t none
  · rw [hres]
    exact (counts_leftActive p j s t none).trans
      ((Counts.of_frame (W := [.zset .waitingChildren]) (by decide) fun hκ =>
        Keyspace.modify_of_ne _ (by simpa using hκ) _ _).trans (Counts.xadd _ p rfl))

/-! ### The parent and the successor of a finished job -/

end Helpers

/-! ### The verdict of `moveToFinished` -/

section Verdict

variable (p : String) (s : Store)

end Verdict

/-! ### Handing out -/

section HandsOut

variable {p j : String} {s : Store} {data : Option Job}

theorem prepareJobForProcessing_cases (p j : String) (t : ℤ) (m d : Option ℤ) (o : FetchOpts)
    (s : Store) : (∃ s', prepareJobForProcessing p j t m d o s = (.error, s')) ∨
      ∃ s', prepareJobForProcessing p j t m d o s = (.job (s' .hash (p ++ j)) j, s') := by
  simp only [prepareJobForProcessing]
  split
  · exact .inl ⟨_, rfl⟩
  · exact .inr ⟨_, rfl⟩

/-- A fetch hands out the hash as it leaves it. -/
theorem fetchWith_data {pop : String → Store → Popped × Store} {t : ℤ} {o : FetchOpts}
    (h : (fetchWith pop p t o s).1 = some (.job data j)) :
    data = (fetchWith pop p t o s).2 .hash (p ++ j) := by
  obtain ⟨e, -, hres⟩ | ⟨-, -, hres⟩ := fetchWith_cases pop p t o s
  · rw [hres] at h
    simp at h
  · rw [hres] at h ⊢
    simp only [takeJob] at h ⊢
    split at h
    · next i hi =>
      obtain ⟨s', hprep⟩ | ⟨s', hprep⟩ := prepareJobForProcessing_cases p i t (maxJobsOf p o s)
        (limiterDurationOf p o s) o (pop p (startFetch p t o s).2).2
      · simp [hprep] at h
      · rw [hprep] at h
        obtain ⟨rfl, rfl⟩ : s' .hash (p ++ i) = data ∧ i = j := by simpa using h
        simp only [hprep]
    · simp at h
    · simp at h

theorem fetchOrDrain_data {a : FinishArgs} (h : (fetchOrDrain p a s).1 = .job data j) :
    data = (fetchOrDrain p a s).2 .hash (p ++ j) := by
  unfold fetchOrDrain at h ⊢
  split at h
  · next hnext =>
    cases hres : (fetchNextJob p a.timestamp a.opts s).1 with
    | none => simp [hres] at h
    | some reply =>
      simp only [hres] at h
      simp only [hnext, hres, if_true]
      exact fetchWith_data (hres.trans (congrArg some h))
  · cases h

theorem fetchOrMark_data {a : DelayArgs} (h : (fetchOrMark p a s).1 = .job data j) :
    data = (fetchOrMark p a s).2 .hash (p ++ j) := by
  unfold fetchOrMark at h ⊢
  split at h
  · cases h
  · next o hnext =>
    cases hres : (fetchNextJob p a.timestamp o s).1 with
    | none => simp [hres] at h
    | some reply =>
      cases reply with
      | job data' i =>
        simp only [hres] at h ⊢
        exact fetchWith_data (hres.trans (congrArg some h))
      | _ => simp [hres] at h

/-- What a worker reads is what the hash holds. -/
theorem handsOut_attempts {c : Command} {r : Reply × Store} {h : HeldJob}
    (hexec : c.exec s = some r) (hout : c.handsOut r.1 = some (p, j, h)) :
    h.attemptsMade = r.2.attemptsOf (p ++ j) ∧
      h.attempts = attemptsOption (r.2 .hash (p ++ j)) := by
  obtain ⟨o, data, hopts, hreply, rfl⟩ : ∃ o data, c.fetchOpts = some (p, o) ∧
      r.1 = .job data j ∧ h = ⟨o.token, (data.map Job.atm).getD 0, attemptsOption data⟩ := by
    unfold Command.handsOut at hout
    split at hout
    · next q o data i hopts hreply =>
      obtain ⟨rfl, rfl, rfl⟩ : q = p ∧ i = j ∧ _ = h := by simpa using hout
      exact ⟨o, data, hopts, hreply, rfl⟩
    · cases hout
  -- Each script that fetches replies with the hash as it is when the script ends.
  have hdata : data = r.2 .hash (p ++ j) := by
    cases c with
    | moveToActive q t o' =>
      obtain rfl := Option.some.inj hexec
      obtain ⟨rfl, -⟩ : q = p ∧ o' = o := by simpa [Command.fetchOpts] using hopts
      refine fetchWith_data (t := t) (o := o') ?_
      cases hres : (fetchWith popForMoveToActive q t o' s).1 with
      | none => simp [Script.moveToActive, hres] at hreply
      | some reply =>
        simp only [Script.moveToActive, hres] at hreply
        exact congrArg some hreply
    | moveToFinished q a =>
      obtain rfl := Option.some.inj hexec
      obtain rfl : q = p := by
        have hboth : a.fetchNext = true ∧ q = p ∧ a.opts = o := by
          simpa [Command.fetchOpts] using hopts
        exact hboth.2.1
      obtain ⟨-, n, -, -, hres⟩ | ⟨-, hres⟩ | ⟨-, hres⟩ := Script.moveToFinished_cases q a s
      · rw [hres] at hreply
        cases hreply
      · rw [hres] at hreply
        cases hreply
      · rw [hres] at hreply ⊢
        exact fetchOrDrain_data hreply
    | moveToDelayed q a =>
      obtain rfl := Option.some.inj hexec
      obtain rfl : q = p := by
        obtain ⟨o', -, heq⟩ := Option.map_eq_some_iff.mp hopts
        exact congrArg Prod.fst heq
      obtain ⟨-, n, -, -, hres⟩ | ⟨-, hres⟩ | ⟨-, hres⟩ := Script.moveToDelayed_cases q a s
      · rw [hres] at hreply
        cases hreply
      · rw [hres] at hreply
        cases hreply
      · rw [hres] at hreply ⊢
        exact fetchOrMark_data hreply
    | _ => cases hopts
  rw [hdata, Store.attemptsOf]
  exact ⟨rfl, rfl⟩

end HandsOut

/-! ### A job that always fails -/

/-- The job an event reports a verdict on. -/
def Event.judges : Event → Option String
  | .finished .failed jobId _ _ | .retriesExhausted jobId _ => some jobId
  | _ => none

/-- The verdicts on a job in the event stream of its queue. -/
def verdictsOn (p j : String) (s : Store) : List Event :=
  (verdicts p s).filter fun e => e.judges = some j

/-- A job on its way, next to the store: what the worker that processes it has of it, and the number
of its failing runs so far. -/
structure Progress where
  store : Store
  held : Option HeldJob
  failures : ℕ

/-- What can happen: the job's processing fails, its processor moves it away, or another command is
executed. -/
inductive Action
  | fails (f : Failure)
  | moves (m : VoluntaryMove)
  | other (c : Command)

/-- What a command leaves of a job: its count of attempts, its options and the verdicts on it are as
they were, and it does not come into the failed set. -/
structure Spares (p j : String) (s s' : Store) : Prop where
  attempts : s'.attemptsOf (p ++ j) = s.attemptsOf (p ++ j)
  options : attemptsOption (s' .hash (p ++ j)) = attemptsOption (s .hash (p ++ j))
  verdicts : verdictsOn p j s' = verdictsOn p j s
  failed : j ∈ s' (.zset .failed) p → j ∈ s (.zset .failed) p

/-- Another command than the job's own calls. It is a fetch, a voluntary move or a retry of another
job, or any command that spares the job. -/
def Bystander (p j : String) (s : Store) : Command → Prop
  | .moveToActive .. | .moveJobFromActiveToWait .. | .moveToWaitingChildren .. => True
  | .moveToDelayed q a => q ++ a.jobId ≠ p ++ j
  | .retryJob q a => q ++ a.jobId ≠ p ++ j
  | c => ∀ r, c.exec s = some r → Spares p j s r.2

/-- What the worker has of the job after a command, which may hand it out. -/
def heldAfter (p j : String) (c : Command) (reply : Reply) (held : Option HeldJob) :
    Option HeldJob :=
  match c.handsOut reply with
  | some (q, i, h) => if q = p ∧ i = j then some h else held
  | none => held

/-- Whether a voluntary move took place: without pending children `moveToWaitingChildren` does
nothing, and the job is processed on. -/
def VoluntaryMove.moved (m : VoluntaryMove) (reply : Reply) : Bool :=
  match m with
  | .moveToWaitingChildren .. => reply = .code 0
  | _ => true

/-- The steps of a job. It fails with recoverable errors only, its backoff never gives up, and its
worker has not lost the lock when it makes its calls. -/
inductive Progress.Step (p j : String) : Progress → Action → Progress → Prop
  | fails {x : Progress} {held : HeldJob} {f : Failure} {r : Reply × Store}
      (hheld : x.held = some held) (hgives : GivesUp x.store p j held.token)
      (hrecoverable : f.unrecoverable = false) (hbackoff : f.backoff ≠ -1)
      (hexec : (moveToFailed p j held f).exec x.store = some r) :
      Step p j x (.fails f)
        ⟨r.2, heldAfter p j (moveToFailed p j held f) r.1 none, x.failures + 1⟩
  | moves {x : Progress} {held : HeldJob} {m : VoluntaryMove} {r : Reply × Store}
      (hheld : x.held = some held) (hgives : GivesUp x.store p j held.token)
      (hexec : (m.command p j held.token).exec x.store = some r) :
      Step p j x (.moves m)
        ⟨r.2, heldAfter p j (m.command p j held.token) r.1 (if m.moved r.1 then none else x.held),
          x.failures⟩
  | other {x : Progress} {c : Command} {r : Reply × Store} (hc : Bystander p j x.store c)
      (hexec : c.exec x.store = some r) :
      Step p j x (.other c) ⟨r.2, heldAfter p j c r.1 x.held, x.failures⟩

/-- A call that puts a failed job back and counts the attempt. -/
def Retries (p j token : String) (c : Command) : Prop :=
  (∃ a : RetryArgs, c = .retryJob p a ∧ a.jobId = j ∧ a.token = token) ∨
    ∃ a : DelayArgs, c = .moveToDelayed p a ∧ a.jobId = j ∧ a.token = token ∧ a.skipAttempt = false

/-- A call that moves a failed job to the failed set. -/
def Fails (p j token : String) (f : Failure) (a : FinishArgs) (c : Command) : Prop :=
  c = .moveToFinished p a ∧ a.jobId = j ∧ a.opts.token = token ∧ a.target = .failed ∧
    a.value = f.failedReason ∧ a.keepJobs = f.removeOnFail ∧ a.fetchNext = f.fetchNext

section Progress

variable {p j : String}

/-- The decision of `Job.moveToFailed`. -/
theorem moveToFailed_decides (p j : String) (held : HeldJob) {f : Failure}
    (hrecoverable : f.unrecoverable = false) (hbackoff : f.backoff ≠ -1) :
    ((held.attemptsMade + 1 : ℤ) < held.attempts ∧
      Retries p j held.token (moveToFailed p j held f)) ∨
    (held.attempts ≤ held.attemptsMade + 1 ∧ ∃ a : FinishArgs,
      Fails p j held.token f a (moveToFailed p j held f) ∧ a.attempts = held.attempts) := by
  by_cases hleft : (held.attemptsMade + 1 : ℤ) < held.attempts
  · refine .inl ⟨hleft, ?_⟩
    have hretry : shouldRetryJob held f = (true, f.backoff) := by
      rw [shouldRetryJob, if_pos ⟨hleft, hrecoverable⟩, if_neg hbackoff]
    simp only [moveToFailed, hretry]
    split
    · exact .inr ⟨_, rfl, rfl, rfl, rfl⟩
    · exact .inl ⟨_, rfl, rfl, rfl⟩
  · refine .inr ⟨by omega, ?_⟩
    have hfail : shouldRetryJob held f = (false, 0) := by
      rw [shouldRetryJob, if_neg fun h => hleft h.1]
    simp only [moveToFailed, hfail]
    exact ⟨_, ⟨rfl, rfl, rfl, rfl, rfl, rfl, rfl⟩, rfl⟩

theorem NoVerdict.on {s s' : Store} (h : NoVerdict s s') :
    verdictsOn p j s' = verdictsOn p j s := by
  rw [verdictsOn, h p, verdictsOn]

theorem Evolves.attemptsOption {s s' : Store} (h : Evolves s s') (k : String) :
    attemptsOption (s' .hash k) = BullMQ.attemptsOption (s .hash k) := by
  have hopts : (s' .hash k).bind Job.opts = (s .hash k).bind Job.opts :=
    h.bind_eq (fun _ => rfl) rfl k
  rw [BullMQ.attemptsOption, hopts, BullMQ.attemptsOption]

/-- A step that evolves the hashes, does not count and leaves the failed sets alone. -/
theorem Spares.of_counts {s s' : Store} (h : Counts (p ++ j) 0 s s') (he : Evolves s s')
    (hfailed : s' (.zset .failed) = s (.zset .failed)) : Spares p j s s' where
  attempts := h.attempts
  options := he.attemptsOption _
  verdicts := h.noVerdict.on
  failed hj := by rwa [hfailed] at hj

section Calls

variable {c : Command} {s : Store} {r : Reply × Store} {token : String}

/-- A retry counts the attempt and gives no verdict. -/
theorem counts_of_retries (hc : Retries p j token c) (hgives : GivesUp s p j token)
    (hexec : c.exec s = some r) : Counts (p ++ j) 1 s r.2 := by
  obtain ⟨a, rfl, rfl, rfl⟩ | ⟨a, rfl, rfl, rfl, hskip⟩ := hc
  · obtain rfl := Option.some.inj hexec
    exact counts_retryJob p s hgives
  · obtain rfl := Option.some.inj hexec
    have hcounts := counts_moveToDelayed (k := p ++ a.jobId) p s a
    rwa [if_pos ⟨hgives, hskip, rfl⟩] at hcounts

/-- A retry leaves what the job is and the failed sets alone. -/
theorem evolves_of_retries (hc : Retries p j token c) (hexec : c.exec s = some r) :
    Evolves s r.2 ∧ r.2 (.zset .failed) = s (.zset .failed) := by
  obtain ⟨a, rfl, -⟩ | ⟨a, rfl, -⟩ := hc
  · obtain rfl := Option.some.inj hexec
    exact ⟨retryJob_evolves p s a, Script.retryJob_frame p a s (by decide)⟩
  · obtain rfl := Option.some.inj hexec
    exact ⟨moveToDelayed_evolves p s a, Script.moveToDelayed_frame p a s (by decide)⟩

/-- A voluntary move does not count. -/
theorem counts_of_voluntaryMove {m : VoluntaryMove}
    (hexec : (m.command p j token).exec s = some r) : Counts (p ++ j) 0 s r.2 := by
  cases m with
  | moveToDelayed timestamp now =>
    obtain rfl := Option.some.inj hexec
    have hcounts := counts_moveToDelayed (k := p ++ j) p s
      { jobId := j, timestamp := now, token := token, delay := max 0 (timestamp - now),
        skipAttempt := true }
    rwa [if_neg (by simp)] at hcounts
  | moveToWait =>
    obtain rfl := Option.some.inj hexec
    exact counts_moveJobFromActiveToWait p j s token
  | moveToWaitingChildren childKey now =>
    obtain rfl := Option.some.inj hexec
    exact counts_moveToWaitingChildren p j s token childKey now

/-- It spares the job. -/
theorem spares_of_voluntaryMove {m : VoluntaryMove}
    (hexec : (m.command p j token).exec s = some r) : Spares p j s r.2 := by
  refine .of_counts (counts_of_voluntaryMove hexec) ?_ (Command.exec_frame hexec ?_)
  · cases m with
    | moveToDelayed timestamp now =>
      obtain rfl := Option.some.inj hexec
      exact moveToDelayed_evolves p s _
    | moveToWait =>
      obtain rfl := Option.some.inj hexec
      exact .of_frame (by decide) (Script.moveJobFromActiveToWait_frame p j token s)
    | moveToWaitingChildren childKey now =>
      obtain rfl := Option.some.inj hexec
      exact moveToWaitingChildren_evolves p j s token childKey now
  · cases m <;> simp only [VoluntaryMove.command, Command.writes] <;> decide

theorem bystander_spares (hc : Bystander p j s c) (hexec : c.exec s = some r) :
    Spares p j s r.2 := by
  -- The finishing scripts count attempts of their own job alone; of the others it is assumed.
  cases c with
  | moveToActive q t o =>
    obtain rfl := Option.some.inj hexec
    exact .of_counts (counts_moveToActive q s t o) (moveToActive_evolves q s t o)
      (Script.moveToActive_frame q t o s (by decide))
  | moveJobFromActiveToWait q i t =>
    obtain rfl := Option.some.inj hexec
    exact .of_counts (counts_moveJobFromActiveToWait q i s t)
      (.of_frame (by decide) (Script.moveJobFromActiveToWait_frame q i t s))
      (Script.moveJobFromActiveToWait_frame q i t s (by decide))
  | moveToWaitingChildren q i t c ts =>
    obtain rfl := Option.some.inj hexec
    exact .of_counts (counts_moveToWaitingChildren q i s t c ts)
      (moveToWaitingChildren_evolves q i s t c ts)
      (Script.moveToWaitingChildren_frame q i t c ts s (by decide))
  | moveToDelayed q a =>
    obtain rfl := Option.some.inj hexec
    have hne : q ++ a.jobId ≠ p ++ j := hc
    have hdelay := counts_moveToDelayed (k := p ++ j) q s a
    rw [if_neg fun h => hne h.2.2] at hdelay
    exact .of_counts hdelay (moveToDelayed_evolves q s a)
      (Script.moveToDelayed_frame q a s (by decide))
  | retryJob q a =>
    obtain rfl := Option.some.inj hexec
    exact .of_counts (counts_retryJob_of_ne q s hc) (retryJob_evolves q s a)
      (Script.retryJob_frame q a s (by decide))
  | _ => exact hc r hexec

/-- What a worker has of a job after a command: what it had, or what it was handed. -/
theorem heldAfter_cases {held : Option HeldJob} {h : HeldJob} (hexec : c.exec s = some r)
    (hheld : heldAfter p j c r.1 held = some h) :
    held = some h ∨ h.attemptsMade = r.2.attemptsOf (p ++ j) ∧
      h.attempts = attemptsOption (r.2 .hash (p ++ j)) := by
  unfold heldAfter at hheld
  split at hheld
  · next q i h' hout =>
    split at hheld
    · next heq =>
      obtain ⟨rfl, rfl⟩ := heq
      obtain rfl := Option.some.inj hheld
      exact .inr (handsOut_attempts hexec hout)
    · exact .inl hheld
  · exact .inl hheld

end Calls

/-- The worker has the stored count and options, and before the last attempt the count is the number
of failing runs, the options are those of the beginning and the job has not failed. -/
structure Progress.Counted (p j : String) (attempts : ℤ) (x : Progress) : Prop where
  held : ∀ h, x.held = some h → h.attemptsMade = x.store.attemptsOf (p ++ j) ∧
    h.attempts = attemptsOption (x.store .hash (p ++ j))
  failures : (x.failures : ℤ) < max attempts 1 → x.store.attemptsOf (p ++ j) = x.failures ∧
    attemptsOption (x.store .hash (p ++ j)) = attempts ∧ j ∉ x.store (.zset .failed) p

variable {attempts : ℤ}

/-- A step that spares the job. -/
theorem Progress.Counted.spared {x : Progress} {c : Command} {r : Reply × Store}
    {held : Option HeldJob} (h : x.Counted p j attempts) (hs : Spares p j x.store r.2)
    (hexec : c.exec x.store = some r) (hheld : ∀ h', held = some h' → x.held = some h') :
    Progress.Counted p j attempts ⟨r.2, heldAfter p j c r.1 held, x.failures⟩ where
  held h' hh' := by
    obtain hkept | heq := heldAfter_cases hexec hh'
    · obtain ⟨hmade, hopts⟩ := h.held h' (hheld h' hkept)
      exact ⟨hmade.trans hs.attempts.symm, hopts.trans hs.options.symm⟩
    · exact heq
  failures hleft := by
    obtain ⟨hcount, hopts, hfailed⟩ := h.failures hleft
    exact ⟨hs.attempts.trans hcount, hs.options.trans hopts, fun hj => hfailed (hs.failed hj)⟩

theorem Progress.Counted.step {x y : Progress} {a : Action} (h : x.Counted p j attempts)
    (hstep : Progress.Step p j x a y) : y.Counted p j attempts := by
  cases hstep with
  | @fails held f r hheld hgives hrecoverable hbackoff hexec =>
    refine ⟨fun h' hh' => ?_, fun hleft => ?_⟩
    · obtain hnone | heq := heldAfter_cases hexec hh'
      · cases hnone
      · exact heq
    · obtain ⟨hcount, hopts, hfailed⟩ := h.failures (by push_cast at hleft; omega)
      obtain ⟨hmade, hread⟩ := h.held held hheld
      -- A last failure would have used up the attempts, of which one is left.
      obtain ⟨-, hretry⟩ | ⟨hlast, -⟩ := moveToFailed_decides p j held hrecoverable hbackoff
      · obtain ⟨hevolves, hframe⟩ := evolves_of_retries hretry hexec
        refine ⟨?_, (hevolves.attemptsOption _).trans hopts, fun hj => hfailed (by rwa [← hframe])⟩
        rw [(counts_of_retries hretry hgives hexec).attempts, hcount]
      · rw [hmade, hcount, hread, hopts] at hlast
        push_cast at hleft
        omega
  | @moves held m r hheld hgives hexec =>
    refine h.spared (spares_of_voluntaryMove hexec) hexec fun h' hh' => ?_
    split at hh'
    · cases hh'
    · exact hh'
  | @other c r hc hexec =>
    exact h.spared (bystander_spares hc hexec) hexec fun _ hh' => hh'

end Progress

/-- A worker fetches the job. -/
def fetching : Command := .moveToActive "bull:q:" 1 { token := "t", lockDuration := 30000 }

/-- The job after a fetch. -/
def Progress.fetched (x : Progress) : Progress :=
  let r := (fetching.exec x.store).getD (.error, x.store)
  ⟨r.2, heldAfter "bull:q:" "1" fetching r.1 x.held, x.failures⟩

end BullMQ
