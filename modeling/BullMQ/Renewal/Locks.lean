import BullMQ.Properties.Locks

/-!
# What a command leaves in the locks

A command changes the lock of the job that it finishes, of the job that it hands out and of no
other (`Command.exec_lock_frame`). So the lock of an active job stays as it is, unless a finishing
call with its token is made or it expires (`Owned.keeps_lock`).
-/

namespace BullMQ

open Redis

variable {Q : QueueSet} {s : Store} {p j t k : String}

/-! ### The parts of a command -/

theorem releasedJob_lock (f : Option FieldsToUpdate) (hk : k ≠ p ++ j) :
    releasedJob p j t f s .lock k = s .lock k := by
  rw [releasedJob, updateJobFields_frame _ _ _ (by decide)]
  simp only [removeLock]
  split
  · rfl
  · split
    · rfl
    · split
      · rw [Keyspace.modify_of_ne _ (by decide), Keyspace.set_self, Function.update_of_ne hk]
      · rfl

theorem leftActive_lock (f : Option FieldsToUpdate) (hk : k ≠ p ++ j) :
    leftActive p j t f s .lock k = s .lock k := by
  rw [leftActive, Keyspace.modify_of_ne _ (by decide), releasedJob_lock f hk]

/-- A job is prepared by setting its lock, if at all. -/
theorem prepareJobForProcessing_lock_of_ne {o : FetchOpts} {ts : ℤ} {m d : Option ℤ}
    (hk : k ≠ p ++ j) : (prepareJobForProcessing p j ts m d o s).2 .lock k = s .lock k := by
  have hcount : (countActivation m d p s).2 .lock = s .lock :=
    countActivation_frame m d p s (by decide)
  rcases hres : countActivation m d p s with ⟨counted, s₁⟩
  rw [hres] at hcount
  simp only [prepareJobForProcessing, hres]
  split
  · exact congrFun hcount k
  · rw [addBaseMarkerIfNeeded_frame _ _ _ (by decide), Store.hset_of_ne _ _ _ (by decide),
      Store.hset_of_ne _ _ _ (by decide), Store.xadd_of_ne _ _ _ (by decide)]
    split
    · rw [Keyspace.set_self, Function.update_of_ne hk]
      exact congrFun hcount k
    · exact congrFun hcount k

/-- A job that is handed out has its lock. -/
theorem prepareJobForProcessing_job {o : FetchOpts} {ts : ℤ} {m d : Option ℤ} {i : String}
    {data : Option Job} (ho : o.token ≠ "0")
    (h : (prepareJobForProcessing p j ts m d o s).1 = .job data i) :
    i = j ∧ (prepareJobForProcessing p j ts m d o s).2 .lock (p ++ j) = some o.token := by
  rcases hres : countActivation m d p s with ⟨counted, s₁⟩
  simp only [prepareJobForProcessing, hres] at h ⊢
  split at h
  next => cases h
  next hok =>
    injection h with hdata hi
    rw [if_neg hok]
    refine ⟨hi.symm, ?_⟩
    rw [addBaseMarkerIfNeeded_frame _ _ _ (by decide), Store.hset_of_ne _ _ _ (by decide),
      Store.hset_of_ne _ _ _ (by decide), Store.xadd_of_ne _ _ _ (by decide), if_pos ho,
      Keyspace.set_self, Function.update_self]

theorem fetchWith_lock {pop : String → Store → Popped × Store}
    (hframe : ∀ s κ, κ ∉ popWrites → (pop p s).2 κ = s κ) (ts : ℤ) (o : FetchOpts)
    (hk : ∀ i, fetchPops pop p ts o s = some i → k ≠ p ++ i) :
    (fetchWith pop p ts o s).2 .lock k = s .lock k := by
  have hstart : (startFetch p ts o s).2 .lock = s .lock := startFetch_frame p ts o s (by decide)
  have hpop : (pop p (startFetch p ts o s).2).2 .lock = s .lock := by
    rw [hframe _ _ (by decide), hstart]
  obtain ⟨e, -, hres⟩ | ⟨hexp, hmax, hres⟩ := fetchWith_cases pop p ts o s
  · rw [hres]
    exact congrFun hstart k
  · rw [hres]
    simp only [takeJob]
    split
    next i hi =>
      have hpops : fetchPops pop p ts o s = some i := by
        simp [fetchPops, hexp, hmax, hi, Popped.toOption]
      rw [prepareJobForProcessing_lock_of_ne (hk i hpops)]
      exact congrFun hpop k
    next => exact congrFun hpop k
    next => exact congrFun hpop k

/-- A fetch that replies with a job has popped it and set its lock. -/
theorem fetchWith_job {pop : String → Store → Popped × Store} {ts : ℤ} {o : FetchOpts}
    {data : Option Job} (ho : o.token ≠ "0")
    (h : (fetchWith pop p ts o s).1 = some (.job data j)) :
    fetchPops pop p ts o s = some j ∧
      (fetchWith pop p ts o s).2 .lock (p ++ j) = some o.token := by
  obtain ⟨e, -, hres⟩ | ⟨hexp, hmax, hres⟩ := fetchWith_cases pop p ts o s
  · rw [hres] at h
    cases h
  · rw [hres] at h ⊢
    simp only [takeJob] at h ⊢
    split at h
    next i hi =>
      obtain ⟨rfl, hlock⟩ := prepareJobForProcessing_job ho (Option.some.inj h)
      refine ⟨by simp [fetchPops, hexp, hmax, hi, Popped.toOption], hlock⟩
    next => cases h
    next =>
      obtain ⟨n, -, hn⟩ := Option.map_eq_some_iff.mp h
      cases hn

theorem fetchNextJob_lock (ts : ℤ) (o : FetchOpts)
    (hk : ∀ i, fetchPops popForFetchNextJob p ts o s = some i → k ≠ p ++ i) :
    (fetchNextJob p ts o s).2 .lock k = s .lock k :=
  fetchWith_lock (fun s _ => popForFetchNextJob_frame p s) ts o hk

theorem fetchOrDrain_lock (a : FinishArgs)
    (hk : ∀ i, a.fetchNext = true → fetchPops popForFetchNextJob p a.timestamp a.opts s = some i →
      k ≠ p ++ i) : (fetchOrDrain p a s).2 .lock k = s .lock k := by
  simp only [fetchOrDrain]
  split
  next hnext =>
    have hfetch := fetchNextJob_lock a.timestamp a.opts (hk · hnext)
    split
    · exact hfetch
    · rw [emitDrained_frame p _ (by decide)]
      exact hfetch
  next => rw [emitDrained_frame p _ (by decide)]

theorem fetchOrMark_lock (a : DelayArgs)
    (hk : ∀ i o, a.fetchNext = some o → fetchPops popForFetchNextJob p a.timestamp o s = some i →
      k ≠ p ++ i) : (fetchOrMark p a s).2 .lock k = s .lock k := by
  simp only [fetchOrMark]
  split
  next => rw [addDelayMarkerIfNeeded_frame p _ (by decide)]
  next o hnext =>
    have hfetch := fetchNextJob_lock a.timestamp o (hk · o hnext)
    split
    · exact hfetch
    · exact hfetch
    · rw [addDelayMarkerIfNeeded_frame p _ (by decide)]
      exact hfetch

/-! ### Whole commands -/

/-- A command is about the lock of a key: it finishes or hands out its job, or expires it. -/
def Command.locks (c : Command) (s : Store) (k : String) : Prop :=
  (∃ p j t, c.finishing = some (p, j, t) ∧ k = p ++ j) ∨
    (∃ p j, c.activates s p = some j ∧ k = p ++ j) ∨ c = .expireLock k

/-- **The frame of the locks.** Other locks are as they were. -/
theorem Command.exec_lock_frame {c : Command} {r : Reply × Store} (hc : OwnerCommand Q s c)
    (hexec : c.exec s = some r) (hk : ¬ c.locks s k) : r.2 .lock k = s .lock k := by
  have hfin : ∀ p j t, c.finishing = some (p, j, t) → k ≠ p ++ j :=
    fun p j t hf hkp => hk (.inl ⟨p, j, t, hf, hkp⟩)
  have hact : ∀ p j, c.activates s p = some j → k ≠ p ++ j :=
    fun p j ha hkp => hk (.inr (.inl ⟨p, j, ha, hkp⟩))
  -- A lock changes by a finishing call for its job, by a fetch of it, or as it expires.
  cases c with
  | removeJob n p j b => exact hc.named.elim
  | expireLock k' =>
    cases hexec
    have hne : k ≠ k' := fun h => hk (.inr (.inr (by rw [h])))
    simp [Keyspace.set_self, Function.update_of_ne hne]
  | moveToActive p ts o =>
    cases hexec
    exact fetchWith_lock (fun s _ => popForMoveToActive_frame p s) ts o fun i hi =>
      hact p i (by simp [Command.activates, hi])
  | moveToFinished p a =>
    cases hexec
    have hne := hfin p a.jobId a.opts.token rfl
    obtain ⟨-, n, -, -, hres⟩ | ⟨-, hres⟩ | ⟨hf, hres⟩ := Script.moveToFinished_cases p a s
    · rw [hres]
    · rw [hres]
      exact releasedJob_lock _ hne
    · rw [hres, fetchOrDrain_lock, finishJob_frame p a _ (by decide), leftActive_lock _ hne]
      exact fun i hnext hi => hact p i (by simp [Command.activates, hnext, hf, hi])
  | moveToDelayed p a =>
    cases hexec
    have hne := hfin p a.jobId a.token rfl
    obtain ⟨-, n, -, -, hres⟩ | ⟨-, hres⟩ | ⟨hg, hres⟩ := Script.moveToDelayed_cases p a s
    · rw [hres]
    · rw [hres]
      exact releasedJob_lock _ hne
    · rw [hres, fetchOrMark_lock, delayJob_frame p a _ (by decide), leftActive_lock _ hne]
      exact fun i o hnext hi => hact p i (by simp [Command.activates, hnext, hg, hi])
  | moveToWaitingChildren p j t k' ts =>
    cases hexec
    have hne := hfin p j t rfl
    obtain ⟨n, -, hres⟩ | ⟨-, hres⟩ | ⟨-, -, hres⟩ :=
      Script.moveToWaitingChildren_cases p j t k' ts s
    · rw [hres]
    · rw [hres]
      exact releasedJob_lock _ hne
    · rw [hres, Script.movedToWaitingChildren, Store.xadd_of_ne _ _ _ (by decide),
        Keyspace.modify_of_ne _ (by decide), leftActive_lock _ hne]
  | retryJob p a =>
    cases hexec
    have hne := hfin p a.jobId a.token rfl
    obtain ⟨s₀, hs₀, hcases⟩ := Script.retryJob_cases p a s
    have hsame : s₀ .lock = s .lock := hs₀ ▸ promoteDelayedJobs_frame p a.timestamp _ s (by decide)
    rw [← hsame]
    obtain ⟨-, n, -, -, hres⟩ | ⟨-, hres⟩ | ⟨-, hres⟩ := hcases
    · rw [hres]
    · rw [hres]
      exact releasedJob_lock _ hne
    · rw [hres, requeueJob_frame p a _ (by decide), leftActive_lock _ hne]
  | moveJobFromActiveToWait p j t =>
    cases hexec
    have hne := hfin p j t rfl
    have hreleased : releasedJob p j t none s .lock k = s .lock k := releasedJob_lock none hne
    rw [releasedJob, updateJobFields_frame _ _ _ (by decide)] at hreleased
    obtain ⟨-, n, -, hres⟩ | ⟨-, n, hres⟩ | ⟨-, n, hres⟩ :=
      Script.moveJobFromActiveToWait_cases p j t s
    · rw [hres]
    · rw [hres]
      exact hreleased
    · rw [hres, pushBackJob_frame p j _ (by decide), Keyspace.modify_of_ne _ (by decide)]
      exact hreleased
  | extendLock p t d j =>
    cases hexec
    simp only [Script.extendLock]
    split
    next hlock =>
      split
      · rw [Keyspace.modify_of_ne _ (by decide), Keyspace.set_eq_self s hlock]
      · rfl
    next => rfl
  | extendLocks p l d =>
    cases hexec
    by_cases hd : 0 < d
    · exact congrFun (foldl_extendLocksStep_owner (p := p) hd l [] s).1 k
    · exact congrArg (fun s : Store => s .lock k)
        (foldl_extendLocksStep_of_nonpos (p := p) hd l (some [], s))
  | _ =>
    rw [Command.exec_frame hexec]
    simp only [Command.writes]
    decide

/-- A command whose reply is a job has handed it out and set its lock. -/
theorem Command.exec_job {c : Command} {r : Reply × Store} {o : FetchOpts} {data : Option Job}
    (hexec : c.exec s = some r) (hopts : c.fetchOpts = some (p, o)) (ho : o.token ≠ "0")
    (hr : r.1 = .job data j) :
    c.activates s p = some j ∧ r.2 .lock (p ++ j) = some o.token := by
  cases c with
  | moveToActive q ts o' =>
    cases hopts
    cases hexec
    cases hres : (fetchWith popForMoveToActive p ts o s).1 with
    | none => simp [Script.moveToActive, hres] at hr
    | some reply =>
      obtain rfl : reply = .job data j := by simpa [Script.moveToActive, hres] using hr
      obtain ⟨hpops, hlock⟩ := fetchWith_job ho hres
      exact ⟨by simp [Command.activates, hpops], hlock⟩
  | moveToFinished q a =>
    cases hexec
    have hnext : a.fetchNext = true := by
      by_contra hnext
      simp [Command.fetchOpts, hnext] at hopts
    obtain ⟨rfl, rfl⟩ : q = p ∧ a.opts = o := by simpa [Command.fetchOpts, hnext] using hopts
    obtain ⟨-, n, -, -, hres⟩ | ⟨-, hres⟩ | ⟨hf, hres⟩ := Script.moveToFinished_cases q a s
    · simp [hres] at hr
    · simp [hres] at hr
    · rw [hres] at hr ⊢
      simp only [fetchOrDrain, hnext, if_true] at hr ⊢
      split at hr
      next reply hreply =>
        obtain rfl : reply = .job data j := hr
        obtain ⟨hpops, hlock⟩ := fetchWith_job ho hreply
        exact ⟨by simp [Command.activates, hnext, hf, hpops], hlock⟩
      next => cases hr
  | moveToDelayed q a =>
    cases hexec
    obtain ⟨o', hnext, heq⟩ := Option.map_eq_some_iff.mp hopts
    obtain ⟨rfl, rfl⟩ := Prod.mk.inj heq
    obtain ⟨-, n, -, -, hres⟩ | ⟨-, hres⟩ | ⟨hg, hres⟩ := Script.moveToDelayed_cases q a s
    · simp [hres] at hr
    · simp [hres] at hr
    · rw [hres] at hr ⊢
      simp only [fetchOrMark, hnext] at hr ⊢
      split at hr
      next data' i hreply =>
        obtain ⟨rfl, rfl⟩ := Reply.job.inj hr
        obtain ⟨hpops, hlock⟩ := fetchWith_job ho hreply
        exact ⟨by simp [Command.activates, hnext, hg, hpops], hlock⟩
      next => cases hr
      next => cases hr
  | _ => cases hopts

/-- The id that a command activates was not active. -/
theorem Owned.activates_ne {c : Command} {r : Reply × Store} {i : String} (h : Owned Q s)
    (hc : OwnerCommand Q s c) (hexec : c.exec s = some r) (hact : c.activates s p = some i)
    (hj : j ∈ s (.list .active) p) (hfin : ∀ t, c.finishing ≠ some (p, j, t)) : i ≠ j := by
  rintro rfl
  -- An active job is in the list once, and a fetch pushes what it hands out.
  have hone (l : List String) (hl : r.2 (.list .active) p = i :: l) : i ∉ l := by
    have hle := (countIn_le_occ r.2 (.inl .active) p i).trans ((h.exec hc hexec).le_one p i)
    simp only [countIn, hl, List.count_cons_self] at hle
    exact fun hmem => by have := List.count_pos_iff.mpr hmem; omega
  cases c with
  | moveToActive q ts o =>
    cases hexec
    obtain ⟨rfl, hpops⟩ : q = p ∧ fetchPops popForMoveToActive q ts o s = some i := by
      simpa [Command.activates] using hact
    refine hone _ ?_ hj
    simp [moveToActive_active, hpops]
  | moveToFinished q a =>
    cases hexec
    rw [Command.activates] at hact
    split at hact
    next hfetch =>
      obtain ⟨rfl, hnext, hf⟩ := hfetch
      have hne : i ≠ a.jobId := fun heq => hfin a.opts.token (by rw [heq]; rfl)
      obtain ⟨hno, -⟩ | ⟨hrel, -⟩ | ⟨-, hres⟩ := Script.moveToFinished_cases q a s
      · exact hno hf
      · exact hrel.not_finishesJob hf
      · refine hone _ (by rw [hres, fetchOrDrain_active, hnext, if_pos rfl, hact]; simp; rfl) ?_
        rw [finishJob_frame q a _ (by decide), leftActive_active, Function.update_self]
        exact mem_lremRight_of_ne hne hj
    next => cases hact
  | moveToDelayed q a =>
    cases hexec
    rw [Command.activates] at hact
    split at hact
    next hfetch =>
      obtain ⟨rfl, hg⟩ := hfetch
      have hne : i ≠ a.jobId := fun heq => hfin a.token (by rw [heq]; rfl)
      obtain ⟨hno, -⟩ | ⟨hrel, -⟩ | ⟨-, hres⟩ := Script.moveToDelayed_cases q a s
      · exact hno hg
      · exact hrel.not_givesUp hg
      · refine hone _ (by rw [hres, fetchOrMark_active, hact]; simp; rfl) ?_
        rw [delayJob_frame q a _ (by decide), leftActive_active, Function.update_self]
        exact mem_lremRight_of_ne hne hj
    next => cases hact
  | _ => simp [Command.activates] at hact

/-- A finishing call that activates a job has the lock of its own. -/
theorem Command.lock_of_activates {c : Command} {q i : String} (hc : OwnerCommand Q s c)
    (hf : c.finishing = some (p, j, t)) (hact : c.activates s q = some i) :
    s .lock (p ++ j) = some t := by
  have ht := hc.realTokens.1 p j t hf
  cases c with
  | moveToFinished p' a =>
    cases hf
    rw [Command.activates] at hact
    split at hact
    next hfetch => exact hfetch.2.2.1.mayRelease.lock ht
    next => cases hact
  | moveToDelayed p' a =>
    cases hf
    rw [Command.activates] at hact
    split at hact
    next hfetch => exact hfetch.2.mayRelease.lock ht
    next => cases hact
  | moveToWaitingChildren p' j' t' k ts => cases hact
  | retryJob p' a => cases hact
  | moveJobFromActiveToWait p' j' t' => cases hact
  | _ => cases hf

theorem Owned.activates_valid {c : Command} {r : Reply × Store} (h : Owned Q s)
    (hc : OwnerCommand Q s c) (hexec : c.exec s = some r) (ha : c.activates s p = some j) :
    Q.keySpace.Valid p j := by
  have hmem : j ∈ r.2 (.list .active) p := by
    obtain ⟨s₁, -, hpush, -⟩ := Command.exec_active hexec p
    simp [hpush, ha]
  have hcount : 0 < countIn r.2 (.inl .active) p j := List.count_pos_iff.mpr hmem
  exact (h.exec hc hexec).valid (Nat.ne_of_gt (hcount.trans_le (countIn_le_occ _ _ p j)))

/-- A job whose lock is held is not handed out. -/
theorem Owned.activates_key_ne {c : Command} {r : Reply × Store} (h : Owned Q s)
    (hc : OwnerCommand Q s c) (hexec : c.exec s = some r) (hlock : s .lock k = some t)
    (hfin : ∀ p j, c.finishing = some (p, j, t) → p ++ j ≠ k) (ha : c.activates s p = some j) :
    k ≠ p ++ j := by
  intro hk
  obtain ⟨q, i, hv, rfl, hactive⟩ := h.locked (k := k) (by simp [hlock])
  have hv' := h.activates_valid hc hexec ha
  obtain ⟨rfl, rfl⟩ := Q.keySpace.inj hv' hv hk.symm
  refine h.activates_ne hc hexec ha hactive (fun t' hf => ?_) rfl
  have hlock' := Command.lock_of_activates hc hf ha
  rw [hlock] at hlock'
  exact hfin p j (by rw [hf, Option.some.inj hlock']) rfl

/-- **The lock of an active job stays** as it is, unless a finishing call with its token is made or
it expires. -/
theorem Owned.keeps_lock {c : Command} {r : Reply × Store} (h : Owned Q s) (hc : OwnerCommand Q s c)
    (hexec : c.exec s = some r) (hlock : s .lock k = some t)
    (hfin : ∀ p j, c.finishing = some (p, j, t) → p ++ j ≠ k) (hexp : c ≠ .expireLock k) :
    r.2 .lock k = some t := by
  by_cases hother : ∃ p j t', c.finishing = some (p, j, t') ∧ p ++ j = k
  · -- A finishing call with another token is refused.
    obtain ⟨p, j, t', hf, rfl⟩ := hother
    have hne : s .lock (p ++ j) ≠ some t' := by
      rw [hlock]
      rintro heq
      exact hfin p j (by rw [hf, Option.some.inj heq]) rfl
    rcases Command.exec_of_lock_ne hf (hc.realTokens.1 _ _ _ hf) hne hexec with hres | ⟨a, -, hres⟩
    · rwa [hres]
    · rwa [hres, promoteDelayedJobs_frame _ _ _ _ (by decide)]
  · rw [Command.exec_lock_frame hc hexec, hlock]
    rintro (⟨p, j, t', hf, hk⟩ | ⟨p, j, ha, hk⟩ | hexp')
    · exact hother ⟨p, j, t', hf, hk.symm⟩
    · exact h.activates_key_ne hc hexec hlock hfin ha hk
    · exact hexp hexp'

end BullMQ
