import BullMQ.Model.Activation

/-!
# The rate limiter

The limiter of a queue is one counter with a time to live. The first activation creates it and
starts its window; while it exists, a fetch that finds the maximum reached waits for it to expire.
Every activation of a window therefore raises the counter from below the maximum, which bounds
their number (`InWindow`).

A window ends when the key expires, and also in a fetch that finds the counter full and the time
to live in its last millisecond: such a fetch deletes the key itself. A manual rate limit replaces
the key by a full one.
-/

namespace BullMQ

open Redis Transition

/-! ### The limiter key in a fetch -/

/-- The counter has reached the maximum and its time to live reads as zero. -/
def LastMillisecond (p : String) (m : ℤ) (s : Store) : Prop :=
  ∃ n : ℕ, s .limiter p = some ⟨n, some 0⟩ ∧ m ≤ n

/-- A limiter key after one more activation. -/
def Limiter.charge (duration : ℕ) : Option Limiter → Option Limiter
  | some ⟨n + 1, pttl⟩ => some ⟨n + 2, pttl⟩
  | _ => some ⟨1, some duration⟩

theorem countActivation_limiter {m d : ℤ} (hd : 1 ≤ d) (p : String) (s : Store) :
    (countActivation (some m) (some d) p s).2 .limiter =
      Function.update (s .limiter) p (Limiter.charge d.natAbs (s .limiter p)) := by
  have hd' : d.natAbs ≠ 0 := by omega
  rcases hl : s .limiter p with _ | ⟨_ | n, pttl⟩
  · simp [countActivation, limiterCount, hl, hd', Limiter.charge]
  · simp [countActivation, limiterCount, hl, hd', Limiter.charge]
  · simp [countActivation, limiterCount, hl, Limiter.charge]

/-- The look at the rate limit stops the fetch, deletes the key or does nothing. -/
theorem getRateLimitTTL_cases (m : ℤ) (p : String) (s : Store) :
    (∃ n k : ℕ, s .limiter p = some ⟨n, some (k + 1)⟩ ∧ m ≤ n ∧
      getRateLimitTTL (some m) p s = (k + 1, s)) ∨
    (LastMillisecond p m s ∧ getRateLimitTTL (some m) p s = (0, s.set .limiter p none)) ∨
    ((∀ n ttl, s .limiter p = some ⟨n, some ttl⟩ → (n : ℤ) < m) ∧
      getRateLimitTTL (some m) p s = (0, s)) := by
  rcases hl : s .limiter p with _ | ⟨n, _ | _ | k⟩
  · refine .inr (.inr ⟨by simp, ?_⟩)
    simp [getRateLimitTTL, limiterCount, hl]
  · refine .inr (.inr ⟨by simp, ?_⟩)
    simp [getRateLimitTTL, limiterCount, hl]
  · by_cases hm : m ≤ n
    · exact .inr (.inl ⟨⟨n, hl, hm⟩, by simp [getRateLimitTTL, limiterCount, hl, hm]⟩)
    · refine .inr (.inr ⟨?_, by simp [getRateLimitTTL, limiterCount, hl, hm]⟩)
      simp only [Option.some.injEq, Limiter.mk.injEq]
      omega
  · by_cases hm : m ≤ n
    · exact .inl ⟨n, k, rfl, hm, by simp [getRateLimitTTL, limiterCount, hl, hm]⟩
    · refine .inr (.inr ⟨?_, by simp [getRateLimitTTL, limiterCount, hl, hm]⟩)
      simp only [Option.some.injEq, Limiter.mk.injEq]
      omega

/-- The effect of a fetch under the limit `m`, `d` on the limiter keys. -/
inductive LimiterEffect (p : String) (m : ℤ) (d : ℕ) (s s' : Store) (popped : Option String) : Prop
  /-- Nothing is popped and the keys are as they were. -/
  | idle (hpop : popped = none) (hlim : s' .limiter = s .limiter)
  /-- The key is deleted in its last millisecond and nothing is popped. -/
  | deleted (hlast : LastMillisecond p m s) (hpop : popped = none)
      (hlim : s' .limiter = Function.update (s .limiter) p none)
  /-- The key is deleted in its last millisecond and the activation starts a new window. -/
  | renewed (hlast : LastMillisecond p m s) (hpop : popped ≠ none)
      (hlim : s' .limiter = Function.update (s .limiter) p (some ⟨1, some d⟩))
  /-- The activation is counted, below the maximum if the key is there with a time to live. -/
  | charged (hbelow : ∀ n ttl, s .limiter p = some ⟨n, some ttl⟩ → (n : ℤ) < m)
      (hpop : popped ≠ none)
      (hlim : s' .limiter = Function.update (s .limiter) p (Limiter.charge d (s .limiter p)))

section Fetch

variable {pop : String → Store → Popped × Store} {p : String} {m d : ℤ}

/-- The second half of a fetch counts what it pops. -/
theorem takeJob_limiter (hframe : ∀ s κ, κ ∉ popWrites → (pop p s).2 κ = s κ) (hd : 1 ≤ d)
    (t : ℤ) (o : FetchOpts) (s : Store) :
    (takeJob pop p t (some m) (some d) o s).2 .limiter =
      if (pop p s).1.toOption = none then s .limiter
      else Function.update (s .limiter) p (Limiter.charge d.natAbs (s .limiter p)) := by
  have hpop : (pop p s).2 .limiter = s .limiter := hframe s _ (by decide)
  simp only [takeJob]
  cases (pop p s).1 with
  | nothing => exact hpop
  | failed => exact hpop
  | job j =>
    have hcount := countActivation_limiter (m := m) hd p (pop p s).2
    rw [hpop] at hcount
    rw [if_neg (by simp [Popped.toOption])]
    simp only [prepareJobForProcessing]
    split
    · exact hcount
    · rw [addBaseMarkerIfNeeded_frame _ _ _ (by decide), Store.hset_of_ne _ _ _ (by decide),
        Store.hset_of_ne _ _ _ (by decide), Store.xadd_of_ne _ _ _ (by decide), ← hcount]
      split
      · exact Keyspace.set_of_ne _ (by decide) ..
      · rfl

theorem fetchWith_limiter (hframe : ∀ s κ, κ ∉ popWrites → (pop p s).2 κ = s κ) (hd : 1 ≤ d)
    {t : ℤ} {o : FetchOpts} {s : Store} (hm : maxJobsOf p o s = some m)
    (hdur : limiterDurationOf p o s = some d) :
    LimiterEffect p m d.natAbs s (fetchWith pop p t o s).2 (fetchPops pop p t o s) := by
  have hprom : promoteDelayedJobs p t (isQueuePausedOrMaxed p s) s .limiter = s .limiter :=
    promoteDelayedJobs_frame _ _ _ _ (by decide)
  have hlast : LastMillisecond p m (promoteDelayedJobs p t (isQueuePausedOrMaxed p s) s) ↔
      LastMillisecond p m s := by rw [LastMillisecond, hprom, LastMillisecond]
  have hstart : startFetch p t o s = getRateLimitTTL (some m) p
      (promoteDelayedJobs p t (isQueuePausedOrMaxed p s) s) := by
    rw [startFetch, hm]
    rfl
  have hfetch := fetchWith_cases pop p t o s
  rw [hm, hdur] at hfetch
  -- The three answers of the script: the limit is reached, the key's time is up, or it still
  -- counts.
  obtain ⟨n, k, -, -, hres⟩ | ⟨hms, hres⟩ | ⟨hbelow, hres⟩ := getRateLimitTTL_cases m p
    (promoteDelayedJobs p t (isQueuePausedOrMaxed p s) s)
  · rw [← hstart] at hres
    obtain ⟨e, hstop, heq⟩ | ⟨hexp, -, -⟩ := hfetch
    · refine .idle (by simp [fetchPops, hres]) ?_
      rw [heq, hres, hprom]
    · rw [hres] at hexp
      omega
  · -- The key is gone when the fetch goes on.
    rw [← hstart] at hres
    have hgone : (startFetch p t o s).2 .limiter = Function.update (s .limiter) p none := by
      rw [hres, Keyspace.set_self, hprom]
    obtain ⟨e, hstop, heq⟩ | ⟨hexp, hmax, heq⟩ := hfetch
    · exact .deleted (hlast.mp hms) (by simp [fetchPops, hstop]) (by rw [heq, hgone])
    · have htake := takeJob_limiter (m := m) hframe hd t o (startFetch p t o s).2
      have hpops : fetchPops pop p t o s = (pop p (startFetch p t o s).2).1.toOption := by
        simp [fetchPops, hexp, hmax]
      rw [← heq, hgone, ← hpops] at htake
      by_cases hnone : fetchPops pop p t o s = none
      · exact .deleted (hlast.mp hms) hnone (by rw [htake, if_pos hnone])
      · -- The job that was popped is the first one that the new key counts.
        refine .renewed (hlast.mp hms) hnone ?_
        rw [htake, if_neg hnone]
        simp [Limiter.charge]
  · rw [← hstart] at hres
    have hsame : (startFetch p t o s).2 .limiter = s .limiter := by rw [hres, hprom]
    obtain ⟨e, hstop, heq⟩ | ⟨hexp, hmax, heq⟩ := hfetch
    · exact .idle (by simp [fetchPops, hstop]) (by rw [heq, hsame])
    · have htake := takeJob_limiter (m := m) hframe hd t o (startFetch p t o s).2
      have hpops : fetchPops pop p t o s = (pop p (startFetch p t o s).2).1.toOption := by
        simp [fetchPops, hexp, hmax]
      rw [← heq, hsame, ← hpops] at htake
      -- The promotion before the check does not touch the key, so `s` itself is below the limit.
      rw [hprom] at hbelow
      by_cases hnone : fetchPops pop p t o s = none
      · exact .idle hnone (by rw [htake, if_pos hnone])
      · exact .charged hbelow hnone (by rw [htake, if_neg hnone])

/-- A fetch on another queue leaves the limiter key alone. -/
theorem fetchWith_limiter_of_ne (hframe : ∀ s κ, κ ∉ popWrites → (pop p s).2 κ = s κ) {q : String}
    (hq : q ≠ p) (t : ℤ) (o : FetchOpts) (s : Store) :
    (fetchWith pop p t o s).2 .limiter q = s .limiter q := by
  have hcount : ∀ m d s, (countActivation m d p s).2 .limiter q = s .limiter q := by
    intro m d s
    unfold countActivation
    split
    · rfl
    · simp only
      split
      · split
        · simp [hq]
        · split <;> simp [hq]
      · simp [hq]
  have hstart : (startFetch p t o s).2 .limiter q = s .limiter q := by
    unfold startFetch getRateLimitTTL
    have hprom := promoteDelayedJobs_frame p t (getQueueMetadata p s).1 s (κ := .limiter)
      (by decide)
    split
    · rw [hprom]
    · split
      · split
        · rw [Keyspace.set_self, Function.update_of_ne hq, hprom]
        · rw [hprom]
        · rw [hprom]
      · rw [hprom]
  obtain ⟨e, -, hres⟩ | ⟨-, -, hres⟩ := fetchWith_cases pop p t o s
  · rw [hres, hstart]
  · rw [hres, ← hstart]
    -- What is left is the taking of the job, from a store of which only its limiter keys matter.
    generalize (startFetch p t o s).2 = s₁
    have hpop : (pop p s₁).2 .limiter = s₁ .limiter := hframe s₁ _ (by decide)
    simp only [takeJob]
    split
    · simp only [prepareJobForProcessing]
      split
      · rw [hcount, hpop]
      · rw [addBaseMarkerIfNeeded_frame _ _ _ (by decide), Store.hset_of_ne _ _ _ (by decide),
          Store.hset_of_ne _ _ _ (by decide), Store.xadd_of_ne _ _ _ (by decide), ← hpop]
        split
        · rw [Keyspace.set_of_ne _ (by decide), hcount]
        · exact hcount ..
    · rw [hpop]
    · rw [hpop]

end Fetch

/-! ### The limiter key under a command -/

/-- Every fetch of the queue `p` has the effective limiter of maximum `m` and duration `d`. -/
def LimitedBy (p : String) (m d : ℤ) (s : Store) (c : Command) : Prop :=
  ∀ o, c.fetchOpts = some (p, o) → maxJobsOf p o s = some m ∧ limiterDurationOf p o s = some d

/-- A key that is as it was but for the time that passed, or has expired. -/
def OnlyTimePassed (l l' : Option Limiter) : Prop :=
  l' = none ∨ ∃ f : ℕ → ℕ, l' = l.map fun l => { l with pttl := l.pttl.map f }

theorem OnlyTimePassed.refl (l : Option Limiter) : OnlyTimePassed l l :=
  .inr ⟨id, by cases l <;> simp⟩

variable {p : String} {m d : ℤ} {s s' : Store}

theorem LimiterEffect.congr {s₁ : Store} {n : ℕ} {popped : Option String}
    (hs : s₁ .limiter = s .limiter) (h : LimiterEffect p m n s₁ s' popped) :
    LimiterEffect p m n s s' popped := by
  have hlast : LastMillisecond p m s₁ → LastMillisecond p m s := by
    rw [LastMillisecond, hs]
    exact id
  cases h with
  | idle hpop hlim => exact .idle hpop (hs ▸ hlim)
  | deleted hl hpop hlim => exact .deleted (hlast hl) hpop (hs ▸ hlim)
  | renewed hl hpop hlim => exact .renewed (hlast hl) hpop (hs ▸ hlim)
  | charged hb hpop hlim => exact .charged (hs ▸ hb) hpop (hs ▸ hlim)

theorem LimiterEffect.of_limiter_eq {s₂ : Store} {n : ℕ} {popped : Option String}
    (hs : s₂ .limiter = s' .limiter) (h : LimiterEffect p m n s s' popped) :
    LimiterEffect p m n s s₂ popped := by
  cases h with
  | idle hpop hlim => exact .idle hpop (hs.trans hlim)
  | deleted hl hpop hlim => exact .deleted hl hpop (hs.trans hlim)
  | renewed hl hpop hlim => exact .renewed hl hpop (hs.trans hlim)
  | charged hb hpop hlim => exact .charged hb hpop (hs.trans hlim)

/-- The fetch at the end of a finishing script acts on the limiter like any other. -/
theorem fetchNextJob_limiter (hd : 1 ≤ d) {t : ℤ} {o : FetchOpts} {s₁ : Store}
    (hlim : s₁ .limiter = s .limiter) (hmax : s₁ .metaMax = s .metaMax)
    (hdur : s₁ .metaDuration = s .metaDuration)
    (h : maxJobsOf p o s = some m ∧ limiterDurationOf p o s = some d) :
    LimiterEffect p m d.natAbs s (fetchNextJob p t o s₁).2
      (fetchPops popForFetchNextJob p t o s₁) := by
  refine (fetchWith_limiter (fun s _ => popForFetchNextJob_frame p s) hd ?_ ?_).congr hlim
  · rw [maxJobsOf, hmax]
    exact h.1
  · rw [limiterDurationOf, hdur]
    exact h.2

theorem fetchOrDrain_limiter (p : String) (a : FinishArgs) (s : Store) :
    (fetchOrDrain p a s).2 .limiter =
      if a.fetchNext then (fetchNextJob p a.timestamp a.opts s).2 .limiter else s .limiter := by
  simp only [fetchOrDrain]
  split
  · split
    · rfl
    · exact emitDrained_frame _ _ (by decide)
  · exact emitDrained_frame _ _ (by decide)

theorem fetchOrMark_limiter (p : String) (a : DelayArgs) (s : Store) :
    (fetchOrMark p a s).2 .limiter =
      a.fetchNext.elim (s .limiter) fun o => (fetchNextJob p a.timestamp o s).2 .limiter := by
  simp only [fetchOrMark]
  split
  · next hnone =>
    rw [hnone]
    exact addDelayMarkerIfNeeded_frame _ _ (by decide)
  · next o hsome =>
    rw [hsome]
    split
    · rfl
    · rfl
    · exact addDelayMarkerIfNeeded_frame _ _ (by decide)

/-- What a command other than a manual limit does to the limiter key of a queue: it acts as a
fetch, or it activates nothing and only time has passed. -/
theorem exec_limiter (hd : 1 ≤ d) {c : Command} {r : Reply × Store} (hc : LimitedBy p m d s c)
    (hmanual : ∀ ms, c ≠ .setRateLimit p ms) (h : c.exec s = some r) :
    LimiterEffect p m d.natAbs s r.2 (c.activates s p) ∨
      (c.activates s p = none ∧ OnlyTimePassed (s .limiter p) (r.2 .limiter p)) := by
  have hsame : r.2 .limiter p = s .limiter p → OnlyTimePassed (s .limiter p) (r.2 .limiter p) :=
    fun heq => heq ▸ .refl _
  -- Only the three fetching scripts and what happens to the limiter key itself can write it.
  by_cases hw : Kind.limiter ∈ c.writes
  · cases c with
    | moveToActive q t o =>
      cases h
      by_cases hqp : q = p
      · subst hqp
        obtain ⟨hm, hdur⟩ := hc o rfl
        left
        rw [Command.activates, if_pos rfl]
        exact fetchWith_limiter (fun s _ => popForMoveToActive_frame q s) hd hm hdur
      · refine .inr ⟨by simp [Command.activates, hqp], hsame ?_⟩
        exact fetchWith_limiter_of_ne (fun s _ => popForMoveToActive_frame q s) (Ne.symm hqp) t o s
    | moveToFinished q a =>
      cases h
      obtain ⟨hno, n, -, -, hres⟩ | ⟨hrel, hres⟩ | ⟨hfin, hres⟩ := Script.moveToFinished_cases q a s
      · refine .inr ⟨by simp [Command.activates, hno], hsame ?_⟩
        rw [hres]
      · refine .inr ⟨by simp [Command.activates, hrel.not_finishesJob], hsame ?_⟩
        rw [hres, releasedJob_frame _ _ _ _ _ (by decide)]
      · -- The completion has not touched what a fetch reads of the limit, so the fetch behaves as
        -- one of `s`.
        have hfr : ∀ κ ∈ [Kind.limiter, .metaMax, .metaDuration], finishJob q a
            (leftActive q a.jobId a.opts.token a.fieldsToUpdate s) κ = s κ := by
          intro κ hκ
          have hκ' : κ ∉ [Kind.lock, .stalled, .hash, .list .active] ++ finishWrites := by
            revert κ
            decide
          rw [finishJob_frame _ _ _ (Kind.notMem_mono hκ' (by decide)),
            leftActive_frame _ _ _ _ _ (Kind.notMem_mono hκ' (by decide))]
        have hlim := fetchOrDrain_limiter q a
          (finishJob q a (leftActive q a.jobId a.opts.token a.fieldsToUpdate s))
        rw [hres]
        by_cases hnext : a.fetchNext = true
        · rw [if_pos hnext] at hlim
          by_cases hqp : q = p
          · subst hqp
            have heff := fetchNextJob_limiter hd (t := a.timestamp) (hfr _ (by decide))
              (hfr _ (by decide)) (hfr _ (by decide))
                (hc a.opts (by simp [Command.fetchOpts, hnext]))
            left
            simpa [Command.activates, hnext, hfin] using heff.of_limiter_eq hlim
          · refine .inr ⟨by simp [Command.activates, hqp], .inr ⟨id, ?_⟩⟩
            rw [hlim, fetchNextJob, fetchWith_limiter_of_ne
              (fun s _ => popForFetchNextJob_frame q s) (Ne.symm hqp), hfr _ (by decide)]
            cases s .limiter p <;> simp
        · rw [if_neg hnext, hfr _ (by decide)] at hlim
          refine .inr ⟨by simp [Command.activates, hnext], ?_⟩
          rw [hlim]
          exact .refl _
    | moveToDelayed q a =>
      cases h
      obtain ⟨hno, n, -, -, hres⟩ | ⟨hrel, hres⟩ | ⟨hfin, hres⟩ := Script.moveToDelayed_cases q a s
      · refine .inr ⟨by simp [Command.activates, hno], hsame ?_⟩
        rw [hres]
      · refine .inr ⟨by simp [Command.activates, hrel.not_givesUp], hsame ?_⟩
        rw [hres, releasedJob_frame _ _ _ _ _ (by decide)]
      · have hfr : ∀ κ ∈ [Kind.limiter, .metaMax, .metaDuration], delayJob q a
            (leftActive q a.jobId a.token a.fieldsToUpdate s) κ = s κ := by
          intro κ hκ
          have hκ' : κ ∉ [Kind.lock, .stalled, .hash, .list .active, .metaMaxLenEvents,
              .zset .delayed, .events] := by
            revert κ
            decide
          rw [delayJob_frame _ _ _ (Kind.notMem_mono hκ' (by decide)),
            leftActive_frame _ _ _ _ _ (Kind.notMem_mono hκ' (by decide))]
        have hlim := fetchOrMark_limiter q a
          (delayJob q a (leftActive q a.jobId a.token a.fieldsToUpdate s))
        rw [hres]
        rcases hnext : a.fetchNext with _ | o
        · rw [hnext, Option.elim_none, hfr _ (by decide)] at hlim
          refine .inr ⟨by simp [Command.activates, hnext], ?_⟩
          rw [hlim]
          exact .refl _
        · rw [hnext, Option.elim_some] at hlim
          by_cases hqp : q = p
          · subst hqp
            have heff := fetchNextJob_limiter hd (t := a.timestamp) (hfr _ (by decide))
              (hfr _ (by decide)) (hfr _ (by decide)) (hc o (by simp [Command.fetchOpts, hnext]))
            left
            simpa [Command.activates, hnext, hfin] using heff.of_limiter_eq hlim
          · refine .inr ⟨by simp [Command.activates, hqp], .inr ⟨id, ?_⟩⟩
            rw [hlim, fetchNextJob, fetchWith_limiter_of_ne
              (fun s _ => popForFetchNextJob_frame q s) (Ne.symm hqp), hfr _ (by decide)]
            cases s .limiter p <;> simp
    | setRateLimit q ms =>
      cases h
      have hqp : p ≠ q := by
        rintro rfl
        exact hmanual ms rfl
      refine .inr ⟨rfl, hsame ?_⟩
      simp only [setRateLimit]
      split
      · rw [Keyspace.set_self, Function.update_of_ne hqp]
      · rfl
    | expireLimiter q =>
      cases h
      refine .inr ⟨rfl, ?_⟩
      simp only [expireLimiter]
      split
      · rw [Keyspace.set_self, Function.update_apply]
        split
        · exact .inl rfl
        · exact .refl _
      · exact .refl _
    | elapseLimiter q ms =>
      cases h
      refine .inr ⟨rfl, ?_⟩
      simp only [elapseLimiter, Keyspace.modify_self, Function.update_apply]
      split
      · next hpq => exact .inr ⟨(· - ms), by rw [hpq]⟩
      · exact .refl _
    | _ =>
      refine absurd hw ?_
      simp only [Command.writes]
      decide
  · have hnone : c.activates s p = none := by
      cases c with
      | moveToActive | moveToFinished | moveToDelayed =>
        refine absurd ?_ hw
        simp only [Command.writes]
        decide
      | _ => rfl
    exact .inr ⟨hnone, hsame (by rw [Command.exec_frame h hw])⟩

/-! ### Windows -/

/-- The number of activations of the queue `p` in the steps of a run. -/
def activations (p : String) (steps : List (Store × Command × Store)) : ℕ :=
  steps.countP fun e => (e.2.1.activates e.1 p).isSome

/-- The step creates the limiter key: it activates a job where there is no key, or where the key
is deleted in its last millisecond. -/
def StartsWindow (p : String) (m : ℤ) (e : Store × Command × Store) : Prop :=
  e.2.1.activates e.1 p ≠ none ∧ (e.1 .limiter p = none ∨ LastMillisecond p m e.1)

/-- The step leaves the limiter key in place: the key is there afterwards, has not been created
anew, and has not been replaced by a manual limit. -/
def StaysInWindow (p : String) (m : ℤ) (e : Store × Command × Store) : Prop :=
  e.2.2 .limiter p ≠ none ∧ ¬ StartsWindow p m e ∧ ∀ ms, e.2.1 ≠ .setRateLimit p ms

/-- The key exists with a time to live and has counted at least the `k` activations of its
window, of which there are at most `m`. -/
def InWindow (p : String) (m : ℤ) (k : ℕ) (s : Store) : Prop :=
  ∃ n ttl : ℕ, s .limiter p = some ⟨n, some ttl⟩ ∧ k ≤ n ∧ (k : ℤ) ≤ m

/-- The key exists with a time to live and is full. -/
def LimitReached (p : String) (m : ℤ) (s : Store) : Prop :=
  ∃ n ttl : ℕ, s .limiter p = some ⟨n, some ttl⟩ ∧ m ≤ n

theorem StartsWindow.inWindow (hm : 1 ≤ m) (hd : 1 ≤ d) {c : Command} {r : Reply × Store}
    (hc : LimitedBy p m d s c) (h : c.exec s = some r) (hstart : StartsWindow p m (s, c, r.2)) :
    InWindow p m 1 r.2 := by
  obtain ⟨hact, hkey⟩ := hstart
  have hmanual : ∀ ms, c ≠ .setRateLimit p ms := by
    rintro ms rfl
    exact hact rfl
  obtain heff | ⟨hnone, -⟩ := exec_limiter hd hc hmanual h
  · cases heff with
    | idle hpop => exact absurd hpop hact
    | deleted _ hpop => exact absurd hpop hact
    | renewed _ _ hlim => exact ⟨1, d.natAbs, by rw [hlim, Function.update_self], le_rfl, hm⟩
    | charged hbelow _ hlim =>
      obtain hnone | ⟨n, hn, hmn⟩ := hkey
      · refine ⟨1, d.natAbs, ?_, le_rfl, hm⟩
        rw [hlim, Function.update_self]
        simp only at hnone
        rw [hnone]
        rfl
      · have := hbelow n 0 hn
        omega
  · exact absurd hnone hact

/-- The step lemma of a window: an activation raises the counter from below the maximum. -/
theorem InWindow.exec (hd : 1 ≤ d) {k : ℕ} (hk : InWindow p m k s) {c : Command}
    {r : Reply × Store} (hc : LimitedBy p m d s c) (h : c.exec s = some r)
    (hstay : StaysInWindow p m (s, c, r.2)) :
    InWindow p m (k + if (c.activates s p).isSome then 1 else 0) r.2 := by
  obtain ⟨n, ttl, hn, hkn, hkm⟩ := hk
  obtain ⟨hpost, hnew, hmanual⟩ := hstay
  simp only at hpost
  obtain heff | ⟨hnone, htime⟩ := exec_limiter hd hc hmanual h
  · cases heff with
    | idle hpop hlim => exact ⟨n, ttl, by rw [hlim, hn], by simp [hpop, hkn], by simp [hpop, hkm]⟩
    | deleted _ _ hlim => exact absurd (by rw [hlim, Function.update_self]) hpost
    | renewed hlast hpop _ => exact absurd ⟨hpop, .inr hlast⟩ hnew
    | charged hbelow hpop hlim =>
      have hlt := hbelow n ttl hn
      have hsome : (c.activates s p).isSome = true := Option.isSome_iff_ne_none.mpr hpop
      rw [if_pos hsome]
      rcases n with _ | n
      · refine ⟨1, d.natAbs, ?_, by omega, by omega⟩
        rw [hlim, Function.update_self, hn]
        rfl
      · refine ⟨n + 2, ttl, ?_, by omega, by push_cast at hlt ⊢; omega⟩
        rw [hlim, Function.update_self, hn]
        rfl
  · obtain hgone | ⟨f, hf⟩ := htime
    · exact absurd hgone hpost
    · exact ⟨n, f ttl, by rw [hf, hn]; rfl, by simp [hnone, hkn], by simp [hnone, hkm]⟩

/-- The step lemma of a full limiter: nothing is activated and it stays full. -/
theorem LimitReached.exec (hd : 1 ≤ d) (hs : LimitReached p m s) {c : Command}
    {r : Reply × Store} (hc : LimitedBy p m d s c) (h : c.exec s = some r)
    (hstay : StaysInWindow p m (s, c, r.2)) : c.activates s p = none ∧ LimitReached p m r.2 := by
  obtain ⟨n, ttl, hn, hmn⟩ := hs
  obtain ⟨hpost, hnew, hmanual⟩ := hstay
  simp only at hpost
  obtain heff | ⟨hnone, htime⟩ := exec_limiter hd hc hmanual h
  · cases heff with
    | idle hpop hlim => exact ⟨hpop, n, ttl, by rw [hlim, hn], hmn⟩
    | deleted _ _ hlim => exact absurd (by rw [hlim, Function.update_self]) hpost
    | renewed hlast hpop _ => exact absurd ⟨hpop, .inr hlast⟩ hnew
    | charged hbelow _ _ =>
      have := hbelow n ttl hn
      omega
  · obtain hgone | ⟨f, hf⟩ := htime
    · exact absurd hgone hpost
    · exact ⟨hnone, n, f ttl, by rw [hf, hn]; rfl, hmn⟩

theorem activations_append (p : String) (l l' : List (Store × Command × Store)) :
    activations p (l ++ l') = activations p l + activations p l' := List.countP_append

/-- The run lemma of a window. -/
theorem inWindow_of_run (hd : 1 ≤ d) {steps : List (Store × Command × Store)}
    (hs : InWindow p m 1 s) (run : Run (Step (LimitedBy p m d)) s steps s')
    (hstay : ∀ e ∈ steps, StaysInWindow p m e) : InWindow p m (1 + activations p steps) s' := by
  refine run.induct (I := fun steps t => (∀ e ∈ steps, StaysInWindow p m e) →
    InWindow p m (1 + activations p steps) t) (fun _ => hs) ?_ hstay
  rintro steps t c u ih ⟨hc, reply, hexec⟩ hstay
  have ht := ih fun e he => hstay e (by simp [he])
  have hu := ht.exec hd hc hexec (hstay _ (by simp))
  rw [activations_append, ← Nat.add_assoc]
  simpa [activations, List.countP_singleton] using hu

/-- The run lemma of a full limiter. -/
theorem limitReached_of_run (hd : 1 ≤ d) {steps : List (Store × Command × Store)}
    (hs : LimitReached p m s) (run : Run (Step (LimitedBy p m d)) s steps s')
    (hstay : ∀ e ∈ steps, StaysInWindow p m e) :
    LimitReached p m s' ∧ activations p steps = 0 := by
  refine run.induct (I := fun steps t => (∀ e ∈ steps, StaysInWindow p m e) →
    LimitReached p m t ∧ activations p steps = 0) (fun _ => ⟨hs, rfl⟩) ?_ hstay
  rintro steps t c u ih ⟨hc, reply, hexec⟩ hstay
  obtain ⟨ht, hzero⟩ := ih fun e he => hstay e (by simp [he])
  obtain ⟨hnone, hu⟩ := ht.exec hd hc hexec (hstay _ (by simp))
  refine ⟨hu, ?_⟩
  rw [activations_append, hzero]
  simp [activations, hnone]

/-- **Rate limit.** Let every fetch of the queue have the effective limiter `m`, `d`. In any run
that begins with a step that creates the limiter key and goes on without the key expiring, at most
`m` jobs are made active; in any run that begins with a manual rate limit and goes on without the
key expiring, none is. -/
theorem rate_limit_bound (p : String) {m d : ℤ} (hm : 1 ≤ m) (hd : 1 ≤ d) :
    (∀ s e steps t, Run (Step (LimitedBy p m d)) s (e :: steps) t → StartsWindow p m e →
      (∀ e' ∈ steps, StaysInWindow p m e') → activations p (e :: steps) ≤ m) ∧
    (∀ s ms b steps t, Run (Step (LimitedBy p m d)) s ((s, .setRateLimit p ms, b) :: steps) t →
      0 < ms → m ≤ 2 ^ 53 - 1 → (∀ e' ∈ steps, StaysInWindow p m e') →
        activations p steps = 0) := by
  constructor
  · rintro s ⟨a, c, b⟩ steps t run hstart hstay
    obtain ⟨-, ⟨hc, reply, hexec⟩, hrest⟩ := run.uncons
    obtain ⟨n, ttl, -, -, hle⟩ :=
      inWindow_of_run hd (StartsWindow.inWindow hm hd hc hexec hstart) hrest hstay
    have hone : activations p ((a, c, b) :: steps) = 1 + activations p steps := by
      have hsome : (c.activates a p).isSome = true := Option.isSome_iff_ne_none.mpr hstart.1
      rw [activations, List.countP_cons_of_pos (by simpa using hsome), activations, Nat.add_comm]
    rw [hone]
    exact hle
  · intro s ms b steps t run hms hmax hstay
    obtain ⟨-, ⟨-, reply, hexec⟩, hrest⟩ := run.uncons
    have hfull : LimitReached p m b := by
      refine ⟨2 ^ 53 - 1, ms.toNat, ?_, by exact_mod_cast hmax⟩
      have hb : b = s.set .limiter p (some ⟨2 ^ 53 - 1, some ms.toNat⟩) := by
        simpa [Command.exec, setRateLimit, hms] using (congrArg (Option.map Prod.snd) hexec).symm
      rw [hb, Keyspace.set_self, Function.update_self]
    exact (limitReached_of_run hd hfull hrest hstay).2

/-- A queue with two waiting jobs. -/
def twoWaiting : Store :=
  let a : AddArgs := { name := "n", data := "", timestamp := 0 }
  (Script.addStandardJob "bull:q:" a (Script.addStandardJob "bull:q:" a Store.empty).2).2

/-- A fetch under a limit of one job a second. -/
def limitedFetch (timestamp : ℤ) : Command :=
  .moveToActive "bull:q:" timestamp
    { token := "t", lockDuration := 30000, limiter := some ⟨1, 1000⟩ }

/-- The store after a command. -/
def after (c : Command) (s : Store) : Store := ((c.exec s).map Prod.snd).getD s

theorem rate_limit_bound_two_fetches :
    (activations "bull:q:" [(twoWaiting, limitedFetch 1, after (limitedFetch 1) twoWaiting),
      (after (limitedFetch 1) twoWaiting, limitedFetch 2,
        after (limitedFetch 2) (after (limitedFetch 1) twoWaiting))] ≤ (1 : ℤ)) ∧
    activations "bull:q:" [(after (.setRateLimit "bull:q:" 5000) twoWaiting, limitedFetch 1,
      after (limitedFetch 1) (after (.setRateLimit "bull:q:" 5000) twoWaiting))] = 0 := by
  have hfetch : ∀ (s : Store) (t : ℤ), s .metaMax "bull:q:" = none →
      Step (LimitedBy "bull:q:" 1 1000) s (limitedFetch t) (after (limitedFetch t) s) := by
    refine fun s t hs => ⟨fun o ho => ?_, (Script.moveToActive "bull:q:" t _ s).1, rfl⟩
    obtain rfl : { token := "t", lockDuration := 30000, limiter := some ⟨1, 1000⟩ } = o := by
      simpa [limitedFetch, Command.fetchOpts] using ho
    simp [maxJobsOf, limiterDurationOf, hs]
  have hbound := rate_limit_bound "bull:q:" (m := 1) (d := 1000) (by decide) (by decide)
  constructor
  · refine hbound.1 twoWaiting _ _ _
      (.snoc (.single (hfetch twoWaiting 1 (by decide))) (hfetch _ 2 (by decide))) ?_ ?_
    · exact ⟨by decide, .inl (by decide)⟩
    · simp only [List.mem_singleton]
      rintro e rfl
      exact ⟨by decide, fun h => h.1 (by decide), fun ms h => (by cases h)⟩
  · have hset : Step (LimitedBy "bull:q:" 1 1000) twoWaiting (.setRateLimit "bull:q:" 5000)
        (after (.setRateLimit "bull:q:" 5000) twoWaiting) :=
      ⟨fun o ho => (by cases ho), .code 0, rfl⟩
    refine hbound.2 twoWaiting 5000 _ _ _ (.snoc (.single hset) (hfetch _ 1 (by decide)))
      (by decide) (by decide) ?_
    simp only [List.mem_singleton]
    rintro e rfl
    exact ⟨by decide, fun h => h.1 (by decide), fun ms h => (by cases h)⟩

end BullMQ
