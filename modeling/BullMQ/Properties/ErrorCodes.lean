import BullMQ.Model.Command

/-!
# Error codes of the finishing scripts

What a finishing script that returns a negative code has done to the store. The codes `-1`, `-2`,
`-4`, `-6` and `-9` are all returned before the first write, except that `retryJob` promotes the
due delayed jobs before it looks at its own job. The code `-3` of a job that is not active is
returned after the lock has been released and the fields have been written: it leaves everything
alone but the lock, the stalled mark and the fields of that one job.
-/

namespace BullMQ

open Redis

/-! ### The effect of a refusal -/

/-- `s'` is `s` up to the lock, the stalled mark and the hash of the job `j` of the queue `p`. -/
structure SameUpToJob (p j : String) (s s' : Store) : Prop where
  /-- Every other family is as it was. -/
  other : ∀ κ, κ ∉ [Kind.lock, .stalled, .hash] → s' κ = s κ
  /-- So are the locks of the other jobs. -/
  lock : ∀ k, k ≠ p ++ j → s' .lock k = s .lock k
  /-- So are the hashes of the other jobs. -/
  hash : ∀ k, k ≠ p ++ j → s' .hash k = s .hash k
  /-- So are the stalled marks of the other queues. -/
  stalled : ∀ q, q ≠ p → s' .stalled q = s .stalled q
  /-- So are the stalled marks of the other jobs of the queue. -/
  mark : ∀ i, i ≠ j → (i ∈ s' .stalled p ↔ i ∈ s .stalled p)

/-- What a finishing script that returned `reply` for the job `j` has made of the store `s`: a
negative code stands for an unchanged store, `-3` for one that is unchanged up to that job and
fully unchanged where there was no lock to release and no field to write. -/
def RefusedCleanly (p j token : String) (fields : Option FieldsToUpdate) (s : Store)
    (result : Reply × Store) : Prop :=
  ∀ n : ℤ, result.1 = .code n → n < 0 →
    (n ≠ -3 → result.2 = s) ∧
    (n = -3 → SameUpToJob p j s result.2 ∧ (token = "0" → fields = none → result.2 = s))

theorem removeLock_sameUpToJob (p j t : String) (s : Store) :
    SameUpToJob p j s (removeLock p j t s).2 := by
  have hrefl : SameUpToJob p j s s :=
    ⟨fun _ _ => rfl, fun _ _ => rfl, fun _ _ => rfl, fun _ _ => rfl, fun _ _ => Iff.rfl⟩
  simp only [removeLock]
  split
  · exact hrefl
  · split
    · exact hrefl
    · split
      · refine ⟨fun κ hκ => ?_, fun k hk => ?_, fun k _ => ?_, fun q hq => ?_, fun i hi => ?_⟩
        · simp only [List.mem_cons, List.not_mem_nil, or_false, not_or] at hκ
          rw [Keyspace.modify_of_ne _ hκ.2.1, Keyspace.set_of_ne _ hκ.1]
        · rw [Keyspace.modify_of_ne _ (by decide), Keyspace.set_self, Function.update_of_ne hk]
        · rw [Keyspace.modify_of_ne _ (by decide), Keyspace.set_of_ne _ (by decide)]
        · rw [Keyspace.modify_self, Function.update_of_ne hq, Keyspace.set_of_ne _ (by decide)]
        · rw [Keyspace.modify_self, Function.update_self, Keyspace.set_of_ne _ (by decide),
            MemberSet.mem_srem]
          exact and_iff_right hi
      · exact hrefl

theorem releasedJob_sameUpToJob (p j t : String) (f : Option FieldsToUpdate) (s : Store) :
    SameUpToJob p j s (releasedJob p j t f s) := by
  obtain ⟨hother, hlock, hhash, hstalled, hmark⟩ := removeLock_sameUpToJob p j t s
  have hfields : ∀ κ, κ ≠ .hash → releasedJob p j t f s κ = (removeLock p j t s).2 κ :=
    fun κ hκ => updateJobFields_frame _ _ _ hκ
  refine ⟨fun κ hκ => ?_, fun k hk => ?_, fun k hk => ?_, fun q hq => ?_, fun i hi => ?_⟩
  · exact releasedJob_frame p j t f s hκ
  · rw [hfields _ (by decide), hlock k hk]
  · rw [← hhash k hk]
    unfold releasedJob updateJobFields
    split
    · rfl
    · rw [Store.hset_hash, if_neg hk]
  · rw [hfields _ (by decide), hstalled q hq]
  · rw [hfields _ (by decide)]
    exact hmark i hi

theorem releasedJob_zero (p j : String) (s : Store) : releasedJob p j "0" none s = s := by
  simp [releasedJob, updateJobFields, removeLock]

/-- A script that ends in one of the three ways of a finishing script refuses cleanly. -/
theorem refusedCleanly_of_cases {p j t : String} {f : Option FieldsToUpdate} {s : Store}
    {result : Reply × Store}
    (h : (∃ n : ℤ, n ≠ -3 ∧ result = (.code n, s)) ∨
      result = (.code (-3), releasedJob p j t f s) ∨ ∀ n : ℤ, n < 0 → result.1 ≠ .code n) :
    RefusedCleanly p j t f s result := by
  intro n hcode hneg
  obtain ⟨m, hm, rfl⟩ | rfl | hpos := h
  · obtain rfl : m = n := by simpa using hcode
    exact ⟨fun _ => rfl, fun h3 => absurd h3 hm⟩
  · obtain rfl : -3 = n := by simpa using hcode
    refine ⟨fun h3 => absurd rfl h3, fun _ => ⟨releasedJob_sameUpToJob p j t f s, ?_⟩⟩
    rintro rfl rfl
    exact releasedJob_zero p j s
  · exact absurd hcode (hpos n hneg)

/-! ### The four scripts -/

theorem fetchOrDrain_ne_code (p : String) (a : FinishArgs) (s : Store) {n : ℤ} (hn : n < 0) :
    (fetchOrDrain p a s).1 ≠ .code n := by
  have h0 : (Reply.code 0) ≠ .code n := by
    rintro ⟨⟩
    exact absurd hn (by decide)
  have hfetch := fetchWith_ne_code popForFetchNextJob p a.timestamp a.opts s n
  simp only [fetchOrDrain]
  split
  · split
    · next result heq =>
      intro hcode
      refine hfetch ?_
      rw [← hcode]
      exact heq
    · exact h0
  · exact h0

theorem fetchOrMark_ne_code (p : String) (a : DelayArgs) (s : Store) {n : ℤ} (hn : n < 0) :
    (fetchOrMark p a s).1 ≠ .code n := by
  have h0 : (Reply.code 0) ≠ .code n := by
    rintro ⟨⟩
    exact absurd hn (by decide)
  simp only [fetchOrMark]
  split
  · exact h0
  · split
    · simp
    · simp
    · exact h0

theorem moveToFinished_refusedCleanly (p : String) (a : FinishArgs) (s : Store) :
    RefusedCleanly p a.jobId a.opts.token a.fieldsToUpdate s (Script.moveToFinished p a s) := by
  refine refusedCleanly_of_cases ?_
  obtain ⟨-, n, -, hn, hres⟩ | ⟨-, hres⟩ | ⟨-, hres⟩ := Script.moveToFinished_cases p a s
  · exact .inl ⟨n, hn, hres⟩
  · exact .inr (.inl hres)
  · refine .inr (.inr fun n hn => ?_)
    rw [hres]
    exact fetchOrDrain_ne_code p a _ hn

theorem moveToDelayed_refusedCleanly (p : String) (a : DelayArgs) (s : Store) :
    RefusedCleanly p a.jobId a.token a.fieldsToUpdate s (Script.moveToDelayed p a s) := by
  refine refusedCleanly_of_cases ?_
  obtain ⟨-, n, -, hn, hres⟩ | ⟨-, hres⟩ | ⟨-, hres⟩ := Script.moveToDelayed_cases p a s
  · exact .inl ⟨n, hn, hres⟩
  · exact .inr (.inl hres)
  · refine .inr (.inr fun n hn => ?_)
    rw [hres]
    exact fetchOrMark_ne_code p a _ hn

theorem moveToWaitingChildren_refusedCleanly (p j t c : String) (ts : ℤ) (s : Store) :
    RefusedCleanly p j t none s (Script.moveToWaitingChildren p j t c ts s) := by
  refine refusedCleanly_of_cases ?_
  obtain ⟨n, hn, hres⟩ | ⟨-, hres⟩ | ⟨-, -, hres⟩ :=
    Script.moveToWaitingChildren_cases p j t c ts s
  · refine .inl ⟨n, ?_, hres⟩
    rintro rfl
    exact absurd hn (by decide)
  · exact .inr (.inl hres)
  · refine .inr (.inr fun n hn => ?_)
    rw [hres]
    rintro ⟨⟩
    exact absurd hn (by decide)

/-- `retryJob` refuses cleanly on the store in which the due delayed jobs are promoted. -/
theorem retryJob_refusedCleanly (p : String) (a : RetryArgs) (s : Store) :
    RefusedCleanly p a.jobId a.token a.fieldsToUpdate
      (promoteDelayedJobs p a.timestamp (isQueuePausedOrMaxed p s) s) (Script.retryJob p a s) := by
  refine refusedCleanly_of_cases ?_
  obtain ⟨s₀, hs₀, hcases⟩ := Script.retryJob_cases p a s
  rw [← hs₀]
  obtain ⟨-, n, -, hn, hres⟩ | ⟨-, hres⟩ | ⟨-, hres⟩ := hcases
  · exact .inl ⟨n, hn, hres⟩
  · exact .inr (.inl hres)
  · refine .inr (.inr fun n hn => ?_)
    rw [hres]
    rintro ⟨⟩
    exact absurd hn (by decide)

/-- **Error codes.** A finishing script that returns a negative code other than `-3` leaves the
whole store as it was, `retryJob` up to its promotion of due delayed jobs. With `-3` everything
but the lock, the stalled mark and the fields of the job itself is as it was, and these too for
the lock-less token without fields to write. -/
theorem finishing_scripts_refuse_cleanly (p : String) (s : Store) :
    (∀ a, RefusedCleanly p a.jobId a.opts.token a.fieldsToUpdate s
      (Script.moveToFinished p a s)) ∧
    (∀ a, RefusedCleanly p a.jobId a.token a.fieldsToUpdate s (Script.moveToDelayed p a s)) ∧
    (∀ j t c ts, RefusedCleanly p j t none s (Script.moveToWaitingChildren p j t c ts s)) ∧
    (∀ a, RefusedCleanly p a.jobId a.token a.fieldsToUpdate
      (promoteDelayedJobs p a.timestamp (isQueuePausedOrMaxed p s) s) (Script.retryJob p a s)) :=
  ⟨fun a => moveToFinished_refusedCleanly p a s, fun a => moveToDelayed_refusedCleanly p a s,
    fun j t c ts => moveToWaitingChildren_refusedCleanly p j t c ts s,
    fun a => retryJob_refusedCleanly p a s⟩

/-! ### Refusals that write -/

/-- The job `n`, added at 0. -/
def plainAdd : AddArgs := { name := "n", data := "", timestamp := 0 }

/-- A queue with one job that is due at 5. -/
def delayedQueue : Store :=
  (Script.addDelayedJob "bull:q:" { plainAdd with opts := { delay := 5 } } Store.empty).2

/-- A retry of an unknown job at 100. -/
def unknownRetry : RetryArgs := { jobId := "x", timestamp := 100, token := "t", pushCmd := .lpush }

/-- A queue with one waiting job. -/
def waitingQueue : Store :=
  (Script.addStandardJob "bull:q:" plainAdd Store.empty).2

/-- A lock-less failure of the waiting job, with a reason to write. -/
def locklessFailure : FinishArgs :=
  { jobId := "1", timestamp := 1, value := "boom", target := .failed, fetchNext := false
    opts := { token := "0", lockDuration := 30000 }
    fieldsToUpdate := some { failedReason := some "boom" } }

/-- Both kinds of refusal that change a reachable store: `retryJob` of an unknown job returns `-1`
and has emptied the delayed set; a lock-less `moveToFinished` of a waiting job returns `-3` and
has written the failed reason. -/
theorem refusals_change_the_store :
    (Reachable (fun _ _ => True) Store.empty delayedQueue ∧
      (Script.retryJob "bull:q:" unknownRetry delayedQueue).1 = .code (-1) ∧
      (Script.retryJob "bull:q:" unknownRetry delayedQueue).2 ≠ delayedQueue) ∧
    (Reachable (fun _ _ => True) Store.empty waitingQueue ∧
      (Script.moveToFinished "bull:q:" locklessFailure waitingQueue).1 = .code (-3) ∧
      (Script.moveToFinished "bull:q:" locklessFailure waitingQueue).2 ≠ waitingQueue) := by
  have hdelayed : Reachable (fun _ _ => True) Store.empty delayedQueue :=
    (Reachable.refl _).step (c := .addDelayedJob "bull:q:" { plainAdd with opts := { delay := 5 } })
      trivial rfl
  have hwaiting : Reachable (fun _ _ => True) Store.empty waitingQueue :=
    (Reachable.refl _).step (c := .addStandardJob "bull:q:" plainAdd) trivial rfl
  refine ⟨⟨hdelayed, by decide, fun h => ?_⟩, hwaiting, by decide, fun h => ?_⟩
  · have hdel := congrArg (fun s : Store => s (.zset .delayed) "bull:q:") h
    revert hdel
    decide
  · have hjob := congrArg (fun s : Store => s .hash "bull:q:1") h
    revert hjob
    decide

end BullMQ
