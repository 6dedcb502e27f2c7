import BullMQ.Placement.StalledCheck
import BullMQ.Model.QueueCommand

/-!
# Stalled jobs are detected in two phases

An effective stalled check marks what is active; the next one reclaims what is still marked and
has no lock. The stalled set says exactly which jobs have been active since the last effective
check of the queue without an extension of their lock and without the end of their activation
(`mem_stalled_iff`), so that a check reclaims exactly the jobs it should
(`stalled_check_reclaims_exactly`).

The runs are those of all scripts that add, schedule and process jobs, in any mode and under any
ids; ids need not be in one place only.
-/

namespace BullMQ

open Redis Transition

variable {s : Store} {p j : String}

/-- A command ends the activation of a job. -/
def QueueCommand.ends (c : QueueCommand) (s : Store) (p j : String) : Prop :=
  match c with
  | job c => c.ends s p j
  | _ => False

/-- A command extends the lock of a job. -/
def QueueCommand.extends (c : QueueCommand) (s : Store) (p j : String) : Prop :=
  match c with
  | job c => c.extends s p j
  | _ => False

/-- The commands of the runs: with real tokens, and no removal on request. -/
def QueueCommand.Processes : QueueCommand → Prop
  | job c => c.RealTokens ∧ ∀ n p j b, c ≠ .removeJob n p j b
  | addJobScheduler .. | updateJobScheduler .. => True
  | expireDeduplicationKey .. | elapseDeduplicationKey .. => True
  | cleanJobsInSet .. | drain .. | obliterate .. | removeUnprocessedChildren .. => False

/-- A step is an effective stalled check of a queue. -/
def ChecksQueue (p : String) (e : Store × QueueCommand × Store) : Prop :=
  ∃ m t n, e.2.1 = .job (.moveStalledJobsToWait p m t n) ∧ EffectiveCheck p n e.1

/-- The job was active at the end of the last effective check of the queue; since then its lock
has not been extended and its activation has not ended. -/
def ActiveSinceCheck (p j : String) (steps : List (Store × QueueCommand × Store)) : Prop :=
  Since (fun e => ChecksQueue p e ∧ j ∈ e.2.2 (.list .active) p)
    (fun e => ¬ ChecksQueue p e ∧ ¬ e.2.1.extends e.1 p j ∧ ¬ e.2.1.ends e.1 p j) steps

/-! ### What one command does to the marks -/

/-- A command that is about no single job leaves active lists and marks alone. -/
theorem QueueCommand.exec_marks {c : QueueCommand} {r : Reply × Store} (hc : c.Processes)
    (hjob : ∀ c', c ≠ .job c') (hexec : c.exec s = some r) :
    r.2 (.list .active) = s (.list .active) ∧ r.2 .stalled = s .stalled := by
  cases c with
  | job c => exact absurd rfl (hjob c)
  | addJobScheduler q a =>
    cases hexec
    exact ⟨Script.addJobScheduler_frame q a s (by decide),
      Script.addJobScheduler_frame q a s (by decide)⟩
  | updateJobScheduler q a =>
    cases hexec
    exact ⟨Script.updateJobScheduler_frame q a s (by decide),
      Script.updateJobScheduler_frame q a s (by decide)⟩
  | expireDeduplicationKey q d =>
    exact ⟨QueueCommand.exec_frame hexec (by simp [QueueCommand.writes]),
      QueueCommand.exec_frame hexec (by simp [QueueCommand.writes])⟩
  | elapseDeduplicationKey q d ms =>
    exact ⟨QueueCommand.exec_frame hexec (by simp [QueueCommand.writes]),
      QueueCommand.exec_frame hexec (by simp [QueueCommand.writes])⟩
  | cleanJobsInSet => exact hc.elim
  | drain => exact hc.elim
  | obliterate => exact hc.elim
  | removeUnprocessedChildren => exact hc.elim

/-- What is marked stays active. -/
theorem QueueCommand.exec_marksActive {c : QueueCommand} {r : Reply × Store} (h : MarksActive s)
    (hc : c.Processes) (hexec : c.exec s = some r) : MarksActive r.2 := by
  by_cases hjob : ∃ c', c = .job c'
  · obtain ⟨c, rfl⟩ := hjob
    exact Command.exec_marksActive h hc.1 hc.2 hexec
  · push Not at hjob
    obtain ⟨hactive, hstalled⟩ := QueueCommand.exec_marks hc hjob hexec
    intro hi
    rw [hstalled] at hi
    rw [hactive]
    exact h hi

/-- What a job script does to the stalled sets. -/
theorem Command.exec_stalled {c : Command} {r : Reply × Store} (h : MarksActive s)
    (hreal : c.RealTokens) (hremove : ∀ n p j b, c ≠ .removeJob n p j b)
    (hexec : c.exec s = some r) (p j : String) :
    j ∈ r.2 .stalled p ↔ ChecksQueue p (s, .job c, r.2) ∧ j ∈ r.2 (.list .active) p ∨
      (¬ ChecksQueue p (s, .job c, r.2) ∧ ¬ c.extends s p j ∧ ¬ c.ends s p j) ∧
        j ∈ s .stalled p := by
  by_cases hcheck : ∃ q m t n, c = .moveStalledJobsToWait q m t n
  · obtain ⟨q, m, t, n, rfl⟩ := hcheck
    cases hexec
    have hchecks : ChecksQueue p (s, .job (.moveStalledJobsToWait q m t n),
        (Script.moveStalledJobsToWait q m t n s).2) ↔ q = p ∧ EffectiveCheck q n s := by
      constructor
      · rintro ⟨m', t', n', heq, heff⟩
        obtain ⟨rfl, -, -, rfl⟩ := Command.moveStalledJobsToWait.inj (QueueCommand.job.inj heq)
        exact ⟨rfl, heff⟩
      · rintro ⟨rfl, heff⟩
        exact ⟨m, t, n, rfl, heff⟩
    have hkeeps : ¬ (Command.moveStalledJobsToWait q m t n).extends s p j ∧
        ¬ (Command.moveStalledJobsToWait q m t n).ends s p j := ⟨fun h => h, fun h => h⟩
    rw [hchecks]
    by_cases heff : EffectiveCheck q n s
    · obtain ⟨-, hchecked⟩ := moveStalledJobsToWait_effective heff m t
      by_cases hq : p = q
      · subst hq
        simp [hchecked.marked, heff]
      · simp [hchecked.stalled p hq, Ne.symm hq, hkeeps]
    · simp [moveStalledJobsToWait_idle heff, heff, hkeeps]
  · -- No other script marks a job.
    push Not at hcheck
    have hno : ¬ ChecksQueue p (s, .job c, r.2) := by
      rintro ⟨m, t, n, heq, -⟩
      exact hcheck p m t n (QueueCommand.job.inj heq)
    rw [(Command.exec_owner h hreal hcheck hremove hexec).stalled p j]
    simp only [hno, not_false_eq_true, false_and, false_or, true_and]
    tauto

/-- What one command does to the stalled sets. -/
theorem QueueCommand.exec_stalled {c : QueueCommand} {r : Reply × Store} (h : MarksActive s)
    (hc : c.Processes) (hexec : c.exec s = some r) (p j : String) :
    j ∈ r.2 .stalled p ↔ ChecksQueue p (s, c, r.2) ∧ j ∈ r.2 (.list .active) p ∨
      (¬ ChecksQueue p (s, c, r.2) ∧ ¬ c.extends s p j ∧ ¬ c.ends s p j) ∧ j ∈ s .stalled p := by
  by_cases hjob : ∃ c', c = .job c'
  · obtain ⟨c, rfl⟩ := hjob
    exact Command.exec_stalled h hc.1 hc.2 hexec p j
  · push Not at hjob
    have hno : ¬ ChecksQueue p (s, c, r.2) := by
      rintro ⟨m, t, n, heq, -⟩
      exact hjob _ heq
    have hkeeps : ¬ c.extends s p j ∧ ¬ c.ends s p j := by
      cases c with
      | job c => exact absurd rfl (hjob c)
      | _ => exact ⟨fun h => h, fun h => h⟩
    rw [(QueueCommand.exec_marks hc hjob hexec).2]
    simp [hno, hkeeps]

/-! ### Runs -/

/-- The stalled set of a queue, in terms of the history. -/
theorem mem_stalled_iff {steps : List (Store × QueueCommand × Store)}
    (run : Run (QueueStep fun _ c => c.Processes) .empty steps s) :
    MarksActive s ∧ ∀ p j, j ∈ s .stalled p ↔ ActiveSinceCheck p j steps := by
  refine run.induct (I := fun steps s => MarksActive s ∧
    ∀ p j, j ∈ s .stalled p ↔ ActiveSinceCheck p j steps) ?_ ?_
  · exact ⟨fun hj => absurd hj (MemberSet.notMem_empty _),
      fun p j => iff_of_false (MemberSet.notMem_empty j) not_since_nil⟩
  · rintro steps t c u ⟨hmarks, hmem⟩ ⟨hc, reply, hexec⟩
    refine ⟨QueueCommand.exec_marksActive hmarks hc hexec, fun p j => ?_⟩
    rw [QueueCommand.exec_stalled hmarks hc hexec, hmem, ActiveSinceCheck, ActiveSinceCheck,
      since_snoc]

/-- **Two-phase detection.** After any run, an effective check reclaims exactly the jobs that
were active at the end of the previous effective check, whose lock has not been extended and whose
activation has not ended since, and which have no lock now. Each of them leaves the active list
once and is put once at the right end of the wait list, the end jobs are popped from; its stalls
are counted, and its failure is deferred when it stalled too often and no existing scheduler owns
it. Nothing else is moved, and nothing else of any job is changed. Legacy markers are not jobs. -/
theorem stalled_check_reclaims_exactly {steps : List (Store × QueueCommand × Store)}
    (run : Run (QueueStep fun _ c => c.Processes) .empty steps s) {n : ℤ}
    (heff : EffectiveCheck p n s) (m t : ℤ) :
    ∃ reclaimed s', (QueueCommand.job (.moveStalledJobsToWait p m t n)).exec s =
        some (.ids reclaimed, s') ∧
      reclaimed.Nodup ∧
      (∀ j, isLegacyMarker j = false →
        (j ∈ reclaimed ↔ ActiveSinceCheck p j steps ∧ s .lock (p ++ j) = none)) ∧
      (∀ j ∈ reclaimed, isLegacyMarker j = false) ∧
      s' (.list .wait) p = s (.list .wait) p ++ reclaimed ∧
      (s' (.list .active) p).Sublist (s (.list .active) p) ∧
      (∀ j, isLegacyMarker j = false → (s (.list .active) p).count j =
        (s' (.list .active) p).count j + if j ∈ reclaimed then 1 else 0) ∧
      (∀ j ∈ reclaimed, ∃ job, (s .hash (p ++ j)).getD {} = job ∧
        s' .hash (p ++ j) = some { job with
          stc := job.stc + 1
          defa := if m < (job.stc + 1 : ℕ) ∧ ¬ isRepeatableJob p (p ++ j) s then
            some stalledFailure else job.defa }) ∧
      (∀ k, (∀ j ∈ reclaimed, k ≠ p ++ j) → s' .hash k = s .hash k) ∧
      (∀ q, q ≠ p → s' (.list .wait) q = s (.list .wait) q ∧
        s' (.list .active) q = s (.list .active) q) ∧
      s' (.list .paused) = s (.list .paused) ∧ ∀ z, s' (.zset z) = s (.zset z) := by
  obtain ⟨hmarks, hstalled⟩ := mem_stalled_iff run
  -- The check takes back what the marks of the run say, and what it takes back is a list of them.
  obtain ⟨hids, hchecked⟩ := moveStalledJobsToWait_effective heff m t
  set reclaimed := reclaimedJobs p s (s .stalled p).members with hreclaimed
  refine ⟨reclaimed, (Script.moveStalledJobsToWait p m t n s).2, ?_, ?_, fun j hj => ?_,
    fun j hj => ?_, ?_, hchecked.sublist, hchecked.count, fun j hj => ⟨_, rfl, ?_⟩, fun k hk => ?_,
    fun q hq => ⟨?_, hchecked.others q hq⟩, ?_, fun z => ?_⟩
  · rw [← hids]
    rfl
  · exact (s .stalled p).nodup.filter _
  · rw [hreclaimed, mem_reclaimedJobs, ← hstalled]
    constructor
    · rintro ⟨hst, -, hlock, -⟩
      exact ⟨hst, hlock⟩
    · rintro ⟨hst, hlock⟩
      exact ⟨hst, hj, hlock, hmarks hst⟩
  · exact (mem_reclaimedJobs.mp hj).2.1
  · rw [hchecked.wait, Function.update_self]
  · rw [hchecked.hash, if_pos (mem_map_append.mpr hj)]
    rfl
  · rw [hchecked.hash, if_neg]
    intro hmap
    obtain ⟨i, hi, rfl⟩ := List.mem_map.mp hmap
    exact hk i hi rfl
  · rw [hchecked.wait, Function.update_of_ne hq]
  · exact hchecked.other _ (by decide)
  · exact hchecked.other _ (by cases z <;> decide)

/-- A worker fetches a job and the iteration of a scheduler, a check marks them, and both locks
expire. -/
def expiredLocks : List QueueCommand :=
  let fetch (t : ℤ) : QueueCommand :=
    .job (.moveToActive "bull:q:" t { token := "A:0", lockDuration := 30000 })
  [.job (.addStandardJob "bull:q:" { name := "n", data := "", timestamp := 1 }),
   .addJobScheduler "bull:q:"
     { nextMillis := 0, opts := { name := "tick", every := some 1000 }, jobSchedulerId := "s"
       templateData := "", timestamp := 1000 },
   fetch 1001, fetch 1002,
   .job (.moveStalledJobsToWait "bull:q:" 0 1010 30000),
   .job (.expireLock "bull:q:1"), .job (.expireLock "bull:q:repeat:s:1000"),
   .job (.expireStalledCheck "bull:q:")]

/-- The store these commands lead to. -/
def expiredLocksStore : Store := (runQueue expiredLocks .empty).getD .empty

theorem expiredLocks_reachable :
    QueueReachable (fun _ c => c.Processes) .empty expiredLocksStore := by
  refine (QueueReachable.refl _).of_runQueue (fun c (hc : c ∈ expiredLocks) s => ?_) rfl
  have hfetch : ∀ t, (QueueCommand.job
      (.moveToActive "bull:q:" t { token := "A:0", lockDuration := 30000 })).Processes := fun t =>
    ⟨⟨fun _ _ _ h => (by cases h), fun _ _ h => (by cases h; decide)⟩,
      fun _ _ _ _ h => (by cases h)⟩
  simp only [expiredLocks, List.mem_cons, List.not_mem_nil, or_false] at hc
  rcases hc with rfl | rfl | rfl | rfl | rfl | rfl | rfl | rfl
  · exact ⟨⟨fun _ _ _ h => (by cases h), fun _ _ h => (by cases h)⟩, fun _ _ _ _ h => (by cases h)⟩
  · exact trivial
  · exact hfetch 1001
  · exact hfetch 1002
  all_goals
    exact ⟨⟨fun _ _ _ h => (by cases h), fun _ _ h => (by cases h)⟩, fun _ _ _ _ h => (by cases h)⟩

/-- The next check reclaims both and defers the failure of the job, which may not stall at all, but
not that of the iteration. -/
theorem expiredLocks_reclaimed :
    ∃ s', (QueueCommand.job (.moveStalledJobsToWait "bull:q:" 0 1040 30000)).exec
        expiredLocksStore = some (.ids ["1", "repeat:s:1000"], s') ∧
      s' (.list .wait) "bull:q:" = ["1", "repeat:s:1000"] ∧
      (s' .hash "bull:q:1").bind Job.defa = some stalledFailure ∧
      (s' .hash "bull:q:repeat:s:1000").bind Job.defa = none := by
  obtain ⟨steps, run⟩ := expiredLocks_reachable
  obtain ⟨reclaimed, s', hexec, -, -, -, hwait, -, -, hhash, -⟩ :=
    stalled_check_reclaims_exactly run (p := "bull:q:") (n := 30000) (by decide) 0 1040
  have hids : (Script.moveStalledJobsToWait "bull:q:" 0 1040 30000 expiredLocksStore).1 =
      .ids ["1", "repeat:s:1000"] := by decide
  obtain rfl : reclaimed = ["1", "repeat:s:1000"] := by
    rw [Option.some.inj hexec] at hids
    exact Reply.ids.inj hids
  obtain ⟨job, hjob, hset⟩ := hhash "1" (by simp)
  obtain ⟨job', hjob', hset'⟩ := hhash "repeat:s:1000" (by simp)
  refine ⟨s', hexec, hwait.trans (by decide), ?_, ?_⟩
  · rw [show "bull:q:1" = "bull:q:" ++ "1" from rfl, hset, ← hjob]
    decide
  · rw [show "bull:q:repeat:s:1000" = "bull:q:" ++ "repeat:s:1000" from rfl, hset', ← hjob']
    decide

end BullMQ
