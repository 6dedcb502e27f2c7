import BullMQ.Dedup.Numbered
import BullMQ.Placement.StalledCheck
import BullMQ.Model.QueueCommand

/-!
# Locks exclude each other

Ownership is spread over the lock of a job, the active list and the stalled set. In the runs in
which every token is a real one and no kept successor is requeued under a given id that a job has
(`QueueCommand.Owner`) they agree (`Owned`): a locked job is active, exactly once, and only the
token in the lock takes a job out of the active list. A worker that has lost its lock does not get
it back unless the job is handed to it again, and until then its finishing calls change nothing:
they are refused before they write (`lock_excludes_other_tokens`).

`retryJob` is the exception by design. It promotes the due delayed jobs of the queue before it
looks at the job it is about, so that a call with a lost token still promotes jobs, among them
possibly its own (`exclusion_fails_for_retries_and_kept_successors`).
-/

namespace BullMQ

open Redis Transition

variable {Q : QueueSet} {s s' : Store} {p j t : String}

/-! ### Locks, active lists and stalled sets in agreement -/

/-- The job scripts of the runs: with real tokens, without removal on request, and without a
successor that is requeued under a given id that a job has. -/
structure OwnerCommand (Q : QueueSet) (s : Store) (c : Command) : Prop where
  named : c.Named Q
  realTokens : c.RealTokens
  apart : c.KeepsApart s

theorem OwnerCommand.intro {c : Command} (hnamed : c.Named Q) (hreal : c.RealTokens)
    (hfin : ∀ p a, c ≠ .moveToFinished p a) : OwnerCommand Q s c :=
  ⟨hnamed, hreal, fun p a h => absurd h (hfin p a)⟩

theorem OwnerCommand.ne_removeJob {c : Command} (hc : OwnerCommand Q s c) (n : ℕ) (p j : String)
    (b : Bool) : c ≠ .removeJob n p j b := by
  rintro rfl
  exact hc.named

/-- The steps of the runs: job scripts, and the time that passes for deduplication keys. -/
def QueueCommand.Owner (Q : QueueSet) (s : Store) : QueueCommand → Prop
  | job c => OwnerCommand Q s c
  | expireDeduplicationKey .. | elapseDeduplicationKey .. => True
  | _ => False

/-- A locked job is active, and what is marked as stalled is active. -/
structure Owned (Q : QueueSet) (s : Store) : Prop extends Numbered Q s where
  locked : ∀ {k}, s .lock k ≠ none →
    ∃ p j, Q.keySpace.Valid p j ∧ k = p ++ j ∧ j ∈ s (.list .active) p
  marks : MarksActive s

namespace Owned

theorem empty (Q : QueueSet) : Owned Q .empty where
  toNumbered := .empty Q
  locked h := absurd rfl h
  marks h := by cases h

/-- A command that is no stalled check keeps the agreement. -/
theorem step {c : Command} (h : Owned Q s) (hs' : Numbered Q s') (hstep : OwnerStep c s s') :
    Owned Q s' where
  toNumbered := hs'
  locked {k} hk := by
    obtain ⟨t, ht⟩ := Option.ne_none_iff_exists'.mp hk
    obtain ⟨hlock, hends⟩ | ⟨p, j, hhand, rfl⟩ := hstep.lock ht
    · obtain ⟨p, j, hv, rfl, hact⟩ := h.locked (k := k) (by simp [hlock])
      exact ⟨p, j, hv, rfl, hstep.active (.inl ⟨hact, fun he => hends p j he rfl⟩)⟩
    · have hact := hstep.active (.inr hhand.1)
      exact ⟨p, j, hs'.valid_list hact, rfl, hact⟩
  marks := hstep.marksActive h.marks

/-- A stalled check keeps the agreement: what it reclaims is unlocked. -/
theorem checked {m : ℤ} {l : List String} (h : Owned Q s) (hs' : Numbered Q s')
    (hl : ∀ i ∈ l, s .lock (p ++ i) = none) (hc : Checked p m l s s') : Owned Q s' where
  toNumbered := hs'
  locked {k} hk := by
    rw [hc.other _ (by decide)] at hk
    obtain ⟨q, i, hv, rfl, hact⟩ := h.locked hk
    refine ⟨q, i, hv, rfl, ?_⟩
    by_cases hq : q = p
    · subst hq
      exact (hc.toTakenBack.mem_iff hv.2.2 fun hi => hk (hl i hi)).mpr hact
    · rwa [hc.others q hq]
  marks := hc.marksActive h.marks

/-- **One command** keeps locks, active lists and stalled sets in agreement. -/
theorem exec {c : Command} {r : Reply × Store} (h : Owned Q s) (hc : OwnerCommand Q s c)
    (hexec : c.exec s = some r) : Owned Q r.2 := by
  have hnumbered := h.toNumbered.exec hc.named hc.apart hexec
  by_cases hcheck : ∃ p m t n, c = .moveStalledJobsToWait p m t n
  · obtain ⟨p, m, t, n, rfl⟩ := hcheck
    cases hexec
    by_cases heff : EffectiveCheck p n s
    · obtain ⟨-, hchecked⟩ := moveStalledJobsToWait_effective heff m t
      exact h.checked hnumbered (fun i hi => (mem_reclaimedJobs.mp hi).2.2.1) hchecked
    · rw [moveStalledJobsToWait_idle heff]
      exact h
  · push Not at hcheck
    exact h.step hnumbered
      (Command.exec_owner h.marks hc.realTokens hcheck hc.ne_removeJob hexec)

/-- **One step** keeps the agreement. -/
theorem queueExec {c : QueueCommand} {r : Reply × Store} (h : Owned Q s) (hc : c.Owner Q s)
    (hexec : c.exec s = some r) : Owned Q r.2 := by
  -- Time that passes for a deduplication key.
  have hkey : c.writes = [.de] → Owned Q r.2 := fun hwrites => by
    have hs : ∀ {κ : Kind}, κ ∉ [Kind.de] → r.2 κ = s κ := fun hκ =>
      QueueCommand.exec_frame hexec (hwrites ▸ hκ)
    refine ⟨h.toNumbered.retains (.of_same h.toSound (.of_frame (by decide) hs))
      (.of_frame (by decide) hs) fun q => by rw [hs (by decide)], fun {k} hk => ?_,
        fun {q i} hi => ?_⟩
    · rw [hs (by decide)] at hk ⊢
      exact h.locked hk
    · rw [hs (by decide)] at hi ⊢
      exact h.marks hi
  cases c with
  | job c => exact h.exec hc hexec
  | expireDeduplicationKey p d => exact hkey rfl
  | elapseDeduplicationKey p d ms => exact hkey rfl
  | _ => exact hc.elim

/-- Every state of a run is in agreement. -/
theorem of_reachable (h : QueueReachable (fun s c => c.Owner Q s) .empty s) : Owned Q s := by
  obtain ⟨steps, run⟩ := h
  exact run.invariant (Owned.empty Q) fun t c u ht ⟨hc, reply, hexec⟩ => ht.queueExec hc hexec

end Owned

/-! ### Tokens -/

/-- A finishing call that does not own the lock is refused. -/
theorem Command.exec_of_lock_ne {c : Command} {r : Reply × Store}
    (hf : c.finishing = some (p, j, t)) (ht : t ≠ "0") (hlock : s .lock (p ++ j) ≠ some t)
    (hexec : c.exec s = some r) :
    r.2 = s ∨ ∃ a, c = .retryJob p a ∧
      r.2 = promoteDelayedJobs p a.timestamp (isQueuePausedOrMaxed p s) s := by
  have hmay : ¬ MayRelease s p j t := not_or.mpr ⟨ht, hlock⟩
  cases c with
  | moveToFinished q a =>
    cases hf
    cases hexec
    obtain ⟨-, n, -, -, hres⟩ | ⟨hrel, -⟩ | ⟨hfin, -⟩ := Script.moveToFinished_cases p a s
    · exact .inl (by rw [hres])
    · exact absurd hrel.mayRelease hmay
    · exact absurd hfin.1.mayRelease hmay
  | moveToDelayed q a =>
    cases hf
    cases hexec
    obtain ⟨-, n, -, -, hres⟩ | ⟨hrel, -⟩ | ⟨hg, -⟩ := Script.moveToDelayed_cases p a s
    · exact .inl (by rw [hres])
    · exact absurd hrel.mayRelease hmay
    · exact absurd hg.mayRelease hmay
  | moveToWaitingChildren q i t' k ts =>
    cases hf
    cases hexec
    obtain ⟨n, -, hres⟩ | ⟨hrel, -⟩ | ⟨hg, -⟩ := Script.moveToWaitingChildren_cases p j t k ts s
    · exact .inl (by rw [hres])
    · exact absurd hrel.mayRelease hmay
    · exact absurd hg.mayRelease hmay
  | moveJobFromActiveToWait q i t' =>
    cases hf
    cases hexec
    obtain ⟨-, n, -, hres⟩ | ⟨hrel, -⟩ | ⟨hg, -⟩ := Script.moveJobFromActiveToWait_cases p j t s
    · exact .inl (by rw [hres])
    · exact absurd hrel.mayRelease hmay
    · exact absurd hg.mayRelease hmay
  | retryJob q a =>
    cases hf
    cases hexec
    obtain ⟨s₀, hs₀, hcases⟩ := Script.retryJob_cases p a s
    -- The promotion leaves the locks alone.
    have hmay₀ : ¬ MayRelease s₀ p a.jobId a.token := by
      rw [MayRelease, hs₀, promoteDelayedJobs_frame _ _ _ _ (by decide)]
      exact hmay
    refine .inr ⟨a, rfl, ?_⟩
    obtain ⟨-, n, -, -, hres⟩ | ⟨hrel, -⟩ | ⟨hg, -⟩ := hcases
    · rw [← hs₀]
      exact congrArg Prod.snd hres
    · exact absurd hrel.mayRelease hmay₀
    · exact absurd hg.mayRelease hmay₀
  | _ => cases hf

/-- A lock is not held by a token it was not held by, unless the job is handed out to it. -/
theorem Command.exec_lock_ne {c : Command} {r : Reply × Store} (h : Owned Q s)
    (hc : OwnerCommand Q s c) (hexec : c.exec s = some r) (hv : Q.keySpace.Valid p j)
    (hlock : s .lock (p ++ j) ≠ some t) (hno : ¬ c.hands s p j t) :
    r.2 .lock (p ++ j) ≠ some t := by
  intro hlock'
  by_cases hcheck : ∃ p m t n, c = .moveStalledJobsToWait p m t n
  · obtain ⟨q, m, ts, n, rfl⟩ := hcheck
    rw [Command.exec_frame hexec (by simp only [Command.writes]; decide)] at hlock'
    exact hlock hlock'
  · push Not at hcheck
    have hstep := Command.exec_owner h.marks hc.realTokens hcheck hc.ne_removeJob hexec
    obtain ⟨hsame, -⟩ | ⟨q, i, hhand, hk⟩ := hstep.lock hlock'
    · exact hlock hsame
    · have hact : i ∈ r.2 (.list .active) q := hstep.active (.inr hhand.1)
      obtain ⟨rfl, rfl⟩ := Q.keySpace.inj hv ((h.exec hc hexec).valid_list hact) hk
      exact hno hhand

/-- A step hands a job out under a token. -/
def QueueCommand.hands (c : QueueCommand) (s : Store) (p j t : String) : Prop :=
  match c with
  | job c => c.hands s p j t
  | _ => False

/-- The same of a step of the runs. -/
theorem QueueCommand.exec_lock_ne {c : QueueCommand} {r : Reply × Store} (h : Owned Q s)
    (hc : c.Owner Q s) (hexec : c.exec s = some r) (hv : Q.keySpace.Valid p j)
    (hlock : s .lock (p ++ j) ≠ some t) (hno : ¬ c.hands s p j t) :
    r.2 .lock (p ++ j) ≠ some t := by
  cases c with
  | job c => exact Command.exec_lock_ne h hc hexec hv hlock hno
  | expireDeduplicationKey q d =>
    rwa [QueueCommand.exec_frame hexec (by simp [QueueCommand.writes])]
  | elapseDeduplicationKey q d ms =>
    rwa [QueueCommand.exec_frame hexec (by simp [QueueCommand.writes])]
  | _ => exact hc.elim

/-- **Lock mutual exclusion.** In every state of a run, a lock is that of a job which is in the
active list of its queue exactly once; a finishing call takes its job out of the active list only
if its token is in the lock; and a token that is not in the lock of a job does not get there before
the job is handed out to it, and until then no finishing call with it changes anything, except
that `retryJob` promotes due delayed jobs as always. -/
theorem lock_excludes_other_tokens (h : QueueReachable (fun s c => c.Owner Q s) .empty s) :
    (∀ k, s .lock k ≠ none →
      ∃ p j, Q.keySpace.Valid p j ∧ k = p ++ j ∧ (s (.list .active) p).count j = 1) ∧
    (∀ (c : Command) p j t (r : Reply × Store), c.finishing = some (p, j, t) → t ≠ "0" →
      c.exec s = some r → j ∈ s (.list .active) p → j ∉ r.2 (.list .active) p →
      s .lock (p ++ j) = some t) ∧
    ∀ p j t, Q.keySpace.Valid p j → t ≠ "0" → s .lock (p ++ j) ≠ some t →
      ∀ steps s', Run (QueueStep fun s c => c.Owner Q s) s steps s' →
        (∀ e ∈ steps, ¬ e.2.1.hands e.1 p j t) →
        s' .lock (p ++ j) ≠ some t ∧
        ∀ (c : Command) (r : Reply × Store), c.finishing = some (p, j, t) → c.exec s' = some r →
          r.2 = s' ∨ ∃ a, c = .retryJob p a ∧
            r.2 = promoteDelayedJobs p a.timestamp (isQueuePausedOrMaxed p s') s' := by
  have howned := Owned.of_reachable h
  refine ⟨fun k hk => ?_, fun c p j t r hf ht hexec hact hleft => ?_,
    fun p j t hv ht hlock steps s' run hno => ?_⟩
  · obtain ⟨p, j, hv, rfl, hact⟩ := howned.locked hk
    refine ⟨p, j, hv, rfl, ?_⟩
    have hpos : 0 < (s (.list .active) p).count j := List.count_pos_iff.mpr hact
    have hle : (s (.list .active) p).count j ≤ 1 :=
      (countIn_le_occ s (.inl .active) p j).trans (howned.le_one p j)
    omega
  · by_contra hlock
    obtain hres | ⟨a, -, hres⟩ := Command.exec_of_lock_ne hf ht hlock hexec
    · exact hleft (hres ▸ hact)
    · rw [hres, promoteDelayedJobs_frame _ _ _ _ (by decide)] at hleft
      exact hleft hact
  · -- The lock stays with others along the run, as long as nobody hands the job to the token.
    have hkeep : Owned Q s' ∧ ((∀ e ∈ steps, ¬ e.2.1.hands e.1 p j t) →
        s' .lock (p ++ j) ≠ some t) := by
      refine run.induct (I := fun steps u => Owned Q u ∧
        ((∀ e ∈ steps, ¬ e.2.1.hands e.1 p j t) → u .lock (p ++ j) ≠ some t)) ?_ ?_
      · exact ⟨howned, fun _ => hlock⟩
      · rintro steps u c v ⟨hu, hne⟩ ⟨hc, reply, hexec⟩
        refine ⟨hu.queueExec hc hexec, fun hno => ?_⟩
        exact QueueCommand.exec_lock_ne hu hc hexec hv (hne fun e he => hno e (by simp [he]))
          (hno (u, c, v) (by simp))
    have hlock' := hkeep.2 hno
    exact ⟨hlock', fun c r hf hexec => Command.exec_of_lock_ne hf ht hlock' hexec⟩

/-! ### A lost token -/

/-- Worker `A` fetches a deduplicated job, for which a successor is kept, and loses its lock; the
job is reclaimed, handed to worker `B`, and delayed by it. -/
def lostToken : List Command :=
  let de : DeduplicationOpts := { id := "d", keepLastIfActive := true }
  [.addStandardJob "bull:q:" { name := "n", data := "", timestamp := 1, opts := { de := some de } },
   .moveToActive "bull:q:" 2 { token := "A:0", lockDuration := 30000 },
   .addStandardJob "bull:q:" { name := "n", data := "", timestamp := 3, opts := { de := some de } },
   .moveStalledJobsToWait "bull:q:" 1 10 30000,
   .expireLock "bull:q:1",
   .expireStalledCheck "bull:q:",
   .moveStalledJobsToWait "bull:q:" 1 40 30000,
   .moveToActive "bull:q:" 50 { token := "B:0", lockDuration := 30000 },
   .moveToDelayed "bull:q:" { jobId := "1", timestamp := 60, token := "B:0", delay := 100 }]

/-- The store these commands lead to. -/
def lostTokenStore : Store := (runCommands lostToken .empty).getD .empty

theorem lostToken_reachable :
    QueueReachable (fun s c => c.Owner (.ofPrefix "bull") s) .empty lostTokenStore := by
  have hrun : runQueue (lostToken.map .job) .empty = some lostTokenStore := rfl
  refine (QueueReachable.refl _).of_runQueue (fun c hmem s => ?_) hrun
  obtain ⟨c, hc, rfl⟩ := List.mem_map.mp hmem
  have hqueue : (QueueSet.ofPrefix "bull").Base "bull:q:" := ⟨"q", by decide, rfl⟩
  simp only [lostToken, List.mem_cons, List.not_mem_nil, or_false] at hc
  refine .intro ?_ ⟨fun p j t h => ?_, fun p o h => ?_⟩ fun p a h => ?_
  · obtain rfl | rfl | rfl | rfl | rfl | rfl | rfl | rfl | rfl := hc <;>
      first
        | exact ⟨hqueue, fun h => absurd rfl h⟩
        | trivial
  · obtain rfl | rfl | rfl | rfl | rfl | rfl | rfl | rfl | rfl := hc <;>
      first
        | cases h; done
        | cases h; decide
  · obtain rfl | rfl | rfl | rfl | rfl | rfl | rfl | rfl | rfl := hc <;>
      first
        | cases h; done
        | cases h; decide
  · obtain rfl | rfl | rfl | rfl | rfl | rfl | rfl | rfl | rfl := hc <;> cases h

/-- A completion with the lost token. -/
def lostTokenCompletion : Command :=
  .moveToFinished "bull:q:"
    { jobId := "1", timestamp := 70, value := "", target := .completed, fetchNext := false
      opts := { token := "A:0", lockDuration := 30000 } }

/-- It changes nothing. -/
theorem lostToken_completion_refused :
    ∃ r, lostTokenCompletion.exec lostTokenStore = some r ∧ r.2 = lostTokenStore := by
  have hv : (QueueSet.ofPrefix "bull").keySpace.Valid "bull:q:" "1" :=
    ⟨⟨"q", by decide, rfl⟩, by decide, by decide⟩
  obtain ⟨-, -, hrun⟩ := lock_excludes_other_tokens lostToken_reachable
  obtain ⟨-, hcall⟩ := hrun "bull:q:" "1" "A:0" hv (by decide) (by decide) [] _ .nil (by simp)
  refine ⟨_, rfl, ?_⟩
  rcases hcall lostTokenCompletion _ rfl rfl with h | ⟨a, ha, -⟩
  · exact h
  · cases ha

/-- A retry with the lost token, after the delay. -/
def lostTokenRetry : Command :=
  .retryJob "bull:q:" { jobId := "1", timestamp := 1000, token := "A:0", pushCmd := .lpush }

/-- While a deduplicated job is active, the successor that is kept for it and another job are added
under the same id; the job is finished and what waits is fetched. -/
def keptTwice : List Command :=
  let de : DeduplicationOpts := { id := "d", keepLastIfActive := true }
  [.addStandardJob "bull:q:"
     { customId := "w", name := "n", data := "", timestamp := 1, opts := { de := some de } },
   .moveToActive "bull:q:" 2 { token := "A:0", lockDuration := 30000 },
   .addStandardJob "bull:q:"
     { customId := "x", name := "n", data := "", timestamp := 3, opts := { de := some de } },
   .addStandardJob "bull:q:" { customId := "x", name := "n", data := "", timestamp := 4 },
   .moveToActive "bull:q:" 5 { token := "B:0", lockDuration := 30000 },
   .moveToFinished "bull:q:"
     { jobId := "w", timestamp := 6, value := "", target := .completed, fetchNext := false
       opts := { token := "A:0", lockDuration := 30000 } },
   .moveToActive "bull:q:" 7 { token := "C:0", lockDuration := 30000 }]

/-- The store these commands lead to. -/
def keptTwiceStore : Store := (runCommands keptTwice .empty).getD .empty

/-- Where exclusion ends. A retry with a lost token moves the job of another worker out of the
delayed set; and `requeueDeduplicatedJob`, which does not look whether its id is taken, lets a
locked job be active twice. -/
theorem exclusion_fails_for_retries_and_kept_successors :
    (runCommands lostToken .empty = some lostTokenStore ∧
      lostTokenStore .lock "bull:q:1" ≠ some "A:0" ∧
      "1" ∈ lostTokenStore (.zset .delayed) "bull:q:" ∧
      ∃ r, lostTokenRetry.exec lostTokenStore = some r ∧
        "1" ∉ r.2 (.zset .delayed) "bull:q:" ∧ r.2 (.list .wait) "bull:q:" = ["1"]) ∧
    runCommands keptTwice .empty = some keptTwiceStore ∧
      keptTwiceStore .lock "bull:q:x" = some "C:0" ∧
      keptTwiceStore (.list .active) "bull:q:" = ["x", "x"] := by
  refine ⟨⟨rfl, by decide, by decide, _, rfl, by decide, by decide⟩, rfl, by decide, by decide⟩

end BullMQ
