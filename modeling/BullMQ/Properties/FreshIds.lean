import BullMQ.Dedup.Finish
import BullMQ.Naming.Obliterated

/-!
# Ids drawn from the counter are fresh

Every id that a queue has handed out, or has reserved in a payload, is at most the value of its
counter (`WellCounted`): scripts count up and bring in no names of their own. The one script that
deletes the counter is `obliterate`, which leaves the jobs that wait for children elsewhere; after
it the next ids are theirs. Apart from this an add without an id of its own finds its id free
(`auto_ids_fresh`).
-/

namespace BullMQ

open Redis Transition

/-! ### Operations -/

/-- A script about jobs, queues or schedulers. -/
inductive Operation
  | script (c : QueueCommand)
  | removeJobScheduler (p jobSchedulerId : String)
  | removeDeduplicationKey (p deduplicationId jobId : String)

/-- Execute an operation. -/
def Operation.exec : Operation → Store → Option (Reply × Store)
  | script c, s => c.exec s
  | removeJobScheduler p S, s => some (Script.removeJobScheduler p S s)
  | removeDeduplicationKey p d j, s => some (Script.removeDeduplicationKey p d j s)

/-- One operation, out of those that are allowed in a state. -/
def OperationStep (Allowed : Store → Operation → Prop) (s : Store) (o : Operation) (s' : Store) :
    Prop :=
  Allowed s o ∧ ∃ reply, o.exec s = some (reply, s')

/-- The ids that `Job.validateOptions` admits are no integers. -/
def AddArgs.Admitted (a : AddArgs) : Prop := ∀ n : ℕ, a.customId ≠ n.repr

/-- A job script on queues of `Q`, with an admitted id. -/
def Command.Admitted (Q : QueueSet) : Command → Prop
  | .addStandardJob p a | .addDelayedJob p a | .addPrioritizedJob p a | .addParentJob p a =>
    Q.Base p ∧ a.Admitted
  | .moveToActive p .. | .moveToFinished p .. | .moveToDelayed p .. | .retryJob p ..
  | .moveStalledJobsToWait p .. | .promote p .. => Q.Base p
  | _ => True

/-- An operation on queues of `Q`, with an admitted id. -/
def Operation.Admitted (Q : QueueSet) : Operation → Prop
  | .script (.job c) => c.Admitted Q
  | .script (.addJobScheduler p _) | .script (.updateJobScheduler p _)
  | .script (.obliterate p ..) => Q.Base p
  | _ => True

/-- An operation that does not reset a counter while there are jobs that were counted by it: an
obliterate that goes on to delete the counter is called where it deletes all of them. -/
def Operation.KeepsCount (s : Store) : Operation → Prop
  | .script (.obliterate p count force) =>
    (Script.obliterate p count force s).1 = .code 0 → Clearable s p
  | _ => True

/-! ### The counter -/

/-- Nothing goes by an id that the counter has not reached. -/
def WellCounted (Q : QueueSet) (s : Store) : Prop :=
  ∀ p, Q.Base p → ∀ n, s .id p < n → Unheard p n.repr s

section Counter

variable {Q : QueueSet} {p q j : String} {s s' : Store}

/-- The counters do not go back, and ids beyond them stay unheard of. -/
structure CountsOn (Q : QueueSet) (s s' : Store) : Prop where
  le : ∀ p, s .id p ≤ s' .id p
  unheard : ∀ p, Q.Base p → ∀ n, s' .id p < n → Unheard p n.repr s → Unheard p n.repr s'

theorem CountsOn.counted (h : CountsOn Q s s') (hs : WellCounted Q s) : WellCounted Q s' :=
  fun p hp n hn => h.unheard p hp n hn (hs p hp n ((h.le p).trans_lt hn))

theorem CountsOn.of_id (hid : s' .id = s .id)
    (h : ∀ p, Q.Base p → ∀ n : ℕ, Unheard p n.repr s → Unheard p n.repr s') : CountsOn Q s s' where
  le p := by rw [hid]
  unheard p hp n _ := h p hp n

theorem CountsOn.of_succ (hid : s' .id = Function.update (s .id) q (s .id q + 1))
    (h : ∀ p, Q.Base p → ∀ n : ℕ, (p = q → s .id q + 1 < n) → Unheard p n.repr s →
      Unheard p n.repr s') : CountsOn Q s s' where
  le p := by
    rw [hid, Function.update_apply]
    split
    · next hp => exact hp ▸ Nat.le_succ _
    · exact le_rfl
  unheard p hp n hn := by
    refine h p hp n fun hpq => ?_
    rwa [hid, hpq, Function.update_self] at hn

/-- An add counts up, or changes nothing. -/
theorem addJobWith_id {mode : AddMode} (hmode : mode.Framed) (p : String) (a : AddArgs)
    (s : Store) :
    (addJobWith mode p a s).2 = s ∨
      (addJobWith mode p a s).2 .id = Function.update (s .id) p (s .id p + 1) := by
  have hdraw : drawId p s .id = Function.update (s .id) p (s .id p + 1) := by
    rw [drawId, getOrSetMaxEvents_frame _ _ (by decide), Keyspace.modify_self]
  obtain ⟨-, heq⟩ | ⟨-, -, -, heq⟩ | ⟨i, -, -, heq⟩ := addJobWith_ends mode p a s <;> rw [heq]
  · exact .inl rfl
  · exact .inr (by rw [handleDuplicatedJob_frame _ _ _ _ _ (by decide), hdraw])
  · exact .inr (by rw [addNewJob_frame hmode _ _ _ _ (by decide) (by decide), hdraw])

theorem addJobWith_countsOn {mode : AddMode} (hframed : mode.Framed) (hq : Q.Base q)
    (hmode : Unheard.Names Q q mode) {a : AddArgs} (ha : a.Admitted) :
    CountsOn Q s (addJobWith mode q a s).2 := by
  obtain heq | hid := addJobWith_id hframed q a s
  · rw [heq]
    exact .of_id rfl fun _ _ _ h => h
  · refine .of_succ hid fun p hp n hn h => h.addJobWith hmode hp hq ?_ fun _ => ha n
    rintro rfl - heq
    exact absurd (hn rfl) (by rw [repr_inj heq]; exact lt_irrefl _)

theorem moveToFinished_id_le (p : String) (a : FinishArgs) (s : Store) (q : String) :
    s .id q ≤ (Script.moveToFinished p a s).2 .id q := by
  obtain ⟨-, n, -, -, heq⟩ | ⟨-, heq⟩ | ⟨-, heq⟩ := Script.moveToFinished_cases p a s <;> rw [heq]
  · rw [releasedJob_frame _ _ _ _ _ (by decide)]
  · rw [fetchOrDrain_frame _ _ _ (by decide)]
    refine le_of_eq_of_le ?_ (finishJob_id_le ..)
    rw [leftActive_frame _ _ _ _ _ (by decide)]

/-- A command that leaves the counters alone and brings in no names. -/
theorem countsOn_exec {c : Command} (hc : c.Admitted Q) {r : Reply × Store}
    (hexec : c.exec s = some r) : CountsOn Q s r.2 := by
  -- A command that does not write the counter only has to bring in no number as a name.
  have hsame : Kind.id ∉ c.writes → (∀ p, Q.Base p → ∀ n : ℕ, Unheard p n.repr s →
      Unheard p n.repr r.2) → CountsOn Q s r.2 := fun hw h =>
    .of_id (Command.exec_frame hexec hw) h
  cases c with
  | addStandardJob p a =>
    cases hexec
    exact addJobWith_countsOn (standardMode_framed p) hc.1 (Unheard.standardMode_names hc.1) hc.2
  | addDelayedJob p a =>
    cases hexec
    exact addJobWith_countsOn (delayedMode_framed p) hc.1 (Unheard.delayedMode_names hc.1) hc.2
  | addPrioritizedJob p a =>
    cases hexec
    exact addJobWith_countsOn (prioritizedMode_framed p) hc.1 (Unheard.prioritizedMode_names hc.1)
      hc.2
  | addParentJob p a =>
    cases hexec
    exact addJobWith_countsOn (parentMode_framed p) hc.1 (Unheard.parentMode_names hc.1) hc.2
  | moveToFinished p a =>
    cases hexec
    exact ⟨moveToFinished_id_le p a s, fun q hq n _ h => h.moveToFinished hq hc a⟩
  | moveToActive p t o =>
    cases hexec
    exact hsame (by simp only [Command.writes]; decide) fun q hq n h => h.moveToActive hq hc t o
  | moveToDelayed p a =>
    cases hexec
    exact hsame (by simp only [Command.writes]; decide) fun q hq n h => h.moveToDelayed hq hc a
  | moveToWaitingChildren p j t c ts =>
    cases hexec
    exact hsame (by simp only [Command.writes]; decide) fun q hq n h =>
      h.moveToWaitingChildren p j t c ts
  | retryJob p a =>
    cases hexec
    exact hsame (by simp only [Command.writes]; decide) fun q hq n h => h.retryJob hq hc a
  | moveJobFromActiveToWait p j t =>
    cases hexec
    exact hsame (by simp only [Command.writes]; decide) fun q hq n h =>
      h.moveJobFromActiveToWait p j t
  | moveStalledJobsToWait p m t c =>
    cases hexec
    exact hsame (by simp only [Command.writes]; decide) fun q hq n h =>
      h.moveStalledJobsToWait hq hc m t c
  | promote p j =>
    cases hexec
    exact hsame (by simp only [Command.writes]; decide) fun q hq n h => h.promote hq hc j
  | changeDelay p d t j =>
    cases hexec
    exact hsame (by simp only [Command.writes]; decide) fun q hq n h => h.changeDelay p d t j
  | changePriority p n j l =>
    cases hexec
    exact hsame (by simp only [Command.writes]; decide) fun q hq m h => h.changePriority p n j l
  | reprocessJob p a =>
    cases hexec
    exact hsame (by simp only [Command.writes]; decide) fun q hq n h => h.reprocessJob p a
  | moveJobsToWait p st m t =>
    cases hexec
    exact hsame (by simp only [Command.writes]; decide) fun q hq n h => h.moveJobsToWait p st m t
  | pause p b e =>
    cases hexec
    exact hsame (by simp only [Command.writes]; decide) fun q hq n h => h.pause p b e
  | removeJob m p j b =>
    exact hsame (by simp only [Command.writes]; decide) fun q hq n h => h.removeJobScript hexec
  | removeChildDependency k k' =>
    cases hexec
    exact hsame (by simp only [Command.writes]; decide) fun q hq n h => h.removeChildDependency k k'
  | _ =>
    refine hsame (by simp only [Command.writes]; decide) fun q hq n h =>
      h.of_frame ?_ fun hκ => Command.exec_frame hexec hκ
    simp only [Command.writes]
    decide

/-- The id of an iteration is not drawn from the counter. -/
theorem iteration_key_ne (hp : Q.Base p) (hq : Q.Base q) (S : String) (m : ℤ) (n : ℕ) :
    q ++ iterationId S m ≠ p ++ n.repr := by
  intro heq
  obtain rfl := Q.apart hq hp heq
  have hid := (String.append_right_inj _).mp heq
  exact not_colonFree_iterationId S m (hid ▸ colonFree_repr n)

theorem storeIteration_id_le (p : String) (a : UpsertArgs) (o : SchedulerOpts) (m : ℤ) (s : Store)
    (q : String) : s .id q ≤ (storeIteration p a o m s).2 .id q := by
  simp only [storeIteration, addJobFromScheduler]
  rw [storeAndEnqueueJob_frame _ _ _ _ _ _ _ _ _ (by decide)]
  refine le_of_eq_of_le ?_ (modify_id_le p q _)
  rw [storeJobScheduler_frame _ _ _ _ _ _ (by decide)]

theorem addJobScheduler_countsOn (hq : Q.Base q) (a : UpsertArgs) :
    CountsOn Q s (Script.addJobScheduler q a s).2 := by
  refine ⟨fun p => ?_, fun p hp n _ h =>
    h.addJobScheduler fun m => iteration_key_ne hp hq a.jobSchedulerId m n⟩
  have hpending : (removePendingIteration q a.jobSchedulerId (getOrSetMaxEvents q s)).2 .id =
      s .id := by
    rw [removePendingIteration_frame _ _ _ (by decide), getOrSetMaxEvents_frame _ _ (by decide)]
  rcases hrem : removePendingIteration q a.jobSchedulerId (getOrSetMaxEvents q s) with ⟨b, t⟩
  rw [hrem] at hpending
  obtain ⟨o, m, heq, -⟩ | ⟨every, -, heq, -⟩ | ⟨-, -, heq, -⟩ :=
    Script.addJobScheduler_cases hrem <;> rw [heq]
  · exact le_of_eq_of_le (by rw [← hpending]) (storeIteration_id_le ..)
  · exact le_of_eq (by rw [← hpending])
  · exact le_of_eq (by rw [← hpending])

theorem updateJobScheduler_countsOn (hq : Q.Base q) (a : IterateArgs) :
    CountsOn Q s (Script.updateJobScheduler q a s).2 := by
  refine ⟨fun p => ?_, fun p hp n _ h =>
    h.updateJobScheduler fun m => iteration_key_ne hp hq a.jobSchedulerId m n⟩
  have hstored : ∀ m f, s .id p ≤ Keyspace.modify (((getOrSetMaxEvents q s).modify .repeatSet q
      (·.zadd m a.jobSchedulerId)).modify .scheduler (schedulerKey q a.jobSchedulerId) f) .id q
        (· + 1) .id p := by
    intro m f
    refine le_of_eq_of_le ?_ (modify_id_le q p _)
    rw [Keyspace.modify_of_ne _ (by decide), Keyspace.modify_of_ne _ (by decide),
      getOrSetMaxEvents_frame _ _ (by decide)]
  simp only [Script.updateJobScheduler]
  split
  · exact le_rfl
  · split
    · split
      · rw [Store.xadd_of_ne _ _ _ (by decide), getOrSetMaxEvents_frame _ _ (by decide)]
      · split
        · exact hstored _ _
        · rw [addJobFromScheduler, storeAndEnqueueJob_frame _ _ _ _ _ _ _ _ _ (by decide)]
          exact hstored _ _
    · exact le_rfl

theorem removeJobScheduler_id (p S : String) (s : Store) :
    (Script.removeJobScheduler p S s).2 .id = s .id := by
  have hlast : ∀ s : Store, (if S ∈ s .repeatSet p then (Reply.code 0,
      Keyspace.set (s.modify .repeatSet p (·.zrem S)) .scheduler (schedulerKey p S) none)
      else (Reply.code 1, s)).2 .id = s .id := by
    intro s
    split
    · rw [Keyspace.set_of_ne _ (by decide), Keyspace.modify_of_ne _ (by decide)]
    · rfl
  simp only [Script.removeJobScheduler]
  rw [hlast]
  split
  · split
    · rw [Store.xadd_of_ne _ _ _ (by decide), removeJobKeys_frame _ _ (by decide),
        Keyspace.modify_of_ne _ (by decide)]
    · rfl
  · rfl

/-- An obliterate deletes the counter of its queue, or leaves all counters alone. -/
theorem obliterate_id (p : String) (count : ℤ) (force : Bool) (s : Store) :
    ((Script.obliterate p count force s).1 = .code 0 ∧
      (Script.obliterate p count force s).2 .id = Function.update (s .id) p 0) ∨
    (Script.obliterate p count force s).2 .id = s .id := by
  have hstages : ∀ m s, (Script.runStages (Script.obliterateStages p) m s).2 .id = s .id := by
    intro m s
    refine Script.runStages_rule (I := fun t => t .id = s .id) (fun stage hstage m t ht => ?_) rfl
    rw [← ht]
    simp only [Script.obliterateStages, List.mem_cons, List.not_mem_nil, or_false] at hstage
    rcases hstage with rfl | rfl | rfl | rfl | rfl | rfl | rfl
    · exact removeZSetJobs_frame _ _ _ _ _ (by decide)
    · exact Script.removeSchedulers_frame _ _ _ (by decide)
    · exact removeZSetJobs_frame _ _ _ _ _ (by decide)
    · exact removeListJobs_frame _ _ _ _ _ (by decide)
    · exact removeListJobs_frame _ _ _ _ _ (by decide)
    · exact removeZSetJobs_frame _ _ _ _ _ (by decide)
    · exact removeZSetJobs_frame _ _ _ _ _ (by decide)
  simp only [Script.obliterate]
  split
  · exact .inr rfl
  · split
    · exact .inr rfl
    · -- The keys of the queue are deleted, the counter with them, only if the count was not used
      -- up.
      split
      · refine .inr ?_
        rw [hstages, Keyspace.modify_of_ne _ (by decide), removeJobs_frame _ _ _ (by decide),
          Script.foldl_unlock_frame _ _ _ (by decide)]
      · refine .inl ⟨rfl, ?_⟩
        rw [Script.deleteQueueKeys_id, hstages, Keyspace.modify_of_ne _ (by decide),
          removeJobs_frame _ _ _ (by decide), Script.foldl_unlock_frame _ _ _ (by decide)]

theorem obliterate_wellCounted {count : ℤ} {force : Bool} (h : WellCounted Q s) (hq : Q.Base q)
    (hclear : (Script.obliterate q count force s).1 = .code 0 → Clearable s q) :
    WellCounted Q (Script.obliterate q count force s).2 := by
  intro p hp n hn
  obtain ⟨hreply, hid⟩ | hid := obliterate_id q count force s
  · rw [hid, Function.update_apply] at hn
    split at hn
    · next hpq =>
      subst hpq
      exact (hclear hreply).unheard (Q.base hp) hreply hn
    · exact (h p hp n hn).obliterate q count force
  · rw [hid] at hn
    exact (h p hp n hn).obliterate q count force

/-- Every operation keeps the count that does not reset it in front of its jobs. -/
theorem WellCounted.step (h : WellCounted Q s) {o : Operation} (ho : o.Admitted Q)
    (hcount : o.KeepsCount s) {r : Reply × Store} (hexec : o.exec s = some r) :
    WellCounted Q r.2 := by
  -- As for the job scripts: the counter stays, and no number comes in as a name.
  have hrest : r.2 .id = s .id → (∀ p, Q.Base p → ∀ n : ℕ, Unheard p n.repr s →
      Unheard p n.repr r.2) → WellCounted Q r.2 := fun hid hnames =>
    (CountsOn.of_id hid hnames).counted h
  cases o with
  | removeJobScheduler p S =>
    cases hexec
    refine hrest ?_ fun q hq n hn => hn.removeJobScheduler p S
    exact removeJobScheduler_id p S s
  | removeDeduplicationKey p d j =>
    cases hexec
    refine hrest ?_ fun q hq n hn => hn.removeDeduplicationKey p d j
    simp only [Script.removeDeduplicationKey]
    split
    · exact Keyspace.set_of_ne _ (by decide) ..
    · rfl
  | script c =>
    change c.exec s = some r at hexec
    cases c with
    | job c => exact (countsOn_exec ho hexec).counted h
    | addJobScheduler p a => cases hexec; exact (addJobScheduler_countsOn ho a).counted h
    | updateJobScheduler p a => cases hexec; exact (updateJobScheduler_countsOn ho a).counted h
    | obliterate p n b => cases hexec; exact obliterate_wellCounted h ho hcount
    | cleanJobsInSet p t l st =>
      cases hexec
      exact hrest (Script.cleanJobsInSet_frame p t l st s (by decide)) fun q hq n hn =>
        hn.cleanJobsInSet (repr_ne_empty n) p t l st
    | drain p b =>
      cases hexec
      exact hrest (Script.drain_frame p b s (by decide)) fun q hq n hn => hn.drain p b
    | removeUnprocessedChildren m p j =>
      exact hrest (Script.removeUnprocessedChildren_frame hexec (by decide)) fun q hq n hn =>
        hn.removeUnprocessedChildren hexec
    | expireDeduplicationKey p d =>
      refine hrest (QueueCommand.exec_frame hexec (by simp only [QueueCommand.writes]; decide))
        fun q hq n hn => hn.of_frame ?_ fun hκ => QueueCommand.exec_frame hexec hκ
      simp only [QueueCommand.writes]
      decide
    | elapseDeduplicationKey p d ms =>
      refine hrest (QueueCommand.exec_frame hexec (by simp only [QueueCommand.writes]; decide))
        fun q hq n hn => hn.of_frame ?_ fun hκ => QueueCommand.exec_frame hexec hκ
      simp only [QueueCommand.writes]
      decide

end Counter

/-! ### Adds -/

/-- A mode of adding that writes no hash besides that of the new job: it may delete others. -/
structure AddMode.Spares (mode : AddMode) : Prop where
  deduplicate : ∀ de j a s k, (mode.deduplicate de j a s).2 .hash k = s .hash k ∨
    (mode.deduplicate de j a s).2 .hash k = none
  enqueue : ∀ j a s, mode.enqueue j a s .hash = s .hash

theorem deduplicateJobWithoutReplace_hash (p : String) (de : DeduplicationOpts) (j : String)
    (a : AddArgs) (s : Store) :
    (deduplicateJobWithoutReplace p de j a s).2 .hash = s .hash :=
  deduplicateJobWithoutReplace_frame p de j a s (by decide)

/-- Of all hashes a deduplication writes that of a winner it replaces, which it deletes. -/
theorem deduplicateJob_hash (p : String) (de : DeduplicationOpts) (j : String) (a : AddArgs)
    (s : Store) (k : String) : (deduplicateJob p de j a s).2 .hash k = s .hash k ∨
      (deduplicateJob p de j a s).2 .hash k = none := by
  have hremove : ∀ c, (removeDelayedJob p c j de.id s).2 .hash k = s .hash k ∨
      (removeDelayedJob p c j de.id s).2 .hash k = none := by
    intro c
    simp only [removeDelayedJob]
    split
    · rw [Store.xadd_of_ne _ _ _ (by decide), Store.xadd_of_ne _ _ _ (by decide),
        removeJobKeys_hash, Function.update_apply, Keyspace.modify_of_ne _ (by decide)]
      split
      · exact .inr rfl
      · exact .inl rfl
    · exact .inl rfl
  simp only [deduplicateJob]
  split
  · split
    · next current _ =>
      have hrem := hremove current.jobId
      split
      · next s' heq =>
        rw [heq] at hrem
        split
        · rwa [setDeduplicationKey_frame _ _ _ _ (by decide)]
        · split
          · rwa [Keyspace.set_of_ne _ (by decide)]
          · rwa [setDeduplicationKey_frame _ _ _ _ (by decide)]
      · next s' heq =>
        rw [heq] at hrem
        rwa [storeDeduplicatedNextJob_frame _ _ _ _ _ _ (by decide)]
    · exact .inl (by rw [setDeduplicationKey_frame _ _ _ _ (by decide)])
  · exact .inl (by rw [deduplicateJobWithoutReplace_hash])

/-- The four ways of adding a job. -/
def addModes (p : String) : List AddMode :=
  [standardMode p, delayedMode p, prioritizedMode p, parentMode p]

theorem addModes_spare {p : String} {mode : AddMode} (h : mode ∈ addModes p) : mode.Spares := by
  simp only [addModes, List.mem_cons, List.not_mem_nil, or_false] at h
  rcases h with rfl | rfl | rfl | rfl
  · exact ⟨deduplicateJob_hash p, fun j a s => enqueueStandard_frame _ _ _ _ (by decide)⟩
  · exact ⟨deduplicateJob_hash p, fun j a s => addDelayedJob_frame _ _ _ _ _ (by decide)⟩
  · exact ⟨deduplicateJob_hash p, fun j a s => enqueuePrioritized_frame _ _ _ _ (by decide)⟩
  · exact ⟨fun de j a s k => .inl (by
      change (deduplicateJobWithoutReplace p de j a s).2 .hash k = _
      rw [deduplicateJobWithoutReplace_hash]), fun j a s => enqueueParent_frame _ _ _ _ (by decide)⟩

theorem addNewJob_spares {mode : AddMode} (hmode : mode.Spares) {p j : String} {a : AddArgs}
    {s : Store} {k : String} (hk : k ≠ p ++ j) :
    (addNewJob mode p j a s).2 .hash k = s .hash k ∨
      (addNewJob mode p j a s).2 .hash k = none := by
  have hstore : ∀ s', storeNewJob mode p j a s' .hash k = s' .hash k := by
    intro s'
    rw [storeNewJob, addParentDependency_frame _ _ _ (by decide), hmode.enqueue, storeJob,
      Store.xadd_of_ne _ _ _ (by decide), Store.hset_hash, if_neg hk]
  unfold addNewJob
  cases a.opts.de with
  | none => exact .inl (hstore s)
  | some de =>
    have hded := hmode.deduplicate de j a s k
    rcases hres : mode.deduplicate de j a s with ⟨_ | winner, s'⟩ <;> rw [hres] at hded
    · simp only [hres]
      rwa [← hstore s'] at hded
    · simpa only [hres] using hded

/-- An add with a fresh id overwrites no job. -/
theorem addJobWith_spares {mode : AddMode} (hmode : mode.Spares) {p : String} {a : AddArgs}
    {s : Store} (hauto : a.customId = "") {k : String} (hk : k ≠ p ++ (s .id p + 1).repr) :
    (addJobWith mode p a s).2 .hash k = s .hash k ∨ (addJobWith mode p a s).2 .hash k = none := by
  have hdraw : drawId p s .hash = s .hash := drawId_frame p s (by decide)
  obtain ⟨-, heq⟩ | ⟨hne, -⟩ | ⟨j, hj, -, heq⟩ := addJobWith_ends mode p a s
  · exact .inl (by rw [heq])
  · exact absurd hauto hne
  · obtain ⟨-, rfl⟩ | ⟨hcustom, hne, -⟩ := hj
    · rw [heq]
      have hnew := addNewJob_spares (s := drawId p s) (a := a) hmode hk
      rwa [hdraw] at hnew
    · exact absurd (hcustom.symm.trans hauto) hne

/-- **Ids drawn from the counter are fresh** in every run in which no obliterate deletes the
counter of a queue while jobs or payloads with integer ids are left: the next id names no job, and
an add that takes it leaves every existing job as it is, or deletes it as a replaced duplicate. -/
theorem auto_ids_fresh {Q : QueueSet} {steps : List (Store × Operation × Store)} {s : Store}
    (hrun : Run (OperationStep fun s o => o.Admitted Q ∧ o.KeepsCount s) .empty steps s)
    {p : String} (hp : Q.Base p) :
    s.jobExists (p ++ newJobId p "" (drawId p s)) = false ∧
      ∀ mode ∈ addModes p, ∀ a : AddArgs, a.customId = "" → ∀ k, s.jobExists k = true →
        (addJobWith mode p a s).2 .hash k = s .hash k ∨
          (addJobWith mode p a s).2 .hash k = none := by
  have hcounted : WellCounted Q s := by
    refine hrun.invariant (I := WellCounted Q) ?_ fun t o u ht ⟨⟨ho, hcount⟩, reply, hexec⟩ =>
      ht.step ho hcount hexec
    intro q _ n _
    exact ⟨rfl, fun _ => List.not_mem_nil, fun _ => List.not_mem_nil, fun _ _ h => by cases h⟩
  have hid : drawId p s .id p = s .id p + 1 := by
    rw [drawId, getOrSetMaxEvents_frame _ _ (by decide), Keyspace.modify_self, Function.update_self]
  have hfree : s.jobExists (p ++ (s .id p + 1).repr) = false := by
    rw [Store.jobExists, (hcounted p hp _ (Nat.lt_succ_self _)).hash]
    rfl
  refine ⟨by rw [newJobId, if_pos rfl, hid, hfree], fun mode hmode a hauto k hk => ?_⟩
  refine addJobWith_spares (addModes_spare hmode) hauto ?_
  rintro rfl
  rw [hfree] at hk
  cases hk

/-! ### Obliterated queues -/

/-- The queues with the default prefix. -/
def bullQueues : QueueSet := .ofPrefix "bull"

/-- A job with an id of the counter, and nothing else of note. -/
def plainJob : AddArgs := { name := "n", data := "d", timestamp := 1 }

theorem plainJob_admitted : plainJob.Admitted := fun n h => repr_ne_empty n h.symm

/-- A queue with one job, paused. -/
def pausedQueue : Store :=
  (Script.pause "bull:q:" true false (addJobWith (standardMode "bull:q:") "bull:q:" plainJob
    .empty).2).2

theorem pausedQueue_clearable : Clearable pausedQueue "bull:q:" where
  jobs n hn hex := by
    by_cases hone : n = 1
    · subst hone
      exact .swept (.inl ⟨.wait, by decide +kernel⟩)
    · have hne : "bull:q:" ++ n.repr ≠ "bull:q:" ++ (Store.empty .id "bull:q:" + 1).repr := by
        intro heq
        exact hone (repr_inj ((String.append_right_inj _).mp heq))
      have hspares : (standardMode "bull:q:").Spares :=
        addModes_spare (p := "bull:q:") (by simp [addModes])
      have hkeep := addJobWith_spares hspares (s := .empty) (a := plainJob) rfl hne
      have hnone : pausedQueue .hash ("bull:q:" ++ n.repr) = none := hkeep.elim id id
      simp [Store.jobExists, hnone] at hex
  waiting n hn hmem := by
    have hnone : (pausedQueue (.zset .waitingChildren) "bull:q:").members = [] := by decide +kernel
    have hmem' : n.repr ∈ (pausedQueue (.zset .waitingChildren) "bull:q:").members := hmem
    rw [hnone] at hmem'
    cases hmem'
  payloads n hn d next hnext hjid := by
    have hnone : pausedQueue .dn (deduplicationNextKey "bull:q:" d) = none := rfl
    rw [hnone] at hnext
    cases hnext

/-- The queue is obliterated with its job, and counts from one again. -/
theorem auto_ids_fresh_after_obliterate :
    ∃ steps, Run (OperationStep fun s o => o.Admitted bullQueues ∧ o.KeepsCount s) .empty steps
        (Script.obliterate "bull:q:" 1000 false pausedQueue).2 ∧
      (Script.obliterate "bull:q:" 1000 false pausedQueue).1 = .code 0 ∧
      (Script.obliterate "bull:q:" 1000 false pausedQueue).2.jobExists
        ("bull:q:" ++ newJobId "bull:q:" ""
          (drawId "bull:q:" (Script.obliterate "bull:q:" 1000 false pausedQueue).2)) = false := by
  have hbase : bullQueues.Base "bull:q:" := ⟨"q", by decide, by decide⟩
  have hadd : OperationStep (fun s o => o.Admitted bullQueues ∧ o.KeepsCount s) .empty
      (.script (.job (.addStandardJob "bull:q:" plainJob)))
      (addJobWith (standardMode "bull:q:") "bull:q:" plainJob .empty).2 :=
    ⟨⟨⟨hbase, plainJob_admitted⟩, trivial⟩, _, rfl⟩
  have hpause : OperationStep (fun s o => o.Admitted bullQueues ∧ o.KeepsCount s) _
      (.script (.job (.pause "bull:q:" true false))) pausedQueue := ⟨⟨trivial, trivial⟩, _, rfl⟩
  have hobliterate : OperationStep (fun s o => o.Admitted bullQueues ∧ o.KeepsCount s) pausedQueue
      (.script (.obliterate "bull:q:" 1000 false))
      (Script.obliterate "bull:q:" 1000 false pausedQueue).2 :=
    ⟨⟨hbase, fun _ => pausedQueue_clearable⟩, _, rfl⟩
  have hrun := ((Run.single hadd).snoc hpause).snoc hobliterate
  exact ⟨_, hrun, by decide +kernel, (auto_ids_fresh hrun hbase).1⟩

/-- Execute operations one after the other. -/
def runOperations (os : List Operation) (s : Store) : Option Store :=
  os.foldlM (fun s o => (o.exec s).map Prod.snd) s

theorem run_of_runOperations {Allowed : Store → Operation → Prop} {os : List Operation}
    {s t : Store} (h : runOperations os s = some t) (hall : ∀ o ∈ os, ∀ s, Allowed s o) :
    ∃ steps, Run (OperationStep Allowed) s steps t := by
  induction os generalizing s with
  | nil =>
    obtain rfl : s = t := by simpa [runOperations] using h
    exact ⟨[], .nil⟩
  | cons o os ih =>
    obtain ⟨u, hu, hrest⟩ : ∃ u, (o.exec s).map Prod.snd = some u ∧
      runOperations os u = some t := by
      simpa [runOperations, List.foldlM_cons, Option.bind_eq_some_iff] using h
    obtain ⟨r, hexec, rfl⟩ := Option.map_eq_some_iff.mp hu
    obtain ⟨steps, hrun⟩ := ih hrest fun o' ho' => hall o' (.tail _ ho')
    exact ⟨_, (Run.single ⟨hall o (.head _) s, r.1, hexec⟩).append hrun⟩

/-- A job is fetched, adds a child to another queue and waits for it; then its own queue is paused
and obliterated. -/
def abandonedParent : List Operation :=
  [.script (.job (.addStandardJob "bull:p:" plainJob)),
   .script (.job (.moveToActive "bull:p:" 2 { token := "t", lockDuration := 30000 })),
   .script (.job (.addStandardJob "bull:c:"
    { plainJob with parent := some { id := "1", queueKey := "bull:p" } })),
   .script (.job (.moveToWaitingChildren "bull:p:" "1" "t" "" 3)),
   .script (.job (.pause "bull:p:" true false)),
   .script (.obliterate "bull:p:" 1000 false)]

/-- The store these operations lead to. -/
def abandonedParentStore : Store := (runOperations abandonedParent .empty).getD .empty

/-- The obliterate leaves the job and deletes the counter, so that the next id is that of the job,
and an add without an id overwrites it. -/
theorem abandoned_parent_overwritten :
    (∃ steps, Run (OperationStep fun _ o => o.Admitted bullQueues) .empty steps
      abandonedParentStore) ∧
    newJobId "bull:p:" "" (drawId "bull:p:" abandonedParentStore) = "1" ∧
    abandonedParentStore.jobExists "bull:p:1" = true ∧
    (Script.addStandardJob "bull:p:" { plainJob with data := "other" } abandonedParentStore).1 =
      .id "1" ∧
    (Script.addStandardJob "bull:p:" { plainJob with data := "other" } abandonedParentStore).2
      .hash "bull:p:1" ≠ abandonedParentStore .hash "bull:p:1" := by
  refine ⟨run_of_runOperations rfl fun o (ho : o ∈ abandonedParent) _ => ?_, by decide +kernel,
    by decide +kernel, by decide +kernel, by decide +kernel⟩
  have hbase : bullQueues.Base "bull:p:" := ⟨"p", by decide, by decide⟩
  have hchild : bullQueues.Base "bull:c:" := ⟨"c", by decide, by decide⟩
  simp only [abandonedParent, List.mem_cons, List.not_mem_nil, or_false] at ho
  rcases ho with rfl | rfl | rfl | rfl | rfl | rfl
  · exact ⟨hbase, plainJob_admitted⟩
  · exact hbase
  · exact ⟨hchild, plainJob_admitted⟩
  · trivial
  · trivial
  · exact hbase

end BullMQ
