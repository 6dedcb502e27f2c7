import BullMQ.Model.QueueCommand

/-!
# The bound of the event stream

A queue's first script writes the default bound of the event stream into its `meta` hash
(`getOrSetMaxEvents`). From then on the bound is there: no job script deletes it.
-/

namespace BullMQ

open Redis

/-- Every queue that has a bound for its event stream keeps one. -/
def BoundStays (s s' : Store) : Prop :=
  ∀ p, (s .metaMaxLenEvents p).isSome = true → (s' .metaMaxLenEvents p).isSome = true

section BoundStays

variable {s s' s'' : Store} {p : String}

namespace BoundStays

theorem refl (s : Store) : BoundStays s s := fun _ => id

theorem trans (h : BoundStays s s') (h' : BoundStays s' s'') : BoundStays s s'' := fun p hp =>
  h' p (h p hp)

theorem of_eq (h : s' .metaMaxLenEvents = s .metaMaxLenEvents) : BoundStays s s' := fun p hp => by
  rw [h]
  exact hp

end BoundStays

theorem isSome_getOrSetMaxEvents (p : String) (s : Store) :
    (getOrSetMaxEvents p s .metaMaxLenEvents p).isSome = true := by
  unfold getOrSetMaxEvents
  split
  · next h => simp [h]
  · simp

theorem boundStays_getOrSetMaxEvents (p : String) (s : Store) :
    BoundStays s (getOrSetMaxEvents p s) := by
  intro q hq
  unfold getOrSetMaxEvents
  split
  · exact hq
  · rw [Keyspace.set_self, Function.update_apply]
    split
    · rfl
    · exact hq

theorem boundStays_drawId (p : String) (s : Store) : BoundStays s (drawId p s) :=
  .trans (.of_eq (Keyspace.modify_of_ne _ (by decide) ..)) (boundStays_getOrSetMaxEvents p _)

theorem boundStays_addNewJob {mode : AddMode} (hmode : mode.Framed) (p j : String) (a : AddArgs)
    (s : Store) : BoundStays s (addNewJob mode p j a s).2 := by
  have hstore : ∀ s', BoundStays s' (storeNewJob mode p j a s') := fun s' =>
    .of_eq (storeNewJob_frame hmode p j a s' (by decide))
  unfold addNewJob
  cases a.opts.de with
  | none => exact hstore s
  | some de =>
    have hded : BoundStays s (mode.deduplicate de j a s).2 :=
      .of_eq (hmode.deduplicate de j a s _ (by decide))
    rcases hres : mode.deduplicate de j a s with ⟨_ | winner, s'⟩ <;> rw [hres] at hded
    · simp only [hres]
      exact hded.trans (hstore s')
    · simpa only [hres] using hded

theorem boundStays_addJobWith {mode : AddMode} (hmode : mode.Framed) (p : String) (a : AddArgs)
    (s : Store) : BoundStays s (addJobWith mode p a s).2 := by
  obtain ⟨-, heq⟩ | ⟨-, -, -, heq⟩ | ⟨j, -, -, heq⟩ := addJobWith_ends mode p a s <;> rw [heq]
  · exact .refl s
  · exact (boundStays_drawId p s).trans (.of_eq (handleDuplicatedJob_frame _ _ _ _ _ (by decide)))
  · exact (boundStays_drawId p s).trans (boundStays_addNewJob hmode _ _ _ _)

theorem boundStays_requeueDeduplicatedJob (p : String) (d : Option String) (t : ℤ) (s : Store) :
    BoundStays s (requeueDeduplicatedJob p d t s) := by
  unfold requeueDeduplicatedJob
  split
  · exact .refl s
  · split
    · exact .refl s
    · simp only
      refine .trans ?_ (.of_eq (Keyspace.set_of_ne _ (by decide) ..))
      refine .trans ?_ (.of_eq (addParentDependency_frame _ _ _ (by decide)))
      refine .trans ?_ (.of_eq (storeAndEnqueueJob_frame _ _ _ _ _ _ _ _ _ (by decide)))
      refine .trans ?_ (boundStays_getOrSetMaxEvents _ _)
      refine .trans ?_ (.of_eq (setDeduplicationKey_frame _ _ _ _ (by decide)))
      exact .of_eq (Keyspace.modify_of_ne _ (by decide) ..)

theorem boundStays_finishJob (p : String) (a : FinishArgs) (s : Store) :
    BoundStays s (finishJob p a s) := by
  have hsettle : BoundStays s (settleFinished p a s) := by
    refine .trans ?_ (.of_eq (notifyParent_frame _ _ _ _ (by decide)))
    refine .trans ?_ (boundStays_requeueDeduplicatedJob _ _ _ _)
    refine .trans ?_ (.of_eq
      (removeDeduplicationKeyIfNeededOnFinalization_frame _ _ _ _ (by decide)))
    exact boundStays_getOrSetMaxEvents p s
  have hrest : ∀ s' n P, BoundStays s'
      (emitFinished p a n (keepOrRemove p P a (s'.hset (p ++ a.jobId) fun job =>
        { job with atm := job.atm + 1 }))) := fun s' n P =>
    .of_eq (by rw [emitFinished_frame _ _ _ _ (by decide), keepOrRemove_frame _ _ _ _ (by decide),
      Store.hset_of_ne _ _ _ (by decide)])
  simp only [finishJob]
  split
  · exact (hsettle.trans (hrest _ _ _)).trans (.of_eq (collectMetrics_frame _ _ _ _ (by decide)))
  · exact hsettle.trans (hrest _ _ _)

theorem boundStays_removeJobFromActive (p j t : String) (f : Option FieldsToUpdate) (s : Store) :
    BoundStays s (removeJobFromActive p j t f s).2 := by
  obtain ⟨-, n, -, -, heq⟩ | ⟨-, -, heq⟩ | ⟨-, -, heq⟩ := removeJobFromActive_cases p j t f s <;>
    rw [heq]
  · exact .refl s
  · exact .of_eq (releasedJob_frame _ _ _ _ _ (by decide))
  · exact .of_eq (leftActive_frame _ _ _ _ _ (by decide))

theorem boundStays_moveToFinished (p : String) (a : FinishArgs) (s : Store) :
    BoundStays s (Script.moveToFinished p a s).2 := by
  have hleave := boundStays_removeJobFromActive p a.jobId a.opts.token a.fieldsToUpdate s
  simp only [Script.moveToFinished]
  split
  · exact .refl s
  · split
    · exact .refl s
    · split
      · exact .refl s
      · split
        · exact hleave
        · exact (hleave.trans (boundStays_finishJob _ _ _)).trans
            (.of_eq (fetchOrDrain_frame _ _ _ (by decide)))

theorem boundStays_moveToDelayed (p : String) (a : DelayArgs) (s : Store) :
    BoundStays s (Script.moveToDelayed p a s).2 := by
  have hleave := boundStays_removeJobFromActive p a.jobId a.token a.fieldsToUpdate s
  have hdelay : ∀ s', BoundStays s' (delayJob p a s') := by
    intro s'
    simp only [delayJob]
    refine .trans ?_ (.of_eq (Store.xadd_of_ne _ _ _ (by decide)))
    refine .trans ?_ (.of_eq (Keyspace.modify_of_ne _ (by decide) ..))
    refine .trans (.of_eq ?_) (boundStays_getOrSetMaxEvents _ _)
    rw [Store.hset_of_ne _ _ _ (by decide)]
    split
    · rfl
    · exact Store.hset_of_ne _ _ _ (by decide)
  simp only [Script.moveToDelayed]
  split
  · exact .refl s
  · split
    · exact hleave
    · exact (hleave.trans (hdelay _)).trans (.of_eq (fetchOrMark_frame _ _ _ (by decide)))

theorem boundStays_retryJob (p : String) (a : RetryArgs) (s : Store) :
    BoundStays s (Script.retryJob p a s).2 := by
  have hrequeue : ∀ s', BoundStays s' (requeueJob p a s') := by
    intro s'
    simp only [requeueJob]
    refine .trans ?_ (.of_eq (Store.xadd_of_ne _ _ _ (by decide)))
    refine .trans (.of_eq ?_) (boundStays_getOrSetMaxEvents _ _)
    rw [Store.hset_of_ne _ _ _ (by decide)]
    split
    · exact addJobInTargetList_frame _ _ _ _ _ (by decide)
    · exact addJobWithPriority_frame _ _ _ _ _ (by decide)
  have hpromote : BoundStays s
      (promoteDelayedJobs p a.timestamp (isQueuePausedOrMaxed p s) s) :=
    .of_eq (promoteDelayedJobs_frame _ _ _ _ (by decide))
  simp only [Script.retryJob]
  split
  · exact hpromote
  · have hleave := hpromote.trans
      (boundStays_removeJobFromActive p a.jobId a.token a.fieldsToUpdate _)
    split
    · exact hleave
    · exact hleave.trans (hrequeue _)

theorem boundStays_moveJobFromActiveToWait (p j t : String) (s : Store) :
    BoundStays s (Script.moveJobFromActiveToWait p j t s).2 := by
  have hpush : ∀ s', BoundStays s' (pushBackJob p j s') := by
    intro s'
    simp only [pushBackJob]
    refine .trans ?_ (.of_eq (Store.xadd_of_ne _ _ _ (by decide)))
    refine .trans (.of_eq ?_) (boundStays_getOrSetMaxEvents _ _)
    split
    · exact pushBackJobWithPriority_frame _ _ _ _ (by decide)
    · exact addJobInTargetList_frame _ _ _ _ _ (by decide)
  have hunlock : BoundStays s (removeLock p j t s).2 :=
    .of_eq (removeLock_frame _ _ _ _ (by decide))
  simp only [Script.moveJobFromActiveToWait]
  split
  · exact .refl s
  · split
    · exact hunlock
    · refine hunlock.trans ?_
      simp only
      split
      · exact .trans (.of_eq (Keyspace.modify_of_ne _ (by decide) ..)) (hpush _)
      · exact .refl _

theorem boundStays_moveStalledJobsToWait (p : String) (m t c : ℤ) (s : Store) :
    BoundStays s (Script.moveStalledJobsToWait p m t c s).2 := by
  simp only [Script.moveStalledJobsToWait]
  split
  · exact .refl s
  · split
    · exact .refl s
    · refine .trans ?_ (.of_eq (markActive_frame _ _ (by decide)))
      refine .trans ?_ (.of_eq (foldl_reclaimStalledJob_frame _ _ _ _ (by decide)))
      refine .trans ?_ (.of_eq (Keyspace.set_of_ne _ (by decide) ..))
      exact .trans (.of_eq (Keyspace.set_of_ne _ (by decide) ..))
        (boundStays_getOrSetMaxEvents _ _)

theorem boundStays_changeDelay (p : String) (d t : ℤ) (j : String) (s : Store) :
    BoundStays s (Script.changeDelay p d t j s).2 := by
  simp only [Script.changeDelay]
  split
  · exact .refl s
  · split
    · exact .refl s
    · refine .trans ?_ (.of_eq (addDelayMarkerIfNeeded_frame _ _ (by decide)))
      refine .trans ?_ (.of_eq (Store.xadd_of_ne _ _ _ (by decide)))
      refine .trans (.of_eq ?_) (boundStays_getOrSetMaxEvents _ _)
      rw [Keyspace.modify_of_ne _ (by decide), Store.hset_of_ne _ _ _ (by decide),
        Keyspace.modify_of_ne _ (by decide)]

theorem boundStays_reprocessJob (p : String) (a : ReprocessArgs) (s : Store) :
    BoundStays s (Script.reprocessJob p a s).2 := by
  simp only [Script.reprocessJob]
  split
  · exact .refl s
  · split
    · refine .trans ?_ (.of_eq (Store.xadd_of_ne _ _ _ (by decide)))
      refine .trans (.of_eq ?_) (boundStays_getOrSetMaxEvents _ _)
      rw [restoreDependency_frame _ _ _ (by decide), addJobInTargetList_frame _ _ _ _ _ (by decide),
        Store.hdel_of_ne _ _ _ (by decide), Keyspace.modify_of_ne _ (by simp)]
    · exact .refl s

theorem boundStays_moveJobsToWait (p : String) (st : BulkState) (m t : ℤ) (s : Store) :
    BoundStays s (Script.moveJobsToWait p st m t s).2 := by
  simp only [Script.moveJobsToWait]
  split
  · exact .refl s
  · refine .trans ?_ (.of_eq (addBaseMarkerIfNeeded_frame _ _ _ (by decide)))
    refine .trans ?_ (.of_eq (foldl_moveBatchToWait_frame _ _ _ _ _ (by simp)))
    refine .trans ?_ (.of_eq (foldl_xadd_frame _ _ _ _ (by decide)))
    exact .trans (.of_eq (foldl_clearResultOf_frame _ _ _ _ (by decide)))
      (boundStays_getOrSetMaxEvents _ _)

theorem boundStays_deleteJob (p j : String) (s : Store) : BoundStays s (deleteJob p j s) := by
  have hdel : BoundStays s (removeJobKeys (p ++ j) (removeDeduplicationKeyIfNeededOnRemoval p j
      ((removeJobFromAnyState p j s).2.deidOf (p ++ j)) (removeJobFromAnyState p j s).2)) :=
    .of_eq (by rw [removeJobKeys_frame _ _ (by decide),
      removeDeduplicationKeyIfNeededOnRemoval_frame _ _ _ _ (by decide),
      removeJobFromAnyState_frame _ _ _ (by simp) (by simp)])
  simp only [deleteJob]
  split
  · exact (hdel.trans (boundStays_getOrSetMaxEvents _ _)).trans
      (.of_eq (Store.xadd_of_ne _ _ _ (by decide)))
  · exact hdel

/-- No job script deletes the bound. -/
theorem boundStays_exec {c : Command} {r : Reply × Store} (h : c.exec s = some r) :
    BoundStays s r.2 := by
  by_cases hw : Kind.metaMaxLenEvents ∉ c.writes
  · exact .of_eq (Command.exec_frame h hw)
  · cases c with
    | addStandardJob p a => cases h; exact boundStays_addJobWith (standardMode_framed p) p a s
    | addDelayedJob p a => cases h; exact boundStays_addJobWith (delayedMode_framed p) p a s
    | addPrioritizedJob p a =>
      cases h; exact boundStays_addJobWith (prioritizedMode_framed p) p a s
    | addParentJob p a => cases h; exact boundStays_addJobWith (parentMode_framed p) p a s
    | moveToFinished p a => cases h; exact boundStays_moveToFinished p a s
    | moveToDelayed p a => cases h; exact boundStays_moveToDelayed p a s
    | retryJob p a => cases h; exact boundStays_retryJob p a s
    | moveJobFromActiveToWait p j t =>
      cases h; exact boundStays_moveJobFromActiveToWait p j t s
    | moveStalledJobsToWait p m t c =>
      cases h; exact boundStays_moveStalledJobsToWait p m t c s
    | changeDelay p d t j => cases h; exact boundStays_changeDelay p d t j s
    | reprocessJob p a => cases h; exact boundStays_reprocessJob p a s
    | moveJobsToWait p st m t => cases h; exact boundStays_moveJobsToWait p st m t s
    | removeJob n p j b =>
      exact Script.removeJob_rule (I := BoundStays s) (V := fun _ _ => True)
        (fun _ _ _ hs => hs.trans (.of_eq (removeParentDependencyKey_frame _ _ _ (by decide))))
        (fun _ _ _ _ hs => hs.trans (boundStays_deleteJob _ _ _)) (fun _ _ _ _ _ => trivial)
        trivial (.refl s) h
    | _ => exact absurd (by simp only [Command.writes]; decide) hw

end BoundStays

end BullMQ
