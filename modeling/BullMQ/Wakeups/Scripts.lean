import BullMQ.Wakeups.Relation
import BullMQ.Model.QueueCommand

/-!
# The job scripts wake workers

`Wakes` for the scripts that add, fetch, finish and move jobs, from their helpers up. The one script
that puts a job into line without a marker is `moveJobFromActiveToWait`, for a prioritized job.
-/

namespace BullMQ

open Redis

variable {p q j : String} {s s' s'' : Store}

namespace Wakes

/-! ### Adds and parents -/

theorem moveParentToWait (P : Parent) (t : ℤ) : Wakes p s (BullMQ.moveParentToWait P t s) := by
  simp only [BullMQ.moveParentToWait]
  split
  · exact ((modify (by decide) _ _).trans (xadd _)).trans addDelayMarkerIfNeeded
  · exact (ite (addJobInTargetList _ asked) (addJobWithPriority _ asked)).trans (xadd _)

theorem moveParentToWaitIfNeeded (P : Parent) (t : ℤ) :
    Wakes p s (BullMQ.moveParentToWaitIfNeeded P t s) :=
  ite ((modify (by decide) _ _).trans (moveParentToWait P t)) (.refl p s)

theorem moveParentToWaitIfNoPendingDependencies (P : Parent) (t : ℤ) :
    Wakes p s (BullMQ.moveParentToWaitIfNoPendingDependencies P t s) :=
  ite (moveParentToWaitIfNeeded P t) (.refl p s)

theorem updateParentDepsIfNeeded (P : Parent) (k v : String) (t : ℤ) :
    Wakes p s (BullMQ.updateParentDepsIfNeeded P k v t s) :=
  (modify (by decide) _ _).trans (moveParentToWaitIfNoPendingDependencies P t)

theorem moveChildFromDependenciesIfNeeded (P : Option Parent) (k r : String) (t : ℤ) :
    Wakes p s (BullMQ.moveChildFromDependenciesIfNeeded P k r t s) := by
  have hfail : ∀ (P : Parent) (s : Store),
      Wakes p s (handleChildFailureAndMoveParentToWait P k t s) := by
    intro P s
    simp only [handleChildFailureAndMoveParentToWait]
    refine ite (ite ?_ (ite ?_ (ite (.refl p s) (hset _ _)))) (.refl p s)
    · exact ((modify (by decide) _ _).trans (hset _ _)).trans (moveParentToWait P t)
    · exact (((hset _ _).trans (modify (by decide) _ _)).trans (hset _ _)).trans
        (moveParentToWait P t)
  cases P with
  | none => exact .refl p s
  | some P =>
    have htwo : ∀ s' : Store, Wakes p s' (if P.idof then
        s'.modify .failedChildren P.key (·.insert k r) else s') := fun s' =>
      ite (modify (by decide) _ _) (.refl p s')
    simp only [BullMQ.moveChildFromDependenciesIfNeeded]
    refine ite (ite ?_ (ite ?_ (ite ?_ (.refl p s)))) (.refl p s)
    · exact ((modify (by decide) _ _).trans (modify (by decide) _ _)).trans (hfail P _)
    · exact ((modify (by decide) _ _).trans (modify (by decide) _ _)).trans
        (moveParentToWaitIfNeeded P t)
    · exact ((modify (by decide) _ _).trans (moveParentToWaitIfNoPendingDependencies P t)).trans
        (htwo _)

theorem moveParentToWaitPlain (i : String) : Wakes p s (BullMQ.moveParentToWaitPlain q i s) :=
  (addJobInTargetList _ asked).trans (xadd _)

theorem unlinkChild (k k' : String) : Wakes p s (BullMQ.unlinkChild k k' s).2 := by
  simp only [BullMQ.unlinkChild]
  split
  · split
    · split
      · exact ((modify (by decide) _ _).trans (modify (by decide) _ _)).trans
          (moveParentToWaitPlain _)
      · exact modify (by decide) _ _
    · exact modify (by decide) _ _
  · exact .refl p s

theorem removeParentDependencyKey (k : String) (o : Option String) :
    Wakes p s (BullMQ.removeParentDependencyKey k o s).2 := by
  unfold BullMQ.removeParentDependencyKey
  split
  · exact unlinkChild _ _
  · split
    · split
      · exact unlinkChild _ _
      · exact .refl p s
    · exact .refl p s

theorem addJobWith {mode : AddMode} (hmode : mode.Framed)
    (henqueue : ∀ j a s, Wakes p s (mode.enqueue j a s)) (a : AddArgs) :
    Wakes p s (BullMQ.addJobWith mode q a s).2 := by
  have hdraw : ∀ s, Wakes p s (drawId q s) := fun s =>
    (modify (by decide) _ _).trans getOrSetMaxEvents
  have hparent : ∀ s j, Wakes p s (updateExistingJobsParent q j a.parent a.timestamp s) := by
    intro s j
    unfold updateExistingJobsParent
    split
    · exact .refl p s
    · exact (ite (updateParentDepsIfNeeded _ _ _ _) (modify (by decide) _ _)).trans (hset _ _)
  have hdup : ∀ s j, Wakes p s (handleDuplicatedJob q j a.parent a.timestamp s).2 := by
    intro s j
    unfold handleDuplicatedJob
    split
    · exact (hparent s j).trans (xadd _)
    · split
      · exact (hparent s j).trans (xadd _)
      · split
        · exact .refl p s
        · exact xadd _
  have hstore : ∀ s j, Wakes p s (storeNewJob mode q j a s) := fun s j =>
    ((storeJob _ _ _ _ _ _).trans (henqueue j a _)).trans (addParentDependency _ _)
  have hnew : ∀ s j, Wakes p s (addNewJob mode q j a s).2 := by
    intro s j
    unfold addNewJob
    cases a.opts.de with
    | none => exact hstore s j
    | some de =>
      have hded : Wakes p s (mode.deduplicate de j a s).2 :=
        of_frame (W := dedupWrites) (by decide) fun hκ => hmode.deduplicate de j a s _ hκ
      rcases hres : mode.deduplicate de j a s with ⟨_ | winner, s'⟩ <;> rw [hres] at hded
      · simp only [hres]
        exact hded.trans (hstore s' j)
      · simpa only [hres] using hded
  obtain ⟨-, heq⟩ | ⟨-, -, -, heq⟩ | ⟨j, -, -, heq⟩ := addJobWith_ends mode q a s <;> rw [heq]
  · exact .refl p s
  · exact (hdraw s).trans (hdup _ _)
  · exact (hdraw s).trans (hnew _ _)

/-! ### Fetching -/

theorem rpoplpush : Wakes p s (BullMQ.rpoplpush q s).2 := by
  have hkeep : KeepsMarker p s (BullMQ.rpoplpush q s).2 :=
    .of_frame (W := [.list .wait, .list .active]) (by decide) fun hκ => rpoplpush_frame q s hκ
  obtain ⟨-, heq⟩ | ⟨j, l, hl, heq⟩ := rpoplpush_cases q s
  · rw [heq]
    exact .refl p s
  · refine of_emptyLine hkeep fun hempty => ?_
    have hne : p ≠ q := by
      rintro rfl
      simp [hempty.wait] at hl
    rw [heq]
    exact hempty.of_eq (by simp [Keyspace.modify_of_ne, Keyspace.set_self, hne])
      (by simp [Keyspace.modify_of_ne, Keyspace.set_of_ne])

theorem moveJobFromPrioritizedToActive :
    Wakes p s (BullMQ.moveJobFromPrioritizedToActive q s).2 := by
  have hkeep : KeepsMarker p s (BullMQ.moveJobFromPrioritizedToActive q s).2 :=
    .of_frame (W := [.zset .prioritized, .list .active, .pc]) (by decide) fun hκ =>
      moveJobFromPrioritizedToActive_frame q s hκ
  obtain ⟨-, heq⟩ | ⟨j, hj, heq⟩ := moveJobFromPrioritizedToActive_cases q s
  · rw [heq]
    exact set (by decide) _ _
  · refine of_emptyLine hkeep fun hempty => ?_
    have hne : p ≠ q := by
      rintro rfl
      simp [hempty.prioritized] at hj
    rw [heq]
    exact hempty.of_eq (by simp [Keyspace.modify_of_ne])
      (by simp [Keyspace.modify_of_ne, Keyspace.modify_self, hne])

theorem popForMoveToActive : Wakes p s (BullMQ.popForMoveToActive q s).2 := by
  have hpast : Wakes p s (rpoplpushPastMarker q s).2 := by
    simp only [rpoplpushPastMarker]
    split
    · split
      · exact (rpoplpush.trans (modify (by decide) _ _)).trans rpoplpush
      · exact rpoplpush
    · exact rpoplpush
  simp only [BullMQ.popForMoveToActive]
  split
  · exact hpast
  · exact hpast.trans moveJobFromPrioritizedToActive

theorem popForFetchNextJob : Wakes p s (BullMQ.popForFetchNextJob q s).2 := by
  simp only [BullMQ.popForFetchNextJob]
  split
  · split
    · split
      · exact (rpoplpush.trans (modify (by decide) _ _)).trans moveJobFromPrioritizedToActive
      · exact rpoplpush.trans (modify (by decide) _ _)
    · exact rpoplpush
  · exact rpoplpush.trans moveJobFromPrioritizedToActive

theorem prepareJobForProcessing (t : ℤ) (m d : Option ℤ) (o : FetchOpts) :
    Wakes p s (BullMQ.prepareJobForProcessing q j t m d o s).2 := by
  have hcount : Feeds q p s (countActivation m d q s).2 :=
    .of_frame (W := [.limiter]) (by decide) fun hκ =>
      countActivation_frame m d q s (by simpa using hκ)
  have hlock : ∀ s : Store, Feeds q p s
      (if o.token ≠ "0" then s.set .lock (q ++ j) (some o.token) else s) := fun s => by
    split
    · exact .of_frame (W := [.lock]) (by decide) fun hκ =>
        Keyspace.set_of_ne _ (by simpa using hκ) ..
    · exact .refl q p s
  have hhash : ∀ (s : Store) f, Feeds q p s (s.hset (q ++ j) f) := fun s f =>
    .of_frame (W := [.hash]) (by decide) fun hκ => Store.hset_of_ne _ _ _ (by simpa using hκ)
  have hev : ∀ (s : Store) e, Feeds q p s (s.xadd q e) := fun s e =>
    .of_frame (W := [.events]) (by decide) fun hκ => Store.xadd_of_ne _ _ _ (by simpa using hκ)
  simp only [BullMQ.prepareJobForProcessing]
  split
  · exact of_frame (W := [.limiter]) (by decide) fun hκ =>
      countActivation_frame m d q s (by simpa using hκ)
  · exact ((((hcount.trans (hlock _)).trans (hev _ _)).trans (hhash _ _)).trans (hhash _ _)).mark
      fun _ _ => rfl

theorem startFetch (t : ℤ) (o : FetchOpts) : Wakes p s (BullMQ.startFetch q t o s).2 :=
  (promoteDelayedJobs t asked).trans (of_frame (W := [.limiter]) (by decide) fun hκ =>
    getRateLimitTTL_frame _ q _ (by simpa using hκ))

theorem takeJob {pop : String → Store → Popped × Store} (hpop : ∀ s, Wakes p s (pop q s).2)
    (t : ℤ) (m d : Option ℤ) (o : FetchOpts) : Wakes p s (BullMQ.takeJob pop q t m d o s).2 := by
  simp only [BullMQ.takeJob]
  split
  · exact (hpop s).trans (prepareJobForProcessing _ _ _ _)
  · exact hpop s
  · exact hpop s

theorem fetchWith {pop : String → Store → Popped × Store} (hpop : ∀ s, Wakes p s (pop q s).2)
    (t : ℤ) (o : FetchOpts) : Wakes p s (BullMQ.fetchWith pop q t o s).2 := by
  obtain ⟨e, -, hres⟩ | ⟨-, -, hres⟩ := fetchWith_cases pop q t o s
  · rw [hres]
    exact startFetch t o
  · rw [hres]
    exact (startFetch t o).trans (takeJob hpop _ _ _ _)

theorem fetchNextJob (t : ℤ) (o : FetchOpts) : Wakes p s (BullMQ.fetchNextJob q t o s).2 :=
  fetchWith (fun _ => popForFetchNextJob) t o

theorem moveToActive (t : ℤ) (o : FetchOpts) : Wakes p s (Script.moveToActive q t o s).2 :=
  fetchWith (fun _ => popForMoveToActive) t o

/-! ### Ending an activation -/

theorem leftActive (t : String) (f : Option FieldsToUpdate) :
    Wakes p s (BullMQ.leftActive q j t f s) :=
  of_frame (W := [.lock, .stalled, .hash, .list .active]) (by decide) fun hκ =>
    leftActive_frame q j t f s hκ

theorem removeJobFromActive (t : String) (f : Option FieldsToUpdate) :
    Wakes p s (BullMQ.removeJobFromActive q j t f s).2 := by
  obtain ⟨-, n, -, -, heq⟩ | ⟨-, -, heq⟩ | ⟨-, -, heq⟩ := removeJobFromActive_cases q j t f s <;>
    rw [heq]
  · exact .refl p s
  · exact of_frame (W := [.lock, .stalled, .hash]) (by decide) fun hκ =>
      releasedJob_frame q j t f s hκ
  · exact leftActive t f

theorem requeueDeduplicatedJob (d : Option String) (t : ℤ) :
    Wakes p s (BullMQ.requeueDeduplicatedJob q d t s) := by
  unfold BullMQ.requeueDeduplicatedJob
  split
  · exact .refl p s
  · split
    · exact .refl p s
    · simp only
      refine .trans ?_ (set (by decide) _ _)
      refine .trans ?_ (addParentDependency _ _)
      refine .trans ?_ (storeAndEnqueueJob _ _ _ _ _ _)
      refine .trans ?_ getOrSetMaxEvents
      exact (modify (by decide) _ _).trans (set (by decide) _ _)

theorem removeJobKeys (k : String) : Wakes p s (BullMQ.removeJobKeys k s) :=
  of_frame (W := jobKeyWrites) (by decide) fun hκ => removeJobKeys_frame k s hκ

theorem removeDeduplicationKeyIfNeededOnRemoval (d : Option String) :
    Wakes p s (BullMQ.removeDeduplicationKeyIfNeededOnRemoval q j d s) :=
  of_frame (W := [.de, .dn]) (by decide) fun hκ =>
    removeDeduplicationKeyIfNeededOnRemoval_frame q j d s hκ

theorem removeJob (b : Bool) : Wakes p s (BullMQ.removeJob q b s j) :=
  ((removeParentDependencyKey _ _).trans
    (ite (removeDeduplicationKeyIfNeededOnRemoval _) (.refl p _))).trans (removeJobKeys _)

theorem keepOrRemove (P : Option Parent) (a : FinishArgs) :
    Wakes p s (BullMQ.keepOrRemove q P a s) := by
  have hz : Kind.zset a.target.zset ∉ announceKinds ++ queuedKinds := by
    cases a.target <;> decide
  refine keepOrRemove_rule (I := Wakes p s) (fun _ hs => hs.trans ?_)
    (fun _ _ hs => hs.trans (modify hz _ _)) (fun _ _ hs => hs.trans (removeJob _))
    (fun _ hs => hs.trans (removeJobKeys _))
    (fun _ _ hs => hs.trans (removeParentDependencyKey _ _)) P (.refl p s)
  simp only [recordFinished]
  exact ((modify hz _ _).trans (hset _ _)).trans (ite (hdel _ _) (.refl p _))

theorem finishJob (a : FinishArgs) : Wakes p s (BullMQ.finishJob q a s) := by
  have hnotify : ∀ (P : Option Parent) (s : Store),
      Wakes p s (notifyParent P (q ++ a.jobId) a s) := by
    intro P s
    unfold notifyParent
    split
    · exact .refl p s
    · split
      · exact .refl p s
      · split
        · exact ite ((modify (by decide) _ _).trans (updateParentDepsIfNeeded _ _ _ _)) (.refl p s)
        · exact moveChildFromDependenciesIfNeeded _ _ _ _
  have hsettle : Wakes p s (settleFinished q a s) := by
    refine .trans ?_ (hnotify _ _)
    refine .trans ?_ (requeueDeduplicatedJob _ _)
    exact getOrSetMaxEvents.trans (of_frame (W := [.de]) (by decide) fun hκ =>
      removeDeduplicationKeyIfNeededOnFinalization_frame _ _ _ _ (by simpa using hκ))
  have hemit : ∀ (s : Store) n, Wakes p s (emitFinished q a n s) := fun s n =>
    (xadd _).trans (ite (xadd _) (.refl p _))
  have hrest : ∀ s' n P, Wakes p s' (emitFinished q a n (BullMQ.keepOrRemove q P a
      (s'.hset (q ++ a.jobId) fun job => { job with atm := job.atm + 1 }))) := fun s' n P =>
    ((hset _ _).trans (keepOrRemove P a)).trans (hemit _ _)
  simp only [BullMQ.finishJob]
  split
  · exact (hsettle.trans (hrest _ _ _)).trans (modify (by decide) _ _)
  · exact hsettle.trans (hrest _ _ _)

theorem moveToFinished (a : FinishArgs) : Wakes p s (Script.moveToFinished q a s).2 := by
  have hdrained : ∀ s : Store, Wakes p s (emitDrained q s) := fun s => ite (xadd _) (.refl p s)
  have hfetch : ∀ s : Store, Wakes p s (fetchOrDrain q a s).2 := by
    intro s
    simp only [fetchOrDrain]
    split
    · split
      · exact fetchNextJob _ _
      · exact (fetchNextJob _ _).trans (hdrained _)
    · exact hdrained s
  have hleave : Wakes p s
      (BullMQ.removeJobFromActive q a.jobId a.opts.token a.fieldsToUpdate s).2 :=
    removeJobFromActive _ _
  simp only [Script.moveToFinished]
  split
  · exact .refl p s
  · split
    · exact .refl p s
    · split
      · exact .refl p s
      · split
        · exact hleave
        · exact (hleave.trans (finishJob a)).trans (hfetch _)

theorem moveToDelayed (a : DelayArgs) : Wakes p s (Script.moveToDelayed q a s).2 := by
  have hdelay : ∀ s : Store, Wakes p s (delayJob q a s) := by
    intro s
    simp only [delayJob]
    refine .trans ?_ (xadd _)
    refine .trans ?_ (modify (by decide) _ _)
    refine .trans ?_ getOrSetMaxEvents
    exact (ite (.refl p s) (hset _ _)).trans (hset _ _)
  have hfetch : ∀ s : Store, Wakes p s (fetchOrMark q a s).2 := by
    intro s
    simp only [fetchOrMark]
    split
    · exact addDelayMarkerIfNeeded
    · split
      · exact fetchNextJob _ _
      · exact fetchNextJob _ _
      · exact (fetchNextJob _ _).trans addDelayMarkerIfNeeded
  have hleave : Wakes p s (BullMQ.removeJobFromActive q a.jobId a.token a.fieldsToUpdate s).2 :=
    removeJobFromActive _ _
  simp only [Script.moveToDelayed]
  split
  · exact .refl p s
  · split
    · exact hleave
    · exact (hleave.trans (hdelay _)).trans (hfetch _)

theorem moveToWaitingChildren (t c : String) (ts : ℤ) :
    Wakes p s (Script.moveToWaitingChildren q j t c ts s).2 :=
  of_frame (W := [.lock, .stalled, .hash, .list .active, .zset .waitingChildren, .events])
    (by decide) fun hκ => Script.moveToWaitingChildren_frame q j t c ts s hκ

theorem retryJob (a : RetryArgs) : Wakes p s (Script.retryJob q a s).2 := by
  have hrequeue : ∀ s : Store, Wakes p s (requeueJob q a s) := by
    intro s
    simp only [requeueJob]
    refine .trans ?_ (xadd _)
    refine .trans ?_ getOrSetMaxEvents
    exact (ite (addJobInTargetList _ asked) (addJobWithPriority _ asked)).trans (hset _ _)
  have hpromote : Wakes p s
      (BullMQ.promoteDelayedJobs q a.timestamp (isQueuePausedOrMaxed q s) s) :=
    promoteDelayedJobs _ asked
  simp only [Script.retryJob]
  split
  · exact hpromote
  · have hleave := hpromote.trans (removeJobFromActive (q := q) (j := a.jobId) a.token
      a.fieldsToUpdate)
    split
    · exact hleave
    · exact hleave.trans (hrequeue _)

/-- A prioritized job that is pushed back goes into line without a marker. -/
theorem moveJobFromActiveToWait {i t : String}
    (h : q = p → ¬ 0 < s.priorityOf (q ++ i)) :
    Wakes p s (Script.moveJobFromActiveToWait q i t s).2 := by
  have hunlock : Wakes p s (removeLock q i t s).2 :=
    of_frame (W := [.lock, .stalled]) (by decide) fun hκ => removeLock_frame q i t s hκ
  have hpush : ∀ s' : Store, s' .hash = s .hash → Wakes p s' (pushBackJob q i s') := by
    intro s' hhash
    have hprio : s'.priorityOf (q ++ i) = s.priorityOf (q ++ i) := by
      rw [Store.priorityOf, hhash, Store.priorityOf]
    simp only [pushBackJob]
    refine .trans ?_ (xadd _)
    refine .trans ?_ getOrSetMaxEvents
    split
    · next hpos =>
      have hne : q ≠ p := fun hq => h hq (hprio ▸ hpos)
      have hfeeds : Feeds q p s' (pushBackJobWithPriority q (s'.priorityOf (q ++ i)) i s') :=
        .modify (by decide) _
      exact of_emptyLine hfeeds.toKeepsMarker (hfeeds.others hne)
    · exact addJobInTargetList _ asked
  simp only [Script.moveJobFromActiveToWait]
  split
  · exact .refl p s
  · split
    · exact hunlock
    · refine hunlock.trans ?_
      simp only
      split
      · refine (modify (κ := .list .active) (by decide) _ _).trans (hpush _ ?_)
        rw [Keyspace.modify_of_ne _ (by decide), removeLock_frame _ _ _ _ (by decide)]
      · exact .refl p _

/-! ### Moves on request -/

theorem modifyWait {f : List String → List String} (hf : f [] = []) :
    Wakes p s (s.modify (.list .wait) q f) := by
  have hfeeds : Feeds q p s (s.modify (.list .wait) q f) := .modify (by decide) _
  refine of_emptyLine hfeeds.toKeepsMarker fun hempty => ?_
  by_cases hq : q = p
  · subst hq
    exact ⟨by rw [Keyspace.modify_self, Function.update_self, hempty.wait, hf],
      by rw [Keyspace.modify_of_ne _ (by decide), hempty.prioritized]⟩
  · exact hfeeds.others hq hempty

theorem modifyPrioritized {f : ZSet → ZSet} (hf : f ∅ = ∅) :
    Wakes p s (s.modify (.zset .prioritized) q f) := by
  have hfeeds : Feeds q p s (s.modify (.zset .prioritized) q f) := .modify (by decide) _
  refine of_emptyLine hfeeds.toKeepsMarker fun hempty => ?_
  by_cases hq : q = p
  · subst hq
    exact ⟨by rw [Keyspace.modify_of_ne _ (by decide), hempty.wait],
      by rw [Keyspace.modify_self, Function.update_self, hempty.prioritized, hf]⟩
  · exact hfeeds.others hq hempty

/-- A list that shrinks. -/
theorem modifyList (l : ListKey) {f : List String → List String} (hf : f [] = []) :
    Wakes p s (s.modify (.list l) q f) := by
  cases l with
  | wait => exact modifyWait hf
  | paused => exact modify (by decide) _ _
  | active => exact modify (by decide) _ _

/-- A sorted set that shrinks. -/
theorem modifyZSet (z : ZSetKey) {f : ZSet → ZSet} (hf : f ∅ = ∅) :
    Wakes p s (s.modify (.zset z) q f) := by
  cases z with
  | prioritized => exact modifyPrioritized hf
  | _ => exact modify (by decide) _ _

theorem moveStalledJobsToWait (m t c : ℤ) :
    Wakes p s (Script.moveStalledJobsToWait q m t c s).2 := by
  have hround : ∀ (acc : List String × Store) i, Wakes p acc.2 (reclaimStalledJob q m acc i).2 := by
    intro acc i
    have hcount : ∀ s : Store, Wakes p s (countStall q i m s) := fun s =>
      (hset _ _).trans (ite (hset _ _) (.refl p _))
    simp only [reclaimStalledJob]
    split
    · exact modify (by decide) _ _
    · split
      · exact (((modify (by decide) _ _).trans (hcount _)).trans (moveJobToWait _)).trans (xadd _)
      · exact .refl p _
  have hrounds : ∀ (l : List String) (acc : List String × Store),
      Wakes p acc.2 (l.foldl (reclaimStalledJob q m) acc).2 := by
    intro l
    induction l with
    | nil => exact fun acc => .refl p _
    | cons i l ih => exact fun acc => (hround acc i).trans (ih _)
  simp only [Script.moveStalledJobsToWait]
  split
  · exact .refl p s
  · split
    · exact .refl p s
    · refine .trans ?_ (of_frame (W := [.stalled]) (by decide) fun hκ =>
        markActive_frame q _ (by simpa using hκ))
      refine .trans ?_ (hrounds _ _)
      refine .trans ?_ (set (by decide) _ _)
      exact (set (by decide) _ _).trans getOrSetMaxEvents

theorem promote : Wakes p s (Script.promote q j s).2 := by
  have hdrop : ∀ s : Store, Wakes p s (dropHeadMarker q s) := fun s => modifyWait rfl
  have hfirst : Wakes p s (s.modify (.zset .delayed) q (·.zrem j)) := modify (by decide) _ _
  simp only [Script.promote]
  split
  · dsimp only
    refine .trans ?_ (hset _ _)
    refine .trans ?_ (xadd _)
    refine (hfirst.trans (hdrop _)).trans ?_
    exact ite (addJobInTargetList _ (asked_of (hdrop _).toKeepsMarker))
      (addJobWithPriority _ (asked_of (hdrop _).toKeepsMarker))
  · exact .refl p s

theorem changeDelay (d t : ℤ) : Wakes p s (Script.changeDelay q d t j s).2 := by
  simp only [Script.changeDelay]
  split
  · exact .refl p s
  · split
    · exact .refl p s
    · refine .trans ?_ addDelayMarkerIfNeeded
      refine .trans ?_ (xadd _)
      refine .trans ?_ getOrSetMaxEvents
      refine .trans ?_ (modify (by decide) _ _)
      exact (modify (by decide) _ _).trans (hset _ _)

/-- A job that changes its place in the line was in it. -/
theorem changePriority (n : ℤ) (lifo : Bool) :
    Wakes p s (Script.changePriority q n j lifo s).2 := by
  -- The job was in line, so the line of this queue was not empty before; another queue is fed
  -- nothing.
  have hempty : ∀ {s s' : Store}, KeepsMarker p s s' → (q = p → ¬ EmptyLine p s) →
      (q ≠ p → EmptyLine p s → EmptyLine p s') → Wakes p s s' := fun hkeep hbusy hother =>
    of_emptyLine hkeep fun h => if hq : q = p then absurd h (hbusy hq) else hother hq h
  have hreAdd : ∀ {t : Store}, KeepsMarker p s t →
      Feeds q p t (reAddJobWithNewPriority q lifo n j (isQueuePausedOrMaxed q s) t) := by
    intro t ht
    have hmark : ∀ {u : Store}, Feeds q p t u →
        Feeds q p t (addBaseMarkerIfNeeded q (isQueuePausedOrMaxed q s) u) := fun hu =>
      ⟨(hu.mark (asked_of ht)).toKeepsMarker, fun hne hq =>
        (hu.others hne hq).of_eq (by rw [addBaseMarkerIfNeeded_frame _ _ _ (by decide)])
          (by rw [addBaseMarkerIfNeeded_frame _ _ _ (by decide)])⟩
    simp only [reAddJobWithNewPriority]
    split
    · exact hmark (.modify (by decide) _)
    · split
      · exact .modify (by decide) _
      · exact hmark ((Feeds.modify (by decide) _).trans (.modify (by decide) _))
  simp only [Script.changePriority]
  split
  · exact .refl p s
  · dsimp only
    refine .trans ?_ (hset _ _)
    split
    · next hmem =>
      have hrem : Feeds q p s (s.modify (.zset .prioritized) q (·.zrem j)) := .modify (by decide) _
      have hall := hrem.trans (hreAdd hrem.toKeepsMarker)
      refine hempty hall.toKeepsMarker (fun hq h => ?_) hall.others
      rw [hq, h.prioritized] at hmem
      exact SortedSet.notMem_empty _ hmem
    · split
      · next hmem =>
        have hrem : Feeds q p s (s.modify (.list .wait) q (lremRight j)) := .modify (by decide) _
        have hall := hrem.trans (hreAdd hrem.toKeepsMarker)
        refine hempty hall.toKeepsMarker (fun hq h => ?_) hall.others
        rw [hq, h.wait] at hmem
        exact List.not_mem_nil hmem
      · exact .refl p s

theorem reprocessJob (a : ReprocessArgs) : Wakes p s (Script.reprocessJob q a s).2 := by
  have hz : Kind.zset a.state.zset ∉ announceKinds ++ queuedKinds := by
    cases a.state <;> decide
  have hrestore : ∀ s : Store, Wakes p s (restoreDependency (q ++ a.jobId) a.state s) := fun s =>
    of_frame (W := [.dependencies, .processed, .failedChildren, .unsuccessful]) (by decide)
      fun hκ => restoreDependency_frame _ _ _ hκ
  simp only [Script.reprocessJob]
  split
  · exact .refl p s
  · split
    · refine .trans ?_ (xadd _)
      refine .trans ?_ getOrSetMaxEvents
      refine .trans ?_ (hrestore _)
      exact ((modify hz _ _).trans (hdel _ _)).trans (addJobInTargetList _ asked)
    · exact .refl p s

theorem moveJobsToWait (st : BulkState) (m t : ℤ) :
    Wakes p s (Script.moveJobsToWait q st m t s).2 := by
  have hz : Kind.zset st.zset ∉ announceKinds := by
    rcases st with status | _
    · cases status <;> decide
    · decide
  have hbatch : ∀ (s : Store) (jobs : List String),
      Feeds q p s (moveBatchToWait q st.zset s jobs) := by
    intro s jobs
    simp only [moveBatchToWait]
    exact (Feeds.modify hz _).trans (.modify (by decide) _)
  have hclear : ∀ (jobs : List String) (s : Store),
      Feeds q p s (jobs.foldl (clearResultOf q st) s) :=
    fun jobs s => .of_frame (W := [.hash]) (by decide) fun hκ =>
      foldl_clearResultOf_frame _ _ _ _ (by simpa using hκ)
  have hevents : ∀ (jobs : List String) (s : Store), Feeds q p s
      (jobs.foldl (fun s jobId => s.xadd q (.waiting jobId (some st.name))) s) := fun jobs s =>
    .of_frame (W := [.events]) (by decide) fun hκ => foldl_xadd_frame _ _ _ _ (by simpa using hκ)
  have hmax : ∀ s : Store, Feeds q p s (BullMQ.getOrSetMaxEvents q s) := fun s =>
    .of_frame (W := [.metaMaxLenEvents]) (by decide) fun hκ => getOrSetMaxEvents_frame q s hκ
  simp only [Script.moveJobsToWait]
  split
  · exact .refl p s
  · exact ((((hclear _ _).trans (hmax _)).trans (hevents _ _)).trans
      (.foldl (fun s range => hbatch s _) _ _)).mark asked

theorem deleteJob : Wakes p s (BullMQ.deleteJob q j s) := by
  have hany : Wakes p s (removeJobFromAnyState q j s).2 := by
    simp only [removeJobFromAnyState]
    split
    · exact modifyZSet _ rfl
    · exact modifyList _ rfl
    · exact .refl p s
  simp only [BullMQ.deleteJob]
  have hkeys := (hany.trans (removeDeduplicationKeyIfNeededOnRemoval (q := q) (j := j)
    ((removeJobFromAnyState q j s).2.deidOf (q ++ j)))).trans (removeJobKeys (q ++ j))
  split
  · exact (hkeys.trans getOrSetMaxEvents).trans (xadd _)
  · exact hkeys

theorem removeChildDependency (k k' : String) :
    Wakes p s (Script.removeChildDependency k k' s).2 := by
  simp only [Script.removeChildDependency]
  split
  · exact .refl p s
  · split
    · exact .refl p s
    · split
      · exact (removeParentDependencyKey _ _).trans (hdel _ _)
      · exact removeParentDependencyKey _ _

end Wakes

end BullMQ
