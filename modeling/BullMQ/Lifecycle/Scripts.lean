import BullMQ.Lifecycle.Within
import BullMQ.Placement.Scripts

/-!
# The ways that scripts lead jobs

What `Within` needs of its containers at each script: a fetch leads jobs from `delayed` into the
line and from the line to `active` (`AllowsFetch`), the end of a child leads its parent out of
`waiting-children` (`AllowsRelease`), and the other scripts lead the job they are about from one
container to another.
-/

namespace BullMQ

open Redis

/-- The containers allow the ways of a promotion. -/
structure AllowsPromotion (C : List Container) : Prop where
  wait : Allows C (.inr .delayed) (.inl .wait)
  prioritized : Allows C (.inr .delayed) (.inr .prioritized)

/-- The containers allow the ways of a fetch. -/
structure AllowsFetch (C : List Container) : Prop extends AllowsPromotion C where
  fromWait : Allows C (.inl .wait) (.inl .active)
  fromPrioritized : Allows C (.inr .prioritized) (.inl .active)

/-- The containers allow the ways of a released parent. -/
structure AllowsRelease (C : List Container) : Prop where
  wait : Allows C (.inr .waitingChildren) (.inl .wait)
  prioritized : Allows C (.inr .waitingChildren) (.inr .prioritized)
  delayed : Allows C (.inr .waitingChildren) (.inr .delayed)

/-- The containers that a new job may enter. -/
structure AllowsEntry (C : List Container) : Prop where
  wait : .inl .wait ∈ C
  prioritized : .inr .prioritized ∈ C
  delayed : .inr .delayed ∈ C

namespace Within

variable {C : List Container} {p q i j k : String} {s s' : Store}

/-! ### Fetching -/

theorem rpoplpush (h : Within C p j s) (hC : Allows C (.inl .wait) (.inl .active)) (q : String) :
    Within C p j (BullMQ.rpoplpush q s).2 := by
  obtain ⟨-, heq⟩ | ⟨i, l, hl, heq⟩ := rpoplpush_cases q s <;> rw [heq]
  · exact h
  · have hrest : Within C p j (s.set (.list .wait) q l) :=
      h.modify_list (f := fun _ => l) fun hq hmem => by
        subst hq
        exact h.list (by rw [hl]; simp [hmem])
    refine hrest.push .lpush .active fun hq hij => hC (h.list ?_)
    rw [← hq, ← hij, hl]
    simp

theorem moveJobFromPrioritizedToActive (h : Within C p j s)
    (hC : Allows C (.inr .prioritized) (.inl .active)) (q : String) :
    Within C p j (BullMQ.moveJobFromPrioritizedToActive q s).2 := by
  obtain ⟨-, heq⟩ | ⟨i, hi, heq⟩ := moveJobFromPrioritizedToActive_cases q s <;> rw [heq]
  · exact h.set (κ := .pc) (by decide) q _
  · refine (h.zrem .prioritized q i).push .lpush .active fun hq hij => hC (h.zset ?_)
    rwa [← hq, ← hij]

theorem popForMoveToActive (h : Within C p j s) (hC : AllowsFetch C) (q : String) :
    Within C p j (BullMQ.popForMoveToActive q s).2 := by
  have hpast : Within C p j (rpoplpushPastMarker q s).2 := by
    have hfst := h.rpoplpush hC.fromWait q
    simp only [rpoplpushPastMarker]
    split
    · split
      · exact (hfst.sublist_list .active q fun x => lremLeft_sublist _ x).rpoplpush hC.fromWait q
      · exact hfst
    · exact hfst
  simp only [BullMQ.popForMoveToActive]
  split
  · exact hpast
  · exact hpast.moveJobFromPrioritizedToActive hC.fromPrioritized q

theorem popForFetchNextJob (h : Within C p j s) (hC : AllowsFetch C) (q : String) :
    Within C p j (BullMQ.popForFetchNextJob q s).2 := by
  have hfst := h.rpoplpush hC.fromWait q
  simp only [BullMQ.popForFetchNextJob]
  split
  · split
    · have hleft := fun i => hfst.sublist_list .active q fun x => lremLeft_sublist i x
      split
      · exact (hleft _).moveJobFromPrioritizedToActive hC.fromPrioritized q
      · exact hleft _
    · exact hfst
  · exact hfst.moveJobFromPrioritizedToActive hC.fromPrioritized q

theorem fetchWith {pop : String → Store → Popped × Store}
    (hpop : ∀ s, Within C p j s → Within C p j (pop q s).2) (h : Within C p j s)
    (hC : AllowsPromotion C) (t : ℤ) (o : FetchOpts) :
    Within C p j (BullMQ.fetchWith pop q t o s).2 := by
  have hstart : Within C p j (startFetch q t o s).2 :=
    (h.promoteDelayedJobs hC.wait hC.prioritized q t _).of_frame (W := [.limiter]) (by decide)
      fun hκ => getRateLimitTTL_frame _ _ _ (by simpa using hκ)
  obtain ⟨e, -, hres⟩ | ⟨-, -, hres⟩ := fetchWith_cases pop q t o s <;> rw [hres]
  · exact hstart
  · have hpopped := hpop _ hstart
    simp only [takeJob]
    split
    · exact hpopped.of_frame (by decide) (prepareJobForProcessing_frame _ _ _ _ _ _ _)
    · exact hpopped
    · exact hpopped

theorem fetchNextJob (h : Within C p j s) (hC : AllowsFetch C) (q : String) (t : ℤ)
    (o : FetchOpts) : Within C p j (BullMQ.fetchNextJob q t o s).2 :=
  fetchWith (fun _ hs => hs.popForFetchNextJob hC q) h hC.toAllowsPromotion t o

theorem moveToActive (h : Within C p j s) (hC : AllowsFetch C) (q : String) (t : ℤ)
    (o : FetchOpts) : Within C p j (Script.moveToActive q t o s).2 :=
  fetchWith (fun _ hs => hs.popForMoveToActive hC q) h hC.toAllowsPromotion t o

/-! ### Parents -/

theorem moveParentToWait (h : Within C p j s) {P : Parent} (t : ℤ)
    (hi : P.base = p → P.id = j →
      .inl .wait ∈ C ∧ .inr .prioritized ∈ C ∧ .inr .delayed ∈ C) :
    Within C p j (BullMQ.moveParentToWait P t s) := by
  simp only [BullMQ.moveParentToWait]
  split
  · exact ((h.zadd .delayed _ fun hq hij => (hi hq hij).2.2).xadd _ _).of_frame (by decide)
      (addDelayMarkerIfNeeded_frame _ _)
  · exact (h.enqueue .rpush _ _ fun hq hij => ⟨(hi hq hij).1, (hi hq hij).2.1⟩).xadd _ _

theorem moveParentToWaitIfNeeded (h : Within C p j s) (hC : AllowsRelease C) (P : Parent) (t : ℤ) :
    Within C p j (BullMQ.moveParentToWaitIfNeeded P t s) := by
  unfold BullMQ.moveParentToWaitIfNeeded
  split
  · next hwaits =>
    refine (h.zrem .waitingChildren P.base P.id).moveParentToWait t fun hq hij => ?_
    have hmem := h.zset (z := .waitingChildren) (by rw [← hq, ← hij]; exact hwaits.2)
    exact ⟨hC.wait hmem, hC.prioritized hmem, hC.delayed hmem⟩
  · exact h

theorem moveParentToWaitIfNoPendingDependencies (h : Within C p j s) (hC : AllowsRelease C)
    (P : Parent) (t : ℤ) : Within C p j (BullMQ.moveParentToWaitIfNoPendingDependencies P t s) := by
  unfold BullMQ.moveParentToWaitIfNoPendingDependencies
  split
  · exact h.moveParentToWaitIfNeeded hC P t
  · exact h

theorem updateParentDepsIfNeeded (h : Within C p j s) (hC : AllowsRelease C) (P : Parent)
    (k v : String) (t : ℤ) : Within C p j (BullMQ.updateParentDepsIfNeeded P k v t s) :=
  (h.modify (κ := .processed) (by decide) P.key _).moveParentToWaitIfNoPendingDependencies hC P t

theorem handleChildFailureAndMoveParentToWait (h : Within C p j s) (hC : AllowsRelease C)
    (hprom : AllowsPromotion C) (P : Parent) (k : String) (t : ℤ) :
    Within C p j (BullMQ.handleChildFailureAndMoveParentToWait P k t s) := by
  simp only [BullMQ.handleChildFailureAndMoveParentToWait]
  split
  · split
    · next hwaits =>
      refine ((h.zrem .waitingChildren P.base P.id).hset _ _).moveParentToWait t fun hq hij => ?_
      have hmem := h.zset (z := .waitingChildren) (by rw [← hq, ← hij]; exact hwaits)
      exact ⟨hC.wait hmem, hC.prioritized hmem, hC.delayed hmem⟩
    · split
      · next hdelayed =>
        refine (((h.hset _ _).zrem .delayed P.base P.id).hset _ _).moveParentToWait t
          fun hq hij => ?_
        have hmem := h.zset (z := .delayed) (by rw [← hq, ← hij]; exact hdelayed)
        exact ⟨hprom.wait hmem, hprom.prioritized hmem, hmem⟩
      · split
        · exact h
        · exact h.hset _ _
  · exact h

theorem moveChildFromDependenciesIfNeeded (h : Within C p j s) (hC : AllowsRelease C)
    (hprom : AllowsPromotion C) (R : Option Parent) (k r : String) (t : ℤ) :
    Within C p j (BullMQ.moveChildFromDependenciesIfNeeded R k r t s) := by
  unfold BullMQ.moveChildFromDependenciesIfNeeded
  split
  · exact h
  · next P =>
    have hleave := h.modify (κ := .dependencies) (by decide) P.key (·.srem k)
    split
    · split
      · exact (hleave.modify (κ := .unsuccessful) (by decide) P.key
          _).handleChildFailureAndMoveParentToWait hC hprom P k t
      · split
        · exact (hleave.modify (κ := .failedChildren) (by decide) P.key
            _).moveParentToWaitIfNeeded hC P t
        · split
          · have hfree := hleave.moveParentToWaitIfNoPendingDependencies hC P t
            split
            · exact hfree.modify (κ := .failedChildren) (by decide) P.key _
            · exact hfree
          · exact h
    · exact h

theorem removeParentDependencyKey (h : Within C p j s)
    (hC : Allows C (.inr .waitingChildren) (.inl .wait)) (k : String) (o : Option String) :
    Within C p j (BullMQ.removeParentDependencyKey k o s).2 := by
  have hunlink : ∀ k', Within C p j (unlinkChild k k' s).2 := by
    intro k'
    have hleave := h.modify (κ := .dependencies) (by decide) k' (·.srem k)
    simp only [unlinkChild]
    split
    · split
      · split
        · next hwaits =>
          refine ((hleave.zrem .waitingChildren _ _).addJobInTargetList .rpush _
            fun hq hij => hC (hleave.zset ?_)).xadd _ _
          rw [← hq, ← hij]
          exact hwaits
        · exact hleave
      · exact hleave
    · exact h
  unfold BullMQ.removeParentDependencyKey
  split
  · exact hunlink _
  · split
    · split
      · exact hunlink _
      · exact h
    · exact h

/-! ### Finishing scripts -/

theorem leftActive (h : Within C p j s) (q i t : String) (f : Option FieldsToUpdate) :
    Within C p j (BullMQ.leftActive q i t f s) :=
  (h.of_frame (by decide) (releasedJob_frame q i t f s)).sublist_list .active q
    (lremRight_sublist i)

theorem removeJob (h : Within C p j s) (hC : Allows C (.inr .waitingChildren) (.inl .wait))
    (q i : String) (b : Bool) : Within C p j (BullMQ.removeJob q b s i) := by
  simp only [BullMQ.removeJob]
  refine Within.of_frame ?_ (by decide) (removeJobKeys_frame _ _)
  have hunlinked := h.removeParentDependencyKey hC (q ++ i) none
  split
  · exact hunlinked.of_frame (by decide) (removeDeduplicationKeyIfNeededOnRemoval_frame _ _ _ _)
  · exact hunlinked

/-- The successor of a job that finishes. -/
theorem requeueDeduplicatedJob (h : Within C p j s) (hC : NoPending s ∨ AllowsEntry C)
    (q : String) (o : Option String) (t : ℤ) :
    Within C p j (BullMQ.requeueDeduplicatedJob q o t s) := by
  rcases hC with hdn | hC
  · rwa [requeueDeduplicatedJob_eq hdn]
  · unfold BullMQ.requeueDeduplicatedJob
    split
    · exact h
    · split
      · exact h
      · next d _ next _ =>
        refine (Within.of_frame ?_ (W := [.dependencies]) (by decide) fun hκ =>
          addParentDependency_frame _ _ _ (by simpa using hκ)).set (κ := .dn) (by decide) _ _
        have hkey := ((h.modify (κ := .id) (by decide) q (· + 1)).of_frame (W := [.de]) (by decide)
          fun hκ => setDeduplicationKey_frame (deduplicationKey q d) next.jid
            (if (next.opts.de.map DeduplicationOpts.keepLastIfActive).getD false then none
              else next.opts.de.bind DeduplicationOpts.ttl) _ (by simpa using hκ)).of_frame
          (by decide) (getOrSetMaxEvents_frame q _)
        simp only [storeAndEnqueueJob]
        have hstored := hkey.of_frame (by decide)
          (storeJob_frame q next.jid next.name next.data next.opts t next.parent next.rjk _)
        split
        · exact hstored.addDelayedJob _ _ fun _ _ => hC.delayed
        · split
          · exact (hstored.addJobWithPriority _ _ fun _ _ => hC.prioritized).xadd q _
          · exact (hstored.addJobInTargetList _ _ fun _ _ => hC.wait).xadd q _

theorem settleFinished (h : Within C p j s) (hnext : NoPending s ∨ AllowsEntry C)
    (hC : AllowsRelease C) (hprom : AllowsPromotion C) (q : String) (a : FinishArgs) :
    Within C p j (BullMQ.settleFinished q a s) := by
  have hreleased : Within C p j (removeDeduplicationKeyIfNeededOnFinalization q
      (s.deidOf (q ++ a.jobId)) a.jobId (trimEvents q s)) :=
    (h.of_frame (by decide) (trimEvents_frame q s)).of_frame (W := [.de]) (by decide)
      fun hκ => removeDeduplicationKeyIfNeededOnFinalization_frame _ _ _ _ (by simpa using hκ)
  have hnext' : NoPending (removeDeduplicationKeyIfNeededOnFinalization q
      (s.deidOf (q ++ a.jobId)) a.jobId (trimEvents q s)) ∨ AllowsEntry C := by
    refine hnext.imp_left fun hdn k => ?_
    rw [removeDeduplicationKeyIfNeededOnFinalization_frame _ _ _ _ (by decide),
      trimEvents_frame _ _ (by decide)]
    exact hdn k
  have hfreed := hreleased.requeueDeduplicatedJob hnext' q (s.deidOf (q ++ a.jobId)) a.timestamp
  simp only [BullMQ.settleFinished]
  unfold notifyParent
  split
  · exact hfreed
  · split
    · exact hfreed
    · split
      · split
        · exact (hfreed.modify (κ := .dependencies) (by decide) _ _).updateParentDepsIfNeeded hC _ _
            _ _
        · exact hfreed
      · exact hfreed.moveChildFromDependenciesIfNeeded hC hprom _ _ _ _

theorem finishJob (h : Within C p j s) (hnext : NoPending s ∨ AllowsEntry C)
    (hC : AllowsRelease C) (hprom : AllowsPromotion C) {a : FinishArgs}
    (hi : q = p → a.jobId = j → .inr a.target.zset ∈ C) :
    Within C p j (BullMQ.finishJob q a s) := by
  have hcounted := (h.settleFinished hnext hC hprom q a).hset (q ++ a.jobId)
    fun job => { job with atm := job.atm + 1 }
  have hkept := keepOrRemove_rule (I := Within C p j) (p := q) (a := a)
    (fun s hs => by
      have hput := (hs.zadd a.target.zset a.timestamp hi).hset (q ++ a.jobId) a.record
      simp only [recordFinished]
      split
      · exact hput.hdel _ _
      · exact hput)
    (fun s l hs => hs.zremAll _ q l) (fun s i hs => hs.removeJob hC.wait q i false)
    (fun s hs => hs.of_frame (by decide) (removeJobKeys_frame _ _))
    (fun s k hs => hs.removeParentDependencyKey hC.wait _ _) (s.parentOf (q ++ a.jobId)) hcounted
  have hemitted : ∀ n, Within C p j (emitFinished q a n
      (keepOrRemove q (s.parentOf (q ++ a.jobId)) a (Store.hset (BullMQ.settleFinished q a s)
        (q ++ a.jobId) fun job => { job with atm := job.atm + 1 }))) := by
    intro n
    simp only [emitFinished]
    split
    · exact (hkept.xadd q _).xadd q _
    · exact hkept.xadd q _
  simp only [BullMQ.finishJob]
  split
  · exact (hemitted _).modify (κ := .metrics) (by decide) _ _
  · exact hemitted _

theorem moveToFinished (h : Within C p j s) (hnext : NoPending s ∨ AllowsEntry C)
    (hC : AllowsRelease C) (hfetch : AllowsFetch C) {a : FinishArgs}
    (hi : q = p → a.jobId = j → j ∈ s (.list .active) p → .inr a.target.zset ∈ C) :
    Within C p j (Script.moveToFinished q a s).2 := by
  have hdrain : ∀ s, Within C p j s → Within C p j (emitDrained q s) := by
    intro s hs
    unfold emitDrained
    split
    · exact hs.xadd q _
    · exact hs
  obtain ⟨-, n, -, -, hres⟩ | ⟨-, hres⟩ | ⟨hfin, hres⟩ := Script.moveToFinished_cases q a s <;>
    rw [hres]
  · exact h
  · exact h.of_frame (by decide) (releasedJob_frame _ _ _ _ _)
  · have hdone := (h.leftActive q a.jobId a.opts.token a.fieldsToUpdate).finishJob
      (hnext.imp_left fun hdn k => by
        rw [leftActive_frame _ _ _ _ _ (by decide)]
        exact hdn k) hC
      hfetch.toAllowsPromotion (q := q) (a := a)
      fun hq hij => hi hq hij (by rw [← hq, ← hij]; exact hfin.1.active)
    simp only [fetchOrDrain]
    split
    · have hnext := hdone.fetchNextJob hfetch q a.timestamp a.opts
      split
      · exact hnext
      · exact hdrain _ hnext
    · exact hdrain _ hdone

theorem moveToDelayed (h : Within C p j s) (hC : AllowsFetch C) {a : DelayArgs}
    (hi : q = p → a.jobId = j → j ∈ s (.list .active) p → .inr .delayed ∈ C) :
    Within C p j (Script.moveToDelayed q a s).2 := by
  have hmark : ∀ s, Within C p j s → Within C p j (addDelayMarkerIfNeeded q s) := fun s hs =>
    hs.of_frame (by decide) (addDelayMarkerIfNeeded_frame _ _)
  obtain ⟨-, n, -, -, hres⟩ | ⟨-, hres⟩ | ⟨hg, hres⟩ := Script.moveToDelayed_cases q a s <;>
    rw [hres]
  · exact h
  · exact h.of_frame (by decide) (releasedJob_frame _ _ _ _ _)
  · have hleft := h.leftActive q a.jobId a.token a.fieldsToUpdate
    have hdone : Within C p j (delayJob q a (BullMQ.leftActive q a.jobId a.token a.fieldsToUpdate
        s)) := by
      simp only [delayJob]
      refine Within.xadd (.zadd (.of_frame (.hset ?_ _ _) (by decide)
        (getOrSetMaxEvents_frame _ _)) .delayed _ fun hq hij =>
          hi hq hij (by rw [← hq, ← hij]; exact hg.active)) q _
      split
      · exact hleft
      · exact hleft.hset _ _
    simp only [fetchOrMark]
    split
    · exact hmark _ hdone
    · have hnext := hdone.fetchNextJob hC q a.timestamp
      split
      · exact hnext _
      · exact hnext _
      · exact hmark _ (hnext _)

theorem moveToWaitingChildren (h : Within C p j s) {t c : String} {ts : ℤ}
    (hi : q = p → i = j → j ∈ s (.list .active) p → .inr .waitingChildren ∈ C) :
    Within C p j (Script.moveToWaitingChildren q i t c ts s).2 := by
  obtain ⟨n, -, hres⟩ | ⟨-, hres⟩ | ⟨hg, -, hres⟩ :=
    Script.moveToWaitingChildren_cases q i t c ts s <;> rw [hres]
  · exact h
  · exact h.of_frame (by decide) (releasedJob_frame _ _ _ _ _)
  · exact ((h.leftActive q i t none).zadd .waitingChildren ts fun hq hij =>
      hi hq hij (by rw [← hq, ← hij]; exact hg.active)).xadd q _

theorem retryJob (h : Within C p j s) (hC : AllowsPromotion C) {a : RetryArgs}
    (hi : q = p → a.jobId = j → j ∈ s (.list .active) p →
      .inl .wait ∈ C ∧ .inr .prioritized ∈ C) :
    Within C p j (Script.retryJob q a s).2 := by
  have hpromoted := h.promoteDelayedJobs hC.wait hC.prioritized q a.timestamp
    (isQueuePausedOrMaxed q s)
  obtain ⟨s₀, hs₀, ⟨-, n, -, -, hres⟩ | ⟨-, hres⟩ | ⟨hg, hres⟩⟩ := Script.retryJob_cases q a s <;>
    rw [hres] <;> rw [← hs₀] at hpromoted
  · exact hpromoted
  · exact hpromoted.of_frame (by decide) (releasedJob_frame _ _ _ _ _)
  · have hactive : a.jobId ∈ s (.list .active) q := by
      have hmem := hg.active
      rwa [hs₀, promoteDelayedJobs_frame _ _ _ _ (by decide)] at hmem
    simp only [requeueJob]
    refine Within.xadd (.of_frame (.hset ?_ _ _) (by decide) (getOrSetMaxEvents_frame _ _)) q _
    exact (hpromoted.leftActive q a.jobId a.token a.fieldsToUpdate).enqueue _ _ _ fun hq hij =>
      hi hq hij (by rw [← hq, ← hij]; exact hactive)

theorem moveJobFromActiveToWait (h : Within C p j s) {t : String}
    (hi : q = p → i = j → j ∈ s (.list .active) p →
      .inl .wait ∈ C ∧ .inr .prioritized ∈ C) :
    Within C p j (Script.moveJobFromActiveToWait q i t s).2 := by
  obtain ⟨-, n, -, hres⟩ | ⟨-, n, hres⟩ | ⟨hg, n, hres⟩ :=
    Script.moveJobFromActiveToWait_cases q i t s <;> rw [hres]
  · exact h
  · exact h.of_frame (by decide) (removeLock_frame _ _ _ _)
  · have hleft := (h.of_frame (by decide) (removeLock_frame q i t s)).sublist_list .active q
      (lremLeft_sublist i)
    have hto := fun hq hij => hi hq hij (by rw [← hq, ← hij]; exact hg.active)
    simp only [pushBackJob]
    refine Within.xadd (.of_frame ?_ (by decide) (getOrSetMaxEvents_frame _ _)) q _
    split
    · exact hleft.zadd .prioritized _ fun hq hij => (hto hq hij).2
    · exact hleft.addJobInTargetList .rpush _ fun hq hij => (hto hq hij).1

/-! ### The stalled check -/

theorem reclaimStalledJob {acc : List String × Store} (h : Within C p j acc.2)
    (hC : Allows C (.inl .active) (.inl .wait)) (q i : String) (m : ℤ) :
    Within C p j (BullMQ.reclaimStalledJob q m acc i).2 := by
  have hleft := h.sublist_list .active q (lremLeft_sublist i)
  simp only [BullMQ.reclaimStalledJob]
  split
  · exact hleft
  · split
    · next hstalled =>
      have hcounted := hleft.of_frame (W := [.hash]) (by decide) fun hκ =>
        countStall_frame q i m _ (by simpa using hκ)
      exact ((hcounted.addJobInTargetList .rpush _ fun hq hij =>
        hC (h.list (by rw [← hq, ← hij]; exact hstalled.2))).xadd q _).xadd q _
    · exact h

theorem moveStalledJobsToWait (h : Within C p j s) (hC : Allows C (.inl .active) (.inl .wait))
    (q : String) (m t c : ℤ) : Within C p j (Script.moveStalledJobsToWait q m t c s).2 := by
  have hreclaimed : ∀ (l : List String) (acc : List String × Store), Within C p j acc.2 →
      Within C p j (l.foldl (BullMQ.reclaimStalledJob q m) acc).2 := by
    intro l
    induction l with
    | nil => exact fun _ hacc => hacc
    | cons i l ih => exact fun acc hacc => ih _ (hacc.reclaimStalledJob hC q i m)
  simp only [Script.moveStalledJobsToWait]
  split
  · exact h
  · split
    · exact h
    · have hstart : Within C p j ((trimEvents q (s.set .stalledCheck q (some t))).set .stalled q
          ∅ : Store) :=
        (Within.of_frame (h.set (κ := .stalledCheck) (by decide) q _) (by decide)
          (trimEvents_frame _ _)).set (κ := .stalled) (by decide) q _
      exact (hreclaimed _ _ hstart).of_frame (W := [.stalled]) (by decide) fun hκ =>
        markActive_frame _ _ (by simpa using hκ)

/-! ### Moves on request -/

theorem promote (h : Within C p j s) (hC : AllowsPromotion C) (q i : String) :
    Within C p j (Script.promote q i s).2 := by
  simp only [Script.promote]
  split
  · next hdelayed =>
    have hhead : Within C p j (dropHeadMarker q (s.modify (.zset .delayed) q (·.zrem i))) :=
      (h.zrem .delayed q i).sublist_list .wait q fun l => by
        cases l with
        | nil => exact List.Sublist.refl _
        | cons marker rest =>
          dsimp only
          split
          · exact List.sublist_cons_self _ _
          · exact List.Sublist.refl _
    have hto : q = p → i = j → .inl .wait ∈ C ∧ .inr .prioritized ∈ C := fun hq hij => by
      have hmem := h.zset (z := .delayed) (by rw [← hq, ← hij]; exact hdelayed)
      exact ⟨hC.wait hmem, hC.prioritized hmem⟩
    dsimp only
    exact ((hhead.enqueue .lpush _ _ hto).xadd q _).hset _ _
  · exact h

theorem changeDelay (h : Within C p j s) (q i : String) (d t : ℤ) :
    Within C p j (Script.changeDelay q d t i s).2 := by
  simp only [Script.changeDelay]
  split
  · exact h
  · split
    · exact h
    · next hdelayed =>
      refine Within.of_frame (.xadd (.of_frame (.zadd ((h.zrem .delayed q i).hset _ _) .delayed _
        fun hq hij => ?_) (by decide) (getOrSetMaxEvents_frame _ _)) q _) (by decide)
        (addDelayMarkerIfNeeded_frame _ _)
      exact h.zset (by rw [← hq, ← hij]; exact not_not.mp hdelayed)

theorem reAddJobWithNewPriority (h : Within C p j s) (l : Bool) (n : ℤ) (b : Bool)
    (hi : q = p → i = j → .inl .wait ∈ C ∧ .inr .prioritized ∈ C) :
    Within C p j (BullMQ.reAddJobWithNewPriority q l n i b s) := by
  simp only [BullMQ.reAddJobWithNewPriority]
  split
  · exact h.addJobInTargetList _ b fun hq hij => (hi hq hij).1
  · split
    · exact h.zadd .prioritized _ fun hq hij => (hi hq hij).2
    · exact h.addJobWithPriority n b fun hq hij => (hi hq hij).2

theorem changePriority (h : Within C p j s)
    (hwait : Allows C (.inr .prioritized) (.inl .wait))
    (hprio : Allows C (.inl .wait) (.inr .prioritized)) (q i : String) (n : ℤ) (l : Bool) :
    Within C p j (Script.changePriority q n i l s).2 := by
  simp only [Script.changePriority]
  split
  · exact h
  · dsimp only
    refine Within.hset ?_ _ _
    split
    · next hmem =>
      refine (h.zrem .prioritized q i).reAddJobWithNewPriority l n _ fun hq hij => ?_
      have hin := h.zset (z := .prioritized) (by rw [← hq, ← hij]; exact hmem)
      exact ⟨hwait hin, hin⟩
    · split
      · next hmem =>
        refine (h.sublist_list .wait q (lremRight_sublist i)).reAddJobWithNewPriority l n _
          fun hq hij => ?_
        have hin := h.list (l := .wait) (by rw [← hq, ← hij]; exact hmem)
        exact ⟨hin, hprio hin⟩
      · exact h

theorem restoreDependency (h : Within C p j s) (k : String) (st : FinishedStatus) :
    Within C p j (BullMQ.restoreDependency k st s) :=
  h.of_frame (W := [.dependencies, .processed, .failedChildren, .unsuccessful]) (by decide)
    (restoreDependency_frame k st s)

theorem reprocessJob (h : Within C p j s) {a : ReprocessArgs}
    (hC : Allows C (.inr a.state.zset) (.inl .wait)) (q : String) :
    Within C p j (Script.reprocessJob q a s).2 := by
  simp only [Script.reprocessJob]
  split
  · exact h
  · split
    · next hmem =>
      refine Within.xadd (.of_frame (.restoreDependency (.addJobInTargetList
        ((h.zrem a.state.zset q a.jobId).hdel _ _) _ _ fun hq hij => ?_) _ _) (by decide)
        (getOrSetMaxEvents_frame _ _)) q _
      exact hC (h.zset (by rw [← hq, ← hij]; exact hmem))
    · exact h

theorem moveJobsToWait (h : Within C p j s) {st : BulkState}
    (hC : Allows C (.inr st.zset) (.inl .wait)) (q : String) (m t : ℤ) :
    Within C p j (Script.moveJobsToWait q st m t s).2 := by
  set jobs := limitTo m ((s (.zset st.zset) q).rangeByScore 0 t) with hjobs
  have hto : q = p → j ∈ jobs → .inl .wait ∈ C := fun hq hj => by
    subst hq
    exact hC (h.zset ((SortedSet.rangeByScore_sublist _ _ _).subset
      ((limitTo_sublist _ _).subset hj)))
  have hbatch : ∀ s range, Within C p j s →
      Within C p j (moveBatchToWait q st.zset s (unpack jobs range)) := by
    intro s range hs
    have hleft := hs.zremAll st.zset q fun _ => unpack jobs range
    simp only [moveBatchToWait]
    refine hleft.modify_list fun hq hj => ?_
    have hpushed : ∀ l, (unpack jobs range).foldl (fun l jobId => lpush jobId l) l =
        (unpack jobs range).reverse ++ l := fun l =>
      List.foldl_flip_cons_eq_append'
    rw [hpushed, List.mem_append, List.mem_reverse] at hj
    rcases hj with hj | hj
    · exact hto hq (List.mem_of_mem_drop (List.mem_of_mem_take hj))
    · exact hleft.list hj
  have hclear : ∀ s i, Within C p j s → Within C p j (clearResultOf q st s i) := by
    intro s i hs
    unfold clearResultOf
    split
    · exact hs.hdel _ _
    · exact hs
  simp only [Script.moveJobsToWait, ← hjobs]
  split
  · exact h
  · exact Within.of_frame (.foldl (fun s range _ => hbatch s range)
      (.foldl (fun s i _ hs => hs.xadd q _) (.of_frame (.foldl (fun s i _ => hclear s i) h)
        (by decide) (getOrSetMaxEvents_frame _ _)))) (by decide) (addBaseMarkerIfNeeded_frame _ _ _)

/-- Resuming a queue moves the jobs of its legacy paused list. -/
theorem pause (h : Within C p j s) (hC : Allows C (.inl .paused) (.inl .wait)) (q : String)
    (b e : Bool) : Within C p j (Script.pause q b e s).2 := by
  have hdrain : ∀ s, Within C p j s → Within C p j (drainPaused q s) := by
    intro s hs
    have hto : q = p → j ∈ s (.list .paused) q → .inl .wait ∈ C := fun hq hj =>
      hC (hs.list (hq ▸ hj))
    simp only [drainPaused]
    split
    · exact hs
    · split
      · exact (hs.modify_list (f := fun _ => s (.list .paused) q) hto).modify_list
          (f := fun _ => []) fun _ hj => (by cases hj)
      · refine (hs.modify_list (f := (· ++ (s (.list .paused) q).take 7000))
          fun hq hj => ?_).modify_list (f := fun _ => (s (.list .paused) q).drop 7000)
          fun hq hj => hs.list (hq ▸ List.mem_of_mem_drop hj)
        rcases List.mem_append.mp hj with hj | hj
        · exact hs.list hj
        · exact hto hq (List.mem_of_mem_take hj)
  have hmain : Within C p j (if b then pauseQueue q s else resumeQueue q s) := by
    split
    · exact (h.set (κ := .metaPaused) (by decide) q _).set (κ := .marker) (by decide) q _
    · exact (hdrain _ (h.set (κ := .metaPaused) (by decide) q _)).of_frame (W := [.marker])
        (by decide) fun hκ => markResumed_frame _ _ (by simpa using hκ)
  simp only [Script.pause]
  split
  · exact hmain.xadd q _
  · exact hmain

/-! ### Removals -/

theorem deleteJob (h : Within C p j s) (q i : String) : Within C p j (BullMQ.deleteJob q i s) := by
  have hany : Within C p j (removeJobFromAnyState q i s).2 := by
    simp only [removeJobFromAnyState]
    split
    · exact h.zrem _ q i
    · exact h.sublist_list _ q (lremLeft_sublist i)
    · exact h
  have hkeys : Within C p j (removeJobKeys (q ++ i) (removeDeduplicationKeyIfNeededOnRemoval q i
      ((removeJobFromAnyState q i s).2.deidOf (q ++ i)) (removeJobFromAnyState q i s).2)) :=
    (hany.of_frame (by decide) (removeDeduplicationKeyIfNeededOnRemoval_frame _ _ _ _)).of_frame
      (by decide) (removeJobKeys_frame _ _)
  simp only [BullMQ.deleteJob]
  split
  · exact (hkeys.of_frame (by decide) (getOrSetMaxEvents_frame _ _)).xadd q _
  · exact hkeys

theorem removeChildDependency (h : Within C p j s)
    (hC : Allows C (.inr .waitingChildren) (.inl .wait)) (k k' : String) :
    Within C p j (Script.removeChildDependency k k' s).2 := by
  simp only [Script.removeChildDependency]
  split
  · exact h
  · split
    · exact h
    · have hunlinked := h.removeParentDependencyKey hC k (some k')
      split
      · exact hunlinked.hdel _ _
      · exact hunlinked

/-! ### Adds -/

theorem handleDuplicatedJob (h : Within C p j s) (hC : AllowsRelease C) (q i : String)
    (P : Option Parent) (t : ℤ) : Within C p j (BullMQ.handleDuplicatedJob q i P t s).2 := by
  have hupdate : Within C p j (updateExistingJobsParent q i P t s) := by
    unfold updateExistingJobsParent
    split
    · exact h
    · next P =>
      apply Within.hset
      split
      · exact h.updateParentDepsIfNeeded hC P _ _ _
      · exact h.modify (κ := .dependencies) (by decide) _ _
  unfold BullMQ.handleDuplicatedJob
  split
  · exact hupdate.xadd q _
  · split
    · exact hupdate.xadd q _
    · split
      · exact h
      · exact h.xadd q _

end Within

end BullMQ
