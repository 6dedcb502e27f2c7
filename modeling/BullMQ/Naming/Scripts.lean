import BullMQ.Naming.Unheard

/-!
# Scripts bring in no names

The scripts that fetch, finish, move, remove and clean up jobs leave an id unheard of that is so
before them. The queue `q` they are called on and the queue `p` of the id are both of a `QueueSet`,
so that a job found in one of them does not have a key of the other.
-/

namespace BullMQ

open Redis

namespace Unheard

variable {Q : QueueSet} {p q i j k : String} {s s' : Store}

/-! ### Fetching -/

theorem rpoplpush (h : Unheard p j s) (q : String) : Unheard p j (BullMQ.rpoplpush q s).2 := by
  obtain ⟨-, heq⟩ | ⟨i, l, hl, heq⟩ := rpoplpush_cases q s <;> rw [heq]
  · exact h
  · have hi : q = p → i ≠ j := by
      rintro rfl rfl
      exact h.list .wait (by rw [hl]; simp)
    have hrest : Unheard p j (s.set (.list .wait) q l) :=
      h.modify_list (f := fun _ => l) fun hq hmem => by
        subst hq
        exact h.list .wait (by rw [hl]; simp [hmem])
    exact hrest.push .lpush .active hi

theorem moveJobFromPrioritizedToActive (h : Unheard p j s) (q : String) :
    Unheard p j (BullMQ.moveJobFromPrioritizedToActive q s).2 := by
  obtain ⟨-, heq⟩ | ⟨i, hi, heq⟩ := moveJobFromPrioritizedToActive_cases q s <;> rw [heq]
  · exact h.set (κ := .pc) (by decide) q _
  · refine (h.zrem .prioritized q i).push .lpush .active ?_
    rintro rfl rfl
    exact h.zset .prioritized hi

theorem rpoplpushPastMarker (h : Unheard p j s) (q : String) :
    Unheard p j (BullMQ.rpoplpushPastMarker q s).2 := by
  have hfst := h.rpoplpush q
  simp only [BullMQ.rpoplpushPastMarker]
  split
  · split
    · exact (hfst.sublist_list .active q fun x => lremLeft_sublist _ x).rpoplpush q
    · exact hfst
  · exact hfst

theorem popForMoveToActive (h : Unheard p j s) (q : String) :
    Unheard p j (BullMQ.popForMoveToActive q s).2 := by
  have hfst := h.rpoplpushPastMarker q
  simp only [BullMQ.popForMoveToActive]
  split
  · exact hfst
  · exact hfst.moveJobFromPrioritizedToActive q

theorem popForFetchNextJob (h : Unheard p j s) (q : String) :
    Unheard p j (BullMQ.popForFetchNextJob q s).2 := by
  have hfst := h.rpoplpush q
  simp only [BullMQ.popForFetchNextJob]
  split
  · split
    · have hleft := fun i => hfst.sublist_list .active q fun x => lremLeft_sublist i x
      split
      · exact (hleft _).moveJobFromPrioritizedToActive q
      · exact hleft _
    · exact hfst
  · exact hfst.moveJobFromPrioritizedToActive q

theorem prepareJobForProcessing (h : Unheard p j s) (hk : q ++ i ≠ p ++ j) (t : ℤ)
    (m d : Option ℤ) (o : FetchOpts) :
    Unheard p j (BullMQ.prepareJobForProcessing q i t m d o s).2 := by
  have hcount : Unheard p j (countActivation m d q s).2 :=
    h.of_frame (W := [.limiter]) (by decide) fun hκ => countActivation_frame _ _ _ _
      (by simpa using hκ)
  simp only [BullMQ.prepareJobForProcessing]
  split
  · exact hcount
  · have hlock : Unheard p j (if o.token ≠ "0" then
        Keyspace.set (countActivation m d q s).2 .lock (q ++ i) (some o.token)
        else (countActivation m d q s).2) := by
      split
      · exact hcount.set (κ := .lock) (by decide) _ _
      · exact hcount
    exact (((hlock.xadd q _).hset hk _).hset hk _).addBaseMarkerIfNeeded q false

/-- A fetch whose pop leaves the popped id in the active list. -/
theorem fetchWith {pop : String → Store → Popped × Store} (h : Unheard p j s) (hp : Q.Base p)
    (hq : Q.Base q) (hpop : ∀ s, Unheard p j s → Unheard p j (pop q s).2)
    (hactive : ∀ s, (pop q s).2 (.list .active) = (pop q s).1.activeAfter q (s (.list .active)))
    (t : ℤ) (o : FetchOpts) : Unheard p j (BullMQ.fetchWith pop q t o s).2 := by
  have hstart : Unheard p j (startFetch q t o s).2 :=
    (h.promoteDelayedJobs hp hq _ _).of_frame (W := [.limiter]) (by decide) fun hκ =>
      getRateLimitTTL_frame _ _ _ (by simpa using hκ)
  obtain ⟨e, -, hres⟩ | ⟨-, -, hres⟩ := fetchWith_cases pop q t o s <;> rw [hres]
  · exact hstart
  · have hpopped := hpop _ hstart
    have hact := hactive (startFetch q t o s).2
    simp only [takeJob]
    split
    · next i hi =>
      refine hpopped.prepareJobForProcessing
        (hpopped.ne_of_mem_list hp hq (l := .active) ?_) _ _ _ _
      rw [hact, hi]
      simp [Popped.activeAfter]
    · exact hpopped
    · exact hpopped

theorem fetchNextJob (h : Unheard p j s) (hp : Q.Base p) (hq : Q.Base q) (t : ℤ) (o : FetchOpts) :
    Unheard p j (BullMQ.fetchNextJob q t o s).2 :=
  h.fetchWith hp hq (fun _ hs => hs.popForFetchNextJob q) (popForFetchNextJob_active q) t o

theorem moveToActive (h : Unheard p j s) (hp : Q.Base p) (hq : Q.Base q) (t : ℤ) (o : FetchOpts) :
    Unheard p j (Script.moveToActive q t o s).2 :=
  h.fetchWith hp hq (fun _ hs => hs.popForMoveToActive q) (popForMoveToActive_active q) t o

/-! ### Giving up a job -/

theorem removeJobFromActive (h : Unheard p j s) (hk : q ++ i ≠ p ++ j) (t : String)
    (f : Option FieldsToUpdate) : Unheard p j (BullMQ.removeJobFromActive q i t f s).2 := by
  have hreleased : Unheard p j (releasedJob q i t f s) := by
    have hunlock : Unheard p j (removeLock q i t s).2 :=
      h.of_frame (W := [.lock, .stalled]) (by decide) fun hκ => removeLock_frame _ _ _ _ hκ
    unfold releasedJob updateJobFields
    split
    · exact hunlock
    · exact hunlock.hset hk _
  obtain ⟨-, n, -, -, heq⟩ | ⟨-, -, heq⟩ | ⟨-, -, heq⟩ := removeJobFromActive_cases q i t f s <;>
    rw [heq]
  · exact h
  · exact hreleased
  · exact hreleased.sublist_list .active q fun x => lremRight_sublist _ x

theorem notifyParent (h : Unheard p j s) (P : Option Parent) (k : String) (a : FinishArgs) :
    Unheard p j (BullMQ.notifyParent P k a s) := by
  unfold BullMQ.notifyParent
  split
  · exact h
  · split
    · exact h
    · split
      · split
        · exact (h.modify (κ := .dependencies) (by decide) _ _).updateParentDepsIfNeeded _ _ _ _
        · exact h
      · exact h.moveChildFromDependenciesIfNeeded _ _ _ _

theorem removeJob (h : Unheard p j s) (q : String) (b : Bool) (i : String) :
    Unheard p j (BullMQ.removeJob q b s i) := by
  have hunlinked := h.removeParentDependencyKey (q ++ i) none
  simp only [BullMQ.removeJob]
  split
  · exact (hunlinked.removeDeduplicationKeyIfNeededOnRemoval _ _ _).removeJobKeys _
  · exact hunlinked.removeJobKeys _

theorem keepOrRemove {a : FinishArgs} (h : Unheard p j s) (hk : q ++ a.jobId ≠ p ++ j)
    (P : Option Parent) : Unheard p j (BullMQ.keepOrRemove q P a s) := by
  refine keepOrRemove_rule (I := Unheard p j) (fun s hs => ?_) (fun s l hs => ?_)
    (fun s i hs => hs.removeJob q false i) (fun s hs => hs.removeJobKeys _)
    (fun s k hs => hs.removeParentDependencyKey _ _) P h
  · have hkept := (hs.zadd a.target.zset a.timestamp (id_ne hk)).hset hk a.record
    simp only [recordFinished]
    split
    · exact hkept.hdel _ _
    · exact hkept
  · exact hs.zremAll _ q l

theorem finishJob {a : FinishArgs} (h : Unheard p j s) (hp : Q.Base p) (hq : Q.Base q)
    (hk : q ++ a.jobId ≠ p ++ j) : Unheard p j (BullMQ.finishJob q a s) := by
  have hsettled : Unheard p j (settleFinished q a s) :=
    ((((h.getOrSetMaxEvents q).removeDeduplicationKeyIfNeededOnFinalization _ _ _)
      |>.requeueDeduplicatedJob hp hq _ _)).notifyParent _ _ _
  have hrest : ∀ n P, Unheard p j (emitFinished q a n (BullMQ.keepOrRemove q P a
      ((settleFinished q a s).hset (q ++ a.jobId) fun job => { job with atm := job.atm + 1 }))) :=
    fun n P => ((hsettled.hset hk _).keepOrRemove hk P).of_frame (W := [.events]) (by decide)
      fun hκ =>
      emitFinished_frame _ _ _ _ (by simpa using hκ)
  simp only [BullMQ.finishJob]
  split
  · exact (hrest _ _).of_frame (W := [.metrics]) (by decide) fun hκ =>
      collectMetrics_frame _ _ _ _ (by simpa using hκ)
  · exact hrest _ _

theorem fetchOrDrain (h : Unheard p j s) (hp : Q.Base p) (hq : Q.Base q) (a : FinishArgs) :
    Unheard p j (BullMQ.fetchOrDrain q a s).2 := by
  have hdrained : ∀ s, Unheard p j s → Unheard p j (emitDrained q s) := fun s hs =>
    hs.of_frame (W := [.events]) (by decide) fun hκ => emitDrained_frame _ _ (by simpa using hκ)
  have hfetched := h.fetchNextJob hp hq a.timestamp a.opts
  simp only [BullMQ.fetchOrDrain]
  split
  · split
    · exact hfetched
    · exact hdrained _ hfetched
  · exact hdrained _ h

theorem moveToFinished (h : Unheard p j s) (hp : Q.Base p) (hq : Q.Base q) (a : FinishArgs) :
    Unheard p j (Script.moveToFinished q a s).2 := by
  simp only [Script.moveToFinished]
  split
  · exact h
  · next hex =>
    have hk := h.ne_of_exists (by simpa using hex)
    have hleft := h.removeJobFromActive hk a.opts.token a.fieldsToUpdate
    split
    · exact h
    · split
      · exact h
      · split
        · exact hleft
        · exact (hleft.finishJob hp hq hk).fetchOrDrain hp hq a

theorem moveToDelayed (h : Unheard p j s) (hp : Q.Base p) (hq : Q.Base q) (a : DelayArgs) :
    Unheard p j (Script.moveToDelayed q a s).2 := by
  have hmark : ∀ s, Unheard p j s → Unheard p j (fetchOrMark q a s).2 := by
    intro s hs
    unfold fetchOrMark
    split
    · exact hs.addDelayMarkerIfNeeded q
    · next o _ =>
      have hfetched := hs.fetchNextJob hp hq a.timestamp o
      simp only
      split
      · exact hfetched
      · exact hfetched
      · exact hfetched.addDelayMarkerIfNeeded q
  simp only [Script.moveToDelayed]
  split
  · exact h
  · next hex =>
    have hk := h.ne_of_exists (by simpa using hex)
    have hleft := h.removeJobFromActive hk a.token a.fieldsToUpdate
    split
    · exact hleft
    · refine hmark _ ?_
      simp only [delayJob]
      refine .xadd (.zadd (.getOrSetMaxEvents (.hset ?_ hk _) q) .delayed _ (id_ne hk)) q _
      split
      · exact hleft
      · exact hleft.hset hk _

theorem moveToWaitingChildren (h : Unheard p j s) (q i t c : String) (ts : ℤ) :
    Unheard p j (Script.moveToWaitingChildren q i t c ts s).2 := by
  simp only [Script.moveToWaitingChildren]
  split
  · exact h
  · next hex =>
    have hk := h.ne_of_exists (by simpa using hex)
    have hleft := h.removeJobFromActive hk t none
    split
    · exact h
    · have hmoved : Unheard p j (if (BullMQ.removeJobFromActive q i t none s).1 < 0 then
          (Reply.code (BullMQ.removeJobFromActive q i t none s).1,
            (BullMQ.removeJobFromActive q i t none s).2)
          else (Reply.code 0,
            Store.xadd (Keyspace.modify (BullMQ.removeJobFromActive q i t none s).2
            (.zset .waitingChildren) q (·.zadd ts i)) q
              (.waitingChildren i (some "active")))).2 := by
        split
        · exact hleft
        · exact (hleft.zadd .waitingChildren _ (id_ne hk)).xadd q _
      split
      · split
        · exact hmoved
        · exact h
      · split
        · exact hmoved
        · exact h

theorem retryJob (h : Unheard p j s) (hp : Q.Base p) (hq : Q.Base q) (a : RetryArgs) :
    Unheard p j (Script.retryJob q a s).2 := by
  have hpromoted := h.promoteDelayedJobs hp hq a.timestamp (isQueuePausedOrMaxed q s)
  simp only [Script.retryJob]
  split
  · exact hpromoted
  · next hex =>
    have hk := hpromoted.ne_of_exists (by simpa using hex)
    have hleft := hpromoted.removeJobFromActive hk a.token a.fieldsToUpdate
    split
    · exact hleft
    · simp only [requeueJob]
      refine .xadd (.getOrSetMaxEvents (.hset ?_ hk _) q) q _
      split
      · exact hleft.addJobInTargetList _ _ (id_ne hk)
      · exact hleft.addJobWithPriority _ _ (id_ne hk)

theorem moveJobFromActiveToWait (h : Unheard p j s) (q i t : String) :
    Unheard p j (Script.moveJobFromActiveToWait q i t s).2 := by
  have hunlock : Unheard p j (removeLock q i t s).2 :=
    h.of_frame (W := [.lock, .stalled]) (by decide) fun hκ => removeLock_frame _ _ _ _ hκ
  simp only [Script.moveJobFromActiveToWait]
  split
  · exact h
  · next hex =>
    have hk := h.ne_of_exists (by simpa using hex)
    split
    · exact hunlock
    · simp only
      split
      · have hleft := hunlock.sublist_list .active q fun x => lremLeft_sublist i x
        simp only [pushBackJob]
        refine .xadd (.getOrSetMaxEvents ?_ q) q _
        split
        · exact hleft.pushBackJobWithPriority _ (id_ne hk)
        · exact hleft.addJobInTargetList _ _ (id_ne hk)
      · exact hunlock

/-! ### Moves on request -/

theorem countStall (h : Unheard p j s) (hk : q ++ i ≠ p ++ j) (m : ℤ) :
    Unheard p j (BullMQ.countStall q i m s) := by
  simp only [BullMQ.countStall]
  split
  · exact (h.hset hk _).hset hk _
  · exact h.hset hk _

theorem reclaimStalledJob {acc : List String × Store} (h : Unheard p j acc.2) (hp : Q.Base p)
    (hq : Q.Base q) (m : ℤ) (i : String) :
    Unheard p j (BullMQ.reclaimStalledJob q m acc i).2 := by
  have hleft := h.sublist_list .active q fun x => lremLeft_sublist i x
  simp only [BullMQ.reclaimStalledJob]
  split
  · exact hleft
  · split
    · next hactive =>
      have hk := h.ne_of_mem_list hp hq hactive.2
      exact ((hleft.countStall hk m).moveJobToWait _ (id_ne hk)).xadd q _
    · exact h

theorem moveStalledJobsToWait (h : Unheard p j s) (hp : Q.Base p) (hq : Q.Base q) (m t c : ℤ) :
    Unheard p j (Script.moveStalledJobsToWait q m t c s).2 := by
  have hfold : ∀ (l : List String) (acc : List String × Store), Unheard p j acc.2 →
      Unheard p j (l.foldl (BullMQ.reclaimStalledJob q m) acc).2 := by
    intro l
    induction l with
    | nil => exact fun acc hacc => hacc
    | cons i l ih => exact fun acc hacc => ih _ (hacc.reclaimStalledJob hp hq m i)
  simp only [Script.moveStalledJobsToWait]
  split
  · exact h
  · split
    · exact h
    · have hbefore := ((h.set (κ := .stalledCheck) (by decide) q (some t)).getOrSetMaxEvents q).set
        (κ := .stalled) (by decide) q ∅
      exact (hfold _ _ hbefore).of_frame (W := [.stalled]) (by decide) fun hκ =>
        markActive_frame _ _ (by simpa using hκ)

theorem promote (h : Unheard p j s) (hp : Q.Base p) (hq : Q.Base q) (i : String) :
    Unheard p j (Script.promote q i s).2 := by
  simp only [Script.promote]
  split
  · next hi =>
    have hk := h.ne_of_mem_zset hp hq hi
    have hleft : Unheard p j (dropHeadMarker q (s.modify (.zset .delayed) q (·.zrem i))) := by
      refine (h.zrem .delayed q i).sublist_list .wait q fun x => ?_
      split
      · split
        · exact List.sublist_cons_self _ _
        · exact List.Sublist.refl _
      · exact List.Sublist.refl _
    have hback : ∀ n b, Unheard p j (if n = 0 then
        BullMQ.addJobInTargetList q .lpush b i
          (dropHeadMarker q (s.modify (.zset .delayed) q (·.zrem i)))
        else BullMQ.addJobWithPriority q n i b
          (dropHeadMarker q (s.modify (.zset .delayed) q (·.zrem i)))) := by
      intro n b
      split
      · exact hleft.addJobInTargetList _ _ (id_ne hk)
      · exact hleft.addJobWithPriority _ _ (id_ne hk)
    dsimp only
    exact ((hback _ _).xadd q _).hset hk _
  · exact h

theorem changeDelay (h : Unheard p j s) (q : String) (d t : ℤ) (i : String) :
    Unheard p j (Script.changeDelay q d t i s).2 := by
  simp only [Script.changeDelay]
  split
  · exact h
  · next hex =>
    have hk := h.ne_of_exists (by simpa using hex)
    split
    · exact h
    · exact (((((h.zrem .delayed q i).hset hk _).zadd .delayed _ (id_ne hk)).getOrSetMaxEvents
        q).xadd q _).addDelayMarkerIfNeeded q

theorem changePriority (h : Unheard p j s) (q : String) (n : ℤ) (i : String) (l : Bool) :
    Unheard p j (Script.changePriority q n i l s).2 := by
  simp only [Script.changePriority]
  split
  · exact h
  · next hex =>
    have hk := h.ne_of_exists (by simpa using hex)
    have hadd : ∀ s b, Unheard p j s → Unheard p j (reAddJobWithNewPriority q l n i b s) := by
      intro s b hs
      unfold reAddJobWithNewPriority
      split
      · exact hs.addJobInTargetList _ _ (id_ne hk)
      · split
        · exact hs.pushBackJobWithPriority _ (id_ne hk)
        · exact hs.addJobWithPriority _ _ (id_ne hk)
    have hmoved : Unheard p j (if i ∈ s (.zset .prioritized) q then
        reAddJobWithNewPriority q l n i (isQueuePausedOrMaxed q s)
          (s.modify (.zset .prioritized) q (·.zrem i))
        else if i ∈ s (.list .wait) q then
          reAddJobWithNewPriority q l n i (isQueuePausedOrMaxed q s)
            (s.modify (.list .wait) q (lremRight i))
        else s) := by
      split
      · exact hadd _ _ (h.zrem .prioritized q i)
      · split
        · exact hadd _ _ (h.sublist_list .wait q fun x => lremRight_sublist i x)
        · exact h
    dsimp only
    exact hmoved.hset hk _

theorem restoreDependency (h : Unheard p j s) (k : String) (st : FinishedStatus) :
    Unheard p j (BullMQ.restoreDependency k st s) :=
  h.of_frame (W := [.dependencies, .processed, .failedChildren, .unsuccessful]) (by decide)
    fun hκ =>
    restoreDependency_frame k st s hκ

theorem reprocessJob (h : Unheard p j s) (q : String) (a : ReprocessArgs) :
    Unheard p j (Script.reprocessJob q a s).2 := by
  simp only [Script.reprocessJob]
  split
  · exact h
  · next hex =>
    have hk := h.ne_of_exists (by simpa using hex)
    split
    · have hcleared := fun f => (h.zrem a.state.zset q a.jobId).hdel (q ++ a.jobId) f
      have hback := fun f b => (hcleared f).addJobInTargetList a.pushCmd b (id_ne hk)
      exact (((hback _ _).restoreDependency _ _).getOrSetMaxEvents q).xadd q _
    · exact h

/-- The jobs of a batch are found in the set they leave. -/
theorem moveBatchToWait (h : Unheard p j s) (z : ZSetKey) {jobs : List String}
    (hjobs : q = p → j ∉ jobs) : Unheard p j (BullMQ.moveBatchToWait q z s jobs) := by
  have hpush : ∀ (jobs l : List String), j ∉ jobs → j ∉ l →
      j ∉ jobs.foldl (fun l jobId => lpush jobId l) l := by
    intro jobs
    induction jobs with
    | nil => exact fun l _ hl => hl
    | cons i jobs ih =>
      intro l hjobs hl
      rw [List.mem_cons, not_or] at hjobs
      exact ih _ hjobs.2 (by simp [lpush, hjobs.1, hl])
  have hleft : Unheard p j (s.modify (.zset z) q (·.zremAll jobs)) := h.zremAll z q fun _ => jobs
  refine hleft.modify_list (f := fun l => jobs.foldl (fun l jobId => lpush jobId l) l) fun hq => ?_
  exact hpush _ _ (hjobs hq) (hleft.list .wait)

theorem moveJobsToWait (h : Unheard p j s) (q : String) (st : BulkState) (m t : ℤ) :
    Unheard p j (Script.moveJobsToWait q st m t s).2 := by
  simp only [Script.moveJobsToWait]
  generalize hjobs : limitTo m ((s (.zset st.zset) q).rangeByScore 0 t) = jobs
  have hnot : q = p → j ∉ jobs := by
    rintro rfl hmem
    rw [← hjobs] at hmem
    exact h.zset _ ((SortedSet.rangeByScore_sublist _ _ _).subset
      ((limitTo_sublist _ _).subset hmem))
  split
  · exact h
  · have hcleared : Unheard p j (jobs.foldl (clearResultOf q st) s) := by
      refine h.foldl fun i _ s hs => ?_
      cases st with
      | finished status => exact hs.hdel _ _
      | delayed => exact hs
    have hevents := (hcleared.getOrSetMaxEvents q).foldl
      (f := fun s i => s.xadd q (.waiting i (some st.name))) (l := jobs)
      fun i _ s hs => hs.xadd q _
    refine .addBaseMarkerIfNeeded (hevents.foldl fun range _ s hs => ?_) q _
    exact hs.moveBatchToWait _ fun hq hmem =>
      hnot hq (List.mem_of_mem_drop (List.mem_of_mem_take hmem))

theorem drainPaused (h : Unheard p j s) (q : String) : Unheard p j (BullMQ.drainPaused q s) := by
  simp only [BullMQ.drainPaused]
  split
  · exact h
  · split
    · refine .modify_list (h.modify_list (f := fun _ => s (.list .paused) q) ?_) (f := fun _ => [])
        fun _ => List.not_mem_nil
      rintro rfl
      exact h.list .paused
    · have hmore : Unheard p j
          (s.modify (.list .wait) q (· ++ (s (.list .paused) q).take 7000)) := by
        refine h.modify_list ?_
        rintro rfl hmem
        exact (List.mem_append.mp hmem).elim (h.list .wait) fun hmem =>
          h.list .paused (List.mem_of_mem_take hmem)
      refine hmore.modify_list (f := fun _ => (s (.list .paused) q).drop 7000) ?_
      rintro rfl hmem
      exact h.list .paused (List.mem_of_mem_drop hmem)

theorem pause (h : Unheard p j s) (q : String) (b e : Bool) :
    Unheard p j (Script.pause q b e s).2 := by
  have hmain : Unheard p j (if b then pauseQueue q s else resumeQueue q s) := by
    split
    · exact (h.set (κ := .metaPaused) (by decide) q _).set (κ := .marker) (by decide) q _
    · exact ((h.set (κ := .metaPaused) (by decide) q _).drainPaused q).of_frame (W := [.marker])
        (by decide) fun hκ =>
        markResumed_frame _ _ (by simpa using hκ)
  simp only [Script.pause]
  split
  · exact hmain.xadd q _
  · exact hmain

end Unheard

end BullMQ
