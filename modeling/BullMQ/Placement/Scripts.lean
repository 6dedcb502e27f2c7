import BullMQ.Placement.Retention
import BullMQ.Model.Command

/-!
# What the scripts do to the places of jobs

Every script that creates no job keeps the places of the jobs whose hash is left (`Retains`); an
add in addition lets one new job enter (`Placed.add`). The finishing scripts first take their job
off the active list and put it somewhere else at the end, so that their helpers run in a store
in which that job occurs nowhere.

The scripts are considered without deduplication payloads (`NoPending`), from which
`moveToFinished` would create a job under an id fixed earlier.
-/

namespace BullMQ

open Redis

variable {K : KeySpace} {s s' s'' : Store} {p j : String}

/-- No successor of a deduplicated job is kept. -/
def NoPending (s : Store) : Prop := ∀ k, s .dn k = none

/-! ### Giving up a job -/

theorem releasedJob_same (hex : s.jobExists (p ++ j) = true) (t : String)
    (f : Option FieldsToUpdate) : SamePlaces s (releasedJob p j t f s) := by
  have hlock : SamePlaces s (removeLock p j t s).2 :=
    .of_frame (W := [.lock, .stalled]) (by decide) (removeLock_frame p j t s)
  cases f with
  | none => exact hlock
  | some fields =>
    simp only [releasedJob, updateJobFields]
    exact hlock.trans (.hset (by rw [hlock.exist, hex]))

/-- A job that is given up leaves. -/
theorem leftActive_leaves (hex : s.jobExists (p ++ j) = true) (hact : j ∈ s (.list .active) p)
    (t : String) (f : Option FieldsToUpdate) : Enters p j (leftActive p j t f s) s := by
  have hrel := releasedJob_same hex t f
  have hact' : j ∈ releasedJob p j t f s (.list .active) p := by
    rwa [releasedJob_frame _ _ _ _ _ (by decide)]
  exact (leaves_lremRight hact').same_right hrel.symm

/-- A job that leaves and loses its hash is deleted. -/
theorem Enters.deletes (h : Enters p j s' s) (he : Erases [p ++ j] s' s'')
    (hle : BullMQ.occ s p j ≤ 1) : Deletes p [j] s s'' := by
  refine ⟨fun q i => ?_, fun k => ?_⟩
  · have hocc := h.occ q i
    rw [he.occ]
    simp only [List.mem_singleton]
    split
    · next hqi =>
      obtain ⟨rfl, rfl⟩ := hqi
      exact h.occ_eq_zero hle
    · next hqi =>
      rw [if_neg hqi] at hocc
      omega
  · rw [he.exist, ← h.exist]
    simp

/-! ### moveToFinished -/

theorem requeueDeduplicatedJob_eq (h : NoPending s) (p : String) (d : Option String) (t : ℤ) :
    requeueDeduplicatedJob p d t s = s := by
  cases d with
  | none => rfl
  | some d => simp only [requeueDeduplicatedJob, h _]

theorem notifyParent_same (h : Sound K s) (P : Option Parent) (k : String) (a : FinishArgs) :
    SamePlaces s (notifyParent P k a s) := by
  unfold notifyParent
  split
  · exact .refl s
  · next P =>
    split
    · exact .refl s
    · split
      · split
        · have hdep : SamePlaces s (s.modify .dependencies P.key (·.srem k)) := .account (by decide)
          exact hdep.trans (updateParentDepsIfNeeded_same (h.same hdep) P k a.value a.timestamp)
        · exact .refl s
      · exact moveChildFromDependenciesIfNeeded_same h (some P) k a.value a.timestamp

/-- What `moveToFinished` does before it deals with its own job. -/
theorem settleFinished_same (h : Sound K s) (hdn : NoPending s) (p : String) (a : FinishArgs) :
    SamePlaces s (settleFinished p a s) := by
  have hkey : SamePlaces s (removeDeduplicationKeyIfNeededOnFinalization p
      (s.deidOf (p ++ a.jobId)) a.jobId (trimEvents p s)) := by
    refine (getOrSetMaxEvents_same p s).trans (.of_frame (W := [.de]) (by decide) fun hκ => ?_)
    exact removeDeduplicationKeyIfNeededOnFinalization_frame _ _ _ _ (by simpa using hκ)
  have hdn' : NoPending (removeDeduplicationKeyIfNeededOnFinalization p
      (s.deidOf (p ++ a.jobId)) a.jobId (trimEvents p s)) := by
    intro k
    rw [removeDeduplicationKeyIfNeededOnFinalization_frame _ _ _ _ (by decide),
      trimEvents_frame _ _ (by decide)]
    exact hdn k
  simp only [settleFinished, requeueDeduplicatedJob_eq hdn']
  exact hkey.trans (notifyParent_same (h.same hkey) ..)

theorem recordFinished_enters {a : FinishArgs} (h : occ s p a.jobId = 0)
    (hex : s.jobExists (p ++ a.jobId) = true) : Enters p a.jobId s (recordFinished p a s) := by
  have hadd : Enters p a.jobId s (s.modify (.zset a.target.zset) p (·.zadd a.timestamp a.jobId)) :=
    enters_zadd (notMem_zset_of_occ h) _
  have hset := hadd.same_right (.hset (f := a.record) (by rw [hadd.exist, hex]))
  simp only [recordFinished]
  split
  · exact hset.same_right (.hdel ..)
  · exact hset

theorem retainByAge_retires (p : String) (a : FinishArgs) (s : Store) :
    Retires p a.target.zset s (retainByAge p a s) := by
  unfold retainByAge
  split
  · exact removeJobsByMaxAge_retires ..
  · exact .refl p _ s

theorem retainByCount_retires (p : String) (a : FinishArgs) (s : Store) :
    Retires p a.target.zset s (retainByCount p a s) := by
  unfold retainByCount
  split
  · split
    · exact removeJobsByMaxCount_retires ..
    · exact .refl p _ s
  · exact .refl p _ s

/-- A finished job that left a placed store is kept in its set, or is deleted. -/
theorem keepOrRemove_retains {a : FinishArgs} (h : Placed K s) (hleft : Enters p a.jobId s' s)
    (hv : K.Valid p a.jobId) (hex : s.jobExists (p ++ a.jobId) = true) (P : Option Parent) :
    Retains s (keepOrRemove p P a s') := by
  simp only [keepOrRemove]
  split
  · have hrec : SamePlaces s (recordFinished p a s') :=
      hleft.move (recordFinished_enters (hleft.occ_eq_zero (h.le_one _ _))
        (by rw [← hleft.exist, hex]))
    have hr := Retains.of_same h.toSound hrec
    have hage := hr.trans ((retainByAge_retires p a _).retains (h.retains hr).toSound)
    exact hage.trans ((retainByCount_retires p a _).retains (h.retains hage).toSound)
  · have hdel : Retains s (removeJobKeys (p ++ a.jobId) s') :=
      .of_deletes h.toSound (by simpa using hv)
        (hleft.deletes (removeJobKeys_erases _ s') (h.le_one _ _))
    split
    · exact hdel.same_right (removeParentDependencyKey_same ..)
    · exact hdel

theorem finishJob_retains {a : FinishArgs} {t : String} (h : Placed K s) (hdn : NoPending s)
    (hg : GivesUp s p a.jobId t) :
    Retains s (finishJob p a (leftActive p a.jobId t a.fieldsToUpdate s)) := by
  have hleft := leftActive_leaves hg.jobExists hg.active t a.fieldsToUpdate
  have hdn' : NoPending (leftActive p a.jobId t a.fieldsToUpdate s) := fun k => by
    rw [leftActive_frame _ _ _ _ _ (by decide)]
    exact hdn k
  have hsettle := settleFinished_same (h.toSound.of_enters hleft) hdn' p a
  have hcount := hsettle.trans (.hset (k := p ++ a.jobId)
    (f := fun job => { job with atm := job.atm + 1 })
    (by rw [hsettle.exist, ← hleft.exist, hg.jobExists]))
  have hkeep := keepOrRemove_retains h (.same_left hcount.symm hleft)
    (h.valid_list hg.active) hg.jobExists
    ((leftActive p a.jobId t a.fieldsToUpdate s).parentOf (p ++ a.jobId))
  simp only [finishJob]
  have hemit : ∀ n, Retains s (emitFinished p a n _) := fun n =>
    hkeep.same_right (.of_frame (W := [.events]) (by decide) fun hκ =>
      emitFinished_frame p a n _ (by simpa using hκ))
  split
  · exact (hemit _).same_right (.of_frame (W := [.metrics]) (by decide) fun hκ =>
      collectMetrics_frame _ _ _ _ (by simpa using hκ))
  · exact hemit _

theorem fetchOrDrain_same (h : Sound K s) (p : String) (a : FinishArgs) :
    SamePlaces s (fetchOrDrain p a s).2 := by
  have hdrain : ∀ s : Store, SamePlaces s (emitDrained p s) := fun s =>
    .of_frame (W := [.events]) (by decide) fun hκ => emitDrained_frame p s (by simpa using hκ)
  simp only [fetchOrDrain]
  split
  · have hfetch := fetchNextJob_same h p a.timestamp a.opts
    split
    · exact hfetch
    · exact hfetch.trans (hdrain _)
  · exact hdrain s

namespace Script

theorem moveToFinished_retains (h : Placed K s) (hdn : NoPending s) (p : String)
    (a : FinishArgs) : Retains s (moveToFinished p a s).2 := by
  obtain ⟨-, n, -, -, hres⟩ | ⟨hrel, hres⟩ | ⟨hfin, hres⟩ := moveToFinished_cases p a s
  · rw [hres]
    exact .of_same h.toSound (.refl s)
  · rw [hres]
    exact .of_same h.toSound (releasedJob_same hrel.jobExists _ _)
  · have hr := finishJob_retains h hdn hfin.1
    rw [hres]
    exact hr.same_right (fetchOrDrain_same (h.retains hr).toSound p a)

end Script

/-! ### The other finishing scripts -/

theorem delayJob_enters {a : DelayArgs} (h : occ s p a.jobId = 0)
    (hex : s.jobExists (p ++ a.jobId) = true) : Enters p a.jobId s (delayJob p a s) := by
  have hatm : SamePlaces s (if a.skipAttempt then s else
      s.hset (p ++ a.jobId) fun job => { job with atm := job.atm + 1 }) := by
    split
    · exact .refl s
    · exact .hset hex
  have hdelay := hatm.trans (.hset (k := p ++ a.jobId)
    (f := fun job => { job with delay := some a.delay }) (by rw [hatm.exist, hex]))
  have hmax := hdelay.trans (getOrSetMaxEvents_same p _)
  exact (Enters.same_left hmax (enters_zadd (notMem_zset_of_occ (by rw [hmax.occ, h]))
    _)).same_right (.xadd _ _ _)

theorem fetchOrMark_same (h : Sound K s) (p : String) (a : DelayArgs) :
    SamePlaces s (fetchOrMark p a s).2 := by
  simp only [fetchOrMark]
  split
  · exact addDelayMarkerIfNeeded_same p s
  · have hfetch := fun o => fetchNextJob_same h p a.timestamp o
    split
    · exact hfetch _
    · exact hfetch _
    · exact (hfetch _).trans (addDelayMarkerIfNeeded_same p _)

theorem requeueJob_enters {a : RetryArgs} (h : occ s p a.jobId = 0)
    (hex : s.jobExists (p ++ a.jobId) = true) : Enters p a.jobId s (requeueJob p a s) := by
  have hput : Enters p a.jobId s (if s.priorityOf (p ++ a.jobId) = 0 then
        addJobInTargetList p a.pushCmd (isQueuePausedOrMaxed p s) a.jobId s
      else addJobWithPriority p (s.priorityOf (p ++ a.jobId)) a.jobId
        (isQueuePausedOrMaxed p s) s) := by
    split
    · exact addJobInTargetList_enters ..
    · exact addJobWithPriority_enters h ..
  have hatm := hput.same_right (.hset (k := p ++ a.jobId)
    (f := fun job => { job with atm := job.atm + 1 }) (by rw [hput.exist, hex]))
  exact (hatm.same_right (getOrSetMaxEvents_same p _)).same_right (.xadd _ _ _)

theorem pushBackJob_enters (h : occ s p j = 0) : Enters p j s (pushBackJob p j s) := by
  simp only [pushBackJob]
  refine (Enters.same_right ?_ (getOrSetMaxEvents_same p _)).same_right (.xadd _ _ _)
  split
  · exact pushBackJobWithPriority_enters h _
  · exact addJobInTargetList_enters ..

namespace Script

theorem moveToDelayed_same (h : Sound K s) (p : String) (a : DelayArgs) :
    SamePlaces s (moveToDelayed p a s).2 := by
  obtain ⟨-, n, -, -, hres⟩ | ⟨hrel, hres⟩ | ⟨hg, hres⟩ := moveToDelayed_cases p a s
  · rw [hres]
    exact .refl s
  · rw [hres]
    exact releasedJob_same hrel.jobExists _ _
  · have hleft := leftActive_leaves hg.jobExists hg.active a.token a.fieldsToUpdate
    have hmove := hleft.move (delayJob_enters (hleft.occ_eq_zero (h.le_one _ _))
      ((hleft.exist _).symm.trans hg.jobExists))
    rw [hres]
    exact hmove.trans (fetchOrMark_same (h.same hmove) p a)

theorem moveToWaitingChildren_same (h : Sound K s) (p j t c : String) (ts : ℤ) :
    SamePlaces s (moveToWaitingChildren p j t c ts s).2 := by
  obtain ⟨n, -, hres⟩ | ⟨hrel, hres⟩ | ⟨hg, -, hres⟩ := moveToWaitingChildren_cases p j t c ts s
  · rw [hres]
    exact .refl s
  · rw [hres]
    exact releasedJob_same hrel.jobExists t none
  · have hleft := leftActive_leaves hg.jobExists hg.active t none
    have hocc := hleft.occ_eq_zero (h.le_one _ _)
    rw [hres]
    exact hleft.move ((enters_zadd (notMem_zset_of_occ hocc) _).same_right (.xadd _ _ _))

theorem retryJob_same (h : Sound K s) (p : String) (a : RetryArgs) :
    SamePlaces s (retryJob p a s).2 := by
  obtain ⟨s₀, hs₀, hcases⟩ := retryJob_cases p a s
  have hprom : SamePlaces s s₀ := hs₀ ▸ promoteDelayedJobs_same h p a.timestamp _
  have h₀ := h.same hprom
  obtain ⟨-, n, -, -, hres⟩ | ⟨hrel, hres⟩ | ⟨hg, hres⟩ := hcases
  · rw [hres]
    exact hprom
  · rw [hres]
    exact hprom.trans (releasedJob_same hrel.jobExists _ _)
  · have hleft := leftActive_leaves hg.jobExists hg.active a.token a.fieldsToUpdate
    rw [hres]
    exact hprom.trans (hleft.move (requeueJob_enters (hleft.occ_eq_zero (h₀.le_one _ _))
      ((hleft.exist _).symm.trans hg.jobExists)))

theorem moveJobFromActiveToWait_same (h : Sound K s) (p j t : String) :
    SamePlaces s (moveJobFromActiveToWait p j t s).2 := by
  have hlock : SamePlaces s (removeLock p j t s).2 :=
    .of_frame (W := [.lock, .stalled]) (by decide) (removeLock_frame p j t s)
  obtain ⟨-, n, -, hres⟩ | ⟨-, n, hres⟩ | ⟨hg, n, hres⟩ := moveJobFromActiveToWait_cases p j t s
  · rw [hres]
    exact .refl s
  · rw [hres]
    exact hlock
  · have hact : j ∈ (removeLock p j t s).2 (.list .active) p := by
      rw [removeLock_frame _ _ _ _ (by decide)]
      exact hg.active
    have hleft := leaves_lremLeft hact
    rw [hres]
    exact hlock.trans (hleft.move
      (pushBackJob_enters (hleft.occ_eq_zero ((h.same hlock).le_one _ _))))

end Script

/-! ### Locks and stalled jobs -/

theorem countStall_same (hex : s.jobExists (p ++ j) = true) (m : ℤ) :
    SamePlaces s (countStall p j m s) := by
  have hset := SamePlaces.hset (f := fun job => { job with stc := job.stc + 1 }) hex
  simp only [countStall]
  split
  · exact hset.trans (.hset (by rw [hset.exist, hex]))
  · exact hset

/-- A reclaimed job moves to the wait list. -/
theorem reclaimStalledJob_same {acc : List String × Store} (h : Sound K acc.2) (p : String)
    (m : ℤ) (j : String) : SamePlaces acc.2 (reclaimStalledJob p m acc j).2 := by
  simp only [reclaimStalledJob]
  split
  · next hlegacy =>
    -- A legacy marker is in no list of a sound store.
    have hj : j ∉ acc.2 (.list .active) p := fun hj => by
      rw [K.notLegacy (h.valid_list hj)] at hlegacy
      cases hlegacy
    have heq : acc.2.modify (.list .active) p (lremLeft j) = acc.2 :=
      Keyspace.set_eq_self _ (List.erase_of_not_mem hj).symm
    rw [heq]
    exact .refl _
  · split
    · next hrec =>
      have hleft := leaves_lremLeft hrec.2
      have hstall := countStall_same (m := m) ((hleft.exist _).symm.trans (h.exist_list hrec.2))
      exact hleft.move (Enters.same_left hstall
        ((moveJobToWait_enters p j .rpush _).same_right (.xadd _ _ _)))
    · exact .refl _

theorem foldl_reclaimStalledJob_same (p : String) (m : ℤ) (l : List String)
    (acc : List String × Store) (h : Sound K acc.2) :
    SamePlaces acc.2 (l.foldl (reclaimStalledJob p m) acc).2 := by
  induction l generalizing acc with
  | nil => exact .refl _
  | cons i l ih =>
    have hfirst := reclaimStalledJob_same h p m i
    exact hfirst.trans (ih _ (h.same hfirst))

theorem Script.moveStalledJobsToWait_same (h : Sound K s) (p : String) (m t c : ℤ) :
    SamePlaces s (moveStalledJobsToWait p m t c s).2 := by
  simp only [moveStalledJobsToWait]
  split
  · exact .refl s
  · split
    · exact .refl s
    · have hcheck : SamePlaces s (s.set .stalledCheck p (some t)) :=
        .of_frame (W := [.stalledCheck]) (by decide) fun hκ => Keyspace.set_of_ne _
          (by simpa using hκ) ..
      have htrim := hcheck.trans (getOrSetMaxEvents_same p _)
      have hclear := htrim.trans (show SamePlaces _
        ((trimEvents p (s.set .stalledCheck p (some t))).set .stalled p ∅) from
        .of_frame (W := [.stalled]) (by decide)
        fun hκ => Keyspace.set_of_ne _ (by simpa using hκ) ..)
      have hfold := foldl_reclaimStalledJob_same p m
        (trimEvents p (s.set .stalledCheck p (some t)) .stalled p).members ([], _) (h.same hclear)
      refine (hclear.trans hfold).trans ?_
      exact .of_frame (W := [.stalled]) (by decide) fun hκ => markActive_frame _ _
        (by simpa using hκ)

/-! ### Moves on request -/

/-- The wait list of a sound store holds no legacy marker. -/
theorem dropHeadMarker_eq (h : Sound K s) (p : String) : dropHeadMarker p s = s := by
  refine Keyspace.set_eq_self s ?_
  rcases hwait : s (.list .wait) p with _ | ⟨i, rest⟩
  · rfl
  · have hi : isLegacyMarker i = false :=
      K.notLegacy (h.valid_list (l := .wait) (by rw [hwait]; simp))
    simp [hi]

theorem reAddJobWithNewPriority_enters (h : occ s p j = 0) (l : Bool) (n : ℤ) (b : Bool) :
    Enters p j s (reAddJobWithNewPriority p l n j b s) := by
  unfold reAddJobWithNewPriority
  split
  · exact addJobInTargetList_enters ..
  · split
    · exact pushBackJobWithPriority_enters h _
    · exact addJobWithPriority_enters h ..

theorem restoreDependency_same (k : String) (st : FinishedStatus) (s : Store) :
    SamePlaces s (restoreDependency k st s) :=
  .of_frame (W := [.dependencies, .processed, .failedChildren, .unsuccessful]) (by decide)
    (restoreDependency_frame k st s)

namespace Script

theorem promote_same (h : Sound K s) (p j : String) : SamePlaces s (promote p j s).2 := by
  simp only [promote]
  split
  · next hj =>
    have hleft := leaves_zrem hj
    have hocc := hleft.occ_eq_zero (h.le_one _ _)
    rw [dropHeadMarker_eq (h.of_enters hleft)]
    have hput : ∀ (n : ℤ) (b : Bool), Enters p j (s.modify (.zset .delayed) p (·.zrem j))
        (if n = 0 then addJobInTargetList p .lpush b j (s.modify (.zset .delayed) p (·.zrem j))
          else addJobWithPriority p n j b (s.modify (.zset .delayed) p (·.zrem j))) := by
      intro n b
      split
      · exact addJobInTargetList_enters ..
      · exact addJobWithPriority_enters hocc ..
    have hmove := fun n b =>
      hleft.move ((hput n b).same_right (.xadd _ p (.waiting j (some "delayed"))))
    have hset := fun n b => (hmove n b).trans (.hset (k := p ++ j)
      (f := fun job => { job with delay := some 0 })
      (((hmove n b).exist _).trans (h.exist_zset hj)))
    exact hset _ _
  · exact .refl s

theorem changeDelay_same (h : Sound K s) (p : String) (d t : ℤ) (j : String) :
    SamePlaces s (changeDelay p d t j s).2 := by
  simp only [changeDelay]
  split
  · exact .refl s
  · split
    · exact .refl s
    · next hj =>
      have hmem : j ∈ s (.zset .delayed) p := by simpa using hj
      have hleft := leaves_zrem hmem
      have hset := SamePlaces.hset (k := p ++ j)
        (s := s.modify (.zset .delayed) p (·.zrem j)) (f := fun job => { job with delay := some d })
        ((hleft.exist _).symm.trans (h.exist_zset hmem))
      have hocc : occ ((Store.hset (s.modify (.zset .delayed) p (·.zrem j)) (p ++ j)
          fun job => { job with delay := some d })) p j = 0 := by
        rw [hset.occ, hleft.occ_eq_zero (h.le_one _ _)]
      have hmove := hleft.move (Enters.same_left hset
        (enters_zadd (z := .delayed) (notMem_zset_of_occ hocc) (getDelayedScore p t d s).1))
      exact ((hmove.trans (getOrSetMaxEvents_same p _)).trans (.xadd _ _ _)).trans
        (addDelayMarkerIfNeeded_same p _)

theorem changePriority_same (h : Sound K s) (p : String) (n : ℤ) (j : String) (l : Bool) :
    SamePlaces s (changePriority p n j l s).2 := by
  simp only [changePriority]
  split
  · exact .refl s
  · next hex =>
    have hmove : SamePlaces s (if j ∈ s (.zset .prioritized) p then
          reAddJobWithNewPriority p l n j (isQueuePausedOrMaxed p s)
            (s.modify (.zset .prioritized) p (·.zrem j))
        else if j ∈ s (.list .wait) p then
          reAddJobWithNewPriority p l n j (isQueuePausedOrMaxed p s)
            (s.modify (.list .wait) p (lremRight j))
        else s) := by
      split
      · next hj =>
        have hleft := leaves_zrem hj
        exact hleft.move (reAddJobWithNewPriority_enters (hleft.occ_eq_zero (h.le_one _ _)) ..)
      · split
        · next hj =>
          have hleft := leaves_lremRight hj
          exact hleft.move (reAddJobWithNewPriority_enters (hleft.occ_eq_zero (h.le_one _ _)) ..)
        · exact .refl s
    exact hmove.trans (.hset (f := fun job => { job with priority := some n })
      (by rw [hmove.exist]; simpa using hex))

theorem reprocessJob_same (p : String) (a : ReprocessArgs) (s : Store) :
    SamePlaces s (reprocessJob p a s).2 := by
  simp only [reprocessJob]
  split
  · exact .refl s
  · split
    · next hj =>
      have hleft := leaves_zrem hj
      have hput := fun f b => hleft.move (Enters.same_left (.hdel _ (p ++ a.jobId) f)
        (addJobInTargetList_enters p a.pushCmd b a.jobId _))
      exact (((hput _ _).trans (restoreDependency_same ..)).trans
        (getOrSetMaxEvents_same p _)).trans (.xadd _ _ _)
    · exact .refl s

end Script

/-! ### Bulk moves -/

/-- Pushing several ids to the wait list. -/
theorem enters_pushAll (p : String) (l : List String) (s : Store) :
    EntersAll p l s (s.modify (.list .wait) p fun w => l.foldl (fun w i => lpush i w) w) := by
  induction l generalizing s with
  | nil =>
    have heq : s.modify (.list .wait) p (fun w => [].foldl (fun w i => lpush i w) w) = s :=
      Keyspace.set_eq_self s rfl
    rw [heq]
    exact .nil (.refl s)
  | cons i l ih =>
    have hfirst := enters_push s .wait p .lpush i
    have hrest := ih (s.modify (.list .wait) p (lpush i))
    rw [modify_modify] at hrest
    exact .cons hfirst hrest

theorem moveBatchToWait_same {z : ZSetKey} {jobs : List String} (hnodup : jobs.Nodup)
    (hmem : ∀ i ∈ jobs, i ∈ s (.zset z) p) : SamePlaces s (moveBatchToWait p z s jobs) :=
  (leaves_zremAll hnodup hmem).move (enters_pushAll p jobs _)

/-- Batch after batch, by induction on the batches: what is left to move is still in the set. -/
theorem foldl_moveBatchToWait_same {z : ZSetKey} (ls : List (List String))
    (hnodup : ls.flatten.Nodup) (hmem : ∀ i ∈ ls.flatten, i ∈ s (.zset z) p) :
    SamePlaces s (ls.foldl (moveBatchToWait p z) s) := by
  induction ls generalizing s with
  | nil => exact .refl s
  | cons l ls ih =>
    rw [List.flatten_cons] at hnodup hmem
    obtain ⟨hl, hls, hdisj⟩ := List.nodup_append'.mp hnodup
    refine (moveBatchToWait_same hl fun i hi => hmem i (by simp [hi])).trans (ih hls ?_)
    intro i hi
    have hz : moveBatchToWait p z s l (.zset z) p = (s (.zset z) p).zremAll l := by
      rw [moveBatchToWait, Keyspace.modify_of_ne _ (by simp), Keyspace.modify_self,
        Function.update_self]
    rw [hz, SortedSet.mem_zremAll]
    exact ⟨hmem i (by simp only [List.mem_append]; exact .inr hi), fun hil => hdisj hil hi⟩

theorem clearResultOf_same (p : String) (st : BulkState) (s : Store) (i : String) :
    SamePlaces s (clearResultOf p st s i) := by
  cases st with
  | finished status => exact .hdel ..
  | delayed => exact .refl s

theorem Script.moveJobsToWait_same (p : String) (st : BulkState) (m t : ℤ) (s : Store) :
    SamePlaces s (moveJobsToWait p st m t s).2 := by
  simp only [moveJobsToWait]
  split
  · exact .refl s
  · generalize hjobs : limitTo m ((s (.zset st.zset) p).rangeByScore 0 t) = jobs
    have hsub : jobs.Sublist (s (.zset st.zset) p).members := by
      rw [← hjobs]
      refine List.Sublist.trans ?_ (SortedSet.rangeByScore_sublist 0 t _)
      unfold limitTo
      split
      · exact .refl _
      · exact List.take_sublist ..
    have hclear := SamePlaces.foldl (clearResultOf_same p st) jobs s
    have hmax := hclear.trans (getOrSetMaxEvents_same p _)
    have hev := hmax.trans (SamePlaces.foldl
      (fun s i => SamePlaces.xadd s p (.waiting i (some st.name))) jobs _)
    have hz : jobs.foldl (fun s i => s.xadd p (.waiting i (some st.name)))
        (getOrSetMaxEvents p (jobs.foldl (clearResultOf p st) s)) (.zset st.zset) =
          s (.zset st.zset) := by
      rw [foldl_xadd_frame _ _ _ _ (by simp), getOrSetMaxEvents_frame _ _ (by simp),
        foldl_clearResultOf_frame _ _ _ _ (by simp)]
    have hflat : ((batches jobs.length 7000).map (unpack jobs)).flatten = jobs := by
      rw [← List.flatMap_def, flatMap_batches jobs (by decide)]
    have hmove := foldl_moveBatchToWait_same (p := p) (z := st.zset)
      ((batches jobs.length 7000).map (unpack jobs))
      (by rw [hflat]; exact (s (.zset st.zset) p).members_nodup.sublist hsub)
      (by rw [hflat, hz]; exact fun i hi => hsub.subset hi)
    rw [List.foldl_map] at hmove
    exact (hev.trans hmove).trans
      (.of_frame (W := [.marker]) (by decide) (addBaseMarkerIfNeeded_frame p _ _))

/-! ### Pausing and resuming -/

/-- Jobs of the legacy paused list move to the wait list. -/
theorem drainPaused_same (p : String) (s : Store) : SamePlaces s (drainPaused p s) := by
  -- In either branch the two lists together hold what they held.
  have hcount : ∀ (w z : List String), (∀ i, w.count i + z.count i =
      (s (.list .wait) p).count i + (s (.list .paused) p).count i) →
      SamePlaces s ((s.set (.list .wait) p w).set (.list .paused) p z) := by
    intro w z hwz
    have hother : ∀ κ, κ ∉ [Kind.list .wait, .list .paused] →
        ((s.set (.list .wait) p w).set (.list .paused) p z) κ = s κ := by
      intro κ hκ
      simp only [List.mem_cons, List.not_mem_nil, or_false, not_or] at hκ
      rw [Keyspace.set_of_ne _ hκ.2, Keyspace.set_of_ne _ hκ.1]
    refine ⟨fun q i => ?_, fun k => by rw [Store.jobExists, hother _ (by decide), Store.jobExists]⟩
    have hlists : countIn ((s.set (.list .wait) p w).set (.list .paused) p z) (.inl .wait) q i +
        countIn ((s.set (.list .wait) p w).set (.list .paused) p z) (.inl .paused) q i =
          countIn s (.inl .wait) q i + countIn s (.inl .paused) q i := by
      simp only [countIn]
      rw [Keyspace.set_of_ne _ (by decide), Keyspace.set_self, Keyspace.set_self,
        Keyspace.set_of_ne _ (by decide)]
      by_cases hq : q = p
      · subst hq
        simpa using hwz i
      · simp [hq]
    have hrest : ∀ c : Container, c.kind ∉ [Kind.list .wait, .list .paused] →
        countIn ((s.set (.list .wait) p w).set (.list .paused) p z) c q i = countIn s c q i :=
      fun c hc => countIn_congr (hother _ hc) q i
    simp only [BullMQ.occ, hlists, hrest (.inl .active) (by decide),
      hrest (.inr .prioritized) (by decide), hrest (.inr .delayed) (by decide),
      hrest (.inr .completed) (by decide), hrest (.inr .failed) (by decide),
      hrest (.inr .waitingChildren) (by decide)]
  simp only [drainPaused]
  split
  · exact .refl s
  · split
    · next hwait => exact hcount _ _ fun i => by simp [hwait]
    · refine hcount _ _ fun i => ?_
      have hsplit := congrArg (List.count i) (List.take_append_drop 7000 (s (.list .paused) p))
      rw [List.count_append] at hsplit
      rw [List.count_append]
      omega

theorem Script.pause_same (p : String) (b e : Bool) (s : Store) :
    SamePlaces s (pause p b e s).2 := by
  have hpaused : ∀ b : Bool, SamePlaces s (s.set .metaPaused p b) := fun b =>
    .of_frame (W := [.metaPaused]) (by decide) fun hκ => Keyspace.set_of_ne _ (by simpa using hκ) ..
  have hmain : SamePlaces s (if b then pauseQueue p s else resumeQueue p s) := by
    split
    · exact (hpaused true).trans
        (.of_frame (W := [.marker]) (by decide) fun hκ => Keyspace.set_of_ne _
          (by simpa using hκ) ..)
    · refine ((hpaused false).trans (drainPaused_same p _)).trans ?_
      exact .of_frame (W := [.marker]) (by decide) fun hκ => markResumed_frame _ _
        (by simpa using hκ)
  simp only [pause]
  split
  · exact hmain.trans (.xadd _ _ _)
  · exact hmain

end BullMQ
