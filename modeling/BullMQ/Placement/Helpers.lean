import BullMQ.Placement.Basic
import BullMQ.Model.Finish

/-!
# What the helpers do to the places of jobs

A `KeySpace` says which pairs of a queue and an id are jobs: their keys are pairwise different
and no id looks like a legacy marker. A store is `Sound` if every id that occurs is a job of the
key space, occurs once and has a hash. Sound stores are those a script passes through, in which
the job it is working on may be in no container at all.

Each helper then has one of two descriptions. Enqueueing a job that occurs nowhere makes it
enter; everything else (promotion, the release of a parent, a fetch) keeps the places.
-/

namespace BullMQ

open Redis

/-! ### Sound stores -/

/-- The jobs a system may have. -/
structure KeySpace where
  /-- A queue and an id that belong to a job. -/
  Valid : String → String → Prop
  /-- Jobs have different keys. -/
  inj : ∀ {p q i j}, Valid p i → Valid q j → p ++ i = q ++ j → p = q ∧ i = j
  /-- No id looks like a legacy marker. -/
  notLegacy : ∀ {p j}, Valid p j → isLegacyMarker j = false

/-- What occurs is a job, occurs once and has a hash. -/
structure Sound (K : KeySpace) (s : Store) : Prop where
  le_one : ∀ p j, occ s p j ≤ 1
  valid : ∀ {p j}, occ s p j ≠ 0 → K.Valid p j
  exist : ∀ {p j}, occ s p j ≠ 0 → s.jobExists (p ++ j) = true

variable {K : KeySpace} {s s' : Store} {p j : String}

namespace Sound

theorem same (h : Sound K s) (hs : SamePlaces s s') : Sound K s' where
  le_one q i := by
    rw [hs.occ]
    exact h.le_one q i
  valid {q i} hocc := h.valid (by rwa [hs.occ] at hocc)
  exist {q i} hocc := by
    rw [hs.exist]
    exact h.exist (by rwa [hs.occ] at hocc)

/-- A store that some ids have left is sound. -/
theorem of_entersAll {l : List String} (h : Sound K s) (hs : EntersAll p l s' s) : Sound K s' := by
  have hle : ∀ q i, occ s' q i ≤ occ s q i := fun q i => by
    rw [hs.occ]
    omega
  have hne : ∀ {q i}, occ s' q i ≠ 0 → occ s q i ≠ 0 := fun {q i} hocc => by
    have := hle q i
    omega
  exact ⟨fun q i => (hle q i).trans (h.le_one q i), fun hocc => h.valid (hne hocc),
    fun hocc => (hs.exist _).symm.trans (h.exist (hne hocc))⟩

/-- A store that one id has left is sound. -/
theorem of_enters (h : Sound K s) (hs : Enters p j s' s) : Sound K s' :=
  h.of_entersAll (EntersAll.cons hs (.nil (.refl s)))

theorem valid_list (h : Sound K s) {l : ListKey} (hj : j ∈ s (.list l) p) : K.Valid p j :=
  h.valid (occ_ne_zero_of_mem_list hj)

theorem exist_list (h : Sound K s) {l : ListKey} (hj : j ∈ s (.list l) p) :
    s.jobExists (p ++ j) = true :=
  h.exist (occ_ne_zero_of_mem_list hj)

theorem valid_zset (h : Sound K s) {z : ZSetKey} (hj : j ∈ s (.zset z) p) : K.Valid p j :=
  h.valid (occ_ne_zero_of_mem_zset hj)

theorem exist_zset (h : Sound K s) {z : ZSetKey} (hj : j ∈ s (.zset z) p) :
    s.jobExists (p ++ j) = true :=
  h.exist (occ_ne_zero_of_mem_zset hj)

end Sound

theorem SamePlaces.xadd (s : Store) (p : String) (e : Event) : SamePlaces s (s.xadd p e) :=
  .of_frame (W := [.events]) (by decide) fun h => Store.xadd_of_ne _ _ _ (by simpa using h)

/-- A fold of steps that keep the places keeps the places. -/
theorem SamePlaces.foldl {α : Type} {f : Store → α → Store} (hf : ∀ s a, SamePlaces s (f s a))
    (l : List α) (s : Store) : SamePlaces s (l.foldl f s) := by
  induction l generalizing s with
  | nil => exact .refl s
  | cons a l ih => exact (hf s a).trans (ih (f s a))

/-! ### Enqueueing -/

theorem addJobInTargetList_enters (p : String) (c : PushCmd) (b : Bool) (j : String) (s : Store) :
    Enters p j s (addJobInTargetList p c b j s) :=
  (enters_push s .wait p c j).same_right
    (.of_frame (W := [.marker]) (by decide) (addBaseMarkerIfNeeded_frame p b _))

theorem addJobWithPriority_enters (h : occ s p j = 0) (n : ℤ) (b : Bool) :
    Enters p j s (addJobWithPriority p n j b s) := by
  have hpc : SamePlaces s (getPriorityScore p n s).2 := .of_frame (W := [.pc])
      (by decide) modify_notMem
  have hocc : occ (getPriorityScore p n s).2 p j = 0 := by rw [hpc.occ, h]
  exact (Enters.same_left hpc (enters_zadd (notMem_zset_of_occ hocc) _)).same_right
    (.of_frame (W := [.marker]) (by decide) (addBaseMarkerIfNeeded_frame p b _))

theorem pushBackJobWithPriority_enters (h : occ s p j = 0) (n : ℤ) :
    Enters p j s (pushBackJobWithPriority p n j s) :=
  enters_zadd (notMem_zset_of_occ h) _

theorem addDelayMarkerIfNeeded_same (p : String) (s : Store) :
    SamePlaces s (addDelayMarkerIfNeeded p s) :=
  .of_frame (W := [.marker]) (by decide) (addDelayMarkerIfNeeded_frame p s)

theorem getOrSetMaxEvents_same (p : String) (s : Store) : SamePlaces s (getOrSetMaxEvents p s) :=
  .of_frame (W := [.metaMaxLenEvents]) (by decide) (getOrSetMaxEvents_frame p s)

theorem addDelayedJob_enters (h : occ s p j = 0) (t d : ℤ) :
    Enters p j s (addDelayedJob p j t d s) :=
  (enters_zadd (notMem_zset_of_occ h) _).same_right
    ((SamePlaces.xadd _ _ _).trans (addDelayMarkerIfNeeded_same p _))

theorem moveJobToWait_enters (p j : String) (c : PushCmd) (s : Store) :
    Enters p j s (moveJobToWait p j c s) :=
  (addJobInTargetList_enters p c _ j s).same_right (.xadd _ _ _)

/-! ### Promotion of delayed jobs -/

theorem promoteDelayedJob_enters (h : occ s p j = 0) (hex : s.jobExists (p ++ j) = true) :
    Enters p j s (promoteDelayedJob p s j) := by
  have hput : Enters p j s (if s.priorityOf (p ++ j) = 0 then
        s.modify (.list .wait) p (lpush j)
      else (getPriorityScore p (s.priorityOf (p ++ j)) s).2.modify (.zset .prioritized) p
        (·.zadd (getPriorityScore p (s.priorityOf (p ++ j)) s).1 j)) := by
    split
    · exact enters_push s .wait p .lpush j
    · have hpc : SamePlaces s (getPriorityScore p (s.priorityOf (p ++ j)) s).2 :=
        .of_frame (W := [.pc]) (by decide) modify_notMem
      exact .same_left hpc (enters_zadd (notMem_zset_of_occ (by rw [hpc.occ, h])) _)
  have hev := hput.same_right (.xadd _ p (.waiting j (some "delayed")))
  simp only [promoteDelayedJob]
  exact hev.same_right (.hset (by rw [hev.exist, hex]))

/-- The loop of the promotion, by induction on the jobs that are left: none of them occurs. -/
theorem foldl_promoteDelayedJob_enters {jobs : List String} (hnodup : jobs.Nodup)
    (h : ∀ i ∈ jobs, occ s p i = 0 ∧ s.jobExists (p ++ i) = true) :
    EntersAll p jobs s (jobs.foldl (promoteDelayedJob p) s) := by
  induction jobs generalizing s with
  | nil => exact .nil (.refl s)
  | cons i jobs ih =>
    obtain ⟨hi, hjobs⟩ := List.nodup_cons.mp hnodup
    obtain ⟨hocc, hex⟩ := h i (by simp)
    have hfirst := promoteDelayedJob_enters hocc hex
    refine .cons hfirst (ih hjobs fun k hk => ?_)
    obtain ⟨hk0, hkex⟩ := h k (by simp [hk])
    have hne : k ≠ i := fun hki => hi (hki ▸ hk)
    refine ⟨?_, by rw [hfirst.exist, hkex]⟩
    rw [hfirst.occ, hk0, if_neg fun hki => hne hki.2]

theorem dueJobs_nodup (p : String) (t : ℤ) (s : Store) : (dueJobs p t s).Nodup :=
  ((s (.zset .delayed) p).members_nodup.sublist (SortedSet.rangeByScore_sublist ..)).sublist
    (List.take_sublist ..)

theorem mem_delayed_of_mem_dueJobs {t : ℤ} (h : j ∈ dueJobs p t s) : j ∈ s (.zset .delayed) p :=
  (SortedSet.rangeByScore_sublist ..).subset (List.mem_of_mem_take h)

/-- Promoted jobs move. -/
theorem promoteDelayedJobs_same (h : Sound K s) (p : String) (t : ℤ) (b : Bool) :
    SamePlaces s (promoteDelayedJobs p t b s) := by
  simp only [promoteDelayedJobs]
  split
  · exact .refl s
  · have hleave : EntersAll p (dueJobs p t s)
        (s.modify (.zset .delayed) p (·.zremAll (dueJobs p t s))) s :=
      leaves_zremAll (dueJobs_nodup p t s) fun i => mem_delayed_of_mem_dueJobs
    refine (hleave.move (foldl_promoteDelayedJob_enters (dueJobs_nodup p t s) fun i hi => ?_)).trans
      (.of_frame (W := [.marker]) (by decide) (addBaseMarkerIfNeeded_frame p b _))
    have hdel := mem_delayed_of_mem_dueJobs hi
    have hcount := hleave.occ p i
    have hle := h.le_one p i
    have hpos : 0 < (dueJobs p t s).count i := List.count_pos_iff.mpr hi
    rw [if_pos rfl] at hcount
    exact ⟨by omega, (hleave.exist _).symm.trans (h.exist_zset hdel)⟩

/-! ### Children and their parent -/

theorem moveParentToWait_enters {P : Parent} (h : occ s P.base P.id = 0) (t : ℤ) :
    Enters P.base P.id s (moveParentToWait P t s) := by
  simp only [moveParentToWait]
  split
  · exact (enters_zadd (notMem_zset_of_occ h) _).same_right
      ((SamePlaces.xadd _ _ _).trans (addDelayMarkerIfNeeded_same _ _))
  · refine Enters.same_right ?_ (.xadd _ _ _)
    split
    · exact addJobInTargetList_enters ..
    · exact addJobWithPriority_enters h ..

/-- A released parent moves. -/
theorem moveParentToWaitIfNeeded_same (h : Sound K s) (P : Parent) (t : ℤ) :
    SamePlaces s (moveParentToWaitIfNeeded P t s) := by
  unfold moveParentToWaitIfNeeded
  split
  · next hP =>
    have hleave := leaves_zrem hP.2
    exact hleave.move (moveParentToWait_enters (hleave.occ_eq_zero (h.le_one _ _)) t)
  · exact .refl s

theorem moveParentToWaitIfNoPendingDependencies_same (h : Sound K s) (P : Parent) (t : ℤ) :
    SamePlaces s (moveParentToWaitIfNoPendingDependencies P t s) := by
  unfold moveParentToWaitIfNoPendingDependencies
  split
  · exact moveParentToWaitIfNeeded_same h P t
  · exact .refl s

/-- Writing one of the accounts of children keeps the places. -/
theorem SamePlaces.account {κ : Kind} {k : String} {f : Val κ → Val κ}
    (hκ : ∀ κ' ∈ placeKinds, κ' ∉ [κ]) : SamePlaces s (s.modify κ k f) :=
  .of_frame (W := [κ]) hκ modify_notMem

theorem updateParentDepsIfNeeded_same (h : Sound K s) (P : Parent) (k v : String) (t : ℤ) :
    SamePlaces s (updateParentDepsIfNeeded P k v t s) := by
  have hproc : SamePlaces s (s.modify .processed P.key (·.insert k v)) := .account (by decide)
  exact hproc.trans (moveParentToWaitIfNoPendingDependencies_same (h.same hproc) P t)

theorem handleChildFailureAndMoveParentToWait_same (h : Sound K s) (P : Parent) (k : String)
    (t : ℤ) : SamePlaces s (handleChildFailureAndMoveParentToWait P k t s) := by
  simp only [handleChildFailureAndMoveParentToWait]
  split
  · next hex =>
    split
    · next hP =>
      have hleave := leaves_zrem hP
      have hfail := SamePlaces.hset (f := fun job => { job with defa := some (deferredFailure k) })
        (show Store.jobExists (s.modify (.zset .waitingChildren) P.base (·.zrem P.id)) P.key = true
          from (hleave.exist _).symm.trans hex)
      have hocc := hleave.occ_eq_zero (h.le_one _ _)
      exact hleave.move (.same_left hfail (moveParentToWait_enters (by rw [hfail.occ, hocc]) t))
    · split
      · next hP =>
        -- The delay is dropped first, so that the parent does not go back to where it came from.
        have hdelay := SamePlaces.hset (f := fun job => { job with delay := some 0 }) hex
        have hmem : P.id ∈ (s.hset P.key fun job => { job with delay := some 0 })
            (.zset .delayed) P.base := by
          rwa [Store.hset_of_ne _ _ _ (by decide)]
        have hleave := leaves_zrem hmem
        have hex' : Store.jobExists ((s.hset P.key fun job => { job with delay := some 0 }).modify
            (.zset .delayed) P.base (·.zrem P.id)) P.key = true := by
          rw [← hleave.exist, hdelay.exist, hex]
        have hfail := SamePlaces.hset
          (f := fun job => { job with defa := some (deferredFailure k) }) hex'
        have hocc := hleave.occ_eq_zero ((h.same hdelay).le_one _ _)
        exact hdelay.trans (hleave.move
          (.same_left hfail (moveParentToWait_enters (by rw [hfail.occ, hocc]) t)))
      · split
        · exact .refl s
        · exact .hset hex
  · exact .refl s

theorem moveChildFromDependenciesIfNeeded_same (h : Sound K s) (R : Option Parent)
    (k r : String) (t : ℤ) : SamePlaces s (moveChildFromDependenciesIfNeeded R k r t s) := by
  cases R with
  | none => exact .refl s
  | some P =>
    have hdep : SamePlaces s (s.modify .dependencies P.key (·.srem k)) := .account (by decide)
    simp only [moveChildFromDependenciesIfNeeded]
    split
    · split
      · have huns := hdep.trans
          (.account (κ := .unsuccessful) (by decide) (k := P.key) (f := (·.zadd t k)))
        exact huns.trans (handleChildFailureAndMoveParentToWait_same (h.same huns) P k t)
      · split
        · have hfc := hdep.trans
            (.account (κ := .failedChildren) (by decide) (k := P.key) (f := (·.insert k r)))
          exact hfc.trans (moveParentToWaitIfNeeded_same (h.same hfc) P t)
        · split
          · have hrel := hdep.trans
              (moveParentToWaitIfNoPendingDependencies_same (h.same hdep) P t)
            split
            · exact hrel.trans (.account (by decide))
            · exact hrel
          · exact .refl s
    · exact .refl s

/-- Unlinking a child keeps the places, in any store: the parent it may release is pushed to a
list. -/
theorem unlinkChild_same (k k' : String) (s : Store) : SamePlaces s (unlinkChild k k' s).2 := by
  have hdep : SamePlaces s (s.modify .dependencies k' (·.srem k)) := .account (by decide)
  simp only [unlinkChild]
  split
  · split
    · split
      · next hP =>
        exact hdep.trans ((leaves_zrem hP).move
          ((addJobInTargetList_enters ..).same_right (.xadd _ _ _)))
      · exact hdep
    · exact hdep
  · exact .refl s

theorem removeParentDependencyKey_same (k : String) (o : Option String) (s : Store) :
    SamePlaces s (removeParentDependencyKey k o s).2 := by
  unfold removeParentDependencyKey
  split
  · exact unlinkChild_same ..
  · split
    · split
      · exact unlinkChild_same ..
      · exact .refl s
    · exact .refl s

/-! ### Fetching -/

/-- A job popped from the wait list moves to the active list. -/
theorem rpoplpush_same (p : String) (s : Store) : SamePlaces s (rpoplpush p s).2 := by
  obtain ⟨-, hres⟩ | ⟨i, rest, hwait, hres⟩ := rpoplpush_cases p s
  · rw [hres]
    exact .refl s
  · -- Popping the last element is a removal of one occurrence.
    have hcount : ∀ k, rest.count k = (s (.list .wait) p).count k - if i = k then 1 else 0 := by
      intro k
      rw [hwait, List.count_append, List.count_singleton]
      simp
    have hleave : Enters p i (s.modify (.list .wait) p fun _ => rest) s :=
      leaves_lrem (by rw [hwait]; simp) hcount
    rw [hres]
    exact hleave.move (enters_push _ .active p .lpush i)

theorem moveJobFromPrioritizedToActive_same (p : String) (s : Store) :
    SamePlaces s (moveJobFromPrioritizedToActive p s).2 := by
  obtain ⟨-, hres⟩ | ⟨i, hi, hres⟩ := moveJobFromPrioritizedToActive_cases p s
  · rw [hres]
    exact .of_frame (W := [.pc]) (by decide) fun h => Keyspace.set_of_ne _ (by simpa using h) ..
  · rw [hres]
    exact (leaves_zrem hi).move (enters_push _ .active p .lpush i)

/-- In a sound store no legacy marker is popped. -/
theorem not_isLegacyMarker_of_rpoplpush (h : Sound K s) (hj : (rpoplpush p s).1 = some j) :
    isLegacyMarker j = false := by
  have hmem : j ∈ (rpoplpush p s).2 (.list .active) p := by
    rw [rpoplpush_active, hj]
    simp [Popped.ofOption, Popped.activeAfter]
  exact K.notLegacy ((h.same (rpoplpush_same p s)).valid_list hmem)

theorem rpoplpushPastMarker_eq (h : Sound K s) (p : String) :
    rpoplpushPastMarker p s = rpoplpush p s := by
  simp only [rpoplpushPastMarker]
  split
  · next i hi =>
    rw [not_isLegacyMarker_of_rpoplpush h hi, if_neg (by decide), ← hi]
  · next hi => rw [← hi]

/-- In a sound store the two ways to pop are one: from `wait`, else from `prioritized`. -/
theorem popForMoveToActive_eq (h : Sound K s) (p : String) :
    popForMoveToActive p s = popForFetchNextJob p s := by
  simp only [popForMoveToActive, popForFetchNextJob, rpoplpushPastMarker_eq h]
  split
  · next i hi => rw [not_isLegacyMarker_of_rpoplpush h hi, if_neg (by decide)]
  · rfl

theorem popForFetchNextJob_same (h : Sound K s) (p : String) :
    SamePlaces s (popForFetchNextJob p s).2 := by
  simp only [popForFetchNextJob]
  split
  · next i hi =>
    rw [not_isLegacyMarker_of_rpoplpush h hi, if_neg (by decide)]
    exact rpoplpush_same p s
  · exact (rpoplpush_same p s).trans (moveJobFromPrioritizedToActive_same p _)

theorem prepareJobForProcessing_same (hex : s.jobExists (p ++ j) = true) (t : ℤ)
    (m d : Option ℤ) (o : FetchOpts) : SamePlaces s (prepareJobForProcessing p j t m d o s).2 := by
  have hcount : SamePlaces s (countActivation m d p s).2 :=
    .of_frame (W := [.limiter]) (by decide) fun h => countActivation_frame m d p s
      (by simpa using h)
  rcases hres : countActivation m d p s with ⟨counted, s₁⟩
  rw [hres] at hcount
  simp only [prepareJobForProcessing, hres]
  split
  · exact hcount
  · have hlock : SamePlaces s₁
        (if o.token ≠ "0" then s₁.set .lock (p ++ j) (some o.token) else s₁) := by
      split
      · exact .of_frame (W := [.lock]) (by decide) fun h => Keyspace.set_of_ne _
          (by simpa using h) ..
      · exact .refl s₁
    have hev := (hcount.trans hlock).trans (.xadd _ p (.active j "waiting"))
    have hset := hev.trans (.hset (k := p ++ j)
      (f := fun job => { job with processedOn := some t, pb := o.name <|> job.pb })
      (by rw [hev.exist, hex]))
    exact (hset.trans (.hset (by rw [hset.exist, hex]))).trans
      (.of_frame (W := [.marker]) (by decide) (addBaseMarkerIfNeeded_frame p false _))

section Fetch

variable {pop : String → Store → Popped × Store}

theorem takeJob_same
    (hpop : ∀ s, (pop p s).2 (.list .active) = (pop p s).1.activeAfter p (s (.list .active)))
    (hsame : SamePlaces s (pop p s).2) (h : Sound K s) (t : ℤ) (m d : Option ℤ) (o : FetchOpts) :
    SamePlaces s (takeJob pop p t m d o s).2 := by
  simp only [takeJob]
  split
  · next i hi =>
    have hmem : i ∈ (pop p s).2 (.list .active) p := by
      rw [hpop, hi]
      simp [Popped.activeAfter]
    exact hsame.trans (prepareJobForProcessing_same ((h.same hsame).exist_list hmem) ..)
  · exact hsame
  · exact hsame

theorem startFetch_same (h : Sound K s) (p : String) (t : ℤ) (o : FetchOpts) :
    SamePlaces s (startFetch p t o s).2 :=
  (promoteDelayedJobs_same h p t _).trans
    (.of_frame (W := [.limiter]) (by decide) fun h => getRateLimitTTL_frame _ _ _
      (by simpa using h))

theorem fetchWith_same
    (hpop : ∀ s, (pop p s).2 (.list .active) = (pop p s).1.activeAfter p (s (.list .active)))
    (hsame : ∀ {s}, Sound K s → SamePlaces s (pop p s).2) (h : Sound K s) (t : ℤ)
    (o : FetchOpts) : SamePlaces s (fetchWith pop p t o s).2 := by
  have hstart := startFetch_same h p t o
  obtain ⟨e, -, hres⟩ | ⟨-, -, hres⟩ := fetchWith_cases pop p t o s
  · rw [hres]
    exact hstart
  · have hs' := h.same hstart
    rw [hres]
    exact hstart.trans (takeJob_same hpop (hsame hs') hs' ..)

end Fetch

/-- A fetch keeps the places. -/
theorem fetchNextJob_same (h : Sound K s) (p : String) (t : ℤ) (o : FetchOpts) :
    SamePlaces s (fetchNextJob p t o s).2 :=
  fetchWith_same (popForFetchNextJob_active p) (fun hs => popForFetchNextJob_same hs p) h t o

theorem Script.moveToActive_same (h : Sound K s) (p : String) (t : ℤ) (o : FetchOpts) :
    SamePlaces s (Script.moveToActive p t o s).2 :=
  fetchWith_same (popForMoveToActive_active p)
    (fun hs => popForMoveToActive_eq hs p ▸ popForFetchNextJob_same hs p) h t o

end BullMQ
