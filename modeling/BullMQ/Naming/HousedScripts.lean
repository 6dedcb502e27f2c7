import BullMQ.Naming.Housed
import BullMQ.Model.GetJobs
import BullMQ.Placement.Retention

/-!
# Scripts keep jobs in the containers

Fetches, finishes, stalled checks and reads keep a job in the containers of its queue, if its id
does not look like a legacy marker. Of the other ids nothing is assumed: markers are dropped by
their names, and dropping one leaves the others alone. The script that finishes a job takes it off
the active list and ends with it in a set, or deleted.
-/

namespace BullMQ

open Redis

namespace Keeps

variable {Q : QueueSet} {p q i j : String} {s s' s₁ : Store}

/-! ### Popping -/

/-- An id that is moved to the front of the active list is on a list. -/
theorem onList_active (q i : String) (s : Store) :
    OnList q i (s.modify (.list .active) q (lpush i)) :=
  ⟨.active, by rw [Keyspace.modify_self, Function.update_self]; exact .head _⟩

theorem rpoplpush (q : String) : Keeps p j s (BullMQ.rpoplpush q s).2 := by
  obtain ⟨-, heq⟩ | ⟨i, l, hl, heq⟩ := rpoplpush_cases q s <;> rw [heq]
  · exact .refl p j s
  · by_cases hij : q = p ∧ i = j
    · obtain ⟨rfl, rfl⟩ := hij
      have hon := onList_active q i (s.set (.list .wait) q l)
      exact ⟨fun _ => hon, fun _ => Held.housed (.inl hon), fun _ => .inr (.inl hon)⟩
    · refine .trans (.modify_list (f := fun _ => l) fun hq hmem => ?_) (.push .lpush .active q i)
      subst hq
      rw [hl, List.mem_append, List.mem_singleton] at hmem
      exact hmem.resolve_right fun h => hij ⟨rfl, h.symm⟩

theorem moveJobFromPrioritizedToActive (q : String) :
    Keeps p j s (BullMQ.moveJobFromPrioritizedToActive q s).2 := by
  obtain ⟨-, heq⟩ | ⟨i, -, heq⟩ := moveJobFromPrioritizedToActive_cases q s <;> rw [heq]
  · exact .set (κ := .pc) (by decide) q _
  · refine .of_zrem (fun hq hi => ?_) (.push .lpush .active q i)
    subst hq hi
    exact Held.housed (.inl (onList_active q i _))

theorem lremLeft_of_ne {l : ListKey} (hij : i ≠ j) (q : String) :
    Keeps p j s (s.modify (.list l) q (lremLeft i)) :=
  .modify_list fun _ hmem => (List.mem_erase_of_ne hij.symm).mpr hmem

theorem lremRight_of_ne {l : ListKey} (hij : q = p → i ≠ j) :
    Keeps p j s (s.modify (.list l) q (lremRight i)) := by
  refine .modify_list fun hq hmem => List.mem_reverse.mpr ?_
  exact (List.mem_erase_of_ne (hij hq).symm).mpr (List.mem_reverse.mpr hmem)

/-- A legacy marker is dropped. -/
theorem dropMarker (l : ListKey) (hj : isLegacyMarker j = false) (hi : isLegacyMarker i = true)
    (q : String) : Keeps p j s (s.modify (.list l) q (lremLeft i)) := by
  refine .lremLeft_of_ne ?_ q
  rintro rfl
  rw [hi] at hj
  cases hj

theorem rpoplpushPastMarker (hj : isLegacyMarker j = false) (q : String) :
    Keeps p j s (BullMQ.rpoplpushPastMarker q s).2 := by
  have hfst : Keeps p j s (BullMQ.rpoplpush q s).2 := .rpoplpush q
  simp only [BullMQ.rpoplpushPastMarker]
  split
  · split
    · next hi => exact (hfst.trans (.dropMarker .active hj hi q)).trans (.rpoplpush q)
    · exact hfst
  · exact hfst

theorem popForMoveToActive (hj : isLegacyMarker j = false) (q : String) :
    Keeps p j s (BullMQ.popForMoveToActive q s).2 := by
  have hfst : Keeps p j s (BullMQ.rpoplpushPastMarker q s).2 := .rpoplpushPastMarker hj q
  simp only [BullMQ.popForMoveToActive]
  split
  · exact hfst
  · exact hfst.trans (.moveJobFromPrioritizedToActive q)

theorem popForFetchNextJob (hj : isLegacyMarker j = false) (q : String) :
    Keeps p j s (BullMQ.popForFetchNextJob q s).2 := by
  have hfst : Keeps p j s (BullMQ.rpoplpush q s).2 := .rpoplpush q
  simp only [BullMQ.popForFetchNextJob]
  split
  · split
    · next hi =>
      have hleft := hfst.trans (.dropMarker .active hj hi q)
      split
      · exact hleft.trans (.moveJobFromPrioritizedToActive q)
      · exact hleft
    · exact hfst
  · exact hfst.trans (.moveJobFromPrioritizedToActive q)

/-! ### Fetching -/

/-- A job that is prepared is on the active list. -/
theorem prepareJobForProcessing (hp : Q.Base p) (hq : Q.Base q) (hi : OnList q i s) (t : ℤ)
    (m d : Option ℤ) (o : FetchOpts) :
    Keeps p j s (BullMQ.prepareJobForProcessing q i t m d o s).2 := by
  have hcount : Keeps p j s (countActivation m d q s).2 :=
    .of_frame (W := [.limiter]) (by decide) fun hκ => countActivation_frame _ _ _ _
      (by simpa using hκ)
  have hcounted : OnList q i (countActivation m d q s).2 := by
    obtain ⟨l, hl⟩ := hi
    exact ⟨l, by rwa [countActivation_frame _ _ _ _ (by simp)]⟩
  simp only [BullMQ.prepareJobForProcessing]
  split
  · exact hcount
  · generalize hlocked : (if o.token ≠ "0" then
      Keyspace.set (countActivation m d q s).2 .lock (q ++ i) (some o.token)
      else (countActivation m d q s).2) = locked
    have hlock : Keeps p j (countActivation m d q s).2 locked ∧ OnList q i locked := by
      rw [← hlocked]
      split
      · obtain ⟨l, hl⟩ := hcounted
        exact ⟨.set (κ := .lock) (by decide) _ _, l, by rwa [Keyspace.set_of_ne _ (by simp)]⟩
      · exact ⟨.refl p j _, hcounted⟩
    have hset : ∀ (f : Job → Job) {s : Store}, OnList q i s →
        Keeps p j s (s.hset (q ++ i) f) ∧ OnList q i (s.hset (q ++ i) f) := by
      intro f s hs
      refine ⟨.hset (fun heq => .inr ?_) f, ?_⟩
      · obtain rfl := Q.apart hq hp heq
        obtain rfl := (String.append_right_inj _).mp heq
        exact .inl hs
      · obtain ⟨l, hl⟩ := hs
        exact ⟨l, by rwa [Store.hset_of_ne _ _ _ (by simp)]⟩
    have hevent : OnList q i (Store.xadd locked q (.active i "waiting")) := by
      obtain ⟨l, hl⟩ := hlock.2
      exact ⟨l, by rwa [Store.xadd_of_ne _ _ _ (by simp)]⟩
    obtain ⟨hfields, hon⟩ := hset (fun job =>
      { job with processedOn := some t, pb := o.name <|> job.pb }) hevent
    obtain ⟨hstarts, -⟩ := hset (fun job => { job with ats := job.ats + 1 }) hon
    refine hcount.trans (hlock.1.trans ?_)
    exact (Keeps.xadd q _).trans (hfields.trans (hstarts.trans (.addBaseMarkerIfNeeded q false)))

theorem startFetch (hp : Q.Base p) (hq : Q.Base q) (t : ℤ) (o : FetchOpts) :
    Keeps p j s (BullMQ.startFetch q t o s).2 :=
  .trans (.promoteDelayedJobs hp hq _ _) (.of_frame (W := [.limiter]) (by decide) fun hκ =>
    getRateLimitTTL_frame _ _ _ (by simpa using hκ))

/-- A fetch whose pop keeps the id and leaves what it popped in the active list. -/
theorem fetchWith {pop : String → Store → Popped × Store} (hp : Q.Base p) (hq : Q.Base q)
    (hpop : ∀ s, Keeps p j s (pop q s).2)
    (hactive : ∀ s, (pop q s).2 (.list .active) = (pop q s).1.activeAfter q (s (.list .active)))
    (t : ℤ) (o : FetchOpts) : Keeps p j s (BullMQ.fetchWith pop q t o s).2 := by
  have hstart : Keeps p j s (BullMQ.startFetch q t o s).2 := .startFetch hp hq t o
  obtain ⟨e, -, hres⟩ | ⟨-, -, hres⟩ := fetchWith_cases pop q t o s <;> rw [hres]
  · exact hstart
  · have hpopped := hstart.trans (hpop _)
    have hact := hactive (BullMQ.startFetch q t o s).2
    simp only [takeJob]
    split
    · next i hi =>
      refine hpopped.trans (.prepareJobForProcessing hp hq ⟨.active, ?_⟩ _ _ _ _)
      rw [hact, hi]
      simp [Popped.activeAfter]
    · exact hpopped
    · exact hpopped

theorem fetchNextJob (hj : isLegacyMarker j = false) (hp : Q.Base p) (hq : Q.Base q) (t : ℤ)
    (o : FetchOpts) : Keeps p j s (BullMQ.fetchNextJob q t o s).2 :=
  .fetchWith hp hq (fun _ => .popForFetchNextJob hj q) (popForFetchNextJob_active q) t o

theorem moveToActive (hj : isLegacyMarker j = false) (hp : Q.Base p) (hq : Q.Base q) (t : ℤ)
    (o : FetchOpts) : Keeps p j s (Script.moveToActive q t o s).2 :=
  .fetchWith hp hq (fun _ => .popForMoveToActive hj q) (popForMoveToActive_active q) t o

/-! ### Deleting jobs -/

theorem notifyParent (hp : Q.Base p) (P : Option Parent) (k : String) (a : FinishArgs) :
    Keeps p j s (BullMQ.notifyParent P k a s) := by
  unfold BullMQ.notifyParent
  split
  · exact .refl p j s
  · split
    · exact .refl p j s
    · split
      · split
        · exact .trans (.modify (κ := .dependencies) (by decide) _ _)
            (.updateParentDepsIfNeeded hp _ _ _ _)
        · exact .refl p j s
      · exact .moveChildFromDependenciesIfNeeded hp _ _ _ _

theorem removeJob (hp : Q.Base p) (q i : String) : Keeps p j s (BullMQ.removeJob q false s i) :=
  .trans (.removeParentDependencyKey hp (q ++ i) none) (.removeJobKeys _)

/-- Ids leave a set whose jobs are deleted. -/
theorem zremAll_of_deleted {z : ZSetKey} {l : List String}
    (hl : q = p → j ∈ l → s.jobExists (p ++ j) = false) :
    Keeps p j s (s.modify (.zset z) q (·.zremAll l)) := by
  refine .of_filter rfl (fun hq hmem hout hex => ?_) (.refl p j _)
  have hj : j ∈ l := by
    by_contra hnot
    exact hout (SortedSet.mem_zremAll.mpr ⟨hmem, hnot⟩)
  rw [Store.jobExists, Keyspace.modify_of_ne _ (by simp), ← Store.jobExists, hl hq hj] at hex
  cases hex

theorem of_retires {z : ZSetKey} (hp : Q.Base p) (h : Retires q z s s') : Keeps p j s s' := by
  obtain ⟨l, l', hperm, -, -, rfl⟩ := h
  refine .trans (.foldl fun i _ s => .removeJob hp q i) (.zremAll_of_deleted fun hq hj => ?_)
  subst hq
  rw [(foldl_removeJob_erases q l s).exist, decide_eq_false, Bool.and_false]
  exact not_not.mpr (List.mem_map_of_mem (hperm.mem_iff.mpr hj))

theorem retain (hp : Q.Base p) (a : FinishArgs) :
    Keeps p j s (retainByCount q a (retainByAge q a s)) := by
  have hage : Keeps p j s (retainByAge q a s) := by
    unfold retainByAge
    split
    · exact .of_retires hp (removeJobsByMaxAge_retires _ _ _ _ _ _)
    · exact .refl p j s
  refine hage.trans ?_
  unfold retainByCount
  split
  · split
    · exact .of_retires hp (removeJobsByMaxCount_retires _ _ _ _)
    · exact .refl p j _
  · exact .refl p j _

end Keeps

/-! ### Finishing -/

section Finishing

variable {Q : QueueSet} {p q i j : String} {s s' s₁ : Store}

theorem Houses.recordFinished (hq : Q.Base q) (a : FinishArgs) (s : Store) :
    Houses Q q a.jobId s (BullMQ.recordFinished q a s) := by
  have hkept := (Houses.zadd (Q := Q) a.target.zset a.timestamp q a.jobId s).then_hset hq a.record
  simp only [BullMQ.recordFinished]
  split
  · exact ⟨fun hp => (hkept.keeps hp).trans (.hdel _ _),
      Keeps.held_of_same hkept.held fun κ _ hne => Store.hdel_of_ne _ _ _ hne⟩
  · exact hkept

/-- The other jobs are kept. -/
theorem Keeps.keepOrRemove (hp : Q.Base p) (hq : Q.Base q) (P : Option Parent) (a : FinishArgs) :
    Keeps p j s (BullMQ.keepOrRemove q P a s) := by
  simp only [BullMQ.keepOrRemove]
  split
  · exact ((Houses.recordFinished hq a s).keeps hp).trans (.retain hp a)
  · split
    · exact .trans (.removeJobKeys _) (.removeParentDependencyKey hp _ _)
    · exact .removeJobKeys _

/-- The finished job itself is in its set, or deleted. -/
theorem housed_keepOrRemove (hq : Q.Base q) (P : Option Parent) (a : FinishArgs) (s : Store) :
    Housed q a.jobId (BullMQ.keepOrRemove q P a s) := by
  simp only [BullMQ.keepOrRemove]
  split
  · exact (Houses.recordFinished hq a s).held.housed.keeps (.retain hq a)
  · have hgone : Housed q a.jobId (removeJobKeys (q ++ a.jobId) s) := by
      intro hex
      rw [Store.jobExists, removeJobKeys_hash, Function.update_self] at hex
      cases hex
    split
    · exact hgone.keeps (.removeParentDependencyKey hq _ _)
    · exact hgone

theorem Keeps.settleFinished (hp : Q.Base p) (hq : Q.Base q) (a : FinishArgs) :
    Keeps p j s (BullMQ.settleFinished q a s) := by
  refine .trans ?_ (.notifyParent hp _ _ a)
  refine .trans ?_ (.requeueDeduplicatedJob hp hq _ _)
  exact .trans (.getOrSetMaxEvents q) (.removeDeduplicationKeyIfNeededOnFinalization _ _ _)

/-- What follows the decision to keep the job or not. -/
theorem Keeps.reportFinished (q : String) (a : FinishArgs) (n : ℕ) :
    Keeps p j s (match a.maxMetricsSize with
      | some maxMetricsSize => collectMetrics (q ++ "metrics:" ++ a.target.name) maxMetricsSize
          a.timestamp (emitFinished q a n s)
      | none => emitFinished q a n s) := by
  have hevents : Keeps p j s (emitFinished q a n s) :=
    .of_frame (W := [.events]) (by decide) fun hκ => emitFinished_frame _ _ _ _ (by simpa using hκ)
  split
  · exact hevents.trans (.of_frame (W := [.metrics]) (by decide) fun hκ =>
      collectMetrics_frame _ _ _ _ (by simpa using hκ))
  · exact hevents

theorem Keeps.finishJob (hp : Q.Base p) (hq : Q.Base q) {a : FinishArgs}
    (hne : q ++ a.jobId ≠ p ++ j) : Keeps p j s (BullMQ.finishJob q a s) := by
  simp only [BullMQ.finishJob]
  refine .trans ?_ (.reportFinished q a _)
  refine .trans ?_ (.keepOrRemove hp hq _ a)
  exact .trans (.settleFinished hp hq a) (.hset (fun heq => absurd heq hne) _)

theorem housed_finishJob (hq : Q.Base q) (a : FinishArgs) (s : Store) :
    Housed q a.jobId (BullMQ.finishJob q a s) := by
  simp only [BullMQ.finishJob]
  exact (housed_keepOrRemove hq _ a _).keeps (.reportFinished q a _)

theorem Keeps.fetchOrDrain (hj : isLegacyMarker j = false) (hp : Q.Base p) (hq : Q.Base q)
    (a : FinishArgs) : Keeps p j s (BullMQ.fetchOrDrain q a s).2 := by
  have hdrained : ∀ s, Keeps p j s (emitDrained q s) := fun s =>
    .of_frame (W := [.events]) (by decide) fun hκ => emitDrained_frame _ _ (by simpa using hκ)
  have hfetched : Keeps p j s (BullMQ.fetchNextJob q a.timestamp a.opts s).2 :=
    .fetchNextJob hj hp hq a.timestamp a.opts
  simp only [BullMQ.fetchOrDrain]
  split
  · split
    · exact hfetched
    · exact hfetched.trans (hdrained _)
  · exact hdrained _

theorem Keeps.releasedJob (hex : s.jobExists (q ++ i) = true) (t : String)
    (f : Option FieldsToUpdate) : Keeps p j s (BullMQ.releasedJob q i t f s) := by
  have hunlock : Keeps p j s (removeLock q i t s).2 :=
    .of_frame (W := [.lock, .stalled]) (by decide) fun hκ => removeLock_frame _ _ _ _ hκ
  unfold BullMQ.releasedJob updateJobFields
  split
  · exact hunlock
  · refine hunlock.trans (.hset (fun _ => .inl ?_) _)
    rwa [Store.jobExists, removeLock_frame _ _ _ _ (by decide), ← Store.jobExists]

theorem Keeps.moveToFinished (hj : isLegacyMarker j = false) (hp : Q.Base p) (hq : Q.Base q)
    {a : FinishArgs} (hne : q ++ a.jobId ≠ p ++ j) :
    Keeps p j s (Script.moveToFinished q a s).2 := by
  simp only [Script.moveToFinished]
  split
  · exact .refl p j s
  · next hex =>
    have hreleased : Keeps p j s (BullMQ.releasedJob q a.jobId a.opts.token a.fieldsToUpdate s) :=
      .releasedJob (by simpa using hex) _ _
    have hleft : Keeps p j s (removeJobFromActive q a.jobId a.opts.token a.fieldsToUpdate s).2 := by
      obtain ⟨-, n, -, -, heq⟩ | ⟨-, -, heq⟩ | ⟨-, -, heq⟩ :=
        removeJobFromActive_cases q a.jobId a.opts.token a.fieldsToUpdate s <;> rw [heq]
      · exact .refl p j s
      · exact hreleased
      · exact hreleased.trans (.lremRight_of_ne fun hq hi => hne (by rw [hq, hi]))
    split
    · exact .refl p j s
    · split
      · exact .refl p j s
      · split
        · exact hleft
        · exact (hleft.trans (.finishJob hp hq hne)).trans (.fetchOrDrain hj hp hq a)

/-- A job that is to be finished is still active, or in its set, or deleted. -/
theorem Housed.moveToFinished {a : FinishArgs} (h : Housed p a.jobId s)
    (hj : isLegacyMarker a.jobId = false) (hp : Q.Base p) :
    Housed p a.jobId (Script.moveToFinished p a s).2 := by
  simp only [Script.moveToFinished]
  split
  · exact h
  · next hex =>
    split
    · exact h
    · split
      · exact h
      · obtain ⟨-, n, hn, -, heq⟩ | ⟨-, -, heq⟩ | ⟨-, -, heq⟩ :=
          removeJobFromActive_cases p a.jobId a.opts.token a.fieldsToUpdate s <;> rw [heq]
        · rw [if_pos hn]
          exact h
        · rw [if_pos (show (-3 : ℤ) < 0 by decide)]
          exact h.keeps (.releasedJob (by simpa using hex) _ _)
        · rw [if_neg (show ¬ (0 : ℤ) < 0 by decide)]
          exact (housed_finishJob hp a _).keeps (.fetchOrDrain hj hp hp a)

/-! ### Stalled checks -/

theorem Keeps.countStall (hne : q ++ i ≠ p ++ j) (m : ℤ) :
    Keeps p j s (BullMQ.countStall q i m s) := by
  have hset : ∀ (f : Job → Job) (s : Store), Keeps p j s (s.hset (q ++ i) f) := fun f _ =>
    .hset (fun heq => absurd heq hne) f
  simp only [BullMQ.countStall]
  split
  · exact (hset _ _).trans (hset _ _)
  · exact hset _ _

theorem Keeps.reclaimStalledJob (hj : isLegacyMarker j = false) (hp : Q.Base p) (hq : Q.Base q)
    (m : ℤ) (acc : List String × Store) (i : String) :
    Keeps p j acc.2 (BullMQ.reclaimStalledJob q m acc i).2 := by
  simp only [BullMQ.reclaimStalledJob]
  split
  · next hi => exact .dropMarker .active hj hi q
  · split
    · generalize hwait : BullMQ.moveJobToWait q i .rpush (BullMQ.countStall q i m
        (acc.2.modify (.list .active) q (lremLeft i))) = s'
      refine Keeps.trans ?_ (.xadd q _)
      by_cases hij : q ++ i = p ++ j
      · -- the id itself leaves the active list for the wait list
        obtain rfl := Q.apart hq hp hij
        obtain rfl := (String.append_right_inj _).mp hij
        have hon : OnList q i s' := by
          refine ⟨.wait, ?_⟩
          rw [← hwait, BullMQ.moveJobToWait, Store.xadd_of_ne _ _ _ (by decide),
            BullMQ.addJobInTargetList, addBaseMarkerIfNeeded_frame _ _ _ (by decide),
            Keyspace.modify_self, Function.update_self]
          exact PushCmd.mem_push.mpr (.inl rfl)
        exact ⟨fun _ => hon, fun _ => Held.housed (.inl hon), fun _ => .inr (.inl hon)⟩
      · rw [← hwait]
        refine .trans ?_ ((Houses.moveJobToWait .rpush q i _).keeps hp)
        refine .trans (.modify_list fun hqp hmem => ?_) (.countStall hij m)
        subst hqp
        exact (List.mem_erase_of_ne fun h => hij (by rw [h])).mpr hmem
    · exact .refl p j _

theorem Keeps.moveStalledJobsToWait (hj : isLegacyMarker j = false) (hp : Q.Base p)
    (hq : Q.Base q) (m t c : ℤ) : Keeps p j s (Script.moveStalledJobsToWait q m t c s).2 := by
  have hfold : ∀ (l : List String) (acc : List String × Store),
      Keeps p j acc.2 (l.foldl (BullMQ.reclaimStalledJob q m) acc).2 := by
    intro l
    induction l with
    | nil => exact fun acc => .refl p j acc.2
    | cons i l ih => exact fun acc => (Keeps.reclaimStalledJob hj hp hq m acc i).trans (ih _)
  simp only [Script.moveStalledJobsToWait]
  split
  · exact .refl p j s
  · split
    · exact .refl p j s
    · refine .trans ?_ (.of_frame (W := [.stalled]) (by decide) fun hκ =>
        markActive_frame _ _ (by simpa using hκ))
      refine .trans ?_ (hfold _ _)
      refine .trans ?_ (.set (κ := .stalled) (by decide) q ∅)
      exact .trans (.set (κ := .stalledCheck) (by decide) q (some t)) (.getOrSetMaxEvents q)

/-! ### Reading -/

theorem Keeps.cleanupDeprecatedMarker (hj : isLegacyMarker j = false) (q : String) (c : Container) :
    Keeps p j s (BullMQ.cleanupDeprecatedMarker q c s).2 := by
  unfold BullMQ.cleanupDeprecatedMarker
  split
  · exact .refl p j s
  · exact .refl p j s
  · next l _ =>
    split
    · next marker rest hpop =>
      split
      · next hmarker =>
        split
        · refine .modify_list (f := fun _ => rest) fun hq hmem => ?_
          subst hq
          rw [rpop_eq_some hpop, List.mem_append, List.mem_singleton] at hmem
          refine hmem.resolve_right ?_
          rintro rfl
          rw [hmarker] at hj
          cases hj
        · exact .refl p j s
      · exact .refl p j s
    · exact .refl p j s

theorem Keeps.collectJobs (hj : isLegacyMarker j = false) (q : String) (a b : ℤ) (asc : Bool)
    (n : ℕ) (c : Container) : Keeps p j s (BullMQ.collectJobs q a b asc n c s).2 := by
  have hclean : Keeps p j s (BullMQ.cleanupDeprecatedMarker q c s).2 :=
    .cleanupDeprecatedMarker hj q c
  simp only [BullMQ.collectJobs]
  split
  · exact hclean
  · exact hclean

theorem Keeps.getJobs (hj : isLegacyMarker j = false) (q : String) (a b : ℤ) (asc : Bool) (n : ℕ)
    (types : List Container) (s : Store) :
    Keeps p j s (Script.getJobs q a b asc n types s).2 := by
  induction types generalizing s with
  | nil => exact .refl p j s
  | cons c types ih => exact .trans (.collectJobs hj q a b asc n c) (ih _)

end Finishing

end BullMQ
