import BullMQ.Placement.Scripts

/-!
# Well placed stores

The invariant of the runs without deduplication: the store is placed, keeps no deduplication
payload, and the counter of a queue is not behind the ids drawn from it (`WellPlaced`). The
commands are taken in three groups. An add creates at most one job, under an id that is new; a
removal on request deletes jobs, children included; every other command retains what there is.
-/

namespace BullMQ

open Redis

variable {K : KeySpace} {s s' s'' : Store} {p j : String}

/-- The ids drawn from the counter of a queue are not ahead of it. -/
def Counted (K : KeySpace) (s : Store) : Prop :=
  ∀ p n, K.Valid p n.repr → s.jobExists (p ++ n.repr) = true → n ≤ s .id p

/-- The invariant of the runs without deduplication. -/
structure WellPlaced (K : KeySpace) (s : Store) : Prop extends Placed K s where
  noPending : NoPending s
  counted : Counted K s

/-- The empty store is well placed. -/
theorem WellPlaced.empty (K : KeySpace) : WellPlaced K .empty := by
  have hocc : ∀ p j, occ .empty p j = 0 := fun p j => rfl
  refine { le_one := fun p j => by simp [hocc], valid := fun h => absurd (hocc _ _) h,
           exist := fun h => absurd (hocc _ _) h, placed := fun h => (by cases h),
           noPending := fun k => rfl, counted := fun p n _ h => (by cases h) }

/-- A command that creates no job and draws no id. -/
theorem WellPlaced.retains (h : WellPlaced K s) (hr : Retains s s') (hdn : NoPending s')
    (hid : s' .id = s .id) : WellPlaced K s' where
  toPlaced := h.toPlaced.retains hr
  noPending := hdn
  counted p n hv hex := by
    rw [hid]
    exact h.counted p n hv (hr.exist hex)

/-! ### Adds -/

/-- A new job of the queue `p`, with its hash. -/
structure Adds (p j : String) (s s' : Store) : Prop where
  occ : ∀ q i, BullMQ.occ s' q i = BullMQ.occ s q i + if q = p ∧ i = j then 1 else 0
  exist : ∀ k, s'.jobExists k = (s.jobExists k || decide (k = p ++ j))

theorem Sound.add (h : Sound K s) (hv : K.Valid p j) (hnew : s.jobExists (p ++ j) = false)
    (ha : Adds p j s s') : Sound K s' := by
  have hzero := h.occ_eq_zero hnew
  refine ⟨fun q i => ?_, fun {q i} hocc => ?_, fun {q i} hocc => ?_⟩
  · have hle := h.le_one q i
    rw [ha.occ]
    split
    · next heq => rw [heq.1, heq.2, hzero]
    · exact hle
  · by_cases heq : q = p ∧ i = j
    · rwa [heq.1, heq.2]
    · rw [ha.occ, if_neg heq, Nat.add_zero] at hocc
      exact h.valid hocc
  · rw [ha.exist]
    by_cases heq : q = p ∧ i = j
    · simp [heq.1, heq.2]
    · rw [ha.occ, if_neg heq, Nat.add_zero] at hocc
      simp [h.exist hocc]

theorem Placed.add (h : Placed K s) (hv : K.Valid p j) (hnew : s.jobExists (p ++ j) = false)
    (ha : Adds p j s s') : Placed K s' where
  toSound := h.toSound.add hv hnew ha
  placed {k} hex := by
    have hzero := h.occ_eq_zero hnew
    rw [ha.exist, Bool.or_eq_true] at hex
    rcases hex with hex | hex
    · obtain ⟨q, i, hqi, rfl, hone⟩ := h.placed hex
      have hne : ¬ (q = p ∧ i = j) := by
        rintro ⟨rfl, rfl⟩
        omega
      exact ⟨q, i, hqi, rfl, by rw [ha.occ, if_neg hne, hone]⟩
    · exact ⟨p, j, hv, of_decide_eq_true hex, by rw [ha.occ, if_pos ⟨rfl, rfl⟩, hzero]⟩

/-- A mode whose enqueueing lets the job enter. -/
def AddMode.Enqueues (mode : AddMode) (p : String) : Prop :=
  ∀ j a s, occ s p j = 0 → Enters p j s (mode.enqueue j a s)

theorem standardMode_enqueues (p : String) : (standardMode p).Enqueues p := fun j _ s _ =>
  (addJobInTargetList_enters p _ _ j s).same_right (.xadd _ _ _)

theorem delayedMode_enqueues (p : String) : (delayedMode p).Enqueues p := fun _ _ _ h =>
  addDelayedJob_enters h _ _

theorem prioritizedMode_enqueues (p : String) : (prioritizedMode p).Enqueues p := fun _ _ _ h =>
  (addJobWithPriority_enters h _ _).same_right (.xadd _ _ _)

theorem parentMode_enqueues (p : String) : (parentMode p).Enqueues p := fun _ _ _ h =>
  (enters_zadd (notMem_zset_of_occ h) _).same_right (.xadd _ _ _)

/-- A stored job is new in the queue, with its hash. -/
theorem storeNewJob_adds {mode : AddMode} (hmode : mode.Enqueues p) (h : occ s p j = 0)
    (a : AddArgs) : Adds p j s (storeNewJob mode p j a s) := by
  have hstore : ∀ q i, occ (storeJob p j a.name a.data a.opts a.timestamp a.parent a.repeatJobKey
      s) q i = occ s q i := by
    intro q i
    have hc : ∀ c : Container, storeJob p j a.name a.data a.opts a.timestamp a.parent
        a.repeatJobKey s c.kind = s c.kind := fun c =>
      storeJob_frame _ _ _ _ _ _ _ _ _ (by rcases c with _ | _ <;> simp [Container.kind])
    exact occ_congr hc q i
  have hhash : ∀ k, (storeJob p j a.name a.data a.opts a.timestamp a.parent a.repeatJobKey
      s).jobExists k = (s.jobExists k || decide (k = p ++ j)) := by
    intro k
    rw [storeJob, (SamePlaces.xadd _ p _).exist, Store.jobExists, Store.hset_hash, Store.jobExists]
    split
    · next hk => simp [hk]
    · next hk => simp [hk]
  have henq := hmode j a (storeJob p j a.name a.data a.opts a.timestamp a.parent a.repeatJobKey s)
    (by rw [hstore, h])
  have hdep := henq.same_right (show SamePlaces _ (storeNewJob mode p j a s) from
    .of_frame (W := [.dependencies]) (by decide)
    fun hκ => addParentDependency_frame _ _ _ (by simpa using hκ))
  exact ⟨fun q i => by rw [hdep.occ, hstore], fun k => by rw [hdep.exist, hhash]⟩

theorem drawId_same (p : String) (s : Store) : SamePlaces s (drawId p s) :=
  .of_frame (W := [.id, .metaMaxLenEvents]) (by decide) (drawId_frame p s)

theorem drawId_id (p : String) (s : Store) :
    drawId p s .id = Function.update (s .id) p (s .id p + 1) := by
  rw [drawId, getOrSetMaxEvents_frame _ _ (by decide), Keyspace.modify_self]

theorem updateExistingJobsParent_same (h : Sound K s) (hex : s.jobExists (p ++ j) = true)
    (P : Option Parent) (t : ℤ) : SamePlaces s (updateExistingJobsParent p j P t s) := by
  cases P with
  | none => exact .refl s
  | some P =>
    have hacc : SamePlaces s (if j ∈ s (.zset .completed) p then
        updateParentDepsIfNeeded P (p ++ j)
          (((s .hash (p ++ j)).bind Job.returnvalue).getD "") t s
        else s.modify .dependencies P.key (·.sadd (p ++ j))) := by
      split
      · exact updateParentDepsIfNeeded_same h ..
      · exact .account (by decide)
    exact hacc.trans (.hset (f := fun job => { job with parent := some P })
      (by rw [hacc.exist, hex]))

theorem handleDuplicatedJob_same (h : Sound K s) (hex : s.jobExists (p ++ j) = true)
    (P : Option Parent) (t : ℤ) : SamePlaces s (handleDuplicatedJob p j P t s).2 := by
  have hupd := updateExistingJobsParent_same h hex P t
  unfold handleDuplicatedJob
  split
  · exact hupd.trans (.xadd _ _ _)
  · split
    · exact hupd.trans (.xadd _ _ _)
    · split
      · exact .refl s
      · exact .xadd _ _ _

/-- The ids that adds without deduplication may use: drawn from the counter, or given and then
unlike those. -/
structure AddArgs.Plain (K : KeySpace) (p : String) (a : AddArgs) : Prop where
  noDeduplication : a.opts.de = none
  counter : a.customId = "" → ∀ n : ℕ, K.Valid p n.repr
  custom : a.customId ≠ "" → K.Valid p a.customId ∧ ∀ n : ℕ, a.customId ≠ n.repr

theorem addJobWith_wellPlaced {mode : AddMode} (hframed : mode.Framed) (hmode : mode.Enqueues p)
    (h : WellPlaced K s) {a : AddArgs} (ha : a.Plain K p) :
    WellPlaced K (addJobWith mode p a s).2 := by
  have hdraw := drawId_same p s
  have hle : ∀ q, s .id q ≤ drawId p s .id q := fun q => by
    rw [drawId_id, Function.update_apply]
    split
    · next hq => exact hq ▸ Nat.le_succ _
    · exact le_rfl
  have hdn : ∀ k, drawId p s .dn k = none := fun k => by
    rw [drawId_frame _ _ (by decide)]
    exact h.noPending k
  obtain ⟨-, hres⟩ | ⟨-, hex, -, hres⟩ | ⟨i, hi, -, hres⟩ := addJobWith_cases mode
    ha.noDeduplication p s
  · rw [hres]
    exact h
  · have hsame := hdraw.trans (handleDuplicatedJob_same (h.toSound.same hdraw)
      (by rw [hdraw.exist, hex]) a.parent a.timestamp)
    rw [hres]
    refine ⟨h.toPlaced.retains (.of_same h.toSound hsame), fun k => ?_, fun q n hv hn => ?_⟩
    · rw [handleDuplicatedJob_frame _ _ _ _ _ (by decide)]
      exact hdn k
    · rw [handleDuplicatedJob_frame _ _ _ _ _ (by decide)]
      exact (h.counted q n hv (by rwa [hsame.exist] at hn)).trans (hle q)
  · -- The id is new: a drawn one is ahead of all others, a given one was looked up.
    have hvalid : K.Valid p i := by
      rcases hi with ⟨hc, rfl⟩ | ⟨hc, hne, -⟩
      · exact ha.counter hc _
      · exact hc ▸ (ha.custom (hc ▸ hne)).1
    have hnew : s.jobExists (p ++ i) = false := by
      rcases hi with ⟨hc, rfl⟩ | ⟨-, -, hno⟩
      · by_contra hex
        have hahead : s .id p + 1 ≤ s .id p := h.counted p _ hvalid (by simpa using hex)
        exact Nat.not_succ_le_self _ hahead
      · exact hno
    have hadds : Adds p i s (storeNewJob mode p i a (drawId p s)) := by
      have hstore := storeNewJob_adds (s := drawId p s) hmode
        (by rw [hdraw.occ, h.occ_eq_zero hnew]) a
      exact ⟨fun q k => by rw [hstore.occ, hdraw.occ], fun k => by rw [hstore.exist, hdraw.exist]⟩
    rw [hres]
    refine ⟨h.toPlaced.add hvalid hnew hadds, fun k => ?_, fun q n hv hn => ?_⟩
    · rw [storeNewJob_frame hframed _ _ _ _ (by decide)]
      exact hdn k
    · rw [storeNewJob_frame hframed _ _ _ _ (by decide)]
      rw [hadds.exist, Bool.or_eq_true] at hn
      rcases hn with hn | hn
      · exact (h.counted q n hv hn).trans (hle q)
      · -- The number of a job with a drawn id is the counter; a given id is no number.
        obtain ⟨rfl, hrepr⟩ := K.inj hv hvalid (of_decide_eq_true hn)
        rcases hi with ⟨-, rfl⟩ | ⟨hc, hne, -⟩
        · rw [repr_inj hrepr, drawId_id, Function.update_self]
        · exact absurd (hc.trans hrepr.symm) ((ha.custom (hc ▸ hne)).2 n)

/-! ### Deduplication payloads -/

/-- Every payload that is kept was kept before. -/
def DropsPayloads (s s' : Store) : Prop :=
  ∀ k next, s' .dn k = some next → s .dn k = some next

theorem DropsPayloads.refl (s : Store) : DropsPayloads s s := fun _ _ hn => hn

theorem DropsPayloads.trans (h : DropsPayloads s s') (h' : DropsPayloads s' s'') :
    DropsPayloads s s'' := fun k next hn => h k next (h' k next hn)

theorem DropsPayloads.of_frame {W : List Kind} (hW : Kind.dn ∉ W)
    (hs : ∀ {κ}, κ ∉ W → s' κ = s κ) : DropsPayloads s s' := fun k next hn => by
  rwa [hs hW] at hn

theorem NoPending.drops (h : NoPending s) (hd : DropsPayloads s s') : NoPending s' := fun k => by
  cases hn : s' .dn k with
  | none => rfl
  | some next => cases (h k).symm.trans (hd k next hn)

theorem NoPending.of_frame {W : List Kind} (h : NoPending s) (hW : Kind.dn ∉ W)
    (hs : ∀ {κ}, κ ∉ W → s' κ = s κ) : NoPending s' :=
  h.drops (.of_frame hW hs)

theorem removeDeduplicationKeyIfNeededOnRemoval_drops (p j : String) (d : Option String)
    (s : Store) : DropsPayloads s (removeDeduplicationKeyIfNeededOnRemoval p j d s) := by
  unfold removeDeduplicationKeyIfNeededOnRemoval
  split
  · exact .refl s
  · simp only
    split
    · intro k next hn
      rw [Keyspace.set_self, Function.update_apply] at hn
      split at hn
      · cases hn
      · rwa [Keyspace.set_of_ne _ (by decide)] at hn
    · exact .refl s

theorem removeJob_drops (p : String) (b : Bool) (s : Store) (j : String) :
    DropsPayloads s (removeJob p b s j) := by
  have hunlink : DropsPayloads s (removeParentDependencyKey (p ++ j) none s).2 :=
    .of_frame (by decide) (removeParentDependencyKey_frame (p ++ j) none s)
  refine .trans ?_ (.of_frame (by decide) (removeJobKeys_frame (p ++ j) _))
  split
  · exact hunlink.trans (removeDeduplicationKeyIfNeededOnRemoval_drops _ _ _ _)
  · exact hunlink

theorem foldl_removeJob_drops (p : String) (b : Bool) (l : List String) (s : Store) :
    DropsPayloads s (l.foldl (removeJob p b) s) := by
  induction l generalizing s with
  | nil => exact .refl s
  | cons i l ih => exact (removeJob_drops p b s i).trans (ih _)

theorem retainByAge_drops (p : String) (a : FinishArgs) (s : Store) :
    DropsPayloads s (retainByAge p a s) := by
  -- Retention does not touch the payloads once the jobs are removed.
  unfold retainByAge removeJobsByMaxAge
  split
  · simp only
    split
    · exact foldl_removeJob_drops _ _ _ _
    · split
      · exact (foldl_removeJob_drops _ _ _ _).trans (.of_frame (W := [.zset a.target.zset])
          (by simp) modify_notMem)
      · exact (foldl_removeJob_drops _ _ _ _).trans (.of_frame (W := [.zset a.target.zset])
          (by simp) fun hκ => foldl_zremAll_frame _ _ _ _ _ (by simpa using hκ))
  · exact .refl s

theorem retainByCount_drops (p : String) (a : FinishArgs) (s : Store) :
    DropsPayloads s (retainByCount p a s) := by
  unfold retainByCount removeJobsByMaxCount
  split
  · split
    · exact (foldl_removeJob_drops _ _ _ _).trans (.of_frame (W := [.zset a.target.zset]) (by simp)
        modify_notMem)
    · exact .refl s
  · exact .refl s

theorem keepOrRemove_drops (p : String) (P : Option Parent) (a : FinishArgs) (s : Store) :
    DropsPayloads s (keepOrRemove p P a s) := by
  simp only [keepOrRemove]
  split
  · have hrecord : DropsPayloads s (recordFinished p a s) :=
      .of_frame (by simp) (recordFinished_frame p a s)
    exact (hrecord.trans (retainByAge_drops _ _ _)).trans (retainByCount_drops _ _ _)
  · have hkeys : DropsPayloads s (removeJobKeys (p ++ a.jobId) s) :=
      .of_frame (by decide) (removeJobKeys_frame (p ++ a.jobId) s)
    split
    · exact hkeys.trans (.of_frame (by decide) (removeParentDependencyKey_frame _ _ _))
    · exact hkeys

/-- Without payloads the settling of a finished job creates no other. -/
theorem settleFinished_frame_of_noPending (h : NoPending s) (p : String) (a : FinishArgs)
    {κ : Kind} (hκ : κ ∉ .de :: .metaMaxLenEvents :: .processed :: childFailureWrites) :
    settleFinished p a s κ = s κ := by
  have hde : κ ≠ .de := by rintro rfl; exact hκ (by decide)
  have hdn : NoPending (removeDeduplicationKeyIfNeededOnFinalization p
      (s.deidOf (p ++ a.jobId)) a.jobId (trimEvents p s)) :=
    (h.of_frame (by decide) (trimEvents_frame p s)).of_frame (W := [.de]) (by decide) fun hκ =>
      removeDeduplicationKeyIfNeededOnFinalization_frame _ _ _ _ (by simpa using hκ)
  simp only [settleFinished, requeueDeduplicatedJob_eq hdn]
  rw [notifyParent_frame _ _ _ _ (Kind.notMem_mono hκ (by decide)),
    removeDeduplicationKeyIfNeededOnFinalization_frame _ _ _ _ hde,
    trimEvents_frame _ _ (Kind.notMem_mono hκ (by decide))]

theorem finishJob_noPending (h : NoPending s) (p : String) (a : FinishArgs) :
    NoPending (finishJob p a s) := by
  have hsettle : NoPending (settleFinished p a s) := fun k => by
    rw [settleFinished_frame_of_noPending h p a (by decide)]
    exact h k
  have hkeep := fun f => NoPending.drops (show NoPending
    ((settleFinished p a s).hset (p ++ a.jobId) f) from hsettle.of_frame (W := [.hash]) (by decide)
    fun hκ => Store.hset_of_ne _ _ _ (by simpa using hκ))
      (keepOrRemove_drops p (s.parentOf (p ++ a.jobId)) a _)
  intro k
  simp only [finishJob]
  split
  · rw [collectMetrics_frame _ _ _ _ (by decide), emitFinished_frame _ _ _ _ (by decide)]
    exact hkeep _ k
  · rw [emitFinished_frame _ _ _ _ (by decide)]
    exact hkeep _ k

theorem finishJob_id (h : NoPending s) (p : String) (a : FinishArgs) :
    finishJob p a s .id = s .id := by
  simp only [finishJob]
  split
  · rw [collectMetrics_frame _ _ _ _ (by decide), emitFinished_frame _ _ _ _ (by decide),
      keepOrRemove_frame _ _ _ _ (by decide), Store.hset_of_ne _ _ _ (by decide),
      settleFinished_frame_of_noPending h p a (by decide)]
  · rw [emitFinished_frame _ _ _ _ (by decide), keepOrRemove_frame _ _ _ _ (by decide),
      Store.hset_of_ne _ _ _ (by decide), settleFinished_frame_of_noPending h p a (by decide)]

theorem moveToFinished_wellPlaced (h : WellPlaced K s) (p : String) (a : FinishArgs) :
    WellPlaced K (Script.moveToFinished p a s).2 := by
  have hr := Script.moveToFinished_retains h.toPlaced h.noPending p a
  obtain ⟨-, n, -, -, hres⟩ | ⟨-, hres⟩ | ⟨-, hres⟩ := Script.moveToFinished_cases p a s
  · rw [hres]
    exact h
  · rw [hres] at hr ⊢
    exact h.retains hr (h.noPending.of_frame (by decide) (releasedJob_frame _ _ _ _ s))
      (releasedJob_frame _ _ _ _ s (by decide))
  · have hleft := h.noPending.of_frame (by decide)
      (leftActive_frame p a.jobId a.opts.token a.fieldsToUpdate s)
    rw [hres] at hr ⊢
    refine h.retains hr ((finishJob_noPending hleft p a).of_frame (by decide)
      (fetchOrDrain_frame p a _)) ?_
    rw [fetchOrDrain_frame _ _ _ (by decide), finishJob_id hleft,
      leftActive_frame _ _ _ _ _ (by decide)]

/-! ### Removal on request -/

theorem stateForRemoval_some {c : Container} (h : stateForRemoval p j s = some c) :
    countIn s c p j ≠ 0 := by
  unfold stateForRemoval at h
  repeat' split at h
  all_goals first
    | (cases h; exact mem_zset_iff.mp ‹_›)
    | (cases h; exact mem_list_iff.mp ‹_›)
    | cases h

theorem stateForRemoval_none (h : stateForRemoval p j s = none) : occ s p j = 0 := by
  by_contra hocc
  obtain ⟨c, hc⟩ := exists_container hocc
  have hlist : ∀ l, j ∉ s (.list l) p := by
    intro l hl
    unfold stateForRemoval at h
    repeat' split at h
    all_goals first
      | (cases h; done)
      | (cases l <;> exact absurd hl ‹_›)
  have hzset : ∀ z, j ∉ s (.zset z) p := by
    intro z hz
    unfold stateForRemoval at h
    repeat' split at h
    all_goals first
      | (cases h; done)
      | (cases z <;> exact absurd hz ‹_›)
  rcases c with l | z
  · exact hlist l (mem_list_iff.mpr hc)
  · exact hzset z (mem_zset_iff.mpr hc)

/-- Taking a job out of the container it is found in. -/
theorem removeJobFromAnyState_leaves (h : occ s p j ≠ 0) :
    Enters p j (removeJobFromAnyState p j s).2 s := by
  simp only [removeJobFromAnyState]
  rcases hst : stateForRemoval p j s with _ | c
  · exact absurd (stateForRemoval_none hst) h
  · have hc := stateForRemoval_some hst
    rcases c with l | z
    · exact leaves_lremLeft (mem_list_iff.mpr hc)
    · exact leaves_zrem (mem_zset_iff.mpr hc)

theorem removeJobFromAnyState_eq (h : occ s p j = 0) : (removeJobFromAnyState p j s).2 = s := by
  simp only [removeJobFromAnyState]
  rcases hst : stateForRemoval p j s with _ | c
  · rfl
  · have hc := stateForRemoval_some hst
    have hle := countIn_le_occ s c p j
    omega

/-- Deleting a job, or an id that has no hash. -/
theorem deleteJob_retains (h : Placed K s)
    (hj : K.Valid p j ∨ s.jobExists (p ++ j) = false) : Retains s (deleteJob p j s) := by
  have hrest : ∀ s₁ : Store, Erases [p ++ j] s₁ (removeJobKeys (p ++ j)
      (removeDeduplicationKeyIfNeededOnRemoval p j (s₁.deidOf (p ++ j)) s₁)) := fun s₁ =>
    .same_left (.of_frame (W := [.de, .dn]) (by decide)
      (removeDeduplicationKeyIfNeededOnRemoval_frame p j (s₁.deidOf (p ++ j)) s₁))
      (removeJobKeys_erases _ _)
  have hmain : Retains s (removeJobKeys (p ++ j) (removeDeduplicationKeyIfNeededOnRemoval p j
      ((removeJobFromAnyState p j s).2.deidOf (p ++ j)) (removeJobFromAnyState p j s).2)) := by
    by_cases hocc : occ s p j = 0
    · -- Nothing to take out: the id has no hash either.
      have hno : s.jobExists (p ++ j) = false := by
        rcases hj with hv | hno
        · by_contra hex
          have hone := h.occ_eq_one hv (by simpa using hex)
          omega
        · exact hno
      have her := hrest s
      rw [removeJobFromAnyState_eq hocc]
      refine .of_same h.toSound ⟨her.occ, fun k => ?_⟩
      rw [her.exist]
      by_cases hk : k = p ++ j
      · simp [hk, hno]
      · simp [hk]
    · refine .of_deletes (l := [j]) h.toSound (by simpa using h.valid hocc) ?_
      exact (removeJobFromAnyState_leaves hocc).deletes (hrest _) (h.le_one _ _)
  simp only [deleteJob]
  split
  · exact hmain.same_right ((getOrSetMaxEvents_same p _).trans (.xadd _ _ _))
  · exact hmain

theorem deleteJob_drops (p j : String) (s : Store) : DropsPayloads s (deleteJob p j s) := by
  have hany : DropsPayloads s (removeJobFromAnyState p j s).2 := fun k next hn => by
    rwa [removeJobFromAnyState_frame p j s (by simp) (by simp)] at hn
  have hkeys := (hany.trans (removeDeduplicationKeyIfNeededOnRemoval_drops p j
    ((removeJobFromAnyState p j s).2.deidOf (p ++ j)) _)).trans
      (.of_frame (by decide) (removeJobKeys_frame (p ++ j) _))
  simp only [deleteJob]
  split
  · refine hkeys.trans (.of_frame (W := [.metaMaxLenEvents, .events]) (by decide) fun {κ} hκ => ?_)
    simp only [List.mem_cons, List.not_mem_nil, or_false, not_or] at hκ
    rw [Store.xadd_of_ne _ _ _ hκ.2, getOrSetMaxEvents_frame _ _ (by simpa using hκ.1)]
  · exact hkeys

theorem removeChildDependency_same (k k' : String) (s : Store) :
    SamePlaces s (Script.removeChildDependency k k' s).2 := by
  have hun := removeParentDependencyKey_same k (some k') s
  simp only [Script.removeChildDependency]
  split
  · exact .refl s
  · split
    · exact .refl s
    · split
      · exact hun.trans (.hdel ..)
      · exact hun

/-! ### Every command -/

/-- The commands that neither create nor delete a job. -/
def Command.Moves : Command → Prop
  | addStandardJob .. | addDelayedJob .. | addPrioritizedJob .. | addParentJob ..
  | moveToFinished .. | removeJob .. => False
  | _ => True

theorem Command.Moves.exec {c : Command} {r : Reply × Store} (hc : c.Moves) (h : Sound K s)
    (hexec : c.exec s = some r) : SamePlaces s r.2 := by
  cases c with
  | addStandardJob p a => exact hc.elim
  | addDelayedJob p a => exact hc.elim
  | addPrioritizedJob p a => exact hc.elim
  | addParentJob p a => exact hc.elim
  | moveToFinished p a => exact hc.elim
  | removeJob n p j b => exact hc.elim
  -- The first six are no moves; every other script keeps the places as its own lemma says.
  | moveToActive p t o => cases hexec; exact Script.moveToActive_same h p t o
  | moveToDelayed p a => cases hexec; exact Script.moveToDelayed_same h p a
  | moveToWaitingChildren p j t c ts =>
    cases hexec; exact Script.moveToWaitingChildren_same h p j t c ts
  | retryJob p a => cases hexec; exact Script.retryJob_same h p a
  | moveJobFromActiveToWait p j t => cases hexec; exact Script.moveJobFromActiveToWait_same h p j t
  | moveStalledJobsToWait p m t c =>
    cases hexec; exact Script.moveStalledJobsToWait_same h p m t c
  | promote p j => cases hexec; exact Script.promote_same h p j
  | changeDelay p d t j => cases hexec; exact Script.changeDelay_same h p d t j
  | changePriority p n j l => cases hexec; exact Script.changePriority_same h p n j l
  | reprocessJob p a => cases hexec; exact Script.reprocessJob_same p a s
  | moveJobsToWait p st m t => cases hexec; exact Script.moveJobsToWait_same p st m t s
  | pause p b e => cases hexec; exact Script.pause_same p b e s
  | removeChildDependency k k' => cases hexec; exact removeChildDependency_same k k' s
  | _ =>
    refine .of_frame ?_ fun hκ => Command.exec_frame hexec hκ
    simp only [Command.writes]
    decide

theorem Command.Moves.writes {c : Command} (hc : c.Moves) :
    Kind.dn ∉ c.writes ∧ Kind.id ∉ c.writes := by
  cases c <;> first
    | exact hc.elim
    | (simp only [Command.writes]; decide)

/-- The commands that are not removals on request, with adds restricted to plain ones. -/
def Command.Plain (K : KeySpace) : Command → Prop
  | addStandardJob p a | addDelayedJob p a | addPrioritizedJob p a | addParentJob p a =>
    a.Plain K p
  | removeJob .. => False
  | _ => True

/-- **One command** keeps a store well placed. -/
theorem WellPlaced.exec {c : Command} {r : Reply × Store} (h : WellPlaced K s) (hc : c.Plain K)
    (hexec : c.exec s = some r) : WellPlaced K r.2 := by
  have hmoves : c.Moves → WellPlaced K r.2 := fun hm =>
    h.retains (.of_same h.toSound (hm.exec h.toSound hexec))
      (h.noPending.of_frame hm.writes.1 fun hκ => Command.exec_frame hexec hκ)
      (Command.exec_frame hexec hm.writes.2)
  cases c with
  | removeJob n p j b => exact hc.elim
  | addStandardJob p a =>
    cases hexec
    exact addJobWith_wellPlaced (standardMode_framed p) (standardMode_enqueues p) h hc
  | addDelayedJob p a =>
    cases hexec
    exact addJobWith_wellPlaced (delayedMode_framed p) (delayedMode_enqueues p) h hc
  | addPrioritizedJob p a =>
    cases hexec
    exact addJobWith_wellPlaced (prioritizedMode_framed p) (prioritizedMode_enqueues p) h hc
  | addParentJob p a =>
    cases hexec
    exact addJobWith_wellPlaced (parentMode_framed p) (parentMode_enqueues p) h hc
  | moveToFinished p a =>
    cases hexec
    exact moveToFinished_wellPlaced h p a
  | _ => exact hmoves trivial

end BullMQ
