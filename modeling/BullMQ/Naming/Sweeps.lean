import BullMQ.Naming.Scripts

/-!
# Removals, sweeps and schedulers bring in no names

The removal of a job on request, the hard removals of `clean`, `drain` and `obliterate`, and the
scripts of job schedulers leave an id unheard of that is so before them; an upsert or an iteration
does if the id is not that of the iteration it stores.
-/

namespace BullMQ

open Redis

namespace Unheard

variable {Q : QueueSet} {p q i j k : String} {s s' : Store}

/-! ### Removal on request -/

theorem removeJobFromAnyState (h : Unheard p j s) (q i : String) :
    Unheard p j (BullMQ.removeJobFromAnyState q i s).2 := by
  simp only [BullMQ.removeJobFromAnyState]
  split
  · exact h.zrem _ q i
  · exact h.sublist_list _ q fun x => lremLeft_sublist i x
  · exact h

theorem deleteJob (h : Unheard p j s) (q i : String) : Unheard p j (BullMQ.deleteJob q i s) := by
  have hleft := h.removeJobFromAnyState q i
  have hgone := fun o =>
    ((hleft.removeDeduplicationKeyIfNeededOnRemoval q i o).removeJobKeys (q ++ i))
  simp only [BullMQ.deleteJob]
  split
  · exact ((hgone _).getOrSetMaxEvents q).xadd q _
  · exact hgone _

theorem removeJobScript {fuel : ℕ} {b : Bool} {r : Reply × Store} (h : Unheard p j s)
    (hexec : Script.removeJob fuel q i b s = some r) : Unheard p j r.2 :=
  Script.removeJob_rule (I := Unheard p j) (V := fun _ _ => True)
    (fun _ _ _ hs => hs.removeParentDependencyKey _ _) (fun _ _ _ _ hs => hs.deleteJob _ _)
    (fun _ _ _ _ _ => trivial) trivial h hexec

theorem removeUnprocessedChildren {fuel : ℕ} {r : Reply × Store} (h : Unheard p j s)
    (hexec : Script.removeUnprocessedChildren fuel q i s = some r) : Unheard p j r.2 := by
  obtain ⟨s', hs', rfl⟩ := Option.map_eq_some_iff.mp hexec
  refine removeJobChildren_rule (I := Unheard p j) (V := fun _ _ => True)
    (fun _ _ _ _ _ => trivial) (fun q i o s₁ s₂ _ hs₁ h₁ => ?_) h hs'
  exact removeJobWithChildren_rule (I := Unheard p j) (V := fun _ _ => True)
    (fun _ _ _ hs => hs.removeParentDependencyKey _ _) (fun _ _ _ _ hs => hs.deleteJob _ _)
    (fun _ _ _ _ _ => trivial) trivial hs₁ h₁

theorem removeChildDependency (h : Unheard p j s) (k k' : String) :
    Unheard p j (Script.removeChildDependency k k' s).2 := by
  have hunlinked := h.removeParentDependencyKey k (some k')
  simp only [Script.removeChildDependency]
  split
  · exact h
  · split
    · exact h
    · split
      · exact hunlinked.hdel _ _
      · exact hunlinked

/-! ### Hard removal -/

theorem unlinkHard (h : Unheard p j s) (n : ℕ) (q c : String) :
    Unheard p j (BullMQ.unlinkHard n q c s) := by
  induction n generalizing c s with
  | zero => exact h
  | succ n ih =>
    obtain ⟨-, heq⟩ | ⟨k, -, -, -, heq⟩ | ⟨k, hk, -, heq⟩ | ⟨k, -, -, heq⟩ :=
      unlinkHard_cases n q c s <;> rw [heq]
    · exact h
    · exact h.modify (κ := .dependencies) (by decide) k _
    · -- A parent that is released is found among those that wait.
      have hid : keyBase k = p → getJobIdFromKey k ≠ j := by
        rintro rfl rfl
        exact h.zset .waitingChildren hk.waits
      have hlast : Unheard p j (unlinkLast c k s) :=
        (h.modify (κ := .dependencies) (by decide) k _).zrem .waitingChildren _ _
      exact hlast.addJobInTargetList _ _ hid
    · have hlast : Unheard p j (unlinkLast c k s) :=
        (h.modify (κ := .dependencies) (by decide) k _).zrem .waitingChildren _ _
      exact ((ih hlast k).removeJobKeys k).of_frame (W := [.de]) (by decide) fun hκ =>
        deleteDeduplicationKey_frame _ _ _ (by simpa using hκ)

theorem removeJobHard (h : Unheard p j s) (q i : String) :
    Unheard p j (BullMQ.removeJobHard q s i) := by
  have hunlinked : Unheard p j (removeParentDependencyKeyHard q (q ++ i) s) := h.unlinkHard _ q _
  exact (hunlinked.removeDeduplicationKeyIfNeededOnRemoval q i _).removeJobKeys _

theorem removeJobs (h : Unheard p j s) (q : String) (jobs : List String) :
    Unheard p j (BullMQ.removeJobs q jobs s) := h.foldl fun i _ _ hs => hs.removeJobHard q i

theorem removeListJobs (h : Unheard p j s) (q : String) (l : ListKey) (m : ℤ)
    (ignored : List String) : Unheard p j (BullMQ.removeListJobs q l m ignored s).2 :=
  (h.removeJobs q _).sublist_list l q fun x => List.drop_sublist _ x

theorem removeZSetJobs (h : Unheard p j s) (q : String) (z : ZSetKey) (m : ℤ)
    (ignored : List String) : Unheard p j (BullMQ.removeZSetJobs q z m ignored s).2 :=
  (h.removeJobs q _).foldl fun _ _ _ hs => hs.zremAll z q fun _ => _

/-! ### Sweeps -/

/-- The deletion marker of `cleanList` is no id. -/
theorem cleanList (h : Unheard p j s) (hj : j ≠ "") (q : String) (l : ListKey) (limit t : ℤ)
    (w : Bool) : Unheard p j (BullMQ.cleanList q l limit t w s).2 := by
  have hstep : ∀ acc job, Unheard p j acc.2 →
      Unheard p j (cleanListStep q l limit t w acc job).2 := by
    intro acc job hacc
    simp only [cleanListStep]
    split
    · exact hacc
    · split
      · have hmarked : Unheard p j (acc.2.modify (.list l) q (·.set job.2 "")) := by
          refine hacc.modify_list fun _ hmem => ?_
          obtain hmem | heq := List.mem_or_eq_of_mem_set hmem
          · exact hacc.list l hmem
          · exact hj heq
        exact hmarked.removeJobHard q _
      · exact hacc
  have hfold : ∀ (jobs : List (String × ℕ)) (acc : List String × Store), Unheard p j acc.2 →
      Unheard p j (jobs.foldl (cleanListStep q l limit t w) acc).2 := by
    intro jobs
    induction jobs with
    | nil => exact fun acc hacc => hacc
    | cons job jobs ih => exact fun acc hacc => ih _ (hstep acc job hacc)
  exact (hfold _ ([], s) h).sublist_list l q fun x => List.filter_sublist

theorem cleanSet (h : Unheard p j s) (q : String) (z : ZSetKey) (jobs : List String) (limit : ℤ)
    (b : Bool) (isOld : String → Store → Bool) :
    Unheard p j (BullMQ.cleanSet q z jobs limit b isOld s).2 := by
  have hstep : ∀ acc i, Unheard p j acc.2 →
      Unheard p j (cleanSetStep q limit b isOld acc i).2 := by
    intro acc i hacc
    simp only [cleanSetStep]
    split
    · exact hacc
    · split
      · exact hacc.removeJobHard q i
      · exact hacc
  have hfold : ∀ (jobs : List String) (acc : List String × Store), Unheard p j acc.2 →
      Unheard p j (jobs.foldl (cleanSetStep q limit b isOld) acc).2 := by
    intro jobs
    induction jobs with
    | nil => exact fun acc hacc => hacc
    | cons i jobs ih => exact fun acc hacc => ih _ (hstep acc i hacc)
  exact (hfold _ ([], s) h).foldl fun _ _ _ hs => hs.zremAll z q fun _ => _

theorem cleanJobsInSet (h : Unheard p j s) (hj : j ≠ "") (q : String) (t limit : ℤ)
    (st : CleanState) : Unheard p j (Script.cleanJobsInSet q t limit st s).2 := by
  simp only [Script.cleanJobsInSet]
  refine .xadd ?_ q _
  cases st with
  | active => exact h.cleanList hj q _ _ _ _
  | wait => exact h.cleanList hj q _ _ _ _
  | paused => exact h.cleanList hj q _ _ _ _
  | delayed => exact h.cleanSet q _ _ _ _ _
  | prioritized => exact h.cleanSet q _ _ _ _ _
  | completed => exact h.cleanSet q _ _ _ _ _
  | failed => exact h.cleanSet q _ _ _ _ _

theorem drain (h : Unheard p j s) (q : String) (b : Bool) :
    Unheard p j (Script.drain q b s).2 := by
  have hlists := (h.removeListJobs q .wait 0 (Script.scheduledJobs q s)).removeListJobs q .paused 0
    (Script.scheduledJobs q s)
  simp only [Script.drain]
  split
  · exact (hlists.removeZSetJobs q .delayed 0 _).removeZSetJobs q .prioritized 0 _
  · exact hlists.removeZSetJobs q .prioritized 0 _

theorem obliterate (h : Unheard p j s) (q : String) (n : ℤ) (b : Bool) :
    Unheard p j (Script.obliterate q n b s).2 := by
  have hstages : ∀ m s, Unheard p j s →
      Unheard p j (Script.runStages (Script.obliterateStages q) m s).2 := by
    intro m s hs
    refine Script.runStages_rule (I := Unheard p j) (fun stage hstage m t ht => ?_) hs
    simp only [Script.obliterateStages, List.mem_cons, List.not_mem_nil, or_false] at hstage
    rcases hstage with rfl | rfl | rfl | rfl | rfl | rfl | rfl
    · exact ht.removeZSetJobs q _ _ _
    · exact ht.of_frame (W := [.repeatSet, .scheduler]) (by decide) fun hκ =>
        Script.removeSchedulers_frame _ _ _ hκ
    · exact ht.removeZSetJobs q _ _ _
    · exact ht.removeListJobs q _ _ _
    · exact ht.removeListJobs q _ _ _
    · exact ht.removeZSetJobs q _ _ _
    · exact ht.removeZSetJobs q _ _ _
  simp only [Script.obliterate]
  split
  · exact h
  · split
    · exact h
    · have hlocks := h.foldl (f := fun s i => s.set .lock (q ++ i) none)
        (l := firstItems n (s (.list .active) q)) fun i _ s hs => hs.set (κ := .lock)
          (by decide) _ none
      have hactive := (hlocks.removeJobs q
        (firstItems n (s (.list .active) q))).sublist_list .active
        q fun x => List.drop_sublist (firstItems n (s (.list .active) q)).length x
      split
      · exact hstages _ _ hactive
      · exact (hstages _ _ hactive).of_frame (W := Script.queueKeyWrites) (by decide) fun hκ =>
          Script.deleteQueueKeys_frame _ _ hκ

/-! ### Schedulers -/

theorem removePendingIteration (h : Unheard p j s) (q S : String) :
    Unheard p j (BullMQ.removePendingIteration q S s).2 := by
  unfold BullMQ.removePendingIteration
  split
  · unfold removeJobFromScheduler
    split
    · exact (h.removeJobHard q _).zrem _ q _
    · split
      · exact (h.removeJobHard q _).zrem _ q _
      · split
        · exact (h.sublist_list _ q fun x => lremLeft_sublist _ x).removeJobHard q _
        · exact h
  · exact h

theorem storeIteration (h : Unheard p j s) {a : UpsertArgs} {m : ℤ}
    (hk : q ++ iterationId a.jobSchedulerId m ≠ p ++ j) (o : SchedulerOpts) :
    Unheard p j (BullMQ.storeIteration q a o m s).2 := by
  have hstored : Unheard p j (storeJobScheduler q a.jobSchedulerId m o a.templateData s) :=
    h.of_frame (W := [.repeatSet, .scheduler]) (by decide) fun hκ =>
      storeJobScheduler_frame _ _ _ _ _ _ hκ
  exact (hstored.modify (κ := .id) (by decide) q _).storeAndEnqueueJob hk _ _ _ _ _ _

theorem addJobScheduler (h : Unheard p j s) {a : UpsertArgs}
    (hk : ∀ m, q ++ iterationId a.jobSchedulerId m ≠ p ++ j) :
    Unheard p j (Script.addJobScheduler q a s).2 := by
  have hpending := (h.getOrSetMaxEvents q).removePendingIteration q a.jobSchedulerId
  rcases hrem : BullMQ.removePendingIteration q a.jobSchedulerId (BullMQ.getOrSetMaxEvents q s)
    with ⟨b, t⟩
  rw [hrem] at hpending
  obtain ⟨o, m, heq, -⟩ | ⟨every, -, heq, -⟩ | ⟨-, -, heq, -⟩ :=
    Script.addJobScheduler_cases hrem <;> rw [heq]
  · exact hpending.storeIteration (hk m) o
  · exact hpending
  · exact hpending

theorem removeJobScheduler (h : Unheard p j s) (q S : String) :
    Unheard p j (Script.removeJobScheduler q S s).2 := by
  have hpending : ∀ i, Unheard p j ((BullMQ.removeJobKeys (q ++ i)
      (s.modify (.zset .delayed) q (·.zrem i))).xadd q (.removed i "delayed")) := fun i =>
    ((h.zrem .delayed q i).removeJobKeys _).xadd q _
  have hlast : ∀ {s : Store}, Unheard p j s → Unheard p j (if S ∈ s .repeatSet q then
      (Reply.code 0, Keyspace.set (s.modify .repeatSet q (·.zrem S)) .scheduler (schedulerKey q S)
        none) else (Reply.code 1, s)).2 := by
    intro s hs
    split
    · exact (hs.modify (κ := .repeatSet) (by decide) q _).set (κ := .scheduler) (by decide) _ _
    · exact hs
  simp only [Script.removeJobScheduler]
  split
  · split
    · exact hlast (hpending _)
    · exact hlast h
  · exact hlast h

theorem removeDeduplicationKey (h : Unheard p j s) (q d i : String) :
    Unheard p j (Script.removeDeduplicationKey q d i s).2 := by
  simp only [Script.removeDeduplicationKey]
  split
  · exact h.set (κ := .de) (by decide) _ _
  · exact h

theorem updateJobScheduler (h : Unheard p j s) {a : IterateArgs}
    (hk : ∀ m, q ++ iterationId a.jobSchedulerId m ≠ p ++ j) :
    Unheard p j (Script.updateJobScheduler q a s).2 := by
  simp only [Script.updateJobScheduler]
  split
  · exact h
  · split
    · split
      · exact (h.getOrSetMaxEvents q).xadd q _
      · have hnext := fun m f => ((((h.getOrSetMaxEvents q).modify (κ := .repeatSet) (by decide) q
          (·.zadd m a.jobSchedulerId)).modify (κ := .scheduler) (by decide)
            (schedulerKey q a.jobSchedulerId)
            f).modify (κ := .id) (by decide) q (· + 1))
        split
        · exact hnext _ _
        · exact (hnext _ _).storeAndEnqueueJob (hk _) _ _ _ _ _ _
    · exact h

end Unheard

end BullMQ
