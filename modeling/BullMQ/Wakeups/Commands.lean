import BullMQ.Wakeups.Scripts
import BullMQ.Naming.Obliterated

/-!
# Announced jobs stay announced

The scripts that delete jobs or concern a whole queue, and from all of them: where jobs are in line
in a queue that hands them out, the marker announces them, and every script keeps it that way
(`Announced.execQueue`).
-/

namespace BullMQ

open Redis

variable {p q j : String} {s s' s'' : Store}

namespace Wakes

/-! ### Pausing another queue -/

/-- A write to a key of another queue. -/
theorem setOther (hne : q ≠ p) (κ : Kind) (v : Val κ) : Wakes p s (s.set κ q v) := by
  have hother : ∀ κ', s.set κ q v κ' p = s κ' p := fun κ' => by
    by_cases h : κ' = κ
    · subst h
      rw [Keyspace.set_self, Function.update_of_ne hne.symm]
    · rw [Keyspace.set_of_ne _ h]
  exact of_emptyLine ⟨hother _, hother _, by rw [Marks, Marks, hother]; exact id⟩
    (.of_eq (hother _) (hother _))

theorem pauseOther (hne : q ≠ p) (b e : Bool) : Wakes p s (Script.pause q b e s).2 := by
  have hdrain : ∀ s : Store, Wakes p s (drainPaused q s) := by
    intro s
    simp only [drainPaused]
    split
    · exact .refl p s
    · split
      · exact (setOther hne _ _).trans (setOther hne _ _)
      · exact (setOther hne _ _).trans (setOther hne _ _)
  have hmark : ∀ s : Store, Wakes p s (markResumed q s) := fun s =>
    ite (setOther hne _ _) addDelayMarkerIfNeeded
  have hmain : Wakes p s (if b then pauseQueue q s else resumeQueue q s) :=
    ite ((setOther hne _ _).trans (setOther hne _ _))
      (((setOther hne _ _).trans (hdrain _)).trans (hmark _))
  simp only [Script.pause]
  split
  · exact hmain.trans (xadd _)
  · exact hmain

/-! ### Deleting many jobs -/

theorem deleteDeduplicationKey (d : Option String) :
    Wakes p s (BullMQ.deleteDeduplicationKey q d s) := by
  unfold BullMQ.deleteDeduplicationKey
  split
  · exact set (by decide) _ _
  · exact .refl p s

theorem unlinkHard (n : ℕ) (k : String) : Wakes p s (BullMQ.unlinkHard n q k s) := by
  induction n generalizing k s with
  | zero => exact .refl p s
  | succ n ih =>
    simp only [BullMQ.unlinkHard]
    split
    · exact .refl p s
    · split
      · split
        · split
          · split
            · refine .trans ?_ (deleteDeduplicationKey _)
              refine .trans ?_ (removeJobKeys _)
              exact ((modify (by decide) _ _).trans (modify (by decide) _ _)).trans (ih _)
            · exact ((modify (by decide) _ _).trans (modify (by decide) _ _)).trans
                (addJobInTargetList _ asked)
          · exact modify (by decide) _ _
        · exact modify (by decide) _ _
      · exact .refl p s

theorem removeJobHard : Wakes p s (BullMQ.removeJobHard q s j) :=
  ((unlinkHard _ _).trans (removeDeduplicationKeyIfNeededOnRemoval _)).trans (removeJobKeys _)

theorem removeListJobs (l : ListKey) (m : ℤ) (ignored : List String) :
    Wakes p s (BullMQ.removeListJobs q l m ignored s).2 := by
  simp only [BullMQ.removeListJobs]
  exact (foldl (fun _ _ => removeJobHard) _ _).trans (modifyList l List.drop_nil)

theorem removeZSetJobs (z : ZSetKey) (m : ℤ) (ignored : List String) :
    Wakes p s (BullMQ.removeZSetJobs q z m ignored s).2 := by
  simp only [BullMQ.removeZSetJobs]
  exact (foldl (fun _ _ => removeJobHard) _ _).trans
    (foldl (fun _ _ => modifyZSet z rfl) _ _)

theorem cleanJobsInSet (t m : ℤ) (st : CleanState) :
    Wakes p s (Script.cleanJobsInSet q t m st s).2 := by
  have hlistRound : ∀ (l : ListKey) (b : Bool) (acc : List String × Store) (job : String × ℕ),
      Wakes p acc.2 (cleanListStep q l m t b acc job).2 := by
    intro l b acc job
    simp only [cleanListStep]
    split
    · exact .refl p _
    · split
      · exact (modifyList l rfl).trans removeJobHard
      · exact .refl p _
  have hsetRound : ∀ (b : Bool) (old : String → Store → Bool) (acc : List String × Store) i,
      Wakes p acc.2 (cleanSetStep q m b old acc i).2 := by
    intro b old acc i
    simp only [cleanSetStep]
    split
    · exact .refl p _
    · split
      · exact removeJobHard
      · exact .refl p _
  -- Both loops run a step of this kind over their entries.
  have hfold : ∀ {α : Type} {f : List String × Store → α → List String × Store},
      (∀ acc a, Wakes p acc.2 (f acc a).2) → ∀ (l : List α) (acc : List String × Store),
      Wakes p acc.2 (l.foldl f acc).2 := by
    intro α f hf l
    induction l with
    | nil => exact fun acc => .refl p _
    | cons a l ih => exact fun acc => (hf acc a).trans (ih _)
  have hlist : ∀ (l : ListKey) b, Wakes p s (cleanList q l m t b s).2 := fun l b =>
    (hfold (hlistRound l b) _ ([], s)).trans (modifyList l rfl)
  have hset : ∀ (z : ZSetKey) jobs b old, Wakes p s (cleanSet q z jobs m b old s).2 :=
    fun z jobs b old => (hfold (hsetRound b old) _ ([], s)).trans
      (foldl (fun _ _ => modifyZSet z rfl) _ _)
  simp only [Script.cleanJobsInSet]
  refine .trans ?_ (xadd _)
  cases st with
  | active => exact hlist _ _
  | wait => exact hlist _ _
  | paused => exact hlist _ _
  | delayed => exact hset _ _ _ _
  | prioritized => exact hset _ _ _ _
  | completed => exact hset _ _ _ _
  | failed => exact hset _ _ _ _

theorem drain (b : Bool) : Wakes p s (Script.drain q b s).2 := by
  simp only [Script.drain]
  refine .trans ?_ (removeZSetJobs _ _ _)
  exact ((removeListJobs _ _ _).trans (removeListJobs _ _ _)).trans
    (ite (removeZSetJobs _ _ _) (.refl p _))

/-! ### Job schedulers -/

theorem addJobScheduler (a : UpsertArgs) : Wakes p s (Script.addJobScheduler q a s).2 := by
  have hrem : ∀ s : Store, Wakes p s (removePendingIteration q a.jobSchedulerId s).2 := by
    intro s
    unfold removePendingIteration
    split
    · simp only [removeJobFromScheduler]
      split
      · exact removeJobHard.trans (modifyZSet _ rfl)
      · split
        · exact removeJobHard.trans (modifyZSet _ rfl)
        · split
          · exact (modifyList _ rfl).trans removeJobHard
          · exact .refl p s
    · exact .refl p s
  have hstore : ∀ o n (s : Store), Wakes p s (storeIteration q a o n s).2 := by
    intro o n s
    simp only [storeIteration, storeJobScheduler]
    refine .trans ?_ (storeAndEnqueueJob _ _ _ _ _ _)
    refine .trans ?_ (modify (by decide) _ _)
    exact (modify (by decide) _ _).trans (modify (by decide) _ _)
  have hfirst := (getOrSetMaxEvents (p := p) (q := q) (s := s)).trans (hrem _)
  rcases hres : removePendingIteration q a.jobSchedulerId (BullMQ.getOrSetMaxEvents q s) with ⟨b, t⟩
  rw [hres] at hfirst
  obtain ⟨o, n, heq, -⟩ | ⟨e, -, heq, -⟩ | ⟨-, -, heq, -⟩ := Script.addJobScheduler_cases hres <;>
    rw [heq]
  · exact hfirst.trans (hstore o n t)
  · exact hfirst
  · exact hfirst

theorem updateJobScheduler (a : IterateArgs) : Wakes p s (Script.updateJobScheduler q a s).2 := by
  simp only [Script.updateJobScheduler]
  split
  · exact .refl p s
  · split
    · split
      · exact getOrSetMaxEvents.trans (xadd _)
      · have hset : ∀ (s : Store) (v : Val .repeatSet → Val .repeatSet)
            (w : Val .scheduler → Val .scheduler) (n : Val .id → Val .id) k, Wakes p s
            (((s.modify .repeatSet q v).modify .scheduler k w).modify .id q n) := fun s v w n k =>
          ((modify (by decide) _ _).trans (modify (by decide) _ _)).trans (modify (by decide) _ _)
        split
        · exact getOrSetMaxEvents.trans (hset _ _ _ _ _)
        · exact (getOrSetMaxEvents.trans (hset _ _ _ _ _)).trans (storeAndEnqueueJob _ _ _ _ _ _)
    · exact .refl p s

end Wakes

/-! ### Commands -/

/-- A pushed-back job of the queue has no priority. -/
def PushesBackPlainly (p : String) (s : Store) : Command → Prop
  | .moveJobFromActiveToWait q j _ => q = p → ¬ 0 < s.priorityOf (q ++ j)
  | _ => True

/-- Every job script but a pause of the queue itself wakes the workers of the queue. -/
theorem Command.exec_wakes {c : Command} {r : Reply × Store} (h : c.exec s = some r)
    (hpush : PushesBackPlainly p s c) (hpause : ∀ b e, c ≠ .pause p b e) : Wakes p s r.2 := by
  -- A command that writes neither the line nor what announces it changes nothing here.
  by_cases hw : ∀ κ ∈ announceKinds ++ queuedKinds, κ ∉ c.writes
  · exact .of_frame hw fun hκ => Command.exec_frame h hκ
  cases c with
  | addStandardJob q a =>
    cases h
    exact .addJobWith (standardMode_framed q)
      (fun j a s => (Wakes.addJobInTargetList _ Wakes.asked).trans (.xadd _)) a
  | addDelayedJob q a =>
    cases h
    exact .addJobWith (delayedMode_framed q) (fun j a s => .addDelayedJob _ _) a
  | addPrioritizedJob q a =>
    cases h
    exact .addJobWith (prioritizedMode_framed q)
      (fun j a s => (Wakes.addJobWithPriority _ Wakes.asked).trans (.xadd _)) a
  | addParentJob q a =>
    cases h
    exact .addJobWith (parentMode_framed q)
      (fun j a s => (Wakes.modify (by decide) _ _).trans (.xadd _)) a
  | moveToActive q t o => cases h; exact .moveToActive t o
  | moveToFinished q a => cases h; exact .moveToFinished a
  | moveToDelayed q a => cases h; exact .moveToDelayed a
  | moveToWaitingChildren q j t c ts => cases h; exact .moveToWaitingChildren t c ts
  | retryJob q a => cases h; exact .retryJob a
  | moveJobFromActiveToWait q j t => cases h; exact .moveJobFromActiveToWait hpush
  | moveStalledJobsToWait q m t c => cases h; exact .moveStalledJobsToWait m t c
  | promote q j => cases h; exact .promote
  | changeDelay q d t j => cases h; exact .changeDelay d t
  | changePriority q n j l => cases h; exact .changePriority n l
  | reprocessJob q a => cases h; exact .reprocessJob a
  | moveJobsToWait q st m t => cases h; exact .moveJobsToWait st m t
  | pause q b e =>
    cases h
    exact .pauseOther (fun hq => hpause b e (by rw [hq])) b e
  | removeJob n q j b =>
    exact Script.removeJob_rule (I := Wakes p s) (V := fun _ _ => True)
      (fun _ _ _ hs => hs.trans (.removeParentDependencyKey _ _))
      (fun _ _ _ _ hs => hs.trans .deleteJob) (fun _ _ _ _ _ => trivial) trivial (.refl p s) h
  | removeChildDependency k k' => cases h; exact .removeChildDependency k k'
  | _ => exact absurd (by simp only [Command.writes]; decide) hw

/-- Where jobs are in line, the marker announces them. -/
def Announced (p : String) (s : Store) : Prop := HandsOut p s → ¬ EmptyLine p s → Marks p s

theorem Wakes.announced (h : Wakes p s s') (hs : Announced p s) : Announced p s' := by
  intro hout hbusy
  have hbefore := h.handsOut.mp hout
  rcases h.line hbefore with hmark | hempty
  · exact hmark
  · exact h.marker (hs hbefore fun hq => hbusy (hempty hq))

/-- A resume announces the jobs in line. -/
theorem announced_pause (p : String) (b e : Bool) (s : Store) :
    Announced p (Script.pause p b e s).2 := by
  have hxadd : ∀ (s : Store) e, Announced p s → Announced p (s.xadd p e) := fun s e =>
    (Wakes.xadd e).announced
  have hmain : Announced p (if b then pauseQueue p s else resumeQueue p s) := by
    split
    · intro hout
      have hpaused := hout.running
      simp [pauseQueue, Keyspace.set_of_ne, Keyspace.set_self] at hpaused
    · intro _ hbusy
      have hframe : ∀ {κ}, κ ≠ .marker → resumeQueue p s κ =
          drainPaused p (s.set .metaPaused p false) κ := fun hκ => markResumed_frame p _ hκ
      rw [resumeQueue, markResumed]
      split
      · simp [Marks, Keyspace.modify_self, SortedSet.zscore_zadd]
      · next hnone =>
        refine absurd ⟨?_, ?_⟩ hbusy
        · rw [hframe (by decide)]
          exact not_not.mp fun hne => hnone (.inl hne)
        · rw [hframe (by decide)]
          exact not_not.mp fun hne => hnone (.inr hne)
  simp only [Script.pause]
  split
  · exact hxadd _ _ hmain
  · exact hmain

/-- **Announced jobs stay announced**, whatever job script comes next. -/
theorem Announced.exec {c : Command} {r : Reply × Store} (hs : Announced p s)
    (h : c.exec s = some r) (hpush : PushesBackPlainly p s c) : Announced p r.2 := by
  by_cases hpause : ∃ b e, c = .pause p b e
  · obtain ⟨b, e, rfl⟩ := hpause
    cases h
    exact announced_pause p b e s
  · simp only [not_exists] at hpause
    exact (Command.exec_wakes h hpush hpause).announced hs

/-- The stages of an obliterate, up to the keys that go last. -/
theorem Wakes.obliterateStages (m : ℤ) :
    Wakes p s (Script.runStages (Script.obliterateStages q) m s).2 := by
  refine Script.runStages_rule (I := Wakes p s) (fun stage hstage m t ht => ?_) (.refl p s)
  simp only [Script.obliterateStages, List.mem_cons, List.not_mem_nil, or_false] at hstage
  refine ht.trans ?_
  rcases hstage with rfl | rfl | rfl | rfl | rfl | rfl | rfl
  · exact .removeZSetJobs _ _ _
  · exact .of_frame (W := [.repeatSet, .scheduler]) (by decide) fun hκ =>
      Script.removeSchedulers_frame q m t hκ
  · exact .removeZSetJobs _ _ _
  · exact .removeListJobs _ _ _
  · exact .removeListJobs _ _ _
  · exact .removeZSetJobs _ _ _
  · exact .removeZSetJobs _ _ _

theorem Wakes.deleteQueueKeysOther (hne : q ≠ p) : Wakes p s (Script.deleteQueueKeys q s) := by
  have hset : ∀ {s s' : Store} (κ : Kind) (v : Val κ), Wakes p s s' → Wakes p s (s'.set κ q v) :=
    fun κ v h => h.trans (setOther hne κ v)
  simp only [Script.deleteQueueKeys]
  refine .trans (.trans ?_ (set (by decide) _ _)) (set (by decide) _ _)
  exact hset _ _ (hset _ _ (hset _ _ (hset _ _ (hset _ _ (hset _ _ (hset _ _ (hset _ _
    (hset _ _ (hset _ _ (hset _ _ (.refl p s)))))))))))

/-- An obliterate runs on a paused queue, and one that ends with the queue unpaused has removed
the line. -/
theorem Announced.obliterate (hs : Announced p s) (n : ℤ) (force : Bool) :
    Announced p (Script.obliterate q n force s).2 := by
  have hunlock : ∀ ids : List String, Wakes p s
      (ids.foldl (fun s jobId => s.set .lock (q ++ jobId) none) s) := fun ids =>
    .foldl (fun _ _ => .set (by decide) _ _) ids s
  have hstages : ∀ m, Wakes p s (Script.runStages (Script.obliterateStages q) m
      ((removeJobs q (firstItems n (s (.list .active) q))
        ((firstItems n (s (.list .active) q)).foldl
          (fun s jobId => s.set .lock (q ++ jobId) none) s)).modify (.list .active) q
        (·.drop (firstItems n (s (.list .active) q)).length))).2 := fun m =>
    (((hunlock _).trans (.foldl (fun _ _ => .removeJobHard) _ _)).trans
      (.modify (by decide) _ _)).trans (.obliterateStages m)
  have hempty : (Script.obliterate q n force s).1 = .code 0 →
      EmptyLine q (Script.obliterate q n force s).2 := by
    intro hcode
    obtain ⟨s₄, C, heq, hC, hdone⟩ := Obliterating.of_code_zero hcode
    have hwait := hdone.emptied _ (hC (.inl .wait) (by simp)) (by simp)
    have hprio := hdone.emptied _ (hC (.inr .prioritized) (by simp)) (by simp)
    rw [heq]
    exact ⟨(congrFun (Script.deleteQueueKeys_frame q s₄ (by decide)) q).trans hwait,
      (congrFun (Script.deleteQueueKeys_frame q s₄ (by decide)) q).trans
        (SortedSet.eq_empty_iff.mpr hprio)⟩
  simp only [Script.obliterate] at hempty ⊢
  split
  · exact hs
  · next hpaused =>
    split
    · exact hs
    · next hactive =>
      rw [if_neg hpaused, if_neg hactive] at hempty
      split
      · exact (hstages _).announced hs
      · next hleft =>
        rw [if_neg hleft] at hempty
        -- A call that deletes the keys unpauses its queue, but has emptied the line before.
        by_cases hq : q = p
        · subst hq
          exact fun _ hbusy => absurd (hempty rfl) hbusy
        · exact ((hstages _).trans (.deleteQueueKeysOther hq)).announced hs

/-- **Announced jobs stay announced**, whatever script comes next. -/
theorem Announced.execQueue {c : QueueCommand} {r : Reply × Store} (hs : Announced p s)
    (h : c.exec s = some r) (hpush : ∀ c', c = .job c' → PushesBackPlainly p s c') :
    Announced p r.2 := by
  cases c with
  | job c => exact hs.exec h (hpush c rfl)
  | addJobScheduler q a => cases h; exact (Wakes.addJobScheduler a).announced hs
  | updateJobScheduler q a => cases h; exact (Wakes.updateJobScheduler a).announced hs
  | cleanJobsInSet q t l st => cases h; exact (Wakes.cleanJobsInSet t l st).announced hs
  | drain q b => cases h; exact (Wakes.drain b).announced hs
  | obliterate q n b => cases h; exact hs.obliterate n b
  | removeUnprocessedChildren n q j =>
    obtain ⟨s', hrem, rfl⟩ := Option.map_eq_some_iff.mp h
    refine Wakes.announced ?_ hs
    exact removeJobChildren_rule (I := Wakes p s) (V := fun _ _ => True)
      (fun _ _ _ _ _ => trivial)
      (fun _ _ _ _ _ hv hs hrem =>
        removeJobWithChildren_rule (I := Wakes p s) (V := fun _ _ => True)
        (fun _ _ _ hs => hs.trans (.removeParentDependencyKey _ _))
        (fun _ _ _ _ hs => hs.trans .deleteJob) (fun _ _ _ _ _ => trivial) hv hs hrem)
      (.refl p s) hrem
  | expireDeduplicationKey q d =>
    cases h
    exact (Wakes.of_frame (W := [.de]) (by decide) fun hκ => by
      simp only [expireDeduplicationKey]
      split
      · exact Keyspace.set_of_ne _ (by simpa using hκ) ..
      · rfl).announced hs
  | elapseDeduplicationKey q d ms =>
    cases h
    exact (Wakes.modify (κ := .de) (by decide) _ _).announced hs

end BullMQ
