import BullMQ.Model.Command

/-!
# How job hashes evolve

Apart from storing and deleting jobs, scripts write the fields of a hash that tell how its job
fares: attempts, delays, results. `Evolves` says that of two stores: what a job is (`Job.frozen`)
is as it was for every key, the count of started attempts has not gone down, and no hash is gone.
A hash that `HSET` creates where there was none has none of the frozen fields.
-/

namespace BullMQ

open Redis

/-- The fields of a job hash that say what the job is. -/
def Job.frozen (job : Job) : Job where
  name := job.name
  data := job.data
  opts := job.opts
  timestamp := job.timestamp
  parent := job.parent
  rjk := job.rjk
  deid := job.deid

/-- A write that leaves alone what a job is and does not count attempts down. -/
def Mild (f : Job → Job) : Prop := ∀ job, (f job).frozen = job.frozen ∧ job.ats ≤ (f job).ats

/-- One hash before and after. -/
structure HashGrows (h h' : Option Job) : Prop where
  frozen : (h'.getD {}).frozen = (h.getD {}).frozen
  ats : (h.getD {}).ats ≤ (h'.getD {}).ats
  exist : h.isSome = true → h'.isSome = true

/-- Every hash grows. -/
def Evolves (s s' : Store) : Prop := ∀ k, HashGrows (s .hash k) (s' .hash k)

theorem HashGrows.refl (h : Option Job) : HashGrows h h := ⟨rfl, le_rfl, id⟩

theorem HashGrows.trans {h h' h'' : Option Job} (h₁ : HashGrows h h') (h₂ : HashGrows h' h'') :
    HashGrows h h'' :=
  ⟨h₂.frozen.trans h₁.frozen, h₁.ats.trans h₂.ats, fun hh => h₂.exist (h₁.exist hh)⟩

namespace Evolves

variable {s s' s'' : Store}

theorem refl (s : Store) : Evolves s s := fun _ => .refl _

theorem trans (h : Evolves s s') (h' : Evolves s' s'') : Evolves s s'' := fun k =>
  (h k).trans (h' k)

theorem of_hash (h : s' .hash = s .hash) : Evolves s s' := fun k => by
  rw [h]
  exact .refl _

/-- A change of other families. -/
theorem of_frame {W : List Kind} (hW : Kind.hash ∉ W) (hs : ∀ {κ}, κ ∉ W → s' κ = s κ) :
    Evolves s s' :=
  of_hash (hs hW)

theorem hset {f : Job → Job} (s : Store) (k : String) (hf : Mild f) : Evolves s (s.hset k f) := by
  intro k'
  rw [Store.hset_hash]
  split
  · exact ⟨(hf _).1, (hf _).2, fun _ => rfl⟩
  · exact .refl _

theorem hdel {f : Job → Job} (s : Store) (k : String) (hf : Mild f) : Evolves s (s.hdel k f) := by
  intro k'
  rw [Store.hdel_hash]
  split
  · cases s .hash k' with
    | none => exact .refl _
    | some job => exact ⟨(hf job).1, (hf job).2, fun _ => rfl⟩
  · exact .refl _

/-- What a frozen field holds, a missing hash included. -/
theorem bind_eq (h : Evolves s s') {α : Type} {f : Job → Option α}
    (hf : ∀ job, f job = f job.frozen) (h₀ : f {} = none) (k : String) :
    (s' .hash k).bind f = (s .hash k).bind f := by
  have hget : ∀ o : Option Job, o.bind f = f (o.getD {}) := fun o => by
    cases o with
    | none => exact h₀.symm
    | some job => rfl
  rw [hget, hget, hf, (h k).frozen, ← hf]

theorem parentOf (h : Evolves s s') (k : String) : s'.parentOf k = s.parentOf k :=
  h.bind_eq (fun _ => rfl) rfl k

theorem deidOf (h : Evolves s s') (k : String) : s'.deidOf k = s.deidOf k :=
  h.bind_eq (fun _ => rfl) rfl k

theorem jobExists (h : Evolves s s') {k : String} (hk : s.jobExists k = true) :
    s'.jobExists k = true :=
  (h k).exist hk

end Evolves

/-! ### Helpers -/

section Helpers

variable (p j : String) (s : Store)

theorem promoteDelayedJob_evolves : Evolves s (promoteDelayedJob p s j) := by
  have hdelay : ∀ s, Evolves s (s.hset (p ++ j) fun job => { job with delay := some 0 }) :=
    fun s => .hset s _ fun _ => ⟨rfl, le_rfl⟩
  refine .trans (.of_hash ?_) (hdelay _)
  rw [Store.xadd_of_ne _ _ _ (by decide)]
  split
  · exact Keyspace.modify_of_ne _ (by decide) ..
  · rw [Keyspace.modify_of_ne _ (by decide), getPriorityScore, Keyspace.modify_of_ne _ (by decide)]

theorem foldl_evolves {α : Type} {f : Store → α → Store} (hf : ∀ s a, Evolves s (f s a))
    (l : List α) (s : Store) : Evolves s (l.foldl f s) := by
  induction l generalizing s with
  | nil => exact .refl s
  | cons a l ih => exact (hf s a).trans (ih _)

theorem promoteDelayedJobs_evolves (t : ℤ) (b : Bool) : Evolves s (promoteDelayedJobs p t b s) := by
  simp only [promoteDelayedJobs]
  split
  · exact .refl s
  · refine .trans (.of_hash (Keyspace.modify_of_ne _ (by decide) ..)) (.trans
      (foldl_evolves (fun s j => promoteDelayedJob_evolves p j s) (dueJobs p t s) _) (.of_frame
        (W := [.marker]) (by decide) fun hκ => addBaseMarkerIfNeeded_frame _ _ _ hκ))

theorem prepareJobForProcessing_evolves (t : ℤ) (m d : Option ℤ) (o : FetchOpts) :
    Evolves s (prepareJobForProcessing p j t m d o s).2 := by
  have hcount : (countActivation m d p s).2 .hash = s .hash :=
    countActivation_frame m d p s (by decide)
  rcases hres : countActivation m d p s with ⟨counted, s'⟩
  rw [hres] at hcount
  simp only [prepareJobForProcessing, hres]
  split
  · exact .of_hash hcount
  · set s₁ : Store :=
      Store.xadd (if o.token ≠ "0" then s'.set .lock (p ++ j) (some o.token) else s')
      p (.active j "waiting") with hs₁
    have hlock : Evolves s s₁ := by
      refine .of_hash ?_
      rw [hs₁, Store.xadd_of_ne _ _ _ (by decide), ← hcount]
      split
      · exact Keyspace.set_of_ne _ (by decide) ..
      · rfl
    have hstarted : ∀ s, Evolves s (s.hset (p ++ j) fun job => { job with ats := job.ats + 1 }) :=
      fun s => .hset s _ fun _ => ⟨rfl, Nat.le_succ _⟩
    have hprocessed : ∀ s, Evolves s (s.hset (p ++ j) fun job =>
        { job with processedOn := some t, pb := o.name <|> job.pb }) := fun s => .hset s _ fun _ =>
          ⟨rfl, le_rfl⟩
    have hmarker : ∀ s, Evolves s (addBaseMarkerIfNeeded p false s) := fun s =>
      .of_hash (addBaseMarkerIfNeeded_frame p false s (by decide))
    exact hlock.trans ((hprocessed _).trans ((hstarted _).trans (hmarker _)))

/-- A fetch evolves the hashes, if its pop leaves them alone. -/
theorem fetchWith_evolves {pop : String → Store → Popped × Store}
    (hpop : ∀ s, (pop p s).2 .hash = s .hash) (t : ℤ) (o : FetchOpts) :
    Evolves s (fetchWith pop p t o s).2 := by
  have hstart : Evolves s (startFetch p t o s).2 :=
    (promoteDelayedJobs_evolves p s t _).trans (.of_hash (getRateLimitTTL_frame _ _ _ (by decide)))
  have htake : ∀ m d s', Evolves s' (takeJob pop p t m d o s').2 := by
    intro m d s'
    have hp := Evolves.of_hash (hpop s')
    rcases hres : pop p s' with ⟨popped, s₁⟩
    rw [hres] at hp
    simp only [takeJob, hres]
    cases popped with
    | job j => exact hp.trans (prepareJobForProcessing_evolves p j s₁ t m d o)
    | nothing => exact hp
    | failed => exact hp
  simp only [fetchWith]
  split
  · exact hstart
  · split
    · exact hstart
    · exact hstart.trans (htake _ _ _)

theorem moveToActive_evolves (t : ℤ) (o : FetchOpts) :
    Evolves s (Script.moveToActive p t o s).2 :=
  fetchWith_evolves p s (fun s => popForMoveToActive_frame p s (by decide)) t o

theorem fetchNextJob_evolves (t : ℤ) (o : FetchOpts) : Evolves s (fetchNextJob p t o s).2 :=
  fetchWith_evolves p s (fun s => popForFetchNextJob_frame p s (by decide)) t o

theorem updateJobFields_evolves (k : String) (f : Option FieldsToUpdate) :
    Evolves s (updateJobFields k f s) := by
  unfold updateJobFields
  split
  · exact .refl s
  · exact .hset _ _ fun _ => ⟨rfl, le_rfl⟩

theorem releasedJob_evolves (t : String) (f : Option FieldsToUpdate) :
    Evolves s (releasedJob p j t f s) :=
  (Evolves.of_hash (removeLock_frame p j t s (by decide))).trans (updateJobFields_evolves _ _ f)

theorem leftActive_evolves (t : String) (f : Option FieldsToUpdate) :
    Evolves s (leftActive p j t f s) :=
  (releasedJob_evolves p j s t f).trans (.of_hash (Keyspace.modify_of_ne _ (by decide) ..))

theorem moveParentToWait_evolves (P : Parent) (t : ℤ) : Evolves s (moveParentToWait P t s) :=
  .of_hash (moveParentToWait_frame P t s (by decide))

theorem handleChildFailureAndMoveParentToWait_evolves (P : Parent) (c : String) (t : ℤ) :
    Evolves s (handleChildFailureAndMoveParentToWait P c t s) := by
  have hdefa : ∀ s, Evolves s
      (s.hset P.key fun job => { job with defa := some (deferredFailure c) }) := fun s =>
    .hset _ _ fun _ => ⟨rfl, le_rfl⟩
  have hdelay : Evolves s (s.hset P.key fun job => { job with delay := some 0 }) :=
    .hset _ _ fun _ => ⟨rfl, le_rfl⟩
  simp only [handleChildFailureAndMoveParentToWait]
  split
  · split
    · exact .trans (.of_hash (Keyspace.modify_of_ne _ (by decide) ..))
        ((hdefa _).trans (moveParentToWait_evolves _ P t))
    · split
      · exact .trans hdelay
          (.trans (.of_hash (Keyspace.modify_of_ne _ (by decide) ..))
            ((hdefa _).trans (moveParentToWait_evolves _ P t)))
      · split
        · exact .refl s
        · exact hdefa s
  · exact .refl s

theorem moveChildFromDependenciesIfNeeded_evolves (R : Option Parent) (c r : String) (t : ℤ) :
    Evolves s (moveChildFromDependenciesIfNeeded R c r t s) := by
  unfold moveChildFromDependenciesIfNeeded
  split
  · exact .refl s
  · next P =>
    split
    · split
      · refine .trans (.of_hash ?_) (handleChildFailureAndMoveParentToWait_evolves _ P c t)
        rw [Keyspace.modify_of_ne _ (by decide), Keyspace.modify_of_ne _ (by decide)]
      · split
        · refine .of_hash ?_
          rw [moveParentToWaitIfNeeded_frame _ _ _ (by decide), Keyspace.modify_of_ne _ (by decide),
            Keyspace.modify_of_ne _ (by decide)]
        · split
          · refine .of_hash ?_
            simp only
            split
            · rw [Keyspace.modify_of_ne _ (by decide),
                moveParentToWaitIfNoPendingDependencies_frame _ _ _ (by decide),
                Keyspace.modify_of_ne _ (by decide)]
            · rw [moveParentToWaitIfNoPendingDependencies_frame _ _ _ (by decide),
                Keyspace.modify_of_ne _ (by decide)]
          · exact .refl s
    · exact .refl s

theorem notifyParent_evolves (R : Option Parent) (k : String) (a : FinishArgs) :
    Evolves s (notifyParent R k a s) := by
  unfold notifyParent
  split
  · exact .refl s
  · next P =>
    split
    · exact .refl s
    · split
      · split
        · refine .of_hash ?_
          rw [updateParentDepsIfNeeded_frame _ _ _ _ _ (by decide),
            Keyspace.modify_of_ne _ (by decide)]
        · exact .refl s
      · exact moveChildFromDependenciesIfNeeded_evolves s _ _ _ _

theorem fetchOrDrain_evolves (a : FinishArgs) : Evolves s (fetchOrDrain p a s).2 := by
  have hdrain : ∀ s, Evolves s (emitDrained p s) := fun s =>
    .of_hash (emitDrained_frame p s (by decide))
  simp only [fetchOrDrain]
  split
  · have hfetch := fetchNextJob_evolves p s a.timestamp a.opts
    rcases hres : fetchNextJob p a.timestamp a.opts s with ⟨_ | r, s'⟩ <;> rw [hres] at hfetch
    · exact hfetch.trans (hdrain _)
    · exact hfetch
  · exact hdrain s

end Helpers

/-! ### Scripts -/

section Scripts

variable (p j : String) (s : Store)

theorem delayJob_evolves (a : DelayArgs) : Evolves s (delayJob p a s) := by
  have hdelay : ∀ s, Evolves s (s.hset (p ++ a.jobId) fun job =>
      { job with delay := some a.delay }) := fun s => .hset s _ fun _ => ⟨rfl, le_rfl⟩
  have hattempt : Evolves s (if a.skipAttempt then s else s.hset (p ++ a.jobId) fun job =>
      { job with atm := job.atm + 1 }) := by
    split
    · exact .refl s
    · exact .hset s _ fun _ => ⟨rfl, le_rfl⟩
  refine hattempt.trans ((hdelay _).trans (.of_hash ?_))
  simp only [delayJob]
  rw [Store.xadd_of_ne _ _ _ (by decide), Keyspace.modify_of_ne _ (by decide),
    getOrSetMaxEvents_frame _ _ (by decide)]

theorem fetchOrMark_evolves (a : DelayArgs) : Evolves s (fetchOrMark p a s).2 := by
  have hmark : ∀ s, Evolves s (addDelayMarkerIfNeeded p s) := fun s =>
    .of_hash (addDelayMarkerIfNeeded_frame p s (by decide))
  unfold fetchOrMark
  split
  · exact hmark s
  · next opts _ =>
    have hfetch := fetchNextJob_evolves p s a.timestamp opts
    rcases hres : fetchNextJob p a.timestamp opts s with ⟨r, s'⟩
    rw [hres] at hfetch
    simp only
    split
    · exact hfetch
    · exact hfetch
    · exact hfetch.trans (hmark _)

theorem requeueJob_evolves (a : RetryArgs) : Evolves s (requeueJob p a s) := by
  have hattempt : ∀ s, Evolves s (s.hset (p ++ a.jobId) fun job =>
      { job with atm := job.atm + 1 }) := fun s => .hset s _ fun _ => ⟨rfl, le_rfl⟩
  have hevent : ∀ s, Evolves s ((getOrSetMaxEvents p s).xadd p
      (.waiting a.jobId (some "active"))) := fun s => .of_hash (by
    rw [Store.xadd_of_ne _ _ _ (by decide), getOrSetMaxEvents_frame _ _ (by decide)])
  refine .trans (.of_hash ?_) ((hattempt _).trans (hevent _))
  split
  · exact addJobInTargetList_frame _ _ _ _ _ (by decide)
  · exact addJobWithPriority_frame _ _ _ _ _ (by decide)

theorem moveToDelayed_evolves (a : DelayArgs) : Evolves s (Script.moveToDelayed p a s).2 := by
  obtain ⟨-, n, -, -, heq⟩ | ⟨-, heq⟩ | ⟨-, heq⟩ := Script.moveToDelayed_cases p a s <;> rw [heq]
  · exact .refl s
  · exact releasedJob_evolves _ _ _ _ _
  · exact (leftActive_evolves _ _ _ _ _).trans
      ((delayJob_evolves _ _ _).trans (fetchOrMark_evolves _ _ _))

theorem moveToWaitingChildren_evolves (t c : String) (ts : ℤ) :
    Evolves s (Script.moveToWaitingChildren p j t c ts s).2 := by
  obtain ⟨n, -, heq⟩ | ⟨-, heq⟩ | ⟨-, -, heq⟩ := Script.moveToWaitingChildren_cases p j t c ts s <;>
    rw [heq]
  · exact .refl s
  · exact releasedJob_evolves _ _ _ _ _
  · simp only [Script.movedToWaitingChildren]
    refine (leftActive_evolves p j s t none).trans (.of_hash ?_)
    rw [Store.xadd_of_ne _ _ _ (by decide), Keyspace.modify_of_ne _ (by decide)]

theorem retryJob_evolves (a : RetryArgs) : Evolves s (Script.retryJob p a s).2 := by
  have hpromote := promoteDelayedJobs_evolves p s a.timestamp (isQueuePausedOrMaxed p s)
  obtain ⟨s₀, rfl, ⟨-, n, -, -, heq⟩ | ⟨-, heq⟩ | ⟨-, heq⟩⟩ :=
    Script.retryJob_cases p a s <;> rw [heq]
  · exact hpromote
  · exact hpromote.trans (releasedJob_evolves _ _ _ _ _)
  · exact hpromote.trans ((leftActive_evolves _ _ _ _ _).trans (requeueJob_evolves _ _ _))

theorem countStall_evolves (m : ℤ) : Evolves s (countStall p j m s) := by
  have hstall : Evolves s (s.hset (p ++ j) fun job => { job with stc := job.stc + 1 }) :=
    .hset s _ fun _ => ⟨rfl, le_rfl⟩
  simp only [countStall]
  split
  · exact hstall.trans (.hset _ _ fun _ => ⟨rfl, le_rfl⟩)
  · exact hstall

theorem reclaimStalledJob_evolves (m : ℤ) (acc : List String × Store) :
    Evolves acc.2 (reclaimStalledJob p m acc j).2 := by
  obtain ⟨l, s⟩ := acc
  simp only [reclaimStalledJob]
  split
  · exact .of_hash (Keyspace.modify_of_ne _ (by decide) ..)
  · split
    · have hleave : Evolves s (s.modify (.list .active) p (lremLeft j)) :=
        .of_hash (Keyspace.modify_of_ne _ (by decide) ..)
      refine hleave.trans ((countStall_evolves p j _ m).trans (.of_hash ?_))
      rw [Store.xadd_of_ne _ _ _ (by decide), moveJobToWait_frame _ _ _ _ (by decide)]
    · exact .refl s

theorem moveStalledJobsToWait_evolves (m t c : ℤ) :
    Evolves s (Script.moveStalledJobsToWait p m t c s).2 := by
  have hfold : ∀ (l : List String) (acc : List String × Store),
      Evolves acc.2 (l.foldl (reclaimStalledJob p m) acc).2 := by
    intro l
    induction l with
    | nil => exact fun acc => .refl _
    | cons j l ih => exact fun acc => (reclaimStalledJob_evolves p j m acc).trans (ih _)
  have hmark : ∀ s, Evolves s (markActive p s) := fun s => by
    refine foldl_evolves (fun s r => .of_hash ?_) _ s
    exact Keyspace.modify_of_ne _ (by decide) ..
  simp only [Script.moveStalledJobsToWait]
  split
  · exact .refl s
  · split
    · exact .refl s
    · refine .trans (.of_hash ?_) ((hfold _ _).trans (hmark _))
      rw [Keyspace.set_of_ne _ (by decide), trimEvents_frame _ _ (by decide),
        Keyspace.set_of_ne _ (by decide)]

theorem promote_evolves : Evolves s (Script.promote p j s).2 := by
  have hdelay : ∀ s, Evolves s (s.hset (p ++ j) fun job => { job with delay := some 0 }) :=
    fun s => .hset s _ fun _ => ⟨rfl, le_rfl⟩
  simp only [Script.promote]
  split
  · refine .trans (.of_hash ?_) (hdelay _)
    rw [Store.xadd_of_ne _ _ _ (by decide)]
    split
    · rw [addJobInTargetList_frame _ _ _ _ _ (by decide), dropHeadMarker,
        Keyspace.modify_of_ne _ (by decide), Keyspace.modify_of_ne _ (by decide)]
    · rw [addJobWithPriority_frame _ _ _ _ _ (by decide), dropHeadMarker,
        Keyspace.modify_of_ne _ (by decide), Keyspace.modify_of_ne _ (by decide)]
  · exact .refl s

theorem changeDelay_evolves (d t : ℤ) : Evolves s (Script.changeDelay p d t j s).2 := by
  have hdelay : ∀ s, Evolves s (s.hset (p ++ j) fun job => { job with delay := some d }) :=
    fun s => .hset s _ fun _ => ⟨rfl, le_rfl⟩
  simp only [Script.changeDelay]
  split
  · exact .refl s
  · split
    · exact .refl s
    · refine .trans (.of_hash ?_) (.trans (hdelay (s.modify (.zset .delayed) p (·.zrem j)))
        (.of_hash ?_))
      · exact Keyspace.modify_of_ne _ (by decide) ..
      · rw [addDelayMarkerIfNeeded_frame _ _ (by decide), Store.xadd_of_ne _ _ _ (by decide),
          getOrSetMaxEvents_frame _ _ (by decide), Keyspace.modify_of_ne _ (by decide)]

theorem changePriority_evolves (n : ℤ) (l : Bool) :
    Evolves s (Script.changePriority p n j l s).2 := by
  have hpriority : ∀ s, Evolves s (s.hset (p ++ j) fun job => { job with priority := some n }) :=
    fun s => .hset s _ fun _ => ⟨rfl, le_rfl⟩
  simp only [Script.changePriority]
  split
  · exact .refl s
  · refine .trans (.of_hash ?_) (hpriority _)
    split
    · rw [reAddJobWithNewPriority_frame _ _ _ _ _ _ (by decide),
        Keyspace.modify_of_ne _ (by decide)]
    · split
      · rw [reAddJobWithNewPriority_frame _ _ _ _ _ _ (by decide),
          Keyspace.modify_of_ne _ (by decide)]
      · rfl

end Scripts

end BullMQ
