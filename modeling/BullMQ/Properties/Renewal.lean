import BullMQ.Renewal.Locks
import BullMQ.Model.LockManager

/-!
# A live worker keeps its locks

The lock manager renews a lock before it expires, as long as timers and messages are not later than
`Timing` says and that is little enough (`Timing.Fits`). `Renewed` is why: since the timer last
fired, every tracked job has been renewed not long before, and every lock lasts for `lockDuration`
after that, or is being extended now.
-/

namespace BullMQ

open Redis Transition

variable {Q : QueueSet} {opts : LockManagerOptions} {timing : Timing}

/-- How long before the timer a tracked job may have been renewed, doubled. -/
def Timing.margin (timing : Timing) (opts : LockManagerOptions) : ℕ :=
  max opts.lockRenewTime (2 * timing.pickup)

/-- The longest time from one firing of the timer to the next. -/
def Timing.period (timing : Timing) (opts : LockManagerOptions) : ℕ :=
  2 * timing.hop + LockManager.timeout opts.lockRenewTime + timing.late

/-- What takes time leaves time to renew a lock. -/
def Timing.Fits (timing : Timing) (opts : LockManagerOptions) : Prop :=
  timing.margin opts + 2 * timing.period opts + 2 * timing.hop ≤ 2 * opts.lockDuration

/-- The duration of a lock extension. -/
def Command.extendDuration : Command → Option ℤ
  | extendLock _ _ duration _ => some duration
  | extendLocks _ _ duration => some duration
  | _ => none

/-- The commands of the runs considered: nobody extends a lock by less than `lockDuration`. -/
structure RenewalCommand (Q : QueueSet) (opts : LockManagerOptions) (s : Store) (c : Command) :
    Prop where
  owner : OwnerCommand Q s c
  duration : ∀ d, c.extendDuration = some d → (opts.lockDuration : ℤ) ≤ d

/-! ### When locks expire -/

namespace LockWorld

variable {w w' : LockWorld} {c : Command} {k t : String} {reply : Reply}

theorem foldl_expires (p : String) (now n : ℕ) (s : Store) (locks : List (String × String))
    (expires : String → ℕ) (k : String) :
    let after := locks.foldl (fun expires lock =>
      if s .lock (p ++ lock.2) = some lock.1 then
        Function.update expires (p ++ lock.2) (now + n)
      else expires) expires
    (after k = expires k ∨ after k = now + n) ∧
      ((∃ lock ∈ locks, k = p ++ lock.2 ∧ s .lock k = some lock.1) → after k = now + n) := by
  induction locks generalizing expires with
  | nil => simp
  | cons lock locks ih =>
    dsimp only [List.foldl_cons]
    by_cases hlock : s .lock (p ++ lock.2) = some lock.1
    · rw [if_pos hlock]
      obtain ⟨hor, hmem⟩ := ih (Function.update expires (p ++ lock.2) (now + n))
      by_cases hk : k = p ++ lock.2
      · subst hk
        rw [Function.update_self, or_self] at hor
        exact ⟨.inr hor, fun _ => hor⟩
      · rw [Function.update_of_ne hk] at hor
        refine ⟨hor, fun ⟨other, hother, hk', hl⟩ => hmem ⟨other, ?_, hk', hl⟩⟩
        rcases List.mem_cons.mp hother with rfl | hother
        · exact absurd hk' hk
        · exact hother
    · rw [if_neg hlock]
      obtain ⟨hor, hmem⟩ := ih expires
      refine ⟨hor, fun ⟨other, hother, hk', hl⟩ => hmem ⟨other, ?_, hk', hl⟩⟩
      rcases List.mem_cons.mp hother with rfl | hother
      · exact absurd (hk' ▸ hl) hlock
      · exact hother

theorem expiresAfterFetch_cases (c : Command) (w : LockWorld) (k : String) :
    w.expiresAfterFetch c k = w.expires k ∨
      ∃ p j, c.activates w.store p = some j ∧ k = p ++ j := by
  rcases ho : c.fetchOpts with _ | ⟨p, o⟩
  · exact .inl (by simp only [expiresAfterFetch, ho])
  · rcases ha : c.activates w.store p with _ | j
    · exact .inl (by simp only [expiresAfterFetch, ho, ha])
    · by_cases hk : k = p ++ j
      · exact .inr ⟨p, j, ha, hk⟩
      · exact .inl (by simp only [expiresAfterFetch, ho, ha, Function.update_of_ne hk])

/-- A command leaves the expiry of a lock, or extends it, or hands out its job. -/
theorem expiresAfter_cases (c : Command) (w : LockWorld) (k : String) :
    w.expiresAfter c k = w.expires k ∨
      (∃ d, c.extendDuration = some d ∧ w.expiresAfter c k = w.now + d.toNat) ∨
      ∃ p j, c.activates w.store p = some j ∧ k = p ++ j := by
  cases c with
  | extendLock p token d jobId =>
    simp only [expiresAfter]
    split
    · by_cases hk : k = p ++ jobId
      · subst hk
        exact .inr (.inl ⟨d, rfl, by rw [Function.update_self]⟩)
      · exact .inl (Function.update_of_ne hk _ _)
    · exact .inl rfl
  | extendLocks p locks d =>
    rcases (foldl_expires p w.now d.toNat w.store locks w.expires k).1 with hk | hk
    · exact .inl hk
    · exact .inr (.inl ⟨d, rfl, hk⟩)
  | _ =>
    simp only [expiresAfter]
    exact (expiresAfterFetch_cases _ w k).imp_right .inr

/-- What a command does, if it happens. -/
theorem exec_eq (h : w.exec c = some (reply, w')) :
    ∃ r, c.exec w.store = some r ∧ reply = r.1 ∧ w' = { w with
      store := r.2
      expires := w.expiresAfter c
      held := w.held.filter fun lock => !c.finishes lock } ∧
      ∀ k, c = .expireLock k → w.expires k < w.now := by
  have hgo : ∀ h : exec.go c w = some (reply, w'), ∃ r, c.exec w.store = some r ∧ reply = r.1 ∧
      w' = { w with
        store := r.2
        expires := w.expiresAfter c
        held := w.held.filter fun lock => !c.finishes lock } := by
    intro hgo
    obtain ⟨r, hr, heq⟩ := Option.map_eq_some_iff.mp hgo
    obtain ⟨rfl, rfl⟩ := Prod.mk.inj heq
    exact ⟨r, hr, rfl, rfl⟩
  unfold exec at h
  split at h
  next k =>
    obtain ⟨hlt, hg⟩ := Option.ite_none_right_eq_some.mp h
    obtain ⟨r, hr, hreply, hw⟩ := hgo hg
    exact ⟨r, hr, hreply, hw, fun k' hk => by cases hk; exact hlt⟩
  next hne =>
    obtain ⟨r, hr, hreply, hw⟩ := hgo h
    exact ⟨r, hr, hreply, hw, fun k hk => absurd hk (hne k)⟩

/-- A lock in the hands of its worker lasts through a command, as long as it did before. -/
theorem exec_lock {bound : ℕ} (hw : Owned Q w.store) (hc : RenewalCommand Q opts w.store c)
    (h : w.exec c = some (reply, w')) (hheld : (k, t) ∈ w'.held)
    (hlock : w.store .lock k = some t) (hbound : bound ≤ w.expires k) (hnow : w.now ≤ w.expires k)
    (hle : bound ≤ w.now + opts.lockDuration) :
    w'.store .lock k = some t ∧ bound ≤ w'.expires k := by
  obtain ⟨r, hr, -, rfl, hexp⟩ := exec_eq h
  have hfin : ∀ p j, c.finishing = some (p, j, t) → p ++ j ≠ k := by
    rintro p j hf rfl
    simp [Command.finishes, hf] at hheld
  refine ⟨hw.keeps_lock hc.owner hr hlock hfin fun hc' => ?_, ?_⟩
  · have := hexp k hc'
    omega
  · dsimp only
    obtain hk | ⟨d, hd, hk⟩ | ⟨p, j, ha, hk⟩ := expiresAfter_cases c w k
    · omega
    · have := hc.duration d hd
      omega
    · exact absurd hk (hw.activates_key_ne hc.owner hr hlock hfin ha)

end LockWorld

/-! ### What holds between two firings of the timer -/

/-- A job is held with its lock, which lasts until some time. -/
def LockWorld.Locked (opts : LockManagerOptions) (w : LockWorld) (job : TrackedJob) (bound : ℕ) :
    Prop :=
  (opts.base ++ job.jobId, job.token) ∈ w.held →
    w.store .lock (opts.base ++ job.jobId) = some job.token ∧
      bound ≤ w.expires (opts.base ++ job.jobId)

/-- The lock of a job is being extended. -/
def LockWorld.Extending (w : LockWorld) (job : TrackedJob) : Prop :=
  ∃ e, w.extension = some e ∧ e.failedJobs = none ∧ (job.token, job.jobId) ∈ e.locks

/-- Where the timer is. -/
inductive LockWorld.Phase (opts : LockManagerOptions) (timing : Timing) (fired : ℕ)
    (w : LockWorld) : Prop
  | closed (hclosed : w.manager.closed = true) (hjobs : w.manager.trackedJobs = [])
    (htimer : w.manager.lockRenewalTimer = none)
  | waiting (due : ℕ) (hopen : w.manager.closed = false)
    (htimer : w.manager.lockRenewalTimer = some due) (hext : w.extension = none)
    (hdue : due ≤ fired + 2 * timing.hop + LockManager.timeout opts.lockRenewTime)
    (hnow : w.now ≤ due + timing.late)
  | extending (e : Extension) (hopen : w.manager.closed = false)
    (htimer : w.manager.lockRenewalTimer = none) (hext : w.extension = some e)
    (hnone : e.failedJobs = none) (hsent : e.sentAt = fired)
    (hnow : w.now ≤ fired + timing.hop)
  | extended (e : Extension) (failed : List String) (hopen : w.manager.closed = false)
    (htimer : w.manager.lockRenewalTimer = none) (hext : w.extension = some e)
    (hsome : e.failedJobs = some failed)
    (hsent : e.sentAt ≤ fired + timing.hop) (hnow : w.now ≤ e.sentAt + timing.hop)

/-- A job that the worker has been handed. -/
structure LockWorld.Handed (Q : QueueSet) (opts : LockManagerOptions) (w : LockWorld)
    (job : TrackedJob) : Prop where
  valid : Q.keySpace.Valid opts.base job.jobId
  pos : 0 < job.ts
  past : job.ts ≤ w.now

/-- What holds after the timer fired last, or was started. -/
structure LockWorld.Renewed (Q : QueueSet) (opts : LockManagerOptions) (timing : Timing)
    (fired : ℕ) (w : LockWorld) : Prop where
  owned : Owned Q w.store
  past : fired ≤ w.now
  phase : w.Phase opts timing fired
  handed : ∀ job, job ∈ w.manager.trackedJobs ∨ job ∈ w.fetched → w.Handed Q opts job
  recent : ∀ job ∈ w.manager.trackedJobs, 2 * fired ≤ 2 * job.ts + timing.margin opts
  fetched : ∀ job ∈ w.fetched, w.now ≤ job.ts + timing.pickup ∧
    w.Locked opts job (job.ts + opts.lockDuration)
  locked : ∀ job ∈ w.manager.trackedJobs, w.Locked opts job (job.ts + opts.lockDuration) ∨
    w.Extending job ∧ w.Locked opts job (fired + timing.hop)

namespace LockWorld

section Steps

variable {w w' : LockWorld} {fired : ℕ}

theorem Phase.now_le (h : w.Phase opts timing fired) (hne : w.manager.trackedJobs ≠ []) :
    w.now ≤ fired + timing.period opts := by
  unfold Timing.period
  cases h with
  | closed hclosed hjobs htimer => exact absurd hjobs hne
  | waiting due hopen htimer hext hdue hnow => omega
  | extending e hopen htimer hext hnone hsent hnow => omega
  | extended e failed hopen htimer hext hsome hsent hnow => omega

theorem Phase.now_le_hop {job : TrackedJob} (h : w.Phase opts timing fired)
    (hjob : job ∈ w.manager.trackedJobs) (hext : w.Extending job) :
    w.now ≤ fired + timing.hop := by
  obtain ⟨e, he, hnone, -⟩ := hext
  cases h with
  | closed hclosed hjobs htimer => simp [hjobs] at hjob
  | waiting due hopen htimer hext hdue hnow => simp [hext] at he
  | extending e' hopen htimer hext hnone hsent hnow => exact hnow
  | extended e' failed hopen htimer hext hsome hsent hnow =>
    rw [hext] at he
    obtain rfl := Option.some.inj he
    simp [hsome] at hnone

/-- The timer stays where it is when only the tracked jobs change. -/
theorem Phase.of_eq (h : w.Phase opts timing fired) (hnow : w'.now = w.now)
    (hext : w'.extension = w.extension) (hclosed : w'.manager.closed = w.manager.closed)
    (htimer : w'.manager.lockRenewalTimer = w.manager.lockRenewalTimer)
    (hjobs : w.manager.closed = true → w.manager.trackedJobs = [] →
      w'.manager.trackedJobs = []) : w'.Phase opts timing fired := by
  cases h with
  | closed hc hj ht => exact .closed (hclosed ▸ hc) (hjobs hc hj) (htimer ▸ ht)
  | waiting due ho ht he hdue hn =>
    exact .waiting due (hclosed ▸ ho) (htimer ▸ ht) (hext ▸ he) hdue (hnow ▸ hn)
  | extending e ho ht he hnone hsent hn =>
    exact .extending e (hclosed ▸ ho) (htimer ▸ ht) (hext ▸ he) hnone hsent (hnow ▸ hn)
  | extended e failed ho ht he hsome hsent hn =>
    exact .extended e failed (hclosed ▸ ho) (htimer ▸ ht) (hext ▸ he) hsome hsent (hnow ▸ hn)

/-- The lock of a tracked job has not expired, and lasts long enough to be extended. -/
theorem Renewed.lasts {job : TrackedJob} (h : w.Renewed Q opts timing fired)
    (hfits : timing.Fits opts) (hjob : job ∈ w.manager.trackedJobs)
    (hheld : (opts.base ++ job.jobId, job.token) ∈ w.held) :
    w.store .lock (opts.base ++ job.jobId) = some job.token ∧
      w.now ≤ w.expires (opts.base ++ job.jobId) := by
  have hnow := h.phase.now_le (List.ne_nil_of_mem hjob)
  have hrecent := h.recent job hjob
  unfold Timing.Fits at hfits
  rcases h.locked job hjob with hlocked | ⟨hext, hlocked⟩
  · obtain ⟨hlock, hle⟩ := hlocked hheld
    exact ⟨hlock, by omega⟩
  · obtain ⟨hlock, hle⟩ := hlocked hheld
    have := h.phase.now_le_hop hjob hext
    exact ⟨hlock, by omega⟩

theorem Renewed.fetched_lasts {job : TrackedJob} (h : w.Renewed Q opts timing fired)
    (hfits : timing.Fits opts) (hjob : job ∈ w.fetched)
    (hheld : (opts.base ++ job.jobId, job.token) ∈ w.held) :
    w.store .lock (opts.base ++ job.jobId) = some job.token ∧
      w.now ≤ w.expires (opts.base ++ job.jobId) := by
  obtain ⟨hnow, hlocked⟩ := h.fetched job hjob
  obtain ⟨hlock, hle⟩ := hlocked hheld
  have hmargin : 2 * timing.pickup ≤ timing.margin opts := le_max_right _ _
  unfold Timing.Fits at hfits
  exact ⟨hlock, by omega⟩

/-- The locks of the worker's jobs last through a command. -/
theorem Renewed.exec {c : Command} {reply : Reply} (h : w.Renewed Q opts timing fired)
    (hfits : timing.Fits opts) (hc : RenewalCommand Q opts w.store c)
    (hw : w.exec c = some (reply, w')) : w'.Renewed Q opts timing fired := by
  obtain ⟨r, hr, hreply, hw', -⟩ := exec_eq hw
  have hexec (job : TrackedJob) (bound : ℕ) (hlocked : w.Locked opts job bound)
      (hnow : (opts.base ++ job.jobId, job.token) ∈ w.held →
        w.now ≤ w.expires (opts.base ++ job.jobId))
      (hle : bound ≤ w.now + opts.lockDuration) : w'.Locked opts job bound := by
    intro hheld
    have hold : (opts.base ++ job.jobId, job.token) ∈ w.held := by
      rw [hw'] at hheld
      exact (List.mem_filter.mp hheld).1
    obtain ⟨hlock, hbound⟩ := hlocked hold
    exact exec_lock h.owned hc hw hheld hlock hbound (hnow hold) hle
  -- The command changes the store and the expiries, and nothing of the manager.
  have hsame : w'.now = w.now ∧ w'.manager = w.manager ∧ w'.extension = w.extension ∧
      w'.fetched = w.fetched ∧ w'.store = r.2 := by
    rw [hw']
    exact ⟨rfl, rfl, rfl, rfl, rfl⟩
  obtain ⟨hnow, hman, hext, hfet, hstore⟩ := hsame
  unfold Timing.Fits at hfits
  refine ⟨hstore ▸ h.owned.exec hc.owner hr, hnow ▸ h.past, ?_, fun job hjob => ?_,
    fun job hjob => ?_, fun job hjob => ?_, fun job hjob => ?_⟩
  · exact h.phase.of_eq hnow hext (by rw [hman]) (by rw [hman]) fun _ hj => by rw [hman, hj]
  · rw [hman, hfet] at hjob
    obtain ⟨hv, hpos, hpast⟩ := h.handed job hjob
    exact ⟨hv, hpos, hnow ▸ hpast⟩
  · rw [hman] at hjob
    exact h.recent job hjob
  · rw [hfet] at hjob
    obtain ⟨hle, hlocked⟩ := h.fetched job hjob
    have hpast := (h.handed job (.inr hjob)).past
    exact ⟨hnow ▸ hle, hexec job _ hlocked (fun hheld => (h.fetched_lasts hfits hjob hheld).2)
      (by omega)⟩
  · rw [hman] at hjob
    have hpast := (h.handed job (.inl hjob)).past
    have hlast (hheld : (opts.base ++ job.jobId, job.token) ∈ w.held) :=
      (h.lasts hfits hjob hheld).2
    rcases h.locked job hjob with hlocked | ⟨he, hlocked⟩
    · exact .inl (hexec job _ hlocked hlast (by omega))
    · refine .inr ⟨?_, hexec job _ hlocked hlast ?_⟩
      · obtain ⟨e, he, hmem⟩ := he
        exact ⟨e, hext ▸ he, hmem⟩
      · have := h.past
        omega

theorem Renewed.elapse (h : w.Renewed Q opts timing fired) (hw : w.mayElapse timing) :
    Renewed Q opts timing fired { w with now := w.now + 1 } := by
  obtain ⟨htimer, hext, hfetched⟩ := hw
  refine ⟨h.owned, h.past.trans (Nat.le_succ _), ?_, fun job hjob => ?_, h.recent,
    fun job hjob => ?_, h.locked⟩
  · cases h.phase with
    | closed hc hj ht => exact .closed hc hj ht
    | waiting due ho ht he hdue hn => exact .waiting due ho ht he hdue (htimer due (by simp [ht]))
    | extending e ho ht he hnone hsent hn =>
      exact .extending e ho ht he hnone hsent (hsent ▸ hext e (by simp [he]))
    | extended e failed ho ht he hsome hsent hn =>
      exact .extended e failed ho ht he hsome hsent (hext e (by simp [he]))
  · obtain ⟨hv, hpos, hpast⟩ := h.handed job hjob
    exact ⟨hv, hpos, hpast.trans (Nat.le_succ _)⟩
  · exact ⟨hfetched job hjob, (h.fetched job hjob).2⟩

theorem expiresAfter_fetch {c : Command} {p j : String} {o : FetchOpts}
    (hopts : c.fetchOpts = some (p, o)) (ha : c.activates w.store p = some j) :
    w.expiresAfter c (p ++ j) = w.now + o.lockDuration.toNat := by
  have hfetch : w.expiresAfterFetch c (p ++ j) = w.now + o.lockDuration.toNat := by
    simp only [expiresAfterFetch, hopts, ha, Function.update_self]
  cases c with
  | extendLock p' t d j' => cases hopts
  | extendLocks p' l d => cases hopts
  | _ => exact hfetch

/-- Redis hands a job to the worker. -/
theorem Renewed.hand (job : TrackedJob) (h : w.Renewed Q opts timing fired)
    (hfits : timing.Fits opts) (hjob : w.Handed Q opts job) (hnow : w.now ≤ job.ts + timing.pickup)
    (hlock : w.store .lock (opts.base ++ job.jobId) = some job.token)
    (hexp : w.now + opts.lockDuration ≤ w.expires (opts.base ++ job.jobId)) :
    Renewed Q opts timing fired { w with
      fetched := w.fetched ++ [job]
      held := w.held ++ [(opts.base ++ job.jobId, job.token)] } := by
  set w₁ : LockWorld := { w with
    fetched := w.fetched ++ [job]
    held := w.held ++ [(opts.base ++ job.jobId, job.token)] } with hw₁
  -- An entry that is left of an earlier time with the same token is as good as the new one.
  have hlocked (x : TrackedJob) (bound : ℕ) (hle : bound ≤ w.now + opts.lockDuration)
      (hold : w.Locked opts x bound ∨ x = job) : w₁.Locked opts x bound := by
    intro hheld
    by_cases hpair : (opts.base ++ x.jobId, x.token) = (opts.base ++ job.jobId, job.token)
    · obtain ⟨hkey, htoken⟩ := Prod.mk.inj hpair
      rw [hkey, htoken]
      exact ⟨hlock, hle.trans hexp⟩
    · rcases List.mem_append.mp hheld with hin | hin
      · rcases hold with hold | rfl
        · exact hold hin
        · exact absurd rfl hpair
      · exact absurd (List.mem_singleton.mp hin) hpair
  have hpast (x : TrackedJob) (hx : x ∈ w.manager.trackedJobs ∨ x ∈ w.fetched) :
      x.ts + opts.lockDuration ≤ w.now + opts.lockDuration :=
    Nat.add_le_add_right (h.handed x hx).past _
  refine ⟨h.owned, h.past, h.phase.of_eq rfl rfl rfl rfl fun _ hj => hj, fun x hx => ?_, h.recent,
    fun x hx => ?_, fun x hx => ?_⟩
  · rcases hx with hx | hx
    · obtain ⟨hv, hpos, hp⟩ := h.handed x (.inl hx)
      exact ⟨hv, hpos, hp⟩
    · rcases List.mem_append.mp hx with hx | hx
      · obtain ⟨hv, hpos, hp⟩ := h.handed x (.inr hx)
        exact ⟨hv, hpos, hp⟩
      · obtain rfl := List.mem_singleton.mp hx
        exact ⟨hjob.valid, hjob.pos, hjob.past⟩
  · rcases List.mem_append.mp hx with hx | hx
    · obtain ⟨hn, hl⟩ := h.fetched x hx
      exact ⟨hn, hlocked x _ (hpast x (.inr hx)) (.inl hl)⟩
    · obtain rfl := List.mem_singleton.mp hx
      exact ⟨hnow, hlocked x _ (Nat.add_le_add_right hjob.past _) (.inr rfl)⟩
  · rcases h.locked x hx with hl | ⟨hext, hl⟩
    · exact .inl (hlocked x _ (hpast x (.inl hx)) (.inl hl))
    · have hpast := h.past
      unfold Timing.Fits at hfits
      exact .inr ⟨hext, hlocked x _ (by omega) (.inl hl)⟩

theorem mem_setJob {job x : TrackedJob} {jobs : List TrackedJob}
    (h : x ∈ LockManager.setJob job jobs) : x = job ∨ x ∈ jobs := by
  unfold LockManager.setJob at h
  split at h
  · obtain ⟨other, hother, hx⟩ := List.mem_map.mp h
    split at hx
    · exact .inl hx.symm
    · exact .inr (hx ▸ hother)
  · simpa [or_comm] using h

/-- Fewer jobs are tracked, or one more that had been fetched. -/
theorem Renewed.manage {manager : LockManager} {fetched : List TrackedJob}
    (h : w.Renewed Q opts timing fired) (hclosed : manager.closed = w.manager.closed)
    (htimer : manager.lockRenewalTimer = w.manager.lockRenewalTimer)
    (hfetched : ∀ x ∈ fetched, x ∈ w.fetched)
    (hjobs : ∀ x ∈ manager.trackedJobs, x ∈ w.manager.trackedJobs ∨
      w.manager.closed = false ∧ x ∈ w.fetched) :
    Renewed Q opts timing fired { w with fetched, manager } := by
  have hmem (x : TrackedJob) (hx : x ∈ manager.trackedJobs) :
      x ∈ w.manager.trackedJobs ∨ x ∈ w.fetched := (hjobs x hx).imp_right And.right
  have hmargin : 2 * timing.pickup ≤ timing.margin opts := le_max_right _ _
  refine ⟨h.owned, h.past, h.phase.of_eq rfl rfl hclosed htimer fun hc hj => ?_, fun x hx => ?_,
    fun x hx => ?_, fun x hx => h.fetched x (hfetched x hx), fun x hx => ?_⟩
  · refine List.eq_nil_iff_forall_not_mem.mpr fun x hx => ?_
    rcases hjobs x hx with hx | ⟨hopen, -⟩
    · simp [hj] at hx
    · simp [hc] at hopen
  · have hold := h.handed x (hx.elim (hmem x) fun hx => .inr (hfetched x hx))
    exact ⟨hold.valid, hold.pos, hold.past⟩
  · rcases hmem x hx with hx | hx
    · exact h.recent x hx
    · have hle := (h.fetched x hx).1
      have hpast := h.past
      omega
  · rcases hmem x hx with hx | hx
    · exact h.locked x hx
    · exact .inl (h.fetched x hx).2

theorem Renewed.track {job : TrackedJob} (h : w.Renewed Q opts timing fired)
    (hjob : job ∈ w.fetched) :
    Renewed Q opts timing fired { w with
      fetched := w.fetched.erase job
      manager := w.manager.trackJob job } := by
  refine h.manage ?_ ?_ (fun x => List.mem_of_mem_erase) fun x hx => ?_
  · unfold LockManager.trackJob
    split <;> rfl
  · unfold LockManager.trackJob
    split <;> rfl
  · unfold LockManager.trackJob at hx
    split at hx
    next hopen =>
      rcases mem_setJob hx with rfl | hx
      · exact .inr ⟨by simpa using hopen.1, hjob⟩
      · exact .inl hx
    next => exact .inl hx

theorem Renewed.untrack (h : w.Renewed Q opts timing fired) (jobId : String) :
    Renewed Q opts timing fired { w with manager := w.manager.untrackJob jobId } :=
  h.manage rfl rfl (fun _ => id) fun _ hx => .inl (List.mem_of_mem_filter hx)

theorem Renewed.close (h : w.Renewed Q opts timing fired) :
    Renewed Q opts timing fired { w with manager := w.manager.close } := by
  by_cases hclosed : w.manager.closed = true
  · have hsame : w.manager.close = w.manager := by simp [LockManager.close, hclosed]
    rw [hsame]
    exact h
  · have hnew : w.manager.close =
        { trackedJobs := [], lockRenewalTimer := none, closed := true } := by
      simp [LockManager.close, hclosed]
    rw [hnew]
    refine ⟨h.owned, h.past, .closed rfl rfl rfl, fun x hx => ?_, by simp, h.fetched, by simp⟩
    have hold := h.handed x (.inr (by simpa using hx))
    exact ⟨hold.valid, hold.pos, hold.past⟩

/-- What becomes of a deduplication key is of no importance. -/
theorem Renewed.deduplicationKey {c : QueueCommand} {r : Reply × Store}
    (h : w.Renewed Q opts timing fired) (hc : c.Owner Q w.store) (hwrites : c.writes = [.de])
    (hexec : c.exec w.store = some r) : Renewed Q opts timing fired { w with store := r.2 } := by
  have hlock : r.2 .lock = w.store .lock := QueueCommand.exec_frame hexec (by rw [hwrites]; decide)
  have hlocked : ∀ {job bound}, w.Locked opts job bound →
      Locked opts { w with store := r.2 } job bound := fun h hheld => by
    dsimp only
    rw [hlock]
    exact h hheld
  refine ⟨h.owned.queueExec hc hexec, h.past,
    h.phase.of_eq rfl rfl rfl rfl fun _ hj => hj, fun job hjob => ?_, h.recent,
    fun job hjob => (h.fetched job hjob).imp id hlocked, fun job hjob => ?_⟩
  · have hold := h.handed job hjob
    exact ⟨hold.valid, hold.pos, hold.past⟩
  · exact (h.locked job hjob).imp hlocked (.imp id hlocked)

/-- The timer fires: what is due is touched now, and its lock lasts until Redis has the call. -/
theorem Renewed.touched (h : w.Renewed Q opts timing fired) (hfits : timing.Fits opts) {due : ℕ}
    (htimer : w.manager.lockRenewalTimer = some due) {x : TrackedJob}
    (hx : x ∈ w.manager.trackedJobs) :
    w.manager.closed = false ∧ w.Locked opts x (x.ts + opts.lockDuration) ∧
      if LockManager.isDue opts.lockRenewTime w.now x then
        LockManager.touch opts.lockRenewTime w.now x = { x with ts := w.now } ∧
          w.now + timing.hop ≤ x.ts + opts.lockDuration
      else LockManager.touch opts.lockRenewTime w.now x = x ∧
        2 * w.now ≤ 2 * x.ts + opts.lockRenewTime := by
  -- While the timer is set, no extension is on its way.
  have hext : w.manager.closed = false ∧ w.extension = none := by
    cases h.phase with
    | closed hc hj ht => simp [ht] at htimer
    | waiting due ho ht he hdue hn => exact ⟨ho, he⟩
    | extending e ho ht he hnone hsent hn => simp [ht] at htimer
    | extended e failed ho ht he hsome hsent hn => simp [ht] at htimer
  have hpos := (h.handed x (.inl hx)).pos
  refine ⟨hext.1, (h.locked x hx).resolve_right fun ⟨⟨e, he, _⟩, _⟩ => by simp [hext.2] at he, ?_⟩
  by_cases hdue : LockManager.isDue opts.lockRenewTime w.now x = true
  · have hnow := h.phase.now_le (List.ne_nil_of_mem hx)
    have hrecent := h.recent x hx
    unfold Timing.Fits at hfits
    rw [if_pos hdue]
    exact ⟨by simp [LockManager.touch, hdue], by omega⟩
  · have hts : x.ts ≠ 0 := by omega
    rw [if_neg hdue]
    simp only [LockManager.isDue, bne_iff_ne, ne_eq, hts, not_false_eq_true, Bool.and_eq_true,
      decide_eq_true_eq, true_and, not_lt] at hdue
    refine ⟨?_, by omega⟩
    have hnot : ¬ 2 * x.ts + opts.lockRenewTime < 2 * w.now := by omega
    simp [LockManager.touch, LockManager.isDue, hts, hnot]

theorem Renewed.fire (h : w.Renewed Q opts timing fired) (hfits : timing.Fits opts)
    (hw : w.fire opts = some w') : w'.Renewed Q opts timing w'.now := by
  rcases htimer : w.manager.lockRenewalTimer with _ | due
  · simp [LockWorld.fire, htimer] at hw
  simp only [LockWorld.fire, htimer] at hw
  split at hw
  next hdue =>
    have hmargin : opts.lockRenewTime ≤ timing.margin opts := le_max_left _ _
    have hold (x : TrackedJob) (hx : x ∈ w.manager.trackedJobs) :
        Handed Q opts w (LockManager.touch opts.lockRenewTime w.now x) ∧ 2 * w.now ≤
          2 * (LockManager.touch opts.lockRenewTime w.now x).ts + timing.margin opts := by
      obtain ⟨hv, hpos, hpast⟩ := h.handed x (.inl hx)
      obtain ⟨-, -, htouch⟩ := h.touched hfits htimer hx
      split at htouch
      · rw [htouch.1]
        exact ⟨⟨hv, by dsimp only; omega, le_rfl⟩, Nat.le_add_right _ _⟩
      · rw [htouch.1]
        exact ⟨⟨hv, hpos, hpast⟩, by omega⟩
    have hhanded (x : TrackedJob) (hx : x ∈ w.manager.trackedJobs.map
        (LockManager.touch opts.lockRenewTime w.now) ∨ x ∈ w.fetched) : w.Handed Q opts x := by
      rcases hx with hx | hx
      · obtain ⟨y, hy, rfl⟩ := List.mem_map.mp hx
        exact (hold y hy).1
      · exact h.handed x (.inr hx)
    have hrecent (x : TrackedJob) (hx : x ∈ w.manager.trackedJobs.map
        (LockManager.touch opts.lockRenewTime w.now)) :
        2 * w.now ≤ 2 * x.ts + timing.margin opts := by
      obtain ⟨y, hy, rfl⟩ := List.mem_map.mp hx
      exact (hold y hy).2
    have hphase : w.manager.closed = true ∧ w.manager.lockRenewalTimer = none ∨
        w.manager.closed = false ∧ w.extension = none := by
      cases h.phase with
      | closed hc hj ht => exact .inl ⟨hc, ht⟩
      | waiting due ho ht he hdue hn => exact .inr ⟨ho, he⟩
      | extending e ho ht he hnone hsent hn => simp [ht] at htimer
      | extended e failed ho ht he hsome hsent hn => simp [ht] at htimer
    obtain ⟨hopen, hext⟩ := hphase.resolve_left fun hc => by simp [htimer] at hc
    split at hw
    next hnil =>
      -- Nothing is due, and the timer is started again.
      obtain rfl := Option.some.inj hw
      refine ⟨h.owned, le_rfl, ?_, fun x hx => ?_, hrecent, h.fetched, fun x hx => ?_⟩
      · exact .waiting (w.now + LockManager.timeout opts.lockRenewTime) hopen
          (by simp [LockManager.startLockExtenderTimer, hopen]) hext (by dsimp only; omega)
          (by dsimp only; omega)
      · obtain ⟨hv, hpos, hpast⟩ := hhanded x hx
        exact ⟨hv, hpos, hpast⟩
      · obtain ⟨y, hy, rfl⟩ := List.mem_map.mp hx
        obtain ⟨-, hlocked, htouch⟩ := h.touched hfits htimer hy
        have hnot : ¬ LockManager.isDue opts.lockRenewTime w.now y = true := by
          simp only [LockManager.jobsToExtend, List.map_eq_nil_iff, List.filter_eq_nil_iff] at hnil
          exact hnil y hy
        rw [if_neg hnot] at htouch
        rw [htouch.1]
        exact .inl hlocked
    next hne =>
      obtain rfl := Option.some.inj hw
      refine ⟨h.owned, le_rfl, ?_, fun x hx => ?_, hrecent, h.fetched, fun x hx => ?_⟩
      · exact .extending _ hopen rfl rfl rfl rfl (Nat.le_add_right _ _)
      · obtain ⟨hv, hpos, hpast⟩ := hhanded x hx
        exact ⟨hv, hpos, hpast⟩
      · obtain ⟨y, hy, rfl⟩ := List.mem_map.mp hx
        obtain ⟨-, hlocked, htouch⟩ := h.touched hfits htimer hy
        split at htouch
        next hisdue =>
          rw [htouch.1]
          refine .inr ⟨⟨_, rfl, rfl, ?_⟩, fun hheld => ?_⟩
          · exact List.mem_map.mpr ⟨y, List.mem_filter.mpr ⟨hy, hisdue⟩, rfl⟩
          · obtain ⟨hlock, hle⟩ := hlocked hheld
            exact ⟨hlock, htouch.2.trans hle⟩
        next =>
          rw [htouch.1]
          exact .inl hlocked
  next => cases hw

/-- The call reaches Redis: the locks last for `lockDuration` from now on. -/
theorem Renewed.extend (h : w.Renewed Q opts timing fired) (hfits : timing.Fits opts)
    (hw : w.extend opts = some w') : w'.Renewed Q opts timing fired := by
  unfold LockWorld.extend at hw
  split at hw
  next locks sentAt hext =>
    obtain ⟨⟨reply, w₁⟩, hexec, rfl⟩ := Option.map_eq_some_iff.mp hw
    have hcommand :
        RenewalCommand Q opts w.store (.extendLocks opts.base locks opts.lockDuration) :=
      ⟨.intro trivial ⟨fun _ _ _ hf => (by cases hf), fun _ _ ho => (by cases ho)⟩
        fun _ _ ha => (by cases ha), fun d hd => by cases hd; exact le_rfl⟩
    have h₁ := h.exec hfits hcommand hexec
    obtain ⟨r, hr, hreply, hw₁, -⟩ := exec_eq hexec
    have hnow : w₁.now = w.now := by rw [hw₁]
    have hman : w₁.manager = w.manager := by rw [hw₁]
    have hext₁ : w₁.extension = w.extension := by rw [hw₁]
    refine ⟨h₁.owned, h₁.past, ?_, fun x hx => ?_, h₁.recent, h₁.fetched, fun x hx => .inl ?_⟩
    · cases h₁.phase with
      | closed hc hj ht => exact .closed hc hj ht
      | waiting due ho ht he hdue hn => simp [hext₁, hext] at he
      | extending e ho ht he hnone hsent hn =>
        exact .extended _ _ ho ht rfl rfl hn (Nat.le_add_right _ _)
      | extended e failed ho ht he hsome hsent hn =>
        rw [hext₁, hext] at he
        obtain rfl := Option.some.inj he
        cases hsome
    · have hold := h₁.handed x hx
      exact ⟨hold.valid, hold.pos, hold.past⟩
    · rcases h₁.locked x hx with hlocked | ⟨⟨e, he, -, hmem⟩, -⟩
      · exact hlocked
      · intro hheld
        have hpast := (h₁.handed x (.inl hx)).past
        have hlock := (h₁.lasts hfits hx hheld).1
        have hheld₀ : (opts.base ++ x.jobId, x.token) ∈ w.held := by
          rw [hw₁] at hheld
          exact (List.mem_filter.mp hheld).1
        have hlock₀ := (h.lasts hfits (hman ▸ hx) hheld₀).1
        have hexp : w₁.expires (opts.base ++ x.jobId) =
            w.now + (opts.lockDuration : ℤ).toNat := by
          rw [hw₁]
          refine (foldl_expires opts.base w.now _ w.store locks w.expires _).2
            ⟨(x.token, x.jobId), ?_, rfl, hlock₀⟩
          rw [hext₁, hext] at he
          obtain rfl := Option.some.inj he
          exact hmem
        refine ⟨hlock, ?_⟩
        dsimp only
        rw [hexp, Int.toNat_natCast]
        omega
  next => cases hw

theorem Renewed.extended (h : w.Renewed Q opts timing fired)
    (hw : w.extended opts = some w') : w'.Renewed Q opts timing fired := by
  unfold LockWorld.extended at hw
  split at hw
  next locks sentAt failed hext =>
    obtain rfl := Option.some.inj hw
    have hno (x : TrackedJob) : ¬ w.Extending x := by
      rintro ⟨e, he, hnone, -⟩
      rw [hext] at he
      obtain rfl := Option.some.inj he
      cases hnone
    refine ⟨h.owned, h.past, ?_, fun x hx => ?_, h.recent, h.fetched, fun x hx =>
      .inl ((h.locked x hx).resolve_right fun he => hno x he.1)⟩
    · cases h.phase with
      | closed hc hj ht => exact .closed hc hj (by simp [LockManager.startLockExtenderTimer, hc])
      | waiting due ho ht he hdue hn => simp [hext] at he
      | extending e ho ht he hnone hsent hn =>
        rw [hext] at he
        obtain rfl := Option.some.inj he
        cases hnone
      | extended e failed ho ht he hsome hsent hn =>
        rw [hext] at he
        obtain rfl := Option.some.inj he
        refine .waiting (w.now + LockManager.timeout opts.lockRenewTime) ho
          (by simp [LockManager.startLockExtenderTimer, ho]) rfl ?_ (by dsimp only; omega)
        dsimp only at hsent hn ⊢
        omega
    · have hold := h.handed x hx
      exact ⟨hold.valid, hold.pos, hold.past⟩
  next => cases hw

/-- Redis executes a call of the worker that fetches a job. -/
theorem Renewed.fetch {c : Command} (h : w.Renewed Q opts timing fired) (hfits : timing.Fits opts)
    (hc : RenewalCommand Q opts w.store c) (hw : w.fetch opts timing c = some w') :
    w'.Renewed Q opts timing fired := by
  unfold LockWorld.fetch at hw
  split at hw
  next => cases hw
  next p o hopts =>
    obtain ⟨⟨rfl, htoken, hduration, hpos, hpast, hpickup⟩, hmap⟩ :=
      Option.ite_none_right_eq_some.mp hw
    obtain ⟨⟨reply, w₁⟩, hexec, hres⟩ := Option.map_eq_some_iff.mp hmap
    -- First the command as any other, then the job that it hands out.
    have h₁ := h.exec hfits hc hexec
    obtain ⟨r, hr, hreply, hw₁, -⟩ := exec_eq hexec
    dsimp only at hres
    split at hres
    next data j =>
      obtain ⟨ha, hlock⟩ := Command.exec_job hr hopts htoken hreply.symm
      have hvalid := h.owned.activates_valid hc.owner hr ha
      have hexp := expiresAfter_fetch hopts ha
      rw [← hres]
      refine h₁.hand ⟨j, o.token, c.fetchTimestamp.toNat⟩ hfits ⟨hvalid, hpos, ?_⟩ ?_ ?_ ?_
      · rw [hw₁]
        exact hpast
      · rw [hw₁]
        exact hpickup
      · rw [hw₁]
        exact hlock
      · rw [hw₁]
        dsimp only
        rw [hexp, hduration, Int.toNat_natCast]
    next => exact hres ▸ h₁

end Steps

end LockWorld

/-! ### Runs -/

/-- The command of an action is of the kind considered. -/
def LockAction.Allowed (Q : QueueSet) (opts : LockManagerOptions) (s : Store) : LockAction → Prop
  | command c => RenewalCommand Q opts s c
  | fetch c => RenewalCommand Q opts s c
  | _ => True

namespace LockWorld

/-- Each action is allowed where it happens. -/
def AllowsAll (Q : QueueSet) (opts : LockManagerOptions) (timing : Timing) (w : LockWorld) :
    List LockAction → Prop
  | [] => True
  | a :: actions => a.Allowed Q opts w.store ∧
    ∀ w₁, w.step opts timing a = some w₁ → AllowsAll Q opts timing w₁ actions

theorem AllowsAll.of_forall {actions : List LockAction} (w : LockWorld)
    (h : ∀ a ∈ actions, ∀ s, a.Allowed Q opts s) : w.AllowsAll Q opts timing actions := by
  induction actions generalizing w with
  | nil => exact trivial
  | cons a actions ih =>
    exact ⟨h a List.mem_cons_self _, fun w₁ _ => ih w₁ fun b hb => h b (List.mem_cons_of_mem _ hb)⟩

variable {w w' : LockWorld}

theorem Renewed.step {fired : ℕ} {a : LockAction} (h : w.Renewed Q opts timing fired)
    (hfits : timing.Fits opts) (ha : a.Allowed Q opts w.store)
    (hw : w.step opts timing a = some w') :
    ∃ fired', w'.Renewed Q opts timing fired' := by
  cases a with
  | elapse =>
    obtain ⟨hmay, rfl⟩ := Option.ite_some_none_eq_some.mp hw
    exact ⟨fired, h.elapse hmay⟩
  | command c =>
    obtain ⟨⟨reply, w₁⟩, hexec, rfl⟩ := Option.map_eq_some_iff.mp hw
    exact ⟨fired, h.exec hfits ha hexec⟩
  | fetch c => exact ⟨fired, h.fetch hfits ha hw⟩
  | track job =>
    obtain ⟨hjob, rfl⟩ := Option.ite_some_none_eq_some.mp hw
    exact ⟨fired, h.track hjob⟩
  | untrack jobId =>
    obtain rfl := Option.some.inj hw
    exact ⟨fired, h.untrack jobId⟩
  | fire => exact ⟨w'.now, h.fire hfits hw⟩
  | extend => exact ⟨fired, h.extend hfits hw⟩
  | extended => exact ⟨fired, h.extended hw⟩
  | close =>
    obtain rfl := Option.some.inj hw
    exact ⟨fired, h.close⟩
  | expireDeduplicationKey p d =>
    obtain rfl := Option.some.inj hw
    exact ⟨fired, h.deduplicationKey (c := .expireDeduplicationKey p d) trivial rfl rfl⟩
  | elapseDeduplicationKey p d ms =>
    obtain rfl := Option.some.inj hw
    exact ⟨fired, h.deduplicationKey (c := .elapseDeduplicationKey p d ms) trivial rfl rfl⟩

theorem Renewed.run {actions : List LockAction} (hfits : timing.Fits opts)
    (ha : w.AllowsAll Q opts timing actions) (h : ∃ fired, w.Renewed Q opts timing fired)
    (hrun : w.run opts timing actions = some w') : ∃ fired, w'.Renewed Q opts timing fired := by
  induction actions generalizing w with
  | nil =>
    obtain rfl : w = w' := Option.some.inj hrun
    exact h
  | cons a actions ih =>
    obtain ⟨w₁, hstep, hrest⟩ : ∃ w₁, w.step opts timing a = some w₁ ∧
        w₁.run opts timing actions = some w' := Option.bind_eq_some_iff.mp hrun
    obtain ⟨fired, hfired⟩ := h
    exact ih (ha.2 w₁ hstep) (hfired.step hfits ha.1 hstep) hrest

theorem start_renewed {s : Store} (hs : Owned Q s) (hrenew : 0 < opts.lockRenewTime) (now : ℕ)
    (expires : String → ℕ) : (start opts now s expires).Renewed Q opts timing now := by
  have hman : LockManager.start opts.lockRenewTime now {} =
      { lockRenewalTimer := some (now + LockManager.timeout opts.lockRenewTime) } := by
    simp [LockManager.start, LockManager.startLockExtenderTimer, hrenew]
  refine ⟨hs, le_rfl, ?_, ?_, ?_, ?_, ?_⟩
  · exact .waiting (now + LockManager.timeout opts.lockRenewTime) (by simp [start, hman])
      (by simp [start, hman]) rfl (by omega) (by simp only [start]; omega)
  all_goals simp [start, hman]

end LockWorld

/-- **A live worker keeps its locks.** A worker starts on a queue in any state, and other clients
do what they like with the scripts that add and process jobs: with real tokens, without removals on
request, without extending a lock by less than `lockDuration`, and as long as no kept successor is
requeued under a given id that a job has. As long as timers and messages are not later than `Timing`
says, with `margin + 2 * period + 2 * hop` at most twice `lockDuration`, a job that the lock manager
tracks has its lock, which has not expired, and is active: it is never reclaimed as stalled, until a
finishing call with its token is made. -/
theorem live_worker_keeps_locks {s : Store} {now : ℕ} {expires : String → ℕ}
    {actions : List LockAction} {w : LockWorld} {job : TrackedJob}
    (hs : QueueReachable (fun s c => c.Owner Q s) .empty s) (hrenew : 0 < opts.lockRenewTime)
    (hfits : timing.Fits opts)
    (ha : (LockWorld.start opts now s expires).AllowsAll Q opts timing actions)
    (hrun : (LockWorld.start opts now s expires).run opts timing actions = some w)
    (hjob : job ∈ w.manager.trackedJobs) (hheld : (opts.base ++ job.jobId, job.token) ∈ w.held) :
    w.store .lock (opts.base ++ job.jobId) = some job.token ∧
      w.now ≤ w.expires (opts.base ++ job.jobId) ∧
      job.jobId ∈ w.store (.list .active) opts.base := by
  have hstart : (LockWorld.start opts now s expires).Renewed Q opts timing now :=
    LockWorld.start_renewed (Owned.of_reachable hs) hrenew now expires
  obtain ⟨fired, h⟩ := LockWorld.Renewed.run hfits ha ⟨now, hstart⟩ hrun
  obtain ⟨hlock, hnow⟩ := h.lasts hfits hjob hheld
  obtain ⟨p, j, hv, hkey, hactive⟩ := h.owned.locked (k := opts.base ++ job.jobId) (by simp [hlock])
  obtain ⟨rfl, rfl⟩ := Q.keySpace.inj (h.handed job (.inl hjob)).valid hv hkey
  exact ⟨hlock, hnow, hactive⟩

/-- A worker fetches a job, whose lock would last until 9, and renews it at 5 and at 9. -/
def renewals : List LockAction :=
  [.command (.addStandardJob "bull:q:" { name := "n", data := "", timestamp := 1 }),
   .fetch (.moveToActive "bull:q:" 1 { token := "A:0", lockDuration := 8 }),
   .track ⟨"1", "A:0", 1⟩, .elapse, .elapse, .fire, .elapse, .elapse, .fire, .extend, .extended,
   .elapse, .elapse, .fire, .elapse, .elapse, .fire, .extend, .extended, .elapse]

theorem live_worker_keeps_locks_sample :
    ∃ w, (LockWorld.start ⟨"bull:q:", 4, 8⟩ 1 .empty fun _ => 0).run ⟨"bull:q:", 4, 8⟩ ⟨0, 1, 1⟩
        renewals = some w ∧ w.now = 10 ∧ w.store .lock "bull:q:1" = some "A:0" ∧
      "1" ∈ w.store (.list .active) "bull:q:" := by
  have hsome : ((LockWorld.start ⟨"bull:q:", 4, 8⟩ 1 .empty fun _ => 0).run ⟨"bull:q:", 4, 8⟩
      ⟨0, 1, 1⟩ renewals).isSome = true := by decide +kernel
  obtain ⟨w, hrun⟩ := Option.isSome_iff_exists.mp hsome
  have hstate : ((LockWorld.start ⟨"bull:q:", 4, 8⟩ 1 .empty fun _ => 0).run ⟨"bull:q:", 4, 8⟩
      ⟨0, 1, 1⟩ renewals).map (fun w => (w.now, w.manager.trackedJobs, w.held)) =
      some (10, [⟨"1", "A:0", 9⟩], [("bull:q:1", "A:0")]) := by decide +kernel
  rw [hrun] at hstate
  obtain ⟨hnow, hrest⟩ := Prod.mk.inj (Option.some.inj hstate)
  obtain ⟨hjobs, hheld⟩ := Prod.mk.inj hrest
  have hqueue : (QueueSet.ofPrefix "bull").Base "bull:q:" := ⟨"q", by decide, rfl⟩
  have hallowed : ∀ a ∈ renewals, ∀ s, a.Allowed (.ofPrefix "bull") ⟨"bull:q:", 4, 8⟩ s := by
    intro a ha s
    simp only [renewals, List.mem_cons, List.not_mem_nil, or_false] at ha
    rcases ha with rfl | rfl | rfl | rfl | rfl | rfl | rfl | rfl | rfl | rfl | rfl | rfl | rfl |
      rfl | rfl | rfl | rfl | rfl | rfl | rfl
    · exact ⟨.intro ⟨hqueue, fun h => absurd rfl h⟩
        ⟨fun _ _ _ h => (by cases h), fun _ _ h => (by cases h)⟩ fun _ _ h => (by cases h),
        fun _ h => (by cases h)⟩
    · exact ⟨.intro trivial ⟨fun _ _ _ h => (by cases h), fun _ _ h => (by cases h; decide)⟩
        fun _ _ h => (by cases h), fun _ h => (by cases h)⟩
    all_goals trivial
  have hjob : (⟨"1", "A:0", 9⟩ : TrackedJob) ∈ w.manager.trackedJobs := by simp [hjobs]
  obtain ⟨hlock, -, hactive⟩ := live_worker_keeps_locks (.refl _) (by decide)
    (by unfold Timing.Fits; decide) (.of_forall _ hallowed) hrun hjob (by rw [hheld]; decide)
  exact ⟨w, hrun, hnow, hlock, hactive⟩

end BullMQ
