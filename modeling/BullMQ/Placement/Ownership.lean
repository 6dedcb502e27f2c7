import BullMQ.Model.Activation

/-!
# Who owns an active job

Ownership of a job is spread over three keys: its lock, the active list and the stalled set.
`OwnerStep` says what a command with real tokens does to the three, in terms of the activation it
ends (`Command.ends`), the lock it extends (`Command.extends`) and the job it hands out
(`Command.activates`); that what is marked as stalled is active (`MarksActive`) is all it takes.
The stalled check, which does more, is the subject of `BullMQ.Placement.StalledCheck`.
-/

namespace BullMQ

open Redis

variable {s s' s'' : Store} {p j : String}

/-! ### What a command is about -/

/-- The queue, the id and the token of a finishing call. -/
def Command.finishing : Command → Option (String × String × String)
  | moveToFinished p a => some (p, a.jobId, a.opts.token)
  | moveToDelayed p a => some (p, a.jobId, a.token)
  | moveToWaitingChildren p j t _ _ => some (p, j, t)
  | retryJob p a => some (p, a.jobId, a.token)
  | moveJobFromActiveToWait p j t => some (p, j, t)
  | _ => none

/-- A command ends the activation of a job: it is a finishing call that is carried out. -/
def Command.ends (c : Command) (s : Store) (p j : String) : Prop :=
  match c with
  | moveToFinished q a => q = p ∧ a.jobId = j ∧ FinishesJob s q a
  | moveToDelayed q a => q = p ∧ a.jobId = j ∧ GivesUp s q a.jobId a.token
  | moveToWaitingChildren q i t k ts => q = p ∧ i = j ∧ GivesUp s q i t ∧
      (Script.moveToWaitingChildren q i t k ts s).1 = .code 0
  | retryJob q a =>
    -- The due delayed jobs are promoted first.
    q = p ∧ a.jobId = j ∧ GivesUp (promoteDelayedJobs q a.timestamp (isQueuePausedOrMaxed q s) s)
      q a.jobId a.token
  | moveJobFromActiveToWait q i t => q = p ∧ i = j ∧ GivesUp s q i t
  | _ => False

/-- A command extends the lock of a job. -/
def Command.extends (c : Command) (s : Store) (p j : String) : Prop :=
  match c with
  | extendLock q t d i => q = p ∧ i = j ∧ s .lock (q ++ i) = some t ∧ 0 < d
  | extendLocks q locks d => q = p ∧ ∃ t, (t, j) ∈ locks ∧ s .lock (q ++ j) = some t ∧ 0 < d
  | _ => False

/-- A command hands a job out under a token. -/
def Command.hands (c : Command) (s : Store) (p j t : String) : Prop :=
  c.activates s p = some j ∧ ∃ o, c.fetchOpts = some (p, o) ∧ o.token = t

/-- Every token is a real one. -/
def Command.RealTokens (c : Command) : Prop :=
  (∀ p j t, c.finishing = some (p, j, t) → t ≠ "0") ∧
    ∀ p o, c.fetchOpts = some (p, o) → o.token ≠ "0"

/-! ### The invariant -/

/-- A job in the stalled set of a queue is active in it. -/
def MarksActive (s : Store) : Prop := ∀ {p j}, j ∈ s .stalled p → j ∈ s (.list .active) p

/-- What a command that is no stalled check does to locks, active lists and stalled sets. -/
structure OwnerStep (c : Command) (s s' : Store) : Prop where
  lock : ∀ {k t}, s' .lock k = some t →
    (s .lock k = some t ∧ ∀ p j, c.ends s p j → k ≠ p ++ j) ∨
      ∃ p j, c.hands s p j t ∧ k = p ++ j
  active : ∀ {q i}, i ∈ s (.list .active) q ∧ ¬ c.ends s q i ∨ c.activates s q = some i →
    i ∈ s' (.list .active) q
  stalled : ∀ q i, i ∈ s' .stalled q ↔
    i ∈ s .stalled q ∧ ¬ c.ends s q i ∧ ¬ c.extends s q i

/-- What is marked stays active. -/
theorem OwnerStep.marksActive {c : Command} (hstep : OwnerStep c s s') (h : MarksActive s) :
    MarksActive s' := fun {p j} hj => by
  obtain ⟨hst, hends, -⟩ := (hstep.stalled p j).mp hj
  exact hstep.active (.inl ⟨h hst, hends⟩)

/-! ### The parts of a finishing call -/

/-- The three keys are as they were. -/
structure SameOwners (s s' : Store) : Prop where
  lock : s' .lock = s .lock
  active : s' (.list .active) = s (.list .active)
  stalled : s' .stalled = s .stalled

theorem SameOwners.of_frame {W : List Kind}
    (hW : Kind.lock ∉ W ∧ Kind.list .active ∉ W ∧ Kind.stalled ∉ W)
    (hs : ∀ {κ}, κ ∉ W → s' κ = s κ) :
    SameOwners s s' :=
  ⟨hs hW.1, hs hW.2.1, hs hW.2.2⟩

/-- The activation of a job has ended. -/
structure Ended (p j : String) (s s' : Store) : Prop where
  lock : ∀ {k t}, s' .lock k = some t → s .lock k = some t ∧ k ≠ p ++ j
  active : ∀ {q i}, i ∈ s (.list .active) q → ¬ (q = p ∧ i = j) → i ∈ s' (.list .active) q
  stalled : ∀ q i, i ∈ s' .stalled q ↔ i ∈ s .stalled q ∧ ¬ (q = p ∧ i = j)

/-- A job has been handed out, if one was popped. -/
structure Handed (p token : String) (popped : Option String) (s s' : Store) : Prop where
  lock : ∀ {k t}, s' .lock k = some t →
    s .lock k = some t ∨ ∃ j, popped = some j ∧ k = p ++ j ∧ t = token
  active : ∀ q i, i ∈ s' (.list .active) q ↔
    i ∈ s (.list .active) q ∨ q = p ∧ popped = some i
  stalled : s' .stalled = s .stalled

theorem SameOwners.refl (s : Store) : SameOwners s s := ⟨rfl, rfl, rfl⟩

theorem Ended.same_left (hs : SameOwners s s') (h : Ended p j s' s'') : Ended p j s s'' where
  lock hk := hs.lock ▸ h.lock hk
  active hi := h.active (hs.active.symm ▸ hi)
  stalled q i := by rw [h.stalled, hs.stalled]

theorem Ended.same_right (h : Ended p j s s') (hs : SameOwners s' s'') : Ended p j s s'' where
  lock hk := h.lock (hs.lock ▸ hk)
  active hi hne := hs.active ▸ h.active hi hne
  stalled q i := by rw [hs.stalled, h.stalled]

/-- What `removeLock` does for the owner: the lock is gone and the job is unmarked. -/
theorem removeLock_owner {t : String} (ht : t ≠ "0") (hl : s .lock (p ++ j) = some t) :
    removeLock p j t s = (0, (s.set .lock (p ++ j) none).modify .stalled p (·.srem j)) := by
  simp [removeLock, ht, hl]

/-- The owner gives up a job. -/
theorem ended_of_remove {t : String} {f : List String → List String} (ht : t ≠ "0")
    (hl : s .lock (p ++ j) = some t) (hf : ∀ {l i}, i ∈ l → i ≠ j → i ∈ f l) :
    Ended p j s ((removeLock p j t s).2.modify (.list .active) p f) := by
  rw [removeLock_owner ht hl]
  refine ⟨fun {k t'} hk => ?_, fun {q i} hi hne => ?_, fun q i => ?_⟩
  · rw [Keyspace.modify_of_ne _ (by decide), Keyspace.modify_of_ne _ (by decide),
      Keyspace.set_self, Function.update_apply] at hk
    split at hk
    · cases hk
    · next hne => exact ⟨hk, hne⟩
  · rw [Keyspace.modify_self, Keyspace.modify_of_ne _ (by decide), Keyspace.set_of_ne _ (by decide),
      Function.update_apply]
    split
    · next hq =>
      subst hq
      exact hf hi fun heq => hne ⟨rfl, heq⟩
    · exact hi
  · rw [Keyspace.modify_of_ne _ (by decide), Keyspace.modify_self, Keyspace.set_of_ne _ (by decide),
      Function.update_apply]
    split
    · next hq =>
      subst hq
      simp [and_comm]
    · next hq => simp [hq]

theorem ended_of_leftActive {t : String} (ht : t ≠ "0") (hl : s .lock (p ++ j) = some t)
    (f : Option FieldsToUpdate) : Ended p j s (leftActive p j t f s) := by
  have hmain := ended_of_remove ht hl (f := lremRight j) fun hi hne => mem_lremRight_of_ne hne hi
  refine hmain.same_right ⟨?_, ?_, ?_⟩
  · rw [leftActive, Keyspace.modify_of_ne _ (by decide), Keyspace.modify_of_ne _ (by decide),
      releasedJob, updateJobFields_frame _ _ _ (by decide)]
  · rw [leftActive, Keyspace.modify_self, Keyspace.modify_self, releasedJob,
      updateJobFields_frame _ _ _ (by decide)]
  · rw [leftActive, Keyspace.modify_of_ne _ (by decide), Keyspace.modify_of_ne _ (by decide),
      releasedJob, updateJobFields_frame _ _ _ (by decide)]

/-! ### Fetching -/

theorem prepareJobForProcessing_lock {o : FetchOpts} {ts : ℤ} {m d : Option ℤ} {k t : String}
    (h : (prepareJobForProcessing p j ts m d o s).2 .lock k = some t) :
    s .lock k = some t ∨ k = p ++ j ∧ t = o.token := by
  have hcount : (countActivation m d p s).2 .lock = s .lock :=
    countActivation_frame m d p s (by decide)
  rcases hres : countActivation m d p s with ⟨counted, s₁⟩
  rw [hres] at hcount
  simp only [prepareJobForProcessing, hres] at h
  split at h
  · exact .inl (hcount ▸ h)
  · rw [addBaseMarkerIfNeeded_frame _ _ _ (by decide), Store.hset_of_ne _ _ _ (by decide),
      Store.hset_of_ne _ _ _ (by decide), Store.xadd_of_ne _ _ _ (by decide)] at h
    split at h
    · rw [Keyspace.set_self, Function.update_apply] at h
      split at h
      · next hk => exact .inr ⟨hk, (Option.some.inj h).symm⟩
      · exact .inl (hcount ▸ h)
    · exact .inl (hcount ▸ h)

theorem Handed.same (h : SameOwners s s') (p token : String) : Handed p token none s s' where
  lock hk := .inl (h.lock ▸ hk)
  active q i := by simp [h.active]
  stalled := h.stalled

theorem Handed.same_right {t : String} {popped : Option String} (h : Handed p t popped s s')
    (hs : SameOwners s' s'') : Handed p t popped s s'' where
  lock hk := h.lock (hs.lock ▸ hk)
  active q i := by rw [hs.active, h.active]
  stalled := hs.stalled.trans h.stalled

theorem handed_of_fetchWith {pop : String → Store → Popped × Store}
    (hactive : ∀ s, (pop p s).2 (.list .active) = (pop p s).1.activeAfter p (s (.list .active)))
    (hframe : ∀ s κ, κ ∉ popWrites → (pop p s).2 κ = s κ) (ts : ℤ) (o : FetchOpts) (s : Store) :
    Handed p o.token (fetchPops pop p ts o s) s (fetchWith pop p ts o s).2 := by
  refine ⟨fun {k t} hk => ?_, fun q i => ?_, fetchWith_frame hframe ts o s (by decide)⟩
  · have hstart : (startFetch p ts o s).2 .lock = s .lock := startFetch_frame p ts o s (by decide)
    obtain ⟨e, -, hres⟩ | ⟨hexp, hmax, hres⟩ := fetchWith_cases pop p ts o s
    · rw [hres, hstart] at hk
      exact .inl hk
    · have hpop : (pop p (startFetch p ts o s).2).2 .lock = s .lock := by
        rw [hframe _ _ (by decide), hstart]
      rw [hres] at hk
      simp only [takeJob] at hk
      -- Only a popped id is prepared, and its lock is set to the token of the fetch.
      split at hk
      · next i hi =>
        rcases prepareJobForProcessing_lock hk with hk | ⟨rfl, rfl⟩
        · exact .inl (hpop ▸ hk)
        · exact .inr ⟨i, by simp [fetchPops, hexp, hmax, hi, Popped.toOption], rfl, rfl⟩
      · exact .inl (hpop ▸ hk)
      · exact .inl (hpop ▸ hk)
  · rw [fetchWith_active hactive, Function.update_apply]
    split
    · next hq =>
      subst hq
      simp [or_comm]
    · next hq => simp [hq]

theorem moveToActive_handed (p : String) (ts : ℤ) (o : FetchOpts) (s : Store) :
    Handed p o.token (fetchPops popForMoveToActive p ts o s) s (Script.moveToActive p ts o s).2 :=
  handed_of_fetchWith (popForMoveToActive_active p) (fun s _ => popForMoveToActive_frame p s) ts o s

theorem fetchNextJob_handed (p : String) (ts : ℤ) (o : FetchOpts) (s : Store) :
    Handed p o.token (fetchPops popForFetchNextJob p ts o s) s (fetchNextJob p ts o s).2 :=
  handed_of_fetchWith (popForFetchNextJob_active p) (fun s _ => popForFetchNextJob_frame p s) ts o s

theorem fetchOrDrain_handed (p : String) (a : FinishArgs) (s : Store) :
    Handed p a.opts.token (if a.fetchNext then fetchPops popForFetchNextJob p a.timestamp a.opts s
      else none) s (fetchOrDrain p a s).2 := by
  have hdrain : ∀ s : Store, SameOwners s (emitDrained p s) := fun s =>
    .of_frame (W := [.events]) (by decide) fun hκ => emitDrained_frame p s (by simpa using hκ)
  have hfetch := fetchNextJob_handed p a.timestamp a.opts s
  simp only [fetchOrDrain]
  split
  · split
    · exact hfetch
    · exact hfetch.same_right (hdrain _)
  · exact .same (hdrain s) ..

theorem fetchOrMark_handed (p : String) (a : DelayArgs) (s : Store) {o : FetchOpts}
    (ho : a.fetchNext = some o) :
    Handed p o.token (fetchPops popForFetchNextJob p a.timestamp o s) s (fetchOrMark p a s).2 := by
  have hmark : ∀ s : Store, SameOwners s (addDelayMarkerIfNeeded p s) := fun s =>
    .of_frame (by decide) (addDelayMarkerIfNeeded_frame p s)
  have hfetch := fetchNextJob_handed p a.timestamp o s
  simp only [fetchOrMark, ho]
  split
  · exact hfetch
  · exact hfetch
  · exact hfetch.same_right (hmark _)

/-! ### Every command but the stalled check -/

namespace OwnerStep

variable {c : Command}

/-- A command that is about no job. -/
theorem idle (h : SameOwners s s') (hends : ∀ p j, ¬ c.ends s p j)
    (hext : ∀ p j, ¬ c.extends s p j) (hact : ∀ p, c.activates s p = none) :
    OwnerStep c s s' where
  lock {k t} hk := .inl ⟨h.lock ▸ hk, fun p j he => absurd he (hends p j)⟩
  active {q i} := by simp [h.active, hends, hact]
  stalled q i := by simp [h.stalled, hends, hext]

/-- A command that ends an activation and then may hand out a job. -/
theorem finish {t : String} {popped : Option String} (hend : Ended p j s s')
    (hhand : Handed p t popped s' s'') (hends : ∀ q i, c.ends s q i ↔ q = p ∧ i = j)
    (hext : ∀ q i, ¬ c.extends s q i)
    (hact : ∀ q, c.activates s q = if p = q then popped else none)
    (htok : ∀ i, popped = some i → ∃ o, c.fetchOpts = some (p, o) ∧ o.token = t) :
    OwnerStep c s s'' where
  lock {k t'} hk := by
    rcases hhand.lock hk with hk | ⟨i, hi, rfl, rfl⟩
    · obtain ⟨hlock, hne⟩ := hend.lock hk
      refine .inl ⟨hlock, fun q i he => ?_⟩
      obtain ⟨rfl, rfl⟩ := (hends q i).mp he
      exact hne
    · exact .inr ⟨p, i, ⟨by rw [hact, if_pos rfl, hi], htok i hi⟩, rfl⟩
  active {q i} hi := by
    rw [hhand.active]
    rcases hi with ⟨hi, hno⟩ | hi
    · exact .inl (hend.active hi fun heq => hno ((hends q i).mpr heq))
    · rw [hact] at hi
      split at hi
      · next hq => exact .inr ⟨hq.symm, hi⟩
      · cases hi
  stalled q i := by
    rw [hhand.stalled, hend.stalled, hends]
    simp [hext]

/-- A command that only hands out a job. -/
theorem fetch {t : String} {popped : Option String} (hhand : Handed p t popped s s')
    (hends : ∀ q i, ¬ c.ends s q i) (hext : ∀ q i, ¬ c.extends s q i)
    (hact : ∀ q, c.activates s q = if p = q then popped else none)
    (htok : ∃ o, c.fetchOpts = some (p, o) ∧ o.token = t) : OwnerStep c s s' where
  lock {k t'} hk := by
    rcases hhand.lock hk with hk | ⟨i, hi, rfl, rfl⟩
    · exact .inl ⟨hk, fun q i he => absurd he (hends q i)⟩
    · exact .inr ⟨p, i, ⟨by rw [hact, if_pos rfl, hi], htok⟩, rfl⟩
  active {q i} hi := by
    rw [hhand.active]
    rcases hi with ⟨hi, -⟩ | hi
    · exact .inl hi
    · rw [hact] at hi
      split at hi
      · next hq => exact .inr ⟨hq.symm, hi⟩
      · cases hi
  stalled q i := by
    rw [hhand.stalled]
    simp [hends, hext]

/-- A refused finishing call may still drop a lock, but of no active job. -/
theorem released {t : String} {f : Option FieldsToUpdate} (hs : SameOwners s s')
    (h : MarksActive s) (hrel : ReleasesOnly s' p j t) (hends : ∀ q i, ¬ c.ends s q i)
    (hext : ∀ q i, ¬ c.extends s q i) (hact : ∀ q, c.activates s q = none) :
    OwnerStep c s (releasedJob p j t f s') where
  lock {k t'} hk := by
    refine .inl ⟨?_, fun q i he => absurd he (hends q i)⟩
    rw [releasedJob, updateJobFields_frame _ _ _ (by decide)] at hk
    rw [← hs.lock]
    simp only [removeLock] at hk
    split at hk
    · exact hk
    · split at hk
      · exact hk
      · split at hk
        · rw [Keyspace.modify_of_ne _ (by decide), Keyspace.set_self, Function.update_apply] at hk
          split at hk
          · cases hk
          · exact hk
        · exact hk
  active {q i} := by
    rw [releasedJob_frame _ _ _ _ _ (by decide), hs.active]
    simp [hends, hact]
  stalled q i := by
    -- A marked job is active, and this one is not.
    have hno : j ∉ s' .stalled p := fun hj => by
      rw [hs.stalled] at hj
      exact hrel.notActive (hs.active ▸ h hj)
    have hsame : releasedJob p j t f s' .stalled = s' .stalled := by
      rw [releasedJob, updateJobFields_frame _ _ _ (by decide)]
      simp only [removeLock]
      split
      · rfl
      · split
        · rfl
        · split
          · rw [Keyspace.modify_self, Keyspace.set_of_ne _ (by decide),
              MemberSet.srem_of_notMem hno, Function.update_eq_self]
          · rfl
    rw [hsame, hs.stalled]
    simp [hends, hext]

end OwnerStep

/-- One lock of `extendLocks`, with a positive duration. -/
theorem extendLocksStep_owner {d : ℤ} (hd : 0 < d) (l : List String) (s : Store)
    (lock : String × String) :
    ∃ l', extendLocksStep p d (some l, s) lock = (some l', if s .lock (p ++ lock.2) = some lock.1
      then s.modify .stalled p (·.srem lock.2) else s) := by
  obtain ⟨t, i⟩ := lock
  by_cases hl : s .lock (p ++ i) = some t
  · refine ⟨l, ?_⟩
    simp only [extendLocksStep, hl, hd, if_true]
    rw [Keyspace.set_eq_self s hl]
  · exact ⟨l ++ [i], by simp [extendLocksStep, hl]⟩

/-- The loop of `extendLocks` unmarks the jobs whose locks it extends. -/
theorem foldl_extendLocksStep_owner {d : ℤ} (hd : 0 < d) (locks : List (String × String))
    (l : List String) (s : Store) :
    (locks.foldl (extendLocksStep p d) (some l, s)).2 .lock = s .lock ∧
    ∀ q i, i ∈ (locks.foldl (extendLocksStep p d) (some l, s)).2 .stalled q ↔
      i ∈ s .stalled q ∧ ¬ (q = p ∧ ∃ t, (t, i) ∈ locks ∧ s .lock (p ++ i) = some t) := by
  -- A lock that is extended later is looked up as it was at first: the loop changes no owner.
  induction locks generalizing l s with
  | nil => simp
  | cons lock locks ih =>
    obtain ⟨t, i₀⟩ := lock
    obtain ⟨l', hstep⟩ := extendLocksStep_owner (p := p) hd l s (t, i₀)
    rw [List.foldl_cons, hstep]
    simp only
    split
    · next hl =>
      obtain ⟨hlock, hst⟩ := ih l' (s.modify .stalled p (·.srem i₀))
      have hsame : (s.modify .stalled p (·.srem i₀)) .lock = s .lock :=
        Keyspace.modify_of_ne _ (by decide) ..
      refine ⟨hlock.trans hsame, fun q i => ?_⟩
      rw [hst, hsame, Keyspace.modify_self, Function.update_apply]
      by_cases hq : q = p
      · subst hq
        simp only [if_true, MemberSet.mem_srem, true_and, List.mem_cons, Prod.mk.injEq]
        by_cases hi : i = i₀
        · subst hi
          simp [hl]
        · simp [hi]
      · simp [hq]
    · next hl =>
      obtain ⟨hlock, hst⟩ := ih l' s
      refine ⟨hlock, fun q i => ?_⟩
      rw [hst]
      by_cases hi : i = i₀
      · subst hi
        have hiff : (∃ t', (t', i) ∈ locks ∧ s .lock (p ++ i) = some t') ↔
            ∃ t', (t', i) ∈ (t, i) :: locks ∧ s .lock (p ++ i) = some t' := by
          refine exists_congr fun t' => ?_
          constructor
          · rintro ⟨hm, hl'⟩
            exact ⟨List.mem_cons_of_mem _ hm, hl'⟩
          · rintro ⟨hm, hl'⟩
            rcases List.mem_cons.mp hm with heq | hm
            · obtain ⟨rfl, -⟩ := Prod.mk.inj heq
              exact absurd hl' hl
            · exact ⟨hm, hl'⟩
        rw [hiff]
      · simp [hi]

/-- Without a positive duration `extendLocks` changes nothing. -/
theorem foldl_extendLocksStep_of_nonpos {d : ℤ} (hd : ¬ 0 < d) (locks : List (String × String))
    (acc : Option (List String) × Store) : (locks.foldl (extendLocksStep p d) acc).2 = acc.2 := by
  induction locks generalizing acc with
  | nil => rfl
  | cons lock locks ih =>
    rw [List.foldl_cons, ih]
    simp only [extendLocksStep, hd, if_false]
    split
    · rfl
    · split <;> rfl

theorem extendLock_owner (p t : String) (d : ℤ) (j : String) (s : Store) :
    OwnerStep (.extendLock p t d j) s (Script.extendLock p t d j s).2 := by
  by_cases hl : s .lock (p ++ j) = some t ∧ 0 < d
  · have hres : (Script.extendLock p t d j s).2 = s.modify .stalled p (·.srem j) := by
      simp only [Script.extendLock, hl.1, hl.2, if_true]
      rw [Keyspace.set_eq_self s hl.1]
    rw [hres]
    refine ⟨fun {k t'} hk => .inl ⟨?_, fun _ _ he => he.elim⟩, fun {q i} => ?_, fun q i => ?_⟩
    · rwa [Keyspace.modify_of_ne _ (by decide)] at hk
    · rw [Keyspace.modify_of_ne _ (by decide)]
      simp [Command.ends, Command.activates]
    · rw [Keyspace.modify_self, Function.update_apply]
      by_cases hq : q = p
      · subst hq
        simp [Command.ends, Command.extends, hl.1, hl.2, and_comm, eq_comm]
      · simp [Command.ends, Command.extends, hq, Ne.symm hq]
  · have hres : (Script.extendLock p t d j s).2 = s := by
      simp only [Script.extendLock]
      by_cases hlock : s .lock (p ++ j) = some t
      · have hd : ¬ 0 < d := fun hd => hl ⟨hlock, hd⟩
        simp [hlock, hd]
      · simp [hlock]
    rw [hres]
    refine .idle ⟨rfl, rfl, rfl⟩ (fun _ _ he => he.elim) (fun q i he => ?_) fun _ => rfl
    obtain ⟨-, -, h⟩ := he
    exact hl h

theorem extendLocks_owner (p : String) (locks : List (String × String)) (d : ℤ) (s : Store) :
    OwnerStep (.extendLocks p locks d) s (Script.extendLocks p locks d s).2 := by
  by_cases hd : 0 < d
  · obtain ⟨hlock, hst⟩ := foldl_extendLocksStep_owner (p := p) hd locks [] s
    have hactive : (Script.extendLocks p locks d s).2 (.list .active) = s (.list .active) :=
      Script.extendLocks_frame p locks d s (by decide)
    refine ⟨fun {k t} hk => .inl ⟨?_, fun _ _ he => he.elim⟩, fun {q i} => ?_, fun q i => ?_⟩
    · exact hlock ▸ hk
    · rw [hactive]
      simp [Command.ends, Command.activates]
    · refine (hst q i).trans ?_
      by_cases hq : q = p
      · subst hq
        simp [Command.ends, Command.extends, hd]
      · simp [Command.ends, Command.extends, hq, Ne.symm hq]
  · have hres : (Script.extendLocks p locks d s).2 = s :=
      foldl_extendLocksStep_of_nonpos hd locks (some [], s)
    rw [hres]
    refine .idle ⟨rfl, rfl, rfl⟩ (fun _ _ he => he.elim) (fun q i he => ?_) fun _ => rfl
    obtain ⟨-, t, -, -, hpos⟩ := he
    exact hd hpos

/-! ### The finishing scripts -/

/-- A real token that may release a job owns its lock. -/
theorem MayRelease.lock {t : String} (h : MayRelease s p j t) (ht : t ≠ "0") :
    s .lock (p ++ j) = some t :=
  h.resolve_left ht

theorem moveToFinished_owner {a : FinishArgs} (h : MarksActive s) (ht : a.opts.token ≠ "0")
    (p : String) : OwnerStep (.moveToFinished p a) s (Script.moveToFinished p a s).2 := by
  have hext : ∀ q i, ¬ (Command.moveToFinished p a).extends s q i := fun _ _ he => he
  obtain ⟨hno, n, -, -, hres⟩ | ⟨hrel, hres⟩ | ⟨hfin, hres⟩ := Script.moveToFinished_cases p a s
  · rw [hres]
    exact .idle ⟨rfl, rfl, rfl⟩ (fun q i he => hno he.2.2) hext
      fun q => by simp [Command.activates, hno]
  · rw [hres]
    exact .released (.refl s) h hrel (fun q i he => hrel.not_finishesJob he.2.2) hext
      fun q => by simp [Command.activates, hrel.not_finishesJob]
  · have hend := (ended_of_leftActive ht (hfin.1.mayRelease.lock ht)
      a.fieldsToUpdate).same_right (.of_frame (by decide) (finishJob_frame p a _))
    rw [hres]
    refine .finish hend (fetchOrDrain_handed p a _) (fun q i => ?_) hext (fun q => ?_)
      fun i hi => ?_
    · simp only [Command.ends, hfin, and_true, eq_comm]
    · by_cases hpq : p = q
      · subst hpq
        by_cases hnext : a.fetchNext = true
        · simp [Command.activates, hnext, hfin]
        · simp [Command.activates, hnext]
      · simp [Command.activates, hpq]
    · have hnext : a.fetchNext = true := by
        by_contra hnext
        simp [hnext] at hi
      exact ⟨a.opts, by simp [Command.fetchOpts, hnext], rfl⟩

theorem moveToDelayed_owner {a : DelayArgs} (h : MarksActive s) (ht : a.token ≠ "0") (p : String) :
    OwnerStep (.moveToDelayed p a) s (Script.moveToDelayed p a s).2 := by
  have hext : ∀ q i, ¬ (Command.moveToDelayed p a).extends s q i := fun _ _ he => he
  obtain ⟨hno, n, -, -, hres⟩ | ⟨hrel, hres⟩ | ⟨hg, hres⟩ := Script.moveToDelayed_cases p a s
  · rw [hres]
    exact .idle ⟨rfl, rfl, rfl⟩ (fun q i he => hno he.2.2) hext
      fun q => by simp [Command.activates, hno]
  · rw [hres]
    exact .released (.refl s) h hrel (fun q i he => hrel.not_givesUp he.2.2) hext
      fun q => by simp [Command.activates, hrel.not_givesUp]
  · have hend := (ended_of_leftActive ht (hg.mayRelease.lock ht)
      a.fieldsToUpdate).same_right (.of_frame (by decide) (delayJob_frame p a _))
    have hends : ∀ q i, (Command.moveToDelayed p a).ends s q i ↔ q = p ∧ i = a.jobId := by
      intro q i
      simp only [Command.ends, hg, and_true, eq_comm]
    rw [hres]
    rcases hnext : a.fetchNext with _ | o
    · have hmark : SameOwners (delayJob p a (leftActive p a.jobId a.token a.fieldsToUpdate s))
          (fetchOrMark p a (delayJob p a (leftActive p a.jobId a.token a.fieldsToUpdate s))).2 := by
        simp only [fetchOrMark, hnext]
        exact .of_frame (by decide) (addDelayMarkerIfNeeded_frame p _)
      exact .finish hend (.same hmark p "") hends hext
        (fun q => by simp [Command.activates, hnext]) fun i hi => (by cases hi)
    · refine .finish hend (fetchOrMark_handed p a _ hnext) hends hext (fun q => ?_) fun i _ => ?_
      · simp [Command.activates, hnext, hg]
      · exact ⟨o, by simp [Command.fetchOpts, hnext], rfl⟩

theorem moveToWaitingChildren_owner {t : String} (h : MarksActive s) (ht : t ≠ "0") (p j k : String)
    (ts : ℤ) : OwnerStep (.moveToWaitingChildren p j t k ts) s
      (Script.moveToWaitingChildren p j t k ts s).2 := by
  have hext : ∀ q i, ¬ (Command.moveToWaitingChildren p j t k ts).extends s q i := fun _ _ he => he
  obtain ⟨n, hn, hres⟩ | ⟨hrel, hres⟩ | ⟨hg, -, hres⟩ :=
    Script.moveToWaitingChildren_cases p j t k ts s
  · have hends : ∀ q i, ¬ (Command.moveToWaitingChildren p j t k ts).ends s q i := by
      intro q i he
      have hcode := he.2.2.2
      obtain rfl : n = 0 := by simpa [hres] using hcode
      omega
    rw [hres]
    exact .idle ⟨rfl, rfl, rfl⟩ hends hext fun q => rfl
  · rw [hres]
    exact .released (c := .moveToWaitingChildren p j t k ts) (f := none) (.refl s) h hrel
      (fun q i he => hrel.not_givesUp he.2.2.1) hext fun q => rfl
  · have hmoved : SameOwners (leftActive p j t none s)
        (Script.movedToWaitingChildren p j t ts s) :=
      .of_frame (W := [.events, .zset .waitingChildren]) (by decide) fun hκ => by
        simp only [List.mem_cons, List.not_mem_nil, or_false, not_or] at hκ
        rw [Script.movedToWaitingChildren, Store.xadd_of_ne _ _ _ hκ.1,
          Keyspace.modify_of_ne _ hκ.2]
    have hends : ∀ q i, (Command.moveToWaitingChildren p j t k ts).ends s q i ↔ q = p ∧ i = j := by
      intro q i
      simp only [Command.ends, hg, hres, and_true, eq_comm]
    rw [hres]
    exact .finish (ended_of_leftActive ht (hg.mayRelease.lock ht) none)
      (.same hmoved p "") hends hext (fun q => by simp [Command.activates])
      fun i hi => (by cases hi)

theorem moveJobFromActiveToWait_owner {t : String} (h : MarksActive s) (ht : t ≠ "0")
    (p j : String) : OwnerStep (.moveJobFromActiveToWait p j t) s
      (Script.moveJobFromActiveToWait p j t s).2 := by
  have hext : ∀ q i, ¬ (Command.moveJobFromActiveToWait p j t).extends s q i := fun _ _ he => he
  obtain ⟨hno, n, -, hres⟩ | ⟨hrel, n, hres⟩ | ⟨hg, n, hres⟩ :=
    Script.moveJobFromActiveToWait_cases p j t s
  · rw [hres]
    exact .idle ⟨rfl, rfl, rfl⟩ (fun q i he => hno he.2.2) hext fun q => rfl
  · rw [hres]
    exact .released (c := .moveJobFromActiveToWait p j t) (f := none) (.refl s) h hrel
      (fun q i he => hrel.not_givesUp he.2.2) hext fun q => rfl
  · have hends : ∀ q i, (Command.moveJobFromActiveToWait p j t).ends s q i ↔ q = p ∧ i = j := by
      intro q i
      simp only [Command.ends, hg, and_true, eq_comm]
    rw [hres]
    exact .finish (ended_of_remove ht (hg.mayRelease.lock ht) (f := lremLeft j)
        fun hi hne => mem_lremLeft_of_ne hne hi)
      (.same (.of_frame (by decide) (pushBackJob_frame p j _)) p "") hends hext
      (fun q => by simp [Command.activates]) fun i hi => (by cases hi)

theorem retryJob_owner {a : RetryArgs} (h : MarksActive s) (ht : a.token ≠ "0") (p : String) :
    OwnerStep (.retryJob p a) s (Script.retryJob p a s).2 := by
  obtain ⟨s₀, hs₀, hcases⟩ := Script.retryJob_cases p a s
  -- The promotion that comes first does not touch the three keys.
  have hsame : SameOwners s s₀ := hs₀ ▸ .of_frame (by decide)
      (promoteDelayedJobs_frame p a.timestamp _ s)
  have hends : ∀ q i, (Command.retryJob p a).ends s q i ↔
      p = q ∧ a.jobId = i ∧ GivesUp s₀ p a.jobId a.token := fun q i => by
    simp only [Command.ends, hs₀]
  have hext : ∀ q i, ¬ (Command.retryJob p a).extends s q i := fun _ _ he => he
  obtain ⟨hno, n, -, -, hres⟩ | ⟨hrel, hres⟩ | ⟨hg, hres⟩ := hcases
  · rw [hres]
    exact .idle hsame (fun q i he => hno ((hends q i).mp he).2.2) hext fun _ => rfl
  · rw [hres]
    exact .released hsame h hrel (fun q i he => hrel.not_givesUp ((hends q i).mp he).2.2) hext
      fun _ => rfl
  · have hend := (ended_of_leftActive ht (hg.mayRelease.lock ht)
      a.fieldsToUpdate).same_right (.of_frame (by decide) (requeueJob_frame p a _))
    rw [hres]
    refine .finish (hend.same_left hsame) (.same (.refl _) p "") (fun q i => ?_) hext
      (fun q => by simp [Command.activates]) fun i hi => (by cases hi)
    rw [hends]
    simp only [hg, and_true, eq_comm]

/-- **One command** that is no stalled check. -/
theorem Command.exec_owner {c : Command} {r : Reply × Store} (h : MarksActive s)
    (hreal : c.RealTokens) (hcheck : ∀ p m t n, c ≠ .moveStalledJobsToWait p m t n)
    (hremove : ∀ n p j b, c ≠ .removeJob n p j b) (hexec : c.exec s = some r) :
    OwnerStep c s r.2 := by
  cases c with
  | moveStalledJobsToWait p m t n => exact absurd rfl (hcheck p m t n)
  | removeJob n p j b => exact absurd rfl (hremove n p j b)
  | moveToActive p t o =>
    cases hexec
    exact .fetch (moveToActive_handed p t o s) (fun _ _ he => he) (fun _ _ he => he)
      (fun q => rfl) ⟨o, rfl, rfl⟩
  | moveToFinished p a =>
    cases hexec
    exact moveToFinished_owner h (hreal.1 _ _ _ rfl) p
  | moveToDelayed p a =>
    cases hexec
    exact moveToDelayed_owner h (hreal.1 _ _ _ rfl) p
  | moveToWaitingChildren p j t k ts =>
    cases hexec
    exact moveToWaitingChildren_owner h (hreal.1 _ _ _ rfl) p j k ts
  | retryJob p a =>
    cases hexec
    exact retryJob_owner h (hreal.1 _ _ _ rfl) p
  | moveJobFromActiveToWait p j t =>
    cases hexec
    exact moveJobFromActiveToWait_owner h (hreal.1 _ _ _ rfl) p j
  | extendLock p t d j =>
    cases hexec
    exact extendLock_owner p t d j s
  | extendLocks p l d =>
    cases hexec
    exact extendLocks_owner p l d s
  | expireLock k =>
    cases hexec
    refine ⟨fun {k' t} hk => .inl ⟨?_, fun _ _ he => he.elim⟩, fun {q i} => ?_, fun q i => ?_⟩
    · simp only [Keyspace.set_self, Function.update_apply] at hk
      split at hk
      · cases hk
      · exact hk
    · simp [Command.ends, Command.activates]
    · simp [Command.ends, Command.extends]
  | reorderStalled p m =>
    cases hexec
    refine ⟨fun {k' t} hk => .inl ⟨?_, fun _ _ he => he.elim⟩, fun {q i} => ?_, fun q i => ?_⟩
    · simpa using hk
    · simp [Command.ends, Command.activates]
    · simp only [Keyspace.modify_self, Function.update_apply]
      split
      · next hq =>
        rw [mem_reorderSet, hq]
        simp [Command.ends, Command.extends]
      · simp [Command.ends, Command.extends]
  -- The rest writes neither locks, nor active lists, nor marks.
  | _ =>
    refine .idle (.of_frame ?_ fun hκ => Command.exec_frame hexec hκ) (fun _ _ he => he)
      (fun _ _ he => he) fun _ => rfl
    simp only [Command.writes]
    decide

end BullMQ
