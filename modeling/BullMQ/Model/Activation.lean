import BullMQ.Model.Command

/-!
# Activations

`Command.activates` is the id that the fetch inside a command makes active, if there is a fetch
and it gets that far. `Command.exec_active` ties it to the store: a command first takes ids off
the active lists, and then pushes the activated id, if any, to a queue it found neither paused
nor maxed.
-/

namespace BullMQ

open Redis

/-- The id that a fetch pops. -/
def fetchPops (pop : String → Store → Popped × Store) (p : String) (timestamp : ℤ)
    (opts : FetchOpts) (s : Store) : Option String :=
  let (expireTime, s') := startFetch p timestamp opts s
  if 0 < expireTime ∨ isQueuePausedOrMaxed p s then none else (pop p s').1.toOption

/-- The id of the queue `q` that a command makes active. -/
def Command.activates (c : Command) (s : Store) (q : String) : Option String :=
  match c with
  | moveToActive p t o => if p = q then fetchPops popForMoveToActive p t o s else none
  | moveToFinished p a =>
    -- The fetch is reached only by a call that has finished its own job.
    if p = q ∧ a.fetchNext ∧ FinishesJob s p a then
      fetchPops popForFetchNextJob p a.timestamp a.opts
        (finishJob p a (leftActive p a.jobId a.opts.token a.fieldsToUpdate s))
    else none
  | moveToDelayed p a =>
    if p = q ∧ GivesUp s p a.jobId a.token then
      a.fetchNext.bind fun opts => fetchPops popForFetchNextJob p a.timestamp opts
        (delayJob p a (leftActive p a.jobId a.token a.fieldsToUpdate s))
    else none
  | _ => none

/-- The queue and the options of the fetch inside a command. -/
def Command.fetchOpts : Command → Option (String × FetchOpts)
  | moveToActive p _ o => some (p, o)
  | moveToFinished p a => if a.fetchNext then some (p, a.opts) else none
  | moveToDelayed p a => a.fetchNext.map fun o => (p, o)
  | _ => none

/-! ### A fetch -/

section Fetch

variable {pop : String → Store → Popped × Store} {p : String}

/-- A fetch pushes what it pops. -/
theorem fetchWith_active
    (hpop : ∀ s, (pop p s).2 (.list .active) = (pop p s).1.activeAfter p (s (.list .active)))
    (t : ℤ) (o : FetchOpts) (s : Store) :
    (fetchWith pop p t o s).2 (.list .active) = Function.update (s (.list .active)) p
      ((fetchPops pop p t o s).toList ++ s (.list .active) p) := by
  have hstart : (startFetch p t o s).2 (.list .active) = s (.list .active) :=
    startFetch_frame p t o s (by decide)
  obtain ⟨e, hstop, hres⟩ | ⟨hexp, hmax, hres⟩ := fetchWith_cases pop p t o s
  · rw [hres, hstart]
    simp [fetchPops, hstop]
  · rw [hres, takeJob_active hpop, hstart]
    simp only [fetchPops, hexp, hmax]
    cases (pop p (startFetch p t o s).2).1 <;> simp [Popped.activeAfter, Popped.toOption]

end Fetch

theorem fetchNextJob_active (p : String) (t : ℤ) (o : FetchOpts) (s : Store) :
    (fetchNextJob p t o s).2 (.list .active) = Function.update (s (.list .active)) p
      ((fetchPops popForFetchNextJob p t o s).toList ++ s (.list .active) p) :=
  fetchWith_active (popForFetchNextJob_active p) t o s

theorem moveToActive_active (p : String) (t : ℤ) (o : FetchOpts) (s : Store) :
    (Script.moveToActive p t o s).2 (.list .active) = Function.update (s (.list .active)) p
      ((fetchPops popForMoveToActive p t o s).toList ++ s (.list .active) p) :=
  fetchWith_active (popForMoveToActive_active p) t o s

theorem fetchOrDrain_active (p : String) (a : FinishArgs) (s : Store) :
    (fetchOrDrain p a s).2 (.list .active) = Function.update (s (.list .active)) p
      ((if a.fetchNext then fetchPops popForFetchNextJob p a.timestamp a.opts s
        else none).toList ++ s (.list .active) p) := by
  simp only [fetchOrDrain]
  split
  · split
    · exact fetchNextJob_active ..
    · rw [emitDrained_frame _ _ (by decide)]
      exact fetchNextJob_active ..
  · rw [emitDrained_frame _ _ (by decide)]
    simp

theorem fetchOrMark_active (p : String) (a : DelayArgs) (s : Store) :
    (fetchOrMark p a s).2 (.list .active) = Function.update (s (.list .active)) p
      ((a.fetchNext.bind fun o => fetchPops popForFetchNextJob p a.timestamp o s).toList ++
        s (.list .active) p) := by
  simp only [fetchOrMark]
  split
  · next hnone =>
    rw [addDelayMarkerIfNeeded_frame _ _ (by decide), hnone]
    simp
  · next o hsome =>
    rw [hsome]
    split
    · exact fetchNextJob_active ..
    · exact fetchNextJob_active ..
    · rw [addDelayMarkerIfNeeded_frame _ _ (by decide)]
      exact fetchNextJob_active ..

/-! ### Shrinking active lists -/

/-- Every active list is a sublist of what it was, and the concurrencies are as they were. -/
structure ActiveShrinks (s s' : Store) : Prop where
  active : ∀ q, (s' (.list .active) q).Sublist (s (.list .active) q)
  concurrency : s' .metaConcurrency = s .metaConcurrency

namespace ActiveShrinks

variable {s s' s'' : Store}

theorem refl (s : Store) : ActiveShrinks s s := ⟨fun _ => .refl _, rfl⟩

theorem trans (h : ActiveShrinks s s') (h' : ActiveShrinks s' s'') : ActiveShrinks s s'' :=
  ⟨fun q => (h'.active q).trans (h.active q), h'.concurrency.trans h.concurrency⟩

/-- A change of other families shrinks. -/
theorem of_frame {W : List Kind} (hW : Kind.metaConcurrency ∉ W ∧ Kind.list .active ∉ W)
    (hs : ∀ {κ}, κ ∉ W → s' κ = s κ) : ActiveShrinks s s' :=
  ⟨fun q => by rw [hs hW.2], hs hW.1⟩

/-- Taking occurrences off one active list shrinks. -/
theorem remove (s : Store) (p : String) {f : List String → List String}
    (hf : ∀ l, (f l).Sublist l) : ActiveShrinks s (s.modify (.list .active) p f) := by
  refine ⟨fun q => ?_, Keyspace.modify_of_ne _ (by decide) ..⟩
  rw [Keyspace.modify_self, Function.update_apply]
  split
  · next hq =>
    rw [hq]
    exact hf _
  · exact .refl _

theorem leftActive (p j t : String) (f : Option FieldsToUpdate) (s : Store) :
    ActiveShrinks s (BullMQ.leftActive p j t f s) :=
  (of_frame (by decide) (releasedJob_frame p j t f s)).trans (remove _ p (lremRight_sublist j))

theorem reclaimStalledJob (p : String) (m : ℤ) (acc : List String × Store) (j : String) :
    ActiveShrinks acc.2 (BullMQ.reclaimStalledJob p m acc j).2 := by
  have hrem := remove acc.2 p (lremLeft_sublist j)
  simp only [BullMQ.reclaimStalledJob]
  split
  · exact hrem
  · split
    · refine hrem.trans (of_frame (W := [.hash, .list .wait, .marker, .events]) (by decide)
        fun hκ => ?_)
      simp only [List.mem_cons, List.not_mem_nil, or_false, not_or] at hκ
      obtain ⟨hhash, hwait, hmark, hev⟩ := hκ
      rw [Store.xadd_of_ne _ _ _ hev, moveJobToWait_frame _ _ _ _ (by simp [*]),
        countStall_frame _ _ _ _ hhash]
    · exact .refl _

theorem foldl_reclaimStalledJob (p : String) (m : ℤ) (l : List String)
    (acc : List String × Store) :
    ActiveShrinks acc.2 (l.foldl (BullMQ.reclaimStalledJob p m) acc).2 := by
  induction l generalizing acc with
  | nil => exact .refl _
  | cons j l ih => exact (reclaimStalledJob p m acc j).trans (ih _)

theorem moveStalledJobsToWait (p : String) (m t c : ℤ) (s : Store) :
    ActiveShrinks s (Script.moveStalledJobsToWait p m t c s).2 := by
  simp only [Script.moveStalledJobsToWait]
  split
  · exact .refl _
  · split
    · exact .refl _
    · have hstart : ActiveShrinks s (Keyspace.set (trimEvents p (s.set .stalledCheck p (some t)))
          .stalled p ∅ : Store) := by
        refine of_frame (W := [.stalled, .metaMaxLenEvents, .stalledCheck]) (by decide) fun hκ => ?_
        simp only [List.mem_cons, List.not_mem_nil, or_false, not_or] at hκ
        rw [Keyspace.set_of_ne _ hκ.1, trimEvents_frame _ _ (by simp [hκ]),
          Keyspace.set_of_ne _ hκ.2.2]
      exact (hstart.trans (foldl_reclaimStalledJob p m _ ([], _))).trans
        (of_frame (W := [.stalled]) (by decide) fun hκ => markActive_frame _ _ (by simpa using hκ))

theorem removeJobFromAnyState (p j : String) (s : Store) :
    ActiveShrinks s (BullMQ.removeJobFromAnyState p j s).2 := by
  simp only [BullMQ.removeJobFromAnyState]
  split
  · next z _ =>
    exact of_frame (W := [.zset z]) (by simp)
      (fun hκ => Keyspace.modify_of_ne _ (by simpa using hκ) ..)
  · next l _ =>
    by_cases hl : l = .active
    · subst hl
      exact remove s p (lremLeft_sublist j)
    · exact of_frame (W := [.list l]) (by simpa using Ne.symm hl)
        (fun hκ => Keyspace.modify_of_ne _ (by simpa using hκ) ..)
  · exact .refl _

theorem deleteJob (p j : String) (s : Store) : ActiveShrinks s (BullMQ.deleteJob p j s) := by
  refine (removeJobFromAnyState p j s).trans
    (of_frame (W := .metaMaxLenEvents :: removalWrites) (by decide) fun {κ} hκ => ?_)
  have hev : κ ≠ .events := by rintro rfl; exact hκ (by decide)
  have hkeys := fun s => removeJobKeys_frame (p ++ j) s (Kind.notMem_mono hκ (by decide))
  simp only [BullMQ.deleteJob]
  split
  · rw [Store.xadd_of_ne _ _ _ hev, getOrSetMaxEvents_frame _ _ (Kind.notMem_mono hκ (by decide)),
      hkeys, removeDeduplicationKeyIfNeededOnRemoval_frame _ _ _ _
        (Kind.notMem_mono hκ (by decide))]
  · rw [hkeys,
      removeDeduplicationKeyIfNeededOnRemoval_frame _ _ _ _ (Kind.notMem_mono hκ (by decide))]

theorem removeJob {n : ℕ} {p j : String} {b : Bool} {r : Reply × Store}
    (h : Script.removeJob n p j b s = some r) : ActiveShrinks s r.2 :=
  Script.removeJob_rule (I := ActiveShrinks s) (V := fun _ _ => True)
    (fun _ _ _ hs => hs.trans (of_frame (by decide) (removeParentDependencyKey_frame _ _ _)))
    (fun p j s' _ hs => hs.trans (deleteJob p j s')) (fun _ _ _ _ _ => trivial) trivial (refl s) h

end ActiveShrinks

/-! ### What a command does to the active lists -/

theorem fetchPops_not_maxed {pop : String → Store → Popped × Store} {p : String} {t : ℤ}
    {o : FetchOpts} {s : Store} (h : fetchPops pop p t o s ≠ none) :
    isQueuePausedOrMaxed p s = false := by
  refine Bool.eq_false_iff.mpr fun hmax => h ?_
  simp [fetchPops, hmax]

/-- What a command does to the active list of a queue: it shrinks, and the activated id is pushed
if the queue is then neither paused nor maxed. -/
def ActivatesInto (q : String) (activated : Option String) (s s' : Store) : Prop :=
  ∃ s₁, ActiveShrinks s s₁ ∧ s' (.list .active) q = activated.toList ++ s₁ (.list .active) q ∧
    (activated ≠ none → isQueuePausedOrMaxed q s₁ = false)

theorem ActiveShrinks.activatesInto {s s' : Store} (h : ActiveShrinks s s') (q : String) :
    ActivatesInto q none s s' :=
  ⟨s', h, rfl, fun h => absurd rfl h⟩

/-- A fetch on the queue `p` after a shrinking activates what it pops. -/
theorem activatesInto_of_fetch {p : String} {s s₁ s' : Store} {popped : Option String}
    (hshr : ActiveShrinks s s₁) (hact : s' (.list .active) = Function.update (s₁ (.list .active)) p
      (popped.toList ++ s₁ (.list .active) p))
    (hmax : popped ≠ none → isQueuePausedOrMaxed p s₁ = false) (q : String) :
    ActivatesInto q (if p = q then popped else none) s s' := by
  refine ⟨s₁, hshr, ?_, ?_⟩
  · rw [hact]
    by_cases hpq : p = q
    · subst hpq
      simp
    · rw [Function.update_of_ne (Ne.symm hpq)]
      simp [hpq]
  · by_cases hpq : p = q
    · subst hpq
      simpa using hmax
    · simp [hpq]

/-- **Activations.** Every command acts on the active list of a queue by taking ids off and
pushing the id that it activates. -/
theorem Command.exec_active {c : Command} {s : Store} {r : Reply × Store}
    (h : c.exec s = some r) (q : String) : ActivatesInto q (c.activates s q) s r.2 := by
  -- A command that writes the active list is one of these; every other one leaves it as it is.
  by_cases hw : Kind.list .active ∈ c.writes
  · cases c with
    | moveToActive p t o =>
      cases h
      exact activatesInto_of_fetch (.refl s) (moveToActive_active p t o s)
        (fun hne => fetchPops_not_maxed hne) q
    | moveToFinished p a =>
      cases h
      obtain ⟨hno, n, -, -, hres⟩ | ⟨hrel, hres⟩ | ⟨hfin, hres⟩ := Script.moveToFinished_cases p a s
      · rw [hres]
        simpa [activates, hno] using (ActiveShrinks.refl s).activatesInto q
      · rw [hres]
        simpa [activates, hrel.not_finishesJob] using (ActiveShrinks.of_frame (by decide)
          (releasedJob_frame p a.jobId a.opts.token a.fieldsToUpdate s)).activatesInto q
      · -- The job leaves the active list first, and the fetch of the same call then takes the next
        -- one.
        have hshr := (ActiveShrinks.leftActive p a.jobId a.opts.token a.fieldsToUpdate s).trans
          (.of_frame (by decide) (finishJob_frame p a _))
        have hfetch := activatesInto_of_fetch hshr (fetchOrDrain_active p a _)
          (by split; exacts [fun hne => fetchPops_not_maxed hne, fun hne => absurd rfl hne]) q
        rw [hres]
        by_cases hpq : p = q
        · by_cases hnext : a.fetchNext = true
          · simpa [activates, hpq, hnext, hfin, hpq ▸ hfin] using hfetch
          · simpa [activates, hnext] using hfetch
        · simpa [activates, hpq] using hfetch
    | moveToDelayed p a =>
      cases h
      obtain ⟨hno, n, -, -, hres⟩ | ⟨hrel, hres⟩ | ⟨hfin, hres⟩ := Script.moveToDelayed_cases p a s
      · rw [hres]
        simpa [activates, hno] using (ActiveShrinks.refl s).activatesInto q
      · rw [hres]
        simpa [activates, hrel.not_givesUp] using (ActiveShrinks.of_frame (by decide)
          (releasedJob_frame p a.jobId a.token a.fieldsToUpdate s)).activatesInto q
      · have hshr := (ActiveShrinks.leftActive p a.jobId a.token a.fieldsToUpdate s).trans
          (.of_frame (by decide) (delayJob_frame p a _))
        have hfetch := activatesInto_of_fetch hshr (fetchOrMark_active p a _) (fun hne => by
          obtain ⟨o, ho⟩ : ∃ o, a.fetchNext = some o := by
            rcases hnext : a.fetchNext with _ | o
            · simp [hnext] at hne
            · exact ⟨o, rfl⟩
          rw [ho] at hne
          exact fetchPops_not_maxed hne) q
        rw [hres]
        simpa [activates, hfin] using hfetch
    | moveToWaitingChildren p j t k ts =>
      cases h
      obtain ⟨n, -, hres⟩ | ⟨-, hres⟩ | ⟨-, -, hres⟩ :=
        Script.moveToWaitingChildren_cases p j t k ts s
      · rw [hres]
        exact (ActiveShrinks.refl s).activatesInto q
      · rw [hres]
        exact (ActiveShrinks.of_frame (by decide) (releasedJob_frame p j t none s)).activatesInto q
      · rw [hres]
        refine ((ActiveShrinks.leftActive p j t none s).trans
          (.of_frame (W := [.events, .zset .waitingChildren]) (by decide) fun hκ =>
            ?_)).activatesInto q
        simp only [List.mem_cons, List.not_mem_nil, or_false, not_or] at hκ
        rw [Script.movedToWaitingChildren, Store.xadd_of_ne _ _ _ hκ.1,
          Keyspace.modify_of_ne _ hκ.2]
    | retryJob p a =>
      cases h
      obtain ⟨s₀, hs₀, hcases⟩ := Script.retryJob_cases p a s
      have hprom : ActiveShrinks s s₀ := by
        rw [hs₀]
        exact .of_frame (by decide) (promoteDelayedJobs_frame p a.timestamp _ s)
      obtain ⟨-, n, -, -, hres⟩ | ⟨-, hres⟩ | ⟨-, hres⟩ := hcases
      · rw [hres]
        exact hprom.activatesInto q
      · rw [hres]
        exact (hprom.trans (.of_frame (by decide) (releasedJob_frame _ _ _ _ s₀))).activatesInto q
      · rw [hres]
        exact ((hprom.trans (.leftActive _ _ _ _ s₀)).trans
          (.of_frame (by decide) (requeueJob_frame p a _))).activatesInto q
    | moveJobFromActiveToWait p j t =>
      cases h
      have hlock : ActiveShrinks s (removeLock p j t s).2 := .of_frame (by decide)
          (removeLock_frame p j t s)
      obtain ⟨-, n, -, hres⟩ | ⟨-, n, hres⟩ | ⟨-, n, hres⟩ :=
        Script.moveJobFromActiveToWait_cases p j t s
      · rw [hres]
        exact (ActiveShrinks.refl s).activatesInto q
      · rw [hres]
        exact hlock.activatesInto q
      · rw [hres]
        exact ((hlock.trans (.remove _ p (lremLeft_sublist j))).trans
          (.of_frame (by decide) (pushBackJob_frame p j _))).activatesInto q
    | moveStalledJobsToWait p m t k =>
      cases h
      exact (ActiveShrinks.moveStalledJobsToWait p m t k s).activatesInto q
    | removeJob n p j b => exact (ActiveShrinks.removeJob h).activatesInto q
    | _ =>
      refine absurd hw ?_
      simp only [Command.writes]
      decide
  · have hmeta : Kind.metaConcurrency ∉ c.writes := by
      cases c <;> simp only [Command.writes] <;> decide
    have hnone : c.activates s q = none := by
      cases c with
      | moveToActive | moveToFinished | moveToDelayed =>
        refine absurd ?_ hw
        simp only [Command.writes]
        decide
      | _ => rfl
    rw [hnone]
    exact (ActiveShrinks.of_frame ⟨hmeta, hw⟩ (Command.exec_frame h)).activatesInto q

end BullMQ
