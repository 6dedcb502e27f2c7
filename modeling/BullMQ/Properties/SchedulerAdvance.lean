import BullMQ.Model.EventLimit
import BullMQ.Properties.UpsertCollision

/-!
# A job scheduler advances at most once per iteration

`updateJobScheduler` stores the next iteration of a job scheduler only for the worker that holds
the iteration which the `repeat` set names, and only where the next one does not exist yet. Each
such call moves the time of the scheduler forward, so that no iteration is produced twice, however
often and by whomever the script is called (`scheduler_advances_once`). The one exception is the
way a late call makes up for missed iterations: with an offset below minus one interval the slot
it falls back to can be behind the iteration before (`CatchesUp`, `negative_offset_goes_back`).
-/

namespace BullMQ

open Redis Transition

theorem int_repr_inj {m n : ℤ} (h : m.repr = n.repr) : m = n := by
  -- A minus sign is no digit.
  have hmixed : ∀ a b : ℕ, "-" ++ (a + 1).repr ≠ b.repr := fun a b =>
    ne_repr_of_mem (c := '-') (by simp) (by decide) b
  rcases m with m | m <;> rcases n with n | n
  · exact congrArg Int.ofNat (repr_inj h)
  · exact absurd h.symm (hmixed n m)
  · exact absurd h (hmixed m n)
  · have hrepr := (String.append_right_inj "-").mp h
    exact congrArg Int.negSucc (Nat.succ.inj (repr_inj hrepr))

theorem iterationId_inj {S : String} {m n : ℤ} (h : iterationId S m = iterationId S n) : m = n :=
  int_repr_inj ((String.append_right_inj _).mp h)

/-- A job scheduler with an interval, as an upsert leaves it: its next time is `m`. -/
structure EveryScheduler (p S : String) (every m : ℤ) (s : Store) : Prop where
  positive : 0 < every
  next : (s .repeatSet p).zscore S = some m
  stored : ∃ scheduler, s .scheduler (schedulerKey p S) = some scheduler ∧
    scheduler.every = some every ∧ scheduler.name.isSome = true
  bound : (s .metaMaxLenEvents p).isSome = true

/-- The offset a call works with: that of the scheduler, else that of the job. -/
def offsetInForce (p : String) (a : IterateArgs) (s : Store) : ℤ :=
  ((s .scheduler (schedulerKey p a.jobSchedulerId)).bind JobScheduler.offset).getD
    (a.repeatOffset.getD 0)

/-- A call that comes after the next iteration is due finds a slot behind the iteration before. -/
def CatchesUp (every m now offset : ℤ) : Prop :=
  m + every < now → m < slotStart now every + offset + every

instance (every m now offset : ℤ) : Decidable (CatchesUp every m now offset) := by
  unfold CatchesUp
  infer_instance

/-- The store after the call that stores the iteration `m'` after `m`: the time moved forward, the
iteration is counted, and its job is the one new job. -/
structure Advances (p S : String) (m m' : ℤ) (s s' : Store) : Prop where
  later : m < m'
  score : s' .repeatSet = Function.update (s .repeatSet) p ((s .repeatSet p).zadd m' S)
  counted : ∃ scheduler, s .scheduler (schedulerKey p S) = some scheduler ∧
    s' .scheduler = Function.update (s .scheduler) (schedulerKey p S)
      (some { scheduler with ic := some (scheduler.ic.getD 0 + 1) })
  fresh : s.jobExists (p ++ iterationId S m') = false
  created : s'.jobExists (p ++ iterationId S m') = true
  others : ∀ k, k ≠ p ++ iterationId S m' → s' .hash k = s .hash k
  placed : ∃ c : Container, c.isSettled = false ∧ countIn s' c p (iterationId S m') ≠ 0

/-- What a call may do: a call by the current iteration's worker may advance the scheduler, and any
other changes at most the event stream. -/
def IterationEffect (p : String) (a : IterateArgs) (m : ℤ) (s s' : Store) : Prop :=
  (a.producerId = iterationId a.jobSchedulerId m ∧ ∃ m', Advances p a.jobSchedulerId m m' s s') ∨
    ∀ κ, κ ≠ .events → s' κ = s κ

/-- The next time is later exactly where the call catches up. -/
theorem everyNextMillis_lt_iff {every : ℤ} (hpos : 0 < every) (m now offset : ℤ) :
    m < (getJobSchedulerEveryNextMillis (some m) every now offset none).1 ↔
      CatchesUp every m now offset := by
  unfold CatchesUp
  simp only [getJobSchedulerEveryNextMillis]
  split
  · split <;> omega
  · omega

section Call

variable {p S : String} {every m : ℤ} {s : Store} {a : IterateArgs}

theorem EveryScheduler.getOrSetMaxEvents_eq (h : EveryScheduler p S every m s) :
    getOrSetMaxEvents p s = s :=
  (getOrSetMaxEvents_eq_self_iff p s).mpr h.bound

theorem EveryScheduler.iterateMillis_eq (h : EveryScheduler p a.jobSchedulerId every m s) :
    iterateMillis a (s .scheduler (schedulerKey p a.jobSchedulerId)) m =
      (getJobSchedulerEveryNextMillis (some m) every a.timestamp (offsetInForce p a s) none).1 := by
  obtain ⟨scheduler, hsched, hevery, -⟩ := h.stored
  simp only [iterateMillis, offsetInForce, hsched, Option.bind_some, hevery]
  rfl

/-- The ends of a call on a scheduler: it is by another producer, the next iteration exists, or the
next iteration is stored. -/
theorem EveryScheduler.updateJobScheduler_cases (h : EveryScheduler p a.jobSchedulerId every m s) :
    (∀ κ, κ ≠ .events → (Script.updateJobScheduler p a s).2 κ = s κ) ∨
    ∃ m' scheduler name, a.producerId = iterationId a.jobSchedulerId m ∧
      m' = iterateMillis a (s .scheduler (schedulerKey p a.jobSchedulerId)) m ∧
      s .scheduler (schedulerKey p a.jobSchedulerId) = some scheduler ∧
      s.jobExists (p ++ iterationId a.jobSchedulerId m') = false ∧
      (Script.updateJobScheduler p a s).2 = addJobFromScheduler p
        (iterationId a.jobSchedulerId m') name (scheduler.data.getD noTemplateData) a.jobOpts
        a.timestamp a.jobSchedulerId (delayUntil m' a.timestamp)
        (((s.modify .repeatSet p (·.zadd m' a.jobSchedulerId)).modify .scheduler
          (schedulerKey p a.jobSchedulerId) fun scheduler => some { scheduler.getD {} with
            ic := some (((scheduler.bind JobScheduler.ic).getD 0) + 1) }).modify .id p
            (· + 1)) := by
  obtain ⟨scheduler, hsched, -, hname⟩ := h.stored
  obtain ⟨name, hname⟩ := Option.isSome_iff_exists.mp hname
  simp only [Script.updateJobScheduler, h.next, h.getOrSetMaxEvents_eq]
  split
  · next hproducer =>
    split
    · exact .inl fun κ hκ => Store.xadd_of_ne _ _ _ hκ
    · next hfree =>
      refine .inr ⟨_, scheduler, name, hproducer, rfl, hsched, by simpa using hfree, ?_⟩
      simp only [hsched, Option.bind_some, hname]
  · exact .inl fun κ _ => rfl

/-- **One call.** A call that catches up, if it is by the current iteration's worker, has one of the
two effects. -/
theorem EveryScheduler.iterationEffect (h : EveryScheduler p a.jobSchedulerId every m s)
    (hcatch : a.producerId = iterationId a.jobSchedulerId m →
      CatchesUp every m a.timestamp (offsetInForce p a s)) :
    IterationEffect p a m s (Script.updateJobScheduler p a s).2 := by
  obtain hsame | ⟨m', scheduler, name, hproducer, hm', hsched, hfree, heq⟩ :=
    h.updateJobScheduler_cases
  · exact .inr hsame
  · refine .inl ⟨hproducer, m', ?_⟩
    rw [h.iterateMillis_eq] at hm'
    have hhash : (Script.updateJobScheduler p a s).2 .hash = storeJob p
        (iterationId a.jobSchedulerId m') name (scheduler.data.getD noTemplateData)
        { a.jobOpts with delay := delayUntil m' a.timestamp } a.timestamp none
        (some a.jobSchedulerId) s .hash := by
      rw [heq, addJobFromScheduler, storeAndEnqueueJob_hash]
      simp only [storeJob, Store.xadd_of_ne _ _ _ (by decide : Kind.hash ≠ .events), Store.hset,
        Keyspace.modify_self, Keyspace.modify_of_ne _ (by decide : Kind.hash ≠ .id),
        Keyspace.modify_of_ne _ (by decide : Kind.hash ≠ .scheduler),
        Keyspace.modify_of_ne _ (by decide : Kind.hash ≠ .repeatSet)]
    exact {
      later := hm' ▸ (everyNextMillis_lt_iff h.positive _ _ _).mpr (hcatch hproducer)
      score := by
        rw [heq, addJobFromScheduler, storeAndEnqueueJob_frame _ _ _ _ _ _ _ _ _ (by decide),
          Keyspace.modify_of_ne _ (by decide), Keyspace.modify_of_ne _ (by decide),
          Keyspace.modify_self]
      counted := by
        refine ⟨scheduler, hsched, ?_⟩
        rw [heq, addJobFromScheduler, storeAndEnqueueJob_frame _ _ _ _ _ _ _ _ _ (by decide),
          Keyspace.modify_of_ne _ (by decide), Keyspace.modify_self,
          Keyspace.modify_of_ne _ (by decide), hsched]
        rfl
      fresh := hfree
      created := by
        rw [Store.jobExists, hhash, storeJob, Store.xadd_of_ne _ _ _ (by decide),
          Store.hset_hash, if_pos rfl]
        rfl
      others := fun k hk => by
        rw [hhash, storeJob, Store.xadd_of_ne _ _ _ (by decide), Store.hset_hash, if_neg hk]
      placed := by
        rw [heq]
        exact enqueued_storeAndEnqueueJob _ _ _ _ _ _ _ _ _ }

end Call

/-! ### What other commands do to a scheduler -/

section Frame

variable {p q S : String} {every m : ℤ} {s s' : Store}

/-- The schedule after a scheduler script: as before, or with one entry and its hash written. -/
def WritesSchedule (q S : String) (scheduler : Option JobScheduler) (s s' : Store) : Prop :=
  s' .repeatSet = s .repeatSet ∧ s' .scheduler = s .scheduler ∨
    ∃ m, s' .repeatSet = Function.update (s .repeatSet) q ((s .repeatSet q).zadd m S) ∧
      s' .scheduler = Function.update (s .scheduler) (schedulerKey q S) scheduler

/-- Count one more iteration, in a hash that is created if it is missing. -/
def countIteration (scheduler : Option JobScheduler) : Option JobScheduler :=
  some { scheduler.getD {} with ic := some (((scheduler.bind JobScheduler.ic).getD 0) + 1) }

theorem updateJobScheduler_writesSchedule (q : String) (a : IterateArgs) (s : Store) :
    WritesSchedule q a.jobSchedulerId
      (countIteration (s .scheduler (schedulerKey q a.jobSchedulerId))) s
      (Script.updateJobScheduler q a s).2 := by
  have hs : ∀ κ ∉ [Kind.metaMaxLenEvents], getOrSetMaxEvents q s κ = s κ := fun κ hκ =>
    getOrSetMaxEvents_frame _ _ hκ
  have hrep := hs .repeatSet (by decide)
  have hsched := hs .scheduler (by decide)
  simp only [Script.updateJobScheduler]
  split
  · exact .inl ⟨rfl, rfl⟩
  · next prevMillis _ =>
    split
    · split
      · exact .inl ⟨by rw [Store.xadd_of_ne _ _ _ (by decide), hrep],
          by rw [Store.xadd_of_ne _ _ _ (by decide), hsched]⟩
      · refine .inr
          ⟨iterateMillis a (s .scheduler (schedulerKey q a.jobSchedulerId)) prevMillis, ?_, ?_⟩
        · split
          · rw [Keyspace.modify_of_ne _ (by decide), Keyspace.modify_of_ne _ (by decide),
              Keyspace.modify_self, hrep]
          · rw [addJobFromScheduler, storeAndEnqueueJob_frame _ _ _ _ _ _ _ _ _ (by decide),
              Keyspace.modify_of_ne _ (by decide), Keyspace.modify_of_ne _ (by decide),
              Keyspace.modify_self, hrep]
        · split
          · rw [Keyspace.modify_of_ne _ (by decide), Keyspace.modify_self,
              Keyspace.modify_of_ne _ (by decide), hsched]
            rfl
          · rw [addJobFromScheduler, storeAndEnqueueJob_frame _ _ _ _ _ _ _ _ _ (by decide),
              Keyspace.modify_of_ne _ (by decide), Keyspace.modify_self,
              Keyspace.modify_of_ne _ (by decide), hsched]
            rfl
    · exact .inl ⟨rfl, rfl⟩

theorem addJobScheduler_writesSchedule (q : String) (a : UpsertArgs) (s : Store) :
    ∃ scheduler,
      WritesSchedule q a.jobSchedulerId scheduler s (Script.addJobScheduler q a s).2 := by
  have hstart : ∀ κ ∈ [Kind.repeatSet, .scheduler],
      (removePendingIteration q a.jobSchedulerId (getOrSetMaxEvents q s)).2 κ = s κ := by
    intro κ hκ
    have hw : κ ∉ pendingWrites ∧ κ ∉ [Kind.metaMaxLenEvents] := by
      revert κ
      decide
    rw [removePendingIteration_frame _ _ _ hw.1, getOrSetMaxEvents_frame _ _ hw.2]
  rcases hrem : removePendingIteration q a.jobSchedulerId (getOrSetMaxEvents q s) with ⟨b, t⟩
  rw [hrem] at hstart
  have hrep := hstart .repeatSet (by decide)
  have hsched := hstart .scheduler (by decide)
  obtain ⟨o, m, heq, -⟩ | ⟨every, -, heq, -⟩ | ⟨-, -, heq, -⟩ :=
    Script.addJobScheduler_cases hrem <;>
    rw [heq]
  · simp only [storeIteration, addJobFromScheduler, storeJobScheduler]
    refine ⟨?scheduler, .inr ⟨m, ?_, ?stored⟩⟩
    case stored =>
      rw [storeAndEnqueueJob_frame _ _ _ _ _ _ _ _ _ (by decide),
        Keyspace.modify_of_ne _ (by decide), Keyspace.modify_self,
        Keyspace.modify_of_ne _ (by decide), hsched]
    · rw [storeAndEnqueueJob_frame _ _ _ _ _ _ _ _ _ (by decide),
        Keyspace.modify_of_ne _ (by decide), Keyspace.modify_of_ne _ (by decide),
        Keyspace.modify_self, hrep]
  · exact ⟨none, .inl ⟨hrep, hsched⟩⟩
  · exact ⟨none, .inl ⟨hrep, hsched⟩⟩

theorem boundStays_updateJobScheduler (q : String) (a : IterateArgs) (s : Store) :
    BoundStays s (Script.updateJobScheduler q a s).2 := by
  have hmax := boundStays_getOrSetMaxEvents q s
  simp only [Script.updateJobScheduler]
  split
  · exact .refl s
  · split
    · split
      · exact hmax.trans (.of_eq (Store.xadd_of_ne _ _ _ (by decide)))
      · refine hmax.trans ?_
        split
        · exact .of_eq (by rw [Keyspace.modify_of_ne _ (by decide),
            Keyspace.modify_of_ne _ (by decide), Keyspace.modify_of_ne _ (by decide)])
        · exact .of_eq (by rw [addJobFromScheduler,
            storeAndEnqueueJob_frame _ _ _ _ _ _ _ _ _ (by decide),
            Keyspace.modify_of_ne _ (by decide), Keyspace.modify_of_ne _ (by decide),
            Keyspace.modify_of_ne _ (by decide)])
    · exact .refl s

theorem boundStays_addJobScheduler (q : String) (a : UpsertArgs) (s : Store) :
    BoundStays s (Script.addJobScheduler q a s).2 := by
  have hstart : BoundStays s
      (removePendingIteration q a.jobSchedulerId (getOrSetMaxEvents q s)).2 :=
    (boundStays_getOrSetMaxEvents q s).trans
      (.of_eq (removePendingIteration_frame _ _ _ (by decide)))
  rcases hrem : removePendingIteration q a.jobSchedulerId (getOrSetMaxEvents q s) with ⟨b, t⟩
  rw [hrem] at hstart
  obtain ⟨o, m, heq, -⟩ | ⟨every, -, heq, -⟩ | ⟨-, -, heq, -⟩ :=
    Script.addJobScheduler_cases hrem <;>
    rw [heq]
  · refine hstart.trans (.of_eq ?_)
    simp only [storeIteration, addJobFromScheduler]
    rw [storeAndEnqueueJob_frame _ _ _ _ _ _ _ _ _ (by decide),
      Keyspace.modify_of_ne _ (by decide), storeJobScheduler_frame _ _ _ _ _ _ (by decide)]
  · exact hstart
  · exact hstart

theorem boundStays_removeUnprocessedChildren {n : ℕ} {j : String} {r : Reply × Store}
    (h : Script.removeUnprocessedChildren n p j s = some r) : BoundStays s r.2 := by
  obtain ⟨t, ht, rfl⟩ := Option.map_eq_some_iff.mp h
  refine removeJobChildren_rule (I := BoundStays s) (V := fun _ _ => True)
    (fun _ _ _ _ _ => trivial) (fun q i o s₁ s₂ _ hs₁ h₁ => ?_) (.refl s) ht
  exact removeJobWithChildren_rule (I := BoundStays s) (V := fun _ _ => True)
    (fun _ _ _ hs => hs.trans (.of_eq (removeParentDependencyKey_frame _ _ _ (by decide))))
    (fun _ _ _ _ hs => hs.trans (boundStays_deleteJob _ _ _)) (fun _ _ _ _ _ => trivial)
    trivial hs₁ h₁

/-- A scheduler stays as it is where its entry and its hash do. -/
theorem EveryScheduler.of_frame (h : EveryScheduler p S every m s)
    (hrep : s' .repeatSet = s .repeatSet) (hsched : s' .scheduler = s .scheduler)
    (hbound : BoundStays s s') : EveryScheduler p S every m s' where
  positive := h.positive
  next := by rw [hrep]; exact h.next
  stored := by rw [hsched]; exact h.stored
  bound := hbound p h.bound

/-- A scheduler keeps its time where another one is written. -/
theorem WritesSchedule.zscore {scheduler : Option JobScheduler} {S' : String}
    (h : WritesSchedule q S' scheduler s s') (hne : ¬ (q = p ∧ S' = S)) :
    (s' .repeatSet p).zscore S = (s .repeatSet p).zscore S := by
  obtain ⟨hrep, -⟩ | ⟨m', hrep, -⟩ := h <;> rw [hrep]
  rw [Function.update_apply]
  split
  · next hp =>
    rw [SortedSet.zscore_zadd, if_neg fun hS => hne ⟨hp.symm, hS.symm⟩, hp]
  · rfl

end Frame

/-! ### Runs -/

/-- The commands during which a scheduler exists and keeps its definition: no upsert of it and no
obliteration. -/
def Defined (p S : String) : QueueCommand → Prop
  | .addJobScheduler q a => schedulerKey q a.jobSchedulerId ≠ schedulerKey p S
  | .obliterate .. => False
  | _ => True

/-- The calls by the current iteration's worker catch up with the time. Calls by any other compute
no next time. -/
def CallCatchesUp (p S : String) (every : ℤ) (s : Store) : QueueCommand → Prop
  | .updateJobScheduler q a => q = p → a.jobSchedulerId = S →
    ∀ m, (s .repeatSet p).zscore S = some m → a.producerId = iterationId S m →
      CatchesUp every m a.timestamp (offsetInForce p a s)
  | _ => True

/-- The commands of a run in which a scheduler stays defined and its workers' calls catch up. -/
def Iterating (p S : String) (every : ℤ) (s : Store) (c : QueueCommand) : Prop :=
  Defined p S c ∧ CallCatchesUp p S every s c

theorem Iterating.call {p S : String} {every m : ℤ} {s : Store} {a : IterateArgs}
    (hm : (s .repeatSet p).zscore S = some m)
    (h : a.producerId = iterationId S m → CatchesUp every m a.timestamp (offsetInForce p a s)) :
    Iterating p S every s (.updateJobScheduler p a) := by
  refine ⟨trivial, fun _ _ m' hm' => ?_⟩
  obtain rfl := Option.some.inj (hm.symm.trans hm')
  exact h

/-- A step that creates the job of the iteration `m` by a call on the scheduler. -/
def Produces (p S : String) (m : ℤ) (e : Store × QueueCommand × Store) : Prop :=
  ∃ a, e.2.1 = .updateJobScheduler p a ∧ a.jobSchedulerId = S ∧
    e.1.jobExists (p ++ iterationId S m) = false ∧ e.2.2.jobExists (p ++ iterationId S m) = true

section Runs

variable {p S : String} {every m : ℤ} {s : Store}

theorem EveryScheduler.writesSchedule {written : Option JobScheduler} {q S' : String} {s' : Store}
    (h : EveryScheduler p S every m s) (hw : WritesSchedule q S' written s s')
    (hne : ¬ (q = p ∧ S' = S)) (hbound : BoundStays s s')
    (hf : ∀ scheduler, schedulerKey q S' = schedulerKey p S →
      s .scheduler (schedulerKey p S) = some scheduler → ∃ scheduler',
        written = some scheduler' ∧ scheduler'.every = scheduler.every ∧
          scheduler'.name = scheduler.name) : EveryScheduler p S every m s' where
  positive := h.positive
  next := (hw.zscore hne).trans h.next
  stored := by
    obtain ⟨scheduler, hsched, hevery, hname⟩ := h.stored
    obtain ⟨-, hs'⟩ | ⟨m', -, hs'⟩ := hw <;> rw [hs']
    · exact ⟨scheduler, hsched, hevery, hname⟩
    · rw [Function.update_apply]
      split
      · next hkey =>
        obtain ⟨scheduler', hf', hevery', hname'⟩ := hf scheduler hkey.symm hsched
        exact ⟨scheduler', hf', hevery'.trans hevery, by rw [hname', hname]⟩
      · exact ⟨scheduler, hsched, hevery, hname⟩
  bound := hbound p h.bound

/-- Another command than a call on the scheduler leaves its time alone. -/
theorem EveryScheduler.exec (h : EveryScheduler p S every m s) {c : QueueCommand}
    {r : Reply × Store} (hdef : Defined p S c)
    (hother : ∀ a, c = .updateJobScheduler p a → a.jobSchedulerId ≠ S)
    (hexec : c.exec s = some r) : EveryScheduler p S every m r.2 := by
  -- Only the two scheduler scripts write its hash or the `repeat` set.
  have hframe : (∀ κ ∈ [Kind.repeatSet, .scheduler], κ ∉ c.writes) → BoundStays s r.2 →
      EveryScheduler p S every m r.2 := fun hw hbound =>
    h.of_frame (QueueCommand.exec_frame hexec (hw _ (by decide)))
      (QueueCommand.exec_frame hexec (hw _ (by decide))) hbound
  cases c with
  | job c =>
    refine hframe ?_ (boundStays_exec hexec)
    cases c <;> simp only [QueueCommand.writes, Command.writes] <;> decide
  | addJobScheduler q a =>
    cases hexec
    have hkey : schedulerKey q a.jobSchedulerId ≠ schedulerKey p S := hdef
    obtain ⟨written, hw⟩ := addJobScheduler_writesSchedule q a s
    refine h.writesSchedule hw ?_ (boundStays_addJobScheduler q a s) fun _ heq _ => absurd heq hkey
    rintro ⟨rfl, rfl⟩
    exact hkey rfl
  | updateJobScheduler q a =>
    cases hexec
    refine h.writesSchedule (updateJobScheduler_writesSchedule q a s) ?_
      (boundStays_updateJobScheduler q a s) fun scheduler hkey hsched => ?_
    · rintro ⟨rfl, hS⟩
      exact hother a rfl hS
    · rw [hkey, hsched]
      exact ⟨_, rfl, rfl, rfl⟩
  | obliterate q n b => exact hdef.elim
  | removeUnprocessedChildren n q j =>
    exact hframe (by simp only [QueueCommand.writes]; decide)
      (boundStays_removeUnprocessedChildren hexec)
  | cleanJobsInSet q t l st =>
    exact hframe (by simp only [QueueCommand.writes]; decide)
      (.of_eq (QueueCommand.exec_frame hexec (by simp only [QueueCommand.writes]; decide)))
  | drain q b =>
    exact hframe (by simp only [QueueCommand.writes]; decide)
      (.of_eq (QueueCommand.exec_frame hexec (by simp only [QueueCommand.writes]; decide)))
  | expireDeduplicationKey q d =>
    exact hframe (by simp only [QueueCommand.writes]; decide)
      (.of_eq (QueueCommand.exec_frame hexec (by simp only [QueueCommand.writes]; decide)))
  | elapseDeduplicationKey q d ms =>
    exact hframe (by simp only [QueueCommand.writes]; decide)
      (.of_eq (QueueCommand.exec_frame hexec (by simp only [QueueCommand.writes]; decide)))

/-- A call that advances the scheduler leaves it with the new time. -/
theorem EveryScheduler.advances {m' : ℤ} {s' : Store} (h : EveryScheduler p S every m s)
    (hadv : Advances p S m m' s s') (hbound : BoundStays s s') :
    EveryScheduler p S every m' s' where
  positive := h.positive
  next := by rw [hadv.score, Function.update_self, SortedSet.zscore_zadd, if_pos rfl]
  stored := by
    obtain ⟨scheduler, hsched, hs'⟩ := hadv.counted
    obtain ⟨scheduler', hsched', hevery, hname⟩ := h.stored
    obtain rfl := Option.some.inj (hsched.symm.trans hsched')
    refine ⟨{ scheduler with ic := some (scheduler.ic.getD 0 + 1) }, ?_, hevery, hname⟩
    rw [hs', Function.update_self]
  bound := hbound p h.bound

/-- The iteration that a call creates is the one it advances to. -/
theorem Produces.eq_of_advances {n m' : ℤ} {c : QueueCommand} {s' : Store}
    (h : Produces p S n (s, c, s')) (hadv : Advances p S m m' s s') : n = m' := by
  obtain ⟨a, -, -, hbefore, hafter⟩ := h
  by_contra hne
  have hkey : p ++ iterationId S n ≠ p ++ iterationId S m' := fun heq =>
    hne (iterationId_inj ((String.append_right_inj p).mp heq))
  rw [Store.jobExists, hadv.others _ hkey] at hafter
  rw [Store.jobExists, hafter] at hbefore
  cases hbefore

/-- What a run keeps: the scheduler is behind no iteration that was produced, and those were
produced in order. -/
structure InOrder (p S : String) (every : ℤ) (steps : List (Store × QueueCommand × Store))
    (s : Store) : Prop where
  scheduler : ∃ m, EveryScheduler p S every m s ∧ ∀ e ∈ steps, ∀ n, Produces p S n e → n ≤ m
  effects : ∀ t a u, (t, .updateJobScheduler p a, u) ∈ steps → a.jobSchedulerId = S →
    ∃ m, (t .repeatSet p).zscore S = some m ∧ IterationEffect p a m t u
  ordered : steps.Pairwise fun e e' => ∀ n n', Produces p S n e → Produces p S n' e' → n < n'

theorem InOrder.snoc {steps : List (Store × QueueCommand × Store)} {c : QueueCommand}
    {r : Reply × Store} (h : InOrder p S every steps s) (hc : Iterating p S every s c)
    (hexec : c.exec s = some r) : InOrder p S every (steps ++ [(s, c, r.2)]) r.2 := by
  obtain ⟨m, hsched, hold⟩ := h.scheduler
  -- The step itself: it produces nothing and the time stays, or it produces the next iteration.
  have hstep : ∃ m', m ≤ m' ∧ EveryScheduler p S every m' r.2 ∧
      (∀ n, Produces p S n (s, c, r.2) → m < n ∧ n = m') ∧
      ∀ a, c = .updateJobScheduler p a → a.jobSchedulerId = S → IterationEffect p a m s r.2 := by
    by_cases hcall : ∃ a, c = .updateJobScheduler p a ∧ a.jobSchedulerId = S
    · obtain ⟨a, rfl, rfl⟩ := hcall
      cases hexec
      have heffect := hsched.iterationEffect (hc.2 rfl rfl m hsched.next)
      have hbound := boundStays_updateJobScheduler p a s
      obtain ⟨-, m', hadv⟩ | hsame := id heffect
      · refine ⟨m', hadv.later.le, hsched.advances hadv hbound, fun n hn => ?_, fun a' ha' _ => ?_⟩
        · obtain rfl := hn.eq_of_advances hadv
          exact ⟨hadv.later, rfl⟩
        · cases ha'
          exact heffect
      · refine ⟨m, le_rfl, hsched.of_frame (hsame _ (by decide)) (hsame _ (by decide)) hbound,
          fun n hn => ?_, fun a' ha' _ => ?_⟩
        · obtain ⟨-, -, -, hbefore, hafter⟩ := hn
          change Store.jobExists (Script.updateJobScheduler p a s).2 _ = true at hafter
          change s.jobExists _ = false at hbefore
          rw [Store.jobExists, hsame _ (by decide)] at hafter
          rw [Store.jobExists, hafter] at hbefore
          cases hbefore
        · cases ha'
          exact heffect
    · refine ⟨m, le_rfl, hsched.exec hc.1 (fun a ha hS => hcall ⟨a, ha, hS⟩) hexec, ?_, ?_⟩
      · rintro n ⟨a, ha, hS, -⟩
        exact absurd ⟨a, ha, hS⟩ hcall
      · exact fun a ha hS => absurd ⟨a, ha, hS⟩ hcall
  obtain ⟨m', hle, hsched', hnew, heffect⟩ := hstep
  refine ⟨⟨m', hsched', ?_⟩, ?_, ?_⟩
  · intro e he n hn
    rcases List.mem_append.mp he with he | he
    · exact (hold e he n hn).trans hle
    · obtain rfl : e = (s, c, r.2) := by simpa using he
      exact (hnew n hn).2.le
  · intro t a u he hS
    rcases List.mem_append.mp he with he | he
    · exact h.effects t a u he hS
    · obtain ⟨rfl, rfl, rfl⟩ : t = s ∧ .updateJobScheduler p a = c ∧ u = r.2 := by simpa using he
      exact ⟨m, hsched.next, heffect a rfl hS⟩
  · refine List.pairwise_append.mpr ⟨h.ordered, List.pairwise_singleton _ _, ?_⟩
    intro e he e' he' n n' hn hn'
    obtain rfl : e' = (s, c, r.2) := by simpa using he'
    exact (hold e he n hn).trans_lt (hnew n' hn').1

/-- **A scheduler advances at most once per iteration.** Take any run, by any clients in any order,
in which the scheduler stays defined and every call by the worker of its current iteration catches
up. Each such call may advance the scheduler: the time gets later, the iteration is counted and its
job is the one job that is created, under an id without a hash. Every other call changes at most
the event stream. So iterations are produced in order, and none is produced twice. -/
theorem scheduler_advances_once {m₀ : ℤ} {s₀ : Store} {steps : List (Store × QueueCommand × Store)}
    (h₀ : EveryScheduler p S every m₀ s₀)
    (run : Run (QueueStep (Iterating p S every)) s₀ steps s) :
    (∀ t a u, (t, .updateJobScheduler p a, u) ∈ steps → a.jobSchedulerId = S →
      ∃ m, (t .repeatSet p).zscore S = some m ∧ IterationEffect p a m t u) ∧
    steps.Pairwise fun e e' => ∀ n n', Produces p S n e → Produces p S n' e' → n < n' := by
  have hstart : InOrder p S every [] s₀ :=
    ⟨⟨m₀, h₀, fun e he => by simp at he⟩, fun t a u he => by simp at he, .nil⟩
  have hinv : InOrder p S every steps s := run.induct hstart fun steps t c u hinv hstep => by
    obtain ⟨hc, r, hexec⟩ := hstep
    exact hinv.snoc hc hexec
  exact ⟨hinv.effects, hinv.ordered⟩

theorem storeIteration_everyScheduler {q : String} {a : UpsertArgs} {o : SchedulerOpts} {n : ℤ}
    (hpos : 0 < every) (hevery : o.every = some every)
    (hbound : (s .metaMaxLenEvents q).isSome = true) :
    EveryScheduler q a.jobSchedulerId every n (storeIteration q a o n s).2 where
  positive := hpos
  next := by
    simp only [storeIteration, addJobFromScheduler, storeJobScheduler]
    rw [storeAndEnqueueJob_frame _ _ _ _ _ _ _ _ _ (by decide), Keyspace.modify_of_ne _ (by decide),
      Keyspace.modify_of_ne _ (by decide), Keyspace.modify_self, Function.update_self,
      SortedSet.zscore_zadd, if_pos rfl]
  stored := by
    simp only [storeIteration, addJobFromScheduler, storeJobScheduler]
    rw [storeAndEnqueueJob_frame _ _ _ _ _ _ _ _ _ (by decide), Keyspace.modify_of_ne _ (by decide),
      Keyspace.modify_self, Function.update_self]
    exact ⟨_, rfl, hevery, rfl⟩
  bound := by
    simp only [storeIteration, addJobFromScheduler]
    rw [storeAndEnqueueJob_frame _ _ _ _ _ _ _ _ _ (by decide), Keyspace.modify_of_ne _ (by decide),
      storeJobScheduler_frame _ _ _ _ _ _ (by decide)]
    exact hbound

/-- An upsert with an interval that is not refused makes the scheduler. -/
theorem addJobScheduler_everyScheduler {q : String} {a : UpsertArgs} (hpos : 0 < every)
    (hevery : a.opts.every = some every)
    (hreply : ∀ code, (Script.addJobScheduler q a s).1 ≠ .code code) :
    ∃ n, EveryScheduler q a.jobSchedulerId every n (Script.addJobScheduler q a s).2 := by
  have hopts : ∀ b, (upsertOpts q a b (getOrSetMaxEvents q s)).every = some every := fun b => by
    unfold upsertOpts
    split <;> exact hevery
  rcases hrem : removePendingIteration q a.jobSchedulerId (getOrSetMaxEvents q s) with ⟨b, t⟩
  have ht : (t .metaMaxLenEvents q).isSome = true := by
    have hframe := removePendingIteration_frame q a.jobSchedulerId (getOrSetMaxEvents q s)
      (by decide : Kind.metaMaxLenEvents ∉ pendingWrites)
    rw [hrem] at hframe
    rw [hframe]
    exact isSome_getOrSetMaxEvents q s
  simp only [Script.addJobScheduler, hrem, hevery] at hreply ⊢
  split
  · split
    · exact ⟨_, storeIteration_everyScheduler hpos (hopts b) ht⟩
    · next htaken _ hnone =>
      rw [if_pos htaken, hnone] at hreply
      exact absurd rfl (hreply (-11))
  · exact ⟨_, storeIteration_everyScheduler hpos (hopts b) ht⟩

end Runs

/-! ### A late call with a negative offset -/

/-- An upsert of a scheduler that runs every second, with an offset. -/
def everyOffset (offset : ℤ) : UpsertArgs where
  nextMillis := 0
  opts := { name := "n", every := some 1000, offset := some offset }
  jobSchedulerId := "s"
  templateData := noTemplateData
  timestamp := 10000

/-- The store after the upsert. -/
def offsetStore (offset : ℤ) : Store :=
  (Script.addJobScheduler "bull:q:" (everyOffset offset) .empty).2

/-- The call of the worker that fetched the first iteration two seconds late. -/
def lateCall : IterateArgs where
  nextMillis := 0
  jobSchedulerId := "s"
  timestamp := 12000
  producerId := "repeat:s:10000"

/-- The store after the call. -/
def lateStore (offset : ℤ) : Store :=
  (Script.updateJobScheduler "bull:q:" lateCall (offsetStore offset)).2

/-- Without an offset, a call that is made twice advances the scheduler once. -/
theorem late_call_advances_once :
    EveryScheduler "bull:q:" "s" 1000 10000 (offsetStore 0) ∧
    (lateStore 0 .repeatSet "bull:q:").zscore "s" = some 13000 ∧
    ∃ m, (offsetStore 0 .repeatSet "bull:q:").zscore "s" = some m ∧
      IterationEffect "bull:q:" lateCall m (offsetStore 0) (lateStore 0) := by
  have hsched : EveryScheduler "bull:q:" "s" 1000 10000 (offsetStore 0) :=
    ⟨by decide, by decide +kernel,
      ⟨{ name := some "n", every := some 1000, offset := some 0, ic := some 1 }, by decide +kernel,
        rfl, rfl⟩, by decide +kernel⟩
  have hscore : (lateStore 0 .repeatSet "bull:q:").zscore "s" = some 13000 := by decide +kernel
  have hfirst : QueueStep (Iterating "bull:q:" "s" 1000) (offsetStore 0)
      (.updateJobScheduler "bull:q:" lateCall) (lateStore 0) :=
    .intro (.call hsched.next fun _ => by decide +kernel) rfl
  have hsecond : QueueStep (Iterating "bull:q:" "s" 1000) (lateStore 0)
      (.updateJobScheduler "bull:q:" lateCall)
      (Script.updateJobScheduler "bull:q:" lateCall (lateStore 0)).2 :=
    .intro (.call hscore fun hstale => absurd hstale (by decide)) rfl
  have hrun := (Run.single hfirst).snoc hsecond
  refine ⟨hsched, hscore, ?_⟩
  exact (scheduler_advances_once hsched hrun).1 (offsetStore 0) lateCall (lateStore 0)
    (List.mem_append_left _ (List.mem_singleton_self _)) rfl

/-- With an offset of minus five seconds the late call moves the scheduler back by two seconds. -/
theorem negative_offset_goes_back :
    EveryScheduler "bull:q:" "s" 1000 10000 (offsetStore (-5000)) ∧
    (Script.updateJobScheduler "bull:q:" lateCall (offsetStore (-5000))).1 = .id "repeat:s:8000" ∧
    (lateStore (-5000) .repeatSet "bull:q:").zscore "s" = some 8000 ∧
    ¬ IterationEffect "bull:q:" lateCall 10000 (offsetStore (-5000)) (lateStore (-5000)) := by
  have hscore : (lateStore (-5000) .repeatSet "bull:q:").zscore "s" = some 8000 := by
    decide +kernel
  have hsched : EveryScheduler "bull:q:" "s" 1000 10000 (offsetStore (-5000)) :=
    ⟨by decide, by decide +kernel,
      ⟨{ name := some "n", every := some 1000, offset := some (-5000), ic := some 1 },
        by decide +kernel, rfl, rfl⟩, by decide +kernel⟩
  refine ⟨hsched, by decide +kernel, hscore, ?_⟩
  rintro (⟨-, m', hadv⟩ | hsame)
  · rw [hadv.score, Function.update_self, SortedSet.zscore_zadd,
      if_pos (show "s" = lateCall.jobSchedulerId from rfl)] at hscore
    have hlater := hadv.later
    rw [Option.some.inj hscore] at hlater
    exact absurd hlater (by decide)
  · rw [hsame _ (by decide)] at hscore
    exact absurd hscore (by decide +kernel)

end BullMQ
