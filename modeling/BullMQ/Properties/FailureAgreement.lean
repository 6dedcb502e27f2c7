import BullMQ.Placement.Basic
import BullMQ.Model.Parent
import BullMQ.Postgres.Holders

/-!
# A failed child on both backends

What the permanent failure of a child does to its parent: whether the parent is released, whether
the failure is deferred to it, and in which account the child ends. `handle_child_failure` follows
`moveChildFromDependenciesIfNeeded` but for a parent that fails through its child while it is
delayed, which only Redis releases, or has failed already, where only PostgreSQL defers the failure
(`childFailure_agrees_iff`).
-/

namespace BullMQ

open Redis Sql

/-! ### The same parent on both backends -/

/-- The state of the jobs in a container. -/
def Container.state : Container → Postgres.JobState
  | .inl .wait | .inl .paused | .inr .prioritized => .waiting
  | .inl .active => .active
  | .inr .delayed => .delayed
  | .inr .completed => .completed
  | .inr .failed => .failed
  | .inr .waitingChildren => .waitingChildren

/-- The containers that hold a job are those of one state. -/
def HasState (s : Store) (p j : String) (st : Postgres.JobState) : Prop :=
  ∀ st', (∃ c : Container, c.state = st' ∧ countIn s c p j ≠ 0) ↔ st' = st

/-- The account that holds the children of a status. -/
def Postgres.DepStatus.account : Postgres.DepStatus → Account
  | .pending => .dependencies
  | .processed => .processed
  | .ignored => .failedChildren
  | .failed => .unsuccessful

/-- The key of a job in Redis, where the keys of all queues have a prefix. -/
def Postgres.JobKey.key (pre : String) (k : Postgres.JobKey) : String := pre ++ ":" ++ k.text

/-- The backends agree on a parent: on its state, on whether a failure is deferred to it, and on
the account of each of its children. -/
structure ParentAgrees (pre : String) (P : Parent) (parent : Postgres.JobKey) (s : Store)
    (db : Postgres.Db) : Prop where
  row : ∃ job row, s .hash P.key = some job ∧ db.job.find parent = some row ∧
    HasState s P.base P.id row.state ∧ job.defa.isSome = row.deferredFailure.isSome
  children : ∀ st x, x ∈ childrenIn s st.account P.key ↔
    ∃ c : Postgres.JobKey, c.key pre = x ∧ db.depStatus parent c = some st

/-- The backends hold the same parent: beside what they agree on, the delay that a release reads and
the count of the pending children. The name of a queue has no colon. -/
structure SameParent (pre : String) (P : Parent) (parent : Postgres.JobKey) (s : Store)
    (db : Postgres.Db) : Prop extends ParentAgrees pre P parent s db where
  delay : ∀ row, db.job.find parent = some row → s.delayOf P.key = row.delay
  counted : ∀ row, db.job.find parent = some row → row.pendingDeps = db.pendingCount parent
  named : ∀ c, db.depStatus parent c ≠ none → ColonFree c.queue

/-- A job is the child of a parent, under the failure policy that the parent entry states. -/
def IsChild (P : Parent) (parent child : Postgres.JobKey) (db : Postgres.Db) : Prop :=
  ColonFree child.queue ∧ ∃ row, db.job.find child = some row ∧ row.parent = some parent ∧
    row.opts.failParentOnFailure = P.fpof ∧ row.opts.continueParentOnFailure = P.cpof ∧
    row.opts.ignoreDependencyOnFailure = P.idof ∧ row.opts.removeDependencyOnFailure = P.rdof

/-- The state of a parent after it is released if it waits for its children. -/
def released (delay : ℤ) (st : Postgres.JobState) : Postgres.JobState :=
  if st = .waitingChildren then if 0 < delay then .delayed else .waiting else st

/-! ### States in Redis -/

section States

variable {s s' : Store} {p j : String} {st st' : Postgres.JobState}

theorem HasState.unique (h : HasState s p j st) (h' : HasState s p j st') : st = st' :=
  (h' st).mp ((h st).mpr rfl)

theorem HasState.congr (h : HasState s p j st) (hc : ∀ c : Container, s' c.kind = s c.kind) :
    HasState s' p j st := by
  intro st'
  rw [← h st']
  simp only [fun c : Container => countIn_congr (hc c) p j]

theorem HasState.of_frame {W : List Kind} (h : HasState s p j st)
    (hW : ∀ c : Container, c.kind ∉ W) (hs : ∀ {κ}, κ ∉ W → s' κ = s κ) : HasState s' p j st :=
  h.congr fun c => hs (hW c)

theorem HasState.countIn_eq_zero (h : HasState s p j st) {c : Container} (hc : c.state ≠ st) :
    countIn s c p j = 0 := by
  by_contra hne
  exact hc ((h c.state).mp ⟨c, rfl, hne⟩)

theorem countIn_hset (s : Store) (k : String) (f : Job → Job) (c : Container) (p j : String) :
    countIn (s.hset k f) c p j = countIn s c p j :=
  countIn_congr (Store.hset_of_ne _ _ _ (by rcases c with _ | _ <;> simp [Container.kind])) p j

theorem HasState.hset (h : HasState s p j st) (k : String) (f : Job → Job) :
    HasState (s.hset k f) p j st := by
  intro st'
  simp only [countIn_hset]
  exact h st'

/-- The one sorted set of its state holds the job or does not. -/
theorem HasState.mem_iff (h : HasState s p j st) {z : ZSetKey}
    (hz : ∀ c : Container, c.state = Container.state (.inr z) → c = .inr z) :
    j ∈ s (.zset z) p ↔ st = Container.state (.inr z) := by
  rw [mem_zset_iff, eq_comm, ← h]
  constructor
  · exact fun hmem => ⟨.inr z, rfl, hmem⟩
  · rintro ⟨c, hc, hmem⟩
    rwa [← hz c hc]

/-- A job taken out of the one sorted set of its state is nowhere. -/
theorem HasState.gone {z : ZSetKey} (h : HasState s p j (Container.state (.inr z)))
    (hz : ∀ c : Container, c.state = Container.state (.inr z) → c = .inr z) (c : Container) :
    countIn (s.modify (.zset z) p (·.zrem j)) c p j = 0 := by
  by_cases hc : c = .inr z
  · subst hc
    have hnot : j ∉ (s.modify (.zset z) p (·.zrem j)) (.zset z) p := by
      rw [Keyspace.modify_self, Function.update_self, SortedSet.mem_zrem]
      exact fun hmem => hmem.2 rfl
    rw [mem_zset_iff, not_not] at hnot
    exact hnot
  · have hne : c.kind ∉ [Kind.zset z] := kind_ne_of_ne hc
    rw [countIn_congr (modify_notMem hne)]
    exact h.countIn_eq_zero fun heq => hc (hz c heq)

/-- A job that was nowhere and is put into a container. -/
theorem HasState.of_one {W : List Kind} (c : Container) (hgone : ∀ c, countIn s c p j = 0)
    (hs : ∀ {κ}, κ ∉ W → s' κ = s κ) (hW : ∀ c' : Container, c' ≠ c → c'.kind ∉ W)
    (hc : countIn s' c p j ≠ 0) : HasState s' p j c.state := by
  intro st'
  constructor
  · rintro ⟨c', rfl, hne⟩
    by_cases hcc : c' = c
    · rw [hcc]
    · rw [countIn_congr (hs (hW c' hcc)), hgone] at hne
      exact absurd rfl hne
  · rintro rfl
    exact ⟨c, rfl, hc⟩

end States

theorem state_waitingChildren (c : Container)
    (h : c.state = Container.state (.inr .waitingChildren)) : c = .inr .waitingChildren := by
  rcases c with (_ | _ | _) | (_ | _ | _ | _ | _) <;> first | rfl | cases h

theorem state_delayed (c : Container) (h : c.state = Container.state (.inr .delayed)) :
    c = .inr .delayed := by
  rcases c with (_ | _ | _) | (_ | _ | _ | _ | _) <;> first | rfl | cases h

theorem state_failed (c : Container) (h : c.state = Container.state (.inr .failed)) :
    c = .inr .failed := by
  rcases c with (_ | _ | _) | (_ | _ | _ | _ | _) <;> first | rfl | cases h

/-! ### The parent in Redis -/

section Release

variable {s : Store} {P : Parent} {st : Postgres.JobState}

theorem delayOf_congr {s s' : Store} (h : s' .hash = s .hash) (k : String) :
    s'.delayOf k = s.delayOf k := by
  rw [Store.delayOf, h, Store.delayOf]

theorem hasState_moveParentToWait (hgone : ∀ c, countIn s c P.base P.id = 0) (t : ℤ) :
    HasState (moveParentToWait P t s) P.base P.id
      (if 0 < s.delayOf P.key then .delayed else .waiting) := by
  simp only [moveParentToWait]
  split
  · refine HasState.of_one (W := [.zset .delayed, .events, .marker]) (.inr .delayed) hgone ?_ ?_ ?_
    · intro κ hκ
      simp only [List.mem_cons, List.not_mem_nil, or_false, not_or] at hκ
      rw [addDelayMarkerIfNeeded_frame _ _ (by simpa using hκ.2.2), Store.xadd_of_ne _ _ _ hκ.2.1,
        Keyspace.modify_of_ne _ hκ.1]
    · intro c hc
      rcases c with (_ | _ | _) | (_ | _ | _ | _ | _) <;> first | exact absurd rfl hc | decide
    · rw [← mem_zset_iff, addDelayMarkerIfNeeded_frame _ _ (by decide),
        Store.xadd_of_ne _ _ _ (by decide), Keyspace.modify_self, Function.update_self,
        SortedSet.mem_zadd]
      exact .inl rfl
  · split
    · refine HasState.of_one (W := [.list .wait, .events, .marker]) (.inl .wait) hgone ?_ ?_ ?_
      · intro κ hκ
        simp only [List.mem_cons, List.not_mem_nil, or_false, not_or] at hκ
        rw [Store.xadd_of_ne _ _ _ hκ.2.1, addJobInTargetList_frame _ _ _ _ _ (by simp [hκ])]
      · intro c hc
        rcases c with (_ | _ | _) | (_ | _ | _ | _ | _) <;> first | exact absurd rfl hc | decide
      · rw [← mem_list_iff, Store.xadd_of_ne _ _ _ (by decide), addJobInTargetList,
          addBaseMarkerIfNeeded_frame _ _ _ (by decide), Keyspace.modify_self,
          Function.update_self, PushCmd.mem_push]
        exact .inl rfl
    · refine HasState.of_one (W := [.zset .prioritized, .pc, .events, .marker])
        (.inr .prioritized) hgone ?_ ?_ ?_
      · intro κ hκ
        simp only [List.mem_cons, List.not_mem_nil, or_false, not_or] at hκ
        rw [Store.xadd_of_ne _ _ _ hκ.2.2.1, addJobWithPriority_frame _ _ _ _ _ (by simp [hκ])]
      · intro c hc
        rcases c with (_ | _ | _) | (_ | _ | _ | _ | _) <;> first | exact absurd rfl hc | decide
      · rw [← mem_zset_iff, Store.xadd_of_ne _ _ _ (by decide)]
        simp only [addJobWithPriority]
        rw [addBaseMarkerIfNeeded_frame _ _ _ (by decide), Keyspace.modify_self,
          Function.update_self, SortedSet.mem_zadd]
        exact .inl rfl

theorem hasState_moveParentToWaitIfNeeded (hex : s.jobExists P.key = true)
    (h : HasState s P.base P.id st) (t : ℤ) :
    HasState (moveParentToWaitIfNeeded P t s) P.base P.id (released (s.delayOf P.key) st) := by
  have hiff := h.mem_iff state_waitingChildren
  unfold moveParentToWaitIfNeeded released
  by_cases hwait : st = .waitingChildren
  · subst hwait
    rw [if_pos ⟨hex, hiff.mpr rfl⟩, if_pos rfl]
    have hmoved := hasState_moveParentToWait (t := t) (h.gone state_waitingChildren)
    rwa [delayOf_congr (Keyspace.modify_of_ne _ (by decide) ..)] at hmoved
  · rw [if_neg fun hc => hwait (hiff.mp hc.2), if_neg hwait]
    exact h

theorem hasState_moveParentToWaitIfNoPendingDependencies (hex : s.jobExists P.key = true)
    (h : HasState s P.base P.id st) (t : ℤ) :
    HasState (moveParentToWaitIfNoPendingDependencies P t s) P.base P.id
      (if s .dependencies P.key = ∅ then released (s.delayOf P.key) st else st) := by
  unfold moveParentToWaitIfNoPendingDependencies
  split
  · exact hasState_moveParentToWaitIfNeeded hex h t
  · exact h

/-- A parent whose hash is written is released from the one sorted set of its state. -/
theorem hasState_release {z : ZSetKey} (h : HasState s P.base P.id (Container.state (.inr z)))
    (hz : ∀ c : Container, c.state = Container.state (.inr z) → c = .inr z) (f : Job → Job)
    (t : ℤ) :
    HasState (moveParentToWait P t
        (Store.hset (s.modify (.zset z) P.base (·.zrem P.id)) P.key f)) P.base P.id
      (if 0 < (f ((s .hash P.key).getD {})).delay.getD 0 then .delayed else .waiting) := by
  have hmoved := hasState_moveParentToWait (P := P) (t := t)
    (s := Store.hset (s.modify (.zset z) P.base (·.zrem P.id)) P.key f) fun c => by
      rw [countIn_hset]
      exact h.gone hz c
  have hdelay : Store.delayOf (Store.hset (s.modify (.zset z) P.base (·.zrem P.id)) P.key f) P.key =
      (f ((s .hash P.key).getD {})).delay.getD 0 := by
    rw [Store.delayOf, Store.hset_hash, if_pos rfl, Keyspace.modify_of_ne _ (by simp)]
    rfl
  rwa [hdelay] at hmoved

/-- A parent fails through its child: it is released if it waits or is delayed, and the failure is
deferred to it unless it failed already. -/
theorem handleChildFailureAndMoveParentToWait_spec {job : Job} (hjob : s .hash P.key = some job)
    (h : HasState s P.base P.id st) (childKey : String) (t : ℤ) :
    HasState (handleChildFailureAndMoveParentToWait P childKey t s) P.base P.id
        (if st = .delayed then .waiting else released (s.delayOf P.key) st) ∧
      ∃ job', handleChildFailureAndMoveParentToWait P childKey t s .hash P.key = some job' ∧
        job'.defa.isSome = (job.defa.isSome || decide (st ≠ .failed)) := by
  have hex : s.jobExists P.key = true := by rw [Store.jobExists, hjob]; rfl
  have hdelay : s.delayOf P.key = job.delay.getD 0 := by rw [Store.delayOf, hjob]; rfl
  have hwait : P.id ∈ s (.zset .waitingChildren) P.base ↔ st = .waitingChildren :=
    h.mem_iff state_waitingChildren
  have hdelayed : P.id ∈ s (.zset .delayed) P.base ↔ st = .delayed := h.mem_iff state_delayed
  have hfailed : P.id ∈ s (.zset .failed) P.base ↔ st = .failed := h.mem_iff state_failed
  simp only [handleChildFailureAndMoveParentToWait, if_pos hex]
  split
  · next hin =>
    obtain rfl := hwait.mp hin
    have hmoved := hasState_release h state_waitingChildren
      (fun job => { job with defa := some (deferredFailure childKey) }) t
    rw [hjob] at hmoved
    refine ⟨?_, { job with defa := some (deferredFailure childKey) }, ?_, by simp⟩
    · rw [hdelay]
      exact hmoved
    · rw [moveParentToWait_frame _ _ _ (by decide), Store.hset_hash, if_pos rfl,
        Keyspace.modify_of_ne _ (by decide), hjob]
      rfl
  · next hnotwait =>
    split
    · next hin =>
      obtain rfl := hdelayed.mp hin
      -- The delay is dropped, so that the parent is released to `wait`.
      have hmoved := hasState_release (h.hset P.key fun job => { job with delay := some 0 })
        state_delayed (fun job => { job with defa := some (deferredFailure childKey) }) t
      rw [Store.hset_hash, if_pos rfl, hjob] at hmoved
      refine ⟨hmoved, { job with delay := some 0, defa := some (deferredFailure childKey) }, ?_,
        by simp⟩
      rw [moveParentToWait_frame _ _ _ (by decide), Store.hset_hash, if_pos rfl,
        Keyspace.modify_of_ne _ (by decide), Store.hset_hash, if_pos rfl, hjob]
      rfl
    · next hnotdelayed =>
      have hstay : (if st = .delayed then Postgres.JobState.waiting
          else released (s.delayOf P.key) st) = st := by
        rw [if_neg fun heq => hnotdelayed (hdelayed.mpr heq), released,
          if_neg fun heq => hnotwait (hwait.mpr heq)]
      rw [hstay]
      split
      · next hin =>
        obtain rfl := hfailed.mp hin
        exact ⟨h, job, hjob, by simp⟩
      · next hnotfailed =>
        refine ⟨h.hset _ _, { job with defa := some (deferredFailure childKey) }, ?_, ?_⟩
        · rw [Store.hset_hash, if_pos rfl, hjob]
          rfl
        · have hne : st ≠ .failed := fun heq => hnotfailed (hfailed.mpr heq)
          simp [hne]

/-- The parent of a failed child that is a dependency. -/
theorem moveChildFromDependenciesIfNeeded_spec {job : Job} (hjob : s .hash P.key = some job)
    (h : HasState s P.base P.id st) {childKey : String} (hin : childKey ∈ s .dependencies P.key)
    (r : String) (t : ℤ) :
    HasState (moveChildFromDependenciesIfNeeded (some P) childKey r t s) P.base P.id
        (if P.fpof ∧ st = .delayed then .waiting
          else if P.fpof ∨ P.cpof ∨
            (P.idof ∨ P.rdof) ∧ (s .dependencies P.key).srem childKey = ∅ then
              released (s.delayOf P.key) st else st) ∧
      ∃ job', moveChildFromDependenciesIfNeeded (some P) childKey r t s .hash P.key = some job' ∧
        job'.defa.isSome = (job.defa.isSome || P.fpof && decide (st ≠ .failed)) := by
  -- The accounts of children are no containers, so the state stays when they change.
  have hacct : ∀ (κ : Kind) (f : Val κ → Val κ) (s₁ : Store) (st₁ : Postgres.JobState),
      κ ∈ [Kind.dependencies, .unsuccessful, .failedChildren] → HasState s₁ P.base P.id st₁ →
        HasState (s₁.modify κ P.key f) P.base P.id st₁ := by
    intro κ f s₁ st₁ hκ h₁
    refine h₁.of_frame (W := [κ]) (fun c => ?_) modify_notMem
    simp only [List.mem_cons, List.not_mem_nil, or_false] at hκ
    obtain rfl | rfl | rfl := hκ <;> rcases c with l | z <;> simp [Container.kind]
  have hex : s.jobExists P.key = true := by rw [Store.jobExists, hjob]; rfl
  have hdep : (s.modify .dependencies P.key (·.srem childKey)) .dependencies P.key =
      (s .dependencies P.key).srem childKey := by
    rw [Keyspace.modify_self, Function.update_self]
  have hstate := hacct .dependencies (·.srem childKey) s st (by decide) h
  simp only [moveChildFromDependenciesIfNeeded, if_pos hin]
  -- The policies in the order in which the script asks for them.
  cases P.fpof with
  | true =>
    have hjob' : Keyspace.modify (s.modify .dependencies P.key (·.srem childKey))
      .unsuccessful P.key
        (·.zadd t childKey) .hash P.key = some job := by
      rw [Keyspace.modify_of_ne _ (by decide), Keyspace.modify_of_ne _ (by decide), hjob]
    have hfail := handleChildFailureAndMoveParentToWait_spec (P := P) (t := t) hjob'
      (hacct .unsuccessful _ _ _ (by decide) hstate) childKey
    rw [delayOf_congr (Keyspace.modify_of_ne _ (by decide) ..),
      delayOf_congr (Keyspace.modify_of_ne _ (by decide) ..)] at hfail
    simpa using hfail
  | false =>
    simp only [Bool.false_eq_true, false_and, false_or, if_false, Bool.false_and, Bool.or_false]
    cases P.cpof with
    | true =>
      simp only [true_or, if_true]
      refine ⟨?_, job, ?_, rfl⟩
      · have hmoved := hasState_moveParentToWaitIfNeeded (P := P) (t := t)
          (s := Keyspace.modify (s.modify .dependencies P.key (·.srem childKey)) .failedChildren
            P.key (·.insert childKey r)) hex (hacct .failedChildren _ _ _ (by decide) hstate)
        rwa [delayOf_congr (Keyspace.modify_of_ne _ (by decide) ..),
          delayOf_congr (Keyspace.modify_of_ne _ (by decide) ..)] at hmoved
      · rw [moveParentToWaitIfNeeded_frame _ _ _ (by decide), Keyspace.modify_of_ne _ (by decide),
          Keyspace.modify_of_ne _ (by decide), hjob]
    | false =>
      simp only [Bool.false_eq_true, false_or, if_false]
      have hmoved := hasState_moveParentToWaitIfNoPendingDependencies (P := P) (t := t)
        (s := s.modify .dependencies P.key (·.srem childKey)) hex hstate
      rw [hdep, delayOf_congr (Keyspace.modify_of_ne _ (by decide) ..)] at hmoved
      have hhash : moveParentToWaitIfNoPendingDependencies P t
          (s.modify .dependencies P.key (·.srem childKey)) .hash P.key = some job := by
        rw [moveParentToWaitIfNoPendingDependencies_frame _ _ _ (by decide),
          Keyspace.modify_of_ne _ (by decide), hjob]
      cases P.idof with
      | true =>
        simp only [true_or, true_and, if_true]
        refine ⟨hacct .failedChildren _ _ _ (by decide) hmoved, job, ?_, rfl⟩
        rw [Keyspace.modify_of_ne _ (by decide), hhash]
      | false =>
        simp only [Bool.false_eq_true, false_or, if_false]
        cases P.rdof with
        | true =>
          simp only [true_and, if_true]
          exact ⟨hmoved, job, hhash, rfl⟩
        | false =>
          simp only [Bool.false_eq_true, false_and, if_false]
          exact ⟨h, job, hjob, rfl⟩

end Release

/-! ### The account of the child -/

/-- The status that the failure of a child gives its dependency; without one, the dependency goes.
-/
def Parent.failureStatus (P : Parent) : Option Postgres.DepStatus :=
  if P.fpof then some .failed else if P.cpof ∨ P.idof then some .ignored else none

/-- A child has one of the failure policies. -/
def Parent.HasPolicy (P : Parent) : Prop := P.fpof ∨ P.cpof ∨ P.idof ∨ P.rdof

section Children

variable {s : Store} {P : Parent} {childKey x : String} {a : Account}

/-- The children of a parent that a write enters into one account. -/
theorem mem_childrenIn_settled {s' : Store} {b : Account} {f : Val b.kind → Val b.kind}
    (hs' : childrenIn s' a P.key =
      childrenIn ((s.modify .dependencies P.key (·.srem childKey)).modify b.kind P.key f) a P.key)
    (hf : ∀ v, x ∈ b.keys (f v) ↔ x = childKey ∨ x ∈ b.keys v) :
    x ∈ childrenIn s' a P.key ↔
      (x ∈ childrenIn s a P.key ∧ ¬ (a = .dependencies ∧ x = childKey)) ∨
        a = b ∧ x = childKey := by
  rw [hs', mem_childrenIn_enter hf, mem_childrenIn_srem]
  simp

/-- A failed child leaves the dependencies, for the account of its policy. -/
theorem mem_childrenIn_childFailure (hin : childKey ∈ s .dependencies P.key) (hP : P.HasPolicy)
    (r : String) (t : ℤ) :
    x ∈ childrenIn (moveChildFromDependenciesIfNeeded (some P) childKey r t s) a P.key ↔
      (x ∈ childrenIn s a P.key ∧ ¬ (a = .dependencies ∧ x = childKey)) ∨
        P.failureStatus.map Postgres.DepStatus.account = some a ∧ x = childKey := by
  have hrel : a.kind ∉ Kind.zset .waitingChildren :: releaseWrites := by cases a <;> decide
  have hhash : a.kind ∉ Kind.hash :: .zset .waitingChildren :: releaseWrites := by
    cases a <;> decide
  simp only [moveChildFromDependenciesIfNeeded, if_pos hin, Parent.failureStatus]
  by_cases hfpof : P.fpof = true
  · simp only [if_pos hfpof, Option.map_some, Option.some.injEq, eq_comm (b := a)]
    exact mem_childrenIn_settled (b := .unsuccessful) (f := (·.zadd t childKey))
      (childrenIn_congr (handleChildFailureAndMoveParentToWait_frame _ _ _ _ hhash) _)
      fun _ => SortedSet.mem_zadd
  · simp only [if_neg hfpof]
    by_cases hcpof : P.cpof = true
    · simp only [hcpof, true_or, if_true, Option.map_some, Option.some.injEq,
        eq_comm (b := a)]
      exact mem_childrenIn_settled (b := .failedChildren) (f := (·.insert childKey r))
        (childrenIn_congr (moveParentToWaitIfNeeded_frame _ _ _ hrel) _)
        fun _ => AList.mem_insert _
    · have hlast : P.idof ∨ P.rdof := by
        obtain hc | hc | hc := hP
        · exact absurd hc hfpof
        · exact absurd hc hcpof
        · exact hc
      have hsame : childrenIn (moveParentToWaitIfNoPendingDependencies P t
          (s.modify .dependencies P.key (·.srem childKey))) a P.key =
            childrenIn (s.modify .dependencies P.key (·.srem childKey)) a P.key :=
        childrenIn_congr (moveParentToWaitIfNoPendingDependencies_frame _ _ _ hrel) _
      simp only [if_neg hcpof, if_pos hlast, or_iff_right hcpof]
      by_cases hidof : P.idof = true
      · simp only [if_pos hidof, Option.map_some, Option.some.injEq]
        rw [mem_childrenIn_enter (b := .failedChildren) (fun _ => AList.mem_insert _), hsame,
          mem_childrenIn_srem]
        simp [Postgres.DepStatus.account, eq_comm (a := a)]
      · simp only [if_neg hidof, Option.map_none]
        rw [hsame, mem_childrenIn_srem]
        simp

end Children

/-! ### The parent in PostgreSQL -/

section Rows

open Postgres

variable {db : Postgres.Db} {P : Parent} {parent child : Postgres.JobKey} {row : Postgres.JobRow}

theorem depStatus_congr {db' : Postgres.Db} (h : db'.dependency = db.dependency)
    (parent c : Postgres.JobKey) : db'.depStatus parent c = db.depStatus parent c := by
  rw [Db.depStatus, h, Db.depStatus]

theorem moveParentToWait_dependency (parent : Postgres.JobKey) (now : ℤ) (db : Postgres.Db) :
    (Postgres.moveParentToWait parent now db).dependency = db.dependency := by
  unfold Postgres.moveParentToWait
  split
  · rfl
  · split
    · dsimp only
      split
      · rw [publishEvent_dependency]
        rfl
      · rw [publishEvent_dependency]
        rfl
    · rfl

theorem settleDependency_dependency (parent : Postgres.JobKey) (now : ℤ) (db : Postgres.Db) :
    (settleDependency parent now db).dependency = db.dependency := by
  simp only [settleDependency]
  split
  · exact moveParentToWait_dependency _ _ _
  · rfl

theorem find_moveParentToWait (hrow : db.job.find parent = some row) (now : ℤ) :
    ∃ row', (Postgres.moveParentToWait parent now db).job.find parent = some row' ∧
      row'.state = released row.delay row.state ∧
      row'.deferredFailure = row.deferredFailure := by
  unfold Postgres.moveParentToWait released
  rw [hrow]
  dsimp only
  have hnext : db.nextJobSeq.2.job.find parent = some row := hrow
  split
  · split
    · have hfind := find_updateJob _ hnext fun parentRow => { parentRow with
        state := .delayed, processAt := some (now + row.delay), seq := db.nextJobSeq.1 }
      exact ⟨_, (congrArg (Table.find · parent) (publishEvent_job _ _ _)).trans hfind, rfl, rfl⟩
    · have hfind := find_updateJob _ hnext fun parentRow =>
        { parentRow with state := .waiting, seq := db.nextJobSeq.1 }
      exact ⟨_, (congrArg (Table.find · parent) (publishEvent_job _ _ _)).trans hfind, rfl, rfl⟩
  · exact ⟨row, hrow, rfl, rfl⟩

theorem find_settleDependency (hrow : db.job.find parent = some row) (now : ℤ) :
    ∃ row', (settleDependency parent now db).job.find parent = some row' ∧
      row'.state = (if row.pendingDeps - 1 = 0 then released row.delay row.state else row.state) ∧
      row'.deferredFailure = row.deferredFailure := by
  have hdec : (db.decrementDeps parent).job.find parent =
      some { row with pendingDeps := row.pendingDeps - 1 } := find_updateJob db hrow _
  have hzero : (db.decrementDeps parent).noPendingDeps parent =
      decide (row.pendingDeps - 1 = 0) := by
    rw [Db.noPendingDeps, hdec]
    rfl
  simp only [settleDependency, hzero, decide_eq_true_eq]
  split
  · exact find_moveParentToWait hdec now
  · exact ⟨_, hdec, rfl, rfl⟩

/-- The parent of a failed child whose dependency is pending. -/
theorem handleChildFailure_spec (hchild : IsChild P parent child db)
    (hrow : db.job.find parent = some row) (hpending : db.depStatus parent child = some .pending)
    (reason : String) (now : ℤ) :
    ∃ row', (handleChildFailure child reason now db).job.find parent = some row' ∧
      row'.state = (if P.fpof ∨ P.cpof ∨ (P.idof ∨ P.rdof) ∧ row.pendingDeps - 1 = 0 then
        released row.delay row.state else row.state) ∧
      row'.deferredFailure.isSome = (row.deferredFailure.isSome || P.fpof) := by
  obtain ⟨-, childRow, hfind, hparent, hf, hc, hi, hr⟩ := hchild
  let settle (st : DepStatus) : Db :=
    { db with dependency := db.dependency.updateKey (parent, child) fun _ => ⟨st, some reason⟩ }
  simp only [handleChildFailure, hfind, hparent, if_pos hpending, hf, hc, hi, hr]
  -- The policies in the order of the SQL, which is that of the script.
  cases P.fpof with
  | true =>
    simp only [true_or, if_true, Bool.or_true]
    have hdec := find_updateJob (settle .failed) hrow fun row =>
      { row with pendingDeps := row.pendingDeps - 1 }
    have hdefer := find_updateJob _ hdec fun row =>
      { row with deferredFailure := some (childFailure child) }
    obtain ⟨row', hrow', hstate, hdeferred⟩ := find_moveParentToWait hdefer now
    exact ⟨row', hrow', hstate, by rw [hdeferred]; rfl⟩
  | false =>
    simp only [Bool.false_eq_true, false_or, if_false, Bool.or_false]
    cases P.cpof with
    | true =>
      simp only [true_or, if_true]
      have hdec := find_updateJob (settle .ignored) hrow fun row =>
        { row with pendingDeps := row.pendingDeps - 1 }
      obtain ⟨row', hrow', hstate, hdeferred⟩ := find_moveParentToWait hdec now
      exact ⟨row', hrow', hstate, by rw [hdeferred]⟩
    | false =>
      simp only [Bool.false_eq_true, false_or, if_false]
      cases P.idof with
      | true =>
        simp only [true_or, true_and, if_true]
        obtain ⟨row', hrow', hstate, hdeferred⟩ := find_settleDependency
          (show (settle .ignored).job.find parent = some row from hrow) now
        exact ⟨row', hrow', hstate, by rw [hdeferred]⟩
      | false =>
        simp only [Bool.false_eq_true, false_or, if_false]
        cases P.rdof with
        | true =>
          simp only [true_and, if_true]
          obtain ⟨row', hrow', hstate, hdeferred⟩ := find_settleDependency
            (show Table.find (Db.job { db with
              dependency := db.dependency.deleteKey (parent, child) }) parent =
                some row from hrow) now
          exact ⟨row', hrow', hstate, by rw [hdeferred]⟩
        | false =>
          simp only [Bool.false_eq_true, false_and, if_false]
          exact ⟨row, hrow, rfl, rfl⟩

/-- The dependencies of the parent of a failed child whose dependency is pending. -/
theorem depStatus_handleChildFailure (hchild : IsChild P parent child db) (hP : P.HasPolicy)
    (hpending : db.depStatus parent child = some .pending) (reason : String) (now : ℤ)
    (c : Postgres.JobKey) :
    (handleChildFailure child reason now db).depStatus parent c =
      if c = child then P.failureStatus else db.depStatus parent c := by
  obtain ⟨-, childRow, hfind, hparent, hf, hc, hi, hr⟩ := hchild
  have hset : ∀ st : DepStatus, Db.depStatus { db with
      dependency := db.dependency.updateKey (parent, child) fun _ => ⟨st, some reason⟩ } parent c =
        if c = child then some st else db.depStatus parent c := by
    intro st
    simp only [Db.depStatus, Table.find_updateKey, Prod.mk.injEq, true_and]
    by_cases heq : c = child
    · subst heq
      obtain ⟨dep, hdep, -⟩ := Option.map_eq_some_iff.mp hpending
      simp [hdep]
    · simp [heq]
  have hdelete : Db.depStatus { db with
      dependency := db.dependency.deleteKey (parent, child) } parent c =
        if c = child then none else db.depStatus parent c := by
    simp only [Db.depStatus, Table.find_deleteKey, Prod.mk.injEq, true_and]
    by_cases heq : c = child <;> simp [heq]
  simp only [handleChildFailure, hfind, hparent, if_pos hpending, hf, hc, hi, hr,
    Parent.failureStatus]
  by_cases hfpof : P.fpof = true
  · simp only [if_pos hfpof]
    rw [depStatus_congr (moveParentToWait_dependency _ _ _)]
    exact hset .failed
  · simp only [if_neg hfpof]
    by_cases hcpof : P.cpof = true
    · simp only [hcpof, true_or, if_true]
      rw [depStatus_congr (moveParentToWait_dependency _ _ _)]
      exact hset .ignored
    · simp only [if_neg hcpof, or_iff_right hcpof]
      by_cases hidof : P.idof = true
      · simp only [if_pos hidof]
        rw [depStatus_congr (settleDependency_dependency _ _ _)]
        exact hset .ignored
      · have hrdof : P.rdof = true := by
          obtain h | h | h | h := hP
          · exact absurd h hfpof
          · exact absurd h hcpof
          · exact absurd h hidof
          · exact h
        simp only [if_neg hidof, if_pos hrdof]
        rw [depStatus_congr (settleDependency_dependency _ _ _)]
        exact hdelete

end Rows

/-! ### Agreement -/

section Agreement

open Postgres

variable {pre : String} {P : Parent} {parent child : Postgres.JobKey} {s : Store}
  {db : Postgres.Db}

theorem key_inj {pre : String} {k k' : Postgres.JobKey} (hk : ColonFree k.queue)
    (hk' : ColonFree k'.queue) (h : k.key pre = k'.key pre) : k = k' := by
  obtain ⟨queue, id⟩ := k
  obtain ⟨queue', id'⟩ := k'
  simp only [JobKey.key, JobKey.text, String.append_assoc, String.append_right_inj] at h
  obtain rfl := eq_of_append_colon hk hk' h
  simpa using h

theorem length_sub_one_eq_zero {α : Type} {l : List α} (hnodup : l.Nodup) {a : α} (ha : a ∈ l) :
    l.length - 1 = 0 ↔ ∀ b ∈ l, b = a := by
  rcases l with _ | ⟨b, _ | ⟨c, l⟩⟩
  · cases ha
  · obtain rfl : a = b := by simpa using ha
    simp
  · constructor
    · intro hlen
      simp at hlen
    · intro hall
      have hbc : b = c := (hall b (by simp)).trans (hall c (by simp)).symm
      exact absurd hbc
        (by simp only [List.nodup_cons, List.mem_cons, not_or] at hnodup; exact hnodup.1.1)

/-- A pending child is the only one exactly if the counter reaches zero with it. -/
theorem pendingCount_sub_one_eq_zero (hpending : db.depStatus parent child = some .pending) :
    db.pendingCount parent - 1 = 0 ↔ ∀ c, db.depStatus parent c = some .pending → c = child := by
  have hmem : ∀ d row, (d, row) ∈ (db.dependency.select fun d row =>
      decide (d.1 = parent) && decide (row.status = .pending)) ↔
        db.dependency.find d = some row ∧ d.1 = parent ∧ row.status = .pending := by
    intro d row
    rw [Table.mem_select]
    simp
  obtain ⟨dep, hdep, hstatus⟩ := Option.map_eq_some_iff.mp hpending
  have hnodup : (db.dependency.select fun d row =>
      decide (d.1 = parent) && decide (row.status = .pending)).Nodup :=
    (List.Nodup.of_map _ db.dependency.nodup).filter _
  rw [Db.pendingCount, length_sub_one_eq_zero hnodup ((hmem _ dep).mpr ⟨hdep, rfl, hstatus⟩)]
  constructor
  · intro hall c hc
    obtain ⟨dep', hdep', hstatus'⟩ := Option.map_eq_some_iff.mp hc
    have heq := hall _ ((hmem (parent, c) dep').mpr ⟨hdep', rfl, hstatus'⟩)
    simp only [Prod.mk.injEq, true_and] at heq
    exact heq.1
  · rintro hall ⟨⟨parent', c⟩, dep'⟩ hin
    obtain ⟨hdep', rfl, hstatus'⟩ := (hmem _ _).mp hin
    obtain rfl := hall c (Option.map_eq_some_iff.mpr ⟨dep', hdep', hstatus'⟩)
    rw [Option.some.inj (hdep'.symm.trans hdep)]

/-- The dependencies that are left are empty on both backends, or on none. -/
theorem SameParent.last_iff (h : SameParent pre P parent s db) {row : Postgres.JobRow}
    (hrow : db.job.find parent = some row)
    (hpending : db.depStatus parent child = some .pending) :
    (s .dependencies P.key).srem (child.key pre) = ∅ ↔ row.pendingDeps - 1 = 0 := by
  rw [h.counted row hrow, pendingCount_sub_one_eq_zero hpending, MemberSet.eq_empty_iff]
  have hmem : ∀ x, x ∈ s .dependencies P.key ↔
      ∃ c : Postgres.JobKey, c.key pre = x ∧ db.depStatus parent c = some .pending :=
    fun x => h.children .pending x
  constructor
  · intro hempty c hc
    by_contra hne
    refine hempty (c.key pre) (MemberSet.mem_srem.mpr ⟨?_, (hmem _).mpr ⟨c, rfl, hc⟩⟩)
    exact fun heq =>
      hne (key_inj (h.named c (by simp [hc])) (h.named child (by simp [hpending])) heq)
  · intro hall x hx
    obtain ⟨hne, hx⟩ := MemberSet.mem_srem.mp hx
    obtain ⟨c, rfl, hc⟩ := (hmem x).mp hx
    exact hne (by rw [hall c hc])

theorem account_injective {st st' : DepStatus} (h : st.account = st'.account) : st = st' := by
  cases st <;> cases st' <;> first | rfl | cases h

/-- The child ends in the account of its status, and the other children stay where they are. -/
theorem SameParent.children_after (h : SameParent pre P parent s db)
    (hchild : IsChild P parent child db) (hpending : db.depStatus parent child = some .pending)
    (hP : P.HasPolicy) (reason : String) (now : ℤ) (st : DepStatus) (x : String) :
    x ∈ childrenIn (moveChildFromDependenciesIfNeeded (some P) (child.key pre) reason now s)
        st.account P.key ↔
      ∃ c : Postgres.JobKey, c.key pre = x ∧
        (handleChildFailure child reason now db).depStatus parent c = some st := by
  have hin : child.key pre ∈ s .dependencies P.key :=
    (h.children .pending _).mpr ⟨child, rfl, hpending⟩
  simp only [mem_childrenIn_childFailure hin hP, h.children st x,
    depStatus_handleChildFailure hchild hP hpending]
  constructor
  · rintro (⟨⟨c, rfl, hc⟩, hnot⟩ | ⟨hst, rfl⟩)
    · have hne : c ≠ child := by
        rintro rfl
        obtain rfl := Option.some.inj (hpending.symm.trans hc)
        exact hnot ⟨rfl, rfl⟩
      exact ⟨c, rfl, by rw [if_neg hne]; exact hc⟩
    · obtain ⟨st', hst', heq⟩ := Option.map_eq_some_iff.mp hst
      obtain rfl := account_injective heq
      exact ⟨child, rfl, by rw [if_pos rfl]; exact hst'⟩
  · rintro ⟨c, rfl, hc⟩
    by_cases hcc : c = child
    · rw [if_pos hcc] at hc
      exact .inr ⟨by rw [hc]; rfl, by rw [hcc]⟩
    · rw [if_neg hcc] at hc
      exact .inl ⟨⟨c, rfl, hc⟩, fun heq =>
        hcc (key_inj (h.named c (by simp [hc])) hchild.1 heq.2)⟩

/-- The failure of a child acts on the same parent alike, on both backends, but for one that fails
through the child while it is delayed, or has failed already without a deferred failure. -/
theorem childFailure_agrees_iff (h : SameParent pre P parent s db)
    (hchild : IsChild P parent child db) (reason : String) (now : ℤ) :
    ParentAgrees pre P parent
        (moveChildFromDependenciesIfNeeded (some P) (child.key pre) reason now s)
        (handleChildFailure child reason now db) ↔
      ¬ (P.fpof = true ∧ db.depStatus parent child = some .pending ∧
        ∃ row, db.job.find parent = some row ∧
          (row.state = .delayed ∨ row.state = .failed ∧ row.deferredFailure = none)) := by
  obtain ⟨job, row, hjob, hrow, hstate, hdefa⟩ := h.row
  have hin : child.key pre ∈ s .dependencies P.key ↔ db.depStatus parent child = some .pending := by
    refine (h.children .pending _).trans ⟨?_, fun hc => ⟨child, rfl, hc⟩⟩
    rintro ⟨c, hc, hpending⟩
    rwa [← key_inj (h.named c (by simp [hpending])) hchild.1 hc]
  -- A child that is not pending changes nothing on either side; nor does one without a policy.
  by_cases hpending : db.depStatus parent child = some .pending
  · by_cases hP : P.HasPolicy
    · obtain ⟨hstate', job', hjob', hdefa'⟩ :=
        moveChildFromDependenciesIfNeeded_spec hjob hstate (hin.mpr hpending) reason now
      obtain ⟨row', hrow', hst', hdeferred'⟩ :=
        handleChildFailure_spec hchild hrow hpending reason now
      simp only [h.delay row hrow, h.last_iff hrow hpending] at hstate'
      rw [← hst'] at hstate'
      rw [hdefa] at hdefa'
      have hpolicy : P.fpof = true → row'.state = released row.delay row.state := fun hf => by
        rw [hst', if_pos (.inl hf)]
      constructor
      · -- A delayed parent is moved to wait by one script and stays delayed by the other; a failed
        -- one is given the deferred failure by Postgres alone.
        rintro hagree ⟨hfpof, -, row₀, hrow₀, hbad⟩
        obtain rfl : row = row₀ := Option.some.inj (hrow.symm.trans hrow₀)
        obtain ⟨job₁, row₁, hjob₁, hrow₁, hstate₁, hdefa₁⟩ := hagree.row
        obtain rfl : job' = job₁ := Option.some.inj (hjob'.symm.trans hjob₁)
        obtain rfl : row' = row₁ := Option.some.inj (hrow'.symm.trans hrow₁)
        obtain hdelayed | ⟨hfailed, hnone⟩ := hbad
        · rw [if_pos ⟨hfpof, hdelayed⟩] at hstate'
          have heq := hstate'.unique hstate₁
          rw [hpolicy hfpof, hdelayed] at heq
          cases heq
        · rw [hdefa', hdeferred', hfailed, hnone, hfpof] at hdefa₁
          cases hdefa₁
      · intro hgood
        have hnot : P.fpof = true → row.state ≠ .delayed ∧
            ¬ (row.state = .failed ∧ row.deferredFailure = none) := fun hf =>
          ⟨fun hd => hgood ⟨hf, hpending, row, hrow, .inl hd⟩,
            fun hd => hgood ⟨hf, hpending, row, hrow, .inr hd⟩⟩
        refine ⟨⟨job', row', hjob', hrow', ?_, ?_⟩, ?_⟩
        · rwa [if_neg fun hc => (hnot hc.1).1 hc.2] at hstate'
        · rw [hdefa', hdeferred']
          cases hf : P.fpof with
          | false => rfl
          | true =>
            by_cases hfailed : row.state = .failed
            · have hsome : row.deferredFailure ≠ none := fun hnone => (hnot hf).2 ⟨hfailed, hnone⟩
              rw [Option.isSome_iff_ne_none.mpr hsome]
              rfl
            · simp [hfailed]
        · exact h.children_after hchild hpending hP reason now
    · have hpolicy : P.fpof = false ∧ P.cpof = false ∧ P.idof = false ∧ P.rdof = false := by
        simpa [Parent.HasPolicy] using hP
      obtain ⟨hf, hc, hi, hr⟩ := hpolicy
      obtain ⟨-, childRow, hfind, hparent, hf', hc', hi', hr'⟩ := hchild
      have hredis : moveChildFromDependenciesIfNeeded (some P) (child.key pre) reason now
          s = s := by
        simp [moveChildFromDependenciesIfNeeded, hf, hc, hi, hr]
      have hpg : handleChildFailure child reason now db = db := by
        simp [handleChildFailure, hfind, hparent, hf', hc', hi', hr', hf, hc, hi, hr]
      rw [hredis, hpg]
      simp [hf, h.toParentAgrees]
  · obtain ⟨-, childRow, hfind, hparent, -⟩ := hchild
    have hredis : moveChildFromDependenciesIfNeeded (some P) (child.key pre) reason now s = s :=
      if_neg fun hc => hpending (hin.mp hc)
    have hpg : handleChildFailure child reason now db = db := by
      simp only [handleChildFailure, hfind, hparent, if_neg hpending]
    rw [hredis, hpg]
    simp [hpending, h.toParentAgrees]

end Agreement

/-! ### One child that fails its parent -/

/-- A parent in a sorted set of its queue, with one child that fails it. -/
def oneChildStore (z : ZSetKey) : Store :=
  ((Store.empty.set .hash "bull:q:p" (some { delay := some 1000 })).set (.zset z) "bull:q:"
    (SortedSet.zadd 0 "p" ∅)).set .dependencies "bull:q:p" (MemberSet.sadd "bull:q:c" ∅)

/-- The same parent and child in PostgreSQL. -/
def oneChildDb (st : Postgres.JobState) : Postgres.Db :=
  { Postgres.Db.empty with
    job := (Table.insert ∅ ⟨"q", "p"⟩
      { seq := 1, name := "p", state := st, data := "", addedAt := 0, delay := 1000,
        pendingDeps := 1 }).insert ⟨"q", "c"⟩
      { seq := 2, name := "c", state := .active, data := "", addedAt := 0,
        parent := some ⟨"q", "p"⟩, opts := { failParentOnFailure := true } }
    dependency := Table.insert ∅ (⟨"q", "p"⟩, ⟨"q", "c"⟩) {} }

theorem depStatus_oneChildDb (st : Postgres.JobState) (c : Postgres.JobKey) :
    (oneChildDb st).depStatus ⟨"q", "p"⟩ c = if c = ⟨"q", "c"⟩ then some .pending else none := by
  simp only [Postgres.Db.depStatus, oneChildDb, Table.find_insert, Table.find_empty, Prod.mk.injEq,
    true_and]
  split <;> rfl

theorem countIn_oneChildStore (z : ZSetKey) (c : Container) :
    countIn (oneChildStore z) c "bull:q:" "p" ≠ 0 ↔ c = .inr z := by
  rcases c with l | z'
  · have hlist : oneChildStore z (.list l) = Store.empty (.list l) := by
      rw [oneChildStore, Keyspace.set_of_ne _ (by simp), Keyspace.set_of_ne _ (by simp),
        Keyspace.set_of_ne _ (by simp)]
    simp only [countIn, hlist]
    simp [Store.empty, Val.missing]
  · by_cases hz : z' = z
    · subst hz
      have hself : oneChildStore z' (.zset z') "bull:q:" = SortedSet.zadd 0 "p" ∅ := by
        rw [oneChildStore, Keyspace.set_of_ne _ (by simp), Keyspace.set_self,
          Function.update_self]
      simp only [countIn, hself, SortedSet.card_eq]
      simp
    · have hother : oneChildStore z (.zset z') = Store.empty (.zset z') := by
        rw [oneChildStore, Keyspace.set_of_ne _ (by simp), Keyspace.set_of_ne _ (by simpa using hz),
          Keyspace.set_of_ne _ (by simp)]
      simp only [countIn, hother]
      simp [Store.empty, Val.missing, hz]

theorem oneChild_same (z : ZSetKey) :
    SameParent "bull" ⟨"p", "bull:q", true, false, false, false⟩ ⟨"q", "p"⟩ (oneChildStore z)
      (oneChildDb (Container.state (.inr z))) where
  row := by
    refine ⟨{ delay := some 1000 }, _, ?_, rfl, ?_, rfl⟩
    · rfl
    · intro st
      have hcount : ∀ c, countIn (oneChildStore z) c ("bull:q" ++ ":") "p" ≠ 0 ↔ c = .inr z :=
        countIn_oneChildStore z
      simp only [Parent.base, hcount]
      constructor
      · rintro ⟨c, rfl, rfl⟩
        rfl
      · rintro rfl
        exact ⟨_, rfl, rfl⟩
  children := by
    intro st x
    simp only [depStatus_oneChildDb]
    constructor
    · intro hx
      cases st with
      | pending =>
        obtain rfl : x = "bull:q:c" := List.mem_singleton.mp hx
        exact ⟨⟨"q", "c"⟩, by decide, if_pos rfl⟩
      | processed => exact absurd hx List.not_mem_nil
      | ignored => exact absurd hx List.not_mem_nil
      | failed => exact absurd hx List.not_mem_nil
    · rintro ⟨c, rfl, hc⟩
      by_cases hcc : c = ⟨"q", "c"⟩
      · rw [if_pos hcc] at hc
        obtain rfl := Option.some.inj hc
        rw [hcc]
        exact List.mem_singleton.mpr (by decide)
      · rw [if_neg hcc] at hc
        cases hc
  delay := by
    intro row hrow
    obtain rfl := Option.some.inj hrow
    rfl
  counted := by
    intro row hrow
    obtain rfl := Option.some.inj hrow
    rfl
  named := by
    intro c hc
    rw [depStatus_oneChildDb] at hc
    by_cases hcc : c = ⟨"q", "c"⟩
    · rw [hcc]
      decide
    · exact absurd (if_neg hcc) hc

theorem oneChild_isChild (st : Postgres.JobState) :
    IsChild ⟨"p", "bull:q", true, false, false, false⟩ ⟨"q", "p"⟩ ⟨"q", "c"⟩ (oneChildDb st) :=
  ⟨by decide, _, rfl, rfl, rfl, rfl, rfl, rfl⟩

theorem childFailure_agrees_waiting :
    ParentAgrees "bull" ⟨"p", "bull:q", true, false, false, false⟩ ⟨"q", "p"⟩
        (moveChildFromDependenciesIfNeeded (some ⟨"p", "bull:q", true, false, false, false⟩)
          (Postgres.JobKey.key "bull" ⟨"q", "c"⟩) "boom" 0 (oneChildStore .waitingChildren))
        (Postgres.handleChildFailure ⟨"q", "c"⟩ "boom" 0 (oneChildDb .waitingChildren)) := by
  refine (childFailure_agrees_iff (oneChild_same .waitingChildren)
    (oneChild_isChild .waitingChildren) "boom" 0).mpr ?_
  rintro ⟨-, -, row, hrow, hstate⟩
  obtain rfl := Option.some.inj hrow
  obtain hstate | ⟨hstate, -⟩ := hstate <;> cases hstate

/-- A delayed parent is released by Redis, with the failure deferred to it, and stays delayed in
PostgreSQL. -/
theorem childFailure_delayed_parent :
    let s := moveChildFromDependenciesIfNeeded (some ⟨"p", "bull:q", true, false, false, false⟩)
      (Postgres.JobKey.key "bull" ⟨"q", "c"⟩) "boom" 0 (oneChildStore .delayed)
    let db := Postgres.handleChildFailure ⟨"q", "c"⟩ "boom" 0 (oneChildDb .delayed)
    SameParent "bull" ⟨"p", "bull:q", true, false, false, false⟩ ⟨"q", "p"⟩
        (oneChildStore .delayed) (oneChildDb .delayed) ∧
      IsChild ⟨"p", "bull:q", true, false, false, false⟩ ⟨"q", "p"⟩ ⟨"q", "c"⟩
        (oneChildDb .delayed) ∧
      "p" ∈ s (.list .wait) "bull:q:" ∧
      (db.job.find ⟨"q", "p"⟩).map Postgres.JobRow.state = some .delayed ∧
      ¬ ParentAgrees "bull" ⟨"p", "bull:q", true, false, false, false⟩ ⟨"q", "p"⟩ s db := by
  have hwait : "p" ∈ moveChildFromDependenciesIfNeeded
      (some ⟨"p", "bull:q", true, false, false, false⟩) (Postgres.JobKey.key "bull" ⟨"q", "c"⟩)
        "boom" 0 (oneChildStore .delayed) (.list .wait) "bull:q:" := by decide
  refine ⟨oneChild_same .delayed, oneChild_isChild .delayed, hwait, by decide, fun h => ?_⟩
  obtain ⟨job, row, -, hrow, hstate, -⟩ := h.row
  obtain rfl := Option.some.inj hrow
  have heq := (hstate .waiting).mp ⟨.inl .wait, rfl, mem_list_iff.mp hwait⟩
  cases heq

end BullMQ
