import BullMQ.Flow.Entries
import BullMQ.Placement.Basic

/-!
# Adding a child again, and retrying it

Two operations meet a child that its parent already accounts for.

* A child added again under its parent is entered into the parent's pending dependencies unless it
  is completed. `readd_unchanged_iff` says for which children this changes nothing.
* A finished child that is retried becomes a pending dependency again if it is retried alone
  (`reprocessJob`); the retry in bulk (`moveJobsToWait`) does not look at parents.
  `bulkRetry_agrees_iff` says for which jobs the two agree.
-/

namespace BullMQ

open Redis

/-! ### Adding a child again -/

/-- The id occurs in the same containers as before. -/
def SameState (s s' : Store) (p j : String) : Prop := ∀ c, countIn s' c p j = countIn s c p j

/-- What an add under an id that exists leaves alone: the accounts in which the parent has the
child, and the states of the two. -/
structure ChildUnchanged (p j : String) (P : Parent) (s s' : Store) : Prop where
  account : ∀ a, p ++ j ∈ childrenIn s' a P.key ↔ p ++ j ∈ childrenIn s a P.key
  child : SameState s s' p j
  parent : SameState s s' P.base P.id

/-- A parent accounts for a child as the add of an existing id does: a completed child is among
the processed ones and the parent does not wait for an empty set of dependencies, any other child
is a pending dependency. -/
def Accounted (p j : String) (P : Parent) (s : Store) : Prop :=
  if j ∈ s (.zset .completed) p then
    p ++ j ∈ childrenIn s .processed P.key ∧
      ¬ (s .dependencies P.key = ∅ ∧ P.id ∈ s (.zset .waitingChildren) P.base)
  else p ++ j ∈ childrenIn s .dependencies P.key

instance (p j : String) (P : Parent) (s : Store) : Decidable (Accounted p j P s) :=
  inferInstanceAs (Decidable (if j ∈ s (.zset .completed) p then _ ∧ ¬ (_ ∧ _) else _))

section Readd

variable {e : FlowJobEntry} {P P' : Parent} {s : Store}

/-- An add of a child under the parent it already has. -/
structure Readds (e : FlowJobEntry) (P : Parent) (s : Store) : Prop where
  hasId : e.args.customId ≠ ""
  exist : s.jobExists e.key = true
  parentOf : s.parentKeyOf e.key = some P.key
  parentExists : s.jobExists P.key = true
  sameParent : ∃ P', e.args.parent = some P' ∧ P'.id = P.id ∧ P'.queueKey = P.queueKey

/-- Such an add ends in `updateExistingJobsParent`. -/
theorem Readds.add_eq (h : Readds e P s) :
    (e.add s).2 = (updateExistingJobsParent e.p e.args.customId e.args.parent e.args.timestamp
      (drawId e.p s)).xadd e.p (.duplicated e.args.customId) := by
  obtain ⟨P', hP', hid, hqueue⟩ := h.sameParent
  have hkey : P'.key = P.key := by rw [Parent.key, Parent.base, hid, hqueue]; rfl
  have hdraw := FlowJobEntry.drawId_untouched e.p s
  have hex : (drawId e.p s).jobExists (e.p ++ e.args.customId) = true := by
    rw [hdraw.jobExists]
    exact h.exist
  have hlink : ((drawId e.p s).parentOf (e.p ++ e.args.customId)).map Parent.key = some P.key :=
    (hdraw.parent _).trans h.parentOf
  rw [FlowJobEntry.add, addJobWith, if_neg (by simp [hP', hkey, h.parentExists])]
  simp only [newJobId, if_neg h.hasId]
  rw [if_pos ⟨h.hasId, hex⟩, handleDuplicatedJob, hlink]
  simp only
  rw [if_pos (by simp [hP', hkey])]

/-- A change of families other than the containers keeps every state. -/
theorem SameState.of_frame {s' : Store} {W : List Kind} (hs : ∀ {κ}, κ ∉ W → s' κ = s κ)
    (hW : ∀ c : Container, c.kind ∉ W) (p j : String) : SameState s s' p j := fun c =>
  countIn_congr (hs (hW c)) p j

/-- Which account the child is entered into. -/
theorem Readds.child (h : Readds e P s) (a : Account) (k c : String) :
    c ∈ childrenIn (e.add s).2 a k ↔ c ∈ childrenIn s a k ∨
      a = (if e.args.customId ∈ s (.zset .completed) e.p then .processed else .dependencies) ∧
        k = P.key ∧ c = e.key := by
  obtain ⟨P', hP', hid, hqueue⟩ := h.sameParent
  have hkey : e.parentKey = some P.key := by
    rw [FlowJobEntry.parentKey, hP', Option.map_some, Parent.key, Parent.base, hid, hqueue]
    rfl
  have hdraw := FlowJobEntry.drawId_untouched e.p s
  have hex : (drawId e.p s).jobExists e.key = true := by rw [hdraw.jobExists, h.exist]
  have hacc : e.account s =
      if e.args.customId ∈ s (.zset .completed) e.p then .processed else .dependencies := by
    simp [FlowJobEntry.account, FlowJobEntry.Completed, h.exist]
  rw [h.add_eq, childrenIn_congr (Store.xadd_of_ne _ _ _ (by cases a <;> decide)),
    (FlowJobEntry.updateExistingJobsParent_joined hex).child, hdraw.child,
    FlowJobEntry.drawId_account, hacc, hkey, Option.some.injEq, eq_comm (a := k)]

/-- The add draws an id, accounts for the child and writes its parent link: the families other
than the child's hash, the counters and the events are those of the account. -/
theorem Readds.add_of_ne (h : Readds e P s) {κ : Kind}
    (hκ : κ ∉ [Kind.id, .metaMaxLenEvents, .hash, .events]) :
    ∃ P' v, P'.base = P.base ∧ P'.id = P.id ∧ P'.key = P.key ∧ (e.add s).2 κ =
      (if e.args.customId ∈ s (.zset .completed) e.p then
        updateParentDepsIfNeeded P' e.key v e.args.timestamp (drawId e.p s)
      else (drawId e.p s).modify .dependencies P.key (·.sadd e.key)) κ := by
  obtain ⟨P', hP', hid, hqueue⟩ := h.sameParent
  have hbase : P'.base = P.base := by rw [Parent.base, hqueue]; rfl
  have hkey : P'.key = P.key := by rw [Parent.key, hbase, hid]; rfl
  simp only [List.mem_cons, List.not_mem_nil, or_false, not_or] at hκ
  obtain ⟨-, -, hhash, hev⟩ := hκ
  refine ⟨P', ((drawId e.p s .hash e.key).bind Job.returnvalue).getD "", hbase, hid, hkey, ?_⟩
  rw [h.add_eq, Store.xadd_of_ne _ _ _ hev, hP', updateExistingJobsParent]
  simp only
  rw [Store.hset_of_ne _ _ _ hhash, drawId_frame _ _ (κ := .zset .completed) (by decide), hkey]
  rfl

/-- Unless it releases the parent, the add keeps every state. -/
theorem Readds.sameState (h : Readds e P s)
    (hkeep : e.args.customId ∈ s (.zset .completed) e.p →
      ¬ (s .dependencies P.key = ∅ ∧ P.id ∈ s (.zset .waitingChildren) P.base)) (p j : String) :
    SameState s (e.add s).2 p j := by
  refine SameState.of_frame
    (W := [.id, .metaMaxLenEvents, .hash, .events, .processed, .dependencies]) (fun {κ} hκ => ?_)
    (fun c => by rcases c with (_ | _ | _) | (_ | _ | _ | _ | _) <;> decide) p j
  obtain ⟨P', v, hbase, hid, hkey, hres⟩ := h.add_of_ne (Kind.notMem_mono hκ (by decide))
  have hdraw : drawId e.p s κ = s κ := drawId_frame _ _ (Kind.notMem_mono hκ (by decide))
  simp only [List.mem_cons, List.not_mem_nil, or_false, not_or] at hκ
  obtain ⟨-, -, -, -, hproc, hdep⟩ := hκ
  rw [hres]
  split
  · next hcomp =>
    rw [updateParentDepsIfNeeded, moveParentToWaitIfNoPendingDependencies_of_not,
      Keyspace.modify_of_ne _ hproc, hdraw]
    rw [Keyspace.modify_of_ne _ (by decide), Keyspace.modify_of_ne _ (by decide),
      drawId_frame _ _ (by decide), drawId_frame _ _ (by decide), hbase, hid, hkey]
    exact hkeep hcomp
  · rw [Keyspace.modify_of_ne _ hdep, hdraw]

/-- A completed child that is added again releases a parent that waits for nothing. -/
theorem Readds.released (h : Readds e P s) (hcomp : e.args.customId ∈ s (.zset .completed) e.p)
    (hempty : s .dependencies P.key = ∅) : P.id ∉ (e.add s).2 (.zset .waitingChildren) P.base := by
  obtain ⟨P', v, hbase, hid, hkey, hres⟩ := h.add_of_ne (κ := .zset .waitingChildren) (by decide)
  rw [hres, if_pos hcomp, updateParentDepsIfNeeded, ← hbase, ← hid]
  refine notMem_waitingChildren_of_release ?_ ?_ _
  · rw [Keyspace.modify_of_ne _ (by decide), drawId_frame _ _ (by decide), hkey, hempty]
  · rw [Store.jobExists, Keyspace.modify_of_ne _ (by decide), drawId_frame _ _ (by decide), hkey]
    exact h.parentExists

/-- **Adding a child again.** Nothing about the child changes exactly if its parent accounts for it
as the add does. A child that failed and was filed under `:failed` or `:unsuccessful` is among
those that are put back into the pending dependencies. -/
theorem readd_unchanged_iff (e : FlowJobEntry) (P : Parent) (s : Store) (h : Readds e P s) :
    ChildUnchanged e.p e.args.customId P s (e.add s).2 ↔ Accounted e.p e.args.customId P s := by
  have hchild := h.child
  unfold Accounted
  split
  · next hcomp =>
    simp only [if_pos hcomp] at hchild
    constructor
    · intro hsame
      refine ⟨(hsame.account .processed).mp ((hchild _ _ _).mpr (.inr ⟨rfl, rfl, rfl⟩)), ?_⟩
      rintro ⟨hempty, hwait⟩
      have hgone := h.released hcomp hempty
      rw [mem_zset_iff, hsame.parent, ← mem_zset_iff] at hgone
      exact hgone hwait
    · rintro ⟨hproc, hkeep⟩
      refine ⟨fun a => ?_, h.sameState (fun _ => hkeep) _ _, h.sameState (fun _ => hkeep) _ _⟩
      rw [hchild]
      refine or_iff_left_of_imp ?_
      rintro ⟨rfl, -, -⟩
      exact hproc
  · next hcomp =>
    simp only [if_neg hcomp] at hchild
    constructor
    · intro hsame
      exact (hsame.account .dependencies).mp ((hchild _ _ _).mpr (.inr ⟨rfl, rfl, rfl⟩))
    · intro hdep
      refine ⟨fun a => ?_, h.sameState (fun hc => absurd hc hcomp) _ _,
        h.sameState (fun hc => absurd hc hcomp) _ _⟩
      rw [hchild]
      refine or_iff_left_of_imp ?_
      rintro ⟨rfl, -, -⟩
      exact hdep

end Readd

/-- A parent that fails with its child. -/
def failingChildParent : Parent := { id := "parent", queueKey := "bull:q", fpof := true }

/-- The parent and the child are added; the child is fetched and fails. -/
def failingChild : List Command :=
  [.addParentJob "bull:q:" { customId := "parent", name := "n", data := "", timestamp := 1 },
   .addStandardJob "bull:q:"
     { customId := "c", name := "n", data := "", timestamp := 1
       parent := some failingChildParent },
   .moveToActive "bull:q:" 2 { token := "t", lockDuration := 30000 },
   .moveToFinished "bull:q:"
     { jobId := "c", timestamp := 3, value := "e", target := .failed, fetchNext := false
       opts := { token := "t", lockDuration := 30000 } }]

/-- The store after some of these commands. -/
def failingChildStore (n : ℕ) : Store := (runCommands (failingChild.take n) .empty).getD .empty

/-- The add of the child, once more. -/
def addAgain : FlowJobEntry where
  p := "bull:q:"
  args :=
    { customId := "c", name := "n", data := "", timestamp := 4, parent := some failingChildParent }
  addToWaitingChildren := false

/-- While the child is pending, adding it again changes nothing. -/
theorem pendingChild_readd_unchanged :
    ChildUnchanged "bull:q:" "c" failingChildParent (failingChildStore 2)
      (addAgain.add (failingChildStore 2)).2 :=
  (readd_unchanged_iff addAgain failingChildParent (failingChildStore 2)
    ⟨by decide, by decide, by decide, by decide, _, rfl, rfl, rfl⟩).mpr (by decide)

/-- The failed child is filed under `:unsuccessful`; adding it again makes it a pending dependency
too, and it stays failed. -/
theorem failedChild_pending_again :
    runCommands failingChild .empty = some (failingChildStore 4) ∧
    Readds addAgain failingChildParent (failingChildStore 4) ∧
    "bull:q:c" ∈ childrenIn (failingChildStore 4) .unsuccessful "bull:q:parent" ∧
    "bull:q:c" ∉ childrenIn (failingChildStore 4) .dependencies "bull:q:parent" ∧
    "bull:q:c" ∈ childrenIn (addAgain.add (failingChildStore 4)).2 .dependencies "bull:q:parent" ∧
    "c" ∈ (addAgain.add (failingChildStore 4)).2 (.zset .failed) "bull:q:" ∧
    ¬ ChildUnchanged "bull:q:" "c" failingChildParent (failingChildStore 4)
      (addAgain.add (failingChildStore 4)).2 := by
  have hout : "bull:q:c" ∉ childrenIn (failingChildStore 4) .dependencies "bull:q:parent" := by
    decide +kernel
  have hin : "bull:q:c" ∈
      childrenIn (addAgain.add (failingChildStore 4)).2 .dependencies "bull:q:parent" := by
    decide +kernel
  refine ⟨rfl, ⟨by decide, by decide +kernel, by decide +kernel, by decide +kernel, _, rfl,
    rfl, rfl⟩,
    by decide +kernel, hout, hin, by decide +kernel, fun h => hout ?_⟩
  exact (h.account .dependencies).mp hin

/-! ### Retrying finished children -/

/-- The accounts in which a parent keeps a child that finished so. -/
def FinishedStatus.accounts : FinishedStatus → List Account
  | .completed => [.processed]
  | .failed => [.unsuccessful, .failedChildren]

/-- A finished child that an existing parent keeps as such. -/
def Restorable (p : String) (status : FinishedStatus) (s : Store) (j : String) : Prop :=
  ∃ P, s.parentOf (p ++ j) = some P ∧ s.jobExists P.key = true ∧
    ∃ a ∈ status.accounts, p ++ j ∈ childrenIn s a P.key

/-- The jobs that a call of `moveJobsToWait` moves. -/
def bulkJobs (p : String) (state : BulkState) (maxCount timestamp : ℤ) (s : Store) : List String :=
  limitTo maxCount ((s (.zset state.zset) p).rangeByScore 0 timestamp)

/-- `reprocessJob` on one job after the other, with the same options. -/
def reprocessEach (p : String) (a : ReprocessArgs) (jobs : List String) (s : Store) : Store :=
  jobs.foldl (fun s jobId => (Script.reprocessJob p { a with jobId := jobId } s).2) s

section Retry

variable {s : Store} {p j : String} {a : ReprocessArgs} {st : FinishedStatus}

/-- What `restoreDependency` reads of the store: parents, existing jobs and accounts. -/
structure SameLinks (s s' : Store) : Prop where
  jobExists : ∀ k, s'.jobExists k = s.jobExists k
  parentOf : ∀ k, s'.parentOf k = s.parentOf k

theorem SameLinks.trans {s' s'' : Store} (h : SameLinks s s') (h' : SameLinks s' s'') :
    SameLinks s s'' :=
  ⟨fun k => (h'.jobExists k).trans (h.jobExists k), fun k => (h'.parentOf k).trans (h.parentOf k)⟩

/-- A child that is not kept as finished is not restored. -/
theorem restoreDependency_of_not (h : ¬ Restorable p st s j) :
    restoreDependency (p ++ j) st s = s := by
  unfold restoreDependency
  split
  · rfl
  · next P hP =>
    split
    · rfl
    · next hex =>
      have hno : ∀ a ∈ st.accounts, p ++ j ∉ childrenIn s a P.key := fun a ha hin =>
        h ⟨P, hP, by simpa using hex, a, ha, hin⟩
      cases st with
      | failed =>
        have huns : p ++ j ∉ s .unsuccessful P.key := hno .unsuccessful (by decide)
        have hfc : p ++ j ∉ s .failedChildren P.key := hno .failedChildren (by decide)
        simp only [if_neg huns, if_neg hfc]
      | completed =>
        have hproc : p ++ j ∉ s .processed P.key := hno .processed (by decide)
        simp only [if_neg hproc]

/-- Any other child leaves the account that keeps it, and that one only. -/
theorem restoreDependency_of_restorable (h : Restorable p st s j) :
    ∃ (P : Parent) (a : Account), a ∈ st.accounts ∧ p ++ j ∈ childrenIn s a P.key ∧
      ∀ a' k c, a' ≠ .dependencies →
      (c ∈ childrenIn (restoreDependency (p ++ j) st s) a' k ↔
        c ∈ childrenIn s a' k ∧ ¬ (a' = a ∧ k = P.key ∧ c = p ++ j)) := by
  obtain ⟨P, hP, hex, a, ha, hin⟩ := h
  have hsadd : ∀ (s' : Store) (a' : Account) (k c : String), a' ≠ .dependencies →
      (c ∈ childrenIn (s'.modify .dependencies P.key (·.sadd (p ++ j))) a' k ↔
        c ∈ childrenIn s' a' k) := fun s' a' k c ha' => by
    rw [mem_childrenIn_sadd]
    simp [ha']
  unfold restoreDependency
  simp only [hP, hex, not_true_eq_false, if_false]
  cases st with
  | failed =>
    simp only
    by_cases huns : p ++ j ∈ s .unsuccessful P.key
    · refine ⟨P, .unsuccessful, by decide, huns, fun a' k c ha' => ?_⟩
      rw [if_pos huns, hsadd _ _ _ _ ha']
      exact mem_childrenIn_leave (b := .unsuccessful) fun _ => SortedSet.mem_zrem
    · have hfc : p ++ j ∈ s .failedChildren P.key := by
        simp only [FinishedStatus.accounts, List.mem_cons, List.not_mem_nil, or_false] at ha
        rcases ha with rfl | rfl
        · exact absurd hin huns
        · exact hin
      refine ⟨P, .failedChildren, by decide, hfc, fun a' k c ha' => ?_⟩
      rw [if_neg huns, if_pos hfc, hsadd _ _ _ _ ha']
      exact mem_childrenIn_leave (b := .failedChildren) fun _ => AList.mem_erase.trans and_comm
  | completed =>
    have hproc : p ++ j ∈ s .processed P.key := by
      simp only [FinishedStatus.accounts, List.mem_cons, List.not_mem_nil, or_false] at ha
      subst ha
      exact hin
    refine ⟨P, .processed, by decide, hproc, fun a' k c ha' => ?_⟩
    simp only [if_pos hproc]
    rw [hsadd _ _ _ _ ha']
    exact mem_childrenIn_leave (b := .processed) fun _ => AList.mem_erase.trans and_comm

theorem SameLinks.of_hash {s' : Store} (h : s' .hash = s .hash) : SameLinks s s' :=
  ⟨fun k => by rw [Store.jobExists, h, Store.jobExists],
    fun k => by rw [Store.parentOf, h, Store.parentOf]⟩

/-- The part of `reprocessJob` that comes before the parent. -/
def requeueFinished (p : String) (a : ReprocessArgs) (s : Store) : Store :=
  let s : Store := s.modify (.zset a.state.zset) p (·.zrem a.jobId)
  let s := s.hdel (p ++ a.jobId) fun job =>
    let job := job.clearResult a.state
    { job with
      atm := if a.resetAttemptsMade then 0 else job.atm
      ats := if a.resetAttemptsStarted then 0 else job.ats }
  addJobInTargetList p a.pushCmd (isQueuePausedOrMaxed p s) a.jobId s

/-- The ends of `reprocessJob`: a finished job is retried, any other is left alone. -/
theorem reprocessJob_cases (p : String) (a : ReprocessArgs) (s : Store) :
    (s.jobExists (p ++ a.jobId) = true ∧ a.jobId ∈ s (.zset a.state.zset) p ∧
      (Script.reprocessJob p a s).2 = (getOrSetMaxEvents p (restoreDependency (p ++ a.jobId) a.state
        (requeueFinished p a s))).xadd p (.waiting a.jobId (some a.state.name))) ∨
    (¬ (s.jobExists (p ++ a.jobId) = true ∧ a.jobId ∈ s (.zset a.state.zset) p) ∧
      (Script.reprocessJob p a s).2 = s) := by
  simp only [Script.reprocessJob]
  by_cases hex : s.jobExists (p ++ a.jobId) = true
  · rw [if_neg (not_not_intro hex)]
    by_cases hmem : a.jobId ∈ s (.zset a.state.zset) p
    · rw [if_pos hmem]
      exact .inl ⟨hex, hmem, rfl⟩
    · rw [if_neg hmem]
      exact .inr ⟨fun h => hmem h.2, rfl⟩
  · rw [if_pos hex]
    exact .inr ⟨fun h => hex h.1, rfl⟩

theorem requeueFinished_sameLinks (p : String) (a : ReprocessArgs) (s : Store) :
    SameLinks s (requeueFinished p a s) := by
  have hz : (s.modify (.zset a.state.zset) p (·.zrem a.jobId)) .hash = s .hash :=
    Keyspace.modify_of_ne _ (by cases a.state <;> decide) ..
  constructor
  · intro k
    rw [requeueFinished, Store.jobExists, addJobInTargetList_frame _ _ _ _ _ (by decide),
      Store.hdel_hash, hz, Store.jobExists]
    split <;> simp
  · intro k
    rw [requeueFinished, Store.parentOf, addJobInTargetList_frame _ _ _ _ _ (by decide),
      Store.hdel_hash, hz, Store.parentOf]
    split
    · cases s .hash k with
      | none => rfl
      | some job => cases a.state <;> rfl
    · rfl

theorem requeueFinished_accounts (p : String) (a : ReprocessArgs) (s : Store) (a' : Account) :
    requeueFinished p a s a'.kind = s a'.kind := by
  rw [requeueFinished, addJobInTargetList_frame _ _ _ _ _ (by cases a' <;> decide),
    Store.hdel_of_ne _ _ _ (by cases a' <;> decide),
    Keyspace.modify_of_ne _ (by cases a' <;> cases a.state <;> decide)]

theorem requeueFinished_restorable (p : String) (a : ReprocessArgs) (s : Store) (i : String) :
    Restorable p st (requeueFinished p a s) i ↔ Restorable p st s i := by
  have hlinks := requeueFinished_sameLinks p a s
  simp only [Restorable, hlinks.parentOf, hlinks.jobExists,
    childrenIn_congr (requeueFinished_accounts p a s _)]

/-- A retry keeps parents and existing jobs. -/
theorem reprocessJob_sameLinks (p : String) (a : ReprocessArgs) (s : Store) :
    SameLinks s (Script.reprocessJob p a s).2 := by
  obtain ⟨-, -, hres⟩ | ⟨-, hres⟩ := reprocessJob_cases p a s
  · refine (requeueFinished_sameLinks p a s).trans (.of_hash ?_)
    rw [hres, Store.xadd_of_ne _ _ _ (by decide), getOrSetMaxEvents_frame _ _ (by decide),
      restoreDependency_frame _ _ _ (by decide)]
  · rw [hres]
    exact .of_hash rfl

/-- The accounts after a retry: those `restoreDependency` leaves, or all as before. -/
theorem reprocessJob_accounts (p : String) (a : ReprocessArgs) (s : Store) (a' : Account) :
    (s.jobExists (p ++ a.jobId) = true ∧ a.jobId ∈ s (.zset a.state.zset) p ∧
      (Script.reprocessJob p a s).2 a'.kind =
        restoreDependency (p ++ a.jobId) a.state (requeueFinished p a s) a'.kind) ∨
    (¬ (s.jobExists (p ++ a.jobId) = true ∧ a.jobId ∈ s (.zset a.state.zset) p) ∧
      (Script.reprocessJob p a s).2 a'.kind = s a'.kind) := by
  obtain ⟨hex, hmem, hres⟩ | ⟨hno, hres⟩ := reprocessJob_cases p a s
  · refine .inl ⟨hex, hmem, ?_⟩
    rw [hres, Store.xadd_of_ne _ _ _ (by cases a' <;> decide),
      getOrSetMaxEvents_frame _ _ (by cases a' <;> decide)]
  · exact .inr ⟨hno, by rw [hres]⟩

/-- A retry of a child that is not kept as finished leaves the accounts alone. -/
theorem reprocessJob_accounts_of_not (h : ¬ Restorable p a.state s a.jobId) (a' : Account) :
    (Script.reprocessJob p a s).2 a'.kind = s a'.kind := by
  obtain ⟨-, -, hres⟩ | ⟨-, hres⟩ := reprocessJob_accounts p a s a'
  · rw [hres, restoreDependency_of_not (fun hr => h ((requeueFinished_restorable p a s _).mp hr)),
      requeueFinished_accounts]
  · exact hres

/-- A retry enters no child into an account of finished ones, and takes out only its own. -/
theorem mem_childrenIn_reprocessJob (p : String) (a : ReprocessArgs) (s : Store) {a' : Account}
    (ha' : a' ≠ .dependencies) (k c : String) :
    (c ∈ childrenIn (Script.reprocessJob p a s).2 a' k → c ∈ childrenIn s a' k) ∧
      (c ≠ p ++ a.jobId → c ∈ childrenIn s a' k →
        c ∈ childrenIn (Script.reprocessJob p a s).2 a' k) := by
  by_cases h : Restorable p a.state s a.jobId
  · obtain ⟨-, -, hres⟩ | ⟨-, hres⟩ := reprocessJob_accounts p a s a'
    · obtain ⟨P, a₀, -, -, hiff⟩ := restoreDependency_of_restorable
        ((requeueFinished_restorable p a s _).mpr h)
      rw [childrenIn_congr hres, hiff a' k c ha',
        childrenIn_congr (requeueFinished_accounts p a s a')]
      exact ⟨And.left, fun hne hin => ⟨hin, fun hc => hne hc.2.2⟩⟩
    · rw [childrenIn_congr hres]
      exact ⟨id, fun _ => id⟩
  · rw [childrenIn_congr (reprocessJob_accounts_of_not h a')]
    exact ⟨id, fun _ => id⟩

/-- The same for the retries of a list of jobs. -/
theorem mem_childrenIn_reprocessEach {jobs : List String} {a' : Account}
    (ha' : a' ≠ .dependencies) {k c : String}
    (h : c ∈ childrenIn (reprocessEach p a jobs s) a' k) : c ∈ childrenIn s a' k := by
  induction jobs generalizing s with
  | nil => exact h
  | cons j jobs ih => exact (mem_childrenIn_reprocessJob p _ s ha' k c).1 (ih h)

/-- Without finished children to restore, single retries leave the accounts alone. -/
theorem reprocessEach_accounts {jobs : List String}
    (h : ∀ j ∈ jobs, ¬ Restorable p a.state s j) (a' : Account) :
    reprocessEach p a jobs s a'.kind = s a'.kind := by
  induction jobs generalizing s with
  | nil => rfl
  | cons j jobs ih =>
    set s₁ := (Script.reprocessJob p { a with jobId := j } s).2
    have hlinks : SameLinks s s₁ := reprocessJob_sameLinks p _ s
    have hacc : ∀ a' : Account, s₁ a'.kind = s a'.kind := fun a' =>
      reprocessJob_accounts_of_not (a := { a with jobId := j }) (h j (by simp)) a'
    have hrest : ∀ i ∈ jobs, ¬ Restorable p a.state s₁ i := by
      intro i hi
      simp only [Restorable, hlinks.parentOf, hlinks.jobExists, childrenIn_congr (hacc _)]
      exact h i (by simp [hi])
    calc reprocessEach p a (j :: jobs) s a'.kind = reprocessEach p a jobs s₁ a'.kind := rfl
      _ = s₁ a'.kind := ih hrest
      _ = s a'.kind := hacc a'

/-- A finished child among the jobs leaves the account that keeps it. -/
theorem reprocessEach_restores {jobs : List String} (hj : j ∈ jobs)
    (hmem : j ∈ s (.zset a.state.zset) p) (h : Restorable p a.state s j) :
    ∃ a' k, a' ≠ Account.dependencies ∧ p ++ j ∈ childrenIn s a' k ∧
      p ++ j ∉ childrenIn (reprocessEach p a jobs s) a' k := by
  induction jobs generalizing s with
  | nil => cases hj
  | cons i jobs ih =>
    have hstep : reprocessEach p a (i :: jobs) s =
        reprocessEach p a jobs (Script.reprocessJob p { a with jobId := i } s).2 := rfl
    by_cases hi : i = j
    · subst hi
      obtain ⟨P, a₀, ha₀, hin, hiff⟩ := restoreDependency_of_restorable
        ((requeueFinished_restorable p { a with jobId := i } s _).mpr h)
      have hne : a₀ ≠ .dependencies := by
        rintro rfl
        revert ha₀
        cases a.state <;> decide
      have hex : s.jobExists (p ++ i) = true := by
        obtain ⟨P', hP', -⟩ := h
        rw [Store.parentOf] at hP'
        rw [Store.jobExists]
        cases hh : s .hash (p ++ i) with
        | none => simp [hh] at hP'
        | some job => rfl
      obtain ⟨-, -, hres⟩ | ⟨hno, -⟩ := reprocessJob_accounts p { a with jobId := i } s a₀
      · rw [childrenIn_congr (requeueFinished_accounts p _ s a₀)] at hin
        refine ⟨a₀, P.key, hne, hin, fun hout => ?_⟩
        have hout := mem_childrenIn_reprocessEach hne (hstep ▸ hout)
        rw [childrenIn_congr hres, hiff _ _ _ hne] at hout
        exact hout.2 ⟨rfl, rfl, rfl⟩
      · exact absurd ⟨hex, hmem⟩ hno
    · set s₁ := (Script.reprocessJob p { a with jobId := i } s).2 with hs₁
      have hlinks : SameLinks s s₁ := reprocessJob_sameLinks p _ s
      have hkey : p ++ j ≠ p ++ i := by simpa using Ne.symm hi
      have hmem₁ : j ∈ s₁ (.zset a.state.zset) p := by
        obtain ⟨-, -, hres⟩ | ⟨-, hres⟩ := reprocessJob_cases p { a with jobId := i } s
        · rw [hs₁, hres, Store.xadd_of_ne _ _ _ (by cases a.state <;> decide),
            getOrSetMaxEvents_frame _ _ (by cases a.state <;> decide),
            restoreDependency_frame _ _ _ (by cases a.state <;> decide), requeueFinished,
            addJobInTargetList_frame _ _ _ _ _ (by cases a.state <;> decide),
            Store.hdel_of_ne _ _ _ (by cases a.state <;> decide), Keyspace.modify_self,
            Function.update_self, SortedSet.mem_zrem]
          exact ⟨hmem, Ne.symm hi⟩
        · rw [hs₁, hres]
          exact hmem
      have hrest : Restorable p a.state s₁ j := by
        obtain ⟨P, hP, hex, a₀, ha₀, hin⟩ := h
        have hne : a₀ ≠ .dependencies := by
          rintro rfl
          revert ha₀
          cases a.state <;> decide
        exact ⟨P, (hlinks.parentOf _).trans hP, (hlinks.jobExists _).trans hex, a₀, ha₀,
          (mem_childrenIn_reprocessJob p _ s hne _ _).2 hkey hin⟩
      obtain ⟨a', k, hne, hin, hout⟩ :=
        ih ((List.mem_cons.mp hj).resolve_left (Ne.symm hi)) hmem₁ hrest
      exact ⟨a', k, hne, (mem_childrenIn_reprocessJob p _ s hne _ _).1 hin, hout⟩

/-- **Retries in bulk and one by one.** They leave the accounts of every parent alike exactly if no
job of the call is a finished child that its parent keeps as such. -/
theorem bulkRetry_agrees_iff (p : String) (a : ReprocessArgs) (maxCount timestamp : ℤ)
    (s : Store) :
    (∀ a' : Account, (Script.moveJobsToWait p (.finished a.state) maxCount timestamp s).2 a'.kind =
      reprocessEach p a (bulkJobs p (.finished a.state) maxCount timestamp s) s a'.kind) ↔
    ∀ j ∈ bulkJobs p (.finished a.state) maxCount timestamp s, ¬ Restorable p a.state s j := by
  have hbulk : ∀ a' : Account,
      (Script.moveJobsToWait p (.finished a.state) maxCount timestamp s).2 a'.kind = s a'.kind :=
    fun a' => Script.moveJobsToWait_frame _ _ _ _ _ (by cases a' <;> decide)
  constructor
  · intro hsame j hj hrest
    have hmem : j ∈ s (.zset a.state.zset) p :=
      (SortedSet.rangeByScore_sublist _ _ _).subset ((limitTo_sublist _ _).subset hj)
    obtain ⟨a', k, -, hin, hout⟩ := reprocessEach_restores hj hmem hrest
    rw [← childrenIn_congr (hbulk a'), childrenIn_congr (hsame a')] at hin
    exact hout hin
  · intro hno a'
    rw [hbulk, reprocessEach_accounts hno]

end Retry

/-- A parent and its child; the child is fetched and completed. -/
def completedChild : List Command :=
  let parent : Parent := { id := "parent", queueKey := "bull:q" }
  [.addParentJob "bull:q:" { customId := "parent", name := "n", data := "", timestamp := 1 },
   .addStandardJob "bull:q:"
     { customId := "c", name := "n", data := "", timestamp := 1, parent := some parent },
   .moveToActive "bull:q:" 2 { token := "t", lockDuration := 30000 },
   .moveToFinished "bull:q:"
     { jobId := "c", timestamp := 3, value := "", target := .completed, fetchNext := false
       opts := { token := "t", lockDuration := 30000 } }]

/-- The store these commands lead to. -/
def completedChildStore : Store := (runCommands completedChild .empty).getD .empty

/-- Retried in bulk the child stays among the processed ones and is no pending dependency, retried
alone it becomes one. -/
theorem bulkRetry_keeps_processed :
    let bulk := (Script.moveJobsToWait "bull:q:" (.finished .completed) 10 10 completedChildStore).2
    let each := reprocessEach "bull:q:" { jobId := "c", state := .completed, pushCmd := .lpush }
      (bulkJobs "bull:q:" (.finished .completed) 10 10 completedChildStore) completedChildStore
    runCommands completedChild .empty = some completedChildStore ∧
    bulkJobs "bull:q:" (.finished .completed) 10 10 completedChildStore = ["c"] ∧
    "c" ∈ bulk (.list .wait) "bull:q:" ∧ "c" ∈ each (.list .wait) "bull:q:" ∧
    childrenIn bulk .dependencies "bull:q:parent" = [] ∧
    childrenIn bulk .processed "bull:q:parent" = ["bull:q:c"] ∧
    childrenIn each .dependencies "bull:q:parent" = ["bull:q:c"] ∧
    childrenIn each .processed "bull:q:parent" = [] ∧
    ¬ ∀ a : Account, bulk a.kind = each a.kind := by
  intro bulk each
  have hbulk : childrenIn bulk .dependencies "bull:q:parent" = [] := by decide +kernel
  have heach : childrenIn each .dependencies "bull:q:parent" = ["bull:q:c"] := by decide +kernel
  refine ⟨rfl, by decide +kernel, by decide +kernel, by decide +kernel, hbulk, by decide +kernel,
    heach, by decide +kernel, fun h => ?_⟩
  rw [childrenIn_congr (a := .dependencies) (h .dependencies), heach] at hbulk
  cases hbulk

end BullMQ
