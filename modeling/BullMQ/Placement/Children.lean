import BullMQ.Placement.Commands

/-!
# The keys in the accounts of children

A removal with children takes the child keys in the accounts of a job apart to find the queues
and ids of the children. In the runs considered here every such key is the key of a job
(`ChildKeys`): a script that writes to an account writes the key of the one job it is about
(`Registers`), and all else it does to accounts is to remove keys.
-/

namespace BullMQ

open Redis

variable {K : KeySpace} {s s' s'' : Store} {p j c₀ : String}

/-- Every child key is the key of a job. -/
def ChildKeys (K : KeySpace) (s : Store) : Prop :=
  ∀ k c, IsChildOf s k c → ∃ p j, K.Valid p j ∧ c = p ++ j

/-- No key but `c₀` is new in an account. -/
structure Registers (c₀ : String) (s s' : Store) : Prop where
  child : ∀ k c, IsChildOf s' k c → IsChildOf s k c ∨ c = c₀

theorem ChildKeys.registers (h : ChildKeys K s) (hr : Registers (p ++ j) s s')
    (hv : K.Valid p j) : ChildKeys K s' := by
  intro k c hc
  rcases hr.child k c hc with hc | rfl
  · exact h k c hc
  · exact ⟨p, j, hv, rfl⟩

/-- A command that registers nothing. -/
theorem ChildKeys.removes (h : ChildKeys K s) (hr : ∀ c₀, Registers c₀ s s') : ChildKeys K s' := by
  intro k c hc
  have hne : c ≠ c ++ ":" := fun heq => by simpa using congrArg String.length heq
  exact h k c (((hr (c ++ ":")).child k c hc).resolve_right hne)

/-- The families of the accounts. -/
def accountKinds : List Kind := [.dependencies, .processed, .failedChildren, .unsuccessful]

theorem Account.kind_mem (a : Account) : a.kind ∈ accountKinds := by cases a <;> decide

namespace Registers

theorem refl (s : Store) : Registers c₀ s s := ⟨fun _ _ hc => .inl hc⟩

theorem trans (h : Registers c₀ s s') (h' : Registers c₀ s' s'') : Registers c₀ s s'' := by
  refine ⟨fun k c hc => ?_⟩
  rcases h'.child k c hc with hc | hc
  · exact h.child k c hc
  · exact .inr hc

theorem of_frame {W : List Kind} (hW : ∀ κ ∈ accountKinds, κ ∉ W) (hs : ∀ {κ}, κ ∉ W → s' κ = s κ) :
    Registers c₀ s s' := by
  refine ⟨fun k c ⟨a, hc⟩ => ?_⟩
  exact .inl ⟨a, by rwa [childrenIn_congr (hs (hW _ a.kind_mem))] at hc⟩

/-- A write to one account. -/
theorem modify (a : Account) {k : String} {f : Val a.kind → Val a.kind}
    (hf : ∀ c ∈ a.keys (f (s a.kind k)), c ∈ a.keys (s a.kind k) ∨ c = c₀) :
    Registers c₀ s (s.modify a.kind k f) := by
  refine ⟨fun k' c ⟨b, hc⟩ => ?_⟩
  by_cases hab : b = a
  · subst hab
    rw [childrenIn_modify] at hc
    split at hc
    · next hk =>
      subst hk
      rcases hf c hc with hc | hc
      · exact .inl ⟨b, hc⟩
      · exact .inr hc
    · exact .inl ⟨b, hc⟩
  · have hne : b.kind ≠ a.kind := fun h => hab (Account.kind_injective h)
    exact .inl ⟨b, by rwa [childrenIn_congr (Keyspace.modify_of_ne _ hne ..)] at hc⟩

theorem srem (k c : String) (s : Store) : Registers c₀ s (s.modify .dependencies k (·.srem c)) :=
  modify .dependencies fun _ hb => .inl (MemberSet.mem_srem.mp hb).2

theorem sadd (k : String) (s : Store) : Registers c₀ s (s.modify .dependencies k (·.sadd c₀)) :=
  modify .dependencies fun _ hb => (MemberSet.mem_sadd.mp hb).symm

theorem insert_processed (k v : String) (s : Store) :
    Registers c₀ s (s.modify .processed k (·.insert c₀ v)) :=
  modify .processed fun _ hb => ((AList.mem_insert _).mp hb).symm

theorem insert_failedChildren (k v : String) (s : Store) :
    Registers c₀ s (s.modify .failedChildren k (·.insert c₀ v)) :=
  modify .failedChildren fun _ hb => ((AList.mem_insert _).mp hb).symm

theorem foldl {α : Type} {f : Store → α → Store} (hf : ∀ s a, Registers c₀ s (f s a))
    (l : List α) (s : Store) : Registers c₀ s (l.foldl f s) := by
  induction l generalizing s with
  | nil => exact .refl s
  | cons a l ih => exact (hf s a).trans (ih (f s a))

end Registers

/-- A command that writes no account. -/
theorem ChildKeys.of_frame {W : List Kind} (h : ChildKeys K s) (hW : ∀ κ ∈ accountKinds, κ ∉ W)
    (hs : ∀ {κ}, κ ∉ W → s' κ = s κ) : ChildKeys K s' := by
  rintro k c ⟨a, hc⟩
  exact h k c ⟨a, by rwa [childrenIn_congr (hs (hW _ a.kind_mem))] at hc⟩

/-! ### Children and their parent -/

theorem updateParentDepsIfNeeded_registers (P : Parent) (v : String) (t : ℤ) (s : Store) :
    Registers c₀ s (updateParentDepsIfNeeded P c₀ v t s) :=
  (Registers.insert_processed P.key v s).trans
    (.of_frame (by decide) (moveParentToWaitIfNoPendingDependencies_frame P t _))

theorem moveChildFromDependenciesIfNeeded_registers (R : Option Parent) (r : String) (t : ℤ)
    (s : Store) : Registers c₀ s (moveChildFromDependenciesIfNeeded R c₀ r t s) := by
  cases R with
  | none => exact .refl s
  | some P =>
    have hdep : Registers c₀ s _ := Registers.srem P.key c₀ s
    have hfail : ∀ s, Registers c₀ s _ := Registers.insert_failedChildren P.key r
    simp only [moveChildFromDependenciesIfNeeded]
    split
    · split
      · have huns := hdep.trans (.modify .unsuccessful (k := P.key) (f := (·.zadd t c₀))
          fun c hc => (SortedSet.mem_zadd.mp hc).symm)
        exact huns.trans (.of_frame (by decide)
          (handleChildFailureAndMoveParentToWait_frame P c₀ t _))
      · split
        · exact (hdep.trans (hfail _)).trans
            (.of_frame (by decide) (moveParentToWaitIfNeeded_frame P t _))
        · split
          · have hrel := hdep.trans
              (.of_frame (by decide) (moveParentToWaitIfNoPendingDependencies_frame P t _))
            split
            · exact hrel.trans (hfail _)
            · exact hrel
          · exact .refl s
    · exact .refl s

theorem unlinkChild_registers (k k' : String) (s : Store) :
    Registers c₀ s (unlinkChild k k' s).2 := by
  have hdep : Registers c₀ s _ := Registers.srem k' k s
  simp only [unlinkChild]
  split
  · split
    · split
      · refine hdep.trans (.of_frame (W := [.zset .waitingChildren, .list .wait, .marker, .events])
          (by decide)
          fun hκ => ?_)
        rw [moveParentToWaitPlain_frame _ _ _ (Kind.notMem_mono hκ (by decide)),
          Keyspace.modify_of_ne _ (by simp at hκ; exact hκ.1)]
      · exact hdep
    · exact hdep
  · exact .refl s

theorem removeParentDependencyKey_registers (k : String) (o : Option String) (s : Store) :
    Registers c₀ s (removeParentDependencyKey k o s).2 := by
  unfold removeParentDependencyKey
  split
  · exact unlinkChild_registers ..
  · split
    · split
      · exact unlinkChild_registers ..
      · exact .refl s
    · exact .refl s

theorem removeJobKeys_registers (k : String) (s : Store) :
    Registers c₀ s (removeJobKeys k s) := by
  have hclear : ∀ (a : Account) (s : Store), a.keys (Val.missing a.kind) = [] →
      Registers c₀ s (s.modify a.kind k fun _ => Val.missing a.kind) := fun a s h =>
    .modify a fun c hc => by simp [h] at hc
  have hother : Registers c₀ s ((s.set .hash k none).set .logs k []) :=
    .of_frame (W := [.hash, .logs]) (by decide) fun h => by
      simp only [List.mem_cons, List.not_mem_nil, or_false, not_or] at h
      rw [Keyspace.set_of_ne _ h.2, Keyspace.set_of_ne _ h.1]
  exact (((hother.trans (hclear .dependencies _ rfl)).trans (hclear .processed _ rfl)).trans
    (hclear .failedChildren _ rfl)).trans (hclear .unsuccessful _ rfl)

theorem removeJob_registers (p : String) (b : Bool) (s : Store) (j : String) :
    Registers c₀ s (removeJob p b s j) := by
  refine ((removeParentDependencyKey_registers (p ++ j) none s).trans ?_).trans
    (removeJobKeys_registers _ _)
  split
  · exact .of_frame (by decide) (removeDeduplicationKeyIfNeededOnRemoval_frame _ _ _ _)
  · exact .refl _

/-! ### Finishing -/

theorem notifyParent_registers (P : Option Parent) (a : FinishArgs) (s : Store) :
    Registers c₀ s (notifyParent P c₀ a s) := by
  unfold notifyParent
  split
  · exact .refl s
  · next P =>
    split
    · exact .refl s
    · split
      · split
        · exact (Registers.srem P.key c₀ s).trans (updateParentDepsIfNeeded_registers ..)
        · exact .refl s
      · exact moveChildFromDependenciesIfNeeded_registers ..

theorem keepOrRemove_registers (p : String) (P : Option Parent) (a : FinishArgs) (s : Store) :
    Registers c₀ s (keepOrRemove p P a s) := by
  have hset : ∀ (s : Store) (f : ZSet → ZSet),
      Registers c₀ s (s.modify (.zset a.target.zset) p f) :=
    fun s f => .of_frame (W := [.zset a.target.zset]) (by cases a.target <;> decide) modify_notMem
  -- Retention by age takes the old jobs out of the set, as a range of scores or in batches.
  have hage : ∀ s : Store, Registers c₀ s (retainByAge p a s) := by
    intro s
    unfold retainByAge removeJobsByMaxAge
    split
    · have hfold : ∀ l, Registers c₀ s _ := fun l =>
        Registers.foldl (removeJob_registers p false) l s
      simp only
      split
      · exact hfold _
      · split
        · exact (hfold _).trans (hset _ _)
        · exact (hfold _).trans (.foldl (fun s _ => hset s _) _ _)
    · exact .refl s
  have hcount : ∀ s : Store, Registers c₀ s (retainByCount p a s) := by
    intro s
    unfold retainByCount removeJobsByMaxCount
    split
    · split
      · exact (Registers.foldl (removeJob_registers p false) _ s).trans (hset _ _)
      · exact .refl s
    · exact .refl s
  have hrec : Registers c₀ s (recordFinished p a s) :=
    .of_frame (by cases a.target <;> decide) (recordFinished_frame p a s)
  simp only [keepOrRemove]
  split
  · exact (hrec.trans (hage _)).trans (hcount _)
  · split
    · exact (removeJobKeys_registers ..).trans (removeParentDependencyKey_registers ..)
    · exact removeJobKeys_registers ..

/-- Only the key of the finished job is new in an account, if no payload is kept. -/
theorem finishJob_registers (h : NoPending s) (p : String) (a : FinishArgs) :
    Registers (p ++ a.jobId) s (finishJob p a s) := by
  have hdn : NoPending (removeDeduplicationKeyIfNeededOnFinalization p
      (s.deidOf (p ++ a.jobId)) a.jobId (trimEvents p s)) :=
    (h.of_frame (by decide) (trimEvents_frame p s)).of_frame (W := [.de]) (by decide) fun hκ =>
      removeDeduplicationKeyIfNeededOnFinalization_frame _ _ _ _ (by simpa using hκ)
  have hsettle : Registers (p ++ a.jobId) s (settleFinished p a s) := by
    simp only [settleFinished, requeueDeduplicatedJob_eq hdn]
    refine Registers.trans (.of_frame (W := [.metaMaxLenEvents, .de]) (by decide) fun hκ => ?_)
      (notifyParent_registers ..)
    simp only [List.mem_cons, List.not_mem_nil, or_false, not_or] at hκ
    rw [removeDeduplicationKeyIfNeededOnFinalization_frame _ _ _ _ hκ.2,
      trimEvents_frame _ _ (by simpa using hκ.1)]
  have hkeep := fun f => (hsettle.trans (show Registers (p ++ a.jobId) _
    ((settleFinished p a s).hset (p ++ a.jobId) f) from .of_frame (W := [.hash]) (by decide)
    fun hκ => Store.hset_of_ne _ _ _ (by simpa using hκ))).trans
      (keepOrRemove_registers p (s.parentOf (p ++ a.jobId)) a _)
  have hemit := fun f n =>
    (hkeep f).trans (show Registers (p ++ a.jobId) _ (emitFinished p a n _) from
    .of_frame (W := [.events]) (by decide)
    fun hκ => emitFinished_frame p a n _ (by simpa using hκ))
  simp only [finishJob]
  split
  · exact (hemit _ _).trans (.of_frame (W := [.metrics]) (by decide) fun hκ =>
      collectMetrics_frame _ _ _ _ (by simpa using hκ))
  · exact hemit _ _

/-! ### Every command -/

theorem storeNewJob_registers {mode : AddMode} (hmode : ∀ s j a κ, κ ∈ accountKinds →
    mode.enqueue j a s κ = s κ) (p j : String) (a : AddArgs) (s : Store) :
    Registers (p ++ j) s (storeNewJob mode p j a s) := by
  have hstore : Registers (p ++ j) s (storeJob p j a.name a.data a.opts a.timestamp a.parent
      a.repeatJobKey s) := .of_frame (by decide) (storeJob_frame _ _ _ _ _ _ _ _ s)
  have henq : Registers (p ++ j) s (mode.enqueue j a (storeJob p j a.name a.data a.opts a.timestamp
      a.parent a.repeatJobKey s)) := by
    refine hstore.trans ⟨fun k c ⟨b, hc⟩ => .inl ⟨b, ?_⟩⟩
    rwa [childrenIn_congr (hmode _ _ _ _ b.kind_mem)] at hc
  unfold storeNewJob addParentDependency
  split
  · exact henq.trans (.sadd _ _)
  · exact henq

theorem handleDuplicatedJob_registers (p j : String) (P : Option Parent) (t : ℤ) (s : Store) :
    Registers (p ++ j) s (handleDuplicatedJob p j P t s).2 := by
  have hev : ∀ s : Store, Registers (p ++ j) s (s.xadd p (.duplicated j)) := fun s =>
    .of_frame (W := [.events]) (by decide) fun hκ => Store.xadd_of_ne _ _ _ (by simpa using hκ)
  have hupd : Registers (p ++ j) s (updateExistingJobsParent p j P t s) := by
    cases P with
    | none => exact .refl s
    | some P =>
      simp only [updateExistingJobsParent]
      refine Registers.trans ?_ (.of_frame (W := [.hash]) (by decide) fun hκ =>
        Store.hset_of_ne _ _ _ (by simpa using hκ))
      split
      · exact updateParentDepsIfNeeded_registers ..
      · exact .sadd ..
  unfold handleDuplicatedJob
  split
  · exact hupd.trans (hev _)
  · split
    · exact hupd.trans (hev _)
    · split
      · exact .refl s
      · exact hev s

theorem addJobWith_childKeys {mode : AddMode} (hmode : ∀ s j a κ, κ ∈ accountKinds →
    mode.enqueue j a s κ = s κ) (h : ChildKeys K s) {a : AddArgs} (ha : a.Plain K p) :
    ChildKeys K (addJobWith mode p a s).2 := by
  have hdraw : ∀ {c₀}, Registers c₀ s (drawId p s) := .of_frame (by decide) (drawId_frame p s)
  obtain ⟨-, hres⟩ | ⟨hne, -, -, hres⟩ | ⟨i, hi, -, hres⟩ := addJobWith_cases mode
    ha.noDeduplication p s
  · rw [hres]
    exact h
  · rw [hres]
    exact h.registers (hdraw.trans (handleDuplicatedJob_registers ..)) (ha.custom hne).1
  · have hvalid : K.Valid p i := by
      rcases hi with ⟨hc, rfl⟩ | ⟨hc, hne, -⟩
      · exact ha.counter hc _
      · exact hc ▸ (ha.custom (hc ▸ hne)).1
    rw [hres]
    exact h.registers (hdraw.trans (storeNewJob_registers hmode p i a _)) hvalid

theorem restoreDependency_registers (st : FinishedStatus) (s : Store) :
    Registers c₀ s (restoreDependency c₀ st s) := by
  unfold restoreDependency
  split
  · exact .refl s
  · next P _ =>
    have hadd : ∀ s, Registers c₀ s _ := Registers.sadd P.key
    split
    · exact .refl s
    · split
      · split
        · exact (Registers.modify .unsuccessful (f := (·.zrem c₀))
            fun c hc => .inl (SortedSet.mem_zrem.mp hc).1).trans (hadd _)
        · split
          · exact (Registers.modify .failedChildren (f := (·.erase c₀))
              fun c hc => .inl (AList.mem_erase.mp hc).2).trans (hadd _)
          · exact .refl s
      · split
        · exact (Registers.modify .processed (f := (·.erase c₀))
            fun c hc => .inl (AList.mem_erase.mp hc).2).trans (hadd _)
        · exact .refl s

theorem reprocessJob_childKeys (h : ChildKeys K s) (hs : Sound K s) (p : String)
    (a : ReprocessArgs) : ChildKeys K (Script.reprocessJob p a s).2 := by
  simp only [Script.reprocessJob]
  split
  · exact h
  · split
    · next hmem =>
      refine h.registers ?_ (hs.valid_zset hmem)
      have hput : ∀ (f : Job → Job) (b : Bool), Registers (p ++ a.jobId) s
          (addJobInTargetList p a.pushCmd b a.jobId (Store.hdel (s.modify (.zset a.state.zset) p
            (·.zrem a.jobId)) (p ++ a.jobId) f)) := fun f b =>
        .of_frame (W := [.zset a.state.zset, .hash, .list .wait, .marker])
          (by cases a.state <;> decide) (fun hκ => by
          rw [addJobInTargetList_frame _ _ _ _ _ (Kind.notMem_mono hκ (by simp)),
            Store.hdel_of_ne _ _ _ (by simp at hκ; exact hκ.2.1),
            Keyspace.modify_of_ne _ (by simp at hκ; exact hκ.1)])
      have hev : ∀ s e, Registers (p ++ a.jobId) s (Store.xadd (getOrSetMaxEvents p s) p e) :=
        fun s e => .of_frame (W := [.metaMaxLenEvents, .events]) (by decide) fun hκ => by
          simp only [List.mem_cons, List.not_mem_nil, or_false, not_or] at hκ
          rw [Store.xadd_of_ne _ _ _ hκ.2, getOrSetMaxEvents_frame _ _ (by simpa using hκ.1)]
      exact ((hput _ _).trans (restoreDependency_registers a.state _)).trans (hev _ _)
    · exact h

theorem moveToFinished_childKeys (h : ChildKeys K s) (hs : WellPlaced K s) (p : String)
    (a : FinishArgs) : ChildKeys K (Script.moveToFinished p a s).2 := by
  obtain ⟨-, n, -, -, hres⟩ | ⟨-, hres⟩ | ⟨hfin, hres⟩ := Script.moveToFinished_cases p a s
  · rw [hres]
    exact h
  · rw [hres]
    exact h.of_frame (by decide) (releasedJob_frame _ _ _ _ s)
  · rw [hres]
    have hdn := hs.noPending.of_frame (by decide)
      (leftActive_frame p a.jobId a.opts.token a.fieldsToUpdate s)
    refine h.registers (Registers.trans
      (.of_frame (by decide) (leftActive_frame p a.jobId a.opts.token
      a.fieldsToUpdate s)) ?_) (hs.valid_list hfin.1.active)
    exact (finishJob_registers hdn p a).trans (.of_frame (by decide) (fetchOrDrain_frame p a _))

theorem removeChildDependency_registers (k k' : String) (s : Store) :
    Registers c₀ s (Script.removeChildDependency k k' s).2 := by
  have hun : Registers c₀ s _ := removeParentDependencyKey_registers k (some k') s
  simp only [Script.removeChildDependency]
  split
  · exact .refl s
  · split
    · exact .refl s
    · split
      · exact hun.trans (.of_frame (W := [.hash]) (by decide) fun hκ =>
          Store.hdel_of_ne _ _ _ (by simpa using hκ))
      · exact hun

/-- **One command** keeps the child keys to keys of jobs. -/
theorem ChildKeys.exec {c : Command} {r : Reply × Store} (h : ChildKeys K s)
    (hs : WellPlaced K s) (hc : c.Plain K) (hexec : c.exec s = some r) : ChildKeys K r.2 := by
  cases c with
  | removeJob n p j b => exact hc.elim
  | addStandardJob p a =>
    cases hexec
    refine addJobWith_childKeys (fun s j a κ hκ => enqueueStandard_frame p j a s ?_) h hc
    revert κ; decide
  | addDelayedJob p a =>
    cases hexec
    refine addJobWith_childKeys (fun s j a κ hκ => addDelayedJob_frame p j _ _ s ?_) h hc
    revert κ; decide
  | addPrioritizedJob p a =>
    cases hexec
    refine addJobWith_childKeys (fun s j a κ hκ => enqueuePrioritized_frame p j a s ?_) h hc
    revert κ; decide
  | addParentJob p a =>
    cases hexec
    refine addJobWith_childKeys (fun s j a κ hκ => enqueueParent_frame p j a s ?_) h hc
    revert κ; decide
  | moveToFinished p a =>
    cases hexec
    exact moveToFinished_childKeys h hs p a
  | reprocessJob p a =>
    cases hexec
    exact reprocessJob_childKeys h hs.toSound p a
  | removeChildDependency k k' =>
    cases hexec
    exact h.removes fun c₀ => removeChildDependency_registers k k' s
  | reorderDependencies k m =>
    cases hexec
    refine h.removes fun c₀ => .modify .dependencies fun c hc => .inl ?_
    exact mem_reorderSet.mp hc
  | reorderProcessed k m =>
    cases hexec
    refine h.removes fun c₀ => .modify .processed fun c hc => .inl ?_
    exact mem_reorderHash.mp hc
  | reorderFailedChildren k m =>
    cases hexec
    refine h.removes fun c₀ => .modify .failedChildren fun c hc => .inl ?_
    exact mem_reorderHash.mp hc
  | _ =>
    refine h.of_frame ?_ fun hκ => Command.exec_frame hexec hκ
    simp only [Command.writes]
    decide

/-! ### Removal on request -/

theorem deleteJob_registers (p j : String) (s : Store) : Registers c₀ s (deleteJob p j s) := by
  have hany : Registers c₀ s (removeDeduplicationKeyIfNeededOnRemoval p j
      ((removeJobFromAnyState p j s).2.deidOf (p ++ j)) (removeJobFromAnyState p j s).2) := by
    refine Registers.trans ⟨fun k c ⟨a, hc⟩ => .inl ⟨a, ?_⟩⟩
      (.of_frame (by decide) (removeDeduplicationKeyIfNeededOnRemoval_frame _ _ _ _))
    rwa [childrenIn_congr (removeJobFromAnyState_frame p j s (by cases a <;> simp)
      (by cases a <;> simp))] at hc
  have hkeys := hany.trans (removeJobKeys_registers (p ++ j) _)
  simp only [deleteJob]
  split
  · refine hkeys.trans (.of_frame (W := [.metaMaxLenEvents, .events]) (by decide) fun hκ => ?_)
    simp only [List.mem_cons, List.not_mem_nil, or_false, not_or] at hκ
    rw [Store.xadd_of_ne _ _ _ hκ.2, getOrSetMaxEvents_frame _ _ (by simpa using hκ.1)]
  · exact hkeys

/-- **Removal on request** keeps a store well placed, if ids are read off keys correctly and the
removed id is not a longer spelling of another queue's job. -/
theorem removeJob_wellPlaced (hsplit : ∀ {p j}, K.Valid p j → getJobIdFromKey (p ++ j) = j)
    {n : ℕ} {b : Bool} {r : Reply × Store} (h : WellPlaced K s) (hchild : ChildKeys K s)
    (hj : K.Valid p j ∨ s.jobExists (p ++ j) = false)
    (hexec : Script.removeJob n p j b s = some r) :
    WellPlaced K r.2 ∧ ChildKeys K r.2 := by
  -- Along the removal no hash appears, so that an id without a hash stays one.
  have hinv : WellPlaced K r.2 ∧ ChildKeys K r.2 ∧
      ∀ k, r.2.jobExists k = true → s.jobExists k = true := by
    refine Script.removeJob_rule
      (I := fun s' => WellPlaced K s' ∧ ChildKeys K s' ∧
        ∀ k, s'.jobExists k = true → s.jobExists k = true)
      (V := fun p j => K.Valid p j ∨ s.jobExists (p ++ j) = false) ?_ ?_ ?_ hj
      ⟨h, hchild, fun _ => id⟩ hexec
    · rintro k o s₁ ⟨hs₁, hc₁, hex⟩
      have hsame := removeParentDependencyKey_same k o s₁
      refine ⟨hs₁.retains (.of_same hs₁.toSound hsame)
        (hs₁.noPending.of_frame (by decide) (removeParentDependencyKey_frame k o s₁))
        (removeParentDependencyKey_frame k o s₁ (by decide)),
        hc₁.removes fun c₀ => removeParentDependencyKey_registers k o s₁, fun k' hk' => hex k' ?_⟩
      rwa [hsame.exist] at hk'
    · rintro q i s₁ hqi ⟨hs₁, hc₁, hex⟩
      have hqi₁ : K.Valid q i ∨ s₁.jobExists (q ++ i) = false := by
        refine hqi.imp_right fun hno => ?_
        by_contra hyes
        rw [hex _ (by simpa using hyes)] at hno
        cases hno
      have hr := deleteJob_retains hs₁.toPlaced hqi₁
      exact ⟨hs₁.retains hr (hs₁.noPending.drops (deleteJob_drops q i s₁))
        (deleteJob_frame q i s₁ (by decide)), hc₁.removes fun c₀ => deleteJob_registers q i s₁,
        fun k' hk' => hex k' (hr.exist hk')⟩
    · rintro s₁ k c ⟨-, hc₁, -⟩ hkc
      obtain ⟨q, i, hqi, rfl⟩ := hc₁ k c hkc
      rw [hsplit hqi, getJobKeyPrefix_append]
      exact .inl hqi
  exact ⟨hinv.1, hinv.2.1⟩

end BullMQ
