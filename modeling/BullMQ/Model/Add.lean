import BullMQ.Model.Dedup
import BullMQ.Model.Parent

/-!
# Adding jobs

The four add scripts share one skeleton (`addJobWith`): refuse a missing parent, draw the id,
hand an existing custom id to `handleDuplicatedJob`, deduplicate, store, enqueue, register with
the parent. They differ in the deduplication they use and in where the new job goes.
-/

namespace BullMQ

open Redis

/-! ### Existing ids -/

/-- `updateExistingJobsParent`: attach an existing job to the parent it is added under. -/
def updateExistingJobsParent (p jobId : String) (parent : Option Parent) (timestamp : ℤ)
    (s : Store) : Store :=
  match parent with
  | none => s
  | some P =>
    let jobIdKey := p ++ jobId
    let s : Store :=
      if jobId ∈ s (.zset .completed) p then
        let returnvalue := ((s .hash jobIdKey).bind Job.returnvalue).getD ""
        updateParentDepsIfNeeded P jobIdKey returnvalue timestamp s
      else s.modify .dependencies P.key (·.sadd jobIdKey)
    s.hset jobIdKey fun job => { job with parent := some P }

/-- `handleDuplicatedJob`: an add under an id that exists. -/
def handleDuplicatedJob (p jobId : String) (parent : Option Parent) (timestamp : ℤ) (s : Store) :
    Reply × Store :=
  match (s.parentOf (p ++ jobId)).map Parent.key with
  | none =>
    (.id jobId, (updateExistingJobsParent p jobId parent timestamp s).xadd p (.duplicated jobId))
  | some existedParentKey =>
    if some existedParentKey = parent.map Parent.key then
      (.id jobId,
        (updateExistingJobsParent p jobId parent timestamp s).xadd p (.duplicated jobId))
    else if parent.isSome ∧ s.jobExists existedParentKey then (.code (-7), s)
    else (.id jobId, s.xadd p (.duplicated jobId))

/-! ### The add scripts -/

/-- The deduplication and enqueueing that tell the add scripts apart. -/
structure AddMode where
  /-- Deduplicate the new id: the winner it is dropped in favour of, if any. -/
  deduplicate : DeduplicationOpts → String → AddArgs → Store → Option String × Store
  /-- Enqueue the stored job. -/
  enqueue : String → AddArgs → Store → Store

/-- The id of the new job. The counter is written out in decimal, as Lua does below 10^14. -/
def newJobId (p customId : String) (s : Store) : String :=
  if customId = "" then (s .id p).repr else customId

/-- The part of an add that follows once the id is known to be new: deduplicate, store, enqueue
and register with the parent. -/
def addNewJob (mode : AddMode) (p jobId : String) (a : AddArgs) (s : Store) : Reply × Store :=
  let (deduplicationJobId, s) :=
    match a.opts.de with
    | some de => mode.deduplicate de jobId a s
    | none => (none, s)
  match deduplicationJobId with
  | some deduplicationJobId => (.id deduplicationJobId, s)
  | none =>
    let s := storeJob p jobId a.name a.data a.opts a.timestamp a.parent a.repeatJobKey s
    let s := mode.enqueue jobId a s
    (.id jobId, addParentDependency a.parent (p ++ jobId) s)

/-- Draw the next value of the id counter and fix the bound of the event stream. -/
def drawId (p : String) (s : Store) : Store := getOrSetMaxEvents p (s.modify .id p (· + 1))

/-- The skeleton of the add scripts. -/
def addJobWith (mode : AddMode) (p : String) (a : AddArgs) (s : Store) : Reply × Store :=
  if (a.parent.map fun P => s.jobExists P.key) = some false then (.code (-5), s)
  else
    let s := drawId p s
    let jobId := newJobId p a.customId s
    if a.customId ≠ "" ∧ s.jobExists (p ++ jobId) then
      handleDuplicatedJob p jobId a.parent a.timestamp s
    else addNewJob mode p jobId a s

/-- Where `addStandardJob` puts a job: into the wait list. -/
def enqueueStandard (p jobId : String) (a : AddArgs) (s : Store) : Store :=
  (addJobInTargetList p (if a.opts.lifo then .rpush else .lpush) (isQueuePausedOrMaxed p s) jobId
    s).xadd p (.waiting jobId none)

/-- Where `addPrioritizedJob` puts a job: into the prioritized set. -/
def enqueuePrioritized (p jobId : String) (a : AddArgs) (s : Store) : Store :=
  (addJobWithPriority p a.opts.priority jobId (isQueuePausedOrMaxed p s) s).xadd p
    (.waiting jobId none)

/-- Where `addParentJob` puts a job: among those that wait for children. -/
def enqueueParent (p jobId : String) (a : AddArgs) (s : Store) : Store :=
  Store.xadd (s.modify (.zset .waitingChildren) p (·.zadd a.timestamp jobId)) p
    (.waitingChildren jobId none)

/-- The mode of `addStandardJob`. -/
def standardMode (p : String) : AddMode := ⟨deduplicateJob p, enqueueStandard p⟩

/-- The mode of `addDelayedJob`. -/
def delayedMode (p : String) : AddMode :=
  ⟨deduplicateJob p, fun jobId a => addDelayedJob p jobId a.timestamp a.opts.delay⟩

/-- The mode of `addPrioritizedJob`. -/
def prioritizedMode (p : String) : AddMode := ⟨deduplicateJob p, enqueuePrioritized p⟩

/-- The mode of `addParentJob`. -/
def parentMode (p : String) : AddMode := ⟨deduplicateJobWithoutReplace p, enqueueParent p⟩

namespace Script

/-- `addStandardJob`. -/
def addStandardJob (p : String) : AddArgs → Store → Reply × Store := addJobWith (standardMode p) p

/-- `addDelayedJob`. -/
def addDelayedJob (p : String) : AddArgs → Store → Reply × Store := addJobWith (delayedMode p) p

/-- `addPrioritizedJob`. -/
def addPrioritizedJob (p : String) : AddArgs → Store → Reply × Store :=
  addJobWith (prioritizedMode p) p

/-- `addParentJob`. -/
def addParentJob (p : String) : AddArgs → Store → Reply × Store := addJobWith (parentMode p) p

end Script

/-! ### What an add writes -/

/-- The families an add writes. -/
def addWrites : List Kind :=
  [.id, .metaMaxLenEvents, .de, .dn, .hash, .logs, .dependencies, .processed, .failedChildren,
    .unsuccessful, .events, .marker, .pc, .list .wait, .zset .prioritized, .zset .delayed,
    .zset .waitingChildren]

/-- The families an add under an existing id writes. -/
def duplicateWrites : List Kind :=
  .hash :: .dependencies :: .processed :: .zset .waitingChildren :: releaseWrites

/-- The families the storing and enqueueing of a new job write. -/
def storeWrites : List Kind := .dependencies :: .zset .waitingChildren :: enqueueWrites

/-- A mode whose two parts write no other families than they may. -/
structure AddMode.Framed (mode : AddMode) : Prop where
  deduplicate : ∀ de j a s κ, κ ∉ dedupWrites → (mode.deduplicate de j a s).2 κ = s κ
  enqueue : ∀ j a s κ, κ ∉ storeWrites → mode.enqueue j a s κ = s κ

theorem updateExistingJobsParent_frame (p j : String) (P : Option Parent) (t : ℤ) (s : Store)
    {κ : Kind} (h : κ ∉ duplicateWrites) : updateExistingJobsParent p j P t s κ = s κ := by
  cases P with
  | none => rfl
  | some P =>
    have hhash : κ ≠ .hash := by rintro rfl; exact h (by decide)
    have hdep : κ ≠ .dependencies := by rintro rfl; exact h (by decide)
    simp only [updateExistingJobsParent]
    rw [Store.hset_of_ne _ _ _ hhash]
    split
    · exact updateParentDepsIfNeeded_frame _ _ _ _ _ (Kind.notMem_mono h (by decide))
    · exact Keyspace.modify_of_ne _ hdep ..

theorem handleDuplicatedJob_frame (p j : String) (P : Option Parent) (t : ℤ) (s : Store)
    {κ : Kind} (h : κ ∉ duplicateWrites) : (handleDuplicatedJob p j P t s).2 κ = s κ := by
  have hev : κ ≠ .events := by rintro rfl; exact h (by decide)
  unfold handleDuplicatedJob
  split
  · rw [Store.xadd_of_ne _ _ _ hev, updateExistingJobsParent_frame _ _ _ _ _ h]
  · split
    · rw [Store.xadd_of_ne _ _ _ hev, updateExistingJobsParent_frame _ _ _ _ _ h]
    · split
      · rfl
      · exact Store.xadd_of_ne _ _ _ hev

theorem drawId_frame (p : String) (s : Store) {κ : Kind} (h : κ ∉ [Kind.id, .metaMaxLenEvents]) :
    drawId p s κ = s κ := by
  simp only [List.mem_cons, List.not_mem_nil, or_false, not_or] at h
  rw [drawId, getOrSetMaxEvents_frame _ _ (by simpa using h.2), Keyspace.modify_of_ne _ h.1]

/-- Store a new job, enqueue it and register it with its parent. -/
def storeNewJob (mode : AddMode) (p jobId : String) (a : AddArgs) (s : Store) : Store :=
  addParentDependency a.parent (p ++ jobId) (mode.enqueue jobId a
    (storeJob p jobId a.name a.data a.opts a.timestamp a.parent a.repeatJobKey s))

theorem storeNewJob_frame {mode : AddMode} (hmode : mode.Framed) (p j : String) (a : AddArgs)
    (s : Store) {κ : Kind} (h : κ ∉ storeWrites) : storeNewJob mode p j a s κ = s κ := by
  have hdep : κ ≠ .dependencies := by rintro rfl; exact h (by decide)
  rw [storeNewJob, addParentDependency_frame _ _ _ hdep, hmode.enqueue _ _ _ _ h,
    storeJob_frame _ _ _ _ _ _ _ _ _ (Kind.notMem_mono h (by decide))]

/-- An add without a deduplication id stores its job. -/
theorem addNewJob_of_none {mode : AddMode} {a : AddArgs} (hde : a.opts.de = none) (p j : String)
    (s : Store) : addNewJob mode p j a s = (.id j, storeNewJob mode p j a s) := by
  simp only [addNewJob, hde]
  rfl

theorem addNewJob_frame {mode : AddMode} (hmode : mode.Framed) (p j : String) (a : AddArgs)
    (s : Store) {κ : Kind} (h : κ ∉ storeWrites) (h' : κ ∉ dedupWrites) :
    (addNewJob mode p j a s).2 κ = s κ := by
  have hstore : ∀ s', storeNewJob mode p j a s' κ = s' κ := fun s' =>
    storeNewJob_frame hmode p j a s' h
  unfold addNewJob
  cases a.opts.de with
  | none => exact hstore s
  | some de =>
    have hded := hmode.deduplicate de j a s κ h'
    rcases hres : mode.deduplicate de j a s with ⟨_ | winner, s'⟩ <;> rw [hres] at hded
    · simp only [hres]
      exact (hstore s').trans hded
    · simpa only [hres] using hded

theorem addJobWith_frame {mode : AddMode} (hmode : mode.Framed) (p : String) (a : AddArgs)
    (s : Store) {κ : Kind} (h : κ ∉ addWrites) : (addJobWith mode p a s).2 κ = s κ := by
  have hdraw : drawId p s κ = s κ :=
    drawId_frame p s (Kind.notMem_mono h (by decide))
  simp only [addJobWith]
  split
  · rfl
  · split
    · rw [handleDuplicatedJob_frame _ _ _ _ _ (Kind.notMem_mono h (by decide)), hdraw]
    · rw [addNewJob_frame hmode _ _ _ _ (Kind.notMem_mono h (by decide))
        (Kind.notMem_mono h (by decide)), hdraw]

/-- The id of an add that brings a new one: drawn from the counter, or given and not that of a
job. -/
def NewId (s : Store) (p : String) (a : AddArgs) (j : String) : Prop :=
  a.customId = "" ∧ j = (s .id p + 1).repr ∨
    a.customId = j ∧ j ≠ "" ∧ s.jobExists (p ++ j) = false

/-- The ends of an add: a missing parent, an existing id, a new id. -/
theorem addJobWith_ends (mode : AddMode) (p : String) (a : AddArgs) (s : Store) :
    ((∃ P, a.parent = some P ∧ s.jobExists P.key = false) ∧
      addJobWith mode p a s = (.code (-5), s)) ∨
    (a.customId ≠ "" ∧ s.jobExists (p ++ a.customId) = true ∧
      (∀ P, a.parent = some P → s.jobExists P.key = true) ∧ addJobWith mode p a s =
        handleDuplicatedJob p a.customId a.parent a.timestamp (drawId p s)) ∨
    ∃ j, NewId s p a j ∧ (∀ P, a.parent = some P → s.jobExists P.key = true) ∧
      addJobWith mode p a s = addNewJob mode p j a (drawId p s) := by
  have hdraw : ∀ k, (drawId p s).jobExists k = s.jobExists k := fun k => by
    rw [Store.jobExists, drawId_frame _ _ (by decide), Store.jobExists]
  have hid : drawId p s .id p = s .id p + 1 := by
    rw [drawId, getOrSetMaxEvents_frame _ _ (by decide), Keyspace.modify_self,
      Function.update_self]
  simp only [addJobWith]
  by_cases hP : (a.parent.map fun P => s.jobExists P.key) = some false
  · obtain ⟨P, hsome, hmissing⟩ := Option.map_eq_some_iff.mp hP
    exact .inl ⟨⟨P, hsome, hmissing⟩, if_pos hP⟩
  · have hparent : ∀ P, a.parent = some P → s.jobExists P.key = true := by
      intro P hsome
      simpa [hsome] using hP
    rw [if_neg hP]
    right
    by_cases hcustom : a.customId = ""
    · refine .inr ⟨(s .id p + 1).repr, .inl ⟨hcustom, rfl⟩, hparent, ?_⟩
      rw [if_neg (by simp [hcustom]), newJobId, if_pos hcustom, hid]
    · rw [newJobId, if_neg hcustom, hdraw]
      by_cases hex : s.jobExists (p ++ a.customId) = true
      · exact .inl ⟨hcustom, hex, hparent, if_pos ⟨hcustom, hex⟩⟩
      · refine .inr ⟨a.customId, .inr ⟨rfl, hcustom, by simpa using hex⟩, hparent, ?_⟩
        rw [if_neg fun h => hex h.2]

/-- The ends of an add without a deduplication id: a missing parent, an existing id, a new job. -/
theorem addJobWith_cases (mode : AddMode) {a : AddArgs} (hde : a.opts.de = none) (p : String)
    (s : Store) :
    ((∃ P, a.parent = some P ∧ s.jobExists P.key = false) ∧
      addJobWith mode p a s = (.code (-5), s)) ∨
    (a.customId ≠ "" ∧ s.jobExists (p ++ a.customId) = true ∧
      (∀ P, a.parent = some P → s.jobExists P.key = true) ∧ addJobWith mode p a s =
        handleDuplicatedJob p a.customId a.parent a.timestamp (drawId p s)) ∨
    ∃ j, (a.customId = "" ∧ j = (s .id p + 1).repr ∨
        a.customId = j ∧ j ≠ "" ∧ s.jobExists (p ++ j) = false) ∧
      (∀ P, a.parent = some P → s.jobExists P.key = true) ∧
      addJobWith mode p a s = (.id j, storeNewJob mode p j a (drawId p s)) := by
  obtain h | h | ⟨j, hj, hparent, hres⟩ := addJobWith_ends mode p a s
  · exact .inl h
  · exact .inr (.inl h)
  · exact .inr (.inr ⟨j, hj, hparent, hres.trans (addNewJob_of_none hde p j _)⟩)

theorem framed_of_deduplicateJob {p : String} {enqueue : String → AddArgs → Store → Store}
    (henq : ∀ j a s κ, κ ∉ storeWrites → enqueue j a s κ = s κ) :
    (AddMode.mk (deduplicateJob p) enqueue).Framed where
  deduplicate _ _ _ _ _ h := deduplicateJob_frame _ _ _ _ _ h
  enqueue := henq

theorem enqueueStandard_frame (p j : String) (a : AddArgs) (s : Store) {κ : Kind}
    (h : κ ∉ [Kind.list .wait, .marker, .events]) : enqueueStandard p j a s κ = s κ := by
  simp only [List.mem_cons, List.not_mem_nil, or_false, not_or] at h
  rw [enqueueStandard, Store.xadd_of_ne _ _ _ h.2.2]
  exact addJobInTargetList_frame _ _ _ _ _ (by simp [h])

theorem enqueuePrioritized_frame (p j : String) (a : AddArgs) (s : Store) {κ : Kind}
    (h : κ ∉ [Kind.zset .prioritized, .pc, .marker, .events]) :
    enqueuePrioritized p j a s κ = s κ := by
  simp only [List.mem_cons, List.not_mem_nil, or_false, not_or] at h
  rw [enqueuePrioritized, Store.xadd_of_ne _ _ _ h.2.2.2]
  exact addJobWithPriority_frame _ _ _ _ _ (by simp [h])

theorem enqueueParent_frame (p j : String) (a : AddArgs) (s : Store) {κ : Kind}
    (h : κ ∉ [Kind.zset .waitingChildren, .events]) : enqueueParent p j a s κ = s κ := by
  simp only [List.mem_cons, List.not_mem_nil, or_false, not_or] at h
  rw [enqueueParent, Store.xadd_of_ne _ _ _ h.2, Keyspace.modify_of_ne _ h.1]

theorem standardMode_framed (p : String) : (standardMode p).Framed :=
  framed_of_deduplicateJob fun _ _ _ _ h =>
    enqueueStandard_frame _ _ _ _ (Kind.notMem_mono h (by decide))

theorem delayedMode_framed (p : String) : (delayedMode p).Framed :=
  framed_of_deduplicateJob fun _ _ _ _ h =>
    addDelayedJob_frame _ _ _ _ _ (Kind.notMem_mono h (by decide))

theorem prioritizedMode_framed (p : String) : (prioritizedMode p).Framed :=
  framed_of_deduplicateJob fun _ _ _ _ h =>
    enqueuePrioritized_frame _ _ _ _ (Kind.notMem_mono h (by decide))

theorem parentMode_framed (p : String) : (parentMode p).Framed where
  deduplicate _ _ _ _ _ h :=
    deduplicateJobWithoutReplace_frame _ _ _ _ _ (Kind.notMem_mono h (by decide))
  enqueue _ _ _ _ h := enqueueParent_frame _ _ _ _ (Kind.notMem_mono h (by decide))

end BullMQ
