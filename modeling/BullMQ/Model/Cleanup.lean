import Mathlib.Logic.Relation
import BullMQ.Model.Remove

/-!
# Cleaning up a queue

`clean`, `drain`, `obliterate` and the upsert of a job scheduler delete jobs in the hard mode of
`removeParentDependencyKey`: a parent that waited for the deleted job alone is deleted with it if
it is in the same queue, and so on up its own parents; a parent in another queue is released.
Every step up takes a job out of the queue's `waiting-children`, which bounds the recursion.
-/

namespace BullMQ

open Redis

/-! ### Hard removal -/

/-- `_moveParentToWait` without an event. -/
def pushReleasedParent (parentPrefix parentId : String) (s : Store) : Store :=
  addJobInTargetList parentPrefix .rpush (isQueuePausedOrMaxed parentPrefix s) parentId s

/-- `DEL` of the deduplication key of an id, if there is one. -/
def deleteDeduplicationKey (p : String) (deduplicationId : Option String) (s : Store) : Store :=
  match deduplicationId with
  | some deduplicationId => s.set .de (deduplicationKey p deduplicationId) none
  | none => s

/-- `removeParentDependencyKey` with `hard` true and no parent given. The fuel bounds the number
of parents that are deleted. The deduplication id is that of the child, as in the source. -/
def unlinkHard : ℕ → String → String → Store → Store
  | 0, _, _, s => s
  | fuel + 1, baseKey, jobKey, s =>
    match s.parentOf jobKey with
    | none => s
    | some P =>
      if s.jobExists P.key ∧ jobKey ∈ s .dependencies P.key then
        let deduplicationId := s.deidOf jobKey
        let s : Store := s.modify .dependencies P.key (·.srem jobKey)
        if s .dependencies P.key = ∅ then
          let parentId := getJobIdFromKey P.key
          let parentPrefix := getJobKeyPrefix P.key parentId
          if parentId ∈ s (.zset .waitingChildren) parentPrefix then
            let s : Store := s.modify (.zset .waitingChildren) parentPrefix (·.zrem parentId)
            if parentPrefix = baseKey then
              let s := unlinkHard fuel baseKey P.key s
              let s := removeJobKeys P.key s
              deleteDeduplicationKey parentPrefix deduplicationId s
            else pushReleasedParent parentPrefix parentId s
          else s
        else s
      else s

/-- `removeParentDependencyKey` with `hard` true: no more parents are deleted than wait. -/
def removeParentDependencyKeyHard (baseKey jobKey : String) (s : Store) : Store :=
  unlinkHard ((s (.zset .waitingChildren) baseKey).members.length + 1) baseKey jobKey s

/-- `includes/removeJob` with `hard` true, as every caller of the hard mode calls it. -/
def removeJobHard (p : String) (s : Store) (jobId : String) : Store :=
  let jobKey := p ++ jobId
  let s := removeParentDependencyKeyHard p jobKey s
  let s := removeDeduplicationKeyIfNeededOnRemoval p jobId (s.deidOf jobKey) s
  removeJobKeys jobKey s

/-! ### Cleaning lists and sets -/

/-- `LRANGE 0 (max - 1)` and `ZRANGE 0 (max - 1)`: the first `max` items, all for zero. -/
def firstItems (max : ℤ) (items : List String) : List String :=
  items.take (if 0 < max then max.toNat else (items.length + max).toNat)

/-- `removeJobs`. -/
def removeJobs (p : String) (jobIds : List String) (s : Store) : Store :=
  jobIds.foldl (removeJobHard p) s

/-- `removeListJobs`: the store and the rest of the budget. -/
def removeListJobs (p : String) (l : ListKey) (max : ℤ) (jobsToIgnore : List String) (s : Store) :
    ℤ × Store :=
  let jobs := (firstItems max (s (.list l) p)).filter (· ∉ jobsToIgnore)
  let s := removeJobs p jobs s
  (max - jobs.length, s.modify (.list l) p (·.drop jobs.length))

/-- `removeZSetJobs`: the store and the rest of the budget. -/
def removeZSetJobs (p : String) (z : ZSetKey) (max : ℤ) (jobsToIgnore : List String) (s : Store) :
    ℤ × Store :=
  let jobs := (firstItems max (s (.zset z) p).members).filter (· ∉ jobsToIgnore)
  let s := removeJobs p jobs s
  (max - jobs.length, (batches jobs.length 7000).foldl
    (fun s range => s.modify (.zset z) p (·.zremAll (unpack jobs range))) s)

/-- The fields that `getTimestamp` looks at. -/
inductive TimestampField
  | finishedOn
  | processedOn
  | timestamp
  deriving DecidableEq, Repr

/-- The value of a field. -/
def TimestampField.get : TimestampField → Job → Option ℤ
  | .finishedOn => Job.finishedOn
  | .processedOn => Job.processedOn
  | .timestamp => Job.timestamp

/-- `getTimestamp`: the first field that is set. -/
def getTimestamp (jobKey : String) (attributes : List TimestampField) (s : Store) : Option ℤ :=
  attributes.findSome? fun field => (s .hash jobKey).bind field.get

/-- Whether a job is older than a timestamp. Lua compares the two as strings. -/
def isOlderThan (jobKey : String) (attributes : List TimestampField) (timestamp : ℤ) (s : Store) :
    Bool :=
  match getTimestamp jobKey attributes s with
  | none => true
  | some jobTS => decide (jobTS.repr ≤ timestamp.repr)

/-- One round of the loop of `cleanList`, on the job at an index of the list. -/
def cleanListStep (p : String) (l : ListKey) (limit timestamp : ℤ) (isWaiting : Bool)
    (acc : List String × Store) (job : String × ℕ) : List String × Store :=
  let (deleted, s) := acc
  let (jobId, index) := job
  let jobKey := p ++ jobId
  if 0 < limit ∧ limit ≤ deleted.length then acc
  else if (isWaiting ∨ s .lock jobKey = none) ∧ ¬ isJobSchedulerJob p jobId s ∧
      isOlderThan jobKey [.finishedOn, .processedOn, .timestamp] timestamp s then
    -- The entry becomes a deletion marker, so that the other entries keep their indices.
    let s : Store := s.modify (.list l) p (·.set index "")
    (deleted ++ [jobId], removeJobHard p s jobId)
  else acc

/-- `cleanList`: the ids that were deleted. -/
def cleanList (p : String) (l : ListKey) (limit timestamp : ℤ) (isWaiting : Bool) (s : Store) :
    List String × Store :=
  let list := s (.list l) p
  let first := if 0 < limit then list.length - limit.toNat else 0
  let (deleted, s) :=
    ((list.drop first).zipIdx first).foldl (cleanListStep p l limit timestamp isWaiting) ([], s)
  (deleted, s.modify (.list l) p (·.filter (· ≠ "")))

/-- One round of the loop of `cleanSet`. -/
def cleanSetStep (p : String) (limit : ℤ) (sparesSchedulers : Bool) (isOld : String → Store → Bool)
    (acc : List String × Store) (jobId : String) : List String × Store :=
  let (deleted, s) := acc
  if 0 < limit ∧ limit ≤ deleted.length then acc
  else if ¬ (sparesSchedulers ∧ isJobSchedulerJob p jobId s) ∧ isOld (p ++ jobId) s then
    (deleted ++ [jobId], removeJobHard p s jobId)
  else acc

/-- `cleanSet`: the ids that were deleted. -/
def cleanSet (p : String) (z : ZSetKey) (jobs : List String) (limit : ℤ) (sparesSchedulers : Bool)
    (isOld : String → Store → Bool) (s : Store) : List String × Store :=
  let (deleted, s) :=
    (if 0 < limit then jobs.take limit.toNat else jobs).foldl
      (cleanSetStep p limit sparesSchedulers isOld) ([], s)
  (deleted, (batches deleted.length 7000).foldl
    (fun s range => s.modify (.zset z) p (·.zremAll (unpack deleted range))) s)

/-- The sets that `clean` is called on. -/
inductive CleanState
  | active
  | delayed
  | prioritized
  | wait
  | paused
  | completed
  | failed
  deriving DecidableEq, Repr

namespace Script

/-- `cleanJobsInSet`. -/
def cleanJobsInSet (p : String) (timestamp limit : ℤ) (state : CleanState) (s : Store) :
    Reply × Store :=
  let old := fun attributes jobKey => isOlderThan jobKey attributes timestamp
  let (deleted, s) :=
    match state with
    | .active => cleanList p .active limit timestamp false s
    | .delayed =>
      cleanSet p .delayed ((s (.zset .delayed) p).rangeFrom 0) limit true
        (old [.processedOn, .timestamp]) s
    | .prioritized =>
      cleanSet p .prioritized ((s (.zset .prioritized) p).rangeFrom 0) limit true
        (old [.timestamp]) s
    | .wait => cleanList p .wait limit timestamp true s
    | .paused => cleanList p .paused limit timestamp true s
    | .completed =>
      cleanSet p .completed ((s (.zset .completed) p).rangeByScore 0 timestamp) limit false
        (fun _ _ => true) s
    | .failed =>
      cleanSet p .failed ((s (.zset .failed) p).rangeByScore 0 timestamp) limit false
        (fun _ _ => true) s
  (.ids deleted, s.xadd p (.cleaned deleted.length))

/-- The ids of the next jobs of all job schedulers. -/
def scheduledJobs (p : String) (s : Store) : List String :=
  (s .repeatSet p).entries.map fun e => "repeat:" ++ (ofLex e).2 ++ ":" ++ (ofLex e).1.repr

/-- `drain`. -/
def drain (p : String) (delayed : Bool) (s : Store) : Reply × Store :=
  let ignored := scheduledJobs p s
  let s := (removeListJobs p .wait 0 ignored s).2
  let s := (removeListJobs p .paused 0 ignored s).2
  let s := if delayed then (removeZSetJobs p .delayed 0 ignored s).2 else s
  (.nil, (removeZSetJobs p .prioritized 0 ignored s).2)

/-- The part of `obliterate` about job schedulers. -/
def removeSchedulers (p : String) (max : ℤ) (s : Store) : ℤ × Store :=
  let repeatJobsIds := firstItems max (s .repeatSet p).members
  let s := repeatJobsIds.foldl (fun s id => s.set .scheduler (p ++ "repeat:" ++ id) none) s
  (max - repeatJobsIds.length, (batches repeatJobsIds.length 7000).foldl
    (fun s range => s.modify .repeatSet p (·.zremAll (unpack repeatJobsIds range))) s)

/-- The keys that `obliterate` deletes last. -/
def deleteQueueKeys (p : String) (s : Store) : Store :=
  let s : Store := s.set .events p []
  let s : Store := s.set .stalledCheck p none
  let s : Store := s.set .stalled p ∅
  let s : Store := s.set .id p 0
  let s : Store := s.set .pc p 0
  let s : Store := s.set .marker p ∅
  let s : Store := s.set .metaPaused p false
  let s : Store := s.set .metaConcurrency p none
  let s : Store := s.set .metaMax p none
  let s : Store := s.set .metaDuration p none
  let s : Store := s.set .metaMaxLenEvents p none
  let s : Store := s.set .metrics (p ++ "metrics:completed") {}
  s.set .metrics (p ++ "metrics:failed") {}

/-- Run the stages of `obliterate` as long as there is budget left. -/
def runStages : List (ℤ → Store → ℤ × Store) → ℤ → Store → ℤ × Store
  | [], maxCount, s => (maxCount, s)
  | stage :: stages, maxCount, s =>
    if maxCount ≤ 0 then (maxCount, s)
    else
      let (maxCount, s) := stage maxCount s
      runStages stages maxCount s

/-- The stages of `obliterate` after the active jobs. -/
def obliterateStages (p : String) : List (ℤ → Store → ℤ × Store) :=
  [fun max => removeZSetJobs p .delayed max [], removeSchedulers p,
    fun max => removeZSetJobs p .completed max [], fun max => removeListJobs p .wait max [],
    fun max => removeListJobs p .paused max [], fun max => removeZSetJobs p .prioritized max [],
    fun max => removeZSetJobs p .failed max []]

/-- `obliterate`. -/
def obliterate (p : String) (count : ℤ) (force : Bool) (s : Store) : Reply × Store :=
  let activeJobs := firstItems count (s (.list .active) p)
  if ¬ s .metaPaused p then (.code (-1), s)
  else if activeJobs ≠ [] ∧ ¬ force then (.code (-2), s)
  else
    let s := activeJobs.foldl (fun s jobId => s.set .lock (p ++ jobId) none) s
    let s := removeJobs p activeJobs s
    let s : Store := s.modify (.list .active) p (·.drop activeJobs.length)
    let (maxCount, s) := runStages (obliterateStages p) (count - activeJobs.length) s
    if maxCount ≤ 0 then (.code 1, s) else (.code 0, deleteQueueKeys p s)

/-- `removeUnprocessedChildren`. -/
def removeUnprocessedChildren (fuel : ℕ) (p jobId : String) (s : Store) :
    Option (Reply × Store) :=
  let options : RemoveOptions :=
    { removeChildren := true, ignoreProcessed := true, ignoreLocked := true }
  (removeJobChildren (removeJobWithChildren fuel options) options (p ++ jobId) s).map fun s =>
    (.nil, s)

end Script

/-! ### What a hard removal does -/

/-- The queue that a job key names. -/
def keyBase (jobKey : String) : String := getJobKeyPrefix jobKey (getJobIdFromKey jobKey)

/-- The parent `k` of `c` is among those that wait for children, and waits for `c` alone. -/
structure WaitsOnly (s : Store) (c k : String) : Prop where
  parent : (s.parentOf c).map Parent.key = some k
  exist : s.jobExists k = true
  pending : c ∈ s .dependencies k
  alone : ∀ x ∈ s .dependencies k, x = c
  waits : getJobIdFromKey k ∈ s (.zset .waitingChildren) (keyBase k)

/-- The store after the last child `c` of the job `k` is unlinked. -/
def unlinkLast (c k : String) (s : Store) : Store :=
  Keyspace.modify (s.modify .dependencies k (·.srem c)) (.zset .waitingChildren) (keyBase k)
    (·.zrem (getJobIdFromKey k))

theorem srem_eq_empty {c : String} {m : MemberSet String} :
    m.srem c = ∅ ↔ ∀ x ∈ m, x = c := by
  rw [MemberSet.eq_empty_iff]
  constructor
  · intro h x hx
    by_contra hne
    exact h x (MemberSet.mem_srem.mpr ⟨hne, hx⟩)
  · intro h x hx
    obtain ⟨hne, hx⟩ := MemberSet.mem_srem.mp hx
    exact hne (h x hx)

/-- The ends of one step of a hard removal: no parent is concerned, the parent stays, it is
released, or it is deleted. -/
theorem unlinkHard_cases (n : ℕ) (p c : String) (s : Store) :
    ((∀ k, (s.parentOf c).map Parent.key = some k → s.jobExists k = true → c ∉ s .dependencies k) ∧
      unlinkHard (n + 1) p c s = s) ∨
    (∃ k, (s.parentOf c).map Parent.key = some k ∧ s.jobExists k = true ∧
      ¬ WaitsOnly s c k ∧ unlinkHard (n + 1) p c s = s.modify .dependencies k (·.srem c)) ∨
    (∃ k, WaitsOnly s c k ∧ keyBase k ≠ p ∧ unlinkHard (n + 1) p c s =
      pushReleasedParent (keyBase k) (getJobIdFromKey k) (unlinkLast c k s)) ∨
    ∃ k, WaitsOnly s c k ∧ keyBase k = p ∧ unlinkHard (n + 1) p c s =
      deleteDeduplicationKey p (s.deidOf c)
        (removeJobKeys k (unlinkHard n p k (unlinkLast c k s))) := by
  rw [unlinkHard]
  split
  · next hnone => exact .inl ⟨fun k hk => by simp [hnone] at hk, rfl⟩
  · next P hP =>
    have hkey : (s.parentOf c).map Parent.key = some P.key := by rw [hP]; rfl
    split
    · next hex =>
      simp only [Keyspace.modify_self, Function.update_self]
      rw [Keyspace.modify_of_ne _ (by decide)]
      split
      · next hempty =>
        have halone := srem_eq_empty.mp hempty
        split
        · next hwaits =>
          -- The account is empty now and the parent waits, so it waited for this child alone.
          have honly : WaitsOnly s c P.key := ⟨hkey, hex.1, hex.2, halone, hwaits⟩
          split
          · next hbase =>
            subst hbase
            exact .inr (.inr (.inr ⟨P.key, honly, rfl, rfl⟩))
          · next hbase => exact .inr (.inr (.inl ⟨P.key, honly, hbase, rfl⟩))
        · next hwaits =>
          exact .inr (.inl ⟨P.key, hkey, hex.1, fun h => hwaits h.waits, rfl⟩)
      · next hempty =>
        exact .inr (.inl ⟨P.key, hkey, hex.1, fun h => hempty (srem_eq_empty.mpr h.alone), rfl⟩)
    · next hno =>
      refine .inl ⟨fun k hk hex hc => hno ?_, rfl⟩
      obtain rfl : P.key = k := by simpa [hP] using hk
      exact ⟨hex, hc⟩

/-- The families that unlinking in the hard mode writes. -/
def unlinkHardWrites : List Kind :=
  .zset .waitingChildren :: .list .wait :: .marker :: .de :: jobKeyWrites

/-- The families that a hard removal writes. -/
def hardWrites : List Kind := .dn :: unlinkHardWrites

theorem pushReleasedParent_frame (p i : String) (s : Store) {κ : Kind}
    (h : κ ∉ [Kind.list .wait, .marker]) : pushReleasedParent p i s κ = s κ :=
  addJobInTargetList_frame _ _ _ _ _ h

theorem deleteDeduplicationKey_frame (p : String) (d : Option String) (s : Store) {κ : Kind}
    (h : κ ≠ .de) : deleteDeduplicationKey p d s κ = s κ := by
  unfold deleteDeduplicationKey
  split
  · exact Keyspace.set_of_ne _ h ..
  · rfl

theorem unlinkLast_frame (c k : String) (s : Store) {κ : Kind}
    (h : κ ∉ [Kind.dependencies, .zset .waitingChildren]) : unlinkLast c k s κ = s κ := by
  simp only [List.mem_cons, List.not_mem_nil, or_false, not_or] at h
  rw [unlinkLast, Keyspace.modify_of_ne _ h.2, Keyspace.modify_of_ne _ h.1]

theorem unlinkHard_frame (n : ℕ) (p c : String) (s : Store) {κ : Kind}
    (h : κ ∉ unlinkHardWrites) : unlinkHard n p c s κ = s κ := by
  obtain ⟨hwc, hwait, hmark, hde, hkeys⟩ : κ ≠ .zset .waitingChildren ∧ κ ≠ .list .wait ∧
      κ ≠ .marker ∧ κ ≠ .de ∧ κ ∉ jobKeyWrites := by simpa [unlinkHardWrites] using h
  have hdep : κ ≠ .dependencies := by rintro rfl; exact hkeys (by decide)
  have hlast : ∀ c k s, unlinkLast c k s κ = s κ := fun c k s =>
    unlinkLast_frame c k s (by simp [hdep, hwc])
  induction n generalizing c s with
  | zero => rfl
  | succ n ih =>
    obtain ⟨-, heq⟩ | ⟨k, -, -, -, heq⟩ | ⟨k, -, -, heq⟩ | ⟨k, -, -, heq⟩ :=
      unlinkHard_cases n p c s <;>
      rw [heq]
    · exact Keyspace.modify_of_ne _ hdep ..
    · rw [pushReleasedParent_frame _ _ _ (by simp [hwait, hmark]), hlast]
    · rw [deleteDeduplicationKey_frame _ _ _ hde, removeJobKeys_frame _ _ hkeys, ih, hlast]

theorem removeJobHard_frame (p : String) (s : Store) (j : String) {κ : Kind}
    (h : κ ∉ hardWrites) : removeJobHard p s j κ = s κ := by
  obtain ⟨hdn, hunlink⟩ : κ ≠ .dn ∧ κ ∉ unlinkHardWrites := by simpa [hardWrites] using h
  have hde : κ ≠ .de := by rintro rfl; exact hunlink (by decide)
  have hkeys : κ ∉ jobKeyWrites := Kind.notMem_mono hunlink (by decide)
  simp only [removeJobHard]
  rw [removeJobKeys_frame _ _ hkeys,
    removeDeduplicationKeyIfNeededOnRemoval_frame _ _ _ _ (by simp [hde, hdn]),
    removeParentDependencyKeyHard, unlinkHard_frame _ _ _ _ hunlink]

/-- Unlinking a last child leaves no new job that waits for one child alone. -/
theorem WaitsOnly.of_unlinkLast {s : Store} {c k x y : String} (hk : WaitsOnly s c k)
    (h : WaitsOnly (unlinkLast c k s) x y) : WaitsOnly s x y := by
  have hhash : ∀ i, unlinkLast c k s .hash i = s .hash i := fun i => by
    rw [unlinkLast_frame _ _ _ (by decide)]
  have hdep : unlinkLast c k s .dependencies y =
      Function.update (s .dependencies) k ((s .dependencies k).srem c) y := by
    rw [unlinkLast, Keyspace.modify_of_ne _ (by decide), Keyspace.modify_self]
  have hne : y ≠ k := by
    rintro rfl
    have hx := h.pending
    rw [hdep, Function.update_self, srem_eq_empty.mpr hk.alone] at hx
    exact MemberSet.notMem_empty x hx
  rw [Function.update_of_ne hne] at hdep
  have hwaits := h.waits
  rw [unlinkLast, Keyspace.modify_self, Function.update_apply] at hwaits
  exact {
    parent := by rw [← h.parent, Store.parentOf, Store.parentOf, hhash]
    exist := by rw [← h.exist, Store.jobExists, Store.jobExists, hhash]
    pending := hdep ▸ h.pending
    alone := hdep ▸ h.alone
    waits := by
      split at hwaits
      · next hbase =>
        rw [hbase]
        exact (SortedSet.mem_zrem.mp hwaits).1
      · rwa [Keyspace.modify_of_ne _ (by decide)] at hwaits }

open Relation in
/-- The invariant rule of a hard removal: the jobs it touches besides `c₀` are those that wait for
`c₀` alone, for one of those alone, and so on. -/
theorem unlinkHard_rule {I : Store → Prop} {p c₀ : String} {s₀ : Store}
    (hunlink : ∀ c k s, I s → I (s.modify .dependencies k (·.srem c)))
    (hlast : ∀ c k s, TransGen (WaitsOnly s₀) c₀ k → I s → I (unlinkLast c k s))
    (hpush : ∀ k s, TransGen (WaitsOnly s₀) c₀ k → I s →
      I (pushReleasedParent (keyBase k) (getJobIdFromKey k) s))
    (hdelete : ∀ k s, TransGen (WaitsOnly s₀) c₀ k → keyBase k = p → I s → I (removeJobKeys k s))
    (hde : ∀ d s, I s → I (deleteDeduplicationKey p d s)) (h₀ : I s₀) (n : ℕ) :
    I (unlinkHard n p c₀ s₀) := by
  have hrec : ∀ (n : ℕ) (c : String) (s : Store), I s →
    (∀ x y, WaitsOnly s x y → WaitsOnly s₀ x y) →
      ReflTransGen (WaitsOnly s₀) c₀ c → I (unlinkHard n p c s) := by
    intro n
    induction n with
    | zero => exact fun c s hs _ _ => hs
    | succ n ih =>
      intro c s hs hold hc
      obtain ⟨-, heq⟩ | ⟨k, -, -, -, heq⟩ | ⟨k, hk, -, heq⟩ | ⟨k, hk, hbase, heq⟩ :=
        unlinkHard_cases n p c s <;> rw [heq]
      · exact hs
      · exact hunlink c k s hs
      · have hreach := TransGen.tail' hc (hold c k hk)
        exact hpush k _ hreach (hlast c k s hreach hs)
      · have hreach := TransGen.tail' hc (hold c k hk)
        refine hde _ _ (hdelete k _ hreach hbase
          (ih k _ (hlast c k s hreach hs) ?_ hreach.to_reflTransGen))
        exact fun x y hxy => hold x y (hk.of_unlinkLast hxy)
  exact hrec n c₀ s₀ h₀ (fun _ _ h => h) .refl

section HardEffects

open Relation

variable {s : Store} {c : String}

theorem unlinkHard_hash {p k : String} (h : TransGen (WaitsOnly s) c k → keyBase k ≠ p) (n : ℕ) :
    unlinkHard n p c s .hash k = s .hash k := by
  refine unlinkHard_rule (I := fun s' => s' .hash k = s .hash k) ?_ ?_ ?_ ?_ ?_ rfl n
  · intro _ _ s' hs
    rw [Keyspace.modify_of_ne _ (by decide), hs]
  · intro _ _ s' _ hs
    rw [unlinkLast_frame _ _ _ (by decide), hs]
  · intro _ s' _ hs
    rw [pushReleasedParent_frame _ _ _ (by decide), hs]
  · intro k' s' hk' hbase hs
    have hne : k ≠ k' := by
      rintro rfl
      exact h hk' hbase
    rw [removeJobKeys_hash, Function.update_of_ne hne, hs]
  · intro _ s' hs
    rw [deleteDeduplicationKey_frame _ _ _ (by decide), hs]

/-- A hard removal leaves a hash as it was or deletes it. -/
theorem unlinkHard_hash_or (n : ℕ) (p k : String) :
    unlinkHard n p c s .hash k = s .hash k ∨ unlinkHard n p c s .hash k = none := by
  refine unlinkHard_rule (I := fun s' => s' .hash k = s .hash k ∨ s' .hash k = none)
    ?_ ?_ ?_ ?_ ?_ (.inl rfl) n
  · intro _ _ s' hs
    rwa [Keyspace.modify_of_ne _ (by decide)]
  · intro _ _ s' _ hs
    rwa [unlinkLast_frame _ _ _ (by decide)]
  · intro _ s' _ hs
    rwa [pushReleasedParent_frame _ _ _ (by decide)]
  · intro k' s' _ _ hs
    rw [removeJobKeys_hash, Function.update_apply]
    split
    · exact .inr rfl
    · exact hs
  · intro _ s' hs
    rwa [deleteDeduplicationKey_frame _ _ _ (by decide)]

/-- Only a parent that waits comes into a wait list, and none leaves one. -/
theorem mem_wait_unlinkHard {q j : String} (h : ¬ TransGen (WaitsOnly s) c (q ++ j)) (n : ℕ)
    (p : String) : j ∈ unlinkHard n p c s (.list .wait) q ↔ j ∈ s (.list .wait) q := by
  refine unlinkHard_rule (I := fun s' => j ∈ s' (.list .wait) q ↔ j ∈ s (.list .wait) q)
    ?_ ?_ ?_ ?_ ?_ Iff.rfl n
  · intro _ _ s' hs
    rw [Keyspace.modify_of_ne _ (by decide), hs]
  · intro _ _ s' _ hs
    rw [unlinkLast_frame _ _ _ (by decide), hs]
  · intro k s' hk hs
    rw [pushReleasedParent, addJobInTargetList, addBaseMarkerIfNeeded_frame _ _ _ (by decide),
      Keyspace.modify_self, Function.update_apply]
    split
    · next hq =>
      subst hq
      have hne : j ≠ getJobIdFromKey k := by
        rintro rfl
        exact h (by rw [keyBase, getJobKeyPrefix_append_getJobIdFromKey]; exact hk)
      rw [PushCmd.mem_push, ← hs]
      exact or_iff_right hne
    · exact hs
  · intro _ s' _ _ hs
    rw [removeJobKeys_frame _ _ (by decide), hs]
  · intro _ s' hs
    rw [deleteDeduplicationKey_frame _ _ _ (by decide), hs]

/-- Only a parent that waits for its last child leaves the set of those that wait. -/
theorem mem_waitingChildren_unlinkHard {q j : String} (h : ¬ TransGen (WaitsOnly s) c (q ++ j))
    (n : ℕ) (p : String) :
    j ∈ unlinkHard n p c s (.zset .waitingChildren) q ↔ j ∈ s (.zset .waitingChildren) q := by
  refine unlinkHard_rule
    (I := fun s' => j ∈ s' (.zset .waitingChildren) q ↔ j ∈ s (.zset .waitingChildren) q)
    ?_ ?_ ?_ ?_ ?_ Iff.rfl n
  · intro _ _ s' hs
    rw [Keyspace.modify_of_ne _ (by decide), hs]
  · intro _ k s' hk hs
    rw [unlinkLast, Keyspace.modify_self, Function.update_apply,
      Keyspace.modify_of_ne _ (by decide)]
    split
    · next hq =>
      subst hq
      have hne : j ≠ getJobIdFromKey k := by
        rintro rfl
        exact h (by rw [keyBase, getJobKeyPrefix_append_getJobIdFromKey]; exact hk)
      rw [SortedSet.mem_zrem, ← hs]
      exact and_iff_left hne
    · exact hs
  · intro _ s' _ hs
    rw [pushReleasedParent_frame _ _ _ (by decide), hs]
  · intro _ s' _ _ hs
    rw [removeJobKeys_frame _ _ (by decide), hs]
  · intro _ s' hs
    rw [deleteDeduplicationKey_frame _ _ _ (by decide), hs]

theorem removeJobHard_hash (p j k : String) (s : Store) :
    removeJobHard p s j .hash k =
      if k = p ++ j then none else removeParentDependencyKeyHard p (p ++ j) s .hash k := by
  rw [removeJobHard, removeJobKeys_hash, Function.update_apply,
    removeDeduplicationKeyIfNeededOnRemoval_frame _ _ _ _ (by decide)]

/-- The families in which a hard removal differs from the unlinking it begins with. -/
theorem removeJobHard_eq_unlink (p j : String) (s : Store) {κ : Kind}
    (h : κ ∉ Kind.de :: .dn :: jobKeyWrites) :
    removeJobHard p s j κ = removeParentDependencyKeyHard p (p ++ j) s κ := by
  rw [removeJobHard, removeJobKeys_frame _ _ (Kind.notMem_mono h (by decide)),
    removeDeduplicationKeyIfNeededOnRemoval_frame _ _ _ _ (Kind.notMem_mono h (by decide))]

end HardEffects

/-! ### What cleaning up writes -/

/-- The families that the scripts which delete many jobs write, besides the event stream. -/
def sweepWrites : List Kind :=
  .list .paused :: .list .active :: .zset .delayed :: .zset .prioritized :: .zset .completed ::
    .zset .failed :: hardWrites

theorem removeJobs_frame (p : String) (jobIds : List String) (s : Store) {κ : Kind}
    (h : κ ∉ hardWrites) : removeJobs p jobIds s κ = s κ := by
  unfold removeJobs
  induction jobIds generalizing s with
  | nil => rfl
  | cons j jobIds ih => rw [List.foldl_cons, ih, removeJobHard_frame p s j h]

/-- A hard removal releases parents into other queues only. -/
theorem unlinkHard_wait (n : ℕ) (p c : String) (s : Store) :
    unlinkHard n p c s (.list .wait) p = s (.list .wait) p := by
  induction n generalizing c s with
  | zero => rfl
  | succ n ih =>
    obtain ⟨-, heq⟩ | ⟨k, -, -, -, heq⟩ | ⟨k, -, hbase, heq⟩ | ⟨k, -, -, heq⟩ :=
      unlinkHard_cases n p c s <;> rw [heq]
    · rw [Keyspace.modify_of_ne _ (by decide)]
    · rw [pushReleasedParent, addJobInTargetList, addBaseMarkerIfNeeded_frame _ _ _ (by decide),
        Keyspace.modify_self, Function.update_of_ne (Ne.symm hbase),
        unlinkLast_frame _ _ _ (by decide)]
    · rw [deleteDeduplicationKey_frame _ _ _ (by decide), removeJobKeys_frame _ _ (by decide), ih,
        unlinkLast_frame _ _ _ (by decide)]

theorem removeJobs_list (p : String) (jobIds : List String) (l : ListKey) (s : Store) :
    removeJobs p jobIds s (.list l) p = s (.list l) p := by
  have hone : ∀ s j, removeJobHard p s j (.list l) p = s (.list l) p := by
    intro s j
    rw [removeJobHard_eq_unlink _ _ _ (by cases l <;> decide)]
    cases l with
    | wait => exact unlinkHard_wait _ p _ s
    | paused => rw [removeParentDependencyKeyHard, unlinkHard_frame _ _ _ _ (by decide)]
    | active => rw [removeParentDependencyKeyHard, unlinkHard_frame _ _ _ _ (by decide)]
  unfold removeJobs
  induction jobIds generalizing s with
  | nil => rfl
  | cons j jobIds ih => rw [List.foldl_cons, ih, hone]

theorem removeListJobs_frame (p : String) (l : ListKey) (m : ℤ) (ignored : List String) (s : Store)
    {κ : Kind} (h : κ ∉ Kind.list l :: hardWrites) :
    (removeListJobs p l m ignored s).2 κ = s κ := by
  obtain ⟨hl, hhard⟩ : κ ≠ .list l ∧ κ ∉ hardWrites := by simpa using h
  simp only [removeListJobs]
  rw [Keyspace.modify_of_ne _ hl, removeJobs_frame _ _ _ hhard]

theorem removeZSetJobs_frame (p : String) (z : ZSetKey) (m : ℤ) (ignored : List String) (s : Store)
    {κ : Kind} (h : κ ∉ Kind.zset z :: hardWrites) :
    (removeZSetJobs p z m ignored s).2 κ = s κ := by
  obtain ⟨hz, hhard⟩ : κ ≠ .zset z ∧ κ ∉ hardWrites := by simpa using h
  simp only [removeZSetJobs]
  rw [foldl_zremAll_frame _ _ _ _ _ hz, removeJobs_frame _ _ _ hhard]

theorem cleanList_frame (p : String) (l : ListKey) (limit t : ℤ) (w : Bool) (s : Store) {κ : Kind}
    (h : κ ∉ Kind.list l :: hardWrites) : (cleanList p l limit t w s).2 κ = s κ := by
  obtain ⟨hl, hhard⟩ : κ ≠ .list l ∧ κ ∉ hardWrites := by simpa using h
  have hstep : ∀ acc job, (cleanListStep p l limit t w acc job).2 κ = acc.2 κ := by
    intro acc job
    simp only [cleanListStep]
    split
    · rfl
    · split
      · rw [removeJobHard_frame _ _ _ hhard, Keyspace.modify_of_ne _ hl]
      · rfl
  have hfold : ∀ (jobs : List (String × ℕ)) (acc : List String × Store),
      (jobs.foldl (cleanListStep p l limit t w) acc).2 κ = acc.2 κ := by
    intro jobs
    induction jobs with
    | nil => exact fun acc => rfl
    | cons job jobs ih => exact fun acc => (ih _).trans (hstep acc job)
  simp only [cleanList]
  rw [Keyspace.modify_of_ne _ hl, hfold]

theorem cleanSet_frame (p : String) (z : ZSetKey) (jobs : List String) (limit : ℤ) (b : Bool)
    (isOld : String → Store → Bool) (s : Store) {κ : Kind} (h : κ ∉ Kind.zset z :: hardWrites) :
    (cleanSet p z jobs limit b isOld s).2 κ = s κ := by
  obtain ⟨hz, hhard⟩ : κ ≠ .zset z ∧ κ ∉ hardWrites := by simpa using h
  have hstep : ∀ acc j, (cleanSetStep p limit b isOld acc j).2 κ = acc.2 κ := by
    intro acc j
    simp only [cleanSetStep]
    split
    · rfl
    · split
      · exact removeJobHard_frame _ _ _ hhard
      · rfl
  have hfold : ∀ (jobs : List String) (acc : List String × Store),
      (jobs.foldl (cleanSetStep p limit b isOld) acc).2 κ = acc.2 κ := by
    intro jobs
    induction jobs with
    | nil => exact fun acc => rfl
    | cons j jobs ih => exact fun acc => (ih _).trans (hstep acc j)
  simp only [cleanSet]
  rw [foldl_zremAll_frame _ _ _ _ _ hz, hfold]

namespace Script

theorem cleanJobsInSet_frame (p : String) (t limit : ℤ) (st : CleanState) (s : Store) {κ : Kind}
    (h : κ ∉ Kind.events :: sweepWrites) : (cleanJobsInSet p t limit st s).2 κ = s κ := by
  have hev : κ ≠ .events := by rintro rfl; exact h (by decide)
  simp only [cleanJobsInSet]
  rw [Store.xadd_of_ne _ _ _ hev]
  cases st with
  | active => exact cleanList_frame _ _ _ _ _ _ (Kind.notMem_mono h (by decide))
  | wait => exact cleanList_frame _ _ _ _ _ _ (Kind.notMem_mono h (by decide))
  | paused => exact cleanList_frame _ _ _ _ _ _ (Kind.notMem_mono h (by decide))
  | delayed => exact cleanSet_frame _ _ _ _ _ _ _ (Kind.notMem_mono h (by decide))
  | prioritized => exact cleanSet_frame _ _ _ _ _ _ _ (Kind.notMem_mono h (by decide))
  | completed => exact cleanSet_frame _ _ _ _ _ _ _ (Kind.notMem_mono h (by decide))
  | failed => exact cleanSet_frame _ _ _ _ _ _ _ (Kind.notMem_mono h (by decide))

theorem drain_frame (p : String) (delayed : Bool) (s : Store) {κ : Kind} (h : κ ∉ sweepWrites) :
    (drain p delayed s).2 κ = s κ := by
  have hdelayed : ∀ l s', (if delayed then (removeZSetJobs p .delayed 0 l s').2 else s') κ =
      s' κ := by
    intro l s'
    split
    · exact removeZSetJobs_frame _ _ _ _ _ (Kind.notMem_mono h (by decide))
    · rfl
  simp only [drain]
  rw [removeZSetJobs_frame _ _ _ _ _ (Kind.notMem_mono h (by decide)), hdelayed,
    removeListJobs_frame _ _ _ _ _ (Kind.notMem_mono h (by decide)),
    removeListJobs_frame _ _ _ _ _ (Kind.notMem_mono h (by decide))]

theorem removeSchedulers_frame (p : String) (max : ℤ) (s : Store) {κ : Kind}
    (h : κ ∉ [Kind.repeatSet, .scheduler]) : (removeSchedulers p max s).2 κ = s κ := by
  simp only [List.mem_cons, List.not_mem_nil, or_false, not_or] at h
  have hhashes : ∀ (ids : List String) (s' : Store), ids.foldl
      (fun s' id => s'.set .scheduler (p ++ "repeat:" ++ id) none) s' κ = s' κ := by
    intro ids
    induction ids with
    | nil => exact fun s' => rfl
    | cons id ids ih => exact fun s' => (ih _).trans (Keyspace.set_of_ne _ h.2 ..)
  have hentries : ∀ (ids : List String) (rs : List (ℕ × ℕ)) (s' : Store), rs.foldl
      (fun s' range => s'.modify .repeatSet p (·.zremAll (unpack ids range))) s' κ = s' κ := by
    intro ids rs
    induction rs with
    | nil => exact fun s' => rfl
    | cons r rs ih => exact fun s' => (ih _).trans (Keyspace.modify_of_ne _ h.1 ..)
  simp only [removeSchedulers]
  rw [hentries, hhashes]

/-- An invariant that every stage keeps is kept by the stages. -/
theorem runStages_rule {I : Store → Prop} {stages : List (ℤ → Store → ℤ × Store)}
    (hstage : ∀ stage ∈ stages, ∀ m s, I s → I (stage m s).2) {m : ℤ} {s : Store} (hs : I s) :
    I (runStages stages m s).2 := by
  induction stages generalizing m s with
  | nil => exact hs
  | cons stage stages ih =>
    unfold runStages
    split
    · exact hs
    · exact ih (fun st hst => hstage st (by simp [hst])) (hstage stage (by simp) m s hs)

/-- The families of the keys that `obliterate` deletes last. -/
def queueKeyWrites : List Kind :=
  [.events, .stalledCheck, .stalled, .id, .pc, .marker, .metaPaused, .metaConcurrency, .metaMax,
    .metaDuration, .metaMaxLenEvents, .metrics]

theorem deleteQueueKeys_frame (p : String) (s : Store) {κ : Kind} (h : κ ∉ queueKeyWrites) :
    deleteQueueKeys p s κ = s κ := by
  simp only [queueKeyWrites, List.mem_cons, List.not_mem_nil, or_false, not_or] at h
  obtain ⟨h1, h2, h3, h4, h5, h6, h7, h8, h9, h10, h11, h12⟩ := h
  simp only [deleteQueueKeys]
  rw [Keyspace.set_of_ne _ h12, Keyspace.set_of_ne _ h12, Keyspace.set_of_ne _ h11,
    Keyspace.set_of_ne _ h10, Keyspace.set_of_ne _ h9, Keyspace.set_of_ne _ h8,
    Keyspace.set_of_ne _ h7, Keyspace.set_of_ne _ h6, Keyspace.set_of_ne _ h5,
    Keyspace.set_of_ne _ h4, Keyspace.set_of_ne _ h3, Keyspace.set_of_ne _ h2,
    Keyspace.set_of_ne _ h1]

theorem deleteQueueKeys_id (p : String) (s : Store) :
    deleteQueueKeys p s .id = Function.update (s .id) p 0 := by
  simp only [deleteQueueKeys]
  rw [Keyspace.set_of_ne _ (by decide), Keyspace.set_of_ne _ (by decide),
    Keyspace.set_of_ne _ (by decide), Keyspace.set_of_ne _ (by decide),
    Keyspace.set_of_ne _ (by decide), Keyspace.set_of_ne _ (by decide),
    Keyspace.set_of_ne _ (by decide), Keyspace.set_of_ne _ (by decide),
    Keyspace.set_of_ne _ (by decide), Keyspace.set_self, Keyspace.set_of_ne _ (by decide),
    Keyspace.set_of_ne _ (by decide), Keyspace.set_of_ne _ (by decide)]

theorem foldl_unlock_frame (p : String) (ids : List String) (s : Store) {κ : Kind} (h : κ ≠ .lock) :
    ids.foldl (fun s jobId => s.set .lock (p ++ jobId) none) s κ = s κ := by
  induction ids generalizing s with
  | nil => rfl
  | cons id ids ih => rw [List.foldl_cons, ih, Keyspace.set_of_ne _ h]

/-- The families `obliterate` writes. -/
def obliterateWrites : List Kind :=
  .lock :: .repeatSet :: .scheduler :: (queueKeyWrites ++ sweepWrites)

theorem obliterate_frame (p : String) (count : ℤ) (force : Bool) (s : Store) {κ : Kind}
    (h : κ ∉ obliterateWrites) : (obliterate p count force s).2 κ = s κ := by
  have hlock : κ ≠ .lock := by rintro rfl; exact h (by decide)
  have hact : κ ≠ .list .active := by rintro rfl; exact h (by decide)
  have hstages : ∀ m s', (runStages (obliterateStages p) m s').2 κ = s' κ := by
    intro m s'
    refine runStages_rule (I := fun t => t κ = s' κ) (fun stage hstage m t ht => ?_) rfl
    simp only [obliterateStages, List.mem_cons, List.not_mem_nil, or_false] at hstage
    rcases hstage with rfl | rfl | rfl | rfl | rfl | rfl | rfl
    · exact (removeZSetJobs_frame _ _ _ _ _ (Kind.notMem_mono h (by decide))).trans ht
    · exact (removeSchedulers_frame _ _ _ (Kind.notMem_mono h (by decide))).trans ht
    · exact (removeZSetJobs_frame _ _ _ _ _ (Kind.notMem_mono h (by decide))).trans ht
    · exact (removeListJobs_frame _ _ _ _ _ (Kind.notMem_mono h (by decide))).trans ht
    · exact (removeListJobs_frame _ _ _ _ _ (Kind.notMem_mono h (by decide))).trans ht
    · exact (removeZSetJobs_frame _ _ _ _ _ (Kind.notMem_mono h (by decide))).trans ht
    · exact (removeZSetJobs_frame _ _ _ _ _ (Kind.notMem_mono h (by decide))).trans ht
  simp only [obliterate]
  split
  · rfl
  · split
    · rfl
    · have hbefore : ∀ s', (removeJobs p (firstItems count (s (.list .active) p)) s') κ = s' κ :=
        fun s' => removeJobs_frame _ _ _ (Kind.notMem_mono h (by decide))
      split
      · rw [hstages, Keyspace.modify_of_ne _ hact, hbefore, foldl_unlock_frame _ _ _ hlock]
      · rw [deleteQueueKeys_frame _ _ (Kind.notMem_mono h (by decide)), hstages,
          Keyspace.modify_of_ne _ hact, hbefore, foldl_unlock_frame _ _ _ hlock]

theorem removeUnprocessedChildren_frame {fuel : ℕ} {p j : String} {s : Store} {r : Reply × Store}
    (h : removeUnprocessedChildren fuel p j s = some r) {κ : Kind} (hκ : κ ∉ deleteWrites) :
    r.2 κ = s κ := by
  obtain ⟨s', hs', rfl⟩ := Option.map_eq_some_iff.mp h
  have hunlink : ∀ k o s', s' κ = s κ → (removeParentDependencyKey k o s').2 κ = s κ :=
    fun k o s' hs => (removeParentDependencyKey_frame _ _ _
      (Kind.notMem_mono hκ (by decide))).trans hs
  have hdelete : ∀ q i s', True → s' κ = s κ → deleteJob q i s' κ = s κ :=
    fun q i s' _ hs => (deleteJob_frame _ _ _ hκ).trans hs
  refine removeJobChildren_rule (I := fun s' => s' κ = s κ) (V := fun _ _ => True)
    (fun _ _ _ _ _ => trivial) (fun q i o s₁ s₂ _ hs₁ h₁ => ?_) rfl hs'
  exact removeJobWithChildren_rule (I := fun s' => s' κ = s κ) (V := fun _ _ => True) hunlink
    hdelete (fun _ _ _ _ _ => trivial) trivial hs₁ h₁

end Script

end BullMQ
