import BullMQ.Model.Enqueue

/-!
# Children and their parent

How a child's end reaches its parent: the four sets of child keys a parent keeps (`dependencies`,
`processed`, `failedChildren`, `unsuccessful`) and the release of a parent that waits for its
children. A release through a child's completion or failure reads the parent's delay and priority
(`moveParentToWait`); a release through a removed child always pushes to the wait list
(`moveParentToWaitPlain`, the source's `_moveParentToWait`).
-/

namespace BullMQ

open Redis

/-! ### Release of a parent -/

/-- `moveParentToWait`: put a released parent into `wait`, `prioritized` or `delayed`. -/
def moveParentToWait (P : Parent) (timestamp : ℤ) (s : Store) : Store :=
  let priority := s.priorityOf P.key
  let delay := s.delayOf P.key
  if 0 < delay then
    let delayedTimestamp := timestamp + delay
    let s : Store := s.modify (.zset .delayed) P.base (·.zadd (delayedTimestamp * 0x1000) P.id)
    let s : Store := s.xadd P.base (.delayed P.id delayedTimestamp)
    addDelayMarkerIfNeeded P.base s
  else
    let isPausedOrMaxed := isQueuePausedOrMaxed P.base s
    let s : Store :=
      if priority = 0 then addJobInTargetList P.base .rpush isPausedOrMaxed P.id s
      else addJobWithPriority P.base priority P.id isPausedOrMaxed s
    s.xadd P.base (.waiting P.id (some "waiting-children"))

/-- `moveParentToWaitIfNeeded`: release an existing parent that waits for its children. -/
def moveParentToWaitIfNeeded (P : Parent) (timestamp : ℤ) (s : Store) : Store :=
  if s.jobExists P.key ∧ P.id ∈ s (.zset .waitingChildren) P.base then
    moveParentToWait P timestamp (s.modify (.zset .waitingChildren) P.base (·.zrem P.id))
  else s

/-- `moveParentToWaitIfNoPendingDependencies`. -/
def moveParentToWaitIfNoPendingDependencies (P : Parent) (timestamp : ℤ) (s : Store) : Store :=
  if s .dependencies P.key = ∅ then moveParentToWaitIfNeeded P timestamp s else s

/-- `updateParentDepsIfNeeded`: record a completed child and release its parent if it was the
last one. -/
def updateParentDepsIfNeeded (P : Parent) (jobIdKey returnvalue : String) (timestamp : ℤ)
    (s : Store) : Store :=
  moveParentToWaitIfNoPendingDependencies P timestamp
    (s.modify .processed P.key (·.insert jobIdKey returnvalue))

/-- The families a release writes. -/
def releaseWrites : List Kind :=
  [.list .wait, .zset .prioritized, .zset .delayed, .pc, .events, .marker]

theorem moveParentToWait_frame (P : Parent) (t : ℤ) (s : Store) {κ : Kind}
    (h : κ ∉ releaseWrites) : moveParentToWait P t s κ = s κ := by
  simp only [releaseWrites, List.mem_cons, List.not_mem_nil, or_false, not_or] at h
  obtain ⟨hwait, hprio, hdel, hpc, hev, hmark⟩ := h
  simp only [moveParentToWait]
  split
  · rw [addDelayMarkerIfNeeded_frame _ _ (by simpa using hmark), Store.xadd_of_ne _ _ _ hev,
      Keyspace.modify_of_ne _ hdel]
  · rw [Store.xadd_of_ne _ _ _ hev]
    split
    · exact addJobInTargetList_frame _ _ _ _ _ (by simp [*])
    · exact addJobWithPriority_frame _ _ _ _ _ (by simp [*])

theorem moveParentToWaitIfNeeded_frame (P : Parent) (t : ℤ) (s : Store) {κ : Kind}
    (h : κ ∉ Kind.zset .waitingChildren :: releaseWrites) :
    moveParentToWaitIfNeeded P t s κ = s κ := by
  obtain ⟨hwc, hrel⟩ : κ ≠ .zset .waitingChildren ∧ κ ∉ releaseWrites := by simpa using h
  unfold moveParentToWaitIfNeeded
  split
  · rw [moveParentToWait_frame _ _ _ hrel, Keyspace.modify_of_ne _ hwc]
  · rfl

theorem moveParentToWaitIfNoPendingDependencies_frame (P : Parent) (t : ℤ) (s : Store) {κ : Kind}
    (h : κ ∉ Kind.zset .waitingChildren :: releaseWrites) :
    moveParentToWaitIfNoPendingDependencies P t s κ = s κ := by
  unfold moveParentToWaitIfNoPendingDependencies
  split
  · exact moveParentToWaitIfNeeded_frame P t s h
  · rfl

theorem updateParentDepsIfNeeded_frame (P : Parent) (k v : String) (t : ℤ) (s : Store) {κ : Kind}
    (h : κ ∉ Kind.processed :: .zset .waitingChildren :: releaseWrites) :
    updateParentDepsIfNeeded P k v t s κ = s κ := by
  obtain ⟨hproc, hrel⟩ : κ ≠ .processed ∧ κ ∉ Kind.zset .waitingChildren :: releaseWrites := by
    simpa using h
  rw [updateParentDepsIfNeeded, moveParentToWaitIfNoPendingDependencies_frame _ _ _ hrel,
    Keyspace.modify_of_ne _ hproc]

/-- A parent that has pending children or does not wait stays where it is. -/
theorem moveParentToWaitIfNoPendingDependencies_of_not {P : Parent} {s : Store}
    (h : ¬ (s .dependencies P.key = ∅ ∧ P.id ∈ s (.zset .waitingChildren) P.base)) (t : ℤ) :
    moveParentToWaitIfNoPendingDependencies P t s = s := by
  unfold moveParentToWaitIfNoPendingDependencies moveParentToWaitIfNeeded
  split
  · next hempty => exact if_neg fun hwait => h ⟨hempty, hwait.2⟩
  · rfl

/-- An existing parent without pending children does not wait any more. -/
theorem notMem_waitingChildren_of_release {P : Parent} {s : Store}
    (hempty : s .dependencies P.key = ∅) (hex : s.jobExists P.key = true) (t : ℤ) :
    P.id ∉ moveParentToWaitIfNoPendingDependencies P t s (.zset .waitingChildren) P.base := by
  rw [moveParentToWaitIfNoPendingDependencies, if_pos hempty, moveParentToWaitIfNeeded]
  split
  · rw [moveParentToWait_frame _ _ _ (by decide), Keyspace.modify_self, Function.update_self,
      SortedSet.mem_zrem]
    exact fun hmem => hmem.2 rfl
  · next hno => exact fun hwait => hno ⟨hex, hwait⟩

/-! ### Failure of a child -/

/-- The deferred failure a parent gets from a failed child. -/
def deferredFailure (childKey : String) : String := "child " ++ childKey ++ " failed"

/-- `handleChildFailureAndMoveParentToWait`: fail a parent through its child, at once if it waits
for children or is delayed, else when it is processed next. -/
def handleChildFailureAndMoveParentToWait (P : Parent) (childKey : String) (timestamp : ℤ)
    (s : Store) : Store :=
  if s.jobExists P.key then
    if P.id ∈ s (.zset .waitingChildren) P.base then
      let s : Store := s.modify (.zset .waitingChildren) P.base (·.zrem P.id)
      let s := s.hset P.key fun job => { job with defa := some (deferredFailure childKey) }
      moveParentToWait P timestamp s
    else if P.id ∈ s (.zset .delayed) P.base then
      let s := s.hset P.key fun job => { job with delay := some 0 }
      let s : Store := s.modify (.zset .delayed) P.base (·.zrem P.id)
      let s := s.hset P.key fun job => { job with defa := some (deferredFailure childKey) }
      moveParentToWait P timestamp s
    else if P.id ∈ s (.zset .failed) P.base then s
    else s.hset P.key fun job => { job with defa := some (deferredFailure childKey) }
  else s

/-- `moveChildFromDependenciesIfNeeded`: account for a failed child by its failure policy. A
child without a policy stays a pending dependency. -/
def moveChildFromDependenciesIfNeeded (rawParentData : Option Parent) (childKey : String)
    (failedReason : String) (timestamp : ℤ) (s : Store) : Store :=
  match rawParentData with
  | none => s
  | some P =>
    if childKey ∈ s .dependencies P.key then
      if P.fpof then
        let s : Store := s.modify .dependencies P.key (·.srem childKey)
        let s : Store := s.modify .unsuccessful P.key (·.zadd timestamp childKey)
        handleChildFailureAndMoveParentToWait P childKey timestamp s
      else if P.cpof then
        let s : Store := s.modify .dependencies P.key (·.srem childKey)
        let s : Store := s.modify .failedChildren P.key (·.insert childKey failedReason)
        moveParentToWaitIfNeeded P timestamp s
      else if P.idof ∨ P.rdof then
        let s : Store := s.modify .dependencies P.key (·.srem childKey)
        let s := moveParentToWaitIfNoPendingDependencies P timestamp s
        if P.idof then s.modify .failedChildren P.key (·.insert childKey failedReason) else s
      else s
    else s

theorem handleChildFailureAndMoveParentToWait_frame (P : Parent) (k : String) (t : ℤ) (s : Store)
    {κ : Kind} (h : κ ∉ Kind.hash :: .zset .waitingChildren :: releaseWrites) :
    handleChildFailureAndMoveParentToWait P k t s κ = s κ := by
  obtain ⟨hhash, hwc, hrel⟩ :
      κ ≠ .hash ∧ κ ≠ .zset .waitingChildren ∧ κ ∉ releaseWrites := by simpa using h
  have hdel : κ ≠ .zset .delayed := by
    rintro rfl
    exact hrel (by decide)
  simp only [handleChildFailureAndMoveParentToWait]
  split
  · split
    · rw [moveParentToWait_frame _ _ _ hrel, Store.hset_of_ne _ _ _ hhash,
        Keyspace.modify_of_ne _ hwc]
    · split
      · rw [moveParentToWait_frame _ _ _ hrel, Store.hset_of_ne _ _ _ hhash,
          Keyspace.modify_of_ne _ hdel, Store.hset_of_ne _ _ _ hhash]
      · split
        · rfl
        · exact Store.hset_of_ne _ _ _ hhash
  · rfl

/-- The families the account of a failed child writes. -/
def childFailureWrites : List Kind :=
  .dependencies :: .unsuccessful :: .failedChildren :: .hash :: .zset .waitingChildren ::
    releaseWrites

theorem moveChildFromDependenciesIfNeeded_frame (R : Option Parent) (k r : String) (t : ℤ)
    (s : Store) {κ : Kind} (h : κ ∉ childFailureWrites) :
    moveChildFromDependenciesIfNeeded R k r t s κ = s κ := by
  obtain ⟨hdep, huns, hfc, hhash, hwc, hrel⟩ :
      κ ≠ .dependencies ∧ κ ≠ .unsuccessful ∧ κ ≠ .failedChildren ∧ κ ≠ .hash ∧
        κ ≠ .zset .waitingChildren ∧ κ ∉ releaseWrites := by simpa [childFailureWrites] using h
  have hwrel : κ ∉ Kind.zset .waitingChildren :: releaseWrites := by simp [hwc, hrel]
  cases R with
  | none => rfl
  | some P =>
    simp only [moveChildFromDependenciesIfNeeded]
    split
    · split
      · rw [handleChildFailureAndMoveParentToWait_frame _ _ _ _ (by simp [*]),
          Keyspace.modify_of_ne _ huns, Keyspace.modify_of_ne _ hdep]
      · split
        · rw [moveParentToWaitIfNeeded_frame _ _ _ hwrel, Keyspace.modify_of_ne _ hfc,
            Keyspace.modify_of_ne _ hdep]
        · split
          · split
            · rw [Keyspace.modify_of_ne _ hfc,
                moveParentToWaitIfNoPendingDependencies_frame _ _ _ hwrel,
                Keyspace.modify_of_ne _ hdep]
            · rw [moveParentToWaitIfNoPendingDependencies_frame _ _ _ hwrel,
                Keyspace.modify_of_ne _ hdep]
          · rfl
    · rfl

/-! ### Removal of a child -/

/-- `_moveParentToWait`: push a parent released by the removal of its last child. -/
def moveParentToWaitPlain (parentPrefix parentId : String) (s : Store) : Store :=
  (addJobInTargetList parentPrefix .rpush (isQueuePausedOrMaxed parentPrefix s) parentId s).xadd
    parentPrefix (.waiting parentId (some "waiting-children"))

/-- The common part of `removeParentDependencyKey`, in the mode of its callers here (`hard` is
false): unlink a child from `parentKey`, releasing the parent with its last pending child. Returns
whether the child was a pending dependency. -/
def unlinkChild (jobKey parentKey : String) (s : Store) : Bool × Store :=
  if jobKey ∈ s .dependencies parentKey then
    let s : Store := s.modify .dependencies parentKey (·.srem jobKey)
    if s .dependencies parentKey = ∅ then
      let parentId := getJobIdFromKey parentKey
      let parentPrefix := getJobKeyPrefix parentKey parentId
      if parentId ∈ s (.zset .waitingChildren) parentPrefix then
        let s : Store := s.modify (.zset .waitingChildren) parentPrefix (·.zrem parentId)
        (true, moveParentToWaitPlain parentPrefix parentId s)
      else (true, s)
    else (true, s)
  else (false, s)

/-- `removeParentDependencyKey` with `hard` false: unlink a child from the given parent, or from
the one its hash names if that still exists. -/
def removeParentDependencyKey (jobKey : String) (parentKey : Option String) (s : Store) :
    Bool × Store :=
  match parentKey with
  | some parentKey => unlinkChild jobKey parentKey s
  | none =>
    match s.parentOf jobKey with
    | some P => if s.jobExists P.key then unlinkChild jobKey P.key s else (false, s)
    | none => (false, s)

/-- The families the removal of a child writes. -/
def unlinkWrites : List Kind :=
  [.dependencies, .zset .waitingChildren, .list .wait, .marker, .events]

theorem moveParentToWaitPlain_frame (p i : String) (s : Store) {κ : Kind}
    (h : κ ∉ [Kind.list .wait, .marker, .events]) : moveParentToWaitPlain p i s κ = s κ := by
  simp only [List.mem_cons, List.not_mem_nil, or_false, not_or] at h
  rw [moveParentToWaitPlain, Store.xadd_of_ne _ _ _ h.2.2, addJobInTargetList_frame]
  simp [h]

theorem unlinkChild_frame (k k' : String) (s : Store) {κ : Kind} (h : κ ∉ unlinkWrites) :
    (unlinkChild k k' s).2 κ = s κ := by
  simp only [unlinkWrites, List.mem_cons, List.not_mem_nil, or_false, not_or] at h
  obtain ⟨hdep, hwc, hwait, hmark, hev⟩ := h
  simp only [unlinkChild]
  split
  · split
    · split
      · rw [moveParentToWaitPlain_frame _ _ _ (by simp [*]), Keyspace.modify_of_ne _ hwc,
          Keyspace.modify_of_ne _ hdep]
      · exact Keyspace.modify_of_ne _ hdep ..
    · exact Keyspace.modify_of_ne _ hdep ..
  · rfl

theorem removeParentDependencyKey_frame (k : String) (o : Option String) (s : Store) {κ : Kind}
    (h : κ ∉ unlinkWrites) : (removeParentDependencyKey k o s).2 κ = s κ := by
  unfold removeParentDependencyKey
  split
  · exact unlinkChild_frame _ _ _ h
  · split
    · split
      · exact unlinkChild_frame _ _ _ h
      · rfl
    · rfl

/-! ### The accounts of children -/

/-- The accounts a parent keeps of its children. -/
inductive Account
  | dependencies
  | processed
  | failedChildren
  | unsuccessful
  deriving DecidableEq, Repr

/-- The family of an account. -/
abbrev Account.kind : Account → Kind
  | .dependencies => .dependencies
  | .processed => .processed
  | .failedChildren => .failedChildren
  | .unsuccessful => .unsuccessful

/-- The child keys in an account. -/
def Account.keys : (a : Account) → Val a.kind → List String
  | .dependencies, m => m.members
  | .processed, h => h.keys
  | .failedChildren, h => h.keys
  | .unsuccessful, z => z.members

/-- The children a parent has in an account. -/
def childrenIn (s : Store) (a : Account) (parentKey : String) : List String :=
  a.keys (s a.kind parentKey)

theorem childrenIn_modify (s : Store) (a : Account) (k k' : String) (f : Val a.kind → Val a.kind) :
    childrenIn (s.modify a.kind k f) a k' =
      if k' = k then a.keys (f (s a.kind k)) else childrenIn s a k' := by
  rw [childrenIn, Keyspace.modify_self, Function.update_apply]
  split <;> rfl

theorem childrenIn_congr {s s' : Store} {a : Account} (h : s' a.kind = s a.kind) (k : String) :
    childrenIn s' a k = childrenIn s a k := by
  rw [childrenIn, h, childrenIn]

theorem Account.kind_injective {a b : Account} (h : a.kind = b.kind) : a = b := by
  cases a <;> cases b <;> first
    | rfl
    | cases h

section Accounts

variable {s : Store} {a b : Account} {k k₀ c x : String} {f : Val b.kind → Val b.kind}

/-- A write to one account leaves the others alone. -/
theorem childrenIn_modify_of_ne (h : ¬ (a = b ∧ k = k₀)) :
    childrenIn (s.modify b.kind k₀ f) a k = childrenIn s a k := by
  by_cases ha : a = b
  · subst ha
    rw [childrenIn_modify, if_neg fun hk => h ⟨rfl, hk⟩]
  · exact childrenIn_congr (Keyspace.modify_of_ne _ (fun hk => ha (Account.kind_injective hk)) ..) k

/-- A write that enters a child into an account. -/
theorem mem_childrenIn_enter (hf : ∀ v, c ∈ b.keys (f v) ↔ c = x ∨ c ∈ b.keys v) :
    c ∈ childrenIn (s.modify b.kind k₀ f) a k ↔
      c ∈ childrenIn s a k ∨ a = b ∧ k = k₀ ∧ c = x := by
  by_cases h : a = b ∧ k = k₀
  · obtain ⟨rfl, rfl⟩ := h
    rw [childrenIn_modify, if_pos rfl, hf]
    simp [childrenIn, or_comm]
  · rw [childrenIn_modify_of_ne h]
    tauto

/-- A write that takes a child out of an account. -/
theorem mem_childrenIn_leave (hf : ∀ v, c ∈ b.keys (f v) ↔ c ∈ b.keys v ∧ c ≠ x) :
    c ∈ childrenIn (s.modify b.kind k₀ f) a k ↔
      c ∈ childrenIn s a k ∧ ¬ (a = b ∧ k = k₀ ∧ c = x) := by
  by_cases h : a = b ∧ k = k₀
  · obtain ⟨rfl, rfl⟩ := h
    rw [childrenIn_modify, if_pos rfl, hf]
    simp [childrenIn]
  · rw [childrenIn_modify_of_ne h]
    tauto

theorem mem_childrenIn_sadd :
    c ∈ childrenIn (s.modify .dependencies k₀ (·.sadd x)) a k ↔
      c ∈ childrenIn s a k ∨ a = .dependencies ∧ k = k₀ ∧ c = x :=
  mem_childrenIn_enter (b := .dependencies) fun _ => MemberSet.mem_sadd

theorem mem_childrenIn_srem :
    c ∈ childrenIn (s.modify .dependencies k₀ (·.srem x)) a k ↔
      c ∈ childrenIn s a k ∧ ¬ (a = .dependencies ∧ k = k₀ ∧ c = x) :=
  mem_childrenIn_leave (b := .dependencies) fun _ => MemberSet.mem_srem.trans and_comm

theorem mem_childrenIn_insert_processed {v : String} :
    c ∈ childrenIn (s.modify .processed k₀ (·.insert x v)) a k ↔
      c ∈ childrenIn s a k ∨ a = .processed ∧ k = k₀ ∧ c = x :=
  mem_childrenIn_enter (b := .processed) fun _ => AList.mem_insert _

end Accounts

end BullMQ
