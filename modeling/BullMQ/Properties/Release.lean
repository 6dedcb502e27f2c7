import BullMQ.Model.Finish
import BullMQ.Model.Cleanup

/-!
# Where a released parent lands

A parent that waits for its children is released with its last pending child. If that child
completes, the parent goes where its delay and its priority put it (`landing_completed`); if the
child is removed, cleaned or unlinked, another routine pushes the parent to the wait list whatever
its delay and priority are, and finds it only if its id holds no colon. `release_agrees_iff` says
exactly when the two agree.
-/

namespace BullMQ

open Redis

/-- The structure that a released job is in, with the class of its score there. -/
inductive Landing
  | wait
  | prioritized (priority : ℤ)
  | delayed (due : ℤ)
  deriving DecidableEq, Repr

/-- Where a job of a queue is, if it is to be processed. -/
def landing (base id : String) (s : Store) : Option Landing :=
  match (s (.zset .delayed) base).zscore id with
  | some score => some (.delayed (score / 0x1000))
  | none =>
    match (s (.zset .prioritized) base).zscore id with
    | some score => some (.prioritized (score / 0x100000000))
    | none => if id ∈ s (.list .wait) base then some .wait else none

/-- How the last dependency of a parent goes, other than by completion. -/
inductive Ending
  /-- The child is removed. -/
  | removed
  /-- The child is cleaned or drained from the queue with a key base. -/
  | cleaned (baseKey : String)
  /-- The child is unlinked by `removeChildDependency`. -/
  | unlinked
  deriving DecidableEq, Repr

/-- What an ending of a child does to its parent. -/
def Ending.apply (P : Parent) (jobKey : String) (s : Store) : Ending → Store
  | removed => (removeParentDependencyKey jobKey none s).2
  | cleaned baseKey => removeParentDependencyKeyHard baseKey jobKey s
  | unlinked => (Script.removeChildDependency jobKey P.key s).2

/-- A parent waits for its last pending child, and is nowhere else. -/
structure LastChild (P : Parent) (jobKey : String) (s : Store) : Prop where
  named : P.id ≠ ""
  parent : s.parentOf jobKey = some P
  parentExists : s.jobExists P.key = true
  waits : P.id ∈ s (.zset .waitingChildren) P.base
  last : (s .dependencies P.key).members = [jobKey]
  nowhere : landing P.base P.id s = none

/-! ### Landings -/

section Landing

variable {base id : String} {s s' : Store}

theorem landing_congr (hdelayed : s' (.zset .delayed) base = s (.zset .delayed) base)
    (hprioritized : s' (.zset .prioritized) base = s (.zset .prioritized) base)
    (hwait : id ∈ s' (.list .wait) base ↔ id ∈ s (.list .wait) base) :
    landing base id s' = landing base id s := by
  simp only [landing, hdelayed, hprioritized, hwait]

theorem landing_of_frame {W : List Kind}
    (hW : ∀ κ ∈ [Kind.zset .delayed, .zset .prioritized, .list .wait], κ ∉ W)
    (hframe : ∀ {κ : Kind}, κ ∉ W → s' κ = s κ) : landing base id s' = landing base id s := by
  refine landing_congr ?_ ?_ ?_
  · rw [hframe (hW _ (by simp))]
  · rw [hframe (hW _ (by simp))]
  · rw [hframe (hW _ (by simp))]

theorem landing_eq_none :
    landing base id s = none ↔ (s (.zset .delayed) base).zscore id = none ∧
      (s (.zset .prioritized) base).zscore id = none ∧ id ∉ s (.list .wait) base := by
  unfold landing
  cases (s (.zset .delayed) base).zscore id with
  | some score => simp
  | none =>
    cases (s (.zset .prioritized) base).zscore id with
    | some score => simp
    | none => simp

/-- A push to a wait list only lands the job that is pushed. -/
theorem landing_addJobInTargetList_of_ne {base' id' : String} (h : base' = base → id' ≠ id)
    (b : Bool) : landing base id (addJobInTargetList base' .rpush b id' s) = landing base id s := by
  refine landing_congr ?_ ?_ ?_
  · rw [addJobInTargetList_frame _ _ _ _ _ (by decide)]
  · rw [addJobInTargetList_frame _ _ _ _ _ (by decide)]
  · rw [addJobInTargetList, addBaseMarkerIfNeeded_frame _ _ _ (by decide), Keyspace.modify_self]
    by_cases hbase : base = base'
    · subst hbase
      simp [PushCmd.push, (h rfl).symm]
    · rw [Function.update_of_ne hbase]

/-- A job that is nowhere and is pushed to the wait list lands there. -/
theorem landing_addJobInTargetList (h : landing base id s = none) (b : Bool) :
    landing base id (addJobInTargetList base .rpush b id s) = some .wait := by
  obtain ⟨hdelayed, hprioritized, -⟩ := landing_eq_none.mp h
  have hmem : id ∈ addJobInTargetList base .rpush b id s (.list .wait) base := by
    rw [addJobInTargetList, addBaseMarkerIfNeeded_frame _ _ _ (by decide), Keyspace.modify_self,
      Function.update_self]
    simp [PushCmd.push]
  unfold landing
  rw [addJobInTargetList_frame _ _ _ _ _ (by decide), hdelayed,
    addJobInTargetList_frame _ _ _ _ _ (by decide), hprioritized]
  exact if_pos hmem

theorem landing_xadd (q : String) (e : Event) : landing base id (s.xadd q e) = landing base id s :=
  landing_of_frame (W := [.events]) (by decide) fun h => Store.xadd_of_ne _ _ _ (by simpa using h)

theorem landing_removeJobKeys (k : String) :
    landing base id (removeJobKeys k s) = landing base id s :=
  landing_of_frame (by decide) fun h => removeJobKeys_frame k s h

theorem landing_dependencies (k : String) (f : Val .dependencies → Val .dependencies) :
    landing base id (s.modify .dependencies k f) = landing base id s :=
  landing_of_frame (W := [.dependencies]) (by decide) fun hκ =>
    Keyspace.modify_of_ne _ (by simpa using hκ) ..

theorem landing_zrem_waitingChildren (q j : String) :
    landing base id (s.modify (.zset .waitingChildren) q (·.zrem j)) = landing base id s :=
  landing_of_frame (W := [.zset .waitingChildren]) (by decide) fun hκ =>
    Keyspace.modify_of_ne _ (by simpa using hκ) ..

theorem landing_deleteDeduplicationKey (q : String) (d : Option String) :
    landing base id (deleteDeduplicationKey q d s) = landing base id s := by
  unfold deleteDeduplicationKey
  split
  · exact landing_of_frame (W := [.de]) (by decide) fun hκ =>
      Keyspace.set_of_ne _ (by simpa using hκ) ..
  · rfl

theorem landing_addJobWithPriority (h : landing base id s = none) (n : ℤ) (b : Bool) :
    landing base id (addJobWithPriority base n id b s) = some (.prioritized n) := by
  obtain ⟨hdelayed, -, -⟩ := landing_eq_none.mp h
  have hscore : (addJobWithPriority base n id b s (.zset .prioritized) base).zscore id =
      some (n * 0x100000000 + ((s .pc base : ℤ) + 1) % 0x100000000) := by
    simp only [addJobWithPriority, getPriorityScore]
    rw [addBaseMarkerIfNeeded_frame _ _ _ (by decide), Keyspace.modify_self, Function.update_self,
      SortedSet.zscore_zadd, if_pos rfl, Keyspace.modify_self, Function.update_self]
    rfl
  unfold landing
  rw [addJobWithPriority_frame _ _ _ _ _ (by decide), hdelayed]
  simp only [hscore, Option.some.injEq, Landing.prioritized.injEq]
  omega

end Landing

/-! ### Release by completion -/

/-- Where the delay and the priority of a job put it at a time. -/
def Store.dueLanding (s : Store) (jobKey : String) (timestamp : ℤ) : Landing :=
  if 0 < s.delayOf jobKey then .delayed (timestamp + s.delayOf jobKey)
  else if s.priorityOf jobKey = 0 then .wait
  else .prioritized (s.priorityOf jobKey)

section Release

variable {P : Parent} {jobKey : String} {s : Store}

theorem landing_moveParentToWait (h : landing P.base P.id s = none) (t : ℤ) :
    landing P.base P.id (moveParentToWait P t s) = some (s.dueLanding P.key t) := by
  unfold moveParentToWait Store.dueLanding
  dsimp only
  split
  · have hmark : ∀ s : Store, landing P.base P.id (addDelayMarkerIfNeeded P.base s) =
        landing P.base P.id s := fun s =>
      landing_of_frame (by decide) fun hκ => addDelayMarkerIfNeeded_frame _ _ hκ
    rw [hmark, landing_xadd]
    unfold landing
    rw [Keyspace.modify_self, Function.update_self, SortedSet.zscore_zadd, if_pos rfl]
    simp only [Option.some.injEq, Landing.delayed.injEq]
    omega
  · rw [landing_xadd]
    split
    · exact landing_addJobInTargetList h _
    · exact landing_addJobWithPriority h _ _

/-- The dependencies are empty without the last child. -/
theorem LastChild.dependencies_srem (h : LastChild P jobKey s) :
    (s .dependencies P.key).srem jobKey = ∅ := by
  refine MemberSet.ext ?_
  show (s .dependencies P.key).members.erase jobKey = []
  rw [h.last]
  simp

theorem LastChild.landing_srem (h : LastChild P jobKey s) :
    landing P.base P.id (s.modify .dependencies P.key (·.srem jobKey)) = none :=
  (landing_dependencies _ _).trans h.nowhere

theorem LastChild.mem_dependencies (h : LastChild P jobKey s) : jobKey ∈ s .dependencies P.key := by
  rw [MemberSet.mem_def, h.last]
  exact List.mem_singleton.mpr rfl

/-- A completed child releases its parent to where it is due. -/
theorem landing_completed (h : LastChild P jobKey s) {a : FinishArgs} (ha : a.target = .completed) :
    landing P.base P.id (notifyParent (some P) jobKey a s) =
      some (s.dueLanding P.key a.timestamp) := by
  simp only [notifyParent, if_neg h.named, ha, if_pos h.mem_dependencies, updateParentDepsIfNeeded]
  set t : Store := (s.modify .dependencies P.key (·.srem jobKey)).modify .processed P.key
    (·.insert jobKey a.value) with ht
  have hframe : ∀ {κ : Kind}, κ ∉ [Kind.dependencies, .processed] → t κ = s κ := by
    intro κ hκ
    simp only [List.mem_cons, List.not_mem_nil, or_false, not_or] at hκ
    rw [ht, Keyspace.modify_of_ne _ hκ.2, Keyspace.modify_of_ne _ hκ.1]
  have hdeps : t .dependencies P.key = ∅ := by
    rw [ht, Keyspace.modify_of_ne _ (by decide), Keyspace.modify_self, Function.update_self,
      h.dependencies_srem]
  have hexists : t.jobExists P.key = true := by
    rw [Store.jobExists, hframe (by decide)]
    exact h.parentExists
  have hwaits : P.id ∈ t (.zset .waitingChildren) P.base := by
    rw [hframe (by decide)]
    exact h.waits
  set u : Store := t.modify (.zset .waitingChildren) P.base (·.zrem P.id) with hu
  have hframe' : ∀ {κ : Kind}, κ ∉ [Kind.dependencies, .processed, .zset .waitingChildren] →
      u κ = s κ := by
    intro κ hκ
    have hne : κ ≠ .zset .waitingChildren := by
      rintro rfl
      simp at hκ
    rw [hu, Keyspace.modify_of_ne _ hne, hframe (Kind.notMem_mono hκ (by decide))]
  -- The parent has left waiting-children and is nowhere else, so it lands where it is moved to.
  have hnowhere : landing P.base P.id u = none :=
    (landing_of_frame (by decide) hframe').trans h.nowhere
  rw [moveParentToWaitIfNoPendingDependencies, if_pos hdeps, moveParentToWaitIfNeeded,
    if_pos ⟨hexists, hwaits⟩, landing_moveParentToWait hnowhere]
  have hhash : u .hash = s .hash := hframe' (by decide)
  unfold Store.dueLanding Store.delayOf Store.priorityOf
  rw [hhash]

/-! ### Release by removal -/

/-- A parent is found again by its key exactly if its id holds no colon. -/
theorem found_iff_colonFree (P : Parent) :
    getJobKeyPrefix P.key (getJobIdFromKey P.key) = P.base ∧ getJobIdFromKey P.key = P.id ↔
      ColonFree P.id := by
  constructor
  · rintro ⟨-, hid⟩
    rw [← hid]
    exact colonFree_getJobIdFromKey _
  · intro hfree
    have hid : getJobIdFromKey P.key = P.id := getJobIdFromKey_append ⟨P.queueKey, rfl⟩ hfree
    rw [hid]
    exact ⟨getJobKeyPrefix_append _ _, rfl⟩

/-- A parent without dependencies is not released by the deletion of another job. -/
theorem landing_unlinkHard {base id : String} (fuel : ℕ) (baseKey k : String) {s : Store}
    (h : s .dependencies (base ++ id) = ∅) :
    landing base id (unlinkHard fuel baseKey k s) = landing base id s := by
  induction fuel generalizing k s with
  | zero => rfl
  | succ fuel ih =>
    unfold unlinkHard
    split
    · rfl
    next R hparent =>
    split
    case isFalse => rfl
    next hdep =>
    have hkey : R.key ≠ base ++ id := by
      intro heq
      rw [heq, h] at hdep
      exact MemberSet.notMem_empty _ hdep.2
    set t : Store := s.modify .dependencies R.key (·.srem k) with ht
    have hsame : landing base id t = landing base id s := landing_dependencies _ _
    have htdep : t .dependencies (base ++ id) = ∅ := by
      rw [ht, Keyspace.modify_self, Function.update_of_ne (Ne.symm hkey), h]
    dsimp only
    split
    case isFalse => exact hsame
    split
    case isFalse => exact hsame
    set u : Store :=
      t.modify (.zset .waitingChildren) (getJobKeyPrefix R.key (getJobIdFromKey R.key))
      (·.zrem (getJobIdFromKey R.key)) with hu
    have hsame' : landing base id u = landing base id s :=
      (landing_zrem_waitingChildren _ _).trans hsame
    have hudep : u .dependencies (base ++ id) = ∅ := by
      rw [hu, Keyspace.modify_of_ne _ (by decide), htdep]
    split
    · rw [landing_deleteDeduplicationKey, landing_removeJobKeys, ih _ hudep, hsame']
    · refine (landing_addJobInTargetList_of_ne (fun hbase hid => hkey ?_) _).trans hsame'
      rw [← hbase, ← hid, getJobKeyPrefix_append_getJobIdFromKey]

/-- Where an unlinked child leaves its parent: in the wait list if the parent is found by its key,
and nowhere else. -/
theorem landing_unlinkChild (h : LastChild P jobKey s) :
    landing P.base P.id (unlinkChild jobKey P.key s).2 =
      if ColonFree P.id then some .wait else none := by
  set t : Store := s.modify .dependencies P.key (·.srem jobKey) with ht
  have hsame : landing P.base P.id t = none := h.landing_srem
  have hdeps : t .dependencies P.key = ∅ := by
    rw [ht, Keyspace.modify_self, Function.update_self, h.dependencies_srem]
  rw [unlinkChild, if_pos h.mem_dependencies]
  dsimp only
  rw [← ht, if_pos hdeps]
  have hzrem : ∀ q j : String, landing P.base P.id
      (t.modify (.zset .waitingChildren) q (·.zrem j) : Store) = none := fun q j =>
    (landing_zrem_waitingChildren q j).trans hsame
  by_cases hfree : ColonFree P.id
  · obtain ⟨hbase, hid⟩ := (found_iff_colonFree P).mpr hfree
    have hwaits : P.id ∈ t (.zset .waitingChildren) P.base := by
      rw [ht, Keyspace.modify_of_ne _ (by decide)]
      exact h.waits
    rw [hid] at hbase
    simp only [hid, hbase, if_pos hwaits, if_pos hfree, moveParentToWaitPlain, landing_xadd]
    exact landing_addJobInTargetList (hzrem _ _) _
  · rw [if_neg hfree]
    split
    · simp only [moveParentToWaitPlain, landing_xadd]
      refine (landing_addJobInTargetList_of_ne (fun hbase hid => hfree ?_) _).trans (hzrem _ _)
      exact (found_iff_colonFree P).mp ⟨hbase, hid⟩
    · exact hsame

/-- The same for a child that is cleaned, except that a parent in the cleaned queue is deleted. -/
theorem landing_cleaned (h : LastChild P jobKey s) (baseKey : String) :
    landing P.base P.id (removeParentDependencyKeyHard baseKey jobKey s) =
      if ColonFree P.id ∧ baseKey ≠ P.base then some .wait else none := by
  set t : Store := s.modify .dependencies P.key (·.srem jobKey) with ht
  have hsame : landing P.base P.id t = none := h.landing_srem
  have hdeps : t .dependencies P.key = ∅ := by
    rw [ht, Keyspace.modify_self, Function.update_self, h.dependencies_srem]
  have hzrem : ∀ q j : String, landing P.base P.id
      (t.modify (.zset .waitingChildren) q (·.zrem j) : Store) = none := fun q j =>
    (landing_zrem_waitingChildren q j).trans hsame
  rw [removeParentDependencyKeyHard, unlinkHard, h.parent]
  simp only [h.parentExists, h.mem_dependencies, and_self, if_true]
  rw [← ht, if_pos hdeps]
  split
  case isFalse hnot =>
    refine hsame.trans (if_neg fun hfree => hnot ?_).symm
    obtain ⟨hbase, hid⟩ := (found_iff_colonFree P).mpr hfree.1
    rw [hbase, hid, ht, Keyspace.modify_of_ne _ (by decide)]
    exact h.waits
  split
  · next hbase =>
    -- The parent, or what the key is taken for, is deleted and not pushed.
    rw [landing_deleteDeduplicationKey, landing_removeJobKeys, landing_unlinkHard, hzrem, if_neg]
    · rintro ⟨hfree, hne⟩
      exact hne (hbase.symm.trans ((found_iff_colonFree P).mpr hfree).1)
    · rw [Keyspace.modify_of_ne _ (by decide)]
      exact hdeps
  · next hbase =>
    by_cases hfree : ColonFree P.id
    · obtain ⟨hfound, hid⟩ := (found_iff_colonFree P).mpr hfree
      rw [hid] at hfound
      rw [hid, hfound] at hbase
      rw [if_pos ⟨hfree, Ne.symm hbase⟩]
      simp only [hid, hfound, pushReleasedParent]
      exact landing_addJobInTargetList (hzrem _ _) _
    · rw [if_neg fun hand => hfree hand.1]
      refine (landing_addJobInTargetList_of_ne (fun hfound hid => hfree ?_) _).trans (hzrem _ _)
      exact (found_iff_colonFree P).mp ⟨hfound, hid⟩

/-- Where an ending other than completion leaves the parent. -/
theorem landing_ending (h : LastChild P jobKey s) (e : Ending) :
    landing P.base P.id (e.apply P jobKey s) =
      if ColonFree P.id ∧ e ≠ .cleaned P.base then some .wait else none := by
  cases e with
  | removed =>
    simp only [Ending.apply, removeParentDependencyKey, h.parent, h.parentExists, if_true]
    rw [landing_unlinkChild h]
    simp
  | cleaned baseKey =>
    rw [Ending.apply, landing_cleaned h]
    simp
  | unlinked =>
    have hchild : s.jobExists jobKey = true := by
      have hparent := h.parent
      rw [Store.parentOf] at hparent
      obtain ⟨job, hjob, -⟩ := Option.bind_eq_some_iff.mp hparent
      rw [Store.jobExists, hjob]
      rfl
    have hunlink : landing P.base P.id (removeParentDependencyKey jobKey (some P.key) s).2 =
        if ColonFree P.id then some .wait else none := landing_unlinkChild h
    simp only [Ending.apply, Script.removeChildDependency, hchild, h.parentExists,
      not_true_eq_false, if_false]
    by_cases hdone : (removeParentDependencyKey jobKey (some P.key) s).1 = true
    · rw [if_pos hdone, landing_of_frame (W := [.hash]) (by decide) fun hκ =>
        Store.hdel_of_ne _ _ _ (by simpa using hκ), hunlink]
      simp
    · rw [if_neg hdone, hunlink]
      simp

/-- A parent lands in the same place whether its last pending child completes or goes in another
way, exactly if it has neither priority nor delay, its id holds no colon, and the child is not
cleaned from the parent's own queue. -/
theorem release_agrees_iff (h : LastChild P jobKey s) (e : Ending) {a : FinishArgs}
    (ha : a.target = .completed) :
    landing P.base P.id (e.apply P jobKey s) =
        landing P.base P.id (notifyParent (some P) jobKey a s) ↔
      (s.priorityOf P.key = 0 ∧ s.delayOf P.key ≤ 0) ∧ ColonFree P.id ∧ e ≠ .cleaned P.base := by
  rw [landing_ending h, landing_completed h ha, Store.dueLanding]
  split
  · next hfound =>
    rw [and_iff_left hfound]
    split
    · next hdelay =>
      refine iff_of_false (by simp) ?_
      omega
    · next hdelay =>
      split
      · next hpriority => exact iff_of_true rfl ⟨hpriority, not_lt.mp hdelay⟩
      · next hpriority => exact iff_of_false (by simp) fun hand => hpriority hand.1
  · next hlost => exact iff_of_false (by simp) fun hand => hlost hand.2

end Release

/-! ### A parent with a priority -/

/-- The reference of a child to its parent. -/
def lastChildParent : Parent := ⟨"1", "bull:p", false, false, false, false⟩

/-- A parent and its last child, in two queues. -/
def lastChildStore (priority delay : ℤ) : Store :=
  let s : Store := Store.empty.set .hash "bull:p:1"
    (some { priority := some priority, delay := some delay })
  let s : Store := s.set .hash "bull:c:2" (some { parent := some lastChildParent })
  let s : Store := s.modify .dependencies "bull:p:1" (·.sadd "bull:c:2")
  s.modify (.zset .waitingChildren) "bull:p:" (·.zadd 0 "1")

/-- The arguments by which the child completes. -/
def lastChildArgs : FinishArgs where
  jobId := "2"
  timestamp := 1000
  value := "null"
  target := .completed
  fetchNext := false
  opts := { token := "0", lockDuration := 30000 }

theorem lastChild_lastChildStore (priority delay : ℤ) :
    LastChild lastChildParent "bull:c:2" (lastChildStore priority delay) where
  named := by decide
  parent := by rfl
  parentExists := by rfl
  waits := List.mem_singleton.mpr rfl
  last := by rfl
  nowhere := by rfl

theorem plain_parent_agrees :
    LastChild lastChildParent "bull:c:2" (lastChildStore 0 0) ∧
      landing "bull:p:" "1"
      (Ending.unlinked.apply lastChildParent "bull:c:2" (lastChildStore 0 0)) =
        landing "bull:p:" "1"
          (notifyParent (some lastChildParent) "bull:c:2" lastChildArgs (lastChildStore 0 0)) :=
  ⟨lastChild_lastChildStore 0 0,
    (release_agrees_iff (lastChild_lastChildStore 0 0) .unlinked rfl).mpr (by decide)⟩

/-- A parent of priority 5, or with a delay of 50, goes to the wait list when its child is unlinked.
-/
theorem prioritized_parent_differs :
    landing "bull:p:" "1" (Ending.unlinked.apply lastChildParent "bull:c:2" (lastChildStore 5 0)) =
        some .wait ∧
      landing "bull:p:" "1"
          (notifyParent (some lastChildParent) "bull:c:2" lastChildArgs (lastChildStore 5 0)) =
        some (.prioritized 5) ∧
      landing "bull:p:" "1"
      (Ending.unlinked.apply lastChildParent "bull:c:2" (lastChildStore 0 50)) =
        some .wait ∧
      landing "bull:p:" "1"
          (notifyParent (some lastChildParent) "bull:c:2" lastChildArgs (lastChildStore 0 50)) =
        some (.delayed 1050) := by
  decide

end BullMQ
