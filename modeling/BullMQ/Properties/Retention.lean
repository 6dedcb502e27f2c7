import BullMQ.Dedup.Finish

/-!
# Retention

What `moveToFinished` leaves of the set it puts a job into: first the expired jobs go, as many as
the limit allows, then all but the most recently finished ones. Each pass reads its victims with one
command and makes the set forget them with another; `removeJobsByMaxAge_eq` and
`removeJobsByMaxCount_eq` say that these agree. The rest is that nothing brings a victim back: the
fetch at the end of the script writes the hash of a job it finds in line, and the jobs of a finished
set are not in line (`Idle`), unless a kept successor has been stored over one of them.
-/

namespace BullMQ

open Redis

/-! ### Jobs that are not in line -/

/-- The families from which a script moves jobs on. -/
def lineUpKinds : List Kind :=
  [.list .wait, .zset .prioritized, .zset .delayed, .zset .waitingChildren]

/-- An id is neither in line nor waiting for children. -/
structure Idle (p r : String) (s : Store) : Prop where
  wait : r ∉ s (.list .wait) p
  prioritized : r ∉ s (.zset .prioritized) p
  delayed : r ∉ s (.zset .delayed) p
  waitingChildren : r ∉ s (.zset .waitingChildren) p

namespace Idle

variable {p q i r k : String} {s s' : Store}

/-- A change of families other than those in which jobs line up. -/
theorem of_frame {W : List Kind} (h : Idle p r s) (hW : ∀ κ ∈ lineUpKinds, κ ∉ W)
    (hs : ∀ {κ}, κ ∉ W → s' κ = s κ) : Idle p r s' where
  wait := by rw [hs (hW _ (by decide))]; exact h.wait
  prioritized := by rw [hs (hW _ (by decide))]; exact h.prioritized
  delayed := by rw [hs (hW _ (by decide))]; exact h.delayed
  waitingChildren := by rw [hs (hW _ (by decide))]; exact h.waitingChildren

theorem modify {κ : Kind} (h : Idle p r s) (hκ : κ ∉ lineUpKinds) (name : String)
    (f : Val κ → Val κ) : Idle p r (s.modify κ name f) := by
  refine h.of_frame (W := [κ]) ?_ fun hκ' => Keyspace.modify_of_ne _ (by simpa using hκ') _ _
  intro κ' hκ' hmem
  obtain rfl : κ' = κ := by simpa using hmem
  exact hκ hκ'

theorem hset (h : Idle p r s) (name : String) (f : Job → Job) : Idle p r (s.hset name f) :=
  h.modify (by decide) name _

theorem xadd (h : Idle p r s) (q : String) (e : Event) : Idle p r (s.xadd q e) :=
  h.modify (by decide) q _

/-- The wait list, after a change that does not bring the id in. -/
theorem modify_wait (h : Idle p r s) {f : List String → List String}
    (hf : q = p → r ∉ f (s (.list .wait) p)) : Idle p r (s.modify (.list .wait) q f) where
  wait := by
    rw [Keyspace.modify_self, Function.update_apply]
    split
    · next hq =>
      subst hq
      exact hf rfl
    · exact h.wait
  prioritized := by rw [Keyspace.modify_of_ne _ (by decide)]; exact h.prioritized
  delayed := by rw [Keyspace.modify_of_ne _ (by decide)]; exact h.delayed
  waitingChildren := by rw [Keyspace.modify_of_ne _ (by decide)]; exact h.waitingChildren

/-- A set, after a change that does not bring the id in. -/
theorem modify_zset (h : Idle p r s) {z : ZSetKey} {f : ZSet → ZSet}
    (hf : q = p → r ∈ f (s (.zset z) p) → r ∈ s (.zset z) p) :
    Idle p r (s.modify (.zset z) q f) := by
  have hz : ∀ z', r ∉ s (.zset z') p → r ∉ (s.modify (.zset z) q f) (.zset z') p := by
    intro z' hz'
    by_cases heq : z' = z
    · subst heq
      rw [Keyspace.modify_self, Function.update_apply]
      split
      · next hq =>
        subst hq
        exact fun hmem => hz' (hf rfl hmem)
      · exact hz'
    · rwa [Keyspace.modify_of_ne _ (by simpa using heq)]
  refine ⟨?_, hz _ h.prioritized, hz _ h.delayed, hz _ h.waitingChildren⟩
  rw [Keyspace.modify_of_ne _ (by simp)]
  exact h.wait

/-- Another id joins the wait list. -/
theorem push (h : Idle p r s) (c : PushCmd) (hi : q = p → i ≠ r) :
    Idle p r (s.modify (.list .wait) q (c.push i)) :=
  h.modify_wait fun hq hmem => by
    obtain heq | hmem := PushCmd.mem_push.mp hmem
    · exact hi hq heq.symm
    · exact h.wait hmem

theorem zadd (h : Idle p r s) (z : ZSetKey) (n : ℤ) (hi : q = p → i ≠ r) :
    Idle p r (s.modify (.zset z) q (·.zadd n i)) :=
  h.modify_zset fun hq hmem => by
    obtain heq | hmem := SortedSet.mem_zadd.mp hmem
    · exact absurd heq.symm (hi hq)
    · exact hmem

theorem zrem (h : Idle p r s) (z : ZSetKey) (q i : String) :
    Idle p r (s.modify (.zset z) q (·.zrem i)) :=
  h.modify_zset fun _ hmem => (SortedSet.mem_zrem.mp hmem).1

/-! ### Enqueueing -/

theorem addJobInTargetList (h : Idle p r s) (c : PushCmd) (b : Bool) (hi : q = p → i ≠ r) :
    Idle p r (BullMQ.addJobInTargetList q c b i s) :=
  (h.push c hi).of_frame (W := [.marker]) (by decide) fun hκ => addBaseMarkerIfNeeded_frame _ _ _ hκ

theorem addJobWithPriority (h : Idle p r s) (n : ℤ) (b : Bool) (hi : q = p → i ≠ r) :
    Idle p r (BullMQ.addJobWithPriority q n i b s) := by
  have hcount : Idle p r (s.modify .pc q (· + 1)) := h.modify (by decide) q _
  exact (hcount.zadd .prioritized _ hi).of_frame (W := [.marker]) (by decide) fun hκ =>
    addBaseMarkerIfNeeded_frame _ _ _ hκ

theorem addDelayedJob (h : Idle p r s) (t d : ℤ) (hi : q = p → i ≠ r) :
    Idle p r (BullMQ.addDelayedJob q i t d s) :=
  ((h.zadd .delayed _ hi).xadd q _).of_frame (W := [.marker]) (by decide) fun hκ =>
    addDelayMarkerIfNeeded_frame _ _ hκ

/-- A job with another id is stored and enqueued. -/
theorem storeAndEnqueueJob (h : Idle p r s) (hi : q = p → i ≠ r) (n d : String) (o : JobOpts)
    (t : ℤ) (P : Option Parent) (rjk : Option String) :
    Idle p r (BullMQ.storeAndEnqueueJob q i n d o t P rjk s) := by
  have hstored : Idle p r (storeJob q i n d o t P rjk s) := (h.hset _ _).xadd q _
  simp only [BullMQ.storeAndEnqueueJob]
  split
  · exact hstored.addDelayedJob _ _ hi
  · split
    · exact (hstored.addJobWithPriority _ _ hi).xadd q _
    · exact (hstored.addJobInTargetList _ _ hi).xadd q _

/-- The successor of a winner takes an id of its own into line. -/
theorem requeueDeduplicatedJob (h : Idle p r s) (d : Option String) (t : ℤ)
    (hnext : ∀ deid next, d = some deid → s .dn (deduplicationNextKey p deid) = some next →
      next.jid ≠ r) : Idle p r (BullMQ.requeueDeduplicatedJob p d t s) := by
  unfold BullMQ.requeueDeduplicatedJob
  split
  · exact h
  · next deid =>
    split
    · exact h
    · next next hsome =>
      have hdrawn : Idle p r (s.modify .id p (· + 1)) := h.modify (by decide) p _
      have hkeyed : ∀ (s' : Store) (ttl : Option ℤ), Idle p r s' → Idle p r
          (setDeduplicationKey (deduplicationKey p deid) next.jid ttl s') := fun s' ttl hs' =>
        hs'.modify (κ := .de) (by decide) _ fun _ => _
      have hbound : ∀ s', Idle p r s' → Idle p r (getOrSetMaxEvents p s') := fun s' hs' =>
        hs'.of_frame (W := [.metaMaxLenEvents]) (by decide) fun hκ => getOrSetMaxEvents_frame _ _ hκ
      have hparent : ∀ (s' : Store) (P : Option Parent) (c : String), Idle p r s' →
          Idle p r (addParentDependency P c s') := fun s' P c hs' =>
        hs'.of_frame (W := [.dependencies]) (by decide) fun hκ =>
          addParentDependency_frame _ _ _ (by simpa using hκ)
      exact (hparent _ _ _ ((hbound _ (hkeyed _ _ hdrawn)).storeAndEnqueueJob
        (fun _ => hnext deid next rfl hsome) _ _ _ _ _ _)).modify (κ := .dn) (by decide) _
          fun _ => _

/-! ### Parents -/

/-- A parent with another id goes back in line. -/
theorem moveParentToWait (h : Idle p r s) {P : Parent} (hid : P.base = p → P.id ≠ r) (t : ℤ) :
    Idle p r (BullMQ.moveParentToWait P t s) := by
  simp only [BullMQ.moveParentToWait]
  split
  · exact ((h.zadd .delayed _ hid).xadd _ _).of_frame (W := [.marker]) (by decide) fun hκ =>
      addDelayMarkerIfNeeded_frame _ _ hκ
  · split
    · exact (h.addJobInTargetList _ _ hid).xadd _ _
    · exact (h.addJobWithPriority _ _ hid).xadd _ _

/-- A job that waits for its children is another one. -/
theorem id_ne_of_mem (h : Idle p r s) (hi : i ∈ s (.zset .waitingChildren) q) (hq : q = p) :
    i ≠ r := by
  rintro rfl
  exact h.waitingChildren (hq ▸ hi)

/-- Only a parent that waits for its children goes back in line. -/
theorem moveParentToWaitIfNeeded (h : Idle p r s) (P : Parent) (t : ℤ) :
    Idle p r (BullMQ.moveParentToWaitIfNeeded P t s) := by
  unfold BullMQ.moveParentToWaitIfNeeded
  split
  · next hmem => exact (h.zrem .waitingChildren _ _).moveParentToWait (h.id_ne_of_mem hmem.2) t
  · exact h

theorem moveParentToWaitIfNoPendingDependencies (h : Idle p r s) (P : Parent) (t : ℤ) :
    Idle p r (BullMQ.moveParentToWaitIfNoPendingDependencies P t s) := by
  unfold BullMQ.moveParentToWaitIfNoPendingDependencies
  split
  · exact h.moveParentToWaitIfNeeded P t
  · exact h

/-- The failure of a child may bring its parent back in line, which is not idle before. -/
theorem handleChildFailureAndMoveParentToWait (h : Idle p r s) (P : Parent) (c : String) (t : ℤ) :
    Idle p r (BullMQ.handleChildFailureAndMoveParentToWait P c t s) := by
  simp only [BullMQ.handleChildFailureAndMoveParentToWait]
  split
  · split
    · next hmem =>
      exact ((h.zrem .waitingChildren _ _).hset _ _).moveParentToWait (h.id_ne_of_mem hmem) t
    · split
      · next hmem =>
        have hid : P.base = p → P.id ≠ r := by
          rintro hbase rfl
          exact h.delayed (hbase ▸ hmem)
        exact (((h.hset _ _).zrem .delayed _ _).hset _ _).moveParentToWait hid t
      · split
        · exact h
        · exact h.hset _ _
  · exact h

/-- The last child to finish may bring its parent back in line. -/
theorem moveChildFromDependenciesIfNeeded (h : Idle p r s) (R : Option Parent) (c v : String)
    (t : ℤ) : Idle p r (BullMQ.moveChildFromDependenciesIfNeeded R c v t s) := by
  cases R with
  | none => exact h
  | some P =>
    have hleft : Idle p r (s.modify .dependencies P.key (·.srem c)) := h.modify (by decide) _ _
    simp only [BullMQ.moveChildFromDependenciesIfNeeded]
    split
    · split
      · have hfailed : Idle p r ((s.modify .dependencies P.key (·.srem c)).modify .unsuccessful
            P.key (·.zadd t c)) := hleft.modify (by decide) _ _
        exact hfailed.handleChildFailureAndMoveParentToWait P c t
      · split
        · have hkept : Idle p r ((s.modify .dependencies P.key (·.srem c)).modify .failedChildren
              P.key (·.insert c v)) := hleft.modify (by decide) _ _
          exact hkept.moveParentToWaitIfNeeded P t
        · split
          · have hfree := hleft.moveParentToWaitIfNoPendingDependencies P t
            split
            · exact hfree.modify (by decide) _ _
            · exact hfree
          · exact h
    · exact h

/-- What a parent is told, whether the child completed or failed. -/
theorem notifyParent (h : Idle p r s) (R : Option Parent) (c : String) (a : FinishArgs) :
    Idle p r (BullMQ.notifyParent R c a s) := by
  unfold BullMQ.notifyParent
  split
  · exact h
  · next P =>
    split
    · exact h
    · split
      · split
        · have hdone : Idle p r ((s.modify .dependencies P.key (·.srem c)).modify .processed P.key
              (·.insert c a.value)) :=
            (h.modify (κ := .dependencies) (by decide) P.key _).modify (by decide) _ _
          exact hdone.moveParentToWaitIfNoPendingDependencies P a.timestamp
        · exact h
      · exact h.moveChildFromDependenciesIfNeeded _ _ _ _

/-- A removed child may bring its parent back in line. -/
theorem removeParentDependencyKey (h : Idle p r s) (c : String) (o : Option String) :
    Idle p r (BullMQ.removeParentDependencyKey c o s).2 := by
  have hunlink : ∀ P, Idle p r (unlinkChild c P s).2 := by
    intro P
    have hleft : Idle p r (s.modify .dependencies P (·.srem c)) := h.modify (by decide) _ _
    simp only [unlinkChild]
    split
    · split
      · split
        · next hmem =>
          exact ((hleft.zrem .waitingChildren _ _).addJobInTargetList _ _
            (hleft.id_ne_of_mem hmem)).xadd _ _
        · exact hleft
      · exact hleft
    · exact h
  unfold BullMQ.removeParentDependencyKey
  split
  · exact hunlink _
  · split
    · split
      · exact hunlink _
      · exact h
    · exact h

/-- The removal of other jobs enqueues nothing but their parents. -/
theorem removeJobs (h : Idle p r s) (q : String) (l : List String) :
    Idle p r (l.foldl (removeJob q false) s) := by
  induction l generalizing s with
  | nil => exact h
  | cons i l ih =>
    refine ih ((h.removeParentDependencyKey (q ++ i) none).of_frame (W := jobKeyWrites) (by decide)
      fun hκ => ?_)
    exact removeJobKeys_frame _ _ hκ

/-! ### Fetches -/

/-- Another job is promoted. -/
theorem promoteDelayedJob (h : Idle p r s) (hi : i ≠ r) :
    Idle p r (BullMQ.promoteDelayedJob p s i) := by
  simp only [BullMQ.promoteDelayedJob]
  split
  · exact ((h.push .lpush fun _ => hi).xadd p _).hset _ _
  · have hcount : Idle p r (s.modify .pc p (· + 1)) := h.modify (by decide) p _
    exact ((hcount.zadd .prioritized _ fun _ => hi).xadd p _).hset _ _

end Idle

section Fetch

variable {p i r : String} {s : Store}

/-- A promotion writes the hash of the promoted job only. -/
theorem promoteDelayedJob_hash_of_ne (s : Store) (hi : i ≠ r) :
    promoteDelayedJob p s i .hash (p ++ r) = s .hash (p ++ r) := by
  have hne : p ++ r ≠ p ++ i := fun heq => hi ((String.append_right_inj _).mp heq).symm
  simp only [promoteDelayedJob]
  rw [Store.hset_hash, if_neg hne, Store.xadd_of_ne _ _ _ (by decide)]
  split
  · rw [Keyspace.modify_of_ne _ (by decide)]
  · rw [Keyspace.modify_of_ne _ (by decide), getPriorityScore, Keyspace.modify_of_ne _ (by decide)]

/-- Promotion leaves a job that is not delayed alone. -/
theorem Idle.promoteDelayedJobs (h : Idle p r s) (t : ℤ) (b : Bool) :
    Idle p r (promoteDelayedJobs p t b s) ∧
      promoteDelayedJobs p t b s .hash (p ++ r) = s .hash (p ++ r) := by
  have hdue : ∀ i ∈ dueJobs p t s, i ≠ r := by
    rintro i hi rfl
    exact h.delayed ((SortedSet.rangeByScore_sublist _ _ _).subset (List.mem_of_mem_take hi))
  have hloop : ∀ (l : List String) (s' : Store), (∀ i ∈ l, i ≠ r) → Idle p r s' →
      Idle p r (l.foldl (BullMQ.promoteDelayedJob p) s') ∧
        l.foldl (BullMQ.promoteDelayedJob p) s' .hash (p ++ r) = s' .hash (p ++ r) := by
    intro l
    induction l with
    | nil => exact fun s' _ hs' => ⟨hs', rfl⟩
    | cons i l ih =>
      intro s' hl hs'
      obtain ⟨hidle, hhash⟩ := ih (BullMQ.promoteDelayedJob p s' i)
        (fun j hj => hl j (by simp [hj])) (hs'.promoteDelayedJob (hl i (by simp)))
      exact ⟨hidle, hhash.trans (promoteDelayedJob_hash_of_ne s' (hl i (by simp)))⟩
  simp only [BullMQ.promoteDelayedJobs]
  split
  · exact ⟨h, rfl⟩
  · have hleft : Idle p r (s.modify (.zset .delayed) p (·.zremAll (dueJobs p t s))) :=
      h.modify_zset fun _ hmem => (SortedSet.mem_zremAll.mp hmem).1
    obtain ⟨hidle, hhash⟩ := hloop _ _ hdue hleft
    refine ⟨hidle.of_frame (W := [.marker]) (by decide) fun hκ =>
      addBaseMarkerIfNeeded_frame _ _ _ hκ, ?_⟩
    rw [addBaseMarkerIfNeeded_frame _ _ _ (by decide), hhash, Keyspace.modify_of_ne _ (by decide)]

/-- The job that a fetch finds was in line. -/
theorem popForFetchNextJob_mem (h : (popForFetchNextJob p s).1 = .job i) :
    i ∈ s (.list .wait) p ∨ i ∈ s (.zset .prioritized) p := by
  have hprio : ∀ s' : Store, (moveJobFromPrioritizedToActive p s').1 = some i →
      i ∈ s' (.zset .prioritized) p := by
    intro s' h'
    obtain ⟨-, heq⟩ | ⟨j, hj, heq⟩ := moveJobFromPrioritizedToActive_cases p s'
    · rw [heq] at h'
      cases h'
    · rw [heq] at h'
      exact Option.some.inj h' ▸ hj
  simp only [popForFetchNextJob] at h
  obtain ⟨-, heq⟩ | ⟨j, l, hl, heq⟩ := rpoplpush_cases p s
  · rw [heq] at h
    cases hres : (moveJobFromPrioritizedToActive p s).1 with
    | none => simp [hres, Popped.ofOption] at h
    | some j =>
      obtain rfl : j = i := by simpa [hres, Popped.ofOption] using h
      exact .inr (hprio s hres)
  · rw [heq] at h
    dsimp only at h
    split at h
    · -- Behind a marker the script looks only at the prioritized set.
      split at h
      · set s' : Store := Keyspace.modify ((s.set (.list .wait) p l).modify (.list .active) p
          (lpush j)) (.list .active) p (lremLeft j) with hs'
        cases hres : (moveJobFromPrioritizedToActive p s').1 with
        | none => simp [hres] at h
        | some j' =>
          obtain rfl : j' = i := by simpa [hres] using h
          have hmem := hprio s' hres
          rw [hs', Keyspace.modify_of_ne _ (by decide), Keyspace.modify_of_ne _ (by decide),
            Keyspace.set_of_ne _ (by decide)] at hmem
          exact .inr hmem
      · cases h
    · obtain rfl : j = i := by simpa using h
      exact .inl (by rw [hl]; simp)

/-- A fetch writes the hash of the job it found only. -/
theorem prepareJobForProcessing_hash_of_ne (t : ℤ) (m d : Option ℤ) (o : FetchOpts) (s : Store)
    {k : String} (hk : k ≠ p ++ i) :
    (prepareJobForProcessing p i t m d o s).2 .hash k = s .hash k := by
  have hcount : (countActivation m d p s).2 .hash = s .hash :=
    countActivation_frame m d p s (by decide)
  rcases hres : countActivation m d p s with ⟨counted, s'⟩
  rw [hres] at hcount
  simp only [prepareJobForProcessing, hres]
  split
  · rw [hcount]
  · rw [addBaseMarkerIfNeeded_frame _ _ _ (by decide), Store.hset_hash, if_neg hk, Store.hset_hash,
      if_neg hk, Store.xadd_of_ne _ _ _ (by decide), ← hcount]
    split
    · rw [Keyspace.set_of_ne _ (by decide)]
    · rfl

/-- A fetch writes no hash of a job that is not in line. -/
theorem Idle.fetchNextJob_hash (h : Idle p r s) (t : ℤ) (o : FetchOpts) :
    (fetchNextJob p t o s).2 .hash (p ++ r) = s .hash (p ++ r) := by
  obtain ⟨hpromoted, hhash⟩ := h.promoteDelayedJobs t (getQueueMetadata p s).1
  have hstart : (startFetch p t o s).2 .hash (p ++ r) = s .hash (p ++ r) := by
    rw [startFetch, getRateLimitTTL_frame _ _ _ (by decide), hhash]
  have hidle : Idle p r (startFetch p t o s).2 :=
    hpromoted.of_frame (W := [.limiter]) (by decide) fun hκ =>
      getRateLimitTTL_frame _ _ _ (by simpa using hκ)
  obtain ⟨e, -, hres⟩ | ⟨-, -, hres⟩ := fetchWith_cases popForFetchNextJob p t o s
  · rw [fetchNextJob, hres, hstart]
  · rw [fetchNextJob, hres, ← hstart]
    generalize (startFetch p t o s).2 = s₀ at hidle
    have hpop : (popForFetchNextJob p s₀).2 .hash = s₀ .hash :=
      popForFetchNextJob_frame _ _ (by decide)
    simp only [takeJob]
    split
    · next i hi =>
      have hne : p ++ r ≠ p ++ i := by
        intro heq
        obtain rfl := (String.append_right_inj _).mp heq
        exact (popForFetchNextJob_mem hi).elim hidle.wait hidle.prioritized
      rw [← hpop]
      exact prepareJobForProcessing_hash_of_ne _ _ _ _ _ hne
    · rw [hpop]
    · rw [hpop]

end Fetch

/-! ### Deleted jobs -/

/-- The hash of a job and its sub-keys are gone. -/
structure Wiped (k : String) (s : Store) : Prop where
  hash : s .hash k = none
  logs : s .logs k = []
  dependencies : s .dependencies k = ∅
  processed : s .processed k = ∅
  failedChildren : s .failedChildren k = ∅
  unsuccessful : s .unsuccessful k = ∅

namespace Wiped

variable {k k' : String} {s s' : Store}

theorem of_eq (h : Wiped k s) (hs : ∀ κ ∈ jobKeyWrites, s' κ k = s κ k) : Wiped k s' where
  hash := (hs .hash (by decide)).trans h.hash
  logs := (hs .logs (by decide)).trans h.logs
  dependencies := (hs .dependencies (by decide)).trans h.dependencies
  processed := (hs .processed (by decide)).trans h.processed
  failedChildren := (hs .failedChildren (by decide)).trans h.failedChildren
  unsuccessful := (hs .unsuccessful (by decide)).trans h.unsuccessful

/-- A change of families other than those of a job. -/
theorem of_frame {W : List Kind} (h : Wiped k s) (hW : ∀ κ ∈ jobKeyWrites, κ ∉ W)
    (hs : ∀ {κ}, κ ∉ W → s' κ = s κ) : Wiped k s' :=
  h.of_eq fun κ hκ => by rw [hs (hW κ hκ)]

/-- What `removeJobKeys` does to the keys of a job. -/
theorem removeJobKeys_at (k k' : String) (s : Store) :
    (k' = k → Wiped k' (removeJobKeys k s)) ∧
      (k' ≠ k → ∀ κ, removeJobKeys k s κ k' = s κ k') := by
  constructor
  · rintro rfl
    constructor <;> simp [removeJobKeys]
  · intro hne κ
    have hset : ∀ (s' : Store) (κ' : Kind) (v : Val κ'), s'.set κ' k v κ k' = s' κ k' := by
      intro s' κ' v
      by_cases hκ : κ = κ'
      · subst hκ
        rw [Keyspace.set_self, Function.update_of_ne hne]
      · rw [Keyspace.set_of_ne _ hκ]
    simp only [removeJobKeys, hset]

/-- Removals bring nothing back. -/
theorem removeJobKeys (h : Wiped k s) (k' : String) : Wiped k (BullMQ.removeJobKeys k' s) := by
  by_cases hk : k = k'
  · exact (removeJobKeys_at k' k s).1 hk
  · exact h.of_eq fun κ _ => (removeJobKeys_at k' k s).2 hk κ

/-- The sets of a parent only shrink. -/
theorem removeParentDependencyKey (h : Wiped k s) (c : String) (o : Option String) :
    Wiped k (BullMQ.removeParentDependencyKey c o s).2 := by
  have hframe : ∀ κ ∈ jobKeyWrites, κ ≠ .dependencies →
      (BullMQ.removeParentDependencyKey c o s).2 κ = s κ := fun κ hκ hne =>
    removeParentDependencyKey_frame c o s (by
      simp only [jobKeyWrites, List.mem_cons, List.not_mem_nil, or_false] at hκ
      rcases hκ with rfl | rfl | rfl | rfl | rfl | rfl <;> first | decide | exact absurd rfl hne)
  -- Only a parent that has the child among its dependencies is written.
  have hunlink : ∀ P, (unlinkChild c P s).2 .dependencies k = s .dependencies k := by
    intro P
    simp only [unlinkChild]
    split
    · next hmem =>
      have hne : k ≠ P := by
        rintro rfl
        rw [h.dependencies] at hmem
        exact MemberSet.notMem_empty _ hmem
      have hleft : (s.modify .dependencies P (·.srem c)) .dependencies k = s .dependencies k := by
        rw [Keyspace.modify_self, Function.update_of_ne hne]
      split
      · split
        · rw [moveParentToWaitPlain_frame _ _ _ (by decide), Keyspace.modify_of_ne _ (by decide),
            hleft]
        · exact hleft
      · exact hleft
    · rfl
  have hdep : (BullMQ.removeParentDependencyKey c o s).2 .dependencies k = s .dependencies k := by
    unfold BullMQ.removeParentDependencyKey
    split
    · exact hunlink _
    · split
      · split
        · exact hunlink _
        · rfl
      · rfl
  refine h.of_eq fun κ hκ => ?_
  by_cases hne : κ = .dependencies
  · subst hne
    exact hdep
  · rw [hframe κ hκ hne]

theorem removeJobs (h : Wiped k s) (p : String) (l : List String) :
    Wiped k (l.foldl (removeJob p false) s) := by
  induction l generalizing s with
  | nil => exact h
  | cons i l ih => exact ih ((h.removeParentDependencyKey (p ++ i) none).removeJobKeys (p ++ i))

/-- The jobs of a list are gone once each of them has been removed. -/
theorem of_removeJobs {p i : String} {l : List String} (hi : i ∈ l) (s : Store) :
    Wiped (p ++ i) (l.foldl (removeJob p false) s) := by
  induction l generalizing s with
  | nil => cases hi
  | cons j l ih =>
    obtain rfl | hi := List.mem_cons.mp hi
    · have hgone : Wiped (p ++ i) (removeJob p false s i) :=
        (removeJobKeys_at (p ++ i) (p ++ i) _).1 rfl
      exact hgone.removeJobs p l
    · exact ih hi _

end Wiped

/-! ### What retention lets go -/

/-- The jobs of a set that a retention setting finds too old at a given time: those with a score of
at most `now - age * 1000`, latest first, as many as the limit allows. A negative limit is none, as
in `ZREVRANGEBYSCORE`. -/
def KeepJobs.expired (keep : KeepJobs) (now : ℤ) (z : ZSet) : List String :=
  match keep.age with
  | some age => limitTo (keep.limit.getD 1000) (z.rangeUpTo (now - age * 1000)).reverse
  | none => []

/-- The jobs of a set that are too many for a retention setting: all but the last `count`. -/
def KeepJobs.surplus (keep : KeepJobs) (z : ZSet) : List String :=
  match keep.count with
  | some count => if 0 < count then z.members.reverse.drop count.toNat else []
  | none => []

/-- The set that `moveToFinished` puts a job into, with that job. -/
def finishedSet (p : String) (a : FinishArgs) (s : Store) : ZSet :=
  (s (.zset a.target.zset) p).zadd a.timestamp a.jobId

/-- The jobs that go because of their age. -/
def agedJobs (p : String) (a : FinishArgs) (s : Store) : List String :=
  a.keepJobs.expired a.timestamp (finishedSet p a s)

/-- The jobs that go because of their number, once the aged ones are gone. -/
def excessJobs (p : String) (a : FinishArgs) (s : Store) : List String :=
  a.keepJobs.surplus ((finishedSet p a s).zremAll (agedJobs p a s))

/-- The jobs that go. -/
def retiredJobs (p : String) (a : FinishArgs) (s : Store) : List String :=
  agedJobs p a s ++ excessJobs p a s

/-- Jobs of a set that are taken for their age: none without an age, and else of those with a score
of at most `now - age * 1000` as many as the limit says, or all of them if they are fewer. -/
structure CutByAge (keep : KeepJobs) (now : ℤ) (z : ZSet) (l : List String) : Prop where
  nodup : l.Nodup
  old : ∀ i ∈ l, ∃ age, keep.age = some age ∧ i ∈ z.rangeUpTo (now - age * 1000)
  length : ∀ age, keep.age = some age → 0 ≤ keep.limit.getD 1000 →
    l.length = min (keep.limit.getD 1000).toNat (z.rangeUpTo (now - age * 1000)).length

/-- The set is cut as the setting says; the jobs left in it have their hashes, those taken out of it
are gone with their sub-keys, and no other job is deleted. -/
structure Retained (p : String) (a : FinishArgs) (s s' : Store) : Prop where
  aged : CutByAge a.keepJobs a.timestamp (finishedSet p a s) (agedJobs p a s)
  set : s' (.zset a.target.zset) p =
    ((finishedSet p a s).zremAll (agedJobs p a s)).zremAll (excessJobs p a s)
  left : ∀ i ∈ s' (.zset a.target.zset) p, s'.jobExists (p ++ i) = true
  gone : ∀ i ∈ retiredJobs p a s, Wiped (p ++ i) s'
  others : ∀ k, s.jobExists k = true → (∀ i ∈ retiredJobs p a s, k ≠ p ++ i) →
    s'.jobExists k = true

/-- None of the jobs that go is in line, and none is to be the successor of the finished job. -/
structure RetiresIdle (p : String) (a : FinishArgs) (s : Store) : Prop where
  idle : ∀ i ∈ retiredJobs p a s, Idle p i s
  successor : ∀ i ∈ retiredJobs p a s, ∀ d next, s.deidOf (p ++ a.jobId) = some d →
    s .dn (deduplicationNextKey p d) = some next → next.jid ≠ i

section Retire

variable {p : String} {a : FinishArgs} {s : Store}

/-- What the first pass reads is cut by age. -/
theorem expired_cutByAge (keep : KeepJobs) (now : ℤ) (z : ZSet) :
    CutByAge keep now z (keep.expired now z) := by
  unfold KeepJobs.expired
  cases hage : keep.age with
  | none => exact ⟨List.nodup_nil, by simp, by simp [hage]⟩
  | some age =>
    have hsub := limitTo_sublist (keep.limit.getD 1000) (z.rangeUpTo (now - age * 1000)).reverse
    have hnodup : (z.rangeUpTo (now - age * 1000)).reverse.Nodup :=
      List.nodup_reverse.mpr (z.members_nodup.sublist (SortedSet.rangeUpTo_sublist ..))
    refine ⟨hnodup.sublist hsub, fun i hi => ⟨age, hage, List.mem_reverse.mp (hsub.subset hi)⟩, ?_⟩
    intro age' hage' hlimit
    obtain rfl := Option.some.inj (hage.symm.trans hage')
    simp only [limitTo, if_neg hlimit.not_gt, List.length_take, List.length_reverse]

/-- The first pass, as a removal of what it reads. -/
theorem retainByAge_eq (p : String) (a : FinishArgs) (s : Store) :
    retainByAge p a s = retireJobs p a.target.zset
      (a.keepJobs.expired a.timestamp (s (.zset a.target.zset) p)) s := by
  simp only [retainByAge, KeepJobs.expired]
  cases a.keepJobs.age with
  | none => exact (retireJobs_nil ..).symm
  | some age => exact removeJobsByMaxAge_eq ..

/-- The second pass, as a removal of what it reads. -/
theorem retainByCount_eq (p : String) (a : FinishArgs) (s : Store) :
    retainByCount p a s = retireJobs p a.target.zset
      (a.keepJobs.surplus (s (.zset a.target.zset) p)) s := by
  simp only [retainByCount, KeepJobs.surplus]
  cases a.keepJobs.count with
  | none => exact (retireJobs_nil ..).symm
  | some count =>
    dsimp only
    split
    · exact removeJobsByMaxCount_eq ..
    · exact (retireJobs_nil ..).symm

/-- The retired jobs leave the set. -/
theorem retireJobs_set (p : String) (st : FinishedStatus) (l : List String) (s : Store) :
    retireJobs p st.zset l s (.zset st.zset) p = (s (.zset st.zset) p).zremAll l := by
  rw [retireJobs, Keyspace.modify_self, Function.update_self,
    foldl_removeJob_frame p false l s (finished_notMem_removalWrites st)]

/-- The retired jobs are the ones that are deleted. -/
theorem retireJobs_jobExists (p : String) (z : ZSetKey) (l : List String) (s : Store) (k : String) :
    (retireJobs p z l s).jobExists k = (s.jobExists k && decide (k ∉ l.map (p ++ ·))) := by
  rw [← (foldl_removeJob_erases p l s).exist, Store.jobExists, retireJobs,
    Keyspace.modify_of_ne _ (by simp), Store.jobExists]

theorem Wiped.modify_zset {k : String} (h : Wiped k s) (z : ZSetKey) (f : ZSet → ZSet) :
    Wiped k (s.modify (.zset z) p f) :=
  h.of_frame (W := [.zset z]) (by cases z <;> decide) fun hκ =>
    Keyspace.modify_of_ne _ (by simpa using hκ) ..

theorem Wiped.retireJobs {k : String} (h : Wiped k s) (z : ZSetKey) (l : List String) :
    Wiped k (retireJobs p z l s) :=
  (h.removeJobs p l).modify_zset z _

/-- A retired job leaves no key. -/
theorem wiped_of_retireJobs {i : String} {l : List String} (hi : i ∈ l) (z : ZSetKey) (s : Store) :
    Wiped (p ++ i) (retireJobs p z l s) :=
  (Wiped.of_removeJobs hi s).modify_zset z _

theorem Idle.retireJobs {r : String} (h : Idle p r s) (st : FinishedStatus) (l : List String) :
    Idle p r (retireJobs p st.zset l s) :=
  (h.removeJobs p l).modify (by cases st <;> decide) p _

end Retire

/-! ### The store before retention -/

section Before

variable {p : String} {a : FinishArgs} {s : Store}

/-- The store in which a finished job is in its set and retention has not begun. -/
def recordedJob (p : String) (a : FinishArgs) (s : Store) : Store :=
  recordFinished p a (Store.hset
    (settleFinished p a (leftActive p a.jobId a.opts.token a.fieldsToUpdate s)) (p ++ a.jobId)
    fun job => { job with atm := job.atm + 1 })

/-- A kept successor deletes no job. -/
theorem requeueDeduplicatedJob_exists {k : String} (hk : s.jobExists k = true) (d : Option String)
    (t : ℤ) : (requeueDeduplicatedJob p d t s).jobExists k = true := by
  unfold requeueDeduplicatedJob
  split
  · exact hk
  · split
    · exact hk
    · simp only
      rw [Store.jobExists, Keyspace.set_of_ne _ (by decide),
        addParentDependency_frame _ _ _ (by decide), storeAndEnqueueJob_hash, storeJob,
        Store.xadd_of_ne _ _ _ (by decide), Store.hset_hash]
      split
      · rfl
      · rw [getOrSetMaxEvents_frame _ _ (by decide), setDeduplicationKey_frame _ _ _ _ (by decide),
          Keyspace.modify_of_ne _ (by decide)]
        exact hk

/-- No job is deleted before the passes. -/
theorem settleFinished_exists {k : String} (hk : s.jobExists k = true) :
    (settleFinished p a s).jobExists k = true := by
  have htrimmed : (trimEvents p s).jobExists k = true := by
    rwa [Store.jobExists, trimEvents_frame _ _ (by decide)]
  have hfreed : (removeDeduplicationKeyIfNeededOnFinalization p (s.deidOf (p ++ a.jobId)) a.jobId
      (trimEvents p s)).jobExists k = true := by
    rwa [Store.jobExists, removeDeduplicationKeyIfNeededOnFinalization_frame _ _ _ _ (by decide)]
  exact (notifyParent_evolves _ _ _ a).jobExists (requeueDeduplicatedJob_exists hfreed _ _)

theorem recordedJob_exists {k : String} (hk : s.jobExists k = true) :
    (recordedJob p a s).jobExists k = true := by
  have hleft := (leftActive_evolves p a.jobId s a.opts.token a.fieldsToUpdate).jobExists hk
  have hcounted : Evolves
      (settleFinished p a (leftActive p a.jobId a.opts.token a.fieldsToUpdate s)) _ :=
    .hset _ (p ++ a.jobId) (f := fun job => { job with atm := job.atm + 1 }) fun _ => ⟨rfl, le_rfl⟩
  exact (hcounted.trans (recordFinished_evolves p a _)).jobExists (settleFinished_exists hleft)

/-- The finished job is in the set before the passes. -/
theorem recordedJob_set (p : String) (a : FinishArgs) (s : Store) :
    recordedJob p a s (.zset a.target.zset) p = finishedSet p a s := by
  have hsettle : Kind.zset a.target.zset ∉
      Kind.processed :: (childFailureWrites ++ requeueWrites) := by cases a.target <;> decide
  rw [recordedJob, recordFinished_zset, if_pos rfl, Function.update_self,
    Store.hset_of_ne _ _ _ (by simp), settleFinished_frame _ _ _ hsettle,
    leftActive_frame _ _ _ _ _ (by simp)]
  rfl

/-- Nothing brings an idle job in line before the passes, unless it is the kept successor. -/
theorem Idle.settleFinished {r : String} (h : Idle p r s)
    (hnext : ∀ d next, s.deidOf (p ++ a.jobId) = some d →
      s .dn (deduplicationNextKey p d) = some next → next.jid ≠ r) :
    Idle p r (settleFinished p a s) := by
  have htrimmed : Idle p r (trimEvents p s) := h.of_frame (by decide) (trimEvents_frame p s)
  have hfreed : Idle p r (removeDeduplicationKeyIfNeededOnFinalization p (s.deidOf (p ++ a.jobId))
      a.jobId (trimEvents p s)) :=
    htrimmed.of_frame (W := [.de]) (by decide) fun hκ =>
      removeDeduplicationKeyIfNeededOnFinalization_frame _ _ _ _ (by simpa using hκ)
  refine (hfreed.requeueDeduplicatedJob _ _ fun d next hd hdn => ?_).notifyParent _ _ a
  rw [removeDeduplicationKeyIfNeededOnFinalization_frame _ _ _ _ (by decide),
    trimEvents_frame _ _ (by decide)] at hdn
  exact hnext d next hd hdn

theorem Idle.recordedJob {r : String} (h : Idle p r s)
    (hnext : ∀ d next, s.deidOf (p ++ a.jobId) = some d →
      s .dn (deduplicationNextKey p d) = some next → next.jid ≠ r) :
    Idle p r (recordedJob p a s) := by
  have hleft : Idle p r (leftActive p a.jobId a.opts.token a.fieldsToUpdate s) :=
    h.of_frame (by decide) (leftActive_frame _ _ _ _ _)
  have hdeid := (leftActive_evolves p a.jobId s a.opts.token a.fieldsToUpdate).deidOf (p ++ a.jobId)
  have hdn : leftActive p a.jobId a.opts.token a.fieldsToUpdate s .dn = s .dn :=
    leftActive_frame _ _ _ _ _ (by decide)
  rw [← hdeid, ← hdn] at hnext
  exact ((hleft.settleFinished hnext).hset _ _).of_frame (by cases a.target <;> decide)
    (recordFinished_frame p a _)

end Before

/-! ### The store after retention -/

section After

variable {p : String} {a : FinishArgs} {s : Store}

/-- The store in which retention has been applied. -/
def retainedJobs (p : String) (a : FinishArgs) (s : Store) : Store :=
  retireJobs p a.target.zset (excessJobs p a s)
    (retireJobs p a.target.zset (agedJobs p a s) (recordedJob p a s))

/-- What follows retention: events, metrics and the fetch. -/
theorem moveToFinished_retains (hfin : FinishesJob s p a) (hcount : a.keepJobs.count ≠ some 0) :
    ∃ s' : Store, (∀ κ, κ ∉ [Kind.events, .metrics] → s' κ = retainedJobs p a s κ) ∧
      (Script.moveToFinished p a s).2 = (fetchOrDrain p a s').2 := by
  obtain ⟨hno, -⟩ | ⟨hrel, -⟩ | ⟨-, hres⟩ := Script.moveToFinished_cases p a s
  · exact absurd hfin hno
  · exact absurd hfin hrel.not_finishesJob
  refine ⟨_, fun κ hκ => ?_, congrArg Prod.snd hres⟩
  have hev : κ ≠ .events := by rintro rfl; simp at hκ
  have hmet : κ ≠ .metrics := by rintro rfl; simp at hκ
  have hkept : keepFinished p a (Store.hset
      (settleFinished p a (leftActive p a.jobId a.opts.token a.fieldsToUpdate s)) (p ++ a.jobId)
      fun job => { job with atm := job.atm + 1 }) = retainedJobs p a s := by
    change retainByCount p a (retainByAge p a (recordedJob p a s)) = _
    rw [retainByCount_eq, retainByAge_eq, retireJobs_set, recordedJob_set]
    rfl
  simp only [finishJob, keepOrRemove, if_pos hcount, hkept]
  split
  · rw [collectMetrics_frame _ _ _ _ hmet, emitFinished_frame _ _ _ _ hev]
  · exact emitFinished_frame _ _ _ _ hev

/-- The set after both passes. -/
theorem retainedJobs_set (p : String) (a : FinishArgs) (s : Store) :
    retainedJobs p a s (.zset a.target.zset) p =
      ((finishedSet p a s).zremAll (agedJobs p a s)).zremAll (excessJobs p a s) := by
  rw [retainedJobs, retireJobs_set, retireJobs_set, recordedJob_set]

/-- The jobs after both passes. -/
theorem retainedJobs_jobExists (p : String) (a : FinishArgs) (s : Store) (k : String) :
    (retainedJobs p a s).jobExists k = true ↔
      (recordedJob p a s).jobExists k = true ∧ ∀ i ∈ retiredJobs p a s, k ≠ p ++ i := by
  rw [retainedJobs, retireJobs_jobExists, retireJobs_jobExists]
  simp only [Bool.and_eq_true, decide_eq_true_eq, List.mem_map, not_exists, not_and, and_assoc,
    retiredJobs, List.mem_append, or_imp, forall_and, ne_comm (a := k)]

/-- The second pass brings no job of the first one back. -/
theorem wiped_retainedJobs {i : String} (hi : i ∈ retiredJobs p a s) :
    Wiped (p ++ i) (retainedJobs p a s) := by
  obtain hi | hi := List.mem_append.mp hi
  · exact (wiped_of_retireJobs hi _ _).retireJobs _ _
  · exact wiped_of_retireJobs hi _ _

/-- The fetch at the end does not find a job that is not in line. -/
theorem Wiped.fetchOrDrain {i : String} (h : Wiped (p ++ i) s)
    (hidle : a.fetchNext = true → Idle p i s) : Wiped (p ++ i) (fetchOrDrain p a s).2 := by
  have hdrain : ∀ s', Wiped (p ++ i) s' → Wiped (p ++ i) (emitDrained p s') := fun s' hs' =>
    hs'.of_frame (W := [.events]) (by decide) fun hκ => emitDrained_frame _ _ (by simpa using hκ)
  simp only [BullMQ.fetchOrDrain]
  split
  · next hfetch =>
    have hgone : Wiped (p ++ i) (fetchNextJob p a.timestamp a.opts s).2 := by
      refine h.of_eq fun κ hκ => ?_
      by_cases hhash : κ = .hash
      · subst hhash
        exact (hidle hfetch).fetchNextJob_hash _ _
      · have hother : κ ∉ fetchWrites := by
          revert κ
          decide
        rw [fetchNextJob_frame _ _ _ _ hother]
    split
    · exact hgone
    · exact hdrain _ hgone
  · exact hdrain s h

end After

/-- **Retention.** Where no fetch follows, or the jobs that go are neither in line nor to be
requeued, a successful `moveToFinished` cuts the set as the setting says, with every trace of the
jobs that go and of no other. -/
theorem retained_of_idle {p : String} {a : FinishArgs} {s : Store} (hfin : FinishesJob s p a)
    (hcount : a.keepJobs.count ≠ some 0)
    (hmembers : ∀ i ∈ s (.zset a.target.zset) p, s.jobExists (p ++ i) = true)
    (hidle : a.fetchNext = true → RetiresIdle p a s) :
    Retained p a s (Script.moveToFinished p a s).2 := by
  obtain ⟨s', hs', hres⟩ := moveToFinished_retains hfin hcount
  have hset : (Script.moveToFinished p a s).2 (.zset a.target.zset) p =
      ((finishedSet p a s).zremAll (agedJobs p a s)).zremAll (excessJobs p a s) := by
    rw [hres, fetchOrDrain_frame _ _ _ (by cases a.target <;> decide), hs' _ (by simp),
      retainedJobs_set]
  -- The fetch deletes nothing, so what retention kept is still there.
  have hothers : ∀ k, s.jobExists k = true → (∀ i ∈ retiredJobs p a s, k ≠ p ++ i) →
      (Script.moveToFinished p a s).2.jobExists k = true := by
    intro k hk hne
    have hkept := (retainedJobs_jobExists p a s k).mpr ⟨recordedJob_exists hk, hne⟩
    rw [hres]
    refine (fetchOrDrain_evolves p s' a).jobExists ?_
    rwa [Store.jobExists, hs' .hash (by decide)]
  refine ⟨expired_cutByAge .., hset, fun i hi => ?_, fun i hi => ?_, hothers⟩
  · -- A member that is left was in the set before, or is the finished job.
    rw [hset, SortedSet.mem_zremAll, SortedSet.mem_zremAll] at hi
    obtain ⟨⟨hmem, hage⟩, hexcess⟩ := hi
    refine hothers (p ++ i) ?_ fun i' hi' heq => ?_
    · obtain rfl | hmem := SortedSet.mem_zadd.mp hmem
      · exact hfin.1.jobExists
      · exact hmembers i hmem
    · obtain rfl := (String.append_right_inj _).mp heq
      exact (List.mem_append.mp hi').elim hage hexcess
  · rw [hres]
    have hgone : Wiped (p ++ i) s' := (wiped_retainedJobs hi).of_frame (W := [.events, .metrics])
      (by decide) fun hκ => hs' _ hκ
    refine hgone.fetchOrDrain fun hfetch => ?_
    have hline := ((hidle hfetch).idle i hi).recordedJob ((hidle hfetch).successor i hi)
    have hretired : Idle p i (retainedJobs p a s) := (hline.retireJobs _ _).retireJobs _ _
    exact hretired.of_frame (W := [.events, .metrics]) (by decide) fun hκ => hs' _ hκ

/-- A finished job with one expired and one surplus job in its set. -/
def threeFinished : List Command :=
  let add (name : String) : Command :=
    .addStandardJob "bull:q:" { name := name, data := "", timestamp := 1 }
  let fetch : FetchOpts := { token := "t", lockDuration := 30000 }
  let finish (id : String) (time : ℤ) : Command :=
    .moveToFinished "bull:q:" { jobId := id, timestamp := time, value := "", target := .completed,
                                fetchNext := true, opts := fetch }
  [add "a", add "b", add "c", .moveToActive "bull:q:" 2 fetch, finish "1" 3, finish "2" 5000]

/-- The store these commands lead to. -/
def threeFinishedStore : Store := (runCommands threeFinished .empty).getD .empty

/-- The end of the third job. -/
def thirdFinish : FinishArgs where
  jobId := "3"
  timestamp := 6000
  value := ""
  target := .completed
  fetchNext := true
  opts := { token := "t", lockDuration := 30000 }
  keepJobs := { count := some 1, age := some 2 }

instance (p r : String) (s : Store) : Decidable (Idle p r s) :=
  decidable_of_iff (r ∉ s (.list .wait) p ∧ r ∉ s (.zset .prioritized) p ∧
      r ∉ s (.zset .delayed) p ∧ r ∉ s (.zset .waitingChildren) p)
    ⟨fun h => ⟨h.1, h.2.1, h.2.2.1, h.2.2.2⟩, fun h => ⟨h.1, h.2, h.3, h.4⟩⟩

theorem third_finish_leaves_one :
    agedJobs "bull:q:" thirdFinish threeFinishedStore = ["1"] ∧
    excessJobs "bull:q:" thirdFinish threeFinishedStore = ["2"] ∧
    Retained "bull:q:" thirdFinish threeFinishedStore
      (Script.moveToFinished "bull:q:" thirdFinish threeFinishedStore).2 := by
  refine ⟨by decide, by decide, retained_of_idle (by decide) (by decide) (by decide) fun _ => ?_⟩
  refine ⟨by decide, fun i _ d next hd => ?_⟩
  have hnone : threeFinishedStore.deidOf ("bull:q:" ++ thirdFinish.jobId) = none := by decide
  rw [hnone] at hd
  cases hd

/-- A job under a custom id that is finished while an active job has a successor of that id. -/
def successorFinished : List Command :=
  let de : DeduplicationOpts := { id := "d", keepLastIfActive := true }
  let fetch : FetchOpts := { token := "t", lockDuration := 30000 }
  [.addStandardJob "bull:q:" { name := "a", data := "", timestamp := 1, opts := { de := some de } },
   .moveToActive "bull:q:" 2 fetch,
   .addStandardJob "bull:q:"
      { customId := "x", name := "b", data := "", timestamp := 3, opts := { de := some de } },
   .addStandardJob "bull:q:" { customId := "x", name := "c", data := "", timestamp := 4 },
   .moveToActive "bull:q:" 5 fetch,
   .moveToFinished "bull:q:" { jobId := "x", timestamp := 6, value := "", target := .completed,
                               fetchNext := false, opts := fetch }]

/-- The store these commands lead to. -/
def successorFinishedStore : Store := (runCommands successorFinished .empty).getD .empty

/-- The end of the job whose successor is kept. -/
def winnerFinish : FinishArgs where
  jobId := "1"
  timestamp := 7
  value := ""
  target := .completed
  fetchNext := true
  opts := { token := "t", lockDuration := 30000 }
  keepJobs := { count := some 1 }

/-- The successor is stored over the finished job of its id and put in line; retention deletes the
hash, and the fetch that follows writes it again. -/
theorem retired_job_comes_back :
    runCommands successorFinished .empty = some successorFinishedStore ∧
    FinishesJob successorFinishedStore "bull:q:" winnerFinish ∧
    (∀ i ∈ successorFinishedStore (.zset .completed) "bull:q:",
      successorFinishedStore.jobExists ("bull:q:" ++ i) = true) ∧
    "x" ∈ retiredJobs "bull:q:" winnerFinish successorFinishedStore ∧
    ¬ Retained "bull:q:" winnerFinish successorFinishedStore
      (Script.moveToFinished "bull:q:" winnerFinish successorFinishedStore).2 := by
  have hretired : "x" ∈ retiredJobs "bull:q:" winnerFinish successorFinishedStore := by decide
  refine ⟨rfl, by decide, by decide, hretired, fun h => ?_⟩
  have hback : (Script.moveToFinished "bull:q:" winnerFinish successorFinishedStore).2.jobExists
      ("bull:q:" ++ "x") = true := by decide
  rw [Store.jobExists, (h.gone "x" hretired).hash] at hback
  cases hback

end BullMQ
