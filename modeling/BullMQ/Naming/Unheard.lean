import BullMQ.Dedup.View
import BullMQ.Model.QueueCommand

/-!
# Ids that nothing goes by

`Unheard p j s` says that in the queue `p` of the store `s` nothing goes by the id `j`: there is no
job hash, no list and no sorted set has it, and no kept payload reserves it. Scripts bring in no
new names: what they move, enqueue or write fields of is a job they found under its name. So an id
stays unheard of until an add uses it. This module goes through the helpers of the scripts.
-/

namespace BullMQ

open Redis

/-- Nothing in the queue `p` goes by the id `j`. -/
structure Unheard (p j : String) (s : Store) : Prop where
  hash : s .hash (p ++ j) = none
  list : ∀ l, j ∉ s (.list l) p
  zset : ∀ z, j ∉ s (.zset z) p
  payload : ∀ d next, s .dn (deduplicationNextKey p d) = some next → next.jid ≠ j

/-- The families in which names occur. -/
def nameKinds : List Kind := .dn :: placeKinds

namespace Unheard

variable {p q i j k : String} {s s' : Store}

/-! ### Single writes -/

theorem of_frame {W : List Kind} (h : Unheard p j s) (hW : ∀ κ ∈ nameKinds, κ ∉ W)
    (hs : ∀ {κ}, κ ∉ W → s' κ = s κ) : Unheard p j s' where
  hash := by rw [hs (hW _ (by decide))]; exact h.hash
  list l := by
    rw [hs (hW _ (by cases l <;> decide))]
    exact h.list l
  zset z := by
    rw [hs (hW _ (by cases z <;> decide))]
    exact h.zset z
  payload d next := by
    rw [hs (hW _ (by decide))]
    exact h.payload d next

theorem modify {κ : Kind} (h : Unheard p j s) (hκ : κ ∉ nameKinds) (k : String)
    (f : Val κ → Val κ) : Unheard p j (s.modify κ k f) := by
  refine h.of_frame (W := [κ]) ?_ (fun hκ' => Keyspace.modify_of_ne _ (by simpa using hκ') ..)
  intro κ' hκ' hmem
  obtain rfl : κ' = κ := by simpa using hmem
  exact hκ hκ'

theorem set {κ : Kind} (h : Unheard p j s) (hκ : κ ∉ nameKinds) (k : String) (v : Val κ) :
    Unheard p j (s.set κ k v) :=
  h.modify hκ k fun _ => v

theorem xadd (h : Unheard p j s) (q : String) (e : Event) : Unheard p j (s.xadd q e) :=
  h.modify (by decide) q _

theorem modify_list (h : Unheard p j s) {l : ListKey} {f : List String → List String}
    (hf : q = p → j ∉ f (s (.list l) p)) : Unheard p j (s.modify (.list l) q f) where
  hash := by rw [Keyspace.modify_of_ne _ (by simp)]; exact h.hash
  list l' := by
    by_cases hl : l' = l
    · subst hl
      rw [Keyspace.modify_self, Function.update_apply]
      split
      · next hq =>
        subst hq
        exact hf rfl
      · exact h.list l'
    · rw [Keyspace.modify_of_ne _ (by simpa using hl)]
      exact h.list l'
  zset z := by rw [Keyspace.modify_of_ne _ (by simp)]; exact h.zset z
  payload d next := by rw [Keyspace.modify_of_ne _ (by simp)]; exact h.payload d next

theorem modify_zset (h : Unheard p j s) {z : ZSetKey} {f : ZSet → ZSet}
    (hf : q = p → j ∉ f (s (.zset z) p)) : Unheard p j (s.modify (.zset z) q f) where
  hash := by rw [Keyspace.modify_of_ne _ (by simp)]; exact h.hash
  zset z' := by
    by_cases hz : z' = z
    · subst hz
      rw [Keyspace.modify_self, Function.update_apply]
      split
      · next hq =>
        subst hq
        exact hf rfl
      · exact h.zset z'
    · rw [Keyspace.modify_of_ne _ (by simpa using hz)]
      exact h.zset z'
  list l := by rw [Keyspace.modify_of_ne _ (by simp)]; exact h.list l
  payload d next := by rw [Keyspace.modify_of_ne _ (by simp)]; exact h.payload d next

theorem modify_hash (h : Unheard p j s) {f : Option Job → Option Job}
    (hf : k = p ++ j → f none = none) : Unheard p j (s.modify .hash k f) where
  hash := by
    rw [Keyspace.modify_self, Function.update_apply]
    split
    · next hk => rw [← hk, h.hash, hf hk.symm]
    · exact h.hash
  list l := by rw [Keyspace.modify_of_ne _ (by simp)]; exact h.list l
  zset z := by rw [Keyspace.modify_of_ne _ (by simp)]; exact h.zset z
  payload d next := by rw [Keyspace.modify_of_ne _ (by decide)]; exact h.payload d next

theorem hset (h : Unheard p j s) (hk : k ≠ p ++ j) (f : Job → Job) : Unheard p j (s.hset k f) :=
  h.modify_hash fun heq => absurd heq hk

theorem hdel (h : Unheard p j s) (k : String) (f : Job → Job) : Unheard p j (s.hdel k f) :=
  h.modify_hash fun _ => rfl

/-- An id that leaves a list leaves only what was there. -/
theorem sublist_list (h : Unheard p j s) (l : ListKey) (q : String) {f : List String → List String}
    (hf : ∀ x, (f x).Sublist x) : Unheard p j (s.modify (.list l) q f) :=
  h.modify_list fun _ hmem => h.list l ((hf _).subset hmem)

theorem filter_zset (h : Unheard p j s) (z : ZSetKey) (q : String) (g : ZSet → ℤ ×ₗ String → Bool) :
    Unheard p j (s.modify (.zset z) q fun x => x.filter (g x)) :=
  h.modify_zset fun _ hmem => h.zset z (by
    obtain ⟨e, he, rfl⟩ := List.mem_map.mp hmem
    exact List.mem_map_of_mem (List.mem_of_mem_filter he))

theorem zrem (h : Unheard p j s) (z : ZSetKey) (q i : String) :
    Unheard p j (s.modify (.zset z) q (·.zrem i)) := h.filter_zset z q _

theorem zremAll (h : Unheard p j s) (z : ZSetKey) (q : String) (l : ZSet → List String) :
    Unheard p j (s.modify (.zset z) q fun x => x.zremAll (l x)) := h.filter_zset z q _

theorem push (h : Unheard p j s) (c : PushCmd) (l : ListKey) (hi : q = p → i ≠ j) :
    Unheard p j (s.modify (.list l) q (c.push i)) :=
  h.modify_list fun hq hmem => by
    obtain rfl | hmem := PushCmd.mem_push.mp hmem
    · exact hi hq rfl
    · exact h.list l hmem

theorem zadd (h : Unheard p j s) (z : ZSetKey) (n : ℤ) (hi : q = p → i ≠ j) :
    Unheard p j (s.modify (.zset z) q (·.zadd n i)) :=
  h.modify_zset fun hq hmem => by
    obtain rfl | hmem := SortedSet.mem_zadd.mp hmem
    · exact hi hq rfl
    · exact h.zset z hmem

theorem set_dn (h : Unheard p j s) {v : Option DeduplicatedNextJob}
    (hv : ∀ d next, k = deduplicationNextKey p d → v = some next → next.jid ≠ j) :
    Unheard p j (s.set .dn k v) where
  hash := by rw [Keyspace.set_of_ne _ (by decide)]; exact h.hash
  list l := by rw [Keyspace.set_of_ne _ (by simp)]; exact h.list l
  zset z := by rw [Keyspace.set_of_ne _ (by simp)]; exact h.zset z
  payload d next := by
    rw [Keyspace.set_self, Function.update_apply]
    split
    · next hk => exact hv d next hk.symm
    · exact h.payload d next

theorem unset_dn (h : Unheard p j s) (k : String) : Unheard p j (s.set .dn k none) :=
  h.set_dn fun _ _ _ hnone => by cases hnone

theorem removeJobKeys (h : Unheard p j s) (k : String) :
    Unheard p j (BullMQ.removeJobKeys k s) where
  hash := by
    rw [removeJobKeys_hash, Function.update_apply]
    split
    · rfl
    · exact h.hash
  list l := by rw [removeJobKeys_frame _ _ (by cases l <;> decide)]; exact h.list l
  zset z := by rw [removeJobKeys_frame _ _ (by cases z <;> decide)]; exact h.zset z
  payload d next := by rw [removeJobKeys_frame _ _ (by decide)]; exact h.payload d next

theorem foldl {α : Type} {f : Store → α → Store} {l : List α} (h : Unheard p j s)
    (hf : ∀ a ∈ l, ∀ s, Unheard p j s → Unheard p j (f s a)) : Unheard p j (l.foldl f s) := by
  induction l generalizing s with
  | nil => exact h
  | cons a l ih => exact ih (hf a (by simp) s h) fun b hb => hf b (by simp [hb])

/-- An existing job has another key. -/
theorem ne_of_exists (h : Unheard p j s) (hk : s.jobExists k = true) : k ≠ p ++ j := by
  rintro rfl
  rw [Store.jobExists, h.hash] at hk
  cases hk

/-- A job of a queue that is found in one of its containers has another key. -/
theorem ne_of_mem_list {Q : QueueSet} (h : Unheard p j s) (hp : Q.Base p) (hq : Q.Base q)
    {l : ListKey} (hi : i ∈ s (.list l) q) : q ++ i ≠ p ++ j := by
  intro heq
  obtain rfl := Q.apart hq hp heq
  obtain rfl := (String.append_right_inj _).mp heq
  exact h.list l hi

theorem ne_of_mem_zset {Q : QueueSet} (h : Unheard p j s) (hp : Q.Base p) (hq : Q.Base q)
    {z : ZSetKey} (hi : i ∈ s (.zset z) q) : q ++ i ≠ p ++ j := by
  intro heq
  obtain rfl := Q.apart hq hp heq
  obtain rfl := (String.append_right_inj _).mp heq
  exact h.zset z hi

theorem id_ne {q i : String} (hk : q ++ i ≠ p ++ j) (hq : q = p) : i ≠ j := by
  rintro rfl
  exact hk (by rw [hq])

/-! ### Enqueueing -/

theorem getOrSetMaxEvents (h : Unheard p j s) (q : String) :
    Unheard p j (BullMQ.getOrSetMaxEvents q s) :=
  h.of_frame (W := [.metaMaxLenEvents]) (by decide) fun hκ => getOrSetMaxEvents_frame _ _ hκ

theorem addBaseMarkerIfNeeded (h : Unheard p j s) (q : String) (b : Bool) :
    Unheard p j (BullMQ.addBaseMarkerIfNeeded q b s) :=
  h.of_frame (W := [.marker]) (by decide) fun hκ => addBaseMarkerIfNeeded_frame _ _ _ hκ

theorem addDelayMarkerIfNeeded (h : Unheard p j s) (q : String) :
    Unheard p j (BullMQ.addDelayMarkerIfNeeded q s) :=
  h.of_frame (W := [.marker]) (by decide) fun hκ => addDelayMarkerIfNeeded_frame _ _ hκ

theorem addJobInTargetList (h : Unheard p j s) (c : PushCmd) (b : Bool) (hi : q = p → i ≠ j) :
    Unheard p j (BullMQ.addJobInTargetList q c b i s) :=
  (h.push c .wait hi).addBaseMarkerIfNeeded q b

theorem addJobWithPriority (h : Unheard p j s) (n : ℤ) (b : Bool) (hi : q = p → i ≠ j) :
    Unheard p j (BullMQ.addJobWithPriority q n i b s) :=
  ((h.modify (κ := .pc) (by decide) q (· + 1)).zadd .prioritized _ hi).addBaseMarkerIfNeeded q b

theorem pushBackJobWithPriority (h : Unheard p j s) (n : ℤ) (hi : q = p → i ≠ j) :
    Unheard p j (BullMQ.pushBackJobWithPriority q n i s) := h.zadd .prioritized _ hi

theorem addDelayedJob (h : Unheard p j s) (t d : ℤ) (hi : q = p → i ≠ j) :
    Unheard p j (BullMQ.addDelayedJob q i t d s) :=
  ((h.zadd .delayed _ hi).xadd q _).addDelayMarkerIfNeeded q

theorem moveJobToWait (h : Unheard p j s) (c : PushCmd) (hi : q = p → i ≠ j) :
    Unheard p j (BullMQ.moveJobToWait q i c s) := (h.addJobInTargetList c _ hi).xadd q _

theorem storeJob (h : Unheard p j s) (hk : q ++ i ≠ p ++ j) (n d : String) (o : JobOpts) (t : ℤ)
    (P : Option Parent) (r : Option String) : Unheard p j (BullMQ.storeJob q i n d o t P r s) :=
  (h.hset hk _).xadd q _

theorem storeAndEnqueueJob (h : Unheard p j s) (hk : q ++ i ≠ p ++ j) (n d : String) (o : JobOpts)
    (t : ℤ) (P : Option Parent) (r : Option String) :
    Unheard p j (BullMQ.storeAndEnqueueJob q i n d o t P r s) := by
  have hstored := h.storeJob hk n d o t P r
  simp only [BullMQ.storeAndEnqueueJob]
  split
  · exact hstored.addDelayedJob _ _ (id_ne hk)
  · split
    · exact (hstored.addJobWithPriority _ _ (id_ne hk)).xadd q _
    · exact (hstored.addJobInTargetList _ _ (id_ne hk)).xadd q _

theorem promoteDelayedJob (h : Unheard p j s) (hk : q ++ i ≠ p ++ j) :
    Unheard p j (BullMQ.promoteDelayedJob q s i) := by
  simp only [BullMQ.promoteDelayedJob]
  split
  · exact ((h.push .lpush .wait (id_ne hk)).xadd q _).hset hk _
  · exact (((h.modify (κ := .pc) (by decide) q (· + 1)).zadd .prioritized _
      (id_ne hk)).xadd q _).hset hk _

theorem promoteDelayedJobs {Q : QueueSet} (h : Unheard p j s) (hp : Q.Base p) (hq : Q.Base q)
    (t : ℤ) (b : Bool) : Unheard p j (BullMQ.promoteDelayedJobs q t b s) := by
  have hdue : ∀ i ∈ dueJobs q t s, q ++ i ≠ p ++ j := fun i hi =>
    h.ne_of_mem_zset hp hq (z := .delayed)
      ((SortedSet.rangeByScore_sublist _ _ _).subset (List.mem_of_mem_take hi))
  simp only [BullMQ.promoteDelayedJobs]
  split
  · exact h
  · have hleft : Unheard p j (s.modify (.zset .delayed) q (·.zremAll (dueJobs q t s))) :=
      h.zremAll .delayed q fun _ => dueJobs q t s
    exact (hleft.foldl fun i hi _ hs => hs.promoteDelayedJob (hdue i hi)).addBaseMarkerIfNeeded q b

/-! ### Parents -/

theorem moveParentToWait (h : Unheard p j s) {P : Parent} (hP : P.key ≠ p ++ j) (t : ℤ) :
    Unheard p j (BullMQ.moveParentToWait P t s) := by
  have hid : P.base = p → P.id ≠ j := id_ne hP
  simp only [BullMQ.moveParentToWait]
  split
  · exact ((h.zadd .delayed _ hid).xadd _ _).addDelayMarkerIfNeeded _
  · split
    · exact (h.addJobInTargetList _ _ hid).xadd _ _
    · exact (h.addJobWithPriority _ _ hid).xadd _ _

theorem moveParentToWaitIfNeeded (h : Unheard p j s) (P : Parent) (t : ℤ) :
    Unheard p j (BullMQ.moveParentToWaitIfNeeded P t s) := by
  unfold BullMQ.moveParentToWaitIfNeeded
  split
  · next hex => exact (h.zrem .waitingChildren _ _).moveParentToWait (h.ne_of_exists hex.1) t
  · exact h

theorem moveParentToWaitIfNoPendingDependencies (h : Unheard p j s) (P : Parent) (t : ℤ) :
    Unheard p j (BullMQ.moveParentToWaitIfNoPendingDependencies P t s) := by
  unfold BullMQ.moveParentToWaitIfNoPendingDependencies
  split
  · exact h.moveParentToWaitIfNeeded P t
  · exact h

theorem updateParentDepsIfNeeded (h : Unheard p j s) (P : Parent) (k v : String) (t : ℤ) :
    Unheard p j (BullMQ.updateParentDepsIfNeeded P k v t s) :=
  (h.modify (κ := .processed) (by decide) P.key _).moveParentToWaitIfNoPendingDependencies P t

theorem handleChildFailureAndMoveParentToWait (h : Unheard p j s) (P : Parent) (k : String)
    (t : ℤ) :
    Unheard p j (BullMQ.handleChildFailureAndMoveParentToWait P k t s) := by
  simp only [BullMQ.handleChildFailureAndMoveParentToWait]
  split
  · next hex =>
    have hP := h.ne_of_exists hex
    split
    · exact ((h.zrem .waitingChildren _ _).hset hP _).moveParentToWait hP t
    · split
      · exact (((h.hset hP _).zrem .delayed _ _).hset hP _).moveParentToWait hP t
      · split
        · exact h
        · exact h.hset hP _
  · exact h

theorem moveChildFromDependenciesIfNeeded (h : Unheard p j s) (R : Option Parent) (k r : String)
    (t : ℤ) : Unheard p j (BullMQ.moveChildFromDependenciesIfNeeded R k r t s) := by
  cases R with
  | none => exact h
  | some P =>
    have hleft : Unheard p j (s.modify .dependencies P.key (·.srem k)) :=
      h.modify (κ := .dependencies) (by decide) P.key _
    simp only [BullMQ.moveChildFromDependenciesIfNeeded]
    split
    · split
      · exact (hleft.modify (κ := .unsuccessful)
          (by decide) P.key _).handleChildFailureAndMoveParentToWait P k t
      · split
        · exact (hleft.modify (κ := .failedChildren)
            (by decide) P.key _).moveParentToWaitIfNeeded P t
        · split
          · have hfree := hleft.moveParentToWaitIfNoPendingDependencies P t
            split
            · exact hfree.modify (κ := .failedChildren) (by decide) P.key _
            · exact hfree
          · exact h
    · exact h

/-- A parent found among those that wait has another name. -/
theorem unlinkChild (h : Unheard p j s) (k k' : String) :
    Unheard p j (BullMQ.unlinkChild k k' s).2 := by
  have hleft : Unheard p j (s.modify .dependencies k' (·.srem k)) :=
    h.modify (κ := .dependencies) (by decide) k' _
  simp only [BullMQ.unlinkChild]
  split
  · split
    · split
      · next hwaits =>
        have hid : getJobKeyPrefix k' (getJobIdFromKey k') = p → getJobIdFromKey k' ≠ j := by
          rintro hp rfl
          rw [hp] at hwaits
          exact hleft.zset .waitingChildren hwaits
        exact ((hleft.zrem .waitingChildren _ _).addJobInTargetList _ _ hid).xadd _ _
      · exact hleft
    · exact hleft
  · exact h

theorem removeParentDependencyKey (h : Unheard p j s) (k : String) (o : Option String) :
    Unheard p j (BullMQ.removeParentDependencyKey k o s).2 := by
  unfold BullMQ.removeParentDependencyKey
  split
  · exact h.unlinkChild _ _
  · split
    · split
      · exact h.unlinkChild _ _
      · exact h
    · exact h

theorem addParentDependency (h : Unheard p j s) (P : Option Parent) (k : String) :
    Unheard p j (BullMQ.addParentDependency P k s) :=
  h.of_frame (W := [.dependencies]) (by decide) fun hκ => addParentDependency_frame _ _ _
    (by simpa using hκ)

/-! ### Deduplication -/

theorem removeDeduplicationKeyIfNeededOnRemoval (h : Unheard p j s) (q i : String)
    (o : Option String) :
    Unheard p j (BullMQ.removeDeduplicationKeyIfNeededOnRemoval q i o s) := by
  unfold BullMQ.removeDeduplicationKeyIfNeededOnRemoval
  split
  · exact h
  · simp only
    split
    · exact (h.set (κ := .de) (by decide) _ _).unset_dn _
    · exact h

theorem setDeduplicationKey (h : Unheard p j s) (k i : String) (t : Option ℤ) :
    Unheard p j (BullMQ.setDeduplicationKey k i t s) := h.set (κ := .de) (by decide) _ _

theorem storeDeduplicatedNextJob {Q : QueueSet} (h : Unheard p j s) (hp : Q.Base p)
    (hq : Q.Base q) (hk : q ++ i ≠ p ++ j) (de : DeduplicationOpts) (c : String) (a : AddArgs) :
    Unheard p j (BullMQ.storeDeduplicatedNextJob q de c i a s).2 := by
  simp only [BullMQ.storeDeduplicatedNextJob]
  split
  · refine .xadd (.modify (κ := .de) (h.set_dn fun d next hkey hnext => ?_) (by decide) _ _) q _
    cases hnext
    have hqp : q = p := by
      by_contra hne
      exact QueueSet.deduplicationNextKey_ne hq hp hne _ _ hkey
    exact id_ne hk hqp
  · exact h

theorem deduplicateJobWithoutReplace {Q : QueueSet} (h : Unheard p j s) (hp : Q.Base p)
    (hq : Q.Base q) (hk : q ++ i ≠ p ++ j) (de : DeduplicationOpts) (a : AddArgs) :
    Unheard p j (BullMQ.deduplicateJobWithoutReplace q de i a s).2 := by
  simp only [BullMQ.deduplicateJobWithoutReplace]
  split
  · exact h.setDeduplicationKey _ _ _
  · next current _ =>
    have hnext := h.storeDeduplicatedNextJob hp hq hk de current.jobId a
    split
    · next s' heq => rwa [heq] at hnext
    · next s' heq =>
      rw [heq] at hnext
      refine .xadd ?_ q _
      split
      · exact hnext.setDeduplicationKey _ _ _
      · exact hnext

theorem removeDelayedJob (h : Unheard p j s) (q c i d : String) :
    Unheard p j (BullMQ.removeDelayedJob q c i d s).2 := by
  simp only [BullMQ.removeDelayedJob]
  split
  · exact (((h.zrem .delayed _ _).removeJobKeys _).xadd _ _).xadd _ _
  · exact h

theorem deduplicateJob {Q : QueueSet} (h : Unheard p j s) (hp : Q.Base p) (hq : Q.Base q)
    (hk : q ++ i ≠ p ++ j) (de : DeduplicationOpts) (a : AddArgs) :
    Unheard p j (BullMQ.deduplicateJob q de i a s).2 := by
  simp only [BullMQ.deduplicateJob]
  split
  · split
    · next current _ =>
      have hrem := h.removeDelayedJob q current.jobId i de.id
      split
      · next s' heq =>
        rw [heq] at hrem
        split
        · exact hrem.setDeduplicationKey _ _ _
        · split
          · exact hrem.set (κ := .de) (by decide) _ _
          · exact hrem.setDeduplicationKey _ _ _
      · next s' heq =>
        rw [heq] at hrem
        exact hrem.storeDeduplicatedNextJob hp hq hk _ _ _
    · exact h.setDeduplicationKey _ _ _
  · exact h.deduplicateJobWithoutReplace hp hq hk de a

theorem removeDeduplicationKeyIfNeededOnFinalization (h : Unheard p j s) (q : String)
    (o : Option String) (i : String) :
    Unheard p j (BullMQ.removeDeduplicationKeyIfNeededOnFinalization q o i s) :=
  h.of_frame (W := [.de]) (by decide) fun hκ =>
    removeDeduplicationKeyIfNeededOnFinalization_frame _ _ _ _ (by simpa using hκ)

/-- The successor of a winner goes by the id its payload reserved. -/
theorem requeueDeduplicatedJob {Q : QueueSet} (h : Unheard p j s) (hp : Q.Base p) (hq : Q.Base q)
    (o : Option String) (t : ℤ) : Unheard p j (BullMQ.requeueDeduplicatedJob q o t s) := by
  unfold BullMQ.requeueDeduplicatedJob
  split
  · exact h
  · next d =>
    split
    · exact h
    · next next hnext =>
      have hk : q ++ next.jid ≠ p ++ j := by
        intro heq
        obtain rfl := Q.apart hq hp heq
        exact h.payload d next hnext ((String.append_right_inj _).mp heq)
      simp only
      refine .unset_dn (.addParentDependency (.storeAndEnqueueJob ?_ hk _ _ _ _ _ _) _ _) _
      exact .getOrSetMaxEvents (.setDeduplicationKey (h.modify (κ := .id) (by decide) q _) _ _ _) q

/-! ### Adds -/

theorem updateExistingJobsParent (h : Unheard p j s) (hk : q ++ i ≠ p ++ j) (P : Option Parent)
    (t : ℤ) : Unheard p j (BullMQ.updateExistingJobsParent q i P t s) := by
  cases P with
  | none => exact h
  | some P =>
    simp only [BullMQ.updateExistingJobsParent]
    refine .hset ?_ hk _
    split
    · exact h.updateParentDepsIfNeeded _ _ _ _
    · exact h.modify (κ := .dependencies) (by decide) _ _

theorem handleDuplicatedJob (h : Unheard p j s) (hk : q ++ i ≠ p ++ j) (P : Option Parent) (t : ℤ) :
    Unheard p j (BullMQ.handleDuplicatedJob q i P t s).2 := by
  unfold BullMQ.handleDuplicatedJob
  split
  · exact (h.updateExistingJobsParent hk P t).xadd q _
  · split
    · exact (h.updateExistingJobsParent hk P t).xadd q _
    · split
      · exact h
      · exact h.xadd q _

theorem drawId (h : Unheard p j s) (q : String) : Unheard p j (BullMQ.drawId q s) :=
  (h.modify (κ := .id) (by decide) q _).getOrSetMaxEvents q

/-- A mode of adding that uses no other names than that of the new job. -/
def Names (Q : QueueSet) (q : String) (mode : AddMode) : Prop :=
  ∀ {p i j : String} {a : AddArgs} {s : Store}, Q.Base p → q ++ i ≠ p ++ j → Unheard p j s →
    (∀ de, Unheard p j (mode.deduplicate de i a s).2) ∧ Unheard p j (mode.enqueue i a s)

theorem standardMode_names {Q : QueueSet} (hq : Q.Base q) : Names Q q (standardMode q) :=
  fun hp hk h => ⟨fun de => h.deduplicateJob hp hq hk de _,
    (h.addJobInTargetList _ _ (id_ne hk)).xadd q _⟩

theorem delayedMode_names {Q : QueueSet} (hq : Q.Base q) : Names Q q (delayedMode q) :=
  fun hp hk h => ⟨fun de => h.deduplicateJob hp hq hk de _, h.addDelayedJob _ _ (id_ne hk)⟩

theorem prioritizedMode_names {Q : QueueSet} (hq : Q.Base q) : Names Q q (prioritizedMode q) :=
  fun hp hk h => ⟨fun de => h.deduplicateJob hp hq hk de _,
    (h.addJobWithPriority _ _ (id_ne hk)).xadd q _⟩

theorem parentMode_names {Q : QueueSet} (hq : Q.Base q) : Names Q q (parentMode q) :=
  fun hp hk h => ⟨fun de => h.deduplicateJobWithoutReplace hp hq hk de _,
    (h.zadd .waitingChildren _ (id_ne hk)).xadd q _⟩

theorem addNewJob {Q : QueueSet} {mode : AddMode} (hmode : Names Q q mode) (h : Unheard p j s)
    (hp : Q.Base p) (hk : q ++ i ≠ p ++ j) (a : AddArgs) :
    Unheard p j (BullMQ.addNewJob mode q i a s).2 := by
  have hstore : ∀ s, Unheard p j s → Unheard p j (storeNewJob mode q i a s) := fun s hs =>
    (hmode hp hk (hs.storeJob hk _ _ _ _ _ _)).2.addParentDependency _ _
  unfold BullMQ.addNewJob
  cases a.opts.de with
  | none => exact hstore s h
  | some de =>
    have hded := (hmode (a := a) hp hk h).1 de
    rcases hres : mode.deduplicate de i a s with ⟨_ | winner, s'⟩ <;> rw [hres] at hded
    · simp only [hres]
      exact hstore s' hded
    · simpa only [hres] using hded

/-- An add leaves an id unheard of that it does not take itself. -/
theorem addJobWith {Q : QueueSet} {mode : AddMode} (hmode : Names Q q mode) (h : Unheard p j s)
    (hp : Q.Base p) (hq : Q.Base q) {a : AddArgs}
    (hnew : q = p → a.customId = "" → (s .id p + 1).repr ≠ j)
    (hcustom : q = p → a.customId ≠ j) : Unheard p j (BullMQ.addJobWith mode q a s).2 := by
  obtain ⟨-, heq⟩ | ⟨-, hex, -, heq⟩ | ⟨i, hi, -, heq⟩ := addJobWith_ends mode q a s <;> rw [heq]
  · exact h
  · exact (h.drawId q).handleDuplicatedJob (h.ne_of_exists hex) _ _
  · refine (h.drawId q).addNewJob hmode hp (fun hkey => ?_) a
    obtain rfl := Q.apart hq hp hkey
    obtain rfl := (String.append_right_inj _).mp hkey
    rcases hi with ⟨hauto, hi⟩ | ⟨hcust, -, -⟩
    · exact hnew rfl hauto hi.symm
    · exact hcustom rfl hcust

end Unheard

end BullMQ
