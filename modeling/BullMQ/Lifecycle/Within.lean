import BullMQ.Placement.Helpers
import BullMQ.Model.Command

/-!
# Where a job can get to

`Within C p j s` says that the job `j` of the queue `p` is in no container but those of `C`. A
helper that takes jobs out of one container and puts them into another keeps that, if `C` has the
second wherever it has the first. This module goes through the helpers of the scripts.
-/

namespace BullMQ

open Redis

/-- The job is in no container but those of `C`. -/
def Within (C : List Container) (p j : String) (s : Store) : Prop :=
  ∀ d, countIn s d p j ≠ 0 → d ∈ C

/-- The containers allow a way: where they have its beginning, they have its end. -/
def Allows (C : List Container) (b d : Container) : Prop := b ∈ C → d ∈ C

/-- The families of the containers. -/
def heldKinds : List Kind :=
  [.list .wait, .list .paused, .list .active, .zset .prioritized, .zset .delayed, .zset .completed,
    .zset .failed, .zset .waitingChildren]

namespace Within

variable {C : List Container} {p q i j k : String} {s s' : Store}

/-! ### Single writes -/

theorem list (h : Within C p j s) {l : ListKey} (hj : j ∈ s (.list l) p) : .inl l ∈ C :=
  h _ (mem_list_iff.mp hj)

theorem zset (h : Within C p j s) {z : ZSetKey} (hj : j ∈ s (.zset z) p) : .inr z ∈ C :=
  h _ (mem_zset_iff.mp hj)

theorem of_mem (hlist : ∀ l, j ∈ s (.list l) p → .inl l ∈ C)
    (hzset : ∀ z, j ∈ s (.zset z) p → .inr z ∈ C) : Within C p j s := by
  rintro (l | z) hd
  · exact hlist l (mem_list_iff.mpr hd)
  · exact hzset z (mem_zset_iff.mpr hd)

theorem of_frame {W : List Kind} (h : Within C p j s) (hW : ∀ κ ∈ heldKinds, κ ∉ W)
    (hs : ∀ {κ}, κ ∉ W → s' κ = s κ) : Within C p j s' :=
  of_mem (fun l hj => h.list (by rwa [← hs (hW _ (by cases l <;> decide))]))
    fun z hj => h.zset (by rwa [← hs (hW _ (by cases z <;> decide))])

theorem modify {κ : Kind} (h : Within C p j s) (hκ : κ ∉ heldKinds) (k : String)
    (f : Val κ → Val κ) : Within C p j (s.modify κ k f) := by
  refine h.of_frame (W := [κ]) ?_ (fun hκ' => Keyspace.modify_of_ne _ (by simpa using hκ') ..)
  intro κ' hκ' hmem
  obtain rfl : κ' = κ := by simpa using hmem
  exact hκ hκ'

theorem set {κ : Kind} (h : Within C p j s) (hκ : κ ∉ heldKinds) (k : String) (v : Val κ) :
    Within C p j (s.set κ k v) :=
  h.modify hκ k fun _ => v

theorem xadd (h : Within C p j s) (q : String) (e : Event) : Within C p j (s.xadd q e) :=
  h.modify (by decide) q _

theorem hset (h : Within C p j s) (k : String) (f : Job → Job) : Within C p j (s.hset k f) :=
  h.of_frame (W := [.hash]) (by decide) fun hκ => Store.hset_of_ne _ _ _ (by simpa using hκ)

theorem hdel (h : Within C p j s) (k : String) (f : Job → Job) : Within C p j (s.hdel k f) :=
  h.of_frame (W := [.hash]) (by decide) fun hκ => Store.hdel_of_ne _ _ _ (by simpa using hκ)

theorem modify_list (h : Within C p j s) {l : ListKey} {f : List String → List String}
    (hf : q = p → j ∈ f (s (.list l) p) → .inl l ∈ C) : Within C p j (s.modify (.list l) q f) := by
  refine of_mem (fun l' hj => ?_) fun z hj => h.zset (by
    rwa [Keyspace.modify_of_ne _ (by simp)] at hj)
  by_cases hl : l' = l
  · subst hl
    rw [Keyspace.modify_self, Function.update_apply] at hj
    split at hj
    · next hq =>
      subst hq
      exact hf rfl hj
    · exact h.list hj
  · exact h.list (by rwa [Keyspace.modify_of_ne _ (by simpa using hl)] at hj)

theorem modify_zset (h : Within C p j s) {z : ZSetKey} {f : ZSet → ZSet}
    (hf : q = p → j ∈ f (s (.zset z) p) → .inr z ∈ C) : Within C p j (s.modify (.zset z) q f) := by
  refine of_mem (fun l hj => h.list (by rwa [Keyspace.modify_of_ne _ (by simp)] at hj))
    fun z' hj => ?_
  by_cases hz : z' = z
  · subst hz
    rw [Keyspace.modify_self, Function.update_apply] at hj
    split at hj
    · next hq =>
      subst hq
      exact hf rfl hj
    · exact h.zset hj
  · exact h.zset (by rwa [Keyspace.modify_of_ne _ (by simpa using hz)] at hj)

theorem sublist_list (h : Within C p j s) (l : ListKey) (q : String)
    {f : List String → List String} (hf : ∀ x, (f x).Sublist x) :
    Within C p j (s.modify (.list l) q f) :=
  h.modify_list fun _ hmem => h.list ((hf _).subset hmem)

theorem zrem (h : Within C p j s) (z : ZSetKey) (q i : String) :
    Within C p j (s.modify (.zset z) q (·.zrem i)) :=
  h.modify_zset fun _ hmem => h.zset (SortedSet.mem_zrem.mp hmem).1

theorem zremAll (h : Within C p j s) (z : ZSetKey) (q : String) (l : ZSet → List String) :
    Within C p j (s.modify (.zset z) q fun x => x.zremAll (l x)) :=
  h.modify_zset fun _ hmem => h.zset (SortedSet.mem_zremAll.mp hmem).1

/-- A job that is put into a list. -/
theorem push (h : Within C p j s) (c : PushCmd) (l : ListKey) (hi : q = p → i = j → .inl l ∈ C) :
    Within C p j (s.modify (.list l) q (c.push i)) :=
  h.modify_list fun hq hmem => by
    obtain rfl | hmem := PushCmd.mem_push.mp hmem
    · exact hi hq rfl
    · exact h.list hmem

/-- A job that is put into a sorted set. -/
theorem zadd (h : Within C p j s) (z : ZSetKey) (n : ℤ) (hi : q = p → i = j → .inr z ∈ C) :
    Within C p j (s.modify (.zset z) q (·.zadd n i)) :=
  h.modify_zset fun hq hmem => by
    obtain rfl | hmem := SortedSet.mem_zadd.mp hmem
    · exact hi hq rfl
    · exact h.zset hmem

theorem foldl {α : Type} {f : Store → α → Store} {l : List α}
    (hf : ∀ s, ∀ a ∈ l, Within C p j s → Within C p j (f s a)) (h : Within C p j s) :
    Within C p j (l.foldl f s) := by
  induction l generalizing s with
  | nil => exact h
  | cons a l ih =>
    exact ih (fun s b hb => hf s b (List.mem_cons_of_mem _ hb)) (hf s a List.mem_cons_self h)

/-! ### Enqueueing -/

theorem addJobInTargetList (h : Within C p j s) (c : PushCmd) (b : Bool)
    (hi : q = p → i = j → .inl .wait ∈ C) :
    Within C p j (BullMQ.addJobInTargetList q c b i s) :=
  (h.push c .wait hi).of_frame (by decide) (addBaseMarkerIfNeeded_frame _ _ _)

theorem addJobWithPriority (h : Within C p j s) (n : ℤ) (b : Bool)
    (hi : q = p → i = j → .inr .prioritized ∈ C) :
    Within C p j (BullMQ.addJobWithPriority q n i b s) := by
  simp only [BullMQ.addJobWithPriority, getPriorityScore]
  exact ((h.modify (κ := .pc) (by decide) q _).zadd .prioritized _ hi).of_frame (by decide)
    (addBaseMarkerIfNeeded_frame _ _ _)

theorem addDelayedJob (h : Within C p j s) (t d : ℤ) (hi : q = p → i = j → .inr .delayed ∈ C) :
    Within C p j (BullMQ.addDelayedJob q i t d s) := by
  simp only [BullMQ.addDelayedJob]
  exact ((h.zadd .delayed _ hi).xadd q _).of_frame (by decide) (addDelayMarkerIfNeeded_frame _ _)

/-- A job that is put into `wait` or, if it has a priority, into `prioritized`. -/
theorem enqueue (h : Within C p j s) (c : PushCmd) (b : Bool) (n : ℤ)
    (hi : q = p → i = j → .inl .wait ∈ C ∧ .inr .prioritized ∈ C) :
    Within C p j (if n = 0 then BullMQ.addJobInTargetList q c b i s
      else BullMQ.addJobWithPriority q n i b s) := by
  split
  · exact h.addJobInTargetList c b fun hq hij => (hi hq hij).1
  · exact h.addJobWithPriority n b fun hq hij => (hi hq hij).2

theorem promoteDelayedJob (h : Within C p j s)
    (hi : q = p → i = j → .inl .wait ∈ C ∧ .inr .prioritized ∈ C) :
    Within C p j (BullMQ.promoteDelayedJob q s i) := by
  simp only [BullMQ.promoteDelayedJob]
  refine Within.hset (.xadd ?_ q _) _ _
  split
  · exact h.push .lpush .wait fun hq hij => (hi hq hij).1
  · exact (h.modify (κ := .pc) (by decide) q _).zadd .prioritized _ fun hq hij => (hi hq hij).2

theorem promoteDelayedJobs (h : Within C p j s) (hwait : Allows C (.inr .delayed) (.inl .wait))
    (hprio : Allows C (.inr .delayed) (.inr .prioritized)) (q : String) (t : ℤ) (b : Bool) :
    Within C p j (BullMQ.promoteDelayedJobs q t b s) := by
  simp only [BullMQ.promoteDelayedJobs]
  split
  · exact h
  · refine Within.of_frame ?_ (by decide) (addBaseMarkerIfNeeded_frame _ _ _)
    refine Within.foldl (fun s i hi hs => hs.promoteDelayedJob fun hq hij => ?_)
      (h.zremAll .delayed q fun _ => dueJobs q t s)
    -- What is due was delayed.
    subst hq hij
    have hmem := mem_delayed_of_mem_dueJobs hi
    exact ⟨hwait (h.zset hmem), hprio (h.zset hmem)⟩

end Within

end BullMQ
