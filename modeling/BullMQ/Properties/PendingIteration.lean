import BullMQ.Model.QueueCommand
import BullMQ.Placement.Evolution

/-!
# One pending job per job scheduler

A job scheduler has at most one job that has never been activated and is in line, and that job is
the iteration its score in the `repeat` set names. An upsert takes that iteration out before it
stores another one, but on a paused queue it looks for it in a list that pausing no longer uses
(`pausedOrWait`). `one_pending_job` is about the runs in which no upsert meets its pending
iteration in the wait list of a paused queue; `paused_upsert_doubles` is a run in which one does.
-/

namespace BullMQ

open Redis

/-- The job of the scheduler `S` under a key has never been activated. -/
def Awaits (s : Store) (S k : String) : Prop :=
  ∃ job, s .hash k = some job ∧ job.rjk = some S ∧ job.ats = 0

/-- An id is in delayed, prioritized, wait or paused. -/
def InLine (s : Store) (p j : String) : Prop :=
  j ∈ s (.zset .delayed) p ∨ j ∈ s (.zset .prioritized) p ∨ j ∈ s (.list .wait) p ∨
    j ∈ s (.list .paused) p

/-- A job of the scheduler `S` that has never been activated is in line. -/
def PendingJob (s : Store) (p S j : String) : Prop := Awaits s S (p ++ j) ∧ InLine s p j

theorem Evolves.awaits {s s' : Store} (h : Evolves s s') {S k : String} (hk : Awaits s' S k) :
    Awaits s S k := by
  obtain ⟨job', hjob', hrjk, hats⟩ := hk
  have hfrozen := congrArg Job.rjk (h k).frozen
  have hle := (h k).ats
  rw [hjob'] at hfrozen hle
  rcases hjob : s .hash k with _ | job
  · rw [hjob] at hfrozen
    exact absurd (hrjk.symm.trans hfrozen) (by simp [Job.frozen])
  · rw [hjob] at hfrozen hle
    exact ⟨job, hjob, hfrozen.symm.trans hrjk, by simpa [hats] using hle⟩

/-- A step that brings no job of a scheduler into line and that stores neither parents nor
payloads. -/
structure Quiet (s s' : Store) : Prop where
  awaits : ∀ S k, Awaits s' S k → Awaits s S k
  inLine : ∀ p j, InLine s' p j → InLine s p j
  repeatSet : s' .repeatSet = s .repeatSet
  parents : ∀ k, s.parentOf k = none → s'.parentOf k = none
  payloads : ∀ k, s .dn k = none → s' .dn k = none
  paused : ∀ p, s (.list .paused) p = [] → s' (.list .paused) p = []

/-- The families that `Quiet` is about. -/
def lineKinds : List Kind :=
  [.hash, .zset .delayed, .zset .prioritized, .list .wait, .list .paused, .repeatSet, .dn]

section Quiet

variable {s s' s'' : Store}

theorem inLine_congr {p j : String} (hdel : s' (.zset .delayed) = s (.zset .delayed))
    (hprio : s' (.zset .prioritized) = s (.zset .prioritized))
    (hwait : s' (.list .wait) = s (.list .wait))
    (hpaused : s' (.list .paused) = s (.list .paused)) :
    InLine s' p j ↔ InLine s p j := by
  rw [InLine, hdel, hprio, hwait, hpaused, InLine]

namespace Quiet

theorem refl (s : Store) : Quiet s s :=
  ⟨fun _ _ => id, fun _ _ => id, rfl, fun _ => id, fun _ => id, fun _ => id⟩

theorem trans (h : Quiet s s') (h' : Quiet s' s'') : Quiet s s'' where
  awaits S k hk := h.awaits S k (h'.awaits S k hk)
  inLine p j hj := h.inLine p j (h'.inLine p j hj)
  repeatSet := h'.repeatSet.trans h.repeatSet
  parents k hk := h'.parents k (h.parents k hk)
  payloads k hk := h'.payloads k (h.payloads k hk)
  paused p hp := h'.paused p (h.paused p hp)

/-- Hashes that evolve, and lines that grow by nobody. -/
theorem of_evolves {W : List Kind} (hW : ∀ κ ∈ [Kind.repeatSet, .dn, .list .paused], κ ∉ W)
    (h : Evolves s s')
    (hline : ∀ p j, InLine s' p j → InLine s p j) (hs : ∀ {κ}, κ ∉ W → s' κ = s κ) :
      Quiet s s' where
  awaits _ _ := h.awaits
  inLine := hline
  repeatSet := hs (hW _ (by decide))
  parents k hk := (h.parentOf k).trans hk
  payloads k hk := by rw [hs (hW _ (by decide))]; exact hk
  paused p hp := by rw [hs (hW _ (by decide))]; exact hp

/-- A change of other families. -/
theorem of_frame {W : List Kind} (hW : ∀ κ ∈ lineKinds, κ ∉ W)
    (hs : ∀ {κ}, κ ∉ W → s' κ = s κ) : Quiet s s' := by
  refine of_evolves (W := W) (fun κ hκ => ?_) (.of_hash (hs (hW _ (by decide)))) (fun p j => ?_) hs
  · refine hW κ ?_
    simp only [List.mem_cons, List.not_mem_nil, or_false] at hκ
    rcases hκ with rfl | rfl | rfl <;> decide
  · exact (inLine_congr (hs (hW _ (by decide))) (hs (hW _ (by decide))) (hs (hW _ (by decide)))
      (hs (hW _ (by decide)))).mp

/-- Hashes that evolve, in a step that writes no line. -/
theorem of_evolves_frame {W : List Kind} (hW : ∀ κ ∈ lineKinds.tail, κ ∉ W)
    (h : Evolves s s') (hs : ∀ {κ}, κ ∉ W → s' κ = s κ) : Quiet s s' := by
  refine of_evolves (W := W) (fun κ hκ => hW κ ?_) h (fun p j => ?_) hs
  · simp only [List.mem_cons, List.not_mem_nil, or_false] at hκ
    rcases hκ with rfl | rfl | rfl <;> decide
  · exact (inLine_congr (hs (hW _ (by decide))) (hs (hW _ (by decide))) (hs (hW _ (by decide)))
      (hs (hW _ (by decide)))).mp

/-- Deleting the keys of a job. -/
theorem removeJobKeys (k : String) (s : Store) : Quiet s (BullMQ.removeJobKeys k s) where
  awaits S k' hk := by
    obtain ⟨job, hjob, h⟩ := hk
    rw [removeJobKeys_hash, Function.update_apply] at hjob
    split at hjob
    · cases hjob
    · exact ⟨job, hjob, h⟩
  inLine p j := (inLine_congr (removeJobKeys_frame _ _ (by decide))
    (removeJobKeys_frame _ _ (by decide)) (removeJobKeys_frame _ _ (by decide))
    (removeJobKeys_frame _ _ (by decide))).mp
  repeatSet := removeJobKeys_frame _ _ (by decide)
  parents k' hk := by
    rw [Store.parentOf, removeJobKeys_hash, Function.update_apply]
    split
    · rfl
    · exact hk
  payloads k' hk := by rw [removeJobKeys_frame _ _ (by decide)]; exact hk
  paused p hp := by rw [removeJobKeys_frame _ _ (by decide)]; exact hp

end Quiet

end Quiet

/-! ### Lines -/

/-- Those in line, except for ids of `E` in the queue `p`, were in line before. -/
def JoinsOnly (p : String) (E : String → Prop) (s s' : Store) : Prop :=
  ∀ q i, InLine s' q i → InLine s q i ∨ q = p ∧ E i

section Lines

variable {s s' s'' : Store} {p i j : String} {E : String → Prop}

theorem JoinsOnly.refl (s : Store) : JoinsOnly p E s s := fun _ _ => .inl

theorem JoinsOnly.trans (h : JoinsOnly p E s s') (h' : JoinsOnly p E s' s'') :
    JoinsOnly p E s s'' := fun q i hi => (h' q i hi).elim (h q i) .inr

theorem JoinsOnly.of_frame {W : List Kind}
    (hW : ∀ κ ∈ [Kind.zset .delayed, .zset .prioritized, .list .wait, .list .paused], κ ∉ W)
    (hs : ∀ {κ}, κ ∉ W → s' κ = s κ) : JoinsOnly p E s s' := fun _ _ hi =>
  .inl ((inLine_congr (hs (hW _ (by decide))) (hs (hW _ (by decide))) (hs (hW _ (by decide)))
    (hs (hW _ (by decide)))).mp hi)

theorem joinsOnly_list {l : ListKey} {f : List String → List String}
    (h : ∀ i, i ∈ f (s (.list l) p) → i ∈ s (.list l) p ∨ E i) :
    JoinsOnly p E s (s.modify (.list l) p f) := by
  intro q i hi
  have hz : ∀ z, (s.modify (.list l) p f) (.zset z) = s (.zset z) := fun z =>
    Keyspace.modify_of_ne _ (by simp) ..
  have hl : ∀ l', i ∈ (s.modify (.list l) p f) (.list l') q →
      i ∈ s (.list l') q ∨ q = p ∧ E i := by
    intro l' hmem
    by_cases heq : l' = l
    · subst heq
      rw [Keyspace.modify_self, Function.update_apply] at hmem
      split at hmem
      · next hq =>
        subst hq
        exact (h i hmem).imp_right fun hE => ⟨rfl, hE⟩
      · exact .inl hmem
    · rw [Keyspace.modify_of_ne _ (by simpa using heq)] at hmem
      exact .inl hmem
  rw [InLine, hz, hz] at hi
  rcases hi with hi | hi | hi | hi
  · exact .inl (.inl hi)
  · exact .inl (.inr (.inl hi))
  · exact (hl _ hi).imp_left fun hi => .inr (.inr (.inl hi))
  · exact (hl _ hi).imp_left fun hi => .inr (.inr (.inr hi))

theorem joinsOnly_zset {z : ZSetKey} {f : ZSet → ZSet}
    (h : ∀ i, i ∈ f (s (.zset z) p) → i ∈ s (.zset z) p ∨ E i) :
    JoinsOnly p E s (s.modify (.zset z) p f) := by
  intro q i hi
  have hl : ∀ l, (s.modify (.zset z) p f) (.list l) = s (.list l) := fun l =>
    Keyspace.modify_of_ne _ (by simp) ..
  have hz : ∀ z', i ∈ (s.modify (.zset z) p f) (.zset z') q →
      i ∈ s (.zset z') q ∨ q = p ∧ E i := by
    intro z' hmem
    by_cases heq : z' = z
    · subst heq
      rw [Keyspace.modify_self, Function.update_apply] at hmem
      split at hmem
      · next hq =>
        subst hq
        exact (h i hmem).imp_right fun hE => ⟨rfl, hE⟩
      · exact .inl hmem
    · rw [Keyspace.modify_of_ne _ (by simpa using heq)] at hmem
      exact .inl hmem
  rw [InLine, hl, hl] at hi
  rcases hi with hi | hi | hi | hi
  · exact (hz _ hi).imp_left .inl
  · exact (hz _ hi).imp_left fun hi => .inr (.inl hi)
  · exact .inl (.inr (.inr (.inl hi)))
  · exact .inl (.inr (.inr (.inr hi)))

theorem joinsOnly_push (c : PushCmd) (hj : E j) (s : Store) :
    JoinsOnly p E s (s.modify (.list .wait) p (c.push j)) :=
  joinsOnly_list fun i hi => by
    obtain rfl | hi := PushCmd.mem_push.mp hi
    · exact .inr hj
    · exact .inl hi

theorem joinsOnly_zadd {z : ZSetKey} (k : ℤ) (hj : E j) (s : Store) :
    JoinsOnly p E s (s.modify (.zset z) p (·.zadd k j)) :=
  joinsOnly_zset fun i hi => by
    obtain rfl | hi := SortedSet.mem_zadd.mp hi
    · exact .inr hj
    · exact .inl hi

theorem joinsOnly_zrem (z : ZSetKey) (j : String) (s : Store) :
    JoinsOnly p E s (s.modify (.zset z) p (·.zrem j)) :=
  joinsOnly_zset fun _ hi => .inl (SortedSet.mem_zrem.mp hi).1

theorem joinsOnly_addJobInTargetList (c : PushCmd) (b : Bool) (hj : E j) (s : Store) :
    JoinsOnly p E s (addJobInTargetList p c b j s) :=
  (joinsOnly_push c hj s).trans
    (.of_frame (W := [.marker]) (by decide) fun hκ => addBaseMarkerIfNeeded_frame _ _ _ hκ)

theorem joinsOnly_addJobWithPriority (n : ℤ) (b : Bool) (hj : E j) (s : Store) :
    JoinsOnly p E s (addJobWithPriority p n j b s) := by
  have hcount : JoinsOnly p E s (s.modify .pc p (· + 1)) :=
    .of_frame (W := [.pc]) (by decide) fun hκ => Keyspace.modify_of_ne _ (by simpa using hκ) ..
  exact hcount.trans ((joinsOnly_zadd _ hj _).trans
    (.of_frame (W := [.marker]) (by decide) fun hκ => addBaseMarkerIfNeeded_frame _ _ _ hκ))

theorem joinsOnly_addDelayedJob (t d : ℤ) (hj : E j) (s : Store) :
    JoinsOnly p E s (addDelayedJob p j t d s) := by
  refine (joinsOnly_zadd (z := .delayed) (getDelayedScore p t d s).1 hj s).trans
    (.of_frame (W := [.events, .marker]) (by decide) fun hκ => ?_)
  simp only [List.mem_cons, List.not_mem_nil, or_false, not_or] at hκ
  rw [addDelayedJob, addDelayMarkerIfNeeded_frame _ _ (by simpa using hκ.2),
    Store.xadd_of_ne _ _ _ hκ.1]

theorem joinsOnly_storeAndEnqueueJob (n d : String) (o : JobOpts) (t : ℤ) (P : Option Parent)
    (r : Option String) (hj : E j) (s : Store) :
    JoinsOnly p E s (storeAndEnqueueJob p j n d o t P r s) := by
  have hstore : JoinsOnly p E s (storeJob p j n d o t P r s) :=
    .of_frame (W := [.hash, .events]) (by decide) fun hκ => storeJob_frame _ _ _ _ _ _ _ _ _ hκ
  have hwaiting : ∀ s', JoinsOnly p E s' (s'.xadd p (.waiting j none)) := fun s' =>
    .of_frame (W := [.events]) (by decide) fun hκ => Store.xadd_of_ne _ _ _ (by simpa using hκ)
  simp only [storeAndEnqueueJob]
  split
  · exact hstore.trans (joinsOnly_addDelayedJob _ _ hj _)
  · refine (hstore.trans ?_).trans (hwaiting _)
    split
    · exact joinsOnly_addJobWithPriority _ _ hj _
    · exact joinsOnly_addJobInTargetList _ _ hj _

theorem joinsOnly_promoteDelayedJob (hj : E j) (s : Store) :
    JoinsOnly p E s (promoteDelayedJob p s j) := by
  have hlast : ∀ s', JoinsOnly p E s' ((s'.xadd p (.waiting j (some "delayed"))).hset (p ++ j)
      fun job => { job with delay := some 0 }) := fun s' => by
    refine .of_frame (W := [.events, .hash]) (by decide) fun hκ => ?_
    simp only [List.mem_cons, List.not_mem_nil, or_false, not_or] at hκ
    rw [Store.hset_of_ne _ _ _ hκ.2, Store.xadd_of_ne _ _ _ hκ.1]
  refine .trans ?_ (hlast _)
  split
  · exact joinsOnly_push .lpush hj s
  · have hcount : JoinsOnly p E s (s.modify .pc p (· + 1)) :=
      .of_frame (W := [.pc]) (by decide) fun hκ => Keyspace.modify_of_ne _ (by simpa using hκ) ..
    exact hcount.trans (joinsOnly_zadd _ hj _)

theorem joinsOnly_foldl {α : Type} {f : Store → α → Store} {l : List α}
    (hf : ∀ a ∈ l, ∀ s, JoinsOnly p E s (f s a)) (s : Store) : JoinsOnly p E s (l.foldl f s) := by
  induction l generalizing s with
  | nil => exact .refl s
  | cons a l ih =>
    exact (hf a (by simp) s).trans (ih (fun b hb => hf b (by simp [hb])) _)

/-- Promotion brings nobody into line who was not delayed. -/
theorem inLine_promoteDelayedJobs (t : ℤ) (b : Bool) (s : Store) {q i : String}
    (hi : InLine (promoteDelayedJobs p t b s) q i) : InLine s q i := by
  have hdue : ∀ j ∈ dueJobs p t s, j ∈ s (.zset .delayed) p := fun j hj =>
    (SortedSet.rangeByScore_sublist _ _ _).subset (List.mem_of_mem_take hj)
  have hjoin : JoinsOnly p (· ∈ dueJobs p t s) s (promoteDelayedJobs p t b s) := by
    simp only [promoteDelayedJobs]
    split
    · exact .refl s
    · have hleave : JoinsOnly p (· ∈ dueJobs p t s) s
          (s.modify (.zset .delayed) p (·.zremAll (dueJobs p t s))) :=
        joinsOnly_zset fun _ hi => .inl (SortedSet.mem_zremAll.mp hi).1
      exact hleave.trans ((joinsOnly_foldl (fun j hj => joinsOnly_promoteDelayedJob hj) _).trans
        (.of_frame (W := [.marker]) (by decide) fun hκ => addBaseMarkerIfNeeded_frame _ _ _ hκ))
  obtain hi | ⟨rfl, hi⟩ := hjoin q i hi
  · exact hi
  · exact .inl (hdue i hi)

theorem inLine_rpoplpush (s : Store) {q i : String} (hi : InLine (rpoplpush p s).2 q i) :
    InLine s q i := by
  obtain ⟨-, heq⟩ | ⟨j, l, hl, heq⟩ := rpoplpush_cases p s <;> rw [heq] at hi
  · exact hi
  · have hpop : JoinsOnly p (fun _ => False) s
        ((s.set (.list .wait) p l).modify (.list .active) p (lpush j)) := by
      have hset : JoinsOnly p (fun _ => False) s (s.set (.list .wait) p l) :=
        joinsOnly_list (f := fun _ => l) fun i hi => .inl (by rw [hl]; simp [hi])
      exact hset.trans (.of_frame (W := [.list .active]) (by decide) fun hκ =>
        Keyspace.modify_of_ne _ (by simpa using hκ) ..)
    exact (hpop q i hi).resolve_right And.right

theorem inLine_moveJobFromPrioritizedToActive (s : Store) {q i : String}
    (hi : InLine (moveJobFromPrioritizedToActive p s).2 q i) : InLine s q i := by
  obtain ⟨-, heq⟩ | ⟨j, hj, heq⟩ := moveJobFromPrioritizedToActive_cases p s <;> rw [heq] at hi
  · have hset : JoinsOnly p (fun _ => False) s (s.set .pc p (0 : ℕ)) :=
      .of_frame (W := [.pc]) (by decide) fun hκ => Keyspace.set_of_ne _ (by simpa using hκ) ..
    exact (hset q i hi).resolve_right And.right
  · have hpop : JoinsOnly p (fun _ => False) s
        ((s.modify (.zset .prioritized) p (·.zrem j)).modify (.list .active) p (lpush j)) :=
      (joinsOnly_zrem _ _ _).trans (.of_frame (W := [.list .active]) (by decide) fun hκ =>
        Keyspace.modify_of_ne _ (by simpa using hκ) ..)
    exact (hpop q i hi).resolve_right And.right

theorem inLine_modify_active (s : Store) (f : List String → List String) {q i : String} :
    InLine (s.modify (.list .active) p f) q i ↔ InLine s q i :=
  inLine_congr (Keyspace.modify_of_ne _ (by decide) ..) (Keyspace.modify_of_ne _ (by decide) ..)
    (Keyspace.modify_of_ne _ (by decide) ..) (Keyspace.modify_of_ne _ (by decide) ..)

theorem inLine_popForMoveToActive (s : Store) {q i : String}
    (hi : InLine (popForMoveToActive p s).2 q i) : InLine s q i := by
  have hpast : ∀ {q i}, InLine (rpoplpushPastMarker p s).2 q i → InLine s q i := by
    intro q i hi
    have hpop := inLine_rpoplpush (p := p) s (q := q) (i := i)
    rcases hres : rpoplpush p s with ⟨_ | j, s₁⟩ <;> rw [hres] at hpop <;>
      simp only [rpoplpushPastMarker, hres] at hi
    · exact hpop hi
    · split at hi
      · exact hpop ((inLine_modify_active _ _).mp (inLine_rpoplpush _ hi))
      · exact hpop hi
  have hpast' := @hpast q i
  rcases hres : rpoplpushPastMarker p s with ⟨_ | j, s₁⟩ <;> rw [hres] at hpast' <;>
    simp only [popForMoveToActive, hres] at hi
  · exact hpast' (inLine_moveJobFromPrioritizedToActive _ hi)
  · exact hpast' hi

theorem inLine_popForFetchNextJob (s : Store) {q i : String}
    (hi : InLine (popForFetchNextJob p s).2 q i) : InLine s q i := by
  have hpop := inLine_rpoplpush (p := p) s (q := q) (i := i)
  rcases hres : rpoplpush p s with ⟨_ | j, s₁⟩ <;> rw [hres] at hpop <;>
    simp only [popForFetchNextJob, hres] at hi
  · exact hpop (inLine_moveJobFromPrioritizedToActive _ hi)
  · split at hi
    · split at hi
      · exact hpop ((inLine_modify_active _ _).mp (inLine_moveJobFromPrioritizedToActive _ hi))
      · exact hpop ((inLine_modify_active _ _).mp hi)
    · exact hpop hi

/-- A fetch brings nobody into line, if its pop does not. -/
theorem inLine_fetchWith {pop : String → Store → Popped × Store}
    (hpop : ∀ s {q i}, InLine (pop p s).2 q i → InLine s q i) (t : ℤ) (o : FetchOpts) (s : Store)
    {q i : String} (hi : InLine (fetchWith pop p t o s).2 q i) : InLine s q i := by
  have hstart : InLine (startFetch p t o s).2 q i → InLine s q i := fun hi =>
    inLine_promoteDelayedJobs t _ s ((inLine_congr (getRateLimitTTL_frame _ _ _ (by decide))
      (getRateLimitTTL_frame _ _ _ (by decide)) (getRateLimitTTL_frame _ _ _ (by decide))
      (getRateLimitTTL_frame _ _ _ (by decide))).mp hi)
  have htake : ∀ m d s', InLine (takeJob pop p t m d o s').2 q i → InLine s' q i := by
    intro m d s' hi
    have hp := hpop s' (q := q) (i := i)
    rcases hres : pop p s' with ⟨popped, s₁⟩
    rw [hres] at hp
    simp only [takeJob, hres] at hi
    cases popped with
    | job j =>
      exact hp ((inLine_congr (prepareJobForProcessing_frame _ _ _ _ _ _ _ (by decide))
        (prepareJobForProcessing_frame _ _ _ _ _ _ _ (by decide))
        (prepareJobForProcessing_frame _ _ _ _ _ _ _ (by decide))
        (prepareJobForProcessing_frame _ _ _ _ _ _ _ (by decide))).mp hi)
    | nothing => exact hp hi
    | failed => exact hp hi
  simp only [fetchWith] at hi
  split at hi
  · exact hstart hi
  · split at hi
    · exact hstart hi
    · exact hstart (htake _ _ _ hi)

end Lines

/-! ### Scripts that store no iteration -/

section Scripts

variable {s s' : Store} {p : String}

theorem quiet_moveToActive (t : ℤ) (o : FetchOpts) (s : Store) :
    Quiet s (Script.moveToActive p t o s).2 :=
  .of_evolves (W := fetchWrites) (by decide) (moveToActive_evolves p s t o)
    (fun _ _ hi => inLine_fetchWith inLine_popForMoveToActive t o s hi)
    fun hκ => Script.moveToActive_frame _ _ _ _ hκ

theorem quiet_fetchOrDrain (a : FinishArgs) (s : Store) : Quiet s (fetchOrDrain p a s).2 := by
  have hdrain : ∀ s', Quiet s' (emitDrained p s') := fun s' =>
    .of_frame (W := [.events]) (by decide) fun hκ => emitDrained_frame _ _ (by simpa using hκ)
  have hfetch : Quiet s (fetchNextJob p a.timestamp a.opts s).2 :=
    .of_evolves (W := fetchWrites) (by decide) (fetchNextJob_evolves p s _ _)
      (fun _ _ hi => inLine_fetchWith inLine_popForFetchNextJob _ _ s hi)
      fun hκ => fetchNextJob_frame _ _ _ _ hκ
  simp only [fetchOrDrain]
  split
  · split
    · exact hfetch
    · exact hfetch.trans (hdrain _)
  · exact hdrain s

/-- With no parent and no payload anywhere, a finished job concerns nobody else. -/
theorem quiet_settleFinished (a : FinishArgs) (hparent : ∀ k, s.parentOf k = none)
    (hnext : ∀ k, s .dn k = none) : Quiet s (settleFinished p a s) := by
  have hrequeue : ∀ d t (s' : Store), s' .dn = s .dn → requeueDeduplicatedJob p d t s' = s' := by
    intro d t s' hs'
    cases d with
    | none => rfl
    | some d => simp only [requeueDeduplicatedJob, hs', hnext]
  simp only [settleFinished, hparent, notifyParent]
  rw [hrequeue]
  · refine .of_frame (W := [.metaMaxLenEvents, .events, .de]) (by decide) fun hκ => ?_
    rw [removeDeduplicationKeyIfNeededOnFinalization_frame _ _ _ _ (by rintro rfl; simp at hκ),
      trimEvents_frame _ _ (Kind.notMem_mono hκ (by decide))]
  · rw [removeDeduplicationKeyIfNeededOnFinalization_frame _ _ _ _ (by decide),
      trimEvents_frame _ _ (by decide)]

theorem quiet_recordFinished (a : FinishArgs) (s : Store) : Quiet s (recordFinished p a s) := by
  have hrecord : ∀ s : Store, Evolves s (s.hset (p ++ a.jobId) a.record) := fun s =>
    .hset s _ fun job => by unfold FinishArgs.record; split <;> exact ⟨rfl, le_rfl⟩
  have hdefa : ∀ s : Store,
      Evolves s (s.hdel (p ++ a.jobId) fun job => { job with defa := none }) :=
    fun s => .hdel s _ fun _ => ⟨rfl, le_rfl⟩
  have hevolves : Evolves s (recordFinished p a s) := by
    have hadd : Evolves s (s.modify (.zset a.target.zset) p (·.zadd a.timestamp a.jobId)) :=
      .of_hash (Keyspace.modify_of_ne _ (by simp) ..)
    simp only [recordFinished]
    split
    · exact hadd.trans ((hrecord _).trans (hdefa _))
    · exact hadd.trans (hrecord _)
  refine .of_evolves_frame (W := [.hash, .zset a.target.zset]) ?_ hevolves
    fun hκ => recordFinished_frame _ _ _ hκ
  cases a.target <;> decide

/-- A finished job without a parent is kept, or deleted alone. -/
theorem quiet_keepOrRemove (a : FinishArgs) (hparent : ∀ k, s.parentOf k = none) :
    Quiet s (keepOrRemove p none a s) := by
  simp only [keepOrRemove]
  split
  · refine keepFinished_rule (I := Quiet s) (fun s' hs' => hs'.trans (quiet_recordFinished a s'))
      (fun s' f hs' => hs'.trans ?_) (fun s' j hs' => hs'.trans ?_) (.refl s)
    · refine .of_frame (W := [.zset a.target.zset]) ?_
        (fun hκ => Keyspace.modify_of_ne _ (by simpa using hκ) ..)
      cases a.target <;> decide
    · have hnone : s'.parentOf (p ++ j) = none := hs'.parents _ (hparent _)
      simp only [removeJob, removeParentDependencyKey, hnone]
      exact .removeJobKeys _ _
  · exact .removeJobKeys _ _

theorem quiet_finishJob (a : FinishArgs) (hparent : ∀ k, s.parentOf k = none)
    (hnext : ∀ k, s .dn k = none) : Quiet s (finishJob p a s) := by
  have hsettle := quiet_settleFinished (p := p) a hparent hnext
  have hattempt : ∀ s : Store,
      Evolves s (s.hset (p ++ a.jobId) fun job => { job with atm := job.atm + 1 }) :=
    fun s => .hset s _ fun _ => ⟨rfl, le_rfl⟩
  have hcount := hsettle.trans (.of_evolves_frame (W := [.hash]) (by decide) (hattempt _)
    fun hκ => Store.hset_of_ne _ _ _ (by simpa using hκ))
  have hkeep := hcount.trans (quiet_keepOrRemove (p := p) a
    fun k => hcount.parents k (hparent k))
  have hemit : ∀ n s', Quiet s' (emitFinished p a n s') := fun n s' =>
    .of_frame (W := [.events]) (by decide) fun hκ => emitFinished_frame _ _ _ _ (by simpa using hκ)
  simp only [finishJob, hparent]
  split
  · exact (hkeep.trans (hemit _ _)).trans (.of_frame (W := [.metrics]) (by decide)
      fun hκ => collectMetrics_frame _ _ _ _ (by simpa using hκ))
  · exact hkeep.trans (hemit _ _)

theorem quiet_moveToFinished (a : FinishArgs) (hparent : ∀ k, s.parentOf k = none)
    (hnext : ∀ k, s .dn k = none) : Quiet s (Script.moveToFinished p a s).2 := by
  obtain ⟨-, n, -, -, hres⟩ | ⟨-, hres⟩ | ⟨-, hres⟩ :=
    Script.moveToFinished_cases p a s <;> rw [hres]
  · exact .refl s
  · exact .of_evolves_frame (W := [.lock, .stalled, .hash]) (by decide)
      (releasedJob_evolves p _ s _ _)
      fun hκ => releasedJob_frame _ _ _ _ _ hκ
  · have hleft : Quiet s (leftActive p a.jobId a.opts.token a.fieldsToUpdate s) :=
      .of_evolves_frame (W := [.lock, .stalled, .hash, .list .active]) (by decide)
        (leftActive_evolves p _ s _ _) fun hκ => leftActive_frame _ _ _ _ _ hκ
    have hfinish := hleft.trans (quiet_finishJob (p := p) a
      (fun k => hleft.parents k (hparent k)) fun k => hleft.payloads k (hnext k))
    exact hfinish.trans (quiet_fetchOrDrain a _)

theorem quiet_promote (j : String) (s : Store) : Quiet s (Script.promote p j s).2 := by
  have hjoin : JoinsOnly p (· ∈ s (.zset .delayed) p) s (Script.promote p j s).2 := by
    simp only [Script.promote]
    split
    · next hj =>
      have hleave : JoinsOnly p (· ∈ s (.zset .delayed) p) s
          (dropHeadMarker p (s.modify (.zset .delayed) p (·.zrem j))) := by
        refine (joinsOnly_zrem _ _ _).trans (joinsOnly_list fun i hi => .inl ?_)
        split at hi
        · next hl =>
          split at hi
          · rw [hl]
            exact List.mem_cons_of_mem _ hi
          · exact hi
        · exact hi
      have hlast : ∀ s', JoinsOnly p (· ∈ s (.zset .delayed) p) s'
          ((s'.xadd p (.waiting j (some "delayed"))).hset (p ++ j)
            fun job => { job with delay := some 0 }) := fun s' => by
        refine .of_frame (W := [.hash, .events]) (by decide) fun hκ => ?_
        simp only [List.mem_cons, List.not_mem_nil, or_false, not_or] at hκ
        rw [Store.hset_of_ne _ _ _ hκ.1, Store.xadd_of_ne _ _ _ hκ.2]
      refine .trans (hleave.trans ?_) (hlast _)
      split
      · exact joinsOnly_addJobInTargetList _ _ hj _
      · exact joinsOnly_addJobWithPriority _ _ hj _
    · exact .refl s
  refine .of_evolves (W := promotionWrites) (by decide) (promote_evolves p j s) (fun q i hi => ?_)
    fun hκ => Script.promote_frame _ _ _ hκ
  obtain hi | ⟨rfl, hi⟩ := hjoin q i hi
  · exact hi
  · exact .inl hi

/-- Pausing and resuming move no job while the legacy paused list is empty. -/
theorem quiet_pause (b e : Bool) (hempty : s (.list .paused) p = []) :
    Quiet s (Script.pause p b e s).2 := by
  refine .of_frame (W := [.metaPaused, .marker, .events]) (by decide) fun {κ} hκ => ?_
  simp only [List.mem_cons, List.not_mem_nil, or_false, not_or] at hκ
  obtain ⟨hpaused, hmark, hev⟩ := hκ
  have hmove : (if b then pauseQueue p s else resumeQueue p s) κ = s κ := by
    split
    · rw [pauseQueue, Keyspace.set_of_ne _ hmark, Keyspace.set_of_ne _ hpaused]
    · have hstay : drainPaused p (s.set .metaPaused p false) = s.set .metaPaused p false := by
        simp only [drainPaused]
        rw [if_pos]
        rw [Keyspace.set_of_ne _ (by decide)]
        exact hempty
      rw [resumeQueue, hstay, markResumed]
      split
      · rw [Keyspace.modify_of_ne _ hmark, Keyspace.set_of_ne _ hpaused]
      · rw [addDelayMarkerIfNeeded_frame _ _ (by simpa using hmark),
          Keyspace.set_of_ne _ hpaused]
  simp only [Script.pause]
  split
  · rw [Store.xadd_of_ne _ _ _ hev, hmove]
  · exact hmove

end Scripts

/-! ### The invariant -/

/-- The pending jobs of a queue are the iterations that the `repeat` set names, and nothing is
there that would bring a job back into line: no parents, no payloads of deduplication and no legacy
paused list. -/
structure SchedulerInv (p : String) (s : Store) : Prop where
  pending : ∀ S j, PendingJob s p S j → ∃ m, (s .repeatSet p).zscore S = some m ∧
    j = iterationId S m
  parentless : ∀ k, s.parentOf k = none
  noPayload : ∀ k, s .dn k = none
  noPaused : s (.list .paused) p = []

/-- A scheduler has no pending job. -/
def NonePending (s : Store) (p S : String) : Prop := ∀ j, ¬ PendingJob s p S j

section Invariant

variable {s s' : Store} {p S : String}

theorem Quiet.pendingJob (h : Quiet s s') {j : String} (hj : PendingJob s' p S j) :
    PendingJob s p S j :=
  ⟨h.awaits S _ hj.1, h.inLine p j hj.2⟩

theorem SchedulerInv.of_quiet (h : SchedulerInv p s) (hs : Quiet s s') : SchedulerInv p s' where
  pending S j hj := by
    rw [hs.repeatSet]
    exact h.pending S j (hs.pendingJob hj)
  parentless k := hs.parents k (h.parentless k)
  noPayload k := hs.payloads k (h.noPayload k)
  noPaused := hs.paused p h.noPaused

theorem SchedulerInv.empty (p : String) : SchedulerInv p .empty where
  pending S j hj := by
    obtain ⟨⟨job, hjob, -⟩, -⟩ := hj
    cases hjob
  parentless _ := rfl
  noPayload _ := rfl
  noPaused := rfl

/-- A scheduler without a pending job can be given any time. -/
theorem SchedulerInv.rescore (h : SchedulerInv p s) (hnone : NonePending s p S) (m : ℤ)
    (hset : s' .repeatSet p = (s .repeatSet p).zadd m S)
    (hs : ∀ κ ∉ [Kind.repeatSet, .scheduler, .id], s' κ = s κ) : SchedulerInv p s' where
  pending S' j hj := by
    have hold : PendingJob s p S' j := by
      obtain ⟨⟨job, hjob, hats⟩, hline⟩ := hj
      rw [hs _ (by decide)] at hjob
      exact ⟨⟨job, hjob, hats⟩, (inLine_congr (hs _ (by decide)) (hs _ (by decide))
        (hs _ (by decide)) (hs _ (by decide))).mp hline⟩
    have hne : S' ≠ S := by
      rintro rfl
      exact hnone j hold
    obtain ⟨m', hm', hj'⟩ := h.pending S' j hold
    exact ⟨m', by rw [hset, SortedSet.zscore_zadd, if_neg hne, hm'], hj'⟩
  parentless k := by
    rw [Store.parentOf, hs _ (by decide)]
    exact h.parentless k
  noPayload k := by
    rw [hs _ (by decide)]
    exact h.noPayload k
  noPaused := by
    rw [hs _ (by decide)]
    exact h.noPaused

/-- Storing the iteration that the `repeat` set names. -/
theorem SchedulerInv.enqueue (h : SchedulerInv p s) {m : ℤ}
    (hm : (s .repeatSet p).zscore S = some m) (n d : String) (o : JobOpts) (t r : ℤ) :
    SchedulerInv p (addJobFromScheduler p (iterationId S m) n d o t S r s) := by
  set i := iterationId S m with hi
  set s' := addJobFromScheduler p i n d o t S r s with hs'
  have hframe : ∀ κ ∉ enqueueWrites, s' κ = s κ := fun κ hκ =>
    storeAndEnqueueJob_frame _ _ _ _ _ _ _ _ _ hκ
  have hhash : s' .hash = storeJob p i n d { o with delay := r } t none (some S) s .hash :=
    storeAndEnqueueJob_hash ..
  have hother : ∀ k, k ≠ p ++ i → s' .hash k = s .hash k := fun k hk => by
    rw [hhash, storeJob, Store.xadd_of_ne _ _ _ (by decide), Store.hset_hash, if_neg hk]
  have hjoin : JoinsOnly p (· = i) s s' :=
    joinsOnly_storeAndEnqueueJob (E := (· = i)) _ _ _ _ _ _ rfl s
  refine ⟨fun S' j hj => ?_, fun k => ?_, fun k => ?_, ?_⟩
  · rw [hframe _ (by decide)]
    obtain ⟨⟨job, hjob, hrjk, hats⟩, hline⟩ := hj
    -- A pending job is the iteration just stored, or was pending before.
    by_cases hji : j = i
    · subst hji
      rw [hhash, storeJob, Store.xadd_of_ne _ _ _ (by decide), Store.hset_hash, if_pos rfl] at hjob
      obtain rfl := Option.some.inj hjob
      obtain rfl : S = S' := by simpa using hrjk
      exact ⟨m, hm, hi⟩
    · rw [hother _ fun hk => hji ((String.append_right_inj p).mp hk)] at hjob
      refine h.pending S' j ⟨⟨job, hjob, hrjk, hats⟩, (hjoin p j hline).resolve_right ?_⟩
      exact fun hE => hji hE.2
  · by_cases hk : k = p ++ i
    · have hnone := h.parentless k
      rw [Store.parentOf, hhash, storeJob, Store.xadd_of_ne _ _ _ (by decide), Store.hset_hash,
        if_pos hk]
      rw [Store.parentOf] at hnone
      cases hold : s .hash k with
      | none => rfl
      | some job =>
        rw [hold] at hnone
        simpa using hnone
    · rw [Store.parentOf, hother k hk]
      exact h.parentless k
  · rw [hframe _ (by decide)]
    exact h.noPayload k
  · rw [hframe _ (by decide)]
    exact h.noPaused

/-! ### Taking out the pending iteration -/

/-- A job of the scheduler that has never been activated is in the wait list of a paused queue. -/
def HiddenByPause (s : Store) (p S : String) : Prop :=
  s .metaPaused p = true ∧ ∃ j ∈ s (.list .wait) p, Awaits s S (p ++ j)

theorem quiet_removeDeduplicationKeyIfNeededOnRemoval (j : String) (d : Option String) (s : Store) :
    Quiet s (removeDeduplicationKeyIfNeededOnRemoval p j d s) := by
  have hs : ∀ κ ∉ [Kind.de, .dn], removeDeduplicationKeyIfNeededOnRemoval p j d s κ = s κ :=
    fun κ hκ => removeDeduplicationKeyIfNeededOnRemoval_frame _ _ _ _ hκ
  have hevolves : Evolves s (removeDeduplicationKeyIfNeededOnRemoval p j d s) :=
    .of_hash (hs _ (by decide))
  refine ⟨fun S k => hevolves.awaits, fun q i => ?_, hs _ (by decide), fun k hk => ?_,
    fun k hk => ?_,
    fun q hq => ?_⟩
  · exact (inLine_congr (hs _ (by decide)) (hs _ (by decide)) (hs _ (by decide))
      (hs _ (by decide))).mp
  · exact (hevolves.parentOf k).trans hk
  · unfold removeDeduplicationKeyIfNeededOnRemoval
    split
    · exact hk
    · simp only
      split
      · rw [Keyspace.set_self, Function.update_apply]
        split
        · rfl
        · rw [Keyspace.set_of_ne _ (by decide)]
          exact hk
      · exact hk
  · rw [hs _ (by decide)]
    exact hq

/-- Without parents a hard removal deletes the job alone. -/
theorem quiet_removeJobHard (hparent : ∀ k, s.parentOf k = none) (j : String) :
    Quiet s (removeJobHard p s j) := by
  have hunlink : removeParentDependencyKeyHard p (p ++ j) s = s := by
    rw [removeParentDependencyKeyHard, unlinkHard, hparent]
  simp only [removeJobHard, hunlink]
  exact (quiet_removeDeduplicationKeyIfNeededOnRemoval _ _ s).trans (.removeJobKeys _ _)

theorem quiet_lrem (l : ListKey) (j : String) (s : Store) :
    Quiet s (s.modify (.list l) p (lremLeft j)) := by
  have hs : ∀ κ ≠ .list l, s.modify (.list l) p (lremLeft j) κ = s κ := fun κ hκ =>
    Keyspace.modify_of_ne _ hκ ..
  have hevolves : Evolves s (s.modify (.list l) p (lremLeft j)) := .of_hash (hs _ (by simp))
  have hjoin : JoinsOnly p (fun _ => False) s (s.modify (.list l) p (lremLeft j)) :=
    joinsOnly_list fun i hi => .inl (List.mem_of_mem_erase hi)
  refine ⟨fun S k => hevolves.awaits, fun q i hi => (hjoin q i hi).resolve_right And.right,
    hs _ (by simp), fun k hk => (hevolves.parentOf k).trans hk, fun k hk => ?_, fun q hq => ?_⟩
  · rw [hs _ (by simp)]
    exact hk
  · by_cases hl : l = .paused
    · subst hl
      rw [Keyspace.modify_self, Function.update_apply]
      split
      · next hqp => rw [← hqp, hq]; rfl
      · exact hq
    · rw [hs _ (by simpa using Ne.symm hl)]
      exact hq

theorem quiet_zrem (z : ZSetKey) (j : String) (s : Store) :
    Quiet s (s.modify (.zset z) p (·.zrem j)) := by
  have hjoin : JoinsOnly p (fun _ => False) s (s.modify (.zset z) p (·.zrem j)) :=
    joinsOnly_zrem z j s
  refine .of_evolves (W := [.zset z]) ?_ (.of_hash (Keyspace.modify_of_ne _ (by simp) ..))
    (fun q i hi => (hjoin q i hi).resolve_right And.right)
    fun hκ => Keyspace.modify_of_ne _ (by simpa using hκ) ..
  cases z <;> decide

/-- The pending jobs are those the upsert looks for. -/
theorem SchedulerInv.pendingIteration_eq (h : SchedulerInv p s) {j : String}
    (hj : PendingJob s p S j) : pendingIteration p S s = some j := by
  obtain ⟨m, hm, rfl⟩ := h.pending S j hj
  obtain ⟨job, hjob, -⟩ := hj.1
  have hex : s.jobExists (p ++ iterationId S m) = true := by simp [Store.jobExists, hjob]
  simp [pendingIteration, hm, hex]

/-- **The removal in an upsert** leaves the scheduler no pending job, unless the queue is paused
and has it in its wait list. -/
theorem SchedulerInv.removePendingIteration (h : SchedulerInv p s) (hseen : ¬ HiddenByPause s p S) :
    SchedulerInv p (removePendingIteration p S s).2 ∧
      NonePending (BullMQ.removePendingIteration p S s).2 p S := by
  -- With its hash deleted the iteration is pending no longer, and it was the only one.
  have hgone : ∀ {i t}, pendingIteration p S s = some i → Quiet s t → t .hash (p ++ i) = none →
      SchedulerInv p t ∧ NonePending t p S := by
    intro i t hi hquiet hnone
    refine ⟨h.of_quiet hquiet, fun j hj => ?_⟩
    have hji := h.pendingIteration_eq (hquiet.pendingJob hj)
    obtain rfl : i = j := Option.some.inj (hi.symm.trans hji)
    obtain ⟨⟨job, hjob, -⟩, -⟩ := hj
    rw [hnone] at hjob
    cases hjob
  have hhash : ∀ (s' : Store) i, removeJobHard p s' i .hash (p ++ i) = none := fun s' i => by
    rw [removeJobHard_hash, if_pos rfl]
  unfold BullMQ.removePendingIteration
  split
  · next i hi =>
    unfold removeJobFromScheduler
    split
    · refine hgone hi ((quiet_removeJobHard h.parentless i).trans (quiet_zrem _ _ _)) ?_
      rw [Keyspace.modify_of_ne _ (by decide), hhash]
    · next hdel =>
      split
      · refine hgone hi ((quiet_removeJobHard h.parentless i).trans (quiet_zrem _ _ _)) ?_
        rw [Keyspace.modify_of_ne _ (by decide), hhash]
      · next hprio =>
        split
        · have hlrem := quiet_lrem (p := p) (pausedOrWait p s) i s
          exact hgone hi (hlrem.trans (quiet_removeJobHard
            (fun k => hlrem.parents k (h.parentless k)) i)) (hhash _ i)
        · next hlist =>
          refine ⟨h, fun j hj => ?_⟩
          obtain rfl : i = j := Option.some.inj (hi.symm.trans (h.pendingIteration_eq hj))
          obtain ⟨hawaits, hline | hline | hline | hline⟩ := hj
          · exact hdel hline
          · exact hprio hline
          · by_cases hpaused : s .metaPaused p = true
            · exact hseen ⟨hpaused, i, hline, hawaits⟩
            · exact hlist (by rwa [pausedOrWait, if_neg hpaused])
          · rw [h.noPaused] at hline
            cases hline
  · next hnone =>
    refine ⟨h, fun j hj => ?_⟩
    rw [h.pendingIteration_eq hj] at hnone
    cases hnone

/-! ### The scheduler's scripts -/

theorem SchedulerInv.storeIteration {a : UpsertArgs} (h : SchedulerInv p s)
    (hnone : NonePending s p a.jobSchedulerId) (o : SchedulerOpts) (m : ℤ) :
    SchedulerInv p (storeIteration p a o m s).2 := by
  have hset : ((storeJobScheduler p a.jobSchedulerId m o a.templateData s).modify .id p (· + 1))
      .repeatSet p = (s .repeatSet p).zadd m a.jobSchedulerId := by
    rw [Keyspace.modify_of_ne _ (by decide), storeJobScheduler, Keyspace.modify_of_ne _ (by decide),
      Keyspace.modify_self, Function.update_self]
  have hrescored := h.rescore hnone m hset fun κ hκ => by
    simp only [List.mem_cons, List.not_mem_nil, or_false, not_or] at hκ
    rw [Keyspace.modify_of_ne _ hκ.2.2, storeJobScheduler, Keyspace.modify_of_ne _ hκ.2.1,
      Keyspace.modify_of_ne _ hκ.1]
  refine hrescored.enqueue ?_ _ _ _ _ _
  rw [hset, SortedSet.zscore_zadd, if_pos rfl]

theorem SchedulerInv.addJobScheduler (h : SchedulerInv p s) {a : UpsertArgs}
    (hseen : ¬ HiddenByPause s p a.jobSchedulerId) :
    SchedulerInv p (Script.addJobScheduler p a s).2 := by
  have hs : ∀ κ ∉ [Kind.metaMaxLenEvents], getOrSetMaxEvents p s κ = s κ := fun κ hκ =>
    getOrSetMaxEvents_frame _ _ hκ
  have hstart : SchedulerInv p (getOrSetMaxEvents p s) :=
    h.of_quiet (.of_frame (W := [.metaMaxLenEvents]) (by decide) fun hκ => hs _ hκ)
  have hseen' : ¬ HiddenByPause (getOrSetMaxEvents p s) p a.jobSchedulerId := by
    simpa only [HiddenByPause, Awaits, hs _ (by decide : Kind.metaPaused ∉ _),
      hs _ (by decide : Kind.hash ∉ _), hs _ (by decide : Kind.list .wait ∉ _)] using hseen
  rcases hrem : BullMQ.removePendingIteration p a.jobSchedulerId (getOrSetMaxEvents p s)
    with ⟨b, t⟩
  obtain ⟨ht, hnone⟩ := hstart.removePendingIteration hseen'
  rw [hrem] at ht hnone
  obtain ⟨o, m, heq, -⟩ | ⟨every, -, heq, -⟩ | ⟨-, -, heq, -⟩ :=
    Script.addJobScheduler_cases hrem <;>
    rw [heq]
  · exact ht.storeIteration hnone o m
  · exact ht
  · exact ht

/-- The worker that calls has activated its job. -/
def Activated (s : Store) (k : String) : Prop := ∀ job, s .hash k = some job → 0 < job.ats

theorem SchedulerInv.updateJobScheduler (h : SchedulerInv p s) {a : IterateArgs}
    (hact : Activated s (p ++ a.producerId)) :
    SchedulerInv p (Script.updateJobScheduler p a s).2 := by
  simp only [Script.updateJobScheduler]
  split
  · exact h
  · next prev hprev =>
    split
    · next hproducer =>
      have hquiet : Quiet s (getOrSetMaxEvents p s) :=
        .of_frame (W := [.metaMaxLenEvents]) (by decide) fun hκ => getOrSetMaxEvents_frame _ _ hκ
      have hstart := h.of_quiet hquiet
      -- The job that the `repeat` set names is the one the worker has activated.
      have hnone : NonePending (getOrSetMaxEvents p s) p a.jobSchedulerId := by
        intro j hj
        obtain ⟨m, hm, rfl⟩ := h.pending _ j (hquiet.pendingJob hj)
        obtain ⟨job, hjob, -, hats⟩ := (hquiet.pendingJob hj).1
        obtain rfl : prev = m := Option.some.inj (hprev.symm.trans hm)
        rw [← hproducer] at hjob
        exact absurd hats (hact job hjob).ne'
      split
      · exact hstart.of_quiet (.of_frame (W := [.events]) (by decide)
          fun hκ => Store.xadd_of_ne _ _ _ (by simpa using hκ))
      · have hset : ∀ (m : ℤ) f, ((((getOrSetMaxEvents p s).modify .repeatSet p
            (·.zadd m a.jobSchedulerId)).modify .scheduler (schedulerKey p a.jobSchedulerId)
              f).modify .id p (· + 1) : Store) .repeatSet p =
            SortedSet.zadd m a.jobSchedulerId (getOrSetMaxEvents p s .repeatSet p) := fun m f => by
          rw [Keyspace.modify_of_ne _ (by decide), Keyspace.modify_of_ne _ (by decide),
            Keyspace.modify_self, Function.update_self]
        have hrescored := fun m f => hstart.rescore hnone m (hset m f) fun κ hκ => by
          simp only [List.mem_cons, List.not_mem_nil, or_false, not_or] at hκ
          rw [Keyspace.modify_of_ne _ hκ.2.2, Keyspace.modify_of_ne _ hκ.2.1,
            Keyspace.modify_of_ne _ hκ.1]
        split
        · exact hrescored _ _
        · refine (hrescored _ _).enqueue ?_ _ _ _ _ _
          rw [hset, SortedSet.zscore_zadd, if_pos rfl]
    · exact h

end Invariant

/-! ### Runs -/

/-- The commands of the schedulers of a queue and of the workers on their jobs: upserts, the calls
of workers that have activated a job, fetches, finishes, promotions, pauses and resumes, and what
happens to keys with a time to live. -/
def SchedulerCommand (p : String) (s : Store) : QueueCommand → Prop
  | .addJobScheduler q _ => q = p
  | .updateJobScheduler q a => q = p ∧ Activated s (p ++ a.producerId)
  | .job (.moveToActive q ..) | .job (.moveToFinished q _) | .job (.promote q _)
  | .job (.pause q ..) => q = p
  | .job (.expireLock _) | .job (.expireStalledCheck _) | .job (.expireLimiter _)
  | .job (.elapseLimiter ..) => True
  | _ => False

/-- No upsert is made while the queue is paused and has the pending iteration in its wait list. -/
def UpsertSeesPending (s : Store) : QueueCommand → Prop
  | .addJobScheduler p a => ¬ HiddenByPause s p a.jobSchedulerId
  | _ => True

theorem SchedulerInv.exec {p : String} {s : Store} {c : QueueCommand} {r : Reply × Store}
    (h : SchedulerInv p s) (hc : SchedulerCommand p s c) (hsees : UpsertSeesPending s c)
    (hexec : c.exec s = some r) : SchedulerInv p r.2 := by
  have hframe : ∀ c : Command, c.exec s = some r → (∀ κ ∈ lineKinds, κ ∉ c.writes) →
      SchedulerInv p r.2 := fun c hexec hW =>
    h.of_quiet (.of_frame hW fun hκ => Command.exec_frame hexec hκ)
  cases c with
  | addJobScheduler q a =>
    obtain rfl : q = p := hc
    cases hexec
    exact h.addJobScheduler hsees
  | updateJobScheduler q a =>
    obtain ⟨rfl, hact⟩ := hc
    cases hexec
    exact h.updateJobScheduler hact
  | job c =>
    change c.exec s = some r at hexec
    cases c with
    | moveToActive q t o => cases hexec; exact h.of_quiet (quiet_moveToActive t o s)
    | moveToFinished q a =>
      cases hexec
      exact h.of_quiet (quiet_moveToFinished a h.parentless h.noPayload)
    | promote q j => cases hexec; exact h.of_quiet (quiet_promote j s)
    | pause q b e =>
      obtain rfl : q = p := hc
      cases hexec
      exact h.of_quiet (quiet_pause b e h.noPaused)
    | expireLock | expireStalledCheck | expireLimiter | elapseLimiter =>
      exact hframe _ hexec (by simp only [Command.writes]; decide)
    | _ => exact hc.elim
  | _ => exact hc.elim

/-- An upsert with an interval of a second. -/
def everyInterval (timestamp : ℤ) : UpsertArgs where
  nextMillis := 0
  opts := { name := "n", every := some 1000 }
  jobSchedulerId := "s"
  templateData := noTemplateData
  timestamp := timestamp


/-- The store after the first upsert of a scheduler, whose iteration is due at once. -/
def upserted : Store := (Script.addJobScheduler "bull:q:" (everyInterval 1000) .empty).2

/-- The iteration is fetched. -/
def fetched : Store :=
  (Script.moveToActive "bull:q:" 1000 { token := "t", lockDuration := 30000 } upserted).2

end BullMQ
