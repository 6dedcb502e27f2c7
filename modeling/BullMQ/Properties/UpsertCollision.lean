import BullMQ.Model.Orphans
import BullMQ.Model.QueueCommand
import BullMQ.Placement.Basic

/-!
# Upserts and existing iterations

An upsert of a job scheduler takes the pending iteration out of the queue before it looks whether
the slot of the next one is free. `upsert_safe_iff` says when that does no harm: an upsert that is
refused leaves the store as it was, and one that succeeds leaves every active, completed and failed
job alone.
-/

namespace BullMQ

open Redis Relation

/-- A job that is active, completed or failed. -/
def Settled (s : Store) (q j : String) : Prop :=
  s.jobExists (q ++ j) = true ∧
    (j ∈ s (.list .active) q ∨ j ∈ s (.zset .completed) q ∨ j ∈ s (.zset .failed) q)

/-- The containers of settled jobs. -/
def Container.isSettled : Container → Bool
  | .inl .active | .inr .completed | .inr .failed => true
  | _ => false

/-- The hash of a job, its state and its position are as they were. -/
structure Undisturbed (q j : String) (s s' : Store) : Prop where
  hash : s' .hash (q ++ j) = s .hash (q ++ j)
  state : ∀ c, countIn s' c q j ≠ 0 ↔ countIn s c q j ≠ 0
  active : s' (.list .active) q = s (.list .active) q
  completed : s' (.zset .completed) q = s (.zset .completed) q
  failed : s' (.zset .failed) q = s (.zset .failed) q

/-- A refused upsert leaves the store as it was; one that succeeds disturbs no settled job. -/
structure UpsertSafe (p : String) (a : UpsertArgs) (s : Store) : Prop where
  refused : ∀ n, n = -10 ∨ n = -11 → (Script.addJobScheduler p a s).1 = .code n →
    (Script.addJobScheduler p a s).2 = s
  stored : ∀ j d, (Script.addJobScheduler p a s).1 = .scheduled j d → ∀ q i, Settled s q i →
    Undisturbed q i s (Script.addJobScheduler p a s).2

/-- The upsert finds the pending iteration `i` and takes it out. -/
def TakesOut (p jobSchedulerId : String) (s : Store) (i : String) : Prop :=
  pendingIteration p jobSchedulerId s = some i ∧
    (i ∈ s (.zset .delayed) p ∨ i ∈ s (.zset .prioritized) p ∨ i ∈ s (.list (pausedOrWait p s)) p)

/-- Every slot that an upsert with an interval tries is taken, by another job than `i`. -/
def SlotsBusy (p jobSchedulerId : String) (i : Option String) (first every : ℤ) (s : Store) :
    Prop :=
  ∀ n : ℕ, n ≤ 32 → s.jobExists (p ++ iterationId jobSchedulerId (first + n * every)) = true ∧
    some (iterationId jobSchedulerId (first + n * every)) ≠ i

/-- The key of a job scheduler is that of no job, and the keys of its iterations are those of no
scheduler. The key of `s:1000` is that of an iteration of `s`, and `storeJobScheduler` deletes
whatever is there. -/
structure KeysApart (p jobSchedulerId : String) (s : Store) : Prop where
  scheduler : s.OnlyIn .scheduler (schedulerKey p jobSchedulerId)
  iteration : ∀ millis, s.OnlyIn .hash (p ++ iterationId jobSchedulerId millis)

/-- What an upsert relies on: its keys are its own; a pending iteration that is taken out is
replaced, by a job whose id is not that of a settled one; neither it nor a job that waits for it
alone is settled itself; and an upsert that is refused has no default to write. -/
structure UpsertOk (p : String) (a : UpsertArgs) (s : Store) : Prop where
  keys : KeysApart p a.jobSchedulerId s
  slot : ∀ i every, TakesOut p a.jobSchedulerId s i → a.opts.every = some every →
    ¬ SlotsBusy p a.jobSchedulerId (some i) (firstSlot p a true s) every s
  pattern : ∀ i, TakesOut p a.jobSchedulerId s i → a.opts.every = none → ∀ q j, Settled s q j →
    q ++ j ≠ p ++ iterationId a.jobSchedulerId a.nextMillis
  pending : ∀ i, TakesOut p a.jobSchedulerId s i → ∀ q j, Settled s q j →
    ¬ ReflTransGen (WaitsOnly s) (p ++ i) (q ++ j)
  bound : (∀ i, ¬ TakesOut p a.jobSchedulerId s i) →
    (match a.opts.every with
      | some every => SlotsBusy p a.jobSchedulerId none (firstSlot p a false s) every s
      | none => s.jobExists (p ++ iterationId a.jobSchedulerId a.nextMillis) = true) →
    (s .metaMaxLenEvents p).isSome = true

/-- Every job is in one place of one queue, and the jobs whose keys begin as those of the queue `p`
are in `p`. -/
structure PlacedOnce (p : String) (s : Store) : Prop where
  single : ∀ q j c q' j' c', countIn s c q j ≠ 0 → countIn s c' q' j' ≠ 0 → q ++ j = q' ++ j' →
    q = q' ∧ c = c'
  own : ∀ q j c, countIn s c q j ≠ 0 → ∀ i, q ++ j = p ++ i → q = p

/-! ### Jobs that are left alone -/

namespace Undisturbed

variable {q j : String} {s s' s'' : Store}

theorem trans (h : Undisturbed q j s s') (h' : Undisturbed q j s' s'') : Undisturbed q j s s'' where
  hash := h'.hash.trans h.hash
  state c := (h'.state c).trans (h.state c)
  active := h'.active.trans h.active
  completed := h'.completed.trans h.completed
  failed := h'.failed.trans h.failed

/-- A write to families that say nothing about where jobs are. -/
theorem of_frame {W : List Kind} (hW : ∀ κ ∈ placeKinds, κ ∉ W) (hs : ∀ {κ}, κ ∉ W → s' κ = s κ) :
    Undisturbed q j s s' where
  hash := by rw [hs (hW .hash (by decide))]
  state c := by
    have hc : s' c.kind = s c.kind := by
      refine hs (hW _ ?_)
      rcases c with (_ | _ | _) | (_ | _ | _ | _ | _) <;> decide
    rw [countIn_congr hc]
  active := by rw [hs (hW _ (by decide))]
  completed := by rw [hs (hW _ (by decide))]
  failed := by rw [hs (hW _ (by decide))]

end Undisturbed

theorem countIn_inl_ne_zero {s : Store} {l : ListKey} {p j : String} :
    countIn s (.inl l) p j ≠ 0 ↔ j ∈ s (.list l) p :=
  mem_list_iff.symm

theorem countIn_inr_ne_zero {s : Store} {z : ZSetKey} {p j : String} :
    countIn s (.inr z) p j ≠ 0 ↔ j ∈ s (.zset z) p :=
  mem_zset_iff.symm

/-- A write to the container of a queue, other than those of settled jobs, that does not concern
the id. -/
theorem undisturbed_modify_list {s : Store} {p q j : String} {l : ListKey}
    {f : List String → List String} (hl : l ≠ .active)
    (h : q = p → (j ∈ f (s (.list l) p) ↔ j ∈ s (.list l) p)) :
    Undisturbed q j s (s.modify (.list l) p f) where
  hash := by rw [Keyspace.modify_of_ne _ (by simp)]
  state c := by
    by_cases hc : c = .inl l
    · subst hc
      rw [countIn_inl_ne_zero, countIn_inl_ne_zero, Keyspace.modify_self, Function.update_apply]
      split
      · next hq =>
        rw [h hq, hq]
      · rfl
    · have hkind : (s.modify (.list l) p f) c.kind = s c.kind :=
        modify_notMem (κ := .list l) (kind_ne_of_ne (c := .inl l) hc)
      rw [countIn_congr hkind]
  active := by rw [Keyspace.modify_of_ne _ (by simpa using hl.symm)]
  completed := by rw [Keyspace.modify_of_ne _ (by simp)]
  failed := by rw [Keyspace.modify_of_ne _ (by simp)]

theorem undisturbed_modify_zset {s : Store} {p q j : String} {z : ZSetKey} {f : ZSet → ZSet}
    (hz : z ≠ .completed ∧ z ≠ .failed)
    (h : q = p → (j ∈ f (s (.zset z) p) ↔ j ∈ s (.zset z) p)) :
    Undisturbed q j s (s.modify (.zset z) p f) where
  hash := by rw [Keyspace.modify_of_ne _ (by simp)]
  state c := by
    by_cases hc : c = .inr z
    · subst hc
      rw [countIn_inr_ne_zero, countIn_inr_ne_zero, Keyspace.modify_self, Function.update_apply]
      split
      · next hq => rw [h hq, hq]
      · rfl
    · have hkind : (s.modify (.zset z) p f) c.kind = s c.kind :=
        modify_notMem (κ := .zset z) (kind_ne_of_ne (c := .inr z) hc)
      rw [countIn_congr hkind]
  active := by rw [Keyspace.modify_of_ne _ (by simp)]
  completed := by rw [Keyspace.modify_of_ne _ (by simpa using hz.1.symm)]
  failed := by rw [Keyspace.modify_of_ne _ (by simpa using hz.2.symm)]

section Store

variable {s : Store} {p i q j : String}

theorem ne_of_key_ne (h : q ++ j ≠ p ++ i) (hq : q = p) : j ≠ i := by
  rintro rfl
  exact h (by rw [hq])

theorem undisturbed_storeJob (h : q ++ j ≠ p ++ i) (n d : String) (o : JobOpts) (t : ℤ)
    (P : Option Parent) (r : Option String) : Undisturbed q j s (storeJob p i n d o t P r s) := by
  have hplace : ∀ c : Container, storeJob p i n d o t P r s c.kind = s c.kind := fun c =>
    storeJob_frame _ _ _ _ _ _ _ _ _ (by rcases c with _ | _ <;> simp [Container.kind])
  refine ⟨?_, fun c => by rw [countIn_congr (hplace c)], ?_, ?_, ?_⟩
  · rw [storeJob, Store.xadd_of_ne _ _ _ (by decide), Store.hset_hash, if_neg h]
  · rw [storeJob_frame _ _ _ _ _ _ _ _ _ (by decide)]
  · rw [storeJob_frame _ _ _ _ _ _ _ _ _ (by decide)]
  · rw [storeJob_frame _ _ _ _ _ _ _ _ _ (by decide)]

theorem undisturbed_zadd {z : ZSetKey} (hz : z ≠ .completed ∧ z ≠ .failed) (h : q ++ j ≠ p ++ i)
    (k : ℤ) : Undisturbed q j s (s.modify (.zset z) p (·.zadd k i)) := by
  refine undisturbed_modify_zset hz fun hq => ?_
  rw [SortedSet.mem_zadd]
  exact or_iff_right (ne_of_key_ne h hq)

theorem undisturbed_addDelayedJob (h : q ++ j ≠ p ++ i) (t d : ℤ) :
    Undisturbed q j s (addDelayedJob p i t d s) := by
  have hadd := undisturbed_zadd (s := s) (z := .delayed) (by decide) h (getDelayedScore p t d s).1
  refine hadd.trans (.of_frame (W := [.events, .marker]) (by decide) fun hκ => ?_)
  simp only [List.mem_cons, List.not_mem_nil, or_false, not_or] at hκ
  rw [addDelayedJob, addDelayMarkerIfNeeded_frame _ _ (by simpa using hκ.2),
    Store.xadd_of_ne _ _ _ hκ.1]

theorem undisturbed_addJobWithPriority (h : q ++ j ≠ p ++ i) (n : ℤ) (b : Bool) :
    Undisturbed q j s (addJobWithPriority p n i b s) := by
  set s₁ : Store := s.modify .pc p (· + 1)
  have hcount : Undisturbed q j s s₁ := .of_frame (W := [.pc]) (by decide) fun hκ =>
      modify_notMem hκ
  have hadd := undisturbed_zadd (s := s₁) (z := .prioritized) (by decide) h
    (n * 0x100000000 + (s₁ .pc p : ℤ) % 0x100000000)
  exact (hcount.trans hadd).trans
    (.of_frame (W := [.marker]) (by decide) fun hκ => addBaseMarkerIfNeeded_frame _ _ _ hκ)

theorem undisturbed_addJobInTargetList (h : q ++ j ≠ p ++ i) (c : PushCmd) (b : Bool) :
    Undisturbed q j s (addJobInTargetList p c b i s) := by
  have hpush : Undisturbed q j s (s.modify (.list .wait) p (c.push i)) := by
    refine undisturbed_modify_list (by decide) fun hq => ?_
    rw [PushCmd.mem_push]
    exact or_iff_right (ne_of_key_ne h hq)
  exact hpush.trans (.of_frame (W := [.marker]) (by decide) fun hκ =>
    addBaseMarkerIfNeeded_frame _ _ _ hκ)

/-- A job that is stored and enqueued disturbs no job with another key. -/
theorem undisturbed_storeAndEnqueueJob (h : q ++ j ≠ p ++ i) (n d : String) (o : JobOpts) (t : ℤ)
    (P : Option Parent) (r : Option String) :
    Undisturbed q j s (storeAndEnqueueJob p i n d o t P r s) := by
  have hstore := undisturbed_storeJob (s := s) h n d o t P r
  have hwaiting : ∀ s', Undisturbed q j s' (s'.xadd p (.waiting i none)) := fun s' =>
    .of_frame (W := [.events]) (by decide) fun hκ => modify_notMem hκ
  simp only [storeAndEnqueueJob]
  split
  · exact hstore.trans (undisturbed_addDelayedJob h _ _)
  · refine (hstore.trans ?_).trans (hwaiting _)
    split
    · exact undisturbed_addJobWithPriority h _ _
    · exact undisturbed_addJobInTargetList h _ _

/-- A job that is stored and enqueued is in a container of jobs that are not settled. -/
theorem enqueued_storeAndEnqueueJob (p i n d : String) (o : JobOpts) (t : ℤ) (P : Option Parent)
    (r : Option String) (s : Store) :
    ∃ c : Container, c.isSettled = false ∧
      countIn (storeAndEnqueueJob p i n d o t P r s) c p i ≠ 0 := by
  simp only [storeAndEnqueueJob]
  split
  · refine ⟨.inr .delayed, rfl, countIn_inr_ne_zero.mpr ?_⟩
    rw [addDelayedJob, addDelayMarkerIfNeeded_frame _ _ (by decide),
      Store.xadd_of_ne _ _ _ (by decide), Keyspace.modify_self, Function.update_self]
    simp
  · split
    · refine ⟨.inr .prioritized, rfl, countIn_inr_ne_zero.mpr ?_⟩
      rw [Store.xadd_of_ne _ _ _ (by decide), addJobWithPriority,
        addBaseMarkerIfNeeded_frame _ _ _ (by decide), Keyspace.modify_self, Function.update_self]
      simp
    · refine ⟨.inl .wait, rfl, countIn_inl_ne_zero.mpr ?_⟩
      rw [Store.xadd_of_ne _ _ _ (by decide), addJobInTargetList,
        addBaseMarkerIfNeeded_frame _ _ _ (by decide), Keyspace.modify_self, Function.update_self]
      simp

/-- The iteration that an upsert stores disturbs no job with another key. -/
theorem undisturbed_storeIteration {a : UpsertArgs} {m : ℤ} (o : SchedulerOpts)
    (h : q ++ j ≠ p ++ iterationId a.jobSchedulerId m) :
    Undisturbed q j s (storeIteration p a o m s).2 := by
  set s₁ : Store :=
    (storeJobScheduler p a.jobSchedulerId m o a.templateData s).modify .id p (· + 1)
  have hscheduler : Undisturbed q j s s₁ := by
    refine .of_frame (W := [.repeatSet, .scheduler, .id]) (by decide) fun hκ => ?_
    simp only [List.mem_cons, List.not_mem_nil, or_false, not_or] at hκ
    rw [Keyspace.modify_of_ne _ hκ.2.2, storeJobScheduler, Keyspace.modify_of_ne _ hκ.2.1,
      Keyspace.modify_of_ne _ hκ.1]
  exact hscheduler.trans (undisturbed_storeAndEnqueueJob h _ _ _ _ _ _)

end Store

/-! ### The pending iteration -/

section Pending

variable {s t : Store} {p i q j : String}

/-- What a hard removal of `i` does to a job that does not wait for it. -/
theorem undisturbed_removeJobHard (h : ¬ ReflTransGen (WaitsOnly s) (p ++ i) (q ++ j)) :
    Undisturbed q j s (removeJobHard p s i) := by
  have hne : q ++ j ≠ p ++ i := fun heq => h (heq ▸ .refl)
  have hnot : ¬ TransGen (WaitsOnly s) (p ++ i) (q ++ j) := fun hk => h hk.to_reflTransGen
  refine ⟨?_, fun c => ?_, ?_, ?_, ?_⟩
  · rw [removeJobHard_hash, if_neg hne]
    exact unlinkHard_hash (fun hk => absurd hk hnot) _
  · have hother : c.kind ∉ hardWrites → (countIn (removeJobHard p s i) c q j ≠ 0 ↔
        countIn s c q j ≠ 0) := fun hc => by rw [countIn_congr (removeJobHard_frame p s i hc)]
    rcases c with (_ | _ | _) | (_ | _ | _ | _ | _)
    case inl.wait =>
      rw [countIn_inl_ne_zero, countIn_inl_ne_zero, removeJobHard_eq_unlink _ _ _ (by decide)]
      exact mem_wait_unlinkHard hnot _ _
    case inr.waitingChildren =>
      rw [countIn_inr_ne_zero, countIn_inr_ne_zero, removeJobHard_eq_unlink _ _ _ (by decide)]
      exact mem_waitingChildren_unlinkHard hnot _ _
    all_goals exact hother (by decide)
  · rw [removeJobHard_frame _ _ _ (by decide)]
  · rw [removeJobHard_frame _ _ _ (by decide)]
  · rw [removeJobHard_frame _ _ _ (by decide)]

/-- The effect of taking out the pending iteration `i`. -/
structure TakenOut (p i : String) (s t : Store) : Prop where
  gone : t.jobExists (p ++ i) = false
  exist : ∀ k, t.jobExists k = true → s.jobExists k = true
  kept : ∀ k, k ≠ p ++ i → keyBase k ≠ p → t .hash k = s .hash k
  undisturbed : ∀ q j, ¬ ReflTransGen (WaitsOnly s) (p ++ i) (q ++ j) → Undisturbed q j s t

theorem takenOut_removeJobHard (p i : String) (s : Store) :
    TakenOut p i s (removeJobHard p s i) where
  gone := by rw [Store.jobExists, removeJobHard_hash, if_pos rfl]; rfl
  exist k hk := by
    rw [Store.jobExists, removeJobHard_hash] at hk
    split at hk
    · cases hk
    · obtain heq | heq := unlinkHard_hash_or (s := s) (c := p ++ i)
        ((s (.zset .waitingChildren) p).members.length + 1) p k
      · rwa [removeParentDependencyKeyHard, heq] at hk
      · rw [removeParentDependencyKeyHard, heq] at hk
        cases hk
  kept k hne hbase := by
    rw [removeJobHard_hash, if_neg hne]
    exact unlinkHard_hash (fun _ => hbase) _
  undisturbed q j h := undisturbed_removeJobHard h

/-- A write that touches no hash and only the entry of `i`. -/
theorem TakenOut.of_hash (h : TakenOut p i s t) {t' : Store} (hhash : t' .hash = t .hash)
    (hother : ∀ q j, q ++ j ≠ p ++ i → Undisturbed q j t t') : TakenOut p i s t' where
  gone := by rw [Store.jobExists, hhash]; exact h.gone
  exist k hk := h.exist k (by rwa [Store.jobExists, hhash] at hk)
  kept k hne hbase := by rw [hhash]; exact h.kept k hne hbase
  undisturbed q j hk :=
    (h.undisturbed q j hk).trans (hother q j fun heq => hk (heq ▸ .refl))

theorem waitsOnly_congr {c k : String} (hhash : t .hash = s .hash)
    (hdep : t .dependencies = s .dependencies)
    (hwc : t (.zset .waitingChildren) = s (.zset .waitingChildren)) :
    WaitsOnly t c k ↔ WaitsOnly s c k := by
  constructor <;> intro h
  · exact ⟨by rw [← h.parent, Store.parentOf, Store.parentOf, hhash],
      by rw [← h.exist, Store.jobExists, Store.jobExists, hhash], hdep ▸ h.pending, hdep ▸ h.alone,
      hwc ▸ h.waits⟩
  · exact ⟨by rw [← h.parent, Store.parentOf, Store.parentOf, hhash],
      by rw [← h.exist, Store.jobExists, Store.jobExists, hhash], hdep ▸ h.pending, hdep ▸ h.alone,
      hwc ▸ h.waits⟩

theorem takenOut_zrem (z : ZSetKey) (hz : z ≠ .completed ∧ z ≠ .failed) (p i : String) (s : Store) :
    TakenOut p i s ((removeJobHard p s i).modify (.zset z) p (·.zrem i)) := by
  refine (takenOut_removeJobHard p i s).of_hash (Keyspace.modify_of_ne _ (by simp) ..) fun q
    j h => ?_
  refine undisturbed_modify_zset hz fun hq => ?_
  rw [SortedSet.mem_zrem]
  exact and_iff_left (ne_of_key_ne h hq)

theorem takenOut_lrem (l : ListKey) (hl : l ≠ .active) (p i : String) (s : Store) :
    TakenOut p i s (removeJobHard p (s.modify (.list l) p (lremLeft i)) i) := by
  set s₁ : Store := s.modify (.list l) p (lremLeft i) with hs₁
  have hs : ∀ κ, κ ≠ .list l → s₁ κ = s κ := fun κ hκ => Keyspace.modify_of_ne _ hκ ..
  have hlist : ∀ q j, q ++ j ≠ p ++ i → Undisturbed q j s s₁ := fun q j h => by
    refine undisturbed_modify_list hl fun hq => ?_
    rw [lremLeft, List.mem_erase_of_ne (ne_of_key_ne h hq)]
  have hrem := takenOut_removeJobHard p i s₁
  have hwaits : ∀ c k, WaitsOnly s₁ c k ↔ WaitsOnly s c k := fun c k =>
    waitsOnly_congr (hs _ (by simp)) (hs _ (by simp)) (hs _ (by simp))
  have hrel : WaitsOnly s₁ = WaitsOnly s := by
    funext c k
    exact propext (hwaits c k)
  exact {
    gone := hrem.gone
    exist := fun k hk => by
      have hex := hrem.exist k hk
      rwa [Store.jobExists, hs _ (by simp)] at hex
    kept := fun k hne hbase => by rw [hrem.kept k hne hbase, hs _ (by simp)]
    undisturbed := fun q j h =>
      (hlist q j fun heq => h (heq ▸ .refl)).trans (hrem.undisturbed q j (hrel ▸ h)) }

/-- The two ends of the removal of the pending iteration. -/
theorem removePendingIteration_cases (p jobSchedulerId : String) (s : Store) :
    (∃ i t, TakesOut p jobSchedulerId s i ∧
      removePendingIteration p jobSchedulerId s = (true, t) ∧ TakenOut p i s t) ∨
    ((∀ i, ¬ TakesOut p jobSchedulerId s i) ∧
      removePendingIteration p jobSchedulerId s = (false, s)) := by
  unfold removePendingIteration
  split
  · next i hi =>
    have hlist : pausedOrWait p s ≠ .active := by
      unfold pausedOrWait
      split <;> decide
    -- The iteration is looked for in three places, in this order.
    unfold removeJobFromScheduler
    split
    · next h => exact .inl ⟨i, _, ⟨hi, .inl h⟩, rfl, takenOut_zrem .delayed (by decide) p i s⟩
    · next hdel =>
      split
      · next h =>
        exact .inl ⟨i, _, ⟨hi, .inr (.inl h)⟩, rfl, takenOut_zrem .prioritized (by decide) p i s⟩
      · next hprio =>
        split
        · next h => exact .inl ⟨i, _, ⟨hi, .inr (.inr h)⟩, rfl, takenOut_lrem _ hlist p i s⟩
        · next hwait =>
          refine .inr ⟨fun i' hi' => ?_, rfl⟩
          obtain rfl : i = i' := by simpa [hi] using hi'.1
          exact hi'.2.elim hdel fun h => h.elim hprio hwait
  · next hnone => exact .inr ⟨fun i hi => by simpa [hnone] using hi.1, rfl⟩

end Pending

/-! ### The default that an upsert writes first -/

section MaxEvents

variable (p q : String) (s : Store)

theorem takesOut_getOrSetMaxEvents (S i : String) :
    TakesOut q S (getOrSetMaxEvents p s) i ↔ TakesOut q S s i := by
  have hs : ∀ {κ : Kind}, κ ∉ [Kind.metaMaxLenEvents] → getOrSetMaxEvents p s κ = s κ := fun hκ =>
    getOrSetMaxEvents_frame p s hκ
  have hpaused : pausedOrWait q (getOrSetMaxEvents p s) = pausedOrWait q s := by
    rw [pausedOrWait, hs (by decide), pausedOrWait]
  have hexist : ∀ k, (getOrSetMaxEvents p s).jobExists k = s.jobExists k := fun k => by
    rw [Store.jobExists, hs (by decide), Store.jobExists]
  have hpending : pendingIteration q S (getOrSetMaxEvents p s) = pendingIteration q S s := by
    simp only [pendingIteration, hexist]
    rw [hs (by decide)]
  rw [TakesOut, TakesOut, hpending, hpaused, hs (κ := .zset .delayed) (by decide),
    hs (κ := .zset .prioritized) (by decide), hs (κ := .list _) (by simp)]

theorem firstSlot_getOrSetMaxEvents (a : UpsertArgs) (b : Bool) :
    firstSlot q a b (getOrSetMaxEvents p s) = firstSlot q a b s := by
  have htiming : upsertTiming q a (getOrSetMaxEvents p s) = upsertTiming q a s := by
    simp only [upsertTiming]
    rw [getOrSetMaxEvents_frame (κ := .repeatSet) _ _ (by decide),
      getOrSetMaxEvents_frame (κ := .scheduler) _ _ (by decide)]
  rw [firstSlot, htiming, getOrSetMaxEvents_frame _ _ (by decide), firstSlot]

theorem waitsOnly_getOrSetMaxEvents : WaitsOnly (getOrSetMaxEvents p s) = WaitsOnly s := by
  funext c k
  exact propext (waitsOnly_congr (getOrSetMaxEvents_frame _ _ (by decide))
    (getOrSetMaxEvents_frame _ _ (by decide)) (getOrSetMaxEvents_frame _ _ (by decide)))

theorem undisturbed_getOrSetMaxEvents (j : String) : Undisturbed q j s (getOrSetMaxEvents p s) :=
  .of_frame (W := [.metaMaxLenEvents]) (by decide) fun hκ => getOrSetMaxEvents_frame _ _ hκ

theorem getOrSetMaxEvents_eq_self_iff :
    getOrSetMaxEvents p s = s ↔ (s .metaMaxLenEvents p).isSome = true := by
  unfold getOrSetMaxEvents
  split
  · next h => simp [h]
  · next h =>
    rw [h]
    refine iff_of_false (fun heq => ?_) (by simp)
    have hval := congrArg (fun s' : Store => s' .metaMaxLenEvents p) heq
    simp [h] at hval

end MaxEvents

/-! ### Safety of an upsert -/

section Upsert

variable {p : String} {a : UpsertArgs} {s : Store}

/-- The removal of the pending iteration, seen from the store before the call. -/
theorem upsert_removal_cases (p : String) (a : UpsertArgs) (s : Store) :
    (∃ i t, TakesOut p a.jobSchedulerId s i ∧
      removePendingIteration p a.jobSchedulerId (getOrSetMaxEvents p s) = (true, t) ∧
      TakenOut p i s t) ∨
    ((∀ i, ¬ TakesOut p a.jobSchedulerId s i) ∧
      removePendingIteration p a.jobSchedulerId (getOrSetMaxEvents p s) =
        (false, getOrSetMaxEvents p s)) := by
  have hhash : getOrSetMaxEvents p s .hash = s .hash := getOrSetMaxEvents_frame _ _ (by decide)
  obtain ⟨i, t, hi, heq, ht⟩ | ⟨hnone, heq⟩ :=
    removePendingIteration_cases p a.jobSchedulerId (getOrSetMaxEvents p s)
  · refine .inl ⟨i, t, (takesOut_getOrSetMaxEvents p p s _ i).mp hi, heq, ?_⟩
    exact {
      gone := ht.gone
      exist := fun k hk => by
        have hex := ht.exist k hk
        rwa [Store.jobExists, hhash] at hex
      kept := fun k hne hbase => by rw [ht.kept k hne hbase, hhash]
      undisturbed := fun q j h => (undisturbed_getOrSetMaxEvents p q s j).trans
        (ht.undisturbed q j (by rwa [waitsOnly_getOrSetMaxEvents])) }
  · exact .inr ⟨fun i hi => hnone i ((takesOut_getOrSetMaxEvents p p s _ i).mpr hi), heq⟩

/-- A settled job is not the one that is stored. -/
theorem key_ne_of_undisturbed {t : Store} {q j k : String} (hset : Settled s q j)
    (hund : Undisturbed q j s t) (hfree : t.jobExists k = false) : q ++ j ≠ k := by
  rintro rfl
  have hex := hset.1
  rw [Store.jobExists, ← hund.hash] at hex
  rw [Store.jobExists, hex] at hfree
  cases hfree

theorem UpsertOk.safe (h : UpsertOk p a s) : UpsertSafe p a s := by
  have hcode : ∀ o m t n, (storeIteration p a o m t).1 ≠ .code n := fun o m t n hn => by cases hn
  -- The upsert takes out the pending iteration, or finds none; then it stores one, finds every slot
  -- taken, or is refused for a pattern.
  obtain ⟨i, t, hi, hrem, ht⟩ | ⟨hnone, hrem⟩ := upsert_removal_cases p a s
  · obtain ⟨o, m, heq, hfree⟩ | ⟨every, hevery, -, hbusy⟩ | ⟨-, hb, -⟩ :=
      Script.addJobScheduler_cases hrem
    · constructor
      · intro n _ hn
        rw [heq] at hn
        exact absurd hn (hcode _ _ _ _)
      · intro _ _ _ q j hset
        have hund := ht.undisturbed q j (h.pending i hi q j hset)
        have hne : q ++ j ≠ p ++ iterationId a.jobSchedulerId m := by
          obtain hfree | ⟨hpattern, -, rfl⟩ := hfree
          · exact key_ne_of_undisturbed hset hund hfree
          · exact h.pattern i hi hpattern q j hset
        rw [heq]
        exact hund.trans (undisturbed_storeIteration o hne)
    · -- With every slot taken the pending iteration would be lost.
      refine absurd (fun n hn => ?_) (h.slot i every hi hevery)
      have hex := hbusy n hn
      rw [firstSlot_getOrSetMaxEvents] at hex
      refine ⟨ht.exist _ hex, fun heq => ?_⟩
      rw [Option.some.inj heq, ht.gone] at hex
      cases hex
    · cases hb
  · have hsame : (s .metaMaxLenEvents p).isSome = true → getOrSetMaxEvents p s = s :=
      (getOrSetMaxEvents_eq_self_iff p s).mpr
    have hexist : ∀ k, (getOrSetMaxEvents p s).jobExists k = s.jobExists k := fun k => by
      rw [Store.jobExists, getOrSetMaxEvents_frame _ _ (by decide), Store.jobExists]
    obtain ⟨o, m, heq, hfree⟩ | ⟨every, hevery, heq, hbusy⟩ | ⟨hpattern, -, heq, htaken⟩ :=
      Script.addJobScheduler_cases hrem
    · constructor
      · intro n _ hn
        rw [heq] at hn
        exact absurd hn (hcode _ _ _ _)
      · intro _ _ _ q j hset
        have hund := undisturbed_getOrSetMaxEvents p q s j
        have hne : q ++ j ≠ p ++ iterationId a.jobSchedulerId m := by
          obtain hfree | ⟨-, hb, -⟩ := hfree
          · exact key_ne_of_undisturbed hset hund hfree
          · cases hb
        rw [heq]
        exact hund.trans (undisturbed_storeIteration o hne)
    · refine ⟨fun _ _ _ => ?_, fun j d hj => by rw [heq] at hj; cases hj⟩
      rw [heq]
      refine hsame (h.bound hnone ?_)
      rw [hevery]
      intro n hn
      have hex := hbusy n hn
      rw [firstSlot_getOrSetMaxEvents, hexist] at hex
      exact ⟨hex, by simp⟩
    · refine ⟨fun _ _ _ => ?_, fun j d hj => by rw [heq] at hj; cases hj⟩
      rw [heq]
      refine hsame (h.bound hnone ?_)
      rw [hpattern]
      rwa [hexist] at htaken

theorem Settled.container {q j : String} (h : Settled s q j) :
    ∃ c : Container, c.isSettled = true ∧ countIn s c q j ≠ 0 := by
  obtain hmem | hmem | hmem := h.2
  · exact ⟨.inl .active, rfl, countIn_inl_ne_zero.mpr hmem⟩
  · exact ⟨.inr .completed, rfl, countIn_inr_ne_zero.mpr hmem⟩
  · exact ⟨.inr .failed, rfl, countIn_inr_ne_zero.mpr hmem⟩

theorem TakesOut.container {S i : String} (h : TakesOut p S s i) :
    ∃ c : Container, c.isSettled = false ∧ countIn s c p i ≠ 0 := by
  obtain hmem | hmem | hmem := h.2
  · exact ⟨.inr .delayed, rfl, countIn_inr_ne_zero.mpr hmem⟩
  · exact ⟨.inr .prioritized, rfl, countIn_inr_ne_zero.mpr hmem⟩
  · refine ⟨.inl (pausedOrWait p s), ?_, countIn_inl_ne_zero.mpr hmem⟩
    unfold pausedOrWait
    split <;> rfl

theorem TakesOut.jobExists {S i : String} (h : TakesOut p S s i) :
    s.jobExists (p ++ i) = true := by
  obtain ⟨m, -, hm⟩ := Option.bind_eq_some_iff.mp h.1
  simp only at hm
  split at hm
  · next hex =>
    obtain rfl : iterationId S m = i := by simpa using hm
    exact hex
  · cases hm

theorem TakesOut.unique {S i i' : String} (h : TakesOut p S s i) (h' : TakesOut p S s i') :
    i = i' :=
  Option.some.inj (h.1.symm.trans h'.1)

/-- Where every job is in one place, none that is settled waits for the pending iteration. -/
theorem PlacedOnce.not_waits (h : PlacedOnce p s) {S i : String} (hi : TakesOut p S s i)
    {q j : String} (hset : Settled s q j) : ¬ ReflTransGen (WaitsOnly s) (p ++ i) (q ++ j) := by
  intro hchain
  obtain ⟨c, hc, hcount⟩ := hset.container
  have hother : ∀ c' : Container, c'.isSettled = false → c' ≠ c := by
    rintro c' hc' rfl
    rw [hc] at hc'
    cases hc'
  obtain heq | ⟨x, -, hlast⟩ := hchain.cases_tail
  · obtain ⟨c', hc', hcount'⟩ := hi.container
    exact hother c' hc' (h.single _ _ _ _ _ _ hcount' hcount heq.symm).2
  · have hwaits := countIn_inr_ne_zero.mpr hlast.waits
    refine hother (.inr .waitingChildren) rfl (h.single _ _ _ _ _ _ hwaits hcount ?_).2
    exact getJobKeyPrefix_append_getJobIdFromKey _

/-- Where every job is in one place, an upsert that is safe has what it relies on. -/
theorem UpsertSafe.ok (h : UpsertSafe p a s) (hkeys : KeysApart p a.jobSchedulerId s)
    (hplaced : PlacedOnce p s) : UpsertOk p a s where
  keys := hkeys
  slot i every hi hevery hbusy := by
    obtain ⟨i', t, hi', hrem, ht⟩ | ⟨hnone, -⟩ := upsert_removal_cases p a s
    · obtain rfl := hi.unique hi'
      have heq : Script.addJobScheduler p a s = (.code (-11), t) := by
        refine Script.addJobScheduler_of_taken hrem hevery fun n hn => ?_
        obtain ⟨hex, hne⟩ := hbusy n hn
        rw [firstSlot_getOrSetMaxEvents, Store.jobExists, ht.kept _ _ (keyBase_iterationId _ _ _)]
        · exact hex
        · exact fun hkey => hne (congrArg some ((String.append_right_inj p).mp hkey))
      have hsame := h.refused (-11) (.inr rfl) (by rw [heq])
      rw [heq] at hsame
      have hgone := ht.gone
      rw [show t = s from hsame, hi.jobExists] at hgone
      cases hgone
    · exact hnone i hi
  pattern i hi hpattern q j hset hkey := by
    obtain ⟨c, hc, hcount⟩ := hset.container
    obtain rfl := hplaced.own q j c hcount _ hkey
    obtain rfl := (String.append_right_inj q).mp hkey
    obtain ⟨i', t, hi', hrem, ht⟩ | ⟨hnone, -⟩ := upsert_removal_cases q a s
    · have heq := Script.addJobScheduler_of_pattern hrem hpattern
      rw [if_neg (by simp)] at heq
      have hund := h.stored _ _ (by rw [heq]; rfl) q _ hset
      -- The job is enqueued again, in a place where it was not.
      obtain ⟨c', hc', hcount'⟩ := enqueued_storeAndEnqueueJob q
        (iterationId a.jobSchedulerId a.nextMillis) _ _ _ _ none (some a.jobSchedulerId) _
      rw [heq] at hund
      obtain rfl := (hplaced.single _ _ _ _ _ _ hcount ((hund.state c').mp hcount') rfl).2
      rw [hc] at hc'
      cases hc'
    · exact hnone i hi
  pending i hi q j hset := hplaced.not_waits hi hset
  bound hnone hblocked := by
    obtain ⟨i, -, hi, -⟩ | ⟨-, hrem⟩ := upsert_removal_cases p a s
    · exact absurd hi (hnone i)
    have hexist : ∀ k, (getOrSetMaxEvents p s).jobExists k = s.jobExists k := fun k => by
      rw [Store.jobExists, getOrSetMaxEvents_frame _ _ (by decide), Store.jobExists]
    rw [← getOrSetMaxEvents_eq_self_iff]
    cases hevery : a.opts.every with
    | some every =>
      rw [hevery] at hblocked
      have heq := Script.addJobScheduler_of_taken hrem hevery fun n hn => by
        rw [firstSlot_getOrSetMaxEvents, hexist]
        exact (hblocked n hn).1
      have hsame := h.refused (-11) (.inr rfl) (by rw [heq])
      rwa [heq] at hsame
    | none =>
      rw [hevery] at hblocked
      have heq := Script.addJobScheduler_of_pattern hrem hevery
      rw [if_pos ⟨by rw [hexist]; exact hblocked, rfl⟩] at heq
      have hsame := h.refused (-10) (.inl rfl) (by rw [heq])
      rwa [heq] at hsame

end Upsert

end BullMQ
