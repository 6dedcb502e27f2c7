import BullMQ.Model.Flow

/-!
# What an entry of a flow does

Seen through the jobs that exist, the parents they name and the accounts of children, an entry
either joins its parent (`Joined`) or does nothing at all (`Untouched`). Which of the two is
decided by the parent, which must exist, and by the parent that a job under the same id already
names (`FlowJobEntry.Joins`).
-/

namespace BullMQ

open Redis

/-- The key of the parent that a job names. -/
def Store.parentKeyOf (s : Store) (k : String) : Option String := (s.parentOf k).map Parent.key

namespace FlowJobEntry

/-- The job key of an entry. -/
def key (e : FlowJobEntry) : String := e.p ++ e.args.customId

/-- The key of the parent of an entry. -/
def parentKey (e : FlowJobEntry) : Option String := e.args.parent.map Parent.key

/-- An entry with an id and without deduplication. -/
structure Plain (e : FlowJobEntry) : Prop where
  hasId : e.args.customId ≠ ""
  noDeduplication : e.args.opts.de = none

/-- The job of an entry exists and is completed. -/
def Completed (s : Store) (e : FlowJobEntry) : Prop :=
  s.jobExists e.key = true ∧ e.args.customId ∈ s (.zset .completed) e.p

instance (s : Store) (e : FlowJobEntry) : Decidable (e.Completed s) :=
  inferInstanceAs (Decidable (_ ∧ _))

/-- The account of its parent in which an entry registers. -/
def account (s : Store) (e : FlowJobEntry) : Account :=
  if e.Completed s then .processed else .dependencies

/-- The parent of an entry exists. -/
def ParentExists (s : Store) (e : FlowJobEntry) : Prop :=
  ∀ k, e.parentKey = some k → s.jobExists k = true

/-- No other parent stands in the way: the job names none, or the same. -/
def ParentFits (s : Store) (e : FlowJobEntry) : Prop :=
  ∀ k k', e.parentKey = some k → s.parentKeyOf e.key = some k' → k' = k

/-- An entry joins its parent. -/
structure Joins (s : Store) (e : FlowJobEntry) : Prop where
  parentExists : e.ParentExists s
  parentFits : e.ParentFits s

end FlowJobEntry

/-- Jobs, their parents and the accounts of children are as they were. -/
structure Untouched (s s' : Store) : Prop where
  jobExists : ∀ k, s'.jobExists k = s.jobExists k
  parent : ∀ k, s'.parentKeyOf k = s.parentKeyOf k
  child : ∀ a k c, c ∈ childrenIn s' a k ↔ c ∈ childrenIn s a k

/-- The job of an entry exists, names the parent of the entry and is registered with it; all else
is as it was. -/
structure Joined (e : FlowJobEntry) (s s' : Store) : Prop where
  jobExists : ∀ k, s'.jobExists k = true ↔ s.jobExists k = true ∨ k = e.key
  parent : ∀ k, s'.parentKeyOf k =
    if k = e.key ∧ e.parentKey.isSome = true then e.parentKey else s.parentKeyOf k
  child : ∀ a k c, c ∈ childrenIn s' a k ↔
    c ∈ childrenIn s a k ∨ a = e.account s ∧ e.parentKey = some k ∧ c = e.key

/-! ### Frames -/

section Frames

variable {s s' s'' : Store}

/-- The families that jobs, parents and accounts are read from. -/
def linkKinds : List Kind := [.hash, .dependencies, .processed, .failedChildren, .unsuccessful]

theorem Untouched.of_frame {W : List Kind} (hW : ∀ κ ∈ linkKinds, κ ∉ W)
    (hs : ∀ {κ}, κ ∉ W → s' κ = s κ) : Untouched s s' where
  jobExists k := by rw [Store.jobExists, hs (hW _ (by decide)), Store.jobExists]
  parent k := by
    rw [Store.parentKeyOf, Store.parentOf, hs (hW _ (by decide)), Store.parentKeyOf,
      Store.parentOf]
  child a k c := by
    rw [childrenIn_congr (hs (hW _ (by cases a <;> decide)))]

theorem Untouched.refl (s : Store) : Untouched s s :=
  ⟨fun _ => rfl, fun _ => rfl, fun _ _ _ => .rfl⟩

theorem Untouched.trans (h : Untouched s s') (h' : Untouched s' s'') : Untouched s s'' where
  jobExists k := (h'.jobExists k).trans (h.jobExists k)
  parent k := (h'.parent k).trans (h.parent k)
  child a k c := (h'.child a k c).trans (h.child a k c)

theorem Joined.untouched_right {e : FlowJobEntry} (h : Joined e s s') (h' : Untouched s' s'') :
    Joined e s s'' where
  jobExists k := by rw [h'.jobExists, h.jobExists]
  parent k := by rw [h'.parent, h.parent]
  child a k c := by rw [h'.child, h.child]

end Frames

/-! ### The two ends of an entry -/

namespace FlowJobEntry

variable {s : Store} {e : FlowJobEntry}

/-- Where the scripts put a new job, they write neither hashes nor accounts. -/
theorem enqueue_frame (e : FlowJobEntry) (j : String) (a : AddArgs) (s : Store) {κ : Kind}
    (h : κ ∉ [Kind.list .wait, .marker, .events, .zset .prioritized, .pc, .zset .delayed,
      .zset .waitingChildren]) : e.mode.enqueue j a s κ = s κ := by
  unfold mode
  split_ifs
  · exact enqueueParent_frame _ _ _ _ (Kind.notMem_mono h (by decide))
  · exact addDelayedJob_frame _ _ _ _ _ (Kind.notMem_mono h (by decide))
  · exact enqueuePrioritized_frame _ _ _ _ (Kind.notMem_mono h (by decide))
  · exact enqueueStandard_frame _ _ _ _ (Kind.notMem_mono h (by decide))

theorem mode_framed (e : FlowJobEntry) : e.mode.Framed := by
  unfold mode
  split_ifs
  · exact parentMode_framed _
  · exact delayedMode_framed _
  · exact prioritizedMode_framed _
  · exact standardMode_framed _

/-- The hash of the store after a new job was stored. -/
theorem storeNewJob_hash (e : FlowJobEntry) (s : Store) :
    storeNewJob e.mode e.p e.args.customId e.args s .hash =
      storeJob e.p e.args.customId e.args.name e.args.data e.args.opts e.args.timestamp
        e.args.parent e.args.repeatJobKey s .hash := by
  rw [storeNewJob, addParentDependency_frame _ _ _ (by decide), enqueue_frame _ _ _ _ (by decide)]

theorem storeJob_hash (p j n d : String) (o : JobOpts) (t : ℤ) (P : Option Parent)
    (r : Option String) (s : Store) {k : String} (hk : k ≠ p ++ j) :
    storeJob p j n d o t P r s .hash k = s .hash k := by
  rw [storeJob, Store.xadd_of_ne _ _ _ (by decide), Store.hset_hash, if_neg hk]

/-- A new job joins its parent. -/
theorem storeNewJob_joined (hnew : s.jobExists e.key = false) :
    Joined e s (storeNewJob e.mode e.p e.args.customId e.args s) := by
  have hnone : s .hash (e.p ++ e.args.customId) = none := by
    simpa [Store.jobExists, key] using hnew
  have hself : ∃ job, storeNewJob e.mode e.p e.args.customId e.args s .hash e.key = some job ∧
      job.parent = e.args.parent := by
    rw [storeNewJob_hash, storeJob, Store.xadd_of_ne _ _ _ (by decide), Store.hset_hash,
      key, if_pos rfl, hnone]
    exact ⟨_, rfl, by simp⟩
  have hother : ∀ k, k ≠ e.key →
      storeNewJob e.mode e.p e.args.customId e.args s .hash k = s .hash k := fun k hk => by
    rw [storeNewJob_hash, storeJob_hash _ _ _ _ _ _ _ _ _ hk]
  obtain ⟨job, hjob, hparent⟩ := hself
  refine ⟨fun k => ?_, fun k => ?_, fun a k c => ?_⟩
  · by_cases hk : k = e.key
    · subst hk
      simp [Store.jobExists, hjob]
    · rw [Store.jobExists, hother k hk, Store.jobExists]
      simp [hk]
  · by_cases hk : k = e.key
    · subst hk
      have hold : s.parentKeyOf e.key = none := by
        rw [Store.parentKeyOf, Store.parentOf, key, hnone]
        rfl
      rw [Store.parentKeyOf, Store.parentOf, hjob, hold, Option.bind_some, hparent]
      cases hP : e.args.parent <;> simp [parentKey, hP]
    · rw [Store.parentKeyOf, Store.parentOf, hother k hk, if_neg (fun h => hk h.1)]
      rfl
  · have haccount : e.account s = .dependencies := by simp [account, Completed, hnew]
    have hkind : a.kind ∉ ([.hash, .events, .list .wait, .marker, .zset .prioritized, .pc,
        .zset .delayed, .zset .waitingChildren] : List Kind) := by cases a <;> decide
    have hsame : childrenIn (e.mode.enqueue e.args.customId e.args (storeJob e.p e.args.customId
        e.args.name e.args.data e.args.opts e.args.timestamp e.args.parent e.args.repeatJobKey s))
        a k = childrenIn s a k := by
      refine childrenIn_congr ?_ k
      rw [enqueue_frame _ _ _ _ (Kind.notMem_mono hkind (by decide)),
        storeJob_frame _ _ _ _ _ _ _ _ _ (Kind.notMem_mono hkind (by decide))]
    rw [storeNewJob, haccount]
    rcases hP : e.args.parent with _ | P
    · rw [hP] at hsame
      rw [addParentDependency, hsame]
      simp [parentKey, hP]
    · rw [hP] at hsame
      rw [addParentDependency, mem_childrenIn_sadd, hsame]
      simp [parentKey, hP, key, eq_comm]

/-- An existing job joins the parent it is added under. -/
theorem updateExistingJobsParent_joined (hex : s.jobExists e.key = true) :
    Joined e s (updateExistingJobsParent e.p e.args.customId e.args.parent e.args.timestamp s) := by
  obtain ⟨job, hjob⟩ := Option.isSome_iff_exists.mp hex
  rcases hP : e.args.parent with _ | P
  · have hpk : e.parentKey = none := by simp [parentKey, hP]
    refine ⟨fun k => ?_, fun k => ?_, fun a k c => ?_⟩
    · simp only [updateExistingJobsParent]
      constructor
      · exact .inl
      · rintro (h | rfl)
        · exact h
        · exact hex
    · simp [updateExistingJobsParent, hpk]
    · simp [updateExistingJobsParent, hpk]
  · have hpk : e.parentKey = some P.key := by simp [parentKey, hP]
    -- `s₁` is the store after the account, before the job gets its parent.
    set s₁ : Store := if e.args.customId ∈ s (.zset .completed) e.p then
        updateParentDepsIfNeeded P (e.p ++ e.args.customId)
          (((s .hash (e.p ++ e.args.customId)).bind Job.returnvalue).getD "") e.args.timestamp s
      else s.modify .dependencies P.key (·.sadd (e.p ++ e.args.customId)) with hs₁
    have hres : updateExistingJobsParent e.p e.args.customId (some P) e.args.timestamp s =
        s₁.hset e.key fun job => { job with parent := some P } := rfl
    have hhash : s₁ .hash = s .hash := by
      rw [hs₁]
      split
      · exact updateParentDepsIfNeeded_frame _ _ _ _ _ (by decide)
      · exact Keyspace.modify_of_ne _ (by decide) ..
    have hchild : ∀ a k c, c ∈ childrenIn s₁ a k ↔
        c ∈ childrenIn s a k ∨ a = e.account s ∧ k = P.key ∧ c = e.key := by
      intro a k c
      rw [hs₁]
      by_cases hcomp : e.args.customId ∈ s (.zset .completed) e.p
      · have hacc : e.account s = .processed := by simp [account, Completed, hex, hcomp]
        have hsame : childrenIn (updateParentDepsIfNeeded P (e.p ++ e.args.customId)
            (((s .hash (e.p ++ e.args.customId)).bind Job.returnvalue).getD "")
            e.args.timestamp s) a k = childrenIn (s.modify .processed P.key
              (·.insert (e.p ++ e.args.customId)
                (((s .hash (e.p ++ e.args.customId)).bind Job.returnvalue).getD ""))) a k :=
          childrenIn_congr (moveParentToWaitIfNoPendingDependencies_frame _ _ _
            (by cases a <;> decide)) k
        rw [if_pos hcomp, hsame, mem_childrenIn_insert_processed, hacc]
        rfl
      · have hacc : e.account s = .dependencies := by simp [account, Completed, hcomp]
        rw [if_neg hcomp, mem_childrenIn_sadd, hacc]
        rfl
    rw [hres]
    refine ⟨fun k => ?_, fun k => ?_, fun a k c => ?_⟩
    · rw [Store.jobExists, Store.hset_hash, hhash]
      split
      · next hk => simp [hk]
      · next hk => simp [Store.jobExists, hk]
    · rw [Store.parentKeyOf, Store.parentOf, Store.hset_hash, hhash, hpk]
      split
      · next hk => simp [hk]
      · next hk => simp [Store.parentKeyOf, Store.parentOf, hk]
    · rw [childrenIn_congr (Store.hset_of_ne _ _ _ (by cases a <;> decide)), hchild, hpk,
        Option.some.injEq, eq_comm (a := k)]

/-- Drawing an id touches no job. -/
theorem drawId_untouched (p : String) (s : Store) : Untouched s (drawId p s) :=
  .of_frame (W := [.id, .metaMaxLenEvents]) (by decide) (drawId_frame p s)

theorem drawId_account (e : FlowJobEntry) (p : String) (s : Store) :
    e.account (drawId p s) = e.account s := by
  have hcomp : e.Completed (drawId p s) ↔ e.Completed s := by
    rw [Completed, (drawId_untouched p s).jobExists, drawId_frame _ _ (by decide), Completed]
  simp [account, hcomp]

/-- The ends of an entry. -/
theorem add_cases (he : e.Plain) (s : Store) :
    (¬ e.ParentExists s ∧ e.add s = (.code (-5), s)) ∨
    (e.ParentExists s ∧ s.jobExists e.key = true ∧ e.add s =
      handleDuplicatedJob e.p e.args.customId e.args.parent e.args.timestamp (drawId e.p s)) ∨
    (e.ParentExists s ∧ s.jobExists e.key = false ∧ e.add s =
      (.id e.args.customId, storeNewJob e.mode e.p e.args.customId e.args (drawId e.p s))) := by
  have hiff : (∀ P, e.args.parent = some P → s.jobExists P.key = true) → e.ParentExists s := by
    intro h k hk
    obtain ⟨P, hP, rfl⟩ := Option.map_eq_some_iff.mp hk
    exact h P hP
  obtain ⟨⟨P, hP, hmissing⟩, hres⟩ | ⟨-, hex, hparent, hres⟩ | ⟨j, hj, hparent, hres⟩ :=
    addJobWith_cases e.mode he.noDeduplication e.p s
  · refine .inl ⟨fun h => ?_, hres⟩
    rw [h P.key (by simp [parentKey, hP])] at hmissing
    cases hmissing
  · exact .inr (.inl ⟨hiff hparent, hex, hres⟩)
  · obtain ⟨hempty, -⟩ | ⟨rfl, -, hnew⟩ := hj
    · exact absurd hempty he.hasId
    · exact .inr (.inr ⟨hiff hparent, hnew, hres⟩)

/-- **An entry that joins** replies with its id. -/
theorem add_of_joins (he : e.Plain) (h : e.Joins s) :
    (e.add s).1 = .id e.args.customId ∧ Joined e s (e.add s).2 := by
  have hdraw := drawId_untouched e.p s
  have hleft : ∀ {s'}, Joined e (drawId e.p s) s' → Joined e s s' := fun h' =>
    ⟨fun k => by rw [h'.jobExists, hdraw.jobExists], fun k => by rw [h'.parent, hdraw.parent],
      fun a k c => by rw [h'.child, hdraw.child, drawId_account]⟩
  have hxadd : ∀ s' : Store, Untouched s' (s'.xadd e.p (.duplicated e.args.customId)) := fun s' =>
    .of_frame (W := [.events]) (by decide) fun hκ => Store.xadd_of_ne _ _ _ (by simpa using hκ)
  obtain ⟨hno, -⟩ | ⟨-, hex, hres⟩ | ⟨-, hnew, hres⟩ := add_cases he s
  · exact absurd h.parentExists hno
  · have hex' : (drawId e.p s).jobExists e.key = true := by rw [hdraw.jobExists, hex]
    have hjoined := hleft (updateExistingJobsParent_joined hex')
    rw [hres, handleDuplicatedJob]
    rcases hlink : ((drawId e.p s).parentOf (e.p ++ e.args.customId)).map Parent.key with _ | k'
    · exact ⟨rfl, hjoined.untouched_right (hxadd _)⟩
    · have hlink' : s.parentKeyOf e.key = some k' := by
        rw [← hdraw.parent]
        exact hlink
      simp only
      rcases hP : e.args.parent with _ | P
      · -- Without a parent of its own the entry leaves the job as it is.
        have hpk : e.parentKey = none := by simp [parentKey, hP]
        rw [if_neg (by simp), if_neg (by simp)]
        refine ⟨rfl, hleft ⟨fun k => ?_, fun k => ?_, fun a k c => ?_⟩⟩
        · rw [(hxadd _).jobExists]
          constructor
          · exact .inl
          · rintro (h | rfl)
            · exact h
            · exact hex'
        · rw [(hxadd _).parent]
          simp [hpk]
        · rw [(hxadd _).child]
          simp [hpk]
      · have hfits : k' = P.key := h.parentFits P.key k' (by simp [parentKey, hP]) hlink'
        rw [hP] at hjoined
        rw [if_pos (by simp [hfits])]
        exact ⟨rfl, hjoined.untouched_right (hxadd _)⟩
  · have hnew' : (drawId e.p s).jobExists e.key = false := by rw [hdraw.jobExists, hnew]
    rw [hres]
    exact ⟨rfl, hleft (storeNewJob_joined hnew')⟩

end FlowJobEntry

end BullMQ
