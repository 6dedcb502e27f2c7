import BullMQ.Model.QueueCommand
import BullMQ.Placement.Retention

/-!
# What a drain keeps

`drain` spares the current iteration of every job scheduler. Of a sorted set it removes the other
members by name. Of a list it deletes the jobs that are not spared, and then trims as many entries
from the left end as it has deleted jobs: the spared entries are the ones that stay exactly where
they are the last ones of the list (`drain_exact_iff`).
-/

namespace BullMQ

open Redis

/-! ### Trimming by a count -/

/-- The entries that satisfy `q` are the last ones. -/
def AtTail {α : Type} (q : α → Bool) (l : List α) : Prop :=
  ∃ front back, l = front ++ back ∧ (∀ a ∈ front, q a = false) ∧ ∀ a ∈ back, q a = true

/-- Dropping as many entries as fail `q` leaves those that satisfy it exactly where these are at
the tail. -/
theorem drop_eq_filter_iff {α : Type} (q : α → Bool) (l : List α) :
    l.drop (l.filter fun a => !q a).length = l.filter q ↔ AtTail q l := by
  constructor
  · intro h
    set n := (l.filter fun a => !q a).length
    refine ⟨l.take n, l.drop n, (l.take_append_drop n).symm, ?_, ?_⟩
    · -- All entries that satisfy `q` are in the dropped part, so the front has none.
      have hcount : (l.take n).filter q ++ (l.drop n).filter q = l.filter q := by
        rw [← List.filter_append, List.take_append_drop]
      have hback : (l.drop n).filter q = l.drop n := by
        rw [h, List.filter_filter]
        simp
      rw [hback, h] at hcount
      have hnil : (l.take n).filter q = [] := by simpa using hcount
      intro a ha
      simpa using List.filter_eq_nil_iff.mp hnil a ha
    · intro a ha
      rw [h] at ha
      exact (List.mem_filter.mp ha).2
  · rintro ⟨front, back, rfl, hfront, hback⟩
    have hnot : (front ++ back).filter (fun a => !q a) = front := by
      rw [List.filter_append, List.filter_eq_self.mpr fun a ha => by simp [hfront a ha],
        List.filter_eq_nil_iff.mpr fun a ha => by simp [hback a ha], List.append_nil]
    rw [hnot, List.drop_left, List.filter_append,
      List.filter_eq_nil_iff.mpr fun a ha => by simp [hfront a ha],
      List.filter_eq_self.mpr hback, List.nil_append]

/-! ### Removing many jobs -/

/-- The jobs `X` of a queue are erased, and no other hash outside the names of this queue's flow
parents changes. -/
structure Clears (p : String) (X : String → Prop) (s s' : Store) : Prop where
  erased : ∀ j, X j → s' .hash (p ++ j) = none
  deletes : ∀ k, s' .hash k = s .hash k ∨ s' .hash k = none
  keeps : ∀ k, keyBase k ≠ p → (∀ j, X j → k ≠ p ++ j) → s' .hash k = s .hash k

section Clears

variable {p : String} {X Y : String → Prop} {s s' s'' : Store}

namespace Clears

theorem of_hash (h : s' .hash = s .hash) : Clears p (fun _ => False) s s' :=
  ⟨fun _ h => h.elim, fun k => .inl (by rw [h]), fun k _ _ => by rw [h]⟩

theorem trans (h : Clears p X s s') (h' : Clears p Y s' s'') :
    Clears p (fun j => X j ∨ Y j) s s'' where
  erased j hj := by
    rcases hj with hj | hj
    · rcases h'.deletes (p ++ j) with heq | hnone
      · rw [heq, h.erased j hj]
      · exact hnone
    · exact h'.erased j hj
  deletes k := by
    rcases h'.deletes k with heq | hnone
    · rw [heq]
      exact h.deletes k
    · exact .inr hnone
  keeps k hk hX := by
    rw [h'.keeps k hk fun j hj => hX j (.inr hj), h.keeps k hk fun j hj => hX j (.inl hj)]

theorem congr (h : Clears p X s s') (hXY : ∀ j, X j ↔ Y j) : Clears p Y s s' := by
  obtain rfl : X = Y := funext fun j => propext (hXY j)
  exact h

end Clears

theorem removeJobHard_clears (p j : String) (s : Store) :
    Clears p (· = j) s (removeJobHard p s j) where
  erased i hi := by
    rw [hi, removeJobHard_hash, if_pos rfl]
  deletes k := by
    rw [removeJobHard_hash]
    split
    · exact .inr rfl
    · exact unlinkHard_hash_or _ p k
  keeps k hk hX := by
    rw [removeJobHard_hash, if_neg (hX j rfl)]
    exact unlinkHard_hash (fun _ => hk) _

theorem removeJobs_clears (p : String) (jobIds : List String) (s : Store) :
    Clears p (· ∈ jobIds) s (removeJobs p jobIds s) := by
  unfold removeJobs
  induction jobIds generalizing s with
  | nil => exact (Clears.of_hash rfl).congr fun j => by simp
  | cons j jobIds ih =>
    exact ((removeJobHard_clears p j s).trans (ih _)).congr fun i => by simp

/-- The entries that a drain spares. -/
def spared (ignored : List String) (j : String) : Bool := decide (j ∈ ignored)

theorem firstItems_zero (items : List String) : firstItems 0 items = items := by
  simp [firstItems]

theorem removeListJobs_list (p : String) (l : ListKey) (ignored : List String) (s : Store) :
    (removeListJobs p l 0 ignored s).2 (.list l) p =
      (s (.list l) p).drop ((s (.list l) p).filter fun j => !spared ignored j).length := by
  simp only [removeListJobs, firstItems_zero]
  rw [Keyspace.modify_self, Function.update_self, removeJobs_list]
  simp [spared]

theorem removeListJobs_clears (p : String) (l : ListKey) (ignored : List String) (s : Store) :
    Clears p (fun j => j ∈ s (.list l) p ∧ j ∉ ignored) s (removeListJobs p l 0 ignored s).2 := by
  simp only [removeListJobs, firstItems_zero]
  have hjobs := removeJobs_clears p ((s (.list l) p).filter (· ∉ ignored)) s
  refine (hjobs.trans (.of_hash (Keyspace.modify_of_ne _ (by simp) ..))).congr fun j => ?_
  simp

theorem removeListJobs_of_ne (p : String) {l l' : ListKey} (hne : l' ≠ l) (ignored : List String)
    (s : Store) : (removeListJobs p l 0 ignored s).2 (.list l') p = s (.list l') p := by
  simp only [removeListJobs]
  rw [Keyspace.modify_of_ne _ (by simpa using hne), removeJobs_list]

theorem removeZSetJobs_list (p : String) (z : ZSetKey) (l : ListKey) (ignored : List String)
    (s : Store) : (removeZSetJobs p z 0 ignored s).2 (.list l) p = s (.list l) p := by
  simp only [removeZSetJobs]
  rw [foldl_zremAll_frame _ _ _ _ _ (by simp), removeJobs_list]

/-- The entries of a sorted set that a drain spares. -/
def sparedEntries (ignored : List String) (z : ZSet) : ZSet :=
  z.filter fun e => spared ignored (ofLex e).2

theorem removeZSetJobs_zset (p : String) (z : ZSetKey) (hz : z ≠ .waitingChildren)
    (ignored : List String) (s : Store) :
    (removeZSetJobs p z 0 ignored s).2 (.zset z) p = sparedEntries ignored (s (.zset z) p) := by
  have hframe : removeJobs p ((s (.zset z) p).members.filter (· ∉ ignored)) s (.zset z) =
      s (.zset z) := removeJobs_frame _ _ _ (by cases z <;> first | exact absurd rfl hz | decide)
  simp only [removeZSetJobs, firstItems_zero]
  rw [foldl_batches_eq, Keyspace.modify_self, Function.update_self, hframe]
  refine SortedSet.ext (List.filter_congr fun e he => ?_)
  have hmem : (ofLex e).2 ∈ (s (.zset z) p).members := List.mem_map_of_mem he
  simp [spared, hmem]

theorem removeZSetJobs_of_ne (p : String) {z z' : ZSetKey} (hne : z' ≠ z)
    (hz' : z' ≠ .waitingChildren) (ignored : List String) (s : Store) :
    (removeZSetJobs p z 0 ignored s).2 (.zset z') = s (.zset z') := by
  refine removeZSetJobs_frame _ _ _ _ _ ?_
  rw [List.mem_cons, not_or]
  exact ⟨by simpa using hne, by cases z' <;> first | exact absurd rfl hz' | decide⟩

theorem removeZSetJobs_clears (p : String) (z : ZSetKey) (ignored : List String) (s : Store) :
    Clears p (fun j => j ∈ s (.zset z) p ∧ j ∉ ignored) s (removeZSetJobs p z 0 ignored s).2 := by
  simp only [removeZSetJobs, firstItems_zero]
  have hjobs := removeJobs_clears p ((s (.zset z) p).members.filter (· ∉ ignored)) s
  refine (hjobs.trans (.of_hash (foldl_zremAll_frame _ _ _ _ _ (by simp)))).congr fun j => ?_
  simp [SortedSet.mem_def]

theorem removeListJobs_zset (p : String) (l : ListKey) {z : ZSetKey} (hz : z ≠ .waitingChildren)
    (ignored : List String) (s : Store) :
    (removeListJobs p l 0 ignored s).2 (.zset z) = s (.zset z) := by
  refine removeListJobs_frame _ _ _ _ _ ?_
  rw [List.mem_cons, not_or]
  exact ⟨by simp, by cases z <;> first | exact absurd rfl hz | decide⟩

end Clears

/-! ### The drain -/

/-- The ids a drain looks at. -/
def Drained (s : Store) (p : String) (delayed : Bool) (j : String) : Prop :=
  j ∈ s (.list .wait) p ∨ j ∈ s (.list .paused) p ∨ (delayed = true ∧ j ∈ s (.zset .delayed) p) ∨
    j ∈ s (.zset .prioritized) p

/-- What a drain is for: of the jobs in line, the current iterations of the schedulers stay, in
their order and with their hashes, and the others are gone. -/
structure DrainExact (p : String) (delayed : Bool) (s s' : Store) : Prop where
  wait : s' (.list .wait) p = (s (.list .wait) p).filter (spared (Script.scheduledJobs p s))
  paused : s' (.list .paused) p = (s (.list .paused) p).filter (spared (Script.scheduledJobs p s))
  prioritized : s' (.zset .prioritized) p =
    sparedEntries (Script.scheduledJobs p s) (s (.zset .prioritized) p)
  delayedSet : s' (.zset .delayed) p =
    if delayed then sparedEntries (Script.scheduledJobs p s) (s (.zset .delayed) p)
    else s (.zset .delayed) p
  kept : ∀ j, Drained s p delayed j → j ∈ Script.scheduledJobs p s →
    s' .hash (p ++ j) = s .hash (p ++ j)
  gone : ∀ j, Drained s p delayed j → j ∉ Script.scheduledJobs p s →
    s'.jobExists (p ++ j) = false

theorem keyBase_scheduledJob {p j : String} {s : Store} (h : j ∈ Script.scheduledJobs p s) :
    keyBase (p ++ j) ≠ p := by
  obtain ⟨e, -, rfl⟩ := List.mem_map.mp h
  exact keyBase_iterationId p (ofLex e).2 (ofLex e).1

section Drain

variable (p : String) (delayed : Bool) (s : Store)

theorem drain_lists :
    (Script.drain p delayed s).2 (.list .wait) p = (s (.list .wait) p).drop
        ((s (.list .wait) p).filter fun j => !spared (Script.scheduledJobs p s) j).length ∧
      (Script.drain p delayed s).2 (.list .paused) p = (s (.list .paused) p).drop
        ((s (.list .paused) p).filter fun j => !spared (Script.scheduledJobs p s) j).length := by
  have hdelayed : ∀ l ignored t, (if delayed then (removeZSetJobs p .delayed 0 ignored t).2 else t)
      (.list l) p = t (.list l) p := by
    intro l ignored t
    split
    · exact removeZSetJobs_list _ _ _ _ _
    · rfl
  simp only [Script.drain]
  constructor
  · rw [removeZSetJobs_list, hdelayed, removeListJobs_of_ne _ (by decide), removeListJobs_list]
  · rw [removeZSetJobs_list, hdelayed, removeListJobs_list, removeListJobs_of_ne _ (by decide)]

theorem drain_clears :
    Clears p (fun j => Drained s p delayed j ∧ j ∉ Script.scheduledJobs p s) s
      (Script.drain p delayed s).2 := by
  set ignored := Script.scheduledJobs p s
  set s₁ := (removeListJobs p .wait 0 ignored s).2
  set s₂ := (removeListJobs p .paused 0 ignored s₁).2
  set s₃ := if delayed then (removeZSetJobs p .delayed 0 ignored s₂).2 else s₂
  have h₁ := removeListJobs_clears p .wait ignored s
  have h₂ := removeListJobs_clears p .paused ignored s₁
  have h₃ : Clears p (fun j => (delayed = true ∧ j ∈ s₂ (.zset .delayed) p) ∧ j ∉ ignored) s₂
      s₃ := by
    cases hd : delayed with
    | true =>
      have h := removeZSetJobs_clears p .delayed ignored s₂
      simpa [s₃, hd] using h
    | false =>
      refine (Clears.of_hash (by simp [s₃, hd])).congr fun j => by simp
  have h₄ := removeZSetJobs_clears p .prioritized ignored s₃
  have hpaused : s₁ (.list .paused) p = s (.list .paused) p :=
    removeListJobs_of_ne _ (by decide) _ _
  have hdel : s₂ (.zset .delayed) = s (.zset .delayed) :=
    (removeListJobs_zset _ _ (by decide) _ _).trans (removeListJobs_zset _ _ (by decide) _ _)
  have hprio : s₃ (.zset .prioritized) = s (.zset .prioritized) := by
    have h₂₃ : s₃ (.zset .prioritized) = s₂ (.zset .prioritized) := by
      simp only [s₃]
      split
      · exact removeZSetJobs_of_ne _ (by decide) (by decide) _ _
      · rfl
    rw [h₂₃]
    exact (removeListJobs_zset _ _ (by decide) _ _).trans (removeListJobs_zset _ _ (by decide) _ _)
  rw [hpaused] at h₂
  rw [hdel] at h₃
  rw [hprio] at h₄
  refine (((h₁.trans h₂).trans h₃).trans h₄).congr fun j => ?_
  unfold Drained
  tauto

theorem drain_zsets :
    (Script.drain p delayed s).2 (.zset .prioritized) p =
        sparedEntries (Script.scheduledJobs p s) (s (.zset .prioritized) p) ∧
      (Script.drain p delayed s).2 (.zset .delayed) p =
        if delayed then sparedEntries (Script.scheduledJobs p s) (s (.zset .delayed) p)
        else s (.zset .delayed) p := by
  simp only [Script.drain]
  constructor
  · rw [removeZSetJobs_zset _ _ (by decide)]
    congr 1
    split
    · rw [removeZSetJobs_of_ne _ (by decide) (by decide), removeListJobs_zset _ _ (by decide),
        removeListJobs_zset _ _ (by decide)]
    · rw [removeListJobs_zset _ _ (by decide), removeListJobs_zset _ _ (by decide)]
  · rw [removeZSetJobs_of_ne _ (by decide) (by decide)]
    split
    · rw [removeZSetJobs_zset _ _ (by decide), removeListJobs_zset _ _ (by decide),
        removeListJobs_zset _ _ (by decide)]
    · rw [removeListJobs_zset _ _ (by decide), removeListJobs_zset _ _ (by decide)]

/-- **What a drain keeps.** On every store, a drain keeps exactly the current iterations of the
schedulers if and only if these are the last entries of the wait list and of the paused list. -/
theorem drain_exact_iff :
    DrainExact p delayed s (Script.drain p delayed s).2 ↔
      AtTail (spared (Script.scheduledJobs p s)) (s (.list .wait) p) ∧
        AtTail (spared (Script.scheduledJobs p s)) (s (.list .paused) p) := by
  obtain ⟨hwait, hpaused⟩ := drain_lists p delayed s
  obtain ⟨hprio, hdel⟩ := drain_zsets p delayed s
  have hclears := drain_clears p delayed s
  rw [← drop_eq_filter_iff, ← drop_eq_filter_iff, ← hwait, ← hpaused]
  constructor
  · exact fun h => ⟨h.wait, h.paused⟩
  · intro h
    refine ⟨h.1, h.2, hprio, hdel, fun j hj hmem => ?_, fun j hj hmem => ?_⟩
    · refine hclears.keeps _ (keyBase_scheduledJob hmem) fun i hi heq => hi.2 ?_
      rwa [← (String.append_right_inj p).mp heq]
    · rw [Store.jobExists, hclears.erased j ⟨hj, hmem⟩]
      rfl

end Drain

/-! ### A job in front of an iteration -/

/-- A job is added, and then a scheduler whose first iteration is due at once. -/
def jobThenScheduler : List QueueCommand :=
  [.job (.addStandardJob "bull:q:"
    { name := "n", data := noTemplateData, timestamp := 1000, customId := "", opts := {} }),
   .addJobScheduler "bull:q:"
     { nextMillis := 1000, opts := { name := "n", every := some 1000 }, jobSchedulerId := "s",
       templateData := noTemplateData, timestamp := 1000 }]

/-- The store these commands lead to. -/
def jobThenSchedulerStore : Store := (runQueue jobThenScheduler .empty).getD .empty

/-- The drain takes the iteration off the wait list, and leaves the job it has deleted there. -/
theorem drain_drops_iteration :
    runQueue jobThenScheduler .empty = some jobThenSchedulerStore ∧
    jobThenSchedulerStore (.list .wait) "bull:q:" = ["repeat:s:1000", "1"] ∧
    (Script.drain "bull:q:" false jobThenSchedulerStore).2 (.list .wait) "bull:q:" = ["1"] ∧
    (Script.drain "bull:q:" false jobThenSchedulerStore).2.jobExists "bull:q:1" = false ∧
    ¬ DrainExact "bull:q:" false jobThenSchedulerStore
      (Script.drain "bull:q:" false jobThenSchedulerStore).2 := by
  have hafter : (Script.drain "bull:q:" false jobThenSchedulerStore).2 (.list .wait) "bull:q:" =
      ["1"] := by decide +kernel
  refine ⟨rfl, by decide +kernel, hafter, by decide +kernel, fun h => ?_⟩
  have hwait := h.wait
  rw [hafter] at hwait
  exact absurd hwait (by decide +kernel)

end BullMQ
