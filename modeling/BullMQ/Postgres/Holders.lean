import BullMQ.Postgres.Evolution

/-!
# Holders of deduplication keys

A job holds a deduplication id if it carries the id and has not finished. `Calm K` says that a call
leaves the deduplication tables alone and that holders with a key in `K` stay holders; `Settled K`
adds that no job is new. Most functions are calm for all keys, and those that delete or finish jobs
for the keys of the others.
-/

namespace BullMQ.Postgres

open Sql

/-- A job carries a deduplication id and has not finished. -/
structure JobRow.Holds (row : JobRow) (dedupId : String) : Prop where
  not_completed : row.state ≠ .completed
  not_failed : row.state ≠ .failed
  dedupId_eq : row.dedupId = some dedupId

instance (row : JobRow) (dedupId : String) : Decidable (row.Holds dedupId) :=
  decidable_of_iff
    (row.state ≠ .completed ∧ row.state ≠ .failed ∧ row.dedupId = some dedupId)
    ⟨fun h => ⟨h.1, h.2.1, h.2.2⟩, fun h => ⟨h.1, h.2, h.3⟩⟩

/-- A job that moves to a state in which it has not finished. -/
theorem JobRow.Holds.of_state {row row' : JobRow} {d : String} (h : row.Holds d) (state : JobState)
    (hstate : row'.state = state) (hdedup : row'.dedupId = row.dedupId)
    (hnot : state ≠ .completed ∧ state ≠ .failed) : row'.Holds d := by
  refine ⟨?_, ?_, hdedup.trans h.dedupId_eq⟩
  · rw [hstate]
    exact hnot.1
  · rw [hstate]
    exact hnot.2

/-- A job whose state and id stay. -/
theorem JobRow.Holds.of_same {row row' : JobRow} {d : String} (h : row.Holds d)
    (hstate : row'.state = row.state) (hdedup : row'.dedupId = row.dedupId) : row'.Holds d :=
  h.of_state _ hstate hdedup ⟨h.not_completed, h.not_failed⟩

/-- The deduplication tables are as before, and holders with a key in `K` stay holders. -/
structure Calm (K : JobKey → Prop) (db db' : Db) : Prop where
  dedup : db'.dedup = db.dedup
  dedupNext : db'.dedupNext = db.dedupNext
  holders : ∀ d, Table.RowsStay (fun k row => K k ∧ row.Holds d) db.job db'.job

/-- A call that is calm adds no job either, and draws no id. -/
structure Settled (K : JobKey → Prop) (db db' : Db) : Prop extends Calm K db db' where
  old : Table.RowsFrom (fun _ _ => True) db.job db'.job
  jobIdSeq : db'.jobIdSeq = db.jobIdSeq

section Relations

variable {K K' : JobKey → Prop} {db db' db'' : Db}

namespace Calm

theorem refl (db : Db) : Calm K db db := ⟨rfl, rfl, fun _ => .refl _⟩

/-- Calls that are calm compose. -/
theorem trans (h : Calm K db db') (h' : Calm K db' db'') : Calm K db db'' where
  dedup := h'.dedup.trans h.dedup
  dedupNext := h'.dedupNext.trans h.dedupNext
  holders d := (h.holders d).trans (h'.holders d)

/-- What is calm for more keys is calm for fewer. -/
theorem mono (h : Calm K' db db') (hK : ∀ k, K k → K' k) : Calm K db db' where
  dedup := h.dedup
  dedupNext := h.dedupNext
  holders d k row hrow hP := by
    obtain ⟨row', hrow', hP'⟩ := h.holders d k row hrow ⟨hK k hP.1, hP.2⟩
    exact ⟨row', hrow', hP.1, hP'.2⟩

/-- A change of other tables follows. -/
theorem of_tables (h : Calm K db db') (hjob : db''.job = db'.job) (hdedup : db''.dedup = db'.dedup)
    (hnext : db''.dedupNext = db'.dedupNext) : Calm K db db'' where
  dedup := hdedup.trans h.dedup
  dedupNext := hnext.trans h.dedupNext
  holders d := by
    rw [hjob]
    exact h.holders d

/-- Events are in a table of their own. -/
theorem publish (h : Calm K db db') (queue : String) (e : Event) :
    Calm K db (publishEvent queue e db') :=
  h.of_tables (publishEvent_job _ _ _) (publishEvent_dedup _ _ _) (publishEvent_dedupNext _ _ _)

/-- Rows of holders that hold the id after they are written. -/
theorem updateJobs (h : Calm K db db') (cond : JobKey → JobRow → Bool) {f : JobRow → JobRow}
    (hf : ∀ k row d, db'.job.find k = some row → cond k row = true → K k → row.Holds d →
      (f row).Holds d) : Calm K db (db'.updateJobs cond f) :=
  h.trans
    { dedup := rfl
      dedupNext := rfl
      holders := fun d => .update _ fun k row hrow hcond hP =>
        ⟨hP.1, hf k row d hrow hcond hP.1 hP.2⟩ }

theorem updateJob (h : Calm K db db') (k : JobKey) {f : JobRow → JobRow}
    (hf : ∀ row d, db'.job.find k = some row → K k → row.Holds d → (f row).Holds d) :
    Calm K db (db'.updateJob k f) :=
  h.updateJobs _ fun k' row d hrow hk hK hholds => by
    obtain rfl : k' = k := by simpa using hk
    exact hf row d hrow hK hholds

/-- Rows that go, none of them that of a holder with a key in `K`. -/
theorem deleteJobs (h : Calm K db db') {cond : JobKey → JobRow → Bool}
    (hcond : ∀ k row d, db'.job.find k = some row → K k → row.Holds d → cond k row = false) :
    Calm K db (db'.deleteJobs cond) :=
  h.trans
    { dedup := rfl
      dedupNext := rfl
      holders := fun d => .delete _ fun k row hrow hP => hcond k row d hrow hP.1 hP.2 }

theorem deleteJob (h : Calm K db db') {k : JobKey} (hk : ¬ K k) : Calm K db (db'.deleteJob k) :=
  h.deleteJobs fun _ _ _ _ hK _ => decide_eq_false fun heq => hk (heq ▸ hK)

/-- An insert does not touch the rows that are there. -/
theorem insert (h : Calm K db db') {k : JobKey} {row : JobRow}
    (hjob : db''.job = db'.job.insert k row) (hdedup : db''.dedup = db'.dedup)
    (hnext : db''.dedupNext = db'.dedupNext) : Calm K db db'' :=
  h.trans
    { dedup := hdedup
      dedupNext := hnext
      holders := fun d => by
        rw [hjob]
        exact .insert _ _ _ }

/-- An insert, or a change that keeps a holder one. -/
theorem upsert (h : Calm K db db') {k : JobKey} {row : JobRow} {f : JobRow → JobRow}
    (hjob : db''.job = db'.job.upsert k row f) (hdedup : db''.dedup = db'.dedup)
    (hnext : db''.dedupNext = db'.dedupNext) (hf : ∀ row d, row.Holds d → (f row).Holds d) :
    Calm K db db'' := by
  unfold Table.upsert at hjob
  split at hjob
  · exact h.insert hjob hdedup hnext
  · exact (h.updateJob k fun row d _ _ => hf row d).of_tables hjob hdedup hnext

/-- A loop is calm if each of its rounds is. -/
theorem foldl {β γ : Type} (tables : γ → Db) {step : γ → β → γ}
    (h : ∀ c b, Calm K (tables c) (tables (step c b))) (bs : List β) (c : γ) :
    Calm K (tables c) (tables (bs.foldl step c)) := by
  induction bs generalizing c with
  | nil => exact .refl _
  | cons b bs ih => exact (h c b).trans (ih (step c b))

end Calm

namespace Settled

theorem refl (db : Db) : Settled K db db := ⟨.refl db, .refl _, rfl⟩

theorem trans (h : Settled K db db') (h' : Settled K db' db'') : Settled K db db'' where
  toCalm := h.toCalm.trans h'.toCalm
  old := h.old.trans h'.old
  jobIdSeq := h'.jobIdSeq.trans h.jobIdSeq

/-- A change of other tables follows. -/
theorem of_tables (h : Settled K db db') (hjob : db''.job = db'.job)
    (hdedup : db''.dedup = db'.dedup) (hnext : db''.dedupNext = db'.dedupNext)
    (hseq : db''.jobIdSeq = db'.jobIdSeq) : Settled K db db'' where
  toCalm := h.toCalm.of_tables hjob hdedup hnext
  old := by
    rw [hjob]
    exact h.old
  jobIdSeq := hseq.trans h.jobIdSeq

theorem publish (h : Settled K db db') (queue : String) (e : Event) :
    Settled K db (publishEvent queue e db') := by
  obtain ⟨_, heq⟩ := publishEvent_frame queue e db'
  rw [heq]
  exact h.of_tables rfl rfl rfl rfl

theorem updateJob (h : Settled K db db') (k : JobKey) {f : JobRow → JobRow}
    (hf : ∀ row d, db'.job.find k = some row → K k → row.Holds d → (f row).Holds d) :
    Settled K db (db'.updateJob k f) where
  toCalm := h.toCalm.updateJob k hf
  old := h.old.trans (.updateKey _ _ fun _ _ _ => trivial)
  jobIdSeq := h.jobIdSeq

/-- Deletions bring no new job. -/
theorem deleteJobs (h : Settled K db db') {cond : JobKey → JobRow → Bool}
    (hcond : ∀ k row d, db'.job.find k = some row → K k → row.Holds d → cond k row = false) :
    Settled K db (db'.deleteJobs cond) where
  toCalm := h.toCalm.deleteJobs hcond
  old := h.old.trans (.delete _ _)
  jobIdSeq := h.jobIdSeq

theorem deleteJob (h : Settled K db db') {k : JobKey} (hk : ¬ K k) :
    Settled K db (db'.deleteJob k) :=
  h.deleteJobs fun _ _ _ _ hK _ => decide_eq_false fun heq => hk (heq ▸ hK)

end Settled

end Relations

section Functions

variable {K : JobKey → Prop} (db : Db)

/-! ### Parents and children -/

/-- A parent that leaves `waiting-children` goes back in line, delayed or waiting. -/
theorem moveParentToWait_settled (parent : JobKey) (now : ℤ) :
    Settled K db (moveParentToWait parent now db) := by
  unfold moveParentToWait
  split
  · exact .refl db
  split
  · dsimp only
    split
    · refine .publish (.updateJob (.of_tables (.refl db) ?_ ?_ ?_ ?_) _ fun _ _ _ _ h => ?_) _ _
      all_goals first | exact rfl | exact h.of_state .delayed rfl rfl (by decide)
    · refine .publish (.updateJob (.of_tables (.refl db) ?_ ?_ ?_ ?_) _ fun _ _ _ _ h => ?_) _ _
      all_goals first | exact rfl | exact h.of_state .waiting rfl rfl (by decide)
  · exact .refl db

/-- The counter of a parent is no part of what it holds. -/
theorem settleDependency_settled (parent : JobKey) (now : ℤ) :
    Settled K db (settleDependency parent now db) := by
  have hdec : Settled K db (db.decrementDeps parent) :=
    .updateJob (.refl db) _ fun _ _ _ _ h => h.of_same rfl rfl
  simp only [settleDependency]
  split
  · exact hdec.trans (moveParentToWait_settled _ _ _)
  · exact hdec

/-- A parent that fails with its child does so when it is claimed, so that it still holds its id. -/
theorem handleChildFailure_settled (child : JobKey) (reason : String) (now : ℤ) :
    Settled K db (handleChildFailure child reason now db) := by
  unfold handleChildFailure
  split
  · exact .refl db
  split
  · exact .refl db
  split
  · dsimp only
    split
    · refine .trans (.updateJob
        (.updateJob (.of_tables (.refl db) ?_ ?_ ?_ ?_) _ fun _ _ _ _ h => ?_)
        _ fun _ _ _ _ h => ?_) (moveParentToWait_settled _ _ _)
      all_goals first | exact rfl | exact h.of_same rfl rfl
    · split
      · refine .trans (.updateJob (.of_tables (.refl db) ?_ ?_ ?_ ?_) _ fun _ _ _ _ h => ?_)
          (moveParentToWait_settled _ _ _)
        all_goals first | exact rfl | exact h.of_same rfl rfl
      · split
        · refine .trans (.of_tables (.refl db) ?_ ?_ ?_ ?_) (settleDependency_settled _ _ _)
          all_goals exact rfl
        · split
          · refine .trans (.of_tables (.refl db) ?_ ?_ ?_ ?_) (settleDependency_settled _ _ _)
            all_goals exact rfl
          · exact .refl db
  · exact .refl db

theorem detachPending_settled (child parent : JobKey) (now : ℤ) :
    Settled K db (detachPending child parent now db) := by
  unfold detachPending
  split
  · refine .trans (.of_tables (.refl db) ?_ ?_ ?_ ?_) (settleDependency_settled _ _ _)
    all_goals exact rfl
  · exact .refl db

/-- The value of a child is stored at its parent, which may go back in line. -/
theorem processDependency_settled (child : JobKey) (parent : Option JobKey) (value : Option String)
    (now : ℤ) : Settled K db (processDependency child parent value now db) := by
  unfold processDependency
  split
  · exact .refl db
  · refine .trans (.of_tables (.refl db) ?_ ?_ ?_ ?_) (settleDependency_settled _ _ _)
    all_goals exact rfl

/-- The parent of a child is forgotten and settled. -/
theorem removeChildDependency_calm {child : JobKey} {now : ℤ} {r : ℤ × Db}
    (h : removeChildDependency child now db = .ok r) : Calm K db r.2 := by
  unfold removeChildDependency at h
  split at h
  · cases h
  split at h
  · cases h
    exact .refl db
  split at h
  · cases h
  split at h
  · cases h
    exact .refl db
  · cases h
    refine .trans (.updateJob (.of_tables (.refl db) ?_ ?_ ?_) _ fun _ _ _ _ h => ?_)
      (settleDependency_settled _ _ _).toCalm
    all_goals first | exact rfl | exact h.of_same rfl rfl

/-- A job that is added again changes parents, and holds what it held. -/
theorem handleDuplicatedJob_calm (k : JobKey) (parent : Option JobKey) (now : ℤ) :
    Calm K db (handleDuplicatedJob k parent now db).2 := by
  unfold handleDuplicatedJob
  split
  · exact .publish (.refl db) _ _
  · dsimp only
    split
    · exact .refl db
    · refine .publish (.updateJob ?_ _ fun _ _ _ _ h => ?_) _ _
      rotate_left
      · exact h.of_same rfl rfl
      split
      · split
        · refine .trans (.of_tables (.refl db) ?_ ?_ ?_) (moveParentToWait_settled _ _ _).toCalm
          all_goals exact rfl
        · exact .of_tables (.refl db) rfl rfl rfl
      · split
        · refine .updateJob (.of_tables (.refl db) ?_ ?_ ?_) _ fun _ _ _ _ h => ?_
          all_goals first | exact rfl | exact h.of_same rfl rfl
        · exact .refl db

/-- A new child is counted at its parent. -/
theorem registerChild_calm (k : JobKey) (parent : Option JobKey) :
    Calm K db (registerChild k parent db) := by
  unfold registerChild
  split
  · exact .refl db
  · refine .updateJob (.of_tables (.refl db) ?_ ?_ ?_) _ fun _ _ _ _ h => ?_
    all_goals first | exact rfl | exact h.of_same rfl rfl

/-! ### Processing -/

/-- A delayed job that is due waits. -/
theorem promoteDue_calm (queue : String) (now : ℤ) : Calm K db (promoteDue queue now db) := by
  unfold promoteDue
  dsimp only
  refine .trans (.updateJobs (.refl db) (dueIn queue now) fun _ _ _ _ _ _ h => ?_)
    (Calm.foldl id (fun db id => .publish (.refl db) _ _) _ _)
  exact h.of_state .waiting rfl rfl (by decide)

/-- The job that is claimed is active, and holds its id as before. -/
theorem moveToActive_calm (queue : String) (args : ClaimArgs) :
    Calm K db (moveToActive queue args db).2 := by
  have hpromote : Calm K db (promoteDue queue args.now db) := promoteDue_calm db queue args.now
  have htoken : ∀ db : Db, Calm K db (consumeToken queue args db) := by
    intro db
    unfold consumeToken
    repeat' split
    all_goals exact .of_tables (.refl db) rfl rfl rfl
  unfold moveToActive
  dsimp only
  split
  · exact hpromote
  split
  · exact hpromote
  split
  · exact hpromote
  split
  · exact hpromote
  · refine .publish (.updateJob (hpromote.trans (htoken _)) _ fun _ _ _ _ h => ?_) _ _
    exact h.of_state .active rfl rfl (by decide)

theorem extendLock_calm (k : JobKey) (token : String) (lockMs now : ℤ) :
    Calm K db (extendLock k token lockMs now db).2 :=
  .updateJobs (.refl db) _ fun _ _ _ _ _ _ h => h.of_same rfl rfl

/-- An active job that is delayed has not finished. -/
theorem moveToDelayed_calm {k : JobKey} {token : String} {processAt delay : ℤ}
    {skipAttempt : Bool} {failedReason stacktrace : Option String} {db' : Db}
    (h : moveToDelayed k token processAt delay skipAttempt failedReason stacktrace db = .ok db') :
    Calm K db db' := by
  unfold moveToDelayed at h
  split at h
  · cases h
  · cases h
    refine .publish (.updateJob (.refl db) _ fun _ _ _ _ h => ?_) _ _
    exact h.of_state .delayed rfl rfl (by decide)

/-- An active job that is retried has not finished. -/
theorem retryJob_calm {k : JobKey} {token : String} {lifo : Bool}
    {failedReason stacktrace : Option String} {db' : Db}
    (h : retryJob k token lifo failedReason stacktrace db = .ok db') : Calm K db db' := by
  unfold retryJob at h
  split at h
  · cases h
  · cases h
    refine .publish (.updateJob (.of_tables (.refl db) ?_ ?_ ?_) _ fun _ _ _ _ h => ?_) _ _
    all_goals first | exact rfl | exact h.of_state .waiting rfl rfl (by decide)

/-- An active job that goes back in line has not finished. -/
theorem moveActiveToWait_calm (k : JobKey) (token : String) (now : ℤ) :
    Calm K db (moveActiveToWait k token now db).2 := by
  unfold moveActiveToWait
  split
  · exact .refl db
  · dsimp only
    have hmove : ∀ row : JobRow, Calm K db
        (if row.state = .active ∧ (token = "0" ∨ row.lockToken = some token) then
          publishEvent k.queue (.waiting k.id (some "active"))
            (db.nextJobSeq.2.updateJob k fun row =>
              { row.unlock .waiting with
                seq := if 0 < row.priority then -db.nextJobSeq.1 else db.nextJobSeq.1 })
        else db) := by
      intro row
      split
      · refine .publish (.updateJob (.of_tables (.refl db) ?_ ?_ ?_) _ fun _ _ _ _ h => ?_) _ _
        all_goals first | exact rfl | exact h.of_state .waiting rfl rfl (by decide)
      · exact .refl db
    split
    · exact hmove _
    · exact hmove _

/-- An active job that waits for its children has not finished. -/
theorem moveToWaitingChildren_calm {k : JobKey} {token : String} {r : Bool × Db}
    (h : moveToWaitingChildren k token db = .ok r) : Calm K db r.2 := by
  unfold moveToWaitingChildren at h
  repeat' split at h
  all_goals cases h
  · exact .updateJob (.refl db) _ fun _ _ _ _ h => h.of_state .waitingChildren rfl rfl (by decide)
  · exact .refl db

/-- A stalled job goes back in line. One that stalled too often fails when it is claimed. -/
theorem moveStalledJobsToWait_calm (queue : String) (maxStalled now maxCheckTime : ℤ) :
    Calm K db (moveStalledJobsToWait queue maxStalled now maxCheckTime db).2 := by
  have hone : ∀ (db : Db) (r : JobKey × JobRow), Calm K db (reclaimJob maxStalled db r) := by
    intro db r
    simp only [reclaimJob]
    refine .publish (.updateJob (.of_tables (.refl db) ?_ ?_ ?_) _ fun _ _ _ _ h => ?_) _ _
    all_goals first | exact rfl | exact h.of_state .waiting rfl rfl (by decide)
  unfold moveStalledJobsToWait
  split
  · exact .refl db
  · dsimp only
    refine .updateJobs (.updateJobs (.trans (.of_tables (.refl db) ?_ ?_ ?_)
      (Calm.foldl id hone _ _)) _ fun _ _ _ _ _ _ h => ?_) _ fun _ _ _ _ _ _ h => ?_
    all_goals first | exact rfl | exact h.of_same rfl rfl

/-! ### Ends of jobs -/

/-- Retention deletes jobs that have finished in the same state, and with them the given job. -/
theorem applyRetention_settled {k : JobKey} (hk : ¬ K k) (state : FinishedStatus) (now : ℤ)
    (keep : KeepJobs) : Settled K db (applyRetention k (finishedState state) now keep db) := by
  have hstate : ∀ (row : JobRow) (d : String), row.Holds d →
      decide (row.state = finishedState state) = false := by
    intro row d h
    cases state
    · exact decide_eq_false h.not_completed
    · exact decide_eq_false h.not_failed
  unfold applyRetention
  split
  · refine .deleteJob ?_ hk
    split
    · exact .refl db
    · exact detachPending_settled _ _ _ _
  · -- Each pass deletes some jobs of the state or none.
    have hpass : ∀ (b : Prop) [Decidable b] {db' : Db} (c d : JobKey → JobRow → Bool),
        Settled K db db' → Settled K db (if b then db'.deleteJobs fun k' row =>
          c k' row && decide (row.state = finishedState state) && d k' row else db') := by
      intro b _ db' c d h
      split
      · refine .deleteJobs h fun k' row dedupId _ _ hholds => ?_
        rw [hstate row dedupId hholds, Bool.and_false, Bool.false_and]
      · exact h
    cases keep.age with
    | none =>
      cases keep.count with
      | none => exact .refl db
      | some count => exact hpass _ _ _ (.refl db)
    | some age =>
      cases keep.count with
      | none => exact hpass _ _ _ (.refl db)
      | some count => exact hpass _ _ _ (hpass _ _ _ (.refl db))

/-- A job that is not kept is deleted as it finishes. -/
theorem applyRetention_removeAll {k : JobKey} {state : JobState} {now : ℤ} {keep : KeepJobs}
    (h : keep.removeAll = true) : (applyRetention k state now keep db).job.find k = none := by
  rw [applyRetention, if_pos h]
  simp only [Db.deleteJob, Db.deleteJobs, Table.find_delete, decide_true, Bool.not_true]
  exact Option.filter_eq_none_iff.mpr fun _ _ => Bool.false_ne_true

theorem announceDrained_calm (queue : String) : Calm K db (announceDrained queue db) := by
  unfold announceDrained
  split
  · exact .publish (.refl db) _ _
  · exact .refl db

/-- The tail of a call that finishes a job: its deduplication key and the successor. -/
def finishKey (k : JobKey) (dedupId : Option String) (now : ℤ) (db : Db) : Db :=
  announceDrained k.queue
    (requeueDedupNext k.queue dedupId now (dedupFinalize k.queue dedupId k.id now db))

/-- The job whose token matches is there and active. -/
theorem heldJob_ok {k : JobKey} {token : String} {row : JobRow} (h : db.heldJob k token = .ok row) :
    db.job.find k = some row ∧ row.state = .active := by
  unfold Db.heldJob at h
  split at h
  · cases h
  · next row' hrow =>
    split at h
    · cases h
    · next hstate =>
      split at h
      · cases h
      · cases h
        exact ⟨hrow, not_not.mp hstate⟩

/-- A call that completes a job settles everything but its key, and then the key. -/
theorem moveToCompleted_finishes {k : JobKey} {token : String} {returnValue : Option String}
    {finishedOn : ℤ} {keep : KeepJobs} {db' : Db}
    (h : moveToCompleted k token returnValue finishedOn keep db = .ok db') :
    ∃ row mid, db.heldJob k token = .ok row ∧ db.hasDep k .pending = false ∧
      db.hasDep k .failed = false ∧ Settled (· ≠ k) db mid ∧
      (keep.removeAll = true → mid.job.find k = none) ∧
      db' = finishKey k row.dedupId finishedOn mid := by
  unfold moveToCompleted at h
  split at h
  · cases h
  · next row hheld =>
    split at h
    · cases h
    · next hpending =>
      split at h
      · cases h
      · next hfailed =>
        cases h
        refine ⟨row, _, hheld, by simpa using hpending, by simpa using hfailed, ?_, ?_, rfl⟩
        · refine .trans (.trans (.publish (.updateJob (.refl db) _ fun _ _ _ hk _ => ?_) _ _)
            (processDependency_settled _ _ _ _ _))
            (applyRetention_settled _ (fun h => h rfl) .completed _ _)
          exact absurd rfl hk
        · exact applyRetention_removeAll _

/-- Likewise for a job that fails. -/
theorem moveToFailed_finishes {k : JobKey} {token failedReason : String}
    {stacktrace : Option String} {finishedOn : ℤ} {keep : KeepJobs} {db' : Db}
    (h : moveToFailed k token failedReason stacktrace finishedOn keep db = .ok db') :
    ∃ row mid, db.heldJob k token = .ok row ∧ Settled (· ≠ k) db mid ∧
      (keep.removeAll = true → mid.job.find k = none) ∧
      db' = finishKey k row.dedupId finishedOn mid := by
  unfold moveToFailed at h
  split at h
  · cases h
  · next row hheld =>
    cases h
    refine ⟨row, _, hheld, ?_, ?_, rfl⟩
    · refine .trans (.trans (.publish (.publish (.updateJob (.refl db) _ fun _ _ _ hk _ => ?_) _ _)
        _ _) (handleChildFailure_settled _ _ _ _))
        (applyRetention_settled _ (fun h => h rfl) .failed _ _)
      exact absurd rfl hk
    · exact applyRetention_removeAll _

/-! ### Retries, promotions and bulk adds -/

/-- Rows that are moved to the end of the line. -/
theorem requeueAll_calm {f : JobRow → JobRow} (hf : ∀ row d, row.Holds d → (f row).Holds d)
    (keys : List JobKey) : Calm K db (requeueAll keys f db) := by
  refine Calm.foldl id (fun db k => ?_) keys db
  refine .updateJob (.of_tables (.refl db) ?_ ?_ ?_) _ fun row d _ _ h => ?_
  all_goals first | exact rfl | exact (hf row d h).of_same rfl rfl

/-- The jobs that are retried had finished, so that they held nothing. -/
theorem retryJobs_calm (queue : String) (state : FinishedStatus) (count : ℕ)
    (timestamp : Option ℤ) :
    Calm K db (retryJobs queue state count timestamp db).2 := by
  refine requeueAll_calm db (fun _ _ h => ?_) _
  exact h.of_state .waiting rfl rfl (by decide)

theorem promoteJobs_calm (queue : String) (count : ℕ) :
    Calm K db (promoteJobs queue count db).2 := by
  refine requeueAll_calm db (fun _ _ h => ?_) _
  exact h.of_state .waiting rfl rfl (by decide)

theorem promote_calm (k : JobKey) : Calm K db (promote k db).2 := by
  unfold promote
  split
  · exact .refl db
  split
  · exact .refl db
  · refine .publish (.updateJob (.of_tables (.refl db) ?_ ?_ ?_) _ fun _ _ _ _ h => ?_) _ _
    all_goals first | exact rfl | exact h.of_state .waiting rfl rfl (by decide)

theorem changeDelay_calm (k : JobKey) (delay now : ℤ) :
    Calm K db (changeDelay k delay now db).2 := by
  unfold changeDelay
  split
  · exact .refl db
  split
  · exact .refl db
  · exact .updateJob (.refl db) _ fun _ _ _ _ h => h.of_same rfl rfl

theorem changePriority_calm (k : JobKey) (priority : ℤ) (lifo : Bool) :
    Calm K db (changePriority k priority lifo db).2 := by
  unfold changePriority
  split
  · exact .refl db
  split
  · refine .updateJob (.of_tables (.refl db) ?_ ?_ ?_) _ fun _ _ _ _ h => ?_
    all_goals first | exact rfl | exact h.of_same rfl rfl
  · exact .updateJob (.refl db) _ fun _ _ _ _ h => h.of_same rfl rfl

/-- A finished job held nothing, and its parent waits for it again. -/
theorem reprocessJob_calm (k : JobKey) (state : FinishedStatus)
    (lifo resetMade resetStarted : Bool) :
    Calm K db (reprocessJob k state lifo resetMade resetStarted db).2 := by
  have hawait : ∀ (db : Db) (parent : Option JobKey), Calm K db (awaitAgain k parent state db) := by
    intro db parent
    unfold awaitAgain
    split
    · exact .refl db
    split
    · refine .updateJob (.of_tables (.refl db) ?_ ?_ ?_) _ fun _ _ _ _ h => ?_
      all_goals first | exact rfl | exact h.of_same rfl rfl
    · exact .refl db
  unfold reprocessJob
  split
  · exact .refl db
  split
  · exact .refl db
  · refine .publish (.trans (.updateJob (.of_tables (.refl db) ?_ ?_ ?_) _ fun _ _ _ _ h => ?_)
      (hawait _ _)) _ _
    all_goals first | exact rfl | exact h.of_state .waiting rfl rfl (by decide)

/-- A batch passes over the jobs that are there. -/
theorem insertBatch_calm (queue : String) (rows : List BulkRow) :
    Calm K db { db with job := (insertBatch queue rows db.job).2 } := by
  induction rows generalizing db with
  | nil => exact .refl db
  | cons r rows ih =>
    simp only [insertBatch]
    refine .trans ?_ (ih { db with job := _ })
    apply Calm.insert (.refl db)
    all_goals exact rfl

/-- A bulk add asks for no deduplication. -/
theorem addJobsBulk_calm (queue : String) (entries : List Entry) :
    Calm K db (addJobsBulk queue entries db).2 := by
  have hdraw : ∀ (entries : List Entry) (db : Db), Calm K db (drawIds queue entries db).2 := by
    intro entries
    induction entries with
    | nil => exact fun db => .refl db
    | cons e entries ih =>
      intro db
      simp only [drawIds]
      refine .trans ?_ (ih _)
      split
      · exact .of_tables (.refl db) rfl rfl rfl
      · exact .refl db
  have hseqs : ∀ (n : ℕ) (db : Db), Calm K db (reserveSeqs n db).2 := by
    intro n
    induction n with
    | zero => exact fun db => .refl db
    | succ n ih =>
      intro db
      simp only [reserveSeqs]
      refine .trans ?_ (ih _)
      exact .of_tables (.refl db) rfl rfl rfl
  simp only [addJobsBulk, appendEvents_eq]
  refine ((hdraw entries db).trans (hseqs entries.length _)).trans ?_
  exact .of_tables (insertBatch_calm _ queue (bulkRows entries (drawIds queue entries db).1
    (reserveSeqs entries.length (drawIds queue entries db).2).1)) rfl rfl rfl

theorem flushEvents_calm (events : List (String × Event)) : Calm K db (flushEvents events db) := by
  have htrim : ∀ (db : Db) (queue : String), Calm K db (trimToMax db queue) := by
    intro db queue
    obtain heq | ⟨cutoff, heq⟩ := trimToMax_cases db queue
    · rw [heq]
      exact .refl db
    · rw [heq]
      exact .of_tables (.refl db) rfl rfl rfl
  rw [flushEvents, appendEvents_eq]
  refine .trans ?_ (Calm.foldl id htrim _ _)
  exact .of_tables (.refl db) rfl rfl rfl

/-! ### Schedulers -/

/-- The job of the pending iteration of a scheduler, which functions may delete. -/
def Db.pendingIteration (db : Db) (queue schedulerId : String) : Option JobKey :=
  (db.nextRun queue schedulerId).map fun next => ⟨queue, schedulerJobId schedulerId next⟩

/-- An upsert deletes at most the pending iteration. -/
theorem addJobScheduler_calm {queue : String} {a : SchedulerArgs} {r : (String × ℤ) × Db}
    (hK : ∀ k, db.pendingIteration queue a.schedulerId = some k →
      deletesPending queue a.schedulerId db = true → ¬ K k)
    (h : addJobScheduler queue a db = .ok r) : Calm K db r.2 := by
  have hdelete : Calm K db (deletePending queue a.schedulerId db) := by
    unfold deletePending
    split
    · next prev hprev =>
      split
      · next hdel =>
        refine .deleteJob (.refl db) (hK _ ?_ hdel)
        rw [Db.pendingIteration, hprev]
        rfl
      · exact .refl db
    · exact .refl db
  simp only [addJobScheduler] at h
  split at h
  · cases h
  · cases h
    refine hdelete.trans ?_
    apply Calm.upsert (.refl _)
    · exact rfl
    · exact rfl
    · exact rfl
    · intro row d hrow
      refine hrow.of_state _ rfl rfl ?_
      simp only [schedulerJob, JobRow.replaceBy]
      split <;> simp

/-- The next iteration is a new job. -/
theorem updateJobSchedulerNextMillis_calm (queue : String) (a : AdvanceArgs) :
    Calm K db (updateJobSchedulerNextMillis queue a db).2 := by
  unfold updateJobSchedulerNextMillis
  split
  · exact .refl db
  dsimp only
  split
  · split
    · exact .publish (.refl db) _ _
    · apply Calm.insert (.refl db)
      all_goals exact rfl
  · exact .refl db

/-- A scheduler takes at most its delayed iteration with it. -/
theorem removeJobScheduler_calm (queue schedulerId : String)
    (hK : ∀ k, db.pendingIteration queue schedulerId = some k →
      (db.job.find k).any (fun row => decide (row.state = .delayed)) = true → ¬ K k) :
    Calm K db (removeJobScheduler queue schedulerId db).2 := by
  simp only [removeJobScheduler]
  split
  · exact .of_tables (.refl db) rfl rfl rfl
  · next next hnext =>
    split
    · next hdelayed =>
      refine .of_tables (.publish (.deleteJob (.refl db) (hK _ ?_ hdelayed)) queue
        (.removed (schedulerJobId schedulerId next) "delayed")) ?_ ?_ ?_
      · rw [Db.pendingIteration, Db.nextRun, hnext]
        rfl
      all_goals exact rfl
    · exact .of_tables (.refl db) rfl rfl rfl

/-! ### Sweeps -/

/-- What a recount counts are the pending children. -/
theorem pendingCount_pos {db : Db} {k : JobKey} :
    0 < db.pendingCount k ↔ ∃ child, db.depStatus k child = some .pending := by
  rw [Db.pendingCount, List.length_pos_iff_exists_mem]
  simp only [Db.depStatus, Option.map_eq_some_iff]
  constructor
  · rintro ⟨⟨⟨parent, child⟩, row⟩, hmem⟩
    obtain ⟨hfind, hcond⟩ := Table.mem_select.mp hmem
    simp only [Bool.and_eq_true, decide_eq_true_eq] at hcond
    obtain ⟨rfl, hstatus⟩ := hcond
    exact ⟨child, row, hfind, hstatus⟩
  · rintro ⟨child, row, hfind, hstatus⟩
    refine ⟨((k, child), row), Table.mem_select.mpr ⟨hfind, ?_⟩⟩
    simp [hstatus]

section Recount

variable (queue : String)

theorem find_updateJob (db : Db) {k : JobKey} {row : JobRow} (h : db.job.find k = some row)
    (f : JobRow → JobRow) : (db.updateJob k f).job.find k = some (f row) := by
  rw [Db.updateJob, Table.find_updateKey, if_pos rfl, h]
  rfl

/-- A parent that is counted again leaves the other jobs alone. -/
theorem recountParent_other (db : Db) {parent k : JobKey} (h : k ≠ parent) :
    (recountParent queue db parent).job.find k = db.job.find k ∧
      (recountParent queue db parent).pendingCount k = db.pendingCount k := by
  have hfind : ∀ f, (db.updateJob parent f).job.find k = db.job.find k := fun f => by
    simp only [Db.updateJob, Table.find_updateKey, if_neg h]
  simp only [recountParent]
  split
  · split
    · constructor
      · simp only [Db.deleteJob, Db.deleteJobs, Table.find_delete, hfind, decide_eq_false h,
          Bool.not_false]
        cases db.job.find k <;> rfl
      · -- The dependencies that go with the parent are its own.
        simp only [Db.pendingCount, Table.select, Db.deleteJob, Db.deleteJobs, Table.delete,
          List.filter_filter]
        refine congrArg List.length (List.filter_congr fun r _ => ?_)
        by_cases hr : r.1.1 = k
        · have hne : r.1.1 ≠ parent := fun heq => h (hr.symm.trans heq)
          simp [hne]
        · simp [hr]
    · obtain ⟨_, heq⟩ := publishEvent_frame parent.queue
        (.waiting parent.id (some "waiting-children")) (((db.updateJob parent fun row =>
          { row with pendingDeps := db.pendingCount parent }).nextJobSeq.2).updateJob parent
            fun row =>
          { row with state := .waiting, seq := (db.updateJob parent fun row =>
            { row with pendingDeps := db.pendingCount parent }).nextJobSeq.1 })
      rw [heq]
      refine ⟨?_, rfl⟩
      simp only [Db.updateJob, Db.nextJobSeq, Table.find_updateKey, if_neg h]
  · exact ⟨hfind _, rfl⟩

/-- A holder that is counted again stays, unless it waits for children of which none is left. -/
theorem recountParent_self {db : Db} {k : JobKey} {row : JobRow} {d : String}
    (hrow : db.job.find k = some row)
    (hholds : row.Holds d)
    (hstays : k.queue = queue → row.state = .waitingChildren → 0 < db.pendingCount k) :
    ∃ row', (recountParent queue db k).job.find k = some row' ∧ row'.Holds d ∧
      (row'.state = .waitingChildren → row.state = .waitingChildren) ∧
      (recountParent queue db k).pendingCount k = db.pendingCount k := by
  have hcount : (db.updateJob k fun row =>
    { row with pendingDeps := db.pendingCount k }).job.find k =
      some { row with pendingDeps := db.pendingCount k } := find_updateJob db hrow _
  simp only [recountParent]
  split
  · next hwaits =>
    rw [hcount] at hwaits
    simp only [Option.any_some, Bool.and_eq_true, decide_eq_true_eq] at hwaits
    split
    · next hqueue =>
      have hpos := hstays hqueue hwaits.1
      omega
    · have hmoved := fun f => find_updateJob (db.updateJob k fun row =>
        { row with pendingDeps := db.pendingCount k }).nextJobSeq.2 hcount f
      refine ⟨_, (congrArg (Table.find · k) (publishEvent_job _ _ _)).trans (hmoved _), ?_, ?_, ?_⟩
      · exact hholds.of_state .waiting rfl rfl (by decide)
      · exact fun h => by cases h
      · rw [Db.pendingCount, publishEvent_dependency]
        rfl
  · exact ⟨_, hcount, hholds.of_same rfl rfl, id, rfl⟩

/-- A parent that holds an id holds it after a recount, if one that would be deleted has pending
children. -/
theorem foldl_recountParent_holds (parents : List JobKey) {db : Db} {k : JobKey} {row : JobRow}
    {d : String} (hrow : db.job.find k = some row) (hholds : row.Holds d)
    (hstays : k ∈ parents → k.queue = queue → row.state = .waitingChildren →
      0 < db.pendingCount k) :
    ∃ row', (parents.foldl (recountParent queue) db).job.find k = some row' ∧ row'.Holds d := by
  induction parents generalizing db row with
  | nil => exact ⟨row, hrow, hholds⟩
  | cons parent parents ih =>
    rw [List.foldl_cons]
    by_cases hk : k = parent
    · subst hk
      obtain ⟨row', hrow', hholds', hstate, hcount⟩ :=
        recountParent_self queue hrow hholds (hstays List.mem_cons_self)
      refine ih hrow' hholds' fun _ hqueue hwaits => ?_
      rw [hcount]
      exact hstays List.mem_cons_self hqueue (hstate hwaits)
    · obtain ⟨hfind, hcount⟩ := recountParent_other queue db hk
      refine ih (hfind.trans hrow) hholds fun hmem hqueue hwaits => ?_
      rw [hcount]
      exact hstays (List.mem_cons_of_mem _ hmem) hqueue hwaits

/-- A recount asks for no key. -/
theorem recountParent_dedup (db : Db) (parent : JobKey) :
    (recountParent queue db parent).dedup = db.dedup ∧
      (recountParent queue db parent).dedupNext = db.dedupNext := by
  simp only [recountParent]
  split
  · split
    · exact ⟨rfl, rfl⟩
    · rw [publishEvent_dedup, publishEvent_dedupNext]
      exact ⟨rfl, rfl⟩
  · exact ⟨rfl, rfl⟩

theorem foldl_recountParent_dedup (parents : List JobKey) (db : Db) :
    (parents.foldl (recountParent queue) db).dedup = db.dedup ∧
      (parents.foldl (recountParent queue) db).dedupNext = db.dedupNext := by
  induction parents generalizing db with
  | nil => exact ⟨rfl, rfl⟩
  | cons parent parents ih =>
    obtain ⟨h, h'⟩ := recountParent_dedup queue db parent
    obtain ⟨ih, ih'⟩ := ih (recountParent queue db parent)
    exact ⟨ih.trans h, ih'.trans h'⟩

end Recount

/-- What `drain` and `clean` share: they delete jobs of a queue and dependencies on them, and count
the children of the parents again. -/
def sweep (queue : String) (swept : JobKey → JobRow → Bool) (unlinked : JobKey → JobKey → Bool)
    (db : Db) : Db :=
  let parents := db.parentsOf swept
  let db := { db with dependency := db.dependency.delete fun d _ => unlinked d.1 d.2 }
  parents.foldl (recountParent queue) (db.deleteJobs swept)

/-- Whether a sweep deletes a job: it is swept, or a parent in the queue all of whose pending
children are. -/
def Db.sweeps (db : Db) (queue : String) (swept : JobKey → JobRow → Bool)
    (unlinked : JobKey → JobKey → Bool) (k : JobKey) : Prop :=
  ∃ row, db.job.find k = some row ∧ (swept k row = true ∨
    k ∈ db.parentsOf swept ∧ k.queue = queue ∧ row.state = .waitingChildren ∧
      ∀ child, db.depStatus k child = some .pending → unlinked k child = true)

/-- A sweep leaves the holders that are not swept. -/
theorem sweep_calm (queue : String) (swept : JobKey → JobRow → Bool)
    (unlinked : JobKey → JobKey → Bool) :
    Calm (fun k => ¬ db.sweeps queue swept unlinked k) db (sweep queue swept unlinked db) := by
  refine ⟨(foldl_recountParent_dedup _ _ _).1, (foldl_recountParent_dedup _ _ _).2, fun d => ?_⟩
  intro k row hrow ⟨hstays, hholds⟩
  have hswept : swept k row = false := by
    by_contra h
    exact hstays ⟨row, hrow, .inl (by simpa using h)⟩
  have hrow₁ : (Db.deleteJobs { db with
      dependency := db.dependency.delete fun d _ => unlinked d.1 d.2 } swept).job.find k =
      some row := by
    simp [Db.deleteJobs, Table.find_delete, hrow, hswept]
  obtain ⟨row', hrow', hholds'⟩ := foldl_recountParent_holds queue (db.parentsOf swept) hrow₁ hholds
    (fun hmem hqueue hwaits => by
      -- A pending child that is not swept keeps its dependency.
      have hchild : ∃ child, db.depStatus k child = some .pending ∧ unlinked k child = false := by
        by_contra hnone
        refine hstays ⟨row, hrow, .inr ⟨hmem, hqueue, hwaits, fun child hpending => ?_⟩⟩
        by_contra hlink
        exact hnone ⟨child, hpending, by simpa using hlink⟩
      obtain ⟨child, hpending, hlink⟩ := hchild
      refine pendingCount_pos.mpr ⟨child, ?_⟩
      obtain ⟨dep, hdep, hstatus⟩ := Option.map_eq_some_iff.mp hpending
      refine Option.map_eq_some_iff.mpr ⟨dep, ?_, hstatus⟩
      simp only [Db.deleteJobs, Table.find_delete, hdep, Option.filter_eq_some_iff]
      simp [hlink, hrow, hswept])
  exact ⟨row', hrow', hstays, hholds'⟩

/-- What `drain` unlinks from a parent. -/
def Db.drainUnlinks (db : Db) (queue : String) (delayed : Bool) (parent child : JobKey) : Bool :=
  (db.job.find child).any fun row =>
    drains queue delayed child row && decide (row.parent = some parent)

/-- A clean is a sweep of the jobs it finds. -/
theorem clean_eq_sweep (queue : String) (type : CleanType) (ts limit : ℤ) :
    (clean queue type ts limit db).2 =
      if db.cleaned queue type ts limit = [] then db
      else publishEvent queue (.cleaned (db.cleaned queue type ts limit).length)
        (sweep queue (fun k _ => decide (k ∈ db.cleaned queue type ts limit))
          (fun _ child => decide (child ∈ db.cleaned queue type ts limit)) db) := by
  unfold clean
  dsimp only
  split
  · rfl
  · rfl

/-- The jobs that `remove_unprocessed_children` deletes. -/
def Db.unprocessedTree (db : Db) (k : JobKey) : List JobKey :=
  closure db.unprocessedChildren db.job.rows.length (db.unprocessedChildren k).dedup
    (db.unprocessedChildren k).dedup

/-- Only the unprocessed children of a job go with it. -/
theorem removeUnprocessedChildren_calm (k : JobKey) :
    Calm (fun k' => k' ∉ db.unprocessedTree k) db (removeUnprocessedChildren k db) := by
  have hone : ∀ (tree : List JobKey) (db : Db),
      Calm (fun k' => k' ∉ tree) db (tree.foldl removeUnprocessedChild db) := by
    intro tree
    induction tree with
    | nil => exact fun db => .refl db
    | cons child tree ih =>
      intro db
      rw [List.foldl_cons]
      refine .trans ?_ ((ih _).mono fun _ h hmem => h (List.mem_cons_of_mem _ hmem))
      refine .publish (.deleteJob (.updateJobs (.refl db) _ fun _ _ _ _ _ _ h => ?_) ?_) _ _
      · exact h.of_same rfl rfl
      · exact fun h => h List.mem_cons_self
  exact hone _ db

end Functions

end BullMQ.Postgres
