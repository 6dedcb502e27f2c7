import BullMQ.Postgres.Command
import BullMQ.Sql.Rows

/-!
# How the rows of jobs evolve

`Edit` bounds what a function does to the row of a job as far as its lock and its mark go: only an
active job has a lock, and no function but a pass over stalled jobs sets a mark. New rows are
`Fresh`. `Evolves` says that the rows after a call are fresh or come from rows before it by edits;
`exec_evolves` has it for every command but a pass.
-/

namespace BullMQ.Postgres

open Sql

/-! ### Rows -/

/-- A lock on a job that is not active was there before, and so was a mark. -/
structure Edit (row row' : JobRow) : Prop where
  lock : row'.lockToken ≠ none → row'.state ≠ .active → row.lockToken ≠ none ∧ row.state ≠ .active
  mark : row'.stalledMarked = true → row.stalledMarked = true

/-- A row that is neither marked nor locked without being active. -/
structure Fresh (row : JobRow) : Prop where
  lock : row.lockToken ≠ none → row.state = .active
  mark : row.stalledMarked = false

namespace Edit

variable {row row' row'' : JobRow}

theorem refl (row : JobRow) : Edit row row := ⟨fun h h' => ⟨h, h'⟩, id⟩

/-- Edits compose. -/
theorem trans (h : Edit row row') (h' : Edit row' row'') : Edit row row'' where
  lock hlock hstate := by
    obtain ⟨hlock', hstate'⟩ := h'.lock hlock hstate
    exact h.lock hlock' hstate'
  mark hmark := h.mark (h'.mark hmark)

/-- An edit keeps a fresh row fresh. -/
theorem fresh (h : Edit row row') (hrow : Fresh row) : Fresh row' where
  lock hlock := by
    by_contra hstate
    obtain ⟨hlock', hstate'⟩ := h.lock hlock hstate
    exact hstate' (hrow.lock hlock')
  mark := by
    by_contra hmark
    simpa [hrow.mark] using h.mark (by simpa using hmark)

/-- The lock and the state stay. -/
theorem of_same (hlock : row'.lockToken = row.lockToken) (hstate : row'.state = row.state)
    (hmark : row'.stalledMarked = row.stalledMarked) : Edit row row' := by
  refine ⟨fun h h' => ?_, fun h => hmark ▸ h⟩
  rw [hlock] at h
  rw [hstate] at h'
  exact ⟨h, h'⟩

/-- The lock is given up. -/
theorem of_unlocked (hlock : row'.lockToken = none)
    (hmark : row'.stalledMarked = true → row.stalledMarked = true) : Edit row row' :=
  ⟨fun h => absurd hlock h, hmark⟩

/-- A job that was not active keeps its lock. -/
theorem of_moved (hrow : row.state ≠ .active) (hlock : row'.lockToken = row.lockToken)
    (hmark : row'.stalledMarked = row.stalledMarked) : Edit row row' :=
  ⟨fun h _ => ⟨hlock ▸ h, hrow⟩, fun h => hmark ▸ h⟩

/-- The job is active now. -/
theorem of_active (hstate : row'.state = .active) (hmark : row'.stalledMarked = row.stalledMarked) :
    Edit row row' :=
  ⟨fun _ h => absurd hstate h, fun h => hmark ▸ h⟩

end Edit

/-! ### Tables -/

/-- The jobs after a call are fresh or come from those before it. -/
def Evolves (db db' : Db) : Prop :=
  ∀ k row', db'.job.find k = some row' →
    Fresh row' ∨ ∃ row, db.job.find k = some row ∧ Edit row row'

namespace Evolves

variable {db db' db'' : Db}

theorem refl (db : Db) : Evolves db db := fun _ row hrow => .inr ⟨row, hrow, .refl row⟩

/-- What comes from a fresh row by an edit is fresh. -/
theorem trans (h : Evolves db db') (h' : Evolves db' db'') : Evolves db db'' := by
  intro k row'' hrow''
  obtain hfresh | ⟨row', hrow', hedit'⟩ := h' k row'' hrow''
  · exact .inl hfresh
  · obtain hfresh | ⟨row, hrow, hedit⟩ := h k row' hrow'
    · exact .inl (hedit'.fresh hfresh)
    · exact .inr ⟨row, hrow, hedit.trans hedit'⟩

/-- A change of other tables follows. -/
theorem of_job (h : Evolves db db') (heq : db''.job = db'.job) : Evolves db db'' := by
  intro k row'' hrow''
  rw [heq] at hrow''
  exact h k row'' hrow''

/-- Events are in a table of their own. -/
theorem publish (h : Evolves db db') (queue : String) (e : Event) :
    Evolves db (publishEvent queue e db') :=
  h.of_job (publishEvent_job queue e db')

/-- Rows that are edited in place. -/
theorem updateJobs (h : Evolves db db') (cond : JobKey → JobRow → Bool) {f : JobRow → JobRow}
    (hf : ∀ k row, db'.job.find k = some row → cond k row = true → Edit row (f row)) :
    Evolves db (db'.updateJobs cond f) := by
  refine h.trans fun k row' hrow' => ?_
  simp only [Db.updateJobs, Table.find_update, Option.map_eq_some_iff] at hrow'
  obtain ⟨row, hrow, rfl⟩ := hrow'
  refine .inr ⟨row, hrow, ?_⟩
  split
  · next hcond => exact hf k row hrow hcond
  · exact .refl row

theorem updateJob (h : Evolves db db') (k : JobKey) {f : JobRow → JobRow}
    (hf : ∀ row, db'.job.find k = some row → Edit row (f row)) : Evolves db (db'.updateJob k f) :=
  h.updateJobs _ fun k' row hrow hk => by
    obtain rfl : k' = k := by simpa using hk
    exact hf row hrow

/-- Rows that go leave the others as they are. -/
theorem deleteJobs (h : Evolves db db') (cond : JobKey → JobRow → Bool) :
    Evolves db (db'.deleteJobs cond) := by
  refine h.trans fun k row hrow => ?_
  simp only [Db.deleteJobs, Table.find_delete, Option.filter_eq_some_iff] at hrow
  exact .inr ⟨row, hrow.1, .refl row⟩

theorem deleteJob (h : Evolves db db') (k : JobKey) : Evolves db (db'.deleteJob k) :=
  h.deleteJobs _

/-- A new job is fresh. -/
theorem of_insert (h : Evolves db db') {k : JobKey} {row : JobRow}
    (heq : db''.job = db'.job.insert k row) (hrow : Fresh row) : Evolves db db'' := by
  refine h.trans fun k' row' hrow' => ?_
  rw [heq, Table.find_insert] at hrow'
  split at hrow'
  · next hk =>
    subst hk
    cases hfind : db'.job.find k' with
    | none =>
      rw [hfind] at hrow'
      obtain rfl : row = row' := Option.some.inj hrow'
      exact .inl hrow
    | some row₀ =>
      rw [hfind] at hrow'
      obtain rfl : row₀ = row' := Option.some.inj hrow'
      exact .inr ⟨row₀, rfl, .refl row₀⟩
  · exact .inr ⟨row', hrow', .refl row'⟩

/-- A job that is inserted, or edited where it is there. -/
theorem of_upsert (h : Evolves db db') {k : JobKey} {row : JobRow} {f : JobRow → JobRow}
    (heq : db''.job = db'.job.upsert k row f) (hrow : Fresh row) (hf : ∀ row, Edit row (f row)) :
    Evolves db db'' := by
  unfold Table.upsert at heq
  split at heq
  · exact h.of_insert heq hrow
  · exact (h.updateJob k fun row _ => hf row).of_job heq

/-- A loop evolves the rows if each of its rounds does. -/
theorem foldl {β γ : Type} (tables : γ → Db) {step : γ → β → γ}
    (h : ∀ c b, Evolves (tables c) (tables (step c b))) (bs : List β) (c : γ) :
    Evolves (tables c) (tables (bs.foldl step c)) := by
  induction bs generalizing c with
  | nil => exact .refl _
  | cons b bs ih => exact (h c b).trans (ih (step c b))

end Evolves

section Functions

variable (db : Db)

/-- A parent that leaves `waiting-children` was not active, so that it keeps the lock it may have.
-/
theorem moveParentToWait_evolves (parent : JobKey) (now : ℤ) :
    Evolves db (moveParentToWait parent now db) := by
  unfold moveParentToWait
  split
  · exact .refl db
  · next row hrow =>
    split
    · next hstate =>
      -- The parent waits for its children, so it is not active.
      have hnot : ∀ row', db.nextJobSeq.2.job.find parent = some row' → row'.state ≠ .active := by
        intro row' hrow'
        obtain rfl : row = row' := Option.some.inj (hrow.symm.trans hrow')
        rw [hstate]
        decide
      dsimp only
      split
      · refine .publish (.updateJob (.of_job (.refl db) ?_) _ fun row' hrow' => ?_) _ _
        · rfl
        · exact .of_moved (hnot row' hrow') rfl rfl
      · refine .publish (.updateJob (.of_job (.refl db) ?_) _ fun row' hrow' => ?_) _ _
        · rfl
        · exact .of_moved (hnot row' hrow') rfl rfl
    · exact .refl db

/-- The counter of a parent is no part of its lock. -/
theorem settleDependency_evolves (parent : JobKey) (now : ℤ) :
    Evolves db (settleDependency parent now db) := by
  have hdec : Evolves db (db.decrementDeps parent) :=
    .updateJob (.refl db) _ fun _ _ => .of_same rfl rfl rfl
  simp only [settleDependency]
  split
  · exact hdec.trans (moveParentToWait_evolves _ _ _)
  · exact hdec

/-- Of a parent the counter and the reason of its failure are written, and it may go back in line.
-/
theorem handleChildFailure_evolves (child : JobKey) (reason : String) (now : ℤ) :
    Evolves db (handleChildFailure child reason now db) := by
  unfold handleChildFailure
  split
  · exact .refl db
  split
  · exact .refl db
  split
  · dsimp only
    split
    · refine .trans ?_ (moveParentToWait_evolves _ _ _)
      refine .updateJob (.updateJob (.of_job (.refl db) ?_) _ fun _ _ => ?_) _ fun _ _ => ?_
      · rfl
      · exact .of_same rfl rfl rfl
      · exact .of_same rfl rfl rfl
    · split
      · refine .trans ?_ (moveParentToWait_evolves _ _ _)
        refine .updateJob (.of_job (.refl db) ?_) _ fun _ _ => ?_
        · rfl
        · exact .of_same rfl rfl rfl
      · split
        · refine .trans (.of_job (.refl db) ?_) (settleDependency_evolves _ _ _)
          rfl
        · split
          · refine .trans (.of_job (.refl db) ?_) (settleDependency_evolves _ _ _)
            rfl
          · exact .refl db
  · exact .refl db

theorem detachPending_evolves (child parent : JobKey) (now : ℤ) :
    Evolves db (detachPending child parent now db) := by
  unfold detachPending
  split
  · refine .trans (.of_job (.refl db) ?_) (settleDependency_evolves _ _ _)
    rfl
  · exact .refl db

/-- The parent of a child is forgotten and settled. -/
theorem removeChildDependency_evolves {child : JobKey} {now code : ℤ} {db' : Db}
    (h : removeChildDependency child now db = .ok (code, db')) : Evolves db db' := by
  unfold removeChildDependency at h
  split at h
  · cases h
  split at h
  · cases h
    exact .refl db
  split at h
  · cases h
  split at h
  · cases h
    exact .refl db
  · cases h
    refine .trans (.updateJob (.of_job (.refl db) ?_) _ fun _ _ => ?_)
      (settleDependency_evolves _ _ _)
    · rfl
    · exact .of_same rfl rfl rfl

/-- The children of a deleted child are left without a parent. -/
theorem removeUnprocessedChild_evolves (child : JobKey) :
    Evolves db (removeUnprocessedChild db child) := by
  unfold removeUnprocessedChild
  dsimp only
  refine .publish (.deleteJob (.updateJobs (.refl db) _ fun _ _ _ _ => ?_) _) _ _
  exact .of_same rfl rfl rfl

theorem removeUnprocessedChildren_evolves (k : JobKey) :
    Evolves db (removeUnprocessedChildren k db) :=
  Evolves.foldl id removeUnprocessedChild_evolves _ db

/-- A job that is added again changes parents, with the counters of both. -/
theorem handleDuplicatedJob_evolves (k : JobKey) (parent : Option JobKey) (now : ℤ) :
    Evolves db (handleDuplicatedJob k parent now db).2 := by
  unfold handleDuplicatedJob
  split
  · exact .publish (.refl db) _ _
  · dsimp only
    split
    · exact .refl db
    · refine .publish (.updateJob ?_ _ fun _ _ => ?_) _ _
      rotate_left
      · exact .of_same rfl rfl rfl
      split
      · split
        · refine .trans (.of_job (.refl db) ?_) (moveParentToWait_evolves _ _ _)
          rfl
        · exact .of_job (.refl db) rfl
      · split
        · refine .updateJob (.of_job (.refl db) ?_) _ fun _ _ => ?_
          · rfl
          · exact .of_same rfl rfl rfl
        · exact .refl db

/-- A new child is counted at its parent. -/
theorem registerChild_evolves (k : JobKey) (parent : Option JobKey) :
    Evolves db (registerChild k parent db) := by
  unfold registerChild
  split
  · exact .refl db
  · refine .updateJob (.of_job (.refl db) ?_) _ fun _ _ => ?_
    · rfl
    · exact .of_same rfl rfl rfl

/-! #### Deduplication -/

/-- Keys of deduplication are in a table of their own. -/
theorem dedupFinalize_job (queue : String) (dedupId : Option String) (jobId : String) (now : ℤ) :
    (dedupFinalize queue dedupId jobId now db).job = db.job := by
  unfold dedupFinalize
  repeat' split
  all_goals rfl

theorem dedupOnRemoval_job (queue jobId : String) (dedupId : Option String) :
    (dedupOnRemoval queue jobId dedupId db).job = db.job := by
  unfold dedupOnRemoval
  repeat' split
  all_goals rfl

theorem dedupStoreNext_job (queue dedupId winner jobId : String) (keepLast : Bool)
    (name data : String) (opts : JobsOptions) :
    (dedupStoreNext queue dedupId winner jobId keepLast name data opts db).2.job = db.job := by
  unfold dedupStoreNext
  split <;> rfl

/-- A kept successor is a new job, which is neither locked nor marked. -/
theorem requeueDedupNext_evolves (queue : String) (dedupId : Option String) (now : ℤ) :
    Evolves db (requeueDedupNext queue dedupId now db) := by
  unfold requeueDedupNext
  split
  · exact .refl db
  split
  · exact .refl db
  split
  · exact .refl db
  · next payload _ =>
    have hdraw : Evolves db
        (if payload.jobId = "" then db.nextJobId queue else (payload.jobId, db)).2 := by
      refine .of_job (.refl db) ?_
      split <;> rfl
    dsimp only
    split
    · apply Evolves.publish
      apply Evolves.of_insert hdraw
      · exact rfl
      · exact ⟨fun h => absurd rfl h, rfl⟩
    · apply Evolves.publish
      apply Evolves.of_insert hdraw
      · exact rfl
      · exact ⟨fun h => absurd rfl h, rfl⟩

/-- Of the jobs, a replaced one is deleted or a delayed one is written again. -/
theorem deduplicateJob_evolves (queue : String) (de : DeduplicationOpts) (jobId : String) (now : ℤ)
    (name data : String) (opts : JobsOptions) :
    Evolves db (deduplicateJob queue de jobId now name data opts db).2 := by
  have hstore := fun winner =>
    dedupStoreNext_job db queue de.id winner jobId de.keepLastIfActive name
    data opts
  unfold deduplicateJob
  dsimp only
  split
  · exact .refl db
  split
  · split
    · next current _ =>
      split
      · refine .of_job (.deleteJob (.refl db) ⟨queue, current⟩) ?_
        simp [Db.updateDedup]
      · exact .of_job (.refl db) (hstore _)
    · exact .of_job (.refl db) rfl
  split
  · split
    · refine .publish (.of_job (.refl db) ?_) _ _
      split
      · exact hstore _
      · exact hstore _
    · exact .of_job (.refl db) rfl
  · split
    · exact .publish (.of_job (.refl db) (hstore _)) _ _
    · exact .of_job (.refl db) rfl

/-! #### Adds -/

theorem Entry.deduplicate_evolves (e : Entry) (jobId : String) :
    Evolves db (e.deduplicate jobId db).2 := by
  unfold Entry.deduplicate
  split
  · exact .refl db
  · split
    · exact .refl db
    · exact deduplicateJob_evolves _ _ _ _ _ _ _ _

/-- The id is drawn before the key is asked for. -/
theorem Entry.admit_evolves (e : Entry) :
    Evolves db (e.deduplicate (e.drawId db).1 (e.drawId db).2).2 := by
  refine .trans (.of_job (.refl db) ?_) (Entry.deduplicate_evolves _ _ _)
  unfold Entry.drawId
  split <;> rfl

/-- A new job is fresh, and one that is there is at most edited. -/
theorem addJob_evolves {e : Entry} {jobId : String} {db' : Db}
    (h : addJob e db = .ok (jobId, db')) :
    Evolves db db' := by
  have hadmit := e.admit_evolves db
  unfold addJob at h
  dsimp only at h
  split at h
  · cases h
    exact hadmit
  split at h
  · cases h
  split at h
  · split at h
    · cases h
    · cases h
      refine .trans (.of_job hadmit ?_) (handleDuplicatedJob_evolves _ _ _ _)
      rfl
  · cases h
    refine .publish (.publish (.trans ?_ (registerChild_evolves _ _ _)) _ _) _ _
    apply Evolves.of_insert hadmit
    · exact rfl
    · exact ⟨fun h => absurd rfl h, rfl⟩

/-- One entry of a flow, as one job of `add_job`. -/
theorem addFlowEntry_evolves (acc : FlowAcc) (e : Entry) :
    Evolves acc.db (addFlowEntry acc e).db := by
  have hadmit := e.admit_evolves acc.db
  unfold addFlowEntry
  dsimp only
  split
  · exact hadmit
  split
  · exact hadmit
  split
  · split
    · refine .trans (.of_job hadmit ?_) (handleDuplicatedJob_evolves _ _ _ _)
      rfl
    · exact .of_job hadmit rfl
  · refine .trans ?_ (registerChild_evolves _ _ _)
    apply Evolves.of_insert hadmit
    · exact rfl
    · exact ⟨fun h => absurd rfl h, rfl⟩

theorem flushEvents_job (events : List (String × Event)) :
    (flushEvents events db).job = db.job := by
  rw [flushEvents, foldl_trimToMax_job, appendEvents_eq]

theorem addFlow_evolves (entries : List Entry) : Evolves db (addFlow entries db).2 :=
  .of_job (Evolves.foldl FlowAcc.db addFlowEntry_evolves entries ⟨[], [], db⟩)
    (flushEvents_job _ _)

theorem drawIds_job (queue : String) (entries : List Entry) :
    (drawIds queue entries db).2.job = db.job := by
  induction entries generalizing db with
  | nil => rfl
  | cons e entries ih =>
    simp only [drawIds]
    rw [ih]
    split <;> rfl

theorem reserveSeqs_job (n : ℕ) : (reserveSeqs n db).2.job = db.job := by
  induction n generalizing db with
  | zero => rfl
  | succ n ih =>
    simp only [reserveSeqs]
    rw [ih]
    rfl

/-- A batch inserts rows that are fresh and passes over the others. -/
theorem insertBatch_evolves (queue : String) (rows : List BulkRow) :
    Evolves db { db with job := (insertBatch queue rows db.job).2 } := by
  induction rows generalizing db with
  | nil => exact .refl db
  | cons r rows ih =>
    simp only [insertBatch]
    refine .trans ?_ (ih { db with job := _ })
    apply Evolves.of_insert (.refl db)
    · exact rfl
    · exact ⟨fun h => absurd rfl h, rfl⟩

theorem addJobsBulk_evolves (queue : String) (entries : List Entry) :
    Evolves db (addJobsBulk queue entries db).2 := by
  simp only [addJobsBulk, appendEvents_eq]
  set db' := (reserveSeqs entries.length (drawIds queue entries db).2).2 with hdb'
  have hdraw : Evolves db db' := .of_job (.refl db) (by rw [hdb', reserveSeqs_job, drawIds_job])
  exact hdraw.trans (.of_job (insertBatch_evolves db' queue (bulkRows entries
    (drawIds queue entries db).1 (reserveSeqs entries.length (drawIds queue entries db).2).1)) rfl)

/-! #### Processing -/

/-- A delayed job that is due had no lock of an active one. -/
theorem promoteDue_evolves (queue : String) (now : ℤ) : Evolves db (promoteDue queue now db) := by
  unfold promoteDue
  dsimp only
  refine .trans (.updateJobs (.refl db) (dueIn queue now) fun _ row _ hdue => ?_)
    (Evolves.foldl id (fun db id => .publish (.refl db) _ _) _ _)
  simp only [dueIn, Bool.and_eq_true, decide_eq_true_eq] at hdue
  exact .of_moved (by rw [hdue.1.2]; decide) rfl rfl

theorem consumeToken_job (queue : String) (args : ClaimArgs) :
    (consumeToken queue args db).job = db.job := by
  unfold consumeToken
  split
  · rfl
  · split
    · rfl
    · rfl

/-- The job that is claimed becomes active with its lock, and keeps its mark. -/
theorem moveToActive_evolves (queue : String) (args : ClaimArgs) :
    Evolves db (moveToActive queue args db).2 := by
  have hpromote := promoteDue_evolves db queue args.now
  unfold moveToActive
  dsimp only
  split
  · exact hpromote
  split
  · exact hpromote
  split
  · exact hpromote
  split
  · exact hpromote
  · refine .publish (.updateJob (.of_job hpromote (consumeToken_job _ _ _)) _ fun _ _ => ?_) _ _
    exact .of_active rfl rfl

/-- Only an active job whose token matches has its lock extended. -/
theorem extendLock_evolves (k : JobKey) (token : String) (lockMs now : ℤ) :
    Evolves db (extendLock k token lockMs now db).2 :=
  .updateJobs (.refl db) _ fun _ _ _ _ => .of_same rfl rfl rfl

/-- Retention deletes rows. A job that is not kept is settled with its parent before. -/
theorem applyRetention_evolves (k : JobKey) (state : JobState) (now : ℤ) (keep : KeepJobs) :
    Evolves db (applyRetention k state now keep db) := by
  unfold applyRetention
  split
  · refine .deleteJob ?_ _
    split
    · exact .refl db
    · exact detachPending_evolves _ _ _ _
  · -- Each pass deletes some jobs or none.
    have hpass : ∀ (b : Prop) [Decidable b] {db' : Db} (f : JobKey → JobRow → Bool),
        Evolves db db' → Evolves db (if b then db'.deleteJobs f else db') := by
      intro b _ db' f h
      split
      · exact .deleteJobs h _
      · exact h
    cases keep.age with
    | none =>
      cases keep.count with
      | none => exact .refl db
      | some count => exact hpass _ _ (.refl db)
    | some age =>
      cases keep.count with
      | none => exact hpass _ _ (.refl db)
      | some count => exact hpass _ _ (hpass _ _ (.refl db))

theorem announceDrained_job (queue : String) : (announceDrained queue db).job = db.job := by
  unfold announceDrained
  split
  · exact publishEvent_job _ _ _
  · rfl

/-- A finished job has given its lock up. -/
theorem finishJob_evolves (k : JobKey) (dedupId : Option String) (state : JobState) (now : ℤ)
    (keep : KeepJobs) : Evolves db (finishJob k dedupId state now keep db) := by
  simp only [finishJob]
  refine .of_job (.trans (.of_job (applyRetention_evolves db k state now keep) ?_)
    (requeueDedupNext_evolves _ _ _ _)) (announceDrained_job _ _)
  exact dedupFinalize_job _ _ _ _ _

theorem processDependency_evolves (child : JobKey) (parent : Option JobKey) (value : Option String)
    (now : ℤ) : Evolves db (processDependency child parent value now db) := by
  unfold processDependency
  split
  · exact .refl db
  · refine .trans (.of_job (.refl db) ?_) (settleDependency_evolves _ _ _)
    rfl

/-- The job gives its lock up, its parent is settled, and retention deletes. -/
theorem moveToCompleted_evolves {k : JobKey} {token : String} {returnValue : Option String}
    {finishedOn : ℤ} {keep : KeepJobs} {db' : Db}
    (h : moveToCompleted k token returnValue finishedOn keep db = .ok db') : Evolves db db' := by
  unfold moveToCompleted at h
  split at h
  · cases h
  split at h
  · cases h
  split at h
  · cases h
  · cases h
    refine .trans (.trans (.publish (.updateJob (.refl db) _ fun _ _ => ?_) _ _)
      (processDependency_evolves _ _ _ _ _)) (finishJob_evolves _ _ _ _ _ _)
    exact .of_unlocked rfl id

/-- As for a completed job, with the failure of a child told to its parent. -/
theorem moveToFailed_evolves {k : JobKey} {token failedReason : String}
    {stacktrace : Option String} {finishedOn : ℤ} {keep : KeepJobs} {db' : Db}
    (h : moveToFailed k token failedReason stacktrace finishedOn keep db = .ok db') :
    Evolves db db' := by
  unfold moveToFailed at h
  split at h
  · cases h
  · cases h
    refine .trans (.trans (.publish (.publish (.updateJob (.refl db) _ fun _ _ => ?_) _ _) _ _)
      (handleChildFailure_evolves _ _ _ _)) (finishJob_evolves _ _ _ _ _ _)
    exact .of_unlocked rfl id

/-- An active job gives its lock up when it is delayed. -/
theorem moveToDelayed_evolves {k : JobKey} {token : String} {processAt delay : ℤ}
    {skipAttempt : Bool} {failedReason stacktrace : Option String} {db' : Db}
    (h : moveToDelayed k token processAt delay skipAttempt failedReason stacktrace db = .ok db') :
    Evolves db db' := by
  unfold moveToDelayed at h
  split at h
  · cases h
  · cases h
    refine .publish (.updateJob (.refl db) _ fun _ _ => ?_) _ _
    exact .of_unlocked rfl id

/-- An active job gives its lock up when it is retried. Its mark stays. -/
theorem retryJob_evolves {k : JobKey} {token : String} {lifo : Bool}
    {failedReason stacktrace : Option String} {db' : Db}
    (h : retryJob k token lifo failedReason stacktrace db = .ok db') : Evolves db db' := by
  unfold retryJob at h
  split at h
  · cases h
  · cases h
    refine .publish (.updateJob (.of_job (.refl db) ?_) _ fun _ _ => ?_) _ _
    · rfl
    · exact .of_unlocked rfl id

/-- An active job gives its lock up when it goes back in line. -/
theorem moveActiveToWait_evolves (k : JobKey) (token : String) (now : ℤ) :
    Evolves db (moveActiveToWait k token now db).2 := by
  unfold moveActiveToWait
  split
  · exact .refl db
  · dsimp only
    have hmove : ∀ row : JobRow, Evolves db
        (if row.state = .active ∧ (token = "0" ∨ row.lockToken = some token) then
          publishEvent k.queue (.waiting k.id (some "active"))
            (db.nextJobSeq.2.updateJob k fun row =>
              { row.unlock .waiting with
                seq := if 0 < row.priority then -db.nextJobSeq.1 else db.nextJobSeq.1 })
        else db) := by
      intro row
      split
      · refine .publish (.updateJob (.of_job (.refl db) ?_) _ fun _ _ => ?_) _ _
        · rfl
        · exact .of_unlocked rfl id
      · exact .refl db
    split
    · exact hmove _
    · exact hmove _

/-- An active job gives its lock up when it waits for its children. -/
theorem moveToWaitingChildren_evolves {k : JobKey} {token : String} {r : Bool × Db}
    (h : moveToWaitingChildren k token db = .ok r) : Evolves db r.2 := by
  unfold moveToWaitingChildren at h
  split at h
  · cases h
  split at h
  · cases h
  split at h
  · cases h
  split at h
  · cases h
  split at h
  · cases h
  split at h
  · cases h
    exact .updateJob (.refl db) _ fun _ _ => .of_unlocked rfl id
  · cases h
    exact .refl db

/-- A reclaimed job has no lock any more. -/
theorem foldl_reclaimJob_evolves (maxStalled : ℤ) (rows : List (JobKey × JobRow)) :
    Evolves db (rows.foldl (reclaimJob maxStalled) db) := by
  refine Evolves.foldl id (fun db r => ?_) rows db
  simp only [reclaimJob]
  refine .publish (.updateJob (.of_job (.refl db) ?_) _ fun _ _ => ?_) _ _
  · rfl
  · exact .of_unlocked rfl fun h => by cases h

/-! #### Administration -/

/-- A parent whose last pending child is swept is deleted, or goes back in line. -/
theorem recountParent_evolves (queue : String) (parent : JobKey) :
    Evolves db (recountParent queue db parent) := by
  have hcount : Evolves db
      (db.updateJob parent fun row => { row with pendingDeps := db.pendingCount parent }) :=
    .updateJob (.refl db) _ fun _ _ => .of_same rfl rfl rfl
  simp only [recountParent]
  split
  · next hwaits =>
    split
    · exact .deleteJob hcount _
    · refine .publish (.updateJob (.of_job hcount ?_) _ fun row hrow => ?_) _ _
      · rfl
      · obtain ⟨row', hrow', hcond⟩ := (Option.any_eq_true ..).mp hwaits
        obtain rfl : row' = row := Option.some.inj (hrow'.symm.trans hrow)
        simp only [Bool.and_eq_true, decide_eq_true_eq] at hcond
        exact .of_moved (by rw [hcond.1]; decide) rfl rfl
  · exact hcount

theorem drain_evolves (queue : String) (delayed : Bool) : Evolves db (drain queue delayed db) := by
  simp only [drain]
  refine .trans (.deleteJobs (.of_job (.refl db) ?_) _)
    (Evolves.foldl id (fun db => recountParent_evolves db queue) _ _)
  rfl

/-- A job is deleted with its unprocessed children, and its parent is settled. -/
theorem remove_evolves {k : JobKey} {removeChildren : Bool} {now : ℤ} {r : ℕ × Db}
    (h : remove k removeChildren now db = .ok r) : Evolves db r.2 := by
  unfold remove at h
  split at h
  · cases h
    exact .refl db
  split at h
  · cases h
  split at h
  · cases h
    exact .refl db
  · cases h
    have hone : ∀ (dedupId : JobKey → Option String) (db : Db) (k : JobKey),
        Evolves db (removeOne dedupId db k) := fun dedupId db k =>
      .deleteJob (.of_job (.refl db) (dedupOnRemoval_job _ _ _ _)) _
    refine .trans ?_ (Evolves.foldl id (hone _) _ _)
    split
    · exact .refl db
    · exact detachPending_evolves _ _ _ _

/-- A clean deletes jobs and recounts their parents. -/
theorem clean_evolves (queue : String) (type : CleanType) (ts limit : ℤ) :
    Evolves db (clean queue type ts limit db).2 := by
  unfold clean
  dsimp only
  split
  · exact .refl db
  · refine .publish (.trans (.deleteJobs (.of_job (.refl db) ?_) _)
      (Evolves.foldl id (fun db => recountParent_evolves db queue) _ _)) _ _
    rfl

/-- Rows that are moved to the end of the line. -/
theorem requeueAll_evolves {Q : JobRow → Prop} {f : JobRow → JobRow}
    (hf : ∀ row seq, Q row → Edit row { f row with seq := seq } ∧ Q { f row with seq := seq })
    (keys : List JobKey) (hkeys : ∀ k ∈ keys, ∀ row, db.job.find k = some row → Q row) :
    Evolves db (requeueAll keys f db) := by
  induction keys generalizing db with
  | nil => exact .refl db
  | cons k keys ih =>
    have hstep : Evolves db (db.nextJobSeq.2.updateJob k fun row =>
        { f row with seq := db.nextJobSeq.1 }) :=
      .updateJob (.of_job (.refl db) rfl) k fun row hrow =>
        (hf row _ (hkeys k List.mem_cons_self row hrow)).1
    refine hstep.trans (ih _ fun k' hk' row hrow => ?_)
    simp only [Db.updateJob, Table.find_updateKey] at hrow
    split at hrow
    · next heq =>
      obtain ⟨row', hrow', rfl⟩ := Option.map_eq_some_iff.mp hrow
      exact (hf row' _ (hkeys k' (List.mem_cons_of_mem _ hk') row' hrow')).2
    · exact hkeys k' (List.mem_cons_of_mem _ hk') row hrow

/-- Finished jobs go back in line without a lock. -/
theorem retryJobs_evolves (queue : String) (state : FinishedStatus) (count : ℕ)
    (timestamp : Option ℤ) : Evolves db (retryJobs queue state count timestamp db).2 := by
  refine requeueAll_evolves db (Q := fun _ => True) (fun _ _ _ => ⟨?_, trivial⟩) _
    fun _ _ _ _ => trivial
  exact .of_unlocked rfl id

theorem promoteJobs_evolves (queue : String) (count : ℕ) :
    Evolves db (promoteJobs queue count db).2 := by
  refine requeueAll_evolves db (Q := fun row => row.state ≠ .active)
    (fun row seq hrow => ⟨?_, ?_⟩) _ fun k hk row hrow => ?_
  · exact .of_moved hrow rfl rfl
  · simp
  · -- The jobs of the batch are delayed.
    obtain ⟨⟨k', row'⟩, hmem, rfl⟩ := List.mem_map.mp hk
    have hsel := (List.perm_insertionSort _ _).subset (List.mem_of_mem_take hmem)
    obtain ⟨hfind, hcond⟩ := Table.mem_select.mp hsel
    obtain rfl : row' = row := Option.some.inj (hfind.symm.trans hrow)
    simp only [Bool.and_eq_true, decide_eq_true_eq] at hcond
    rw [hcond.2]
    decide

/-- A delayed job was not active. -/
theorem promote_evolves (k : JobKey) : Evolves db (promote k db).2 := by
  unfold promote
  split
  · exact .refl db
  · next row hrow =>
    split
    · exact .refl db
    · next hstate =>
      refine .publish (.updateJob (.of_job (.refl db) ?_) _ fun row' hrow' => ?_) _ _
      · rfl
      · obtain rfl : row = row' := Option.some.inj (hrow.symm.trans hrow')
        exact .of_moved (by rw [not_not.mp hstate]; decide) rfl rfl

/-- A delayed job stays where it is. -/
theorem changeDelay_evolves (k : JobKey) (delay now : ℤ) :
    Evolves db (changeDelay k delay now db).2 := by
  unfold changeDelay
  split
  · exact .refl db
  split
  · exact .refl db
  · exact .updateJob (.refl db) _ fun _ _ => .of_same rfl rfl rfl

theorem changePriority_evolves (k : JobKey) (priority : ℤ) (lifo : Bool) :
    Evolves db (changePriority k priority lifo db).2 := by
  unfold changePriority
  split
  · exact .refl db
  split
  · refine .updateJob (.of_job (.refl db) ?_) _ fun _ _ => ?_
    · rfl
    · exact .of_same rfl rfl rfl
  · exact .updateJob (.refl db) _ fun _ _ => .of_same rfl rfl rfl

/-- The parent of a retried child waits for it again. -/
theorem awaitAgain_evolves (child : JobKey) (parent : Option JobKey) (state : FinishedStatus) :
    Evolves db (awaitAgain child parent state db) := by
  unfold awaitAgain
  split
  · exact .refl db
  split
  · refine .updateJob (.of_job (.refl db) ?_) _ fun _ _ => ?_
    · rfl
    · exact .of_same rfl rfl rfl
  · exact .refl db

/-- A finished job goes back in line, and its parent waits for it again. -/
theorem reprocessJob_evolves (k : JobKey) (state : FinishedStatus)
    (lifo resetMade resetStarted : Bool) :
    Evolves db (reprocessJob k state lifo resetMade resetStarted db).2 := by
  unfold reprocessJob
  split
  · exact .refl db
  · next row hrow =>
    split
    · exact .refl db
    · next hstate =>
      refine .publish (.trans (.updateJob (.of_job (.refl db) ?_) _ fun row' hrow' => ?_)
        (awaitAgain_evolves _ _ _ _)) _ _
      · rfl
      · obtain rfl : row = row' := Option.some.inj (hrow.symm.trans hrow')
        refine .of_moved ?_ rfl rfl
        rw [not_not.mp hstate]
        cases state <;> decide

/-- Jobs are deleted in batches. -/
theorem obliterate_evolves (queue : String) (count : ℕ) (force : Bool) :
    Evolves db (obliterate queue count force db).2 := by
  unfold obliterate
  split
  · exact .refl db
  split
  · exact .refl db
  · dsimp only
    split
    · exact .deleteJobs (.refl db) _
    · refine .of_job (.deleteJobs (.refl db) fun k _ => decide (k ∈ List.map Prod.fst
        ((db.job.select fun k _ => decide (k.queue = queue)).take count))) ?_
      rfl

/-! #### Schedulers -/

/-- The pending iteration is deleted, and the row of the next one is that of a fresh job. -/
theorem addJobScheduler_evolves {queue : String} {a : SchedulerArgs} {r : (String × ℤ) × Db}
    (h : addJobScheduler queue a db = .ok r) : Evolves db r.2 := by
  have hdelete : Evolves db (deletePending queue a.schedulerId db) := by
    unfold deletePending
    split
    · split
      · exact .deleteJob (.refl db) _
      · exact .refl db
    · exact .refl db
  simp only [addJobScheduler] at h
  split at h
  · cases h
  · cases h
    refine hdelete.trans ?_
    apply Evolves.of_upsert (.refl _)
    · exact rfl
    · exact ⟨fun h => absurd rfl h, rfl⟩
    · exact fun _ => .of_unlocked rfl id

/-- The next iteration is a new job. -/
theorem updateJobSchedulerNextMillis_evolves (queue : String) (a : AdvanceArgs) :
    Evolves db (updateJobSchedulerNextMillis queue a db).2 := by
  unfold updateJobSchedulerNextMillis
  split
  · exact .refl db
  dsimp only
  split
  · split
    · exact .publish (.refl db) _ _
    · apply Evolves.of_insert (.refl db)
      · exact rfl
      · exact ⟨fun h => absurd rfl h, rfl⟩
  · exact .refl db

/-- A delayed iteration is deleted with its scheduler. -/
theorem removeJobScheduler_evolves (queue schedulerId : String) :
    Evolves db (removeJobScheduler queue schedulerId db).2 := by
  simp only [removeJobScheduler]
  split
  · exact .of_job (.refl db) rfl
  · split
    · exact .of_job (.deleteJob (.refl db) _) (publishEvent_job _ _ _)
    · exact .of_job (.refl db) rfl

end Functions

/-! ### Commands -/

/-- The command is a pass over stalled jobs. -/
def Command.isPass : Command → Bool
  | .moveStalledJobsToWait .. => true
  | _ => false

/-- No command but a pass marks a job. -/
theorem exec_evolves (db : Db) (cmd : Command) (h : cmd.isPass = false) :
    Evolves db (cmd.exec db) := by
  cases cmd with
  | addJob e => exact orUnchanged_rec (.refl db) fun _ hok => addJob_evolves db hok
  | addFlow entries => exact addFlow_evolves db entries
  | addJobsBulk queue entries => exact addJobsBulk_evolves db queue entries
  | moveToActive queue args => exact moveToActive_evolves db queue args
  | extendLock k token lockMs now => exact extendLock_evolves db k token lockMs now
  | moveToCompleted k token returnValue finishedOn keep =>
    exact orUnchanged_rec (.refl db) fun _ hok => moveToCompleted_evolves db hok
  | moveToFailed k token failedReason stacktrace finishedOn keep =>
    exact orUnchanged_rec (.refl db) fun _ hok => moveToFailed_evolves db hok
  | moveToDelayed k token processAt delay skipAttempt failedReason stacktrace =>
    exact orUnchanged_rec (.refl db) fun _ hok => moveToDelayed_evolves db hok
  | retryJob k token lifo failedReason stacktrace =>
    exact orUnchanged_rec (.refl db) fun _ hok => retryJob_evolves db hok
  | moveActiveToWait k token now => exact moveActiveToWait_evolves db k token now
  | moveToWaitingChildren k token =>
    exact orUnchanged_rec (.refl db) fun _ hok => moveToWaitingChildren_evolves db hok
  | moveStalledJobsToWait => cases h
  | removeChildDependency child now =>
    exact orUnchanged_rec (.refl db) fun _ hok => removeChildDependency_evolves db hok
  | removeUnprocessedChildren k => exact removeUnprocessedChildren_evolves db k
  | pause queue paused => exact .of_job (.refl db) (publishEvent_job _ _ _)
  | configure => exact .of_job (.refl db) rfl
  | setRateLimit => exact .of_job (.refl db) rfl
  | drain queue delayed => exact drain_evolves db queue delayed
  | remove k removeChildren now =>
    exact orUnchanged_rec (.refl db) fun _ hok => remove_evolves db hok
  | clean queue type ts limit => exact clean_evolves db queue type ts limit
  | retryJobs queue state count timestamp => exact retryJobs_evolves db queue state count timestamp
  | promoteJobs queue count => exact promoteJobs_evolves db queue count
  | promote k => exact promote_evolves db k
  | changeDelay k delay now => exact changeDelay_evolves db k delay now
  | changePriority k priority lifo => exact changePriority_evolves db k priority lifo
  | reprocessJob k state lifo resetMade resetStarted =>
    exact reprocessJob_evolves db k state lifo resetMade resetStarted
  | obliterate queue count force => exact obliterate_evolves db queue count force
  | addJobScheduler queue a =>
    exact orUnchanged_rec (.refl db) fun _ hok => addJobScheduler_evolves db hok
  | updateJobSchedulerNextMillis queue a => exact updateJobSchedulerNextMillis_evolves db queue a
  | removeJobScheduler queue schedulerId => exact removeJobScheduler_evolves db queue schedulerId
  | skip => exact .of_job (.refl db) rfl

end BullMQ.Postgres
