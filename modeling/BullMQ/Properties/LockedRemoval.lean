import BullMQ.Postgres.Evolution

/-!
# Removal of locked jobs in PostgreSQL

`remove` refuses to work on a job that is locked, or on one with a locked descendant among those its
pending dependencies lead to; what it deletes are the descendants by parent links. `clean` selects
by state and age only. `locked_kept_iff` says exactly when the two delete no job whose lock is live.
-/

namespace BullMQ.Postgres

open Sql

/-- Only active jobs have a lock. -/
def LocksSound (db : Db) : Prop :=
  ∀ k row, db.job.find k = some row → row.lockToken ≠ none → row.state = .active

/-- No job is deleted whose lock is live. -/
def LockedKept (now : ℤ) (db db' : Db) : Prop :=
  ∀ k row, db.job.find k = some row → row.locked now = true → db'.jobExists k = true

/-- The job of a key is locked. -/
def Db.lockedAt (db : Db) (now : ℤ) (k : JobKey) : Prop :=
  ∃ row, db.job.find k = some row ∧ row.locked now = true

/-- When `remove` deletes no locked job: it is refused, or no descendant by parent links is locked.
-/
def RemoveOk (k : JobKey) (removeChildren : Bool) (now : ℤ) (db : Db) : Prop :=
  ∀ row, db.job.find k = some row → row.schedulerId = none →
    (∀ k' ∈ db.lockTree k removeChildren, ¬ db.lockedAt now k') →
    ∀ k' ∈ db.removeTree k removeChildren, ¬ db.lockedAt now k'

/-- When `clean` deletes no locked job: active jobs that it selects are not locked. -/
def CleanOk (queue : String) (type : CleanType) (ts limit now : ℤ) (db : Db) : Prop :=
  type = .active → ∀ k ∈ db.cleaned queue type ts limit, ¬ db.lockedAt now k

/-! ### Locks along a run -/

section Locks

variable {db db' : Db}

theorem LocksSound.of_evolves (h : LocksSound db) (hdb : Evolves db db') : LocksSound db' := by
  intro k row' hrow' hlock
  obtain hfresh | ⟨row, hrow, hedit⟩ := hdb k row' hrow'
  · exact hfresh.lock hlock
  · by_contra hstate
    obtain ⟨hlock', hstate'⟩ := hedit.lock hlock hstate
    exact hstate' (h k row hrow hlock')

theorem LocksSound.updateJobs (h : LocksSound db) (cond : JobKey → JobRow → Bool)
    {f : JobRow → JobRow} (hlock : ∀ row, (f row).lockToken = row.lockToken)
    (hstate : ∀ row, (f row).state = row.state) : LocksSound (db.updateJobs cond f) := by
  intro k row' hrow' hlocked
  simp only [Db.updateJobs, Table.find_update, Option.map_eq_some_iff] at hrow'
  obtain ⟨row, hrow, rfl⟩ := hrow'
  cases hcond : cond k row with
  | true =>
    simp only [hcond, if_true, hlock, hstate] at hlocked ⊢
    exact h k row hrow hlocked
  | false =>
    simp only [hcond, Bool.false_eq_true, if_false] at hlocked ⊢
    exact h k row hrow hlocked

/-- A pass sets marks without regard to locks. -/
theorem LocksSound.pass (h : LocksSound db) (queue : String) (maxStalled now maxCheckTime : ℤ) :
    LocksSound (moveStalledJobsToWait queue maxStalled now maxCheckTime db).2 := by
  unfold moveStalledJobsToWait
  split
  · exact h
  · refine LocksSound.updateJobs (LocksSound.updateJobs ?_ _ ?_ ?_) _ ?_ ?_
    · refine h.of_evolves (.trans (.of_job (.refl db) ?_) (foldl_reclaimJob_evolves _ maxStalled _))
      rfl
    all_goals exact fun _ => rfl

theorem locksSound_runCommands (cmds : List Command) : LocksSound (runCommands cmds .empty) := by
  induction cmds using List.reverseRecOn with
  | nil =>
    intro k row hrow
    cases hrow
  | append_singleton cmds cmd ih =>
    rw [runCommands_append]
    cases hpass : cmd.isPass with
    | false => exact ih.of_evolves (exec_evolves _ cmd hpass)
    | true =>
      cases cmd <;> first | (cases hpass; done) | exact ih.pass _ _ _ _

end Locks

/-! ### What `remove` deletes -/

/-- The jobs with their parents and locks. -/
def Db.links (db : Db) : List (JobKey × Option JobKey × Option String × Option ℤ) :=
  db.job.rows.map fun r => (r.1, r.2.parent, r.2.lockToken, r.2.lockedUntil)

section Remove

variable {db db' : Db}

theorem updateJob_links (db : Db) (k : JobKey) {f : JobRow → JobRow}
    (hparent : ∀ row, (f row).parent = row.parent)
    (hlock : ∀ row, (f row).lockToken = row.lockToken)
    (huntil : ∀ row, (f row).lockedUntil = row.lockedUntil) :
    (db.updateJob k f).links = db.links := by
  simp only [Db.links, Db.updateJob, Table.updateKey, Table.update, List.map_map]
  refine List.map_congr_left fun r _ => ?_
  simp only [Function.comp_apply]
  split
  · rw [hparent, hlock, huntil]
  · rfl

theorem links_of_job (h : db'.job = db.job) : db'.links = db.links := by rw [Db.links, h, Db.links]

theorem moveParentToWait_links (parent : JobKey) (now : ℤ) (db : Db) :
    (moveParentToWait parent now db).links = db.links := by
  unfold moveParentToWait
  split
  · rfl
  split
  · dsimp only
    split
    · rw [links_of_job (publishEvent_job _ _ _), updateJob_links] <;> intros <;> rfl
    · rw [links_of_job (publishEvent_job _ _ _), updateJob_links] <;> intros <;> rfl
  · rfl

theorem detachPending_links (child parent : JobKey) (now : ℤ) (db : Db) :
    (detachPending child parent now db).links = db.links := by
  unfold detachPending settleDependency
  have hdec : ∀ db : Db, (db.decrementDeps parent).links = db.links := fun db =>
    updateJob_links db parent (fun _ => rfl) (fun _ => rfl) fun _ => rfl
  split
  · dsimp only
    split
    · rw [moveParentToWait_links, hdec]
      rfl
    · rw [hdec]
      rfl
  · rfl

/-- The links tell which jobs exist, which children they have and which are locked. -/
theorem childrenOf_of_links (h : db'.links = db.links) (k : JobKey) :
    db'.childrenOf k = db.childrenOf k := by
  have heq : ∀ db : Db, db.childrenOf k =
      (db.links.filter fun l => decide (l.2.1 = some k)).map Prod.fst := by
    intro db
    simp only [Db.childrenOf, Table.select, Db.links, List.filter_map, List.map_map]
    rfl
  rw [heq, heq, h]

theorem removeTree_of_links (h : db'.links = db.links) (k : JobKey) (removeChildren : Bool) :
    db'.removeTree k removeChildren = db.removeTree k removeChildren := by
  have hlength : db'.job.rows.length = db.job.rows.length := by
    simpa [Db.links] using congrArg List.length h
  unfold Db.removeTree
  rw [hlength, funext (childrenOf_of_links h)]

theorem jobExists_iff_links (db : Db) (k : JobKey) :
    db.jobExists k = true ↔ k ∈ db.links.map Prod.fst := by
  rw [Db.jobExists, Option.isSome_iff_exists]
  simp only [Db.links, List.map_map, List.mem_map, Table.find_eq_some]
  constructor
  · rintro ⟨row, hrow⟩
    exact ⟨(k, row), hrow, rfl⟩
  · rintro ⟨⟨k', row⟩, hrow, rfl⟩
    exact ⟨row, hrow⟩

theorem jobExists_foldl_removeOne (dedupId : JobKey → Option String) (tree : List JobKey) (db : Db)
    (k : JobKey) :
    (tree.foldl (removeOne dedupId) db).jobExists k = true ↔ db.jobExists k = true ∧ k ∉ tree := by
  induction tree generalizing db with
  | nil => simp
  | cons k' tree ih =>
    have hjob : (dedupOnRemoval k'.queue k'.id (dedupId k') db).jobExists k = db.jobExists k := by
      rw [Db.jobExists, dedupOnRemoval_job, Db.jobExists]
    rw [List.foldl_cons, ih, removeOne, Db.jobExists_deleteJob, hjob, List.mem_cons, not_or]
    exact and_assoc

/-- `remove` deletes no locked job exactly if the condition holds. -/
theorem remove_lockedKept_iff (k : JobKey) (removeChildren : Bool) (now : ℤ) (db : Db) :
    LockedKept now db (orUnchanged db (remove k removeChildren now db) Prod.snd) ↔
      RemoveOk k removeChildren now db := by
  have hkept : LockedKept now db db := fun k' row hrow _ => by rw [Db.jobExists, hrow]; rfl
  have hany : ((db.lockTree k removeChildren).any fun k' =>
      (db.job.find k').any fun row => row.locked now) = true ↔
      ∃ k' ∈ db.lockTree k removeChildren, db.lockedAt now k' := by
    simp only [List.any_eq_true, Option.any_eq_true, Db.lockedAt]
  unfold remove
  cases hfind : db.job.find k with
  | none => exact iff_of_true hkept fun row hrow => by rw [hfind] at hrow; cases hrow
  | some row =>
    dsimp only
    cases hsched : row.schedulerId with
    | some schedulerId =>
      refine iff_of_true hkept fun row' hrow' hnone => ?_
      obtain rfl : row = row' := Option.some.inj (hfind.symm.trans hrow')
      rw [hsched] at hnone
      cases hnone
    | none =>
      rw [if_neg (by simp)]
      split
      · next hlocked =>
        refine iff_of_true hkept fun _ _ _ hfree => ?_
        obtain ⟨k', hmem, hlock⟩ := hany.mp hlocked
        exact absurd hlock (hfree k' hmem)
      · next hlocked =>
        have hfree : ∀ k' ∈ db.lockTree k removeChildren,
          ¬ db.lockedAt now k' := fun k' hmem hlock =>
          hlocked (hany.mpr ⟨k', hmem, hlock⟩)
        -- What is detached from the parent before does not concern the links.
        have hmain : ∀ db₁ : Db, db₁.links = db.links → (LockedKept now db
            ((db₁.removeTree k removeChildren).foldl
              (removeOne fun k' => (db₁.job.find k').bind JobRow.dedupId) db₁) ↔
            RemoveOk k removeChildren now db) := by
          intro db₁ hlinks
          have hexists : ∀ k', db₁.jobExists k' = true ↔ db.jobExists k' = true := fun k' => by
            rw [jobExists_iff_links, hlinks, ← jobExists_iff_links]
          constructor
          · rintro hkept' row' - - - k' hmem ⟨row'', hrow'', hlock⟩
            have hstill := hkept' k' row'' hrow'' hlock
            rw [jobExists_foldl_removeOne, removeTree_of_links hlinks] at hstill
            exact hstill.2 hmem
          · intro hok k' row' hrow' hlock
            rw [jobExists_foldl_removeOne, removeTree_of_links hlinks, hexists]
            refine ⟨by rw [Db.jobExists, hrow']; rfl, fun hmem => ?_⟩
            exact hok row hfind hsched hfree k' hmem ⟨row', hrow', hlock⟩
        cases hparent : row.parent with
        | none => exact hmain db rfl
        | some parent => exact hmain _ (detachPending_links k parent now db)

end Remove

/-! ### What `clean` deletes -/

section Clean

variable {db : Db} {queue : String}

/-- Counting the children of a parent again deletes no active job. -/
theorem recountParent_stay (queue : String) (db : Db) (parent : JobKey) :
    Table.RowsStay (fun _ row => row.state = .active) db.job
    (recountParent queue db parent).job := by
  have hcount : Table.RowsStay (fun _ row => row.state = .active) db.job
      (db.updateJob parent fun row => { row with pendingDeps := db.pendingCount parent }).job :=
    .updateKey _ _ fun _ _ h => h
  refine hcount.trans ?_
  simp only [recountParent]
  split
  · next hwaits =>
    -- The parent is not active.
    have hnot : ∀ row, (db.updateJob parent fun row =>
        { row with pendingDeps := db.pendingCount parent }).job.find parent = some row →
        row.state ≠ .active := by
      intro row hrow
      obtain ⟨row', hrow', hcond⟩ := (Option.any_eq_true ..).mp hwaits
      obtain rfl : row' = row := Option.some.inj (hrow'.symm.trans hrow)
      simp only [Bool.and_eq_true, decide_eq_true_eq] at hcond
      rw [hcond.1]
      decide
    split
    · refine .delete _ fun k row hrow hactive => ?_
      by_contra hk
      obtain rfl : k = parent := by simpa using hk
      exact hnot row hrow hactive
    · rw [publishEvent_job]
      exact .updateKey _ _ fun row hrow hactive => absurd hactive (hnot row hrow)
  · exact .refl _

/-- Counting the children of a parent again adds no job. -/
theorem recountParent_from (queue : String) (db : Db) (parent : JobKey) :
    Table.RowsFrom (fun _ _ => True) db.job (recountParent queue db parent).job := by
  have hcount : Table.RowsFrom (fun _ _ => True) db.job
      (db.updateJob parent fun row => { row with pendingDeps := db.pendingCount parent }).job :=
    .updateKey _ _ fun _ _ h => h
  refine hcount.trans ?_
  simp only [recountParent]
  split
  · split
    · exact .delete _ _
    · rw [publishEvent_job]
      exact .updateKey _ _ fun _ _ h => h
  · exact .refl _

theorem mem_cleaned {type : CleanType} {ts limit : ℤ} {k : JobKey}
    (h : k ∈ db.cleaned queue type ts limit) :
    ∃ row, db.job.find k = some row ∧ cleans queue type ts k row = true := by
  obtain ⟨⟨k', row⟩, hmem, rfl⟩ := List.mem_map.mp h
  have hsorted : (k', row) ∈ (db.job.select (cleans queue type ts)).insertionSort
      fun a b => a.2.seq ≤ b.2.seq := by
    split at hmem
    · exact List.mem_of_mem_take hmem
    · exact hmem
  exact ⟨row, Table.mem_select.mp ((List.perm_insertionSort _ _).subset hsorted)⟩

theorem state_of_cleans {type : CleanType} {ts : ℤ} {k : JobKey} {row : JobRow}
    (htype : type ≠ .active) (h : cleans queue type ts k row = true) : row.state ≠ .active := by
  intro hactive
  cases type <;> simp [cleans, hactive] at h htype

/-- `clean` deletes no locked job exactly if the condition holds. -/
theorem clean_lockedKept_iff (hlocks : LocksSound db) (type : CleanType) (ts limit now : ℤ) :
    LockedKept now db (clean queue type ts limit db).2 ↔ CleanOk queue type ts limit now db := by
  have hkept : LockedKept now db db := fun k row hrow _ => by rw [Db.jobExists, hrow]; rfl
  unfold clean
  dsimp only
  set keys := db.cleaned queue type ts limit with hkeys
  split
  · next hnil =>
    refine iff_of_true hkept fun _ k hk => ?_
    rw [← hkeys, hnil] at hk
    cases hk
  · -- The recounts of the parents keep every row, so a row is left exactly if its key was not
    -- selected.
    set db₁ : Db := Db.deleteJobs { db with
      dependency := db.dependency.delete fun d _ => decide (d.2 ∈ keys) } fun k _ =>
        decide (k ∈ keys)
    have hfind : ∀ k,
      db₁.job.find k = (db.job.find k).filter fun _ => decide (k ∉ keys) := fun k => by
      simp only [db₁, Db.deleteJobs, Table.find_delete, decide_not]
    have hjob : ∀ (parents : List JobKey) (e : Event), (publishEvent queue e
        (parents.foldl (recountParent queue) db₁)).job =
        (parents.foldl (recountParent queue) db₁).job := fun _ _ => publishEvent_job _ _ _
    have hstay := fun parents : List JobKey =>
      Table.RowsStay.foldl Db.job (recountParent_stay queue) parents db₁
    have hfrom := fun parents : List JobKey =>
      Table.RowsFrom.foldl Db.job (recountParent_from queue) parents db₁
    constructor
    · rintro hkept' - k hk ⟨row, hrow, hlock⟩
      have hstill := hkept' k row hrow hlock
      rw [Db.jobExists, hjob, Option.isSome_iff_exists] at hstill
      obtain ⟨row', hrow'⟩ := hstill
      obtain ⟨row'', hrow'', -⟩ := hfrom _ k row' hrow' trivial
      rw [hfind, Option.filter_eq_some_iff] at hrow''
      exact absurd hk (by simpa using hrow''.2)
    · intro hok k row hrow hlock
      have hactive : row.state = .active := by
        refine hlocks k row hrow fun hnone => ?_
        rw [JobRow.locked, hnone] at hlock
        simp at hlock
      have hnot : k ∉ keys := by
        intro hk
        by_cases htype : type = .active
        · exact hok htype k hk ⟨row, hrow, hlock⟩
        · obtain ⟨row', hrow', hcleans⟩ := mem_cleaned hk
          obtain rfl : row = row' := Option.some.inj (hrow.symm.trans hrow')
          exact state_of_cleans htype hcleans hactive
      have hrow₁ : db₁.job.find k = some row := by
        rw [hfind, Option.filter_eq_some_iff]
        exact ⟨hrow, by simpa using hnot⟩
      obtain ⟨row', hrow', -⟩ := hstay _ k row hrow₁ hactive
      rw [Db.jobExists, hjob, hrow']
      rfl

end Clean

/-- In every reachable state, `remove` and `clean` delete no job whose lock is live exactly if the
descendants by parent links, and the active jobs to be cleaned, are not locked. -/
theorem locked_kept_iff (cmds : List Command) :
    (∀ k removeChildren now,
      LockedKept now (runCommands cmds .empty)
          (orUnchanged (runCommands cmds .empty)
            (remove k removeChildren now (runCommands cmds .empty)) Prod.snd) ↔
        RemoveOk k removeChildren now (runCommands cmds .empty)) ∧
    ∀ queue type ts limit now,
      LockedKept now (runCommands cmds .empty)
          (clean queue type ts limit (runCommands cmds .empty)).2 ↔
        CleanOk queue type ts limit now (runCommands cmds .empty) := by
  refine ⟨fun k removeChildren now => ?_, fun queue type ts limit now => ?_⟩
  · exact remove_lockedKept_iff k removeChildren now _
  · exact clean_lockedKept_iff (locksSound_runCommands cmds) type ts limit now

/-- A parent whose only child completes, is retried with the other completed jobs, and is claimed
again. -/
def retriedChild : List Command :=
  [.addFlow
    [{ queue := "q", id := "p", name := "n", data := "d", timestamp := 0
       addToWaitingChildren := true },
      { queue := "c", id := "x", name := "n", data := "d", timestamp := 0
        parent := some ⟨"q", "p"⟩ }],
    .moveToActive "c" { token := "t", lockMs := 10, now := 1 },
    .moveToCompleted ⟨"c", "x"⟩ "t" none 2 {},
    .retryJobs "c" .completed 10 none,
    .moveToActive "c" { token := "t", lockMs := 10, now := 3 }]

/-- Removing the parent with its children deletes the child, and cleaning active jobs deletes it as
well, while its worker holds the lock. -/
theorem retriedChild_deleted :
    (runCommands retriedChild .empty).lockedAt 4 ⟨"c", "x"⟩ ∧
      ¬ LockedKept 4 (runCommands retriedChild .empty)
        (orUnchanged (runCommands retriedChild .empty)
          (remove ⟨"q", "p"⟩ true 4 (runCommands retriedChild .empty)) Prod.snd) ∧
      ¬ LockedKept 4 (runCommands retriedChild .empty)
        (clean "c" .active 4 0 (runCommands retriedChild .empty)).2 := by
  have hlocked : ((runCommands retriedChild .empty).job.find ⟨"c", "x"⟩).any
      (fun row => row.locked 4) = true := by decide +kernel
  obtain ⟨row, hrow, hlock⟩ := (Option.any_eq_true ..).mp hlocked
  refine ⟨⟨row, hrow, hlock⟩, fun h => ?_, fun h => ?_⟩
  · have hgone : (orUnchanged (runCommands retriedChild .empty)
        (remove ⟨"q", "p"⟩ true 4 (runCommands retriedChild .empty)) Prod.snd).jobExists
        ⟨"c", "x"⟩ = false := by decide +kernel
    rw [h _ row hrow hlock] at hgone
    cases hgone
  · have hgone : (clean "c" .active 4 0 (runCommands retriedChild .empty)).2.jobExists ⟨"c", "x"⟩ =
        false := by decide +kernel
    rw [h _ row hrow hlock] at hgone
    cases hgone

end BullMQ.Postgres
