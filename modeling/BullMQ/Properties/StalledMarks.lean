import BullMQ.Postgres.Evolution

/-!
# Marks of stalled jobs in PostgreSQL

A pass over stalled jobs takes back the jobs that an earlier pass has marked and whose lock has
expired, and marks those that are active then. The mark stays when a job is released and claimed
again, or when its lock is renewed. What has happened to a job since the last pass is kept beside
the tables (`Watch`); `reclaimed_prior_iff` says when a pass takes back no job that was claimed or
renewed since.
-/

namespace BullMQ.Postgres

open Sql

/-! ### A pass -/

section Pass

variable {db : Db} {queue : String} {maxStalled now maxCheckTime : ℤ}

theorem Evolves.marked {db db' : Db} (h : Evolves db db') {k : JobKey} {row' : JobRow}
    (hrow' : db'.job.find k = some row') (hmark : row'.stalledMarked = true) :
    ∃ row, db.job.find k = some row ∧ row.stalledMarked = true := by
  obtain hfresh | ⟨row, hrow, hedit⟩ := h k row' hrow'
  · have hnot := hfresh.mark
    rw [hmark] at hnot
    cases hnot
  · exact ⟨row, hrow, hedit.mark hmark⟩

/-- After a pass the marked jobs of the queue are active ones; those of other queues were marked. -/
theorem marked_of_pass (h : db.stalledThrottled queue now maxCheckTime = false) {k : JobKey}
    {row : JobRow}
    (hrow : (moveStalledJobsToWait queue maxStalled now maxCheckTime db).2.job.find k = some row)
    (hmark : row.stalledMarked = true) :
    (k.queue = queue ∧ row.state = .active) ∨
      (k.queue ≠ queue ∧ ∃ row, db.job.find k = some row ∧ row.stalledMarked = true) := by
  simp only [moveStalledJobsToWait, h, Bool.false_eq_true, if_false, Db.updateJobs,
    Table.find_update, Option.map_map, Option.map_eq_some_iff, Function.comp_apply] at hrow
  obtain ⟨row', hrow', rfl⟩ := hrow
  by_cases hqueue : k.queue = queue
  · refine .inl ⟨hqueue, ?_⟩
    simp only [hqueue, decide_true, Bool.true_and, decide_eq_true_eq] at hmark ⊢
    cases hold : row'.stalledMarked <;> by_cases hactive : row'.state = .active <;>
      simp_all
  · refine .inr ⟨hqueue, ?_⟩
    simp only [hqueue, decide_false, Bool.false_and, Bool.false_eq_true, if_false] at hmark
    have hfrom := (foldl_reclaimJob_evolves _ maxStalled _).marked hrow' hmark
    exact hfrom

/-- The jobs that a pass takes back. -/
theorem mem_reclaimed (h : db.stalledThrottled queue now maxCheckTime = false) {id : String} :
    id ∈ (moveStalledJobsToWait queue maxStalled now maxCheckTime db).1 ↔
      ∃ row, db.job.find ⟨queue, id⟩ = some row ∧ reclaims queue now ⟨queue, id⟩ row = true := by
  simp only [moveStalledJobsToWait, h, Bool.false_eq_true, if_false, List.mem_map]
  constructor
  · rintro ⟨⟨⟨q, id'⟩, row⟩, hmem, rfl⟩
    obtain ⟨hfind, hcond⟩ := Table.mem_select.mp hmem
    obtain rfl : q = queue := by
      simp only [reclaims, Bool.and_eq_true, decide_eq_true_eq] at hcond
      exact hcond.1.1.1
    exact ⟨row, hfind, hcond⟩
  · rintro ⟨row, hfind, hcond⟩
    exact ⟨(⟨queue, id⟩, row), Table.mem_select.mpr ⟨hfind, hcond⟩, rfl⟩

end Pass

/-! ### Runs -/

/-- What has happened since the last pass over a queue that was not throttled: which jobs were
active when it ended, which were claimed since, and whose locks were renewed since. -/
structure Watch where
  seen : JobKey → Bool
  claimed : JobKey → Bool
  renewed : JobKey → Bool

/-- The tables with what has happened since the last pass. -/
structure Watched where
  db : Db
  watch : Watch

/-- Watch a command that is executed. -/
def Watch.step (w : Watch) (db : Db) : Command → Watch
  | .moveToActive queue args =>
    match (moveToActive queue args db).1 with
    | some id => { w with claimed := Function.update w.claimed ⟨queue, id⟩ true }
    | none => w
  | .extendLock k token lockMs now =>
    if (extendLock k token lockMs now db).1 then
      { w with renewed := Function.update w.renewed k true }
    else w
  | .moveStalledJobsToWait queue maxStalled now maxCheckTime =>
    if db.stalledThrottled queue now maxCheckTime then w
    else
      let db' := (moveStalledJobsToWait queue maxStalled now maxCheckTime db).2
      { seen := fun k =>
          if k.queue = queue then (db'.job.find k).any fun row => decide (row.state = .active)
          else w.seen k
        claimed := fun k => decide (k.queue ≠ queue) && w.claimed k
        renewed := fun k => decide (k.queue ≠ queue) && w.renewed k }
  | _ => w

/-- Execute a command and watch it. -/
def Watched.exec (w : Watched) (cmd : Command) : Watched := ⟨cmd.exec w.db, w.watch.step w.db cmd⟩

/-- A run from the empty tables. -/
def watchedRun (cmds : List Command) : Watched :=
  cmds.foldl Watched.exec ⟨.empty, fun _ => false, fun _ => false, fun _ => false⟩

/-- The current activation of a job has started before the last pass ended, and its lock was not
renewed since. -/
def Watch.Prior (w : Watch) (k : JobKey) : Prop :=
  w.seen k = true ∧ w.claimed k = false ∧ w.renewed k = false

/-- The marked jobs were active when the last pass ended. -/
def MarksSeen (w : Watched) : Prop :=
  ∀ k row, w.db.job.find k = some row → row.stalledMarked = true → w.watch.seen k = true

theorem watch_seen_of_not_pass (w : Watch) (db : Db) {cmd : Command} (h : cmd.isPass = false) :
    (w.step db cmd).seen = w.seen := by
  cases cmd <;> simp only [Watch.step] <;> first | rfl | (split <;> rfl) | cases h

theorem MarksSeen.exec {w : Watched} (h : MarksSeen w) (cmd : Command) :
    MarksSeen (w.exec cmd) := by
  intro k row hrow hmark
  -- Only a pass sets marks, and it marks what it finds active.
  cases hpass : cmd.isPass with
  | false =>
    obtain ⟨row', hrow', hmark'⟩ := (exec_evolves w.db cmd hpass).marked hrow hmark
    simp only [Watched.exec, watch_seen_of_not_pass _ _ hpass]
    exact h k row' hrow' hmark'
  | true =>
    obtain ⟨queue, maxStalled, now, maxCheckTime, rfl⟩ :
        ∃ queue maxStalled now maxCheckTime,
          cmd = .moveStalledJobsToWait queue maxStalled now maxCheckTime := by
      cases cmd <;> first | exact ⟨_, _, _, _, rfl⟩ | cases hpass
    simp only [Watched.exec, Watch.step]
    cases hthrottled : w.db.stalledThrottled queue now maxCheckTime with
    | true =>
      simp only [Watched.exec, Command.exec, moveStalledJobsToWait, hthrottled, if_true] at hrow
      exact h k row hrow hmark
    | false =>
      simp only [Bool.false_eq_true, if_false]
      obtain ⟨hqueue, hactive⟩ | ⟨hqueue, row', hrow', hmark'⟩ :=
        marked_of_pass hthrottled hrow hmark
      · have hfind : (moveStalledJobsToWait queue maxStalled now maxCheckTime w.db).2.job.find k =
          some row := hrow
        rw [if_pos hqueue, hfind]
        simpa using hactive
      · rw [if_neg hqueue]
        exact h k row' hrow' hmark'

theorem marksSeen_watchedRun (cmds : List Command) : MarksSeen (watchedRun cmds) := by
  induction cmds using List.reverseRecOn with
  | nil =>
    intro k row hrow
    cases hrow
  | append_singleton cmds cmd ih =>
    rw [watchedRun, List.foldl_append]
    exact ih.exec cmd

/-- In every run, a job that is marked was active when the last pass ended; and a pass takes back
only jobs whose activation has started before that and whose lock was not renewed since, exactly if
the locks still run that marked jobs were given since, by a claim or a renewal. -/
theorem reclaimed_prior_iff (cmds : List Command) (queue : String) (maxStalled now maxCheckTime : ℤ)
    (h : (watchedRun cmds).db.stalledThrottled queue now maxCheckTime = false) :
    ((∀ id ∈ (moveStalledJobsToWait queue maxStalled now maxCheckTime (watchedRun cmds).db).1,
        (watchedRun cmds).watch.Prior ⟨queue, id⟩) ↔
      ∀ id row, (watchedRun cmds).db.job.find ⟨queue, id⟩ = some row → row.state = .active →
        row.stalledMarked = true →
        (watchedRun cmds).watch.claimed ⟨queue, id⟩ = true ∨
          (watchedRun cmds).watch.renewed ⟨queue, id⟩ = true →
        ∀ lockedUntil, row.lockedUntil = some lockedUntil → now ≤ lockedUntil) ∧
    ∀ k row, (watchedRun cmds).db.job.find k = some row → row.stalledMarked = true →
      (watchedRun cmds).watch.seen k = true := by
  have hseen := marksSeen_watchedRun cmds
  refine ⟨⟨fun hprior id row hrow hactive hmark hsince lockedUntil hlock => ?_,
    fun hlocks id hid => ?_⟩,
    hseen⟩
  · -- A marked job whose lock is expired is taken back, though it was claimed or renewed since.
    by_contra hexpired
    have hid : id ∈ (moveStalledJobsToWait queue maxStalled now maxCheckTime
        (watchedRun cmds).db).1 := by
      rw [mem_reclaimed h]
      refine ⟨row, hrow, ?_⟩
      simpa [reclaims, hactive, hmark, hlock] using hexpired
    obtain ⟨-, hclaimed, hrenewed⟩ := hprior id hid
    rw [hclaimed, hrenewed] at hsince
    simp at hsince
  · obtain ⟨row, hrow, hcond⟩ := (mem_reclaimed h).mp hid
    simp only [reclaims, decide_true, Bool.true_and, Bool.and_eq_true, decide_eq_true_eq,
      Option.any_eq_true] at hcond
    obtain ⟨⟨hactive, hmark⟩, lockedUntil, hlock, hexpired⟩ := hcond
    have hnot : ¬ ((watchedRun cmds).watch.claimed ⟨queue, id⟩ = true ∨
        (watchedRun cmds).watch.renewed ⟨queue, id⟩ = true) := fun hsince => by
      have hle := hlocks id row hrow hactive hmark hsince lockedUntil hlock
      omega
    rw [not_or, Bool.not_eq_true, Bool.not_eq_true] at hnot
    exact ⟨hseen _ _ hrow hmark, hnot⟩

/-- A job is added and claimed, a pass marks it, and its worker is gone. -/
def lostWorker : List Command :=
  [.addJob { queue := "q", id := "x", name := "n", data := "d", timestamp := 0 },
    .moveToActive "q" { token := "t", lockMs := 10, now := 0 },
    .moveStalledJobsToWait "q" 1 1 30]

/-- The next pass takes the job back. -/
theorem lostWorker_reclaimed :
    (moveStalledJobsToWait "q" 1 40 30 (watchedRun lostWorker).db).1 = ["x"] ∧
      (watchedRun lostWorker).watch.Prior ⟨"q", "x"⟩ := by
  have hids : (moveStalledJobsToWait "q" 1 40 30 (watchedRun lostWorker).db).1 = ["x"] := by
    decide +kernel
  refine ⟨hids, ((reclaimed_prior_iff lostWorker "q" 1 40 30 (by decide +kernel)).1.mpr ?_) "x"
    (by rw [hids]; exact List.mem_singleton_self _)⟩
  intro id row _ _ _ hsince
  have hclaimed : (watchedRun lostWorker).watch.claimed ⟨"q", id⟩ = false := rfl
  have hrenewed : (watchedRun lostWorker).watch.renewed ⟨"q", id⟩ = false := rfl
  rw [hclaimed, hrenewed] at hsince
  simp at hsince

/-- The worker puts the job back after the pass, and another one claims it. -/
def retriedJob : List Command :=
  lostWorker ++ [.retryJob ⟨"q", "x"⟩ "t" false none none,
    .moveToActive "q" { token := "u", lockMs := 10, now := 2 }]

/-- The first pass that sees the new claim takes the job back. -/
theorem retriedJob_reclaimed :
    (moveStalledJobsToWait "q" 1 40 30 (watchedRun retriedJob).db).1 = ["x"] ∧
      (watchedRun retriedJob).watch.claimed ⟨"q", "x"⟩ = true ∧
      ¬ (watchedRun retriedJob).watch.Prior ⟨"q", "x"⟩ := by
  have hclaimed : (watchedRun retriedJob).watch.claimed ⟨"q", "x"⟩ = true := by decide +kernel
  refine ⟨by decide +kernel, hclaimed, fun hprior => ?_⟩
  have hnot := hprior.2.1
  rw [hclaimed] at hnot
  cases hnot

end BullMQ.Postgres
