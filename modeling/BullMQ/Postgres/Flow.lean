import BullMQ.Postgres.Dedup

/-!
# Parents and children in PostgreSQL

A parent owns a row of `job_dependency` for each of its children and counts those that are pending
in `pending_deps`. The functions here settle such a row when a child ends, is unlinked or is added
again, and release a parent that waits for its children.
-/

namespace BullMQ.Postgres

open Sql

/-- The status of a dependency. -/
def Db.depStatus (db : Db) (parent child : JobKey) : Option DepStatus :=
  (db.dependency.find (parent, child)).map DepRow.status

/-- `UPDATE job SET pending_deps = GREATEST(pending_deps - 1, 0)`. -/
def Db.decrementDeps (db : Db) (parent : JobKey) : Db :=
  db.updateJob parent fun row => { row with pendingDeps := row.pendingDeps - 1 }

/-- `UPDATE job SET pending_deps = pending_deps + 1`. -/
def Db.incrementDeps (db : Db) (parent : JobKey) : Db :=
  db.updateJob parent fun row => { row with pendingDeps := row.pendingDeps + 1 }

/-- Whether a job exists and counts no pending children. -/
def Db.noPendingDeps (db : Db) (k : JobKey) : Bool :=
  (db.job.find k).any fun row => decide (row.pendingDeps = 0)

/-- `move_parent_to_wait`: release a parent that waits for its children. -/
def moveParentToWait (parent : JobKey) (now : ℤ) (db : Db) : Db :=
  match db.job.find parent with
  | none => db
  | some row =>
    if row.state = .waitingChildren then
      let (seq, db) := db.nextJobSeq
      if 0 < row.delay then
        let processAt := now + row.delay
        let db := db.updateJob parent fun row =>
          { row with state := .delayed, processAt := some processAt, seq := seq }
        publishEvent parent.queue (.delayed parent.id processAt) db
      else
        let db := db.updateJob parent fun row => { row with state := .waiting, seq := seq }
        publishEvent parent.queue (.waiting parent.id (some "waiting-children")) db
    else db

/-- Decrement the counter of a parent and release the parent at zero. -/
def settleDependency (parent : JobKey) (now : ℤ) (db : Db) : Db :=
  let db := db.decrementDeps parent
  if db.noPendingDeps parent then moveParentToWait parent now db else db

/-- The reason a parent fails through a child. -/
def childFailure (child : JobKey) : String := "child " ++ child.text ++ " failed"

/-- `handle_child_failure`: account for a failed child with its parent, by the child's options. -/
def handleChildFailure (child : JobKey) (reason : String) (now : ℤ) (db : Db) : Db :=
  match db.job.find child with
  | none => db
  | some row =>
    match row.parent with
    | none => db
    | some parent =>
      if db.depStatus parent child = some .pending then
        let settle (status : DepStatus) : Db :=
          { db with dependency := db.dependency.updateKey (parent, child) fun _ =>
              ⟨status, some reason⟩ }
        if row.opts.failParentOnFailure then
          let db := (settle .failed).decrementDeps parent
          let db := db.updateJob parent fun row =>
            { row with deferredFailure := some (childFailure child) }
          moveParentToWait parent now db
        else if row.opts.continueParentOnFailure then
          moveParentToWait parent now ((settle .ignored).decrementDeps parent)
        else if row.opts.ignoreDependencyOnFailure then
          settleDependency parent now (settle .ignored)
        else if row.opts.removeDependencyOnFailure then
          settleDependency parent now
            { db with dependency := db.dependency.deleteKey (parent, child) }
        else db
      else db

/-- Delete a dependency that is pending and settle it with the parent; what a removed child does. -/
def detachPending (child parent : JobKey) (now : ℤ) (db : Db) : Db :=
  if db.depStatus parent child = some .pending then
    settleDependency parent now { db with dependency := db.dependency.deleteKey (parent, child) }
  else db

/-- `remove_child_dependency`. -/
def removeChildDependency (child : JobKey) (now : ℤ) (db : Db) : Except ℤ (ℤ × Db) :=
  match db.job.find child with
  | none => .error (-1)
  | some row =>
    match row.parent with
    | none => .ok (1, db)
    | some parent =>
      if ¬ db.jobExists parent then .error (-5)
      else if db.dependency.find (parent, child) = none then .ok (1, db)
      else
        let db := { db with dependency := db.dependency.deleteKey (parent, child) }
        let db := db.updateJob child fun row => { row with parent := none }
        .ok (0, settleDependency parent now db)

/-- Whether `remove_unprocessed_children` may remove a job. -/
def JobRow.unprocessed (row : JobRow) : Bool :=
  decide (row.state ∉ [JobState.active, .failed, .completed]) && row.lockToken.isNone

/-- The children of a job with a pending dependency that may be removed. -/
def Db.unprocessedChildren (db : Db) (k : JobKey) : List JobKey :=
  (db.dependency.select fun d row => decide (d.1 = k) && decide (row.status = .pending)).filterMap
    fun d => if (db.job.find d.1.2).any JobRow.unprocessed then some d.1.2 else none

/-- The rows of a recursive query: start with some keys and add the successors of what is there,
until nothing new comes up or the fuel runs out. -/
def closure (succ : JobKey → List JobKey) : ℕ → List JobKey → List JobKey → List JobKey
  | 0, _, found => found
  | fuel + 1, frontier, found =>
    let new := ((frontier.flatMap succ).dedup).filter fun k => decide (k ∉ found)
    if new = [] then found else closure succ fuel new (found ++ new)

/-- One round of the loop of `remove_unprocessed_children`. -/
def removeUnprocessedChild (db : Db) (child : JobKey) : Db :=
  let db' := db.updateJobs
    (fun parent _ => decide (db.depStatus parent child = some .pending))
    fun row => { row with pendingDeps := row.pendingDeps - 1 }
  publishEvent child.queue (.removed child.id "waiting") (db'.deleteJob child)

/-- `remove_unprocessed_children`. -/
def removeUnprocessedChildren (k : JobKey) (db : Db) : Db :=
  let direct := (db.unprocessedChildren k).dedup
  let subtree := closure db.unprocessedChildren db.job.rows.length direct direct
  subtree.foldl removeUnprocessedChild db

/-- `handle_duplicated_job`: an add under an id that exists. -/
def handleDuplicatedJob (k : JobKey) (parent : Option JobKey) (now : ℤ) (db : Db) : ℤ × Db :=
  match parent with
  | none => (0, publishEvent k.queue (.duplicated k.id) db)
  | some parent =>
    let existing := (db.job.find k).bind JobRow.parent
    if existing.any fun other => decide (other ≠ parent) && db.jobExists other then (-7, db)
    else
      let db :=
        if (db.job.find k).any fun row => decide (row.state = .completed) then
          let value := (db.job.find k).bind JobRow.returnValue
          let dep : DepRow := ⟨.processed, value⟩
          let db := { db with dependency := db.dependency.upsert (parent, k) dep fun _ => dep }
          -- A missing parent counts as one without pending children.
          if (db.job.find parent).all fun row => decide (row.pendingDeps = 0) then
            moveParentToWait parent now db
          else db
        else if db.dependency.find (parent, k) = none then
          Db.incrementDeps { db with dependency := db.dependency.insert (parent, k) {} } parent
        else db
      let db := db.updateJob k fun row => { row with parent := some parent }
      (0, publishEvent k.queue (.duplicated k.id) db)

end BullMQ.Postgres
