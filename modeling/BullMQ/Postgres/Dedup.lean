import BullMQ.Postgres.Schema

/-!
# Deduplication in PostgreSQL

A row of `dedup` names the winner of a deduplication id, with or without an expiry; a row of
`dedup_next` keeps the last add that was dropped in favour of an active winner. `deduplicateJob`
decides on an add, `dedupFinalize` and `requeueDedupNext` act when a job finishes, `dedupOnRemoval`
when it is removed.
-/

namespace BullMQ.Postgres

open Sql

/-- `INSERT INTO dedup … ON CONFLICT DO UPDATE SET job_id, expire_at_ms`. -/
def Db.setDedup (db : Db) (queue dedupId : String) (row : DedupRow) : Db :=
  { db with dedup := db.dedup.upsert (queue, dedupId) row fun _ => row }

/-- `UPDATE dedup SET … WHERE queue = … AND dedup_id = …`. -/
def Db.updateDedup (db : Db) (queue dedupId : String) (f : DedupRow → DedupRow) : Db :=
  { db with dedup := db.dedup.updateKey (queue, dedupId) f }

/-- `dedup_finalize`: clear the key without an expiry of a job that finishes, and an expired key. -/
def dedupFinalize (queue : String) (dedupId : Option String) (jobId : String) (now : ℤ) (db : Db) :
    Db :=
  match dedupId with
  | none => db
  | some dedupId =>
    if dedupId = "" then db
    else
      match db.dedup.find (queue, dedupId) with
      | none => db
      | some row =>
        match row.expireAt with
        | none =>
          if row.jobId = jobId then { db with dedup := db.dedup.deleteKey (queue, dedupId) } else db
        | some expireAt =>
          if expireAt ≤ now then { db with dedup := db.dedup.deleteKey (queue, dedupId) } else db

/-- `dedup_on_removal`: clear the key of a job that is removed. -/
def dedupOnRemoval (queue jobId : String) (dedupId : Option String) (db : Db) : Db :=
  match dedupId with
  | none => db
  | some dedupId =>
    if dedupId = "" then db
    else
      { db with
        dedup := db.dedup.delete fun k row =>
          decide (k = (queue, dedupId)) && decide (row.jobId = jobId) }

/-- `dedup_store_next`: keep an add as the successor of an active winner, whose key then does not
expire. Returns whether it was kept. -/
def dedupStoreNext (queue dedupId winner jobId : String) (keepLast : Bool) (name data : String)
    (opts : JobsOptions) (db : Db) : Bool × Db :=
  if keepLast ∧ (db.job.find ⟨queue, winner⟩).any (fun row => decide (row.state = .active)) then
    let payload : DedupPayload := ⟨name, data, opts, jobId⟩
    let db := { db with dedupNext := db.dedupNext.upsert (queue, dedupId) payload fun _ => payload }
    (true, db.updateDedup queue dedupId fun row => { row with expireAt := none })
  else (false, db)

/-- The row of a successor. -/
def DedupPayload.row (payload : DedupPayload) (seq : ℤ) (dedupId : String) (now : ℤ) : JobRow where
  seq := if payload.opts.lifo then -seq else seq
  name := payload.name
  state := if 0 < payload.opts.delay then .delayed else .waiting
  data := payload.data
  opts := payload.opts
  priority := payload.opts.priority
  delay := payload.opts.delay
  maxAttempts := payload.opts.attempts
  addedAt := now
  processAt := if 0 < payload.opts.delay then some (now + payload.opts.delay) else none
  dedupId := some dedupId

/-- `requeue_dedup_next`: turn the kept successor into a job when the winner finishes. -/
def requeueDedupNext (queue : String) (dedupId : Option String) (now : ℤ) (db : Db) : Db :=
  match dedupId with
  | none => db
  | some dedupId =>
    if dedupId = "" then db
    else
      match db.dedupNext.find (queue, dedupId) with
      | none => db
      | some payload =>
        let (jobId, db) :=
          if payload.jobId = "" then db.nextJobId queue else (payload.jobId, db)
        let keepLast := (payload.opts.deduplication.map
          DeduplicationOpts.keepLastIfActive).getD false
        let ttl := (payload.opts.deduplication.bind DeduplicationOpts.ttl).getD 0
        let (seq, db) := db.nextJobSeq
        let row := payload.row seq dedupId now
        let db := { db with job := db.job.insert ⟨queue, jobId⟩ row }
        let db := db.setDedup queue dedupId
          ⟨jobId, if keepLast ∨ ttl ≤ 0 then none else some (now + ttl)⟩
        let db := { db with dedupNext := db.dedupNext.deleteKey (queue, dedupId) }
        match row.processAt with
        | some processAt => publishEvent queue (.delayed jobId processAt) db
        | none => publishEvent queue (.waiting jobId none) db

/-- The winner that a row names at a time, if the row has not expired. -/
def DedupRow.winner (row : DedupRow) (now : ℤ) : Option String :=
  if row.expireAt.any fun expireAt => decide (expireAt ≤ now) then none else some row.jobId

/-- `deduplicate_job`: the winner in favour of which an add is dropped, or none if the add goes on.
-/
def deduplicateJob (queue : String) (de : DeduplicationOpts) (jobId : String) (now : ℤ)
    (name data : String) (opts : JobsOptions) (db : Db) : Option String × Db :=
  if de.id = "" then (none, db)
  else
    let current := (db.dedup.find (queue, de.id)).bind fun row => row.winner now
    let ttl := de.ttl.getD 0
    let expiry := if 0 < ttl then some (now + ttl) else none
    if de.replace then
      match current with
      | some current =>
        if (db.job.find ⟨queue, current⟩).any fun row => decide (row.state = .delayed) then
          let db := db.deleteJob ⟨queue, current⟩
          let db := publishEvent queue (.removed current "delayed") db
          let db := publishEvent queue (.deduplicated jobId de.id current) db
          (none, db.updateDedup queue de.id fun row =>
            if de.keepLastIfActive then { row with jobId := jobId, expireAt := none }
            else if ¬ de.extend ∧ 0 < ttl then { row with jobId := jobId }
            else { row with jobId := jobId, expireAt := expiry })
        else
          (some current,
            (dedupStoreNext queue de.id current jobId de.keepLastIfActive name data opts db).2)
      | none =>
        (none, db.setDedup queue de.id ⟨jobId, if de.keepLastIfActive then none else expiry⟩)
    else if 0 < ttl ∧ de.extend then
      match current with
      | some current =>
        let (stored, db) :=
          dedupStoreNext queue de.id current jobId de.keepLastIfActive name data opts db
        let db :=
          if stored then db
          else db.updateDedup queue de.id fun row =>
            { row with expireAt := if de.keepLastIfActive then none else some (now + ttl) }
        (some current, publishEvent queue (.deduplicated current de.id jobId) db)
      | none =>
        (none, db.setDedup queue de.id
          ⟨jobId, if de.keepLastIfActive then none else some (now + ttl)⟩)
    else
      match current with
      | some current =>
        let db :=
          (dedupStoreNext queue de.id current jobId de.keepLastIfActive name data opts db).2
        (some current, publishEvent queue (.deduplicated current de.id jobId) db)
      | none =>
        (none, db.setDedup queue de.id ⟨jobId, if de.keepLastIfActive then none else expiry⟩)

end BullMQ.Postgres
