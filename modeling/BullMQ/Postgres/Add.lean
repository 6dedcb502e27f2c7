import BullMQ.Postgres.Flow

/-!
# Adding jobs in PostgreSQL

`addJob` adds one job and `addFlow` a list of entries, in order, of which some may be children of
others. `addJobsBulk` is the path for a batch of jobs of one queue that have neither a parent nor a
deduplication id: it works on the whole batch at once, as the statements of the source do.
-/

namespace BullMQ.Postgres

open Sql

/-- The arguments of an add. `id` is empty when it is to be drawn. -/
structure Entry where
  queue : String
  id : String := ""
  name : String
  data : String
  opts : JobsOptions := {}
  priority : ℤ := 0
  delay : ℤ := 0
  timestamp : ℤ
  attempts : ℤ := 1
  parent : Option JobKey := none
  dedupId : Option String := none
  schedulerId : Option String := none
  lifo : Bool := false
  addToWaitingChildren : Bool := false
  deriving DecidableEq, Repr

/-- Draw the id of an entry that has none. -/
def Entry.drawId (e : Entry) (db : Db) : String × Db :=
  if e.id = "" then db.nextJobId e.queue else (e.id, db)

/-- Deduplicate an entry that has a deduplication id. -/
def Entry.deduplicate (e : Entry) (jobId : String) (db : Db) : Option String × Db :=
  match e.dedupId with
  | none => (none, db)
  | some dedupId =>
    if dedupId = "" then (none, db)
    else
      deduplicateJob e.queue (e.opts.deduplication.getD { id := dedupId }) jobId e.timestamp e.name
        e.data e.opts db

/-- Whether the parent of an entry is missing. -/
def Entry.parentMissing (e : Entry) (db : Db) : Bool :=
  e.parent.any fun parent => !db.jobExists parent

/-- The signed position of an entry. -/
def Entry.signed (e : Entry) (seq : ℤ) : ℤ := if e.lifo then -seq else seq

/-- The state of the job of an entry; only flows add to those that wait for children. -/
def Entry.state (e : Entry) : JobState := if 0 < e.delay then .delayed else .waiting

/-- When the job of an entry is due. -/
def Entry.processAt (e : Entry) : Option ℤ :=
  if 0 < e.delay then some (e.timestamp + e.delay) else none

/-- The row of the job of an entry. -/
def Entry.row (e : Entry) (seq : ℤ) (state : JobState) (processAt : Option ℤ) : JobRow where
  seq := seq
  name := e.name
  state := state
  data := e.data
  opts := e.opts
  priority := e.priority
  delay := e.delay
  maxAttempts := e.attempts
  addedAt := e.timestamp
  processAt := processAt
  dedupId := e.dedupId
  schedulerId := e.schedulerId
  parent := e.parent

/-- Register a new job as a pending child of its parent. -/
def registerChild (k : JobKey) (parent : Option JobKey) (db : Db) : Db :=
  match parent with
  | none => db
  | some parent =>
    Db.incrementDeps { db with dependency := db.dependency.insert (parent, k) {} } parent

/-- The event of the state a new job is in. -/
def stateEvent (jobId : String) (state : JobState) (processAt : Option ℤ) : Event :=
  match state with
  | .delayed => .delayed jobId (processAt.getD 0)
  | .waitingChildren => .waitingChildren jobId none
  | _ => .waiting jobId none

/-- `add_job`. -/
def addJob (e : Entry) (db : Db) : Except ℤ (String × Db) :=
  let (jobId, db) := e.drawId db
  let (existing, db) := e.deduplicate jobId db
  match existing with
  | some existing => .ok (existing, db)
  | none =>
    if e.parentMissing db then .error (-5)
    else
      let k : JobKey := ⟨e.queue, jobId⟩
      let (seq, db) := db.nextJobSeq
      if db.jobExists k then
        let (code, db) := handleDuplicatedJob k e.parent e.timestamp db
        if code = -7 then .error (-7) else .ok (jobId, db)
      else
        let row := e.row (e.signed seq) e.state e.processAt
        let db := registerChild k e.parent { db with job := db.job.insert k row }
        let db := publishEvent e.queue (.added jobId (some e.name)) db
        .ok (jobId, publishEvent e.queue (stateEvent jobId e.state e.processAt) db)

/-! ### Flows -/

/-- The state in which a flow adds the job of an entry. -/
def Entry.flowState (e : Entry) : JobState :=
  if e.addToWaitingChildren then .waitingChildren else e.state

/-- When the job of an entry that a flow adds is due. -/
def Entry.flowProcessAt (e : Entry) : Option ℤ :=
  if e.addToWaitingChildren then none else e.processAt

/-- What the loop of `add_flow` carries: the ids, the events to append at the end, and the tables.
-/
structure FlowAcc where
  results : List String
  events : List (String × Event)
  db : Db

/-- One round of the loop of `add_flow`. -/
def addFlowEntry (acc : FlowAcc) (e : Entry) : FlowAcc :=
  let (jobId, db) := e.drawId acc.db
  let (winner, db) := e.deduplicate jobId db
  match winner with
  | some winner => { acc with results := acc.results ++ [winner], db := db }
  | none =>
    if e.parentMissing db then { acc with results := acc.results ++ ["-5"], db := db }
    else
      let k : JobKey := ⟨e.queue, jobId⟩
      let (seq, db) := db.nextJobSeq
      if db.jobExists k then
        if e.parent.isSome then
          let (code, db) := handleDuplicatedJob k e.parent e.timestamp db
          { acc with results := acc.results ++ [if code = -7 then "-7" else jobId], db := db }
        else { acc with results := acc.results ++ [jobId], db := db }
      else
        let row := e.row (e.signed seq) e.flowState e.flowProcessAt
        { results := acc.results ++ [jobId]
          events := acc.events ++ [(e.queue, .added jobId (some e.name)),
            (e.queue, stateEvent jobId e.flowState e.flowProcessAt)]
          db := registerChild k e.parent { db with job := db.job.insert k row } }

/-- Append events, in order. -/
def appendEvents (events : List (String × Event)) (db : Db) : Db :=
  events.foldl (fun db e => db.appendEvent e.1 e.2) db

/-- The rows of events that are appended after an id. -/
def numberEvents (id : ℕ) (events : List (String × Event)) : List EventRow :=
  (events.zipIdx (id + 1)).map fun e => ⟨e.1.1, e.2, e.1.2⟩

theorem appendEvents_eq (events : List (String × Event)) (db : Db) :
    appendEvents events db =
      { db with
        event := db.event ++ numberEvents db.eventSeq events
        eventSeq := db.eventSeq + events.length } := by
  induction events generalizing db with
  | nil => simp [appendEvents, numberEvents]
  | cons e events ih =>
    have hstep : appendEvents (e :: events) db = appendEvents events (db.appendEvent e.1 e.2) := rfl
    rw [hstep, ih]
    simp only [Db.appendEvent, numberEvents, List.zipIdx_cons, List.map_cons, List.append_assoc,
      List.cons_append, List.nil_append, List.length_cons]
    congr 1
    omega

/-- Trim the events of a queue to those whose ids are not too far below the last one. -/
def trimToMax (db : Db) (queue : String) : Db :=
  let max := db.maxLenEvents queue
  match ((db.event.filter fun r => decide (r.queue = queue)).map EventRow.id).max? with
  | some last => if 0 < max then db.trimEvents queue (last - max) else db
  | none => db

theorem trimToMax_cases (db : Db) (queue : String) :
    trimToMax db queue = db ∨ ∃ cutoff, trimToMax db queue = db.trimEvents queue cutoff := by
  unfold trimToMax
  dsimp only
  split
  · next last _ =>
    by_cases hmax : 0 < db.maxLenEvents queue
    · exact .inr ⟨_, if_pos hmax⟩
    · exact .inl (if_neg hmax)
  · exact .inl rfl

/-- Trimming leaves the jobs alone. -/
theorem foldl_trimToMax_job (queues : List String) (db : Db) :
    (queues.foldl trimToMax db).job = db.job := by
  induction queues generalizing db with
  | nil => rfl
  | cons q queues ih =>
    rw [List.foldl_cons, ih]
    obtain heq | ⟨cutoff, heq⟩ := trimToMax_cases db q
    · rw [heq]
    · rw [heq]
      rfl

/-- The end of `add_flow`: append the events and trim those of the queues concerned. -/
def flushEvents (events : List (String × Event)) (db : Db) : Db :=
  ((events.map Prod.fst).dedup).foldl trimToMax (appendEvents events db)

/-- `add_flow`. -/
def addFlow (entries : List Entry) (db : Db) : List String × Db :=
  let acc := entries.foldl addFlowEntry ⟨[], [], db⟩
  (acc.results, flushEvents acc.events acc.db)

/-! ### Bulk adds -/

/-- A row of the table `_bulk_result`. -/
structure BulkRow where
  ord : ℕ
  id : String
  entry : Entry
  seq : ℤ

/-- Draw the ids of a batch, in the order of the entries. -/
def drawIds (queue : String) : List Entry → Db → List String × Db
  | [], db => ([], db)
  | e :: entries, db =>
    let (id, db) := if e.id = "" then db.nextJobId queue else (e.id, db)
    let (ids, db) := drawIds queue entries db
    (id :: ids, db)

/-- Reserve a value of `job_seq` for each entry of a batch. -/
def reserveSeqs : ℕ → Db → List ℤ × Db
  | 0, db => ([], db)
  | n + 1, db =>
    let (seq, db) := db.nextJobSeq
    let (seqs, db) := reserveSeqs n db
    (seq :: seqs, db)

/-- The table `_bulk_result`: the entries with their ids, each with the reserved value of its rank.
-/
def bulkRows (entries : List Entry) (ids : List String) (seqs : List ℤ) : List BulkRow :=
  (((entries.zip ids).zip (seqs.mergeSort fun a b => decide (a ≤ b))).zipIdx 1).map fun r =>
    { ord := r.2, id := r.1.1.2, entry := r.1.1.1, seq := r.1.1.1.signed r.1.2 }

/-- Insert the batch: the rows that were inserted and the table after it. -/
def insertBatch (queue : String) : List BulkRow → Table JobKey JobRow →
    List BulkRow × Table JobKey JobRow
  | [], t => ([], t)
  | r :: rs, t =>
    let k : JobKey := ⟨queue, r.id⟩
    let row : JobRow :=
      { r.entry.row r.seq r.entry.state r.entry.processAt with dedupId := none, parent := none }
    let (inserted, t') := insertBatch queue rs (t.insert k row)
    (if t.find k = none then r :: inserted else inserted, t')

/-- The events of a batch with their positions: each job announces itself and its state, at the
first place of its id in the batch. -/
def bulkEvents (queue : String) (result inserted : List BulkRow) : List (ℕ × String × Event) :=
  let ordOf (r : BulkRow) : ℕ :=
    ((result.filter fun r' => decide (r'.id = r.id)).map BulkRow.ord).min?.getD 0
  (inserted.map fun r => (ordOf r * 2, queue, .added r.id (some r.entry.name))) ++
    inserted.map fun r =>
      (ordOf r * 2 + 1, queue, stateEvent r.id r.entry.state r.entry.processAt)

/-- `add_jobs_bulk`. -/
def addJobsBulk (queue : String) (entries : List Entry) (db : Db) : List String × Db :=
  let (ids, db) := drawIds queue entries db
  let (seqs, db) := reserveSeqs entries.length db
  let result := bulkRows entries ids seqs
  let (inserted, job) := insertBatch queue result db.job
  let events := (bulkEvents queue result inserted).mergeSort fun a b => decide (a.1 ≤ b.1)
  (result.map BulkRow.id, appendEvents (events.map Prod.snd) { db with job := job })

end BullMQ.Postgres
