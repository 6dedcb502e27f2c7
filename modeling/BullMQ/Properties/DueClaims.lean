import BullMQ.Postgres.Evolution
import BullMQ.Redis.Order

/-!
# Claims of promoted jobs in PostgreSQL

A claim first turns all delayed jobs that are due into waiting ones, and then takes the waiting job
that is first by priority and sequence number. The sequence number is drawn when a job is added, so
that jobs which are promoted together are claimed in the order of the adds and not in that of their
due times. `due_order_iff` says exactly when the two orders are the same.
-/

namespace BullMQ.Postgres

open Sql Redis

/-- The ids that successive calls of `moveToActive` claim. -/
def claims (queue : String) : List ClaimArgs → Db → List String
  | [], _ => []
  | args :: rest, db =>
    (moveToActive queue args db).1.toList ++ claims queue rest (moveToActive queue args db).2

/-- Two jobs of the same priority that a pass promotes, the first one due earlier. -/
structure DueBefore (queue : String) (now : ℤ) (db : Db) (x y : String) (row row' : JobRow) :
    Prop where
  find : db.job.find ⟨queue, x⟩ = some row
  find' : db.job.find ⟨queue, y⟩ = some row'
  due : dueIn queue now ⟨queue, x⟩ row = true
  due' : dueIn queue now ⟨queue, y⟩ row' = true
  priority : row.priority = row'.priority
  earlier : ∃ t t', row.processAt = some t ∧ row'.processAt = some t' ∧ t < t'

/-- The jobs that a pass promotes are claimed by it and the calls that follow in the order of their
due times. -/
def TakenByDue (queue : String) (args : ClaimArgs) (db : Db) : Prop :=
  ∀ x y row row', DueBefore queue args.now db x y row row' → ∀ following,
    y ∈ claims queue (args :: following) db → Before (claims queue (args :: following) db) x y

/-- The jobs that a pass promotes were given their sequence numbers in the order of their due
times. -/
def SeqByDue (queue : String) (now : ℤ) (db : Db) : Prop :=
  ∀ x y row row', DueBefore queue now db x y row row' → row.seq < row'.seq

/-- Nothing keeps a worker from claiming jobs of a queue. -/
structure Claimable (queue : String) (db : Db) : Prop where
  resumed : (db.queueMeta queue).paused = false
  unbounded : (db.queueMeta queue).concurrency = none
  unlimited : (db.queueMeta queue).max = none

/-- No two jobs of a queue that a pass promotes have the same sequence number. -/
def SeqsDistinct (queue : String) (now : ℤ) (db : Db) : Prop :=
  ∀ x y row row', DueBefore queue now db x y row row' → row.seq ≠ row'.seq

/-- A waiting job has a place in the line of its queue. -/
def Db.WaitsAt (db : Db) (k : JobKey) (place : ℤ ×ₗ ℤ) : Prop :=
  ∃ row, db.job.find k = some row ∧ row.state = .waiting ∧ toLex (row.priority, row.seq) = place

/-! ### One call -/

section Step

variable {queue : String} {db : Db} {k : JobKey} {place : ℤ ×ₗ ℤ}

theorem foldl_publishEvent_job (queue : String) (f : String → Event) (ids : List String) (db : Db) :
    (ids.foldl (fun db id => publishEvent queue (f id) db) db).job = db.job := by
  induction ids generalizing db with
  | nil => rfl
  | cons id ids ih => rw [List.foldl_cons, ih, publishEvent_job]

theorem promoteDue_job (queue : String) (now : ℤ) (db : Db) :
    (promoteDue queue now db).job =
      db.job.update (dueIn queue now) fun row => { row with state := .waiting, delay := 0 } :=
  foldl_publishEvent_job ..

theorem waitsAt_promoteDue (h : db.WaitsAt k place) (queue : String) (now : ℤ) :
    (promoteDue queue now db).WaitsAt k place := by
  obtain ⟨row, hrow, hstate, hplace⟩ := h
  have hdue : dueIn queue now k row = false := by
    simp [dueIn, hstate]
  exact ⟨row, by simp [promoteDue_job, Table.find_update, hrow, hdue], hstate, hplace⟩

/-- A job that is due waits at its place once it is promoted. -/
theorem waitsAt_of_due {row : JobRow} {now : ℤ} (hrow : db.job.find k = some row)
    (hdue : dueIn queue now k row = true) :
    (promoteDue queue now db).WaitsAt k (toLex (row.priority, row.seq)) := by
  refine ⟨{ row with state := .waiting, delay := 0 }, ?_, rfl, rfl⟩
  rw [promoteDue_job, Table.find_update, hrow, Option.map_some, if_pos hdue]

/-- The next job is first in the line. -/
theorem nextWaiting_first {k' : JobKey} {row : JobRow}
    (hnext : db.nextWaiting queue = some (k', row)) :
    (db.job.find k' = some row ∧ k'.queue = queue ∧ row.state = .waiting) ∧
      ∀ k place, k.queue = queue → db.WaitsAt k place →
        toLex (row.priority, row.seq) ≤ place := by
  have hmem : ∀ (k : JobKey) (row : JobRow), (k, row) ∈ db.inState queue .waiting ↔
      db.job.find k = some row ∧ k.queue = queue ∧ row.state = .waiting := by
    intro k row
    rw [Db.inState, Table.mem_select, Bool.and_eq_true, decide_eq_true_eq, decide_eq_true_eq]
  refine ⟨(hmem _ _).mp (List.argmin_mem hnext), ?_⟩
  rintro k place hqueue ⟨row', hrow', hstate, rfl⟩
  exact List.le_of_mem_argmin (f := fun r : JobKey × JobRow => toLex (r.2.priority, r.2.seq))
    ((hmem _ _).mpr ⟨hrow', hqueue, hstate⟩) hnext

theorem nextWaiting_isSome (hqueue : k.queue = queue) (h : db.WaitsAt k place) :
    ∃ r, db.nextWaiting queue = some r := by
  obtain ⟨row, hrow, hstate, -⟩ := h
  have hmem : (k, row) ∈ db.inState queue .waiting := by
    rw [Db.inState, Table.mem_select]
    simp [hrow, hqueue, hstate]
  refine Option.ne_none_iff_exists'.mp fun hnone => ?_
  rw [Db.nextWaiting, firstBy, List.argmin_eq_none] at hnone
  rw [hnone] at hmem
  cases hmem

/-- A call claims nothing, or the next job. -/
theorem moveToActive_cases (queue : String) (args : ClaimArgs) (db : Db) :
    moveToActive queue args db = (none, promoteDue queue args.now db) ∨
    ∃ k row, (promoteDue queue args.now db).nextWaiting queue = some (k, row) ∧
      (moveToActive queue args db).1 = some k.id ∧
      (moveToActive queue args db).2.job = (promoteDue queue args.now db).job.updateKey k fun row =>
        row.claim args.token args.lockMs args.now args.name := by
  unfold moveToActive
  dsimp only
  split
  · exact .inl rfl
  split
  · exact .inl rfl
  split
  · exact .inl rfl
  cases hnext : (promoteDue queue args.now db).nextWaiting queue with
  | none => exact .inl rfl
  | some r =>
    refine .inr ⟨r.1, r.2, rfl, rfl, ?_⟩
    rw [publishEvent_job, Db.updateJob]
    simp only [consumeToken_job]

/-- A job that waits keeps its place until it is claimed. -/
theorem waitsAt_moveToActive {args : ClaimArgs}
    (h : (promoteDue queue args.now db).WaitsAt k place)
    (hother : (moveToActive queue args db).1 ≠ some k.id) :
    (moveToActive queue args db).2.WaitsAt k place := by
  obtain hnone | ⟨k', row', hnext, hid, hjob⟩ := moveToActive_cases queue args db
  · rw [hnone]
    exact h
  · obtain ⟨row, hrow, hstate, hplace⟩ := h
    have hne : k ≠ k' := by
      rintro rfl
      exact hother hid
    exact ⟨row, by rw [hjob, Table.find_updateKey, if_neg hne, hrow], hstate, hplace⟩

/-- A job is not claimed before one that is ahead of it in the line. -/
theorem not_claimed_of_ahead {args : ClaimArgs} {x y : String} {place' : ℤ ×ₗ ℤ}
    (hx : (promoteDue queue args.now db).WaitsAt ⟨queue, x⟩ place)
    (hy : (promoteDue queue args.now db).WaitsAt ⟨queue, y⟩ place') (hlt : place < place') :
    (moveToActive queue args db).1 ≠ some y := by
  obtain hnone | ⟨k', row', hnext, hid, -⟩ := moveToActive_cases queue args db
  · rw [hnone]
    exact fun h => by cases h
  · obtain ⟨⟨hfind, hqueue, -⟩, hfirst⟩ := nextWaiting_first hnext
    intro hclaimed
    have hkey : k' = ⟨queue, y⟩ := by
      obtain ⟨q, i⟩ := k'
      obtain rfl : q = queue := hqueue
      obtain rfl : i = y := Option.some.inj (hid.symm.trans hclaimed)
      rfl
    subst hkey
    obtain ⟨row, hrow, -, hplace⟩ := hy
    obtain rfl := Option.some.inj (hfind.symm.trans hrow)
    rw [← hplace] at hlt
    exact absurd (hfirst _ _ rfl hx) (not_le.mpr hlt)

end Step

/-! ### Successive calls -/

section Claims

variable {queue x y : String} {db : Db} {place place' : ℤ ×ₗ ℤ}

/-- Of two jobs in the line, the first one is claimed first. -/
theorem before_of_ahead (args : ClaimArgs) (following : List ClaimArgs)
    (hx : (promoteDue queue args.now db).WaitsAt ⟨queue, x⟩ place)
    (hy : (promoteDue queue args.now db).WaitsAt ⟨queue, y⟩ place') (hlt : place < place')
    (hmem : y ∈ claims queue (args :: following) db) :
    Before (claims queue (args :: following) db) x y := by
  induction following generalizing args db with
  | nil =>
    have hnot := not_claimed_of_ahead hx hy hlt
    simp only [claims, List.append_nil, Option.mem_toList] at hmem
    exact absurd hmem hnot
  | cons args' following ih =>
    have hnot := not_claimed_of_ahead hx hy hlt
    rw [claims] at hmem ⊢
    have htail : y ∈ claims queue (args' :: following) (moveToActive queue args db).2 := by
      obtain hhead | htail := List.mem_append.mp hmem
      · exact absurd (Option.mem_toList.mp hhead) hnot
      · exact htail
    by_cases hclaimed : (moveToActive queue args db).1 = some x
    · rw [hclaimed]
      exact List.Sublist.cons_cons x (List.singleton_sublist.mpr htail)
    · have hx' := waitsAt_promoteDue (waitsAt_moveToActive hx hclaimed) queue args'.now
      have hy' := waitsAt_promoteDue (waitsAt_moveToActive hy hnot) queue args'.now
      exact (ih args' hx' hy' htail).trans (List.sublist_append_right _ _)

/-- The jobs of a queue that wait or are due. -/
def Db.lineLength (db : Db) (queue : String) (now : ℤ) : ℕ :=
  (db.job.rows.filter fun r => decide (r.1.queue = queue) &&
    (decide (r.2.state = .waiting) || dueIn queue now r.1 r.2)).length

theorem filter_comp_eq {α : Type} (l : List α) {g : α → α} {P : α → Bool}
    (himp : ∀ a, P (g a) = true → P a = true) :
    l.filter (P ∘ g) = (l.filter P).filter (P ∘ g) := by
  rw [List.filter_filter]
  refine List.filter_congr fun a _ => ?_
  cases hg : (P ∘ g) a with
  | false => rfl
  | true =>
    rw [himp a hg]
    rfl

theorem length_filter_map_le {α : Type} (l : List α) (g : α → α) (P : α → Bool)
    (himp : ∀ a, P (g a) = true → P a = true) :
    ((l.map g).filter P).length ≤ (l.filter P).length := by
  rw [List.filter_map, List.length_map, filter_comp_eq l himp]
  exact List.length_filter_le _ _

theorem length_filter_map_lt {α : Type} {l : List α} {g : α → α} {P : α → Bool}
    (himp : ∀ a, P (g a) = true → P a = true) {b : α} (hmem : b ∈ l) (hb : P b = true)
    (hgb : P (g b) = false) : ((l.map g).filter P).length < (l.filter P).length := by
  rw [List.filter_map, List.length_map, filter_comp_eq l himp]
  refine List.length_filter_lt_length_iff_exists.mpr ⟨b, List.mem_filter.mpr ⟨hmem, hb⟩, ?_⟩
  rw [Function.comp_apply, hgb]
  decide

theorem lineLength_promoteDue (queue : String) (now : ℤ) (db : Db) :
    (promoteDue queue now db).lineLength queue now ≤ db.lineLength queue now := by
  unfold Db.lineLength
  rw [promoteDue_job]
  refine length_filter_map_le _ _ _ fun r hr => ?_
  by_cases hdue : dueIn queue now r.1 r.2 = true
  · have hqueue : r.1.queue = queue := by
      simp only [dueIn, Bool.and_eq_true, decide_eq_true_eq] at hdue
      exact hdue.1.1
    simp [hdue, hqueue]
  · simpa [hdue] using hr

/-- A claim makes the line shorter. -/
theorem lineLength_moveToActive {args : ClaimArgs}
    (hclaim : (moveToActive queue args db).1 ≠ none) :
    (moveToActive queue args db).2.lineLength queue args.now < db.lineLength queue args.now := by
  refine lt_of_lt_of_le ?_ (lineLength_promoteDue queue args.now db)
  obtain hnone | ⟨k, row, hnext, -, hjob⟩ := moveToActive_cases queue args db
  · rw [hnone] at hclaim
    exact absurd rfl hclaim
  · obtain ⟨⟨hfind, hqueue, hstate⟩, -⟩ := nextWaiting_first hnext
    unfold Db.lineLength
    rw [hjob]
    refine length_filter_map_lt (b := (k, row)) (fun r hr => ?_) (Table.find_eq_some.mp hfind) ?_ ?_
    · by_cases hkey : r.1 = k
      · simp [hkey, JobRow.claim, dueIn] at hr
      · simpa [hkey] using hr
    · simp [hqueue, hstate]
    · simp [JobRow.claim, dueIn]

theorem foldl_publishEvent_queueMeta (queue : String) (f : String → Event) (ids : List String)
    (db : Db) : (ids.foldl (fun db id => publishEvent queue (f id) db) db).queueMeta =
      db.queueMeta := by
  induction ids generalizing db with
  | nil => rfl
  | cons id ids ih => rw [List.foldl_cons, ih, publishEvent_queueMeta]

theorem moveToActive_queueMeta (queue : String) (args : ClaimArgs) (db : Db) :
    (moveToActive queue args db).2.queueMeta = db.queueMeta := by
  have hpromote : (promoteDue queue args.now db).queueMeta = db.queueMeta :=
    foldl_publishEvent_queueMeta ..
  have hconsume : ∀ db : Db, (consumeToken queue args db).queueMeta = db.queueMeta := by
    intro db
    unfold consumeToken
    split
    · rfl
    · split
      · rfl
      · rfl
  unfold moveToActive
  dsimp only
  split
  · exact hpromote
  split
  · exact hpromote
  split
  · exact hpromote
  split
  · exact hpromote
  · rw [publishEvent_queueMeta]
    exact (hconsume _).trans hpromote

/-- A call on a claimable queue claims a job if one waits. -/
theorem moveToActive_isSome (hopen : Claimable queue db) {args : ClaimArgs}
    (hargs : args.limiterMax = none) {k : JobKey} (hqueue : k.queue = queue)
    (h : (promoteDue queue args.now db).WaitsAt k place) :
    (moveToActive queue args db).1 ≠ none := by
  have hpromote : (promoteDue queue args.now db).queueMeta = db.queueMeta :=
    foldl_publishEvent_queueMeta ..
  obtain ⟨r, hr⟩ := nextWaiting_isSome hqueue h
  simp [moveToActive, Db.maxed, rateLimitEffective, hpromote, hopen.resumed, hopen.unbounded,
    hopen.unlimited, hargs, hr]

/-- Calls on a claimable queue reach a job, and no job behind it before. -/
theorem exists_claims (hopen : Claimable queue db) {args : ClaimArgs}
    (hargs : args.limiterMax = none)
    (hx : (promoteDue queue args.now db).WaitsAt ⟨queue, x⟩ place)
    (hy : (promoteDue queue args.now db).WaitsAt ⟨queue, y⟩ place') (hlt : place < place') :
    ∃ n, x ∈ claims queue (List.replicate n args) db ∧
      y ∉ claims queue (List.replicate n args) db := by
  induction hlen : db.lineLength queue args.now using Nat.strong_induction_on generalizing db with
  | _ n ih =>
    have hsome := moveToActive_isSome hopen hargs rfl hx
    have hnot := not_claimed_of_ahead hx hy hlt
    by_cases hclaimed : (moveToActive queue args db).1 = some x
    · refine ⟨1, ?_, ?_⟩
      · simp [claims, hclaimed]
      · rw [hclaimed] at hnot
        have hne : y ≠ x := fun heq => hnot (by rw [heq])
        simp [claims, hclaimed, hne]
    · have hopen' : Claimable queue (moveToActive queue args db).2 := by
        obtain ⟨h1, h2, h3⟩ := hopen
        exact ⟨by rwa [moveToActive_queueMeta], by rwa [moveToActive_queueMeta],
          by rwa [moveToActive_queueMeta]⟩
      have hshorter := lineLength_moveToActive hsome
      rw [hlen] at hshorter
      obtain ⟨m, hmem, hnotMem⟩ := ih _ hshorter hopen'
        (waitsAt_promoteDue (waitsAt_moveToActive hx hclaimed) queue args.now)
        (waitsAt_promoteDue (waitsAt_moveToActive hy hnot) queue args.now) rfl
      refine ⟨m + 1, ?_, ?_⟩
      · rw [List.replicate_succ, claims]
        exact List.mem_append_right _ hmem
      · rw [List.replicate_succ, claims, List.mem_append, not_or]
        exact ⟨fun h => hnot (Option.mem_toList.mp h), hnotMem⟩

/-- The same after a first call with any limiter. -/
theorem exists_following (hopen : Claimable queue db) (args : ClaimArgs)
    (hx : (promoteDue queue args.now db).WaitsAt ⟨queue, x⟩ place)
    (hy : (promoteDue queue args.now db).WaitsAt ⟨queue, y⟩ place') (hlt : place < place') :
    ∃ following, x ∈ claims queue (args :: following) db ∧
      y ∉ claims queue (args :: following) db := by
  have hnot := not_claimed_of_ahead hx hy hlt
  by_cases hclaimed : (moveToActive queue args db).1 = some x
  · rw [hclaimed] at hnot
    have hne : y ≠ x := fun heq => hnot (by rw [heq])
    exact ⟨[], by simp [claims, hclaimed], by simp [claims, hclaimed, hne]⟩
  · obtain ⟨h1, h2, h3⟩ := hopen
    have hopen' : Claimable queue (moveToActive queue args db).2 :=
      ⟨by rwa [moveToActive_queueMeta], by rwa [moveToActive_queueMeta],
        by rwa [moveToActive_queueMeta]⟩
    set free : ClaimArgs := { args with limiterMax := none }
    have hfree : free.limiterMax = none := rfl
    obtain ⟨n, hmem, hnotMem⟩ := exists_claims hopen' hfree
      (waitsAt_promoteDue (waitsAt_moveToActive hx hclaimed) queue free.now)
      (waitsAt_promoteDue (waitsAt_moveToActive hy hnot) queue free.now) hlt
    refine ⟨List.replicate n free, ?_, ?_⟩
    · rw [claims]
      exact List.mem_append_right _ hmem
    · rw [claims, List.mem_append, not_or]
      exact ⟨fun h => hnot (Option.mem_toList.mp h), hnotMem⟩

/-- Jobs that are promoted together are claimed in the order of their due times if their sequence
numbers are in that order, and on a queue that can be claimed from only then. -/
theorem due_order_iff (queue : String) (args : ClaimArgs) (db : Db) :
    (SeqByDue queue args.now db → TakenByDue queue args db) ∧
      (Claimable queue db → SeqsDistinct queue args.now db → TakenByDue queue args db →
        SeqByDue queue args.now db) := by
  have hwaits : ∀ {x y : String} {row row' : JobRow}, DueBefore queue args.now db x y row row' →
      (promoteDue queue args.now db).WaitsAt ⟨queue, x⟩ (toLex (row.priority, row.seq)) ∧
        (promoteDue queue args.now db).WaitsAt ⟨queue, y⟩ (toLex (row.priority, row'.seq)) := by
    intro x y row row' h
    refine ⟨waitsAt_of_due h.find h.due, ?_⟩
    rw [h.priority]
    exact waitsAt_of_due h.find' h.due'
  constructor
  · intro hseq x y row row' h following hmem
    obtain ⟨hx, hy⟩ := hwaits h
    exact before_of_ahead args following hx hy
      (Prod.Lex.toLex_lt_toLex.mpr (.inr ⟨rfl, hseq x y row row' h⟩)) hmem
  · intro hopen hdistinct htaken x y row row' h
    by_contra hnot
    obtain ⟨hx, hy⟩ := hwaits h
    have hlt : row'.seq < row.seq := by
      have hne := hdistinct x y row row' h
      omega
    obtain ⟨following, hmem, hnotMem⟩ := exists_following hopen args hy hx
      (Prod.Lex.toLex_lt_toLex.mpr (.inr ⟨rfl, hlt⟩))
    exact hnotMem ((htaken x y row row' h following hmem).subset (by simp))

end Claims

/-! ### Two jobs -/

/-- A delayed job to be added at time 0. -/
def delayedEntry (id : String) (delay : ℤ) : Entry where
  queue := "q"
  id := id
  name := "job"
  data := "null"
  opts := { delay := delay }
  delay := delay
  timestamp := 0

/-- Two delayed jobs are added, and both are due at time 1000. -/
def twoDelayed (first second : ℤ) : Db :=
  [delayedEntry "a" first, delayedEntry "b" second].foldl
    (fun db e => match addJob e db with | .ok r => r.2 | .error _ => db) .empty

/-- A claim at time 1000. -/
def claimArgs : ClaimArgs where
  token := "t"
  lockMs := 30000
  now := 1000

theorem seqByDue_twoDelayed : SeqByDue "q" 1000 (twoDelayed 500 900) := by
  intro x y row row' h
  obtain ⟨t, t', ht, ht', hlt⟩ := h.earlier
  have hall : ∀ r ∈ (twoDelayed 500 900).job.rows, ∀ r' ∈ (twoDelayed 500 900).job.rows,
      ∀ t ∈ r.2.processAt, ∀ t' ∈ r'.2.processAt, t < t' → r.2.seq < r'.2.seq := by decide
  exact hall _ (Table.find_eq_some.mp h.find) _ (Table.find_eq_some.mp h.find') t ht t' ht' hlt

theorem taken_by_due_two :
    SeqByDue "q" claimArgs.now (twoDelayed 500 900) ∧
      TakenByDue "q" claimArgs (twoDelayed 500 900) :=
  ⟨seqByDue_twoDelayed, (due_order_iff "q" claimArgs (twoDelayed 500 900)).1 seqByDue_twoDelayed⟩

/-- Of two jobs that are promoted together, the one that was added first is claimed first although
it is due later. -/
theorem later_job_claimed_first :
    claims "q" [claimArgs, claimArgs] (twoDelayed 900 500) = ["a", "b"] ∧
      ¬ TakenByDue "q" claimArgs (twoDelayed 900 500) := by
  refine ⟨by decide, fun h => ?_⟩
  have hbefore := h "b" "a" _ _
    ⟨rfl, rfl, by decide, by decide, rfl, 500, 900, rfl, rfl, by decide⟩ [claimArgs] (by decide)
  revert hbefore
  unfold Before
  decide

end BullMQ.Postgres
