import BullMQ.Postgres.Add

/-!
# The fast path of bulk adds

For a batch of independent entries of one queue, `addJobsBulk` and the loop of `addFlow` return the
same ids, insert the same rows and append the same events (`addJobsBulk_eq_addFlow`). Sequence
values are drawn in the order of the entries in both, and the positions by which `addJobsBulk` sorts
its events put them into the order of the loop.
-/

namespace BullMQ.Postgres

open Sql

/-- An entry that `addJobs` hands to the fast path. -/
structure Entry.Independent (e : Entry) (queue : String) : Prop where
  queue_eq : e.queue = queue
  parent_none : e.parent = none
  dedupId_none : e.dedupId = none
  notWaiting : e.addToWaitingChildren = false

/-- The rows of a batch, numbered from a place on, before the positions are sorted. -/
def numberedRows (place : ℕ) : List Entry → List String → List ℤ → List BulkRow
  | e :: entries, id :: ids, seq :: seqs =>
    ⟨place, id, e, e.signed seq⟩ :: numberedRows (place + 1) entries ids seqs
  | _, _, _ => []

/-- The events of inserted rows, in order. -/
def rowEvents (queue : String) (rows : List BulkRow) : List (String × Event) :=
  rows.flatMap fun r => [(queue, .added r.id (some r.entry.name)),
    (queue, stateEvent r.id r.entry.state r.entry.processAt)]

/-! ### Draws -/

section Draws

variable {queue : String}

theorem drawIds_with (queue : String) (entries : List Entry) (db : Db) (t : Table JobKey JobRow)
    (n : ℕ) :
    drawIds queue entries { db with job := t, jobSeq := n } =
      ((drawIds queue entries db).1,
        { (drawIds queue entries db).2 with job := t, jobSeq := n }) := by
  induction entries generalizing db with
  | nil => rfl
  | cons e entries ih =>
    by_cases hid : e.id = ""
    · have hrest := ih { db with
        jobIdSeq := Function.update db.jobIdSeq queue (db.jobIdSeq queue + 1) }
      dsimp only at hrest
      simp only [drawIds, hid, if_true, Db.nextJobId]
      rw [hrest]
    · simp only [drawIds, hid, if_false]
      rw [ih]

theorem drawIds_frame (queue : String) (entries : List Entry) (db : Db) :
    (drawIds queue entries db).2.job = db.job ∧
      (drawIds queue entries db).2.jobSeq = db.jobSeq := by
  have h := drawIds_with queue entries db db.job db.jobSeq
  constructor
  · rw [show db = { db with job := db.job, jobSeq := db.jobSeq } from rfl, h]
  · rw [show db = { db with job := db.job, jobSeq := db.jobSeq } from rfl, h]

theorem length_drawIds (entries : List Entry) (db : Db) :
    (drawIds queue entries db).1.length = entries.length := by
  induction entries generalizing db with
  | nil => rfl
  | cons e entries ih => simp only [drawIds, List.length_cons, ih]

theorem reserveSeqs_eq (n : ℕ) (db : Db) :
    reserveSeqs n db =
      ((List.range n).map fun i : ℕ => ((db.jobSeq + (i + 1) : ℕ) : ℤ),
        { db with jobSeq := db.jobSeq + n }) := by
  induction n generalizing db with
  | zero => rfl
  | succ n ih =>
    simp only [reserveSeqs, Db.nextJobSeq, ih, List.range_succ_eq_map, List.map_cons, List.map_map]
    refine Prod.ext (congrArg₂ _ (by simp) (List.map_congr_left fun i _ => ?_)) ?_
    · simp only [Function.comp_apply, Nat.succ_eq_add_one]
      congr 1
      omega
    · simp only [Db.mk.injEq, true_and, and_true]
      omega

theorem sorted_reserveSeqs (n : ℕ) (db : Db) :
    (reserveSeqs n db).1.mergeSort (fun a b => decide (a ≤ b)) = (reserveSeqs n db).1 := by
  refine List.mergeSort_of_pairwise ?_
  rw [reserveSeqs_eq, List.pairwise_map]
  refine List.pairwise_lt_range.imp fun {i j} hij => ?_
  simp only [decide_eq_true_eq]
  omega

theorem bulkRows_eq (place : ℕ) (entries : List Entry) (ids : List String) (seqs : List ℤ) :
    (((entries.zip ids).zip seqs).zipIdx place).map (fun r =>
      ({ ord := r.2, id := r.1.1.2, entry := r.1.1.1, seq := r.1.1.1.signed r.1.2 } : BulkRow)) =
      numberedRows place entries ids seqs := by
  induction entries generalizing place ids seqs with
  | nil => simp [numberedRows]
  | cons e entries ih =>
    cases ids with
    | nil => simp [numberedRows]
    | cons id ids =>
      cases seqs with
      | nil => simp [numberedRows]
      | cons seq seqs =>
        simp only [List.zip_cons_cons, List.zipIdx_cons, List.map_cons, numberedRows, ih]

theorem map_id_numberedRows (place : ℕ) {entries : List Entry} {ids : List String} {seqs : List ℤ}
    (hids : ids.length = entries.length) (hseqs : seqs.length = entries.length) :
    (numberedRows place entries ids seqs).map BulkRow.id = ids := by
  induction entries generalizing place ids seqs with
  | nil => simpa [numberedRows] using hids
  | cons e entries ih =>
    match ids, seqs, hids, hseqs with
    | id :: ids, seq :: seqs, hids, hseqs =>
      rw [numberedRows, List.map_cons, ih (place + 1) (by simpa using hids) (by simpa using hseqs)]

end Draws

/-! ### The loop -/

section Loop

variable {queue : String} {e : Entry}

/-- The row of an independent entry. -/
def BulkRow.row (r : BulkRow) : JobRow :=
  { r.entry.row r.seq r.entry.state r.entry.processAt with dedupId := none, parent := none }

/-- One round of the loop for an independent entry: draw an id and a position, and insert the job
unless the id exists. -/
theorem addFlowEntry_of_independent (h : e.Independent queue) (acc : FlowAcc) (place : ℕ) :
    let r : BulkRow := ⟨place, (e.drawId acc.db).1, e, e.signed ((e.drawId acc.db).2.jobSeq + 1)⟩
    let k : JobKey := ⟨queue, r.id⟩
    addFlowEntry acc e =
      { results := acc.results ++ [r.id]
        events := acc.events ++ rowEvents queue (if acc.db.job.find k = none then [r] else [])
        db := { (e.drawId acc.db).2 with
          job := acc.db.job.insert k r.row
          jobSeq := (e.drawId acc.db).2.jobSeq + 1 } } := by
  intro r k
  have hjob : (e.drawId acc.db).2.job = acc.db.job := by
    unfold Entry.drawId
    split <;> rfl
  have hrow : e.row r.seq e.flowState e.flowProcessAt = r.row := by
    simp [BulkRow.row, Entry.row, Entry.flowState, Entry.flowProcessAt, h.notWaiting, h.parent_none,
      h.dedupId_none, r]
  have hflow : e.flowState = e.state ∧ e.flowProcessAt = e.processAt := by
    simp [Entry.flowState, Entry.flowProcessAt, h.notWaiting]
  have hk : (⟨e.queue, (e.drawId acc.db).1⟩ : JobKey) = k := by rw [h.queue_eq]
  simp only [addFlowEntry, Entry.deduplicate, h.dedupId_none, Entry.parentMissing, h.parent_none,
    Option.any_none, Bool.false_eq_true, if_false, Db.nextJobSeq, Db.jobExists, hjob, hk,
    Option.isSome_none, registerChild]
  by_cases hnone : acc.db.job.find k = none
  · rw [if_neg (by simp [hnone]), if_pos hnone, ← hrow, hflow.1, hflow.2, h.queue_eq]
    simp [rowEvents, r]
  · rw [if_pos (by simpa [Option.isSome_iff_ne_none] using hnone), if_neg hnone]
    have hskip : acc.db.job.insert k r.row = acc.db.job := dif_neg hnone
    rw [hskip, ← hjob]
    simp [rowEvents, r]

/-- The loop draws what the fast path draws, inserts the same rows, and collects their events. -/
theorem foldl_addFlowEntry (entries : List Entry) (hind : ∀ e ∈ entries, e.Independent queue)
    (acc : FlowAcc) (place : ℕ) :
    let drawn := drawIds queue entries acc.db
    let reserved := reserveSeqs entries.length drawn.2
    let batch := insertBatch queue (numberedRows place entries drawn.1 reserved.1) acc.db.job
    entries.foldl addFlowEntry acc =
      ⟨acc.results ++ drawn.1, acc.events ++ rowEvents queue batch.1,
        { reserved.2 with job := batch.2 }⟩ := by
  induction entries generalizing acc place with
  | nil =>
    simp [drawIds, reserveSeqs, numberedRows, insertBatch, rowEvents]
  | cons e entries ih =>
    have he := hind e (by simp)
    have hstep := addFlowEntry_of_independent he acc place
    set db₁ := (e.drawId acc.db).2 with hdb₁
    set id := (e.drawId acc.db).1 with hid
    have hdraw : drawIds queue (e :: entries) acc.db =
        (id :: (drawIds queue entries db₁).1, (drawIds queue entries db₁).2) := by
      rw [hid, hdb₁, Entry.drawId, he.queue_eq]
      rfl
    obtain ⟨hjob₁, hseq₁⟩ := drawIds_frame queue entries db₁
    have hjob : db₁.job = acc.db.job := by
      rw [hdb₁]
      unfold Entry.drawId
      split <;> rfl
    dsimp only at hstep ⊢
    rw [List.foldl_cons, hstep, ih (fun e' he' => hind e' (by simp [he'])) _ (place + 1)]
    simp only [drawIds_with, hdraw, List.length_cons, reserveSeqs, Db.nextJobSeq, hseq₁,
      numberedRows,
      insertBatch]
    simp only [reserveSeqs_eq]
    refine congr (congr (congrArg FlowAcc.mk ?_) ?_) ?_
    · simp
    · split <;> simp_all [rowEvents, BulkRow.row]
    · simp_all [BulkRow.row]

end Loop

/-! ### The order of the events -/

section Events

variable {queue : String}

/-- Sorting by positions that are all different. -/
theorem mergeSort_eq_of_perm {β : Type} {l l' : List (ℕ × β)} (hperm : l.Perm l')
    (hsorted : l'.Pairwise fun a b => a.1 < b.1) :
    l.mergeSort (fun a b => decide (a.1 ≤ b.1)) = l' := by
  have hnodup : (l'.map Prod.fst).Nodup := by
    rw [List.Nodup, List.pairwise_map]
    exact hsorted.imp fun hlt => hlt.ne
  have hsort : (l.mergeSort fun a b => decide (a.1 ≤ b.1)).Perm l' :=
    (List.mergeSort_perm _ _).trans hperm
  refine @List.Perm.eq_of_pairwise _ (fun a b => decide (a.1 ≤ b.1) = true) _ _ ?_ ?_ ?_ hsort
  · intro a b ha hb hab hba
    have hkey : a.1 = b.1 := by
      simp only [decide_eq_true_eq] at hab hba
      omega
    exact List.inj_on_of_nodup_map hnodup (hsort.subset ha) hb hkey
  · refine List.pairwise_mergeSort (fun a b c => ?_) (fun a b => ?_) l
    · simp only [decide_eq_true_eq]
      omega
    · simp only [Bool.or_eq_true, decide_eq_true_eq]
      omega
  · exact hsorted.imp fun hlt => by simpa using hlt.le

theorem numberedRows_sorted (place : ℕ) (entries : List Entry) (ids : List String)
    (seqs : List ℤ) :
    (numberedRows place entries ids seqs).Pairwise (fun r r' => r.ord < r'.ord) ∧
      ∀ r ∈ numberedRows place entries ids seqs, place ≤ r.ord := by
  induction entries generalizing place ids seqs with
  | nil => simp [numberedRows]
  | cons e entries ih =>
    cases ids with
    | nil => simp [numberedRows]
    | cons id ids =>
      cases seqs with
      | nil => simp [numberedRows]
      | cons seq seqs =>
        obtain ⟨hsorted, hplace⟩ := ih (place + 1) ids seqs
        simp only [numberedRows, List.pairwise_cons, List.mem_cons]
        refine ⟨⟨fun r hr => hplace r hr, hsorted⟩, ?_⟩
        rintro r (rfl | hr)
        · exact le_rfl
        · exact Nat.le_of_succ_le (hplace r hr)

theorem insertBatch_sublist (rows : List BulkRow) (t : Table JobKey JobRow) :
    (insertBatch queue rows t).1.Sublist rows := by
  induction rows generalizing t with
  | nil => exact .slnil
  | cons r rows ih =>
    simp only [insertBatch]
    split
    · exact (ih _).cons_cons r
    · exact (ih _).cons r

/-- A row is inserted where its id did not exist. -/
theorem find_of_mem_insertBatch {rows : List BulkRow} {t : Table JobKey JobRow} {r : BulkRow}
    (h : r ∈ (insertBatch queue rows t).1) : t.find ⟨queue, r.id⟩ = none := by
  induction rows generalizing t with
  | nil => simp [insertBatch] at h
  | cons r₀ rows ih =>
    have hrest : ∀ a, r ∈ (insertBatch queue rows (t.insert ⟨queue, r₀.id⟩ a)).1 →
        t.find ⟨queue, r.id⟩ = none := by
      intro a hr
      have hnone := ih hr
      rw [Table.find_insert] at hnone
      split at hnone
      · simp at hnone
      · exact hnone
    simp only [insertBatch] at h
    split at h
    · next hnone =>
      obtain rfl | hr := List.mem_cons.mp h
      · exact hnone
      · exact hrest _ hr
    · exact hrest _ h

/-- Of the rows with one id the first is inserted, if any. -/
theorem ord_le_of_mem_insertBatch {rows : List BulkRow} (hsorted : rows.Pairwise
    fun r r' => r.ord < r'.ord) {t : Table JobKey JobRow} {r r' : BulkRow}
    (h : r ∈ (insertBatch queue rows t).1) (hr' : r' ∈ rows) (hid : r'.id = r.id) :
    r.ord ≤ r'.ord := by
  induction rows generalizing t with
  | nil => simp at hr'
  | cons r₀ rows ih =>
    rw [List.pairwise_cons] at hsorted
    have hrest : ∀ a, r ∈ (insertBatch queue rows (t.insert ⟨queue, r₀.id⟩ a)).1 →
        r.ord ≤ r'.ord := by
      intro a hr
      obtain rfl | hr' := List.mem_cons.mp hr'
      · have hnone := find_of_mem_insertBatch hr
        rw [Table.find_insert, hid, if_pos rfl] at hnone
        simp at hnone
      · exact ih hsorted.2 hr hr'
    simp only [insertBatch] at h
    split at h
    · obtain rfl | hr := List.mem_cons.mp h
      · obtain rfl | hr' := List.mem_cons.mp hr'
        · exact le_rfl
        · exact (hsorted.1 r' hr').le
      · exact hrest _ hr
    · exact hrest _ h

/-- The events of a batch, sorted by their positions, are those of the inserted rows in order. -/
theorem sorted_bulkEvents {rows : List BulkRow} (hsorted : rows.Pairwise
    fun r r' => r.ord < r'.ord) (t : Table JobKey JobRow) :
    ((bulkEvents queue rows (insertBatch queue rows t).1).mergeSort
      fun a b => decide (a.1 ≤ b.1)).map Prod.snd =
        rowEvents queue (insertBatch queue rows t).1 := by
  set inserted := (insertBatch queue rows t).1 with hins
  have hord : ∀ r ∈ inserted,
      ((rows.filter fun r' => decide (r'.id = r.id)).map BulkRow.ord).min?.getD 0 = r.ord := by
    intro r hr
    have hmin : ((rows.filter fun r' => decide (r'.id = r.id)).map BulkRow.ord).min? =
        some r.ord := by
      rw [List.min?_eq_some_iff]
      refine ⟨List.mem_map_of_mem (List.mem_filter.mpr
        ⟨(insertBatch_sublist rows t).subset hr, by simp⟩), fun n hn => ?_⟩
      obtain ⟨r', hr', rfl⟩ := List.mem_map.mp hn
      obtain ⟨hmem, hid⟩ := List.mem_filter.mp hr'
      exact ord_le_of_mem_insertBatch hsorted hr hmem (by simpa using hid)
    rw [hmin]
    rfl
  let f (r : BulkRow) : ℕ × String × Event :=
    (r.ord * 2, queue, .added r.id (some r.entry.name))
  let g (r : BulkRow) : ℕ × String × Event :=
    (r.ord * 2 + 1, queue, stateEvent r.id r.entry.state r.entry.processAt)
  have hevents : bulkEvents queue rows inserted = inserted.map f ++ inserted.map g := by
    simp only [bulkEvents]
    congr 1
    · exact List.map_congr_left fun r hr => by simp only [hord r hr, f]
    · exact List.map_congr_left fun r hr => by simp only [hord r hr, g]
  have hperm : (inserted.map f ++ inserted.map g).Perm (inserted.flatMap fun r => [f r, g r]) := by
    have h := List.map_append_flatMap_perm inserted f fun r => [g r]
    rwa [← List.map_eq_flatMap] at h
  have hsub : inserted.Pairwise fun r r' => r.ord < r'.ord :=
    hsorted.sublist (insertBatch_sublist rows t)
  have hstrict : (inserted.flatMap fun r => [f r, g r]).Pairwise fun a b => a.1 < b.1 := by
    rw [List.pairwise_flatMap]
    refine ⟨fun r _ => by simp [f, g], hsub.imp fun {r r'} hlt => ?_⟩
    simp only [List.mem_cons, List.not_mem_nil, or_false, f, g]
    rintro a (rfl | rfl) b (rfl | rfl) <;> simp only <;> omega
  rw [hevents, mergeSort_eq_of_perm hperm hstrict, List.map_flatMap]
  rfl

end Events

theorem drawIds_event (queue : String) (entries : List Entry) (db : Db) :
    (drawIds queue entries db).2.event = db.event ∧
      (drawIds queue entries db).2.eventSeq = db.eventSeq := by
  induction entries generalizing db with
  | nil => exact ⟨rfl, rfl⟩
  | cons e entries ih =>
    simp only [drawIds]
    by_cases hid : e.id = ""
    · simp only [hid, if_true]
      exact ih _
    · simp only [hid, if_false]
      exact ih _

/-- **The fast path agrees with the loop.** For independent entries of a queue, both return the same
ids, insert the same rows and append the same events; the loop then trims the events. -/
theorem addJobsBulk_eq_addFlow (queue : String) (entries : List Entry)
    (hind : ∀ e ∈ entries, e.Independent queue) (db : Db) :
    (addJobsBulk queue entries db).1 = (addFlow entries db).1 ∧
    (addJobsBulk queue entries db).2.job = (addFlow entries db).2.job ∧
    ∃ events, (addJobsBulk queue entries db).2.event =
        db.event ++ numberEvents db.eventSeq events ∧
      (addFlow entries db).2 =
        ((events.map Prod.fst).dedup).foldl trimToMax (addJobsBulk queue entries db).2 := by
  obtain ⟨hjob, hseq⟩ := drawIds_frame queue entries db
  obtain ⟨hevent, heventSeq⟩ := drawIds_event queue entries db
  set drawn := drawIds queue entries db with hdrawn
  set reserved := reserveSeqs entries.length drawn.2 with hreserved
  set rows := numberedRows 1 entries drawn.1 reserved.1 with hrows
  set batch := insertBatch queue rows db.job with hbatch
  have hresjob : reserved.2.job = db.job := by
    rw [hreserved, reserveSeqs_eq]
    exact hjob
  have hflow : entries.foldl addFlowEntry ⟨[], [], db⟩ = ⟨[] ++ drawn.1,
      [] ++ rowEvents queue batch.1, { reserved.2 with job := batch.2 }⟩ :=
    foldl_addFlowEntry entries hind ⟨[], [], db⟩ 1
  have hresult : bulkRows entries drawn.1 reserved.1 = rows := by
    rw [bulkRows, sorted_reserveSeqs, bulkRows_eq]
  have hbulk : addJobsBulk queue entries db = (rows.map BulkRow.id,
      appendEvents (rowEvents queue batch.1) { reserved.2 with job := batch.2 }) := by
    simp only [addJobsBulk]
    rw [hresult, hresjob, sorted_bulkEvents (numberedRows_sorted 1 entries _ _).1]
  have hids : rows.map BulkRow.id = drawn.1 := by
    refine map_id_numberedRows 1 (length_drawIds entries db) ?_
    rw [hreserved, reserveSeqs_eq, List.length_map, List.length_range]
  have hflowDb : addFlow entries db = (drawn.1,
      flushEvents (rowEvents queue batch.1) { reserved.2 with job := batch.2 }) := by
    simp only [addFlow, hflow, List.nil_append]
  refine ⟨by rw [hbulk, hflowDb, hids], ?_, rowEvents queue batch.1,
    ?_, by rw [hbulk, hflowDb]; rfl⟩
  · rw [hbulk, hflowDb, flushEvents, foldl_trimToMax_job]
  · have hreservedEvent : reserved.2.event = db.event ∧ reserved.2.eventSeq = db.eventSeq := by
      rw [hreserved, reserveSeqs_eq]
      exact ⟨hevent, heventSeq⟩
    rw [hbulk, appendEvents_eq]
    exact congrArg₂ _ hreservedEvent.1 (congrArg (numberEvents · _) hreservedEvent.2)

/-- Two entries with one id and one without, the last delayed. -/
def sampleBatch : List Entry :=
  [{ queue := "q", id := "a", name := "n", data := "1", timestamp := 5 },
    { queue := "q", name := "n", data := "2", timestamp := 5, lifo := true },
    { queue := "q", id := "a", name := "n", data := "3", timestamp := 5, delay := 7 }]

/-- Both paths return the ids of the sample batch. -/
theorem sampleBatch_agrees : (addFlow sampleBatch .empty).1 = ["a", "1", "a"] ∧
    (addJobsBulk "q" sampleBatch .empty).1 = (addFlow sampleBatch .empty).1 := by
  have hind : ∀ e ∈ sampleBatch, e.Independent "q" := by
    intro e he
    simp only [sampleBatch, List.mem_cons, List.not_mem_nil, or_false] at he
    rcases he with rfl | rfl | rfl <;> exact ⟨rfl, rfl, rfl, rfl⟩
  exact ⟨by decide +kernel, (addJobsBulk_eq_addFlow "q" sampleBatch hind .empty).1⟩

end BullMQ.Postgres
