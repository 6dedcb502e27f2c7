import Mathlib.Order.Interval.Finset.Nat
import BullMQ.Postgres.Add

/-!
# Trimming of events

The ids of events come from one sequence for all queues, and a queue's events are trimmed by the
distance of ids. The events that were ever published are kept here as a list of their own
(`published`), to say which of them are a queue's most recent ones (`Recent`). A publication trims
none of those exactly if it finds the queue without older events or the ids above the cut-off all
in use by the queue (`keepsRecent_iff`), and along a run of such publications a queue's most recent
events are in the table (`recent_of_run`).
-/

namespace BullMQ.Postgres

open Sql

/-! ### Publications -/

/-- What appends events: a call of `publish_event`, and the end of `add_flow`. -/
inductive EventOp
  | publish (queue : String) (e : Event)
  | flush (events : List (String × Event))

namespace EventOp

/-- Execute a publication. -/
def exec (db : Db) : EventOp → Db
  | publish queue e => publishEvent queue e db
  | flush events => flushEvents events db

/-- The events that a publication appends. -/
def events : EventOp → List (String × Event)
  | publish queue e => [(queue, e)]
  | flush events => events

/-- Whether a publication trims the events of a queue. -/
def trims (op : EventOp) (db : Db) (q : String) : Prop :=
  0 < db.maxLenEvents q ∧
    match op with
    | publish queue _ =>
      queue = q ∧ db.maxLenEvents q < (db.eventSeq + 1 : ℕ) ∧ (db.eventSeq + 1) % 256 = 0
    | flush events => q ∈ events.map Prod.fst

/-- The events after a publication, before it trims any. -/
def appended (op : EventOp) (db : Db) : List EventRow :=
  db.event ++ numberEvents db.eventSeq op.events

end EventOp

/-- Execute publications one after the other. -/
def runOps (ops : List EventOp) (db : Db) : Db := ops.foldl EventOp.exec db

/-- All events published by a list of publications, trimmed or not. -/
def published (id : ℕ) (ops : List EventOp) : List EventRow :=
  numberEvents id (ops.flatMap EventOp.events)

/-- An event is one of the `v` most recent ones of its queue. -/
def Recent (v : ℤ) (q : String) (rows : List EventRow) (r : EventRow) : Prop :=
  r ∈ rows ∧ r.queue = q ∧
    ((rows.countP fun r' => decide (r'.queue = q) && decide (r.id < r'.id) : ℕ) : ℤ) < v

/-- The last id of a queue. -/
def lastId (rows : List EventRow) (q : String) : ℕ :=
  ((rows.filter fun r => decide (r.queue = q)).map EventRow.id).max?.getD 0

/-- A queue has no event at or below its cut-off, or the ids above it are all its own. -/
def Covered (rows : List EventRow) (q : String) (v : ℤ) : Prop :=
  (∀ r ∈ rows, r.queue = q → (lastId rows q : ℤ) - v < r.id) ∨
    ∀ i : ℕ, (lastId rows q : ℤ) - v < i → i ≤ lastId rows q → ∃ r ∈ rows, r.queue = q ∧ r.id = i

/-- A publication deletes none of the most recent events of the queues it trims. -/
def EventOp.KeepsRecent (op : EventOp) (db : Db) : Prop :=
  ∀ q, op.trims db q → ∀ r, Recent (db.maxLenEvents q) q (op.appended db) r → r ∈ (op.exec db).event

/-- The events of each queue that a publication trims are covered. -/
def EventOp.SafeTrim (op : EventOp) (db : Db) : Prop :=
  ∀ q, op.trims db q → Covered (op.appended db) q (db.maxLenEvents q)

/-- The ids of the events ascend up to the last value drawn. -/
structure EventsOrdered (rows : List EventRow) (seq : ℕ) : Prop where
  sorted : rows.Pairwise fun r r' => r.id < r'.id
  le_seq : ∀ r ∈ rows, r.id ≤ seq

/-! ### Ids -/

section Ids

variable {rows : List EventRow} {q : String} {seq : ℕ}

theorem mem_numberEvents {id : ℕ} {events : List (String × Event)} {r : EventRow}
    (h : r ∈ numberEvents id events) : id < r.id ∧ r.id ≤ id + events.length := by
  obtain ⟨⟨e, i⟩, hmem, rfl⟩ := List.mem_map.mp h
  have hle := List.le_snd_of_mem_zipIdx hmem
  have hlt := List.snd_lt_add_of_mem_zipIdx hmem
  dsimp only at hle hlt ⊢
  omega

theorem numberEvents_cons (id : ℕ) (e : String × Event) (events : List (String × Event)) :
    numberEvents id (e :: events) = ⟨e.1, id + 1, e.2⟩ :: numberEvents (id + 1) events := rfl

theorem numberEvents_append (id : ℕ) (events events' : List (String × Event)) :
    numberEvents id (events ++ events') =
      numberEvents id events ++ numberEvents (id + events.length) events' := by
  induction events generalizing id with
  | nil => rfl
  | cons e events ih =>
    rw [List.cons_append, numberEvents_cons, numberEvents_cons, ih, List.cons_append,
      List.length_cons]
    congr 3
    omega

theorem sorted_numberEvents (id : ℕ) (events : List (String × Event)) :
    (numberEvents id events).Pairwise fun r r' => r.id < r'.id := by
  induction events generalizing id with
  | nil => exact .nil
  | cons e events ih =>
    rw [numberEvents_cons, List.pairwise_cons]
    exact ⟨fun r hr => (mem_numberEvents hr).1, ih (id + 1)⟩

theorem EventsOrdered.append (h : EventsOrdered rows seq) (events : List (String × Event)) :
    EventsOrdered (rows ++ numberEvents seq events) (seq + events.length) := by
  refine ⟨?_, ?_⟩
  · rw [List.pairwise_append]
    refine ⟨h.sorted, sorted_numberEvents seq events, fun r hr r' hr' => ?_⟩
    have hle := h.le_seq r hr
    have hlt := (mem_numberEvents hr').1
    omega
  · intro r hr
    obtain hr | hr := List.mem_append.mp hr
    · exact Nat.le_add_right_of_le (h.le_seq r hr)
    · exact (mem_numberEvents hr).2

theorem EventsOrdered.sublist {rows' : List EventRow} (h : EventsOrdered rows seq)
    (hsub : rows'.Sublist rows) : EventsOrdered rows' seq :=
  ⟨h.sorted.sublist hsub, fun r hr => h.le_seq r (hsub.subset hr)⟩

theorem le_lastId {r : EventRow} (hr : r ∈ rows) (hq : r.queue = q) : r.id ≤ lastId rows q := by
  have hmem : r.id ∈ (rows.filter fun r => decide (r.queue = q)).map EventRow.id :=
    List.mem_map_of_mem (List.mem_filter.mpr ⟨hr, by simpa using hq⟩)
  rcases hmax : ((rows.filter fun r => decide (r.queue = q)).map EventRow.id).max? with _ | m
  · rw [List.max?_eq_none_iff.mp hmax] at hmem
    simp at hmem
  · rw [lastId, hmax]
    exact (List.max?_eq_some_iff.mp hmax).2 _ hmem

/-- The last id of a queue is that of one of its events. -/
theorem exists_lastId {r : EventRow} (hr : r ∈ rows) (hq : r.queue = q) :
    ∃ r' ∈ rows, r'.queue = q ∧ r'.id = lastId rows q := by
  have hmem : r.id ∈ (rows.filter fun r => decide (r.queue = q)).map EventRow.id :=
    List.mem_map_of_mem (List.mem_filter.mpr ⟨hr, by simpa using hq⟩)
  rcases hmax : ((rows.filter fun r => decide (r.queue = q)).map EventRow.id).max? with _ | m
  · rw [List.max?_eq_none_iff.mp hmax] at hmem
    simp at hmem
  · obtain ⟨r', hr', hid⟩ := List.mem_map.mp (List.max?_eq_some_iff.mp hmax).1
    obtain ⟨hmem', hq'⟩ := List.mem_filter.mp hr'
    exact ⟨r', hmem', by simpa using hq', by rw [lastId, hmax, hid]; rfl⟩

/-- The last id depends on the events of the queue only. -/
theorem lastId_congr {rows' : List EventRow} (h : (rows.filter fun r => decide (r.queue = q)) =
    rows'.filter fun r => decide (r.queue = q)) : lastId rows q = lastId rows' q := by
  rw [lastId, lastId, h]

end Ids

/-! ### When the most recent events are kept -/

section Kept

variable {rows : List EventRow} {q : String} {seq : ℕ} {v : ℤ}

/-- The number of newer events of a queue, as the size of a set of ids. -/
theorem countP_newer_eq_card (h : rows.Pairwise fun r r' => r.id < r'.id) (id : ℕ) :
    rows.countP (fun r' => decide (r'.queue = q) && decide (id < r'.id)) =
      (((rows.filter fun r' => decide (r'.queue = q) && decide (id < r'.id)).map
        EventRow.id).toFinset).card := by
  rw [List.countP_eq_length_filter, List.toFinset_card_of_nodup, List.length_map]
  rw [List.Nodup, List.pairwise_map]
  exact (h.sublist List.filter_sublist).imp fun hlt => hlt.ne

/-- An event at or below the cut-off is not recent if all ids above are the queue's own. -/
theorem not_recent_of_covered {rows' : List EventRow} (hsorted : rows'.Pairwise
    fun r r' => r.id < r'.id) (hsub : ∀ r ∈ rows, r ∈ rows')
    (hall : ∀ i : ℕ, (lastId rows q : ℤ) - v < i → i ≤ lastId rows q →
      ∃ r ∈ rows, r.queue = q ∧ r.id = i) {r : EventRow} (hid : (r.id : ℤ) ≤ lastId rows q - v) :
    ¬ Recent v q rows' r := by
  rintro ⟨-, -, hcount⟩
  obtain hv | hv := le_or_gt v 0
  · omega
  obtain ⟨n, rfl⟩ : ∃ n : ℕ, v = n := ⟨v.toNat, by omega⟩
  rw [countP_newer_eq_card hsorted] at hcount
  -- The `n` ids above the cut-off are ids of newer events.
  have hincl : Finset.Ioc (lastId rows q - n) (lastId rows q) ⊆
      ((rows'.filter fun r' => decide (r'.queue = q) && decide (r.id < r'.id)).map
        EventRow.id).toFinset := by
    intro i hi
    rw [Finset.mem_Ioc] at hi
    obtain ⟨r', hr', hq', rfl⟩ := hall i (by omega) hi.2
    rw [List.mem_toFinset]
    refine List.mem_map_of_mem (List.mem_filter.mpr ⟨hsub r' hr', ?_⟩)
    simp only [Bool.and_eq_true, decide_eq_true_eq]
    exact ⟨hq', by omega⟩
  have hcard := Finset.card_le_card hincl
  rw [Nat.card_Ioc] at hcard
  omega

/-- If some id above the cut-off is not the queue's, the last event below it is recent. -/
theorem exists_recent_of_not_covered (hsorted : rows.Pairwise fun r r' => r.id < r'.id)
    (h : ¬ Covered rows q v) :
    ∃ r, Recent v q rows r ∧ (r.id : ℤ) ≤ lastId rows q - v := by
  simp only [Covered, not_or, not_forall, not_exists, not_and, not_lt] at h
  obtain ⟨⟨r₀, hr₀, hq₀, hid₀⟩, i, hlo, hhi, hgap⟩ := h
  set below := rows.filter fun r => decide (r.queue = q) && decide ((r.id : ℤ) ≤ lastId rows q - v)
    with hbelow
  have hr₀' : r₀ ∈ below :=
    List.mem_filter.mpr ⟨hr₀, by simpa using ⟨hq₀, hid₀⟩⟩
  -- Take the last of the queue's events at or below the cut-off.
  obtain ⟨r, hr, hq, hlast⟩ := exists_lastId hr₀' hq₀
  obtain ⟨hmem, hcond⟩ := List.mem_filter.mp hr
  have hid : (r.id : ℤ) ≤ lastId rows q - v := by
    simp only [Bool.and_eq_true, decide_eq_true_eq] at hcond
    exact hcond.2
  refine ⟨r, ⟨hmem, hq, ?_⟩, hid⟩
  rw [countP_newer_eq_card hsorted]
  have hincl : ((rows.filter fun r' => decide (r'.queue = q) && decide (r.id < r'.id)).map
      EventRow.id).toFinset ⊆ (Finset.Ioc (lastId rows q - v.toNat) (lastId rows q)).erase i := by
    intro j hj
    obtain ⟨r', hr', rfl⟩ := List.mem_map.mp (List.mem_toFinset.mp hj)
    obtain ⟨hmem', hcond'⟩ := List.mem_filter.mp hr'
    simp only [Bool.and_eq_true, decide_eq_true_eq] at hcond'
    have habove : ¬ (r'.id : ℤ) ≤ lastId rows q - v := by
      intro hle
      have hmax : r'.id ≤ lastId below q := le_lastId (List.mem_filter.mpr
        ⟨hmem', by simpa using ⟨hcond'.1, hle⟩⟩) hcond'.1
      omega
    rw [Finset.mem_erase, Finset.mem_Ioc]
    exact ⟨fun heq => hgap r' hmem' hcond'.1 heq, by omega, le_lastId hmem' hcond'.1⟩
  have hcard := Finset.card_le_card hincl
  rw [Finset.card_erase_of_mem (Finset.mem_Ioc.mpr ⟨by omega, hhi⟩), Nat.card_Ioc] at hcard
  omega

end Kept

/-! ### What a publication does -/

section Publication

variable {db : Db}

theorem trimToMax_event (db : Db) (q : String) (r : EventRow) :
    r ∈ (trimToMax db q).event ↔ r ∈ db.event ∧
      ¬ (r.queue = q ∧ 0 < db.maxLenEvents q ∧
      (r.id : ℤ) ≤ lastId db.event q - db.maxLenEvents q) := by
  unfold trimToMax
  dsimp only
  split
  · next last hlast =>
    have hid : lastId db.event q = last := by rw [lastId, hlast]; rfl
    split
    · next hmax =>
      simp only [Db.trimEvents, List.mem_filter, hmax, hid, true_and, Bool.not_eq_true',
        Bool.and_eq_false_iff, decide_eq_false_iff_not, not_and_or]
    · next hmax => simp [hmax]
  · next hnone =>
    constructor
    · intro hr
      refine ⟨hr, fun hcond => ?_⟩
      have hmem : r.id ∈ (db.event.filter fun r => decide (r.queue = q)).map EventRow.id :=
        List.mem_map_of_mem (List.mem_filter.mpr ⟨hr, by simpa using hcond.1⟩)
      rw [List.max?_eq_none_iff.mp hnone] at hmem
      simp at hmem
    · exact And.left

theorem trimToMax_maxLenEvents (db : Db) (q : String) :
    (trimToMax db q).maxLenEvents = db.maxLenEvents := by
  obtain heq | ⟨cutoff, heq⟩ := trimToMax_cases db q <;> rw [heq]
  rfl

/-- Trimming a queue leaves the last ids of the others. -/
theorem lastId_trimToMax {q q' : String} (hne : q' ≠ q) :
    lastId (trimToMax db q).event q' = lastId db.event q' := by
  obtain heq | ⟨cutoff, heq⟩ := trimToMax_cases db q
  · rw [heq]
  · rw [heq]
    refine lastId_congr ?_
    rw [Db.trimEvents, List.filter_filter]
    refine List.filter_congr fun r _ => ?_
    by_cases hr : r.queue = q'
    · simp [hr, hne]
    · simp [hr]

theorem foldl_trimToMax_event (queues : List String) (hnodup : queues.Nodup) (db : Db)
    (r : EventRow) :
    r ∈ (queues.foldl trimToMax db).event ↔ r ∈ db.event ∧
      ¬ (r.queue ∈ queues ∧ 0 < db.maxLenEvents r.queue ∧
        (r.id : ℤ) ≤ lastId db.event r.queue - db.maxLenEvents r.queue) := by
  induction queues generalizing db with
  | nil => simp
  | cons q queues ih =>
    rw [List.nodup_cons] at hnodup
    rw [List.foldl_cons, ih hnodup.2, trimToMax_event, trimToMax_maxLenEvents]
    by_cases hq : r.queue = q
    · have hnot : r.queue ∉ queues := hq ▸ hnodup.1
      simp [hq, hnodup.1]
    · rw [lastId_trimToMax hq]
      simp [hq]

/-- A publication appends its events and deletes those at or below the cut-offs. -/
theorem EventOp.mem_exec (h : EventsOrdered db.event db.eventSeq) (op : EventOp) (r : EventRow) :
    r ∈ (op.exec db).event ↔ r ∈ op.appended db ∧ ¬ (op.trims db r.queue ∧
      (r.id : ℤ) ≤ lastId (op.appended db) r.queue - db.maxLenEvents r.queue) := by
  cases op with
  | publish queue e =>
    -- The event just published has the last id of its queue.
    have hlast : lastId (appended (.publish queue e) db) queue = db.eventSeq + 1 := by
      have hnew : (⟨queue, db.eventSeq + 1, e⟩ : EventRow) ∈ appended (.publish queue e) db :=
        List.mem_append_right _ (by simp [numberEvents, events])
      obtain ⟨r', hr', -, hid⟩ := exists_lastId hnew rfl
      have hle : r'.id ≤ db.eventSeq + 1 := (h.append [(queue, e)]).le_seq r' hr'
      have hge : db.eventSeq + 1 ≤ lastId (appended (.publish queue e) db) queue :=
        le_lastId hnew rfl
      have hid' : r'.id = lastId (appended (.publish queue e) db) queue := hid
      omega
    simp only [exec, publishEvent, trims]
    split
    · next hcond =>
      have hcond' : 0 < db.maxLenEvents queue ∧ db.maxLenEvents queue < (db.eventSeq + 1 : ℕ) ∧
        (db.eventSeq + 1) % 256 = 0 := hcond
      simp only [Db.trimEvents, List.mem_filter, Bool.not_eq_true', Bool.and_eq_false_iff,
        decide_eq_false_iff_not]
      refine and_congr Iff.rfl ?_
      by_cases hq : r.queue = queue
      · rw [hq, hlast]
        simp only [not_true_eq_false, false_or, hcond', and_self, true_and]
        rfl
      · simp [hq, Ne.symm hq]
    · next hcond =>
      have hcond' : ¬ (0 < db.maxLenEvents queue ∧ db.maxLenEvents queue < (db.eventSeq + 1 : ℕ) ∧
        (db.eventSeq + 1) % 256 = 0) := hcond
      have hkeep : ¬ ((0 < db.maxLenEvents r.queue ∧ queue = r.queue ∧
          db.maxLenEvents r.queue < (db.eventSeq + 1 : ℕ) ∧ (db.eventSeq + 1) % 256 = 0) ∧
          (r.id : ℤ) ≤ lastId (appended (.publish queue e) db) r.queue -
            db.maxLenEvents r.queue) := by
        rintro ⟨⟨hpos, rfl, hrest⟩, -⟩
        exact hcond' ⟨hpos, hrest⟩
      exact ⟨fun hr => ⟨hr, hkeep⟩, And.left⟩
  | flush events =>
    have hmax : ∀ q, (appendEvents events db).maxLenEvents q = db.maxLenEvents q := by
      intro q
      rw [appendEvents_eq]
      rfl
    have hevent : (appendEvents events db).event = appended (.flush events) db := by
      rw [appendEvents_eq]
      rfl
    simp only [exec, flushEvents, trims]
    rw [foldl_trimToMax_event _ (List.nodup_dedup _), hevent, hmax, List.mem_dedup]
    tauto

theorem trimToMax_sublist (db : Db) (q : String) : (trimToMax db q).event.Sublist db.event := by
  obtain heq | ⟨cutoff, heq⟩ := trimToMax_cases db q <;> rw [heq]
  exact List.filter_sublist

theorem foldl_trimToMax_frame (queues : List String) (db : Db) :
    (queues.foldl trimToMax db).event.Sublist db.event ∧
      (queues.foldl trimToMax db).eventSeq = db.eventSeq ∧
      (queues.foldl trimToMax db).queueMeta = db.queueMeta := by
  induction queues generalizing db with
  | nil => exact ⟨.refl _, rfl, rfl⟩
  | cons q queues ih =>
    obtain ⟨hsub, hseq, hmeta⟩ := ih (trimToMax db q)
    have hq : (trimToMax db q).eventSeq = db.eventSeq ∧
        (trimToMax db q).queueMeta = db.queueMeta := by
      obtain heq | ⟨cutoff, heq⟩ := trimToMax_cases db q <;> rw [heq] <;> exact ⟨rfl, rfl⟩
    exact ⟨hsub.trans (trimToMax_sublist db q), hseq.trans hq.1, hmeta.trans hq.2⟩

/-- A publication keeps part of the events, draws the ids of its own, and leaves the bounds. -/
theorem EventOp.exec_frame (op : EventOp) (db : Db) :
    (op.exec db).event.Sublist (op.appended db) ∧
      (op.exec db).eventSeq = db.eventSeq + op.events.length ∧
      (op.exec db).queueMeta = db.queueMeta := by
  cases op with
  | publish queue e =>
    simp only [exec, publishEvent]
    split
    · exact ⟨List.filter_sublist, rfl, rfl⟩
    · exact ⟨.refl _, rfl, rfl⟩
  | flush events =>
    simp only [exec, flushEvents]
    rw [appendEvents_eq]
    exact foldl_trimToMax_frame _ _

theorem EventOp.exec_maxLenEvents (op : EventOp) (db : Db) :
    (op.exec db).maxLenEvents = db.maxLenEvents := by
  funext q
  rw [Db.maxLenEvents, Db.maxLenEvents, (op.exec_frame db).2.2]

theorem EventOp.exec_ordered (h : EventsOrdered db.event db.eventSeq) (op : EventOp) :
    EventsOrdered (op.exec db).event (op.exec db).eventSeq := by
  obtain ⟨hsub, hseq, -⟩ := op.exec_frame db
  rw [hseq]
  exact (h.append op.events).sublist hsub

/-- A publication keeps the most recent events exactly if those it trims are covered. -/
theorem keepsRecent_iff (h : EventsOrdered db.event db.eventSeq) (op : EventOp) :
    op.KeepsRecent db ↔ op.SafeTrim db := by
  have hsorted : (op.appended db).Pairwise fun r r' => r.id < r'.id := (h.append op.events).sorted
  constructor
  · intro hkeep q htrim
    by_contra hcovered
    obtain ⟨r, hrecent, hid⟩ := exists_recent_of_not_covered hsorted hcovered
    have hmem := hkeep q htrim r hrecent
    rw [op.mem_exec h, hrecent.2.1] at hmem
    exact hmem.2 ⟨htrim, hid⟩
  · intro hsafe q htrim r hrecent
    rw [op.mem_exec h, hrecent.2.1]
    refine ⟨hrecent.1, fun ⟨_, hid⟩ => ?_⟩
    obtain hold | hall := hsafe q htrim
    · have hlt := hold r hrecent.1 hrecent.2.1
      omega
    · exact not_recent_of_covered hsorted (fun _ hr => hr) hall hid hrecent

end Publication

/-! ### Runs -/

section Runs

variable {db₀ : Db}

theorem runOps_append (ops : List EventOp) (op : EventOp) (db : Db) :
    runOps (ops ++ [op]) db = op.exec (runOps ops db) := by
  rw [runOps, List.foldl_append]
  rfl

theorem published_append (id : ℕ) (ops : List EventOp) (op : EventOp) :
    published id (ops ++ [op]) =
      published id ops ++ numberEvents (id + (ops.flatMap EventOp.events).length) op.events := by
  rw [published, List.flatMap_append, numberEvents_append]
  simp [published]

/-- Along a run the ids ascend, and the table is a part of what was published. -/
theorem runOps_frame (h₀ : db₀.event = []) (ops : List EventOp) :
    EventsOrdered (runOps ops db₀).event (runOps ops db₀).eventSeq ∧
      (runOps ops db₀).event.Sublist (published db₀.eventSeq ops) ∧
      (runOps ops db₀).eventSeq = db₀.eventSeq + (ops.flatMap EventOp.events).length ∧
      (runOps ops db₀).maxLenEvents = db₀.maxLenEvents := by
  induction ops using List.reverseRecOn with
  | nil =>
    refine ⟨⟨?_, ?_⟩, ?_, rfl, rfl⟩ <;> simp [runOps, h₀]
  | append_singleton ops op ih =>
    obtain ⟨hord, hsub, hseq, hmax⟩ := ih
    obtain ⟨hsub', hseq', -⟩ := op.exec_frame (runOps ops db₀)
    rw [runOps_append]
    refine ⟨op.exec_ordered hord, ?_, ?_, by rw [op.exec_maxLenEvents, hmax]⟩
    · rw [published_append, ← hseq]
      exact hsub'.trans (hsub.append (.refl _))
    · rw [hseq', hseq, List.flatMap_append, List.length_append]
      simp [Nat.add_assoc]

theorem Recent.of_append {v : ℤ} {q : String} {rows new : List EventRow} {r : EventRow}
    (h : Recent v q (rows ++ new) r) : r ∈ new ∨ Recent v q rows r := by
  obtain ⟨hmem, hq, hcount⟩ := h
  obtain hr | hr := List.mem_append.mp hmem
  · rw [List.countP_append] at hcount
    exact .inr ⟨hr, hq, by omega⟩
  · exact .inl hr

/-- If every publication finds what it trims covered, a queue's most recent events are there. -/
theorem recent_of_run (h₀ : db₀.event = []) (ops : List EventOp)
    (hsafe : ∀ before op after, ops = before ++ op :: after → op.SafeTrim (runOps before db₀))
    {q : String} {r : EventRow}
    (hr : Recent (db₀.maxLenEvents q) q (published db₀.eventSeq ops) r) :
    r ∈ (runOps ops db₀).event := by
  induction ops using List.reverseRecOn with
  | nil => exact absurd hr.1 (by simp [published, numberEvents])
  | append_singleton ops op ih =>
    obtain ⟨hord, hsub, hseq, hmax⟩ := runOps_frame h₀ ops
    have hold := ih fun before op' after heq => hsafe before op' (after ++ [op]) (by simp [heq])
    have hlast := hsafe ops op [] rfl
    rw [published_append, ← hseq] at hr
    rw [runOps_append, op.mem_exec hord, hr.2.1, hmax]
    -- The event was there before, or is new.
    have hmem : r ∈ op.appended (runOps ops db₀) := by
      obtain hnew | hrecent := hr.of_append
      · exact List.mem_append_right _ hnew
      · exact List.mem_append_left _ (hold hrecent)
    refine ⟨hmem, ?_⟩
    rintro ⟨htrim, hid⟩
    have hcovered := hlast q htrim
    rw [hmax] at hcovered
    obtain hnone | hall := hcovered
    · have hlt := hnone r hmem hr.2.1
      omega
    · refine not_recent_of_covered ?_ (fun r' hr' => ?_) hall hid hr
      · have hpub := sorted_numberEvents db₀.eventSeq ((ops ++ [op]).flatMap EventOp.events)
        change (published db₀.eventSeq (ops ++ [op])).Pairwise _ at hpub
        rwa [published_append, ← hseq] at hpub
      · exact (hsub.append (.refl _)).subset hr'

end Runs

/-! ### Functions that publish -/

/-- What the publications of a function act on. -/
structure EventLog where
  event : List EventRow
  eventSeq : ℕ
  queueMeta : String → QueueMeta

/-- The events of the tables, with their sequence and the bounds. -/
def Db.eventLog (db : Db) : EventLog := ⟨db.event, db.eventSeq, db.queueMeta⟩

/-- The events change by publications only. -/
def Publishes (db db' : Db) : Prop :=
  ∃ ops, ∀ db₀ : Db, db₀.eventLog = db.eventLog → (runOps ops db₀).eventLog = db'.eventLog

namespace Publishes

variable {db db' db'' : Db}

theorem of_eq (h : db'.eventLog = db.eventLog) : Publishes db db' :=
  ⟨[], fun _ h₀ => h₀.trans h.symm⟩

theorem trans (h : Publishes db db') (h' : Publishes db' db'') : Publishes db db'' := by
  obtain ⟨ops, hops⟩ := h
  obtain ⟨ops', hops'⟩ := h'
  refine ⟨ops ++ ops', fun db₀ h₀ => ?_⟩
  rw [runOps, List.foldl_append]
  exact hops' _ (hops db₀ h₀)

/-- Change nothing that concerns events first. -/
theorem after_eq (h : db'.eventLog = db.eventLog) (h' : Publishes db' db'') : Publishes db db'' :=
  (of_eq h).trans h'

theorem publish (queue : String) (e : Event) (db : Db) :
    Publishes db (publishEvent queue e db) := by
  refine ⟨[.publish queue e], fun db₀ h₀ => ?_⟩
  cases db
  cases db₀
  simp only [Db.eventLog, EventLog.mk.injEq] at h₀
  obtain ⟨rfl, rfl, rfl⟩ := h₀
  simp only [runOps, List.foldl_cons, List.foldl_nil, EventOp.exec, publishEvent]
  rw [apply_ite Db.eventLog, apply_ite Db.eventLog]
  rfl

theorem flush (events : List (String × Event)) (db : Db) :
    Publishes db (flushEvents events db) := by
  have htrim : ∀ (queues : List String) (db₀ db : Db), db₀.eventLog = db.eventLog →
      (queues.foldl trimToMax db₀).eventLog = (queues.foldl trimToMax db).eventLog := by
    intro queues
    induction queues with
    | nil => exact fun _ _ h => h
    | cons q queues ih =>
      intro db₀ db h
      refine ih _ _ ?_
      cases db
      cases db₀
      simp only [Db.eventLog, EventLog.mk.injEq] at h
      obtain ⟨rfl, rfl, rfl⟩ := h
      simp only [trimToMax]
      split
      · rw [apply_ite Db.eventLog, apply_ite Db.eventLog]
        rfl
      · rfl
  refine ⟨[.flush events], fun db₀ h₀ => htrim _ _ _ ?_⟩
  obtain ⟨hevent, hseq, hmeta⟩ := EventLog.mk.inj h₀
  rw [appendEvents_eq, appendEvents_eq]
  simp only [Db.eventLog, hevent, hseq, hmeta]

/-- A change that does not concern events comes before. -/
theorem publish_after (queue : String) (e : Event) (h : db'.eventLog = db.eventLog) :
    Publishes db (publishEvent queue e db') :=
  after_eq h (publish queue e db')

/-- A change that does not concern events comes after. -/
theorem then_eq (h : Publishes db db') (heq : db''.eventLog = db'.eventLog) : Publishes db db'' :=
  h.trans (of_eq heq)

end Publishes

section Functions

variable {db : Db}

theorem Db.updateJob_eventLog (db : Db) (k : JobKey) (f : JobRow → JobRow) :
    (db.updateJob k f).eventLog = db.eventLog := rfl

theorem Db.deleteJob_eventLog (db : Db) (k : JobKey) : (db.deleteJob k).eventLog = db.eventLog :=
  rfl

theorem Db.updateDedup_eventLog (db : Db) (queue dedupId : String) (f : DedupRow → DedupRow) :
    (db.updateDedup queue dedupId f).eventLog = db.eventLog := rfl

theorem moveParentToWait_publishes (parent : JobKey) (now : ℤ) :
    Publishes db (moveParentToWait parent now db) := by
  unfold moveParentToWait
  split
  · exact .of_eq rfl
  · split
    · dsimp only
      split
      · exact .publish_after _ _ rfl
      · exact .publish_after _ _ rfl
    · exact .of_eq rfl

theorem dedupStoreNext_eventLog (queue dedupId winner jobId : String) (keepLast : Bool)
    (name data : String) (opts : JobsOptions) (db : Db) :
    (dedupStoreNext queue dedupId winner jobId keepLast name data opts db).2.eventLog =
      db.eventLog := by
  unfold dedupStoreNext
  split <;> rfl

theorem deduplicateJob_publishes (queue : String) (de : DeduplicationOpts) (jobId : String)
    (now : ℤ)
    (name data : String) (opts : JobsOptions) (db : Db) :
    Publishes db (deduplicateJob queue de jobId now name data opts db).2 := by
  unfold deduplicateJob
  dsimp only
  split
  · exact .of_eq rfl
  split
  · split
    · split
      · refine .then_eq ?_ (Db.updateDedup_eventLog ..)
        exact .trans (.publish_after _ _ (Db.deleteJob_eventLog _ _)) (.publish _ _ _)
      · exact .of_eq (dedupStoreNext_eventLog ..)
    · exact .of_eq rfl
  split
  · split
    · refine .publish_after _ _ ?_
      split
      · exact dedupStoreNext_eventLog ..
      · exact dedupStoreNext_eventLog ..
    · exact .of_eq rfl
  · split
    · exact .publish_after _ _ (dedupStoreNext_eventLog ..)
    · exact .of_eq rfl

theorem Entry.deduplicate_publishes (e : Entry) (jobId : String) (db : Db) :
    Publishes db (e.deduplicate jobId db).2 := by
  unfold Entry.deduplicate
  split
  · exact .of_eq rfl
  · split
    · exact .of_eq rfl
    · exact deduplicateJob_publishes ..

theorem Entry.drawId_eventLog (e : Entry) (db : Db) : (e.drawId db).2.eventLog = db.eventLog := by
  unfold Entry.drawId
  split <;> rfl

theorem registerChild_eventLog (k : JobKey) (parent : Option JobKey) (db : Db) :
    (registerChild k parent db).eventLog = db.eventLog := by
  unfold registerChild
  split <;> rfl

theorem handleDuplicatedJob_publishes (k : JobKey) (parent : Option JobKey) (now : ℤ) (db : Db) :
    Publishes db (handleDuplicatedJob k parent now db).2 := by
  unfold handleDuplicatedJob
  split
  · exact .publish _ _ _
  · dsimp only
    split
    · exact .of_eq rfl
    · refine .trans (.then_eq ?_ (Db.updateJob_eventLog ..)) (.publish _ _ _)
      split
      · split
        · refine .after_eq ?_ (moveParentToWait_publishes _ _)
          rfl
        · exact .of_eq rfl
      · split
        · exact .of_eq rfl
        · exact .of_eq rfl

/-- A round of the loop publishes by calls only; what it keeps for the end is in the accumulator. -/
theorem addFlowEntry_publishes (acc : FlowAcc) (e : Entry) :
    Publishes acc.db (addFlowEntry acc e).db := by
  unfold addFlowEntry
  dsimp only
  have hdedup : Publishes acc.db (e.deduplicate (e.drawId acc.db).1 (e.drawId acc.db).2).2 :=
    .after_eq (e.drawId_eventLog acc.db) (e.deduplicate_publishes ..)
  refine hdedup.trans ?_
  split
  · exact .of_eq rfl
  split
  · exact .of_eq rfl
  split
  · split
    · refine .after_eq ?_ (handleDuplicatedJob_publishes _ _ _ _)
      rfl
    · exact .of_eq rfl
  · exact .of_eq (registerChild_eventLog ..)

/-- `add_flow` changes the events by publications only. -/
theorem addFlow_publishes (entries : List Entry) (db : Db) :
    Publishes db (addFlow entries db).2 := by
  have hloop : ∀ (entries : List Entry) (acc : FlowAcc),
      Publishes acc.db (entries.foldl addFlowEntry acc).db := by
    intro entries
    induction entries with
    | nil => exact fun acc => .of_eq rfl
    | cons e entries ih =>
      intro acc
      exact (addFlowEntry_publishes acc e).trans (ih _)
  exact (hloop entries ⟨[], [], db⟩).trans (.flush _ _)

end Functions

/-- A call of a function that publishes events. -/
inductive EventCall
  | publish (queue : String) (e : Event)
  | flow (entries : List Entry)

/-- Execute a call. -/
def EventCall.exec (db : Db) : EventCall → Db
  | publish queue e => publishEvent queue e db
  | flow entries => (addFlow entries db).2

/-- Execute calls one after the other. -/
def runCalls (calls : List EventCall) (db : Db) : Db := calls.foldl EventCall.exec db

theorem runCalls_publishes (calls : List EventCall) (db : Db) :
    Publishes db (runCalls calls db) := by
  induction calls generalizing db with
  | nil => exact .of_eq rfl
  | cons call calls ih =>
    refine Publishes.trans ?_ (ih (call.exec db))
    cases call with
    | publish queue e => exact .publish queue e db
    | flow entries => exact addFlow_publishes entries db

/-- Calls of `publish_event` and `add_flow`, of any queues and in any order, change the events by
publications. A publication of such a run deletes none of the most recent events of a queue exactly
if the queue's events are covered; if they are at every publication, all of a queue's most recent
events are there. -/
theorem recent_events_kept (db₀ : Db) (h₀ : db₀.event = []) :
    (∀ calls, ∃ ops, (runOps ops db₀).eventLog = (runCalls calls db₀).eventLog) ∧
    (∀ ops (op : EventOp), op.KeepsRecent (runOps ops db₀) ↔ op.SafeTrim (runOps ops db₀)) ∧
    ∀ ops, (∀ before op after, ops = before ++ op :: after → op.SafeTrim (runOps before db₀)) →
      ∀ q r, Recent (db₀.maxLenEvents q) q (published db₀.eventSeq ops) r →
        r ∈ (runOps ops db₀).event := by
  refine ⟨fun calls => ?_, fun ops op => ?_, fun ops hsafe q r hr => ?_⟩
  · obtain ⟨ops, hops⟩ := runCalls_publishes calls db₀
    exact ⟨ops, hops db₀ rfl⟩
  · exact keepsRecent_iff (runOps_frame h₀ ops).1 op
  · exact recent_of_run h₀ ops hsafe hr

/-- A queue bounded to two events. -/
def twoEvents : Db := { Db.empty with queueMeta := fun _ => { maxLenEvents := some 2 } }

/-- A queue alone keeps its two most recent events of three. -/
theorem recent_events_kept_alone :
    (⟨"a", 2, .drained⟩ : EventRow) ∈ (runOps [.flush [("a", .drained), ("a", .drained),
      ("a", .drained)]] twoEvents).event := by
  refine (recent_events_kept twoEvents rfl).2.2 _ ?_ "a" _ ?_
  · intro before op after h
    obtain rfl | ⟨_, _, rfl⟩ : before = [] ∨ ∃ op' before', before = op' :: before' := by
      cases before with
      | nil => exact .inl rfl
      | cons op' before' => exact .inr ⟨op', before', rfl⟩
    · simp only [List.nil_append, List.cons.injEq] at h
      obtain ⟨rfl, -⟩ := h
      intro q htrim
      have hq : q = "a" := by simpa [EventOp.trims] using htrim.2
      subst hq
      -- The ids above the cut-off are 2 and 3.
      refine .inr fun i hlo hhi => ?_
      have hlast : lastId (EventOp.appended (.flush [("a", .drained), ("a", .drained),
        ("a", .drained)]) (runOps [] twoEvents)) "a" = 3 := by decide
      have hmax : (runOps [] twoEvents).maxLenEvents "a" = 2 := by decide
      rw [hlast] at hlo hhi
      rw [hmax] at hlo
      obtain rfl | rfl : i = 2 ∨ i = 3 := by omega
      · exact ⟨⟨"a", 2, .drained⟩, by decide, rfl, rfl⟩
      · exact ⟨⟨"a", 3, .drained⟩, by decide, rfl, rfl⟩
    · simp at h
  · exact ⟨by decide, rfl, by decide⟩

/-- Three events are to be kept of every queue. -/
def threeEvents : Db := { Db.empty with queueMeta := fun _ => { maxLenEvents := some 3 } }

/-- Three flows of one job each, the second of another queue. -/
def threeFlows : List EventCall :=
  [.flow [{ queue := "a", id := "x", name := "n", data := "{}", timestamp := 0 }],
    .flow [{ queue := "b", id := "y", name := "n", data := "{}", timestamp := 0 }],
    .flow [{ queue := "a", id := "z", name := "n", data := "{}", timestamp := 0 }]]

/-- What the three flows publish. -/
def threeFlushes : List EventOp :=
  [.flush [("a", .added "x" (some "n")), ("a", .waiting "x" none)],
    .flush [("b", .added "y" (some "n")), ("b", .waiting "y" none)],
    .flush [("a", .added "z" (some "n")), ("a", .waiting "z" none)]]

/-- The ids another queue draws between them push one of the three most recent events of the first
queue below the cut-off. -/
theorem recent_event_trimmed :
    (runCalls threeFlows threeEvents).event = (runOps threeFlushes threeEvents).event ∧
      threeEvents.maxLenEvents "a" = 3 ∧
      Recent 3 "a" (published 0 threeFlushes) ⟨"a", 2, .waiting "x" none⟩ ∧
      (⟨"a", 2, .waiting "x" none⟩ : EventRow) ∉ (runCalls threeFlows threeEvents).event := by
  refine ⟨by decide +kernel, by decide, ⟨by decide, rfl, by decide⟩, by decide +kernel⟩

end BullMQ.Postgres
