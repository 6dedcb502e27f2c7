import BullMQ.Properties.DedupRows
import BullMQ.Properties.LockedRemoval

/-!
# Payloads of successors

An add that is dropped in favour of an active winner may be kept in `dedup_next`, from where it
becomes a job when the winner finishes. Beside the tables, `Tracked` records for each key the winner
for which its payload was stored last, until this job finishes or is removed. A payload is not stale
if the key names this very job (`PayloadsKept`), which every command keeps that meets
`Command.PayloadsSafe`. Without the condition payloads outlive their winners
(`removed_winner_leaves_payload`).
-/

namespace BullMQ.Postgres

open Sql

/-! ### Winners of payloads -/

/-- For each key, the winner for which its payload was stored last. -/
abbrev Winners := String × String → Option String

/-- The tables with the winners of the payloads. -/
structure Tracked where
  db : Db
  winners : Winners

/-- Whether a job exists that has not finished. -/
def Db.unfinished (db : Db) (k : JobKey) : Bool :=
  (db.job.find k).any fun row => decide (row.state ≠ .completed) && decide (row.state ≠ .failed)

/-- Forget a job. -/
def Winners.forget (winners : Winners) (k : JobKey) : Winners := fun key =>
  if key.1 = k.queue ∧ winners key = some k.id then none else winners key

/-- An add that is kept records the winner; one that replaces a winner removes it. -/
def Entry.track (e : Entry) (db : Db) (winners : Winners) : Winners :=
  match e.dedupOpts with
  | none => winners
  | some de =>
    if de.id = "" then winners
    else if db.storesNext e.queue de e.timestamp then
      Function.update winners (e.queue, de.id) (db.liveWinner e.queue de.id e.timestamp)
    else
      match db.replaced e.queue de e.timestamp with
      | none => winners
      | some k => winners.forget k

/-- The entries of a flow one after the other. -/
def trackFlow : List Entry → FlowAcc → Winners → Winners
  | [], _, winners => winners
  | e :: entries, acc, winners => trackFlow entries (addFlowEntry acc e) (e.track acc.db winners)

/-- The winners that a call stores or ends under an id that may exist again after it. -/
def Command.track (db : Db) (winners : Winners) : Command → Winners
  | .addJob e => if (Postgres.addJob e db).isOk then e.track db winners else winners
  | .addFlow entries => trackFlow entries ⟨[], [], db⟩ winners
  | .moveToCompleted k token returnValue finishedOn keep =>
    if (Postgres.moveToCompleted k token returnValue finishedOn keep db).isOk then winners.forget k
    else winners
  | .moveToFailed k token failedReason stacktrace finishedOn keep =>
    if (Postgres.moveToFailed k token failedReason stacktrace finishedOn keep db).isOk then
      winners.forget k
    else winners
  | .addJobScheduler queue a =>
    match db.pendingIteration queue a.schedulerId with
    | some k =>
      if (Postgres.addJobScheduler queue a db).isOk && deletesPending queue a.schedulerId db then
        winners.forget k
      else winners
    | none => winners
  | _ => winners

/-- Execute a command and forget the winners that have finished or been removed. -/
def Tracked.exec (t : Tracked) (cmd : Command) : Tracked where
  db := cmd.exec t.db
  winners key := (cmd.track t.db t.winners key).filter fun w =>
    (cmd.exec t.db).unfinished ⟨key.1, w⟩

/-- A run from empty tables. -/
def trackedRun (cmds : List Command) : Tracked := cmds.foldl Tracked.exec ⟨.empty, fun _ => none⟩

theorem trackedRun_db (cmds : List Command) : (trackedRun cmds).db = runCommands cmds .empty := by
  have hfold : ∀ (cmds : List Command) (t : Tracked),
      (cmds.foldl Tracked.exec t).db = runCommands cmds t.db := by
    intro cmds
    induction cmds with
    | nil => exact fun t => rfl
    | cons cmd cmds ih => exact fun t => ih (t.exec cmd)
  exact hfold cmds _

/-- Every payload belongs to a key that names the winner for which it was stored, a holder. -/
def PayloadsKept (db : Db) (winners : Winners) : Prop :=
  ∀ q d payload, db.dedupNext.find (q, d) = some payload →
    d ≠ "" ∧ ∃ row, db.dedup.find (q, d) = some row ∧ winners (q, d) = some row.jobId ∧
      db.HeldBy ⟨q, row.jobId⟩ d

/-- A job is named by the key of an id that has a payload. -/
def Db.PayloadKey (db : Db) (k : JobKey) (d : String) : Prop :=
  (db.dedupNext.find (k.queue, d)).isSome = true ∧
    ∃ row, db.dedup.find (k.queue, d) = some row ∧ row.jobId = k.id

/-! ### Conditions -/

/-- When an add with deduplication options leaves no stale payload. -/
structure Entry.PayloadSafe (e : Entry) (flow : Bool) (de : DeduplicationOpts) (db : Db) :
    Prop where
  /-- The active winner for which the add is kept carries the id. -/
  stored : db.storesNext e.queue de e.timestamp = true →
    ∀ w, db.liveWinner e.queue de.id e.timestamp = some w → db.HeldBy ⟨e.queue, w⟩ de.id
  /-- An admission fails, or finds no payload for its id, unless it is under the id of the job that
the key names, and none for the job that it replaces. -/
  admitted : (db.liveWinner e.queue de.id e.timestamp = none ∨
      (db.replaced e.queue de e.timestamp).isSome = true) →
    flow = false ∧ (e.parentMissing (db.cleared e.queue de e.timestamp) = true ∨
      e.otherParent (db.cleared e.queue de e.timestamp) (e.key db) = true) ∨
    (∀ k, db.replaced e.queue de e.timestamp = some k → ∀ d, ¬ db.PayloadKey k d) ∧
      (db.dedupNext.find (e.queue, de.id) = none ∨ db.replaced e.queue de e.timestamp = none ∧
        db.PayloadKey (e.key db) de.id)

/-- The entries of a flow are safe one after the other. -/
def FlowPayloadsSafe : List Entry → FlowAcc → Prop
  | [], _ => True
  | e :: entries, acc =>
    (∀ de, e.dedupOpts = some de → e.PayloadSafe true de acc.db) ∧
      FlowPayloadsSafe entries (addFlowEntry acc e)

/-- A job that finishes is the one that the key of its payload names. -/
def OwnPayload (k : JobKey) (dedupId : Option String) (db : Db) : Prop :=
  ∀ d, dedupId = some d → (db.dedupNext.find (k.queue, d)).isSome = true → db.PayloadKey k d

/-- When a command leaves no stale payload. -/
def Command.PayloadsSafe (db : Db) : Command → Prop
  | .addJob e => ∀ de, e.dedupOpts = some de → e.PayloadSafe false de db
  | .addFlow entries => FlowPayloadsSafe entries ⟨[], [], db⟩
  | .moveToCompleted k token _ _ _ =>
    ∀ row, db.heldJob k token = .ok row → db.hasDep k .pending = false →
      db.hasDep k .failed = false → OwnPayload k row.dedupId db
  | .moveToFailed k token _ _ _ _ =>
    ∀ row, db.heldJob k token = .ok row → OwnPayload k row.dedupId db
  | .remove k removeChildren now => ∀ row, db.job.find k = some row → row.schedulerId = none →
    (∀ k' ∈ db.lockTree k removeChildren, ¬ db.lockedAt now k') →
    ∀ k' ∈ db.removeTree k removeChildren, ∀ d, ¬ db.PayloadKey k' d
  | .drain queue delayed => ∀ k d, db.PayloadKey k d →
    ¬ db.sweeps queue (drains queue delayed) (db.drainUnlinks queue delayed) k
  | .clean queue type ts limit => ∀ k d, db.PayloadKey k d →
    ¬ db.sweeps queue (fun k _ => decide (k ∈ db.cleaned queue type ts limit))
      (fun _ child => decide (child ∈ db.cleaned queue type ts limit)) k
  | .removeUnprocessedChildren k => ∀ k' d, db.PayloadKey k' d → k' ∉ db.unprocessedTree k
  | .obliterate queue count force => (db.queueMeta queue).paused = true →
    (force = true ∨ db.inState queue .active = []) → count ≤ (db.obliterated queue count).length →
    ∀ k d, db.PayloadKey k d → k ∉ db.obliterated queue count
  | .addJobScheduler queue a => ∀ k d, db.PayloadKey k d →
    db.pendingIteration queue a.schedulerId = some k → deletesPending queue a.schedulerId db = false
  | .removeJobScheduler queue schedulerId => ∀ k d, db.PayloadKey k d →
    db.pendingIteration queue schedulerId = some k → db.isIn k .delayed = false
  | _ => True

/-! ### Steps -/

section Steps

variable {db db' mid : Db} {winners : Winners}

theorem Winners.forget_of_ne {k : JobKey} {key : String × String} {w : String}
    (h : winners key = some w) (hne : (⟨key.1, w⟩ : JobKey) ≠ k) :
    winners.forget k key = some w := by
  rw [Winners.forget, if_neg, h]
  rintro ⟨hq, hid⟩
  rw [h] at hid
  cases hid
  exact hne (by rw [hq])

/-- A command that deletes no winner with a payload, whatever is forgotten about other jobs. -/
theorem PayloadsKept.of_calm {K : JobKey → Prop} {winners' : Winners} (h : PayloadsKept db winners)
    (hcalm : Calm K db db') (hK : ∀ k d, db.PayloadKey k d → K k)
    (hwinners : ∀ q d w, db.PayloadKey ⟨q, w⟩ d → winners (q, d) = some w →
      winners' (q, d) = some w) : PayloadsKept db' winners' := by
  intro q d payload hpayload
  rw [hcalm.dedupNext] at hpayload
  obtain ⟨hne, row, hrow, hwinner, hheld⟩ := h q d payload hpayload
  have hkey : db.PayloadKey ⟨q, row.jobId⟩ d := ⟨by rw [hpayload]; rfl, row, hrow, rfl⟩
  refine ⟨hne, row, by rw [hcalm.dedup]; exact hrow, hwinners q d _ hkey hwinner, ?_⟩
  exact Db.HeldBy.of_calm hheld hcalm (hK _ d hkey)

theorem PayloadsKept.of_all (h : PayloadsKept db winners) (hcalm : Calm (fun _ => True) db db') :
    PayloadsKept db' winners :=
  h.of_calm hcalm (fun _ _ _ => trivial) fun _ _ _ _ => id

/-- The winner of a payload has not finished. -/
theorem PayloadsKept.survive (h : PayloadsKept db winners) :
    PayloadsKept db fun key => (winners key).filter fun w => db.unfinished ⟨key.1, w⟩ := by
  intro q d payload hpayload
  obtain ⟨hne, row, hrow, hwinner, hheld⟩ := h q d payload hpayload
  refine ⟨hne, row, hrow, ?_, hheld⟩
  obtain ⟨job, hjob, hholds⟩ := hheld
  dsimp only
  rw [hwinner, Option.filter_some, if_pos]
  rw [Db.unfinished, hjob]
  simp [hholds.not_completed, hholds.not_failed]

theorem storesNext_of_admitted {q : String} {de : DeduplicationOpts} {now : ℤ}
    (h : db.liveWinner q de.id now = none ∨ (db.replaced q de now).isSome = true) :
    db.storesNext q de now = false := by
  unfold Db.storesNext
  obtain hnone | hsome := h
  · rw [hnone, Option.any_none, Bool.and_false]
  · -- The winner is delayed.
    obtain ⟨k, hk⟩ := Option.isSome_iff_exists.mp hsome
    unfold Db.replaced at hk
    split at hk
    · rw [Option.filter_eq_some_iff, Option.map_eq_some_iff] at hk
      obtain ⟨⟨w, hw, rfl⟩, hdelayed⟩ := hk
      rw [hw, Option.any_some]
      obtain ⟨row, hrow, hstate⟩ := (Option.any_eq_true ..).mp hdelayed
      simp only [decide_eq_true_eq] at hstate
      rw [Db.isIn, hrow, Option.any_some, hstate]
      simp
    · cases hk

theorem PayloadsKept.admits {e : Entry} {flow : Bool} {winner : Option String}
    (h : PayloadsKept db winners)
    (hsafe : ∀ de, e.dedupOpts = some de → e.PayloadSafe flow de db) (hadm : e.Admits db winner mid)
    (hcalm : Calm (fun _ => True) mid db')
    (hfate : winner = none → flow = false →
      e.parentMissing mid = false ∧ e.otherParent mid (e.key db) = false) :
    PayloadsKept db' (e.track db winners) := by
  refine PayloadsKept.of_all ?_ hcalm
  cases hadm with
  | plain hopts hjob hdedup hnext =>
    rw [Entry.track, hopts]
    exact h.of_all (.of_tables (.refl db) hjob hdedup hnext)
  | @decided de _ _ hopts hdec =>
    have hsafe := hsafe de hopts
    rw [Entry.track, hopts]
    dsimp only
    cases hdec with
    | off hid hjob hdedup hnext =>
      rw [if_pos hid]
      exact h.of_all (.of_tables (.refl db) hjob hdedup hnext)
    | @dropped row _ hid hrow hlive hreplaced hjob hdedup hnext =>
      rw [if_neg hid]
      intro q d payload hpayload
      rw [hnext] at hpayload
      simp only [Db.HeldBy, hjob, hdedup]
      by_cases hstores : db.storesNext e.queue de e.timestamp = true
      · rw [if_pos hstores]
        by_cases hkey : (q, d) = (e.queue, de.id)
        · cases hkey
          refine ⟨hid, _, if_pos rfl, ?_, hsafe.stored hstores _ hlive⟩
          rw [Function.update_self, hlive]
        · rw [if_neg fun hcon => hkey hcon.1] at hpayload
          rw [if_neg hkey, Function.update_of_ne hkey]
          exact h q d payload hpayload
      · rw [if_neg hstores, hreplaced]
        rw [if_neg fun hcon => hstores hcon.2] at hpayload
        obtain ⟨hne, row', hrow', hwinner, hheld⟩ := h q d payload hpayload
        refine ⟨hne, ?_⟩
        split
        · next hkey =>
          cases hkey
          obtain rfl : row = row' := Option.some.inj (hrow.symm.trans hrow')
          exact ⟨_, rfl, hwinner, hheld⟩
        · exact ⟨row', hrow', hwinner, hheld⟩
    | admitted hid hlive hjob hdedup hnext =>
      rw [if_neg hid]
      rw [if_neg (Bool.eq_false_iff.mp (storesNext_of_admitted hlive))]
      obtain ⟨hflow, hrefused⟩ | ⟨hreplaced, hown⟩ := hsafe.admitted hlive
      · obtain ⟨hparent, hother⟩ := hfate rfl hflow
        rw [parentMissing_of_job e hjob] at hparent
        rw [otherParent_of_job e hjob] at hother
        rw [hparent, hother] at hrefused
        simp at hrefused
      intro q d payload hpayload
      rw [hnext] at hpayload
      obtain ⟨hne, row, hrow, hwinner, hheld⟩ := h q d payload hpayload
      have hkey : db.PayloadKey ⟨q, row.jobId⟩ d := ⟨by rw [hpayload]; rfl, row, hrow, rfl⟩
      have hnot : db.replaced e.queue de e.timestamp ≠ some ⟨q, row.jobId⟩ := fun hcon =>
        hreplaced _ hcon d hkey
      have hcleared := Db.HeldBy.cleared hheld hnot
      have hforgotten : (match db.replaced e.queue de e.timestamp with
          | none => winners
          | some k => winners.forget k) (q, d) = some row.jobId := by
        cases hrep : db.replaced e.queue de e.timestamp with
        | none => exact hwinner
        | some k => exact Winners.forget_of_ne hwinner fun heq => hnot (heq ▸ hrep)
      refine ⟨hne, ?_⟩
      simp only [Db.HeldBy, hjob, hdedup]
      split
      · next heq =>
        cases heq
        obtain hnone | ⟨-, -, row', hrow', hid'⟩ := hown
        · rw [hnone] at hpayload
          cases hpayload
        · -- The key names the job under whose id the add was made.
          obtain rfl : row = row' := Option.some.inj (hrow.symm.trans hrow')
          have hsame : row.jobId = (e.drawId db).1 := hid'
          rw [hsame] at hforgotten hcleared
          exact ⟨_, rfl, hforgotten, hcleared⟩
      · exact ⟨row, hrow, hforgotten, hcleared⟩

theorem PayloadsKept.addJob {e : Entry} (h : PayloadsKept db winners)
    (hsafe : ∀ de, e.dedupOpts = some de → e.PayloadSafe false de db) :
    PayloadsKept (orUnchanged db (addJob e db) Prod.snd)
      (if (addJob e db).isOk then e.track db winners else winners) := by
  cases hok : Postgres.addJob e db with
  | error code => exact h
  | ok r =>
    obtain ⟨winner, mid, hadm, hcalm, hfate⟩ := addJob_admits hok
    exact h.admits hsafe hadm hcalm fun hnone _ => ⟨(hfate hnone).1, (hfate hnone).2.1⟩

theorem PayloadsKept.addFlow {entries : List Entry} (h : PayloadsKept db winners)
    (hsafe : FlowPayloadsSafe entries ⟨[], [], db⟩) :
    PayloadsKept (addFlow entries db).2 (trackFlow entries ⟨[], [], db⟩ winners) := by
  have hloop : ∀ (entries : List Entry) (acc : FlowAcc) (winners : Winners),
      PayloadsKept acc.db winners → FlowPayloadsSafe entries acc →
      PayloadsKept (entries.foldl addFlowEntry acc).db (trackFlow entries acc winners) := by
    intro entries
    induction entries with
    | nil => exact fun acc winners hacc _ => hacc
    | cons e entries ih =>
      intro acc winners hacc hsafe
      refine ih _ _ ?_ hsafe.2
      obtain ⟨winner, mid, hadm, hcalm, -⟩ := addFlowEntry_admits acc e
      exact hacc.admits hsafe.1 hadm hcalm fun _ hflow => by cases hflow
  exact (hloop entries ⟨[], [], db⟩ winners h hsafe).of_all (flushEvents_calm _ _)

/-- A job that finishes takes its payload with it. -/
theorem PayloadsKept.finish {k : JobKey} {row : JobRow} (now : ℤ) (h : PayloadsKept db winners)
    (hrow : db.job.find k = some row) (hmid : Settled (· ≠ k) db mid)
    (hown : OwnPayload k row.dedupId db) :
    PayloadsKept (finishKey k row.dedupId now mid) (winners.forget k) := by
  obtain ⟨hnext, -, -, hkeys⟩ := dedupFinalize_spec k.queue row.dedupId k.id now mid
  have hjob := dedupFinalize_job mid k.queue row.dedupId k.id now
  refine PayloadsKept.of_all ?_ (announceDrained_calm _ _)
  set fin := dedupFinalize k.queue row.dedupId k.id now mid
  -- The payloads of other ids belong to other winners.
  have hother : ∀ q d payload, db.dedupNext.find (q, d) = some payload →
      ¬ (q = k.queue ∧ row.dedupId = some d) → d ≠ "" ∧ ∃ key, fin.dedup.find (q, d) = some key ∧
        winners.forget k (q, d) = some key.jobId ∧ fin.HeldBy ⟨q, key.jobId⟩ d := by
    intro q d payload hpayload hne
    obtain ⟨hd, key, hkey, hwinner, hheld⟩ := h q d payload hpayload
    have hnot : (⟨q, key.jobId⟩ : JobKey) ≠ k := by
      rintro rfl
      obtain ⟨row', hrow', hholds⟩ := hheld
      obtain rfl : row = row' := Option.some.inj (hrow.symm.trans hrow')
      exact hne ⟨rfl, hholds.dedupId_eq⟩
    refine ⟨hd, key, ?_, Winners.forget_of_ne hwinner hnot, ?_⟩
    · rw [hkeys _ hne, hmid.dedup]
      exact hkey
    · rw [Db.HeldBy, hjob]
      exact Db.HeldBy.of_calm hheld hmid.toCalm hnot
  obtain ⟨heq, hnone⟩ | ⟨d, payload, new, hd, hne, -, -, hjob', hdedup', hnext'⟩ :=
    requeueDedupNext_cases k.queue row.dedupId now fin
  · rw [heq]
    intro q d payload hpayload
    have hpayload' := hpayload
    rw [hnext, hmid.dedupNext] at hpayload'
    refine hother q d payload hpayload' ?_
    rintro ⟨hq, hd⟩
    rw [hq, hnone d hd (h q d payload hpayload').1] at hpayload
    cases hpayload
  · intro q d' payload' hpayload'
    rw [hnext', Table.find_deleteKey, hnext, hmid.dedupNext] at hpayload'
    split at hpayload'
    · cases hpayload'
    · next hkey =>
      have hne' : ¬ (q = k.queue ∧ row.dedupId = some d') := by
        rintro ⟨rfl, hd'⟩
        obtain rfl : d = d' := Option.some.inj (hd.symm.trans hd')
        exact hkey rfl
      obtain ⟨hd', key, hfind, hwinner, job, hfindJob, hholds⟩ :=
        hother q d' payload' hpayload' hne'
      refine ⟨hd', key, by rw [hdedup', if_neg hkey]; exact hfind, hwinner, ?_⟩
      obtain ⟨job', hjob'', hholds'⟩ := Table.RowsStay.insert fin.job
        (fin.successor k.queue payload) new (P := fun _ row => row.Holds d') _ job hfindJob hholds
      exact ⟨job', by rw [hjob']; exact hjob'', hholds'⟩

/-- Removals leave the keys of other jobs and the payloads alone. -/
theorem foldl_removeOne_spares (dedupId : JobKey → Option String) (tree : List JobKey) (db : Db) :
    (tree.foldl (removeOne dedupId) db).dedupNext = db.dedupNext ∧
      ∀ q d row, db.dedup.find (q, d) = some row → (⟨q, row.jobId⟩ : JobKey) ∉ tree →
        (tree.foldl (removeOne dedupId) db).dedup.find (q, d) = some row ∧
          (tree.foldl (removeOne dedupId) db).job.find ⟨q, row.jobId⟩ =
            db.job.find ⟨q, row.jobId⟩ := by
  induction tree generalizing db with
  | nil => exact ⟨rfl, fun _ _ _ hrow _ => ⟨hrow, rfl⟩⟩
  | cons k tree ih =>
    obtain ⟨hnext, hkeys⟩ := dedupOnRemoval_spec k.queue k.id (dedupId k) db
    have hjob := dedupOnRemoval_job db k.queue k.id (dedupId k)
    obtain ⟨ihnext, ihkeys⟩ := ih (removeOne dedupId db k)
    refine ⟨ihnext.trans hnext, fun q d row hrow hmem => ?_⟩
    have hne : (⟨q, row.jobId⟩ : JobKey) ≠ k := fun heq => hmem (heq ▸ List.mem_cons_self)
    have hrow' : (removeOne dedupId db k).dedup.find (q, d) = some row := by
      refine (hkeys (q, d) row).mpr ⟨hrow, fun ⟨hq, _, _, hid⟩ => hne ?_⟩
      rw [show q = k.queue from hq, hid]
    obtain ⟨hfind, hsame⟩ := ihkeys q d row hrow' fun h => hmem (List.mem_cons_of_mem _ h)
    refine ⟨hfind, hsame.trans ?_⟩
    rw [removeOne, Db.deleteJob, Db.deleteJobs, ← Table.deleteKey, Table.find_deleteKey, if_neg hne,
      hjob]

theorem PayloadsKept.remove {k : JobKey} {removeChildren : Bool} {now : ℤ} {r : ℕ × Db}
    (h : PayloadsKept db winners)
    (hsafe : Command.PayloadsSafe db (.remove k removeChildren now))
    (hok : remove k removeChildren now db = .ok r) : PayloadsKept r.2 winners := by
  -- Once the job is detached from its parent, the jobs and keys are those that the condition is
  -- about.
  have hloop : ∀ (db₁ : Db) (tree : List JobKey) (dedupId : JobKey → Option String),
      PayloadsKept db₁ winners → (∀ k' ∈ tree, ∀ d, ¬ db₁.PayloadKey k' d) →
      PayloadsKept (tree.foldl (removeOne dedupId) db₁) winners := by
    intro db₁ tree dedupId h₁ htree
    obtain ⟨hnext, hkeys⟩ := foldl_removeOne_spares dedupId tree db₁
    intro q d payload hpayload
    rw [hnext] at hpayload
    obtain ⟨hne, row, hrow, hwinner, hheld⟩ := h₁ q d payload hpayload
    obtain ⟨hfind, hjob⟩ := hkeys q d row hrow fun hmem =>
      htree _ hmem d ⟨by rw [hpayload]; rfl, row, hrow, rfl⟩
    refine ⟨hne, row, hfind, hwinner, ?_⟩
    rw [Db.HeldBy, hjob]
    exact hheld
  unfold Postgres.remove at hok
  split at hok
  · cases hok
    exact h
  next row hrow =>
  split at hok
  · cases hok
  next hscheduled =>
  split at hok
  · cases hok
    exact h
  next hlocked =>
  cases hok
  have hunlocked : ∀ k' ∈ db.lockTree k removeChildren, ¬ db.lockedAt now k' := by
    intro k' hmem hlock
    refine hlocked (List.any_eq_true.mpr ⟨k', hmem, ?_⟩)
    exact (Option.any_eq_true ..).mpr hlock
  have htree := hsafe row hrow (by simpa using hscheduled) hunlocked
  cases row.parent with
  | none => exact hloop db _ _ h htree
  | some parent =>
    have hdetached : Settled (fun _ => True) db (detachPending k parent now db) :=
      detachPending_settled db k parent now
    refine hloop _ _ _ (h.of_all hdetached.toCalm) ?_
    rw [removeTree_of_links (detachPending_links k parent now db)]
    intro k' hmem d hkey
    refine htree k' hmem d ?_
    rw [Db.PayloadKey, hdetached.dedup, hdetached.dedupNext] at hkey
    exact hkey

theorem PayloadsKept.obliterate {queue : String} {count : ℕ} {force : Bool}
    (h : PayloadsKept db winners)
    (hsafe : Command.PayloadsSafe db (.obliterate queue count force)) :
    PayloadsKept (obliterate queue count force db).2 winners := by
  unfold Postgres.obliterate
  split
  · exact h
  next hpaused =>
  split
  · exact h
  next hactive =>
  have hcond : force = true ∨ db.inState queue .active = [] := by
    by_contra hnot
    exact hactive ⟨fun hforce => hnot (.inl hforce), fun hnil => hnot (.inr hnil)⟩
  dsimp only
  have hcalm : Calm (fun k => k ∉ db.obliterated queue count) db
      (db.deleteJobs fun k _ => decide (k ∈ db.obliterated queue count)) :=
    .deleteJobs (.refl db) fun _ _ _ _ hk _ => decide_eq_false hk
  split
  · next hcount =>
    refine h.of_calm hcalm (hsafe (not_not.mp hpaused) hcond ?_) fun _ _ _ _ => id
    rwa [Db.obliterated, List.length_map]
  · intro q d payload hpayload
    rw [Table.find_delete, Option.filter_eq_some_iff] at hpayload
    have hq : q ≠ queue := by simpa using hpayload.2
    obtain ⟨hne, row, hrow, hwinner, hheld⟩ := h q d payload hpayload.1
    have hleft := Db.HeldBy.of_calm hheld hcalm (notMem_obliterated hq)
    refine ⟨hne, row, ?_, hwinner, hleft⟩
    rw [Table.find_delete]
    change (db.dedup.find (q, d)).filter _ = _
    rw [hrow, Option.filter_some, if_pos]
    simpa using hq

end Steps

/-- A command that meets its condition leaves no stale payload. -/
theorem payloadsKept_track {db : Db} {winners : Winners} (h : PayloadsKept db winners)
    (cmd : Command) (hsafe : cmd.PayloadsSafe db) :
    PayloadsKept (cmd.exec db) (cmd.track db winners) := by
  cases cmd with
  | addJob e => exact h.addJob hsafe
  | addFlow entries => exact h.addFlow hsafe
  | addJobsBulk queue entries => exact h.of_all (addJobsBulk_calm db queue entries)
  | moveToActive queue args => exact h.of_all (moveToActive_calm db queue args)
  | extendLock k token lockMs now => exact h.of_all (extendLock_calm db k token lockMs now)
  | moveToCompleted k token returnValue finishedOn keep =>
    simp only [Command.exec, Command.track]
    cases hok : moveToCompleted k token returnValue finishedOn keep db with
    | error code => exact h
    | ok db' =>
      obtain ⟨row, mid, hheld, hpending, hfailed, hmid, -, rfl⟩ := moveToCompleted_finishes db hok
      exact h.finish finishedOn (heldJob_ok db hheld).1 hmid (hsafe row hheld hpending hfailed)
  | moveToFailed k token failedReason stacktrace finishedOn keep =>
    simp only [Command.exec, Command.track]
    cases hok : moveToFailed k token failedReason stacktrace finishedOn keep db with
    | error code => exact h
    | ok db' =>
      obtain ⟨row, mid, hheld, hmid, -, rfl⟩ := moveToFailed_finishes db hok
      exact h.finish finishedOn (heldJob_ok db hheld).1 hmid (hsafe row hheld)
  | moveToDelayed k token processAt delay skipAttempt failedReason stacktrace =>
    exact orUnchanged_rec (P := (PayloadsKept · winners)) h fun _ hok =>
      h.of_all (moveToDelayed_calm db hok)
  | retryJob k token lifo failedReason stacktrace =>
    exact orUnchanged_rec (P := (PayloadsKept · winners)) h fun _ hok =>
      h.of_all (retryJob_calm db hok)
  | moveActiveToWait k token now => exact h.of_all (moveActiveToWait_calm db k token now)
  | moveToWaitingChildren k token =>
    exact orUnchanged_rec (P := (PayloadsKept · winners)) h fun _ hok =>
      h.of_all (moveToWaitingChildren_calm db hok)
  | moveStalledJobsToWait queue maxStalled now maxCheckTime =>
    exact h.of_all (moveStalledJobsToWait_calm db queue maxStalled now maxCheckTime)
  | removeChildDependency child now =>
    exact orUnchanged_rec (P := (PayloadsKept · winners)) h fun _ hok =>
      h.of_all (removeChildDependency_calm db hok)
  | removeUnprocessedChildren k =>
    exact h.of_calm (removeUnprocessedChildren_calm db k) hsafe fun _ _ _ _ => id
  | pause queue paused =>
    refine h.of_all (.publish (.of_tables (.refl db) ?_ ?_ ?_) _ _)
    all_goals exact rfl
  | configure => exact h.of_all (.of_tables (.refl db) rfl rfl rfl)
  | setRateLimit => exact h.of_all (.of_tables (.refl db) rfl rfl rfl)
  | drain queue delayed => exact h.of_calm (sweep_calm db _ _ _) hsafe fun _ _ _ _ => id
  | remove k removeChildren now =>
      exact orUnchanged_rec (P := (PayloadsKept · winners)) h fun _ hok => h.remove hsafe hok
  | clean queue type ts limit =>
    simp only [Command.exec, clean_eq_sweep]
    split
    · exact h
    · have hswept := h.of_calm (sweep_calm db _ _ _) hsafe fun _ _ _ _ => id
      exact hswept.of_all (.publish (.refl _) _ _)
  | retryJobs queue state count timestamp =>
    exact h.of_all (retryJobs_calm db queue state count timestamp)
  | promoteJobs queue count => exact h.of_all (promoteJobs_calm db queue count)
  | promote k => exact h.of_all (promote_calm db k)
  | changeDelay k delay now => exact h.of_all (changeDelay_calm db k delay now)
  | changePriority k priority lifo => exact h.of_all (changePriority_calm db k priority lifo)
  | reprocessJob k state lifo resetMade resetStarted =>
    exact h.of_all (reprocessJob_calm db k state lifo resetMade resetStarted)
  | obliterate queue count force => exact h.obliterate hsafe
  | addJobScheduler queue a =>
    simp only [Command.exec, Command.track]
    cases hok : addJobScheduler queue a db with
    | error code =>
      simp only [orUnchanged]
      split
      · exact h
      · exact h
    | ok r =>
      refine h.of_calm (K := fun k => ∃ d, db.PayloadKey k d) ?_ (fun k d hk => ⟨d, hk⟩) ?_
      · refine addJobScheduler_calm db (fun k hk hdel hpayload => ?_) hok
        obtain ⟨d, hkey⟩ := hpayload
        rw [hsafe k d hkey hk] at hdel
        cases hdel
      · intro q d w hkey hwinner
        cases hk : db.pendingIteration queue a.schedulerId with
        | none => exact hwinner
        | some k =>
          cases hdel : deletesPending queue a.schedulerId db with
          | false => exact hwinner
          | true =>
            refine Winners.forget_of_ne hwinner fun heq => ?_
            subst heq
            rw [hsafe _ d hkey hk] at hdel
            cases hdel
  | updateJobSchedulerNextMillis queue a =>
    exact h.of_all (updateJobSchedulerNextMillis_calm db queue a)
  | removeJobScheduler queue schedulerId =>
    refine h.of_calm (K := fun k => ∃ d, db.PayloadKey k d) ?_ (fun k d hk => ⟨d, hk⟩)
      fun _ _ _ _ => id
    refine removeJobScheduler_calm db queue schedulerId fun k hk hdelayed hpayload => ?_
    obtain ⟨d, hkey⟩ := hpayload
    exact absurd hdelayed (Bool.eq_false_iff.mp (hsafe k d hkey hk))
  | skip => exact h.of_all (.of_tables (.refl db) rfl rfl rfl)

theorem payloadsKept_run (cmds : List Command)
    (hsafe : ∀ before cmd after, cmds = before ++ cmd :: after →
      cmd.PayloadsSafe (runCommands before .empty)) :
    PayloadsKept (trackedRun cmds).db (trackedRun cmds).winners := by
  induction cmds using List.reverseRecOn with
  | nil =>
    intro q d payload hpayload
    cases hpayload
  | append_singleton cmds cmd ih =>
    have hkept := ih fun before cmd' after heq => hsafe before cmd' (after ++ [cmd]) (by
      rw [heq, List.append_assoc, List.cons_append])
    have hstep := hsafe cmds cmd [] rfl
    rw [← trackedRun_db] at hstep
    rw [trackedRun, List.foldl_append]
    exact (payloadsKept_track hkept cmd hstep).survive

/-- In every run whose commands meet their conditions, a payload is there only while its key names
the job for which it was stored, which was active then and has neither finished nor been removed
since. A job that finishes next under its condition turns the payload of its own time into a job. -/
theorem payloads_never_stale (cmds : List Command)
    (hsafe : ∀ before cmd after, cmds = before ++ cmd :: after →
      cmd.PayloadsSafe (runCommands before .empty)) :
    (∀ q d payload, (runCommands cmds .empty).dedupNext.find (q, d) = some payload →
      ∃ row job, (runCommands cmds .empty).dedup.find (q, d) = some row ∧
        (trackedRun cmds).winners (q, d) = some row.jobId ∧
        (runCommands cmds .empty).job.find ⟨q, row.jobId⟩ = some job ∧
        job.state ≠ .completed ∧ job.state ≠ .failed) ∧
    ∀ k token row d payload, (runCommands cmds .empty).heldJob k token = .ok row →
      row.dedupId = some d →
      (runCommands cmds .empty).dedupNext.find (k.queue, d) = some payload →
      OwnPayload k row.dedupId (runCommands cmds .empty) →
      (trackedRun cmds).winners (k.queue, d) = some k.id := by
  have hkept := payloadsKept_run cmds hsafe
  rw [trackedRun_db] at hkept
  constructor
  · intro q d payload hpayload
    obtain ⟨-, row, hrow, hwinner, job, hjob, hholds⟩ := hkept q d payload hpayload
    exact ⟨row, job, hrow, hwinner, hjob, hholds.not_completed, hholds.not_failed⟩
  · intro k token row d payload _ hd hpayload hown
    obtain ⟨-, key, hkey, hwinner, -⟩ := hkept k.queue d payload hpayload
    obtain ⟨-, key', hkey', hid⟩ := hown d hd (by rw [hpayload]; rfl)
    obtain rfl : key = key' := Option.some.inj (hkey.symm.trans hkey')
    rw [hwinner, hid]

/-- A job that keeps the last add made while it is active. -/
def latestJob (id : String) : Entry :=
  { queue := "q", id := id, name := "n", data := "{}", timestamp := 0
    opts := { deduplication := some { id := "d", keepLastIfActive := true } }, dedupId := some "d" }

/-- An add while the winner is active. -/
def latestKept : List Command :=
  [.addJob (latestJob "x"), .moveToActive "q" { token := "t", lockMs := 10, now := 1 },
    .addJob (latestJob "y")]

/-- The payload is there while the winner that was active is. -/
theorem latestKept_payload_kept :
    ∃ row job, (runCommands latestKept .empty).dedup.find ("q", "d") = some row ∧
      (trackedRun latestKept).winners ("q", "d") = some row.jobId ∧
      (runCommands latestKept .empty).job.find ⟨"q", row.jobId⟩ = some job ∧
      job.state ≠ .completed ∧ job.state ≠ .failed := by
  have hopts : ∀ id, (latestJob id).dedupOpts = some { id := "d", keepLastIfActive := true } :=
    fun id => rfl
  refine (payloads_never_stale latestKept fun before cmd after h => ?_).1 "q" "d"
    ⟨"n", "{}", (latestJob "y").opts, "y"⟩ (by decide +kernel)
  match before, h with
  | [], h =>
    obtain ⟨rfl, -⟩ := List.cons.inj h
    intro de hde
    obtain rfl := Option.some.inj ((hopts "x").symm.trans hde)
    refine ⟨fun hstores => ?_, fun _ => .inr ⟨fun k hk => ?_, .inl rfl⟩⟩
    · cases hstores
    · cases hk
  | [_], h =>
    obtain ⟨rfl, htail⟩ := List.cons.inj h
    obtain ⟨rfl, -⟩ := List.cons.inj htail
    trivial
  | [_, _], h =>
    obtain ⟨rfl, hsecond⟩ := List.cons.inj h
    obtain ⟨rfl, hthird⟩ := List.cons.inj hsecond
    obtain ⟨rfl, -⟩ := List.cons.inj hthird
    intro de hde
    obtain rfl := Option.some.inj ((hopts "y").symm.trans hde)
    have hlive : (runCommands [.addJob (latestJob "x"),
        .moveToActive "q" { token := "t", lockMs := 10, now := 1 }] .empty).liveWinner "q" "d" 0 =
        some "x" := by decide +kernel
    refine ⟨fun _ w hw => ?_, fun hadmitted => ?_⟩
    · obtain rfl : "x" = w := Option.some.inj (hlive.symm.trans hw)
      have hheld : ((runCommands [.addJob (latestJob "x"),
          .moveToActive "q" { token := "t", lockMs := 10, now := 1 }] .empty).job.find
            ⟨"q", "x"⟩).any (fun row => decide (row.Holds "d")) = true := by decide +kernel
      obtain ⟨row, hrow, hholds⟩ := (Option.any_eq_true ..).mp hheld
      exact ⟨row, hrow, of_decide_eq_true hholds⟩
    · obtain hnone | hsome := hadmitted
      · cases hlive.symm.trans hnone
      · cases hsome
  | _ :: _ :: _ :: _, h => simp [latestKept] at h

/-- The winner is retried and removed. -/
def winnerRemoved : List Command :=
  latestKept ++ [.retryJob ⟨"q", "x"⟩ "t" false none none, .remove ⟨"q", "x"⟩ false 2]

/-- Another job of the same id is added and completes. -/
def nextCompleted : List Command :=
  winnerRemoved ++
    [.addJob (latestJob "z"), .moveToActive "q" { token := "t", lockMs := 10, now := 3 },
    .moveToCompleted ⟨"q", "z"⟩ "t" none 4 {}]

/-- Removing the winner clears its key and leaves the payload, which becomes a job when a later
winner completes. -/
theorem removed_winner_leaves_payload :
    (trackedRun latestKept).winners ("q", "d") = some "x" ∧
      (runCommands winnerRemoved .empty).job.find ⟨"q", "x"⟩ = none ∧
      (runCommands winnerRemoved .empty).dedup.find ("q", "d") = none ∧
      (runCommands winnerRemoved .empty).dedupNext.find ("q", "d") =
        some ⟨"n", "{}", (latestJob "y").opts, "y"⟩ ∧
      (trackedRun winnerRemoved).winners ("q", "d") = none ∧
      (runCommands (nextCompleted.dropLast) .empty).jobExists ⟨"q", "y"⟩ = false ∧
      (runCommands nextCompleted .empty).jobExists ⟨"q", "y"⟩ = true := by
  refine ⟨by decide +kernel, by decide +kernel, by decide +kernel, by decide +kernel,
    by decide +kernel, by decide +kernel, by decide +kernel⟩

end BullMQ.Postgres
