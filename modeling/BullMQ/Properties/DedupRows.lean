import BullMQ.Postgres.Admission

/-!
# Deduplication keys without an expiry

A key without an expiry blocks its deduplication id until the job it names gives it up, which
happens when that job finishes or is removed. `KeysHeld` says that each such key names a job that
holds the id. It is kept by every command that meets `Command.KeysSafe` (`keysHeld_exec`): a command
must not delete or overwrite the holder without clearing the key, and must not write a key for a job
that does not become a holder. Without the condition keys dangle (`drained_winner_dangles`).
-/

namespace BullMQ.Postgres

open Sql

/-- A job that exists holds a deduplication id. -/
def Db.HeldBy (db : Db) (k : JobKey) (d : String) : Prop :=
  ∃ row, db.job.find k = some row ∧ row.Holds d

/-- Every key without an expiry names a holder of its id. -/
def KeysHeld (db : Db) : Prop :=
  ∀ q d row, db.dedup.find (q, d) = some row → row.expireAt = none →
    d ≠ "" ∧ db.HeldBy ⟨q, row.jobId⟩ d

/-- A job is named by the key of an id, which does not expire. -/
def Db.LastingKey (db : Db) (k : JobKey) (d : String) : Prop :=
  ∃ row, db.dedup.find (k.queue, d) = some row ∧ row.expireAt = none ∧ row.jobId = k.id

/-! ### Conditions -/

/-- When an add with deduplication options leaves no dangling key. -/
structure Entry.KeySafe (e : Entry) (flow : Bool) (de : DeduplicationOpts) (db : Db) : Prop where
  /-- The id of the options is that of the job. -/
  id_eq : e.dedupId = some de.id
  /-- A winner whose key is deprived of its expiry is a holder. -/
  dropped : ∀ w, db.liveWinner e.queue de.id e.timestamp = some w →
    db.replaced e.queue de e.timestamp = none → de.keepLastIfActive = true →
    db.isIn ⟨e.queue, w⟩ .active = true ∨ de.replace = false ∧ 0 < de.ttl.getD 0 ∧
      de.extend = true →
    db.HeldBy ⟨e.queue, w⟩ de.id
  /-- A delayed winner that is replaced is not named by a lasting key of another id. -/
  replaced : ∀ k, db.replaced e.queue de e.timestamp = some k → ∀ d, db.LastingKey k d → d = de.id
  /-- An admission under a lasting key finds its id free, or held by a job of the same id, or fails.
-/
  admitted : (db.liveWinner e.queue de.id e.timestamp = none ∨
      (db.replaced e.queue de e.timestamp).isSome = true) →
    db.admittedExpiry e.queue de e.timestamp = none →
    (db.cleared e.queue de e.timestamp).HeldBy (e.key db) de.id ∨
      (db.cleared e.queue de e.timestamp).jobExists (e.key db) = false ∧
        (flow = true → e.parentMissing (db.cleared e.queue de e.timestamp) = false) ∨
      flow = false ∧ (e.parentMissing (db.cleared e.queue de e.timestamp) = true ∨
        e.otherParent (db.cleared e.queue de e.timestamp) (e.key db) = true)

/-- The entries of a flow are safe one after the other. -/
def FlowKeysSafe : List Entry → FlowAcc → Prop
  | [], _ => True
  | e :: entries, acc =>
    (∀ de, e.dedupOpts = some de → e.KeySafe true de acc.db) ∧
      FlowKeysSafe entries (addFlowEntry acc e)

/-- The successor of a job that finishes finds its id free, or held by another job of the same
deduplication id, or takes the id of the finished job, which is removed at once. -/
def SuccessorSafe (k : JobKey) (dedupId : Option String) (keep : KeepJobs) (db : Db) : Prop :=
  ∀ d payload, dedupId = some d → d ≠ "" → db.dedupNext.find (k.queue, d) = some payload →
    payload.lasting →
    db.jobExists (db.successor k.queue payload) = false ∨
      (db.successor k.queue payload ≠ k ∧ db.HeldBy (db.successor k.queue payload) d) ∨
      db.successor k.queue payload = k ∧ keep.removeAll = true

/-- The jobs that one call of `obliterate` deletes. -/
def Db.obliterated (db : Db) (queue : String) (count : ℕ) : List JobKey :=
  ((db.job.select fun k _ => decide (k.queue = queue)).take count).map Prod.fst

/-- When a command leaves no dangling key. -/
def Command.KeysSafe (db : Db) : Command → Prop
  | .addJob e => ∀ de, e.dedupOpts = some de → e.KeySafe false de db
  | .addFlow entries => FlowKeysSafe entries ⟨[], [], db⟩
  | .moveToCompleted k token _ _ keep =>
    ∀ row, db.heldJob k token = .ok row → db.hasDep k .pending = false →
      db.hasDep k .failed = false → SuccessorSafe k row.dedupId keep db
  | .moveToFailed k token _ _ _ keep =>
    ∀ row, db.heldJob k token = .ok row → SuccessorSafe k row.dedupId keep db
  | .drain queue delayed => ∀ k d, db.LastingKey k d →
    ¬ db.sweeps queue (drains queue delayed) (db.drainUnlinks queue delayed) k
  | .clean queue type ts limit => ∀ k d, db.LastingKey k d →
    ¬ db.sweeps queue (fun k _ => decide (k ∈ db.cleaned queue type ts limit))
      (fun _ child => decide (child ∈ db.cleaned queue type ts limit)) k
  | .removeUnprocessedChildren k => ∀ k' d, db.LastingKey k' d → k' ∉ db.unprocessedTree k
  | .obliterate queue count force => (db.queueMeta queue).paused = true →
    (force = true ∨ db.inState queue .active = []) → count ≤ (db.obliterated queue count).length →
    ∀ k d, db.LastingKey k d → k ∉ db.obliterated queue count
  | .addJobScheduler queue a => ∀ k d, db.LastingKey k d →
    db.pendingIteration queue a.schedulerId = some k → deletesPending queue a.schedulerId db = false
  | .removeJobScheduler queue schedulerId => ∀ k d, db.LastingKey k d →
    db.pendingIteration queue schedulerId = some k → db.isIn k .delayed = false
  | _ => True

/-! ### Steps -/

section Steps

variable {db db' mid : Db}

theorem Db.HeldBy.of_calm {K : JobKey → Prop} {k : JobKey} {d : String} (h : db.HeldBy k d)
    (hcalm : Calm K db db') (hk : K k) : db'.HeldBy k d := by
  obtain ⟨row, hrow, hholds⟩ := h
  obtain ⟨row', hrow', -, hholds'⟩ := hcalm.holders d k row hrow ⟨hk, hholds⟩
  exact ⟨row', hrow', hholds'⟩

/-- A command that deletes no holder with a lasting key. -/
theorem KeysHeld.of_calm {K : JobKey → Prop} (h : KeysHeld db) (hcalm : Calm K db db')
    (hK : ∀ k d, db.LastingKey k d → K k) : KeysHeld db' := by
  intro q d row hrow hlasts
  rw [hcalm.dedup] at hrow
  obtain ⟨hne, hheld⟩ := h q d row hrow hlasts
  exact ⟨hne, Db.HeldBy.of_calm hheld hcalm (hK _ d ⟨row, hrow, hlasts, rfl⟩)⟩

theorem KeysHeld.of_all (h : KeysHeld db) (hcalm : Calm (fun _ => True) db db') : KeysHeld db' :=
  h.of_calm hcalm fun _ _ _ => trivial

theorem jobExists_of_job (h : db'.job = db.job) (k : JobKey) :
    db'.jobExists k = db.jobExists k := by
  rw [Db.jobExists, h, Db.jobExists]

theorem parentMissing_of_job (e : Entry) (h : db'.job = db.job) :
    e.parentMissing db' = e.parentMissing db := by
  rw [Entry.parentMissing, Entry.parentMissing, funext (jobExists_of_job h)]

theorem otherParent_of_job (e : Entry) (h : db'.job = db.job) (k : JobKey) :
    e.otherParent db' k = e.otherParent db k := by
  rw [Entry.otherParent, Entry.otherParent, h, funext (jobExists_of_job h)]

/-- The holders of other lasting keys are there without the replaced job. -/
theorem Db.HeldBy.cleared {q d : String} {de : DeduplicationOpts} {now : ℤ} {k : JobKey}
    (h : db.HeldBy k d) (hk : db.replaced q de now ≠ some k) :
    (db.cleared q de now).HeldBy k d := by
  unfold Db.cleared
  split
  · exact h
  · next k' hreplaced =>
    refine Db.HeldBy.of_calm h (.deleteJob (.refl db) ?_) (K := fun k'' => k'' ≠ k') ?_
    · exact fun hne => hne rfl
    · rintro rfl
      exact hk hreplaced

/-- An add that leaves no dangling key. -/
theorem KeysHeld.admits {e : Entry} {flow : Bool} {winner : Option String} (h : KeysHeld db)
    (hsafe : ∀ de, e.dedupOpts = some de → e.KeySafe flow de db) (hadm : e.Admits db winner mid)
    (hcalm : Calm (fun _ => True) mid db')
    (hfate : winner = none → (flow = false →
      e.parentMissing mid = false ∧ e.otherParent mid (e.key db) = false) ∧
      (e.parentMissing mid = false → ∀ d, e.dedupId = some d → mid.job.find (e.key db) = none →
        db'.HeldBy (e.key db) d)) : KeysHeld db' := by
  have hsame : mid.job = db.job → mid.dedup = db.dedup → mid.dedupNext = db.dedupNext →
      KeysHeld db' := fun hjob hdedup hnext =>
    (h.of_all (.of_tables (.refl db) hjob hdedup hnext)).of_all hcalm
  cases hadm with
  | plain _ hjob hdedup hnext => exact hsame hjob hdedup hnext
  | @decided de _ _ hopts hdec =>
    have hsafe := hsafe de hopts
    cases hdec with
    | off _ hjob hdedup hnext => exact hsame hjob hdedup hnext
    | @dropped row _ hid hrow hlive hreplaced hjob hdedup hnext =>
      refine KeysHeld.of_all (fun q d row' hrow' hlasts => ?_) hcalm
      rw [hdedup] at hrow'
      rw [Db.HeldBy, hjob]
      split at hrow'
      · next hkey =>
        cases hkey
        cases hrow'
        refine ⟨hid, ?_⟩
        dsimp only at hlasts ⊢
        unfold Db.droppedExpiry at hlasts
        split at hlasts
        · next hstores =>
          simp only [Db.storesNext, hlive, Option.any_some, Bool.and_eq_true] at hstores
          exact hsafe.dropped _ hlive hreplaced hstores.1 (.inl hstores.2)
        split at hlasts
        · next hextends =>
          have hkeep : de.keepLastIfActive = true := by
            by_contra hkeep
            rw [expiryOf, if_neg hkeep, if_pos hextends.2.1] at hlasts
            cases hlasts
          exact hsafe.dropped _ hlive hreplaced hkeep (.inr ⟨by simpa using hextends.1, hextends.2⟩)
        · exact (h _ _ row hrow hlasts).2
      · exact h q d row' hrow' hlasts
    | admitted hid hlive hjob hdedup hnext =>
      obtain ⟨hrefused, hnew⟩ := hfate rfl
      have hin : ∀ {k d}, (db.cleared e.queue de e.timestamp).HeldBy k d → db'.HeldBy k d := by
        intro k d hheld
        refine Db.HeldBy.of_calm ?_ hcalm trivial
        rw [Db.HeldBy, hjob]
        exact hheld
      intro q d row hrow hlasts
      rw [hcalm.dedup, hdedup] at hrow
      split at hrow
      · next hkey =>
        cases hkey
        cases hrow
        refine ⟨hid, ?_⟩
        obtain hheld | ⟨hfree, hparent⟩ | ⟨hflow, hrefuses⟩ := hsafe.admitted hlive hlasts
        · exact hin hheld
        · refine hnew ?_ de.id hsafe.id_eq ?_
          · rw [parentMissing_of_job e hjob]
            cases flow with
            | false =>
              rw [← parentMissing_of_job e hjob]
              exact (hrefused rfl).1
            | true => exact hparent rfl
          · rw [hjob]
            simpa [Db.jobExists] using hfree
        · obtain ⟨hparent, hother⟩ := hrefused hflow
          rw [parentMissing_of_job e hjob] at hparent
          rw [otherParent_of_job e hjob] at hother
          rw [hparent, hother] at hrefuses
          simp at hrefuses
      · next hkey =>
        obtain ⟨hne, hheld⟩ := h q d row hrow hlasts
        refine ⟨hne, hin (Db.HeldBy.cleared hheld fun hreplaced => hkey ?_)⟩
        have hd := hsafe.replaced _ hreplaced d ⟨row, hrow, hlasts, rfl⟩
        have hq : q = e.queue := by
          unfold Db.replaced at hreplaced
          split at hreplaced
          · rw [Option.filter_eq_some_iff, Option.map_eq_some_iff] at hreplaced
            obtain ⟨⟨w, -, heq⟩, -⟩ := hreplaced
            cases heq
            rfl
          · cases hreplaced
        rw [hq, hd]

theorem KeysHeld.addJob {e : Entry} (h : KeysHeld db)
    (hsafe : ∀ de, e.dedupOpts = some de → e.KeySafe false de db) :
    KeysHeld (orUnchanged db (addJob e db) Prod.snd) := by
  refine orUnchanged_rec h fun r hok => ?_
  obtain ⟨winner, mid, hadm, hcalm, hfate⟩ := addJob_admits hok
  refine h.admits hsafe hadm hcalm fun hnone => ?_
  obtain ⟨hparent, hother, hnew⟩ := hfate hnone
  exact ⟨fun _ => ⟨hparent, hother⟩, fun _ => hnew⟩

theorem KeysHeld.addFlow {entries : List Entry} (h : KeysHeld db)
    (hsafe : FlowKeysSafe entries ⟨[], [], db⟩) : KeysHeld (addFlow entries db).2 := by
  have hloop : ∀ (entries : List Entry) (acc : FlowAcc), KeysHeld acc.db →
    FlowKeysSafe entries acc →
      KeysHeld (entries.foldl addFlowEntry acc).db := by
    intro entries
    induction entries with
    | nil => exact fun acc hacc _ => hacc
    | cons e entries ih =>
      intro acc hacc hsafe
      refine ih _ ?_ hsafe.2
      obtain ⟨winner, mid, hadm, hcalm, hfate⟩ := addFlowEntry_admits acc e
      refine hacc.admits hsafe.1 hadm hcalm fun hnone => ⟨fun hflow => ?_, hfate hnone⟩
      cases hflow
  exact (hloop entries ⟨[], [], db⟩ h hsafe).of_all (flushEvents_calm _ _)

/-- A job that finishes gives up its key, and its successor becomes a holder. -/
theorem KeysHeld.finish {k : JobKey} {row : JobRow} {keep : KeepJobs} (now : ℤ) (h : KeysHeld db)
    (hrow : db.job.find k = some row) (hmid : Settled (· ≠ k) db mid)
    (hremoved : keep.removeAll = true → mid.job.find k = none)
    (hsafe : SuccessorSafe k row.dedupId keep db) : KeysHeld (finishKey k row.dedupId now mid) := by
  obtain ⟨hnext, hids, hkeys, -⟩ := dedupFinalize_spec k.queue row.dedupId k.id now mid
  have hjob := dedupFinalize_job mid k.queue row.dedupId k.id now
  set fin := dedupFinalize k.queue row.dedupId k.id now mid
  have hfin : KeysHeld fin := by
    intro q d key hkey hlasts
    obtain ⟨hfind, hgiven⟩ := hkeys _ key hkey
    rw [hmid.dedup] at hfind
    obtain ⟨hne, hheld⟩ := h q d key hfind hlasts
    refine ⟨hne, ?_⟩
    -- A row that is still there was not the one of the job that finishes, so its holder stays.
    have hother : (⟨q, key.jobId⟩ : JobKey) ≠ k := by
      rintro rfl
      obtain ⟨row', hrow', hholds⟩ := hheld
      obtain rfl : row = row' := Option.some.inj (hrow.symm.trans hrow')
      exact hgiven ⟨rfl, hholds.dedupId_eq, hne, hlasts, rfl⟩
    rw [Db.HeldBy, hjob]
    exact Db.HeldBy.of_calm hheld hmid.toCalm hother
  suffices hrequeued : KeysHeld (requeueDedupNext k.queue row.dedupId now fin) from
    hrequeued.of_all (announceDrained_calm _ _)
  obtain ⟨heq, -⟩ | ⟨d, payload, new, hd, hne, hpayload, hholds, hjob', hdedup', -⟩ :=
    requeueDedupNext_cases k.queue row.dedupId now fin
  · rw [heq]
    exact hfin
  · have hsucc : fin.successor k.queue payload = db.successor k.queue payload := by
      rw [Db.successor, hids, hmid.jobIdSeq, Db.successor]
    have hstay : ∀ {k' d'}, fin.HeldBy k' d' →
        (requeueDedupNext k.queue row.dedupId now fin).HeldBy k' d' := by
      rintro k' d' ⟨row', hrow', hholds'⟩
      obtain ⟨row'', hrow'', hholds''⟩ := Table.RowsStay.insert fin.job
        (fin.successor k.queue payload) new (P := fun _ row => row.Holds d') k' row' hrow' hholds'
      exact ⟨row'', by rw [hjob']; exact hrow'', hholds''⟩
    -- The successor holds its id as soon as its row is new; the three cases of the condition say
    -- when it is, or who holds the id instead.
    have hborn : mid.job.find (db.successor k.queue payload) = none →
        (requeueDedupNext k.queue row.dedupId now fin).HeldBy (db.successor k.queue payload) d := by
      intro hfree
      refine ⟨new, ?_, hholds⟩
      rw [hjob', hsucc, Table.find_insert, if_pos rfl, hjob, hfree]
      rfl
    intro q d' key hkey hlasts
    rw [hdedup'] at hkey
    split at hkey
    · next heq =>
      cases heq
      cases hkey
      refine ⟨hne, ?_⟩
      rw [hsucc]
      have hlasting : payload.lasting := by
        by_contra hnot
        rw [if_neg hnot] at hlasts
        cases hlasts
      rw [hnext, hmid.dedupNext] at hpayload
      obtain hfree | ⟨hother, hheld⟩ | ⟨hself, hremove⟩ := hsafe d payload hd hne hpayload hlasting
      · refine hborn ?_
        by_contra hsome
        obtain ⟨row', hrow'⟩ := Option.ne_none_iff_exists'.mp hsome
        obtain ⟨row'', hrow'', -⟩ := hmid.old _ row' hrow' trivial
        rw [Db.jobExists, hrow''] at hfree
        cases hfree
      · refine hstay ?_
        rw [Db.HeldBy, hjob]
        exact Db.HeldBy.of_calm hheld hmid.toCalm hother
      · refine hborn ?_
        rw [hself]
        exact hremoved hremove
    · obtain ⟨hne', hheld⟩ := hfin q d' key hkey hlasts
      exact ⟨hne', hstay hheld⟩

/-- A job that is removed gives up its key. -/
theorem KeysHeld.remove {k : JobKey} {removeChildren : Bool} {now : ℤ} {r : ℕ × Db}
    (h : KeysHeld db) (hok : remove k removeChildren now db = .ok r) : KeysHeld r.2 := by
  -- The ids that the loop reads are those of the jobs that are left.
  have hloop : ∀ (tree : List JobKey) (dedupId : JobKey → Option String) (db : Db), KeysHeld db →
      (∀ k row, db.job.find k = some row → dedupId k = row.dedupId) →
      KeysHeld (tree.foldl (removeOne dedupId) db) := by
    intro tree dedupId
    induction tree with
    | nil => exact fun db hdb _ => hdb
    | cons k tree ih =>
      intro db hdb hids
      obtain ⟨-, hkeys⟩ := dedupOnRemoval_spec k.queue k.id (dedupId k) db
      have hjob := dedupOnRemoval_job db k.queue k.id (dedupId k)
      have hfind : ∀ k', (removeOne dedupId db k).job.find k' =
          if k' = k then none else db.job.find k' := by
        intro k'
        rw [removeOne, Db.deleteJob, Db.deleteJobs, ← Table.deleteKey, Table.find_deleteKey, hjob]
      rw [List.foldl_cons]
      refine ih _ (fun q d key hkey hlasts => ?_) fun k' row hrow => ?_
      · obtain ⟨hold, hgiven⟩ := (hkeys (q, d) key).mp hkey
        obtain ⟨hne, row, hrow, hholds⟩ := hdb q d key hold hlasts
        refine ⟨hne, row, ?_, hholds⟩
        rw [hfind, if_neg, hrow]
        rintro rfl
        exact hgiven ⟨rfl, (hids _ row hrow).trans hholds.dedupId_eq, hne, rfl⟩
      · rw [hfind] at hrow
        split at hrow
        · cases hrow
        · exact hids k' row hrow
  have hread : ∀ (db : Db) (k : JobKey) (row : JobRow), db.job.find k = some row →
      (db.job.find k).bind JobRow.dedupId = row.dedupId := by
    intro db k row hrow
    rw [hrow]
    rfl
  unfold Postgres.remove at hok
  split at hok
  · cases hok
    exact h
  split at hok
  · cases hok
  split at hok
  · cases hok
    exact h
  · cases hok
    refine hloop _ _ _ ?_ (hread _)
    split
    · exact h
    · exact h.of_all (detachPending_settled _ _ _ _).toCalm

theorem notMem_obliterated {queue q id : String} {count : ℕ} (h : q ≠ queue) :
    (⟨q, id⟩ : JobKey) ∉ db.obliterated queue count := by
  intro hmem
  obtain ⟨⟨k, row⟩, hk, heq⟩ := List.mem_map.mp hmem
  have hsel := (Table.mem_select.mp (List.mem_of_mem_take hk)).2
  cases heq
  exact h (by simpa using hsel)

theorem KeysHeld.obliterate {queue : String} {count : ℕ} {force : Bool} (h : KeysHeld db)
    (hsafe : Command.KeysSafe db (.obliterate queue count force)) :
    KeysHeld (obliterate queue count force db).2 := by
  unfold Postgres.obliterate
  split
  · exact h
  next hpaused =>
  split
  · exact h
  next hactive =>
  have hcond : force = true ∨ db.inState queue .active = [] := by
    by_contra hnot
    exact hactive ⟨fun hforce => hnot (.inl hforce), fun hnil => hnot (.inr hnil)⟩
  dsimp only
  have hcalm : Calm (fun k => k ∉ db.obliterated queue count) db
      (db.deleteJobs fun k _ => decide (k ∈ db.obliterated queue count)) :=
    .deleteJobs (.refl db) fun _ _ _ _ hk _ => decide_eq_false hk
  split
  · next hcount =>
    refine h.of_calm hcalm (hsafe (not_not.mp hpaused) hcond ?_)
    rwa [Db.obliterated, List.length_map]
  · intro q d row hrow hlasts
    rw [Table.find_delete, Option.filter_eq_some_iff] at hrow
    have hq : q ≠ queue := by simpa using hrow.2
    obtain ⟨hne, hheld⟩ := h q d row hrow.1 hlasts
    have hleft := Db.HeldBy.of_calm hheld hcalm (notMem_obliterated hq)
    exact ⟨hne, hleft⟩

theorem KeysHeld.sweep {queue : String} {swept : JobKey → JobRow → Bool}
    {unlinked : JobKey → JobKey → Bool} (h : KeysHeld db)
    (hsafe : ∀ k d, db.LastingKey k d → ¬ db.sweeps queue swept unlinked k) :
    KeysHeld (sweep queue swept unlinked db) :=
  h.of_calm (sweep_calm db queue swept unlinked) hsafe

end Steps

/-- A command that meets its condition leaves no dangling key. -/
theorem keysHeld_exec {db : Db} (h : KeysHeld db) (cmd : Command) (hsafe : cmd.KeysSafe db) :
    KeysHeld (cmd.exec db) := by
  cases cmd with
  | addJob e => exact h.addJob hsafe
  | addFlow entries => exact h.addFlow hsafe
  | addJobsBulk queue entries => exact h.of_all (addJobsBulk_calm db queue entries)
  | moveToActive queue args => exact h.of_all (moveToActive_calm db queue args)
  | extendLock k token lockMs now => exact h.of_all (extendLock_calm db k token lockMs now)
  | moveToCompleted k token returnValue finishedOn keep =>
    refine orUnchanged_rec h fun db' hok => ?_
    obtain ⟨row, mid, hheld, hpending, hfailed, hmid, hremoved, rfl⟩ :=
      moveToCompleted_finishes db hok
    exact h.finish finishedOn (heldJob_ok db hheld).1 hmid hremoved
      (hsafe row hheld hpending hfailed)
  | moveToFailed k token failedReason stacktrace finishedOn keep =>
    refine orUnchanged_rec h fun db' hok => ?_
    obtain ⟨row, mid, hheld, hmid, hremoved, rfl⟩ := moveToFailed_finishes db hok
    exact h.finish finishedOn (heldJob_ok db hheld).1 hmid hremoved (hsafe row hheld)
  | moveToDelayed k token processAt delay skipAttempt failedReason stacktrace =>
    exact orUnchanged_rec h fun _ hok => h.of_all (moveToDelayed_calm db hok)
  | retryJob k token lifo failedReason stacktrace =>
    exact orUnchanged_rec h fun _ hok => h.of_all (retryJob_calm db hok)
  | moveActiveToWait k token now => exact h.of_all (moveActiveToWait_calm db k token now)
  | moveToWaitingChildren k token =>
    exact orUnchanged_rec h fun _ hok => h.of_all (moveToWaitingChildren_calm db hok)
  | moveStalledJobsToWait queue maxStalled now maxCheckTime =>
    exact h.of_all (moveStalledJobsToWait_calm db queue maxStalled now maxCheckTime)
  | removeChildDependency child now =>
    exact orUnchanged_rec h fun _ hok => h.of_all (removeChildDependency_calm db hok)
  | removeUnprocessedChildren k => exact h.of_calm (removeUnprocessedChildren_calm db k) hsafe
  | pause queue paused =>
    refine h.of_all (.publish (.of_tables (.refl db) ?_ ?_ ?_) _ _)
    all_goals exact rfl
  | configure => exact h.of_all (.of_tables (.refl db) rfl rfl rfl)
  | setRateLimit => exact h.of_all (.of_tables (.refl db) rfl rfl rfl)
  | drain queue delayed => exact h.sweep hsafe
  | remove k removeChildren now => exact orUnchanged_rec h fun _ hok => h.remove hok
  | clean queue type ts limit =>
    simp only [Command.exec, clean_eq_sweep]
    split
    · exact h
    · exact (h.sweep hsafe).of_all (.publish (.refl _) _ _)
  | retryJobs queue state count timestamp =>
    exact h.of_all (retryJobs_calm db queue state count timestamp)
  | promoteJobs queue count => exact h.of_all (promoteJobs_calm db queue count)
  | promote k => exact h.of_all (promote_calm db k)
  | changeDelay k delay now => exact h.of_all (changeDelay_calm db k delay now)
  | changePriority k priority lifo => exact h.of_all (changePriority_calm db k priority lifo)
  | reprocessJob k state lifo resetMade resetStarted =>
    exact h.of_all (reprocessJob_calm db k state lifo resetMade resetStarted)
  | obliterate queue count force => exact h.obliterate hsafe
  | addJobScheduler queue a =>
    refine orUnchanged_rec h fun _ hok => ?_
    refine h.of_calm (K := fun k => ∃ d, db.LastingKey k d) ?_ fun k d hk => ⟨d, hk⟩
    refine addJobScheduler_calm db (fun k hk hdel ⟨d, hlast⟩ => ?_) hok
    rw [hsafe k d hlast hk] at hdel
    cases hdel
  | updateJobSchedulerNextMillis queue a =>
    exact h.of_all (updateJobSchedulerNextMillis_calm db queue a)
  | removeJobScheduler queue schedulerId =>
    refine h.of_calm (K := fun k => ∃ d, db.LastingKey k d) ?_ fun k d hk => ⟨d, hk⟩
    refine removeJobScheduler_calm db queue schedulerId fun k hk hdelayed ⟨d, hlast⟩ => ?_
    exact absurd hdelayed (Bool.eq_false_iff.mp (hsafe k d hlast hk))
  | skip => exact h.of_all (.of_tables (.refl db) rfl rfl rfl)

theorem keysHeld_run (cmds : List Command)
    (hsafe : ∀ before cmd after, cmds = before ++ cmd :: after →
      cmd.KeysSafe (runCommands before .empty)) : KeysHeld (runCommands cmds .empty) := by
  induction cmds using List.reverseRecOn with
  | nil =>
    intro q d row hrow
    cases hrow
  | append_singleton cmds cmd ih =>
    rw [runCommands_append]
    refine keysHeld_exec (ih fun before cmd' after heq => ?_) cmd (hsafe cmds cmd [] rfl)
    refine hsafe before cmd' (after ++ [cmd]) ?_
    rw [heq, List.append_assoc, List.cons_append]

/-- In every run whose commands meet their conditions, a key without an expiry names a job that
exists and is neither completed nor failed. -/
theorem lasting_keys_held (cmds : List Command)
    (hsafe : ∀ before cmd after, cmds = before ++ cmd :: after →
      cmd.KeysSafe (runCommands before .empty)) (q d : String) (row : DedupRow)
    (hrow : (runCommands cmds .empty).dedup.find (q, d) = some row) (hlasts : row.expireAt = none) :
    ∃ job, (runCommands cmds .empty).job.find ⟨q, row.jobId⟩ = some job ∧
      job.state ≠ .completed ∧ job.state ≠ .failed := by
  obtain ⟨-, job, hjob, hholds⟩ := keysHeld_run cmds hsafe q d row hrow hlasts
  exact ⟨job, hjob, hholds.not_completed, hholds.not_failed⟩

/-- A job with a deduplication id and no time to live. -/
def keyedJob : Entry :=
  { queue := "q", id := "x", name := "n", data := "{}", timestamp := 0
    opts := { deduplication := some { id := "d" } }, dedupId := some "d" }

/-- The key of a job that was just added is held by it. -/
theorem keyedJob_key_held :
    ∃ job, (runCommands [.addJob keyedJob] .empty).job.find ⟨"q", "x"⟩ = some job ∧
      job.state ≠ .completed ∧ job.state ≠ .failed := by
  refine lasting_keys_held [.addJob keyedJob] (fun before cmd after h => ?_) "q" "d" ⟨"x", none⟩
    (by decide +kernel) rfl
  obtain rfl : before = [] := by
    cases before with
    | nil => rfl
    | cons _ before => simp at h
  obtain ⟨rfl, -⟩ := List.cons.inj h
  intro de hde
  obtain rfl : de = { id := "d" } := by
    have hopts : keyedJob.dedupOpts = some { id := "d" } := by decide
    exact (Option.some.inj (hopts.symm.trans hde)).symm
  refine ⟨rfl, fun w hw => ?_, fun k hk => ?_, fun _ _ => .inr (.inl ⟨?_, ?_⟩)⟩
  · cases hw
  · cases hk
  · decide +kernel
  · exact fun hflow => by cases hflow

/-- Draining the queue deletes the job and leaves its key, which blocks the id for ever. -/
theorem drained_winner_dangles :
    (runCommands [.addJob keyedJob, .drain "q" false] .empty).dedup.find ("q", "d") =
        some ⟨"x", none⟩ ∧
      (runCommands [.addJob keyedJob, .drain "q" false] .empty).job.find ⟨"q", "x"⟩ = none ∧
      ¬ ∃ job, (runCommands [.addJob keyedJob, .drain "q" false] .empty).job.find ⟨"q", "x"⟩ =
        some job ∧ job.state ≠ .completed ∧ job.state ≠ .failed := by
  have hgone : (runCommands [.addJob keyedJob, .drain "q" false] .empty).job.find ⟨"q", "x"⟩ =
      none := by decide +kernel
  refine ⟨by decide +kernel, hgone, ?_⟩
  rintro ⟨job, hjob, -⟩
  rw [hgone] at hjob
  cases hjob

end BullMQ.Postgres
