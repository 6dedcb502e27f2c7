import BullMQ.Postgres.Holders

/-!
# Admission of adds

What an add with deduplication options does to the key of its id, in terms of the tables before it:
`Decision` tells apart the adds that are dropped in favour of a live winner, with or without being
kept as its successor, and those that are admitted, which may replace a delayed winner. What follows
an admission leaves the keys alone (`addJob_admits`, `addFlowEntry_admits`).
-/

namespace BullMQ.Postgres

open Sql

/-- The winner that a key names, unless it has expired. -/
def Db.liveWinner (db : Db) (queue dedupId : String) (now : ℤ) : Option String :=
  (db.dedup.find (queue, dedupId)).bind fun row => row.winner now

/-- Whether a job is in a state. -/
def Db.isIn (db : Db) (k : JobKey) (state : JobState) : Bool :=
  (db.job.find k).any fun row => decide (row.state = state)

/-- The delayed winner that an add replaces. -/
def Db.replaced (db : Db) (queue : String) (de : DeduplicationOpts) (now : ℤ) : Option JobKey :=
  if de.replace then
    ((db.liveWinner queue de.id now).map (JobKey.mk queue)).filter fun k => db.isIn k .delayed
  else none

/-- The tables without the job that an add replaces. -/
def Db.cleared (db : Db) (queue : String) (de : DeduplicationOpts) (now : ℤ) : Db :=
  match db.replaced queue de now with
  | none => db
  | some k => db.deleteJob k

/-- Whether an add is kept as the successor of an active winner. -/
def Db.storesNext (db : Db) (queue : String) (de : DeduplicationOpts) (now : ℤ) : Bool :=
  de.keepLastIfActive && (db.liveWinner queue de.id now).any fun w => db.isIn ⟨queue, w⟩ .active

/-- The expiry that options give to a new key. -/
def expiryOf (de : DeduplicationOpts) (now : ℤ) : Option ℤ :=
  if de.keepLastIfActive then none
  else if 0 < de.ttl.getD 0 then some (now + de.ttl.getD 0) else none

/-- The expiry that an add which is dropped leaves to the key. -/
def Db.droppedExpiry (db : Db) (queue : String) (de : DeduplicationOpts) (now : ℤ)
    (expireAt : Option ℤ) : Option ℤ :=
  if db.storesNext queue de now then none
  else if ¬ de.replace ∧ 0 < de.ttl.getD 0 ∧ de.extend then expiryOf de now
  else expireAt

/-- The expiry of the key after an admission: a replacement with a time to live that is not extended
keeps that of the key. -/
def Db.admittedExpiry (db : Db) (queue : String) (de : DeduplicationOpts) (now : ℤ) : Option ℤ :=
  if (db.replaced queue de now).isSome ∧ ¬ de.keepLastIfActive ∧ ¬ de.extend ∧
      0 < de.ttl.getD 0 then
    (db.dedup.find (queue, de.id)).bind DedupRow.expireAt
  else expiryOf de now

/-- What `deduplicateJob` decides. -/
inductive Decision (queue : String) (de : DeduplicationOpts) (jobId : String) (now : ℤ)
    (payload : DedupPayload) (db : Db) : Option String → Db → Prop
  | off {db' : Db} (hid : de.id = "") (hjob : db'.job = db.job) (hdedup : db'.dedup = db.dedup)
      (hnext : db'.dedupNext = db.dedupNext) : Decision queue de jobId now payload db none db'
  | dropped {row : DedupRow} {db' : Db} (hid : de.id ≠ "")
      (hrow : db.dedup.find (queue, de.id) = some row)
      (hlive : db.liveWinner queue de.id now = some row.jobId)
      (hreplaced : db.replaced queue de now = none)
      (hjob : db'.job = db.job)
      (hdedup : ∀ key, db'.dedup.find key = if key = (queue, de.id) then
        some { row with expireAt := db.droppedExpiry queue de now row.expireAt }
        else db.dedup.find key)
      (hnext : ∀ key, db'.dedupNext.find key =
        if key = (queue, de.id) ∧ db.storesNext queue de now = true then some payload
        else db.dedupNext.find key) :
      Decision queue de jobId now payload db (some row.jobId) db'
  | admitted {db' : Db} (hid : de.id ≠ "")
      (hlive : db.liveWinner queue de.id now = none ∨ (db.replaced queue de now).isSome = true)
      (hjob : db'.job = (db.cleared queue de now).job)
      (hdedup : ∀ key, db'.dedup.find key = if key = (queue, de.id) then
        some ⟨jobId, db.admittedExpiry queue de now⟩ else db.dedup.find key)
      (hnext : db'.dedupNext = db.dedupNext) :
      Decision queue de jobId now payload db none db'

section Decide

variable {queue : String} {de : DeduplicationOpts} {now : ℤ} {db : Db}

theorem find_updateDedup (db : Db) {row : DedupRow} (hrow : db.dedup.find (queue, de.id) = some row)
    (f : DedupRow → DedupRow) (key : String × String) :
    (db.updateDedup queue de.id f).dedup.find key =
      if key = (queue, de.id) then some (f row) else db.dedup.find key := by
  rw [Db.updateDedup, Table.find_updateKey]
  split
  · next heq =>
    rw [heq, hrow]
    rfl
  · rfl

theorem find_setDedup (db : Db) (queue d : String) (row : DedupRow) (key : String × String) :
    (db.setDedup queue d row).dedup.find key =
      if key = (queue, d) then some row else db.dedup.find key := by
  rw [Db.setDedup, Table.find_upsert]
  split
  · cases db.dedup.find (queue, d) <;> rfl
  · rfl

/-- An add that `dedupStoreNext` keeps or not. -/
theorem dedupStoreNext_spec (jobId name data : String) (opts : JobsOptions) {row : DedupRow}
    (hrow : db.dedup.find (queue, de.id) = some row)
    (hlive : db.liveWinner queue de.id now = some row.jobId) :
    let r := dedupStoreNext queue de.id row.jobId jobId de.keepLastIfActive name data opts db
    r.1 = db.storesNext queue de now ∧ r.2.job = db.job ∧
      (∀ key, r.2.dedup.find key = if key = (queue, de.id) then
        some { row with expireAt := if db.storesNext queue de now then none else row.expireAt }
        else db.dedup.find key) ∧
      ∀ key, r.2.dedupNext.find key =
        if key = (queue, de.id) ∧ db.storesNext queue de now = true then
          some ⟨name, data, opts, jobId⟩ else db.dedupNext.find key := by
  have hstores : db.storesNext queue de now =
      (de.keepLastIfActive && db.isIn ⟨queue, row.jobId⟩ .active) := by
    rw [Db.storesNext, hlive]
    rfl
  have hsame : ∀ key, db.dedup.find key =
      if key = (queue, de.id) then some row else db.dedup.find key := by
    intro key
    split
    · next heq => rw [heq, hrow]
    · rfl
  unfold dedupStoreNext
  split
  · next h =>
    have htrue : db.storesNext queue de now = true := by
      rw [hstores, h.1]
      exact h.2
    simp only [htrue, if_true, and_true]
    refine ⟨trivial, rfl, fun key => ?_, fun key => ?_⟩
    · exact find_updateDedup { db with dedupNext := _ } hrow _ key
    · simp only [Db.updateDedup, Table.find_upsert]
      split
      · cases db.dedupNext.find (queue, de.id) <;> rfl
      · rfl
  · next h =>
    have hfalse : db.storesNext queue de now = false := by
      rw [hstores]
      by_contra hcon
      simp only [Bool.not_eq_false, Bool.and_eq_true] at hcon
      exact h hcon
    simp only [hfalse, if_false, and_false, Bool.false_eq_true]
    exact ⟨trivial, trivial, hsame, fun _ => trivial⟩

theorem deduplicateJob_decides (queue : String) (de : DeduplicationOpts) (jobId : String) (now : ℤ)
    (name data : String) (opts : JobsOptions) (db : Db) :
    Decision queue de jobId now ⟨name, data, opts, jobId⟩ db
      (deduplicateJob queue de jobId now name data opts db).1
      (deduplicateJob queue de jobId now name data opts db).2 := by
  unfold deduplicateJob
  split
  · next hid => exact .off hid rfl rfl rfl
  next hid =>
  -- Either the row of the id names a live winner, or the add is free to take the key.
  have hwinner : ∀ w, ((db.dedup.find (queue, de.id)).bind fun row => row.winner now) = some w →
      ∃ row, db.dedup.find (queue, de.id) = some row ∧ row.jobId = w ∧
        db.liveWinner queue de.id now = some row.jobId := by
    intro w hw
    obtain ⟨row, hrow, hlive⟩ := Option.bind_eq_some_iff.mp hw
    have heq : row.jobId = w := by
      unfold DedupRow.winner at hlive
      -- A replacing add removes the winner if it is delayed; otherwise the add is dropped for it.
      split at hlive
      · cases hlive
      · exact Option.some.inj hlive
    exact ⟨row, hrow, heq, by rw [Db.liveWinner, hw, heq]⟩
  have hfree : ((db.dedup.find (queue, de.id)).bind fun row => row.winner now) = none →
      db.replaced queue de now = none ∧ db.admittedExpiry queue de now = expiryOf de now ∧
        (db.cleared queue de now).job = db.job := by
    intro hnone
    have hreplaced : db.replaced queue de now = none := by
      rw [Db.replaced, Db.liveWinner, hnone]
      split <;> rfl
    refine ⟨hreplaced, ?_, ?_⟩
    · rw [Db.admittedExpiry, hreplaced, if_neg (by simp)]
    · rw [Db.cleared, hreplaced]
  dsimp only
  split
  · next hreplace =>
    split
    · next w hw =>
      obtain ⟨row, hrow, rfl, hlive⟩ := hwinner w hw
      have hdelayed : db.replaced queue de now =
          if db.isIn ⟨queue, row.jobId⟩ .delayed then some ⟨queue, row.jobId⟩ else none := by
        rw [Db.replaced, if_pos hreplace, hlive]
        rfl
      split
      · next hstate =>
        have hreplaced : db.replaced queue de now = some ⟨queue, row.jobId⟩ :=
          hdelayed.trans (if_pos hstate)
        refine .admitted hid (.inr (by rw [hreplaced]; rfl)) ?_ (fun key => ?_) ?_
        · rw [Db.cleared, hreplaced]
          simp [Db.updateDedup]
        · rw [find_updateDedup _ (by simpa [Db.deleteJob, Db.deleteJobs] using hrow)]
          simp only [publishEvent_dedup]
          refine if_congr Iff.rfl ?_ rfl
          rw [Db.admittedExpiry, hreplaced, expiryOf, hrow]
          by_cases hkeep : de.keepLastIfActive = true
          · simp [hkeep]
          · by_cases hold : ¬ de.extend = true ∧ 0 < de.ttl.getD 0
            · simp [hkeep, hold]
            · rw [if_neg hkeep, if_neg hold,
                if_neg (show ¬ (_ ∧ _ ∧ _ ∧ _) from fun h => hold h.2.2),
                if_neg hkeep]
        · simp [Db.updateDedup, Db.deleteJob, Db.deleteJobs]
      · next hstate =>
        have hreplaced : db.replaced queue de now = none := hdelayed.trans (if_neg hstate)
        obtain ⟨-, hjob, hdedup, hnext⟩ := dedupStoreNext_spec jobId name data opts hrow hlive
        refine .dropped hid hrow hlive hreplaced hjob (fun key => ?_) hnext
        rw [hdedup, Db.droppedExpiry]
        simp [hreplace]
    · next hnone =>
      obtain ⟨-, hexpiry, hjob⟩ := hfree hnone
      refine .admitted hid (.inl hnone) hjob.symm (fun key => ?_) rfl
      rw [find_setDedup, hexpiry, expiryOf]
  split
  · -- An extending add refreshes the expiry of the row, unless it was stored as its successor.
    next hreplace hextend =>
    have hreplaced : db.replaced queue de now = none := if_neg hreplace
    split
    · next w hw =>
      obtain ⟨row, hrow, rfl, hlive⟩ := hwinner w hw
      obtain ⟨hstored, hjob, hdedup, hnext⟩ := dedupStoreNext_spec jobId name data opts hrow hlive
      refine .dropped hid hrow hlive hreplaced ?_ (fun key => ?_) fun key => ?_
      · rw [publishEvent_job]
        split
        · exact hjob
        · exact hjob
      · rw [publishEvent_dedup, hstored, Db.droppedExpiry, expiryOf]
        split
        · next hs =>
          rw [hdedup]
          simp [hs]
        · next hs =>
          have hrow' := (hdedup (queue, de.id)).trans (if_pos rfl)
          rw [find_updateDedup _ hrow', hdedup]
          by_cases hkey : key = (queue, de.id) <;> simp [hkey, hreplace, hextend]
      · rw [publishEvent_dedupNext]
        split
        · exact hnext key
        · exact hnext key
    · next hnone =>
      obtain ⟨-, hexpiry, hjob⟩ := hfree hnone
      refine .admitted hid (.inl hnone) hjob.symm (fun key => ?_) rfl
      rw [find_setDedup, hexpiry, expiryOf]
      simp [hextend.1]
  · -- A plain add only keeps its payload where `keepLastIfActive` asks for it.
    next hreplace hextend =>
    have hreplaced : db.replaced queue de now = none := if_neg hreplace
    split
    · next w hw =>
      obtain ⟨row, hrow, rfl, hlive⟩ := hwinner w hw
      obtain ⟨-, hjob, hdedup, hnext⟩ := dedupStoreNext_spec jobId name data opts hrow hlive
      refine .dropped hid hrow hlive hreplaced ?_ (fun key => ?_) fun key => ?_
      · rw [publishEvent_job]
        exact hjob
      · rw [publishEvent_dedup, hdedup, Db.droppedExpiry]
        simp [hextend]
      · rw [publishEvent_dedupNext]
        exact hnext key
    · next hnone =>
      obtain ⟨-, hexpiry, hjob⟩ := hfree hnone
      refine .admitted hid (.inl hnone) hjob.symm (fun key => ?_) rfl
      rw [find_setDedup, hexpiry, expiryOf]

/-- The ids that have been drawn do not matter. -/
theorem Decision.of_draw {jobId : String} {payload : DedupPayload} {ids : String → ℕ}
    {winner : Option String} {mid : Db}
    (h : Decision queue de jobId now payload { db with jobIdSeq := ids } winner mid) :
    Decision queue de jobId now payload db winner mid := by
  cases h with
  | off hid hjob hdedup hnext => exact .off hid hjob hdedup hnext
  | dropped hid hrow hlive hreplaced hjob hdedup hnext =>
    exact .dropped hid hrow hlive hreplaced hjob hdedup hnext
  | admitted hid hlive hjob hdedup hnext =>
    refine .admitted hid hlive (hjob.trans ?_) hdedup hnext
    have hreplaced : Db.replaced { db with jobIdSeq := ids } queue de now =
        db.replaced queue de now := rfl
    simp only [Db.cleared, hreplaced]
    cases db.replaced queue de now <;> rfl

end Decide

/-! ### Adds -/

/-- The deduplication options by which an entry is added, if it has a deduplication id. -/
def Entry.dedupOpts (e : Entry) : Option DeduplicationOpts :=
  (e.dedupId.filter fun dedupId => decide (dedupId ≠ "")).map fun dedupId =>
    e.opts.deduplication.getD { id := dedupId }

/-- The key of the job that an entry adds. -/
def Entry.key (e : Entry) (db : Db) : JobKey := ⟨e.queue, (e.drawId db).1⟩

/-- The payload of an entry that is kept as a successor. -/
def Entry.payload (e : Entry) (db : Db) : DedupPayload := ⟨e.name, e.data, e.opts, (e.drawId db).1⟩

/-- Whether an add under an id that exists is refused, since the job has another parent. -/
def Entry.otherParent (e : Entry) (db : Db) (k : JobKey) : Bool :=
  e.parent.any fun parent => ((db.job.find k).bind JobRow.parent).any fun other =>
    decide (other ≠ parent) && db.jobExists other

/-- How deduplication ends for an entry, with the tables it leaves. -/
inductive Entry.Admits (e : Entry) (db : Db) : Option String → Db → Prop
  | plain {mid : Db} (hopts : e.dedupOpts = none) (hjob : mid.job = db.job)
      (hdedup : mid.dedup = db.dedup) (hnext : mid.dedupNext = db.dedupNext) :
      Entry.Admits e db none mid
  | decided {de : DeduplicationOpts} {winner : Option String} {mid : Db}
      (hopts : e.dedupOpts = some de)
      (h : Decision e.queue de (e.drawId db).1 e.timestamp (e.payload db) db winner mid) :
      Entry.Admits e db winner mid

theorem Entry.drawId_frame (e : Entry) (db : Db) :
    ∃ ids, (e.drawId db).2 = { db with jobIdSeq := ids } := by
  unfold Entry.drawId
  split
  · exact ⟨_, rfl⟩
  · exact ⟨db.jobIdSeq, rfl⟩

theorem Entry.deduplicate_admits (e : Entry) (db : Db) :
    e.Admits db (e.deduplicate (e.drawId db).1 (e.drawId db).2).1
      (e.deduplicate (e.drawId db).1 (e.drawId db).2).2 := by
  obtain ⟨ids, hdraw⟩ := e.drawId_frame db
  rw [hdraw]
  unfold Entry.deduplicate
  split
  · next hnone =>
    refine .plain ?_ rfl rfl rfl
    rw [Entry.dedupOpts, hnone]
    rfl
  · next dedupId hid =>
    split
    · next hempty =>
      refine .plain ?_ rfl rfl rfl
      rw [Entry.dedupOpts, hid, hempty]
      rfl
    · next hne =>
      refine .decided ?_ (deduplicateJob_decides _ _ _ _ _ _ _ _).of_draw
      rw [Entry.dedupOpts, hid, Option.filter_some, if_pos (by simpa using hne)]
      rfl

section Adds

variable {e : Entry} {db : Db}

/-- A job that is added is a holder of its deduplication id. -/
theorem holds_of_insert (mid : Db) {seq : ℤ} {state : JobState} {processAt : Option ℤ} {k : JobKey}
    (hstate : state ≠ .completed ∧ state ≠ .failed) (hnone : mid.job.find k = none)
    (parent : Option JobKey) {d : String} (hd : e.dedupId = some d) :
    ∃ row, (registerChild k parent
      { mid with job := mid.job.insert k (e.row seq state processAt) }).job.find k = some row ∧
      row.Holds d := by
  have hfind : (mid.job.insert k (e.row seq state processAt)).find k =
      some (e.row seq state processAt) := by
    rw [Table.find_insert, if_pos rfl, hnone]
    rfl
  have hcalm : Calm (fun _ => True) { mid with job := mid.job.insert k (e.row seq state processAt) }
    (registerChild k parent { mid with job := mid.job.insert k (e.row seq state processAt) }) :=
    registerChild_calm _ _ _
  obtain ⟨row, hrow, -, hholds⟩ := hcalm.holders d k _ hfind ⟨trivial, hstate.1, hstate.2, hd⟩
  exact ⟨row, hrow, hholds⟩

theorem Entry.state_cases (e : Entry) : e.state = .delayed ∨ e.state = .waiting := by
  unfold Entry.state
  split
  · exact .inl rfl
  · exact .inr rfl

/-- An add under an id that exists fails exactly if the job has another parent. -/
theorem handleDuplicatedJob_code (e : Entry) (db : Db) (k : JobKey) :
    (handleDuplicatedJob k e.parent e.timestamp db).1 = -7 ↔ e.otherParent db k = true := by
  unfold handleDuplicatedJob Entry.otherParent
  cases e.parent with
  | none => simp
  | some parent =>
    dsimp only [Option.any_some]
    split
    · next h => exact iff_of_true rfl h
    · next h =>
      refine iff_of_false (fun hcode => ?_) h
      cases hcode

theorem otherParent_of_new {k : JobKey} (h : db.job.find k = none) :
    e.otherParent db k = false := by
  rw [Entry.otherParent, h]
  cases e.parent <;> rfl

/-- What follows the deduplication of an add that does not fail. -/
theorem addJob_admits {r : String × Db} (h : addJob e db = .ok r) :
    ∃ winner mid, e.Admits db winner mid ∧ (∀ {K}, Calm K mid r.2) ∧
      (winner = none → e.parentMissing mid = false ∧ e.otherParent mid (e.key db) = false ∧
        ∀ d, e.dedupId = some d → mid.job.find (e.key db) = none →
          ∃ row, r.2.job.find (e.key db) = some row ∧ row.Holds d) := by
  refine ⟨_, _, e.deduplicate_admits db, ?_⟩
  unfold addJob at h
  dsimp only at h
  -- Deduplicated, the call has done all its work.
  split at h
  · next winner hwinner =>
    cases h
    refine ⟨.refl _, fun hnone => ?_⟩
    rw [hwinner] at hnone
    cases hnone
  -- Not deduplicated: the add fails, hands an existing job to the parent, or inserts a new row.
  split at h
  · cases h
  next hparent =>
  set mid := (e.deduplicate (e.drawId db).1 (e.drawId db).2).2
  split at h
  · next hexists =>
    split at h
    · cases h
    · next hcode =>
      cases h
      refine ⟨.trans ?_ (handleDuplicatedJob_calm _ _ _ _), fun _ => ⟨by simpa using hparent, ?_,
        fun d _ hnone => ?_⟩⟩
      · exact .of_tables (.refl _) rfl rfl rfl
      · rw [handleDuplicatedJob_code] at hcode
        exact Bool.eq_false_of_not_eq_true hcode
      · exact absurd (Option.isSome_iff_ne_none.mp hexists) (not_not_intro hnone)
  · next hexists =>
    cases h
    have hnone : mid.job.find (e.key db) = none := Option.not_isSome_iff_eq_none.mp hexists
    refine ⟨.publish (.publish (.trans ?_ (registerChild_calm _ _ _)) _ _) _ _, fun _ =>
      ⟨by simpa using hparent, otherParent_of_new hnone, fun d hd _ => ?_⟩⟩
    · apply Calm.insert (.refl mid)
      all_goals exact rfl
    · simp only [publishEvent_job]
      refine holds_of_insert mid.nextJobSeq.2 ?_ hnone _ hd
      obtain hstate | hstate := e.state_cases
      all_goals rw [hstate]; decide

/-- What follows the deduplication of an entry of a flow. -/
theorem addFlowEntry_admits (acc : FlowAcc) (e : Entry) :
    ∃ winner mid, e.Admits acc.db winner mid ∧ (∀ {K}, Calm K mid (addFlowEntry acc e).db) ∧
      (winner = none → e.parentMissing mid = false →
        ∀ d, e.dedupId = some d → mid.job.find (e.key acc.db) = none →
          ∃ row, (addFlowEntry acc e).db.job.find (e.key acc.db) = some row ∧ row.Holds d) := by
  refine ⟨_, _, e.deduplicate_admits acc.db, ?_⟩
  unfold addFlowEntry
  dsimp only
  set mid := (e.deduplicate (e.drawId acc.db).1 (e.drawId acc.db).2).2
  split
  · next winner hwinner =>
    refine ⟨.refl _, fun hnone => ?_⟩
    rw [hwinner] at hnone
    cases hnone
  split
  · next hparent =>
    refine ⟨.refl _, fun _ hnot => ?_⟩
    rw [hnot] at hparent
    cases hparent
  split
  · next hexists =>
    have hsome : mid.job.find (e.key acc.db) ≠ none := Option.isSome_iff_ne_none.mp hexists
    split
    · refine ⟨.trans ?_ (handleDuplicatedJob_calm _ _ _ _), fun _ _ d _ hnone => absurd hnone hsome⟩
      exact .of_tables (.refl _) rfl rfl rfl
    · exact ⟨.of_tables (.refl _) rfl rfl rfl, fun _ _ d _ hnone => absurd hnone hsome⟩
  · refine ⟨.trans ?_ (registerChild_calm _ _ _), fun _ _ d hd hnone => ?_⟩
    · apply Calm.insert (.refl mid)
      all_goals exact rfl
    · refine holds_of_insert mid.nextJobSeq.2 ?_ hnone _ hd
      unfold Entry.flowState
      split
      · decide
      · obtain hstate | hstate := e.state_cases
        all_goals rw [hstate]; decide

end Adds

/-! ### Ends of keys -/

/-- A successor whose key will not expire. -/
def DedupPayload.lasting (payload : DedupPayload) : Prop :=
  (payload.opts.deduplication.map DeduplicationOpts.keepLastIfActive).getD false = true ∨
    (payload.opts.deduplication.bind DeduplicationOpts.ttl).getD 0 ≤ 0

instance (payload : DedupPayload) : Decidable payload.lasting := inferInstanceAs (Decidable (_ ∨ _))

/-- The key of the job that a successor becomes. -/
def Db.successor (db : Db) (queue : String) (payload : DedupPayload) : JobKey :=
  ⟨queue, if payload.jobId = "" then (db.jobIdSeq queue + 1).repr else payload.jobId⟩

theorem DedupPayload.row_holds (payload : DedupPayload) (seq : ℤ) (d : String) (now : ℤ) :
    (payload.row seq d now).Holds d := by
  have hstate : (payload.row seq d now).state = .delayed ∨
      (payload.row seq d now).state = .waiting := by
    simp only [DedupPayload.row]
    split
    · exact .inl rfl
    · exact .inr rfl
  refine ⟨?_, ?_, rfl⟩
  all_goals obtain h | h := hstate <;> rw [h] <;> decide

/-- A kept successor becomes a holder, unless its id is taken. -/
theorem requeueDedupNext_cases (queue : String) (dedupId : Option String) (now : ℤ) (db : Db) :
    (requeueDedupNext queue dedupId now db = db ∧
      ∀ d, dedupId = some d → d ≠ "" → db.dedupNext.find (queue, d) = none) ∨
    ∃ d payload row, dedupId = some d ∧ d ≠ "" ∧ db.dedupNext.find (queue, d) = some payload ∧
      row.Holds d ∧
      (requeueDedupNext queue dedupId now db).job =
        db.job.insert (db.successor queue payload) row ∧
      (∀ key, (requeueDedupNext queue dedupId now db).dedup.find key = if key = (queue, d) then
        some ⟨(db.successor queue payload).id, if payload.lasting then none
          else some (now + (payload.opts.deduplication.bind DeduplicationOpts.ttl).getD 0)⟩
        else db.dedup.find key) ∧
      (requeueDedupNext queue dedupId now db).dedupNext = db.dedupNext.deleteKey (queue, d) := by
  unfold requeueDedupNext
  split
  · exact .inl ⟨rfl, fun d hd => by cases hd⟩
  next d =>
  split
  · next hempty =>
    refine .inl ⟨rfl, fun d' hd' hne => absurd ?_ hne⟩
    cases hd'
    exact hempty
  next hne =>
  split
  · next hnone =>
    refine .inl ⟨rfl, fun d' hd' _ => ?_⟩
    cases hd'
    exact hnone
  next payload hpayload =>
  refine .inr ⟨d, payload, payload.row (db.jobSeq + 1) d now, rfl, hne, hpayload,
    payload.row_holds _ _ _, ?_⟩
  -- The id is the payload's own or drawn, and the event depends on the delay.
  have hid : ∃ ids, (if payload.jobId = "" then db.nextJobId queue else (payload.jobId, db)) =
      ((db.successor queue payload).id, { db with jobIdSeq := ids }) := by
    unfold Db.successor
    split
    · exact ⟨_, rfl⟩
    · exact ⟨db.jobIdSeq, rfl⟩
  obtain ⟨ids, hid⟩ := hid
  rw [hid]
  dsimp only
  split
  · simp only [publishEvent_job, publishEvent_dedup, publishEvent_dedupNext]
    exact ⟨rfl, fun key => find_setDedup _ _ _ _ _, rfl⟩
  · simp only [publishEvent_job, publishEvent_dedup, publishEvent_dedupNext]
    exact ⟨rfl, fun key => find_setDedup _ _ _ _ _, rfl⟩

/-- A job that finishes gives up its key without an expiry, and only this key is touched. -/
theorem dedupFinalize_spec (queue : String) (dedupId : Option String) (jobId : String) (now : ℤ)
    (db : Db) :
    (dedupFinalize queue dedupId jobId now db).dedupNext = db.dedupNext ∧
      (dedupFinalize queue dedupId jobId now db).jobIdSeq = db.jobIdSeq ∧
      (∀ key row, (dedupFinalize queue dedupId jobId now db).dedup.find key = some row →
        db.dedup.find key = some row ∧ ¬ (key.1 = queue ∧ dedupId = some key.2 ∧ key.2 ≠ "" ∧
          row.expireAt = none ∧ row.jobId = jobId)) ∧
      ∀ key, ¬ (key.1 = queue ∧ dedupId = some key.2) →
        (dedupFinalize queue dedupId jobId now db).dedup.find key = db.dedup.find key := by
  have hkept : ∀ d, dedupId = some d → ∀ key : String × String,
      ¬ (key.1 = queue ∧ dedupId = some key.2) →
        (db.dedup.deleteKey (queue, d)).find key = db.dedup.find key := by
    intro d hd key hkey
    rw [Table.find_deleteKey, if_neg]
    rintro rfl
    exact hkey ⟨rfl, hd⟩
  have hgone : ∀ d, dedupId = some d → ∀ (key : String × String) (row : DedupRow),
      (db.dedup.deleteKey (queue, d)).find key = some row →
        db.dedup.find key = some row ∧ ¬ (key.1 = queue ∧ dedupId = some key.2 ∧ key.2 ≠ "" ∧
          row.expireAt = none ∧ row.jobId = jobId) := by
    intro d hd key row hfind
    rw [Table.find_deleteKey] at hfind
    split at hfind
    · cases hfind
    · next hne =>
      refine ⟨hfind, ?_⟩
      rintro ⟨hq, hk, -⟩
      refine hne ?_
      obtain rfl : d = key.2 := Option.some.inj (hd.symm.trans hk)
      rw [← hq]
  -- The branches: no id, the empty id, no row, a row that lasts, and a row that expires.
  unfold dedupFinalize
  split
  · exact ⟨rfl, rfl, fun key row hrow => ⟨hrow, fun h => by cases h.2.1⟩, fun _ _ => rfl⟩
  next d =>
  split
  · next hempty =>
    refine ⟨rfl, rfl, fun key row hrow => ⟨hrow, fun h => h.2.2.1 ?_⟩, fun _ _ => rfl⟩
    rw [← Option.some.inj h.2.1]
    exact hempty
  split
  · next hnone =>
    refine ⟨rfl, rfl, fun key row hrow => ⟨hrow, fun h => ?_⟩, fun _ _ => rfl⟩
    have hkey : key = (queue, d) := Prod.ext h.1 (Option.some.inj h.2.1).symm
    rw [hkey, hnone] at hrow
    cases hrow
  next row hrow =>
  split
  · next hlasts =>
    split
    · exact ⟨rfl, rfl, hgone d rfl, hkept d rfl⟩
    · next hother =>
      refine ⟨rfl, rfl, fun key row' hrow' => ⟨hrow', fun h => hother ?_⟩, fun _ _ => rfl⟩
      have hkey : key = (queue, d) := Prod.ext h.1 (Option.some.inj h.2.1).symm
      rw [hkey, hrow] at hrow'
      cases hrow'
      exact h.2.2.2.2
  · next expireAt hexpires =>
    split
    · exact ⟨rfl, rfl, hgone d rfl, hkept d rfl⟩
    · refine ⟨rfl, rfl, fun key row' hrow' => ⟨hrow', fun h => ?_⟩, fun _ _ => rfl⟩
      have hkey : key = (queue, d) := Prod.ext h.1 (Option.some.inj h.2.1).symm
      rw [hkey, hrow] at hrow'
      cases hrow'
      rw [hexpires] at h
      cases h.2.2.2.1

/-- A job that is removed gives up its key. -/
theorem dedupOnRemoval_spec (queue jobId : String) (dedupId : Option String) (db : Db) :
    (dedupOnRemoval queue jobId dedupId db).dedupNext = db.dedupNext ∧
      ∀ key row, (dedupOnRemoval queue jobId dedupId db).dedup.find key = some row ↔
        db.dedup.find key = some row ∧
          ¬ (key.1 = queue ∧ dedupId = some key.2 ∧ key.2 ≠ "" ∧ row.jobId = jobId) := by
  unfold dedupOnRemoval
  split
  · exact ⟨rfl, fun key row => by simp⟩
  next d =>
  split
  · next hempty =>
    refine ⟨rfl, fun key row => ⟨fun h => ⟨h, fun h' => h'.2.2.1 ?_⟩, And.left⟩⟩
    rw [← Option.some.inj h'.2.1]
    exact hempty
  · next hne =>
    refine ⟨rfl, fun key row => ?_⟩
    rw [Table.find_delete, Option.filter_eq_some_iff]
    refine and_congr_right fun _ => ?_
    obtain ⟨q, d'⟩ := key
    simp only [Prod.mk.injEq, Option.some.injEq, Bool.not_eq_true', Bool.and_eq_false_iff,
      decide_eq_false_iff_not, ne_eq]
    constructor
    · rintro (h | h) ⟨rfl, rfl, -, hid⟩
      · exact h ⟨rfl, rfl⟩
      · exact h hid
    · intro h
      by_cases hkey : q = queue ∧ d' = d
      · obtain ⟨rfl, rfl⟩ := hkey
        exact .inr fun hid => h ⟨rfl, rfl, hne, hid⟩
      · exact .inl hkey

end BullMQ.Postgres
