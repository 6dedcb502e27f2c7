import BullMQ.Dedup.Adds
import BullMQ.Model.Bulk

/-!
# Bulks and single adds

What an add does to the jobs that exist is decided by the store it finds (`BulkEntry.fate`): it is
refused, finds its id in use, is dropped in favour of the holder of its deduplication key, or stores
a job, maybe in place of a delayed one. A bulk runs the same scripts as single adds and leaves the
same store, but hands out what `addJob` would throw as if it were an id (`addJobs_agrees_iff`).
-/

namespace BullMQ

open Redis

/-! ### The fate of an entry -/

/-- What becomes of an entry. -/
inductive Fate
  | refused (code : ℤ)
  /-- A job with its id exists. -/
  | known (jobId : String)
  /-- Its deduplication key is held. -/
  | dropped (winner : String)
  /-- It is stored, and replaces a delayed job. -/
  | stored (jobId : String) (replaced : Option String)
  deriving DecidableEq, Repr

/-- The existing job `jobId` has another parent, which exists, than the one it is added under. -/
def reparents (p : String) (e : BulkEntry) (s : Store) : Bool :=
  (s.parentOf (p ++ e.args.customId)).any fun P =>
    e.args.parent.any fun P' => P.key ≠ P'.key && s.jobExists P.key

/-- The id of a job that is held against the entry by its deduplication key. -/
def BulkEntry.holder (p : String) (e : BulkEntry) (s : Store) :
    Option (DeduplicationOpts × String) :=
  e.args.opts.de.bind fun de => (s .de (deduplicationKey p de.id)).map fun key => (de, key.jobId)

/-- What becomes of an entry, given the store it finds. -/
def BulkEntry.fate (p : String) (e : BulkEntry) (s : Store) : Fate :=
  if e.args.parent.any fun P => !s.jobExists P.key then .refused (-5)
  else if e.args.customId ≠ "" ∧ s.jobExists (p ++ e.args.customId) then
    if reparents p e s then .refused (-7) else .known e.args.customId
  else
    let jobId := if e.args.customId = "" then (s .id p + 1).repr else e.args.customId
    match e.holder p s with
    | none => .stored jobId none
    | some (de, winner) =>
      if ¬ e.addToWaitingChildren ∧ de.replace ∧ winner ∈ s (.zset .delayed) p then
        .stored jobId (some winner)
      else .dropped winner

/-- The id that stands for an entry. -/
def Fate.answer : Fate → Option String
  | refused _ => none
  | known jobId => some jobId
  | dropped winner => some winner
  | stored jobId _ => some jobId

/-- The reply to an entry. -/
def Fate.reply : Fate → Reply
  | refused code => .code code
  | known jobId => .id jobId
  | dropped winner => .id winner
  | stored jobId _ => .id jobId

/-- The entry stores the job `j`. -/
def Fate.Stores (f : Fate) (j : String) : Prop := ∃ replaced, f = .stored j replaced

/-- The entry deletes the job `j`. -/
def Fate.Deletes (f : Fate) (j : String) : Prop := ∃ i ≠ j, f = .stored i (some j)

/-- A reply, and a store in which the jobs are those of `s` but for what the fate says. -/
structure Fate.Meets (f : Fate) (p : String) (s : Store) (r : Reply × Store) : Prop where
  reply : r.1 = f.reply
  exist : ∀ j, r.2.jobExists (p ++ j) = true ↔
    (s.jobExists (p ++ j) = true ∧ ¬ f.Deletes j) ∨ f.Stores j

/-! ### An add meets its fate -/

section Fate

variable {p j : String} {e : BulkEntry} {s : Store}

/-- What a deduplication decides, and which job it deletes. -/
structure Decides (replaceable : Prop) (p : String) (de : DeduplicationOpts) (s : Store)
    (r : Option String × Store) : Prop where
  free : s .de (deduplicationKey p de.id) = none → r.1 = none ∧ r.2 .hash = s .hash
  replaced : ∀ key, s .de (deduplicationKey p de.id) = some key → replaceable →
    key.jobId ∈ s (.zset .delayed) p →
    r.1 = none ∧ r.2 .hash = Function.update (s .hash) (p ++ key.jobId) none
  dropped : ∀ key, s .de (deduplicationKey p de.id) = some key →
    ¬ (replaceable ∧ key.jobId ∈ s (.zset .delayed) p) →
    r.1 = some key.jobId ∧ r.2 .hash = s .hash

theorem Decides.of_dropped {de : DeduplicationOpts} {current : DeduplicationKey} {s' : Store}
    {replaceable : Prop} (hkey : s .de (deduplicationKey p de.id) = some current)
    (hnot : ¬ (replaceable ∧ current.jobId ∈ s (.zset .delayed) p)) (hhash : s' .hash = s .hash) :
    Decides replaceable p de s (some current.jobId, s') where
  free hnone := by
    rw [hkey] at hnone
    cases hnone
  replaced key hk hr hd := by
    obtain rfl := Option.some.inj (hkey.symm.trans hk)
    exact absurd ⟨hr, hd⟩ hnot
  dropped key hk _ := by
    obtain rfl := Option.some.inj (hkey.symm.trans hk)
    exact ⟨rfl, hhash⟩

theorem DedupResult.decides {de : DeduplicationOpts} {i : String} {a : AddArgs}
    {r : Option String × Store} {replaceable : Prop} (h : DedupResult p de i a s r)
    (hreplace : ∀ key, s .de (deduplicationKey p de.id) = some key →
      (r.1 = none ↔ replaceable ∧ key.jobId ∈ s (.zset .delayed) p)) :
    Decides replaceable p de s r := by
  cases h with
  | free hkey =>
    have hnot : ∀ key, s .de (deduplicationKey p de.id) ≠ some key := fun key => by simp [hkey]
    exact ⟨fun _ => ⟨rfl, setDeduplicationKey_frame _ _ _ _ (by decide)⟩,
      fun key hk => absurd hk (hnot key), fun key hk => absurd hk (hnot key)⟩
  | @replaced current key _ hkey hdelayed _ _ =>
    have hboth := (hreplace current hkey).mp rfl
    refine ⟨fun hnone => ?_, fun key hk _ _ => ?_, fun key hk hnot => ?_⟩
    · rw [hkey] at hnone
      cases hnone
    · obtain rfl := Option.some.inj (hkey.symm.trans hk)
      exact ⟨rfl, by rw [Keyspace.set_of_ne _ (by decide), removeDelayedJob_hash hdelayed]⟩
    · obtain rfl := Option.some.inj (hkey.symm.trans hk)
      exact absurd hboth hnot
  | dropped hkey hs =>
    exact .of_dropped hkey (fun hboth => by simpa using (hreplace _ hkey).mpr hboth)
      (hs _ (by decide))
  | renewed hkey _ _ hs =>
    refine .of_dropped hkey (fun hboth => by simpa using (hreplace _ hkey).mpr hboth) ?_
    rw [hs _ (by decide), setDeduplicationKey_frame _ _ _ _ (by decide)]
  | kept hkey _ _ hs =>
    refine .of_dropped hkey (fun hboth => by simpa using (hreplace _ hkey).mpr hboth) ?_
    rw [hs _ (by decide), Keyspace.set_of_ne _ (by decide), Keyspace.set_of_ne _ (by decide)]

theorem deduplicateJob_decides (de : DeduplicationOpts) (i : String) (a : AddArgs) :
    Decides (de.replace = true) p de s (deduplicateJob p de i a s) := by
  refine deduplicateJob_result.decides fun key hkey => ?_
  by_cases hr : de.replace = true
  · by_cases hdel : key.jobId ∈ s (.zset .delayed) p
    · refine iff_of_true ?_ ⟨hr, hdel⟩
      simp only [deduplicateJob, hr, hkey, removeDelayedJob, hdel, if_true]
      split
      · rfl
      · split <;> rfl
    · refine iff_of_false ?_ fun h => hdel h.2
      simp [deduplicateJob, hr, hkey, removeDelayedJob, hdel]
  · refine iff_of_false ?_ fun h => hr h.1
    simp only [deduplicateJob, if_neg hr, deduplicateJobWithoutReplace, hkey]
    split <;> simp

theorem deduplicateJobWithoutReplace_decides (de : DeduplicationOpts) (i : String) (a : AddArgs) :
    Decides False p de s (deduplicateJobWithoutReplace p de i a s) := by
  refine deduplicateJobWithoutReplace_result.decides fun key hkey => ?_
  refine iff_of_false ?_ fun h => h.1
  simp only [deduplicateJobWithoutReplace, hkey]
  split <;> simp

theorem BulkEntry.mode_decides (e : BulkEntry) (p : String) (s : Store) (de : DeduplicationOpts)
    (i : String) : Decides (¬ e.addToWaitingChildren = true ∧ de.replace = true) p de s
      ((FlowJobEntry.mode ⟨p, e.args, e.addToWaitingChildren⟩).deduplicate de i e.args s) := by
  have hplain : ¬ e.addToWaitingChildren = true →
      Decides (¬ e.addToWaitingChildren = true ∧ de.replace = true) p de s
        (deduplicateJob p de i e.args s) := by
    intro h
    simpa [h] using deduplicateJob_decides (p := p) (s := s) de i e.args
  unfold FlowJobEntry.mode
  split
  · next h =>
    have hparent := deduplicateJobWithoutReplace_decides (p := p) (s := s) de i e.args
    have hflag : (¬ e.addToWaitingChildren = true ∧ de.replace = true) = False := by
      simp [show e.addToWaitingChildren = true from h]
    rw [hflag]
    exact hparent
  · next h =>
    split
    · exact hplain h
    · split <;> exact hplain h

theorem drawId_jobExists (p k : String) (s : Store) : (drawId p s).jobExists k = s.jobExists k := by
  rw [Store.jobExists, drawId_frame _ _ (by decide), Store.jobExists]

/-- An entry under an id in use. -/
theorem handleDuplicatedJob_fate (hex : s.jobExists (p ++ e.args.customId) = true) :
    (handleDuplicatedJob p e.args.customId e.args.parent e.args.timestamp (drawId p s)).1 =
        (if reparents p e s then .code (-7) else .id e.args.customId) ∧
      ∀ k, (handleDuplicatedJob p e.args.customId e.args.parent e.args.timestamp
        (drawId p s)).2.jobExists k = s.jobExists k := by
  refine ⟨?_, fun k => ?_⟩
  · have hparent : (drawId p s).parentOf (p ++ e.args.customId) =
        s.parentOf (p ++ e.args.customId) := by
      rw [Store.parentOf, drawId_frame _ _ (by decide), Store.parentOf]
    rcases hcur : s.parentOf (p ++ e.args.customId) with _ | P
    · simp [handleDuplicatedJob, reparents, hparent, hcur]
    · rcases hnew : e.args.parent with _ | P'
      · simp [handleDuplicatedJob, reparents, hparent, hcur, hnew]
      · by_cases hkey : P.key = P'.key
        · simp [handleDuplicatedJob, reparents, hparent, hcur, hnew, hkey]
        · by_cases hP : s.jobExists P.key = true <;>
            simp [handleDuplicatedJob, reparents, hparent, hcur, hnew, hkey, hP, drawId_jobExists]
  · rw [Store.jobExists]
    obtain hsame | ⟨P, -, hset⟩ := handleDuplicatedJob_hash p e.args.customId e.args.parent
      e.args.timestamp (drawId p s)
    · rw [hsame, ← Store.jobExists, drawId_jobExists]
    · rw [hset, Store.hset_hash]
      split
      · next hk =>
        rw [hk, hex]
        rfl
      · rw [← Store.jobExists, drawId_jobExists]

theorem BulkEntry.storeNewJob_jobExists (e : BulkEntry) (p i k : String) (s : Store) :
    (storeNewJob (FlowJobEntry.mode ⟨p, e.args, e.addToWaitingChildren⟩) p i e.args s).jobExists k =
      (s.jobExists k || decide (k = p ++ i)) := by
  have henqueue : ∀ s, (FlowJobEntry.mode ⟨p, e.args, e.addToWaitingChildren⟩).enqueue i e.args s
      .hash = s .hash := by
    intro s
    unfold FlowJobEntry.mode
    split_ifs
    · exact (parentMode_dedups p).quiet _ _ _ _ (by decide)
    · exact (delayedMode_dedups p).quiet _ _ _ _ (by decide)
    · exact (prioritizedMode_dedups p).quiet _ _ _ _ (by decide)
    · exact (standardMode_dedups p).quiet _ _ _ _ (by decide)
  rw [Store.jobExists, storeNewJob, addParentDependency_frame _ _ _ (by decide), henqueue, storeJob,
    Store.xadd_of_ne _ _ _ (by decide), Store.hset_hash]
  split
  · next hk => simp [hk]
  · next hk => simp [hk, Store.jobExists]

theorem Fate.Meets.of_same {f : Fate} {r : Reply × Store} (hreply : r.1 = f.reply)
    (hf : ∀ i replaced, f ≠ .stored i replaced) (h : ∀ k, r.2.jobExists k = s.jobExists k) :
    f.Meets p s r := by
  refine ⟨hreply, fun j => ?_⟩
  have hstores : ¬ f.Stores j := fun ⟨replaced, heq⟩ => hf _ _ heq
  have hdeletes : ¬ f.Deletes j := fun ⟨i, _, heq⟩ => hf _ _ heq
  simp [h, hstores, hdeletes]

theorem Fate.Meets.of_stored {i : String} {replaced : Option String} {r : Reply × Store}
    {s' : Store}
    (hreply : r.1 = .id i) (h : ∀ k, r.2.jobExists k = (s'.jobExists k || decide (k = p ++ i)))
    (hs' : ∀ j, s'.jobExists (p ++ j) = true ↔ s.jobExists (p ++ j) = true ∧ replaced ≠ some j) :
    (Fate.stored i replaced).Meets p s r := by
  refine ⟨hreply, fun j => ?_⟩
  have hstores : (Fate.stored i replaced).Stores j ↔ j = i := by
    constructor
    · rintro ⟨_, heq⟩
      cases heq
      rfl
    · rintro rfl
      exact ⟨_, rfl⟩
  have hdeletes : (Fate.stored i replaced).Deletes j ↔ i ≠ j ∧ replaced = some j := by
    constructor
    · rintro ⟨_, hne, heq⟩
      cases heq
      exact ⟨hne, rfl⟩
    · rintro ⟨hne, rfl⟩
      exact ⟨i, hne, rfl⟩
  rw [h, Bool.or_eq_true, decide_eq_true_eq, hs', String.append_right_inj, hstores, hdeletes]
  constructor
  · rintro (⟨hex, hne⟩ | rfl)
    · exact .inl ⟨hex, fun hboth => hne hboth.2⟩
    · exact .inr rfl
  · rintro (⟨hex, hnot⟩ | rfl)
    · by_cases hji : j = i
      · exact .inr hji
      · exact .inl ⟨hex, fun heq => hnot ⟨Ne.symm hji, heq⟩⟩
    · exact .inr rfl

/-- What an entry with a new id does to the jobs. -/
theorem BulkEntry.addNewJob_fate (e : BulkEntry) (p i : String) (s : Store) :
    (match e.holder p s with
      | none => Fate.stored i none
      | some (de, winner) =>
        if ¬ e.addToWaitingChildren ∧ de.replace ∧ winner ∈ s (.zset .delayed) p then
          .stored i (some winner)
        else .dropped winner).Meets p s
      (addNewJob (FlowJobEntry.mode ⟨p, e.args, e.addToWaitingChildren⟩) p i e.args
      (drawId p s)) := by
  have hde : drawId p s .de = s .de := drawId_frame _ _ (by decide)
  have hzset : drawId p s (.zset .delayed) = s (.zset .delayed) := drawId_frame _ _ (by decide)
  have hsame : ∀ s' : Store, s' .hash = drawId p s .hash → ∀ k, s'.jobExists k = s.jobExists k := by
    intro s' hs' k
    rw [Store.jobExists, hs', ← Store.jobExists, drawId_jobExists]
  -- Nothing but the new hash is stored, and the deduplication has touched no other.
  have hfree : ∀ s' : Store, s' .hash = drawId p s .hash → (Fate.stored i none).Meets p s
      (.id i, storeNewJob (FlowJobEntry.mode ⟨p, e.args, e.addToWaitingChildren⟩) p i e.args
        s') := by
    intro s' hs'
    refine .of_stored rfl (fun k => e.storeNewJob_jobExists p i k s') fun j => ?_
    simp [hsame s' hs']
  rcases hopts : e.args.opts.de with _ | de
  · have hholder : e.holder p s = none := by simp [BulkEntry.holder, hopts]
    rw [hholder, addNewJob_of_none hopts]
    exact hfree _ rfl
  · have hdec := e.mode_decides p (drawId p s) de i
    rcases hres : (FlowJobEntry.mode ⟨p, e.args, e.addToWaitingChildren⟩).deduplicate de i e.args
      (drawId p s) with ⟨winner, s'⟩
    rw [hres] at hdec
    rcases hkey : s .de (deduplicationKey p de.id) with _ | key
    · have hholder : e.holder p s = none := by simp [BulkEntry.holder, hopts, hkey]
      obtain ⟨rfl, hhash⟩ := hdec.free (by rw [hde, hkey])
      rw [hholder]
      simp only [addNewJob, hopts, hres]
      exact hfree s' hhash
    · have hholder : e.holder p s = some (de, key.jobId) := by simp [BulkEntry.holder, hopts, hkey]
      rw [hholder]
      dsimp only
      split
      · next hyes =>
        obtain ⟨rfl, hhash⟩ := hdec.replaced key (by rw [hde, hkey]) ⟨hyes.1, hyes.2.1⟩
          (by rw [hzset]; exact hyes.2.2)
        simp only [addNewJob, hopts, hres]
        refine .of_stored rfl (fun k => e.storeNewJob_jobExists p i k s') fun j => ?_
        rw [Store.jobExists, hhash, Function.update_apply]
        by_cases hj : j = key.jobId
        · simp [hj]
        · rw [if_neg fun heq => hj ((String.append_right_inj _).mp heq), ← Store.jobExists,
            drawId_jobExists]
          simp [Ne.symm hj]
      · next hno =>
        obtain ⟨rfl, hhash⟩ := hdec.dropped key (by rw [hde, hkey]) fun hyes =>
          hno ⟨hyes.1.1, hyes.1.2, by rw [← hzset]; exact hyes.2⟩
        simp only [addNewJob, hopts, hres]
        exact .of_same rfl (by simp) (hsame s' hhash)

/-- **Every add meets its fate.** -/
theorem BulkEntry.run_meets (e : BulkEntry) (p : String) (s : Store) :
    (e.fate p s).Meets p s (e.run p s) := by
  have hrun : e.run p s =
      addJobWith (FlowJobEntry.mode ⟨p, e.args, e.addToWaitingChildren⟩) p e.args s := rfl
  rw [hrun]
  -- The missing parent comes first, then the existing id, and a new job last.
  obtain ⟨⟨P, hP, hmissing⟩, heq⟩ | ⟨hne, hex, hparent, heq⟩ | ⟨i, hi, hparent, heq⟩ :=
    addJobWith_ends (FlowJobEntry.mode ⟨p, e.args, e.addToWaitingChildren⟩) p e.args s
  · have hfate : e.fate p s = .refused (-5) := by simp [BulkEntry.fate, hP, hmissing]
    rw [hfate, heq]
    exact .of_same rfl (by simp) fun _ => rfl
  · have hany : (e.args.parent.any fun P => !s.jobExists P.key) = false := by
      rcases hP : e.args.parent with _ | P
      · rfl
      · simp [hparent P hP]
    obtain ⟨hreply, hexist⟩ := handleDuplicatedJob_fate hex
    have hfate : e.fate p s =
        if reparents p e s then .refused (-7) else .known e.args.customId := by
      simp [BulkEntry.fate, hany, hne, hex]
    rw [hfate, heq]
    refine .of_same ?_ (fun i r => by split <;> simp) hexist
    rw [hreply]
    split <;> rfl
  · have hany : (e.args.parent.any fun P => !s.jobExists P.key) = false := by
      rcases hP : e.args.parent with _ | P
      · rfl
      · simp [hparent P hP]
    have hid : (if e.args.customId = "" then (s .id p + 1).repr else e.args.customId) = i ∧
        ¬ (e.args.customId ≠ "" ∧ s.jobExists (p ++ e.args.customId) = true) := by
      obtain ⟨hempty, rfl⟩ | ⟨rfl, hne, hnew⟩ := hi
      · simp [hempty]
      · simp [hne, hnew]
    rw [heq, BulkEntry.fate, if_neg (by simp [hany]), if_neg hid.2]
    simp only [hid.1]
    exact e.addNewJob_fate p i s

end Fate

/-! ### Bulks -/

/-- A bulk and the single adds of its entries come to the same: they leave the same store, throw
together, and answer each entry with the same id, which names a job. -/
structure Agrees (p : String) (es : List BulkEntry) (s : Store) : Prop where
  store : (addJobs p es s).2 = (addEach p es s).2
  throws : (∃ err, (addJobs p es s).1 = .error err) ↔ ∃ err, .error err ∈ (addEach p es s).1
  ids : ∀ ids, (addJobs p es s).1 = .ok ids → (addEach p es s).1 = ids.map .ok
  exist : ∀ ids, (addJobs p es s).1 = .ok ids → ∀ r ∈ ids, ∃ j, r = .id j ∧
    (addJobs p es s).2.jobExists (p ++ j) = true

/-- One of the entries stores the job `j`. -/
def StoredIn (p j : String) : List BulkEntry → Store → Prop
  | [], _ => False
  | e :: es, s => (e.fate p s).Stores j ∨ StoredIn p j es (e.run p s).2

/-- Whenever one of the entries deletes the job `j`, a later one stores it again. -/
def LastsIn (p j : String) : List BulkEntry → Store → Prop
  | [], _ => True
  | e :: es, s =>
    ((e.fate p s).Deletes j → StoredIn p j es (e.run p s).2) ∧ LastsIn p j es (e.run p s).2

/-- Every entry is answered with an id, which does not read as a negative number; the job of this id
exists or is stored by a later entry, and no later entry replaces it for good. -/
def Acceptable (p : String) : List BulkEntry → Store → Prop
  | [], _ => True
  | e :: es, s =>
    (∃ j, (e.fate p s).answer = some j ∧ isBelowZero j = false ∧
      ((e.run p s).2.jobExists (p ++ j) = true ∨ StoredIn p j es (e.run p s).2) ∧
      LastsIn p j es (e.run p s).2) ∧
    Acceptable p es (e.run p s).2

section Bulk

variable {p j : String} {es : List BulkEntry} {s : Store}

theorem execPipeline_exists :
    (execPipeline p es s).2.jobExists (p ++ j) = true ↔
      (s.jobExists (p ++ j) = true ∨ StoredIn p j es s) ∧ LastsIn p j es s := by
  induction es generalizing s with
  | nil => simp [execPipeline, StoredIn, LastsIn]
  | cons e es ih =>
    have hexist := (e.run_meets p s).exist j
    have hnot : (e.fate p s).Deletes j → ¬ (e.fate p s).Stores j := by
      rintro ⟨i, hne, heq⟩ ⟨_, heq'⟩
      rw [heq] at heq'
      cases heq'
      exact hne rfl
    simp only [execPipeline, StoredIn, LastsIn]
    rw [ih, hexist]
    tauto

theorem addEach_eq (p : String) (es : List BulkEntry) (s : Store) :
    addEach p es s = ((execPipeline p es s).1.map Reply.outcome, (execPipeline p es s).2) := by
  induction es generalizing s with
  | nil => rfl
  | cons e es ih =>
    simp only [addEach, execPipeline, addJob, List.map_cons]
    rw [ih]

/-- The replies to the entries are codes and ids. -/
theorem error_notMem_execPipeline (p : String) (es : List BulkEntry) (s : Store) :
    Reply.error ∉ (execPipeline p es s).1 := by
  induction es generalizing s with
  | nil => simp [execPipeline]
  | cons e es ih =>
    have hreply := (e.run_meets p s).reply
    simp only [execPipeline, List.mem_cons, not_or]
    refine ⟨?_, ih _⟩
    rw [hreply]
    cases e.fate p s <;> simp [Fate.reply]

theorem Fate.reply_eq_id {f : Fate} {j : String} : f.reply = .id j ↔ f.answer = some j := by
  cases f <;> simp [Fate.reply, Fate.answer]

/-- A bulk is acceptable exactly if all replies are ids of jobs, none of which reads as a negative
number. -/
theorem acceptable_iff : Acceptable p es s ↔ ∀ r ∈ (execPipeline p es s).1,
    r.isBelowZero = false ∧ ∃ j, r = .id j ∧
      (execPipeline p es s).2.jobExists (p ++ j) = true := by
  induction es generalizing s with
  | nil => simp [Acceptable, execPipeline]
  | cons e es ih =>
    simp only [Acceptable, execPipeline, List.forall_mem_cons]
    refine and_congr ?_ ih
    rw [(e.run_meets p s).reply]
    constructor
    · rintro ⟨j, hanswer, hsign, hlasts⟩
      rw [Fate.reply_eq_id.mpr hanswer]
      exact ⟨hsign, j, rfl, execPipeline_exists.mpr hlasts⟩
    · rintro ⟨hsign, j, hreply, hex⟩
      rw [hreply] at hsign
      exact ⟨j, Fate.reply_eq_id.mp hreply, hsign, execPipeline_exists.mp hex⟩

/-- **A bulk agrees with single adds** exactly if it is acceptable. It leaves the same store in any
case. -/
theorem addJobs_agrees_iff (p : String) (es : List BulkEntry) (s : Store) :
    Agrees p es s ↔ Acceptable p es s := by
  -- The pipeline itself never fails, so a bulk only throws where a single add would.
  have hresult : addJobs p es s = (.ok (execPipeline p es s).1, (execPipeline p es s).2) := by
    simp only [addJobs, if_neg (error_notMem_execPipeline p es s)]
  have houtcome : ∀ r ∈ (execPipeline p es s).1, r.isBelowZero = false → r.outcome = .ok r := by
    intro r hr hsign
    have hne : r ≠ .error := fun heq => error_notMem_execPipeline p es s (heq ▸ hr)
    rw [Reply.outcome, if_neg (by simp [hne, hsign])]
  rw [acceptable_iff]
  constructor
  · intro h r hr
    have hids := h.ids _ (by rw [hresult])
    rw [addEach_eq] at hids
    obtain ⟨j, rfl, hex⟩ := h.exist _ (by rw [hresult]) r hr
    refine ⟨?_, j, rfl, by rw [hresult] at hex; exact hex⟩
    have hok : (Reply.id j).outcome = .ok (.id j) := List.map_inj_left.mp hids _ hr
    by_contra hsign
    rw [Reply.outcome, if_pos (.inr (by simpa using hsign))] at hok
    cases hok
  · intro h
    have hmap : (execPipeline p es s).1.map Reply.outcome = (execPipeline p es s).1.map .ok :=
      List.map_inj_left.mpr fun r hr => houtcome r hr (h r hr).1
    refine ⟨by rw [hresult, addEach_eq], ?_, fun ids hids => ?_, fun ids hids r hr => ?_⟩
    · rw [hresult, addEach_eq, hmap]
      refine iff_of_false (by simp) ?_
      rintro ⟨err, hmem⟩
      obtain ⟨r, -, heq⟩ := List.mem_map.mp hmem
      cases heq
    · rw [hresult] at hids
      cases hids
      rw [addEach_eq, hmap]
    · rw [hresult] at hids
      cases hids
      obtain ⟨j, heq, hex⟩ := (h r hr).2
      exact ⟨j, heq, by rw [hresult]; exact hex⟩

end Bulk

/-! ### A missing parent -/

/-- Two jobs, the second of which names a parent that does not exist. -/
def bulkWithMissingParent : List BulkEntry :=
  [{ args := { name := "a", data := "d", timestamp := 1 } },
   { args := { name := "b", data := "d", timestamp := 1,
               parent := some { id := "9", queueKey := "bull:p" } } }]

/-- `addJob` throws for the second job; the bulk answers it with `-5`. -/
theorem bulk_answers_code :
    (addJobs "bull:q:" bulkWithMissingParent .empty).1 = .ok [.id "1", .code (-5)] ∧
    (addEach "bull:q:" bulkWithMissingParent .empty).1 = [.ok (.id "1"), .error (.code (-5))] ∧
    ¬ Agrees "bull:q:" bulkWithMissingParent .empty := by
  have hbulk : (addJobs "bull:q:" bulkWithMissingParent .empty).1 = .ok [.id "1", .code (-5)] := rfl
  refine ⟨hbulk, rfl, fun h => ?_⟩
  obtain ⟨j, hid, -⟩ := h.exist _ hbulk (.code (-5)) (by simp)
  cases hid

end BullMQ
