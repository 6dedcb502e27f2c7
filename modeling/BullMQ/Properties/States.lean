import BullMQ.Model.States
import BullMQ.Dedup.Iterations
import BullMQ.Redis.Order

/-!
# The states of the jobs and their counts

In every state that a run reaches, what `getState`, `getStateV2` and `isFinished` answer for a job
is the container that the job is in, and the counts that `getJobCounts` returns are those of the
jobs with each answer.
-/

namespace BullMQ

open Redis

variable {Q : QueueSet} {s s' : Store} {p j : String} {c : Container} {jobs : List String}

/-- The answer for a job in a container. -/
def Container.jobState : Container → JobState
  | .inl .wait | .inl .paused => .waiting
  | .inl .active => .active
  | .inr .prioritized => .prioritized
  | .inr .delayed => .delayed
  | .inr .completed => .completed
  | .inr .failed => .failed
  | .inr .waitingChildren => .waitingChildren

/-- The code of `isFinished` that goes with a state. -/
def JobState.finishedCode : JobState → ℤ
  | .unknown => -1
  | .completed => 1
  | .failed => 2
  | _ => 0

/-! ### Looking a job up -/

theorem isSome_zscore_iff {z : ZSetKey} :
    ((s (.zset z) p).zscore j).isSome = true ↔ countIn s (.inr z) p j ≠ 0 := by
  rw [← mem_zset_iff, Option.isSome_iff_exists]
  exact ⟨fun ⟨_, h⟩ => SortedSet.mem_of_zscore h, SortedSet.exists_zscore⟩

theorem isSome_checkItemInList_iff {l : ListKey} :
    (checkItemInList (s (.list l) p) j).isSome = true ↔ countIn s (.inl l) p j ≠ 0 := by
  simp [checkItemInList, ← mem_list_iff, List.findSome?_isSome_iff]

theorem isSome_idxOf?_iff {l : ListKey} :
    ((s (.list l) p).idxOf? j).isSome = true ↔ countIn s (.inl l) p j ≠ 0 := by
  simp [← mem_list_iff]

/-- The two scripts agree. -/
theorem getStateV2_eq (p j : String) (s : Store) :
    Script.getStateV2 p j s = Script.getState p j s := by
  simp only [Script.getStateV2, Script.getState, isSome_idxOf?_iff, isSome_checkItemInList_iff]

theorem getState_of_countIn (hone : occ s p j ≤ 1) (hc : countIn s c p j ≠ 0) :
    Script.getState p j s = c.jobState := by
  have hzero : ∀ d, d ≠ c → countIn s d p j = 0 := fun d => countIn_eq_zero_of_ne hone hc
  simp only [Script.getState, isSome_zscore_iff, isSome_checkItemInList_iff]
  rcases c with (_ | _ | _) | (_ | _ | _ | _ | _) <;>
    simp (disch := simp) only [hc, hzero, ne_eq, not_true_eq_false, not_false_eq_true, if_true,
      if_false] <;> rfl

theorem getState_of_occ (h : occ s p j = 0) : Script.getState p j s = .unknown := by
  have hzero : ∀ d, countIn s d p j = 0 := fun d =>
    Nat.le_zero.mp (h ▸ countIn_le_occ s d p j)
  simp only [Script.getState, isSome_zscore_iff, isSome_checkItemInList_iff, hzero, ne_eq,
    not_true_eq_false, if_false]

theorem Container.jobState_ne_unknown (c : Container) : c.jobState ≠ .unknown := by
  rcases c with (_ | _ | _) | (_ | _ | _ | _ | _) <;> simp [Container.jobState]

/-- The code of a state depends on the sets of finished jobs only. -/
theorem finishedCode_getState (p j : String) (s : Store) :
    (Script.getState p j s).finishedCode =
      if ((s (.zset .completed) p).zscore j).isSome = true then 1
      else if ((s (.zset .failed) p).zscore j).isSome = true then 2
      else if Script.getState p j s = .unknown then -1 else 0 := by
  simp only [Script.getState]
  split_ifs <;> first | rfl | contradiction

/-! ### The legacy paused list -/

/-- No queue has jobs in the legacy paused list. -/
def NonePaused (s : Store) : Prop := ∀ q, s (.list .paused) q = []

theorem NonePaused.of_eq (hs : NonePaused s) (h : s' (.list .paused) = s (.list .paused)) :
    NonePaused s' := fun q => by rw [h, hs]

theorem NonePaused.drain (hs : NonePaused s) (p : String) : drainPaused p s = s := by
  rw [drainPaused, if_pos (hs p)]

theorem NonePaused.pause (hs : NonePaused s) (p : String) (b e : Bool) :
    NonePaused (Script.pause p b e s).2 := by
  have hset : ∀ b : Bool, NonePaused (s.set .metaPaused p b) := fun b =>
    hs.of_eq (Keyspace.set_of_ne _ (by decide) ..)
  have hmain : NonePaused (if b then pauseQueue p s else resumeQueue p s) := by
    split
    · exact (hset true).of_eq (Keyspace.set_of_ne _ (by decide) ..)
    · rw [resumeQueue, (hset false).drain]
      exact (hset false).of_eq (markResumed_frame p _ (by decide))
  simp only [Script.pause]
  split
  · exact hmain.of_eq (Store.xadd_of_ne _ _ _ (by decide))
  · exact hmain

theorem NonePaused.deleteJob (hs : NonePaused s) (p j : String) : NonePaused (deleteJob p j s) := by
  have hany : NonePaused (removeJobFromAnyState p j s).2 := by
    simp only [removeJobFromAnyState]
    split
    · exact hs.of_eq (Keyspace.modify_of_ne _ (by simp) ..)
    · next l _ =>
      by_cases hl : l = .paused
      · subst hl
        intro q
        simp [Keyspace.modify_self, Function.update_apply, hs p, hs q, lremLeft]
      · exact hs.of_eq (Keyspace.modify_of_ne _ (by simpa [eq_comm] using hl) ..)
    · exact hs
  have hkeys : ∀ {t : Store}, NonePaused t → NonePaused (removeJobKeys (p ++ j) t) := fun ht =>
    ht.of_eq (removeJobKeys_frame _ _ (by decide))
  have hded := hkeys (hany.of_eq (removeDeduplicationKeyIfNeededOnRemoval_frame p j
    ((removeJobFromAnyState p j s).2.deidOf (p ++ j)) _ (by decide)))
  simp only [BullMQ.deleteJob]
  split
  · exact (hded.of_eq (getOrSetMaxEvents_frame _ _ (by decide))).of_eq
      (Store.xadd_of_ne _ _ _ (by decide))
  · exact hded

/-- Nothing is put into the legacy paused list. -/
theorem NonePaused.exec (hs : NonePaused s) {c : Command} {r : Reply × Store}
    (hexec : c.exec s = some r) : NonePaused r.2 := by
  have hframe : Kind.list .paused ∉ c.writes → NonePaused r.2 := fun hκ =>
    hs.of_eq (Command.exec_frame hexec hκ)
  cases c with
  | pause p b e =>
    cases hexec
    exact hs.pause p b e
  | removeJob n p j b =>
    exact Script.removeJob_rule (I := NonePaused) (V := fun _ _ => True)
      (fun _ _ _ ht => ht.of_eq (removeParentDependencyKey_frame _ _ _ (by decide)))
      (fun p j _ _ ht => ht.deleteJob p j) (fun _ _ _ _ _ => trivial) trivial hs hexec
  | _ => exact hframe (by simp only [Command.writes]; decide)

/-- An upsert looks for the pending iteration in the legacy paused list at most. -/
theorem NonePaused.addJobScheduler (hs : NonePaused s) (p : String) (a : UpsertArgs) :
    NonePaused (Script.addJobScheduler p a s).2 := by
  have hhard : ∀ {t : Store}, NonePaused t → ∀ i, NonePaused (removeJobHard p t i) := fun ht i =>
    ht.of_eq (removeJobHard_frame p _ i (by decide))
  have hfrom : ∀ {t : Store}, NonePaused t → ∀ i, NonePaused (removeJobFromScheduler p i t).2 := by
    intro t ht i
    simp only [removeJobFromScheduler]
    split
    · exact (hhard ht i).of_eq (Keyspace.modify_of_ne _ (by decide) ..)
    · split
      · exact (hhard ht i).of_eq (Keyspace.modify_of_ne _ (by decide) ..)
      · split
        · next hi =>
          -- The list that holds the iteration is not the empty one.
          have hwait : pausedOrWait p t ≠ .paused := fun hpaused => by
            have hmem : i ∈ t (.list .paused) p := hpaused ▸ hi
            rw [ht p] at hmem
            cases hmem
          exact hhard (ht.of_eq (Keyspace.modify_of_ne _ (by simpa using hwait.symm) ..)) i
        · exact ht
  have hremoved :
      NonePaused (removePendingIteration p a.jobSchedulerId (getOrSetMaxEvents p s)).2 := by
    have hmax : NonePaused (getOrSetMaxEvents p s) :=
      hs.of_eq (getOrSetMaxEvents_frame p s (by decide))
    unfold removePendingIteration
    split
    · exact hfrom hmax _
    · exact hmax
  rcases hrem : removePendingIteration p a.jobSchedulerId (getOrSetMaxEvents p s) with ⟨b, t⟩
  rw [hrem] at hremoved
  obtain ⟨o, m, hres, -⟩ | ⟨every, -, hres, -⟩ | ⟨-, -, hres, -⟩ :=
    Script.addJobScheduler_cases hrem <;> rw [hres]
  · exact hremoved.of_eq (storeIteration_frame _ _ _ _ _ (by decide))
  · exact hremoved
  · exact hremoved

theorem NonePaused.queueExec (hs : NonePaused s) {c : QueueCommand} {r : Reply × Store}
    (hc : c.Orderly Q s) (hexec : c.exec s = some r) : NonePaused r.2 := by
  have hframe : Kind.list .paused ∉ c.writes → NonePaused r.2 := fun hκ =>
    hs.of_eq (QueueCommand.exec_frame hexec hκ)
  cases c with
  | job c => exact hs.exec hexec
  | addJobScheduler p a => cases hexec; exact hs.addJobScheduler p a
  | updateJobScheduler p a => exact hframe (by simp only [QueueCommand.writes]; decide)
  | expireDeduplicationKey p d => exact hframe (by simp [QueueCommand.writes])
  | elapseDeduplicationKey p d ms => exact hframe (by simp [QueueCommand.writes])
  | _ => exact hc.elim

theorem nonePaused_of_reachable (h : QueueReachable (fun s c => c.Orderly Q s) .empty s) :
    NonePaused s := by
  obtain ⟨steps, run⟩ := h
  exact run.invariant (fun _ => rfl) fun t c u ht ⟨hc, reply, hexec⟩ => ht.queueExec hc hexec

/-! ### The jobs of a queue -/

/-- The ids in a container. -/
def Container.ids (p : String) (s : Store) : Container → List String
  | .inl l => s (.list l) p
  | .inr z => (s (.zset z) p).members

def allContainers : List Container :=
  [.inl .wait, .inl .paused, .inl .active, .inr .prioritized, .inr .delayed, .inr .completed,
    .inr .failed, .inr .waitingChildren]

/-- The ids of the jobs of a queue, container by container. -/
def queueJobs (p : String) (s : Store) : List String := allContainers.flatMap (Container.ids p s)

theorem count_ids (p j : String) (s : Store) (c : Container) :
    (c.ids p s).count j = countIn s c p j := by
  cases c <;> rfl

theorem count_queueJobs (p j : String) (s : Store) : (queueJobs p s).count j = occ s p j := by
  simp [queueJobs, allContainers, count_ids, occ, Nat.add_assoc]

theorem mem_queueJobs : j ∈ queueJobs p s ↔ occ s p j ≠ 0 := by
  rw [← List.count_pos_iff, count_queueJobs, Nat.pos_iff_ne_zero]

/-- The jobs for which the answer is a state are those in its containers. -/
theorem filter_queueJobs (hone : ∀ j, occ s p j ≤ 1) (st : JobState) :
    (queueJobs p s).filter (Script.getState p · s = st) =
      allContainers.flatMap fun c => if c.jobState = st then c.ids p s else [] := by
  rw [queueJobs, List.filter_flatMap]
  congr 1
  funext c
  have hstate : ∀ j ∈ c.ids p s, Script.getState p j s = c.jobState := fun j hj =>
    getState_of_countIn (hone j) (by rwa [← count_ids, ← Nat.pos_iff_ne_zero, List.count_pos_iff])
  split
  · next h =>
    exact List.filter_eq_self.mpr fun j hj => by simpa [hstate j hj] using h
  · next h =>
    exact List.filter_eq_nil_iff.mpr fun j hj => by simpa [hstate j hj] using h

/-- A listing of the jobs of a queue. -/
structure JobsOf (p : String) (s : Store) (jobs : List String) : Prop where
  nodup : jobs.Nodup
  mem_iff : ∀ j, j ∈ jobs ↔ s.jobExists (p ++ j) = true

theorem JobsOf.perm {jobs' : List String} (h : JobsOf p s jobs) (h' : JobsOf p s jobs') :
    jobs.Perm jobs' :=
  (List.perm_ext_iff_of_nodup h.nodup h'.nodup).mpr fun j => (h.mem_iff j).trans (h'.mem_iff j).symm

/-- Every job of a queue occurs, and nothing else does. -/
theorem Numbered.occ_eq_one_iff (hs : Numbered Q s) (hp : Q.Base p) :
    occ s p j = 1 ↔ s.jobExists (p ++ j) = true := by
  refine ⟨fun hone => hs.exist (by omega), fun hex => ?_⟩
  obtain ⟨q, i, hv, hkey, hone⟩ := hs.placed hex
  obtain rfl := Q.apart hp hv.1 hkey
  obtain rfl := (String.append_right_inj p).mp hkey
  exact hone

theorem Numbered.jobsOf (hs : Numbered Q s) (hp : Q.Base p) : JobsOf p s (queueJobs p s) where
  nodup := List.nodup_iff_count_le_one.mpr fun j => by
    rw [count_queueJobs]
    exact hs.le_one p j
  mem_iff j := by
    have hle := hs.le_one p j
    rw [mem_queueJobs, ← hs.occ_eq_one_iff hp]
    omega

/-! ### The counts -/

/-- The state that a type counts; that of `repeat` are the job schedulers. -/
def JobType.state : JobType → Option JobState
  | .completed => some .completed
  | .failed => some .failed
  | .active => some .active
  | .delayed => some .delayed
  | .prioritized => some .prioritized
  | .waiting | .wait => some .waiting
  | .waitingChildren => some .waitingChildren
  | .repeat => none

/-- The number of entries of a type: of the jobs in its state, or of the job schedulers. -/
def numberOf (p : String) (s : Store) (jobs : List String) (type : JobType) : ℕ :=
  match type.state with
  | some state => (jobs.filter (Script.getState p · s = state)).length
  | none => (s .repeatSet p).members.length

theorem JobsOf.numberOf_eq {jobs' : List String} (h : JobsOf p s jobs) (h' : JobsOf p s jobs')
    (type : JobType) : numberOf p s jobs type = numberOf p s jobs' type := by
  unfold numberOf
  split
  · exact ((h.perm h').filter _).length_eq
  · rfl

/-- The size of what a type counts. -/
def StateKey.size (p : String) (s : Store) : StateKey → ℕ
  | .list l => (s (.list l) p).length
  | .zset z => (s (.zset z) p).members.length
  | .repeat => (s .repeatSet p).members.length

theorem Numbered.numberOf_queueJobs (hs : Numbered Q s) (hpaused : NonePaused s) (p : String)
    (type : JobType) : numberOf p s (queueJobs p s) type = type.stateKey.size p s := by
  have hfilter := filter_queueJobs (s := s) (hs.le_one p)
  cases type <;>
    simp [numberOf, JobType.state, JobType.stateKey, StateKey.size, hfilter, allContainers,
      Container.jobState, Container.ids, hpaused p]

/-- No id of a job is a legacy marker, so that counting changes nothing. -/
theorem Numbered.countState_eq (hs : Numbered Q s) (p : String) (type : JobType) :
    countState p type.stateKey s = (type.stateKey.size p s, s) := by
  have hwait : countState p (.list .wait) s = ((s (.list .wait) p).length, s) := by
    simp only [countState]
    split
    · next marker rest hpop =>
      have hmem : marker ∈ s (.list .wait) p := by simp [rpop_eq_some hpop]
      rw [if_neg (by simp [(hs.valid_list hmem).2.2])]
    · rfl
  cases type with
  | waiting => exact hwait
  | wait => exact hwait
  | _ => rfl

theorem getCounts_eq (types : List JobType) (n : JobType → ℕ)
    (h : ∀ type, countState p type.stateKey s = (n type, s)) :
    Script.getCounts p (types.map JobType.stateKey) s = (types.map n, s) := by
  induction types with
  | nil => rfl
  | cons type types ih => simp [Script.getCounts, h, ih]

theorem Numbered.getJobCounts_eq (hs : Numbered Q s) (p : String) (types : List JobType) :
    Queue.getJobCounts p types s =
      ((sanitizeJobTypes types).map fun type => (type, type.stateKey.size p s), s) := by
  simp only [Queue.getJobCounts, getCounts_eq _ _ (hs.countState_eq p), List.map_prod_left_eq_zip]

/-- The default types count every job once. -/
theorem length_queueJobs (hpaused : NonePaused s) (p : String) :
    (queueJobs p s).length =
      (((sanitizeJobTypes []).map fun type =>
        (type, type.stateKey.size p s)).map Prod.snd).sum := by
  simp [queueJobs, allContainers, Container.ids, sanitizeJobTypes, JobType.stateKey, StateKey.size,
    hpaused p]
  omega

/-- **The answers of a queue.** In every state that a run reaches, `getState` knows of a job whether
it has a hash, and otherwise answers with the one container that holds it; `getStateV2` answers the
same, and the code of `isFinished` is that of this answer. -/
theorem getState_answers (h : QueueReachable (fun s c => c.Orderly Q s) .empty s) (hp : Q.Base p)
    (j : String) :
    (Script.getState p j s = .unknown ↔ s.jobExists (p ++ j) = false) ∧
    (∀ c, countIn s c p j ≠ 0 → Script.getState p j s = c.jobState) ∧
    Script.getStateV2 p j s = Script.getState p j s ∧
    ∀ returnValue, (Script.isFinished p j returnValue s).1 =
      (Script.getState p j s).finishedCode := by
  have hs := Numbered.of_reachable h
  have hcontainer : ∀ c, countIn s c p j ≠ 0 → Script.getState p j s = c.jobState := fun c =>
    getState_of_countIn (hs.le_one p j)
  have hknown : s.jobExists (p ++ j) = true →
      ∃ c : Container, Script.getState p j s = c.jobState := fun hex => by
    have hone := (hs.occ_eq_one_iff hp).mpr hex
    obtain ⟨c, hc⟩ := exists_container (s := s) (p := p) (j := j) (by omega)
    exact ⟨c, hcontainer c hc⟩
  have hgone : s.jobExists (p ++ j) = false → Script.getState p j s = .unknown := fun hex =>
    getState_of_occ (hs.occ_eq_zero hex)
  refine ⟨⟨fun hunknown => ?_, hgone⟩, hcontainer, getStateV2_eq p j s, fun returnValue => ?_⟩
  · by_contra hex
    obtain ⟨c, hc⟩ := hknown (by simpa using hex)
    exact c.jobState_ne_unknown (hc ▸ hunknown)
  · cases hjob : s .hash (p ++ j) with
    | none =>
      rw [hgone (by simp [Store.jobExists, hjob])]
      simp [Script.isFinished, hjob, JobState.finishedCode]
    | some job =>
      obtain ⟨c, hc⟩ := hknown (by simp [Store.jobExists, hjob])
      have hne : Script.getState p j s ≠ .unknown := hc ▸ c.jobState_ne_unknown
      simp only [Script.isFinished, hjob, finishedCode_getState, hne, if_false, apply_ite Prod.fst]

/-- A deduplicated add. -/
def keptLast : AddArgs where
  name := "a"
  data := ""
  timestamp := 1
  opts := { de := some { id := "d", keepLastIfActive := true } }

/-- The upsert of a scheduler that starts later. -/
def tickLater : UpsertArgs where
  nextMillis := 0
  opts := { name := "tick", every := some 1000, startDate := some 5000 }
  jobSchedulerId := "s"
  templateData := ""
  timestamp := 1000

/-- A deduplicated job, the iteration of a scheduler, and the activation of the job, for which a
successor is then kept. -/
def activeAndScheduled : List QueueCommand :=
  [.job (.addStandardJob "bull:q:" keptLast), .addJobScheduler "bull:q:" tickLater,
   .job (.moveToActive "bull:q:" 1001 { token := "t", lockDuration := 30000 }),
   .job (.addStandardJob "bull:q:" keptLast)]

/-- The store these commands lead to. -/
def activeAndScheduledStore : Store := (runQueue activeAndScheduled .empty).getD .empty

theorem activeAndScheduled_reachable :
    QueueReachable (fun s c => c.Orderly (.ofPrefix "bull") s) .empty activeAndScheduledStore := by
  have hqueue : (QueueSet.ofPrefix "bull").Base "bull:q:" := ⟨"q", by decide, rfl⟩
  have hadd : ∀ s : Store,
      (QueueCommand.job (.addStandardJob "bull:q:" keptLast)).Orderly (.ofPrefix "bull") s :=
    fun s => ⟨⟨hqueue, fun hne => absurd rfl hne⟩, fun p a h => by cases h⟩
  have hfetch : ∀ (t : ℤ) (o : FetchOpts) (s : Store),
      (QueueCommand.job (.moveToActive "bull:q:" t o)).Orderly (.ofPrefix "bull") s :=
    fun t o s => ⟨trivial, fun p a h => by cases h⟩
  -- The scheduler has no iteration that the upsert would take out.
  have hapart : UpsertApart (Script.addStandardJob "bull:q:" keptLast .empty).2 "bull:q:"
      tickLater := by
    have hnone : pendingIteration "bull:q:" tickLater.jobSchedulerId
        (Script.addStandardJob "bull:q:" keptLast .empty).2 = none := rfl
    refine ⟨fun i hi => ?_, fun hevery => ?_⟩
    · rw [hnone] at hi
      cases hi
    · cases hevery
  have hupsert : (QueueCommand.addJobScheduler "bull:q:" tickLater).Orderly (.ofPrefix "bull")
      (Script.addStandardJob "bull:q:" keptLast .empty).2 := ⟨hqueue, by decide, hapart⟩
  exact ((((QueueReachable.refl _).step (hadd _) rfl).step hupsert rfl).step (hfetch _ _ _)
    rfl).step (hadd _) rfl

theorem getState_answers_sample :
    Script.getState "bull:q:" "1" activeAndScheduledStore = .active ∧
      Script.getStateV2 "bull:q:" "repeat:s:5000" activeAndScheduledStore = .delayed := by
  have hqueue : (QueueSet.ofPrefix "bull").Base "bull:q:" := ⟨"q", by decide, rfl⟩
  obtain ⟨-, hactive, -, -⟩ := getState_answers activeAndScheduled_reachable hqueue "1"
  obtain ⟨-, hdelayed, hV2, -⟩ := getState_answers activeAndScheduled_reachable hqueue
    "repeat:s:5000"
  exact ⟨hactive (.inl .active) (by decide), hV2.trans (hdelayed (.inr .delayed) (by decide))⟩

/-- **The counts of a queue.** In every state that a run reaches, however the jobs of a queue are
listed, `getJobCounts` returns for each type the number of the jobs that `getState` finds in the
state of that type, for `repeat` the number of job schedulers, and leaves the store as it is; with
no type given, `getJobCountByTypes` returns the number of all the jobs. -/
theorem getJobCounts_counts (h : QueueReachable (fun s c => c.Orderly Q s) .empty s)
    (hp : Q.Base p) (hjobs : JobsOf p s jobs) :
    (∀ types, Queue.getJobCounts p types s =
      ((sanitizeJobTypes types).map fun type => (type, numberOf p s jobs type), s)) ∧
    Queue.getJobCountByTypes p [] s = (jobs.length, s) := by
  have hs := Numbered.of_reachable h
  have hpaused := nonePaused_of_reachable h
  have hlist := hs.jobsOf hp
  refine ⟨fun types => ?_, ?_⟩
  · rw [hs.getJobCounts_eq]
    simp only [hjobs.numberOf_eq hlist, hs.numberOf_queueJobs hpaused]
  · simp only [Queue.getJobCountByTypes, hs.getJobCounts_eq, (hjobs.perm hlist).length_eq,
      length_queueJobs hpaused]

theorem getJobCounts_counts_sample :
    Queue.getJobCounts "bull:q:" [.active, .delayed, .repeat] activeAndScheduledStore =
        ([(.active, 1), (.delayed, 1), (.repeat, 1)], activeAndScheduledStore) ∧
      Queue.getJobCountByTypes "bull:q:" [] activeAndScheduledStore =
        (2, activeAndScheduledStore) := by
  have hqueue : (QueueSet.ofPrefix "bull").Base "bull:q:" := ⟨"q", by decide, rfl⟩
  obtain ⟨hcounts, htotal⟩ := getJobCounts_counts activeAndScheduled_reachable hqueue
    ((Numbered.of_reachable activeAndScheduled_reachable).jobsOf hqueue)
  refine ⟨(hcounts [.active, .delayed, .repeat]).trans (Prod.ext (by decide +kernel) rfl), ?_⟩
  have htwo : (queueJobs "bull:q:" activeAndScheduledStore).length = 2 := by decide +kernel
  exact htwo ▸ htotal

end BullMQ
