import BullMQ.Redis.Bands
import BullMQ.Model.Command

/-!
# Delayed scores and promotion

The score of a delayed job packs the millisecond it is due with a rank among the jobs that are due
in the same one. Along every run of delayed adds, `moveToDelayed`, `changeDelay` and promotions the
delayed set is `Banded` by the log of these insertions (`delayLog`), from which the law of the
scores and that of `promoteDelayedJobs` are read off: due jobs only, in the order of their due
times, a thousand at most, none lost, and those of one millisecond in the order of insertion. The
law needs due times whose packed scores are exact in doubles (`ExactDue`).
-/

namespace BullMQ

open Redis Numbers

/-! ### Insertions -/

/-- The millisecond a job with a delay is due. -/
def dueTime (timestamp delay : ℤ) : ℤ := if 0 < delay then timestamp + delay else timestamp

/-- The due times whose scores are exact in doubles: those before September 2039. -/
def ExactDue (due : ℤ) : Prop := -2 ^ 41 ≤ due ∧ due < 2 ^ 41

instance (due : ℤ) : Decidable (ExactDue due) := inferInstanceAs (Decidable (_ ∧ _))

theorem maxDelayedScore_eq {due : ℤ} (h : ExactDue due) :
    maxDelayedScore due = (due + 1) * 0x1000 - 1 := by
  obtain ⟨hlo, hhi⟩ := h
  have hnext : toDouble (due + 1) = due + 1 := toDouble_of_mem (by omega) (by omega)
  have hpacked : toDouble ((due + 1) * 0x1000) = (due + 1) * 0x1000 :=
    toDouble_of_mem (by omega) (by omega)
  rw [maxDelayedScore, hnext, hpacked]
  exact toDouble_of_mem (by omega) (by omega)

/-- The band of an exact due time is computed without rounding. -/
theorem getDelayedScore_eq {t d : ℤ} (h : ExactDue (dueTime t d)) (p : String) (s : Store) :
    getDelayedScore p t d s =
      ((s (.zset .delayed) p).nextInBand 0x1000 (dueTime t d), dueTime t d) := by
  have hmax := maxDelayedScore_eq h
  obtain ⟨hlo, hhi⟩ := h
  have hdue : (if 0 < d then toDouble (t + d) else t) = dueTime t d := by
    unfold dueTime at hlo hhi ⊢
    split_ifs at hlo hhi ⊢
    · exact toDouble_of_mem (by omega) (by omega)
    · rfl
  have hmin : toDouble (dueTime t d * 0x1000) = dueTime t d * 0x1000 :=
    toDouble_of_mem (by omega) (by omega)
  simp only [getDelayedScore, SortedSet.nextInBand, hdue, hmin, hmax]
  cases hlast : ((s (.zset .delayed) p).entriesByScore (dueTime t d * 0x1000)
    ((dueTime t d + 1) * 0x1000 - 1)).getLast? with
  | none => rfl
  | some e =>
    have hmem := List.mem_of_getLast? hlast
    rw [SortedSet.entriesByScore, List.mem_filter, decide_eq_true_eq] at hmem
    obtain ⟨-, hfirst, -⟩ := hmem
    -- A full band gives its last score out again, which is what the next one is bounded by.
    by_cases hfull : (dueTime t d + 1) * 0x1000 - 1 ≤ (ofLex e).1
    · simp only [if_pos hfull]
    · have hnext : toDouble ((ofLex e).1 + 1) = (ofLex e).1 + 1 :=
        toDouble_of_mem (by omega) (by omega)
      simp only [if_neg hfull, hnext]

/-- The job that an add stores, if it stores one: its parent exists, its id is new and it is not
deduplicated. -/
def storedJob (mode : AddMode) (p : String) (a : AddArgs) (s : Store) : Option String :=
  if (a.parent.map fun P => s.jobExists P.key) = some false then none
  else
    let s := drawId p s
    let jobId := newJobId p a.customId s
    if a.customId ≠ "" ∧ s.jobExists (p ++ jobId) then none
    else
      match a.opts.de with
      | none => some jobId
      | some de =>
        match (mode.deduplicate de jobId a s).1 with
        | none => some jobId
        | some _ => none

/-- The insertions into the delayed set of the queue `q` that a command makes in a state: the job
and the millisecond it is due. -/
def insertions (q : String) (s : Store) : Command → List (String × ℤ)
  | .addDelayedJob p a =>
    match storedJob (delayedMode p) p a s with
    | some jobId => if q = p then [(jobId, dueTime a.timestamp a.opts.delay)] else []
    | none => []
  | .moveToDelayed p a =>
    if GivesUp s p a.jobId a.token ∧ q = p then [(a.jobId, dueTime a.timestamp a.delay)] else []
  | .changeDelay p delay timestamp jobId =>
    if (s.jobExists (p ++ jobId) = true ∧ jobId ∈ s (.zset .delayed) p) ∧ q = p then
      [(jobId, dueTime timestamp delay)]
    else []
  | _ => []

/-- The insertions into the delayed set of a queue along a run. -/
def delayLog (q : String) (steps : List (Store × Command × Store)) : List (String × ℤ) :=
  steps.flatMap fun e => insertions q e.1 e.2.1

/-- Delayed adds, moves to delayed, changes of delay and promotions, next to whatever leaves the
delayed sets alone or takes jobs out of them. An add that hands a completed job to a new parent is
not a delayed add: it may release that parent. -/
def DelayCommand (s : Store) : Command → Prop
  | .addDelayedJob p a => a.parent = none ∨ a.customId ∉ s (.zset .completed) p
  | .moveToDelayed .. | .changeDelay .. | .promote .. | .moveToActive .. | .retryJob .. => True
  | c => ∀ r, c.exec s = some r →
    ∀ q, ∃ l, r.2 (.zset .delayed) q = (s (.zset .delayed) q).zremAll l

/-- A `DelayCommand` whose insertions have exact due times. -/
def ExactDelayCommand (s : Store) (c : Command) : Prop :=
  DelayCommand s c ∧ ∀ q, ∀ i ∈ insertions q s c, ExactDue i.2

/-! ### What a helper inserts -/

/-- From one state to the other the queue `q` has had these insertions. -/
def Receives (q : String) (inserted : List (String × ℤ)) (s s' : Store) : Prop :=
  ∀ log, Banded 0x1000 (s (.zset .delayed) q) log →
    Banded 0x1000 (s' (.zset .delayed) q) (log ++ inserted)

section Receives

variable {q : String} {s s' s'' : Store} {i i' : List (String × ℤ)}

theorem Receives.trans (h : Receives q i s s') (h' : Receives q i' s' s'') :
    Receives q (i ++ i') s s'' := by
  intro log hlog
  rw [← List.append_assoc]
  exact h' _ (h log hlog)

theorem Receives.of_removed (h : ∃ l, s' (.zset .delayed) q = (s (.zset .delayed) q).zremAll l) :
    Receives q [] s s' := by
  obtain ⟨l, hl⟩ := h
  intro log hlog
  rw [hl, List.append_nil]
  exact hlog.zremAll l

theorem Receives.of_eq (h : s' (.zset .delayed) q = s (.zset .delayed) q) : Receives q [] s s' := by
  intro log hlog
  rwa [h, List.append_nil]

theorem Receives.of_frame (h : s' (.zset .delayed) = s (.zset .delayed)) : Receives q [] s s' :=
  .of_eq (congrFun h q)

/-- Helpers around an insertion that leave the delayed sets alone. -/
theorem Receives.before (h : s' (.zset .delayed) = s (.zset .delayed)) (h' : Receives q i s' s'') :
    Receives q i s s'' := by
  have hs : Receives q [] s s' := .of_frame h
  exact hs.trans h'

theorem Receives.after (h : Receives q i s s') (h' : Receives q [] s' s'') :
    Receives q i s s'' := by
  have hs := h.trans h'
  rwa [List.append_nil] at hs

/-- Taking jobs out of the set of one queue. -/
theorem Receives.of_modify {p : String} {l : List String}
    (h : s' (.zset .delayed) =
      Function.update (s (.zset .delayed)) p ((s (.zset .delayed) p).zremAll l)) :
    Receives q [] s s' := by
  by_cases hq : q = p
  · subst hq
    exact .of_removed ⟨l, by rw [h, Function.update_self]⟩
  · exact .of_eq (by rw [h, Function.update_of_ne hq])

/-- The insertion of a job at its delayed score. -/
theorem Receives.of_zadd {p j : String} {t d : ℤ}
    (hexact : ∀ i ∈ (if q = p then [(j, dueTime t d)] else []), ExactDue i.2)
    (h : s' (.zset .delayed) = Function.update (s (.zset .delayed)) p
      ((s (.zset .delayed) p).zadd (getDelayedScore p t d s).1 j)) :
    Receives q (if q = p then [(j, dueTime t d)] else []) s s' := by
  by_cases hq : q = p
  · subst hq
    intro log hlog
    have hdue : ExactDue (dueTime t d) := hexact (j, dueTime t d) (by simp)
    rw [if_pos rfl, h, Function.update_self, getDelayedScore_eq hdue]
    exact hlog.insert (by decide) j (dueTime t d)
  · rw [if_neg hq]
    exact .of_eq (by rw [h, Function.update_of_ne hq])

end Receives

/-! ### Promotion and fetches -/

section Helpers

variable {q : String}

theorem promoteDelayedJobs_delayed (p : String) (t : ℤ) (b : Bool) (s : Store) :
    promoteDelayedJobs p t b s (.zset .delayed) = Function.update (s (.zset .delayed)) p
      ((s (.zset .delayed) p).zremAll (dueJobs p t s)) := by
  simp only [promoteDelayedJobs]
  split
  · next hnil => rw [hnil, SortedSet.zremAll_nil, Function.update_eq_self]
  · rw [addBaseMarkerIfNeeded_frame _ _ _ (by decide),
      foldl_promoteDelayedJob_frame _ _ _ (by decide), Keyspace.modify_self]

theorem receives_promoteDelayedJobs (p : String) (t : ℤ) (b : Bool) (s : Store) :
    Receives q [] s (promoteDelayedJobs p t b s) :=
  .of_modify (promoteDelayedJobs_delayed p t b s)

theorem takeJob_delayed {pop : String → Store → Popped × Store} {p : String}
    (hpop : ∀ s κ, κ ∉ popWrites → (pop p s).2 κ = s κ) (t : ℤ) (m d : Option ℤ) (o : FetchOpts)
    (s : Store) : (takeJob pop p t m d o s).2 (.zset .delayed) = s (.zset .delayed) := by
  have hdel := hpop s (.zset .delayed) (by decide)
  simp only [takeJob]
  split
  · rw [prepareJobForProcessing_frame _ _ _ _ _ _ _ (by decide), hdel]
  · exact hdel
  · exact hdel

theorem receives_fetchWith {pop : String → Store → Popped × Store} {p : String}
    (hpop : ∀ s κ, κ ∉ popWrites → (pop p s).2 κ = s κ) (t : ℤ) (o : FetchOpts) (s : Store) :
    Receives q [] s (fetchWith pop p t o s).2 := by
  have hstart : Receives q [] s (startFetch p t o s).2 :=
    (receives_promoteDelayedJobs p t _ s).after
      (.of_frame (getRateLimitTTL_frame _ _ _ (by decide)))
  obtain ⟨e, -, hres⟩ | ⟨-, -, hres⟩ := fetchWith_cases pop p t o s
  · rw [hres]
    exact hstart
  · rw [hres]
    exact hstart.after (.of_frame (takeJob_delayed hpop _ _ _ _ _))

theorem receives_fetchOrMark (p : String) (a : DelayArgs) (s : Store) :
    Receives q [] s (fetchOrMark p a s).2 := by
  have hmark : ∀ s', Receives q [] s' (addDelayMarkerIfNeeded p s') := fun s' =>
    .of_frame (addDelayMarkerIfNeeded_frame p s' (by decide))
  unfold fetchOrMark
  split
  · exact hmark s
  · next o _ =>
    have hfetch : Receives q [] s (fetchNextJob p a.timestamp o s).2 :=
      receives_fetchWith (fun s _ hκ => popForFetchNextJob_frame p s hκ) a.timestamp o s
    dsimp only
    split
    · exact hfetch
    · exact hfetch
    · exact hfetch.after (hmark _)

/-! ### Adds -/

theorem receives_removeDelayedJob (p c j i : String) (s : Store) :
    Receives q [] s (removeDelayedJob p c j i s).2 := by
  simp only [removeDelayedJob]
  split
  · refine .of_modify (p := p) (l := [c]) ?_
    rw [Store.xadd_of_ne _ _ _ (by decide), Store.xadd_of_ne _ _ _ (by decide),
      removeJobKeys_frame _ _ (by decide), Keyspace.modify_self, SortedSet.zremAll_singleton]
  · exact .of_frame rfl

theorem receives_deduplicateJob (p : String) (de : DeduplicationOpts) (j : String) (a : AddArgs)
    (s : Store) : Receives q [] s (deduplicateJob p de j a s).2 := by
  simp only [deduplicateJob]
  split
  · split
    · next current _ =>
      have hrem := receives_removeDelayedJob (q := q) p current.jobId j de.id s
      split
      · next s' heq =>
        rw [heq] at hrem
        split
        · exact hrem.after (.of_frame (setDeduplicationKey_frame _ _ _ _ (by decide)))
        · split
          · exact hrem.after (.of_frame (Keyspace.set_of_ne _ (by decide) _ _))
          · exact hrem.after (.of_frame (setDeduplicationKey_frame _ _ _ _ (by decide)))
      · next s' heq =>
        rw [heq] at hrem
        exact hrem.after (.of_frame (storeDeduplicatedNextJob_frame _ _ _ _ _ _ (by decide)))
    · exact .of_frame (setDeduplicationKey_frame _ _ _ _ (by decide))
  · exact .of_frame (deduplicateJobWithoutReplace_frame _ _ _ _ _ (by decide))

theorem receives_storeNewJob {p j : String} {a : AddArgs}
    (hexact : ∀ i ∈ (if q = p then [(j, dueTime a.timestamp a.opts.delay)] else []),
      ExactDue i.2) (s : Store) :
    Receives q (if q = p then [(j, dueTime a.timestamp a.opts.delay)] else []) s
      (storeNewJob (delayedMode p) p j a s) := by
  have hstore : storeJob p j a.name a.data a.opts a.timestamp a.parent a.repeatJobKey s
      (.zset .delayed) = s (.zset .delayed) := storeJob_frame _ _ _ _ _ _ _ _ _ (by decide)
  refine .before hstore (.after (.of_zadd hexact ?_)
    (.of_frame (addParentDependency_frame _ _ _ (by decide))))
  simp only [delayedMode, addDelayedJob]
  rw [addDelayMarkerIfNeeded_frame _ _ (by decide), Store.xadd_of_ne _ _ _ (by decide),
    Keyspace.modify_self]

/-- A duplicate inserts nothing, unless it is a completed job that gets a parent. -/
theorem receives_handleDuplicatedJob {p j : String} {P : Option Parent} (t : ℤ) {s : Store}
    (h : P = none ∨ j ∉ s (.zset .completed) p) :
    Receives q [] s (handleDuplicatedJob p j P t s).2 := by
  have hupdate : updateExistingJobsParent p j P t s (.zset .delayed) = s (.zset .delayed) := by
    cases P with
    | none => rfl
    | some P =>
      have hj : j ∉ s (.zset .completed) p := h.resolve_left (by simp)
      simp only [updateExistingJobsParent, if_neg hj]
      rw [Store.hset_of_ne _ _ _ (by decide), Keyspace.modify_of_ne _ (by decide)]
  refine .of_frame ?_
  unfold handleDuplicatedJob
  split
  · rw [Store.xadd_of_ne _ _ _ (by decide), hupdate]
  · split
    · rw [Store.xadd_of_ne _ _ _ (by decide), hupdate]
    · split
      · rfl
      · exact Store.xadd_of_ne _ _ _ (by decide)

/-- What storing a job that is deduplicated first inserts. -/
def newInsertions (q p j : String) (a : AddArgs) (s : Store) : List (String × ℤ) :=
  match a.opts.de with
  | none => if q = p then [(j, dueTime a.timestamp a.opts.delay)] else []
  | some de =>
    match (deduplicateJob p de j a s).1 with
    | none => if q = p then [(j, dueTime a.timestamp a.opts.delay)] else []
    | some _ => []

theorem receives_addNewJob {p j : String} {a : AddArgs} {s : Store}
    (hexact : ∀ i ∈ newInsertions q p j a s, ExactDue i.2) :
    Receives q (newInsertions q p j a s) s (addNewJob (delayedMode p) p j a s).2 := by
  unfold newInsertions at hexact ⊢
  unfold addNewJob
  cases hde : a.opts.de with
  | none =>
    simp only [hde] at hexact
    exact receives_storeNewJob hexact s
  | some de =>
    simp only [hde] at hexact
    have hded := receives_deduplicateJob (q := q) p de j a s
    have hmode : (delayedMode p).deduplicate de j a s = deduplicateJob p de j a s := rfl
    rcases hres : deduplicateJob p de j a s with ⟨_ | winner, s'⟩
    · rw [hres] at hded hexact
      simp only [hmode, hres]
      exact hded.trans (receives_storeNewJob hexact s')
    · rw [hres] at hded
      simp only [hmode, hres]
      exact hded

theorem receives_addDelayedJob {p : String} {a : AddArgs} {s : Store}
    (h : a.parent = none ∨ a.customId ∉ s (.zset .completed) p)
    (hexact : ∀ i ∈ insertions q s (.addDelayedJob p a), ExactDue i.2) :
    Receives q (insertions q s (.addDelayedJob p a)) s (Script.addDelayedJob p a s).2 := by
  have hdraw : drawId p s (.zset .delayed) = s (.zset .delayed) := drawId_frame p s (by decide)
  have hcompleted : drawId p s (.zset .completed) = s (.zset .completed) :=
    drawId_frame p s (by decide)
  simp only [insertions, storedJob] at hexact
  simp only [insertions, storedJob, Script.addDelayedJob, addJobWith]
  by_cases hparent : (a.parent.map fun P => s.jobExists P.key) = some false
  · rw [if_pos hparent, if_pos hparent]
    exact .of_frame rfl
  rw [if_neg hparent] at hexact
  rw [if_neg hparent, if_neg hparent]
  by_cases hdup : a.customId ≠ "" ∧
      (drawId p s).jobExists (p ++ newJobId p a.customId (drawId p s)) = true
  · rw [if_pos hdup, if_pos hdup]
    refine .before hdraw (receives_handleDuplicatedJob a.timestamp ?_)
    rwa [hcompleted, newJobId, if_neg hdup.1]
  · rw [if_neg hdup] at hexact
    rw [if_neg hdup, if_neg hdup]
    have hmode : (delayedMode p).deduplicate = deduplicateJob p := rfl
    have hnew := receives_addNewJob (q := q) (p := p) (j := newJobId p a.customId (drawId p s))
      (a := a) (s := drawId p s)
    refine .before hdraw ?_
    unfold newInsertions at hnew
    -- Deduplication may let the add in, perhaps in place of a delayed job, or drop it.
    cases hde : a.opts.de with
    | none =>
      simp only [hde] at hexact hnew
      exact hnew hexact
    | some de =>
      simp only [hde, hmode] at hexact hnew ⊢
      cases hwinner : (deduplicateJob p de (newJobId p a.customId (drawId p s)) a
        (drawId p s)).1 with
      | none =>
        simp only [hwinner] at hexact hnew
        exact hnew hexact
      | some winner =>
        simp only [hwinner] at hexact hnew
        exact hnew hexact

/-! ### The other commands -/

theorem receives_moveToDelayed {p : String} {a : DelayArgs} {s : Store}
    (hexact : ∀ i ∈ insertions q s (.moveToDelayed p a), ExactDue i.2) :
    Receives q (insertions q s (.moveToDelayed p a)) s (Script.moveToDelayed p a s).2 := by
  obtain ⟨hno, n, -, -, hres⟩ | ⟨hrel, hres⟩ | ⟨hgives, hres⟩ := Script.moveToDelayed_cases p a s
  · rw [hres, insertions, if_neg fun h => hno h.1]
    exact .of_frame rfl
  · rw [hres, insertions, if_neg fun h => hrel.not_givesUp h.1]
    exact .of_frame (releasedJob_frame _ _ _ _ _ (by decide))
  · have hleft : leftActive p a.jobId a.token a.fieldsToUpdate s (.zset .delayed) =
        s (.zset .delayed) := by
      rw [leftActive, Keyspace.modify_of_ne _ (by decide), releasedJob_frame _ _ _ _ _ (by decide)]
    have hins : insertions q s (.moveToDelayed p a) =
        if q = p then [(a.jobId, dueTime a.timestamp a.delay)] else [] := by
      simp only [insertions, hgives, true_and]
    rw [hins] at hexact ⊢
    rw [hres]
    refine .before hleft (.after (.of_zadd hexact ?_) (receives_fetchOrMark p a _))
    simp only [delayJob]
    rw [Store.xadd_of_ne _ _ _ (by decide), Keyspace.modify_self,
      getOrSetMaxEvents_frame _ _ (by decide), Store.hset_of_ne _ _ _ (by decide)]
    split
    · rfl
    · rw [Store.hset_of_ne _ _ _ (by decide)]

theorem receives_changeDelay {p : String} {d t : ℤ} {j : String} {s : Store}
    (hexact : ∀ i ∈ insertions q s (.changeDelay p d t j), ExactDue i.2) :
    Receives q (insertions q s (.changeDelay p d t j)) s (Script.changeDelay p d t j s).2 := by
  unfold Script.changeDelay
  by_cases hex : s.jobExists (p ++ j) = true
  · by_cases hj : j ∈ s (.zset .delayed) p
    · have hins : insertions q s (.changeDelay p d t j) =
          if q = p then [(j, dueTime t d)] else [] := by
        simp only [insertions, hex, hj, and_self, true_and]
      rw [hins] at hexact ⊢
      simp only [hex, hj, not_true_eq_false, if_false]
      -- The score is computed while the job is still in the set.
      refine .of_zadd hexact ?_
      rw [addDelayMarkerIfNeeded_frame _ _ (by decide), Store.xadd_of_ne _ _ _ (by decide),
        getOrSetMaxEvents_frame _ _ (by decide), Keyspace.modify_self,
        Store.hset_of_ne _ _ _ (by decide), Keyspace.modify_self, Function.update_self,
        SortedSet.zadd_zrem, Function.update_idem]
    · have hins : insertions q s (.changeDelay p d t j) = [] := by simp [insertions, hj]
      rw [hins]
      simp only [hex, hj, not_true_eq_false, not_false_eq_true, if_false, if_true]
      exact .of_frame rfl
  · have hins : insertions q s (.changeDelay p d t j) = [] := by simp [insertions, hex]
    rw [hins]
    simp only [hex]
    exact .of_frame rfl

theorem receives_promote (p j : String) (s : Store) :
    Receives q [] s (Script.promote p j s).2 := by
  have hdrop : ∀ s' : Store, dropHeadMarker p s' (.zset .delayed) = s' (.zset .delayed) := fun s' =>
    Keyspace.modify_of_ne _ (by decide) _ _
  simp only [Script.promote]
  split
  · refine .of_modify (p := p) (l := [j]) ?_
    rw [Store.hset_of_ne _ _ _ (by decide), Store.xadd_of_ne _ _ _ (by decide),
      SortedSet.zremAll_singleton]
    split
    · rw [addJobInTargetList_frame _ _ _ _ _ (by decide), hdrop, Keyspace.modify_self]
    · rw [addJobWithPriority_frame _ _ _ _ _ (by decide), hdrop, Keyspace.modify_self]
  · exact .of_frame rfl

theorem requeueJob_delayed (p : String) (a : RetryArgs) (s : Store) :
    requeueJob p a s (.zset .delayed) = s (.zset .delayed) := by
  simp only [requeueJob]
  rw [Store.xadd_of_ne _ _ _ (by decide), getOrSetMaxEvents_frame _ _ (by decide),
    Store.hset_of_ne _ _ _ (by decide)]
  split
  · exact addJobInTargetList_frame _ _ _ _ _ (by decide)
  · exact addJobWithPriority_frame _ _ _ _ _ (by decide)

theorem receives_retryJob (p : String) (a : RetryArgs) (s : Store) :
    Receives q [] s (Script.retryJob p a s).2 := by
  obtain ⟨s₀, hs₀, hcases⟩ := Script.retryJob_cases p a s
  have hpromoted : Receives q [] s s₀ := hs₀ ▸ receives_promoteDelayedJobs p a.timestamp _ s
  obtain ⟨-, n, -, -, hres⟩ | ⟨-, hres⟩ | ⟨-, hres⟩ := hcases
  · rw [hres]
    exact hpromoted
  · rw [hres]
    exact hpromoted.after (.of_frame (releasedJob_frame _ _ _ _ _ (by decide)))
  · rw [hres]
    refine hpromoted.after (.of_frame ?_)
    rw [requeueJob_delayed, leftActive, Keyspace.modify_of_ne _ (by decide),
      releasedJob_frame _ _ _ _ _ (by decide)]

/-- **What a command inserts.** -/
theorem receives_exec {s : Store} {c : Command} {r : Reply × Store} (hc : DelayCommand s c)
    (hexact : ∀ i ∈ insertions q s c, ExactDue i.2) (hexec : c.exec s = some r) :
    Receives q (insertions q s c) s r.2 := by
  cases c with
  | addDelayedJob p a =>
    obtain rfl := Option.some.inj hexec
    exact receives_addDelayedJob hc hexact
  | moveToDelayed p a =>
    obtain rfl := Option.some.inj hexec
    exact receives_moveToDelayed hexact
  | changeDelay p d t j =>
    obtain rfl := Option.some.inj hexec
    exact receives_changeDelay hexact
  | promote p j =>
    obtain rfl := Option.some.inj hexec
    exact receives_promote p j s
  | retryJob p a =>
    obtain rfl := Option.some.inj hexec
    exact receives_retryJob p a s
  | moveToActive p t o =>
    obtain rfl := Option.some.inj hexec
    exact receives_fetchWith (fun s _ hκ => popForMoveToActive_frame p s hκ) t o s
  -- The others only take jobs out of the set.
  | _ => exact .of_removed (hc _ hexec q)

/-- The delayed set of every queue is banded by the log of its insertions. -/
theorem banded_of_run {steps : List (Store × Command × Store)} {s : Store}
    (run : Transition.Run (Step ExactDelayCommand) .empty steps s) (p : String) :
    Banded 0x1000 (s (.zset .delayed) p) (delayLog p steps) := by
  refine run.induct (I := fun steps s => Banded 0x1000 (s (.zset .delayed) p) (delayLog p steps))
    (Banded.empty _) fun steps t c u ih hstep => ?_
  have hlog : delayLog p (steps ++ [(t, c, u)]) = delayLog p steps ++ insertions p t c := by
    simp [delayLog]
  rw [hlog]
  obtain ⟨⟨hc, hexact⟩, reply, hexec⟩ := hstep
  exact receives_exec hc (hexact p) hexec _ ih

end Helpers

/-! ### The loop of `promoteDelayedJobs` -/

theorem promoteDelayedJob_priorityOf (p j : String) (s : Store) (k : String) :
    (promoteDelayedJob p s j).priorityOf k = s.priorityOf k := by
  set s₁ : Store :=
    if s.priorityOf (p ++ j) = 0 then s.modify (.list .wait) p (lpush j)
    else (getPriorityScore p (s.priorityOf (p ++ j)) s).2.modify (.zset .prioritized) p
      (·.zadd (getPriorityScore p (s.priorityOf (p ++ j)) s).1 j) with hs₁
  have hhash : s₁ .hash = s .hash := by
    rw [hs₁]
    split
    · exact Keyspace.modify_of_ne _ (by decide) _ _
    · rw [Keyspace.modify_of_ne _ (by decide), getPriorityScore,
        Keyspace.modify_of_ne _ (by decide)]
  have hloop : promoteDelayedJob p s j = Store.hset (s₁.xadd p (.waiting j (some "delayed")))
      (p ++ j) fun job => { job with delay := some 0 } := rfl
  rw [hloop, Store.priorityOf, Store.hset, Keyspace.modify_self, Store.xadd_of_ne _ _ _ (by decide),
    hhash, Function.update_apply, Store.priorityOf]
  split
  · next heq =>
    rw [heq]
    cases s .hash (p ++ j) <;> rfl
  · rfl

/-- Where one round puts the job. -/
theorem promoteDelayedJob_moves (p j : String) (s : Store) :
    promoteDelayedJob p s j (.list .wait) p =
      (if s.priorityOf (p ++ j) = 0 then [j] else []) ++ s (.list .wait) p ∧
    ∀ i, i ∈ promoteDelayedJob p s j (.zset .prioritized) p ↔
      i ∈ s (.zset .prioritized) p ∨ i = j ∧ s.priorityOf (p ++ j) ≠ 0 := by
  simp only [promoteDelayedJob]
  rw [Store.hset_of_ne _ _ _ (by decide), Store.xadd_of_ne _ _ _ (by decide),
    Store.hset_of_ne _ _ _ (by decide), Store.xadd_of_ne _ _ _ (by decide)]
  by_cases hprio : s.priorityOf (p ++ j) = 0
  · rw [if_pos hprio, if_pos hprio, Keyspace.modify_self, Keyspace.modify_of_ne _ (by decide),
      Function.update_self]
    exact ⟨rfl, fun i => by simp [hprio]⟩
  · rw [if_neg hprio, if_neg hprio]
    have hcounter : ∀ κ, κ ≠ .pc → (getPriorityScore p (s.priorityOf (p ++ j)) s).2 κ = s κ :=
      fun κ hκ => Keyspace.modify_of_ne _ hκ _ _
    refine ⟨?_, fun i => ?_⟩
    · rw [Keyspace.modify_of_ne _ (by decide), hcounter _ (by decide), List.nil_append]
    · rw [Keyspace.modify_self, Function.update_self, SortedSet.mem_zadd, hcounter _ (by decide)]
      simp [hprio, or_comm]

/-- The loop pushes the jobs without a priority one after the other and puts the others among the
prioritized ones. -/
theorem foldl_promoteDelayedJob_moves (p : String) (jobs : List String) (s : Store) :
    jobs.foldl (promoteDelayedJob p) s (.list .wait) p =
      (jobs.filter fun j => s.priorityOf (p ++ j) = 0).reverse ++ s (.list .wait) p ∧
    ∀ i, i ∈ jobs.foldl (promoteDelayedJob p) s (.zset .prioritized) p ↔
      i ∈ s (.zset .prioritized) p ∨ i ∈ jobs ∧ s.priorityOf (p ++ i) ≠ 0 := by
  induction jobs generalizing s with
  | nil => simp
  | cons j jobs ih =>
    obtain ⟨hwait, hprio⟩ := promoteDelayedJob_moves p j s
    obtain ⟨ihwait, ihprio⟩ := ih (promoteDelayedJob p s j)
    simp only [promoteDelayedJob_priorityOf] at ihwait ihprio
    refine ⟨?_, fun i => ?_⟩
    · rw [List.foldl_cons, ihwait, hwait, List.filter_cons]
      by_cases h : s.priorityOf (p ++ j) = 0 <;> simp [h]
    · rw [List.foldl_cons, ihprio, hprio, List.mem_cons]
      constructor
      · rintro ((h | ⟨rfl, h⟩) | ⟨h, h'⟩)
        · exact .inl h
        · exact .inr ⟨.inl rfl, h⟩
        · exact .inr ⟨.inr h, h'⟩
      · rintro (h | ⟨rfl | h, h'⟩)
        · exact .inl (.inl h)
        · exact .inl (.inr ⟨rfl, h'⟩)
        · exact .inr ⟨h, h'⟩

/-! ### The law of promotion -/

/-- `jobs` are moved out of the delayed set of `p` at the time `t`: due ones only, in the order of
their due times, at most a thousand, none lost, and those of a millisecond with fewer than 4096
insertions in the order of these. -/
structure Promotes (log : List (String × ℤ)) (p : String) (t : ℤ) (jobs : List String)
    (s s' : Store) : Prop where
  nodup : jobs.Nodup
  /-- They were delayed and are due. -/
  due : ∀ j ∈ jobs, j ∈ s (.zset .delayed) p ∧ ∃ due, lastBand log j = some due ∧ due ≤ t
  atMost : jobs.length ≤ 1000
  /-- A due job stays behind only where a thousand others are moved. -/
  all : ∀ j ∈ s (.zset .delayed) p, ∀ due, lastBand log j = some due → 0 ≤ due → due ≤ t →
    j ∈ jobs ∨ jobs.length = 1000
  byDueTime : jobs.Pairwise fun j k =>
    ∀ due due', lastBand log j = some due → lastBand log k = some due' → due ≤ due'
  delayed : s' (.zset .delayed) p = (s (.zset .delayed) p).zremAll jobs
  /-- The wait list is popped at its right end: what is moved first is processed first. -/
  wait : s' (.list .wait) p =
    (jobs.filter fun j => s.priorityOf (p ++ j) = 0).reverse ++ s (.list .wait) p
  prioritized : ∀ j, j ∈ s' (.zset .prioritized) p ↔
    j ∈ s (.zset .prioritized) p ∨ j ∈ jobs ∧ s.priorityOf (p ++ j) ≠ 0
  byInsertion : ∀ i ∈ s (.zset .delayed) p, ∀ j ∈ jobs, ∀ due, lastBand log i = some due →
    lastBand log j = some due → insertionsIn log due < 0x1000 → InsertedBefore log i j →
    Before jobs i j

/-- The jobs `promoteDelayedJobs` finds at a time whose scores are exact, or at a negative one. -/
theorem dueJobs_eq {t : ℤ} (ht : t < 2 ^ 41) (p : String) (s : Store) :
    dueJobs p t s = ((s (.zset .delayed) p).rangeByScore 0 ((t + 1) * 0x1000 - 1)).take 1000 := by
  by_cases hlo : -2 ^ 41 ≤ t
  · rw [dueJobs, maxDelayedScore_eq ⟨hlo, ht⟩]
  · have hempty : ∀ hi : ℤ, hi < 0 → (s (.zset .delayed) p).rangeByScore 0 hi = [] := by
      intro hi hneg
      rw [SortedSet.rangeByScore, SortedSet.entriesByScore, List.map_eq_nil_iff,
        List.filter_eq_nil_iff]
      intro e _ h
      have hrange := of_decide_eq_true h
      omega
    have hpacked : toDouble (toDouble (t + 1) * 0x1000) < 0 := by
      have hnext : toDouble (t + 1) < 0 := toDouble_neg (by omega)
      exact toDouble_neg (by omega)
    have hmax : maxDelayedScore t < 0 := toDouble_neg (by omega)
    rw [dueJobs, hempty _ hmax, hempty _ (by omega)]

theorem promotes_dueJobs {log : List (String × ℤ)} {p : String} {s : Store}
    (h : Banded 0x1000 (s (.zset .delayed) p) log) {t : ℤ} (ht : t < 2 ^ 41) (isPaused : Bool) :
    Promotes log p t (dueJobs p t s) s (promoteDelayedJobs p t isPaused s) := by
  have hw : (0 : ℤ) < 0x1000 := by decide
  -- A score is in the range of the script exactly if its band is due.
  have hmem : ∀ j, j ∈ (s (.zset .delayed) p).rangeByScore 0 ((t + 1) * 0x1000 - 1) ↔
      ∃ score, (s (.zset .delayed) p).zscore j = some score ∧ 0 ≤ score / 0x1000 ∧
        score / 0x1000 ≤ t := fun j => Banded.mem_rangeByScore hw
  have hnodup : ((s (.zset .delayed) p).rangeByScore 0 ((t + 1) * 0x1000 - 1)).Nodup :=
    (SortedSet.members_nodup _).sublist (SortedSet.rangeByScore_sublist _ _ _)
  have hjobs := dueJobs_eq ht p s
  have hmoves : ∀ κ, κ ≠ .marker → promoteDelayedJobs p t isPaused s κ =
      (dueJobs p t s).foldl (promoteDelayedJob p)
        (s.modify (.zset .delayed) p (·.zremAll (dueJobs p t s))) κ := by
    intro κ hκ
    simp only [promoteDelayedJobs]
    split
    · next hnil =>
      have hself : s.modify (.zset .delayed) p (·.zremAll []) = s :=
        Keyspace.set_eq_self s (SortedSet.zremAll_nil _).symm
      rw [hnil, List.foldl_nil, hself]
    · exact addBaseMarkerIfNeeded_frame _ _ _ (by simpa using hκ)
  have hpriority : ∀ k, Store.priorityOf
      (s.modify (.zset .delayed) p (·.zremAll (dueJobs p t s))) k = s.priorityOf k := by
    intro k
    rw [Store.priorityOf, Keyspace.modify_of_ne _ (by decide), Store.priorityOf]
  obtain ⟨hwait, hprio⟩ := foldl_promoteDelayedJob_moves p (dueJobs p t s)
    (s.modify (.zset .delayed) p (·.zremAll (dueJobs p t s)))
  simp only [hpriority] at hwait hprio
  refine ⟨hjobs ▸ hnodup.sublist (List.take_sublist _ _), fun j hj => ?_,
    hjobs ▸ List.length_take_le _ _,
    fun j hj due hdue hlo hhi => ?_, ?_, ?_, ?_, fun j => ?_,
    fun i hi j hj due hidue hjdue hfew hij => ?_⟩
  · rw [hjobs] at hj
    obtain ⟨score, hscore, -, hle⟩ := (hmem j).mp (List.mem_of_mem_take hj)
    exact ⟨SortedSet.mem_of_zscore hscore, _, h.band j score hscore, hle⟩
  · obtain ⟨score, hscore⟩ := SortedSet.exists_zscore hj
    obtain rfl : score / 0x1000 = due := by simpa [h.band _ _ hscore] using hdue
    have hrange := (hmem j).mpr ⟨score, hscore, hlo, hhi⟩
    by_cases hfull : 1000 ≤ ((s (.zset .delayed) p).rangeByScore 0 ((t + 1) * 0x1000 - 1)).length
    · exact .inr (by rw [hjobs, List.length_take, min_eq_left hfull])
    · exact .inl (by rwa [hjobs, List.take_of_length_le (by omega)])
  · rw [hjobs]
    exact (h.pairwise_lastBand hw _ _).sublist (List.take_sublist _ _)
  · rw [promoteDelayedJobs_delayed, Function.update_self]
  · rw [hmoves _ (by decide), hwait, Keyspace.modify_of_ne _ (by decide)]
  · rw [hmoves _ (by decide), hprio, Keyspace.modify_of_ne _ (by decide)]
  · rw [hjobs] at hj ⊢
    have hbefore := h.before_rangeByScore hw hi (List.mem_of_mem_take hj) hidue hjdue
      (by omega) hij
    exact hbefore.take hnodup hj

/-- **Delayed scores and promotion.** In every state of every run, the score of a delayed job is in
the band of the millisecond it is due, and `promoteDelayedJobs` keeps to the law of promotion. -/
theorem delayed_scores_and_promotion {steps : List (Store × Command × Store)} {s : Store}
    (run : Transition.Run (Step ExactDelayCommand) .empty steps s) (p : String) :
    (∀ j score, (s (.zset .delayed) p).zscore j = some score →
      lastBand (delayLog p steps) j = some (score / 0x1000)) ∧
    ∀ t < 2 ^ 41, ∀ isPaused, Promotes (delayLog p steps) p t (dueJobs p t s) s
      (promoteDelayedJobs p t isPaused s) := by
  have hbanded := banded_of_run run p
  exact ⟨hbanded.band, fun t ht isPaused => promotes_dueJobs hbanded ht isPaused⟩

/-- Add a job that is due at a millisecond. -/
def addDueAt (due timestamp : ℤ) : Command :=
  .addDelayedJob "bull:q:"
    { name := "n", data := "", timestamp := timestamp, opts := { delay := due - timestamp } }

theorem due_of_mem_insertions {q : String} {s : Store} {due t : ℤ} (h : t < due) :
    ∀ i ∈ insertions q s (addDueAt due t), i.2 = due := by
  have hdue : dueTime t (due - t) = due := by
    unfold dueTime
    split_ifs <;> omega
  intro i hi
  simp only [insertions, addDueAt, hdue] at hi
  split at hi
  · split_ifs at hi with hq
    · rw [List.mem_singleton.mp hi]
    · cases hi
  · cases hi

/-- The queue after two jobs have been added that are due at the same millisecond. -/
def oneDueAt15 : Store := (((addDueAt 15 5).exec .empty).map Prod.snd).getD .empty

@[inherit_doc oneDueAt15]
def twoDueAt15 : Store := (((addDueAt 15 7).exec oneDueAt15).map Prod.snd).getD .empty

theorem twoDueAt15_promoted_in_order :
    (twoDueAt15 (.zset .delayed) "bull:q:").zscore "2" = some (15 * 4096 + 1) ∧
      Promotes [("1", 15), ("2", 15)] "bull:q:" 15 ["1", "2"] twoDueAt15
        (promoteDelayedJobs "bull:q:" 15 false twoDueAt15) := by
  have hexact : ∀ s t, t < 15 → ExactDelayCommand s (addDueAt 15 t) := by
    refine fun s t ht => ⟨.inl rfl, fun q i hi => ?_⟩
    rw [due_of_mem_insertions ht i hi]
    decide
  have hfirst : Step ExactDelayCommand .empty (addDueAt 15 5) oneDueAt15 :=
    ⟨hexact _ _ (by decide), .id "1", rfl⟩
  have hsecond : Step ExactDelayCommand oneDueAt15 (addDueAt 15 7) twoDueAt15 :=
    ⟨hexact _ _ (by decide), .id "2", rfl⟩
  have hlaw := (delayed_scores_and_promotion (.snoc (.single hfirst) hsecond) "bull:q:").2 15
    (by decide) false
  have hlog : delayLog "bull:q:" ([(Store.empty, addDueAt 15 5, oneDueAt15)] ++
      [(oneDueAt15, addDueAt 15 7, twoDueAt15)]) = [("1", 15), ("2", 15)] := by decide
  have hdue : dueJobs "bull:q:" 15 twoDueAt15 = ["1", "2"] := by decide
  rw [hlog, hdue] at hlaw
  exact ⟨by decide, hlaw⟩

/-- The queue after a job due at `2 ^ 41 + 1` has been added, and then one due at `2 ^ 41`. -/
def dueIn2039 : Store := (((addDueAt (2 ^ 41 + 1) 5).exec .empty).map Prod.snd).getD .empty

@[inherit_doc dueIn2039]
def twoDueIn2039 : Store := (((addDueAt (2 ^ 41) 7).exec dueIn2039).map Prod.snd).getD .empty

/-- From `2 ^ 41` on the last score of a millisecond is rounded up to the first one of the next:
there the second job of the run lands. -/
theorem rounded_into_next_millisecond :
    ¬ ∀ (steps : List (Store × Command × Store)) (s : Store)
      (_ : Transition.Run (Step DelayCommand) .empty steps s) (p j : String) (score : ℤ),
      (s (.zset .delayed) p).zscore j = some score →
        lastBand (delayLog p steps) j = some (score / 0x1000) := by
  intro h
  have hfirst : Step DelayCommand .empty (addDueAt (2 ^ 41 + 1) 5) dueIn2039 :=
    ⟨.inl rfl, .id "1", rfl⟩
  have hsecond : Step DelayCommand dueIn2039 (addDueAt (2 ^ 41) 7) twoDueIn2039 :=
    ⟨.inl rfl, .id "2", rfl⟩
  have hscore : (twoDueIn2039 (.zset .delayed) "bull:q:").zscore "2" =
      some ((2 ^ 41 + 1) * 0x1000) := by decide +kernel
  have hlog : lastBand (delayLog "bull:q:" ([(Store.empty, addDueAt (2 ^ 41 + 1) 5, dueIn2039)] ++
      [(dueIn2039, addDueAt (2 ^ 41) 7, twoDueIn2039)])) "2" = some (2 ^ 41) := by decide +kernel
  have hband := h _ _ (.snoc (.single hfirst) hsecond) "bull:q:" "2" _ hscore
  rw [hlog] at hband
  simp at hband

end BullMQ
