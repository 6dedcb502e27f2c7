import BullMQ.Dedup.Jobs

/-!
# Finishing a job in the register of claims

A job that is finished leaves the active list and is in no container until it is recorded or deleted
at the end. In between the store is looked at without the hash of that job (`Store.hide`): what is
left is in its place. In the register, finishing a job is one event, after the expiry of a key whose
time has run out and before the jobs that retention deletes (`moveToFinished_step`).
-/

namespace BullMQ

open Redis Claims

/-! ### Without the hash of one job -/

/-- The store without one job hash. -/
def Store.hide (s : Store) (k : String) : Store := s.set .hash k none

section Hide

variable {K : KeySpace} {s s' : Store} {k : String}

theorem Store.hide_frame (s : Store) (k : String) {κ : Kind} (h : κ ∉ [Kind.hash]) :
    s.hide k κ = s κ :=
  Keyspace.set_of_ne _ (by simpa using h) ..

theorem Store.hide_hash (s : Store) (k : String) :
    s.hide k .hash = Function.update (s .hash) k none :=
  Keyspace.set_self ..

theorem Store.hide_jobExists (s : Store) (k k' : String) :
    (s.hide k).jobExists k' = (s.jobExists k' && decide (k' ≠ k)) := by
  rw [Store.jobExists, Store.hide_hash, Function.update_apply, Store.jobExists]
  by_cases hk : k' = k
  · simp [hk]
  · simp [hk]

theorem Store.hide_parentOf (s : Store) (k k' : String) :
    (s.hide k).parentOf k' = if k' = k then none else s.parentOf k' := by
  rw [Store.parentOf, Store.hide_hash, Function.update_apply, Store.parentOf]
  split <;> rfl

theorem occ_hide (s : Store) (k q i : String) : occ (s.hide k) q i = occ s q i :=
  occ_congr (fun c => s.hide_frame k (by rcases c with _ | _ <;> simp [Container.kind])) q i

theorem Erases.of_hide (s : Store) (k : String) : Erases [k] s (s.hide k) :=
  ⟨occ_hide s k, fun k' => by simp [Store.hide_jobExists]⟩

theorem Sound.of_hide (h : Sound K (s.hide k)) : Sound K s where
  le_one q i := occ_hide s k q i ▸ h.le_one q i
  valid {q i} hocc := h.valid (by rwa [occ_hide])
  exist {q i} hocc := by
    have hex := h.exist (p := q) (j := i) (by rwa [occ_hide])
    rw [Store.hide_jobExists] at hex
    exact (Bool.and_eq_true_iff.mp hex).1

theorem SamePlaces.hide (h : SamePlaces s s') (k : String) : SamePlaces (s.hide k) (s'.hide k) :=
  ⟨fun q i => by rw [occ_hide, occ_hide, h.occ],
    fun k' => by rw [Store.hide_jobExists, Store.hide_jobExists, h.exist]⟩

theorem Registers.hide {c₀ : String} (h : Registers c₀ s s') (k : String) :
    Registers c₀ (s.hide k) (s'.hide k) :=
  (Registers.of_frame (W := [.hash]) (by decide) fun hκ => (s.hide_frame k hκ).symm).trans
    (h.trans (.of_frame (W := [.hash]) (by decide) fun hκ => s'.hide_frame k hκ))

variable {p j : String}

/-- A new job beside the hidden one. -/
theorem Adds.hide (h : Adds p j s s') (hk : k ≠ p ++ j) : Adds p j (s.hide k) (s'.hide k) := by
  refine ⟨fun q i => by rw [occ_hide, occ_hide, h.occ], fun k' => ?_⟩
  rw [Store.hide_jobExists, Store.hide_jobExists, h.exist]
  by_cases hk' : k' = p ++ j
  · simp [hk', hk.symm]
  · simp [hk']

/-- The hidden job enters a container. -/
theorem Enters.adds (h : Enters p j s s') (hex : s.jobExists (p ++ j) = true) :
    Adds p j (s.hide (p ++ j)) s' := by
  refine ⟨fun q i => by rw [h.occ, occ_hide], fun k' => ?_⟩
  rw [h.exist, Store.hide_jobExists]
  by_cases hk' : k' = p ++ j
  · simp [hk', hex]
  · simp [hk']

/-- The hidden job is deleted. -/
theorem Erases.same_of_hide (h : Erases [k] s s') : SamePlaces (s.hide k) s' :=
  ⟨fun q i => by rw [h.occ, occ_hide], fun k' => by rw [h.exist, Store.hide_jobExists]; simp⟩

end Hide

/-! ### Between leaving and entering -/

/-- A store in which the job `j` of the queue `p` is in no container, with the deduplication id and
the parent that the job has. -/
structure Finishing (Q : QueueSet) (p j : String) (o : Option String) (R : Option Parent)
    (s : Store) : Prop where
  base : Q.Base p
  legal : QueueSet.Legal j
  colonFree : R ≠ none → ColonFree j
  grounded : Grounded Q (s.hide (p ++ j))
  absent : occ s p j = 0
  exist : s.jobExists (p ++ j) = true
  deid : s.deidOf (p ++ j) = o
  parent : s.parentOf (p ++ j) = R

section Finishing

variable {Q : QueueSet} {p j : String} {o : Option String} {R : Option Parent} {s s' : Store}

theorem Finishing.start (h : Grounded Q s) (hp : Q.Base p) {t : String} (hg : GivesUp s p j t)
    (f : Option FieldsToUpdate) :
    Finishing Q p j (s.deidOf (p ++ j)) (s.parentOf (p ++ j)) (leftActive p j t f s) := by
  have hleft := leftActive_leaves hg.jobExists hg.active t f
  have hevolves := leftActive_evolves p j s t f
  have hvalid := h.valid_list hg.active
  have hretains : Retains s ((leftActive p j t f s).hide (p ++ j)) :=
    .of_deletes h.toSound (by simpa using hvalid) (hleft.deletes (.of_hide _ _) (h.le_one p j))
  refine ⟨hp, hvalid.2, h.linked hp, h.quiet hretains (fun c₀ => ?_) fun k => ?_,
    hleft.occ_eq_zero (h.le_one p j), (hleft.exist _).symm.trans hg.jobExists, hevolves.deidOf _,
    hevolves.parentOf _⟩
  · exact (Registers.of_frame (by decide) (leftActive_frame p j t f s)).trans
      (.of_frame (W := [.hash]) (by decide) fun hκ => Store.hide_frame _ _ hκ)
  · rw [Store.hide_parentOf, hevolves.parentOf]
    split
    · exact .inr rfl
    · exact .inl rfl

/-- A step that moves other jobs about, and registers at most the job itself. -/
theorem Finishing.carry (h : Finishing Q p j o R s) (hsame : SamePlaces s s')
    (hevolves : Evolves s s')
    (hregisters : R ≠ none ∧ Registers (p ++ j) s s' ∨ ∀ c₀, Registers c₀ s s') :
    Finishing Q p j o R s' := by
  refine { h with
    grounded := ⟨h.grounded.toPlaced.retains (.of_same h.grounded.toSound (hsame.hide _)), ?_, ?_⟩
    absent := (hsame.occ _ _).trans h.absent
    exist := (hsame.exist _).trans h.exist
    deid := (hevolves.deidOf _).trans h.deid
    parent := (hevolves.parentOf _).trans h.parent }
  · obtain ⟨hR, hregisters⟩ | hregisters := hregisters
    · exact h.grounded.children.registers (hregisters.hide _) ⟨h.base, h.legal, h.colonFree hR⟩
    · exact h.grounded.children.removes fun c₀ => (hregisters c₀).hide _
  · intro q i hq hne
    refine h.grounded.linked hq ?_
    rwa [Store.hide_parentOf, hevolves.parentOf, ← Store.hide_parentOf] at hne

theorem Finishing.of_frame {W : List Kind} (h : Finishing Q p j o R s)
    (hW : ∀ κ ∈ placeKinds ++ accountKinds, κ ∉ W) (hs : ∀ {κ}, κ ∉ W → s' κ = s κ) :
    Finishing Q p j o R s' :=
  h.carry (.of_frame (fun κ hκ => hW κ (List.mem_append_left _ hκ)) hs)
    (.of_frame (hW _ (by decide)) hs)
    (.inr fun _ => .of_frame (fun κ hκ => hW κ (List.mem_append_right _ hκ)) hs)

theorem Finishing.notifyParent {a : FinishArgs} (h : Finishing Q p a.jobId o R s) :
    Finishing Q p a.jobId o R (BullMQ.notifyParent R (p ++ a.jobId) a s) := by
  refine h.carry (notifyParent_same h.grounded.toSound.of_hide R _ a)
    (notifyParent_evolves s R _ a) ?_
  cases R with
  | none => exact .inr fun c₀ => .refl s
  | some P => exact .inl ⟨by simp, notifyParent_registers (some P) a s⟩

/-- The job is recorded: it enters its set. -/
theorem Finishing.enter (h : Finishing Q p j o R s) (henters : Enters p j s s')
    (hevolves : Evolves s s') (hregisters : ∀ c₀, Registers c₀ s s') : Grounded Q s' := by
  have hnew : (s.hide (p ++ j)).jobExists (p ++ j) = false := by simp [Store.hide_jobExists]
  refine h.grounded.adds h.base h.legal hnew (henters.adds h.exist) (.inr fun c₀ => ?_)
    (fun k hk => ?_) fun hne => ?_
  · exact (Registers.of_frame (W := [.hash]) (by decide) fun hκ => (s.hide_frame _ hκ).symm).trans
      (hregisters c₀)
  · rw [hevolves.parentOf, Store.hide_parentOf, if_neg hk]
  · rw [hevolves.parentOf, h.parent] at hne
    exact h.colonFree hne

/-- The job is deleted. -/
theorem Finishing.delete (h : Finishing Q p j o R s) : Grounded Q (removeJobKeys (p ++ j) s) := by
  refine h.grounded.quiet (.of_same h.grounded.toSound (removeJobKeys_erases _ s).same_of_hide)
    (fun c₀ => ?_) fun k => .inl ?_
  · exact (Registers.of_frame (W := [.hash]) (by decide) fun hκ => (s.hide_frame _ hκ).symm).trans
      (removeJobKeys_registers _ s)
  · rw [Store.parentOf, removeJobKeys_hash, Store.parentOf, Store.hide_hash]

end Finishing

/-! ### The successor -/

/-- How a kept payload becomes a job: as an add that goes where its options say. -/
def requeueMode (p : String) : AddMode where
  deduplicate := deduplicateJob p
  enqueue jobId a s :=
    if a.opts.delay ≠ 0 then addDelayedJob p jobId a.timestamp a.opts.delay s
    else
      Store.xadd (if 0 < a.opts.priority then
          addJobWithPriority p a.opts.priority jobId (isQueuePausedOrMaxed p s) s
        else addJobInTargetList p (if a.opts.lifo then .rpush else .lpush)
          (isQueuePausedOrMaxed p s)
          jobId s) p (.waiting jobId none)

/-- The add that a kept payload stands for. -/
def DeduplicatedNextJob.args (next : DeduplicatedNextJob) (timestamp : ℤ) : AddArgs where
  name := next.name
  data := next.data
  timestamp := timestamp
  opts := next.opts
  parent := next.parent
  repeatJobKey := next.rjk

theorem requeueMode_quiet (p j : String) (a : AddArgs) (s : Store) {κ : Kind}
    (h : κ ∉ placingWrites) : (requeueMode p).enqueue j a s κ = s κ := by
  have hev : κ ≠ .events := by rintro rfl; exact h (by decide)
  simp only [requeueMode]
  split
  · exact addDelayedJob_frame _ _ _ _ _ (Kind.notMem_mono h (by decide))
  · rw [Store.xadd_of_ne _ _ _ hev]
    split
    · exact addJobWithPriority_frame _ _ _ _ _ (Kind.notMem_mono h (by decide))
    · exact addJobInTargetList_frame _ _ _ _ _ (Kind.notMem_mono h (by decide))

theorem requeueMode_dedups (p : String) : (requeueMode p).Dedups p where
  framed := framed_of_deduplicateJob fun _ _ _ _ h =>
    requeueMode_quiet _ _ _ _ (Kind.notMem_mono h (by decide))
  enqueues j a s h := by
    simp only [requeueMode]
    split
    · exact addDelayedJob_enters h _ _
    · refine Enters.same_right ?_ (.xadd _ _ _)
      split
      · exact addJobWithPriority_enters h ..
      · exact addJobInTargetList_enters ..
  quiet _ _ _ _ h := requeueMode_quiet _ _ _ _ h
  result _ _ _ _ := deduplicateJob_result

/-- The store in which the successor is stored: it holds the key. -/
def succeeded (p d : String) (next : DeduplicatedNextJob) (s : Store) : Store :=
  getOrSetMaxEvents p (setDeduplicationKey (deduplicationKey p d) next.jid none
    (s.modify .id p (· + 1)))

/-- The payloads of a queue can become jobs: their ids are free. -/
def PayloadsReady (p : String) (s : Store) : Prop :=
  ∀ d next, s .dn (deduplicationNextKey p d) = some next →
    next.Legal d ∧ s.jobExists (p ++ next.jid) = false

section Successor

variable {Q : QueueSet} {p q j d : String} {o : Option String} {R : Option Parent} {s s' : Store}
  {next : DeduplicatedNextJob}

theorem PayloadsReady.of_frame {W : List Kind} (h : PayloadsReady p s)
    (hW : Kind.dn ∉ W ∧ Kind.hash ∉ W) (hs : ∀ {κ}, κ ∉ W → s' κ = s κ) :
    PayloadsReady p s' := fun d next hnext => by
  rw [hs hW.1] at hnext
  rw [Store.jobExists, hs hW.2]
  exact h d next hnext

theorem DedupBase.payloadsReady (h : DedupBase Q s) (hp : Q.Base p) : PayloadsReady p s :=
  fun d next hnext => ⟨h.payload hp hnext, claims_job_eq_none.mp (h.reserving hp d next hnext).1⟩

/-- A kept payload is stored as a new job, and is kept no longer. -/
theorem requeueDeduplicatedJob_of_some (hnext : s .dn (deduplicationNextKey p d) = some next)
    (hkept : next.KeptUnder d) (t : ℤ) : requeueDeduplicatedJob p (some d) t s =
      Keyspace.set (storeNewJob (requeueMode p) p next.jid (next.args t) (succeeded p d next s)) .dn
        (deduplicationNextKey p d) none := by
  obtain ⟨de, hde, -, hkeep⟩ := hkept
  simp only [requeueDeduplicatedJob, hnext, hde, Option.map_some, Option.getD_some, hkeep, if_true]
  rfl

theorem succeeded_frame (p d : String) (next : DeduplicatedNextJob) (s : Store) {κ : Kind}
    (h : κ ∉ [Kind.id, .de, .metaMaxLenEvents]) : succeeded p d next s κ = s κ := by
  simp only [List.mem_cons, List.not_mem_nil, or_false, not_or] at h
  rw [succeeded, getOrSetMaxEvents_frame _ _ (by simpa using h.2.2),
    setDeduplicationKey_frame _ _ _ _ h.2.1, Keyspace.modify_of_ne _ h.1]

theorem succeeded_claims (p d : String) (next : DeduplicatedNextJob) (s : Store) :
    (succeeded p d next s).claims p = (s.claims p).setHolder d (some ⟨next.jid, false⟩) := by
  rw [succeeded, claims_of_frame (W := [.metaMaxLenEvents]) (by decide)
    (getOrSetMaxEvents_frame p _),
    setDeduplicationKey, claims_set_de,
      show Store.claims (s.modify .id p (· + 1)) p = s.claims p from
      claims_of_frame (W := [.id]) (by decide) modify_notMem p]
  rfl

theorem succeeded_claims_of_ne (hp : Q.Base p) (hq : Q.Base q) (hne : q ≠ p) (d : String)
    (next : DeduplicatedNextJob) (s : Store) : (succeeded p d next s).claims q = s.claims q := by
  rw [succeeded, claims_of_frame (W := [.metaMaxLenEvents]) (by decide)
    (getOrSetMaxEvents_frame p _),
    setDeduplicationKey,
    claims_set_de_of_ne fun d' => QueueSet.deduplicationKey_ne hp hq hne.symm d d',
    show Store.claims (s.modify .id p (· + 1)) q = s.claims q from
      claims_of_frame (W := [.id]) (by decide) modify_notMem q]

theorem succeeded_jobExists (p d : String) (next : DeduplicatedNextJob) (s : Store) (k : String) :
    (succeeded p d next s).jobExists k = s.jobExists k := by
  rw [Store.jobExists, succeeded_frame _ _ _ _ (by decide), Store.jobExists]

/-- **The successor** in the register. -/
theorem requeueDeduplicatedJob_claims {K : KeySpace} (h : Sound K s) (hnew : PayloadsReady p s)
    (o : Option String) (t : ℤ) :
    (requeueDeduplicatedJob p o t s).claims p = (s.claims p).succeed DeduplicatedNextJob.jid o := by
  cases o with
  | none => rfl
  | some d =>
    cases hdn : s .dn (deduplicationNextKey p d) with
    | none =>
      have hnext : (s.claims p).next d = none := hdn
      simp only [requeueDeduplicatedJob, hdn, Register.succeed, hnext]
    | some next =>
      obtain ⟨hlegal, hjob⟩ := hnew d next hdn
      obtain ⟨de, hde, hid, -⟩ := hlegal.de
      have hocc : occ (succeeded p d next s) p next.jid = 0 := by
        rw [(SamePlaces.of_frame (by decide) (succeeded_frame p d next s)).occ, h.occ_eq_zero hjob]
      have hnext : (s.claims p).next d = some next := hdn
      have hdeid : (next.args t).opts.de.map DeduplicationOpts.id = some d := by
        simp [DeduplicatedNextJob.args, hde, hid]
      rw [requeueDeduplicatedJob_of_some hdn hlegal.de, claims_set_dn,
        claims_storeNewJob (requeueMode_dedups p)
          ((succeeded_jobExists p d next s _).trans hjob) hocc,
        succeeded_claims, hdeid]
      simp only [Register.succeed, hnext, Register.setJob, Register.setHolder]

theorem requeueDeduplicatedJob_claims_of_ne (hp : Q.Base p) (hq : Q.Base q) (hne : q ≠ p)
    (hnew : PayloadsReady p s) (o : Option String) (t : ℤ) :
    (requeueDeduplicatedJob p o t s).claims q = s.claims q := by
  cases o with
  | none => rfl
  | some d =>
    cases hdn : s .dn (deduplicationNextKey p d) with
    | none => simp only [requeueDeduplicatedJob, hdn]
    | some next =>
      rw [requeueDeduplicatedJob_of_some hdn (hnew d next hdn).1.de,
        claims_set_dn_of_ne fun d' => QueueSet.deduplicationNextKey_ne hp hq hne.symm d d',
        claims_storeNewJob_of_ne (requeueMode_dedups p) hq hp hne, succeeded_claims_of_ne hp hq hne]

/-- The successor enters beside the job that finishes. -/
theorem Finishing.requeue (h : Finishing Q p j o R s) (hnew : PayloadsReady p s)
    (o' : Option String) (t : ℤ) : Finishing Q p j o R (requeueDeduplicatedJob p o' t s) := by
  cases o' with
  | none => exact h
  | some d =>
    cases hdn : s .dn (deduplicationNextKey p d) with
    | none => simpa only [requeueDeduplicatedJob, hdn] using h
    | some next =>
      obtain ⟨hlegal, hjob⟩ := hnew d next hdn
      have hmode := requeueMode_dedups p
      rw [requeueDeduplicatedJob_of_some hdn hlegal.de]
      have h₁ : Finishing Q p j o R (succeeded p d next s) := h.of_frame (by decide)
          (succeeded_frame p d next s)
      have hjob₁ : (succeeded p d next s).jobExists (p ++ next.jid) = false :=
        (succeeded_jobExists ..).trans hjob
      -- The job that finishes exists and its successor does not, so the two are different.
      have hne : p ++ j ≠ p ++ next.jid := fun heq => by
        rw [← heq, h.exist] at hjob
        cases hjob
      have hadds := storeNewJob_adds hmode.enqueues
        (h₁.grounded.toSound.of_hide.occ_eq_zero hjob₁) (next.args t)
      have hparentOf := storeNewJob_parentOf hmode hjob₁ (next.args t)
      have hhash : storeNewJob (requeueMode p) p next.jid (next.args t) (succeeded p d next s) .hash
          (p ++ j) = succeeded p d next s .hash (p ++ j) := by
        rw [storeNewJob_hash hmode, storeJob, Store.xadd_of_ne _ _ _ (by decide), Store.hset_hash,
          if_neg hne]
      have hstored : Finishing Q p j o R (storeNewJob (requeueMode p) p next.jid (next.args t)
          (succeeded p d next s)) := by
        refine { h₁ with
          grounded := h₁.grounded.adds h.base hlegal.jid ?_ (hadds.hide hne) ?_ (fun k hk => ?_) ?_
          absent := ?_
          exist := by rw [Store.jobExists, hhash]; exact h₁.exist
          deid := by rw [Store.deidOf, hhash]; exact h₁.deid
          parent := by rw [Store.parentOf, hhash]; exact h₁.parent }
        · rw [Store.hide_jobExists, hjob₁]
          rfl
        · exact (storeNewJob_registers_cases hmode hlegal.colonFree _).imp
            (fun hr => ⟨hr.1, hr.2.hide _⟩) fun hr c₀ => (hr c₀).hide _
        · rw [Store.hide_parentOf, hparentOf, if_neg hk, Store.hide_parentOf]
        · intro hlinked
          rw [Store.hide_parentOf, if_neg hne.symm, hparentOf, if_pos rfl] at hlinked
          exact hlegal.colonFree hlinked
        · have hnej : ¬ (p = p ∧ j = next.jid) := fun heq => hne (by rw [heq.2])
          rw [hadds.occ, if_neg hnej, h₁.absent]
      exact hstored.of_frame (W := [.dn]) (by decide) fun hκ => Keyspace.set_of_ne _
        (by simpa using hκ) ..

end Successor

/-! ### The steps of a finish in the register -/

section Claims

variable {Q : QueueSet} {p q j d : String} {o : Option String} {R : Option Parent} {s s' : Store}

/-- The key of a job that finishes is released, and one whose time is up expires. -/
theorem removeDeduplicationKeyIfNeededOnFinalization_claims (p j : String) (o : Option String)
    (s : Store) : ∃ c,
    (c = s.claims p ∨ ∃ d, Act DeduplicatedNextJob.jid (s.claims p) (.expire d) c) ∧
      (removeDeduplicationKeyIfNeededOnFinalization p o j s).claims p = c.release o j := by
  have hsame : ∀ o, (∀ d, o = some d → (s.claims p).holder d ≠ some ⟨j, false⟩) → ∃ c,
      (c = s.claims p ∨ ∃ d, Act DeduplicatedNextJob.jid (s.claims p) (.expire d) c) ∧
        s.claims p = c.release o j := fun o h =>
    ⟨_, .inl rfl, (Register.release_eq_self h).symm⟩
  cases o with
  | none => exact hsame none fun d hd => by cases hd
  | some d =>
    have hholder : (s.claims p).holder d =
        (s .de (deduplicationKey p d)).map DeduplicationKey.holder := rfl
    simp only [removeDeduplicationKeyIfNeededOnFinalization]
    -- No key, one whose time is up, one that still runs, and one without expiry, which goes if it
    -- names the job.
    split
    · next hkey =>
      refine hsame _ fun d' hd' => ?_
      obtain rfl := Option.some.inj hd'
      rw [hholder, hkey]
      simp
    · next w hkey =>
      rw [hkey] at hholder
      refine ⟨(s.claims p).setHolder d none, .inr ⟨d, .expire hholder⟩, ?_⟩
      rw [claims_set_de]
      refine (Register.release_eq_self fun d' hd' => ?_).symm
      obtain rfl := Option.some.inj hd'
      simp [Register.setHolder]
    · next w n hkey =>
      refine hsame _ fun d' hd' => ?_
      obtain rfl := Option.some.inj hd'
      rw [hholder, hkey]
      simp [DeduplicationKey.holder]
    · next w hkey =>
      rw [hkey] at hholder
      split
      · next hw =>
        subst hw
        refine ⟨_, .inl rfl, ?_⟩
        rw [claims_set_de, Register.release_eq_setHolder hholder]
        rfl
      · next hw =>
        refine hsame _ fun d' hd' => ?_
        obtain rfl := Option.some.inj hd'
        rw [hholder]
        simpa [DeduplicationKey.holder] using hw

theorem removeDeduplicationKeyIfNeededOnFinalization_claims_of_ne (hp : Q.Base p) (hq : Q.Base q)
    (hne : q ≠ p) (o : Option String) (j : String) (s : Store) :
    (removeDeduplicationKeyIfNeededOnFinalization p o j s).claims q = s.claims q := by
  cases o with
  | none => rfl
  | some d =>
    have hset : Store.claims (s.set .de (deduplicationKey p d) none) q = s.claims q :=
      claims_set_de_of_ne (fun d' => QueueSet.deduplicationKey_ne hp hq hne.symm d d') _ _
    simp only [removeDeduplicationKeyIfNeededOnFinalization]
    split
    · rfl
    · exact hset
    · rfl
    · split
      · exact hset
      · rfl

theorem recordFinished_evolves (p : String) (a : FinishArgs) (s : Store) :
    Evolves s (recordFinished p a s) := by
  have hrecord : ∀ s, Evolves s (s.hset (p ++ a.jobId) a.record) := fun s =>
    .hset s _ fun job => by cases h : a.target <;> simp [FinishArgs.record, h, Job.frozen]
  have hdefa : ∀ s, Evolves s (s.hdel (p ++ a.jobId) fun job => { job with defa := none }) :=
    fun s => .hdel s _ fun _ => ⟨rfl, le_rfl⟩
  have hset : Evolves s (s.modify (.zset a.target.zset) p (·.zadd a.timestamp a.jobId)) :=
    .of_hash (Keyspace.modify_of_ne _ (by simp) ..)
  simp only [recordFinished]
  split
  · exact hset.trans ((hrecord _).trans (hdefa _))
  · exact hset.trans (hrecord _)

theorem recordFinished_zset (p : String) (a : FinishArgs) (s : Store) (z : ZSetKey) :
    recordFinished p a s (.zset z) = if z = a.target.zset then
      Function.update (s (.zset z)) p ((s (.zset z) p).zadd a.timestamp a.jobId)
      else s (.zset z) := by
  by_cases hz : z = a.target.zset
  · subst hz
    simp only [recordFinished, if_true]
    split
    · rw [Store.hdel_of_ne _ _ _ (by simp), Store.hset_of_ne _ _ _ (by simp), Keyspace.modify_self]
    · rw [Store.hset_of_ne _ _ _ (by simp), Keyspace.modify_self]
  · rw [if_neg hz, recordFinished_frame _ _ _ (by simpa using hz)]

/-- Recording a job finishes it and no other. -/
theorem finished_recordFinished (p : String) (a : FinishArgs) (s : Store) (q i : String) :
    Finished (recordFinished p a s) q i =
      (Finished s q i || decide (q = p ∧ i = a.jobId)) := by
  have hmem : ∀ z, i ∈ recordFinished p a s (.zset z) q ↔
      i ∈ s (.zset z) q ∨ z = a.target.zset ∧ q = p ∧ i = a.jobId := by
    intro z
    rw [recordFinished_zset]
    by_cases hz : z = a.target.zset
    · by_cases hq : q = p
      · subst hq
        simp [hz, or_comm]
      · simp [hz, hq]
    · simp [hz]
  simp only [Finished, hmem]
  cases a.target <;> by_cases hi : q = p ∧ i = a.jobId <;> simp [FinishedStatus.zset, hi]

/-- The register after a job is recorded. -/
theorem recordFinished_claims {a : FinishArgs} (hex : s.jobExists (p ++ a.jobId) = true) :
    (recordFinished p a s).claims p =
      (s.claims p).setJob a.jobId (some ⟨s.deidOf (p ++ a.jobId), true⟩) := by
  have hevolves := recordFinished_evolves p a s
  have hframe : ∀ κ ∉ [Kind.hash, .zset a.target.zset], recordFinished p a s κ = s κ := fun κ hκ =>
    recordFinished_frame p a s hκ
  refine Register.ext (funext fun i => ?_) ?_ ?_
  · simp only [Register.setJob, Function.update_apply]
    split
    · next hi =>
      subst hi
      obtain ⟨job, hjob⟩ := Option.isSome_iff_exists.mp (hevolves.jobExists hex)
      have hdeid := hevolves.deidOf (p ++ a.jobId)
      simp only [Store.deidOf, hjob, Option.bind_some] at hdeid
      simp [Store.claims, hjob, finished_recordFinished, Store.deidOf, hdeid]
    · next hi =>
      have hsame : (recordFinished p a s).jobExists (p ++ i) = s.jobExists (p ++ i) := by
        have hne : p ++ i ≠ p ++ a.jobId := fun heq => hi ((String.append_right_inj p).mp heq)
        have hhash : recordFinished p a s .hash (p ++ i) = s .hash (p ++ i) := by
          simp only [recordFinished]
          split
          · rw [Store.hdel_hash, if_neg hne, Store.hset_hash, if_neg hne,
              Keyspace.modify_of_ne _ (by simp)]
          · rw [Store.hset_hash, if_neg hne, Keyspace.modify_of_ne _ (by simp)]
        rw [Store.jobExists, hhash, Store.jobExists]
      exact claims_job_congr hsame (hevolves.deidOf _) fun _ => by
        simp [finished_recordFinished, hi]
  · simp only [Store.claims, Register.setJob, hframe _ (by simp : Kind.de ∉ _)]
  · simp only [Store.claims, Register.setJob, hframe _ (by simp : Kind.dn ∉ _)]

theorem recordFinished_claims_of_ne (hp : Q.Base p) (hq : Q.Base q) (hne : q ≠ p) (a : FinishArgs)
    (s : Store) : (recordFinished p a s).claims q = s.claims q := by
  have hframe : ∀ κ ∉ [Kind.hash, .zset a.target.zset], recordFinished p a s κ = s κ := fun κ hκ =>
    recordFinished_frame p a s hκ
  have hhash : ∀ i, recordFinished p a s .hash (q ++ i) = s .hash (q ++ i) := fun i => by
    have hkey : q ++ i ≠ p ++ a.jobId := QueueSet.key_ne hq hp hne i a.jobId
    simp only [recordFinished]
    split
    · rw [Store.hdel_hash, if_neg hkey, Store.hset_hash, if_neg hkey,
        Keyspace.modify_of_ne _ (by simp)]
    · rw [Store.hset_hash, if_neg hkey, Keyspace.modify_of_ne _ (by simp)]
  refine Register.ext (funext fun i => ?_) ?_ ?_
  · simp [Store.claims, hhash, finished_recordFinished, hne]
  · simp only [Store.claims, hframe _ (by simp : Kind.de ∉ _)]
  · simp only [Store.claims, hframe _ (by simp : Kind.dn ∉ _)]

/-- Jobs that are removed lose their hashes. -/
theorem foldl_removeJob_hash (p : String) (l : List String) (s : Store) (k : String) :
    l.foldl (removeJob p false) s .hash k = if k ∈ l.map (p ++ ·) then none else s .hash k := by
  induction l generalizing s with
  | nil => simp
  | cons i l ih =>
    have hone : removeJob p false s i .hash k = if k = p ++ i then none else s .hash k := by
      simp only [removeJob, Bool.false_eq_true, if_false]
      rw [removeJobKeys_hash, removeParentDependencyKey_frame _ _ _ (by decide),
        Function.update_apply]
    rw [List.foldl_cons, ih, hone]
    by_cases hk : k = p ++ i
    · simp [hk]
    · simp [hk]

/-- Retention leaves deduplication keys alone. -/
theorem foldl_removeJob_dedup (p : String) (l : List String) (s : Store) {κ : Kind}
    (hκ : κ ∈ [Kind.de, .dn]) : l.foldl (removeJob p false) s κ = s κ := by
  have hwrites : κ ∉ jobKeyWrites ∧ κ ∉ unlinkWrites := by
    revert κ
    decide
  induction l generalizing s with
  | nil => rfl
  | cons i l ih =>
    rw [List.foldl_cons, ih]
    simp only [removeJob, Bool.false_eq_true, if_false]
    rw [removeJobKeys_frame _ _ hwrites.1, removeParentDependencyKey_frame _ _ _ hwrites.2]

/-- Retention deletes jobs that are done. -/
theorem Retires.claims {st : FinishedStatus} (hr : Retires p st.zset s s') :
    ∃ D, Act DeduplicatedNextJob.jid (s.claims p) (.forget D) (s'.claims p) := by
  obtain ⟨l, l', hperm, -, hmem, rfl⟩ := hr
  set s₁ := l.foldl (removeJob p false) s with hs₁
  have hdedup : ∀ κ ∈ [Kind.de, .dn], s₁ κ = s κ := fun κ hκ => foldl_removeJob_dedup p l s hκ
  have hzset : ∀ z : FinishedStatus, s₁ (.zset z.zset) = s (.zset z.zset) := fun z =>
    foldl_removeJob_frame p false l s (finished_notMem_removalWrites z)
  set s₂ : Store := s₁.modify (.zset st.zset) p (·.zremAll l') with hs₂
  have hframe : ∀ κ ∉ [Kind.zset st.zset], s₂ κ = s₁ κ := fun κ hκ => modify_notMem hκ
  have hfin : ∀ i ∉ l, Finished s₂ p i = Finished s p i := fun i hi => by
    have hmem' : ∀ z : FinishedStatus, i ∈ s₂ (.zset z.zset) p ↔
      i ∈ s (.zset z.zset) p := fun z => by
      by_cases hz : z.zset = st.zset
      · rw [hs₂, hz, Keyspace.modify_self, Function.update_self, hzset st]
        simp [show i ∉ l' from fun h => hi (hperm.mem_iff.mpr h)]
      · rw [hframe _ (by simpa using hz), hzset]
    simp only [Finished]
    exact decide_eq_decide.mpr (or_congr (hmem' .completed) (hmem' .failed))
  -- The register forgets the jobs of `l`, and keeps holders and payloads.
  have hclaims : s₂.claims p = { s.claims p with
      job := fun i => if decide (i ∈ l) = true then none else (s.claims p).job i } := by
    refine Register.ext (funext fun i => ?_) ?_ ?_
    · have hhash : s₂ .hash (p ++ i) = if i ∈ l then none else s .hash (p ++ i) := by
        rw [hframe _ (by cases st <;> decide), hs₁, foldl_removeJob_hash]
        simp [String.append_right_inj]
      by_cases hi : i ∈ l
      · simp [Store.claims, hhash, hi]
      · simp [Store.claims, hhash, hi, hfin i hi]
    · simp only [Store.claims, hframe .de (by simp), hdedup .de (by simp)]
    · simp only [Store.claims, hframe .dn (by simp), hdedup .dn (by simp)]
  refine ⟨fun i => decide (i ∈ l), ?_⟩
  rw [hclaims]
  refine .forget fun i x hi hx => ?_
  have hset := hmem i (of_decide_eq_true hi)
  obtain ⟨job, -, rfl⟩ := Option.map_eq_some_iff.mp hx
  cases st with
  | completed => simp [Finished, show i ∈ s (.zset .completed) p from hset]
  | failed => simp [Finished, show i ∈ s (.zset .failed) p from hset]

theorem Retires.claims_of_ne {st : FinishedStatus} (hr : Retires p st.zset s s') (hp : Q.Base p)
    (hq : Q.Base q) (hne : q ≠ p) : s'.claims q = s.claims q := by
  obtain ⟨l, l', -, -, -, rfl⟩ := hr
  set s₁ := l.foldl (removeJob p false) s with hs₁
  have hdedup : ∀ κ ∈ [Kind.de, .dn], s₁ κ = s κ := fun κ hκ => foldl_removeJob_dedup p l s hκ
  have hzset : ∀ z : FinishedStatus, s₁ (.zset z.zset) = s (.zset z.zset) := fun z =>
    foldl_removeJob_frame p false l s (finished_notMem_removalWrites z)
  have hkeys : ∀ i, q ++ i ∉ l.map (p ++ ·) := fun i hi => by
    obtain ⟨i', -, heq⟩ := List.mem_map.mp hi
    exact QueueSet.key_ne hp hq hne.symm i' i heq
  set s₂ : Store := s₁.modify (.zset st.zset) p (·.zremAll l') with hs₂
  have hframe : ∀ κ ∉ [Kind.zset st.zset], s₂ κ = s₁ κ := fun κ hκ => modify_notMem hκ
  have hmem : ∀ (z : FinishedStatus) i, i ∈ s₂ (.zset z.zset) q ↔ i ∈ s (.zset z.zset) q := by
    intro z i
    by_cases hz : z.zset = st.zset
    · rw [hs₂, hz, Keyspace.modify_self, Function.update_of_ne hne, hzset st]
    · rw [hframe _ (by simpa using hz), hzset]
  refine Register.ext (funext fun i => ?_) ?_ ?_
  · have hhash : s₂ .hash (q ++ i) = s .hash (q ++ i) := by
      rw [hframe _ (by cases st <;> decide), hs₁, foldl_removeJob_hash, if_neg (hkeys i)]
    have hfin : Finished s₂ q i = Finished s q i :=
      decide_eq_decide.mpr (or_congr (hmem .completed i) (hmem .failed i))
    simp only [Store.claims, hhash, hfin]
  · simp only [Store.claims, hframe .de (by simp), hdedup .de (by simp)]
  · simp only [Store.claims, hframe .dn (by simp), hdedup .dn (by simp)]

theorem Retires.grounded {st : FinishedStatus} (hr : Retires p st.zset s s') (h : Grounded Q s) :
    Grounded Q s' := by
  refine h.quiet (hr.retains h.toSound) (fun c₀ => ?_) fun k => ?_ <;>
    obtain ⟨l, l', -, -, -, rfl⟩ := hr
  · exact (Registers.foldl (removeJob_registers p false) l s).trans
      (.of_frame (W := [.zset st.zset]) (by cases st <;> decide) modify_notMem)
  · rw [Store.parentOf, modify_notMem (by simp), foldl_removeJob_hash]
    split
    · exact .inr rfl
    · exact .inl rfl

end Claims

/-! ### One finish -/

/-- The events that a finish of the job `j` consists of. -/
def FinishEvent (j : String) : Claims.Event String String DeduplicatedNextJob → Prop
  | .finish i _ => i = j
  | .forget _ | .expire _ => True
  | _ => False

/-- What is written to the hash of a job that finishes, before it is kept or deleted. -/
def settled (p : String) (a : FinishArgs) (s : Store) : Store :=
  (settleFinished p a s).hset (p ++ a.jobId) fun job => { job with atm := job.atm + 1 }

/-- A finish brings no id into use. -/
theorem FinishEvent.not_introduces {j i : String}
    {e : Claims.Event String String DeduplicatedNextJob}
    (h : FinishEvent j e) : ¬ e.Introduces DeduplicatedNextJob.jid i := by
  cases e <;> first
    | exact h.elim
    | exact id

theorem FinishEvent.ne_keep {j : String} {e : Claims.Event String String DeduplicatedNextJob}
    (h : FinishEvent j e) (d : String) (n : DeduplicatedNextJob) : e ≠ .keep d n := by
  rintro rfl
  exact h

theorem modify_id_le (p q : String) (s : Store) : s .id q ≤ s.modify .id p (· + 1) .id q := by
  rw [Keyspace.modify_self, Function.update_apply]
  split
  · next hq => exact hq ▸ Nat.le_succ _
  · exact le_rfl

/-- Drawing an id for the successor counts up. -/
theorem requeueDeduplicatedJob_id_le (p : String) (o : Option String) (t : ℤ) (s : Store)
    (q : String) : s .id q ≤ requeueDeduplicatedJob p o t s .id q := by
  unfold requeueDeduplicatedJob
  split
  · exact le_rfl
  · split
    · exact le_rfl
    · simp only
      rw [Keyspace.set_of_ne _ (by decide), addParentDependency_frame _ _ _ (by decide),
        storeAndEnqueueJob_frame _ _ _ _ _ _ _ _ _ (by decide),
        getOrSetMaxEvents_frame _ _ (by decide), setDeduplicationKey_frame _ _ _ _ (by decide)]
      exact modify_id_le p q s

section Finish

variable {Q : QueueSet} {p q : String} {o : Option String} {R : Option Parent} {a : FinishArgs}
  {s s' : Store}

/-- The deduplication key of a job that finishes is dealt with. -/
def keyReleased (p : String) (o : Option String) (j : String) (s : Store) : Store :=
  removeDeduplicationKeyIfNeededOnFinalization p o j (trimEvents p s)

theorem keyReleased_frame (p : String) (o : Option String) (j : String) (s : Store) {κ : Kind}
    (h : κ ∉ [Kind.de, .metaMaxLenEvents]) : keyReleased p o j s κ = s κ := by
  simp only [List.mem_cons, List.not_mem_nil, or_false, not_or] at h
  rw [keyReleased, removeDeduplicationKeyIfNeededOnFinalization_frame _ _ _ _ h.1,
    trimEvents_frame _ _ (by simpa using h.2)]

/-- The store once the key is dealt with and the successor is stored. -/
def requeued (p : String) (o : Option String) (a : FinishArgs) (s : Store) : Store :=
  requeueDeduplicatedJob p o a.timestamp (keyReleased p o a.jobId s)

theorem Finishing.requeued (h : Finishing Q p a.jobId o R s) (hnew : PayloadsReady p s) :
    Finishing Q p a.jobId o R (BullMQ.requeued p o a s) :=
  (h.of_frame (by decide) (keyReleased_frame p o a.jobId s)).requeue
    (hnew.of_frame (by decide) (keyReleased_frame p o a.jobId s)) o a.timestamp

theorem Finishing.settled_eq (h : Finishing Q p a.jobId o R s) : settled p a s =
    (BullMQ.notifyParent R (p ++ a.jobId) a (BullMQ.requeued p o a s)).hset (p ++ a.jobId)
      fun job => { job with atm := job.atm + 1 } := by
  rw [settled, settleFinished, h.deid, h.parent]
  rfl

/-- Finishing a job, up to the point where it is kept or deleted. -/
theorem Finishing.settled (h : Finishing Q p a.jobId o R s) (hnew : PayloadsReady p s) :
    Finishing Q p a.jobId o R (BullMQ.settled p a s) := by
  have hnotified := (h.requeued hnew).notifyParent
  have hattempt : ∀ s,
      Evolves s (s.hset (p ++ a.jobId) fun job => { job with atm := job.atm + 1 }) :=
    fun s => .hset s _ fun _ => ⟨rfl, le_rfl⟩
  rw [h.settled_eq]
  exact hnotified.carry (.hset hnotified.exist) (hattempt _)
    (.inr fun c₀ => .of_frame (W := [.hash]) (by decide)
    fun hκ => Store.hset_of_ne _ _ _ (by simpa using hκ))

/-- Accounting for a child and counting the attempt say nothing new about claims. -/
theorem settled_claims_eq (h : Finishing Q p a.jobId o R s) (hnew : PayloadsReady p s)
    (q : String) :
    (settled p a s).claims q = (requeued p o a s).claims q := by
  have hrequeued := h.requeued hnew
  have hattempt : ∀ s,
      Evolves s (s.hset (p ++ a.jobId) fun job => { job with atm := job.atm + 1 }) :=
    fun s => .hset s _ fun _ => ⟨rfl, le_rfl⟩
  rw [h.settled_eq, claims_of_evolves (W := [.hash]) (by decide) (hattempt _)
    (.hset hrequeued.notifyParent.exist)
      (fun hκ => Store.hset_of_ne _ _ _ (by simpa using hκ)),
    claims_of_evolves (by decide) (notifyParent_evolves _ _ _ _)
      (notifyParent_same hrequeued.grounded.toSound.of_hide _ _ _) (notifyParent_frame _ _ _ _)]

/-- The register of the queue while a job finishes. -/
theorem settled_claims (h : Finishing Q p a.jobId o R s) (hnew : PayloadsReady p s) :
    ∃ c, (c = s.claims p ∨ ∃ d, Act DeduplicatedNextJob.jid (s.claims p) (.expire d) c) ∧
      (settled p a s).claims p = (c.release o a.jobId).succeed DeduplicatedNextJob.jid o := by
  have hkey : Finishing Q p a.jobId o R (keyReleased p o a.jobId s) :=
    h.of_frame (by decide) (keyReleased_frame p o a.jobId s)
  obtain ⟨c, hc, hrelease⟩ := removeDeduplicationKeyIfNeededOnFinalization_claims p a.jobId o
    (trimEvents p s)
  rw [claims_of_frame (W := [.metaMaxLenEvents]) (by decide) (trimEvents_frame p s)] at hc
  refine ⟨c, hc, ?_⟩
  rw [settled_claims_eq h hnew, requeued,
    requeueDeduplicatedJob_claims hkey.grounded.toSound.of_hide
    (hnew.of_frame (by decide) (keyReleased_frame p o a.jobId s)), keyReleased, hrelease]

theorem settled_claims_of_ne (h : Finishing Q p a.jobId o R s) (hnew : PayloadsReady p s)
    (hq : Q.Base q) (hne : q ≠ p) : (settled p a s).claims q = s.claims q := by
  rw [settled_claims_eq h hnew, requeued, requeueDeduplicatedJob_claims_of_ne h.base hq hne
      (hnew.of_frame (by decide) (keyReleased_frame p o a.jobId s)), keyReleased,
    removeDeduplicationKeyIfNeededOnFinalization_claims_of_ne h.base hq hne,
    claims_of_frame (W := [.metaMaxLenEvents]) (by decide) (trimEvents_frame p s)]

/-- A finished job that is kept, after retention. -/
theorem Finishing.keepFinished (h : Finishing Q p a.jobId o R s) :
    Grounded Q (BullMQ.keepFinished p a s) ∧
      (∀ {q}, Q.Base q → q ≠ p → (BullMQ.keepFinished p a s).claims q = s.claims q) ∧
      Trace DeduplicatedNextJob.jid (fun _ e => FinishEvent a.jobId e)
        ((s.claims p).setJob a.jobId (some ⟨o, true⟩)) ((BullMQ.keepFinished p a s).claims p) := by
  have hrecord : Grounded Q (recordFinished p a s) :=
    h.enter (recordFinished_enters h.absent h.exist)
    (recordFinished_evolves p a s) fun c₀ =>
      .of_frame (by cases a.target <;> decide) (recordFinished_frame p a s)
  have hage := retainByAge_retires p a (recordFinished p a s)
  have hcount := retainByCount_retires p a (retainByAge p a (recordFinished p a s))
  obtain ⟨D, hforget⟩ := hage.claims
  obtain ⟨D', hforget'⟩ := hcount.claims
  refine ⟨hcount.grounded (hage.grounded hrecord), fun hq hne => ?_, ?_⟩
  · rw [BullMQ.keepFinished, hcount.claims_of_ne h.base hq hne, hage.claims_of_ne h.base hq hne,
      recordFinished_claims_of_ne h.base hq hne]
  · rw [recordFinished_claims h.exist, h.deid] at hforget
    exact (hforget.trace trivial).trans (hforget'.trace trivial)

/-- Keeping or deleting a finished job. -/
theorem Finishing.keepOrRemove (h : Finishing Q p a.jobId o R s) (P : Option Parent) :
    Grounded Q (BullMQ.keepOrRemove p P a s) ∧
      (∀ {q}, Q.Base q → q ≠ p → (BullMQ.keepOrRemove p P a s).claims q = s.claims q) ∧
      ∃ kept : Bool, Trace DeduplicatedNextJob.jid (fun _ e => FinishEvent a.jobId e)
        ((s.claims p).setJob a.jobId (if kept then some ⟨o, true⟩ else none))
        ((BullMQ.keepOrRemove p P a s).claims p) := by
  simp only [BullMQ.keepOrRemove]
  split
  · obtain ⟨hground, hother, htrace⟩ := h.keepFinished
    exact ⟨hground, hother, true, htrace⟩
  · have hother : ∀ {q}, Q.Base q → q ≠ p →
        (removeJobKeys (p ++ a.jobId) s).claims q = s.claims q := fun hq hne =>
      claims_removeJobKeys_of_ne (fun i => QueueSet.key_ne h.base hq hne.symm a.jobId i) s
    split
    · next P =>
      have hunlink : ∀ q, (removeParentDependencyKey (p ++ a.jobId) (some P.key)
          (removeJobKeys (p ++ a.jobId) s)).2.claims q =
            (removeJobKeys (p ++ a.jobId) s).claims q :=
        claims_of_frame (by decide) (removeParentDependencyKey_frame _ _ _)
      refine ⟨removeParentDependencyKey_grounded h.delete _ _, fun hq hne => ?_, false, ?_⟩
      · rw [hunlink, hother hq hne]
      · rw [hunlink, claims_removeJobKeys]
        exact .refl _
    · refine ⟨h.delete, hother, false, ?_⟩
      rw [claims_removeJobKeys]
      exact .refl _

/-- Events and metrics of a finished job. -/
theorem finishJob_frame_of_keep (p : String) (a : FinishArgs) (s : Store) {κ : Kind}
    (h : κ ∉ [Kind.events, .metrics]) : finishJob p a s κ =
      BullMQ.keepOrRemove p (s.parentOf (p ++ a.jobId)) a (BullMQ.settled p a s) κ := by
  simp only [List.mem_cons, List.not_mem_nil, or_false, not_or] at h
  simp only [finishJob]
  split
  · rw [collectMetrics_frame _ _ _ _ h.2, emitFinished_frame _ _ _ _ h.1]
    rfl
  · rw [emitFinished_frame _ _ _ _ h.1]
    rfl

/-- **Finishing a job** in the register: an expiry at most, the end of the job, and retention. -/
theorem Finishing.finishJob (h : Finishing Q p a.jobId o R s) (hnew : PayloadsReady p s)
    (hjob : (s.claims p).job a.jobId = some ⟨o, false⟩) :
    Grounded Q (BullMQ.finishJob p a s) ∧
      (∀ {q}, Q.Base q → q ≠ p → (BullMQ.finishJob p a s).claims q = s.claims q) ∧
      Trace DeduplicatedNextJob.jid (fun _ e => FinishEvent a.jobId e) (s.claims p)
        ((BullMQ.finishJob p a s).claims p) := by
  have hframe : ∀ {κ}, κ ∉ [Kind.events, .metrics] → _ := fun {κ} hκ =>
    finishJob_frame_of_keep p a s (κ := κ) hκ
  obtain ⟨hground, hother, kept, htrace⟩ :=
    (h.settled hnew).keepOrRemove (s.parentOf (p ++ a.jobId))
  obtain ⟨c, hc, hclaims⟩ := settled_claims h hnew
  refine ⟨hground.of_frame (by decide) hframe, fun hq hne => ?_, ?_⟩
  · rw [claims_of_frame (by decide) hframe, hother hq hne, settled_claims_of_ne h hnew hq hne]
  · rw [claims_of_frame (by decide) hframe]
    refine Trace.trans ?_ htrace
    rw [hclaims]
    have hfinish : ∀ {c : Register String String DeduplicatedNextJob},
        c.job a.jobId = some ⟨o, false⟩ → Trace DeduplicatedNextJob.jid
          (fun _ e => FinishEvent a.jobId e) c (((c.release o a.jobId).succeed
            DeduplicatedNextJob.jid o).setJob a.jobId (if kept then some ⟨o, true⟩ else none)) :=
      fun hjob => (Act.finish hjob).trace rfl
    obtain rfl | ⟨d, hexpire⟩ := hc
    · exact hfinish hjob
    · refine (hexpire.trace trivial).trans (hfinish ?_)
      cases hexpire
      exact hjob

end Finish

theorem finishJob_id_le (p : String) (a : FinishArgs) (s : Store) (q : String) :
    s .id q ≤ finishJob p a s .id q := by
  rw [finishJob_frame_of_keep _ _ _ (by decide), keepOrRemove_frame _ _ _ _ (by decide), settled,
    Store.hset_of_ne _ _ _ (by decide), settleFinished, notifyParent_frame _ _ _ _ (by decide)]
  refine le_of_eq_of_le ?_ (requeueDeduplicatedJob_id_le ..)
  rw [removeDeduplicationKeyIfNeededOnFinalization_frame _ _ _ _ (by decide),
    trimEvents_frame _ _ (by decide)]

/-- **moveToFinished**, as events of the register of its queue. -/
theorem moveToFinished_step {Q : QueueSet} {p : String} {s : Store} (h : DedupBase Q s)
    (hp : Q.Base p) (a : FinishArgs) :
    DedupBase Q (Script.moveToFinished p a s).2 ∧
      (∀ {q}, Q.Base q → q ≠ p → (Script.moveToFinished p a s).2.claims q = s.claims q) ∧
      Trace DeduplicatedNextJob.jid (fun _ e => FinishEvent a.jobId e) (s.claims p)
        ((Script.moveToFinished p a s).2.claims p) := by
  obtain ⟨-, n, -, -, hres⟩ | ⟨hrel, hres⟩ | ⟨hfin, hres⟩ := Script.moveToFinished_cases p a s <;>
    rw [hres]
  · exact ⟨h, fun _ _ => rfl, .refl _⟩
  · have hs : ∀ κ ∉ [Kind.lock, .stalled, .hash],
      releasedJob p a.jobId a.opts.token a.fieldsToUpdate s κ =
        s κ := fun κ hκ => releasedJob_frame _ _ _ _ s hκ
    have hsame := releasedJob_same hrel.jobExists a.opts.token a.fieldsToUpdate
    have hevolves := releasedJob_evolves p a.jobId s a.opts.token a.fieldsToUpdate
    have hclaims : ∀ q, (releasedJob p a.jobId a.opts.token a.fieldsToUpdate s).claims q =
        s.claims q := claims_of_evolves (by decide) hevolves hsame (fun hκ => hs _ hκ)
    refine ⟨h.quiet (h.toGrounded.evolves hsame hevolves fun c₀ => .of_frame (by decide) fun hκ =>
      hs _ hκ) hclaims
      (fun q => by rw [hs _ (by decide)]) (hs _ (by decide)) (hs _ (by decide)),
        fun _ _ => hclaims _,
      by rw [hclaims]; exact .refl _⟩
  · set s₁ := leftActive p a.jobId a.opts.token a.fieldsToUpdate s with hs₁
    have hleft : ∀ κ ∉ [Kind.lock, .stalled, .hash, .list .active], s₁ κ = s κ := fun κ hκ =>
      leftActive_frame _ _ _ _ s hκ
    have hevolves : Evolves s s₁ := leftActive_evolves p a.jobId s _ _
    have hexist : ∀ k, s₁.jobExists k = s.jobExists k := fun k =>
      ((leftActive_leaves hfin.1.jobExists hfin.1.active _ _).exist k).symm
    have hclaims₁ : ∀ q, s₁.claims q = s.claims q := fun q =>
      claims_congr hexist hevolves.deidOf fun κ hκ => hleft κ (by revert κ; decide)
    -- Leaving active changes no entry of the register; the events come from `finishJob`, and the
    -- fetch behind it adds none.
    have hnew : PayloadsReady p s₁ := fun d next hnext => by
      rw [hleft _ (by decide)] at hnext
      rw [hexist]
      exact h.payloadsReady hp d next hnext
    have hjob : (s₁.claims p).job a.jobId = some ⟨s.deidOf (p ++ a.jobId), false⟩ := by
      obtain ⟨job, hjob⟩ := Option.isSome_iff_exists.mp hfin.1.jobExists
      rw [hclaims₁]
      simp [Store.claims, Store.deidOf, hjob, h.toSound.not_finished hfin.1.active]
    obtain ⟨hground, hother, htrace⟩ := (Finishing.start h.toGrounded hp hfin.1
      a.fieldsToUpdate).finishJob hnew hjob
    have hfetch : ∀ q,
        (fetchOrDrain p a (finishJob p a s₁)).2.claims q = (finishJob p a s₁).claims q :=
      claims_of_evolves (by decide) (fetchOrDrain_evolves p _ a)
        (fetchOrDrain_same hground.toSound p a)
        (fetchOrDrain_frame p a _)
    have hground' : Grounded Q (fetchOrDrain p a (finishJob p a s₁)).2 :=
      hground.evolves (fetchOrDrain_same hground.toSound p a) (fetchOrDrain_evolves p _ a)
        fun c₀ => .of_frame (by decide) (fetchOrDrain_frame p a _)
    have hother' : ∀ {q}, Q.Base q → q ≠ p →
        (fetchOrDrain p a (finishJob p a s₁)).2.claims q = s.claims q := fun hq hne => by
      rw [hfetch, hother hq hne, hclaims₁]
    have htrace' : Trace DeduplicatedNextJob.jid (fun _ e => FinishEvent a.jobId e) (s.claims p)
        ((fetchOrDrain p a (finishJob p a s₁)).2.claims p) := by
      rwa [hfetch, ← hclaims₁]
    refine ⟨h.step hground' (h.payload_of_claims fun {q d next} hq hn => ?_) (fun q => ?_) ?_
      fun {q} hq => ?_, hother', htrace'⟩
    · by_cases hqp : q = p
      · subst hqp
        refine htrace'.invariant (I := fun c => ∀ d n, c.next d = some n →
          (s.claims q).next d = some n)
            (fun he hact hc d n hn => hc d n (hact.next_of he.ne_keep hn))
          (fun _ _ hn => hn) d next hn
      · rwa [hother' hq hqp] at hn
    · rw [fetchOrDrain_frame _ _ _ (by decide)]
      exact le_of_eq_of_le (by rw [hleft _ (by decide)]) (finishJob_id_le p a s₁ q)
    · rw [fetchOrDrain_frame _ _ _ (by decide), finishJob_frame _ _ _ (by decide),
        hleft _ (by decide)]
    · by_cases hqp : q = p
      · subst hqp
        exact htrace'.mono (I := fun _ => True)
          (fun he _ _ => ⟨fun n _ => he.not_introduces, trivial⟩)
          trivial
      · rw [hother' hq hqp]
        exact .refl _

end BullMQ
