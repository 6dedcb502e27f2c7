import BullMQ.Dedup.View

/-!
# Adds in the register of claims

An add is one event in the register of its queue, or none: it creates a job without a key, claims a
key that nobody holds, replaces a delayed holder, or is dropped in favour of the holder, and then
may renew the claim or be kept as the payload of the next job. `DedupResult` lists the ends of the
deduplication of an add, `AddOk` says which ids an add may bring, and `addJobWith_step` is the
simulation.
-/

namespace BullMQ

open Redis Claims

/-! ### The ends of deduplication -/

/-- The time to live that an add asks for. -/
def DeduplicationOpts.lasting (de : DeduplicationOpts) : Option ℤ :=
  if de.keepLastIfActive then none else de.ttl

/-- The payload that an add is kept as. -/
def AddArgs.payload (a : AddArgs) (jobId : String) : DeduplicatedNextJob :=
  ⟨a.name, a.data, a.opts, jobId, a.parent, a.repeatJobKey⟩

/-- The ends of the deduplication of an add under the id `j`. -/
inductive DedupResult (p : String) (de : DeduplicationOpts) (j : String) (a : AddArgs) (s : Store) :
    Option String × Store → Prop
  /-- Nobody holds the key. -/
  | free (hkey : s .de (deduplicationKey p de.id) = none) :
      DedupResult p de j a s (none, setDeduplicationKey (deduplicationKey p de.id) j de.lasting s)
  /-- The holder is delayed and gives way. -/
  | replaced {current key : DeduplicationKey} (hreplace : de.replace = true)
      (hkey : s .de (deduplicationKey p de.id) = some current)
      (hdelayed : current.jobId ∈ s (.zset .delayed) p) (hid : key.jobId = j)
      (hlast : de.keepLastIfActive = true → key.pttl = none) :
      DedupResult p de j a s (none, (removeDelayedJob p current.jobId j de.id s).2.set .de
        (deduplicationKey p de.id) (some key))
  /-- The add is dropped. -/
  | dropped {current : DeduplicationKey} {s' : Store}
      (hkey : s .de (deduplicationKey p de.id) = some current)
      (hs : ∀ κ ∉ [Kind.events], s' κ = s κ) :
      DedupResult p de j a s (some current.jobId, s')
  /-- The add is dropped and renews the claim. -/
  | renewed {current : DeduplicationKey} {s' : Store}
      (hkey : s .de (deduplicationKey p de.id) = some current) (hextend : de.extend = true)
      (httl : (de.ttl.filter (0 < ·)).isSome)
      (hs : ∀ κ ∉ [Kind.events], s' κ = setDeduplicationKey (deduplicationKey p de.id) current.jobId
        de.lasting s κ) :
      DedupResult p de j a s (some current.jobId, s')
  /-- The add is kept as the next job of an active holder. -/
  | kept {current : DeduplicationKey} {s' : Store}
      (hkey : s .de (deduplicationKey p de.id) = some current) (hkeep : de.keepLastIfActive = true)
      (hactive : current.jobId ∈ s (.list .active) p)
      (hs : ∀ κ ∉ [Kind.events], s' κ = Keyspace.set (s.set .dn (deduplicationNextKey p de.id)
        (some (a.payload j))) .de (deduplicationKey p de.id) (some ⟨current.jobId, none⟩) κ) :
      DedupResult p de j a s (some current.jobId, s')

section Results

variable {p j : String} {de : DeduplicationOpts} {a : AddArgs} {s : Store}

theorem storeDeduplicatedNextJob_cases {current : DeduplicationKey}
    (hkey : s .de (deduplicationKey p de.id) = some current) :
    (storeDeduplicatedNextJob p de current.jobId j a s = (false, s)) ∨
    ∃ s', storeDeduplicatedNextJob p de current.jobId j a s = (true, s') ∧
      DedupResult p de j a s (some current.jobId, s') := by
  unfold storeDeduplicatedNextJob
  split
  · next h =>
    refine .inr ⟨_, rfl, .kept hkey h.1 h.2 fun κ hκ => ?_⟩
    have hval : ∀ next, s.set .dn (deduplicationNextKey p de.id) next .de
        (deduplicationKey p de.id) = some current := fun next => by
      rw [Keyspace.set_of_ne _ (by decide), hkey]
    rw [Store.xadd_of_ne _ _ _ (by simpa using hκ), Keyspace.modify, hval]
    rfl
  · exact .inl rfl

theorem deduplicateJobWithoutReplace_result :
    DedupResult p de j a s (deduplicateJobWithoutReplace p de j a s) := by
  unfold deduplicateJobWithoutReplace
  simp only
  split
  · next hnone => exact .free hnone
  · next current hkey =>
    obtain hres | ⟨s', hres, hkept⟩ := storeDeduplicatedNextJob_cases (j := j) (a := a) hkey <;>
      simp only [hres]
    · split
      · next h =>
        exact .renewed hkey h.1 h.2 fun κ hκ => Store.xadd_of_ne _ _ _ (by simpa using hκ)
      · exact .dropped hkey fun κ hκ => Store.xadd_of_ne _ _ _ (by simpa using hκ)
    · exact hkept

theorem deduplicateJob_result : DedupResult p de j a s (deduplicateJob p de j a s) := by
  unfold deduplicateJob
  simp only
  split
  · next hreplace =>
    split
    · next current hkey =>
      -- A replacing add takes the holder out of delayed, or is dropped or kept as one that does not
      -- replace.
      by_cases hdel : current.jobId ∈ s (.zset .delayed) p
      · have hres : removeDelayedJob p current.jobId j de.id s =
            (true, (removeDelayedJob p current.jobId j de.id s).2) := by
          simp only [removeDelayedJob, if_pos hdel]
        rw [hres]
        simp only
        split
        · exact .replaced hreplace hkey hdel rfl fun _ => rfl
        · next hkeep =>
          split
          · exact .replaced hreplace hkey hdel rfl fun h => absurd h hkeep
          · exact .replaced hreplace hkey hdel rfl fun h => absurd h hkeep
      · have hres : removeDelayedJob p current.jobId j de.id s = (false, s) := by
          simp only [removeDelayedJob, if_neg hdel]
        simp only [hres]
        obtain hnot | ⟨s', hstored, hkept⟩ := storeDeduplicatedNextJob_cases (j := j) (a := a) hkey
        · rw [hnot]
          exact .dropped hkey fun _ _ => rfl
        · rw [hstored]
          exact hkept
    · next hnone => exact .free hnone
  · exact deduplicateJobWithoutReplace_result

end Results

/-! ### The modes of the add scripts -/

/-- The families that enqueueing writes. -/
def placingWrites : List Kind :=
  [.list .wait, .zset .prioritized, .zset .delayed, .zset .waitingChildren, .pc, .marker, .events]

/-- A mode that deduplicates and enqueues as the add scripts do. -/
structure AddMode.Dedups (mode : AddMode) (p : String) : Prop where
  framed : mode.Framed
  enqueues : mode.Enqueues p
  quiet : ∀ j a s κ, κ ∉ placingWrites → mode.enqueue j a s κ = s κ
  result : ∀ de j a s, DedupResult p de j a s (mode.deduplicate de j a s)

theorem standardMode_dedups (p : String) : (standardMode p).Dedups p where
  framed := standardMode_framed p
  enqueues := standardMode_enqueues p
  quiet _ _ _ _ h := enqueueStandard_frame _ _ _ _ (Kind.notMem_mono h (by decide))
  result _ _ _ _ := deduplicateJob_result

theorem delayedMode_dedups (p : String) : (delayedMode p).Dedups p where
  framed := delayedMode_framed p
  enqueues := delayedMode_enqueues p
  quiet _ _ _ _ h := addDelayedJob_frame _ _ _ _ _ (Kind.notMem_mono h (by decide))
  result _ _ _ _ := deduplicateJob_result

theorem prioritizedMode_dedups (p : String) : (prioritizedMode p).Dedups p where
  framed := prioritizedMode_framed p
  enqueues := prioritizedMode_enqueues p
  quiet _ _ _ _ h := enqueuePrioritized_frame _ _ _ _ (Kind.notMem_mono h (by decide))
  result _ _ _ _ := deduplicateJob_result

theorem parentMode_dedups (p : String) : (parentMode p).Dedups p where
  framed := parentMode_framed p
  enqueues := parentMode_enqueues p
  quiet _ _ _ _ h := enqueueParent_frame _ _ _ _ (Kind.notMem_mono h (by decide))
  result _ _ _ _ := deduplicateJobWithoutReplace_result

section Store

variable {Q : QueueSet} {mode : AddMode} {p q j : String} {a : AddArgs} {s : Store}

theorem storeNewJob_frame_of_quiet (hmode : mode.Dedups p) (j : String) (a : AddArgs) (s : Store)
    {κ : Kind} (h : κ ∉ Kind.hash :: .dependencies :: placingWrites) :
    storeNewJob mode p j a s κ = s κ := by
  have hdep : κ ≠ .dependencies := by rintro rfl; exact h (by decide)
  rw [storeNewJob, addParentDependency_frame _ _ _ hdep,
    hmode.quiet _ _ _ _ (Kind.notMem_mono h (by decide)),
    storeJob_frame _ _ _ _ _ _ _ _ _ (Kind.notMem_mono h (by decide))]

theorem storeNewJob_hash (hmode : mode.Dedups p) (j : String) (a : AddArgs) (s : Store) :
    storeNewJob mode p j a s .hash =
      storeJob p j a.name a.data a.opts a.timestamp a.parent a.repeatJobKey s .hash := by
  rw [storeNewJob, addParentDependency_frame _ _ _ (by decide), hmode.quiet _ _ _ _ (by decide)]

/-- The register depends on the hashes, the finished jobs and the keys. -/
theorem claims_storeNewJob_eq (hmode : mode.Dedups p) (q j : String) (a : AddArgs) (s : Store) :
    (storeNewJob mode p j a s).claims q =
      (storeJob p j a.name a.data a.opts a.timestamp a.parent a.repeatJobKey s).claims q := by
  have hhash := storeNewJob_hash hmode j a s
  refine claims_congr (fun k => by rw [Store.jobExists, hhash, Store.jobExists])
    (fun k => by rw [Store.deidOf, hhash, Store.deidOf]) fun κ hκ => ?_
  have hκ' : κ ∉ Kind.hash :: .dependencies :: placingWrites := by
    revert κ
    decide
  rw [storeNewJob_frame_of_quiet hmode _ _ _ hκ', storeJob_frame _ _ _ _ _ _ _ _ _
    (Kind.notMem_mono hκ' (by decide))]

/-- A stored job is an entry of the register. -/
theorem claims_storeNewJob (hmode : mode.Dedups p) (hnew : s.jobExists (p ++ j) = false)
    (hocc : occ s p j = 0) (a : AddArgs) :
    (storeNewJob mode p j a s).claims p =
      (s.claims p).setJob j (some ⟨a.opts.de.map DeduplicationOpts.id, false⟩) := by
  rw [claims_storeNewJob_eq hmode, claims_storeJob hnew (not_finished_of_occ hocc)]

theorem claims_storeNewJob_of_ne (hmode : mode.Dedups p) (hq : Q.Base q) (hp : Q.Base p)
    (hne : q ≠ p) (j : String) (a : AddArgs) (s : Store) :
    (storeNewJob mode p j a s).claims q = s.claims q := by
  rw [claims_storeNewJob_eq hmode,
    claims_storeJob_of_ne fun i => QueueSet.key_ne hp hq hne.symm j i]

theorem storeJob_parentOf (p j n d : String) (o : JobOpts) (t : ℤ) (P : Option Parent)
    (r : Option String) (hnew : s.jobExists (p ++ j) = false) (k : String) :
    (storeJob p j n d o t P r s).parentOf k = if k = p ++ j then P else s.parentOf k := by
  have hnone : s .hash (p ++ j) = none := by simpa [Store.jobExists] using hnew
  rw [Store.parentOf, storeJob, Store.xadd_of_ne _ _ _ (by decide), Store.hset_hash]
  split
  · next hk =>
    subst hk
    simp [hnone]
  · rfl

/-- A stored job registers with its parent, and else nothing is registered. -/
theorem storeNewJob_registers_cases (hmode : mode.Dedups p)
    (hcolon : a.parent ≠ none → ColonFree j) (s : Store) :
    ColonFree j ∧ Registers (p ++ j) s (storeNewJob mode p j a s) ∨
      ∀ c₀, Registers c₀ s (storeNewJob mode p j a s) := by
  cases hparent : a.parent with
  | none =>
    refine .inr fun c₀ => .of_frame (W := .hash :: placingWrites) (by decide) fun hκ => ?_
    rw [BullMQ.storeNewJob, hparent, addParentDependency,
      hmode.quiet _ _ _ _ (Kind.notMem_mono hκ (by decide)),
      storeJob_frame _ _ _ _ _ _ _ _ _ (Kind.notMem_mono hκ (by decide))]
  | some P =>
    have haccount : ∀ s j a κ, κ ∈ accountKinds → mode.enqueue j a s κ = s κ := fun s j a κ hκ => by
      refine hmode.quiet j a s κ ?_
      revert κ
      decide
    exact .inl ⟨hcolon (by simp [hparent]), storeNewJob_registers haccount p j a s⟩

theorem storeNewJob_parentOf (hmode : mode.Dedups p) (hnew : s.jobExists (p ++ j) = false)
    (a : AddArgs) (k : String) :
    (storeNewJob mode p j a s).parentOf k = if k = p ++ j then a.parent else s.parentOf k := by
  rw [Store.parentOf, storeNewJob_hash hmode, ← Store.parentOf,
    storeJob_parentOf _ _ _ _ _ _ _ _ hnew]

/-- Storing a new job keeps the ground. -/
theorem Grounded.storeNewJob (h : Grounded Q s) (hmode : mode.Dedups p) (hp : Q.Base p)
    (hj : QueueSet.Legal j) (hcolon : a.parent ≠ none → ColonFree j)
    (hnew : s.jobExists (p ++ j) = false) : Grounded Q (BullMQ.storeNewJob mode p j a s) := by
  refine h.adds hp hj hnew (storeNewJob_adds hmode.enqueues (h.occ_eq_zero hnew) a)
    (storeNewJob_registers_cases hmode hcolon s) (fun k hk => ?_) fun hne => ?_
  · rw [storeNewJob_parentOf hmode hnew, if_neg hk]
  · rw [storeNewJob_parentOf hmode hnew, if_pos rfl] at hne
    exact hcolon hne

end Store

/-! ### One add -/

/-- An add with an id that it may bring: no number, and not the id that a payload reserves, unless
the add goes where the payload is. -/
structure AddOk (Q : QueueSet) (p : String) (a : AddArgs) (s : Store) : Prop where
  base : Q.Base p
  legal : a.customId ≠ "" → QueueSet.Legal a.customId
  notNumeral : ∀ n : ℕ, a.customId ≠ n.repr
  colonFree : a.parent ≠ none → ColonFree a.customId
  unreserved : a.customId ≠ "" → ∀ d next, s .dn (deduplicationNextKey p d) = some next →
    next.jid = a.customId → ∃ de key, a.opts.de = some de ∧ de.id = d ∧
      s .de (deduplicationKey p d) = some key ∧
      ¬ (de.replace = true ∧ key.jobId ∈ s (.zset .delayed) p)

/-- The events that an add under the id `j` can be. -/
def AddEvent (a : AddArgs) (j : String) : Claims.Event String String DeduplicatedNextJob → Prop
  | .create i => i = j ∧ a.opts.de = none
  | .claim d i e => i = j ∧ ∃ de, a.opts.de = some de ∧ de.id = d ∧
      (e = true → (de.lasting.filter (0 < ·)).isSome)
  | .renew d e => ∃ de, a.opts.de = some de ∧ de.id = d ∧ de.extend = true ∧
      (de.ttl.filter (0 < ·)).isSome ∧ (e = false → de.keepLastIfActive = true)
  | .keep d n => n = a.payload j ∧ ∃ de, a.opts.de = some de ∧ de.id = d ∧
      de.keepLastIfActive = true
  | .replace d i e => i = j ∧ ∃ de, a.opts.de = some de ∧ de.id = d ∧ de.replace = true ∧
      (de.keepLastIfActive = true → e = false)
  | _ => False

theorem AddEvent.introduces {a : AddArgs} {i j : String}
    {e : Claims.Event String String DeduplicatedNextJob} (h : AddEvent a j e)
    (hi : e.Introduces DeduplicatedNextJob.jid i) : j = i := by
  cases e with
  | create _ => exact h.1 ▸ hi
  | claim _ _ _ => exact h.1 ▸ hi
  | replace _ _ _ => exact h.1 ▸ hi
  | keep _ n =>
    obtain ⟨rfl, -⟩ := h
    exact hi
  | _ => exact hi.elim

/-- A new id in a store whose counter has gone past it. -/
structure NewJob (p : String) (a : AddArgs) (j : String) (s : Store) : Prop where
  legal : QueueSet.Legal j
  colonFree : a.parent ≠ none → ColonFree j
  new : s.jobExists (p ++ j) = false
  later : ∀ n : ℕ, s .id p < n → n.repr ≠ j
  unreserved : ∀ d next, s .dn (deduplicationNextKey p d) = some next → next.jid = j →
    ∃ de key, a.opts.de = some de ∧ de.id = d ∧ s .de (deduplicationKey p d) = some key ∧
      ¬ (de.replace = true ∧ key.jobId ∈ s (.zset .delayed) p)

/-- The end of an add: its queue's register has seen an event of the add, or none. -/
structure AddStep (Q : QueueSet) (p : String) (a : AddArgs) (j : String) (s s' : Store) : Prop where
  base : DedupBase Q s'
  others : ∀ {q}, Q.Base q → q ≠ p → s'.claims q = s.claims q
  event : s'.claims p = s.claims p ∨
    ∃ e, AddEvent a j e ∧ Act DeduplicatedNextJob.jid (s.claims p) e (s'.claims p)

section Add

variable {Q : QueueSet} {mode : AddMode} {p j : String} {a : AddArgs} {de : DeduplicationOpts}
  {s s' : Store}

theorem drawId_claims (p q : String) (s : Store) : (drawId p s).claims q = s.claims q :=
  claims_of_frame (by decide) (drawId_frame p s) q

theorem DedupBase.drawId (h : DedupBase Q s) (p : String) : DedupBase Q (BullMQ.drawId p s) := by
  have hs : ∀ κ ∉ [Kind.id, .metaMaxLenEvents], BullMQ.drawId p s κ = s κ := fun κ hκ =>
    drawId_frame p s hκ
  refine h.quiet (h.toGrounded.of_frame (by decide) (drawId_frame p s))
    (fun q => drawId_claims p q s)
    (fun q => ?_) (hs _ (by decide)) (hs _ (by decide))
  rw [drawId_id]
  simp only [Function.update_apply]
  split
  · next hq =>
    subst hq
    exact Nat.le_succ _
  · exact le_rfl

/-- What the id of an add is good for once it is drawn. -/
theorem NewId.newJob (hj : NewId s p a j) (h : DedupBase Q s) (ha : AddOk Q p a s) :
    NewJob p a j (BullMQ.drawId p s) := by
  have hs : ∀ κ ∉ [Kind.id, .metaMaxLenEvents], BullMQ.drawId p s κ = s κ := fun κ hκ =>
    drawId_frame p s hκ
  have hid : BullMQ.drawId p s .id p = s .id p + 1 := by
    rw [drawId_id, Function.update_self]
  have hex : ∀ k, (BullMQ.drawId p s).jobExists k = s.jobExists k := (drawId_same p s).exist
  rcases hj with ⟨hauto, rfl⟩ | ⟨rfl, hne, hnew⟩
  · have hunused := h.counted ha.base (Nat.lt_succ_self (s .id p))
    refine ⟨⟨repr_ne_empty _, not_isLegacyMarker_of_colonFree (colonFree_repr _)⟩,
      fun _ => colonFree_repr _, ?_, fun n hn heq => ?_, fun d next hnext hjid => ?_⟩
    · rw [hex]
      exact claims_job_eq_none.mp hunused.1.1
    · rw [hid] at hn
      exact hn.ne (repr_inj heq.symm)
    · rw [hs _ (by decide)] at hnext
      exact absurd hjid (hunused.1.2 d next hnext)
  · refine ⟨ha.legal hne, ha.colonFree, by rw [hex, hnew], fun n _ heq => ha.notNumeral n heq.symm,
      fun d next hnext hjid => ?_⟩
    rw [hs _ (by decide)] at hnext
    rw [hs _ (by decide), hs _ (by decide)]
    exact ha.unreserved hne d next hnext hjid

/-- An add that is one event. -/
theorem AddStep.of_act {e : Claims.Event String String DeduplicatedNextJob} (h : DedupBase Q s)
    (hj : NewJob p a j s) (hground : Grounded Q s')
    (hpayload : ∀ {q d next}, Q.Base q → s' .dn (deduplicationNextKey q d) = some next →
      next.Legal d)
    (hid : s' .id = s .id) (hrepeat : s' .repeatSet = s .repeatSet)
    (hothers : ∀ {q}, Q.Base q → q ≠ p → s'.claims q = s.claims q) (he : AddEvent a j e)
    (hact : Act DeduplicatedNextJob.jid (s.claims p) e (s'.claims p)) : AddStep Q p a j s s' := by
  refine ⟨h.step hground hpayload (fun q => by rw [hid]) hrepeat fun {q} hq => ?_, hothers,
    .inr ⟨e, he, hact⟩⟩
  by_cases hqp : q = p
  · subst hqp
    refine hact.trace fun n hn hintro => hj.later n ?_ (he.introduces hintro).symm
    rwa [hid] at hn
  · rw [hothers hq hqp]
    exact .refl _

/-- An add that is no event. -/
theorem AddStep.of_frame {W : List Kind} (h : DedupBase Q s)
    (hW : ∀ κ ∈ Kind.id :: .de :: .dn :: .repeatSet :: placeKinds ++ accountKinds, κ ∉ W)
    (hs : ∀ {κ}, κ ∉ W → s' κ = s κ) : AddStep Q p a j s s' := by
  have hplaces : ∀ κ ∈ placeKinds ++ accountKinds, κ ∉ W := fun κ hκ => hW κ (by simp_all)
  have hclaims : ∀ q, s'.claims q = s.claims q := claims_of_frame (fun κ hκ => hW κ (by
    revert κ
    decide)) hs
  refine ⟨h.quiet (h.toGrounded.of_frame hplaces hs) hclaims (fun q => ?_) (hs (hW _ (by decide)))
    (hs (hW _ (by decide))), fun _ _ => hclaims _, .inl (hclaims p)⟩
  rw [hs (hW _ (by decide))]

/-- An id that no payload reserves but one that the add cannot meet. -/
theorem NewJob.free (hj : NewJob p a j s)
    (hde : ∀ de key, a.opts.de = some de → s .de (deduplicationKey p de.id) = some key →
      de.replace = true ∧ key.jobId ∈ s (.zset .delayed) p) :
    (s.claims p).Free DeduplicatedNextJob.jid j := by
  refine ⟨claims_job_eq_none.mpr hj.new, fun d next hnext hjid => ?_⟩
  obtain ⟨de, key, hsome, rfl, hkey, hnot⟩ := hj.unreserved d next hnext hjid
  exact hnot (hde de key hsome hkey)

/-- A job without a deduplication id. -/
theorem AddStep.create (h : DedupBase Q s) (hmode : mode.Dedups p) (hp : Q.Base p)
    (hj : NewJob p a j s) (hde : a.opts.de = none) :
    AddStep Q p a j s (storeNewJob mode p j a s) := by
  have hs : ∀ κ ∉ Kind.hash :: .dependencies :: placingWrites, storeNewJob mode p j a s κ = s κ :=
    fun κ hκ => storeNewJob_frame_of_quiet hmode j a s hκ
  have hdn := hs .dn (by decide)
  have hfree : (s.claims p).Free DeduplicatedNextJob.jid j :=
    hj.free fun de key hsome _ => by rw [hde] at hsome; cases hsome
  refine .of_act (e := .create j) h hj
    (h.toGrounded.storeNewJob hmode hp hj.legal hj.colonFree hj.new)
    (fun hq hnext => h.payload hq (hdn ▸ hnext)) (hs _ (by decide)) (hs _ (by decide))
    (fun hq hne => claims_storeNewJob_of_ne hmode hq hp hne j a s) ⟨rfl, hde⟩ ?_
  rw [claims_storeNewJob hmode hj.new (h.occ_eq_zero hj.new), hde]
  exact .create hfree

theorem Grounded.set_de (h : Grounded Q s) (k : String) (key : Option DeduplicationKey) :
    Grounded Q (s.set .de k key) :=
  h.of_frame (W := [.de]) (by decide) fun hκ => Keyspace.set_of_ne _ (by simpa using hκ) ..

/-- A job that claims a key nobody holds. -/
theorem AddStep.claim (h : DedupBase Q s) (hmode : mode.Dedups p) (hp : Q.Base p)
    (hj : NewJob p a j s) (hde : a.opts.de = some de)
    (hkey : s .de (deduplicationKey p de.id) = none) :
    AddStep Q p a j s (storeNewJob mode p j a
      (setDeduplicationKey (deduplicationKey p de.id) j de.lasting s)) := by
  set s₁ := setDeduplicationKey (deduplicationKey p de.id) j de.lasting s with hs₁
  have hframe : ∀ κ ≠ .de, s₁ κ = s κ := fun κ hκ => setDeduplicationKey_frame _ _ _ s hκ
  have hs : ∀ κ ∉ Kind.de :: .hash :: .dependencies :: placingWrites,
      storeNewJob mode p j a s₁ κ = s κ := fun κ hκ => by
    simp only [List.mem_cons, not_or] at hκ
    rw [storeNewJob_frame_of_quiet hmode j a s₁ (by simp [hκ]), hframe κ hκ.1]
  have hdn := hs .dn (by decide)
  have hnew : s₁.jobExists (p ++ j) = false := by
    rw [Store.jobExists, hframe _ (by decide)]
    exact hj.new
  have hground : Grounded Q s₁ := h.toGrounded.set_de _ _
  -- The id is reserved by no payload: a payload that names it would be one of this key, which
  -- nobody holds.
  have hfree : (s.claims p).Free DeduplicatedNextJob.jid j := hj.free fun de' key hsome hkey' => by
    obtain rfl : de = de' := Option.some.inj (hde.symm.trans hsome)
    rw [hkey] at hkey'
    cases hkey'
  refine .of_act (e := .claim de.id j (de.lasting.filter (0 < ·)).isSome) h hj
    (hground.storeNewJob hmode hp hj.legal hj.colonFree hnew)
    (fun hq hnext => h.payload hq (hdn ▸ hnext)) (hs _ (by decide)) (hs _ (by decide))
    (fun hq hne => ?_) ⟨rfl, de, hde, rfl, id⟩ ?_
  · rw [claims_storeNewJob_of_ne hmode hq hp hne, hs₁, setDeduplicationKey,
      claims_set_de_of_ne fun d => QueueSet.deduplicationKey_ne hp hq hne.symm _ d]
  · rw [claims_storeNewJob hmode hnew (hground.occ_eq_zero hnew), hs₁, setDeduplicationKey,
      claims_set_de, hde]
    have hholder : (s.claims p).holder de.id = none := by simp [Store.claims, hkey]
    have hact := Act.claim (e := (de.lasting.filter (0 < ·)).isSome) hholder hfree
    simpa [DeduplicationKey.holder, Register.setHolder, Register.setJob] using hact

section Replaced

variable {w i d : String}

/-- The families that the deletion of a delayed job writes. -/
theorem removeDelayedJob_frame_of_mem (hw : w ∈ s (.zset .delayed) p) {κ : Kind}
    (hκ : κ ∉ .events :: .zset .delayed :: jobKeyWrites) :
    (removeDelayedJob p w i d s).2 κ = s κ := by
  simp only [List.mem_cons, not_or] at hκ
  rw [removeDelayedJob, if_pos hw, Store.xadd_of_ne _ _ _ hκ.1, Store.xadd_of_ne _ _ _ hκ.1,
    removeJobKeys_frame _ _ hκ.2.2, Keyspace.modify_of_ne _ hκ.2.1]

/-- A delayed holder that gives way is deleted. -/
theorem removeDelayedJob_deletes (h : Sound Q.keySpace s) (hw : w ∈ s (.zset .delayed) p) :
    Deletes p [w] s (removeDelayedJob p w i d s).2 := by
  have herase := (removeJobKeys_erases (p ++ w) (s.modify (.zset .delayed) p (·.zrem w))).same_right
    ((SamePlaces.xadd _ p (.removed w "delayed")).trans (.xadd _ p (.deduplicated i d w)))
  rw [removeDelayedJob, if_pos hw]
  exact (leaves_zrem hw).deletes herase (h.le_one p w)

theorem removeDelayedJob_hash (hw : w ∈ s (.zset .delayed) p) :
    (removeDelayedJob p w i d s).2 .hash = Function.update (s .hash) (p ++ w) none := by
  rw [removeDelayedJob, if_pos hw, Store.xadd_of_ne _ _ _ (by decide),
    Store.xadd_of_ne _ _ _ (by decide), removeJobKeys_hash, Keyspace.modify_of_ne _ (by decide)]

theorem removeDelayedJob_grounded (h : Grounded Q s) (hw : w ∈ s (.zset .delayed) p) :
    Grounded Q (removeDelayedJob p w i d s).2 := by
  refine h.quiet (.of_deletes h.toSound (by simpa using h.valid_zset hw)
    (removeDelayedJob_deletes h.toSound hw)) (fun c₀ => ?_) fun k => ?_
  · rw [removeDelayedJob, if_pos hw]
    refine Registers.trans (show Registers c₀ s (s.modify (.zset .delayed) p (·.zrem w)) from
      .of_frame (W := [.zset .delayed]) (by decide) modify_notMem) ?_
    refine (removeJobKeys_registers (p ++ w) _).trans
      (.of_frame (W := [.events]) (by decide) fun hκ => ?_)
    rw [Store.xadd_of_ne _ _ _ (by simpa using hκ), Store.xadd_of_ne _ _ _ (by simpa using hκ)]
  · rw [Store.parentOf, removeDelayedJob_hash hw, Function.update_apply]
    split
    · exact .inr rfl
    · exact .inl rfl

theorem removeDelayedJob_claims (hw : w ∈ s (.zset .delayed) p) :
    (removeDelayedJob p w i d s).2.claims p = (s.claims p).setJob w none := by
  have hbefore : (removeJobKeys (p ++ w) (s.modify (.zset .delayed) p (·.zrem w))).claims p =
      (s.claims p).setJob w none := by
    rw [claims_removeJobKeys, claims_of_frame (W := [.zset .delayed]) (by decide) modify_notMem p]
  rw [removeDelayedJob, if_pos hw, ← hbefore]
  refine claims_of_frame (W := [.events]) (by decide) (fun hκ => ?_) p
  rw [Store.xadd_of_ne _ _ _ (by simpa using hκ), Store.xadd_of_ne _ _ _ (by simpa using hκ)]

theorem removeDelayedJob_claims_of_ne (hw : w ∈ s (.zset .delayed) p) (hp : Q.Base p) {q : String}
    (hq : Q.Base q) (hne : q ≠ p) : (removeDelayedJob p w i d s).2.claims q = s.claims q := by
  have hbefore : (removeJobKeys (p ++ w) (s.modify (.zset .delayed) p (·.zrem w))).claims q =
      s.claims q := by
    rw [claims_removeJobKeys_of_ne fun i => QueueSet.key_ne hp hq hne.symm w i]
    exact claims_of_frame (W := [.zset .delayed]) (by decide) modify_notMem q
  rw [removeDelayedJob, if_pos hw, ← hbefore]
  refine claims_of_frame (W := [.events]) (by decide) (fun hκ => ?_) q
  rw [Store.xadd_of_ne _ _ _ (by simpa using hκ), Store.xadd_of_ne _ _ _ (by simpa using hκ)]

end Replaced

/-- A job that takes the place of a delayed holder. -/
theorem AddStep.replace {current key : DeduplicationKey} (h : DedupBase Q s)
    (hmode : mode.Dedups p) (hp : Q.Base p) (hj : NewJob p a j s) (hde : a.opts.de = some de)
    (hreplace : de.replace = true) (hkey : s .de (deduplicationKey p de.id) = some current)
    (hdelayed : current.jobId ∈ s (.zset .delayed) p) (hid : key.jobId = j)
    (hlast : de.keepLastIfActive = true → key.pttl = none) :
    AddStep Q p a j s (storeNewJob mode p j a ((removeDelayedJob p current.jobId j de.id s).2.set
      .de (deduplicationKey p de.id) (some key))) := by
  set s₁ := (removeDelayedJob p current.jobId j de.id s).2 with hs₁
  set s₂ : Store := s₁.set .de (deduplicationKey p de.id) (some key) with hs₂
  have hframe : ∀ κ ∉ .de :: .events :: .zset .delayed :: jobKeyWrites, s₂ κ = s κ := fun κ hκ => by
    rw [List.mem_cons, not_or] at hκ
    rw [hs₂, Keyspace.set_of_ne _ hκ.1, hs₁, removeDelayedJob_frame_of_mem hdelayed hκ.2]
  have hs : ∀ κ ∉ .de :: .zset .delayed :: jobKeyWrites ++ placingWrites,
      storeNewJob mode p j a s₂ κ = s κ := fun κ hκ => by
    rw [storeNewJob_frame_of_quiet hmode j a s₂ (Kind.notMem_mono hκ (by decide)),
      hframe κ (Kind.notMem_mono hκ (by decide))]
  have hdn := hs .dn (by decide)
  -- The holder is deleted before the key is set and the new job stored.
  have hhash : s₂ .hash = Function.update (s .hash) (p ++ current.jobId) none := by
    rw [hs₂, Keyspace.set_of_ne _ (by decide), hs₁, removeDelayedJob_hash hdelayed]
  have hnew : s₂.jobExists (p ++ j) = false := by
    rw [Store.jobExists, hhash, Function.update_apply]
    split
    · rfl
    · exact hj.new
  have hground : Grounded Q s₂ := (removeDelayedJob_grounded h.toGrounded hdelayed).set_de _ _
  have hfree : (s.claims p).Free DeduplicatedNextJob.jid j := hj.free fun de' key hsome hkey' => by
    obtain rfl : de = de' := Option.some.inj (hde.symm.trans hsome)
    obtain rfl : current = key := Option.some.inj (hkey.symm.trans hkey')
    exact ⟨hreplace, hdelayed⟩
  refine .of_act (e := .replace de.id j key.pttl.isSome) h hj
    (hground.storeNewJob hmode hp hj.legal hj.colonFree hnew)
    (fun hq hnext => h.payload hq (hdn ▸ hnext)) (hs _ (by decide)) (hs _ (by decide))
    (fun hq hne => ?_) ⟨rfl, de, hde, rfl, hreplace, fun hkeep => by rw [hlast hkeep]; rfl⟩ ?_
  · rw [claims_storeNewJob_of_ne hmode hq hp hne, hs₂,
      claims_set_de_of_ne fun d => QueueSet.deduplicationKey_ne hp hq hne.symm _ d, hs₁,
      removeDelayedJob_claims_of_ne hdelayed hp hq hne]
  · rw [claims_storeNewJob hmode hnew (hground.occ_eq_zero hnew), hs₂, claims_set_de, hs₁,
      removeDelayedJob_claims hdelayed, hde]
    -- A delayed holder is alive, so the register lets the new job replace it.
    have hholder : (s.claims p).holder de.id = some ⟨current.jobId, current.pttl.isSome⟩ := by
      simp [Store.claims, hkey]
    have hlive : (s.claims p).Live current.jobId := claims_live (h.exist_zset hdelayed)
      (h.toSound.not_finished_of_zset hdelayed (by decide))
    have hact : Act _ _ (.replace _ _ key.pttl.isSome) _ := .replace hholder hlive hfree
    simpa [DeduplicationKey.holder, Register.setHolder, Register.setJob, hid] using hact

/-- An add that renews the claim of the holder. -/
theorem AddStep.renew {current : DeduplicationKey} (h : DedupBase Q s) (hp : Q.Base p)
    (hj : NewJob p a j s) (hde : a.opts.de = some de)
    (hkey : s .de (deduplicationKey p de.id) = some current) (hextend : de.extend = true)
    (httl : (de.ttl.filter (0 < ·)).isSome)
    (hs : ∀ κ ∉ [Kind.events], s' κ = setDeduplicationKey (deduplicationKey p de.id) current.jobId
      de.lasting s κ) : AddStep Q p a j s s' := by
  have hframe : ∀ κ ∉ [Kind.de, .events], s' κ = s κ := fun κ hκ => by
    rw [hs κ (Kind.notMem_mono hκ (by decide)), setDeduplicationKey_frame _ _ _ s (by simp_all)]
  have hdn := hframe .dn (by decide)
  have hclaims : ∀ q, s'.claims q = (setDeduplicationKey (deduplicationKey p de.id) current.jobId
      de.lasting s).claims q := claims_of_frame (W := [.events]) (by decide) (fun hκ => hs _ hκ)
  refine .of_act (e := .renew de.id (de.lasting.filter (0 < ·)).isSome) h hj
    (h.toGrounded.of_frame (W := [.de, .events]) (by decide) fun hκ => hframe _ hκ)
    (fun hq hnext => h.payload hq (hdn ▸ hnext)) (hframe _ (by decide)) (hframe _ (by decide))
    (fun hq hne => ?_) ⟨de, hde, rfl, hextend, httl, fun hlast => ?_⟩ ?_
  · rw [hclaims, setDeduplicationKey,
      claims_set_de_of_ne fun d => QueueSet.deduplicationKey_ne hp hq hne.symm _ d]
  · by_contra hkeep
    rw [DeduplicationOpts.lasting, if_neg hkeep, httl] at hlast
    cases hlast
  · have hholder : (s.claims p).holder de.id = some ⟨current.jobId, current.pttl.isSome⟩ := by
      simp [Store.claims, hkey]
    have hact : Act DeduplicatedNextJob.jid _ (.renew _ (de.lasting.filter (0 < ·)).isSome) _ :=
      .renew hholder
    rw [hclaims, setDeduplicationKey, claims_set_de]
    simpa [DeduplicationKey.holder] using hact

/-- An add that is kept as the payload of the next job. -/
theorem AddStep.keep {current : DeduplicationKey} (h : DedupBase Q s) (hp : Q.Base p)
    (hj : NewJob p a j s) (hde : a.opts.de = some de)
    (hkey : s .de (deduplicationKey p de.id) = some current) (hkeep : de.keepLastIfActive = true)
    (hactive : current.jobId ∈ s (.list .active) p)
    (hs : ∀ κ ∉ [Kind.events], s' κ = Keyspace.set (s.set .dn (deduplicationNextKey p de.id)
      (some (a.payload j))) .de (deduplicationKey p de.id) (some ⟨current.jobId, none⟩) κ) :
    AddStep Q p a j s s' := by
  have hframe : ∀ κ ∉ [Kind.de, .dn, .events], s' κ = s κ := fun κ hκ => by
    rw [hs κ (Kind.notMem_mono hκ (by decide)), Keyspace.set_of_ne _ (by simp_all),
      Keyspace.set_of_ne _ (by simp_all)]
  have hclaims : ∀ q, s'.claims q = Store.claims (Keyspace.set (s.set .dn
      (deduplicationNextKey p de.id) (some (a.payload j))) .de (deduplicationKey p de.id)
      (some ⟨current.jobId, none⟩)) q :=
    claims_of_frame (W := [.events]) (by decide) (fun hκ => hs _ hκ)
  have hdn : s' .dn = Function.update (s .dn) (deduplicationNextKey p de.id)
      (some (a.payload j)) := by
    rw [hs _ (by decide), Keyspace.set_of_ne _ (by decide), Keyspace.set_self]
  refine .of_act (e := .keep de.id (a.payload j)) h hj
    (h.toGrounded.of_frame (W := [.de, .dn, .events]) (by decide) fun hκ => hframe _ hκ)
    (fun {q d next} hq hnext => ?_) (hframe _ (by decide)) (hframe _ (by decide))
    (fun hq hne => ?_) ⟨rfl, de, hde, rfl, hkeep⟩ ?_
  · rw [hdn, Function.update_apply] at hnext
    split at hnext
    · next heq =>
      obtain rfl : q = p := by_contra fun hne => QueueSet.deduplicationNextKey_ne hq hp hne _ _ heq
      obtain rfl := deduplicationNextKey_inj.mp heq
      obtain rfl := Option.some.inj hnext
      exact ⟨hj.legal, hj.colonFree, de, hde, rfl, hkeep⟩
    · exact h.payload hq hnext
  · rw [hclaims, claims_set_de_of_ne fun d => QueueSet.deduplicationKey_ne hp hq hne.symm _ d,
      claims_set_dn_of_ne fun d => QueueSet.deduplicationNextKey_ne hp hq hne.symm _ d]
  · -- The active holder stays, and the payload is kept for when it finishes.
    have hholder : (s.claims p).holder de.id = some ⟨current.jobId, current.pttl.isSome⟩ := by
      simp [Store.claims, hkey]
    have hlive : (s.claims p).Live current.jobId := claims_live (h.exist_list hactive)
      (h.toSound.not_finished hactive)
    have hact : Act DeduplicatedNextJob.jid _ (.keep _ (a.payload j)) _ := .keep hholder hlive
      (claims_job_eq_none.mpr hj.new) fun d' n' hn' hjid => ?_
    · rw [hclaims, claims_set_de, claims_set_dn]
      exact hact
    · obtain ⟨de', key, hsome, rfl, -⟩ := hj.unreserved d' n' hn' hjid
      rw [Option.some.inj (hde.symm.trans hsome)]

/-- **The new id of an add** is one event, or none if the add is dropped. -/
theorem addNewJob_step (hmode : mode.Dedups p) (h : DedupBase Q s) (hp : Q.Base p)
    (hj : NewJob p a j s) : AddStep Q p a j s (addNewJob mode p j a s).2 := by
  cases hde : a.opts.de with
  | none =>
    rw [addNewJob_of_none hde]
    exact .create h hmode hp hj hde
  | some de =>
    have hres := hmode.result de j a s
    have heq : ∀ o s', mode.deduplicate de j a s = (o, s') → (addNewJob mode p j a s).2 =
        o.elim (storeNewJob mode p j a s') fun _ => s' := fun o s' h => by
      simp only [addNewJob, hde, h]
      cases o <;> rfl
    rcases hded : mode.deduplicate de j a s with ⟨o, s'⟩
    rw [heq o s' hded]
    rw [hded] at hres
    cases hres with
    | free hkey => exact .claim h hmode hp hj hde hkey
    | replaced hreplace hkey hdelayed hid hlast =>
      exact .replace h hmode hp hj hde hreplace hkey hdelayed hid hlast
    | dropped hkey hs => exact .of_frame h (W := [.events]) (by decide) fun hκ => hs _ hκ
    | renewed hkey hextend httl hs => exact .renew h hp hj hde hkey hextend httl hs
    | kept hkey hkeep hactive hs => exact .keep h hp hj hde hkey hkeep hactive hs

/-- The hashes after an add under an id that exists. -/
theorem handleDuplicatedJob_hash (p j : String) (R : Option Parent) (t : ℤ) (s : Store) :
    (handleDuplicatedJob p j R t s).2 .hash = s .hash ∨ ∃ P, R = some P ∧
      (handleDuplicatedJob p j R t s).2 .hash =
        (s.hset (p ++ j) fun job => { job with parent := some P }) .hash := by
  have hupd : ((updateExistingJobsParent p j R t s).xadd p (.duplicated j)) .hash = s .hash ∨
      ∃ P, R = some P ∧ ((updateExistingJobsParent p j R t s).xadd p (.duplicated j)) .hash =
        (s.hset (p ++ j) fun job => { job with parent := some P }) .hash := by
    rw [Store.xadd_of_ne _ _ _ (by decide)]
    cases R with
    | none => exact .inl rfl
    | some P =>
      have haccount : (if j ∈ s (.zset .completed) p then updateParentDepsIfNeeded P (p ++ j)
          (((s .hash (p ++ j)).bind Job.returnvalue).getD "") t s
          else s.modify .dependencies P.key (·.sadd (p ++ j)) : Store) .hash = s .hash := by
        split
        · exact updateParentDepsIfNeeded_frame _ _ _ _ _ (by decide)
        · exact Keyspace.modify_of_ne _ (by decide) ..
      refine .inr ⟨P, rfl, funext fun k => ?_⟩
      simp only [updateExistingJobsParent]
      rw [Store.hset_hash, Store.hset_hash, haccount]
  unfold handleDuplicatedJob
  split
  · exact hupd
  · split
    · exact hupd
    · split
      · exact .inl rfl
      · exact .inl (Store.xadd_of_ne _ _ _ (by decide))

/-- **An existing id** is no event. -/
theorem handleDuplicatedJob_step (h : DedupBase Q s) (hp : Q.Base p) (hj : QueueSet.Legal j)
    {R : Option Parent} (hcolon : R ≠ none → ColonFree j) (hex : s.jobExists (p ++ j) = true)
    (t : ℤ) : DedupBase Q (handleDuplicatedJob p j R t s).2 ∧
      ∀ q, (handleDuplicatedJob p j R t s).2.claims q = s.claims q := by
  have hs : ∀ κ ∉ duplicateWrites, (handleDuplicatedJob p j R t s).2 κ = s κ := fun κ hκ =>
    handleDuplicatedJob_frame p j R t s hκ
  have hsame := handleDuplicatedJob_same h.toSound hex R t
  have hhash := handleDuplicatedJob_hash p j R t s
  -- Only the parent fields of the hash are written, which the register does not read.
  have hdeid : ∀ k, (handleDuplicatedJob p j R t s).2.deidOf k = s.deidOf k := fun k => by
    obtain heq | ⟨P, -, heq⟩ := hhash <;> rw [Store.deidOf, heq]
    · rfl
    · rw [Store.hset_hash, Store.deidOf]
      split
      · next hk =>
        subst hk
        obtain ⟨job, hjob⟩ := Option.isSome_iff_exists.mp hex
        simp [hjob]
      · rfl
  have hclaims : ∀ q, (handleDuplicatedJob p j R t s).2.claims q = s.claims q := fun q => by
    refine claims_congr hsame.exist hdeid fun κ hκ => hs κ ?_
    revert κ
    decide
  have hground : Grounded Q (handleDuplicatedJob p j R t s).2 := by
    refine ⟨h.toPlaced.retains (.of_same h.toSound hsame), ?_, fun {q i} hq hne => ?_⟩
    · cases R with
      | none =>
        refine h.children.removes fun c₀ => .of_frame (W := [.events]) (by decide) fun {κ} hκ => ?_
        have hev : ∀ s : Store, s.xadd p (.duplicated j) κ = s κ := fun s =>
          Store.xadd_of_ne _ _ _ (by simpa using hκ)
        unfold handleDuplicatedJob
        split
        · exact hev s
        · split
          · exact hev s
          · split
            · rfl
            · exact hev s
      | some P =>
        exact h.children.registers (handleDuplicatedJob_registers p j (some P) t s)
          ⟨hp, hj, hcolon (by simp)⟩
    · obtain heq | ⟨P, hP, heq⟩ := hhash <;> rw [Store.parentOf, heq] at hne
      · exact h.linked hq hne
      · rw [Store.hset_hash] at hne
        split at hne
        · next hk =>
          obtain rfl := Q.apart hq hp hk
          obtain rfl := (String.append_right_inj q).mp hk
          exact hcolon (by simp [hP])
        · exact h.linked hq hne
  exact ⟨h.quiet hground hclaims (fun q => by rw [hs _ (by decide)]) (hs _ (by decide))
    (hs _ (by decide)), hclaims⟩

/-- **An add** is one event of the register of its queue, under the id it brings, or none. -/
theorem addJobWith_step (hmode : mode.Dedups p) (h : DedupBase Q s) (ha : AddOk Q p a s) :
    ∃ j, AddStep Q p a j s (addJobWith mode p a s).2 ∧
      (NewId s p a j ∨ (addJobWith mode p a s).2.claims p = s.claims p) := by
  have hdrawn := h.drawId p
  have hback : ∀ {j s'}, AddStep Q p a j (BullMQ.drawId p s) s' → AddStep Q p a j s s' :=
    fun {j s'} hstep => by
      refine ⟨hstep.base, fun hq hne => (hstep.others hq hne).trans (drawId_claims p _ s), ?_⟩
      have hevent := hstep.event
      rwa [drawId_claims] at hevent
  obtain ⟨-, hres⟩ | ⟨hne, hex, -, hres⟩ | ⟨j, hj, -, hres⟩ := addJobWith_ends mode p a s <;>
    rw [hres]
  · exact ⟨"", ⟨h, fun _ _ => rfl, .inl rfl⟩, .inr rfl⟩
  · have hex' : (BullMQ.drawId p s).jobExists (p ++ a.customId) = true :=
      ((drawId_same p s).exist _).trans hex
    obtain ⟨hbase, hclaims⟩ := handleDuplicatedJob_step hdrawn ha.base (ha.legal hne) ha.colonFree
      hex' a.timestamp
    have hsame : ∀ q, _ = s.claims q := fun q => (hclaims q).trans (drawId_claims p q s)
    exact ⟨"", ⟨hbase, fun _ _ => hsame _, .inl (hsame p)⟩, .inr (hsame p)⟩
  · exact ⟨j, hback (addNewJob_step hmode hdrawn ha.base (hj.newJob h ha)), .inl hj⟩

end Add

end BullMQ
