import BullMQ.Dedup.Adds
import BullMQ.Model.Cleanup

/-!
# Moves and removals in the register of claims

The scripts that move jobs about, the finished ones excepted, are no event of any register
(`Command.Carries.step`). A removal is a sequence of deletions of jobs with what they hold
(`RemovalStep`): of one job with or without its children, or of the children alone.
-/

namespace BullMQ

open Redis Claims

/-! ### Moves -/

/-- The commands that move jobs that are not finished, and leave them their parents. -/
def Command.Carries : Command → Prop
  | reprocessJob .. | moveJobsToWait .. | removeChildDependency .. => False
  | c => c.Moves

section Moves

variable {Q : QueueSet} {c : Command} {s : Store} {r : Reply × Store}

theorem Command.Carries.moves (hc : c.Carries) : c.Moves := by
  cases c <;> first
    | exact hc.elim
    | trivial

theorem Command.Carries.evolves (hc : c.Carries) (hexec : c.exec s = some r) : Evolves s r.2 := by
  cases c with
  | addStandardJob p a => exact hc.elim
  | addDelayedJob p a => exact hc.elim
  | addPrioritizedJob p a => exact hc.elim
  | addParentJob p a => exact hc.elim
  | moveToFinished p a => exact hc.elim
  | removeJob n p j b => exact hc.elim
  | reprocessJob p a => exact hc.elim
  | moveJobsToWait p st m t => exact hc.elim
  | removeChildDependency k k' => exact hc.elim
  | moveToActive p t o => cases hexec; exact moveToActive_evolves p s t o
  | moveToDelayed p a => cases hexec; exact moveToDelayed_evolves p s a
  | moveToWaitingChildren p j t c ts =>
      cases hexec; exact moveToWaitingChildren_evolves p j s t c ts
  | retryJob p a => cases hexec; exact retryJob_evolves p s a
  | moveStalledJobsToWait p m t c => cases hexec; exact moveStalledJobsToWait_evolves p s m t c
  | promote p j => cases hexec; exact promote_evolves p j s
  | changeDelay p d t j => cases hexec; exact changeDelay_evolves p j s d t
  | changePriority p n j l => cases hexec; exact changePriority_evolves p j s n l
  -- The rest writes no job hashes.
  | _ =>
    refine .of_frame ?_ fun hκ => Command.exec_frame hexec hκ
    simp only [Command.writes]
    decide

theorem Command.Carries.writes (hc : c.Carries) :
    ∀ κ ∈ [Kind.zset .completed, .zset .failed, .de, .dn, .id, .repeatSet], κ ∉ c.writes := by
  cases c <;> first
    | exact hc.elim
    | (simp only [Command.writes]; decide)

theorem Command.Carries.childKeys {K : KeySpace} (hc : c.Carries) (h : ChildKeys K s)
    (hexec : c.exec s = some r) : ChildKeys K r.2 := by
  cases c with
  | addStandardJob p a => exact hc.elim
  | addDelayedJob p a => exact hc.elim
  | addPrioritizedJob p a => exact hc.elim
  | addParentJob p a => exact hc.elim
  | moveToFinished p a => exact hc.elim
  | removeJob n p j b => exact hc.elim
  | reprocessJob p a => exact hc.elim
  | moveJobsToWait p st m t => exact hc.elim
  | removeChildDependency k k' => exact hc.elim
  -- Another listing of a set has the same children.
  | reorderDependencies k m =>
    cases hexec
    exact h.removes fun c₀ => .modify .dependencies fun c hc => .inl (mem_reorderSet.mp hc)
  | reorderProcessed k m =>
    cases hexec
    exact h.removes fun c₀ => .modify .processed fun c hc => .inl (mem_reorderHash.mp hc)
  | reorderFailedChildren k m =>
    cases hexec
    exact h.removes fun c₀ => .modify .failedChildren fun c hc => .inl (mem_reorderHash.mp hc)
  | _ =>
    refine h.of_frame ?_ fun hκ => Command.exec_frame hexec hκ
    simp only [Command.writes]
    decide

/-- **A move** is no event. -/
theorem Command.Carries.step (hc : c.Carries) (h : DedupBase Q s) (hexec : c.exec s = some r) :
    DedupBase Q r.2 ∧ ∀ p, r.2.claims p = s.claims p := by
  have hevolves := hc.evolves hexec
  have hsame := hc.moves.exec h.toSound hexec
  have hframe : ∀ {κ}, κ ∉ c.writes → r.2 κ = s κ := fun hκ => Command.exec_frame hexec hκ
  have hwrites := hc.writes
  have hclaims : ∀ p, r.2.claims p = s.claims p :=
    claims_of_evolves (fun κ hκ => hwrites κ (by revert κ; decide)) hevolves hsame hframe
  have hground : Grounded Q r.2 := by
    refine ⟨h.toPlaced.retains (.of_same h.toSound hsame), hc.childKeys h.children hexec, ?_⟩
    intro p j hp hne
    exact h.linked hp (hevolves.parentOf _ ▸ hne)
  refine ⟨h.quiet hground hclaims (fun p => ?_) (hframe (hwrites _ (by decide)))
    (hframe (hwrites _ (by decide))), hclaims⟩
  rw [hframe (hwrites _ (by decide))]

end Moves

/-! ### Removal on request -/

section Removal

variable {Q : QueueSet} {s s₁ : Store} {p q j : String}

theorem claims_bind_key (s : Store) (p j : String) :
    ((s.claims p).job j).bind Entry.key = s.deidOf (p ++ j) := by
  simp only [Store.claims, Store.deidOf]
  cases s .hash (p ++ j) <;> rfl

/-- The keys and payloads of a queue after the removal of a job. -/
theorem removeDeduplicationKeyIfNeededOnRemoval_keys (p j : String) (o : Option String) (s : Store)
    (d : String) :
    removeDeduplicationKeyIfNeededOnRemoval p j o s .de (deduplicationKey p d) =
      (if o = some d ∧ (s .de (deduplicationKey p d)).map DeduplicationKey.jobId = some j then none
      else s .de (deduplicationKey p d)) ∧
    removeDeduplicationKeyIfNeededOnRemoval p j o s .dn (deduplicationNextKey p d) =
      if o = some d ∧ (s .de (deduplicationKey p d)).map DeduplicationKey.jobId = some j then none
      else s .dn (deduplicationNextKey p d) := by
  cases o with
  | none => simp [removeDeduplicationKeyIfNeededOnRemoval]
  | some d' =>
    simp only [removeDeduplicationKeyIfNeededOnRemoval, Option.some.injEq]
    by_cases hd : d' = d
    · subst hd
      by_cases hname : (s .de (deduplicationKey p d')).map DeduplicationKey.jobId = some j
      · simp [hname]
      · simp [hname]
    · have hne : deduplicationKey p d ≠ deduplicationKey p d' := fun h =>
        hd (deduplicationKey_inj.mp h).symm
      have hne' : deduplicationNextKey p d ≠ deduplicationNextKey p d' := fun h =>
        hd (deduplicationNextKey_inj.mp h).symm
      split <;> simp [hd, hne, hne']

/-- What the deletion of a job with its deduplication key comes to, in a store that says the same of
the other jobs. -/
theorem claims_removed (hhash : s₁ .hash = s .hash) (hde : s₁ .de = s .de) (hdn : s₁ .dn = s .dn)
    (hfin : ∀ i ≠ j, Finished s₁ p i = Finished s p i) :
    (removeJobKeys (p ++ j) (removeDeduplicationKeyIfNeededOnRemoval p j (s₁.deidOf (p ++ j))
      s₁)).claims p = (s.claims p).remove j := by
  set s₂ := removeDeduplicationKeyIfNeededOnRemoval p j (s₁.deidOf (p ++ j)) s₁ with hs₂
  have hframe : ∀ κ ∉ [Kind.de, .dn], s₂ κ = s₁ κ := fun κ hκ =>
    removeDeduplicationKeyIfNeededOnRemoval_frame _ _ _ _ hκ
  have hdeid : s₁.deidOf (p ++ j) = s.deidOf (p ++ j) := by
    rw [Store.deidOf, hhash, Store.deidOf]
  have hholder : ∀ d, ((s.claims p).holder d).map Holder.id =
      (s .de (deduplicationKey p d)).map DeduplicationKey.jobId := fun d => by
    simp only [Store.claims, Option.map_map]
    rfl
  have hkeys := removeDeduplicationKeyIfNeededOnRemoval_keys p j (s₁.deidOf (p ++ j)) s₁
  rw [← hs₂, hde, hdn, hdeid] at hkeys
  rw [claims_removeJobKeys]
  -- Field by field: the jobs, the holders of the keys, the kept payloads.
  refine Register.ext (funext fun i => ?_) (funext fun d => ?_) (funext fun d => ?_)
  · simp only [Register.setJob, Register.remove, Function.update_apply]
    split
    · rfl
    · next hi =>
      have hfin' : Finished s₂ p i = Finished s p i :=
        (finished_congr (hframe _ (by decide)) (hframe _ (by decide))).trans (hfin i hi)
      simp only [Store.claims, hframe _ (by decide : Kind.hash ∉ _), hhash, hfin']
  · simp only [Register.setJob, Register.remove, hholder, claims_bind_key]
    simp only [Store.claims, (hkeys d).1]
    split <;> rfl
  · simp only [Register.setJob, Register.remove, hholder, claims_bind_key]
    exact (hkeys d).2

theorem removeDeduplicationKeyIfNeededOnRemoval_claims_of_ne (hp : Q.Base p) (hq : Q.Base q)
    (hne : q ≠ p) (j : String) (o : Option String) (s : Store) :
    (removeDeduplicationKeyIfNeededOnRemoval p j o s).claims q = s.claims q := by
  cases o with
  | none => rfl
  | some d =>
    simp only [removeDeduplicationKeyIfNeededOnRemoval]
    split
    · rw [claims_set_dn_of_ne fun d' => QueueSet.deduplicationNextKey_ne hp hq hne.symm d d',
        claims_set_de_of_ne fun d' => QueueSet.deduplicationKey_ne hp hq hne.symm d d']
    · rfl

/-- The deletion of a job in another queue. -/
theorem claims_removed_of_ne (hp : Q.Base p) (hq : Q.Base q) (hne : q ≠ p) (j : String)
    (o : Option String) (s : Store) : (removeJobKeys (p ++ j)
      (removeDeduplicationKeyIfNeededOnRemoval p j o s)).claims q = s.claims q := by
  rw [claims_removeJobKeys_of_ne fun i => QueueSet.key_ne hp hq hne.symm j i,
    removeDeduplicationKeyIfNeededOnRemoval_claims_of_ne hp hq hne]

/-- A job that is taken out of its container: nothing else finishes or starts again. -/
theorem finished_removeJobFromAnyState {i : String} (h : q ≠ p ∨ i ≠ j) :
    Finished (removeJobFromAnyState p j s).2 q i = Finished s q i := by
  have hmem : ∀ z, i ∈ (removeJobFromAnyState p j s).2 (.zset z) q ↔ i ∈ s (.zset z) q := by
    intro z
    simp only [removeJobFromAnyState]
    split
    · next z' _ =>
      by_cases hz : z = z'
      · subst hz
        rw [Keyspace.modify_self, Function.update_apply]
        split
        · next hq =>
          subst hq
          simp [h.resolve_left (by simp)]
        · rfl
      · rw [Keyspace.modify_of_ne _ (by simpa using hz)]
    · rw [Keyspace.modify_of_ne _ (by simp)]
    · rfl
  simp only [Finished, hmem]

/-- **Deleting a job** deletes what it holds. -/
theorem deleteJob_claims (p j : String) (s : Store) :
    (deleteJob p j s).claims p = (s.claims p).remove j := by
  have hany : ∀ κ, (∀ l, κ ≠ .list l) → (∀ z, κ ≠ .zset z) →
      (removeJobFromAnyState p j s).2 κ = s κ := fun κ => removeJobFromAnyState_frame p j s
  have hkeys := claims_removed (s := s) (p := p) (j := j) (hany .hash (by simp) (by simp))
    (hany .de (by simp) (by simp)) (hany .dn (by simp) (by simp))
    fun i hi => finished_removeJobFromAnyState (.inr hi)
  rw [← hkeys]
  simp only [deleteJob]
  split
  · refine claims_of_frame (W := [.metaMaxLenEvents, .events]) (by decide) (fun hκ => ?_) p
    simp only [List.mem_cons, List.not_mem_nil, or_false, not_or] at hκ
    rw [Store.xadd_of_ne _ _ _ hκ.2, getOrSetMaxEvents_frame _ _ (by simpa using hκ.1)]
  · rfl

theorem deleteJob_claims_of_ne (hp : Q.Base p) (hq : Q.Base q) (hne : q ≠ p) (j : String)
    (s : Store) : (deleteJob p j s).claims q = s.claims q := by
  have hany : (removeJobFromAnyState p j s).2.claims q = s.claims q := by
    have hs : ∀ κ, (∀ l, κ ≠ .list l) → (∀ z, κ ≠ .zset z) →
        (removeJobFromAnyState p j s).2 κ = s κ := fun κ => removeJobFromAnyState_frame p j s
    have hhash := hs .hash (by simp) (by simp)
    refine Register.ext (funext fun i => ?_) (funext fun d => ?_) (funext fun d => ?_)
    · simp only [Store.claims, hhash, finished_removeJobFromAnyState (.inl hne)]
    · simp only [Store.claims, hs .de (by simp) (by simp)]
    · simp only [Store.claims, hs .dn (by simp) (by simp)]
  have hkeys := (claims_removed_of_ne hp hq hne j ((removeJobFromAnyState p j s).2.deidOf (p ++ j))
    (removeJobFromAnyState p j s).2).trans hany
  rw [← hkeys]
  simp only [deleteJob]
  split
  · refine claims_of_frame (W := [.metaMaxLenEvents, .events]) (by decide) (fun hκ => ?_) q
    simp only [List.mem_cons, List.not_mem_nil, or_false, not_or] at hκ
    rw [Store.xadd_of_ne _ _ _ hκ.2, getOrSetMaxEvents_frame _ _ (by simpa using hκ.1)]
  · rfl

/-- The hashes and payloads after a deletion. -/
theorem deleteJob_hash (p j : String) (s : Store) :
    deleteJob p j s .hash = Function.update (s .hash) (p ++ j) none := by
  have hkeys : ∀ s₁ : Store, removeJobKeys (p ++ j) (removeDeduplicationKeyIfNeededOnRemoval p j
      (s₁.deidOf (p ++ j)) s₁) .hash = Function.update (s₁ .hash) (p ++ j) none := fun s₁ => by
    rw [removeJobKeys_hash, removeDeduplicationKeyIfNeededOnRemoval_frame _ _ _ _ (by decide)]
  have hany : (removeJobFromAnyState p j s).2 .hash = s .hash :=
    removeJobFromAnyState_frame p j s (by simp) (by simp)
  simp only [deleteJob]
  split
  · rw [Store.xadd_of_ne _ _ _ (by decide), getOrSetMaxEvents_frame _ _ (by decide), hkeys, hany]
  · rw [hkeys, hany]

/-- A key of a queue is that of a job only if its id is legal. -/
theorem Grounded.legal (h : Grounded Q s) (hp : Q.Base p) (hex : s.jobExists (p ++ j) = true) :
    QueueSet.Legal j := by
  obtain ⟨q, i, ⟨hq, hi⟩, hkey, -⟩ := h.placed hex
  obtain rfl := Q.apart hp hq hkey
  obtain rfl := (String.append_right_inj p).mp hkey
  exact hi

theorem Grounded.valid_or (h : Grounded Q s) (hp : Q.Base p) (j : String) :
    Q.keySpace.Valid p j ∨ s.jobExists (p ++ j) = false := by
  by_cases hex : s.jobExists (p ++ j) = true
  · exact .inl ⟨hp, h.legal hp hex⟩
  · exact .inr (by simpa using hex)

/-- Payloads that are as before, or gone. -/
theorem DedupBase.payload_of_claims {s' : Store} (h : DedupBase Q s)
    (hnext : ∀ {q d next}, Q.Base q → (s'.claims q).next d = some next →
      (s.claims q).next d = some next) {q d : String} {next : DeduplicatedNextJob} (hq : Q.Base q)
    (hn : s' .dn (deduplicationNextKey q d) = some next) : next.Legal d :=
  h.payload hq (hnext hq hn)

/-- The deletion of a job is one event. -/
theorem DedupBase.deleteJob (h : DedupBase Q s) (hp : Q.Base p) (j : String) :
    DedupBase Q (BullMQ.deleteJob p j s) := by
  have hs : ∀ κ ∉ deleteWrites,
    BullMQ.deleteJob p j s κ = s κ := fun κ hκ => deleteJob_frame p j s hκ
  have hother : ∀ {q}, Q.Base q → q ≠ p → (BullMQ.deleteJob p j s).claims q = s.claims q :=
    fun hq hne => deleteJob_claims_of_ne hp hq hne j s
  have hground : Grounded Q (BullMQ.deleteJob p j s) := by
    refine h.toGrounded.quiet (deleteJob_retains h.toPlaced (h.toGrounded.valid_or hp j))
      (fun c₀ => deleteJob_registers p j s) fun k => ?_
    rw [Store.parentOf, deleteJob_hash, Function.update_apply]
    split
    · exact .inr rfl
    · exact .inl rfl
  refine h.step hground (h.payload_of_claims fun {q d next} hq hn => ?_)
    (fun q => by rw [hs _ (by decide)]) (hs _ (by decide)) fun {q} hq => ?_
  · by_cases hqp : q = p
    · subst hqp
      rw [deleteJob_claims] at hn
      simp only [Register.remove] at hn
      split at hn
      · cases hn
      · exact hn
    · rwa [hother hq hqp] at hn
  · by_cases hqp : q = p
    · subst hqp
      rw [deleteJob_claims]
      exact Act.remove.trace fun n _ hintro => hintro
    · rw [hother hq hqp]
      exact .refl _

/-- Events that are deletions of jobs with what they hold. -/
def Removes : Register String String DeduplicatedNextJob →
    Claims.Event String String DeduplicatedNextJob → Prop := fun _ e => ∃ j, e = .remove j

theorem removeParentDependencyKey_grounded (h : Grounded Q s) (k : String) (o : Option String) :
    Grounded Q (removeParentDependencyKey k o s).2 := by
  have hhash : (removeParentDependencyKey k o s).2 .hash = s .hash :=
    removeParentDependencyKey_frame k o s (by decide)
  exact h.quiet (.of_same h.toSound (removeParentDependencyKey_same k o s))
    (fun c₀ => removeParentDependencyKey_registers k o s)
    fun k' => .inl (by rw [Store.parentOf, hhash, Store.parentOf])

theorem removeParentDependencyKey_step (h : DedupBase Q s) (k : String) (o : Option String) :
    DedupBase Q (removeParentDependencyKey k o s).2 ∧
      ∀ q, (removeParentDependencyKey k o s).2.claims q = s.claims q := by
  have hs : ∀ κ ∉ unlinkWrites, (removeParentDependencyKey k o s).2 κ = s κ := fun κ hκ =>
    removeParentDependencyKey_frame k o s hκ
  have hclaims : ∀ q, (removeParentDependencyKey k o s).2.claims q = s.claims q :=
    claims_of_frame (by decide) (removeParentDependencyKey_frame k o s)
  exact ⟨h.quiet (removeParentDependencyKey_grounded h.toGrounded k o) hclaims
    (fun q => by rw [hs _ (by decide)]) (hs _ (by decide)) (hs _ (by decide)), hclaims⟩

/-- The end of a removal: the registers have seen deletions of jobs and nothing else. -/
structure RemovalStep (Q : QueueSet) (s s' : Store) : Prop where
  base : DedupBase Q s'
  trace : ∀ {q}, Q.Base q → Trace DeduplicatedNextJob.jid Removes (s.claims q) (s'.claims q)

namespace RemovalStep

theorem refl (h : DedupBase Q s) : RemovalStep Q s s := ⟨h, fun _ => .refl _⟩

theorem trans {s' : Store} (h : RemovalStep Q s s₁) (h' : RemovalStep Q s₁ s') :
    RemovalStep Q s s' :=
  ⟨h'.base, fun hq => (h.trace hq).trans (h'.trace hq)⟩

/-- A step that no register notices. -/
theorem of_claims (h : DedupBase Q s₁) (hclaims : ∀ q, s₁.claims q = s.claims q) :
    RemovalStep Q s s₁ :=
  ⟨h, fun _ => hclaims _ ▸ .refl _⟩

theorem unlink (h : DedupBase Q s) (k : String) (o : Option String) :
    RemovalStep Q s (removeParentDependencyKey k o s).2 :=
  have hstep := removeParentDependencyKey_step h k o
  .of_claims hstep.1 hstep.2

theorem delete (h : DedupBase Q s) (hp : Q.Base p) (j : String) :
    RemovalStep Q s (BullMQ.deleteJob p j s) := by
  refine ⟨h.deleteJob hp j, fun {q} hq => ?_⟩
  by_cases hqp : q = p
  · subst hqp
    rw [deleteJob_claims]
    exact Act.remove.trace ⟨j, rfl⟩
  · rw [deleteJob_claims_of_ne hp hq hqp]
    exact .refl _

/-- The queue that a child key names. -/
theorem base_of_child (h : RemovalStep Q s s₁) {k c : String} (hkc : IsChildOf s₁ k c) :
    Q.Base (getJobKeyPrefix c (getJobIdFromKey c)) := by
  obtain ⟨q, i, ⟨hq, -, hi⟩, rfl⟩ := h.base.children k c hkc
  rw [getJobIdFromKey_append (Q.base hq) hi, getJobKeyPrefix_append]
  exact hq

end RemovalStep

/-- **Removal on request** is a sequence of deletions. -/
theorem removeJob_step {n : ℕ} {b : Bool} {r : Reply × Store} (h : DedupBase Q s) (hp : Q.Base p)
    (hexec : Script.removeJob n p j b s = some r) : RemovalStep Q s r.2 :=
  Script.removeJob_rule (I := RemovalStep Q s) (V := fun q _ => Q.Base q)
    (fun k o _ hs => hs.trans (.unlink hs.base k o))
    (fun _ i _ hq hs => hs.trans (.delete hs.base hq i)) (fun _ _ _ hs hkc => hs.base_of_child hkc)
    hp (.refl h) hexec

/-- The removal of the children of a job that are not yet processed. -/
theorem removeUnprocessedChildren_step {n : ℕ} {r : Reply × Store} (h : DedupBase Q s)
    (hexec : Script.removeUnprocessedChildren n p j s = some r) : RemovalStep Q s r.2 := by
  obtain ⟨s', hs', rfl⟩ := Option.map_eq_some_iff.mp hexec
  refine removeJobChildren_rule (I := RemovalStep Q s) (V := fun q _ => Q.Base q)
    (fun _ _ _ hs hkc => hs.base_of_child hkc) (fun q i o t t' hq ht hrec => ?_) (.refl h) hs'
  exact removeJobWithChildren_rule (fun k o _ hs => hs.trans (.unlink hs.base k o))
    (fun _ i _ hq hs => hs.trans (.delete hs.base hq i)) (fun _ _ _ hs hkc => hs.base_of_child hkc)
    hq ht hrec

/-- Taking a child off its parent. -/
theorem removeChildDependency_step (h : DedupBase Q s) (k k' : String) :
    RemovalStep Q s (Script.removeChildDependency k k' s).2 := by
  have hunlink := RemovalStep.unlink h k (some k')
  simp only [Script.removeChildDependency]
  split
  · exact .refl h
  · split
    · exact .refl h
    · split
      · refine hunlink.trans ?_
        set t := (removeParentDependencyKey k (some k') s).2 with ht
        have hframe : ∀ κ ≠ .hash, t.hdel k (fun job => { job with parent := none }) κ = t κ :=
          fun κ hκ => Store.hdel_of_ne _ _ _ hκ
        -- The hash forgets its parent, which no claim speaks of.
        have hclaims : ∀ q, Store.claims (t.hdel k fun job => { job with parent := none }) q =
            t.claims q := fun q => by
          refine claims_congr (SamePlaces.hdel t k _).exist (fun k₁ => ?_) fun κ hκ =>
            hframe κ (by revert κ; decide)
          rw [Store.deidOf, Store.hdel_hash, Store.deidOf]
          split
          · next hk =>
            subst hk
            cases t .hash k₁ <;> rfl
          · rfl
        refine .of_claims (hunlink.base.quiet ?_ hclaims
          (fun q => by rw [hframe _ (by decide)]) (hframe _ (by decide)) (hframe _ (by decide)))
          hclaims
        refine hunlink.base.toGrounded.quiet (.of_same hunlink.base.toSound (SamePlaces.hdel t k _))
          (fun c₀ => .of_frame (W := [.hash]) (by decide) fun hκ => hframe _ (by simpa using hκ))
          fun k₁ => ?_
        rw [Store.parentOf, Store.hdel_hash, Store.parentOf]
        split
        · exact .inr (by cases t .hash k₁ <;> rfl)
        · exact .inl rfl
      · exact hunlink

end Removal

end BullMQ
