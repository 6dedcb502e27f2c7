import BullMQ.Flow.Descendants
import BullMQ.Flow.Entries
import BullMQ.Placement.Children

/-!
# The links a command adds

A link leads from a job to a child in one of its four accounts. A child moves between the accounts
of its parent as it finishes, fails and is retried, which adds no link. Links are added by the add
scripts alone, one at a time, from the parent they are given to the job they add; the successor of
a deduplicated job would get one too, but deduplication and a parent exclude each other.
-/

namespace BullMQ

open Redis

variable {s s' s'' : Store} {p j : String} {E : String → String → Prop}

/-- Every link that is new is one of `E`. -/
structure NewLinks (E : String → String → Prop) (s s' : Store) : Prop where
  link : ∀ k c, IsChildOf s' k c → IsChildOf s k c ∨ E k c

namespace NewLinks

theorem refl (s : Store) : NewLinks E s s := ⟨fun _ _ => .inl⟩

theorem trans (h : NewLinks E s s') (h' : NewLinks E s' s'') : NewLinks E s s'' := by
  refine ⟨fun k c hc => ?_⟩
  rcases h'.link k c hc with hc | hc
  · exact h.link k c hc
  · exact .inr hc

theorem of_accounts (h : ∀ a : Account, s' a.kind = s a.kind) : NewLinks E s s' := by
  refine ⟨fun k c ⟨a, hc⟩ => .inl ⟨a, ?_⟩⟩
  rwa [childrenIn_congr (h a)] at hc

theorem of_frame {W : List Kind} (hW : ∀ κ ∈ accountKinds, κ ∉ W) (hs : ∀ {κ}, κ ∉ W → s' κ = s κ) :
    NewLinks E s s' :=
  of_accounts fun a => hs (hW _ a.kind_mem)

/-- What registers no key at all adds no link. -/
theorem of_registers (h : ∀ c₀, Registers c₀ s s') : NewLinks E s s' := by
  refine ⟨fun k c hc => .inl ?_⟩
  have hne : c ≠ c ++ ":" := fun heq => by simpa using congrArg String.length heq
  exact ((h (c ++ ":")).child k c hc).resolve_right hne

/-- Links that were there are not new. -/
theorem of_old {E' : String → String → Prop} (h : NewLinks E s s')
    (hE : ∀ k c, E k c → IsChildOf s k c) : NewLinks E' s s' :=
  ⟨fun k c hc => .inl ((h.link k c hc).elim id (hE k c))⟩

/-- Entering a child into an account. -/
theorem enter (a : Account) {k x : String} {f : Val a.kind → Val a.kind}
    (hf : ∀ v c, c ∈ a.keys (f v) ↔ c = x ∨ c ∈ a.keys v) (hE : E k x) :
    NewLinks E s (s.modify a.kind k f) := by
  refine ⟨fun k' c ⟨a', hc⟩ => ?_⟩
  rw [mem_childrenIn_enter (x := x) fun v => hf v c] at hc
  rcases hc with hc | ⟨-, rfl, rfl⟩
  · exact .inl ⟨a', hc⟩
  · exact .inr hE

theorem sadd {k x : String} (s : Store) (hE : E k x) :
    NewLinks E s (s.modify .dependencies k (·.sadd x)) :=
  enter .dependencies (fun _ _ => MemberSet.mem_sadd) hE

theorem srem (k x : String) (s : Store) : NewLinks E s (s.modify .dependencies k (·.srem x)) :=
  of_registers fun _ => .srem k x s

end NewLinks

/-! ### Children and their parent -/

theorem updateParentDepsIfNeeded_links {P : Parent} {x : String} (v : String) (t : ℤ) (s : Store)
    (hE : E P.key x) : NewLinks E s (updateParentDepsIfNeeded P x v t s) :=
  (NewLinks.enter .processed (fun _ _ => AList.mem_insert _) hE).trans
    (.of_frame (by decide) (moveParentToWaitIfNoPendingDependencies_frame P t _))

/-- The account of a failed child moves it. -/
theorem moveChildFromDependenciesIfNeeded_links (R : Option Parent) (x r : String) (t : ℤ)
    (s : Store) : NewLinks E s (moveChildFromDependenciesIfNeeded R x r t s) := by
  cases R with
  | none => exact .refl s
  | some P =>
    by_cases hin : x ∈ s .dependencies P.key
    · refine NewLinks.of_old (E := fun k c => k = P.key ∧ c = x) ?_
        (by rintro k c ⟨rfl, rfl⟩; exact ⟨.dependencies, hin⟩)
      have hdep := NewLinks.srem (E := fun k c => k = P.key ∧ c = x) P.key x s
      have hfail : ∀ s : Store, NewLinks (fun k c => k = P.key ∧ c = x) s
          (s.modify .failedChildren P.key (·.insert x r)) := fun s =>
        .enter .failedChildren (fun _ _ => AList.mem_insert _) ⟨rfl, rfl⟩
      simp only [moveChildFromDependenciesIfNeeded, if_pos hin]
      split
      · have huns := hdep.trans (.enter .unsuccessful (f := (·.zadd t x))
          (fun _ _ => SortedSet.mem_zadd) ⟨rfl, rfl⟩)
        exact huns.trans (.of_frame (by decide)
          (handleChildFailureAndMoveParentToWait_frame P x t _))
      · split
        · exact (hdep.trans (hfail _)).trans
            (.of_frame (by decide) (moveParentToWaitIfNeeded_frame P t _))
        · split
          · have hrel := hdep.trans
              (.of_frame (by decide) (moveParentToWaitIfNoPendingDependencies_frame P t _))
            split
            · exact hrel.trans (hfail _)
            · exact hrel
          · exact .refl s
    · simp only [moveChildFromDependenciesIfNeeded, if_neg hin]
      exact .refl s

/-- The account of a finished child moves it. -/
theorem notifyParent_links (R : Option Parent) (x : String) (a : FinishArgs) (s : Store) :
    NewLinks E s (notifyParent R x a s) := by
  unfold notifyParent
  split
  · exact .refl s
  · next P =>
    split
    · exact .refl s
    · split
      · split
        · next hin =>
          refine NewLinks.of_old (E := fun k c => k = P.key ∧ c = x) ?_
            (by rintro k c ⟨rfl, rfl⟩; exact ⟨.dependencies, hin⟩)
          exact (NewLinks.srem P.key x s).trans
            (updateParentDepsIfNeeded_links _ _ _ ⟨rfl, rfl⟩)
        · exact .refl s
      · exact moveChildFromDependenciesIfNeeded_links ..

/-- A child that is retried moves back. -/
theorem restoreDependency_links (x : String) (st : FinishedStatus) (s : Store) :
    NewLinks E s (restoreDependency x st s) := by
  unfold restoreDependency
  split
  · exact .refl s
  · next P _ =>
    have hmove : ∀ (a : Account) (f : Val a.kind → Val a.kind), x ∈ childrenIn s a P.key →
        (∀ v c, c ∈ a.keys (f v) → c ∈ a.keys v) → NewLinks E s
          ((s.modify a.kind P.key f).modify .dependencies P.key (·.sadd x)) := by
      intro a f hin hf
      refine NewLinks.of_old (E := fun k c => k = P.key ∧ c = x) ?_
        (by rintro k c ⟨rfl, rfl⟩; exact ⟨a, hin⟩)
      exact (NewLinks.of_registers fun c₀ => .modify a fun c hc => .inl (hf _ c hc)).trans
        (.sadd _ ⟨rfl, rfl⟩)
    split
    · exact .refl s
    · split
      · split
        · next hin => exact hmove .unsuccessful _ hin fun _ _ hc => (SortedSet.mem_zrem.mp hc).1
        · split
          · next hin => exact hmove .failedChildren _ hin fun _ _ hc => (AList.mem_erase.mp hc).2
          · exact .refl s
      · split
        · next hin => exact hmove .processed _ hin fun _ _ hc => (AList.mem_erase.mp hc).2
        · exact .refl s

/-! ### Payloads without a parent -/

/-- No payload that is kept for a deduplication id has a parent. -/
def ParentlessPayloads (s : Store) : Prop :=
  ∀ k next, s .dn k = some next → next.parent = none

theorem ParentlessPayloads.of_frame {W : List Kind} (h : ParentlessPayloads s)
    (hW : Kind.dn ∉ W) (hs : ∀ {κ}, κ ∉ W → s' κ = s κ) : ParentlessPayloads s' := by
  intro k next hnext
  rw [hs hW] at hnext
  exact h k next hnext

/-- Dropping a payload. -/
theorem ParentlessPayloads.drop (h : ParentlessPayloads s) (k : String) :
    ParentlessPayloads (s.set .dn k none) := by
  intro k' next hnext
  rw [Keyspace.set_self, Function.update_apply] at hnext
  split at hnext
  · cases hnext
  · exact h k' next hnext

theorem removeDeduplicationKeyIfNeededOnRemoval_payloads (h : ParentlessPayloads s)
    (p j : String) (d : Option String) :
    ParentlessPayloads (removeDeduplicationKeyIfNeededOnRemoval p j d s) := by
  unfold removeDeduplicationKeyIfNeededOnRemoval
  split
  · exact h
  · simp only
    split
    · exact (h.of_frame (W := [.de]) (by decide) fun hκ => Keyspace.set_of_ne _
        (by simpa using hκ) ..).drop _
    · exact h

/-- The successor that is kept for a winner has no parent and thus adds no link. -/
theorem requeueDeduplicatedJob_links (h : ParentlessPayloads s) (p : String) (d : Option String)
    (t : ℤ) : NewLinks E s (requeueDeduplicatedJob p d t s) ∧
      ParentlessPayloads (requeueDeduplicatedJob p d t s) := by
  refine ⟨.of_frame (by decide) (requeueDeduplicatedJob_frame_of_parentless (fun _ => h _) d t), ?_⟩
  intro k next hnext
  rw [requeueDeduplicatedJob_dn] at hnext
  cases d with
  | none => exact h k next hnext
  | some d =>
    rw [Option.elim_some, Function.update_apply] at hnext
    split at hnext
    · cases hnext
    · exact h k next hnext

/-! ### Finishing -/

/-- A finished job adds no link and no payload with a parent. -/
theorem finishJob_links (h : ParentlessPayloads s) (p : String) (a : FinishArgs) :
    NewLinks E s (finishJob p a s) ∧ ParentlessPayloads (finishJob p a s) := by
  have hsettle : NewLinks E s (settleFinished p a s) ∧
      ParentlessPayloads (settleFinished p a s) := by
    simp only [settleFinished]
    set s₁ := removeDeduplicationKeyIfNeededOnFinalization p (s.deidOf (p ++ a.jobId)) a.jobId
      (trimEvents p s)
    have hframe : ∀ {κ}, κ ∉ [Kind.metaMaxLenEvents, .de] → s₁ κ = s κ := by
      intro κ hκ
      simp only [List.mem_cons, List.not_mem_nil, or_false, not_or] at hκ
      rw [removeDeduplicationKeyIfNeededOnFinalization_frame _ _ _ _ hκ.2,
        trimEvents_frame _ _ (by simpa using hκ.1)]
    obtain ⟨hlink, hpay⟩ := requeueDeduplicatedJob_links (E := E) (h.of_frame (by decide) hframe) p
      (s.deidOf (p ++ a.jobId)) a.timestamp
    exact ⟨((NewLinks.of_frame (by decide) hframe).trans hlink).trans (notifyParent_links ..),
      hpay.of_frame (by decide) (notifyParent_frame _ _ _ _)⟩
  have hkeep : ∀ f, NewLinks E s (keepOrRemove p (s.parentOf (p ++ a.jobId)) a
      ((settleFinished p a s).hset (p ++ a.jobId) f)) := fun f =>
    (hsettle.1.trans (.of_frame (W := [.hash]) (by decide) fun hκ =>
      Store.hset_of_ne _ _ _ (by simpa using hκ))).trans
        (.of_registers fun _ => keepOrRemove_registers ..)
  refine ⟨?_, fun k next hnext => hsettle.2 k next ?_⟩
  · simp only [finishJob]
    split
    · exact ((hkeep _).trans (.of_frame (W := [.events]) (by decide) fun hκ =>
        emitFinished_frame _ _ _ _ (by simpa using hκ))).trans
          (.of_frame (W := [.metrics]) (by decide)
          fun hκ => collectMetrics_frame _ _ _ _ (by simpa using hκ))
    · exact (hkeep _).trans (.of_frame (W := [.events]) (by decide) fun hκ =>
        emitFinished_frame _ _ _ _ (by simpa using hκ))
  · simp only [finishJob] at hnext
    split at hnext
    · rwa [collectMetrics_frame _ _ _ _ (by decide), emitFinished_frame _ _ _ _ (by decide),
        keepOrRemove_dedup _ _ _ _ (by decide), Store.hset_of_ne _ _ _ (by decide)] at hnext
    · rwa [emitFinished_frame _ _ _ _ (by decide), keepOrRemove_dedup _ _ _ _ (by decide),
        Store.hset_of_ne _ _ _ (by decide)] at hnext

theorem moveToFinished_links (h : ParentlessPayloads s) (p : String) (a : FinishArgs) :
    NewLinks E s (Script.moveToFinished p a s).2 ∧
      ParentlessPayloads (Script.moveToFinished p a s).2 := by
  obtain ⟨-, n, -, -, hres⟩ | ⟨-, hres⟩ | ⟨-, hres⟩ := Script.moveToFinished_cases p a s
  · rw [hres]
    exact ⟨.refl s, h⟩
  · rw [hres]
    exact ⟨.of_frame (by decide) (releasedJob_frame _ _ _ _ s), h.of_frame (by decide)
      (releasedJob_frame _ _ _ _ s)⟩
  · rw [hres]
    have hleft : ∀ {κ}, κ ∉ [Kind.lock, .stalled, .hash, .list .active] →
        leftActive p a.jobId a.opts.token a.fieldsToUpdate s κ = s κ := leftActive_frame _ _ _ _ s
    obtain ⟨hlink, hpay⟩ := finishJob_links (E := E) (h.of_frame (by decide) hleft) p a
    exact ⟨((NewLinks.of_frame (by decide) hleft).trans hlink).trans
      (.of_frame (by decide) (fetchOrDrain_frame p a _)),
      hpay.of_frame (by decide) (fetchOrDrain_frame p a _)⟩

theorem reprocessJob_links (p : String) (a : ReprocessArgs) (s : Store) :
    NewLinks E s (Script.reprocessJob p a s).2 := by
  simp only [Script.reprocessJob]
  split
  · exact .refl s
  · split
    · have hput : ∀ (f : Job → Job) (b : Bool), NewLinks E s
          (addJobInTargetList p a.pushCmd b a.jobId (Store.hdel (s.modify (.zset a.state.zset) p
            (·.zrem a.jobId)) (p ++ a.jobId) f)) := fun f b => .of_accounts fun a' => by
        rw [addJobInTargetList_frame _ _ _ _ _ (by cases a' <;> decide),
          Store.hdel_of_ne _ _ _ (by cases a' <;> decide),
          Keyspace.modify_of_ne _ (by cases a' <;> cases a.state <;> decide)]
      have hev : ∀ s e, NewLinks E s (Store.xadd (getOrSetMaxEvents p s) p e) := fun s e =>
        .of_accounts fun a' => by
          rw [Store.xadd_of_ne _ _ _ (by cases a' <;> decide),
            getOrSetMaxEvents_frame _ _ (by cases a' <;> decide)]
      exact ((hput _ _).trans (restoreDependency_links ..)).trans (hev _ _)
    · exact .refl s

theorem deleteJob_payloads (h : ParentlessPayloads s) (p j : String) :
    ParentlessPayloads (deleteJob p j s) := by
  have hany : ParentlessPayloads (removeJobFromAnyState p j s).2 := by
    intro k next hnext
    rw [removeJobFromAnyState_frame p j s (by simp) (by simp)] at hnext
    exact h k next hnext
  have hkeys := (removeDeduplicationKeyIfNeededOnRemoval_payloads hany p j
    ((removeJobFromAnyState p j s).2.deidOf (p ++ j))).of_frame (by decide)
      (removeJobKeys_frame (p ++ j) _)
  simp only [deleteJob]
  split
  · refine hkeys.of_frame (W := [.metaMaxLenEvents, .events]) (by decide) fun hκ => ?_
    simp only [List.mem_cons, List.not_mem_nil, or_false, not_or] at hκ
    rw [Store.xadd_of_ne _ _ _ hκ.2, getOrSetMaxEvents_frame _ _ (by simpa using hκ.1)]
  · exact hkeys

/-! ### Adding -/

/-- The parts of an add script that come before the parent add no link, and keep payloads without
a parent if the add has none. -/
structure AddMode.LinkFree (mode : AddMode) : Prop where
  deduplicate : ∀ {E s} de j a, a.parent = none → ParentlessPayloads s →
    NewLinks E s (mode.deduplicate de j a s).2 ∧ ParentlessPayloads (mode.deduplicate de j a s).2
  enqueue : ∀ {κ} j a s, κ ∈ Kind.dn :: accountKinds → mode.enqueue j a s κ = s κ

theorem storeDeduplicatedNextJob_payloads (h : ParentlessPayloads s) (p : String)
    (de : DeduplicationOpts) (c j : String) {a : AddArgs} (ha : a.parent = none) :
    ParentlessPayloads (storeDeduplicatedNextJob p de c j a s).2 := by
  simp only [storeDeduplicatedNextJob]
  split
  · intro k next hnext
    rw [Store.xadd_of_ne _ _ _ (by decide), Keyspace.modify_of_ne _ (by decide),
      Keyspace.set_self, Function.update_apply] at hnext
    split at hnext
    · cases hnext
      exact ha
    · exact h k next hnext
  · exact h

theorem deduplicateJobWithoutReplace_links (p : String) (de : DeduplicationOpts) (j : String)
    {a : AddArgs} (ha : a.parent = none) (h : ParentlessPayloads s) :
    NewLinks E s (deduplicateJobWithoutReplace p de j a s).2 ∧
      ParentlessPayloads (deduplicateJobWithoutReplace p de j a s).2 := by
  refine ⟨.of_frame (by decide) (deduplicateJobWithoutReplace_frame p de j a s), ?_⟩
  have hset : ∀ (s : Store) (k i : String) (t : Option ℤ), ParentlessPayloads s →
      ParentlessPayloads (setDeduplicationKey k i t s) := fun s k i t hs =>
    hs.of_frame (W := [.de]) (by decide) fun hκ => setDeduplicationKey_frame _ _ _ _
      (by simpa using hκ)
  have hev : ∀ (s : Store) (e : Event), ParentlessPayloads s → ParentlessPayloads (s.xadd p e) :=
    fun s e hs => hs.of_frame (W := [.events]) (by decide) fun hκ => Store.xadd_of_ne _ _ _
      (by simpa using hκ)
  simp only [deduplicateJobWithoutReplace]
  split
  · exact hset _ _ _ _ h
  · next current _ =>
    have hnext := storeDeduplicatedNextJob_payloads h p de current.jobId j ha
    split
    · next s' heq => rwa [heq] at hnext
    · next s' heq =>
      rw [heq] at hnext
      refine hev _ _ ?_
      split
      · exact hset _ _ _ _ hnext
      · exact hnext

theorem removeDelayedJob_links (p c j i : String) (h : ParentlessPayloads s) :
    NewLinks E s (removeDelayedJob p c j i s).2 ∧
      ParentlessPayloads (removeDelayedJob p c j i s).2 := by
  simp only [removeDelayedJob]
  split
  · have hdel : ∀ {κ}, κ ∉ [Kind.zset .delayed] →
        (s.modify (.zset .delayed) p (·.zrem c)) κ = s κ := modify_notMem
    have hev : ∀ (s : Store) (e e' : Event) {κ}, κ ∉ [Kind.events] →
        ((s.xadd p e).xadd p e') κ = s κ := fun s e e' κ hκ => by
      rw [Store.xadd_of_ne _ _ _ (by simpa using hκ), Store.xadd_of_ne _ _ _ (by simpa using hκ)]
    exact ⟨((NewLinks.of_frame (by decide) hdel).trans
      (.of_registers fun _ => removeJobKeys_registers ..)).trans
        (.of_frame (by decide) (hev _ _ _)),
      ((h.of_frame (by decide) hdel).of_frame (by decide) (removeJobKeys_frame _ _)).of_frame
        (by decide) (hev _ _ _)⟩
  · exact ⟨.refl s, h⟩

theorem deduplicateJob_links (p : String) (de : DeduplicationOpts) (j : String) {a : AddArgs}
    (ha : a.parent = none) (h : ParentlessPayloads s) :
    NewLinks E s (deduplicateJob p de j a s).2 ∧
      ParentlessPayloads (deduplicateJob p de j a s).2 := by
  have hset : ∀ {s' : Store} (k : String) (v : Val .de),
      NewLinks E s s' ∧ ParentlessPayloads s' →
      NewLinks E s (s'.set .de k v) ∧ ParentlessPayloads (s'.set .de k v) := by
    intro s' k v hs'
    have hframe : ∀ {κ}, κ ∉ [Kind.de] → (s'.set .de k v) κ = s' κ := fun hκ =>
      Keyspace.set_of_ne _ (by simpa using hκ) ..
    exact ⟨hs'.1.trans (.of_frame (by decide) hframe), hs'.2.of_frame (by decide) hframe⟩
  simp only [deduplicateJob]
  split
  · split
    · next current _ =>
      have hrem := removeDelayedJob_links (E := E) p current.jobId j de.id h
      split
      · next s' heq =>
        rw [heq] at hrem
        split
        · exact hset _ _ hrem
        · split
          · exact hset _ _ hrem
          · exact hset _ _ hrem
      · next s' heq =>
        rw [heq] at hrem
        exact ⟨hrem.1.trans (.of_frame (by decide) (storeDeduplicatedNextJob_frame _ _ _ _ _ _)),
          storeDeduplicatedNextJob_payloads hrem.2 _ _ _ _ ha⟩
    · exact hset _ _ ⟨.refl s, h⟩
  · exact deduplicateJobWithoutReplace_links p de j ha h

theorem linkFree_of_deduplicateJob {p : String} {enqueue : String → AddArgs → Store → Store}
    (henq : ∀ {κ} j a s, κ ∈ Kind.dn :: accountKinds → enqueue j a s κ = s κ) :
    (AddMode.mk (deduplicateJob p) enqueue).LinkFree :=
  ⟨fun de j _ ha h => deduplicateJob_links p de j ha h, henq⟩

theorem standardMode_linkFree (p : String) : (standardMode p).LinkFree :=
  linkFree_of_deduplicateJob fun {κ} j a s h =>
    enqueueStandard_frame p j a s (by revert κ; decide)

theorem delayedMode_linkFree (p : String) : (delayedMode p).LinkFree :=
  linkFree_of_deduplicateJob fun {κ} j a s h =>
    addDelayedJob_frame p j _ _ s (by revert κ; decide)

theorem prioritizedMode_linkFree (p : String) : (prioritizedMode p).LinkFree :=
  linkFree_of_deduplicateJob fun {κ} j a s h =>
    enqueuePrioritized_frame p j a s (by revert κ; decide)

theorem parentMode_linkFree (p : String) : (parentMode p).LinkFree :=
  ⟨fun de j _ ha h => deduplicateJobWithoutReplace_links p de j ha h,
    fun {κ} j a s h => enqueueParent_frame p j a s (by revert κ; decide)⟩

theorem storeNewJob_links {mode : AddMode} (hmode : mode.LinkFree) (p j : String) {a : AddArgs}
    (hE : ∀ P, a.parent = some P → E P.key (p ++ j)) (h : ParentlessPayloads s) :
    NewLinks E s (storeNewJob mode p j a s) ∧ ParentlessPayloads (storeNewJob mode p j a s) := by
  have henq : ∀ {κ}, κ ∈ Kind.dn :: accountKinds → mode.enqueue j a (storeJob p j a.name a.data
      a.opts a.timestamp a.parent a.repeatJobKey s) κ = s κ := by
    intro κ hκ
    rw [hmode.enqueue _ _ _ hκ, storeJob_frame _ _ _ _ _ _ _ _ _ (by revert κ; decide)]
  refine ⟨?_, fun k next hnext => h k next ?_⟩
  · have hlinks : NewLinks E s (mode.enqueue j a (storeJob p j a.name a.data a.opts a.timestamp
        a.parent a.repeatJobKey s)) := .of_accounts fun b =>
      henq (List.mem_cons_of_mem _ b.kind_mem)
    unfold storeNewJob addParentDependency
    split
    · next P hP => exact hlinks.trans (.sadd _ (hE P hP))
    · exact hlinks
  · rwa [storeNewJob, addParentDependency_frame _ _ _ (by decide), henq (by decide)] at hnext

theorem addNewJob_links {mode : AddMode} (hmode : mode.LinkFree) (p j : String) {a : AddArgs}
    (hde : a.opts.de.isSome = true → a.parent = none)
    (hE : ∀ P, a.parent = some P → E P.key (p ++ j)) (h : ParentlessPayloads s) :
    NewLinks E s (addNewJob mode p j a s).2 ∧ ParentlessPayloads (addNewJob mode p j a s).2 := by
  unfold addNewJob
  cases hopt : a.opts.de with
  | none => exact storeNewJob_links hmode p j hE h
  | some de =>
    have hded := hmode.deduplicate (E := E) de j a (hde (by simp [hopt])) h
    rcases hres : mode.deduplicate de j a s with ⟨_ | winner, s'⟩ <;> rw [hres] at hded
    · simp only [hres]
      obtain ⟨hlink, hpay⟩ := storeNewJob_links (E := E) hmode p j hE hded.2
      exact ⟨hded.1.trans hlink, hpay⟩
    · simpa only [hres] using hded

theorem handleDuplicatedJob_links (p j : String) {R : Option Parent} (t : ℤ) (s : Store)
    (hE : ∀ P, R = some P → (∀ k, s.parentKeyOf (p ++ j) = some k → k = P.key) →
      E P.key (p ++ j)) : NewLinks E s (handleDuplicatedJob p j R t s).2 := by
  have hev : ∀ s : Store, NewLinks E s (s.xadd p (.duplicated j)) := fun s =>
    .of_frame (W := [.events]) (by decide) fun hκ => Store.xadd_of_ne _ _ _ (by simpa using hκ)
  have hupd : (∀ P, R = some P → E P.key (p ++ j)) →
      NewLinks E s (updateExistingJobsParent p j R t s) := by
    intro hE
    cases R with
    | none => exact .refl s
    | some P =>
      simp only [updateExistingJobsParent]
      refine NewLinks.trans ?_ (.of_frame (W := [.hash]) (by decide) fun hκ =>
        Store.hset_of_ne _ _ _ (by simpa using hκ))
      split
      · exact updateParentDepsIfNeeded_links _ _ _ (hE P rfl)
      · exact .sadd _ (hE P rfl)
  unfold handleDuplicatedJob
  split
  · next hnone =>
    refine (hupd fun P hP => hE P hP fun k hk => ?_).trans (hev _)
    rw [Store.parentKeyOf, hnone] at hk
    cases hk
  · next k' hsome =>
    split
    · next hfits =>
      refine (hupd fun P hP => hE P hP fun k hk => ?_).trans (hev _)
      rw [Store.parentKeyOf, hsome] at hk
      rw [hP] at hfits
      simpa [← Option.some.inj hk] using hfits
    · split
      · exact .refl s
      · exact hev s

/-- **An add** links at most the job it adds to the parent it is given. -/
theorem addJobWith_links {mode : AddMode} (hmode : mode.LinkFree) (p : String) {a : AddArgs}
    (hde : a.opts.de.isSome = true → a.parent = none)
    (hE : ∀ P, a.parent = some P → s.jobExists P.key = true →
      (a.customId ≠ "" → ∀ k, s.parentKeyOf (p ++ a.customId) = some k → k = P.key) →
      E P.key (p ++ newJobId p a.customId (drawId p s))) (h : ParentlessPayloads s) :
    NewLinks E s (addJobWith mode p a s).2 ∧ ParentlessPayloads (addJobWith mode p a s).2 := by
  have hdraw := FlowJobEntry.drawId_untouched p s
  have hlinks : NewLinks E s (drawId p s) := .of_frame (by decide) (drawId_frame p s)
  have hpay : ParentlessPayloads (drawId p s) := h.of_frame (by decide) (drawId_frame p s)
  simp only [addJobWith]
  split
  · exact ⟨.refl s, h⟩
  · next hparent =>
    have hexist : ∀ P, a.parent = some P → s.jobExists P.key = true := by
      intro P hP
      simpa [hP] using hparent
    split
    · next hdup =>
      have hid : newJobId p a.customId (drawId p s) = a.customId := if_neg hdup.1
      rw [hid] at hE ⊢
      refine ⟨hlinks.trans (handleDuplicatedJob_links p _ _ _ fun P hP hfits => ?_),
        hpay.of_frame (by decide) (handleDuplicatedJob_frame _ _ _ _ _)⟩
      exact hE P hP (hexist P hP) fun _ k hk => hfits k ((hdraw.parent _).trans hk)
    · next hnew =>
      have hlinked : ∀ P, a.parent = some P →
          E P.key (p ++ newJobId p a.customId (drawId p s)) := by
        intro P hP
        refine hE P hP (hexist P hP) fun hcustom k hk => ?_
        -- A custom id that is new names no job and so no parent.
        have hid : newJobId p a.customId (drawId p s) = a.customId := if_neg hcustom
        rw [hid, hdraw.jobExists] at hnew
        have hnone : s .hash (p ++ a.customId) = none := by
          simpa [Store.jobExists, hcustom] using hnew
        simp [Store.parentKeyOf, Store.parentOf, hnone] at hk
      obtain ⟨hlink, hpay'⟩ := addNewJob_links hmode p _ hde hlinked hpay
      exact ⟨hlinks.trans hlink, hpay'⟩

end BullMQ
