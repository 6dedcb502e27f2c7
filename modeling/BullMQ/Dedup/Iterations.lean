import BullMQ.Dedup.Numbered
import BullMQ.Model.QueueCommand

/-!
# Schedulers and removals among numbered ids

An upsert of a job scheduler takes its pending iteration out of the queue and stores another one;
the worker that fetches an iteration stores the one after it. The ids of iterations are legal and
unlike those drawn from a counter, so that both keep ids in order (`Numbered`), as does the removal
of a single job. Two things are left out: an upsert that deletes the parents of an iteration, which
has none unless a client adds a job under its id, and an upsert with a pattern that stores its
iteration over another job.
-/

namespace BullMQ

open Redis

variable {Q : QueueSet} {s s' : Store} {p j S : String}

/-! ### Iterations -/

theorem legal_iterationId (S : String) (m : ℤ) : QueueSet.Legal (iterationId S m) := by
  refine ⟨fun h => not_colonFree_iterationId S m ?_, by simp [isLegacyMarker, iterationId]⟩
  rw [h]
  decide

theorem iterationId_ne_repr (S : String) (m : ℤ) (n : ℕ) : iterationId S m ≠ n.repr := fun h =>
  not_colonFree_iterationId S m (h ▸ colonFree_repr n)

/-- An iteration may be stored at any time. -/
theorem unkept_iterationId (s : Store) (p S : String) (m : ℤ) : Unkept s p (iterationId S m) where
  legal := legal_iterationId S m
  le_id n hn := absurd hn (iterationId_ne_repr S m n)
  ne_jid n _ _ hn := absurd hn (iterationId_ne_repr S m n)

/-- The add that an iteration stands for. -/
def iterationArgs (S name data : String) (jobOpts : JobOpts) (timestamp repeatDelay : ℤ) :
    AddArgs where
  name := name
  data := data
  timestamp := timestamp
  opts := { jobOpts with delay := repeatDelay }
  repeatJobKey := some S

theorem addJobFromScheduler_eq (p j S n d : String) (o : JobOpts) (t w : ℤ) (s : Store) :
    addJobFromScheduler p j n d o t S w s =
      storeNewJob (requeueMode p) p j (iterationArgs S n d o t w) s :=
  rfl

theorem Numbered.iterate (h : Numbered Q s) (hp : Q.Base p) {m : ℤ}
    (hnew : s.jobExists (p ++ iterationId S m) = false) (n d : String) (o : JobOpts) (t w : ℤ) :
    Numbered Q (addJobFromScheduler p (iterationId S m) n d o t S w s) := by
  rw [addJobFromScheduler_eq]
  exact h.create (requeueMode_dedups p) hp (unkept_iterationId s p S m) hnew _

/-- A step that is about no job and no payload. -/
theorem Numbered.of_frame {W : List Kind} (h : Numbered Q s)
    (hW : ∀ κ ∈ Kind.dn :: placeKinds, κ ∉ W) (hs : ∀ {κ}, κ ∉ W → s' κ = s κ)
    (hid : ∀ p, s .id p ≤ s' .id p) : Numbered Q s' :=
  h.retains (.of_same h.toSound (.of_frame (fun κ hκ => hW κ (List.mem_cons_of_mem _ hκ)) hs))
    (.of_frame (hW _ List.mem_cons_self) hs) hid

/-- A job without a parent is deleted alone. -/
theorem removeJobHard_erases (hparent : s.parentOf (p ++ j) = none) :
    Erases [p ++ j] s (removeJobHard p s j) ∧ DropsPayloads s (removeJobHard p s j) := by
  have hunlink : removeParentDependencyKeyHard p (p ++ j) s = s := by
    simp only [removeParentDependencyKeyHard, unlinkHard, hparent]
  simp only [removeJobHard, hunlink]
  refine ⟨.same_left (.of_frame (W := [.de, .dn]) (by decide) fun {κ} hκ =>
    removeDeduplicationKeyIfNeededOnRemoval_frame p j _ s hκ) (removeJobKeys_erases _ _), ?_⟩
  exact (removeDeduplicationKeyIfNeededOnRemoval_drops p j _ s).trans
    (.of_frame (by decide) (removeJobKeys_frame (p ++ j) _))

/-- Taking the pending iteration out of the queue: it is deleted, if it is found. -/
theorem removeJobFromScheduler_deletes {K : KeySpace} (h : Sound K s)
    (hparent : s.parentOf (p ++ j) = none) :
    DropsPayloads s (removeJobFromScheduler p j s).2 ∧
      (removeJobFromScheduler p j s = (false, s) ∨ (removeJobFromScheduler p j s).1 = true ∧
        K.Valid p j ∧ Deletes p [j] s (removeJobFromScheduler p j s).2) := by
  -- The two sets are treated alike; the list is written before the deletion and not after it.
  have hzset : ∀ z : ZSetKey, Kind.zset z ∉ hardWrites → j ∈ s (.zset z) p →
      DropsPayloads s ((removeJobHard p s j).modify (.zset z) p (·.zrem j)) ∧
        Deletes p [j] s ((removeJobHard p s j).modify (.zset z) p (·.zrem j)) := by
    intro z hz hj
    obtain ⟨herases, hdrops⟩ := removeJobHard_erases hparent
    have hleave := leaves_zrem (s := removeJobHard p s j) (z := z) (p := p) (j := j)
      (by rw [removeJobHard_frame _ _ _ hz]; exact hj)
    exact ⟨hdrops.trans (.of_frame (W := [.zset z]) (by simp) modify_notMem),
      Erases.deletes (by simpa using herases) (.cons hleave (.nil (.refl _)))
        (List.nodup_singleton j) (by simpa using h.le_one p j)⟩
  simp only [removeJobFromScheduler]
  split
  · next hj =>
    obtain ⟨hdrops, hdel⟩ := hzset .delayed (by decide) hj
    exact ⟨hdrops, .inr ⟨rfl, h.valid_zset hj, hdel⟩⟩
  · split
    · next hj =>
      obtain ⟨hdrops, hdel⟩ := hzset .prioritized (by decide) hj
      exact ⟨hdrops, .inr ⟨rfl, h.valid_zset hj, hdel⟩⟩
    · split
      · next hj =>
        have hs : ∀ {κ}, κ ∉ [Kind.list (pausedOrWait p s)] →
            s.modify (.list (pausedOrWait p s)) p (lremLeft j) κ = s κ := modify_notMem
        obtain ⟨herases, hdrops⟩ := removeJobHard_erases (p := p) (j := j)
          (s := s.modify (.list (pausedOrWait p s)) p (lremLeft j))
          (by rw [Store.parentOf, hs (by simp)]; exact hparent)
        exact ⟨DropsPayloads.trans (.of_frame (by simp) hs) hdrops,
          .inr ⟨rfl, h.valid_list hj, (leaves_lremLeft hj).deletes herases (h.le_one p j)⟩⟩
      · exact ⟨.refl s, .inl rfl⟩

/-- What an upsert leaves alone: the parents of the iteration that it takes out, and, with a
pattern, another job in the slot of the iteration that it stores. -/
structure UpsertApart (s : Store) (p : String) (a : UpsertArgs) : Prop where
  orphan : ∀ i, pendingIteration p a.jobSchedulerId s = some i → s.parentOf (p ++ i) = none
  free : a.opts.every = none → ∀ i, pendingIteration p a.jobSchedulerId s = some i →
    i ≠ iterationId a.jobSchedulerId a.nextMillis →
      s.jobExists (p ++ iterationId a.jobSchedulerId a.nextMillis) = false

/-- **The upsert** keeps ids in order. -/
theorem addJobScheduler_numbered (h : Numbered Q s) (hp : Q.Base p) {a : UpsertArgs}
    (ha : UpsertApart s p a) : Numbered Q (Script.addJobScheduler p a s).2 := by
  set s₀ := getOrSetMaxEvents p s with hs₀
  have hframe : ∀ {κ}, κ ∉ [Kind.metaMaxLenEvents] → s₀ κ = s κ := getOrSetMaxEvents_frame p s
  have h₀ : Numbered Q s₀ := h.of_frame (by decide) hframe fun q => by rw [hframe (by decide)]
  have hexists : ∀ k, s₀.jobExists k = s.jobExists k := fun k => by
    rw [Store.jobExists, hframe (by decide), Store.jobExists]
  have hpending : pendingIteration p a.jobSchedulerId s₀ =
      pendingIteration p a.jobSchedulerId s := by
    simp only [pendingIteration, hexists, hframe (by decide : Kind.repeatSet ∉ _)]
  -- The store without the pending iteration, and the slot that a pattern takes.
  rcases hrem : removePendingIteration p a.jobSchedulerId s₀ with ⟨b, t⟩
  have hremoved : Numbered Q t ∧ (b = true → a.opts.every = none →
      t.jobExists (p ++ iterationId a.jobSchedulerId a.nextMillis) = false) := by
    have hid : ∀ q, s₀ .id q ≤ t .id q := fun q => by
      have hsame := removePendingIteration_frame p a.jobSchedulerId s₀ (by decide : Kind.id ∉ _)
      rw [hrem] at hsame
      exact le_of_eq (congrFun hsame q).symm
    unfold removePendingIteration at hrem
    split at hrem
    · next i hi =>
      rw [hpending] at hi
      have hparent : s₀.parentOf (p ++ i) = none := by
        rw [Store.parentOf, hframe (by decide)]
        exact ha.orphan i hi
      obtain ⟨hdrops, hsame | ⟨-, hv, hdel⟩⟩ := removeJobFromScheduler_deletes h₀.toSound hparent
      · rw [hsame] at hrem
        cases hrem
        exact ⟨h₀, fun hb => by cases hb⟩
      · rw [hrem] at hdrops hdel
        refine ⟨h₀.retains (.of_deletes h₀.toSound (by simpa using hv) hdel) hdrops hid,
          fun _ hevery => ?_⟩
        rw [hdel.exist, hexists]
        by_cases hslot : i = iterationId a.jobSchedulerId a.nextMillis
        · simp [hslot]
        · rw [ha.free hevery i hi hslot, Bool.false_and]
    · cases hrem
      exact ⟨h₀, fun hb => by cases hb⟩
  obtain ⟨ht, hslot⟩ := hremoved
  obtain ⟨o, m, hres, hfree⟩ | ⟨every, -, hres, -⟩ | ⟨-, -, hres, -⟩ :=
    Script.addJobScheduler_cases hrem <;> rw [hres]
  · have hnew : t.jobExists (p ++ iterationId a.jobSchedulerId m) = false := by
      obtain hfree | ⟨hevery, hb, rfl⟩ := hfree
      · exact hfree
      · exact hslot hb hevery
    -- The entry of the scheduler is written first, and an id is drawn.
    have hwrites : ∀ {κ : Kind}, κ ∉ [Kind.repeatSet, .scheduler, .id] →
        Keyspace.modify (storeJobScheduler p a.jobSchedulerId m o a.templateData t) .id p (· + 1)
          κ = t κ := by
      intro κ hκ
      simp only [List.mem_cons, List.not_mem_nil, or_false, not_or] at hκ
      rw [Keyspace.modify_of_ne _ hκ.2.2, storeJobScheduler, Keyspace.modify_of_ne _ hκ.2.1,
        Keyspace.modify_of_ne _ hκ.1]
    refine (ht.of_frame (by decide) hwrites fun q => ?_).iterate hp ?_ _ _ _ _ _
    · refine le_of_eq_of_le ?_ (modify_id_le p q _)
      rw [storeJobScheduler, Keyspace.modify_of_ne _ (by decide),
        Keyspace.modify_of_ne _ (by decide)]
    · rw [Store.jobExists, hwrites (by decide)]
      exact hnew
  · exact ht
  · exact ht

/-- **The next iteration** keeps ids in order. -/
theorem updateJobScheduler_numbered (h : Numbered Q s) (hp : Q.Base p) (a : IterateArgs) :
    Numbered Q (Script.updateJobScheduler p a s).2 := by
  have hmax : ∀ {κ}, κ ∉ [Kind.metaMaxLenEvents] → getOrSetMaxEvents p s κ = s κ :=
    getOrSetMaxEvents_frame p s
  simp only [Script.updateJobScheduler]
  split
  · exact h
  · next prevMillis hprev =>
    split
    · split
      · refine h.of_frame (W := [.metaMaxLenEvents, .events]) (by decide) (fun {κ} hκ => ?_)
          fun q => ?_
        · simp only [List.mem_cons, List.not_mem_nil, or_false, not_or] at hκ
          rw [Store.xadd_of_ne _ _ _ hκ.2, hmax (by simpa using hκ.1)]
        · rw [Store.xadd_of_ne _ _ _ (by decide), hmax (by decide)]
      · next hfree =>
        set u : Store := ((getOrSetMaxEvents p s).modify .repeatSet p (·.zadd
          (iterateMillis a (s .scheduler (schedulerKey p a.jobSchedulerId)) prevMillis)
            a.jobSchedulerId)).modify .scheduler (schedulerKey p a.jobSchedulerId) fun scheduler =>
          some { scheduler.getD {} with
            ic := some (((scheduler.bind JobScheduler.ic).getD 0) + 1) } with hu
        have hs : ∀ {κ : Kind}, κ ∉ [Kind.metaMaxLenEvents, .repeatSet, .scheduler] →
            u κ = s κ := by
          intro κ hκ
          simp only [List.mem_cons, List.not_mem_nil, or_false, not_or] at hκ
          rw [hu, Keyspace.modify_of_ne _ hκ.2.2, Keyspace.modify_of_ne _ hκ.2.1,
            hmax (by simpa using hκ.1)]
        have hwrites : ∀ {κ : Kind}, κ ∉ [Kind.metaMaxLenEvents, .repeatSet, .scheduler, .id] →
            Keyspace.modify u .id p (· + 1) κ = s κ := by
          intro κ hκ
          rw [Keyspace.modify_of_ne _ (by rintro rfl; exact hκ (by decide)),
            hs (Kind.notMem_mono hκ (by decide))]
        -- Up to the new job nothing but the counter of ids is written of what is numbered.
        have hdrawn : Numbered Q (Keyspace.modify u .id p (· + 1)) :=
          h.of_frame (by decide) hwrites fun q => by
            refine le_of_eq_of_le ?_ (modify_id_le p q u)
            rw [hs (by decide)]
        split
        · exact hdrawn
        · refine hdrawn.iterate hp ?_ _ _ _ _ _
          rw [Store.jobExists, hwrites (by decide)]
          rw [Store.jobExists, hmax (by decide)] at hfree
          simpa using hfree
    · exact h

/-! ### Every step -/

/-- **The removal of a single job** keeps ids in order. -/
theorem removeJob_numbered {n : ℕ} {r : Reply × Store} (h : Numbered Q s) (hp : Q.Base p)
    (hexec : Script.removeJob n p j false s = some r) : Numbered Q r.2 := by
  have hdelete : ∀ {u : Store}, removeJobWithChildren n { removeChildren := false } p j none s =
      some u → Numbered Q u := by
    intro u hu
    cases n with
    | zero => cases hu
    | succ n =>
      set s₁ := (removeParentDependencyKey (p ++ j) none s).2 with hs₁
      have h₁ : Numbered Q s₁ := h.retains
        (.of_same h.toSound (removeParentDependencyKey_same (p ++ j) none s))
        (.of_frame (by decide) (removeParentDependencyKey_frame (p ++ j) none s))
        fun q => by rw [hs₁, removeParentDependencyKey_frame _ _ _ (by decide)]
      obtain rfl : deleteJob p j s₁ = u := by simpa [removeJobWithChildren] using hu
      have hj : Q.keySpace.Valid p j ∨ s₁.jobExists (p ++ j) = false := by
        by_cases hex : s₁.jobExists (p ++ j) = true
        · obtain ⟨q, i, hv, hkey, -⟩ := h₁.placed hex
          obtain rfl := Q.apart hp hv.1 hkey
          obtain rfl := (String.append_right_inj p).mp hkey
          exact .inl hv
        · exact .inr (by simpa using hex)
      exact h₁.retains (deleteJob_retains h₁.toPlaced hj) (deleteJob_drops p j s₁)
        fun q => by rw [deleteJob_frame _ _ _ (by decide)]
  unfold Script.removeJob at hexec
  split at hexec
  · cases hexec
    exact h
  · obtain ⟨locked, -, hlocked⟩ := Option.bind_eq_some_iff.mp hexec
    split at hlocked
    · cases hlocked
      exact h
    · obtain ⟨u, hu, rfl⟩ := Option.map_eq_some_iff.mp hlocked
      exact hdelete hu

/-- The steps of the runs in which ids stay in order: all job scripts, but no removal of children;
the scripts of schedulers with colonless ids, whose keys are those of no jobs; and the time that
passes for deduplication keys. -/
def QueueCommand.Orderly (Q : QueueSet) (s : Store) : QueueCommand → Prop
  | job (.removeJob _ p _ removeChildren) => Q.Base p ∧ removeChildren = false
  | job c => c.Named Q ∧ c.KeepsApart s
  | addJobScheduler p a => Q.Base p ∧ ColonFree a.jobSchedulerId ∧ UpsertApart s p a
  | updateJobScheduler p a => Q.Base p ∧ ColonFree a.jobSchedulerId
  | expireDeduplicationKey .. | elapseDeduplicationKey .. => True
  | _ => False

/-- **One step** keeps ids in order. -/
theorem Numbered.queueExec {c : QueueCommand} {r : Reply × Store} (h : Numbered Q s)
    (hc : c.Orderly Q s) (hexec : c.exec s = some r) : Numbered Q r.2 := by
  cases c with
  | job c =>
    have hcommand : c.Named Q ∧ c.KeepsApart s → Numbered Q r.2 := fun hc =>
      h.exec hc.1 hc.2 hexec
    cases c with
    | removeJob n p j b =>
      obtain ⟨hp, rfl⟩ := hc
      exact removeJob_numbered h hp hexec
    | _ => exact hcommand hc
  | addJobScheduler p a => cases hexec; exact addJobScheduler_numbered h hc.1 hc.2.2
  | updateJobScheduler p a => cases hexec; exact updateJobScheduler_numbered h hc.1 a
  | expireDeduplicationKey p d =>
    have hs : ∀ {κ : Kind}, κ ∉ [Kind.de] → r.2 κ = s κ := QueueCommand.exec_frame hexec
    exact h.of_frame (by decide) hs fun q => by rw [hs (by decide)]
  | elapseDeduplicationKey p d ms =>
    have hs : ∀ {κ : Kind}, κ ∉ [Kind.de] → r.2 κ = s κ := QueueCommand.exec_frame hexec
    exact h.of_frame (by decide) hs fun q => by rw [hs (by decide)]
  | _ => exact hc.elim

/-- Ids are in order in every state of a run. -/
theorem Numbered.of_reachable (h : QueueReachable (fun s c => c.Orderly Q s) .empty s) :
    Numbered Q s := by
  obtain ⟨steps, run⟩ := h
  exact run.invariant (Numbered.empty Q) fun t c u ht ⟨hc, reply, hexec⟩ => ht.queueExec hc hexec

end BullMQ
