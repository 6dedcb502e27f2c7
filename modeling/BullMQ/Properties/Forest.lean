import BullMQ.Flow.Links
import BullMQ.Flow.Tree
import BullMQ.Properties.FlowAtomicity

/-!
# Jobs and their children form no cycle

An add can attach a job that exists under any other one, without a look at what lies below the job.
As long as no add attaches a job below itself, no descent through the accounts of children goes on
for ever, in every state of every run; so no job waits for itself and the recursions over children
return (`no_job_waits_for_itself`). Two flows that attach two jobs to each other show what happens
otherwise.
-/

namespace BullMQ

open Redis Relation Transition

variable {s : Store}

/-- An add attaches a job below itself: the parent it is given exists, no other parent of the job
stands in the way, and it is the job or one of its descendants. -/
def AttachesBelowItself (p : String) (a : AddArgs) (s : Store) : Prop :=
  ∃ P, a.parent = some P ∧ s.jobExists P.key = true ∧
    (a.customId ≠ "" → ∀ k, s.parentKeyOf (p ++ a.customId) = some k → k = P.key) ∧
    Descendant s (p ++ newJobId p a.customId (drawId p s)) P.key

/-- The adds of the runs considered here: deduplication and a parent exclude each other
(`validateOptions`), and no job is attached below itself. -/
structure ForestAdd (p : String) (a : AddArgs) (s : Store) : Prop where
  parentless : a.opts.de.isSome = true → a.parent = none
  above : ¬ AttachesBelowItself p a s

/-- The commands of the runs considered here. -/
def ForestCommand (s : Store) : Command → Prop
  | .addStandardJob p a | .addDelayedJob p a | .addPrioritizedJob p a | .addParentJob p a =>
    ForestAdd p a s
  | _ => True

/-- The invariant of these runs. -/
structure Forest (s : Store) : Prop where
  descent : NoEndlessDescent s
  payloads : ParentlessPayloads s

/-- A command without new links keeps the forest. -/
theorem Forest.of_links {s' : Store} (h : Forest s)
    (h' : NewLinks (fun _ _ => False) s s' ∧ ParentlessPayloads s') : Forest s' := by
  refine ⟨Subrelation.wf (fun {c k} hc => ?_) h.descent, h'.2⟩
  exact (h'.1.link k c hc).resolve_right id

/-- An add that does not attach a job below itself keeps the forest. -/
theorem Forest.add {mode : AddMode} (hmode : mode.LinkFree) {p : String} {a : AddArgs}
    (h : Forest s) (ha : ForestAdd p a s) : Forest (addJobWith mode p a s).2 := by
  set j := p ++ newJobId p a.customId (drawId p s) with hj
  rcases hP : a.parent with _ | P
  · exact h.of_links (addJobWith_links hmode p ha.parentless (fun P' hP' => by simp [hP] at hP')
      h.payloads)
  · by_cases hlink : s.jobExists P.key = true ∧
        (a.customId ≠ "" → ∀ k, s.parentKeyOf (p ++ a.customId) = some k → k = P.key)
    · have hnot : ¬ Descendant s j P.key := fun hd => ha.above ⟨P, hP, hlink.1, hlink.2, hd⟩
      obtain ⟨hlinks, hpay⟩ := addJobWith_links (E := fun k c => k = P.key ∧ c = j) hmode p
        ha.parentless (fun P' hP' _ _ => ⟨by simp_all, rfl⟩) h.payloads
      exact ⟨wellFounded_of_edge h.descent hnot hlinks.link, hpay⟩
    · refine h.of_links (addJobWith_links hmode p ha.parentless (fun P' hP' hex hfits => ?_)
        h.payloads)
      obtain rfl : P' = P := by simpa [hP] using hP'.symm
      exact hlink ⟨hex, hfits⟩

/-- **One command** keeps the forest. -/
theorem Forest.exec {c : Command} {r : Reply × Store} (h : Forest s) (hc : ForestCommand s c)
    (hexec : c.exec s = some r) : Forest r.2 := by
  -- A command that writes neither accounts nor payloads makes no new link.
  have hframe : ∀ {W : List Kind}, (∀ {κ}, κ ∉ W → r.2 κ = s κ) →
      (∀ κ ∈ Kind.dn :: accountKinds, κ ∉ W) → Forest r.2 := fun hs hW =>
    h.of_links ⟨.of_frame (fun κ hκ => hW κ (List.mem_cons_of_mem _ hκ)) hs,
      h.payloads.of_frame (hW _ (by decide)) hs⟩
  cases c with
  | addStandardJob p a => cases hexec; exact h.add (standardMode_linkFree p) hc
  | addDelayedJob p a => cases hexec; exact h.add (delayedMode_linkFree p) hc
  | addPrioritizedJob p a => cases hexec; exact h.add (prioritizedMode_linkFree p) hc
  | addParentJob p a => cases hexec; exact h.add (parentMode_linkFree p) hc
  | moveToFinished p a =>
    cases hexec
    exact h.of_links (moveToFinished_links h.payloads p a)
  | reprocessJob p a =>
    cases hexec
    refine h.of_links ⟨?_, h.payloads.of_frame (by decide) (Script.reprocessJob_frame p a s)⟩
    exact reprocessJob_links p a s
  | removeChildDependency k k' =>
    cases hexec
    exact h.of_links ⟨.of_registers fun _ => removeChildDependency_registers k k' s,
      h.payloads.of_frame (by decide) (Script.removeChildDependency_frame k k' s)⟩
  | removeJob n p j b =>
    refine h.of_links (Script.removeJob_rule
      (I := fun s' => NewLinks (fun _ _ => False) s s' ∧ ParentlessPayloads s')
      (V := fun _ _ => True) (fun k o s' hs' => ?_) (fun q i s' _ hs' => ?_)
      (fun _ _ _ _ _ => trivial) trivial ⟨.refl s, h.payloads⟩ hexec)
    · exact ⟨hs'.1.trans (.of_registers fun _ => removeParentDependencyKey_registers ..),
        hs'.2.of_frame (by decide) (removeParentDependencyKey_frame k o s')⟩
    · exact ⟨hs'.1.trans (.of_registers fun _ => deleteJob_registers ..),
        deleteJob_payloads hs'.2 q i⟩
  | reorderDependencies k m =>
    cases hexec
    refine h.of_links ⟨.of_registers fun _ => .modify .dependencies fun c hc => .inl ?_,
      h.payloads.of_frame (W := [.dependencies]) (by decide) modify_notMem⟩
    exact mem_reorderSet.mp hc
  | reorderProcessed k m =>
    cases hexec
    refine h.of_links ⟨.of_registers fun _ => .modify .processed fun c hc => .inl ?_,
      h.payloads.of_frame (W := [.processed]) (by decide) modify_notMem⟩
    exact mem_reorderHash.mp hc
  | reorderFailedChildren k m =>
    cases hexec
    refine h.of_links ⟨.of_registers fun _ => .modify .failedChildren fun c hc => .inl ?_,
      h.payloads.of_frame (W := [.failedChildren]) (by decide) modify_notMem⟩
    exact mem_reorderHash.mp hc
  | _ =>
    refine hframe (fun hκ => Command.exec_frame hexec hκ) ?_
    simp only [Command.writes]
    decide

theorem Forest.empty : Forest .empty := by
  refine ⟨⟨fun k => ⟨k, fun c hc => ?_⟩⟩, fun k next hnext => by cases hnext⟩
  obtain ⟨a, hc⟩ := hc
  cases a <;> cases hc

theorem Forest.of_reachable (h : Reachable ForestCommand .empty s) : Forest s := by
  obtain ⟨steps, run⟩ := h
  exact run.invariant .empty fun _ _ _ hs ⟨hc, _, hexec⟩ => hs.exec hc hexec

/-- **No job waits for itself.** In every state of a run in which no add attaches a job below
itself, the pending dependencies have no cycle, and `isLocked`, `removeJobWithChildren` and
`removeJob` return on every job. -/
theorem no_job_waits_for_itself (h : Reachable ForestCommand .empty s) :
    (∀ k, ¬ TransGen (IsPendingChildOf s) k k) ∧
    ∀ p j b, (∃ n locked, ∀ m, n ≤ m → isLocked m b p j s = some locked) ∧
      (∀ options o, ∃ n t, ∀ m, n ≤ m → removeJobWithChildren m options p j o s = some t) ∧
      ∃ n r, ∀ m, n ≤ m → Script.removeJob m p j b s = some r := by
  have hs := Forest.of_reachable h
  refine ⟨fun k hk => not_transGen_self hs.descent k ?_, fun p j b => ⟨?_, fun options o => ?_, ?_⟩⟩
  · exact TransGen.mono (r := IsPendingChildOf s) (fun _ _ hc => ⟨.dependencies, hc⟩) _ _ hk
  · exact isLocked_terminates hs.descent b p j
  · obtain ⟨n, t, -, ht⟩ := removeJobWithChildren_terminates hs.descent options p j o (t := s)
      fun _ _ _ => id
    exact ⟨n, t, ht⟩
  · exact Script.removeJob_terminates hs.descent p j b

/-! ### Two flows -/

/-- A flow is a run of its entries. -/
theorem Reachable.runEntries {Allowed : Store → Command → Prop} {s₀ : Store}
    {entries : List FlowJobEntry} (h : Reachable Allowed s₀ s)
    (hallowed : ∀ before e after, entries = before ++ e :: after →
      Allowed (BullMQ.runEntries before s) e.command) :
    Reachable Allowed s₀ (BullMQ.runEntries entries s) := by
  induction entries generalizing s with
  | nil => exact h
  | cons e entries ih =>
    have hstep := h.step (hallowed [] e entries rfl) (e.exec_command s)
    refine ih hstep fun before e' after heq => ?_
    exact hallowed (e :: before) e' after (by rw [heq]; rfl)

theorem forestCommand_command {e : FlowJobEntry} (h : ForestAdd e.p e.args s) :
    ForestCommand s e.command := by
  unfold FlowJobEntry.command
  split_ifs <;> exact h

/-- A job without children has no descendants but itself. -/
theorem descendant_of_no_children (h : ∀ k c, ¬ IsChildOf s k c) {k d : String}
    (hd : Descendant s k d) : k = d := by
  rcases ReflTransGen.cases_head hd with rfl | ⟨c, hc, -⟩
  · rfl
  · exact absurd hc (h k c)

theorem firstFlowStore_eq : firstFlowStore = runEntries
    [(simpleNode "first").entry none true,
      (simpleNode "c").entry (some (simpleNode "first").asParent) false] .empty := by
  rw [firstFlowStore, FlowProducer.add_eq (by decide)]
  rfl

/-- The first flow makes a run in which no job is attached below itself. -/
theorem firstFlow_reachable : Reachable ForestCommand .empty firstFlowStore := by
  let root : FlowJobEntry := (simpleNode "first").entry none true
  let child : FlowJobEntry := (simpleNode "c").entry (some (simpleNode "first").asParent) false
  have hroot : ForestAdd root.p root.args .empty :=
    ⟨fun h => (by cases h), fun ⟨P, hP, _⟩ => (by cases hP)⟩
  have hlinks := (addJobWith_links (E := fun _ _ => False) (parentMode_linkFree root.p) root.p
    (a := root.args) hroot.parentless (fun P hP => (by cases hP)) Forest.empty.payloads).1
  have hno : ∀ k c, ¬ IsChildOf (runEntries [root] .empty) k c := by
    intro k c hc
    obtain ⟨a, hc⟩ := (hlinks.link k c hc).resolve_right id
    cases a <;> cases hc
  have hchild : ForestAdd child.p child.args (runEntries [root] .empty) := by
    refine ⟨fun h => (by cases h), ?_⟩
    rintro ⟨P, hP, -, -, hd⟩
    cases hP
    exact absurd (descendant_of_no_children hno hd) (by decide)
  rw [firstFlowStore_eq]
  refine (Reachable.refl _).runEntries fun before e after heq => forestCommand_command ?_
  rcases before with _ | ⟨e₁, _ | ⟨e₂, before⟩⟩
  · obtain ⟨rfl, -⟩ : root = e ∧ _ := by simpa using heq
    exact hroot
  · obtain ⟨rfl, rfl, -⟩ : root = e₁ ∧ child = e ∧ _ := by simpa using heq
    exact hchild
  · simp at heq

/-- The parent of the first flow does not wait for itself. -/
theorem firstFlow_not_cyclic :
    "bull:q:c" ∈ childrenIn firstFlowStore .dependencies "bull:q:first" ∧
      ¬ TransGen (IsPendingChildOf firstFlowStore) "bull:q:first" "bull:q:first" :=
  ⟨by decide +kernel, (no_job_waits_for_itself firstFlow_reachable).1 _⟩

/-- A flow of two jobs whose root is pending under the other one. -/
theorem crossed_pending (root child : FlowJobEntry) (hroot : root.Plain) (hchild : child.Plain)
    (hnone : root.parentKey = none) (hparent : child.parentKey = some root.key)
    (hpending : root.key ∈ childrenIn s .dependencies child.key)
    (hfree : s.parentKeyOf child.key = none)
    (hopen : child.args.customId ∉ s (.zset .completed) child.p) :
    child.key ∈ childrenIn (runEntries [root, child] s) .dependencies root.key ∧
      root.key ∈ childrenIn (runEntries [root, child] s) .dependencies child.key := by
  have hjoins : root.Joins s :=
    ⟨fun k hk => by simp [hnone] at hk, fun k _ hk _ => by simp [hnone] at hk⟩
  have hjoined := (FlowJobEntry.add_of_joins hroot hjoins).2
  have hjoins' : child.Joins (root.add s).2 := by
    refine ⟨fun k hk => ?_, fun k k' _ hk' => ?_⟩
    · obtain rfl : root.key = k := by simpa [hparent] using hk
      exact (hjoined.jobExists _).mpr (.inr rfl)
    · rw [hjoined.parent, if_neg (by simp [hnone]), hfree] at hk'
      cases hk'
  have hjoined' := (FlowJobEntry.add_of_joins hchild hjoins').2
  have hcompleted : (root.add s).2 (.zset .completed) = s (.zset .completed) :=
    addJobWith_frame root.mode_framed _ _ _ (by decide)
  have haccount : child.account (root.add s).2 = .dependencies := by
    rw [FlowJobEntry.account, if_neg]
    rintro ⟨-, hmem⟩
    rw [hcompleted] at hmem
    exact hopen hmem
  refine ⟨(hjoined'.child _ _ _).mpr (.inr ⟨haccount.symm, hparent, rfl⟩), ?_⟩
  exact (hjoined'.child _ _ _).mpr (.inl ((hjoined.child _ _ _).mpr (.inl hpending)))

/-- A second flow, with the two jobs the other way round. -/
def crossedFlow : FlowJob := .node (simpleNode "c") [.node (simpleNode "first") []]

/-- The store after both flows. -/
def crossedStore : Store := (FlowProducer.add none crossedFlow firstFlowStore).2

theorem crossedStore_eq : crossedStore = runEntries
    [(simpleNode "c").entry none true,
      (simpleNode "first").entry (some (simpleNode "c").asParent) false] firstFlowStore := by
  have hentries : crossedFlow.childEntries =
      [(simpleNode "first").entry (some (simpleNode "c").asParent) false] := rfl
  have hroot : crossedFlow.rootEntry none = (simpleNode "c").entry none true := rfl
  rw [crossedStore, FlowProducer.add_eq (by decide), hentries, hroot]
  rfl

/-- After the second flow the two jobs wait for each other, and the check for locks does not return
with any fuel. -/
theorem crossed_flows_cyclic :
    "bull:q:c" ∈ childrenIn crossedStore .dependencies "bull:q:first" ∧
    "bull:q:first" ∈ childrenIn crossedStore .dependencies "bull:q:c" ∧
    TransGen (IsPendingChildOf crossedStore) "bull:q:first" "bull:q:first" ∧
    ∀ fuel, isLocked fuel true "bull:q:" "first" crossedStore = none := by
  have hkeys : ((simpleNode "c").entry none true).key = "bull:q:c" ∧
      ((simpleNode "first").entry (some (simpleNode "c").asParent) false).key = "bull:q:first" := by
    decide
  obtain ⟨hfirst, hc⟩ := crossed_pending (s := firstFlowStore)
    ((simpleNode "c").entry none true)
    ((simpleNode "first").entry (some (simpleNode "c").asParent) false)
    ⟨by decide, rfl⟩ ⟨by decide, rfl⟩ rfl (by decide) (by decide +kernel) (by decide +kernel)
    (by decide +kernel)
  rw [← crossedStore_eq, hkeys.1, hkeys.2] at hfirst hc
  have hlock : ∀ k, crossedStore .lock k = none := by
    intro k
    rw [crossedStore_eq, runEntries_frame _ _ (by decide), firstFlowStore_eq,
      runEntries_frame _ _ (by decide)]
    rfl
  refine ⟨hc, hfirst, .tail (.single hc) hfirst, fun fuel => ?_⟩
  refine isLocked_eq_none (C := fun k => k = "bull:q:first" ∨ k = "bull:q:c") hlock ?_ fuel
    (.inl (by decide))
  rintro k (rfl | rfl)
  · exact ⟨_, hc, .inr rfl⟩
  · exact ⟨_, hfirst, .inl rfl⟩

end BullMQ
