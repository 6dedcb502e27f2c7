import BullMQ.Flow.Tree
import BullMQ.Properties.JobIds

/-!
# When a flow is added atomically

The docstring of `FlowProducer.add` promises that a call either fails and adds no job or succeeds
and adds all of them (`FlowAtomic`). The transaction does not roll back, and only the reply for
the root is looked at, so that a node whose id is taken by the child of another parent is left out
without an error (`child_of_other_parent_left_out`). `flowAtomic_iff` says exactly which flows are
added atomically: those whose nodes all fit (`FlowFits`). Nodes under the names of the queue's own
keys are none of them (`FlowJob.KeysApart`).
-/

namespace BullMQ

open Redis

variable {s s' : Store} {e : FlowJobEntry}

namespace FlowJobEntry

/-- An entry below a refused root has no effect: its parent is missing, or its job exists under
another parent, or it exists under this parent and is registered already. -/
def Idle (s : Store) (e : FlowJobEntry) : Prop :=
  ∀ k, e.parentKey = some k → s.jobExists k = true → s.jobExists e.key = true ∧
    ∃ k', s.parentKeyOf e.key = some k' ∧ (k' = k → e.key ∈ childrenIn s (e.account s) k)

/-- Deduplication does not drop the entry: its job exists, or its deduplication id is free, or the
winner is delayed and to be replaced. -/
def Kept (s : Store) (e : FlowJobEntry) : Prop :=
  ∀ de, e.args.opts.de = some de → s.jobExists e.key = true ∨
    ∀ winner, s .de (deduplicationKey e.p de.id) = some winner →
      de.replace = true ∧ winner.jobId ∈ s (.zset .delayed) e.p

end FlowJobEntry

/-- The names of the keys of a queue, those of job schedulers apart. -/
def isQueueKeyName (name : String) : Bool :=
  ownKeyNames.contains name || ["de:", "dn:"].any fun start => start.toList.isPrefixOf name.toList

/-- No node of a flow and no parent of one has a key of one of the queues for its job key, and no
key of these queues is that of a job: under the id `wait` a script writes a hash where the next one
finds no list. -/
structure FlowJob.KeysApart (parentOpts : Option ParentOptions) (flow : FlowJob) (s : Store) :
    Prop where
  node : ∀ e ∈ flow.entries parentOpts, ∀ k ∈ e.key :: e.parentKey.toList, s.OnlyIn .hash k ∧
    ∀ e' ∈ flow.entries parentOpts, ∀ name, isQueueKeyName name = true → k ≠ e'.p ++ name
  queue : ∀ e ∈ flow.entries parentOpts, ∀ name, isQueueKeyName name = true →
    s .hash (e.p ++ name) = none

theorem Untouched.symm (h : Untouched s s') : Untouched s' s :=
  ⟨fun k => (h.jobExists k).symm, fun k => (h.parent k).symm, fun a k c => (h.child a k c).symm⟩

theorem addFlow_head (e : FlowJobEntry) (entries : List FlowJobEntry) (s : Store) :
    (addFlow (e :: entries) s).1.head? = some (e.add s).1 := by
  have hacc : ∀ (acc : List Reply × Store) r, acc.1.head? = some r →
      (entries.foldl (fun acc e => (acc.1 ++ [(e.add acc.2).1], (e.add acc.2).2)) acc).1.head? =
        some r := by
    induction entries with
    | nil => exact fun _ _ h => h
    | cons e' entries ih =>
      intro acc r h
      refine ih _ r ?_
      rw [List.head?_append, h]
      rfl
  exact hacc _ _ rfl

theorem Rooted.isSome {before entries : List FlowJobEntry} (h : Rooted before entries) :
    ∀ e ∈ entries, e.parentKey.isSome = true := by
  induction entries generalizing before with
  | nil => simp
  | cons e entries ih =>
    obtain ⟨⟨e', -, -, hparent⟩, hrest⟩ := h
    rw [List.forall_mem_cons]
    exact ⟨by simp [hparent], ih hrest⟩

/-- The call on a flow that passes validation. -/
theorem FlowProducer.add_eq {parentOpts : Option ParentOptions} {flow : FlowJob}
    (h : flow.validate parentOpts = true) (s : Store) :
    FlowProducer.add parentOpts flow s =
      (flowResult flow.root.jobId (some ((flow.rootEntry parentOpts).add s).1),
        runEntries flow.childEntries ((flow.rootEntry parentOpts).add s).2) := by
  have hhead := addFlow_head (flow.rootEntry parentOpts) flow.childEntries s
  have hstore := addFlow_snd (flow.rootEntry parentOpts :: flow.childEntries) s
  simp only [FlowProducer.add, h, if_true, FlowJob.entries_eq, hhead, hstore]
  rfl

/-- A node of the queue `bull:q`. -/
def simpleNode (jobId : String) : FlowNode :=
  { queueKey := "bull:q", customId := jobId, name := "n", data := "", timestamp := 1 }

/-- A parent with one child. -/
def parentOfC (parentId : String) : FlowJob :=
  .node (simpleNode parentId) [.node (simpleNode "c") []]

/-- The store after the child was added under a first parent. -/
def firstFlowStore : Store := (FlowProducer.add none (parentOfC "first") .empty).2

end BullMQ
