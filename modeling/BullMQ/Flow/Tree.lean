import BullMQ.Flow.Entries
import BullMQ.Model.Remove

/-!
# Flow trees and their entries

The first entry of a flow is that of its root, and every other entry names an earlier one as its
parent (`FlowJob.rooted`). In a flow that passes validation all other entries are without
deduplication. `FlowJob.Linked` says that a store holds a flow as a tree: every node exists, names
its parent and is registered with it.
-/

namespace BullMQ

open Redis

variable {s s' s'' : Store}

/-! ### Growth -/

/-- Jobs, parents and registrations have only been added. -/
structure Grows (s s' : Store) : Prop where
  jobExists : ∀ k, s.jobExists k = true → s'.jobExists k = true
  parent : ∀ k k', s.parentKeyOf k = some k' → s'.parentKeyOf k = some k'
  child : ∀ a k c, c ∈ childrenIn s a k → c ∈ childrenIn s' a k

namespace Grows

theorem trans (h : Grows s s') (h' : Grows s' s'') : Grows s s'' :=
  ⟨fun k hk => h'.jobExists k (h.jobExists k hk), fun k k' hk => h'.parent k k' (h.parent k k' hk),
    fun a k c hc => h'.child a k c (h.child a k c hc)⟩

end Grows

/-- Execute entries one after the other. -/
def runEntries (entries : List FlowJobEntry) (s : Store) : Store :=
  entries.foldl (fun s e => (e.add s).2) s

/-- Entries write what the add scripts write. -/
theorem runEntries_frame (entries : List FlowJobEntry) (s : Store) {κ : Kind}
    (h : κ ∉ addWrites) : runEntries entries s κ = s κ := by
  induction entries generalizing s with
  | nil => rfl
  | cons e entries ih => exact (ih _).trans (addJobWith_frame e.mode_framed _ _ _ h)

theorem FlowNode.jobId_ne_empty (n : FlowNode) : n.jobId ≠ "" := by
  unfold jobId
  split
  · exact n.uuid_ne_empty
  · assumption

/-- The entry of the root of a flow. -/
def FlowJob.rootEntry (parentOpts : Option ParentOptions) : FlowJob → FlowJobEntry
  | .node n children => n.entry parentOpts (children ≠ [])

/-- The entries below the root of a flow. -/
def FlowJob.childEntries : FlowJob → List FlowJobEntry
  | .node n children => (childLevels (some n.asParent) children).flatten

theorem FlowJob.entries_eq (parentOpts : Option ParentOptions) (flow : FlowJob) :
    flow.entries parentOpts = flow.rootEntry parentOpts :: flow.childEntries := by
  obtain ⟨n, children⟩ := flow
  rfl

/-- Every entry names one of the entries before it as its parent. -/
def Rooted : List FlowJobEntry → List FlowJobEntry → Prop
  | _, [] => True
  | before, e :: entries =>
    (∃ e' ∈ before, e'.addToWaitingChildren = true ∧ e.parentKey = some e'.key) ∧
      Rooted (before ++ [e]) entries

/-- The same level by level: every entry names one of the level before it. -/
def Chained : List FlowJobEntry → List (List FlowJobEntry) → Prop
  | _, [] => True
  | level, next :: levels =>
    (∀ e ∈ next, ∃ e' ∈ level, e'.addToWaitingChildren = true ∧ e.parentKey = some e'.key) ∧
      Chained next levels

theorem Chained.mono {l l' : List FlowJobEntry} {levels : List (List FlowJobEntry)}
    (h : Chained l levels) (hsub : l ⊆ l') : Chained l' levels := by
  cases levels with
  | nil => trivial
  | cons next levels =>
    refine ⟨fun e he => ?_, h.2⟩
    obtain ⟨e', he', hparent⟩ := h.1 e he
    exact ⟨e', hsub he', hparent⟩

theorem Chained.merge {l l' : List FlowJobEntry} {levels levels' : List (List FlowJobEntry)}
    (h : Chained l levels) (h' : Chained l' levels') :
    Chained (l ++ l') (mergeLevels levels levels') := by
  fun_induction mergeLevels levels levels' generalizing l l' with
  | case1 levels => exact h'.mono (List.subset_append_right l l')
  | case2 levels => exact h.mono (List.subset_append_left l l')
  | case3 next levels next' levels' ih =>
    refine ⟨fun e he => ?_, ih h.2 h'.2⟩
    rcases List.mem_append.mp he with he | he
    · obtain ⟨e', he', hparent⟩ := h.1 e he
      exact ⟨e', List.mem_append_left _ he', hparent⟩
    · obtain ⟨e', he', hparent⟩ := h'.1 e he
      exact ⟨e', List.mem_append_right _ he', hparent⟩

mutual

theorem FlowJob.levels_chained (m : FlowNode) (b : Bool) (P : Option ParentOptions)
    (h : b = true) : ∀ flow : FlowJob,
      Chained [m.entry P b] (flow.levels (some m.asParent))
  | .node n children => by
    refine ⟨fun e he => ⟨m.entry P b, by simp, h, ?_⟩, ?_⟩
    · obtain rfl := List.mem_singleton.mp he
      rfl
    · exact childLevels_chained n (children ≠ []) (some m.asParent) children (by simp)

theorem childLevels_chained (m : FlowNode) (b : Bool) (P : Option ParentOptions) :
    ∀ children : List FlowJob, (children ≠ [] → b = true) →
      Chained [m.entry P b] (childLevels (some m.asParent) children)
  | [], _ => trivial
  | child :: children, h => by
    have hmerge := (FlowJob.levels_chained m b P (h (by simp)) child).merge
      (childLevels_chained m b P children fun _ => h (by simp))
    exact hmerge.mono (by simp)

end

mutual

theorem FlowJob.levels_plain (m : FlowNode) : ∀ flow : FlowJob,
    flow.validate (some m.asParent) = true →
      ∀ e ∈ (flow.levels (some m.asParent)).flatten, e.Plain
  | .node n children, h => by
    simp only [FlowJob.validate, FlowNode.validateOptions, Bool.and_eq_true] at h
    have hde : n.opts.de = none := by
      have hnot := h.1.1.2
      rcases hde : n.opts.de with _ | de
      · rfl
      · simp [hde] at hnot
    intro e he
    rw [FlowJob.levels, List.flatten_cons, List.singleton_append, List.mem_cons] at he
    rcases he with rfl | he
    · exact ⟨n.jobId_ne_empty, hde⟩
    · exact childLevels_plain n children h.2 e he

theorem childLevels_plain (m : FlowNode) : ∀ children : List FlowJob,
    validateChildren (some m.asParent) children = true →
      ∀ e ∈ (childLevels (some m.asParent) children).flatten, e.Plain
  | [], _, e, he => by simp [childLevels] at he
  | child :: children, h, e, he => by
    simp only [validateChildren, Bool.and_eq_true] at h
    rw [childLevels, mem_flatten_mergeLevels] at he
    rcases he with he | he
    · exact FlowJob.levels_plain m child h.1 e he
    · exact childLevels_plain m children h.2 e he

end

mutual

/-- Every node exists, names its parent and is registered with it. -/
def FlowJob.Linked (s : Store) : FlowJob → Prop
  | .node n children => s.jobExists n.key = true ∧ ChildrenLinked s n.key children

/-- The same for the flows below a node. -/
def ChildrenLinked (s : Store) (parentKey : String) : List FlowJob → Prop
  | [] => True
  | child :: children =>
    (s.parentKeyOf child.root.key = some parentKey ∧ IsChildOf s parentKey child.root.key ∧
      child.Linked s) ∧ ChildrenLinked s parentKey children

end

/-- The job of an entry exists, names its parent and is registered with it. -/
structure FlowJobEntry.IsLinked (s : Store) (e : FlowJobEntry) : Prop where
  jobExists : s.jobExists e.key = true
  parent : ∀ k, e.parentKey = some k → s.parentKeyOf e.key = some k
  child : ∀ k, e.parentKey = some k → IsChildOf s k e.key

mutual

theorem FlowJob.linked_iff_levels (s : Store) (m : FlowNode) : ∀ flow : FlowJob,
    (s.parentKeyOf flow.root.key = some m.key ∧ IsChildOf s m.key flow.root.key ∧
      flow.Linked s) ↔ ∀ e ∈ (flow.levels (some m.asParent)).flatten, e.IsLinked s
  | .node n children => by
    have hparent : ∀ b, (n.entry (some m.asParent) b).parentKey = some m.key := fun _ => rfl
    rw [FlowJob.levels, List.flatten_cons, List.singleton_append, List.forall_mem_cons,
      ← childrenLinked_iff_levels s n children, FlowJob.root, FlowJob.Linked]
    constructor
    · rintro ⟨hlink, hchild, hex, hchildren⟩
      refine ⟨⟨hex, fun k hk => ?_, fun k hk => ?_⟩, hchildren⟩
      · exact hlink.trans (hparent _ ▸ hk)
      · obtain rfl : m.key = k := Option.some.inj (hparent _ ▸ hk)
        exact hchild
    · rintro ⟨hroot, hchildren⟩
      exact ⟨hroot.parent _ (hparent _), hroot.child _ (hparent _), hroot.jobExists, hchildren⟩

theorem childrenLinked_iff_levels (s : Store) (m : FlowNode) : ∀ children : List FlowJob,
    ChildrenLinked s m.key children ↔
      ∀ e ∈ (childLevels (some m.asParent) children).flatten, e.IsLinked s
  | [] => by simp [ChildrenLinked, childLevels]
  | child :: children => by
    have hmem : (∀ e ∈ (childLevels (some m.asParent) (child :: children)).flatten,
        e.IsLinked s) ↔ (∀ e ∈ (child.levels (some m.asParent)).flatten, e.IsLinked s) ∧
          ∀ e ∈ (childLevels (some m.asParent) children).flatten, e.IsLinked s := by
      simp only [childLevels, mem_flatten_mergeLevels, or_imp, forall_and]
    rw [hmem, ChildrenLinked, FlowJob.linked_iff_levels s m child,
      childrenLinked_iff_levels s m children]

end

end BullMQ
