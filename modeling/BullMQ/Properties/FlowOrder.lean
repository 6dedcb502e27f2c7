import BullMQ.Async.Fifo
import BullMQ.Flow.Tree
import BullMQ.Model.AddNodes

/-!
# The order of flow entries

The calls of `addNode` are the tasks of a first-in, first-out run, and the entries its log
(`addNodes_eq_run`). So the entries are those of all nodes, each once, the roots first and every
other node after its parent (`addNodes_order`), and the replies to `addFlow` begin with those to the
roots. For one flow the order is that of its levels (`addNodes_levels`).
-/

namespace BullMQ

/-- The calls for the children of a node. -/
def AddNodeOpts.children (call : AddNodeOpts) : List AddNodeOpts :=
  match call.node with
  | .node n nodes => nodes.map fun node => ⟨node, some n.asParent⟩

/-- The entry of the node of a call. -/
def AddNodeOpts.entry (call : AddNodeOpts) : FlowJobEntry := call.node.rootEntry call.parentOpts

/-- What is left of a call. -/
def AddNodeOpts.continuation (call : AddNodeOpts) : Continuation :=
  match call.node with
  | .node n nodes => if nodes ≠ [] then .addChildren n.asParent nodes else .settle

/-! ### Calls as tasks -/

theorem addNode_eq (call : AddNodeOpts) (loop : EventLoop) :
    addNode call loop = ⟨loop.entries ++ [call.entry], loop.microtasks ++ [call.continuation]⟩ := by
  obtain ⟨⟨n, nodes⟩, parentOpts⟩ := call
  by_cases hnodes : nodes = []
  · simp [addNode, AddNodeOpts.entry, AddNodeOpts.continuation, FlowJob.rootEntry, hnodes]
  · simp [addNode, AddNodeOpts.entry, AddNodeOpts.continuation, FlowJob.rootEntry, hnodes]

theorem foldl_addNode (calls : List AddNodeOpts) (loop : EventLoop) :
    calls.foldl (fun loop call => addNode call loop) loop =
      ⟨loop.entries ++ calls.map AddNodeOpts.entry,
        loop.microtasks ++ calls.map AddNodeOpts.continuation⟩ := by
  induction calls generalizing loop with
  | nil => simp
  | cons call calls ih =>
    rw [List.foldl_cons, ih, addNode_eq, List.append_assoc, List.append_assoc]
    rfl

/-- The rest of a call adds the children. -/
theorem resume_continuation (call : AddNodeOpts) (loop : EventLoop) :
    call.continuation.resume loop =
      ⟨loop.entries ++ call.children.map AddNodeOpts.entry,
        loop.microtasks ++ call.children.map AddNodeOpts.continuation⟩ := by
  obtain ⟨⟨n, nodes⟩, parentOpts⟩ := call
  by_cases hnodes : nodes = []
  · simp [AddNodeOpts.continuation, AddNodeOpts.children, Continuation.resume, hnodes]
  · rw [← foldl_addNode]
    simp [AddNodeOpts.continuation, AddNodeOpts.children, Continuation.resume, hnodes,
      List.foldl_map]

theorem runMicrotasks_eq (steps : ℕ) (log queue : List AddNodeOpts) :
    runMicrotasks steps ⟨log.map AddNodeOpts.entry, queue.map AddNodeOpts.continuation⟩ =
      (Fifo.run AddNodeOpts.children steps log queue).map (List.map AddNodeOpts.entry) := by
  induction steps generalizing log queue with
  | zero => rfl
  | succ steps ih =>
    cases queue with
    | nil => rfl
    | cons call queue =>
      rw [runMicrotasks, Fifo.run, ← ih, List.map_append, List.map_append]
      simp only [List.map_cons, resume_continuation]

/-- The entries are the log of a first-in, first-out run of the calls. -/
theorem addNodes_eq_run (steps : ℕ) (flows : List AddNodeOpts) :
    addNodes steps flows =
      (Fifo.run AddNodeOpts.children steps flows flows).map (List.map AddNodeOpts.entry) := by
  rw [addNodes, foldl_addNode, ← runMicrotasks_eq]
  rfl

mutual

/-- The number of nodes of a flow. -/
def FlowJob.size : FlowJob → ℕ
  | .node _ children => childrenSize children + 1

/-- The number of nodes below a node. -/
def childrenSize : List FlowJob → ℕ
  | [] => 0
  | child :: children => child.size + childrenSize children

end

theorem childrenSize_eq (nodes : List FlowJob) :
    childrenSize nodes = (nodes.map FlowJob.size).sum := by
  induction nodes with
  | nil => rfl
  | cons node nodes ih => rw [childrenSize, ih, List.map_cons, List.sum_cons]

theorem sum_size_children (call : AddNodeOpts) :
    (call.children.map fun c => c.node.size).sum < call.node.size := by
  obtain ⟨⟨n, nodes⟩, parentOpts⟩ := call
  rw [AddNodeOpts.children, List.map_map, FlowJob.size, childrenSize_eq]
  exact Nat.lt_succ_self _

/-! ### The order -/

/-- The call for the node at an address: the number of the child it is, then the address of its
parent. -/
def callAt (flows : List AddNodeOpts) : List ℕ → Option AddNodeOpts :=
  Fifo.taskAt AddNodeOpts.children flows

/-- An order of the nodes of flows, each with its address. -/
structure EntryOrder (flows : List AddNodeOpts) (order : List (List ℕ × AddNodeOpts)) : Prop where
  /-- Each node once. -/
  nodup : (order.map Prod.fst).Nodup
  nodes : ∀ a call, (a, call) ∈ order ↔ callAt flows a = some call
  /-- The roots first, in the order of the flows. -/
  roots : ∀ i < flows.length, order[i]? = (flows[i]?).map fun flow => ([i], flow)
  /-- Every other node after its parent. -/
  parent : ∀ (i c : ℕ) a call, order[i]? = some (c :: a, call) → a ≠ [] →
    ∃ j call', j < i ∧ order[j]? = some (a, call')

theorem addNodes_ordered {flows : List AddNodeOpts} {steps : ℕ}
    (hsteps : (flows.map fun flow => flow.node.size).sum < steps) :
    ∃ order, EntryOrder flows order ∧
      addNodes steps flows = some (order.map fun x => x.2.entry) := by
  obtain ⟨order, hrun, hnodup, hnodes, hfirst, hparent⟩ :=
    Fifo.run_log sum_size_children flows hsteps
  refine ⟨order, ⟨hnodup, hnodes, fun i hi => ?_, hparent⟩, ?_⟩
  · have hget : (order.take flows.length)[i]? = order[i]? := List.getElem?_take_of_lt hi
    rw [← hget, hfirst, Fifo.addressedRoots, List.getElem?_map, List.getElem?_zipIdx,
      Option.map_map]
    simp [Function.comp_def]
  · rw [addNodes_eq_run, hrun, Option.map_some, List.map_map]
    rfl

/-- Every reply is that to the script of the entry at its index, run after those before it. -/
theorem addFlow_reply (entries : List FlowJobEntry) (s : Store) :
    (addFlow entries s).1.length = entries.length ∧
      ∀ (i : ℕ) (e : FlowJobEntry), entries[i]? = some e →
        (addFlow entries s).1[i]? = some (e.add (runEntries (entries.take i) s)).1 := by
  induction entries using List.reverseRecOn with
  | nil => exact ⟨rfl, fun i e h => by simp at h⟩
  | append_singleton entries e ih =>
    obtain ⟨hlen, hreply⟩ := ih
    have hlast : addFlow (entries ++ [e]) s = ((addFlow entries s).1 ++
        [(e.add (addFlow entries s).2).1], (e.add (addFlow entries s).2).2) := by
      rw [addFlow, List.foldl_concat]
      rfl
    rw [hlast]
    refine ⟨by simp [hlen], fun i e' hi => ?_⟩
    by_cases hlt : i < entries.length
    · rw [List.getElem?_append_left hlt] at hi
      rw [List.getElem?_append_left (by omega), hreply i e' hi,
        List.take_append_of_le_length (by omega)]
    · have hi' : i = entries.length := by
        have := (List.getElem?_eq_some_iff.mp hi).1
        rw [List.length_append, List.length_singleton] at this
        omega
      subst hi'
      obtain rfl : e = e' := by simpa using hi
      rw [← hlen, List.getElem?_concat_length, hlen, List.take_append_of_le_length le_rfl,
        List.take_length, addFlow_snd]
      rfl

/-- The id that a reply stands for. -/
def replyId (flow : AddNodeOpts) : Reply → String
  | .id jobId => jobId
  | _ => flow.node.root.jobId

/-- **The entries of flows** are those of all nodes, each once, the roots first in the order of the
flows and every other node after its parent. So the first replies to `addBulk` are those to the
scripts of the roots, and the scripts of all other nodes run after those of their parents. -/
theorem addNodes_order {flows : List AddNodeOpts} {steps : ℕ}
    (hsteps : (flows.map fun flow => flow.node.size).sum < steps) :
    ∃ order, EntryOrder flows order ∧
      addNodes steps flows = some (order.map fun x => x.2.entry) ∧
      ∀ s, (flows.all fun flow => flow.node.validate flow.parentOpts) = true →
        ∃ ids s', FlowProducer.addBulk steps flows s = some (.ok ids, s') ∧
          ids.length = flows.length ∧
          s' = runEntries (order.map fun x => x.2.entry) s ∧
          ∀ (i : ℕ) (flow : AddNodeOpts), flows[i]? = some flow →
          ids[i]? = some (replyId flow (flow.entry.add
            (runEntries ((order.map fun x => x.2.entry).take i) s)).1) := by
  obtain ⟨order, horder, hentries⟩ := addNodes_ordered hsteps
  refine ⟨order, horder, hentries, fun s hvalid => ?_⟩
  generalize hes : (order.map fun x => x.2.entry) = entries at hentries ⊢
  obtain ⟨hlen, hreply⟩ := addFlow_reply entries s
  refine ⟨flows.zipIdx.map fun flow => bulkRootId (addFlow entries s).1 flow.2 flow.1,
    (addFlow entries s).2, ?_, ?_, addFlow_snd entries s, fun i flow hi => ?_⟩
  · rw [FlowProducer.addBulk, if_pos hvalid, hentries]
    rfl
  · simp
  · have hlt : i < flows.length := (List.getElem?_eq_some_iff.mp hi).1
    have hentry : entries[i]? = some flow.entry := by
      rw [← hes, List.getElem?_map, horder.roots i hlt, hi]
      rfl
    have hresult := hreply i _ hentry
    rw [List.getElem?_map, List.getElem?_zipIdx, hi]
    simp only [Option.map_some, bulkRootId, Nat.zero_add, hresult]
    cases (flow.entry.add (runEntries (entries.take i) s)).1 <;> rfl

/-- Two roots, the first of them with a child. -/
theorem addNodes_order_two :
    let root : FlowNode := { queueKey := "bull:q", name := "r", data := "", timestamp := 1 }
    let child : FlowNode := { root with queueKey := "bull:c", name := "c" }
    let other : FlowNode := { root with name := "o" }
    let flows : List AddNodeOpts :=
      [⟨.node root [.node child []], none⟩, ⟨.node other [], none⟩]
    ∃ order, EntryOrder flows order ∧
      addNodes 4 flows = some (order.map fun x => x.2.entry) := by
  intro root child other flows
  have hsteps : (flows.map fun flow => flow.node.size).sum < 4 := by decide
  obtain ⟨order, horder, hentries, -⟩ := addNodes_order hsteps
  exact ⟨order, horder, hentries⟩

/-! ### Levels -/

theorem mergeLevels_nil {α : Type} (levels : List (List α)) : mergeLevels levels [] = levels := by
  cases levels <;> rfl

theorem mergeLevels_assoc {α : Type} (l l' l'' : List (List α)) :
    mergeLevels (mergeLevels l l') l'' = mergeLevels l (mergeLevels l' l'') := by
  induction l generalizing l' l'' with
  | nil => simp [mergeLevels]
  | cons a l ih =>
    cases l' with
    | nil => simp [mergeLevels]
    | cons a' l' =>
      cases l'' with
      | nil => simp [mergeLevels]
      | cons a'' l'' => simp [mergeLevels, ih]

/-- The levels of the flows of some calls, side by side. -/
def levelsOf (calls : List AddNodeOpts) : List (List FlowJobEntry) :=
  calls.foldr (fun call levels => mergeLevels (call.node.levels call.parentOpts) levels) []

theorem levelsOf_append (calls calls' : List AddNodeOpts) :
    levelsOf (calls ++ calls') = mergeLevels (levelsOf calls) (levelsOf calls') := by
  induction calls with
  | nil => simp [levelsOf, mergeLevels]
  | cons call calls ih =>
    rw [List.cons_append, levelsOf, List.foldr_cons, ← levelsOf, ih, ← mergeLevels_assoc]
    rfl

theorem childLevels_eq (parentOpts : Option ParentOptions) (nodes : List FlowJob) :
    childLevels parentOpts nodes = levelsOf (nodes.map fun node => ⟨node, parentOpts⟩) := by
  induction nodes with
  | nil => rfl
  | cons node nodes ih =>
    rw [childLevels, ih, List.map_cons]
    rfl

theorem levels_eq (call : AddNodeOpts) :
    call.node.levels call.parentOpts = [call.entry] :: levelsOf call.children := by
  obtain ⟨⟨n, nodes⟩, parentOpts⟩ := call
  rw [FlowJob.levels, childLevels_eq]
  rfl

/-- The first level of some flows is made of their roots, the others of the flows below. -/
theorem flatten_levelsOf (calls : List AddNodeOpts) :
    (levelsOf calls).flatten =
      calls.map AddNodeOpts.entry ++ (levelsOf (calls.flatMap AddNodeOpts.children)).flatten := by
  have hcons : ∀ calls : List AddNodeOpts, calls ≠ [] → levelsOf calls =
      calls.map AddNodeOpts.entry :: levelsOf (calls.flatMap AddNodeOpts.children) := by
    intro calls
    induction calls with
    | nil => exact fun h => absurd rfl h
    | cons call calls ih =>
      intro _
      have hfirst : levelsOf (call :: calls) =
          mergeLevels ([call.entry] :: levelsOf call.children) (levelsOf calls) := by
        rw [← levels_eq]
        rfl
      by_cases hnil : calls = []
      · subst hnil
        rw [hfirst, List.flatMap_cons, List.flatMap_nil, List.append_nil]
        exact mergeLevels_nil _
      · rw [hfirst, ih hnil, List.flatMap_cons, levelsOf_append]
        rfl
  by_cases hnil : calls = []
  · subst hnil
    rfl
  · rw [hcons calls hnil, List.flatten_cons]

theorem run_entries (steps : ℕ) {log queue result : List AddNodeOpts}
    (hrun : Fifo.run AddNodeOpts.children steps log queue = some result) :
    result.map AddNodeOpts.entry = log.map AddNodeOpts.entry ++
      (levelsOf (queue.flatMap AddNodeOpts.children)).flatten := by
  induction steps using Nat.strong_induction_on generalizing log queue with
  | _ steps ih =>
    obtain ⟨k, hk, hrun⟩ := Fifo.run_level hrun
    by_cases hnil : queue = []
    · subst hnil
      cases k with
      | zero => cases hrun
      | succ k =>
        obtain rfl : log = result := by simpa [Fifo.run] using hrun
        simp [levelsOf]
    · have hlt : k < steps := by
        have := List.length_pos_iff.mpr hnil
        omega
      rw [ih k hlt hrun, List.map_append, List.append_assoc, ← flatten_levelsOf]

/-- The entries of one flow are those of its levels. -/
theorem addNodes_levels {flow : AddNodeOpts} {steps : ℕ} (hsteps : flow.node.size < steps) :
    addNodes steps [flow] = some (flow.node.entries flow.parentOpts) := by
  have hends : (Fifo.run AddNodeOpts.children steps [flow] [flow]).isSome :=
    Fifo.run_ends sum_size_children steps (by simpa using hsteps)
  obtain ⟨result, hrun⟩ := Option.isSome_iff_exists.mp hends
  rw [addNodes_eq_run, hrun, Option.map_some, run_entries steps hrun]
  congr 1
  rw [FlowJob.entries, levels_eq, List.flatten_cons, List.flatMap_cons, List.flatMap_nil,
    List.append_nil]
  rfl

end BullMQ
