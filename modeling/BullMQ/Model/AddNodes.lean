import BullMQ.Model.Flow

/-!
# How the entries of flows are collected

`addNode` pushes the entry of its node and suspends; what is left of it, a continuation, adds the
children. Continuations run one after the other in the order in which they are queued. Those that
only settle promises push nothing and queue no call of `addNode`, so they are left out, but for the
rest of a call for a node without children. Tracing is disabled.
-/

namespace BullMQ

/-- The arguments of a call of `addNode`. -/
structure AddNodeOpts where
  node : FlowJob
  /-- `opts.parent` of the job: that of the flow for a root, the parent node for the others. -/
  parentOpts : Option ParentOptions

/-- What is left of a call of `addNode` after its first `await`. -/
inductive Continuation
  | addChildren (parent : ParentOptions) (nodes : List FlowJob)
  | settle

/-- The entries collected so far, and the continuations that are queued. -/
structure EventLoop where
  entries : List FlowJobEntry := []
  microtasks : List Continuation := []

/-- `addNode`, up to its first `await`. -/
def addNode (call : AddNodeOpts) (loop : EventLoop) : EventLoop :=
  match call.node with
  | .node n children =>
    if children ≠ [] then
      { entries := loop.entries ++ [n.entry call.parentOpts true]
        microtasks := loop.microtasks ++ [.addChildren n.asParent children] }
    else
      { entries := loop.entries ++ [n.entry call.parentOpts false]
        microtasks := loop.microtasks ++ [.settle] }

/-- Run a continuation: `addChildren` calls `addNode` for all children. -/
def Continuation.resume : Continuation → EventLoop → EventLoop
  | .addChildren parent nodes, loop =>
    nodes.foldl (fun loop node => addNode ⟨node, some parent⟩ loop) loop
  | .settle, loop => loop

/-- Run the queued continuations until none is left, with at most so many steps. -/
def runMicrotasks : ℕ → EventLoop → Option (List FlowJobEntry)
  | 0, _ => none
  | steps + 1, loop =>
    match loop.microtasks with
    | [] => some loop.entries
    | continuation :: microtasks =>
      runMicrotasks steps (continuation.resume { loop with microtasks })

/-- `addNodes`: the entries of all flows. -/
def addNodes (steps : ℕ) (flows : List AddNodeOpts) : Option (List FlowJobEntry) :=
  runMicrotasks steps (flows.foldl (fun loop flow => addNode flow loop) {})

/-- The id of a root that `addBulk` returns: that of the reply at the same index, if it is one. -/
def bulkRootId (results : List Reply) (index : ℕ) (flow : AddNodeOpts) : String :=
  match results[index]? with
  | some (.id jobId) => jobId
  | _ => flow.node.root.jobId

/-- `FlowProducer.addBulk`: the ids of the roots. -/
def FlowProducer.addBulk (steps : ℕ) (flows : List AddNodeOpts) (s : Store) :
    Option (Except FlowError (List String) × Store) :=
  if flows.all fun flow => flow.node.validate flow.parentOpts then
    (addNodes steps flows).map fun entries =>
      let (results, s) := addFlow entries s
      (.ok (flows.zipIdx.map fun flow => bulkRootId results flow.2 flow.1), s)
  else some (.error .invalid, s)

end BullMQ
