import BullMQ.Model.Command

/-!
# Flows

A flow is a tree of jobs that `FlowProducer.add` adds in one transaction. Every node becomes one
entry, a call of an add script, and Redis executes the entries of the transaction one after the
other: the scripts do not know of each other, and a script that refuses its job does not stop the
others. Only the reply of the first entry, that of the root, decides what the call reports.

The nodes are collected level by level, since `addNode` pushes its own entry before it suspends
and the children of a node are visited together.
-/

namespace BullMQ

open Redis

/-! ### Flow trees -/

/-- What a flow says about one job. -/
structure FlowNode where
  /-- The qualified name of the queue. -/
  queueKey : String
  /-- `opts.jobId`, empty if the flow gives none. -/
  customId : String := ""
  /-- What `randomUUID` returns for a node without an id of its own. -/
  uuid : String := "00000000-0000-4000-8000-000000000000"
  uuid_ne_empty : uuid ≠ "" := by decide
  name : String
  data : String
  timestamp : ℤ
  opts : JobOpts := {}
  failParentOnFailure : Bool := false
  continueParentOnFailure : Bool := false
  ignoreDependencyOnFailure : Bool := false
  removeDependencyOnFailure : Bool := false

/-- A node and the flows below it. -/
inductive FlowJob
  | node (root : FlowNode) (children : List FlowJob)

/-- A reference to a parent, `opts.parent`. -/
structure ParentOptions where
  id : String
  queue : String
  deriving DecidableEq, Repr

namespace FlowNode

/-- The id of a node. -/
def jobId (n : FlowNode) : String := if n.customId = "" then n.uuid else n.customId

/-- The key base of the queue of a node. -/
def base (n : FlowNode) : String := n.queueKey ++ ":"

/-- The job key of a node. -/
def key (n : FlowNode) : String := n.base ++ n.jobId

/-- The reference to a node that its children get. -/
def asParent (n : FlowNode) : ParentOptions := ⟨n.jobId, n.queueKey⟩

/-- The `parent` field of a node, as the constructor of `Job` makes it. -/
def parent (n : FlowNode) (parentOpts : Option ParentOptions) : Option Parent :=
  parentOpts.map fun P =>
    { id := P.id
      queueKey := P.queue
      fpof := n.failParentOnFailure
      cpof := n.continueParentOnFailure
      idof := n.ignoreDependencyOnFailure
      rdof := n.removeDependencyOnFailure }

end FlowNode

/-- The root of a flow. -/
def FlowJob.root : FlowJob → FlowNode
  | node root _ => root

/-! ### Entries -/

/-- One entry of the transaction. -/
structure FlowJobEntry where
  /-- The key base of the queue. -/
  p : String
  args : AddArgs
  addToWaitingChildren : Bool := false
  deriving DecidableEq, Repr

/-- The entry of a node. -/
def FlowNode.entry (n : FlowNode) (parentOpts : Option ParentOptions) (hasChildren : Bool) :
    FlowJobEntry where
  p := n.base
  args :=
    { customId := n.jobId
      name := n.name
      data := n.data
      timestamp := n.timestamp
      opts := n.opts
      parent := n.parent parentOpts }
  addToWaitingChildren := hasChildren

/-- Put the levels of two flows side by side. -/
def mergeLevels {α : Type} : List (List α) → List (List α) → List (List α)
  | [], levels => levels
  | levels, [] => levels
  | l :: levels, l' :: levels' => (l ++ l') :: mergeLevels levels levels'

mutual

/-- `addNode`: the entries of a flow, level by level. -/
def FlowJob.levels (parentOpts : Option ParentOptions) : FlowJob → List (List FlowJobEntry)
  | .node n children =>
    [n.entry parentOpts (children ≠ [])] :: childLevels (some n.asParent) children

/-- `addChildren`: the entries of the flows below a node. -/
def childLevels (parentOpts : Option ParentOptions) : List FlowJob → List (List FlowJobEntry)
  | [] => []
  | child :: children => mergeLevels (child.levels parentOpts) (childLevels parentOpts children)

end

/-- The entries of a flow in the order of the transaction. -/
def FlowJob.entries (parentOpts : Option ParentOptions) (flow : FlowJob) : List FlowJobEntry :=
  (flow.levels parentOpts).flatten

/-! ### Validation -/

/-- The largest priority. -/
def priorityLimit : ℤ := 2 ^ 21 - 1

/-- A decimal numeral below 2^53 without leading zeros. -/
def isNumeral (digits : List Char) : Bool :=
  !digits.isEmpty && digits.all Char.isDigit && (digits == ['0'] || digits.head? != some '0') &&
    digits.foldl (fun n c => 10 * n + (c.toNat - '0'.toNat)) 0 < 2 ^ 53

/-- Whether `parseInt` reads an id as a number that prints as the id. Of the integers only those
below 2^53 are recognised. -/
def isIntegerId (jobId : String) : Bool :=
  match jobId.toList with
  | '-' :: digits => isNumeral digits && digits != ['0']
  | digits => isNumeral digits || jobId == "NaN"

/-- How many of the options that exclude each other are set. -/
def FlowNode.exclusiveOptions (n : FlowNode) : ℕ :=
  [n.removeDependencyOnFailure, n.failParentOnFailure, n.continueParentOnFailure,
    n.ignoreDependencyOnFailure].count true

/-- `validateOptions`, as far as it looks at the options modelled here. -/
def FlowNode.validateOptions (n : FlowNode) (parentOpts : Option ParentOptions) : Bool :=
  n.exclusiveOptions ≤ 1 &&
  (n.customId == "" || !isIntegerId n.customId &&
    (n.customId.toList.count ':' == 0 || n.customId.toList.count ':' == 2)) &&
  n.opts.priority ≤ priorityLimit &&
  n.opts.de.elim true fun de => de.id != "" && parentOpts.isNone

mutual

/-- `validateFlowJobs` and the validation of every node. -/
def FlowJob.validate (parentOpts : Option ParentOptions) : FlowJob → Bool
  | .node n children =>
    n.validateOptions parentOpts && (children.isEmpty || n.opts.de.isNone) &&
      validateChildren (some n.asParent) children

/-- The same for the flows below a node. -/
def validateChildren (parentOpts : Option ParentOptions) : List FlowJob → Bool
  | [] => true
  | child :: children => child.validate parentOpts && validateChildren parentOpts children

end

/-! ### The transaction -/

/-- `addJobToTransaction`: the script an entry calls. -/
def FlowJobEntry.command (e : FlowJobEntry) : Command :=
  if e.addToWaitingChildren then .addParentJob e.p e.args
  else if 0 < e.args.opts.delay then .addDelayedJob e.p e.args
  else if e.args.opts.priority ≠ 0 then .addPrioritizedJob e.p e.args
  else .addStandardJob e.p e.args

/-- The mode of that script. -/
def FlowJobEntry.mode (e : FlowJobEntry) : AddMode :=
  if e.addToWaitingChildren then parentMode e.p
  else if 0 < e.args.opts.delay then delayedMode e.p
  else if e.args.opts.priority ≠ 0 then prioritizedMode e.p
  else standardMode e.p

/-- Execute an entry. -/
def FlowJobEntry.add (e : FlowJobEntry) (s : Store) : Reply × Store :=
  addJobWith e.mode e.p e.args s

/-- `addFlow`: execute the transaction. -/
def addFlow (entries : List FlowJobEntry) (s : Store) : List Reply × Store :=
  entries.foldl (fun acc e => (acc.1 ++ [(e.add acc.2).1], (e.add acc.2).2)) ([], s)

/-- What a call of `FlowProducer.add` reports. -/
inductive FlowError
  /-- Validation fails before anything is sent. -/
  | invalid
  /-- The script of the root replies with a code. -/
  | code (n : ℤ)
  /-- The script of the root raises an error. -/
  | script
  deriving DecidableEq, Repr

/-- The outcome of the call for a reply to the entry of the root: an error, or the root's id. -/
def flowResult (rootId : String) : Option Reply → Except FlowError String
  | some (.code n) => if n < 0 then .error (.code n) else .ok rootId
  | some .error => .error .script
  | some (.id jobId) => .ok jobId
  | _ => .ok rootId

/-- `FlowProducer.add`. -/
def FlowProducer.add (parentOpts : Option ParentOptions) (flow : FlowJob) (s : Store) :
    Except FlowError String × Store :=
  if flow.validate parentOpts then
    let (results, s) := addFlow (flow.entries parentOpts) s
    (flowResult flow.root.jobId results.head?, s)
  else (.error .invalid, s)

/-! ### The order of the entries -/

theorem FlowJobEntry.exec_command (e : FlowJobEntry) (s : Store) :
    e.command.exec s = some (e.add s) := by
  unfold command add mode
  split_ifs <;> rfl

theorem mem_flatten_mergeLevels {α : Type} {x : α} (l l' : List (List α)) :
    x ∈ (mergeLevels l l').flatten ↔ x ∈ l.flatten ∨ x ∈ l'.flatten := by
  fun_induction mergeLevels l l' with
  | case1 levels => simp
  | case2 levels => simp
  | case3 l levels l' levels' ih =>
    simp only [List.flatten_cons, List.mem_append, ih]
    tauto

theorem addFlow_snd (entries : List FlowJobEntry) (s : Store) :
    (addFlow entries s).2 = entries.foldl (fun s e => (e.add s).2) s := by
  have hacc : ∀ acc : List Reply × Store,
      (entries.foldl (fun acc e => (acc.1 ++ [(e.add acc.2).1], (e.add acc.2).2)) acc).2 =
        entries.foldl (fun s e => (e.add s).2) acc.2 := by
    induction entries with
    | nil => exact fun _ => rfl
    | cons e entries ih => exact fun acc => ih _
  exact hacc _

end BullMQ
