import Mathlib.Logic.Function.Basic
import Mathlib.Data.List.Basic

/-!
# The pool of children of a sandboxed worker

A worker whose processor is a file runs its jobs in child processes or, with `useWorkerThreads`, in
worker threads. `ChildPool` keeps the children that are idle, by the file they have loaded, and
those that it has lent out; `sandbox` retains a child for each job and releases it when the job is
done. `PoolAction` has what can happen in between: a child answers its `Init` or exits, a job ends,
the worker closes the pool. That a child cannot be forked at all is left out.
-/

namespace BullMQ

/-- A child: a process or a worker thread. -/
structure Child where
  processFile : String
  /-- The pid of the process, or the id that the thread has while it runs. -/
  id : ℕ
  /-- Its answer to the `Init` command: `InitCompleted` or not. -/
  init : Option Bool := none
  /-- Whether it has an exit code or a signal code. -/
  exited : Bool := false
  /-- Whether the pool has sent it a signal. -/
  killed : Bool := false
  deriving DecidableEq, Repr

/-- `pid`: a thread that has exited has the id -1, of which the getter takes the absolute value. -/
def Child.pid (useWorkerThreads : Bool) (child : Child) : ℕ :=
  if useWorkerThreads ∧ child.exited then 1 else child.id

/-- What one of the concurrent calls of the sandbox's `process` is doing. -/
inductive Sandbox
  | idle
  /-- In `childPool.retain`, for a child that has just been forked. -/
  | initializing (processFile : String) (child : ℕ)
  | using (processFile : String) (child : ℕ)
  deriving DecidableEq, Repr

namespace Sandbox

/-- The child that a call holds. -/
def child : Sandbox → Option ℕ
  | .idle => none
  | .initializing _ child => some child
  | .using _ child => some child

/-- The file of the processor that a call runs. -/
def processFile : Sandbox → Option String
  | .idle => none
  | .initializing processFile _ => some processFile
  | .using processFile _ => some processFile

end Sandbox

/-- The pool, the children that have ever been forked, by number, and the calls of `process`. -/
structure ChildPool where
  useWorkerThreads : Bool := false
  children : List Child := []
  retained : ℕ → Option ℕ := fun _ => none
  free : String → List ℕ := fun _ => []
  calls : List Sandbox

namespace ChildPool

/-- A pool for a worker with that concurrency. -/
def ofConcurrency (concurrency : ℕ) (useWorkerThreads : Bool) : ChildPool :=
  { useWorkerThreads, calls := List.replicate concurrency .idle }

/-- The key of a child in `this.retained`. -/
def keyOf (p : ChildPool) (child : Child) : ℕ := child.pid p.useWorkerThreads

/-- `this.retained[child.pid] = child`. -/
def retainChild (child : Child) (c : ℕ) (p : ChildPool) : ChildPool :=
  { p with retained := Function.update p.retained (p.keyOf child) (some c) }

/-- `release`. -/
def release (child : Child) (c : ℕ) (p : ChildPool) : ChildPool :=
  { p with
    retained := Function.update p.retained (p.keyOf child) none
    free := Function.update p.free child.processFile (p.free child.processFile ++ [c]) }

/-- `remove`. -/
def remove (child : Child) (c : ℕ) (p : ChildPool) : ChildPool :=
  { p with
    retained := Function.update p.retained (p.keyOf child) none
    free := Function.update p.free child.processFile ((p.free child.processFile).erase c) }

/-- `kill`: the child exits later, if it has not exited yet. -/
def kill (child : Child) (c : ℕ) (p : ChildPool) : ChildPool :=
  { p.remove child c with
    children := p.children.set c { child with killed := child.killed || !child.exited } }

/-- The children that the pool knows: `Object.values(this.retained)`, where a child is under the id
it had when it was retained, and those of `getAllFree`. -/
def Knows (p : ChildPool) (child : Child) (c : ℕ) : Prop :=
  p.retained child.id = some c ∨ c ∈ p.free child.processFile

instance (p : ChildPool) (child : Child) (c : ℕ) : Decidable (p.Knows child c) :=
  inferInstanceAs (Decidable (_ ∨ _))

/-- `clean`. -/
def clean (p : ChildPool) : ChildPool :=
  { p with
    retained := fun _ => none
    free := fun _ => []
    children := p.children.mapIdx fun c child =>
      if p.Knows child c then { child with killed := child.killed || !child.exited } else child }

/-- The beginning of `retain`: a free child, or else a new one, whose `Init` is awaited. -/
def retain (call : ℕ) (processFile : String) (id : ℕ) (p : ChildPool) : ChildPool :=
  match (p.free processFile).getLast? with
  | some c =>
    match p.children[c]? with
    | some child =>
      { p.retainChild child c with
        free := Function.update p.free processFile (p.free processFile).dropLast
        calls := p.calls.set call (.using processFile c) }
    | none => p
  | none =>
    { p with
      children := p.children ++ [{ processFile, id }]
      calls := p.calls.set call (.initializing processFile p.children.length) }

/-- The rest of `retain`, when the child has answered its `Init`. -/
def initialized (call : ℕ) (processFile : String) (c : ℕ) (child : Child) (completed : Bool)
    (p : ChildPool) : ChildPool :=
  let child := { child with init := some completed }
  let p := { p with children := p.children.set c child }
  -- The child may have exited before it could be retained.
  if completed ∧ ¬ child.exited then
    { p.retainChild child c with calls := p.calls.set call (.using processFile c) }
  else { p.kill child c with calls := p.calls.set call .idle }

/-- The end of `process`, when the job has completed or failed or the child has exited. -/
def finish (call : ℕ) (c : ℕ) (child : Child) (p : ChildPool) : ChildPool :=
  let p := { p with calls := p.calls.set call .idle }
  if child.exited then p else p.release child c

/-- The `exit` event of a child, which has then no thread id any more. -/
def exit (c : ℕ) (child : Child) (p : ChildPool) : ChildPool :=
  let child := { child with exited := true }
  { p.remove child c with children := p.children.set c child }

end ChildPool

/-- What can happen. -/
inductive PoolAction
  /-- A call of `process` begins; a child that it forks gets the id. -/
  | process (call : ℕ) (processFile : String) (id : ℕ)
  | initialized (call : ℕ) (completed : Bool)
  | finish (call : ℕ)
  | exit (child : ℕ)
  | clean
  deriving DecidableEq, Repr

/-- One step. -/
def ChildPool.step (p : ChildPool) : PoolAction → Option ChildPool
  | .process call processFile id =>
    if p.calls[call]? = some .idle then some (p.retain call processFile id) else none
  | .initialized call completed =>
    match p.calls[call]? with
    | some (.initializing processFile c) =>
      p.children[c]?.map fun child => p.initialized call processFile c child completed
    | _ => none
  | .finish call =>
    match p.calls[call]? with
    | some (.using _ c) => p.children[c]?.map fun child => p.finish call c child
    | _ => none
  | .exit c =>
    match p.children[c]? with
    | some child => if child.exited then none else some (p.exit c child)
    | none => none
  | .clean => some p.clean

/-- Steps from a pool on, or nothing if one of them cannot happen. -/
def ChildPool.run (actions : List PoolAction) (p : ChildPool) : Option ChildPool :=
  actions.foldlM step p

end BullMQ
