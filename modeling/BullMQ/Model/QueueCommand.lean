import BullMQ.Model.Command
import BullMQ.Model.Scheduler

/-!
# Commands on whole queues

`QueueCommand` adds to the job scripts those that clean up a queue and those of job schedulers, and
the expiry of deduplication keys. Runs of them are defined as for `Command`.
-/

namespace BullMQ

open Redis

/-- A job script or a script about a queue. -/
inductive QueueCommand
  | job (c : Command)
  | addJobScheduler (p : String) (a : UpsertArgs)
  | updateJobScheduler (p : String) (a : IterateArgs)
  | cleanJobsInSet (p : String) (timestamp limit : ℤ) (state : CleanState)
  | drain (p : String) (delayed : Bool)
  | obliterate (p : String) (count : ℤ) (force : Bool)
  /-- `fuel` bounds the depth of the recursion over children. -/
  | removeUnprocessedChildren (fuel : ℕ) (p jobId : String)
  | expireDeduplicationKey (p deduplicationId : String)
  /-- Some milliseconds of a deduplication key's time to live pass. -/
  | elapseDeduplicationKey (p deduplicationId : String) (ms : ℕ)

/-- A deduplication key with a time to live expires. -/
def expireDeduplicationKey (p deduplicationId : String) (s : Store) : Store :=
  if ((s .de (deduplicationKey p deduplicationId)).bind DeduplicationKey.pttl).isSome then
    s.set .de (deduplicationKey p deduplicationId) none
  else s

/-- Time passes for a deduplication key that does not expire meanwhile. -/
def elapseDeduplicationKey (p deduplicationId : String) (ms : ℕ) (s : Store) : Store :=
  s.modify .de (deduplicationKey p deduplicationId) fun key =>
    key.map fun key => { key with pttl := key.pttl.map (· - ms) }

/-- Execute a command. -/
def QueueCommand.exec : QueueCommand → Store → Option (Reply × Store)
  | job c, s => c.exec s
  | addJobScheduler p a, s => some (Script.addJobScheduler p a s)
  | updateJobScheduler p a, s => some (Script.updateJobScheduler p a s)
  | cleanJobsInSet p t l st, s => some (Script.cleanJobsInSet p t l st s)
  | drain p b, s => some (Script.drain p b s)
  | obliterate p n b, s => some (Script.obliterate p n b s)
  | removeUnprocessedChildren n p j, s => Script.removeUnprocessedChildren n p j s
  | expireDeduplicationKey p d, s => some (.code 0, BullMQ.expireDeduplicationKey p d s)
  | elapseDeduplicationKey p d ms, s => some (.code 0, BullMQ.elapseDeduplicationKey p d ms s)

/-- The families a command may write. -/
def QueueCommand.writes : QueueCommand → List Kind
  | job c => c.writes
  | addJobScheduler .. => iterateWrites ++ sweepWrites
  | updateJobScheduler .. => iterateWrites
  | cleanJobsInSet .. => .events :: sweepWrites
  | drain .. => sweepWrites
  | obliterate .. => Script.obliterateWrites
  | removeUnprocessedChildren .. => deleteWrites
  | expireDeduplicationKey .. | elapseDeduplicationKey .. => [.de]

/-- **The frame of a command**: a family it does not write is as it was. -/
theorem QueueCommand.exec_frame {c : QueueCommand} {s : Store} {r : Reply × Store}
    (h : c.exec s = some r) {κ : Kind} (hκ : κ ∉ c.writes) : r.2 κ = s κ := by
  cases c with
  | job c => exact Command.exec_frame h hκ
  | addJobScheduler p a =>
    cases h
    exact Script.addJobScheduler_frame p a s (Kind.notMem_mono hκ
      (by decide : iterateWrites ++ pendingWrites ⊆ iterateWrites ++ sweepWrites))
  | updateJobScheduler p a => cases h; exact Script.updateJobScheduler_frame p a s hκ
  | cleanJobsInSet p t l st => cases h; exact Script.cleanJobsInSet_frame p t l st s hκ
  | drain p b => cases h; exact Script.drain_frame p b s hκ
  | obliterate p n b => cases h; exact Script.obliterate_frame p n b s hκ
  | removeUnprocessedChildren n p j => exact Script.removeUnprocessedChildren_frame h hκ
  | expireDeduplicationKey p d =>
    cases h
    simp only [writes, List.mem_singleton] at hκ
    simp only [BullMQ.expireDeduplicationKey]
    split
    · exact Keyspace.set_of_ne _ hκ ..
    · rfl
  | elapseDeduplicationKey p d ms =>
    cases h
    exact Keyspace.modify_of_ne _ (by simpa [writes] using hκ) ..

/-- One command, out of those that are allowed in a state. -/
def QueueStep (Allowed : Store → QueueCommand → Prop) (s : Store) (c : QueueCommand)
    (s' : Store) : Prop :=
  Allowed s c ∧ ∃ reply, c.exec s = some (reply, s')

theorem QueueStep.intro {Allowed : Store → QueueCommand → Prop} {s : Store} {c : QueueCommand}
    (hc : Allowed s c) {r : Reply × Store} (hexec : c.exec s = some r) :
    QueueStep Allowed s c r.2 :=
  ⟨hc, r.1, hexec⟩

/-- A state that a run of allowed commands leads to. -/
def QueueReachable (Allowed : Store → QueueCommand → Prop) (s₀ s : Store) : Prop :=
  ∃ steps, Transition.Run (QueueStep Allowed) s₀ steps s

theorem QueueReachable.refl {Allowed : Store → QueueCommand → Prop} (s : Store) :
    QueueReachable Allowed s s :=
  ⟨[], .nil⟩

theorem QueueReachable.step {Allowed : Store → QueueCommand → Prop} {s₀ s : Store}
    (h : QueueReachable Allowed s₀ s) {c : QueueCommand} (hc : Allowed s c) {r : Reply × Store}
    (hexec : c.exec s = some r) : QueueReachable Allowed s₀ r.2 := by
  obtain ⟨steps, run⟩ := h
  exact ⟨_, run.snoc ⟨hc, r.1, hexec⟩⟩

/-- Execute commands one after the other. -/
def runQueue (cs : List QueueCommand) (s : Store) : Option Store :=
  cs.foldlM (fun s c => (c.exec s).map Prod.snd) s

theorem QueueReachable.of_runQueue {Allowed : Store → QueueCommand → Prop} {cs : List QueueCommand}
    {s₀ s t : Store} (h₀ : QueueReachable Allowed s₀ s) (hcs : ∀ c ∈ cs, ∀ s, Allowed s c)
    (h : runQueue cs s = some t) : QueueReachable Allowed s₀ t := by
  induction cs generalizing s with
  | nil =>
    obtain rfl : s = t := by simpa [runQueue] using h
    exact h₀
  | cons c cs ih =>
    obtain ⟨s₁, h₁, h₂⟩ : ∃ s₁, (c.exec s).map Prod.snd = some s₁ ∧ runQueue cs s₁ = some t := by
      simpa [runQueue, Option.bind_eq_some_iff] using h
    obtain ⟨r, hr, rfl⟩ := Option.map_eq_some_iff.mp h₁
    exact ih (h₀.step (hcs c (by simp) s) hr) (fun c' hc' => hcs c' (by simp [hc'])) h₂

end BullMQ
