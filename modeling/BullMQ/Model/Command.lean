import BullMQ.Transition.Run
import BullMQ.Model.Add
import BullMQ.Model.Maintain

/-!
# Commands

`Command` collects the scripts about single jobs and about pausing and limiting a queue, together
with what else can happen to the keyspace between two of them: a key with a time to live expires,
time passes for the rate limiter, Redis enumerates a set or a hash in another order. The scripts of
job schedulers and those that clean up a queue are in `QueueCommand`. Redis executes scripts one at
a time, so that any interleaving of any number of clients is a sequence of commands; `Step` is one
of them and a run is a `Transition.Run` of it.
-/

namespace BullMQ

open Redis

/-- A job script, or a change of the keyspace between two scripts. -/
inductive Command
  | addStandardJob (p : String) (a : AddArgs)
  | addDelayedJob (p : String) (a : AddArgs)
  | addPrioritizedJob (p : String) (a : AddArgs)
  | addParentJob (p : String) (a : AddArgs)
  | moveToActive (p : String) (timestamp : ℤ) (opts : FetchOpts)
  | moveToFinished (p : String) (a : FinishArgs)
  | moveToDelayed (p : String) (a : DelayArgs)
  | moveToWaitingChildren (p jobId token childKey : String) (timestamp : ℤ)
  | retryJob (p : String) (a : RetryArgs)
  | moveJobFromActiveToWait (p jobId token : String)
  | extendLock (p token : String) (duration : ℤ) (jobId : String)
  | extendLocks (p : String) (locks : List (String × String)) (duration : ℤ)
  | moveStalledJobsToWait (p : String) (maxStalledJobCount timestamp maxCheckTime : ℤ)
  | promote (p jobId : String)
  | changeDelay (p : String) (delay timestamp : ℤ) (jobId : String)
  | changePriority (p : String) (priority : ℤ) (jobId : String) (lifo : Bool)
  | reprocessJob (p : String) (a : ReprocessArgs)
  | moveJobsToWait (p : String) (state : BulkState) (maxCount timestamp : ℤ)
  | pause (p : String) (paused emitEvent : Bool)
  /-- `fuel` bounds the depth of the recursion over children. -/
  | removeJob (fuel : ℕ) (p jobId : String) (shouldRemoveChildren : Bool)
  | removeChildDependency (jobKey parentKey : String)
  | setRateLimit (p : String) (expireTimeMs : ℤ)
  | expireLock (jobKey : String)
  | expireStalledCheck (p : String)
  | expireLimiter (p : String)
  /-- Some milliseconds of the rate limiter's time to live pass. -/
  | elapseLimiter (p : String) (ms : ℕ)
  | reorderStalled (p : String) (listing : MemberSet String)
  | reorderDependencies (jobKey : String) (listing : MemberSet String)
  | reorderProcessed (jobKey : String) (listing : Hash)
  | reorderFailedChildren (jobKey : String) (listing : Hash)

/-! ### The environment -/

/-- `setRateLimit`, the manual rate limit: `SET limiter MAX_SAFE_INTEGER PX expireTimeMs`. -/
def setRateLimit (p : String) (expireTimeMs : ℤ) (s : Store) : Reply × Store :=
  if 0 < expireTimeMs then
    (.code 0, s.set .limiter p (some ⟨2 ^ 53 - 1, some expireTimeMs.toNat⟩))
  else (.error, s)

/-- A rate limiter with a time to live expires. -/
def expireLimiter (p : String) (s : Store) : Store :=
  if ((s .limiter p).bind Limiter.pttl).isSome then s.set .limiter p none else s

/-- Time passes for a rate limiter that does not expire meanwhile. -/
def elapseLimiter (p : String) (ms : ℕ) (s : Store) : Store :=
  s.modify .limiter p fun l => l.map fun l => { l with pttl := l.pttl.map (· - ms) }

/-- Another listing of the same set. -/
def reorderSet (m m' : MemberSet String) : MemberSet String :=
  if m.members.Perm m'.members then m' else m

/-- Another listing of the same hash. -/
def reorderHash (h h' : Hash) : Hash := if h.entries.Perm h'.entries then h' else h

theorem mem_reorderSet {m m' : MemberSet String} {a : String} : a ∈ reorderSet m m' ↔ a ∈ m := by
  unfold reorderSet
  split
  · next h => exact h.symm.mem_iff
  · rfl

theorem mem_reorderHash {h h' : Hash} {a : String} : a ∈ reorderHash h h' ↔ a ∈ h := by
  unfold reorderHash
  split
  · next hp => exact (hp.symm.map Sigma.fst).mem_iff
  · rfl

/-- Execute a command. The result is `none` only where the fuel of a removal runs out. -/
def Command.exec : Command → Store → Option (Reply × Store)
  | addStandardJob p a, s => some (Script.addStandardJob p a s)
  | addDelayedJob p a, s => some (Script.addDelayedJob p a s)
  | addPrioritizedJob p a, s => some (Script.addPrioritizedJob p a s)
  | addParentJob p a, s => some (Script.addParentJob p a s)
  | moveToActive p t o, s => some (Script.moveToActive p t o s)
  | moveToFinished p a, s => some (Script.moveToFinished p a s)
  | moveToDelayed p a, s => some (Script.moveToDelayed p a s)
  | moveToWaitingChildren p j t c ts, s => some (Script.moveToWaitingChildren p j t c ts s)
  | retryJob p a, s => some (Script.retryJob p a s)
  | moveJobFromActiveToWait p j t, s => some (Script.moveJobFromActiveToWait p j t s)
  | extendLock p t d j, s => some (Script.extendLock p t d j s)
  | extendLocks p l d, s => some (Script.extendLocks p l d s)
  | moveStalledJobsToWait p m t c, s => some (Script.moveStalledJobsToWait p m t c s)
  | promote p j, s => some (Script.promote p j s)
  | changeDelay p d t j, s => some (Script.changeDelay p d t j s)
  | changePriority p n j l, s => some (Script.changePriority p n j l s)
  | reprocessJob p a, s => some (Script.reprocessJob p a s)
  | moveJobsToWait p st m t, s => some (Script.moveJobsToWait p st m t s)
  | pause p b e, s => some (Script.pause p b e s)
  | removeJob n p j b, s => Script.removeJob n p j b s
  | removeChildDependency k k', s => some (Script.removeChildDependency k k' s)
  | setRateLimit p ms, s => some (BullMQ.setRateLimit p ms s)
  | expireLock k, s => some (.code 0, s.set .lock k none)
  | expireStalledCheck p, s => some (.code 0, s.set .stalledCheck p none)
  | expireLimiter p, s => some (.code 0, BullMQ.expireLimiter p s)
  | elapseLimiter p ms, s => some (.code 0, BullMQ.elapseLimiter p ms s)
  | reorderStalled p m, s => some (.code 0, s.modify .stalled p (reorderSet · m))
  | reorderDependencies k m, s => some (.code 0, s.modify .dependencies k (reorderSet · m))
  | reorderProcessed k h, s => some (.code 0, s.modify .processed k (reorderHash · h))
  | reorderFailedChildren k h, s => some (.code 0, s.modify .failedChildren k (reorderHash · h))

/-! ### What a command writes -/

/-- The families a command may write. -/
def Command.writes : Command → List Kind
  | addStandardJob .. | addDelayedJob .. | addPrioritizedJob .. | addParentJob .. => addWrites
  | moveToActive .. => fetchWrites
  | moveToFinished .. => [.lock, .stalled, .hash, .list .active] ++ finishWrites ++ fetchWrites
  | moveToDelayed .. =>
    [.lock, .stalled, .hash, .list .active, .metaMaxLenEvents] ++ fetchWrites
  | moveToWaitingChildren .. =>
    [.lock, .stalled, .hash, .list .active, .zset .waitingChildren, .events]
  | retryJob .. => [.lock, .stalled, .list .active, .metaMaxLenEvents] ++ promotionWrites
  | moveJobFromActiveToWait .. =>
    [.lock, .stalled, .list .active, .list .wait, .marker, .zset .prioritized, .metaMaxLenEvents,
      .events]
  | extendLock .. | extendLocks .. => [.lock, .stalled]
  | moveStalledJobsToWait .. => stalledWrites
  | promote .. => promotionWrites
  | changeDelay .. => [.hash, .zset .delayed, .metaMaxLenEvents, .events, .marker]
  | changePriority .. => [.hash, .list .wait, .zset .prioritized, .pc, .marker]
  | reprocessJob .. => reprocessWrites
  | moveJobsToWait .. => bulkWrites
  | pause .. => [.metaPaused, .marker, .list .wait, .list .paused, .events]
  | removeJob .. => deleteWrites
  | removeChildDependency .. => .hash :: unlinkWrites
  | setRateLimit .. | expireLimiter .. | elapseLimiter .. => [.limiter]
  | expireLock .. => [.lock]
  | expireStalledCheck .. => [.stalledCheck]
  | reorderStalled .. => [.stalled]
  | reorderDependencies .. => [.dependencies]
  | reorderProcessed .. => [.processed]
  | reorderFailedChildren .. => [.failedChildren]

/-- **The frame of a command**: a family it does not write is as it was. -/
theorem Command.exec_frame {c : Command} {s : Store} {r : Reply × Store}
    (h : c.exec s = some r) {κ : Kind} (hκ : κ ∉ c.writes) : r.2 κ = s κ := by
  cases c with
  | removeJob n p j b => exact Script.removeJob_frame h hκ
  | addStandardJob p a => cases h; exact addJobWith_frame (standardMode_framed p) p a s hκ
  | addDelayedJob p a => cases h; exact addJobWith_frame (delayedMode_framed p) p a s hκ
  | addPrioritizedJob p a => cases h; exact addJobWith_frame (prioritizedMode_framed p) p a s hκ
  | addParentJob p a => cases h; exact addJobWith_frame (parentMode_framed p) p a s hκ
  | moveToActive p t o => cases h; exact Script.moveToActive_frame p t o s hκ
  | moveToFinished p a => cases h; exact Script.moveToFinished_frame p a s hκ
  | moveToDelayed p a => cases h; exact Script.moveToDelayed_frame p a s hκ
  | moveToWaitingChildren p j t c ts =>
    cases h; exact Script.moveToWaitingChildren_frame p j t c ts s hκ
  | retryJob p a => cases h; exact Script.retryJob_frame p a s hκ
  | moveJobFromActiveToWait p j t => cases h; exact Script.moveJobFromActiveToWait_frame p j t s hκ
  | extendLock p t d j => cases h; exact Script.extendLock_frame p t d j s hκ
  | extendLocks p l d => cases h; exact Script.extendLocks_frame p l d s hκ
  | moveStalledJobsToWait p m t c =>
    cases h; exact Script.moveStalledJobsToWait_frame p m t c s hκ
  | promote p j => cases h; exact Script.promote_frame p j s hκ
  | changeDelay p d t j => cases h; exact Script.changeDelay_frame p d t j s hκ
  | changePriority p n j l => cases h; exact Script.changePriority_frame p n j l s hκ
  | reprocessJob p a => cases h; exact Script.reprocessJob_frame p a s hκ
  | moveJobsToWait p st m t => cases h; exact Script.moveJobsToWait_frame p st m t s hκ
  | pause p b e => cases h; exact Script.pause_frame p b e s hκ
  | removeChildDependency k k' => cases h; exact Script.removeChildDependency_frame k k' s hκ
  | setRateLimit p ms =>
    cases h
    simp only [writes, List.mem_singleton] at hκ
    simp only [BullMQ.setRateLimit]
    split
    · exact Keyspace.set_of_ne _ hκ ..
    · rfl
  | expireLimiter p =>
    cases h
    simp only [writes, List.mem_singleton] at hκ
    simp only [BullMQ.expireLimiter]
    split
    · exact Keyspace.set_of_ne _ hκ ..
    · rfl
  | elapseLimiter p ms => cases h; exact Keyspace.modify_of_ne _ (by simpa [writes] using hκ) ..
  | expireLock k => cases h; exact Keyspace.set_of_ne _ (by simpa [writes] using hκ) ..
  | expireStalledCheck p => cases h; exact Keyspace.set_of_ne _ (by simpa [writes] using hκ) ..
  | reorderStalled p m => cases h; exact Keyspace.modify_of_ne _ (by simpa [writes] using hκ) ..
  | reorderDependencies k m =>
    cases h; exact Keyspace.modify_of_ne _ (by simpa [writes] using hκ) ..
  | reorderProcessed k m => cases h; exact Keyspace.modify_of_ne _ (by simpa [writes] using hκ) ..
  | reorderFailedChildren k m =>
    cases h; exact Keyspace.modify_of_ne _ (by simpa [writes] using hκ) ..

/-! ### Runs -/

/-- One command, out of those that are allowed in a state. -/
def Step (Allowed : Store → Command → Prop) (s : Store) (c : Command) (s' : Store) : Prop :=
  Allowed s c ∧ ∃ reply, c.exec s = some (reply, s')

/-- A state that a run of allowed commands leads to. -/
def Reachable (Allowed : Store → Command → Prop) (s₀ s : Store) : Prop :=
  ∃ steps, Transition.Run (Step Allowed) s₀ steps s

theorem Reachable.refl {Allowed : Store → Command → Prop} (s : Store) : Reachable Allowed s s :=
  ⟨[], .nil⟩

theorem Reachable.step {Allowed : Store → Command → Prop} {s₀ s : Store}
    (h : Reachable Allowed s₀ s) {c : Command} (hc : Allowed s c) {r : Reply × Store}
    (hexec : c.exec s = some r) : Reachable Allowed s₀ r.2 := by
  obtain ⟨steps, run⟩ := h
  exact ⟨_, run.snoc ⟨hc, r.1, hexec⟩⟩

/-- Execute commands one after the other. -/
def runCommands (cs : List Command) (s : Store) : Option Store :=
  cs.foldlM (fun s c => (c.exec s).map Prod.snd) s

end BullMQ
