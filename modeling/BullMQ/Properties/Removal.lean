import BullMQ.Flow.Descendants
import BullMQ.Model.Command

/-!
# Removal and locks

`removeJob` looks for locks before it deletes anything, but it looks at fewer jobs than it deletes:
the check follows the pending dependencies, the deletion all four accounts of children.
`removeJob_locks_iff` says when the check is enough.
-/

namespace BullMQ

open Redis

/-- The jobs that a call of `removeJob` is about: the job and, with `removeChildren`, its
descendants. The next job of a job scheduler is not removed at all. -/
def Doomed (s : Store) (p j : String) (removeChildren : Bool) (k : String) : Prop :=
  isJobSchedulerJob p j s = false ∧
    (k = p ++ j ∨ removeChildren = true ∧ Descendant s (p ++ j) k)

/-- No locked job is deleted, and a call that would delete one is refused. -/
structure LocksRespected (p j : String) (removeChildren : Bool) (s : Store)
    (r : Reply × Store) : Prop where
  deleted : ∀ k, s.jobExists k = true → r.2.jobExists k = false → s .lock k = none
  refused : (∃ k, Doomed s p j removeChildren k ∧ s.jobExists k = true ∧
    (s .lock k).isSome = true) → r = (.code 0, s)

/-- If a job that would be deleted is locked, then so is one of those that `isLocked` looks at. -/
def LockVisible (p j : String) (removeChildren : Bool) (s : Store) : Prop :=
  (∃ k, Doomed s p j removeChildren k ∧ s.jobExists k = true ∧ (s .lock k).isSome = true) →
    ∃ k, LockChecked s removeChildren (p ++ j) k ∧ (s .lock k).isSome = true

section RemoveJob

variable {s : Store} {p j : String} {b : Bool} {fuel : ℕ} {r : Reply × Store}

/-- The ends of `removeJob`. -/
theorem Script.removeJob_cases (h : Script.removeJob fuel p j b s = some r) :
    (isJobSchedulerJob p j s = true ∧ r = (.code (-8), s)) ∨
    (isJobSchedulerJob p j s = false ∧ r = (.code 0, s) ∧
      ∃ k, LockChecked s b (p ++ j) k ∧ (s .lock k).isSome = true) ∨
    (isJobSchedulerJob p j s = false ∧
      (¬ ∃ k, LockChecked s b (p ++ j) k ∧ (s .lock k).isSome = true) ∧
      ∃ t, removeJobWithChildren fuel { removeChildren := b } p j none s = some t ∧
        r = (.code 1, t)) := by
  unfold Script.removeJob at h
  split at h
  · next hsched => exact .inl ⟨hsched, by simpa using h.symm⟩
  · next hsched =>
    have hsched : isJobSchedulerJob p j s = false := by simpa using hsched
    obtain ⟨locked, hlocked, h⟩ := Option.bind_eq_some_iff.mp h
    cases locked with
    | true => exact .inr (.inl ⟨hsched, by simpa using h.symm, (isLocked_iff hlocked).mp rfl⟩)
    | false =>
      obtain ⟨t, ht, rfl⟩ := Option.map_eq_some_iff.mp (by simpa using h)
      exact .inr (.inr ⟨hsched, fun hk => absurd ((isLocked_iff hlocked).mpr hk) (by decide),
        t, ht, rfl⟩)

/-- A removal without children deletes one job. -/
theorem removeJobWithChildren_alone {t : Store}
    (h : removeJobWithChildren fuel { removeChildren := false } p j none s = some t) (k : String) :
    t.jobExists k = (s.jobExists k && decide (k ≠ p ++ j)) := by
  cases fuel with
  | zero => cases h
  | succ fuel =>
    simp only [removeJobWithChildren, Bool.false_eq_true, false_and, if_false,
      Option.map_some, Option.some.injEq] at h
    rw [← h, deleteJob_jobExists, removeParentDependencyKey_jobExists]

/-- A call that is not refused deletes exactly the jobs it is about. -/
theorem Script.removeJob_jobExists (h : Script.removeJob fuel p j b s = some r)
    (hr : r.1 = .code 1) (k : String) :
    r.2.jobExists k = true ↔ s.jobExists k = true ∧ ¬ Doomed s p j b k := by
  obtain ⟨-, rfl⟩ | ⟨-, rfl, -⟩ | ⟨hsched, -, t, ht, rfl⟩ := Script.removeJob_cases h
  · cases hr
  · cases hr
  · cases b with
    | false =>
      rw [removeJobWithChildren_alone ht]
      simp [Doomed, hsched]
    | true =>
      obtain ⟨hrem, hgone⟩ := removeJobWithChildren_removed rfl rfl rfl ht
      have hdoomed : Doomed s p j true k ↔ Descendant s (p ++ j) k := by
        constructor
        · rintro ⟨-, rfl | ⟨-, hk⟩⟩
          · exact .refl
          · exact hk
        · exact fun hk => ⟨hsched, .inr ⟨rfl, hk⟩⟩
      rw [hdoomed]
      constructor
      · intro hk
        refine ⟨hrem.exist k hk, fun hd => ?_⟩
        rw [hgone k hd] at hk
        cases hk
      · rintro ⟨hk, hnot⟩
        cases hk' : t.jobExists k with
        | true => rfl
        | false => exact absurd (hrem.only k hk hk') hnot

/-- **Removal and locks.** A call that is not refused deletes exactly the job and, with
`removeChildren`, its descendants; locks are respected exactly if the check can see them; and the
call returns if no descent through the accounts of children goes on for ever. -/
theorem removeJob_locks_iff (p j : String) (b : Bool) (s : Store) :
    (∀ fuel r, Script.removeJob fuel p j b s = some r →
      (r.1 = .code 1 → ∀ k, r.2.jobExists k = true ↔ s.jobExists k = true ∧ ¬ Doomed s p j b k) ∧
      (LocksRespected p j b s r ↔ LockVisible p j b s)) ∧
    (NoEndlessDescent s → ∃ n r, ∀ m, n ≤ m → Script.removeJob m p j b s = some r) := by
  refine ⟨fun fuel r h => ⟨Script.removeJob_jobExists h, ?_⟩,
    fun hs => Script.removeJob_terminates hs p j b⟩
  have hsame : ∀ n : ℤ, ∀ k, s.jobExists k = true →
      (Reply.code n, s).2.jobExists k = false → s .lock k = none := fun n k hk hk' => by
    simp [hk] at hk'
  obtain ⟨hsched, rfl⟩ | ⟨-, rfl, hfound⟩ | ⟨hsched, hnone, t, ht, rfl⟩ := Script.removeJob_cases h
  · have hno : ¬ ∃ k, Doomed s p j b k ∧ s.jobExists k = true ∧ (s .lock k).isSome = true := by
      rintro ⟨k, ⟨hno, -⟩, -⟩
      simp [hsched] at hno
    exact iff_of_true ⟨hsame _, fun hk => absurd hk hno⟩ fun hk => absurd hk hno
  · exact iff_of_true ⟨hsame _, fun _ => rfl⟩ fun _ => hfound
  · have hexact := Script.removeJob_jobExists h rfl
    constructor
    · rintro hrespect ⟨k, hdoomed, hex, hlock⟩
      -- The job is gone, so that its lock contradicts what is respected.
      have hgone : t.jobExists k = false := by
        refine Bool.eq_false_iff.mpr fun hk => ?_
        exact ((hexact k).mp hk).2 hdoomed
      simp [hrespect.deleted k hex hgone] at hlock
    · intro hvisible
      have hno := fun hk => hnone (hvisible hk)
      refine ⟨fun k hk hk' => ?_, fun hk => absurd hk hno⟩
      have hdoomed : Doomed s p j b k := by
        by_contra hnot
        have hstill : t.jobExists k = true := (hexact k).mpr ⟨hk, hnot⟩
        rw [show t.jobExists k = false from hk'] at hstill
        cases hstill
      refine Option.not_isSome_iff_eq_none.mp fun hlock => hno ⟨k, hdoomed, hk, ?_⟩
      exact hlock

end RemoveJob

/-! ### A locked child in `:processed` -/

/-- A parent and its child in another queue. The child is completed, retried in bulk and fetched
again. -/
def retriedChild : List Command :=
  let parent : Parent := { id := "parent", queueKey := "bull:r" }
  [.addParentJob "bull:r:" { customId := "parent", name := "n", data := "", timestamp := 1 },
   .addStandardJob "bull:q:"
     { customId := "c", name := "n", data := "", timestamp := 1, parent := some parent },
   .moveToActive "bull:q:" 2 { token := "t", lockDuration := 30000 },
   .moveToFinished "bull:q:"
     { jobId := "c", timestamp := 3, value := "", target := .completed, fetchNext := false
       opts := { token := "t", lockDuration := 30000 } },
   .moveJobsToWait "bull:q:" (.finished .completed) 10 10,
   .moveToActive "bull:q:" 11 { token := "u", lockDuration := 30000 }]

/-- The store after some of these commands. -/
def retriedChildStore (n : ℕ) : Store := (runCommands (retriedChild.take n) .empty).getD .empty

/-- While the locked child is a pending dependency, the removal of the parent is refused. -/
theorem locked_pending_child_kept :
    ∃ r, Script.removeJob 3 "bull:r:" "parent" true (retriedChildStore 3) = some r ∧
      LocksRespected "bull:r:" "parent" true (retriedChildStore 3) r := by
  have hcode : ((Script.removeJob 3 "bull:r:" "parent" true (retriedChildStore 3)).map
      Prod.fst) = some (.code 0) := by decide +kernel
  obtain ⟨r, hr, -⟩ := Option.map_eq_some_iff.mp hcode
  refine ⟨r, hr, (((removeJob_locks_iff "bull:r:" "parent" true _).1 3 r hr).2).mpr fun _ => ?_⟩
  have hpending : IsPendingChildOf (retriedChildStore 3) ("bull:r:" ++ "parent") "bull:q:c" := by
    unfold IsPendingChildOf
    decide +kernel
  exact ⟨"bull:q:c", .inr ⟨rfl, .single hpending⟩, by decide +kernel⟩

/-- The parent is removed with its children and the locked child is deleted under its worker. -/
theorem locked_child_deleted :
    runCommands retriedChild .empty = some (retriedChildStore 6) ∧
    retriedChildStore 6 .lock "bull:q:c" = some "u" ∧
    (retriedChildStore 6).jobExists "bull:q:c" = true ∧
    ∃ t, Script.removeJob 3 "bull:r:" "parent" true (retriedChildStore 6) = some (.code 1, t) ∧
      t.jobExists "bull:q:c" = false ∧
      ¬ LocksRespected "bull:r:" "parent" true (retriedChildStore 6) (.code 1, t) := by
  have hlock : retriedChildStore 6 .lock "bull:q:c" = some "u" := by decide +kernel
  have hex : (retriedChildStore 6).jobExists "bull:q:c" = true := by decide +kernel
  have hgone : (((Script.removeJob 3 "bull:r:" "parent" true (retriedChildStore 6)).map
      fun r => r.2.jobExists "bull:q:c") = some false) := by decide +kernel
  have hcode : ((Script.removeJob 3 "bull:r:" "parent" true (retriedChildStore 6)).map
      Prod.fst) = some (.code 1) := by decide +kernel
  obtain ⟨r, hr, hr'⟩ := Option.map_eq_some_iff.mp hgone
  obtain ⟨r', hr₁, hr₂⟩ := Option.map_eq_some_iff.mp hcode
  obtain rfl : r = r' := Option.some.inj (hr.symm.trans hr₁)
  obtain ⟨reply, t⟩ := r
  obtain rfl : reply = .code 1 := hr₂
  refine ⟨rfl, hlock, hex, t, hr, hr', fun h => ?_⟩
  have hnone := h.deleted "bull:q:c" hex hr'
  rw [hlock] at hnone
  cases hnone

end BullMQ
