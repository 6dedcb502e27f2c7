import BullMQ.Model.Command
import BullMQ.Redis.Order

/-!
# Jobs that are pushed back

A prioritized job that is pushed back gets the lowest score of its priority, so that it comes before
the jobs that were added with this priority. It comes before the ones that were pushed back earlier
only where its id is smaller than theirs: their scores are the same (`goesToFront_iff`).
-/

namespace BullMQ

open Redis

/-- The priority that a score is packed with. -/
def priorityOfScore (score : ℤ) : ℤ := score / 0x100000000

theorem priorityOfScore_pushedBack (n : ℤ) : priorityOfScore (n * 0x100000000) = n := by
  simp only [priorityOfScore]
  omega

/-- A job is popped before every other job of a priority. -/
def FirstOfPriority (z : ZSet) (priority : ℤ) (jobId : String) : Prop :=
  ∀ i ∈ z, i ≠ jobId → (z.zscore i).map priorityOfScore = some priority → Before z.members jobId i

/-- A job goes to the front of its priority, and the others keep their order. -/
def GoesToFront (z z' : ZSet) (priority : ℤ) (jobId : String) : Prop :=
  FirstOfPriority z' priority jobId ∧
    z'.members.filter (· ≠ jobId) = z.members.filter (· ≠ jobId)

/-- The jobs with the lowest score of a priority, which is what earlier push-backs gave them. -/
def LowestAfter (z : ZSet) (priority : ℤ) (jobId : String) : Prop :=
  ∀ i ∈ z, i ≠ jobId → z.zscore i = some (priority * 0x100000000) → jobId < i

instance (z : ZSet) (n : ℤ) (j : String) : Decidable (LowestAfter z n j) :=
  inferInstanceAs (Decidable (∀ i ∈ z.members, i ≠ j → z.zscore i = some (n * 0x100000000) → j < i))

theorem goesToFront_zadd_iff (z : ZSet) (n : ℤ) (j : String) :
    GoesToFront z (z.zadd (n * 0x100000000) j) n j ↔ LowestAfter z n j := by
  have hj : (z.zadd (n * 0x100000000) j).zscore j = some (n * 0x100000000) := by
    rw [SortedSet.zscore_zadd, if_pos rfl]
  have hother : ∀ {i}, i ≠ j → (z.zadd (n * 0x100000000) j).zscore i = z.zscore i := fun hne => by
    rw [SortedSet.zscore_zadd, if_neg hne]
  constructor
  · rintro ⟨hfirst, -⟩ i hi hne hscore
    have hscore' := (hother hne).trans hscore
    have hbefore := hfirst i (SortedSet.mem_zadd.mpr (.inr hi)) hne (by
      rw [hscore', Option.map_some, priorityOfScore_pushedBack])
    obtain hlt | ⟨-, hlt⟩ :=
      Prod.Lex.toLex_lt_toLex.mp ((SortedSet.before_iff hj hscore').mp hbefore)
    · exact absurd hlt (lt_irrefl _)
    · exact hlt
  · intro hlow
    refine ⟨fun i hi hne hprio => ?_, SortedSet.members_zadd_filter _ _ _⟩
    obtain ⟨k, hk⟩ := SortedSet.exists_zscore hi
    rw [hk, Option.map_some, Option.some.injEq, priorityOfScore] at hprio
    have hkz : z.zscore i = some k := (hother hne).symm.trans hk
    refine (SortedSet.before_iff hj hk).mpr (Prod.Lex.toLex_lt_toLex.mpr ?_)
    -- The lowest score of the priority is below `k`, or is `k`.
    obtain hlt | heq : n * 0x100000000 < k ∨ n * 0x100000000 = k := by omega
    · exact .inl hlt
    · exact .inr ⟨heq, hlow i (SortedSet.mem_of_zscore hkz) hne (by rw [hkz, heq])⟩

/-! ### The scripts that push back -/

/-- The calls that push a job back with a priority. -/
inductive PushesBack (s : Store) (p j : String) : ℤ → Command → Prop
  | moveJobFromActiveToWait {token : String} (exist : s.jobExists (p ++ j) = true)
      (release : MayRelease s p j token) (active : j ∈ s (.list .active) p)
      (prioritized : 0 < s.priorityOf (p ++ j)) :
      PushesBack s p j (s.priorityOf (p ++ j)) (.moveJobFromActiveToWait p j token)
  | changePriority {priority : ℤ} (exist : s.jobExists (p ++ j) = true) (prioritized : priority ≠ 0)
      (waiting : j ∈ s (.zset .prioritized) p ∨ j ∈ s (.list .wait) p) :
      PushesBack s p j priority (.changePriority p priority j true)

/-- A job that is pushed back is given the lowest score of its priority. -/
theorem PushesBack.zadd {s s' : Store} {p j : String} {n : ℤ} {c : Command} {r : Reply}
    (h : PushesBack s p j n c) (hexec : c.exec s = some (r, s')) :
    s' (.zset .prioritized) p = (s (.zset .prioritized) p).zadd (n * 0x100000000) j := by
  cases h with
  | @moveJobFromActiveToWait token exist release active prioritized =>
    obtain rfl := congrArg Prod.snd (Option.some.inj hexec)
    obtain ⟨hno, -⟩ | ⟨⟨-, -, hnot⟩, -⟩ | ⟨-, n, hres⟩ :=
      Script.moveJobFromActiveToWait_cases p j token s
    · exact absurd ⟨exist, release, active⟩ hno
    · exact absurd active hnot
    · generalize hleft : Keyspace.modify (removeLock p j token s).2 (.list .active) p (lremLeft j) =
        s₁ at hres
      have hframe : ∀ {κ : Kind}, κ ∉ [Kind.lock, .stalled, .list .active] → s₁ κ = s κ := by
        intro κ hκ
        have hne : κ ≠ .list .active := by
          rintro rfl
          exact hκ (by decide)
        rw [← hleft, Keyspace.modify_of_ne _ hne,
          removeLock_frame _ _ _ _ (Kind.notMem_mono hκ (by decide))]
      have hprio : Store.priorityOf s₁ (p ++ j) = s.priorityOf (p ++ j) := by
        rw [Store.priorityOf, hframe (by decide), ← Store.priorityOf]
      rw [hres]
      simp only [pushBackJob, hprio, prioritized, if_true]
      rw [Store.xadd_of_ne _ _ _ (by decide), getOrSetMaxEvents_frame _ _ (by decide),
        pushBackJobWithPriority, Keyspace.modify_self, Function.update_self, hframe (by decide)]
  | @changePriority priority exist prioritized waiting =>
    obtain rfl := congrArg Prod.snd (Option.some.inj hexec)
    simp only [Script.changePriority, exist, not_true_eq_false, if_false, reAddJobWithNewPriority,
      prioritized, if_true]
    rw [Store.hset_of_ne _ _ _ (by decide)]
    by_cases hin : j ∈ s (.zset .prioritized) p
    · rw [if_pos hin, pushBackJobWithPriority, Keyspace.modify_self, Function.update_self,
        Keyspace.modify_self, Function.update_self, SortedSet.zadd_zrem]
    · rw [if_neg hin, if_pos (waiting.resolve_left hin), pushBackJobWithPriority,
        Keyspace.modify_self, Function.update_self, Keyspace.modify_of_ne _ (by decide)]

/-- **A job that is pushed back goes to the front of its priority** exactly when the jobs that have
the lowest score of the priority have larger ids. -/
theorem goesToFront_iff {s s' : Store} {p j : String} {n : ℤ} {c : Command} {r : Reply}
    (hpush : PushesBack s p j n c) (hexec : c.exec s = some (r, s')) :
    GoesToFront (s (.zset .prioritized) p) (s' (.zset .prioritized) p) n j ↔
      LowestAfter (s (.zset .prioritized) p) n j := by
  rw [hpush.zadd hexec]
  exact goesToFront_zadd_iff _ n j

/-! ### Two jobs pushed back -/

/-- A queue with the jobs `a`, `b` and `c` of priority 5, of which the first two were fetched. -/
def fetchedQueue : Store :=
  let job (id : String) : AddArgs :=
    { customId := id, name := "n", data := "d", timestamp := 0, opts := { priority := 5 } }
  let fetch (s : Store) : Store :=
    (Script.moveToActive "bull:q:" 0 { token := "t", lockDuration := 1000 } s).2
  let s := (Script.addPrioritizedJob "bull:q:" (job "a") .empty).2
  let s := (Script.addPrioritizedJob "bull:q:" (job "b") s).2
  let s := (Script.addPrioritizedJob "bull:q:" (job "c") s).2
  fetch (fetch s)

/-- The queue after the job `a` was pushed back. -/
def pushedQueue : Store := (Script.moveJobFromActiveToWait "bull:q:" "a" "t" fetchedQueue).2

theorem pushesBack_a :
    PushesBack fetchedQueue "bull:q:" "a" 5 (.moveJobFromActiveToWait "bull:q:" "a" "t") :=
  .moveJobFromActiveToWait (by decide +kernel) (.inr (by decide +kernel)) (by decide +kernel)
    (by decide +kernel)

theorem pushesBack_b :
    PushesBack pushedQueue "bull:q:" "b" 5 (.moveJobFromActiveToWait "bull:q:" "b" "t") :=
  .moveJobFromActiveToWait (by decide +kernel) (.inr (by decide +kernel)) (by decide +kernel)
    (by decide +kernel)

/-- The first job that is pushed back goes to the front. -/
theorem first_goes_to_front :
    GoesToFront (fetchedQueue (.zset .prioritized) "bull:q:")
      (pushedQueue (.zset .prioritized) "bull:q:") 5 "a" :=
  (goesToFront_iff pushesBack_a rfl).mpr (by decide +kernel)

/-- The queue after the job `b` was pushed back as well. -/
def pushedTwice : Store := (Script.moveJobFromActiveToWait "bull:q:" "b" "t" pushedQueue).2

/-- The second one does not: `a`, pushed back before it, is popped first. -/
theorem second_stays_behind :
    PushesBack pushedQueue "bull:q:" "b" 5 (.moveJobFromActiveToWait "bull:q:" "b" "t") ∧
      (pushedTwice (.zset .prioritized) "bull:q:").members = ["a", "b", "c"] ∧
      ¬ GoesToFront (pushedQueue (.zset .prioritized) "bull:q:")
        (pushedTwice (.zset .prioritized) "bull:q:") 5 "b" := by
  have hmembers : (pushedTwice (.zset .prioritized) "bull:q:").members = ["a", "b", "c"] := by
    decide +kernel
  refine ⟨pushesBack_b, hmembers, fun h => ?_⟩
  have hbefore := h.1 "a" (by decide +kernel) (by decide) (by decide +kernel)
  rw [hmembers] at hbefore
  exact absurd hbefore (by unfold Before; decide)

end BullMQ
