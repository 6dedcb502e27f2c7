import BullMQ.Model.Activation

/-!
# Global concurrency

A queue whose `meta` hash holds a global concurrency never has more active jobs than that: a
command takes ids off an active list before it pushes one, and it pushes only to a list it found
shorter than the bound (`Command.exec_active`).
-/

namespace BullMQ

open Redis

/-- The global concurrency of the queue `p` is `c` and its active list is within it. -/
structure Bounded (p : String) (c : ℤ) (s : Store) : Prop where
  concurrency : s .metaConcurrency p = some c
  active : (s (.list .active) p).length ≤ c

variable {p : String} {c : ℤ} {s : Store}

theorem Bounded.not_maxed (h : Bounded p c s) (hmax : isQueuePausedOrMaxed p s = false) :
    (s (.list .active) p).length < c := by
  unfold isQueuePausedOrMaxed at hmax
  split at hmax
  · cases hmax
  · rw [h.concurrency] at hmax
    simpa using hmax

/-- The step lemma: every command keeps the bound. -/
theorem Bounded.exec {cmd : Command} {r : Reply × Store} (h : Bounded p c s)
    (hexec : cmd.exec s = some r) : Bounded p c r.2 := by
  have hmeta : Kind.metaConcurrency ∉ cmd.writes := by
    cases cmd <;> simp only [Command.writes] <;> decide
  refine ⟨by rw [Command.exec_frame hexec hmeta, h.concurrency], ?_⟩
  obtain ⟨s₁, hshr, hact, hmax⟩ := Command.exec_active hexec p
  -- The list has shrunk within the bound before anything is pushed.
  have h₁ : Bounded p c s₁ := by
    refine ⟨by rw [hshr.concurrency, h.concurrency], le_trans ?_ h.active⟩
    exact_mod_cast (hshr.active p).length_le
  rw [hact]
  rcases hpop : cmd.activates s p with _ | j
  · exact h₁.active
  · have hlt := h₁.not_maxed (hmax (by simp [hpop]))
    simp only [Option.toList_some, List.singleton_append, List.length_cons]
    omega

/-- **Global concurrency.** Whatever the commands and their order, the active list of a queue
with the global concurrency `c` that starts empty never holds more than `c` ids. -/
theorem active_length_le_concurrency {p : String} {c : ℤ} (hc : 1 ≤ c) {s₀ s : Store}
    (hconc : s₀ .metaConcurrency p = some c) (hempty : s₀ (.list .active) p = [])
    (h : Reachable (fun _ _ => True) s₀ s) : (s (.list .active) p).length ≤ c := by
  obtain ⟨steps, run⟩ := h
  have h₀ : Bounded p c s₀ := ⟨hconc, by rw [hempty]; exact le_trans (by decide) hc⟩
  exact (run.invariant h₀ fun _ _ _ ht ⟨_, _, hexec⟩ => ht.exec hexec).active

/-- A queue with global concurrency one. -/
def serialQueue : Store := Store.empty.set .metaConcurrency "bull:q:" (some 1)

/-- The commands of a worker that tries to fetch twice. -/
def twoFetches : Store :=
  let opts : FetchOpts := { token := "t", lockDuration := 30000 }
  let a : AddArgs := { name := "n", data := "", timestamp := 0 }
  let s := (Script.addStandardJob "bull:q:" a serialQueue).2
  let s := (Script.addStandardJob "bull:q:" a s).2
  let s := (Script.moveToActive "bull:q:" 1 opts s).2
  (Script.moveToActive "bull:q:" 2 opts s).2

theorem twoFetches_active_le_one :
    twoFetches (.list .active) "bull:q:" = ["1"] ∧
      (twoFetches (.list .active) "bull:q:").length ≤ (1 : ℤ) := by
  let opts : FetchOpts := { token := "t", lockDuration := 30000 }
  let a : AddArgs := { name := "n", data := "", timestamp := 0 }
  have hrun : Reachable (fun _ _ => True) serialQueue twoFetches :=
    ((((Reachable.refl serialQueue).step (c := .addStandardJob "bull:q:" a) trivial rfl).step
      (c := .addStandardJob "bull:q:" a) trivial rfl).step (c := .moveToActive "bull:q:" 1 opts)
      trivial rfl).step (c := .moveToActive "bull:q:" 2 opts) trivial rfl
  exact ⟨by decide, active_length_le_concurrency (by decide) (by decide) (by rfl) hrun⟩

end BullMQ
