import BullMQ.Renewal.Locks
import BullMQ.Properties.Stalled
import Mathlib.Tactic.IntervalCases

/-!
# One processing at a time

A worker that fetches a job processes it under the token it fetched it with. The scripts hand the
same job out again only when that processing is over (`Over`): a finishing call with the token of
the worker has been carried out, or the worker lost its lock, because it expired or by a call of
its own, and a stalled check has taken the job back. Until then the job stays active and its lock
is with no other token (`Ongoing.step`), so that two workers process a job at the same time only
when one of them has let its lock expire.
-/

namespace BullMQ

open Redis Transition

variable {Q : QueueSet} {s s' : Store} {p j t t' : String} {c : Command}
  {steps : List (Store × QueueCommand × Store)}

/-- A step replies with the job, fetched under the token. -/
def HandedOut (p j t : String) (e : Store × QueueCommand × Store) : Prop :=
  ∃ c o data, e.2.1 = .job c ∧ c.fetchOpts = some (p, o) ∧ o.token = t ∧
    c.exec e.1 = some (.job data j, e.2.2)

/-- A finishing call with the token is carried out. -/
def GivenUp (p j t : String) (e : Store × QueueCommand × Store) : Prop :=
  ∃ c, e.2.1 = .job c ∧ c.finishing = some (p, j, t) ∧ c.ends e.1 p j

/-- The lock of the job expires, or a finishing call with its token is made for its key. -/
def LockLost (p j t : String) (e : Store × QueueCommand × Store) : Prop :=
  ∃ c, e.2.1 = .job c ∧
    (c = .expireLock (p ++ j) ∨ ∃ q i, c.finishing = some (q, i, t) ∧ q ++ i = p ++ j)

/-- An effective stalled check takes the job, which has no lock, off the active list. -/
structure Reclaimed (p j : String) (e : Store × QueueCommand × Store) : Prop where
  check : ChecksQueue p e
  unlocked : e.1 .lock (p ++ j) = none
  left : j ∉ e.2.2 (.list .active) p

/-- The processing of a job under a token is over: it was given up, or its lock was lost and a
stalled check took it back. -/
def Over (p j t : String) (steps : List (Store × QueueCommand × Store)) : Prop :=
  (∃ e ∈ steps, GivenUp p j t e) ∨
    ∃ e e', [e, e'].Sublist steps ∧ LockLost p j t e ∧ Reclaimed p j e'

/-- The processing goes on: the job is active, and its lock is the token or was lost. -/
structure Ongoing (p j t : String) (steps : List (Store × QueueCommand × Store)) (s : Store) :
    Prop where
  active : j ∈ s (.list .active) p
  lock : s .lock (p ++ j) = some t ∨
    s .lock (p ++ j) = none ∧ ∃ e ∈ steps, LockLost p j t e

theorem Over.mono {steps' : List (Store × QueueCommand × Store)} (h : Over p j t steps)
    (hsub : steps.Sublist steps') : Over p j t steps' :=
  h.imp (fun ⟨e, he, hgiven⟩ => ⟨e, hsub.subset he, hgiven⟩)
    fun ⟨e, e', he, hrest⟩ => ⟨e, e', he.trans hsub, hrest⟩

/-! ### What a command does to a processing -/

/-- A command that ends an activation is a finishing call with the token in the lock. -/
theorem Command.finishing_of_ends (hc : OwnerCommand Q s c) (hends : c.ends s p j) :
    ∃ t, c.finishing = some (p, j, t) ∧ s .lock (p ++ j) = some t := by
  have hreal := hc.realTokens.1
  cases c with
  | moveToFinished q a =>
    obtain ⟨rfl, rfl, hf⟩ := hends
    exact ⟨_, rfl, hf.1.mayRelease.lock (hreal _ _ _ rfl)⟩
  | moveToDelayed q a =>
    obtain ⟨rfl, rfl, hg⟩ := hends
    exact ⟨_, rfl, hg.mayRelease.lock (hreal _ _ _ rfl)⟩
  | moveToWaitingChildren q i t k ts =>
    obtain ⟨rfl, rfl, hg, -⟩ := hends
    exact ⟨_, rfl, hg.mayRelease.lock (hreal _ _ _ rfl)⟩
  | retryJob q a =>
    obtain ⟨rfl, rfl, hg⟩ := hends
    -- The promotion that comes first leaves the locks alone.
    have hlock := hg.mayRelease.lock (hreal _ _ _ rfl)
    rw [promoteDelayedJobs_frame _ _ _ _ (by decide)] at hlock
    exact ⟨_, rfl, hlock⟩
  | moveJobFromActiveToWait q i t =>
    obtain ⟨rfl, rfl, hg⟩ := hends
    exact ⟨_, rfl, hg.mayRelease.lock (hreal _ _ _ rfl)⟩
  | _ => exact hends.elim

/-- A finishing call hands out a job only after it has ended the activation of its own. -/
theorem Command.ends_of_activates {q i : String} (hf : c.finishing = some (p, j, t))
    (hact : c.activates s q = some i) : c.ends s p j := by
  cases c with
  | moveToFinished p' a =>
    cases hf
    rw [Command.activates] at hact
    split at hact
    next hfetch => exact ⟨rfl, rfl, hfetch.2.2⟩
    next => cases hact
  | moveToDelayed p' a =>
    cases hf
    rw [Command.activates] at hact
    split at hact
    next hfetch => exact ⟨rfl, rfl, hfetch.2⟩
    next => cases hact
  | moveToWaitingChildren p' j' t' k ts => cases hact
  | retryJob p' a => cases hact
  | moveJobFromActiveToWait p' j' t' => cases hact
  | _ => cases hf

/-- An active job is handed out only by the call that ends its activation. -/
theorem Owned.ends_of_activates {r : Reply × Store} (h : Owned Q s) (hc : OwnerCommand Q s c)
    (hexec : c.exec s = some r) (hj : j ∈ s (.list .active) p)
    (hact : c.activates s p = some j) : c.ends s p j := by
  by_contra hends
  exact h.activates_ne hc hexec hact hj
    (fun t hf => hends (Command.ends_of_activates hf hact)) rfl

/-- The lock of an active job stays or goes, unless the command ends the activation. -/
theorem Owned.lock_le {r : Reply × Store} (h : Owned Q s) (hc : OwnerCommand Q s c)
    (hexec : c.exec s = some r) (hj : j ∈ s (.list .active) p) (hends : ¬ c.ends s p j) :
    r.2 .lock (p ++ j) = none ∨ r.2 .lock (p ++ j) = s .lock (p ++ j) := by
  cases hlock : r.2 .lock (p ++ j) with
  | none => exact .inl rfl
  | some t =>
    right
    by_contra hne
    have hhands : c.hands s p j t := by
      by_contra hno
      exact Command.exec_lock_ne h hc hexec (h.valid_list hj) (fun heq => hne heq.symm) hno hlock
    exact hends (h.ends_of_activates hc hexec hj hhands.1)

/-- A stalled check takes an active job back, which has no lock then, or leaves it active. -/
theorem Owned.reclaimed_or_active {q : String} {m ts n : ℤ} (h : Owned Q s)
    (hj : j ∈ s (.list .active) p) :
    Reclaimed p j (s, .job (.moveStalledJobsToWait q m ts n),
        (Script.moveStalledJobsToWait q m ts n s).2) ∨
      j ∈ (Script.moveStalledJobsToWait q m ts n s).2 (.list .active) p := by
  by_cases heff : EffectiveCheck q n s
  · obtain ⟨-, hchecked⟩ := moveStalledJobsToWait_effective heff m ts
    have hlegacy : isLegacyMarker j = false := (h.valid_list hj).2.2
    by_cases hq : p = q
    · subst hq
      by_cases hl : j ∈ reclaimedJobs p s (s .stalled p).members
      · refine .inl ⟨⟨m, ts, n, rfl, heff⟩, (mem_reclaimedJobs.mp hl).2.2.1, ?_⟩
        -- It was active once, and once it was taken off.
        have hone := (countIn_le_occ s (.inl .active) p j).trans (h.le_one p j)
        have hcount := hchecked.count j hlegacy
        simp only [countIn] at hone
        rw [if_pos hl] at hcount
        intro hmem
        have hpos : 0 < ((Script.moveStalledJobsToWait p m ts n s).2 (.list .active) p).count j :=
          List.count_pos_iff.mpr hmem
        omega
      · exact .inr ((hchecked.toTakenBack.mem_iff hlegacy hl).mpr hj)
    · exact .inr (by rwa [hchecked.others p hq])
  · rw [moveStalledJobsToWait_idle heff]
    exact .inr hj

/-- Of a processing that goes on, only a finishing call with its token ends the activation. -/
theorem Ongoing.givenUp (h : Ongoing p j t steps s) (hc : OwnerCommand Q s c)
    (hends : c.ends s p j) (s' : Store) : GivenUp p j t (s, .job c, s') := by
  obtain ⟨t', hf, hlock⟩ := Command.finishing_of_ends hc hends
  obtain rfl : t' = t := by
    obtain hlock' | ⟨hlock', -⟩ := h.lock
    · exact Option.some.inj (hlock.symm.trans hlock')
    · cases hlock.symm.trans hlock'
  exact ⟨c, rfl, hf, hends⟩

/-- **One script** leaves a processing going on or ends it. -/
theorem Ongoing.exec {r : Reply × Store} (h : Ongoing p j t steps s) (howned : Owned Q s)
    (hc : OwnerCommand Q s c) (hexec : c.exec s = some r) :
    Over p j t (steps ++ [(s, .job c, r.2)]) ∨ Ongoing p j t (steps ++ [(s, .job c, r.2)]) r.2 := by
  by_cases hends : c.ends s p j
  · exact .inl (.inl ⟨(s, .job c, r.2), by simp, h.givenUp hc hends r.2⟩)
  · have hlocked : r.2 .lock (p ++ j) = some t ∨
        r.2 .lock (p ++ j) = none ∧ ∃ e ∈ steps ++ [(s, .job c, r.2)], LockLost p j t e := by
      obtain hnone | hsame := howned.lock_le hc hexec h.active hends
      · refine .inr ⟨hnone, ?_⟩
        obtain hlock | ⟨-, e, he, hlost⟩ := h.lock
        · -- It was there before, so that it was lost by this step.
          refine ⟨(s, .job c, r.2), by simp, c, rfl, ?_⟩
          by_contra hlost
          simp only [not_or, not_exists, not_and] at hlost
          have hkeeps := howned.keeps_lock hc hexec hlock hlost.2 hlost.1
          cases hnone.symm.trans hkeeps
        · exact ⟨e, by simp [he], hlost⟩
      · rw [hsame]
        exact h.lock.imp id fun ⟨hnone, e, he, hlost⟩ => ⟨hnone, e, by simp [he], hlost⟩
    by_cases hcheck : ∃ q m ts n, c = .moveStalledJobsToWait q m ts n
    · obtain ⟨q, m, ts, n, rfl⟩ := hcheck
      cases hexec
      obtain hreclaimed | hactive := howned.reclaimed_or_active h.active
      · -- A job that is taken back has no lock, which was lost in an earlier step.
        obtain hlock | ⟨-, e, he, hlost⟩ := h.lock
        · cases hreclaimed.unlocked.symm.trans hlock
        · exact .inl (.inr ⟨e, _,
            (List.singleton_sublist.mpr he).append (List.Sublist.refl [_]), hlost, hreclaimed⟩)
      · exact .inr ⟨hactive, hlocked⟩
    · push Not at hcheck
      have hstep := Command.exec_owner howned.marks hc.realTokens hcheck hc.ne_removeJob hexec
      exact .inr ⟨hstep.active (.inl ⟨h.active, hends⟩), hlocked⟩

/-- **One step** leaves a processing going on or ends it. -/
theorem Ongoing.step {c : QueueCommand} {r : Reply × Store} (h : Ongoing p j t steps s)
    (howned : Owned Q s) (hc : c.Owner Q s) (hexec : c.exec s = some r) :
    Over p j t (steps ++ [(s, c, r.2)]) ∨ Ongoing p j t (steps ++ [(s, c, r.2)]) r.2 := by
  -- A deduplication key is about no processing.
  have hkey : c.writes = [.de] → Ongoing p j t (steps ++ [(s, c, r.2)]) r.2 := fun hwrites => by
    have hs : ∀ {κ : Kind}, κ ∉ [Kind.de] → r.2 κ = s κ := fun hκ =>
      QueueCommand.exec_frame hexec (hwrites ▸ hκ)
    refine ⟨by rw [hs (by decide)]; exact h.active, ?_⟩
    rw [hs (by decide)]
    exact h.lock.imp id fun ⟨hnone, e, he, hlost⟩ => ⟨hnone, e, by simp [he], hlost⟩
  cases c with
  | job c => exact h.exec howned hc hexec
  | expireDeduplicationKey q d => exact .inr (hkey rfl)
  | elapseDeduplicationKey q d ms => exact .inr (hkey rfl)
  | _ => exact hc.elim

/-! ### Runs -/

theorem HandedOut.activates {e : Store × QueueCommand × Store} (h : HandedOut p j t e)
    (hc : e.2.1.Owner Q e.1) :
    ∃ c data, e.2.1 = .job c ∧ OwnerCommand Q e.1 c ∧ c.exec e.1 = some (.job data j, e.2.2) ∧
      c.activates e.1 p = some j ∧ e.2.2 .lock (p ++ j) = some t := by
  obtain ⟨c, o, data, hjob, hopts, rfl, hexec⟩ := h
  rw [hjob] at hc
  obtain ⟨hact, hlock⟩ := Command.exec_job hexec hopts (hc.realTokens.2 p o hopts) rfl
  exact ⟨c, data, hjob, hc, hexec, hact, hlock⟩

/-- A processing goes on when the job is handed out. -/
theorem HandedOut.ongoing {e : Store × QueueCommand × Store} (h : HandedOut p j t e)
    (hc : e.2.1.Owner Q e.1) : Ongoing p j t [] e.2.2 := by
  obtain ⟨c, data, -, -, hexec, hact, hlock⟩ := h.activates hc
  obtain ⟨s₁, -, hpush, -⟩ := Command.exec_active hexec p
  refine ⟨?_, .inl hlock⟩
  rw [show e.2.2 (.list .active) p = _ from hpush, hact]
  simp

/-- What has become of a processing, at any later point of a run. -/
theorem Ongoing.run (h : Ongoing p j t [] s) (howned : Owned Q s)
    (hrun : Run (QueueStep fun s c => c.Owner Q s) s steps s') :
    Over p j t steps ∨ Ongoing p j t steps s' := by
  have hboth : Owned Q s' ∧ (Over p j t steps ∨ Ongoing p j t steps s') := by
    refine hrun.induct (I := fun steps u => Owned Q u ∧
      (Over p j t steps ∨ Ongoing p j t steps u)) ⟨howned, .inr h⟩ ?_
    rintro steps u c v ⟨hu, hover | hongoing⟩ ⟨hc, reply, hexec⟩
    · exact ⟨hu.queueExec hc hexec, .inl (hover.mono (List.sublist_append_left _ _))⟩
    · exact ⟨hu.queueExec hc hexec, hongoing.step hu hc hexec⟩
  exact hboth.2

/-- **One processing at a time.** When a run hands a job out a second time, the processing under
the first token is over: since the first time, or in the very call that hands it out again, a
finishing call with that token has been carried out, or the lock was lost and a stalled check took
the job back. -/
theorem handed_out_again {before middle after : List (Store × QueueCommand × Store)}
    {e e' : Store × QueueCommand × Store}
    (run : Run (QueueStep fun s c => c.Owner Q s) .empty
      (before ++ e :: (middle ++ e' :: after)) s)
    (he : HandedOut p j t e) (he' : HandedOut p j t' e') : Over p j t (middle ++ [e']) := by
  obtain ⟨hbefore, ⟨hc, reply, hexec⟩, hrest⟩ := run.split
  obtain ⟨hmiddle, ⟨hc', reply', hexec'⟩, -⟩ := hrest.split
  have howned := (Owned.of_reachable ⟨_, hbefore⟩).queueExec hc hexec
  have howned' : Owned Q e'.1 := Owned.of_reachable ⟨_, (hbefore.snoc ⟨hc, reply, hexec⟩).append
    hmiddle⟩
  obtain hover | hongoing := (he.ongoing hc).run howned hmiddle
  · exact hover.mono (List.sublist_append_left _ _)
  · -- The job is still active, so that the call that hands it out has given it up first.
    obtain ⟨c, data, hjob, hcommand, hcall, hact, -⟩ := he'.activates hc'
    have hends := howned'.ends_of_activates hcommand hcall hongoing.active hact
    have hgiven := hongoing.givenUp hcommand hends e'.2.2
    rw [← hjob] at hgiven
    exact .inl ⟨e', by simp, hgiven⟩

/-- A worker fetches a job, for which a successor is kept, and lets its lock expire; a check takes
the job back for another one. -/
def fetchedTwice : List Command :=
  let de : DeduplicationOpts := { id := "d", keepLastIfActive := true }
  [.addStandardJob "bull:q:" { name := "n", data := "", timestamp := 1, opts := { de := some de } },
   .moveToActive "bull:q:" 2 { token := "A:0", lockDuration := 30000 },
   .addStandardJob "bull:q:" { name := "n", data := "", timestamp := 3, opts := { de := some de } },
   .moveStalledJobsToWait "bull:q:" 1 10 30000,
   .expireLock "bull:q:1",
   .expireStalledCheck "bull:q:",
   .moveStalledJobsToWait "bull:q:" 1 40 30000,
   .moveToActive "bull:q:" 50 { token := "B:0", lockDuration := 30000 }]

/-- The store after the first commands. -/
def fetchedTwiceStore (n : ℕ) : Store := (runCommands (fetchedTwice.take n) .empty).getD .empty

/-- The step of each command. -/
def fetchedTwiceStep (n : ℕ) : Store × QueueCommand × Store :=
  (fetchedTwiceStore n, .job (fetchedTwice.getD n (.expireStalledCheck "bull:q:")),
    fetchedTwiceStore (n + 1))

theorem fetchedTwice_owner (c : Command) (hc : c ∈ fetchedTwice) (s : Store) :
    OwnerCommand (.ofPrefix "bull") s c := by
  have hqueue : (QueueSet.ofPrefix "bull").Base "bull:q:" := ⟨"q", by decide, rfl⟩
  simp only [fetchedTwice, List.mem_cons, List.not_mem_nil, or_false] at hc
  refine .intro ?_ ⟨fun p j t h => ?_, fun p o h => ?_⟩ fun p a h => ?_
  · obtain rfl | rfl | rfl | rfl | rfl | rfl | rfl | rfl := hc <;>
      first
        | exact ⟨hqueue, fun h => absurd rfl h⟩
        | trivial
  · obtain rfl | rfl | rfl | rfl | rfl | rfl | rfl | rfl := hc <;> cases h
  · obtain rfl | rfl | rfl | rfl | rfl | rfl | rfl | rfl := hc <;>
      first
        | cases h; done
        | cases h; decide
  · obtain rfl | rfl | rfl | rfl | rfl | rfl | rfl | rfl := hc <;> cases h

theorem fetchedTwice_run (n : ℕ) (hn : n ≤ 8) :
    Run (QueueStep fun s c => c.Owner (.ofPrefix "bull") s) .empty
      ((List.range n).map fetchedTwiceStep) (fetchedTwiceStore n) := by
  induction n with
  | zero => exact .nil
  | succ n ih =>
    rw [List.range_succ, List.map_append]
    have hmem : fetchedTwice.getD n (.expireStalledCheck "bull:q:") ∈ fetchedTwice := by
      have hlt : n < fetchedTwice.length := hn
      simp [hlt]
    have hexec : ∃ reply, (fetchedTwiceStep n).2.1.exec (fetchedTwiceStore n) =
        some (reply, fetchedTwiceStore (n + 1)) := by
      have hlt : n < 8 := hn
      interval_cases n <;> exact ⟨_, rfl⟩
    exact (ih (by omega)).snoc ⟨fetchedTwice_owner _ hmem _, hexec⟩

theorem handed_out_again_sample :
    (∃ data, (Command.moveToActive "bull:q:" 50 { token := "B:0", lockDuration := 30000 }).exec
        (fetchedTwiceStore 7) = some (.job data "1", fetchedTwiceStore 8)) ∧
      Over "bull:q:" "1" "A:0" ((List.range 6).map fun n => fetchedTwiceStep (n + 2)) := by
  have hfirst : HandedOut "bull:q:" "1" "A:0" (fetchedTwiceStep 1) :=
    ⟨_, _, _, rfl, rfl, rfl, rfl⟩
  have hagain : HandedOut "bull:q:" "1" "B:0" (fetchedTwiceStep 7) :=
    ⟨_, _, _, rfl, rfl, rfl, rfl⟩
  have hrun : Run (QueueStep fun s c => c.Owner (.ofPrefix "bull") s) .empty
      ([fetchedTwiceStep 0] ++ fetchedTwiceStep 1 ::
        (((List.range 5).map fun n => fetchedTwiceStep (n + 2)) ++ fetchedTwiceStep 7 :: []))
      (fetchedTwiceStore 8) := fetchedTwice_run 8 le_rfl
  exact ⟨⟨_, rfl⟩, handed_out_again hrun hfirst hagain⟩

end BullMQ
