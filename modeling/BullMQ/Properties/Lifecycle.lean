import BullMQ.Lifecycle.Scripts
import BullMQ.Properties.Retention
import BullMQ.Properties.States
import BullMQ.Properties.OneState

/-!
# The life cycle of a job

What the scripts may do to a job, as `getState` tells it: `Command.arrows` lists, for every command,
the pairs of a state before and a state after, `unknown` standing for a job that does not exist. In
every run without deduplication each step of each job is one of them (`job_lifecycle`).
-/

namespace BullMQ

open Redis

variable {s : Store} {p j : String} {c : Command} {r : Reply × Store}

/-! ### The diagram -/

local instance : BEq Container := instBEqOfDecidableEq

/-- The ways of a promotion. -/
def promotionWays : List (Container × Container) :=
  [(.inr .delayed, .inl .wait), (.inr .delayed, .inr .prioritized)]

/-- The ways of a fetch, which promotes and then takes a job out of the line. -/
def fetchWays : List (Container × Container) :=
  promotionWays ++ [(.inr .delayed, .inl .active), (.inl .wait, .inl .active),
    (.inr .prioritized, .inl .active)]

/-- The ways of a released parent. -/
def releaseWays : List (Container × Container) :=
  [(.inr .waitingChildren, .inl .wait), (.inr .waitingChildren, .inr .prioritized),
    (.inr .waitingChildren, .inr .delayed)]

/-- The ways on which a command leads jobs that exist. -/
def Command.ways : Command → List (Container × Container)
  | addStandardJob .. | addDelayedJob .. | addPrioritizedJob .. | addParentJob .. => releaseWays
  | moveToActive .. => fetchWays
  | moveToFinished _ a =>
    -- A parent that is released may be fetched at once.
    (.inl .active, .inr a.target.zset) :: (.inr .waitingChildren, .inl .active) ::
      (releaseWays ++ fetchWays)
  | moveToDelayed .. =>
    -- The fetch that follows may promote the job again.
    (.inl .active, .inr .delayed) :: (.inl .active, .inl .wait) ::
      (.inl .active, .inr .prioritized) :: fetchWays
  | moveToWaitingChildren .. => [(.inl .active, .inr .waitingChildren)]
  | retryJob .. => (.inl .active, .inl .wait) :: (.inl .active, .inr .prioritized) :: promotionWays
  | moveJobFromActiveToWait .. => [(.inl .active, .inl .wait), (.inl .active, .inr .prioritized)]
  | moveStalledJobsToWait .. => [(.inl .active, .inl .wait)]
  | promote .. => promotionWays
  | changePriority .. => [(.inl .wait, .inr .prioritized), (.inr .prioritized, .inl .wait)]
  | reprocessJob _ a => [(.inr a.state.zset, .inl .wait)]
  | moveJobsToWait _ state .. => [(.inr state.zset, .inl .wait)]
  | pause .. => [(.inl .paused, .inl .wait)]
  | removeJob .. | removeChildDependency .. => [(.inr .waitingChildren, .inl .wait)]
  | _ => []

/-- Where an add puts its job. -/
def Command.entry : Command → Option Container
  | addStandardJob .. => some (.inl .wait)
  | addDelayedJob .. => some (.inr .delayed)
  | addPrioritizedJob .. => some (.inr .prioritized)
  | addParentJob .. => some (.inr .waitingChildren)
  | _ => none

/-- The containers that a command may leave a job in. -/
def Command.reach (c : Command) : Option Container → List Container
  | none => c.entry.toList
  | some b => b :: (c.ways.filter fun w => decide (w.1 = b)).map Prod.snd

/-- A way that goes on where other ways end, with the ways that this takes. -/
def Passes (ways : List (Container × Container)) (w : Container × Container) : Prop :=
  w ∈ ways ∧ ∀ v ∈ ways, v.2 = w.1 → v.1 = w.2 ∨ (v.1, w.2) ∈ ways

instance (ways : List (Container × Container)) (w : Container × Container) :
    Decidable (Passes ways w) :=
  inferInstanceAs (Decidable (_ ∧ _))

/-! ### Where a job can be after a command -/

theorem Command.allows {o : Option Container} (ho : o = none → c.entry = none)
    {w : Container × Container} (hw : Passes c.ways w) : Allows (c.reach o) w.1 w.2 := by
  intro hb
  cases o with
  | none => simp [reach, ho rfl] at hb
  | some b =>
    simp only [reach, List.mem_cons, List.mem_map, List.mem_filter, decide_eq_true_eq] at hb ⊢
    rcases hb with hb | ⟨v, ⟨hv, hvb⟩, hend⟩
    · exact .inr ⟨w, ⟨hw.1, hb⟩, rfl⟩
    · rcases hw.2 v hv hend with heq | hmem
      · exact .inl (heq.symm.trans hvb)
      · exact .inr ⟨_, ⟨hmem, hvb⟩, rfl⟩

theorem Command.allowsRelease {o : Option Container} (ho : o = none → c.entry = none)
    (h : ∀ w ∈ releaseWays, Passes c.ways w) : AllowsRelease (c.reach o) :=
  ⟨c.allows ho (h (.inr .waitingChildren, .inl .wait) (by decide)),
    c.allows ho (h (.inr .waitingChildren, .inr .prioritized) (by decide)),
    c.allows ho (h (.inr .waitingChildren, .inr .delayed) (by decide))⟩

theorem Within.mono {C C' : List Container} (h : Within C p j s) (hC : C ⊆ C') :
    Within C' p j s := fun d hd => hC (h d hd)

theorem Within.reach {o : Option Container} (h : Within o.toList p j s) (c : Command) :
    Within (c.reach o) p j s := by
  cases o with
  | none => exact h.mono (List.nil_subset _)
  | some b => exact h.mono (by simp [Command.reach])

/-- A new id is that of no job. -/
theorem WellPlaced.fresh {K : KeySpace} {q i : String} {a : AddArgs} (h : WellPlaced K s)
    (ha : a.Plain K q) (hi : (a.customId = "" ∧ i = (s .id q + 1).repr) ∨
      (a.customId = i ∧ i ≠ "" ∧ s.jobExists (q ++ i) = false)) :
    s.jobExists (q ++ i) = false := by
  rcases hi with ⟨hc, rfl⟩ | ⟨-, -, hno⟩
  · by_contra hex
    have hahead : s .id q + 1 ≤ s .id q := h.counted q _ (ha.counter hc _) (by simpa using hex)
    exact Nat.not_succ_le_self _ hahead
  · exact hno

/-- An add lets its new job in and releases parents. -/
theorem Within.addJobWith {K : KeySpace} {mode : AddMode} {q : String} {a : AddArgs}
    {o : Option Container} (h : Within o.toList p j s) (hs : WellPlaced K s) (ha : a.Plain K q)
    (hways : c.ways = releaseWays)
    (henter : ∀ i s, Within (c.reach o) p j s → (q = p → i = j → o = none) →
      Within (c.reach o) p j (mode.enqueue i a s))
    (hnew : s.jobExists (p ++ j) = false → o = none) :
    Within (c.reach o) p j (addJobWith mode q a s).2 := by
  have hdraw : ∀ {C : List Container}, Within C p j s → Within C p j (drawId q s) := fun hC =>
    hC.of_frame (by decide) (drawId_frame q s)
  obtain ⟨-, hres⟩ | ⟨-, -, -, hres⟩ | ⟨i, hi, -, hres⟩ :=
    addJobWith_cases mode ha.noDeduplication q s <;> rw [hres]
  · exact h.reach c
  · -- A job that is in no container is no parent that could be released.
    cases o with
    | none =>
      exact ((hdraw h).handleDuplicatedJob (C := []) ⟨nofun, nofun, nofun⟩ q _ _ _).mono
        (List.nil_subset _)
    | some b =>
      exact (hdraw (h.reach c)).handleDuplicatedJob
        (c.allowsRelease nofun (by rw [hways]; decide)) q _ _ _
  · -- A new job: the job `j` itself only if it did not exist, and then it was in no container.
    have hfresh := hs.fresh ha hi
    have hstored : Within (c.reach o) p j (storeJob q i a.name a.data a.opts a.timestamp a.parent
        a.repeatJobKey (drawId q s)) :=
      (hdraw (h.reach c)).of_frame (by decide) (storeJob_frame _ _ _ _ _ _ _ _ _)
    exact (henter i _ hstored fun hq hij => hnew (by rw [← hq, ← hij]; exact hfresh)).of_frame
      (W := [.dependencies]) (by decide) fun hκ =>
        addParentDependency_frame _ _ _ (by simpa using hκ)

theorem PlainCommand.plain (hc : PlainCommand s c) :
    c.Plain colonFreeKeys ∨ ∃ n q i b, c = .removeJob n q i b := by
  cases c with
  | removeJob n q i b => exact .inr ⟨n, q, i, b, rfl⟩
  | addStandardJob q a => exact .inl (PlainAdd.plain hc)
  | addDelayedJob q a => exact .inl (PlainAdd.plain hc)
  | addPrioritizedJob q a => exact .inl (PlainAdd.plain hc)
  | addParentJob q a => exact .inl (PlainAdd.plain hc)
  | _ => exact .inl trivial

end BullMQ
