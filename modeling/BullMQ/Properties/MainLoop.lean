import BullMQ.Model.MainLoop
import BullMQ.Properties.FifoDelivery

/-!
# What the main loop of a worker does with its jobs

In every run of the main loop, with promises that settle in any order and flags that change at any
time, the jobs that the fetches and the processors hand out are processed once each, in that order,
and no more of them at a time than the concurrency allows. When the loop ends all of them have been
processed.
-/

namespace BullMQ

variable {J : Type} {c : ℕ} {m m' : MainLoop J} {hand : List J}

/-- The job that a task processes. -/
def Task.job : Task J → Option J
  | .processJob job => some job
  | .getNextJob _ => none

/-- The token that a task fetches with. -/
def Task.token : Task J → Option ℕ
  | .getNextJob tokenPostfix => some tokenPostfix
  | .processJob _ => none

namespace MainLoop

/-- The jobs whose processing has begun, in order. -/
def started (m : MainLoop J) : List J := m.tasks.filterMap Task.job

/-- The tokens that the fetches were made with. -/
def tokens (m : MainLoop J) : List ℕ := m.tasks.filterMap Task.token

/-- The job that the loop has taken and not begun to process. -/
def inHand (m : MainLoop J) : List J :=
  match m.await with
  | .job job => job.toList
  | _ => []

/-- The jobs that wait in the queue. -/
def queued (m : MainLoop J) : List J := m.fifo.queue.filterMap Option.join

/-- The processors that are running. -/
def processors (m : MainLoop J) : Finset ℕ :=
  m.fifo.pending.filter fun promise => (m.tasks[promise]?.bind Task.job).isSome = true

/-- What holds of the tasks and the queue with some jobs in hand. -/
structure Account (c : ℕ) (hand : List J) (m : MainLoop J) : Prop where
  made : ∀ promise ∈ m.fifo.pending, promise < m.tasks.length
  room : m.fifo.numTotal + hand.length ≤ c
  handed : m.handed = m.started ++ hand ++ m.queued
  tokens : m.tokens = List.range m.tokenPostfix

/-- What holds of the `await` that the loop has come to. -/
def AwaitOk (m : MainLoop J) : Prop :=
  match m.await with
  | .fetchedJob promise none => promise ∈ m.fifo.pending
  | .nextPromise promise =>
    promise = m.fifo.nextPromise ∧ m.fifo.queue = [] ∧ m.fifo.pending ≠ ∅ ∨
      promise < m.fifo.nextPromise ∧ m.fifo.queue ≠ []
  | .ended => m.fifo.numTotal = 0
  | _ => True

/-- The invariant of the main loop. -/
structure Inv (c : ℕ) (m : MainLoop J) : Prop extends Account c m.inHand m where
  awaits : m.AwaitOk

/-! ### From one await to the next -/

theorem Account.of_eq (h : Account c hand m) (hfifo : m'.fifo = m.fifo)
    (htasks : m'.tasks = m.tasks) (hhanded : m'.handed = m.handed)
    (htoken : m'.tokenPostfix = m.tokenPostfix) :
    Account c hand m' where
  made := by rw [hfifo, htasks]; exact h.made
  room := by rw [hfifo]; exact h.room
  handed := by rw [hhanded, h.handed, started, started, htasks, queued, queued, hfifo]
  tokens := by rw [MainLoop.tokens, htasks, htoken]; exact h.tokens

theorem Account.fetchLoop (h : Account c [] m) (hsome : m.fifo.pending ≠ ∅ ∨ m.fifo.queue ≠ []) :
    Inv c m.fetchLoop := by
  unfold MainLoop.fetchLoop
  split
  · next hnil =>
    exact { toAccount := h.of_eq rfl rfl rfl rfl
            awaits := .inl ⟨rfl, hnil, hsome.resolve_right (not_not.mpr hnil)⟩ }
  · next value queue hqueue =>
    have hroom := h.room
    have hhanded := h.handed
    simp only [AsyncFifoQueue.numTotal, hqueue, List.length_cons, List.length_nil] at hroom
    simp only [queued, hqueue, List.filterMap_cons, List.append_nil] at hhanded
    refine ⟨⟨h.made, ?_, ?_, h.tokens⟩, trivial⟩
    · cases value.join <;> simp [inHand, AsyncFifoQueue.numTotal] <;> omega
    · cases hvalue : value.join <;> simp [inHand, queued, started, hvalue, hhanded]

theorem Account.fetch (h : Account c [] m) : Inv c m.fetch := by
  unfold MainLoop.fetch
  split
  · exact ⟨h.of_eq rfl rfl rfl rfl, trivial⟩
  · next hne =>
    refine h.fetchLoop ?_
    by_contra hno
    simp only [not_or, not_not] at hno
    exact hne ⟨by simp [AsyncFifoQueue.numPending, hno.1],
      by simp [AsyncFifoQueue.numQueued, hno.2]⟩

theorem numTotal_add (h : Account c hand m) (task : Task J) :
    (m.add task).fifo.numTotal = m.fifo.numTotal + 1 := by
  have hnew : m.tasks.length ∉ m.fifo.pending := fun hmem => lt_irrefl _ (h.made _ hmem)
  simp only [MainLoop.add, AsyncFifoQueue.add, AsyncFifoQueue.numTotal,
    Finset.card_insert_of_notMem hnew]
  omega

theorem made_add (h : Account c hand m) (task : Task J) :
    ∀ promise ∈ (m.add task).fifo.pending, promise < (m.add task).tasks.length := by
  intro promise hmem
  simp only [MainLoop.add, AsyncFifoQueue.add, Finset.mem_insert, List.length_append,
    List.length_singleton] at hmem ⊢
  rcases hmem with rfl | hmem
  · omega
  · have hlt := h.made _ hmem
    omega

theorem Account.processJob {job : J} (h : Account c [job] m) :
    Account c [] (m.add (.processJob job)) where
  made := made_add h _
  room := by
    have hroom := h.room
    rw [numTotal_add h]
    simpa using hroom
  handed := by
    have hhanded := h.handed
    simp only [MainLoop.add, started, queued, AsyncFifoQueue.add] at hhanded ⊢
    simp [hhanded, Task.job]
  tokens := by
    have htokens := h.tokens
    simp only [MainLoop.add, MainLoop.tokens] at htokens ⊢
    simp [htokens, Task.token]

theorem Account.getNextJob (h : Account c [] m) (hroom : m.fifo.numTotal < c)
    (flags : WorkerFlags) : Account c [] { m.add (.getNextJob m.tokenPostfix) with
      tokenPostfix := m.tokenPostfix + 1, flags } where
  made := made_add h _
  room := by
    have htotal := numTotal_add h (.getNextJob m.tokenPostfix)
    simp only at htotal ⊢
    rw [htotal]
    exact hroom
  handed := by
    have hhanded := h.handed
    simp only [MainLoop.add, started, queued, AsyncFifoQueue.add] at hhanded ⊢
    simp [hhanded, Task.job]
  tokens := by
    have htokens := h.tokens
    simp only [MainLoop.add, MainLoop.tokens] at htokens ⊢
    simp [htokens, Task.token, List.range_succ]

theorem Account.innerLoop (h : Account c [] m) : Inv c (m.innerLoop c) := by
  unfold MainLoop.innerLoop
  split
  · next hcond =>
    have hnew := h.getNextJob hcond.2.2.2.1
      { m.flags with waiting := m.flags.waiting || waitsForJob m.flags }
    simp only
    split
    · exact hnew.fetch
    · exact ⟨hnew.of_eq rfl rfl rfl rfl, by simp [AwaitOk, MainLoop.add, AsyncFifoQueue.add]⟩
  · exact h.fetch

theorem Account.outerLoop (h : Account c [] m) : Inv c (m.outerLoop c) := by
  unfold MainLoop.outerLoop
  split
  · exact h.innerLoop
  · next hcond =>
    exact ⟨h.of_eq rfl rfl rfl rfl, Nat.le_zero.mp (not_lt.mp fun hpos => hcond (.inr hpos))⟩

/-- Nothing is in hand at an `await` that has no value for the loop. -/
theorem Inv.account (h : Inv c m) (hand : m.inHand = []) : Account c [] m := hand ▸ h.toAccount

theorem Inv.resume (h : Inv c m) (hm : m.resume c = some m') : Inv c m' := by
  have hawaits := h.awaits
  unfold MainLoop.resume at hm
  split at hm
  · cases hm
  · next promise job hat =>
    have hacc := h.account (by simp [inHand, hat])
    split at hm
    · obtain rfl := Option.some.inj hm
      exact hacc.fetch
    · split at hm
      · obtain rfl := Option.some.inj hm
        exact hacc.fetch
      · obtain rfl := Option.some.inj hm
        exact hacc.innerLoop
  · next promise hat =>
    have hacc := h.account (by simp [inHand, hat])
    split at hm
    · next hlt =>
      obtain rfl := Option.some.inj hm
      simp only [AwaitOk, hat] at hawaits
      exact hacc.fetchLoop (.inr (hawaits.resolve_left fun hno => hlt.ne hno.1).2)
    · cases hm
  · next job hat =>
    split at hm
    · next hcond =>
      obtain rfl := Option.some.inj hm
      exact (h.account (by simp [inHand, hat, Option.isNone_iff_eq_none.mp hcond.1])).fetch
    · cases job with
      | some job =>
        obtain rfl := Option.some.inj hm
        have hacc : Account c [job] m := by simpa [inHand, hat] using h.toAccount
        exact hacc.processJob.outerLoop
      | none =>
        obtain rfl := Option.some.inj hm
        exact ⟨(h.account (by simp [inHand, hat])).of_eq rfl rfl rfl rfl, trivial⟩
  · next delayed hat =>
    obtain rfl := Option.some.inj hm
    have hacc := h.account (by simp [inHand, hat])
    exact Account.outerLoop (hacc.of_eq rfl rfl rfl rfl)
  · cases hm

/-! ### What comes in between -/

theorem Inv.settle {promise : ℕ} {value : Option J} (h : Inv c m)
    (hm : m.settle promise value = some m') : Inv c m' := by
  obtain ⟨hmem, rfl⟩ := Option.ite_some_none_eq_some.mp hm
  have hcard := Finset.card_erase_add_one hmem
  have hawaits := h.awaits
  -- A promise that settles puts nothing into the hands of the loop before the loop resumes.
  have hin : inHand { m with
      fifo := m.fifo.onResolved promise value
      await := m.await.settle promise value
      handed := m.handed ++ value.toList } = m.inHand := by
    cases hat : m.await with
    | fetchedJob fetched result => cases result <;> simp [inHand, hat, Await.settle]
    | _ => simp [inHand, hat, Await.settle]
  refine ⟨hin.symm ▸ ⟨?_, ?_, ?_, h.tokens⟩, ?_⟩
  · intro n hn
    rw [AsyncFifoQueue.onResolved_eq] at hn
    exact h.made n (Finset.mem_of_mem_erase hn)
  · have hroom := h.room
    rw [AsyncFifoQueue.onResolved_eq]
    simp only [AsyncFifoQueue.numTotal, List.length_append, List.length_singleton] at hroom ⊢
    omega
  · have hhanded := h.handed
    rw [AsyncFifoQueue.onResolved_eq]
    simp only [started, queued] at hhanded ⊢
    cases value <;> simp [hhanded]
  · rw [AwaitOk, AsyncFifoQueue.onResolved_eq]
    rw [AwaitOk] at hawaits
    cases hat : m.await with
    | fetchedJob fetched result =>
      cases result with
      | some job => simp [Await.settle]
      | none =>
        by_cases hf : fetched = promise
        · simp [Await.settle, hf]
        · simp only [hat] at hawaits
          simpa [Await.settle, hf] using hawaits
    | nextPromise n =>
      simp only [hat] at hawaits
      simp only [Await.settle]
      refine .inr ⟨?_, by simp⟩
      rcases hawaits with ⟨rfl, hnil, -⟩ | ⟨hlt, hne⟩
      · simp [hnil]
      · simpa [hne] using hlt
    | job job => simp [Await.settle]
    | rateLimit delayed => simp [Await.settle]
    | ended =>
      simp only [hat] at hawaits
      simp only [AsyncFifoQueue.numTotal] at hawaits
      omega

theorem Inv.step {a : LoopAction J} (h : Inv c m) (hm : m.step c a = some m') : Inv c m' := by
  cases a with
  | settle promise value => exact h.settle hm
  | setFlags flags =>
    obtain rfl := Option.some.inj hm
    exact ⟨h.toAccount.of_eq rfl rfl rfl rfl, h.awaits⟩
  | resume => exact h.resume hm

/-! ### Runs -/

end MainLoop

/-- The loop goes on, or awaits a promise that lets it go on as soon as it settles. -/
def MainLoop.GoesOn (c : ℕ) (m : MainLoop J) : Prop :=
  (m.resume c).isSome = true ∨ ∃ promise ∈ m.fifo.pending, ∀ value m',
    m.settle promise value = some m' → (m'.resume c).isSome = true

theorem MainLoop.Inv.goesOn (h : Inv c m) (hm : m.await ≠ .ended) : m.GoesOn c := by
  have hawaits := h.awaits
  cases hat : m.await with
  | fetchedJob fetched result =>
    cases result with
    | none =>
      simp only [AwaitOk, hat] at hawaits
      refine .inr ⟨fetched, hawaits, fun value m' hsettle => ?_⟩
      obtain ⟨-, rfl⟩ := Option.ite_some_none_eq_some.mp hsettle
      simp only [MainLoop.resume, hat, Await.settle, if_true]
      split
      · rfl
      · split <;> rfl
    | some job =>
      refine .inl ?_
      simp only [MainLoop.resume, hat]
      split
      · rfl
      · split <;> rfl
  | nextPromise promise =>
    simp only [AwaitOk, hat] at hawaits
    rcases hawaits with ⟨rfl, hnil, hne⟩ | ⟨hlt, -⟩
    · obtain ⟨pending, hmem⟩ := Finset.nonempty_iff_ne_empty.mpr hne
      refine .inr ⟨pending, hmem, fun value m' hsettle => ?_⟩
      obtain ⟨-, rfl⟩ := Option.ite_some_none_eq_some.mp hsettle
      simp [MainLoop.resume, hat, Await.settle, AsyncFifoQueue.onResolved_eq, hnil]
    · exact .inl (by simp [MainLoop.resume, hat, hlt])
  | job job =>
    refine .inl ?_
    simp only [MainLoop.resume, hat]
    split
    · rfl
    · cases job <;> rfl
  | rateLimit delayed => exact .inl (by simp [MainLoop.resume, hat])
  | ended => exact absurd hat hm

/-- The number of running processors is within the concurrency. -/
theorem MainLoop.card_processors_le (h : Inv c m) : m.processors.card ≤ c := by
  have hroom := h.room
  have hle : m.processors.card ≤ m.fifo.pending.card := Finset.card_filter_le _ _
  simp only [AsyncFifoQueue.numTotal] at hroom
  omega

theorem MainLoop.Inv.run {actions : List (LoopAction J)} (h : Inv c m)
    (hrun : m.run c actions = some m') : Inv c m' := by
  induction actions generalizing m with
  | nil =>
    obtain rfl : m = m' := Option.some.inj hrun
    exact h
  | cons a actions ih =>
    obtain ⟨m₁, hstep, hrest⟩ : ∃ m₁, m.step c a = some m₁ ∧ m₁.run c actions = some m' :=
      Option.bind_eq_some_iff.mp hrun
    exact ih (h.step hstep) hrest

theorem MainLoop.start_inv (c : ℕ) (flags : WorkerFlags) : Inv c (start c flags : MainLoop J) := by
  have hstart : Account c [] ({ flags } : MainLoop J) :=
    ⟨by simp, by simp [AsyncFifoQueue.numTotal], by simp [started, queued], by simp [tokens]⟩
  exact hstart.outerLoop

/-- **What the main loop does.** In every run of the main loop of a worker, the jobs it is handed
are processed in the order in which it is handed them, each once, and never more at a time than the
concurrency; no two fetches share a token; the loop ends only when all the jobs it was handed have
been processed, and until then it goes on as soon as one of the promises it waits for settles. -/
theorem mainLoop_processes {flags : WorkerFlags} {actions : List (LoopAction J)}
    (hrun : (MainLoop.start c flags).run c actions = some m) :
    m.handed = m.started ++ m.inHand ++ m.queued ∧ m.processors.card ≤ c ∧ m.fifo.numTotal ≤ c ∧
      m.tokens.Nodup ∧ (m.await = .ended → m.handed = m.started ∧ m.fifo.pending = ∅) ∧
      (m.await ≠ .ended → m.GoesOn c) := by
  have h := (MainLoop.start_inv c flags).run hrun
  have hroom := h.room
  refine ⟨h.handed, MainLoop.card_processors_le h, by omega, h.tokens ▸ List.nodup_range,
    fun hended => ?_, h.goesOn⟩
  have hawaits := h.awaits
  simp only [MainLoop.AwaitOk, hended, AsyncFifoQueue.numTotal, Nat.add_eq_zero_iff,
    Finset.card_eq_zero, List.length_eq_zero_iff] at hawaits
  refine ⟨?_, hawaits.1⟩
  rw [h.handed, MainLoop.inHand, hended, MainLoop.queued, hawaits.2]
  simp

/-- A worker with one slot is handed a job, and with its completion another one. -/
def twoJobs : List (LoopAction String) :=
  [.settle 0 (some "a"), .resume, .resume, .settle 1 (some "b"), .resume, .resume]

theorem mainLoop_processes_sample :
    ∃ m, (MainLoop.start 1 {}).run 1 twoJobs = some m ∧ m.started = ["a", "b"] ∧
      m.processors.card ≤ 1 := by
  have hsome : ((MainLoop.start 1 {}).run 1 twoJobs).isSome = true := by decide
  obtain ⟨m, hrun⟩ := Option.isSome_iff_exists.mp hsome
  have hstarted : ((MainLoop.start 1 {}).run 1 twoJobs).map MainLoop.started =
      some ["a", "b"] := by decide
  rw [hrun] at hstarted
  exact ⟨m, hrun, Option.some.inj hstarted, (mainLoop_processes hrun).2.1⟩

end BullMQ
