import BullMQ.Model.AsyncFifoQueue
import Mathlib.Data.Set.Card

/-!
# What an asynchronous queue delivers

In every run the consumer gets the queued values in the order in which they were queued
(`FifoAccounted`). It never waits while nothing is pending or queued, unless the last pending
promise is rejected while it waits and errors are not queued (`Strands`): then `fetch` does not
return, although nothing is pending or queued (`run_delivers`).
-/

namespace BullMQ

open AsyncFifoQueue World

variable {V : Type} {outcome : ℕ → Option V} {ignoreErrors : Bool}

/-- What the callbacks among some steps queue. -/
def queuedBy (outcome : ℕ → Option V) (ignoreErrors : Bool) (actions : List FifoAction) :
    List (Option V) :=
  actions.filterMap fun action =>
    match action with
    | .settle promise =>
      match outcome promise with
      | some data => some (some data)
      | none => if ignoreErrors then some none else none
    | _ => none

/-- The promise has been added and has not been settled since. -/
def Unsettled (actions : List FifoAction) (promise : ℕ) : Prop :=
  ∃ before after, actions = before ++ .add promise :: after ∧ .settle promise ∉ after

/-- What a call of `fetch` has taken from the queue. -/
def Fetched.data : Fetched V → Option (Option V)
  | .nothing => none
  | .value data => some data

/-- What the consumer has got from the queue. -/
def World.delivered (w : World V) : List (Option V) := w.fetched.filterMap Fetched.data

/-- The consumer waits, but nothing is pending or queued. -/
def World.Stuck (w : World V) : Prop :=
  (∃ promise, w.consumer = .waiting promise) ∧ w.fifo.pending = ∅ ∧ w.fifo.queue = []

/-- The step is a rejection that queues nothing, of the last promise that is pending, while the
consumer waits and nothing is queued. -/
def Strands (outcome : ℕ → Option V) (ignoreErrors : Bool) (action : FifoAction) (w : World V) :
    Prop :=
  ignoreErrors = false ∧ ∃ promise, action = .settle promise ∧ outcome promise = none ∧
    (∃ waited, w.consumer = .waiting waited) ∧ w.fifo.pending ⊆ {promise} ∧ w.fifo.queue = []

/-! ### One step -/

theorem AsyncFifoQueue.onResolved_eq (promise : ℕ) (data : V) (q : AsyncFifoQueue V) :
    q.onResolved promise data =
      { queue := q.queue ++ [some data]
        pending := q.pending.erase promise
        nextPromise := if q.queue = [] then q.nextPromise + 1 else q.nextPromise } := by
  by_cases h : q.queue = [] <;> simp [onResolved, settlePromise, push, h]

theorem AsyncFifoQueue.onRejected_eq (promise : ℕ) (q : AsyncFifoQueue V) :
    q.onRejected ignoreErrors promise =
      { queue := if ignoreErrors then q.queue ++ [none] else q.queue
        pending := q.pending.erase promise
        nextPromise := q.nextPromise + 1 } := by
  cases ignoreErrors <;> rfl

/-- What a step does. -/
theorem World.step_cases {action : FifoAction} {w w' : World V}
    (h : step outcome ignoreErrors action w = some w') :
    (∃ promise, action = .add promise ∧
      w' = { w with fifo := w.fifo.add promise, callbacks := w.callbacks ++ [promise] }) ∨
    (∃ promise data, action = .settle promise ∧ outcome promise = some data ∧
      promise ∈ w.callbacks ∧
      w' = { w with
        fifo := w.fifo.onResolved promise data
        callbacks := w.callbacks.erase promise }) ∨
    (∃ promise, action = .settle promise ∧ outcome promise = none ∧ promise ∈ w.callbacks ∧
      w' = { w with
        fifo := w.fifo.onRejected ignoreErrors promise
        callbacks := w.callbacks.erase promise }) ∨
    (action = .fetch ∧ w.consumer = .idle ∧ w.fifo.pending = ∅ ∧ w.fifo.queue = [] ∧
      w' = { w with fetched := w.fetched ++ [.nothing] }) ∨
    (action = .fetch ∧ w.consumer = .idle ∧ (w.fifo.pending ≠ ∅ ∨ w.fifo.queue ≠ []) ∧
      w' = w.fetchLoop) ∨
    (∃ promise, action = .resume ∧ w.consumer = .waiting promise ∧ promise < w.fifo.nextPromise ∧
      w' = w.fetchLoop) := by
  cases action with
  | add promise => exact .inl ⟨promise, rfl, (Option.some.inj h).symm⟩
  | settle promise =>
    simp only [step] at h
    split at h
    · next hmem =>
      obtain rfl := Option.some.inj h
      cases houtcome : outcome promise with
      | some data => exact .inr (.inl ⟨promise, data, rfl, houtcome, hmem, rfl⟩)
      | none => exact .inr (.inr (.inl ⟨promise, rfl, houtcome, hmem, rfl⟩))
    · cases h
  | fetch =>
    simp only [step] at h
    split at h
    · next hidle =>
      obtain rfl : w.fetch = w' := Option.some.inj h
      by_cases hempty : w.fifo.pending = ∅ ∧ w.fifo.queue = []
      · refine .inr (.inr (.inr (.inl ⟨rfl, hidle, hempty.1, hempty.2, ?_⟩)))
        rw [fetch, if_pos (by simp [hempty])]
      · refine .inr (.inr (.inr (.inr (.inl ⟨rfl, hidle, ?_, ?_⟩))))
        · exact not_and_or.mp hempty
        · rw [fetch, if_neg (by simpa using hempty)]
    · cases h
  | resume =>
    simp only [step] at h
    cases hwaits : w.consumer with
    | idle => simp [hwaits] at h
    | waiting promise =>
      simp only [hwaits] at h
      split at h
      · next hlt =>
        exact .inr (.inr (.inr (.inr (.inr ⟨promise, rfl, rfl, hlt, (Option.some.inj h).symm⟩))))
      · cases h

/-- The loop of `fetch` waits, or takes the first value. -/
theorem World.fetchLoop_cases (w : World V) :
    (w.fifo.queue = [] ∧ w.fetchLoop = { w with consumer := .waiting w.fifo.nextPromise }) ∨
    ∃ data queue, w.fifo.queue = data :: queue ∧ w.fetchLoop =
      { w with
        fifo := { w.fifo with queue }
        consumer := .idle
        fetched := w.fetched ++ [.value data] } := by
  unfold fetchLoop
  split
  · next h => exact .inl ⟨h, rfl⟩
  · next data queue h => exact .inr ⟨data, queue, h, rfl⟩

/-- The consumer is left waiting for nothing by such a step only. -/
theorem World.step_stuck_iff {action : FifoAction} {w w' : World V}
    (h : step outcome ignoreErrors action w = some w') (hw : ¬ w.Stuck) :
    w'.Stuck ↔ Strands outcome ignoreErrors action w := by
  obtain ⟨promise, rfl, rfl⟩ | ⟨promise, data, rfl, houtcome, -, rfl⟩ |
    ⟨promise, rfl, houtcome, -, rfl⟩ | ⟨rfl, hidle, -, -, rfl⟩ | ⟨rfl, hidle, hsome, rfl⟩ |
    ⟨promise, rfl, hwaits, -, rfl⟩ := step_cases h
  · simp [Stuck, Strands, AsyncFifoQueue.add]
  · simp [Stuck, Strands, onResolved_eq, houtcome]
  · cases ignoreErrors with
    | true => simp [Stuck, Strands, onRejected_eq]
    | false =>
      simp only [Stuck, Strands, onRejected_eq, Finset.erase_eq_empty_iff, Bool.false_eq_true,
        if_false, true_and, Finset.subset_singleton_iff]
      constructor
      · rintro ⟨hwait, hpending, hqueue⟩
        exact ⟨promise, rfl, houtcome, hwait, hpending, hqueue⟩
      · rintro ⟨promise', heq, -, hwait, hpending, hqueue⟩
        obtain rfl : promise = promise' := by simpa using heq
        exact ⟨hwait, hpending, hqueue⟩
  · simp [Stuck, Strands, hidle]
  · obtain ⟨hqueue, heq⟩ | ⟨data, queue, -, heq⟩ := fetchLoop_cases w <;> rw [heq]
    · have hpending : w.fifo.pending ≠ ∅ := hsome.resolve_right fun h => h hqueue
      simp [Stuck, Strands, hpending]
    · simp [Stuck, Strands]
  · obtain ⟨hqueue, heq⟩ | ⟨data, queue, -, heq⟩ := fetchLoop_cases w <;> rw [heq]
    · have hpending : w.fifo.pending ≠ ∅ := fun hp => hw ⟨⟨promise, hwaits⟩, hp, hqueue⟩
      simp [Stuck, Strands, hpending]
    · simp [Stuck, Strands]

/-! ### Whole runs -/

theorem queuedBy_concat (actions : List FifoAction) (action : FifoAction) :
    queuedBy outcome ignoreErrors (actions ++ [action]) =
      queuedBy outcome ignoreErrors actions ++ queuedBy outcome ignoreErrors [action] :=
  List.filterMap_append

theorem unsettled_concat {actions : List FifoAction} {action : FifoAction} {promise : ℕ} :
    Unsettled (actions ++ [action]) promise ↔
      action = .add promise ∨ action ≠ .settle promise ∧ Unsettled actions promise := by
  constructor
  · rintro ⟨before, after, heq, hafter⟩
    obtain rfl | ⟨after, last, rfl⟩ := List.eq_nil_or_concat' after
    · exact .inl (List.head_eq_of_cons_eq (List.append_inj' heq rfl).2)
    · rw [← List.cons_append, ← List.append_assoc] at heq
      obtain ⟨rfl, hlast⟩ := List.append_inj' heq rfl
      obtain rfl : action = last := List.head_eq_of_cons_eq hlast
      simp only [List.mem_append, List.mem_singleton, not_or] at hafter
      exact .inr ⟨Ne.symm hafter.2, before, after, rfl, hafter.1⟩
  · rintro (rfl | ⟨hne, before, after, rfl, hafter⟩)
    · exact ⟨actions, [], rfl, List.not_mem_nil⟩
    · refine ⟨before, after ++ [action], by simp, ?_⟩
      simpa [hafter] using Ne.symm hne

theorem World.run_append (before after : List FifoAction) (w : World V) :
    run outcome ignoreErrors (before ++ after) w =
      (run outcome ignoreErrors before w).bind (run outcome ignoreErrors after) :=
  List.foldlM_append

theorem World.run_cons (action : FifoAction) (actions : List FifoAction) (w : World V) :
    run outcome ignoreErrors (action :: actions) w =
      (step outcome ignoreErrors action w).bind (run outcome ignoreErrors actions) :=
  List.foldlM_cons

theorem World.run_concat (actions : List FifoAction) (action : FifoAction) (w : World V) :
    run outcome ignoreErrors (actions ++ [action]) w =
      (run outcome ignoreErrors actions w).bind (step outcome ignoreErrors action) := by
  rw [run_append]
  congr 1
  funext v
  rw [run_cons]
  exact Option.bind_fun_some _

/-- What holds after some steps: what was queued has been delivered in order or is queued, the
pending promises are those not settled, and a consumer that waits is woken if something is queued.
-/
structure FifoAccounted (outcome : ℕ → Option V) (ignoreErrors : Bool) (actions : List FifoAction)
    (w : World V) : Prop where
  queued : w.delivered ++ w.fifo.queue = queuedBy outcome ignoreErrors actions
  pending : ∀ promise, promise ∈ w.fifo.pending ↔ Unsettled actions promise
  woken : ∀ promise, w.consumer = .waiting promise →
    promise ≤ w.fifo.nextPromise ∧ (w.fifo.queue ≠ [] → promise < w.fifo.nextPromise)

theorem accounted_nil : FifoAccounted outcome ignoreErrors [] ({} : World V) where
  queued := rfl
  pending promise := by simp [Unsettled]
  woken promise h := by cases h

/-- The loop of `fetch` moves the first value from the queue to what is delivered. -/
theorem FifoAccounted.fetchLoop {actions : List FifoAction} {action : FifoAction} {w : World V}
    (hw : FifoAccounted outcome ignoreErrors actions w)
    (haction : action = .fetch ∨ action = .resume) :
    FifoAccounted outcome ignoreErrors (actions ++ [action]) w.fetchLoop := by
  have hnone : queuedBy outcome ignoreErrors [action] = [] := by
    obtain rfl | rfl := haction <;> rfl
  have hpending : ∀ promise,
      Unsettled (actions ++ [action]) promise ↔ Unsettled actions promise := by
    intro promise
    obtain rfl | rfl := haction <;> simp [unsettled_concat]
  obtain ⟨hqueue, heq⟩ | ⟨data, queue, hqueue, heq⟩ := fetchLoop_cases w
  · rw [heq]
    refine ⟨?_, fun promise => (hw.pending promise).trans (hpending promise).symm, ?_⟩
    · rw [queuedBy_concat, hnone, List.append_nil, ← hw.queued]
      rfl
    · intro promise h
      obtain rfl : w.fifo.nextPromise = promise := by simpa using h
      exact ⟨le_rfl, fun hne => absurd hqueue hne⟩
  · rw [heq]
    refine ⟨?_, fun promise => (hw.pending promise).trans (hpending promise).symm, ?_⟩
    · rw [queuedBy_concat, hnone, List.append_nil, ← hw.queued, hqueue]
      simp [World.delivered, Fetched.data]
    · intro promise h
      cases h

theorem FifoAccounted.step {actions : List FifoAction} {action : FifoAction} {w w' : World V}
    (hw : FifoAccounted outcome ignoreErrors actions w)
    (h : step outcome ignoreErrors action w = some w') :
    FifoAccounted outcome ignoreErrors (actions ++ [action]) w' := by
  obtain ⟨promise, rfl, rfl⟩ | ⟨promise, data, rfl, houtcome, -, rfl⟩ |
    ⟨promise, rfl, houtcome, -, rfl⟩ | ⟨rfl, hidle, hpending, hqueue, rfl⟩ | ⟨rfl, hidle, -, rfl⟩ |
    ⟨promise, rfl, hwaits, -, rfl⟩ := step_cases h
  · refine ⟨?_, ?_, hw.woken⟩
    · rw [queuedBy_concat, ← hw.queued]
      simp [queuedBy, World.delivered, AsyncFifoQueue.add]
    · intro promise'
      simp [AsyncFifoQueue.add, unsettled_concat, hw.pending, eq_comm]
  · refine ⟨?_, ?_, ?_⟩
    · rw [queuedBy_concat, ← hw.queued]
      simp [queuedBy, World.delivered, onResolved_eq, houtcome]
    · intro promise'
      simp [onResolved_eq, unsettled_concat, hw.pending, eq_comm]
    · intro waited hwaits
      obtain ⟨hle, hlt⟩ := hw.woken waited hwaits
      simp only [onResolved_eq]
      split_ifs with hqueue
      · omega
      · exact ⟨hle, fun _ => hlt hqueue⟩
  · refine ⟨?_, ?_, ?_⟩
    · rw [queuedBy_concat, ← hw.queued]
      cases ignoreErrors <;> simp [queuedBy, World.delivered, onRejected_eq, houtcome]
    · intro promise'
      simp [onRejected_eq, unsettled_concat, hw.pending, eq_comm]
    · intro waited hwaits
      have hle := (hw.woken waited hwaits).1
      simp only [onRejected_eq]
      omega
  · refine ⟨?_, ?_, hw.woken⟩
    · rw [queuedBy_concat, ← hw.queued]
      simp [queuedBy, World.delivered, Fetched.data]
    · intro promise
      simp [unsettled_concat, hw.pending]
  · exact hw.fetchLoop (.inl rfl)
  · exact hw.fetchLoop (.inr rfl)

theorem World.run_accounted {actions : List FifoAction} {w : World V}
    (h : run outcome ignoreErrors actions {} = some w) :
    FifoAccounted outcome ignoreErrors actions w := by
  induction actions using List.reverseRecOn generalizing w with
  | nil =>
    obtain rfl : {} = w := Option.some.inj h
    exact accounted_nil
  | append_singleton actions action ih =>
    rw [run_concat] at h
    obtain ⟨v, hv, hstep⟩ := Option.bind_eq_some_iff.mp h
    exact (ih hv).step hstep

/-- No world of a run is stuck if no step of it strands the consumer. -/
theorem World.run_not_stuck {actions : List FifoAction} {w : World V}
    (h : run outcome ignoreErrors actions {} = some w)
    (hsteps : ∀ before action after v, actions = before ++ action :: after →
      run outcome ignoreErrors before {} = some v → ¬ Strands outcome ignoreErrors action v) :
    ¬ w.Stuck := by
  induction actions using List.reverseRecOn generalizing w with
  | nil =>
    obtain rfl : {} = w := Option.some.inj h
    simp [Stuck]
  | append_singleton actions action ih =>
    rw [run_concat] at h
    obtain ⟨v, hv, hstep⟩ := Option.bind_eq_some_iff.mp h
    have hbefore : ¬ v.Stuck := by
      refine ih hv fun before action' after v' heq hv' => ?_
      exact hsteps before action' (after ++ [action]) v' (by simp [heq]) hv'
    rw [step_stuck_iff hstep hbefore]
    exact hsteps actions action [] v rfl hv

/-- In every run the queued values are delivered once each and in order, `numTotal` counts the
promises not settled and the values not fetched, and a consumer that waits while something is queued
can go on. It waits while nothing is pending or queued just if a step of the run has stranded it. -/
theorem World.run_delivers {actions : List FifoAction} {w : World V}
    (h : run outcome ignoreErrors actions {} = some w) :
    w.delivered ++ w.fifo.queue = queuedBy outcome ignoreErrors actions ∧
    w.fifo.numTotal = {promise | Unsettled actions promise}.ncard +
      ((queuedBy outcome ignoreErrors actions).length - w.delivered.length) ∧
    (∀ promise, w.consumer = .waiting promise → w.fifo.queue ≠ [] →
      promise < w.fifo.nextPromise) ∧
    ((∀ before after v, actions = before ++ after →
        run outcome ignoreErrors before {} = some v → ¬ v.Stuck) ↔
      ∀ before action after v, actions = before ++ action :: after →
        run outcome ignoreErrors before {} = some v → ¬ Strands outcome ignoreErrors action v) := by
  have hw := run_accounted h
  refine ⟨hw.queued, ?_, fun promise hwaits => (hw.woken promise hwaits).2, ?_, ?_⟩
  · have hpending : {promise | Unsettled actions promise} = ↑w.fifo.pending := by
      ext promise
      exact (hw.pending promise).symm
    rw [hpending, Set.ncard_coe_finset, ← hw.queued, List.length_append, Nat.add_sub_cancel_left]
    rfl
  · -- A step from a state that is not stuck leads to a stuck one exactly if it strands the
    -- consumer.
    intro hnever before action after v heq hv
    obtain ⟨v', hstep⟩ : ∃ v', step outcome ignoreErrors action v = some v' := by
      rw [heq, run_append, hv, Option.bind_some, run_cons] at h
      obtain ⟨v', hstep, -⟩ := Option.bind_eq_some_iff.mp h
      exact ⟨v', hstep⟩
    rw [← step_stuck_iff hstep (hnever before (action :: after) v heq hv)]
    refine hnever (before ++ [action]) after v' (by simp [heq]) ?_
    rw [run_concat, hv]
    exact hstep
  · intro hsteps before after v heq hv
    refine run_not_stuck hv fun before' action after' v' heq' hv' => ?_
    exact hsteps before' action (after' ++ after) v' (by simp [heq, heq']) hv'

/-- The second of two promises resolves while the consumer waits, and then the first one. -/
theorem World.run_delivers_two :
    let actions : List FifoAction :=
      [.add 0, .add 1, .fetch, .settle 1, .resume, .settle 0, .fetch]
    let w : World ℕ :=
      { fifo := { nextPromise := 2 }, fetched := [.value (some 1), .value (some 0)] }
    w.delivered = [some 1, some 0] ∧
    w.delivered ++ w.fifo.queue = queuedBy some false actions := by
  intro actions w
  have h : run some false actions {} = some w := by rfl
  exact ⟨rfl, (run_delivers h).1⟩

/-- The consumer waits for the only promise, which is rejected: it goes on waiting. -/
theorem fetch_stranded :
    ¬ ∀ (outcome : ℕ → Option ℕ) (ignoreErrors : Bool) (actions : List FifoAction) (w : World ℕ),
      run outcome ignoreErrors actions {} = some w → ¬ w.Stuck := by
  intro h
  have hrun : run (fun _ => (none : Option ℕ)) false [.add 0, .fetch, .settle 0, .resume] {} =
      some { fifo := { nextPromise := 1 }, consumer := .waiting 1 } := by rfl
  exact h _ _ _ _ hrun ⟨⟨1, rfl⟩, rfl, rfl⟩

end BullMQ
