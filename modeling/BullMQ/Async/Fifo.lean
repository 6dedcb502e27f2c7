import Mathlib.Algebra.GroupWithZero.Nat
import Mathlib.Data.List.Nodup
import Mathlib.Data.List.Range

/-!
# First in, first out

Tasks are run in the order in which they are queued, and a task queues its children when it runs.
The log lists the tasks in the order in which they are queued. A task is told apart by its address:
the number of the child it is, followed by the address of its parent (`taskAt`). The log of a run
that ends lists every task once, the roots first and each other one after its parent (`run_log`).
-/

namespace Fifo

variable {τ : Type} (children : τ → List τ)

/-- Run the tasks in the queue, with at most `steps` tasks, and return the log. -/
def run : ℕ → List τ → List τ → Option (List τ)
  | 0, _, _ => none
  | _ + 1, log, [] => some log
  | steps + 1, log, t :: queue => run steps (log ++ children t) (queue ++ children t)

/-- The task at an address: the address of a child is its number and the address of its parent. -/
def taskAt (roots : List τ) : List ℕ → Option τ
  | [] => none
  | [i] => roots[i]?
  | c :: i :: a => (taskAt roots (i :: a)).bind fun t => (children t)[c]?

/-- The children of a task, with their addresses. -/
def addressed (x : List ℕ × τ) : List (List ℕ × τ) :=
  (children x.2).zipIdx.map fun y => (y.2 :: x.1, y.1)

/-- The roots with their addresses. -/
def addressedRoots (roots : List τ) : List (List ℕ × τ) := roots.zipIdx.map fun y => ([y.2], y.1)

variable {children}

theorem mem_addressed {x y : List ℕ × τ} :
    y ∈ addressed children x ↔ ∃ c, y.1 = c :: x.1 ∧ (children x.2)[c]? = some y.2 := by
  obtain ⟨a, t⟩ := y
  simp only [addressed, List.mem_map, Prod.exists, List.mem_zipIdx_iff_getElem?, Prod.mk.injEq]
  constructor
  · rintro ⟨t, c, h, rfl, rfl⟩
    exact ⟨c, rfl, h⟩
  · rintro ⟨c, rfl, h⟩
    exact ⟨t, c, h, rfl, rfl⟩

theorem mem_addressedRoots {roots : List τ} {y : List ℕ × τ} :
    y ∈ addressedRoots roots ↔ ∃ i, y.1 = [i] ∧ roots[i]? = some y.2 := by
  obtain ⟨a, t⟩ := y
  simp only [addressedRoots, List.mem_map, Prod.exists, List.mem_zipIdx_iff_getElem?,
    Prod.mk.injEq]
  constructor
  · rintro ⟨t, i, h, rfl, rfl⟩
    exact ⟨i, rfl, h⟩
  · rintro ⟨i, rfl, h⟩
    exact ⟨t, i, h, rfl, rfl⟩

theorem map_snd_addressed (x : List ℕ × τ) :
    (addressed children x).map Prod.snd = children x.2 := by
  rw [addressed, List.map_map]
  exact List.zipIdx_map_fst 0 _

theorem map_snd_addressedRoots (roots : List τ) :
    (addressedRoots roots).map Prod.snd = roots := by
  rw [addressedRoots, List.map_map]
  exact List.zipIdx_map_fst 0 _

/-- Different numbers make different addresses. -/
theorem nodup_map_zipIdx {β : Type} {f : ℕ → β} (hf : Function.Injective f) (l : List τ) :
    (l.zipIdx.map fun y => f y.2).Nodup := by
  have hrange : (l.zipIdx.map Prod.snd).Nodup := by
    rw [List.zipIdx_map_snd]
    exact List.nodup_range'
  have h := hrange.map hf
  rwa [List.map_map] at h

theorem addressed_nodup (x : List ℕ × τ) : ((addressed children x).map Prod.fst).Nodup := by
  rw [addressed, List.map_map]
  exact nodup_map_zipIdx (f := fun c => c :: x.1) (fun _ _ h => List.head_eq_of_cons_eq h) _

theorem addressedRoots_nodup (roots : List τ) : ((addressedRoots roots).map Prod.fst).Nodup := by
  rw [addressedRoots, List.map_map]
  exact nodup_map_zipIdx (f := fun i => [i]) (fun _ _ h => List.head_eq_of_cons_eq h) _

/-- The same run with addresses. -/
theorem run_map_snd (steps : ℕ) (log queue : List (List ℕ × τ)) :
    (run (addressed children) steps log queue).map (List.map Prod.snd) =
      run children steps (log.map Prod.snd) (queue.map Prod.snd) := by
  induction steps generalizing log queue with
  | zero => rfl
  | succ steps ih =>
    cases queue with
    | nil => rfl
    | cons x queue =>
      rw [List.map_cons, run, run, ih, List.map_append, List.map_append, map_snd_addressed]

/-! ### What a log lists -/

/-- A log in which the first `k` tasks have been run. -/
structure Logged (children : τ → List τ) (roots : List τ) (log : List (List ℕ × τ)) (k : ℕ) :
    Prop where
  first : log.take roots.length = addressedRoots roots
  sound : ∀ x ∈ log, taskAt children roots x.1 = some x.2
  nodup : (log.map Prod.fst).Nodup
  queued : ∀ x ∈ log.take k, ∀ y ∈ addressed children x, y ∈ log
  parent : ∀ i y, log[i]? = some y → roots.length ≤ i →
    ∃ j x, j < i ∧ j < k ∧ log[j]? = some x ∧ y ∈ addressed children x

namespace Logged

variable {roots : List τ} {log queue : List (List ℕ × τ)} {k : ℕ} {x : List ℕ × τ}

theorem init (children : τ → List τ) (roots : List τ) :
    Logged children roots (addressedRoots roots) 0 where
  first := List.take_of_length_le (by simp [addressedRoots])
  sound y hy := by
    obtain ⟨i, hi, hget⟩ := mem_addressedRoots.mp hy
    rw [hi]
    exact hget
  nodup := addressedRoots_nodup roots
  queued x hx := by simp at hx
  parent i y hi hle := by
    have hlt := (List.getElem?_eq_some_iff.mp hi).1
    simp only [addressedRoots, List.length_map, List.length_zipIdx] at hlt
    omega

/-- The length of a log is at least the number of roots. -/
theorem length_le (h : Logged children roots log k) : roots.length ≤ log.length := by
  have hlen := congrArg List.length h.first
  simp only [List.length_take, addressedRoots, List.length_map, List.length_zipIdx] at hlen
  omega

theorem ne_nil (h : Logged children roots log k) (hx : x ∈ log) : x.1 ≠ [] := by
  intro hnil
  have := h.sound x hx
  rw [hnil] at this
  cases this

/-- An address that is not a root's belongs to a child of a task that has been run. -/
theorem parent_of_getElem (h : Logged children roots log k) {i c : ℕ} {a : List ℕ} {t : τ}
    (hi : log[i]? = some (c :: a, t)) (ha : a ≠ []) :
    ∃ j u, j < i ∧ j < k ∧ log[j]? = some (a, u) := by
  have hle : roots.length ≤ i := by
    by_contra hlt
    have hroot : (log.take roots.length)[i]? = some (c :: a, t) := by
      rw [List.getElem?_take_of_lt (by omega), hi]
    rw [h.first] at hroot
    obtain ⟨j, hj, -⟩ := mem_addressedRoots.mp (List.mem_of_getElem? hroot)
    exact ha (List.cons.inj hj).2
  obtain ⟨j, x, hji, hjk, hj, hmem⟩ := h.parent i _ hi hle
  obtain ⟨c', hc, -⟩ := mem_addressed.mp hmem
  have hx : a = x.1 := (List.cons.inj hc).2
  exact ⟨j, x.2, hji, hjk, by rw [hj, hx]⟩

theorem getElem_of_drop (hqueue : log.drop k = x :: queue) : log[k]? = some x := by
  rw [← List.head?_drop, hqueue, List.head?_cons]

/-- The children of the next task are new. -/
theorem notMem_of_next (h : Logged children roots log k) (hqueue : log.drop k = x :: queue)
    {c : ℕ} {t : τ} : (c :: x.1, t) ∉ log := by
  intro hmem
  have hx : x ∈ log := List.mem_of_getElem? (getElem_of_drop hqueue)
  obtain ⟨i, hi⟩ := List.mem_iff_getElem?.mp hmem
  obtain ⟨j, u, -, hjk, hj⟩ := h.parent_of_getElem hi (h.ne_nil hx)
  -- two tasks with the address of `x`: one that has been run, and `x` itself
  have hsplit : log = log.take k ++ x :: queue := by rw [← hqueue, List.take_append_drop]
  have hrun : (x.1, u) ∈ log.take k :=
    List.mem_of_getElem? (by rw [List.getElem?_take_of_lt hjk, hj])
  have hnodup := h.nodup
  rw [hsplit, List.map_append, List.nodup_append'] at hnodup
  exact hnodup.2.2 (List.mem_map.mpr ⟨_, hrun, rfl⟩) (by simp)

/-- Running the next task. -/
theorem step (h : Logged children roots log k) (hqueue : log.drop k = x :: queue) :
    Logged children roots (log ++ addressed children x) (k + 1) := by
  have hget := getElem_of_drop hqueue
  have hx : x ∈ log := List.mem_of_getElem? hget
  have hk : k < log.length := (List.getElem?_eq_some_iff.mp hget).1
  refine ⟨?_, fun y hy => ?_, ?_, fun z hz y hy => ?_, fun i y hi hle => ?_⟩
  · rw [List.take_append_of_le_length h.length_le, h.first]
  · refine (List.mem_append.mp hy).elim (h.sound y) fun hy => ?_
    obtain ⟨c, hc, hchild⟩ := mem_addressed.mp hy
    obtain ⟨i, a, hia⟩ := List.exists_cons_of_ne_nil (h.ne_nil hx)
    have hsound := h.sound x hx
    rw [hia] at hsound
    rw [hc, hia, taskAt, hsound]
    exact hchild
  · rw [List.map_append, List.nodup_append']
    refine ⟨h.nodup, addressed_nodup x, fun b hb hb' => ?_⟩
    obtain ⟨y, hy, rfl⟩ := List.mem_map.mp hb
    obtain ⟨z, hz, hzy⟩ := List.mem_map.mp hb'
    obtain ⟨c, hc, -⟩ := mem_addressed.mp hz
    refine h.notMem_of_next hqueue (c := c) (t := y.2) ?_
    rwa [← hc, hzy]
  · rw [List.take_append_of_le_length hk, List.take_add_one, hget, List.mem_append] at hz
    rcases hz with hz | hz
    · exact List.mem_append_left _ (h.queued z hz y hy)
    · obtain rfl : z = x := by simpa using hz
      exact List.mem_append_right _ hy
  · rw [List.getElem?_append] at hi
    by_cases hlt : i < log.length
    · rw [if_pos hlt] at hi
      obtain ⟨j, z, hji, hjk, hj, hmem⟩ := h.parent i y hi hle
      exact ⟨j, z, hji, by omega, by rw [List.getElem?_append_left (by omega), hj], hmem⟩
    · rw [if_neg hlt] at hi
      refine ⟨k, x, by omega, by omega, ?_, List.mem_of_getElem? hi⟩
      rw [List.getElem?_append_left hk, hget]

/-- When all tasks have been run, all are listed. -/
theorem complete (h : Logged children roots log log.length) {a : List ℕ} {t : τ}
    (ht : taskAt children roots a = some t) : (a, t) ∈ log := by
  induction a generalizing t with
  | nil => cases ht
  | cons c a ih =>
    cases a with
    | nil =>
      have hroot : ([c], t) ∈ addressedRoots roots := mem_addressedRoots.mpr ⟨c, rfl, ht⟩
      rw [← h.first] at hroot
      exact List.mem_of_mem_take hroot
    | cons i a =>
      obtain ⟨u, hu, hchild⟩ := Option.bind_eq_some_iff.mp ht
      have hmem := ih hu
      rw [← List.take_length (l := log)] at hmem
      exact h.queued _ hmem _ (mem_addressed.mpr ⟨c, rfl, hchild⟩)

end Logged

/-! ### Whole runs -/

theorem run_logged {roots : List τ} (steps : ℕ) {log queue result : List (List ℕ × τ)} {k : ℕ}
    (h : Logged children roots log k) (hqueue : log.drop k = queue) (hk : k ≤ log.length)
    (hrun : run (addressed children) steps log queue = some result) :
    Logged children roots result result.length := by
  induction steps generalizing log queue k with
  | zero => cases hrun
  | succ steps ih =>
    cases queue with
    | nil =>
      obtain rfl : log = result := Option.some.inj hrun
      obtain rfl : k = log.length := by
        have := List.drop_eq_nil_iff.mp hqueue
        omega
      exact h
    | cons x queue =>
      rw [run] at hrun
      have hget : log[k]? = some x := Logged.getElem_of_drop hqueue
      have hlt : k + 1 ≤ log.length := (List.getElem?_eq_some_iff.mp hget).1
      have htail : log.drop (k + 1) = queue := by rw [← List.drop_drop, hqueue]; rfl
      refine ih (h.step hqueue) ?_ (by rw [List.length_append]; omega) hrun
      rw [List.drop_append_of_le_length hlt, htail]

/-- A run runs all that is queued, and then what that has queued. -/
theorem run_level {steps : ℕ} {log queue : List τ} {result : List τ}
    (hrun : run children steps log queue = some result) :
    ∃ k, steps = k + queue.length ∧
      run children k (log ++ queue.flatMap children) (queue.flatMap children) = some result := by
  have hmore : ∀ (queue log later : List τ) (steps : ℕ),
      run children steps log (queue ++ later) = some result →
        ∃ k, steps = k + queue.length ∧ run children k (log ++ queue.flatMap children)
          (later ++ queue.flatMap children) = some result := by
    intro queue
    induction queue with
    | nil => exact fun log later steps h => ⟨steps, rfl, by simpa using h⟩
    | cons t queue ih =>
      intro log later steps h
      cases steps with
      | zero => cases h
      | succ steps =>
        rw [List.cons_append, run, List.append_assoc] at h
        obtain ⟨k, hk, h⟩ := ih _ _ _ h
        refine ⟨k, by rw [hk, List.length_cons]; omega, ?_⟩
        rwa [List.append_assoc, List.append_assoc] at h
  have h := hmore queue log [] steps (by rwa [List.append_nil])
  simpa using h

/-- A run ends if every task is larger than its children together. -/
theorem run_ends {size : τ → ℕ} (hsize : ∀ t, ((children t).map size).sum < size t) (steps : ℕ)
    {log queue : List τ} (hsteps : (queue.map size).sum < steps) :
    (run children steps log queue).isSome := by
  induction steps generalizing log queue with
  | zero => omega
  | succ steps ih =>
    cases queue with
    | nil => rfl
    | cons t queue =>
      have ht := hsize t
      rw [List.map_cons, List.sum_cons] at hsteps
      refine ih ?_
      rw [List.map_append, List.sum_append]
      omega

/-- **The log of a run from the roots** lists every task once, the roots first in their order, and
every other task after its parent. -/
theorem run_log {size : τ → ℕ} (hsize : ∀ t, ((children t).map size).sum < size t)
    (roots : List τ) {steps : ℕ} (hsteps : (roots.map size).sum < steps) :
    ∃ log : List (List ℕ × τ), run children steps roots roots = some (log.map Prod.snd) ∧
      (log.map Prod.fst).Nodup ∧ (∀ a t, (a, t) ∈ log ↔ taskAt children roots a = some t) ∧
      log.take roots.length = addressedRoots roots ∧
      ∀ (i c : ℕ) a t, log[i]? = some (c :: a, t) → a ≠ [] → ∃ j u, j < i ∧
      log[j]? = some (a, u) := by
  have hmap : (run (addressed children) steps (addressedRoots roots) (addressedRoots roots)).map
      (List.map Prod.snd) = run children steps roots roots := by
    rw [run_map_snd, map_snd_addressedRoots]
  have hends : (run children steps roots roots).isSome := run_ends hsize steps hsteps
  obtain ⟨result, hresult⟩ := Option.isSome_iff_exists.mp hends
  rw [hresult] at hmap
  obtain ⟨log, hlog, rfl⟩ := Option.map_eq_some_iff.mp hmap
  have h := run_logged steps (.init children roots) rfl (Nat.zero_le _) hlog
  refine ⟨log, hresult, h.nodup, fun a t => ⟨h.sound (a, t), h.complete⟩, h.first, ?_⟩
  intro i c a t hi ha
  obtain ⟨j, u, hji, -, hj⟩ := h.parent_of_getElem hi ha
  exact ⟨j, u, hji, hj⟩

end Fifo
