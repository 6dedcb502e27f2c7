import BullMQ.Model.Blocking
import BullMQ.Wakeups.Commands

/-!
# No wake-up is lost

Workers that find no job block on the marker key. Whatever any number of workers and clients do, a
queue that hands out its jobs has none in line behind the back of its workers: the marker is there
for the blocked ones, or one of them is about to fetch.
-/

namespace BullMQ

open Redis

variable {W : Type} [DecidableEq W] {p : String} {s : Store} {y y' x : Crew W} {w : W} {t : ℤ}
  {o : FetchOpts}

/-! ### What a fetch does -/

/-- Redis takes the lock and the rate limit that a worker asks for. -/
structure CanFetch (p : String) (o : FetchOpts) (s : Store) : Prop where
  lock : o.token = "0" ∨ 0 < o.lockDuration
  limiter : (maxJobsOf p o s).isSome = true → (limiterDurationOf p o s).isSome = true

theorem countActivation_true {m d : Option ℤ} (h : m.isSome = true → d.isSome = true) :
    (countActivation m d p s).1 = true := by
  unfold countActivation
  split
  · rfl
  · simp only
    split
    · split
      · simp at h
      · split <;> rfl
    · rfl

theorem prepareJobForProcessing_marks {j : String} {m d : Option ℤ}
    (hlock : o.token = "0" ∨ 0 < o.lockDuration) (h : m.isSome = true → d.isSome = true) :
    ∃ data s', prepareJobForProcessing p j t m d o s = (.job data j, s') ∧ Marks p s' := by
  have hcount := countActivation_true (p := p) (s := s) h
  have hok : ¬ (¬ (countActivation m d p s).1 = true ∨ o.token ≠ "0" ∧ o.lockDuration ≤ 0) := by
    rintro (hno | ⟨htoken, hduration⟩)
    · exact hno hcount
    · rcases hlock with h | h
      · exact htoken h
      · omega
  simp only [prepareJobForProcessing]
  rw [if_neg hok]
  exact ⟨_, _, rfl, by simp [Marks, addBaseMarkerIfNeeded, SortedSet.zscore_zadd]⟩

theorem rpoplpush_none (h : (rpoplpush p s).1 = none) :
    rpoplpush p s = (none, s) ∧ s (.list .wait) p = [] := by
  obtain ⟨hwait, heq⟩ | ⟨j, l, -, heq⟩ := rpoplpush_cases p s
  · exact ⟨heq, hwait⟩
  · rw [heq] at h
    cases h

theorem rpoplpushPastMarker_none (h : (rpoplpushPastMarker p s).1 = none) :
    (rpoplpushPastMarker p s).2 (.list .wait) p = [] := by
  simp only [rpoplpushPastMarker] at h ⊢
  split at h
  · next j hj =>
    split at h
    · next hlegacy =>
      obtain ⟨heq, hwait⟩ := rpoplpush_none h
      simp only [hlegacy, if_true, heq, hwait]
    · cases h
  · next hnone =>
    obtain ⟨heq, hwait⟩ := rpoplpush_none hnone
    simp only [heq, hwait]

/-- `moveToActive` pops a job or finds the line empty. -/
theorem popForMoveToActive_cases (p : String) (s : Store) :
    (∃ j, (popForMoveToActive p s).1 = .job j) ∨
    (popForMoveToActive p s).1 = .nothing ∧ EmptyLine p (popForMoveToActive p s).2 := by
  rcases hpast : (rpoplpushPastMarker p s).1 with _ | j
  · have hwait := rpoplpushPastMarker_none hpast
    simp only [popForMoveToActive, hpast]
    obtain ⟨hprio, heq⟩ | ⟨j, -, heq⟩ :=
      moveJobFromPrioritizedToActive_cases p (rpoplpushPastMarker p s).2 <;> rw [heq]
    · exact .inr ⟨rfl, by rw [Keyspace.set_of_ne _ (by decide), hwait],
        by rw [Keyspace.set_of_ne _ (by decide), hprio]⟩
    · exact .inl ⟨j, rfl⟩
  · exact .inl ⟨j, by simp only [popForMoveToActive, hpast]⟩

/-- **The ends of a fetch** on a queue that hands out its jobs: the worker is told to wait for the
rate limit; it gets a job and leaves the marker for the others; or nothing is in line. -/
theorem moveToActive_ends (hout : HandsOut p s) (ho : CanFetch p o s) :
    (∃ e u, 0 < e ∧ (Script.moveToActive p t o s).1 = .noJob e u) ∨
    (∃ data j, (Script.moveToActive p t o s).1 = .job data j ∧
      Marks p (Script.moveToActive p t o s).2) ∨
    ∃ u, (Script.moveToActive p t o s).1 = .noJob 0 u ∧
      EmptyLine p (Script.moveToActive p t o s).2 := by
  simp only [Script.moveToActive, fetchWith, getQueueMetadata, hout.not_maxed]
  by_cases hexpire : 0 < (startFetch p t o s).1
  · rw [if_pos hexpire]
    exact .inl ⟨_, 0, by exact_mod_cast hexpire, rfl⟩
  · rw [if_neg hexpire, if_neg (by decide)]
    obtain ⟨j, hj⟩ | ⟨hnothing, hempty⟩ := popForMoveToActive_cases p (startFetch p t o s).2
    · obtain ⟨data, s', hprep, hmarks⟩ :=
        prepareJobForProcessing_marks (p := p) (t := t) (j := j)
          (s := (popForMoveToActive p (startFetch p t o s).2).2) ho.lock ho.limiter
      simp only [takeJob, hj, hprep]
      exact .inr (.inl ⟨data, j, rfl, hmarks⟩)
    · simp only [takeJob, hnothing]
      cases getNextDelayedTimestamp p (popForMoveToActive p (startFetch p t o s).2).2 with
      | none => exact .inr (.inr ⟨0, rfl, hempty⟩)
      | some u => exact .inr (.inr ⟨_, rfl, hempty⟩)

/-! ### What the pop of a marker does -/

/-- The marker of an available job comes first, or behind one that is due already. -/
theorem popMarker_le (h : Marks p s) : ∃ k s', popMarker p s = some (k, s') ∧ k ≤ 0 := by
  have hmem : toLex ((0 : ℚ), "0") ∈ (s .marker p).entries := SortedSet.zscore_eq_some.mp h
  have hsorted := (s .marker p).sorted
  unfold popMarker
  split
  · next hnil =>
    rw [hnil] at hmem
    cases hmem
  · next e l hl =>
    refine ⟨_, _, rfl, ?_⟩
    rw [hl] at hmem hsorted
    rcases List.mem_cons.mp hmem with rfl | hrest
    · exact le_rfl
    · have hle := (List.pairwise_cons.mp hsorted).1 _ hrest
      exact (Prod.Lex.le_iff.mp hle).elim (fun h => h.le) fun h => h.1.le

theorem popMarker_frame {k : ℚ} {s' : Store} (h : popMarker p s = some (k, s')) {κ : Kind}
    (hκ : κ ≠ .marker) : s' κ = s κ := by
  unfold popMarker at h
  split at h
  · cases h
  · obtain ⟨-, rfl⟩ := Prod.mk.inj (Option.some.inj h)
    exact Keyspace.modify_of_ne _ hκ ..

/-- The pop of another marker leaves nothing unannounced. -/
theorem Announced.popMarker {k : ℚ} {s' : Store} (h : Announced p s) (hmarks : ¬ Marks p s)
    (hpop : BullMQ.popMarker p s = some (k, s')) : Announced p s' := by
  have hframe : ∀ {κ}, κ ≠ Kind.marker → s' κ = s κ := popMarker_frame hpop
  intro hout hbusy
  have hout' : HandsOut p s :=
    ⟨by rw [← hframe (by decide), hout.running], by rw [← hframe (by decide), hout.unbounded]⟩
  refine absurd (h hout' fun hempty => hbusy ?_) hmarks
  exact ⟨by rw [hframe (by decide), hempty.wait], by rw [hframe (by decide), hempty.prioritized]⟩

/-! ### Runs -/

/-- A loop that fetches without having to be woken up. -/
def FetchLoop.Awake (loop : FetchLoop) : Prop := loop = .fetching ∨ loop = .delaying

/-- The actions of the runs: no prioritized job is pushed back, and Redis takes what the workers
ask for. -/
def CrewAction.Allowed (p : String) (s : Store) : CrewAction W → Prop
  | .script c => ∀ c', c = .job c' → PushesBackPlainly p s c'
  | .moveToActive _ _ o => CanFetch p o s
  | _ => True

/-- One action of the runs. -/
def CrewStep (p : String) (y : Crew W) (a : CrewAction W) (y' : Crew W) : Prop :=
  a.Allowed p y.store ∧ y.step p a = some y'

/-- The jobs in line are announced, or some worker fetches. -/
def Attended (p : String) (y : Crew W) : Prop :=
  Announced p y.store ∨ ∃ w, (y.loop w).Awake

/-- An awake worker stays awake while the loop of another one goes on. -/
theorem awake_goTo {loop : FetchLoop} {s : Store} (hw : ¬ (y.loop w).Awake)
    (h : ∃ w, (y.loop w).Awake) :
    ∃ v, (({ y with store := s } : Crew W).goTo w loop |>.loop v).Awake := by
  obtain ⟨v, hv⟩ := h
  have hne : v ≠ w := by
    rintro rfl
    exact hw hv
  exact ⟨v, by simpa [Crew.goTo, Function.update_of_ne hne] using hv⟩

theorem awake_fetching (y : Crew W) (w : W) : ∃ v, ((y.goTo w .fetching).loop v).Awake :=
  ⟨w, .inl (by simp [Crew.goTo])⟩

/-- The pop of a marker attends to the jobs in line: it wakes the worker or pops another marker. -/
theorem Attended.unblock {k : ℚ} {due : Bool} (h : Attended p y) (hw : y.loop w = .blocked)
    (hpop : popMarker p y.store = some (k, s)) :
    Attended p (({ y with store := s } : Crew W).goTo w
      (if k ≤ 0 ∨ due then .fetching else .busy)) := by
  rcases h with hann | hawake
  · by_cases hmarks : Marks p y.store
    · obtain ⟨k', s', hpop', hle⟩ := popMarker_le hmarks
      obtain ⟨rfl, rfl⟩ : k' = k ∧ s' = s := by simpa [hpop] using hpop'.symm
      rw [if_pos (.inl hle)]
      exact .inr (awake_fetching _ w)
    · exact .inl (hann.popMarker hmarks hpop)
  · exact .inr (awake_goTo (by simp [hw, FetchLoop.Awake]) hawake)

theorem Attended.moveToActive (ho : CanFetch p o y.store) :
    Attended p (({ y with store := (Script.moveToActive p t o y.store).2 } : Crew W).goTo w
      (Crew.afterReply (Script.moveToActive p t o y.store).1)) := by
  by_cases hout : HandsOut p y.store
  · obtain ⟨e, u, he, hreply⟩ | ⟨data, j, -, hmarks⟩ | ⟨u, -, hempty⟩ :=
      moveToActive_ends (t := t) hout ho
    · refine .inr ⟨w, .inr ?_⟩
      simp [Crew.goTo, hreply, Crew.afterReply, he]
    · exact .inl fun _ _ => hmarks
    · exact .inl fun _ hbusy => absurd hempty hbusy
  · have hkeep : Wakes p y.store (Script.moveToActive p t o y.store).2 := .moveToActive t o
    exact .inl fun hout' => absurd (hkeep.handsOut.mp hout') hout

theorem Attended.step {a : CrewAction W} (h : Attended p y) (hstep : CrewStep p y a y') :
    Attended p y' := by
  obtain ⟨hallowed, hstep⟩ := hstep
  -- A script keeps the queue announced; what a loop does leaves it awake, or has popped the marker.
  cases a with
  | script c =>
    obtain ⟨r, hexec, rfl⟩ := Option.map_eq_some_iff.mp hstep
    exact h.imp (fun hann => hann.execQueue hexec hallowed) id
  | getNextJob w drained =>
    obtain ⟨hw, rfl⟩ := Option.ite_some_none_eq_some.mp hstep
    exact h.imp id (awake_goTo (by simp [hw, FetchLoop.Awake]))
  | unblock w due =>
    simp only [Crew.step] at hstep
    split at hstep
    · next hw =>
      obtain ⟨⟨k, s⟩, hpop, rfl⟩ := Option.map_eq_some_iff.mp hstep
      exact h.unblock hw hpop
    · cases hstep
  | timeout w =>
    obtain ⟨hw, rfl⟩ := Option.ite_some_none_eq_some.mp hstep
    exact .inr (awake_fetching y w)
  | fail w =>
    obtain ⟨hw, rfl⟩ := Option.ite_some_none_eq_some.mp hstep
    exact h.imp id (awake_goTo (by simp [hw, FetchLoop.Awake]))
  | endDelay w =>
    obtain ⟨hw, rfl⟩ := Option.ite_some_none_eq_some.mp hstep
    exact .inr (awake_fetching y w)
  | moveToActive w t o =>
    obtain ⟨hw, rfl⟩ := Option.ite_some_none_eq_some.mp hstep
    exact .moveToActive hallowed

/-- **No wake-up is lost**, as long as no prioritized job is pushed back. In every state that any
workers of a queue and any other scripts reach, jobs in line of a queue that hands them out are
announced by a marker, which sends the next blocked worker that pops it to fetch, or some worker is
about to fetch already. -/
theorem no_lost_wakeup {steps : List (Crew W × CrewAction W × Crew W)} (h₀ : Announced p x.store)
    (run : Transition.Run (CrewStep p) x steps y) (hout : HandsOut p y.store)
    (hline : ¬ EmptyLine p y.store) :
    (Marks p y.store ∧ ∀ w due, y.loop w = .blocked →
      ∃ y', y.step p (.unblock w due) = some y' ∧ y'.loop w = .fetching) ∨
    ∃ w, (y.loop w).Awake := by
  have hattended : Attended p y := run.invariant (.inl h₀) fun _ _ _ => Attended.step
  refine hattended.imp (fun hann => ?_) id
  have hmarks := hann hout hline
  refine ⟨hmarks, fun w due hw => ?_⟩
  obtain ⟨k, s, hpop, hle⟩ := popMarker_le hmarks
  refine ⟨_, by simp only [Crew.step, hw, if_true, hpop, Option.map_some]; rfl, ?_⟩
  simp [Crew.goTo, hle]

/-- A worker blocks, a client adds a job, and the marker wakes the worker. -/
theorem no_lost_wakeup_sample :
    let add : Command := .addStandardJob "bull:q:" { name := "a", data := "", timestamp := 1 }
    let y : Crew Unit := { store := (add.exec .empty).elim .empty Prod.snd,
                           loop := Function.update (fun _ => .busy) () .blocked }
    (Marks "bull:q:" y.store ∧ ∀ w due, y.loop w = .blocked →
      ∃ y', y.step "bull:q:" (.unblock w due) = some y' ∧ y'.loop w = .fetching) ∨
      ∃ w, (y.loop w).Awake := by
  intro add y
  let x : Crew Unit := { store := .empty, loop := fun _ => .busy }
  let y₁ : Crew Unit := x.goTo () .blocked
  have hblock : CrewStep "bull:q:" x (.getNextJob () true) y₁ := ⟨trivial, rfl⟩
  have hadd : CrewStep "bull:q:" y₁ (.script (.job add)) y := by
    refine ⟨fun c' hc' => ?_, rfl⟩
    obtain rfl : add = c' := by simpa using hc'
    trivial
  refine no_lost_wakeup (x := x) (fun _ h => absurd ⟨rfl, rfl⟩ h)
    ((Transition.Run.single hblock).snoc hadd) ⟨rfl, rfl⟩ fun hempty => ?_
  exact absurd hempty.wait (by decide)

/-- A client adds a prioritized job, another one fetches it; the worker finds nothing twice, the
second time behind the marker that the activation has left, and blocks; the job is pushed back. -/
def pushedBackBehindWorker : List (CrewAction Unit) :=
  [.script (.job (.addPrioritizedJob "bull:q:"
      { name := "a", data := "", timestamp := 1, opts := { priority := 1 } })),
   .script (.job (.moveToActive "bull:q:" 2 { token := "c:0", lockDuration := 30000 })),
   .moveToActive () 2 { token := "w:0", lockDuration := 30000 }, .getNextJob () true,
   .unblock () false, .moveToActive () 3 { token := "w:1", lockDuration := 30000 },
   .getNextJob () true,
   .script (.job (.moveJobFromActiveToWait "bull:q:" "1" "c:0"))]

/-- The only worker is blocked, no marker is set, and a job is in line. -/
theorem pushedBack_unannounced :
    ∃ (y : Crew Unit) (steps : List (Crew Unit × CrewAction Unit × Crew Unit)),
      Transition.Run (fun y a y' => y.step "bull:q:" a = some y')
        { store := .empty, loop := fun _ => .fetching } steps y ∧
      HandsOut "bull:q:" y.store ∧ "1" ∈ y.store (.zset .prioritized) "bull:q:" ∧
      (y.store .marker "bull:q:").members = [] ∧ y.loop () = .blocked := by
  set x : Crew Unit := { store := .empty, loop := fun _ => .fetching } with hx
  set o := pushedBackBehindWorker.foldlM (fun y a => y.step "bull:q:" a) x with ho
  have hsome : o.isSome = true := by decide +kernel
  have hstate : o.map (fun y => (y.store .metaPaused "bull:q:", y.store .metaConcurrency "bull:q:",
      decide ("1" ∈ y.store (.zset .prioritized) "bull:q:"), (y.store .marker "bull:q:").members,
      y.loop ())) = some (false, none, true, [], .blocked) := by decide +kernel
  obtain ⟨y, hy⟩ := Option.isSome_iff_exists.mp hsome
  obtain ⟨steps, run⟩ := Transition.Run.of_foldlM (ho.symm.trans hy)
  rw [hy] at hstate
  simp only [Option.map_some, Option.some.injEq, Prod.mk.injEq, decide_eq_true_eq] at hstate
  obtain ⟨hrunning, hunbounded, hline, hmarker, hloop⟩ := hstate
  exact ⟨y, steps, run, ⟨hrunning, hunbounded⟩, hline, hmarker, hloop⟩

end BullMQ
