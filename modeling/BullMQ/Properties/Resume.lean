import BullMQ.Model.Queue

/-!
# Resuming a queue

A resume moves the jobs of the legacy paused list behind those that wait, all at once or 7000 a
call, and calls again as long as some are left. The two lists read one after the other stay the same
line (`Resumes`), so that at the end all of it is in the wait list (`resume_drains`).
-/

namespace BullMQ

open Redis

/-- A marker that workers find. -/
def Marked (p : String) (s : Store) : Prop := ∃ m, m ∈ s .marker p

/-- A job that waits, is prioritized or delayed. -/
def HasWork (p : String) (s : Store) : Prop :=
  s (.list .wait) p ≠ [] ∨ s (.zset .prioritized) p ≠ ∅ ∨ s (.zset .delayed) p ≠ ∅

/-- What the calls of a resume do: the wait list and the paused list make up the same line as
before, the queue is not paused, and the given events are emitted. -/
structure Resumes (p : String) (emitted : List Event) (s s' : Store) : Prop where
  line : s' (.list .wait) p ++ s' (.list .paused) p = s (.list .wait) p ++ s (.list .paused) p
  running : s' .metaPaused p = false
  marker : HasWork p s' → Marked p s'
  events : s' .events p = s .events p ++ emitted
  others : ∀ {κ}, κ ∉ [Kind.metaPaused, .marker, .list .wait, .list .paused, .events] → s' κ = s κ

variable {p : String} {s s' s'' : Store} {l l' : List Event}

theorem Resumes.trans (h : Resumes p l s s') (h' : Resumes p l' s' s'') :
    Resumes p (l ++ l') s s'' where
  line := h'.line.trans h.line
  running := h'.running
  marker := h'.marker
  events := by rw [h'.events, h.events, List.append_assoc]
  others hκ := (h'.others hκ).trans (h.others hκ)

/-! ### One call -/

/-- The jobs that leave the paused list go behind those that wait. -/
theorem drainPaused_line (p : String) (s : Store) :
    drainPaused p s (.list .wait) p ++ drainPaused p s (.list .paused) p =
      s (.list .wait) p ++ s (.list .paused) p := by
  unfold drainPaused
  by_cases hnil : s (.list .paused) p = []
  · rw [if_pos hnil]
  rw [if_neg hnil]
  by_cases hwait : s (.list .wait) p = []
  · rw [if_pos hwait]
    simp [Keyspace.set_of_ne, Keyspace.set_self, hwait]
  · rw [if_neg hwait]
    simp [Keyspace.set_of_ne, Keyspace.set_self, Keyspace.modify_of_ne, Keyspace.modify_self]

/-- A call leaves no more than all but 7000 jobs in the paused list. -/
theorem length_drainPaused_le (p : String) (s : Store) :
    (drainPaused p s (.list .paused) p).length ≤ (s (.list .paused) p).length - 7000 := by
  unfold drainPaused
  by_cases hnil : s (.list .paused) p = []
  · rw [if_pos hnil, hnil]
    exact Nat.zero_le _
  rw [if_neg hnil]
  by_cases hwait : s (.list .wait) p = []
  · rw [if_pos hwait]
    simp [Keyspace.set_self]
  · rw [if_neg hwait]
    simp [Keyspace.set_self]

/-- Where there is work there is a marker. -/
theorem markResumed_marked (hwork : HasWork p (markResumed p s)) : Marked p (markResumed p s) := by
  have hframe : ∀ {κ}, κ ≠ Kind.marker → markResumed p s κ = s κ := markResumed_frame p s
  rw [HasWork, hframe (by decide), hframe (by decide), hframe (by decide)] at hwork
  unfold markResumed
  by_cases hready : s (.list .wait) p ≠ [] ∨ s (.zset .prioritized) p ≠ ∅
  · rw [if_pos hready]
    refine ⟨"0", ?_⟩
    rw [Keyspace.modify_self, Function.update_self, SortedSet.mem_zadd]
    exact .inl rfl
  · rw [if_neg hready]
    have hdelayed : s (.zset .delayed) p ≠ ∅ := by
      rw [not_or] at hready
      exact (hwork.resolve_left hready.1).resolve_left hready.2
    have hentries : (s (.zset .delayed) p).entries ≠ [] := fun h =>
      hdelayed (SortedSet.eq_empty_iff.mpr (by rw [SortedSet.members, h]; rfl))
    obtain ⟨e, rest, he⟩ := List.exists_cons_of_ne_nil hentries
    refine ⟨"1", ?_⟩
    rw [addDelayMarkerIfNeeded, getNextDelayedTimestamp, he]
    simp only [List.head?_cons, Option.map_some]
    rw [Keyspace.modify_self, Function.update_self, SortedSet.mem_zadd]
    exact .inl rfl

theorem resumeQueue_resumes (p : String) (s : Store) :
    Resumes p [] s (resumeQueue p s) ∧
      (resumeQueue p s (.list .paused) p).length ≤ (s (.list .paused) p).length - 7000 := by
  set s₁ : Store := s.set .metaPaused p false with hs₁
  have hlist : ∀ l : ListKey, s₁ (.list l) p = s (.list l) p := fun l => by
    rw [hs₁, Keyspace.set_of_ne _ (by simp)]
  have hmark : ∀ {κ}, κ ≠ Kind.marker → resumeQueue p s κ = drainPaused p s₁ κ :=
    markResumed_frame p (drainPaused p s₁)
  refine ⟨⟨?_, ?_, markResumed_marked, ?_, ?_⟩, ?_⟩
  · rw [hmark (by decide), hmark (by decide), drainPaused_line, hlist, hlist]
  · rw [hmark (by decide), drainPaused_frame _ _ (by decide), hs₁, Keyspace.set_self,
      Function.update_self]
  · rw [hmark (by decide), drainPaused_frame _ _ (by decide), hs₁, Keyspace.set_of_ne _ (by decide),
      List.append_nil]
  · intro κ hκ
    simp only [List.mem_cons, List.not_mem_nil, or_false, not_or] at hκ
    rw [hmark hκ.2.1, drainPaused_frame _ _ (by simp [hκ]), hs₁, Keyspace.set_of_ne _ hκ.1]
  · rw [hmark (by decide), ← hlist .paused]
    exact length_drainPaused_le p s₁

/-- A call replies with the number of jobs that are left in the paused list. -/
theorem pause_resumes (p : String) (emitEvent : Bool) (s : Store) :
    ∃ s', Script.pause p false emitEvent s = (.code (s' (.list .paused) p).length, s') ∧
      Resumes p (if emitEvent then [.resumed] else []) s s' ∧
      (s' (.list .paused) p).length ≤ (s (.list .paused) p).length - 7000 := by
  obtain ⟨h, hlen⟩ := resumeQueue_resumes p s
  cases emitEvent with
  | false => exact ⟨resumeQueue p s, rfl, h, hlen⟩
  | true =>
    have hframe : ∀ {κ}, κ ≠ Kind.events →
        (resumeQueue p s).xadd p .resumed κ = resumeQueue p s κ :=
      fun hκ => Store.xadd_of_ne _ _ _ hκ
    refine ⟨(resumeQueue p s).xadd p .resumed, ?_, ⟨?_, ?_, ?_, ?_, ?_⟩, ?_⟩
    · rw [hframe (by decide)]
      rfl
    · rw [hframe (by decide), hframe (by decide)]
      exact h.line
    · rw [hframe (by decide)]
      exact h.running
    · rw [HasWork, Marked, hframe (by decide), hframe (by decide), hframe (by decide),
        hframe (by decide)]
      exact h.marker
    · rw [Store.xadd, Keyspace.modify_self, Function.update_self, h.events, List.append_nil]
      rfl
    · intro κ hκ
      rw [hframe (by simp_all), h.others hκ]
    · rw [hframe (by decide)]
      exact hlen

/-! ### The loop -/

/-- The calls go on until the paused list is empty; only the first one emits an event. -/
theorem resumeLoop_drains (calls : ℕ) (emitEvent : Bool) {s : Store}
    (hcalls : (s (.list .paused) p).length < 7000 * calls) :
    ∃ s', resumeLoop p calls emitEvent s = some s' ∧
      Resumes p (if emitEvent then [.resumed] else []) s s' ∧ s' (.list .paused) p = [] := by
  induction calls generalizing emitEvent s with
  | zero => omega
  | succ calls ih =>
    obtain ⟨s₁, hcall, h₁, hlen⟩ := pause_resumes p emitEvent s
    rw [resumeLoop, hcall]
    dsimp only
    by_cases hleft : (0 : ℤ) < (s₁ (.list .paused) p).length
    · obtain ⟨s', hloop, h', hempty⟩ := ih false (s := s₁) (by omega)
      refine ⟨s', by rw [if_pos hleft, hloop], ?_, hempty⟩
      have h := h₁.trans h'
      rwa [if_neg Bool.false_ne_true, List.append_nil] at h
    · have hempty : s₁ (.list .paused) p = [] := List.length_eq_zero_iff.mp (by omega)
      exact ⟨s₁, by rw [if_neg hleft], h₁, hempty⟩

/-- **A resume ends**, and leaves the paused list empty: its jobs are in the wait list behind the
others, in their order. It emits one event, and there is a marker if there is a job to find. -/
theorem resume_drains {p : String} {s : Store} {calls : ℕ}
    (hcalls : (s (.list .paused) p).length < 7000 * calls) :
    ∃ s', RedisQueueBackend.pause calls p false s = some s' ∧
      s' (.list .paused) p = [] ∧
      s' (.list .wait) p = s (.list .wait) p ++ s (.list .paused) p ∧
      s' .events p = s .events p ++ [.resumed] ∧
      (HasWork p s' → Marked p s') := by
  obtain ⟨s', hloop, h, hempty⟩ := resumeLoop_drains calls true hcalls
  refine ⟨s', hloop, hempty, ?_, h.events, h.marker⟩
  rw [← h.line, hempty, List.append_nil]

/-- Two jobs behind one that waits. -/
theorem resume_drains_two :
    ∃ s', RedisQueueBackend.pause 1 "bull:q:" false
        ((Store.empty.set (.list .wait) "bull:q:" ["1"]).set (.list .paused) "bull:q:" ["2", "3"]) =
          some s' ∧
      s' (.list .paused) "bull:q:" = [] ∧ s' (.list .wait) "bull:q:" = ["1", "2", "3"] ∧
      s' .events "bull:q:" = [.resumed] ∧ (HasWork "bull:q:" s' → Marked "bull:q:" s') :=
  resume_drains (by decide)

end BullMQ
