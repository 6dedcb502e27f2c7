import BullMQ.Placement.Helpers

/-!
# Jobs in line for another run

A job that is waiting, prioritized or delayed is `Upcoming`. The scripts that a worker or a
processor gives its job up with put it there, whatever else is in the store; a fetch that follows in
the same call can only take it to the active list (`Queued`), unless its id looks like a legacy
marker.
-/

namespace BullMQ

open Redis

/-- The job is waiting, prioritized or delayed. -/
def Upcoming (p j : String) (s : Store) : Prop :=
  j ∈ s (.list .wait) p ∨ j ∈ s (.zset .prioritized) p ∨ j ∈ s (.zset .delayed) p

/-- The job is in line or active. -/
def Queued (p j : String) (s : Store) : Prop := Upcoming p j s ∨ j ∈ s (.list .active) p

instance (p j : String) (s : Store) : Decidable (Upcoming p j s) :=
  inferInstanceAs (Decidable (_ ∨ _ ∨ _))

section Upcoming

variable {p j : String} {s s' : Store}

theorem Upcoming.of_frame {W : List Kind} (h : Upcoming p j s)
    (hW : ∀ κ ∈ [Kind.list .wait, .zset .prioritized, .zset .delayed], κ ∉ W)
    (hs : ∀ {κ}, κ ∉ W → s' κ = s κ) : Upcoming p j s' := by
  rwa [Upcoming, hs (hW _ (by simp)), hs (hW _ (by simp)), hs (hW _ (by simp))]

theorem Upcoming.xadd (h : Upcoming p j s) (q : String) (e : Event) : Upcoming p j (s.xadd q e) :=
  h.of_frame (W := [.events]) (by decide) fun hκ => Store.xadd_of_ne _ _ _ (by simpa using hκ)

theorem Upcoming.hset (h : Upcoming p j s) (k : String) (f : Job → Job) :
    Upcoming p j (s.hset k f) :=
  h.of_frame (W := [.hash]) (by decide) fun hκ => Store.hset_of_ne _ _ _ (by simpa using hκ)

theorem Upcoming.getOrSetMaxEvents (h : Upcoming p j s) (q : String) :
    Upcoming p j (BullMQ.getOrSetMaxEvents q s) :=
  h.of_frame (by decide) (getOrSetMaxEvents_frame q s)

/-! ### Entering the line -/

theorem upcoming_push (s : Store) (p : String) (c : PushCmd) (j : String) :
    Upcoming p j (s.modify (.list .wait) p (c.push j)) :=
  .inl (by rw [Keyspace.modify_self, Function.update_self]; exact PushCmd.mem_push.mpr (.inl rfl))

theorem upcoming_prioritized (s : Store) (p : String) (n : ℤ) (j : String) :
    Upcoming p j (s.modify (.zset .prioritized) p (·.zadd n j)) :=
  .inr (.inl (by
    rw [Keyspace.modify_self, Function.update_self]
    exact SortedSet.mem_zadd.mpr (.inl rfl)))

theorem Upcoming.push (h : Upcoming p j s) (q : String) (c : PushCmd) (i : String) :
    Upcoming p j (s.modify (.list .wait) q (c.push i)) := by
  obtain hwait | hrest := h
  · refine .inl ?_
    rw [Keyspace.modify_self, Function.update_apply]
    split
    · next hq => exact PushCmd.mem_push.mpr (.inr (hq ▸ hwait))
    · exact hwait
  · refine .inr ?_
    rwa [Keyspace.modify_of_ne _ (by decide), Keyspace.modify_of_ne _ (by decide)]

theorem Upcoming.prioritized (h : Upcoming p j s) (q : String) (n : ℤ) (i : String) :
    Upcoming p j (s.modify (.zset .prioritized) q (·.zadd n i)) := by
  obtain hwait | hprio | hdel := h
  · exact .inl (by rwa [Keyspace.modify_of_ne _ (by decide)])
  · refine .inr (.inl ?_)
    rw [Keyspace.modify_self, Function.update_apply]
    split
    · next hq => exact SortedSet.mem_zadd.mpr (.inr (hq ▸ hprio))
    · exact hprio
  · exact .inr (.inr (by rwa [Keyspace.modify_of_ne _ (by decide)]))

theorem Upcoming.promoteDelayedJob (h : Upcoming p j s) (q i : String) :
    Upcoming p j (promoteDelayedJob q s i) := by
  simp only [BullMQ.promoteDelayedJob]
  refine Upcoming.hset (.xadd ?_ q _) _ _
  split
  · exact h.push q .lpush i
  · exact (h.of_frame (W := [.pc]) (by decide) fun hκ =>
      Keyspace.modify_of_ne _ (by simpa using hκ) ..).prioritized q _ i

theorem upcoming_promoteDelayedJob (p j : String) (s : Store) :
    Upcoming p j (promoteDelayedJob p s j) := by
  simp only [promoteDelayedJob]
  refine Upcoming.hset (.xadd ?_ p _) _ _
  split
  · exact upcoming_push s p .lpush j
  · exact upcoming_prioritized _ p _ j

theorem foldl_promoteDelayedJob_upcoming {l : List String} (h : Upcoming p j s ∨ j ∈ l) :
    Upcoming p j (l.foldl (promoteDelayedJob p) s) := by
  induction l generalizing s with
  | nil => exact h.resolve_right (by simp)
  | cons i l ih =>
    rw [List.foldl_cons]
    refine ih ?_
    obtain hline | hmem := h
    · exact .inl (hline.promoteDelayedJob p i)
    · obtain rfl | hmem := List.mem_cons.mp hmem
      · exact .inl (upcoming_promoteDelayedJob p j s)
      · exact .inr hmem

/-- A promotion takes nobody out of the line of its queue. -/
theorem Upcoming.promoteDelayedJobs (h : Upcoming p j s) (t : ℤ) (b : Bool) :
    Upcoming p j (promoteDelayedJobs p t b s) := by
  simp only [BullMQ.promoteDelayedJobs]
  split
  · exact h
  · refine Upcoming.of_frame ?_ (by decide) (addBaseMarkerIfNeeded_frame _ _ _)
    refine foldl_promoteDelayedJob_upcoming ?_
    by_cases hdue : j ∈ dueJobs p t s
    · exact .inr hdue
    · left
      rw [Upcoming, Keyspace.modify_of_ne _ (by decide), Keyspace.modify_of_ne _ (by decide),
        Keyspace.modify_self, Function.update_self, SortedSet.mem_zremAll]
      exact h.imp_right (Or.imp_right fun hdel => ⟨hdel, hdue⟩)

/-! ### Fetching -/

theorem Queued.of_frame {W : List Kind} (h : Queued p j s)
    (hW : ∀ κ ∈ [Kind.list .wait, .zset .prioritized, .zset .delayed, .list .active], κ ∉ W)
    (hs : ∀ {κ}, κ ∉ W → s' κ = s κ) : Queued p j s' := by
  obtain hline | hactive := h
  · exact .inl (hline.of_frame (fun κ hκ => hW κ (by simp at hκ ⊢; tauto)) hs)
  · exact .inr (by rwa [hs (hW _ (by simp))])

theorem Queued.rpoplpush (h : Queued p j s) : Queued p j (rpoplpush p s).2 := by
  obtain ⟨-, hres⟩ | ⟨i, l, hwait, hres⟩ := rpoplpush_cases p s
  · rwa [hres]
  · have hactive : ((s.set (.list .wait) p l).modify (.list .active) p (lpush i))
        (.list .active) p = i :: s (.list .active) p := by
      rw [Keyspace.modify_self, Function.update_self, Keyspace.set_of_ne _ (by decide)]
      rfl
    rw [hres]
    obtain (hmem | hrest) | hmem := h
    · rw [hwait, List.mem_append, List.mem_singleton] at hmem
      obtain hmem | rfl := hmem
      · refine .inl (.inl ?_)
        rwa [Keyspace.modify_of_ne _ (by decide), Keyspace.set_self, Function.update_self]
      · exact .inr (hactive ▸ List.mem_cons_self)
    · refine .inl (.inr ?_)
      rwa [Keyspace.modify_of_ne _ (by decide), Keyspace.set_of_ne _ (by decide),
        Keyspace.modify_of_ne _ (by decide), Keyspace.set_of_ne _ (by decide)]
    · exact .inr (hactive ▸ List.mem_cons_of_mem _ hmem)

theorem Queued.moveJobFromPrioritizedToActive (h : Queued p j s) :
    Queued p j (moveJobFromPrioritizedToActive p s).2 := by
  obtain ⟨-, hres⟩ | ⟨i, hi, hres⟩ := moveJobFromPrioritizedToActive_cases p s
  · rw [hres]
    exact h.of_frame (W := [.pc]) (by decide) fun hκ => Keyspace.set_of_ne _ (by simpa using hκ) ..
  · have hactive : ((s.modify (.zset .prioritized) p (·.zrem i)).modify (.list .active) p
        (lpush i)) (.list .active) p = i :: s (.list .active) p := by
      rw [Keyspace.modify_self, Function.update_self, Keyspace.modify_of_ne _ (by decide)]
      rfl
    rw [hres]
    obtain (hmem | hmem | hmem) | hmem := h
    · refine .inl (.inl ?_)
      rwa [Keyspace.modify_of_ne _ (by decide), Keyspace.modify_of_ne _ (by decide)]
    · by_cases hij : j = i
      · exact .inr (hactive ▸ hij ▸ List.mem_cons_self)
      · refine .inl (.inr (.inl ?_))
        rw [Keyspace.modify_of_ne _ (by decide), Keyspace.modify_self, Function.update_self]
        exact SortedSet.mem_zrem.mpr ⟨hmem, hij⟩
    · refine .inl (.inr (.inr ?_))
      rwa [Keyspace.modify_of_ne _ (by decide), Keyspace.modify_of_ne _ (by decide)]
    · exact .inr (hactive ▸ List.mem_cons_of_mem _ hmem)

/-- A dropped marker is not the job. -/
theorem Queued.dropMarker {i : String} (h : Queued p j s) (hj : isLegacyMarker j = false)
    (hi : isLegacyMarker i = true) :
    Queued p j (s.modify (.list .active) p (lremLeft i)) := by
  have hne : j ≠ i := by
    rintro rfl
    rw [hj] at hi
    cases hi
  obtain hline | hmem := h
  · exact .inl (hline.of_frame (W := [.list .active]) (by decide) fun hκ =>
      Keyspace.modify_of_ne _ (by simpa using hκ) ..)
  · refine .inr ?_
    rw [Keyspace.modify_self, Function.update_self]
    exact (List.mem_erase_of_ne hne).mpr hmem

theorem Queued.popForFetchNextJob (h : Queued p j s) (hj : isLegacyMarker j = false) :
    Queued p j (popForFetchNextJob p s).2 := by
  have hpop := h.rpoplpush
  simp only [BullMQ.popForFetchNextJob]
  split
  · split
    · next hi =>
      split
      · exact (hpop.dropMarker hj hi).moveJobFromPrioritizedToActive
      · exact hpop.dropMarker hj hi
    · exact hpop
  · exact hpop.moveJobFromPrioritizedToActive

/-- A fetch takes nobody out of its queue. -/
theorem Queued.fetchNextJob (h : Upcoming p j s) (hj : isLegacyMarker j = false) (t : ℤ)
    (o : FetchOpts) : Queued p j (fetchNextJob p t o s).2 := by
  have hstart : Upcoming p j (startFetch p t o s).2 :=
    (h.promoteDelayedJobs t _).of_frame (W := [.limiter]) (by decide)
      fun hκ => getRateLimitTTL_frame _ _ _ (by simpa using hκ)
  obtain ⟨e, -, hres⟩ | ⟨-, -, hres⟩ := fetchWith_cases BullMQ.popForFetchNextJob p t o s
  · rw [BullMQ.fetchNextJob, hres]
    exact .inl hstart
  · have hpop : Queued p j (BullMQ.popForFetchNextJob p (startFetch p t o s).2).2 :=
      Queued.popForFetchNextJob (.inl hstart) hj
    rw [BullMQ.fetchNextJob, hres]
    simp only [takeJob]
    split
    · exact hpop.of_frame (by decide) (prepareJobForProcessing_frame _ _ _ _ _ _ _)
    · exact hpop
    · exact hpop

end Upcoming

end BullMQ
