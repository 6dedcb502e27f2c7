import BullMQ.Placement.Helpers

/-!
# Deletion and retention

A store is `Placed` if it is sound and every hash is that of a job that occurs once. The scripts
that create no job take a placed store to one it `Retains`: the jobs that still have a hash occur
as often as before, and all others occur nowhere.

Retention deletes the hashes first (`Erases`) and forgets the ids afterwards, in one call or in
batches; in between the store is not even sound.
-/

namespace BullMQ

open Redis

variable {K : KeySpace} {s s' s'' : Store} {p j : String}

/-! ### Placed stores -/

/-- Every hash is that of a job that occurs once, and nothing else occurs. -/
structure Placed (K : KeySpace) (s : Store) : Prop extends Sound K s where
  placed : ∀ {k}, s.jobExists k = true → ∃ p j, K.Valid p j ∧ k = p ++ j ∧ occ s p j = 1

/-- What still has a hash occurs as before, what has none occurs nowhere. -/
structure Retains (s s' : Store) : Prop where
  exist : ∀ {k}, s'.jobExists k = true → s.jobExists k = true
  occ : ∀ q i, occ s' q i = if s'.jobExists (q ++ i) = true then BullMQ.occ s q i else 0

theorem Placed.occ_eq_one (h : Placed K s) (hv : K.Valid p j) (hex : s.jobExists (p ++ j) = true) :
    occ s p j = 1 := by
  obtain ⟨q, i, hqi, hkey, hocc⟩ := h.placed hex
  obtain ⟨rfl, rfl⟩ := K.inj hv hqi hkey
  exact hocc

/-- A job that has no hash occurs nowhere. -/
theorem Sound.occ_eq_zero (h : Sound K s) (hex : s.jobExists (p ++ j) = false) :
    occ s p j = 0 := by
  by_contra hocc
  rw [h.exist hocc] at hex
  cases hex

theorem Placed.retains (h : Placed K s) (hr : Retains s s') : Placed K s' := by
  have hne : ∀ {q i}, occ s' q i ≠ 0 → s'.jobExists (q ++ i) = true ∧ occ s q i ≠ 0 := by
    intro q i hocc
    rw [hr.occ] at hocc
    split at hocc
    · next hex => exact ⟨hex, hocc⟩
    · exact absurd rfl hocc
  refine { le_one := fun q i => ?_, valid := fun hocc => h.valid (hne hocc).2,
           exist := fun hocc => (hne hocc).1, placed := fun hex => ?_ }
  · rw [hr.occ]
    have hle := h.le_one q i
    split <;> omega
  · obtain ⟨q, i, hqi, rfl, hocc⟩ := h.placed (hr.exist hex)
    exact ⟨q, i, hqi, rfl, by rw [hr.occ, if_pos hex, hocc]⟩

namespace Retains

theorem of_same (h : Sound K s) (hs : SamePlaces s s') : Retains s s' := by
  refine ⟨fun hex => by rwa [hs.exist] at hex, fun q i => ?_⟩
  rw [hs.occ, hs.exist]
  split
  · rfl
  · next hex => exact h.occ_eq_zero (by simpa using hex)

theorem trans (h : Retains s s') (h' : Retains s' s'') : Retains s s'' := by
  refine ⟨fun hex => h.exist (h'.exist hex), fun q i => ?_⟩
  rw [h'.occ]
  split
  · next hex => rw [h.occ, if_pos (h'.exist hex)]
  · rfl

theorem same_right (h : Retains s s') (hs : SamePlaces s' s'') : Retains s s'' := by
  refine ⟨fun hex => h.exist (by rwa [hs.exist] at hex), fun q i => ?_⟩
  rw [hs.occ, hs.exist, h.occ]

/-- Jobs that are deleted with their occurrences. -/
theorem of_deletes {l : List String} (h : Sound K s) (hl : ∀ i ∈ l, K.Valid p i)
    (hd : Deletes p l s s') : Retains s s' := by
  have hexist : ∀ {k}, s'.jobExists k = true → s.jobExists k = true ∧ ∀ i ∈ l, k ≠ p ++ i := by
    intro k hex
    rw [hd.exist] at hex
    simpa using hex
  refine ⟨fun hex => (hexist hex).1, fun q i => ?_⟩
  rw [hd.occ]
  split
  · next hqi =>
    obtain ⟨rfl, hi⟩ := hqi
    rw [if_neg fun hex => (hexist hex).2 i hi rfl]
  · next hqi =>
    split
    · rfl
    · next hex =>
      -- Either the hash was missing before, or the key is that of another deleted job.
      by_contra hocc
      have hv := h.valid hocc
      have hkey : ∀ k ∈ l, q ++ i ≠ p ++ k := by
        intro k hk heq
        obtain ⟨rfl, rfl⟩ := K.inj hv (hl k hk) heq
        exact hqi ⟨rfl, hk⟩
      rw [hd.exist, h.exist hocc] at hex
      exact hex (by simpa using hkey)

end Retains

/-! ### Deleting hashes -/

/-- The hashes with these keys are gone, and nothing has moved. -/
structure Erases (ks : List String) (s s' : Store) : Prop where
  occ : ∀ q i, BullMQ.occ s' q i = BullMQ.occ s q i
  exist : ∀ k, s'.jobExists k = (s.jobExists k && decide (k ∉ ks))

namespace Erases

theorem nil (h : SamePlaces s s') : Erases [] s s' :=
  ⟨h.occ, fun k => by simp [h.exist]⟩

theorem cons {k : String} {ks : List String} (h : Erases [k] s s') (h' : Erases ks s' s'') :
    Erases (k :: ks) s s'' := by
  refine ⟨fun q i => (h'.occ q i).trans (h.occ q i), fun k' => ?_⟩
  rw [h'.exist, h.exist]
  simp [Bool.and_assoc]

theorem same_left {ks : List String} (h : SamePlaces s s') (h' : Erases ks s' s'') :
    Erases ks s s'' :=
  ⟨fun q i => (h'.occ q i).trans (h.occ q i), fun k => by rw [h'.exist, h.exist]⟩

theorem same_right {ks : List String} (h : Erases ks s s') (h' : SamePlaces s' s'') :
    Erases ks s s'' :=
  ⟨fun q i => (h'.occ q i).trans (h.occ q i), fun k => by rw [h'.exist, h.exist]⟩

end Erases

theorem removeJobKeys_erases (k : String) (s : Store) : Erases [k] s (removeJobKeys k s) := by
  refine ⟨fun q i => ?_, fun k' => ?_⟩
  · have hc : ∀ c : Container, removeJobKeys k s c.kind = s c.kind := fun c =>
      removeJobKeys_frame k s (by rcases c with _ | _ <;> simp [Container.kind, jobKeyWrites])
    exact occ_congr hc q i
  · rw [Store.jobExists, removeJobKeys_hash, Function.update_apply, Store.jobExists]
    by_cases hk : k' = k
    · simp [hk]
    · simp [hk]

theorem removeJob_erases (p j : String) (s : Store) : Erases [p ++ j] s (removeJob p false s j) :=
  .same_left (removeParentDependencyKey_same (p ++ j) none s) (removeJobKeys_erases (p ++ j) _)

theorem foldl_removeJob_erases (p : String) (l : List String) (s : Store) :
    Erases (l.map (p ++ ·)) s (l.foldl (removeJob p false) s) := by
  induction l generalizing s with
  | nil => exact .nil (.refl s)
  | cons i l ih => exact .cons (removeJob_erases p i s) (ih _)

/-- Erased jobs that then leave their set are deleted. -/
theorem Erases.deletes {l : List String} (h : Erases (l.map (p ++ ·)) s s')
    (hleave : EntersAll p l s'' s') (hnodup : l.Nodup) (hle : ∀ i ∈ l, BullMQ.occ s p i ≤ 1) :
    Deletes p l s s'' := by
  refine ⟨fun q i => ?_, fun k => ?_⟩
  · have hcount := hleave.occ q i
    rw [h.occ, hnodup.count] at hcount
    split
    · next hqi =>
      obtain ⟨rfl, hi⟩ := hqi
      have := hle i hi
      simp only [hi, if_true] at hcount
      omega
    · next hqi =>
      by_cases hq : q = p
      · have hi : i ∉ l := fun hi => hqi ⟨hq, hi⟩
        simpa [hi] using hcount.symm
      · simpa [hq] using hcount.symm
  · rw [← hleave.exist, h.exist]
    congr 1
    simp only [decide_eq_decide, List.mem_map, not_exists, not_and]
    exact forall₂_congr fun i _ => ne_comm

/-! ### Retention -/

theorem zremAll_zremAll (z : ZSet) (l l' : List String) :
    (z.zremAll l).zremAll l' = z.zremAll (l ++ l') := by
  refine SortedSet.ext ?_
  simp only [SortedSet.zremAll, SortedSet.filter, List.filter_filter]
  refine List.filter_congr fun e _ => ?_
  simp [Bool.and_comm]

theorem modify_modify {κ : Kind} (s : Store) (p : String) (f g : Val κ → Val κ) :
    (s.modify κ p f).modify κ p g = s.modify κ p (g ∘ f) := by
  simp only [Keyspace.modify, Keyspace.set]
  simp

/-- Removing batch after batch is removing all of them. -/
theorem foldl_zremAll_eq (p : String) (z : ZSetKey) (ls : List (List String)) (s : Store) :
    ls.foldl (fun s l => s.modify (.zset z) p (·.zremAll l)) s =
      s.modify (.zset z) p (·.zremAll ls.flatten) := by
  induction ls generalizing s with
  | nil =>
    refine (Keyspace.set_eq_self s ?_).symm
    exact SortedSet.ext (by simp [SortedSet.zremAll, SortedSet.filter])
  | cons l ls ih =>
    rw [List.foldl_cons, ih, modify_modify, List.flatten_cons]
    simp only [Function.comp_def, zremAll_zremAll]

theorem foldl_batches_eq (p : String) (z : ZSetKey) (l : List String) (s : Store) :
    (batches l.length 7000).foldl
        (fun s range => s.modify (.zset z) p (·.zremAll (unpack l range))) s =
      s.modify (.zset z) p (·.zremAll l) := by
  have hflat : ((batches l.length 7000).map (unpack l)).flatten = l := by
    rw [← List.flatMap_def, flatMap_batches l (by decide)]
  have hmap := foldl_zremAll_eq p z ((batches l.length 7000).map (unpack l)) s
  rwa [List.foldl_map, hflat] at hmap

/-- Deleting the jobs of a duplicate-free list of members of a set. -/
theorem deletes_of_removeJob {z : ZSetKey} {l l' : List String} (h : Sound K s)
    (hz : Kind.zset z ∉ removalWrites) (hnodup : l.Nodup) (hmem : ∀ i ∈ l, i ∈ s (.zset z) p)
    (hl : l.Perm l') :
    Deletes p l s ((l.foldl (removeJob p false) s).modify (.zset z) p (·.zremAll l')) := by
  have hset : l.foldl (removeJob p false) s (.zset z) = s (.zset z) :=
    foldl_removeJob_frame p false l s hz
  have hleave : EntersAll p l'
      ((l.foldl (removeJob p false) s).modify (.zset z) p (·.zremAll l')) _ :=
    leaves_zremAll (hl.nodup_iff.mp hnodup) fun i hi => by
      rw [hset]
      exact hmem i (hl.mem_iff.mpr hi)
  refine (foldl_removeJob_erases p l s).deletes ⟨fun q i => ?_, hleave.exist⟩ hnodup
    fun i _ => h.le_one p i
  rw [hleave.occ, hl.count_eq]

/-- Delete some jobs of a set and take them out of it. -/
def retireJobs (p : String) (z : ZSetKey) (l : List String) (s : Store) : Store :=
  (l.foldl (removeJob p false) s).modify (.zset z) p (·.zremAll l)

/-- Some jobs of a set are deleted and taken out of it. -/
def Retires (p : String) (z : ZSetKey) (s s' : Store) : Prop :=
  ∃ l l' : List String, l.Perm l' ∧ l.Nodup ∧ (∀ i ∈ l, i ∈ s (.zset z) p) ∧
    s' = (l.foldl (removeJob p false) s).modify (.zset z) p (·.zremAll l')

theorem Retires.refl (p : String) (z : ZSetKey) (s : Store) : Retires p z s s := by
  refine ⟨[], [], .refl _, .nil, by simp, (Keyspace.set_eq_self s ?_).symm⟩
  exact SortedSet.ext (by simp [SortedSet.zremAll, SortedSet.filter])

/-- The set of a finished status is not written by the removal of jobs. -/
theorem finished_notMem_removalWrites (t : FinishedStatus) : Kind.zset t.zset ∉ removalWrites := by
  cases t <;> decide

theorem Retires.retains {st : FinishedStatus} (h : Sound K s) (hr : Retires p st.zset s s') :
    Retains s s' := by
  obtain ⟨l, l', hperm, hnodup, hmem, rfl⟩ := hr
  exact .of_deletes h (fun i hi => h.valid_zset (hmem i hi))
    (deletes_of_removeJob h (finished_notMem_removalWrites st) hnodup hmem hperm)

theorem zremAll_congr {l l' : List String} (h : ∀ i, i ∈ l ↔ i ∈ l') (z : ZSet) :
    z.zremAll l = z.zremAll l' := by
  refine SortedSet.ext (List.filter_congr fun e _ => ?_)
  simp only [h]

theorem retireJobs_nil (p : String) (z : ZSetKey) (s : Store) : retireJobs p z [] s = s :=
  Keyspace.set_eq_self s (SortedSet.zremAll_nil _).symm

theorem retireJobs_retires {z : ZSetKey} {l : List String} (hnodup : l.Nodup)
    (hmem : ∀ i ∈ l, i ∈ s (.zset z) p) : Retires p z s (retireJobs p z l s) :=
  ⟨l, l, .refl _, hnodup, hmem, rfl⟩

/-- Whichever way the set forgets them, retention by age retires the jobs it has read. -/
theorem removeJobsByMaxAge_eq (p : String) (t a : ℤ) (st : FinishedStatus) (n : ℤ) (s : Store) :
    removeJobsByMaxAge p t a st.zset n s =
      retireJobs p st.zset (jobsByMaxAge p st.zset (t - a * 1000) n s) s := by
  have hz := finished_notMem_removalWrites st
  simp only [removeJobsByMaxAge]
  split
  · next hnil =>
    rw [hnil, retireJobs_nil]
    rfl
  · split
    · next hlt =>
      -- Fewer jobs than the limit: the limit cut nothing off.
      have hall : jobsByMaxAge p st.zset (t - a * 1000) n s =
          ((s (.zset st.zset) p).rangeUpTo (t - a * 1000)).reverse := by
        unfold jobsByMaxAge limitTo at hlt ⊢
        have hn : ¬ n < 0 := by omega
        rw [if_neg hn] at hlt ⊢
        rw [List.length_take] at hlt
        exact List.take_of_length_le (by omega)
      rw [retireJobs, Keyspace.modify, Keyspace.modify, foldl_removeJob_frame p false _ s hz]
      refine congrArg _ (zremAll_congr (fun i => ?_) _)
      rw [hall, List.mem_reverse]
    · exact foldl_batches_eq ..

theorem removeJobsByMaxAge_retires (p : String) (t a : ℤ) (st : FinishedStatus) (n : ℤ)
    (s : Store) :
    Retires p st.zset s (removeJobsByMaxAge p t a st.zset n s) := by
  have hsub : (jobsByMaxAge p st.zset (t - a * 1000) n s).Sublist
      ((s (.zset st.zset) p).rangeUpTo (t - a * 1000)).reverse := limitTo_sublist _ _
  rw [removeJobsByMaxAge_eq]
  refine retireJobs_retires ?_ fun i hi => ?_
  · refine List.Nodup.sublist hsub (List.nodup_reverse.mpr ?_)
    exact (s (.zset st.zset) p).members_nodup.sublist (SortedSet.rangeUpTo_sublist ..)
  · exact (SortedSet.rangeUpTo_sublist ..).subset (List.mem_reverse.mp (hsub.subset hi))

/-- Retention by number retires all but the last ones. -/
theorem removeJobsByMaxCount_eq (p : String) (n : ℕ) (st : FinishedStatus) (s : Store) :
    removeJobsByMaxCount p n st.zset s =
      retireJobs p st.zset ((s (.zset st.zset) p).members.reverse.drop n) s := by
  rw [removeJobsByMaxCount, retireJobs, Keyspace.modify, Keyspace.modify,
    foldl_removeJob_frame p false _ s (finished_notMem_removalWrites st)]
  refine congrArg _ (zremAll_congr (fun i => ?_) _)
  rw [List.drop_reverse, List.mem_reverse]

theorem removeJobsByMaxCount_retires (p : String) (n : ℕ) (st : FinishedStatus) (s : Store) :
    Retires p st.zset s (removeJobsByMaxCount p n st.zset s) := by
  rw [removeJobsByMaxCount_eq]
  refine retireJobs_retires ?_ fun i hi => List.mem_reverse.mp (List.mem_of_mem_drop hi)
  exact (List.nodup_reverse.mpr (s (.zset st.zset) p).members_nodup).sublist (List.drop_sublist ..)

end BullMQ
