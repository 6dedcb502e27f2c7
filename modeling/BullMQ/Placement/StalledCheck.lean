import BullMQ.Placement.Ownership

/-!
# The stalled check

An effective call of `moveStalledJobsToWait` reclaims the jobs of the stalled set that are active
and unlocked, in the order in which the set is listed, and marks what is still active
(`moveStalledJobsToWait_effective`). `Reclaims` says what becomes of the reclaimed jobs; two such
changes for disjoint lists of jobs compose, which is the induction over the loop. Legacy markers
that have got into the active list are dropped on the way.
-/

namespace BullMQ

open Redis

variable {s s' s'' : Store} {p j : String}

/-- The jobs of a list that the loop reclaims. -/
def reclaimedJobs (p : String) (s : Store) (l : List String) : List String :=
  l.filter fun j => decide (isLegacyMarker j = false ∧ s .lock (p ++ j) = none ∧
    j ∈ s (.list .active) p)

/-- What a reclaim does to the hash of a job. -/
def stalledJob (p : String) (maxStalledJobCount : ℤ) (s : Store) (jobKey : String) (job : Job) :
    Job :=
  { job with
    stc := job.stc + 1
    defa := if maxStalledJobCount < (job.stc + 1 : ℕ) ∧ ¬ isRepeatableJob p jobKey s then
      some stalledFailure else job.defa }

/-- The jobs of `l` have left the active list, each once, and nothing else has, legacy markers
excepted. -/
structure TakenBack (p : String) (l : List String) (s s' : Store) : Prop where
  sublist : (s' (.list .active) p).Sublist (s (.list .active) p)
  count : ∀ i, isLegacyMarker i = false →
    (s (.list .active) p).count i = (s' (.list .active) p).count i + if i ∈ l then 1 else 0
  others : ∀ q, q ≠ p → s' (.list .active) q = s (.list .active) q

/-- The jobs of `l` have been moved from the active list to the right end of the wait list, and
their stalls have been counted. -/
structure Reclaims (p : String) (m : ℤ) (l : List String) (s s' : Store) : Prop
    extends TakenBack p l s s' where
  wait : s' (.list .wait) = Function.update (s (.list .wait)) p (s (.list .wait) p ++ l)
  hash : ∀ k, s' .hash k =
    if k ∈ l.map (p ++ ·) then some (stalledJob p m s k ((s .hash k).getD {})) else s .hash k
  other : ∀ κ, κ ∉ reclaimWrites → s' κ = s κ

theorem append_left_cancel {p i j : String} (h : p ++ i = p ++ j) : i = j := by
  have hlist := congrArg String.toList h
  rw [String.toList_append, String.toList_append] at hlist
  exact String.toList_inj.mp (List.append_cancel_left hlist)

theorem mem_map_append {l : List String} : p ++ j ∈ l.map (p ++ ·) ↔ j ∈ l := by
  constructor
  · intro h
    obtain ⟨i, hi, heq⟩ := List.mem_map.mp h
    exact append_left_cancel heq ▸ hi
  · exact fun h => List.mem_map_of_mem h

/-- Whether a scheduler owns a job depends on the hash of the job and on the schedulers. -/
theorem isRepeatableJob_congr {k : String}
    (hjob : (s' .hash k).bind Job.rjk = (s .hash k).bind Job.rjk)
    (hsched : s' .scheduler = s .scheduler) (hrep : s' .repeatSet = s .repeatSet) :
    isRepeatableJob p k s' = isRepeatableJob p k s := by
  rw [isRepeatableJob, hjob, hsched, hrep, isRepeatableJob]

namespace TakenBack

variable {l l' : List String}

theorem refl (p : String) (s : Store) : TakenBack p [] s s where
  sublist := .refl _
  count i _ := by simp
  others _ _ := rfl

theorem append (h : TakenBack p l s s') (h' : TakenBack p l' s' s'')
    (hdisj : l.Disjoint l') : TakenBack p (l ++ l') s s'' where
  sublist := h'.sublist.trans h.sublist
  count i hi := by
    rw [h.count i hi, h'.count i hi]
    by_cases hl : i ∈ l
    · have hl' : i ∉ l' := fun hl' => hdisj hl hl'
      simp [hl, hl']
    · simp [hl]
  others q hq := (h'.others q hq).trans (h.others q hq)

/-- A job that is not among them stays active. -/
theorem mem_iff {i : String} (h : TakenBack p l s s') (hi : isLegacyMarker i = false)
    (hl : i ∉ l) : i ∈ s' (.list .active) p ↔ i ∈ s (.list .active) p := by
  have hcount := h.count i hi
  rw [if_neg hl, Nat.add_zero] at hcount
  rw [← List.count_pos_iff, ← List.count_pos_iff, hcount]

/-- Taking the leftmost occurrence off. -/
theorem lremLeft {f : Store → Store} (hj : j ∈ s (.list .active) p)
    (hf : ∀ s, f s (.list .active) = s (.list .active)) :
    TakenBack p [j] s (f (s.modify (.list .active) p (Redis.lremLeft j))) where
  sublist := by
    rw [hf, Keyspace.modify_self, Function.update_self]
    exact lremLeft_sublist _ _
  count i _ := by
    have hpos : 0 < (s (.list .active) p).count j := List.count_pos_iff.mpr hj
    rw [hf, Keyspace.modify_self, Function.update_self, count_lremLeft]
    by_cases hi : i = j
    · subst hi
      simp only [if_true, List.mem_singleton]
      omega
    · rw [if_neg (Ne.symm hi), if_neg (by simpa using hi), Nat.sub_zero, Nat.add_zero]
  others q hq := by rw [hf, Keyspace.modify_self, Function.update_of_ne hq]

/-- Dropping a legacy marker. -/
theorem dropMarker (hj : isLegacyMarker j = true) (s : Store) :
    TakenBack p [] s (s.modify (.list .active) p (Redis.lremLeft j)) where
  sublist := by
    rw [Keyspace.modify_self, Function.update_self]
    exact lremLeft_sublist _ _
  count i hi := by
    have hne : ¬ j = i := by
      rintro rfl
      cases hj.symm.trans hi
    rw [Keyspace.modify_self, Function.update_self, count_lremLeft, if_neg hne]
    simp
  others q hq := by rw [Keyspace.modify_self, Function.update_of_ne hq]

end TakenBack

namespace Reclaims

theorem nil (p : String) (m : ℤ) (s : Store) : Reclaims p m [] s s where
  toTakenBack := .refl p s
  wait := by simp
  hash k := by simp
  other _ _ := rfl

theorem append {m : ℤ} {l l' : List String} (h : Reclaims p m l s s')
    (h' : Reclaims p m l' s' s'') (hdisj : l.Disjoint l') : Reclaims p m (l ++ l') s s'' where
  toTakenBack := h.toTakenBack.append h'.toTakenBack hdisj
  wait := by
    rw [h'.wait, h.wait]
    simp
  hash k := by
    rw [h'.hash, h.hash, List.map_append]
    by_cases hk : k ∈ l.map (p ++ ·)
    · have hk' : k ∉ l'.map (p ++ ·) := by
        obtain ⟨i, hi, rfl⟩ := List.mem_map.mp hk
        exact fun hi' => hdisj hi (mem_map_append.mp hi')
      rw [if_neg hk', if_pos hk, if_pos (List.mem_append_left _ hk)]
    · -- A scheduler's ownership of the other jobs is not touched by the first reclaims.
      have hrep : stalledJob p m s' k = stalledJob p m s k := by
        funext job
        have hcongr : isRepeatableJob p k s' = isRepeatableJob p k s := by
          refine isRepeatableJob_congr ?_ ?_ ?_
          · rw [h.hash, if_neg hk]
          · exact h.other _ (by decide)
          · exact h.other _ (by decide)
        rw [stalledJob, stalledJob, hcongr]
      rw [if_neg hk, hrep]
      simp [List.mem_append, hk]
  other κ hκ := (h'.other κ hκ).trans (h.other κ hκ)

end Reclaims

theorem countStall_hash (p j : String) (m : ℤ) (s : Store) (k : String) :
    countStall p j m s .hash k =
      if k = p ++ j then some (stalledJob p m s k ((s .hash k).getD {})) else s .hash k := by
  set job : Job := (s .hash (p ++ j)).getD {} with hjob
  have hcount : (s.hset (p ++ j) fun job => { job with stc := job.stc + 1 }) .hash (p ++ j) =
      some { job with stc := job.stc + 1 } := by
    rw [Store.hset_hash, if_pos rfl]
  -- Whether a scheduler owns the job does not depend on the count of its stalls.
  have hrep : isRepeatableJob p (p ++ j)
      (s.hset (p ++ j) fun job => { job with stc := job.stc + 1 }) =
        isRepeatableJob p (p ++ j) s := by
    refine isRepeatableJob_congr ?_ (Store.hset_of_ne _ _ _ (by decide))
      (Store.hset_of_ne _ _ _ (by decide))
    rw [hcount, hjob]
    cases s .hash (p ++ j) <;> rfl
  simp only [countStall, hcount, hrep, Option.map_some, Option.getD_some]
  by_cases hk : k = p ++ j
  · subst hk
    simp only [if_true, stalledJob]
    split
    · rw [Store.hset_hash, if_pos rfl, hcount]
      rfl
    · exact hcount
  · rw [if_neg hk]
    split
    · rw [Store.hset_hash, if_neg hk, Store.hset_hash, if_neg hk]
    · rw [Store.hset_hash, if_neg hk]

/-- One round of the loop. -/
theorem reclaimStalledJob_reclaims (p : String) (m : ℤ) (done : List String) (s : Store)
    (j : String) :
    (reclaimStalledJob p m (done, s) j).1 = done ++ reclaimedJobs p s [j] ∧
      Reclaims p m (reclaimedJobs p s [j]) s (reclaimStalledJob p m (done, s) j).2 := by
  by_cases hlegacy : isLegacyMarker j = true
  · have hrec : reclaimedJobs p s [j] = [] := by simp [reclaimedJobs, hlegacy]
    rw [hrec]
    simp only [reclaimStalledJob, hlegacy, if_true]
    refine ⟨by simp, ⟨.dropMarker hlegacy s, ?_, fun k => ?_, fun κ hκ => ?_⟩⟩
    · rw [Keyspace.modify_of_ne _ (by decide)]
      simp
    · rw [Keyspace.modify_of_ne _ (by decide)]
      simp
    · have hact : κ ≠ .list .active := by rintro rfl; exact hκ (by decide)
      exact Keyspace.modify_of_ne _ hact ..
  · rw [Bool.not_eq_true] at hlegacy
    -- A job whose lock is there, or that has left the active list, is passed over.
    by_cases hcond : s .lock (p ++ j) = none ∧ j ∈ s (.list .active) p
    · have hrec : reclaimedJobs p s [j] = [j] := by
        simp [reclaimedJobs, hlegacy, hcond.1, hcond.2]
      rw [hrec]
      simp only [reclaimStalledJob, hlegacy, hcond, and_self, if_true]
      rw [if_neg (by decide)]
      refine ⟨rfl, ⟨?_, ?_, fun k => ?_, fun κ hκ => ?_⟩⟩
      · refine .lremLeft (f := fun s => (moveJobToWait p j .rpush (countStall p j m s)).xadd p
          (.stalled j)) hcond.2 fun s => ?_
        rw [Store.xadd_of_ne _ _ _ (by decide), moveJobToWait_frame _ _ _ _ (by decide),
          countStall_frame _ _ _ _ (by decide)]
      · rw [Store.xadd_of_ne _ _ _ (by decide), moveJobToWait, Store.xadd_of_ne _ _ _ (by decide),
          addJobInTargetList, addBaseMarkerIfNeeded_frame _ _ _ (by decide), Keyspace.modify_self,
          countStall_frame _ _ _ _ (by decide), Keyspace.modify_of_ne _ (by decide)]
        rfl
      · have hsame : ∀ k, stalledJob p m (s.modify (.list .active) p (lremLeft j)) k =
            stalledJob p m s k := by
          intro k
          funext job
          rw [stalledJob, stalledJob, isRepeatableJob_congr (s := s)]
          · rw [Keyspace.modify_of_ne _ (by decide)]
          · exact Keyspace.modify_of_ne _ (by decide) ..
          · exact Keyspace.modify_of_ne _ (by decide) ..
        rw [Store.xadd_of_ne _ _ _ (by decide), moveJobToWait_frame _ _ _ _ (by decide),
          countStall_hash p j m _, Keyspace.modify_of_ne _ (by decide), hsame]
        simp
      · simp only [reclaimWrites, List.mem_cons, List.not_mem_nil, or_false, not_or] at hκ
        obtain ⟨hact, hhash, hwait, hmark, hev⟩ := hκ
        rw [Store.xadd_of_ne _ _ _ hev, moveJobToWait_frame _ _ _ _ (by simp [*]),
          countStall_frame _ _ _ _ hhash, Keyspace.modify_of_ne _ hact]
    · have hrec : reclaimedJobs p s [j] = [] := by simpa [reclaimedJobs, hlegacy] using hcond
      have hres : reclaimStalledJob p m (done, s) j = (done, s) := by
        simp only [reclaimStalledJob, hlegacy, hcond, if_false]
        rw [if_neg (by decide)]
      rw [hrec, hres]
      exact ⟨by simp, .nil p m s⟩

/-- The loop, by induction over the listing of the stalled set. -/
theorem foldl_reclaimStalledJob_reclaims (p : String) (m : ℤ) {l : List String}
    (hnodup : l.Nodup) (done : List String) (s : Store) :
    (l.foldl (reclaimStalledJob p m) (done, s)).1 = done ++ reclaimedJobs p s l ∧
      Reclaims p m (reclaimedJobs p s l) s (l.foldl (reclaimStalledJob p m) (done, s)).2 := by
  induction l generalizing done s with
  | nil => exact ⟨by simp [reclaimedJobs], .nil p m s⟩
  | cons j l ih =>
    obtain ⟨hj, hl⟩ := List.nodup_cons.mp hnodup
    obtain ⟨hdone, hrec⟩ := reclaimStalledJob_reclaims p m done s j
    obtain ⟨hdone', hrec'⟩ := ih hl (reclaimStalledJob p m (done, s) j).1
      (reclaimStalledJob p m (done, s) j).2
    have hsub : reclaimedJobs p s [j] ⊆ [j] := fun i hi => List.mem_of_mem_filter hi
    -- The jobs that are still to come are as they were before this round.
    have hrest : reclaimedJobs p (reclaimStalledJob p m (done, s) j).2 l = reclaimedJobs p s l := by
      refine List.filter_congr fun i hi => ?_
      have hij : i ∉ reclaimedJobs p s [j] := fun hmem => by
        obtain rfl : i = j := by simpa using hsub hmem
        exact hj hi
      rw [hrec.other .lock (by decide)]
      by_cases hi' : isLegacyMarker i = false
      · simp [hrec.toTakenBack.mem_iff hi' hij]
      · simp [hi']
    have hsplit : reclaimedJobs p s (j :: l) = reclaimedJobs p s [j] ++ reclaimedJobs p s l := by
      rw [← List.singleton_append, reclaimedJobs, List.filter_append]
      rfl
    have hdisj : (reclaimedJobs p s [j]).Disjoint (reclaimedJobs p s l) := by
      intro i hi hi'
      obtain rfl : i = j := by simpa using hsub hi
      exact hj (List.mem_of_mem_filter hi')
    rw [List.foldl_cons, hsplit, ← List.append_assoc, ← hdone, ← hrest]
    exact ⟨hdone', hrec.append hrec' (hrest.symm ▸ hdisj)⟩

/-- The batches mark all active jobs. -/
theorem mem_markActive {i : String} (p : String) (s : Store) :
    i ∈ markActive p s .stalled p ↔ i ∈ s (.list .active) p ∨ i ∈ s .stalled p := by
  have hfold : ∀ (rs : List (ℕ × ℕ)) (l : List String) (s : Store),
      i ∈ rs.foldl (fun s range => (s.modify .stalled p (·.saddAll (unpack l range)) : Store)) s
        .stalled p ↔ i ∈ rs.flatMap (unpack l) ∨ i ∈ s .stalled p := by
    intro rs l
    induction rs with
    | nil => simp
    | cons r rs ih =>
      intro s
      rw [List.foldl_cons, ih, Keyspace.modify_self, Function.update_self, MemberSet.mem_saddAll,
        List.flatMap_cons, List.mem_append]
      tauto
  rw [markActive, hfold, flatMap_batches _ (by decide)]

theorem markActive_of_ne {q : String} (hq : q ≠ p) (s : Store) :
    markActive p s .stalled q = s .stalled q := by
  simp only [markActive]
  generalize s (.list .active) p = l
  induction batches l.length 7000 generalizing s with
  | nil => rfl
  | cons r rs ih =>
    rw [List.foldl_cons, ih, Keyspace.modify_self, Function.update_of_ne hq]

/-- What an effective stalled check does: the jobs of `l` are reclaimed, and what is active
afterwards is marked. -/
structure Checked (p : String) (m : ℤ) (l : List String) (s s' : Store) : Prop
    extends TakenBack p l s s' where
  wait : s' (.list .wait) = Function.update (s (.list .wait)) p (s (.list .wait) p ++ l)
  hash : ∀ k, s' .hash k =
    if k ∈ l.map (p ++ ·) then some (stalledJob p m s k ((s .hash k).getD {})) else s .hash k
  marked : ∀ i, i ∈ s' .stalled p ↔ i ∈ s' (.list .active) p
  stalled : ∀ q, q ≠ p → s' .stalled q = s .stalled q
  other : ∀ κ, κ ∉ stalledWrites → s' κ = s κ

/-- An effective call of the stalled check. -/
def EffectiveCheck (p : String) (c : ℤ) (s : Store) : Prop := s .stalledCheck p = none ∧ 0 < c

instance (p : String) (c : ℤ) (s : Store) : Decidable (EffectiveCheck p c s) :=
  inferInstanceAs (Decidable (_ ∧ _))

/-- **The stalled check.** An effective call reclaims what is marked, active and unlocked. -/
theorem moveStalledJobsToWait_effective {c : ℤ} (hc : EffectiveCheck p c s) (m t : ℤ) :
    (Script.moveStalledJobsToWait p m t c s).1 =
        .ids (reclaimedJobs p s (s .stalled p).members) ∧
      Checked p m (reclaimedJobs p s (s .stalled p).members) s
        (Script.moveStalledJobsToWait p m t c s).2 := by
  -- `s₀` is the store in which the loop starts.
  set s₀ : Store := (trimEvents p (s.set .stalledCheck p (some t))).set .stalled p ∅ with hs₀
  have hframe : ∀ {κ : Kind}, κ ∉ [Kind.stalledCheck, .metaMaxLenEvents, .stalled] →
      s₀ κ = s κ := by
    intro κ hκ
    simp only [List.mem_cons, List.not_mem_nil, or_false, not_or] at hκ
    obtain ⟨hck, hmax, hst⟩ := hκ
    rw [hs₀, Keyspace.set_of_ne _ hst, trimEvents_frame _ _ (by simp [hmax]),
      Keyspace.set_of_ne _ hck]
  have hlisting : (trimEvents p (s.set .stalledCheck p (some t))) .stalled = s .stalled := by
    rw [trimEvents_frame _ _ (by decide), Keyspace.set_of_ne _ (by decide)]
  obtain ⟨hids, hrec⟩ := foldl_reclaimStalledJob_reclaims p m (s .stalled p).nodup [] s₀
  have hsame : reclaimedJobs p s₀ (s .stalled p).members =
      reclaimedJobs p s (s .stalled p).members := by
    rw [reclaimedJobs, hframe (by decide), hframe (by decide), reclaimedJobs]
  have hjob : stalledJob p m s₀ = stalledJob p m s := by
    funext k job
    rw [stalledJob, stalledJob, isRepeatableJob_congr (s := s)]
    · rw [hframe (by decide)]
    · exact hframe (by decide)
    · exact hframe (by decide)
  rw [hsame] at hids hrec
  set s₁ : Store := ((s .stalled p).members.foldl (reclaimStalledJob p m) ([], s₀)).2 with hs₁
  have hres : Script.moveStalledJobsToWait p m t c s =
      (.ids (reclaimedJobs p s (s .stalled p).members), markActive p s₁) := by
    have hfree : (s .stalledCheck p).isSome = false := by rw [hc.1]; rfl
    simp only [Script.moveStalledJobsToWait, hfree, not_le.mpr hc.2, if_false, hlisting]
    rw [if_neg (by decide), ← hs₀, hids]
    rfl
  have hactive₀ : s₀ (.list .active) = s (.list .active) := hframe (by decide)
  have hactive : markActive p s₁ (.list .active) = s₁ (.list .active) :=
    markActive_frame _ _ (by decide)
  rw [hres]
  refine ⟨rfl, ⟨⟨?_, fun i hi => ?_, fun q hq => ?_⟩, ?_, fun k => ?_, fun i => ?_, fun q hq => ?_,
    fun κ hκ => ?_⟩⟩
  · rw [hactive, ← hactive₀]
    exact hrec.sublist
  · rw [hactive, ← hactive₀]
    exact hrec.count i hi
  · rw [hactive, hrec.others q hq, hactive₀]
  · rw [markActive_frame _ _ (by decide), hrec.wait, hframe (by decide)]
  · rw [markActive_frame _ _ (by decide), hrec.hash, hframe (by decide), hjob]
  · have hempty : s₁ .stalled p = ∅ := by
      rw [hrec.other _ (by decide), hs₀, Keyspace.set_self, Function.update_self]
    rw [mem_markActive, hactive, hempty]
    simp
  · rw [markActive_of_ne hq, hrec.other _ (by decide), hs₀, Keyspace.set_self,
      Function.update_of_ne hq, hlisting]
  · have hst : κ ≠ .stalled := by rintro rfl; exact hκ (by decide)
    rw [markActive_frame _ _ hst, hrec.other _ (Kind.notMem_mono hκ (by decide)),
      hframe (Kind.notMem_mono hκ (by decide))]

/-- A call that is not effective changes nothing. -/
theorem moveStalledJobsToWait_idle {c : ℤ} (hc : ¬ EffectiveCheck p c s) (m t : ℤ) :
    (Script.moveStalledJobsToWait p m t c s).2 = s := by
  simp only [Script.moveStalledJobsToWait]
  split
  · rfl
  · next hsome =>
    have hfree : s .stalledCheck p = none := by simpa using hsome
    have hle : c ≤ 0 := not_lt.mp fun hpos => hc ⟨hfree, hpos⟩
    rw [if_pos hle]

theorem mem_reclaimedJobs {l : List String} : j ∈ reclaimedJobs p s l ↔
    j ∈ l ∧ isLegacyMarker j = false ∧ s .lock (p ++ j) = none ∧ j ∈ s (.list .active) p := by
  simp [reclaimedJobs]

/-- What is marked is active after a check, of any queue. -/
theorem Checked.marksActive {m : ℤ} {l : List String} (hc : Checked p m l s s')
    (h : MarksActive s) : MarksActive s' := fun {q i} hi => by
  by_cases hq : q = p
  · subst hq
    exact (hc.marked i).mp hi
  · rw [hc.stalled q hq] at hi
    rw [hc.others q hq]
    exact h hi

/-- **Every command** leaves what is marked active, removals on request excepted. -/
theorem Command.exec_marksActive {c : Command} {r : Reply × Store} (h : MarksActive s)
    (hreal : c.RealTokens) (hremove : ∀ n p j b, c ≠ .removeJob n p j b)
    (hexec : c.exec s = some r) : MarksActive r.2 := by
  by_cases hcheck : ∃ p m t n, c = .moveStalledJobsToWait p m t n
  · obtain ⟨p, m, t, n, rfl⟩ := hcheck
    cases hexec
    by_cases heff : EffectiveCheck p n s
    · exact (moveStalledJobsToWait_effective heff m t).2.marksActive h
    · rw [moveStalledJobsToWait_idle heff]
      exact h
  · push Not at hcheck
    exact (Command.exec_owner h hreal hcheck hremove hexec).marksActive h

end BullMQ
