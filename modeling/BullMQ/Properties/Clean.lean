import BullMQ.Model.Queue
import BullMQ.Properties.Drain

/-!
# What a clean deletes

`Queue.clean` looks at a list from its tail and at a sorted set from its lowest score, some jobs at
a time, and deletes the eligible ones of them. A hard removal takes along the parents of the same
queue that are left waiting for nothing (`Sheds`); the jobs that are looked at are not among those,
so what is eligible does not change while the clean goes on.
-/

namespace BullMQ

open Redis

/-! ### What removing jobs takes along -/

/-- The jobs `l` of a queue are removed. Another hash is gone only if it is that of a job of the
queue that was waiting for children, and all of these are gone. -/
structure Sheds (p : String) (l : List String) (s s' : Store) : Prop where
  gone : ∀ i ∈ l, s' .hash (p ++ i) = none
  keeps : ∀ k, (∀ i ∈ l, k ≠ p ++ i) → s' .hash k = s .hash k ∨
    s' .hash k = none ∧ keyBase k = p ∧ getJobIdFromKey k ∈ s (.zset .waitingChildren) p ∧
      ∀ c ∈ s .dependencies k, s' .hash c = none
  dependencies : ∀ k, (∀ i ∈ l, k ≠ p ++ i) → ∀ c ∈ s .dependencies k,
    c ∈ s' .dependencies k ∨ s' .hash c = none
  waiting : ∀ j ∈ s' (.zset .waitingChildren) p, j ∈ s (.zset .waitingChildren) p
  lock : s' .lock = s .lock
  repeatSet : s' .repeatSet = s .repeatSet

namespace Sheds

variable {p : String} {l l' : List String} {s s' s'' : Store}

theorem of_frame {W : List Kind}
    (hW : ∀ κ ∈ [Kind.hash, .dependencies, .zset .waitingChildren, .lock, .repeatSet], κ ∉ W)
    (hs : ∀ {κ}, κ ∉ W → s' κ = s κ) : Sheds p [] s s' where
  gone := by simp
  keeps k _ := .inl (by rw [hs (hW _ (by decide))])
  dependencies k _ c hc := .inl (by rwa [hs (hW _ (by decide))])
  waiting j hj := by rwa [hs (hW _ (by decide))] at hj
  lock := hs (hW _ (by decide))
  repeatSet := hs (hW _ (by decide))

theorem refl (p : String) (s : Store) : Sheds p [] s s :=
  .of_frame (W := []) (by simp) fun _ => rfl

/-- What has no hash has none afterwards. -/
theorem hash_eq_none (h : Sheds p l s s') {k : String} (hk : s .hash k = none) :
    s' .hash k = none := by
  by_cases hl : ∀ i ∈ l, k ≠ p ++ i
  · obtain heq | ⟨hnone, -⟩ := h.keeps k hl
    · rw [heq, hk]
    · exact hnone
  · push Not at hl
    obtain ⟨i, hi, rfl⟩ := hl
    exact h.gone i hi

theorem trans (h : Sheds p l s s') (h' : Sheds p l' s' s'') : Sheds p (l ++ l') s s'' where
  gone i hi := by
    obtain hi | hi := List.mem_append.mp hi
    · exact h'.hash_eq_none (h.gone i hi)
    · exact h'.gone i hi
  keeps k hk := by
    have hl : ∀ i ∈ l, k ≠ p ++ i := fun i hi => hk i (List.mem_append_left _ hi)
    have hl' : ∀ i ∈ l', k ≠ p ++ i := fun i hi => hk i (List.mem_append_right _ hi)
    obtain heq | ⟨hnone, hbase, hwaits, hchildren⟩ := h.keeps k hl
    · obtain heq' | ⟨hnone, hbase, hwaits, hchildren⟩ := h'.keeps k hl'
      · exact .inl (heq'.trans heq)
      · -- A child that was unlinked before is gone already.
        refine .inr ⟨hnone, hbase, h.waiting _ hwaits, fun c hc => ?_⟩
        obtain hc | hc := h.dependencies k hl c hc
        · exact hchildren c hc
        · exact h'.hash_eq_none hc
    · refine .inr ⟨h'.hash_eq_none hnone, hbase, hwaits, fun c hc => ?_⟩
      exact h'.hash_eq_none (hchildren c hc)
  dependencies k hk c hc := by
    obtain hc | hc := h.dependencies k (fun i hi => hk i (List.mem_append_left _ hi)) c hc
    · exact h'.dependencies k (fun i hi => hk i (List.mem_append_right _ hi)) c hc
    · exact .inr (h'.hash_eq_none hc)
  waiting j hj := h.waiting j (h'.waiting j hj)
  lock := h'.lock.trans h.lock
  repeatSet := h'.repeatSet.trans h.repeatSet

/-- A job that does not wait for children keeps its hash unless it is removed. -/
theorem hash_eq (h : Sheds p l s s') {i : String} (hi : i ∉ l)
    (hwaits : i ∉ s (.zset .waitingChildren) p) : s' .hash (p ++ i) = s .hash (p ++ i) := by
  have hne : ∀ j ∈ l, p ++ i ≠ p ++ j := fun j hj heq =>
    hi ((String.append_right_inj p).mp heq ▸ hj)
  obtain heq | ⟨-, hbase, hid, -⟩ := h.keeps (p ++ i) hne
  · exact heq
  · have happend := getJobKeyPrefix_append_getJobIdFromKey (p ++ i)
    rw [show getJobKeyPrefix (p ++ i) (getJobIdFromKey (p ++ i)) = p from hbase] at happend
    rw [(String.append_right_inj p).mp happend] at hid
    exact absurd hid hwaits

end Sheds

/-- What unlinking a job in the hard mode does to the other jobs. -/
theorem unlinkHard_sheds (n : ℕ) (p c : String) (s : Store) :
    (∀ k, unlinkHard n p c s .hash k = s .hash k ∨ unlinkHard n p c s .hash k = none ∧
      keyBase k = p ∧ getJobIdFromKey k ∈ s (.zset .waitingChildren) p ∧
        ∀ x ∈ s .dependencies k, x = c ∨ unlinkHard n p c s .hash x = none) ∧
    (∀ k, ∀ x ∈ s .dependencies k, x ∈ unlinkHard n p c s .dependencies k ∨ x = c ∨
      unlinkHard n p c s .hash x = none) ∧
    ∀ j ∈ unlinkHard n p c s (.zset .waitingChildren) p, j ∈ s (.zset .waitingChildren) p := by
  have hdep : ∀ (s' : Store) (c k k' x : String), x ∈ s' .dependencies k' →
      x ∈ s'.modify .dependencies k (·.srem c) .dependencies k' ∨ x = c := by
    intro s' c k k' x hx
    by_cases hxc : x = c
    · exact .inr hxc
    · refine .inl ?_
      rw [Keyspace.modify_self, Function.update_apply]
      split
      · next hk =>
        subst hk
        exact MemberSet.mem_srem.mpr ⟨hxc, hx⟩
      · exact hx
  have hwc : ∀ (s' : Store) (c k j : String), j ∈ unlinkLast c k s' (.zset .waitingChildren) p →
      j ∈ s' (.zset .waitingChildren) p := by
    intro s' c k j hj
    rw [unlinkLast, Keyspace.modify_self, Function.update_apply] at hj
    split at hj
    · next hq =>
      rw [hq]
      exact (SortedSet.mem_zrem.mp hj).1
    · rwa [Keyspace.modify_of_ne _ (by decide)] at hj
  -- By induction on the depth: the parent of `c` is unlinked as `c` is, once it has no other child.
  induction n generalizing c s with
  | zero => exact ⟨fun k => .inl rfl, fun k x hx => .inl hx, fun j hj => hj⟩
  | succ n ih =>
    obtain ⟨-, heq⟩ | ⟨k, -, -, -, heq⟩ | ⟨k, hk, hbase, heq⟩ | ⟨k, hk, hbase, heq⟩ :=
      unlinkHard_cases n p c s <;> rw [heq]
    · exact ⟨fun k => .inl rfl, fun k x hx => .inl hx, fun j hj => hj⟩
    · refine ⟨fun k' => .inl (by rw [Keyspace.modify_of_ne _ (by decide)]), fun k' x hx => ?_,
        fun j hj => by rwa [Keyspace.modify_of_ne _ (by decide)] at hj⟩
      exact (hdep s c k k' x hx).imp_right .inl
    · refine ⟨fun k' => .inl ?_, fun k' x hx => ?_, fun j hj => ?_⟩
      · rw [pushReleasedParent_frame _ _ _ (by decide), unlinkLast_frame _ _ _ (by decide)]
      · rw [pushReleasedParent_frame _ _ _ (by decide), unlinkLast,
          Keyspace.modify_of_ne _ (by decide)]
        exact (hdep s c k k' x hx).imp_right .inl
      · rw [pushReleasedParent_frame _ _ _ (by decide)] at hj
        exact hwc s c k j hj
    · -- The parent is deleted, after its own parents.
      obtain ⟨hhash, hdeps, hwaiting⟩ := ih k (unlinkLast c k s)
      set t := unlinkHard n p k (unlinkLast c k s) with ht
      have hout : ∀ k', deleteDeduplicationKey p (s.deidOf c) (removeJobKeys k t) .hash k' =
          if k' = k then none else t .hash k' := by
        intro k'
        rw [deleteDeduplicationKey_frame _ _ _ (by decide), removeJobKeys_hash,
          Function.update_apply]
      have hleft : ∀ k', k' ≠ k → unlinkLast c k s .dependencies k' = s .dependencies k' := by
        intro k' hne
        rw [unlinkLast, Keyspace.modify_of_ne _ (by decide), Keyspace.modify_self,
          Function.update_of_ne hne]
      have hgone : ∀ x, x = k ∨ t .hash x = none →
          deleteDeduplicationKey p (s.deidOf c) (removeJobKeys k t) .hash x = none := by
        rintro x (rfl | hx)
        · rw [hout, if_pos rfl]
        · rw [hout, hx, ite_self]
      refine ⟨fun k' => ?_, fun k' x hx => ?_, fun j hj => ?_⟩
      · by_cases hk' : k' = k
        · subst hk'
          refine .inr ⟨hgone k' (.inl rfl), hbase, hbase ▸ hk.waits, fun x hx => ?_⟩
          exact .inl (hk.alone x hx)
        · rw [hout, if_neg hk']
          obtain hsame | ⟨hnone, hbase', hid, hall⟩ := hhash k'
          · exact .inl (hsame.trans (by rw [unlinkLast_frame _ _ _ (by decide)]))
          · refine .inr ⟨hnone, hbase', hwc s c k _ hid, fun x hx => .inr (hgone x ?_)⟩
            exact hall x (by rwa [hleft k' hk'])
      · by_cases hk' : k' = k
        · subst hk'
          exact .inr (.inl (hk.alone x hx))
        · rw [deleteDeduplicationKey_frame _ _ _ (by decide), removeJobKeys_dependencies,
            Function.update_of_ne hk']
          obtain hx | hx := hdeps k' x (by rwa [hleft k' hk'])
          · exact .inl hx
          · exact .inr (.inr (hgone x hx))
      · rw [deleteDeduplicationKey_frame _ _ _ (by decide),
          removeJobKeys_frame _ _ (by decide)] at hj
        exact hwc s c k j (hwaiting j hj)

theorem removeJobHard_sheds (p j : String) (s : Store) : Sheds p [j] s (removeJobHard p s j) := by
  obtain ⟨hhash, hdeps, hwaiting⟩ :=
    unlinkHard_sheds ((s (.zset .waitingChildren) p).members.length + 1) p (p ++ j) s
  have hgone : ∀ x, x = p ++ j ∨ removeParentDependencyKeyHard p (p ++ j) s .hash x = none →
      removeJobHard p s j .hash x = none := by
    rintro x (rfl | hx)
    · rw [removeJobHard_hash, if_pos rfl]
    · rw [removeJobHard_hash, hx, ite_self]
  refine ⟨fun i hi => ?_, fun k hk => ?_, fun k hk c hc => ?_, fun i hi => ?_,
    removeJobHard_frame p s j (by decide), removeJobHard_frame p s j (by decide)⟩
  · obtain rfl := List.mem_singleton.mp hi
    exact hgone _ (.inl rfl)
  · rw [removeJobHard_hash, if_neg (hk j (by simp))]
    refine (hhash k).imp_right fun ⟨hnone, hbase, hid, hall⟩ => ⟨hnone, hbase, hid, fun c hc => ?_⟩
    exact hgone c (hall c hc)
  · have hdep : removeJobHard p s j .dependencies k =
        removeParentDependencyKeyHard p (p ++ j) s .dependencies k := by
      rw [removeJobHard, removeJobKeys_dependencies, Function.update_of_ne (hk j (by simp)),
        removeDeduplicationKeyIfNeededOnRemoval_frame _ _ _ _ (by decide)]
    rw [hdep]
    exact (hdeps k c hc).imp_right (hgone c)
  · rw [removeJobHard_eq_unlink _ _ _ (by decide)] at hi
    exact hwaiting i hi

/-! ### Which jobs are eligible -/

/-- Where the jobs of a state are. -/
def CleanState.container : CleanState → Container
  | .wait => .inl .wait
  | .active => .inl .active
  | .paused => .inl .paused
  | .delayed => .inr .delayed
  | .prioritized => .inr .prioritized
  | .completed => .inr .completed
  | .failed => .inr .failed

/-- The ids of a container in the order in which a clean looks at them: a list from its tail, a
sorted set from its lowest score. -/
def cleanLine (p : String) (s : Store) : Container → List String
  | .inl l => (s (.list l) p).reverse
  | .inr z => (s (.zset z) p).members

/-- The fields of which the first that is set is the timestamp that counts. -/
def CleanState.attributes : CleanState → List TimestampField
  | .wait | .active | .paused => [.finishedOn, .processedOn, .timestamp]
  | .delayed => [.processedOn, .timestamp]
  | .prioritized => [.timestamp]
  | .completed | .failed => [.finishedOn]

/-- A job of a state is eligible for a cut-off: it is not the current job of a scheduler, it is not
locked if it is active, and its timestamp, if it has one, is at most the cut-off. -/
def eligible (p : String) (type : CleanState) (T : ℤ) (s : Store) (i : String) : Bool :=
  decide ((type = .active → s .lock (p ++ i) = none) ∧ isJobSchedulerJob p i s = false ∧
    ∀ ts ∈ getTimestamp (p ++ i) type.attributes s, ts ≤ T)

/-- The test that the scripts make. -/
def cleanable (p : String) (ignoresLock : Bool) (attributes : List TimestampField) (T : ℤ)
    (s : Store) (i : String) : Bool :=
  decide ((ignoresLock = true ∨ s .lock (p ++ i) = none) ∧ isJobSchedulerJob p i s = false ∧
    isOlderThan (p ++ i) attributes T s = true)

theorem Sheds.cleanable_eq {p : String} {l : List String} {s s' : Store} (h : Sheds p l s s')
    {i : String} (hi : i ∉ l) (hwaits : i ∉ s (.zset .waitingChildren) p) (b : Bool)
    (as : List TimestampField) (T : ℤ) : cleanable p b as T s' i = cleanable p b as T s i := by
  have hhash := h.hash_eq hi hwaits
  have hscheduler : isJobSchedulerJob p i s' = isJobSchedulerJob p i s := by
    unfold isJobSchedulerJob
    rw [hhash, h.repeatSet]
  have hold : isOlderThan (p ++ i) as T s' = isOlderThan (p ++ i) as T s := by
    unfold isOlderThan getTimestamp
    rw [hhash]
  simp only [cleanable, hscheduler, hold, h.lock]

/-! ### One call -/

section Call

variable {p : String} {s t : Store} {deleted rest : List String}

/-- The entries a clean has deleted are marked with the empty string. -/
def marked (e : String → Bool) (i : String) : String := if e i then "" else i

theorem cleanListStep_eq {l : ListKey} {b : Bool} {limit T : ℤ} {n : ℕ} {i : String}
    (hroom : ¬ (0 < limit ∧ limit ≤ deleted.length)) :
    cleanListStep p l limit T b (deleted, t) (i, n) =
      if cleanable p b [.finishedOn, .processedOn, .timestamp] T t i then
        (deleted ++ [i], removeJobHard p (t.modify (.list l) p (·.set n "")) i)
      else (deleted, t) := by
  simp only [cleanListStep, if_neg hroom, cleanable, decide_eq_true_eq, Bool.not_eq_true]

theorem removeJobHard_list (l : ListKey) (s : Store) (i : String) :
    removeJobHard p s i (.list l) p = s (.list l) p :=
  removeJobs_list p [i] l s

/-- The loop of `cleanList` from some point on. -/
theorem foldl_cleanListStep (l : ListKey) (b : Bool) (T : ℤ) {limit : ℤ} {front : List String}
    {e : String → Bool} (he : e = cleanable p b [.finishedOn, .processedOn, .timestamp] T s)
    (hsheds : Sheds p deleted s t) (hnodup : (deleted ++ rest).Nodup)
    (hwaits : ∀ i ∈ rest, i ∉ s (.zset .waitingChildren) p)
    (hlimit : 0 < limit → (deleted.length + rest.length : ℤ) ≤ limit)
    (hlist : t (.list l) p = front ++ rest) :
    ∃ t', (rest.zipIdx front.length).foldl (cleanListStep p l limit T b) (deleted, t) =
        (deleted ++ rest.filter e, t') ∧
      Sheds p (deleted ++ rest.filter e) s t' ∧ t' (.list l) p = front ++ rest.map (marked e) := by
  -- By induction on the entries that are still to come: those in front are marked or kept.
  induction rest generalizing deleted t front with
  | nil => exact ⟨t, by simp, by simpa using hsheds, by simpa using hlist⟩
  | cons i rest ih =>
    have hi : i ∉ deleted := fun hi => List.disjoint_of_nodup_append hnodup hi (by simp)
    have htest : cleanable p b [.finishedOn, .processedOn, .timestamp] T t i = e i := by
      rw [he]
      exact hsheds.cleanable_eq hi (hwaits i (by simp)) b _ T
    simp only [List.length_cons] at hlimit
    -- The loop looks at no more entries than the limit, so the limit does not end it.
    have hroom : ¬ (0 < limit ∧ limit ≤ deleted.length) := by
      rintro ⟨hpos, hle⟩
      have := hlimit hpos
      omega
    have hwaits' : ∀ j ∈ rest, j ∉ s (.zset .waitingChildren) p := fun j hj =>
      hwaits j (by simp [hj])
    simp only [List.zipIdx_cons, List.foldl_cons]
    rw [cleanListStep_eq hroom, htest]
    by_cases hei : e i = true
    · rw [if_pos hei]
      set t' : Store := removeJobHard p (t.modify (.list l) p (·.set front.length "")) i with ht'
      have hset : Sheds p [] t (t.modify (.list l) p (·.set front.length "")) :=
        .of_frame (W := [.list l]) (by cases l <;> decide) fun hκ =>
          Keyspace.modify_of_ne _ (by simpa using hκ) ..
      have hsheds' : Sheds p (deleted ++ [i]) s t' :=
        hsheds.trans (hset.trans (removeJobHard_sheds p i _))
      have hlist' : t' (.list l) p = (front ++ [""]) ++ rest := by
        rw [ht', removeJobHard_list, Keyspace.modify_self, Function.update_self, hlist]
        simp
      have hlimit' : 0 < limit → ((deleted ++ [i]).length + rest.length : ℤ) ≤ limit := by
        intro hpos
        have := hlimit hpos
        simp only [List.length_append, List.length_singleton]
        omega
      have hrest := ih hsheds' (by simpa using hnodup) hwaits' hlimit' hlist'
      simpa [List.filter_cons, hei, marked] using hrest
    · rw [if_neg hei]
      have hlist' : t (.list l) p = (front ++ [i]) ++ rest := by simpa using hlist
      have hrest := ih hsheds (hnodup.sublist (by simp)) hwaits'
        (fun hpos => by have := hlimit hpos; omega) hlist'
      simpa [List.filter_cons, hei, marked] using hrest

/-- Marking and then dropping the marked entries leaves the others. -/
theorem filter_marked {e : String → Bool} {l : List String} (hl : "" ∉ l) :
    (l.map (marked e)).filter (· ≠ "") = l.filter fun i => !e i := by
  induction l with
  | nil => rfl
  | cons i l ih =>
    have hi : i ≠ "" := fun hi => hl (by simp [hi])
    have htail := ih fun hmem => hl (by simp [hmem])
    by_cases he : e i = true
    · simpa [marked, he] using htail
    · simpa [marked, he, hi] using htail

/-- The cleaned list has lost what was deleted. -/
theorem filter_notMem_filter {e : String → Bool} {front back : List String}
    (hnodup : (front ++ back).Nodup) :
    (front ++ back).filter (· ∉ back.filter e) = front ++ back.filter fun i => !e i := by
  have hfront : front.filter (· ∉ back.filter e) = front := by
    refine List.filter_eq_self.mpr fun i hi => ?_
    have hne : i ∉ back := fun hback => List.disjoint_of_nodup_append hnodup hi hback
    simp [hne]
  have hback : back.filter (· ∉ back.filter e) = back.filter fun i => !e i :=
    List.filter_congr fun i hi => by simp [hi]
  rw [List.filter_append, hfront, hback]

/-- What `cleanList` deletes: the cleanable entries among the last ones. -/
theorem cleanList_spec (l : ListKey) (b : Bool) (T : ℤ) {n : ℕ} (hn : 0 < n)
    {e : String → Bool} (he : e = cleanable p b [.finishedOn, .processedOn, .timestamp] T s)
    (hnodup : (s (.list l) p).Nodup) (hnamed : "" ∉ s (.list l) p)
    (hwaits : ∀ i ∈ s (.list l) p, i ∉ s (.zset .waitingChildren) p) :
    ∃ d s', cleanList p l n T b s = (d, s') ∧
      d = ((s (.list l) p).drop ((s (.list l) p).length - n)).filter e ∧ Sheds p d s s' ∧
      s' (.list l) p = (s (.list l) p).filter (· ∉ d) := by
  set list : List String := s (.list l) p with hlist
  set first := list.length - n with hfirst
  have hsplit : list = list.take first ++ list.drop first := (list.take_append_drop first).symm
  have hlength : (list.take first).length = first := by
    rw [List.length_take]
    omega
  have hsub : (list.drop first).Sublist list := List.drop_sublist ..
  have hlimit : 0 < (n : ℤ) → (([] : List String).length + (list.drop first).length : ℤ) ≤ n := by
    intro
    rw [List.length_nil, List.length_drop]
    omega
  obtain ⟨t, hloop, hsheds, hmarked⟩ := foldl_cleanListStep l b T he (Sheds.refl p s)
    (by simpa using hnodup.sublist hsub) (fun i hi => hwaits i (hsub.subset hi)) hlimit hsplit
  rw [hlength, List.nil_append] at hloop
  rw [List.nil_append] at hsheds
  have hpos : 0 < (n : ℤ) := by omega
  refine ⟨_, t.modify (.list l) p (·.filter (· ≠ "")), ?_, rfl, ?_, ?_⟩
  · simp only [cleanList, if_pos hpos, Int.toNat_natCast, ← hlist, ← hfirst, hloop]
  · have hfilter : Sheds p [] t (t.modify (.list l) p (·.filter (· ≠ ""))) :=
      .of_frame (W := [.list l]) (by cases l <;> decide) fun hκ =>
        Keyspace.modify_of_ne _ (by simpa using hκ) ..
    simpa using hsheds.trans hfilter
  · -- The final LREM takes out the marks, and no entry was empty before.
    have hfront : (list.take first).filter (· ≠ "") = list.take first := by
      refine List.filter_eq_self.mpr fun i hi => ?_
      have hne : i ≠ "" := fun h => hnamed (h ▸ List.mem_of_mem_take hi)
      simpa using hne
    rw [Keyspace.modify_self, Function.update_self, hmarked, List.filter_append, hfront,
      filter_marked fun h => hnamed (hsub.subset h)]
    refine (filter_notMem_filter ?_).symm.trans ?_
    · rwa [← hsplit]
    · rw [← hsplit]

theorem cleanSetStep_eq {as : List TimestampField} {limit T : ℤ} {i : String}
    (hroom : ¬ (0 < limit ∧ limit ≤ deleted.length)) :
    cleanSetStep p limit true (fun k => isOlderThan k as T) (deleted, t) i =
      if cleanable p true as T t i then (deleted ++ [i], removeJobHard p t i)
      else (deleted, t) := by
  simp only [cleanSetStep, if_neg hroom, cleanable, decide_eq_true_eq, true_or, true_and,
    Bool.not_eq_true]

/-- The loop of `cleanSet` from some point on. -/
theorem foldl_cleanSetStep (as : List TimestampField) (T : ℤ) {limit : ℤ}
    {e : String → Bool} (he : e = cleanable p true as T s)
    (hsheds : Sheds p deleted s t) (hnodup : (deleted ++ rest).Nodup)
    (hwaits : ∀ i ∈ rest, i ∉ s (.zset .waitingChildren) p)
    (hlimit : 0 < limit → (deleted.length + rest.length : ℤ) ≤ limit) :
    ∃ t', rest.foldl (cleanSetStep p limit true fun k => isOlderThan k as T) (deleted, t) =
        (deleted ++ rest.filter e, t') ∧
      Sheds p (deleted ++ rest.filter e) s t' ∧ ∀ κ, κ ∉ hardWrites → t' κ = t κ := by
  induction rest generalizing deleted t with
  | nil => exact ⟨t, by simp, by simpa using hsheds, fun _ _ => rfl⟩
  | cons i rest ih =>
    have hi : i ∉ deleted := fun hi => List.disjoint_of_nodup_append hnodup hi (by simp)
    have htest : cleanable p true as T t i = e i := by
      rw [he]
      exact hsheds.cleanable_eq hi (hwaits i (by simp)) true _ T
    simp only [List.length_cons] at hlimit
    have hroom : ¬ (0 < limit ∧ limit ≤ deleted.length) := by
      rintro ⟨hpos, hle⟩
      have := hlimit hpos
      omega
    have hwaits' : ∀ j ∈ rest, j ∉ s (.zset .waitingChildren) p := fun j hj =>
      hwaits j (by simp [hj])
    rw [List.foldl_cons, cleanSetStep_eq hroom, htest]
    by_cases hei : e i = true
    · rw [if_pos hei]
      have hlimit' : 0 < limit → ((deleted ++ [i]).length + rest.length : ℤ) ≤ limit := by
        intro hpos
        have := hlimit hpos
        simp only [List.length_append, List.length_singleton]
        omega
      obtain ⟨t', hloop, hsheds', hframe⟩ := ih (hsheds.trans (removeJobHard_sheds p i t))
        (by simpa using hnodup) hwaits' hlimit'
      refine ⟨t', by simpa [hei] using hloop, by simpa [hei] using hsheds', fun κ hκ => ?_⟩
      rw [hframe κ hκ, removeJobHard_frame _ _ _ hκ]
    · rw [if_neg hei]
      obtain ⟨t', hloop, hsheds', hframe⟩ := ih hsheds (hnodup.sublist (by simp)) hwaits'
        (fun hpos => by have := hlimit hpos; omega)
      exact ⟨t', by simpa [hei] using hloop, by simpa [hei] using hsheds', hframe⟩

/-- What `cleanSet` deletes: the cleanable ones among the first members. -/
theorem cleanSet_spec (z : ZSetKey) (as : List TimestampField) (T : ℤ) {n : ℕ} (hn : 0 < n)
    {e : String → Bool} (he : e = cleanable p true as T s) (hz : Kind.zset z ∉ hardWrites)
    {jobs : List String} (hnodup : jobs.Nodup)
    (hwaits : ∀ i ∈ jobs, i ∉ s (.zset .waitingChildren) p) :
    ∃ d s', cleanSet p z jobs n true (fun k => isOlderThan k as T) s = (d, s') ∧
      d = (jobs.take n).filter e ∧ Sheds p d s s' ∧
      s' (.zset z) p = (s (.zset z) p).zremAll d := by
  have hsub : (jobs.take n).Sublist jobs := List.take_sublist ..
  have hlimit : 0 < (n : ℤ) → (([] : List String).length + (jobs.take n).length : ℤ) ≤ n := by
    intro
    rw [List.length_nil, List.length_take]
    omega
  obtain ⟨t, hloop, hsheds, hframe⟩ := foldl_cleanSetStep as T he (Sheds.refl p s)
    (by simpa using hnodup.sublist hsub) (fun i hi => hwaits i (hsub.subset hi)) hlimit
  rw [List.nil_append] at hloop hsheds
  have hpos : 0 < (n : ℤ) := by omega
  refine ⟨_, t.modify (.zset z) p (·.zremAll ((jobs.take n).filter e)), ?_, rfl, ?_, ?_⟩
  · simp only [cleanSet, if_pos hpos, Int.toNat_natCast, hloop, foldl_batches_eq]
  · have hforget : Sheds p [] t (t.modify (.zset z) p (·.zremAll ((jobs.take n).filter e))) := by
      refine .of_frame (W := [.zset z]) ?_ fun hκ => Keyspace.modify_of_ne _ (by simpa using hκ) ..
      cases z <;> first | decide | exact absurd (by decide) hz
    simpa using hsheds.trans hforget
  · rw [Keyspace.modify_self, Function.update_self, hframe _ hz]

end Call

/-- What is assumed of a container that a clean is called on: its ids are distinct, not empty, and
none of them waits for children; scores are not negative. The scripts alone do not see to the last
of these, since `promoteJobs` writes the timestamp that it is given. -/
structure Tidy (p : String) (type : CleanState) (s : Store) : Prop where
  nodup : (cleanLine p s type.container).Nodup
  named : "" ∉ cleanLine p s type.container
  idle : ∀ i ∈ cleanLine p s type.container, i ∉ s (.zset .waitingChildren) p
  scores : ∀ z, type.container = .inr z → ∀ e ∈ (s (.zset z) p).entries, 0 ≤ (ofLex e).1

/-- The test that the script makes on a state. -/
def CleanState.test (p : String) (type : CleanState) (T : ℤ) : Store → String → Bool :=
  cleanable p (decide (type ≠ .active)) type.attributes T

/-- What a clean has done to a container: the jobs `d` are removed. -/
structure Cleaned (p : String) (type : CleanState) (T : ℤ) (d : List String) (s s' : Store) : Prop
    extends Sheds p d s s' where
  nodup : d.Nodup
  passed : ∀ i ∈ d, i ∈ cleanLine p s type.container ∧ type.test p T s i = true
  line : cleanLine p s' type.container = (cleanLine p s type.container).filter (· ∉ d)
  tidy : Tidy p type s'

section Call

variable {p : String} {type : CleanState} {T : ℤ} {d d' : List String} {s s' s'' : Store}

theorem Cleaned.test_eq (h : Cleaned p type T d s s') (hs : Tidy p type s) {i : String}
    (hi : i ∈ cleanLine p s' type.container) : type.test p T s' i = type.test p T s i := by
  rw [h.line] at hi
  obtain ⟨hi, hd⟩ := List.mem_filter.mp hi
  exact h.cleanable_eq (by simpa using hd) (hs.idle i hi) ..

theorem Cleaned.refl (hs : Tidy p type s) : Cleaned p type T [] s s :=
  ⟨.refl p s, .nil, by simp, by simp, hs⟩

theorem Cleaned.trans (hs : Tidy p type s) (h : Cleaned p type T d s s')
    (h' : Cleaned p type T d' s' s'') : Cleaned p type T (d ++ d') s s'' where
  toSheds := h.toSheds.trans h'.toSheds
  nodup := by
    refine h.nodup.append h'.nodup fun i hi hi' => ?_
    have hmem := (h'.passed i hi').1
    rw [h.line] at hmem
    simp [hi] at hmem
  passed i hi := by
    obtain hi | hi := List.mem_append.mp hi
    · exact h.passed i hi
    · obtain ⟨hmem, htest⟩ := h'.passed i hi
      refine ⟨?_, h.test_eq hs hmem ▸ htest⟩
      rw [h.line] at hmem
      exact List.mem_of_mem_filter hmem
  line := by
    rw [h'.line, h.line, List.filter_filter]
    exact List.filter_congr fun i _ => by simp [Bool.and_comm]
  tidy := h'.tidy

/-- A removal that leaves of the container what was not deleted. -/
theorem Cleaned.of_sheds (hs : Tidy p type s) (h : Sheds p d s s') {n : ℕ}
    (hd : d.Perm (((cleanLine p s type.container).take n).filter (type.test p T s)))
    (hline : cleanLine p s' type.container = (cleanLine p s type.container).filter (· ∉ d))
    (hscores : ∀ z, type.container = .inr z → (s' (.zset z) p).entries ⊆ (s (.zset z) p).entries) :
    Cleaned p type T d s s' where
  toSheds := h
  nodup := by
    refine hd.nodup_iff.mpr ?_
    exact (hs.nodup.sublist (List.take_sublist ..)).sublist List.filter_sublist
  passed i hi := by
    obtain ⟨hmem, htest⟩ := List.mem_filter.mp (hd.mem_iff.mp hi)
    exact ⟨List.mem_of_mem_take hmem, htest⟩
  line := hline
  tidy := by
    have hsub : (cleanLine p s' type.container).Sublist (cleanLine p s type.container) := by
      rw [hline]
      exact List.filter_sublist
    refine ⟨hs.nodup.sublist hsub, fun hmem => hs.named (hsub.subset hmem), fun i hi hmem => ?_,
      fun z hz e he => hs.scores z hz e (hscores z hz he)⟩
    exact hs.idle i (hsub.subset hi) (h.waiting i hmem)

theorem sheds_xadd (s : Store) (ev : Event) : Sheds p [] s (s.xadd p ev) :=
  .of_frame (W := [.events]) (by decide) fun hκ => Store.xadd_of_ne _ _ _ (by simpa using hκ)

/-- A call that cleans a list. -/
theorem cleanList_cleans {l : ListKey} {b : Bool} (hs : Tidy p type s) {n : ℕ} (hn : 0 < n)
    (hl : type.container = .inl l)
    (htest : type.test p T s = cleanable p b [.finishedOn, .processedOn, .timestamp] T s)
    (hcall : ∀ d s', cleanList p l n T b s = (d, s') →
      Script.cleanJobsInSet p T n type s = (.ids d, s'.xadd p (.cleaned d.length))) :
    ∃ d s', Script.cleanJobsInSet p T n type s = (.ids d, s') ∧
      d.Perm (((cleanLine p s type.container).take n).filter (type.test p T s)) ∧
      Cleaned p type T d s s' := by
  have hline : ∀ s', cleanLine p s' type.container = (s' (.list l) p).reverse := fun s' => by
    rw [hl]
    rfl
  have hmem : ∀ i, i ∈ cleanLine p s type.container ↔ i ∈ s (.list l) p := fun i => by
    rw [hline, List.mem_reverse]
  have hnodup := hs.nodup
  rw [hline, List.nodup_reverse] at hnodup
  obtain ⟨d, s', hcl, hd, hsheds, hlist⟩ := cleanList_spec l b T hn htest hnodup
    (fun h => hs.named ((hmem "").mpr h)) fun i hi => hs.idle i ((hmem i).mpr hi)
  have hperm : d.Perm (((cleanLine p s type.container).take n).filter (type.test p T s)) := by
    rw [hd, hline, List.take_reverse, List.filter_reverse]
    exact (List.reverse_perm _).symm
  refine ⟨d, _, hcall d s' hcl, hperm, .of_sheds hs ?_ hperm ?_ ?_⟩
  · simpa using hsheds.trans (sheds_xadd s' _)
  · rw [hline, hline, Store.xadd_of_ne _ _ _ (by simp), hlist, List.filter_reverse]
  · intro z hz
    rw [hl] at hz
    cases hz

/-- A call that cleans a sorted set. -/
theorem cleanSet_cleans {z : ZSetKey} (hs : Tidy p type s) {n : ℕ} (hn : 0 < n)
    (hz : type.container = .inr z) (hhard : Kind.zset z ∉ hardWrites)
    (htest : type.test p T s = cleanable p true type.attributes T s)
    (hcall : ∀ d s', cleanSet p z ((s (.zset z) p).rangeFrom 0) n true
        (fun k => isOlderThan k type.attributes T) s = (d, s') →
      Script.cleanJobsInSet p T n type s = (.ids d, s'.xadd p (.cleaned d.length))) :
    ∃ d s', Script.cleanJobsInSet p T n type s = (.ids d, s') ∧
      d.Perm (((cleanLine p s type.container).take n).filter (type.test p T s)) ∧
      Cleaned p type T d s s' := by
  have hline : ∀ s', cleanLine p s' type.container = (s' (.zset z) p).members := fun s' => by
    rw [hz]
    rfl
  have hrange : (s (.zset z) p).rangeFrom 0 = cleanLine p s type.container := by
    rw [hline, SortedSet.rangeFrom, List.filter_eq_self.mpr fun e he => by
      simpa using hs.scores z hz e he]
    rfl
  obtain ⟨d, s', hcl, hd, hsheds, hset⟩ := cleanSet_spec z type.attributes T hn htest hhard
    (hrange ▸ hs.nodup) fun i hi => hs.idle i (hrange ▸ hi)
  rw [hrange] at hd
  have hzset : (s'.xadd p (.cleaned d.length)) (.zset z) p = (s (.zset z) p).zremAll d := by
    rw [Store.xadd_of_ne _ _ _ (by simp), hset]
  have hperm : d.Perm (((cleanLine p s type.container).take n).filter (type.test p T s)) := by
    rw [hd]
  refine ⟨d, _, hcall d s' hcl, hperm, .of_sheds hs ?_ hperm ?_ ?_⟩
  · simpa using hsheds.trans (sheds_xadd s' _)
  · rw [hline, hline, hzset, SortedSet.members_zremAll]
  · intro z' hz'
    obtain rfl : z = z' := Sum.inr.inj (hz.symm.trans hz')
    rw [hzset]
    exact List.filter_subset_self _

end Call

/-- What one call does: the jobs that pass the test among the first of the line are removed. -/
theorem cleanJobsInSet_spec {p : String} {type : CleanState} {s : Store} (T : ℤ)
    (htype : type ∉ [CleanState.completed, .failed]) (hs : Tidy p type s) {n : ℕ} (hn : 0 < n) :
    ∃ d s', Script.cleanJobsInSet p T n type s = (.ids d, s') ∧
      d.Perm (((cleanLine p s type.container).take n).filter (type.test p T s)) ∧
      Cleaned p type T d s s' := by
  cases type with
  | completed => simp at htype
  | failed => simp at htype
  | wait =>
    refine cleanList_cleans (b := true) hs hn rfl rfl fun d s' h => ?_
    simp [Script.cleanJobsInSet, h]
  | active =>
    refine cleanList_cleans (b := false) hs hn rfl rfl fun d s' h => ?_
    simp [Script.cleanJobsInSet, h]
  | paused =>
    refine cleanList_cleans (b := true) hs hn rfl rfl fun d s' h => ?_
    simp [Script.cleanJobsInSet, h]
  | delayed =>
    refine cleanSet_cleans hs hn rfl (by decide) rfl fun d s' h => ?_
    simp only [CleanState.attributes] at h
    simp [Script.cleanJobsInSet, h]
  | prioritized =>
    refine cleanSet_cleans hs hn rfl (by decide) rfl fun d s' h => ?_
    simp only [CleanState.attributes] at h
    simp [Script.cleanJobsInSet, h]

/-! ### Batches -/

section Batches

variable {α : Type} {n : ℕ} {room : Option ℕ} {l : List α} {e e' : α → Bool}

/-- Looking at a line in batches of `n`, and at the next one only if all jobs of the last were
eligible, overlooks nothing. Either no eligible job is behind the first batch that is not eligible
as a whole, and there is room for all of them; or the room is made up of whole batches, and is
filled by the jobs in front, which are all eligible. -/
def Covered (n : ℕ) (room : Option ℕ) (l : List α) (e : α → Bool) : Prop :=
  ((∃ k, (∀ i ∈ l.take (k * n), e i = true) ∧ ∀ i ∈ l.drop ((k + 1) * n), e i = false) ∧
    ∀ r ∈ room, (l.filter e).length ≤ r) ∨
  ∃ r ∈ room, n ∣ r ∧ ∀ i ∈ l.take r, e i = true

/-- How many of the eligible jobs are to be deleted. -/
def quota (room : Option ℕ) (l : List α) (e : α → Bool) : ℕ :=
  room.elim (l.filter e).length (min · (l.filter e).length)

theorem Covered.congr (h : Covered n room l e) (he : ∀ i ∈ l, e' i = e i) :
    Covered n room l e' := by
  have hfilter : l.filter e' = l.filter e := List.filter_congr he
  refine h.imp (fun ⟨⟨k, htake, hdrop⟩, hroom⟩ => ⟨⟨k, fun i hi => ?_, fun i hi => ?_⟩, ?_⟩)
    fun ⟨r, hr, hdvd, htake⟩ => ⟨r, hr, hdvd, fun i hi => ?_⟩
  · rw [he i (List.mem_of_mem_take hi), htake i hi]
  · rw [he i (List.mem_of_mem_drop hi), hdrop i hi]
  · rwa [hfilter]
  · rw [he i (List.mem_of_mem_take hi), htake i hi]

theorem quota_congr (he : ∀ i ∈ l, e' i = e i) : quota room l e' = quota room l e := by
  rw [quota, quota, List.filter_congr he]

/-- The eligible jobs are those of the first batch and those behind it. -/
theorem length_filter_split (n : ℕ) (l : List α) (e : α → Bool) :
    (l.filter e).length = ((l.take n).filter e).length + ((l.drop n).filter e).length := by
  rw [← List.length_append, ← List.filter_append, List.take_append_drop]

theorem take_subset_take {m n : ℕ} (h : m ≤ n) (l : List α) : l.take m ⊆ l.take n := fun i hi => by
  rw [← min_eq_left h, ← List.take_take] at hi
  exact List.mem_of_mem_take hi

/-- A short batch is the last one. -/
theorem Covered.last (h : Covered n room l e) (hshort : ((l.take n).filter e).length < n)
    (hroom : ∀ r ∈ room, 0 < r) : ((l.take n).filter e).length = quota room l e := by
  -- A batch of eligible jobs only is short where the line ends.
  have hend : (∀ i ∈ l.take n, e i = true) → l.drop n = [] := by
    intro hall
    rw [List.filter_eq_self.mpr hall, List.length_take] at hshort
    exact List.drop_of_length_le (by omega)
  have hsplit := length_filter_split n l e
  obtain ⟨⟨k, htake, hdrop⟩, hle⟩ | ⟨r, hr, hdvd, htake⟩ := h
  · have hnil : (l.drop n).filter e = [] := by
      cases k with
      | zero =>
        refine List.filter_eq_nil_iff.mpr fun i hi => ?_
        simp [hdrop i (by simpa using hi)]
      | succ k =>
        rw [hend fun i hi => htake i (take_subset_take (Nat.le_mul_of_pos_left n (by omega)) l hi)]
        rfl
    rw [hnil] at hsplit
    cases room with
    | none => exact hsplit.symm
    | some r =>
      have := hle r rfl
      simp only [quota, Option.elim_some, List.length_nil] at hsplit ⊢
      omega
  · obtain rfl := Option.mem_def.mp hr
    have hn : n ≤ r := Nat.le_of_dvd (hroom r rfl) hdvd
    have hnil := hend fun i hi => htake i (take_subset_take hn l hi)
    rw [hnil] at hsplit
    simp only [quota, Option.elim_some, List.filter_nil, List.length_nil] at hsplit ⊢
    omega

/-- A full batch is followed by another one. -/
theorem Covered.next (h : Covered n room l e) (hfull : ((l.take n).filter e).length = n)
    (hroom : ∀ r ∈ room, 0 < r) :
    Covered n (room.map (· - n)) (l.drop n) e ∧
      quota room l e = n + quota (room.map (· - n)) (l.drop n) e := by
  have hsplit := length_filter_split n l e
  rw [hfull] at hsplit
  -- What is in front of the rest of the line is a front of the whole line behind the first batch.
  have hbehind : ∀ m i, i ∈ (l.drop n).take m → i ∈ l.take (n + m) := by
    intro m i hi
    rw [← Nat.add_sub_cancel_left (n := n) (m := m), ← List.drop_take] at hi
    exact List.mem_of_mem_drop hi
  obtain ⟨⟨k, htake, hdrop⟩, hle⟩ | ⟨r, hr, hdvd, htake⟩ := h
  · refine ⟨.inl ⟨?_, fun r' hr' => ?_⟩, ?_⟩
    · cases k with
      | zero =>
        refine ⟨0, by simp, fun i hi => hdrop i ?_⟩
        simpa using List.mem_of_mem_drop hi
      | succ k =>
        refine ⟨k, fun i hi => htake i ?_, fun i hi => hdrop i ?_⟩
        · have := hbehind _ i hi
          rwa [show (k + 1) * n = n + k * n by ring]
        · rw [List.drop_drop] at hi
          rwa [show (k + 1 + 1) * n = n + (k + 1) * n by ring]
    · obtain ⟨r, hr, rfl⟩ := Option.mem_map.mp hr'
      have := hle r hr
      omega
    · cases room with
      | none => exact hsplit
      | some r =>
        have := hle r rfl
        simp only [quota, Option.map_some, Option.elim_some]
        omega
  · obtain rfl := Option.mem_def.mp hr
    have hn : n ≤ r := Nat.le_of_dvd (hroom r rfl) hdvd
    refine ⟨.inr ⟨r - n, rfl, Nat.dvd_sub hdvd dvd_rfl, fun i hi => htake i ?_⟩, ?_⟩
    · have := hbehind _ i hi
      rwa [Nat.add_sub_cancel' hn] at this
    · simp only [quota, Option.map_some, Option.elim_some]
      omega

end Batches

/-! ### The loop -/

/-- How many jobs are left to delete. -/
def roomLeft (maxCount : Option ℤ) (done : List String) : Option ℕ :=
  maxCount.map fun m => (m - (done.length : ℤ)).toNat

section Loop

variable {p : String} {type : CleanState} {T : ℤ} {n : ℕ}

theorem roomLeft_append (maxCount : Option ℤ) (done d : List String) :
    roomLeft maxCount (done ++ d) = (roomLeft maxCount done).map (· - d.length) := by
  cases maxCount with
  | none => rfl
  | some m =>
    simp only [roomLeft, Option.map_some, List.length_append]
    congr 1
    omega

/-- After a batch that was deleted as a whole, the line goes on behind it. -/
theorem Cleaned.drop_line {d : List String} {s s' : Store} (hs : Tidy p type s)
    (h : Cleaned p type T d s s')
    (hd : d.Perm (((cleanLine p s type.container).take n).filter (type.test p T s)))
    (hfull : d.length = n) :
    cleanLine p s' type.container = (cleanLine p s type.container).drop n := by
  set l := cleanLine p s type.container with hl
  have hall : (l.take n).filter (type.test p T s) = l.take n := by
    refine List.filter_sublist.eq_of_length ?_
    have hle := (List.filter_sublist (p := type.test p T s) (l := l.take n)).length_le
    have hlen := hd.length_eq
    have htake := List.length_take_le n l
    omega
  have hmem : ∀ i, i ∈ d ↔ i ∈ l.take n := fun i => by rw [hd.mem_iff, hall]
  have hsplit : (l.take n ++ l.drop n).Nodup := by
    rw [List.take_append_drop]
    exact hs.nodup
  have hfront : (l.take n).filter (· ∉ d) = [] := by
    refine List.filter_eq_nil_iff.mpr fun i hi => ?_
    simpa using (hmem i).mpr hi
  have hback : (l.drop n).filter (· ∉ d) = l.drop n := by
    refine List.filter_eq_self.mpr fun i hi => ?_
    have hne : i ∉ l.take n := fun hi' => List.disjoint_of_nodup_append hsplit hi' hi
    simpa [hmem] using hne
  rw [h.line, ← hl, ← List.take_append_drop n l, List.filter_append, hfront, hback, List.nil_append,
    List.take_append_drop]

/-- The loop of `Queue.clean`: it ends, removes jobs that pass the test, and as many as it should
where its batches overlook none. -/
theorem cleanLoop_spec (htype : type ∉ [CleanState.completed, .failed]) (hn : 0 < n)
    (maxCount : Option ℤ) (fuel : ℕ) (done : List String) {s : Store} (hs : Tidy p type s)
    (hfuel : (cleanLine p s type.container).length < fuel) :
    ∃ d s', cleanLoop p T maxCount n type fuel done s = some (done ++ d, s') ∧
      Cleaned p type T d s s' ∧
      (Covered n (roomLeft maxCount done) (cleanLine p s type.container) (type.test p T s) →
        d.length = quota (roomLeft maxCount done) (cleanLine p s type.container)
          (type.test p T s)) := by
  -- By induction on the fuel, which bounds what is left of the line: each full batch shortens it.
  induction fuel generalizing done s with
  | zero => omega
  | succ fuel ih =>
    rw [cleanLoop]
    by_cases hroom : ∀ m ∈ maxCount, (done.length : ℤ) < m
    · rw [if_pos hroom]
      have hpos : ∀ r ∈ roomLeft maxCount done, 0 < r := by
        intro r hr
        obtain ⟨m, hm, rfl⟩ := Option.mem_map.mp hr
        have := hroom m hm
        omega
      obtain ⟨d, s', hcall, hd, hcleaned⟩ := cleanJobsInSet_spec T htype hs hn
      simp only [hcall]
      -- A batch that deletes fewer jobs than it may ends the loop, whatever is behind it.
      by_cases hshort : (d.length : ℤ) < n
      · rw [if_pos hshort]
        refine ⟨d, s', rfl, hcleaned, fun hcovered => ?_⟩
        have hlen := hd.length_eq
        rw [hlen]
        exact hcovered.last (by omega) hpos
      · rw [if_neg hshort]
        have hlen := hd.length_eq
        have hle : (((cleanLine p s type.container).take n).filter (type.test p T s)).length ≤
            ((cleanLine p s type.container).take n).length := List.filter_sublist.length_le
        rw [List.length_take] at hle
        have hfull : d.length = n := by omega
        have hdrop := hcleaned.drop_line hs hd hfull
        obtain ⟨d', s'', hloop, hcleaned', hcount⟩ := ih (done ++ d) hcleaned.tidy (by
          rw [hdrop, List.length_drop]
          omega)
        refine ⟨d ++ d', s'', by rw [hloop, List.append_assoc], hcleaned.trans hs hcleaned',
          fun hcovered => ?_⟩
        obtain ⟨hnext, hquota⟩ := hcovered.next (by omega) hpos
        -- What the batch deleted does not change the test of the others.
        have htest : ∀ i ∈ (cleanLine p s type.container).drop n,
            type.test p T s' i = type.test p T s i := fun i hi =>
          hcleaned.test_eq hs (hdrop ▸ hi)
        rw [hdrop, roomLeft_append, hfull] at hcount
        rw [List.length_append, hcount (hnext.congr htest), quota_congr htest, hquota, hfull]
    · rw [if_neg hroom]
      refine ⟨[], s, by simp, .refl hs, fun _ => ?_⟩
      push Not at hroom
      obtain ⟨m, hm, hle⟩ := hroom
      obtain rfl := Option.mem_def.mp hm
      have hzero : (m - done.length).toNat = 0 := by omega
      simp only [roomLeft, quota, Option.map_some, Option.elim_some, hzero, List.length_nil,
        Nat.zero_min]

end Loop

/-! ### What a clean deletes -/

/-- The scripts compare timestamps as strings: on the jobs of the state this is their order. -/
def Dated (p : String) (type : CleanState) (T : ℤ) (s : Store) : Prop :=
  ∀ i ∈ cleanLine p s type.container, ∀ ts ∈ getTimestamp (p ++ i) type.attributes s,
    ts.repr ≤ T.repr ↔ ts ≤ T

instance (p : String) (type : CleanState) (T : ℤ) (s : Store) : Decidable (Dated p type T s) :=
  inferInstanceAs (Decidable (∀ i ∈ cleanLine p s type.container, ∀ ts ∈ _, _))

theorem Dated.test_eq {p : String} {type : CleanState} {T : ℤ} {s : Store}
    (h : Dated p type T s) {i : String} (hi : i ∈ cleanLine p s type.container) :
    type.test p T s i = eligible p type T s i := by
  have hold : isOlderThan (p ++ i) type.attributes T s = true ↔
      ∀ ts ∈ getTimestamp (p ++ i) type.attributes s, ts ≤ T := by
    have hi := h i hi
    unfold isOlderThan
    split
    · next hnone => simp [hnone]
    · next ts hts =>
      simp only [hts, Option.mem_def, Option.some.injEq, forall_eq'] at hi ⊢
      simpa using hi
  have hlock : (decide (type ≠ .active) = true ∨ s .lock (p ++ i) = none) ↔
      (type = .active → s .lock (p ++ i) = none) := by
    rw [decide_eq_true_eq, or_iff_not_imp_left, not_not]
  simp only [CleanState.test, cleanable, eligible, hold, hlock]

/-- A job of the queue that waited for children which are all gone, and is gone with them. -/
structure GoneWithChildren (p k : String) (s s' : Store) : Prop where
  gone : s' .hash k = none
  base : keyBase k = p
  waiting : getJobIdFromKey k ∈ s (.zset .waitingChildren) p
  children : ∀ c ∈ s .dependencies k, s' .hash c = none

/-- Of the jobs of a state, the eligible ones `d` are deleted. The others keep their places and
hashes, and no other job is deleted, but for those that waited for deleted jobs only. If the batches
overlook nothing, `d` are all eligible jobs, or as many as the limit says. -/
structure CleansEligible (p : String) (type : CleanState) (T : ℤ) (limit : ℕ) (d : List String)
    (s s' : Store) : Prop where
  nodup : d.Nodup
  eligible : ∀ i ∈ d, i ∈ cleanLine p s type.container ∧ eligible p type T s i = true
  gone : ∀ i ∈ d, s' .hash (p ++ i) = none
  line : cleanLine p s' type.container = (cleanLine p s type.container).filter (· ∉ d)
  kept : ∀ i ∈ cleanLine p s type.container, i ∉ d → s' .hash (p ++ i) = s .hash (p ++ i)
  others : ∀ k, (∀ i ∈ d, k ≠ p ++ i) → s' .hash k = s .hash k ∨ GoneWithChildren p k s s'
  count : Covered (if limit = 0 then 10000 else min 10000 limit)
      (if limit = 0 then none else some limit) (cleanLine p s type.container)
      (BullMQ.eligible p type T s) →
    let n := ((cleanLine p s type.container).filter (BullMQ.eligible p type T s)).length
    d.length = if limit = 0 then n else min limit n

/-- **What a clean deletes.** On a state whose ids are distinct and do not wait for children, and
whose timestamps compare as strings as they do as numbers, a clean with any grace and limit ends and
deletes eligible jobs, and all that it should unless its batches overlook some. -/
theorem clean_deletes_eligible {p : String} {type : CleanState} {now grace : ℤ} {s : Store}
    {fuel : ℕ} (htype : type ∉ [CleanState.completed, .failed]) (limit : ℕ) (hs : Tidy p type s)
    (hdated : Dated p type (now - grace) s)
    (hfuel : (cleanLine p s type.container).length < fuel) :
    ∃ d s', Queue.clean fuel p now grace limit type s = some (d, s') ∧
      CleansEligible p type (now - grace) limit d s s' := by
  set n : ℕ := if limit = 0 then 10000 else min 10000 limit with hn
  set maxCount : Option ℤ := if limit = 0 then none else some (limit : ℤ) with hmax
  have hpos : 0 < n := by
    rw [hn]
    split <;> omega
  have hroom : roomLeft maxCount [] = if limit = 0 then none else some limit := by
    rw [hmax]
    split <;> simp [roomLeft]
  have hclean : Queue.clean fuel p now grace limit type s =
      cleanLoop p (now - grace) maxCount n type fuel [] s := by
    simp only [Queue.clean, Nat.cast_eq_zero, hmax, hn]
    split <;> simp
  obtain ⟨d, s', hloop, hcleaned, hcount⟩ :=
    cleanLoop_spec (T := now - grace) htype hpos maxCount fuel [] hs hfuel
  -- The scripts compare timestamps as strings, which `hdated` makes the comparison of the numbers.
  have htest : ∀ i ∈ cleanLine p s type.container,
      type.test p (now - grace) s i = eligible p type (now - grace) s i := fun i hi =>
    hdated.test_eq hi
  refine ⟨d, s', by rw [hclean, hloop, List.nil_append], hcleaned.nodup, fun i hi => ?_,
    hcleaned.gone, hcleaned.line, fun i hi hd => hcleaned.hash_eq hd (hs.idle i hi), fun k hk => ?_,
    fun hcovered => ?_⟩
  · obtain ⟨hmem, hpass⟩ := hcleaned.passed i hi
    exact ⟨hmem, htest i hmem ▸ hpass⟩
  · exact (hcleaned.keeps k hk).imp_right fun ⟨hnone, hbase, hid, hall⟩ =>
      ⟨hnone, hbase, hid, hall⟩
  · rw [hroom] at hcount
    rw [hcount (hcovered.congr htest), quota_congr htest, quota]
    split <;> rfl

/-- A waiting job of time 1 and one of time 9. -/
def oldAndNew : List Command :=
  [.addStandardJob "bull:q:" { name := "old", data := "", timestamp := 1 },
   .addStandardJob "bull:q:" { name := "new", data := "", timestamp := 9 }]

/-- The store these commands lead to. -/
def oldAndNewStore : Store := (runCommands oldAndNew .empty).getD .empty

theorem clean_takes_the_old_one :
    ∃ d s', Queue.clean 3 "bull:q:" 8 3 0 .wait oldAndNewStore = some (d, s') ∧
      CleansEligible "bull:q:" .wait 5 0 d oldAndNewStore s' ∧ d.length = 1 := by
  have htidy : Tidy "bull:q:" .wait oldAndNewStore :=
    ⟨by decide, by decide, by decide, fun z hz => by cases hz⟩
  have hdated : Dated "bull:q:" .wait (8 - 3) oldAndNewStore := by decide
  obtain ⟨d, s', hclean, hcleans⟩ := clean_deletes_eligible (by decide) 0 htidy hdated
    (show (cleanLine "bull:q:" oldAndNewStore CleanState.wait.container).length < 3 by decide)
  refine ⟨d, s', hclean, hcleans, hcleans.count (.inl ⟨⟨0, by simp, fun i hi => ?_⟩, by simp⟩)⟩
  rw [List.drop_of_length_le (by decide)] at hi
  cases hi

/-- A parent that waits for its only child, in the same queue. -/
def parentOfOne : List Command :=
  let parent : Parent := { id := "parent", queueKey := "bull:q" }
  [.addParentJob "bull:q:" { customId := "parent", name := "p", data := "", timestamp := 1 },
   .addStandardJob "bull:q:" { name := "c", data := "", timestamp := 1, parent := some parent }]

/-- The store these commands lead to. -/
def parentOfOneStore : Store := (runCommands parentOfOne .empty).getD .empty

/-- A clean of the waiting jobs deletes the parent, which is not one of them. -/
theorem clean_deletes_parent :
    cleanLine "bull:q:" parentOfOneStore CleanState.wait.container = ["2"] ∧
    ∃ d s', Queue.clean 2 "bull:q:" 5 0 0 .wait parentOfOneStore = some (d, s') ∧
      ¬ ∀ k, parentOfOneStore.jobExists k = true → s'.jobExists k = false →
        ∃ i ∈ cleanLine "bull:q:" parentOfOneStore CleanState.wait.container,
          eligible "bull:q:" .wait 5 parentOfOneStore i = true ∧ k = "bull:q:" ++ i := by
  have hline : cleanLine "bull:q:" parentOfOneStore CleanState.wait.container = ["2"] := by decide
  have hgone : (Queue.clean 2 "bull:q:" 5 0 0 .wait parentOfOneStore).map
      (fun r => r.2.jobExists "bull:q:parent") = some false := by decide +kernel
  obtain ⟨⟨d, s'⟩, hclean, hs'⟩ := Option.map_eq_some_iff.mp hgone
  refine ⟨hline, d, s', hclean, fun h => ?_⟩
  obtain ⟨i, hi, -, hk⟩ := h "bull:q:parent" (by decide) hs'
  rw [hline, List.mem_singleton] at hi
  subst hi
  exact absurd hk (by decide)

end BullMQ
