import BullMQ.Dedup.Jobs

/-!
# Sweeps in the register of claims

A clean and a drain delete the jobs of a container one by one, each with what it holds, and then
forget their ids. As long as nobody waits for children, no other job goes with them, and what has
happened before the ids are forgotten is a matter of hashes and keys alone (`Culls`). A sweep as a
whole is a sequence of deletions (`Culls.sweep`).
-/

namespace BullMQ

open Redis Claims

/-- No job waits for its children. -/
def NobodyWaits (s : Store) : Prop := ∀ q i, i ∉ s (.zset .waitingChildren) q

/-- The families in which the deletions of a sweep show before any id is forgotten. -/
def cullWrites : List Kind := .events :: .de :: .dn :: jobKeyWrites

/-- The jobs `D` of a queue are deleted with what they hold; beyond that, only the container `c` has
changed. -/
structure Culls (Q : QueueSet) (p : String) (c : Container) (D : List String) (s s' : Store) :
    Prop where
  exist : ∀ k, s'.jobExists k = (s.jobExists k && decide (∀ i ∈ D, k ≠ p ++ i))
  parents : ∀ k, s'.parentOf k = s.parentOf k ∨ s'.parentOf k = none
  trace : Trace DeduplicatedNextJob.jid Removes (s.claims p) (s'.claims p)
  others : ∀ {q}, Q.Base q → q ≠ p → s'.claims q = s.claims q
  registers : ∀ c₀, Registers c₀ s s'
  kept : ∀ κ, κ ∉ cullWrites → κ ≠ c.kind → s' κ = s κ

section HardRemoval

variable {Q : QueueSet} {p i : String} {s s' s'' : Store} {c : Container} {D D' : List String}

/-- Where nobody waits for children, unlinking a job is at most taking it off its parent's
dependencies. -/
theorem removeParentDependencyKeyHard_eq (h : NobodyWaits s) (p k : String) :
    removeParentDependencyKeyHard p k s = s ∨
      ∃ k', removeParentDependencyKeyHard p k s = s.modify .dependencies k' (·.srem k) := by
  obtain ⟨-, heq⟩ | ⟨k', -, -, -, heq⟩ | ⟨k', hk', -⟩ | ⟨k', hk', -⟩ := unlinkHard_cases
    (s (.zset .waitingChildren) p).members.length p k s
  · exact .inl heq
  · exact .inr ⟨k', heq⟩
  · exact absurd hk'.waits (h _ _)
  · exact absurd hk'.waits (h _ _)

theorem removeParentDependencyKeyHard_frame (h : NobodyWaits s) (p k : String) {κ : Kind}
    (hκ : κ ∉ [Kind.dependencies]) : removeParentDependencyKeyHard p k s κ = s κ := by
  obtain heq | ⟨k', heq⟩ := removeParentDependencyKeyHard_eq h p k <;> rw [heq]
  exact modify_notMem hκ

theorem removeParentDependencyKeyHard_registers (h : NobodyWaits s) (p k c₀ : String) :
    Registers c₀ s (removeParentDependencyKeyHard p k s) := by
  obtain heq | ⟨k', heq⟩ := removeParentDependencyKeyHard_eq h p k <;> rw [heq]
  · exact .refl s
  · exact .srem k' k s

theorem removeJobHard_kept (h : NobodyWaits s) (p i : String) {κ : Kind} (hκ : κ ∉ cullWrites) :
    removeJobHard p s i κ = s κ := by
  have hdep : κ ∉ [Kind.dependencies] := Kind.notMem_mono hκ (by decide)
  rw [removeJobHard_eq_unlink _ _ _ (Kind.notMem_mono hκ (by decide)),
    removeParentDependencyKeyHard_frame h p _ hdep]

namespace Culls

theorem refl (Q : QueueSet) (p : String) (c : Container) (s : Store) : Culls Q p c [] s s where
  exist k := by simp
  parents k := .inl rfl
  trace := .refl _
  others _ _ := rfl
  registers _ := .refl s
  kept _ _ _ := rfl

theorem trans (h : Culls Q p c D s s') (h' : Culls Q p c D' s' s'') :
    Culls Q p c (D ++ D') s s'' where
  exist k := by
    rw [h'.exist, h.exist, Bool.and_assoc]
    simp [or_imp, forall_and]
  parents k := by
    obtain heq | hnone := h'.parents k
    · exact heq ▸ h.parents k
    · exact .inr hnone
  trace := h.trace.trans h'.trace
  others hq hne := (h'.others hq hne).trans (h.others hq hne)
  registers c₀ := (h.registers c₀).trans (h'.registers c₀)
  kept κ hκ hc := (h'.kept κ hκ hc).trans (h.kept κ hκ hc)

/-- A change of the container, or of the event stream. -/
theorem of_frame {W : List Kind} (hs : ∀ {κ}, κ ∉ W → s' κ = s κ)
    (hW : ∀ κ ∈ [Kind.hash, .zset .completed, .zset .failed, .de, .dn] ++ accountKinds, κ ∉ W)
    (hc : ∀ κ ∈ W, κ = .events ∨ κ = c.kind) : Culls Q p c [] s s' := by
  have hhash : s' .hash = s .hash := hs (hW _ (by decide))
  have hclaims : ∀ q, s'.claims q = s.claims q :=
    claims_of_frame (fun κ hκ => hW κ (List.mem_append_left _ hκ)) hs
  refine ⟨fun k => ?_, fun k => .inl ?_, hclaims p ▸ .refl _, fun _ _ => hclaims _,
    fun c₀ => .of_frame (fun κ hκ => hW κ (List.mem_append_right _ hκ)) hs, fun κ hκ hne => hs ?_⟩
  · simp [Store.jobExists, hhash]
  · rw [Store.parentOf, hhash, Store.parentOf]
  · intro hmem
    obtain rfl | heq := hc κ hmem
    · exact hκ (by decide)
    · exact hne heq

/-- The deletion of one job. -/
theorem removeJobHard (h : NobodyWaits s) (hp : Q.Base p) (c : Container) (i : String) :
    Culls Q p c [i] s (BullMQ.removeJobHard p s i) := by
  set s₁ := removeParentDependencyKeyHard p (p ++ i) s with hs₁
  have hframe : ∀ {κ}, κ ∉ [Kind.dependencies] → s₁ κ = s κ := fun hκ =>
    removeParentDependencyKeyHard_frame h p _ hκ
  have heq : BullMQ.removeJobHard p s i = removeJobKeys (p ++ i)
    (removeDeduplicationKeyIfNeededOnRemoval p i (s₁.deidOf (p ++ i)) s₁) := rfl
  -- Unlinking writes dependencies only, as nobody waits for children.
  have hclaims₁ : ∀ q, s₁.claims q = s.claims q := claims_of_frame (by decide) hframe
  have hhash : ∀ k, BullMQ.removeJobHard p s i .hash k = if k = p ++ i then none else s .hash k :=
    fun k => by rw [removeJobHard_hash, ← hs₁, hframe (by decide)]
  refine ⟨fun k => ?_, fun k => ?_, ?_, fun {q} hq hne => ?_, fun c₀ => ?_,
    fun κ hκ _ => removeJobHard_kept h p i hκ⟩
  · simp only [Store.jobExists, hhash]
    split
    · next hk => simp [hk]
    · next hk => simp [hk]
  · simp only [Store.parentOf, hhash]
    split
    · exact .inr rfl
    · exact .inl rfl
  · rw [heq, claims_removed (s := s) (hframe (by decide)) (hframe (by decide)) (hframe (by decide))
      fun i' _ => finished_congr (hframe (by decide)) (hframe (by decide))]
    exact Act.remove.trace ⟨i, rfl⟩
  · rw [heq, claims_removed_of_ne hp hq hne, hclaims₁]
  · rw [heq]
    exact ((removeParentDependencyKeyHard_registers h p _ c₀).trans (.of_frame (by decide)
      (removeDeduplicationKeyIfNeededOnRemoval_frame _ _ _ _))).trans (removeJobKeys_registers _ _)

theorem nobodyWaits (h : Culls Q p c D s s') (hs : NobodyWaits s) (hc : c ≠ .inr .waitingChildren) :
    NobodyWaits s' := fun q i => by
  have hne : Kind.zset .waitingChildren ≠ c.kind := by
    rcases c with l | z
    · simp [Container.kind]
    · simpa [Container.kind, eq_comm] using hc
  rw [h.kept _ (by decide) hne]
  exact hs q i

end Culls

/-- The deletion of several jobs. -/
theorem removeJobs_culls (h : NobodyWaits s) (hp : Q.Base p) {c : Container}
    (hc : c ≠ .inr .waitingChildren) (jobs : List String) :
    Culls Q p c jobs s (removeJobs p jobs s) := by
  unfold removeJobs
  induction jobs generalizing s with
  | nil => exact .refl Q p c s
  | cons i jobs ih =>
    have hone := Culls.removeJobHard h hp c i
    exact hone.trans (ih (hone.nobodyWaits h hc))

end HardRemoval

/-! ### Forgetting the ids -/

section Forget

variable {Q : QueueSet} {p : String} {s s' t : Store} {c : Container} {D : List String}

/-- The ids of deleted jobs are forgotten by their container. -/
structure Forgets (p : String) (c : Container) (D : List String) (s s' : Store) : Prop where
  kept : ∀ κ, κ ≠ c.kind → s' κ = s κ
  counts : ∀ q i, countIn s' c q i = if q = p ∧ i ∈ D then 0 else countIn s c q i

theorem Forgets.mem_zset_iff (h : Forgets p c D s s') {z : ZSetKey} {q i : String}
    (hi : ¬ (q = p ∧ i ∈ D)) : i ∈ s' (.zset z) q ↔ i ∈ s (.zset z) q := by
  by_cases hz : Container.kind (.inr z) = c.kind
  · obtain rfl : .inr z = c := by
      by_contra hne
      exact kind_ne_of_ne hne (by simp [hz])
    rw [BullMQ.mem_zset_iff, BullMQ.mem_zset_iff, h.counts, if_neg hi]
  · have hkept : s' (.zset z) = s (.zset z) := h.kept _ hz
    rw [hkept]

/-- Forgetting the id of a job that is no more is no event. -/
theorem Forgets.claims (h : Forgets p c D s s')
    (hD : ∀ i ∈ D, s.jobExists (p ++ i) = false) (q : String) : s'.claims q = s.claims q := by
  have hne : ∀ κ : Kind, (∀ l, κ ≠ .list l) → (∀ z, κ ≠ .zset z) → s' κ = s κ :=
    fun κ hl hz => h.kept κ (by rcases c with l | z <;> [exact hl l; exact hz z])
  have hhash : s' .hash = s .hash := hne _ (by simp) (by simp)
  refine Register.ext (funext fun i => ?_) ?_ ?_
  · refine claims_job_congr (by rw [Store.jobExists, hhash, Store.jobExists])
      (by rw [Store.deidOf, hhash, Store.deidOf]) fun hex => ?_
    have hi : ¬ (q = p ∧ i ∈ D) := by
      rintro ⟨rfl, hmem⟩
      rw [hD i hmem] at hex
      cases hex
    simp only [Finished, h.mem_zset_iff hi]
  · simp only [Store.claims, hne .de (by simp) (by simp)]
  · simp only [Store.claims, hne .dn (by simp) (by simp)]

theorem Culls.forget (h : Culls Q p c D s t) (hf : Forgets p c D t s') : Culls Q p c D s s' := by
  have hne : ∀ κ : Kind, (∀ l, κ ≠ .list l) → (∀ z, κ ≠ .zset z) → s' κ = t κ :=
    fun κ hl hz => hf.kept κ (by rcases c with l | z <;> [exact hl l; exact hz z])
  have hhash : s' .hash = t .hash := hne _ (by simp) (by simp)
  have hclaims := hf.claims fun i hi => by
    rw [h.exist]
    simpa using fun _ => hi
  refine ⟨fun k => ?_, fun k => ?_, hclaims p ▸ h.trace,
    fun hq hqp => (hclaims _).trans (h.others hq hqp), fun c₀ => (h.registers c₀).trans ?_,
    fun κ hκ hc => (hf.kept κ hc).trans (h.kept κ hκ hc)⟩
  · rw [Store.jobExists, hhash]
    exact h.exist k
  · rw [Store.parentOf, hhash]
    exact h.parents k
  · refine .of_frame (W := [c.kind]) (fun κ hκ => ?_) fun hκ => hf.kept _ (by simpa using hκ)
    rcases c with l | z <;> revert κ <;> simp [Container.kind, accountKinds]

/-- **A sweep** of jobs that were in the container, and are no more, is a sequence of deletions. -/
theorem Culls.sweep (h : Culls Q p c D s s') (hs : DedupBase Q s) (hp : Q.Base p)
    (hD : ∀ i ∈ D, countIn s c p i ≠ 0)
    (hcounts : ∀ q i, countIn s' c q i = if q = p ∧ i ∈ D then 0 else countIn s c q i) :
    RemovalStep Q s s' := by
  have hocc : ∀ q i, occ s' q i = if q = p ∧ i ∈ D then 0 else occ s q i := by
    intro q i
    have hone : occ s' q i + countIn s c q i = occ s q i + countIn s' c q i :=
      occ_of_one c fun c' hc' => countIn_congr (h.kept _ (by
        rcases c' with l | z <;> simp [Container.kind, cullWrites, jobKeyWrites]) fun heq =>
          kind_ne_of_ne hc' (by simp [heq])) q i
    rw [hcounts] at hone
    split
    · next hqi =>
      rw [if_pos hqi] at hone
      obtain ⟨rfl, hi⟩ := hqi
      have hpos := hD i hi
      have hle := hs.le_one q i
      have hcount := countIn_le_occ s c q i
      omega
    · next hqi =>
      rw [if_neg hqi] at hone
      omega
  have hvalid : ∀ i ∈ D, Q.keySpace.Valid p i := fun i hi => hs.valid fun hzero =>
    hD i hi (Nat.le_zero.mp (hzero ▸ countIn_le_occ s c p i))
  have hkept : ∀ κ : Kind, κ ∉ cullWrites → (∀ l, κ ≠ .list l) → (∀ z, κ ≠ .zset z) → s' κ = s κ :=
    fun κ hκ hl hz => h.kept κ hκ (by rcases c with l | z <;> [exact hl l; exact hz z])
  have hid : s' .id = s .id := hkept _ (by decide) (by simp) (by simp)
  have hrepeat : s' .repeatSet = s .repeatSet := hkept _ (by decide) (by simp) (by simp)
  have htrace : ∀ {q}, Q.Base q →
      Trace DeduplicatedNextJob.jid Removes (s.claims q) (s'.claims q) := fun {q} hq => by
    by_cases hqp : q = p
    · exact hqp ▸ h.trace
    · rw [h.others hq hqp]
      exact .refl _
  refine ⟨hs.step (hs.toGrounded.quiet (.of_deletes hs.toSound hvalid ⟨hocc, h.exist⟩) h.registers
    h.parents) (hs.payload_of_claims fun {q d next} hq hn => ?_) (fun q => by rw [hid]) hrepeat
    fun hq => ?_, htrace⟩
  · refine (htrace hq).invariant (I := fun c => ∀ d n, c.next d = some n →
      (s.claims q).next d = some n) (fun hrem hact hc d n hn => ?_) (fun _ _ hn => hn) d next hn
    obtain ⟨i, rfl⟩ := hrem
    exact hc d n (hact.next_of (fun _ _ => by simp) hn)
  · refine (htrace hq).mono (I := fun _ => True) (fun hrem _ _ => ?_) trivial
    obtain ⟨i, rfl⟩ := hrem
    exact ⟨fun n _ => by simp [Event.Introduces], trivial⟩

end Forget

/-! ### The scripts -/

section Scripts

variable {Q : QueueSet} {p : String} {s : Store}

/-- An entry of a list, or the empty string if its job is deleted. -/
def blanked (D : List String) (i : String) : String := if i ∈ D then "" else i

/-- The entry of one more deleted job is blanked. -/
theorem map_blanked_append {l D : List String} {n : ℕ} {i : String} (hi : l[n]? = some i)
    (hl : l.Nodup) : (l.map (blanked D)).set n "" = l.map (blanked (D ++ [i])) := by
  obtain ⟨hn, rfl⟩ := List.getElem?_eq_some_iff.mp hi
  refine List.ext_getElem (by simp) fun m hm hm' => ?_
  rw [List.length_map] at hm'
  simp only [List.getElem_set, List.getElem_map, blanked, List.mem_append, List.mem_singleton,
    hl.getElem_inj_iff]
  by_cases hmn : n = m
  · simp [hmn]
  · simp [hmn, Ne.symm hmn]

theorem filter_blanked {l D : List String} (hl : "" ∉ l) :
    (l.map (blanked D)).filter (· ≠ "") = l.filter (· ∉ D) := by
  induction l with
  | nil => rfl
  | cons i l ih =>
    have hi : i ≠ "" := fun hi => hl (by simp [hi])
    have htail := ih fun hmem => hl (by simp [hmem])
    by_cases hD : i ∈ D
    · simpa [blanked, hD] using htail
    · simpa [blanked, hD, hi] using htail

theorem count_filter_notMem (D l : List String) (i : String) :
    (l.filter (· ∉ D)).count i = if i ∈ D then 0 else l.count i := by
  split
  · next hi => simp [List.count_eq_zero, hi]
  · next hi => exact List.count_filter (by simpa using hi)

/-- **cleanList**. -/
theorem cleanList_step (h : DedupBase Q s) (hp : Q.Base p) (hwait : NobodyWaits s) (l : ListKey)
    (limit T : ℤ) (b : Bool) : RemovalStep Q s (cleanList p l limit T b s).2 ∧
      NobodyWaits (cleanList p l limit T b s).2 := by
  have hc : (.inl l : Container) ≠ .inr .waitingChildren := by simp
  have hlist : ∀ κ ∈ [Kind.hash, .zset .completed, .zset .failed, .de, .dn] ++ accountKinds,
      κ ∉ [Kind.list l] := by cases l <;> decide
  have hwrite : ∀ (t : Store) f, Culls Q p (.inl l) [] t (t.modify (.list l) p f) := fun t f =>
    .of_frame modify_notMem hlist fun κ hκ => .inr (List.mem_singleton.mp hκ)
  have hnodup : (s (.list l) p).Nodup := List.nodup_iff_count_le_one.mpr fun i =>
    (countIn_le_occ s (.inl l) p i).trans (h.le_one p i)
  have hnamed : "" ∉ s (.list l) p := fun hmem =>
    (h.valid (occ_ne_zero_of_mem_list hmem)).2.1 rfl
  simp only [cleanList]
  set first := if 0 < limit then (s (.list l) p).length - limit.toNat else 0
  set acc := (((s (.list l) p).drop first).zipIdx first).foldl (cleanListStep p l limit T b) ([], s)
    with hacc
  -- Up to each round of the loop, the entries of the deleted jobs are blanked.
  obtain ⟨hculls, hsub, hblank⟩ : Culls Q p (.inl l) acc.1 s acc.2 ∧
      (∀ i ∈ acc.1, i ∈ s (.list l) p) ∧ acc.2 (.list l) =
        Function.update (s (.list l)) p ((s (.list l) p).map (blanked acc.1)) := by
    rw [hacc]
    refine List.foldlRecOn (motive := fun acc : List String × Store =>
      Culls Q p (.inl l) acc.1 s acc.2 ∧ (∀ i ∈ acc.1, i ∈ s (.list l) p) ∧ acc.2 (.list l) =
        Function.update (s (.list l)) p ((s (.list l) p).map (blanked acc.1))) _ _
      ⟨.refl .., by simp, ?_⟩ ?_
    · have hid : blanked [] = id := funext fun i => by simp [blanked]
      rw [hid, List.map_id, Function.update_eq_self]
    · rintro ⟨D, t⟩ ⟨hculls, hsub, hblank⟩ ⟨i, n⟩ hmem
      obtain ⟨hn, hget⟩ := List.mk_mem_zipIdx_iff_le_and_getElem?_sub.mp hmem
      rw [List.getElem?_drop, Nat.add_sub_cancel' hn] at hget
      simp only [cleanListStep]
      split
      · exact ⟨hculls, hsub, hblank⟩
      · split
        · have hset := hwrite t (·.set n "")
          have hwait' := (hculls.trans hset).nobodyWaits hwait hc
          refine ⟨?_, ?_, ?_⟩
          · simpa using (hculls.trans hset).trans (.removeJobHard hwait' hp (.inl l) i)
          · intro k hk
            rcases List.mem_append.mp hk with hk | hk
            · exact hsub k hk
            · exact List.mem_singleton.mp hk ▸ List.mem_of_getElem? hget
          · rw [removeJobHard_kept hwait' p i (by simp [cullWrites, jobKeyWrites]),
              Keyspace.modify_self, hblank, Function.update_self, Function.update_idem]
            simp only [map_blanked_append hget hnodup]
        · exact ⟨hculls, hsub, hblank⟩
  have hall : Culls Q p (.inl l) acc.1 s (acc.2.modify (.list l) p (·.filter (· ≠ ""))) := by
    simpa using hculls.trans (hwrite acc.2 _)
  refine ⟨hall.sweep h hp (fun i hi => mem_list_iff.mp (hsub i hi)) fun q i => ?_,
    hall.nobodyWaits hwait hc⟩
  simp only [countIn, Keyspace.modify_self, hblank, Function.update_self, filter_blanked hnamed,
    Function.update_apply]
  by_cases hq : q = p
  · subst hq
    simpa using count_filter_notMem acc.1 _ i
  · simp [hq]

/-- Deleted jobs are forgotten by a sorted set. -/
theorem forgets_zremAll (p : String) (z : ZSetKey) (D : List String) (s : Store) :
    Forgets p (.inr z) D s (s.modify (.zset z) p (·.zremAll D)) := by
  refine ⟨fun κ hκ => Keyspace.modify_of_ne _ hκ .., fun q i => ?_⟩
  simp only [countIn, Keyspace.modify_self, Function.update_apply]
  by_cases hq : q = p
  · subst hq
    by_cases hi : i ∈ D
    · simp [SortedSet.card_eq, hi]
    · simp [SortedSet.card_eq, hi]
  · simp [hq]

/-- The jobs of a sorted set that are deleted, and then forgotten. -/
theorem Culls.sweep_zset {z : ZSetKey} {D : List String} {t : Store}
    (hculls : Culls Q p (.inr z) D s t) (h : DedupBase Q s) (hp : Q.Base p)
    (hsub : ∀ i ∈ D, i ∈ s (.zset z) p) (hkept : t (.zset z) = s (.zset z)) :
    RemovalStep Q s (t.modify (.zset z) p (·.zremAll D)) := by
  have hf := forgets_zremAll p z D t
  refine (hculls.forget hf).sweep h hp (fun i hi => mem_zset_iff.mp (hsub i hi)) fun q i => ?_
  rw [hf.counts, countIn_congr (c := .inr z) hkept]

/-- **cleanSet**. -/
theorem cleanSet_step (h : DedupBase Q s) (hp : Q.Base p) (hwait : NobodyWaits s) {z : ZSetKey}
    (hz : z ≠ .waitingChildren) {jobs : List String} (hjobs : ∀ i ∈ jobs, i ∈ s (.zset z) p)
    (limit : ℤ) (b : Bool) (old : String → Store → Bool) :
    RemovalStep Q s (cleanSet p z jobs limit b old s).2 ∧
      NobodyWaits (cleanSet p z jobs limit b old s).2 := by
  have hc : (.inr z : Container) ≠ .inr .waitingChildren := by simpa using hz
  simp only [cleanSet, foldl_batches_eq]
  set acc := (if 0 < limit then jobs.take limit.toNat else jobs).foldl
    (cleanSetStep p limit b old) ([], s) with hacc
  -- The loop deletes jobs of the set; the set itself is written once, after the loop.
  obtain ⟨hculls, hsub, hkept⟩ : Culls Q p (.inr z) acc.1 s acc.2 ∧
      (∀ i ∈ acc.1, i ∈ jobs) ∧ acc.2 (.zset z) = s (.zset z) := by
    rw [hacc]
    refine List.foldlRecOn (motive := fun acc : List String × Store =>
      Culls Q p (.inr z) acc.1 s acc.2 ∧ (∀ i ∈ acc.1, i ∈ jobs) ∧
        acc.2 (.zset z) = s (.zset z)) _ _ ⟨.refl .., by simp, rfl⟩ ?_
    rintro ⟨D, t⟩ ⟨hculls, hsub, hkept⟩ i hmem
    simp only [cleanSetStep]
    split
    · exact ⟨hculls, hsub, hkept⟩
    · split
      · have hwait' := hculls.nobodyWaits hwait hc
        refine ⟨hculls.trans (.removeJobHard hwait' hp _ i), fun k hk => ?_, ?_⟩
        · rcases List.mem_append.mp hk with hk | hk
          · exact hsub k hk
          · rw [List.mem_singleton.mp hk]
            split at hmem
            · exact List.mem_of_mem_take hmem
            · exact hmem
        · rw [removeJobHard_kept hwait' p i (by simp [cullWrites, jobKeyWrites]), hkept]
      · exact ⟨hculls, hsub, hkept⟩
  exact ⟨hculls.sweep_zset h hp (fun i hi => hjobs i (hsub i hi)) hkept,
    (hculls.forget (forgets_zremAll p z acc.1 acc.2)).nobodyWaits hwait hc⟩

/-- An entry of the event stream. -/
theorem RemovalStep.xadd (h : DedupBase Q s) (p : String) (e : Event) :
    RemovalStep Q s (s.xadd p e) := by
  have hframe : ∀ κ ≠ .events, s.xadd p e κ = s κ := fun κ hκ => Store.xadd_of_ne _ _ _ hκ
  have hclaims : ∀ q, (s.xadd p e).claims q = s.claims q :=
    claims_of_frame (W := [.events]) (by decide) fun hκ => hframe _ (by simpa using hκ)
  exact .of_claims (h.quiet (h.toGrounded.of_frame (W := [.events]) (by decide) fun hκ =>
    hframe _ (by simpa using hκ)) hclaims (fun q => by rw [hframe _ (by decide)])
    (hframe _ (by decide)) (hframe _ (by decide))) hclaims

/-- **A clean** is a sequence of deletions. -/
theorem cleanJobsInSet_step (h : DedupBase Q s) (hp : Q.Base p) (hwait : NobodyWaits s)
    (t limit : ℤ) (st : CleanState) :
    RemovalStep Q s (Script.cleanJobsInSet p t limit st s).2 ∧
      NobodyWaits (Script.cleanJobsInSet p t limit st s).2 := by
  have hrecord : ∀ {r : List String × Store}, RemovalStep Q s r.2 ∧ NobodyWaits r.2 →
      RemovalStep Q s (r.2.xadd p (.cleaned r.1.length)) ∧
        NobodyWaits (r.2.xadd p (.cleaned r.1.length)) := fun ⟨hstep, hnone⟩ =>
    ⟨hstep.trans (.xadd hstep.base p _), fun q i => by
      rw [Store.xadd_of_ne _ _ _ (by decide)]
      exact hnone q i⟩
  have hfrom : ∀ {z : ZSetKey} {i : String}, i ∈ (s (.zset z) p).rangeFrom 0 → i ∈ s (.zset z) p :=
    fun hi => (SortedSet.rangeFrom_sublist _ _).subset hi
  have hscore : ∀ {z : ZSetKey} {i : String}, i ∈ (s (.zset z) p).rangeByScore 0 t →
      i ∈ s (.zset z) p := fun hi => (SortedSet.rangeByScore_sublist _ _ _).subset hi
  -- Lists are cleaned by index, sets by score.
  cases st with
  | active => exact hrecord (cleanList_step h hp hwait .active limit t false)
  | wait => exact hrecord (cleanList_step h hp hwait .wait limit t true)
  | paused => exact hrecord (cleanList_step h hp hwait .paused limit t true)
  | delayed => exact hrecord (cleanSet_step h hp hwait (by decide) (fun _ hi => hfrom hi) limit _ _)
  | prioritized =>
    exact hrecord (cleanSet_step h hp hwait (by decide) (fun _ hi => hfrom hi) limit _ _)
  | completed =>
    exact hrecord (cleanSet_step h hp hwait (by decide) (fun _ hi => hscore hi) limit _ _)
  | failed =>
    exact hrecord (cleanSet_step h hp hwait (by decide) (fun _ hi => hscore hi) limit _ _)

/-! ### Draining -/

theorem removeJobs_kept (h : NobodyWaits s) (p : String) (jobs : List String) {κ : Kind}
    (hκ : κ ∉ cullWrites) : removeJobs p jobs s κ = s κ := by
  unfold removeJobs
  induction jobs generalizing s with
  | nil => rfl
  | cons i jobs ih =>
    have hnone : NobodyWaits (removeJobHard p s i) := fun q j => by
      rw [removeJobHard_kept h p i (by decide)]
      exact h q j
    rw [List.foldl_cons, ih hnone, removeJobHard_kept h p i hκ]

theorem removeListJobs_step (h : DedupBase Q s) (hp : Q.Base p) (hwait : NobodyWaits s)
    (l : ListKey) : RemovalStep Q s (removeListJobs p l 0 [] s).2 ∧
      NobodyWaits (removeListJobs p l 0 [] s).2 := by
  have hc : (.inl l : Container) ≠ .inr .waitingChildren := by simp
  set jobs := s (.list l) p with hjobs
  have hculls := removeJobs_culls hwait hp hc jobs
  have hkept : removeJobs p jobs s (.list l) = s (.list l) :=
    removeJobs_kept hwait p jobs (by simp [cullWrites, jobKeyWrites])
  have heq : (removeListJobs p l 0 [] s).2 =
      Keyspace.modify (removeJobs p jobs s) (.list l) p (·.drop jobs.length) := by
    simp [removeListJobs, firstItems, ← hjobs]
  -- The list of the queue is trimmed to nothing.
  have hf : Forgets p (.inl l) jobs (removeJobs p jobs s) (removeListJobs p l 0 [] s).2 := by
    rw [heq]
    refine ⟨fun κ hκ => Keyspace.modify_of_ne _ hκ .., fun q i => ?_⟩
    simp only [countIn, Keyspace.modify_self, hkept, Function.update_apply]
    by_cases hq : q = p
    · subst hq
      by_cases hi : i ∈ jobs
      · simp [← hjobs, hi]
      · simp [← hjobs, hi, List.count_eq_zero_of_not_mem hi]
    · simp [hq]
  have hall := hculls.forget hf
  refine ⟨hall.sweep h hp (fun i hi => mem_list_iff.mp hi) fun q i => ?_,
    hall.nobodyWaits hwait hc⟩
  rw [hf.counts, countIn_congr (c := .inl l) hkept]

theorem removeZSetJobs_step (h : DedupBase Q s) (hp : Q.Base p) (hwait : NobodyWaits s)
    {z : ZSetKey} (hz : z ≠ .waitingChildren) : RemovalStep Q s (removeZSetJobs p z 0 [] s).2 ∧
      NobodyWaits (removeZSetJobs p z 0 [] s).2 := by
  have hc : (.inr z : Container) ≠ .inr .waitingChildren := by simpa using hz
  set jobs := (s (.zset z) p).members with hjobs
  have hculls := removeJobs_culls hwait hp hc jobs
  have heq : (removeZSetJobs p z 0 [] s).2 =
      Keyspace.modify (removeJobs p jobs s) (.zset z) p (·.zremAll jobs) := by
    simp [removeZSetJobs, firstItems, ← hjobs, foldl_batches_eq]
  rw [heq]
  exact ⟨hculls.sweep_zset h hp (fun _ hi => hi)
    (removeJobs_kept hwait p jobs (by simp [cullWrites, jobKeyWrites])),
    (hculls.forget (forgets_zremAll p z jobs _)).nobodyWaits hwait hc⟩

/-- **A drain** is a sequence of deletions. -/
theorem drain_step (h : DedupBase Q s) (hp : Q.Base p) (hwait : NobodyWaits s) (delayed : Bool) :
    RemovalStep Q s (Script.drain p delayed s).2 ∧ NobodyWaits (Script.drain p delayed s).2 := by
  have hnone : Script.scheduledJobs p s = [] := by
    rw [Script.scheduledJobs, h.unscheduled]
    rfl
  simp only [Script.drain, hnone]
  obtain ⟨h₁, hwait₁⟩ := removeListJobs_step h hp hwait .wait
  obtain ⟨h₂, hwait₂⟩ := removeListJobs_step h₁.base hp hwait₁ .paused
  set s₂ := (removeListJobs p .paused 0 [] (removeListJobs p .wait 0 [] s).2).2
  set s₃ := if delayed then (removeZSetJobs p .delayed 0 [] s₂).2 else s₂ with hs₃
  obtain ⟨h₃, hwait₃⟩ : RemovalStep Q s₂ s₃ ∧ NobodyWaits s₃ := by
    rw [hs₃]
    split
    · exact removeZSetJobs_step h₂.base hp hwait₂ (by decide)
    · exact ⟨.refl h₂.base, hwait₂⟩
  obtain ⟨h₄, hwait₄⟩ := removeZSetJobs_step h₃.base hp hwait₃ (z := .prioritized) (by decide)
  exact ⟨((h₁.trans h₂).trans h₃).trans h₄, hwait₄⟩

end Scripts

end BullMQ
