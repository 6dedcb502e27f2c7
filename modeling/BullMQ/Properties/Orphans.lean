import BullMQ.Model.Command
import BullMQ.Model.Orphans

/-!
# The removal of orphaned jobs

The candidates of `removeOrphanedJobs` are read off key names, and every candidate in no container
is deleted with all that looks like its own keys. This is right for the keys of jobs; but
`metrics:failed` and `dn:failed` read like keys of jobs named `metrics` and `dn`
(`removeOrphanedJobs_only_orphans`).
-/

namespace BullMQ

open Redis

/-- An id that is in no container of the queue. -/
def Unlisted (s : Store) (p jobId : String) : Prop :=
  stateKeySuffixes.any (s.stateHolds p jobId) = false

instance (s : Store) (p j : String) : Decidable (Unlisted s p j) :=
  inferInstanceAs (Decidable (_ = false))

/-- Between the two stores nothing was deleted but keys of jobs in no container. -/
structure OnlyOrphans (p : String) (s s' : Store) : Prop where
  form : ∀ κ k, s' κ k ≠ s κ k → ∃ j, Unlisted s p j ∧ ∃ key ∈ κ.keys k, key ∈ orphanKeys p j
  own : ∀ κ k, κ.OfQueue p k → s' κ k ≠ s κ k → κ ∈ jobKinds ∧ ∃ j, k = p ++ j ∧ Unlisted s p j

/-! ### Candidates -/

theorem colonFree_of_mem_queueKeyNames : ∀ name ∈ queueKeyNames, ColonFree name := by decide

/-- A name that can be taken for a job id. -/
structure Plausible (j : String) : Prop where
  colonFree : ColonFree j
  notKey : j ∉ queueKeyNames

theorem plausible_of_candidate {p key j : String} (h : candidateJobId p key = some j) :
    Plausible j := by
  have hfree : ∀ x : String,
      ColonFree (String.ofList (x.toList.takeWhile fun c => decide (c ≠ ':'))) := by
    intro x hx
    rw [String.toList_ofList] at hx
    simpa using List.mem_takeWhile_imp hx
  simp only [candidateJobId] at h
  split at h
  · cases h
  · next hsuffix =>
    split at h
    · next heq =>
      obtain rfl := Option.some.inj h
      exact ⟨heq ▸ hfree _, hsuffix⟩
    · split at h
      · cases h
      · next hfronts =>
        split at h
        · obtain rfl := Option.some.inj h
          exact ⟨hfree _, hfronts⟩
        · cases h

theorem plausible_of_mem {p j : String} {scanned : List String}
    (h : j ∈ candidateJobIds p scanned) :
    Plausible j := by
  rw [candidateJobIds, List.mem_eraseDups, List.mem_filterMap] at h
  obtain ⟨key, -, hkey⟩ := h
  exact plausible_of_candidate hkey

/-- A key of the form `<id>:<sub-key>` makes the id a candidate. -/
theorem candidate_of_subKey (p : String) {j x : String} (hj : Plausible j)
    (hx : x ∈ jobSubKeySuffixes) : candidateJobId p (p ++ j ++ ":" ++ x) = some j := by
  have hdrop : String.ofList ((p ++ j ++ ":" ++ x).toList.drop p.toList.length) = j ++
      ":" ++ x := by
    simp [String.append_assoc]
  have hall : ∀ c ∈ j.toList, decide (c ≠ ':') = true := by
    intro c hc
    have hne : c ≠ ':' := fun heq => hj.colonFree (by rwa [heq] at hc)
    simpa using hne
  have hfront : String.ofList ((j ++ ":" ++ x).toList.takeWhile fun c => decide (c ≠ ':')) = j := by
    rw [String.append_assoc, String.toList_append, List.takeWhile_append_of_pos hall]
    simp
  have hback : String.ofList ((j ++ ":" ++ x).toList.drop (j.toList.length + 1)) = x := by
    simp [String.append_assoc]
  have hcolon : ':' ∈ (j ++ ":" ++ x).toList := by simp
  have hnotKey : j ++ ":" ++ x ∉ queueKeyNames := fun hmem =>
    colonFree_of_mem_queueKeyNames _ hmem hcolon
  have hne : j ≠ j ++ ":" ++ x := fun heq => hj.colonFree (by rw [heq]; exact hcolon)
  simp only [candidateJobId, hdrop, hfront, hback, if_neg hnotKey, if_neg hne, if_neg hj.notKey,
    if_pos hx]

/-! ### What DEL leaves alone -/

theorem Val.without_of_ne {κ : Kind} (hκ : κ ≠ .metrics) (key k : String) (v : Val κ) :
    Val.without key k κ v = if key ∈ κ.keys k then Val.missing κ else v := by
  unfold Val.without
  split
  · exact absurd rfl hκ
  · rfl

theorem Val.without_of_notMem {key k : String} {κ : Kind} {v : Val κ} (h : key ∉ κ.keys k) :
    Val.without key k κ v = v := by
  by_cases hκ : κ = .metrics
  · subst hκ
    simp only [Kind.keys, List.mem_cons, List.not_mem_nil, or_false, not_or] at h
    rw [Val.without, if_neg (Ne.symm h.1), if_neg (Ne.symm h.2)]
  · rw [Val.without_of_ne hκ, if_neg h]

theorem Store.foldl_del_of_fixed {s : Store} {keys : List String} {k : String} {κ : Kind}
    (h : ∀ key ∈ keys, Val.without key k κ (s κ k) = s κ k) :
    keys.foldl Store.del s κ k = s κ k := by
  induction keys generalizing s with
  | nil => rfl
  | cons key keys ih =>
    have hfirst : s.del key κ k = s κ k := h key (.head _)
    rw [List.foldl_cons, ih fun x hx => by rw [hfirst]; exact h x (.tail _ hx), hfirst]

/-! ### Keys that do not exist -/

/-- A key under which nothing is held. -/
def Store.Absent (s : Store) (key : String) : Prop := ∀ κ k, Val.without key k κ (s κ k) = s κ k

theorem Val.without_missing (key k : String) (κ : Kind) :
    Val.without key k κ (Val.missing κ) = Val.missing κ := by
  by_cases hκ : κ = .metrics
  · subst hκ
    simp only [Val.without]
    split_ifs <;> rfl
  · rw [Val.without_of_ne hκ, ite_self]

theorem Val.without_self (key k : String) (κ : Kind) (v : Val κ) :
    Val.without key k κ (Val.without key k κ v) = Val.without key k κ v := by
  by_cases hκ : κ = .metrics
  · subst hκ
    simp only [Val.without]
    split_ifs <;> rfl
  · simp only [Val.without_of_ne hκ]
    split_ifs <;> rfl

theorem Val.without_comm (key key' k : String) (κ : Kind) (v : Val κ) :
    Val.without key k κ (Val.without key' k κ v) =
      Val.without key' k κ (Val.without key k κ v) := by
  by_cases hκ : κ = .metrics
  · subst hκ
    simp only [Val.without]
    split_ifs <;> rfl
  · simp only [Val.without_of_ne hκ]
    split_ifs <;> rfl

theorem Store.absent_del_self (s : Store) (key : String) : (s.del key).Absent key :=
  fun κ k => Val.without_self key k κ (s κ k)

theorem Store.Absent.del {s : Store} {key : String} (h : s.Absent key) (key' : String) :
    (s.del key').Absent key := by
  intro κ k
  change Val.without key k κ (Val.without key' k κ (s κ k)) = Val.without key' k κ (s κ k)
  rw [Val.without_comm, h κ k]

theorem Store.Absent.foldl_del {s : Store} {key : String} (h : s.Absent key) (keys : List String) :
    (keys.foldl Store.del s).Absent key := by
  induction keys generalizing s with
  | nil => exact h
  | cons key' keys ih => exact ih (h.del key')

theorem Store.absent_foldl_del {s : Store} {keys : List String} {key : String} (h : key ∈ keys) :
    (keys.foldl Store.del s).Absent key := by
  induction keys generalizing s with
  | nil => cases h
  | cons key' keys ih =>
    obtain rfl | htail := List.mem_cons.mp h
    · exact (Store.absent_del_self s key).foldl_del keys
    · exact ih htail

/-! ### Sweeps -/

/-- A store that differs from `s₀` in keys of names in no container alone. -/
def SweptFrom (p : String) (s₀ s : Store) : Prop :=
  ∀ κ k, s κ k = s₀ κ k ∨
    ∃ j, Plausible j ∧ Unlisted s₀ p j ∧
      ∃ key ∈ orphanKeys p j, Val.without key k κ (s₀ κ k) ≠ s₀ κ k

/-- The families that make up the containers of a queue. -/
def containerKinds : List Kind :=
  [.list .active, .list .wait, .list .paused, .zset .waitingChildren, .zset .delayed,
    .zset .prioritized, .zset .completed, .zset .failed, .stalled, .repeatSet, .marker]

theorem notMem_orphanKeys {p j name : String} (hj : Plausible j) (hname : name ∈ queueKeyNames) :
    p ++ name ∉ orphanKeys p j := by
  intro hmem
  simp only [orphanKeys, List.mem_cons, List.mem_map, String.append_assoc,
    String.append_right_inj] at hmem
  obtain rfl | ⟨x, -, hx⟩ := hmem
  · exact hj.notKey hname
  · refine colonFree_of_mem_queueKeyNames name hname ?_
    rw [← hx]
    simp

theorem SweptFrom.container {p : String} {s₀ s : Store} (h : SweptFrom p s₀ s) {κ : Kind}
    (hκ : κ ∈ containerKinds) : s κ p = s₀ κ p := by
  obtain heq | ⟨j, hj, -, key, hmem, hheld⟩ := h κ p
  · exact heq
  · have hname : ∀ κ ∈ containerKinds, ∃ name ∈ queueKeyNames, κ.keys p = [p ++ name] := by
      intro κ hκ
      simp only [containerKinds, List.mem_cons, List.not_mem_nil, or_false] at hκ
      rcases hκ with rfl | rfl | rfl | rfl | rfl | rfl | rfl | rfl | rfl | rfl | rfl <;>
        exact ⟨_, by decide, rfl⟩
    obtain ⟨name, hin, hkeys⟩ := hname κ hκ
    refine absurd (Val.without_of_notMem ?_) hheld
    rw [hkeys, List.mem_singleton]
    rintro rfl
    exact notMem_orphanKeys hj hin hmem

theorem SweptFrom.stateHolds {p : String} {s₀ s : Store} (h : SweptFrom p s₀ s) (j : String) :
    s.stateHolds p j = s₀.stateHolds p j := by
  have hsame : ∀ κ ∈ containerKinds, s κ p = s₀ κ p := fun κ hκ => h.container hκ
  simp only [containerKinds, List.forall_mem_cons] at hsame
  obtain ⟨h₁, h₂, h₃, h₄, h₅, h₆, h₇, h₈, h₉, h₁₀, h₁₁, -⟩ := hsame
  funext suffix
  unfold Store.stateHolds
  rw [h₁, h₂, h₃, h₄, h₅, h₆, h₇, h₈, h₉, h₁₀, h₁₁]

theorem SweptFrom.unlisted {p : String} {s₀ s : Store} (h : SweptFrom p s₀ s) {j : String} :
    Unlisted s p j ↔ Unlisted s₀ p j := by
  rw [Unlisted, Unlisted, h.stateHolds]

theorem SweptFrom.trans {p : String} {s₀ s s' : Store} (h : SweptFrom p s₀ s)
    (h' : SweptFrom p s s') : SweptFrom p s₀ s' := by
  intro κ k
  obtain heq | hchanged := h κ k
  · obtain heq' | ⟨j, hj, hlist, key, hkey, hheld⟩ := h' κ k
    · exact .inl (heq'.trans heq)
    · exact .inr ⟨j, hj, h.unlisted.mp hlist, key, hkey, heq ▸ hheld⟩
  · exact .inr hchanged

theorem sweptFrom_removeOrphan {p j : String} (hj : Plausible j) (acc : ℕ × Store) :
    SweptFrom p acc.2 (removeOrphan p acc j).2 := by
  intro κ k
  unfold removeOrphan
  split
  · exact .inl rfl
  · next hfound =>
    by_cases hheld : ∃ key ∈ orphanKeys p j, Val.without key k κ (acc.2 κ k) ≠ acc.2 κ k
    · exact .inr ⟨j, hj, by simpa [Unlisted] using hfound, hheld⟩
    · push Not at hheld
      exact .inl (Store.foldl_del_of_fixed hheld)

theorem sweptFrom_foldl {p : String} {cs : List String} (hcs : ∀ j ∈ cs, Plausible j)
    (acc : ℕ × Store) : SweptFrom p acc.2 (cs.foldl (removeOrphan p) acc).2 := by
  induction cs generalizing acc with
  | nil => exact fun κ k => .inl rfl
  | cons j cs ih =>
    exact (sweptFrom_removeOrphan (hcs j (.head _)) acc).trans
      (ih (fun i hi => hcs i (.tail _ hi)) _)

/-- Whatever the batches are, only keys of names in no container are deleted. -/
theorem sweptFrom_removeOrphanedJobs (p : String) (limit : ℤ) (batches : List (List String)) (n : ℕ)
    (s : Store) : SweptFrom p s (removeOrphanedJobs p limit batches n s).2 := by
  induction batches generalizing n s with
  | nil => exact fun κ k => .inl rfl
  | cons scanned batches ih =>
    have hbatch := sweptFrom_foldl (p := p)
      (fun j (hj : j ∈ candidateJobIds p scanned) => plausible_of_mem hj) ((0, s) : ℕ × Store)
    simp only [removeOrphanedJobs]
    split
    · exact ih n s
    · split
      · exact hbatch
      · exact hbatch.trans (ih _ _)

/-! ### Whose keys they are -/

/-- A key of the queue that reads like a key of the job `j`: it belongs to the job, to the metrics
of failed jobs, or to a deduplication payload; or else it is a job with a colon in its id. -/
theorem owner_of_orphanKey {p j k key : String} {κ : Kind} (hj : Plausible j) (hk : κ.OfQueue p k)
    (hkey : key ∈ κ.keys k) (hmem : key ∈ orphanKeys p j) :
    (κ ∈ jobKinds ∧ k = p ++ j) ∨
    (κ = .metrics ∧ j = "metrics" ∧ k = p ++ "metrics:failed" ∧ key = k) ∨
    (κ = .dn ∧ j = "dn" ∧ ∃ x ∈ jobSubKeySuffixes, k = deduplicationNextKey p x) ∨
    (κ = .hash ∧ ∃ x ∈ jobSubKeySuffixes, k = p ++ (j ++ ":" ++ x)) := by
  -- the part of the key after the base of the queue
  have hplain : ∀ name ∈ queueKeyNames, key ≠ p ++ name := by
    rintro name hname rfl
    exact notMem_orphanKeys hj hname hmem
  have hsub : ∀ i x : String, ColonFree x → key = p ++ i ++ ":" ++ x → i = j := by
    rintro i x hx rfl
    simp only [orphanKeys, List.mem_cons, List.mem_map, String.append_assoc,
      String.append_right_inj] at hmem
    obtain heq | ⟨y, hy, heq⟩ := hmem
    · refine absurd hj.colonFree ?_
      rw [← heq]
      simp [ColonFree]
    · have hfree : ∀ y ∈ jobSubKeySuffixes, ColonFree y := by decide
      have hparts := append_inj_of_colonFree (show QueueBase (j ++ ":") from ⟨_, rfl⟩)
        (show QueueBase (i ++ ":") from ⟨_, rfl⟩) (hfree y hy) hx
          (by simpa only [String.append_assoc] using heq)
      exact (String.append_left_inj _).mp hparts.1.symm
  have hnamed : ∀ name x : String, ColonFree name → key = p ++ (name ++ (":" ++ x)) →
      j = name ∧ x ∈ jobSubKeySuffixes := by
    rintro name x hname rfl
    simp only [orphanKeys, List.mem_cons, List.mem_map, String.append_assoc,
      String.append_right_inj] at hmem
    obtain heq | ⟨y, hy, heq⟩ := hmem
    · refine absurd hj.colonFree ?_
      rw [← heq]
      simp [ColonFree]
    · obtain rfl := eq_of_append_colon hj.colonFree hname heq
      simp only [String.append_right_inj] at heq
      exact ⟨rfl, heq ▸ hy⟩
  have hown : ∀ x : String, ColonFree x → (∃ i, k = p ++ i) → key = k ++ ":" ++ x → k = p ++ j := by
    rintro x hx ⟨i, rfl⟩ heq
    rw [hsub i x hx heq]
  cases κ with
  | metrics =>
    obtain ⟨status, rfl⟩ := hk
    simp only [Kind.keys, List.mem_cons, List.not_mem_nil, or_false] at hkey
    rw [String.append_assoc] at hkey
    cases status with
    | completed =>
      obtain rfl | rfl := hkey
      · exact absurd (hnamed "metrics" "completed" (by decide) rfl).2 (by decide)
      · rw [String.append_assoc] at hnamed
        exact absurd (hnamed "metrics" "completed:data" (by decide) rfl).2 (by decide)
    | failed =>
      obtain rfl | rfl := hkey
      · exact .inr (.inl ⟨rfl, (hnamed "metrics" "failed" (by decide) rfl).1,
          String.append_assoc .., (String.append_assoc ..).symm⟩)
      · rw [String.append_assoc] at hnamed
        exact absurd (hnamed "metrics" "failed:data" (by decide) rfl).2 (by decide)
  | scheduler =>
    obtain ⟨S, rfl⟩ := hk
    obtain rfl := List.mem_singleton.mp hkey
    have hrepeat := hnamed "repeat" S (by decide) (by rw [schedulerKey, String.append_assoc]; rfl)
    exact absurd (hrepeat.1 ▸ by decide) hj.notKey
  | de =>
    obtain ⟨d, rfl⟩ := hk
    obtain rfl := List.mem_singleton.mp hkey
    have hde := hnamed "de" d (by decide) (by rw [deduplicationKey, String.append_assoc]; rfl)
    exact absurd (hde.1 ▸ by decide) hj.notKey
  | dn =>
    obtain ⟨d, rfl⟩ := hk
    obtain rfl := List.mem_singleton.mp hkey
    obtain ⟨hdn, hd⟩ := hnamed "dn" d (by decide) (by
      rw [deduplicationNextKey, String.append_assoc]; rfl)
    exact .inr (.inr (.inl ⟨rfl, hdn, d, hd, rfl⟩))
  | hash =>
    obtain ⟨i, rfl⟩ := hk
    obtain rfl := List.mem_singleton.mp hkey
    simp only [orphanKeys, List.mem_cons, List.mem_map, String.append_assoc,
      String.append_right_inj] at hmem
    obtain rfl | ⟨x, hx, rfl⟩ := hmem
    · exact .inl ⟨by decide, rfl⟩
    · exact .inr (.inr (.inr ⟨rfl, x, hx, by rw [String.append_assoc]⟩))
  | lock => exact .inl ⟨by decide, hown "lock" (by decide) hk (List.mem_singleton.mp hkey)⟩
  | logs => exact .inl ⟨by decide, hown "logs" (by decide) hk (List.mem_singleton.mp hkey)⟩
  | dependencies =>
    exact .inl ⟨by decide, hown "dependencies" (by decide) hk (List.mem_singleton.mp hkey)⟩
  | processed =>
    exact .inl ⟨by decide, hown "processed" (by decide) hk (List.mem_singleton.mp hkey)⟩
  | failedChildren =>
    exact .inl ⟨by decide, hown "failed" (by decide) hk (List.mem_singleton.mp hkey)⟩
  | unsuccessful =>
    exact .inl ⟨by decide, hown "unsuccessful" (by decide) hk (List.mem_singleton.mp hkey)⟩
  | list l =>
    obtain rfl : k = p := hk
    obtain rfl := List.mem_singleton.mp hkey
    exact absurd rfl (hplain _ (by cases l <;> decide))
  | zset z =>
    obtain rfl : k = p := hk
    obtain rfl := List.mem_singleton.mp hkey
    exact absurd rfl (hplain _ (by cases z <;> decide))
  | _ =>
    obtain rfl : k = p := hk
    obtain rfl := List.mem_singleton.mp hkey
    exact absurd rfl (hplain _ (by decide))

/-! ### Whole scans -/

/-- The batches of a full scan of the queue's keys, none of which holds a character that is special
in a pattern: `SCAN` returns keys that exist, and all those that exist from its start to its end. -/
structure Scans (p : String) (s : Store) (batches : List (List String)) : Prop where
  sound : ∀ key ∈ batches.flatten, ¬ s.Absent key ∧ ∃ x, key = p ++ x
  complete : ∀ x, ¬ s.Absent (p ++ x) → ¬ (removeOrphanedJobs p 0 batches 0 s).2.Absent (p ++ x) →
    p ++ x ∈ batches.flatten

theorem removeOrphan_absent {p j key : String} {acc : ℕ × Store} (hlist : Unlisted acc.2 p j)
    (hkey : key ∈ orphanKeys p j) : (removeOrphan p acc j).2.Absent key := by
  rw [removeOrphan, if_neg (by simpa [Unlisted] using hlist)]
  exact Store.absent_foldl_del hkey

theorem Store.Absent.removeOrphan {key : String} {acc : ℕ × Store} (h : acc.2.Absent key)
    (p j : String) : (removeOrphan p acc j).2.Absent key := by
  unfold BullMQ.removeOrphan
  split
  · exact h
  · exact h.foldl_del _

theorem Store.Absent.foldl_removeOrphan {key p : String} {cs : List String} {acc : ℕ × Store}
    (h : acc.2.Absent key) : (cs.foldl (BullMQ.removeOrphan p) acc).2.Absent key := by
  induction cs generalizing acc with
  | nil => exact h
  | cons j cs ih => exact ih (h.removeOrphan p j)

theorem Store.Absent.removeOrphanedJobs {key p : String} {limit : ℤ} {s : Store}
    (h : s.Absent key) (batches : List (List String)) (n : ℕ) :
    (removeOrphanedJobs p limit batches n s).2.Absent key := by
  induction batches generalizing n s with
  | nil => exact h
  | cons scanned batches ih =>
    have hbatch : (Script.removeOrphanedJobs p (candidateJobIds p scanned) s).2.Absent key :=
      Store.Absent.foldl_removeOrphan (show ((0, s) : ℕ × Store).2.Absent key from h)
    simp only [BullMQ.removeOrphanedJobs]
    split
    · exact ih h n
    · split
      · exact hbatch
      · exact ih hbatch _

/-- A candidate in no container loses its keys. -/
theorem foldl_removeOrphan_absent {p j key : String} {cs : List String}
    (hcs : ∀ i ∈ cs, Plausible i) {acc : ℕ × Store} (hj : j ∈ cs) (hlist : Unlisted acc.2 p j)
    (hkey : key ∈ orphanKeys p j) : (cs.foldl (removeOrphan p) acc).2.Absent key := by
  induction cs generalizing acc with
  | nil => cases hj
  | cons i cs ih =>
    obtain rfl | htail := List.mem_cons.mp hj
    · rw [List.foldl_cons]
      exact Store.Absent.foldl_removeOrphan (removeOrphan_absent hlist hkey)
    · have hswept := sweptFrom_removeOrphan (p := p) (hcs i (.head _)) acc
      exact ih (fun x hx => hcs x (.tail _ hx)) htail (hswept.unlisted.mpr hlist)

/-- Without a limit every candidate is reached. -/
theorem removeOrphanedJobs_absent {p j key : String} {batches : List (List String)} {s : Store}
    {n : ℕ} (hj : ∃ scanned ∈ batches, j ∈ candidateJobIds p scanned) (hlist : Unlisted s p j)
    (hkey : key ∈ orphanKeys p j) : (removeOrphanedJobs p 0 batches n s).2.Absent key := by
  induction batches generalizing n s with
  | nil =>
    obtain ⟨_, hmem, -⟩ := hj
    cases hmem
  | cons scanned batches ih =>
    have hplausible : ∀ i ∈ candidateJobIds p scanned,
      Plausible i := fun i hi => plausible_of_mem hi
    have hswept := sweptFrom_foldl (p := p) hplausible ((0, s) : ℕ × Store)
    have hrest : j ∉ candidateJobIds p scanned → ∃ scanned ∈ batches,
        j ∈ candidateJobIds p scanned := by
      intro hnot
      obtain ⟨b, hb, hin⟩ := hj
      obtain rfl | htail := List.mem_cons.mp hb
      · exact absurd hin hnot
      · exact ⟨b, htail, hin⟩
    simp only [removeOrphanedJobs]
    split
    · next hnil => exact ih (hrest (by simp [hnil])) hlist
    · rw [if_neg (by simp)]
      by_cases hin : j ∈ candidateJobIds p scanned
      · exact Store.Absent.removeOrphanedJobs
          (foldl_removeOrphan_absent hplausible hin
            (show Unlisted ((0, s) : ℕ × Store).2 p j from hlist) hkey) _ _
      · exact ih (hrest hin) (hswept.unlisted.mpr hlist)

/-- Nothing of the queue's own is held under a name that reads like a key of a job in no
container. -/
structure NoLookalike (p : String) (s : Store) : Prop where
  metrics : s .metrics (p ++ "metrics:failed") =
    { data := (s .metrics (p ++ "metrics:failed")).data } ∨
    ¬ Unlisted s p "metrics"
  payload : ∀ x ∈ jobSubKeySuffixes, s .dn (deduplicationNextKey p x) = none ∨ ¬ Unlisted s p "dn"

theorem plausible_metrics : Plausible "metrics" := ⟨by decide, by decide⟩

theorem plausible_dn : Plausible "dn" := ⟨by decide, by decide⟩

theorem NoLookalike.onlyOrphans {p : String} {s s' : Store} (h : NoLookalike p s)
    (hids : ∀ j, s.jobExists (p ++ j) = true → j.toList.count ':' ≠ 1) (hswept : SweptFrom p s s') :
    OnlyOrphans p s s' := by
  refine ⟨fun κ k hne => ?_, fun κ k hk hne => ?_⟩
  · obtain heq | ⟨j, -, hlist, key, hmem, hheld⟩ := hswept κ k
    · exact absurd heq hne
    · refine ⟨j, hlist, key, ?_, hmem⟩
      by_contra hnot
      exact hheld (Val.without_of_notMem hnot)
  · obtain heq | ⟨j, hj, hlist, key, hmem, hheld⟩ := hswept κ k
    · exact absurd heq hne
    · have hkey : key ∈ κ.keys k := by
        by_contra hnot
        exact hheld (Val.without_of_notMem hnot)
      obtain ⟨hκ, rfl⟩ | ⟨rfl, rfl, rfl, rfl⟩ | ⟨rfl, rfl, x, hx, rfl⟩ | ⟨rfl, x, hx, rfl⟩ :=
        owner_of_orphanKey hj hk hkey hmem
      · exact ⟨hκ, j, rfl, hlist⟩
      · have hnone := h.metrics.resolve_right (not_not_intro hlist)
        refine absurd ?_ hheld
        rw [Val.without, if_pos rfl, ← hnone]
      · have hnone := (h.payload x hx).resolve_right (not_not_intro hlist)
        refine absurd ?_ hheld
        rw [hnone]
        exact Val.without_missing _ _ _
      · refine absurd ?_ (hids (j ++ ":" ++ x) ?_)
        · have hfree : ∀ y ∈ jobSubKeySuffixes, y.toList.count ':' = 0 := by decide
          have hnone : j.toList.count ':' = 0 := List.count_eq_zero.mpr hj.colonFree
          simp [List.count_append, hfree x hx, hnone]
        · by_contra hnone
          have hmissing : s .hash (p ++ (j ++ ":" ++ x)) = none := by
            simpa [Store.jobExists] using hnone
          rw [hmissing] at hheld
          exact hheld (Val.without_missing _ _ _)

/-- A scanned candidate loses its keys: those that were not scanned are gone all the same. -/
theorem Scans.absent {p j x : String} {s : Store} {batches : List (List String)}
    (h : Scans p s batches) (hj : Plausible j) (hx : x ∈ jobSubKeySuffixes)
    (hlist : Unlisted s p j) :
    (removeOrphanedJobs p 0 batches 0 s).2.Absent (p ++ j ++ ":" ++ x) := by
  by_contra hthere
  have hassoc : p ++ j ++ ":" ++ x = p ++ (j ++ ":" ++ x) := by simp only [String.append_assoc]
  have hbefore : ¬ s.Absent (p ++ j ++ ":" ++ x) := fun habs =>
    hthere (habs.removeOrphanedJobs batches 0)
  have hscanned : p ++ j ++ ":" ++ x ∈ batches.flatten := by
    rw [hassoc] at hthere hbefore ⊢
    exact h.complete _ hbefore hthere
  obtain ⟨scanned, hb, hin⟩ := List.mem_flatten.mp hscanned
  refine hthere (removeOrphanedJobs_absent ⟨scanned, hb, ?_⟩ hlist ?_)
  · rw [candidateJobIds, List.mem_eraseDups, List.mem_filterMap]
    exact ⟨_, hin, candidate_of_subKey p hj hx⟩
  · exact List.mem_cons_of_mem _ (List.mem_map_of_mem hx)

/-- **`removeOrphanedJobs` deletes only orphans**, in every order and any number of batches and with
every limit, exactly when no failed job was recorded in the metrics and no deduplication payload has
the name of a key of a job, unless a job `metrics`, or `dn`, is in a container. -/
theorem removeOrphanedJobs_only_orphans {p : String} {s : Store}
    -- the ids that `Job.validateOptions` admits have no colon or two, those of iterations two or
    -- more
    (hids : ∀ j, s.jobExists (p ++ j) = true → j.toList.count ':' ≠ 1)
    {batches₀ : List (List String)} (hscan : Scans p s batches₀) :
    (∀ batches, Scans p s batches → ∀ limit,
      OnlyOrphans p s (removeOrphanedJobs p limit batches 0 s).2) ↔ NoLookalike p s := by
  refine ⟨fun h => ?_, fun h batches _ limit =>
    h.onlyOrphans hids (sweptFrom_removeOrphanedJobs p limit batches 0 s)⟩
  have honly := h batches₀ hscan 0
  set s' : Store := (removeOrphanedJobs p 0 batches₀ 0 s).2 with hs'
  refine ⟨or_iff_not_imp_right.mpr fun hlist => ?_,
    fun x hx => or_iff_not_imp_right.mpr fun hlist => ?_⟩
  · have hgone : s'.Absent (p ++ "metrics" ++ ":" ++ "failed") :=
      hscan.absent plausible_metrics (by decide) (not_not.mp hlist)
    have hkey : p ++ "metrics" ++ ":" ++ "failed" = p ++ "metrics:failed" := by
      simp only [String.append_assoc]
      rfl
    rw [hkey] at hgone
    have hvalue := hgone .metrics (p ++ "metrics:failed")
    rw [Val.without, if_pos rfl] at hvalue
    by_contra hne
    have hchanged : s' .metrics (p ++ "metrics:failed") ≠ s .metrics (p ++ "metrics:failed") := by
      intro heq
      rw [heq] at hvalue
      exact hne hvalue.symm
    have hown := honly.own .metrics (p ++ "metrics:failed")
      ⟨.failed, by rw [String.append_assoc]; rfl⟩ hchanged
    exact absurd hown.1 (by decide)
  · have hgone : s'.Absent (p ++ "dn" ++ ":" ++ x) :=
      hscan.absent plausible_dn hx (not_not.mp hlist)
    have hkey : p ++ "dn" ++ ":" ++ x = deduplicationNextKey p x := by
      simp only [deduplicationNextKey, String.append_assoc]
      rfl
    rw [hkey] at hgone
    have hvalue := hgone .dn (deduplicationNextKey p x)
    have hin : deduplicationNextKey p x ∈ Kind.dn.keys (deduplicationNextKey p x) :=
      List.mem_singleton.mpr rfl
    rw [Val.without_of_ne (by decide), if_pos hin] at hvalue
    by_contra hne
    have hchanged : s' .dn (deduplicationNextKey p x) ≠ s .dn (deduplicationNextKey p x) := by
      rw [← hvalue]
      exact fun heq => hne heq.symm
    have hown := honly.own .dn _ ⟨x, rfl⟩ hchanged
    exact absurd hown.1 (by decide)

/-! ### An orphan, and the metrics -/

/-- A store with one job hash that is in no container. -/
def orphanStore : Store := Store.empty.set .hash "bull:q:9" (some {})

theorem orphanStore_hash (k : String) :
    orphanStore .hash k = if k = "bull:q:9" then some {} else none := by
  rw [orphanStore, Keyspace.set_self, Function.update_apply]
  rfl

theorem orphanStore_absent {key : String} (h : key ≠ "bull:q:9") : orphanStore.Absent key := by
  intro κ k
  by_cases hκ : κ = .hash
  · subst hκ
    rw [orphanStore_hash]
    split
    · next hk =>
      refine Val.without_of_notMem fun hin => h ?_
      rw [List.mem_singleton.mp hin, hk]
    · exact Val.without_missing _ _ _
  · rw [orphanStore, Keyspace.set_of_ne _ hκ]
    exact Val.without_missing _ _ _

theorem orphanStore_scans : Scans "bull:q:" orphanStore [["bull:q:9"]] where
  sound key hkey := by
    obtain rfl : key = "bull:q:9" := by simpa using hkey
    refine ⟨fun habs => ?_, "9", by decide⟩
    exact absurd (habs .hash "bull:q:9") (by decide +kernel)
  complete x hthere _ := by
    by_contra hnot
    exact hthere (orphanStore_absent fun heq => hnot (by simp [heq]))

/-- The orphan is found and deleted, and nothing else is. -/
theorem orphan_removed :
    (removeOrphanedJobs "bull:q:" 0 [["bull:q:9"]] 0 orphanStore).1 = 1 ∧
    OnlyOrphans "bull:q:" orphanStore
      (removeOrphanedJobs "bull:q:" 0 [["bull:q:9"]] 0 orphanStore).2 := by
  have hids : ∀ j, orphanStore.jobExists ("bull:q:" ++ j) = true → j.toList.count ':' ≠ 1 := by
    intro j hex
    rw [Store.jobExists, orphanStore_hash] at hex
    split at hex
    · next heq =>
      obtain rfl : j = "9" := (String.append_right_inj "bull:q:").mp heq
      decide
    · cases hex
  have hiff := removeOrphanedJobs_only_orphans hids orphanStore_scans
  exact ⟨by decide +kernel, hiff.mpr ⟨.inl (by decide +kernel), fun x hx => .inl rfl⟩ _
    orphanStore_scans 0⟩

/-- A job fails, in a worker that collects metrics. -/
def failedWithMetrics : List Command :=
  [.addStandardJob "bull:q:" { name := "n", data := "d", timestamp := 1 },
   .moveToActive "bull:q:" 2 { token := "t", lockDuration := 30000 },
   .moveToFinished "bull:q:"
    { jobId := "1", timestamp := 3, value := "boom", target := .failed, fetchNext := false,
      opts := { token := "t", lockDuration := 30000 }, maxMetricsSize := some 100 }]

/-- The store these commands lead to. -/
def failedWithMetricsStore : Store := (runCommands failedWithMetrics .empty).getD .empty

/-- The keys of this store, in two batches. -/
def failedWithMetricsScan : List (List String) :=
  [["bull:q:1", "bull:q:id", "bull:q:meta", "bull:q:marker"],
   ["bull:q:metrics:failed", "bull:q:events", "bull:q:failed"]]

/-- The metrics are counted as an orphan, and deleted. -/
theorem metrics_removed_as_orphan :
    runCommands failedWithMetrics .empty = some failedWithMetricsStore ∧
    failedWithMetricsStore .metrics "bull:q:metrics:failed" =
      { count := 1, prevTS := some 3, prevCount := 0, data := [] } ∧
    (removeOrphanedJobs "bull:q:" 0 failedWithMetricsScan 0 failedWithMetricsStore).1 = 1 ∧
    (removeOrphanedJobs "bull:q:" 0 failedWithMetricsScan 0 failedWithMetricsStore).2 .metrics
      "bull:q:metrics:failed" = {} ∧
    ¬ OnlyOrphans "bull:q:" failedWithMetricsStore
      (removeOrphanedJobs "bull:q:" 0 failedWithMetricsScan 0 failedWithMetricsStore).2 := by
  have hbefore : failedWithMetricsStore .metrics "bull:q:metrics:failed" =
      { count := 1, prevTS := some 3, prevCount := 0, data := [] } := by decide +kernel
  have hafter : (removeOrphanedJobs "bull:q:" 0 failedWithMetricsScan 0 failedWithMetricsStore).2
      .metrics "bull:q:metrics:failed" = {} := by decide +kernel
  refine ⟨rfl, hbefore, by decide +kernel, hafter, fun h => ?_⟩
  have hown := h.own .metrics "bull:q:metrics:failed" ⟨.failed, by decide⟩ (by
    rw [hbefore, hafter]
    decide)
  exact absurd hown.1 (by decide)

end BullMQ
