import BullMQ.Redis.SortedSet

/-!
# The listing order of sorted sets

Which of two members is listed first, and so is popped first: the one with the smaller score, or the
smaller one of the two where the scores are equal. Giving a member a new score leaves the order of
the others alone.
-/

namespace Redis

/-- `a` stands somewhere in front of `b`. -/
def Before {α : Type} (l : List α) (a b : α) : Prop := [a, b].Sublist l

theorem before_iff_of_pairwise {α : Type} [LinearOrder α] {l : List α} (h : l.Pairwise (· < ·))
    {a b : α} : Before l a b ↔ a ∈ l ∧ b ∈ l ∧ a < b := by
  constructor
  · intro hab
    have hpair := h.sublist hab
    exact ⟨hab.subset (by simp), hab.subset (by simp), by simpa using hpair⟩
  · rintro ⟨ha, hb, hlt⟩
    induction l with
    | nil => cases ha
    | cons c l ih =>
      obtain ⟨hc, hl⟩ := List.pairwise_cons.mp h
      obtain rfl | hal := List.mem_cons.mp ha
      · obtain rfl | hbl := List.mem_cons.mp hb
        · exact absurd hlt (lt_irrefl _)
        · exact (List.singleton_sublist.mpr hbl).cons_cons _
      · obtain rfl | hbl := List.mem_cons.mp hb
        · exact absurd (hc a hal) (lt_asymm hlt)
        · exact (ih hl hal hbl).cons _

/-- What stands in front of one of the first elements is one of them. -/
theorem Before.take {α : Type} {l : List α} {a b : α} (h : Before l a b) (hnodup : l.Nodup) {n : ℕ}
    (hb : b ∈ l.take n) : Before (l.take n) a b := by
  have hsplit : [a, b].Sublist (l.take n ++ l.drop n) := by rwa [List.take_append_drop]
  obtain ⟨l₁, l₂, hab, h₁, h₂⟩ := List.sublist_append_iff.mp hsplit
  obtain rfl | ⟨l₃, c, rfl⟩ := List.eq_nil_or_concat l₂
  · rw [List.append_nil] at hab
    rwa [Before, hab]
  · -- Otherwise the last of the two would occur twice.
    rw [List.concat_eq_append, ← List.append_assoc] at hab
    have hends : [a] ++ [b] = (l₁ ++ l₃) ++ [c] := hab
    obtain ⟨-, hc⟩ := List.append_inj' hends rfl
    obtain rfl : b = c := by simpa using hc
    rw [← List.take_append_drop n l] at hnodup
    have hdisjoint := (List.nodup_append.mp hnodup).2.2
    exact absurd rfl (hdisjoint b hb b (h₂.subset (by simp)))

namespace SortedSet

variable {κ α : Type} [LinearOrder κ] [LinearOrder α]

theorem entries_pairwise_lt (z : SortedSet κ α) : z.entries.Pairwise (· < ·) := by
  have hne : z.entries.Pairwise (· ≠ ·) := z.nodup.of_map _
  exact (z.sorted.and hne).imp fun h => lt_of_le_of_ne h.1 h.2

/-- The order of the members is that of their entries. -/
theorem before_iff {z : SortedSet κ α} {a b : α} {k l : κ} (ha : z.zscore a = some k)
    (hb : z.zscore b = some l) : Before z.members a b ↔ toLex (k, a) < toLex (l, b) := by
  have ha' := zscore_eq_some.mp ha
  have hb' := zscore_eq_some.mp hb
  constructor
  · intro h
    obtain ⟨l', hl', heq⟩ := List.sublist_map_iff.mp h
    obtain ⟨e, f, rfl⟩ : ∃ e f, l' = [e, f] := by
      rcases l' with _ | ⟨e, _ | ⟨f, _ | _⟩⟩ <;> simp at heq
      exact ⟨e, f, rfl⟩
    obtain ⟨he, hf⟩ : (ofLex e).2 = a ∧ (ofLex f).2 = b := by
      simpa [eq_comm] using heq
    obtain ⟨hemem, hfmem, hlt⟩ := (before_iff_of_pairwise z.entries_pairwise_lt).mp hl'
    have he' : e = toLex (k, a) := List.inj_on_of_nodup_map z.nodup hemem ha' he
    have hf' : f = toLex (l, b) := List.inj_on_of_nodup_map z.nodup hfmem hb' hf
    rwa [← he', ← hf']
  · intro hlt
    have h : Before z.entries (toLex (k, a)) (toLex (l, b)) :=
      (before_iff_of_pairwise z.entries_pairwise_lt).mpr ⟨ha', hb', hlt⟩
    exact h.map fun e => (ofLex e).2

theorem exists_zscore {z : SortedSet κ α} {a : α} (h : a ∈ z) : ∃ k, z.zscore a = some k := by
  obtain ⟨e, he, rfl⟩ := List.mem_map.mp h
  exact ⟨(ofLex e).1, zscore_eq_some.mpr he⟩

theorem mem_of_zscore {z : SortedSet κ α} {a : α} {k : κ} (h : z.zscore a = some k) : a ∈ z :=
  List.mem_map.mpr ⟨_, zscore_eq_some.mp h, rfl⟩

/-- A new score for a member leaves the order of the others alone. -/
theorem members_zadd_filter (k : κ) (a : α) (z : SortedSet κ α) :
    (z.zadd k a).members.filter (· ≠ a) = z.members.filter (· ≠ a) := by
  have hentries : (z.zadd k a).zrem a = z.zrem a := by
    refine ext (@List.Perm.eq_of_pairwise _ (· ≤ ·) _ _ (fun _ _ _ _ => le_antisymm)
      ((z.zadd k a).zrem a).sorted (z.zrem a).sorted ?_)
    refine (List.perm_ext_iff_of_nodup ?_ ?_).mpr fun e => ?_
    · exact ((z.zadd k a).zrem a).nodup.of_map _
    · exact (z.zrem a).nodup.of_map _
    · have hmem : ∀ w : SortedSet κ α,
          e ∈ (w.zrem a).entries ↔ e ∈ w.entries ∧ (ofLex e).2 ≠ a := by
        intro w
        simp [zrem, filter]
      rw [hmem, hmem, mem_entries_zadd]
      constructor
      · rintro ⟨rfl | h, hne⟩
        · exact absurd rfl hne
        · exact h
      · exact fun h => ⟨.inr h, h.2⟩
  rw [← members_zrem, ← members_zrem, hentries]

/-- A member that is removed first gets its new score in the same way. -/
theorem zadd_zrem (k : κ) (a : α) (z : SortedSet κ α) : (z.zrem a).zadd k a = z.zadd k a := by
  have hrem : (z.zrem a).zrem a = z.zrem a := zrem_of_notMem fun h => (mem_zrem.mp h).2 rfl
  refine ext ?_
  simp only [zadd, hrem]

end SortedSet

end Redis
