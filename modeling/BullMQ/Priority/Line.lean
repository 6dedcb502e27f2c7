import BullMQ.Redis.Order

/-!
# A line with priorities in a sorted set

A line is served by priority, and in the order of arrival within a priority. A sorted set keeps such
a line if everyone draws a ticket on arrival and is entered under the score `priority * B + ticket`:
as long as the tickets stay below `B`, the scores order the line as it should be (`Holds.pop`). An
empty line may draw its tickets anew.
-/

namespace Redis

variable {α : Type} [LinearOrder α]

/-- A line, in the order of arrival, with the priority of everyone. -/
abbrev PriorityLine (α : Type) : Type := List (ℤ × α)

namespace PriorityLine

/-- Leave the line. -/
def remove (a : α) (L : PriorityLine α) : PriorityLine α := L.filter fun e => decide (e.2 ≠ a)

/-- Arrive at the end of the line, from wherever one was in it. -/
def insert (n : ℤ) (a : α) (L : PriorityLine α) : PriorityLine α := L.remove a ++ [(n, a)]

/-- The one to be served next: of the least priority, and the first to arrive of these. -/
def Next (L : PriorityLine α) (a : α) : Prop :=
  ∃ n before after, L = before ++ (n, a) :: after ∧ (∀ e ∈ before, n < e.1) ∧ ∀ e ∈ after, n ≤ e.1

/-- The entry for someone with a ticket. -/
def entry (B : ℤ) (e : (ℤ × α) × ℕ) : ℤ ×ₗ α := toLex (e.1.1 * B + e.2, e.1.2)

/-- The set holds the line, with tickets up to `drawn`. -/
def Holds (B : ℤ) (z : SortedSet ℤ α) (drawn : ℕ) (L : PriorityLine α) : Prop :=
  ∃ T : List ((ℤ × α) × ℕ), T.map Prod.fst = L ∧ T.Pairwise (fun e f => e.2 < f.2) ∧
    (∀ e ∈ T, e.2 ≤ drawn) ∧ z.entries.Perm (T.map (entry B))

variable {B : ℤ} {z w : SortedSet ℤ α} {drawn : ℕ} {L : PriorityLine α}

theorem holds_empty (B : ℤ) (drawn : ℕ) : Holds B (∅ : SortedSet ℤ α) drawn [] :=
  ⟨[], rfl, .nil, by simp, .refl _⟩

theorem Holds.eq_nil (h : Holds B ∅ drawn L) : L = [] := by
  obtain ⟨T, rfl, -, -, hperm⟩ := h
  have hnil : T = [] := by
    have hlen := hperm.length_eq
    rw [List.length_map] at hlen
    exact List.length_eq_zero_iff.mp hlen.symm
  rw [hnil]
  rfl

/-- Leaving the set is leaving the line. -/
theorem Holds.zrem (h : Holds B z drawn L) (a : α) : Holds B (z.zrem a) drawn (L.remove a) := by
  obtain ⟨T, rfl, hpair, hle, hperm⟩ := h
  refine ⟨T.filter fun e => decide (e.1.2 ≠ a), ?_, hpair.filter _,
    fun e he => hle e (List.mem_of_mem_filter he), ?_⟩
  · rw [remove, List.filter_map]
    rfl
  · have hfilter := hperm.filter fun e => decide ((ofLex e).2 ≠ a)
    rw [List.filter_map] at hfilter
    exact hfilter

/-- Everyone draws a ticket that is larger than those before. -/
theorem Holds.zadd (h : Holds B z drawn L) (n : ℤ) (a : α) :
    Holds B (z.zadd (n * B + (drawn + 1 : ℕ)) a) (drawn + 1) (L.insert n a) := by
  obtain ⟨T, hT, hpair, hle, hperm⟩ := h.zrem a
  refine ⟨T ++ [((n, a), drawn + 1)], by rw [List.map_append, hT]; rfl, ?_, ?_, ?_⟩
  · refine List.pairwise_append.mpr ⟨hpair, List.pairwise_singleton _ _, fun e he f hf => ?_⟩
    obtain rfl := List.mem_singleton.mp hf
    exact Nat.lt_succ_of_le (hle e he)
  · intro e he
    obtain he | he := List.mem_append.mp he
    · exact (hle e he).trans (Nat.le_succ _)
    · obtain rfl := List.mem_singleton.mp he
      exact le_rfl
  · rw [List.map_append]
    exact (List.perm_orderedInsert _ _ _).trans
      ((hperm.cons _).trans (List.perm_append_singleton _ _).symm)

theorem mul_add_le_mul {m n B : ℤ} (h : m < n) (hB : 0 ≤ B) : m * B + B ≤ n * B := by
  have hmul := Int.mul_le_mul_of_nonneg_right (show m + 1 ≤ n from h) hB
  rwa [Int.add_mul, Int.one_mul] at hmul

/-- Whoever has the least entry is next. -/
theorem next_of_least {T : List ((ℤ × α) × ℕ)} (hB : ∀ e ∈ T, (e.2 : ℤ) < B)
    (hpair : T.Pairwise (fun e f => e.2 < f.2)) {e : (ℤ × α) × ℕ} (he : e ∈ T)
    (hleast : ∀ f ∈ T, entry B e ≤ entry B f) : Next (T.map Prod.fst) e.1.2 := by
  obtain ⟨before, after, rfl⟩ := List.append_of_mem he
  have hcmp : ∀ f ∈ before ++ e :: after, e.1.1 * B + e.2 ≤ f.1.1 * B + f.2 := by
    intro f hf
    obtain hlt | ⟨heq, -⟩ := Prod.Lex.toLex_le_toLex.mp (hleast f hf)
    · exact hlt.le
    · exact heq.le
  -- Tickets are below `B`, so the scores compare the priorities first.
  have hprio : ∀ f ∈ before ++ e :: after, e.1.1 ≤ f.1.1 := by
    intro f hf
    have hscore := hcmp f hf
    have hticket := hB f hf
    by_contra hgt
    have hstep := mul_add_le_mul (not_le.mp hgt) (show 0 ≤ B by omega)
    omega
  refine ⟨e.1.1, before.map Prod.fst, after.map Prod.fst, by simp, ?_, ?_⟩
  · intro x hx
    obtain ⟨f, hf, rfl⟩ := List.mem_map.mp hx
    have hle := hprio f (List.mem_append_left _ hf)
    refine lt_of_le_of_ne hle fun heq => ?_
    have hscore := hcmp f (List.mem_append_left _ hf)
    have hearlier : f.2 < e.2 := (List.pairwise_append.mp hpair).2.2 f hf e (.head _)
    rw [heq] at hscore
    omega
  · intro x hx
    obtain ⟨f, hf, rfl⟩ := List.mem_map.mp hx
    exact hprio f (List.mem_append_right _ (.tail _ hf))

/-- `ZPOPMIN` serves the one who is next. -/
theorem Holds.pop (h : Holds B z drawn L) (hB : (drawn : ℤ) < B) {a : α}
    (hpop : z.zpopmin = some (a, w)) : Next L a ∧ Holds B w drawn (L.remove a) := by
  obtain ⟨-, rfl⟩ := SortedSet.zpopmin_eq_some hpop
  refine ⟨?_, h.zrem a⟩
  obtain ⟨T, rfl, hpair, hle, hperm⟩ := h
  have htickets : ∀ e ∈ T, (e.2 : ℤ) < B := by
    intro e he
    have := hle e he
    omega
  obtain ⟨e₀, rest, hentries⟩ : ∃ e₀ rest, z.entries = e₀ :: rest ∧ (ofLex e₀).2 = a := by
    unfold SortedSet.zpopmin at hpop
    split at hpop
    · cases hpop
    · next b l hb =>
      obtain ⟨rfl, -⟩ : b = a ∧ z.zrem b = z.zrem a := by simpa using hpop
      rcases hz : z.entries with _ | ⟨e₀, rest⟩
      · simp [SortedSet.members, hz] at hb
      · refine ⟨e₀, rest, rfl, ?_⟩
        rw [SortedSet.members, hz, List.map_cons] at hb
        exact (List.cons.inj hb).1
  obtain ⟨hentries, ha⟩ := hentries
  have hmem : e₀ ∈ T.map (entry B) := hperm.subset (by rw [hentries]; exact .head _)
  obtain ⟨e, he, rfl⟩ := List.mem_map.mp hmem
  rw [← ha]
  refine next_of_least htickets hpair he fun f hf => ?_
  have hf' : entry B f ∈ z.entries := hperm.symm.subset (List.mem_map_of_mem hf)
  have hsorted := z.sorted
  rw [hentries] at hf' hsorted
  obtain hhead | htail := List.mem_cons.mp hf'
  · exact hhead.ge
  · exact (List.pairwise_cons.mp hsorted).1 _ htail

end PriorityLine

end Redis
