import Mathlib.Data.List.Sort
import Mathlib.Data.Prod.Lex
import Mathlib.Data.String.Basic

/-!
# Sorted sets

A `SortedSet κ α` holds members of type `α`, each once, under a score of type `κ`, and lists
them by score with ties broken by the members' own order. Both facts are fields of the
structure, so every value that can be built is a set and is listed in order; the operations
below (`zadd`, `zrem`, `zremAll`, `zpopmin`, the range queries) carry the two proofs along.

The lemmas come in two groups: membership of each operation's result, in simp normal form, and
the `card`inality used where only the number of occurrences of a member matters.
-/

namespace Redis

/-- Members with scores, listed by score and then by member. -/
structure SortedSet (κ α : Type) [LinearOrder κ] [LinearOrder α] where
  /-- The scored members in ascending order. -/
  entries : List (κ ×ₗ α)
  /-- No member has two scores. -/
  nodup : (entries.map fun e => (ofLex e).2).Nodup
  /-- The listing is ascending. -/
  sorted : entries.Pairwise (· ≤ ·)

namespace SortedSet

variable {κ α : Type} [LinearOrder κ] [LinearOrder α]

/-- The members in listing order. -/
def members (z : SortedSet κ α) : List α := z.entries.map fun e => (ofLex e).2

instance : Membership α (SortedSet κ α) := ⟨fun z a => a ∈ z.members⟩

instance (a : α) (z : SortedSet κ α) : Decidable (a ∈ z) :=
  inferInstanceAs (Decidable (a ∈ z.members))

instance : EmptyCollection (SortedSet κ α) := ⟨⟨[], List.nodup_nil, List.Pairwise.nil⟩⟩

instance : Inhabited (SortedSet κ α) := ⟨∅⟩

theorem mem_def {z : SortedSet κ α} {a : α} : a ∈ z ↔ a ∈ z.members := Iff.rfl

theorem members_nodup (z : SortedSet κ α) : z.members.Nodup := z.nodup

@[ext]
theorem ext {z w : SortedSet κ α} (h : z.entries = w.entries) : z = w := by
  cases z
  cases w
  congr

instance : DecidableEq (SortedSet κ α) := fun z w =>
  decidable_of_iff (z.entries = w.entries) ⟨ext, fun h => h ▸ rfl⟩

@[simp]
theorem notMem_empty (a : α) : a ∉ (∅ : SortedSet κ α) := List.not_mem_nil

theorem eq_empty_iff {z : SortedSet κ α} : z = ∅ ↔ z.members = [] := by
  constructor
  · rintro rfl
    rfl
  · intro h
    exact ext (List.map_eq_nil_iff.mp h)

/-- Keep the entries that satisfy `f`. -/
def filter (f : κ ×ₗ α → Bool) (z : SortedSet κ α) : SortedSet κ α where
  entries := z.entries.filter f
  nodup := z.nodup.sublist (List.filter_sublist.map _)
  sorted := z.sorted.filter f

/-! ### Removal -/

/-- `ZREM` of one member. -/
def zrem (a : α) (z : SortedSet κ α) : SortedSet κ α := z.filter fun e => decide ((ofLex e).2 ≠ a)

/-- `ZREM` of several members. -/
def zremAll (l : List α) (z : SortedSet κ α) : SortedSet κ α :=
  z.filter fun e => decide ((ofLex e).2 ∉ l)

theorem members_filter_snd (p : α → Bool) (z : SortedSet κ α) :
    (z.filter fun e => p (ofLex e).2).members = z.members.filter p := by
  simp only [members, filter, List.filter_map]
  rfl

theorem members_zrem (a : α) (z : SortedSet κ α) :
    (z.zrem a).members = z.members.filter fun b => decide (b ≠ a) :=
  members_filter_snd (fun b => decide (b ≠ a)) z

theorem members_zremAll (l : List α) (z : SortedSet κ α) :
    (z.zremAll l).members = z.members.filter fun b => decide (b ∉ l) :=
  members_filter_snd (fun b => decide (b ∉ l)) z

@[simp]
theorem mem_zrem {a b : α} {z : SortedSet κ α} : b ∈ z.zrem a ↔ b ∈ z ∧ b ≠ a := by
  simp [mem_def, members_zrem]

@[simp]
theorem mem_zremAll {b : α} {l : List α} {z : SortedSet κ α} :
    b ∈ z.zremAll l ↔ b ∈ z ∧ b ∉ l := by
  simp [mem_def, members_zremAll]

theorem zrem_of_notMem {a : α} {z : SortedSet κ α} (h : a ∉ z) : z.zrem a = z := by
  refine ext (List.filter_eq_self.mpr fun e he => ?_)
  have hne : (ofLex e).2 ≠ a := fun hea => h (hea ▸ List.mem_map_of_mem he)
  simpa using hne

@[simp]
theorem zremAll_nil (z : SortedSet κ α) : z.zremAll [] = z := by
  refine ext (List.filter_eq_self.mpr fun e _ => ?_)
  simp

theorem zremAll_singleton (a : α) (z : SortedSet κ α) : z.zremAll [a] = z.zrem a := by
  simp only [zremAll, zrem, List.mem_singleton]

/-! ### Insertion -/

/-- `ZADD`: give `a` the score `k`, dropping any score it had. -/
def zadd (k : κ) (a : α) (z : SortedSet κ α) : SortedSet κ α where
  entries := (z.zrem a).entries.orderedInsert (· ≤ ·) (toLex (k, a))
  nodup := by
    refine (((List.perm_orderedInsert _ _ _).map _).nodup_iff).mpr ?_
    refine List.nodup_cons.mpr ⟨fun h => ?_, (z.zrem a).nodup⟩
    exact (mem_zrem.mp (show a ∈ z.zrem a from h)).2 rfl
  sorted := (z.zrem a).sorted.orderedInsert _ _

theorem members_zadd_perm (k : κ) (a : α) (z : SortedSet κ α) :
    (z.zadd k a).members.Perm (a :: (z.zrem a).members) :=
  (List.perm_orderedInsert _ _ _).map _

@[simp]
theorem mem_zadd {k : κ} {a b : α} {z : SortedSet κ α} : b ∈ z.zadd k a ↔ b = a ∨ b ∈ z := by
  rw [mem_def, (members_zadd_perm k a z).mem_iff, List.mem_cons, ← mem_def, mem_zrem]
  constructor
  · rintro (h | h)
    · exact Or.inl h
    · exact Or.inr h.1
  · rintro (h | h)
    · exact Or.inl h
    · by_cases hb : b = a
      · exact Or.inl hb
      · exact Or.inr ⟨h, hb⟩

/-! ### Queries -/

/-- `ZSCORE`. -/
def zscore (a : α) (z : SortedSet κ α) : Option κ :=
  (z.entries.find? fun e => decide ((ofLex e).2 = a)).map fun e => (ofLex e).1

theorem zscore_eq_some {z : SortedSet κ α} {a : α} {k : κ} :
    z.zscore a = some k ↔ toLex (k, a) ∈ z.entries := by
  unfold zscore
  constructor
  · intro h
    obtain ⟨e, he, rfl⟩ := Option.map_eq_some_iff.mp h
    have ha : (ofLex e).2 = a := by simpa using List.find?_some he
    have hmem := List.mem_of_find?_eq_some he
    rwa [← ha]
  · intro h
    have hsome : (z.entries.find? fun e => decide ((ofLex e).2 = a)).isSome = true :=
      List.find?_isSome.mpr ⟨_, h, by simp⟩
    obtain ⟨e, he⟩ := Option.isSome_iff_exists.mp hsome
    have ha : (ofLex e).2 = a := by simpa using List.find?_some he
    have heq : e = toLex (k, a) :=
      List.inj_on_of_nodup_map z.nodup (List.mem_of_find?_eq_some he) h ha
    rw [he, heq]
    rfl

theorem mem_entries_zadd {z : SortedSet κ α} {a : α} {k : κ} {e : κ ×ₗ α} :
    e ∈ (z.zadd k a).entries ↔ e = toLex (k, a) ∨ e ∈ z.entries ∧ (ofLex e).2 ≠ a := by
  have hperm : e ∈ (z.zadd k a).entries ↔ e ∈ toLex (k, a) :: (z.zrem a).entries :=
    (List.perm_orderedInsert _ _ _).mem_iff
  rw [hperm, List.mem_cons]
  simp [zrem, filter]

theorem zscore_zadd (k : κ) (a b : α) (z : SortedSet κ α) :
    (z.zadd k a).zscore b = if b = a then some k else z.zscore b := by
  refine Option.ext fun k' => ?_
  rw [zscore_eq_some, mem_entries_zadd]
  split
  · next h =>
    subst h
    simp [eq_comm]
  · next h =>
    have hne : toLex (k', b) ≠ toLex (k, a) := fun heq => h (congrArg (fun e => (ofLex e).2) heq)
    rw [zscore_eq_some]
    simp [hne, h]

/-- The entries with score in `[lo, hi]`, ascending. -/
def entriesByScore (lo hi : κ) (z : SortedSet κ α) : List (κ ×ₗ α) :=
  z.entries.filter fun e => decide (lo ≤ (ofLex e).1 ∧ (ofLex e).1 ≤ hi)

/-- `ZRANGEBYSCORE lo hi`: members with score in `[lo, hi]`, ascending. -/
def rangeByScore (lo hi : κ) (z : SortedSet κ α) : List α :=
  (z.entriesByScore lo hi).map fun e => (ofLex e).2

/-- `ZRANGEBYSCORE lo +inf`: members with score at least `lo`, ascending. -/
def rangeFrom (lo : κ) (z : SortedSet κ α) : List α :=
  (z.entries.filter fun e => decide (lo ≤ (ofLex e).1)).map fun e => (ofLex e).2

/-- `ZRANGEBYSCORE -inf hi`: members with score at most `hi`, ascending. -/
def rangeUpTo (hi : κ) (z : SortedSet κ α) : List α :=
  (z.entries.filter fun e => decide ((ofLex e).1 ≤ hi)).map fun e => (ofLex e).2

theorem rangeByScore_sublist (lo hi : κ) (z : SortedSet κ α) :
    (z.rangeByScore lo hi).Sublist z.members :=
  List.filter_sublist.map _

theorem rangeFrom_sublist (lo : κ) (z : SortedSet κ α) : (z.rangeFrom lo).Sublist z.members :=
  List.filter_sublist.map _

theorem rangeUpTo_sublist (hi : κ) (z : SortedSet κ α) : (z.rangeUpTo hi).Sublist z.members :=
  List.filter_sublist.map _

/-- `ZPOPMIN`: the member of least score, if any, and what is left. -/
def zpopmin (z : SortedSet κ α) : Option (α × SortedSet κ α) :=
  match z.members with
  | [] => none
  | a :: _ => some (a, z.zrem a)

theorem zpopmin_eq_none {z : SortedSet κ α} : z.zpopmin = none ↔ z.members = [] := by
  unfold zpopmin
  split <;> simp_all

theorem zpopmin_eq_some {z : SortedSet κ α} {a : α} {w : SortedSet κ α}
    (h : z.zpopmin = some (a, w)) : a ∈ z ∧ w = z.zrem a := by
  unfold zpopmin at h
  split at h
  · cases h
  · next b l hb =>
    obtain ⟨rfl, rfl⟩ : b = a ∧ z.zrem b = w := by simpa using h
    exact ⟨mem_def.mpr (hb ▸ List.mem_cons_self), rfl⟩

/-! ### Occurrence counts -/

/-- How often a member occurs: once or not at all. -/
def card (z : SortedSet κ α) (a : α) : ℕ := z.members.count a

theorem card_eq (z : SortedSet κ α) (a : α) : z.card a = if a ∈ z then 1 else 0 := by
  rw [card, List.Nodup.count z.members_nodup]
  rfl

@[simp]
theorem card_pos {z : SortedSet κ α} {a : α} : 0 < z.card a ↔ a ∈ z := List.count_pos_iff

@[simp]
theorem card_empty (a : α) : (∅ : SortedSet κ α).card a = 0 := rfl

end SortedSet

end Redis
