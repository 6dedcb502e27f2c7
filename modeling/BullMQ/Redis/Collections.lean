import Mathlib.Data.List.Nodup
import Mathlib.Data.List.AList

/-!
# Lists and sets

Lists are plain `List`s with the head as the left end: `lpush`, `rpush`, the two removals of a
single occurrence (`LREM 1` from the left, `LREM -1` from the right) and `rpop`, the popping
half of `RPOPLPUSH`. A `MemberSet` is a duplicate-free listing. Redis enumerates a set in an
order of its own choosing, so the listing is part of the value and a statement about every
listing covers every enumeration order.
-/

namespace Redis

/-! ### Lists -/

section Lists

variable {α : Type}

/-- `LPUSH`: push on the left. -/
def lpush (a : α) (l : List α) : List α := a :: l

/-- `RPUSH`: push on the right. -/
def rpush (a : α) (l : List α) : List α := l ++ [a]

/-- The popping half of `RPOPLPUSH`: the rightmost element and what is left. -/
def rpop (l : List α) : Option (α × List α) :=
  match l.getLast? with
  | none => none
  | some a => some (a, l.dropLast)

@[simp]
theorem mem_lpush {a b : α} {l : List α} : b ∈ lpush a l ↔ b = a ∨ b ∈ l := List.mem_cons

@[simp]
theorem mem_rpush {a b : α} {l : List α} : b ∈ rpush a l ↔ b = a ∨ b ∈ l := by
  simp [rpush, or_comm]

theorem rpop_eq_none {l : List α} : rpop l = none ↔ l = [] := by
  unfold rpop
  split
  · next h => simpa using h
  · next a h =>
    have hne : l ≠ [] := by
      rintro rfl
      simp at h
    simpa using hne

theorem rpop_eq_some {l l' : List α} {a : α} (h : rpop l = some (a, l')) : l = l' ++ [a] := by
  unfold rpop at h
  split at h
  · cases h
  · next b hb =>
    obtain ⟨rfl, rfl⟩ : b = a ∧ l.dropLast = l' := by simpa using h
    exact (List.dropLast_append_getLast? b hb).symm

variable [DecidableEq α]

/-- `LREM 1`: remove the leftmost occurrence. -/
def lremLeft (a : α) (l : List α) : List α := l.erase a

/-- `LREM -1`: remove the rightmost occurrence. -/
def lremRight (a : α) (l : List α) : List α := (l.reverse.erase a).reverse

@[simp]
theorem count_lpush (a b : α) (l : List α) :
    (lpush a l).count b = l.count b + if a = b then 1 else 0 := by
  simp [lpush, List.count_cons]

@[simp]
theorem count_rpush (a b : α) (l : List α) :
    (rpush a l).count b = l.count b + if a = b then 1 else 0 := by
  simp [rpush, List.count_append, List.count_singleton]

@[simp]
theorem count_lremLeft (a b : α) (l : List α) :
    (lremLeft a l).count b = l.count b - if a = b then 1 else 0 := by
  simp [lremLeft, List.count_erase]

@[simp]
theorem count_lremRight (a b : α) (l : List α) :
    (lremRight a l).count b = l.count b - if a = b then 1 else 0 := by
  simp [lremRight, List.count_erase]

theorem mem_lremLeft_of_ne {a b : α} {l : List α} (hne : b ≠ a) (h : b ∈ l) : b ∈ lremLeft a l :=
  (List.mem_erase_of_ne hne).mpr h

theorem mem_lremRight_of_ne {a b : α} {l : List α} (hne : b ≠ a) (h : b ∈ l) :
    b ∈ lremRight a l := by
  rw [lremRight, List.mem_reverse, List.mem_erase_of_ne hne, List.mem_reverse]
  exact h

theorem lremLeft_sublist (a : α) (l : List α) : (lremLeft a l).Sublist l := List.erase_sublist

theorem lremRight_sublist (a : α) (l : List α) : (lremRight a l).Sublist l := by
  have h : (l.reverse.erase a).reverse.Sublist l.reverse.reverse :=
    List.reverse_sublist.mpr List.erase_sublist
  rwa [List.reverse_reverse] at h

end Lists

/-! ### Batches -/

/-- The index ranges `(from, to)`, counted from one, that split `1..n` into runs of at most
`batchSize`. -/
def batches (n batchSize : ℕ) : List (ℕ × ℕ) :=
  (List.range ((n + batchSize - 1) / batchSize)).map fun i =>
    (i * batchSize + 1, min (i * batchSize + batchSize) n)

/-- The sublist between two indices, counted from one and both included. -/
def unpack {α : Type} (l : List α) (range : ℕ × ℕ) : List α :=
  (l.drop (range.1 - 1)).take (range.2 + 1 - range.1)

/-- Batches cover a list: read one after the other, they are the list. -/
theorem flatMap_batches {α : Type} (l : List α) {b : ℕ} (hb : 0 < b) :
    (batches l.length b).flatMap (unpack l) = l := by
  have hfronts : ∀ k, k ≤ (l.length + b - 1) / b →
      ((List.range k).map fun i => (i * b + 1, min (i * b + b) l.length)).flatMap (unpack l) =
        l.take (k * b) := by
    intro k
    induction k with
    | zero => simp
    | succ k ih =>
      intro hk
      have hkb : k * b < l.length := by
        have h := Nat.mul_le_of_le_div b (k + 1) (l.length + b - 1) hk
        rw [Nat.add_mul, Nat.one_mul] at h
        omega
      have hchunk : unpack l (k * b + 1, min (k * b + b) l.length) = (l.drop (k * b)).take b := by
        have hlen : min (k * b + b) l.length + 1 - (k * b + 1) =
            min b (l.drop (k * b)).length := by
          rw [List.length_drop]
          omega
        rw [unpack, hlen, Nat.add_sub_cancel, List.take_eq_take_iff]
        simp
      rw [List.range_succ, List.map_append, List.flatMap_append, ih (by omega), Nat.add_mul,
        Nat.one_mul, List.take_add]
      simp [hchunk]
  have hcover : l.length ≤ (l.length + b - 1) / b * b := by
    have h := Nat.div_add_mod (l.length + b - 1) b
    have hmod := Nat.mod_lt (l.length + b - 1) hb
    rw [Nat.mul_comm] at h
    omega
  rw [batches, hfronts _ le_rfl, List.take_of_length_le hcover]

/-! ### Sets -/

/-- A set together with the order in which it is enumerated. -/
structure MemberSet (α : Type) where
  /-- The members in enumeration order. -/
  members : List α
  /-- No member is listed twice. -/
  nodup : members.Nodup

namespace MemberSet

section Basic

variable {α : Type}

instance : Membership α (MemberSet α) := ⟨fun s a => a ∈ s.members⟩

instance : EmptyCollection (MemberSet α) := ⟨⟨[], List.nodup_nil⟩⟩

instance : Inhabited (MemberSet α) := ⟨∅⟩

theorem mem_def {s : MemberSet α} {a : α} : a ∈ s ↔ a ∈ s.members := Iff.rfl

@[ext]
theorem ext {s t : MemberSet α} (h : s.members = t.members) : s = t := by
  cases s
  cases t
  congr

@[simp]
theorem notMem_empty (a : α) : a ∉ (∅ : MemberSet α) := List.not_mem_nil

theorem eq_empty_iff {s : MemberSet α} : s = ∅ ↔ ∀ a, a ∉ s := by
  constructor
  · rintro rfl a
    exact notMem_empty a
  · intro h
    exact ext (List.eq_nil_iff_forall_not_mem.mpr h)

end Basic

variable {α : Type} [DecidableEq α]

instance (a : α) (s : MemberSet α) : Decidable (a ∈ s) :=
  inferInstanceAs (Decidable (a ∈ s.members))

instance : DecidableEq (MemberSet α) := fun s t =>
  decidable_of_iff (s.members = t.members) ⟨ext, fun h => h ▸ rfl⟩

/-- `SADD`. -/
def sadd (a : α) (s : MemberSet α) : MemberSet α := ⟨s.members.insert a, s.nodup.insert⟩

/-- `SREM`. -/
def srem (a : α) (s : MemberSet α) : MemberSet α := ⟨s.members.erase a, s.nodup.erase a⟩

/-- `SADD` of several members. -/
def saddAll (l : List α) (s : MemberSet α) : MemberSet α := l.foldl (fun s a => s.sadd a) s

@[simp]
theorem mem_sadd {a b : α} {s : MemberSet α} : b ∈ s.sadd a ↔ b = a ∨ b ∈ s :=
  List.mem_insert_iff

@[simp]
theorem mem_srem {a b : α} {s : MemberSet α} : b ∈ s.srem a ↔ b ≠ a ∧ b ∈ s :=
  s.nodup.mem_erase_iff

@[simp]
theorem mem_saddAll {b : α} {l : List α} {s : MemberSet α} :
    b ∈ s.saddAll l ↔ b ∈ l ∨ b ∈ s := by
  induction l generalizing s with
  | nil => simp [saddAll]
  | cons a l ih =>
    have hstep : s.saddAll (a :: l) = (s.sadd a).saddAll l := rfl
    rw [hstep, ih, mem_sadd, List.mem_cons]
    tauto

theorem srem_of_notMem {a : α} {s : MemberSet α} (h : a ∉ s) : s.srem a = s :=
  ext (List.erase_of_not_mem h)

end MemberSet

end Redis
