import Mathlib.Data.List.Basic

/-!
# Scanning with a cursor

`SSCAN` and `HSCAN` return a collection chunk by chunk: every reply carries the cursor of the next
one, and the cursor `"0"` both starts a scan and ends it. `Enumerates` says what a whole scan
returns, and `slice` picks the elements at given positions, however the collection is cut into
chunks.
-/

namespace Redis

section Scan

variable {α : Type} {scan : String → String × List α} {cursor : String} {chunks : List (List α)}

/-- Scanning from `cursor` on until the cursor is `"0"` returns the given chunks. -/
inductive Enumerates (scan : String → String × List α) : String → List (List α) → Prop where
  | last {cursor : String} {chunk : List α} (h : scan cursor = ("0", chunk)) :
      Enumerates scan cursor [chunk]
  | next {cursor cursor' : String} {chunk : List α} {chunks : List (List α)}
      (h : scan cursor = (cursor', chunk)) (hcursor : cursor' ≠ "0")
      (hrest : Enumerates scan cursor' chunks) : Enumerates scan cursor (chunk :: chunks)

theorem Enumerates.ne_nil (h : Enumerates scan cursor chunks) : chunks ≠ [] := by
  cases h <;> simp

end Scan

section Slice

variable {α β : Type}

/-- The elements at the positions from `a` on and before `b`. -/
def slice (a b : ℕ) (l : List α) : List α := (l.take b).drop a

@[simp] theorem slice_nil (a b : ℕ) : slice a b ([] : List α) = [] := by simp [slice]

theorem length_slice (a b : ℕ) (l : List α) : (slice a b l).length = min b l.length - a := by
  simp [slice]

theorem slice_append (a b : ℕ) (l l' : List α) :
    slice a b (l ++ l') = slice a b l ++ slice (a - l.length) (b - l.length) l' := by
  by_cases h : b ≤ l.length
  · simp [slice, List.take_append_of_le_length h, Nat.sub_eq_zero_of_le h]
  · have hlen : (l.take b).length = l.length := by rw [List.length_take]; omega
    rw [slice, List.take_append, List.drop_append, hlen]
    rfl

/-- What lies behind the last position does not matter. -/
theorem slice_append_of_le {a b : ℕ} {l : List α} (h : b ≤ l.length) (l' : List α) :
    slice a b (l ++ l') = slice a b l := by
  rw [slice, slice, List.take_append_of_le_length h]

theorem slice_of_le {a b : ℕ} {l : List α} (h : l.length ≤ b) : slice a b l = l.drop a := by
  rw [slice, List.take_of_length_le h]

theorem slice_of_length_le {a b : ℕ} {l : List α} (h : l.length ≤ a) : slice a b l = [] := by
  rw [slice, List.drop_eq_nil_iff, List.length_take]
  omega

end Slice

end Redis

