import Mathlib.Data.List.Basic

/-!
# Searching a text for a character

A text is a list of characters of some type, and positions are indices into it. `indexOf` and
`lastIndexOf` look for a character from a position on, forwards and backwards; what they find is
said through the parts of the text before and after it.
-/

namespace Text

variable {α : Type} [DecidableEq α] {l x y front : List α} {a : α} {n : ℕ}

/-- The first position of a character from a position on. -/
def indexOf (l : List α) (a : α) (start : ℕ) : Option ℕ :=
  ((l.drop start).idxOf? a).map (start + ·)

/-- The last position of a character up to a position. -/
def lastIndexOf (l : List α) (a : α) (upTo : ℕ) : Option ℕ :=
  let read := l.take (upTo + 1)
  (read.reverse.idxOf? a).map fun i => read.length - 1 - i

theorem idxOf?_append_cons (hx : a ∉ x) : (x ++ a :: y).idxOf? a = some x.length := by
  rw [List.idxOf?_eq_some_iff]
  refine ⟨by simp, by simp, fun j hj => ?_⟩
  rw [List.getElem_append_left hj]
  have hne : x[j] ≠ a := fun heq => hx (heq ▸ List.getElem_mem hj)
  simpa using hne

theorem indexOf_eq_none : indexOf (front ++ l) a front.length = none ↔ a ∉ l := by
  rw [indexOf, List.drop_left, Option.map_eq_none_iff, List.idxOf?_eq_none_iff]

/-- The first occurrence after a part that has been read. -/
theorem indexOf_append (hx : a ∉ x) :
    indexOf (front ++ (x ++ a :: y)) a front.length = some (front.length + x.length) := by
  rw [indexOf, List.drop_left, idxOf?_append_cons hx]
  rfl

/-- The last occurrence in the part that is read. -/
theorem lastIndexOf_append (hn : x.length ≤ n) (hy : a ∉ y.take (n - x.length)) :
    lastIndexOf (x ++ a :: y) a n = some x.length := by
  have hread : (x ++ a :: y).take (n + 1) = x ++ a :: y.take (n - x.length) := by
    rw [List.take_append, List.take_of_length_le (by omega), Nat.sub_add_comm hn,
      List.take_succ_cons]
  have hrev : (x ++ a :: y.take (n - x.length)).reverse =
      (y.take (n - x.length)).reverse ++ a :: x.reverse := by simp
  rw [lastIndexOf, hread, hrev, idxOf?_append_cons (by rwa [List.mem_reverse]), Option.map_some]
  simp only [List.length_append, List.length_cons, List.length_reverse]
  congr 1
  omega

end Text
