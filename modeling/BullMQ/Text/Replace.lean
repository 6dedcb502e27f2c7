import Mathlib.Data.List.Infix
import Mathlib.Data.Set.Defs

/-!
# Replacing a word in a text

`splitFirst` finds the first occurrence of a word and `replaceAll` replaces each of them, from left
to right. Where the characters of a class `P` separate the parts of a text and a word does not go
over a separator, its occurrences are those in the parts.
-/

namespace Text

variable {α : Type} [DecidableEq α] {P : α → Prop} {w x y z r : List α} {d : α}

/-- The parts of a text before and after the first occurrence of a word. -/
def splitFirst (w : List α) : List α → Option (List α × List α)
  | [] => if w = [] then some ([], []) else none
  | a :: l =>
    if w <+: a :: l then some ([], (a :: l).drop w.length)
    else (splitFirst w l).map fun parts => (a :: parts.1, parts.2)

/-- Replaces each occurrence of a word after the first `skip` characters, which are left out. -/
def replaceAll (w r : List α) : ℕ → List α → List α
  | _, [] => []
  | skip + 1, _ :: l => replaceAll w r skip l
  | 0, a :: l =>
    if w <+: a :: l then r ++ replaceAll w r (w.length - 1) l else a :: replaceAll w r 0 l

theorem splitFirst_self_append (w y : List α) : splitFirst w (w ++ y) = some ([], y) := by
  cases w with
  | nil => cases y <;> simp [splitFirst]
  | cons a w =>
    have h : a :: w <+: a :: (w ++ y) := List.prefix_append (a :: w) y
    simp [splitFirst, h]

theorem splitFirst_cons_of_not_prefix {a : α} {l : List α} (h : ¬ w <+: a :: l) :
    splitFirst w (a :: l) = (splitFirst w l).map fun parts => (a :: parts.1, parts.2) :=
  if_neg h

/-- A word that is in a text is found there or before. -/
theorem splitFirst_of_mem (w x y : List α) :
    ∃ front back, splitFirst w (x ++ (w ++ y)) = some (front, back) ∧
      x ++ (w ++ y) = front ++ (w ++ back) ∧ front.length ≤ x.length := by
  induction x with
  | nil => exact ⟨[], y, splitFirst_self_append w y, rfl, le_rfl⟩
  | cons a x ih =>
    by_cases hfronts : w <+: a :: (x ++ (w ++ y))
    · obtain ⟨back, hback⟩ := hfronts
      refine ⟨[], back, ?_, hback.symm, Nat.zero_le _⟩
      rw [List.cons_append, ← hback, splitFirst_self_append]
    · obtain ⟨front, back, hsplit, heq, hlength⟩ := ih
      refine ⟨a :: front, back, ?_, congrArg (a :: ·) heq, Nat.succ_le_succ hlength⟩
      rw [List.cons_append, splitFirst_cons_of_not_prefix hfronts, hsplit]
      rfl

theorem replaceAll_skip (w r x y : List α) :
    replaceAll w r x.length (x ++ y) = replaceAll w r 0 y := by
  induction x with
  | nil => rfl
  | cons a x ih => exact ih

theorem replaceAll_self_append (hw : w ≠ []) (r y : List α) :
    replaceAll w r 0 (w ++ y) = r ++ replaceAll w r 0 y := by
  obtain ⟨a, w, rfl⟩ := List.exists_cons_of_ne_nil hw
  have h : a :: w <+: a :: (w ++ y) := List.prefix_append (a :: w) y
  rw [List.cons_append, replaceAll, if_pos h, List.length_cons, Nat.add_sub_cancel, replaceAll_skip]

theorem replaceAll_of_not_infix (h : ¬ w <:+: x) (r : List α) : replaceAll w r 0 x = x := by
  induction x with
  | nil => rfl
  | cons a x ih =>
    rw [List.infix_cons_iff, not_or] at h
    rw [replaceAll, if_neg h.1, ih h.2]

/-! ### Separators -/

/-- The text is empty or ends with a separator. -/
def EndsAt (P : α → Prop) (x : List α) : Prop := ∀ a ∈ x.getLast?, P a

/-- The text is empty or starts with a separator. -/
def StartsAt (P : α → Prop) (x : List α) : Prop := ∀ a ∈ x.head?, P a

/-- In the word `w` the character `d` does not come after a separator. -/
def NotAfter (P : α → Prop) (d : α) (w : List α) : Prop :=
  ∀ u v, w = u ++ d :: v → ∀ a ∈ u, ¬ P a

omit [DecidableEq α] in
theorem endsAt_nil : EndsAt P ([] : List α) := by simp [EndsAt]

omit [DecidableEq α] in
theorem startsAt_nil : StartsAt P ([] : List α) := by simp [StartsAt]

omit [DecidableEq α] in
theorem EndsAt.tail {a : α} (h : EndsAt P (a :: x)) : EndsAt P x := by
  cases x with
  | nil => exact endsAt_nil
  | cons b x => simpa [EndsAt] using h

omit [DecidableEq α] in
theorem EndsAt.of_append (h : EndsAt P (x ++ y)) : EndsAt P y := by
  by_cases hy : y = []
  · rw [hy]
    exact endsAt_nil
  · rwa [EndsAt, List.getLast?_append_of_ne_nil x hy] at h

omit [DecidableEq α] in
theorem EndsAt.exists_mem (h : EndsAt P x) (hx : x ≠ []) : ∃ a ∈ x, P a :=
  ⟨x.getLast hx, List.getLast_mem hx, h _ (List.getLast?_eq_some_getLast hx)⟩

omit [DecidableEq α] in
theorem EndsAt.append (h : EndsAt P y) (hx : y = [] → EndsAt P x) : EndsAt P (x ++ y) := by
  by_cases hy : y = []
  · rw [hy, List.append_nil]
    exact hx hy
  · rw [EndsAt, List.getLast?_append_of_ne_nil x hy]
    exact h

omit [DecidableEq α] in
theorem StartsAt.append (h : StartsAt P x) (hy : x = [] → StartsAt P y) : StartsAt P (x ++ y) := by
  cases x with
  | nil => exact hy rfl
  | cons a x => simpa [StartsAt] using h

omit [DecidableEq α] in
/-- A word without separators. -/
theorem notAfter_of_free (h : ∀ a ∈ w, ¬ P a) : NotAfter P d w := by
  rintro u v rfl a ha
  exact h a (List.mem_append_left _ ha)

omit [DecidableEq α] in
/-- A word whose first part has no separators, and whose other part does not have the character. -/
theorem notAfter_append (hx : ∀ a ∈ x, ¬ P a) (hy : d ∉ y) : NotAfter P d (x ++ y) := by
  intro u v heq a ha
  obtain ⟨mid, rfl, hmid⟩ | ⟨mid, rfl, hmid⟩ := List.append_eq_append_iff.mp heq
  · exact absurd (hmid ▸ by simp : d ∈ y) hy
  · exact hx a (List.mem_append_left _ ha)

omit [DecidableEq α] in
theorem prefix_of_prefix_append (hw : NotAfter P d w) (hx : ∃ a ∈ x, P a)
    (h : w <+: x ++ d :: y) : w <+: x := by
  obtain hfronts | ⟨v, rfl⟩ := List.prefix_or_prefix_of_prefix h (List.prefix_append x (d :: y))
  · exact hfronts
  · rw [List.prefix_append_right_inj] at h
    cases v with
    | nil => simp
    | cons b v =>
      obtain ⟨a, ha, hP⟩ := hx
      obtain rfl : b = d := (List.cons_prefix_cons.mp h).1
      exact absurd hP (hw x v rfl a ha)

omit [DecidableEq α] in
theorem infix_append_of_endsAt (hw : NotAfter P d w) (hx : EndsAt P x)
    (h : w <:+: x ++ d :: y) : w <:+: x ∨ w <:+: d :: y := by
  induction x with
  | nil => exact .inr h
  | cons a x ih =>
    rw [List.cons_append, List.infix_cons_iff] at h
    obtain hfronts | hocc := h
    · have hmem := hx.exists_mem (List.cons_ne_nil a x)
      exact .inl (prefix_of_prefix_append hw hmem hfronts).isInfix
    · exact (ih hx.tail hocc).imp_left fun h => List.infix_cons_iff.mpr (.inr h)

omit [DecidableEq α] in
theorem prefix_of_append_startsAt (hw : ∀ a ∈ w, ¬ P a) (hy : StartsAt P y)
    (h : w <+: x ++ y) : w <+: x := by
  obtain hfronts | ⟨v, rfl⟩ := List.prefix_or_prefix_of_prefix h (List.prefix_append x y)
  · exact hfronts
  · rw [List.prefix_append_right_inj] at h
    cases v with
    | nil => simp
    | cons b v =>
      obtain ⟨y', rfl⟩ := h
      exact absurd (hy b (by simp)) (hw b (by simp))

omit [DecidableEq α] in
theorem infix_append_of_startsAt (hw : ∀ a ∈ w, ¬ P a) (hy : StartsAt P y)
    (h : w <:+: x ++ y) : w <:+: x ∨ w <:+: y := by
  induction x with
  | nil => exact .inr h
  | cons a x ih =>
    rw [List.cons_append, List.infix_cons_iff] at h
    obtain hfronts | hocc := h
    · exact .inl (prefix_of_append_startsAt (x := a :: x) hw hy hfronts).isInfix
    · exact (ih hocc).imp_left fun h => List.infix_cons_iff.mpr (.inr h)

omit [DecidableEq α] in
/-- A word between two parts at separators is in one of the three. -/
theorem infix_append_append (hw : ∀ a ∈ w, ¬ P a) (hx : EndsAt P x) (hz : StartsAt P z)
    (h : w <:+: x ++ y ++ z) : w <:+: x ∨ w <:+: y ∨ w <:+: z := by
  obtain h | h := infix_append_of_startsAt hw hz h
  · cases y with
    | nil => exact .inl (by rwa [List.append_nil] at h)
    | cons d y => exact (infix_append_of_endsAt (notAfter_of_free hw) hx h).imp_right .inl
  · exact .inr (.inr h)

/-- A text in which no word of a set occurs. -/
def Avoids (W : Set (List α)) (x : List α) : Prop := ∀ w ∈ W, ¬ w <:+: x

omit [DecidableEq α] in
theorem Avoids.append {W : Set (List α)} (hW : ∀ w ∈ W, ∀ a ∈ w, ¬ P a) (hx : Avoids W x)
    (hy : Avoids W y) (h : EndsAt P x ∨ StartsAt P y) : Avoids W (x ++ y) := by
  intro w hw hocc
  obtain h | h := h
  · cases y with
    | nil => exact hx w hw (by rwa [List.append_nil] at hocc)
    | cons d y =>
      exact (infix_append_of_endsAt (notAfter_of_free (hW w hw)) h hocc).elim (hx w hw) (hy w hw)
  · exact (infix_append_of_startsAt (hW w hw) h hocc).elim (hx w hw) (hy w hw)

theorem splitFirst_append (hw : NotAfter P d w) (hx : EndsAt P x) (hnot : ¬ w <:+: x) :
    splitFirst w (x ++ d :: y) =
      (splitFirst w (d :: y)).map fun parts => (x ++ parts.1, parts.2) := by
  induction x with
  | nil => simp
  | cons a x ih =>
    have hfronts : ¬ w <+: a :: (x ++ d :: y) := fun h =>
      hnot (prefix_of_prefix_append hw (hx.exists_mem (List.cons_ne_nil a x)) h).isInfix
    rw [List.infix_cons_iff, not_or] at hnot
    rw [List.cons_append, splitFirst_cons_of_not_prefix hfronts, ih hx.tail hnot.2, Option.map_map]
    rfl

/-- A part without the first character of a word. -/
theorem splitFirst_append_of_not_mem (hx : d ∉ x) (w y : List α) :
    splitFirst (d :: w) (x ++ y) =
      (splitFirst (d :: w) y).map fun parts => (x ++ parts.1, parts.2) := by
  induction x with
  | nil => simp
  | cons a x ih =>
    rw [List.mem_cons, not_or] at hx
    have hfronts : ¬ d :: w <+: a :: (x ++ y) := fun h => hx.1 (List.cons_prefix_cons.mp h).1
    rw [List.cons_append, splitFirst_cons_of_not_prefix hfronts, ih hx.2, Option.map_map]
    rfl

/-- The first occurrence of a word that a part at a separator does not have. -/
theorem splitFirst_append_self (hw : ∀ a ∈ w, ¬ P a) (hne : w ≠ []) (hx : EndsAt P x)
    (hnot : ¬ w <:+: x) (y : List α) : splitFirst w (x ++ (w ++ y)) = some (x, y) := by
  obtain ⟨d, w, rfl⟩ := List.exists_cons_of_ne_nil hne
  rw [List.cons_append, splitFirst_append (notAfter_of_free hw) hx hnot, ← List.cons_append,
    splitFirst_self_append]
  simp

/-- Such a word is left out of the text. -/
theorem replaceAll_append_self (hw : ∀ a ∈ w, ¬ P a) (hne : w ≠ []) (hx : EndsAt P x)
    (hnot : ¬ w <:+: x) (hy : ¬ w <:+: y) (r : List α) :
    replaceAll w r 0 (x ++ (w ++ y)) = x ++ r ++ y := by
  induction x with
  | nil => rw [List.nil_append, replaceAll_self_append hne, replaceAll_of_not_infix hy,
      List.nil_append]
  | cons a x ih =>
    have hfronts : ¬ w <+: a :: (x ++ (w ++ y)) := by
      intro h
      obtain ⟨d, w, rfl⟩ := List.exists_cons_of_ne_nil hne
      exact hnot (prefix_of_prefix_append (notAfter_of_free hw)
        (hx.exists_mem (List.cons_ne_nil a x)) h).isInfix
    rw [List.infix_cons_iff, not_or] at hnot
    rw [List.cons_append, replaceAll, if_neg hfronts, ih hx.tail hnot.2]
    rfl

end Text
