import BullMQ.Sql.Table

/-!
# Rows with a property

How statements treat the rows of a table that have a property: `RowsFrom P t t'` says that such rows
of `t'` come from such rows of `t` under the same keys, `RowsStay P t t'` that those of `t` stay in
`t'`. Both compose, so that what a function does follows from its statements.
-/

namespace Sql.Table

variable {κ α : Type} [DecidableEq κ] {P : κ → α → Prop} {t t' t'' : Table κ α} {k : κ} {a : α}

/-- The rows with a property come from rows with it. -/
def RowsFrom (P : κ → α → Prop) (t t' : Table κ α) : Prop :=
  ∀ k a, t'.find k = some a → P k a → ∃ b, t.find k = some b ∧ P k b

/-- The rows with a property stay, with the property. -/
def RowsStay (P : κ → α → Prop) (t t' : Table κ α) : Prop :=
  ∀ k a, t.find k = some a → P k a → ∃ b, t'.find k = some b ∧ P k b

namespace RowsFrom

theorem refl (t : Table κ α) : RowsFrom P t t := fun _ a ha hP => ⟨a, ha, hP⟩

theorem trans (h : RowsFrom P t t') (h' : RowsFrom P t' t'') : RowsFrom P t t'' := by
  intro k a ha hP
  obtain ⟨b, hb, hP'⟩ := h' k a ha hP
  exact h k b hb hP'

theorem update (t : Table κ α) {cond : κ → α → Bool} {f : α → α}
    (h : ∀ k a, t.find k = some a → cond k a = true → P k (f a) → P k a) :
    RowsFrom P t (t.update cond f) := by
  intro k a ha hP
  rw [find_update] at ha
  obtain ⟨b, hb, rfl⟩ := Option.map_eq_some_iff.mp ha
  refine ⟨b, hb, ?_⟩
  split at hP
  · next hcond => exact h k b hb hcond hP
  · exact hP

theorem updateKey (t : Table κ α) (k : κ) {f : α → α}
    (h : ∀ a, t.find k = some a → P k (f a) → P k a) : RowsFrom P t (t.updateKey k f) :=
  update t fun k' a ha hk hP => by
    obtain rfl : k' = k := by simpa using hk
    exact h a ha hP

theorem delete (t : Table κ α) (cond : κ → α → Bool) : RowsFrom P t (t.delete cond) := by
  intro k a ha hP
  rw [find_delete, Option.filter_eq_some_iff] at ha
  exact ⟨a, ha.1, hP⟩

/-- Statements in a loop. -/
theorem foldl {β γ : Type} (table : γ → Table κ α) {step : γ → β → γ}
    (h : ∀ c b, RowsFrom P (table c) (table (step c b))) (bs : List β) (c : γ) :
    RowsFrom P (table c) (table (bs.foldl step c)) := by
  induction bs generalizing c with
  | nil => exact refl _
  | cons b bs ih => exact (h c b).trans (ih (step c b))

end RowsFrom

namespace RowsStay

theorem refl (t : Table κ α) : RowsStay P t t := fun _ a ha hP => ⟨a, ha, hP⟩

theorem trans (h : RowsStay P t t') (h' : RowsStay P t' t'') : RowsStay P t t'' := by
  intro k a ha hP
  obtain ⟨b, hb, hP'⟩ := h k a ha hP
  exact h' k b hb hP'

theorem update (t : Table κ α) {cond : κ → α → Bool} {f : α → α}
    (h : ∀ k a, t.find k = some a → cond k a = true → P k a → P k (f a)) :
    RowsStay P t (t.update cond f) := by
  intro k a ha hP
  refine ⟨_, by rw [find_update, ha]; rfl, ?_⟩
  dsimp only
  split
  · next hcond => exact h k a ha hcond hP
  · exact hP

theorem updateKey (t : Table κ α) (k : κ) {f : α → α}
    (h : ∀ a, t.find k = some a → P k a → P k (f a)) : RowsStay P t (t.updateKey k f) :=
  update t fun k' a ha hk hP => by
    obtain rfl : k' = k := by simpa using hk
    exact h a ha hP

theorem delete (t : Table κ α) {cond : κ → α → Bool}
    (h : ∀ k a, t.find k = some a → P k a → cond k a = false) : RowsStay P t (t.delete cond) := by
  intro k a ha hP
  refine ⟨a, ?_, hP⟩
  rw [find_delete, Option.filter_eq_some_iff]
  exact ⟨ha, by simp [h k a ha hP]⟩

theorem insert (t : Table κ α) (k : κ) (a : α) : RowsStay P t (t.insert k a) := by
  intro k' b hb hP
  refine ⟨b, ?_, hP⟩
  rw [find_insert]
  split
  · next hk =>
    subst hk
    rw [hb]
    rfl
  · exact hb

/-- Statements in a loop. -/
theorem foldl {β γ : Type} (table : γ → Table κ α) {step : γ → β → γ}
    (h : ∀ c b, RowsStay P (table c) (table (step c b))) (bs : List β) (c : γ) :
    RowsStay P (table c) (table (bs.foldl step c)) := by
  induction bs generalizing c with
  | nil => exact refl _
  | cons b bs ih => exact (h c b).trans (ih (step c b))

end RowsStay

end Sql.Table
