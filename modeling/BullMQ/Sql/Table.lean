import Mathlib.Data.List.Nodup

/-!
# Tables with a primary key

A `Table κ α` lists rows of type `α` under keys of type `κ`, each key once. The order of the rows is
the physical one, which statements without an order read. What a statement does to a row is said
through `find`, the row under a key.
-/

namespace Sql

/-- Rows under distinct keys. -/
structure Table (κ α : Type) where
  rows : List (κ × α)
  nodup : (rows.map Prod.fst).Nodup

namespace Table

variable {κ α : Type}

instance : EmptyCollection (Table κ α) := ⟨⟨[], List.nodup_nil⟩⟩

/-- `UPDATE … SET … WHERE`. -/
def update (t : Table κ α) (cond : κ → α → Bool) (f : α → α) : Table κ α where
  rows := t.rows.map fun r => (r.1, if cond r.1 r.2 then f r.2 else r.2)
  nodup := by
    rw [List.map_map]
    exact t.nodup

/-- `DELETE … WHERE`. -/
def delete (t : Table κ α) (cond : κ → α → Bool) : Table κ α where
  rows := t.rows.filter fun r => !cond r.1 r.2
  nodup := t.nodup.sublist (List.filter_sublist.map _)

/-- `SELECT … WHERE`. -/
def select (t : Table κ α) (cond : κ → α → Bool) : List (κ × α) :=
  t.rows.filter fun r => cond r.1 r.2

variable [DecidableEq κ]

/-- The row under a key. -/
def find (t : Table κ α) (k : κ) : Option α :=
  (t.rows.find? fun r => decide (r.1 = k)).map Prod.snd

/-- `UPDATE` of the row under a key. -/
def updateKey (t : Table κ α) (k : κ) (f : α → α) : Table κ α :=
  t.update (fun k' _ => decide (k' = k)) f

/-- `DELETE` of the row under a key. -/
def deleteKey (t : Table κ α) (k : κ) : Table κ α := t.delete fun k' _ => decide (k' = k)

variable {t : Table κ α} {k k' : κ} {a : α}

theorem find_eq_some : t.find k = some a ↔ (k, a) ∈ t.rows := by
  simp only [find, Option.map_eq_some_iff]
  constructor
  · rintro ⟨r, hr, rfl⟩
    obtain rfl : r.1 = k := by simpa using List.find?_some hr
    exact List.mem_of_find?_eq_some hr
  · intro hmem
    obtain ⟨r, hr⟩ : ∃ r, (t.rows.find? fun r => decide (r.1 = k)) = some r := by
      rw [← Option.isSome_iff_exists, List.find?_isSome]
      exact ⟨_, hmem, by simp⟩
    obtain rfl : r.1 = k := by simpa using List.find?_some hr
    refine ⟨r, hr, ?_⟩
    have heq := List.inj_on_of_nodup_map t.nodup (List.mem_of_find?_eq_some hr) hmem rfl
    rw [heq]

theorem find_eq_none : t.find k = none ↔ ∀ a, (k, a) ∉ t.rows := by
  rw [Option.eq_none_iff_forall_ne_some]
  exact forall_congr' fun a => not_congr find_eq_some

/-- `INSERT … ON CONFLICT DO NOTHING`. -/
def insert (t : Table κ α) (k : κ) (a : α) : Table κ α :=
  if h : t.find k = none then
    ⟨t.rows ++ [(k, a)], by
      rw [List.map_append, List.nodup_append]
      refine ⟨t.nodup, by simp, fun x hx y hy hxy => ?_⟩
      obtain ⟨r, hr, rfl⟩ := List.mem_map.mp hx
      obtain rfl : y = k := by simpa using hy
      exact find_eq_none.mp h r.2 (hxy ▸ hr)⟩
  else t

/-- `INSERT … ON CONFLICT DO UPDATE`. -/
def upsert (t : Table κ α) (k : κ) (a : α) (f : α → α) : Table κ α :=
  if t.find k = none then t.insert k a else t.updateKey k f

@[simp]
theorem find_empty (k : κ) : (∅ : Table κ α).find k = none := rfl

theorem find_update (t : Table κ α) (cond : κ → α → Bool) (f : α → α) (k : κ) :
    (t.update cond f).find k = (t.find k).map fun a => if cond k a then f a else a := by
  ext b
  rw [find_eq_some, Option.map_eq_some_iff]
  simp only [update, List.mem_map, find_eq_some]
  constructor
  · rintro ⟨⟨k', a⟩, hr, heq⟩
    obtain ⟨rfl, rfl⟩ := Prod.mk.inj heq
    exact ⟨a, hr, rfl⟩
  · rintro ⟨a, hr, rfl⟩
    exact ⟨(k, a), hr, rfl⟩

theorem find_delete (t : Table κ α) (cond : κ → α → Bool) (k : κ) :
    (t.delete cond).find k = (t.find k).filter fun a => !cond k a := by
  ext b
  rw [find_eq_some, Option.filter_eq_some_iff, find_eq_some]
  simp [delete]

theorem find_updateKey (t : Table κ α) (k k' : κ) (f : α → α) :
    (t.updateKey k f).find k' = if k' = k then (t.find k').map f else t.find k' := by
  rw [updateKey, find_update]
  by_cases h : k' = k <;> simp [h]

theorem find_deleteKey (t : Table κ α) (k k' : κ) :
    (t.deleteKey k).find k' = if k' = k then none else t.find k' := by
  rw [deleteKey, find_delete]
  by_cases h : k' = k
  · simp [h]
  · cases t.find k' <;> simp [h]

theorem find_insert (t : Table κ α) (k k' : κ) (a : α) :
    (t.insert k a).find k' = if k' = k then some ((t.find k).getD a) else t.find k' := by
  ext b
  unfold insert
  split
  · next hnone =>
    rw [find_eq_some, hnone]
    by_cases h : k' = k
    · subst h
      have habs := find_eq_none.mp hnone b
      simp [habs, eq_comm]
    · simp [h, find_eq_some]
  · next hsome =>
    obtain ⟨a', ha'⟩ := Option.ne_none_iff_exists'.mp hsome
    by_cases h : k' = k
    · subst h
      simp [ha']
    · simp [h]

theorem find_upsert (t : Table κ α) (k k' : κ) (a : α) (f : α → α) :
    (t.upsert k a f).find k' = if k' = k then some ((t.find k).elim a f) else t.find k' := by
  unfold upsert
  split
  · next hnone => rw [find_insert, hnone]; rfl
  · next hsome =>
    obtain ⟨a', ha'⟩ := Option.ne_none_iff_exists'.mp hsome
    rw [find_updateKey]
    by_cases h : k' = k
    · subst h
      simp [ha']
    · simp [h]

theorem mem_select {cond : κ → α → Bool} : (k, a) ∈ t.select cond ↔ t.find k = some a ∧
    cond k a := by
  rw [find_eq_some, select, List.mem_filter]

end Table

end Sql
