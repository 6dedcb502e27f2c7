import BullMQ.Model.GetJobs

/-!
# Paging through failed children

`getDependencies` asks for the failed children from the cursor up to the index `count - 1`, whatever
the cursor is. The first page is right, and every later one is empty (`failedDependencies_page`), so
that a client which follows the cursors sees all children exactly if one page holds them
(`failedPages_complete_iff`).
-/

namespace BullMQ

open Redis

/-- The pages have at most so many keys each, and all of them together list the failed children. -/
def PagesComplete (p jobId : String) (count : ℤ) (s : Store) : Prop :=
  (∀ n, ∀ page ∈ failedPages p jobId count s n 0, (page.length : ℤ) ≤ count) ∧
    ∃ N, ∀ n, N ≤ n →
      (failedPages p jobId count s n 0).flatten = (s .unsuccessful (p ++ jobId)).members

section Pages

variable {p jobId : String} {count : ℤ} {s : Store}

/-- The page of a cursor: the first `count` keys at the start, none further on. -/
theorem failedDependencies_page (hcount : 1 ≤ count) {cursor : ℤ} (hcursor : 0 ≤ cursor) :
    failedDependencies p jobId ⟨cursor, count⟩ s =
      some (((s .unsuccessful (p ++ jobId)).members.take count.toNat).drop cursor.toNat,
        cursor + count) := by
  have hne : cursor + count ≠ 0 := by omega
  have hstop : ¬ count - 1 < 0 := by omega
  simp only [failedDependencies, lrange, if_neg hne, if_neg (not_lt.mpr hcursor), if_neg hstop]
  split
  · next hlt =>
    have hle : count.toNat ≤ cursor.toNat := by omega
    rw [List.drop_eq_nil_of_le ((List.length_take_le _ _).trans hle)]
  · next hge =>
    have hlen : (count - 1 - cursor + 1).toNat = count.toNat - cursor.toNat := by omega
    rw [hlen, List.drop_take]

/-- From a later cursor on, every page is empty. -/
theorem flatten_failedPages_of_le (hcount : 1 ≤ count) (n : ℕ) {cursor : ℤ}
    (hcursor : count ≤ cursor) : (failedPages p jobId count s n cursor).flatten = [] := by
  induction n generalizing cursor with
  | zero => rfl
  | succ n ih =>
    have hle : count.toNat ≤ cursor.toNat := Int.toNat_le_toNat hcursor
    rw [failedPages, failedDependencies_page hcount (by omega)]
    simp only [List.flatten_cons]
    rw [ih (by omega), List.drop_eq_nil_of_le ((List.length_take_le _ _).trans hle)]
    rfl

theorem flatten_failedPages (hcount : 1 ≤ count) (n : ℕ) :
    (failedPages p jobId count s (n + 1) 0).flatten =
      (s .unsuccessful (p ++ jobId)).members.take count.toNat := by
  rw [failedPages, failedDependencies_page hcount le_rfl]
  simp only [List.flatten_cons]
  rw [flatten_failedPages_of_le hcount n (by omega)]
  simp

theorem length_page_le (hcount : 1 ≤ count) (n : ℕ) {cursor : ℤ} (hcursor : 0 ≤ cursor) :
    ∀ page ∈ failedPages p jobId count s n cursor, (page.length : ℤ) ≤ count := by
  induction n generalizing cursor with
  | zero =>
    intro page hpage
    cases hpage
  | succ n ih =>
    intro page hpage
    rw [failedPages, failedDependencies_page hcount hcursor] at hpage
    obtain rfl | htail := List.mem_cons.mp hpage
    · have hlen : (((s .unsuccessful (p ++ jobId)).members.take count.toNat).drop
          cursor.toNat).length ≤ count.toNat := by
        rw [List.length_drop]
        exact (Nat.sub_le _ _).trans (List.length_take_le _ _)
      omega
    · exact ih (by omega) page htail

/-- Following the cursors lists the failed children exactly if one page holds them all. -/
theorem failedPages_complete_iff (hcount : 1 ≤ count) :
    PagesComplete p jobId count s ↔
      ((s .unsuccessful (p ++ jobId)).members.length : ℤ) ≤ count := by
  constructor
  · rintro ⟨-, N, hN⟩
    have hall := hN (N + 1) (Nat.le_succ N)
    rw [flatten_failedPages hcount N, List.take_eq_self_iff] at hall
    omega
  · intro hlen
    refine ⟨fun n => length_page_le hcount n le_rfl, 1, fun n hn => ?_⟩
    obtain ⟨m, rfl⟩ := Nat.exists_eq_add_of_le' hn
    rw [flatten_failedPages hcount m]
    exact List.take_of_length_le (by omega)

end Pages

/-- A job with failed children. -/
def withFailed (keys : List String) : Store :=
  Store.empty.set .unsuccessful "bull:q:1" (keys.foldl (fun z k => z.zadd 0 k) ∅)

theorem one_page_complete :
    (1 : ℤ) ≤ 2 ∧ PagesComplete "bull:q:" "1" 2 (withFailed ["bull:q:2", "bull:q:3"]) :=
  ⟨by decide, (failedPages_complete_iff (by decide)).mpr (by decide)⟩

/-- Of two failed children, a client with pages of one key sees the first only. -/
theorem second_page_missed :
    failedPages "bull:q:" "1" 1 (withFailed ["bull:q:2", "bull:q:3"]) 3 0 =
        [["bull:q:2"], [], []] ∧
      ¬ PagesComplete "bull:q:" "1" 1 (withFailed ["bull:q:2", "bull:q:3"]) := by
  refine ⟨by decide, fun h => ?_⟩
  obtain ⟨-, N, hN⟩ := h
  have hall := hN (N + 1) (Nat.le_succ N)
  rw [flatten_failedPages (by decide) N] at hall
  revert hall
  decide

end BullMQ
