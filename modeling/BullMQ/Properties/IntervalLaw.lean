import Mathlib.Data.Int.ConditionallyCompleteOrder
import Mathlib.Data.Int.ModEq
import Mathlib.Order.Interval.Set.Basic
import BullMQ.Properties.SchedulerAgreement

/-!
# The interval law of job schedulers

`getJobSchedulerEveryNextMillis` has four branches: the first run, with and without a start date,
the run that is one interval after the last one, and the catch-up after missed runs. `IntervalLaw`
says what each of them returns. The runs of a scheduler that starts on its phase stay on it, and no
two of them are at the same time (`every_lawful`).
-/

namespace BullMQ

/-- What the next time and the offset of a scheduler are. -/
structure IntervalLaw (prev : Option ℤ) (every now offset : ℤ) (start : Option ℤ) (r : ℤ × ℤ) :
    Prop where
  /-- The run after the last one, unless it is in the past. -/
  next : ∀ m, prev = some m → now ≤ m + every → r.1 = m + every
  /-- After missed runs, the next time on the phase. -/
  caughtUp : ∀ m, prev = some m → m + every < now →
    r.1 ∈ Set.Ioc now (now + every) ∧ r.1 ≡ offset [ZMOD every]
  /-- The first run without a start date waits for the phase. -/
  first : prev = none → start = none → 0 < offset →
    r.1 ∈ Set.Ioc now (now + every) ∧ r.1 ≡ offset [ZMOD every]
  /-- The first run with a start date is at that date. -/
  started : ∀ date, prev = none → start = some date → r.1 = max date now
  later : ∀ m, prev = some m → m < r.1
  notBefore : now ≤ r.1
  offsetMem : r.2 ∈ Set.Ico 0 every
  offsetEq : offset = 0 → r.2 = r.1 % every

/-- The times of the runs that follow a run, one for every clock. -/
def everyRuns (every offset : ℤ) (start : Option ℤ) : ℤ → List ℤ → List ℤ
  | _, [] => []
  | m, now :: clocks =>
    let next := (getJobSchedulerEveryNextMillis (some m) every now offset start).1
    next :: everyRuns every offset start next clocks

section Law

variable {every offset : ℤ}

theorem slotStart_modEq (every m : ℤ) : slotStart m every ≡ 0 [ZMOD every] :=
  Int.modEq_zero_iff_dvd.mpr (Dvd.intro_left _ rfl)

/-- The time on the phase in the slot of a clock, or the one after it. -/
def alignedAfter (now every offset : ℤ) : ℤ :=
  if slotStart now every + offset ≤ now then slotStart now every + offset + every
  else slotStart now every + offset

theorem alignedAfter_mem (hevery : 0 < every) (hoffset : 0 ≤ offset) (hlt : offset < every)
    (now : ℤ) : alignedAfter now every offset ∈ Set.Ioc now (now + every) := by
  have hstart := slotStart_le hevery now
  have hend := lt_slotStart_add hevery now
  unfold alignedAfter
  split
  · constructor <;> omega
  · constructor <;> omega

theorem alignedAfter_modEq (now every offset : ℤ) :
    alignedAfter now every offset ≡ offset [ZMOD every] := by
  have hslot : slotStart now every + offset ≡ offset [ZMOD every] := by
    have h := (slotStart_modEq every now).add_right offset
    rwa [zero_add] at h
  unfold alignedAfter
  split
  · exact Int.add_modEq_right.trans hslot
  · exact hslot

/-- The next time of a scheduler that has run. -/
theorem next_of_prev (m now : ℤ) (start : Option ℤ) :
    (getJobSchedulerEveryNextMillis (some m) every now offset start).1 =
      if m + every < now then alignedAfter now every offset else m + every := rfl

/-- The first time of a scheduler. -/
theorem next_of_none (now : ℤ) (start : Option ℤ) :
    (getJobSchedulerEveryNextMillis none every now offset start).1 =
      match start with
      | some date => if now < date then date else now
      | none => if 0 < offset then alignedAfter now every offset else now := rfl

theorem sub_slotStart_eq_emod (hevery : 0 < every) (m : ℤ) :
    m - slotStart m every = m % every := by
  rw [slotStart, Int.fdiv_eq_ediv_of_nonneg _ hevery.le]
  have h := Int.mul_ediv_add_emod m every
  rw [mul_comm] at h
  omega

theorem intervalLaw (hevery : 0 < every) (hoffset : 0 ≤ offset) (hlt : offset < every)
    (prev : Option ℤ) (now : ℤ) (start : Option ℤ) :
    IntervalLaw prev every now offset start
      (getJobSchedulerEveryNextMillis prev every now offset start) := by
  have hmem := alignedAfter_mem hevery hoffset hlt now
  have hphase := alignedAfter_modEq now every offset
  have hsnd : (getJobSchedulerEveryNextMillis prev every now offset start).2 =
      if offset = 0 then (getJobSchedulerEveryNextMillis prev every now offset start).1 % every
      else offset := by
    rw [← sub_slotStart_eq_emod hevery]
    rfl
  -- In time, late, first without a start date, first with one, then the bounds and the offset.
  refine ⟨?_, ?_, ?_, ?_, ?_, ?_, ?_, ?_⟩
  · rintro m rfl hle
    rw [next_of_prev, if_neg (not_lt.mpr hle)]
  · rintro m rfl hmissed
    rw [next_of_prev, if_pos hmissed]
    exact ⟨hmem, hphase⟩
  · rintro rfl rfl hpos
    rw [next_of_none]
    simp only [if_pos hpos]
    exact ⟨hmem, hphase⟩
  · rintro date rfl rfl
    rw [next_of_none]
    dsimp only
    split <;> omega
  · rintro m rfl
    rw [next_of_prev]
    split
    · exact (show m < now by omega).trans hmem.1
    · omega
  · cases prev with
    | none =>
      rw [next_of_none]
      cases start with
      | none =>
        dsimp only
        split
        · exact hmem.1.le
        · exact le_rfl
      | some date =>
        dsimp only
        split <;> omega
    | some m =>
      rw [next_of_prev]
      split
      · exact hmem.1.le
      · omega
  · rw [hsnd]
    split
    · exact ⟨Int.emod_nonneg _ hevery.ne', Int.emod_lt_of_pos _ hevery⟩
    · exact ⟨hoffset, hlt⟩
  · intro hzero
    rw [hsnd, if_pos hzero]

/-- One run after another keeps the phase. -/
theorem next_modEq {m : ℤ} (hm : m ≡ offset [ZMOD every]) (now : ℤ) (start : Option ℤ) :
    (getJobSchedulerEveryNextMillis (some m) every now offset start).1 ≡ offset [ZMOD every] := by
  rw [next_of_prev]
  split
  · exact alignedAfter_modEq now every offset
  · exact Int.add_modEq_right.trans hm

theorem everyRuns_modEq (start : Option ℤ) (clocks : List ℤ) {m : ℤ}
    (hm : m ≡ offset [ZMOD every]) :
    ∀ t ∈ everyRuns every offset start m clocks, t ≡ offset [ZMOD every] := by
  induction clocks generalizing m with
  | nil =>
    intro t ht
    cases ht
  | cons now clocks ih =>
    intro t ht
    have hnext := next_modEq hm now start
    obtain rfl | ht := List.mem_cons.mp ht
    · exact hnext
    · exact ih hnext t ht

/-- Every run is after the ones before it. -/
theorem everyRuns_increasing (hevery : 0 < every) (hoffset : 0 ≤ offset) (hlt : offset < every)
    (start : Option ℤ) (clocks : List ℤ) (m : ℤ) :
    (m :: everyRuns every offset start m clocks).Pairwise (· < ·) := by
  rw [← List.isChain_iff_pairwise]
  induction clocks generalizing m with
  | nil => exact .singleton m
  | cons now clocks ih =>
    have hlater := (intervalLaw hevery hoffset hlt (some m) now start).later m rfl
    exact List.isChain_cons_cons.mpr ⟨hlater, ih _⟩

/-- The interval law, and what it gives for the runs of a scheduler. -/
theorem every_lawful (hevery : 0 < every) (hoffset : 0 ≤ offset) (hlt : offset < every) :
    (∀ prev now start, IntervalLaw prev every now offset start
      (getJobSchedulerEveryNextMillis prev every now offset start)) ∧
    ∀ start m clocks, m ≡ offset [ZMOD every] →
      (∀ t ∈ everyRuns every offset start m clocks, t ≡ offset [ZMOD every]) ∧
        (m :: everyRuns every offset start m clocks).Pairwise (· < ·) := by
  refine ⟨fun prev now start => intervalLaw hevery hoffset hlt prev now start, ?_⟩
  intro start m clocks hm
  exact ⟨everyRuns_modEq start clocks hm, everyRuns_increasing hevery hoffset hlt start clocks m⟩

theorem every_lawful_hundred :
    ((0 : ℤ) < 100 ∧ (0 : ℤ) ≤ 30 ∧ (30 : ℤ) < 100) ∧
      (everyRuns 100 30 none 130 [150, 470, 470]).Pairwise (· < ·) :=
  ⟨by decide, (((every_lawful (by decide) (by decide) (by decide)).2 none 130 [150, 470, 470]
    (by decide)).2).of_cons⟩

/-- With a start date, the first run does not wait for the phase. -/
theorem started_off_phase :
    ¬ ∀ (every offset now : ℤ) (prev start : Option ℤ), 0 < every → 0 ≤ offset → offset < every →
      0 ≤ now → prev = none → 0 < offset →
      (getJobSchedulerEveryNextMillis prev every now offset start).1 ∈ Set.Ioc now (now + every) ∧
        (getJobSchedulerEveryNextMillis prev every now offset start).1 ≡ offset [ZMOD every] := by
  intro h
  have hcase := (h 10 3 5 none (some 7) (by decide) (by decide) (by decide) (by decide) rfl
    (by decide)).2
  revert hcase
  decide

end Law

end BullMQ
