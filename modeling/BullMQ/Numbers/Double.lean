import Mathlib.Tactic.Linarith
import Mathlib.Data.Nat.Log

/-!
# Integers as doubles

Arithmetic of integers in double precision: the result of an operation is rounded to 53 significant
bits, halves to the even neighbour (`toDouble`). A sum, difference or product that lies between
`-2 ^ 53` and `2 ^ 53` is exact, and rounding keeps the sign. Overflow to the infinities is out of
scope: it begins at `2 ^ 1024`.
-/

namespace Numbers

/-- A number over a positive unit, to the nearest integer; a half goes to the even one. -/
def divRound (n unit : ℤ) : ℤ :=
  if 2 * (n % unit) < unit ∨ 2 * (n % unit) = unit ∧ n / unit % 2 = 0 then n / unit
  else n / unit + 1

/-- The distance of the doubles around a number, where they are integers. -/
def spacing (n : ℤ) : ℤ := 2 ^ (n.natAbs.log2 - 52)

/-- The double nearest to an integer. -/
def toDouble (n : ℤ) : ℤ := divRound n (spacing n) * spacing n

theorem spacing_pos (n : ℤ) : 0 < spacing n := Int.pow_pos (by decide)

theorem spacing_le {n : ℤ} (h : n ≠ 0) : spacing n ≤ |n| := by
  have hlog : 2 ^ n.natAbs.log2 ≤ n.natAbs := Nat.log2_self_le (by omega)
  have hpow : 2 ^ (n.natAbs.log2 - 52) ≤ 2 ^ n.natAbs.log2 :=
    Nat.pow_le_pow_right (by decide) (Nat.sub_le _ _)
  rw [spacing, Int.abs_eq_natAbs]
  exact_mod_cast hpow.trans hlog

theorem spacing_eq_one {n : ℤ} (h : n.natAbs < 2 ^ 53) : spacing n = 1 := by
  have hlog : n.natAbs.log2 < 53 := by
    by_cases hn : n.natAbs = 0
    · rw [hn]
      decide
    · exact (Nat.log2_lt hn).mpr h
  have hexp : n.natAbs.log2 - 52 = 0 := by omega
  rw [spacing, hexp, pow_zero]

/-- Rounding moves a number by half a unit at most. -/
theorem two_mul_divRound_mul_le {unit : ℤ} (h : 0 < unit) (n : ℤ) :
    2 * (divRound n unit * unit) ≤ 2 * n + unit := by
  have hdiv := Int.mul_ediv_add_emod n unit
  have hmod := Int.emod_nonneg n h.ne'
  unfold divRound
  split
  · nlinarith
  · next hround =>
    have hhalf : unit ≤ 2 * (n % unit) := by
      by_contra hlt
      exact hround (.inl (by omega))
    nlinarith

theorem divRound_one (n : ℤ) : divRound n 1 = n := by
  simp [divRound]

/-- **Small integers are doubles.** -/
theorem toDouble_of_mem {n : ℤ} (hlo : -2 ^ 53 ≤ n) (hhi : n ≤ 2 ^ 53) : toDouble n = n := by
  by_cases hlt : n.natAbs < 2 ^ 53
  · rw [toDouble, spacing_eq_one hlt, divRound_one, mul_one]
  · obtain rfl | rfl : n = 2 ^ 53 ∨ n = -2 ^ 53 := by omega
    · decide
    · decide

/-- Rounding does not reach zero from below. -/
theorem toDouble_neg {n : ℤ} (h : n < 0) : toDouble n < 0 := by
  have hround := two_mul_divRound_mul_le (spacing_pos n) n
  have hspacing := spacing_le h.ne
  rw [abs_of_neg h] at hspacing
  rw [toDouble]
  omega

end Numbers
