import Mathlib
/-!
# Rounding — to the nearest integer, half to even

A rational number rounds to the integer next to it, and to the even one where
two are equally near. For a fraction this is a condition on integers
(`roundsHalfEven_div_iff`).
-/

namespace Epiphany

/-- `n` is an integer nearest to `x`, and is even if `x` lies half way. -/
def RoundsHalfEven (x : ℚ) (n : ℤ) : Prop := |x - n| ≤ 1 / 2 ∧ (|x - n| = 1 / 2 → Even n)

/-- **Rounding has one result.** -/
theorem RoundsHalfEven.unique {x : ℚ} {m n : ℤ} (hm : RoundsHalfEven x m)
    (hn : RoundsHalfEven x n) : m = n := by
  have key : ∀ m n : ℤ, RoundsHalfEven x m → RoundsHalfEven x n → ¬ m < n := by
    intro m n hm hn hlt
    obtain ⟨hm1, hm2⟩ := abs_le.1 hm.1
    obtain ⟨hn1, hn2⟩ := abs_le.1 hn.1
    have hnext : (m : ℚ) + 1 ≤ n := by exact_mod_cast Int.add_one_le_iff.2 hlt
    -- both are at the distance of a half, so both are even, and they are neighbours
    have hxm : x - m = 1 / 2 := by linarith
    have hxn : x - n = -(1 / 2) := by linarith
    have heven : n = m + 1 := by
      have : (n : ℚ) = m + 1 := by linarith
      exact_mod_cast this
    obtain ⟨j, hj⟩ := hm.2 (by rw [hxm]; norm_num)
    obtain ⟨k, hk⟩ := hn.2 (by rw [hxn]; norm_num)
    omega
  rcases lt_trichotomy m n with h | h | h
  · exact (key m n hm hn h).elim
  · exact h
  · exact (key n m hn hm h).elim

/-- Rounding a fraction, in integers: twice the remainder is at most the
denominator. -/
theorem roundsHalfEven_div_iff {num den n : ℤ} (hden : den ≠ 0) :
    RoundsHalfEven (num / den) n ↔ 2 * |num - den * n| ≤ |den| ∧
      (2 * |num - den * n| = |den| → Even n) := by
  have hpos : (0 : ℚ) < |(den : ℚ)| := abs_pos.2 (by exact_mod_cast hden)
  have hden' : (den : ℚ) ≠ 0 := by exact_mod_cast hden
  have hdist : |(num : ℚ) / den - n| = |((num - den * n : ℤ) : ℚ)| / |(den : ℚ)| := by
    rw [← abs_div]
    congr 1
    push_cast
    field_simp
  have hle : |(num : ℚ) / den - n| ≤ 1 / 2 ↔ 2 * |num - den * n| ≤ |den| := by
    rw [hdist, div_le_iff₀ hpos]
    constructor
    · intro h
      have h2 : (2 : ℚ) * |((num - den * n : ℤ) : ℚ)| ≤ |(den : ℚ)| := by linarith
      exact_mod_cast h2
    · intro h
      have h2 : (2 : ℚ) * |((num - den * n : ℤ) : ℚ)| ≤ |(den : ℚ)| := by exact_mod_cast h
      linarith
  have heq : |(num : ℚ) / den - n| = 1 / 2 ↔ 2 * |num - den * n| = |den| := by
    rw [hdist, div_eq_iff hpos.ne']
    constructor
    · intro h
      have h2 : (2 : ℚ) * |((num - den * n : ℤ) : ℚ)| = |(den : ℚ)| := by linarith
      exact_mod_cast h2
    · intro h
      have h2 : (2 : ℚ) * |((num - den * n : ℤ) : ℚ)| = |(den : ℚ)| := by exact_mod_cast h
      linarith
  unfold RoundsHalfEven
  rw [hle, heq]

end Epiphany
