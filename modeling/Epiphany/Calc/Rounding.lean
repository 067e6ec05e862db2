import Epiphany.Calc.Eval
import Epiphany.Common.Arith
import Epiphany.Common.Rounding
/-!
# Rounding — products and quotients of rules

Multiplication and division of values go through 128-bit integers and a
division that truncates. The result is the exact product or quotient rounded
half to even, and no step of the way overflows (`arith_roundsHalfEven`).
-/

namespace Epiphany

namespace Calc

/-! ## A build that stops at an overflow -/

def i128 (n : Int) : Option Int := if FitsIn 128 n then some n else none

def u128 (n : Nat) : Option Nat := if n < 2 ^ 128 then some n else none

/-- Division rounded half to even, step by step. -/
def divRoundHalfEven128 (num den : Int) : Option Int := do
  let q ← i128 (num.tdiv den)
  let r ← i128 (num.tmod den)
  if r = 0 then some q
  else do
    let twice ← u128 (r.natAbs * 2)
    if twice > den.natAbs ∨ (twice = den.natAbs ∧ q.tmod 2 ≠ 0) then
      if (num < 0) ≠ (den < 0) then i128 (q - 1) else i128 (q + 1)
    else some q

/-- Arithmetic, step by step. -/
def arith128 (op : ArithOp) (a b : Fixed) : Option (Except CalcError Fixed) :=
  match op with
  | .add => some (arith .add a b)
  | .sub => some (arith .sub a b)
  | .mul => do
    let num ← i128 (a.toScaled * b.toScaled)
    let scaled ← divRoundHalfEven128 num scale
    some (toFixed scaled)
  | .div =>
    if b.toScaled = 0 then some (.error .divByZero)
    else do
      let num ← i128 (a.toScaled * scale)
      let scaled ← divRoundHalfEven128 num b.toScaled
      some (toFixed scaled)

/-! ## The division -/

/-- The truncating division leaves a remainder of the sign of the numerator. -/
theorem tmod_sign (num den : Int) : (0 ≤ num → 0 ≤ num.tmod den) ∧
    (num ≤ 0 → num.tmod den ≤ 0) := by
  refine ⟨Int.tmod_nonneg den, fun h => ?_⟩
  have hneg := Int.tmod_nonneg den (Int.neg_nonneg.2 h)
  rw [Int.neg_tmod] at hneg
  omega

theorem natAbs_tmod_lt {num den : Int} (hden : den ≠ 0) :
    (num.tmod den).natAbs < den.natAbs := by
  rw [Int.natAbs_tmod]
  exact Nat.mod_lt _ (Int.natAbs_pos.2 hden)

theorem tmod_two_eq_zero {q : Int} : q.tmod 2 = 0 ↔ Even q := by
  rw [even_iff_two_dvd]
  exact ⟨Int.dvd_of_tmod_eq_zero, Int.tmod_eq_zero_of_dvd⟩

/-- **The division** rounds the fraction half to even. -/
theorem divRoundHalfEven_rounds {num den : Int} (hden : den ≠ 0) :
    RoundsHalfEven (num / den) (divRoundHalfEven num den) := by
  rw [roundsHalfEven_div_iff hden]
  have hdiv := Int.mul_tdiv_add_tmod num den
  have hlt := @natAbs_tmod_lt num den hden
  obtain ⟨hnonneg, hnonpos⟩ := tmod_sign num den
  have heven := @tmod_two_eq_zero (num.tdiv den)
  unfold divRoundHalfEven
  dsimp only
  -- the truncated quotient is one of the two neighbours, and the remainder tells how far off it is
  generalize num.tdiv den = q at hdiv heven
  generalize num.tmod den = r at hdiv hlt hnonneg hnonpos
  have hq : num - den * q = r := by linarith
  have hdown : num - den * (q - 1) = r + den := by linarith
  have hup : num - den * (q + 1) = r - den := by linarith
  split_ifs with hzero haway hsigns
  · rw [hq, hzero]
    constructor
    · simp
    · intro h
      rw [abs_zero, mul_zero] at h
      exact absurd (abs_eq_zero.1 h.symm) hden
  · -- the signs differ, and the quotient is stepped down
    rw [hdown]
    have hside : 2 * |r + den| ≤ |den| ∧ (2 * |r + den| = |den| → r.natAbs * 2 = den.natAbs) := by
      rw [Int.abs_eq_natAbs, Int.abs_eq_natAbs]
      by_cases hnum : num < 0
      · have := hnonpos hnum.le
        have hd : ¬ den < 0 := fun hd => hsigns (by simp [hnum, hd])
        omega
      · have := hnonneg (not_lt.1 hnum)
        have hd : den < 0 := by
          by_contra hd
          exact hsigns (by simp [hnum, hd])
        omega
    refine ⟨hside.1, fun h => ?_⟩
    have htie := hside.2 h
    have hodd : ¬ Even q := by
      rcases haway with hgt | ⟨-, hodd⟩
      · omega
      · rwa [ne_eq, heven] at hodd
    rw [Int.even_sub_one]
    exact hodd
  -- the signs agree, and it is stepped up
  · rw [hup]
    have hside : 2 * |r - den| ≤ |den| ∧ (2 * |r - den| = |den| → r.natAbs * 2 = den.natAbs) := by
      rw [Int.abs_eq_natAbs, Int.abs_eq_natAbs]
      rw [ne_eq, not_not] at hsigns
      by_cases hnum : num < 0
      · have := hnonpos hnum.le
        have hd : den < 0 := by rwa [hsigns] at hnum
        omega
      · have := hnonneg (not_lt.1 hnum)
        have hd : ¬ den < 0 := by rwa [hsigns] at hnum
        omega
    refine ⟨hside.1, fun h => ?_⟩
    have htie := hside.2 h
    have hodd : ¬ Even q := by
      rcases haway with hgt | ⟨-, hodd⟩
      · omega
      · rwa [ne_eq, heven] at hodd
    rw [Int.even_add_one]
    exact hodd
  · rw [hq]
    rw [not_or, not_and, not_not] at haway
    obtain ⟨hle, htie⟩ := haway
    rw [Int.abs_eq_natAbs, Int.abs_eq_natAbs]
    refine ⟨by omega, fun h => heven.1 (htie (by omega))⟩

/-! ## No overflow -/

theorem i128_of_abs {n : Int} (h : |n| < 2 ^ 127) : i128 n = some n := if_pos (FitsIn.of_abs_lt h)

/-- No step of a division overflows whose numerator leaves some room. -/
theorem divRoundHalfEven128_eq {num den : Int} (hnum : |num| + 1 < 2 ^ 127) (hden : den ≠ 0)
    (hfit : |den| < 2 ^ 127) :
    divRoundHalfEven128 num den = some (divRoundHalfEven num den) := by
  have hquot : |num.tdiv den| ≤ |num| := by
    rw [Int.abs_eq_natAbs, Int.abs_eq_natAbs, Int.natAbs_tdiv]
    exact_mod_cast Nat.div_le_self _ _
  have hrem := @natAbs_tmod_lt num den hden
  rw [Int.abs_eq_natAbs] at hfit
  have hq : i128 (num.tdiv den) = some (num.tdiv den) := i128_of_abs (by omega)
  have hr : i128 (num.tmod den) = some (num.tmod den) :=
    i128_of_abs (by rw [Int.abs_eq_natAbs]; omega)
  have htwice : u128 ((num.tmod den).natAbs * 2) = some ((num.tmod den).natAbs * 2) :=
    if_pos (by omega)
  obtain ⟨hlow, hhigh⟩ := abs_le.1 hquot
  have hdown : i128 (num.tdiv den - 1) = some (num.tdiv den - 1) :=
    i128_of_abs (abs_lt.2 ⟨by omega, by omega⟩)
  have hup : i128 (num.tdiv den + 1) = some (num.tdiv den + 1) :=
    i128_of_abs (abs_lt.2 ⟨by omega, by omega⟩)
  unfold divRoundHalfEven128 divRoundHalfEven
  simp only [hq, hr, htwice, hdown, hup, Option.bind_eq_bind, Option.bind_some]
  split_ifs <;> rfl

theorem abs_toScaled_le (v : Fixed) : |v.toScaled| ≤ 2 ^ 63 := by
  obtain ⟨hmin, hmax⟩ := v.inRange
  unfold i64Min at hmin
  unfold i64Max at hmax
  exact abs_le.2 ⟨by omega, by omega⟩

theorem arith128_mul (a b : Fixed) : arith128 .mul a b = some (arith .mul a b) := by
  have hprod : |a.toScaled * b.toScaled| ≤ 2 ^ 126 := by
    rw [abs_mul]
    calc |a.toScaled| * |b.toScaled| ≤ 2 ^ 63 * 2 ^ 63 :=
          mul_le_mul (abs_toScaled_le a) (abs_toScaled_le b) (abs_nonneg _) (by norm_num)
      _ = 2 ^ 126 := by norm_num
  unfold arith128 arith
  simp only [i128_of_abs (show |a.toScaled * b.toScaled| < 2 ^ 127 by omega),
    Option.bind_eq_bind, Option.bind_some]
  rw [divRoundHalfEven128_eq (by omega) (by decide) (by decide)]
  rfl

theorem arith128_div (a b : Fixed) : arith128 .div a b = some (arith .div a b) := by
  have hprod : |a.toScaled * scale| ≤ 2 ^ 63 * 10000 := by
    rw [abs_mul]
    exact mul_le_mul (abs_toScaled_le a) (by decide) (abs_nonneg _) (by norm_num)
  have hden := abs_toScaled_le b
  unfold arith128 arith
  dsimp only
  split_ifs with hzero
  · rfl
  · simp only [i128_of_abs (show |a.toScaled * scale| < 2 ^ 127 by omega),
      Option.bind_eq_bind, Option.bind_some]
    rw [divRoundHalfEven128_eq (by omega) hzero (by omega)]
    rfl

/-! ## Products and quotients -/

/-- An integer that is rounded to fits, or is out of range. -/
theorem toFixed_eq_ok {n : Int} {v : Fixed} : toFixed n = .ok v ↔ v.toScaled = n := by
  unfold toFixed
  rw [okOr_eq_ok, Fixed.tryFrom_eq_some, eq_comm]

theorem toFixed_eq_error {n : Int} {e : CalcError} :
    toFixed n = .error e ↔ e = .overflow ∧ ¬ (i64Min ≤ n ∧ n ≤ i64Max) := by
  unfold toFixed Fixed.tryFrom
  split_ifs with hfit
  · simp [okOr, hfit]
  · simp [okOr, hfit, eq_comm]

/-- Rounding a rational to a value: the value, or an overflow. -/
theorem toFixed_rounds {x : ℚ} {n : Int} (h : RoundsHalfEven x n) :
    (∀ v, toFixed n = .ok v ↔ RoundsHalfEven x v.toScaled) ∧
    ∀ e, toFixed n = .error e ↔
      e = .overflow ∧ ∃ m, RoundsHalfEven x m ∧ ¬ (i64Min ≤ m ∧ m ≤ i64Max) := by
  refine ⟨fun v => ?_, fun e => ?_⟩
  · rw [toFixed_eq_ok]
    constructor
    · intro hv
      rw [hv]
      exact h
    · intro hv
      exact hv.unique h
  · rw [toFixed_eq_error]
    refine and_congr_right fun _ => ⟨fun hfit => ⟨n, h, hfit⟩, ?_⟩
    rintro ⟨m, hm, hfit⟩
    rwa [← hm.unique h]

theorem mul_toRat (a b : Fixed) :
    a.toRat * b.toRat * 10 ^ scaleDecimals =
      ((a.toScaled * b.toScaled : Int) : ℚ) / ((scale : Int) : ℚ) := by
  unfold Fixed.toRat scale scaleDecimals
  push_cast
  ring

theorem div_toRat (a b : Fixed) :
    a.toRat / b.toRat * 10 ^ scaleDecimals =
      ((a.toScaled * scale : Int) : ℚ) / ((b.toScaled : Int) : ℚ) := by
  unfold Fixed.toRat scale scaleDecimals
  push_cast
  field_simp
  ring

/-- **Products and quotients of rules are exact but for one rounding.** The
result is the rational product or quotient rounded half to even at four
decimals. It is an error when the divisor is zero or the rounded number is
out of range; and no step overflows on the way. -/
theorem arith_roundsHalfEven (a b : Fixed) :
    arith128 .mul a b = some (arith .mul a b) ∧ arith128 .div a b = some (arith .div a b) ∧
    (∀ v, arith .mul a b = .ok v ↔
      RoundsHalfEven (a.toRat * b.toRat * 10 ^ scaleDecimals) v.toScaled) ∧
    (∀ e, arith .mul a b = .error e ↔ e = .overflow ∧
      ∃ n, RoundsHalfEven (a.toRat * b.toRat * 10 ^ scaleDecimals) n ∧
        ¬ (i64Min ≤ n ∧ n ≤ i64Max)) ∧
    (∀ v, arith .div a b = .ok v ↔ b ≠ Fixed.zero ∧
      RoundsHalfEven (a.toRat / b.toRat * 10 ^ scaleDecimals) v.toScaled) ∧
    ∀ e, arith .div a b = .error e ↔ b = Fixed.zero ∧ e = .divByZero ∨
      b ≠ Fixed.zero ∧ e = .overflow ∧
        ∃ n, RoundsHalfEven (a.toRat / b.toRat * 10 ^ scaleDecimals) n ∧
          ¬ (i64Min ≤ n ∧ n ≤ i64Max) := by
  have hmul := toFixed_rounds (@divRoundHalfEven_rounds (a.toScaled * b.toScaled) scale
    (by decide))
  rw [← mul_toRat] at hmul
  refine ⟨arith128_mul a b, arith128_div a b, hmul.1, hmul.2, ?_⟩
  by_cases hzero : b.toScaled = 0
  · have hb : b = Fixed.zero := Fixed.ext hzero
    have hdiv : arith .div a b = .error .divByZero := if_pos hzero
    rw [hdiv]
    simp [hb, eq_comm]
  · have hb : b ≠ Fixed.zero := fun h => hzero (by rw [h]; rfl)
    have hdiv : arith .div a b =
        toFixed (divRoundHalfEven (a.toScaled * scale) b.toScaled) := if_neg hzero
    have hrounds := toFixed_rounds
      (@divRoundHalfEven_rounds (a.toScaled * scale) b.toScaled hzero)
    rw [← div_toRat] at hrounds
    rw [hdiv]
    simpa only [ne_eq, hb, not_false_eq_true, true_and, false_and, false_or] using hrounds

end Calc

end Epiphany
