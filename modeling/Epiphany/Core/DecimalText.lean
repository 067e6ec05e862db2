import Epiphany.Core.Decimal
/-!
# Decimals — which texts are numbers

A decimal is a sign or none, digits, and digits after a point or no point.
A text with at most four decimals is read as the number that it writes, if
that is in range, and no other text is read at all (`fromStr_decimals`):
nothing is rounded and nothing wraps.
-/

namespace Epiphany

namespace Fixed

open Digits

/-- The text of a decimal: a sign, digits, and the digits after a point. There
is a digit before the point or after it. -/
def IsDecimal (l : List Char) (negative : Bool) (int frac : List Char) : Prop :=
  ∃ sign body, l = sign ++ body ∧
    (negative = true ∧ sign = ['-'] ∨ negative = false ∧ (sign = [] ∨ sign = ['+'])) ∧
    (body = int ∧ frac = [] ∨ body = int ++ '.' :: frac) ∧
    (∀ c ∈ int ++ frac, c.isDigit = true) ∧ int ++ frac ≠ []

/-- The number of a decimal. -/
def decimalValue (negative : Bool) (int frac : List Char) : ℚ :=
  (if negative then -1 else 1) *
    (Nat.ofDigitChars 10 int 0 + Nat.ofDigitChars 10 frac 0 / 10 ^ frac.length)

/-- A text writes a number with at most four decimals. -/
def Writes (text : String) (x : ℚ) : Prop :=
  ∃ negative int frac, IsDecimal (trim text.toList) negative int frac ∧
    frac.length ≤ scaleDecimals ∧ x = decimalValue negative int frac

/-- A point without digits, with a sign or none. -/
def LonePoint (text : String) : Prop := (splitSign (trim text.toList)).2 = ['.']

variable {text : String} {v : Fixed}

/-! ## Runs of digits -/

theorem digits_eq_ok_iff {part : List Char} {n : Int} : digits text part = .ok n ↔
    (∀ c ∈ part, c.isDigit = true) ∧ n = Nat.ofDigitChars 10 part 0 ∧
      (Nat.ofDigitChars 10 part 0 : Int) ≤ i64Max := by
  by_cases hne : part = []
  · subst hne
    have hzero : digits text [] = .ok 0 := rfl
    have hfit : (Nat.ofDigitChars 10 [] 0 : Int) ≤ i64Max := by decide
    rw [hzero, Except.ok.injEq, eq_comm]
    exact ⟨fun h => ⟨fun c hc => absurd hc List.not_mem_nil, h, hfit⟩, fun h => h.2.1⟩
  · unfold digits
    rw [if_neg hne]
    by_cases hall : part.all Char.isDigit = true
    · have hdigits := List.all_eq_true.1 hall
      rw [hall, if_neg (by decide)]
      split_ifs with hfit
      · exact iff_of_false (by rintro ⟨⟩) fun h => absurd h.2.2 (not_le.2 hfit)
      · rw [Except.ok.injEq, eq_comm]
        exact ⟨fun h => ⟨hdigits, h, not_lt.1 hfit⟩, fun h => h.2.1⟩
    · rw [Bool.not_eq_true] at hall
      rw [hall, if_pos rfl]
      refine iff_of_false (by rintro ⟨⟩) fun h => ?_
      rw [List.all_eq_true.2 h.1] at hall
      cases hall

/-! ## What is read -/

/-- The magnitude that a whole part and a fraction stand for. -/
def magnitude (int frac : List Char) : Nat :=
  Nat.ofDigitChars 10 int 0 * 10000 +
    Nat.ofDigitChars 10 frac 0 * 10 ^ (scaleDecimals - frac.length)

/-- **What is read**: the digits on both sides of the point, if the number they
make fits. -/
theorem fromStr_eq_ok {negative : Bool} {body int frac : List Char}
    (hsign : splitSign (trim text.toList) = (negative, body))
    (hparts : (splitOnce '.' body).getD (body, []) = (int, frac)) :
    fromStr text = .ok v ↔ body ≠ [] ∧ (∀ c ∈ int ++ frac, c.isDigit = true) ∧
      frac.length ≤ scaleDecimals ∧ (magnitude int frac : Int) ≤ i64Max ∧
      v.toScaled = if negative then -(magnitude int frac : Int) else magnitude int frac := by
  unfold fromStr
  simp only [hsign, hparts]
  by_cases hbody : body = []
  · simp [hbody]
  rw [if_neg hbody]
  simp only [ne_eq, hbody, not_false_eq_true, true_and, List.forall_mem_append]
  -- digits are one byte each, so the count of bytes is the count of digits once all are digits
  by_cases hlong : scaleDecimals < (frac.map Char.utf8Size).sum
  · rw [if_pos hlong]
    refine iff_of_false (by rintro ⟨⟩) fun h => ?_
    rw [sum_utf8Size h.1.2] at hlong
    omega
  rw [if_neg hlong]
  have hscale : scale = 10000 := rfl
  have hpow : ∀ n : Nat, ((10 ^ n : Nat) : Int) = 10 ^ n := fun n => by push_cast; rfl
  constructor
  · intro h
    obtain ⟨a, ha, h⟩ := bind_eq_ok.1 h
    obtain ⟨b, hb, h⟩ := bind_eq_ok.1 h
    obtain ⟨fracScaled, hfrac, h⟩ := bind_eq_ok.1 h
    obtain ⟨intScaled, hint, h⟩ := bind_eq_ok.1 h
    obtain ⟨m, hm, h⟩ := bind_eq_ok.1 h
    obtain ⟨hintDigits, rfl, -⟩ := digits_eq_ok_iff.1 ha
    obtain ⟨hfracDigits, rfl, -⟩ := digits_eq_ok_iff.1 hb
    have hlen := sum_utf8Size hfracDigits
    unfold checkedI64 at hfrac hint hm
    split_ifs at hfrac hint hm with h1 h2 h3
    obtain rfl := Except.ok.inj hfrac
    obtain rfl := Except.ok.inj hint
    obtain rfl := Except.ok.inj hm
    have hmag : ((Nat.ofDigitChars 10 int 0 : Int) * scale + (Nat.ofDigitChars 10 frac 0 : Int) *
        10 ^ (scaleDecimals - (frac.map Char.utf8Size).sum)) = (magnitude int frac : Int) := by
      unfold magnitude
      rw [hlen, hscale]
      push_cast
      rfl
    rw [hmag] at h3 h
    refine ⟨⟨hintDigits, hfracDigits⟩, by omega, h3.2, ?_⟩
    exact (tryFrom_eq_some.1 (okOr_eq_ok.1 h)).symm
  · rintro ⟨⟨hintDigits, hfracDigits⟩, hlen, hfit, hv⟩
    have hbytes := sum_utf8Size hfracDigits
    have hpos : 0 < 10 ^ (scaleDecimals - frac.length) := by positivity
    have hmag : (magnitude int frac : Int) = (Nat.ofDigitChars 10 int 0 : Int) * 10000 +
        (Nat.ofDigitChars 10 frac 0 : Int) * 10 ^ (scaleDecimals - frac.length) := by
      unfold magnitude
      push_cast
      rfl
    -- each intermediate number is between zero and the magnitude, so no check before the last fails
    have hfracFit : (Nat.ofDigitChars 10 frac 0 : Int) ≤
        (Nat.ofDigitChars 10 frac 0 : Int) * 10 ^ (scaleDecimals - frac.length) := by
      exact_mod_cast Nat.le_mul_of_pos_right _ hpos
    have hint0 : (0 : Int) ≤ Nat.ofDigitChars 10 int 0 := Int.natCast_nonneg _
    have hfrac0 : (0 : Int) ≤ Nat.ofDigitChars 10 frac 0 := Int.natCast_nonneg _
    have hmin : i64Min ≤ 0 := by decide
    have hok : ∀ n : Int, 0 ≤ n → n ≤ i64Max → checkedI64 n = .ok n := fun n h0 h1 =>
      if_pos ⟨hmin.trans h0, h1⟩
    refine bind_eq_ok.2 ⟨_, digits_eq_ok_iff.2 ⟨hintDigits, rfl, by omega⟩,
      bind_eq_ok.2 ⟨_, digits_eq_ok_iff.2 ⟨hfracDigits, rfl, by omega⟩, ?_⟩⟩
    rw [hbytes, hscale]
    refine bind_eq_ok.2 ⟨_, hok _ (by omega) (by omega), bind_eq_ok.2 ⟨_, hok _ (by omega)
      (by omega), bind_eq_ok.2 ⟨_, hok _ (by omega) (by omega), ?_⟩⟩⟩
    rw [← hmag, ← hv]
    exact okOr_eq_ok.2 (tryFrom_toScaled v)

/-! ## What a text writes -/

theorem splitSign_sound {l body : List Char} {negative : Bool}
    (h : splitSign l = (negative, body)) : ∃ sign, l = sign ++ body ∧
      (negative = true ∧ sign = ['-'] ∨ negative = false ∧ (sign = [] ∨ sign = ['+'])) := by
  unfold splitSign at h
  split at h <;> obtain ⟨rfl, rfl⟩ := Prod.mk.inj h
  · exact ⟨['-'], rfl, .inl ⟨rfl, rfl⟩⟩
  · exact ⟨['+'], rfl, .inr ⟨rfl, .inr rfl⟩⟩
  · exact ⟨[], rfl, .inr ⟨rfl, .inl rfl⟩⟩

theorem splitSign_of_ne {c : Char} {l : List Char} (hminus : c ≠ '-') (hplus : c ≠ '+') :
    splitSign (c :: l) = (false, c :: l) := by
  unfold splitSign
  split <;> simp_all

theorem splitOnce_sound {l int frac : List Char}
    (h : (splitOnce '.' l).getD (l, []) = (int, frac)) :
    l = int ∧ frac = [] ∨ l = int ++ '.' :: frac := by
  unfold splitOnce at h
  split_ifs at h with hdot
  · obtain ⟨rfl, rfl⟩ := Prod.mk.inj h
    refine .inr ?_
    have hne : l.dropWhile (· ≠ '.') ≠ [] := by
      rw [ne_eq, List.dropWhile_eq_nil_iff, not_forall]
      exact ⟨'.', by simp [hdot]⟩
    have hhead : (l.dropWhile (· ≠ '.')).head hne = '.' := by
      simpa using List.head_dropWhile_not (· ≠ '.') hne
    have hcut := List.cons_head_tail hne
    rw [hhead] at hcut
    rw [hcut, List.takeWhile_append_dropWhile]
  · obtain ⟨rfl, rfl⟩ := Prod.mk.inj h
    exact .inl ⟨rfl, rfl⟩

/-- A decimal is cut where it was joined. -/
theorem IsDecimal.cut {l int frac : List Char} {negative : Bool}
    (h : IsDecimal l negative int frac) : ∃ body, splitSign l = (negative, body) ∧
      (splitOnce '.' body).getD (body, []) = (int, frac) ∧ body ≠ [] := by
  obtain ⟨sign, body, rfl, hsign, hbody, hdigits, hne⟩ := h
  have hdot : '.' ∉ int := fun hmem =>
    (ne_sign_of_isDigit (hdigits _ (List.mem_append_left _ hmem))).2.2 rfl
  refine ⟨body, ?_, ?_, ?_⟩
  · obtain ⟨rfl, rfl⟩ | ⟨rfl, rfl | rfl⟩ := hsign
    · rfl
    · -- no sign: the text starts with a digit or with the point
      rcases int with _ | ⟨c, int⟩
      · obtain ⟨rfl, rfl⟩ | rfl := hbody
        · exact absurd rfl hne
        · rfl
      · obtain ⟨hminus, hplus, -⟩ := ne_sign_of_isDigit (hdigits c (by simp))
        obtain ⟨rfl, rfl⟩ | rfl := hbody <;> exact splitSign_of_ne hminus hplus
    · rfl
  · obtain ⟨rfl, rfl⟩ | rfl := hbody
    · rw [splitOnce_of_not_mem hdot, Option.getD_none]
    · rw [splitOnce_append hdot, Option.getD_some]
  · rintro rfl
    obtain ⟨rfl, rfl⟩ | hbody := hbody
    · exact hne rfl
    · simp at hbody

/-- Text that is read is a decimal, but for a point without digits. -/
theorem isDecimal_of_parts {l body int frac : List Char} {negative : Bool}
    (hsign : splitSign l = (negative, body))
    (hparts : (splitOnce '.' body).getD (body, []) = (int, frac)) (hbody : body ≠ [])
    (hpoint : body ≠ ['.']) (hdigits : ∀ c ∈ int ++ frac, c.isDigit = true) :
    IsDecimal l negative int frac := by
  obtain ⟨sign, hl, hs⟩ := splitSign_sound hsign
  have hjoin := splitOnce_sound hparts
  refine ⟨sign, body, hl, hs, hjoin, hdigits, fun hnil => ?_⟩
  obtain ⟨rfl, rfl⟩ := List.append_eq_nil_iff.1 hnil
  obtain ⟨hempty, -⟩ | hdot := hjoin
  · exact hbody hempty
  · exact hpoint hdot

/-- The number of a decimal, in units of the last place. -/
theorem decimalValue_eq {negative : Bool} {int frac : List Char}
    (hlen : frac.length ≤ scaleDecimals) : decimalValue negative int frac * scale =
      ((if negative then -(magnitude int frac : Int) else magnitude int frac : Int) : ℚ) := by
  have hten : (10000 : ℚ) = 10 ^ frac.length * 10 ^ (scaleDecimals - frac.length) := by
    rw [← pow_add, Nat.add_sub_cancel' hlen]
    norm_num [scaleDecimals]
  have hscale : (scale : ℚ) = 10000 := by norm_num [scale]
  have hmag : ((magnitude int frac : Int) : ℚ) = (Nat.ofDigitChars 10 int 0 +
      Nat.ofDigitChars 10 frac 0 / 10 ^ frac.length) * scale := by
    have hpow : (10 : ℚ) ^ frac.length ≠ 0 := by positivity
    unfold magnitude
    push_cast
    rw [hscale, hten]
    field_simp
  unfold decimalValue
  rw [mul_assoc, ← hmag]
  cases negative <;> simp

/-- A text is read as the number that it writes. -/
theorem writes_of_fromStr (hpoint : ¬ LonePoint text) (h : fromStr text = .ok v) :
    Writes text v.toRat := by
  rcases hsign : splitSign (trim text.toList) with ⟨negative, body⟩
  rcases hparts : (splitOnce '.' body).getD (body, []) with ⟨int, frac⟩
  obtain ⟨hbody, hdigits, hlen, -, hv⟩ := (fromStr_eq_ok hsign hparts).1 h
  unfold LonePoint at hpoint
  rw [hsign] at hpoint
  refine ⟨negative, int, frac, isDecimal_of_parts hsign hparts hbody hpoint hdigits, hlen, ?_⟩
  have hscale : (scale : ℚ) ≠ 0 := by norm_num [scale]
  unfold toRat
  rw [div_eq_iff hscale, decimalValue_eq hlen, hv]

/-- A number in range that a text writes with at most four decimals is read
from it. -/
theorem fromStr_of_writes {x : ℚ} (h : Writes text x) (hfit : |x * scale| ≤ (i64Max : ℚ)) :
    ∃ v, v.toRat = x ∧ fromStr text = .ok v := by
  obtain ⟨negative, int, frac, hdecimal, hlen, rfl⟩ := h
  obtain ⟨body, hsign, hparts, hbody⟩ := hdecimal.cut
  obtain ⟨-, -, -, -, -, hdigits, -⟩ := hdecimal
  rw [decimalValue_eq hlen] at hfit
  have habs : |if negative then -(magnitude int frac : Int) else magnitude int frac| =
      magnitude int frac := by
    cases negative <;> simp
  have hmag : (magnitude int frac : Int) ≤ i64Max := by
    rw [← habs]
    exact_mod_cast hfit
  have hrange := abs_le.1 (habs.trans_le hmag)
  have hmin : i64Min ≤ -i64Max := by decide
  refine ⟨⟨_, hmin.trans hrange.1, hrange.2⟩, ?_, (fromStr_eq_ok hsign hparts).2
    ⟨hbody, hdigits, hlen, hmag, rfl⟩⟩
  have hscale : (scale : ℚ) ≠ 0 := by norm_num [scale]
  unfold toRat
  rw [div_eq_iff hscale, decimalValue_eq hlen]

/-- The smallest value is never read. -/
theorem ne_smallest_of_fromStr (h : fromStr text = .ok v) : v ≠ smallest := by
  rintro rfl
  rcases hsign : splitSign (trim text.toList) with ⟨negative, body⟩
  rcases hparts : (splitOnce '.' body).getD (body, []) with ⟨int, frac⟩
  obtain ⟨-, -, -, hfit, hv⟩ := (fromStr_eq_ok hsign hparts).1 h
  have hmin : smallest.toScaled < -i64Max := by decide
  rw [hv] at hmin
  split_ifs at hmin <;> omega

/-- **Decimals are read exactly or not at all.** Every value but the smallest
is read back from its text, and what is read from any text is read back from
its own. A text that writes a number in range with at most four decimals is
read as that number, and a text that is read writes the number read, unless it
is a point without digits. -/
theorem fromStr_decimals :
    (∀ v : Fixed, v ≠ smallest → fromStr v.toString = .ok v) ∧
    (∀ text v, fromStr text = .ok v → fromStr v.toString = .ok v) ∧
    (∀ text x, Writes text x → |x * scale| ≤ (i64Max : ℚ) →
      ∃ v, v.toRat = x ∧ fromStr text = .ok v) ∧
    (∀ text v, ¬ LonePoint text → fromStr text = .ok v → Writes text v.toRat) := by
  have hback : ∀ v : Fixed, v ≠ smallest → fromStr v.toString = .ok v := fun v hv => by
    rw [fromStr_toString, if_neg hv]
  exact ⟨hback, fun _ v h => hback v (ne_smallest_of_fromStr h),
    fun _ _ h hfit => fromStr_of_writes h hfit, fun _ _ hpoint h => writes_of_fromStr hpoint h⟩

/-- A text with blanks around it, a sign and a zero at its end, read back from
what is printed of it. -/
theorem fromStr_decimals_padded : ∃ v : Fixed, v.toRat = -3 / 2 ∧ fromStr " -1.50 " = .ok v ∧
    fromStr v.toString = .ok v ∧ Writes " -1.50 " v.toRat := by
  obtain ⟨-, hstable, hreads, hwrites⟩ := fromStr_decimals
  have hint : Nat.ofDigitChars 10 ['1'] 0 = 1 := rfl
  have hfrac : Nat.ofDigitChars 10 ['5', '0'] 0 = 50 := rfl
  have htext : Writes " -1.50 " (-3 / 2) := by
    refine ⟨true, ['1'], ['5', '0'], ⟨['-'], "1.50".toList, by decide +kernel, .inl ⟨rfl, rfl⟩,
      .inr (by decide +kernel), List.all_eq_true.1 (by decide), by decide⟩, by decide, ?_⟩
    norm_num [decimalValue, hint, hfrac]
  obtain ⟨v, hv, hread⟩ := hreads _ _ htext (by norm_num [scale, i64Max])
  exact ⟨v, hv, hread, hstable _ _ hread, hwrites _ _ (by unfold LonePoint; decide +kernel) hread⟩

/-- Zeros after the fourth place are refused, though the number has no more
than four decimals, and the smallest value is not read back. -/
theorem not_fromStr_fifth_place :
    fromStr "1.00000" = .error (.invalidNumber "1.00000") ∧
      decimalValue false ['1'] ['0', '0', '0', '0', '0'] = 1 ∧
      IsDecimal (trim "1.00000".toList) false ['1'] ['0', '0', '0', '0', '0'] ∧
      fromStr smallest.toString = .error .overflow := by
  refine ⟨by decide +kernel, ?_, ?_, by decide +kernel⟩
  · have hint : Nat.ofDigitChars 10 ['1'] 0 = 1 := rfl
    have hfrac : Nat.ofDigitChars 10 ['0', '0', '0', '0', '0'] 0 = 0 := rfl
    norm_num [decimalValue, hint, hfrac]
  · exact ⟨[], "1.00000".toList, by decide +kernel, .inr ⟨rfl, .inl rfl⟩,
      .inr (by decide +kernel), List.all_eq_true.1 (by decide), by decide⟩

end Fixed

end Epiphany
