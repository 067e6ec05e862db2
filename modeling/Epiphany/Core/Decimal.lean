import Epiphany.Common.Digits
import Epiphany.Core.Value
/-!
# Decimals — values as text

A value is written as a decimal with up to four places, and read back. All
values but the smallest are read back as they were written
(`fromStr_toString`): the smallest has a magnitude above the largest, and
the reader computes the magnitude before the sign.
-/

namespace Epiphany

namespace Fixed

open Digits

/-- The characters of a value: the sign, the whole part, and the fraction if
there is one. -/
def chars (v : Fixed) : List Char :=
  let sign := if v.toScaled < 0 then ['-'] else []
  let abs := v.toScaled.natAbs
  let int := abs / scale.toNat
  let frac := abs % scale.toNat
  if frac = 0 then sign ++ Nat.toDigits 10 int
  else sign ++ (Nat.toDigits 10 int ++ '.' :: dropZeros (padded scaleDecimals frac))

/-- A value as text. -/
def toString (v : Fixed) : String := String.ofList v.chars

/-- The number a run of digits stands for. -/
def digits (text : String) (part : List Char) : Except ModelError Int :=
  if part = [] then .ok 0
  else if part.all Char.isDigit = false then .error (.invalidNumber text)
  else if i64Max < Nat.ofDigitChars 10 part 0 then .error (.invalidNumber text)
  else .ok (Nat.ofDigitChars 10 part 0)

/-- Multiplication and addition of 64-bit integers that report overflow. -/
def checkedI64 (n : Int) : Except ModelError Int :=
  if i64Min ≤ n ∧ n ≤ i64Max then .ok n else .error .overflow

/-- The sign of a number, and what follows it. -/
def splitSign : List Char → Bool × List Char
  | '-' :: rest => (true, rest)
  | '+' :: rest => (false, rest)
  | l => (false, l)

/-- Read a decimal. -/
def fromStr (text : String) : Except ModelError Fixed := do
  let (negative, body) := splitSign (trim text.toList)
  if body = [] then .error (.invalidNumber text)
  else
    let (intPart, fracPart) := (splitOnce '.' body).getD (body, [])
    let fracLen := (fracPart.map Char.utf8Size).sum
    if scaleDecimals < fracLen then .error (.invalidNumber text)
    else
      let intVal ← digits text intPart
      let fracVal ← digits text fracPart
      let fracScaled ← checkedI64 (fracVal * 10 ^ (scaleDecimals - fracLen))
      let intScaled ← checkedI64 (intVal * scale)
      let magnitude ← checkedI64 (intScaled + fracScaled)
      okOr (tryFrom (if negative then -magnitude else magnitude)) .overflow

/-! ## Reading what was written -/

variable {text : String} {part : List Char} {n : Int} {v : Fixed}

theorem digits_eq_ok (text : String) (hne : part ≠ []) (hdigits : ∀ c ∈ part, c.isDigit = true)
    (hfit : (Nat.ofDigitChars 10 part 0 : Int) ≤ i64Max) :
    digits text part = .ok (Nat.ofDigitChars 10 part 0) := by
  have hall : part.all Char.isDigit = true := List.all_eq_true.2 hdigits
  rw [digits, if_neg hne, hall, if_neg (by decide), if_neg (not_lt.2 hfit)]

theorem checkedI64_of_nonneg (h0 : 0 ≤ n) :
    checkedI64 n = if n ≤ i64Max then .ok n else .error .overflow := by
  have hmin : i64Min ≤ n := le_trans (by decide) h0
  simp [checkedI64, hmin]

theorem ne_sign_of_isDigit {c : Char} (hc : c.isDigit = true) : c ≠ '-' ∧ c ≠ '+' ∧ c ≠ '.' := by
  refine ⟨?_, ?_, ?_⟩ <;> rintro rfl <;> cases hc

theorem splitSign_eq (negative : Bool) {c : Char} {l : List Char} (hc : c.isDigit = true) :
    splitSign ((if negative then ['-'] else []) ++ c :: l) = (negative, c :: l) := by
  obtain ⟨hminus, hplus, -⟩ := ne_sign_of_isDigit hc
  cases negative
  · simp only [Bool.false_eq_true, if_false, List.nil_append]
    unfold splitSign
    split <;> simp_all
  · rfl

/-- A digit is one byte. -/
theorem sum_utf8Size {l : List Char} (h : ∀ c ∈ l, c.isDigit = true) :
    (l.map Char.utf8Size).sum = l.length := by
  have hone : ∀ x ∈ l.map Char.utf8Size, x = 1 := by
    intro x hx
    obtain ⟨c, hc, rfl⟩ := List.mem_map.1 hx
    have hd := h c hc
    simp only [Char.isDigit, Bool.and_eq_true, decide_eq_true_eq] at hd
    have : c.val ≤ 0x7f := UInt32.le_trans hd.2 (by decide)
    simp [Char.utf8Size, this]
  rw [List.sum_eq_card_nsmul _ 1 hone, List.length_map, smul_eq_mul, mul_one]

/-- Reading a sign, whole digits, and a fraction of up to four digits. -/
theorem fromStr_parts {negative : Bool} {body intPart fracPart : List Char}
    (htext : text.toList = (if negative then ['-'] else []) ++ body)
    (hbody : ∃ c l, body = c :: l ∧ c.isDigit = true)
    (hspace : ∀ x ∈ body, isWhitespace x = false)
    (hsplit : (splitOnce '.' body).getD (body, []) = (intPart, fracPart))
    (hfrac : ∀ x ∈ fracPart, x.isDigit = true) (hlen : fracPart.length ≤ scaleDecimals)
    {int : Nat} (frac : Nat) (hintVal : digits text intPart = .ok int)
    (hfracVal : digits text fracPart = .ok frac) (hintFit : (int : Int) * scale ≤ i64Max)
    (hfracFit : frac * 10 ^ (scaleDecimals - fracPart.length) < 10000) :
    fromStr text = (checkedI64 (int * scale + frac * 10 ^ (scaleDecimals - fracPart.length)) >>=
      fun magnitude => okOr (tryFrom (if negative then -magnitude else magnitude)) .overflow) := by
  obtain ⟨c, l, rfl, hc⟩ := hbody
  have htrim : trim text.toList = (if negative then ['-'] else []) ++ c :: l := by
    rw [htext]
    refine trim_eq fun x hx => ?_
    rcases List.mem_append.1 hx with hx | hx
    · cases negative
      · cases hx
      · rw [List.mem_singleton.1 hx]
        decide
    · exact hspace x hx
  have hscaled : checkedI64 (frac * 10 ^ (scaleDecimals - fracPart.length)) =
      .ok (frac * 10 ^ (scaleDecimals - fracPart.length)) := by
    have hfit : ((frac * 10 ^ (scaleDecimals - fracPart.length) : Nat) : Int) ≤ i64Max :=
      le_trans (Int.ofNat_le.2 hfracFit.le) (by decide)
    push_cast at hfit
    rw [checkedI64_of_nonneg (by positivity), if_pos hfit]
  have hwhole : checkedI64 (int * scale) = .ok (int * scale) := by
    rw [checkedI64_of_nonneg (mul_nonneg (Int.natCast_nonneg _) (by decide)), if_pos hintFit]
  simp only [fromStr, htrim, splitSign_eq negative hc, hsplit, sum_utf8Size hfrac,
    if_neg (List.cons_ne_nil c l), if_neg (not_lt.2 hlen), hintVal, hfracVal, hscaled, hwhole, bind,
    Except.bind]

/-- The magnitude of a value, in whole units and four places. -/
theorem fromStr_toString_eq (v : Fixed) :
    fromStr v.toString = (checkedI64 v.toScaled.natAbs >>= fun magnitude =>
      okOr (tryFrom (if v.toScaled < 0 then -magnitude else magnitude)) .overflow) := by
  set abs := v.toScaled.natAbs with habs
  have hbound : abs ≤ 2 ^ 63 := by
    have := v.inRange
    simp only [i64Min, i64Max] at this
    omega
  have hscale : scale.toNat = 10000 := rfl
  have hint : (Nat.ofDigitChars 10 (Nat.toDigits 10 (abs / 10000)) 0 : Int) ≤ i64Max := by
    rw [Nat.ofDigitChars_ten_toDigits]
    simp only [i64Max]
    omega
  have hintVal := digits_eq_ok v.toString Nat.toDigits_ne_nil
    (fun c hc => isDigit_of_mem_toDigits hc) hint
  rw [Nat.ofDigitChars_ten_toDigits] at hintVal
  have hintFit : ((abs / 10000 : Nat) : Int) * scale ≤ i64Max := by
    simp only [i64Max, scale]
    omega
  have hhead : ∃ c l, Nat.toDigits 10 (abs / 10000) = c :: l ∧ c.isDigit = true := by
    rcases hl : Nat.toDigits 10 (abs / 10000) with _ | ⟨c, l⟩
    · exact absurd hl Nat.toDigits_ne_nil
    · exact ⟨c, l, rfl, isDigit_of_mem_toDigits (n := abs / 10000) (by simp [hl])⟩
  have hnodot : '.' ∉ Nat.toDigits 10 (abs / 10000) := fun h =>
    (ne_sign_of_isDigit (isDigit_of_mem_toDigits h)).2.2 rfl
  have hchars : v.toString.toList = v.chars := String.toList_ofList
  have hspace : ∀ c, c.isDigit = true → isWhitespace c = false :=
    fun _ hc => isWhitespace_of_isDigit hc
  by_cases hfrac : abs % 10000 = 0
  · have htext : v.toString.toList =
        (if decide (v.toScaled < 0) = true then ['-'] else []) ++
          Nat.toDigits 10 (abs / 10000) := by
      rw [hchars, chars]
      simp only [← habs, hscale, hfrac, if_true, decide_eq_true_eq]
    rw [fromStr_parts htext hhead (fun c hc => hspace c (isDigit_of_mem_toDigits hc))
      (by rw [splitOnce_of_not_mem hnodot, Option.getD_none]) (by simp) (by simp) 0 hintVal
      (if_pos rfl) hintFit (by simp)]
    have hmagnitude : ((abs / 10000 : Nat) : Int) * scale + ((0 : Nat) : Int) *
        10 ^ (scaleDecimals - ([] : List Char).length) = abs := by
      simp only [scale]
      omega
    simp only [hmagnitude, decide_eq_true_eq]
  · set part := dropZeros (padded scaleDecimals (abs % 10000)) with hpart
    have hdigits : ∀ c ∈ part, c.isDigit = true := fun c hc =>
      isDigit_of_mem_padded (mem_of_mem_dropZeros hc)
    have hwidth : (padded scaleDecimals (abs % 10000)).length = scaleDecimals :=
      length_padded (by decide) (Nat.mod_lt _ (by decide))
    obtain ⟨hlen, hval⟩ := ofDigitChars_dropZeros (padded scaleDecimals (abs % 10000))
    rw [hwidth, ← hpart] at hlen
    rw [hwidth, ← hpart, ofDigitChars_padded] at hval
    have hlt := Nat.mod_lt abs (show 0 < 10000 by decide)
    -- a fraction that is not zero keeps a digit
    have hne : part ≠ [] := by
      intro hnil
      rw [hnil, Nat.ofDigitChars_nil, Nat.zero_mul] at hval
      exact hfrac hval.symm
    have hpos : 0 < 10 ^ (scaleDecimals - part.length) := by positivity
    have hle : Nat.ofDigitChars 10 part 0 ≤ abs % 10000 := by
      rw [← hval]
      exact Nat.le_mul_of_pos_right _ hpos
    have hfracVal := digits_eq_ok v.toString hne hdigits
      (le_trans (Int.ofNat_le.2 (hle.trans hlt.le)) (by decide))
    have htext : v.toString.toList =
        (if decide (v.toScaled < 0) = true then ['-'] else []) ++
          (Nat.toDigits 10 (abs / 10000) ++ '.' :: part) := by
      rw [hchars, chars]
      simp only [← habs, hscale, if_neg hfrac, decide_eq_true_eq, ← hpart]
    obtain ⟨c, l, hcl, hc⟩ := hhead
    rw [fromStr_parts htext ⟨c, l ++ '.' :: part, by rw [hcl]; rfl, hc⟩ (fun x hx => ?_)
      (by rw [splitOnce_append hnodot, Option.getD_some]) hdigits hlen _ hintVal hfracVal hintFit
      (hval.trans_lt hlt)]
    · have hmagnitude : ((abs / 10000 : Nat) : Int) * scale +
          (Nat.ofDigitChars 10 part 0 : Int) * 10 ^ (scaleDecimals - part.length) = abs := by
        have hcast := congrArg (Nat.cast (R := Int)) hval
        push_cast at hcast
        rw [hcast]
        simp only [scale]
        omega
      simp only [hmagnitude, decide_eq_true_eq]
    · rcases List.mem_append.1 hx with hx | hx
      · exact hspace x (isDigit_of_mem_toDigits hx)
      · rcases List.mem_cons.1 hx with rfl | hx
        · decide
        · exact hspace x (hdigits x hx)

/-- The value whose text is not read back. -/
def smallest : Fixed := ⟨i64Min, by decide⟩

/-- **Read back.** Every value but the smallest is read back from its
text. -/
theorem fromStr_toString (v : Fixed) :
    fromStr v.toString = if v = smallest then .error .overflow else .ok v := by
  have hrange := v.inRange
  have hmin : i64Min = -2 ^ 63 := rfl
  have hmax : i64Max = 2 ^ 63 - 1 := rfl
  rw [fromStr_toString_eq, checkedI64_of_nonneg (Int.natCast_nonneg _)]
  simp only [Fixed.ext_iff, smallest]
  by_cases h : v.toScaled = i64Min
  · rw [if_neg (by omega), if_pos h]
    rfl
  · rw [if_pos (by omega), if_neg h]
    have hself : (if v.toScaled < 0 then -(v.toScaled.natAbs : Int) else v.toScaled.natAbs) =
        v.toScaled := by
      split_ifs <;> omega
    simp only [bind, Except.bind, hself, tryFrom_toScaled, okOr]

end Fixed

end Epiphany
