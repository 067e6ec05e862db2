import Mathlib
/-!
# Digits — decimal text, cut and joined

The digits of a number as text, its fraction padded to a width and without
the zeros at the end, and the cutting of text at its ends and at a
character. A number is read back from its digits, and a fraction from
those that are left of it.
-/

namespace Epiphany

namespace Digits

/-- Whether a character is white space. -/
def isWhitespace (c : Char) : Bool :=
  (9 ≤ c.toNat ∧ c.toNat ≤ 13) ∨ c.toNat = 0x20 ∨ c.toNat = 0x85 ∨ c.toNat = 0xA0 ∨
    c.toNat = 0x1680 ∨ (0x2000 ≤ c.toNat ∧ c.toNat ≤ 0x200A) ∨ c.toNat = 0x2028 ∨
    c.toNat = 0x2029 ∨ c.toNat = 0x202F ∨ c.toNat = 0x205F ∨ c.toNat = 0x3000

/-- Drop white space at both ends. -/
def trim (l : List Char) : List Char := (l.dropWhile isWhitespace).rdropWhile isWhitespace

/-- What stands before and after the first `c`. -/
def splitOnce (c : Char) (l : List Char) : Option (List Char × List Char) :=
  if c ∈ l then some (l.takeWhile (· ≠ c), (l.dropWhile (· ≠ c)).tail) else none

/-- The digits of a number, with zeros before them up to a width. -/
def padded (width n : Nat) : List Char :=
  List.replicate (width - (Nat.toDigits 10 n).length) '0' ++ Nat.toDigits 10 n

/-- Digits without the zeros at their end. -/
def dropZeros (l : List Char) : List Char := l.rdropWhile (· = '0')

theorem isWhitespace_of_isDigit {c : Char} (h : c.isDigit = true) : isWhitespace c = false := by
  simp only [Char.isDigit, Bool.and_eq_true, decide_eq_true_eq, UInt32.le_iff_toNat_le] at h
  have h1 : 48 ≤ c.toNat := h.1
  have h2 : c.toNat ≤ 57 := h.2
  simp only [isWhitespace, decide_eq_false_iff_not]
  omega

/-- Text without white space at its ends is its own trimming. -/
theorem trim_eq {l : List Char} (h : ∀ c ∈ l, isWhitespace c = false) : trim l = l := by
  have hdrop : l.dropWhile isWhitespace = l := by
    rcases l with _ | ⟨c, l⟩
    · rfl
    · exact List.dropWhile_cons_of_neg (by simp [h c List.mem_cons_self])
  rw [trim, hdrop]
  refine List.rdropWhile_eq_self_iff.2 fun hne => ?_
  simp [h _ (List.getLast_mem hne)]

theorem splitOnce_of_not_mem {c : Char} {l : List Char} (h : c ∉ l) : splitOnce c l = none :=
  if_neg h

theorem splitOnce_append {c : Char} {l r : List Char} (h : c ∉ l) :
    splitOnce c (l ++ c :: r) = some (l, r) := by
  have hall : ∀ x ∈ l, decide (x ≠ c) = true := fun x hx => by
    simpa using fun heq : x = c => h (heq ▸ hx)
  rw [splitOnce, if_pos (List.mem_append_right _ List.mem_cons_self),
    List.takeWhile_append_of_pos hall, List.dropWhile_append_of_pos hall]
  simp

variable {width n : Nat}

theorem isDigit_of_mem_toDigits {c : Char} (h : c ∈ Nat.toDigits 10 n) : c.isDigit = true :=
  Nat.isDigit_of_mem_toDigits (by decide) (by decide) h

theorem isDigit_of_mem_padded {c : Char} (h : c ∈ padded width n) : c.isDigit = true := by
  rcases List.mem_append.1 h with h | h
  · rw [List.eq_of_mem_replicate h]
    decide
  · exact isDigit_of_mem_toDigits h

theorem mem_of_mem_dropZeros {c : Char} {l : List Char} (h : c ∈ dropZeros l) : c ∈ l :=
  (List.rdropWhile_prefix _ _).subset h

/-- Padding fills the width. -/
theorem length_padded (hw : 0 < width) (h : n < 10 ^ width) : (padded width n).length = width := by
  have := (Nat.length_toDigits_le_iff (b := 10) (n := n) (by decide) hw).2 h
  rw [padded, List.length_append, List.length_replicate]
  omega

/-- Padding does not change the number. -/
theorem ofDigitChars_padded : Nat.ofDigitChars 10 (padded width n) 0 = n := by
  rw [padded, Nat.ofDigitChars_append, Nat.ofDigitChars_replicate_zero]
  exact Nat.ofDigitChars_ten_toDigits

/-- The zeros at the end are powers of ten. -/
theorem ofDigitChars_dropZeros (l : List Char) :
    (dropZeros l).length ≤ l.length ∧
      Nat.ofDigitChars 10 (dropZeros l) 0 * 10 ^ (l.length - (dropZeros l).length) =
        Nat.ofDigitChars 10 l 0 := by
  induction l using List.reverseRecOn with
  | nil => exact ⟨Nat.le_refl _, rfl⟩
  | append_singleton l c ih =>
    obtain ⟨hle, hval⟩ := ih
    by_cases hc : c = '0'
    · subst hc
      have hdrop : dropZeros (l ++ ['0']) = dropZeros l :=
        List.rdropWhile_concat_pos _ _ _ (by simp)
      have hzero : Nat.ofDigitChars 10 (l ++ ['0']) 0 = 10 * Nat.ofDigitChars 10 l 0 := by
        rw [Nat.ofDigitChars_append]
        exact Nat.ofDigitChars_replicate_zero (n := 1)
      rw [hdrop, hzero, ← hval, List.length_append, List.length_singleton,
        Nat.sub_add_comm hle, pow_succ]
      exact ⟨by omega, by ring⟩
    · have hdrop : dropZeros (l ++ [c]) = l ++ [c] :=
        List.rdropWhile_concat_neg _ _ _ (by simpa using hc)
      rw [hdrop, Nat.sub_self, pow_zero, mul_one]
      exact ⟨Nat.le_refl _, rfl⟩

end Digits

end Epiphany
