import Epiphany.Common.Digits
import Epiphany.Common.Parsing
/-!
# Lexing — words, numerals and quoted text

The pieces that lexers share: text up to a delimiter that is doubled inside,
numerals with at most one dot, and runs of characters of a class. Each comes
with what it yields, and with the text that it reads back.

Which characters are letters and digits is a table, fixed below the first 128.
-/

namespace Epiphany

namespace Lexing

open Parsing Parsing.Parser

variable {τ ε α : Type}

/-- The classes of characters. -/
structure CharTable where
  isAlphabetic : Char → Bool
  isNumeric : Char → Bool
  alphabetic_ascii : ∀ c, c.toNat < 128 → isAlphabetic c = c.isAlpha
  numeric_ascii : ∀ c, c.toNat < 128 → isNumeric c = c.isDigit

/-- The table without letters and digits behind the first 128 characters. -/
def asciiTable : CharTable where
  isAlphabetic := Char.isAlpha
  isNumeric := Char.isDigit
  alphabetic_ascii _ _ := rfl
  numeric_ascii _ _ := rfl

namespace CharTable

variable (T : CharTable)

/-- A character that starts a word. -/
def startsWord (c : Char) : Bool := T.isAlphabetic c || c = '_'

/-- A character of a word. -/
def inWord (c : Char) : Bool := T.isAlphabetic c || T.isNumeric c || c = '_'

theorem startsWord_ascii {c : Char} (h : c.toNat < 128) :
    T.startsWord c = (c.isAlpha || c = '_') := by
  unfold startsWord
  rw [T.alphabetic_ascii c h]

theorem inWord_ascii {c : Char} (h : c.toNat < 128) :
    T.inWord c = (c.isAlpha || c.isDigit || c = '_') := by
  unfold inWord
  rw [T.alphabetic_ascii c h, T.numeric_ascii c h]

end CharTable

/-! ## Characters -/

theorem isAlpha_iff {c : Char} : c.isAlpha = true ↔
    (65 ≤ c.toNat ∧ c.toNat ≤ 90) ∨ (97 ≤ c.toNat ∧ c.toNat ≤ 122) := by
  simp only [Char.isAlpha, Char.isUpper, Char.isLower, Bool.or_eq_true, Bool.and_eq_true,
    decide_eq_true_eq, UInt32.le_iff_toNat_le]
  exact Iff.rfl

theorem isDigit_iff {c : Char} : c.isDigit = true ↔ 48 ≤ c.toNat ∧ c.toNat ≤ 57 := by
  simp only [Char.isDigit, Bool.and_eq_true, decide_eq_true_eq, UInt32.le_iff_toNat_le]
  exact Iff.rfl

theorem isWhitespace_of_isAlpha {c : Char} (h : c.isAlpha = true) :
    Digits.isWhitespace c = false := by
  have hcode := isAlpha_iff.1 h
  simp only [Digits.isWhitespace, decide_eq_false_iff_not]
  omega

theorem lt_of_isAlpha {c : Char} (h : c.isAlpha = true) : c.toNat < 128 := by
  have hcode := isAlpha_iff.1 h
  omega

theorem isDigit_of_isAlpha {c : Char} (h : c.isAlpha = true) : c.isDigit = false := by
  by_contra hd
  have hcode := isAlpha_iff.1 h
  have hdigit := isDigit_iff.1 (Bool.eq_true_of_not_eq_false hd)
  omega

/-- A character is none of those that are not of its class. -/
theorem ne_of_class {q : Char → Bool} {c : Char} (h : q c = true) {l : List Char}
    (hl : l.all (fun d => !q d) = true) : ∀ d ∈ l, c ≠ d := by
  rintro d hd rfl
  have hq := List.all_eq_true.1 hl c hd
  rw [h] at hq
  exact absurd hq (by decide)

/-! ## Runs of characters -/

/-- The characters of a class at the front. -/
def takeWhile (q : Char → Bool) : Parser Char ε (List Char) where
  run l := .ok (l.takeWhile q, l.dropWhile q)
  suffix h := by
    obtain ⟨-, rfl⟩ : _ ∧ _ = _ := by simpa using h
    exact List.dropWhile_suffix q

theorem run_takeWhile {q : Char → Bool} {w rest : List Char} (hw : ∀ c ∈ w, q c = true)
    (hr : ∀ c ∈ rest.head?, q c = false) :
    (takeWhile q : Parser Char ε (List Char)).run (w ++ rest) = .ok (w, rest) := by
  have htake : (w ++ rest).takeWhile q = w := by
    rw [List.takeWhile_append_of_pos hw]
    cases rest with
    | nil => simp
    | cons c rest => simp [hr c rfl]
  have hdrop : (w ++ rest).dropWhile q = rest := by
    rw [List.dropWhile_append_of_pos hw]
    cases rest with
    | nil => rfl
    | cons c rest => simp [hr c rfl]
  simp only [takeWhile, htake, hdrop]

theorem yields_takeWhile {T : Char → Prop} {q : Char → Bool} :
    Yields T (takeWhile q : Parser Char ε (List Char)) fun w => ∀ c ∈ w, q c = true := by
  intro toks w rest _ h
  obtain ⟨rfl, -⟩ : toks.takeWhile q = w ∧ _ := by simpa [takeWhile] using h
  exact fun c hc => List.mem_takeWhile_imp hc

/-! ## Numerals -/

/-- The rest of a numeral behind its first character: digits, and at most one
dot between them. -/
def numeral : Parser Char ε (List Char) := do
  let whole ← takeWhile Char.isDigit
  if (← peek) = some '.' then
    bump
    let fraction ← takeWhile Char.isDigit
    pure (whole ++ '.' :: fraction)
  else pure whole

/-- The text behind the first character of a numeral. -/
def IsNumeral (l : List Char) : Prop :=
  (∀ c ∈ l, c.isDigit = true) ∨ ∃ whole fraction, l = whole ++ '.' :: fraction ∧
    (∀ c ∈ whole, c.isDigit = true) ∧ ∀ c ∈ fraction, c.isDigit = true

theorem yields_numeral {T : Char → Prop} :
    Yields T (numeral : Parser Char ε (List Char)) IsNumeral := by
  refine yields_takeWhile.bind fun whole hw => yields_true.bind fun o _ => yields_ite ?_ ?_
  · refine yields_true.bind fun _ _ => yields_takeWhile.bind fun fraction hf => yields_pure ?_
    exact .inr ⟨whole, fraction, rfl, hw, hf⟩
  · exact yields_pure (.inl hw)

/-- A numeral is read back in front of what is no digit and no dot. -/
theorem run_numeral {l rest : List Char} (hl : IsNumeral l)
    (hr : ∀ c ∈ rest.head?, c.isDigit = false ∧ c ≠ '.') :
    (numeral : Parser Char ε (List Char)).run (l ++ rest) = .ok (l, rest) := by
  have hd : ∀ c ∈ rest.head?, c.isDigit = false := fun c hc => (hr c hc).1
  unfold numeral
  rcases hl with hl | ⟨whole, fraction, rfl, hw, hf⟩
  · have hdot : rest.head? ≠ some '.' := fun h => (hr '.' h).2 rfl
    rw [run_bind_of_ok (run_takeWhile hl hd), run_peek_bind, if_neg hdot]
    rfl
  · have hstop : ∀ c ∈ ('.' :: (fraction ++ rest)).head?, c.isDigit = false := by
      rintro c hc
      obtain rfl : '.' = c := by simpa using hc
      decide
    rw [List.append_assoc, List.cons_append, run_bind_of_ok (run_takeWhile hw hstop),
      run_peek_bind, List.head?_cons, if_pos rfl, run_bump_bind, List.tail_cons,
      run_bind_of_ok (run_takeWhile hf hd)]
    rfl

/-! ## Quoted text -/

/-- Double every delimiter. -/
def escape (d : Char) (l : List Char) : List Char := l.flatMap fun c => if c = d then [d, d] else [c]

/-- The text up to a delimiter that is not doubled, and what is behind it. -/
def unquote (d : Char) : List Char → Option (List Char × List Char)
  | [] => none
  | [c] => if c = d then some ([], []) else none
  | c :: c' :: rest =>
    if c = d then
      if c' = d then (unquote d rest).map fun r => (d :: r.1, r.2) else some ([], c' :: rest)
    else (unquote d (c' :: rest)).map fun r => (c :: r.1, r.2)

theorem unquote_suffix {d : Char} {l text rest : List Char}
    (h : unquote d l = some (text, rest)) : rest <:+ l := by
  fun_induction unquote d l generalizing text with
  | case1 => simp at h
  | case2 =>
    obtain ⟨-, rfl⟩ : _ ∧ [] = rest := by simpa using h
    exact List.nil_suffix
  | case3 => simp at h
  | case4 rest' ih =>
    obtain ⟨⟨text', out⟩, hr, hp⟩ := Option.map_eq_some_iff.1 h
    obtain ⟨-, rfl⟩ : _ ∧ out = rest := by simpa using hp
    exact ((ih hr).trans (List.suffix_cons _ _)).trans (List.suffix_cons _ _)
  | case5 c' rest' hc' =>
    obtain ⟨-, rfl⟩ : _ ∧ c' :: rest' = rest := by simpa using h
    exact List.suffix_cons _ _
  | case6 c c' rest' hc ih =>
    obtain ⟨⟨text', out⟩, hr, hp⟩ := Option.map_eq_some_iff.1 h
    obtain ⟨-, rfl⟩ : _ ∧ out = rest := by simpa using hp
    exact (ih hr).trans (List.suffix_cons _ _)

/-- The text up to a delimiter, behind the one that opens it. -/
def quoted (d : Char) (unterminated : ε) : Parser Char ε (List Char) where
  run l :=
    match unquote d l with
    | some r => .ok r
    | none => .error unterminated
  suffix {toks text rest} h := by
    rcases hu : unquote d toks with _ | ⟨text', out⟩
    · simp [hu] at h
    · obtain ⟨-, rfl⟩ : _ ∧ out = rest := by simpa [hu] using h
      exact unquote_suffix hu

/-- Escaped text is read back in front of what is no delimiter. -/
theorem unquote_escape {d : Char} (l : List Char) {rest : List Char} (hr : rest.head? ≠ some d) :
    unquote d (escape d l ++ d :: rest) = some (l, rest) := by
  induction l with
  | nil =>
    cases rest with
    | nil => simp [escape, unquote]
    | cons c rest =>
      have hc : c ≠ d := fun h => hr (by simp [h])
      simp [escape, unquote, hc]
  | cons c l ih =>
    by_cases hc : c = d
    · subst hc
      have hsplit : escape c (c :: l) ++ c :: rest = c :: c :: (escape c l ++ c :: rest) := by
        simp [escape]
      rw [hsplit, unquote, if_pos rfl, if_pos rfl, ih]
      rfl
    · have hsplit : escape d (c :: l) ++ d :: rest = c :: (escape d l ++ d :: rest) := by
        simp [escape, hc]
      obtain ⟨c', more, hmore⟩ : ∃ c' more, escape d l ++ d :: rest = c' :: more :=
        List.exists_cons_of_ne_nil (by simp)
      rw [hsplit, hmore, unquote, if_neg hc, ← hmore, ih]
      rfl

theorem run_quoted {d : Char} {unterminated : ε} (l : List Char) {rest : List Char}
    (hr : rest.head? ≠ some d) :
    (quoted d unterminated).run (escape d l ++ d :: rest) = .ok (l, rest) := by
  simp only [quoted, unquote_escape l hr]

/-! ## All tokens of a text -/

/-- The tokens of a text, of a parser for the next one, if there is one. -/
def tokens (item : Parser Char ε (Option τ)) (l : List Char) : Except ε (List τ) :=
  (exhaust item l).map List.reduceOption

theorem tokens_of_ok {item : Parser Char ε (Option τ)} (hs : Strict item) {l rest : List Char}
    {o : Option τ} {ts : List τ} (hne : l ≠ []) (h : item.run l = .ok (o, rest))
    (ht : tokens item rest = .ok ts) : tokens item l = .ok (o.toList ++ ts) := by
  unfold tokens at ht ⊢
  rw [exhaust_of_ok hs hne h]
  rcases he : exhaust item rest with e | os
  · simp [he, Except.map] at ht
  · obtain rfl : os.reduceOption = ts := by simpa [he, Except.map] using ht
    cases o <;> simp [Except.map, List.reduceOption_cons_of_none, List.reduceOption_cons_of_some]

/-- Pieces with separators between them are read as their tokens, with the
separator's between them, where each piece and the separator are. -/
theorem reads_intercalate {κ χ : Type} (R : List χ → List τ → Prop) (E : List χ → Prop)
    (sep : List χ) {t : τ} (text : κ → List χ) (toks : κ → List τ)
    (hsep : ∀ {rest ts}, R rest ts → R (sep ++ rest) (t :: ts)) (hE : ∀ rest, E (sep ++ rest))
    {rest : List χ} {ts : List τ} (hrest : E rest) (h : R rest ts) :
    ∀ xs : List κ, (∀ x ∈ xs, ∀ rest ts, E rest → R rest ts → R (text x ++ rest) (toks x ++ ts)) →
      R (sep.intercalate (xs.map text) ++ rest) ([t].intercalate (xs.map toks) ++ ts) := by
  intro xs
  induction xs with
  | nil =>
    intro _
    simpa using h
  | cons x xs ih =>
    intro hitem
    have hx := hitem x List.mem_cons_self
    have hxs := ih fun y hy => hitem y (List.mem_cons_of_mem x hy)
    cases xs with
    | nil => simpa using hx rest ts hrest h
    | cons y ys =>
      simp only [List.map_cons, List.intercalate_cons_cons, List.append_assoc, List.cons_append] at hxs ⊢
      exact hx _ _ (hE _) (hsep hxs)

end Lexing

end Epiphany
