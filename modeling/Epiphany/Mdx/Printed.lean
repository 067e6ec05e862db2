import Epiphany.Mdx.Parse
/-!
# MDX text — the tokens of what is written

The canonical text of syntax is read as one list of tokens, whatever the
names in it are. A numeral has to be one, and a path has to name something.
-/

namespace Epiphany

namespace Mdx

open Lexing Parsing Parsing.Parser Digits

/-! ## Syntax that has a text -/

/-- The text of a number token. -/
def IsNumber (text : String) : Prop :=
  ∃ c l, text.toList = c :: l ∧ IsNumeral l ∧
    (c.isDigit = true ∨ c = '-' ∧ l.head?.any Char.isDigit = true)

def MemberRef.Writable (r : MemberRef) : Prop := r.path ≠ []

def Operand.Writable : Operand → Prop
  | property _ => True
  | str _ => True
  | number text => IsNumber text

def Predicate.Writable : Predicate → Prop
  | and l r => l.Writable ∧ r.Writable
  | or l r => l.Writable ∧ r.Writable
  | not p => p.Writable
  | compare left _ right => left.Writable ∧ right.Writable

mutual

def SetExpr.Writable : SetExpr → Prop
  | .set items => AllWritable items
  | .member r => r.Writable
  | .members r => r.Writable
  | .children r => r.Writable
  | .descendants r => r.Writable
  | .filter s p => s.Writable ∧ p.Writable
  | .order s _ _ => s.Writable
  | .crossjoin a b => a.Writable ∧ b.Writable

def AllWritable : List SetExpr → Prop
  | [] => True
  | e :: rest => e.Writable ∧ AllWritable rest

end

theorem allWritable_iff {items : List SetExpr} :
    AllWritable items ↔ ∀ e ∈ items, e.Writable := by
  induction items with
  | nil => simp [AllWritable]
  | cons e rest ih => simp [AllWritable, ih]

/-! ## The tokens of syntax -/

def MemberRef.toks (r : MemberRef) : List Tok :=
  [Tok.dot].intercalate (r.path.map fun n => [.name n true])

def OrderDir.tok : OrderDir → Tok
  | asc => .name "ASC" false
  | desc => .name "DESC" false
  | bAsc => .name "BASC" false
  | bDesc => .name "BDESC" false

def CmpOp.tok : CmpOp → Tok
  | eq => .eq
  | ne => .ne
  | lt => .lt
  | le => .le
  | gt => .gt
  | ge => .ge

def Operand.toks : Operand → List Tok
  | property attr => [.name "Properties" false, .lParen, .str attr, .rParen]
  | str s => [.str s]
  | number n => [.number n]

def Predicate.toks : Predicate → List Tok
  | and l r => .lParen :: l.toks ++ .name "AND" false :: r.toks ++ [.rParen]
  | or l r => .lParen :: l.toks ++ .name "OR" false :: r.toks ++ [.rParen]
  | not p => .lParen :: .name "NOT" false :: p.toks ++ [.rParen]
  | compare left op right => left.toks ++ op.tok :: right.toks

mutual

def SetExpr.toks : SetExpr → List Tok
  | .set items => .lBrace :: [Tok.comma].intercalate (toksAll items) ++ [.rBrace]
  | .member r => r.toks
  | .members r => r.toks ++ [.dot, .name "Members" false]
  | .children r => r.toks ++ [.dot, .name "Children" false]
  | .descendants r => .name "Descendants" false :: .lParen :: r.toks ++ [.rParen]
  | .filter s p => .name "Filter" false :: .lParen :: s.toks ++ .comma :: p.toks ++ [.rParen]
  | .order s attr dir =>
    .name "Order" false :: .lParen :: s.toks ++
      [.comma, .name attr true, .comma, dir.tok, .rParen]
  | .crossjoin a b =>
    .name "Crossjoin" false :: .lParen :: a.toks ++ .comma :: b.toks ++ [.rParen]

def toksAll : List SetExpr → List (List Tok)
  | [] => []
  | e :: rest => e.toks :: toksAll rest

end

theorem displayAll_eq (items : List SetExpr) : displayAll items = items.map SetExpr.display := by
  induction items with
  | nil => rfl
  | cons e rest ih => rw [displayAll, ih, List.map_cons]

theorem toksAll_eq (items : List SetExpr) : toksAll items = items.map SetExpr.toks := by
  induction items with
  | nil => rfl
  | cons e rest ih => rw [toksAll, ih, List.map_cons]

/-! ## Single tokens -/

section

variable {T : CharTable} {rest : List Char} {ts : List Tok}

theorem strict_lexToken : Strict (lexToken T) := strict_next.bind

theorem lex_nil : lex T [] = .ok [] := rfl

theorem lex_space {c : Char} (hc : isWhitespace c = true) (h : lex T rest = .ok ts) :
    lex T (c :: rest) = .ok ts := by
  refine tokens_of_ok strict_lexToken (List.cons_ne_nil c rest) (o := none) ?_ h
  unfold lexToken
  rw [run_next_bind]
  simp [hc]

theorem lex_single {c : Char} {t : Tok} (hw : isWhitespace c = false) (hc : single c = some t)
    (h : lex T rest = .ok ts) : lex T (c :: rest) = .ok (t :: ts) := by
  refine tokens_of_ok strict_lexToken (List.cons_ne_nil c rest) (o := some t) ?_ h
  unfold lexToken
  rw [run_next_bind]
  simp [hw, hc]

/-- A token that may be longer than its first character. -/
theorem lex_long {c : Char} {l : List Char} {t : Tok} (hw : isWhitespace c = false)
    (hc : single c = none) (hl : (longToken T c).run l = .ok (t, rest))
    (h : lex T rest = .ok ts) : lex T (c :: l) = .ok (t :: ts) := by
  refine tokens_of_ok strict_lexToken (List.cons_ne_nil c l) (o := some t) ?_ h
  unfold lexToken
  rw [run_next_bind]
  simp only [List.head?_cons, List.tail_cons, hw, hc]
  rw [if_neg (by decide), run_bind_of_ok hl]
  rfl

theorem lex_bracket (name : String) (hr : rest.head? ≠ some ']') (h : lex T rest = .ok ts) :
    lex T (bracket name ++ rest) = .ok (.name name true :: ts) := by
  have htext : bracket name ++ rest = '[' :: (escape ']' name.toList ++ ']' :: rest) := by
    simp [bracket]
  rw [htext]
  refine lex_long (by decide) (by decide) ?_ h
  unfold longToken
  rw [run_peek_bind, if_neg (by simp), if_neg (by simp), if_neg (by decide), if_neg (by simp),
    if_neg (by decide), if_pos rfl, run_bind_of_ok (run_quoted name.toList hr)]
  simp

theorem lex_quote (s : String) (hr : rest.head? ≠ some '"') (h : lex T rest = .ok ts) :
    lex T (quote s ++ rest) = .ok (.str s :: ts) := by
  have htext : quote s ++ rest = '"' :: (escape '"' s.toList ++ '"' :: rest) := by
    simp [quote]
  rw [htext]
  refine lex_long (by decide) (by decide) ?_ h
  unfold longToken
  rw [run_peek_bind, if_neg (by simp), if_neg (by simp), if_neg (by decide), if_neg (by simp),
    if_neg (by decide), if_neg (by decide), if_pos (.inl rfl),
    run_bind_of_ok (run_quoted s.toList hr)]
  simp

theorem single_of_class {q : Char → Bool} {c : Char} (h : q c = true)
    (hq : ['\x7b', '\x7d', '(', ')', ',', '.', '*', '='].all (fun d => !q d) = true) :
    single c = none := by
  have hne := ne_of_class h hq
  simp only [List.mem_cons, List.not_mem_nil, or_false, forall_eq_or_imp, forall_eq] at hne
  simp [single, hne]

theorem lex_number {text : String} (hn : IsNumber text)
    (hr : ∀ c ∈ rest.head?, c.isDigit = false ∧ c ≠ '.') (h : lex T rest = .ok ts) :
    lex T (text.toList ++ rest) = .ok (.number text :: ts) := by
  obtain ⟨c, l, htext, hl, hc⟩ := hn
  have hback : String.ofList (c :: l) = text := by rw [← htext, String.ofList_toList]
  have hfirst : (decide (c.isDigit = true ∨ c = '-')) = true := by
    rcases hc with hc | ⟨rfl, -⟩
    · simp [hc]
    · simp
  have hne : ∀ d ∈ ['<', '>', '[', '"', '\''], c ≠ d :=
    ne_of_class (q := fun c => decide (c.isDigit = true ∨ c = '-')) hfirst (by decide)
  simp only [List.mem_cons, List.not_mem_nil, or_false, forall_eq_or_imp, forall_eq] at hne
  obtain ⟨hlt, hgt, hbracket, hquote, hquote'⟩ := hne
  rw [htext, List.cons_append]
  refine lex_long ?_ (single_of_class (q := fun c => decide (c.isDigit = true ∨ c = '-')) hfirst
    (by decide)) ?_ h
  · rcases hc with hc | ⟨rfl, -⟩
    · exact isWhitespace_of_isDigit hc
    · decide
  · have hstart : c.isDigit = true ∨ c = '-' ∧ (l ++ rest).head?.any Char.isDigit = true := by
      rcases hc with hc | ⟨hc, hd⟩
      · exact .inl hc
      · right
        cases l with
        | nil => simp at hd
        | cons d l => exact ⟨hc, by simpa using hd⟩
    unfold longToken
    rw [run_peek_bind, if_neg (fun h => hlt h.1), if_neg (fun h => hlt h.1), if_neg hlt,
      if_neg (fun h => hgt h.1), if_neg hgt, if_neg hbracket,
      if_neg (fun h => h.elim hquote hquote'), if_pos hstart, run_bind_of_ok (run_numeral hl hr),
      hback]
    rfl

/-- A word of letters in front of what is in no word. -/
theorem lex_word {w : String} (hne : w.toList ≠ []) (hw : w.toList.all Char.isAlpha = true)
    (hr : ∀ c ∈ rest.head?, T.inWord c = false) (h : lex T rest = .ok ts) :
    lex T (word w ++ rest) = .ok (.name w false :: ts) := by
  unfold word
  obtain ⟨c, l, htext⟩ := List.exists_cons_of_ne_nil hne
  have hback : String.ofList (c :: l) = w := by rw [← htext, String.ofList_toList]
  rw [htext] at hw ⊢
  rw [List.all_eq_true] at hw
  have hc : c.isAlpha = true := hw c List.mem_cons_self
  have hne : ∀ d ∈ ['<', '>', '[', '"', '\'', '-'], c ≠ d := ne_of_class hc (by decide)
  simp only [List.mem_cons, List.not_mem_nil, or_false, forall_eq_or_imp, forall_eq] at hne
  obtain ⟨hlt, hgt, hbracket, hquote, hquote', hminus⟩ := hne
  have hdigit := isDigit_of_isAlpha hc
  have hl : ∀ d ∈ l, T.inWord d = true := by
    intro d hd
    have hd' := hw d (List.mem_cons_of_mem c hd)
    rw [T.inWord_ascii (lt_of_isAlpha hd'), hd', Bool.true_or, Bool.true_or]
  rw [List.cons_append]
  refine lex_long (isWhitespace_of_isAlpha hc) (single_of_class hc (by decide)) ?_ h
  unfold longToken
  rw [run_peek_bind, if_neg (fun h => hlt h.1), if_neg (fun h => hlt h.1), if_neg hlt,
    if_neg (fun h => hgt h.1), if_neg hgt, if_neg hbracket, if_neg (fun h => h.elim hquote hquote'),
    if_neg (by simp [hdigit, hminus]), if_pos, run_bind_of_ok (run_takeWhile hl hr), hback]
  · rfl
  · rw [T.startsWord_ascii (lt_of_isAlpha hc), hc, Bool.true_or]

/-! ## The text of syntax -/

/-- A text that goes on with what ends any token. -/
def Ends (rest : List Char) : Prop :=
  ∀ c ∈ rest.head?, c ∈ [' ', ',', ')', '(', '.', '\x7d', '\n']

theorem ends_cons {c : Char} (hc : c ∈ [' ', ',', ')', '(', '.', '\x7d', '\n']) : Ends (c :: rest) := by
  intro d hd
  obtain rfl : c = d := by simpa using hd
  exact hc

theorem ends_nil : Ends [] := by
  intro c hc
  simp at hc

/-- What does not go on with a character that ends no token. -/
theorem Ends.head_ne (h : Ends rest) {d : Char}
    (hd : d ∉ [' ', ',', ')', '(', '.', '\x7d', '\n']) : rest.head? ≠ some d :=
  fun hr => hd (h d hr)

theorem Ends.inWord (h : Ends rest) : ∀ c ∈ rest.head?, T.inWord c = false := by
  intro c hc
  have hmem := h c hc
  simp only [List.mem_cons, List.not_mem_nil, or_false] at hmem
  rcases hmem with rfl | rfl | rfl | rfl | rfl | rfl | rfl <;>
    rw [T.inWord_ascii (by decide)] <;> decide

theorem lex_ref {r : MemberRef} (hr : Ends rest) (h : lex T rest = .ok ts) :
    lex T (r.display ++ rest) = .ok (r.toks ++ ts) :=
  reads_intercalate (fun l ts => lex T l = .ok ts) Ends ['.']
    bracket (fun n => [.name n true])
    (fun h => lex_single (by decide) (by decide) h) (fun rest => ends_cons (by decide)) hr h r.path
    fun n _ rest ts hr h => lex_bracket n (hr.head_ne (by decide)) h

theorem lex_dir (d : OrderDir) (hr : Ends rest) (h : lex T rest = .ok ts) :
    lex T (d.display ++ rest) = .ok (d.tok :: ts) := by
  cases d with
  | asc => exact lex_word (w := "ASC") (by decide) (by decide) hr.inWord h
  | desc => exact lex_word (w := "DESC") (by decide) (by decide) hr.inWord h
  | bAsc => exact lex_word (w := "BASC") (by decide) (by decide) hr.inWord h
  | bDesc => exact lex_word (w := "BDESC") (by decide) (by decide) hr.inWord h

theorem lex_cmpOp (op : CmpOp) (h : lex T rest = .ok ts) :
    lex T (op.display ++ ' ' :: rest) = .ok (op.tok :: ts) := by
  have hs : lex T (' ' :: rest) = .ok ts := lex_space (by decide) h
  cases op with
  | eq => exact lex_single (by decide) (by decide) hs
  | ne => exact lex_long (by decide) (by decide) rfl hs
  | lt => exact lex_long (by decide) (by decide) rfl hs
  | le => exact lex_long (by decide) (by decide) rfl hs
  | gt => exact lex_long (by decide) (by decide) rfl hs
  | ge => exact lex_long (by decide) (by decide) rfl hs

/-- A text that goes on with what ends an operand: no dot, which a number
would take. -/
def EndsOperand (rest : List Char) : Prop := Ends rest ∧ rest.head? ≠ some '.'

theorem EndsOperand.number (h : EndsOperand rest) :
    ∀ c ∈ rest.head?, c.isDigit = false ∧ c ≠ '.' := by
  intro c hc
  have hmem := h.1 c hc
  simp only [List.mem_cons, List.not_mem_nil, or_false] at hmem
  refine ⟨?_, fun hdot => h.2 (hdot ▸ hc)⟩
  rcases hmem with rfl | rfl | rfl | rfl | rfl | rfl | rfl <;> decide

theorem endsOperand_cons {c : Char} (hc : c ∈ [' ', ',', ')', '(', '\x7d', '\n']) :
    EndsOperand (c :: rest) := by
  constructor
  · refine ends_cons ?_
    simp only [List.mem_cons, List.not_mem_nil, or_false] at hc ⊢
    tauto
  · rintro hdot
    obtain rfl : c = '.' := by simpa using hdot
    exact absurd hc (by decide)

theorem lex_operand {o : Operand} (ho : o.Writable) (hr : EndsOperand rest)
    (h : lex T rest = .ok ts) : lex T (o.display ++ rest) = .ok (o.toks ++ ts) := by
  cases o with
  | property attr =>
    have htext : (Operand.property attr).display ++ rest =
        word "Properties" ++ '(' :: (quote attr ++ ')' :: rest) := by
      simp only [Operand.display, List.append_assoc, List.cons_append, List.nil_append]
    have hclose := lex_single (T := T) (c := ')') (t := .rParen) (by decide) (by decide) h
    have hattr := lex_quote attr (by simp) hclose
    rw [htext]
    exact lex_word (by decide) (by decide) (ends_cons (by decide)).inWord
      (lex_single (by decide) (by decide) hattr)
  | str s => exact lex_quote s (hr.1.head_ne (by decide)) h
  | number n => exact lex_number ho hr.number h

/-- Two predicates with a word between them, in parentheses. -/
theorem lex_joined {l r : List Char} {lt rt : List Tok} {w : String} (hne : w.toList ≠ [])
    (hw : w.toList.all Char.isAlpha = true)
    (hl : ∀ rest ts, EndsOperand rest → lex T rest = .ok ts → lex T (l ++ rest) = .ok (lt ++ ts))
    (hr : ∀ rest ts, EndsOperand rest → lex T rest = .ok ts → lex T (r ++ rest) = .ok (rt ++ ts))
    (h : lex T rest = .ok ts) :
    lex T (('(' :: l ++ ' ' :: word w ++ ' ' :: r ++ [')']) ++ rest) =
      .ok ((.lParen :: lt ++ .name w false :: rt ++ [.rParen]) ++ ts) := by
  have hclose := lex_single (T := T) (c := ')') (t := .rParen) (by decide) (by decide) h
  have hright := lex_space (c := ' ') (by decide) (hr _ _ (endsOperand_cons (by decide)) hclose)
  have hword := lex_word hne hw (ends_cons (by decide)).inWord hright
  have hleft := hl _ _ (endsOperand_cons (by decide)) (lex_space (c := ' ') (by decide) hword)
  have hopen := lex_single (T := T) (c := '(') (t := .lParen) (by decide) (by decide) hleft
  simpa only [List.append_assoc, List.cons_append, List.nil_append] using hopen

theorem lex_predicate {p : Predicate} (hp : p.Writable) : ∀ rest ts, EndsOperand rest →
    lex T rest = .ok ts → lex T (p.display ++ rest) = .ok (p.toks ++ ts) := by
  induction p with
  | and l r ihl ihr =>
    intro rest ts _ h
    exact lex_joined (by decide) (by decide) (ihl hp.1) (ihr hp.2) h
  | or l r ihl ihr =>
    intro rest ts _ h
    exact lex_joined (by decide) (by decide) (ihl hp.1) (ihr hp.2) h
  | not p ih =>
    intro rest ts _ h
    have hclose := lex_single (T := T) (c := ')') (t := .rParen) (by decide) (by decide) h
    have hinner := lex_space (c := ' ') (by decide)
      (ih hp _ _ (endsOperand_cons (by decide)) hclose)
    have hnot := lex_word (w := "NOT") (by decide) (by decide) (ends_cons (by decide)).inWord hinner
    have hopen := lex_single (T := T) (c := '(') (t := .lParen) (by decide) (by decide) hnot
    simpa only [Predicate.display, Predicate.toks, List.append_assoc, List.cons_append,
      List.nil_append] using hopen
  | compare left op right =>
    intro rest ts hr h
    have hright := lex_operand hp.2 hr h
    have hop := lex_space (c := ' ') (by decide) (lex_cmpOp op hright)
    have hleft := lex_operand hp.1 (endsOperand_cons (by decide)) hop
    simpa only [Predicate.display, Predicate.toks, List.append_assoc, List.cons_append,
      List.nil_append] using hleft

/-- A function of what is in its parentheses. -/
theorem lex_call {w : String} {a : List Char} {b : List Tok} (hne : w.toList ≠ [])
    (hw : w.toList.all Char.isAlpha = true)
    (ha : ∀ rest ts, EndsOperand rest → lex T rest = .ok ts → lex T (a ++ rest) = .ok (b ++ ts))
    (h : lex T rest = .ok ts) :
    lex T (word w ++ '(' :: (a ++ ')' :: rest)) =
      .ok (.name w false :: .lParen :: (b ++ .rParen :: ts)) := by
  have hclose := lex_single (T := T) (c := ')') (t := .rParen) (by decide) (by decide) h
  have hargs := ha _ _ (endsOperand_cons (by decide)) hclose
  have hopen := lex_single (T := T) (c := '(') (t := .lParen) (by decide) (by decide) hargs
  exact lex_word hne hw (ends_cons (by decide)).inWord hopen

/-- A member, and what is behind its dot. -/
theorem lex_postfix {r : MemberRef} {w : String} (hne : w.toList ≠ [])
    (hw : w.toList.all Char.isAlpha = true) (hr : Ends rest) (h : lex T rest = .ok ts) :
    lex T (r.display ++ '.' :: (word w ++ rest)) =
      .ok (r.toks ++ .dot :: .name w false :: ts) := by
  have hdot := lex_single (T := T) (c := '.') (t := .dot) (by decide) (by decide)
    (lex_word hne hw hr.inWord h)
  exact lex_ref (ends_cons (by decide)) hdot

/-- What comes behind a comma and a blank. -/
theorem lex_comma (h : lex T rest = .ok ts) :
    lex T (',' :: ' ' :: rest) = .ok (.comma :: ts) :=
  lex_single (by decide) (by decide) (lex_space (by decide) h)

mutual

theorem lex_set : ∀ (e : SetExpr), e.Writable → ∀ rest ts, EndsOperand rest →
    lex T rest = .ok ts → lex T (e.display ++ rest) = .ok (e.toks ++ ts)
  | .set items, he, rest, ts, _, h => by
    have hclose := lex_single (T := T) (c := '\x7d') (t := .rBrace) (by decide) (by decide) h
    have hitems := reads_intercalate (fun l ts => lex T l = .ok ts) EndsOperand
      [',', ' '] (t := .comma) SetExpr.display SetExpr.toks (fun h => lex_comma h)
      (fun rest => endsOperand_cons (by decide)) (endsOperand_cons (by decide)) hclose items
      (lex_sets items he)
    have hopen := lex_single (T := T) (c := '\x7b') (t := .lBrace) (by decide) (by decide) hitems
    simpa only [SetExpr.display, SetExpr.toks, displayAll_eq, toksAll_eq,
      List.append_assoc, List.cons_append, List.nil_append] using hopen
  | .member r, _, rest, ts, hr, h => lex_ref hr.1 h
  | .members r, _, rest, ts, hr, h => by
    have hp := lex_postfix (T := T) (r := r) (w := "Members") (by decide) (by decide) hr.1 h
    simpa only [SetExpr.display, SetExpr.toks, List.append_assoc,
      List.cons_append, List.nil_append] using hp
  | .children r, _, rest, ts, hr, h => by
    have hp := lex_postfix (T := T) (r := r) (w := "Children") (by decide) (by decide) hr.1 h
    simpa only [SetExpr.display, SetExpr.toks, List.append_assoc,
      List.cons_append, List.nil_append] using hp
  | .descendants r, _, rest, ts, _, h => by
    have hc := lex_call (T := T) (w := "Descendants") (a := r.display) (by decide) (by decide)
      (fun rest ts hr h => lex_ref hr.1 h) h
    simpa only [SetExpr.display, SetExpr.toks, List.append_assoc,
      List.cons_append, List.nil_append] using hc
  | .filter s p, he, rest, ts, _, h => by
    have hc := lex_call (T := T) (w := "Filter") (a := s.display ++ ',' :: ' ' :: p.display)
      (b := s.toks ++ .comma :: p.toks) (by decide) (by decide) (fun rest ts hr h => by
        have hp := lex_predicate he.2 rest ts hr h
        have hs := lex_set s he.1 _ _ (endsOperand_cons (by decide)) (lex_comma hp)
        simpa only [List.append_assoc, List.cons_append] using hs) h
    simpa only [SetExpr.display, SetExpr.toks, List.append_assoc,
      List.cons_append, List.nil_append] using hc
  | .order s attr dir, he, rest, ts, _, h => by
    have hc := lex_call (T := T) (w := "Order")
      (a := s.display ++ ',' :: ' ' :: (bracket attr ++ ',' :: ' ' :: dir.display))
      (b := s.toks ++ [.comma, .name attr true, .comma, dir.tok]) (by decide) (by decide)
      (fun rest ts hr h => by
        have hk := lex_bracket attr (by simp) (lex_comma (lex_dir dir hr.1 h))
        have hs := lex_set s he _ _ (endsOperand_cons (by decide)) (lex_comma hk)
        simpa only [List.append_assoc, List.cons_append, List.nil_append] using hs) h
    simpa only [SetExpr.display, SetExpr.toks, List.append_assoc,
      List.cons_append, List.nil_append] using hc
  | .crossjoin l r, he, rest, ts, _, h => by
    have hc := lex_call (T := T) (w := "Crossjoin") (a := l.display ++ ',' :: ' ' :: r.display)
      (b := l.toks ++ .comma :: r.toks) (by decide) (by decide) (fun rest ts hr h => by
        have hright := lex_set r he.2 rest ts hr h
        have hleft := lex_set l he.1 _ _ (endsOperand_cons (by decide)) (lex_comma hright)
        simpa only [List.append_assoc, List.cons_append] using hleft) h
    simpa only [SetExpr.display, SetExpr.toks, List.append_assoc,
      List.cons_append, List.nil_append] using hc

theorem lex_sets : ∀ (items : List SetExpr), AllWritable items → ∀ e ∈ items, ∀ rest ts,
    EndsOperand rest → lex T rest = .ok ts → lex T (e.display ++ rest) = .ok (e.toks ++ ts)
  | [], _ => by simp
  | e :: items, he => by
    rintro e' (_ | ⟨_, hm⟩)
    · exact lex_set e he.1
    · exact lex_sets items he.2 e' hm

end

end

/-! ## Queries -/

def AxisName.Writable : AxisName → Prop
  | ordinal n => 2 ≤ n
  | _ => True

/-- A query that has a text: it has axes, no two the same. -/
structure Query.Writable (q : Query) : Prop where
  axes_ne : q.axes ≠ []
  axes : ∀ a ∈ q.axes, a.1.Writable ∧ a.2.Writable
  nodup : (q.axes.map Prod.fst).Nodup
  slicer : ∀ r ∈ q.slicer, r.Writable

def AxisName.tok : AxisName → Tok
  | columns => .name "COLUMNS" false
  | rows => .name "ROWS" false
  | ordinal n => .number (String.ofList (Nat.toDigits 10 n.toNat))

def axisToks (a : AxisName × SetExpr) : List Tok := a.2.toks ++ [.name "ON" false, a.1.tok]

def slicerToks (slicer : List MemberRef) : List Tok :=
  if slicer = [] then []
  else
    .name "WHERE" false :: .lParen :: [Tok.comma].intercalate (slicer.map MemberRef.toks) ++
      [.rParen]

def Query.toks (q : Query) : List Tok :=
  .name "SELECT" false :: [Tok.comma].intercalate (q.axes.map axisToks) ++
    .name "FROM" false :: .name q.cube true :: slicerToks q.slicer

section

variable {T : CharTable} {rest : List Char} {ts : List Tok}

theorem isNumber_toDigits (n : Nat) : IsNumber (String.ofList (Nat.toDigits 10 n)) := by
  have hd : ∀ c ∈ Nat.toDigits 10 n, c.isDigit = true := fun c hc => isDigit_of_mem_toDigits hc
  obtain ⟨c, l, hl⟩ := List.exists_cons_of_ne_nil (Nat.toDigits_ne_nil (b := 10) (n := n))
  rw [hl] at hd
  refine ⟨c, l, by rw [String.toList_ofList, hl], .inl fun d hm => hd d ?_, .inl (hd c ?_)⟩
  · exact List.mem_cons_of_mem c hm
  · exact List.mem_cons_self

theorem lex_axisName (a : AxisName) (hr : EndsOperand rest) (h : lex T rest = .ok ts) :
    lex T (a.display ++ rest) = .ok (a.tok :: ts) := by
  cases a with
  | columns => exact lex_word (by decide) (by decide) hr.1.inWord h
  | rows => exact lex_word (by decide) (by decide) hr.1.inWord h
  | ordinal n =>
    have hn := lex_number (T := T) (isNumber_toDigits n.toNat) hr.number h
    rwa [String.toList_ofList] at hn

theorem lex_axis {a : AxisName × SetExpr} (ha : a.2.Writable) (hr : EndsOperand rest)
    (h : lex T rest = .ok ts) : lex T (displayAxis a ++ rest) = .ok (axisToks a ++ ts) := by
  have haxis := lex_space (c := ' ') (by decide) (lex_axisName a.1 hr h)
  have hon := lex_space (c := ' ') (by decide)
    (lex_word (w := "ON") (by decide) (by decide) (ends_cons (by decide)).inWord haxis)
  have hset := lex_space (c := ' ') (by decide) (lex_space (c := ' ') (by decide)
    (lex_set a.2 ha _ _ (endsOperand_cons (by decide)) hon))
  simpa only [displayAxis, axisToks, List.append_assoc, List.cons_append, List.nil_append]
    using hset

theorem lex_slicer {slicer : List MemberRef} :
    lex T (displaySlicer slicer) = .ok (slicerToks slicer) := by
  unfold displaySlicer slicerToks
  by_cases hs : slicer = []
  · rw [if_pos hs, if_pos hs]
    rfl
  · rw [if_neg hs, if_neg hs]
    have hclose := lex_space (T := T) (c := ' ') (by decide)
      (lex_single (c := ')') (t := .rParen) (by decide) (by decide) lex_nil)
    have hrefs := reads_intercalate (fun l ts => lex T l = .ok ts) Ends [',', ' '] (t := .comma)
      MemberRef.display MemberRef.toks (fun h => lex_comma h) (fun rest => ends_cons (by decide))
      (ends_cons (by decide)) hclose slicer fun r _ rest ts hr h => lex_ref hr h
    have hopen := lex_space (c := ' ') (by decide) (lex_single (c := '(') (t := .lParen)
      (by decide) (by decide) (lex_space (c := ' ') (by decide) hrefs))
    have hwhere := lex_space (c := '\n') (by decide)
      (lex_word (w := "WHERE") (by decide) (by decide) (ends_cons (by decide)).inWord hopen)
    simpa only [List.append_assoc, List.cons_append, List.nil_append] using hwhere

theorem ends_displaySlicer (slicer : List MemberRef) : Ends (displaySlicer slicer) := by
  unfold displaySlicer
  split
  · exact ends_nil
  · exact ends_cons (by decide)

theorem lex_query {q : Query} (hq : q.Writable) : lex T q.display = .ok q.toks := by
  have hcube := lex_space (c := ' ') (by decide) (lex_bracket q.cube
    ((ends_displaySlicer q.slicer).head_ne (by decide)) (lex_slicer (T := T)))
  have hfrom := lex_space (c := '\n') (by decide)
    (lex_word (w := "FROM") (by decide) (by decide) (ends_cons (by decide)).inWord hcube)
  have hcomma : ∀ {rest ts}, lex T rest = .ok ts →
      lex T ([',', '\n'] ++ rest) = .ok (.comma :: ts) :=
    fun h => lex_single (by decide) (by decide) (lex_space (by decide) h)
  have haxes := reads_intercalate (fun l ts => lex T l = .ok ts) EndsOperand [',', '\n']
    (t := .comma) displayAxis axisToks hcomma (fun rest => endsOperand_cons (by decide))
    (endsOperand_cons (by decide)) hfrom q.axes fun a ha rest ts hr h => lex_axis (hq.axes a ha).2 hr h
  have hselect := lex_word (w := "SELECT") (by decide) (by decide) (ends_cons (by decide)).inWord
    (lex_space (c := '\n') (by decide) haxes)
  simpa only [Query.display, Query.toks, List.append_assoc, List.cons_append, List.nil_append]
    using hselect

end

end Mdx

end Epiphany
