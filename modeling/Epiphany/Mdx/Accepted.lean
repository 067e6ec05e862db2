import Epiphany.Core.Value
import Epiphany.Mdx.RoundTrip
/-!
# MDX — what is accepted, and its text

Every expression and query that is read has a text: its numbers are numerals,
its paths name something, and its axes differ. So the text of what is accepted
is accepted, and as the same tree, exactly if it does not nest too deep; a
chain of crossjoins may.
-/

namespace Epiphany

namespace Mdx

open Lexing Parsing Parsing.Parser Loop

/-! ## Tokens -/

/-- A token that is read back: its number is a numeral. -/
def Tok.Readable : Tok → Prop
  | number text => IsNumber text
  | _ => True

/-- A numeral in front of which a digit is next starts with it. -/
theorem head_numeral {toks text rest : List Char}
    (h : (numeral : Parser Char ParseError (List Char)).run toks = .ok (text, rest))
    (hd : toks.head?.any Char.isDigit = true) : text.head?.any Char.isDigit = true := by
  cases toks with
  | nil => simp at hd
  | cons d toks =>
    have hd' : d.isDigit = true := by simpa using hd
    obtain ⟨whole, out, hw, h⟩ := run_bind_eq_ok h
    obtain ⟨rfl, rfl⟩ : (d :: toks).takeWhile Char.isDigit = whole ∧ _ = out := by
      simpa [Lexing.takeWhile] using hw
    rw [List.takeWhile_cons_of_pos hd', run_peek_bind] at h
    obtain ⟨-, h⟩ | ⟨-, h⟩ := run_ite_eq_ok h
    · rw [run_bump_bind] at h
      obtain ⟨fraction, out, -, h⟩ := run_bind_eq_ok h
      obtain ⟨rfl, -⟩ : _ ∧ out = rest := by simpa using h
      simpa using hd'
    · obtain ⟨rfl, -⟩ : _ ∧ _ = rest := by simpa using h
      simpa using hd'

theorem yields_longToken (T : CharTable) (c : Char) :
    Yields (fun _ => True) (longToken T c) Tok.Readable := by
  intro toks t rest ht h
  unfold longToken at h
  rw [run_peek_bind] at h
  obtain ⟨-, h⟩ | ⟨-, h⟩ := run_ite_eq_ok h
  · exact (yields_true.bind fun _ _ => yields_pure (by trivial)) ht h
  obtain ⟨-, h⟩ | ⟨-, h⟩ := run_ite_eq_ok h
  · exact (yields_true.bind fun _ _ => yields_pure (by trivial)) ht h
  obtain ⟨-, h⟩ | ⟨-, h⟩ := run_ite_eq_ok h
  · exact (yields_pure (by trivial) : Yields _ _ Tok.Readable) ht h
  obtain ⟨-, h⟩ | ⟨-, h⟩ := run_ite_eq_ok h
  · exact (yields_true.bind fun _ _ => yields_pure (by trivial)) ht h
  obtain ⟨-, h⟩ | ⟨-, h⟩ := run_ite_eq_ok h
  · exact (yields_pure (by trivial) : Yields _ _ Tok.Readable) ht h
  obtain ⟨-, h⟩ | ⟨-, h⟩ := run_ite_eq_ok h
  · exact (yields_true.bind fun _ _ => yields_pure (by trivial)) ht h
  obtain ⟨-, h⟩ | ⟨-, h⟩ := run_ite_eq_ok h
  · exact (yields_true.bind fun _ _ => yields_pure (by trivial)) ht h
  obtain ⟨hc, h⟩ | ⟨-, h⟩ := run_ite_eq_ok h
  · obtain ⟨text, out, hn, h⟩ := run_bind_eq_ok h
    obtain ⟨rfl, -⟩ : _ ∧ out = rest := by simpa using h
    refine ⟨c, text, by simp, yields_numeral ht hn, ?_⟩
    exact hc.imp_right fun hc => ⟨hc.1, head_numeral hn hc.2⟩
  obtain ⟨-, h⟩ | ⟨-, h⟩ := run_ite_eq_ok h
  · exact (yields_true.bind fun _ _ => yields_pure (by trivial)) ht h
  · exact yields_fail ht h

theorem yields_lexToken (T : CharTable) :
    Yields (fun _ => True) (lexToken T) fun o => ∀ t ∈ o, t.Readable := by
  refine yields_true.bind fun o _ => ?_
  cases o with
  | none => exact yields_pure (by simp)
  | some c =>
    refine yields_ite (yields_pure (by simp)) ?_
    rcases hs : single c with _ | t
    · exact (yields_longToken T c).bind fun t ht => yields_pure (by simpa using ht)
    · refine yields_pure ?_
      rintro t' ht'
      obtain rfl : t = t' := by simpa using ht'
      unfold single at hs
      split_ifs at hs <;> (obtain rfl := Option.some.inj hs; trivial)

/-- The tokens of any text are read back. -/
theorem readable_of_lex {T : CharTable} {src : List Char} {toks : List Tok}
    (h : lex T src = .ok toks) : ∀ t ∈ toks, t.Readable := by
  unfold lex tokens at h
  rcases he : exhaust (lexToken T) src with e | os
  · simp [he, Except.map] at h
  · obtain rfl : os.reduceOption = toks := by simpa [he, Except.map] using h
    intro t ht
    have hos := (yields_lexToken T).exhaust (fun _ _ => trivial) he
    exact hos (some t) (List.reduceOption_mem_iff.1 ht) t rfl

/-! ## Syntax -/

theorem yields_unexpected {α : Type} {P : α → Prop} (expected : String) :
    Yields Tok.Readable (unexpected expected : Parser Tok ParseError α) P := by
  refine yields_true.bind fun o _ => ?_
  cases o with
  | none => exact yields_fail
  | some t => exact yields_fail

theorem yields_path (first expected : String) :
    Yields Tok.Readable (chain onDotName (fun _ => expectName expected)
      (fun path _ x => path ++ [x]) [first]) (· ≠ []) :=
  yields_chain (fun _ _ => True) (fun _ => yields_true) (fun _ _ _ _ _ => by simp) (by simp)

theorem yields_memberRef : Yields Tok.Readable parseMemberRef MemberRef.Writable :=
  yields_true.bind fun first _ => (yields_path first _).bind fun _ h => yields_pure h

theorem yields_postfixTurn (path : List String) :
    Yields Tok.Readable (postfixTurn path) fun
      | .again path => path ≠ []
      | .done e => path ≠ [] → e.Writable := by
  refine yields_true.bind fun o _ => ?_
  split
  · rename_i text bracketed
    refine yields_ite (yields_true.bind fun _ _ => yields_pure fun hpath => ?_)
      (yields_true.bind fun x _ => yields_pure (by simp))
    unfold postfixSet
    split
    · exact hpath
    · split
      · exact hpath
      · exact hpath
  · exact yields_unexpected _

theorem yields_memberOrPostfix : Yields Tok.Readable parseMemberOrPostfix SetExpr.Writable := by
  refine yields_true.bind fun first _ => ?_
  have hfirst : [first] ≠ [] := by simp
  have hstop : ∀ path : List String, path ≠ [] → (SetExpr.member ⟨path⟩).Writable :=
    fun _ h => h
  refine yields_repeatWhile (· ≠ []) (fun _ path hpath => ?_) hstop hfirst
  refine (yields_postfixTurn path).mono fun turn h => ?_
  cases turn with
  | again path' => exact h
  | done e => exact h hpath

theorem yields_propertyOperand : Yields Tok.Readable parsePropertyOperand Operand.Writable := by
  refine yields_true.bind fun first _ => yields_true.bind fun path _ => ?_
  refine yields_ite yields_fail (yields_true.bind fun _ _ => yields_true.bind fun o _ => ?_)
  split
  · exact yields_true.bind fun _ _ => yields_true.bind fun _ _ => yields_pure trivial
  · exact yields_unexpected _

theorem yields_operand : Yields Tok.Readable parseOperand Operand.Writable := by
  refine yields_peek.bind fun o ho => ?_
  split
  · exact yields_true.bind fun _ _ => yields_pure trivial
  · exact yields_true.bind fun _ _ => yields_pure (ho _ rfl)
  · exact yields_propertyOperand
  · exact yields_unexpected _

theorem yields_comparison : Yields Tok.Readable parseComparison Predicate.Writable :=
  yields_operand.bind fun _ hl => yields_true.bind fun _ _ =>
    yields_operand.bind fun _ hr => yields_pure ⟨hl, hr⟩

theorem yields_predicate {not : Parser Tok ParseError Predicate}
    (h : Yields Tok.Readable not Predicate.Writable) :
    Yields Tok.Readable (parsePredicate not) Predicate.Writable := by
  have hand : Yields Tok.Readable (parseAnd not) Predicate.Writable :=
    h.bind fun _ hp =>
      yields_chain (fun _ => Predicate.Writable) (fun _ => h) (fun _ _ _ hl hr => ⟨hl, hr⟩) hp
  exact hand.bind fun _ hp =>
    yields_chain (fun _ => Predicate.Writable) (fun _ => hand) (fun _ _ _ hl hr => ⟨hl, hr⟩) hp

theorem yields_not : ∀ n, Yields Tok.Readable (parseNot n) Predicate.Writable := by
  intro n
  induction n with
  | zero => exact yields_fail
  | succ n ih =>
    refine yields_true.bind fun front _ => yields_ite ?_ (yields_ite ?_ yields_comparison)
    · exact yields_true.bind fun _ _ => ih.bind fun _ hp => yields_pure hp
    · exact yields_true.bind fun _ _ => (yields_predicate ih).bind fun _ hp =>
        yields_true.bind fun _ _ => yields_pure hp

section

variable {set : Parser Tok ParseError SetExpr} {predicate : Parser Tok ParseError Predicate}
variable (hs : Yields Tok.Readable set SetExpr.Writable)
variable (hp : Yields Tok.Readable predicate Predicate.Writable)

include hs

theorem yields_setLiteral : Yields Tok.Readable (parseSetLiteral set) SetExpr.Writable := by
  refine yields_true.bind fun _ _ => yields_true.bind fun _ _ => yields_ite ?_ ?_
  · exact yields_true.bind fun _ _ => yields_pure trivial
  · refine hs.bind fun first hfirst => ?_
    have hitems : Yields Tok.Readable (chain (onTok .comma) (fun _ => set)
        (fun items _ x => items ++ [x]) [first]) fun items => ∀ e ∈ items, e.Writable :=
      yields_chain (fun _ => SetExpr.Writable) (fun _ => hs)
        (fun acc _ x hacc hx => by simpa [or_imp, forall_and] using ⟨hacc, hx⟩) (by simpa)
    exact hitems.bind fun items h => yields_true.bind fun _ _ =>
      yields_pure (allWritable_iff.2 h)

include hp

theorem yields_funcBody (name : String) :
    Yields Tok.Readable (parseFuncBody set predicate name) SetExpr.Writable := by
  refine yields_ite ?_ (yields_ite ?_ (yields_ite ?_ ?_))
  · exact hs.bind fun _ h => yields_true.bind fun _ _ => hp.bind fun _ h' =>
      yields_true.bind fun _ _ => yields_pure ⟨h, h'⟩
  · refine hs.bind fun _ h => yields_true.bind fun _ _ => yields_true.bind fun _ _ =>
      yields_true.bind fun _ _ => yields_ite ?_ ?_
    · exact yields_true.bind fun _ _ => yields_true.bind fun _ _ => yields_true.bind fun _ _ =>
        yields_pure h
    · exact yields_true.bind fun _ _ => yields_pure h
  · refine hs.bind fun a ha => yields_true.bind fun _ _ => hs.bind fun b hb => ?_
    have hab : (SetExpr.crossjoin a b).Writable := ⟨ha, hb⟩
    have hall : ∀ e : SetExpr, e.Writable → Yields Tok.Readable (chain (onTok .comma)
        (fun _ => set) (fun acc _ x => SetExpr.crossjoin acc x) e) SetExpr.Writable := fun _ he =>
      yields_chain (fun _ => SetExpr.Writable) (fun _ => hs) (fun _ _ _ hl hr => ⟨hl, hr⟩) he
    exact (hall _ hab).bind fun _ h => yields_true.bind fun _ _ => yields_pure h
  · exact yields_memberRef.bind fun _ h => yields_true.bind fun _ _ => yields_pure h

theorem yields_primary : Yields Tok.Readable (parsePrimary set predicate) SetExpr.Writable := by
  refine yields_true.bind fun o _ => ?_
  split
  · exact yields_setLiteral hs
  · refine yields_true.bind fun _ _ => yields_ite ?_ yields_memberOrPostfix
    exact yields_true.bind fun _ _ => yields_true.bind fun _ _ => yields_funcBody hs hp _
  · exact yields_unexpected _

end

theorem yields_set : ∀ n, Yields Tok.Readable (parseSet n) SetExpr.Writable := by
  intro n
  induction n with
  | zero => exact yields_fail
  | succ n ih =>
    have hprimary := yields_primary ih (yields_predicate (yields_not n))
    exact hprimary.bind fun _ h => yields_chain (fun _ => SetExpr.Writable) (fun _ => hprimary)
      (fun _ _ _ hl hr => ⟨hl, hr⟩) h

/-! ## Queries -/

theorem yields_axisName : Yields Tok.Readable parseAxisName AxisName.Writable := by
  refine yields_true.bind fun o _ => ?_
  split
  · split
    · rename_i n _
      refine yields_true.bind fun _ _ => yields_pure ?_
      by_cases h0 : n = 0
      · rw [if_pos h0]
        trivial
      by_cases h1 : n = 1
      · rw [if_neg h0, if_pos h1]
        trivial
      · rw [if_neg h0, if_neg h1]
        show 2 ≤ n
        rw [UInt32.le_iff_toNat_le]
        have h0' : n.toNat ≠ 0 := fun h => h0 (UInt32.toNat_inj.1 h)
        have h1' : n.toNat ≠ 1 := fun h => h1 (UInt32.toNat_inj.1 h)
        show 2 ≤ n.toNat
        omega
    · exact yields_unexpected _
  · refine yields_ite (yields_true.bind fun _ _ => yields_pure trivial) (yields_ite ?_ yields_fail)
    exact yields_true.bind fun _ _ => yields_pure trivial
  · exact yields_unexpected _

theorem yields_axis (axes : List (AxisName × SetExpr)) :
    Yields Tok.Readable (parseAxis axes) fun a =>
      (a.1.Writable ∧ a.2.Writable) ∧ ∀ b ∈ axes, b.1 ≠ a.1 := by
  refine (yields_set _).bind fun set hset => yields_true.bind fun _ _ =>
    yields_axisName.bind fun axis haxis => ?_
  by_cases hany : axes.any (fun a => a.1 = axis) = true
  · rw [if_pos hany]
    exact yields_fail
  · rw [if_neg hany]
    refine yields_pure ⟨⟨haxis, hset⟩, fun b hb heq => hany ?_⟩
    exact List.any_eq_true.2 ⟨b, hb, by simpa using heq⟩

theorem yields_slicer :
    Yields Tok.Readable parseSlicer fun slicer => ∀ r ∈ slicer, r.Writable := by
  refine yields_true.bind fun _ _ => yields_memberRef.bind fun first hfirst => ?_
  have hitems : Yields Tok.Readable (chain (onTok .comma) (fun _ => parseMemberRef)
      (fun out _ x => out ++ [x]) [first]) fun slicer => ∀ r ∈ slicer, r.Writable :=
    yields_chain (fun _ => MemberRef.Writable) (fun _ => yields_memberRef)
      (fun acc _ x hacc hx => by simpa [or_imp, forall_and] using ⟨hacc, hx⟩) (by simpa)
  exact hitems.bind fun _ h => yields_true.bind fun _ _ => yields_pure h

/-- Axes that differ, and have texts. -/
def WritableAxes (axes : List (AxisName × SetExpr)) : Prop :=
  axes ≠ [] ∧ (∀ a ∈ axes, a.1.Writable ∧ a.2.Writable) ∧ (axes.map Prod.fst).Nodup

theorem yields_query : Yields Tok.Readable parseQueryTokens Query.Writable := by
  refine yields_true.bind fun _ _ => yields_true.bind fun _ _ => yields_ite yields_fail ?_
  refine (yields_axis []).bind fun first hfirst => ?_
  have haxes : Yields Tok.Readable (chain (onTok .comma) parseAxis
      (fun axes _ a => axes ++ [a]) [first]) WritableAxes := by
    refine yields_chain _ yields_axis (fun axes _ a hacc ha => ⟨by simp, ?_, ?_⟩)
      ⟨by simp, by simpa using hfirst.1, by simp⟩
    · intro b hb
      obtain hb | hb := List.mem_append.1 hb
      · exact hacc.2.1 b hb
      · obtain rfl : b = a := by simpa using hb
        exact ha.1
    · rw [List.map_append, List.nodup_append]
      refine ⟨hacc.2.2, by simp, ?_⟩
      rintro _ hb _ hm rfl
      obtain ⟨b, hb, hb'⟩ := List.mem_map.1 hb
      exact ha.2 b hb (hb'.trans (by simpa using hm))
  refine haxes.bind fun axes ha => yields_true.bind fun _ _ => yields_true.bind fun cube _ =>
    yields_true.bind fun _ _ => yields_ite ?_ (yields_pure ?_)
  · refine yields_true.bind fun _ _ => yields_slicer.bind fun slicer hs => yields_pure ?_
    exact ⟨ha.1, ha.2.1, ha.2.2, hs⟩
  · exact ⟨ha.1, ha.2.1, ha.2.2, by simp⟩

/-! ## Round trips -/

section

variable {T : CharTable}

/-- A value that is read of a text is read off its tokens. -/
theorem parseAll_eq_ok {α : Type} {p : Parser Tok ParseError α} {src : List Char} {x : α}
    (h : parseAll T p src = .ok x) :
    ∃ toks, lex T src = .ok toks ∧ p.run toks = .ok (x, []) := by
  unfold parseAll at h
  obtain ⟨toks, hlex, h⟩ := bind_eq_ok.1 h
  obtain ⟨⟨y, rest⟩, hrun, h⟩ := bind_eq_ok.1 h
  by_cases hr : rest = []
  · subst hr
    obtain rfl : y = x := by simpa using h
    exact ⟨toks, hlex, hrun⟩
  · simp [hr] at h

theorem parseAll_of_lex {α : Type} {p : Parser Tok ParseError α} {src : List Char}
    {toks : List Tok} {n l : Nat} {x : α} (hlex : lex T src = .ok toks)
    (hrun : p.run toks = within .tooDeep n l x []) :
    parseAll T p src = if l ≤ n then .ok x else .error .tooDeep := by
  unfold parseAll within at *
  rw [hlex]
  show (p.run toks >>= _) = _
  rw [hrun]
  by_cases hl : l ≤ n
  · rw [if_pos hl, if_pos hl]
    rfl
  · rw [if_neg hl, if_neg hl]
    rfl

/-- What is read has a text. -/
theorem writable_of_parseAll {α : Type} {p : Parser Tok ParseError α} {P : α → Prop}
    (hp : Yields Tok.Readable p P) {src : List Char} {x : α} (h : parseAll T p src = .ok x) :
    P x := by
  obtain ⟨toks, hlex, hrun⟩ := parseAll_eq_ok h
  exact hp (readable_of_lex hlex) hrun

/-- The text of a set expression, read back. -/
theorem parse_display {e : SetExpr} (he : e.Writable) :
    parse T e.display = if e.levels ≤ maxParseDepth then .ok e else .error .tooDeep := by
  have hlex := lex_set (T := T) e he [] [] ⟨ends_nil, by simp⟩ lex_nil
  have hrun := run_parseSet e he maxParseDepth [] ⟨by simp, by simp⟩
  rw [List.append_nil, List.append_nil] at hlex
  rw [List.append_nil] at hrun
  exact parseAll_of_lex hlex hrun

theorem parseQuery_display {q : Query} (hq : q.Writable) :
    parseQuery T q.display = if q.levels ≤ maxParseDepth then .ok q else .error .tooDeep :=
  parseAll_of_lex (lex_query hq) (run_parseQueryTokens hq)

theorem ite_eq_ok_iff {α : Type} {c : Prop} [Decidable c] {x : α} {e : ParseError} :
    (if c then .ok x else .error e : Except ParseError α) = .ok x ↔ c := by
  by_cases hc : c <;> simp [hc]

end

/-- The text of what is accepted is read back exactly if it does not nest too
deep. -/
theorem readsBack_iff (T : CharTable) :
    (∀ src e, parse T src = .ok e →
      (parse T e.display = .ok e ↔ e.levels ≤ maxParseDepth)) ∧
    ∀ src q, parseQuery T src = .ok q →
      (parseQuery T q.display = .ok q ↔ q.levels ≤ maxParseDepth) := by
  constructor
  · intro src e he
    rw [parse_display (writable_of_parseAll (yields_set _) he)]
    exact ite_eq_ok_iff
  · intro src q hq
    rw [parseQuery_display (writable_of_parseAll yields_query hq)]
    exact ite_eq_ok_iff

/-- Large regions under one with a bracket in its name, ordered and crossed
with the years. -/
def regionsText : List Char :=
  ["order(Filter(", "[Region].", "[N]]orth].", "Children, ", "Properties(", "\"size\") > 10 ",
    "and not ", "Properties(", "\"zone\") = ", "\"a\"\"b\"), ", "[size], ", "desc) * ",
    "[Year].", "Members"].flatMap String.toList

/-- A query of them on rows, with a slicer. -/
def askedText : List Char :=
  "select ".toList ++ regionsText ++ [" on rows, ", "\x7b[Month].", "[May]\x7d ", "on 0 ",
    "from [Sales] ", "where (", "[Measure].", "[Amount])"].flatMap String.toList

/-- Both texts are written otherwise than they are printed, and their printed
texts are read back. -/
theorem readsBack_askedText :
    (∃ e, parse asciiTable regionsText = .ok e ∧ e.display ≠ regionsText ∧
      parse asciiTable e.display = .ok e) ∧
    ∃ q, parseQuery asciiTable askedText = .ok q ∧ q.display ≠ askedText ∧
      parseQuery asciiTable q.display = .ok q := by
  obtain ⟨e, he, hset⟩ := exists_ok_of_any (x := parse asciiTable regionsText)
    (p := fun e => e.levels ≤ maxParseDepth ∧ e.display ≠ regionsText) (by decide +kernel)
  obtain ⟨q, hq, hquery⟩ := exists_ok_of_any (x := parseQuery asciiTable askedText)
    (p := fun q => q.levels ≤ maxParseDepth ∧ q.display ≠ askedText) (by decide +kernel)
  obtain ⟨hlevels, hne⟩ := of_decide_eq_true hset
  obtain ⟨hqlevels, hqne⟩ := of_decide_eq_true hquery
  exact ⟨⟨e, he, hne, ((readsBack_iff asciiTable).1 _ _ he).2 hlevels⟩,
    q, hq, hqne, ((readsBack_iff asciiTable).2 _ _ hq).2 hqlevels⟩

/-! ## A chain of crossjoins -/

/-- The same member crossed with itself, without functions. -/
def crossedText (n : Nat) : List Char :=
  ['*'].intercalate (List.replicate (n + 1) (bracket "a"))

def crossed : Nat → SetExpr
  | 0 => .member ⟨["a"]⟩
  | n + 1 => .crossjoin (crossed n) (.member ⟨["a"]⟩)

theorem levels_crossed (n : Nat) : (crossed n).levels = n + 1 := by
  induction n with
  | zero => rfl
  | succ n ih =>
    show max (crossed n).levels 1 + 1 = n + 2
    omega

theorem writable_crossed (n : Nat) : (crossed n).Writable := by
  have ha : (SetExpr.member ⟨["a"]⟩).Writable := List.cons_ne_nil "a" []
  induction n with
  | zero => exact ha
  | succ n ih => exact ⟨ih, ha⟩

theorem lex_crossedText (n : Nat) : lex asciiTable (crossedText n) =
    .ok (.name "a" true :: (List.replicate n ()).flatMap fun _ => .star :: [.name "a" true]) := by
  have hread := reads_intercalate (fun l ts => lex asciiTable l = .ok ts) (·.head? ≠ some ']')
    ['*'] (t := Tok.star) (fun _ => bracket "a") (fun _ => [Tok.name "a" true])
    (fun h => lex_single (by decide) (by decide) h) (fun rest => by simp) (by simp) lex_nil
    (List.replicate (n + 1) ()) fun _ _ rest ts hr h => lex_bracket "a" hr h
  unfold crossedText
  rw [List.map_replicate, List.append_nil, List.append_nil] at hread
  rw [hread, List.replicate_succ, List.map_cons, intercalate_cons, List.flatMap_map]
  rfl

theorem foldl_crossed (n : Nat) :
    (List.replicate n ()).foldl (fun e _ => .crossjoin e (.member ⟨["a"]⟩)) (.member ⟨["a"]⟩) =
      crossed n := by
  induction n with
  | zero => rfl
  | succ n ih => rw [List.replicate_succ', List.foldl_append, ih]; rfl

/-- Such a chain is accepted, however long it is. -/
theorem parse_crossedText (n : Nat) : parse asciiTable (crossedText n) = .ok (crossed n) := by
  have hitem : ∀ rest : List Tok, rest.head? ≠ some .dot →
      (parsePrimary (parseSet 127) (parsePredicate (parseNot 127))).run
        ([.name "a" true] ++ rest) = within .tooDeep 127 0 (.member ⟨["a"]⟩) rest := by
    intro rest hrest
    rw [within_zero, ← run_postfixLoop_stop hrest]
    exact run_parsePrimary_ref (r := ⟨["a"]⟩) (List.cons_ne_nil "a" [])
  have hzero : (List.replicate n ()).foldr (fun _ m => max 0 m) 0 = 0 := by
    induction n with
    | zero => rfl
    | succ n ih => simp [List.replicate_succ]
  have hnil : ([] : List Tok).head? ≠ some .dot := by simp
  have hchain : (chain (onTok .star)
      (fun _ => parsePrimary (parseSet 127) (parsePredicate (parseNot 127)))
      (fun l _ r => SetExpr.crossjoin l r) (.member ⟨["a"]⟩)).run
      ((List.replicate n ()).flatMap (fun _ => .star :: [.name "a" true]) ++ []) =
        within .tooDeep 127 ((List.replicate n ()).foldr (fun _ m => max 0 m) 0)
          ((List.replicate n ()).foldl (fun e _ => .crossjoin e (.member ⟨["a"]⟩))
            (.member ⟨["a"]⟩)) [] :=
    run_chain_within (g := fun l _ r => SetExpr.crossjoin l r) .star (fun _ => [.name "a" true])
      (fun _ => .member ⟨["a"]⟩) (fun _ => 0) (·.head? ≠ some .dot) (fun _ _ => True) (fun _ _ => rfl)
      (fun _ _ _ rest _ hr => hitem rest hr) (fun _ _ _ _ => trivial) (fun _ => by simp) hnil
      (fun t out h => absurd h (by simp)) _ _ trivial
  rw [hzero, foldl_crossed, List.append_nil, within_zero] at hchain
  have hfirst : ((List.replicate n ()).flatMap
      (fun _ => Tok.star :: [.name "a" true])).head? ≠ some .dot := by
    cases n with
    | zero => simp
    | succ n => simp [List.replicate_succ]
  have hrun : (parseSet maxParseDepth).run (.name "a" true ::
      (List.replicate n ()).flatMap fun _ => .star :: [.name "a" true]) =
        within .tooDeep maxParseDepth 0 (crossed n) [] := by
    have hset := hitem _ hfirst
    rw [within_zero] at hset ⊢
    show (parseSetInner (parseSet 127) (parsePredicate (parseNot 127))).run _ = _
    exact (run_bind_of_ok hset).trans hchain
  exact parseAll_of_lex (lex_crossedText n) hrun

/-- A chain of 128 crossjoins is accepted, and its text is too deep. -/
theorem not_readsBack_crossed : parse asciiTable (crossedText 128) = .ok (crossed 128) ∧
    parse asciiTable (crossed 128).display = .error .tooDeep := by
  refine ⟨parse_crossedText 128, ?_⟩
  rw [parse_display (writable_crossed 128), levels_crossed]
  exact if_neg (by decide)

end Mdx

end Epiphany
