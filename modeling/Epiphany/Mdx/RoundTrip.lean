import Epiphany.Mdx.Printed
/-!
# MDX — reading back what is written

The text of a set expression nests once for every crossjoin, also for those of
a chain, and that of a predicate once for every connective and twice for every
negation. It is read back as the same expression exactly if that is not too
deep.
-/

namespace Epiphany

namespace Mdx

open Lexing Parsing Parsing.Parser Loop

/-! ## How deep a text nests -/

def Predicate.levels : Predicate → Nat
  | and l r => max l.levels r.levels + 1
  | or l r => max l.levels r.levels + 1
  | not p => p.levels + 2
  | compare _ _ _ => 1

mutual

def SetExpr.levels : SetExpr → Nat
  | .set items => levelsAll items + 1
  | .member _ => 1
  | .members _ => 1
  | .children _ => 1
  | .descendants _ => 1
  | .filter s p => max s.levels p.levels + 1
  | .order s _ _ => s.levels + 1
  | .crossjoin a b => max a.levels b.levels + 1

def levelsAll : List SetExpr → Nat
  | [] => 0
  | e :: rest => max e.levels (levelsAll rest)

end

theorem levelsAll_eq (items : List SetExpr) :
    levelsAll items = items.foldr (fun e m => max e.levels m) 0 := by
  induction items with
  | nil => rfl
  | cons e rest ih => rw [levelsAll, ih, List.foldr_cons]

/-! ## Single tokens -/

variable {rest : List Tok}

theorem run_expect (t : Tok) (expected : String) :
    (expect t expected).run (t :: rest) = .ok ((), rest) := by
  unfold expect
  rw [run_peek_bind, List.head?_cons, if_pos rfl]
  rfl

theorem run_expectName (text : String) (bracketed : Bool) (expected : String) :
    (expectName expected).run (.name text bracketed :: rest) = .ok (text, rest) := rfl

theorem run_expectKeyword {kw text : String} (h : lower text = kw) (expected : String) :
    (expectKeyword kw expected).run (.name text false :: rest) = .ok ((), rest) := by
  unfold expectKeyword
  rw [run_peek_bind, List.head?_cons, if_pos (by simp [isKeyword, h])]
  rfl

theorem run_parseCmpOp (op : CmpOp) : parseCmpOp.run (op.tok :: rest) = .ok (op, rest) := by
  cases op <;> rfl

theorem run_parseDir (d : OrderDir) : parseDir.run (d.tok :: rest) = .ok (d, rest) := by
  cases d <;> rfl

/-! ## Members -/

/-- A list with separators in it, from its first item on. -/
theorem intercalate_cons {α : Type} (t : α) (x : List α) (xs : List (List α)) :
    [t].intercalate (x :: xs) = x ++ xs.flatMap (t :: ·) := by
  induction xs generalizing x with
  | nil => simp
  | cons y ys ih => rw [List.intercalate_cons_cons, ih, List.flatMap_cons]; simp

theorem toks_ref (x : String) (xs : List String) : MemberRef.toks ⟨x :: xs⟩ =
    .name x true :: xs.flatMap fun n => .dot :: [.name n true] := by
  unfold MemberRef.toks
  rw [List.map_cons, intercalate_cons, List.flatMap_map]
  rfl

theorem onDotName_eq_none (hrest : rest.head? ≠ some .dot) :
    ∀ t out, rest = t :: out → onDotName t out = none := by
  rintro t out rfl
  have ht : t ≠ .dot := fun h => hrest (by simp [h])
  unfold onDotName
  split
  · exact absurd rfl ht
  · rfl

theorem run_path {x : String} (xs : List String) (expected : String)
    (hrest : rest.head? ≠ some .dot) :
    (chain onDotName (fun _ => expectName expected) (fun path _ x => path ++ [x]) [x]).run
      (xs.flatMap (fun n => .dot :: [.name n true]) ++ rest) = .ok (x :: xs, rest) := by
  have h := run_chain_gather onDotName .dot (fun n => [Tok.name n true]) id (fun _ => True) xs
    (p := expectName expected) (fun _ _ => rfl) (fun n _ rest _ => run_expectName n true expected)
    (fun _ => trivial) trivial (onDotName_eq_none hrest) [x]
  simpa using h

theorem run_parseMemberRef {r : MemberRef} (hr : r.Writable) (hrest : rest.head? ≠ some .dot) :
    parseMemberRef.run (r.toks ++ rest) = .ok (r, rest) := by
  obtain ⟨path⟩ := r
  obtain ⟨x, xs, rfl⟩ := List.exists_cons_of_ne_nil hr
  unfold parseMemberRef
  rw [toks_ref, List.cons_append, run_bind_of_ok (run_expectName x true _),
    run_bind_of_ok (run_path xs _ hrest)]
  rfl

theorem run_postfixLoop (xs : List String) : ∀ path : List String,
    (postfixLoop path).run (xs.flatMap (fun n => .dot :: [.name n true]) ++ rest) =
      (postfixLoop (path ++ xs)).run rest := by
  induction xs with
  | nil => simp
  | cons x xs ih =>
    intro path
    have hturn : (postfixTurn path).run
        (.name x true :: (xs.flatMap (fun n => .dot :: [.name n true]) ++ rest)) =
        .ok (.again (path ++ [x]), xs.flatMap (fun n => .dot :: [.name n true]) ++ rest) := rfl
    have hagain : (postfixLoop path).run ((x :: xs).flatMap (fun n => .dot :: [.name n true]) ++
        rest) = (postfixLoop (path ++ [x])).run
          (xs.flatMap (fun n => .dot :: [.name n true]) ++ rest) :=
      run_repeatWhile_again (w := ()) rfl hturn
    rw [hagain, ih, List.append_assoc, List.singleton_append]

theorem run_postfixLoop_stop {path : List String} (hrest : rest.head? ≠ some .dot) :
    (postfixLoop path).run rest = .ok (.member ⟨path⟩, rest) := by
  cases rest with
  | nil => exact run_repeatWhile_nil
  | cons t out =>
    have ht : t ≠ .dot := fun h => hrest (by simp [h])
    exact run_repeatWhile_stop (by simp [onTok, ht])

theorem run_postfixLoop_word {path : List String} {text : String} (h : isPostfixKw text = true) :
    (postfixLoop path).run (.dot :: .name text false :: rest) =
      .ok (postfixSet (lower text) ⟨path⟩, rest) := by
  refine run_repeatWhile_done (w := ()) rfl ?_
  unfold postfixTurn
  rw [run_peek_bind]
  simp [h]

theorem run_parseMemberOrPostfix {r : MemberRef} (hr : r.Writable) :
    parseMemberOrPostfix.run (r.toks ++ rest) = (postfixLoop r.path).run rest := by
  obtain ⟨path⟩ := r
  obtain ⟨x, xs, rfl⟩ := List.exists_cons_of_ne_nil hr
  unfold parseMemberOrPostfix
  rw [toks_ref, List.cons_append, run_bind_of_ok (run_expectName x true _), run_postfixLoop]
  rfl

/-! ## Predicates -/

theorem run_parseOperand (o : Operand) :
    parseOperand.run (o.toks ++ rest) = .ok (o, rest) := by
  cases o with
  | property attr =>
    have hlast : ¬ lower ((["Properties"] : List String).getLast?.getD "") ≠ "properties" := by
      decide
    show parsePropertyOperand.run (.name "Properties" false :: .lParen :: .str attr :: .rParen ::
      rest) = _
    unfold parsePropertyOperand
    rw [run_bind_of_ok (run_expectName "Properties" false _),
      run_bind_of_ok (run_chain_stop (onDotName_eq_none (by simp))), if_neg hlast,
      run_bind_of_ok (run_expect .lParen _), run_peek_bind, List.head?_cons]
    dsimp only
    rw [run_bump_bind, List.tail_cons, run_bind_of_ok (run_expect .rParen _)]
    rfl
  | str s => rfl
  | number n => rfl

theorem run_parseComparison (left right : Operand) (op : CmpOp) :
    parseComparison.run ((Predicate.compare left op right).toks ++ rest) =
      .ok (.compare left op right, rest) := by
  unfold parseComparison
  rw [Predicate.toks, List.append_assoc, run_bind_of_ok (run_parseOperand left), List.cons_append,
    run_bind_of_ok (run_parseCmpOp op), run_bind_of_ok (run_parseOperand right)]
  rfl

/-- A text that goes on with no connective. -/
def NoConnective (rest : List Tok) : Prop :=
  ∀ kw ∈ ["and", "or"], ∀ t out, rest = t :: out → onKeyword kw t out = none

theorem noConnective_rParen (rest : List Tok) : NoConnective (.rParen :: rest) := by
  rintro kw _ t out h
  obtain ⟨rfl, rfl⟩ : .rParen = t ∧ rest = out := by simpa using h
  rfl

theorem run_parseAnd {n l : Nat} {not : Parser Tok ParseError Predicate} {p : Predicate}
    {toks : List Tok} (h : not.run toks = within .tooDeep n l p rest)
    (hstop : ∀ t out, rest = t :: out → onKeyword "and" t out = none) :
    (parseAnd not).run toks = within .tooDeep n l p rest :=
  run_bind_within_ok h (run_chain_stop hstop)

theorem run_parsePredicate {n l : Nat} {not : Parser Tok ParseError Predicate} {p : Predicate}
    {toks : List Tok} (h : not.run toks = within .tooDeep n l p rest)
    (hrest : NoConnective rest) : (parsePredicate not).run toks = within .tooDeep n l p rest :=
  run_bind_within_ok (run_parseAnd h (hrest "and" (by decide)))
    (run_chain_stop (hrest "or" (by decide)))

section

variable {n : Nat} {not : Parser Tok ParseError Predicate} {l r : Predicate}
variable (hl : ∀ rest, not.run (l.toks ++ rest) = within .tooDeep n l.levels l rest)
variable (hr : ∀ rest, not.run (r.toks ++ rest) = within .tooDeep n r.levels r rest)

include hl hr

theorem run_parsePredicate_and (hrest : NoConnective rest) :
    (parsePredicate not).run (l.toks ++ .name "AND" false :: (r.toks ++ rest)) =
      within .tooDeep n (max l.levels r.levels) (.and l r) rest := by
  have hand : (parseAnd not).run (l.toks ++ .name "AND" false :: (r.toks ++ rest)) =
      within .tooDeep n (max l.levels r.levels) (.and l r) rest :=
    run_bind_within (hl _) (run_chain_one (w := ()) rfl (hr rest) (hrest "and" (by decide)))
  exact run_bind_within_ok hand (run_chain_stop (hrest "or" (by decide)))

theorem run_parsePredicate_or (hrest : NoConnective rest) :
    (parsePredicate not).run (l.toks ++ .name "OR" false :: (r.toks ++ rest)) =
      within .tooDeep n (max l.levels r.levels) (.or l r) rest := by
  have hleft : (parseAnd not).run (l.toks ++ .name "OR" false :: (r.toks ++ rest)) =
      within .tooDeep n l.levels l (.name "OR" false :: (r.toks ++ rest)) := by
    refine run_parseAnd (hl _) fun t out h => ?_
    obtain ⟨rfl, rfl⟩ : .name "OR" false = t ∧ _ = out := by simpa using h
    rfl
  have hright := run_parseAnd (hr rest) (hrest "and" (by decide))
  exact run_bind_within hleft (run_chain_one (w := ()) rfl hright (hrest "or" (by decide)))

end

/-- What stands in parentheses needs one level more. -/
theorem run_parseNot_group {n l : Nat} {p : Predicate} {toks : List Tok}
    (h : (parsePredicate (parseNot n)).run toks = within .tooDeep n l p (.rParen :: rest)) :
    (parseNot (n + 1)).run (.lParen :: toks) = within .tooDeep (n + 1) (l + 1) p rest := by
  have hclose : (do
      expect .rParen "\x60)\x60"
      pure p : Parser Tok ParseError Predicate).run (.rParen :: rest) = .ok (p, rest) := rfl
  rw [within_succ]
  show (parseNotInner (parseNot n)).run (.lParen :: toks) = _
  unfold parseNotInner
  rw [run_peek_bind, List.head?_cons, if_neg (by decide), if_pos rfl, run_bump_bind, List.tail_cons]
  exact run_bind_within_ok h hclose

theorem run_parseNot_not {n : Nat} {p : Predicate}
    (h : (parseNot n).run (p.toks ++ rest) = within .tooDeep n p.levels p rest) :
    (parseNot (n + 1)).run (.name "NOT" false :: (p.toks ++ rest)) =
      within .tooDeep (n + 1) (p.levels + 1) (.not p) rest := by
  have hpure : (pure (.not p) : Parser Tok ParseError Predicate).run rest = .ok (.not p, rest) := rfl
  rw [within_succ]
  show (parseNotInner (parseNot n)).run (.name "NOT" false :: (p.toks ++ rest)) = _
  unfold parseNotInner
  rw [run_peek_bind, List.head?_cons, if_pos (by decide), run_bump_bind, List.tail_cons]
  exact run_bind_within_ok h hpure

/-- A comparison is no negation and no group. -/
theorem run_parseNot_compare (n : Nat) (left right : Operand) (op : CmpOp) :
    (parseNot (n + 1)).run ((Predicate.compare left op right).toks ++ rest) =
      .ok (.compare left op right, rest) := by
  show (parseNotInner (parseNot n)).run _ = _
  unfold parseNotInner
  rw [run_peek_bind, if_neg, if_neg, run_parseComparison]
  · cases left <;> simp [Predicate.toks, Operand.toks]
  · cases left with
    | property attr =>
      have hword : isKeyword "not" (some (.name "Properties" false)) = false := by decide
      exact Bool.eq_false_iff.1 hword
    | str s => exact Bool.false_ne_true
    | number n => exact Bool.false_ne_true

theorem run_parseNot (p : Predicate) : ∀ (n : Nat) (rest : List Tok),
    (parseNot n).run (p.toks ++ rest) = within .tooDeep n p.levels p rest := by
  induction p with
  | and l r ihl ihr =>
    intro n rest
    cases n with
    | zero => exact within_none.symm
    | succ n =>
      have h := run_parseNot_group (run_parsePredicate_and (ihl n) (ihr n)
        (noConnective_rParen rest))
      simpa only [Predicate.toks, Predicate.levels, List.append_assoc, List.cons_append,
        List.nil_append] using h
  | or l r ihl ihr =>
    intro n rest
    cases n with
    | zero => exact within_none.symm
    | succ n =>
      have h := run_parseNot_group (run_parsePredicate_or (ihl n) (ihr n)
        (noConnective_rParen rest))
      simpa only [Predicate.toks, Predicate.levels, List.append_assoc, List.cons_append,
        List.nil_append] using h
  | not p ih =>
    intro n rest
    cases n with
    | zero => exact within_none.symm
    | succ n =>
      have hnot : (parseNot n).run (.name "NOT" false :: (p.toks ++ .rParen :: rest)) =
          within .tooDeep n (p.levels + 1) (.not p) (.rParen :: rest) := by
        cases n with
        | zero => exact within_none.symm
        | succ n => exact run_parseNot_not (ih n _)
      have h := run_parseNot_group (run_parsePredicate hnot (noConnective_rParen rest))
      simpa only [Predicate.toks, Predicate.levels, List.append_assoc, List.cons_append,
        List.nil_append] using h
  | compare left op right =>
    intro n rest
    cases n with
    | zero => exact within_none.symm
    | succ n =>
      rw [run_parseNot_compare n, Predicate.levels, within_of_le (by omega)]

/-! ## Sets -/

/-- A text that goes on with what is in no set. -/
def EndsSet (rest : List Tok) : Prop := rest.head? ≠ some .dot ∧ rest.head? ≠ some .star

theorem endsSet_cons {t : Tok} (hd : t ≠ .dot) (hs : t ≠ .star) : EndsSet (t :: rest) := by
  unfold EndsSet
  simp [hd, hs]

theorem EndsSet.star (h : EndsSet rest) :
    ∀ t out, rest = t :: out → onTok .star t out = none := by
  rintro t out rfl
  have ht : t ≠ .star := fun heq => h.2 (by simp [heq])
  simp [onTok, ht]

/-- The first token of a set opens it, and is not the keyword of a query. -/
theorem head_toks {e : SetExpr} (he : e.Writable) :
    ∃ t l, e.toks = t :: l ∧ t ≠ .rBrace ∧ isKeyword "from" (some t) = false := by
  have href : ∀ {r : MemberRef}, r.Writable →
      ∃ t l, r.toks = t :: l ∧ t ≠ .rBrace ∧ isKeyword "from" (some t) = false := by
    rintro ⟨path⟩ hr
    obtain ⟨x, xs, rfl⟩ := List.exists_cons_of_ne_nil hr
    exact ⟨_, _, toks_ref x xs, by simp, rfl⟩
  cases e with
  | set items => exact ⟨.lBrace, _, by simp [SetExpr.toks]; rfl, by simp, rfl⟩
  | member r => exact href he
  | members r =>
    obtain ⟨t, l, h, ht⟩ := href (r := r) he
    exact ⟨t, _, by rw [SetExpr.toks, h]; rfl, ht⟩
  | children r =>
    obtain ⟨t, l, h, ht⟩ := href (r := r) he
    exact ⟨t, _, by rw [SetExpr.toks, h]; rfl, ht⟩
  | descendants r =>
    exact ⟨.name "Descendants" false, _, by simp [SetExpr.toks]; rfl, by simp, by decide⟩
  | filter s p => exact ⟨.name "Filter" false, _, by simp [SetExpr.toks]; rfl, by simp, by decide⟩
  | order s attr dir =>
    exact ⟨.name "Order" false, _, by simp [SetExpr.toks]; rfl, by simp, by decide⟩
  | crossjoin a b =>
    exact ⟨.name "Crossjoin" false, _, by simp [SetExpr.toks]; rfl, by simp, by decide⟩

section

variable {n : Nat} {set : Parser Tok ParseError SetExpr}
variable {predicate : Parser Tok ParseError Predicate}

/-- A primary is all of a set that goes on with no star. -/
theorem run_parseSetInner {l : Nat} {e : SetExpr} {toks : List Tok} (hrest : EndsSet rest)
    (h : (parsePrimary set predicate).run toks = within .tooDeep n l e rest) :
    (parseSetInner set predicate).run toks = within .tooDeep n l e rest :=
  run_bind_within_ok h (run_chain_stop hrest.star)

/-- A path is no function, for its first name is in brackets. -/
theorem run_parsePrimary_ref {r : MemberRef} (hr : r.Writable) :
    (parsePrimary set predicate).run (r.toks ++ rest) = (postfixLoop r.path).run rest := by
  rw [← run_parseMemberOrPostfix hr]
  obtain ⟨path⟩ := r
  obtain ⟨x, xs, rfl⟩ := List.exists_cons_of_ne_nil hr
  unfold parsePrimary
  rw [toks_ref, List.cons_append, run_peek_bind, List.head?_cons]
  dsimp only
  rw [run_peek2_bind, if_neg (by simp)]

theorem run_parsePrimary_func {text : String} (h : isFuncKw text = true) :
    (parsePrimary set predicate).run (.name text false :: .lParen :: rest) =
      (parseFuncBody set predicate (lower text)).run rest := by
  unfold parsePrimary
  rw [run_peek_bind, List.head?_cons]
  dsimp only
  rw [run_peek2_bind, if_pos (by simp [h])]
  rfl

theorem run_parseSetLiteral {l : Nat} {items : List SetExpr} (hw : AllWritable items)
    (hl : l = levelsAll items)
    (hset : ∀ e ∈ items, ∀ rest, EndsSet rest →
      set.run (e.toks ++ rest) = within .tooDeep n e.levels e rest) :
    (parseSetLiteral set).run ((SetExpr.set items).toks ++ rest) =
      within .tooDeep n l (.set items) rest := by
  subst hl
  unfold parseSetLiteral
  rw [SetExpr.toks, toksAll_eq]
  cases items with
  | nil =>
    rw [levelsAll, within_zero]
    rfl
  | cons e es =>
    obtain ⟨t, l, ht, hne, -⟩ := head_toks hw.1
    have hcomma : EndsSet (es.flatMap (fun e => .comma :: e.toks) ++ (.rBrace :: rest)) := by
      cases es with
      | nil => exact endsSet_cons (by simp) (by simp)
      | cons e' es => exact endsSet_cons (by simp) (by simp)
    have hfirst := hset e List.mem_cons_self _ hcomma
    have hbrace : EndsSet (.rBrace :: rest) := endsSet_cons (by simp) (by simp)
    have hchain := run_gather_within (onTok .comma) .comma SetExpr.toks id SetExpr.levels EndsSet
      es (fun _ _ => rfl) (fun x hx => hset x (List.mem_cons_of_mem e hx))
      (fun _ => endsSet_cons (by simp) (by simp)) hbrace
      (fun t out h => by
        obtain ⟨rfl, rfl⟩ : .rBrace = t ∧ rest = out := by simpa using h
        rfl) [e]
    have hclose : ∀ items, (do
        expect .rBrace "\x60,\x60 or \x60\x7d\x60"
        pure (.set items) : Parser Tok ParseError SetExpr).run (.rBrace :: rest) =
        .ok (.set items, rest) := fun _ => rfl
    have htoks : (.lBrace :: [Tok.comma].intercalate ((e :: es).map SetExpr.toks) ++ [.rBrace]) ++
        rest = .lBrace :: (e.toks ++ (es.flatMap (fun e => .comma :: e.toks) ++ .rBrace :: rest)) := by
      rw [List.map_cons, intercalate_cons, List.flatMap_map]
      simp only [List.append_assoc, List.cons_append, List.nil_append]
    rw [htoks, run_bind_of_ok (run_expect .lBrace _), run_peek_bind,
      if_neg (by simp [ht, hne]), levelsAll, levelsAll_eq]
    refine run_bind_within hfirst ?_
    rw [List.map_id, List.singleton_append] at hchain
    exact run_bind_within_ok hchain (hclose _)

end

/-- A set needs one level more than its primary. -/
theorem run_parseSet_of_primary {l : Nat} {e : SetExpr} {toks : List Tok} (hrest : EndsSet rest)
    (h : ∀ n, (parsePrimary (parseSet n) (parsePredicate (parseNot n))).run toks =
      within .tooDeep n l e rest) (n : Nat) :
    (parseSet n).run toks = within .tooDeep n (l + 1) e rest := by
  cases n with
  | zero => exact within_none.symm
  | succ n =>
    rw [within_succ]
    exact run_parseSetInner hrest (h n)

/-- The end of the arguments of a function. -/
theorem run_close {α : Type} (x : α) (expected : String) : (do
    expect .rParen expected
    pure x : Parser Tok ParseError α).run (.rParen :: rest) = .ok (x, rest) :=
  run_bind_of_ok (run_expect .rParen expected)

mutual

/-- A set is read back, if it does not nest too deep. -/
theorem run_parseSet : ∀ (e : SetExpr), e.Writable → ∀ (n : Nat) (rest : List Tok), EndsSet rest →
    (parseSet n).run (e.toks ++ rest) = within .tooDeep n e.levels e rest
  | .set items, he, n, rest, hr => by
    refine run_parseSet_of_primary hr (fun n => ?_) n
    exact run_parseSetLiteral he rfl fun e hm rest hr => run_parseSets items he e hm n rest hr
  | .member r, he, n, rest, hr => by
    refine run_parseSet_of_primary hr (fun n => ?_) n
    rw [within_zero, SetExpr.toks, run_parsePrimary_ref he, run_postfixLoop_stop hr.1]
  | .members r, he, n, rest, hr => by
    refine run_parseSet_of_primary hr (fun n => ?_) n
    rw [within_zero, SetExpr.toks, List.append_assoc, run_parsePrimary_ref he]
    exact run_postfixLoop_word (by decide)
  | .children r, he, n, rest, hr => by
    refine run_parseSet_of_primary hr (fun n => ?_) n
    rw [within_zero, SetExpr.toks, List.append_assoc, run_parsePrimary_ref he]
    exact run_postfixLoop_word (by decide)
  | .descendants r, he, n, rest, hr => by
    refine run_parseSet_of_primary hr (fun n => ?_) n
    have hr' : (Tok.rParen :: rest).head? ≠ some .dot := by simp
    have hbody := run_bind_of_ok (f := fun r => (do
      expect .rParen "\x60)\x60"
      pure (.descendants r) : Parser Tok ParseError SetExpr)) (run_parseMemberRef he hr')
    rw [run_close] at hbody
    have htoks : (SetExpr.descendants r).toks ++ rest = .name "Descendants" false :: .lParen ::
        (r.toks ++ .rParen :: rest) := by
      simp only [SetExpr.toks, List.append_assoc, List.cons_append, List.nil_append]
    rw [within_zero, htoks, run_parsePrimary_func (by decide)]
    exact hbody
  | .filter s p, he, n, rest, hr => by
    refine run_parseSet_of_primary hr (fun n => ?_) n
    -- the set ends at its comma, and the predicate at the closing parenthesis
    have hs := run_parseSet s he.1 n (.comma :: (p.toks ++ .rParen :: rest))
      (endsSet_cons (by simp) (by simp))
    have hp := run_parsePredicate (run_parseNot p n (.rParen :: rest))
      (noConnective_rParen rest)
    have htoks : (SetExpr.filter s p).toks ++ rest = .name "Filter" false :: .lParen ::
        (s.toks ++ .comma :: (p.toks ++ .rParen :: rest)) := by
      simp only [SetExpr.toks, List.append_assoc, List.cons_append, List.nil_append]
    rw [htoks, run_parsePrimary_func (by decide)]
    show (parseFuncBody _ _ "filter").run _ = _
    unfold parseFuncBody
    rw [if_pos rfl]
    refine run_bind_within hs ?_
    rw [run_bind_of_ok (run_expect .comma _)]
    exact run_bind_within_ok hp (run_close _ _)
  | .order s attr dir, he, n, rest, hr => by
    refine run_parseSet_of_primary hr (fun n => ?_) n
    have hs := run_parseSet s he n (.comma :: .name attr true :: .comma :: dir.tok :: .rParen :: rest)
      (endsSet_cons (by simp) (by simp))
    have hkey : parseOrderKey.run (.name attr true :: .comma :: dir.tok :: .rParen :: rest) =
      .ok (attr, .comma :: dir.tok :: .rParen :: rest) := rfl
    have htoks : (SetExpr.order s attr dir).toks ++ rest = .name "Order" false :: .lParen ::
        (s.toks ++ .comma :: .name attr true :: .comma :: dir.tok :: .rParen :: rest) := by
      simp only [SetExpr.toks, List.append_assoc, List.cons_append, List.nil_append]
    rw [htoks, run_parsePrimary_func (by decide)]
    show (parseFuncBody _ _ "order").run _ = _
    unfold parseFuncBody
    -- the parser tries the names in order: filter, then order, then crossjoin
    rw [if_neg (by decide), if_pos rfl]
    refine run_bind_within_ok hs ?_
    rw [run_bind_of_ok (run_expect .comma _), run_bind_of_ok hkey, run_peek_bind, List.head?_cons,
      if_pos rfl, run_bump_bind, List.tail_cons, run_bind_of_ok (run_parseDir dir), run_close]
  | .crossjoin a b, he, n, rest, hr => by
    refine run_parseSet_of_primary hr (fun n => ?_) n
    have ha := run_parseSet a he.1 n (.comma :: (b.toks ++ .rParen :: rest))
      (endsSet_cons (by simp) (by simp))
    have hb := run_parseSet b he.2 n (.rParen :: rest) (endsSet_cons (by simp) (by simp))
    have htoks : (SetExpr.crossjoin a b).toks ++ rest = .name "Crossjoin" false :: .lParen ::
        (a.toks ++ .comma :: (b.toks ++ .rParen :: rest)) := by
      simp only [SetExpr.toks, List.append_assoc, List.cons_append, List.nil_append]
    rw [htoks, run_parsePrimary_func (by decide)]
    show (parseFuncBody _ _ "crossjoin").run _ = _
    unfold parseFuncBody
    rw [if_neg (by decide), if_neg (by decide), if_pos rfl]
    refine run_bind_within ha ?_
    rw [run_bind_of_ok (run_expect .comma _)]
    refine run_bind_within_ok hb ?_
    rw [run_bind_of_ok (run_chain_stop ?_), run_close]
    rintro t out h
    obtain ⟨rfl, rfl⟩ : .rParen = t ∧ rest = out := by simpa using h
    rfl

theorem run_parseSets : ∀ (items : List SetExpr), AllWritable items → ∀ e ∈ items,
    ∀ (n : Nat) (rest : List Tok), EndsSet rest →
    (parseSet n).run (e.toks ++ rest) = within .tooDeep n e.levels e rest
  | [], _ => by simp
  | e :: items, he => by
    rintro e' (_ | ⟨_, hm⟩)
    · exact run_parseSet e he.1
    · exact run_parseSets items he.2 e' hm

end

/-! ## Queries -/

/-- How deep the deepest axis of a query nests. -/
def Query.levels (q : Query) : Nat := q.axes.foldr (fun a m => max a.2.levels m) 0

theorem parseU32_toDigits (n : UInt32) :
    parseU32 (String.ofList (Nat.toDigits 10 n.toNat)) = some n := by
  have hdigits : (Nat.toDigits 10 n.toNat).all Char.isDigit = true :=
    List.all_eq_true.2 fun c hc => Digits.isDigit_of_mem_toDigits hc
  have hvalue : Nat.ofDigitChars 10 (Nat.toDigits 10 n.toNat) 0 = n.toNat :=
    Nat.ofDigitChars_toDigits (by decide) (by decide)
  unfold parseU32
  dsimp only
  rw [String.toList_ofList, hvalue, if_pos ⟨Nat.toDigits_ne_nil, hdigits, n.toNat_lt⟩,
    UInt32.ofNat_toNat]

theorem run_parseAxisName {a : AxisName} (ha : a.Writable) :
    parseAxisName.run (a.tok :: rest) = .ok (a, rest) := by
  cases a with
  | columns => rfl
  | rows => rfl
  | ordinal n =>
    have h0 : n ≠ 0 := by
      rintro rfl
      exact absurd (show (2 : UInt32) ≤ 0 from ha) (by decide)
    have h1 : n ≠ 1 := by
      rintro rfl
      exact absurd (show (2 : UInt32) ≤ 1 from ha) (by decide)
    unfold parseAxisName
    rw [run_peek_bind, AxisName.tok, List.head?_cons]
    dsimp only
    rw [parseU32_toDigits]
    dsimp only
    rw [run_bump_bind, if_neg h0, if_neg h1]
    rfl

theorem run_parseAxis {axes : List (AxisName × SetExpr)} {a : AxisName × SetExpr}
    (hw : a.1.Writable ∧ a.2.Writable) (ha : ∀ b ∈ axes, b.1 ≠ a.1) :
    (parseAxis axes).run (axisToks a ++ rest) =
      within .tooDeep maxParseDepth a.2.levels a rest := by
  have hset := run_parseSet a.2 hw.2 maxParseDepth (.name "ON" false :: a.1.tok :: rest)
    (endsSet_cons (by simp) (by simp))
  have hnone : axes.any (fun b => b.1 = a.1) = false := by
    simpa using fun x y hm hx => ha (x, y) hm hx
  unfold parseAxis axisToks
  rw [List.append_assoc]
  refine run_bind_within_ok hset ?_
  rw [run_bind_of_ok (run_expectKeyword (by decide) _), run_bind_of_ok (run_parseAxisName hw.1),
    if_neg (by simp [hnone])]
  rfl

theorem run_parseSlicer {slicer : List MemberRef} (hne : slicer ≠ [])
    (hw : ∀ r ∈ slicer, r.Writable) :
    parseSlicer.run (.lParen :: ([Tok.comma].intercalate (slicer.map MemberRef.toks) ++
      .rParen :: rest)) = .ok (slicer, rest) := by
  obtain ⟨r, rs, rfl⟩ := List.exists_cons_of_ne_nil hne
  have hends : ∀ {t : Tok} {l : List Tok}, t ≠ .dot → (t :: l).head? ≠ some .dot := by simp
  have hfirst : (rs.flatMap (fun r => .comma :: r.toks) ++ .rParen :: rest).head? ≠ some .dot := by
    cases rs with
    | nil => exact hends (by simp)
    | cons r' rs => exact hends (by simp)
  have hchain := run_chain_gather (onTok .comma) .comma MemberRef.toks id
    (fun l => l.head? ≠ some .dot) rs (fun _ _ => rfl)
    (fun x hx rest hr => run_parseMemberRef (hw x (List.mem_cons_of_mem r hx)) hr)
    (fun _ => hends (by simp)) (hends (t := .rParen) (l := rest) (by simp)) (fun t out h => by
      obtain ⟨rfl, rfl⟩ : .rParen = t ∧ rest = out := by simpa using h
      rfl) [r]
  rw [List.map_id, List.singleton_append] at hchain
  unfold parseSlicer
  rw [run_bind_of_ok (run_expect .lParen _), List.map_cons, intercalate_cons, List.flatMap_map,
    List.append_assoc, run_bind_of_ok (run_parseMemberRef (hw r List.mem_cons_self) hfirst),
    run_bind_of_ok hchain]
  exact run_close _ _

/-- The end of a query behind its cube. -/
theorem run_querySlicer {axes : List (AxisName × SetExpr)} {cube : String}
    {slicer : List MemberRef} (hw : ∀ r ∈ slicer, r.Writable) : (do
      if isKeyword "where" (← peek) then
        bump
        let slicer ← parseSlicer
        pure ⟨axes, cube, slicer⟩
      else pure ⟨axes, cube, []⟩ : Parser Tok ParseError Query).run (slicerToks slicer) =
    .ok (⟨axes, cube, slicer⟩, []) := by
  unfold slicerToks
  by_cases hs : slicer = []
  · subst hs
    rfl
  · rw [if_neg hs, run_peek_bind, List.cons_append, List.head?_cons, if_pos (by decide),
      run_bump_bind, List.tail_cons, List.cons_append, run_bind_of_ok (run_parseSlicer hs hw)]
    rfl

theorem run_axes {a : AxisName × SetExpr} {as : List (AxisName × SetExpr)}
    (hw : ∀ x ∈ as, x.1.Writable ∧ x.2.Writable) (hd : ((a :: as).map Prod.fst).Nodup)
    (hrest : rest.head? ≠ some .comma) :
    (chain (onTok .comma) parseAxis (fun axes _ a => axes ++ [a]) [a]).run
      (as.flatMap (fun a => .comma :: axisToks a) ++ rest) =
        within .tooDeep maxParseDepth (as.foldr (fun a m => max a.2.levels m) 0) (a :: as) rest := by
  have hfold : ∀ (xs acc : List (AxisName × SetExpr)),
      xs.foldl (fun acc x => acc ++ [x]) acc = acc ++ xs := by
    intro xs
    induction xs with
    | nil => simp
    | cons x xs ih => simp [ih]
  have hstop : ∀ t out, rest = t :: out → onTok .comma t out = none := by
    rintro t out rfl
    have ht : t ≠ .comma := fun h => hrest (by simp [h])
    simp [onTok, ht]
  have hitem : ∀ (axes : List (AxisName × SetExpr)) (x : AxisName × SetExpr)
      (xs : List (AxisName × SetExpr)) (rest : List Tok),
      (((axes ++ x :: xs).map Prod.fst).Nodup ∧ ∀ y ∈ x :: xs, y.1.Writable ∧ y.2.Writable) →
      True → (parseAxis axes).run (axisToks x ++ rest) =
        within .tooDeep maxParseDepth x.2.levels x rest := by
    intro axes x xs rest h _
    refine run_parseAxis (h.2 x List.mem_cons_self) fun b hb heq => ?_
    have hnodup := h.1
    rw [List.map_append, List.nodup_append] at hnodup
    exact hnodup.2.2 b.1 (List.mem_map_of_mem hb) x.1 (by simp) heq
  have hchain : (chain (onTok .comma) parseAxis (fun axes _ a => axes ++ [a]) [a]).run
      (as.flatMap (fun a => .comma :: axisToks a) ++ rest) =
        within .tooDeep maxParseDepth (as.foldr (fun a m => max a.2.levels m) 0)
          (as.foldl (fun acc x => acc ++ [x]) [a]) rest :=
    run_chain_within .comma axisToks id (fun a => a.2.levels) (fun _ => True)
      (fun axes xs => ((axes ++ xs).map Prod.fst).Nodup ∧ ∀ x ∈ xs, x.1.Writable ∧ x.2.Writable)
      (fun _ _ => rfl) hitem (fun axes x xs h => ⟨by simpa using h.1,
        fun y hy => h.2 y (List.mem_cons_of_mem x hy)⟩) (fun _ => trivial) trivial hstop as [a]
      ⟨hd, hw⟩
  rw [hchain, hfold, List.singleton_append]

theorem run_parseQueryTokens {q : Query} (hq : q.Writable) :
    parseQueryTokens.run q.toks = within .tooDeep maxParseDepth q.levels q [] := by
  obtain ⟨axes, cube, slicer⟩ := q
  obtain ⟨a, as, rfl⟩ := List.exists_cons_of_ne_nil hq.axes_ne
  have ha := hq.axes a List.mem_cons_self
  obtain ⟨t, l, ht, -, hfrom⟩ := head_toks ha.2
  have hfirst : ∀ rest, (parseAxis []).run (axisToks a ++ rest) =
      within .tooDeep maxParseDepth a.2.levels a rest :=
    fun rest => run_parseAxis ha fun b hb => absurd hb List.not_mem_nil
  have hfrom' : (.name "FROM" false :: .name cube true :: slicerToks slicer).head? ≠
      some Tok.comma := by simp
  have hchain := run_axes (fun x hx => hq.axes x (List.mem_cons_of_mem a hx)) hq.nodup hfrom'
  have htoks : Query.toks ⟨a :: as, cube, slicer⟩ = .name "SELECT" false :: (axisToks a ++
      (as.flatMap (fun a => .comma :: axisToks a) ++
        .name "FROM" false :: .name cube true :: slicerToks slicer)) := by
    unfold Query.toks
    rw [List.map_cons, intercalate_cons, List.flatMap_map]
    simp only [List.append_assoc, List.cons_append]
  have hhead : (axisToks a ++ (as.flatMap (fun a => .comma :: axisToks a) ++
      .name "FROM" false :: .name cube true :: slicerToks slicer)).head? = some t := by
    simp [axisToks, ht]
  unfold parseQueryTokens Query.levels
  rw [htoks, run_bind_of_ok (run_expectKeyword (by decide) _), run_peek_bind, hhead,
    if_neg (by simp [hfrom]), List.foldr_cons]
  refine run_bind_within (hfirst _) (run_bind_within_ok hchain ?_)
  rw [run_bind_of_ok (run_expectKeyword (by decide) _), run_bind_of_ok (run_expectName cube true _)]
  exact run_querySlicer hq.slicer

end Mdx

end Epiphany
