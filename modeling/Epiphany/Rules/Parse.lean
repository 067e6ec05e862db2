import Epiphany.Rules.Text
/-!
# Rules parsing — a text as a rules document

Recursive descent. Expressions and conditions nest in one another, so their
parsers have the number of levels that are left, and are made of the parsers
for one level less.
-/

namespace Epiphany

namespace Rules

open Lexing Parsing Parsing.Parser Loop
open Calc (ArithOp CmpOp)

/-- How deep expressions and conditions may nest. -/
def maxParseDepth : Nat := 128

/-- A text with the letters from `A` to `Z` in lower case. -/
def lower (s : String) : String := String.ofList (s.toList.map Char.toLower)

/-- Whether a token is a keyword, which is given in lower case. -/
def isWord (kw : String) : Option Tok → Bool
  | some (.word w) => lower w = kw
  | _ => false

/-- Go on while a token is next. -/
def onTok (t : Tok) : Tok → List Tok → Option Unit := fun t' _ => if t' = t then some () else none

/-- Go on while a keyword is next. -/
def onWord (kw : String) : Tok → List Tok → Option Unit :=
  fun t _ => if isWord kw (some t) then some () else none

def unexpected {α : Type} (expected : String) : Parser Tok RuleParseError α := do
  match ← peek with
  | some t => fail (.unexpectedToken t.describe expected)
  | none => fail (.unexpectedEof expected)

def expect (want : Tok) (expected : String) : Parser Tok RuleParseError Unit := do
  if (← peek) = some want then bump
  else unexpected expected

def expectQuoted (expected : String) : Parser Tok RuleParseError String := do
  match ← peek with
  | some (.quoted s) =>
    bump
    pure s
  | _ => unexpected expected

def expectWord (kw expected : String) : Parser Tok RuleParseError Unit := do
  if isWord kw (← peek) then bump
  else unexpected expected

/-! ## Areas -/

/-- A marker in front of an area: a word and a colon. -/
def parseScopeMarker : Parser Tok RuleParseError Scope := do
  let front ← peek
  let after ← peek2
  if isWord "n" front ∧ after = some .colon then
    bump
    bump
    pure .leaf
  else if isWord "c" front ∧ after = some .colon then
    bump
    bump
    pure .consolidated
  else pure .unmarked

def parseCmpOp : Parser Tok RuleParseError CmpOp := do
  match ← peek with
  | some .eq => bump; pure .eq
  | some .ne => bump; pure .ne
  | some .lt => bump; pure .lt
  | some .le => bump; pure .le
  | some .gt => bump; pure .gt
  | some .ge => bump; pure .ge
  | _ => unexpected "a comparison operator"

def parseLiteral : Parser Tok RuleParseError Literal := do
  match ← peek with
  | some (.number n) =>
    bump
    pure (.number n)
  | some (.quoted s) =>
    bump
    pure (.str s)
  | _ => unexpected "a string or number literal"

def parseFamily : Parser Tok RuleParseError SelectorKind := do
  let front ← peek
  if isWord "leaves" front then
    bump
    pure .leaves
  else if isWord "consolidated" front then
    bump
    pure .consolidated
  else if isWord "all" front then
    bump
    pure .all
  else if isWord "children" front then
    bump
    expectWord "of" "\x60of\x60"
    let name ← expectQuoted "an element name"
    pure (.children name)
  else if isWord "descendants" front then
    bump
    expectWord "of" "\x60of\x60"
    let name ← expectQuoted "an element name"
    pure (.descendants name)
  else unexpected "leaves, consolidated, all, children of, or descendants of"

def parseSelector : Parser Tok RuleParseError SelectorKind := do
  match ← peek with
  | some .atSign =>
    bump
    let attr ← expectQuoted "an attribute name"
    let op ← parseCmpOp
    let value ← parseLiteral
    pure (.attrPredicate attr op value)
  | some .lBrace =>
    bump
    let kind ← parseFamily
    expect .rBrace "\x60\x7d\x60"
    pure kind
  | some (.quoted name) =>
    bump
    pure (.element name)
  | _ =>
    unexpected ("a selector (an element name, \x60@\x60attribute, " ++
      "or \x60\x7bleaves\x7d\x60/\x60\x7ball\x7d\x60/...)")

/-- A selector of a dimension that none before it constrains. -/
def parseDimSelector (selectors : List DimSelector) : Parser Tok RuleParseError DimSelector := do
  let dimension ← expectQuoted "a dimension name"
  expect .colon "\x60:\x60"
  let kind ← parseSelector
  if selectors.any fun s => s.dimension = dimension then fail (.duplicateDimension dimension)
  else pure ⟨dimension, kind⟩

def parseArea : Parser Tok RuleParseError Area := do
  let scope ← parseScopeMarker
  expect .lBracket "\x60[\x60 to open an area"
  let first ← parseDimSelector []
  let selectors ← chain (onTok .comma) parseDimSelector (fun ss _ s => ss ++ [s]) [first]
  expect .rBracket "\x60,\x60 or \x60]\x60"
  pure ⟨scope, selectors⟩

/-! ## Cell references -/

def parseMemberExpr : Parser Tok RuleParseError MemberExpr := do
  if (← peek) = some .bang then
    bump
    let name ← expectQuoted "an attribute name"
    pure (.attr name)
  else
    let name ← expectQuoted "a member name"
    pure (.element name)

def parseOverride : Parser Tok RuleParseError DimOverride := do
  let dimension ← expectQuoted "a dimension name"
  expect .colon "\x60:\x60"
  let member ← parseMemberExpr
  pure ⟨dimension, member⟩

def parseOverrides : Parser Tok RuleParseError (List DimOverride) := do
  expect .lBracket "\x60[\x60"
  let first ← parseOverride
  let overrides ← chain (onTok .comma) (fun _ => parseOverride) (fun os _ o => os ++ [o]) [first]
  expect .rBracket "\x60,\x60 or \x60]\x60"
  pure overrides

def parseMappingPair : Parser Tok RuleParseError (String × String) := do
  let src ← expectQuoted "a source dimension name"
  expect .arrow "\x60->\x60"
  let dst ← expectQuoted "a target dimension name"
  pure (src, dst)

def parseMapping : Parser Tok RuleParseError (List (String × String)) := do
  expectWord "with" "\x60with\x60"
  expect .lParen "\x60(\x60"
  let first ← parseMappingPair
  let mapping ← chain (onTok .comma) (fun _ => parseMappingPair) (fun ms _ m => ms ++ [m]) [first]
  expect .rParen "\x60,\x60 or \x60)\x60"
  pure mapping

def parseValueRef : Parser Tok RuleParseError CellRef := do
  expectWord "value" "\x60value\x60"
  if (← peek) = some .lBracket then
    let overrides ← parseOverrides
    pure ⟨none, overrides, []⟩
  else pure ⟨none, [], []⟩

def parseOverridesCellref : Parser Tok RuleParseError CellRef := do
  let overrides ← parseOverrides
  pure ⟨none, overrides, []⟩

def parseCrossCubeRef : Parser Tok RuleParseError CellRef := do
  let cube ← expectQuoted "a cube name"
  expect .bang "\x60!\x60"
  let overrides ← parseOverrides
  if isWord "with" (← peek) then
    let mapping ← parseMapping
    pure ⟨some cube, overrides, mapping⟩
  else pure ⟨some cube, overrides, []⟩

/-! ## Expressions -/

/-- The function of a word, in any case. -/
def BuiltinFunc.fromWord (w : String) : Option BuiltinFunc :=
  if lower w = "attr" then some .attr
  else if lower w = "attrnum" then some .attrNum
  else if lower w = "isleaf" then some .isLeaf
  else if lower w = "elementname" then some .elementName
  else if lower w = "undef" then some .undef
  else none

def onAdd : Tok → List Tok → Option ArithOp := fun t _ =>
  match t with
  | .plus => some .add
  | .minus => some .sub
  | _ => none

def onMul : Tok → List Tok → Option ArithOp := fun t _ =>
  match t with
  | .star => some .mul
  | .slash => some .div
  | _ => none

section

variable (unary : Parser Tok RuleParseError Expr) (not : Parser Tok RuleParseError Condition)

def parseMul : Parser Tok RuleParseError Expr := do
  let first ← unary
  chain onMul (fun _ => unary) (fun l op r => .bin op l r) first

def parseAdd : Parser Tok RuleParseError Expr := do
  let first ← parseMul unary
  chain onAdd (fun _ => parseMul unary) (fun l op r => .bin op l r) first

def parseExpr : Parser Tok RuleParseError Expr := parseAdd unary

def parseAnd : Parser Tok RuleParseError Condition := do
  let first ← not
  chain (onWord "and") (fun _ => not) (fun l _ r => .and l r) first

def parseCondition : Parser Tok RuleParseError Condition := do
  let first ← parseAnd not
  chain (onWord "or") (fun _ => parseAnd not) (fun l _ r => .or l r) first

def parseIf : Parser Tok RuleParseError Expr := do
  expectWord "if" "IF"
  let cond ← parseCondition not
  expectWord "then" "THEN"
  let then_ ← parseExpr unary
  if isWord "else" (← peek) then
    bump
    let otherwise ← parseExpr unary
    pure (.ifElse cond then_ otherwise)
  else pure (.ifThen cond then_)

/-- A quoted argument is a name, unless it is the cube of a reference. -/
def parseFuncArg : Parser Tok RuleParseError FuncArg := do
  match ← peek with
  | some (.quoted s) =>
    if (← peek2) = some .bang then
      let e ← parseExpr unary
      pure (.expr e)
    else
      bump
      pure (.str s)
  | _ =>
    let e ← parseExpr unary
    pure (.expr e)

/-- A call; the word is next. -/
def parseFunc (w : String) : Parser Tok RuleParseError Expr := do
  bump
  match BuiltinFunc.fromWord w with
  | none => fail (.unknownFunction w)
  | some f =>
    expect .lParen "\x60(\x60"
    if (← peek) = some .rParen then
      bump
      pure (.func f [])
    else
      let first ← parseFuncArg unary
      let args ← chain (onTok .comma) (fun _ => parseFuncArg unary) (fun as _ a => as ++ [a])
        [first]
      expect .rParen "\x60,\x60 or \x60)\x60"
      pure (.func f args)

def parsePrimary : Parser Tok RuleParseError Expr := do
  match ← peek with
  | some (.number n) =>
    bump
    pure (.number n)
  | some .lParen =>
    bump
    let inner ← parseExpr unary
    expect .rParen "\x60)\x60"
    pure inner
  | some .lBracket =>
    let r ← parseOverridesCellref
    pure (.cell r)
  | some (.quoted s) =>
    if (← peek2) = some .bang then
      let r ← parseCrossCubeRef
      pure (.cell r)
    else
      bump
      pure (.str s)
  | some (.word w) =>
    if lower w = "value" then
      let r ← parseValueRef
      pure (.cell r)
    else if lower w = "if" then parseIf unary not
    else if (← peek2) = some .lParen then parseFunc unary w
    else unexpected "a value (number, name, \x60value\x60, IF, function, or \x60(\x60)"
  | _ => unexpected "a value (number, name, \x60value\x60, IF, function, or \x60(\x60)"

def parseUnaryInner : Parser Tok RuleParseError Expr := do
  if (← peek) = some .minus then
    bump
    let e ← unary
    pure (.neg e)
  else parsePrimary unary not

def parseNotInner : Parser Tok RuleParseError Condition := do
  if isWord "not" (← peek) then
    bump
    let c ← not
    pure (.not c)
  else
    let left ← parseExpr unary
    let op ← parseCmpOp
    let right ← parseExpr unary
    pure (.compare left op right)

end

/-- The parsers of a signed value, and of a negation or a comparison, with some
levels left. -/
def nested : Nat → Parser Tok RuleParseError Expr × Parser Tok RuleParseError Condition
  | 0 => (fail .tooDeep, fail .tooDeep)
  | n + 1 =>
    let inner := nested n
    (parseUnaryInner inner.1 inner.2, parseNotInner inner.1 inner.2)

def parseUnary (n : Nat) : Parser Tok RuleParseError Expr := (nested n).1

def parseNot (n : Nat) : Parser Tok RuleParseError Condition := (nested n).2

/-! ## Documents -/

def parseRule : Parser Tok RuleParseError Rule := do
  let area ← parseArea
  expect .eq "\x60=\x60"
  let formula ← parseExpr (parseUnary maxParseDepth)
  expect .semicolon "\x60;\x60"
  pure ⟨area, formula⟩

/-- A text as a rules document. -/
def parse (T : CharTable) (src : List Char) : Except RuleParseError RuleDoc := do
  let toks ← lex T src
  let rules ← exhaust parseRule toks
  .ok ⟨rules⟩

/-! ## What is accepted -/

theorem yields_dimSelector (selectors : List DimSelector) :
    Yields (fun _ => True) (parseDimSelector selectors) fun s =>
      s.dimension ∉ selectors.map DimSelector.dimension := by
  refine yields_true.bind fun dimension _ => yields_true.bind fun _ _ =>
    yields_true.bind fun kind _ => ?_
  by_cases hdup : (selectors.any fun s => s.dimension = dimension) = true
  · rw [if_pos hdup]
    exact yields_fail
  · rw [if_neg hdup]
    refine yields_pure fun hmem => hdup ?_
    obtain ⟨s, hs, hname⟩ := List.mem_map.1 hmem
    exact List.any_eq_true.2 ⟨s, hs, by simpa using hname⟩

/-- **No area constrains a dimension twice.** -/
theorem yields_area : Yields (fun _ => True) parseArea fun area =>
    (area.selectors.map DimSelector.dimension).Nodup := by
  refine yields_true.bind fun scope _ => yields_true.bind fun _ _ =>
    yields_true.bind fun first _ => ?_
  refine (yields_chain _ yields_dimSelector (Q := fun ss =>
    (ss.map DimSelector.dimension).Nodup) (fun ss _ s hss hs => ?_) (by simp)).bind
      fun selectors hselectors => yields_true.bind fun _ _ => yields_pure hselectors
  rw [List.map_append]
  exact List.nodup_append'.2 ⟨hss, List.nodup_singleton _, by simpa using hs⟩

theorem distinct_of_parse {T : CharTable} {src : List Char} {doc : RuleDoc}
    (h : parse T src = .ok doc) : ∀ rule ∈ doc.rules,
      (rule.area.selectors.map DimSelector.dimension).Nodup := by
  obtain ⟨toks, -, h⟩ := bind_eq_ok.1 h
  obtain ⟨rules, hrules, h⟩ := bind_eq_ok.1 h
  obtain rfl := Except.ok.inj h
  have hrule : Yields (fun _ => True) parseRule fun rule =>
      (rule.area.selectors.map DimSelector.dimension).Nodup :=
    yields_area.bind fun area harea => yields_true.bind fun _ _ =>
      yields_true.bind fun formula _ => yields_true.bind fun _ _ => yields_pure harea
  exact hrule.exhaust (fun _ _ => trivial) hrules

end Rules

end Epiphany
