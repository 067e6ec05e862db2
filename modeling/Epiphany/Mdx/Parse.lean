import Epiphany.Mdx.Text
/-!
# MDX parsing — set expressions and queries

Recursive descent. A nested parser has the number of levels that are left;
the parsers it is made of get the parser for one level less.
-/

namespace Epiphany

namespace Mdx

open Lexing Parsing Parsing.Parser Loop

/-- How deep sets and predicates may nest. -/
def maxParseDepth : Nat := 128

/-- A text with the letters from `A` to `Z` in lower case. -/
def lower (s : String) : String := String.ofList (s.toList.map Char.toLower)

/-- Whether a token is a keyword, which is given in lower case. -/
def isKeyword (kw : String) : Option Tok → Bool
  | some (.name text false) => lower text = kw
  | _ => false

def isFuncKw (text : String) : Bool :=
  lower text ∈ ["filter", "order", "crossjoin", "descendants"]

def isPostfixKw (text : String) : Bool := lower text ∈ ["members", "children", "descendants"]

/-- Go on while a token is next. -/
def onTok (t : Tok) : Tok → List Tok → Option Unit := fun t' _ => if t' = t then some () else none

/-- Go on while a keyword is next. -/
def onKeyword (kw : String) : Tok → List Tok → Option Unit :=
  fun t _ => if isKeyword kw (some t) then some () else none

/-- Go on while a dot and a name are next. -/
def onDotName : Tok → List Tok → Option Unit := fun t rest =>
  match t, rest.head? with
  | .dot, some (.name _ _) => some ()
  | _, _ => none

def unexpected {α : Type} (expected : String) : Parser Tok ParseError α := do
  match ← peek with
  | some t => fail (.unexpectedToken t.describe expected)
  | none => fail (.unexpectedEof expected)

def expect (want : Tok) (expected : String) : Parser Tok ParseError Unit := do
  if (← peek) = some want then bump
  else unexpected expected

def expectName (expected : String) : Parser Tok ParseError String := do
  match ← peek with
  | some (.name text _) =>
    bump
    pure text
  | _ => unexpected expected

def expectKeyword (kw expected : String) : Parser Tok ParseError Unit := do
  if isKeyword kw (← peek) then bump
  else unexpected expected

/-! ## Members -/

/-- A path without what a set function would be. -/
def parseMemberRef : Parser Tok ParseError MemberRef := do
  let first ← expectName "a member name"
  let path ← chain onDotName (fun _ => expectName "a member name") (fun path _ x => path ++ [x])
    [first]
  pure ⟨path⟩

/-- A set function behind a dot. -/
def postfixSet (kw : String) (r : MemberRef) : SetExpr :=
  if kw = "members" then .members r
  else if kw = "children" then .children r
  else .descendants r

/-- What is behind a dot: a set function, or one more name. -/
def postfixTurn (path : List String) : Parser Tok ParseError (Turn (List String) SetExpr) := do
  match ← peek with
  | some (.name text bracketed) =>
    if bracketed = false ∧ isPostfixKw text then
      bump
      pure (.done (postfixSet (lower text) ⟨path⟩))
    else
      let x ← expectName "a member name"
      pure (.again (path ++ [x]))
  | _ =>
    unexpected "a member name or \x60.Members\x60 / \x60.Children\x60 / \x60.Descendants\x60"

def postfixLoop : List String → Parser Tok ParseError SetExpr :=
  repeatWhile (onTok .dot) (fun _ => postfixTurn) fun path => .member ⟨path⟩

/-- A path, and the set function behind it, if there is one. -/
def parseMemberOrPostfix : Parser Tok ParseError SetExpr := do
  let first ← expectName "a member name"
  postfixLoop [first]

/-! ## Predicates -/

def parseCmpOp : Parser Tok ParseError CmpOp := do
  match ← peek with
  | some .eq => bump; pure .eq
  | some .ne => bump; pure .ne
  | some .lt => bump; pure .lt
  | some .le => bump; pure .le
  | some .gt => bump; pure .gt
  | some .ge => bump; pure .ge
  | _ => unexpected "a comparison operator"

/-- An attribute behind a path that ends in `Properties`; the path in front of
that word says nothing. -/
def parsePropertyOperand : Parser Tok ParseError Operand := do
  let first ← expectName "a member reference"
  let path ← chain onDotName (fun _ => expectName "a member reference")
    (fun path _ x => path ++ [x]) [first]
  if lower (path.getLast?.getD "") ≠ "properties" then
    fail (.unexpectedToken (".".intercalate path) "\x60.Properties(\"Attr\")\x60")
  else
    expect .lParen "\x60(\x60"
    match ← peek with
    | some (.str attr) =>
      bump
      expect .rParen "\x60)\x60"
      pure (.property attr)
    | _ => unexpected "a quoted attribute name"

def parseOperand : Parser Tok ParseError Operand := do
  match ← peek with
  | some (.str s) =>
    bump
    pure (.str s)
  | some (.number n) =>
    bump
    pure (.number n)
  | some (.name _ _) => parsePropertyOperand
  | _ => unexpected "an attribute property, string, or number"

def parseComparison : Parser Tok ParseError Predicate := do
  let left ← parseOperand
  let op ← parseCmpOp
  let right ← parseOperand
  pure (.compare left op right)

section

variable (not : Parser Tok ParseError Predicate)

def parseAnd : Parser Tok ParseError Predicate := do
  let first ← not
  chain (onKeyword "and") (fun _ => not) (fun l _ r => .and l r) first

def parseOr : Parser Tok ParseError Predicate := do
  let first ← parseAnd not
  chain (onKeyword "or") (fun _ => parseAnd not) (fun l _ r => .or l r) first

def parsePredicate : Parser Tok ParseError Predicate := parseOr not

def parseNotInner : Parser Tok ParseError Predicate := do
  let front ← peek
  if isKeyword "not" front then
    bump
    let p ← not
    pure (.not p)
  else if front = some .lParen then
    bump
    let p ← parsePredicate not
    expect .rParen "\x60)\x60"
    pure p
  else parseComparison

end

/-- A negation, a group or a comparison, with some levels left. -/
def parseNot : Nat → Parser Tok ParseError Predicate
  | 0 => fail .tooDeep
  | n + 1 => parseNotInner (parseNot n)

/-! ## Sets -/

/-- What a sort goes by. -/
def parseOrderKey : Parser Tok ParseError String := do
  match ← peek with
  | some (.str s) =>
    bump
    pure s
  | some (.name text _) =>
    bump
    pure text
  | _ => unexpected "an attribute name"

def parseDir : Parser Tok ParseError OrderDir := do
  match ← peek with
  | some (.name text false) =>
    if lower text = "asc" then bump; pure .asc
    else if lower text = "desc" then bump; pure .desc
    else if lower text = "basc" then bump; pure .bAsc
    else if lower text = "bdesc" then bump; pure .bDesc
    else unexpected "ASC, DESC, BASC, or BDESC"
  | _ => unexpected "ASC, DESC, BASC, or BDESC"

section

variable (set : Parser Tok ParseError SetExpr) (predicate : Parser Tok ParseError Predicate)

def parseSetLiteral : Parser Tok ParseError SetExpr := do
  expect .lBrace "\x60\x7b\x60"
  if (← peek) = some .rBrace then
    bump
    pure (.set [])
  else
    let first ← set
    let items ← chain (onTok .comma) (fun _ => set) (fun items _ x => items ++ [x]) [first]
    expect .rBrace "\x60,\x60 or \x60\x7d\x60"
    pure (.set items)

/-- The arguments of a function, which is one of four. -/
def parseFuncBody (name : String) : Parser Tok ParseError SetExpr := do
  if name = "filter" then
    let s ← set
    expect .comma "\x60,\x60"
    let p ← predicate
    expect .rParen "\x60)\x60"
    pure (.filter s p)
  else if name = "order" then
    let s ← set
    expect .comma "\x60,\x60"
    let attr ← parseOrderKey
    if (← peek) = some .comma then
      bump
      let dir ← parseDir
      expect .rParen "\x60)\x60"
      pure (.order s attr dir)
    else
      expect .rParen "\x60)\x60"
      pure (.order s attr .asc)
  else if name = "crossjoin" then
    let first ← set
    expect .comma "\x60,\x60"
    let second ← set
    let acc ← chain (onTok .comma) (fun _ => set) (fun acc _ x => .crossjoin acc x)
      (.crossjoin first second)
    expect .rParen "\x60)\x60 or \x60,\x60"
    pure acc
  else
    let r ← parseMemberRef
    expect .rParen "\x60)\x60"
    pure (.descendants r)

def parsePrimary : Parser Tok ParseError SetExpr := do
  match ← peek with
  | some .lBrace => parseSetLiteral set
  | some (.name text bracketed) =>
    if bracketed = false ∧ isFuncKw text ∧ (← peek2) = some .lParen then
      bump
      bump
      parseFuncBody set predicate (lower text)
    else parseMemberOrPostfix
  | _ => unexpected "a set expression"

def parseSetInner : Parser Tok ParseError SetExpr := do
  let first ← parsePrimary set predicate
  chain (onTok .star) (fun _ => parsePrimary set predicate) (fun l _ r => .crossjoin l r) first

end

/-- A set expression, with some levels left. -/
def parseSet : Nat → Parser Tok ParseError SetExpr
  | 0 => fail .tooDeep
  | n + 1 => parseSetInner (parseSet n) (parsePredicate (parseNot n))

/-! ## Queries -/

/-- A number of an axis. -/
def parseU32 (text : String) : Option UInt32 :=
  let digits := text.toList
  let n := Nat.ofDigitChars 10 digits 0
  if digits ≠ [] ∧ digits.all Char.isDigit ∧ n < 2 ^ 32 then some (UInt32.ofNat n) else none

def parseAxisName : Parser Tok ParseError AxisName := do
  match ← peek with
  | some (.number text) =>
    match parseU32 text with
    | some n =>
      bump
      pure (if n = 0 then .columns else if n = 1 then .rows else .ordinal n)
    | none => unexpected "an axis number"
  | some (.name text false) =>
    if lower text ∈ ["columns", "column"] then bump; pure .columns
    else if lower text ∈ ["rows", "row"] then bump; pure .rows
    else fail (.unknownAxis text)
  | _ => unexpected "COLUMNS, ROWS, or an axis number"

/-- A set on an axis that is none of those before it. -/
def parseAxis (axes : List (AxisName × SetExpr)) : Parser Tok ParseError (AxisName × SetExpr) := do
  let set ← parseSet maxParseDepth
  expectKeyword "on" "\x60ON\x60"
  let axis ← parseAxisName
  if axes.any fun a => a.1 = axis then fail (.duplicateAxis (String.ofList axis.display))
  else pure (axis, set)

def parseSlicer : Parser Tok ParseError (List MemberRef) := do
  expect .lParen "\x60(\x60"
  let first ← parseMemberRef
  let out ← chain (onTok .comma) (fun _ => parseMemberRef) (fun out _ x => out ++ [x]) [first]
  expect .rParen "\x60)\x60 or \x60,\x60"
  pure out

def parseQueryTokens : Parser Tok ParseError Query := do
  expectKeyword "select" "\x60SELECT\x60"
  if isKeyword "from" (← peek) then
    fail (.unexpectedToken "FROM" "at least one axis (a set \x60ON\x60 an axis) before \x60FROM\x60")
  else
    let first ← parseAxis []
    let axes ← chain (onTok .comma) parseAxis (fun axes _ a => axes ++ [a]) [first]
    expectKeyword "from" "\x60FROM\x60"
    let cube ← expectName "a cube name"
    if isKeyword "where" (← peek) then
      bump
      let slicer ← parseSlicer
      pure ⟨axes, cube, slicer⟩
    else pure ⟨axes, cube, []⟩

/-- All of a text as one value. -/
def parseAll {α : Type} (T : CharTable) (p : Parser Tok ParseError α) (src : List Char) :
    Except ParseError α := do
  let toks ← lex T src
  let r ← p.run toks
  if r.2 = [] then .ok r.1 else .error .trailingInput

/-- A text as a set expression. -/
def parse (T : CharTable) (src : List Char) : Except ParseError SetExpr :=
  parseAll T (parseSet maxParseDepth) src

/-- A text as a query. -/
def parseQuery (T : CharTable) (src : List Char) : Except ParseError Query :=
  parseAll T parseQueryTokens src

end Mdx

end Epiphany
