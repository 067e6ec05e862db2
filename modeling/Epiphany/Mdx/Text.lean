import Epiphany.Common.Lexing
import Epiphany.Mdx.Syntax
/-!
# MDX text — tokens, and how syntax is written

The tokens of a text, and the canonical text of expressions and queries.
-/

namespace Epiphany

namespace Mdx

open Lexing Parsing Parsing.Parser Digits

/-! ## Tokens -/

inductive Tok where
  | lBrace
  | rBrace
  | lParen
  | rParen
  | comma
  | dot
  | star
  /-- A name; one in brackets is no keyword. -/
  | name (text : String) (bracketed : Bool)
  | str (text : String)
  /-- A number, as it was written. -/
  | number (text : String)
  | eq
  | ne
  | lt
  | le
  | gt
  | ge
deriving DecidableEq

/-- A token, for an error. -/
def Tok.describe : Tok → String
  | lBrace => "\x7b"
  | rBrace => "\x7d"
  | lParen => "("
  | rParen => ")"
  | comma => ","
  | dot => "."
  | star => "*"
  | name text true => "[" ++ text ++ "]"
  | name text false => text
  | str text => "\"" ++ text ++ "\""
  | number text => text
  | eq => "="
  | ne => "<>"
  | lt => "<"
  | le => "<="
  | gt => ">"
  | ge => ">="

inductive ParseError where
  | unexpectedToken (found expected : String)
  | unexpectedEof (expected : String)
  | unterminatedBracket
  | unterminatedString
  | unexpectedChar (c : Char)
  | trailingInput
  | tooDeep
  | unknownAxis (found : String)
  | duplicateAxis (axis : String)
deriving DecidableEq

/-- The tokens of one character. -/
def single (c : Char) : Option Tok :=
  if c = '\x7b' then some .lBrace
  else if c = '\x7d' then some .rBrace
  else if c = '(' then some .lParen
  else if c = ')' then some .rParen
  else if c = ',' then some .comma
  else if c = '.' then some .dot
  else if c = '*' then some .star
  else if c = '=' then some .eq
  else none

/-- The token that starts with a character, which is taken, and may be longer
than it. -/
def longToken (T : CharTable) (c : Char) : Parser Char ParseError Tok := do
  let after ← peek
  if c = '<' ∧ after = some '=' then
    bump
    pure .le
  else if c = '<' ∧ after = some '>' then
    bump
    pure .ne
  else if c = '<' then pure .lt
  else if c = '>' ∧ after = some '=' then
    bump
    pure .ge
  else if c = '>' then pure .gt
  else if c = '[' then
    let text ← quoted ']' .unterminatedBracket
    pure (.name (String.ofList text) true)
  else if c = '"' ∨ c = '\'' then
    let text ← quoted c .unterminatedString
    pure (.str (String.ofList text))
  else if c.isDigit ∨ (c = '-' ∧ after.any Char.isDigit) then
    let text ← numeral
    pure (.number (String.ofList (c :: text)))
  else if T.startsWord c then
    let text ← takeWhile T.inWord
    pure (.name (String.ofList (c :: text)) false)
  else fail (.unexpectedChar c)

/-- The next token, unless white space is next. -/
def lexToken (T : CharTable) : Parser Char ParseError (Option Tok) := do
  match ← next with
  | none => pure none
  | some c =>
    if isWhitespace c then pure none
    else
      match single c with
      | some t => pure (some t)
      | none =>
        let t ← longToken T c
        pure (some t)

/-- The tokens of a text. -/
def lex (T : CharTable) (src : List Char) : Except ParseError (List Tok) :=
  tokens (lexToken T) src

/-! ## Canonical text -/

/-- A keyword, or the name of a function. -/
def word (w : String) : List Char := w.toList

def bracket (name : String) : List Char := '[' :: escape ']' name.toList ++ [']']

def quote (s : String) : List Char := '"' :: escape '"' s.toList ++ ['"']

def MemberRef.display (r : MemberRef) : List Char := ['.'].intercalate (r.path.map bracket)

def OrderDir.display : OrderDir → List Char
  | asc => word "ASC"
  | desc => word "DESC"
  | bAsc => word "BASC"
  | bDesc => word "BDESC"

def CmpOp.display : CmpOp → List Char
  | eq => "=".toList
  | ne => "<>".toList
  | lt => "<".toList
  | le => "<=".toList
  | gt => ">".toList
  | ge => ">=".toList

def Operand.display : Operand → List Char
  | property attr => word "Properties" ++ '(' :: quote attr ++ [')']
  | str s => quote s
  | number n => n.toList

def Predicate.display : Predicate → List Char
  | and l r => '(' :: l.display ++ ' ' :: word "AND" ++ ' ' :: r.display ++ [')']
  | or l r => '(' :: l.display ++ ' ' :: word "OR" ++ ' ' :: r.display ++ [')']
  | not p => '(' :: word "NOT" ++ ' ' :: p.display ++ [')']
  | compare left op right => left.display ++ ' ' :: op.display ++ ' ' :: right.display

mutual

def SetExpr.display : SetExpr → List Char
  | .set items => '\x7b' :: [',', ' '].intercalate (displayAll items) ++ ['\x7d']
  | .member r => r.display
  | .members r => r.display ++ '.' :: word "Members"
  | .children r => r.display ++ '.' :: word "Children"
  | .descendants r => word "Descendants" ++ '(' :: r.display ++ [')']
  | .filter s p => word "Filter" ++ '(' :: s.display ++ ',' :: ' ' :: p.display ++ [')']
  | .order s attr dir =>
    word "Order" ++ '(' :: s.display ++ ',' :: ' ' :: bracket attr ++
      ',' :: ' ' :: dir.display ++ [')']
  | .crossjoin a b =>
    word "Crossjoin" ++ '(' :: a.display ++ ',' :: ' ' :: b.display ++ [')']

def displayAll : List SetExpr → List (List Char)
  | [] => []
  | e :: rest => e.display :: displayAll rest

end

def AxisName.display : AxisName → List Char
  | columns => word "COLUMNS"
  | rows => word "ROWS"
  | ordinal n => Nat.toDigits 10 n.toNat

def displayAxis (a : AxisName × SetExpr) : List Char :=
  ' ' :: ' ' :: a.2.display ++ ' ' :: word "ON" ++ ' ' :: a.1.display

def displaySlicer (slicer : List MemberRef) : List Char :=
  if slicer = [] then []
  else
    '\n' :: word "WHERE" ++ ' ' :: '(' :: ' ' ::
      [',', ' '].intercalate (slicer.map MemberRef.display) ++ [' ', ')']

def Query.display (q : Query) : List Char :=
  word "SELECT" ++ '\n' :: [',', '\n'].intercalate (q.axes.map displayAxis) ++
    '\n' :: word "FROM" ++ ' ' :: bracket q.cube ++ displaySlicer q.slicer

end Mdx

end Epiphany
