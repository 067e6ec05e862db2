import Epiphany.Common.Lexing
import Epiphany.Rules.Syntax
/-!
# Rules text — tokens, and how rules are written

The tokens of a text without its comments, and the canonical text of rules.
-/

namespace Epiphany

namespace Rules

open Lexing Parsing Parsing.Parser Digits
open Calc (ArithOp CmpOp)

/-! ## Tokens -/

inductive Tok where
  | lBracket
  | rBracket
  | lParen
  | rParen
  | lBrace
  | rBrace
  | comma
  | semicolon
  | colon
  | bang
  | atSign
  | arrow
  | plus
  | minus
  | star
  | slash
  | eq
  | ne
  | lt
  | le
  | gt
  | ge
  /-- A name or a string, without its quotes. -/
  | quoted (text : String)
  /-- A number, as it was written. -/
  | number (text : String)
  | word (text : String)
deriving DecidableEq

/-- A token, for an error. -/
def Tok.describe : Tok → String
  | lBracket => "["
  | rBracket => "]"
  | lParen => "("
  | rParen => ")"
  | lBrace => "\x7b"
  | rBrace => "\x7d"
  | comma => ","
  | semicolon => ";"
  | colon => ":"
  | bang => "!"
  | atSign => "@"
  | arrow => "->"
  | plus => "+"
  | minus => "-"
  | star => "*"
  | slash => "/"
  | eq => "="
  | ne => "<>"
  | lt => "<"
  | le => "<="
  | gt => ">"
  | ge => ">="
  | quoted s => "'" ++ s ++ "'"
  | number n => n
  | word w => w

/-- Why a text is no rules document. -/
inductive RuleParseError where
  | unexpectedToken (found expected : String)
  | unexpectedEof (expected : String)
  | unterminatedString
  | unterminatedComment
  | unexpectedChar (c : Char)
  | duplicateDimension (dimension : String)
  | unknownFunction (name : String)
  | tooDeep
deriving DecidableEq

def RuleParseError.toString : RuleParseError → String
  | unexpectedToken found expected => "unexpected \x60" ++ found ++ "\x60, expected " ++ expected
  | unexpectedEof expected => "unexpected end of input, expected " ++ expected
  | unterminatedString => "unterminated quoted name or string"
  | unterminatedComment => "unterminated block comment"
  | unexpectedChar c => "unexpected character \x60" ++ String.singleton c ++ "\x60"
  | duplicateDimension d => "dimension '" ++ d ++ "' appears more than once in the area"
  | unknownFunction name => "unknown function '" ++ name ++ "'"
  | tooDeep => "expression nests too deeply"

/-- What is behind the end of a block comment. -/
def skipComment : List Char → Option (List Char)
  | [] => none
  | [_] => none
  | c :: c' :: rest => if c = '*' ∧ c' = '/' then some rest else skipComment (c' :: rest)

theorem skipComment_suffix {l rest : List Char} (h : skipComment l = some rest) : rest <:+ l := by
  fun_induction skipComment l with
  | case1 => cases h
  | case2 => cases h
  | case3 c c' rest' hc =>
    obtain rfl := Option.some.inj h
    exact (List.suffix_cons _ _).trans (List.suffix_cons _ _)
  | case4 c c' rest' hc ih => exact (ih h).trans (List.suffix_cons _ _)

/-- The rest of a block comment. -/
def blockComment : Parser Char RuleParseError Unit where
  run l :=
    match skipComment l with
    | some rest => .ok ((), rest)
    | none => .error .unterminatedComment
  suffix {toks _ rest} h := by
    rcases hs : skipComment toks with _ | out
    · simp [hs] at h
    · obtain rfl : out = rest := by simpa [hs] using h
      exact skipComment_suffix hs

/-- The tokens of one character. -/
def single (c : Char) : Option Tok :=
  if c = '[' then some .lBracket
  else if c = ']' then some .rBracket
  else if c = '(' then some .lParen
  else if c = ')' then some .rParen
  else if c = '\x7b' then some .lBrace
  else if c = '\x7d' then some .rBrace
  else if c = ',' then some .comma
  else if c = ';' then some .semicolon
  else if c = ':' then some .colon
  else if c = '!' then some .bang
  else if c = '@' then some .atSign
  else if c = '+' then some .plus
  else if c = '*' then some .star
  else if c = '/' then some .slash
  else if c = '=' then some .eq
  else none

/-- The token that starts with a character, which is taken, and may be longer
than it. -/
def longToken (T : CharTable) (c : Char) : Parser Char RuleParseError Tok := do
  let after ← peek
  if c = '-' ∧ after = some '>' then
    bump
    pure .arrow
  else if c = '-' then pure .minus
  else if c = '<' ∧ after = some '=' then
    bump
    pure .le
  else if c = '<' ∧ after = some '>' then
    bump
    pure .ne
  else if c = '<' then pure .lt
  else if c = '>' ∧ after = some '=' then
    bump
    pure .ge
  else if c = '>' then pure .gt
  else if c = '\'' then
    let text ← quoted '\'' .unterminatedString
    pure (.quoted (String.ofList text))
  else if c.isDigit then
    let text ← numeral
    pure (.number (String.ofList (c :: text)))
  else if T.startsWord c then
    let text ← takeWhile T.inWord
    pure (.word (String.ofList (c :: text)))
  else fail (.unexpectedChar c)

/-- The next token, unless white space or a comment is next. -/
def lexToken (T : CharTable) : Parser Char RuleParseError (Option Tok) := do
  match ← next with
  | none => pure none
  | some c =>
    if isWhitespace c then pure none
    else if c = '#' then
      let _ ← takeWhile fun d => d ≠ '\n'
      pure none
    else if c = '/' ∧ (← peek) = some '*' then
      bump
      blockComment
      pure none
    else
      match single c with
      | some t => pure (some t)
      | none =>
        let t ← longToken T c
        pure (some t)

/-- The tokens of a text. -/
def lex (T : CharTable) (src : List Char) : Except RuleParseError (List Tok) :=
  tokens (lexToken T) src

/-! ## Canonical text -/

/-- A keyword, or the name of a function. -/
def word (w : String) : List Char := w.toList

def quote (s : String) : List Char := '\'' :: escape '\'' s.toList ++ ['\'']

def displayArithOp : ArithOp → List Char
  | .add => ['+']
  | .sub => ['-']
  | .mul => ['*']
  | .div => ['/']

def displayCmpOp : CmpOp → List Char
  | .eq => ['=']
  | .ne => ['<', '>']
  | .lt => ['<']
  | .le => ['<', '=']
  | .gt => ['>']
  | .ge => ['>', '=']

def Literal.display : Literal → List Char
  | str s => quote s
  | number n => n.toList

def SelectorKind.display : SelectorKind → List Char
  | element m => quote m
  | attrPredicate attr op value =>
    '@' :: quote attr ++ ' ' :: displayCmpOp op ++ ' ' :: value.display
  | children m => '\x7b' :: word "children" ++ ' ' :: word "of" ++ ' ' :: quote m ++ ['\x7d']
  | descendants m => '\x7b' :: word "descendants" ++ ' ' :: word "of" ++ ' ' :: quote m ++ ['\x7d']
  | leaves => '\x7b' :: word "leaves" ++ ['\x7d']
  | consolidated => '\x7b' :: word "consolidated" ++ ['\x7d']
  | all => '\x7b' :: word "all" ++ ['\x7d']

def Scope.display : Scope → List Char
  | unmarked => []
  | leaf => ['N', ':']
  | consolidated => ['C', ':']

def DimSelector.display (s : DimSelector) : List Char :=
  quote s.dimension ++ ':' :: ' ' :: s.kind.display

def Area.display (a : Area) : List Char :=
  a.scope.display ++ '[' :: [',', ' '].intercalate (a.selectors.map DimSelector.display) ++ [']']

def MemberExpr.display : MemberExpr → List Char
  | element m => quote m
  | attr a => '!' :: quote a

def DimOverride.display (o : DimOverride) : List Char :=
  quote o.dimension ++ ':' :: ' ' :: o.member.display

def displayMapping (m : String × String) : List Char :=
  quote m.1 ++ ' ' :: '-' :: '>' :: ' ' :: quote m.2

def CellRef.display (r : CellRef) : List Char :=
  (match r.cube with
    | some cube => quote cube ++ ['!']
    | none => word "value") ++
  (if r.overrides = [] then []
    else '[' :: [',', ' '].intercalate (r.overrides.map DimOverride.display) ++ [']']) ++
  (if r.mapping = [] then []
    else ' ' :: word "with" ++ ' ' :: '(' ::
      [',', ' '].intercalate (r.mapping.map displayMapping) ++ [')'])

mutual

def Expr.display : Expr → List Char
  | .number n => n.toList
  | .str s => quote s
  | .cell r => r.display
  | .neg e => '-' :: e.display
  | .bin op left right =>
    '(' :: left.display ++ ' ' :: displayArithOp op ++ ' ' :: right.display ++ [')']
  | .ifThen cond then_ =>
    '(' :: word "IF" ++ ' ' :: cond.display ++ ' ' :: word "THEN" ++ ' ' :: then_.display ++ [')']
  | .ifElse cond then_ otherwise =>
    '(' :: word "IF" ++ ' ' :: cond.display ++ ' ' :: word "THEN" ++ ' ' :: then_.display ++
      ' ' :: word "ELSE" ++ ' ' :: otherwise.display ++ [')']
  | .func f args => word f.name ++ '(' :: [',', ' '].intercalate (displayArgs args) ++ [')']

def Condition.display : Condition → List Char
  | .and a b => a.display ++ ' ' :: word "AND" ++ ' ' :: b.display
  | .or a b => a.display ++ ' ' :: word "OR" ++ ' ' :: b.display
  | .not c => word "NOT" ++ ' ' :: c.display
  | .compare left op right => left.display ++ ' ' :: displayCmpOp op ++ ' ' :: right.display

def FuncArg.display : FuncArg → List Char
  | .str s => quote s
  | .expr e => e.display

def displayArgs : List FuncArg → List (List Char)
  | [] => []
  | a :: rest => a.display :: displayArgs rest

end

def Rule.display (r : Rule) : List Char :=
  r.area.display ++ ' ' :: '=' :: ' ' :: r.formula.display ++ [';']

def RuleDoc.display (d : RuleDoc) : List Char := ['\n'].intercalate (d.rules.map Rule.display)

end Rules

end Epiphany
