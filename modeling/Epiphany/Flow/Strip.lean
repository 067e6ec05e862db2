import Epiphany.Common.Digits
import Epiphany.Common.Loop
/-!
# Type stripping — TypeScript to JavaScript by blanking

A flow is written in TypeScript and run as JavaScript. One scan from left to
right overwrites types with blanks, guided by what stood before, by the kinds
of the open braces, and by open conditionals. The scan reads and writes the
source by index; an index outside of it is a panic.
-/

namespace Epiphany

namespace Strip

open Digits Loop

/-- What was wrong with a source, and where. -/
structure StripError where
  message : String
  line : Nat
  column : Nat
deriving DecidableEq

/-- How a scan ends early. -/
inductive Halt where
  | error (e : StripError)
  /-- An index outside of the source. -/
  | panic
deriving DecidableEq

/-- What the last token was, for a brace or a slash after it. -/
inductive Prev where
  | start
  /-- The end of a value. -/
  | value
  | op
  /-- A keyword that an expression follows. -/
  | keywordExpr
  | arrow
deriving DecidableEq

structure Stripper where
  src : List Char
  out : List Char
  i : Nat
  prev : Prev
  /-- The open braces, the innermost first: whether each is an object. -/
  braces : List Bool
  /-- The open conditionals of the statement. -/
  ternary : UInt32
  /-- The next colon ends a label or a case. -/
  labelColon : Bool

/-! ## Characters and words -/

/-- A letter, `_` or `$`. -/
def isWordStart (c : Char) : Bool := c.isAlpha || c = '_' || c = '$'

def isWordChar (c : Char) : Bool := c.isAlphanum || c = '_' || c = '$'

/-- The index after the characters from an index on that have a property. -/
def skipWhile (p : Char → Bool) (src : List Char) (k : Nat) : Nat :=
  k + ((src.drop k).takeWhile p).length

def skipSpace (src : List Char) (k : Nat) : Nat := skipWhile isWhitespace src k

/-- The end of a word that starts at an index. -/
def wordEnd (src : List Char) (k : Nat) : Nat := skipWhile isWordChar src k

/-- The characters from one index to another. -/
def slice (src : List Char) (start stop : Nat) : String :=
  String.ofList ((src.drop start).take (stop - start))

/-! ## Comments, strings, templates and regular expressions

How many characters each takes of a text that is behind its opening. -/

/-- Up to the end of the line. -/
def lineCommentLength (l : List Char) : Nat := (l.takeWhile (· ≠ '\n')).length

/-- Past the closing, or all. -/
def blockCommentLength : List Char → Nat
  | '*' :: '/' :: _ => 2
  | _ :: rest => 1 + blockCommentLength rest
  | [] => 0

/-- Past the closing quote. What follows a backslash is not looked at, nor
whether there is any. -/
def stringLength (quote : Char) : List Char → Nat
  | '\\' :: _ :: rest => 2 + stringLength quote rest
  | ['\\'] => 2
  | c :: rest => if c = quote then 1 else 1 + stringLength quote rest
  | [] => 0

/-- A turn of the scan of a template. In an interpolation, strings, templates
and comments are skipped as a whole. The open templates are a stack, each with
how deep its interpolation is. -/
def templateTurn (src : List Char) : List Nat × Nat → Turn (List Nat × Nat) Nat
  | ([], k) => .done k
  | (depth :: outer, k) =>
    match src[k]? with
    | none => .done k
    | some c =>
      if c = '\\' then .again (depth :: outer, k + 2)
      else if depth = 0 ∧ c = '\x60' then .again (outer, k + 1)
      else if c = '$' ∧ src[k + 1]? = some '\x7b' then .again ((depth + 1) :: outer, k + 2)
      else if depth = 0 then .again (depth :: outer, k + 1)
      else if c = '\x7d' then .again ((depth - 1) :: outer, k + 1)
      else if c = '\'' ∨ c = '"' then
        .again (depth :: outer, k + 1 + stringLength c (src.drop (k + 1)))
      else if c = '\x60' then .again (0 :: depth :: outer, k + 1)
      else if c = '/' ∧ src[k + 1]? = some '/' then
        .again (depth :: outer, k + lineCommentLength (src.drop k))
      else if c = '/' ∧ src[k + 1]? = some '*' then
        .again (depth :: outer, k + 2 + blockCommentLength (src.drop (k + 2)))
      else .again (depth :: outer, k + 1)

/-- Past the closing backtick of a template that has its text from an index
on. -/
def templateEnd (src : List Char) (k : Nat) : Nat :=
  (loop (templateTurn src) (src.length + 1) ([0], k)).getD k

/-- Past the closing slash, outside of a class; or up to the end of the line. -/
def regexLength (inClass : Bool) : List Char → Nat
  | '\\' :: _ :: rest => 2 + regexLength inClass rest
  | ['\\'] => 2
  | '[' :: rest => 1 + regexLength true rest
  | ']' :: rest => 1 + regexLength false rest
  | '/' :: rest => if inClass then 1 + regexLength inClass rest else 1
  | '\n' :: _ => 0
  | _ :: rest => 1 + regexLength inClass rest
  | [] => 0

/-- Past white space, and past the comment that is there. -/
def triviaTurn (src : List Char) (k : Nat) : Turn Nat Nat :=
  let k := skipSpace src k
  if src[k]? = some '/' ∧ src[k + 1]? = some '/' then
    .again (k + lineCommentLength (src.drop k))
  else if src[k]? = some '/' ∧ src[k + 1]? = some '*' then
    .again (k + 2 + blockCommentLength (src.drop (k + 2)))
  else .done k

/-- The index of what comes after white space and comments. -/
def skipTrivia (src : List Char) (k : Nat) : Nat :=
  (loop (triviaTurn src) (src.length + 1) k).getD k

/-- Whether a dot is in front of an index, with white space between. -/
def prevIsDot (src : List Char) (k : Nat) : Bool :=
  ((src.take k).reverse.dropWhile isWhitespace).head? = some '.'

/-! ## Types -/

/-- Past the quote that closes a string type; one more than there is where
none does. -/
def typeStringLength (quote : Char) : List Char → Nat
  | '\\' :: _ :: rest => 2 + typeStringLength quote rest
  | ['\\'] => 3
  | c :: rest => if c = quote then 1 else 1 + typeStringLength quote rest
  | [] => 1

/-- Past the bracket that closes a list of type arguments. -/
def angleLength (depth : Int32) : List Char → Option Nat
  | [] => none
  | '<' :: rest => (angleLength (depth + 1) rest).map (1 + ·)
  | '>' :: rest => if depth - 1 = 0 then some 1 else (angleLength (depth - 1) rest).map (1 + ·)
  | c :: rest =>
    if c = ';' ∨ c = '\x7b' ∨ c = '\x7d' ∨ c = '(' ∨ c = ')' then none
    else (angleLength depth rest).map (1 + ·)

/-- Balance the angles from an index on. -/
def scanAngleBalancedFrom (src : List Char) (k : Nat) : Option Nat :=
  (angleLength 0 (src.drop k)).map (k + ·)

/-- A word of a name, and the dot behind it. -/
def nameTurn (src : List Char) (k : Nat) : Turn Nat (Option Nat) :=
  let stop := wordEnd src k
  if stop = k then .done none
  else
    let dot := skipSpace src stop
    if src[dot]? = some '.' then .again (skipSpace src (dot + 1)) else .done (some stop)

/-- The end of a name with dots in it. -/
def qualifiedEnd (src : List Char) (k : Nat) : Option Nat :=
  (loop (nameTurn src) (src.length + 1) k).getD none

def suffixTurn (src : List Char) (k : Nat) : Turn Nat Nat :=
  let j := skipSpace src k
  if src[j]? = some '[' ∧ src[j + 1]? = some ']' then .again (j + 2) else .done k

/-- Past the array suffixes. -/
def arraySuffixes (src : List Char) (k : Nat) : Nat :=
  (loop (suffixTurn src) (src.length + 1) k).getD k

/-- The end of a name with type arguments, if there are any. -/
def namedTypeEnd (src : List Char) (k : Nat) : Option Nat := do
  let stop ← qualifiedEnd src k
  let j := skipSpace src stop
  if src[j]? = some '<' then scanAngleBalancedFrom src j else some stop

/-- The end of a string, a number or a name, without array suffixes. -/
def typeAtomEnd (src : List Char) (k : Nat) : Option Nat :=
  match src[k]? with
  | none => none
  | some c =>
    if c = '\'' ∨ c = '"' then some (k + 1 + typeStringLength c (src.drop (k + 1)))
    else if c.isDigit then some (skipWhile (fun c => c.isAlphanum || c = '.') src k)
    else if isWordStart c then namedTypeEnd src k
    else none

def scanTypePrimary (src : List Char) (k : Nat) : Option Nat :=
  (typeAtomEnd src (skipSpace src k)).map (arraySuffixes src)

/-- A primary, and the `|` or `&` behind it. -/
def typeTurn (src : List Char) (k : Nat) : Turn Nat (Option Nat) :=
  match scanTypePrimary src k with
  | none => .done none
  | some stop =>
    let j := skipSpace src stop
    if src[j]? = some '|' ∨ src[j]? = some '&' then .again (skipSpace src (j + 1))
    else .done (some stop)

/-- The end of primaries with `|` or `&` between them. -/
def scanSimpleType (src : List Char) (k : Nat) : Option Nat :=
  (loop (typeTurn src) (src.length + 1) k).getD none

/-! ## Lookahead -/

/-- Whether a name and then `=` or `<` follow. -/
def looksLikeTypeAlias (src : List Char) (k : Nat) : Bool :=
  let start := skipSpace src k
  let stop := wordEnd src start
  stop ≠ start && (src[skipSpace src stop]? = some '=' || src[skipSpace src stop]? = some '<')

/-- Whether a name and then a brace, `<` or `extends` follow. -/
def looksLikeInterfaceDecl (src : List Char) (k : Nat) : Bool :=
  let start := skipSpace src k
  let stop := wordEnd src start
  let next := skipSpace src stop
  stop ≠ start &&
    match src[next]? with
    | some c => c = '\x7b' || c = '<' ||
        (c.isAlpha && slice src next (wordEnd src next) = "extends")
    | none => false

/-- Whether an annotation can end at an index. -/
def isAnnotationTerminator (src : List Char) (stop : Nat) : Bool :=
  let k := skipTrivia src stop
  match src[k]? with
  | none => true
  | some c => c = ',' || c = ')' || c = ';' || c = '=' || c = '\x7b' ||
      (c.isAlpha && (slice src k (wordEnd src k) = "of" || slice src k (wordEnd src k) = "in"))

/-- The end of an interface: where its braces balance. -/
def interfaceLength (depth : Nat) : List Char → Nat
  | [] => 0
  | '\x7b' :: rest => 1 + interfaceLength (depth + 1) rest
  | '\x7d' :: rest => if depth - 1 = 0 then 1 else 1 + interfaceLength (depth - 1) rest
  | _ :: rest => 1 + interfaceLength depth rest

/-- The end of a type alias: a semicolon or the end of a line, outside of
brackets. -/
def aliasLength (depth : Int32) : List Char → Nat
  | [] => 0
  | c :: rest =>
    if c = '\x7b' ∨ c = '(' ∨ c = '[' ∨ c = '<' then 1 + aliasLength (depth + 1) rest
    else if c = '\x7d' ∨ c = ')' ∨ c = ']' ∨ c = '>' then 1 + aliasLength (depth - 1) rest
    else if c = ';' ∧ depth ≤ 0 then 1
    else if c = '\n' ∧ depth ≤ 0 then 0
    else 1 + aliasLength depth rest

/-! ## The scan -/

namespace Stripper

variable (s : Stripper)

def len : Nat := s.src.length

def peek (n : Nat) : Option Char := s.src[s.i + n]?

/-- The innermost brace is an object. -/
def inObject : Bool := s.braces.head? = some true

/-- Overwrite a character with a blank; the ends of lines stay. -/
def blankChar (c : Char) : Char := if c ≠ '\n' ∧ c ≠ '\r' then ' ' else c

/-- Overwrite the characters from one index to another. -/
def blank (start stop : Nat) : Except Halt Stripper :=
  if start < stop ∧ s.out.length < stop then .error .panic
  else
    .ok { s with
      out := s.out.mapIdx fun k c => if start ≤ k ∧ k < stop then blankChar c else c }

/-- The line and the column of an offset, from 1. -/
def position (l : List Char) : Nat × Nat :=
  l.foldl (fun p c => if c = '\n' then (p.1 + 1, 1) else (p.1, p.2 + 1)) (1, 1)

def errorAt (offset : Nat) (message : String) : Halt :=
  let p := position (s.src.take offset)
  .error ⟨message, p.1, p.2⟩

/-- Go on at an index, after a token. -/
def goOn (i : Nat) (prev : Prev) : Stripper := { s with i, prev }

def skipRegex : Stripper :=
  let stop := s.i + 1 + regexLength false (s.src.drop (s.i + 1))
  s.goOn (skipWhile Char.isAlpha s.src stop) .value

def skipString (quote : Char) : Stripper :=
  s.goOn (s.i + 1 + stringLength quote (s.src.drop (s.i + 1))) .value

def skipTemplate : Stripper :=
  s.goOn (templateEnd s.src (s.i + 1)) .value

def stripInterface (start : Nat) : Except Halt Stripper :=
  let brace := skipWhile (· ≠ '\x7b') s.src s.i
  let stop := if s.len ≤ brace then brace else brace + interfaceLength 0 (s.src.drop brace)
  ({ s with i := stop } : Stripper).blank start stop

def stripTypeAlias (start : Nat) : Except Halt Stripper :=
  let stop := s.i + aliasLength 0 (s.src.drop s.i)
  ({ s with i := stop } : Stripper).blank start stop

/-- Drop `as` and the type behind it, if it is one. -/
def stripAs (start : Nat) : Except Halt Stripper :=
  match scanSimpleType s.src (skipTrivia s.src s.i) with
  | some stop => do
    let s ← s.blank start stop
    .ok { s with i := stop }
  | none => .ok { s with prev := .value }

/-- Drop the type parameters of a function. -/
def maybeStripFunctionGenerics : Except Halt Stripper :=
  let name := skipTrivia s.src s.i
  let stop := if s.src[name]?.any isWordStart then wordEnd s.src name else name
  let open_ := skipTrivia s.src stop
  if s.src[open_]? = some '<' then
    match scanAngleBalancedFrom s.src open_ with
    | some stop => do
      let s ← s.blank open_ stop
      .ok (s.goOn stop .value)
    | none => .ok s
  else .ok s

/-- The keywords that an expression follows. -/
def expressionKeywords : List String :=
  ["return", "typeof", "instanceof", "in", "of", "new", "delete", "void", "yield", "await", "do",
    "else"]

/-- A word that is no keyword here. At the start of a statement it may be a
label. -/
def plainWord (atStart : Bool) : Stripper :=
  let label := atStart && !s.inObject && s.src[skipTrivia s.src s.i]? = some ':'
  { s with labelColon := s.labelColon || label, prev := .value }

def handleWord : Except Halt Stripper :=
  let start := s.i
  let atStart : Bool := s.prev = .start
  let prev := s.prev
  let stop := wordEnd s.src start
  let word := slice s.src start stop
  let s := { s with i := stop }
  if prevIsDot s.src start then .ok (s.plainWord atStart)
  else if word ∈ ["enum", "namespace", "declare", "class"] then
    .error (s.errorAt start ("'" ++ word ++ "' is not supported in flows"))
  else if word = "import" then
    .error (s.errorAt start
      "import is not supported in flows (the host API is the global 'ctx')")
  else if word = "interface" ∧ looksLikeInterfaceDecl s.src stop then do
    let s ← s.stripInterface start
    .ok { s with prev := .start }
  else if word = "type" ∧ looksLikeTypeAlias s.src stop then do
    let s ← s.stripTypeAlias start
    .ok { s with prev := .start }
  else if word = "export" then do
    let s ← s.blank start stop
    .ok { s with prev := .start }
  else if word = "as" ∧ prev = .value then do
    let s ← s.stripAs start
    .ok { s with prev := .value }
  else if word = "function" then
    ({ s with prev := .keywordExpr } : Stripper).maybeStripFunctionGenerics
  else if word = "case" ∧ s.inObject = false then
    .ok { s with prev := .keywordExpr, labelColon := true }
  else if word = "default" ∧ s.inObject = false ∧
      s.src[skipTrivia s.src stop]? = some ':' then
    .ok { s with prev := .value, labelColon := true }
  else if word ∈ expressionKeywords then .ok { s with prev := .keywordExpr }
  else .ok (s.plainWord atStart)

/-- A `<` behind a value: less than, and not type arguments of a call. -/
def handleLt : Except Halt Stripper :=
  let call := (scanAngleBalancedFrom s.src s.i).any fun stop =>
    s.src[skipTrivia s.src stop]? = some '(' || s.src[skipTrivia s.src stop]? = some '\x60'
  if call then
    .error (s.errorAt s.i ("call-site generic type arguments are not supported in flows " ++
      "(drop the `<...>`; type inference does not need it at runtime)"))
  else .ok (s.goOn (s.i + 1) .op)

def handleQuestion : Except Halt Stripper :=
  if s.peek 1 = some '.' ∨ s.peek 1 = some '?' then .ok (s.goOn (s.i + 2) .op)
  else if s.src[skipSpace s.src (s.i + 1)]? = some ':' then do
    -- the colon of an optional parameter is an annotation
    let next ← s.blank s.i (s.i + 1)
    .ok (next.goOn (s.i + 1) .op)
  else .ok { s.goOn (s.i + 1) .op with ternary := s.ternary + 1 }

/-- A colon of a conditional, of an object, of a label, or of a type. -/
def handleColon : Except Halt Stripper :=
  if 0 < s.ternary then .ok { s.goOn (s.i + 1) .op with ternary := s.ternary - 1 }
  else if s.inObject then .ok (s.goOn (s.i + 1) .op)
  else if s.labelColon then .ok { s.goOn (s.i + 1) .start with labelColon := false }
  else
    let start := skipTrivia s.src (s.i + 1)
    match scanSimpleType s.src start with
    | some stop =>
      if isAnnotationTerminator s.src stop then do
        let next ← s.blank s.i stop
        .ok (next.goOn stop .value)
      else .ok (s.goOn start .op)
    | none => .ok (s.goOn start .op)

/-- The character at the index, and what is done at it. -/
def step (c : Char) : Except Halt Stripper :=
  if isWhitespace c then .ok { s with i := s.i + 1 }
  else if c = '/' ∧ s.peek 1 = some '/' then
    .ok { s with i := s.i + lineCommentLength (s.src.drop s.i) }
  else if c = '/' ∧ s.peek 1 = some '*' then
    .ok { s with i := s.i + 2 + blockCommentLength (s.src.drop (s.i + 2)) }
  else if c = '/' ∧ s.prev ≠ .value then .ok s.skipRegex
  else if c = '\'' ∨ c = '"' then .ok (s.skipString c)
  else if c = '\x60' then .ok s.skipTemplate
  else if c = '\x7b' then
    let isObject : Bool := s.prev = .op ∨ s.prev = .keywordExpr
    .ok { s.goOn (s.i + 1) .op with braces := isObject :: s.braces }
  else if c = '\x7d' then
    .ok { s.goOn (s.i + 1) .value with braces := s.braces.tail, ternary := 0 }
  else if c = ';' then .ok { s.goOn (s.i + 1) .start with ternary := 0, labelColon := false }
  else if c = '?' then s.handleQuestion
  else if c = ':' then s.handleColon
  else if isWordStart c then s.handleWord
  else if c.isDigit then
    .ok (s.goOn (skipWhile (fun c => c.isAlphanum || c = '.' || c = '_') s.src s.i) .value)
  else if c = ')' ∨ c = ']' then .ok (s.goOn (s.i + 1) .value)
  else if c = '(' ∨ c = '[' ∨ c = ',' then .ok (s.goOn (s.i + 1) .op)
  else if c = '@' then .error (s.errorAt s.i "decorators are not supported in flows")
  else if c = '=' ∧ s.peek 1 = some '>' then .ok (s.goOn (s.i + 2) .arrow)
  else if c = '<' ∧ s.prev = .value then s.handleLt
  else .ok (s.goOn (s.i + 1) .op)

/-- A turn of the scan: the character at the index, until there is none. -/
def turn : Turn Stripper (Except Halt Stripper) :=
  match s.src[s.i]? with
  | none => .done (.ok s)
  | some c =>
    match s.step c with
    | .ok next => .again next
    | .error h => .done (.error h)

def init (src : List Char) : Stripper where
  src := src
  out := src
  i := 0
  prev := .start
  braces := []
  ternary := 0
  labelColon := false

end Stripper

/-- Strip the types of a source, within a number of turns. -/
def stripTypes (turns : Nat) (src : List Char) : Option (Except Halt (List Char)) :=
  (loop Stripper.turn turns (Stripper.init src)).map fun r => r.map Stripper.out

end Strip

end Epiphany
