import Epiphany.Calc.Compiled
/-!
# Rules — the syntax of a rules document

A document is a list of rules. A rule says which cells it is for, one
selector for each dimension that it constrains, and what their value is.
-/

namespace Epiphany

namespace Rules

open Calc (ArithOp CmpOp)

/-- What a dimension without a selector matches: leaves, unless the marker
says consolidations. -/
inductive Scope where
  | unmarked
  | leaf
  | consolidated
deriving DecidableEq

def Scope.targetsConsolidated : Scope → Bool
  | consolidated => true
  | unmarked | leaf => false

/-- The right side of an attribute predicate; a number as it was written. -/
inductive Literal where
  | str (text : String)
  | number (text : String)
deriving DecidableEq

/-- Which members of a dimension an area has. -/
inductive SelectorKind where
  | element (name : String)
  | attrPredicate (attr : String) (op : CmpOp) (value : Literal)
  | children (name : String)
  | descendants (name : String)
  | leaves
  | consolidated
  | all
deriving DecidableEq

structure DimSelector where
  dimension : String
  kind : SelectorKind
deriving DecidableEq

structure Area where
  scope : Scope
  selectors : List DimSelector
deriving DecidableEq

inductive MemberExpr where
  | element (name : String)
  /-- The element that an attribute's value names. -/
  | attr (name : String)
deriving DecidableEq

structure DimOverride where
  dimension : String
  member : MemberExpr
deriving DecidableEq

/-- A reference to a cell; without a cube, to one of the rule's own cube. -/
structure CellRef where
  cube : Option String
  overrides : List DimOverride
  mapping : List (String × String)
deriving DecidableEq

inductive BuiltinFunc where
  | attr
  | attrNum
  | isLeaf
  | elementName
  | undef
deriving DecidableEq

def BuiltinFunc.name : BuiltinFunc → String
  | attr => "Attr"
  | attrNum => "AttrNum"
  | isLeaf => "IsLeaf"
  | elementName => "ElementName"
  | undef => "Undef"

mutual

/-- A value expression; a conditional has an else branch or none. -/
inductive Expr where
  | number (text : String)
  | str (text : String)
  | cell (ref : CellRef)
  | neg (e : Expr)
  | bin (op : ArithOp) (left right : Expr)
  | ifThen (cond : Condition) (then_ : Expr)
  | ifElse (cond : Condition) (then_ otherwise : Expr)
  | func (func : BuiltinFunc) (args : List FuncArg)

inductive Condition where
  | and (a b : Condition)
  | or (a b : Condition)
  | not (c : Condition)
  | compare (left : Expr) (op : CmpOp) (right : Expr)

inductive FuncArg where
  | str (text : String)
  | expr (e : Expr)

end

structure Rule where
  area : Area
  formula : Expr

/-- A rules document; the first rule that matches a cell has it. -/
structure RuleDoc where
  rules : List Rule

end Rules

end Epiphany
