import Epiphany.Core.Cube
/-!
# Compiled rules — areas, formulas, and the rule that fires

A compiled rule set resolves every name to an index. A rule targets an
area, one predicate per dimension of its cube, and the first rule whose
area has a coordinate fires there. A formula reads cells of its own cube
and of others, each component of an address pinned or copied from the
target.
-/

namespace Epiphany

namespace Calc

inductive ArithOp where
  | add | sub | mul | div
deriving DecidableEq

inductive CmpOp where
  | eq | ne | lt | le | gt | ge
deriving DecidableEq

/-- How one dimension of a cell reference is addressed. -/
inductive AddrSlot where
  | pinned (index : Nat)
  | fromTarget (pos : Nat)
deriving DecidableEq

/-- A resolved cell reference. -/
structure CCell where
  cube : Nat
  addr : List AddrSlot
deriving DecidableEq

mutual

/-- A resolved value expression; a conditional has an else branch or none. -/
inductive CExpr where
  | num (value : Fixed)
  | cell (cell : CCell)
  | attrNum (dimPos attr : Nat)
  | undef
  | neg (e : CExpr)
  | bin (op : ArithOp) (left right : CExpr)
  | ifThen (cond : CCond) (then_ : CExpr)
  | ifElse (cond : CCond) (then_ otherwise : CExpr)

/-- A resolved boolean condition. -/
inductive CCond where
  | and (a b : CCond)
  | or (a b : CCond)
  | not (c : CCond)
  | compare (left : CExpr) (op : CmpOp) (right : CExpr)

end

/-- A per-dimension membership predicate. -/
inductive DimPredicate where
  | any
  | oneOf (set : List Nat)
deriving DecidableEq

/-- A resolved area; `consolidated` says what an unconstrained dimension
matches. -/
structure CompiledArea where
  perDim : List DimPredicate
  consolidated : Bool
deriving DecidableEq

structure CompiledRule where
  area : CompiledArea
  expr : CExpr

/-- A compiled rule set, in author order. -/
structure CompiledModel where
  rules : List CompiledRule

/-- Whether a component lies in one dimension of an area. A missing element
matches no unconstrained dimension. -/
def DimPredicate.admits (pred : DimPredicate) (consolidated : Bool) (dim : Dimension)
    (idx : Nat) : Bool :=
  match pred with
  | .any => (dim.kindAt idx).any fun k => k.isLeaf != consolidated
  | .oneOf set => idx ∈ set

/-- Whether a coordinate falls in an area. -/
def CompiledArea.matches (area : CompiledArea) (cube : Cube) (coord : Coord) : Bool :=
  coord.length = area.perDim.length &&
    (coord.zip area.perDim).zipIdx.all fun x =>
      x.1.2.admits area.consolidated (cube.dimension x.2) x.1.1

/-- The first rule whose area has a coordinate. -/
def CompiledModel.matchingRule (cm : CompiledModel) (cube : Cube) (coord : Coord) :
    Option CompiledRule :=
  cm.rules.find? fun r => r.area.matches cube coord

/-! ## Arithmetic -/

/-- Integer division rounded half to even. -/
def divRoundHalfEven (num den : Int) : Int :=
  let q := num.tdiv den
  let r := num.tmod den
  if r = 0 then q
  else
    let twice := r.natAbs * 2
    if twice > den.natAbs ∨ (twice = den.natAbs ∧ q.tmod 2 ≠ 0) then
      -- the quotient truncates toward zero: step it away from zero
      if (num < 0) ≠ (den < 0) then q - 1 else q + 1
    else q

def compare (a b : Int) : CmpOp → Bool
  | .eq => a = b
  | .ne => a ≠ b
  | .lt => a < b
  | .le => a ≤ b
  | .gt => a > b
  | .ge => a ≥ b

end Calc

end Epiphany
