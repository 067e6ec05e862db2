import Mathlib
/-!
# MDX — set expressions over one dimension
-/

namespace Epiphany

namespace Mdx

/-- A dotted path: the member, and before it what it is looked up in. -/
structure MemberRef where
  path : List String
deriving DecidableEq

/-- The member name; the last segment. -/
def MemberRef.name (r : MemberRef) : String := r.path.getLast?.getD ""

/-- The direction of a sort. Sets are flat, and the directions that break the
hierarchy sort like those that do not. -/
inductive OrderDir where
  | asc
  | desc
  | bAsc
  | bDesc
deriving DecidableEq

inductive CmpOp where
  | eq
  | ne
  | lt
  | le
  | gt
  | ge
deriving DecidableEq

/-- One side of a comparison. -/
inductive Operand where
  /-- The value of an attribute. -/
  | property (attr : String)
  | str (text : String)
  /-- A number, as it was written. -/
  | number (text : String)
deriving DecidableEq

/-- A condition on the attributes of a member. -/
inductive Predicate where
  | and (left right : Predicate)
  | or (left right : Predicate)
  | not (p : Predicate)
  | compare (left : Operand) (op : CmpOp) (right : Operand)
deriving DecidableEq

inductive SetExpr where
  | set (items : List SetExpr)
  | member (ref : MemberRef)
  | members (ref : MemberRef)
  | children (ref : MemberRef)
  | descendants (ref : MemberRef)
  | filter (set : SetExpr) (predicate : Predicate)
  | order (set : SetExpr) (attr : String) (dir : OrderDir)
  | crossjoin (left right : SetExpr)

/-- The axis that a set is on. The ordinals 0 and 1 are columns and rows. -/
inductive AxisName where
  | columns
  | rows
  | ordinal (n : UInt32)
deriving DecidableEq

/-- A `SELECT` of sets on axes from a cube, at the members of a slicer. -/
structure Query where
  axes : List (AxisName × SetExpr)
  cube : String
  slicer : List MemberRef

end Mdx

end Epiphany
