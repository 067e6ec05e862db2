import Epiphany.Common.Preorder
import Epiphany.Core.Decimal
import Epiphany.Core.Wellformed
import Epiphany.Mdx.Syntax
/-!
# MDX evaluation — a set expression to the members of a dimension

A set expression is evaluated over one dimension to a list of element
indices. What it names may be missing, and comparisons may mix texts and
numbers: these are errors, and so is a hierarchy that is too deep.
-/

namespace Epiphany

namespace Mdx

inductive EvalError where
  | unknownMember (dimension member : String)
  | unknownAttribute (dimension attr : String)
  | dimensionMismatch (expected found : String)
  | typeMismatch (detail : String)
  | tupleSetNotAllowed
  | tooDeep (dimension : String) (limit : Nat)
  | core (error : ModelError)

/-- How deep a traversal follows a hierarchy. -/
def maxDescendantsDepth : Nat := 4096

/-- Drop later duplicates. -/
def dedup (values : List Nat) : List Nat := firstsBy id [] values

variable (d : Dimension)

/-! ## References -/

/-- A path of two segments is to start with the dimension, and longer ones
are not supported. -/
def checkDimensionQualifier (r : MemberRef) : Except EvalError Unit :=
  if 2 < r.path.length then
    .error (.dimensionMismatch d.name (".".intercalate r.path.dropLast))
  else
    match r.path with
    | [first, _] =>
      if first ≠ d.name then .error (.dimensionMismatch d.name first) else .ok ()
    | _ => .ok ()

def resolveMember (r : MemberRef) : Except EvalError Nat := do
  checkDimensionQualifier d r
  okOr (d.resolve r.name) (.unknownMember d.name r.name)

/-- Check that `.Members` is of the dimension. -/
def dimensionRef (r : MemberRef) : Except EvalError Unit := do
  checkDimensionQualifier d r
  if r.name ≠ d.name then .error (.dimensionMismatch d.name r.name) else .ok ()

/-! ## The hierarchy -/

def childrenOf (parent : Nat) : Except EvalError (List Nat) := do
  let children ← (d.childrenOf parent).mapError .core
  .ok (dedup children)

/-- One pop of the traversal: seen before, too deep, or taken and its children
pushed. The fuel is for every edge and the start. -/
def descendantsLoop : Nat → List (Nat × Nat) → List Nat → Except EvalError (List Nat)
  | 0, _, _ => .ok []
  | _ + 1, [], _ => .ok []
  | n + 1, (node, depth) :: stack, seen =>
    if node ∈ seen then descendantsLoop n stack seen
    else if maxDescendantsDepth < depth then .error (.tooDeep d.name maxDescendantsDepth)
    else do
      let children ← (d.childrenOf node).mapError .core
      let out ← descendantsLoop n (children.map (fun child => (child, depth + 1)) ++ stack)
        (node :: seen)
      .ok (node :: out)

/-- A member and what is below it. -/
def descendantsOf (root : Nat) : Except EvalError (List Nat) :=
  descendantsLoop d (d.edgeCount + 1) [(root, 0)] []

/-! ## Sorting -/

/-- What a member is sorted by. -/
inductive SortKey where
  | missing
  | num (value : Fixed)
  | text (value : String)
deriving DecidableEq

/-- Missing before numbers before texts. -/
def SortKey.le : SortKey → SortKey → Bool
  | .missing, _ => true
  | _, .missing => false
  | .num a, .num b => a.toScaled ≤ b.toScaled
  | .num _, .text _ => true
  | .text _, .num _ => false
  | .text a, .text b => a ≤ b

def sortKey (element : Nat) (attr : String) : SortKey :=
  match d.attributeOf element attr with
  | some (.text s) => .text s
  | some (.numeric v) => .num v
  | none => .missing

def OrderDir.ascending : OrderDir → Bool
  | .asc | .bAsc => true
  | .desc | .bDesc => false

/-- An item to sort, with its position. -/
structure Keyed where
  key : SortKey
  position : Nat
  element : Nat

/-- By key in the given direction, and by position where keys are equal. -/
def Keyed.NotAfter (ascending : Bool) (a b : Keyed) : Prop :=
  if a.key = b.key then a.position ≤ b.position
  else if ascending then a.key.le b.key = true else b.key.le a.key = true

instance (ascending : Bool) : DecidableRel (Keyed.NotAfter ascending) := fun a b =>
  inferInstanceAs (Decidable (if a.key = b.key then a.position ≤ b.position
    else if ascending then a.key.le b.key = true else b.key.le a.key = true))

def orderSet (items : List Nat) (attr : String) (dir : OrderDir) :
    Except EvalError (List Nat) :=
  match d.attributeIndex attr with
  | none => .error (.unknownAttribute d.name attr)
  | some _ =>
    let keyed := items.zipIdx.map fun x => (⟨sortKey d x.1 attr, x.2, x.1⟩ : Keyed)
    .ok ((keyed.insertionSort (Keyed.NotAfter dir.ascending)).map Keyed.element)

/-! ## Predicates -/

/-- The value of an operand. -/
inductive Val where
  | missing
  | text (s : String)
  | num (v : Fixed)

inductive Truth where
  | yes
  | no
  | unknown
deriving DecidableEq

namespace Truth

def ofBool : Bool → Truth
  | true => .yes
  | false => .no

def not : Truth → Truth
  | .yes => .no
  | .no => .yes
  | .unknown => .unknown

def and : Truth → Truth → Truth
  | .no, _ | _, .no => .no
  | .yes, .yes => .yes
  | _, _ => .unknown

def or : Truth → Truth → Truth
  | .yes, _ | _, .yes => .yes
  | .no, .no => .no
  | _, _ => .unknown

end Truth

def applyOp {α : Type} [LT α] [DecidableEq α] [DecidableLT α] (a b : α) : CmpOp → Bool
  | .eq => a = b
  | .ne => a ≠ b
  | .lt => a < b
  | .le => ¬ b < a
  | .gt => b < a
  | .ge => ¬ a < b

/-- Compare two values. What touches a missing one is unknown. -/
def compareVals (l r : Val) (op : CmpOp) : Except EvalError Truth :=
  match l, r with
  | .missing, _ | _, .missing => .ok .unknown
  | .text a, .text b => .ok (.ofBool (applyOp a b op))
  | .num a, .num b => .ok (.ofBool (applyOp a.toScaled b.toScaled op))
  | _, _ => .error (.typeMismatch "cannot compare a text value with a numeric value")

def evalOperand (element : Nat) : Operand → Except EvalError Val
  | .property attr =>
    match d.attributeIndex attr with
    | none => .error (.unknownAttribute d.name attr)
    | some _ =>
      match d.attributeOf element attr with
      | some (.text s) => .ok (.text s)
      | some (.numeric v) => .ok (.num v)
      | none => .ok .missing
  | .str text => .ok (.text text)
  | .number text => ((Fixed.fromStr text).mapError .core).map .num

/-- The truth of a predicate. Both sides are evaluated, so that an error does
not depend on the other side. -/
def evalPredicate (element : Nat) : Predicate → Except EvalError Truth
  | .and left right => do
    let a ← evalPredicate element left
    let b ← evalPredicate element right
    .ok (a.and b)
  | .or left right => do
    let a ← evalPredicate element left
    let b ← evalPredicate element right
    .ok (a.or b)
  | .not p => do
    let a ← evalPredicate element p
    .ok a.not
  | .compare left op right => do
    let l ← evalOperand d element left
    let r ← evalOperand d element right
    compareVals l r op

/-- Keep the members of which a predicate is true. -/
def filterSet (p : Predicate) : List Nat → Except EvalError (List Nat)
  | [] => .ok []
  | element :: rest => do
    let truth ← evalPredicate d element p
    let kept ← filterSet p rest
    .ok (if truth = .yes then element :: kept else kept)

/-! ## Sets -/

mutual

def evalSet : SetExpr → Except EvalError (List Nat)
  | .set items => do
    let lists ← evalSets items
    .ok (dedup lists.flatten)
  | .member r => do
    let element ← resolveMember d r
    .ok [element]
  | .members r => do
    dimensionRef d r
    .ok (List.range d.len)
  | .children r => do
    let parent ← resolveMember d r
    childrenOf d parent
  | .descendants r => do
    let root ← resolveMember d r
    descendantsOf d root
  | .filter set predicate => do
    let base ← evalSet set
    filterSet d predicate base
  | .order set attr dir => do
    let base ← evalSet set
    orderSet d base attr dir
  | .crossjoin _ _ => .error .tupleSetNotAllowed

def evalSets : List SetExpr → Except EvalError (List (List Nat))
  | [] => .ok []
  | item :: rest => do
    let first ← evalSet item
    let others ← evalSets rest
    .ok (first :: others)

end

/-- Evaluate a set expression. -/
def evaluate (e : SetExpr) : Except EvalError (List Nat) := (evalSet d e).map dedup

end Mdx

end Epiphany
