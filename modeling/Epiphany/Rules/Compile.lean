import Epiphany.Core.Decimal
import Epiphany.Rules.Syntax
/-!
# Compiling rules — names to positions

A document is compiled against the cubes of a registry: every dimension,
member, attribute and cube that it names is replaced by its position. What the
language can say and the evaluator cannot do is refused.
-/

namespace Epiphany

namespace Rules

open Calc (ArithOp CmpOp AddrSlot CCell CExpr CCond DimPredicate CompiledArea CompiledRule
  CompiledModel)

/-- The cubes that rules may refer to. -/
structure CubeRegistry where
  ordinal : String → Option Nat
  cube : Nat → Option Cube

/-- Why a document does not compile. -/
inductive CompileError where
  | unknownCube (name : String)
  | unknownDimension (cube dimension : String)
  | unknownMember (dimension member : String)
  | unknownAttribute (dimension attr : String)
  | invalidNumber (text : String)
  | unsupported (feature : String)
deriving DecidableEq

def CompileError.toString : CompileError → String
  | unknownCube name => "unknown cube '" ++ name ++ "'"
  | unknownDimension cube dimension =>
    "unknown dimension '" ++ dimension ++ "' in cube '" ++ cube ++ "'"
  | unknownMember dimension member =>
    "unknown element '" ++ member ++ "' in dimension '" ++ dimension ++ "'"
  | unknownAttribute dimension attr =>
    "unknown attribute '" ++ attr ++ "' on dimension '" ++ dimension ++ "'"
  | invalidNumber text => "invalid number '" ++ text ++ "'"
  | unsupported feature => feature ++ " is not supported yet"

def dimPosition (cube : Cube) (name : String) : Option Nat :=
  cube.dimensions.findIdx? fun d => d.name = name

/-- A numeral, as its value. -/
def fixedLiteral (text : String) : Except CompileError Fixed :=
  (Fixed.fromStr text).mapError fun _ => .invalidNumber text

/-! ## Areas -/

/-- One turn of the walk below an element: seen before, or taken with its
children on the stack. -/
def descendantsLoop (edges : List (Nat × Nat × Int)) :
    Nat → List Nat → List Nat → List Nat → List Nat
  | 0, _, _, out => out
  | _ + 1, [], _, out => out
  | n + 1, node :: stack, seen, out =>
    if node ∈ seen then descendantsLoop edges n stack seen out
    else
      let children := (edges.filter fun e => e.1 = node).map fun e => e.2.1
      descendantsLoop edges n (children.reverse ++ stack) (node :: seen) (out ++ [node])

/-- An element and what is below it. The fuel is for every edge and the
start. -/
def descendants (dim : Dimension) (root : Nat) : List Nat :=
  descendantsLoop dim.edges (dim.edgeCount + 1) [root] [] []

def cmpFixed (a b : Fixed) (op : CmpOp) : Bool := Calc.compare a.toScaled b.toScaled op

def cmpText (a b : String) : CmpOp → Bool
  | .eq => a = b
  | .ne => a ≠ b
  | .lt => a < b
  | .le => a ≤ b
  | .gt => a > b
  | .ge => a ≥ b

/-- Whether an attribute's value compares to a literal; one that is missing or
of the other type does not. -/
def attrMatches (op : CmpOp) (value : Literal) (rhs : Option Fixed) :
    Option AttributeValue → Bool
  | some (.text s) =>
    match value with
    | .str v => cmpText s v op
    | .number _ => false
  | some (.numeric f) =>
    match value with
    | .str _ => false
    | .number _ => rhs.any fun r => cmpFixed f r op
  | none => false

/-- The number of a literal, if it is one. -/
def comparand : Literal → Except CompileError (Option Fixed)
  | .number n => (fixedLiteral n).map some
  | .str _ => .ok none

def resolveAttrPredicate (dim : Dimension) (attr : String) (op : CmpOp) (value : Literal) :
    Except CompileError (List Nat) := do
  let _ ← okOr (dim.attributeIndex attr) (.unknownAttribute dim.name attr)
  let rhs ← comparand value
  .ok ((List.range dim.len).filter fun i =>
    attrMatches op value rhs (dim.attributeOf i attr))

def resolveMember (dim : Dimension) (member : String) : Except CompileError Nat :=
  okOr (dim.resolve member) (.unknownMember dim.name member)

/-- The elements of a selector, as they are found. -/
def selectedBy (dim : Dimension) : SelectorKind → Except CompileError (List Nat)
  | .element m => (resolveMember dim m).map fun i => [i]
  | .all => .ok (List.range dim.len)
  | .leaves => .ok ((List.range dim.len).filter fun i => (dim.kindAt i).any fun k => k.isLeaf)
  | .consolidated =>
    .ok ((List.range dim.len).filter fun i => (dim.kindAt i).any fun k => !k.isLeaf)
  | .children parent =>
    (resolveMember dim parent).map fun p =>
      (dim.edges.filter fun e => e.1 = p).map fun e => e.2.1
  | .descendants root => (resolveMember dim root).map fun r => descendants dim r
  | .attrPredicate attr op value => resolveAttrPredicate dim attr op value

/-- The elements of a selector, in order and each once. -/
def resolveSelector (dim : Dimension) (kind : SelectorKind) : Except CompileError (List Nat) :=
  (selectedBy dim kind).map fun set => (set.mergeSort fun a b => decide (a ≤ b)).dedup

/-- One selector of an area: it says what its dimension matches. -/
def constrain (target : Cube) (perDim : List DimPredicate) (sel : DimSelector) :
    Except CompileError (List DimPredicate) := do
  let pos ← okOr (dimPosition target sel.dimension)
    (.unknownDimension target.name sel.dimension)
  let set ← resolveSelector (target.dimension pos) sel.kind
  .ok (perDim.set pos (.oneOf set))

def compileArea (target : Cube) (area : Area) : Except CompileError CompiledArea := do
  let perDim ← area.selectors.foldlM (constrain target) (List.replicate target.rank .any)
  .ok ⟨perDim, area.scope.targetsConsolidated⟩

/-! ## Formulas -/

/-- The names of a call of a dimension and an attribute. -/
def twoStringArgs (func : BuiltinFunc) : List FuncArg → Except CompileError (String × String)
  | [.str a, .str b] => .ok (a, b)
  | _ => .error (.unsupported (func.name ++ "(dimension, attribute) with these arguments"))

def lowerFunc (func : BuiltinFunc) (args : List FuncArg) (target : Cube) :
    Except CompileError CExpr :=
  match func with
  | .undef => .ok .undef
  | .attrNum => do
    let (dimName, attrName) ← twoStringArgs func args
    let pos ← okOr (dimPosition target dimName) (.unknownDimension target.name dimName)
    let attr ← okOr ((target.dimension pos).attributeIndex attrName)
      (.unknownAttribute dimName attrName)
    .ok (.attrNum pos attr)
  | .attr | .isLeaf | .elementName => .error (.unsupported ("the " ++ func.name ++ "() function"))

section

variable (target : Cube) (registry : CubeRegistry) (targetOrdinal : Nat)

/-- The ordinal and the cube of a reference. -/
def referencedCube : Option String → Except CompileError (Nat × Cube)
  | none => .ok (targetOrdinal, target)
  | some name => do
    let ordinal ← okOr (registry.ordinal name) (.unknownCube name)
    let cube ← okOr (registry.cube ordinal) (.unknownCube name)
    .ok (ordinal, cube)

/-- How one dimension of a reference is addressed. Without an override it is the
target's member, which only the rule's own cube has. -/
def lowerSlot (cell : CellRef) (ordinal : Nat) (refCube : Cube) (refDim : Dimension) :
    Except CompileError AddrSlot :=
  match cell.overrides.find? fun o => o.dimension = refDim.name with
  | some o =>
    match o.member with
    | .element m => (resolveMember refDim m).map .pinned
    | .attr _ => .error (.unsupported "a by-attribute member override")
  | none =>
    if ordinal ≠ targetOrdinal then
      .error (.unsupported ("a relative cross-cube reference (address dimension '" ++
        refDim.name ++ "' of cube '" ++ refCube.name ++ "' explicitly)"))
    else
      (okOr (dimPosition target refDim.name)
        (.unknownDimension refCube.name refDim.name)).map .fromTarget

def lowerCell (cell : CellRef) : Except CompileError CCell := do
  if cell.mapping ≠ [] then .error (.unsupported "cross-cube dimension mapping")
  else
    let (ordinal, refCube) ← referencedCube target registry targetOrdinal cell.cube
    -- every override must name a dimension of the referenced cube
    cell.overrides.forM fun o => do
      let _ ← okOr (dimPosition refCube o.dimension) (.unknownDimension refCube.name o.dimension)
      .ok ()
    let addr ← refCube.dimensions.mapM (lowerSlot target targetOrdinal cell ordinal refCube)
    .ok ⟨ordinal, addr⟩

mutual

def lowerExpr : Expr → Except CompileError CExpr
  | .number n => (fixedLiteral n).map .num
  | .str _ => .error (.unsupported "a string-valued rule formula")
  | .cell ref => (lowerCell target registry targetOrdinal ref).map .cell
  | .neg e => (lowerExpr e).map .neg
  | .bin op left right => do
    let l ← lowerExpr left
    let r ← lowerExpr right
    .ok (.bin op l r)
  | .ifThen cond then_ => do
    let c ← lowerCond cond
    let t ← lowerExpr then_
    .ok (.ifThen c t)
  | .ifElse cond then_ otherwise => do
    let c ← lowerCond cond
    let t ← lowerExpr then_
    let o ← lowerExpr otherwise
    .ok (.ifElse c t o)
  | .func func args => lowerFunc func args target

def lowerCond : Condition → Except CompileError CCond
  | .and a b => do
    let a ← lowerCond a
    let b ← lowerCond b
    .ok (.and a b)
  | .or a b => do
    let a ← lowerCond a
    let b ← lowerCond b
    .ok (.or a b)
  | .not c => (lowerCond c).map .not
  | .compare left op right => do
    let l ← lowerExpr left
    let r ← lowerExpr right
    .ok (.compare l op r)

end

def compileRule (rule : Rule) : Except CompileError CompiledRule := do
  let area ← compileArea target rule.area
  let expr ← lowerExpr target registry targetOrdinal rule.formula
  .ok ⟨area, expr⟩

end

/-- A document against its cube, which the registry has. -/
def compile (target : Cube) (registry : CubeRegistry) (doc : RuleDoc) :
    Except CompileError CompiledModel := do
  let targetOrdinal := (registry.ordinal target.name).getD 0
  let rules ← doc.rules.mapM (compileRule target registry targetOrdinal)
  .ok ⟨rules⟩

end Rules

end Epiphany
