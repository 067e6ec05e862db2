import Epiphany.Calc.Compiled
import Epiphany.Common.Demand
import Epiphany.Core.ConsolidateFed
import Epiphany.Core.ElementMask
/-!
# Evaluation — the value of a cell under rules, an overlay and a mask

`CalcEngine.compute` is the task of one cell: the mask first, then the
rules, then the overlay and the stored leaf, or the consolidation of the
leaves under it. Every cell it depends on is asked for through the memo.
-/

namespace Epiphany

namespace Calc

open Demand

/-! ## The model set -/

/-- One cube of the model set: its rules, or why they do not compile, and
the fed leaves when its consolidations may be sparse. -/
structure Entry where
  cube : Cube
  wf : cube.WF
  compiled : Option CompiledModel
  compileError : Option String
  fedSet : Option (List Coord)

/-- The model set, by ordinal; there are finitely many cubes. -/
structure EvalRegistry where
  entry : Nat → Option Entry
  size : Nat
  bounded : ∀ o, size ≤ o → entry o = none

theorem single_bounded (x : Entry) (o : Nat) (ho : 1 ≤ o) :
    (if o = 0 then some x else none) = none := by
  rw [if_neg (by omega)]

/-- A model set of one cube. -/
def EvalRegistry.single (x : Entry) : EvalRegistry where
  entry o := if o = 0 then some x else none
  size := 1
  bounded := single_bounded x

/-- A what-if overlay over stored leaves. -/
structure SandboxOverlay where
  leaf : Nat → Coord → Option Fixed
  scopeId : Nat

inductive CalcError where
  | cycle (cube : String) (coord : Coord)
  | divByZero
  | overflow
  | unknownCube (ordinal : Nat)
  | rulesFailed (cube error : String)
  | accessDenied
  | model (e : ModelError)
deriving DecidableEq

/-- A cell of the model set. -/
structure Cell where
  ordinal : Nat
  coord : Coord
deriving DecidableEq

/-- The task of a value that other cells' values go into. -/
abbrev Eval (α : Type) := Task Cell Fixed CalcError α

/-- The memo, partitioned by scope: a base value and a what-if value of one
cell never meet. -/
abbrev CalcMemo := Nat → Memo Cell Fixed

def fail {α : Type} (e : CalcError) : Eval α := .done (.error e)

/-- The model's errors among the evaluation's. -/
def liftModel {α : Type} (r : Except ModelError α) : Eval α := .done (r.mapError .model)

@[simp] theorem liftModel_ok_bind {α β : Type} (a : α) (f : α → Eval β) :
    (liftModel (.ok a) >>= f) = f a := rfl

@[simp] theorem liftModel_error_bind {α β : Type} (err : ModelError) (f : α → Eval β) :
    (liftModel (.error err) >>= f) = fail (.model err) := rfl

/-! ## Arithmetic -/

def toFixed (scaled : Int) : Except CalcError Fixed := okOr (Fixed.tryFrom scaled) .overflow

/-- Exact fixed-point arithmetic; products and quotients round half to
even. -/
def arith (op : ArithOp) (a b : Fixed) : Except CalcError Fixed :=
  match op with
  | .add => toFixed (a.toScaled + b.toScaled)
  | .sub => toFixed (a.toScaled - b.toScaled)
  | .mul => toFixed (divRoundHalfEven (a.toScaled * b.toScaled) scale)
  | .div =>
    if b.toScaled = 0 then .error .divByZero
    else toFixed (divRoundHalfEven (a.toScaled * scale) b.toScaled)

/-! ## The engine -/

/-- A rule evaluator over a model set. -/
structure CalcEngine where
  registry : EvalRegistry
  overlay : Option SandboxOverlay
  mask : Option ElementMask
  maskTarget : Nat

namespace CalcEngine

variable (e : CalcEngine)

/-- The memo partition of the engine. -/
def scopeId : Nat := (e.overlay.map SandboxOverlay.scopeId).getD 0

/-- Ask for a cell. -/
def cellValue (ordinal : Nat) (coord : Coord) : Eval Fixed := Task.request ⟨ordinal, coord⟩

/-- The mask denies a coordinate of its target cube. -/
def denies (ordinal : Nat) (coord : Coord) : Bool :=
  ordinal = e.maskTarget && e.mask.any fun m => m.deniesLeaf coord

/-- The coordinate a reference addresses from a target. -/
def address (cell : CCell) (target : Coord) : Coord :=
  cell.addr.map fun slot =>
    match slot with
    | .pinned idx => idx
    | .fromTarget pos => target.getD pos 0

/-- The numeric attribute of the target's member; a missing or other one
reads as zero. -/
def attrNum (cube : Cube) (dimPos attr : Nat) (target : Coord) : Fixed :=
  let dim := cube.dimension dimPos
  match dim.attributes[attr]? with
  | some a =>
    match dim.attributeOf (target.getD dimPos 0) a.name with
    | some (.numeric f) => f
    | _ => Fixed.zero
  | none => Fixed.zero

mutual

def evalExpr (ordinal : Nat) (target : Coord) : CExpr → Eval Fixed
  | .num f => pure f
  | .undef => pure Fixed.zero
  | .attrNum dimPos attr =>
    match e.registry.entry ordinal with
    | none => fail (.unknownCube ordinal)
    | some entry => pure (attrNum entry.cube dimPos attr target)
  | .cell cell => cellValue cell.cube (address cell target)
  | .neg x => do
    let v ← evalExpr ordinal target x
    .done (toFixed (-v.toScaled))
  | .bin op left right => do
    let a ← evalExpr ordinal target left
    let b ← evalExpr ordinal target right
    .done (arith op a b)
  | .ifThen cond then_ => do
    if ← evalCond ordinal target cond then evalExpr ordinal target then_ else pure Fixed.zero
  | .ifElse cond then_ otherwise => do
    if ← evalCond ordinal target cond then evalExpr ordinal target then_
    else evalExpr ordinal target otherwise

def evalCond (ordinal : Nat) (target : Coord) : CCond → Eval Bool
  | .and a b => do
    if ← evalCond ordinal target a then evalCond ordinal target b else pure false
  | .or a b => do
    if ← evalCond ordinal target a then pure true else evalCond ordinal target b
  | .not c => do
    let v ← evalCond ordinal target c
    pure (!v)
  | .compare left op right => do
    let a ← evalExpr ordinal target left
    let b ← evalExpr ordinal target right
    pure (compare a.toScaled b.toScaled op)

end

/-- Whether every component is an element that holds cells of its own. -/
def allLeaf (cube : Cube) (coord : Coord) : Bool :=
  coord.zipIdx.all fun x => ((cube.dimension x.2).kindAt x.1).any ElementKind.isLeaf

/-- The fed leaves, where a consolidation may be sparse: without overlay
and mask. -/
def sparse (entry : Entry) : Option (List Coord) :=
  if e.overlay.isNone ∧ e.mask.isNone then entry.fedSet else none

/-- The value of a cell that no rule covers. -/
def computeStored (entry : Entry) (ordinal : Nat) (coord : Coord) : Eval Fixed :=
  if allLeaf entry.cube coord then
    match e.overlay.bind fun o => o.leaf ordinal coord with
    | some v => pure v
    | none => liftModel (entry.cube.get coord)
  else
    match e.sparse entry with
    | some fed => Cube.consolidateFed liftModel entry.cube coord fed (cellValue ordinal)
    | none => Cube.consolidateWith liftModel entry.cube coord (cellValue ordinal)

def compute (ordinal : Nat) (coord : Coord) : Eval Fixed :=
  if e.denies ordinal coord then fail .accessDenied
  else
    match e.registry.entry ordinal with
    | none => fail (.unknownCube ordinal)
    | some entry =>
      match entry.compileError with
      | some error => fail (.rulesFailed entry.cube.name error)
      | none =>
        match entry.compiled.bind fun cm => cm.matchingRule entry.cube coord with
        | some rule => e.evalExpr ordinal coord rule.expr
        | none => e.computeStored entry ordinal coord

/-- The engine's tasks, and its report of a cycle. -/
def system : System Cell Fixed CalcError where
  compute k := e.compute k.ordinal k.coord
  cycle k := .cycle (((e.registry.entry k.ordinal).map fun x => x.cube.name).getD "") k.coord

end CalcEngine

end Calc

end Epiphany
