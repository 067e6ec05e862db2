import Epiphany.Calc.MemoReads
import Epiphany.Common.Answers
import Epiphany.Common.Sections
import Epiphany.Core.ByName
/-!
# Explain — the walk that says where a value comes from

A trace holds the value of a cell, what produced it, and the traces of the
cells it was made from, to a depth. The walk is a task like an evaluation:
it asks the same engine for values, and where a rule fires it goes through
the formula once more, by the branches that the evaluation takes.
-/

namespace Epiphany

/-- How deep a trace goes. -/
inductive ExplainDepth where
  /-- The cell and one level of inputs. -/
  | immediate
  | full
  | levels (n : Nat)
deriving DecidableEq

/-- A bound on the depth of a full trace. -/
def fullDepthCap : Nat := 32

/-- The levels of a depth: a node lists its inputs while more than one is
left. -/
def ExplainDepth.remaining : ExplainDepth → Nat
  | .immediate => 2
  | .full => fullDepthCap
  | .levels n => min (n + 1) (2 ^ 32 - 1)

/-- What produced a value: a stored leaf, the rule at an index, or a
consolidation. -/
inductive TraceKind where
  | stored
  | rule (rule : Nat)
  | consolidation (contributions : Nat)
deriving DecidableEq

/-- A node of an explanation. -/
structure CellTrace where
  cube : String
  /-- The coordinate, as member names. -/
  coord : List String
  value : Fixed
  kind : TraceKind
  /-- The cells consulted, none at the depth limit. -/
  inputs : List CellTrace
  inputsTruncated : Bool

namespace Calc

open Demand

/-- The most inputs that one consolidation lists. -/
def maxExplainInputs : Nat := 64

/-- The first rule whose area has a coordinate, with its index. -/
def CompiledModel.firing (cm : CompiledModel) (cube : Cube) (coord : Coord) :
    Option (CompiledRule × Nat) :=
  cm.rules.zipIdx.find? fun x => x.1.area.matches cube coord

/-! ## The cells of a formula -/

mutual

/-- Every cell a condition refers to, in source order. -/
def conditionCells : CCond → List CCell
  | .and a b => conditionCells a ++ conditionCells b
  | .or a b => conditionCells a ++ conditionCells b
  | .not c => conditionCells c
  | .compare left _ right => exprCells left ++ exprCells right

/-- Every cell an expression refers to, in all branches. -/
def exprCells : CExpr → List CCell
  | .cell c => [c]
  | .neg x => exprCells x
  | .bin _ left right => exprCells left ++ exprCells right
  | .ifThen cond then_ => conditionCells cond ++ exprCells then_
  | .ifElse cond then_ otherwise => conditionCells cond ++ exprCells then_ ++ exprCells otherwise
  | .num _ | .attrNum _ _ | .undef => []

end

/-- The leaves under a coordinate, per dimension. -/
def contributingLeafDims (cube : Cube) (coord : Coord) : Except ModelError (List (List Nat)) :=
  coord.zipIdx.mapM fun x => do
    let weights ← (cube.dimension x.2).leafWeights x.1
    .ok ((weights.map Prod.fst).insertionSort (· ≤ ·))

/-- The coordinates of a walk, the last dimension fastest, until it has come
round. -/
def coordWalk (perDim : List (List Nat)) : List Coord :=
  if perDim.any List.isEmpty then []
  else
    (Sections.readings (perDim.map List.length) (perDim.map List.length).prod
      (List.replicate perDim.length 0)).map (Sections.row perDim)

namespace CalcEngine

variable (e : CalcEngine)

/-! ## The walk -/

/-- The cells that a formula consulted: those of the conditions it came to,
and of the branches taken. -/
def consultedCells (ordinal : Nat) (target : Coord) : CExpr → Eval (List CCell)
  | .cell c => pure [c]
  | .neg x => consultedCells ordinal target x
  | .bin _ left right => do
    let a ← consultedCells ordinal target left
    let b ← consultedCells ordinal target right
    pure (a ++ b)
  | .ifThen cond then_ => do
    if ← e.evalCond ordinal target cond then
      let cells ← consultedCells ordinal target then_
      pure (conditionCells cond ++ cells)
    else pure (conditionCells cond)
  | .ifElse cond then_ otherwise => do
    if ← e.evalCond ordinal target cond then
      let cells ← consultedCells ordinal target then_
      pure (conditionCells cond ++ cells)
    else
      let cells ← consultedCells ordinal target otherwise
      pure (conditionCells cond ++ cells)
  | .num _ | .attrNum _ _ | .undef => pure []

/-- The cell that a reference addresses from a target. -/
def cellAt (target : Coord) (cell : CCell) : Cell := ⟨cell.cube, address cell target⟩

/-- The traces of the leaves that are not zero, up to the cap. -/
def contributions (explain : Cell → Eval CellTrace) (ordinal : Nat) :
    List Coord → List CellTrace → Eval (List CellTrace × Bool)
  | [], inputs => pure (inputs, false)
  | leaf :: rest, inputs => do
    let v ← cellValue ordinal leaf
    if v = Fixed.zero then contributions explain ordinal rest inputs
    else if inputs.length = maxExplainInputs then pure (inputs, true)
    else
      let trace ← explain ⟨ordinal, leaf⟩
      contributions explain ordinal rest (inputs ++ [trace])

/-- The trace of one node; its inputs by `below`, if it lists them. -/
def explainCell (below : Option (Cell → Eval CellTrace)) (k : Cell) : Eval CellTrace :=
  match e.registry.entry k.ordinal with
  | none => fail (.unknownCube k.ordinal)
  | some x => do
    let value ← cellValue k.ordinal k.coord
    let names := Cube.memberNames x.cube.dimensions k.coord
    match x.compiled.bind fun cm => cm.firing x.cube k.coord with
    | some (rule, index) =>
      let inputs ← match below with
        | none => pure []
        | some explain => do
          let cells ← e.consultedCells k.ordinal k.coord rule.expr
          cells.mapM fun cell => explain (cellAt k.coord cell)
      pure ⟨x.cube.name, names, value, .rule index, inputs, false⟩
    | none =>
      if allLeaf x.cube k.coord then pure ⟨x.cube.name, names, value, .stored, [], false⟩
      else
        let (inputs, truncated) ← match below with
          | none => pure ([], false)
          | some explain => do
            let perDim ← liftModel (contributingLeafDims x.cube k.coord)
            contributions explain k.ordinal (coordWalk perDim) []
        pure ⟨x.cube.name, names, value, .consolidation inputs.length, inputs, truncated⟩

/-- The trace of a cell, by the levels that are left. -/
def explainNode : Nat → Cell → Eval CellTrace
  | 0 => e.explainCell none
  | 1 => e.explainCell none
  | remaining + 2 => e.explainCell (some (explainNode (remaining + 1)))

/-- A value asked for over the memo. -/
def answer (k : Cell) (memo : CalcMemo) : Except CalcError Fixed × CalcMemo :=
  e.value memo k.ordinal k.coord

end CalcEngine

/-- Explain a value, under an overlay and a mask. -/
def explainWith (registry : EvalRegistry) (ordinal : Nat) (coord : Coord) (depth : ExplainDepth)
    (overlay : Option SandboxOverlay) (mask : Option ElementMask) : Except CalcError CellTrace :=
  let engine : CalcEngine := ⟨registry, overlay, mask, ordinal⟩
  ((engine.explainNode depth.remaining ⟨ordinal, coord⟩).play engine.answer CalcMemo.new).1

def explain (registry : EvalRegistry) (ordinal : Nat) (coord : Coord) (depth : ExplainDepth) :
    Except CalcError CellTrace :=
  explainWith registry ordinal coord depth none none

end Calc

end Epiphany
