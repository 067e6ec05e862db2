import Epiphany.Common.Bands
import Epiphany.Common.Sections
import Epiphany.Core.ElementMask
/-!
# Views — axes, the value grid, and what a query returns

A view places each dimension of a cube on an axis or in the context. Its
execution resolves the axes to tuples of member indices, drops the members
the mask denies, reads every cell of the grid through a resolver, and drops
blank rows and columns. The cube itself only gives its dimensions; the
cells come from the resolver.
-/

namespace Epiphany

/-! ## The texts of errors -/

def ModelError.toString : ModelError → String
  | .elementNotFound dimension element =>
    "element '" ++ element ++ "' not found in dimension '" ++ dimension ++ "'"
  | .elementIndexOutOfRange dimension index len =>
    "element index " ++ Nat.repr index ++ " out of range for dimension '" ++ dimension ++
      "' (len " ++ Nat.repr len ++ ")"
  | .rankMismatch expected got =>
    "coordinate has " ++ Nat.repr got ++ " components but the cube has " ++ Nat.repr expected ++
      " dimensions"
  | .writeToNonLeaf dimension element =>
    "cannot write to non-leaf element '" ++ element ++ "' in dimension '" ++ dimension ++ "'"
  | .cycleDetected dimension parent child =>
    "adding '" ++ child ++ "' under '" ++ parent ++ "' would create a cycle in dimension '" ++
      dimension ++ "'"
  | .parentNotConsolidated dimension element =>
    "element '" ++ element ++ "' in dimension '" ++ dimension ++
      "' is not consolidated and cannot have children"
  | .overflow => "fixed-point arithmetic overflow"
  | .cellsetTooLarge cells cap =>
    "the query addresses " ++ Nat.repr cells ++ " cells, exceeding the " ++ Nat.repr cap ++
      "-cell limit; reduce the axis member counts"
  | .emptyCube => "a cube must have at least one dimension"
  | .invalidNumber text => "invalid number: '" ++ text ++ "'"
  | .attributeNotFound dimension attr =>
    "attribute '" ++ attr ++ "' is not defined on dimension '" ++ dimension ++ "'"
  | .attributeTypeMismatch dimension attr =>
    "value for attribute '" ++ attr ++ "' on dimension '" ++ dimension ++
      "' does not match its kind"
  | .attributeKindConflict dimension attr =>
    "attribute '" ++ attr ++ "' already exists on dimension '" ++ dimension ++
      "' with a different kind"
  | .aliasConflict dimension aliasText =>
    "alias '" ++ aliasText ++ "' is assigned to more than one element in dimension '" ++
      dimension ++ "'"
  | .cellTypeMismatch dimension element =>
    "cannot write a numeric value to string-typed element '" ++ element ++ "' in dimension '" ++
      dimension ++ "'"
  | .stringCellRequiresStringElement cube =>
    "a string cell in cube '" ++ cube ++ "' must address a string element"
  | .unknownDimension cube dimension =>
    "cube '" ++ cube ++ "' has no dimension '" ++ dimension ++ "'"
  | .duplicateDimension dimension =>
    "dimension '" ++ dimension ++ "' is declared more than once"
  | .elementKindConflict dimension element =>
    "element '" ++ element ++ "' already exists in dimension '" ++ dimension ++
      "' with a different kind"
  | .edgeWeightConflict dimension parent child =>
    "edge '" ++ parent ++ "' -> '" ++ child ++ "' already exists in dimension '" ++ dimension ++
      "' with a different weight"
  | .invalidReorder dimension =>
    "the new order is not an exact permutation of dimension '" ++ dimension ++ "'"
  | .selfParent dimension element =>
    "element '" ++ element ++ "' in dimension '" ++ dimension ++ "' cannot be its own parent"
  | .consolidationHasChildren dimension element =>
    "element '" ++ element ++ "' in dimension '" ++ dimension ++
      "' still has children; detach or delete them first"
  | .duplicateElement dimension element =>
    "element '" ++ element ++ "' already exists in dimension '" ++ dimension ++ "'"

def QueryError.toString : QueryError → String
  | .unknownSubset name => "subset '" ++ name ++ "' not found"
  | .unknownDimension cube dimension =>
    "dimension '" ++ dimension ++ "' not found in cube '" ++ cube ++ "'"
  | .unknownMember dimension member =>
    "member '" ++ member ++ "' not found in dimension '" ++ dimension ++ "'"
  | .dimensionCoverage detail => detail
  | .subsetDimensionMismatch subset axisDimension subsetDimension =>
    "subset '" ++ subset ++ "' selects from '" ++ subsetDimension ++ "' but the axis is on '" ++
      axisDimension ++ "'"
  | .dynamicUnsupported => "dynamic (MDX) subsets are not supported by this evaluator"
  | .dynamicEval message => message
  | .calc message => message
  | .accessDenied => "access denied"
  | .model e => e.toString

/-! ## Subsets and views -/

inductive SubsetKind where
  | static (members : List String)
  | dynamic (mdx : String)
deriving DecidableEq

/-- Shared with everyone, or kept to its owner. -/
inductive Visibility where
  | pub
  | priv
deriving DecidableEq

/-- A named selection of elements of one dimension. -/
structure Subset where
  name : String
  dimension : String
  owner : Option String
  visibility : Visibility
  kind : SubsetKind
deriving DecidableEq

/-- A placement on an axis. -/
inductive AxisSpec where
  | subset (dimension subset : String)
  | members (dimension : String) (members : List String)
deriving DecidableEq

def AxisSpec.dimension : AxisSpec → String
  | .subset dimension _ => dimension
  | .members dimension _ => dimension

/-- A saved query over one cube. -/
structure View where
  name : String
  cube : String
  owner : Option String
  visibility : Visibility
  rows : List AxisSpec
  columns : List AxisSpec
  context : List (String × String)
  suppressZeroRows : Bool
  suppressZeroColumns : Bool
deriving DecidableEq

/-- The result of a view: the surviving tuples and their cells, row by row,
and the tuples that zero-suppression removed. -/
structure Cellset where
  rowDimensions : List String
  columnDimensions : List String
  rowTuples : List (List String)
  columnTuples : List (List String)
  context : List (String × String)
  cells : List Fixed
  cellStrings : List (Option String)
  cellErrors : List (Option String)
  suppressedRowTuples : List (List String)
  suppressedColumnTuples : List (List String)
deriving DecidableEq

/-- The source of cell values. -/
structure CellResolver where
  value : Coord → Except QueryError Fixed
  stringValue : Coord → Except QueryError (Option String)

/-- How a dynamic set resolves over a dimension: no evaluator looks at the
cube. -/
abbrev SetEvaluator := Dimension → String → Except QueryError (List Nat)

structure Parallelism where
  maxWorkers : Nat
  threshold : Nat
deriving DecidableEq

def Parallelism.workersFor (par : Parallelism) (total : Nat) : Nat :=
  if par.maxWorkers ≤ 1 ∨ total = 0 ∨ total < par.threshold then 1 else min par.maxWorkers total

/-- The most cells one execution may address. -/
def maxCellsetCells : Nat := 2000000

/-- Multiplication of pointer-sized integers that stops at the largest. -/
def saturatingMulUsize (a b : Nat) : Nat := min usizeMax (a * b)

namespace Query

/-! ## Resolving the axes -/

section Resolve

variable (cube : Cube) (subsetLookup : String → String → Option Subset) (eval : SetEvaluator)

def dimensionByName (name : String) : Except QueryError Dimension :=
  okOr (cube.dimensions.find? fun d => d.name = name) (.unknownDimension cube.name name)

def resolveMember (dim : Dimension) (name : String) : Except QueryError Nat :=
  okOr (dim.resolve name) (.unknownMember dim.name name)

/-- Resolve names in order, a member named again left out. -/
def resolveMembers (dim : Dimension) (names : List String) : Except QueryError (List Nat) := do
  let indices ← names.mapM (resolveMember dim)
  .ok (indices.foldl (fun out i => if i ∈ out then out else out ++ [i]) [])

def resolveSubset (subset : Subset) : Except QueryError (List Nat) := do
  let dim ← dimensionByName cube subset.dimension
  match subset.kind with
  | .static members => resolveMembers dim members
  | .dynamic mdx => eval dim mdx

def resolveSpec : AxisSpec → Except QueryError (List Nat)
  | .subset dimension subset => do
    let s ← okOr (subsetLookup dimension subset) (.unknownSubset subset)
    if s.dimension ≠ dimension then
      .error (.subsetDimensionMismatch subset dimension s.dimension)
    else resolveSubset cube eval s
  | .members dimension members => do
    let dim ← dimensionByName cube dimension
    resolveMembers dim members

/-- Cap the running product of the lists' lengths, up to the first empty
list. -/
def checkTupleCount (count : Nat) : List (List Nat) → Except QueryError Unit
  | [] => .ok ()
  | list :: rest =>
    let count := saturatingMulUsize count list.length
    if count > maxCellsetCells then
      .error (.model (.cellsetTooLarge count maxCellsetCells))
    else if count = 0 then .ok ()
    else checkTupleCount count rest

/-- An axis's dimension names and its tuples, the first spec slowest. -/
def resolveAxis (axis : List AxisSpec) : Except QueryError (List String × List (List Nat)) := do
  let perSpec ← axis.mapM (resolveSpec cube subsetLookup eval)
  checkTupleCount 1 perSpec
  .ok (axis.map AxisSpec.dimension, Sections.rows perSpec)

/-- How often each dimension is placed, in the order of the names. -/
def placements (view : View) : FinMap String Nat :=
  ((view.rows ++ view.columns).map AxisSpec.dimension ++ view.context.map Prod.fst).foldl
    (fun counts name => counts.insert name (counts[name]?.getD 0 + 1)) ∅

def validateCoverage (view : View) : Except QueryError Unit := do
  let counts := placements view
  counts.toList.forM fun x =>
    if cube.dimensions.any fun d => d.name = x.1 then .ok ()
    else .error (.unknownDimension cube.name x.1)
  counts.toList.forM fun x =>
    if x.2 > 1 then
      .error (.dimensionCoverage ("dimension '" ++ x.1 ++ "' is placed on more than one axis"))
    else .ok ()
  cube.dimensions.forM fun d =>
    if counts[d.name]?.isSome then .ok ()
    else
      .error (.dimensionCoverage
        ("dimension '" ++ d.name ++ "' is not placed on any axis or context"))

/-- The position of a dimension in a coordinate. -/
def position (name : String) : Nat :=
  ((FinMap.collect (cube.dimensions.zipIdx.map fun x => (x.1.name, x.2)))[name]?).getD 0

/-- The context's members into the base coordinate; a denied one denies the
whole result. -/
def resolveContext (mask : Option ElementMask) :
    List (String × String) → Coord → Except QueryError Coord
  | [], base => .ok base
  | (dimension, member) :: rest, base => do
    let ci := position cube dimension
    let idx ← okOr ((cube.dimension ci).resolve member) (.unknownMember dimension member)
    if mask.any fun m => m.deniesMember cube ci idx then .error .accessDenied
    else resolveContext mask rest (base.set ci idx)

/-- The tuples without a denied member. -/
def visibleTuples (mask : Option ElementMask) (ci : List Nat) (tuples : List (List Nat)) :
    List (List Nat) :=
  match mask with
  | none => tuples
  | some m => tuples.filter fun t => !((t.zip ci).any fun x => m.deniesMember cube x.2 x.1)

/-- Whether a tuple names a string element. -/
def tupleHasString (ci : List Nat) (tuple : List Nat) : Bool :=
  (tuple.zip ci).any fun x => ((cube.dimension x.2).kindAt x.1).any ElementKind.isString

def contextHasString (context : List (String × String)) : Bool :=
  context.any fun x =>
    let dim := cube.dimension (position cube x.1)
    ((dim.resolve x.2).bind dim.kindAt).any ElementKind.isString

/-- A tuple's member names. -/
def tupleNames (ci : List Nat) (tuple : List Nat) : List String :=
  (tuple.zip ci).map fun x => (((cube.dimension x.2).elements[x.1]?).map Element.name).getD ""

end Resolve

/-! ## The grid -/

/-- One computed cell; a string or failed one carries zero. -/
structure CellOut where
  value : Fixed
  string : Option String
  error : Option String
deriving DecidableEq

namespace CellOut

def numeric (value : Fixed) : CellOut := ⟨value, none, none⟩

def text (string : Option String) : CellOut := ⟨Fixed.zero, string, none⟩

def failed (message : String) : CellOut := ⟨Fixed.zero, none, some message⟩

def isBlank (cell : CellOut) : Bool :=
  cell.error.isNone && cell.string.isNone && cell.value.isZero

end CellOut

/-- Whether a text occurs in another. -/
def containsText (text pattern : String) : Bool := pattern.toList <:+: text.toList

/-- A denial and a cube whose rules fail abort the whole result; any other
error marks its cell. -/
def isHardCellError : QueryError → Bool
  | .accessDenied => true
  | .calc message => containsText message "rules fail to compile"
  | _ => false

/-- A read, its error degraded to a marker unless it is a hard one. -/
def degrade {α : Type} (read : Except QueryError α) (out : α → CellOut) :
    Except QueryError CellOut :=
  match read with
  | .ok a => .ok (out a)
  | .error err => if isHardCellError err then .error err else .ok (CellOut.failed err.toString)

/-- The base coordinate with a tuple's members at their positions. -/
def overlay (base : Coord) (ci : List Nat) (tuple : List Nat) : Coord :=
  (tuple.zip ci).foldl (fun coord x => coord.set x.2 x.1) base

/-- Read one cell through its channel. -/
def cellAt (cells : CellResolver) (isString : Bool) (coord : Coord) : Except QueryError CellOut :=
  if isString then degrade (cells.stringValue coord) CellOut.text
  else degrade (cells.value coord) CellOut.numeric

section Fill

variable (cellAt : Nat → Nat → Except QueryError CellOut)

/-- Read the cells one after the other, row by row. -/
def fillGridSerial (nrows ncols : Nat) : Except QueryError (List CellOut) := do
  let rows ← (List.range nrows).mapM fun r => (List.range ncols).mapM (cellAt r)
  .ok rows.flatten

/-- One cell of a band: into its slot, or the failure of the lower place. -/
def bandCell (ncols r0 rr : Nat) (st : List CellOut × Option (Nat × QueryError)) (c : Nat) :
    List CellOut × Option (Nat × QueryError) :=
  match cellAt (r0 + rr) c with
  | .ok v => (st.1.set (rr * ncols + c) v, st.2)
  | .error e => (st.1, Bands.keepLower st.2 ((r0 + rr) * ncols + c, e))

/-- What a worker does: all the rows of its band, which starts at a row. -/
def fillBand (ncols r0 : Nat) (chunk : List CellOut) : List CellOut × Option (Nat × QueryError) :=
  let bandRows := chunk.length / ncols
  (List.range bandRows).foldl
    (fun st rr => (List.range ncols).foldl (bandCell cellAt ncols r0 rr) st) (chunk, none)

/-- Fill the grid in bands of rows, one worker to a band; the failure
reported is the one of the lowest place. -/
def fillGridParallel (nrows ncols workers : Nat) : Except QueryError (List CellOut) :=
  let grid := List.replicate (nrows * ncols) (CellOut.numeric Fixed.zero)
  let rowsPer := (nrows + workers - 1) / workers
  let bandCells := max (rowsPer * ncols) 1
  let bands := (Bands.bandsOf bandCells grid).zipIdx.map fun x =>
    fillBand cellAt ncols (x.2 * rowsPer) x.1
  match (bands.filterMap Prod.snd).foldl Bands.keepLower none with
  | some err => .error err.2
  | none => .ok (bands.flatMap Prod.fst)

/-- Fill the grid. -/
def fillGrid (par : Parallelism) (nrows ncols : Nat) : Except QueryError (List CellOut) :=
  let workers := par.workersFor (saturatingMulUsize nrows ncols)
  if workers > 1 then fillGridParallel cellAt nrows ncols workers
  else fillGridSerial cellAt nrows ncols

end Fill

/-! ## Execution -/

def executeViewWith (cube : Cube) (view : View) (cells : CellResolver)
    (subsetLookup : String → String → Option Subset) (eval : SetEvaluator)
    (mask : Option ElementMask) (par : Parallelism) : Except QueryError Cellset := do
  validateCoverage cube view
  let (rowDimensions, rowTuples) ← resolveAxis cube subsetLookup eval view.rows
  let (columnDimensions, columnTuples) ← resolveAxis cube subsetLookup eval view.columns
  let base ← resolveContext cube mask view.context (List.replicate cube.rank 0)
  let rowCi := rowDimensions.map (position cube)
  let colCi := columnDimensions.map (position cube)
  let rowTuples := visibleTuples cube mask rowCi rowTuples
  let columnTuples := visibleTuples cube mask colCi columnTuples
  let nrows := rowTuples.length
  let ncols := columnTuples.length
  let total := saturatingMulUsize nrows ncols
  if total > maxCellsetCells then
    .error (.model (.cellsetTooLarge total maxCellsetCells))
  else
    let contextString := contextHasString cube view.context
    let cell := fun r c =>
      let row := rowTuples.getD r []
      let column := columnTuples.getD c []
      cellAt cells
        (contextString || tupleHasString cube rowCi row || tupleHasString cube colCi column)
        (overlay (overlay base rowCi row) colCi column)
    let grid ← fillGrid cell par nrows ncols
    let at_ := fun r c => grid.getD (r * ncols + c) (CellOut.numeric Fixed.zero)
    -- rows first, then the columns judged across the surviving rows
    let haveCells := decide (nrows > 0 ∧ ncols > 0)
    let rowKept := fun r =>
      !(view.suppressZeroRows && haveCells) || (List.range ncols).any fun c => !(at_ r c).isBlank
    let keepRows := (List.range nrows).filter rowKept
    let suppRows := (List.range nrows).filter fun r => !rowKept r
    let colKept := fun c =>
      !(view.suppressZeroColumns && haveCells && !keepRows.isEmpty) ||
        keepRows.any fun r => !(at_ r c).isBlank
    let keepCols := (List.range ncols).filter colKept
    let suppCols := (List.range ncols).filter fun c => !colKept c
    let kept := keepRows.flatMap fun r => keepCols.map fun c => at_ r c
    let names := fun (ci : List Nat) (tuples : List (List Nat)) (picks : List Nat) =>
      picks.map fun i => tupleNames cube ci (tuples.getD i [])
    .ok
      { rowDimensions, columnDimensions
        rowTuples := names rowCi rowTuples keepRows
        columnTuples := names colCi columnTuples keepCols
        context := view.context
        cells := kept.map CellOut.value
        cellStrings := kept.map CellOut.string
        cellErrors := kept.map CellOut.error
        suppressedRowTuples := names rowCi rowTuples suppRows
        suppressedColumnTuples := names colCi columnTuples suppCols }

/-! ## What a view takes from its cube -/

section Congr

variable {cube cube' : Cube} (hname : cube.name = cube'.name)
  (hdims : cube.dimensions = cube'.dimensions)

include hdims

theorem dimension_congr (d : Nat) : cube.dimension d = cube'.dimension d := by
  rw [Cube.dimension, Cube.dimension, hdims]

theorem position_congr (name : String) : position cube name = position cube' name := by
  rw [position, position, hdims]

theorem memberDenied_congr (m : ElementMask) (dim member : Nat) :
    m.memberDenied cube dim member = m.memberDenied cube' dim member := by
  rw [ElementMask.memberDenied, ElementMask.memberDenied, hdims]

theorem visibleTuples_congr (mask : Option ElementMask) (ci : List Nat) (tuples : List (List Nat)) :
    visibleTuples cube mask ci tuples = visibleTuples cube' mask ci tuples := by
  rcases mask with _ | m
  · rfl
  · simp only [visibleTuples, ElementMask.deniesMember, memberDenied_congr hdims]

theorem tupleHasString_congr (ci tuple : List Nat) :
    tupleHasString cube ci tuple = tupleHasString cube' ci tuple := by
  simp only [tupleHasString, dimension_congr hdims]

theorem contextHasString_congr (context : List (String × String)) :
    contextHasString cube context = contextHasString cube' context := by
  simp only [contextHasString, dimension_congr hdims, position_congr hdims]

theorem tupleNames_congr (ci tuple : List Nat) :
    tupleNames cube ci tuple = tupleNames cube' ci tuple := by
  simp only [tupleNames, dimension_congr hdims]

theorem resolveContext_congr (mask : Option ElementMask) (context : List (String × String))
    (base : Coord) :
    resolveContext cube mask context base = resolveContext cube' mask context base := by
  induction context generalizing base with
  | nil => rfl
  | cons x rest ih =>
    have hdenied : ∀ ci idx, (mask.any fun m => m.deniesMember cube ci idx) =
        mask.any fun m => m.deniesMember cube' ci idx := by
      intro ci idx
      simp only [ElementMask.deniesMember, memberDenied_congr hdims]
    simp only [resolveContext, position_congr hdims, dimension_congr hdims]
    refine bind_congr fun idx => ?_
    rw [hdenied, ih]

include hname

theorem dimensionByName_congr (name : String) :
    dimensionByName cube name = dimensionByName cube' name := by
  rw [dimensionByName, dimensionByName, hdims, hname]

theorem resolveAxis_congr (subsetLookup : String → String → Option Subset) (eval : SetEvaluator)
    (axis : List AxisSpec) :
    resolveAxis cube subsetLookup eval axis = resolveAxis cube' subsetLookup eval axis := by
  have hspec : resolveSpec cube subsetLookup eval = resolveSpec cube' subsetLookup eval := by
    funext spec
    cases spec <;> simp only [resolveSpec, resolveSubset, dimensionByName_congr hname hdims]
  rw [resolveAxis, resolveAxis, hspec]

theorem validateCoverage_congr (view : View) :
    validateCoverage cube view = validateCoverage cube' view := by
  rw [validateCoverage, validateCoverage, hdims, hname]

/-- A view takes its cube's name and dimensions, and every cell from the
resolver. -/
theorem executeViewWith_congr (view : View) (cells : CellResolver)
    (subsetLookup : String → String → Option Subset) (eval : SetEvaluator)
    (mask : Option ElementMask) (par : Parallelism) :
    executeViewWith cube view cells subsetLookup eval mask par =
      executeViewWith cube' view cells subsetLookup eval mask par := by
  have hposition : position cube = position cube' := funext fun n => position_congr hdims n
  have hnames : tupleNames cube = tupleNames cube' := by
    funext ci tuple
    exact tupleNames_congr hdims ci tuple
  simp only [executeViewWith, validateCoverage_congr hname hdims, resolveAxis_congr hname hdims,
    resolveContext_congr hdims, visibleTuples_congr hdims, tupleHasString_congr hdims,
    contextHasString_congr hdims, hposition, hnames, Cube.rank, hdims]

end Congr

end Query

end Epiphany
