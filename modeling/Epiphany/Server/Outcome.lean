import Epiphany.Common.Handlers
import Epiphany.Core.Batch
import Epiphany.Core.Decimal
import Epiphany.Engine.Sequential
import Epiphany.Server.Authz
/-!
# Outcomes — what a flow or an import stages, and how it is applied

A flow or an import does not change anything itself: it stages growth of
global dimensions, and growth and cells of cubes, by name. The outcome is
applied dimension by dimension and then cube by cube, and stops at the first
target that refuses it, with the targets before it applied.
-/

namespace Epiphany

/-! ## Staged changes -/

/-- A cell to write, addressed by member names. -/
structure PlannedCell where
  coord : FinMap String String
  value : String

/-- What is staged for one cube. -/
structure CubeChanges where
  elements : List ElementSpec
  edges : List EdgeSpec
  cells : List PlannedCell

/-- What is staged for one global dimension. -/
structure DimChanges where
  elements : List ElementSpec
  edges : List EdgeSpec

/-- The changes of a run, by target. -/
structure FlowOutcome where
  cubes : FinMap String CubeChanges
  dimensions : FinMap String DimChanges

/-! ## Resolving a cell -/

/-- A resolved coordinate, and what it addresses. -/
structure Resolved where
  indices : Coord
  hasString : Bool
  allLeaf : Bool

namespace Cube

/-- The next component of a coordinate, in dimension order. -/
def resolveComponent (coord : FinMap String String) (resolved : Resolved) (dim : Dimension) :
    Except ApiError Resolved := do
  let name ← okOr coord[dim.name]?
    (.unprocessable "BAD_COORD" ("coordinate missing dimension '" ++ dim.name ++ "'"))
  let i ← okOr (dim.indexOf name) (.unprocessable "UNKNOWN_ELEMENT"
    ("unknown element '" ++ name ++ "' in dimension '" ++ dim.name ++ "'"))
  .ok {
    indices := resolved.indices ++ [i]
    hasString := resolved.hasString || dim.kindAt i = some .string
    allLeaf := resolved.allLeaf && dim.kindAt i ≠ some .consolidated }

/-- Map a coordinate by names to element indices in dimension order. -/
def resolve (c : Cube) (coord : FinMap String String) : Except ApiError Resolved :=
  if coord.size ≠ c.rank then
    .error (.unprocessable "BAD_COORD" ("coordinate has " ++ Nat.repr coord.size ++
      " entries but cube '" ++ c.name ++ "' has " ++ Nat.repr c.rank ++ " dimensions"))
  else c.dimensions.foldlM (resolveComponent coord) ⟨[], false, true⟩

/-- The write of a cell: text at a string element, and a number elsewhere. -/
def buildWrite (c : Cube) (cell : PlannedCell) : Except ApiError CellWrite := do
  let resolved ← c.resolve cell.coord
  if resolved.allLeaf = false then
    .error (.unprocessable "WRITE_TO_NON_LEAF" "cannot write to a consolidated coordinate")
  else if resolved.hasString then .ok (.str resolved.indices cell.value)
  else do
    let number ← (Fixed.fromStr cell.value).mapError fun _ =>
      .unprocessable "INVALID_NUMBER" ("invalid number '" ++ cell.value ++ "'")
    .ok (.leaf resolved.indices number)

end Cube

/-! ## The answers of failed operations -/

/-- The answer of an operation that fails; an id that is not registered is
reported as a dimension of the cube the operation is about. -/
def EngineError.toApi (cube : String) : EngineError → ApiError
  -- requests that run one after another never wait for a lock
  | .blocked | .idle => .internal
  | .invalid e => .ofQuery (.model e)
  | .unsupported => .unprocessable "UNSUPPORTED" "cube creation is not enabled on this server"
  | .alreadyExists name => .conflict ("cube '" ++ name ++ "' already exists")
  | .unknownCube name => .notFound ("unknown cube '" ++ name ++ "'")
  | .unknownDimension name dimension =>
    .notFound ("cube '" ++ name ++ "' has no dimension '" ++ dimension ++ "'")
  | .unknownId id => .ofQuery (.model (.unknownDimension cube ("#" ++ Nat.repr id)))
  | .referenced cubes =>
    .conflict ("shared dimension is referenced by " ++ Nat.repr cubes.length ++
      " cube(s) and cannot be deleted: " ++ ", ".intercalate cubes)
  | .alreadyGlobal id =>
    .conflict ("dimension is already a global dimension (#" ++ Nat.repr id ++ ")")

/-- A request on the engine: an error leaves what was changed before it. -/
abbrev Handler (α : Type) := EStateM ApiError Engine α

namespace Handler

variable {α : Type}

/-- An operation of the engine, with the answer of its failure. -/
def perform (answer : EngineError → ApiError) (op : Engine → Except EngineError α × Engine) :
    Handler α := fun s =>
  match op s with
  | (.ok a, s') => .ok a s'
  | (.error e, s') => .error (answer e) s'

/-- A step that changes the engine or fails and leaves it. -/
def commit (op : Engine → Except ApiError (Engine × α)) : Handler α := fun s =>
  match op s with
  | .ok (s', a) => .ok a s'
  | .error e => .error e s

end Handler

/-! ## Applying an outcome -/

namespace Engine

/-- Write a batch of cells to one cube. -/
def applyBatch (s : Engine) (cube : String) (writes : List Cube.CellWrite) :
    Except ApiError (Engine × Unit) := do
  let c ← okOr s.cubes[cube]? (.notFound ("unknown cube '" ++ cube ++ "'"))
  (c.validateBatch writes).mapError fun e => ApiError.unprocessable "BATCH_REJECTED"
    ("write " ++ Nat.repr e.1 ++ " rejected: " ++ e.2.toString)
  -- a batch that passes its check applies
  let next ← (c.applyWrites writes).mapError fun _ => ApiError.internal
  .ok ({ s with cubes := s.cubes.insert cube next }, ())

end Engine

namespace FlowOutcome

open Handler

/-- The answer for a target that does not exist. -/
def unknownTarget (what name : String) : ApiError :=
  .unprocessable "FLOW_UNKNOWN_TARGET" ("flow targets unknown " ++ what ++ " '" ++ name ++ "'")

/-- Grow one global dimension; with the number of its staged members. -/
def growTarget (dim : String) (changes : DimChanges) : Handler Nat := do
  let s ← get
  match s.dimensions.idOf dim with
  | none => throw (unknownTarget "global dimension" dim)
  | some id =>
    if changes.elements = [] ∧ changes.edges = [] then pure 0
    else do
      let _ ← perform (EngineError.toApi "registry") fun s =>
        s.runGrow id changes.elements changes.edges
      pure changes.elements.length

/-- The writes of the staged cells, against the cube with its staged growth. -/
def previewWrites (c : Cube) (changes : CubeChanges) : Except ApiError (List Cube.CellWrite) := do
  let (preview, _) ← (c.extendSchema changes.elements changes.edges).mapError fun e =>
    ApiError.unprocessable "FLOW_SCHEMA_ERROR" e.toString
  changes.cells.mapM preview.buildWrite

/-- Commit the growth of a cube, if there is any; with the number of new
members. -/
def growCube (cube : String) (changes : CubeChanges) : Handler Nat :=
  if changes.elements = [] ∧ changes.edges = [] then pure 0
  else commit fun s =>
    (s.defineElements cube changes.elements changes.edges).mapError (EngineError.toApi cube)

/-- Apply the cells of a cube, if there are any; with their number. -/
def writeCells (cube : String) (writes : List Cube.CellWrite) : Handler Nat :=
  if writes = [] then pure 0
  else do
    commit fun s => s.applyBatch cube writes
    pure writes.length

/-- Change one cube. All its cells are resolved before its growth is
committed. -/
def writeTarget (cube : String) (changes : CubeChanges) : Handler (Nat × Nat) := do
  let s ← get
  match s.cubes[cube]? with
  | none => throw (unknownTarget "cube" cube)
  | some c => do
    let writes ← commit fun s => (previewWrites c changes).map fun writes => (s, writes)
    let added ← growCube cube changes
    let written ← writeCells cube writes
    pure (added, written)

/-- Apply an outcome: global dimensions first, so that the cubes written after
them hold the members they got. -/
def applyOutcome (outcome : FlowOutcome) : Handler (Nat × Nat) := do
  let grown ← outcome.dimensions.toList.foldlM (fun added t => do
    let n ← growTarget t.1 t.2
    pure (added + n)) 0
  outcome.cubes.toList.foldlM (fun total t => do
    let n ← writeTarget t.1 t.2
    pure (total.1 + n.1, total.2 + n.2)) (grown, 0)

end FlowOutcome

end Epiphany
