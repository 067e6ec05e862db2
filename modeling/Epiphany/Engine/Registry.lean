import Epiphany.Common.Runs
import Epiphany.Engine.Materialize
/-!
# The engine — registry, cubes, and the sections of each operation

An operation on shared dimensions runs in critical sections. `dim_topology`
guards every change of the registry and is held from the creation of a cube
to the recording of its references, and from the reading of a promoted
dimension to its registration. `registry_edit` is held by a growth or an
edit from its change of the registry to its last cube. What the holder of a
lock still has to do is the content of the lock here, and each step is one
section: an operation that has yet to take its first lock has done nothing,
so it is not part of the state. Published models are read without locks,
and a cube is changed and published in one section of its writer lock.

Disk faults are left out: every durable write succeeds.
-/

namespace Epiphany

/-! ## The registry -/

structure DimensionRegistry where
  byId : FinMap DimensionId SharedDimension
  /-- The cubes that reference each dimension. -/
  refs : FinMap DimensionId (FinMap String Unit)

namespace DimensionRegistry

variable (r : DimensionRegistry)

def empty : DimensionRegistry := ⟨∅, ∅⟩

def get (id : DimensionId) : Option SharedDimension := r.byId[id]?

def refsOf (id : DimensionId) : FinMap String Unit := (r.refs[id]?).getD ∅

def put (dim : SharedDimension) : DimensionRegistry where
  byId := r.byId.insert dim.id dim
  refs := r.refs.insert dim.id (r.refsOf dim.id)

def remove (id : DimensionId) : DimensionRegistry where
  byId := r.byId.erase id
  refs := r.refs.erase id

def attach (id : DimensionId) (cube : String) : DimensionRegistry :=
  { r with refs := r.refs.insert id ((r.refsOf id).insert cube ()) }

/-- The cubes referencing a dimension, sorted. -/
def referencing (id : DimensionId) : List String := (r.refsOf id).toList.map Prod.fst

def isReferencedBy (id : DimensionId) (cube : String) : Bool := ((r.refsOf id)[cube]?).isSome

/-- The registered dimension of a name that a cube references. -/
def backingOf (cube name : String) : Option DimensionId :=
  r.byId.toList.findSome? fun e =>
    if e.2.dimension.name = name ∧ r.isReferencedBy e.2.id cube then some e.2.id else none

end DimensionRegistry

/-! ## Folder names -/

/-- The folder character of a name's character. -/
def slugChar (ch : Char) : Char :=
  let lowered := ch.toLower
  if lowered.isLower ∨ lowered.isDigit ∨ lowered = '_' then lowered else '-'

/-- Map the characters and collapse runs of dashes. -/
def slugLoop : Bool → List Char → List Char
  | _, [] => []
  | lastWasDash, ch :: rest =>
    if slugChar ch = '-' then
      if lastWasDash then slugLoop true rest else '-' :: slugLoop true rest
    else slugChar ch :: slugLoop false rest

/-- The folder a cube is stored in. -/
def slug (name : String) : String :=
  let trimmed := ((slugLoop false name.toList).dropWhile (· = '-')).reverse.dropWhile (· = '-')
  if trimmed.isEmpty then "unnamed" else String.ofList trimmed.reverse

/-! ## The engine -/

/-- A dimension of a cube to create: defined in place, or a reference. -/
inductive CubeDimensionSpec where
  | inline (dim : DimensionDef)
  | ref (id : DimensionId)
deriving DecidableEq

inductive EngineError where
  /-- A lock is held: the section waits. -/
  | blocked
  /-- No operation holds the lock. -/
  | idle
  | invalid (error : ModelError)
  | unsupported
  | alreadyExists (cube : String)
  | unknownCube (cube : String)
  | unknownDimension (cube dimension : String)
  | unknownId (id : DimensionId)
  | referenced (cubes : List String)
  | alreadyGlobal (id : DimensionId)

/-- A change of the registry on its way to the cubes. -/
structure FanOut where
  id : DimensionId
  dimension : String
  change : SharedChange
  remaining : List String
  /-- The cube whose outcome the caller still waits for. -/
  requested : Option String

/-- What the holder of `registry_edit` has left to do. -/
inductive RegistryEdit where
  | fanOut (f : FanOut)
  /-- An edit of a dimension that was not registry-backed. -/
  | embedded (cube dimension : String) (edit : DimensionEdit)

/-- What the holder of `dim_topology` has left to do. -/
inductive TopologyChange where
  /-- Record the references of a cube that is published. -/
  | attaching (cube : String) (refs : List DimensionId)
  /-- Register the dimension read from a cube. -/
  | promoting (cube : String) (dimension : Dimension)

structure Engine where
  dimensions : DimensionRegistry
  nextDimId : DimensionId
  /-- The published models. -/
  cubes : FinMap String Cube
  /-- Whether a directory for new cubes is configured. -/
  cubesDir : Bool
  /-- The folders that hold a snapshot. -/
  folders : List String
  registryEdit : Option RegistryEdit
  dimTopology : Option TopologyChange

/-- One section of an operation. -/
inductive EngineCall where
  | registerDimension (dimension : { d : Dimension // d.WF })
  | createCube (name : String) (dims : List CubeDimensionSpec)
  | growDimension (id : DimensionId) (elements : List ElementSpec) (edges : List EdgeSpec)
  | editDimension (cube dimension : String) (edit : DimensionEdit)
  | promoteDimension (cube dimension : String)
  | deleteDimension (id : DimensionId)
  /-- The next section of the holder of `registry_edit`: one cube. -/
  | nextCube
  /-- The last section of the holder of `dim_topology`. -/
  | publish

namespace Engine

/-- An engine over stored cubes, with an empty registry. -/
def fromStores (cubes : FinMap String Cube) (cubesDir : Bool) (folders : List String) : Engine where
  dimensions := DimensionRegistry.empty
  nextDimId := 1
  cubes := cubes
  cubesDir := cubesDir
  folders := folders
  registryEdit := none
  dimTopology := none

variable (s : Engine)

/-- Take `dim_topology`, if it is free. -/
def lockTopology : Except EngineError Unit :=
  if s.dimTopology.isSome then .error .blocked else .ok ()

def lockRegistryEdit : Except EngineError Unit :=
  if s.registryEdit.isSome then .error .blocked else .ok ()

def invalid {α : Type} (x : Except ModelError α) : Except EngineError α := x.mapError .invalid

def registerDimension (dimension : Dimension) : Except EngineError Engine := do
  s.lockTopology
  .ok { s with
    dimensions := s.dimensions.put (SharedDimension.new s.nextDimId dimension)
    nextDimId := s.nextDimId + 1 }

/-- Resolve the dimensions of a new cube, and list its references. -/
def resolveDims (registry : DimensionRegistry) :
    List CubeDimensionSpec → Except EngineError (List DimensionDef × List DimensionId)
  | [] => .ok ([], [])
  | .inline dim :: rest => do
    let (defs, refs) ← resolveDims registry rest
    .ok (dim :: defs, refs)
  | .ref id :: rest => do
    let shared ← okOr (registry.get id) (.unknownId id)
    let (defs, refs) ← resolveDims registry rest
    .ok (shared.toDimensionDef :: defs, id :: refs)

/-- Build and publish a cube, unless its folder is taken. -/
def createCube (name : String) (defs : List DimensionDef) : Except EngineError Engine := do
  if s.cubesDir = false then .error .unsupported
  else
    let cube ← invalid (Cube.build name defs)
    match (s.cubes.toList.map Prod.fst).find? fun other => slug other = slug name with
    | some existing => .error (.alreadyExists existing)
    | none =>
      if slug name ∈ s.folders then .error (.alreadyExists (slug name))
      else .ok { s with cubes := s.cubes.insert name cube, folders := slug name :: s.folders }

/-- Create a cube with references. The references are recorded in a second
section, if there are any. -/
def createCubeWithRefs (name : String) (dims : List CubeDimensionSpec) :
    Except EngineError Engine := do
  s.lockTopology
  let (defs, refs) ← resolveDims s.dimensions dims
  let next ← s.createCube name defs
  .ok { next with dimTopology := if refs.isEmpty then none else some (.attaching name refs) }

/-- Change a registered dimension and start on its cubes. -/
def changeShared (id : DimensionId) (change : SharedChange) (requested : Option String) :
    Except EngineError Engine := do
  let current ← okOr (s.dimensions.get id) (.unknownId id)
  let next ← invalid (change.onShared current)
  .ok { s with
    dimensions := s.dimensions.put next
    registryEdit := some (.fanOut
      { id := id
        dimension := next.dimension.name
        change := change
        remaining := s.dimensions.referencing id
        requested := requested }) }

def growDimension (id : DimensionId) (elements : List ElementSpec) (edges : List EdgeSpec) :
    Except EngineError Engine := do
  s.lockRegistryEdit
  s.lockTopology
  s.changeShared id (.grow elements edges) none

/-- Resolve the backing of a dimension: an edit of a backed one is made on
the registry, and an edit of an embedded one is left to its next section. -/
def editDimension (cube dimension : String) (edit : DimensionEdit) :
    Except EngineError Engine := do
  s.lockRegistryEdit
  s.lockTopology
  match s.dimensions.backingOf cube dimension with
  | some id => s.changeShared id (.edit edit) (some cube)
  | none => .ok { s with registryEdit := some (.embedded cube dimension edit) }

/-- Read the dimension of a cube that is to be registered. -/
def promoteDimension (cube dimension : String) : Except EngineError Engine := do
  s.lockTopology
  let c ← okOr s.cubes[cube]? (.unknownCube cube)
  let d ← okOr (c.dimensionNamed dimension) (.unknownDimension cube dimension)
  match s.dimensions.backingOf cube dimension with
  | some existing => .error (.alreadyGlobal existing)
  | none => .ok { s with dimTopology := some (.promoting cube d) }

def deleteDimension (id : DimensionId) : Except EngineError Engine := do
  s.lockTopology
  let _ ← okOr (s.dimensions.get id) (.unknownId id)
  if s.dimensions.referencing id ≠ [] then .error (.referenced (s.dimensions.referencing id))
  else .ok { s with dimensions := s.dimensions.remove id }

/-- Change one cube and publish it. -/
def define (cube dimension : String) (change : SharedChange) : Except EngineError Engine := do
  let c ← okOr s.cubes[cube]? (.unknownCube cube)
  let next ← invalid (change.onCube c dimension)
  .ok { s with cubes := s.cubes.insert cube next }

/-- Change one cube and then hold `edit`; an error ends the operation. -/
def defineThen (cube dimension : String) (change : SharedChange) (edit : Option RegistryEdit) :
    Engine :=
  match s.define cube dimension change with
  | .ok next => { next with registryEdit := edit }
  | .error _ => { s with registryEdit := none }

/-- The outcome of the requested cube is known once it is changed. -/
def FanOut.after (f : FanOut) (cube : String) (rest : List String) : FanOut :=
  { f with
    remaining := rest
    requested := if f.requested = some cube then none else f.requested }

/-- One section of the holder of `registry_edit`: the next cube of a fan-out
that exists, or the cube of an embedded edit. A fan-out that did not meet
the requested cube changes it at the end. -/
def nextCube : Except EngineError Engine :=
  match s.registryEdit with
  | none => .error .idle
  | some (.embedded cube dimension edit) => .ok (s.defineThen cube dimension (.edit edit) none)
  | some (.fanOut f) =>
    match f.remaining with
    | [] =>
      match f.requested with
      | none => .ok { s with registryEdit := none }
      | some cube => .ok (s.defineThen cube f.dimension f.change none)
    | cube :: rest =>
      if (s.cubes[cube]?).isNone then
        .ok { s with registryEdit := some (.fanOut { f with remaining := rest }) }
      else .ok (s.defineThen cube f.dimension f.change (some (.fanOut (FanOut.after f cube rest))))

/-- The last section of the holder of `dim_topology`. -/
def publish : Except EngineError Engine :=
  match s.dimTopology with
  | none => .error .idle
  | some (.attaching cube refs) =>
    .ok { s with
      dimensions := refs.foldl (fun r id => r.attach id cube) s.dimensions
      dimTopology := none }
  | some (.promoting cube dimension) =>
    .ok { s with
      dimensions :=
        (s.dimensions.put (SharedDimension.new s.nextDimId dimension)).attach s.nextDimId cube
      nextDimId := s.nextDimId + 1
      dimTopology := none }

def step : EngineCall → Except EngineError Engine
  | .registerDimension dimension => s.registerDimension dimension.1
  | .createCube name dims => s.createCubeWithRefs name dims
  | .growDimension id elements edges => s.growDimension id elements edges
  | .editDimension cube dimension edit => s.editDimension cube dimension edit
  | .promoteDimension cube dimension => s.promoteDimension cube dimension
  | .deleteDimension id => s.deleteDimension id
  | .nextCube => s.nextCube
  | .publish => s.publish

end Engine

end Epiphany
