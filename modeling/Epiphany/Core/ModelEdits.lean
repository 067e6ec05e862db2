import Epiphany.Core.Batch
import Epiphany.Core.Model
/-!
# Edits of a model — its cube, and the sandboxes beside it

The overrides of a sandbox are kept by element index, like the cells of the
cube. An edit that renumbers a dimension moves them with their members, and
one that makes a member unwritable drops those on it. The index map is read
off the names of the members before and after.
-/

namespace Epiphany

namespace Sandbox

/-- The overrides at the coordinates that a map keeps, at their images. -/
def moveCoords {α : Type} (cells : FinMap Coord α) (f : Coord → Option Coord) : FinMap Coord α :=
  FinMap.collect (cells.toList.filterMap fun e => (f e.1).map fun coord => (coord, e.2))

def remapForDimension (s : Sandbox) (d : Nat) (toNew : Renumbering) : Sandbox :=
  { s with
    cells := moveCoords s.cells (Cube.remapCoord d toNew)
    stringCells := moveCoords s.stringCells (Cube.remapCoord d toNew) }

/-- Drop the overrides on an element. -/
def pruneOverrides (s : Sandbox) (d element : Nat) (numeric strings : Bool) : Sandbox :=
  { s with
    cells := if numeric then s.cells.filter fun a _ => a[d]? ≠ some element else s.cells
    stringCells :=
      if strings then s.stringCells.filter fun a _ => a[d]? ≠ some element else s.stringCells }

/-- Drop the text overrides for which an element was the sole string. -/
def pruneSoleStringOverrides (s : Sandbox) (cube : Cube) (d element : Nat) : Sandbox :=
  { s with
    stringCells := s.stringCells.filter fun a _ => a[d]? ≠ some element || cube.otherString d a }

/-- Record numbers, each over what was there. -/
def stage (s : Sandbox) (writes : List Cube.CellWrite) (updated : Nat) : Sandbox :=
  { s with
    cells := writes.foldl
      (fun cells write =>
        match write with
        | .leaf coord value => cells.insert coord value
        | .str _ _ => cells) s.cells
    updated }

/-- The overrides as writes of the cube. -/
def writes (s : Sandbox) : List Cube.CellWrite :=
  s.cells.toList.map (fun e => Cube.CellWrite.leaf e.1 e.2) ++
    s.stringCells.toList.map fun e => Cube.CellWrite.str e.1 e.2

def cleared (s : Sandbox) (updated : Nat) : Sandbox :=
  { s with cells := ∅, stringCells := ∅, updated }

end Sandbox

namespace Model

variable (m : Model)

def mapSandboxes (f : Sandbox → Sandbox) : Model :=
  { m with sandboxes := m.sandboxes.map fun _ s => f s }

def setSandbox (s : Sandbox) : Model := { m with sandboxes := m.sandboxes.insert s.name s }

/-- Where the members of before are now, by name. -/
def permutationByName (dim : Dimension) (oldNames : List String) : Renumbering :=
  oldNames.map dim.indexOf

/-- The model with a renumbered dimension in its cube. -/
def renumbered (dimension : String) (next : Cube) : Model :=
  match m.cube.dimensionIndex dimension with
  | .ok d =>
    { m with cube := next }.mapSandboxes fun s =>
      s.remapForDimension d
        (permutationByName (next.dimension d) ((m.cube.dimension d).elements.map Element.name))
  | .error _ => { m with cube := next }

/-- The model after a change of the kind of a member. -/
def retyped (dimension element : String) (kind : ElementKind) (next : Cube) : Model :=
  let after : Model := { m with cube := next }
  match m.cube.dimensionIndex dimension with
  | .error _ => after
  | .ok d =>
    match (m.cube.dimension d).indexOf element with
    | none => after
    | some idx =>
      match (m.cube.dimension d).kindAt idx, kind with
      | some .leaf, .string => after.mapSandboxes fun s => s.pruneOverrides d idx true false
      | some .string, .leaf => after.mapSandboxes fun s => s.pruneSoleStringOverrides next d idx
      | some .leaf, .consolidated | some .string, .consolidated =>
        after.mapSandboxes fun s => s.pruneOverrides d idx true true
      | _, _ => after

/-- The model after a member got a child: a leaf became a consolidation. -/
def parented (dimension : String) (parent : Option String) (next : Cube) : Model :=
  let after : Model := { m with cube := next }
  match m.cube.dimensionIndex dimension, parent with
  | .ok d, some parent =>
    match (m.cube.dimension d).indexOf parent with
    | some idx =>
      match (m.cube.dimension d).kindAt idx with
      | some .leaf | some .string => after.mapSandboxes fun s => s.pruneOverrides d idx true true
      | _ => after
    | none => after
  | _, _ => after

/-- The model with the cube that an accepted call swaps in. -/
def after (next : Cube) : CubeOp → Model
  | .reorderElements dimension _ | .deleteElement dimension _ | .insertElementAt dimension _ _ _ =>
    m.renumbered dimension next
  | .setElementKind dimension element kind => m.retyped dimension element kind next
  | .reparentElement dimension _ newParent _ => m.parented dimension newParent next
  | .addChildElement dimension parent _ _ => m.parented dimension (some parent) next
  | _ => { m with cube := next }

/-- An edit of the cube, and of the sandboxes with it. -/
def run (op : CubeOp) : Except ModelError Model := do
  let next ← m.cube.run op
  .ok (m.after next op)

theorem cube_after {next : Cube} {op : CubeOp} : (m.after next op).cube = next := by
  cases op with
  | reorderElements dimension newOrder =>
    simp only [after, renumbered]
    split
    · rfl
    · rfl
  | deleteElement dimension element =>
    simp only [after, renumbered]
    split
    · rfl
    · rfl
  | insertElementAt dimension name kind position =>
    simp only [after, renumbered]
    split
    · rfl
    · rfl
  | setElementKind dimension element kind =>
    simp only [after, retyped]
    repeat' split
    all_goals rfl
  | reparentElement dimension child newParent weight =>
    simp only [after, parented]
    repeat' split
    all_goals rfl
  | addChildElement dimension parent child weight =>
    simp only [after, parented]
    repeat' split
    all_goals rfl
  | _ => rfl

variable {m} {m' : Model}

theorem WF.run {op : CubeOp} (hm : m.cube.WF) (h : m.run op = .ok m') : m'.cube.WF := by
  obtain ⟨next, hnext, h⟩ := bind_eq_ok.1 h
  obtain rfl := Except.ok.inj h
  rw [cube_after]
  exact hm.run hnext

end Model

end Epiphany
