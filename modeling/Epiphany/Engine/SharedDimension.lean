import Epiphany.Core.StructuralEdits
/-!
# Shared dimensions — one dimension, edited in the registry and in each cube

The server keeps a registry of dimensions, and a cube that references one
holds its own copy. A growth or an edit is made on the registry's dimension
first and then on every copy, addressed by names: here are the registry's
side, which changes a bare dimension, and the definition a new copy is
built from.
-/

namespace Epiphany

/-! ## Data -/

/-- A server-unique identifier of a registered dimension. -/
abbrev DimensionId := Nat

structure SharedDimension where
  id : DimensionId
  /-- Counts the growths and edits that changed the dimension. -/
  generation : Nat
  dimension : Dimension
deriving DecidableEq

/-- One structural edit of a dimension, addressed by element names. -/
inductive DimensionEdit where
  | reorder (newOrder : List String)
  | reparent (child : String) (newParent : Option String) (weight : Int)
  /-- Add an edge and keep the child's other parents. -/
  | addChild (parent child : String) (weight : Int)
  | removeChild (parent child : String)
  | pinToTop (element : String)
  | unpinFromTop (element : String)
  | setKind (element : String) (kind : ElementKind)
  | delete (element : String)
  | insert (name : String) (kind : ElementKind) (position : Position)
deriving DecidableEq

/-- The store's dispatch of an edit to the cube's method for it. -/
def DimensionEdit.op (dimension : String) : DimensionEdit → CubeOp
  | reorder newOrder => .reorderElements dimension newOrder
  | reparent child newParent weight => .reparentElement dimension child newParent weight
  | addChild parent child weight => .addChildElement dimension parent child weight
  | removeChild parent child => .removeChildElement dimension parent child
  | pinToTop element => .setElementPin dimension element true
  | unpinFromTop element => .setElementPin dimension element false
  | setKind element kind => .setElementKind dimension element kind
  | delete element => .deleteElement dimension element
  | insert name kind position => .insertElementAt dimension name kind position

def Cube.editDimension (c : Cube) (dimension : String) (edit : DimensionEdit) :
    Except ModelError Cube := c.run (edit.op dimension)

/-- An element to add, to the dimension of the given name. -/
def ElementSpec.stamp (dimension : String) (spec : ElementSpec) : ElementSpec :=
  { spec with dimension := dimension }

/-- An edge to add, to the dimension of the given name. -/
def EdgeSpec.stamp (dimension : String) (spec : EdgeSpec) : EdgeSpec :=
  { spec with dimension := dimension }

namespace Dimension

/-! ## Growth -/

/-- Add elements, whatever dimension they name; with whether any is new. -/
def grownElements (d : Dimension) (changed : Bool) :
    List ElementSpec → Except ModelError (Dimension × Bool)
  | [] => .ok (d, changed)
  | spec :: rest => do
    let (next, added) ← Cube.growElement d (spec.stamp d.name)
    grownElements next (changed || added ≠ 0) rest

/-- Add edges. An edge that is there leaves the dimension as it is. -/
def grownEdges (d : Dimension) (changed : Bool) :
    List EdgeSpec → Except ModelError (Dimension × Bool)
  | [] => .ok (d, changed)
  | spec :: rest => do
    let next ← Cube.growEdge d (spec.stamp d.name)
    grownEdges next (changed || next ≠ d) rest

def grow (d : Dimension) (elements : List ElementSpec) (edges : List EdgeSpec) :
    Except ModelError (Dimension × Bool) := do
  let (d, changed) ← d.grownElements false elements
  d.grownEdges changed edges

/-! ## Edits -/

/-- The element a name stands for, in the registry's own words. -/
def find (d : Dimension) (name : String) : Except ModelError Nat := Cube.findElement d d.name name

/-- A leaf that gains a child becomes a consolidation. -/
def mirrorConsolidation (d : Dimension) (parent : Nat) : Except ModelError Dimension := do
  let el ← d.element parent
  if el.kind.isLeaf then do
    let (d, _) ← d.setKind parent .consolidated
    .ok d
  else .ok d

def edit (d : Dimension) : DimensionEdit → Except ModelError Dimension
  | .reorder newOrder => do
    let (d, _) ← d.reorder newOrder
    .ok d
  | .reparent child newParent weight => do
    let childIdx ← d.find child
    match newParent with
    | none => d.reparent childIdx none weight
    | some p => do
      let parentIdx ← d.find p
      d.reparent childIdx (some parentIdx) weight
  | .addChild parent child weight => do
    let parentIdx ← d.find parent
    let childIdx ← d.find child
    if childIdx ∈ (← d.childrenOf parentIdx) then .ok d
    else
      let d ← d.mirrorConsolidation parentIdx
      d.addChild parentIdx childIdx weight
  | .removeChild parent child => do
    let parentIdx ← d.find parent
    let childIdx ← d.find child
    d.removeChild parentIdx childIdx
  | .pinToTop element => do
    let elementIdx ← d.find element
    d.pinToTop elementIdx
  | .unpinFromTop element => do
    let elementIdx ← d.find element
    d.unpinFromTop elementIdx
  | .setKind element kind => do
    let elementIdx ← d.find element
    let (d, _) ← d.setKind elementIdx kind
    .ok d
  | .delete element => do
    let elementIdx ← d.find element
    let (d, _) ← d.delete elementIdx
    .ok d
  | .insert name kind position => do
    let index ← Cube.insertIndex d d.name position
    let (d, _) ← d.insertAt name kind index
    .ok d

end Dimension

namespace SharedDimension

def new (id : DimensionId) (dimension : Dimension) : SharedDimension := ⟨id, 0, dimension⟩

/-- Append elements and edges; the generation counts a growth that changed
something. -/
def grown (s : SharedDimension) (elements : List ElementSpec) (edges : List EdgeSpec) :
    Except ModelError SharedDimension := do
  let (next, changed) ← s.dimension.grow elements edges
  .ok ⟨s.id, if changed then s.generation + 1 else s.generation, next⟩

def edited (s : SharedDimension) (edit : DimensionEdit) : Except ModelError SharedDimension := do
  let next ← s.dimension.edit edit
  .ok ⟨s.id, s.generation + 1, next⟩

/-- What a cube is built from to hold a copy: the elements, the edges of
each parent in declaration order, and the attributes with their values. -/
def toDimensionDef (s : SharedDimension) : DimensionDef :=
  let d := s.dimension
  let nameOf := fun i => (d.nameAt i).getD ""
  { name := d.name
    elements := d.elements.map fun e => (e.name, e.kind)
    edges := (List.range d.len).flatMap fun parent =>
      (d.edgesOf parent).map fun e => (nameOf parent, nameOf e.child, e.weight)
    attributes := d.attributes.map fun a => (a.name, a.kind)
    attributeValues := (List.range d.len).flatMap fun element =>
      (d.valuesOf element).toList.map fun v =>
        (nameOf element, ((d.attributes[v.1]?).map AttributeDef.name).getD "", v.2) }

end SharedDimension

/-! ## The registry's side keeps the invariant -/

namespace Dimension

variable {d d' : Dimension}

theorem grownElements_ok {specs : List ElementSpec} {b b' : Bool}
    (h : d.grownElements b specs = .ok (d', b')) : Grown d d' := by
  induction specs generalizing d b with
  | nil =>
    cases h
    exact Grown.refl _
  | cons spec specs ih =>
    simp only [grownElements, bind_eq_ok] at h
    obtain ⟨⟨next, n⟩, hnext, h⟩ := h
    exact (Cube.growElement_ok hnext).trans (ih h)

theorem grownEdges_ok {specs : List EdgeSpec} {b b' : Bool}
    (h : d.grownEdges b specs = .ok (d', b')) : Grown d d' := by
  induction specs generalizing d b with
  | nil =>
    cases h
    exact Grown.refl _
  | cons spec specs ih =>
    simp only [grownEdges, bind_eq_ok] at h
    obtain ⟨next, hnext, h⟩ := h
    exact (Cube.growEdge_ok hnext).trans (ih h)

theorem grow_ok {elements : List ElementSpec} {edges : List EdgeSpec} {b : Bool}
    (h : d.grow elements edges = .ok (d', b)) : Grown d d' := by
  simp only [grow, bind_eq_ok] at h
  obtain ⟨⟨mid, b'⟩, hmid, h⟩ := h
  exact (grownElements_ok hmid).trans (grownEdges_ok h)

@[simp] theorem find_eq_ok {name : String} {i : Nat} :
    d.find name = .ok i ↔ d.indexByName[name]? = some i := Cube.findElement_eq_ok

theorem mirrorConsolidation_ok {parent : Nat} (hd : d.WF)
    (h : d.mirrorConsolidation parent = .ok d') : d'.WF ∧ d'.name = d.name := by
  simp only [mirrorConsolidation, bind_eq_ok, element_eq_ok] at h
  obtain ⟨el, -, h⟩ := h
  split_ifs at h
  · obtain ⟨⟨mid, prev⟩, hmid, h⟩ := bind_eq_ok.1 h
    cases h
    exact ⟨hd.setKind hmid, by rw [(setKind_ok hmid).2.1]⟩
  · cases h
    exact ⟨hd, rfl⟩

/-- An accepted edit keeps the invariant and the name. -/
theorem WF.edit (hd : d.WF) {edit : DimensionEdit} (h : d.edit edit = .ok d') :
    d'.WF ∧ d'.name = d.name := by
  cases edit with
  | reorder newOrder =>
    obtain ⟨⟨mid, toNew⟩, hmid, h⟩ := bind_eq_ok.1 h
    cases h
    exact ⟨hd.reorder hmid, by rw [(reorder_ok hmid).2.2]; rfl⟩
  | reparent child newParent weight =>
    obtain ⟨i, -, h⟩ := bind_eq_ok.1 h
    rcases newParent with _ | p
    · exact ⟨hd.reparent h, by rw [show d' = _ from (reparent_ok h).2]; rfl⟩
    · obtain ⟨j, -, h⟩ := bind_eq_ok.1 h
      obtain ⟨-, -, -, heq⟩ := reparent_ok h
      exact ⟨hd.reparent h, by rw [heq]; rfl⟩
  | addChild parent child weight =>
    simp only [Dimension.edit, bind_eq_ok] at h
    obtain ⟨p, -, k, -, kids, -, h⟩ := h
    split_ifs at h
    · cases h
      exact ⟨hd, rfl⟩
    · obtain ⟨mid, hmid, h⟩ := bind_eq_ok.1 h
      obtain ⟨hwf, hname⟩ := mirrorConsolidation_ok hd hmid
      exact ⟨hwf.addChild h, by rw [(addChild_ok h).2.2.2]; exact hname⟩
  | removeChild parent child =>
    simp only [Dimension.edit, bind_eq_ok] at h
    obtain ⟨p, -, k, -, h⟩ := h
    exact ⟨hd.removeChild h, by rw [removeChild_ok h]⟩
  | pinToTop element =>
    obtain ⟨i, -, h⟩ := bind_eq_ok.1 h
    exact ⟨hd.setPin h, by rw [(setPin_ok h).2]⟩
  | unpinFromTop element =>
    obtain ⟨i, -, h⟩ := bind_eq_ok.1 h
    exact ⟨hd.setPin h, by rw [(setPin_ok h).2]⟩
  | setKind element kind =>
    simp only [Dimension.edit, bind_eq_ok] at h
    obtain ⟨i, -, ⟨mid, prev⟩, hmid, h⟩ := h
    cases h
    exact ⟨hd.setKind hmid, by rw [(setKind_ok hmid).2.1]⟩
  | delete element =>
    simp only [Dimension.edit, bind_eq_ok] at h
    obtain ⟨i, -, ⟨mid, toNew⟩, hmid, h⟩ := h
    cases h
    exact ⟨hd.delete hmid, by rw [(delete_ok hmid).2.2.2]; rfl⟩
  | insert name kind position =>
    simp only [Dimension.edit, bind_eq_ok] at h
    obtain ⟨i, -, ⟨mid, toNew⟩, hmid, h⟩ := h
    cases h
    exact ⟨hd.insertAt hmid, by rw [(insertAt_ok hmid).2.2]; rfl⟩

end Dimension

end Epiphany
