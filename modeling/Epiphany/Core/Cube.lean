import Epiphany.Core.CellStore
import Epiphany.Core.Structural
/-!
# Cubes — dimensions, the two cell stores, and the edits on them

A cube holds numeric cells and interned string cells in separate stores
over one layout. A method that stages on a clone and swaps it in returns
the cube it swaps in; refused, it returns the error and the caller keeps
the cube it had. `CubeOp` collects the mutators, and `Cube.apply` is a call
of one, accepted or refused.
-/

namespace Epiphany

/-! ## The string pool -/

/-- Interned strings: by id in insertion order, and the reverse index. -/
structure StringPool where
  byId : List String
  ids : FinMap String Nat
deriving DecidableEq

namespace StringPool

def empty : StringPool := ⟨[], ∅⟩

def intern (p : StringPool) (value : String) : StringPool × Nat :=
  match p.ids[value]? with
  | some id => (p, id)
  | none => (⟨p.byId ++ [value], p.ids.insert value p.byId.length⟩, p.byId.length)

def get (p : StringPool) (id : Nat) : String := p.byId.getD id ""

/-- Keep one live id: the next new id is its own, and the remap records it.
A dropped id keeps its `none`. -/
def compactStep (old : StringPool) (live : List Nat) (st : StringPool × List (Option Nat))
    (id : Nat) : StringPool × List (Option Nat) :=
  if id ∈ live then
    (⟨st.1.byId ++ [old.get id], st.1.ids.insert (old.get id) st.1.byId.length⟩,
      st.2 ++ [some st.1.byId.length])
  else (st.1, st.2 ++ [none])

/-- The pool of the live ids in ascending order, and the remap of the old. -/
def compact (p : StringPool) (live : List Nat) : StringPool × List (Option Nat) :=
  (List.range p.byId.length).foldl (p.compactStep live) (empty, [])

end StringPool

/-! ## Data -/

structure Cube where
  name : String
  dimensions : List Dimension
  layout : Layout
  cells : CellStore Fixed
  stringCells : CellStore Nat
  stringPool : StringPool

/-- A request to add one element to a dimension. -/
structure ElementSpec where
  dimension : String
  name : String
  kind : ElementKind
deriving DecidableEq

/-- A request to add one weighted edge to a dimension. -/
structure EdgeSpec where
  dimension : String
  parent : String
  child : String
  weight : Int
deriving DecidableEq

/-- Where to insert an element. -/
inductive Position where
  | atEnd
  | before (anchor : String)
  | after (anchor : String)
deriving DecidableEq

/-- What a new dimension is built from; it carries no pins. -/
structure DimensionDef where
  name : String
  elements : List (String × ElementKind)
  edges : List (String × String × Int)
  attributes : List (String × AttributeKind)
  attributeValues : List (String × String × AttributeValue)
deriving DecidableEq

namespace Cube

/-- A cube over pre-built dimensions, without cells. -/
def new (name : String) (dimensions : List Dimension) : Except ModelError Cube :=
  if dimensions.isEmpty then .error .emptyCube
  else
    .ok
      { name, dimensions
        layout := Layout.new dimensions
        cells := CellStore.new (Layout.new dimensions).narrow
        stringCells := CellStore.new (Layout.new dimensions).narrow
        stringPool := StringPool.empty }

variable (c : Cube)

def rank : Nat := c.dimensions.length

/-- The position of a dimension by name. -/
def findDimension (cube : String) (dims : List Dimension) (name : String) :
    Except ModelError Nat :=
  okOr (dims.findIdx? fun d => d.name = name) (.unknownDimension cube name)

def dimensionIndex (name : String) : Except ModelError Nat :=
  findDimension c.name c.dimensions name

/-- The dimension at a position that `dimensionIndex` gave. -/
def dimension (i : Nat) : Dimension := c.dimensions.getD i (Dimension.new "")

/-- An element's index by name, or the error a cube reports. -/
def findElement (dim : Dimension) (dimension name : String) : Except ModelError Nat :=
  okOr (dim.indexOf name) (.elementNotFound dimension name)

def setDimension (d : Nat) (dim : Dimension) : Cube :=
  { c with dimensions := c.dimensions.set d dim }

/-! ## Rewriting the stores -/

/-- Rebuild the selected stores under a new layout, each coordinate through
`transform`; the other store keeps its keys. -/
def rebuildStores (newLayout : Layout) (numeric strings : Bool)
    (transform : Coord → Option Coord) : Cube :=
  { c with
    cells := if numeric then c.cells.rebuild c.layout c.rank newLayout transform else c.cells
    stringCells :=
      if strings then c.stringCells.rebuild c.layout c.rank newLayout transform
      else c.stringCells
    layout := newLayout }

/-- A coordinate with its component for `d` renumbered; `none` when that
element was removed. -/
def remapCoord (d : Nat) (toNew : Renumbering) (coord : Coord) : Option Coord :=
  (coord[d]?.bind (Dimension.moved toNew)).map fun i => coord.set d i

def remapCellsForDimension (d : Nat) (toNew : Renumbering) : Cube :=
  c.rebuildStores (Layout.new c.dimensions) true true (remapCoord d toNew)

/-- Re-pack the cells if a dimension's width grew. -/
def relayout : Cube :=
  let newLayout := Layout.new c.dimensions
  if newLayout = c.layout then c else c.rebuildStores newLayout true true some

/-- Drop the cells of an element from the selected stores. -/
def dropCellsForElement (d element : Nat) (numeric strings : Bool) : Cube :=
  c.rebuildStores c.layout numeric strings fun coord =>
    if coord[d]? = some element then none else some coord

/-- Whether a component other than `d` is a string element. -/
def otherString (d : Nat) (coord : Coord) : Bool :=
  (coord.zip c.dimensions).zipIdx.any fun x =>
    x.2 ≠ d ∧ x.1.2.kindAt x.1.1 = some .string

/-- Drop the string cells for which an element was the sole string. -/
def dropSoleStringCells (d element : Nat) : Cube :=
  c.rebuildStores c.layout false true fun coord =>
    if coord[d]? ≠ some element ∨ c.otherString d coord = true then some coord else none

/-- Drop the cells that a change of kind invalidated. -/
def retypeCellsForKind (d element : Nat) (previous kind : ElementKind) : Cube :=
  match previous, kind with
  | .leaf, .string => c.dropCellsForElement d element true false
  | .string, .leaf => c.dropSoleStringCells d element
  | .leaf, .consolidated => c.dropCellsForElement d element true true
  | .string, .consolidated => c.dropCellsForElement d element true true
  | _, _ => c

/-! ## Growth -/

/-- Add one element to a dimension, refused on a conflicting kind; with
whether the element is new. -/
def growElement (dim : Dimension) (spec : ElementSpec) : Except ModelError (Dimension × Nat) :=
  match dim.indexOf spec.name with
  | some existing => do
    let el ← dim.element existing
    if el.kind ≠ spec.kind then .error (.elementKindConflict spec.dimension spec.name)
    else .ok (dim, 0)
  | none => .ok (dim.addElement spec.name spec.kind, 1)

def growElements (cube : String) (dims : List Dimension) (added : Nat) :
    List ElementSpec → Except ModelError (List Dimension × Nat)
  | [] => .ok (dims, added)
  | spec :: rest => do
    let d ← findDimension cube dims spec.dimension
    let (dim, n) ← growElement (dims.getD d (Dimension.new "")) spec
    growElements cube (dims.set d dim) (added + n) rest

/-- Add one edge to a dimension: nothing to do for an edge that is there,
refused on a conflicting weight. -/
def growEdge (dim : Dimension) (spec : EdgeSpec) : Except ModelError Dimension := do
  let parent ← findElement dim spec.dimension spec.parent
  let child ← findElement dim spec.dimension spec.child
  match ← dim.childWeight parent child with
  | some w =>
    if w ≠ spec.weight then
      .error (.edgeWeightConflict spec.dimension spec.parent spec.child)
    else .ok dim
  | none => dim.addChild parent child spec.weight

def growEdges (cube : String) (dims : List Dimension) :
    List EdgeSpec → Except ModelError (List Dimension)
  | [] => .ok dims
  | spec :: rest => do
    let d ← findDimension cube dims spec.dimension
    let dim ← growEdge (dims.getD d (Dimension.new "")) spec
    growEdges cube (dims.set d dim) rest

def applyGrowth (cube : String) (dims : List Dimension) (elements : List ElementSpec)
    (edges : List EdgeSpec) : Except ModelError (List Dimension × Nat) := do
  let (dims, added) ← growElements cube dims 0 elements
  let dims ← growEdges cube dims edges
  .ok (dims, added)

/-- Append elements and edges; with the number of new elements. -/
def extendSchema (elements : List ElementSpec) (edges : List EdgeSpec) :
    Except ModelError (Cube × Nat) := do
  let (dims, added) ← applyGrowth c.name c.dimensions elements edges
  .ok ({ c with dimensions := dims }.relayout, added)

def defineAttribute (dimension name : String) (kind : AttributeKind) :
    Except ModelError Cube := do
  let d ← c.dimensionIndex dimension
  let dim := c.dimension d
  match dim.attributeIndex name with
  | some existing =>
    if dim.attributeKind existing ≠ some kind then
      .error (.attributeKindConflict dimension name)
    else .ok c
  | none => .ok (c.setDimension d (dim.addAttribute name kind))

/-- Set attribute values one after the other, elements by name. -/
def setValues (dimension : String) (dim : Dimension) :
    List (String × String × AttributeValue) → Except ModelError Dimension
  | [] => .ok dim
  | (element, attr, value) :: rest => do
    let i ← findElement dim dimension element
    let dim ← dim.setAttribute i attr value
    setValues dimension dim rest

def setAttributeValues (dimension attr : String) (values : List (String × AttributeValue)) :
    Except ModelError Cube := do
  let d ← c.dimensionIndex dimension
  let dim ← setValues dimension (c.dimension d) (values.map fun v => (v.1, attr, v.2))
  .ok (c.setDimension d dim)

/-- Apply the attributes of one definition to the cube under construction. -/
def buildAttributes (c : Cube) (d : DimensionDef) : Except ModelError Cube := do
  let c ← d.attributes.foldlM (fun c a => c.defineAttribute d.name a.1 a.2) c
  if d.attributeValues.isEmpty then .ok c
  else
    let di ← c.dimensionIndex d.name
    let dim ← setValues d.name (c.dimension di) d.attributeValues
    .ok (c.setDimension di dim)

/-- The first dimension name that is declared before. -/
def duplicateName (seen : List String) : List DimensionDef → Option String
  | [] => none
  | d :: rest => if d.name ∈ seen then some d.name else duplicateName (d.name :: seen) rest

/-- Build a cube from dimension definitions: grown from empty dimensions by
the one path that validates elements and edges, then the attributes. -/
def build (name : String) (dims : List DimensionDef) : Except ModelError Cube := do
  if dims.isEmpty then .error .emptyCube
  else
    match duplicateName [] dims with
    | some n => .error (.duplicateDimension n)
    | none =>
      let c ← Cube.new name (dims.map fun d => Dimension.new d.name)
      let elements := dims.flatMap fun d => d.elements.map fun e => ⟨d.name, e.1, e.2⟩
      let edges := dims.flatMap fun d => d.edges.map fun e => ⟨d.name, e.1, e.2.1, e.2.2⟩
      let (c, _) ← c.extendSchema elements edges
      dims.foldlM buildAttributes c

/-! ## Structural edits -/

def reorderElements (dimension : String) (newOrder : List String) :
    Except ModelError Cube := do
  let d ← c.dimensionIndex dimension
  let (dim, toNew) ← (c.dimension d).reorder newOrder
  .ok ((c.setDimension d dim).remapCellsForDimension d toNew)

/-- Whether an element holds cells of its own. -/
def isLeafAt (dim : Dimension) (element : Nat) : Except ModelError Bool := do
  let el ← dim.element element
  .ok el.kind.isLeaf

def reparentElement (dimension child : String) (newParent : Option String) (weight : Int) :
    Except ModelError Cube := do
  let d ← c.dimensionIndex dimension
  let dim := c.dimension d
  let childIdx ← findElement dim dimension child
  match newParent with
  | none =>
    let dim ← dim.reparent childIdx none weight
    .ok (c.setDimension d dim)
  | some p =>
    let parentIdx ← findElement dim dimension p
    let parentWasLeaf ← isLeafAt dim parentIdx
    let dim ← dim.reparent childIdx (some parentIdx) weight
    let next := c.setDimension d dim
    .ok (if parentWasLeaf then next.dropCellsForElement d parentIdx true true else next)

/-- A leaf that gains a child becomes a consolidation. -/
def consolidateParent (dim : Dimension) (parent : Nat) (wasLeaf : Bool) :
    Except ModelError Dimension :=
  if wasLeaf then do
    let (dim, _) ← dim.setKind parent .consolidated
    .ok dim
  else .ok dim

/-- Add an edge keeping the child's others; an edge that is there is a
no-op. A leaf parent becomes a consolidation and loses its own cells. -/
def addChildElement (dimension parent child : String) (weight : Int) :
    Except ModelError Cube := do
  let d ← c.dimensionIndex dimension
  let dim := c.dimension d
  let parentIdx ← findElement dim dimension parent
  let childIdx ← findElement dim dimension child
  if childIdx ∈ (← dim.childrenOf parentIdx) then .ok c
  else
    let parentWasLeaf ← isLeafAt dim parentIdx
    let dim ← consolidateParent dim parentIdx parentWasLeaf
    let dim ← dim.addChild parentIdx childIdx weight
    let next := c.setDimension d dim
    .ok (if parentWasLeaf then next.dropCellsForElement d parentIdx true true else next)

def removeChildElement (dimension parent child : String) : Except ModelError Cube := do
  let d ← c.dimensionIndex dimension
  let dim := c.dimension d
  let parentIdx ← findElement dim dimension parent
  let childIdx ← findElement dim dimension child
  let dim ← dim.removeChild parentIdx childIdx
  .ok (c.setDimension d dim)

def setElementPin (dimension element : String) (pinned : Bool) : Except ModelError Cube := do
  let d ← c.dimensionIndex dimension
  let elementIdx ← findElement (c.dimension d) dimension element
  let dim ← (c.dimension d).setPin elementIdx pinned
  .ok (c.setDimension d dim)

def pinElementToTop (dimension element : String) : Except ModelError Cube :=
  c.setElementPin dimension element true

def unpinElementFromTop (dimension element : String) : Except ModelError Cube :=
  c.setElementPin dimension element false

def setElementKind (dimension element : String) (kind : ElementKind) :
    Except ModelError Cube := do
  let d ← c.dimensionIndex dimension
  let elementIdx ← findElement (c.dimension d) dimension element
  let (dim, previous) ← (c.dimension d).setKind elementIdx kind
  .ok ((c.setDimension d dim).retypeCellsForKind d elementIdx previous kind)

def deleteElement (dimension element : String) : Except ModelError Cube := do
  let d ← c.dimensionIndex dimension
  let elementIdx ← findElement (c.dimension d) dimension element
  let (dim, toNew) ← (c.dimension d).delete elementIdx
  .ok ((c.setDimension d dim).remapCellsForDimension d toNew)

/-- The index a position names. -/
def insertIndex (dim : Dimension) (dimension : String) : Position → Except ModelError Nat
  | .atEnd => .ok dim.len
  | .before anchor => findElement dim dimension anchor
  | .after anchor => do
    let i ← findElement dim dimension anchor
    .ok (i + 1)

def insertElementAt (dimension name : String) (kind : ElementKind) (position : Position) :
    Except ModelError Cube := do
  let d ← c.dimensionIndex dimension
  let index ← insertIndex (c.dimension d) dimension position
  let (dim, toNew) ← (c.dimension d).insertAt name kind index
  .ok ((c.setDimension d dim).remapCellsForDimension d toNew)

/-- Drop the strings no cell references, and renumber the ids of the rest. -/
def compactStringPool : Cube :=
  let live := ((c.stringCells.entries c.layout c.rank).map Prod.snd).dedup
  if live.length = c.stringPool.byId.length then c
  else
    let (pool, remap) := c.stringPool.compact live
    { c with
      stringPool := pool
      stringCells := (CellStore.new c.layout.narrow).putAll c.layout
        ((c.stringCells.entries c.layout c.rank).map fun e =>
          (e.1, (remap[e.2]?.join).getD 0)) }

/-! ## Cell writes and reads -/

def checkCoord (coord : Coord) : Except ModelError Unit :=
  if coord.length ≠ c.rank then .error (.rankMismatch c.rank coord.length)
  else (coord.zip c.dimensions).forM fun x => do
    let _ ← x.2.element x.1
    .ok ()

/-- One component of a numeric write: it must be a numeric leaf. -/
def checkLeafComponent (dim : Dimension) (i : Nat) : Except ModelError Unit := do
  let el ← dim.element i
  match el.kind with
  | .leaf => .ok ()
  | .string => .error (.cellTypeMismatch dim.name el.name)
  | .consolidated => .error (.writeToNonLeaf dim.name el.name)

def checkLeafWrite (coord : Coord) : Except ModelError Unit := do
  c.checkCoord coord
  (coord.zip c.dimensions).forM fun x => checkLeafComponent x.2 x.1

/-- Write a number to a leaf cell; zero clears it. -/
def setLeaf (coord : Coord) (value : Fixed) : Except ModelError Cube := do
  c.checkLeafWrite coord
  .ok { c with
    cells :=
      if value.isZero then c.cells.clear c.layout coord else c.cells.put c.layout coord value }

/-- One component of a string write: a leaf; whether it is a string one. -/
def checkStringComponent (dim : Dimension) (i : Nat) : Except ModelError Bool := do
  let el ← dim.element i
  match el.kind with
  | .string => .ok true
  | .leaf => .ok false
  | .consolidated => .error (.writeToNonLeaf dim.name el.name)

def checkStringWrite (coord : Coord) : Except ModelError Unit := do
  c.checkCoord coord
  let flags ← (coord.zip c.dimensions).mapM fun x => checkStringComponent x.2 x.1
  if true ∈ flags then .ok () else .error (.stringCellRequiresStringElement c.name)

/-- Write text to a string cell; the empty string clears it. -/
def setString (coord : Coord) (value : String) : Except ModelError Cube := do
  c.checkStringWrite coord
  if value = "" then
    .ok { c with stringCells := c.stringCells.clear c.layout coord }
  else
    let (pool, id) := c.stringPool.intern value
    .ok { c with stringPool := pool, stringCells := c.stringCells.put c.layout coord id }

/-- The stored number, zero where there is none. -/
def leafValue (coord : Coord) : Fixed := (c.cells.get c.layout coord).getD Fixed.zero

def getLeaf (coord : Coord) : Except ModelError Fixed := do
  c.checkCoord coord
  .ok (c.leafValue coord)

def getString (coord : Coord) : Except ModelError (Option String) := do
  c.checkCoord coord
  .ok ((c.stringCells.get c.layout coord).map c.stringPool.get)

/-- The populated numeric cells. -/
def cellEntries : List (Coord × Fixed) := c.cells.entries c.layout c.rank

/-- The populated string cells with their text. -/
def stringCellEntries : List (Coord × String) :=
  (c.stringCells.entries c.layout c.rank).map fun e => (e.1, c.stringPool.get e.2)

/-- Whether every component is a numeric leaf. -/
def allNumericLeaf (coord : Coord) : Bool :=
  (coord.zip c.dimensions).all fun x => x.2.kindAt x.1 = some .leaf

/-- The combined weight of a cell, or `none` when a component is not under
the queried element. -/
def cellWeight : List (FinMap Nat Int) → Coord → I128 → Option I128
  | [], _, weight => some weight
  | _ :: _, [], _ => none
  | weights :: perDim, i :: coord, weight =>
    match weights[i]? with
    | some w => cellWeight perDim coord (weight * BitVec.ofInt 128 w)
    | none => none

/-- Per dimension, the weighted leaves under the queried element. -/
def perDimension (coord : Coord) : Except ModelError (List (List (Nat × Int))) :=
  (coord.zip c.dimensions).mapM fun x => x.2.leafWeights x.1

/-- Narrow a rollup to a value. -/
def narrow (acc : I128) : Except ModelError Fixed := okOr (Fixed.tryFrom acc.toInt) .overflow

/-- Read a value at any coordinate: a stored cell at numeric leaves, and
otherwise the weighted sum of the stored cells under it. -/
def get (coord : Coord) : Except ModelError Fixed := do
  c.checkCoord coord
  if c.allNumericLeaf coord then .ok (c.leafValue coord)
  else
    let perDim ← c.perDimension coord
    let weights := perDim.map FinMap.collect
    narrow ((c.cellEntries.filterMap fun e =>
      (cellWeight weights e.1 1).map fun w => w * e.2.toI128).sum)

end Cube

/-! ## Calls of the mutators -/

/-- A call of a mutator of a cube. -/
inductive CubeOp where
  | setLeaf (coord : Coord) (value : Fixed)
  | setString (coord : Coord) (value : String)
  | extendSchema (elements : List ElementSpec) (edges : List EdgeSpec)
  | defineAttribute (dimension name : String) (kind : AttributeKind)
  | setAttributeValues (dimension attr : String) (values : List (String × AttributeValue))
  | reorderElements (dimension : String) (newOrder : List String)
  | reparentElement (dimension child : String) (newParent : Option String) (weight : Int)
  | addChildElement (dimension parent child : String) (weight : Int)
  | removeChildElement (dimension parent child : String)
  | setElementPin (dimension element : String) (pinned : Bool)
  | setElementKind (dimension element : String) (kind : ElementKind)
  | deleteElement (dimension element : String)
  | insertElementAt (dimension name : String) (kind : ElementKind) (position : Position)
  | compactStringPool

namespace Cube

/-- The cube an accepted call swaps in. -/
def run (c : Cube) : CubeOp → Except ModelError Cube
  | .setLeaf coord value => c.setLeaf coord value
  | .setString coord value => c.setString coord value
  | .extendSchema elements edges => do
    let (next, _) ← c.extendSchema elements edges
    .ok next
  | .defineAttribute dimension name kind => c.defineAttribute dimension name kind
  | .setAttributeValues dimension attr values => c.setAttributeValues dimension attr values
  | .reorderElements dimension newOrder => c.reorderElements dimension newOrder
  | .reparentElement dimension child newParent weight =>
    c.reparentElement dimension child newParent weight
  | .addChildElement dimension parent child weight =>
    c.addChildElement dimension parent child weight
  | .removeChildElement dimension parent child => c.removeChildElement dimension parent child
  | .setElementPin dimension element pinned => c.setElementPin dimension element pinned
  | .setElementKind dimension element kind => c.setElementKind dimension element kind
  | .deleteElement dimension element => c.deleteElement dimension element
  | .insertElementAt dimension name kind position =>
    c.insertElementAt dimension name kind position
  | .compactStringPool => .ok c.compactStringPool

/-- A call, accepted or refused. -/
def apply (c : Cube) (op : CubeOp) : Cube :=
  match c.run op with
  | .ok next => next
  | .error _ => c

end Cube

end Epiphany
