import Epiphany.Common.FinMap
import Epiphany.Core.Value
/-!
# Dimensions — elements, attributes, and the consolidation hierarchy

A dimension is an ordered list of elements with the indexes kept beside it:
a name index, the weighted child edges of each element, the attribute
values of each element and the reverse index of aliases. An element index
is a natural number; the `u32::MAX` that marks a removed element in a
renumbering is `none` here.
-/

namespace Epiphany

/-! ## Data -/

inductive ElementKind where
  /-- A numeric leaf: holds a number and rolls up. -/
  | leaf
  /-- A string leaf: holds text and never aggregates. -/
  | string
  /-- Computed by rolling up children. -/
  | consolidated
deriving DecidableEq

namespace ElementKind

def isLeaf : ElementKind → Bool
  | leaf | string => true
  | consolidated => false

def isString : ElementKind → Bool
  | string => true
  | leaf | consolidated => false

end ElementKind

structure Element where
  name : String
  kind : ElementKind
  /-- Shown as a display root even when it has parents. -/
  pinnedToTop : Bool
deriving DecidableEq

inductive AttributeKind where
  | text
  | numeric
  /-- An alternate name that also resolves to its element. -/
  | alias
deriving DecidableEq

inductive AttributeValue where
  | text (s : String)
  | numeric (v : Fixed)
deriving DecidableEq

structure AttributeDef where
  name : String
  kind : AttributeKind
deriving DecidableEq

/-- A weighted edge to a child. -/
structure Edge where
  child : Nat
  weight : Int
deriving DecidableEq

/-- An old index to new index map; `none` for a removed element. -/
abbrev Renumbering := List (Option Nat)

structure Dimension where
  name : String
  elements : List Element
  indexByName : FinMap String Nat
  /-- The child edges of each element, in declaration order. -/
  children : List (List Edge)
  attributes : List AttributeDef
  attrIndexByName : FinMap String Nat
  /-- The attribute values of each element, by attribute index. -/
  attrValues : List (FinMap Nat AttributeValue)
  aliasToElement : FinMap String Nat
deriving DecidableEq

namespace Dimension

/-! ## Reads -/

def new (name : String) : Dimension where
  name := name
  elements := []
  indexByName := ∅
  children := []
  attributes := []
  attrIndexByName := ∅
  attrValues := []
  aliasToElement := ∅

variable (d : Dimension)

def len : Nat := d.elements.length

def element (index : Nat) : Except ModelError Element :=
  okOr d.elements[index]? (.elementIndexOutOfRange d.name index d.len)

def indexOf (name : String) : Option Nat := d.indexByName[name]?

/-- The child edges of an element; none for a leaf. -/
def edgesOf (element : Nat) : List Edge := d.children.getD element []

def childEdges (element : Nat) : Except ModelError (List Edge) := do
  let _ ← d.element element
  .ok (d.edgesOf element)

def childrenOf (element : Nat) : Except ModelError (List Nat) := do
  let _ ← d.element element
  .ok ((d.edgesOf element).map Edge.child)

/-- The weight of the edge from `parent` to `child`, if there is one. -/
def childWeight (parent child : Nat) : Except ModelError (Option Int) := do
  let _ ← d.element parent
  let _ ← d.element child
  .ok (((d.edgesOf parent).find? fun e => e.child = child).map Edge.weight)

def attributeIndex (name : String) : Option Nat := d.attrIndexByName[name]?

/-- The kind of the attribute at an index the name index gave. -/
def attributeKind (index : Nat) : Option AttributeKind :=
  d.attributes[index]?.map AttributeDef.kind

/-- The attribute values set on an element. -/
def valuesOf (element : Nat) : FinMap Nat AttributeValue := d.attrValues.getD element ∅

/-- An element's value for an attribute, if set. -/
def attributeOf (element : Nat) (attr : String) : Option AttributeValue :=
  (d.attributeIndex attr).bind fun i => (d.valuesOf element)[i]?

/-- Resolve a name: an element's name first, then an alias. -/
def resolve (name : String) : Option Nat := d.indexOf name <|> d.aliasToElement[name]?

def edgeCount : Nat := (d.children.map List.length).sum

/-- One pop of the search: found, seen before, or its edges pushed. The
fuel is for every edge and the start. -/
def reachesLoop (target : Nat) : Nat → List Nat → List Nat → Bool
  | 0, _, _ => false
  | _ + 1, [], _ => false
  | n + 1, node :: stack, seen =>
    if node = target then true
    else if node ∈ seen then reachesLoop target n stack seen
    else reachesLoop target n (((d.edgesOf node).map Edge.child).reverse ++ stack) (node :: seen)

/-- Whether `start` reaches `target` by following child edges. -/
def reaches (start target : Nat) : Bool :=
  d.reachesLoop target (d.edgeCount + 1) [start] []

/-- The breadth-first expansion: a node is taken with the weight of the
path that reached it first, and only numeric leaves are recorded. -/
def leafWeightsLoop : Nat → List (Nat × Int) → List Nat → FinMap Nat Int → FinMap Nat Int
  | 0, _, _, acc => acc
  | _ + 1, [], _, acc => acc
  | n + 1, (node, weight) :: queue, visited, acc =>
    if node ∈ visited then leafWeightsLoop n queue visited acc
    else
      match d.elements[node]?.map Element.kind with
      | some .leaf => leafWeightsLoop n queue (node :: visited) (acc.insert node weight)
      | some .consolidated =>
        leafWeightsLoop n
          (queue ++ (d.edgesOf node).map fun e => (e.child, saturatingMul weight e.weight))
          (node :: visited) acc
      | _ => leafWeightsLoop n queue (node :: visited) acc

/-- The numeric leaves under an element, each once with the weight of its
most direct path, in index order and without the zero weights. -/
def leafWeights (element : Nat) : Except ModelError (List (Nat × Int)) := do
  let _ ← d.element element
  let acc := d.leafWeightsLoop (d.edgeCount + 1) [(element, 1)] [] ∅
  .ok (acc.toList.filter fun e => e.2 ≠ 0)

/-! ## Growth -/

def addAttribute (name : String) (kind : AttributeKind) : Dimension :=
  match d.attrIndexByName[name]? with
  | some _ => d
  | none =>
    { d with
      attrIndexByName := d.attrIndexByName.insert name d.attributes.length
      attributes := d.attributes ++ [⟨name, kind⟩] }

/-- Whether a value's type is the one its attribute's kind takes. -/
def typeOk : AttributeKind → AttributeValue → Bool
  | .numeric, .numeric _ => true
  | .text, .text _ => true
  | .alias, .text _ => true
  | _, _ => false

/-- Whether another alias attribute of the element holds the text `prev`. -/
def stillHeld (element attrIndex : Nat) (prev : String) : Bool :=
  (d.valuesOf element).toList.any fun e =>
    e.1 ≠ attrIndex ∧ d.attributeKind e.1 = some .alias ∧ e.2 = .text prev

/-- The reverse index after `element` takes the alias `text`: refused when
another element owns it, and without the alias it replaces. -/
def claimAlias (element attrIndex : Nat) (text : String) :
    Except ModelError (FinMap String Nat) :=
  if d.aliasToElement[text]?.any (· ≠ element) then .error (.aliasConflict d.name text)
  else
    let released :=
      match (d.valuesOf element)[attrIndex]? with
      | some (.text prev) =>
        if prev ≠ text ∧ d.aliasToElement[prev]? = some element ∧
            d.stillHeld element attrIndex prev = false then
          d.aliasToElement.erase prev
        else d.aliasToElement
      | _ => d.aliasToElement
    .ok (released.insert text element)

/-- The reverse index of aliases after a value is set. -/
def aliasesAfter (element attrIndex : Nat) (kind : AttributeKind) (value : AttributeValue) :
    Except ModelError (FinMap String Nat) :=
  match kind, value with
  | .alias, .text text => d.claimAlias element attrIndex text
  | _, _ => .ok d.aliasToElement

def setAttribute (element : Nat) (attr : String) (value : AttributeValue) :
    Except ModelError Dimension := do
  let _ ← d.element element
  let attrIndex ← okOr (d.attributeIndex attr) (.attributeNotFound d.name attr)
  let kind ← okOr (d.attributeKind attrIndex) (.attributeNotFound d.name attr)
  if typeOk kind value = false then .error (.attributeTypeMismatch d.name attr)
  else
    let aliases ← d.aliasesAfter element attrIndex kind value
    .ok { d with
      aliasToElement := aliases
      attrValues := d.attrValues.modify element (·.insert attrIndex value) }

/-- Append an element; re-adding a name changes nothing. -/
def addElement (name : String) (kind : ElementKind) : Dimension :=
  match d.indexByName[name]? with
  | some _ => d
  | none =>
    { d with
      indexByName := d.indexByName.insert name d.elements.length
      elements := d.elements ++ [⟨name, kind, false⟩]
      children := d.children ++ [[]]
      attrValues := d.attrValues ++ [∅] }

/-- Add a child edge, refused when it would close a cycle. -/
def addChild (parent child : Nat) (weight : Int) : Except ModelError Dimension := do
  let childEl ← d.element child
  let parentEl ← d.element parent
  if parentEl.kind ≠ .consolidated then
    .error (.parentNotConsolidated d.name parentEl.name)
  else if child = parent ∨ d.reaches child parent = true then
    .error (.cycleDetected d.name parentEl.name childEl.name)
  else .ok { d with children := d.children.modify parent (· ++ [⟨child, weight⟩]) }

def removeChild (parent child : Nat) : Except ModelError Dimension := do
  let _ ← d.element child
  let _ ← d.element parent
  .ok { d with children := d.children.modify parent (·.filter fun e => e.child ≠ child) }

/-- Set or clear the pin of an element. -/
def setPin (element : Nat) (pinned : Bool) : Except ModelError Dimension := do
  let _ ← d.element element
  .ok { d with elements := d.elements.modify element fun e => { e with pinnedToTop := pinned } }

def pinToTop (element : Nat) : Except ModelError Dimension := d.setPin element true

def unpinFromTop (element : Nat) : Except ModelError Dimension := d.setPin element false

/-! ## Structural edits -/

/-- The aliases an element holds. -/
def aliasesOf (attributes : List AttributeDef) (values : FinMap Nat AttributeValue) :
    List String :=
  values.toList.filterMap fun e =>
    match attributes[e.1]?.map AttributeDef.kind, e.2 with
    | some .alias, .text text => some text
    | _, _ => none

/-- Rebuild the name and alias indexes from the elements and their values. -/
def reindexNames : Dimension :=
  { d with
    indexByName := FinMap.collect (d.elements.zipIdx.map fun e => (e.1.name, e.2))
    aliasToElement := FinMap.collect (d.attrValues.zipIdx.flatMap fun v =>
      (aliasesOf d.attributes v.1).map fun text => (text, v.2)) }

/-- Write an item at its new position. -/
def place {α : Type} (out : List (Option α)) (x : α × Option Nat) : List (Option α) :=
  match x.2 with
  | some new => out.set new (some x.1)
  | none => out

/-- Place the items of a list at their new positions. -/
def scatter {α : Type} (toNew : Renumbering) (xs : List α) : List α :=
  ((xs.zip toNew).foldl place (List.replicate xs.length none)).reduceOption

/-- The new position of an index that is kept. -/
def newIndex (toNew : Renumbering) (i : Nat) : Nat := (toNew[i]?.join).getD 0

/-- Renumber the child of an edge. -/
def renumberEdge (toNew : Renumbering) (e : Edge) : Edge :=
  { e with child := newIndex toNew e.child }

def applyPermutation (toNew : Renumbering) : Dimension :=
  reindexNames { d with
    elements := scatter toNew d.elements
    attrValues := scatter toNew d.attrValues
    children := scatter toNew (d.children.map (·.map (renumberEdge toNew))) }

/-- The renumbering of a new order, refused on an unknown or repeated name.
A position already filled is a name already seen. -/
def reorderLoop : List String → Nat → Renumbering → Except ModelError Renumbering
  | [], _, toNew => .ok toNew
  | name :: rest, newPos, toNew => do
    let old ← okOr (d.indexOf name) (.invalidReorder d.name)
    if toNew[old]?.join.isSome then .error (.invalidReorder d.name)
    else reorderLoop rest (newPos + 1) (toNew.set old (some newPos))

def reorder (newOrder : List String) : Except ModelError (Dimension × Renumbering) :=
  if newOrder.length ≠ d.elements.length then .error (.invalidReorder d.name)
  else do
    let toNew ← d.reorderLoop newOrder 0 (List.replicate d.elements.length none)
    .ok (d.applyPermutation toNew, toNew)

/-- Refuse a parent that is the child itself, or that the child reaches. -/
def checkParent (child parent : Nat) : Except ModelError Unit := do
  let parentEl ← d.element parent
  let childEl ← d.element child
  if parent = child then .error (.selfParent d.name childEl.name)
  else if d.reaches child parent = true then
    .error (.cycleDetected d.name parentEl.name childEl.name)
  else .ok ()

/-- Remove every edge to `child`. -/
def detach (child : Nat) : Dimension :=
  { d with children := d.children.map (·.filter fun e => e.child ≠ child) }

/-- Make an element a consolidation. -/
def promote (element : Nat) : Dimension :=
  { d with elements := d.elements.modify element fun e => { e with kind := .consolidated } }

def reparent (child : Nat) (newParent : Option Nat) (weight : Int) :
    Except ModelError Dimension := do
  let _ ← d.element child
  match newParent with
  | none => .ok (d.detach child)
  | some parent =>
    d.checkParent child parent
    let next := (d.detach child).promote parent
    .ok { next with children := next.children.modify parent (· ++ [⟨child, weight⟩]) }

/-- Change an element's kind, returning the previous one. -/
def setKind (element : Nat) (kind : ElementKind) :
    Except ModelError (Dimension × ElementKind) := do
  let el ← d.element element
  if el.kind = kind then .ok (d, el.kind)
  else if el.kind = .consolidated ∧ d.edgesOf element ≠ [] then
    .error (.consolidationHasChildren d.name el.name)
  else
    .ok ({ d with elements := d.elements.modify element fun e => { e with kind := kind } },
      el.kind)

/-- The renumbering of a deletion: later elements shift down by one. -/
def deleteMap (n element : Nat) : Renumbering :=
  (List.range n).map fun old =>
    if old < element then some old else if old = element then none else some (old - 1)

def delete (element : Nat) : Except ModelError (Dimension × Renumbering) := do
  let el ← d.element element
  if d.edgesOf element ≠ [] then .error (.consolidationHasChildren d.name el.name)
  else
    let toNew := deleteMap d.elements.length element
    .ok (reindexNames { d with
      elements := d.elements.eraseIdx element
      attrValues := d.attrValues.eraseIdx element
      children := (d.children.eraseIdx element).map fun edges =>
        (edges.filter fun e => e.child ≠ element).map (renumberEdge toNew) }, toNew)

/-- The renumbering of an insertion: elements from the position on shift up
by one. -/
def insertMap (n position : Nat) : Renumbering :=
  (List.range n).map fun old => if old < position then some old else some (old + 1)

def insertAt (name : String) (kind : ElementKind) (position : Nat) :
    Except ModelError (Dimension × Renumbering) :=
  if (d.indexByName[name]?).isSome then .error (.duplicateElement d.name name)
  else
    let position := min position d.elements.length
    let toNew := insertMap d.elements.length position
    .ok (reindexNames { d with
      elements := d.elements.insertIdx position ⟨name, kind, false⟩
      attrValues := d.attrValues.insertIdx position ∅
      children := (d.children.insertIdx position []).map (·.map (renumberEdge toNew)) }, toNew)

/-! ## Edges -/

/-- The edges as parent, child and weight, sorted by parent and child. -/
def edges : List (Nat × Nat × Int) :=
  ((List.range d.len).flatMap fun parent =>
    (d.edgesOf parent).map fun e => (parent, e.child, e.weight)).mergeSort
      fun a b => decide (a.1 < b.1 ∨ a.1 = b.1 ∧ a.2.1 ≤ b.2.1)

variable {d}

theorem mem_edges_iff {e : Nat × Nat × Int} :
    e ∈ d.edges ↔ e.1 < d.len ∧ (⟨e.2.1, e.2.2⟩ : Edge) ∈ d.edgesOf e.1 := by
  unfold edges
  rw [List.mem_mergeSort, List.mem_flatMap]
  constructor
  · rintro ⟨parent, hparent, h⟩
    obtain ⟨edge, hedge, rfl⟩ := List.mem_map.1 h
    exact ⟨List.mem_range.1 hparent, hedge⟩
  · rintro ⟨hlt, h⟩
    exact ⟨e.1, List.mem_range.2 hlt, List.mem_map.2 ⟨_, h, rfl⟩⟩

theorem mem_edges {e : Nat × Nat × Int} (h : e ∈ d.edges) :
    e.1 < d.len ∧ ∃ edge ∈ d.edgesOf e.1, edge.child = e.2.1 :=
  ⟨(mem_edges_iff.1 h).1, _, (mem_edges_iff.1 h).2, rfl⟩

end Dimension

end Epiphany
