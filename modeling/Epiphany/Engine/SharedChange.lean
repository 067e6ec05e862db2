import Epiphany.Engine.SharedDimension
/-!
# Shared changes — the same change in the registry and in each cube

A growth or an edit runs different code on the two sides: the registry
changes a bare dimension, a cube also moves its cells. What it does to the
dimension is the same, refusals included (`dimensions_editDimension`,
`dimensions_extendSchema`), so a copy that equals the registry's dimension
before the change equals it after (`onCube_of_onDimension`).
-/

namespace Epiphany

/-! ## The two sides agree -/

namespace Cube

variable {c : Cube}

theorem dimensions_retype (d i : Nat) (previous kind : ElementKind) :
    (c.retypeCellsForKind d i previous kind).dimensions = c.dimensions := by
  cases previous <;> cases kind <;> rfl

/-- The element a name led to has a kind. -/
theorem isLeafAt_of_indexOf {dim : Dimension} (hd : dim.WF) {name : String} {i : Nat}
    (h : dim.indexByName[name]? = some i) :
    ∃ el, dim.elements[i]? = some el ∧ isLeafAt dim i = .ok el.kind.isLeaf := by
  obtain ⟨el, hel, -⟩ := Dimension.nameAt_eq_some.1 ((hd.index name i).1 h)
  exact ⟨el, hel, isLeafAt_eq_ok.2 ⟨el.kind, Dimension.kindAt_eq_some.2 ⟨el, hel, rfl⟩, rfl⟩⟩

theorem set_self {dims : List Dimension} {i : Nat} {d : Dimension} (h : dims[i]? = some d) :
    dims.set i d = dims := by
  obtain ⟨hi, rfl⟩ := List.getElem?_eq_some_iff.1 h
  exact List.set_getElem_self hi

/-- **An edit of a cube is the edit of its dimension**: the same refusal, or
the edited dimension in place of the old one. -/
theorem dimensions_editDimension (hc : c.WF) {name : String} {i : Nat}
    (hi : c.dimensionIndex name = .ok i) (edit : DimensionEdit) :
    (c.editDimension name edit).map Cube.dimensions =
      ((c.dimension i).edit edit).map (c.dimensions.set i) := by
  obtain ⟨hold, rfl⟩ := dimensionIndex_ok hi
  have hd := hc.dimension hold
  -- both look up the members in one order, so they refuse alike; then the dimensions agree
  cases edit with
  | reorder newOrder =>
    simp only [editDimension, DimensionEdit.op, run, reorderElements, hi, Dimension.edit, bind,
      Except.bind]
    rcases (c.dimension i).reorder newOrder with e | ⟨dim, toNew⟩ <;> rfl
  | reparent child newParent weight =>
    simp only [editDimension, DimensionEdit.op, run, reparentElement, hi, Dimension.edit, bind,
      Except.bind, Dimension.find]
    rcases findElement (c.dimension i) (c.dimension i).name child with e | k
    · rfl
    rcases newParent with _ | p
    · simp only []
      rcases (c.dimension i).reparent k none weight with e | dim <;> rfl
    · simp only []
      rcases hp : findElement (c.dimension i) (c.dimension i).name p with e | j
      · rfl
      obtain ⟨el, -, hleaf⟩ := isLeafAt_of_indexOf hd (findElement_eq_ok.1 hp)
      simp only [hleaf]
      rcases (c.dimension i).reparent k (some j) weight with e | dim
      · rfl
      · cases el.kind.isLeaf <;> rfl
  | addChild parent child weight =>
    simp only [editDimension, DimensionEdit.op, run, addChildElement, hi, Dimension.edit, bind,
      Except.bind, Dimension.find]
    rcases hp : findElement (c.dimension i) (c.dimension i).name parent with e | j
    · rfl
    rcases findElement (c.dimension i) (c.dimension i).name child with e | k
    · rfl
    obtain ⟨el, hel, hleaf⟩ := isLeafAt_of_indexOf hd (findElement_eq_ok.1 hp)
    simp only []
    rcases (c.dimension i).childrenOf j with e | kids
    · rfl
    simp only []
    -- a child that is there already leaves the dimension as it is
    split_ifs
    · exact congrArg _ (set_self hold).symm
    · simp only [hleaf, Dimension.mirrorConsolidation, consolidateParent,
        Dimension.element_eq_ok.2 hel, bind, Except.bind]
      -- a leaf that gets a child becomes a consolidation first
      cases el.kind.isLeaf
      · simp only [Bool.false_eq_true, if_false]
        rcases (c.dimension i).addChild j k weight with e | dim <;> rfl
      · simp only [if_true]
        rcases (c.dimension i).setKind j .consolidated with e | ⟨mid, prev⟩
        · rfl
        simp only []
        rcases mid.addChild j k weight with e | dim <;> rfl
  | removeChild parent child =>
    simp only [editDimension, DimensionEdit.op, run, removeChildElement, hi, Dimension.edit, bind,
      Except.bind, Dimension.find]
    rcases findElement (c.dimension i) (c.dimension i).name parent with e | j
    · rfl
    rcases findElement (c.dimension i) (c.dimension i).name child with e | k
    · rfl
    simp only []
    rcases (c.dimension i).removeChild j k with e | dim <;> rfl
  | pinToTop element =>
    simp only [editDimension, DimensionEdit.op, run, setElementPin, hi, Dimension.edit, bind,
      Except.bind, Dimension.find, Dimension.pinToTop]
    rcases findElement (c.dimension i) (c.dimension i).name element with e | j
    · rfl
    simp only []
    rcases (c.dimension i).setPin j true with e | dim <;> rfl
  | unpinFromTop element =>
    simp only [editDimension, DimensionEdit.op, run, setElementPin, hi, Dimension.edit, bind,
      Except.bind, Dimension.find, Dimension.unpinFromTop]
    rcases findElement (c.dimension i) (c.dimension i).name element with e | j
    · rfl
    simp only []
    rcases (c.dimension i).setPin j false with e | dim <;> rfl
  | setKind element kind =>
    simp only [editDimension, DimensionEdit.op, run, setElementKind, hi, Dimension.edit, bind,
      Except.bind, Dimension.find]
    rcases findElement (c.dimension i) (c.dimension i).name element with e | j
    · rfl
    simp only []
    rcases (c.dimension i).setKind j kind with e | ⟨dim, prev⟩
    · rfl
    · exact congrArg _ (dimensions_retype i j prev kind)
  | delete element =>
    simp only [editDimension, DimensionEdit.op, run, deleteElement, hi, Dimension.edit, bind,
      Except.bind, Dimension.find]
    rcases findElement (c.dimension i) (c.dimension i).name element with e | j
    · rfl
    simp only []
    rcases (c.dimension i).delete j with e | ⟨dim, toNew⟩ <;> rfl
  | insert name kind position =>
    simp only [editDimension, DimensionEdit.op, run, insertElementAt, hi, Dimension.edit, bind,
      Except.bind]
    rcases insertIndex (c.dimension i) (c.dimension i).name position with e | j
    · rfl
    simp only []
    rcases (c.dimension i).insertAt name kind j with e | ⟨dim, toNew⟩ <;> rfl

/-- Replacing a dimension by one of its name keeps the list of names. -/
theorem names_set {dims : List Dimension} {i : Nat} {d d' : Dimension} (h : dims[i]? = some d)
    (hname : d'.name = d.name) : (dims.set i d').map Dimension.name = dims.map Dimension.name := by
  rw [List.map_set, hname, ← List.map_set, set_self h]

theorem growElements_stamp {cube name : String} {i : Nat} (specs : List ElementSpec)
    {dims : List Dimension} {d : Dimension} (hi : findDimension cube dims name = .ok i)
    (hd : dims[i]? = some d) (hname : d.name = name) (added : Nat) (b : Bool) :
    (growElements cube dims added (specs.map (ElementSpec.stamp name))).map Prod.fst =
      (d.grownElements b specs).map fun x => dims.set i x.1 := by
  induction specs generalizing dims d added b with
  | nil => exact congrArg _ (set_self hd).symm
  | cons spec specs ih =>
    have hget : dims.getD i (Dimension.new "") = d := by rw [List.getD, hd]; rfl
    simp only [List.map_cons, growElements, Dimension.grownElements, bind, Except.bind, hname,
      show (spec.stamp name).dimension = name from rfl, hi, hget]
    rcases hstep : growElement d (spec.stamp name) with e | ⟨next, n⟩
    · rfl
    have hnext := (growElement_ok hstep).name
    have hlt := (List.getElem?_eq_some_iff.1 hd).1
    have hi' : findDimension cube (dims.set i next) name = .ok i := by
      rw [findDimension_congr (names_set hd hnext), hi]
    simp only []
    rw [ih hi' (List.getElem?_set_self hlt) (hnext.trans hname) (added + n) (b || n ≠ 0)]
    simp only [List.set_set]

theorem growEdges_stamp {cube name : String} {i : Nat} (specs : List EdgeSpec)
    {dims : List Dimension} {d : Dimension} (hi : findDimension cube dims name = .ok i)
    (hd : dims[i]? = some d) (hname : d.name = name) (b : Bool) :
    growEdges cube dims (specs.map (EdgeSpec.stamp name)) =
      (d.grownEdges b specs).map fun x => dims.set i x.1 := by
  induction specs generalizing dims d b with
  | nil => exact congrArg _ (set_self hd).symm
  | cons spec specs ih =>
    have hget : dims.getD i (Dimension.new "") = d := by rw [List.getD, hd]; rfl
    simp only [List.map_cons, growEdges, Dimension.grownEdges, bind, Except.bind, hname,
      show (spec.stamp name).dimension = name from rfl, hi, hget]
    rcases hstep : growEdge d (spec.stamp name) with e | next
    · rfl
    have hnext := (growEdge_ok hstep).name
    have hlt := (List.getElem?_eq_some_iff.1 hd).1
    have hi' : findDimension cube (dims.set i next) name = .ok i := by
      rw [findDimension_congr (names_set hd hnext), hi]
    simp only []
    rw [ih hi' (List.getElem?_set_self hlt) (hnext.trans hname) (b || next ≠ d)]
    simp only [List.set_set]

/-- **A growth of a cube is the growth of its dimension**, when every part of
it names that dimension. -/
theorem dimensions_extendSchema {name : String} {i : Nat} (hi : c.dimensionIndex name = .ok i)
    (elements : List ElementSpec) (edges : List EdgeSpec) :
    (c.extendSchema (elements.map (ElementSpec.stamp name))
        (edges.map (EdgeSpec.stamp name))).map (fun x => x.1.dimensions) =
      ((c.dimension i).grow elements edges).map fun x => c.dimensions.set i x.1 := by
  obtain ⟨hold, hname⟩ := dimensionIndex_ok hi
  have hels := growElements_stamp elements hi hold hname 0 false
  simp only [extendSchema, applyGrowth, Dimension.grow, bind, Except.bind]
  rcases hstep : (c.dimension i).grownElements false elements with e | ⟨mid, b⟩
  all_goals
    rw [hstep] at hels
    rcases hcube : growElements c.name c.dimensions 0 (elements.map (ElementSpec.stamp name))
      with e' | ⟨dims, n⟩
    all_goals rw [hcube] at hels; cases hels
  · rfl
  · have hmid := (Dimension.grownElements_ok hstep).name
    have hlt := (List.getElem?_eq_some_iff.1 hold).1
    have hi' : findDimension c.name (c.dimensions.set i mid) name = .ok i := by
      rw [findDimension_congr (names_set hold hmid)]
      exact hi
    simp only []
    rw [growEdges_stamp edges hi' (List.getElem?_set_self hlt) (hmid.trans hname) b]
    rcases mid.grownEdges b edges with e | ⟨next, b'⟩
    · rfl
    · simp only [Except.map, List.set_set, dimensions_relayout]

end Cube

/-! ## One change -/

/-- A change of a shared dimension, made on the registry's and then on each
copy. -/
inductive SharedChange where
  | grow (elements : List ElementSpec) (edges : List EdgeSpec)
  | edit (edit : DimensionEdit)
deriving DecidableEq

namespace SharedChange

def onDimension (d : Dimension) : SharedChange → Except ModelError Dimension
  | grow elements edges => do
    let (next, _) ← d.grow elements edges
    .ok next
  | edit e => d.edit e

def onShared (s : SharedDimension) : SharedChange → Except ModelError SharedDimension
  | grow elements edges => s.grown elements edges
  | edit e => s.edited e

/-- The change on a cube's copy; a growth is stamped with its name. -/
def onCube (c : Cube) (dimension : String) : SharedChange → Except ModelError Cube
  | grow elements edges => do
    let (next, _) ← c.extendSchema (elements.map (ElementSpec.stamp dimension))
      (edges.map (EdgeSpec.stamp dimension))
    .ok next
  | edit e => c.editDimension dimension e

theorem onShared_ok {s s' : SharedDimension} {change : SharedChange}
    (h : change.onShared s = .ok s') :
    s'.id = s.id ∧ change.onDimension s.dimension = .ok s'.dimension := by
  cases change with
  | grow elements edges =>
    obtain ⟨⟨next, b⟩, hnext, h⟩ := bind_eq_ok.1 h
    cases h
    exact ⟨rfl, bind_eq_ok.2 ⟨_, hnext, rfl⟩⟩
  | edit e =>
    obtain ⟨next, hnext, h⟩ := bind_eq_ok.1 h
    cases h
    exact ⟨rfl, hnext⟩

theorem onDimension_ok {d d' : Dimension} {change : SharedChange} (hd : d.WF)
    (h : change.onDimension d = .ok d') : d'.WF ∧ d'.name = d.name := by
  cases change with
  | grow elements edges =>
    obtain ⟨⟨next, b⟩, hnext, h⟩ := bind_eq_ok.1 h
    cases h
    have hg := Dimension.grow_ok hnext
    exact ⟨hg.wf hd, hg.name⟩
  | edit e => exact hd.edit h

end SharedChange

namespace Cube

variable {c c' : Cube}

/-- The dimension of a name. -/
def dimensionNamed (c : Cube) (name : String) : Option Dimension :=
  c.dimensions.find? fun d => d.name = name

theorem dimensionNamed_eq_some {name : String} {d : Dimension} :
    c.dimensionNamed name = some d ↔ ∃ i, c.dimensionIndex name = .ok i ∧ c.dimension i = d := by
  simp only [dimensionNamed, dimensionIndex, findDimension, okOr_eq_ok,
    List.find?_eq_some_iff_getElem, List.findIdx?_eq_some_iff_getElem, dimension, List.getD]
  constructor
  · rintro ⟨hname, i, hi, rfl, hfirst⟩
    refine ⟨i, ⟨hi, hname, fun j hj => by simpa using hfirst j hj⟩, ?_⟩
    rw [List.getElem?_eq_getElem hi]
    rfl
  · rintro ⟨i, ⟨hi, hname, hfirst⟩, rfl⟩
    rw [List.getElem?_eq_getElem hi]
    exact ⟨hname, i, hi, rfl, fun j hj => by simpa using hfirst j hj⟩

theorem name_of_dimensionNamed {name : String} {d : Dimension}
    (h : c.dimensionNamed name = some d) : d.name = name := by
  simpa using List.find?_some h

theorem WF.dimensionNamed (hc : c.WF) {name : String} {d : Dimension}
    (h : c.dimensionNamed name = some d) : d.WF :=
  hc.dims d (List.mem_of_find?_eq_some h)

/-- Replacing the dimension of a name changes what that name stands for and
no other name. -/
theorem dimensionNamed_set {i : Nat} {name : String} {d : Dimension}
    (hi : c.dimensionIndex name = .ok i) (hd : d.name = name)
    (h : c'.dimensions = c.dimensions.set i d) :
    c'.dimensionNamed name = some d ∧
      ∀ other ≠ name, c'.dimensionNamed other = c.dimensionNamed other := by
  obtain ⟨hold, hname⟩ := dimensionIndex_ok hi
  have hlt := (List.getElem?_eq_some_iff.1 hold).1
  have hindex : ∀ other j, c'.dimensionIndex other = .ok j ↔ c.dimensionIndex other = .ok j := by
    intro other j
    simp only [dimensionIndex, findDimension, okOr_eq_ok]
    have hnames := names_set hold (hd.trans hname.symm)
    have hcongr : findDimension "" _ other = findDimension "" _ other :=
      findDimension_congr hnames
    rw [← h] at hcongr
    rw [← okOr_eq_ok (e := ModelError.unknownDimension "" other), ← findDimension, hcongr,
      findDimension, okOr_eq_ok]
  refine ⟨dimensionNamed_eq_some.2 ⟨i, (hindex name i).2 hi, ?_⟩, fun other hne => ?_⟩
  · rw [dimension, h, List.getD, List.getElem?_set_self hlt]
    rfl
  · refine Option.ext fun x => ?_
    simp only [dimensionNamed_eq_some, hindex]
    refine exists_congr fun j => and_congr_right fun hj => ?_
    have hij : i ≠ j := by
      rintro rfl
      exact hne ((dimensionIndex_ok hj).2.symm.trans hname)
    rw [dimension, h, List.getD, List.getElem?_set_ne hij]
    rfl

end Cube

namespace SharedChange

variable {c c' : Cube} {d d' : Dimension} {name : String}

theorem wf_onCube (hc : c.WF) {change : SharedChange} (h : change.onCube c name = .ok c') :
    c'.WF := by
  cases change with
  | grow elements edges =>
    obtain ⟨⟨next, n⟩, hnext, h⟩ := bind_eq_ok.1 h
    cases h
    exact hc.extendSchema hnext
  | edit e => exact hc.run h

/-- The two sides of one change, refusals included. -/
theorem dimensions_onCube (hc : c.WF) {i : Nat} (hi : c.dimensionIndex name = .ok i)
    (change : SharedChange) :
    (change.onCube c name).map Cube.dimensions =
      (change.onDimension (c.dimension i)).map (c.dimensions.set i) := by
  cases change with
  | grow elements edges =>
    have h := Cube.dimensions_extendSchema hi elements edges
    simp only [onCube, onDimension, bind, Except.bind]
    rcases hgrow : (c.dimension i).grow elements edges with e | ⟨next, b⟩
    all_goals
      rcases hcube : c.extendSchema (elements.map (ElementSpec.stamp name))
        (edges.map (EdgeSpec.stamp name)) with e' | ⟨c', n⟩
      all_goals rw [hgrow, hcube] at h
    · exact congrArg Except.error (Except.error.inj h)
    · cases h
    · cases h
    · exact congrArg Except.ok (Except.ok.inj h)
  | edit e => exact Cube.dimensions_editDimension hc hi e

/-- **A copy follows the registry.** A change the dimension accepts is
accepted by a cube that holds the dimension, and leaves it the changed one;
the cube's other dimensions stay. -/
theorem onCube_of_onDimension (hc : c.WF) {change : SharedChange}
    (hd : c.dimensionNamed name = some d) (h : change.onDimension d = .ok d') :
    ∃ c', change.onCube c name = .ok c' ∧ c'.WF ∧ c'.dimensionNamed name = some d' ∧
      ∀ other ≠ name, c'.dimensionNamed other = c.dimensionNamed other := by
  obtain ⟨i, hi, rfl⟩ := Cube.dimensionNamed_eq_some.1 hd
  have hmap := dimensions_onCube hc hi change
  rw [h] at hmap
  rcases hcube : change.onCube c name with e | c'
  · rw [hcube] at hmap
    cases hmap
  · rw [hcube] at hmap
    obtain ⟨-, hname⟩ := onDimension_ok (hc.dimensionNamed hd) h
    refine ⟨c', rfl, wf_onCube hc hcube, ?_⟩
    exact Cube.dimensionNamed_set hi (hname.trans (Cube.name_of_dimensionNamed hd))
      (Except.ok.inj hmap)

/-- An accepted edit of a cube is the edit of the dimension it names. -/
theorem dimensions_of_editDimension (hc : c.WF) {edit : DimensionEdit}
    (h : c.editDimension name edit = .ok c') : ∃ i d', c.dimensionIndex name = .ok i ∧
      (c.dimension i).edit edit = .ok d' ∧ c'.dimensions = c.dimensions.set i d' := by
  have hi : ∃ i, c.dimensionIndex name = .ok i := by
    rcases hi : c.dimensionIndex name with e | i
    · cases edit <;>
        simp [Cube.editDimension, DimensionEdit.op, Cube.run, Cube.reorderElements,
          Cube.reparentElement, Cube.addChildElement, Cube.removeChildElement,
          Cube.setElementPin, Cube.setElementKind, Cube.deleteElement, Cube.insertElementAt, hi,
          bind, Except.bind] at h
    · exact ⟨i, rfl⟩
  obtain ⟨i, hi⟩ := hi
  have hmap := dimensions_onCube hc hi (.edit edit)
  rw [onCube, h] at hmap
  rcases hd : onDimension (c.dimension i) (.edit edit) with e | d'
  · rw [hd] at hmap
    cases hmap
  · rw [hd] at hmap
    exact ⟨i, d', hi, hd, Except.ok.inj hmap⟩

/-- An edit of one dimension of a cube leaves its other dimensions. -/
theorem dimensionNamed_editDimension (hc : c.WF) {edit : DimensionEdit}
    (h : c.editDimension name edit = .ok c') {other : String} (hne : other ≠ name) :
    c'.dimensionNamed other = c.dimensionNamed other := by
  obtain ⟨i, d', hi, hd, hdims⟩ := dimensions_of_editDimension hc h
  obtain ⟨hold, hname⟩ := Cube.dimensionIndex_ok hi
  obtain ⟨-, hname'⟩ := (hc.dimension hold).edit hd
  exact (Cube.dimensionNamed_set hi (hname'.trans hname) hdims).2 other hne

/-- What the registry keeps of a change is the changed dimension. -/
theorem map_onShared (s : SharedDimension) (change : SharedChange) :
    (change.onShared s).map SharedDimension.dimension = change.onDimension s.dimension := by
  cases change with
  | grow elements edges =>
    simp only [onShared, onDimension, SharedDimension.grown, bind, Except.bind]
    rcases s.dimension.grow elements edges with e | ⟨next, changed⟩ <;> rfl
  | edit e =>
    simp only [onShared, onDimension, SharedDimension.edited, bind, Except.bind]
    rcases s.dimension.edit e with err | next <;> rfl

/-- **The registry and the cube agree.** A change of a shared dimension and the
same change of a cube that holds it are refused alike, or both accepted, and
then the cube holds what the dimension has become. -/
theorem onCube_agrees_onShared (s : SharedDimension) (change : SharedChange) (hc : c.WF)
    (hd : c.dimensionNamed s.dimension.name = some s.dimension) :
    (change.onCube c s.dimension.name).map (fun c' => c'.dimensionNamed s.dimension.name) =
      (change.onShared s).map fun s' => some s'.dimension := by
  obtain ⟨i, hi, hdim⟩ := Cube.dimensionNamed_eq_some.1 hd
  have hcube := dimensions_onCube hc hi change
  have hshared := map_onShared s change
  rw [hdim, ← hshared] at hcube
  rcases hs : change.onShared s with e | s'
  · rw [hs] at hcube
    obtain ⟨e', hc', heq⟩ | ⟨_, _, _, hcontra, _⟩ := map_eq_map_iff.1 hcube
    · rw [hc']
      exact congrArg Except.error (Except.error.inj heq).symm
    · cases hcontra
  · rw [hs] at hcube
    obtain ⟨_, _, hcontra⟩ | ⟨c', d', hc', hd', hdims⟩ := map_eq_map_iff.1 hcube
    · cases hcontra
    · obtain rfl := Except.ok.inj hd'
      have hname := (onDimension_ok (hc.dimensionNamed hd) (onShared_ok hs).2).2
      rw [hc']
      exact congrArg Except.ok (Cube.dimensionNamed_set hi hname hdims).1

/-- A consolidation of a cube of sales is made a leaf's child, on both sides. -/
theorem onCube_agrees_sales : ∃ (c : Cube) (s : SharedDimension),
    Cube.build "Sales" Cube.salesDefs = .ok c ∧ s.dimension.name = "Region" ∧
      (∃ s', (edit (.addChild "North" "South" 2)).onShared s = .ok s') ∧
      ((edit (.addChild "North" "South" 2)).onCube c s.dimension.name).map
          (fun c' => c'.dimensionNamed s.dimension.name) =
        ((edit (.addChild "North" "South" 2)).onShared s).map fun s' => some s'.dimension := by
  obtain ⟨c, hc, hok⟩ := exists_ok_of_any (x := Cube.build "Sales" Cube.salesDefs)
    (p := fun c => (c.dimensionNamed "Region").any fun d => d.name = "Region" ∧
      ((edit (.addChild "North" "South" 2)).onShared ⟨0, 0, d⟩).isOk = true) (by decide +kernel)
  obtain ⟨d, hd, hok⟩ := (Option.any_eq_true _ _).1 hok
  obtain ⟨hname, hok⟩ := of_decide_eq_true hok
  refine ⟨c, ⟨0, 0, d⟩, hc, hname, exists_of_isOk hok, onCube_agrees_onShared ⟨0, 0, d⟩ _
    (Cube.WF.build hc) ?_⟩
  rw [hname, hd]

end SharedChange

end Epiphany
