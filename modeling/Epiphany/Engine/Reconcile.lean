import Epiphany.Common.Appending
import Epiphany.Engine.Materialize
/-!
# Reconciling — what re-appending a dimension repairs

At boot the whole definition of a registered dimension is appended to each
copy again. On elements and on the edges of each parent that is a merge by
key, so a copy is brought to the registry's dimension exactly when that
dimension extends it (`sameStructure_grow_iff`): members and edges that are
missing at the end are added, and nothing is moved or taken away.
-/

namespace Epiphany

namespace Dimension

variable {d d' x : Dimension}

/-- The names and kinds of the elements, in order. -/
def signature (d : Dimension) : List (String × ElementKind) :=
  d.elements.map fun e => (e.name, e.kind)

/-- The same elements in the same order with the same kinds, and the same
hierarchy. -/
def SameStructure (d x : Dimension) : Prop :=
  d.signature = x.signature ∧ ∀ p, d.edgesOf p = x.edgesOf p

/-- `x` is `d` with elements, and edges under each parent, appended. -/
def AppendedTo (d x : Dimension) : Prop :=
  Extends Prod.fst d.signature x.signature ∧ ∀ p, Extends Edge.child (d.edgesOf p) (x.edgesOf p)

theorem AppendedTo.refl (d : Dimension) : d.AppendedTo d :=
  ⟨Extends.refl _ _, fun _ => Extends.refl _ _⟩

theorem map_fst_signature : d.signature.map Prod.fst = d.elements.map Element.name := by
  rw [signature, List.map_map]
  rfl

/-! ## Growth as a merge -/

theorem signature_growElement (hd : d.WF) {spec : ElementSpec} {n : Nat}
    (h : Cube.growElement d spec = .ok (d', n)) :
    d'.signature = appendNew Prod.fst d.signature (spec.name, spec.kind) ∧
      ∀ p, d'.edgesOf p = d.edgesOf p := by
  rw [Cube.growElement] at h
  split at h
  · rename_i i hi
    obtain ⟨el, -, h⟩ := bind_eq_ok.1 h
    rw [ite_error_eq_ok] at h
    cases h.2
    refine ⟨(if_pos ?_).symm, fun _ => rfl⟩
    rw [map_fst_signature]
    obtain ⟨e, he, hname⟩ := nameAt_eq_some.1 ((hd.index _ i).1 hi)
    exact hname ▸ List.mem_map_of_mem (List.mem_of_getElem? he)
  · rename_i hnone
    cases h
    refine ⟨?_, fun p => edgesOf_addElement d _ _ p⟩
    rw [appendNew, if_neg, addElement_of_none hnone]
    · simp [signature]
    · rw [map_fst_signature]
      intro hmem
      obtain ⟨e, he, hname⟩ := List.mem_map.1 hmem
      obtain ⟨i, hi⟩ := List.mem_iff_getElem?.1 he
      have hfound := (hd.index spec.name i).2 (nameAt_eq_some.2 ⟨e, hi, hname⟩)
      cases hnone.symm.trans hfound

/-- Accepted elements are merged by name. -/
theorem signature_grownElements (hd : d.WF) {specs : List ElementSpec} {b b' : Bool}
    (h : d.grownElements b specs = .ok (d', b')) :
    d'.signature = appendAll Prod.fst d.signature (specs.map fun s => (s.name, s.kind)) ∧
      (∀ p, d'.edgesOf p = d.edgesOf p) ∧ d'.WF ∧ d'.name = d.name := by
  induction specs generalizing d b with
  | nil =>
    cases h
    exact ⟨rfl, fun _ => rfl, hd, rfl⟩
  | cons spec specs ih =>
    simp only [grownElements, bind_eq_ok] at h
    obtain ⟨⟨next, n⟩, hnext, h⟩ := h
    have hg := Cube.growElement_ok hnext
    obtain ⟨hsig, hedges⟩ := signature_growElement hd hnext
    obtain ⟨hsig', hedges', hwf, hname⟩ := ih (hg.wf hd) h
    refine ⟨?_, fun p => (hedges' p).trans (hedges p), hwf, hname.trans hg.name⟩
    rw [hsig', hsig]
    rfl

/-- An accepted edge is merged under its parent by its child. -/
theorem edgesOf_growEdge_eq (hd : d.WF) {spec : EdgeSpec} (h : Cube.growEdge d spec = .ok d')
    (q : Nat) :
    d'.edgesOf q = appendAll Edge.child (d.edgesOf q) (Cube.edgeAt d q spec).toList := by
  simp only [Cube.growEdge, bind_eq_ok, Cube.findElement_eq_ok] at h
  obtain ⟨parent, hparent, child, hchild, w, hw, h⟩ := h
  have hedge : Cube.edgeAt d q spec =
      if parent = q then some ⟨child, spec.weight⟩ else none := by
    simp [Cube.edgeAt, indexOf, hparent, hchild]
  simp only [childWeight, bind_eq_ok, Except.ok.injEq] at hw
  obtain ⟨-, -, -, -, hw⟩ := hw
  have hmem : child ∈ (d.edgesOf parent).map Edge.child ↔ w.isSome = true := by
    rw [← hw, Option.isSome_map, List.find?_isSome]
    simp
  rw [hedge]
  rcases w with _ | w
  · rw [edgesOf_addChild hd h]
    by_cases hq : parent = q
    · subst hq
      have hnew : child ∉ (d.edgesOf parent).map Edge.child := fun hc => by simpa using hmem.1 hc
      simp [appendAll, appendNew, hnew]
    · simp [hq, appendAll]
  · rw [ite_error_eq_ok] at h
    cases h.2
    by_cases hq : parent = q
    · subst hq
      simp [appendAll, appendNew, hmem.2 rfl]
    · simp [hq, appendAll]

/-- Accepted edges are merged under each parent by their children. -/
theorem edgesOf_grownEdges (hd : d.WF) {specs : List EdgeSpec} {b b' : Bool}
    (h : d.grownEdges b specs = .ok (d', b')) :
    d'.elements = d.elements ∧ ∀ q, d'.edgesOf q =
      appendAll Edge.child (d.edgesOf q) (specs.filterMap (Cube.edgeAt d q)) := by
  induction specs generalizing d b with
  | nil =>
    cases h
    exact ⟨rfl, fun _ => rfl⟩
  | cons spec specs ih =>
    simp only [grownEdges, bind_eq_ok] at h
    obtain ⟨next, hnext, h⟩ := h
    have hwf := (Cube.growEdge_ok hnext).wf hd
    have hels : next.elements = d.elements := by
      simp only [Cube.growEdge, bind_eq_ok] at hnext
      obtain ⟨p, -, c, -, w, -, hnext⟩ := hnext
      rcases w with _ | w
      · rw [(addChild_ok hnext).2.2.2]
      · rw [ite_error_eq_ok] at hnext
        cases hnext.2
        rfl
    have hat : ∀ q, Cube.edgeAt next q = Cube.edgeAt d q := by
      have hindex : next.indexOf = d.indexOf := funext fun n => Option.ext fun i => by
        rw [indexOf_iff hwf, indexOf_iff hd, nameAt, nameAt, hels]
      exact fun q => funext fun s => by simp only [Cube.edgeAt, hindex]
    obtain ⟨hels', hedges⟩ := ih hwf h
    refine ⟨hels'.trans hels, fun q => ?_⟩
    have hstamp : Cube.edgeAt d q (spec.stamp d.name) = Cube.edgeAt d q spec := rfl
    rw [hedges, hat, edgesOf_growEdge_eq hd hnext, hstamp]
    rcases hq : Cube.edgeAt d q spec with _ | e <;>
      simp [hq, appendAll]

/-- **A growth appends.** -/
theorem appendedTo_of_grow (hd : d.WF) {elements : List ElementSpec} {edges : List EdgeSpec}
    {b : Bool} (h : d.grow elements edges = .ok (d', b)) : d.AppendedTo d' := by
  obtain ⟨⟨mid, b'⟩, hmid, h⟩ := bind_eq_ok.1 h
  obtain ⟨hsig, hedges, hwf, -⟩ := signature_grownElements hd hmid
  obtain ⟨hels, hedges'⟩ := edgesOf_grownEdges hwf h
  constructor
  · have hsig' : d'.signature = mid.signature := by rw [signature, hels, signature]
    rw [hsig', hsig]
    exact extends_appendAll _
  · intro p
    rw [hedges', hedges]
    exact extends_appendAll _

end Dimension

/-! ## The whole definition, appended -/

/-- The elements and edges of a definition, to be appended. -/
def defToSpecs (x : DimensionDef) : List ElementSpec × List EdgeSpec :=
  (x.elements.map fun e => ⟨x.name, e.1, e.2⟩, x.edges.map fun e => ⟨x.name, e.1, e.2.1, e.2.2⟩)

namespace Dimension

variable {d d' : Dimension} {s : SharedDimension}

/-- **What re-appending repairs.** A dimension that accepts the whole
definition of another takes its structure exactly when the other extends
it. -/
theorem sameStructure_grow_iff (hd : d.WF) (hx : s.dimension.WF) {b : Bool}
    (h : d.grow (defToSpecs s.toDimensionDef).1 (defToSpecs s.toDimensionDef).2 = .ok (d', b)) :
    d'.SameStructure s.dimension ↔ d.AppendedTo s.dimension := by
  obtain ⟨⟨mid, b'⟩, hmid, h⟩ := bind_eq_ok.1 h
  obtain ⟨hsig, hedges, hwf, -⟩ := signature_grownElements hd hmid
  obtain ⟨hels, hedges'⟩ := edgesOf_grownEdges hwf h
  have hspecs : ((defToSpecs s.toDimensionDef).1.map fun e => (e.name, e.kind)) =
      s.dimension.signature := by
    simp only [defToSpecs, SharedDimension.toDimensionDef, List.map_map, signature]
    rfl
  have hsig' : d'.signature = appendAll Prod.fst d.signature s.dimension.signature := by
    rw [← hspecs, ← hsig, signature, hels, signature]
  -- where the elements are those of the other, its edges are read back
  have hrows : d'.signature = s.dimension.signature → ∀ p,
      d'.edgesOf p = appendAll Edge.child (d.edgesOf p) (s.dimension.edgesOf p) := by
    intro hsame p
    have hnames : mid.elements.map Element.name = s.dimension.elements.map Element.name := by
      rw [← hels, ← map_fst_signature, hsame, map_fst_signature]
    rw [hedges', hedges]
    exact congrArg _ (filterMap_edgeAt hx hwf hnames s.dimension.name p)
  simp only [SameStructure, AppendedTo, ← appendAll_eq_iff, ← hsig']
  refine and_congr_right fun hsame => forall_congr' fun p => ?_
  rw [hrows hsame p]

end Dimension

end Epiphany
