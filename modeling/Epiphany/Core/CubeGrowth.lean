import Epiphany.Core.CubeMoves
/-!
# Cubes — schema growth

Growth appends: a grown dimension begins with the elements, the edges and
the attribute values it had (`Grown`). So every coordinate means what it
meant, and the cells are at most re-packed under wider keys.
-/

namespace Epiphany

namespace Dimension

/-- **A dimension grown by appending.** -/
structure Grown (d d' : Dimension) : Prop where
  name : d'.name = d.name
  le : d.elements.length ≤ d'.elements.length
  elements : ∀ i < d.elements.length, d'.elements[i]? = d.elements[i]?
  edges : ∀ i, d.edgesOf i <+: d'.edgesOf i
  values : ∀ i, d'.valuesOf i = d.valuesOf i
  attributes : d'.attributes = d.attributes
  wf : d.WF → d'.WF

namespace Grown

variable {d d' d'' : Dimension}

theorem refl (d : Dimension) : Grown d d where
  name := rfl
  le := le_rfl
  elements := fun _ _ => rfl
  edges := fun _ => List.prefix_rfl
  values := fun _ => rfl
  attributes := rfl
  wf := id

theorem trans (h : Grown d d') (h' : Grown d' d'') : Grown d d'' where
  name := h'.name.trans h.name
  le := h.le.trans h'.le
  elements := fun i hi => (h'.elements i (hi.trans_le h.le)).trans (h.elements i hi)
  edges := fun i => (h.edges i).trans (h'.edges i)
  values := fun i => (h'.values i).trans (h.values i)
  attributes := h'.attributes.trans h.attributes
  wf := h'.wf ∘ h.wf

theorem kindAt (h : Grown d d') {i : Nat} {k : ElementKind} (hk : d.kindAt i = some k) :
    d'.kindAt i = some k := by
  rw [← hk]
  exact congrArg (Option.map Element.kind) (h.elements i (lt_of_kindAt hk))

theorem nameAt (h : Grown d d') {i : Nat} {n : String} (hn : d.nameAt i = some n) :
    d'.nameAt i = some n := by
  rw [← hn]
  exact congrArg (Option.map Element.name) (h.elements i (lt_of_nameAt hn))

theorem addElement (d : Dimension) (name : String) (kind : ElementKind) :
    Grown d (d.addElement name kind) := by
  rcases h : d.indexByName[name]? with _ | _
  · have hkeep := fun i => edgesOf_addElement d name kind i
    have hel := fun i hi => @getElem?_addElement d name kind i hi
    have hwf := fun hd : d.WF => hd.addElement name kind
    rw [addElement_of_none h] at hkeep hel hwf ⊢
    exact
      { name := rfl
        le := by simp
        elements := hel
        edges := fun i => by rw [hkeep]
        values := fun i => valuesOf_snoc d i
        attributes := rfl
        wf := hwf }
  · rw [addElement_of_some h]
    exact refl d

theorem addChild {parent child : Nat} {weight : Int}
    (h : d.addChild parent child weight = .ok d') : Grown d d' := by
  have hwf := fun hd : d.WF => hd.addChild h
  obtain ⟨-, -, -, rfl⟩ := addChild_ok h
  exact
    { name := rfl
      le := le_rfl
      elements := fun _ _ => rfl
      edges := fun i => by
        rw [edgesOf_modify]
        split_ifs
        · exact List.prefix_append _ _
        · exact List.prefix_rfl
      values := fun _ => rfl
      attributes := rfl
      wf := hwf }

end Grown

end Dimension

namespace Cube

open CellStore Dimension

/-- Dimensions grown one by one. -/
abbrev GrownAll (dims dims' : List Dimension) : Prop := List.Forall₂ Grown dims dims'

theorem GrownAll.refl (dims : List Dimension) : GrownAll dims dims :=
  List.forall₂_same.2 fun d _ => Grown.refl d

theorem GrownAll.trans {dims dims' dims'' : List Dimension} (h : GrownAll dims dims')
    (h' : GrownAll dims' dims'') : GrownAll dims dims'' := by
  obtain ⟨hl, hg⟩ := forall₂_iff_getElem?.1 h
  obtain ⟨hl', hg'⟩ := forall₂_iff_getElem?.1 h'
  refine forall₂_iff_getElem?.2 ⟨hl.trans hl', fun i x z hx hz => ?_⟩
  have hi : i < dims'.length := hl ▸ (List.getElem?_eq_some_iff.1 hx).1
  have hy := List.getElem?_eq_getElem hi
  exact (hg i x _ hx hy).trans (hg' i _ z hy hz)

theorem GrownAll.set {dims : List Dimension} {d : Nat} {old dim : Dimension}
    (hold : dims[d]? = some old) (h : Grown old dim) : GrownAll dims (dims.set d dim) := by
  refine forall₂_set_right (GrownAll.refl dims) fun x hx => ?_
  obtain rfl := Option.some.inj (hold.symm.trans hx)
  exact h

theorem growElement_ok {dim dim' : Dimension} {spec : ElementSpec} {n : Nat}
    (h : growElement dim spec = .ok (dim', n)) : Grown dim dim' := by
  rw [growElement] at h
  split at h
  · simp only [bind_eq_ok, ite_error_eq_ok, Except.ok.injEq, Prod.mk.injEq] at h
    obtain ⟨_, -, -, rfl, -⟩ := h
    exact Grown.refl dim
  · cases h
    exact Grown.addElement dim spec.name spec.kind

theorem growEdge_ok {dim dim' : Dimension} {spec : EdgeSpec}
    (h : growEdge dim spec = .ok dim') : Grown dim dim' := by
  simp only [growEdge, bind_eq_ok] at h
  obtain ⟨parent, -, child, -, w, -, h⟩ := h
  rcases w with _ | w
  · exact Grown.addChild h
  · simp only [ite_error_eq_ok, Except.ok.injEq] at h
    exact h.2 ▸ Grown.refl dim

theorem growElements_ok {cube : String} {dims dims' : List Dimension} {added n : Nat}
    {specs : List ElementSpec} (h : growElements cube dims added specs = .ok (dims', n)) :
    GrownAll dims dims' := by
  induction specs generalizing dims added with
  | nil =>
    cases h
    exact GrownAll.refl _
  | cons spec specs ih =>
    simp only [growElements, bind_eq_ok] at h
    obtain ⟨d, hd, ⟨dim, k⟩, hdim, h⟩ := h
    obtain ⟨old, hold, -⟩ := findDimension_ok hd
    rw [List.getD, hold] at hdim
    exact (GrownAll.set hold (growElement_ok hdim)).trans (ih h)

theorem growEdges_ok {cube : String} {dims dims' : List Dimension} {specs : List EdgeSpec}
    (h : growEdges cube dims specs = .ok dims') : GrownAll dims dims' := by
  induction specs generalizing dims with
  | nil =>
    cases h
    exact GrownAll.refl _
  | cons spec specs ih =>
    simp only [growEdges, bind_eq_ok] at h
    obtain ⟨d, hd, dim, hdim, h⟩ := h
    obtain ⟨old, hold, -⟩ := findDimension_ok hd
    rw [List.getD, hold] at hdim
    exact (GrownAll.set hold (growEdge_ok hdim)).trans (ih h)

theorem applyGrowth_ok {cube : String} {dims dims' : List Dimension} {n : Nat}
    {elements : List ElementSpec} {edges : List EdgeSpec}
    (h : applyGrowth cube dims elements edges = .ok (dims', n)) : GrownAll dims dims' := by
  simp only [applyGrowth, bind_eq_ok] at h
  obtain ⟨⟨mid, k⟩, hmid, dims'', hdims, h⟩ := h
  cases h
  exact (growElements_ok hmid).trans (growEdges_ok hdims)

/-! ## Coordinates under growth -/

variable {dims dims' : List Dimension}

/-- Related componentwise, before growth and so after. -/
theorem forall₂_grown {R S : Nat → Dimension → Prop} (hg : GrownAll dims dims')
    (hRS : ∀ i d d', Grown d d' → R i d → S i d') {a : Coord} (h : List.Forall₂ R a dims) :
    List.Forall₂ S a dims' := by
  obtain ⟨hl, hg⟩ := forall₂_iff_getElem?.1 hg
  obtain ⟨hl', h⟩ := forall₂_iff_getElem?.1 h
  refine forall₂_iff_getElem?.2 ⟨hl'.trans hl, fun k i d' hi hd' => ?_⟩
  have hk : k < dims.length := hl' ▸ (List.getElem?_eq_some_iff.1 hi).1
  have hd := List.getElem?_eq_getElem hk
  exact hRS i _ d' (hg k _ d' hd hd') (h k i _ hi hd)

theorem GrownAll.inRange (hg : GrownAll dims dims') {a : Coord} (h : InRange dims a) :
    InRange dims' a :=
  forall₂_grown hg (fun _ _ _ hd hlt => hlt.trans_le hd.le) h

theorem GrownAll.numeric (hg : GrownAll dims dims') {a : Coord} (h : NumericCoord dims a) :
    NumericCoord dims' a :=
  forall₂_grown (R := fun i d => d.kindAt i = some .leaf) hg
    (fun _ _ _ hd hk => hd.kindAt hk) h

theorem GrownAll.string (hg : GrownAll dims dims') {a : Coord} (h : StringCoord dims a) :
    StringCoord dims' a := by
  refine ⟨forall₂_grown hg (fun _ _ _ hd hk => hk.imp hd.kindAt hd.kindAt) h.leaves, ?_⟩
  obtain ⟨d, i, x, hi, hx, hk⟩ := h.string
  obtain ⟨hl, hget⟩ := forall₂_iff_getElem?.1 hg
  have hd : d < dims'.length := hl ▸ (List.getElem?_eq_some_iff.1 hx).1
  have hy := List.getElem?_eq_getElem hd
  exact ⟨d, i, _, hi, hy, (hget d x _ hx hy).kindAt hk⟩

theorem GrownAll.wf (hg : GrownAll dims dims') (h : ∀ d ∈ dims, d.WF) : ∀ d ∈ dims', d.WF := by
  intro d' hd'
  obtain ⟨hl, hget⟩ := forall₂_iff_getElem?.1 hg
  obtain ⟨k, hk⟩ := List.mem_iff_getElem?.1 hd'
  have hlt : k < dims.length := hl ▸ (List.getElem?_eq_some_iff.1 hk).1
  exact (hget k _ d' (List.getElem?_eq_getElem hlt) hk).wf (h _ (List.getElem_mem hlt))

/-! ## Re-packing -/

variable {c : Cube}

/-- **Growth moves no cell**, whether or not the keys widen. -/
theorem moves_relayout (hc : c.WF) (hg : GrownAll c.dimensions dims') :
    Moves c ({ c with dimensions := dims' } : Cube).relayout some some := by
  have hlen : dims'.length = c.dimensions.length := (List.Forall₂.length_eq hg).symm
  simp only [relayout]
  split_ifs with hlayout
  · rw [hc.layout] at hlayout
    exact
      { name := rfl
        pool := rfl
        layout := hc.layout.trans hlayout.symm
        cells := image_same hc.cells hlayout fun _ h => hg.inRange h
        strings := image_same hc.strings hlayout fun _ h => hg.inRange h }
  · have himage : ∀ {V : Type} {s : CellStore V}, s.Holds c.dimensions →
        Image s (s.rebuild c.layout dims'.length (Layout.new dims') some) c.dimensions dims'
          some := by
      intro V s hs
      rw [hlen, hc.layout]
      refine image_rebuild hs ?_ ?_
      · rintro a b v ha - ⟨⟩
        exact hg.inRange ha
      · rintro a b x - - ⟨⟩ ⟨⟩
        rfl
    exact { name := rfl, pool := rfl, layout := rfl, cells := himage hc.cells,
            strings := himage hc.strings }

theorem dimensions_relayout (c : Cube) : c.relayout.dimensions = c.dimensions := by
  simp only [relayout]
  split_ifs <;> rfl

theorem WF.grow (hc : c.WF) (hg : GrownAll c.dimensions dims') :
    ({ c with dimensions := dims' } : Cube).relayout.WF := by
  have hdims := dimensions_relayout ({ c with dimensions := dims' } : Cube)
  refine hc.of_moves (moves_relayout hc hg) ?_ ?_ ?_ ?_
  · rw [hdims]
    intro hnil
    have hl := List.Forall₂.length_eq hg
    simp only at hnil
    rw [hnil] at hl
    exact hc.nonempty (List.length_eq_zero_iff.1 hl)
  · rw [hdims]
    exact hg.wf hc.dims
  · rintro a b ha ⟨⟩
    rw [hdims]
    exact hg.numeric ha
  · rintro a b ha ⟨⟩
    rw [hdims]
    exact hg.string ha

end Cube

end Epiphany
