import Epiphany.Engine.Outline
/-!
# Members — what a dimension holds, and growth that finds it there

A growth keeps the members and edges that are there, and adds those it
names (`Dimension.holds_grow`). Where all it names in a dimension of a cube
is there before, it leaves that dimension as it is
(`Cube.dimensionNamed_extendSchema`).
-/

namespace Epiphany

/-! ## What a dimension holds -/

namespace Dimension

variable (d : Dimension)

def hasElement (name : String) : Bool := (d.indexOf name).isSome

def hasEdge (parent child : String) : Bool :=
  (d.indexOf parent).any fun p => (d.indexOf child).any fun ch =>
    (d.edgesOf p).any fun e => e.child = ch

@[simp] theorem hasElement_outline (name : String) :
    d.outline.hasElement name = d.hasElement name := rfl

@[simp] theorem hasEdge_outline (parent child : String) :
    d.outline.hasEdge parent child = d.hasEdge parent child := rfl

variable {d} {d' : Dimension} {name parent child : String}

theorem hasElement_eq_true : d.hasElement name = true ↔ ∃ i, d.indexOf name = some i :=
  Option.isSome_iff_exists

theorem hasEdge_eq_true : d.hasEdge parent child = true ↔
    ∃ p ch, d.indexOf parent = some p ∧ d.indexOf child = some ch ∧
      ∃ e ∈ d.edgesOf p, e.child = ch := by
  simp only [hasEdge, Option.any_eq_true, List.any_eq_true, decide_eq_true_eq]
  constructor
  · rintro ⟨p, hp, ch, hch, he⟩
    exact ⟨p, ch, hp, hch, he⟩
  · rintro ⟨p, ch, hp, hch, he⟩
    exact ⟨p, hp, ch, hch, he⟩

/-! ## Growth keeps and adds -/

/-- An index stays in a growth. -/
theorem Grown.indexOf (h : Grown d d') (hd : d.WF) {i : Nat} (hi : d.indexOf name = some i) :
    d'.indexOf name = some i :=
  (indexOf_iff (h.wf hd)).2 (h.nameAt ((indexOf_iff hd).1 hi))

theorem Grown.hasElement (h : Grown d d') (hd : d.WF) (hn : d.hasElement name = true) :
    d'.hasElement name = true := by
  obtain ⟨i, hi⟩ := hasElement_eq_true.1 hn
  exact hasElement_eq_true.2 ⟨i, h.indexOf hd hi⟩

theorem Grown.hasEdge (h : Grown d d') (hd : d.WF) (he : d.hasEdge parent child = true) :
    d'.hasEdge parent child = true := by
  obtain ⟨p, ch, hp, hch, e, he, hechild⟩ := hasEdge_eq_true.1 he
  exact hasEdge_eq_true.2 ⟨p, ch, h.indexOf hd hp, h.indexOf hd hch, e, (h.edges p).subset he,
    hechild⟩

theorem hasElement_growElement (hd : d.WF) {spec : ElementSpec} {n : Nat}
    (h : Cube.growElement d spec = .ok (d', n)) : d'.hasElement spec.name = true := by
  have hmem := mem_map_appendNew Prod.fst d.signature (spec.name, spec.kind)
  rw [← (signature_growElement hd h).1, map_fst_signature] at hmem
  obtain ⟨e, he, hname⟩ := List.mem_map.1 hmem
  obtain ⟨i, hi⟩ := List.mem_iff_getElem?.1 he
  refine hasElement_eq_true.2 ⟨i, ?_⟩
  exact (indexOf_iff ((Cube.growElement_ok h).wf hd)).2 (nameAt_eq_some.2 ⟨e, hi, hname⟩)

theorem hasEdge_growEdge (hd : d.WF) {spec : EdgeSpec} (h : Cube.growEdge d spec = .ok d') :
    d'.hasEdge spec.parent spec.child = true := by
  have hgrown := Cube.growEdge_ok h
  have hedges := edgesOf_growEdge_eq hd h
  obtain ⟨p, hp, h⟩ := bind_eq_ok.1 h
  obtain ⟨ch, hch, -⟩ := bind_eq_ok.1 h
  rw [Cube.findElement_eq_ok] at hp hch
  have hedge : Cube.edgeAt d p spec = some ⟨ch, spec.weight⟩ := by
    have hp' : d.indexOf spec.parent = some p := hp
    have hch' : d.indexOf spec.child = some ch := hch
    rw [Cube.edgeAt, if_pos hp', hch', Option.map_some]
  -- the edge was appended, or one to the same child stood in its way
  have hmem := mem_map_appendNew Edge.child (d.edgesOf p) ⟨ch, spec.weight⟩
  have hat := hedges p
  rw [hedge] at hat
  rw [show appendNew Edge.child _ _ = d'.edgesOf p from hat.symm] at hmem
  obtain ⟨e, he, hechild⟩ := List.mem_map.1 hmem
  exact hasEdge_eq_true.2 ⟨p, ch, hgrown.indexOf hd hp, hgrown.indexOf hd hch, e, he, hechild⟩

theorem hasElement_grownElements (hd : d.WF) {specs : List ElementSpec} {b b' : Bool}
    (h : d.grownElements b specs = .ok (d', b')) {spec : ElementSpec} (hspec : spec ∈ specs) :
    d'.hasElement spec.name = true := by
  induction specs generalizing d b with
  | nil => cases hspec
  | cons s specs ih =>
    obtain ⟨⟨next, n⟩, hnext, hrest⟩ := bind_eq_ok.1 h
    have hwf := (Cube.growElement_ok hnext).wf hd
    rcases List.mem_cons.1 hspec with rfl | hmem
    · have hthere := hasElement_growElement hd hnext
      exact (grownElements_ok hrest).hasElement hwf hthere
    · exact ih hwf hrest hmem

theorem hasEdge_grownEdges (hd : d.WF) {specs : List EdgeSpec} {b b' : Bool}
    (h : d.grownEdges b specs = .ok (d', b')) {spec : EdgeSpec} (hspec : spec ∈ specs) :
    d'.hasEdge spec.parent spec.child = true := by
  induction specs generalizing d b with
  | nil => cases hspec
  | cons s specs ih =>
    obtain ⟨next, hnext, hrest⟩ := bind_eq_ok.1 h
    have hwf := (Cube.growEdge_ok hnext).wf hd
    rcases List.mem_cons.1 hspec with rfl | hmem
    · have hthere := hasEdge_growEdge hd hnext
      exact (grownEdges_ok hrest).hasEdge hwf hthere
    · exact ih hwf hrest hmem

/-- **What a growth names is there after it.** -/
theorem holds_grow (hd : d.WF) {elements : List ElementSpec} {edges : List EdgeSpec} {b : Bool}
    (h : d.grow elements edges = .ok (d', b)) :
    (∀ spec ∈ elements, d'.hasElement spec.name = true) ∧
      ∀ spec ∈ edges, d'.hasEdge spec.parent spec.child = true := by
  obtain ⟨⟨mid, b'⟩, hmid, h⟩ := bind_eq_ok.1 h
  have hwf := (grownElements_ok hmid).wf hd
  exact ⟨fun spec hspec =>
      (grownEdges_ok h).hasElement hwf (hasElement_grownElements hd hmid hspec),
    fun spec hspec => hasEdge_grownEdges hwf h hspec⟩

end Dimension

/-! ## Growth of one cube -/

namespace Cube

variable (c : Cube)

/-- An element to add is there before. -/
def hasElement (spec : ElementSpec) : Bool :=
  (c.dimensionNamed spec.dimension).any fun d => d.hasElement spec.name

/-- An edge to add is there before. -/
def hasEdge (spec : EdgeSpec) : Bool :=
  (c.dimensionNamed spec.dimension).any fun d => d.hasEdge spec.parent spec.child

variable {c} {c' : Cube}

theorem dimensionNamed_congr {dims' : List Dimension} {name : String} {j : Nat}
    (hnames : dims'.map Dimension.name = c.dimensions.map Dimension.name)
    (hj : c.dimensionIndex name = .ok j) (hget : dims'[j]? = c.dimensions[j]?)
    (hdims : c'.dimensions = dims') : c'.dimensionNamed name = c.dimensionNamed name := by
  have hindex : c'.dimensionIndex name = .ok j := by
    unfold dimensionIndex
    rw [hdims, findDimension, okOr_eq_ok]
    have hcongr : findDimension "" dims' name = findDimension "" c.dimensions name :=
      findDimension_congr hnames
    unfold dimensionIndex at hj
    rw [findDimension, okOr_eq_ok] at hj
    rw [findDimension, findDimension, hj] at hcongr
    exact okOr_eq_ok.1 hcongr
  have hdim : c'.dimension j = c.dimension j := by
    unfold dimension
    rw [List.getD, List.getD, hdims, hget]
  rw [dimensionNamed_eq_some.2 ⟨j, hindex, hdim⟩, dimensionNamed_eq_some.2 ⟨j, hj, rfl⟩]

/-- Looking a name up after one dimension is replaced by one of its name. -/
theorem findDimension_set {cube name : String} {dims : List Dimension} {i : Nat}
    {old dim : Dimension} (hold : dims[i]? = some old) (hname : dim.name = old.name) :
    findDimension cube (dims.set i dim) name = findDimension cube dims name :=
  findDimension_congr (names_set hold hname)

/-- Elements that are there before leave their dimension as it is. -/
theorem getElem?_growElements {cube name : String} {dims dims' : List Dimension} {j added n : Nat}
    {d : Dimension} {specs : List ElementSpec} (hj : findDimension cube dims name = .ok j)
    (hd : dims[j]? = some d)
    (hthere : ∀ spec ∈ specs, spec.dimension = name → (d.indexOf spec.name).isSome)
    (h : growElements cube dims added specs = .ok (dims', n)) : dims'[j]? = some d := by
  induction specs generalizing dims added with
  | nil =>
    cases h
    exact hd
  | cons spec specs ih =>
    obtain ⟨i, hi, h⟩ := bind_eq_ok.1 h
    obtain ⟨⟨dim, k⟩, hdim, h⟩ := bind_eq_ok.1 h
    obtain ⟨old, hold, holdname⟩ := findDimension_ok hi
    rw [List.getD, hold] at hdim
    have hgrown := growElement_ok hdim
    have hrest := fun s hs => hthere s (List.mem_cons_of_mem spec hs)
    refine ih ((findDimension_set hold hgrown.name).trans hj) ?_ hrest h
    by_cases hname : spec.dimension = name
    · rw [hname] at hi
      obtain rfl : i = j := Except.ok.inj (hi.symm.trans hj)
      obtain rfl : old = d := Option.some.inj (hold.symm.trans hd)
      have hsome := hthere spec List.mem_cons_self hname
      have hsame : dim = old := by
        unfold growElement at hdim
        split at hdim
        · obtain ⟨el, -, hdim⟩ := bind_eq_ok.1 hdim
          split_ifs at hdim
          cases hdim
          rfl
        · rename_i hnone
          have hnone' : old.indexOf spec.name = none := hnone
          rw [hnone'] at hsome
          cases hsome
      rw [hsame, List.getElem?_set_self (List.getElem?_eq_some_iff.1 hold).1]
    · obtain ⟨other, hother, hothername⟩ := findDimension_ok hj
      rw [List.getElem?_set_ne, hd]
      rintro rfl
      obtain rfl : old = other := Option.some.inj (hold.symm.trans hother)
      exact hname (holdname.symm.trans hothername)

/-- Edges that are there before leave their dimension as it is. -/
theorem getElem?_growEdges {cube name : String} {dims dims' : List Dimension} {j : Nat}
    {d : Dimension} {specs : List EdgeSpec} (hj : findDimension cube dims name = .ok j)
    (hd : dims[j]? = some d)
    (hthere : ∀ spec ∈ specs, spec.dimension = name → ∃ p ch, d.indexOf spec.parent = some p ∧
      d.indexOf spec.child = some ch ∧ ∃ e ∈ d.edgesOf p, e.child = ch)
    (h : growEdges cube dims specs = .ok dims') : dims'[j]? = some d := by
  induction specs generalizing dims with
  | nil =>
    cases h
    exact hd
  | cons spec specs ih =>
    obtain ⟨i, hi, h⟩ := bind_eq_ok.1 h
    obtain ⟨dim, hdim, h⟩ := bind_eq_ok.1 h
    obtain ⟨old, hold, holdname⟩ := findDimension_ok hi
    rw [List.getD, hold] at hdim
    have hgrown := growEdge_ok hdim
    have hrest := fun s hs => hthere s (List.mem_cons_of_mem spec hs)
    refine ih ((findDimension_set hold hgrown.name).trans hj) ?_ hrest h
    -- an edge that is there already leaves the dimension as it is
    by_cases hname : spec.dimension = name
    · rw [hname] at hi
      obtain rfl : i = j := Except.ok.inj (hi.symm.trans hj)
      obtain rfl : old = d := Option.some.inj (hold.symm.trans hd)
      obtain ⟨p, ch, hp, hch, e, he, hechild⟩ := hthere spec List.mem_cons_self hname
      have hsame : dim = old := by
        unfold growEdge at hdim
        obtain ⟨p', hp', hdim⟩ := bind_eq_ok.1 hdim
        obtain ⟨ch', hch', hdim⟩ := bind_eq_ok.1 hdim
        obtain ⟨w, hw, hdim⟩ := bind_eq_ok.1 hdim
        rw [findElement, okOr_eq_ok] at hp' hch'
        cases hp.symm.trans hp'
        cases hch.symm.trans hch'
        cases w with
        | some w =>
          dsimp only at hdim
          split_ifs at hdim
          cases hdim
          rfl
        | none =>
          unfold Dimension.childWeight at hw
          obtain ⟨-, -, hw⟩ := bind_eq_ok.1 hw
          obtain ⟨-, -, hw⟩ := bind_eq_ok.1 hw
          have hnone : ((old.edgesOf p).find? fun e => e.child = ch) = none := by
            simpa using Except.ok.inj hw
          rw [List.find?_eq_none] at hnone
          exact absurd hechild (by simpa using hnone e he)
      rw [hsame, List.getElem?_set_self (List.getElem?_eq_some_iff.1 hold).1]
    · obtain ⟨other, hother, hothername⟩ := findDimension_ok hj
      rw [List.getElem?_set_ne, hd]
      rintro rfl
      obtain rfl : old = other := Option.some.inj (hold.symm.trans hother)
      exact hname (holdname.symm.trans hothername)

/-- **A growth leaves a dimension in which everything it names is there.** -/
theorem dimensionNamed_extendSchema {elements : List ElementSpec} {edges : List EdgeSpec}
    {n : Nat} (h : c.extendSchema elements edges = .ok (c', n)) {name : String} {d : Dimension}
    (hd : c.dimensionNamed name = some d)
    (helements : ∀ spec ∈ elements, spec.dimension = name → c.hasElement spec = true)
    (hedges : ∀ spec ∈ edges, spec.dimension = name → c.hasEdge spec = true) :
    c'.dimensionNamed name = c.dimensionNamed name := by
  obtain ⟨⟨dims, k⟩, hdims, h⟩ := bind_eq_ok.1 h
  cases h
  obtain ⟨⟨mid, m⟩, hmid, hdims⟩ := bind_eq_ok.1 hdims
  obtain ⟨dims', hdims', hdims⟩ := bind_eq_ok.1 hdims
  cases hdims
  obtain ⟨j, hj, hjd⟩ := dimensionNamed_eq_some.1 hd
  have hget := (dimensionIndex_ok hj).1
  rw [hjd] at hget
  have hmidget : mid[j]? = some d := by
    refine getElem?_growElements hj hget (fun spec hspec hname => ?_) hmid
    have := helements spec hspec hname
    rw [hasElement, hname, hd] at this
    exact this
  have hnames := (growElements_ok hmid).names
  have hmidj : findDimension c.name mid name = .ok j := by
    rw [← findDimension_congr hnames]
    exact hj
  have hdimsget : dims[j]? = some d := by
    refine getElem?_growEdges hmidj hmidget (fun spec hspec hname => ?_) hdims'
    have := hedges spec hspec hname
    rw [hasEdge, hname, hd] at this
    exact Dimension.hasEdge_eq_true.1 this
  exact dimensionNamed_congr (hnames.trans (growEdges_ok hdims').names).symm hj
    (hdimsget.trans hget.symm) (dimensions_relayout _)

end Cube

end Epiphany
