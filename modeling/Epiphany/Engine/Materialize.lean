import Epiphany.Core.Tables
import Epiphany.Engine.SharedChange
/-!
# Materializing a reference — the copy a new cube holds

A cube that references a shared dimension is built from the definition of
it, by the path that builds any cube. The copy is the dimension itself
(`dimensionNamed_build`) when the dimension is `Copyable`: a definition
carries no pin, and the build drops an edge that repeats an earlier one.
The proof follows the build: each of its loops acts on the dimension of one
name, and is read at the position of that name.
-/

namespace Epiphany

namespace Dimension

variable {d d' : Dimension}

/-- Nothing is pinned, and no child is listed twice under one parent. -/
def Copyable (d : Dimension) : Prop :=
  (∀ e ∈ d.elements, e.pinnedToTop = false) ∧ ∀ edges ∈ d.children, (edges.map Edge.child).Nodup

instance : Decidable d.Copyable :=
  inferInstanceAs (Decidable ((∀ e ∈ d.elements, e.pinnedToTop = false) ∧
    ∀ edges ∈ d.children, (edges.map Edge.child).Nodup))

theorem Copyable.nodup (h : d.Copyable) (p : Nat) : ((d.edgesOf p).map Edge.child).Nodup := by
  rcases hrow : d.children[p]? with _ | edges
  · simp [edgesOf, List.getD, hrow]
  · rw [edgesOf_eq hrow]
    exact h.2 edges (List.mem_of_getElem? hrow)

end Dimension

namespace Cube

open Dimension

variable {dims dims' : List Dimension} {i : Nat} {d d' : Dimension}

/-- In a list of distinct names a name leads to its own position only. -/
theorem findDimension_eq_iff {cube name : String} {j : Nat}
    (hn : (dims.map Dimension.name).Nodup) (hd : dims[i]? = some d)
    (h : findDimension cube dims name = .ok j) : name = d.name ↔ j = i := by
  obtain ⟨x, hx, rfl⟩ := findDimension_ok h
  constructor
  · intro hname
    have hj : (dims.map Dimension.name)[j]? = some d.name := by
      rw [List.getElem?_map, hx, Option.map_some, hname]
    have hi : (dims.map Dimension.name)[i]? = some d.name := by
      rw [List.getElem?_map, hd, Option.map_some]
    exact (List.getElem?_inj (List.getElem?_eq_some_iff.1 hj).1 hn).1 (hj.trans hi.symm)
  · rintro rfl
    rw [Option.some.inj (hx.symm.trans hd)]

theorem findDimension_of_getElem? {cube : String} (hn : (dims.map Dimension.name).Nodup)
    (hd : dims[i]? = some d) : findDimension cube dims d.name = .ok i := by
  rcases hj : findDimension cube dims d.name with e | j
  · simp only [findDimension, okOr] at hj
    split at hj
    · cases hj
    · rename_i hnone
      rw [List.findIdx?_eq_none_iff] at hnone
      have := hnone d (List.mem_of_getElem? hd)
      simp at this
  · rw [(findDimension_eq_iff hn hd hj).1 rfl]

/-! ## Elements -/

/-- The specifications of one dimension. -/
def specsOf (name : String) (specs : List ElementSpec) : List ElementSpec :=
  specs.filter fun s => s.dimension = name

/-- New elements of distinct names are appended in order. -/
theorem elements_growElements {cube : String} {added n : Nat} {specs : List ElementSpec}
    (h : growElements cube dims added specs = .ok (dims', n))
    (hn : (dims.map Dimension.name).Nodup) (hd : dims[i]? = some d) (hwf : d.WF)
    (hfresh : (d.elements.map Element.name ++
      (specsOf d.name specs).map ElementSpec.name).Nodup)
    (d' : Dimension) (hd' : dims'[i]? = some d') :
    d'.elements = d.elements ++ (specsOf d.name specs).map fun s => ⟨s.name, s.kind, false⟩ := by
  induction specs generalizing dims added d with
  | nil =>
    cases h
    rw [Option.some.inj (hd'.symm.trans hd)]
    simp [specsOf]
  | cons spec specs ih =>
    simp only [growElements, bind_eq_ok] at h
    obtain ⟨j, hj, ⟨next, m⟩, hnext, h⟩ := h
    obtain ⟨old, hold, -⟩ := findDimension_ok hj
    rw [List.getD, hold, Option.getD_some] at hnext
    have hname := (growElement_ok hnext).name
    have hn' : ((dims.set j next).map Dimension.name).Nodup := by rwa [names_set hold hname]
    have hiff := findDimension_eq_iff hn hd hj
    by_cases hspec : spec.dimension = d.name
    · obtain rfl := hiff.1 hspec
      obtain rfl := Option.some.inj (hold.symm.trans hd)
      have hcons : specsOf old.name (spec :: specs) = spec :: specsOf old.name specs := by
        simp [specsOf, hspec]
      rw [hcons, List.map_cons] at hfresh ⊢
      have hnew : spec.name ∉ old.elements.map Element.name := fun hmem =>
        (List.nodup_append.1 hfresh).2.2 _ hmem _ List.mem_cons_self rfl
      have hnone := hwf.indexOf_eq_none hnew
      rw [growElement, hnone] at hnext
      cases hnext
      have hels : (old.addElement spec.name spec.kind).elements =
          old.elements ++ [⟨spec.name, spec.kind, false⟩] := by
        rw [addElement_of_none hnone]
      have hself := List.getElem?_set_self (l := dims) (a := old.addElement spec.name spec.kind)
        (List.getElem?_eq_some_iff.1 hold).1
      have hrest := ih h hn' hself (hwf.addElement _ _)
      rw [hname, hels] at hrest
      rw [hrest (by simpa [List.append_assoc] using hfresh), List.append_assoc]
      rfl
    · have hne : j ≠ i := fun hji => hspec (hiff.2 hji)
      have hcons : specsOf d.name (spec :: specs) = specsOf d.name specs := by
        simp [specsOf, hspec]
      rw [hcons] at hfresh ⊢
      exact ih h hn' ((List.getElem?_set_ne hne).trans hd) hwf hfresh

/-! ## Edges -/

def edgeSpecsOf (name : String) (specs : List EdgeSpec) : List EdgeSpec :=
  specs.filter fun s => s.dimension = name

/-- The edge a specification asks for under the element at `q`. -/
def edgeAt (d : Dimension) (q : Nat) (s : EdgeSpec) : Option Edge :=
  if d.indexOf s.parent = some q then (d.indexOf s.child).map fun child => ⟨child, s.weight⟩
  else none

/-- An edge to a new child is appended under its parent. -/
theorem edgesOf_growEdge {spec : EdgeSpec} (hwf : d.WF) (h : growEdge d spec = .ok d')
    (hfresh : ∀ q, ((d.edgesOf q ++ (edgeAt d q spec).toList).map Edge.child).Nodup) :
    (∀ q, d'.edgesOf q = d.edgesOf q ++ (edgeAt d q spec).toList) ∧
      d'.elements = d.elements ∧ d'.indexByName = d.indexByName := by
  simp only [growEdge, bind_eq_ok, findElement_eq_ok] at h
  obtain ⟨parent, hparent, child, hchild, w, hw, h⟩ := h
  have hedge : ∀ q, edgeAt d q spec = if parent = q then some ⟨child, spec.weight⟩ else none := by
    intro q
    simp [edgeAt, indexOf, hparent, hchild]
  rcases w with _ | w
  · refine ⟨fun q => ?_, ?_⟩
    · rw [edgesOf_addChild hwf h, hedge]
      split_ifs <;> simp
    · obtain ⟨-, -, -, rfl⟩ := addChild_ok h
      exact ⟨rfl, rfl⟩
  -- an edge that is there is the child listed twice
  · simp only [childWeight, bind_eq_ok, Except.ok.injEq] at hw
    obtain ⟨-, -, -, -, hw⟩ := hw
    obtain ⟨e, he, -⟩ := Option.map_eq_some_iff.1 hw
    have hec : e.child = child := by simpa using List.find?_some he
    have hnodup := hfresh parent
    rw [hedge, if_pos rfl, Option.toList_some, List.map_append, List.nodup_append] at hnodup
    exact absurd hec (hnodup.2.2 _ (List.mem_map_of_mem (List.mem_of_find?_eq_some he)) _
      (List.mem_singleton.2 rfl))

/-- New edges are appended under their parents in order. -/
theorem edgesOf_growEdges_fresh {cube : String} {specs : List EdgeSpec}
    (h : growEdges cube dims specs = .ok dims')
    (hn : (dims.map Dimension.name).Nodup) (hd : dims[i]? = some d) (hwf : d.WF)
    (hfresh : ∀ q, ((d.edgesOf q ++ (edgeSpecsOf d.name specs).filterMap (edgeAt d q)).map
      Edge.child).Nodup)
    (hd' : dims'[i]? = some d') :
    (∀ q, d'.edgesOf q = d.edgesOf q ++ (edgeSpecsOf d.name specs).filterMap (edgeAt d q)) ∧
      d'.elements = d.elements := by
  induction specs generalizing dims d with
  | nil =>
    cases h
    rw [Option.some.inj (hd'.symm.trans hd)]
    simp [edgeSpecsOf]
  | cons spec specs ih =>
    simp only [growEdges, bind_eq_ok] at h
    obtain ⟨j, hj, next, hnext, h⟩ := h
    obtain ⟨old, hold, -⟩ := findDimension_ok hj
    rw [List.getD, hold, Option.getD_some] at hnext
    have hg := growEdge_ok hnext
    have hn' : ((dims.set j next).map Dimension.name).Nodup := by rwa [names_set hold hg.name]
    have hiff := findDimension_eq_iff hn hd hj
    -- an edge of this dimension goes to the end of its row, any other leaves the dimension alone
    by_cases hspec : spec.dimension = d.name
    · obtain rfl := hiff.1 hspec
      obtain rfl := Option.some.inj (hold.symm.trans hd)
      have hcons : ∀ q, (edgeSpecsOf old.name (spec :: specs)).filterMap (edgeAt old q) =
          (edgeAt old q spec).toList ++ (edgeSpecsOf old.name specs).filterMap (edgeAt old q) := by
        intro q
        rcases hq : edgeAt old q spec with _ | e <;> simp [edgeSpecsOf, hspec, hq]
      simp only [hcons] at hfresh ⊢
      obtain ⟨hedges, hels, hidx⟩ := edgesOf_growEdge hwf hnext fun q => by
        have := hfresh q
        rw [← List.append_assoc, List.map_append] at this
        exact this.of_append_left
      have hindex : next.indexOf = old.indexOf := funext fun n => by rw [indexOf, indexOf, hidx]
      have hat : ∀ q, edgeAt next q = edgeAt old q := fun q => funext fun s => by
        simp only [edgeAt, hindex]
      have hself := List.getElem?_set_self (l := dims) (a := next)
        (List.getElem?_eq_some_iff.1 hold).1
      obtain ⟨hrest, hels'⟩ := ih h hn' hself (hg.wf hwf) fun q => by
        rw [hedges, hg.name, hat, List.append_assoc]
        exact hfresh q
      refine ⟨fun q => ?_, hels'.trans hels⟩
      rw [hrest, hedges, hg.name, hat, List.append_assoc]
    · have hne : j ≠ i := fun hji => hspec (hiff.2 hji)
      have hcons : edgeSpecsOf d.name (spec :: specs) = edgeSpecsOf d.name specs := by
        simp [edgeSpecsOf, hspec]
      rw [hcons] at hfresh ⊢
      exact ih h hn' ((List.getElem?_set_ne hne).trans hd) hwf hfresh

/-! ## Attributes -/

/-- The value a setting gives to the element at `q`. -/
def valueAt (d : Dimension) (q : Nat) (v : String × String × AttributeValue) :
    Option (Nat × AttributeValue) :=
  if d.indexOf v.1 = some q then (d.attributeIndex v.2.1).map fun a => (a, v.2.2) else none

/-- Values are inserted in order. -/
theorem valuesOf_setValues {dimension : String} {vs : List (String × String × AttributeValue)}
    (hwf : d.WF) (h : setValues dimension d vs = .ok d') :
    (∀ q, d'.valuesOf q =
      (vs.filterMap (valueAt d q)).foldl (fun m e => m.insert e.1 e.2) (d.valuesOf q)) ∧
      d'.WF ∧ ∃ values aliases,
        d' = { d with attrValues := values, aliasToElement := aliases } := by
  induction vs generalizing d with
  | nil =>
    cases h
    exact ⟨fun q => rfl, hwf, _, _, rfl⟩
  | cons v vs ih =>
    obtain ⟨element, attr, value⟩ := v
    simp only [setValues, bind_eq_ok, findElement_eq_ok] at h
    obtain ⟨k, hk, mid, hmid, h⟩ := h
    have hwf' := hwf.setAttribute hmid
    obtain ⟨hlt, a, kind, aliases, ha, -, -, -, rfl⟩ := setAttribute_ok hmid
    obtain ⟨hrest, hwf'', values, aliases', heq⟩ := ih hwf' h
    refine ⟨fun q => ?_, hwf'', values, aliases', heq⟩
    have hat : valueAt ({ d with
        aliasToElement := aliases
        attrValues := d.attrValues.modify k (·.insert a value) } : Dimension) q =
        valueAt d q := rfl
    have hval : ({ d with
        aliasToElement := aliases
        attrValues := d.attrValues.modify k (·.insert a value) } : Dimension).valuesOf q = _ :=
      valuesOf_modify hwf hlt a value q
    rw [hrest q, hat, hval]
    by_cases hq : k = q
    · have hv : valueAt d q (element, attr, value) = some (a, value) := by
        simp [valueAt, indexOf, hk, hq, ha]
      rw [if_pos hq, List.filterMap_cons_some hv, List.foldl_cons]
    · have hv : valueAt d q (element, attr, value) = none := by
        simp [valueAt, indexOf, hk, hq]
      rw [if_neg hq, List.filterMap_cons_none hv]

/-! ## The loops of a build, at one position -/

variable {c c' : Cube}

theorem duplicateName_eq_none {seen : List String} {defs : List DimensionDef}
    (h : duplicateName seen defs = none) :
    (defs.map DimensionDef.name).Nodup ∧ ∀ x ∈ defs, x.name ∉ seen := by
  induction defs generalizing seen with
  | nil => simp
  | cons x defs ih =>
    rw [duplicateName] at h
    split_ifs at h with hx
    obtain ⟨hnodup, hseen⟩ := ih h
    refine ⟨List.nodup_cons.2 ⟨fun hmem => ?_, hnodup⟩, ?_⟩
    · obtain ⟨y, hy, hyx⟩ := List.mem_map.1 hmem
      exact hseen y hy (hyx ▸ List.mem_cons_self)
    · intro y hy
      rcases List.mem_cons.1 hy with rfl | hy
      · exact hx
      · exact fun hmem => hseen y hy (List.mem_cons_of_mem _ hmem)

/-- The elements and edges of all definitions, each with its dimension. -/
def elementSpecs (defs : List DimensionDef) : List ElementSpec :=
  defs.flatMap fun d => d.elements.map fun e => ⟨d.name, e.1, e.2⟩

def edgeSpecs (defs : List DimensionDef) : List EdgeSpec :=
  defs.flatMap fun d => d.edges.map fun e => ⟨d.name, e.1, e.2.1, e.2.2⟩

/-- The stages of an accepted build. -/
theorem build_ok {name : String} {defs : List DimensionDef} (h : Cube.build name defs = .ok c) :
    (defs.map DimensionDef.name).Nodup ∧ ∃ dims dims' n grown,
      growElements name (defs.map fun d => Dimension.new d.name) 0 (elementSpecs defs) =
        .ok (dims, n) ∧
      growEdges name dims (edgeSpecs defs) = .ok dims' ∧ grown.WF ∧ grown.dimensions = dims' ∧
      defs.foldlM buildAttributes grown = .ok c := by
  rw [Cube.build] at h
  split_ifs at h
  split at h
  · cases h
  · rename_i hdup
    simp only [bind_eq_ok] at h
    obtain ⟨fresh, hfresh, ⟨grown, n⟩, hgrown, h⟩ := h
    have hwf : fresh.WF := WF.new (fun d hd => by
      obtain ⟨x, -, rfl⟩ := List.mem_map.1 hd
      exact Dimension.WF.new x.name) hfresh
    have hwf' := hwf.extendSchema hgrown
    simp only [Cube.new, ite_error_eq_ok, Except.ok.injEq] at hfresh
    obtain ⟨-, rfl⟩ := hfresh
    simp only [extendSchema, applyGrowth, bind_eq_ok, Except.ok.injEq, Prod.mk.injEq] at hgrown
    obtain ⟨⟨dims', k⟩, ⟨⟨dims, m⟩, hels, dims'', hedges, heq⟩, rfl, rfl⟩ := hgrown
    cases heq
    exact ⟨(duplicateName_eq_none hdup).1, dims, _, _, _, hels, hedges, hwf',
      dimensions_relayout _, h⟩

theorem defineAttribute_ok {dimension name : String} {kind : AttributeKind}
    (h : c.defineAttribute dimension name kind = .ok c') : ∃ j,
      c.dimensionIndex dimension = .ok j ∧
      c'.dimensions = c.dimensions.set j ((c.dimension j).addAttribute name kind) := by
  simp only [Cube.defineAttribute, bind_eq_ok] at h
  obtain ⟨j, hj, h⟩ := h
  refine ⟨j, hj, ?_⟩
  split at h
  · rename_i existing hexisting
    split_ifs at h
    cases h
    have hsame : (c.dimension j).addAttribute name kind = c.dimension j := by
      simp only [addAttribute]
      rw [show (c.dimension j).attrIndexByName[name]? = some existing from hexisting]
    rw [hsame, set_self (dimensionIndex_ok hj).1]
  · cases h
    rfl

/-- Setting the dimension of a name, read at one position. -/
theorem getElem?_set_named {name : String} {j : Nat} {x : Dimension}
    (hn : (c.dimensions.map Dimension.name).Nodup) (hd : c.dimensions[i]? = some d)
    (hj : c.dimensionIndex name = .ok j) :
    (c.dimensions.set j x)[i]? = some (if name = d.name then x else d) := by
  have hiff := findDimension_eq_iff hn hd hj
  by_cases hname : name = d.name
  · obtain rfl := hiff.1 hname
    rw [if_pos hname, List.getElem?_set_self (List.getElem?_eq_some_iff.1 hd).1]
  · rw [if_neg hname, List.getElem?_set_ne fun h => hname (hiff.2 h), hd]

theorem getElem?_foldlM_defineAttribute {name : String} {attrs : List (String × AttributeKind)}
    (h : attrs.foldlM (fun c a => c.defineAttribute name a.1 a.2) c = .ok c')
    (hn : (c.dimensions.map Dimension.name).Nodup) (hd : c.dimensions[i]? = some d) :
    c'.dimensions.map Dimension.name = c.dimensions.map Dimension.name ∧
      c'.dimensions[i]? = some (if name = d.name then
        attrs.foldl (fun d a => d.addAttribute a.1 a.2) d else d) := by
  induction attrs generalizing c d with
  | nil =>
    cases h
    simp [hd]
  | cons a attrs ih =>
    rw [List.foldlM_cons, bind_eq_ok] at h
    obtain ⟨mid, hmid, h⟩ := h
    obtain ⟨j, hj, hdims⟩ := defineAttribute_ok hmid
    have hname : ∀ x : Dimension, (x.addAttribute a.1 a.2).name = x.name := by
      intro x
      rcases hx : x.attrIndexByName[a.1]? with _ | _ <;> simp [addAttribute, hx]
    have hnames : mid.dimensions.map Dimension.name = c.dimensions.map Dimension.name := by
      rw [hdims, names_set (dimensionIndex_ok hj).1 (hname _)]
    have hget := getElem?_set_named (x := (c.dimension j).addAttribute a.1 a.2) hn hd hj
    rw [← hdims] at hget
    obtain ⟨hrest, hget'⟩ := ih h (hnames ▸ hn) hget
    refine ⟨hrest.trans hnames, hget'.trans ?_⟩
    have hiff := findDimension_eq_iff hn hd hj
    by_cases hd' : name = d.name
    · obtain rfl := hiff.1 hd'
      rw [dimension_eq hd]
      simp [hd', hname]
    · simp [hd']

/-- One definition's attributes change the dimension of its name only. -/
theorem getElem?_buildAttributes {x : DimensionDef} (h : c.buildAttributes x = .ok c')
    (hc : c.WF) (hn : (c.dimensions.map Dimension.name).Nodup)
    (hd : c.dimensions[i]? = some d) :
    c'.dimensions.map Dimension.name = c.dimensions.map Dimension.name ∧
      ∃ d', c'.dimensions[i]? = some d' ∧
        if x.name = d.name then
          setValues x.name (x.attributes.foldl (fun d a => d.addAttribute a.1 a.2) d)
            x.attributeValues = .ok d'
        else d' = d := by
  simp only [Cube.buildAttributes, bind_eq_ok] at h
  obtain ⟨mid, hmid, h⟩ := h
  obtain ⟨hnames, hget⟩ := getElem?_foldlM_defineAttribute hmid hn hd
  have hwf : mid.WF := foldlM_invariant (fun _ _ _ hb h => hb.defineAttribute h) hc hmid
  split_ifs at h with hempty
  · cases h
    refine ⟨hnames, _, hget, ?_⟩
    rw [List.isEmpty_iff.1 hempty]
    by_cases hx : x.name = d.name
    · simp [hx, setValues]
    · simp [hx]
  · simp only [bind_eq_ok, Except.ok.injEq] at h
    obtain ⟨j, hj, dim, hdim, rfl⟩ := h
    have hold := (dimensionIndex_ok hj).1
    have hname := (setValues_ok hdim (hwf.dimension hold)).2.2
    refine ⟨(names_set hold hname).trans hnames, _,
      getElem?_set_named (hnames ▸ hn) hget hj, ?_⟩
    have hiff := findDimension_eq_iff (hnames ▸ hn) hget hj
    by_cases hx : x.name = d.name
    · have hfold : (x.attributes.foldl (fun d a => d.addAttribute a.1 a.2) d).name = d.name := by
        obtain ⟨-, _, _, heq⟩ :=
          frame_foldl x.attributes (hc.dims d (List.mem_of_getElem? hd))
        rw [heq]
      rw [if_pos hx] at hget hiff ⊢
      obtain rfl := hiff.1 (hx.trans hfold.symm)
      rw [dimension_eq hget] at hdim
      rw [if_pos hx, if_pos (hx.trans hfold.symm)]
      exact hdim
    · rw [if_neg hx, if_neg hx, if_neg hx]

/-- Over definitions of distinct names, a dimension takes the attributes of
its own. -/
theorem getElem?_foldlM_buildAttributes {defs : List DimensionDef}
    (h : defs.foldlM buildAttributes c = .ok c') (hc : c.WF)
    (hn : (c.dimensions.map Dimension.name).Nodup)
    (hdefs : (defs.map DimensionDef.name).Nodup) (hd : c.dimensions[i]? = some d) :
    c'.dimensions.map Dimension.name = c.dimensions.map Dimension.name ∧
      ((∀ x ∈ defs, x.name ≠ d.name) → c'.dimensions[i]? = some d) ∧
      ∀ x ∈ defs, x.name = d.name → ∃ d', c'.dimensions[i]? = some d' ∧
        setValues x.name (x.attributes.foldl (fun d a => d.addAttribute a.1 a.2) d)
          x.attributeValues = .ok d' := by
  induction defs generalizing c d with
  | nil =>
    cases h
    exact ⟨rfl, fun _ => hd, fun x hx => by cases hx⟩
  | cons y defs ih =>
    rw [List.foldlM_cons, bind_eq_ok] at h
    obtain ⟨mid, hmid, h⟩ := h
    rw [List.map_cons, List.nodup_cons] at hdefs
    obtain ⟨hnames, d', hget, hstep⟩ := getElem?_buildAttributes hmid hc hn hd
    have hwf : mid.WF := hc.buildAttributes hmid
    have hname : d'.name = d.name := by
      have := congrArg (fun l => l[i]?) hnames
      simpa [hget, hd] using this
    obtain ⟨hrest, hkeep, hset⟩ := ih h hwf (hnames ▸ hn) hdefs.2 hget
    rw [hname] at hkeep hset
    refine ⟨hrest.trans hnames, fun hall => ?_, fun x hx hxd => ?_⟩
    · rw [if_neg (hall y List.mem_cons_self)] at hstep
      exact hstep ▸ hkeep fun x hx => hall x (List.mem_cons_of_mem _ hx)
    · rcases List.mem_cons.1 hx with rfl | hmem
      · rw [if_pos hxd] at hstep
        refine ⟨d', hkeep fun z hz hzd => hdefs.1 ?_, hstep⟩
        exact (hxd.trans hzd.symm) ▸ List.mem_map_of_mem hz
      · have hy : y.name ≠ d.name := fun hyd =>
          hdefs.1 ((hyd.trans hxd.symm) ▸ List.mem_map_of_mem hmem)
        rw [if_neg hy] at hstep
        subst hstep
        exact hset x hmem hxd

end Cube

/-! ## The copy -/

section Copy

open Dimension

variable {d b : Dimension}

theorem filterMap_edgeAt (hd : d.WF) (hb : b.WF)
    (hels : b.elements.map Element.name = d.elements.map Element.name) (name : String) (q : Nat) :
    ((((List.range d.len).flatMap fun p => (d.edgesOf p).map fun e =>
        ((d.nameAt p).getD "", (d.nameAt e.child).getD "", e.weight)).map
      fun e => (⟨name, e.1, e.2.1, e.2.2⟩ : EdgeSpec)).filterMap (Cube.edgeAt b q)) =
      d.edgesOf q := by
  rw [List.filterMap_map, filterMap_rows (g := id) (q := q)]
  · split_ifs with hq
    · rw [List.map_id]
    · exact (edgesOf_of_le (by rw [hd.children_length]; exact Nat.not_lt.1 hq)).symm
  · intro p hp e he
    have hparent := indexOf_nameAt hd hb hels hp q
    have hchild := (indexOf_nameAt hd hb hels (hd.edges_lt p e he) e.child).2 rfl
    simp only [Function.comp_apply, Cube.edgeAt, hparent, hchild, Option.map_some]
    rfl

/-- The values a definition lists, read back for one element. -/
theorem filterMap_valueAt (hd : d.WF) (hb : b.WF)
    (hels : b.elements.map Element.name = d.elements.map Element.name)
    (hattrs : b.attributes = d.attributes) (q : Nat) :
    (((List.range d.len).flatMap fun p => (d.valuesOf p).toList.map fun v =>
        ((d.nameAt p).getD "", ((d.attributes[v.1]?).map AttributeDef.name).getD "", v.2)).filterMap
      (Cube.valueAt b q)) = (d.valuesOf q).toList := by
  rw [filterMap_rows (g := id) (q := q)]
  · split_ifs with hq
    · rw [List.map_id]
    · rw [valuesOf_of_le (by rw [hd.values_length]; exact Nat.not_lt.1 hq)]
      rfl
  · rintro p hp ⟨a, v⟩ hv
    have hel := indexOf_nameAt hd hb hels hp q
    obtain ⟨kind, hkind, -⟩ := hd.values p a v (FinMap.mem_toList.1 hv)
    obtain ⟨x, hx, -⟩ := Option.map_eq_some_iff.1 hkind
    have hattr : b.attributeIndex x.name = some a := by
      rw [attributeIndex, hb.attr_index, hattrs, hx]
      rfl
    simp only [Cube.valueAt, hel, hx, Option.map_some, Option.getD_some, hattr]
    rfl

variable {name : String} {defs : List DimensionDef} {dims dims' : List Dimension} {i n : Nat}
variable {s : SharedDimension}

/-- Related dimensions stand at the same position. -/
theorem getElem?_grown (hg : Cube.GrownAll dims dims') (hb : dims[i]? = some b) :
    ∃ x, dims'[i]? = some x ∧ Grown b x := by
  obtain ⟨hl, hget⟩ := forall₂_iff_getElem?.1 hg
  have hlt := hl ▸ (List.getElem?_eq_some_iff.1 hb).1
  exact ⟨_, List.getElem?_eq_getElem hlt, hget i _ _ hb (List.getElem?_eq_getElem hlt)⟩

/-- The elements of the copy, grown from nothing. -/
theorem copy_elements (hnodup : (defs.map DimensionDef.name).Nodup)
    (hi : defs[i]? = some s.toDimensionDef) (hd : s.dimension.WF)
    (hpins : ∀ e ∈ s.dimension.elements, e.pinnedToTop = false)
    (h : Cube.growElements name (defs.map fun d => Dimension.new d.name) 0
      (Cube.elementSpecs defs) = .ok (dims, n)) :
    ∃ x, dims[i]? = some x ∧ Grown (Dimension.new s.dimension.name) x ∧
      x.elements = s.dimension.elements ∧ ∀ p, x.edgesOf p = [] := by
  have hstart : (defs.map fun x => Dimension.new x.name)[i]? =
      some (Dimension.new s.dimension.name) := by
    rw [List.getElem?_map, hi]
    rfl
  have hn : ((defs.map fun x => Dimension.new x.name).map Dimension.name).Nodup := by
    rw [List.map_map]
    exact hnodup
  obtain ⟨x, hx, hg⟩ := getElem?_grown (Cube.growElements_ok h) hstart
  refine ⟨x, hx, hg, ?_, fun p => Cube.edgesOf_growElements h hstart hx p⟩
  have hspecs : Cube.specsOf (Dimension.new s.dimension.name).name (Cube.elementSpecs defs) =
      s.dimension.elements.map fun e => ⟨s.dimension.name, e.name, e.kind⟩ := by
    refine (FinMap.filter_flatMap_of_nodup (fun y z hz => ?_) hnodup
      (List.mem_of_getElem? hi)).trans List.map_map
    obtain ⟨e, -, rfl⟩ := List.mem_map.1 hz
    rfl
  have hels := Cube.elements_growElements h hn hstart (WF.new _)
  rw [hspecs, List.map_map, List.map_map] at hels
  refine (hels hd.nodup_names x hx).trans ((List.nil_append _).trans ?_)
  -- a specification names no pin, and the element has none
  refine (List.map_congr_left fun e he => ?_).trans (List.map_id _)
  have hpin := hpins e he
  cases e
  simp_all

/-- The edges of the copy, under the elements grown before. -/
theorem copy_edges (hnodup : (defs.map DimensionDef.name).Nodup)
    (hi : defs[i]? = some s.toDimensionDef) (hd : s.dimension.WF)
    (hsimple : ∀ p, ((s.dimension.edgesOf p).map Edge.child).Nodup)
    (hn : (dims.map Dimension.name).Nodup) (hb : dims[i]? = some b) (hwf : b.WF)
    (hname : b.name = s.dimension.name) (hels : b.elements = s.dimension.elements)
    (hnone : ∀ p, b.edgesOf p = [])
    (h : Cube.growEdges name dims (Cube.edgeSpecs defs) = .ok dims') :
    ∃ x, dims'[i]? = some x ∧ Grown b x ∧ x.elements = s.dimension.elements ∧
      ∀ p, x.edgesOf p = s.dimension.edgesOf p := by
  obtain ⟨x, hx, hg⟩ := getElem?_grown (Cube.growEdges_ok h) hb
  have hspecs : Cube.edgeSpecsOf b.name (Cube.edgeSpecs defs) =
      s.toDimensionDef.edges.map fun e => ⟨s.dimension.name, e.1, e.2.1, e.2.2⟩ := by
    rw [hname]
    refine FinMap.filter_flatMap_of_nodup (fun y z hz => ?_) hnodup (List.mem_of_getElem? hi)
    obtain ⟨e, -, rfl⟩ := List.mem_map.1 hz
    rfl
  have hat : ∀ q, (Cube.edgeSpecsOf b.name (Cube.edgeSpecs defs)).filterMap (Cube.edgeAt b q) =
      s.dimension.edgesOf q := by
    intro q
    rw [hspecs]
    exact filterMap_edgeAt hd hwf (by rw [hels]) _ q
  obtain ⟨hedges, hels'⟩ := Cube.edgesOf_growEdges_fresh h hn hb hwf (fun q => by
    rw [hnone, hat, List.nil_append]
    exact hsimple q) hx
  refine ⟨x, hx, hg, hels'.trans hels, fun q => ?_⟩
  rw [hedges, hnone, hat, List.nil_append]

/-- The attributes and values of the copy, which complete it. -/
theorem copy_attributes (hd : s.dimension.WF) (hwf : b.WF) (hname : b.name = s.dimension.name)
    (hels : b.elements = s.dimension.elements)
    (hedges : ∀ p, b.edgesOf p = s.dimension.edgesOf p) (hattrs : b.attributes = [])
    (hvalues : ∀ p, b.valuesOf p = ∅) {x : Dimension}
    (h : Cube.setValues s.dimension.name
      (s.toDimensionDef.attributes.foldl (fun d a => d.addAttribute a.1 a.2) b)
      s.toDimensionDef.attributeValues = .ok x) : x = s.dimension := by
  set mid := s.toDimensionDef.attributes.foldl (fun d a => d.addAttribute a.1 a.2) b with hmid
  obtain ⟨hmwf, attributes, index, heq⟩ := frame_foldl s.toDimensionDef.attributes hwf
  have hmattrs : mid.attributes = s.dimension.attributes := by
    rw [hmid, attributes_foldl hwf, hattrs]
    · refine (List.nil_append _).trans (List.map_map.trans ?_)
      exact List.map_id _
    · rw [hattrs]
      refine (congrArg List.Nodup List.map_map).mpr ?_
      exact hd.nodup_attributes
  rw [← hmid] at hmwf heq
  have hmels : mid.elements = s.dimension.elements := by rw [heq, ← hels]
  obtain ⟨hval, hxwf, values, aliases, hx⟩ := Cube.valuesOf_setValues hmwf h
  refine hd.eq_of_tables hxwf ?_ ?_ (fun p => ?_) ?_ fun q => ?_
  · rw [hx, ← hname, heq]
  · rw [hx, ← hels, heq]
  · rw [← hedges, hx, heq]
    rfl
  · rw [hx]
    exact hmattrs
  · have hempty : mid.valuesOf q = ∅ := by
      rw [← hvalues q, heq]
      rfl
    rw [hval, hempty]
    refine (congrArg FinMap.collect ?_).trans (FinMap.collect_toList _)
    exact filterMap_valueAt hd hmwf (by rw [hmels]) hmattrs q

/-- **The copy is the dimension.** A cube built from definitions of which one
is taken from a copyable dimension holds that dimension. -/
theorem dimensionNamed_build {c : Cube} (h : Cube.build name defs = .ok c)
    (hs : s.toDimensionDef ∈ defs) (hd : s.dimension.WF) (hcopy : s.dimension.Copyable) :
    c.dimensionNamed s.dimension.name = some s.dimension := by
  obtain ⟨hnodup, dims, dims', n, grown, hels, hedges, hwf, rfl, hattrs⟩ := Cube.build_ok h
  obtain ⟨i, hi⟩ := List.mem_iff_getElem?.1 hs
  have hn : ((defs.map fun x => Dimension.new x.name).map Dimension.name).Nodup := by
    rw [List.map_map]
    exact hnodup
  have hn' : (dims.map Dimension.name).Nodup := (Cube.growElements_ok hels).names ▸ hn
  have hn'' : (grown.dimensions.map Dimension.name).Nodup :=
    (Cube.growEdges_ok hedges).names ▸ hn'
  obtain ⟨x, hx, hgx, hxels, hxedges⟩ := copy_elements hnodup hi hd hcopy.1 hels
  obtain ⟨y, hy, hgy, hyels, hyedges⟩ := copy_edges hnodup hi hd hcopy.nodup hn' hx
    (hgx.wf (WF.new _)) hgx.name hxels hxedges hedges
  have hg := hgx.trans hgy
  obtain ⟨hnames, -, hset⟩ := Cube.getElem?_foldlM_buildAttributes hattrs hwf hn'' hnodup hy
  obtain ⟨z, hz, hvals⟩ := hset _ hs hg.name.symm
  obtain rfl := copy_attributes hd (hg.wf (WF.new _)) hg.name hyels hyedges hg.attributes
    hg.values hvals
  exact Cube.dimensionNamed_eq_some.2
    ⟨i, Cube.findDimension_of_getElem? (hnames ▸ hn'') hz, Cube.dimension_eq hz⟩

end Copy

end Epiphany
