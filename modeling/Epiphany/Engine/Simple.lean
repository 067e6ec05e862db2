import Epiphany.Engine.Outline
import Epiphany.Engine.Materialize
/-!
# Simple dimensions — no child is listed twice under a parent

Every growth and every edit looks for an edge before it adds it, so a
dimension that starts without repeated edges never gets one. Such a
dimension is copied faithfully, up to its pins, into every cube that is
created with a reference to it.
-/

namespace Epiphany

namespace Dimension

variable {d d' : Dimension}

/-- No child is listed twice under one parent. -/
def Simple (d : Dimension) : Prop := ∀ p, ((d.edgesOf p).map Edge.child).Nodup

theorem Simple.of_children (h : d.Simple) (hchildren : d'.children = d.children) : d'.Simple := by
  intro p
  rw [edgesOf, hchildren]
  exact h p

theorem Simple.new (name : String) : (Dimension.new name).Simple := by
  intro p
  simp [Dimension.new, edgesOf]

theorem Simple.addElement (h : d.Simple) (name : String) (kind : ElementKind) :
    (d.addElement name kind).Simple := by
  intro p
  rcases hindex : d.indexByName[name]? with _ | i
  · have hedges : (d.addElement name kind).edgesOf p = d.edgesOf p := by
      rw [addElement_of_none hindex]
      exact edgesOf_snoc d p
    rw [hedges]
    exact h p
  · rw [addElement_of_some hindex]
    exact h p

/-- An edge that is not there is added once. -/
theorem Simple.push_edge (h : d.Simple) {parent : Nat} {e : Edge}
    (hnew : e.child ∉ (d.edgesOf parent).map Edge.child) :
    ({ d with children := d.children.modify parent (· ++ [e]) } : Dimension).Simple := by
  intro p
  rw [edgesOf_modify]
  split_ifs with hp
  · obtain ⟨rfl, -⟩ := hp
    rw [List.map_append, List.nodup_append]
    refine ⟨h parent, by simp, fun c hc c' hc' => ?_⟩
    rw [List.map_singleton, List.mem_singleton] at hc'
    rintro rfl
    exact hnew (hc' ▸ hc)
  · exact h p

theorem Simple.addChild (h : d.Simple) {parent child : Nat} {weight : Int}
    (hnew : child ∉ (d.edgesOf parent).map Edge.child)
    (hadd : d.addChild parent child weight = .ok d') : d'.Simple := by
  obtain ⟨-, -, -, rfl⟩ := addChild_ok hadd
  exact h.push_edge hnew

/-- Fewer edges repeat no child either. -/
theorem Simple.of_sublist (h : d.Simple) (hsub : ∀ p, (d'.edgesOf p).Sublist (d.edgesOf p)) :
    d'.Simple := fun p => (h p).sublist ((hsub p).map _)

theorem Simple.removeChild (h : d.Simple) {parent child : Nat}
    (hrem : d.removeChild parent child = .ok d') : d'.Simple := by
  rw [removeChild_ok hrem]
  refine h.of_sublist fun p => ?_
  rw [edgesOf_modify]
  split_ifs
  · exact List.filter_sublist
  · exact List.Sublist.refl _

theorem Simple.detach (h : d.Simple) (child : Nat) : (d.detach child).Simple := by
  refine h.of_sublist fun p => ?_
  rw [edgesOf_detach]
  exact List.filter_sublist

theorem Simple.reparent (h : d.Simple) {child : Nat} {newParent : Option Nat} {weight : Int}
    (hrep : d.reparent child newParent weight = .ok d') : d'.Simple := by
  obtain ⟨-, hrep⟩ := reparent_ok hrep
  rcases newParent with _ | parent
  · exact hrep ▸ h.detach child
  · obtain ⟨-, -, rfl⟩ := hrep
    have hnew : child ∉ (((d.detach child).promote parent).edgesOf parent).map Edge.child := by
      have hedges : ((d.detach child).promote parent).edgesOf parent =
          (d.detach child).edgesOf parent := rfl
      rw [hedges, edgesOf_detach]
      simp
    have hdetached : ((d.detach child).promote parent).Simple := (h.detach child).of_children rfl
    exact hdetached.push_edge hnew

theorem Simple.setKind (h : d.Simple) {i : Nat} {kind previous : ElementKind}
    (hset : d.setKind i kind = .ok (d', previous)) : d'.Simple := by
  obtain ⟨-, rfl, -⟩ := setKind_ok hset
  exact h.of_children rfl

theorem Simple.setPin (h : d.Simple) {i : Nat} {pinned : Bool}
    (hset : d.setPin i pinned = .ok d') : d'.Simple := by
  obtain ⟨-, rfl⟩ := setPin_ok hset
  exact h.of_children rfl

/-- A renumbering sends the children of a parent to distinct positions. -/
theorem Renumbers.simple {toNew : Renumbering} (hr : Renumbers d d' toNew) (h : d.Simple) :
    (reindexNames d').Simple := by
  intro p
  have hedges : (reindexNames d').edgesOf p = d'.edgesOf p := rfl
  rw [hedges]
  rcases hr.fresh p with ⟨i, hi⟩ | ⟨hnil, -⟩
  · rw [hr.edges i p hi, List.map_filterMap]
    have hchild : ((d.edgesOf i).filterMap fun e => (moveEdge toNew e).map Edge.child) =
        ((d.edgesOf i).map Edge.child).filterMap (moved toNew) := by
      rw [List.filterMap_map]
      refine congrFun (congrArg _ (funext fun e => ?_)) _
      simp [moveEdge, Function.comp_def]
    rw [hchild]
    refine (h i).filterMap fun c c' j hc hc' => ?_
    exact hr.inj c c' j hc hc'
  · simp [hnil]

theorem Simple.reorder (h : d.Simple) (hd : d.WF) {newOrder : List String} {toNew : Renumbering}
    (hre : d.reorder newOrder = .ok (d', toNew)) : d'.Simple := by
  obtain ⟨hlen, hloop, rfl⟩ := reorder_ok hre
  obtain ⟨hl, hp, -⟩ := hd.isPermutation_reorder hlen hloop
  exact (renumbers_permute hd hp hl).simple h

theorem Simple.delete (h : d.Simple) (hd : d.WF) {i : Nat} {toNew : Renumbering}
    (hdel : d.delete i = .ok (d', toNew)) : d'.Simple := by
  obtain ⟨hlt, -, rfl, rfl⟩ := delete_ok hdel
  exact (renumbers_delete hd hlt).simple h

theorem Simple.insertAt (h : d.Simple) (hd : d.WF) {name : String} {kind : ElementKind}
    {position : Nat} {toNew : Renumbering}
    (hins : d.insertAt name kind position = .ok (d', toNew)) : d'.Simple := by
  obtain ⟨hnew, rfl, rfl⟩ := insertAt_ok hins
  exact (renumbers_insert hd hnew kind (Nat.min_le_right _ _)).simple h

/-! ## Changes -/

theorem Simple.edit (h : d.Simple) (hd : d.WF) {edit : DimensionEdit}
    (he : d.edit edit = .ok d') : d'.Simple := by
  cases edit with
  | reorder newOrder =>
    obtain ⟨⟨next, toNew⟩, hnext, he⟩ := bind_eq_ok.1 he
    cases he
    exact h.reorder hd hnext
  | reparent child newParent weight =>
    obtain ⟨c, -, he⟩ := bind_eq_ok.1 he
    cases newParent with
    | none => exact h.reparent he
    | some parent =>
      obtain ⟨p, -, he⟩ := bind_eq_ok.1 he
      exact h.reparent he
  | addChild parent child weight =>
    obtain ⟨p, -, he⟩ := bind_eq_ok.1 he
    obtain ⟨c, -, he⟩ := bind_eq_ok.1 he
    obtain ⟨children, hchildren, he⟩ := bind_eq_ok.1 he
    split_ifs at he with hmem
    · cases he
      exact h
    · obtain ⟨mid, hmid, he⟩ := bind_eq_ok.1 he
      obtain ⟨-, -, hchildren⟩ := bind_eq_ok.1 hchildren
      cases hchildren
      -- turning the parent into a consolidation leaves every edge as it is
      have hsame : mid.children = d.children := by
        obtain ⟨el, -, hmid⟩ := bind_eq_ok.1 hmid
        split_ifs at hmid
        · obtain ⟨⟨next, previous⟩, hnext, hmid⟩ := bind_eq_ok.1 hmid
          cases hmid
          obtain ⟨-, rfl, -⟩ := setKind_ok hnext
          rfl
        · cases hmid
          rfl
      refine (h.of_children hsame).addChild ?_ he
      rwa [edgesOf, hsame]
  | removeChild parent child =>
    obtain ⟨p, -, he⟩ := bind_eq_ok.1 he
    obtain ⟨c, -, he⟩ := bind_eq_ok.1 he
    exact h.removeChild he
  | pinToTop element =>
    obtain ⟨i, -, he⟩ := bind_eq_ok.1 he
    exact h.setPin he
  | unpinFromTop element =>
    obtain ⟨i, -, he⟩ := bind_eq_ok.1 he
    exact h.setPin he
  | setKind element kind =>
    obtain ⟨i, -, he⟩ := bind_eq_ok.1 he
    obtain ⟨⟨next, previous⟩, hnext, he⟩ := bind_eq_ok.1 he
    cases he
    exact h.setKind hnext
  | delete element =>
    obtain ⟨i, -, he⟩ := bind_eq_ok.1 he
    obtain ⟨⟨next, toNew⟩, hnext, he⟩ := bind_eq_ok.1 he
    cases he
    exact h.delete hd hnext
  | insert name kind position =>
    obtain ⟨i, -, he⟩ := bind_eq_ok.1 he
    obtain ⟨⟨next, toNew⟩, hnext, he⟩ := bind_eq_ok.1 he
    cases he
    exact h.insertAt hd hnext

theorem Simple.growElement (h : d.Simple) {spec : ElementSpec} {n : Nat}
    (hg : Cube.growElement d spec = .ok (d', n)) : d'.Simple := by
  unfold Cube.growElement at hg
  split at hg
  · obtain ⟨el, -, hg⟩ := bind_eq_ok.1 hg
    split_ifs at hg
    cases hg
    exact h
  · cases hg
    exact h.addElement spec.name spec.kind

theorem Simple.growEdge (h : d.Simple) {spec : EdgeSpec} (hg : Cube.growEdge d spec = .ok d') :
    d'.Simple := by
  unfold Cube.growEdge at hg
  obtain ⟨p, -, hg⟩ := bind_eq_ok.1 hg
  obtain ⟨c, -, hg⟩ := bind_eq_ok.1 hg
  obtain ⟨w, hw, hg⟩ := bind_eq_ok.1 hg
  cases w with
  | some w =>
    dsimp only at hg
    split_ifs at hg
    cases hg
    exact h
  | none =>
    refine h.addChild ?_ hg
    unfold childWeight at hw
    obtain ⟨-, -, hw⟩ := bind_eq_ok.1 hw
    obtain ⟨-, -, hw⟩ := bind_eq_ok.1 hw
    have hnone : ((d.edgesOf p).find? fun e => e.child = c) = none := by
      simpa using Except.ok.inj hw
    rw [List.find?_eq_none] at hnone
    intro hmem
    obtain ⟨e, he, rfl⟩ := List.mem_map.1 hmem
    simpa using hnone e he

theorem Simple.grownElements (h : d.Simple) {specs : List ElementSpec} {b b' : Bool}
    (hg : d.grownElements b specs = .ok (d', b')) : d'.Simple := by
  induction specs generalizing d b with
  | nil =>
    cases hg
    exact h
  | cons spec specs ih =>
    obtain ⟨⟨next, n⟩, hnext, hg⟩ := bind_eq_ok.1 hg
    exact ih (h.growElement hnext) hg

theorem Simple.grownEdges (h : d.Simple) {specs : List EdgeSpec} {b b' : Bool}
    (hg : d.grownEdges b specs = .ok (d', b')) : d'.Simple := by
  induction specs generalizing d b with
  | nil =>
    cases hg
    exact h
  | cons spec specs ih =>
    obtain ⟨next, hnext, hg⟩ := bind_eq_ok.1 hg
    exact ih (h.growEdge hnext) hg

theorem Simple.onDimension (h : d.Simple) (hd : d.WF) {change : SharedChange}
    (hc : change.onDimension d = .ok d') : d'.Simple := by
  cases change with
  | grow elements edges =>
    obtain ⟨⟨next, b⟩, hnext, hc⟩ := bind_eq_ok.1 hc
    cases hc
    obtain ⟨⟨mid, b'⟩, hmid, hnext⟩ := bind_eq_ok.1 hnext
    exact (h.grownElements hmid).grownEdges hnext
  | edit edit => exact h.edit hd hc

/-! ## Without pins -/

/-- The dimension with no member pinned. -/
def unpinned (d : Dimension) : Dimension := { d with elements := d.elements.map Element.unpinned }

@[simp] theorem outline_unpinned (d : Dimension) : d.unpinned.outline = d.outline := by
  simp [outline, unpinned]

@[simp] theorem nameAt_unpinned (d : Dimension) (i : Nat) : d.unpinned.nameAt i = d.nameAt i := by
  simp only [unpinned, nameAt, List.getElem?_map, Option.map_map]
  rfl

theorem WF.unpinned (hd : d.WF) : d.unpinned.WF := by
  have hkind : ∀ i, d.unpinned.kindAt i = d.kindAt i := by
    intro i
    simp only [Dimension.unpinned, kindAt, List.getElem?_map, Option.map_map]
    rfl
  refine hd.of_same_names (fun i => by simp) (by simp [Dimension.unpinned]) rfl rfl rfl rfl rfl rfl
    hd.edges_lt (fun p hp => ?_) hd.acyclic
  rw [hkind]
  exact hd.parents p hp

theorem Simple.copyable_unpinned (h : d.Simple) : d.unpinned.Copyable := by
  refine ⟨fun e he => ?_, fun edges hedges => ?_⟩
  · obtain ⟨x, -, rfl⟩ := List.mem_map.1 he
    rfl
  · obtain ⟨p, hp⟩ := List.mem_iff_getElem?.1 hedges
    have hchildren : d.children[p]? = some edges := hp
    rw [← edgesOf_eq hchildren]
    exact h p

end Dimension

/-- A definition holds no pins. -/
theorem SharedDimension.toDimensionDef_unpinned (s : SharedDimension) :
    ({ s with dimension := s.dimension.unpinned } : SharedDimension).toDimensionDef =
      s.toDimensionDef := by
  have hname : ∀ i, s.dimension.unpinned.nameAt i = s.dimension.nameAt i :=
    s.dimension.nameAt_unpinned
  have hlen : s.dimension.unpinned.len = s.dimension.len := by
    simp [Dimension.unpinned, Dimension.len]
  simp only [toDimensionDef, hname, hlen]
  congr 1
  simp only [Dimension.unpinned, List.map_map]
  rfl

namespace Cube

variable {c c' : Cube}

/-- **A copy has the outline of the dimension** it is built from. -/
theorem outline_dimensionNamed_build {name : String} {defs : List DimensionDef}
    (h : Cube.build name defs = .ok c) {s : SharedDimension} (hs : s.toDimensionDef ∈ defs)
    (hd : s.dimension.WF) (hsimple : s.dimension.Simple) :
    ∃ d, c.dimensionNamed s.dimension.name = some d ∧ d.outline = s.dimension.outline := by
  rw [← s.toDimensionDef_unpinned] at hs
  exact ⟨s.dimension.unpinned, dimensionNamed_build h hs hd.unpinned hsimple.copyable_unpinned,
    s.dimension.outline_unpinned⟩

/-- Every dimension of a cube is simple. -/
def Simple (c : Cube) : Prop := ∀ d ∈ c.dimensions, d.Simple

theorem Simple.dimensionNamed (h : c.Simple) {name : String} {d : Dimension}
    (hd : c.dimensionNamed name = some d) : d.Simple := h d (List.mem_of_find?_eq_some hd)

theorem simple_growElements {cube : String} {dims dims' : List Dimension} {added n : Nat}
    {specs : List ElementSpec} (h : ∀ d ∈ dims, d.Simple)
    (hg : growElements cube dims added specs = .ok (dims', n)) : ∀ d ∈ dims', d.Simple := by
  induction specs generalizing dims added with
  | nil =>
    cases hg
    exact h
  | cons spec specs ih =>
    obtain ⟨i, hi, hg⟩ := bind_eq_ok.1 hg
    obtain ⟨⟨dim, k⟩, hdim, hg⟩ := bind_eq_ok.1 hg
    obtain ⟨old, hold, -⟩ := findDimension_ok hi
    refine ih (fun d hd => ?_) hg
    rcases List.mem_or_eq_of_mem_set hd with hd | rfl
    · exact h d hd
    · rw [List.getD, hold] at hdim
      exact (h old (List.mem_of_getElem? hold)).growElement hdim

theorem simple_growEdges {cube : String} {dims dims' : List Dimension} {specs : List EdgeSpec}
    (h : ∀ d ∈ dims, d.Simple) (hg : growEdges cube dims specs = .ok dims') :
    ∀ d ∈ dims', d.Simple := by
  induction specs generalizing dims with
  | nil =>
    cases hg
    exact h
  | cons spec specs ih =>
    obtain ⟨i, hi, hg⟩ := bind_eq_ok.1 hg
    obtain ⟨dim, hdim, hg⟩ := bind_eq_ok.1 hg
    obtain ⟨old, hold, -⟩ := findDimension_ok hi
    refine ih (fun d hd => ?_) hg
    rcases List.mem_or_eq_of_mem_set hd with hd | rfl
    · exact h d hd
    · rw [List.getD, hold] at hdim
      exact (h old (List.mem_of_getElem? hold)).growEdge hdim

theorem Simple.extendSchema (h : c.Simple) {elements : List ElementSpec} {edges : List EdgeSpec}
    {n : Nat} (hg : c.extendSchema elements edges = .ok (c', n)) : c'.Simple := by
  obtain ⟨⟨dims, k⟩, hdims, hg⟩ := bind_eq_ok.1 hg
  obtain ⟨⟨mid, m⟩, hmid, hdims⟩ := bind_eq_ok.1 hdims
  obtain ⟨dims', hdims', hdims⟩ := bind_eq_ok.1 hdims
  cases hdims
  cases hg
  intro d hd
  rw [dimensions_relayout] at hd
  exact simple_growEdges (simple_growElements h hmid) hdims' d hd

/-- Replacing one dimension by a simple one. -/
theorem Simple.set (h : c.Simple) {i : Nat} {d : Dimension} (hd : d.Simple)
    (hdims : c'.dimensions = c.dimensions.set i d) : c'.Simple := by
  intro x hx
  rw [hdims] at hx
  rcases List.mem_or_eq_of_mem_set hx with hx | rfl
  · exact h x hx
  · exact hd

theorem Simple.editDimension (h : c.Simple) (hc : c.WF) {name : String} {edit : DimensionEdit}
    (he : c.editDimension name edit = .ok c') : c'.Simple := by
  obtain ⟨i, d', hi, hd, hdims⟩ := SharedChange.dimensions_of_editDimension hc he
  have hold := (dimensionIndex_ok hi).1
  exact h.set ((h _ (List.mem_of_getElem? hold)).edit (hc.dimension hold) hd) hdims

theorem Simple.onCube (h : c.Simple) (hc : c.WF) {name : String} {change : SharedChange}
    (hchange : change.onCube c name = .ok c') : c'.Simple := by
  cases change with
  | grow elements edges =>
    obtain ⟨⟨next, n⟩, hnext, hchange⟩ := bind_eq_ok.1 hchange
    cases hchange
    exact h.extendSchema hnext
  | edit edit => exact h.editDimension hc hchange

theorem children_setValues {dimension : String} {d d' : Dimension}
    {values : List (String × String × AttributeValue)}
    (h : setValues dimension d values = .ok d') : d'.children = d.children := by
  induction values generalizing d with
  | nil =>
    cases h
    rfl
  | cons v values ih =>
    obtain ⟨i, -, h⟩ := bind_eq_ok.1 h
    obtain ⟨next, hnext, h⟩ := bind_eq_ok.1 h
    obtain ⟨-, index, kind, aliases, -, -, -, -, rfl⟩ := Dimension.setAttribute_ok hnext
    have hrest := ih h
    exact hrest

theorem Simple.defineAttributes (h : c.Simple) {name : String}
    {attrs : List (String × AttributeKind)}
    (ha : attrs.foldlM (fun c a => c.defineAttribute name a.1 a.2) c = .ok c') : c'.Simple := by
  induction attrs generalizing c with
  | nil =>
    cases ha
    exact h
  | cons a attrs ih =>
    obtain ⟨next, hnext, ha⟩ := bind_eq_ok.1 ha
    obtain ⟨j, hj, hdims⟩ := defineAttribute_ok hnext
    have hold := h _ (List.mem_of_getElem? (dimensionIndex_ok hj).1)
    refine ih (h.set (hold.of_children ?_) hdims) ha
    unfold Dimension.addAttribute
    split
    · rfl
    · rfl

theorem Simple.buildAttributes (h : c.Simple) {x : DimensionDef}
    (hx : c.buildAttributes x = .ok c') : c'.Simple := by
  obtain ⟨mid, hmid, hx⟩ := bind_eq_ok.1 hx
  have hsimple : mid.Simple := h.defineAttributes hmid
  split_ifs at hx
  · cases hx
    exact hsimple
  · obtain ⟨j, hj, hx⟩ := bind_eq_ok.1 hx
    obtain ⟨dim, hdim, hx⟩ := bind_eq_ok.1 hx
    cases hx
    have hold := hsimple _ (List.mem_of_getElem? (dimensionIndex_ok hj).1)
    exact hsimple.set (hold.of_children (children_setValues hdim)) rfl

theorem simple_build {name : String} {defs : List DimensionDef}
    (h : Cube.build name defs = .ok c) : c.Simple := by
  obtain ⟨-, dims, dims', n, grown, hels, hedges, -, rfl, hattrs⟩ := build_ok h
  have hgrown : grown.Simple := by
    refine simple_growEdges (simple_growElements (fun d hd => ?_) hels) hedges
    obtain ⟨x, -, rfl⟩ := List.mem_map.1 hd
    exact Dimension.Simple.new x.name
  clear hels hedges h
  induction defs generalizing grown with
  | nil =>
    cases hattrs
    exact hgrown
  | cons x defs ih =>
    obtain ⟨next, hnext, hattrs⟩ := bind_eq_ok.1 hattrs
    exact ih next hattrs (hgrown.buildAttributes hnext)

end Cube

end Epiphany
