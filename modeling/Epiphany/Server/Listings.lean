import Epiphany.Core.Decimal
import Epiphany.Engine.Registry
import Epiphany.Server.Saved
/-!
# Listings — which element names an answer holds

A cube, a shared dimension, a set's members and a saved definition are shown
by requests of their own, each with its own filter. The structure of a cube
and the members of a set are filtered by the caller's mask, which follows
the hierarchy; a shared dimension is filtered by the names that the lists of
its cubes deny; a saved definition is shown as it is stored.
-/

namespace Epiphany

/-! ## Listing a dimension -/

namespace Dimension

variable (d : Dimension)

/-- The attribute values as element, attribute and value, in this order. -/
def attributeValues : List (Nat × Nat × AttributeValue) :=
  (List.range d.len).flatMap fun element =>
    (d.valuesOf element).toList.map fun v => (element, v.1, v.2)

end Dimension

/-- A cube's registered dimensions by name. -/
def DimensionRegistry.backingsFor (r : DimensionRegistry) (cube : String) :
    FinMap String DimensionId :=
  (r.byId.toList.filter fun e => r.isReferencedBy e.2.id cube).foldl
    (fun m e => m.insert e.2.dimension.name e.2.id) ∅

/-! ## What is shown -/

structure ElementDto where
  name : String
  kind : String
  pinnedToTop : Bool
deriving DecidableEq

structure EdgeDto where
  parent : String
  child : String
  weight : Int
deriving DecidableEq

structure AttributeValueDto where
  element : String
  value : String
deriving DecidableEq

structure AttributeDto where
  name : String
  kind : String
  values : List AttributeValueDto
deriving DecidableEq

structure DimensionDto where
  name : String
  id : Option DimensionId
  elements : List ElementDto
  edges : List EdgeDto
  attributes : List AttributeDto
deriving DecidableEq

structure CubeDetailDto where
  name : String
  dimensions : List DimensionDto
deriving DecidableEq

structure DimensionDetailDto where
  id : DimensionId
  name : String
  generation : Nat
  references : List String
  elements : List ElementDto
  edges : List EdgeDto
  attributes : List AttributeDto
deriving DecidableEq

def attrKindStr : AttributeKind → String
  | .text => "text"
  | .numeric => "numeric"
  | .alias => "alias"

def attrValueStr : AttributeValue → String
  | .text t => t
  | .numeric n => n.toString

/-- The attributes of a dimension, without the values of denied elements. -/
def dimensionAttributes (dim : Dimension) (denied : Nat → Bool) : List AttributeDto :=
  dim.attributes.zipIdx.map fun a =>
    { name := a.1.name, kind := attrKindStr a.1.kind
      values := (dim.attributeValues.filter fun v => v.2.1 = a.2 && !denied v.1).map fun v =>
        ⟨(dim.nameAt v.1).getD "", attrValueStr v.2.2⟩ }

def dimensionDto (dim : Dimension) (id : Option DimensionId) (denied : Nat → Bool) :
    DimensionDto where
  name := dim.name
  id
  elements := (dim.elements.zipIdx.filter fun x => !denied x.2).map fun x =>
    ⟨x.1.name, kindStr x.1.kind, x.1.pinnedToTop⟩
  edges := (dim.edges.filter fun e => !denied e.1 && !denied e.2.1).map fun e =>
    ⟨(dim.nameAt e.1).getD "", (dim.nameAt e.2.1).getD "", e.2.2⟩
  attributes := dimensionAttributes dim denied

def cubeDetail (cube : Cube) (mask : Option ElementMask) (backing : String → Option DimensionId) :
    CubeDetailDto where
  name := cube.name
  dimensions := cube.dimensions.zipIdx.map fun x =>
    dimensionDto x.1 (backing x.1.name) fun i => mask.any fun m => m.deniesMember cube x.2 i

/-- A shared dimension without the elements of the given names. -/
def dimensionDetail (id : DimensionId) (shared : SharedDimension)
    (references denied : List String) : DimensionDetailDto :=
  let d := shared.toDimensionDef
  { id, name := d.name, generation := shared.generation, references
    elements := (d.elements.filter fun e => e.1 ∉ denied).map fun e =>
      { name := e.1, kind := kindStr e.2
        pinnedToTop := ((shared.dimension.indexOf e.1).bind fun i =>
          (shared.dimension.elements[i]?).map Element.pinnedToTop).getD false }
    edges := (d.edges.filter fun e => e.1 ∉ denied ∧ e.2.1 ∉ denied).map fun e =>
      ⟨e.1, e.2.1, e.2.2⟩
    attributes := d.attributes.map fun a =>
      { name := a.1, kind := attrKindStr a.2
        values := (d.attributeValues.filter fun v => v.2.1 = a.1 ∧ v.1 ∉ denied).map fun v =>
          ⟨v.1, attrValueStr v.2.2⟩ } }

/-! ## Requests -/

/-- What listing takes from the server: the cubes and sets of the views, the
registry of dimensions, and the element names an MDX text writes. -/
structure ListingEnv where
  views : ViewEnv
  dimensions : DimensionRegistry
  mdxNames : String → List String
  /-- The dimensions of a cube have names of their own. -/
  distinct : ∀ (cube : String) snap, views.snapshots[cube]? = some snap →
    (snap.cube.dimensions.map Dimension.name).Nodup
  wf : ∀ id shared, dimensions.get id = some shared → shared.dimension.WF

inductive ListingRequest where
  | getCube (cube : String)
  | listSubsets (cube dim : String)
  | getSubset (cube dim name : String)
  | subsetMembers (cube dim name : String)
  | previewSubset (cube dim : String) (body : SubsetBody)
  | previewMdx (cube dim mdx : String)
  | listViews (cube : String)
  | getView (cube name : String)
  | getDimension (id : DimensionId)

inductive Listing where
  | cube (detail : CubeDetailDto)
  | subsets (list : List SubsetDto)
  | members (dim : String) (list : List MemberDto)
  | views (list : List ViewDto)
  | dimension (detail : DimensionDetailDto)
deriving DecidableEq

namespace ListingEnv

variable (env : ListingEnv) (sec : SecurityStore) (auth : Principal)

def getCube (cube : String) : Except ApiError CubeDetailDto := do
  let snap ← env.views.openCube sec auth cube .read
  let backings := env.dimensions.backingsFor cube
  .ok (cubeDetail snap.cube (sec.elementMaskFor auth.username snap.cube) fun name =>
    backings[name]?)

def getDimension (id : DimensionId) : Except ApiError DimensionDetailDto := do
  sec.requireKindAccess auth.username .dimension none .read
  let shared ← okOr (env.dimensions.get id)
    (.notFound ("unknown shared dimension #" ++ Nat.repr id))
  let references := env.dimensions.referencing id
  let elementNames := shared.toDimensionDef.elements.map Prod.fst
  .ok (dimensionDetail id shared references
    (sec.deniedRegistryElements auth.username shared.dimension.name references elementNames))

def respond : ListingRequest → Except ApiError Listing
  | .getCube cube => (env.getCube sec auth cube).map .cube
  | .listSubsets cube dim => (env.views.listSubsets sec auth cube dim).map .subsets
  | .getSubset cube dim name => (env.views.getSubset sec auth cube dim name).map fun s =>
      .subsets [s]
  | .subsetMembers cube dim name =>
    (env.views.subsetMembers sec auth cube dim name).map (.members dim)
  | .previewSubset cube dim body =>
    (env.views.previewSubset sec auth cube dim body).map (.members dim)
  | .previewMdx cube dim mdx => (env.views.previewMdx sec auth cube dim mdx).map (.members dim)
  | .listViews cube => (env.views.listViews sec auth cube).map .views
  | .getView cube name => (env.views.getView sec auth cube name).map fun v => .views [v]
  | .getDimension id => (env.getDimension sec auth id).map .dimension

end ListingEnv

/-! ## The names in an answer -/

/-- The element names of the parts of a dimension. -/
def structureNames (elements : List ElementDto) (edges : List EdgeDto)
    (attributes : List AttributeDto) : List String :=
  elements.map ElementDto.name ++ edges.flatMap (fun e => [e.parent, e.child]) ++
    attributes.flatMap fun a => a.values.map AttributeValueDto.element

/-- The element names of an answer, each with its dimension. -/
def Listing.names (mdxNames : String → List String) : Listing → List (String × String)
  | .cube detail => detail.dimensions.flatMap fun d =>
      (structureNames d.elements d.edges d.attributes).map fun n => (d.name, n)
  | .subsets list => list.flatMap fun s =>
      (s.members ++ s.mdx.toList.flatMap mdxNames).map fun n => (s.dimension, n)
  | .members dim list => list.map fun m => (dim, m.name)
  | .views list => list.flatMap fun v =>
      ((v.rows ++ v.columns).flatMap fun a => a.members.map fun n => (a.dimension, n)) ++ v.context
  | .dimension detail =>
      (structureNames detail.elements detail.edges detail.attributes).map fun n => (detail.name, n)

/-- The element names that a stored set writes. -/
def Subset.written (mdxNames : String → List String) (s : Subset) : List (String × String) :=
  (match s.kind with
    | .static members => members
    | .dynamic mdx => mdxNames mdx).map fun n => (s.dimension, n)

/-- The element names that a placement writes. -/
def AxisSpec.written : AxisSpec → List (String × String)
  | .subset _ _ => []
  | .members dim names => names.map fun n => (dim, n)

/-- The element names that a stored view writes. -/
def View.written (v : View) : List (String × String) :=
  (v.rows ++ v.columns).flatMap AxisSpec.written ++ v.context

/-- Whether a mask denies the member that a name or an alias stands for. -/
def ElementMask.deniesName (m : ElementMask) (cube : Cube) (dim name : String) : Bool :=
  (cube.dimensions.findIdx? fun d => d.name = dim).any fun pos =>
    ((cube.dimension pos).resolve name).any (m.deniesMember cube pos)

/-- None of the names is denied by a mask over a cube. -/
def Undenied (mask : Option ElementMask) (cube : Cube) (names : List (String × String)) : Prop :=
  ∀ m, mask = some m → ∀ x ∈ names, m.deniesName cube x.1 x.2 = false

/-! ## The property -/

namespace ListingEnv

variable (env : ListingEnv) (sec : SecurityStore) (auth : Principal)

/-- The cubes whose masks a request has to respect. -/
def cubesOf : ListingRequest → List String
  | .getCube cube | .listSubsets cube _ | .getSubset cube _ _ | .subsetMembers cube _ _
  | .previewSubset cube _ _ | .previewMdx cube _ _ | .listViews cube | .getView cube _ => [cube]
  | .getDimension id => env.dimensions.referencing id

/-- **No answer names a denied member.** -/
def Conceals (request : ListingRequest) : Prop :=
  ∀ answer, env.respond sec auth request = .ok answer → ∀ cube ∈ env.cubesOf request, ∀ snap,
    env.views.snapshots[cube]? = some snap →
    Undenied (sec.elementMaskFor auth.username snap.cube) snap.cube (answer.names env.mdxNames)

/-- A set that the caller may see writes no denied member. -/
def CleanSubset (snap : ReadSnapshot) (dim name : String) : Prop :=
  ∀ s, snap.subset dim name = some s → canRead auth s.owner s.visibility = true →
    Undenied (sec.elementMaskFor auth.username snap.cube) snap.cube (s.written env.mdxNames)

/-- A view that the caller may see writes no denied member. -/
def CleanView (snap : ReadSnapshot) (name : String) : Prop :=
  ∀ v, snap.view name = some v → canRead auth v.owner v.visibility = true →
    Undenied (sec.elementMaskFor auth.username snap.cube) snap.cube v.written

/-- Every element of a shared dimension that the mask over a referencing cube
denies is unreadable by name in one of them. -/
def CleanDimension (shared : SharedDimension) (references : List String) : Prop :=
  ∀ cube ∈ references, ∀ snap, env.views.snapshots[cube]? = some snap →
    ∀ m, sec.elementMaskFor auth.username snap.cube = some m →
    ∀ el ∈ shared.dimension.elements,
      m.deniesName snap.cube shared.dimension.name el.name = true →
      ∃ p, sec.principal auth.username = some p ∧
        ∃ cube' ∈ references, sec.elementReadable p cube' shared.dimension.name el.name = false

/-- The definitions that a request shows as they are stored write no denied
member; a shared dimension has none that only rolls a denied leaf up. -/
def Clean : ListingRequest → Prop
  | .getCube _ | .subsetMembers _ _ _ | .previewSubset _ _ _ | .previewMdx _ _ _ => True
  | .listSubsets cube dim => ∀ snap, env.views.openCube sec auth cube .read = .ok snap →
      dim ∈ snap.cube.dimensions.map Dimension.name →
      ∀ name, env.CleanSubset sec auth snap dim name
  | .getSubset cube dim name => ∀ snap, env.views.openCube sec auth cube .read = .ok snap →
      env.CleanSubset sec auth snap dim name
  | .listViews cube => ∀ snap, env.views.openCube sec auth cube .read = .ok snap →
      ∀ name, CleanView sec auth snap name
  | .getView cube name => ∀ snap, env.views.openCube sec auth cube .read = .ok snap →
      CleanView sec auth snap name
  | .getDimension id => (.read : AccessLevel) ≤ sec.kindLevel auth.username .dimension none →
      ∀ shared, env.dimensions.get id = some shared →
      env.CleanDimension sec auth shared (env.dimensions.referencing id)

end ListingEnv

/-! ## The filters -/

namespace SecurityStore

variable {s : SecurityStore} {username : String} {p : Principal}

theorem mem_elementAclsFor {cube dim : String} {e : String × AccessList} :
    e ∈ s.elementAclsFor cube dim ↔ s.elementAcls[ElementKey.mk cube dim e.1]? = some e.2 := by
  unfold elementAclsFor
  simp only [List.mem_map, List.mem_filter, decide_eq_true_eq]
  constructor
  · rintro ⟨⟨⟨c, d, el⟩, list⟩, ⟨hmem, rfl, rfl⟩, rfl⟩
    exact FinMap.mem_toList.1 hmem
  · intro h
    exact ⟨(⟨cube, dim, e.1⟩, e.2), ⟨FinMap.mem_toList.2 h, rfl, rfl⟩, rfl⟩

/-- A name is denied in the shared dimension if some cube's list denies it. -/
theorem mem_deniedRegistryElements (hp : s.principal username = some p) {dim : String}
    {cubes names : List String} {n : String} :
    n ∈ s.deniedRegistryElements username dim cubes names ↔
      n ∈ names ∧ ∃ cube ∈ cubes, s.elementReadable p cube dim n = false := by
  unfold deniedRegistryElements
  simp only [hp]
  split_ifs with hadmin
  · simp [elementReadable, elementAccess, hadmin]
  · simp only [List.mem_flatMap, List.mem_filterMap]
    constructor
    · rintro ⟨cube, hcube, ⟨el, list⟩, hacl, h⟩
      split_ifs at h with hlevel
      have hel : n = el := by simpa using List.find?_some h
      subst hel
      refine ⟨List.mem_of_find?_eq_some h, cube, hcube, ?_⟩
      rw [mem_elementAclsFor] at hacl
      simp only [elementReadable, elementAccess, if_neg hadmin, hacl, Option.map_some]
      simpa using hlevel
    · rintro ⟨hn, cube, hcube, h⟩
      simp only [elementReadable, elementAccess, if_neg hadmin] at h
      rcases hacl : s.elementAcls[ElementKey.mk cube dim n]? with _ | list
      · simp [hacl] at h
      · refine ⟨cube, hcube, (n, list), mem_elementAclsFor.2 hacl, ?_⟩
        have hlevel : list.levelFor p.username p.groups < .read := by simpa [hacl] using h
        rw [if_pos hlevel]
        rcases hfind : names.find? fun x => x = n with _ | x
        · have hne := List.find?_eq_none.1 hfind n hn
          simp at hne
        · have hx : x = n := by simpa using List.find?_some hfind
          rw [hx]

end SecurityStore

namespace ElementMask

variable {m : ElementMask} {cube : Cube}

/-- A member's own name stands for the member. -/
theorem deniesName_of_nameAt (hwf : cube.WF) {dim n : String} {pos i : Nat}
    (hpos : cube.dimensionIndex dim = .ok pos) (hi : (cube.dimension pos).nameAt i = some n) :
    m.deniesName cube dim n = m.deniesMember cube pos i := by
  have hindex := ((hwf.dimension (Cube.dimensionIndex_ok hpos).1).index n i).2 hi
  unfold Cube.dimensionIndex Cube.findDimension at hpos
  rw [okOr_eq_ok] at hpos
  unfold deniesName
  rw [hpos, Option.any_some, Dimension.resolve, Dimension.indexOf, hindex]
  rfl

end ElementMask

namespace Dimension

variable {d : Dimension}

theorem lt_of_mem_attributeValues {v : Nat × Nat × AttributeValue} (h : v ∈ d.attributeValues) :
    v.1 < d.len := by
  unfold attributeValues at h
  obtain ⟨element, hlt, h⟩ := List.mem_flatMap.1 h
  obtain ⟨w, -, rfl⟩ := List.mem_map.1 h
  exact List.mem_range.1 hlt

theorem nameAt_eq_some_getD {i : Nat} (h : i < d.len) :
    d.nameAt i = some ((d.nameAt i).getD "") := by
  unfold nameAt
  rw [List.getElem?_eq_getElem h]
  rfl

theorem mem_names_of_lt {i : Nat} (h : i < d.len) :
    (d.nameAt i).getD "" ∈ d.elements.map Element.name := by
  obtain ⟨el, hel, hname⟩ := nameAt_eq_some.1 (nameAt_eq_some_getD h)
  exact List.mem_map.2 ⟨el, List.mem_of_getElem? hel, hname⟩

end Dimension

/-- The structure of a dimension names the elements that are not denied. -/
theorem nameAt_of_mem_dimensionDto {dim : Dimension} (hwf : dim.WF) {id : Option DimensionId}
    {denied : Nat → Bool} {n : String}
    (h : n ∈ structureNames (dimensionDto dim id denied).elements (dimensionDto dim id denied).edges
      (dimensionDto dim id denied).attributes) :
    ∃ i, dim.nameAt i = some n ∧ denied i = false := by
  unfold structureNames dimensionDto dimensionAttributes at h
  simp only [List.mem_append, List.mem_map, List.mem_flatMap, List.mem_filter, List.mem_cons,
    List.not_mem_nil, or_false] at h
  rcases h with (h | h) | h
  · obtain ⟨_, ⟨⟨el, i⟩, ⟨hmem, hdenied⟩, rfl⟩, rfl⟩ := h
    rw [List.mem_zipIdx_iff_getElem?] at hmem
    refine ⟨i, ?_, by simpa using hdenied⟩
    unfold Dimension.nameAt
    rw [hmem]
    rfl
  · obtain ⟨_, ⟨e, ⟨hmem, hdenied⟩, rfl⟩, hn⟩ := h
    obtain ⟨hparent, edge, hedge, hchild⟩ := Dimension.mem_edges hmem
    have hlt : e.2.1 < dim.len := hchild ▸ hwf.edges_lt e.1 edge hedge
    rw [Bool.and_eq_true] at hdenied
    rcases hn with rfl | rfl
    · exact ⟨e.1, Dimension.nameAt_eq_some_getD hparent, by simpa using hdenied.1⟩
    · exact ⟨e.2.1, Dimension.nameAt_eq_some_getD hlt, by simpa using hdenied.2⟩
  · obtain ⟨_, ⟨⟨a, k⟩, -, rfl⟩, h⟩ := h
    obtain ⟨_, h, rfl⟩ := h
    obtain ⟨v, hv, rfl⟩ := List.mem_map.1 h
    rw [List.mem_filter, Bool.and_eq_true] at hv
    exact ⟨v.1, Dimension.nameAt_eq_some_getD (Dimension.lt_of_mem_attributeValues hv.1),
      by simpa using hv.2.2⟩

namespace ListingEnv

variable {env : ListingEnv} {sec : SecurityStore} {auth : Principal}

theorem snapshot_of_openCube {cube : String} {snap : ReadSnapshot}
    (h : env.views.openCube sec auth cube .read = .ok snap) :
    env.views.snapshots[cube]? = some snap := by
  unfold ViewEnv.openCube at h
  obtain ⟨-, -, h⟩ := bind_eq_ok.1 h
  exact okOr_eq_ok.1 h

/-! ## What is filtered -/

/-- The structure of a cube names no denied member. -/
theorem undenied_cubeDetail {cube : Cube} (hwf : cube.WF)
    (hnodup : (cube.dimensions.map Dimension.name).Nodup) (mask : Option ElementMask)
    (backing : String → Option DimensionId) :
    Undenied mask cube ((Listing.cube (cubeDetail cube mask backing)).names env.mdxNames) := by
  intro m hm x hx
  unfold Listing.names cubeDetail at hx
  simp only [List.mem_flatMap, List.mem_map] at hx
  obtain ⟨_, ⟨⟨dim, pos⟩, hmem, rfl⟩, n, hn, rfl⟩ := hx
  rw [List.mem_zipIdx_iff_getElem?] at hmem
  have hdim : cube.dimension pos = dim := Cube.dimension_eq hmem
  have hdimwf : dim.WF := hwf.dims dim (List.mem_of_getElem? hmem)
  obtain ⟨i, hi, hdenied⟩ := nameAt_of_mem_dimensionDto hdimwf hn
  have hpos : cube.dimensionIndex dim.name = .ok pos :=
    Cube.findDimension_of_getElem? hnodup hmem
  change m.deniesName cube dim.name n = false
  rw [ElementMask.deniesName_of_nameAt hwf hpos (hdim ▸ hi)]
  simpa [hm] using hdenied

/-- The members of a set are shown without the denied ones. -/
theorem undenied_showMembers {snap : ReadSnapshot} {dim : String} {subset : Subset}
    {list : List MemberDto} (h : env.views.showMembers sec auth snap dim subset = .ok list) :
    Undenied (sec.elementMaskFor auth.username snap.cube) snap.cube
      ((Listing.members dim list).names env.mdxNames) := by
  intro m hm x hx
  unfold ViewEnv.showMembers at h
  obtain ⟨indices, -, h⟩ := bind_eq_ok.1 h
  obtain ⟨d, hd, h⟩ := bind_eq_ok.1 h
  cases h
  obtain ⟨pos, hpos, rfl⟩ := Cube.dimensionNamed_eq_some.1 (okOr_eq_ok.1 hd)
  unfold Listing.names membersResponse at hx
  simp only [List.mem_map, List.mem_filterMap] at hx
  obtain ⟨_, ⟨i, hi, hel⟩, rfl⟩ := hx
  obtain ⟨el, hget, rfl⟩ := Option.map_eq_some_iff.1 hel
  have hwf : snap.cube.WF := snap.wf
  have hname : (snap.cube.dimension pos).nameAt i = some el.name :=
    Dimension.nameAt_eq_some.2 ⟨el, hget, rfl⟩
  change m.deniesName snap.cube dim el.name = false
  rw [ElementMask.deniesName_of_nameAt hwf hpos hname]
  have hfind := hpos
  unfold Cube.dimensionIndex Cube.findDimension at hfind
  rw [okOr_eq_ok] at hfind
  simp only [ViewEnv.suppressDeniedMembers, hm, hfind, List.mem_filter] at hi
  simpa using hi.2

/-! ## What is shown as it is stored -/

theorem names_subsets (list : List Subset) :
    (Listing.subsets (list.map subsetDto)).names env.mdxNames =
      list.flatMap (Subset.written env.mdxNames) := by
  simp only [Listing.names, List.flatMap_map]
  refine congrArg (list.flatMap ·) (funext fun s => ?_)
  obtain ⟨name, dim, owner, visibility, kind⟩ := s
  cases kind with
  | static members => simp [Subset.written, subsetDto]
  | dynamic mdx => simp [Subset.written, subsetDto]

theorem names_views (list : List View) :
    (Listing.views (list.map viewDto)).names env.mdxNames = list.flatMap View.written := by
  simp only [Listing.names, List.flatMap_map]
  refine congrArg (list.flatMap ·) (funext fun v => ?_)
  have haxis : ∀ a : AxisSpec,
      ((axisSpecDto a).members.map fun n => ((axisSpecDto a).dimension, n)) = a.written := by
    intro a
    cases a with
    | subset dimension subset => rfl
    | members dimension members => rfl
  unfold View.written viewDto
  rw [← List.map_append, List.flatMap_map]
  simp only [haxis]

theorem undenied_flatMap {α : Type} {mask : Option ElementMask} {cube : Cube} {list : List α}
    {names : α → List (String × String)} :
    Undenied mask cube (list.flatMap names) ↔ ∀ x ∈ list, Undenied mask cube (names x) := by
  unfold Undenied
  simp only [List.mem_flatMap]
  constructor
  · intro h x hx m hm y hy
    exact h m hm y ⟨x, hx, hy⟩
  · rintro h m hm y ⟨x, hx, hy⟩
    exact h x hx m hm y hy

/-! ## Requests -/

/-- An answer about a cube is given after the cube is opened. -/
theorem openCube_of_respond {request : ListingRequest} {cube : String}
    (hcube : env.cubesOf request = [cube]) (hid : ∀ id, request ≠ .getDimension id)
    {answer : Listing} (h : env.respond sec auth request = .ok answer) :
    ∃ snap, env.views.openCube sec auth cube .read = .ok snap := by
  cases request with
  | getDimension id => exact absurd rfl (hid id)
  | _ =>
    cases hcube
    obtain ⟨value, hvalue, -⟩ := map_eq_ok.1 h
    obtain ⟨snap, hsnap, -⟩ := bind_eq_ok.1 hvalue
    exact ⟨snap, hsnap⟩

theorem conceals_iff_of_cube {request : ListingRequest} {cube : String}
    (hcube : env.cubesOf request = [cube]) (hid : ∀ id, request ≠ .getDimension id) :
    env.Conceals sec auth request ↔
      ∀ snap, env.views.openCube sec auth cube .read = .ok snap →
        ∀ answer, env.respond sec auth request = .ok answer →
        Undenied (sec.elementMaskFor auth.username snap.cube) snap.cube
          (answer.names env.mdxNames) := by
  unfold Conceals
  rw [hcube]
  simp only [List.mem_singleton, forall_eq]
  constructor
  · intro h snap hopen answer hanswer
    exact h answer hanswer snap (snapshot_of_openCube hopen)
  · intro h answer hanswer snap hsnap
    obtain ⟨snap', hopen⟩ := openCube_of_respond hcube hid hanswer
    cases hsnap.symm.trans (snapshot_of_openCube hopen)
    exact h snap hopen answer hanswer

theorem conceals_getCube (cube : String) : env.Conceals sec auth (.getCube cube) := by
  refine (conceals_iff_of_cube rfl (by simp)).2 fun snap hopen answer h => ?_
  obtain ⟨detail, hdetail, rfl⟩ := map_eq_ok.1 h
  obtain ⟨snap', hsnap', hdetail⟩ := bind_eq_ok.1 hdetail
  cases hopen.symm.trans hsnap'
  cases hdetail
  exact undenied_cubeDetail snap.wf (env.distinct cube snap (snapshot_of_openCube hopen)) _ _

theorem conceals_subsetMembers (cube dim name : String) :
    env.Conceals sec auth (.subsetMembers cube dim name) := by
  refine (conceals_iff_of_cube rfl (by simp)).2 fun snap hopen answer h => ?_
  obtain ⟨list, hlist, rfl⟩ := map_eq_ok.1 h
  obtain ⟨snap', hsnap', hlist⟩ := bind_eq_ok.1 hlist
  cases hopen.symm.trans hsnap'
  obtain ⟨s, -, hlist⟩ := bind_eq_ok.1 hlist
  exact undenied_showMembers hlist

theorem conceals_previewSubset (cube dim : String) (body : SubsetBody) :
    env.Conceals sec auth (.previewSubset cube dim body) := by
  refine (conceals_iff_of_cube rfl (by simp)).2 fun snap hopen answer h => ?_
  obtain ⟨list, hlist, rfl⟩ := map_eq_ok.1 h
  obtain ⟨snap', hsnap', hlist⟩ := bind_eq_ok.1 hlist
  cases hopen.symm.trans hsnap'
  obtain ⟨-, -, hlist⟩ := bind_eq_ok.1 hlist
  obtain ⟨s, -, hlist⟩ := bind_eq_ok.1 hlist
  exact undenied_showMembers hlist

theorem conceals_previewMdx (cube dim mdx : String) :
    env.Conceals sec auth (.previewMdx cube dim mdx) := by
  refine (conceals_iff_of_cube rfl (by simp)).2 fun snap hopen answer h => ?_
  obtain ⟨list, hlist, rfl⟩ := map_eq_ok.1 h
  obtain ⟨snap', hsnap', hlist⟩ := bind_eq_ok.1 hlist
  cases hopen.symm.trans hsnap'
  obtain ⟨-, -, hlist⟩ := bind_eq_ok.1 hlist
  exact undenied_showMembers hlist

/-! ## Definitions -/

theorem exists_ensureDimension_iff {cube : Cube} {dim : String} :
    (∃ d, ViewEnv.ensureDimension cube dim = .ok d) ↔ dim ∈ cube.dimensions.map Dimension.name := by
  simp only [ViewEnv.ensureDimension, okOr_eq_ok, List.mem_map, ← Option.isSome_iff_exists,
    List.find?_isSome, decide_eq_true_eq]

/-- A list of sets is answered with those of the dimension that the caller
may see. -/
theorem listSubsets_eq_ok {cube dim : String} {snap : ReadSnapshot} {list : List SubsetDto}
    (hopen : env.views.openCube sec auth cube .read = .ok snap) :
    env.views.listSubsets sec auth cube dim = .ok list ↔
      dim ∈ snap.cube.dimensions.map Dimension.name ∧
        list = ((snap.model.subsets.toList.filter fun e => e.1.dimension = dim ∧
          canRead auth e.2.owner e.2.visibility = true).map Prod.snd).map subsetDto := by
  rw [ViewEnv.listSubsets, hopen, List.map_map, ← exists_ensureDimension_iff]
  constructor
  · intro h
    obtain ⟨_, ⟨⟩, h⟩ := bind_eq_ok.1 h
    obtain ⟨d, hd, h⟩ := bind_eq_ok.1 h
    cases h
    exact ⟨⟨d, hd⟩, rfl⟩
  · rintro ⟨⟨d, hd⟩, rfl⟩
    exact bind_eq_ok.2 ⟨snap, rfl, bind_eq_ok.2 ⟨d, hd, rfl⟩⟩

theorem conceals_listSubsets_iff (cube dim : String) :
    env.Conceals sec auth (.listSubsets cube dim) ↔ env.Clean sec auth (.listSubsets cube dim) := by
  rw [conceals_iff_of_cube rfl (by simp)]
  refine forall_congr' fun snap => forall_congr' fun hopen => ?_
  constructor
  · intro h hdim name s hs hread
    have hlist := (listSubsets_eq_ok hopen).2 ⟨hdim, rfl⟩
    have hnames := h _ (map_eq_ok.2 ⟨_, hlist, rfl⟩)
    rw [names_subsets, undenied_flatMap] at hnames
    refine hnames s (List.mem_map.2 ⟨(⟨dim, name⟩, s), List.mem_filter.2 ⟨?_, ?_⟩, rfl⟩)
    · exact FinMap.mem_toList.2 hs
    · simp [hread]
  · intro h answer hanswer
    obtain ⟨list, hlist, rfl⟩ := map_eq_ok.1 hanswer
    obtain ⟨hdim, rfl⟩ := (listSubsets_eq_ok hopen).1 hlist
    rw [names_subsets, undenied_flatMap]
    intro s hs
    obtain ⟨⟨⟨d, name⟩, _⟩, he, rfl⟩ := List.mem_map.1 hs
    rw [List.mem_filter, FinMap.mem_toList, decide_eq_true_eq] at he
    obtain ⟨hget, rfl, hread⟩ := he
    exact h hdim name _ hget hread

theorem conceals_getSubset_iff (cube dim name : String) :
    env.Conceals sec auth (.getSubset cube dim name) ↔
      env.Clean sec auth (.getSubset cube dim name) := by
  rw [conceals_iff_of_cube rfl (by simp)]
  refine forall_congr' fun snap => forall_congr' fun hopen => ?_
  have hget : ∀ s, snap.visibleSubset auth dim name = .ok s ↔
      snap.subset dim name = some s ∧ canRead auth s.owner s.visibility = true := by
    intro s
    rw [ReadSnapshot.visibleSubset, okOr_eq_ok, ReadSnapshot.visibleSubsetLookup,
      Option.filter_eq_some_iff]
  constructor
  · intro h s hs hread
    have hanswer : env.respond sec auth (.getSubset cube dim name) =
        .ok (.subsets [subsetDto s]) := by
      refine map_eq_ok.2 ⟨subsetDto s, ?_, rfl⟩
      rw [ViewEnv.getSubset, hopen]
      exact map_eq_ok.2 ⟨s, (hget s).2 ⟨hs, hread⟩, rfl⟩
    have hnames := h _ hanswer
    rw [← List.map_singleton, names_subsets, undenied_flatMap] at hnames
    exact hnames s List.mem_cons_self
  · intro h answer hanswer
    obtain ⟨dto, hdto, rfl⟩ := map_eq_ok.1 hanswer
    rw [ViewEnv.getSubset, hopen] at hdto
    obtain ⟨s, hs, rfl⟩ := map_eq_ok.1 hdto
    obtain ⟨hs, hread⟩ := (hget s).1 hs
    rw [← List.map_singleton, names_subsets, undenied_flatMap]
    intro x hx
    cases List.mem_singleton.1 hx
    exact h s hs hread

theorem conceals_listViews_iff (cube : String) :
    env.Conceals sec auth (.listViews cube) ↔ env.Clean sec auth (.listViews cube) := by
  rw [conceals_iff_of_cube rfl (by simp)]
  refine forall_congr' fun snap => forall_congr' fun hopen => ?_
  have hlist : env.views.listViews sec auth cube =
      .ok (((snap.model.views.toList.filter fun e =>
        canRead auth e.2.owner e.2.visibility = true).map Prod.snd).map viewDto) := by
    rw [ViewEnv.listViews, hopen, List.map_map]
    rfl
  constructor
  · intro h name v hv hread
    have hnames := h _ (map_eq_ok.2 ⟨_, hlist, rfl⟩)
    rw [names_views, undenied_flatMap] at hnames
    refine hnames v (List.mem_map.2 ⟨(name, v), List.mem_filter.2 ⟨?_, ?_⟩, rfl⟩)
    · exact FinMap.mem_toList.2 hv
    · simp [hread]
  · intro h answer hanswer
    obtain ⟨list, hlist', rfl⟩ := map_eq_ok.1 hanswer
    cases hlist.symm.trans hlist'
    rw [names_views, undenied_flatMap]
    intro v hv
    obtain ⟨⟨name, _⟩, he, rfl⟩ := List.mem_map.1 hv
    rw [List.mem_filter, FinMap.mem_toList, decide_eq_true_eq] at he
    exact h name _ he.1 he.2

theorem conceals_getView_iff (cube name : String) :
    env.Conceals sec auth (.getView cube name) ↔ env.Clean sec auth (.getView cube name) := by
  rw [conceals_iff_of_cube rfl (by simp)]
  refine forall_congr' fun snap => forall_congr' fun hopen => ?_
  have hget : ∀ v, snap.visibleView auth name = .ok v ↔
      snap.view name = some v ∧ canRead auth v.owner v.visibility = true := by
    intro v
    rw [ReadSnapshot.visibleView, okOr_eq_ok, Option.filter_eq_some_iff]
  constructor
  · intro h v hv hread
    have hanswer : env.respond sec auth (.getView cube name) = .ok (.views [viewDto v]) := by
      refine map_eq_ok.2 ⟨viewDto v, ?_, rfl⟩
      rw [ViewEnv.getView, hopen]
      exact map_eq_ok.2 ⟨v, (hget v).2 ⟨hv, hread⟩, rfl⟩
    have hnames := h _ hanswer
    rw [← List.map_singleton, names_views, undenied_flatMap] at hnames
    exact hnames v List.mem_cons_self
  · intro h answer hanswer
    obtain ⟨dto, hdto, rfl⟩ := map_eq_ok.1 hanswer
    rw [ViewEnv.getView, hopen] at hdto
    obtain ⟨v, hv, rfl⟩ := map_eq_ok.1 hdto
    obtain ⟨hv, hread⟩ := (hget v).1 hv
    rw [← List.map_singleton, names_views, undenied_flatMap]
    intro x hx
    cases List.mem_singleton.1 hx
    exact h v hv hread

/-! ## Shared dimensions -/

theorem names_toDimensionDef (shared : SharedDimension) :
    shared.toDimensionDef.elements.map Prod.fst = shared.dimension.elements.map Element.name := by
  simp [SharedDimension.toDimensionDef]

/-- A shared dimension is shown with the elements that are not denied. -/
theorem mem_names_dimensionDetail {shared : SharedDimension} (hwf : shared.dimension.WF)
    {id : DimensionId} {references denied : List String} {x : String × String} :
    x ∈ (Listing.dimension (dimensionDetail id shared references denied)).names env.mdxNames ↔
      x.1 = shared.dimension.name ∧ x.2 ∈ shared.dimension.elements.map Element.name ∧
        x.2 ∉ denied := by
  unfold Listing.names structureNames dimensionDetail
  simp only [List.mem_map, List.mem_append, List.mem_flatMap, List.mem_filter, List.mem_cons,
    List.not_mem_nil, or_false, decide_eq_true_eq]
  constructor
  · rintro ⟨n, h, rfl⟩
    refine ⟨rfl, ?_⟩
    rcases h with (h | h) | h
    · obtain ⟨_, ⟨e, ⟨hmem, hnot⟩, rfl⟩, rfl⟩ := h
      refine ⟨?_, hnot⟩
      obtain ⟨el, hel, rfl⟩ := List.mem_map.1 hmem
      exact ⟨el, hel, rfl⟩
    · obtain ⟨_, ⟨e, ⟨hmem, hparent, hchild⟩, rfl⟩, hn⟩ := h
      obtain ⟨parent, hlt, hmem⟩ := List.mem_flatMap.1 hmem
      obtain ⟨edge, hedge, rfl⟩ := List.mem_map.1 hmem
      rcases hn with rfl | rfl
      · exact ⟨List.mem_map.1 (Dimension.mem_names_of_lt (List.mem_range.1 hlt)), hparent⟩
      · exact ⟨List.mem_map.1 (Dimension.mem_names_of_lt (hwf.edges_lt parent edge hedge)), hchild⟩
    · obtain ⟨_, ⟨a, -, rfl⟩, _, h, rfl⟩ := h
      obtain ⟨v, hv, rfl⟩ := List.mem_map.1 h
      obtain ⟨hmem, hv⟩ := List.mem_filter.1 hv
      obtain ⟨element, hlt, hmem⟩ := List.mem_flatMap.1 hmem
      obtain ⟨w, -, rfl⟩ := List.mem_map.1 hmem
      refine ⟨List.mem_map.1 (Dimension.mem_names_of_lt (List.mem_range.1 hlt)), ?_⟩
      exact (of_decide_eq_true hv).2
  · rintro ⟨hdim, ⟨el, hel, hname⟩, hnot⟩
    refine ⟨x.2, Or.inl (Or.inl ⟨_, ⟨(el.name, el.kind), ⟨?_, hname ▸ hnot⟩, rfl⟩, hname⟩), ?_⟩
    · exact List.mem_map.2 ⟨el, hel, rfl⟩
    · exact Prod.ext hdim.symm rfl

theorem getDimension_eq_ok {id : DimensionId} {detail : DimensionDetailDto} :
    env.getDimension sec auth id = .ok detail ↔
      (.read : AccessLevel) ≤ sec.kindLevel auth.username .dimension none ∧
        ∃ shared, env.dimensions.get id = some shared ∧
          detail = dimensionDetail id shared (env.dimensions.referencing id)
            (sec.deniedRegistryElements auth.username shared.dimension.name
              (env.dimensions.referencing id) (shared.dimension.elements.map Element.name)) := by
  unfold getDimension
  simp only [bind_eq_ok, okOr_eq_ok, SecurityStore.requireKindAccess, SecurityStore.gate_eq_ok,
    decide_eq_true_eq, names_toDimensionDef, Except.ok.injEq]
  constructor
  · rintro ⟨-, hkind, shared, hshared, rfl⟩
    exact ⟨hkind, shared, hshared, rfl⟩
  · rintro ⟨hkind, shared, hshared, rfl⟩
    exact ⟨(), hkind, shared, hshared, rfl⟩

theorem principal_of_kindLevel
    (h : (.read : AccessLevel) ≤ sec.kindLevel auth.username .dimension none) :
    ∃ p, sec.principal auth.username = some p := by
  unfold SecurityStore.kindLevel at h
  rcases hp : sec.principal auth.username with _ | p
  · rw [hp] at h
    exact absurd h (show ¬ AccessLevel.read ≤ AccessLevel.none by decide)
  · exact ⟨p, rfl⟩

theorem conceals_getDimension_iff (id : DimensionId) :
    env.Conceals sec auth (.getDimension id) ↔ env.Clean sec auth (.getDimension id) := by
  constructor
  · intro h hkind shared hshared cube hcube snap hsnap m hm el hel hdenied
    obtain ⟨p, hp⟩ := principal_of_kindLevel hkind
    refine ⟨p, hp, ?_⟩
    by_contra hnone
    have hdetail := getDimension_eq_ok.2 ⟨hkind, shared, hshared, rfl⟩
    have hanswer := map_eq_ok (f := Listing.dimension).2 ⟨_, hdetail, rfl⟩
    have hnames := h _ hanswer cube hcube snap hsnap m hm (shared.dimension.name, el.name) ?_
    · exact absurd hdenied (by simpa using hnames)
    · refine (mem_names_dimensionDetail (env.wf id shared hshared)).2
        ⟨rfl, List.mem_map_of_mem hel, fun hmem => hnone ?_⟩
      exact ((SecurityStore.mem_deniedRegistryElements hp).1 hmem).2
  · intro h answer hanswer cube hcube snap hsnap m hm x hx
    obtain ⟨detail, hdetail, rfl⟩ := map_eq_ok.1 hanswer
    obtain ⟨hkind, shared, hshared, rfl⟩ := getDimension_eq_ok.1 hdetail
    obtain ⟨hdim, hname, hnot⟩ := (mem_names_dimensionDetail (env.wf id shared hshared)).1 hx
    obtain ⟨el, hel, hname⟩ := List.mem_map.1 hname
    by_contra hdenied
    rw [Bool.not_eq_false, hdim, ← hname] at hdenied
    obtain ⟨p, hp, hread⟩ := h hkind shared hshared cube hcube snap hsnap m hm el hel hdenied
    refine hnot ((SecurityStore.mem_deniedRegistryElements hp).2 ⟨?_, hname ▸ hread⟩)
    exact hname ▸ List.mem_map_of_mem hel

/-- **An answer names no denied member exactly when what it shows as it is
stored writes none**, and, for a shared dimension, when every element that a
cube's mask denies is denied by name. -/
theorem conceals_iff (env : ListingEnv) (sec : SecurityStore) (auth : Principal)
    (request : ListingRequest) : env.Conceals sec auth request ↔ env.Clean sec auth request := by
  cases request with
  | getCube cube => exact iff_of_true (conceals_getCube cube) trivial
  | listSubsets cube dim => exact conceals_listSubsets_iff cube dim
  | getSubset cube dim name => exact conceals_getSubset_iff cube dim name
  | subsetMembers cube dim name => exact iff_of_true (conceals_subsetMembers cube dim name) trivial
  | previewSubset cube dim body => exact iff_of_true (conceals_previewSubset cube dim body) trivial
  | previewMdx cube dim mdx => exact iff_of_true (conceals_previewMdx cube dim mdx) trivial
  | listViews cube => exact conceals_listViews_iff cube
  | getView cube name => exact conceals_getView_iff cube name
  | getDimension id => exact conceals_getDimension_iff id

/-! ## A denied region -/

/-- A cube of one region and the coast it lies on. -/
def coastCube : Except ModelError Cube :=
  Cube.build "Sales" [⟨"Region", [("North", .leaf), ("Coast", .consolidated)],
    [("Coast", "North", 1)], [], []⟩]

theorem isOk_coastCube : coastCube.isOk = true := by decide +kernel

/-- A public set lists the region. -/
def coastModel : Model :=
  { Model.new (getOk coastCube isOk_coastCube) with
    subsets := FinMap.collect
      [(⟨"Region", "Cold"⟩, ⟨"Cold", "Region", none, .pub, .static ["North"]⟩)] }

theorem wf_coastModel : coastModel.cube.WF := Cube.WF.build (eq_ok_getOk isOk_coastCube)

theorem ownIds_coastModel : coastModel.OwnIds := by
  intro n n' s s' hs
  exact absurd hs (by simp [coastModel, Model.new])

def coastSnapshot : ReadSnapshot := ⟨coastModel, 1, wf_coastModel, ownIds_coastModel⟩

theorem distinct_coastCube : (coastSnapshot.cube.dimensions.map Dimension.name).Nodup := by
  decide +kernel

theorem getElem?_coastCube :
    coastSnapshot.cube.dimensions[0]? = some (coastSnapshot.cube.dimension 0) := by
  decide +kernel

theorem wf_coast : (coastSnapshot.cube.dimension 0).WF := wf_coastModel.dimension getElem?_coastCube

/-- The region's dimension is shared, and the cube references it. -/
def coastEnv : ListingEnv where
  views :=
    { snapshots := FinMap.collect [("Sales", coastSnapshot)]
      resolverWith := fun snap _ _ =>
        { value := fun coord => (snap.cube.get coord).mapError .model
          stringValue := fun coord => (snap.cube.getString coord).mapError .model }
      evaluator := fun _ _ => .error .dynamicUnsupported
      par := ⟨1, 0⟩
      crossCubeDepVersions := fun _ => [] }
  dimensions :=
    { byId := FinMap.collect [(1, ⟨1, 0, coastSnapshot.cube.dimension 0⟩)]
      refs := FinMap.collect [(1, setOf ["Sales"])] }
  mdxNames _ := []
  distinct _ _ h := FinMap.eq_of_get_collect h ▸ distinct_coastCube
  wf _ _ h := FinMap.eq_of_get_collect h ▸ wf_coast

/-- The readers of the cube may not read the region. -/
def coastReaders : SecurityStore :=
  { SecurityStore.empty with
    users := FinMap.collect [("bob", ⟨false, "", false, setOf ["staff"]⟩)]
    elementAcls := FinMap.collect
      [(⟨"Sales", "Region", "North"⟩, AccessList.empty.set (.group "board") .read)]
    grants := FinMap.collect
      [(⟨.cube "Sales", .cube⟩, AccessList.empty.set (.group "staff") .read),
        (⟨.global, .dimension⟩, AccessList.empty.set (.group "staff") .read)] }

/-- An answer that writes a name which a mask denies. -/
theorem not_conceals {request : ListingRequest} {cube : String} {snap : ReadSnapshot}
    (dim n : String) (hcube : cube ∈ env.cubesOf request)
    (hsnap : env.views.snapshots[cube]? = some snap)
    (hdenied : (sec.elementMaskFor auth.username snap.cube).any
      (fun m => m.deniesName snap.cube dim n) = true)
    (hnamed : (env.respond sec auth request).toOption.any
      (fun answer => (dim, n) ∈ answer.names env.mdxNames) = true) :
    ¬ env.Conceals sec auth request := by
  intro h
  obtain ⟨m, hm, hdenied⟩ := (Option.any_eq_true _ _).1 hdenied
  obtain ⟨answer, hanswer, hnamed⟩ := exists_ok_of_any hnamed
  have hnot := h answer hanswer cube hcube snap hsnap m hm _ (of_decide_eq_true hnamed)
  exact absurd hdenied (by simpa using hnot)

/-- Bob may not read the region; the list of sets names it to him, and the
shared dimension the coast, of which it is the only part. -/
theorem not_conceals_coast :
    ¬ coastEnv.Conceals coastReaders ⟨"bob", false, ["staff"]⟩ (.listSubsets "Sales" "Region") ∧
      ¬ coastEnv.Conceals coastReaders ⟨"bob", false, ["staff"]⟩ (.getDimension 1) := by
  have hsnap : coastEnv.views.snapshots["Sales"]? = some coastSnapshot :=
    (FinMap.get_collect (FinMap.functional_of_nodup (by simp))).2 (by simp)
  constructor
  · exact not_conceals "Region" "North" (by decide +kernel) hsnap (by decide +kernel)
      (by decide +kernel)
  · exact not_conceals "Region" "Coast" (by decide +kernel) hsnap (by decide +kernel)
      (by decide +kernel)

end ListingEnv

end Epiphany
