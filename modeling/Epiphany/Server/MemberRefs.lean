import Epiphany.Core.Coverage
import Epiphany.Core.Model
import Epiphany.Core.StructuralEdits
import Epiphany.Server.Migration
/-!
# Member references — what names a member, and what its deletion breaks

Saved subsets, views and rule tests keep the texts their authors wrote, and a
text leads to an element by its name or by an alias. `referencesToMember`
looks for the name. A deletion breaks the objects whose texts led to the
element (`Swaps.resolves_next_iff`), so the query reports every object that it
breaks exactly where no object names the element by its aliases alone
(`reports_iff`).
-/

namespace Epiphany

/-! ## Deleting an element, by its texts -/

namespace Dimension

variable {d d' : Dimension} {toNew : Renumbering} {element : Nat}

theorem resolve_eq_some {text : String} {i : Nat} : d.resolve text = some i ↔
    d.indexByName[text]? = some i ∨
      d.indexByName[text]? = none ∧ d.aliasToElement[text]? = some i := by
  unfold resolve indexOf
  rcases d.indexByName[text]? with - | j <;> simp

/-- A text that leads to another element still leads somewhere. -/
theorem resolve_of_ne (hd : d.WF) (h : d.delete element = .ok (d', toNew)) {text : String} {i : Nat}
    (hi : d.resolve text = some i) (hne : i ≠ element) : (d'.resolve text).isSome = true := by
  have hd' : d'.WF := hd.delete h
  obtain ⟨-, -, rfl, -⟩ := delete_ok h
  have hr := Cube.renumbers_deleteElement hd h
  have hmoved : i < d.elements.length →
      ∃ j, moved (deleteMap d.elements.length element) i = some j := fun hi =>
    (moved_of_delete h).2 ⟨hi, hne⟩
  unfold resolve indexOf
  rcases resolve_eq_some.1 hi with hname | ⟨-, halias⟩
  · rw [hd.index] at hname
    obtain ⟨j, hj⟩ := hmoved (lt_of_nameAt hname)
    have hname' : d'.nameAt j = some text := by
      unfold nameAt
      rw [hr.elements i j hj]
      exact hname
    rw [(hd'.index text j).2 hname']
    rfl
  · obtain ⟨a, hkind, hvalue⟩ := (hd.aliases text i).1 halias
    have hlength : i < d.elements.length := by
      by_contra hge
      rw [valuesOf_of_le (by rw [hd.values_length]; omega)] at hvalue
      simp at hvalue
    obtain ⟨j, hj⟩ := hmoved hlength
    have halias' : d'.aliasToElement[text]? = some j := by
      refine (hd'.aliases text j).2 ⟨a, ?_, ?_⟩
      · unfold attributeKind
        rw [hr.attributes]
        exact hkind
      · rw [hr.values i j hj]
        exact hvalue
    rw [halias']
    rcases d'.indexByName[text]? with - | k <;> rfl

/-- An alias of the deleted element leads nowhere. -/
theorem resolve_of_alias (hd : d.WF) (h : d.delete element = .ok (d', toNew)) {name text : String}
    (hname : d.indexByName[name]? = some element) (hne : text ≠ name)
    (hi : d.resolve text = some element) : d'.resolve text = none := by
  have hd' : d'.WF := hd.delete h
  have hr := Cube.renumbers_deleteElement hd h
  obtain ⟨hnone, halias⟩ :
      d.indexByName[text]? = none ∧ d.aliasToElement[text]? = some element := by
    refine (resolve_eq_some.1 hi).resolve_left fun hindex => hne ?_
    rw [hd.index] at hname hindex
    exact Option.some.inj (hindex.symm.trans hname)
  refine Option.eq_none_iff_forall_ne_some.2 fun j hj => ?_
  rcases resolve_eq_some.1 hj with hindex | ⟨-, halias'⟩
  · -- the names that are left were there before
    obtain ⟨-, -, -, rfl⟩ := delete_ok h
    rw [hd'.index, nameAt_eq_some] at hindex
    obtain ⟨e, he, rfl⟩ := hindex
    obtain ⟨k, hk⟩ := List.getElem?_of_mem (List.mem_of_mem_eraseIdx (List.mem_of_getElem? he))
    have hk' : d.nameAt k = some e.name := nameAt_eq_some.2 ⟨e, hk, rfl⟩
    rw [(hd.index e.name k).2 hk'] at hnone
    cases hnone
  · obtain ⟨k, hk, hholds⟩ := hr.holdsAlias ((hd'.aliases text j).1 halias')
    obtain rfl := Option.some.inj (((hd.aliases text k).2 hholds).symm.trans halias)
    obtain ⟨-, -, rfl, -⟩ := delete_ok h
    exact (moved_deleteMap.1 hk).2.1 rfl

end Dimension

/-! ## The saved objects -/

/-- A rule unit test: cells to set, and cells to check. -/
structure RuleTest where
  name : String
  fixtures : List TestCell
  assertions : List TestCell

/-- A model with its rule tests. Each subset is kept under its own
dimension. -/
structure SavedModel where
  model : Model
  tests : FinMap String RuleTest
  wf : model.cube.WF
  keyed : ∀ (key : SubsetKey) (s : Subset), model.subsets[key]? = some s →
    s.dimension = key.dimension

/-- Where a saved object names a member. -/
inductive MemberRef where
  | subsetMember (dimension subset : String)
  | viewContext (view : String)
  | viewAxisMember (view : String) (rows : Bool)
  | ruleTestCell (test : String) (fixture : Bool)
deriving DecidableEq

inductive Referrer where
  | subset (key : SubsetKey)
  | view (name : String)
  | test (name : String)
deriving DecidableEq

def MemberRef.object : MemberRef → Referrer
  | subsetMember dimension subset => .subset ⟨dimension, subset⟩
  | viewContext view => .view view
  | viewAxisMember view _ => .view view
  | ruleTestCell test _ => .test test

namespace Query

/-- A subset's definition: its dimension is there and a static one's members
lead somewhere. -/
def validateSubset (cube : Cube) (subset : Subset) : Except QueryError Unit := do
  let dim ← dimensionByName cube subset.dimension
  match subset.kind with
  | .static members => members.forM fun member => (resolveMember dim member).map fun _ => ()
  | .dynamic _ => .ok ()

def validateSpec (m : Model) : AxisSpec → Except QueryError Unit
  | .subset dimension subset => do
    let s ← okOr (m.subset dimension subset) (.unknownSubset subset)
    if s.dimension ≠ dimension then
      .error (.subsetDimensionMismatch subset dimension s.dimension)
    else .ok ()
  | .members dimension members => do
    let dim ← dimensionByName m.cube dimension
    members.forM fun member => (resolveMember dim member).map fun _ => ()

def validateContext (cube : Cube) (p : String × String) : Except QueryError Unit := do
  let dim ← dimensionByName cube p.1
  let _ ← okOr (dim.resolve p.2) (.unknownMember p.1 p.2)
  .ok ()

/-- A view's definition: each dimension is placed once, its subsets are there
and its members lead somewhere. -/
def validateView (m : Model) (view : View) : Except QueryError Unit := do
  validateCoverage m.cube view
  (view.rows ++ view.columns).forM (validateSpec m)
  view.context.forM (validateContext m.cube)

end Query

/-- A failure to read a test's coordinate. -/
inductive TestRunError where
  | badCoord (message : String)
deriving DecidableEq

def resolveTestMember (coord : FinMap String String) (dim : Dimension) :
    Except TestRunError Nat := do
  let member ← okOr coord[dim.name]? (.badCoord ("missing dimension '" ++ dim.name ++ "'"))
  okOr (dim.resolve member)
    (.badCoord ("unknown member '" ++ member ++ "' in '" ++ dim.name ++ "'"))

/-- A test's coordinate, one element for each dimension. -/
def resolveTestCoord (cube : Cube) (coord : FinMap String String) : Except TestRunError Coord :=
  cube.dimensions.mapM (resolveTestMember coord)

/-! ## The query -/

namespace SavedModel

variable (s : SavedModel)

def deleteElement (dimension element : String) : Except ModelError SavedModel :=
  match h : s.model.cube.deleteElement dimension element with
  | .ok cube => .ok ⟨{ s.model with cube := cube }, s.tests, s.wf.deleteElement h, s.keyed⟩
  | .error e => .error e

section References

variable (dimension member : String)

def specNames : AxisSpec → Bool
  | .members d members => d = dimension && members.any (· = member)
  | .subset _ _ => false

def subsetRefs (e : SubsetKey × Subset) : List MemberRef :=
  if e.1.dimension ≠ dimension then []
  else match e.2.kind with
    | .static members =>
      if members.any (· = member) then [.subsetMember e.1.dimension e.1.name] else []
    | .dynamic _ => []

def axisRefs (view : String) (rows : Bool) (axis : List AxisSpec) : List MemberRef :=
  if axis.any (specNames dimension member) then [.viewAxisMember view rows] else []

def viewRefs (e : String × View) : List MemberRef :=
  (if e.2.context.any fun p => p.1 = dimension && p.2 = member then [.viewContext e.1] else []) ++
    axisRefs dimension member e.1 true e.2.rows ++ axisRefs dimension member e.1 false e.2.columns

def cellRefs (test : String) (fixture : Bool) (cells : List TestCell) : List MemberRef :=
  if cells.any fun cell => cell.coord[dimension]?.any (· = member) then
    [.ruleTestCell test fixture]
  else []

def testRefs (e : String × RuleTest) : List MemberRef :=
  cellRefs dimension member e.1 true e.2.fixtures ++
    cellRefs dimension member e.1 false e.2.assertions

/-- What names a member: subsets, then views, then rule tests. -/
def referencesToMember : List MemberRef :=
  s.model.subsets.toList.flatMap (subsetRefs dimension member) ++
    s.model.views.toList.flatMap (viewRefs dimension member) ++
    s.tests.toList.flatMap (testRefs dimension member)

end References

/-! ## The texts an object lists -/

/-- The texts that a place lists for a dimension. -/
def contextTexts (dimension : String) (view : View) : List String :=
  (view.context.filter fun p => p.1 = dimension).map Prod.snd

def specTexts (dimension : String) : AxisSpec → List String
  | .members d members => if d = dimension then members else []
  | .subset _ _ => []

def axisTexts (dimension : String) (axis : List AxisSpec) : List String :=
  axis.flatMap (specTexts dimension)

def cellTexts (dimension : String) (cells : List TestCell) : List String :=
  cells.filterMap fun cell => cell.coord[dimension]?

def kindTexts : SubsetKind → List String
  | .static members => members
  | .dynamic _ => []

/-- The texts that a place of the model lists for a dimension. -/
def textsAt (dimension : String) : MemberRef → List String
  | .subsetMember d name =>
    if d = dimension then
      (s.model.subset d name).elim [] fun x => kindTexts x.kind
    else []
  | .viewContext view => (s.model.view view).elim [] (contextTexts dimension)
  | .viewAxisMember view rows =>
    (s.model.view view).elim [] fun v => axisTexts dimension (if rows then v.rows else v.columns)
  | .ruleTestCell test fixture =>
    s.tests[test]?.elim [] fun t =>
      cellTexts dimension (if fixture then t.fixtures else t.assertions)

end SavedModel

/-- The places of an object. -/
def Referrer.places : Referrer → List MemberRef
  | subset key => [.subsetMember key.dimension key.name]
  | view name => [.viewContext name, .viewAxisMember name true, .viewAxisMember name false]
  | test name => [.ruleTestCell name true, .ruleTestCell name false]

theorem MemberRef.object_eq {r : MemberRef} {o : Referrer} : r.object = o ↔ r ∈ o.places := by
  cases r with
  | subsetMember d name =>
    cases o with
    | subset key =>
      obtain ⟨d', name'⟩ := key
      simp [MemberRef.object, Referrer.places]
    | _ => simp [MemberRef.object, Referrer.places]
  | viewContext v => cases o <;> simp [MemberRef.object, Referrer.places, eq_comm]
  | viewAxisMember v rows => cases o <;> cases rows <;> simp [MemberRef.object, Referrer.places]
  | ruleTestCell t fixture =>
    cases o <;> cases fixture <;> simp [MemberRef.object, Referrer.places]

namespace SavedModel

variable (s : SavedModel)

/-- The texts that an object lists for a dimension. -/
def listed (dimension : String) (o : Referrer) : List String :=
  o.places.flatMap (s.textsAt dimension)

/-- A static subset, a view or a rule test whose texts all lead somewhere. -/
def Resolves : Referrer → Prop
  | .subset key => ∃ x members, s.model.subsets[key]? = some x ∧ x.kind = .static members ∧
      Query.validateSubset s.model.cube x = .ok ()
  | .view name => ∃ v, s.model.views[name]? = some v ∧ Query.validateView s.model v = .ok ()
  | .test name => ∃ t, s.tests[name]? = some t ∧ ∀ cell ∈ t.fixtures ++ t.assertions,
      (resolveTestCoord s.model.cube cell.coord).isOk = true

variable {s}

theorem mem_subsetRefs {dimension member : String} {e : SubsetKey × Subset} {r : MemberRef} :
    r ∈ subsetRefs dimension member e ↔
      r = .subsetMember e.1.dimension e.1.name ∧ e.1.dimension = dimension ∧
        member ∈ kindTexts e.2.kind := by
  unfold subsetRefs kindTexts
  split_ifs with hdim
  · simp [hdim]
  · rw [ne_eq, not_not] at hdim
    cases e.2.kind with
    | static members => by_cases hm : member ∈ members <;> simp [hdim, hm]
    | dynamic mdx => simp

theorem any_specNames {dimension member : String} {axis : List AxisSpec} :
    axis.any (specNames dimension member) = true ↔ member ∈ axisTexts dimension axis := by
  unfold axisTexts
  rw [List.any_eq_true, List.mem_flatMap]
  refine exists_congr fun spec => and_congr_right fun _ => ?_
  unfold specNames specTexts
  cases spec with
  | subset d name => simp
  | members d members => by_cases hd : d = dimension <;> simp [hd]

theorem mem_axisRefs {dimension member view : String} {rows : Bool} {axis : List AxisSpec}
    {r : MemberRef} : r ∈ axisRefs dimension member view rows axis ↔
      r = .viewAxisMember view rows ∧ member ∈ axisTexts dimension axis := by
  unfold axisRefs
  rw [← any_specNames]
  split_ifs with hany <;> simp [hany]

theorem mem_viewRefs {dimension member : String} {e : String × View} {r : MemberRef} :
    r ∈ viewRefs dimension member e ↔
      (r = .viewContext e.1 ∧ member ∈ contextTexts dimension e.2) ∨
      (r = .viewAxisMember e.1 true ∧ member ∈ axisTexts dimension e.2.rows) ∨
      (r = .viewAxisMember e.1 false ∧ member ∈ axisTexts dimension e.2.columns) := by
  have hcontext : (e.2.context.any fun p => p.1 = dimension && p.2 = member) = true ↔
      member ∈ contextTexts dimension e.2 := by
    simp [contextTexts]
  unfold viewRefs
  rw [List.mem_append, List.mem_append, mem_axisRefs, mem_axisRefs, or_assoc, ← hcontext]
  refine or_congr_left ?_
  split_ifs with hany <;> simp [hany]

theorem mem_cellRefs {dimension member test : String} {fixture : Bool} {cells : List TestCell}
    {r : MemberRef} : r ∈ cellRefs dimension member test fixture cells ↔
      r = .ruleTestCell test fixture ∧ member ∈ cellTexts dimension cells := by
  have hany : (cells.any fun cell => cell.coord[dimension]?.any (· = member)) = true ↔
      member ∈ cellTexts dimension cells := by
    simp [cellTexts, Option.any_eq_true]
  unfold cellRefs
  rw [← hany]
  split_ifs with h <;> simp [h]

/-- **The query, exactly.** A place is reported if and only if it lists the
member's name. -/
theorem mem_referencesToMember {dimension member : String} {r : MemberRef} :
    r ∈ s.referencesToMember dimension member ↔ member ∈ s.textsAt dimension r := by
  unfold referencesToMember testRefs
  simp only [List.mem_append, List.mem_flatMap, mem_subsetRefs, mem_viewRefs, mem_cellRefs]
  -- a place is of one kind, so only one of the three scans can report it
  cases r with
  | subsetMember d name =>
    unfold textsAt Model.subset
    dsimp only
    constructor
    · rintro ((⟨⟨key, x⟩, he, heq, hdim, hm⟩ | ⟨e, -, h⟩) | ⟨e, -, h⟩)
      · rw [FinMap.mem_toList] at he
        dsimp only at heq hdim
        cases heq
        rw [if_pos hdim, he]
        exact hm
      · simp at h
      · simp at h
    · intro hm
      split_ifs at hm with hdim
      · rcases hx : s.model.subsets[SubsetKey.mk d name]? with - | x
        · rw [hx] at hm
          simp at hm
        · rw [hx] at hm
          exact Or.inl (Or.inl ⟨⟨⟨d, name⟩, x⟩, FinMap.mem_toList.2 hx, rfl, hdim, hm⟩)
      · simp at hm
  | viewContext v =>
    unfold textsAt Model.view
    dsimp only
    constructor
    · rintro ((⟨e, -, h, -⟩ | ⟨⟨key, x⟩, he, h⟩) | ⟨e, -, h⟩)
      · cases h
      · obtain ⟨heq, hm⟩ : v = key ∧ member ∈ contextTexts dimension x := by simpa using h
        rw [heq, FinMap.mem_toList.1 he]
        exact hm
      · simp at h
    · intro hm
      rcases hx : s.model.views[v]? with - | x
      · rw [hx] at hm
        simp at hm
      · rw [hx] at hm
        exact Or.inl (Or.inr ⟨⟨v, x⟩, FinMap.mem_toList.2 hx, Or.inl ⟨rfl, hm⟩⟩)
  | viewAxisMember v rows =>
    unfold textsAt Model.view
    dsimp only
    constructor
    · rintro ((⟨e, -, h, -⟩ | ⟨⟨key, x⟩, he, h⟩) | ⟨e, -, h⟩)
      · cases h
      · rw [FinMap.mem_toList] at he
        dsimp only at h he
        rcases h with ⟨h, -⟩ | ⟨h, hm⟩ | ⟨h, hm⟩
        · cases h
        · cases h
          rw [he]
          exact hm
        · cases h
          rw [he]
          exact hm
      · simp at h
    · intro hm
      rcases hx : s.model.views[v]? with - | x
      · rw [hx] at hm
        simp at hm
      · rw [hx] at hm
        refine Or.inl (Or.inr ⟨⟨v, x⟩, FinMap.mem_toList.2 hx, Or.inr ?_⟩)
        cases rows with
        | true => exact Or.inl ⟨rfl, hm⟩
        | false => exact Or.inr ⟨rfl, hm⟩
  | ruleTestCell t fixture =>
    unfold textsAt
    dsimp only
    constructor
    · rintro ((⟨e, -, h, -⟩ | ⟨e, -, h⟩) | ⟨⟨key, x⟩, he, h⟩)
      · cases h
      · simp at h
      · rw [FinMap.mem_toList] at he
        dsimp only at h he
        rcases h with ⟨h, hm⟩ | ⟨h, hm⟩
        · cases h
          rw [he]
          exact hm
        · cases h
          rw [he]
          exact hm
    · intro hm
      rcases hx : s.tests[t]? with - | x
      · rw [hx] at hm
        simp at hm
      · rw [hx] at hm
        refine Or.inr ⟨⟨t, x⟩, FinMap.mem_toList.2 hx, ?_⟩
        cases fixture with
        | true => exact Or.inl ⟨rfl, hm⟩
        | false => exact Or.inr ⟨rfl, hm⟩

/-- An object is reported if and only if it lists the member's name. -/
theorem reported_iff {dimension member : String} {o : Referrer} :
    (∃ r ∈ s.referencesToMember dimension member, r.object = o) ↔
      member ∈ s.listed dimension o := by
  unfold listed
  rw [List.mem_flatMap]
  refine exists_congr fun r => ?_
  rw [mem_referencesToMember, MemberRef.object_eq, and_comm]

end SavedModel

/-! ## What a check looks at -/

namespace Query

variable {cube : Cube} {m : Model}

/-- A name is that of a dimension in which each text leads somewhere. -/
def Leads (cube : Cube) (name : String) (texts : List String) : Prop :=
  ∃ dim, dimensionByName cube name = .ok dim ∧ ∀ text ∈ texts, (dim.resolve text).isSome = true

theorem forM_resolveMember {dim : Dimension} {members : List String} :
    (members.forM fun member => (resolveMember dim member).map fun _ => ()) = .ok () ↔
      ∀ text ∈ members, (dim.resolve text).isSome = true := by
  rw [forM_eq_ok]
  refine forall₂_congr fun text _ => ?_
  unfold resolveMember
  rcases dim.resolve text with - | i <;> simp [okOr, Except.map]

theorem validateSubset_eq_ok {x : Subset} {members : List String}
    (hkind : x.kind = .static members) :
    validateSubset cube x = .ok () ↔ Leads cube x.dimension members := by
  unfold validateSubset Leads
  rw [bind_eq_ok, hkind]
  dsimp only
  simp only [forM_resolveMember]

/-- What a spec needs besides its texts. -/
theorem validateSpec_eq_ok {spec : AxisSpec} : validateSpec m spec = .ok () ↔
    (∀ dimension subset, spec = .subset dimension subset →
      ∃ x, m.subset dimension subset = some x ∧ x.dimension = dimension) ∧
    ∀ dimension members, spec = .members dimension members → Leads m.cube dimension members := by
  unfold validateSpec Leads
  cases spec with
  | subset dimension subset =>
    dsimp only
    rw [bind_eq_ok]
    simp [okOr_eq_ok]
  | members dimension members =>
    dsimp only
    rw [bind_eq_ok]
    simp only [forM_resolveMember]
    simp

theorem validateContext_eq_ok {p : String × String} :
    validateContext cube p = .ok () ↔ Leads cube p.1 [p.2] := by
  unfold validateContext Leads
  simp [bind_eq_ok, Option.isSome_iff_exists]

theorem validateView_eq_ok {view : View} : validateView m view = .ok () ↔
    validateCoverage m.cube view = .ok () ∧
      (∀ spec ∈ view.rows ++ view.columns, validateSpec m spec = .ok ()) ∧
      ∀ p ∈ view.context, Leads m.cube p.1 [p.2] := by
  unfold validateView
  simp only [bind_eq_ok]
  constructor
  · rintro ⟨⟨⟩, hcoverage, ⟨⟩, hspecs, hcontext⟩
    exact ⟨hcoverage, forM_eq_ok.1 hspecs,
      fun p hp => validateContext_eq_ok.1 (forM_eq_ok.1 hcontext p hp)⟩
  · rintro ⟨hcoverage, hspecs, hcontext⟩
    exact ⟨⟨⟩, hcoverage, ⟨⟩, forM_eq_ok.2 hspecs,
      forM_eq_ok.2 fun p hp => validateContext_eq_ok.2 (hcontext p hp)⟩

end Query

theorem resolveTestCoord_isOk {cube : Cube} {coord : FinMap String String} :
    (resolveTestCoord cube coord).isOk = true ↔ ∀ dim ∈ cube.dimensions,
      ∃ text, coord[dim.name]? = some text ∧ (dim.resolve text).isSome = true := by
  have hmember : ∀ dim, (∃ i, resolveTestMember coord dim = .ok i) ↔
      ∃ text, coord[dim.name]? = some text ∧ (dim.resolve text).isSome = true := by
    intro dim
    unfold resolveTestMember
    simp only [bind_eq_ok, okOr_eq_ok, Option.isSome_iff_exists]
    constructor
    · rintro ⟨i, text, ht, hi⟩
      exact ⟨text, ht, i, hi⟩
    · rintro ⟨text, ht, i, hi⟩
      exact ⟨i, text, ht, hi⟩
  unfold resolveTestCoord
  simp only [← hmember]
  constructor
  · intro hok dim hdim
    obtain ⟨resolved, hresolved⟩ := exists_of_isOk hok
    exact exists_of_mapM hresolved hdim
  · intro hall
    obtain ⟨resolved, hresolved⟩ := exists_mapM_ok hall
    rw [hresolved]
    rfl

namespace SavedModel

variable {s next : SavedModel} {dimension member : String}

/-- One dimension of a model, the first of its name, stands in for another;
the saved objects are left. -/
structure Swaps (s next : SavedModel) (dimension : String) (old dim : Dimension) : Prop where
  name : next.model.cube.name = s.model.cube.name
  subsets : next.model.subsets = s.model.subsets
  views : next.model.views = s.model.views
  tests : next.tests = s.tests
  dimensions : ∃ d, s.model.cube.dimensions.findIdx? (fun x => x.name = dimension) = some d ∧
    s.model.cube.dimensions[d]? = some old ∧
    next.model.cube.dimensions = s.model.cube.dimensions.set d dim
  old_name : old.name = dimension
  dim_name : dim.name = dimension

/-- **What a deletion does to a model.** -/
theorem deleteElement_ok (h : s.deleteElement dimension member = .ok next) :
    ∃ old dim element toNew, Swaps s next dimension old dim ∧ old.WF ∧
      old.indexByName[member]? = some element ∧ old.delete element = .ok (dim, toNew) := by
  unfold deleteElement at h
  split at h
  · rename_i cube hdelete
    obtain rfl := Except.ok.inj h
    simp only [Cube.deleteElement, bind_eq_ok, Cube.findElement_eq_ok, Except.ok.injEq] at hdelete
    obtain ⟨d, hd, i, hi, ⟨dim, toNew⟩, hr, rfl⟩ := hdelete
    obtain ⟨hold, hname⟩ := Cube.dimensionIndex_ok hd
    have hwf := s.wf.dimension hold
    exact ⟨s.model.cube.dimension d, dim, i, toNew,
      { name := rfl
        subsets := rfl
        views := rfl
        tests := rfl
        dimensions := ⟨d, okOr_eq_ok.1 hd, hold, rfl⟩
        old_name := hname
        dim_name := ((Cube.renumbers_deleteElement hwf hr).name).trans hname }, hwf, hi, hr⟩
  · cases h

variable {old dim : Dimension}

namespace Swaps

/-- A dimension stands in for itself. -/
theorem refl (h : Swaps s next dimension old dim) : Swaps s s dimension old old := by
  obtain ⟨d, hd, hold, -⟩ := h.dimensions
  obtain ⟨hlt, hget⟩ := List.getElem?_eq_some_iff.1 hold
  refine ⟨rfl, rfl, rfl, rfl, ⟨d, hd, hold, ?_⟩, h.old_name, h.old_name⟩
  rw [← hget, List.set_getElem_self]

variable (h : Swaps s next dimension old dim)

include h

theorem find_old : Query.dimensionByName s.model.cube dimension = .ok old := by
  obtain ⟨d, hd, hold, -⟩ := h.dimensions
  unfold Query.dimensionByName
  rw [okOr_eq_ok, List.find?_eq_some_iff_getElem]
  obtain ⟨hlt, hname, hbefore⟩ := List.findIdx?_eq_some_iff_getElem.1 hd
  obtain ⟨hlt', rfl⟩ := List.getElem?_eq_some_iff.1 hold
  exact ⟨hname, d, hlt, rfl, fun j hj => by simpa using hbefore j hj⟩

theorem find_new : Query.dimensionByName next.model.cube dimension = .ok dim := by
  obtain ⟨d, hd, -, hset⟩ := h.dimensions
  unfold Query.dimensionByName
  rw [okOr_eq_ok, List.find?_eq_some_iff_getElem]
  obtain ⟨hlt, hname, hbefore⟩ := List.findIdx?_eq_some_iff_getElem.1 hd
  refine ⟨by simp [h.dim_name], d, by rw [hset]; simpa using hlt, by simp [hset], fun j hj => ?_⟩
  have hj' := hbefore j hj
  simp only [hset, List.getElem_set_ne (by omega : d ≠ j)]
  simpa using hj'

/-- The dimensions keep their names, in order. -/
theorem names : next.model.cube.dimensions.map Dimension.name =
    s.model.cube.dimensions.map Dimension.name := by
  obtain ⟨d, -, hold, hset⟩ := h.dimensions
  obtain ⟨hlt, hold⟩ := List.getElem?_eq_some_iff.1 hold
  have hself := @List.set_getElem_self _ (s.model.cube.dimensions.map Dimension.name) d
    (by simpa using hlt)
  rw [List.getElem_map, hold, h.old_name] at hself
  rw [hset, List.map_set, h.dim_name, hself]

theorem find_ne {name : String} (hne : name ≠ dimension) :
    Query.dimensionByName next.model.cube name = Query.dimensionByName s.model.cube name := by
  obtain ⟨d, -, hold, hset⟩ := h.dimensions
  obtain ⟨hlt, hold⟩ := List.getElem?_eq_some_iff.1 hold
  have hfind : (s.model.cube.dimensions.set d dim).find? (fun x => x.name = name) =
      s.model.cube.dimensions.find? (fun x => x.name = name) := by
    rw [List.set_eq_take_append_cons_drop, if_pos hlt]
    conv_rhs =>
      rw [← List.take_append_drop d s.model.cube.dimensions, List.drop_eq_getElem_cons hlt]
    rw [List.find?_append, List.find?_append, List.find?_cons_of_neg, List.find?_cons_of_neg]
    · simpa [hold, h.old_name] using hne.symm
    · simpa [h.dim_name] using hne.symm
  unfold Query.dimensionByName
  rw [hset, h.name, hfind]

/-- Texts that led somewhere still do, unless they are of the dimension and
lead nowhere in it now. -/
theorem leads_next {name : String} {texts : List String}
    (hleads : Query.Leads s.model.cube name texts) :
    Query.Leads next.model.cube name texts ↔
      (name = dimension → ∀ text ∈ texts, (dim.resolve text).isSome = true) := by
  by_cases hname : name = dimension
  · rw [hname]
    unfold Query.Leads
    rw [h.find_new]
    simp
  · unfold Query.Leads at hleads ⊢
    rw [h.find_ne hname]
    exact ⟨fun _ hdim => absurd hdim hname, fun _ => hleads⟩

theorem coverage (view : View) : Query.validateCoverage next.model.cube view = .ok () ↔
    Query.validateCoverage s.model.cube view = .ok () := by
  -- the check looks at the names of the dimensions only
  have hknown : ∀ n, (∃ d ∈ next.model.cube.dimensions, d.name = n) ↔
      ∃ d ∈ s.model.cube.dimensions, d.name = n := by
    intro n
    rw [← List.mem_map, ← List.mem_map, h.names]
  have hplaced : (∀ d ∈ next.model.cube.dimensions, d.name ∈ Query.placedNames view) ↔
      ∀ d ∈ s.model.cube.dimensions, d.name ∈ Query.placedNames view := by
    rw [← List.forall_mem_map (P := (· ∈ Query.placedNames view)), h.names, List.forall_mem_map]
  rw [Query.validateCoverage_eq_ok, Query.validateCoverage_eq_ok, hplaced]
  simp only [hknown]

theorem spec_next {spec : AxisSpec} (hspec : Query.validateSpec s.model spec = .ok ()) :
    Query.validateSpec next.model spec = .ok () ↔
      ∀ text ∈ specTexts dimension spec, (dim.resolve text).isSome = true := by
  rw [Query.validateSpec_eq_ok] at hspec ⊢
  obtain ⟨hsubset, hmembers⟩ := hspec
  unfold specTexts
  cases spec with
  | subset d name =>
    obtain ⟨x, hx, hdim⟩ := hsubset d name rfl
    refine ⟨fun _ text htext => (by cases htext), fun _ => ⟨?_, fun _ _ heq => (by cases heq)⟩⟩
    rintro _ _ ⟨⟩
    refine ⟨x, ?_, hdim⟩
    unfold Model.subset at hx ⊢
    rw [h.subsets]
    exact hx
  | members d members =>
    have hleads := h.leads_next (hmembers d members rfl)
    dsimp only
    constructor
    · rintro ⟨-, hnext⟩ text htext
      split_ifs at htext with hd
      · exact hleads.1 (hnext d members rfl) hd text htext
      · cases htext
    · refine fun hall => ⟨fun _ _ heq => (by cases heq), ?_⟩
      rintro _ _ ⟨⟩
      refine hleads.2 fun hd => ?_
      rw [if_pos hd] at hall
      exact hall

theorem view_next {view : View} (hview : Query.validateView s.model view = .ok ()) :
    Query.validateView next.model view = .ok () ↔
      ∀ text ∈ contextTexts dimension view ++
        (axisTexts dimension view.rows ++ axisTexts dimension view.columns),
        (dim.resolve text).isSome = true := by
  rw [Query.validateView_eq_ok] at hview ⊢
  obtain ⟨hcoverage, hspecs, hcontext⟩ := hview
  have hspecs' : (∀ spec ∈ view.rows ++ view.columns, Query.validateSpec next.model spec = .ok ()) ↔
      ∀ text ∈ axisTexts dimension view.rows ++ axisTexts dimension view.columns,
        (dim.resolve text).isSome = true := by
    unfold axisTexts
    rw [← List.flatMap_append]
    simp only [List.mem_flatMap]
    constructor
    · rintro hall text ⟨spec, hspec, htext⟩
      exact (h.spec_next (hspecs spec hspec)).1 (hall spec hspec) text htext
    · exact fun hall spec hspec => (h.spec_next (hspecs spec hspec)).2 fun text htext =>
        hall text ⟨spec, hspec, htext⟩
  have hcontext' : (∀ p ∈ view.context, Query.Leads next.model.cube p.1 [p.2]) ↔
      ∀ text ∈ contextTexts dimension view, (dim.resolve text).isSome = true := by
    unfold contextTexts
    simp only [List.mem_map, List.mem_filter, decide_eq_true_eq]
    constructor
    · rintro hall text ⟨p, ⟨hp, hdim⟩, rfl⟩
      exact (h.leads_next (hcontext p hp)).1 (hall p hp) hdim p.2 (List.mem_singleton_self _)
    · refine fun hall p hp => (h.leads_next (hcontext p hp)).2 fun hdim text htext => ?_
      obtain rfl := List.mem_singleton.1 htext
      exact hall p.2 ⟨p, ⟨hp, hdim⟩, rfl⟩
  rw [hspecs', hcontext', h.coverage]
  simp only [List.forall_mem_append]
  constructor
  · rintro ⟨-, haxes, hctx⟩
    exact ⟨hctx, haxes⟩
  · rintro ⟨hctx, haxes⟩
    exact ⟨hcoverage, haxes, hctx⟩

theorem coord_next {coord : FinMap String String}
    (hcoord : (resolveTestCoord s.model.cube coord).isOk = true) :
    (resolveTestCoord next.model.cube coord).isOk = true ↔
      ∀ text, coord[dimension]? = some text → (dim.resolve text).isSome = true := by
  obtain ⟨d, -, hold, hset⟩ := h.dimensions
  rw [resolveTestCoord_isOk] at hcoord ⊢
  rw [hset]
  constructor
  · intro hall text htext
    obtain ⟨hlt, -⟩ := List.getElem?_eq_some_iff.1 hold
    obtain ⟨text', htext', hsome⟩ := hall dim (List.mem_set hlt dim)
    rw [h.dim_name, htext] at htext'
    rwa [Option.some.inj htext']
  · intro hall x hx
    rcases List.mem_or_eq_of_mem_set hx with hx | rfl
    · exact hcoord x hx
    · obtain ⟨text, htext, -⟩ := hcoord old (List.mem_of_getElem? hold)
      rw [h.old_name] at htext
      exact ⟨text, by rw [h.dim_name]; exact htext, hall text htext⟩

/-- **After a swap.** An object that resolved still does if and only if its
texts of the dimension still lead somewhere. -/
theorem resolves_next_iff {o : Referrer} (ho : s.Resolves o) :
    next.Resolves o ↔ ∀ text ∈ s.listed dimension o, (dim.resolve text).isSome = true := by
  unfold Resolves at ho ⊢
  unfold listed
  -- the definition of an object is not touched by the swap: only its texts are looked up anew
  cases o with
  | subset key =>
    obtain ⟨x, members, hx, hkind, hvalid⟩ := ho
    have hvalid' := (Query.validateSubset_eq_ok hkind).1 hvalid
    have hlisted : s.textsAt dimension (.subsetMember key.dimension key.name) =
        if key.dimension = dimension then members else [] := by
      unfold textsAt Model.subset
      dsimp only
      rw [hx, Option.elim_some, hkind]
      rfl
    have hnext := h.leads_next hvalid'
    rw [s.keyed key x hx] at hnext
    simp only [Referrer.places, List.flatMap_cons, List.flatMap_nil, List.append_nil, hlisted]
    rw [h.subsets]
    constructor
    · rintro ⟨x', members', hx', hkind', hvalid'⟩ text htext
      obtain rfl := Option.some.inj (hx.symm.trans hx')
      rw [Query.validateSubset_eq_ok hkind, s.keyed key x hx, hnext] at hvalid'
      split_ifs at htext with hdim
      · exact hvalid' hdim text htext
      · cases htext
    · refine fun hall => ⟨x, members, hx, hkind, ?_⟩
      rw [Query.validateSubset_eq_ok hkind, s.keyed key x hx, hnext]
      intro hdim
      rw [if_pos hdim] at hall
      exact hall
  | view name =>
    obtain ⟨v, hv, hvalid⟩ := ho
    have hlisted : (Referrer.view name).places.flatMap (s.textsAt dimension) =
        contextTexts dimension v ++
          (axisTexts dimension v.rows ++ axisTexts dimension v.columns) := by
      simp only [Referrer.places, List.flatMap_cons, List.flatMap_nil, List.append_nil]
      unfold textsAt Model.view
      dsimp only
      rw [hv]
      rfl
    rw [hlisted, ← h.view_next hvalid]
    dsimp only
    rw [h.views]
    constructor
    · rintro ⟨v', hv', hvalid'⟩
      obtain rfl := Option.some.inj (hv.symm.trans hv')
      exact hvalid'
    · exact fun hvalid' => ⟨v, hv, hvalid'⟩
  | test name =>
    obtain ⟨t, ht, hcells⟩ := ho
    have hlisted : (Referrer.test name).places.flatMap (s.textsAt dimension) =
        cellTexts dimension (t.fixtures ++ t.assertions) := by
      simp only [Referrer.places, List.flatMap_cons, List.flatMap_nil, List.append_nil]
      unfold textsAt cellTexts
      dsimp only
      rw [ht, List.filterMap_append]
      rfl
    rw [hlisted]
    dsimp only
    rw [h.tests]
    unfold cellTexts
    simp only [List.mem_filterMap]
    constructor
    · rintro ⟨t', ht', hcells'⟩ text ⟨cell, hcell, htext⟩
      obtain rfl := Option.some.inj (ht.symm.trans ht')
      exact (h.coord_next (hcells cell hcell)).1 (hcells' cell hcell) text htext
    · exact fun hall => ⟨t, ht, fun cell hcell =>
        (h.coord_next (hcells cell hcell)).2 fun text htext => hall text ⟨cell, hcell, htext⟩⟩

end Swaps

/-! ## What the query misses -/

/-- A text is an alias of a member. -/
def IsAliasOf (s : SavedModel) (dimension member text : String) : Prop :=
  text ≠ member ∧ ∃ old i, Query.dimensionByName s.model.cube dimension = .ok old ∧
    old.indexByName[member]? = some i ∧ old.resolve text = some i

/-- What a dry run promises: every object that an accepted deletion breaks is
reported, and what is reported names the member. -/
def ReportsAll (s : SavedModel) (dimension member : String) : Prop :=
  ∀ next, s.deleteElement dimension member = .ok next →
    (∀ o, s.Resolves o → ¬next.Resolves o →
      ∃ r ∈ s.referencesToMember dimension member, r.object = o) ∧
    ∀ r ∈ s.referencesToMember dimension member, member ∈ s.textsAt dimension r

/-- An object that lists an alias of a member lists its name as well. -/
def NamedByName (s : SavedModel) (dimension member : String) : Prop :=
  ∀ next, s.deleteElement dimension member = .ok next → ∀ o, s.Resolves o →
    (∃ text ∈ s.listed dimension o, s.IsAliasOf dimension member text) →
      member ∈ s.listed dimension o

/-- **References.** The query reports every object that a deletion breaks if
and only if no object names the member by its aliases alone. -/
theorem reports_iff (s : SavedModel) (dimension member : String) :
    s.ReportsAll dimension member ↔ s.NamedByName dimension member := by
  refine forall₂_congr fun next hnext => ?_
  obtain ⟨old, dim, element, toNew, hswaps, hwf, hindex, hdelete⟩ := deleteElement_ok hnext
  constructor
  · rintro ⟨hall, -⟩ o ho ⟨text, htext, hne, old', i, hfind, hindex', hresolve⟩
    obtain rfl := Except.ok.inj (hfind.symm.trans hswaps.find_old)
    obtain rfl := Option.some.inj (hindex'.symm.trans hindex)
    refine reported_iff.1 (hall o ho fun hnext => ?_)
    have hsome := (hswaps.resolves_next_iff ho).1 hnext text htext
    rw [Dimension.resolve_of_alias hwf hdelete hindex hne hresolve] at hsome
    cases hsome
  · intro hnamed
    refine ⟨fun o ho hbroken => reported_iff.2 ?_, fun r => mem_referencesToMember.1⟩
    rw [hswaps.resolves_next_iff ho] at hbroken
    push Not at hbroken
    obtain ⟨text, htext, hnone⟩ := hbroken
    -- the text led to the element, by its name or by an alias
    obtain ⟨i, hi⟩ := Option.isSome_iff_exists.1
      ((hswaps.refl.resolves_next_iff ho).1 ho text htext)
    by_cases hname : text = member
    · exact hname ▸ htext
    · refine hnamed o ho ⟨text, htext, hname, old, element, hswaps.find_old, hindex, ?_⟩
      by_cases helement : i = element
      · exact helement ▸ hi
      · exact absurd (Dimension.resolve_of_ne hwf hdelete hi helement) hnone

/-! ## A subset that lists an alias -/

theorem deleteElement_eq_ok {s : SavedModel} {cube : Cube} {dimension element : String}
    (h : s.model.cube.deleteElement dimension element = .ok cube) :
    s.deleteElement dimension element =
      .ok ⟨{ s.model with cube := cube }, s.tests, s.wf.deleteElement h, s.keyed⟩ := by
  unfold deleteElement
  split
  · rename_i cube' hdelete
    obtain rfl := Except.ok.inj (h.symm.trans hdelete)
    rfl
  · rename_i e hdelete
    rw [hdelete] at h
    cases h

/-- A cube whose leaf has an alias. -/
def captionDefs : List DimensionDef :=
  [⟨"Region", [("North", .leaf), ("South", .leaf)], [], [("Caption", .alias)],
    [("North", "Caption", .text "N")]⟩]

/-- A subset that lists the leaf by its alias. -/
def captionSubset : Subset := ⟨"mine", "Region", none, .pub, .static ["N", "South"]⟩

/-- The deletion of the leaf breaks the subset, and nothing is reported. -/
theorem not_reportsAll_caption : ¬∀ s dimension member, ReportsAll s dimension member := by
  intro hall
  obtain ⟨c, hc, hchecks⟩ := exists_ok_of_any (x := Cube.build "Sales" captionDefs)
    (p := fun c => (Query.validateSubset c captionSubset).isOk &&
      (c.deleteElement "Region" "North").toOption.any
        fun next => !(Query.validateSubset next captionSubset).isOk)
    (by decide +kernel)
  rw [Bool.and_eq_true] at hchecks
  obtain ⟨hvalid, hdeleted⟩ := hchecks
  obtain ⟨next, hnext, hbroken⟩ := exists_ok_of_any hdeleted
  obtain ⟨⟨⟩, hvalid⟩ := exists_of_isOk hvalid
  have hkeyed : ∀ (key : SubsetKey) (x : Subset),
      ((∅ : FinMap SubsetKey Subset).insert ⟨"Region", "mine"⟩ captionSubset)[key]? = some x →
        x.dimension = key.dimension := by
    intro key x hx
    rw [FinMap.get_insert] at hx
    split_ifs at hx with hkey
    · rw [← Option.some.inj hx, ← hkey]
      rfl
    · simp at hx
  let s : SavedModel := ⟨{ Model.new c with
    subsets := (∅ : FinMap SubsetKey Subset).insert ⟨"Region", "mine"⟩ captionSubset },
    ∅, Cube.WF.build hc, hkeyed⟩
  have hsubset : s.model.subsets[SubsetKey.mk "Region" "mine"]? = some captionSubset :=
    FinMap.get_insert_self _ _ _
  obtain ⟨r, hr, hobject⟩ := (hall s "Region" "North" _ (deleteElement_eq_ok hnext)).1
    (.subset ⟨"Region", "mine"⟩) ⟨captionSubset, _, hsubset, rfl, hvalid⟩ (by
      rintro ⟨x, -, hx, -, hx'⟩
      obtain rfl := Option.some.inj (hsubset.symm.trans hx)
      rw [hx'] at hbroken
      cases hbroken)
  have hlisted : "North" ∈ s.listed "Region" (.subset ⟨"Region", "mine"⟩) :=
    reported_iff.1 ⟨r, hr, hobject⟩
  have htexts : s.listed "Region" (.subset ⟨"Region", "mine"⟩) = ["N", "South"] := by
    unfold listed
    simp only [Referrer.places, List.flatMap_cons, List.flatMap_nil, List.append_nil]
    unfold textsAt Model.subset
    dsimp only
    rw [if_pos rfl, hsubset]
    rfl
  rw [htexts] at hlisted
  exact absurd hlisted (by decide)

end SavedModel

end Epiphany
