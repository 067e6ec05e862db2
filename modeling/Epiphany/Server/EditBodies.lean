import Epiphany.Common.Digits
import Epiphany.Core.KeptCells
import Epiphany.Engine.SharedDimension
import Epiphany.Server.Authz
/-!
# Edit bodies — which edits are refused to a restricted caller

The body of an edit request says whether the edit can drop stored data; only
those that can are refused to a caller with element restrictions. Making a
leaf the parent of a member drops its cells, and is not among them.
-/

namespace Epiphany

/-- Where an inserted member lands. -/
inductive PositionDto where
  | endOf
  | before (reference : String)
  | after (reference : String)
deriving DecidableEq

inductive DimensionEditBody where
  | reorder (newOrder : List String)
  | reparent (child : String) (newParent : Option String) (weight : Int)
  | addChild (parent child : String) (weight : Int)
  | removeChild (parent child : String)
  | setKind (element kind : String)
  | delete (element : String)
  | insert (name kind : String) (position : PositionDto)
  | pinToTop (element : String)
  | unpinFromTop (element : String)
deriving DecidableEq

def PositionDto.position : PositionDto → Position
  | endOf => .atEnd
  | before reference => .before reference
  | after reference => .after reference

def parseElementKind (s : String) : Except ApiError ElementKind :=
  if s = "numeric" ∨ s = "leaf" then .ok .leaf
  else if s = "string" then .ok .string
  else if s = "consolidated" then .ok .consolidated
  else .error (.unprocessable "INVALID_ELEMENT_KIND"
    ("unknown element kind '" ++ s ++ "' (expected numeric, string, or consolidated)"))

def isControl (c : Char) : Bool := c.toNat < 0x20 ∨ (0x7F ≤ c.toNat ∧ c.toNat < 0xA0)

def validateName (kind name : String) : Except ApiError Unit :=
  let trimmed := Digits.trim name.toList
  if trimmed = [] then .error (.unprocessable "INVALID_NAME" (kind ++ " name must not be empty"))
  else if trimmed ≠ name.toList then
    .error (.unprocessable "INVALID_NAME"
      (kind ++ " name '" ++ name ++ "' must not have leading or trailing spaces"))
  else if name.toList.any isControl then
    .error (.unprocessable "INVALID_NAME" (kind ++ " name contains a control character"))
  else .ok ()

namespace DimensionEditBody

/-- The edit that a body asks for. -/
def intoEdit : DimensionEditBody → Except ApiError DimensionEdit
  | reorder newOrder => .ok (.reorder newOrder)
  | reparent child newParent weight => .ok (.reparent child newParent weight)
  | addChild parent child weight => .ok (.addChild parent child weight)
  | removeChild parent child => .ok (.removeChild parent child)
  | setKind element kind => do
    let kind ← parseElementKind kind
    .ok (.setKind element kind)
  | delete element => .ok (.delete element)
  | insert name kind position => do
    validateName "element" name
    let kind ← parseElementKind kind
    .ok (.insert name kind position.position)
  | pinToTop element => .ok (.pinToTop element)
  | unpinFromTop element => .ok (.unpinFromTop element)

/-- Whether an edit can drop stored data. -/
def touchesElementData : DimensionEditBody → Bool
  | delete _ | setKind _ _ | addChild _ _ _ => true
  | _ => false

/-- A member that becomes a parent holds no cells of its own in the dimension
that is edited. -/
def VacatesNothing (c : Cube) (dimension : String) : DimensionEditBody → Prop
  | reparent _ (some parent) _ => ∀ d, c.dimensionIndex dimension = .ok d → c.Vacant d parent
  | _ => True

end DimensionEditBody

namespace Cube

open Dimension DimensionEditBody

variable {c c' : Cube} {dimension : String}

theorem keepsCells_of_keptByName {op : CubeOp} (h : KeptByName c op c')
    (hdeletes : ∀ ns, c.deletes op ns = false) : KeepsCells c c' := by
  constructor
  · intro e he
    exact h.numbers.mem_iff.2 (List.mem_filter.2 ⟨he, by simp [hdeletes]⟩)
  · intro e he
    exact h.texts.mem_iff.2 (List.mem_filter.2 ⟨he, by simp [hdeletes]⟩)

theorem keepsCells_removeChild (hc : c.WF) {parent child : String}
    (h : c.removeChildElement dimension parent child = .ok c') : KeepsCells c c' := by
  have hc' := hc.removeChildElement h
  simp only [removeChildElement, bind_eq_ok, Except.ok.injEq] at h
  obtain ⟨d, hd, p, -, k, -, dim, hdim, rfl⟩ := h
  rw [removeChild_ok hdim] at hc' ⊢
  exact keepsCells_setDimension hc hc' (dimensionIndex_ok hd).1 rfl fun _ => rfl

theorem keepsCells_setPin (hc : c.WF) {element : String} {pinned : Bool}
    (h : c.setElementPin dimension element pinned = .ok c') : KeepsCells c c' := by
  have hc' := hc.setElementPin h
  simp only [setElementPin, bind_eq_ok, Except.ok.injEq] at h
  obtain ⟨d, hd, i, -, dim, hdim, rfl⟩ := h
  obtain ⟨-, rfl⟩ := setPin_ok hdim
  exact keepsCells_setDimension hc hc' (dimensionIndex_ok hd).1 (by simp)
    (nameAt_modify fun _ => rfl)

/-- Nothing is stored at a consolidation. -/
theorem vacant_of_consolidated (hc : c.WF) {d i : Nat} {old : Dimension} {member : String}
    (hold : c.dimensions[d]? = some old) (hname : old.nameAt i = some member)
    (hkind : old.kindAt i = some .consolidated) : c.Vacant d member := by
  have hat : ∀ {a ns}, Named c.dimensions a ns → ns[d]? = some member → a[d]? = some i := by
    intro a ns ha hns
    obtain ⟨j, hj⟩ := ha.getElem? hold
    rw [hj, (hc.dims old (List.mem_of_getElem? hold)).nameAt_inj
      ((ha.name_at d j old hj hold).trans hns) hname]
  constructor
  · rintro ⟨ns, v⟩ he hns
    obtain ⟨a, ha, hv⟩ := (mem_namedNumbers hc).1 he
    obtain ⟨-, hnum⟩ := hc.numeric a v ha.inRange hv
    have hleaf := (forall₂_iff_getElem?.1 hnum).2 d i old (hat ha hns) hold
    simp [hkind] at hleaf
  · rintro ⟨ns, s⟩ he hns
    obtain ⟨a, ha, hs⟩ := (mem_namedTexts hc).1 he
    obtain ⟨id, hid, -⟩ := Option.map_eq_some_iff.1 hs
    obtain ⟨htext, -⟩ := hc.text a id ha.inRange hid
    have hleaf := (forall₂_iff_getElem?.1 htext.leaves).2 d i old (hat ha hns) hold
    simp [hkind] at hleaf

theorem keepsCells_reparent_none (hc : c.WF) {child : String} {weight : Int}
    (h : c.reparentElement dimension child none weight = .ok c') : KeepsCells c c' := by
  have hc' := hc.reparentElement h
  simp only [reparentElement, bind_eq_ok, Except.ok.injEq] at h
  obtain ⟨d, hd, k, -, dim, hr, rfl⟩ := h
  obtain rfl : dim = (c.dimension d).detach k := (reparent_ok hr).2
  exact keepsCells_setDimension hc hc' (dimensionIndex_ok hd).1 rfl fun _ => rfl

theorem keepsCells_reparent_some (hc : c.WF) {child parent : String} {weight : Int}
    (h : c.reparentElement dimension child (some parent) weight = .ok c') :
    KeepsCells c c' ↔ ∀ d, c.dimensionIndex dimension = .ok d → c.Vacant d parent := by
  have hc' := hc.reparentElement h
  simp only [reparentElement, bind_eq_ok, Except.ok.injEq] at h
  obtain ⟨d, hd, k, -, i, hi, wasLeaf, hleaf, dim, hr, rfl⟩ := h
  obtain ⟨hold, -⟩ := dimensionIndex_ok hd
  have hname := ((hc.dimension hold).index parent i).1 (findElement_eq_ok.1 hi)
  obtain ⟨-, -, -, rfl⟩ := reparent_ok hr
  have hvacant : (∀ d', c.dimensionIndex dimension = .ok d' → c.Vacant d' parent) ↔
      c.Vacant d parent := by
    constructor
    · exact fun hall => hall d hd
    · intro hv d' hd'
      obtain rfl := Except.ok.inj (hd.symm.trans hd')
      exact hv
  have hlen : ∀ l, ({ ((c.dimension d).detach k).promote i with children := l } :
      Dimension).elements.length = (c.dimension d).elements.length := by
    simp [promote, detach]
  have hnames : ∀ l j, ({ ((c.dimension d).detach k).promote i with children := l } :
      Dimension).nameAt j = (c.dimension d).nameAt j :=
    fun _ => nameAt_modify fun _ => rfl
  rw [hvacant]
  cases wasLeaf with
  | true => exact keepsCells_dropCells hc hc' hold (hlen _) (hnames _) hname
  | false =>
    obtain ⟨kind, hk, hcons⟩ := isLeafAt_eq_ok.1 hleaf
    rw [not_isLeaf] at hcons
    rw [hcons] at hk
    exact iff_of_true (keepsCells_setDimension hc hc' hold (hlen _) (hnames _))
      (vacant_of_consolidated hc hold hname hk)

/-- **Edits that are not refused.** An accepted edit of a body that does not
count as touching data keeps every cell, exactly if no member that becomes a
parent holds any. -/
theorem keepsCells_edit_iff (hc : c.WF) {body : DimensionEditBody} {edit : DimensionEdit}
    (hbody : body.touchesElementData = false) (hedit : body.intoEdit = .ok edit)
    (h : c.editDimension dimension edit = .ok c') :
    KeepsCells c c' ↔ body.VacatesNothing c dimension := by
  cases body with
  | reorder newOrder =>
    obtain rfl := Except.ok.inj hedit
    exact iff_of_true
      (keepsCells_of_keptByName (keptByName_reorderElements hc h) fun _ => rfl) trivial
  | reparent child newParent weight =>
    obtain rfl := Except.ok.inj hedit
    cases newParent with
    | none => exact iff_of_true (keepsCells_reparent_none hc h) trivial
    | some parent => exact keepsCells_reparent_some hc h
  | addChild => cases hbody
  | removeChild parent child =>
    obtain rfl := Except.ok.inj hedit
    exact iff_of_true (keepsCells_removeChild hc h) trivial
  | setKind => cases hbody
  | delete => cases hbody
  | insert name kind position =>
    simp only [intoEdit, bind_eq_ok, Except.ok.injEq] at hedit
    obtain ⟨-, -, kind, -, rfl⟩ := hedit
    exact iff_of_true
      (keepsCells_of_keptByName (keptByName_insertElementAt hc h) fun _ => rfl) trivial
  | pinToTop element =>
    obtain rfl := Except.ok.inj hedit
    exact iff_of_true (keepsCells_setPin hc h) trivial
  | unpinFromTop element =>
    obtain rfl := Except.ok.inj hedit
    exact iff_of_true (keepsCells_setPin hc h) trivial

/-- A sale and a note in the south. -/
def soldSouthCalls : List CubeOp :=
  [.setLeaf [1, 0] ((Fixed.tryFrom 10000).getD Fixed.zero), .setString [1, 1] "late"]

/-- The south becomes a region of the north, where nothing is stored. -/
theorem keepsCells_edit_soldSouth : ∃ start c c' : Cube, build "Sales" salesDefs = .ok start ∧
    soldSouthCalls.foldl Cube.apply start = c ∧
    c.editDimension "Region" (.reparent "South" (some "North") 1) = .ok c' ∧
    c'.namedNumbers.map Prod.fst = [["South", "Amount"]] ∧
    c'.namedTexts = [(["South", "Note"], "late")] ∧ KeepsCells c c' := by
  obtain ⟨start, hstart, h⟩ := exists_ok_of_any (x := build "Sales" salesDefs)
    (p := fun start =>
      let c := soldSouthCalls.foldl Cube.apply start
      ((c.dimensionIndex "Region").toOption = some 0 ∧
        (∀ e ∈ c.namedNumbers, e.1[0]? ≠ some "North") ∧
        ∀ e ∈ c.namedTexts, e.1[0]? ≠ some "North") ∧
      (c.editDimension "Region" (.reparent "South" (some "North") 1)).toOption.any fun c' =>
        c'.namedNumbers.map Prod.fst = [["South", "Amount"]] ∧
          c'.namedTexts = [(["South", "Note"], "late")])
    (by decide +kernel)
  obtain ⟨⟨hindex, hnumbers, htexts⟩, h⟩ := of_decide_eq_true h
  obtain ⟨c', hc', h⟩ := exists_ok_of_any h
  obtain ⟨hkeptNumbers, hkeptTexts⟩ := of_decide_eq_true h
  have hvacates : (DimensionEditBody.reparent "South" (some "North") 1).VacatesNothing
      (soldSouthCalls.foldl Cube.apply start) "Region" := by
    intro d hd
    rw [hd] at hindex
    obtain rfl : d = 0 := Option.some.inj hindex
    exact ⟨hnumbers, htexts⟩
  exact ⟨start, _, c', hstart, rfl, hc', hkeptNumbers, hkeptTexts,
    (keepsCells_edit_iff ((WF.build hstart).calls soldSouthCalls) rfl rfl hc').2 hvacates⟩

/-- A cube with a sale in the north. -/
def soldNorth : Except ModelError Cube := do
  let c ← build "Sales" salesDefs
  c.setLeaf [0, 0] ((Fixed.tryFrom 10000).getD Fixed.zero)

theorem wf_soldNorth (h : soldNorth = .ok c) : c.WF := by
  simp only [soldNorth, bind_eq_ok] at h
  obtain ⟨c₀, hbuild, hset⟩ := h
  exact (WF.build hbuild).setLeaf hset

/-- The north becomes a region of the south's, and its sale is gone. -/
theorem lost_reparent_soldNorth : ∃ c c', soldNorth = .ok c ∧ c.WF ∧
    (DimensionEditBody.reparent "South" (some "North") 1).touchesElementData = false ∧
    (DimensionEditBody.reparent "South" (some "North") 1).intoEdit =
      .ok (.reparent "South" (some "North") 1) ∧
    c.editDimension "Region" (.reparent "South" (some "North") 1) = .ok c' ∧
    ¬ KeepsCells c c' := by
  obtain ⟨c, hc, h⟩ := exists_ok_of_any (by decide +kernel : soldNorth.toOption.any (fun c =>
    (c.editDimension "Region" (.reparent "South" (some "North") 1)).toOption.any (fun c' =>
      c.namedNumbers.length = 1 ∧ c'.namedNumbers.length = 0)) = true)
  obtain ⟨c', hc', h⟩ := exists_ok_of_any h
  obtain ⟨hone, hnone⟩ := of_decide_eq_true h
  refine ⟨c, c', hc, wf_soldNorth hc, rfl, rfl, hc', fun hkeep => ?_⟩
  have hsub := hkeep.numbers
  rw [List.length_eq_zero_iff.1 hnone, List.subset_nil] at hsub
  simp [hsub] at hone

end Cube

end Epiphany
