import Epiphany.Core.Attributes
/-!
# Dimensions — edits that renumber the elements

Reordering, deleting and inserting move elements to new positions and
return the map from old index to new. `Renumbers` says what such an edit
does to every table at once: kept elements keep their row, their edges and
their attribute values, and whatever stands at another position is fresh.
An edit of that shape keeps the invariant (`Renumbers.wf`), and the three
edits have it.
-/

namespace Epiphany

namespace Dimension

open Relation

variable {d d' : Dimension} {toNew : Renumbering}

/-- The new position of an old index; `none` when the element is gone. -/
def moved (toNew : Renumbering) (i : Nat) : Option Nat := toNew[i]?.join

theorem moved_eq_some {i j : Nat} : moved toNew i = some j ↔ toNew[i]? = some (some j) := by
  simp [moved, Option.join_eq_some_iff]

/-- An edge whose child is kept, at the child's new position. -/
def moveEdge (toNew : Renumbering) (e : Edge) : Option Edge :=
  (moved toNew e.child).map fun c => ⟨c, e.weight⟩

/-- An element holds a text as an alias. -/
def HoldsAlias (d : Dimension) (el : Nat) (text : String) : Prop :=
  ∃ i, d.attributeKind i = some .alias ∧ (d.valuesOf el)[i]? = some (.text text)

/-- **What a renumbering edit does.** -/
structure Renumbers (d d' : Dimension) (toNew : Renumbering) : Prop where
  name : d'.name = d.name
  attributes : d'.attributes = d.attributes
  attr_index : d'.attrIndexByName = d.attrIndexByName
  children_length : d'.children.length = d'.elements.length
  values_length : d'.attrValues.length = d'.elements.length
  length : toNew.length = d.elements.length
  /-- Two elements do not move to one position. -/
  inj : ∀ i i' j, moved toNew i = some j → moved toNew i' = some j → i = i'
  /-- A kept element keeps its row. -/
  elements : ∀ i j, moved toNew i = some j → d'.elements[j]? = d.elements[i]?
  /-- A kept element keeps the edges to kept children, in order. -/
  edges : ∀ i j, moved toNew i = some j →
    d'.edgesOf j = (d.edgesOf i).filterMap (moveEdge toNew)
  /-- A kept element keeps its attribute values. -/
  values : ∀ i j, moved toNew i = some j → d'.valuesOf j = d.valuesOf i
  /-- Any other position is fresh. -/
  fresh : ∀ j, (∃ i, moved toNew i = some j) ∨ (d'.edgesOf j = [] ∧ d'.valuesOf j = ∅)
  /-- A name of before that still stands moved there. -/
  tracked : ∀ i j n, d.nameAt i = some n → d'.nameAt j = some n → moved toNew i = some j
  /-- Names stay distinct. -/
  names : ∀ i j n, d'.nameAt i = some n → d'.nameAt j = some n → i = j

namespace Renumbers

theorem lt (h : Renumbers d d' toNew) {i j : Nat} (hi : i < d.elements.length)
    (hm : moved toNew i = some j) : j < d'.elements.length := by
  have := h.elements i j hm
  rw [List.getElem?_eq_getElem hi] at this
  exact (List.getElem?_eq_some_iff.1 this).1

/-- An edge after the edit was an edge before it, between the same
elements. -/
theorem isChild (h : Renumbers d d' toNew) {p c : Nat} (hpc : d'.IsChild p c) :
    ∃ i k, moved toNew i = some p ∧ moved toNew k = some c ∧ d.IsChild i k := by
  obtain ⟨e, he, rfl⟩ := hpc
  rcases h.fresh p with ⟨i, hi⟩ | ⟨hnil, -⟩
  · rw [h.edges i p hi, List.mem_filterMap] at he
    obtain ⟨x, hx, hxe⟩ := he
    obtain ⟨c, hc, rfl⟩ := Option.map_eq_some_iff.1 hxe
    exact ⟨i, x.child, hi, hc, x, hx, rfl⟩
  · simp [hnil] at he

/-- An alias after the edit was an alias before it, of the same element. -/
theorem holdsAlias (h : Renumbers d d' toNew) {el : Nat} {text : String}
    (ht : d'.HoldsAlias el text) : ∃ i, moved toNew i = some el ∧ d.HoldsAlias i text := by
  obtain ⟨a, ha, hv⟩ := ht
  rcases h.fresh el with ⟨i, hi⟩ | ⟨-, hnone⟩
  · rw [h.values i el hi] at hv
    rw [attributeKind, h.attributes] at ha
    exact ⟨i, hi, a, ha, hv⟩
  · simp [hnone] at hv

theorem acyclic (h : Renumbers d d' toNew) (hd : Acyclic d.IsChild) : Acyclic d'.IsChild := by
  classical
  -- read a new position back as the old index it came from
  let back : Nat → Nat := fun p => if h : ∃ i, moved toNew i = some p then h.choose else 0
  have hback : ∀ {i p}, moved toNew i = some p → back p = i := by
    intro i p hp
    have hex : ∃ i, moved toNew i = some p := ⟨i, hp⟩
    simp only [back, dif_pos hex]
    exact h.inj _ _ p hex.choose_spec hp
  refine hd.of_map back fun p c hpc => ?_
  obtain ⟨i, k, hi, hk, hik⟩ := h.isChild hpc
  rwa [hback hi, hback hk]

end Renumbers

/-! ## Rebuilding the indexes -/

theorem mem_aliasesOf {attributes : List AttributeDef} {values : FinMap Nat AttributeValue}
    {text : String} :
    text ∈ aliasesOf attributes values ↔
      ∃ i : Nat, attributes[i]?.map AttributeDef.kind = some .alias ∧
        values[i]? = some (AttributeValue.text text) := by
  simp only [aliasesOf, List.mem_filterMap]
  constructor
  · rintro ⟨⟨i, v⟩, hmem, h⟩
    rw [FinMap.mem_toList] at hmem
    rcases hk : attributes[i]?.map AttributeDef.kind with _ | k
    · simp [hk] at h
    · rcases k with _ | _ | _ <;> rcases v with t | n <;> simp [hk] at h
      exact ⟨i, hk, h ▸ hmem⟩
  · rintro ⟨i, hk, hv⟩
    exact ⟨(i, .text text), FinMap.mem_toList.2 hv, by simp [hk]⟩

theorem get_reindexNames_index (hnames : ∀ i j n, d.nameAt i = some n → d.nameAt j = some n → i = j)
    (n : String) (i : Nat) :
    (reindexNames d).indexByName[n]? = some i ↔ d.nameAt i = some n := by
  have hmem : ∀ n i, (n, i) ∈ d.elements.zipIdx.map (fun e => (e.1.name, e.2)) ↔
      d.nameAt i = some n := by
    intro n i
    simp only [List.mem_map, Prod.mk.injEq, nameAt_eq_some, Prod.exists]
    constructor
    · rintro ⟨e, j, he, rfl, rfl⟩
      exact ⟨e, List.mem_zipIdx_iff_getElem?.1 he, rfl⟩
    · rintro ⟨e, he, rfl⟩
      exact ⟨e, i, List.mem_zipIdx_iff_getElem?.2 he, rfl, rfl⟩
  rw [reindexNames, FinMap.get_collect, hmem]
  intro n i j hi hj
  exact hnames i j n ((hmem n i).1 hi) ((hmem n j).1 hj)

theorem get_reindexNames_alias
    (haliases : ∀ i j t, d.HoldsAlias i t → d.HoldsAlias j t → i = j) (t : String) (i : Nat) :
    (reindexNames d).aliasToElement[t]? = some i ↔ d.HoldsAlias i t := by
  have hmem : ∀ t i, (t, i) ∈ d.attrValues.zipIdx.flatMap (fun v =>
      (aliasesOf d.attributes v.1).map fun text => (text, v.2)) ↔ d.HoldsAlias i t := by
    intro t i
    simp only [List.mem_flatMap, List.mem_map, Prod.mk.injEq, Prod.exists]
    constructor
    · rintro ⟨values, j, hv, text, htext, rfl, rfl⟩
      rw [List.mem_zipIdx_iff_getElem?] at hv
      obtain ⟨a, ha, hva⟩ := mem_aliasesOf.1 htext
      exact ⟨a, ha, by rwa [valuesOf_eq hv]⟩
    · rintro ⟨a, ha, hva⟩
      rcases hv : d.attrValues[i]? with _ | values
      · rw [valuesOf_of_le (List.getElem?_eq_none_iff.1 hv)] at hva
        simp at hva
      · rw [valuesOf_eq hv] at hva
        exact ⟨values, i, List.mem_zipIdx_iff_getElem?.2 hv, t,
          mem_aliasesOf.2 ⟨a, ha, hva⟩, rfl, rfl⟩
  rw [reindexNames, FinMap.get_collect, hmem]
  intro t i j hi hj
  exact haliases i j t ((hmem t i).1 hi) ((hmem t j).1 hj)

/-- **A renumbering edit keeps the invariant**, once the indexes are
rebuilt. -/
theorem Renumbers.wf (h : Renumbers d d' toNew) (hd : d.WF) : (reindexNames d').WF where
  children_length := h.children_length
  values_length := h.values_length
  index := fun n i => get_reindexNames_index h.names n i
  edges_lt := by
    intro p e he
    obtain ⟨i, k, -, hk, x, hx, rfl⟩ := h.isChild ⟨e, he, rfl⟩
    exact h.lt (hd.edges_lt i x hx) hk
  parents := by
    intro p hne
    rcases h.fresh p with ⟨i, hi⟩ | ⟨hnil, -⟩
    · have hold : d.edgesOf i ≠ [] := by
        intro hnil
        refine hne ?_
        have := h.edges i p hi
        rw [hnil] at this
        exact this
      have := hd.parents i hold
      rw [kindAt] at this ⊢
      rw [← this, ← h.elements i p hi]
      rfl
    · exact absurd hnil hne
  acyclic := h.acyclic hd.acyclic
  attr_index := by
    intro n i
    have := hd.attr_index n i
    rw [← h.attributes, ← h.attr_index] at this
    exact this
  values := by
    intro el i v hv
    have hv' : (d'.valuesOf el)[i]? = some v := hv
    rcases h.fresh el with ⟨j, hj⟩ | ⟨-, hnone⟩
    · rw [h.values j el hj] at hv'
      obtain ⟨k, hk, hok⟩ := hd.values j i v hv'
      refine ⟨k, ?_, hok⟩
      rw [attributeKind, ← h.attributes] at hk
      exact hk
    · simp [hnone] at hv'
  aliases := by
    intro t el
    refine (get_reindexNames_alias (fun i j t hi hj => ?_) t el).trans Iff.rfl
    obtain ⟨i', hi', hit⟩ := h.holdsAlias hi
    obtain ⟨j', hj', hjt⟩ := h.holdsAlias hj
    have heq : i' = j' := Option.some.inj
      (((hd.aliases t i').2 hit).symm.trans ((hd.aliases t j').2 hjt))
    subst heq
    exact Option.some.inj (hi'.symm.trans hj')

end Dimension

end Epiphany
