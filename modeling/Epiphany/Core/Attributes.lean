import Epiphany.Core.Growth
/-!
# Dimensions — attributes and aliases keep the invariant

An alias is a text value that also resolves to its element, through a
reverse index kept beside the values. Setting one drops the text it
replaces from the index, unless another alias attribute of the element
still holds that text, so the index stays exactly what the values say.
-/

namespace Epiphany

namespace Dimension

variable {d d' : Dimension}

theorem WF.addAttribute (hd : d.WF) (name : String) (kind : AttributeKind) :
    (d.addAttribute name kind).WF := by
  rcases h : d.attrIndexByName[name]? with _ | i
  · simp only [Dimension.addAttribute, h]
    have hkind : ∀ {i k}, d.attributeKind i = some k →
        (d.attributes ++ [⟨name, kind⟩])[i]?.map AttributeDef.kind = some k := by
      intro i k hk
      obtain ⟨a, ha, rfl⟩ := Option.map_eq_some_iff.1 hk
      rw [List.getElem?_append_left (List.getElem?_eq_some_iff.1 ha).1, ha]
      rfl
    refine
      { hd with
        attr_index := fun n i => ?_
        values := fun el i v hv => ?_
        aliases := fun text el => ?_ }
    · rw [FinMap.get_insert, getElem?_snoc]
      by_cases hn : name = n
      · subst hn
        rw [if_pos rfl]
        split_ifs with hi
        · simp [hi]
        · rw [Option.some.injEq]
          refine ⟨fun h => absurd h.symm hi, fun hname => ?_⟩
          exact absurd ((hd.attr_index name i).2 hname) (by simp [h])
      · rw [if_neg hn, hd.attr_index]
        split_ifs with hi
        · subst hi
          simp [hn]
        · rfl
    · obtain ⟨k, hk, hok⟩ := hd.values el i v hv
      exact ⟨k, hkind hk, hok⟩
    · refine (hd.aliases text el).trans (exists_congr fun i => and_congr_left fun hv => ?_)
      obtain ⟨k, hk, -⟩ := hd.values el i _ hv
      refine ⟨fun h => hkind h, fun h => ?_⟩
      rw [hk]
      exact (hkind hk).symm.trans h
  · simp only [Dimension.addAttribute, h]
    exact hd

/-! ## Setting a value -/

theorem setAttribute_ok {element : Nat} {attr : String} {value : AttributeValue}
    (h : d.setAttribute element attr value = .ok d') :
    element < d.elements.length ∧ ∃ attrIndex kind aliases,
      d.attributeIndex attr = some attrIndex ∧ d.attributeKind attrIndex = some kind ∧
      typeOk kind value = true ∧ d.aliasesAfter element attrIndex kind value = .ok aliases ∧
      d' = { d with
        aliasToElement := aliases
        attrValues := d.attrValues.modify element (·.insert attrIndex value) } := by
  simp only [setAttribute, bind_eq_ok, element_eq_ok, okOr_eq_ok, ite_error_eq_ok,
    Bool.not_eq_false] at h
  obtain ⟨el, hel, attrIndex, hi, kind, hk, hok, aliases, ha, h⟩ := h
  exact ⟨(List.getElem?_eq_some_iff.1 hel).1, attrIndex, kind, aliases, hi, hk, hok, ha,
    (Except.ok.inj h).symm⟩

/-- The values of an element after one is set. -/
theorem valuesOf_modify (hd : d.WF) {element : Nat} (hel : element < d.elements.length)
    (attrIndex : Nat) (value : AttributeValue) (el : Nat) :
    ({ d with attrValues := d.attrValues.modify element (·.insert attrIndex value) } :
      Dimension).valuesOf el =
      if element = el then (d.valuesOf el).insert attrIndex value else d.valuesOf el := by
  simp only [valuesOf, List.getD, List.getElem?_modify]
  by_cases h : element = el
  · subst h
    rw [List.getElem?_eq_getElem (hd.values_length ▸ hel)]
    simp
  · simp [h]

/-- What claiming an alias leaves in the index: the text at its element, no
text it released, and everything else as it was. -/
theorem claimAlias_ok {element attrIndex : Nat} {text : String} {aliases : FinMap String Nat}
    (h : d.claimAlias element attrIndex text = .ok aliases) :
    (∀ owner, d.aliasToElement[text]? = some owner → owner = element) ∧
      ∀ t, aliases[t]? =
        if t = text then some element
        else if (d.valuesOf element)[attrIndex]? = some (.text t) ∧
            d.aliasToElement[t]? = some element ∧ d.stillHeld element attrIndex t = false then none
        else d.aliasToElement[t]? := by
  simp only [claimAlias, ite_error_eq_ok, Except.ok.injEq] at h
  obtain ⟨howner, rfl⟩ := h
  refine ⟨fun owner ho => ?_, fun t => ?_⟩
  · by_contra hne
    exact howner (by simp [ho, hne])
  · rw [FinMap.get_insert]
    by_cases ht : t = text
    · rw [if_pos ht.symm, if_pos ht]
    · rw [if_neg (Ne.symm ht), if_neg ht]
      rcases hv : (d.valuesOf element)[attrIndex]? with _ | v
      · simp
      · rcases v with prev | n
        · simp only [Option.some.injEq, AttributeValue.text.injEq]
          by_cases hp : prev = t
          · subst hp
            simp only [ne_eq, ht, not_false_eq_true, true_and]
            split_ifs
            · rw [FinMap.get_erase, if_pos rfl]
            · rfl
          · simp only [hp, false_and, if_false]
            split_ifs
            · rw [FinMap.get_erase, if_neg hp]
            · rfl
        · simp

theorem stillHeld_eq_true {element attrIndex : Nat} {prev : String} :
    d.stillHeld element attrIndex prev = true ↔
      ∃ i, i ≠ attrIndex ∧ d.attributeKind i = some .alias ∧
        (d.valuesOf element)[i]? = some (.text prev) := by
  rw [stillHeld, List.any_eq_true]
  constructor
  · rintro ⟨⟨i, v⟩, hmem, h⟩
    rw [FinMap.mem_toList] at hmem
    simp only [ne_eq, decide_eq_true_eq] at h
    obtain ⟨hi, hk, rfl⟩ := h
    exact ⟨i, hi, hk, hmem⟩
  · rintro ⟨i, hi, hk, hv⟩
    exact ⟨(i, .text prev), FinMap.mem_toList.2 hv, by simp [hi, hk]⟩

/-- The reverse index after an alias value is set is what the values say. -/
theorem WF.claimAlias (hd : d.WF) {element attrIndex : Nat} {text : String}
    {aliases : FinMap String Nat} (hk : d.attributeKind attrIndex = some .alias)
    (h : d.claimAlias element attrIndex text = .ok aliases) (t : String) (el : Nat) :
    aliases[t]? = some el ↔ ∃ i, d.attributeKind i = some .alias ∧
      (if element = el then (d.valuesOf el).insert attrIndex (.text text)
        else d.valuesOf el)[i]? = some (.text t) := by
  obtain ⟨howner, hget⟩ := claimAlias_ok h
  rw [hget]
  by_cases ht : t = text
  · subst ht
    rw [if_pos rfl, Option.some.injEq]
    constructor
    · rintro rfl
      exact ⟨attrIndex, hk, by simp⟩
    · rintro ⟨i, hi, hv⟩
      by_contra hne
      rw [if_neg hne] at hv
      exact hne (howner el ((hd.aliases t el).2 ⟨i, hi, hv⟩)).symm
  · rw [if_neg ht]
    by_cases hel : element = el
    · subst hel
      simp only [if_pos, FinMap.get_insert]
      -- the text survives exactly when another alias of the element holds it
      have hother : (∃ i, d.attributeKind i = some .alias ∧
          (if attrIndex = i then some (AttributeValue.text text)
            else (d.valuesOf element)[i]?) = some (.text t)) ↔
          d.stillHeld element attrIndex t = true := by
        rw [stillHeld_eq_true]
        refine exists_congr fun i => ?_
        by_cases hi : attrIndex = i
        · simp [hi, Ne.symm ht]
        · simp [hi, Ne.symm hi]
      rw [hother]
      split_ifs with hrel
      · simp [hrel.2.2]
      · rw [hd.aliases, stillHeld_eq_true]
        constructor
        · rintro ⟨i, hi, hv⟩
          by_cases hia : i = attrIndex
          · subst hia
            have halias := (hd.aliases t element).2 ⟨i, hi, hv⟩
            have hheld : d.stillHeld element i t = true := by
              by_contra hnot
              exact hrel ⟨hv, halias, by simpa using hnot⟩
            exact stillHeld_eq_true.1 hheld
          · exact ⟨i, hia, hi, hv⟩
        · rintro ⟨i, -, hi, hv⟩
          exact ⟨i, hi, hv⟩
    · simp only [if_neg hel]
      rw [← hd.aliases]
      split_ifs with hrel
      · simp [hrel.2.1, hel]
      · rfl

theorem WF.setAttribute (hd : d.WF) {element : Nat} {attr : String} {value : AttributeValue}
    (h : d.setAttribute element attr value = .ok d') : d'.WF := by
  obtain ⟨hel, attrIndex, kind, aliases, hi, hk, hok, ha, rfl⟩ := setAttribute_ok h
  have hval := valuesOf_modify hd hel attrIndex value
  refine
    { hd with
      values_length := by simp [hd.values_length]
      values := fun el i v hv => ?_
      aliases := fun t el => ?_ }
  · have hv' := hv
    change (({ d with attrValues := _ } : Dimension).valuesOf el)[i]? = some v at hv'
    rw [hval] at hv'
    split_ifs at hv' with hel'
    · rw [FinMap.get_insert] at hv'
      split_ifs at hv' with hia
      · cases hv'
        exact ⟨kind, hia ▸ hk, hok⟩
      · exact hd.values el i v hv'
    · exact hd.values el i v hv'
  · change aliases[t]? = some el ↔ ∃ i, d.attributeKind i = some .alias ∧
      (({ d with attrValues := _ } : Dimension).valuesOf el)[i]? = some (.text t)
    rw [hval]
    by_cases halias : kind = .alias
    · subst halias
      rcases value with text | n
      · exact hd.claimAlias hk ha t el
      · simp [typeOk] at hok
    -- a value of another kind is not an alias, so no alias moved
    · have haliases : aliases = d.aliasToElement := by
        rcases kind with _ | _ | _ <;> simp_all [aliasesAfter]
      rw [haliases, hd.aliases]
      refine exists_congr fun i => and_congr_right fun hi' => ?_
      have hne : attrIndex ≠ i := fun h => halias (Option.some.inj (hk.symm.trans (h ▸ hi')))
      split_ifs
      · rw [FinMap.get_insert_of_ne hne]
      · rfl

end Dimension

end Epiphany
