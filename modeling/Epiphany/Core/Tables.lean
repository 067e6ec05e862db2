import Epiphany.Core.StructuralEdits
/-!
# Tables — a dimension is what its tables say

A well-formed dimension is decided by its tables (`WF.eq_of_tables`), so a
dimension that is written out row by row and read back is the one it was
once every row is back in its place. What is read back row by row is a
filter of the rows laid end to end.
-/

namespace Epiphany

/-- Rows laid end to end, of which a filter keeps one. -/
theorem filterMap_rows {α β γ : Type} {n q : Nat} {rows : Nat → List α} {mk : Nat → α → β}
    {f : β → Option γ} {g : α → γ}
    (h : ∀ p < n, ∀ x ∈ rows p, f (mk p x) = if p = q then some (g x) else none) :
    ((List.range n).flatMap fun p => (rows p).map (mk p)).filterMap f =
      if q < n then (rows q).map g else [] := by
  induction n with
  | zero => rfl
  | succ n ih =>
    have hrow : ((rows n).map (mk n)).filterMap f = if n = q then (rows n).map g else [] := by
      rw [List.filterMap_map]
      by_cases hq : n = q
      · rw [if_pos hq, ← List.filterMap_eq_map]
        exact List.filterMap_congr fun x hx => by
          simpa [hq] using h n (Nat.lt_succ_self n) x hx
      · rw [if_neg hq, List.filterMap_eq_nil_iff]
        exact fun x hx => by simpa [hq] using h n (Nat.lt_succ_self n) x hx
    rw [List.range_succ, List.flatMap_append, List.filterMap_append,
      ih fun p hp => h p (hp.trans (Nat.lt_succ_self n))]
    simp only [List.flatMap_cons, List.flatMap_nil, List.append_nil, hrow]
    by_cases h1 : q < n
    · rw [if_pos h1, if_neg h1.ne', if_pos (h1.trans (Nat.lt_succ_self n)), List.append_nil]
    · by_cases h2 : n = q
      · subst h2
        rw [if_neg h1, if_pos rfl, if_pos (Nat.lt_succ_self n), List.nil_append]
      · rw [if_neg h1, if_neg h2, if_neg (by omega), List.append_nil]

namespace Dimension

variable {d d' : Dimension}

/-! ## Tables decide a dimension -/

theorem ext_getD {α : Type} {xs ys : List α} {dflt : α} (hlen : xs.length = ys.length)
    (h : ∀ i, xs.getD i dflt = ys.getD i dflt) : xs = ys := by
  refine List.ext_getElem hlen fun i hi hi' => ?_
  have := h i
  rwa [List.getD_eq_getElem _ _ hi, List.getD_eq_getElem _ _ hi'] at this

/-- **Two well-formed dimensions with the same tables are equal**: the
indexes beside the tables say what the tables say. -/
theorem WF.eq_of_tables (hd : d.WF) (hd' : d'.WF) (hname : d'.name = d.name)
    (helements : d'.elements = d.elements) (hedges : ∀ p, d'.edgesOf p = d.edgesOf p)
    (hattributes : d'.attributes = d.attributes) (hvalues : ∀ i, d'.valuesOf i = d.valuesOf i) :
    d' = d := by
  have hindex : d'.indexByName = d.indexByName := by
    refine FinMap.ext fun name => Option.ext fun i => ?_
    rw [hd.index, hd'.index, nameAt, nameAt, helements]
  have hattr : d'.attrIndexByName = d.attrIndexByName := by
    refine FinMap.ext fun name => Option.ext fun i => ?_
    rw [hd.attr_index, hd'.attr_index, hattributes]
  have halias : d'.aliasToElement = d.aliasToElement := by
    refine FinMap.ext fun text => Option.ext fun i => ?_
    rw [hd.aliases, hd'.aliases]
    simp only [attributeKind, hattributes, hvalues]
  have hchildren : d'.children = d.children := by
    refine ext_getD ?_ hedges
    rw [hd.children_length, hd'.children_length, helements]
  have hrows : d'.attrValues = d.attrValues := by
    refine ext_getD ?_ hvalues
    rw [hd.values_length, hd'.values_length, helements]
  cases d
  cases d'
  simp_all

theorem WF.nodup_names (hd : d.WF) : (d.elements.map Element.name).Nodup := by
  rw [List.nodup_iff_getElem?_ne_getElem?]
  intro i j hij hj heq
  rw [List.getElem?_map, List.getElem?_map] at heq
  obtain ⟨n, hn⟩ : ∃ n, d.nameAt j = some n := by
    rw [List.length_map] at hj
    exact ⟨_, by rw [nameAt, List.getElem?_eq_getElem hj]; rfl⟩
  exact hij.ne (hd.nameAt_inj (heq.trans hn) hn)

theorem WF.nodup_attributes (hd : d.WF) : (d.attributes.map AttributeDef.name).Nodup := by
  rw [List.nodup_iff_getElem?_ne_getElem?]
  intro i j hij hj heq
  rw [List.getElem?_map, List.getElem?_map] at heq
  rw [List.length_map] at hj
  have hn : (d.attributes[j]?).map AttributeDef.name = some (d.attributes[j]).name := by
    rw [List.getElem?_eq_getElem hj]
    rfl
  have h := ((hd.attr_index _ i).2 (heq.trans hn)).symm.trans ((hd.attr_index _ j).2 hn)
  exact hij.ne (Option.some.inj h)

theorem WF.indexOf_eq_none (hd : d.WF) {name : String} (h : name ∉ d.elements.map Element.name) :
    d.indexOf name = none := by
  rcases hi : d.indexOf name with _ | i
  · rfl
  · obtain ⟨e, he, rfl⟩ := nameAt_eq_some.1 ((hd.index name i).1 hi)
    exact absurd (List.mem_map_of_mem (List.mem_of_getElem? he)) h

/-- A dimension of the same elements finds the same names. -/
theorem indexOf_nameAt {b : Dimension} (hd : d.WF) (hb : b.WF) (hels : b.elements.map Element.name =
    d.elements.map Element.name) {p : Nat} (hp : p < d.elements.length) (q : Nat) :
    b.indexOf ((d.nameAt p).getD "") = some q ↔ p = q := by
  obtain ⟨n, hn⟩ := nameAt_isSome hp
  have hnames : ∀ i, b.nameAt i = d.nameAt i := by
    intro i
    have := congrArg (fun l => l[i]?) hels
    simpa [nameAt] using this
  rw [hn, Option.getD_some, indexOf_iff hb, hnames]
  exact ⟨fun h => hd.nameAt_inj hn h, fun h => h ▸ hn⟩

/-! ## Edges and attributes, one at a time -/

theorem edgesOf_addChild {parent child : Nat} {weight : Int} (hwf : d.WF)
    (h : d.addChild parent child weight = .ok d') (q : Nat) :
    d'.edgesOf q = if parent = q then d.edgesOf q ++ [⟨child, weight⟩] else d.edgesOf q := by
  obtain ⟨-, hp, -, rfl⟩ := addChild_ok h
  have hlt : parent < d.children.length := hwf.children_length ▸ lt_of_kindAt hp
  rw [edgesOf_modify]
  by_cases hq : parent = q
  · rw [if_pos ⟨hq, hq ▸ hlt⟩, if_pos hq]
  · rw [if_neg fun h => hq h.1, if_neg hq]

/-- New attributes of distinct names are appended in order. -/
theorem attributes_foldl {attrs : List (String × AttributeKind)}
    (hwf : d.WF) (hfresh : (d.attributes.map AttributeDef.name ++ attrs.map Prod.fst).Nodup) :
    (attrs.foldl (fun d a => d.addAttribute a.1 a.2) d).attributes =
      d.attributes ++ attrs.map fun a => ⟨a.1, a.2⟩ := by
  induction attrs generalizing d with
  | nil => simp
  | cons a attrs ih =>
    have hnew : a.1 ∉ d.attributes.map AttributeDef.name := fun hmem =>
      (List.nodup_append.1 hfresh).2.2 _ hmem _ List.mem_cons_self rfl
    have hnone : d.attrIndexByName[a.1]? = none := by
      rcases hi : d.attrIndexByName[a.1]? with _ | k
      · rfl
      · obtain ⟨x, hx, hname⟩ := Option.map_eq_some_iff.1 ((hwf.attr_index _ k).1 hi)
        exact absurd (hname ▸ List.mem_map_of_mem (List.mem_of_getElem? hx)) hnew
    have hattrs : (d.addAttribute a.1 a.2).attributes = d.attributes ++ [⟨a.1, a.2⟩] := by
      simp [addAttribute, hnone]
    rw [List.foldl_cons, ih (hwf.addAttribute _ _), hattrs, List.append_assoc]
    · rfl
    · rw [hattrs]
      simpa [List.append_assoc] using hfresh

/-- Attributes leave everything but themselves. -/
theorem frame_foldl (attrs : List (String × AttributeKind)) (hwf : d.WF) :
    (attrs.foldl (fun d a => d.addAttribute a.1 a.2) d).WF ∧
      ∃ attributes index, attrs.foldl (fun d a => d.addAttribute a.1 a.2) d =
        { d with attributes := attributes, attrIndexByName := index } := by
  induction attrs generalizing d with
  | nil => exact ⟨hwf, d.attributes, d.attrIndexByName, rfl⟩
  | cons a attrs ih =>
    obtain ⟨h, attributes, index, heq⟩ := ih (hwf.addAttribute a.1 a.2)
    refine ⟨h, attributes, index, heq.trans ?_⟩
    rcases hi : d.attrIndexByName[a.1]? with _ | k <;> simp [addAttribute, hi]

end Dimension

end Epiphany
