import Epiphany.Core.CubeGrowth
/-!
# Cubes — every call keeps the invariant

One lemma per mutator, each read off the mutator's own steps, and from them
the run lemma: a cube built from definitions is well formed after any
sequence of calls, accepted or refused (`wf_of_calls`).
-/

namespace Epiphany

namespace Cube

open CellStore

variable {c c' : Cube}

/-! ## Cell writes -/

theorem mem_zip_iff {dims : List Dimension} {coord : Coord} {x : Nat × Dimension} :
    x ∈ coord.zip dims ↔ ∃ d : Nat, coord[d]? = some x.1 ∧ dims[d]? = some x.2 := by
  rw [List.mem_iff_getElem?]
  exact exists_congr fun d => List.getElem?_zip_eq_some

theorem forall₂_iff_zip {R : Nat → Dimension → Prop} {dims : List Dimension} {coord : Coord} :
    List.Forall₂ R coord dims ↔
      coord.length = dims.length ∧ ∀ x ∈ coord.zip dims, R x.1 x.2 := by
  rw [List.forall₂_iff_zip]
  exact and_congr_right fun _ => ⟨fun h x hx => h hx, fun h _ _ hx => h _ hx⟩

theorem element_isOk {dim : Dimension} {i : Nat} :
    (do let _ ← dim.element i; (Except.ok () : Except ModelError Unit)) = .ok () ↔
      i < dim.elements.length := by
  simp only [bind_eq_ok, Dimension.element_eq_ok, and_true]
  constructor
  · rintro ⟨_, h⟩
    exact (List.getElem?_eq_some_iff.1 h).1
  · exact fun h => ⟨_, List.getElem?_eq_getElem h⟩

/-- A coordinate passes its check when it lies within the dimensions. -/
theorem checkCoord_eq_ok {coord : Coord} {u : Unit} :
    c.checkCoord coord = .ok u ↔ InRange c.dimensions coord := by
  rw [checkCoord, ite_error_eq_ok, InRange, forall₂_iff_zip, rank, ne_eq, Decidable.not_not]
  refine and_congr_right fun _ => forM_eq_ok.trans ?_
  exact forall₂_congr fun x _ => element_isOk

theorem checkLeafComponent_eq_ok {dim : Dimension} {i : Nat} :
    checkLeafComponent dim i = .ok () ↔ dim.kindAt i = some .leaf := by
  simp only [checkLeafComponent, bind_eq_ok, Dimension.element_eq_ok, Dimension.kindAt_eq_some]
  refine exists_congr fun el => and_congr_right fun _ => ?_
  rcases el.kind with _ | _ | _ <;> simp

theorem checkLeafWrite_eq_ok {coord : Coord} {u : Unit} :
    c.checkLeafWrite coord = .ok u ↔ NumericCoord c.dimensions coord := by
  simp only [checkLeafWrite, bind_eq_ok, checkCoord_eq_ok]
  constructor
  · rintro ⟨-, hin, h⟩
    refine forall₂_iff_zip.2 ⟨hin.length_eq, fun x hx => ?_⟩
    exact checkLeafComponent_eq_ok.1 (forM_eq_ok.1 h x hx)
  · intro h
    refine ⟨⟨⟩, h.inRange, forM_eq_ok.2 fun x hx => ?_⟩
    exact checkLeafComponent_eq_ok.2 ((forall₂_iff_zip.1 h).2 x hx)

theorem checkStringComponent_eq_ok {dim : Dimension} {i : Nat} {b : Bool} :
    checkStringComponent dim i = .ok b ↔
      dim.kindAt i = some (if b then .string else .leaf) := by
  simp only [checkStringComponent, bind_eq_ok, Dimension.element_eq_ok, Dimension.kindAt_eq_some]
  refine exists_congr fun el => and_congr_right fun _ => ?_
  rcases el.kind with _ | _ | _ <;> cases b <;> simp

theorem checkStringWrite_eq_ok {coord : Coord} {u : Unit} :
    c.checkStringWrite coord = .ok u ↔ StringCoord c.dimensions coord := by
  simp only [checkStringWrite, bind_eq_ok, checkCoord_eq_ok, mapM_eq_ok]
  constructor
  · rintro ⟨-, hin, flags, hflags, h⟩
    obtain ⟨hlen, hget⟩ := forall₂_iff_getElem?.1 hflags
    refine ⟨forall₂_iff_zip.2 ⟨hin.length_eq, fun x hx => ?_⟩, ?_⟩
    · obtain ⟨k, hk⟩ := List.mem_iff_getElem?.1 hx
      have hlt := hlen ▸ (List.getElem?_eq_some_iff.1 hk).1
      have := checkStringComponent_eq_ok.1 (hget k x _ hk (List.getElem?_eq_getElem hlt))
      rw [this]
      cases flags[k] <;> simp
    · split_ifs at h with htrue
      obtain ⟨k, hk⟩ := List.mem_iff_getElem?.1 htrue
      have hlt := hlen ▸ (List.getElem?_eq_some_iff.1 hk).1
      have hx := List.getElem?_eq_getElem hlt
      have := checkStringComponent_eq_ok.1 (hget k _ true hx hk)
      obtain ⟨hi, hd⟩ := List.getElem?_zip_eq_some.1 hx
      exact ⟨k, _, _, hi, hd, this⟩
  · intro h
    refine ⟨⟨⟩, h.inRange,
      (coord.zip c.dimensions).map fun x => decide (x.2.kindAt x.1 = some .string), ?_, ?_⟩
    · rw [List.forall₂_map_right_iff]
      refine List.forall₂_same.2 fun x hx => checkStringComponent_eq_ok.2 ?_
      rcases (forall₂_iff_zip.1 h.leaves).2 x hx with hk | hk <;> simp [hk]
    · obtain ⟨d, i, dim, hi, hd, hk⟩ := h.string
      have hmem : (i, dim) ∈ coord.zip c.dimensions := mem_zip_iff.2 ⟨d, hi, hd⟩
      rw [if_pos (List.mem_map.2 ⟨(i, dim), hmem, by simp [hk]⟩)]

theorem WF.setLeaf (hc : c.WF) {coord : Coord} {v : Fixed} (h : c.setLeaf coord v = .ok c') :
    c'.WF := by
  simp only [Cube.setLeaf, bind_eq_ok, checkLeafWrite_eq_ok, Except.ok.injEq] at h
  obtain ⟨-, hnum, rfl⟩ := h
  have hin := hnum.inRange
  refine { hc with cells := ?_, numeric := ?_ }
  · simp only [hc.layout]
    split_ifs
    · exact hc.cells.clear coord
    · exact hc.cells.put hin v
  · intro a w ha hw
    simp only [hc.layout] at hw
    split_ifs at hw with hz
    · rw [get_clear hin ha] at hw
      split_ifs at hw
      exact hc.numeric a w ha (by rw [hc.layout]; exact hw)
    · rw [get_put hin ha] at hw
      split_ifs at hw with heq
      · cases hw
        exact ⟨by simpa using hz, heq ▸ hnum⟩
      · exact hc.numeric a w ha (by rw [hc.layout]; exact hw)

theorem WF.setString (hc : c.WF) {coord : Coord} {s : String} (h : c.setString coord s = .ok c') :
    c'.WF := by
  simp only [Cube.setString, bind_eq_ok, checkStringWrite_eq_ok] at h
  obtain ⟨-, hstr, h⟩ := h
  have hin := hstr.inRange
  split_ifs at h with hs
  · cases h
    refine { hc with strings := ?_, text := ?_ }
    · simp only [hc.layout]
      exact hc.strings.clear coord
    · intro a id ha hid
      simp only [hc.layout] at hid
      rw [get_clear hin ha] at hid
      split_ifs at hid
      exact hc.text a id ha (by rw [hc.layout]; exact hid)
  · cases h
    obtain ⟨hwf, hself, hkeep⟩ := StringPool.intern_spec hc.pool s
    refine { hc with strings := ?_, pool := hwf, text := ?_ }
    · simp only [hc.layout]
      exact hc.strings.put hin _
    · intro a id ha hid
      simp only [hc.layout] at hid
      rw [get_put hin ha] at hid
      split_ifs at hid with heq
      · cases hid
        exact ⟨heq ▸ hstr, s, hself, hs⟩
      · obtain ⟨hstr', t, ht, hne⟩ := hc.text a id ha (by rw [hc.layout]; exact hid)
        exact ⟨hstr', t, hkeep id t ht, hne⟩

/-! ## Attributes and pins -/

theorem WF.defineAttribute (hc : c.WF) {dimension name : String} {kind : AttributeKind}
    (h : c.defineAttribute dimension name kind = .ok c') : c'.WF := by
  simp only [Cube.defineAttribute, bind_eq_ok] at h
  obtain ⟨d, hd, h⟩ := h
  obtain ⟨hold, -⟩ := dimensionIndex_ok hd
  split at h
  · split_ifs at h
    cases h
    exact hc
  · cases h
    refine hc.setDimension hold ((hc.dimension hold).addAttribute name kind) ?_ ?_
    all_goals
      rcases hidx : (c.dimension d).attrIndexByName[name]? with _ | _ <;>
        simp [Dimension.addAttribute, hidx, Dimension.kindAt]

/-- Setting values keeps a dimension well formed and its elements in
place. -/
theorem setValues_ok {dimension : String} {dim dim' : Dimension}
    {values : List (String × String × AttributeValue)}
    (h : setValues dimension dim values = .ok dim') (hdim : dim.WF) :
    dim'.WF ∧ dim'.elements = dim.elements ∧ dim'.name = dim.name := by
  induction values generalizing dim with
  | nil =>
    cases h
    exact ⟨hdim, rfl, rfl⟩
  | cons v values ih =>
    obtain ⟨element, attr, value⟩ := v
    simp only [setValues, bind_eq_ok] at h
    obtain ⟨i, -, mid, hmid, h⟩ := h
    obtain ⟨hwf, hel, hname⟩ := ih h (hdim.setAttribute hmid)
    obtain ⟨-, _, _, _, -, -, -, -, rfl⟩ := Dimension.setAttribute_ok hmid
    exact ⟨hwf, hel, hname⟩

theorem WF.setValues (hc : c.WF) {d : Nat} (hold : c.dimensions[d]? = some (c.dimension d))
    {dimension : String} {dim : Dimension} {values : List (String × String × AttributeValue)}
    (h : Cube.setValues dimension (c.dimension d) values = .ok dim) :
    (c.setDimension d dim).WF := by
  obtain ⟨hwf, hel, -⟩ := setValues_ok h (hc.dimension hold)
  exact hc.setDimension hold hwf (by rw [hel]) fun i => by simp [Dimension.kindAt, hel]

theorem WF.setAttributeValues (hc : c.WF) {dimension attr : String}
    {values : List (String × AttributeValue)}
    (h : c.setAttributeValues dimension attr values = .ok c') : c'.WF := by
  simp only [Cube.setAttributeValues, bind_eq_ok, Except.ok.injEq] at h
  obtain ⟨d, hd, dim, hdim, rfl⟩ := h
  exact hc.setValues (dimensionIndex_ok hd).1 hdim

/-- An edit of one element that keeps its kind keeps every kind. -/
theorem kindAt_modify {d : Dimension} {i : Nat} {f : Element → Element} (j : Nat) :
    ({ d with elements := d.elements.modify i f } : Dimension).kindAt j =
      if i = j then d.elements[j]?.map (fun e => (f e).kind) else d.kindAt j := by
  simp only [Dimension.kindAt, Dimension.getElem?_modify_element]
  split_ifs <;> simp [Function.comp_def]

theorem WF.setElementPin (hc : c.WF) {dimension element : String} {pinned : Bool}
    (h : c.setElementPin dimension element pinned = .ok c') : c'.WF := by
  simp only [Cube.setElementPin, bind_eq_ok, Except.ok.injEq] at h
  obtain ⟨d, hd, i, -, dim, hdim, rfl⟩ := h
  obtain ⟨hold, -⟩ := dimensionIndex_ok hd
  have hwf := (hc.dimension hold).setPin hdim
  obtain ⟨-, rfl⟩ := Dimension.setPin_ok hdim
  refine hc.setDimension hold hwf (by simp) fun j => ?_
  rw [kindAt_modify]
  split_ifs <;> rfl

/-! ## The hierarchy -/

theorem WF.removeChildElement (hc : c.WF) {dimension parent child : String}
    (h : c.removeChildElement dimension parent child = .ok c') : c'.WF := by
  simp only [Cube.removeChildElement, bind_eq_ok, Except.ok.injEq] at h
  obtain ⟨d, hd, p, -, k, -, dim, hdim, rfl⟩ := h
  obtain ⟨hold, -⟩ := dimensionIndex_ok hd
  have hwf := (hc.dimension hold).removeChild hdim
  rw [Dimension.removeChild_ok hdim] at hwf ⊢
  exact hc.setDimension hold hwf rfl fun _ => rfl

theorem isLeafAt_eq_ok {dim : Dimension} {i : Nat} {b : Bool} :
    isLeafAt dim i = .ok b ↔ ∃ k, dim.kindAt i = some k ∧ k.isLeaf = b := by
  simp only [isLeafAt, bind_eq_ok, Dimension.element_eq_ok, Except.ok.injEq,
    Dimension.kindAt_eq_some]
  constructor
  · rintro ⟨el, hel, rfl⟩
    exact ⟨el.kind, ⟨el, hel, rfl⟩, rfl⟩
  · rintro ⟨k, ⟨el, hel, rfl⟩, rfl⟩
    exact ⟨el, hel, rfl⟩

theorem not_isLeaf {k : ElementKind} : k.isLeaf = false ↔ k = .consolidated := by
  cases k <;> simp [ElementKind.isLeaf]

theorem WF.reparentElement (hc : c.WF) {dimension child : String} {newParent : Option String}
    {weight : Int} (h : c.reparentElement dimension child newParent weight = .ok c') :
    c'.WF := by
  simp only [Cube.reparentElement, bind_eq_ok] at h
  obtain ⟨d, hd, k, -, h⟩ := h
  obtain ⟨hold, -⟩ := dimensionIndex_ok hd
  have hdim := hc.dimension hold
  rcases newParent with _ | p
  · simp only [bind_eq_ok, Except.ok.injEq] at h
    obtain ⟨dim, hr, rfl⟩ := h
    have hwf := hdim.reparent hr
    have heq : dim = (c.dimension d).detach k := (Dimension.reparent_ok hr).2
    subst heq
    exact hc.setDimension hold hwf rfl fun _ => rfl
  · simp only [bind_eq_ok, Except.ok.injEq] at h
    obtain ⟨i, -, wasLeaf, hleaf, dim, hr, rfl⟩ := h
    have hwf := hdim.reparent hr
    obtain ⟨-, -, -, rfl⟩ := Dimension.reparent_ok hr
    have hkind : ∀ j ≠ i, ((c.dimension d).detach k).kindAt j = (c.dimension d).kindAt j :=
      fun _ _ => rfl
    cases wasLeaf
    · refine hc.setDimension hold hwf (by simp [Dimension.promote, Dimension.detach])
        fun j => ?_
      obtain ⟨kind, hk, hcons⟩ := isLeafAt_eq_ok.1 hleaf
      rw [not_isLeaf] at hcons
      refine (kindAt_modify j).trans ?_
      split_ifs with hij
      · subst hij
        obtain ⟨el, hel, hel'⟩ := Dimension.kindAt_eq_some.1 hk
        simp [Dimension.detach, Dimension.kindAt, hel, hel', hcons]
      · rfl
    · refine hc.dropCells hold hwf (by simp [Dimension.promote, Dimension.detach]) fun j hj => ?_
      exact (kindAt_modify j).trans (if_neg (Ne.symm hj))

theorem WF.addChildElement (hc : c.WF) {dimension parent child : String} {weight : Int}
    (h : c.addChildElement dimension parent child weight = .ok c') : c'.WF := by
  simp only [Cube.addChildElement, bind_eq_ok] at h
  obtain ⟨d, hd, p, -, k, -, kids, -, h⟩ := h
  obtain ⟨hold, -⟩ := dimensionIndex_ok hd
  have hdim := hc.dimension hold
  split_ifs at h
  · cases h
    exact hc
  · simp only [bind_eq_ok, Except.ok.injEq] at h
    obtain ⟨wasLeaf, hleaf, mid, hmid, dim, hadd, rfl⟩ := h
    cases wasLeaf
    · cases hmid
      have hwf := hdim.addChild hadd
      obtain ⟨-, -, -, rfl⟩ := Dimension.addChild_ok hadd
      exact hc.setDimension hold hwf rfl fun _ => rfl
    · obtain ⟨⟨mid', prev⟩, hset, hmid⟩ := bind_eq_ok.1 hmid
      cases hmid
      have hwf := (hdim.setKind hset).addChild hadd
      obtain ⟨-, rfl, -⟩ := Dimension.setKind_ok hset
      obtain ⟨-, -, -, rfl⟩ := Dimension.addChild_ok hadd
      refine hc.dropCells hold hwf (by simp) fun j hj => ?_
      exact (kindAt_modify j).trans (if_neg (Ne.symm hj))

/-! ## Kinds -/

theorem otherString_eq_true {d : Nat} {coord : Coord} :
    c.otherString d coord = true ↔ ∃ (k : Nat) (i : Nat) (dim : Dimension),
      k ≠ d ∧ coord[k]? = some i ∧ c.dimensions[k]? = some dim ∧ dim.kindAt i = some .string := by
  simp only [otherString, List.any_eq_true, List.mem_zipIdx_iff_getElem?, decide_eq_true_eq,
    Prod.exists, List.getElem?_zip_eq_some]
  constructor
  · rintro ⟨i, dim, k, ⟨hi, hd⟩, hk, hkind⟩
    exact ⟨k, i, dim, hk, hi, hd, hkind⟩
  · rintro ⟨k, i, dim, hk, hi, hd, hkind⟩
    exact ⟨i, dim, k, ⟨hi, hd⟩, hk, hkind⟩

/-- A string element turned numeric: the string cells that still address a
string stay, and no numeric cell addressed it. -/
theorem WF.dropSoleStringCells (hc : c.WF) {d i : Nat} {old dim : Dimension}
    (hold : c.dimensions[d]? = some old) (hdim : dim.WF)
    (hlen : dim.elements.length = old.elements.length) (hwas : old.kindAt i = some .string)
    (hnow : dim.kindAt i = some .leaf) (hkind : ∀ j ≠ i, dim.kindAt j = old.kindAt j) :
    ((c.setDimension d dim).dropSoleStringCells d i).WF := by
  have hmoves := moves_rebuild hc hold hlen false true
    (fun coord =>
      if coord[d]? ≠ some i ∨ (c.setDimension d dim).otherString d coord = true then some coord
      else none)
    (fun a b hab => by
      split_ifs at hab
      exact Option.some.inj hab)
  have hset : ∀ {k x}, k ≠ d → (c.setDimension d dim).dimensions[k]? = some x →
      c.dimensions[k]? = some x := by
    intro k x hk hx
    rwa [Cube.setDimension, List.getElem?_set_ne (Ne.symm hk)] at hx
  refine hc.of_moves hmoves (set_ne_nil hc.nonempty) (forall_mem_set hc.dims hdim) ?_ ?_
  · rintro a b ha ⟨⟩
    refine numeric_set hold (fun j hj => ?_) ha
    by_cases hji : j = i
    · subst hji
      rw [hwas] at hj
      cases hj
    · rw [hkind j hji, hj]
  · intro a b ha hab
    simp only [if_true] at hab
    split_ifs at hab with hkeep
    cases hab
    have hleaves : List.Forall₂
        (fun j (x : Dimension) => x.kindAt j = some .leaf ∨ x.kindAt j = some .string) a
        (c.dimensions.set d dim) := by
      refine forall₂_set_right ha.leaves fun j hj => ?_
      by_cases hji : j = i
      · exact Or.inl (hji ▸ hnow)
      · rw [hkind j hji]
        exact (forall₂_iff_getElem?.1 ha.leaves).2 d j old hj hold
    refine ⟨hleaves, ?_⟩
    -- what is kept is at another element, or is a text by another component
    rcases hkeep with hne | hother
    · obtain ⟨k, j, x, hj, hx, hk⟩ := ha.string
      by_cases hkd : d = k
      · subst hkd
        obtain rfl := Option.some.inj (hold.symm.trans hx)
        have hji : j ≠ i := fun h => hne (h ▸ hj)
        exact ⟨d, j, dim, hj, List.getElem?_set_self (List.getElem?_eq_some_iff.1 hx).1,
          (hkind j hji).trans hk⟩
      · exact ⟨k, j, x, hj, (List.getElem?_set_ne hkd).trans hx, hk⟩
    · obtain ⟨k, j, x, -, hj, hx, hk⟩ := otherString_eq_true.1 hother
      exact ⟨k, j, x, hj, hx, hk⟩

theorem WF.setElementKind (hc : c.WF) {dimension element : String} {kind : ElementKind}
    (h : c.setElementKind dimension element kind = .ok c') : c'.WF := by
  simp only [Cube.setElementKind, bind_eq_ok, Except.ok.injEq] at h
  obtain ⟨d, hd, i, -, ⟨dim, previous⟩, hset, rfl⟩ := h
  obtain ⟨hold, -⟩ := dimensionIndex_ok hd
  have hdim := (hc.dimension hold).setKind hset
  obtain ⟨hprev, heq, -⟩ := Dimension.setKind_ok hset
  have hlen : dim.elements.length = (c.dimension d).elements.length := by simp [heq]
  have hkind : ∀ j ≠ i, dim.kindAt j = (c.dimension d).kindAt j := fun j hj => by
    rw [heq]
    exact (kindAt_modify j).trans (if_neg (Ne.symm hj))
  have hnow : dim.kindAt i = some kind := by
    obtain ⟨el, hel, -⟩ := Dimension.kindAt_eq_some.1 hprev
    rw [heq]
    refine (kindAt_modify i).trans ?_
    simp [hel]
  have hsame : (previous ≠ .consolidated → kind = previous) → (c.setDimension d dim).WF := by
    intro hk
    have hstay : ∀ j k, k ≠ .consolidated → (c.dimension d).kindAt j = some k →
        dim.kindAt j = some k := by
      intro j k hne hj
      by_cases hji : j = i
      · subst hji
        obtain rfl := Option.some.inj (hprev.symm.trans hj)
        rw [hnow, hk hne]
      · rw [hkind j hji, hj]
    refine hc.of_moves (moves_setDimension hc hold hlen) (set_ne_nil hc.nonempty)
      (forall_mem_set hc.dims hdim) ?_ ?_
    · rintro a b ha ⟨⟩
      exact numeric_set hold (fun j hj => hstay j _ (by simp) hj) ha
    · rintro a b ha ⟨⟩
      exact string_set hold hstay ha
  rcases previous with _ | _ | _ <;> rcases kind with _ | _ | _
  case leaf.string =>
    -- the numbers go; text at the element's coordinates stays legal
    refine hc.of_moves (moves_dropCells hc hold hlen i true false) (set_ne_nil hc.nonempty)
      (forall_mem_set hc.dims hdim) (fun _ _ ha hab => numeric_set_avoid hold hkind ha hab) ?_
    rintro a b ha ⟨⟩
    refine ⟨forall₂_set_right ha.leaves fun j hj => ?_, ?_⟩
    · by_cases hji : j = i
      · exact Or.inr (hji ▸ hnow)
      · rw [hkind j hji]
        exact (forall₂_iff_getElem?.1 ha.leaves).2 d j _ hj hold
    · obtain ⟨k, j, x, hj, hx, hk⟩ := ha.string
      by_cases hkd : d = k
      · subst hkd
        obtain rfl := Option.some.inj (hold.symm.trans hx)
        have hji : j ≠ i := by
          rintro rfl
          rw [hprev] at hk
          cases hk
        exact ⟨d, j, dim, hj, List.getElem?_set_self (List.getElem?_eq_some_iff.1 hx).1,
          (hkind j hji).trans hk⟩
      · exact ⟨k, j, x, hj, (List.getElem?_set_ne hkd).trans hx, hk⟩
  case string.leaf => exact hc.dropSoleStringCells hold hdim hlen hprev hnow hkind
  case leaf.consolidated => exact hc.dropCells hold hdim hlen hkind
  case string.consolidated => exact hc.dropCells hold hdim hlen hkind
  all_goals exact hsame (by simp)

/-! ## Renumbering edits -/

theorem Renumbers.reindex {d d' : Dimension} {toNew : Renumbering}
    (h : Dimension.Renumbers d d' toNew) : Dimension.Renumbers d d'.reindexNames toNew :=
  ⟨h.name, h.attributes, h.attr_index, h.children_length, h.values_length, h.length, h.inj,
    h.elements, h.edges, h.values, h.fresh, h.tracked, h.names⟩

/-- An accepted renumbering edit of a dimension renumbers it. -/
theorem renumbers_reorder {d d' : Dimension} (hd : d.WF) {newOrder : List String}
    {toNew : Renumbering} (h : d.reorder newOrder = .ok (d', toNew)) :
    Dimension.Renumbers d d' toNew := by
  obtain ⟨hlen, hloop, rfl⟩ := Dimension.reorder_ok h
  obtain ⟨hl, hp, -⟩ := hd.isPermutation_reorder hlen hloop
  exact Renumbers.reindex (Dimension.renumbers_permute hd hp hl)

theorem renumbers_deleteElement {d d' : Dimension} (hd : d.WF) {element : Nat}
    {toNew : Renumbering} (h : d.delete element = .ok (d', toNew)) :
    Dimension.Renumbers d d' toNew := by
  obtain ⟨hlt, -, rfl, rfl⟩ := Dimension.delete_ok h
  exact Renumbers.reindex (Dimension.renumbers_delete hd hlt)

theorem renumbers_insertAt {d d' : Dimension} (hd : d.WF) {name : String} {kind : ElementKind}
    {position : Nat} {toNew : Renumbering}
    (h : d.insertAt name kind position = .ok (d', toNew)) : Dimension.Renumbers d d' toNew := by
  obtain ⟨hnew, rfl, rfl⟩ := Dimension.insertAt_ok h
  exact Renumbers.reindex (Dimension.renumbers_insert hd hnew kind (Nat.min_le_right _ _))

theorem reorderElements_ok {dimension : String} {newOrder : List String}
    (h : c.reorderElements dimension newOrder = .ok c') : ∃ d dim toNew,
      c.dimensions[d]? = some (c.dimension d) ∧ (c.dimension d).name = dimension ∧
      (c.dimension d).reorder newOrder = .ok (dim, toNew) ∧
      c' = (c.setDimension d dim).remapCellsForDimension d toNew := by
  simp only [reorderElements, bind_eq_ok, Except.ok.injEq] at h
  obtain ⟨d, hd, ⟨dim, toNew⟩, hr, rfl⟩ := h
  obtain ⟨hold, hname⟩ := dimensionIndex_ok hd
  exact ⟨d, dim, toNew, hold, hname, hr, rfl⟩

theorem deleteElement_ok {dimension element : String}
    (h : c.deleteElement dimension element = .ok c') : ∃ d dim toNew i,
      c.dimensions[d]? = some (c.dimension d) ∧ (c.dimension d).name = dimension ∧
      (c.dimension d).indexByName[element]? = some i ∧
      (c.dimension d).delete i = .ok (dim, toNew) ∧
      c' = (c.setDimension d dim).remapCellsForDimension d toNew := by
  simp only [deleteElement, bind_eq_ok, findElement_eq_ok, Except.ok.injEq] at h
  obtain ⟨d, hd, i, hi, ⟨dim, toNew⟩, hr, rfl⟩ := h
  obtain ⟨hold, hname⟩ := dimensionIndex_ok hd
  exact ⟨d, dim, toNew, i, hold, hname, hi, hr, rfl⟩

theorem insertElementAt_ok {dimension name : String} {kind : ElementKind} {position : Position}
    (h : c.insertElementAt dimension name kind position = .ok c') : ∃ d dim toNew i,
      c.dimensions[d]? = some (c.dimension d) ∧ (c.dimension d).name = dimension ∧
      (c.dimension d).insertAt name kind i = .ok (dim, toNew) ∧
      c' = (c.setDimension d dim).remapCellsForDimension d toNew := by
  simp only [insertElementAt, bind_eq_ok, Except.ok.injEq] at h
  obtain ⟨d, hd, i, -, ⟨dim, toNew⟩, hr, rfl⟩ := h
  obtain ⟨hold, hname⟩ := dimensionIndex_ok hd
  exact ⟨d, dim, toNew, i, hold, hname, hr, rfl⟩

theorem WF.reorderElements (hc : c.WF) {dimension : String} {newOrder : List String}
    (h : c.reorderElements dimension newOrder = .ok c') : c'.WF := by
  obtain ⟨d, dim, toNew, hold, -, hr, rfl⟩ := reorderElements_ok h
  have hd := hc.dimension hold
  exact hc.remap hold (hd.reorder hr) (renumbers_reorder hd hr)

theorem WF.deleteElement (hc : c.WF) {dimension element : String}
    (h : c.deleteElement dimension element = .ok c') : c'.WF := by
  obtain ⟨d, dim, toNew, i, hold, -, -, hr, rfl⟩ := deleteElement_ok h
  have hd := hc.dimension hold
  exact hc.remap hold (hd.delete hr) (renumbers_deleteElement hd hr)

theorem WF.insertElementAt (hc : c.WF) {dimension name : String} {kind : ElementKind}
    {position : Position} (h : c.insertElementAt dimension name kind position = .ok c') :
    c'.WF := by
  obtain ⟨d, dim, toNew, i, hold, -, hr, rfl⟩ := insertElementAt_ok h
  have hd := hc.dimension hold
  exact hc.remap hold (hd.insertAt hr) (renumbers_insertAt hd hr)

theorem extendSchema_ok {elements : List ElementSpec} {edges : List EdgeSpec} {n : Nat}
    (h : c.extendSchema elements edges = .ok (c', n)) : ∃ dims,
      applyGrowth c.name c.dimensions elements edges = .ok (dims, n) ∧
      c' = ({ c with dimensions := dims } : Cube).relayout := by
  simp only [extendSchema, bind_eq_ok, Except.ok.injEq, Prod.mk.injEq] at h
  obtain ⟨⟨dims, k⟩, hg, rfl, rfl⟩ := h
  exact ⟨dims, hg, rfl⟩

theorem WF.extendSchema (hc : c.WF) {elements : List ElementSpec} {edges : List EdgeSpec}
    {n : Nat} (h : c.extendSchema elements edges = .ok (c', n)) : c'.WF := by
  obtain ⟨dims, hg, rfl⟩ := extendSchema_ok h
  exact hc.grow (applyGrowth_ok hg)

/-! ## Compaction -/

/-- What the compaction has done after the first `n` ids: a remap of them
all, and a pool holding each live one under its new id. -/
structure CompactedTo (p : StringPool) (live : List Nat) (n : Nat)
    (st : StringPool × List (Option Nat)) : Prop where
  wf : st.1.WF
  length : st.2.length = n
  from_old : ∀ (j : Nat) s, st.1.byId[j]? = some s → ∃ i < n, p.byId[i]? = some s
  live : ∀ i < n, i ∈ live → ∃ j : Nat, st.2[i]? = some (some j) ∧ st.1.byId[j]? = p.byId[i]?

theorem compactedTo_step {p : StringPool} (hp : p.WF) {live : List Nat} {n : Nat}
    (hn : n < p.byId.length) {st : StringPool × List (Option Nat)}
    (h : CompactedTo p live n st) : CompactedTo p live (n + 1) (p.compactStep live st n) := by
  obtain ⟨s, hs⟩ : ∃ s, p.byId[n]? = some s := ⟨_, List.getElem?_eq_getElem hn⟩
  have hold : ∀ i < n, ∀ {x : List (Option Nat)}, (st.2 ++ x)[i]? = st.2[i]? := fun i hi x =>
    List.getElem?_append_left (h.length ▸ hi)
  rw [StringPool.compactStep]
  split_ifs with hl
  · have hget : p.get n = s := StringPool.get_eq hs
    -- strings are interned once, so a live one is not among those carried over
    have hfresh : st.1.ids[s]? = none := by
      refine Option.eq_none_iff_forall_ne_some.2 fun j hj => ?_
      obtain ⟨i, hi, his⟩ := h.from_old j s ((h.wf s j).1 hj)
      have : i = n := Option.some.inj (((hp s i).2 his).symm.trans ((hp s n).2 hs))
      omega
    rw [hget]
    refine
      { wf := h.wf.push hfresh
        length := by simp [h.length]
        from_old := fun j t hj => ?_
        live := fun i hi hil => ?_ }
    · rw [Dimension.getElem?_snoc] at hj
      split_ifs at hj with hjl
      · cases hj
        exact ⟨n, by omega, hs⟩
      · obtain ⟨i, hi, hit⟩ := h.from_old j t hj
        exact ⟨i, by omega, hit⟩
    · rcases Nat.lt_succ_iff_lt_or_eq.1 hi with hi | rfl
      · obtain ⟨j, hj, hjs⟩ := h.live i hi hil
        refine ⟨j, by rw [hold i hi, hj], ?_⟩
        obtain ⟨t, ht⟩ : ∃ t, p.byId[i]? = some t :=
          ⟨_, List.getElem?_eq_getElem (hi.trans hn)⟩
        rw [ht] at hjs ⊢
        rw [List.getElem?_append_left (List.getElem?_eq_some_iff.1 hjs).1, hjs]
      · refine ⟨st.1.byId.length, ?_, ?_⟩
        · rw [Dimension.getElem?_snoc, if_pos h.length.symm]
        · rw [hs, Dimension.getElem?_snoc, if_pos rfl]
  · refine
      { wf := h.wf
        length := by simp [h.length]
        from_old := fun j t hj => ?_
        live := fun i hi hil => ?_ }
    · obtain ⟨i, hi, hit⟩ := h.from_old j t hj
      exact ⟨i, by omega, hit⟩
    · rcases Nat.lt_succ_iff_lt_or_eq.1 hi with hi | rfl
      · obtain ⟨j, hj, hjs⟩ := h.live i hi hil
        exact ⟨j, by rw [hold i hi, hj], hjs⟩
      · exact absurd hil hl

theorem compactedTo_compact {p : StringPool} (hp : p.WF) (live : List Nat) :
    CompactedTo p live p.byId.length (p.compact live) := by
  have h : ∀ n ≤ p.byId.length,
      CompactedTo p live n ((List.range n).foldl (p.compactStep live) (StringPool.empty, [])) := by
    intro n
    induction n with
    | zero =>
      exact fun _ =>
        { wf := StringPool.wf_empty
          length := rfl
          from_old := by simp [StringPool.empty]
          live := by simp }
    | succ n ih =>
      intro hn
      rw [List.range_succ, List.foldl_append]
      exact compactedTo_step hp hn (ih (by omega))
  exact h _ le_rfl

/-- **Compaction renumbers ids and changes no text.** -/
theorem compactStringPool_spec (hc : c.WF) :
    c.compactStringPool.WF ∧ c.compactStringPool.name = c.name ∧
      c.compactStringPool.dimensions = c.dimensions ∧
      c.compactStringPool.cells = c.cells ∧
      ∀ a, InRange c.dimensions a →
        (c.compactStringPool.stringCells.get c.layout a).map c.compactStringPool.stringPool.get =
          (c.stringCells.get c.layout a).map c.stringPool.get := by
  simp only [compactStringPool]
  split_ifs with hsame
  · exact ⟨hc, rfl, rfl, rfl, fun _ _ => rfl⟩
  · have hmem : ∀ a id, (a, id) ∈ c.stringCells.entries c.layout c.rank ↔
        InRange c.dimensions a ∧ c.stringCells.get c.layout a = some id := by
      intro a id
      rw [hc.layout]
      exact mem_entries hc.strings
    have hlive : ∀ a id, InRange c.dimensions a → c.stringCells.get c.layout a = some id →
        id ∈ ((c.stringCells.entries c.layout c.rank).map Prod.snd).dedup := fun a id ha hget =>
      List.mem_dedup.2 (List.mem_map.2 ⟨(a, id), (hmem a id).2 ⟨ha, hget⟩, rfl⟩)
    generalize ((c.stringCells.entries c.layout c.rank).map Prod.snd).dedup = live at hlive ⊢
    have hcomp := compactedTo_compact hc.pool live
    generalize c.stringPool.compact live = pool at hcomp ⊢
    -- a stored id is live, so it has a new id for the same text
    have hid : ∀ a id, InRange c.dimensions a → c.stringCells.get c.layout a = some id →
        ∃ s, pool.1.byId[(pool.2[id]?.join).getD 0]? = some s ∧
          c.stringPool.byId[id]? = some s ∧ s ≠ "" := by
      intro a id ha hget
      obtain ⟨-, s, hs, hne⟩ := hc.text a id ha hget
      obtain ⟨j, hj, hjs⟩ :=
        hcomp.live id (List.getElem?_eq_some_iff.1 hs).1 (hlive a id ha hget)
      refine ⟨s, ?_, hs, hne⟩
      rw [hj]
      exact hjs.trans hs
    have hcells : ∀ a id', (a, id') ∈ (c.stringCells.entries c.layout c.rank).map
        (fun e => (e.1, (pool.2[e.2]?.join).getD 0)) ↔
        InRange c.dimensions a ∧ ∃ id, c.stringCells.get c.layout a = some id ∧
          (pool.2[id]?.join).getD 0 = id' := by
      intro a id'
      simp only [List.mem_map, Prod.mk.injEq, Prod.exists, hmem]
      constructor
      · rintro ⟨a', id, ⟨ha, hget⟩, rfl, rfl⟩
        exact ⟨ha, id, hget, rfl⟩
      · rintro ⟨ha, id, hget, rfl⟩
        exact ⟨a, id, ⟨ha, hget⟩, rfl, rfl⟩
    have hfun : FinMap.Functional ((c.stringCells.entries c.layout c.rank).map
        (fun e => (e.1, (pool.2[e.2]?.join).getD 0))) := by
      intro a x y hx hy
      obtain ⟨-, i, hi, rfl⟩ := (hcells a x).1 hx
      obtain ⟨-, j, hj, rfl⟩ := (hcells a y).1 hy
      rw [Option.some.inj (hi.symm.trans hj)]
    generalize (c.stringCells.entries c.layout c.rank).map
      (fun e => (e.1, (pool.2[e.2]?.join).getD 0)) = entries at hcells hfun ⊢
    obtain ⟨hholds, hget⟩ := get_putAll hfun (fun e he => ((hcells e.1 e.2).1 he).1)
      (holds_new c.dimensions)
    rw [← hc.layout] at hholds hget
    have hnew : ∀ a id', InRange c.dimensions a →
        (((CellStore.new c.layout.narrow).putAll c.layout entries).get c.layout a = some id' ↔
          ∃ id, c.stringCells.get c.layout a = some id ∧ (pool.2[id]?.join).getD 0 = id') := by
      intro a id' ha
      rw [hget a id' ha, hcells]
      simp [ha]
    refine ⟨{ hc with strings := hholds, pool := hcomp.wf, text := ?_ }, rfl, rfl, rfl, ?_⟩
    · intro a id' ha hid'
      obtain ⟨id, hgeta, rfl⟩ := (hnew a id' ha).1 hid'
      obtain ⟨s, hs, -, hne⟩ := hid a id ha hgeta
      exact ⟨(hc.text a id ha hgeta).1, s, hs, hne⟩
    · intro a ha
      rcases hgeta : c.stringCells.get c.layout a with _ | id
      · have : ((CellStore.new c.layout.narrow).putAll c.layout entries).get c.layout a = none := by
          refine Option.eq_none_iff_forall_ne_some.2 fun id' hid' => ?_
          obtain ⟨id, h, -⟩ := (hnew a id' ha).1 hid'
          simp [hgeta] at h
        rw [this]
        rfl
      · obtain ⟨s, hs, hs', -⟩ := hid a id ha hgeta
        rw [(hnew a _ ha).2 ⟨id, hgeta, rfl⟩]
        simp [StringPool.get_eq hs, StringPool.get_eq hs']

/-! ## Runs -/

/-- **Step.** An accepted call keeps the invariant. -/
theorem WF.run (hc : c.WF) {op : CubeOp} (h : c.run op = .ok c') : c'.WF := by
  cases op with
  | setLeaf coord value => exact hc.setLeaf h
  | setString coord value => exact hc.setString h
  | extendSchema elements edges =>
    obtain ⟨⟨next, n⟩, hn, heq⟩ := bind_eq_ok.1 h
    cases heq
    exact hc.extendSchema hn
  | defineAttribute dimension name kind => exact hc.defineAttribute h
  | setAttributeValues dimension attr values => exact hc.setAttributeValues h
  | reorderElements dimension newOrder => exact hc.reorderElements h
  | reparentElement dimension child newParent weight => exact hc.reparentElement h
  | addChildElement dimension parent child weight => exact hc.addChildElement h
  | removeChildElement dimension parent child => exact hc.removeChildElement h
  | setElementPin dimension element pinned => exact hc.setElementPin h
  | setElementKind dimension element kind => exact hc.setElementKind h
  | deleteElement dimension element => exact hc.deleteElement h
  | insertElementAt dimension name kind position => exact hc.insertElementAt h
  | compactStringPool =>
    cases h
    exact (compactStringPool_spec hc).1

theorem WF.apply (hc : c.WF) (op : CubeOp) : (c.apply op).WF := by
  rw [Cube.apply]
  split
  · exact hc.run ‹_›
  · exact hc

theorem WF.calls (hc : c.WF) (ops : List CubeOp) : (ops.foldl Cube.apply c).WF := by
  induction ops generalizing c with
  | nil => exact hc
  | cons op ops ih => exact ih (hc.apply op)

/-- A cube over well-formed dimensions, without cells. -/
theorem WF.new {name : String} {dims : List Dimension} (hdims : ∀ d ∈ dims, d.WF)
    (h : Cube.new name dims = .ok c) : c.WF := by
  simp only [Cube.new, ite_error_eq_ok, Except.ok.injEq] at h
  obtain ⟨hne, rfl⟩ := h
  exact
    { nonempty := by simpa using hne
      dims := hdims
      layout := rfl
      cells := holds_new dims
      strings := holds_new dims
      pool := StringPool.wf_empty
      numeric := by simp
      text := by simp }

theorem foldlM_invariant {α β : Type} {P : β → Prop} {f : β → α → Except ModelError β}
    (hf : ∀ b a b', P b → f b a = .ok b' → P b') {l : List α} {b b' : β} (hb : P b)
    (h : l.foldlM f b = .ok b') : P b' := by
  induction l generalizing b with
  | nil =>
    cases h
    exact hb
  | cons a l ih =>
    rw [List.foldlM_cons, bind_eq_ok] at h
    obtain ⟨mid, hmid, h⟩ := h
    exact ih (hf b a mid hb hmid) h

theorem WF.buildAttributes (hc : c.WF) {d : DimensionDef} (h : c.buildAttributes d = .ok c') :
    c'.WF := by
  simp only [Cube.buildAttributes, bind_eq_ok] at h
  obtain ⟨mid, hmid, h⟩ := h
  have hwf : mid.WF := foldlM_invariant (fun _ _ _ hb h => hb.defineAttribute h) hc hmid
  split_ifs at h
  · cases h
    exact hwf
  · simp only [bind_eq_ok, Except.ok.injEq] at h
    obtain ⟨i, hi, dim, hdim, rfl⟩ := h
    exact hwf.setValues (dimensionIndex_ok hi).1 hdim

/-- A built cube is well formed. -/
theorem WF.build {name : String} {defs : List DimensionDef} (h : Cube.build name defs = .ok c) :
    c.WF := by
  rw [Cube.build] at h
  split_ifs at h
  split at h
  · cases h
  · simp only [bind_eq_ok] at h
    obtain ⟨fresh, hfresh, ⟨grown, n⟩, hgrown, h⟩ := h
    have hwf : fresh.WF := WF.new (fun d hd => by
      obtain ⟨x, -, rfl⟩ := List.mem_map.1 hd
      exact Dimension.WF.new x.name) hfresh
    exact foldlM_invariant (fun _ _ _ hb h => hb.buildAttributes h) (hwf.extendSchema hgrown) h

/-- A definition that builds, builds a cube in order. -/
theorem WF.get_build {name : String} {defs : List DimensionDef}
    (h : (Cube.build name defs).toOption.isSome) : ((Cube.build name defs).toOption.get h).WF := by
  obtain ⟨c, hget⟩ := Option.isSome_iff_exists.1 h
  have hbuild : Cube.build name defs = .ok c := by
    cases hcube : Cube.build name defs with
    | error e =>
      rw [hcube] at hget
      cases hget
    | ok c' =>
      rw [hcube] at hget
      exact congrArg _ (Option.some.inj hget)
  simp only [hget, Option.get_some]
  exact WF.build hbuild

/-- What a cube's tables and stores look like in every reachable state. -/
structure Represented (c : Cube) : Prop where
  /-- Stored numbers are not zero and stand at numeric leaves. -/
  numbers : ∀ e ∈ c.cellEntries, e.2 ≠ Fixed.zero ∧ NumericCoord c.dimensions e.1
  /-- Stored text has a valid id and is not empty, and stands at leaves of
  which one is a string. -/
  texts : ∀ e ∈ c.stringCells.entries c.layout c.rank, StringCoord c.dimensions e.1 ∧
    ∃ s, c.stringPool.byId[e.2]? = some s ∧ s ≠ ""
  layout : c.layout = Layout.new c.dimensions
  /-- The stores are packed exactly when the layout is narrow. -/
  packed : c.cells.isNarrow = c.layout.narrow ∧ c.stringCells.isNarrow = c.layout.narrow
  acyclic : ∀ d ∈ c.dimensions, Acyclic d.IsChild
  parents : ∀ d ∈ c.dimensions, ∀ p, d.edgesOf p ≠ [] → d.kindAt p = some .consolidated
  index : ∀ d ∈ c.dimensions, ∀ name i, d.indexOf name = some i ↔ d.nameAt i = some name

theorem WF.represented (hc : c.WF) : c.Represented where
  numbers := by
    rintro ⟨a, v⟩ he
    rw [cellEntries, rank, hc.layout, mem_entries hc.cells, ← hc.layout] at he
    exact hc.numeric a v he.1 he.2
  texts := by
    rintro ⟨a, id⟩ he
    rw [rank, hc.layout, mem_entries hc.strings, ← hc.layout] at he
    exact hc.text a id he.1 he.2
  layout := hc.layout
  packed := by
    rw [hc.layout]
    exact ⟨hc.cells.form, hc.strings.form⟩
  acyclic := fun d hd => (hc.dims d hd).acyclic
  parents := fun d hd => (hc.dims d hd).parents
  index := fun d hd => (hc.dims d hd).index

/-- **The representation invariant.** A cube built from definitions is
represented after every sequence of calls, accepted or refused. -/
theorem represented_of_calls (name : String) (defs : List DimensionDef) (ops : List CubeOp)
    (c : Cube) (h : Cube.build name defs = .ok c) : (ops.foldl Cube.apply c).Represented :=
  ((WF.build h).calls ops).represented

/-- A cube of sales by region, with a note. -/
def salesDefs : List DimensionDef :=
  [⟨"Region", [("North", .leaf), ("South", .leaf), ("World", .consolidated)],
    [("World", "North", 1), ("World", "South", 1)], [], []⟩,
   ⟨"Measure", [("Amount", .leaf), ("Note", .string)], [], [], []⟩]

/-- Writes, a refused write to a consolidation, and edits that drop them. -/
def salesCalls : List CubeOp :=
  [.setLeaf [0, 0] ⟨10000, by decide⟩, .setLeaf [2, 0] ⟨10000, by decide⟩,
   .setString [1, 1] "late", .setElementKind "Region" "South" .string,
   .reparentElement "Region" "South" (some "North") 1,
   .reorderElements "Region" ["World", "North", "South"]]

/-- What the South sells, 2.5. -/
def southAmount : Fixed := ⟨25000, by decide⟩

/-- Two amounts and a note. -/
def salesWrites : List CubeOp :=
  [.setLeaf [0, 0] ⟨10000, by decide⟩, .setLeaf [1, 0] southAmount,
   .setString [1, 1] "late"]

theorem represented_of_sales_calls : ∃ c, Cube.build "Sales" salesDefs = .ok c ∧
    (salesCalls.foldl Cube.apply c).Represented := by
  obtain ⟨c, hc⟩ := exists_of_isOk
    (by decide +kernel : (Cube.build "Sales" salesDefs).isOk = true)
  exact ⟨c, hc, represented_of_calls "Sales" salesDefs salesCalls c hc⟩

end Cube

end Epiphany
