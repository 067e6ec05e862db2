import Epiphany.Common.Sections
import Epiphany.Core.RollupByName
/-!
# Consolidation — the sparse read and the dense walk

`Cube.get` scans the stored cells and keeps those under the coordinate;
`Cube.consolidateWith` walks the leaf combinations under it and asks for
the value of each. Over the stored values both are one sum in the 128-bit
accumulator, a commutative ring (`get_eq_narrow`, `consolidateWith_stored`),
so they agree whenever the walk gets past the count of its combinations.
The count multiplies the lists' lengths one after the other and gives up
past a pointer-sized integer, also when a list still to come is empty:
`get_eq_consolidateWith_iff` is the exact condition.
-/

namespace Epiphany

open Sections Worklist Dimension

namespace Cube

/-! ## The dense walk -/

/-- The number of leaf combinations, checked factor by factor. -/
def comboCount (perDim : List (List (Nat × Int))) : Option Nat :=
  perDim.foldlM (fun total weights => checkedMul total weights.length) 1

section Walk

variable {m : Type → Type} [Monad m]

/-- Add the term of one combination: its combined weight, and the value of
its leaf. -/
def addCombo (leafValue : Coord → m Fixed) (acc : I128) (combo : List (Nat × Int)) : m I128 := do
  let value ← leafValue (combo.map Prod.fst)
  pure (acc + (combo.map fun e => BitVec.ofInt 128 e.2).prod * value.toI128)

/-- Consolidate a coordinate, the value of each contributing leaf coming
from `leafValue`. The closure runs in any monad `m` into which the errors
of the model embed. -/
def consolidateWith (lift : {α : Type} → Except ModelError α → m α) (c : Cube) (coord : Coord)
    (leafValue : Coord → m Fixed) : m Fixed := do
  lift (c.checkCoord coord)
  if c.allNumericLeaf coord then leafValue coord
  else
    let perDim ← lift (c.perDimension coord)
    let total ← lift (okOr (comboCount perDim) .overflow)
    -- an empty list leaves nothing to add up
    if total = 0 then pure Fixed.zero
    else
      let acc ← (List.range total).foldlM (fun acc n => addCombo leafValue acc (choice perDim n)) 0
      lift (narrow acc)

end Walk

variable {c : Cube} {coord : Coord}

/-! ## The count -/

/-- The lists before the first empty one. -/
def headLists (perDim : List (List (Nat × Int))) : List (List (Nat × Int)) :=
  perDim.takeWhile fun l => l ≠ []

theorem headLists_pos (perDim : List (List (Nat × Int))) :
    1 ≤ ((headLists perDim).map List.length).prod := by
  refine Nat.pos_of_ne_zero fun h => ?_
  obtain ⟨l, hl, h0⟩ := List.mem_map.1 (List.prod_eq_zero_iff.1 h)
  have := List.mem_takeWhile_imp hl
  simp [List.length_eq_zero_iff.1 h0] at this

/-- The count goes through when the lists before the first empty one can be
counted. -/
theorem comboCount_from (perDim : List (List (Nat × Int))) {total : Nat}
    (ht : total ≤ usizeMax) :
    perDim.foldlM (fun total weights => checkedMul total weights.length) total =
      if total * ((headLists perDim).map List.length).prod ≤ usizeMax then
        some (total * (perDim.map List.length).prod)
      else none := by
  induction perDim generalizing total with
  | nil => simp [headLists, ht]
  | cons l perDim ih =>
    rw [List.foldlM_cons, checkedMul]
    rcases l with _ | ⟨e, l⟩
    · have h0 : total * ([] : List (Nat × Int)).length ≤ usizeMax := by simp
      rw [if_pos h0]
      show perDim.foldlM _ _ = _
      rw [ih h0]
      simp [headLists, ht]
    · have hhead : headLists ((e :: l) :: perDim) = (e :: l) :: headLists perDim := by
        simp [headLists]
      rw [hhead, List.map_cons, List.prod_cons, ← Nat.mul_assoc, List.map_cons, List.prod_cons,
        ← Nat.mul_assoc]
      by_cases hfit : total * (e :: l).length ≤ usizeMax
      · rw [if_pos hfit]
        exact ih hfit
      · have := Nat.le_mul_of_pos_right (total * (e :: l).length) (headLists_pos perDim)
        rw [if_neg hfit, if_neg (by omega)]
        rfl

theorem comboCount_eq (perDim : List (List (Nat × Int))) :
    comboCount perDim =
      if ((headLists perDim).map List.length).prod ≤ usizeMax then
        some (perDim.map List.length).prod
      else none := by
  rw [comboCount, comboCount_from perDim (by decide)]
  simp only [Nat.one_mul]

/-! ## The weight of a cell -/

/-- A list's weights as terms of the accumulator. -/
def wide (weights : List (Nat × Int)) : List (Nat × I128) :=
  weights.map fun e => (e.1, BitVec.ofInt 128 e.2)

/-- In a list that names each leaf once, a leaf's weight is its entry. -/
theorem weightOf_wide {weights : List (Nat × Int)} (h : (weights.map Prod.fst).Nodup) (i : Nat) :
    weightOf (wide weights) i = (((FinMap.collect weights)[i]?).map (BitVec.ofInt 128)).getD 0 := by
  have hfun := FinMap.functional_of_nodup h
  have hkeys : (wide weights).map Prod.fst = weights.map Prod.fst := by
    simp [wide, Function.comp_def]
  rcases hi : (FinMap.collect weights)[i]? with _ | w
  · refine weightOf_of_not_mem fun hmem => ?_
    rw [hkeys] at hmem
    obtain ⟨x, hx, rfl⟩ := List.mem_map.1 hmem
    have := (FinMap.get_collect hfun).2 hx
    rw [hi] at this
    cases this
  · refine weightOf_of_mem (hkeys ▸ h) (List.mem_map.2 ⟨(i, w), ?_, rfl⟩)
    exact (FinMap.get_collect hfun).1 hi

/-- The combined weight of a cell is the weight the lists give it, and a
cell outside the lists weighs nothing. -/
theorem cellWeight_eq {perDim : List (List (Nat × Int))} {cell : Coord}
    (hlists : ∀ l ∈ perDim, (l.map Prod.fst).Nodup) (hlen : cell.length = perDim.length)
    (weight : I128) :
    (cellWeight (perDim.map FinMap.collect) cell weight).getD 0 =
      weight * weightAt (perDim.map wide) cell := by
  induction perDim generalizing cell weight with
  | nil =>
    rcases cell with _ | ⟨i, cell⟩
    · simp [cellWeight, weightAt]
    · simp at hlen
  | cons l perDim ih =>
    rcases cell with _ | ⟨i, cell⟩
    · simp at hlen
    · have hl := hlists l List.mem_cons_self
      rw [List.map_cons, List.map_cons, weightAt, weightOf_wide hl]
      rcases hi : (FinMap.collect l)[i]? with _ | w
      · simp [cellWeight, hi]
      · simp only [cellWeight, hi, Option.map_some, Option.getD_some]
        rw [ih (fun l' hl' => hlists l' (List.mem_cons_of_mem _ hl')) (by simpa using hlen),
          BitVec.mul_assoc]

/-! ## One sum for both -/

theorem nodup_leafWeights {d : Dimension} {i : Nat} {l : List (Nat × Int)}
    (h : d.leafWeights i = .ok l) : (l.map Prod.fst).Nodup := by
  simp only [leafWeights, bind_eq_ok, Except.ok.injEq] at h
  obtain ⟨-, -, rfl⟩ := h
  exact (FinMap.nodup_keys _).sublist (List.filter_sublist.map _)

/-- The weighted leaves under each component of a coordinate, none where
the coordinate is rejected. -/
def leafLists (c : Cube) (coord : Coord) : List (List (Nat × Int)) :=
  match c.checkCoord coord, c.perDimension coord with
  | .ok _, .ok perDim => perDim
  | _, _ => []

theorem checkCoord_ok (h : InRange c.dimensions coord) : c.checkCoord coord = .ok () :=
  checkCoord_eq_ok.2 h

theorem perDimension_eq (h : InRange c.dimensions coord) :
    c.perDimension coord = .ok (c.leafLists coord) := by
  obtain ⟨ls, hls⟩ := perDimension_isOk h
  rw [leafLists, checkCoord_ok h, hls]

theorem nodup_leafLists (h : InRange c.dimensions coord) :
    ∀ l ∈ c.leafLists coord, (l.map Prod.fst).Nodup := by
  intro l hl
  obtain ⟨k, hk⟩ := List.mem_iff_getElem?.1 hl
  obtain ⟨hlen, hat⟩ := forall₂_iff_getElem?.1 (mapM_eq_ok.1 (perDimension_eq h))
  have hlt : k < (coord.zip c.dimensions).length := hlen ▸ (List.getElem?_eq_some_iff.1 hk).1
  exact nodup_leafWeights (hat k _ l (List.getElem?_eq_getElem hlt) hk)

theorem length_leafLists (h : InRange c.dimensions coord) :
    (c.leafLists coord).length = c.dimensions.length := by
  rw [(perDimension_at h (perDimension_eq h)).1, h.length_eq]

/-- A combination of leaves is a coordinate of numeric leaves. -/
theorem numericCoord_keys (h : InRange c.dimensions coord) {s : List (Nat × Int)}
    (hs : s ∈ (c.leafLists coord).sections) : NumericCoord c.dimensions (s.map Prod.fst) := by
  obtain ⟨hlen, hat⟩ := perDimension_at h (perDimension_eq h)
  obtain ⟨hlen', hmem⟩ := forall₂_iff_getElem?.1 (List.mem_sections.1 hs)
  refine forall₂_iff_getElem?.2 ⟨?_, fun k j d hj hd => ?_⟩
  · rw [List.length_map, hlen', length_leafLists h]
  · rw [List.getElem?_map, Option.map_eq_some_iff] at hj
    obtain ⟨e, he, rfl⟩ := hj
    have hk : k < (c.leafLists coord).length := hlen' ▸ (List.getElem?_eq_some_iff.1 he).1
    have hl := List.getElem?_eq_getElem hk
    have hi : k < coord.length := hlen ▸ hk
    have hw := hat k coord[k] d _ (List.getElem?_eq_getElem hi) hd hl
    exact ((mem_leafWeights hw).1 (hmem k e _ he hl)).2.1

theorem nodup_cellEntries (hc : c.WF) : (c.cellEntries.map Prod.fst).Nodup := by
  rw [cellEntries, Cube.rank, hc.layout]
  exact CellStore.nodup_keys_entries hc.cells

/-- The sum both reads narrow: each stored cell with the weight the lists
give it. -/
def storedSum (c : Cube) (perDim : List (List (Nat × Int))) : I128 :=
  (c.cellEntries.map fun e => weightAt (perDim.map wide) e.1 * e.2.toI128).sum

/-- **The sparse read** narrows the sum of the stored cells. -/
theorem get_eq_narrow (hc : c.WF) (h : InRange c.dimensions coord)
    (hleaf : c.allNumericLeaf coord = false) :
    c.get coord = narrow (c.storedSum (c.leafLists coord)) := by
  have hterm : ∀ e ∈ c.cellEntries,
      ((cellWeight ((c.leafLists coord).map FinMap.collect) e.1 1).map
        fun w => w * e.2.toI128).getD 0 =
        weightAt ((c.leafLists coord).map wide) e.1 * e.2.toI128 := by
    intro e he
    have hin := ((mem_cellEntries hc).1 (show (e.1, e.2) ∈ c.cellEntries from he)).1
    have hw := cellWeight_eq (nodup_leafLists h) (hin.length_eq.trans (length_leafLists h).symm) 1
    rw [one_mul] at hw
    rw [← hw]
    rcases cellWeight _ e.1 1 with _ | w
    · exact (zero_mul _).symm
    · rfl
  have hsum : (c.cellEntries.filterMap fun e =>
      (cellWeight ((c.leafLists coord).map FinMap.collect) e.1 1).map
        fun w => w * e.2.toI128).sum = c.storedSum (c.leafLists coord) := by
    rw [storedSum]
    generalize c.cellEntries = cells at hterm
    induction cells with
    | nil => rfl
    | cons e cells ih =>
      rw [List.map_cons, List.sum_cons, ← ih fun x hx => hterm x (List.mem_cons_of_mem _ hx),
        ← hterm e List.mem_cons_self, List.filterMap_cons]
      rcases (cellWeight _ e.1 1).map fun w => w * e.2.toI128 with _ | t
      · simp
      · simp
  simp only [get, checkCoord_ok h, perDimension_eq h, hleaf, bind, Except.bind, hsum,
    Bool.false_eq_true, if_false]

/-- The walk over the combinations, when each leaf has a value. -/
theorem foldlM_addCombo (read : Coord → I128) {leafValue : Coord → Except ModelError Fixed}
    {combos : List (List (Nat × Int))}
    (hread : ∀ s ∈ combos, ∃ v, leafValue (s.map Prod.fst) = .ok v ∧
      v.toI128 = read (s.map Prod.fst)) (acc : I128) :
    combos.foldlM (addCombo leafValue) acc =
      .ok (acc + ((combos.map wide).map fun s => weight s * read (keys s)).sum) := by
  induction combos generalizing acc with
  | nil => simp [pure, Except.pure]
  | cons s combos ih =>
    obtain ⟨v, hv, hvr⟩ := hread s List.mem_cons_self
    have hkeys : keys (wide s) = s.map Prod.fst := by simp [keys, wide, Function.comp_def]
    have hweight : weight (wide s) = (s.map fun e => BitVec.ofInt 128 e.2).prod := by
      simp [weight, wide, Function.comp_def]
    rw [List.foldlM_cons, addCombo, hv]
    simp only [bind, Except.bind, pure, Except.pure]
    rw [hvr, ih (fun s' hs' => hread s' (List.mem_cons_of_mem _ hs')), List.map_cons, List.map_cons,
      List.sum_cons, hkeys, hweight, BitVec.add_assoc]

/-- The combinations under a coordinate, each with its stored value, sum to
the stored cells under it. -/
theorem sum_sections_stored (hc : c.WF) (h : InRange c.dimensions coord) :
    (((c.leafLists coord).sections.map wide).map
      fun s => weight s * (c.leafValue (keys s)).toI128).sum =
        c.storedSum (c.leafLists coord) := by
  have hrows : ((c.cellEntries.map fun e => (e.1, e.2.toI128)).map Prod.fst).Nodup := by
    rw [List.map_map]
    exact nodup_cellEntries hc
  have hin : ∀ s ∈ ((c.leafLists coord).map wide).sections, InRange c.dimensions (keys s) := by
    intro s hs
    obtain ⟨t, ht, rfl⟩ := List.mem_map.1 ((sections_map _ _).symm ▸ hs)
    have hkeys : keys (wide t) = t.map Prod.fst := by simp [keys, wide, Function.comp_def]
    rw [show t.map (fun e => (e.1, BitVec.ofInt 128 e.2)) = wide t from rfl, hkeys]
    exact (numericCoord_keys h ht).inRange
  have hsum := sum_sections ((c.leafLists coord).map wide) (fun a => (c.leafValue a).toI128)
    hrows ?_ ?_
  · rw [List.map_map] at hsum
    exact (congrArg _ (congrArg _ (sections_map _ _).symm)).trans hsum
  · intro s _ v hv
    obtain ⟨e, he, heq⟩ := List.mem_map.1 hv
    obtain ⟨hkeys, rfl⟩ := Prod.mk.inj heq
    rw [← hkeys, leafValue, ((mem_cellEntries hc).1 (show (e.1, e.2) ∈ c.cellEntries from he)).2]
    rfl
  · intro s hs hns
    rcases hv : c.cells.get c.layout (keys s) with _ | v
    · simp [leafValue, hv]
    · refine absurd ?_ hns
      rw [List.map_map]
      exact List.mem_map.2 ⟨(keys s, v), (mem_cellEntries hc).2 ⟨hin s hs, hv⟩, rfl⟩

/-- Where some list is empty, the sum is. -/
theorem storedSum_of_prod_eq_zero (hc : c.WF) (h : InRange c.dimensions coord)
    (h0 : ((c.leafLists coord).map List.length).prod = 0) :
    c.storedSum (c.leafLists coord) = 0 := by
  rw [← sum_sections_stored hc h, ← map_choice_range, h0]
  rfl

/-- **The dense walk** narrows the same sum, once its combinations are
counted. -/
theorem consolidateWith_stored (hc : c.WF) (h : InRange c.dimensions coord)
    (hleaf : c.allNumericLeaf coord = false) :
    consolidateWith id c coord c.getLeaf =
      if ((headLists (c.leafLists coord)).map List.length).prod ≤ usizeMax then
        narrow (c.storedSum (c.leafLists coord))
      else .error .overflow := by
  have hvalue : ∀ s ∈ (c.leafLists coord).sections, ∃ v,
      c.getLeaf (s.map Prod.fst) = .ok v ∧ v.toI128 = (c.leafValue (s.map Prod.fst)).toI128 := by
    intro s hs
    refine ⟨c.leafValue (s.map Prod.fst), ?_, rfl⟩
    rw [getLeaf, checkCoord_ok (numericCoord_keys h hs).inRange]
    rfl
  have hwalk := foldlM_addCombo (fun a => (c.leafValue a).toI128) hvalue 0
  rw [zero_add, sum_sections_stored hc h] at hwalk
  simp only [consolidateWith, id, checkCoord_ok h, perDimension_eq h, hleaf, bind, Except.bind,
    comboCount_eq, Bool.false_eq_true, if_false]
  split_ifs with hfit
  · by_cases h0 : ((c.leafLists coord).map List.length).prod = 0
    · rw [okOr]
      simp only [if_pos h0, storedSum_of_prod_eq_zero hc h h0]
      rfl
    · rw [okOr]
      simp only [if_neg h0]
      rw [← List.foldlM_map, map_choice_range, hwalk]
  · rfl

/-- Both short-circuit at numeric leaves, and refuse the same coordinates. -/
theorem get_eq_consolidateWith_of_leaf (hleaf : InRange c.dimensions coord →
    c.allNumericLeaf coord = true) :
    c.get coord = consolidateWith id c coord c.getLeaf := by
  by_cases h : InRange c.dimensions coord
  · simp only [get, consolidateWith, id, checkCoord_ok h, hleaf h, bind, Except.bind, if_true,
      getLeaf]
  · rcases hcheck : c.checkCoord coord with e | ⟨⟩
    · simp only [get, consolidateWith, id, hcheck, bind, Except.bind]
    · exact absurd (checkCoord_eq_ok.1 hcheck) h

/-- The lists before the first empty one can be counted in a pointer-sized
integer. -/
def CountsToFirstEmpty (c : Cube) (coord : Coord) : Prop :=
  ((headLists (c.leafLists coord)).map List.length).prod ≤ usizeMax

instance (c : Cube) (coord : Coord) : Decidable (c.CountsToFirstEmpty coord) :=
  inferInstanceAs (Decidable (_ ≤ _))

/-- A numeric leaf is its own and only leaf. -/
theorem leafWeights_of_leaf {d : Dimension} {i : Nat} {l : List (Nat × Int)}
    (hi : d.kindAt i = some .leaf) (h : d.leafWeights i = .ok l) : l = [(i, 1)] := by
  have hroll : d.rollup i = [(i, 1)] := by
    rw [rollup, visits_cons_of_not_mem List.not_mem_nil]
    simp [along, rollupEdges, hi, Discipline.join]
  refine List.perm_singleton.1 ((List.perm_ext_iff_of_nodup
    (List.Nodup.of_map _ (nodup_leafWeights h)) (List.nodup_singleton _)).2 ?_)
  rintro ⟨j, w⟩
  rw [mem_leafWeights h, hroll, List.mem_singleton]
  refine ⟨fun hj => hj.1, fun hj => ?_⟩
  obtain ⟨rfl, rfl⟩ := Prod.mk.inj hj
  exact ⟨rfl, hi, one_ne_zero⟩

/-- At numeric leaves each list is the leaf itself. -/
theorem leafLists_of_leaf (hleaf : NumericCoord c.dimensions coord) :
    c.leafLists coord = coord.map fun i => [(i, 1)] := by
  have h := hleaf.inRange
  obtain ⟨hlen, hat⟩ := perDimension_at h (perDimension_eq h)
  refine List.ext_getElem? fun k => ?_
  rw [List.getElem?_map]
  by_cases hk : k < coord.length
  · have hi := List.getElem?_eq_getElem hk
    have hd := List.getElem?_eq_getElem (h.length_eq ▸ hk : k < c.dimensions.length)
    have hl := List.getElem?_eq_getElem (hlen ▸ hk : k < (c.leafLists coord).length)
    have hkind := (forall₂_iff_getElem?.1 hleaf).2 k _ _ hi hd
    rw [hi, hl, leafWeights_of_leaf hkind (hat k _ _ _ hi hd hl)]
    rfl
  · rw [List.getElem?_eq_none (Nat.not_lt.1 hk),
      List.getElem?_eq_none (Nat.not_lt.1 fun hlt => hk (hlen ▸ hlt))]
    rfl

theorem countsToFirstEmpty_of_leaf (hleaf : NumericCoord c.dimensions coord) :
    c.CountsToFirstEmpty coord := by
  have hprod : ((headLists (c.leafLists coord)).map List.length).prod = 1 := by
    refine List.prod_eq_one fun n hn => ?_
    obtain ⟨l, hl, rfl⟩ := List.mem_map.1 hn
    rw [leafLists_of_leaf hleaf] at hl
    obtain ⟨i, -, rfl⟩ := List.mem_map.1 (List.takeWhile_subset _ hl)
    rfl
  rw [CountsToFirstEmpty, hprod]
  decide

theorem headLists_eq {perDim : List (List (Nat × Int))}
    (h : (perDim.map List.length).prod ≠ 0) : headLists perDim = perDim := by
  refine List.takeWhile_eq_self_iff.2 fun l hl => ?_
  have : l ≠ [] := by
    rintro rfl
    exact h (List.prod_eq_zero (List.mem_map.2 ⟨[], hl, rfl⟩))
  simpa using this

/-- **The two reads agree** exactly when the count of the combinations gets
to the first empty list. -/
theorem get_eq_consolidateWith_iff (hc : c.WF) (coord : Coord)
    (hfit : ((c.leafLists coord).map List.length).prod ≤ usizeMax) :
    c.get coord = consolidateWith id c coord c.getLeaf ↔ c.CountsToFirstEmpty coord := by
  by_cases hleaf : InRange c.dimensions coord → c.allNumericLeaf coord = true
  · refine iff_of_true (get_eq_consolidateWith_of_leaf hleaf) ?_
    by_cases h : InRange c.dimensions coord
    · exact countsToFirstEmpty_of_leaf ((allNumericLeaf_eq_true h).1 (hleaf h))
    · rw [CountsToFirstEmpty, leafLists]
      rcases hcheck : c.checkCoord coord with e | ⟨⟩
      · simp [headLists, usizeMax]
      · exact absurd (checkCoord_eq_ok.1 hcheck) h
  · rw [Classical.not_imp, Bool.not_eq_true] at hleaf
    obtain ⟨h, hleaf⟩ := hleaf
    rw [get_eq_narrow hc h hleaf, consolidateWith_stored hc h hleaf]
    by_cases hhead : c.CountsToFirstEmpty coord
    · exact iff_of_true (if_pos hhead).symm hhead
    · -- past the bound, and yet the product fits: a later list is empty
      have h0 : ((c.leafLists coord).map List.length).prod = 0 := by
        by_contra hne
        rw [CountsToFirstEmpty, headLists_eq hne] at hhead
        exact hhead hfit
      rw [storedSum_of_prod_eq_zero hc h h0]
      refine iff_of_false ?_ hhead
      rw [CountsToFirstEmpty] at hhead
      rw [if_neg hhead]
      decide

/-- Both reads of the total add the amounts of two regions up. -/
theorem get_eq_consolidateWith_sales : ∃ start c : Cube,
    Cube.build "Sales" salesDefs = .ok start ∧ salesWrites.foldl Cube.apply start = c ∧
    c.get [2, 0] = .ok ⟨35000, by decide⟩ ∧
    c.get [2, 0] = consolidateWith id c [2, 0] c.getLeaf := by
  obtain ⟨start, hstart, h⟩ := exists_ok_of_any (x := Cube.build "Sales" salesDefs)
    (p := fun start =>
      let c := salesWrites.foldl Cube.apply start
      c.get [2, 0] = .ok ⟨35000, by decide⟩ ∧ c.CountsToFirstEmpty [2, 0] ∧
        ((c.leafLists [2, 0]).map List.length).prod ≤ usizeMax)
    (by decide +kernel)
  obtain ⟨hget, hcounts, hfit⟩ := of_decide_eq_true h
  have hwf := (WF.build hstart).calls salesWrites
  exact ⟨start, _, hstart, rfl, hget, (get_eq_consolidateWith_iff hwf [2, 0] hfit).2 hcounts⟩

/-- Dimensions of four leaves under a total each, before a dimension that is
one empty consolidation. -/
def manyDefs (n : Nat) : List DimensionDef :=
  ((List.range n).map fun i =>
    { name := "d" ++ toString i
      elements := [("a", .leaf), ("b", .leaf), ("c", .leaf), ("d", .leaf), ("T", .consolidated)]
      edges := [("T", "a", 1), ("T", "b", 1), ("T", "c", 1), ("T", "d", 1)]
      attributes := []
      attributeValues := [] }) ++
  [{ name := "e", elements := [("E", .consolidated)], edges := []
     attributes := [], attributeValues := [] }]

/-- The coordinate of the totals and the empty consolidation. -/
def totals (n : Nat) : Coord := List.replicate n 4 ++ [0]

/-- No leaf lies under the coordinate, and the count of the leaves under its
first 32 components is past a pointer-sized integer. -/
theorem get_ne_consolidateWith_many : ∃ c, Cube.build "Many" (manyDefs 32) = .ok c ∧
    ((c.leafLists (totals 32)).map List.length).prod ≤ usizeMax ∧
    c.get (totals 32) = .ok Fixed.zero ∧
    consolidateWith id c (totals 32) c.getLeaf = .error .overflow := by
  obtain ⟨c, hc, h⟩ := exists_ok_of_any (by decide +kernel :
    (Cube.build "Many" (manyDefs 32)).toOption.any (fun c =>
      ((c.leafLists (totals 32)).map List.length).prod ≤ usizeMax ∧
      c.get (totals 32) = .ok Fixed.zero ∧
      consolidateWith id c (totals 32) c.getLeaf = .error .overflow) = true)
  exact ⟨c, hc, of_decide_eq_true h⟩

end Cube

end Epiphany
