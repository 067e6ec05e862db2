import Epiphany.Core.Consolidate
/-!
# Leaf writes — cubes of one shape, and what a write changes

Two cubes of the same dimensions check, classify and expand a coordinate in
the same way. A write of a leaf keeps the dimensions and changes the value
of that leaf only; writes of leaves are accepted one after the other, and
each is read back when no leaf is written twice (`setLeaves_ok`).
-/

namespace Epiphany

open Worklist Dimension

namespace Cube

variable {c c' : Cube} {target : Coord}

/-! ## Cubes of one shape -/

theorem checkCoord_congr (h : c'.dimensions = c.dimensions) :
    c'.checkCoord target = c.checkCoord target := by
  unfold checkCoord rank
  rw [h]

theorem allNumericLeaf_congr (h : c'.dimensions = c.dimensions) :
    c'.allNumericLeaf target = c.allNumericLeaf target := by
  simp only [allNumericLeaf, h]

theorem perDimension_congr (h : c'.dimensions = c.dimensions) :
    c'.perDimension target = c.perDimension target := by
  simp only [perDimension, h]

theorem leafLists_congr (h : c'.dimensions = c.dimensions) :
    c'.leafLists target = c.leafLists target := by
  rw [leafLists, leafLists, checkCoord_congr h, perDimension_congr h]

/-- The dense walk takes the dimensions of its cube only. -/
theorem consolidateWith_congr {m : Type → Type} [Monad m]
    (lift : {α : Type} → Except ModelError α → m α) (h : c'.dimensions = c.dimensions)
    (coord : Coord) (leafValue : Coord → m Fixed) :
    consolidateWith lift c' coord leafValue = consolidateWith lift c coord leafValue := by
  simp only [consolidateWith, checkCoord_congr h, allNumericLeaf_congr h, perDimension_congr h]

/-! ## Leaves -/

/-- No numeric leaf lies under a string. -/
theorem leafWeights_of_string {d : Dimension} {i : Nat} {l : List (Nat × Int)}
    (hi : d.kindAt i = some .string) (h : d.leafWeights i = .ok l) : l = [] := by
  have hroll : d.rollup i = [(i, 1)] := by
    rw [rollup, visits_cons_of_not_mem List.not_mem_nil]
    simp [along, rollupEdges, hi, Discipline.join]
  refine List.eq_nil_iff_forall_not_mem.2 ?_
  rintro ⟨j, w⟩ hj
  obtain ⟨hmem, hkind, -⟩ := (mem_leafWeights h).1 hj
  rw [hroll, List.mem_singleton] at hmem
  obtain ⟨rfl, -⟩ := Prod.mk.inj hmem
  rw [hi] at hkind
  cases hkind

/-- A number read at a coordinate of leaves with a string among them is
zero. -/
theorem get_of_string (hc : c.WF) (h : InRange c.dimensions target)
    (hleaf : c.allNumericLeaf target = false)
    (hall : ∀ (k i : Nat) (d : Dimension), target[k]? = some i → c.dimensions[k]? = some d →
      d.kindAt i = some .leaf ∨ d.kindAt i = some .string) :
    c.get target = .ok Fixed.zero := by
  obtain ⟨k, i, d, hi, hd, hk⟩ : ∃ (k i : Nat) (d : Dimension), target[k]? = some i ∧
      c.dimensions[k]? = some d ∧ d.kindAt i ≠ some .leaf := by
    by_contra hnone
    refine Bool.false_ne_true (hleaf.symm.trans ((allNumericLeaf_eq_true h).2 ?_))
    refine forall₂_iff_getElem?.2 ⟨h.length_eq, fun k i d hi hd => ?_⟩
    by_contra hk
    exact hnone ⟨k, i, d, hi, hd, hk⟩
  have hstring := (hall k i d hi hd).resolve_left hk
  obtain ⟨hlen, hat⟩ := perDimension_at h (perDimension_eq h)
  have hlt : k < (c.leafLists target).length := hlen ▸ (List.getElem?_eq_some_iff.1 hi).1
  have hl := List.getElem?_eq_getElem hlt
  have hnil := leafWeights_of_string hstring (hat k i d _ hi hd hl)
  rw [get_eq_narrow hc h hleaf, storedSum_of_prod_eq_zero hc h]
  · decide +kernel
  · exact List.prod_eq_zero (List.mem_map.2 ⟨_, List.getElem_mem hlt, by rw [hnil]; rfl⟩)

/-! ## Writes -/

/-- Write a list of leaves, one after the other. -/
def setLeaves (c : Cube) (writes : List (Coord × Fixed)) : Except ModelError Cube :=
  writes.foldlM (fun c w => c.setLeaf w.1 w.2) c

/-- A write of a leaf keeps all but the numbers. -/
theorem setLeaf_frame {a : Coord} {v : Fixed} (h : c.setLeaf a v = .ok c') :
    c'.name = c.name ∧ c'.dimensions = c.dimensions ∧ c'.layout = c.layout ∧
      c'.stringCells = c.stringCells ∧ c'.stringPool = c.stringPool := by
  simp only [setLeaf, bind_eq_ok, Except.ok.injEq] at h
  obtain ⟨-, -, rfl⟩ := h
  exact ⟨rfl, rfl, rfl, rfl, rfl⟩

/-- A write is read back, and no other cell changes. -/
theorem leafValue_setLeaf (hc : c.WF) {a b : Coord} {v : Fixed} (h : c.setLeaf a v = .ok c')
    (hb : InRange c.dimensions b) :
    c'.dimensions = c.dimensions ∧ c'.leafValue b = if a = b then v else c.leafValue b := by
  simp only [setLeaf, bind_eq_ok, checkLeafWrite_eq_ok, Except.ok.injEq] at h
  obtain ⟨-, hnum, rfl⟩ := h
  have ha := hnum.inRange
  refine ⟨rfl, ?_⟩
  simp only [leafValue, hc.layout]
  split_ifs with hz hab hab
  · rw [CellStore.get_clear ha hb, if_pos hab]
    exact (Fixed.isZero_eq_true.1 hz).symm
  · rw [CellStore.get_clear ha hb, if_neg hab]
  · rw [CellStore.get_put ha hb, if_pos hab]
    rfl
  · rw [CellStore.get_put ha hb, if_neg hab]

theorem setLeaf_ok {a : Coord} (ha : NumericCoord c.dimensions a) (v : Fixed) :
    ∃ c', c.setLeaf a v = .ok c' := by
  have hcheck : c.checkLeafWrite a = .ok () := checkLeafWrite_eq_ok.2 ha
  rw [setLeaf, hcheck]
  exact ⟨_, rfl⟩

/-- Writes at numeric leaves are accepted, and each is read back when no
leaf is written twice. -/
theorem setLeaves_ok (hc : c.WF) {writes : List (Coord × Fixed)}
    (hnum : ∀ w ∈ writes, NumericCoord c.dimensions w.1) (hnodup : (writes.map Prod.fst).Nodup) :
    ∃ c', c.setLeaves writes = .ok c' ∧ c'.WF ∧ c'.dimensions = c.dimensions ∧
      (∀ w ∈ writes, c'.leafValue w.1 = w.2) ∧
      ∀ b, InRange c.dimensions b → b ∉ writes.map Prod.fst → c'.leafValue b = c.leafValue b := by
  induction writes generalizing c with
  | nil =>
    exact ⟨c, rfl, hc, rfl, fun w hw => absurd hw List.not_mem_nil, fun _ _ _ => rfl⟩
  | cons w writes ih =>
    rw [List.map_cons, List.nodup_cons] at hnodup
    have hw := hnum w List.mem_cons_self
    obtain ⟨c₁, h₁⟩ := setLeaf_ok hw w.2
    have hread := fun b hb => leafValue_setLeaf (b := b) hc h₁ hb
    have hdims := (hread _ hw.inRange).1
    obtain ⟨c', h', hc', hdims', hwrites, hrest⟩ := ih (hc.setLeaf h₁)
      (fun x hx => hdims ▸ hnum x (List.mem_cons_of_mem _ hx)) hnodup.2
    refine ⟨c', bind_eq_ok.2 ⟨c₁, h₁, h'⟩, hc', hdims'.trans hdims, ?_, ?_⟩
    · intro x hx
      rcases List.mem_cons.1 hx with rfl | hx
      · rw [hrest _ (hdims ▸ hw.inRange) hnodup.1, (hread _ hw.inRange).2, if_pos rfl]
      · exact hwrites x hx
    · intro b hb hmem
      rw [List.map_cons, List.mem_cons, not_or] at hmem
      rw [hrest b (hdims ▸ hb) hmem.2, (hread b hb).2, if_neg (Ne.symm hmem.1)]

end Cube

end Epiphany
