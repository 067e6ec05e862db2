import Epiphany.Core.Consolidate
/-!
# Exact reads — what a consolidated read should be, and when it is

The exact value of a coordinate is the sum over its leaf combinations of
the weights along the chosen paths times the stored value, in the integers
(`exactSum`). The read departs from it twice: a path's weight is clamped to
64 bits edge by edge, and the accumulator wraps at 128. `get_exact_iff`
says exactly when neither shows in the result, and `readsExactly_of_bounded`
that weights within 64 bits and a sum within 127 suffice.
-/

namespace Epiphany

open Sections Worklist

namespace Dimension

/-- The nodes a rollup visits, each with the product of the weights along
its chosen path. -/
def exactRollup (d : Dimension) (i : Nat) : List (Nat × Int) :=
  visits .queue d.rollupEdges (· * ·) (d.edgeCount + 1) [(i, 1)] []

/-- The numeric leaves under an element, with their exact weights. -/
def exactWeights (d : Dimension) (i : Nat) : List (Nat × Int) :=
  (d.exactRollup i).filter fun x => d.kindAt x.1 = some .leaf

end Dimension

/-- A number a value can hold. -/
def Fits (n : Int) : Prop := i64Min ≤ n ∧ n ≤ i64Max

instance (n : Int) : Decidable (Fits n) := inferInstanceAs (Decidable (_ ∧ _))

namespace Cube

variable {c : Cube} {coord : Coord}

def exactLists (c : Cube) (coord : Coord) : List (List (Nat × Int)) :=
  (coord.zip c.dimensions).map fun x => x.2.exactWeights x.1

/-- **The exact value of a coordinate.** -/
def exactSum (c : Cube) (coord : Coord) : Int :=
  ((c.exactLists coord).sections.map
    fun s => weight s * (c.leafValue (keys s)).toScaled).sum

/-- What clamping the weights adds to the exact sum: over the stored cells,
the clamped weight less the exact one, times the value. -/
def clampError (c : Cube) (coord : Coord) : Int :=
  (c.cellEntries.map fun e =>
    (weightAt (c.leafLists coord) e.1 - weightAt (c.exactLists coord) e.1) * e.2.toScaled).sum

/-- Neither clamping nor wrapping shows in a read: the exact sum fits and
the clamping error is a multiple of `2 ^ 128`, or it does not fit and no
value is congruent to the two together. -/
def ReadsExactly (c : Cube) (coord : Coord) : Prop :=
  (Fits (c.exactSum coord) ∧ (2 : Int) ^ 128 ∣ c.clampError coord) ∨
    (¬ Fits (c.exactSum coord) ∧ ∀ v : Fixed,
      ¬ (2 : Int) ^ 128 ∣ c.exactSum coord + c.clampError coord - v.toScaled)

/-- An exact number as a read's result. -/
def exactResult (n : Int) : Except ModelError Fixed := okOr (Fixed.tryFrom n) .overflow

/-! ## The exact sum over the cells -/

theorem length_exactLists (h : InRange c.dimensions coord) :
    (c.exactLists coord).length = c.dimensions.length := by
  rw [exactLists, List.length_map, List.length_zip, h.length_eq, min_self]

theorem numericCoord_exact (h : InRange c.dimensions coord) {s : List (Nat × Int)}
    (hs : s ∈ (c.exactLists coord).sections) : NumericCoord c.dimensions (keys s) := by
  obtain ⟨hlen, hmem⟩ := forall₂_iff_getElem?.1 (List.mem_sections.1 hs)
  refine forall₂_iff_getElem?.2 ⟨?_, fun k j d hj hd => ?_⟩
  · rw [keys, List.length_map, hlen, length_exactLists h]
  · rw [keys, List.getElem?_map, Option.map_eq_some_iff] at hj
    obtain ⟨e, he, rfl⟩ := hj
    have hk : k < coord.length := by
      rw [h.length_eq]
      exact (List.getElem?_eq_some_iff.1 hd).1
    have hzip : (coord.zip c.dimensions)[k]? = some (coord[k], d) :=
      List.getElem?_zip_eq_some.2 ⟨List.getElem?_eq_getElem hk, hd⟩
    have hl : (c.exactLists coord)[k]? = some (d.exactWeights coord[k]) := by
      rw [exactLists, List.getElem?_map, hzip]
      rfl
    exact of_decide_eq_true (List.mem_filter.1 (hmem k e _ he hl)).2

/-- The leaf combinations under a coordinate, or under the cells of the
store: one sum. -/
theorem exactSum_eq (hc : c.WF) (h : InRange c.dimensions coord) :
    c.exactSum coord =
      (c.cellEntries.map fun e => weightAt (c.exactLists coord) e.1 * e.2.toScaled).sum := by
  have hrows : ((c.cellEntries.map fun e => (e.1, e.2.toScaled)).map Prod.fst).Nodup := by
    rw [List.map_map]
    exact nodup_cellEntries hc
  rw [exactSum, sum_sections (c.exactLists coord) (fun a => (c.leafValue a).toScaled) hrows,
    List.map_map]
  · rfl
  · intro s _ v hv
    obtain ⟨e, he, heq⟩ := List.mem_map.1 hv
    obtain ⟨hkeys, rfl⟩ := Prod.mk.inj heq
    rw [← hkeys, leafValue, ((mem_cellEntries hc).1 (show (e.1, e.2) ∈ c.cellEntries from he)).2]
    rfl
  · intro s hs hns
    have hin := (numericCoord_exact h hs).inRange
    rcases hv : c.cells.get c.layout (keys s) with _ | v
    · simp [leafValue, hv]
    · refine absurd ?_ hns
      rw [List.map_map]
      exact List.mem_map.2 ⟨(keys s, v), (mem_cellEntries hc).2 ⟨hin, hv⟩, rfl⟩

/-- The accumulator of a read holds the exact sum and the clamping error,
modulo `2 ^ 128`. -/
theorem storedSum_eq (hc : c.WF) (h : InRange c.dimensions coord) :
    c.storedSum (c.leafLists coord) =
      BitVec.ofInt 128 (c.exactSum coord + c.clampError coord) := by
  have hcast : ∀ n : Int, BitVec.ofInt 128 n = Int.castRingHom I128 n := fun _ => rfl
  have hwide : ∀ l : List (Nat × Int), wide l = l.map fun e => (e.1, Int.castRingHom I128 e.2) :=
    fun _ => rfl
  have hlists : (c.leafLists coord).map wide =
      (c.leafLists coord).map (List.map fun e => (e.1, Int.castRingHom I128 e.2)) :=
    List.map_congr_left fun l _ => hwide l
  rw [exactSum_eq hc h, clampError, ← List.sum_map_add, hcast, map_list_sum, List.map_map,
    storedSum, hlists]
  refine congrArg _ (List.map_congr_left fun e _ => ?_)
  rw [weightAt_map, Function.comp_apply, Fixed.toI128, hcast, ← map_mul]
  congr 1
  ring

/-! ## The read -/

theorem narrow_ofInt (n : Int) :
    narrow (BitVec.ofInt 128 n) = exactResult (n.bmod (2 ^ 128)) := by
  rw [narrow, BitVec.toInt_ofInt]
  rfl

theorem bmod_of_fits {n : Int} (h : Fits n) : n.bmod (2 ^ 128) = n := by
  obtain ⟨h1, h2⟩ := h
  simp only [i64Min, i64Max] at h1 h2
  exact Int.bmod_eq_of_le_mul_two (by omega) (by omega)

/-- At numeric leaves too, the read is the sum of the cells under it. -/
theorem get_eq_narrow_of_inRange (hc : c.WF) (h : InRange c.dimensions coord) :
    c.get coord = narrow (c.storedSum (c.leafLists coord)) := by
  rcases hleaf : c.allNumericLeaf coord with _ | _
  · exact get_eq_narrow hc h hleaf
  · have hlists := leafLists_of_leaf ((allNumericLeaf_eq_true h).1 hleaf)
    have hone : (coord.map fun i => [(i, (1 : Int))]).sections = [coord.map fun i => (i, 1)] := by
      generalize coord = a
      induction a with
      | nil => rfl
      | cons i a ih => rw [List.map_cons, List.sections, ih]; rfl
    have hkeys : keys (wide (coord.map fun i => (i, (1 : Int)))) = coord := by
      simp [keys, wide, Function.comp_def]
    have hweight : weight (wide (coord.map fun i => (i, (1 : Int)))) = 1 := by
      refine List.prod_eq_one fun w hw => ?_
      simp only [wide, List.map_map, List.mem_map, Function.comp_apply] at hw
      obtain ⟨_, _, rfl⟩ := hw
      rfl
    rw [← sum_sections_stored hc h, hlists, hone]
    simp only [List.map_cons, List.map_nil, List.sum_cons, List.sum_nil, add_zero, hkeys, hweight,
      one_mul, Fixed.toI128, narrow_ofInt, bmod_of_fits (c.leafValue coord).inRange, exactResult,
      Fixed.tryFrom_toScaled]
    simp only [get, checkCoord_ok h, hleaf, bind, Except.bind, if_true, okOr]

theorem okOr_inj {o o' : Option Fixed} :
    okOr o ModelError.overflow = okOr o' .overflow ↔ o = o' := by
  cases o <;> cases o' <;> simp [okOr]

theorem tryFrom_eq_none {n : Int} : Fixed.tryFrom n = none ↔ ∀ v : Fixed, n ≠ v.toScaled := by
  rw [Option.eq_none_iff_forall_ne_some]
  exact forall_congr' fun v => not_congr Fixed.tryFrom_eq_some

/-- A wrapped number is a given one that fits when they are congruent. -/
theorem bmod_eq_iff_dvd {n : Int} (v : Fixed) :
    n.bmod (2 ^ 128) = v.toScaled ↔ (2 : Int) ^ 128 ∣ n - v.toScaled := by
  have hv := bmod_of_fits v.inRange
  have hdvd : (2 : Int) ^ 128 ∣ n - v.toScaled ↔ n.bmod (2 ^ 128) = v.toScaled.bmod (2 ^ 128) := by
    rw [Int.bmod_eq_bmod_iff_bmod_sub_eq_zero, ← Int.dvd_iff_bmod_eq_zero]
    rfl
  rw [hdvd, hv]

/-- **A read is exact or reports overflow** exactly when neither the clamped
weights nor the wrapped sum show in it. -/
theorem get_exact_iff (hc : c.WF) (h : InRange c.dimensions coord) :
    c.get coord = exactResult (c.exactSum coord) ↔ c.ReadsExactly coord := by
  rw [get_eq_narrow_of_inRange hc h, storedSum_eq hc h, narrow_ofInt, exactResult, exactResult,
    okOr_inj, ReadsExactly]
  by_cases hfit : Fits (c.exactSum coord)
  · have hsome : Fixed.tryFrom (c.exactSum coord) = some ⟨c.exactSum coord, hfit⟩ :=
      Fixed.tryFrom_eq_some.2 rfl
    rw [hsome, Fixed.tryFrom_eq_some, bmod_eq_iff_dvd, add_sub_cancel_left]
    simp [hfit]
  · have hnone : Fixed.tryFrom (c.exactSum coord) = none := dif_neg hfit
    rw [hnone, tryFrom_eq_none]
    simp only [hfit, false_and, not_false_eq_true, true_and, false_or]
    exact forall_congr' fun v => not_congr (bmod_eq_iff_dvd v)

/-- The amounts of both regions add up to a total that fits. -/
theorem get_exact_sales : ∃ start c : Cube, Cube.build "Sales" salesDefs = .ok start ∧
    salesWrites.foldl Cube.apply start = c ∧ c.exactSum [2, 0] = 35000 ∧
    c.get [2, 0] = exactResult (c.exactSum [2, 0]) := by
  obtain ⟨start, hstart, h⟩ := exists_ok_of_any (x := Cube.build "Sales" salesDefs)
    (p := fun start =>
      let c := salesWrites.foldl Cube.apply start
      (c.checkCoord [2, 0]).isOk ∧ c.exactSum [2, 0] = 35000 ∧ c.clampError [2, 0] = 0)
    (by decide +kernel)
  obtain ⟨hin, hsum, hclamp⟩ := of_decide_eq_true h
  obtain ⟨⟨⟩, hin⟩ := exists_of_isOk hin
  have hwf := (WF.build hstart).calls salesWrites
  refine ⟨start, _, hstart, rfl, hsum, (get_exact_iff hwf (checkCoord_eq_ok.1 hin)).2 ?_⟩
  exact .inl ⟨by rw [hsum]; decide, by rw [hclamp]; exact dvd_zero _⟩

/-- A leaf under two consolidations, by edges whose weights multiply past 64
bits. -/
def steepDefs : List DimensionDef :=
  [⟨"Region", [("North", .leaf), ("Europe", .consolidated), ("World", .consolidated)],
    [("World", "Europe", 2 ^ 62), ("Europe", "North", 4)], [], []⟩]

/-- The leaf holds one ten-thousandth; the total is `2 ^ 64` of them, and
the read returns `2 ^ 63 - 1`. -/
theorem get_ne_exact_steep : ∃ c c', Cube.build "Steep" steepDefs = .ok c ∧
    c.setLeaf [0] ((Fixed.tryFrom 1).getD Fixed.zero) = .ok c' ∧
    exactResult (c'.exactSum [2]) = .error .overflow ∧
    c'.get [2] = .ok ((Fixed.tryFrom i64Max).getD Fixed.zero) := by
  obtain ⟨c, hc, h⟩ := exists_ok_of_any (by decide +kernel :
    (Cube.build "Steep" steepDefs).toOption.any (fun c =>
      (c.setLeaf [0] ((Fixed.tryFrom 1).getD Fixed.zero)).toOption.any fun c' =>
        exactResult (c'.exactSum [2]) = .error .overflow ∧
        c'.get [2] = .ok ((Fixed.tryFrom i64Max).getD Fixed.zero)) = true)
  obtain ⟨c', hc', h⟩ := exists_ok_of_any h
  exact ⟨c, c', hc, hc', of_decide_eq_true h⟩

/-! ## Where the departures cannot show -/

/-- An exact weight within 64 bits is the clamped one. -/
def Agrees (w e : Int) : Prop := |e| ≤ i64Max → w = e

theorem Agrees.step (p p' w : Int) (h : Agrees p p') : Agrees (saturatingMul p w) (p' * w) := by
  intro hle
  rcases eq_or_ne w 0 with rfl | hw
  · simp [saturatingMul, i64Min, i64Max]
  · -- a further edge only makes the weight larger, so it was within before
    have hp : |p'| ≤ i64Max := by
      refine le_trans ?_ hle
      rw [abs_mul]
      exact le_mul_of_one_le_right (abs_nonneg _) (Int.one_le_abs hw)
    rw [h hp, saturatingMul]
    obtain ⟨h1, h2⟩ := abs_le.1 hle
    have : i64Min ≤ p' * w := le_trans (by simp [i64Min, i64Max]) h1
    rw [min_eq_right h2, max_eq_right this]

theorem rollup_paired (d : Dimension) (i : Nat) :
    List.Forall₂ (Paired Agrees) (d.rollup i) (d.exactRollup i) :=
  visits_paired Agrees.step (List.Forall₂.cons ⟨rfl, fun _ => rfl⟩ List.Forall₂.nil)

theorem nodup_exactWeights (d : Dimension) (i : Nat) : ((d.exactWeights i).map Prod.fst).Nodup :=
  (visits_nodup _ _ _).1.sublist (List.filter_sublist.map _)

/-- Where every exact weight is within 64 bits, no weight is clamped. -/
theorem weightOf_leafWeights {d : Dimension} {i : Nat} {l : List (Nat × Int)}
    (h : d.leafWeights i = .ok l) (hbound : ∀ e ∈ d.exactWeights i, |e.2| ≤ i64Max) (j : Nat) :
    weightOf l j = weightOf (d.exactWeights i) j := by
  have hnodup := nodup_leafWeights h
  by_cases hj : j ∈ (d.exactWeights i).map Prod.fst
  · obtain ⟨⟨j, e⟩, he, rfl⟩ := List.mem_map.1 hj
    obtain ⟨hroll, hkind⟩ := List.mem_filter.1 he
    obtain ⟨w, hw, hagree⟩ := Paired.exists_left (rollup_paired d i) hroll
    obtain rfl := hagree (hbound _ he)
    rw [weightOf_of_mem (nodup_exactWeights d i) he]
    by_cases h0 : w = 0
    · rw [h0]
      refine weightOf_of_not_mem fun hmem => ?_
      -- the list keeps no zero weights
      obtain ⟨⟨j, w'⟩, hw', rfl⟩ := List.mem_map.1 hmem
      obtain ⟨hroll', -, hne⟩ := (Dimension.mem_leafWeights h).1 hw'
      exact hne ((FinMap.functional_of_nodup (visits_nodup _ _ _).1 j w' w hroll' hw).trans h0)
    · exact weightOf_of_mem hnodup
        ((Dimension.mem_leafWeights h).2 ⟨hw, of_decide_eq_true hkind, h0⟩)
  · rw [weightOf_of_not_mem hj]
    refine weightOf_of_not_mem fun hmem => hj ?_
    obtain ⟨⟨j, w⟩, hw, rfl⟩ := List.mem_map.1 hmem
    obtain ⟨hroll, hkind, -⟩ := (Dimension.mem_leafWeights h).1 hw
    obtain ⟨e, he, -⟩ := Paired.exists_right (rollup_paired d i) hroll
    exact List.mem_map.2 ⟨(j, e), List.mem_filter.2 ⟨he, decide_eq_true hkind⟩, rfl⟩

theorem clampError_of_bounded (h : InRange c.dimensions coord)
    (hbound : ∀ l ∈ c.exactLists coord, ∀ e ∈ l, |e.2| ≤ i64Max) : c.clampError coord = 0 := by
  have hlists : List.Forall₂ (fun l l' => ∀ k, weightOf l k = weightOf l' k)
      (c.leafLists coord) (c.exactLists coord) := by
    have hweights := forall₂_iff_getElem?.1 (mapM_eq_ok.1 (perDimension_eq h))
    refine forall₂_iff_getElem?.2 ⟨?_, fun k l l' hl hl' => ?_⟩
    · rw [length_leafLists h, length_exactLists h]
    · rw [exactLists, List.getElem?_map, Option.map_eq_some_iff] at hl'
      obtain ⟨x, hx, rfl⟩ := hl'
      refine weightOf_leafWeights (hweights.2 k x l hx hl) (hbound _ ?_)
      exact List.mem_map.2 ⟨x, List.mem_of_getElem? hx, rfl⟩
  rw [clampError]
  refine List.sum_eq_zero fun x hx => ?_
  obtain ⟨e, -, rfl⟩ := List.mem_map.1 hx
  rw [weightAt_congr hlists, sub_self, zero_mul]

/-- **Reads are exact** where the weights of the leaves are within 64 bits
and the sum within 127. -/
theorem readsExactly_of_bounded (h : InRange c.dimensions coord)
    (hbound : ∀ l ∈ c.exactLists coord, ∀ e ∈ l, |e.2| ≤ i64Max)
    (hsum : |c.exactSum coord| < 2 ^ 127) : c.ReadsExactly coord := by
  rw [ReadsExactly, clampError_of_bounded h hbound, add_zero]
  by_cases hfit : Fits (c.exactSum coord)
  · exact Or.inl ⟨hfit, dvd_zero _⟩
  · refine Or.inr ⟨hfit, fun v hdvd => hfit ?_⟩
    obtain ⟨h1, h2⟩ := abs_lt.1 hsum
    obtain ⟨h3, h4⟩ := v.inRange
    have h0 : c.exactSum coord - v.toScaled = 0 := by
      refine Int.eq_zero_of_abs_lt_dvd hdvd ?_
      rw [abs_lt]
      simp only [i64Min, i64Max] at h3 h4
      constructor <;> omega
    rw [sub_eq_zero.1 h0]
    exact v.inRange

end Cube

end Epiphany
