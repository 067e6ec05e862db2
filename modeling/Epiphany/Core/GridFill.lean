import Epiphany.Core.Query
/-!
# Filling a grid — in bands as from left to right

The workers of a parallel fill each take a band of rows. Whatever their
number, and whichever cells fail, the grid or the error is that of reading
the cells one after the other (`fillGridParallel_eq_serial`).
-/

namespace Epiphany

namespace Query

open Bands

variable (cellAt : Nat → Nat → Except QueryError CellOut)

/-- The cells of a grid, row by row. -/
def gridCells (nrows ncols : Nat) : List (Except QueryError CellOut) :=
  (List.range (nrows * ncols)).map fun k => cellAt (k / ncols) (k % ncols)

def blankCell : CellOut := CellOut.numeric Fixed.zero

theorem mapM_id_map {ε α β : Type} (f : α → Except ε β) (l : List α) :
    (l.map f).mapM id = l.mapM f := by
  rw [List.mapM_map]
  rfl

/-- A row of a grid, cell by cell. -/
theorem map_row_cells {ncols : Nat} (r : Nat) :
    ((List.range ncols).map fun c => ncols * r + c).map
        (fun k => cellAt (k / ncols) (k % ncols)) =
      (List.range ncols).map (cellAt r) := by
  rw [List.map_map]
  refine List.map_congr_left fun c hc => ?_
  have hlt := List.mem_range.1 hc
  have hdiv : (ncols * r + c) / ncols = r := by
    rw [Nat.mul_add_div (by omega), Nat.div_eq_of_lt hlt, Nat.add_zero]
  have hmod : (ncols * r + c) % ncols = c := by
    rw [Nat.mul_add_mod, Nat.mod_eq_of_lt hlt]
  simp only [Function.comp_apply, hdiv, hmod]

theorem gridCells_eq_flatMap (nrows ncols : Nat) :
    gridCells cellAt nrows ncols =
      (List.range nrows).flatMap fun r => (List.range ncols).map (cellAt r) := by
  unfold gridCells
  rw [Nat.mul_comm, Sections.range_mul, List.map_flatMap]
  exact List.flatMap_congr fun r _ => map_row_cells cellAt r

/-- The serial fill reads the cells in their order. -/
theorem fillGridSerial_eq (nrows ncols : Nat) :
    fillGridSerial cellAt nrows ncols = (gridCells cellAt nrows ncols).mapM id := by
  rw [gridCells_eq_flatMap]
  unfold fillGridSerial
  generalize List.range nrows = rs
  induction rs with
  | nil => rfl
  | cons r rs ih =>
    rw [List.flatMap_cons, List.mapM_append, ← ih, mapM_id_map, List.mapM_cons]
    simp only [bind_assoc, pure_bind]
    rcases (List.range ncols).mapM (cellAt r) with e | row
    · rfl
    · rcases rs.mapM (fun r => (List.range ncols).mapM (cellAt r)) with e | rows <;> rfl

/-! ## One band -/

theorem zipIdx_range (n k : Nat) :
    (List.range n).zipIdx k = (List.range n).map fun c => (c, k + c) := by
  refine List.ext_getElem (by simp) fun i hi _ => ?_
  rw [List.length_zipIdx, List.length_range] at hi
  simp [List.getElem_zipIdx]

/-- A cell of a band is one step of the run over its cells. -/
theorem bandCell_eq (ncols r0 rr c : Nat) (st : List CellOut × Option (Nat × QueryError)) :
    bandCell cellAt ncols r0 rr st c =
      bandStep (r0 * ncols) st (cellAt (r0 + rr) c, rr * ncols + c) := by
  have hplace : (r0 + rr) * ncols + c = r0 * ncols + (rr * ncols + c) := by
    rw [Nat.add_mul, Nat.add_assoc]
  unfold bandCell bandStep
  dsimp only
  rw [hplace]
  rcases cellAt (r0 + rr) c with e | v <;> rfl

/-- The cells of a band of rows, as the part of the grid that they are. -/
theorem drop_take_gridCells {nrows ncols r0 n : Nat} (h : r0 + n ≤ nrows) :
    ((gridCells cellAt nrows ncols).drop (r0 * ncols)).take (n * ncols) =
      (List.range n).flatMap fun rr => (List.range ncols).map (cellAt (r0 + rr)) := by
  have hrange : (List.range nrows) =
      List.range r0 ++ ((List.range n).map fun rr => r0 + rr) ++
        (List.range (nrows - (r0 + n))).map fun rr => r0 + n + rr := by
    rw [← List.range_add, ← List.range_add]
    congr 1
    omega
  have hlen : ∀ (rs : List Nat),
      (rs.flatMap fun r => (List.range ncols).map (cellAt r)).length = rs.length * ncols := by
    intro rs
    simp [List.length_flatMap]
  rw [gridCells_eq_flatMap, hrange, List.flatMap_append, List.flatMap_append, List.append_assoc,
    List.drop_left' (by rw [hlen, List.length_range]),
    List.take_left' (by rw [hlen, List.length_map, List.length_range]), List.flatMap_map]

/-- The rows of a band, as one run over its cells. -/
theorem fillBand_eq {nrows ncols r0 n : Nat} (hcols : 0 < ncols) (h : r0 + n ≤ nrows) :
    fillBand cellAt ncols r0 (List.replicate (n * ncols) blankCell) =
      (values blankCell (((gridCells cellAt nrows ncols).drop (r0 * ncols)).take (n * ncols)),
        firstError (r0 * ncols)
          (((gridCells cellAt nrows ncols).drop (r0 * ncols)).take (n * ncols))) := by
  rw [drop_take_gridCells cellAt h]
  generalize hcs : ((List.range n).flatMap fun rr => (List.range ncols).map (cellAt (r0 + rr))) = cs
  have hlen : cs.length = n * ncols := by
    rw [← hcs]
    simp [List.length_flatMap]
  rw [← hlen, ← foldl_bandStep blankCell (r0 * ncols) cs]
  unfold fillBand
  dsimp only
  rw [List.length_replicate, hlen, Nat.mul_div_cancel n hcols]
  -- the loops over rows and columns run through the cells with their slots
  have hloop : ∀ (m : Nat) (st : List CellOut × Option (Nat × QueryError)), m ≤ n →
      ((List.range m).foldl
        (fun st rr => (List.range ncols).foldl (bandCell cellAt ncols r0 rr) st) st) =
      (((List.range m).flatMap fun rr => (List.range ncols).map (cellAt (r0 + rr))).zipIdx).foldl
        (bandStep (r0 * ncols)) st := by
    intro m st hm
    induction m with
    | zero => rfl
    | succ m ih =>
      have hrow : ((List.range m).flatMap
          fun rr => (List.range ncols).map (cellAt (r0 + rr))).length = m * ncols := by
        simp [List.length_flatMap]
      rw [List.range_succ, List.foldl_append, List.flatMap_append, List.zipIdx_append,
        List.foldl_append, ih (by omega), List.flatMap_singleton, hrow, Nat.zero_add]
      simp only [List.foldl_cons, List.foldl_nil]
      rw [List.zipIdx_map, List.foldl_map, zipIdx_range, List.foldl_map]
      refine congrArg (fun f => List.foldl f _ (List.range ncols)) ?_
      funext st' c
      exact bandCell_eq cellAt ncols r0 m c st'
  rw [hloop n _ (le_refl n), hcs]

/-! ## The grid -/

/-- The place where a band starts, and the rows that are in it. -/
theorem drop_take_replicate (nrows ncols rowsPer b : Nat) :
    ((List.replicate (nrows * ncols) blankCell).drop (b * (rowsPer * ncols))).take
        (rowsPer * ncols) =
      List.replicate (min rowsPer (nrows - b * rowsPer) * ncols) blankCell := by
  rw [List.drop_replicate, List.take_replicate]
  congr 1
  rw [← Nat.mul_assoc, ← Nat.sub_mul]
  rcases Nat.le_total rowsPer (nrows - b * rowsPer) with hle | hle
  · rw [Nat.min_eq_left hle, Nat.min_eq_left (Nat.mul_le_mul_right ncols hle)]
  · rw [Nat.min_eq_right hle, Nat.min_eq_right (Nat.mul_le_mul_right ncols hle)]

theorem zipIdx_map_range {α : Type} (f : Nat → α) (n : Nat) :
    ((List.range n).map f).zipIdx = (List.range n).map fun b => (f b, b) := by
  rw [List.zipIdx_map, zipIdx_range, List.map_map]
  refine List.map_congr_left fun b _ => ?_
  simp

/-- The bands of a grid that is not empty, as they are filled. -/
theorem fillBands_eq {nrows ncols rowsPer : Nat} (hcols : 0 < ncols) (hper : 0 < rowsPer) :
    ((bandsOf (rowsPer * ncols) (List.replicate (nrows * ncols) blankCell)).zipIdx.map fun x =>
        fillBand cellAt ncols (x.2 * rowsPer) x.1) =
      (List.range ((nrows * ncols + rowsPer * ncols - 1) / (rowsPer * ncols))).map fun b =>
        (values blankCell (((gridCells cellAt nrows ncols).drop (b * (rowsPer * ncols))).take
            (rowsPer * ncols)),
          firstError (b * (rowsPer * ncols))
            (((gridCells cellAt nrows ncols).drop (b * (rowsPer * ncols))).take
              (rowsPer * ncols))) := by
  have hlen : (gridCells cellAt nrows ncols).length = nrows * ncols := by simp [gridCells]
  unfold bandsOf
  rw [zipIdx_map_range, List.map_map, List.length_replicate]
  refine List.map_congr_left fun b hb => ?_
  -- a band starts within the grid
  have hpos : 0 < rowsPer * ncols := Nat.mul_pos hper hcols
  have hstart : b * (rowsPer * ncols) < nrows * ncols := by
    have hlt := List.mem_range.1 hb
    have hmul := (Nat.le_div_iff_mul_le hpos).1 (Nat.succ_le_of_lt hlt)
    rw [Nat.succ_mul] at hmul
    omega
  have hrow : b * rowsPer < nrows := by
    rw [← Nat.mul_assoc] at hstart
    exact Nat.lt_of_mul_lt_mul_right hstart
  have hfit : b * rowsPer + min rowsPer (nrows - b * rowsPer) ≤ nrows := by omega
  dsimp only [Function.comp_apply]
  rw [drop_take_replicate, fillBand_eq cellAt hcols hfit, Nat.mul_assoc]
  -- the last band has the cells that are left
  have htake : ((gridCells cellAt nrows ncols).drop (b * (rowsPer * ncols))).take
        (min rowsPer (nrows - b * rowsPer) * ncols) =
      ((gridCells cellAt nrows ncols).drop (b * (rowsPer * ncols))).take (rowsPer * ncols) := by
    rcases Nat.le_total rowsPer (nrows - b * rowsPer) with hle | hle
    · rw [Nat.min_eq_left hle]
    · have hrest : ((gridCells cellAt nrows ncols).drop (b * (rowsPer * ncols))).length =
          (nrows - b * rowsPer) * ncols := by
        rw [List.length_drop, hlen, ← Nat.mul_assoc, Nat.sub_mul]
      rw [Nat.min_eq_right hle, List.take_of_length_le (le_of_eq hrest),
        List.take_of_length_le (hrest ▸ Nat.mul_le_mul_right ncols hle)]
  rw [htake]

/-- The parallel fill gives the cells in their order, or the error of the first
that fails. -/
theorem fillGridParallel_eq (nrows ncols : Nat) {workers : Nat} (hworkers : 0 < workers) :
    fillGridParallel cellAt nrows ncols workers = (gridCells cellAt nrows ncols).mapM id := by
  have hlen : (gridCells cellAt nrows ncols).length = nrows * ncols := by simp [gridCells]
  rw [mapM_id_eq 0 blankCell]
  by_cases hempty : nrows * ncols = 0
  · -- no band is cut from an empty grid
    have hcells : gridCells cellAt nrows ncols = [] := List.length_eq_zero_iff.1 (hlen.trans hempty)
    have hbands : ∀ len, 0 < len → bandsOf len ([] : List CellOut) = [] := by
      intro len hpos
      unfold bandsOf
      rw [List.length_nil, Nat.zero_add, Nat.div_eq_of_lt (by omega)]
      rfl
    unfold fillGridParallel
    dsimp only
    rw [hempty, List.replicate_zero, hbands _ (by omega), hcells]
    rfl
  · have hcols : 0 < ncols := Nat.pos_of_ne_zero fun h => hempty (by rw [h, Nat.mul_zero])
    have hrows : 0 < nrows := Nat.pos_of_ne_zero fun h => hempty (by rw [h, Nat.zero_mul])
    have hper : 0 < (nrows + workers - 1) / workers := Nat.div_pos (by omega) hworkers
    have hpos := Nat.mul_pos hper hcols
    have hbands := @fillBands_eq cellAt nrows ncols _ hcols hper
    unfold blankCell at hbands
    unfold fillGridParallel
    dsimp only
    rw [Nat.max_eq_left hpos, hbands, List.filterMap_map, List.flatMap_map]
    generalize (nrows + workers - 1) / workers * ncols = len at hpos
    generalize hcount : (nrows * ncols + len - 1) / len = n
    have hall : (gridCells cellAt nrows ncols).take (n * len) = gridCells cellAt nrows ncols := by
      refine List.take_of_length_le ?_
      rw [hlen, ← hcount]
      exact le_ceil_mul hpos
    have hlow := lowest_bands len (gridCells cellAt nrows ncols) n
    have hvalues := flatMap_bands (values blankCell (gridCells cellAt nrows ncols)) len n
    rw [hall] at hlow
    unfold bandErrors at hlow
    unfold values at hvalues
    simp only [← List.map_drop, ← List.map_take, hall] at hvalues
    simp only [Function.comp_def, values] at hlow ⊢
    rw [hlow]
    rcases firstError 0 (gridCells cellAt nrows ncols) with _ | x
    · exact congrArg Except.ok hvalues
    · rfl

/-- **In bands as from left to right.** For every number of workers, the
parallel fill gives the grid of the serial one, or its error. -/
theorem fillGridParallel_eq_serial (nrows ncols workers : Nat) (hworkers : 0 < workers) :
    fillGridParallel cellAt nrows ncols workers = fillGridSerial cellAt nrows ncols := by
  rw [fillGridParallel_eq cellAt nrows ncols hworkers, fillGridSerial_eq]

/-- A grid of which the second row cannot be read. -/
def halfDenied (r c : Nat) : Except QueryError CellOut :=
  if r = 1 then .error (.calc ("row " ++ Nat.repr c)) else .ok (CellOut.numeric Fixed.zero)

/-- Five workers for four cells: both failures are in one band. -/
theorem fillGridParallel_halfDenied : 0 < 5 ∧
    fillGridParallel halfDenied 2 2 5 = fillGridSerial halfDenied 2 2 :=
  ⟨by decide, fillGridParallel_eq_serial halfDenied 2 2 5 (by decide)⟩

/-- Every grid is filled with its cells in their order. -/
theorem fillGrid_eq (par : Parallelism) (nrows ncols : Nat) :
    fillGrid cellAt par nrows ncols = (gridCells cellAt nrows ncols).mapM id := by
  unfold fillGrid
  dsimp only
  split_ifs with hworkers
  · exact fillGridParallel_eq cellAt nrows ncols (by omega)
  · exact fillGridSerial_eq cellAt nrows ncols

end Query

end Epiphany
