import Epiphany.Core.Coverage
import Epiphany.Core.GridFill
/-!
# The grid of a view — tuples, cells and suppression

The tuples of an axis are the crossjoin of its members without those the
caller may not see, and each cell is read at the coordinate that its row, its
column and the context fix (`placedAt_overlay`). Suppression drops the rows
that are blank, and then the columns that are blank over the rows left
(`executeViewWith_grid`).
-/

namespace Epiphany

namespace Query

variable {cube : Cube} {view : View} {mask : Option ElementMask}

/-! ## Tuples -/

/-- `crossjoin`: every tuple so far, with every value of the next list. -/
def crossjoin (lists : List (List Nat)) : List (List Nat) :=
  lists.foldl (fun acc list => acc.flatMap fun tuple => list.map fun value => tuple ++ [value]) [[]]

theorem foldl_crossjoin (lists acc : List (List Nat)) :
    lists.foldl (fun acc list => acc.flatMap fun tuple => list.map fun value => tuple ++ [value])
        acc =
      acc.flatMap fun tuple => (Sections.rows lists).map fun rest => tuple ++ rest := by
  induction lists generalizing acc with
  | nil => simp [Sections.rows]
  | cons list lists ih =>
    rw [List.foldl_cons, ih, List.flatMap_assoc]
    refine List.flatMap_congr fun tuple _ => ?_
    rw [Sections.rows, List.flatMap_map, List.map_flatMap]
    refine List.flatMap_congr fun value _ => ?_
    rw [List.map_map]
    refine List.map_congr_left fun rest _ => ?_
    rw [Function.comp_apply, List.append_assoc, List.singleton_append]

/-- The loop makes the choices of one from each list, the first slowest. -/
theorem crossjoin_eq_rows (lists : List (List Nat)) : crossjoin lists = Sections.rows lists := by
  unfold crossjoin
  rw [foldl_crossjoin]
  simp

/-- A tuple of a crossjoin has an entry for each list. -/
theorem length_of_mem_rows {lists : List (List Nat)} {tuple : List Nat}
    (h : tuple ∈ Sections.rows lists) : tuple.length = lists.length :=
  (Sections.mem_rows.1 h).length_eq

/-! ## Coordinates -/

/-- The positions of an axis's dimensions. -/
def axisPositions (cube : Cube) (axis : List AxisSpec) : List Nat :=
  (axis.map AxisSpec.dimension).map (position cube)

/-- A coordinate is at the members of an axis's tuple. -/
def AtTuple (cube : Cube) (axis : List AxisSpec) (tuple : List Nat) (coord : Coord) : Prop :=
  ∀ x ∈ tuple.zip axis, ∃ (k : Nat) (d : Dimension), cube.dimensions[k]? = some d ∧
    d.name = x.2.dimension ∧ coord[k]? = some x.1

/-- The coordinate of a cell: every dimension at the member that the row, the
column or the context gives it. -/
structure PlacedAt (cube : Cube) (view : View) (row column : List Nat) (coord : Coord) : Prop where
  rank : coord.length = cube.rank
  context : InContext cube view.context coord
  row_length : row.length = view.rows.length
  row : AtTuple cube view.rows row coord
  column_length : column.length = view.columns.length
  column : AtTuple cube view.columns column coord

theorem length_overlay (base : Coord) (ci tuple : List Nat) :
    (overlay base ci tuple).length = base.length := by
  unfold overlay
  generalize tuple.zip ci = l
  induction l generalizing base with
  | nil => rfl
  | cons x l ih => rw [List.foldl_cons, ih, List.length_set]

theorem length_resolveContext {context : List (String × String)} {base base' : Coord}
    (h : resolveContext cube mask context base = .ok base') : base'.length = base.length := by
  induction context generalizing base with
  | nil =>
    obtain rfl := Except.ok.inj h
    rfl
  | cons x rest ih =>
    unfold resolveContext at h
    obtain ⟨i, -, h⟩ := bind_eq_ok.1 h
    split_ifs at h
    rw [ih h, List.length_set]

/-- A tuple's member stands at its position. -/
theorem getElem?_overlay_of_mem {base : Coord} {ci tuple : List Nat} (hci : ci.Nodup)
    {x : Nat × Nat} (hx : x ∈ tuple.zip ci) (hlt : x.2 < base.length) :
    (overlay base ci tuple)[x.2]? = some x.1 := by
  induction ci generalizing base tuple with
  | nil => simp at hx
  | cons k ci ih =>
    rcases tuple with _ | ⟨m, tuple⟩
    · cases hx
    obtain ⟨hk, hci⟩ := List.nodup_cons.1 hci
    have hstep : overlay base (k :: ci) (m :: tuple) = overlay (base.set k m) ci tuple := rfl
    rw [hstep]
    rcases List.mem_cons.1 hx with rfl | hx
    · rw [getElem?_overlay hk, List.getElem?_set_self hlt]
    · exact ih hci hx (by rw [List.length_set]; exact hlt)

/-- The names of a view have positions of their own. -/
theorem position_injOn (hn : (cube.dimensions.map Dimension.name).Nodup)
    (hcover : validateCoverage cube view = .ok ()) {m n : String} (hm : m ∈ placedNames view)
    (hmem : n ∈ placedNames view) (heq : position cube m = position cube n) : m = n := by
  obtain ⟨hknown, -, -⟩ := validateCoverage_eq_ok.1 hcover
  obtain ⟨d, hd, rfl⟩ := exists_position hn (hknown m hm)
  obtain ⟨d', hd', rfl⟩ := exists_position hn (hknown n hmem)
  rw [heq, hd'] at hd
  rw [Option.some.inj hd]

theorem nodup_axisPositions (hn : (cube.dimensions.map Dimension.name).Nodup)
    (hcover : validateCoverage cube view = .ok ()) :
    (axisPositions cube view.rows).Nodup ∧ (axisPositions cube view.columns).Nodup ∧
      (axisPositions cube view.rows).Disjoint (axisPositions cube view.columns) := by
  obtain ⟨-, honce, -⟩ := validateCoverage_eq_ok.1 hcover
  obtain ⟨haxes, -, -⟩ := List.nodup_append.1 honce
  have hall : ((view.rows ++ view.columns).map AxisSpec.dimension).map (position cube) =
      axisPositions cube view.rows ++ axisPositions cube view.columns := by
    rw [List.map_append, List.map_append]
    rfl
  have hnodup := (List.nodup_map_iff_inj_on haxes).2 fun m hm n hmem heq =>
    position_injOn hn hcover (List.mem_append_left _ hm) (List.mem_append_left _ hmem) heq
  rw [hall] at hnodup
  obtain ⟨hrows, hcolumns, hdisjoint⟩ := List.nodup_append'.1 hnodup
  exact ⟨hrows, hcolumns, hdisjoint⟩

/-- **Where a cell is read**: at its row, its column and the context. -/
theorem placedAt_overlay (hn : (cube.dimensions.map Dimension.name).Nodup)
    (hcover : validateCoverage cube view = .ok ()) {base : Coord}
    (hbase : resolveContext cube mask view.context (List.replicate cube.rank 0) = .ok base)
    {row column : List Nat} (hrow : row.length = view.rows.length)
    (hcolumn : column.length = view.columns.length) :
    PlacedAt cube view row column
      (overlay (overlay base (axisPositions cube view.rows) row)
        (axisPositions cube view.columns) column) := by
  obtain ⟨hrows, hcolumns, hdisjoint⟩ := nodup_axisPositions hn hcover
  obtain ⟨hknown, -, -⟩ := validateCoverage_eq_ok.1 hcover
  have hlen : base.length = cube.rank := by
    rw [length_resolveContext hbase, List.length_replicate]
  -- a member and its spec are a member and its position
  have hzip : ∀ {axis : List AxisSpec} {tuple : List Nat} {x : Nat × AxisSpec},
      x ∈ tuple.zip axis → (x.1, position cube x.2.dimension) ∈
        tuple.zip (axisPositions cube axis) := by
    intro axis tuple x hx
    unfold axisPositions
    rw [List.map_map, List.zip_map_right]
    exact List.mem_map_of_mem (f := Prod.map id (position cube ∘ AxisSpec.dimension)) hx
  have hplace : ∀ {axis : List AxisSpec}, axis ⊆ view.rows ++ view.columns →
      ∀ spec ∈ axis, ∃ d, cube.dimensions[position cube spec.dimension]? = some d ∧
        d.name = spec.dimension := fun hsub spec hspec => exists_position hn
    (hknown _ (List.mem_append_left _ (List.mem_map_of_mem (hsub hspec))))
  have hlt : ∀ {k : Nat} {d : Dimension}, cube.dimensions[k]? = some d → k < cube.rank :=
    fun hd => (List.getElem?_eq_some_iff.1 hd).1
  refine
    { rank := by rw [length_overlay, length_overlay, hlen]
      context := inContext_overlay hn hcover hbase row column
      row_length := hrow
      row := fun x hx => ?_
      column_length := hcolumn
      column := fun x hx => ?_ }
  · obtain ⟨d, hd, hname⟩ := hplace (List.subset_append_left _ _) x.2 (List.of_mem_zip hx).2
    refine ⟨_, d, hd, hname, ?_⟩
    have hmem := hzip hx
    rw [getElem?_overlay fun hcol => hdisjoint (List.of_mem_zip hmem).2 hcol]
    exact getElem?_overlay_of_mem hrows hmem (by rw [hlen]; exact hlt hd)
  · obtain ⟨d, hd, hname⟩ := hplace (List.subset_append_right _ _) x.2 (List.of_mem_zip hx).2
    refine ⟨_, d, hd, hname, ?_⟩
    exact getElem?_overlay_of_mem hcolumns (hzip hx)
      (by rw [length_overlay, hlen]; exact hlt hd)

/-! ## Channels -/

/-- Whether a coordinate is at a string element. -/
def addressesString (cube : Cube) (coord : Coord) : Bool :=
  (coord.zip cube.dimensions).any fun x => (x.2.kindAt x.1).any ElementKind.isString

/-- Read the cell at a coordinate, through the channel that it addresses. -/
def readCell (cube : Cube) (cells : CellResolver) (coord : Coord) : Except QueryError CellOut :=
  cellAt cells (addressesString cube coord) coord

theorem addressesString_eq_true {coord : Coord} : addressesString cube coord = true ↔
    ∃ (k m : Nat) (d : Dimension), coord[k]? = some m ∧ cube.dimensions[k]? = some d ∧
      (d.kindAt m).any ElementKind.isString = true := by
  unfold addressesString
  rw [List.any_eq_true]
  constructor
  · rintro ⟨⟨m, d⟩, hx, hstring⟩
    obtain ⟨k, hk⟩ := List.mem_iff_getElem?.1 hx
    obtain ⟨hm, hd⟩ := List.getElem?_zip_eq_some.1 hk
    exact ⟨k, m, d, hm, hd, hstring⟩
  · rintro ⟨k, m, d, hm, hd, hstring⟩
    exact ⟨(m, d), List.mem_of_getElem? (List.getElem?_zip_eq_some.2 ⟨hm, hd⟩), hstring⟩

section Channel

variable (hn : (cube.dimensions.map Dimension.name).Nodup)

include hn

/-- A tuple names a string element when its coordinate is at one. -/
theorem tupleHasString_iff {axis : List AxisSpec} {tuple : List Nat} {coord : Coord}
    (hat : AtTuple cube axis tuple coord) :
    tupleHasString cube (axisPositions cube axis) tuple = true ↔
      ∃ x ∈ tuple.zip axis, ∃ (k : Nat) (d : Dimension), cube.dimensions[k]? = some d ∧
        d.name = x.2.dimension ∧ coord[k]? = some x.1 ∧
        (d.kindAt x.1).any ElementKind.isString = true := by
  unfold tupleHasString axisPositions
  rw [List.map_map, List.zip_map_right, List.any_map, List.any_eq_true]
  refine exists_congr fun x => and_congr_right fun hx => ?_
  obtain ⟨k, d, hd, hname, hcoord⟩ := hat x hx
  have hpos : position cube x.2.dimension = k := hname ▸ position_eq hn hd
  have hdim : cube.dimension (position cube x.2.dimension) = d := by
    rw [hpos]
    exact Cube.dimension_eq hd
  have hcell : ((fun y : Nat × Nat => ((cube.dimension y.2).kindAt y.1).any
      ElementKind.isString) ∘ Prod.map id (position cube ∘ AxisSpec.dimension)) x =
      (d.kindAt x.1).any ElementKind.isString := by
    rw [← hdim]
    rfl
  rw [hcell]
  constructor
  · exact fun h => ⟨k, d, hd, hname, hcoord, h⟩
  · rintro ⟨k', d', hd', hname', -, h⟩
    have hk : k = k' := by rw [← hpos, ← hname', position_eq hn hd']
    subst hk
    rw [Option.some.inj (hd.symm.trans hd')]
    exact h

theorem contextHasString_iff {context : List (String × String)} {coord : Coord}
    (hat : InContext cube context coord) :
    contextHasString cube context = true ↔
      ∃ x ∈ context, ∃ (k m : Nat) (d : Dimension), cube.dimensions[k]? = some d ∧
        d.name = x.1 ∧ coord[k]? = some m ∧ (d.kindAt m).any ElementKind.isString = true := by
  unfold contextHasString
  rw [List.any_eq_true]
  refine exists_congr fun x => and_congr_right fun hx => ?_
  obtain ⟨k, d, m, hd, hname, hm, hcoord⟩ := hat x hx
  have hpos : position cube x.1 = k := hname ▸ position_eq hn hd
  have hdim : cube.dimension (position cube x.1) = d := by
    rw [hpos]
    exact Cube.dimension_eq hd
  dsimp only
  rw [hdim, hm, Option.bind_some]
  constructor
  · exact fun h => ⟨k, m, d, hd, hname, hcoord, h⟩
  · rintro ⟨k', m', d', hd', hname', hcoord', h⟩
    have hk : k = k' := by rw [← hpos, ← hname', position_eq hn hd']
    subst hk
    obtain rfl := Option.some.inj (hd.symm.trans hd')
    rw [Option.some.inj (hcoord.symm.trans hcoord')]
    exact h

/-- **The channel of a cell** is that of its coordinate. -/
theorem channel_eq (hcover : validateCoverage cube view = .ok ()) {row column : List Nat}
    {coord : Coord} (h : PlacedAt cube view row column coord) :
    (contextHasString cube view.context ||
        tupleHasString cube (axisPositions cube view.rows) row ||
        tupleHasString cube (axisPositions cube view.columns) column) =
      addressesString cube coord := by
  obtain ⟨-, -, hplaced⟩ := validateCoverage_eq_ok.1 hcover
  rw [Bool.eq_iff_iff, Bool.or_eq_true, Bool.or_eq_true, contextHasString_iff hn h.context,
    tupleHasString_iff hn h.row, tupleHasString_iff hn h.column, addressesString_eq_true]
  constructor
  · rintro ((⟨x, -, k, m, d, hd, -, hm, hs⟩ | ⟨x, -, k, d, hd, -, hm, hs⟩) |
      ⟨x, -, k, d, hd, -, hm, hs⟩)
    · exact ⟨k, m, d, hm, hd, hs⟩
    · exact ⟨k, x.1, d, hm, hd, hs⟩
    · exact ⟨k, x.1, d, hm, hd, hs⟩
  · rintro ⟨k, m, d, hm, hd, hs⟩
    -- the dimension is placed, and the place gives it this member
    have haxis : ∀ {axis : List AxisSpec} {tuple : List Nat}, AtTuple cube axis tuple coord →
        tuple.length = axis.length → d.name ∈ axis.map AxisSpec.dimension →
        ∃ x ∈ tuple.zip axis, ∃ (k : Nat) (d : Dimension), cube.dimensions[k]? = some d ∧
          d.name = x.2.dimension ∧ coord[k]? = some x.1 ∧
          (d.kindAt x.1).any ElementKind.isString = true := by
      intro axis tuple hat hlen hname
      obtain ⟨spec, hspec, hname⟩ := List.mem_map.1 hname
      obtain ⟨j, hj⟩ := List.mem_iff_getElem?.1 hspec
      have hjlt := (List.getElem?_eq_some_iff.1 hj).1
      have hjm : tuple[j]? = some tuple[j] := List.getElem?_eq_getElem (by omega)
      have hx : (tuple[j], spec) ∈ tuple.zip axis :=
        List.mem_of_getElem? (List.getElem?_zip_eq_some.2 ⟨hjm, hj⟩)
      obtain ⟨k', d', hd', hname', hm'⟩ := hat _ hx
      have hk : k' = k := by rw [← position_eq hn hd', hname', hname, position_eq hn hd]
      subst hk
      obtain rfl := Option.some.inj (hd.symm.trans hd')
      refine ⟨_, hx, k', d, hd, hname', hm', ?_⟩
      rw [← Option.some.inj (hm.symm.trans hm')]
      exact hs
    have hname := hplaced d (List.mem_of_getElem? hd)
    unfold placedNames at hname
    rw [List.map_append, List.mem_append, List.mem_append] at hname
    obtain (hrow | hcolumn) | hcontext := hname
    · exact .inl (.inr (haxis h.row h.row_length hrow))
    · exact .inr (haxis h.column h.column_length hcolumn)
    · obtain ⟨x, hx, hname⟩ := List.mem_map.1 hcontext
      exact .inl (.inl ⟨x, hx, k, m, d, hd, hname.symm, hm, hs⟩)

end Channel

/-! ## Suppression -/

/-- A row stays unless it is blank in every column. Without columns no row is
dropped. -/
def rowStays (view : View) (columns : List (List Nat)) (value : List Nat → List Nat → CellOut)
    (row : List Nat) : Bool :=
  !view.suppressZeroRows || columns.isEmpty || columns.any fun column => !(value row column).isBlank

/-- A column stays unless it is blank in every row that stays. Without rows no
column is dropped. -/
def columnStays (view : View) (rows : List (List Nat)) (value : List Nat → List Nat → CellOut)
    (column : List Nat) : Bool :=
  !view.suppressZeroColumns || rows.isEmpty || rows.any fun row => !(value row column).isBlank

/-- **The grid of a cellset**: the tuples that stay, those that do not, each in
their order, and the cells of the first row by row. -/
structure GridOf (cube : Cube) (view : View) (rows columns : List (List Nat))
    (value : List Nat → List Nat → CellOut) (cs : Cellset) : Prop where
  rowTuples : cs.rowTuples = (rows.filter (rowStays view columns value)).map
    (tupleNames cube (axisPositions cube view.rows))
  suppressedRowTuples : cs.suppressedRowTuples =
    (rows.filter fun row => !rowStays view columns value row).map
      (tupleNames cube (axisPositions cube view.rows))
  columnTuples : cs.columnTuples =
    (columns.filter (columnStays view (rows.filter (rowStays view columns value)) value)).map
      (tupleNames cube (axisPositions cube view.columns))
  suppressedColumnTuples : cs.suppressedColumnTuples =
    (columns.filter fun column =>
        !columnStays view (rows.filter (rowStays view columns value)) value column).map
      (tupleNames cube (axisPositions cube view.columns))
  cells : ∃ kept : List CellOut,
    kept = ((rows.filter (rowStays view columns value)).flatMap fun row =>
      (columns.filter (columnStays view (rows.filter (rowStays view columns value)) value)).map
        (value row)) ∧
    cs.cells = kept.map CellOut.value ∧ cs.cellStrings = kept.map CellOut.string ∧
    cs.cellErrors = kept.map CellOut.error

/-! ## From places to tuples -/

theorem filter_range_getD (l : List (List Nat)) {p : Nat → Bool} {q : List Nat → Bool}
    (h : ∀ i < l.length, p i = q (l.getD i [])) :
    ((List.range l.length).filter p).map (fun i => l.getD i []) = l.filter q := by
  have hmap := map_range_getD l id
  rw [List.map_id] at hmap
  have hcongr : (List.range l.length).filter p =
      (List.range l.length).filter fun i => q (l.getD i []) :=
    List.filter_congr fun i hi => h i (List.mem_range.1 hi)
  rw [hcongr]
  conv_rhs => rw [← hmap, List.filter_map]
  rfl

/-- The places left out are those of the tuples left out. -/
theorem filter_not_range_getD (l : List (List Nat)) {p : Nat → Bool} {q : List Nat → Bool}
    (h : ∀ i < l.length, p i = q (l.getD i [])) :
    ((List.range l.length).filter fun i => !p i).map (fun i => l.getD i []) =
      l.filter fun t => !q t :=
  filter_range_getD l fun i hi => congrArg not (h i hi)

theorem any_range_getD (l : List (List Nat)) {p : Nat → Bool} {q : List Nat → Bool}
    (h : ∀ i < l.length, p i = q (l.getD i [])) : (List.range l.length).any p = l.any q := by
  rw [Bool.eq_iff_iff, List.any_eq_true, List.any_eq_true]
  constructor
  · rintro ⟨i, hi, hp⟩
    have hlt := List.mem_range.1 hi
    rw [h i hlt, List.getD_eq_getElem _ _ hlt] at hp
    exact ⟨_, List.getElem_mem hlt, hp⟩
  · rintro ⟨t, ht, hq⟩
    obtain ⟨i, hlt, rfl⟩ := List.getElem_of_mem ht
    refine ⟨i, List.mem_range.2 hlt, ?_⟩
    rw [h i hlt, List.getD_eq_getElem _ _ hlt]
    exact hq

/-- A filled grid has the cell of each place. -/
theorem getD_of_fillGrid {cell : Nat → Nat → Except QueryError CellOut} {par : Parallelism}
    {nrows ncols : Nat} {grid : List CellOut} (h : fillGrid cell par nrows ncols = .ok grid)
    {r c : Nat} (hr : r < nrows) (hc : c < ncols) :
    cell r c = .ok (grid.getD (r * ncols + c) blankCell) := by
  rw [fillGrid_eq, mapM_eq_ok] at h
  have hlen := h.length_eq
  have hplace : r * ncols + c < nrows * ncols := by
    calc r * ncols + c < r * ncols + ncols := by omega
      _ = (r + 1) * ncols := by ring
      _ ≤ nrows * ncols := Nat.mul_le_mul_right _ hr
  have hcells : (gridCells cell nrows ncols)[r * ncols + c]? = some (cell r c) := by
    unfold gridCells
    rw [List.getElem?_map, List.getElem?_range hplace, Option.map_some, Nat.mul_comm r ncols,
      Nat.mul_add_div (by omega), Nat.div_eq_of_lt hc, Nat.mul_add_mod, Nat.mod_eq_of_lt hc,
      Nat.add_zero]
  obtain ⟨hlt, hcell⟩ := List.getElem?_eq_some_iff.1 hcells
  have hgrid := List.forall₂_iff_get.1 h
  have hread := hgrid.2 _ hlt (hlen ▸ hlt)
  rw [List.getD_eq_getElem _ _ (hlen ▸ hlt)]
  rw [List.get_eq_getElem, List.get_eq_getElem, id_eq, hcell] at hread
  exact hread

section Places

variable {rows columns : List (List Nat)} {at_ : Nat → Nat → CellOut}
  {value : List Nat → List Nat → CellOut}

/-- The rows that are kept by their numbers are those that stay. -/
theorem map_keepRows (view : View) (hat : ∀ r < rows.length, ∀ c < columns.length,
      at_ r c = value (rows.getD r []) (columns.getD c [])) (r : Nat) (hr : r < rows.length) :
    (!(view.suppressZeroRows && decide (rows.length > 0 ∧ columns.length > 0)) ||
        (List.range columns.length).any fun c => !(at_ r c).isBlank) =
      rowStays view columns value (rows.getD r []) := by
  have hany : ((List.range columns.length).any fun c => !(at_ r c).isBlank) =
      columns.any fun column => !(value (rows.getD r []) column).isBlank :=
    any_range_getD columns fun c hc => by rw [hat r hr c hc]
  have hcells : decide (rows.length > 0 ∧ columns.length > 0) = !columns.isEmpty := by
    rw [Bool.eq_iff_iff, decide_eq_true_eq, Bool.not_eq_true', List.isEmpty_eq_false_iff,
      ← List.length_pos_iff]
    exact ⟨fun h => h.2, fun h => ⟨by omega, h⟩⟩
  unfold rowStays
  rw [hany, hcells, Bool.not_and, Bool.not_not]

/-- And so the columns, judged over the rows kept. -/
theorem map_keepCols (view : View) (hat : ∀ r < rows.length, ∀ c < columns.length,
      at_ r c = value (rows.getD r []) (columns.getD c [])) {keepRows : List Nat}
    (hkeep : ∀ r ∈ keepRows, r < rows.length) (c : Nat) (hc : c < columns.length) :
    (!(view.suppressZeroColumns && decide (rows.length > 0 ∧ columns.length > 0) &&
          !keepRows.isEmpty) || keepRows.any fun r => !(at_ r c).isBlank) =
      columnStays view (keepRows.map fun r => rows.getD r []) value (columns.getD c []) := by
  have hany : (keepRows.any fun r => !(at_ r c).isBlank) =
      (keepRows.map fun r => rows.getD r []).any fun row =>
        !(value row (columns.getD c [])).isBlank := by
    rw [List.any_map, Bool.eq_iff_iff, List.any_eq_true, List.any_eq_true]
    refine exists_congr fun r => and_congr_right fun hr => ?_
    rw [hat r (hkeep r hr) c hc]
    exact Iff.rfl
  have hempty : (keepRows.map fun r => rows.getD r []).isEmpty = keepRows.isEmpty :=
    List.isEmpty_map
  have hcells : (view.suppressZeroColumns && decide (rows.length > 0 ∧ columns.length > 0) &&
      !keepRows.isEmpty) = (view.suppressZeroColumns && !keepRows.isEmpty) := by
    rcases keepRows with _ | ⟨r, rest⟩
    · simp
    · have hr := hkeep r List.mem_cons_self
      have hdec : decide (rows.length > 0 ∧ columns.length > 0) = true :=
        decide_eq_true ⟨by omega, by omega⟩
      rw [hdec, Bool.and_true]
  unfold columnStays
  rw [hcells, hany, hempty, Bool.not_and, Bool.not_not]

end Places

/-! ## Execution -/

open Classical in
/-- The tuples of an axis: the crossjoin of its lists, without the tuples that
the caller may not see. -/
noncomputable def axisTuples (cube : Cube) (mask : Option ElementMask) (axis : List AxisSpec)
    (lists : List (List Nat)) : List (List Nat) :=
  (crossjoin lists).filter fun tuple => Unhidden cube mask (axisPositions cube axis) tuple

theorem axisTuples_eq (axis : List AxisSpec) (lists : List (List Nat)) :
    visibleTuples cube mask (axisPositions cube axis) (crossjoin lists) =
      axisTuples cube mask axis lists :=
  visibleTuples_eq mask (axisPositions cube axis) (crossjoin lists)

theorem mem_of_mem_axisTuples {axis : List AxisSpec} {lists : List (List Nat)} {tuple : List Nat}
    (h : tuple ∈ axisTuples cube mask axis lists) : tuple ∈ crossjoin lists :=
  (List.mem_filter.1 h).1

section Execution

variable {cells : CellResolver} {lookup : String → String → Option Subset} {eval : SetEvaluator}
  {par : Parallelism}

theorem lists_of_resolveAxis {axis : List AxisSpec} {dims : List String} {tuples : List (List Nat)}
    (h : resolveAxis cube lookup eval axis = .ok (dims, tuples)) :
    dims = axis.map AxisSpec.dimension ∧ ∃ lists,
      axis.mapM (resolveSpec cube lookup eval) = .ok lists ∧ lists.length = axis.length ∧
      tuples = crossjoin lists := by
  unfold resolveAxis at h
  obtain ⟨lists, hlists, h⟩ := bind_eq_ok.1 h
  obtain ⟨⟨⟩, -, h⟩ := bind_eq_ok.1 h
  obtain ⟨rfl, rfl⟩ := Prod.mk.inj (Except.ok.inj h)
  exact ⟨rfl, lists, hlists, (mapM_eq_ok.1 hlists).length_eq.symm, (crossjoin_eq_rows lists).symm⟩

theorem length_of_mem_axisTuples {axis : List AxisSpec} {lists : List (List Nat)}
    (hlen : lists.length = axis.length) {tuple : List Nat}
    (h : tuple ∈ axisTuples cube mask axis lists) : tuple.length = axis.length := by
  have hmem := mem_of_mem_axisTuples h
  rw [crossjoin_eq_rows] at hmem
  rw [length_of_mem_rows hmem, hlen]

theorem getD_mem {l : List (List Nat)} {i : Nat} (h : i < l.length) : l.getD i [] ∈ l := by
  rw [List.getD_eq_getElem _ _ h]
  exact List.getElem_mem h

/-- The coordinate of the cell at a row and a column, over the context. -/
def gridCoord (cube : Cube) (view : View) (base : Coord) (row column : List Nat) : Coord :=
  overlay (overlay base (axisPositions cube view.rows) row) (axisPositions cube view.columns) column

/-- What an execution has gone through: the context, the lists of the axes, and
the cell at each row and column. -/
structure Executed (cube : Cube) (view : View) (cells : CellResolver)
    (lookup : String → String → Option Subset) (eval : SetEvaluator) (mask : Option ElementMask)
    (cs : Cellset) (base : Coord) (rowLists columnLists : List (List Nat))
    (value : List Nat → List Nat → CellOut) : Prop where
  coverage : validateCoverage cube view = .ok ()
  rowDimensions : cs.rowDimensions = view.rows.map AxisSpec.dimension
  columnDimensions : cs.columnDimensions = view.columns.map AxisSpec.dimension
  context : cs.context = view.context
  resolvedContext : resolveContext cube mask view.context (List.replicate cube.rank 0) = .ok base
  resolvedRows : view.rows.mapM (resolveSpec cube lookup eval) = .ok rowLists
  resolvedColumns : view.columns.mapM (resolveSpec cube lookup eval) = .ok columnLists
  placed : ∀ row ∈ axisTuples cube mask view.rows rowLists,
    ∀ column ∈ axisTuples cube mask view.columns columnLists,
      PlacedAt cube view row column (gridCoord cube view base row column)
  cells : ∀ row ∈ axisTuples cube mask view.rows rowLists,
    ∀ column ∈ axisTuples cube mask view.columns columnLists,
      readCell cube cells (gridCoord cube view base row column) = .ok (value row column)
  grid : GridOf cube view (axisTuples cube mask view.rows rowLists)
    (axisTuples cube mask view.columns columnLists) value cs

theorem executed_of_executeViewWith (hn : (cube.dimensions.map Dimension.name).Nodup) {cs : Cellset}
    (h : executeViewWith cube view cells lookup eval mask par = .ok cs) :
    ∃ base rowLists columnLists value,
      Executed cube view cells lookup eval mask cs base rowLists columnLists value := by
  unfold executeViewWith at h
  obtain ⟨⟨⟩, hcover, h⟩ := bind_eq_ok.1 h
  obtain ⟨⟨rowDimensions, rows⟩, hr, h⟩ := bind_eq_ok.1 h
  obtain ⟨⟨columnDimensions, columns⟩, hc, h⟩ := bind_eq_ok.1 h
  obtain ⟨base, hbase, h⟩ := bind_eq_ok.1 h
  obtain ⟨rfl, rowLists, hrowLists, hrowLen, rfl⟩ := lists_of_resolveAxis hr
  obtain ⟨rfl, columnLists, hcolumnLists, hcolumnLen, rfl⟩ := lists_of_resolveAxis hc
  have hrowTuples : visibleTuples cube mask ((view.rows.map AxisSpec.dimension).map (position cube))
      (crossjoin rowLists) = axisTuples cube mask view.rows rowLists := axisTuples_eq _ _
  have hcolumnTuples : visibleTuples cube mask
      ((view.columns.map AxisSpec.dimension).map (position cube)) (crossjoin columnLists) =
        axisTuples cube mask view.columns columnLists := axisTuples_eq _ _
  dsimp only at h
  rw [hrowTuples, hcolumnTuples] at h
  split_ifs at h
  obtain ⟨grid, hgrid, h⟩ := bind_eq_ok.1 h
  obtain rfl := Except.ok.inj h
  change fillGrid (fun r c =>
    let row := (axisTuples cube mask view.rows rowLists).getD r []
    let column := (axisTuples cube mask view.columns columnLists).getD c []
    cellAt cells
      (contextHasString cube view.context ||
        tupleHasString cube (axisPositions cube view.rows) row ||
        tupleHasString cube (axisPositions cube view.columns) column)
      (overlay (overlay base (axisPositions cube view.rows) row)
        (axisPositions cube view.columns) column)) par
    (axisTuples cube mask view.rows rowLists).length
    (axisTuples cube mask view.columns columnLists).length = .ok grid at hgrid
  set R := axisTuples cube mask view.rows rowLists with hR
  set C := axisTuples cube mask view.columns columnLists with hC
  -- a cell is a function of its tuples
  set coordOf := gridCoord cube view base with hcoordOf
  set value := fun row column : List Nat =>
    (readCell cube cells (coordOf row column)).toOption.getD blankCell with hvalue
  have hplaced : ∀ row ∈ R, ∀ column ∈ C, PlacedAt cube view row column (coordOf row column) :=
    fun row hrow column hcolumn => placedAt_overlay hn hcover hbase
      (length_of_mem_axisTuples hrowLen hrow) (length_of_mem_axisTuples hcolumnLen hcolumn)
  have hread : ∀ r < R.length, ∀ c < C.length,
      readCell cube cells (coordOf (R.getD r []) (C.getD c [])) =
        .ok (grid.getD (r * C.length + c) blankCell) := by
    intro r hr c hc
    have hcell := getD_of_fillGrid hgrid hr hc
    have hchannel := channel_eq hn hcover (hplaced _ (getD_mem hr) _ (getD_mem hc))
    dsimp only at hcell
    rw [hchannel] at hcell
    exact hcell
  have hat : ∀ r < R.length, ∀ c < C.length,
      grid.getD (r * C.length + c) blankCell = value (R.getD r []) (C.getD c []) := by
    intro r hr c hc
    rw [hvalue]
    dsimp only
    rw [hread r hr c hc]
    rfl
  refine ⟨base, rowLists, columnLists, value,
    { coverage := hcover
      rowDimensions := rfl
      columnDimensions := rfl
      context := rfl
      resolvedContext := hbase
      resolvedRows := hrowLists
      resolvedColumns := hcolumnLists
      placed := hplaced
      cells := fun row hrow column hcolumn => ?_
      grid := ?_ }⟩
  · obtain ⟨r, hr, rfl⟩ := List.getElem_of_mem hrow
    obtain ⟨c, hc, rfl⟩ := List.getElem_of_mem hcolumn
    have hcell := hread r hr c hc
    rw [hat r hr c hc, List.getD_eq_getElem _ _ hr, List.getD_eq_getElem _ _ hc] at hcell
    exact hcell
  · set keepRows := (List.range R.length).filter fun r =>
      !(view.suppressZeroRows && decide (R.length > 0 ∧ C.length > 0)) ||
        (List.range C.length).any fun c => !(grid.getD (r * C.length + c) blankCell).isBlank
      with hkeepRows
    have hkeepLt : ∀ r ∈ keepRows, r < R.length := fun r hr =>
      List.mem_range.1 (List.mem_filter.1 hr).1
    have hrowMap : keepRows.map (fun r => R.getD r []) = R.filter (rowStays view C value) :=
      filter_range_getD R (map_keepRows view hat)
    have hcolStays := map_keepCols view hat hkeepLt
    rw [hrowMap] at hcolStays
    have hcolMap := filter_range_getD C hcolStays
    have hrowOut := filter_not_range_getD R (map_keepRows view hat)
    have hcolOut := filter_not_range_getD C hcolStays
    -- names of the picked places are names of the tuples picked
    have hnames : ∀ {l picked : List (List Nat)} {picks : List Nat} (ci : List Nat),
        picks.map (fun i => l.getD i []) = picked →
        picks.map (fun i => tupleNames cube ci (l.getD i [])) =
          picked.map (tupleNames cube ci) := by
      rintro l picked picks ci rfl
      rw [List.map_map]
      rfl
    refine
      { rowTuples := hnames _ hrowMap
        suppressedRowTuples := hnames _ hrowOut
        columnTuples := hnames _ hcolMap
        suppressedColumnTuples := hnames _ hcolOut
        cells := ⟨_, rfl, ?_⟩ }
    have hkept : ∀ keepCols : List Nat, (∀ c ∈ keepCols, c < C.length) →
        (keepRows.flatMap fun r => keepCols.map fun c =>
          grid.getD (r * C.length + c) blankCell) =
        (keepRows.map fun r => R.getD r []).flatMap fun row =>
          (keepCols.map fun c => C.getD c []).map (value row) := by
      intro keepCols hlt
      rw [List.flatMap_map]
      refine List.flatMap_congr fun r hr => ?_
      rw [List.map_map]
      exact List.map_congr_left fun c hc => hat r (hkeepLt r hr) c (hlt c hc)
    rw [← hcolMap, ← hrowMap, ← hkept _ fun c hc => List.mem_range.1 (List.mem_filter.1 hc).1]
    exact ⟨rfl, rfl, rfl⟩

/-- **A view keeps the right cells.** The tuples of each axis are the crossjoin
of its members without those that are masked. Suppression drops exactly the
rows blank in every column and then exactly the columns blank in every row
left, if any row is; what stays keeps its order, and each cell is what is read
at its row, its column and the context. -/
theorem executeViewWith_grid (hn : (cube.dimensions.map Dimension.name).Nodup) {cs : Cellset}
    (h : executeViewWith cube view cells lookup eval mask par = .ok cs) :
    ∃ (rowLists columnLists : List (List Nat)) (value : List Nat → List Nat → CellOut),
      view.rows.mapM (resolveSpec cube lookup eval) = .ok rowLists ∧
      view.columns.mapM (resolveSpec cube lookup eval) = .ok columnLists ∧
      (∀ row ∈ axisTuples cube mask view.rows rowLists,
        ∀ column ∈ axisTuples cube mask view.columns columnLists, ∃ coord,
          PlacedAt cube view row column coord ∧
          readCell cube cells coord = .ok (value row column)) ∧
      GridOf cube view (axisTuples cube mask view.rows rowLists)
        (axisTuples cube mask view.columns columnLists) value cs := by
  obtain ⟨base, rowLists, columnLists, value, hexec⟩ := executed_of_executeViewWith hn h
  exact ⟨rowLists, columnLists, value, hexec.resolvedRows, hexec.resolvedColumns,
    fun row hrow column hcolumn => ⟨_, hexec.placed row hrow column hcolumn,
      hexec.cells row hrow column hcolumn⟩, hexec.grid⟩

end Execution

/-! ## Sales -/

/-- `StoredCells`: the cells of a cube, without rules. -/
def storedCells (cube : Cube) : CellResolver where
  value coord := (cube.get coord).mapError .model
  stringValue coord := (cube.getString coord).mapError .model

/-- The amounts of the regions, without the zeros. -/
def amountsByRegion : View where
  name := "Amounts"
  cube := "Sales"
  owner := none
  visibility := .pub
  rows := [.members "Region" ["North", "South"]]
  columns := [.members "Measure" ["Amount"]]
  context := []
  suppressZeroRows := true
  suppressZeroColumns := true

/-- The cells of the amounts of a cube, read one worker at a time. -/
def regionAmounts (cube : Cube) : Except QueryError Cellset :=
  executeViewWith cube amountsByRegion (storedCells cube) (fun _ _ => none) (fun _ _ => .ok [])
    none ⟨1, 0⟩

/-- The sales of two months, of which one is known. -/
def tradeCube : Except ModelError Cube := do
  let c ← Cube.build "Sales"
    (Cube.salesDefs ++ [⟨"Month", [("Jan", .leaf), ("Feb", .leaf)], [], [], []⟩])
  c.setLeaf [0, 0, 0] ((Fixed.tryFrom 10000).getD Fixed.zero)

/-- The amounts of the regions by month, without the zeros. -/
def amountsByMonth : View :=
  { amountsByRegion with
    rows := [.members "Region" ["North", "South", "World"], .members "Month" ["Jan", "Feb"]] }

/-- A caller who may not see the south. -/
def northernMask : ElementMask := .fromDenied [3, 2, 2] [[1], [], []]

/-- The cells that this caller reads. -/
def monthlyAmounts (cube : Cube) : Except QueryError Cellset :=
  executeViewWith cube amountsByMonth (storedCells cube) (fun _ _ => none) (fun _ _ => .ok [])
    (some northernMask) ⟨1, 0⟩

/-- The north has sold in one month: its row is left, with its column. The south
and the world, which rolls it up, are hidden. -/
theorem executeViewWith_soldNorth : ∃ (cube : Cube) (cs : Cellset),
    tradeCube = .ok cube ∧ monthlyAmounts cube = .ok cs ∧
    cs.rowTuples = [["North", "Jan"]] ∧ cs.suppressedRowTuples = [["North", "Feb"]] ∧
    cs.columnTuples = [["Amount"]] ∧
    ∃ (rowLists columnLists : List (List Nat)) (value : List Nat → List Nat → CellOut),
      amountsByMonth.rows.mapM (resolveSpec cube (fun _ _ => none) fun _ _ => .ok []) =
        .ok rowLists ∧
      GridOf cube amountsByMonth
        (axisTuples cube (some northernMask) amountsByMonth.rows rowLists)
        (axisTuples cube (some northernMask) amountsByMonth.columns columnLists) value cs := by
  obtain ⟨cube, hcube, hok⟩ := exists_ok_of_any (x := tradeCube)
    (p := fun cube => (cube.dimensions.map Dimension.name).Nodup ∧
      (monthlyAmounts cube).toOption.any fun cs =>
        cs.rowTuples = [["North", "Jan"]] ∧ cs.suppressedRowTuples = [["North", "Feb"]] ∧
          cs.columnTuples = [["Amount"]]) (by decide +kernel)
  obtain ⟨hn, hok⟩ := of_decide_eq_true hok
  obtain ⟨cs, hcs, hok⟩ := exists_ok_of_any hok
  obtain ⟨hrows, hout, hcolumns⟩ := of_decide_eq_true hok
  obtain ⟨rowLists, columnLists, value, hlists, -, -, hgrid⟩ := executeViewWith_grid hn hcs
  exact ⟨cube, cs, hcube, hcs, hrows, hout, hcolumns, rowLists, columnLists, value, hlists, hgrid⟩

/-- Nothing is sold: no row is left, and the column stays though it is blank in
every row left. -/
theorem columns_kept_unsold : ∃ (cube : Cube) (cs : Cellset),
    Cube.build "Sales" Cube.salesDefs = .ok cube ∧ regionAmounts cube = .ok cs ∧
    cs.rowTuples = [] ∧ amountsByRegion.suppressZeroColumns = true ∧
    cs.columnTuples = [["Amount"]] ∧ cs.suppressedColumnTuples = [] := by
  obtain ⟨cube, hcube, hok⟩ := exists_ok_of_any (x := Cube.build "Sales" Cube.salesDefs)
    (p := fun cube => (regionAmounts cube).toOption.any fun cs =>
      cs.rowTuples = [] ∧ cs.columnTuples = [["Amount"]] ∧ cs.suppressedColumnTuples = [])
    (by decide +kernel)
  obtain ⟨cs, hcs, hok⟩ := exists_ok_of_any hok
  obtain ⟨hrows, hcolumns, hout⟩ := of_decide_eq_true hok
  exact ⟨cube, cs, hcube, hcs, hrows, rfl, hcolumns, hout⟩

end Query

end Epiphany
