import Epiphany.Core.Decimal
import Epiphany.Core.ViewGrid
import Epiphany.Mdx.Parse
import Epiphany.Server.MdxViews
import Epiphany.Server.MemberRefs
import Epiphany.Server.NamedWrites
/-!
# Cellset flags — what a cell of a response says of its own coordinate

A cellset names the members of its rows and columns and keeps the context as
the view has it. The flags of its cells are computed from these names: one
scratch coordinate takes a row's members, then each column's in turn, and the
result is the flag of each cell's own coordinate (`Kept.cellCoordFlags_eq`). A cell
is marked editable exactly where a number can be written under the names that
are shown, except that reads follow the aliases of a context and writes do not
(`flags_iff`).
-/

namespace Epiphany

open Calc

/-! ## Dynamic sets -/

namespace Mdx

/-- `MdxEvaluator`: a text is parsed, and evaluated over its dimension. -/
def evaluator (T : Lexing.CharTable) (parseText : ParseError → String) : SetEvaluator := fun d mdx => do
  let e ← (parse T mdx.toList).mapError fun e => QueryError.dynamicEval (parseText e)
  (evaluate d e).mapError fun e => QueryError.dynamicEval e.toString

/-- What it finds are elements of the dimension. -/
theorem lt_of_mem_evaluator {T : Lexing.CharTable} {parseText : ParseError → String} {d : Dimension}
    (hd : d.WF) {mdx : String} {indices : List Nat}
    (h : evaluator T parseText d mdx = .ok indices) : ∀ i ∈ indices, i < d.len := by
  unfold evaluator at h
  obtain ⟨e, -, h⟩ := bind_eq_ok.1 h
  rw [mapError_eq_ok] at h
  unfold evaluate at h
  obtain ⟨set, hset, rfl⟩ := map_eq_ok.1 h
  intro i hi
  rw [dedup_eq, List.mem_eraseDups] at hi
  exact (Means.valid hd ((evalSet_eq_ok hd e set).1 hset)).2 i hi

end Mdx

namespace Query

/-! ## The walk over the grid -/

section Walk

variable (cube : Cube)

/-- The position of a dimension, by name. -/
def posOf (dim : String) : Option Nat := cube.dimensions.findIdx? fun d => d.name = dim

/-- The members of the context, into the base coordinate. -/
def contextCoord : List (String × String) → Coord → Option Coord
  | [], base => some base
  | (dim, member) :: rest, base => do
    let p ← posOf cube dim
    let idx ← (cube.dimension p).resolve member
    contextCoord rest (base.set p idx)

def resolveTuple (positions : List Nat) (tuple : List String) : Option (List Nat) :=
  (tuple.zip positions).mapM fun x => (cube.dimension x.2).resolve x.1

variable (hit : Coord → Bool) (base : Coord) (rowPos colPos : List Nat) (ncols : Nat)

/-- One cell: the scratch coordinate takes the column's members. -/
def flagCell (r : Nat) (st : Coord × List Bool) (x : Option (List Nat) × Nat) :
    Coord × List Bool :=
  if st.2.length ≤ r * ncols + x.2 then st
  else match x.1 with
    | none => st
    | some col =>
      (overlay st.1 colPos col, st.2.set (r * ncols + x.2) (hit (overlay st.1 colPos col)))

/-- One row: the scratch coordinate is the base with the row's members. -/
def flagRow (cols : List (Option (List Nat))) (flags : List Bool) (x : Option (List Nat) × Nat) :
    List Bool :=
  match x.1 with
  | none => flags
  | some row =>
    (cols.zipIdx.foldl (flagCell hit colPos ncols x.2) (overlay base rowPos row, flags)).2

/-- A flag for each cell, by its coordinate; all are off when the context or a
dimension is not found. -/
def cellCoordFlags (cs : Cellset) : List Bool :=
  match cs.rowDimensions.mapM (posOf cube), cs.columnDimensions.mapM (posOf cube),
      contextCoord cube cs.context (List.replicate cube.rank 0) with
  | some rowPos, some colPos, some base =>
    (cs.rowTuples.map (resolveTuple cube rowPos)).zipIdx.foldl
      (flagRow hit base rowPos colPos (max cs.columnTuples.length 1)
        (cs.columnTuples.map (resolveTuple cube colPos)))
      (List.replicate cs.cells.length false)
  | _, _, _ => List.replicate cs.cells.length false

/-- The cells whose own coordinate a sandbox overrides. -/
def overlaidGrid (cs : Cellset) (sandbox : Option Sandbox) : List Bool :=
  match sandbox with
  | none => List.replicate cs.cells.length false
  | some sb => cellCoordFlags cube (fun coord => (sb.cells[coord]?).isSome) cs

end Walk

/-! ## The response -/

/-- The rules of a cube, if they compile. -/
structure RuleCoverage where
  model : Option CompiledModel

namespace RuleCoverage

def build (env : WriteEnv) (m : Model) : RuleCoverage := ⟨env.compile m.cube m.rules⟩

variable (coverage : RuleCoverage)

def hasRules : Bool := coverage.model.any fun cm => !cm.rules.isEmpty

def covers (cube : Cube) (coord : Coord) : Bool :=
  coverage.model.any fun cm => (cm.matchingRule cube coord).isSome

end RuleCoverage

inductive CellKind where
  | numeric
  | string
  | error
deriving DecidableEq

/-- A cell of a response. -/
structure CellsetCell where
  value : Option String
  kind : CellKind
  editable : Bool
  ordinal : Nat
  overlaid : Bool
  error : Option String

section Dto

variable (cube : Cube)

/-- The kind of a member, by its name or an alias. -/
def memberKind (dim member : String) : Option ElementKind :=
  (cube.dimensions.find? fun d => d.name = dim).bind fun d => (d.resolve member).bind d.kindAt

def leafOf (dim member : String) : Bool := (memberKind cube dim member).any ElementKind.isLeaf

def stringOf (dim member : String) : Bool := (memberKind cube dim member).any ElementKind.isString

def tupleLeaf (dims tuple : List String) : Bool := (dims.zip tuple).all fun x => leafOf cube x.1 x.2

def tupleString (dims tuple : List String) : Bool :=
  (dims.zip tuple).any fun x => stringOf cube x.1 x.2

/-- A cell of the response. An error comes before a value, and a string cell
is never editable. -/
def cellDto (cs : Cellset) (overlaidFlags coveredFlags : List Bool) (ordinal : Nat) (value : Fixed) :
    CellsetCell :=
  let ncols := max cs.columnTuples.length 1
  let r := ordinal / ncols
  let c := ordinal % ncols
  let overlaid := overlaidFlags[ordinal]?.getD false
  let leafEditable := cs.context.all (fun x => leafOf cube x.1 x.2) &&
    (cs.rowTuples.map (tupleLeaf cube cs.rowDimensions))[r]?.getD false &&
    (cs.columnTuples.map (tupleLeaf cube cs.columnDimensions))[c]?.getD false
  let string := cs.context.any (fun x => stringOf cube x.1 x.2) ||
    (cs.rowTuples.map (tupleString cube cs.rowDimensions))[r]?.getD false ||
    (cs.columnTuples.map (tupleString cube cs.columnDimensions))[c]?.getD false
  match cs.cellErrors[ordinal]?.join with
  | some e => ⟨none, .error, false, ordinal, overlaid, some e⟩
  | none =>
    match cs.cellStrings[ordinal]?.join with
    | some text => ⟨some text, .string, false, ordinal, overlaid, none⟩
    | none =>
      if string then ⟨none, .string, false, ordinal, overlaid, none⟩
      else
        ⟨some value.toString, .numeric, leafEditable && !coveredFlags[ordinal]?.getD false,
          ordinal, overlaid, none⟩

/-- The cells of the response to a query. -/
def cellsetDto (cs : Cellset) (sandbox : Option Sandbox) (coverage : RuleCoverage) :
    List CellsetCell :=
  let coveredFlags :=
    if coverage.hasRules then cellCoordFlags cube (coverage.covers cube) cs else []
  cs.cells.mapIdx (cellDto cube cs (overlaidGrid cube cs sandbox) coveredFlags)

end Dto

/-! ## The walk fills the grid -/

/-- What a tuple sets, the next tuple of the same positions sets again. -/
theorem overlay_overlay {base : Coord} {ci tuple tuple' : List Nat} (hci : ci.Nodup)
    (hlen : tuple'.length = ci.length) (hlt : ∀ k ∈ ci, k < base.length) :
    overlay (overlay base ci tuple) ci tuple' = overlay base ci tuple' := by
  refine List.ext_getElem? fun k => ?_
  by_cases hk : k ∈ ci
  · obtain ⟨j, hj, rfl⟩ := List.getElem_of_mem hk
    have hx : (tuple'[j], ci[j]) ∈ tuple'.zip ci :=
      List.mem_of_getElem? (List.getElem?_zip_eq_some.2
        ⟨List.getElem?_eq_getElem (by omega), List.getElem?_eq_getElem hj⟩)
    have hbase := hlt _ (List.getElem_mem hj)
    rw [getElem?_overlay_of_mem hci hx hbase,
      getElem?_overlay_of_mem hci hx (by rw [length_overlay]; exact hbase)]
  · rw [getElem?_overlay hk, getElem?_overlay hk, getElem?_overlay hk]

section Fill

variable {hit : Coord → Bool} {base : Coord} {rowPos colPos : List Nat}

/-- A row fills its stretch of the flags, whatever column the scratch
coordinate had before. -/
theorem foldl_flagCell {ncols r : Nat} {cols : List (List Nat)} {start scratch : Coord}
    (hscratch : ∀ col ∈ cols, overlay scratch colPos col = overlay start colPos col)
    (hagain : ∀ col ∈ cols, ∀ col' ∈ cols,
      overlay (overlay start colPos col) colPos col' = overlay start colPos col')
    {c : Nat} {before after : List Bool} (hbefore : before.length = r * ncols + c) :
    (((cols.map some).zipIdx c).foldl (flagCell hit colPos ncols r)
      (scratch, before ++ List.replicate cols.length false ++ after)).2 =
        before ++ cols.map (fun col => hit (overlay start colPos col)) ++ after := by
  induction cols generalizing scratch c before with
  | nil => rfl
  | cons col cols ih =>
    have hstep : flagCell hit colPos ncols r
        (scratch, before ++ List.replicate (col :: cols).length false ++ after) (some col, c) =
        (overlay start colPos col, (before ++ [hit (overlay start colPos col)]) ++
          List.replicate cols.length false ++ after) := by
      unfold flagCell
      dsimp only
      rw [if_neg (by simp; omega), hscratch col List.mem_cons_self, ← hbefore, List.append_assoc,
        List.set_append_right _ _ (Nat.le_refl _), Nat.sub_self, List.length_cons,
        List.replicate_succ]
      simp
    rw [List.map_cons, List.zipIdx_cons, List.foldl_cons, hstep, ih]
    · simp
    · exact fun col' hcol' => hagain col List.mem_cons_self col' (List.mem_cons_of_mem _ hcol')
    · exact fun x hx y hy => hagain x (List.mem_cons_of_mem _ hx) y (List.mem_cons_of_mem _ hy)
    · simp [hbefore]
      omega

/-- The rows fill the grid, one after another. -/
theorem foldl_flagRow {rows cols : List (List Nat)}
    (hagain : ∀ row ∈ rows, ∀ col ∈ cols, ∀ col' ∈ cols,
      overlay (overlay (overlay base rowPos row) colPos col) colPos col' =
        overlay (overlay base rowPos row) colPos col')
    {r : Nat} {before : List Bool} (hbefore : before.length = r * cols.length) :
    ((rows.map some).zipIdx r).foldl
        (flagRow hit base rowPos colPos cols.length (cols.map some))
        (before ++ List.replicate (rows.length * cols.length) false) =
      before ++ rows.flatMap fun row =>
        cols.map fun col => hit (overlay (overlay base rowPos row) colPos col) := by
  induction rows generalizing r before with
  | nil => simp
  | cons row rows ih =>
    have hstep : flagRow hit base rowPos colPos cols.length (cols.map some)
        (before ++ List.replicate ((row :: rows).length * cols.length) false) (some row, r) =
        (before ++ cols.map fun col => hit (overlay (overlay base rowPos row) colPos col)) ++
          List.replicate (rows.length * cols.length) false := by
      have hsplit : List.replicate ((row :: rows).length * cols.length) false =
          List.replicate cols.length false ++ List.replicate (rows.length * cols.length) false := by
        rw [List.length_cons, Nat.succ_mul, Nat.add_comm, List.replicate_add]
      unfold flagRow
      dsimp only
      rw [hsplit, ← List.append_assoc]
      exact foldl_flagCell (fun _ _ => rfl) (hagain row List.mem_cons_self) (by omega)
    rw [List.map_cons, List.zipIdx_cons, List.foldl_cons, hstep, ih, List.flatMap_cons,
      List.append_assoc]
    · exact fun row' hrow' => hagain row' (List.mem_cons_of_mem _ hrow')
    · simp only [List.length_append, List.length_map, hbefore]
      ring

end Fill

/-! ## Names and members -/

section Members

variable {cube : Cube}

theorem mem_of_mem_keep {l out : List Nat} {i : Nat}
    (hi : i ∈ l.foldl (fun out i => if i ∈ out then out else out ++ [i]) out) :
    i ∈ out ∨ i ∈ l := by
  induction l generalizing out with
  | nil => exact .inl hi
  | cons a l ih =>
    rw [List.foldl_cons] at hi
    rcases ih hi with hout | hl
    · split_ifs at hout
      · exact .inl hout
      · rw [List.mem_append, List.mem_singleton] at hout
        exact hout.imp id fun ha => List.mem_cons.2 (.inl ha)
    · exact .inr (List.mem_cons_of_mem a hl)

/-- What a spec of an axis lists are elements of its dimension. -/
theorem lt_of_mem_resolveSpec (hn : (cube.dimensions.map Dimension.name).Nodup)
    {lookup : String → String → Option Subset} {eval : SetEvaluator}
    (heval : ∀ d ∈ cube.dimensions, ∀ mdx indices, eval d mdx = .ok indices →
      ∀ i ∈ indices, i < d.len) (hwf : ∀ d ∈ cube.dimensions, d.WF)
    {spec : AxisSpec} {list : List Nat} (h : resolveSpec cube lookup eval spec = .ok list)
    {p : Nat} {d : Dimension} (hd : cube.dimensions[p]? = some d) (hname : d.name = spec.dimension) :
    ∀ i ∈ list, i < d.len := by
  have hmem := List.mem_of_getElem? hd
  have hfind : ∀ {d'}, dimensionByName cube spec.dimension = .ok d' → d' = d := by
    intro d' hd'
    obtain ⟨hmem', hname'⟩ := Mdx.of_find_dimension (okOr_eq_ok.1 hd')
    exact Mdx.dimension_unique hn hd hmem' (hname'.trans hname.symm)
  have hmembers : ∀ {names : List String}, resolveMembers d names = .ok list →
      ∀ i ∈ list, i < d.len := by
    intro names hlist i hi
    obtain ⟨indices, hindices, hlist⟩ := bind_eq_ok.1 hlist
    obtain rfl := Except.ok.inj hlist
    rcases mem_of_mem_keep hi with hnil | hi
    · cases hnil
    · obtain ⟨n, -, hresolve⟩ := exists_of_mem_mapM hindices hi
      exact Mdx.lt_of_resolve (hwf d hmem) (okOr_eq_ok.1 hresolve)
  cases spec with
  | members dimension names =>
    obtain ⟨d', hd', h⟩ := bind_eq_ok.1 h
    obtain rfl := hfind hd'
    exact hmembers h
  | subset dimension subset =>
    obtain ⟨s, -, h⟩ := bind_eq_ok.1 h
    split_ifs at h with hdim
    rw [not_not] at hdim
    unfold resolveSubset at h
    rw [hdim] at h
    obtain ⟨d', hd', h⟩ := bind_eq_ok.1 h
    obtain rfl := hfind hd'
    split at h
    · exact hmembers h
    · exact heval d' hmem _ _ h

/-- A tuple of an axis: elements of its dimensions. -/
structure TupleOf (cube : Cube) (axis : List AxisSpec) (tuple : List Nat) : Prop where
  length : tuple.length = axis.length
  elements : ∀ x ∈ tuple.zip axis, ∃ (k : Nat) (d : Dimension), cube.dimensions[k]? = some d ∧
    d.name = x.2.dimension ∧ x.1 < d.len

/-- The dimensions of some names stand at the elements of these names. -/
def NamedAt (cube : Cube) (pairs : List (String × String)) (coord : Coord) : Prop :=
  ∀ x ∈ pairs, ∃ (k : Nat) (d : Dimension) (i : Nat), cube.dimensions[k]? = some d ∧
    d.name = x.1 ∧ d.indexOf x.2 = some i ∧ coord[k]? = some i

theorem resolve_of_indexOf {d : Dimension} {n : String} {i : Nat} (h : d.indexOf n = some i) :
    d.resolve n = some i := Dimension.resolve_eq_some.2 (.inl h)

theorem NamedAt.inContext {pairs : List (String × String)} {coord : Coord}
    (h : NamedAt cube pairs coord) : InContext cube pairs coord := by
  intro x hx
  obtain ⟨k, d, i, hd, hname, hi, hcoord⟩ := h x hx
  exact ⟨k, d, i, hd, hname, resolve_of_indexOf hi, hcoord⟩

theorem exists_kindAt {d : Dimension} {i : Nat} (hi : i < d.len) :
    ∃ kind, d.kindAt i = some kind :=
  ⟨_, by rw [Dimension.kindAt, List.getElem?_eq_getElem hi, Option.map_some]⟩

/-- The name of an element leads back to it. -/
theorem indexOf_elementName {d : Dimension} (hd : d.WF) {i : Nat} (hi : i < d.len) :
    d.indexOf ((d.elements[i]?.map Element.name).getD "") = some i := by
  obtain ⟨n, hname⟩ := Dimension.nameAt_isSome hi
  have helement : d.elements[i]?.map Element.name = some n := hname
  rw [helement, Option.getD_some]
  exact (hd.index n i).2 hname

section Tuples

variable (hn : (cube.dimensions.map Dimension.name).Nodup) (hwf : ∀ d ∈ cube.dimensions, d.WF)
  {axis : List AxisSpec} {tuple : List Nat}

include hn hwf

theorem tupleOf_of_mem {lookup : String → String → Option Subset} {eval : SetEvaluator}
    {mask : Option ElementMask} (hknown : ∀ spec ∈ axis, ∃ d ∈ cube.dimensions,
      d.name = spec.dimension)
    (heval : ∀ d ∈ cube.dimensions, ∀ mdx indices, eval d mdx = .ok indices →
      ∀ i ∈ indices, i < d.len)
    {lists : List (List Nat)} (hlists : axis.mapM (resolveSpec cube lookup eval) = .ok lists)
    (h : tuple ∈ axisTuples cube mask axis lists) : TupleOf cube axis tuple := by
  have hresolve := forall₂_iff_getElem?.1 (mapM_eq_ok.1 hlists)
  have hrows := mem_of_mem_axisTuples h
  rw [crossjoin_eq_rows, Sections.mem_rows] at hrows
  refine ⟨hrows.length_eq.trans hresolve.1.symm, fun x hx => ?_⟩
  obtain ⟨j, hj⟩ := List.mem_iff_getElem?.1 hx
  obtain ⟨hmember, hspec⟩ := List.getElem?_zip_eq_some.1 hj
  have hjlt : j < lists.length := by
    rw [← hresolve.1]
    exact (List.getElem?_eq_some_iff.1 hspec).1
  have hlist := List.getElem?_eq_getElem hjlt
  obtain ⟨d, hmem, hname⟩ := hknown x.2 (List.mem_of_getElem? hspec)
  obtain ⟨k, hd⟩ := List.mem_iff_getElem?.1 hmem
  refine ⟨k, d, hd, hname, ?_⟩
  exact lt_of_mem_resolveSpec hn heval hwf (hresolve.2 j _ _ hspec hlist) hd hname _
    ((forall₂_iff_getElem?.1 hrows).2 j _ _ hmember hlist)

/-- The names of a tuple resolve to it. -/
theorem resolveTuple_tupleNames (h : TupleOf cube axis tuple) :
    resolveTuple cube (axisPositions cube axis) (tupleNames cube (axisPositions cube axis) tuple) =
      some tuple := by
  obtain ⟨hlen, hall⟩ := h
  unfold resolveTuple tupleNames axisPositions
  induction axis generalizing tuple with
  | nil =>
    rw [List.length_eq_zero_iff.1 hlen]
    rfl
  | cons spec axis ih =>
    rcases tuple with _ | ⟨i, tuple⟩
    · cases hlen
    obtain ⟨k, d, hd, hname, hi⟩ := hall (i, spec) List.mem_cons_self
    have hrest := ih (Nat.succ.inj hlen) fun x hx => hall x (List.mem_cons_of_mem _ hx)
    have hindex := resolve_of_indexOf
      (indexOf_elementName (hwf d (List.mem_of_getElem? hd)) hi)
    have hdim : cube.dimension (position cube spec.dimension) = d := by
      rw [← hname, position_eq hn hd]
      exact Cube.dimension_eq hd
    simp only [List.map_cons, List.zip_cons_cons, List.mapM_cons, hdim, hindex, hrest]
    rfl

/-- The names of a tuple are of the elements that its coordinate is at. -/
theorem namedAt_tuple {coord : Coord} (h : TupleOf cube axis tuple)
    (hat : AtTuple cube axis tuple coord) :
    NamedAt cube ((axis.map AxisSpec.dimension).zip
      (tupleNames cube (axisPositions cube axis) tuple)) coord := by
  obtain ⟨hlen, hall⟩ := h
  unfold tupleNames axisPositions
  induction axis generalizing tuple with
  | nil => exact fun x hx => absurd hx List.not_mem_nil
  | cons spec axis ih =>
    rcases tuple with _ | ⟨i, tuple⟩
    · cases hlen
    intro x hx
    obtain ⟨k, d, hd, hname, hi⟩ := hall (i, spec) List.mem_cons_self
    obtain ⟨k', d', hd', hname', hcoord⟩ := hat (i, spec) List.mem_cons_self
    have hsame : k' = k := by rw [← position_eq hn hd', hname', ← hname, position_eq hn hd]
    subst hsame
    have hdim : cube.dimension (position cube spec.dimension) = d := by
      rw [← hname, position_eq hn hd]
      exact Cube.dimension_eq hd
    simp only [List.map_cons, List.zip_cons_cons, List.mem_cons] at hx
    rcases hx with rfl | hx
    · refine ⟨k', d, i, hd, hname, ?_, hcoord⟩
      rw [hdim]
      exact indexOf_elementName (hwf d (List.mem_of_getElem? hd)) hi
    · exact ih (fun y hy => hat y (List.mem_cons_of_mem _ hy)) (Nat.succ.inj hlen)
        (fun y hy => hall y (List.mem_cons_of_mem _ hy)) x hx

end Tuples

end Members

/-! ## What is left of a grid -/

/-- The rows and columns that are left of an execution, and their cells. -/
structure Kept (cube : Cube) (view : View) (cells : CellResolver) (cs : Cellset) (base : Coord)
    (rows columns : List (List Nat)) (value : List Nat → List Nat → CellOut) : Prop where
  coverage : validateCoverage cube view = .ok ()
  rowDimensions : cs.rowDimensions = view.rows.map AxisSpec.dimension
  columnDimensions : cs.columnDimensions = view.columns.map AxisSpec.dimension
  context : cs.context = view.context
  contextCoord : contextCoord cube cs.context (List.replicate cube.rank 0) = some base
  row : ∀ row ∈ rows, TupleOf cube view.rows row
  column : ∀ column ∈ columns, TupleOf cube view.columns column
  placed : ∀ row ∈ rows, ∀ column ∈ columns,
    PlacedAt cube view row column (gridCoord cube view base row column)
  read : ∀ row ∈ rows, ∀ column ∈ columns,
    readCell cube cells (gridCoord cube view base row column) = .ok (value row column)
  rowTuples : cs.rowTuples = rows.map (tupleNames cube (axisPositions cube view.rows))
  columnTuples : cs.columnTuples = columns.map (tupleNames cube (axisPositions cube view.columns))
  values : cs.cells = (rows.flatMap fun row => columns.map (value row)).map CellOut.value
  strings : cs.cellStrings = (rows.flatMap fun row => columns.map (value row)).map CellOut.string
  errors : cs.cellErrors = (rows.flatMap fun row => columns.map (value row)).map CellOut.error

section Grid

variable {cube : Cube} (hn : (cube.dimensions.map Dimension.name).Nodup)
  (hwf : ∀ d ∈ cube.dimensions, d.WF) {view : View} {cells : CellResolver} {cs : Cellset}
  {base : Coord} {rows columns : List (List Nat)} {value : List Nat → List Nat → CellOut}

include hn

theorem posOf_eq {n : String} (h : ∃ d ∈ cube.dimensions, d.name = n) :
    posOf cube n = some (position cube n) := by
  obtain ⟨d, hd, hname⟩ := exists_position hn h
  obtain ⟨hlt, hget⟩ := List.getElem?_eq_some_iff.1 hd
  unfold posOf
  refine List.findIdx?_eq_some_iff_getElem.2 ⟨hlt, ?_, fun j hj hsame => ?_⟩
  · rw [hget]
    exact decide_eq_true hname
  · have hpos := position_eq hn (List.getElem?_eq_getElem (by omega : j < cube.dimensions.length))
    rw [of_decide_eq_true hsame] at hpos
    omega

theorem mapM_posOf {names : List String} (h : ∀ n ∈ names, ∃ d ∈ cube.dimensions, d.name = n) :
    names.mapM (posOf cube) = some (names.map (position cube)) := by
  induction names with
  | nil => rfl
  | cons n names ih =>
    rw [List.mapM_cons, posOf_eq hn (h n List.mem_cons_self),
      ih fun m hm => h m (List.mem_cons_of_mem n hm)]
    rfl

/-- The context is resolved as it was for the execution. -/
theorem contextCoord_of_resolveContext {mask : Option ElementMask}
    {context : List (String × String)} {start : Coord}
    (hknown : ∀ x ∈ context, ∃ d ∈ cube.dimensions, d.name = x.1)
    (h : resolveContext cube mask context start = .ok base) :
    contextCoord cube context start = some base := by
  induction context generalizing start with
  | nil =>
    obtain rfl := Except.ok.inj h
    rfl
  | cons x context ih =>
    unfold resolveContext at h
    obtain ⟨i, hi, h⟩ := bind_eq_ok.1 h
    split_ifs at h
    unfold contextCoord
    rw [posOf_eq hn (hknown x List.mem_cons_self)]
    dsimp only [Option.bind_eq_bind, Option.bind_some]
    rw [okOr_eq_ok.1 hi, Option.bind_some]
    exact ih (fun y hy => hknown y (List.mem_cons_of_mem x hy)) h

include hwf

theorem kept_of_executeViewWith {lookup : String → String → Option Subset} {eval : SetEvaluator}
    {mask : Option ElementMask} {par : Parallelism}
    (heval : ∀ d ∈ cube.dimensions, ∀ mdx indices, eval d mdx = .ok indices →
      ∀ i ∈ indices, i < d.len)
    (h : executeViewWith cube view cells lookup eval mask par = .ok cs) :
    ∃ base rows columns value, Kept cube view cells cs base rows columns value := by
  obtain ⟨base, rowLists, columnLists, value, hexec⟩ := executed_of_executeViewWith hn h
  obtain ⟨hknown, -, -⟩ := validateCoverage_eq_ok.1 hexec.coverage
  have haxis : ∀ spec ∈ view.rows ++ view.columns, ∃ d ∈ cube.dimensions,
      d.name = spec.dimension := fun spec hspec =>
    hknown _ (List.mem_append_left _ (List.mem_map_of_mem hspec))
  obtain ⟨kept, rfl, hvalues, hstrings, herrors⟩ := hexec.grid.cells
  refine ⟨base, _, _, value,
    { coverage := hexec.coverage
      rowDimensions := hexec.rowDimensions
      columnDimensions := hexec.columnDimensions
      context := hexec.context
      contextCoord := ?_
      row := fun row hrow => ?_
      column := fun column hcolumn => ?_
      placed := fun row hrow column hcolumn => hexec.placed row (List.mem_of_mem_filter hrow)
        column (List.mem_of_mem_filter hcolumn)
      read := fun row hrow column hcolumn => hexec.cells row (List.mem_of_mem_filter hrow)
        column (List.mem_of_mem_filter hcolumn)
      rowTuples := hexec.grid.rowTuples
      columnTuples := hexec.grid.columnTuples
      values := hvalues
      strings := hstrings
      errors := herrors }⟩
  · rw [hexec.context]
    exact contextCoord_of_resolveContext hn (fun x hx =>
      hknown _ (List.mem_append_right _ (List.mem_map_of_mem hx))) hexec.resolvedContext
  · exact tupleOf_of_mem hn hwf (fun spec hspec => haxis spec (List.mem_append_left _ hspec)) heval
      hexec.resolvedRows (List.mem_of_mem_filter hrow)
  · exact tupleOf_of_mem hn hwf (fun spec hspec => haxis spec (List.mem_append_right _ hspec)) heval
      hexec.resolvedColumns (List.mem_of_mem_filter hcolumn)

/-- **The flags of a grid**: each cell has that of its own coordinate. -/
theorem Kept.cellCoordFlags_eq (h : Kept cube view cells cs base rows columns value)
    (hit : Coord → Bool) : cellCoordFlags cube hit cs =
      rows.flatMap fun row => columns.map fun column => hit (gridCoord cube view base row column) := by
  obtain ⟨hknown, -, -⟩ := validateCoverage_eq_ok.1 h.coverage
  have hpositions : ∀ axis ⊆ view.rows ++ view.columns,
      (axis.map AxisSpec.dimension).mapM (posOf cube) = some (axisPositions cube axis) :=
    fun axis hsub => mapM_posOf hn fun n hmem => hknown n (by
      obtain ⟨spec, hspec, rfl⟩ := List.mem_map.1 hmem
      exact List.mem_append_left _ (List.mem_map_of_mem (hsub hspec)))
  have hresolve : ∀ {axis : List AxisSpec} {tuples : List (List Nat)},
      (∀ t ∈ tuples, TupleOf cube axis t) →
      (tuples.map (tupleNames cube (axisPositions cube axis))).map
        (resolveTuple cube (axisPositions cube axis)) = tuples.map some := by
    intro axis tuples hall
    rw [List.map_map]
    exact List.map_congr_left fun t ht => resolveTuple_tupleNames hn hwf (hall t ht)
  have hcells : cs.cells.length = rows.length * columns.length := by
    rw [h.values]
    simp [List.length_flatMap]
  obtain ⟨-, hcolumnPos, -⟩ := nodup_axisPositions hn h.coverage
  -- a column sets its positions, whatever stood at them
  have hagain : ∀ row ∈ rows, ∀ column ∈ columns, ∀ column' ∈ columns,
      overlay (overlay (overlay base (axisPositions cube view.rows) row)
        (axisPositions cube view.columns) column) (axisPositions cube view.columns) column' =
      overlay (overlay base (axisPositions cube view.rows) row)
        (axisPositions cube view.columns) column' := by
    intro row hrow column hcolumn column' hcolumn'
    have hrank := (h.placed row hrow column hcolumn).rank
    unfold gridCoord at hrank
    rw [length_overlay] at hrank
    refine overlay_overlay hcolumnPos ?_ fun k hk => ?_
    · rw [(h.column column' hcolumn').length]
      simp [axisPositions]
    · obtain ⟨n, hmem, rfl⟩ := List.mem_map.1 hk
      obtain ⟨spec, hspec, rfl⟩ := List.mem_map.1 hmem
      obtain ⟨d, hd, -⟩ := exists_position hn (hknown _ (List.mem_append_left _
        (List.mem_map_of_mem (List.mem_append_right _ hspec))))
      rw [hrank]
      exact (List.getElem?_eq_some_iff.1 hd).1
  have hfill : ((rows.map some).zipIdx 0).foldl
      (flagRow hit base (axisPositions cube view.rows) (axisPositions cube view.columns)
        columns.length (columns.map some))
      ([] ++ List.replicate (rows.length * columns.length) false) =
      [] ++ rows.flatMap fun row => columns.map fun column =>
        hit (gridCoord cube view base row column) := foldl_flagRow hagain (by simp)
  unfold cellCoordFlags
  rw [h.rowDimensions, h.columnDimensions, hpositions _ (List.subset_append_left _ _),
    hpositions _ (List.subset_append_right _ _), h.contextCoord]
  dsimp only
  rw [h.rowTuples, h.columnTuples, hresolve h.row, hresolve h.column, hcells, List.length_map]
  rcases columns with _ | ⟨column, columns⟩
  · -- without columns there is no cell, and a row has nothing to fill
    exact hfill
  · rw [List.nil_append, List.nil_append] at hfill
    rw [Nat.max_eq_left (by simp)]
    exact hfill

end Grid

/-! ## A write under shown names -/

/-- Members of each dimension, by name or alias, and the coordinate they are
at. -/
structure Shown (cube : Cube) (members : List (String × String)) (coord : Coord) : Prop where
  perm : (members.map Prod.fst).Perm (cube.dimensions.map Dimension.name)
  rank : coord.length = cube.rank
  at_ : InContext cube members coord

/-- The members are given by the names of their elements. -/
def ByName (cube : Cube) (members : List (String × String)) : Prop :=
  ∀ x ∈ members, ∀ d ∈ cube.dimensions, d.name = x.1 → (d.indexOf x.2).isSome

/-- A number that is written under some names is accepted: the write is built,
and no rule computes its leaf. -/
def WriteAccepted (env : WriteEnv) (m : Model) (names : FinMap String String) (text : String) :
    Prop :=
  ∃ write, m.cube.buildWrite ⟨names, text⟩ = .ok write ∧
    env.rejectRuleCoveredWrites m [write] = .ok ()

namespace Shown

variable {cube : Cube} (hn : (cube.dimensions.map Dimension.name).Nodup)
  {members : List (String × String)} {coord : Coord}

include hn

/-- What holds of the members holds of the coordinate. -/
theorem forall₂_coord (h : Shown cube members coord) {P : Nat → Dimension → Prop}
    (hall : ∀ x ∈ members, ∀ d ∈ cube.dimensions, ∀ i, d.name = x.1 → d.resolve x.2 = some i →
      P i d) : List.Forall₂ P coord cube.dimensions := by
  refine forall₂_iff_getElem?.2 ⟨h.rank, fun k i d hi hd => ?_⟩
  have hmem := List.mem_of_getElem? hd
  have hname : d.name ∈ members.map Prod.fst :=
    h.perm.mem_iff.2 (List.mem_map_of_mem hmem)
  obtain ⟨x, hx, hname⟩ := List.mem_map.1 hname
  obtain ⟨k', d', i', hd', hname', hresolve, hi'⟩ := h.at_ x hx
  have hsame : k' = k := by rw [← position_eq hn hd', hname', hname, position_eq hn hd]
  subst hsame
  obtain rfl := Option.some.inj (hd.symm.trans hd')
  obtain rfl := Option.some.inj (hi.symm.trans hi')
  exact hall x hx d hmem i hname.symm hresolve

theorem get_names (h : Shown cube members coord) {n text : String} :
    (FinMap.collect members)[n]? = some text ↔ (n, text) ∈ members :=
  FinMap.get_collect (FinMap.functional_of_nodup (h.perm.nodup_iff.2 hn))

theorem size_names (h : Shown cube members coord) : (FinMap.collect members).size = cube.rank := by
  have hnodup := List.Nodup.of_map _ (h.perm.nodup_iff.2 hn)
  have hperm := FinMap.toList_perm_iff hnodup fun n text => h.get_names hn
  have hlen := h.perm.length_eq
  rw [List.length_map, List.length_map] at hlen
  rw [← Std.ExtTreeMap.length_toList, hperm.length_eq, hlen]
  rfl

/-- **The names of members resolve** exactly where they are names of elements,
and then to the coordinate that the members are at. -/
theorem resolve_names_eq_ok (h : Shown cube members coord) {r : Resolved} :
    cube.resolve (FinMap.collect members) = .ok r ↔ ByName cube members ∧
      r = ⟨coord, (coord.zip cube.dimensions).any fun x => x.2.kindAt x.1 = some .string,
        (coord.zip cube.dimensions).all fun x => x.2.kindAt x.1 ≠ some .consolidated⟩ := by
  have hfold : ByName cube members → List.Forall₂
      (fun i d => ∃ n, (FinMap.collect members)[d.name]? = some n ∧ d.indexOf n = some i)
      coord cube.dimensions := by
    refine fun hby => h.forall₂_coord hn fun x hx d hd i hname hresolve => ?_
    obtain ⟨j, hj⟩ := Option.isSome_iff_exists.1 (hby x hx d hd hname)
    rw [resolve_of_indexOf hj] at hresolve
    refine ⟨x.2, (h.get_names hn).2 (hname ▸ hx), ?_⟩
    rw [hj, hresolve]
  unfold Cube.resolve
  rw [if_neg (not_not.2 (h.size_names hn))]
  constructor
  · intro hok
    obtain ⟨a, -, hall⟩ := Cube.components_of_resolve hok
    have hby : ByName cube members := by
      intro x hx d hd hname
      obtain ⟨k, hk⟩ := List.mem_iff_getElem?.1 hd
      obtain ⟨hlen, hat⟩ := forall₂_iff_getElem?.1 hall
      have hklt : k < a.length := by
        rw [hlen]
        exact (List.getElem?_eq_some_iff.1 hk).1
      obtain ⟨n, hget, hindex⟩ := hat k _ d (List.getElem?_eq_getElem hklt) hk
      rw [hname, (h.get_names hn).2 hx] at hget
      rw [Option.some.inj hget, hindex]
      rfl
    refine ⟨hby, ?_⟩
    rw [Cube.foldlM_resolveComponent (hfold hby)] at hok
    exact (Except.ok.inj hok).symm
  · rintro ⟨hby, rfl⟩
    exact Cube.foldlM_resolveComponent (hfold hby) _

/-- What all members have, all components of the coordinate have. -/
theorem all_members (h : Shown cube members coord) {f : String × String → Bool}
    {g : Nat × Dimension → Bool} (hfg : ∀ x ∈ members, ∀ d ∈ cube.dimensions, ∀ i,
      d.name = x.1 → d.resolve x.2 = some i → f x = g (i, d)) :
    members.all f = (coord.zip cube.dimensions).all g := by
  rw [Bool.eq_iff_iff, List.all_eq_true, List.all_eq_true]
  constructor
  · intro hall
    have hcoord := h.forall₂_coord hn fun x hx d hd i hname hresolve =>
      (hfg x hx d hd i hname hresolve).symm.trans (hall x hx)
    exact fun y hy => (List.forall₂_iff_zip.1 hcoord).2 hy
  · intro hall x hx
    obtain ⟨k, d, i, hd, hname, hresolve, hi⟩ := h.at_ x hx
    rw [hfg x hx d (List.mem_of_getElem? hd) i hname hresolve]
    exact hall _ (List.mem_of_getElem? (List.getElem?_zip_eq_some.2 ⟨hi, hd⟩))

theorem memberKind_eq {x : String × String} {d : Dimension} (hd : d ∈ cube.dimensions) {i : Nat}
    (hname : d.name = x.1) (hresolve : d.resolve x.2 = some i) :
    memberKind cube x.1 x.2 = d.kindAt i := by
  obtain ⟨k, hk⟩ := List.mem_iff_getElem?.1 hd
  unfold memberKind
  rw [← hname, Mdx.find_dimension hn hk, Option.bind_some, hresolve, Option.bind_some]

/-- Where no member is consolidated, no component is. -/
theorem all_leafOf (hwf : ∀ d ∈ cube.dimensions, d.WF) (h : Shown cube members coord) :
    (members.all fun x => leafOf cube x.1 x.2) =
      (coord.zip cube.dimensions).all fun x => x.2.kindAt x.1 ≠ some .consolidated := by
  refine h.all_members hn fun x hx d hd i hname hresolve => ?_
  obtain ⟨kind, hkind⟩ := exists_kindAt (Mdx.lt_of_resolve (hwf d hd) hresolve)
  unfold leafOf
  rw [memberKind_eq hn hd hname hresolve]
  dsimp only
  rw [hkind]
  cases kind <;> rfl

/-- A member is a string where a component is. -/
theorem any_stringOf (h : Shown cube members coord) :
    (members.any fun x => stringOf cube x.1 x.2) = addressesString cube coord := by
  have hall := h.all_members (f := fun x => !stringOf cube x.1 x.2)
    (g := fun x => !(x.2.kindAt x.1).any ElementKind.isString) hn
    fun x hx d hd i hname hresolve => by
      unfold stringOf
      rw [memberKind_eq hn hd hname hresolve]
  unfold addressesString
  rw [List.any_eq_not_all_not, List.any_eq_not_all_not, hall]

theorem unique (h : Shown cube members coord) {coord' : Coord} (h' : Shown cube members coord') :
    coord = coord' := by
  have hall : List.Forall₂ (fun i d => ∃ x ∈ members, d.name = x.1 ∧ d.resolve x.2 = some i) coord
      cube.dimensions := h.forall₂_coord hn fun x hx d _ i hname hresolve =>
    ⟨x, hx, hname, hresolve⟩
  refine List.ext_getElem (h.rank.trans h'.rank.symm) fun k hk hk' => ?_
  have hklt : k < cube.dimensions.length := lt_of_lt_of_eq hk h.rank
  obtain ⟨x, hx, hname, hresolve⟩ := (forall₂_iff_getElem?.1 hall).2 k _ _
    (List.getElem?_eq_getElem hk) (List.getElem?_eq_getElem hklt)
  obtain ⟨j, d, i, hd, hname', hresolve', hi⟩ := h'.at_ x hx
  have hjk : j = k := by
    rw [← position_eq hn hd, hname', ← hname, position_eq hn (List.getElem?_eq_getElem hklt)]
  subst hjk
  rw [List.getElem?_eq_getElem hklt] at hd
  obtain rfl := Option.some.inj hd
  rw [hresolve] at hresolve'
  rw [List.getElem?_eq_getElem hk'] at hi
  rw [Option.some.inj hresolve', Option.some.inj hi]

/-- Numeric leaves are neither strings nor consolidated. -/
theorem leaves_iff (hwf : ∀ d ∈ cube.dimensions, d.WF) (h : Shown cube members coord) :
    (∀ x ∈ coord.zip cube.dimensions, x.2.kindAt x.1 = some .leaf) ↔
      addressesString cube coord = false ∧
        ((coord.zip cube.dimensions).all fun x => x.2.kindAt x.1 ≠ some .consolidated) = true := by
  have hrange := h.forall₂_coord (P := fun i d => i < d.len) hn
    fun _ _ d hd _ _ hresolve => Mdx.lt_of_resolve (hwf d hd) hresolve
  rw [List.forall₂_iff_zip] at hrange
  unfold addressesString
  rw [List.any_eq_false, List.all_eq_true, ← forall₂_and]
  refine forall₂_congr fun x hx => ?_
  obtain ⟨kind, hkind⟩ := exists_kindAt (hrange.2 hx)
  rw [hkind]
  cases kind <;> simp [ElementKind.isString]

omit hn in
/-- **A number is accepted** for a numeric cell where its members are given by
name, none is consolidated, and no rule computes the leaf. -/
theorem writeAccepted_iff {env : WriteEnv} {m : Model}
    (hn : (m.cube.dimensions.map Dimension.name).Nodup) (h : Shown m.cube members coord)
    (hnumeric : addressesString m.cube coord = false) {text : String} {number : Fixed}
    (hnumber : Fixed.fromStr text = .ok number) :
    WriteAccepted env m (FinMap.collect members) text ↔ ByName m.cube members ∧
      ((coord.zip m.cube.dimensions).all fun x => x.2.kindAt x.1 ≠ some .consolidated) = true ∧
      env.covers m coord = false := by
  have hstring : ((coord.zip m.cube.dimensions).any fun x => x.2.kindAt x.1 = some .string) =
      false := by
    rw [← hnumeric]
    unfold addressesString
    refine congrArg (List.any _) (funext fun x => ?_)
    rcases x.2.kindAt x.1 with - | - | - | - <;> rfl
  have hgate : env.rejectRuleCoveredWrites m [.leaf coord number] = .ok () ↔
      env.covers m coord = false := by
    unfold WriteEnv.rejectRuleCoveredWrites
    rw [SecurityStore.gate_eq_ok]
    simp [Cube.CellWrite.isLeaf, Cube.CellWrite.coord]
  unfold WriteAccepted Cube.buildWrite
  constructor
  · rintro ⟨write, hbuild, haccept⟩
    obtain ⟨r, hr, hbuild⟩ := bind_eq_ok.1 hbuild
    obtain ⟨hby, rfl⟩ := (h.resolve_names_eq_ok hn).1 hr
    dsimp only at hbuild
    rw [hstring, if_neg Bool.false_ne_true] at hbuild
    split_ifs at hbuild with hleaf
    obtain ⟨n, hnum, hbuild⟩ := bind_eq_ok.1 hbuild
    rw [mapError_eq_ok, hnumber] at hnum
    obtain rfl := Except.ok.inj hnum
    obtain rfl := Except.ok.inj hbuild
    exact ⟨hby, by simpa using hleaf, hgate.1 haccept⟩
  · rintro ⟨hby, hleaf, hcovers⟩
    refine ⟨.leaf coord number, bind_eq_ok.2 ⟨_, (h.resolve_names_eq_ok hn).2 ⟨hby, rfl⟩, ?_⟩,
      hgate.2 hcovers⟩
    dsimp only
    rw [hleaf, hstring, if_neg (by simp), if_neg (by simp)]
    exact bind_eq_ok.2 ⟨number, mapError_eq_ok.2 hnumber, rfl⟩

end Shown

/-! ## The cells of a response -/

/-- The members that are shown for a cell, by dimension. -/
def shownMembers (cs : Cellset) (k : Nat) : List (String × String) :=
  let ncols := max cs.columnTuples.length 1
  cs.rowDimensions.zip (cs.rowTuples.getD (k / ncols) []) ++
    cs.columnDimensions.zip (cs.columnTuples.getD (k % ncols) []) ++ cs.context

/-- What a cellset has for a cell: its own coordinate, where it was read, the
members that are shown for it, and the flag of the coordinate. -/
structure CellAt (cube : Cube) (cells : CellResolver) (cs : Cellset) (k : Nat) (coord : Coord)
    (out : CellOut) : Prop where
  read : readCell cube cells coord = .ok out
  value : cs.cells[k]? = some out.value
  string : cs.cellStrings[k]? = some out.string
  error : cs.cellErrors[k]? = some out.error
  shown : Shown cube (shownMembers cs k) coord
  axes : ByName cube (shownMembers cs k) ↔ ByName cube cs.context
  row : cs.rowTuples[k / max cs.columnTuples.length 1]? =
    some (cs.rowTuples.getD (k / max cs.columnTuples.length 1) [])
  column : cs.columnTuples[k % max cs.columnTuples.length 1]? =
    some (cs.columnTuples.getD (k % max cs.columnTuples.length 1) [])
  flag : ∀ hit, (cellCoordFlags cube hit cs)[k]? = some (hit coord)

section Cells

variable {cube : Cube} (hn : (cube.dimensions.map Dimension.name).Nodup)
  (hwf : ∀ d ∈ cube.dimensions, d.WF) {view : View} {cells : CellResolver} {cs : Cellset}
  {base : Coord} {rows columns : List (List Nat)} {value : List Nat → List Nat → CellOut}

include hn hwf

theorem Kept.exists_cellAt (h : Kept cube view cells cs base rows columns value) {k : Nat}
    (hk : k < cs.cells.length) : ∃ coord out, CellAt cube cells cs k coord out := by
  have hlen : k < (rows.flatMap fun row => columns.map (value row)).length := by
    rw [h.values, List.length_map] at hk
    exact hk
  obtain ⟨row, column, hrow, hcolumn, hout⟩ :=
    Sections.getElem?_grid.1 (List.getElem?_eq_getElem hlen)
  have hkept : (rows.flatMap fun row => columns.map (value row))[k]? = some (value row column) :=
    Sections.getElem?_grid.2 ⟨row, column, hrow, hcolumn, rfl⟩
  have hrowMem := List.mem_of_getElem? hrow
  have hcolumnMem := List.mem_of_getElem? hcolumn
  have hplaced := h.placed row hrowMem column hcolumnMem
  have hcols : max cs.columnTuples.length 1 = columns.length := by
    rw [h.columnTuples, List.length_map]
    have := List.length_pos_of_mem hcolumnMem
    omega
  have hrowTuple : cs.rowTuples[k / max cs.columnTuples.length 1]? =
      some (tupleNames cube (axisPositions cube view.rows) row) := by
    rw [hcols, h.rowTuples, List.getElem?_map, hrow, Option.map_some]
  have hcolumnTuple : cs.columnTuples[k % max cs.columnTuples.length 1]? =
      some (tupleNames cube (axisPositions cube view.columns) column) := by
    rw [hcols, h.columnTuples, List.getElem?_map, hcolumn, Option.map_some]
  have hrowNamed := namedAt_tuple hn hwf (h.row row hrowMem) hplaced.row
  have hcolumnNamed := namedAt_tuple hn hwf (h.column column hcolumnMem) hplaced.column
  have hmembers : shownMembers cs k =
      (view.rows.map AxisSpec.dimension).zip
        (tupleNames cube (axisPositions cube view.rows) row) ++
      (view.columns.map AxisSpec.dimension).zip
        (tupleNames cube (axisPositions cube view.columns) column) ++ view.context := by
    unfold shownMembers
    dsimp only
    rw [List.getD_eq_getElem?_getD, hrowTuple, List.getD_eq_getElem?_getD, hcolumnTuple,
      h.rowDimensions, h.columnDimensions, h.context, Option.getD_some, Option.getD_some]
  have hfst : ∀ {axis : List AxisSpec} {tuple : List Nat}, tuple.length = axis.length →
      ((axis.map AxisSpec.dimension).zip
        (tupleNames cube (axisPositions cube axis) tuple)).map Prod.fst =
        axis.map AxisSpec.dimension := by
    intro axis tuple hlen
    refine List.map_fst_zip ?_
    simp [tupleNames, axisPositions, hlen]
  -- a member of an axis is given by the name of its element
  have hby : ∀ {pairs : List (String × String)}, NamedAt cube pairs (gridCoord cube view base row
      column) → ByName cube pairs := by
    intro pairs hnamed x hx d hd hname
    obtain ⟨k', d', i, hd', hname', hi, -⟩ := hnamed x hx
    obtain rfl := Mdx.dimension_unique hn hd' hd (hname.trans hname'.symm)
    rw [hi]
    rfl
  refine ⟨_, _,
    { read := h.read row hrowMem column hcolumnMem
      value := by rw [h.values, List.getElem?_map, hkept, Option.map_some]
      string := by rw [h.strings, List.getElem?_map, hkept, Option.map_some]
      error := by rw [h.errors, List.getElem?_map, hkept, Option.map_some]
      shown := ⟨?_, hplaced.rank, ?_⟩
      axes := ?_
      row := by rw [List.getD_eq_getElem?_getD, hrowTuple, Option.getD_some]
      column := by rw [List.getD_eq_getElem?_getD, hcolumnTuple, Option.getD_some]
      flag := fun hit => ?_ }⟩
  · rw [hmembers, List.map_append, List.map_append, hfst (h.row row hrowMem).length,
      hfst (h.column column hcolumnMem).length, ← List.map_append]
    exact perm_of_validateCoverage hn h.coverage
  · rw [hmembers]
    intro x hx
    rcases List.mem_append.1 hx with hx | hx
    · rcases List.mem_append.1 hx with hx | hx
      · exact hrowNamed.inContext x hx
      · exact hcolumnNamed.inContext x hx
    · exact hplaced.context x hx
  · rw [hmembers, h.context]
    constructor
    · exact fun hall x hx => hall x (List.mem_append_right _ hx)
    · intro hcontext x hx
      rcases List.mem_append.1 hx with hx | hx
      · rcases List.mem_append.1 hx with hx | hx
        · exact hby hrowNamed x hx
        · exact hby hcolumnNamed x hx
      · exact hcontext x hx
  · rw [h.cellCoordFlags_eq hn hwf hit]
    exact Sections.getElem?_grid.2 ⟨row, column, hrow, hcolumn, rfl⟩

omit hn hwf in
/-- A cell that is at no string element has no text. -/
theorem CellAt.string_eq_none {k : Nat} {coord : Coord} {out : CellOut}
    (h : CellAt cube cells cs k coord out) (hnumeric : addressesString cube coord = false) :
    out.string = none := by
  have hread := h.read
  unfold readCell cellAt degrade at hread
  rw [hnumeric, if_neg Bool.false_ne_true] at hread
  rcases hvalue : cells.value coord with e | v
  · rw [hvalue] at hread
    dsimp only at hread
    split_ifs at hread
    rw [← Except.ok.inj hread]
    rfl
  · rw [hvalue] at hread
    rw [← Except.ok.inj hread]
    rfl

/-- The halves of the leaf test are the test of the coordinate. -/
theorem CellAt.leafEditable {k : Nat} {coord : Coord} {out : CellOut}
    (h : CellAt cube cells cs k coord out) :
    (cs.context.all (fun x => leafOf cube x.1 x.2) &&
      (cs.rowTuples.map (tupleLeaf cube cs.rowDimensions))[
        k / max cs.columnTuples.length 1]?.getD false &&
      (cs.columnTuples.map (tupleLeaf cube cs.columnDimensions))[
        k % max cs.columnTuples.length 1]?.getD false) =
      (coord.zip cube.dimensions).all fun x => x.2.kindAt x.1 ≠ some .consolidated := by
  rw [← h.shown.all_leafOf hn hwf, List.getElem?_map, List.getElem?_map, h.row, h.column,
    Option.map_some, Option.map_some, Option.getD_some, Option.getD_some]
  unfold shownMembers tupleLeaf
  dsimp only
  rw [List.all_append, List.all_append, Bool.and_comm, Bool.and_comm (List.all _ _) (List.all _ _),
    ← Bool.and_assoc, Bool.and_comm (List.all (cs.columnDimensions.zip _) _)]

omit hwf in
/-- And so are those of the string test. -/
theorem CellAt.stringCell {k : Nat} {coord : Coord} {out : CellOut}
    (h : CellAt cube cells cs k coord out) :
    (cs.context.any (fun x => stringOf cube x.1 x.2) ||
      (cs.rowTuples.map (tupleString cube cs.rowDimensions))[
        k / max cs.columnTuples.length 1]?.getD false ||
      (cs.columnTuples.map (tupleString cube cs.columnDimensions))[
        k % max cs.columnTuples.length 1]?.getD false) = addressesString cube coord := by
  rw [← h.shown.any_stringOf hn, List.getElem?_map, List.getElem?_map, h.row, h.column,
    Option.map_some, Option.map_some, Option.getD_some, Option.getD_some]
  unfold shownMembers tupleString
  dsimp only
  rw [List.any_append, List.any_append, Bool.or_comm, Bool.or_comm (List.any _ _) (List.any _ _),
    ← Bool.or_assoc, Bool.or_comm (List.any (cs.columnDimensions.zip _) _)]

/-- What a cell of the response says, by its own coordinate. -/
structure Marks (cube : Cube) (coord : Coord) (out : CellOut) (overlaid covered : Bool)
    (cell : CellsetCell) : Prop where
  overlaid : cell.overlaid = overlaid
  error : cell.error = out.error
  numeric : cell.kind = .numeric ↔ out.error = none ∧ addressesString cube coord = false
  editable : cell.editable = true ↔ out.error = none ∧ addressesString cube coord = false ∧
    ((coord.zip cube.dimensions).all fun x => x.2.kindAt x.1 ≠ some .consolidated) = true ∧
    covered = false

theorem CellAt.marks {k : Nat} {coord : Coord} {out : CellOut}
    (h : CellAt cube cells cs k coord out) (overlaidFlags coveredFlags : List Bool) (v : Fixed) :
    Marks cube coord out (overlaidFlags[k]?.getD false) (coveredFlags[k]?.getD false)
      (cellDto cube cs overlaidFlags coveredFlags k v) := by
  unfold cellDto
  dsimp only
  rw [h.leafEditable hn hwf, h.stringCell hn, h.error, h.string, Option.join_some, Option.join_some]
  rcases herror : out.error with _ | e
  · rcases hstring : out.string with _ | text
    · dsimp only
      split_ifs with hs
      · exact ⟨rfl, herror.symm, by simp [hs], by simp [hs]⟩
      · rw [Bool.not_eq_true] at hs
        exact ⟨rfl, herror.symm, by simp [hs, herror], by simp [hs, herror]⟩
    · -- a text is of a string element
      have hs : addressesString cube coord ≠ false := fun hs => by
        rw [h.string_eq_none hs] at hstring
        cases hstring
      exact ⟨rfl, herror.symm, by simp [hs], by simp [hs]⟩
  · exact ⟨rfl, herror.symm, by simp [herror], by simp [herror]⟩

end Cells

/-! ## Flags and writes -/

/-- The flags of a cell match the cell and the write path: `coord` is where the
cell was read and what its members lead to. -/
structure FlagsMatch (env : WriteEnv) (m : Model) (sandbox : Option Sandbox) (cells : CellResolver)
    (cs : Cellset) (k : Nat) (coord : Coord) (cell : CellsetCell) : Prop where
  read : ∃ out, readCell m.cube cells coord = .ok out ∧ cs.cells[k]? = some out.value ∧
    cs.cellStrings[k]? = some out.string ∧ cs.cellErrors[k]? = some out.error
  shown : Shown m.cube (shownMembers cs k) coord
  overlaid : cell.overlaid = sandbox.any fun sb => (sb.cells[coord]?).isSome
  editable : ∀ text number, Fixed.fromStr text = .ok number → (cell.editable = true ↔
    cell.kind = .numeric ∧ cell.error = none ∧
      WriteAccepted env m (FinMap.collect (shownMembers cs k)) text)

/-- The flags of every cell match. -/
def FlagsMatchAll (env : WriteEnv) (m : Model) (sandbox : Option Sandbox) (cells : CellResolver)
    (cs : Cellset) : Prop :=
  ∀ k < cs.cells.length, ∃ coord cell,
    (cellsetDto m.cube cs sandbox (RuleCoverage.build env m))[k]? = some cell ∧
      FlagsMatch env m sandbox cells cs k coord cell

/-- A cell without error, at numeric leaves that no rule computes. -/
def OpenCell (env : WriteEnv) (m : Model) (cs : Cellset) (k : Nat) : Prop :=
  cs.cellErrors[k]?.join = none ∧ ∃ coord, Shown m.cube (shownMembers cs k) coord ∧
    (∀ x ∈ coord.zip m.cube.dimensions, x.2.kindAt x.1 = some .leaf) ∧ env.covers m coord = false

section Match

variable {env : WriteEnv} {m : Model} {sandbox : Option Sandbox} {cells : CellResolver}
  {cs : Cellset} {k : Nat} {coord : Coord} {out : CellOut}

theorem CellAt.overlaidFlag (h : CellAt m.cube cells cs k coord out) :
    (overlaidGrid m.cube cs sandbox)[k]?.getD false =
      sandbox.any fun sb => (sb.cells[coord]?).isSome := by
  unfold overlaidGrid
  rcases sandbox with _ | sb
  · dsimp only
    rw [List.getElem?_replicate]
    split_ifs <;> rfl
  · dsimp only
    rw [h.flag, Option.getD_some, Option.any_some]

/-- Without rules none covers a leaf. -/
theorem CellAt.coveredFlag (h : CellAt m.cube cells cs k coord out) :
    (if (RuleCoverage.build env m).hasRules then
        cellCoordFlags m.cube ((RuleCoverage.build env m).covers m.cube) cs
      else [])[k]?.getD false = env.covers m coord := by
  split_ifs with hrules
  · rw [h.flag, Option.getD_some]
    rfl
  · unfold RuleCoverage.hasRules RuleCoverage.build at hrules
    dsimp only at hrules
    unfold WriteEnv.covers
    rcases hmodel : env.compile m.cube m.rules with _ | cm
    · rfl
    · rw [hmodel, Option.any_some, Bool.not_eq_true, Bool.not_eq_false', List.isEmpty_iff] at hrules
      rw [Option.any_some]
      unfold CompiledModel.matchingRule
      rw [hrules]
      rfl

/-- The cell of a place, and what it says. -/
theorem exists_cell (env : WriteEnv) (sandbox : Option Sandbox)
    (h : CellAt m.cube cells cs k coord out)
    (hn : (m.cube.dimensions.map Dimension.name).Nodup) (hwf : ∀ d ∈ m.cube.dimensions, d.WF) :
    ∃ cell, (cellsetDto m.cube cs sandbox (RuleCoverage.build env m))[k]? = some cell ∧
      Marks m.cube coord out (sandbox.any fun sb => (sb.cells[coord]?).isSome)
        (env.covers m coord) cell := by
  have hmarks := h.marks hn hwf (overlaidGrid m.cube cs sandbox)
    (if (RuleCoverage.build env m).hasRules then
      cellCoordFlags m.cube ((RuleCoverage.build env m).covers m.cube) cs
    else []) out.value
  rw [h.overlaidFlag, h.coveredFlag] at hmarks
  refine ⟨_, ?_, hmarks⟩
  unfold cellsetDto
  dsimp only
  rw [List.getElem?_mapIdx, h.value, Option.map_some]

/-- A cell is editable where it is open. -/
theorem CellAt.openCell_iff (hn : (m.cube.dimensions.map Dimension.name).Nodup)
    (hwf : ∀ d ∈ m.cube.dimensions, d.WF) (h : CellAt m.cube cells cs k coord out)
    {overlaid : Bool} {cell : CellsetCell}
    (hmarks : Marks m.cube coord out overlaid (env.covers m coord) cell) :
    cell.editable = true ↔ OpenCell env m cs k := by
  unfold OpenCell
  rw [hmarks.editable, h.error, Option.join_some]
  refine and_congr_right fun _ => ?_
  constructor
  · rintro ⟨hstring, hleaf, hcovers⟩
    exact ⟨coord, h.shown, (h.shown.leaves_iff hn hwf).2 ⟨hstring, hleaf⟩, hcovers⟩
  · rintro ⟨coord', hshown, hleaves, hcovers⟩
    obtain rfl := h.shown.unique hn hshown
    obtain ⟨hstring, hleaf⟩ := (h.shown.leaves_iff hn hwf).1 hleaves
    exact ⟨hstring, hleaf, hcovers⟩

/-- **Flags and writes.** The flags of a response match its cells and the write
path exactly when the context is given by the names of elements, or no cell is
open. The flags follow an alias and a write does not. -/
theorem flags_iff (env : WriteEnv) (m : Model) (hwf : m.cube.WF)
    (hn : (m.cube.dimensions.map Dimension.name).Nodup) (sandbox : Option Sandbox) (view : View)
    (cells : CellResolver) (lookup : String → String → Option Subset) (T : Lexing.CharTable)
    (parseText : Mdx.ParseError → String) (mask : Option ElementMask) (par : Parallelism)
    (cs : Cellset)
    (h : executeViewWith m.cube view cells lookup (Mdx.evaluator T parseText) mask par = .ok cs) :
    FlagsMatchAll env m sandbox cells cs ↔
      ByName m.cube view.context ∨ ∀ k < cs.cells.length, ¬ OpenCell env m cs k := by
  obtain ⟨base, rows, columns, value, hkept⟩ := kept_of_executeViewWith hn hwf.dims
    (fun d hd mdx indices hok => Mdx.lt_of_mem_evaluator (hwf.dims d hd) hok) h
  rw [← hkept.context]
  constructor
  · intro hmatch
    by_contra hneither
    rw [not_or] at hneither
    obtain ⟨hcontext, hopen⟩ := hneither
    refine hopen fun k hk hopenCell => hcontext ?_
    obtain ⟨coord, out, hcell⟩ := hkept.exists_cellAt hn hwf.dims hk
    obtain ⟨cell, hget, hmarks⟩ := exists_cell env sandbox hcell hn hwf.dims
    obtain ⟨coord', cell', hget', hflags⟩ := hmatch k hk
    obtain rfl := Option.some.inj (hget.symm.trans hget')
    have heditable := (hcell.openCell_iff hn hwf.dims hmarks).2 hopenCell
    -- any number will do
    have hzero : Fixed.fromStr "0" = .ok Fixed.zero := by decide +kernel
    obtain ⟨-, -, haccepted⟩ := (hflags.editable "0" Fixed.zero hzero).1 heditable
    have hnumeric := (hmarks.editable.1 heditable).2.1
    exact hcell.axes.1 ((hcell.shown.writeAccepted_iff hn hnumeric hzero).1 haccepted).1
  · intro hcond k hk
    obtain ⟨coord, out, hcell⟩ := hkept.exists_cellAt hn hwf.dims hk
    obtain ⟨cell, hget, hmarks⟩ := exists_cell env sandbox hcell hn hwf.dims
    refine ⟨coord, cell, hget, ⟨out, hcell.read, hcell.value, hcell.string, hcell.error⟩,
      hcell.shown, hmarks.overlaid, fun text number hnumber => ?_⟩
    constructor
    · intro heditable
      have hopen := (hcell.openCell_iff hn hwf.dims hmarks).1 heditable
      obtain ⟨herror, hnumeric, hleaf, hcovers⟩ := hmarks.editable.1 heditable
      have hcontext := hcond.resolve_right fun hnone => hnone k hk hopen
      exact ⟨hmarks.numeric.2 ⟨herror, hnumeric⟩, hmarks.error.trans herror,
        (hcell.shown.writeAccepted_iff hn hnumeric hnumber).2
          ⟨hcell.axes.2 hcontext, hleaf, hcovers⟩⟩
    · rintro ⟨hkind, -, haccepted⟩
      obtain ⟨herror, hnumeric⟩ := hmarks.numeric.1 hkind
      obtain ⟨-, hleaf, hcovers⟩ :=
        (hcell.shown.writeAccepted_iff hn hnumeric hnumber).1 haccepted
      exact hmarks.editable.2 ⟨herror, hnumeric, hleaf, hcovers⟩

end Match

/-! ## Sales -/

/-- A server without rules. -/
def noRules : WriteEnv := ⟨fun _ _ => none, fun _ _ _ _ => .ok Fixed.zero⟩

/-- The execution of a view over the cells of a cube, with sets in MDX. -/
def execution (cube : Cube) (view : View) : Except QueryError Cellset :=
  executeViewWith cube view (storedCells cube) (fun _ _ => none)
    (Mdx.evaluator Lexing.asciiTable fun _ => "") none ⟨1, 0⟩

/-- Sales by region and month, with a note. The north has an alias. -/
def deskDefs : List DimensionDef :=
  [⟨"Region", [("North", .leaf), ("South", .leaf), ("World", .consolidated)],
    [("World", "North", 1), ("World", "South", 1)], [("Caption", .alias)],
    [("North", "Caption", .text "N")]⟩,
   ⟨"Measure", [("Amount", .leaf), ("Note", .string)], [], [], []⟩,
   ⟨"Month", [("Jan", .leaf), ("Feb", .leaf)], [], [], []⟩]

/-- An amount of the north and a note of the south. -/
def deskCalls : List CubeOp :=
  [.setLeaf [0, 0, 0] ((Fixed.tryFrom 10000).getD Fixed.zero), .setString [1, 1, 0] "late"]

/-- A month of the regions, the north by its alias. -/
def deskView : View where
  name := "Desk"
  cube := "Sales"
  owner := none
  visibility := .pub
  rows := [.members "Region" ["N", "South", "World"]]
  columns := [.members "Measure" ["Amount", "Note"]]
  context := [("Month", "Jan")]
  suppressZeroRows := false
  suppressZeroColumns := false

/-- A server with a rule for the amounts of the south. -/
def southAmounts : WriteEnv :=
  ⟨fun _ _ => some ⟨[⟨⟨[.oneOf [1], .oneOf [0], .any], false⟩, .num Fixed.zero⟩]⟩,
    fun _ _ _ _ => .ok Fixed.zero⟩

/-- The amount of the north, in a sandbox. -/
def plannedNorth : Sandbox :=
  { Sandbox.new "plan" "ann" 0 with cells := FinMap.collect [([0, 0, 0], Fixed.zero)] }

/-- The kind and the flags of a cell of a response. -/
def marksOf (cell : CellsetCell) : CellKind × Bool × Bool :=
  (cell.kind, cell.overlaid, cell.editable)

/-- Of the amounts and the notes of the regions one cell is editable, and it is
planned: a rule computes the amount of the south, the world is a consolidation
and the notes are texts. -/
theorem flagsMatchAll_amounts : ∃ (start c : Cube) (cs : Cellset),
    Cube.build "Sales" deskDefs = .ok start ∧ deskCalls.foldl Cube.apply start = c ∧
    execution c deskView = .ok cs ∧
    (cellsetDto c cs (some plannedNorth) (RuleCoverage.build southAmounts (.new c))).map marksOf =
      [(.numeric, true, true), (.string, false, false), (.numeric, false, false),
        (.string, false, false), (.numeric, false, false), (.string, false, false)] ∧
    FlagsMatchAll southAmounts (.new c) (some plannedNorth) (storedCells c) cs := by
  obtain ⟨start, hstart, hchecks⟩ := exists_ok_of_any (x := Cube.build "Sales" deskDefs)
    (p := fun start =>
      let c := deskCalls.foldl Cube.apply start
      (c.dimensions.map Dimension.name).Nodup ∧
      (∀ x ∈ [("Month", "Jan")], ∀ d ∈ c.dimensions, d.name = x.1 →
        (d.indexOf x.2).isSome = true) ∧
      (execution c deskView).toOption.any fun cs =>
        (cellsetDto c cs (some plannedNorth) (RuleCoverage.build southAmounts (.new c))).map
            marksOf =
          [(.numeric, true, true), (.string, false, false), (.numeric, false, false),
            (.string, false, false), (.numeric, false, false), (.string, false, false)])
    (by decide +kernel)
  obtain ⟨hn, hcontext, hchecks⟩ := of_decide_eq_true hchecks
  obtain ⟨cs, hcs, hmarks⟩ := exists_ok_of_any hchecks
  have hwf := (Cube.WF.build hstart).calls deskCalls
  exact ⟨start, _, cs, hstart, rfl, hcs, of_decide_eq_true hmarks,
    (flags_iff southAmounts (.new _) hwf hn (some plannedNorth) _ _ _ _ _ _ _ cs hcs).2
      (.inl hcontext)⟩

/-- A view of one cell, its region in the context. -/
def regionView (region : String) : View where
  name := "Region"
  cube := "Sales"
  owner := none
  visibility := .pub
  rows := []
  columns := []
  context := [("Region", region)]
  suppressZeroRows := false
  suppressZeroColumns := false

/-- A member of the context is given by its alias: its cell is marked editable,
and a write under the name that is shown is refused. -/
theorem not_flagsMatchAll_caption : ∃ (m : Model) (cs : Cellset), m.cube.WF ∧
    (m.cube.dimensions.map Dimension.name).Nodup ∧
    execution m.cube (regionView "N") = .ok cs ∧
    ¬ FlagsMatchAll noRules m none (storedCells m.cube) cs := by
  obtain ⟨c, hc, hchecks⟩ := exists_ok_of_any (x := Cube.build "Sales" SavedModel.captionDefs)
    (p := fun c => (c.dimensions.map Dimension.name).Nodup ∧
      (execution c (regionView "N")).toOption.any fun cs =>
        0 < cs.cells.length ∧
        (cellsetDto c cs none (RuleCoverage.build noRules (.new c)))[0]?.any
          CellsetCell.editable = true ∧
        (c.buildWrite ⟨FinMap.collect (shownMembers cs 0), "0"⟩).isOk = false)
    (by decide +kernel)
  obtain ⟨hn, hchecks⟩ := of_decide_eq_true hchecks
  obtain ⟨cs, hcs, hchecks⟩ := exists_ok_of_any hchecks
  obtain ⟨hlen, heditable, hrefused⟩ := of_decide_eq_true hchecks
  refine ⟨.new c, cs, Cube.WF.build hc, hn, hcs, fun hall => ?_⟩
  obtain ⟨coord, cell, hget, hmatch⟩ := hall 0 hlen
  have hcell : (cellsetDto c cs none (RuleCoverage.build noRules (.new c)))[0]? = some cell := hget
  rw [hcell, Option.any_some] at heditable
  obtain ⟨-, -, write, hwrite, -⟩ :=
    (hmatch.editable "0" Fixed.zero (by decide +kernel)).1 heditable
  have hbuilt : c.buildWrite ⟨FinMap.collect (shownMembers cs 0), "0"⟩ = .ok write := hwrite
  rw [hbuilt] at hrefused
  cases hrefused

end Query

end Epiphany
