import Epiphany.Calc.MemoReads
import Epiphany.Core.LeafWrites
import Epiphany.Core.Query
/-!
# Masked reads — what a denied cell holds is not seen

The mask is checked before any cell of its cube is looked at, and every
cell that goes into a value is read through the same check. So two model
sets that differ only in cells the mask denies have the same tasks
(`compute_eq`), and every read made under the mask finds the same in both.
-/

namespace Epiphany

namespace Calc

open Demand

/-! ## The resolver -/

def CalcError.toString : CalcError → String
  | .cycle cube coord =>
    "rule cycle at coordinate " ++ ToString.toString coord ++ " in cube '" ++ cube ++ "'"
  | .divByZero => "division by zero in a rule"
  | .overflow => "fixed-point overflow in a rule"
  | .unknownCube o => "unknown cube ordinal " ++ Nat.repr o
  | .rulesFailed cube error => "cube '" ++ cube ++ "' rules fail to compile: " ++ error
  | .accessDenied => "access denied"
  | .model e => e.toString

/-- The error of a query: a denial stays one. -/
def CalcError.toQuery : CalcError → QueryError
  | .accessDenied => .accessDenied
  | e => .calc e.toString

namespace CalcEngine

variable (e : CalcEngine)

/-- The stored text at a coordinate, under the mask. -/
def stringValue (ordinal : Nat) (coord : Coord) : Except QueryError (Option String) :=
  if e.denies ordinal coord then .error .accessDenied
  else
    match e.registry.entry ordinal with
    | none => .error (.calc ("unknown cube ordinal " ++ Nat.repr ordinal))
    | some x => (x.cube.getString coord).mapError .model

/-- The resolver of one cube's cells. -/
def resolver (target : Nat) : CellResolver where
  value coord := (e.fresh target coord).mapError CalcError.toQuery
  stringValue := e.stringValue target

end CalcEngine

/-! ## Model sets that a mask does not tell apart -/

/-- Two cubes of one shape with the same cells, the hidden ones apart. -/
structure SameOff (hidden : Coord → Prop) (c c' : Cube) : Prop where
  name : c'.name = c.name
  dimensions : c'.dimensions = c.dimensions
  numbers : ∀ coord, InRange c.dimensions coord → ¬ hidden coord →
    c'.leafValue coord = c.leafValue coord
  strings : ∀ coord, InRange c.dimensions coord → ¬ hidden coord →
    (c'.stringCells.get c'.layout coord).map c'.stringPool.get =
      (c.stringCells.get c.layout coord).map c.stringPool.get

/-- Two entries with the same rules, and cubes that differ in hidden cells
only. -/
structure SameEntryOff (hidden : Coord → Prop) (x x' : Entry) : Prop where
  cube : SameOff hidden x.cube x'.cube
  compiled : x'.compiled = x.compiled
  compileError : x'.compileError = x.compileError

/-- Two engines under one mask whose model sets and overlays differ only in
cells the mask denies. -/
structure Indistinguishable (m : ElementMask) (e e' : CalcEngine) : Prop where
  mask : e.mask = some m
  mask' : e'.mask = some m
  target : e'.maskTarget = e.maskTarget
  entries : ∀ o, Option.Rel (SameEntryOff fun coord => e.denies o coord = true)
    (e.registry.entry o) (e'.registry.entry o)
  overlays : ∀ o coord, e.denies o coord = false →
    (e'.overlay.bind fun s => s.leaf o coord) = e.overlay.bind fun s => s.leaf o coord

section Shape

variable {c c' : Cube} (hdims : c'.dimensions = c.dimensions)

include hdims

theorem matchingRule_congr (cm : CompiledModel) (coord : Coord) :
    cm.matchingRule c' coord = cm.matchingRule c coord := by
  simp only [CompiledModel.matchingRule, CompiledArea.matches, Cube.dimension, hdims]

theorem allLeaf_congr (coord : Coord) :
    CalcEngine.allLeaf c' coord = CalcEngine.allLeaf c coord := by
  simp only [CalcEngine.allLeaf, Cube.dimension, hdims]

theorem attrNum_congr (dimPos attr : Nat) (target : Coord) :
    CalcEngine.attrNum c' dimPos attr target = CalcEngine.attrNum c dimPos attr target := by
  simp only [CalcEngine.attrNum, Cube.dimension, hdims]

end Shape

theorem kind_of_allLeaf {c : Cube} {coord : Coord} (h : CalcEngine.allLeaf c coord = true)
    {k i : Nat} {d : Dimension} (hi : coord[k]? = some i) (hd : c.dimensions[k]? = some d) :
    d.kindAt i = some .leaf ∨ d.kindAt i = some .string := by
  have hmem : (i, k) ∈ coord.zipIdx := List.mem_zipIdx_iff_getElem?.2 hi
  have hkind := List.all_eq_true.1 h _ hmem
  have hdim : c.dimension k = d := by
    rw [Cube.dimension, List.getD_eq_getElem?_getD, hd]
    rfl
  rw [hdim, Option.any_eq_true] at hkind
  obtain ⟨kind, hk, hleaf⟩ := hkind
  rcases kind with _ | _ | _
  · exact .inl hk
  · exact .inr hk
  · cases hleaf

/-- A leaf cell that is not hidden reads the same. -/
theorem get_of_sameOff {hidden : Coord → Prop} {c c' : Cube} (hc : c.WF) (hc' : c'.WF)
    (h : SameOff hidden c c') {coord : Coord} (hleaf : CalcEngine.allLeaf c coord = true)
    (hvisible : ¬ hidden coord) : c'.get coord = c.get coord := by
  rcases hcheck : c.checkCoord coord with err | ⟨⟩
  · simp only [Cube.get, Cube.checkCoord_congr h.dimensions, hcheck, bind, Except.bind]
  have hin := Cube.checkCoord_eq_ok.1 hcheck
  cases hnum : c.allNumericLeaf coord with
  | true =>
    simp only [Cube.get, Cube.checkCoord_congr h.dimensions, hcheck,
      Cube.allNumericLeaf_congr h.dimensions, hnum, if_true, h.numbers coord hin hvisible]
  | false =>
    have hall := fun k i d => kind_of_allLeaf hleaf (k := k) (i := i) (d := d)
    rw [Cube.get_of_string hc hin hnum hall]
    refine Cube.get_of_string hc' (h.dimensions ▸ hin) ?_ (h.dimensions ▸ hall)
    rw [Cube.allNumericLeaf_congr h.dimensions, hnum]

/-- What the two sets hold at an ordinal. -/
theorem Indistinguishable.entry {m : ElementMask} {e e' : CalcEngine}
    (h : Indistinguishable m e e') (o : Nat) :
    (e.registry.entry o = none ∧ e'.registry.entry o = none) ∨
      ∃ x x', e.registry.entry o = some x ∧ e'.registry.entry o = some x' ∧
        SameEntryOff (fun coord => e.denies o coord = true) x x' := by
  have hentry := h.entries o
  generalize e.registry.entry o = a, e'.registry.entry o = b at hentry ⊢
  cases hentry with
  | none => exact .inl ⟨rfl, rfl⟩
  | some hsame => exact .inr ⟨_, _, rfl, rfl, hsame⟩

namespace CalcEngine

variable {m : ElementMask} {e e' : CalcEngine}

mutual

theorem evalExpr_eq (h : Indistinguishable m e e') (ordinal : Nat) (target : Coord) (x : CExpr) :
    e'.evalExpr ordinal target x = e.evalExpr ordinal target x := by
  cases x with
  | num f => simp only [evalExpr]
  | undef => simp only [evalExpr]
  | attrNum dimPos attr =>
    rw [evalExpr, evalExpr]
    rcases h.entry ordinal with ⟨hx, hx'⟩ | ⟨x, x', hx, hx', hsame⟩
    · rw [hx, hx']
    · rw [hx, hx']
      simp only [attrNum_congr hsame.cube.dimensions]
  | cell cell => simp only [evalExpr]
  | neg x => simp only [evalExpr, evalExpr_eq h ordinal target x]
  | bin op left right =>
    simp only [evalExpr, evalExpr_eq h ordinal target left, evalExpr_eq h ordinal target right]
  | ifThen cond then_ =>
    simp only [evalExpr, evalCond_eq h ordinal target cond, evalExpr_eq h ordinal target then_]
  | ifElse cond then_ otherwise =>
    simp only [evalExpr, evalCond_eq h ordinal target cond, evalExpr_eq h ordinal target then_,
      evalExpr_eq h ordinal target otherwise]

theorem evalCond_eq (h : Indistinguishable m e e') (ordinal : Nat) (target : Coord) (x : CCond) :
    e'.evalCond ordinal target x = e.evalCond ordinal target x := by
  cases x with
  | and a b =>
    simp only [evalCond, evalCond_eq h ordinal target a, evalCond_eq h ordinal target b]
  | or a b =>
    simp only [evalCond, evalCond_eq h ordinal target a, evalCond_eq h ordinal target b]
  | not c => simp only [evalCond, evalCond_eq h ordinal target c]
  | compare left op right =>
    simp only [evalCond, evalExpr_eq h ordinal target left, evalExpr_eq h ordinal target right]

end

theorem denies_eq (h : Indistinguishable m e e') (ordinal : Nat) (coord : Coord) :
    e'.denies ordinal coord = e.denies ordinal coord := by
  rw [denies, denies, h.target, h.mask, h.mask']

/-- Under a mask no consolidation is sparse. -/
theorem sparse_of_mask (h : e.mask = some m) (x : Entry) : e.sparse x = none := by
  rw [sparse, h]
  simp

theorem computeStored_eq (h : Indistinguishable m e e') {ordinal : Nat} {coord : Coord}
    {x x' : Entry} (hx : SameEntryOff (fun coord => e.denies ordinal coord = true) x x')
    (hvisible : e.denies ordinal coord = false) :
    e'.computeStored x' ordinal coord = e.computeStored x ordinal coord := by
  have hdims := hx.cube.dimensions
  rw [computeStored, computeStored, allLeaf_congr hdims]
  by_cases hleaf : allLeaf x.cube coord = true
  · rw [if_pos hleaf, if_pos hleaf, h.overlays ordinal coord hvisible,
      get_of_sameOff x.wf x'.wf hx.cube hleaf (by simp [hvisible])]
  · rw [if_neg hleaf, if_neg hleaf, sparse_of_mask h.mask, sparse_of_mask h.mask']
    simp only []
    rw [Cube.consolidateWith_congr liftModel hdims]

/-- **A cell's task is the same** in both model sets. -/
theorem compute_eq (h : Indistinguishable m e e') (ordinal : Nat) (coord : Coord) :
    e'.compute ordinal coord = e.compute ordinal coord := by
  rw [compute, compute, denies_eq h]
  cases hvisible : e.denies ordinal coord with
  | true => rfl
  | false =>
    rcases h.entry ordinal with ⟨hx, hx'⟩ | ⟨x, x', hx, hx', hsame⟩
    · rw [hx, hx']
    · simp only [hx, hx', hsame.compileError, hsame.compiled, hsame.cube.name,
        matchingRule_congr hsame.cube.dimensions, evalExpr_eq h, computeStored_eq h hsame hvisible]

theorem system_eq (h : Indistinguishable m e e') : e'.system = e.system := by
  have hcompute : (fun k : Cell => e'.compute k.ordinal k.coord) =
      fun k => e.compute k.ordinal k.coord := funext fun k => compute_eq h k.ordinal k.coord
  have hname : ∀ o, ((e'.registry.entry o).map fun x => x.cube.name) =
      (e.registry.entry o).map fun x => x.cube.name := by
    intro o
    rcases h.entry o with ⟨hx, hx'⟩ | ⟨x, x', hx, hx', hsame⟩
    · rw [hx, hx']
    · rw [hx, hx']
      exact congrArg some hsame.cube.name
  simp only [system, hcompute, hname]

theorem fresh_eq (h : Indistinguishable m e e') (ordinal : Nat) (coord : Coord) :
    e'.fresh ordinal coord = e.fresh ordinal coord := by
  obtain ⟨n, hn⟩ := fresh_eq_iff.1 (rfl : e.fresh ordinal coord = e.fresh ordinal coord)
  refine fresh_eq_iff.2 ⟨n, ?_⟩
  rw [system_eq h]
  exact hn

theorem stringValue_eq (h : Indistinguishable m e e') (ordinal : Nat) (coord : Coord) :
    e'.stringValue ordinal coord = e.stringValue ordinal coord := by
  rw [stringValue, stringValue, denies_eq h]
  cases hvisible : e.denies ordinal coord with
  | true => rfl
  | false =>
    rcases h.entry ordinal with ⟨hx, hx'⟩ | ⟨x, x', hx, hx', hsame⟩
    · rw [hx, hx']
    · rw [hx, hx']
      have hdims := hsame.cube.dimensions
      have hget : x'.cube.getString coord = x.cube.getString coord := by
        rcases hcheck : x.cube.checkCoord coord with err | ⟨⟩
        · simp only [Cube.getString, Cube.checkCoord_congr hdims, hcheck, bind, Except.bind]
        · have hin := Cube.checkCoord_eq_ok.1 hcheck
          simp only [Cube.getString, Cube.checkCoord_congr hdims, hcheck,
            hsame.cube.strings coord hin (by simp [hvisible])]
      simp only [Bool.false_eq_true, if_false, hget]

/-- Two engines read the same under a mask: values over the memo of any
earlier reads, texts, and views executed over the masked cube. -/
structure SameReads (m : ElementMask) (e e' : CalcEngine) : Prop where
  values : ∀ earlier ordinal coord,
    (e'.value (e'.carry CalcMemo.new earlier) ordinal coord).1 =
      (e.value (e.carry CalcMemo.new earlier) ordinal coord).1
  strings : ∀ ordinal coord, e'.stringValue ordinal coord = e.stringValue ordinal coord
  views : ∀ x x', e.registry.entry e.maskTarget = some x →
    e'.registry.entry e.maskTarget = some x' → ∀ view subsetLookup eval par,
      Query.executeViewWith x'.cube view (e'.resolver e.maskTarget) subsetLookup eval (some m) par =
        Query.executeViewWith x.cube view (e.resolver e.maskTarget) subsetLookup eval (some m) par

/-- **Masked reads do not see denied cells.** Where two model sets differ
only in cells and overlay entries the mask denies, every read is the same
in both, values and errors alike. -/
theorem masked_reads_eq (h : Indistinguishable m e e') : SameReads m e e' where
  values earlier ordinal coord := by
    rw [value_eq_fresh (sound_carry e.sound_new earlier),
      value_eq_fresh (sound_carry e'.sound_new earlier), fresh_eq h]
  strings := stringValue_eq h
  views x x' hx hx' view subsetLookup eval par := by
    have hsame : SameEntryOff (fun coord => e.denies e.maskTarget coord = true) x x' := by
      rcases h.entry e.maskTarget with ⟨hnone, -⟩ | ⟨y, y', hy, hy', hsame⟩
      · rw [hx] at hnone
        cases hnone
      · rw [hx] at hy
        rw [hx'] at hy'
        cases hy
        cases hy'
        exact hsame
    have hresolver : e'.resolver e.maskTarget = e.resolver e.maskTarget := by
      have hvalue : e'.fresh e.maskTarget = e.fresh e.maskTarget :=
        funext fun coord => fresh_eq h _ coord
      have hstring : e'.stringValue e.maskTarget = e.stringValue e.maskTarget :=
        funext fun coord => stringValue_eq h _ coord
      rw [resolver, resolver, hvalue, hstring]
    rw [hresolver]
    exact Query.executeViewWith_congr hsame.cube.name hsame.cube.dimensions view _ subsetLookup
      eval (some m) par

/-- A write the mask hides leaves a cube that the mask does not tell
apart. -/
theorem SameOff.of_setLeaf {hidden : Coord → Prop} {c c' : Cube} (hc : c.WF) {a : Coord}
    {v : Fixed} (h : c.setLeaf a v = .ok c') (ha : hidden a) : SameOff hidden c c' := by
  obtain ⟨hname, hdims, hlayout, hcells, hpool⟩ := Cube.setLeaf_frame h
  refine ⟨hname, hdims, fun coord hin hvisible => ?_, fun coord _ _ => ?_⟩
  · rw [(Cube.leafValue_setLeaf hc h hin).2, if_neg]
    rintro rfl
    exact hvisible ha
  · rw [hcells, hlayout, hpool]

/-- The mask of the first element of the first dimension. -/
def northMask : ElementMask := ⟨[[true]]⟩

/-- The engine over one cube without rules, under that mask. -/
def northEngine (c : Cube) (hc : c.WF) : CalcEngine where
  registry := EvalRegistry.single
    { cube := c, wf := hc, compiled := none, compileError := none, fedSet := none }
  overlay := none
  mask := some northMask
  maskTarget := 0

theorem masked_reads_eq_north : ∃ c c' : Cube, ∃ (hc : c.WF) (hc' : c'.WF),
    Cube.build "Sales" Cube.salesDefs = .ok c ∧
      c.setLeaf [0, 0] ((Fixed.tryFrom 10000).getD Fixed.zero) = .ok c' ∧
      SameReads northMask (northEngine c hc) (northEngine c' hc') := by
  obtain ⟨c, hbuild, hwrite⟩ := exists_ok_of_any (by decide +kernel :
    (Cube.build "Sales" Cube.salesDefs).toOption.any
      (fun c => (c.setLeaf [0, 0] ((Fixed.tryFrom 10000).getD Fixed.zero)).isOk) = true)
  obtain ⟨c', hwrite⟩ := exists_of_isOk hwrite
  have hc := Cube.WF.build hbuild
  refine ⟨c, c', hc, hc.setLeaf hwrite, hbuild, hwrite, masked_reads_eq ?_⟩
  refine ⟨rfl, rfl, rfl, fun o => ?_, fun _ _ _ => rfl⟩
  rcases o with _ | o
  · exact Option.Rel.some ⟨SameOff.of_setLeaf hc hwrite rfl, rfl, rfl⟩
  · exact Option.Rel.none

end CalcEngine

end Calc

end Epiphany
