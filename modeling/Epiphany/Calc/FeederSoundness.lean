import Epiphany.Calc.InferFeeders
import Epiphany.Calc.Rounding
/-!
# Feeder soundness — what is not fed and not reported is zero

A formula is other than zero only where one of its base terms may be or a cell
of its own cube is, and a consolidation only where a leaf under it is. So a
leaf with a value other than zero is stored, or its rule reads one, and the
closure of inference has fed it (`accounted_of_fresh`). Inference looks for an
input among its leaves before it looks for a rule that overrides it: the
argument needs that an overridden input has leaves.
-/

namespace Epiphany

namespace Calc

open Demand

/-! ## What makes a formula other than zero -/

theorem eq_zero_of_toScaled {v : Fixed} (h : v.toScaled = 0) : v = Fixed.zero := Fixed.ext h

theorem divRoundHalfEven_zero (den : Int) : divRoundHalfEven 0 den = 0 := by
  unfold divRoundHalfEven
  simp

section Arith

variable {a b v : Fixed}

theorem arith_zero_sum {op : ArithOp} (hop : op = .add ∨ op = .sub)
    (h : arith op Fixed.zero Fixed.zero = .ok v) : v = Fixed.zero := by
  rcases hop with rfl | rfl <;> exact eq_zero_of_toScaled (toFixed_eq_ok.1 h)

theorem arith_mul_zero (hzero : a = Fixed.zero ∨ b = Fixed.zero) (h : arith .mul a b = .ok v) :
    v = Fixed.zero := by
  have hv := toFixed_eq_ok.1 h
  have hprod : a.toScaled * b.toScaled = 0 := by
    rcases hzero with rfl | rfl
    · rw [Fixed.toScaled_zero, Int.zero_mul]
    · rw [Fixed.toScaled_zero, Int.mul_zero]
  rw [hprod, divRoundHalfEven_zero] at hv
  exact eq_zero_of_toScaled hv

theorem arith_div_zero (h : arith .div Fixed.zero b = .ok v) : v = Fixed.zero := by
  unfold arith at h
  dsimp only at h
  split_ifs at h
  have hv := toFixed_eq_ok.1 h
  rw [Fixed.toScaled_zero, Int.zero_mul, divRoundHalfEven_zero] at hv
  exact eq_zero_of_toScaled hv

end Arith

section Formula

variable {e : CalcEngine} {ordinal : Nat} {target : Coord}
  {answer : Cell → Option (Except CalcError Fixed)}

/-- A formula has a source of its own value: a base term, or a cell of its own
cube that is other than zero. -/
def Live (ordinal : Nat) (target : Coord) (answer : Cell → Option (Except CalcError Fixed))
    (x : CExpr) : Prop :=
  basePotent ordinal x = true ∨ ∃ cell ∈ collectCells x, cell.cube = ordinal ∧
    ∃ w, answer ⟨ordinal, CalcEngine.address cell target⟩ = some (.ok w) ∧ w ≠ Fixed.zero

theorem Live.of_part {x y : CExpr} (hbase : basePotent ordinal x = true →
      basePotent ordinal y = true) (hcells : collectCells x ⊆ collectCells y)
    (h : Live ordinal target answer x) : Live ordinal target answer y := by
  rcases h with hx | ⟨cell, hcell, hrest⟩
  · exact .inl (hbase hx)
  · exact .inr ⟨cell, hcells hcell, hrest⟩

/-- A formula that is other than zero has a source. -/
theorem live_of_evalExpr (x : CExpr) {v : Fixed}
    (h : (e.evalExpr ordinal target x).run answer = some (.ok v)) (hv : v ≠ Fixed.zero) :
    Live ordinal target answer x := by
  cases x with
  | num f =>
    obtain rfl := Except.ok.inj (Option.some.inj h)
    exact .inl (decide_eq_true hv)
  | undef =>
    obtain rfl := Except.ok.inj (Option.some.inj h)
    exact absurd rfl hv
  | attrNum dimPos attr => exact .inl rfl
  | cell cell =>
    by_cases hcube : cell.cube = ordinal
    · refine .inr ⟨cell, List.mem_singleton_self _, hcube, v, ?_, hv⟩
      rw [CalcEngine.evalExpr, CalcEngine.cellValue, Task.run_request, hcube] at h
      exact h
    · exact .inl (decide_eq_true hcube)
  | neg x =>
    rw [CalcEngine.evalExpr, Task.run_bind_eq_ok] at h
    obtain ⟨u, hu, hneg⟩ := h
    have hu0 : u ≠ Fixed.zero := by
      rintro rfl
      exact hv (eq_zero_of_toScaled (toFixed_eq_ok.1 (Option.some.inj hneg)))
    exact (live_of_evalExpr x hu hu0).of_part id (fun _ hc => hc)
  | bin op left right =>
    rw [CalcEngine.evalExpr, Task.run_bind_eq_ok] at h
    obtain ⟨a, ha, hrest⟩ := h
    rw [Task.run_bind_eq_ok] at hrest
    obtain ⟨b, hb, hop⟩ := hrest
    have hop := Option.some.inj hop
    have hleft : collectCells left ⊆ collectCells (.bin op left right) :=
      List.subset_append_left _ _
    have hright : collectCells right ⊆ collectCells (.bin op left right) :=
      List.subset_append_right _ _
    -- a sum needs one side, a product both, a quotient its numerator
    have hsum : op = .add ∨ op = .sub → Live ordinal target answer (.bin op left right) := by
      intro hor
      by_cases ha0 : a = Fixed.zero
      · have hb0 : b ≠ Fixed.zero := by
          rintro rfl
          rw [ha0] at hop
          exact hv (arith_zero_sum hor hop)
        refine (live_of_evalExpr right hb hb0).of_part (fun hbase => ?_) hright
        rcases hor with rfl | rfl <;> simp [basePotent, hbase]
      · refine (live_of_evalExpr left ha ha0).of_part (fun hbase => ?_) hleft
        rcases hor with rfl | rfl <;> simp [basePotent, hbase]
    cases op with
    | add => exact hsum (.inl rfl)
    | sub => exact hsum (.inr rfl)
    | mul =>
      have ha0 : a ≠ Fixed.zero := fun h0 => hv (arith_mul_zero (.inl h0) hop)
      have hb0 : b ≠ Fixed.zero := fun h0 => hv (arith_mul_zero (.inr h0) hop)
      rcases live_of_evalExpr left ha ha0 with hbase | ⟨cell, hcell, hrest⟩
      · rcases live_of_evalExpr right hb hb0 with hbase' | ⟨cell, hcell, hrest⟩
        · exact .inl (by simp [basePotent, hbase, hbase'])
        · exact .inr ⟨cell, hright hcell, hrest⟩
      · exact .inr ⟨cell, hleft hcell, hrest⟩
    | div =>
      have ha0 : a ≠ Fixed.zero := by
        rintro rfl
        exact hv (arith_div_zero hop)
      exact Live.of_part (x := left) id hleft (live_of_evalExpr left ha ha0)
  | ifThen cond then_ =>
    rw [CalcEngine.evalExpr, Task.run_bind_eq_ok] at h
    obtain ⟨holds, -, hbranch⟩ := h
    cases holds with
    | true => exact (live_of_evalExpr then_ hbranch hv).of_part id (fun _ hc => hc)
    | false =>
      obtain rfl := Except.ok.inj (Option.some.inj hbranch)
      exact absurd rfl hv
  | ifElse cond then_ otherwise =>
    rw [CalcEngine.evalExpr, Task.run_bind_eq_ok] at h
    obtain ⟨holds, -, hbranch⟩ := h
    cases holds with
    | true =>
      refine (live_of_evalExpr then_ hbranch hv).of_part (fun hbase => ?_)
        (List.subset_append_left _ _)
      simp [basePotent, hbase]
    | false =>
      refine (live_of_evalExpr otherwise hbranch hv).of_part (fun hbase => ?_)
        (List.subset_append_right _ _)
      simp [basePotent, hbase]

/-! ## What makes a consolidation other than zero -/

variable {c : Cube} {coord : Coord} {f : Coord → Eval Fixed}

/-- A walk over leaves that are zero adds nothing. -/
theorem run_foldlM_addCombo {combos : List (List (Nat × Int))} {acc acc' : I128}
    (h : (combos.foldlM (Cube.addCombo f) acc).run answer = some (.ok acc')) :
    acc' = acc ∨ ∃ s ∈ combos, ∃ w, (f (s.map Prod.fst)).run answer = some (.ok w) ∧
      w ≠ Fixed.zero := by
  induction combos generalizing acc with
  | nil => exact .inl (Except.ok.inj (Option.some.inj h)).symm
  | cons s combos ih =>
    rw [List.foldlM_cons, Task.run_bind_eq_ok] at h
    obtain ⟨next, hnext, hrest⟩ := h
    unfold Cube.addCombo at hnext
    rw [Task.run_bind_eq_ok] at hnext
    obtain ⟨w, hw, hadd⟩ := hnext
    by_cases hw0 : w = Fixed.zero
    · have hsame : next = acc := by
        rw [← Except.ok.inj (Option.some.inj hadd), hw0, Fixed.toI128_zero]
        simp
      rcases ih hrest with heq | ⟨s', hs', hwhy⟩
      · exact .inl (heq.trans hsame)
      · exact .inr ⟨s', List.mem_cons_of_mem _ hs', hwhy⟩
    · exact .inr ⟨s, List.mem_cons_self, w, hw, hw0⟩

/-- A consolidation that is other than zero has a leaf that is. -/
theorem exists_of_consolidateWith (hin : InRange c.dimensions coord)
    (hleaf : c.allNumericLeaf coord = false) {v : Fixed}
    (h : (Cube.consolidateWith liftModel c coord f).run answer = some (.ok v))
    (hv : v ≠ Fixed.zero) : ∃ s ∈ (c.leafLists coord).sections, ∃ w,
      (f (s.map Prod.fst)).run answer = some (.ok w) ∧ w ≠ Fixed.zero := by
  rw [consolidateWith_eq hin hleaf, Cube.comboCount_eq] at h
  split_ifs at h
  · dsimp only at h
    split_ifs at h
    · obtain rfl := Except.ok.inj (Option.some.inj h)
      exact absurd rfl hv
    · rw [← List.foldlM_map, Sections.map_choice_range, Task.run_bind_eq_ok] at h
      obtain ⟨acc, hacc, hnarrow⟩ := h
      refine (run_foldlM_addCombo hacc).resolve_left fun hzero => ?_
      rw [hzero] at hnarrow
      exact hv (Except.ok.inj (Option.some.inj hnarrow)).symm
  · cases h

end Formula

/-! ## Inputs -/

/-- A reference within its own cube has a component for each dimension: one of
the target's own, or an element of the dimension. -/
def CCell.Relative (cube : Cube) (cell : CCell) : Prop :=
  cell.addr.length = cube.rank ∧ ∀ (d : Nat) (slot : AddrSlot), cell.addr[d]? = some slot →
    slot = .fromTarget d ∨ ∃ i, slot = .pinned i ∧ i < (cube.dimension d).len

/-- The references of a rule set within its own cube are relative. -/
def CompiledModel.Addressed (cm : CompiledModel) (cube : Cube) (ordinal : Nat) : Prop :=
  ∀ rule ∈ cm.rules, ∀ cell ∈ collectCells rule.expr, cell.cube = ordinal → cell.Relative cube

/-- Where a rule fires at an input of a rule, there are numeric leaves under
each component of the input. -/
def CompiledModel.Expands (cm : CompiledModel) (cube : Cube) (ordinal : Nat) : Prop :=
  ∀ rule ∈ cm.rules, ∀ cell ∈ collectCells rule.expr, cell.cube = ordinal →
    ∀ target, Targeted cube rule.area target →
      (cm.matchingRule cube (CalcEngine.address cell target)).isSome →
        ∀ l ∈ cube.leafLists (CalcEngine.address cell target), l ≠ []

section Input

variable {cube : Cube} {cell : CCell} {target : Coord}

theorem elementCoord_eq (hcell : cell.Relative cube) :
    elementCoord cell target = CalcEngine.address cell target := by
  unfold elementCoord CalcEngine.address
  refine List.ext_getElem? fun d => ?_
  rw [List.getElem?_map, List.getElem?_map, List.getElem?_zipIdx]
  rcases hslot : cell.addr[d]? with _ | slot
  · rfl
  · rcases hcell.2 d slot hslot with rfl | ⟨i, rfl, -⟩
    · rw [Option.map_some, Option.map_some, Option.map_some, Nat.zero_add]
    · rfl

theorem lt_of_isLeafAt {d i : Nat} (h : isLeafAt cube d i = true) :
    i < (cube.dimension d).len := by
  unfold isLeafAt Dimension.kindAt at h
  by_contra hle
  rw [List.getElem?_eq_none (Nat.not_lt.1 hle)] at h
  cases h

theorem LeafCoord.inRange (h : LeafCoord cube target) : InRange cube.dimensions target := by
  refine forall₂_iff_getElem?.2 ⟨h.1, fun d i dim hi hd => ?_⟩
  have hlt := lt_of_isLeafAt (allLeaf_iff.1 h.2 d i hi)
  rwa [dimension_getElem? hd] at hlt

/-- The address of an input from a leaf lies in the cube. -/
theorem inRange_address (hcell : cell.Relative cube) (htarget : LeafCoord cube target) :
    InRange cube.dimensions (CalcEngine.address cell target) := by
  unfold CalcEngine.address
  refine forall₂_iff_getElem?.2 ⟨?_, fun d i dim hi hd => ?_⟩
  · rw [List.length_map]
    exact hcell.1
  · rw [List.getElem?_map, Option.map_eq_some_iff] at hi
    obtain ⟨slot, hslot, rfl⟩ := hi
    have hdim := dimension_getElem? hd
    rcases hcell.2 d slot hslot with rfl | ⟨i, rfl, hlt⟩
    · have hlt : d < target.length := by
        rw [htarget.1]
        exact (List.getElem?_eq_some_iff.1 hd).1
      have hat := List.getElem?_eq_getElem hlt
      show target.getD d 0 < dim.elements.length
      rw [List.getD_eq_getElem?_getD, hat, Option.getD_some]
      exact (forall₂_iff_getElem?.1 htarget.inRange).2 d _ dim hat hd
    · rwa [hdim] at hlt

/-- Where each component has leaves under it, inference finds them. -/
theorem inputLeaves_eq {coord : Coord} (h : InRange cube.dimensions coord)
    (hne : ∀ l ∈ cube.leafLists coord, l ≠ []) :
    inputLeaves cube coord = some ((cube.leafLists coord).map (List.map Prod.fst)) := by
  obtain ⟨hlen, hat⟩ := Cube.perDimension_at h (Cube.perDimension_eq h)
  unfold inputLeaves
  have hstep : ∀ x ∈ coord.zipIdx, elementLeaves cube x.2 x.1 =
      some (((cube.leafLists coord).getD x.2 []).map Prod.fst) := by
    intro x hx
    have hi := List.mem_zipIdx_iff_getElem?.1 hx
    have hk : x.2 < cube.dimensions.length :=
      h.length_eq ▸ (List.getElem?_eq_some_iff.1 hi).1
    have hk' : x.2 < (cube.leafLists coord).length := by
      rw [hlen]
      exact (List.getElem?_eq_some_iff.1 hi).1
    have hd := List.getElem?_eq_getElem hk
    have hl := List.getElem?_eq_getElem hk'
    unfold elementLeaves
    rw [dimension_getElem? hd, hat x.2 x.1 _ _ hi hd hl, List.getD_eq_getElem?_getD, hl,
      Option.getD_some]
    exact if_neg fun hempty => hne _ (List.mem_of_getElem? hl) (List.isEmpty_iff.1 hempty)
  have hmap : (cube.leafLists coord).map (List.map Prod.fst) =
      coord.zipIdx.map fun x => ((cube.leafLists coord).getD x.2 []).map Prod.fst := by
    refine List.ext_getElem (by simp [hlen]) fun d hd hd' => ?_
    have hk : d < (cube.leafLists coord).length := by simpa using hd
    rw [List.getElem_map, List.getElem_map, List.getElem_zipIdx, Nat.zero_add,
      List.getD_eq_getElem?_getD, List.getElem?_eq_getElem hk, Option.getD_some]
  rw [hmap, mapM_eq_some hstep]

/-- A coordinate of leaves is one of numeric leaves if each component has
leaves under it. -/
theorem numericCoord_of_allLeaf {coord : Coord} (hin : InRange cube.dimensions coord)
    (hleaf : CalcEngine.allLeaf cube coord = true) (hne : ∀ l ∈ cube.leafLists coord, l ≠ []) :
    NumericCoord cube.dimensions coord := by
  obtain ⟨hlen, hat⟩ := Cube.perDimension_at hin (Cube.perDimension_eq hin)
  refine forall₂_iff_getElem?.2 ⟨hin.length_eq, fun d i dim hi hd => ?_⟩
  refine (kind_of_allLeaf hleaf hi hd).resolve_right fun hstring => ?_
  have hlt : d < (cube.leafLists coord).length := hlen ▸ (List.getElem?_eq_some_iff.1 hi).1
  have hl := List.getElem?_eq_getElem hlt
  exact hne _ (List.mem_of_getElem? hl) (Cube.leafWeights_of_string hstring (hat d i dim _ hi hd hl))

/-- A numeric leaf is the one coordinate under itself. -/
theorem mem_sections_of_leaf {coord : Coord} (h : NumericCoord cube.dimensions coord) :
    coord ∈ ((cube.leafLists coord).map (List.map Prod.fst)).sections := by
  rw [Cube.leafLists_of_leaf h, List.map_map, List.mem_sections]
  refine List.forall₂_iff_get.2 ⟨by simp, fun d hd hd' => ?_⟩
  simp

theorem leafCoord_of_numeric {coord : Coord} (h : NumericCoord cube.dimensions coord) :
    LeafCoord cube coord := by
  refine ⟨h.inRange.length_eq, allLeaf_iff.2 fun d i hi => ?_⟩
  have hlt : d < cube.dimensions.length :=
    h.inRange.length_eq ▸ (List.getElem?_eq_some_iff.1 hi).1
  have hd := List.getElem?_eq_getElem hlt
  unfold isLeafAt
  rw [dimension_getElem? hd, (forall₂_iff_getElem?.1 h).2 d i _ hi hd]
  rfl

/-- A coordinate of the cube that is not one of leaves has a consolidation. -/
theorem consolidated_of_not_allLeaf {coord : Coord} (hin : InRange cube.dimensions coord)
    (h : CalcEngine.allLeaf cube coord = false) : (coord.zipIdx.any fun x =>
      ((cube.dimension x.2).kindAt x.1).any fun k => !k.isLeaf) = true := by
  by_contra hnone
  refine Bool.false_ne_true (h.symm.trans (allLeaf_iff.2 fun d i hi => ?_))
  have hd := List.getElem?_eq_getElem (hin.length_eq ▸ (List.getElem?_eq_some_iff.1 hi).1)
  have hlt := (forall₂_iff_getElem?.1 hin).2 d i _ hi hd
  unfold isLeafAt Dimension.kindAt
  rw [dimension_getElem? hd, List.getElem?_eq_getElem hlt, Option.map_some, Option.any_some]
  by_contra hleaf
  refine hnone (List.any_eq_true.2 ⟨(i, d), List.mem_zipIdx_iff_getElem?.2 hi, ?_⟩)
  unfold Dimension.kindAt
  rw [dimension_getElem? hd, List.getElem?_eq_getElem hlt, Option.map_some, Option.any_some]
  rw [Bool.not_eq_true] at hleaf
  rw [hleaf]
  rfl

end Input

/-! ## Accounted leaves -/

/-- A leaf is accounted for: it is stored or fed, or a rule that only reads
other cubes has it in its area. -/
def Accounted (cube : Cube) (cm : CompiledModel) (ordinal : Nat) (a : Coord) : Prop :=
  a ∈ Stored cube ∪ {a | a ∈ (inferFeeders cube cm ordinal).index.coords} ∨
    ∃ area ∈ opaqueAreas cube cm ordinal, area.matches cube a = true

section Soundness

variable {registry : EvalRegistry} {ordinal : Nat} {x : Entry} {cm : CompiledModel}

/-- What a cube's engine computes where its rules compile. -/
theorem compute_of_rule (hx : registry.entry ordinal = some x) (hcm : x.compiled = some cm)
    (herror : x.compileError = none) {a : Coord} {rule : CompiledRule}
    (hrule : cm.matchingRule x.cube a = some rule) :
    (CalcEngine.new registry).compute ordinal a =
      (CalcEngine.new registry).evalExpr ordinal a rule.expr := by
  unfold CalcEngine.compute CalcEngine.denies CalcEngine.new
  simp only [Option.any_none, Bool.and_false, Bool.false_eq_true, if_false, hx, hcm, herror,
    Option.bind_some, hrule]

theorem compute_of_none (hx : registry.entry ordinal = some x) (hcm : x.compiled = some cm)
    (herror : x.compileError = none) {a : Coord} (hnone : cm.matchingRule x.cube a = none) :
    (CalcEngine.new registry).compute ordinal a =
      (CalcEngine.new registry).computeStored x ordinal a := by
  unfold CalcEngine.compute CalcEngine.denies CalcEngine.new
  simp only [Option.any_none, Bool.and_false, Bool.false_eq_true, if_false, hx, hcm, herror,
    Option.bind_some, hnone]

/-- A cell of a cube whose rules do not compile has no value. -/
theorem compileError_of_read (hx : registry.entry ordinal = some x) {n : Nat} {path : List Cell}
    {a : Coord} {v : Fixed}
    (h : (CalcEngine.new registry).system.read n path ⟨ordinal, a⟩ = some (.ok v)) :
    x.compileError = none := by
  obtain ⟨m, rfl⟩ : ∃ m, n = m + 1 := by
    rcases n with _ | m
    · simp [System.read] at h
    · exact ⟨m, rfl⟩
  have hread := System.read_nil_of_ok h
  rw [System.read_of_not_mem List.not_mem_nil] at hread
  rcases herror : x.compileError with _ | error
  · rfl
  · have hcompute : (CalcEngine.new registry).system.compute ⟨ordinal, a⟩ =
        fail (.rulesFailed x.cube.name error) := by
      show (CalcEngine.new registry).compute ordinal a = _
      unfold CalcEngine.compute CalcEngine.denies CalcEngine.new
      simp only [Option.any_none, Bool.and_false, Bool.false_eq_true, if_false, hx, herror]
    rw [hcompute] at hread
    cases hread

/-- A read that finds a value has computed it. -/
theorem run_of_read {e : CalcEngine} {n : Nat} {path : List Cell} {k : Cell} {v : Fixed}
    (h : e.system.read n path k = some (.ok v)) :
    ∃ m, n = m + 1 ∧ (e.compute k.ordinal k.coord).run (e.system.read m (k :: path)) =
      some (.ok v) := by
  rcases n with _ | m
  · simp [System.read] at h
  · refine ⟨m, rfl, ?_⟩
    by_cases hk : k ∈ path
    · rw [System.read_of_mem hk] at h
      cases h
    · rw [System.read_of_not_mem hk] at h
      exact h

/-- A stored value other than zero is a stored cell. -/
theorem stored_of_get {c : Cube} (hc : c.WF) {a : Coord} (hnum : NumericCoord c.dimensions a)
    {v : Fixed} (h : c.get a = .ok v) (hv : v ≠ Fixed.zero) : a ∈ Stored c := by
  rw [Cube.get_of_leaf hnum.inRange ((Cube.allNumericLeaf_eq_true hnum.inRange).2 hnum)] at h
  have hvalue := Except.ok.inj h
  unfold Cube.leafValue at hvalue
  rcases hget : c.cells.get c.layout a with _ | w
  · rw [hget] at hvalue
    exact absurd hvalue.symm hv
  · exact List.mem_map.2 ⟨(a, w), (Cube.mem_cellEntries hc).2 ⟨hnum.inRange, hget⟩, rfl⟩

/-- A leaf of a rule with a source of its own is accounted for. -/
theorem accounted_of_live {rule : CompiledRule} (hrule : rule ∈ cm.rules)
    (hfits : cm.Fits x.cube) {a : Coord} (hleaf : LeafCoord x.cube a)
    (hmatches : rule.area.matches x.cube a = true) {answer : Cell → Option (Except CalcError Fixed)}
    (hlive : Live ordinal a answer rule.expr)
    (hpotent : ∀ cell ∈ collectCells rule.expr, cell.cube = ordinal → ∀ w,
      answer ⟨ordinal, CalcEngine.address cell a⟩ = some (.ok w) → w ≠ Fixed.zero →
        InputPotent x.cube cm ordinal cell a
          (Stored x.cube ∪ {a | a ∈ (inferFeeders x.cube cm ordinal).index.coords})) :
    Accounted x.cube cm ordinal a := by
  have hwalk := targeted_of_matches (hfits rule hrule) hleaf hmatches
  have hmem := mem_coordWalk.2 hwalk
  have hsome : ¬ (areaLeafDims x.cube rule.area).any List.isEmpty = true := by
    intro hempty
    unfold coordWalk at hmem
    rw [if_pos hempty] at hmem
    exact List.not_mem_nil hmem
  have hfeeds : ∀ an : Analyzable, classify x.cube ordinal rule = .analyzable an →
      an.targetDims = areaLeafDims x.cube rule.area →
      Feeds x.cube cm ordinal (an, a)
        {a | a ∈ (inferFeeders x.cube cm ordinal).index.coords} →
      Accounted x.cube cm ordinal a := by
    intro an hclass hdims hfeeds
    refine .inl (.inr (feedClosed_inferFeeders x.cube cm ordinal (an, a) ?_ hfeeds))
    refine List.mem_flatMap.2 ⟨an, List.mem_filterMap.2 ⟨rule, hrule, by rw [hclass]; rfl⟩, ?_⟩
    rw [hdims]
    exact List.mem_map_of_mem hmem
  -- a rule without inputs of this cube is potent by itself, or reads other cubes only
  by_cases hinputs : ((collectCells rule.expr).filter fun c => c.cube = ordinal).isEmpty = true
  · have hbase : basePotent ordinal rule.expr = true := by
      refine hlive.resolve_right ?_
      rintro ⟨cell, hcell, hcube, -⟩
      have := List.isEmpty_iff.1 hinputs
      exact absurd hcube (of_decide_eq_false (by
        simpa using List.filter_eq_nil_iff.1 this cell hcell))
    by_cases hcross : ((collectCells rule.expr).any fun c => c.cube ≠ ordinal) = true
    · have hclass : classify x.cube ordinal rule = .unlocalized := by
        unfold classify
        simp only [hsome, hinputs, hcross, if_true, Bool.false_eq_true, if_false]
      obtain ⟨i, hi⟩ := List.mem_iff_getElem?.1 hrule
      refine .inr ⟨rule.area, List.mem_map.2 ⟨(rule, i), List.mem_filter.2
        ⟨List.mem_zipIdx_iff_getElem?.2 hi, ?_⟩, rfl⟩, hmatches⟩
      rw [hclass]
      rfl
    · refine hfeeds _ (by
        unfold classify
        simp only [hsome, hinputs, hcross, hbase, if_true, Bool.false_eq_true, if_false]; rfl) rfl
        (.inl rfl)
  · refine hfeeds _ (by
      unfold classify
      simp only [hsome, hinputs, Bool.false_eq_true, if_false]; rfl) rfl ?_
    rcases hlive with hbase | ⟨cell, hcell, hcube, w, hw, hw0⟩
    · exact .inl hbase
    · exact .inr ⟨cell, List.mem_filter.2 ⟨hcell, decide_eq_true hcube⟩,
        hpotent cell hcell hcube w hw hw0⟩

variable (hx : registry.entry ordinal = some x) (hcm : x.compiled = some cm)
  (hfed : x.fedSet = none)

include hx hcm hfed

/-- An input that is other than zero is potent, if the leaves under it that
are other than zero are accounted for. -/
theorem inputPotent_of_read {rule : CompiledRule} (hrule : rule ∈ cm.rules) {cell : CCell}
    (hcell : cell ∈ collectCells rule.expr) (hcube : cell.cube = ordinal)
    (haddressed : cm.Addressed x.cube ordinal) (hexpands : cm.Expands x.cube ordinal)
    {target : Coord} (htarget : LeafCoord x.cube target)
    (hwalk : Targeted x.cube rule.area target) {n : Nat} {path : List Cell} {w : Fixed}
    (h : (CalcEngine.new registry).system.read n path
      ⟨ordinal, CalcEngine.address cell target⟩ = some (.ok w)) (hw : w ≠ Fixed.zero)
    (ih : ∀ m ≤ n, ∀ path a v, LeafCoord x.cube a →
      (CalcEngine.new registry).system.read m path ⟨ordinal, a⟩ = some (.ok v) →
        v ≠ Fixed.zero → Accounted x.cube cm ordinal a) :
    InputPotent x.cube cm ordinal cell target
      (Stored x.cube ∪ {a | a ∈ (inferFeeders x.cube cm ordinal).index.coords}) := by
  have hrel := haddressed rule hrule cell hcell hcube
  have hin := inRange_address hrel htarget
  have herror := compileError_of_read hx h
  obtain ⟨m, rfl, hrun⟩ := run_of_read h
  have helement : elementCoord cell target = CalcEngine.address cell target :=
    elementCoord_eq hrel
  refine ⟨hrel.1.trans htarget.1.symm, ?_⟩
  rw [helement]
  rcases hfires : cm.matchingRule x.cube (CalcEngine.address cell target) with _ | fires
  · -- no rule fires at the input: it is stored, or a leaf under it is other than zero
    rw [compute_of_none hx hcm herror hfires] at hrun
    unfold CalcEngine.computeStored CalcEngine.sparse at hrun
    simp only [CalcEngine.new, Option.isNone_none, and_self, if_true, hfed, Option.bind_none]
      at hrun
    cases hleaf : CalcEngine.allLeaf x.cube (CalcEngine.address cell target) with
    | true =>
      rw [if_pos hleaf] at hrun
      have hget : x.cube.get (CalcEngine.address cell target) = .ok w :=
        mapError_eq_ok.1 (Option.some.inj hrun)
      have hnum : NumericCoord x.cube.dimensions (CalcEngine.address cell target) := by
        rw [← Cube.allNumericLeaf_eq_true hin]
        by_contra hnot
        rw [Cube.get_of_string x.wf hin (Bool.eq_false_iff.2 hnot)
          fun k i d hi hd => kind_of_allLeaf hleaf hi hd] at hget
        exact hw (Except.ok.inj hget).symm
      have hstored := stored_of_get x.wf hnum hget hw
      have hmem := mem_sections_of_leaf hnum
      refine ⟨_, inputLeaves_eq hin fun l hl hnil => ?_, .inr (.inr ⟨_, hmem, .inl (.inl hstored)⟩)⟩
      rw [Cube.leafLists_of_leaf hnum] at hl
      obtain ⟨i, -, rfl⟩ := List.mem_map.1 hl
      cases hnil
    | false =>
      rw [if_neg (by rw [hleaf]; exact Bool.false_ne_true)] at hrun
      have hnot : x.cube.allNumericLeaf (CalcEngine.address cell target) = false := by
        by_contra hall
        rw [Bool.not_eq_false, Cube.allNumericLeaf_eq_true hin] at hall
        rw [(leafCoord_of_numeric hall).2] at hleaf
        cases hleaf
      -- a sum other than zero has a term other than zero, whose leaf is accounted for
      obtain ⟨s, hs, u, hu, hu0⟩ := exists_of_consolidateWith hin hnot hrun hw
      have hnum := Cube.numericCoord_keys hin hs
      unfold CalcEngine.cellValue at hu
      rw [Task.run_request] at hu
      have haccounted := ih m (Nat.le_succ m) _ _ u (leafCoord_of_numeric hnum) hu hu0
      refine ⟨_, inputLeaves_eq hin fun l hl hnil => ?_, .inr (.inr ⟨_, ?_, haccounted⟩)⟩
      · obtain ⟨k, hk⟩ := List.mem_iff_getElem?.1 hl
        obtain ⟨hlen, hall⟩ := forall₂_iff_getElem?.1 (List.mem_sections.1 hs)
        have hlt : k < s.length := hlen ▸ (List.getElem?_eq_some_iff.1 hk).1
        have hin := hall k _ _ (List.getElem?_eq_getElem hlt) hk
        rw [hnil] at hin
        exact List.not_mem_nil hin
      · rw [Sections.sections_map]
        exact List.mem_map_of_mem hs
  -- a rule fires at the input: as a leaf it is accounted for, else the rule makes it potent
  · have hne := hexpands rule hrule cell hcell hcube target hwalk (by rw [hfires]; rfl)
    refine ⟨_, inputLeaves_eq hin hne, ?_⟩
    cases hleaf : CalcEngine.allLeaf x.cube (CalcEngine.address cell target) with
    | true =>
      have hnum := numericCoord_of_allLeaf hin hleaf hne
      exact .inr (.inr ⟨_, mem_sections_of_leaf hnum,
        ih (m + 1) le_rfl _ _ w (leafCoord_of_numeric hnum) h hw⟩)
    | false => exact .inl ⟨consolidated_of_not_allLeaf hin hleaf, rfl⟩

theorem accounted_of_read (hfits : cm.Fits x.cube) (haddressed : cm.Addressed x.cube ordinal)
    (hexpands : cm.Expands x.cube ordinal) (n : Nat) : ∀ path a v, LeafCoord x.cube a →
      (CalcEngine.new registry).system.read n path ⟨ordinal, a⟩ = some (.ok v) →
        v ≠ Fixed.zero → Accounted x.cube cm ordinal a := by
  induction n using Nat.strong_induction_on with
  | _ n ih =>
    intro path a v hleaf h hv
    have herror := compileError_of_read hx h
    obtain ⟨m, rfl, hrun⟩ := run_of_read h
    rcases hrule : cm.matchingRule x.cube a with _ | rule
    · rw [compute_of_none hx hcm herror hrule] at hrun
      unfold CalcEngine.computeStored at hrun
      rw [if_pos hleaf.2] at hrun
      have hget : x.cube.get a = .ok v := mapError_eq_ok.1 (Option.some.inj hrun)
      have hnum : NumericCoord x.cube.dimensions a := by
        rw [← Cube.allNumericLeaf_eq_true hleaf.inRange]
        by_contra hnot
        rw [Cube.get_of_string x.wf hleaf.inRange (Bool.eq_false_iff.2 hnot)
          fun k i d hi hd => kind_of_allLeaf hleaf.2 hi hd] at hget
        exact hv (Except.ok.inj hget).symm
      exact .inl (.inl (stored_of_get x.wf hnum hget hv))
    · rw [compute_of_rule hx hcm herror hrule] at hrun
      have hmem := List.mem_of_find?_eq_some hrule
      have hfires := List.find?_some (p := fun r : CompiledRule => r.area.matches x.cube a) hrule
      have hwalk := targeted_of_matches (hfits rule hmem) hleaf hfires
      refine accounted_of_live hmem hfits hleaf hfires (live_of_evalExpr _ hrun hv) ?_
      intro cell hcell hcube w hw hw0
      exact inputPotent_of_read hx hcm hfed hmem hcell hcube haddressed hexpands hleaf hwalk hw hw0
        fun j hj => ih j (by omega)

end Soundness

/-- **Inference never under-feeds.** A leaf that evaluates to other than zero
is stored, or fed, or in the area of a rule that is reported. -/
theorem accounted_of_fresh {registry : EvalRegistry} {ordinal : Nat} {x : Entry}
    {cm : CompiledModel} (hx : registry.entry ordinal = some x) (hcm : x.compiled = some cm)
    (hfed : x.fedSet = none) (hfits : cm.Fits x.cube) (haddressed : cm.Addressed x.cube ordinal)
    (hexpands : cm.Expands x.cube ordinal) {a : Coord} (hleaf : LeafCoord x.cube a) {v : Fixed}
    (h : (CalcEngine.new registry).fresh ordinal a = .ok v) (hv : v ≠ Fixed.zero) :
    Accounted x.cube cm ordinal a := by
  obtain ⟨n, hn⟩ := CalcEngine.fresh_eq_iff.1 h
  exact accounted_of_read hx hcm hfed hfits haddressed hexpands n [] a v hleaf hn hv

/-! ## A rule that copies -/

/-- The South is what the North is. -/
def copyRules : CompiledModel :=
  ⟨[⟨⟨[.oneOf [1], .any], false⟩, .cell ⟨0, [.pinned 0, .fromTarget 1]⟩⟩]⟩

/-- No rule fires in the North. -/
theorem copyRules_expands : copyRules.Expands (soldEntry copyRules).cube 0 := by
  intro rule hrule cell hcell hcube target _ hsome
  obtain rfl := List.mem_singleton.1 hrule
  obtain rfl := List.mem_singleton.1 hcell
  obtain ⟨fires, hfires⟩ := Option.isSome_iff_exists.1 hsome
  obtain rfl := List.mem_singleton.1 (List.mem_of_find?_eq_some hfires)
  have hmatches := List.find?_some (p := fun r : CompiledRule =>
    r.area.matches (soldEntry copyRules).cube _) hfires
  have hadmits := (matches_iff.1 hmatches).2 0 0 (.oneOf [1]) rfl rfl
  cases hadmits

/-- The South is fed, for it reads the North, where an amount is stored. -/
theorem accounted_of_fresh_copied :
    (CalcEngine.new (EvalRegistry.single (soldEntry copyRules))).fresh 0 [1, 0] =
        .ok ((Fixed.tryFrom 10000).getD Fixed.zero) ∧
      Accounted (soldEntry copyRules).cube copyRules 0 [1, 0] := by
  have hvalue : (CalcEngine.new (EvalRegistry.single (soldEntry copyRules))).fresh 0 [1, 0] =
      .ok ((Fixed.tryFrom 10000).getD Fixed.zero) := by
    decide +kernel
  have hrank : (soldEntry copyRules).cube.rank = 2 := by decide +kernel
  have hlen : 0 < ((soldEntry copyRules).cube.dimension 0).len := by decide +kernel
  have hfits : copyRules.Fits (soldEntry copyRules).cube := by
    intro rule hrule
    obtain rfl := List.mem_singleton.1 hrule
    exact hrank.symm
  have haddressed : copyRules.Addressed (soldEntry copyRules).cube 0 := by
    intro rule hrule cell hcell _
    obtain rfl := List.mem_singleton.1 hrule
    obtain rfl := List.mem_singleton.1 hcell
    refine ⟨hrank.symm, fun d slot hslot => ?_⟩
    rcases d with _ | _ | d
    · exact .inr ⟨0, (Option.some.inj hslot).symm, hlen⟩
    · exact .inl (Option.some.inj hslot).symm
    · cases hslot
  have hleaf : LeafCoord (soldEntry copyRules).cube [1, 0] := ⟨hrank.symm, by decide +kernel⟩
  exact ⟨hvalue, accounted_of_fresh (x := soldEntry copyRules) rfl rfl rfl hfits haddressed
    copyRules_expands hleaf hvalue (by decide)⟩

end Calc

end Epiphany
