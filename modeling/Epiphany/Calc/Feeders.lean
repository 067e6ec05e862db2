import Epiphany.Calc.Explain
import Epiphany.Calc.Masked
/-!
# Feeder diagnostics — the fed leaves, against the values of the rules

The validation of a feeder index evaluates the leaves of every rule's area and
every fed coordinate, and lists those that are fed wrongly. What it takes for
the leaves of an area are the leaves of each dimension, whether the rule names
them or leaves the dimension free. A rule with the scope of consolidations
fires at none of these where it leaves a dimension free: the report is exact
where no such leaf adds to it (`diagnostics_exact_iff`).
-/

namespace Epiphany

namespace Calc

/-! ## The validation -/

/-- A sorted set of coordinates. -/
abbrev CoordSet := Std.ExtTreeSet Coord Ord.compare

/-- The coordinates that are fed. -/
structure FeederIndex where
  coords : CoordSet

structure FeederDiagnostics where
  underFed : List Coord
  overFed : List Coord
  erroring : List (Coord × String)
  fedCellCount : Nat
  estimatedOverFedBytes : Nat

/-- What a fed cell costs, about. -/
def fedCellBytes : Nat := 20

def isLeafAt (cube : Cube) (d i : Nat) : Bool :=
  ((cube.dimension d).kindAt i).any ElementKind.isLeaf

/-- The leaves of each dimension that an area admits; a rule has a predicate
for each dimension of its cube. -/
def areaLeafDims (cube : Cube) (area : CompiledArea) : List (List Nat) :=
  (List.range cube.rank).map fun d =>
    match area.perDim.getD d .any with
    | .any => (List.range (cube.dimension d).len).filter (isLeafAt cube d)
    | .oneOf set => set.filter (isLeafAt cube d)

/-- What the validation has found. -/
structure Findings where
  underFed : CoordSet
  overFed : CoordSet
  erroring : FinMap Coord String

namespace Findings

/-- A failure is recorded once. -/
def fails (f : Findings) (coord : Coord) (err : CalcError) : Findings :=
  if f.erroring[coord]?.isSome then f
  else { f with erroring := f.erroring.insert coord err.toString }

/-- A target that is not zero must be fed. -/
def checkTarget (index : FeederIndex) (f : Findings) (target : Coord) :
    Except CalcError Fixed → Findings
  | .ok v =>
    if v ≠ Fixed.zero ∧ ¬ index.coords.contains target then
      { f with underFed := f.underFed.insert target }
    else f
  | .error err => f.fails target err

/-- A fed coordinate that is zero is wasted. -/
def checkFed (f : Findings) (fed : Coord) : Except CalcError Fixed → Findings
  | .ok v => if v = Fixed.zero then { f with overFed := f.overFed.insert fed } else f
  | .error err => f.fails fed err

end Findings

/-- Evaluate a coordinate over the memo, and check it. -/
def evaluateAndCheck (e : CalcEngine) (ordinal : Nat)
    (check : Findings → Coord → Except CalcError Fixed → Findings) (st : Findings × CalcMemo)
    (coord : Coord) : Findings × CalcMemo :=
  let read := e.value st.2 ordinal coord
  (check st.1 coord read.1, read.2)

/-- The engine of a registry, without overlay and mask. -/
def CalcEngine.new (registry : EvalRegistry) : CalcEngine := ⟨registry, none, none, 0⟩

/-- The targets of the rules first, then the fed coordinates, over one memo. -/
def findings (e : CalcEngine) (ordinal : Nat) (cube : Cube) (model : CompiledModel)
    (index : FeederIndex) : Findings × CalcMemo :=
  let targets := model.rules.foldl (fun st rule =>
    (coordWalk (areaLeafDims cube rule.area)).foldl
      (evaluateAndCheck e ordinal (Findings.checkTarget index)) st) (⟨∅, ∅, ∅⟩, CalcMemo.new)
  index.coords.toList.foldl (evaluateAndCheck e ordinal Findings.checkFed) targets

/-- Validate a feeder index against the values of the rules. -/
def validateFeeders (registry : EvalRegistry) (ordinal : Nat) (index : FeederIndex) :
    Except CalcError FeederDiagnostics := do
  let x ← okOr (registry.entry ordinal) (.unknownCube ordinal)
  match x.compiled with
  | none => .ok ⟨[], [], [], 0, 0⟩
  | some model =>
    let found := (findings (CalcEngine.new registry) ordinal x.cube model index).1
    .ok
      { underFed := found.underFed.toList
        overFed := found.overFed.toList
        erroring := found.erroring.toList
        fedCellCount := index.coords.size
        estimatedOverFedBytes := found.overFed.size * fedCellBytes }

/-! ## What is found -/

section Found

variable {e : CalcEngine} {ordinal : Nat} {index : FeederIndex}

/-- Evaluations over one memo find what fresh ones do. -/
theorem foldl_evaluateAndCheck (check : Findings → Coord → Except CalcError Fixed → Findings)
    (coords : List Coord) {st : Findings × CalcMemo} (hst : e.SoundMemo st.2) :
    (coords.foldl (evaluateAndCheck e ordinal check) st).1 =
        coords.foldl (fun f a => check f a (e.fresh ordinal a)) st.1 ∧
      e.SoundMemo (coords.foldl (evaluateAndCheck e ordinal check) st).2 := by
  induction coords generalizing st with
  | nil => exact ⟨rfl, hst⟩
  | cons a coords ih =>
    obtain ⟨-, -, hsound⟩ := CalcEngine.value_of_sound hst ordinal a
    have hnext := @ih (evaluateAndCheck e ordinal check st a) hsound
    have hcheck : (evaluateAndCheck e ordinal check st a).1 =
        check st.1 a (e.fresh ordinal a) := by
      unfold evaluateAndCheck
      dsimp only
      rw [CalcEngine.value_eq_fresh hst]
    rw [hcheck] at hnext
    exact hnext

/-- The coordinates that the validation walks through, rule by rule. -/
def targetsOf (cube : Cube) (model : CompiledModel) : List Coord :=
  model.rules.flatMap fun rule => coordWalk (areaLeafDims cube rule.area)

theorem findings_eq (cube : Cube) (model : CompiledModel) :
    (findings e ordinal cube model index).1 =
      index.coords.toList.foldl (fun f a => f.checkFed a (e.fresh ordinal a))
        ((targetsOf cube model).foldl (fun f a => f.checkTarget index a (e.fresh ordinal a))
          ⟨∅, ∅, ∅⟩) := by
  unfold findings targetsOf
  dsimp only
  rw [← List.foldl_flatMap]
  have hnew : e.SoundMemo ((⟨∅, ∅, ∅⟩, CalcMemo.new) : Findings × CalcMemo).2 := e.sound_new
  obtain ⟨htargets, hsound⟩ := foldl_evaluateAndCheck (Findings.checkTarget index)
    (model.rules.flatMap fun rule => coordWalk (areaLeafDims cube rule.area)) hnew
  rw [(foldl_evaluateAndCheck Findings.checkFed index.coords.toList hsound).1, htargets]

end Found

namespace Findings

/-- The text that a failure leaves. -/
def failure : Except CalcError Fixed → Option String
  | .ok _ => none
  | .error err => some err.toString

theorem erroring_fails (f : Findings) (a b : Coord) (err : CalcError) :
    (f.fails a err).erroring[b]? =
      f.erroring[b]?.or (if b = a then some err.toString else none) := by
  unfold fails
  by_cases hsome : f.erroring[a]?.isSome
  · rw [if_pos hsome]
    by_cases hb : b = a
    · obtain ⟨text, htext⟩ := Option.isSome_iff_exists.1 hsome
      rw [hb, htext, Option.some_or]
    · rw [if_neg hb, Option.or_none]
  · rw [if_neg hsome]
    rw [Option.not_isSome_iff_eq_none] at hsome
    by_cases hb : b = a
    · rw [if_pos hb, hb, hsome, Option.none_or]
      exact FinMap.get_insert_self _ _ _
    · rw [if_neg hb, Option.or_none]
      exact FinMap.get_insert_of_ne (Ne.symm hb) _

theorem erroring_checkTarget (index : FeederIndex) (f : Findings) (a : Coord)
    (r : Except CalcError Fixed) (b : Coord) : (f.checkTarget index a r).erroring[b]? =
      f.erroring[b]?.or (if b = a then failure r else none) := by
  cases r with
  | ok v =>
    unfold checkTarget
    dsimp only [failure]
    split_ifs <;> rw [Option.or_none]
  | error err => exact f.erroring_fails a b err

theorem erroring_checkFed (f : Findings) (a : Coord) (r : Except CalcError Fixed) (b : Coord) :
    (f.checkFed a r).erroring[b]? =
      f.erroring[b]?.or (if b = a then failure r else none) := by
  cases r with
  | ok v =>
    unfold checkFed
    dsimp only [failure]
    split_ifs <;> rw [Option.or_none]
  | error err => exact f.erroring_fails a b err

section Fold

variable {check : Findings → Coord → Except CalcError Fixed → Findings}
  (value : Coord → Except CalcError Fixed) (coords : List Coord) (f : Findings)

/-- What fails at the coordinates of a run is recorded. -/
theorem erroring_foldl (hstep : ∀ f a r b, (check f a r).erroring[b]? =
      f.erroring[b]?.or (if b = a then failure r else none)) (b : Coord) :
    (coords.foldl (fun f a => check f a (value a)) f).erroring[b]? =
      f.erroring[b]?.or (if b ∈ coords then failure (value b) else none) := by
  induction coords generalizing f with
  | nil => rw [List.foldl_nil, if_neg List.not_mem_nil, Option.or_none]
  | cons a coords ih =>
    rw [List.foldl_cons, ih, hstep, Option.or_assoc]
    congr 1
    by_cases hb : b = a
    · subst hb
      rw [if_pos rfl, if_pos List.mem_cons_self]
      split_ifs
      · exact Option.or_self
      · exact Option.or_none
    · rw [if_neg hb, Option.none_or]
      simp only [List.mem_cons, hb, false_or]

/-- And what passes a test is collected. -/
theorem mem_foldl_check {found : Findings → CoordSet} {P : Coord → Except CalcError Fixed → Prop}
    (hstep : ∀ f a r b, b ∈ found (check f a r) ↔ b ∈ found f ∨ b = a ∧ P b r) (b : Coord) :
    b ∈ found (coords.foldl (fun f a => check f a (value a)) f) ↔
      b ∈ found f ∨ b ∈ coords ∧ P b (value b) := by
  induction coords generalizing f with
  | nil => simp
  | cons a coords ih =>
    rw [List.foldl_cons, ih, hstep, List.mem_cons]
    constructor
    · rintro ((hf | ⟨rfl, hp⟩) | ⟨hmem, hp⟩)
      · exact .inl hf
      · exact .inr ⟨.inl rfl, hp⟩
      · exact .inr ⟨.inr hmem, hp⟩
    · rintro (hf | ⟨rfl | hmem, hp⟩)
      · exact .inl (.inl hf)
      · exact .inl (.inr ⟨rfl, hp⟩)
      · exact .inr ⟨hmem, hp⟩

end Fold

theorem mem_under_checkTarget (index : FeederIndex) (f : Findings) (a : Coord)
    (r : Except CalcError Fixed) (b : Coord) : b ∈ (f.checkTarget index a r).underFed ↔
      b ∈ f.underFed ∨ b = a ∧ b ∉ index.coords ∧ ∃ v, r = .ok v ∧ v ≠ Fixed.zero := by
  cases r with
  | ok v =>
    unfold checkTarget
    dsimp only
    split_ifs with h
    · rw [Std.ExtTreeSet.contains_iff_mem] at h
      rw [Std.ExtTreeSet.mem_insert, Std.compare_eq_iff_eq]
      constructor
      · rintro (rfl | hmem)
        · exact .inr ⟨rfl, h.2, v, rfl, h.1⟩
        · exact .inl hmem
      · rintro (hmem | ⟨rfl, -⟩)
        · exact .inr hmem
        · exact .inl rfl
    · rw [Std.ExtTreeSet.contains_iff_mem] at h
      constructor
      · exact fun hmem => .inl hmem
      · rintro (hmem | ⟨rfl, hfed, w, hw, hzero⟩)
        · exact hmem
        · obtain rfl := Except.ok.inj hw
          exact absurd ⟨hzero, hfed⟩ h
  | error err =>
    have hunder : (f.checkTarget index a (.error err)).underFed = f.underFed := by
      unfold checkTarget fails
      dsimp only
      split_ifs <;> rfl
    rw [hunder]
    constructor
    · exact fun hmem => .inl hmem
    · rintro (hmem | ⟨-, -, w, hw, -⟩)
      · exact hmem
      · cases hw

theorem over_checkTarget (index : FeederIndex) (f : Findings) (a : Coord)
    (r : Except CalcError Fixed) : (f.checkTarget index a r).overFed = f.overFed := by
  unfold checkTarget fails
  cases r <;> dsimp only <;> split_ifs <;> rfl

theorem under_checkFed (f : Findings) (a : Coord) (r : Except CalcError Fixed) :
    (f.checkFed a r).underFed = f.underFed := by
  unfold checkFed fails
  cases r <;> dsimp only <;> split_ifs <;> rfl

theorem mem_over_checkFed (f : Findings) (a : Coord) (r : Except CalcError Fixed) (b : Coord) :
    b ∈ (f.checkFed a r).overFed ↔ b ∈ f.overFed ∨ b = a ∧ r = .ok Fixed.zero := by
  cases r with
  | ok v =>
    unfold checkFed
    dsimp only
    split_ifs with h
    · rw [Std.ExtTreeSet.mem_insert, Std.compare_eq_iff_eq, h]
      constructor
      · rintro (rfl | hmem)
        · exact .inr ⟨rfl, rfl⟩
        · exact .inl hmem
      · rintro (hmem | ⟨rfl, -⟩)
        · exact .inr hmem
        · exact .inl rfl
    · constructor
      · exact fun hmem => .inl hmem
      · rintro (hmem | ⟨-, hv⟩)
        · exact hmem
        · exact absurd (Except.ok.inj hv) h
  | error err =>
    have hover : (f.checkFed a (.error err)).overFed = f.overFed := by
      unfold checkFed fails
      dsimp only
      split_ifs <;> rfl
    rw [hover]
    constructor
    · exact fun hmem => .inl hmem
    · rintro (hmem | ⟨-, hv⟩)
      · exact hmem
      · cases hv

end Findings

/-! ## Leaves and targets -/

theorem mem_coordWalk {L : List (List Nat)} {a : Coord} :
    a ∈ coordWalk L ↔ List.Forall₂ (· ∈ ·) a L := by
  unfold coordWalk
  split_ifs with hempty
  · obtain ⟨l, hl, hnil⟩ := List.any_eq_true.1 hempty
    rw [List.isEmpty_iff] at hnil
    subst hnil
    refine iff_of_false List.not_mem_nil fun h => ?_
    obtain ⟨d, hd⟩ := List.mem_iff_getElem?.1 hl
    obtain ⟨hlen, hall⟩ := forall₂_iff_getElem?.1 h
    have hlt : d < a.length := hlen ▸ (List.getElem?_eq_some_iff.1 hd).1
    exact List.not_mem_nil (hall d _ _ (List.getElem?_eq_getElem hlt) hd)
  · rw [Sections.map_row_readings fun l hl hnil => hempty (List.any_eq_true.2
      ⟨l, hl, List.isEmpty_iff.2 hnil⟩), Sections.mem_rows]

/-- The rules have a predicate for each dimension of their cube. -/
def CompiledModel.Fits (cm : CompiledModel) (cube : Cube) : Prop :=
  ∀ rule ∈ cm.rules, rule.area.perDim.length = cube.rank

/-- A coordinate of leaves. -/
def LeafCoord (cube : Cube) (a : Coord) : Prop :=
  a.length = cube.rank ∧ CalcEngine.allLeaf cube a = true

/-- The coordinates that the validation takes for leaves of an area. -/
def Targeted (cube : Cube) (area : CompiledArea) (a : Coord) : Prop :=
  List.Forall₂ (· ∈ ·) a (areaLeafDims cube area)

/-- A rule that fires at consolidations in the dimensions it leaves free, if
there are any. -/
def CompiledArea.FreeAbove (area : CompiledArea) : Prop :=
  area.consolidated = true ∧ DimPredicate.any ∈ area.perDim

section Area

variable {cube : Cube} {area : CompiledArea} {a : Coord}

theorem allLeaf_iff : CalcEngine.allLeaf cube a = true ↔
    ∀ (d i : Nat), a[d]? = some i → isLeafAt cube d i = true := by
  unfold CalcEngine.allLeaf
  rw [List.all_eq_true]
  constructor
  · exact fun h d i hi => h (i, d) (List.mem_zipIdx_iff_getElem?.2 hi)
  · exact fun h x hx => h x.2 x.1 (List.mem_zipIdx_iff_getElem?.1 hx)

theorem dimension_getElem? {d : Nat} {dim : Dimension} (h : cube.dimensions[d]? = some dim) :
    cube.dimension d = dim := by
  unfold Cube.dimension
  rw [List.getD_eq_getElem?_getD, h, Option.getD_some]

theorem matches_iff : area.matches cube a = true ↔ a.length = area.perDim.length ∧
    ∀ (d i : Nat) (pred : DimPredicate), a[d]? = some i → area.perDim[d]? = some pred →
      pred.admits area.consolidated (cube.dimension d) i = true := by
  unfold CompiledArea.matches
  rw [Bool.and_eq_true, decide_eq_true_eq, List.all_eq_true]
  refine and_congr_right fun _ => ?_
  constructor
  · intro h d i pred hi hpred
    exact h ((i, pred), d) (List.mem_zipIdx_iff_getElem?.2
      (List.getElem?_zip_eq_some.2 ⟨hi, hpred⟩))
  · intro h x hx
    obtain ⟨hi, hpred⟩ := List.getElem?_zip_eq_some.1 (List.mem_zipIdx_iff_getElem?.1 hx)
    exact h x.2 x.1.1 x.1.2 hi hpred

/-- The walk of an area goes through the leaves that the scope of leaves
admits, whatever the scope of the rule. -/
theorem targeted_iff (hfits : area.perDim.length = cube.rank) : Targeted cube area a ↔
    LeafCoord cube a ∧ ∀ (d i : Nat) (pred : DimPredicate), a[d]? = some i →
      area.perDim[d]? = some pred → pred.admits false (cube.dimension d) i = true := by
  have hdims : (areaLeafDims cube area).length = cube.rank := by simp [areaLeafDims]
  have hmem : ∀ {d i : Nat} {l : List Nat} {pred : DimPredicate}, area.perDim[d]? = some pred →
      (areaLeafDims cube area)[d]? = some l →
      (i ∈ l ↔ isLeafAt cube d i = true ∧ pred.admits false (cube.dimension d) i = true) := by
    intro d i l pred hpred hl
    unfold areaLeafDims at hl
    rw [List.getElem?_map, Option.map_eq_some_iff] at hl
    obtain ⟨d', hd', hl⟩ := hl
    obtain ⟨hlt, rfl⟩ := List.getElem?_eq_some_iff.1 hd'
    rw [List.getElem_range] at hl
    rw [List.getD_eq_getElem?_getD, hpred, Option.getD_some] at hl
    subst hl
    cases pred with
    | any =>
      have hrange : isLeafAt cube d i = true → i < (cube.dimension d).len := by
        unfold isLeafAt Dimension.kindAt
        intro h
        by_contra hle
        rw [List.getElem?_eq_none (Nat.not_lt.1 hle)] at h
        cases h
      -- outside of consolidations the free predicate admits exactly the leaves
      have hadmits : DimPredicate.any.admits false (cube.dimension d) i = isLeafAt cube d i := by
        unfold DimPredicate.admits isLeafAt
        simp
      rw [hadmits, List.mem_filter, List.mem_range]
      exact ⟨fun h => ⟨h.2, h.2⟩, fun h => ⟨hrange h.1, h.1⟩⟩
    | oneOf set =>
      unfold DimPredicate.admits
      rw [List.mem_filter, decide_eq_true_eq]
      exact and_comm
  unfold Targeted LeafCoord
  rw [forall₂_iff_getElem?, hdims, allLeaf_iff]
  constructor
  · rintro ⟨hlen, hall⟩
    have hboth : ∀ (d i : Nat) (pred : DimPredicate), a[d]? = some i →
        area.perDim[d]? = some pred →
        isLeafAt cube d i = true ∧ pred.admits false (cube.dimension d) i = true := by
      intro d i pred hi hpred
      have hlt : d < (areaLeafDims cube area).length := by
        rw [hdims, ← hlen]
        exact (List.getElem?_eq_some_iff.1 hi).1
      have hl := List.getElem?_eq_getElem hlt
      exact (hmem hpred hl).1 (hall d i _ hi hl)
    refine ⟨⟨hlen, fun d i hi => ?_⟩, fun d i pred hi hpred => (hboth d i pred hi hpred).2⟩
    have hlt : d < area.perDim.length := by
      rw [hfits, ← hlen]
      exact (List.getElem?_eq_some_iff.1 hi).1
    exact (hboth d i _ hi (List.getElem?_eq_getElem hlt)).1
  · rintro ⟨⟨hlen, hleaf⟩, hadmits⟩
    refine ⟨hlen, fun d i l hi hl => ?_⟩
    have hlt : d < area.perDim.length := by
      rw [hfits, ← hlen]
      exact (List.getElem?_eq_some_iff.1 hi).1
    have hpred := List.getElem?_eq_getElem hlt
    exact (hmem hpred hl).2 ⟨hleaf d i hi, hadmits d i _ hi hpred⟩

/-- A leaf that a rule matches is walked. -/
theorem targeted_of_matches (hfits : area.perDim.length = cube.rank) (hleaf : LeafCoord cube a)
    (h : area.matches cube a = true) : Targeted cube area a := by
  obtain ⟨-, hall⟩ := matches_iff.1 h
  refine (targeted_iff hfits).2 ⟨hleaf, fun d i pred hi hpred => ?_⟩
  have hadmits := hall d i pred hi hpred
  cases pred with
  | oneOf set => exact hadmits
  | any =>
    have hi' := allLeaf_iff.1 hleaf.2 d i hi
    unfold isLeafAt at hi'
    unfold DimPredicate.admits at hadmits ⊢
    rw [Option.any_eq_true] at hi'
    obtain ⟨kind, hkind, hk⟩ := hi'
    dsimp only at hadmits ⊢
    rw [hkind, Option.any_some, hk]
    rfl

/-- A leaf that is walked is matched, but where the rule leaves a dimension to
consolidations. -/
theorem matches_of_targeted (hfits : area.perDim.length = cube.rank) (h : Targeted cube area a)
    (hscope : ¬ area.FreeAbove) : area.matches cube a = true := by
  obtain ⟨hleaf, hall⟩ := (targeted_iff hfits).1 h
  refine matches_iff.2 ⟨hleaf.1.trans hfits.symm, fun d i pred hi hpred => ?_⟩
  have hadmits := hall d i pred hi hpred
  cases pred with
  | oneOf set => exact hadmits
  | any =>
    have hfalse : area.consolidated = false := by
      by_contra hne
      rw [Bool.not_eq_false] at hne
      exact hscope ⟨hne, List.mem_of_getElem? hpred⟩
    rw [hfalse]
    exact hadmits

theorem mem_targetsOf {cm : CompiledModel} :
    a ∈ targetsOf cube cm ↔ ∃ rule ∈ cm.rules, Targeted cube rule.area a := by
  unfold targetsOf Targeted
  simp only [List.mem_flatMap, mem_coordWalk]

end Area

/-! ## Exactness -/

/-- A leaf at which a rule fires. -/
def Covered (cube : Cube) (cm : CompiledModel) (a : Coord) : Prop :=
  LeafCoord cube a ∧ (cm.matchingRule cube a).isSome

theorem targeted_of_covered {cube : Cube} {cm : CompiledModel} (hfits : cm.Fits cube) {a : Coord}
    (h : Covered cube cm a) : ∃ rule ∈ cm.rules, Targeted cube rule.area a := by
  obtain ⟨rule, hrule⟩ := Option.isSome_iff_exists.1 h.2
  have hmem := List.mem_of_find?_eq_some hrule
  have hfires := List.find?_some (p := fun r : CompiledRule => r.area.matches cube a) hrule
  exact ⟨rule, hmem, targeted_of_matches (hfits rule hmem) h.1 hfires⟩

/-- The report, against the values of the cells. -/
structure Exact (cube : Cube) (cm : CompiledModel) (index : FeederIndex)
    (value : Coord → Except CalcError Fixed) (diag : FeederDiagnostics) : Prop where
  underFed_sorted : diag.underFed.Pairwise fun a b => Ord.compare a b = .lt
  underFed : ∀ a, a ∈ diag.underFed ↔
    Covered cube cm a ∧ a ∉ index.coords ∧ ∃ v, value a = .ok v ∧ v ≠ Fixed.zero
  overFed_sorted : diag.overFed.Pairwise fun a b => Ord.compare a b = .lt
  overFed : ∀ a, a ∈ diag.overFed ↔ a ∈ index.coords ∧ value a = .ok Fixed.zero
  erroring_sorted : diag.erroring.Pairwise fun a b => Ord.compare a.1 b.1 = .lt
  erroring : ∀ a text, (a, text) ∈ diag.erroring ↔
    (Covered cube cm a ∨ a ∈ index.coords) ∧ ∃ err, value a = .error err ∧ err.toString = text
  fedCellCount : diag.fedCellCount = index.coords.size
  estimatedOverFedBytes : diag.estimatedOverFedBytes = diag.overFed.length * fedCellBytes

/-- What the leaves are that a report takes for targets and no rule fires
at. -/
def Stray (cube : Cube) (cm : CompiledModel) (index : FeederIndex) (a : Coord) : Prop :=
  (∃ rule ∈ cm.rules, rule.area.FreeAbove ∧ Targeted cube rule.area a) ∧
    cm.matchingRule cube a = none ∧ a ∉ index.coords

section Report

variable {registry : EvalRegistry} {ordinal : Nat} {x : Entry} {cm : CompiledModel}
  {index : FeederIndex} {diag : FeederDiagnostics}

/-- A leaf that no rule covers reads as it is stored. -/
theorem fresh_of_unmatched (hx : registry.entry ordinal = some x) (hcm : x.compiled = some cm)
    {a : Coord} (hleaf : LeafCoord x.cube a) (hnone : cm.matchingRule x.cube a = none) :
    (CalcEngine.new registry).fresh ordinal a =
      match x.compileError with
      | some error => .error (.rulesFailed x.cube.name error)
      | none => (x.cube.get a).mapError .model := by
  refine CalcEngine.fresh_eq_iff.2 ⟨1, ?_⟩
  rw [Demand.System.read_of_not_mem List.not_mem_nil]
  show ((CalcEngine.new registry).compute ordinal a).run _ = _
  rcases herror : x.compileError with _ | error
  · have hcompute : (CalcEngine.new registry).compute ordinal a = liftModel (x.cube.get a) := by
      unfold CalcEngine.compute CalcEngine.denies CalcEngine.new
      simp only [Option.any_none, Bool.and_false, Bool.false_eq_true, if_false, hx, hcm, herror,
        Option.bind_some, hnone, CalcEngine.computeStored, hleaf.2, if_true, Option.bind_none]
    rw [hcompute]
    rfl
  · have hcompute : (CalcEngine.new registry).compute ordinal a =
        fail (.rulesFailed x.cube.name error) := by
      unfold CalcEngine.compute CalcEngine.denies CalcEngine.new
      simp only [Option.any_none, Bool.and_false, Bool.false_eq_true, if_false, hx, herror]
    rw [hcompute]
    rfl

theorem validateFeeders_eq (hx : registry.entry ordinal = some x) (hcm : x.compiled = some cm) :
    validateFeeders registry ordinal index =
      let found := (findings (CalcEngine.new registry) ordinal x.cube cm index).1
      .ok
        { underFed := found.underFed.toList
          overFed := found.overFed.toList
          erroring := found.erroring.toList
          fedCellCount := index.coords.size
          estimatedOverFedBytes := found.overFed.size * fedCellBytes } := by
  unfold validateFeeders
  rw [hx]
  simp only [okOr, bind, Except.bind, hcm]

theorem failure_eq_some {r : Except CalcError Fixed} {text : String} :
    Findings.failure r = some text ↔ ∃ err, r = .error err ∧ err.toString = text := by
  cases r with
  | ok v => simp [Findings.failure]
  | error err => simp [Findings.failure]

/-- What is found, in terms of the values. -/
theorem mem_findings (e : CalcEngine) (cube : Cube) (a : Coord) :
    (a ∈ (findings e ordinal cube cm index).1.underFed ↔
      (∃ rule ∈ cm.rules, Targeted cube rule.area a) ∧ a ∉ index.coords ∧
        ∃ v, e.fresh ordinal a = .ok v ∧ v ≠ Fixed.zero) ∧
    (a ∈ (findings e ordinal cube cm index).1.overFed ↔
      a ∈ index.coords ∧ e.fresh ordinal a = .ok Fixed.zero) ∧
    ∀ text, (findings e ordinal cube cm index).1.erroring[a]? = some text ↔
      ((∃ rule ∈ cm.rules, Targeted cube rule.area a) ∨ a ∈ index.coords) ∧
        ∃ err, e.fresh ordinal a = .error err ∧ err.toString = text := by
  rw [findings_eq, ← mem_targetsOf]
  have hunder : ∀ (coords : List Coord) (f : Findings), (coords.foldl
      (fun f a => f.checkFed a (e.fresh ordinal a)) f).underFed = f.underFed := by
    intro coords
    induction coords with
    | nil => exact fun f => rfl
    | cons b coords ih => exact fun f => (ih _).trans (f.under_checkFed b _)
  have hover : ∀ (coords : List Coord) (f : Findings), (coords.foldl
      (fun f a => f.checkTarget index a (e.fresh ordinal a)) f).overFed = f.overFed := by
    intro coords
    induction coords with
    | nil => exact fun f => rfl
    | cons b coords ih => exact fun f => (ih _).trans (f.over_checkTarget index b _)
  refine ⟨?_, ?_, ?_⟩
  · rw [hunder, Findings.mem_foldl_check (fun a => e.fresh ordinal a) (targetsOf cube cm) ⟨∅, ∅, ∅⟩
      (P := fun b r => b ∉ index.coords ∧ ∃ v, r = .ok v ∧ v ≠ Fixed.zero)
      (Findings.mem_under_checkTarget index)]
    exact or_iff_right Std.ExtTreeSet.not_mem_empty
  · rw [Findings.mem_foldl_check (fun a => e.fresh ordinal a) index.coords.toList _
      (P := fun _ r => r = .ok Fixed.zero) Findings.mem_over_checkFed, hover,
      Std.ExtTreeSet.mem_toList]
    exact or_iff_right Std.ExtTreeSet.not_mem_empty
  · intro text
    rw [Findings.erroring_foldl (fun a => e.fresh ordinal a) index.coords.toList _
      Findings.erroring_checkFed, Findings.erroring_foldl (fun a => e.fresh ordinal a) _ _
      (Findings.erroring_checkTarget index), FinMap.get_empty, Option.none_or,
      ← failure_eq_some]
    simp only [Std.ExtTreeSet.mem_toList]
    by_cases htarget : a ∈ targetsOf cube cm
    · rw [if_pos htarget, and_iff_right (.inl htarget)]
      split_ifs
      · rw [Option.or_self]
      · rw [Option.or_none]
    · rw [if_neg htarget, Option.none_or]
      split_ifs with hfed
      · rw [and_iff_right (.inr hfed)]
      · exact iff_of_false (by simp) fun hwhy => not_or.2 ⟨htarget, hfed⟩ hwhy.1

/-- A leaf that is targeted is covered, or it is stray, or it is fed. -/
theorem covered_or_stray (hfits : cm.Fits x.cube) {a : Coord}
    (h : ∃ rule ∈ cm.rules, Targeted x.cube rule.area a) (hfed : a ∉ index.coords) :
    Covered x.cube cm a ∨ Stray x.cube cm index a := by
  obtain ⟨rule, hmem, htarget⟩ := h
  have hleaf := ((targeted_iff (hfits rule hmem)).1 htarget).1
  rcases hrule : cm.matchingRule x.cube a with _ | fires
  · refine .inr ⟨⟨rule, hmem, ?_, htarget⟩, hrule, hfed⟩
    by_contra hscope
    have hnone := List.find?_eq_none.1 hrule rule hmem
    exact hnone (matches_of_targeted (hfits rule hmem) htarget hscope)
  · exact .inl ⟨hleaf, by rw [hrule]; rfl⟩

/-- **Feeder diagnostics are exact** where no stray leaf adds to them: each
one is stored as zero, or not at all. -/
theorem diagnostics_exact_iff (hx : registry.entry ordinal = some x) (hcm : x.compiled = some cm)
    (hfits : cm.Fits x.cube) (h : validateFeeders registry ordinal index = .ok diag) :
    Exact x.cube cm index (fun a => (CalcEngine.new registry).fresh ordinal a) diag ↔
      ∀ a, Stray x.cube cm index a →
        x.compileError = none ∧ x.cube.get a = .ok Fixed.zero := by
  rw [validateFeeders_eq hx hcm] at h
  obtain rfl := Except.ok.inj h
  have hfound := @mem_findings ordinal cm index (CalcEngine.new registry) x.cube
  constructor
  · intro hexact a hstray
    obtain ⟨⟨rule, hmem, hscope, htarget⟩, hnone, hfed⟩ := hstray
    have hleaf := ((targeted_iff (hfits rule hmem)).1 htarget).1
    have hnot : ¬ Covered x.cube cm a := by
      rintro ⟨-, hsome⟩
      rw [hnone] at hsome
      cases hsome
    -- the leaf is in neither list, so it has a value, and that is zero
    have hvalue : (CalcEngine.new registry).fresh ordinal a = .ok Fixed.zero := by
      rcases hr : (CalcEngine.new registry).fresh ordinal a with err | v
      · have hlist : (a, err.toString) ∈
            (findings (CalcEngine.new registry) ordinal x.cube cm index).1.erroring.toList := by
          rw [FinMap.mem_toList, (hfound a).2.2]
          exact ⟨.inl ⟨rule, hmem, htarget⟩, err, hr, rfl⟩
        obtain ⟨hwhy, -⟩ := (hexact.erroring a _).1 hlist
        exact absurd hwhy (not_or.2 ⟨hnot, hfed⟩)
      · by_contra hne
        have hlist : a ∈
            (findings (CalcEngine.new registry) ordinal x.cube cm index).1.underFed.toList := by
          rw [Std.ExtTreeSet.mem_toList, (hfound a).1]
          exact ⟨⟨rule, hmem, htarget⟩, hfed, v, hr, fun hv => hne (by rw [hv])⟩
        exact hnot ((hexact.underFed a).1 hlist).1
    rw [fresh_of_unmatched hx hcm hleaf hnone] at hvalue
    rcases herror : x.compileError with _ | error
    · rw [herror] at hvalue
      exact ⟨rfl, mapError_eq_ok.1 hvalue⟩
    · rw [herror] at hvalue
      cases hvalue
  · intro hstray
    have hzero : ∀ a, Stray x.cube cm index a →
        (CalcEngine.new registry).fresh ordinal a = .ok Fixed.zero := by
      intro a ha
      obtain ⟨herror, hget⟩ := hstray a ha
      obtain ⟨⟨rule, hmem, -, htarget⟩, hnone, -⟩ := ha
      have hleaf := ((targeted_iff (hfits rule hmem)).1 htarget).1
      rw [fresh_of_unmatched hx hcm hleaf hnone, herror, hget]
      rfl
    refine
      { underFed_sorted := Std.ExtTreeSet.ordered_toList
        underFed := fun a => ?_
        overFed_sorted := Std.ExtTreeSet.ordered_toList
        overFed := fun a => ?_
        erroring_sorted := Std.ExtTreeMap.ordered_keys_toList
        erroring := fun a text => ?_
        fedCellCount := rfl
        estimatedOverFedBytes := ?_ }
    · rw [Std.ExtTreeSet.mem_toList, (hfound a).1]
      constructor
      · rintro ⟨htarget, hfed, v, hv, hne⟩
        rcases covered_or_stray hfits htarget hfed with hcovered | ha
        · exact ⟨hcovered, hfed, v, hv, hne⟩
        · rw [hzero a ha] at hv
          exact absurd (Except.ok.inj hv).symm hne
      · rintro ⟨hcovered, hrest⟩
        exact ⟨targeted_of_covered hfits hcovered, hrest⟩
    · rw [Std.ExtTreeSet.mem_toList]
      exact (hfound a).2.1
    · rw [FinMap.mem_toList, (hfound a).2.2]
      constructor
      · rintro ⟨hwhy, err, herr, htext⟩
        refine ⟨?_, err, herr, htext⟩
        by_cases hfed : a ∈ index.coords
        · exact .inr hfed
        · rcases covered_or_stray hfits (hwhy.resolve_right hfed) hfed with hcovered | ha
          · exact .inl hcovered
          · rw [hzero a ha] at herr
            cases herr
      · rintro ⟨hwhy, herr⟩
        exact ⟨hwhy.imp_left (targeted_of_covered hfits), herr⟩
    · show _ = (Std.ExtTreeSet.toList _).length * _
      rw [Std.ExtTreeSet.length_toList]

end Report

/-! ## A rule of totals -/

/-- A cube with an amount in the North. -/
def soldCube : Except ModelError Cube := do
  let c ← Cube.build "Sales" Cube.salesDefs
  c.setLeaf [0, 0] ((Fixed.tryFrom 10000).getD Fixed.zero)

theorem isSome_soldCube : soldCube.toOption.isSome = true := by
  decide +kernel

theorem wf_soldCube : (soldCube.toOption.get isSome_soldCube).WF := by
  obtain ⟨c, hget⟩ := Option.isSome_iff_exists.1 isSome_soldCube
  obtain ⟨c', hsold, -⟩ := exists_ok_of_any (x := soldCube) (p := fun _ => true) (by
    rw [hget]
    rfl)
  obtain ⟨c₀, hbuild, hwrite⟩ := bind_eq_ok.1 hsold
  have hc : soldCube.toOption.get isSome_soldCube = c' := by
    simp only [hsold, Except.toOption, Option.get_some]
  rw [hc]
  exact (Cube.WF.build hbuild).setLeaf hwrite

/-- That cube under rules. -/
def soldEntry (rules : CompiledModel) : Entry where
  cube := soldCube.toOption.get isSome_soldCube
  wf := wf_soldCube
  compiled := some rules
  compileError := none
  fedSet := none

/-- A rule for the totals of the amount. -/
def totalRules : CompiledModel := ⟨[⟨⟨[.any, .oneOf [0]], true⟩, .num Fixed.zero⟩]⟩

/-- The amount of the North is stored and no rule fires there: the report
that calls it under-fed is not exact. -/
theorem diagnostics_exact_iff_total : ∃ diag : FeederDiagnostics,
    validateFeeders (EvalRegistry.single (soldEntry totalRules)) 0 ⟨∅⟩ = .ok diag ∧
      ¬ Exact (soldEntry totalRules).cube totalRules ⟨∅⟩ (fun a =>
        (CalcEngine.new (EvalRegistry.single (soldEntry totalRules))).fresh 0 a) diag := by
  have hfits : totalRules.Fits (soldEntry totalRules).cube := by
    intro rule hrule
    obtain rfl := List.mem_singleton.1 hrule
    decide +kernel
  have hget : (soldEntry totalRules).cube.get [0, 0] ≠ .ok Fixed.zero := by decide +kernel
  have hnone : totalRules.matchingRule (soldEntry totalRules).cube [0, 0] = none := by
    decide +kernel
  have htarget : [0, 0] ∈ coordWalk
      (areaLeafDims (soldEntry totalRules).cube ⟨[.any, .oneOf [0]], true⟩) := by
    decide +kernel
  refine ⟨_, validateFeeders_eq rfl rfl, fun hexact => hget ?_⟩
  refine ((diagnostics_exact_iff (x := soldEntry totalRules) rfl rfl hfits
    (validateFeeders_eq rfl rfl)).1 hexact [0, 0]
      ⟨⟨_, List.mem_singleton_self _, ⟨rfl, List.mem_cons_self⟩, mem_coordWalk.1 htarget⟩,
        hnone, Std.ExtTreeSet.not_mem_empty⟩).2

end Calc

end Epiphany
