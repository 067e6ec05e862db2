import Epiphany.Calc.Feeders
import Epiphany.Common.Saturate
/-!
# Feeder inference — the leaves that a rule may fill

Inference feeds every leaf of a rule's area at which some input of the rule
may be other than zero: a stored leaf, a leaf that is fed, a leaf of a rule
that only reads other cubes, a consolidation over one of these, or one that a
rule overrides. What feeds a leaf may have been fed itself, so sweeps over the
areas follow one another until one feeds nothing. The result is the least set
with that closure (`inferFeeders_isLeast`).
-/

namespace Epiphany

namespace Calc

/-! ## The inference -/

/-- A consolidated input with more leaves than this is taken to be potent. -/
def inputExpansionCap : Nat := 4096

/-- A rule whose feeders are not inferred. -/
structure OpaqueRule where
  rule : Nat
  reason : String
deriving DecidableEq

/-- A rule whose feeders are inferred: the leaves of each dimension of its
area, the cells of its own cube that it reads, and whether it may be other
than zero where all of these are zero. -/
structure Analyzable where
  targetDims : List (List Nat)
  inputs : List CCell
  basePotent : Bool

structure FeederInference where
  index : FeederIndex
  opaqueRules : List OpaqueRule

/-- Whether a formula may be other than zero where every cell of its own cube
is zero. A cell of another cube may be. -/
def basePotent (targetOrdinal : Nat) : CExpr → Bool
  | .num n => n ≠ Fixed.zero
  | .attrNum _ _ => true
  | .cell c => c.cube ≠ targetOrdinal
  | .undef => false
  | .neg e => basePotent targetOrdinal e
  | .bin .add left right => basePotent targetOrdinal left || basePotent targetOrdinal right
  | .bin .sub left right => basePotent targetOrdinal left || basePotent targetOrdinal right
  | .bin .mul left right => basePotent targetOrdinal left && basePotent targetOrdinal right
  | .bin .div left _ => basePotent targetOrdinal left
  | .ifThen _ then_ => basePotent targetOrdinal then_
  | .ifElse _ then_ otherwise => basePotent targetOrdinal then_ || basePotent targetOrdinal otherwise

/-- The cells that the value of a formula comes from; a condition adds no
value of its own. -/
def collectCells : CExpr → List CCell
  | .cell c => [c]
  | .neg e => collectCells e
  | .bin _ left right => collectCells left ++ collectCells right
  | .ifThen _ then_ => collectCells then_
  | .ifElse _ then_ otherwise => collectCells then_ ++ collectCells otherwise
  | .num _ | .attrNum _ _ | .undef => []

/-- What inference makes of a rule. -/
inductive Classified where
  /-- The area has no leaves, or the formula is zero. -/
  | skipped
  /-- Only cells of other cubes are read. -/
  | unlocalized
  | analyzable (a : Analyzable)

def classify (cube : Cube) (targetOrdinal : Nat) (rule : CompiledRule) : Classified :=
  let targetDims := areaLeafDims cube rule.area
  if targetDims.any List.isEmpty then .skipped
  else
    let cells := collectCells rule.expr
    let inputs := cells.filter fun c => c.cube = targetOrdinal
    let bp := basePotent targetOrdinal rule.expr
    if inputs.isEmpty then
      if cells.any fun c => c.cube ≠ targetOrdinal then .unlocalized
      else if bp then .analyzable ⟨targetDims, inputs, true⟩
      else .skipped
    else .analyzable ⟨targetDims, inputs, bp⟩

def Classified.analyzable? : Classified → Option Analyzable
  | .analyzable a => some a
  | _ => none

def Classified.isUnlocalized : Classified → Bool
  | .unlocalized => true
  | _ => false

def analyzableRules (cube : Cube) (targetOrdinal : Nat) (model : CompiledModel) :
    List Analyzable :=
  model.rules.filterMap fun rule => (classify cube targetOrdinal rule).analyzable?

/-- The rules that only read other cubes, with their places. -/
def unlocalizedRules (cube : Cube) (targetOrdinal : Nat) (model : CompiledModel) :
    List (CompiledRule × Nat) :=
  model.rules.zipIdx.filter fun x => (classify cube targetOrdinal x.1).isUnlocalized

/-- The coordinate that an input addresses from a target. -/
def elementCoord (cell : CCell) (target : Coord) : Coord :=
  cell.addr.zipIdx.map fun x =>
    match x.1 with
    | .pinned pin => pin
    | .fromTarget _ => target.getD x.2 0

/-- The leaves under an element of a dimension, if it has some. -/
def elementLeaves (cube : Cube) (d i : Nat) : Option (List Nat) :=
  match (cube.dimension d).leafWeights i with
  | .ok weights => if weights.isEmpty then none else some (weights.map Prod.fst)
  | .error _ => none

/-- The leaves under each component of a coordinate, if it has some under
each. -/
def inputLeaves (cube : Cube) (coord : Coord) : Option (List (List Nat)) :=
  coord.zipIdx.mapM fun x => elementLeaves cube x.2 x.1

/-- The product of the lengths, checked factor by factor. -/
def checkedProduct (perDim : List (List Nat)) : Option Nat :=
  perDim.foldlM (fun total dim => checkedMul total dim.length) 1

/-- Whether some coordinate of the product satisfies a test; the first
dimension runs fastest. -/
def cartesianAny (perDim : List (List Nat)) (pred : Coord → Bool) : Bool :=
  (List.range (perDim.map List.length).prod).any fun n => pred (Sections.choice perDim n)

/-- Whether an input may be other than zero at a target, by the leaves found
potent so far. -/
def inputPotent (cube : Cube) (model : CompiledModel) (opaqueAreas : List CompiledArea)
    (cell : CCell) (target : Coord) (potent : CoordSet) : Bool :=
  if cell.addr.length ≠ target.length then false
  else
    let coord := elementCoord cell target
    match inputLeaves cube coord with
    | none => false
    | some perDim =>
      let consolidated := coord.zipIdx.any fun x =>
        ((cube.dimension x.2).kindAt x.1).any fun k => !k.isLeaf
      if consolidated && (model.matchingRule cube coord).isSome then true
      else
        match checkedProduct perDim with
        | none => true
        | some total =>
          if total ≤ inputExpansionCap then
            cartesianAny perDim fun a =>
              potent.contains a || opaqueAreas.any fun area => area.matches cube a
          else true

/-- The state of the sweeps: the leaves that are fed, and those found
potent. -/
structure Feeding where
  index : CoordSet
  potent : CoordSet

/-- Feed a target, unless it is fed or nothing fills it. -/
def feed (cube : Cube) (model : CompiledModel) (opaqueAreas : List CompiledArea) (st : Feeding)
    (item : Analyzable × Coord) : Option Feeding :=
  if st.index.contains item.2 then none
  else if item.1.basePotent || item.1.inputs.any fun cell =>
      inputPotent cube model opaqueAreas cell item.2 st.potent then
    some ⟨st.index.insert item.2, st.potent.insert item.2⟩
  else none

/-- The targets of a sweep, rule by rule. -/
def feedTargets (analyzable : List Analyzable) : List (Analyzable × Coord) :=
  analyzable.flatMap fun a => (coordWalk a.targetDims).map fun target => (a, target)

/-- The stored leaves are potent, and none is fed. -/
def Feeding.seed (cube : Cube) : Feeding where
  index := ∅
  potent := Std.ExtTreeSet.ofList (cube.cellEntries.map Prod.fst) Ord.compare

/-- The targets that are not fed yet. -/
def unfed (items : List (Analyzable × Coord)) (st : Feeding) : Nat :=
  items.countP fun item => !st.index.contains item.2

section Sweeps

variable {cube : Cube} {model : CompiledModel} {areas : List CompiledArea}
  {items : List (Analyzable × Coord)} {st st' : Feeding} {item : Analyzable × Coord}

/-- What feeding a target comes to. -/
theorem feed_eq_some : feed cube model areas st item = some st' ↔ item.2 ∉ st.index ∧
    (item.1.basePotent = true ∨
      ∃ cell ∈ item.1.inputs, inputPotent cube model areas cell item.2 st.potent = true) ∧
    st' = ⟨st.index.insert item.2, st.potent.insert item.2⟩ := by
  unfold feed
  simp only [Std.ExtTreeSet.contains_iff_mem, Bool.or_eq_true, List.any_eq_true]
  split_ifs with hfed hpotent
  · exact iff_of_false (by simp) fun h => h.1 hfed
  · rw [Option.some.injEq, eq_comm]
    exact ⟨fun h => ⟨hfed, hpotent, h⟩, fun h => h.2.2⟩
  · exact iff_of_false (by simp) fun h => hpotent h.2.1

/-- Each target that is fed leaves fewer to feed. -/
theorem unfed_lt (hmem : item ∈ items) (h : feed cube model areas st item = some st') :
    unfed items st' < unfed items st := by
  obtain ⟨hnot, -, rfl⟩ := feed_eq_some.1 h
  have hle : ∀ l : List (Analyzable × Coord),
      (l.countP fun x => !(st.index.insert item.2).contains x.2) ≤
        l.countP fun x => !st.index.contains x.2 := by
    refine fun l => List.countP_mono_left fun x _ hx => ?_
    rw [Std.ExtTreeSet.contains_insert] at hx
    simp only [Bool.not_or, Bool.and_eq_true] at hx
    exact hx.2
  obtain ⟨before, after, rfl⟩ := List.append_of_mem hmem
  have hself : (st.index.insert item.2).contains item.2 = true := by
    rw [Std.ExtTreeSet.contains_iff_mem]
    exact Std.ExtTreeSet.mem_insert_self
  have hout : st.index.contains item.2 = false := by
    rw [← Bool.not_eq_true, Std.ExtTreeSet.contains_iff_mem]
    exact hnot
  have hbefore := hle before
  have hafter := hle after
  unfold unfed
  simp only [List.countP_append, List.countP_cons, hself, hout, Bool.not_true, Bool.not_false,
    Bool.false_eq_true, if_false, if_true]
  omega

theorem saturate_feed_isSome (cube : Cube) (model : CompiledModel) (areas : List CompiledArea)
    (items : List (Analyzable × Coord)) (st : Feeding) :
    (Saturate.saturate (feed cube model areas) items (items.length + 1) st).isSome := by
  refine Saturate.saturate_isSome (I := fun _ => True) (μ := unfed items) (fun _ _ _ _ _ _ => trivial)
    (fun s i s' hi _ h => unfed_lt hi h) trivial ?_
  have hcount : unfed items st ≤ items.length := List.countP_le_length
  omega

end Sweeps

/-- Infer the feeders of a cube's rules. -/
def inferFeeders (cube : Cube) (model : CompiledModel) (targetOrdinal : Nat) : FeederInference :=
  let unlocalized := unlocalizedRules cube targetOrdinal model
  let opaqueAreas := unlocalized.map fun x => x.1.area
  let items := feedTargets (analyzableRules cube targetOrdinal model)
  let fed := (Saturate.saturate (feed cube model opaqueAreas) items (items.length + 1)
    (Feeding.seed cube)).get (saturate_feed_isSome _ _ _ _ _)
  { index := ⟨fed.index⟩
    opaqueRules := unlocalized.map fun x =>
      ⟨x.2, "only cross-cube inputs; feeders cannot be localized"⟩ }

/-! ## The closure -/

section Closure

variable (cube : Cube) (model : CompiledModel) (ordinal : Nat)

/-- The stored leaves. -/
def Stored : Set Coord := {a | a ∈ cube.cellEntries.map Prod.fst}

/-- The areas of the rules that only read other cubes. -/
def opaqueAreas : List CompiledArea :=
  (unlocalizedRules cube ordinal model).map fun x => x.1.area

/-- An input has leaves under each of its components, and it is potent: a rule
overrides it, its leaves are too many to look at, or one of them is potent. -/
structure InputPotent (cell : CCell) (target : Coord) (P : Set Coord) : Prop where
  length : cell.addr.length = target.length
  potent : ∃ perDim, inputLeaves cube (elementCoord cell target) = some perDim ∧
    ((((elementCoord cell target).zipIdx.any fun x =>
        ((cube.dimension x.2).kindAt x.1).any fun k => !k.isLeaf) = true ∧
        (model.matchingRule cube (elementCoord cell target)).isSome) ∨
      (∀ total, checkedProduct perDim = some total → inputExpansionCap < total) ∨
      ∃ a ∈ perDim.sections, a ∈ P ∨ ∃ area ∈ opaqueAreas cube model ordinal,
        area.matches cube a = true)

/-- A target is to be fed, by the leaves that are. -/
def Feeds (item : Analyzable × Coord) (F : Set Coord) : Prop :=
  item.1.basePotent = true ∨
    ∃ cell ∈ item.1.inputs, InputPotent cube model ordinal cell item.2 (Stored cube ∪ F)

/-- A set of leaves that no target is missing from. -/
def FeedClosed (F : Set Coord) : Prop :=
  ∀ item ∈ feedTargets (analyzableRules cube ordinal model),
    Feeds cube model ordinal item F → item.2 ∈ F

variable {cube model ordinal}

theorem cartesianAny_eq_true {perDim : List (List Nat)} {pred : Coord → Bool} :
    cartesianAny perDim pred = true ↔ ∃ a ∈ perDim.sections, pred a = true := by
  unfold cartesianAny
  rw [← Sections.map_choice_range, List.any_eq_true]
  simp only [List.mem_map, exists_exists_and_eq_and]

theorem inputPotent_iff {cell : CCell} {target : Coord} {potent : CoordSet} :
    inputPotent cube model (opaqueAreas cube model ordinal) cell target potent = true ↔
      InputPotent cube model ordinal cell target {a | a ∈ potent} := by
  unfold inputPotent
  by_cases hlen : cell.addr.length = target.length
  · rw [if_neg (not_not.2 hlen)]
    dsimp only
    rcases hleaves : inputLeaves cube (elementCoord cell target) with _ | perDim
    · refine iff_of_false Bool.false_ne_true fun h => ?_
      obtain ⟨perDim, hsome, -⟩ := h.potent
      rw [hleaves] at hsome
      cases hsome
    · have hpred : cartesianAny perDim (fun a => potent.contains a ||
          (opaqueAreas cube model ordinal).any fun area => area.matches cube a) = true ↔
          ∃ a ∈ perDim.sections, a ∈ {a | a ∈ potent} ∨
            ∃ area ∈ opaqueAreas cube model ordinal, area.matches cube a = true := by
        simp only [cartesianAny_eq_true, Bool.or_eq_true, Std.ExtTreeSet.contains_iff_mem,
          List.any_eq_true, Set.mem_ofPred_eq]
      have hpotent : InputPotent cube model ordinal cell target {a | a ∈ potent} ↔ _ :=
        ⟨fun h => h.potent, fun h => ⟨hlen, h⟩⟩
      simp only [hpotent, hleaves, Option.some.injEq, exists_eq_left', ← hpred]
      split_ifs with hover
      · rw [Bool.and_eq_true] at hover
        exact iff_of_true rfl (.inl hover)
      · rw [Bool.and_eq_true] at hover
        rw [or_iff_right hover]
        rcases hcount : checkedProduct perDim with _ | total
        · exact iff_of_true rfl (.inl fun total htotal => by cases htotal)
        · dsimp only
          split_ifs with hcap
          · refine (or_iff_right fun hlt => ?_).symm
            have := hlt total rfl
            omega
          · refine iff_of_true rfl (.inl fun other hother => ?_)
            obtain rfl := Option.some.inj hother
            omega
  · rw [if_pos hlen]
    exact iff_of_false Bool.false_ne_true fun h => hlen h.length

/-- More potent leaves, more potent inputs. -/
theorem InputPotent.mono {cell : CCell} {target : Coord} {P Q : Set Coord} (hPQ : P ⊆ Q)
    (h : InputPotent cube model ordinal cell target P) :
    InputPotent cube model ordinal cell target Q := by
  obtain ⟨hlen, perDim, hleaves, hcases⟩ := h
  refine ⟨hlen, perDim, hleaves, hcases.imp_right (Or.imp_right ?_)⟩
  rintro ⟨a, ha, hwhy⟩
  exact ⟨a, ha, hwhy.imp_left fun hP => hPQ hP⟩

theorem Feeds.mono {item : Analyzable × Coord} {F G : Set Coord} (hFG : F ⊆ G)
    (h : Feeds cube model ordinal item F) : Feeds cube model ordinal item G := by
  refine h.imp_right ?_
  rintro ⟨cell, hcell, hpotent⟩
  exact ⟨cell, hcell, hpotent.mono (Set.union_subset_union_right _ hFG)⟩

/-- What every sweep keeps: the potent leaves are the stored ones and those
that are fed, and each that is fed belongs to every closed set. -/
structure Feeding.Sound (cube : Cube) (model : CompiledModel) (ordinal : Nat) (st : Feeding) :
    Prop where
  potent : {a | a ∈ st.potent} = Stored cube ∪ {a | a ∈ st.index}
  least : ∀ F, FeedClosed cube model ordinal F → {a | a ∈ st.index} ⊆ F

theorem Feeding.Sound.seed : (Feeding.seed cube).Sound cube model ordinal := by
  constructor
  · ext a
    simp [Feeding.seed, Stored]
  · intro F _ a ha
    exact absurd ha Std.ExtTreeSet.not_mem_empty

theorem feeds_iff {st : Feeding} (hst : st.Sound cube model ordinal)
    (item : Analyzable × Coord) :
    (item.1.basePotent = true ∨ ∃ cell ∈ item.1.inputs,
      inputPotent cube model (opaqueAreas cube model ordinal) cell item.2 st.potent = true) ↔
        Feeds cube model ordinal item {a | a ∈ st.index} := by
  unfold Feeds
  simp only [inputPotent_iff, hst.potent]

theorem Feeding.Sound.feed {st st' : Feeding} {item : Analyzable × Coord}
    (hitem : item ∈ feedTargets (analyzableRules cube ordinal model))
    (hst : st.Sound cube model ordinal)
    (h : feed cube model (opaqueAreas cube model ordinal) st item = some st') :
    st'.Sound cube model ordinal := by
  obtain ⟨-, hfeeds, rfl⟩ := feed_eq_some.1 h
  rw [feeds_iff hst] at hfeeds
  have hinsert : ∀ (s : CoordSet) (a : Coord),
      {b | b ∈ s.insert a} = insert a {b | b ∈ s} := by
    intro s a
    ext b
    show b ∈ s.insert a ↔ b = a ∨ b ∈ s
    rw [Std.ExtTreeSet.mem_insert, Std.compare_eq_iff_eq, eq_comm]
  constructor
  · rw [hinsert, hinsert, hst.potent, Set.union_insert]
  · intro F hF
    rw [hinsert]
    have hleast := hst.least F hF
    exact Set.insert_subset (hF item hitem (hfeeds.mono hleast)) hleast

/-- The last sweep has found nothing to feed. -/
theorem inferFeeders_spec (cube : Cube) (model : CompiledModel) (ordinal : Nat) :
    ∃ st : Feeding, (inferFeeders cube model ordinal).index.coords = st.index ∧
      st.Sound cube model ordinal ∧
      ∀ item ∈ feedTargets (analyzableRules cube ordinal model),
        feed cube model (opaqueAreas cube model ordinal) st item = none := by
  obtain ⟨st, hst⟩ := Option.isSome_iff_exists.1 (saturate_feed_isSome cube model
    (opaqueAreas cube model ordinal) (feedTargets (analyzableRules cube ordinal model))
    (Feeding.seed cube))
  refine ⟨st, ?_, Saturate.saturate_eq_some
    (I := fun st => st.Sound cube model ordinal) (fun s i s' hi hs h => hs.feed hi h) hst
    Feeding.Sound.seed⟩
  unfold inferFeeders
  exact congrArg Feeding.index (Option.get_of_eq_some _ hst)

theorem feedClosed_inferFeeders (cube : Cube) (model : CompiledModel) (ordinal : Nat) :
    FeedClosed cube model ordinal {a | a ∈ (inferFeeders cube model ordinal).index.coords} := by
  obtain ⟨st, hindex, hsound, hrefused⟩ := inferFeeders_spec cube model ordinal
  rw [hindex]
  intro item hitem hfeeds
  -- a target that is to be fed and is not would have been fed by the last sweep
  by_contra hnot
  have hnone := hrefused item hitem
  rw [feed_eq_some.2 ⟨hnot, (feeds_iff hsound item).2 hfeeds, rfl⟩] at hnone
  cases hnone

theorem inferFeeders_subset (cube : Cube) (model : CompiledModel) (ordinal : Nat) {F : Set Coord}
    (hF : FeedClosed cube model ordinal F) :
    {a | a ∈ (inferFeeders cube model ordinal).index.coords} ⊆ F := by
  obtain ⟨st, hindex, hsound, -⟩ := inferFeeders_spec cube model ordinal
  rw [hindex]
  exact hsound.least F hF

/-- **Inference feeds the least closed set of leaves.** -/
theorem inferFeeders_isLeast (cube : Cube) (model : CompiledModel) (ordinal : Nat) :
    IsLeast {F | FeedClosed cube model ordinal F}
      {a | a ∈ (inferFeeders cube model ordinal).index.coords} :=
  ⟨feedClosed_inferFeeders cube model ordinal,
    fun _ hF => inferFeeders_subset cube model ordinal hF⟩

end Closure

end Calc

end Epiphany
