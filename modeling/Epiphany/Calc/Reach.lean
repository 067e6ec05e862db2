import Epiphany.Calc.Eval
/-!
# Reach — the cells an evaluation may ask for

A rule addresses a cell by pinned indices and by components of its target,
and a consolidation by leaves of its cube. So the cells that an evaluation
asks for, at any depth, have components, ordinals and lengths below a bound
of the model set and the cell it started from (`closed_box`): there are
finitely many, and nesting past their number is enough.
-/

namespace Epiphany

namespace Calc

open Demand

/-! ## What a model set mentions -/

def CCell.mentions (cell : CCell) : List Nat :=
  cell.cube :: cell.addr.length :: cell.addr.map fun slot =>
    match slot with
    | .pinned idx => idx
    | .fromTarget _ => 0

mutual

def CExpr.mentions : CExpr → List Nat
  | .num _ => []
  | .cell cell => cell.mentions
  | .attrNum _ _ => []
  | .undef => []
  | .neg e => e.mentions
  | .bin _ left right => left.mentions ++ right.mentions
  | .ifThen cond then_ => cond.mentions ++ then_.mentions
  | .ifElse cond then_ otherwise => cond.mentions ++ then_.mentions ++ otherwise.mentions

def CCond.mentions : CCond → List Nat
  | .and a b => a.mentions ++ b.mentions
  | .or a b => a.mentions ++ b.mentions
  | .not c => c.mentions
  | .compare left _ right => left.mentions ++ right.mentions

end

def Entry.mentions (x : Entry) : List Nat :=
  x.cube.dimensions.length :: x.cube.dimensions.map (fun d => d.elements.length) ++
    ((x.compiled.map CompiledModel.rules).getD []).flatMap (fun r => r.expr.mentions) ++
    (x.fedSet.getD []).flatMap fun c => c.length :: c

def EvalRegistry.mentions (reg : EvalRegistry) : List Nat :=
  ((List.range reg.size).filterMap reg.entry).flatMap Entry.mentions

theorem EvalRegistry.mentions_of_entry {reg : EvalRegistry} {o : Nat} {x : Entry}
    (h : reg.entry o = some x) {n : Nat} (hn : n ∈ x.mentions) : n ∈ reg.mentions := by
  refine List.mem_flatMap.2 ⟨x, List.mem_filterMap.2 ⟨o, List.mem_range.2 ?_, h⟩, hn⟩
  by_contra hlt
  rw [reg.bounded o (Nat.not_lt.1 hlt)] at h
  cases h

/-! ## The box of cells below a bound -/

/-- The cells with ordinal, length and components below a bound. -/
structure InBox (B : Nat) (k : Cell) : Prop where
  ordinal : k.ordinal < B
  length : k.coord.length < B
  component : ∀ i ∈ k.coord, i < B

/-- The box, as a finite set. -/
def box (B : Nat) : Finset Cell :=
  (Finset.range B).biUnion fun o => (Finset.range B).biUnion fun l =>
    (Finset.univ : Finset (Fin l → Fin B)).image fun c => ⟨o, List.ofFn fun i => (c i).val⟩

theorem mem_box {B : Nat} {k : Cell} (h : InBox B k) : k ∈ box B := by
  obtain ⟨o, coord⟩ := k
  obtain ⟨ho, hl, hc⟩ := h
  simp only [box, Finset.mem_biUnion, Finset.mem_range, Finset.mem_image, Finset.mem_univ, true_and]
  refine ⟨o, ho, coord.length, hl, fun i => ⟨coord[i], hc _ (List.getElem_mem i.isLt)⟩, ?_⟩
  simp

theorem inBox_of_mem {B : Nat} {k : Cell} (h : k ∈ box B) : InBox B k := by
  simp only [box, Finset.mem_biUnion, Finset.mem_range, Finset.mem_image, Finset.mem_univ,
    true_and] at h
  obtain ⟨o, ho, l, hl, c, rfl⟩ := h
  refine ⟨ho, by simpa using hl, fun i hi => ?_⟩
  obtain ⟨j, rfl⟩ := List.mem_ofFn.1 hi
  exact (c j).isLt

theorem card_box (B : Nat) : (box B).card ≤ B * (B * B ^ B) := by
  have hlen : ∀ l ∈ Finset.range B, ∀ o,
      ((Finset.univ : Finset (Fin l → Fin B)).image fun c =>
        (⟨o, List.ofFn fun i => (c i).val⟩ : Cell)).card ≤ B ^ B := by
    intro l hl o
    refine Finset.card_image_le.trans ?_
    rw [Finset.card_univ, Fintype.card_fun, Fintype.card_fin, Fintype.card_fin]
    have hlB := Finset.mem_range.1 hl
    exact Nat.pow_le_pow_right (by omega) (by omega)
  have hrow : ∀ o ∈ Finset.range B, ((Finset.range B).biUnion fun l =>
      (Finset.univ : Finset (Fin l → Fin B)).image fun c =>
        (⟨o, List.ofFn fun i => (c i).val⟩ : Cell)).card ≤ B * B ^ B := by
    intro o _
    refine Finset.card_biUnion_le_card_mul _ _ _ (fun l hl => hlen l hl o) |>.trans ?_
    rw [Finset.card_range]
  refine Finset.card_biUnion_le_card_mul _ _ _ hrow |>.trans ?_
  rw [Finset.card_range]

/-! ## Consolidations ask for leaves -/

/-- Past the checks, the dense walk. -/
theorem consolidateWith_eq {c : Cube} {coord : Coord} (h : InRange c.dimensions coord)
    (hleaf : c.allNumericLeaf coord = false) (f : Coord → Eval Fixed) :
    Cube.consolidateWith liftModel c coord f =
      match Cube.comboCount (c.leafLists coord) with
      | none => fail (.model .overflow)
      | some total =>
        if total = 0 then pure Fixed.zero
        else
          (List.range total).foldlM
            (fun acc n => Cube.addCombo f acc (Sections.choice (c.leafLists coord) n)) 0 >>=
            fun acc => liftModel (Cube.narrow acc) := by
  simp only [Cube.consolidateWith, Cube.checkCoord_ok h, hleaf, Cube.perDimension_eq h,
    liftModel_ok_bind, Bool.false_eq_true, if_false]
  rcases Cube.comboCount (c.leafLists coord) with _ | total <;> rfl

/-- Past the checks, the sparse walk. -/
theorem consolidateFed_eq {c : Cube} {coord : Coord} (h : InRange c.dimensions coord)
    (hleaf : c.allNumericLeaf coord = false) (fed : List Coord) (f : Coord → Eval Fixed) :
    Cube.consolidateFed liftModel c coord fed f =
      match Cube.comboCount (c.leafLists coord) with
      | none => fail (.model .overflow)
      | some total =>
        if total = 0 then pure Fixed.zero
        else
          (c.cellEntries.map Prod.fst).foldlM
            (Cube.addSeen ((c.leafLists coord).map FinMap.collect) f) ([], 0) >>= fun stored =>
          fed.foldlM (Cube.addSeen ((c.leafLists coord).map FinMap.collect) f) stored >>=
            fun visited => liftModel (Cube.narrow visited.2) := by
  simp only [Cube.consolidateFed, Cube.checkCoord_ok h, hleaf, Cube.perDimension_eq h,
    liftModel_ok_bind, Bool.false_eq_true, if_false,
    Cube.comboCount_collect (Cube.nodup_leafLists h)]
  rcases Cube.comboCount (c.leafLists coord) with _ | total <;> rfl

/-- A rejected coordinate, or one of numeric leaves, has no walk. -/
theorem consolidate_or {c : Cube} (coord : Coord) :
    (∃ err, c.checkCoord coord = .error err) ∨
      (NumericCoord c.dimensions coord ∧ c.checkCoord coord = .ok () ∧
        c.allNumericLeaf coord = true) ∨
      (InRange c.dimensions coord ∧ c.allNumericLeaf coord = false) := by
  rcases hcheck : c.checkCoord coord with err | ⟨⟩
  · exact .inl ⟨err, rfl⟩
  have h := Cube.checkCoord_eq_ok.1 hcheck
  cases hleaf : c.allNumericLeaf coord with
  | true => exact .inr (.inl ⟨(Cube.allNumericLeaf_eq_true h).1 hleaf, rfl, rfl⟩)
  | false => exact .inr (.inr ⟨h, rfl⟩)

theorem within_consolidateWith {c : Cube} {coord : Coord} {S : Set Cell} {f : Coord → Eval Fixed}
    (hf : ∀ a, NumericCoord c.dimensions a → (f a).Within S) :
    (Cube.consolidateWith liftModel c coord f).Within S := by
  rcases consolidate_or (c := c) coord with ⟨err, hcheck⟩ | ⟨hnum, hcheck, hleaf⟩ | ⟨h, hleaf⟩
  · simp only [Cube.consolidateWith, hcheck]
    trivial
  · simp only [Cube.consolidateWith, hcheck, hleaf, if_true]
    exact hf coord hnum
  rw [consolidateWith_eq h hleaf]
  rcases hcount : Cube.comboCount (c.leafLists coord) with _ | total
  · trivial
  have htotal : total = ((c.leafLists coord).map List.length).prod := by
    rw [Cube.comboCount_eq] at hcount
    split_ifs at hcount
    exact (Option.some.inj hcount).symm
  show Task.Within S (if total = 0 then _ else _)
  split_ifs
  · trivial
  refine Task.within_bind (Task.within_foldlM (fun n hn acc => ?_) _) fun _ => trivial
  refine Task.within_bind (hf _ (Cube.numericCoord_keys h ?_)) fun _ => trivial
  rw [← Sections.map_choice_range, ← htotal]
  exact List.mem_map_of_mem hn

theorem within_addSeen {S : Set Cell} {weights : List (FinMap Nat Int)} {f : Coord → Eval Fixed}
    {cell : Coord} (hf : (f cell).Within S) (st : List Coord × I128) :
    (Cube.addSeen weights f st cell).Within S := by
  rw [Cube.addSeen]
  split
  · trivial
  · split_ifs
    · trivial
    · exact Task.within_bind hf fun _ => trivial

theorem within_consolidateFed {c : Cube} (hc : c.WF) {coord : Coord} {fed : List Coord}
    {S : Set Cell} {f : Coord → Eval Fixed}
    (hf : ∀ a, NumericCoord c.dimensions a → (f a).Within S)
    (hfed : ∀ a ∈ fed, (f a).Within S) :
    (Cube.consolidateFed liftModel c coord fed f).Within S := by
  rcases consolidate_or (c := c) coord with ⟨err, hcheck⟩ | ⟨hnum, hcheck, hleaf⟩ | ⟨h, hleaf⟩
  · simp only [Cube.consolidateFed, hcheck]
    trivial
  · simp only [Cube.consolidateFed, hcheck, hleaf, if_true]
    exact hf coord hnum
  rw [consolidateFed_eq h hleaf]
  rcases Cube.comboCount (c.leafLists coord) with _ | total
  · trivial
  show Task.Within S (if total = 0 then _ else _)
  split_ifs
  · trivial
  refine Task.within_bind (Task.within_foldlM (fun a ha st => ?_) _) fun st =>
    Task.within_bind (Task.within_foldlM (fun a ha st => within_addSeen (hfed a ha) st) _)
      fun _ => trivial
  obtain ⟨⟨a, v⟩, hmem, rfl⟩ := List.mem_map.1 ha
  obtain ⟨hin, hv⟩ := (Cube.mem_cellEntries hc).1 hmem
  exact within_addSeen (hf a (hc.numeric a v hin hv).2) st

/-! ## Rules ask for what they address -/

namespace CalcEngine

variable {e : CalcEngine} {B : Nat}

theorem inBox_address {cell : CCell} {target : Coord} (hcell : ∀ n ∈ cell.mentions, n < B)
    (htarget : ∀ i ∈ target, i < B) :
    InBox B ⟨cell.cube, address cell target⟩ := by
  have hcube : cell.cube < B := hcell _ List.mem_cons_self
  refine ⟨hcube, ?_, fun i hi => ?_⟩
  · show (address cell target).length < B
    rw [address, List.length_map]
    exact hcell _ (List.mem_cons_of_mem _ List.mem_cons_self)
  · obtain ⟨slot, hslot, rfl⟩ := List.mem_map.1 hi
    rcases slot with idx | pos
    · refine hcell _ (List.mem_cons_of_mem _ (List.mem_cons_of_mem _ ?_))
      exact List.mem_map.2 ⟨_, hslot, rfl⟩
    · show target.getD pos 0 < B
      rw [List.getD_eq_getElem?_getD]
      rcases hpos : target[pos]? with _ | i
      · exact lt_of_le_of_lt (Nat.zero_le _) hcube
      · exact htarget i (List.mem_of_getElem? hpos)

mutual

theorem within_evalExpr {ordinal : Nat} {target : Coord} (htarget : ∀ i ∈ target, i < B)
    (x : CExpr) (hx : ∀ n ∈ x.mentions, n < B) :
    (e.evalExpr ordinal target x).Within {k | InBox B k} := by
  cases x with
  | num f => trivial
  | undef => trivial
  | attrNum dimPos attr =>
    rw [evalExpr]
    split <;> trivial
  | cell cell =>
    rw [evalExpr, cellValue]
    exact Task.within_request (inBox_address hx htarget)
  | neg x =>
    rw [evalExpr]
    exact Task.within_bind (within_evalExpr htarget x hx) fun _ => trivial
  | bin op left right =>
    simp only [CExpr.mentions, List.mem_append, or_imp, forall_and] at hx
    rw [evalExpr]
    exact Task.within_bind (within_evalExpr htarget left hx.1) fun _ =>
      Task.within_bind (within_evalExpr htarget right hx.2) fun _ => trivial
  | ifThen cond then_ =>
    simp only [CExpr.mentions, List.mem_append, or_imp, forall_and] at hx
    rw [evalExpr]
    refine Task.within_bind (within_evalCond htarget cond hx.1) fun b => ?_
    split_ifs
    · exact within_evalExpr htarget then_ hx.2
    · trivial
  | ifElse cond then_ otherwise =>
    simp only [CExpr.mentions, List.mem_append, or_imp, forall_and] at hx
    rw [evalExpr]
    refine Task.within_bind (within_evalCond htarget cond hx.1.1) fun b => ?_
    split_ifs
    · exact within_evalExpr htarget then_ hx.1.2
    · exact within_evalExpr htarget otherwise hx.2

theorem within_evalCond {ordinal : Nat} {target : Coord} (htarget : ∀ i ∈ target, i < B)
    (x : CCond) (hx : ∀ n ∈ x.mentions, n < B) :
    (e.evalCond ordinal target x).Within {k | InBox B k} := by
  cases x with
  | and a b =>
    simp only [CCond.mentions, List.mem_append, or_imp, forall_and] at hx
    rw [evalCond]
    refine Task.within_bind (within_evalCond htarget a hx.1) fun v => ?_
    split_ifs
    · exact within_evalCond htarget b hx.2
    · trivial
  | or a b =>
    simp only [CCond.mentions, List.mem_append, or_imp, forall_and] at hx
    rw [evalCond]
    refine Task.within_bind (within_evalCond htarget a hx.1) fun v => ?_
    split_ifs
    · trivial
    · exact within_evalCond htarget b hx.2
  | not c =>
    rw [evalCond]
    exact Task.within_bind (within_evalCond htarget c hx) fun _ => trivial
  | compare left op right =>
    simp only [CCond.mentions, List.mem_append, or_imp, forall_and] at hx
    rw [evalCond]
    exact Task.within_bind (within_evalExpr htarget left hx.1) fun _ =>
      Task.within_bind (within_evalExpr htarget right hx.2) fun _ => trivial

end

/-! ## The bound of a read -/

variable (e) in
/-- A bound on what the registry mentions and on the cell read. -/
def bound (ordinal : Nat) (coord : Coord) : Nat :=
  (ordinal :: coord.length :: coord ++ e.registry.mentions).sum + 1

theorem lt_bound {ordinal : Nat} {coord : Coord} {n : Nat}
    (hn : n ∈ ordinal :: coord.length :: coord ++ e.registry.mentions) :
    n < e.bound ordinal coord :=
  Nat.lt_succ_of_le (List.single_le_sum (by simp) n hn)

theorem inBox_start (ordinal : Nat) (coord : Coord) :
    InBox (e.bound ordinal coord) ⟨ordinal, coord⟩ :=
  ⟨lt_bound (by simp), lt_bound (by simp), fun i hi => lt_bound (by simp [hi])⟩

theorem inBox_leaf {x : Entry} {o : Nat} (hx : e.registry.entry o = some x) (ho : o < B)
    (hB : ∀ n ∈ e.registry.mentions, n < B) {a : Coord}
    (ha : NumericCoord x.cube.dimensions a) : InBox B ⟨o, a⟩ := by
  have hin := ha.inRange
  refine ⟨ho, ?_, fun i hi => ?_⟩
  · rw [hin.length_eq]
    exact hB _ (EvalRegistry.mentions_of_entry hx (by simp [Entry.mentions]))
  · obtain ⟨k, hk⟩ := List.mem_iff_getElem?.1 hi
    have hlt : k < x.cube.dimensions.length :=
      hin.length_eq ▸ (List.getElem?_eq_some_iff.1 hk).1
    have hd := List.getElem?_eq_getElem hlt
    refine lt_trans ((forall₂_iff_getElem?.1 hin).2 k i _ hk hd) (hB _ ?_)
    refine EvalRegistry.mentions_of_entry hx ?_
    simp only [Entry.mentions, List.mem_cons, List.mem_append, List.mem_map]
    exact .inl (.inl (.inr ⟨_, List.getElem_mem hlt, rfl⟩))

theorem inBox_fed {x : Entry} {o : Nat} (hx : e.registry.entry o = some x) (ho : o < B)
    (hB : ∀ n ∈ e.registry.mentions, n < B) {fed : List Coord} (hfed : x.fedSet = some fed)
    {a : Coord} (ha : a ∈ fed) : InBox B ⟨o, a⟩ := by
  have hmem : ∀ n ∈ a.length :: a, n < B := by
    intro n hn
    refine hB n (EvalRegistry.mentions_of_entry hx ?_)
    simp only [Entry.mentions, List.mem_append, hfed, Option.getD_some]
    exact .inr (List.mem_flatMap.2 ⟨a, ha, hn⟩)
  exact ⟨ho, hmem _ List.mem_cons_self, fun i hi => hmem i (List.mem_cons_of_mem _ hi)⟩

theorem within_computeStored {x : Entry} {o : Nat} (hx : e.registry.entry o = some x) (ho : o < B)
    (hB : ∀ n ∈ e.registry.mentions, n < B) (coord : Coord) :
    (e.computeStored x o coord).Within {k | InBox B k} := by
  rw [computeStored]
  split_ifs
  · split
    · trivial
    · trivial
  · split
    · rename_i fed hfed
      have hset : x.fedSet = some fed := by
        rw [sparse] at hfed
        split_ifs at hfed
        exact hfed
      exact within_consolidateFed x.wf
        (fun a ha => Task.within_request (inBox_leaf hx ho hB ha))
        (fun a ha => Task.within_request (inBox_fed hx ho hB hset ha))
    · exact within_consolidateWith fun a ha => Task.within_request (inBox_leaf hx ho hB ha)

/-- **An evaluation stays in the box** of what the registry mentions. -/
theorem closed_box (hB : ∀ n ∈ e.registry.mentions, n < B) :
    e.system.Closed {k | InBox B k} := by
  rintro ⟨o, coord⟩ hk
  show (e.compute o coord).Within _
  rw [compute]
  split_ifs
  · trivial
  split
  · trivial
  rename_i x hx
  split
  · trivial
  split
  · rename_i rule hrule
    obtain ⟨cm, hcm, hfind⟩ := Option.bind_eq_some_iff.1 hrule
    refine within_evalExpr hk.component rule.expr fun n hn => hB n ?_
    refine EvalRegistry.mentions_of_entry hx ?_
    simp only [Entry.mentions, List.mem_append, hcm, Option.map_some, Option.getD_some]
    exact .inl (.inr (List.mem_flatMap.2 ⟨rule, List.mem_of_find?_eq_some hfind, hn⟩))
  · exact within_computeStored hx hk.ordinal hB coord

end CalcEngine

end Calc

end Epiphany
