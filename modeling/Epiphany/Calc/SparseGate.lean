import Epiphany.Calc.FeederSoundness
import Epiphany.Common.Transfer
/-!
# The sparse gate — consolidations over the stored and the fed leaves

A set of snapshots is first served by dense walks. Over these the gate of each
cube validates the leaves that inference feeds; where it finds none missing
and none failing, the consolidations of the cube walk the stored and the fed
leaves only. Each leaf that such a walk leaves out is worth zero, and none can
fail, so no read tells the two apart, whatever it finds
(`value_fromSnaps_eq`).
-/

namespace Epiphany

namespace Calc

open Demand Sections

/-! ## The gate -/

inductive FedGate where
  | safe (coords : List Coord)
  | dense (reason : String)
deriving DecidableEq

/-- Whether the consolidations of a cube may be sparse, and over which
leaves. -/
def safeFedSet (registry : EvalRegistry) (ordinal : Nat) : Except CalcError FedGate := do
  let x ← okOr (registry.entry ordinal) (.unknownCube ordinal)
  match x.compiled with
  | none => .ok (.dense "no-model")
  | some model =>
    if model.rules.isEmpty then .ok (.safe [])
    else
      let inference := inferFeeders x.cube model ordinal
      if !inference.opaqueRules.isEmpty then .ok (.dense "opaque-rules")
      else do
        let diag ← validateFeeders registry ordinal inference.index
        if !diag.underFed.isEmpty then .ok (.dense "under-fed")
        else if !diag.erroring.isEmpty then .ok (.dense "erroring")
        else .ok (.safe inference.index.coords.toList)

/-- The leaves that the gate admits, if it does. -/
def FedGate.admitted : Except CalcError FedGate → Option (List Coord)
  | .ok (.safe coords) => some coords
  | _ => none

theorem withFed_bounded (registry : EvalRegistry) (fed : Nat → Option (List Coord)) (o : Nat)
    (ho : registry.size ≤ o) :
    (registry.entry o).map (fun x => { x with fedSet := fed o }) = none := by
  rw [registry.bounded o ho, Option.map_none]

/-- The snapshots of a registry, with other fed leaves. -/
def EvalRegistry.withFed (registry : EvalRegistry) (fed : Nat → Option (List Coord)) :
    EvalRegistry where
  entry o := (registry.entry o).map fun x => { x with fedSet := fed o }
  size := registry.size
  bounded := withFed_bounded registry fed

namespace PinnedRegistry

/-- The snapshots as the gates see them: every walk is dense. -/
def dense (registry : EvalRegistry) : EvalRegistry := registry.withFed fun _ => none

/-- The snapshots with what their gates admit. -/
def fromSnaps (registry : EvalRegistry) : EvalRegistry :=
  registry.withFed fun o => FedGate.admitted (safeFedSet (dense registry) o)

end PinnedRegistry

/-! ## The two walks -/

section Walks

variable {weights : List (FinMap Nat Int)} {f : Coord → Eval Fixed}
  {answer : Cell → Option (Except CalcError Fixed)}

/-- A cell under the lists that a walk has not come to. -/
def Unseen (weights : List (FinMap Nat Int)) (seen : List Coord) (a : Coord) : Prop :=
  (Cube.cellWeight weights a 1).isSome ∧ a ∉ seen

open Classical in
/-- The cells under the lists that a walk comes to for the first time. -/
noncomputable def firstSeen (weights : List (FinMap Nat Int)) :
    List Coord → List Coord → List Coord
  | _, [] => []
  | seen, a :: cells =>
    if Unseen weights seen a then
      a :: firstSeen weights (a :: seen) cells
    else firstSeen weights seen cells

theorem firstSeen_of_new {seen cells : List Coord} {a : Coord}
    (h : Unseen weights seen a) :
    firstSeen weights seen (a :: cells) = a :: firstSeen weights (a :: seen) cells := if_pos h

theorem firstSeen_of_not {seen cells : List Coord} {a : Coord}
    (h : ¬ Unseen weights seen a) :
    firstSeen weights seen (a :: cells) = firstSeen weights seen cells := if_neg h

theorem mem_firstSeen {seen cells : List Coord} {b : Coord} : b ∈ firstSeen weights seen cells ↔
    b ∈ cells ∧ (Cube.cellWeight weights b 1).isSome ∧ b ∉ seen := by
  induction cells generalizing seen with
  | nil => simp [firstSeen]
  | cons a cells ih =>
    by_cases hfirst : Unseen weights seen a
    · rw [firstSeen_of_new hfirst, List.mem_cons, ih, List.mem_cons, List.mem_cons]
      constructor
      · rintro (rfl | ⟨hmem, hsome, hnot⟩)
        · exact ⟨.inl rfl, hfirst⟩
        · exact ⟨.inr hmem, hsome, fun hseen => hnot (.inr hseen)⟩
      · rintro ⟨hmem, hsome, hnot⟩
        by_cases hb : b = a
        · exact .inl hb
        · exact .inr ⟨hmem.resolve_left hb, hsome, not_or.2 ⟨hb, hnot⟩⟩
    · rw [firstSeen_of_not hfirst, ih, List.mem_cons]
      constructor
      · exact fun h => ⟨.inr h.1, h.2⟩
      · rintro ⟨rfl | hmem, hrest⟩
        · exact absurd hrest hfirst
        · exact ⟨hmem, hrest⟩

theorem nodup_firstSeen (seen cells : List Coord) : (firstSeen weights seen cells).Nodup := by
  induction cells generalizing seen with
  | nil => exact List.nodup_nil
  | cons a cells ih =>
    by_cases hfirst : Unseen weights seen a
    · rw [firstSeen_of_new hfirst]
      exact List.nodup_cons.2 ⟨fun h => (mem_firstSeen.1 h).2.2 List.mem_cons_self, ih _⟩
    · rw [firstSeen_of_not hfirst]
      exact ih _

theorem firstSeen_append (seen cells rest : List Coord) : firstSeen weights seen (cells ++ rest) =
    firstSeen weights seen cells ++
      firstSeen weights ((firstSeen weights seen cells).reverse ++ seen) rest := by
  induction cells generalizing seen with
  | nil => rfl
  | cons a cells ih =>
    rw [List.cons_append]
    by_cases hfirst : Unseen weights seen a
    · rw [firstSeen_of_new hfirst, firstSeen_of_new hfirst, ih, List.cons_append,
        List.reverse_cons, List.append_assoc]
      rfl
    · rw [firstSeen_of_not hfirst, firstSeen_of_not hfirst, ih]

theorem addSeen_of_not {seen : List Coord} {acc : I128} {a : Coord}
    (h : ¬ Unseen weights seen a) :
    Cube.addSeen weights f (seen, acc) a = .done (.ok (seen, acc)) := by
  unfold Cube.addSeen
  rcases hw : Cube.cellWeight weights a 1 with _ | w
  · rfl
  · have hseen : a ∈ seen := by
      by_contra hnot
      exact h ⟨by rw [hw]; rfl, hnot⟩
    exact if_pos hseen

theorem run_addSeen_of_new {seen : List Coord} {acc : I128} {a : Coord} {v : Fixed}
    (h : Unseen weights seen a)
    (hv : (f a).run answer = some (.ok v)) :
    (Cube.addSeen weights f (seen, acc) a).run answer =
      some (.ok (a :: seen, acc + (Cube.cellWeight weights a 1).getD 0 * v.toI128)) := by
  unfold Cube.addSeen
  obtain ⟨w, hw⟩ := Option.isSome_iff_exists.1 h.1
  rw [hw]
  dsimp only
  rw [if_neg h.2, Task.run_bind_of_ok hv]
  rfl

/-- The sparse walk adds each cell once. -/
theorem run_addSeen {value : Coord → Fixed} {cells seen : List Coord} {acc : I128}
    (h : ∀ a ∈ cells, (Cube.cellWeight weights a 1).isSome →
      (f a).run answer = some (.ok (value a))) :
    (cells.foldlM (Cube.addSeen weights f) (seen, acc)).run answer =
      some (.ok ((firstSeen weights seen cells).reverse ++ seen,
        acc + ((firstSeen weights seen cells).map fun a =>
          (Cube.cellWeight weights a 1).getD 0 * (value a).toI128).sum)) := by
  induction cells generalizing seen acc with
  | nil => simp [firstSeen]
  | cons a cells ih =>
    have hrest := fun b (hb : b ∈ cells) => h b (List.mem_cons_of_mem _ hb)
    rw [List.foldlM_cons]
    by_cases hfirst : Unseen weights seen a
    · rw [Task.run_bind_of_ok (run_addSeen_of_new hfirst (h a List.mem_cons_self hfirst.1)),
        ih hrest, firstSeen_of_new hfirst, List.reverse_cons, List.append_assoc, List.map_cons,
        List.sum_cons, add_assoc]
      rfl
    · rw [addSeen_of_not hfirst, Task.done_ok_bind, ih hrest, firstSeen_of_not hfirst]

/-- The dense walk adds each combination. -/
theorem run_addCombo {value : Coord → Fixed} {combos : List (List (Nat × Int))} {acc : I128}
    (h : ∀ s ∈ combos, (f (s.map Prod.fst)).run answer = some (.ok (value (s.map Prod.fst)))) :
    (combos.foldlM (Cube.addCombo f) acc).run answer =
      some (.ok (acc + ((combos.map Cube.wide).map fun s =>
        weight s * (value (keys s)).toI128).sum)) := by
  induction combos generalizing acc with
  | nil => simp
  | cons s combos ih =>
    have hkeys : keys (Cube.wide s) = s.map Prod.fst := by simp [keys, Cube.wide, Function.comp_def]
    have hweight : weight (Cube.wide s) = (s.map fun e => BitVec.ofInt 128 e.2).prod := by
      simp [weight, Cube.wide, Function.comp_def]
    have hstep : (Cube.addCombo f acc s).run answer =
        some (.ok (acc + weight (Cube.wide s) * (value (keys (Cube.wide s))).toI128)) := by
      unfold Cube.addCombo
      rw [Task.run_bind_of_ok (h s List.mem_cons_self), hkeys, hweight]
      rfl
    rw [List.foldlM_cons, Task.run_bind_of_ok hstep,
      ih fun s' hs' => h s' (List.mem_cons_of_mem _ hs'), List.map_cons, List.map_cons,
      List.sum_cons, add_assoc]

/-- A dense walk that comes to an end without a failure on the way has read
every combination. -/
theorem read_of_addCombo {combos : List (List (Nat × Int))} {acc : I128}
    {r : Except CalcError I128} (h : (combos.foldlM (Cube.addCombo f) acc).run answer = some r)
    (hok : (∃ acc', r = .ok acc') ∨
      ∀ s ∈ combos, ∀ err, (f (s.map Prod.fst)).run answer ≠ some (.error err)) :
    ∀ s ∈ combos, ∃ w, (f (s.map Prod.fst)).run answer = some (.ok w) := by
  induction combos generalizing acc with
  | nil => exact fun s hs => by cases hs
  | cons s combos ih =>
    rw [List.foldlM_cons] at h
    rcases hs : (f (s.map Prod.fst)).run answer with _ | err | w
    · have hnone : (Cube.addCombo f acc s).run answer = none := by
        unfold Cube.addCombo
        rw [Task.run_bind, hs]
      rw [Task.run_bind, hnone] at h
      cases h
    · have herror : (Cube.addCombo f acc s).run answer = some (.error err) := by
        unfold Cube.addCombo
        rw [Task.run_bind, hs]
      rw [Task.run_bind, herror] at h
      rcases hok with ⟨acc', rfl⟩ | hnot
      · cases h
      · exact absurd hs (hnot s List.mem_cons_self err)
    · have hstep : (Cube.addCombo f acc s).run answer = some (.ok
          (acc + (s.map fun e => BitVec.ofInt 128 e.2).prod * w.toI128)) := by
        unfold Cube.addCombo
        rw [Task.run_bind_of_ok hs]
        rfl
      rw [Task.run_bind_of_ok hstep] at h
      intro s' hs'
      rcases List.mem_cons.1 hs' with rfl | hs'
      · exact ⟨w, hs⟩
      · exact ih h (hok.imp_right fun hnot t ht => hnot t (List.mem_cons_of_mem _ ht)) s' hs'

end Walks

/-- A dense consolidation over leaves that can be counted, if it finds a value
or meets no failure, has read every leaf. -/
theorem read_of_consolidateWith {c : Cube} {coord : Coord} (hin : InRange c.dimensions coord)
    (hleaf : c.allNumericLeaf coord = false) {f : Coord → Eval Fixed}
    {answer : Cell → Option (Except CalcError Fixed)} {r : Except CalcError Fixed}
    (h : (Cube.consolidateWith liftModel c coord f).run answer = some r)
    (hok : (∃ v, r = .ok v) ∨ (Cube.comboCount (c.leafLists coord) ≠ none ∧
      ∀ s ∈ (c.leafLists coord).sections, ∀ err,
        (f (s.map Prod.fst)).run answer ≠ some (.error err))) :
    ∀ s ∈ (c.leafLists coord).sections, ∃ w, (f (s.map Prod.fst)).run answer = some (.ok w) := by
  rw [consolidateWith_eq hin hleaf] at h
  rcases hcount : Cube.comboCount (c.leafLists coord) with _ | total
  · rw [hcount] at h
    rcases hok with ⟨v, rfl⟩ | ⟨hsome, -⟩
    · cases h
    · exact absurd hcount hsome
  rw [hcount] at h
  dsimp only at h
  have htotal : total = ((c.leafLists coord).map List.length).prod := by
    rw [Cube.comboCount_eq] at hcount
    split_ifs at hcount
    exact (Option.some.inj hcount).symm
  intro s hs
  have hs' := hs
  rw [← map_choice_range, ← htotal] at hs'
  have h0 : total ≠ 0 := by
    rintro rfl
    cases hs'
  rw [if_neg h0, ← List.foldlM_map, htotal, map_choice_range] at h
  rcases hfold : ((c.leafLists coord).sections.foldlM (Cube.addCombo f) 0).run answer with
    _ | sum
  · rw [Task.run_bind, hfold] at h
    cases h
  refine read_of_addCombo hfold ?_ s hs
  rcases hok with ⟨v, rfl⟩ | ⟨-, hnot⟩
  · obtain ⟨acc, hacc, -⟩ := Task.run_bind_eq_ok.1 h
    rw [hfold] at hacc
    exact .inl ⟨acc, Option.some.inj hacc⟩
  · exact .inr hnot

/-- A cell lies under lists when each component is in its list. -/
theorem cellWeight_isSome {perDim : List (List (Nat × Int))} {cell : Coord}
    (hlists : ∀ l ∈ perDim, (l.map Prod.fst).Nodup) (hlen : cell.length = perDim.length)
    (weight : I128) : (Cube.cellWeight (perDim.map FinMap.collect) cell weight).isSome ↔
      cell ∈ (perDim.map (List.map Prod.fst)).sections := by
  rw [List.mem_sections]
  induction perDim generalizing cell weight with
  | nil =>
    rw [List.length_eq_zero_iff.1 hlen]
    simp [Cube.cellWeight]
  | cons l perDim ih =>
    rcases cell with _ | ⟨i, cell⟩
    · simp at hlen
    · have hl := hlists l List.mem_cons_self
      have hrest := ih (fun l' hl' => hlists l' (List.mem_cons_of_mem _ hl')) (by simpa using hlen)
      have hget := fun w => FinMap.get_collect (FinMap.functional_of_nodup hl) (k := i) (v := w)
      rw [List.map_cons, List.map_cons, List.forall₂_cons]
      unfold Cube.cellWeight
      rcases hi : (FinMap.collect l)[i]? with _ | w
      · refine iff_of_false (by simp) fun h => ?_
        obtain ⟨⟨j, w⟩, hmem, rfl⟩ := List.mem_map.1 h.1
        rw [(hget w).2 hmem] at hi
        cases hi
      · have hmem : i ∈ l.map Prod.fst := List.mem_map.2 ⟨(i, w), (hget w).1 hi, rfl⟩
        rw [and_iff_right hmem]
        exact hrest _

/-- **A sparse walk is the dense one** where the leaves it leaves out are
zero. -/
theorem run_consolidateFed {c : Cube} (hc : c.WF) {coord : Coord}
    (hin : InRange c.dimensions coord) (hleaf : c.allNumericLeaf coord = false)
    {fed : List Coord} (hfed : ∀ a ∈ fed, a.length = c.rank) {f : Coord → Eval Fixed}
    {value : Coord → Fixed} {answer answer' : Cell → Option (Except CalcError Fixed)}
    (hdense : ∀ s ∈ (c.leafLists coord).sections,
      (f (s.map Prod.fst)).run answer = some (.ok (value (s.map Prod.fst))))
    (hsparse : ∀ s ∈ (c.leafLists coord).sections, s.map Prod.fst ∈ Stored c ∪ {a | a ∈ fed} →
      (f (s.map Prod.fst)).run answer' = some (.ok (value (s.map Prod.fst))))
    (hzero : ∀ s ∈ (c.leafLists coord).sections, s.map Prod.fst ∉ Stored c ∪ {a | a ∈ fed} →
      value (s.map Prod.fst) = Fixed.zero) :
    (Cube.consolidateFed liftModel c coord fed f).run answer' =
      (Cube.consolidateWith liftModel c coord f).run answer := by
  have hlists := Cube.nodup_leafLists hin
  have hlength : ∀ a ∈ c.cellEntries.map Prod.fst ++ fed,
      a.length = (c.leafLists coord).length := by
    intro a ha
    rw [Cube.length_leafLists hin]
    rcases List.mem_append.1 ha with hstored | ha
    · obtain ⟨⟨a, v⟩, hmem, rfl⟩ := List.mem_map.1 hstored
      exact ((Cube.mem_cellEntries hc).1 hmem).1.length_eq
    · exact hfed a ha
  -- the cells under the lists are the combinations
  have hunder : ∀ a ∈ c.cellEntries.map Prod.fst ++ fed,
      ((Cube.cellWeight ((c.leafLists coord).map FinMap.collect) a 1).isSome ↔
        ∃ s ∈ (c.leafLists coord).sections, s.map Prod.fst = a) := by
    intro a ha
    rw [cellWeight_isSome hlists (hlength a ha), sections_map, List.mem_map]
  have hread : ∀ a ∈ c.cellEntries.map Prod.fst ++ fed,
      (Cube.cellWeight ((c.leafLists coord).map FinMap.collect) a 1).isSome →
        (f a).run answer' = some (.ok (value a)) := by
    intro a ha hsome
    obtain ⟨s, hs, rfl⟩ := (hunder a ha).1 hsome
    exact hsparse s hs (List.mem_append.1 ha)
  rw [consolidateFed_eq hin hleaf, consolidateWith_eq hin hleaf]
  rcases hcount : Cube.comboCount (c.leafLists coord) with _ | total
  · rfl
  dsimp only
  by_cases h0 : total = 0
  · rw [if_pos h0, if_pos h0]
    rfl
  have htotal : total = ((c.leafLists coord).map List.length).prod := by
    rw [Cube.comboCount_eq] at hcount
    split_ifs at hcount
    exact (Option.some.inj hcount).symm
  have hwalk : (List.range total).foldlM
      (fun acc n => Cube.addCombo f acc (choice (c.leafLists coord) n)) 0 =
        (c.leafLists coord).sections.foldlM (Cube.addCombo f) 0 := by
    rw [← List.foldlM_map, htotal, map_choice_range]
  rw [if_neg h0, if_neg h0, hwalk, Task.run_bind_of_ok (run_addCombo hdense),
    Task.run_bind_of_ok (run_addSeen fun a ha => hread a (List.mem_append_left _ ha)),
    Task.run_bind_of_ok (run_addSeen fun a ha => hread a (List.mem_append_right _ ha))]
  -- both accumulators hold the sum over the cells that are visited
  have hnodup := @nodup_firstSeen ((c.leafLists coord).map FinMap.collect) []
    (c.cellEntries.map Prod.fst ++ fed)
  have hmem := fun b => @mem_firstSeen ((c.leafLists coord).map FinMap.collect) []
    (c.cellEntries.map Prod.fst ++ fed) b
  have happend := @firstSeen_append ((c.leafLists coord).map FinMap.collect) []
    (c.cellEntries.map Prod.fst) fed
  generalize hvisited : firstSeen ((c.leafLists coord).map FinMap.collect) []
    (c.cellEntries.map Prod.fst ++ fed) = visited at hnodup hmem happend
  have hrows : ((visited.map fun a => (a, (value a).toI128)).map Prod.fst).Nodup := by
    rw [List.map_map]
    simpa [Function.comp_def] using hnodup
  have hsum := sum_sections ((c.leafLists coord).map Cube.wide) (fun a => (value a).toI128) hrows
    (fun s _ v hv => by
      obtain ⟨a, -, heq⟩ := List.mem_map.1 hv
      obtain ⟨ha, rfl⟩ := Prod.mk.inj heq
      rw [ha])
    (fun s hs hns => by
      obtain ⟨t, ht, rfl⟩ := List.mem_map.1 ((sections_map _ _).symm ▸ hs)
      have hkeys : keys (Cube.wide t) = t.map Prod.fst := by
        simp [keys, Cube.wide, Function.comp_def]
      rw [show t.map (fun e => (e.1, BitVec.ofInt 128 e.2)) = Cube.wide t from rfl, hkeys] at hns ⊢
      rw [hzero t ht fun hin => hns ?_, Fixed.toI128_zero]
      rw [List.map_map]
      have hall := List.mem_append.2 hin
      exact List.mem_map.2 ⟨_, (hmem _).2 ⟨hall, (hunder _ hall).2 ⟨t, ht, rfl⟩,
        List.not_mem_nil⟩, rfl⟩)
  have hweights : ∀ a ∈ visited,
      (Cube.cellWeight ((c.leafLists coord).map FinMap.collect) a 1).getD 0 * (value a).toI128 =
        weightAt ((c.leafLists coord).map Cube.wide) a * (value a).toI128 := by
    intro a ha
    rw [Cube.cellWeight_eq hlists (hlength a ((hmem a).1 ha).1), one_mul]
  have hsparseSum : (visited.map fun a =>
      (Cube.cellWeight ((c.leafLists coord).map FinMap.collect) a 1).getD 0 *
        (value a).toI128).sum = ((((c.leafLists coord).sections.map Cube.wide).map fun s =>
          weight s * (value (keys s)).toI128)).sum := by
    rw [List.map_congr_left hweights]
    refine Eq.trans ?_ ((congrArg _ (congrArg _ (sections_map _ _).symm)).trans hsum).symm
    rw [List.map_map]
    rfl
  rw [happend] at hsparseSum
  rw [List.map_append, List.sum_append] at hsparseSum
  rw [← hsparseSum, zero_add, zero_add]
  rfl

/-! ## What the gate has seen -/

/-- What is fed is a target. -/
theorem length_of_fed {cube : Cube} {cm : CompiledModel} (hfits : cm.Fits cube) {ordinal : Nat}
    {a : Coord} (h : a ∈ (inferFeeders cube cm ordinal).index.coords) : a.length = cube.rank := by
  have hclosed : FeedClosed cube cm ordinal
      {a | ∃ item ∈ feedTargets (analyzableRules cube ordinal cm), item.2 = a} :=
    fun item hitem _ => ⟨item, hitem, rfl⟩
  obtain ⟨item, hitem, rfl⟩ := inferFeeders_subset cube cm ordinal hclosed h
  obtain ⟨an, han, hitem⟩ := List.mem_flatMap.1 hitem
  obtain ⟨target, htarget, rfl⟩ := List.mem_map.1 hitem
  obtain ⟨rule, hrule, hclass⟩ := List.mem_filterMap.1 han
  have hdims : an.targetDims = areaLeafDims cube rule.area := by
    unfold classify at hclass
    dsimp only at hclass
    split_ifs at hclass <;> simp only [Classified.analyzable?, Option.some.injEq] at hclass <;>
      first | cases hclass; rfl | cases hclass
  rw [hdims] at htarget
  exact ((targeted_iff (hfits rule hrule)).1 (mem_coordWalk.1 htarget)).1.1

section Gate

variable {registry : EvalRegistry} {ordinal : Nat} {x : Entry} {fed : List Coord}

/-- A gate that admits leaves has found no rules, or has validated what
inference feeds. -/
theorem safeFedSet_cases (hx : registry.entry ordinal = some x)
    (h : safeFedSet registry ordinal = .ok (.safe fed)) : ∃ cm, x.compiled = some cm ∧
      (cm.rules = [] ∧ fed = [] ∨
        ∃ diag, validateFeeders registry ordinal (inferFeeders x.cube cm ordinal).index = .ok diag ∧
          diag.underFed = [] ∧ diag.erroring = [] ∧
            fed = (inferFeeders x.cube cm ordinal).index.coords.toList) := by
  unfold safeFedSet at h
  rw [hx] at h
  simp only [okOr, bind, Except.bind] at h
  rcases hcm : x.compiled with _ | cm
  · rw [hcm] at h
    cases h
  · rw [hcm] at h
    dsimp only at h
    refine ⟨cm, rfl, ?_⟩
    split_ifs at h with hrules hopaque
    · obtain rfl := FedGate.safe.inj (Except.ok.inj h)
      exact .inl ⟨List.isEmpty_iff.1 hrules, rfl⟩
    · cases h
    · rcases hdiag : validateFeeders registry ordinal (inferFeeders x.cube cm ordinal).index
        with err | diag
      · rw [hdiag] at h
        cases h
      · rw [hdiag] at h
        dsimp only at h
        split_ifs at h with hunder herroring
        · cases h
        · cases h
        · obtain rfl := FedGate.safe.inj (Except.ok.inj h)
          refine .inr ⟨diag, rfl, ?_, ?_, rfl⟩
          · rw [Bool.not_eq_true, Bool.not_eq_false', List.isEmpty_iff] at hunder
            exact hunder
          · rw [Bool.not_eq_true, Bool.not_eq_false', List.isEmpty_iff] at herroring
            exact herroring

/-- What a gate that admits leaves says of the leaves of its cube: each has a
value, and one that is other than zero is stored or fed. -/
structure Complete (registry : EvalRegistry) (ordinal : Nat) (x : Entry) (fed : List Coord) :
    Prop where
  length : ∀ a ∈ fed, a.length = x.cube.rank
  value : x.compileError = none → ∀ a, NumericCoord x.cube.dimensions a →
    ∃ v, (CalcEngine.new registry).fresh ordinal a = .ok v ∧
      (a ∉ Stored x.cube ∪ {a | a ∈ fed} → v = Fixed.zero)

theorem complete_of_safe (hx : registry.entry ordinal = some x)
    (hfits : ∀ cm, x.compiled = some cm → cm.Fits x.cube)
    (h : safeFedSet registry ordinal = .ok (.safe fed)) : Complete registry ordinal x fed := by
  obtain ⟨cm, hcm, hcases⟩ := safeFedSet_cases hx h
  have hfit := hfits cm hcm
  constructor
  · intro a ha
    rcases hcases with ⟨-, rfl⟩ | ⟨diag, -, -, -, rfl⟩
    · cases ha
    · exact length_of_fed hfit (Std.ExtTreeSet.mem_toList.1 ha)
  · intro herror a hnum
    have hleaf := leafCoord_of_numeric hnum
    rcases hrule : cm.matchingRule x.cube a with _ | rule
    · -- no rule fires: the leaf reads as it is stored
      have hfresh := fresh_of_unmatched hx hcm hleaf hrule
      have hget := Cube.get_of_leaf hnum.inRange
        ((Cube.allNumericLeaf_eq_true hnum.inRange).2 hnum)
      rw [herror, hget] at hfresh
      refine ⟨x.cube.leafValue a, hfresh, fun hnot => ?_⟩
      by_contra hne
      exact hnot (.inl (stored_of_get x.wf hnum hget hne))
    · rcases hcases with ⟨hnil, -⟩ | ⟨diag, hdiag, hunder, herroring, rfl⟩
      · have hmem := List.mem_of_find?_eq_some hrule
        rw [hnil] at hmem
        cases hmem
      · obtain ⟨fires, hfires, htarget⟩ :=
          targeted_of_covered hfit ⟨hleaf, by rw [hrule]; rfl⟩
        rw [validateFeeders_eq hx hcm] at hdiag
        obtain rfl := Except.ok.inj hdiag
        dsimp only at hunder herroring
        have hfound := @mem_findings ordinal cm (inferFeeders x.cube cm ordinal).index
          (CalcEngine.new registry) x.cube a
        rcases hr : (CalcEngine.new registry).fresh ordinal a with err | v
        · have hlist := FinMap.mem_toList.2
            ((hfound.2.2 err.toString).2 ⟨.inl ⟨fires, hfires, htarget⟩, err, hr, rfl⟩)
          rw [herroring] at hlist
          cases hlist
        · refine ⟨v, rfl, fun hnot => ?_⟩
          by_contra hne
          have hlist := Std.ExtTreeSet.mem_toList.2 (hfound.1.2 ⟨⟨fires, hfires, htarget⟩,
            fun hfed => hnot (.inr (Std.ExtTreeSet.mem_toList.2 hfed)), v, hr, hne⟩)
          rw [hunder] at hlist
          cases hlist

end Gate

/-! ## The two registries -/

namespace CalcEngine

variable {e e' : CalcEngine}

mutual

/-- The formulas of two registries are the same tasks where the dimensions of
their cubes are the same. -/
theorem evalExpr_congr (h : ∀ o, (e'.registry.entry o).map (fun x => x.cube.dimensions) =
      (e.registry.entry o).map fun x => x.cube.dimensions) (ordinal : Nat) (target : Coord)
    (x : CExpr) : e'.evalExpr ordinal target x = e.evalExpr ordinal target x := by
  cases x with
  | num f => simp only [evalExpr]
  | undef => simp only [evalExpr]
  | attrNum dimPos attr =>
    have ho := h ordinal
    rw [evalExpr, evalExpr]
    rcases hx : e.registry.entry ordinal with _ | y
    · rw [hx, Option.map_none, Option.map_eq_none_iff] at ho
      rw [ho]
    · rw [hx, Option.map_some, Option.map_eq_some_iff] at ho
      obtain ⟨z, hz, hdims⟩ := ho
      rw [hz]
      simp only [attrNum_congr hdims]
  | cell cell => simp only [evalExpr]
  | neg x => simp only [evalExpr, evalExpr_congr h ordinal target x]
  | bin op left right =>
    simp only [evalExpr, evalExpr_congr h ordinal target left,
      evalExpr_congr h ordinal target right]
  | ifThen cond then_ =>
    simp only [evalExpr, evalCond_congr h ordinal target cond,
      evalExpr_congr h ordinal target then_]
  | ifElse cond then_ otherwise =>
    simp only [evalExpr, evalCond_congr h ordinal target cond,
      evalExpr_congr h ordinal target then_, evalExpr_congr h ordinal target otherwise]

theorem evalCond_congr (h : ∀ o, (e'.registry.entry o).map (fun x => x.cube.dimensions) =
      (e.registry.entry o).map fun x => x.cube.dimensions) (ordinal : Nat) (target : Coord)
    (x : CCond) : e'.evalCond ordinal target x = e.evalCond ordinal target x := by
  cases x with
  | and a b =>
    simp only [evalCond, evalCond_congr h ordinal target a, evalCond_congr h ordinal target b]
  | or a b =>
    simp only [evalCond, evalCond_congr h ordinal target a, evalCond_congr h ordinal target b]
  | not c => simp only [evalCond, evalCond_congr h ordinal target c]
  | compare left op right =>
    simp only [evalCond, evalExpr_congr h ordinal target left,
      evalExpr_congr h ordinal target right]

end

end CalcEngine

namespace PinnedRegistry

variable {registry : EvalRegistry}

theorem entry_dense {o : Nat} {y : Entry} (h : (dense registry).entry o = some y) :
    ∃ x, registry.entry o = some x ∧ y = { x with fedSet := none } := by
  obtain ⟨x, hx, rfl⟩ := Option.map_eq_some_iff.1 h
  exact ⟨x, hx, rfl⟩

theorem dimensions_fromSnaps (o : Nat) :
    ((fromSnaps registry).entry o).map (fun x => x.cube.dimensions) =
      ((dense registry).entry o).map fun x => x.cube.dimensions := by
  show ((registry.entry o).map _).map _ = ((registry.entry o).map _).map _
  rw [Option.map_map, Option.map_map]
  rfl

/-- **What the two registries compute differently**: a consolidation that no
rule covers, in a cube with a gate that admits leaves. -/
theorem compute_fromSnaps (ordinal : Nat) (coord : Coord) :
    (CalcEngine.new (fromSnaps registry)).compute ordinal coord =
        (CalcEngine.new (dense registry)).compute ordinal coord ∨
      ∃ x fed, (dense registry).entry ordinal = some x ∧ x.compileError = none ∧
        safeFedSet (dense registry) ordinal = .ok (.safe fed) ∧
        CalcEngine.allLeaf x.cube coord = false ∧
        (CalcEngine.new (dense registry)).compute ordinal coord =
          Cube.consolidateWith liftModel x.cube coord (CalcEngine.cellValue ordinal) ∧
        (CalcEngine.new (fromSnaps registry)).compute ordinal coord =
          Cube.consolidateFed liftModel x.cube coord fed (CalcEngine.cellValue ordinal) := by
  have hexpr := @CalcEngine.evalExpr_congr (CalcEngine.new (dense registry))
    (CalcEngine.new (fromSnaps registry)) dimensions_fromSnaps ordinal coord
  have hentry : (dense registry).entry ordinal =
      (registry.entry ordinal).map fun x => { x with fedSet := none } := rfl
  have hentry' : (fromSnaps registry).entry ordinal = (registry.entry ordinal).map fun x =>
      { x with fedSet := FedGate.admitted (safeFedSet (dense registry) ordinal) } := rfl
  unfold CalcEngine.compute CalcEngine.denies
  simp only [CalcEngine.new, Option.any_none, Bool.and_false, Bool.false_eq_true, if_false]
    at hexpr ⊢
  rw [hentry, hentry']
  rcases registry.entry ordinal with _ | x
  · exact .inl rfl
  simp only [Option.map_some]
  rcases herror : x.compileError with _ | error
  · rcases hrule : x.compiled.bind fun cm => cm.matchingRule x.cube coord with _ | rule
    · unfold CalcEngine.computeStored CalcEngine.sparse
      cases hleaf : CalcEngine.allLeaf x.cube coord with
      | true => exact .inl rfl
      | false =>
        rcases hgate : FedGate.admitted (safeFedSet (dense registry) ordinal) with _ | fed
        · exact .inl rfl
        · have hsafe : safeFedSet (dense registry) ordinal = .ok (.safe fed) := by
            unfold FedGate.admitted at hgate
            split at hgate
            · rename_i coords heq
              rw [heq, ← Option.some.inj hgate]
            · cases hgate
          exact .inr ⟨{ x with fedSet := none }, fed, (by rw [herror]), herror, hsafe, hleaf, rfl,
            rfl⟩
    · exact .inl (hexpr rule.expr)
  · exact .inl rfl

/-- A sparse consolidation stands for the dense one. -/
theorem stands_fromSnaps (hfits : ∀ o x cm, registry.entry o = some x → x.compiled = some cm →
      cm.Fits x.cube) (k : Cell) :
    (CalcEngine.new (dense registry)).system.Stands
      (CalcEngine.new (fromSnaps registry)).system k := by
  rcases @compute_fromSnaps registry k.ordinal k.coord with
    hsame | ⟨x, fed, hx, herror, hsafe, hleaf, hdense, hsparse⟩
  · exact System.stands_of_eq hsame
  have hfit : ∀ cm, x.compiled = some cm → cm.Fits x.cube := by
    intro cm hcm
    obtain ⟨y, hy, rfl⟩ := entry_dense hx
    exact hfits k.ordinal y cm hy hcm
  have hcomplete := complete_of_safe hx hfit hsafe
  intro n path r hneeds ih hrun
  have hdense : (CalcEngine.new (dense registry)).system.compute k = _ := hdense
  have hsparse : (CalcEngine.new (fromSnaps registry)).system.compute k = _ := hsparse
  rw [hdense] at hrun
  rw [hsparse]
  rcases consolidate_or (c := x.cube) k.coord with
    ⟨err, hcheck⟩ | ⟨hnum, -, -⟩ | ⟨hin, hnumeric⟩
  · refine ⟨0, ?_⟩
    simp only [Cube.consolidateWith, Cube.consolidateFed, hcheck] at hrun ⊢
    exact hrun
  · rw [(leafCoord_of_numeric hnum).2] at hleaf
    cases hleaf
  rcases hcount : Cube.comboCount (x.cube.leafLists k.coord) with _ | total
  · refine ⟨0, ?_⟩
    rw [consolidateWith_eq hin hnumeric, hcount] at hrun
    rw [consolidateFed_eq hin hnumeric, hcount]
    exact hrun
  -- every leaf under the consolidation has a value
  have : Inhabited Fixed := ⟨Fixed.zero⟩
  choose! value hvalue hzero using hcomplete.value herror
  have hnumeric' : ∀ s ∈ (x.cube.leafLists k.coord).sections,
      NumericCoord x.cube.dimensions (s.map Prod.fst) := fun s hs => Cube.numericCoord_keys hin hs
  -- and the path needs it, for a value of the consolidation needs them all
  have hleafNeeds : ∀ s ∈ (x.cube.leafLists k.coord).sections,
      (CalcEngine.new (dense registry)).system.Needs (k :: path) ⟨k.ordinal, s.map Prod.fst⟩ := by
    intro s hs
    refine hneeds.cons fun m v hv => ?_
    obtain ⟨j, rfl, hrunk⟩ := run_of_read hv
    have hrunk : ((CalcEngine.new (dense registry)).system.compute k).run _ = _ := hrunk
    rw [hdense] at hrunk
    obtain ⟨w, hw⟩ := read_of_consolidateWith hin hnumeric hrunk (.inl ⟨v, rfl⟩) s hs
    unfold CalcEngine.cellValue at hw
    rw [Task.run_request] at hw
    exact ⟨j, by omega, w, System.read_nil_of_ok hw⟩
  have hread : ∀ s ∈ (x.cube.leafLists k.coord).sections, ∀ r',
      (CalcEngine.new (dense registry)).system.read n (k :: path) ⟨k.ordinal, s.map Prod.fst⟩ =
        some r' → r' = .ok (value (s.map Prod.fst)) := by
    intro s hs r' hr'
    obtain ⟨m, hm⟩ := CalcEngine.fresh_eq_iff.1 (hvalue _ (hnumeric' s hs))
    exact System.read_of_kept (hleafNeeds s hs) hm hr'
  have hdenseRead : ∀ s ∈ (x.cube.leafLists k.coord).sections,
      (CalcEngine.cellValue k.ordinal (s.map Prod.fst)).run
        ((CalcEngine.new (dense registry)).system.read n (k :: path)) =
          some (.ok (value (s.map Prod.fst))) := by
    intro s hs
    obtain ⟨w, hw⟩ := read_of_consolidateWith hin hnumeric hrun (.inr ⟨by simp [hcount],
      fun t ht err herr => by
      unfold CalcEngine.cellValue at herr
      rw [Task.run_request] at herr
      cases hread t ht _ herr⟩) s hs
    have hw' := hw
    unfold CalcEngine.cellValue at hw'
    rw [Task.run_request] at hw'
    rw [hw, hread s hs _ hw']
  obtain ⟨m, hm⟩ := exists_common (l := (x.cube.leafLists k.coord).sections)
    (P := fun m (s : List (Nat × Int)) =>
      (CalcEngine.new (fromSnaps registry)).system.read m (k :: path)
      ⟨k.ordinal, s.map Prod.fst⟩ = some (.ok (value (s.map Prod.fst))))
    (fun m j s hmj hs => System.read_mono hmj hs) fun s hs => by
      have hd := hdenseRead s hs
      unfold CalcEngine.cellValue at hd
      rw [Task.run_request] at hd
      exact ih _ _ (hleafNeeds s hs) hd
  refine ⟨m, ?_⟩
  rw [run_consolidateFed x.wf hin hnumeric hcomplete.length hdenseRead (fun s hs _ => ?_)
    fun s hs hnot => hzero _ (hnumeric' s hs) hnot]
  · exact hrun
  · unfold CalcEngine.cellValue
    rw [Task.run_request]
    exact hm s hs

/-- Under an overlay or a mask no consolidation is sparse. -/
theorem system_fromSnaps {overlay : Option SandboxOverlay} {mask : Option ElementMask}
    {target : Nat} (h : ¬ (overlay.isNone ∧ mask.isNone)) :
    (CalcEngine.mk (fromSnaps registry) overlay mask target).system =
      (CalcEngine.mk (dense registry) overlay mask target).system := by
  have hcompute : ∀ ordinal coord,
      (CalcEngine.mk (fromSnaps registry) overlay mask target).compute ordinal coord =
        (CalcEngine.mk (dense registry) overlay mask target).compute ordinal coord := by
    intro ordinal coord
    have hexpr := @CalcEngine.evalExpr_congr (CalcEngine.mk (dense registry) overlay mask target)
      (CalcEngine.mk (fromSnaps registry) overlay mask target) dimensions_fromSnaps ordinal coord
    unfold CalcEngine.compute CalcEngine.denies
    have hentry : (dense registry).entry ordinal =
        (registry.entry ordinal).map fun x => { x with fedSet := none } := rfl
    have hentry' : (fromSnaps registry).entry ordinal = (registry.entry ordinal).map fun x =>
        { x with fedSet := FedGate.admitted (safeFedSet (dense registry) ordinal) } := rfl
    dsimp only
    rw [hentry, hentry']
    rcases registry.entry ordinal with _ | x
    · rfl
    · simp only [Option.map_some, hexpr, CalcEngine.computeStored, CalcEngine.sparse, if_neg h]
  have hname : ∀ o, ((fromSnaps registry).entry o).map (fun x => x.cube.name) =
      ((dense registry).entry o).map fun x => x.cube.name := by
    intro o
    show ((registry.entry o).map _).map _ = ((registry.entry o).map _).map _
    rw [Option.map_map, Option.map_map]
    rfl
  unfold CalcEngine.system
  simp only [hcompute, hname]

/-- Without overlay and mask the target of a mask is not looked at. -/
theorem system_of_plain (registry : EvalRegistry) (target : Nat) :
    (CalcEngine.mk registry none none target).system = (CalcEngine.new registry).system := by
  have hcompute : ∀ ordinal coord,
      (CalcEngine.mk registry none none target).compute ordinal coord =
        (CalcEngine.new registry).compute ordinal coord := by
    intro ordinal coord
    have hexpr := @CalcEngine.evalExpr_congr (CalcEngine.new registry)
      (CalcEngine.mk registry none none target) (fun _ => rfl) ordinal coord
    unfold CalcEngine.compute CalcEngine.denies
    simp only [CalcEngine.new, Option.any_none, Bool.and_false, Bool.false_eq_true, if_false,
      CalcEngine.computeStored, CalcEngine.sparse] at hexpr ⊢
    simp only [hexpr]
    rfl
  unfold CalcEngine.system
  simp only [hcompute]
  rfl

theorem fresh_of_plain (registry : EvalRegistry) (target ordinal : Nat) (coord : Coord) :
    (CalcEngine.mk registry none none target).fresh ordinal coord =
      (CalcEngine.new registry).fresh ordinal coord := by
  refine CalcEngine.fresh_eq_iff.2 ?_
  rw [system_of_plain]
  exact CalcEngine.fresh_eq_iff.1 rfl

/-- The fed leaves that the gates admit change no fresh read. -/
theorem fresh_fromSnaps (hfits : ∀ o x cm, registry.entry o = some x → x.compiled = some cm →
      cm.Fits x.cube) (overlay : Option SandboxOverlay) (mask : Option ElementMask)
    (target ordinal : Nat) (coord : Coord) :
    (CalcEngine.mk (fromSnaps registry) overlay mask target).fresh ordinal coord =
      (CalcEngine.mk (dense registry) overlay mask target).fresh ordinal coord := by
  by_cases hplain : overlay.isNone ∧ mask.isNone
  · obtain ⟨ho, hm⟩ := hplain
    rw [Option.isNone_iff_eq_none] at ho hm
    subst ho hm
    rw [fresh_of_plain, fresh_of_plain]
    obtain ⟨n, hn⟩ := CalcEngine.fresh_eq_iff.1 (rfl :
      (CalcEngine.new (dense registry)).fresh ordinal coord = _)
    refine CalcEngine.fresh_eq_iff.2 (System.read_transfer (fun k => ?_)
      (stands_fromSnaps hfits) (by simp [System.Needs]) hn)
    unfold CalcEngine.system CalcEngine.new
    simp only [dense, fromSnaps, EvalRegistry.withFed, Option.map_map]
    rfl
  · refine CalcEngine.fresh_eq_iff.2 ?_
    rw [system_fromSnaps hplain]
    exact CalcEngine.fresh_eq_iff.1 rfl

/-- **The gate is sound.** With the fed leaves that the gates admit and
without them, a read finds the same value or the same failure, after any
earlier reads. -/
theorem value_fromSnaps_eq (hfits : ∀ o x cm, registry.entry o = some x → x.compiled = some cm →
      cm.Fits x.cube) (overlay : Option SandboxOverlay) (mask : Option ElementMask)
    (target : Nat) (earlier : List (Nat × Coord)) (ordinal : Nat) (coord : Coord) :
    let e := CalcEngine.mk (fromSnaps registry) overlay mask target
    (e.value (e.carry CalcMemo.new earlier) ordinal coord).1 =
      (CalcEngine.mk (dense registry) overlay mask target).fresh ordinal coord := by
  intro e
  rw [CalcEngine.value_eq_fresh (CalcEngine.sound_carry e.sound_new earlier)]
  exact fresh_fromSnaps hfits overlay mask target ordinal coord

/-- A copied leaf is read by a sparse consolidation. -/
theorem value_fromSnaps_eq_copied :
    safeFedSet (dense (EvalRegistry.single (soldEntry copyRules))) 0 = .ok (.safe [[1, 0]]) ∧
      (CalcEngine.mk (fromSnaps (EvalRegistry.single (soldEntry copyRules))) none none 0).fresh 0
          [2, 0] =
        (CalcEngine.mk (dense (EvalRegistry.single (soldEntry copyRules))) none none 0).fresh 0
          [2, 0] := by
  refine ⟨by decide +kernel, ?_⟩
  refine value_fromSnaps_eq (fun o x cm hx hcm => ?_) none none 0 [] 0 [2, 0]
  rcases o with _ | o
  · obtain rfl := Option.some.inj hx
    obtain rfl := Option.some.inj hcm
    intro rule hrule
    obtain rfl := List.mem_singleton.1 hrule
    decide +kernel
  · cases hx

end PinnedRegistry

end Calc

end Epiphany
