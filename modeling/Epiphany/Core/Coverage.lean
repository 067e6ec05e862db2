import Epiphany.Core.CubeRuns
import Epiphany.Core.Query
/-!
# Coverage — where a view places the dimensions of its cube

A view that passes the check places every dimension of its cube once
(`validateCoverage_eq_ok`). The context of a view that executes then names
one member of each dimension that is not on an axis, and cells are read at
these members and at no others (`executeViewWith_slice`).
-/

namespace Epiphany

namespace Query

variable {cube : Cube} {view : View} {mask : Option ElementMask}

/-- The dimensions that a view places, as often as it does. -/
def placedNames (view : View) : List String :=
  (view.rows ++ view.columns).map AxisSpec.dimension ++ view.context.map Prod.fst

/-! ## The check -/

theorem get_foldl_tally (l : List String) (counts : FinMap String Nat) (n : String) :
    (l.foldl (fun counts name => counts.insert name (counts[name]?.getD 0 + 1)) counts)[n]? =
      if n ∈ l then some (counts[n]?.getD 0 + l.count n) else counts[n]? := by
  induction l generalizing counts with
  | nil => simp
  | cons a l ih =>
    rw [List.foldl_cons, ih, FinMap.get_insert]
    by_cases ha : n = a
    · subst ha
      by_cases hn : n ∈ l
      · simp only [hn, if_true, List.mem_cons_self, Option.getD_some, List.count_cons_self]
        congr 1
        omega
      · simp [hn, List.count_eq_zero_of_not_mem hn]
    · have hcount : (a :: l).count n = l.count n := List.count_cons_of_ne (Ne.symm ha)
      simp only [ha, Ne.symm ha, if_false, List.mem_cons, false_or, hcount]

theorem get_placements (n : String) : (placements view)[n]? =
    if n ∈ placedNames view then some ((placedNames view).count n) else none := by
  have h := get_foldl_tally (placedNames view) ∅ n
  rw [FinMap.get_empty, Option.getD_none, Nat.zero_add] at h
  exact h

/-- **The check passes** when every name that is placed is of a dimension and
is placed once, and every dimension is placed. -/
theorem validateCoverage_eq_ok : validateCoverage cube view = .ok () ↔
    (∀ n ∈ placedNames view, ∃ d ∈ cube.dimensions, d.name = n) ∧ (placedNames view).Nodup ∧
      ∀ d ∈ cube.dimensions, d.name ∈ placedNames view := by
  have hentry : ∀ {n c}, (n, c) ∈ (placements view).toList ↔
      n ∈ placedNames view ∧ (placedNames view).count n = c := by
    intro n c
    rw [FinMap.mem_toList, get_placements]
    by_cases hn : n ∈ placedNames view <;> simp [hn]
  have hknown : ((placements view).toList.forM fun x =>
      if cube.dimensions.any fun d => d.name = x.1 then Except.ok PUnit.unit
      else .error (QueryError.unknownDimension cube.name x.1)) = .ok () ↔
      ∀ n ∈ placedNames view, ∃ d ∈ cube.dimensions, d.name = n := by
    rw [forM_eq_ok]
    constructor
    · intro h n hn
      have hx := h (n, _) (hentry.2 ⟨hn, rfl⟩)
      split_ifs at hx with hany
      simpa using hany
    · rintro h ⟨n, c⟩ hx
      have hany : (cube.dimensions.any fun d => d.name = n) = true := by
        simpa using h n (hentry.1 hx).1
      rw [if_pos hany]
  have honce : ((placements view).toList.forM fun x =>
      if x.2 > 1 then
        Except.error (QueryError.dimensionCoverage
          ("dimension '" ++ x.1 ++ "' is placed on more than one axis"))
      else .ok PUnit.unit) = .ok () ↔ (placedNames view).Nodup := by
    rw [forM_eq_ok, List.nodup_iff_count_le_one]
    constructor
    · intro h n
      by_cases hn : n ∈ placedNames view
      · have hx := h (n, _) (hentry.2 ⟨hn, rfl⟩)
        split_ifs at hx with hle
        exact not_lt.1 hle
      · rw [List.count_eq_zero_of_not_mem hn]
        omega
    · rintro h ⟨n, c⟩ hx
      have hle := h n
      rw [(hentry.1 hx).2] at hle
      exact if_neg (by omega)
  have hplaced : (cube.dimensions.forM fun d =>
      if (placements view)[d.name]?.isSome then Except.ok PUnit.unit
      else .error (QueryError.dimensionCoverage
        ("dimension '" ++ d.name ++ "' is not placed on any axis or context"))) = .ok () ↔
      ∀ d ∈ cube.dimensions, d.name ∈ placedNames view := by
    rw [forM_eq_ok]
    refine forall₂_congr fun d _ => ?_
    rw [get_placements]
    by_cases hd : d.name ∈ placedNames view <;> simp [hd]
  -- the three checks come in this order, each over the counted names
  unfold validateCoverage
  rw [bind_eq_ok, ← hknown, ← honce, ← hplaced]
  constructor
  · rintro ⟨⟨⟩, hk, h⟩
    obtain ⟨⟨⟩, ho, hp⟩ := bind_eq_ok.1 h
    exact ⟨hk, ho, hp⟩
  · rintro ⟨hk, ho, hp⟩
    exact ⟨(), hk, bind_eq_ok.2 ⟨(), ho, hp⟩⟩

variable (hn : (cube.dimensions.map Dimension.name).Nodup)

include hn

/-- Each dimension is used once. -/
theorem perm_of_validateCoverage (h : validateCoverage cube view = .ok ()) :
    (placedNames view).Perm (cube.dimensions.map Dimension.name) := by
  obtain ⟨hknown, honce, hplaced⟩ := validateCoverage_eq_ok.1 h
  refine (List.perm_ext_iff_of_nodup honce hn).2 fun n => ?_
  rw [List.mem_map]
  constructor
  · exact hknown n
  · rintro ⟨d, hd, rfl⟩
    exact hplaced d hd

/-! ## Positions -/

theorem position_eq {i : Nat} {d : Dimension} (hd : cube.dimensions[i]? = some d) :
    position cube d.name = i := by
  have hmap : (cube.dimensions.zipIdx.map fun x => (x.1.name, x.2)).map Prod.fst =
      cube.dimensions.map Dimension.name := by
    rw [List.map_map, ← List.zipIdx_map_fst 0 cube.dimensions, List.map_map, List.zipIdx_map_fst]
    rfl
  have hget : (FinMap.collect (cube.dimensions.zipIdx.map fun x => (x.1.name, x.2)))[d.name]? =
      some i := by
    rw [FinMap.get_collect (FinMap.functional_of_nodup (hmap ▸ hn)), List.mem_map]
    exact ⟨(d, i), List.mem_zipIdx_iff_getElem?.2 hd, rfl⟩
  unfold position
  rw [hget, Option.getD_some]

/-- A name of a dimension is found where its position is. -/
theorem exists_position {n : String} (h : ∃ d ∈ cube.dimensions, d.name = n) :
    ∃ d, cube.dimensions[position cube n]? = some d ∧ d.name = n := by
  obtain ⟨d, hd, rfl⟩ := h
  obtain ⟨i, hi⟩ := List.mem_iff_getElem?.1 hd
  rw [position_eq hn hi]
  exact ⟨d, hi, rfl⟩

omit hn

/-! ## The context -/

/-- What is not of the context stays as it is. -/
theorem getElem?_resolveContext {context : List (String × String)} {base base' : Coord} {k : Nat}
    (h : resolveContext cube mask context base = .ok base')
    (hk : ∀ x ∈ context, position cube x.1 ≠ k) : base'[k]? = base[k]? := by
  induction context generalizing base with
  | nil =>
    obtain rfl := Except.ok.inj h
    rfl
  | cons x rest ih =>
    unfold resolveContext at h
    obtain ⟨i, -, h⟩ := bind_eq_ok.1 h
    split_ifs at h
    rw [ih h fun y hy => hk y (List.mem_cons_of_mem x hy),
      List.getElem?_set_ne (hk x List.mem_cons_self)]

/-- The context fixes its dimensions at the members that it names. -/
theorem fixed_of_resolveContext {context : List (String × String)} {base base' : Coord}
    (h : resolveContext cube mask context base = .ok base')
    (hdistinct : context.Pairwise fun x y => position cube x.1 ≠ position cube y.1)
    {x : String × String} (hx : x ∈ context) (hlt : position cube x.1 < base.length) :
    ∃ i, (cube.dimension (position cube x.1)).resolve x.2 = some i ∧
      base'[position cube x.1]? = some i := by
  induction context generalizing base with
  | nil => cases hx
  | cons y rest ih =>
    unfold resolveContext at h
    obtain ⟨i, hi, h⟩ := bind_eq_ok.1 h
    split_ifs at h
    obtain ⟨hy, hrest⟩ := List.pairwise_cons.1 hdistinct
    rcases List.mem_cons.1 hx with rfl | hx
    · refine ⟨i, okOr_eq_ok.1 hi, ?_⟩
      rw [getElem?_resolveContext h fun z hz => (hy z hz).symm, List.getElem?_set_self hlt]
    · refine ih h hrest hx ?_
      rw [List.length_set]
      exact hlt

theorem getElem?_overlay {base : Coord} {ci tuple : List Nat} {k : Nat} (hk : k ∉ ci) :
    (overlay base ci tuple)[k]? = base[k]? := by
  have hzip : ∀ x ∈ tuple.zip ci, x.2 ≠ k := by
    rintro ⟨a, b⟩ hx rfl
    exact hk (List.of_mem_zip hx).2
  unfold overlay
  generalize tuple.zip ci = l at hzip
  induction l generalizing base with
  | nil => rfl
  | cons x l ih =>
    rw [List.foldl_cons, ih fun y hy => hzip y (List.mem_cons_of_mem x hy),
      List.getElem?_set_ne (hzip x List.mem_cons_self)]

/-- A coordinate is at the members of a context. -/
def InContext (cube : Cube) (context : List (String × String)) (coord : Coord) : Prop :=
  ∀ x ∈ context, ∃ (k : Nat) (d : Dimension) (i : Nat), cube.dimensions[k]? = some d ∧
    d.name = x.1 ∧ d.resolve x.2 = some i ∧ coord[k]? = some i

/-- Cells are read at the members of the context. -/
theorem inContext_overlay (hn : (cube.dimensions.map Dimension.name).Nodup)
    (hcover : validateCoverage cube view = .ok ()) {base : Coord}
    (hbase : resolveContext cube mask view.context (List.replicate cube.rank 0) = .ok base)
    (r c : List Nat) :
    InContext cube view.context
      (overlay (overlay base ((view.rows.map AxisSpec.dimension).map (position cube)) r)
        ((view.columns.map AxisSpec.dimension).map (position cube)) c) := by
  obtain ⟨hknown, honce, -⟩ := validateCoverage_eq_ok.1 hcover
  have hctx : ∀ x ∈ view.context, x.1 ∈ placedNames view := fun x hx =>
    List.mem_append_right _ (List.mem_map_of_mem hx)
  -- names that are placed have positions of their own
  have hinj : ∀ m ∈ placedNames view, ∀ n ∈ placedNames view, position cube m = position cube n →
      m = n := by
    intro m hm n hn' heq
    obtain ⟨d, hd, rfl⟩ := exists_position hn (hknown m hm)
    obtain ⟨d', hd', rfl⟩ := exists_position hn (hknown n hn')
    rw [heq, hd'] at hd
    rw [Option.some.inj hd]
  obtain ⟨-, hctxnodup, hdisjoint⟩ := List.nodup_append.1 honce
  have hdistinct : view.context.Pairwise fun x y => position cube x.1 ≠ position cube y.1 := by
    have hpairs := List.pairwise_map.1 hctxnodup
    refine hpairs.imp_of_mem fun hx hy hne heq => hne ?_
    exact hinj _ (hctx _ hx) _ (hctx _ hy) heq
  have haxis : ∀ x ∈ view.context, ∀ specs : List AxisSpec, specs ⊆ view.rows ++ view.columns →
      position cube x.1 ∉ (specs.map AxisSpec.dimension).map (position cube) := by
    intro x hx specs hsub hmem
    rw [List.map_map, List.mem_map] at hmem
    obtain ⟨spec, hspec, heq⟩ := hmem
    have hon : spec.dimension ∈ (view.rows ++ view.columns).map AxisSpec.dimension :=
      List.mem_map_of_mem (hsub hspec)
    have hname := hinj _ (List.mem_append_left _ hon) _ (hctx x hx) heq
    exact hdisjoint _ hon _ (List.mem_map_of_mem hx) hname
  intro x hx
  obtain ⟨d, hd, hname⟩ := exists_position hn (hknown x.1 (hctx x hx))
  have hlt : position cube x.1 < (List.replicate cube.rank 0).length := by
    rw [List.length_replicate]
    exact (List.getElem?_eq_some_iff.1 hd).1
  obtain ⟨i, hi, hfixed⟩ := fixed_of_resolveContext hbase hdistinct hx hlt
  rw [Cube.dimension_eq hd] at hi
  refine ⟨position cube x.1, d, i, hd, hname, hi, ?_⟩
  rw [getElem?_overlay (haxis x hx _ (List.subset_append_right _ _)),
    getElem?_overlay (haxis x hx _ (List.subset_append_left _ _)), hfixed]

/-! ## Execution -/

section Execution

variable {cells cells' : CellResolver} {lookup : String → String → Option Subset}
  {eval : SetEvaluator} {par : Parallelism}

theorem bind_congr_ok {ε α β : Type} {x : Except ε α} {f g : α → Except ε β}
    (h : ∀ a, x = .ok a → f a = g a) : x >>= f = x >>= g := by
  rcases x with e | a
  · rfl
  · exact h a rfl

theorem fst_resolveAxis {axis : List AxisSpec} {r : List String × List (List Nat)}
    (h : resolveAxis cube lookup eval axis = .ok r) : r.1 = axis.map AxisSpec.dimension := by
  unfold resolveAxis at h
  obtain ⟨perSpec, -, h⟩ := bind_eq_ok.1 h
  obtain ⟨-, -, h⟩ := bind_eq_ok.1 h
  rw [← Except.ok.inj h]

/-- **An execution stays in its slice.** Sources that agree on the cells at
the members of the context give one answer. -/
theorem executeViewWith_slice (hn : (cube.dimensions.map Dimension.name).Nodup)
    (h : ∀ coord, InContext cube view.context coord →
      cells.value coord = cells'.value coord ∧ cells.stringValue coord = cells'.stringValue coord) :
    executeViewWith cube view cells lookup eval mask par =
      executeViewWith cube view cells' lookup eval mask par := by
  unfold executeViewWith
  refine bind_congr_ok fun _ hcover => bind_congr_ok fun rows hrows =>
    bind_congr_ok fun columns hcolumns => bind_congr_ok fun base hbase => ?_
  have hcell : ∀ s r c,
      cellAt cells s (overlay (overlay base (rows.1.map (position cube)) r)
        (columns.1.map (position cube)) c) =
      cellAt cells' s (overlay (overlay base (rows.1.map (position cube)) r)
        (columns.1.map (position cube)) c) := by
    intro s r c
    have hin := inContext_overlay hn hcover hbase r c
    rw [← fst_resolveAxis hrows, ← fst_resolveAxis hcolumns] at hin
    obtain ⟨hvalue, hstring⟩ := h _ hin
    unfold cellAt
    rw [hvalue, hstring]
  simp only [hcell]

theorem map_range_getD {α : Type} (l : List (List Nat)) (f : List Nat → α) :
    ((List.range l.length).map fun i => f (l.getD i [])) = l.map f := by
  refine List.ext_getElem (by simp) fun i hi _ => ?_
  rw [List.length_map, List.length_range] at hi
  simp [List.getD_eq_getElem?_getD, List.getElem?_eq_getElem hi]

/-- A caller sees a tuple: no mask hides a member of it. -/
def Unhidden (cube : Cube) (mask : Option ElementMask) (positions tuple : List Nat) : Prop :=
  ∀ m, mask = some m → ∀ n k i : Nat, positions[n]? = some k → tuple[n]? = some i →
    ¬ m.Hides cube k i

open Classical in
/-- The tuples that are left are those that the caller sees. -/
theorem visibleTuples_eq (mask : Option ElementMask) (positions : List Nat)
    (tuples : List (List Nat)) : visibleTuples cube mask positions tuples =
      tuples.filter fun tuple => Unhidden cube mask positions tuple := by
  unfold visibleTuples
  rcases mask with _ | m
  · simp [Unhidden]
  · refine List.filter_congr fun tuple _ => ?_
    rw [Bool.eq_iff_iff, Bool.not_eq_true', List.any_eq_false, decide_eq_true_eq]
    constructor
    · intro h m' hm' n k i hk hi hhides
      obtain rfl := Option.some.inj hm'
      exact h (i, k) (List.mem_of_getElem? (List.getElem?_zip_eq_some.2 ⟨hi, hk⟩))
        (ElementMask.memberDenied_eq_true.2 hhides)
    · intro h x hx hdenied
      obtain ⟨n, hn⟩ := List.getElem?_of_mem hx
      obtain ⟨hi, hk⟩ := List.getElem?_zip_eq_some.1 hn
      exact h m rfl n x.2 x.1 hk hi (ElementMask.memberDenied_eq_true.1 hdenied)

open Classical in
/-- **What an execution without suppression lists**: on each axis the tuples
that the caller may see, in their order. -/
theorem listed_of_executeViewWith {cs : Cellset} (hrows : view.suppressZeroRows = false)
    (hcolumns : view.suppressZeroColumns = false)
    (h : executeViewWith cube view cells lookup eval mask par = .ok cs) :
    validateCoverage cube view = .ok () ∧ cs.context = view.context ∧ ∃ rows columns,
      resolveAxis cube lookup eval view.rows = .ok (cs.rowDimensions, rows) ∧
      resolveAxis cube lookup eval view.columns = .ok (cs.columnDimensions, columns) ∧
      cs.rowTuples = (rows.filter fun tuple =>
          Unhidden cube mask (cs.rowDimensions.map (position cube)) tuple).map
        (tupleNames cube (cs.rowDimensions.map (position cube))) ∧
      cs.columnTuples = (columns.filter fun tuple =>
          Unhidden cube mask (cs.columnDimensions.map (position cube)) tuple).map
        (tupleNames cube (cs.columnDimensions.map (position cube))) := by
  unfold executeViewWith at h
  obtain ⟨⟨⟩, hcover, h⟩ := bind_eq_ok.1 h
  obtain ⟨⟨rowDimensions, rows⟩, hr, h⟩ := bind_eq_ok.1 h
  obtain ⟨⟨columnDimensions, columns⟩, hc, h⟩ := bind_eq_ok.1 h
  obtain ⟨base, -, h⟩ := bind_eq_ok.1 h
  dsimp only at h
  split_ifs at h
  obtain ⟨grid, -, h⟩ := bind_eq_ok.1 h
  obtain rfl := Except.ok.inj h
  refine ⟨hcover, rfl, rows, columns, hr, hc, ?_, ?_⟩
  · rw [hrows, ← visibleTuples_eq]
    simp only [Bool.false_and, Bool.not_false, Bool.true_or, List.filter_true]
    exact map_range_getD _ _
  · rw [hcolumns, ← visibleTuples_eq]
    simp only [Bool.false_and, Bool.not_false, Bool.true_or, List.filter_true]
    exact map_range_getD _ _

end Execution

end Query

end Epiphany
