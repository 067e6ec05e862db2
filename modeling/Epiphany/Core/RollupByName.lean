import Epiphany.Core.ByName
/-!
# Rollups by name

A read at a consolidated coordinate sums the stored cells under it, each
weighted through its components. Listing the cells under their names, the
sum is over names (`get_eq_sum`); an edit that tracks the cells and keeps
the weights of the queried elements keeps the sum, since a cell whose names
are gone had no weight in it (`Tracks.get_eq`).
-/

namespace Epiphany

namespace Cube

open CellStore Dimension

variable {c c' : Cube} {dims dims' : List Dimension} {a b : Coord} {ns : List String}

/-! ## Weights -/

/-- The weight of a cell depends only on what its components look up. -/
theorem cellWeight_congr {Ws Ws' : List (FinMap Nat Int)} {x y : Coord}
    (hlen : Ws.length = x.length) (hlen' : Ws'.length = y.length) (hl : x.length = y.length)
    (h : ∀ (k : Nat) W W' i i', Ws[k]? = some W → Ws'[k]? = some W' → x[k]? = some i →
      y[k]? = some i' → W[i]? = W'[i']?) (w : I128) :
    cellWeight Ws x w = cellWeight Ws' y w := by
  induction Ws generalizing Ws' x y w with
  | nil =>
    have hx : x = [] := List.length_eq_zero_iff.1 hlen.symm
    subst hx
    have hy : y = [] := List.length_eq_zero_iff.1 hl.symm
    subst hy
    have : Ws' = [] := List.length_eq_zero_iff.1 hlen'
    subst this
    rfl
  | cons W Ws ih =>
    rcases x with _ | ⟨i, x⟩
    · simp at hlen
    rcases y with _ | ⟨i', y⟩
    · simp at hl
    rcases Ws' with _ | ⟨W', Ws'⟩
    · simp at hlen'
    simp only [List.length_cons, Nat.add_right_cancel_iff] at hlen hlen' hl
    rw [cellWeight, cellWeight, h 0 W W' i i' rfl rfl rfl rfl]
    rcases W'[i']? with _ | z
    · rfl
    · exact ih hlen hlen' hl (fun k => h (k + 1)) _

/-- A cell with a weight has one in every dimension. -/
theorem exists_of_cellWeight {Ws : List (FinMap Nat Int)} {x : Coord} {w v : I128}
    (h : cellWeight Ws x w = some v) {k : Nat} {W : FinMap Nat Int} {i : Nat}
    (hW : Ws[k]? = some W) (hi : x[k]? = some i) : ∃ z, W[i]? = some z := by
  induction Ws generalizing x w k with
  | nil => simp at hW
  | cons W0 Ws ih =>
    rcases x with _ | ⟨i0, x⟩
    · simp at hi
    rw [cellWeight] at h
    rcases hz : W0[i0]? with _ | z
    · simp [hz] at h
    · simp only [hz] at h
      rcases k with _ | k
      · cases hW; cases hi
        exact ⟨z, hz⟩
      · exact ih h hW hi

/-- The weight of the cell a list of names leads to. -/
def weightByName (dims : List Dimension) (Ws : List (FinMap Nat Int)) (ns : List String) :
    Option I128 := (locate dims ns).bind fun a => cellWeight Ws a 1

theorem locate_memberNames (hdims : ∀ d ∈ dims, d.WF) (ha : InRange dims a) :
    locate dims (memberNames dims a) = some a :=
  (locate_eq_some hdims).2 (named_memberNames ha)

/-- The terms of a rollup, over the cells under their names. -/
theorem rollup_terms (hc : c.WF) (Ws : List (FinMap Nat Int)) :
    (c.cellEntries.filterMap fun e => (cellWeight Ws e.1 1).map fun w => w * e.2.toI128) =
      c.namedNumbers.filterMap fun e =>
        (weightByName c.dimensions Ws e.1).map fun w => w * e.2.toI128 := by
  rw [namedNumbers, List.filterMap_map]
  refine List.filterMap_congr fun e he => ?_
  have hin := ((mem_cellEntries hc).1 (show (e.1, e.2) ∈ c.cellEntries from he)).1
  simp [weightByName, locate_memberNames hc.dims hin]

theorem perDimension_isOk (ha : InRange c.dimensions a) : ∃ ls, c.perDimension a = .ok ls := by
  rw [InRange, forall₂_iff_zip] at ha
  exact exists_mapM_ok fun x hx => leafWeights_isOk (ha.2 x hx)

/-- The weights of each component, in place. -/
theorem perDimension_at (ha : InRange c.dimensions a) {ls : List (List (Nat × Int))}
    (h : c.perDimension a = .ok ls) : ls.length = a.length ∧
      ∀ (k : Nat) i d l, a[k]? = some i → c.dimensions[k]? = some d → ls[k]? = some l →
        d.leafWeights i = .ok l := by
  obtain ⟨hlen, hat⟩ := forall₂_iff_getElem?.1 (mapM_eq_ok.1 h)
  refine ⟨by rw [← hlen, List.length_zip, ha.length_eq, min_self], fun k i d l hi hd hl => ?_⟩
  exact hat k (i, d) l (List.getElem?_zip_eq_some.2 ⟨hi, hd⟩) hl

/-- **A read below the leaves**, as a sum over the cells under their
names. -/
theorem get_eq_sum (hc : c.WF) (ha : InRange c.dimensions a) (hleaf : c.allNumericLeaf a = false) :
    ∃ ls, c.perDimension a = .ok ls ∧ c.get a =
      narrow ((c.namedNumbers.filterMap fun e =>
        (weightByName c.dimensions (ls.map FinMap.collect) e.1).map
          fun w => w * e.2.toI128).sum) := by
  obtain ⟨ls, hls⟩ := perDimension_isOk ha
  refine ⟨ls, hls, ?_⟩
  have hck : c.checkCoord a = .ok () := checkCoord_eq_ok.2 ha
  rw [← rollup_terms hc, get, hck]
  simp only [bind, Except.bind, hleaf, Bool.false_eq_true, if_false, hls]

theorem allNumericLeaf_eq_true (ha : InRange c.dimensions a) :
    c.allNumericLeaf a = true ↔ NumericCoord c.dimensions a := by
  simp only [allNumericLeaf, List.all_eq_true, decide_eq_true_eq, NumericCoord, forall₂_iff_zip]
  exact ⟨fun h => ⟨ha.length_eq, h⟩, fun h => h.2⟩

theorem get_of_leaf (ha : InRange c.dimensions a) (hleaf : c.allNumericLeaf a = true) :
    c.get a = .ok (c.leafValue a) := by
  have hck : c.checkCoord a = .ok () := checkCoord_eq_ok.2 ha
  rw [get, hck]
  simp [bind, Except.bind, hleaf]

/-- Names that all stand lead somewhere. -/
theorem exists_named (hl : ns.length = dims.length)
    (h : ∀ (k : Nat) d n, dims[k]? = some d → ns[k]? = some n → ∃ i, d.nameAt i = some n) :
    ∃ b, Named dims b ns := by
  induction dims generalizing ns with
  | nil => exact ⟨[], rfl, hl, by simp⟩
  | cons d dims ih =>
    rcases ns with _ | ⟨n, ns⟩
    · simp at hl
    · obtain ⟨i, hi⟩ := h 0 d n rfl rfl
      obtain ⟨b, hb⟩ := ih (by simpa using hl) fun k => h (k + 1)
      exact ⟨i :: b, named_cons.2 ⟨hi, hb⟩⟩

/-! ## Reads -/

namespace Tracks

theorem leafValue_eq (h : Tracks c c') (ha : Named c.dimensions a ns)
    (hb : Named c'.dimensions b ns) : c'.leafValue b = c.leafValue a := by
  rw [leafValue, leafValue, h.get_cells ha hb]

theorem getLeaf_eq (h : Tracks c c') (ha : Named c.dimensions a ns)
    (hb : Named c'.dimensions b ns) : c'.getLeaf b = c.getLeaf a := by
  have hck : c.checkCoord a = .ok () := checkCoord_eq_ok.2 ha.inRange
  have hck' : c'.checkCoord b = .ok () := checkCoord_eq_ok.2 hb.inRange
  rw [getLeaf, getLeaf, hck, hck',
    h.leafValue_eq ha hb]

theorem getString_eq (h : Tracks c c') (ha : Named c.dimensions a ns)
    (hb : Named c'.dimensions b ns) : c'.getString b = c.getString a := by
  have hck : c.checkCoord a = .ok () := checkCoord_eq_ok.2 ha.inRange
  have hck' : c'.checkCoord b = .ok () := checkCoord_eq_ok.2 hb.inRange
  rw [getString, getString, hck, hck',
    h.get_strings ha hb]

theorem allNumericLeaf_iff (h : Tracks c c') (ha : Named c.dimensions a ns)
    (hb : Named c'.dimensions b ns) : c'.allNumericLeaf b = c.allNumericLeaf a := by
  rw [Bool.eq_iff_iff, allNumericLeaf_eq_true ha.inRange, allNumericLeaf_eq_true hb.inRange,
    NumericCoord, NumericCoord, forall₂_iff_getElem?, forall₂_iff_getElem?]
  have hl : a.length = b.length := by rw [ha.length, hb.length, h.rank]
  have hkind : ∀ {k : Nat} {i i' : Nat} {d d' : Dimension}, a[k]? = some i → b[k]? = some i' →
      c.dimensions[k]? = some d → c'.dimensions[k]? = some d' → d'.kindAt i' = d.kindAt i :=
    fun hi hi' hd hd' => h.kinds _ _ _ _ _ hd hd' (ha.sameName hb hi hi' hd hd')
  constructor
  · rintro ⟨-, h'⟩
    refine ⟨ha.length, fun k i d hi hd => ?_⟩
    have hk := (List.getElem?_eq_some_iff.1 hi).1
    have hi' := List.getElem?_eq_getElem (hl ▸ hk)
    have hd' := List.getElem?_eq_getElem (hb.length ▸ hl ▸ hk)
    exact (hkind hi hi' hd hd').symm.trans (h' k _ _ hi' hd')
  · rintro ⟨-, h'⟩
    refine ⟨hb.length, fun k i' d' hi' hd' => ?_⟩
    have hk := (List.getElem?_eq_some_iff.1 hi').1
    have hi := List.getElem?_eq_getElem (hl.symm ▸ hk)
    have hd := List.getElem?_eq_getElem (ha.length ▸ hl.symm ▸ hk)
    exact (hkind hi hi' hd hd').trans (h' k _ _ hi hd)

/-- **A rollup over kept weights reads the same by name.** -/
theorem get_eq (h : Tracks c c') (ha : Named c.dimensions a ns) (hb : Named c'.dimensions b ns)
    (hw : ∀ (k : Nat) i i' d d' l l', a[k]? = some i → b[k]? = some i' →
      c.dimensions[k]? = some d → c'.dimensions[k]? = some d' → d.leafWeights i = .ok l →
      d'.leafWeights i' = .ok l' → SameRollup d d' l l') : c'.get b = c.get a := by
  rcases hleaf : c.allNumericLeaf a with _ | _
  · have hleaf' := (h.allNumericLeaf_iff ha hb).trans hleaf
    obtain ⟨ls, hls, hget⟩ := get_eq_sum h.wf ha.inRange hleaf
    obtain ⟨ls', hls', hget'⟩ := get_eq_sum h.wf' hb.inRange hleaf'
    obtain ⟨hlen, hat⟩ := perDimension_at ha.inRange hls
    obtain ⟨hlen', hat'⟩ := perDimension_at hb.inRange hls'
    have hab : a.length = b.length := by rw [ha.length, hb.length, h.rank]
    -- what a component looks up in the weights, by name
    have hlook : ∀ {k : Nat} {l l' : List (Nat × Int)} {d d' : Dimension} {j j' : Nat},
        ls[k]? = some l → ls'[k]? = some l' → c.dimensions[k]? = some d →
        c'.dimensions[k]? = some d' → SameName d d' j j' →
        (FinMap.collect l)[j]? = (FinMap.collect l')[j']? := by
      intro k l l' d d' j j' hl hl' hd hd' hj
      have hk := (List.getElem?_eq_some_iff.1 hl).1
      have hi := List.getElem?_eq_getElem (hlen ▸ hk)
      have hi' := List.getElem?_eq_getElem (hab ▸ hlen ▸ hk)
      have hw1 := hat k _ d l hi hd hl
      have hw2 := hat' k _ d' l' hi' hd' hl'
      have hsame := hw k _ _ d d' l l' hi hi' hd hd' hw1 hw2
      have hdwf := h.wf.dims d (List.mem_of_getElem? hd)
      have hdwf' := h.wf'.dims d' (List.mem_of_getElem? hd')
      obtain ⟨n, hn, hn'⟩ := hj
      refine Option.ext fun w => ?_
      rw [FinMap.get_collect (functional_leafWeights hw1),
        FinMap.get_collect (functional_leafWeights hw2)]
      constructor
      · intro hmem
        obtain ⟨x, hx, hxl⟩ := (hsame n w).1 ⟨j, hn, hmem⟩
        exact hdwf'.nameAt_inj hx hn' ▸ hxl
      · intro hmem
        obtain ⟨x, hx, hxl⟩ := (hsame n w).2 ⟨j', hn', hmem⟩
        exact hdwf.nameAt_inj hx hn ▸ hxl
    rw [hget', hget]
    refine congrArg narrow ?_
    rw [(h.namedNumbers_perm.filterMap _).sum_eq, List.filterMap_filter]
    refine congrArg List.sum (List.filterMap_congr fun e he => ?_)
    obtain ⟨x, hx, -⟩ := (mem_namedNumbers h.wf).1 (show (e.1, e.2) ∈ c.namedNumbers from he)
    have hxl : (ls.map FinMap.collect).length = x.length := by
      rw [List.length_map, hlen, ha.length, hx.length]
    have hloc : weightByName c.dimensions (ls.map FinMap.collect) e.1 =
        cellWeight (ls.map FinMap.collect) x 1 := by
      rw [weightByName, (locate_eq_some h.wf.dims).2 hx, Option.bind_some]
    rw [hloc]
    rcases hy : locate c'.dimensions e.1 with _ | y
    -- a cell whose names are gone had no weight
    · simp only [Option.isSome_none, Bool.false_eq_true, if_false]
      rcases hcw : cellWeight (ls.map FinMap.collect) x 1 with _ | w
      · rfl
      · exfalso
        have hstand : ∃ y, Named c'.dimensions y e.1 := by
          refine exists_named (hx.length_names.trans h.rank.symm) fun k d' n hd' hn => ?_
          have hk : k < c.dimensions.length := h.rank ▸ (List.getElem?_eq_some_iff.1 hd').1
          have hd := List.getElem?_eq_getElem hk
          have hi := List.getElem?_eq_getElem (hx.length ▸ hk)
          have hkl : k < ls.length := by rw [hlen, ha.length]; exact hk
          have hl := List.getElem?_eq_getElem hkl
          obtain ⟨z, hz⟩ := exists_of_cellWeight hcw (W := FinMap.collect ls[k])
            (by rw [List.getElem?_map, hl]; rfl) hi
          have hai := List.getElem?_eq_getElem (ha.length ▸ hk : k < a.length)
          have hbi := List.getElem?_eq_getElem (hab ▸ ha.length ▸ hk : k < b.length)
          have hl' := List.getElem?_eq_getElem
            (hlen'.symm ▸ hab ▸ ha.length ▸ hk : k < ls'.length)
          have hw1 := hat k _ _ _ hai hd hl
          rw [FinMap.get_collect (functional_leafWeights hw1)] at hz
          have hname := hx.name_at k _ _ hi hd
          rw [hn] at hname
          obtain ⟨j', hj', -⟩ := (hw k _ _ _ d' _ _ hai hbi hd hd' hw1
            (hat' k _ d' _ hbi hd' hl') n z).1 ⟨_, hname, hz⟩
          exact ⟨j', hj'⟩
        obtain ⟨y, hy'⟩ := hstand
        rw [(locate_eq_some h.wf'.dims).2 hy'] at hy
        cases hy
    · have hyn := (locate_eq_some h.wf'.dims).1 hy
      simp only [Option.isSome_some, if_true, weightByName, hy, Option.bind_some]
      refine congrArg (Option.map _) ?_
      symm
      refine cellWeight_congr hxl ?_ ?_ ?_ 1
      · rw [List.length_map, hlen', hb.length, hyn.length]
      · rw [hx.length, hyn.length, h.rank]
      · intro k W W' i i' hW hW' hi hi'
        obtain ⟨l, hl, rfl⟩ := Option.map_eq_some_iff.1 (List.getElem?_map ▸ hW)
        obtain ⟨l', hl', rfl⟩ := Option.map_eq_some_iff.1 (List.getElem?_map ▸ hW')
        have hk := (List.getElem?_eq_some_iff.1 hi).1
        have hk' := (List.getElem?_eq_some_iff.1 hi').1
        have hd := List.getElem?_eq_getElem (hx.length ▸ hk)
        have hd' := List.getElem?_eq_getElem (hyn.length ▸ hk')
        exact hlook hl hl' hd hd' (hx.sameName hyn hi hi' hd hd')
  · rw [get_of_leaf ha.inRange hleaf,
      get_of_leaf hb.inRange ((h.allNumericLeaf_iff ha hb).trans hleaf), h.leafValue_eq ha hb]

end Tracks

end Cube

end Epiphany
