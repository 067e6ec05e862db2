import Epiphany.Core.Rollup
/-!
# Cubes by member names

An index is a position, and positions move. What a reader means by a
coordinate is its member names, so this file reads a cube by names: where a
list of names stands (`locate`), and the cells under their names
(`namedNumbers`, `namedTexts`). An edit tracks the cells when its move sends
a coordinate to the one of the same names (`Tracks`), and then stored
values, and rollups over untouched subtrees, read the same by name.
-/

namespace Epiphany

namespace Cube

open CellStore Dimension

/-- The coordinate of a list of member names. -/
def locate : List Dimension → List String → Option Coord
  | [], [] => some []
  | d :: dims, n :: names => do
    let i ← d.indexOf n
    let rest ← locate dims names
    some (i :: rest)
  | _, _ => none

/-- The member names of a coordinate. -/
def memberNames (dims : List Dimension) (a : Coord) : List String :=
  List.zipWith (fun i (d : Dimension) => (d.nameAt i).getD "") a dims

/-- The numeric cells under their names. -/
def namedNumbers (c : Cube) : List (List String × Fixed) :=
  c.cellEntries.map fun e => (memberNames c.dimensions e.1, e.2)

/-- The string cells under their names. -/
def namedTexts (c : Cube) : List (List String × String) :=
  c.stringCellEntries.map fun e => (memberNames c.dimensions e.1, e.2)

/-! ## Coordinates and names -/

/-- The coordinate `a` has the member names `ns`. -/
structure Named (dims : List Dimension) (a : Coord) (ns : List String) : Prop where
  length : a.length = dims.length
  length_names : ns.length = dims.length
  name_at : ∀ (k : Nat) i d, a[k]? = some i → dims[k]? = some d → d.nameAt i = ns[k]?

variable {dims dims' : List Dimension} {a b : Coord} {ns : List String}

theorem named_cons {d : Dimension} {i : Nat} {n : String} :
    Named (d :: dims) (i :: a) (n :: ns) ↔ d.nameAt i = some n ∧ Named dims a ns := by
  constructor
  · rintro ⟨hl, hn, h⟩
    refine ⟨h 0 i d rfl rfl, by simpa using hl, by simpa using hn, fun k j x hj hx => ?_⟩
    exact h (k + 1) j x hj hx
  · rintro ⟨hd, hl, hn, h⟩
    refine ⟨by simpa using hl, by simpa using hn, fun k j x hj hx => ?_⟩
    rcases k with _ | k
    · cases hj; cases hx; exact hd
    · exact h k j x hj hx

/-- **Names lead to the coordinate they name.** -/
theorem locate_eq_some (hdims : ∀ d ∈ dims, d.WF) :
    locate dims ns = some a ↔ Named dims a ns := by
  induction dims generalizing ns a with
  | nil =>
    rcases ns with _ | ⟨n, ns⟩
    · constructor
      · rintro ⟨⟩
        exact ⟨rfl, rfl, by simp⟩
      · rintro ⟨hl, -, -⟩
        rw [List.length_eq_zero_iff.1 hl]
        rfl
    · refine ⟨fun h => (nomatch h), fun h => ?_⟩
      simpa using h.length_names
  | cons d dims ih =>
    have htail : ∀ x ∈ dims, x.WF := fun x hx => hdims x (List.mem_cons_of_mem _ hx)
    rcases ns with _ | ⟨n, ns⟩
    · refine ⟨fun h => (nomatch h), fun h => ?_⟩
      simpa using h.length_names
    · simp only [locate, Option.bind_eq_bind, Option.bind_eq_some_iff, Option.some.injEq]
      constructor
      · rintro ⟨i, hi, rest, hrest, rfl⟩
        exact named_cons.2 ⟨((hdims d List.mem_cons_self).index n i).1 hi, (ih htail).1 hrest⟩
      · intro h
        rcases a with _ | ⟨i, rest⟩
        · simpa using h.length
        · obtain ⟨hi, hrest⟩ := named_cons.1 h
          exact ⟨i, ((hdims d List.mem_cons_self).index n i).2 hi, rest,
            (ih htail).2 hrest, rfl⟩

theorem named_memberNames (ha : InRange dims a) : Named dims a (memberNames dims a) := by
  refine ⟨ha.length_eq, by simp [memberNames, ha.length_eq], fun k i d hi hd => ?_⟩
  have hlt := (forall₂_iff_getElem?.1 ha).2 k i d hi hd
  simp [memberNames, List.getElem?_zipWith, hi, hd, nameAt, List.getElem?_eq_getElem hlt]

theorem Named.inRange (h : Named dims a ns) : InRange dims a := by
  refine forall₂_iff_getElem?.2 ⟨h.length, fun k i d hi hd => ?_⟩
  have hk : k < ns.length := h.length_names ▸ (List.getElem?_eq_some_iff.1 hd).1
  have := h.name_at k i d hi hd
  rw [List.getElem?_eq_getElem hk] at this
  exact lt_of_nameAt this

theorem Named.names_unique {ns' : List String} (h : Named dims a ns) (h' : Named dims a ns') :
    ns = ns' := by
  refine List.ext_getElem? fun k => ?_
  by_cases hk : k < dims.length
  · have hd := List.getElem?_eq_getElem hk
    have hi := List.getElem?_eq_getElem (h.length ▸ hk)
    rw [← h.name_at k _ _ hi hd, ← h'.name_at k _ _ hi hd]
  · rw [List.getElem?_eq_none (by rw [h.length_names]; omega),
      List.getElem?_eq_none (by rw [h'.length_names]; omega)]

theorem Named.eq_memberNames (h : Named dims a ns) : memberNames dims a = ns :=
  (named_memberNames h.inRange).names_unique h

/-- A list of names stands at one coordinate. -/
theorem Named.unique (hdims : ∀ d ∈ dims, d.WF) (h : Named dims a ns) (h' : Named dims b ns) :
    a = b := by
  rw [← locate_eq_some hdims] at h h'
  exact Option.some.inj (h.symm.trans h')

/-- Component by component, coordinates of the same names have the same
name. -/
theorem Named.sameName (h : Named dims a ns) (h' : Named dims' b ns) {k : Nat} {i i' : Nat}
    {d d' : Dimension} (hi : a[k]? = some i) (hi' : b[k]? = some i') (hd : dims[k]? = some d)
    (hd' : dims'[k]? = some d') : SameName d d' i i' := by
  have hk : k < ns.length := h.length_names ▸ (List.getElem?_eq_some_iff.1 hd).1
  have hn := List.getElem?_eq_getElem hk
  exact ⟨_, (h.name_at k i d hi hd).trans hn, (h'.name_at k i' d' hi' hd').trans hn⟩

/-! ## Tracking -/

/-- An edit that moves each cell to the coordinate of the same names. -/
structure Tracks (c c' : Cube) : Prop where
  wf : c.WF
  wf' : c'.WF
  rank : c'.dimensions.length = c.dimensions.length
  moves : ∃ move, Moves c c' move move ∧ ∀ a b, InRange c.dimensions a →
    InRange c'.dimensions b → (move a = some b ↔ ∃ ns, Named c.dimensions a ns ∧
      Named c'.dimensions b ns)
  /-- A member that stays keeps its kind. -/
  kinds : ∀ (k : Nat) d d' i i', c.dimensions[k]? = some d → c'.dimensions[k]? = some d' →
    SameName d d' i i' → d'.kindAt i' = d.kindAt i

namespace Tracks

variable {c c' : Cube}

/-- A stored number reads the same by name. -/
theorem get_cells (h : Tracks c c') (ha : Named c.dimensions a ns)
    (hb : Named c'.dimensions b ns) :
    c'.cells.get c'.layout b = c.cells.get c.layout a := by
  obtain ⟨move, hm, ht⟩ := h.moves
  refine Option.ext fun v => ?_
  rw [h.wf'.layout, hm.cells.get b v hb.inRange, h.wf.layout]
  constructor
  · rintro ⟨x, hx, hv, hxb⟩
    obtain ⟨ms, hxm, hbm⟩ := (ht x b hx hb.inRange).1 hxb
    obtain rfl := hbm.names_unique hb
    exact hxm.unique h.wf.dims ha ▸ hv
  · exact fun hv => ⟨a, ha.inRange, hv, (ht a b ha.inRange hb.inRange).2 ⟨ns, ha, hb⟩⟩

/-- A stored text reads the same by name. -/
theorem get_strings (h : Tracks c c') (ha : Named c.dimensions a ns)
    (hb : Named c'.dimensions b ns) :
    (c'.stringCells.get c'.layout b).map c'.stringPool.get =
      (c.stringCells.get c.layout a).map c.stringPool.get := by
  obtain ⟨move, hm, ht⟩ := h.moves
  rw [hm.pool]
  refine congrArg _ (Option.ext fun v => ?_)
  rw [h.wf'.layout, hm.strings.get b v hb.inRange, h.wf.layout]
  constructor
  · rintro ⟨x, hx, hv, hxb⟩
    obtain ⟨ms, hxm, hbm⟩ := (ht x b hx hb.inRange).1 hxb
    obtain rfl := hbm.names_unique hb
    exact hxm.unique h.wf.dims ha ▸ hv
  · exact fun hv => ⟨a, ha.inRange, hv, (ht a b ha.inRange hb.inRange).2 ⟨ns, ha, hb⟩⟩

end Tracks

/-! ## The cells under their names -/

section Entries

variable {c c' : Cube}

theorem mem_cellEntries (hc : c.WF) {v : Fixed} :
    (a, v) ∈ c.cellEntries ↔ InRange c.dimensions a ∧ c.cells.get c.layout a = some v := by
  rw [cellEntries, Cube.rank, hc.layout]
  exact mem_entries hc.cells

theorem mem_stringCellEntries (hc : c.WF) {s : String} :
    (a, s) ∈ c.stringCellEntries ↔ InRange c.dimensions a ∧
      (c.stringCells.get c.layout a).map c.stringPool.get = some s := by
  simp only [stringCellEntries, Cube.rank, hc.layout, List.mem_map, Prod.mk.injEq, Prod.exists,
    mem_entries hc.strings, Option.map_eq_some_iff]
  constructor
  · rintro ⟨x, id, ⟨hx, hid⟩, rfl, rfl⟩
    exact ⟨hx, id, hid, rfl⟩
  · rintro ⟨ha, id, hid, rfl⟩
    exact ⟨a, id, ⟨ha, hid⟩, rfl, rfl⟩

theorem mem_namedNumbers (hc : c.WF) {v : Fixed} :
    (ns, v) ∈ c.namedNumbers ↔
      ∃ a, Named c.dimensions a ns ∧ c.cells.get c.layout a = some v := by
  simp only [namedNumbers, List.mem_map, Prod.mk.injEq, Prod.exists, mem_cellEntries hc]
  constructor
  · rintro ⟨a, w, ⟨ha, hw⟩, rfl, rfl⟩
    exact ⟨a, named_memberNames ha, hw⟩
  · rintro ⟨a, ha, hv⟩
    exact ⟨a, v, ⟨ha.inRange, hv⟩, ha.eq_memberNames, rfl⟩

theorem mem_namedTexts (hc : c.WF) {s : String} :
    (ns, s) ∈ c.namedTexts ↔ ∃ a, Named c.dimensions a ns ∧
      (c.stringCells.get c.layout a).map c.stringPool.get = some s := by
  simp only [namedTexts, List.mem_map, Prod.mk.injEq, Prod.exists, mem_stringCellEntries hc]
  constructor
  · rintro ⟨a, w, ⟨ha, hw⟩, rfl, rfl⟩
    exact ⟨a, named_memberNames ha, hw⟩
  · rintro ⟨a, ha, hv⟩
    exact ⟨a, s, ⟨ha.inRange, hv⟩, ha.eq_memberNames, rfl⟩

/-- Listing the entries of a store under names repeats none. -/
theorem nodup_named {α : Type} (hc : c.WF) {l : List (Coord × α)}
    (hkeys : (l.map Prod.fst).Nodup) (hin : ∀ e ∈ l, InRange c.dimensions e.1) :
    (l.map fun e => (memberNames c.dimensions e.1, e.2)).Nodup := by
  refine List.Nodup.map_on ?_ (List.Nodup.of_map _ hkeys)
  rintro ⟨x, v⟩ hx ⟨y, w⟩ hy heq
  obtain ⟨hn, hv⟩ := Prod.mk.inj heq
  have hyn := named_memberNames (hin _ hy)
  simp only at hn hv hyn
  rw [← hn] at hyn
  exact Prod.ext ((named_memberNames (hin _ hx)).unique hc.dims hyn) hv

theorem nodup_namedNumbers (hc : c.WF) : c.namedNumbers.Nodup := by
  refine nodup_named hc ?_ fun e he => ((mem_cellEntries hc).1 he).1
  rw [cellEntries, Cube.rank, hc.layout]
  exact nodup_keys_entries hc.cells

theorem nodup_namedTexts (hc : c.WF) : c.namedTexts.Nodup := by
  refine nodup_named hc ?_ fun e he => ((mem_stringCellEntries hc).1 he).1
  rw [stringCellEntries, List.map_map, Cube.rank, hc.layout]
  exact nodup_keys_entries hc.strings

end Entries

namespace Tracks

variable {c c' : Cube}

/-- **No cell is lost but those whose names are gone, and none is doubled or
merged**: the cells after, listed under their names, are those before whose
names still stand. -/
theorem namedNumbers_perm (h : Tracks c c') :
    c'.namedNumbers.Perm
      (c.namedNumbers.filter fun e => (locate c'.dimensions e.1).isSome) := by
  refine (List.perm_ext_iff_of_nodup (nodup_namedNumbers h.wf')
    ((nodup_namedNumbers h.wf).filter _)).2 ?_
  rintro ⟨ns, v⟩
  rw [List.mem_filter, mem_namedNumbers h.wf', mem_namedNumbers h.wf, Option.isSome_iff_exists]
  simp only [locate_eq_some h.wf'.dims]
  obtain ⟨move, hm, ht⟩ := h.moves
  constructor
  · rintro ⟨b, hb, hv⟩
    have hv' := hv
    rw [h.wf'.layout, hm.cells.get b v hb.inRange] at hv'
    obtain ⟨a, ha, -, hab⟩ := hv'
    obtain ⟨ms, ham, hbm⟩ := (ht a b ha hb.inRange).1 hab
    obtain rfl := hbm.names_unique hb
    exact ⟨⟨a, ham, h.get_cells ham hb ▸ hv⟩, b, hb⟩
  · rintro ⟨⟨a, ha, hv⟩, b, hb⟩
    exact ⟨b, hb, (h.get_cells ha hb).trans hv⟩

theorem namedTexts_perm (h : Tracks c c') :
    c'.namedTexts.Perm (c.namedTexts.filter fun e => (locate c'.dimensions e.1).isSome) := by
  refine (List.perm_ext_iff_of_nodup (nodup_namedTexts h.wf')
    ((nodup_namedTexts h.wf).filter _)).2 ?_
  rintro ⟨ns, s⟩
  rw [List.mem_filter, mem_namedTexts h.wf', mem_namedTexts h.wf, Option.isSome_iff_exists]
  simp only [locate_eq_some h.wf'.dims]
  obtain ⟨move, hm, ht⟩ := h.moves
  constructor
  · rintro ⟨b, hb, hs⟩
    obtain ⟨id, hid, -⟩ := Option.map_eq_some_iff.1 hs
    rw [h.wf'.layout, hm.strings.get b id hb.inRange] at hid
    obtain ⟨a, ha, -, hab⟩ := hid
    obtain ⟨ms, ham, hbm⟩ := (ht a b ha hb.inRange).1 hab
    obtain rfl := hbm.names_unique hb
    exact ⟨⟨a, ham, h.get_strings ham hb ▸ hs⟩, b, hb⟩
  · rintro ⟨⟨a, ha, hs⟩, b, hb⟩
    exact ⟨b, hb, (h.get_strings ha hb).trans hs⟩

end Tracks

end Cube

end Epiphany
