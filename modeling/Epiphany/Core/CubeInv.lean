import Epiphany.Core.Cube
/-!
# Cubes — the invariant, and how an edit moves the cells

A cube is well formed when its dimensions are, its layout is the one its
dimensions ask for, and its stores hold only legal cells: non-zero numbers
at numeric leaves, and text with a valid id at leaves of which one is a
string. A structural edit leaves each store the image of what it was under
a partial move of coordinates (`Moves`); the invariant survives when the
move sends legal cells to legal cells (`WF.of_moves`).
-/

namespace Epiphany

/-! ## Coordinates -/

section Lists

variable {α β : Type*} {R S : α → β → Prop}

theorem forall₂_iff_getElem? {xs : List α} {ys : List β} :
    List.Forall₂ R xs ys ↔ xs.length = ys.length ∧
      ∀ (i : Nat) x y, xs[i]? = some x → ys[i]? = some y → R x y := by
  induction xs generalizing ys with
  | nil => cases ys <;> simp
  | cons x xs ih =>
    rcases ys with _ | ⟨y, ys⟩
    · simp
    · rw [List.forall₂_cons, ih]
      simp only [List.length_cons, Nat.add_right_cancel_iff]
      constructor
      · rintro ⟨hxy, hlen, h⟩
        refine ⟨hlen, fun i a b ha hb => ?_⟩
        rcases i with _ | i
        · cases ha; cases hb; exact hxy
        · exact h i a b ha hb
      · rintro ⟨hlen, h⟩
        exact ⟨h 0 x y rfl rfl, hlen, fun i a b ha hb => h (i + 1) a b ha hb⟩

/-- Replacing one pair keeps a relation that holds of the new pair. -/
theorem forall₂_set {xs : List α} {ys : List β} {d : Nat} {x : α} {y : β}
    (h : List.Forall₂ R xs ys) (hnew : d < ys.length → R x y) :
    List.Forall₂ R (xs.set d x) (ys.set d y) := by
  obtain ⟨hlen, hget⟩ := forall₂_iff_getElem?.1 h
  refine forall₂_iff_getElem?.2 ⟨by simpa using hlen, fun i a b ha hb => ?_⟩
  rw [List.getElem?_set] at ha hb
  split_ifs at ha hb with hi h1 h2
  · cases ha; cases hb
    exact hnew (hi ▸ h2)
  · exact hget i a b ha hb

/-- Replacing one element on the right only. -/
theorem forall₂_set_right {xs : List α} {ys : List β} {d : Nat} {y : β}
    (h : List.Forall₂ R xs ys) (hnew : ∀ x, xs[d]? = some x → R x y) :
    List.Forall₂ R xs (ys.set d y) := by
  obtain ⟨hlen, hget⟩ := forall₂_iff_getElem?.1 h
  refine forall₂_iff_getElem?.2 ⟨by simpa using hlen, fun i a b ha hb => ?_⟩
  rw [List.getElem?_set] at hb
  split_ifs at hb with hi h1
  · cases hb
    exact hnew a (hi ▸ ha)
  · exact hget i a b ha hb

end Lists

/-- Every component is a numeric leaf. -/
def NumericCoord (dims : List Dimension) (coord : Coord) : Prop :=
  List.Forall₂ (fun i (d : Dimension) => d.kindAt i = some .leaf) coord dims

/-- No component is consolidated, and one is a string. -/
structure StringCoord (dims : List Dimension) (coord : Coord) : Prop where
  leaves : List.Forall₂
    (fun i (d : Dimension) => d.kindAt i = some .leaf ∨ d.kindAt i = some .string) coord dims
  string : ∃ (d : Nat) (i : Nat) (dim : Dimension),
    coord[d]? = some i ∧ dims[d]? = some dim ∧ dim.kindAt i = some .string

theorem Dimension.lt_of_kindAt {d : Dimension} {i : Nat} {k : ElementKind}
    (h : d.kindAt i = some k) : i < d.elements.length := by
  obtain ⟨e, he, -⟩ := Dimension.kindAt_eq_some.1 h
  exact (List.getElem?_eq_some_iff.1 he).1

theorem NumericCoord.inRange {dims : List Dimension} {coord : Coord}
    (h : NumericCoord dims coord) : InRange dims coord :=
  h.imp fun _ _ hk => Dimension.lt_of_kindAt hk

theorem StringCoord.inRange {dims : List Dimension} {coord : Coord}
    (h : StringCoord dims coord) : InRange dims coord :=
  h.leaves.imp fun _ _ hk => hk.elim Dimension.lt_of_kindAt Dimension.lt_of_kindAt

/-! ## The string pool -/

/-- The reverse index of a pool is exact, so its strings are distinct. -/
def StringPool.WF (p : StringPool) : Prop :=
  ∀ (s : String) (i : Nat), p.ids[s]? = some i ↔ p.byId[i]? = some s

namespace StringPool

variable {p : StringPool}

theorem wf_empty : StringPool.empty.WF := by
  intro s i
  simp [StringPool.empty]

/-- Appending a new string keeps a pool exact. -/
theorem WF.push (hp : p.WF) {s : String} (hs : p.ids[s]? = none) :
    (⟨p.byId ++ [s], p.ids.insert s p.byId.length⟩ : StringPool).WF := by
  intro t i
  rw [FinMap.get_insert, Dimension.getElem?_snoc]
  by_cases ht : s = t
  · subst ht
    rw [if_pos rfl]
    split_ifs with hi
    · simp [hi]
    · rw [Option.some.injEq, ← hp]
      refine ⟨fun h => absurd h.symm hi, fun h => ?_⟩
      simp [hs] at h
  · rw [if_neg ht, hp]
    split_ifs with hi
    · subst hi
      simp [ht]
    · rfl

/-- Interning keeps the ids there are, and gives the string its own. -/
theorem intern_spec (hp : p.WF) (s : String) :
    (p.intern s).1.WF ∧ (p.intern s).1.byId[(p.intern s).2]? = some s ∧
      ∀ (i : Nat) (t : String), p.byId[i]? = some t → (p.intern s).1.byId[i]? = some t := by
  rcases h : p.ids[s]? with _ | id
  · simp only [intern, h]
    refine ⟨hp.push h, by simp, fun i t hi => ?_⟩
    rw [List.getElem?_append_left (List.getElem?_eq_some_iff.1 hi).1, hi]
  · simp only [intern, h]
    exact ⟨hp, (hp s id).1 h, fun _ _ hi => hi⟩

theorem get_eq {i : Nat} {s : String} (h : p.byId[i]? = some s) : p.get i = s := by
  simp [get, List.getD, h]

end StringPool

/-! ## The invariant -/

namespace Cube

/-- **The invariant of a cube.** -/
structure WF (c : Cube) : Prop where
  nonempty : c.dimensions ≠ []
  dims : ∀ d ∈ c.dimensions, d.WF
  layout : c.layout = Layout.new c.dimensions
  cells : c.cells.Holds c.dimensions
  strings : c.stringCells.Holds c.dimensions
  pool : c.stringPool.WF
  numeric : ∀ coord v, InRange c.dimensions coord → c.cells.get c.layout coord = some v →
    v ≠ Fixed.zero ∧ NumericCoord c.dimensions coord
  text : ∀ coord id, InRange c.dimensions coord → c.stringCells.get c.layout coord = some id →
    StringCoord c.dimensions coord ∧ ∃ s, c.stringPool.byId[id]? = some s ∧ s ≠ ""

/-- How an edit moves the cells of a cube: each store is the image of what
it was, under a partial move of its own. -/
structure Moves (c c' : Cube) (number text : Coord → Option Coord) : Prop where
  name : c'.name = c.name
  pool : c'.stringPool = c.stringPool
  layout : c'.layout = Layout.new c'.dimensions
  cells : CellStore.Image c.cells c'.cells c.dimensions c'.dimensions number
  strings : CellStore.Image c.stringCells c'.stringCells c.dimensions c'.dimensions text

variable {c c' : Cube} {number text : Coord → Option Coord}

/-- **An edit keeps the invariant** when its moves send legal cells to legal
cells. -/
theorem WF.of_moves (hc : c.WF) (hm : Moves c c' number text) (hne : c'.dimensions ≠ [])
    (hdims : ∀ d ∈ c'.dimensions, d.WF)
    (hnum : ∀ a b, NumericCoord c.dimensions a → number a = some b →
      NumericCoord c'.dimensions b)
    (htext : ∀ a b, StringCoord c.dimensions a → text a = some b →
      StringCoord c'.dimensions b) : c'.WF where
  nonempty := hne
  dims := hdims
  layout := hm.layout
  cells := hm.cells.holds
  strings := hm.strings.holds
  pool := hm.pool ▸ hc.pool
  numeric := by
    intro coord v hin hv
    rw [hm.layout] at hv
    obtain ⟨a, ha, hav, hab⟩ := (hm.cells.get coord v hin).1 hv
    rw [← hc.layout] at hav
    obtain ⟨hz, hleaf⟩ := hc.numeric a v ha hav
    exact ⟨hz, hnum a coord hleaf hab⟩
  text := by
    intro coord id hin hv
    rw [hm.layout] at hv
    obtain ⟨a, ha, hav, hab⟩ := (hm.strings.get coord id hin).1 hv
    rw [← hc.layout] at hav
    obtain ⟨hstr, hid⟩ := hc.text a id ha hav
    exact ⟨htext a coord hstr hab, hm.pool ▸ hid⟩

/-! ## Positions -/

theorem findDimension_ok {cube : String} {dims : List Dimension} {name : String} {d : Nat}
    (h : findDimension cube dims name = .ok d) :
    ∃ dim, dims[d]? = some dim ∧ dim.name = name := by
  simp only [findDimension, okOr_eq_ok, List.findIdx?_eq_some_iff_getElem] at h
  obtain ⟨hlt, hname, -⟩ := h
  exact ⟨_, List.getElem?_eq_getElem hlt, by simpa using hname⟩

theorem dimension_eq {d : Nat} {dim : Dimension} (h : c.dimensions[d]? = some dim) :
    c.dimension d = dim := by
  simp [dimension, List.getD, h]

/-- The dimension a name leads to. -/
theorem dimensionIndex_ok {name : String} {d : Nat} (h : c.dimensionIndex name = .ok d) :
    c.dimensions[d]? = some (c.dimension d) ∧ (c.dimension d).name = name := by
  obtain ⟨dim, hdim, hname⟩ := findDimension_ok h
  rw [dimension_eq hdim]
  exact ⟨hdim, hname⟩

theorem WF.dimension (hc : c.WF) {d : Nat} (hd : c.dimensions[d]? = some (c.dimension d)) :
    (c.dimension d).WF := hc.dims _ (List.mem_of_getElem? hd)

@[simp] theorem findElement_eq_ok {dim : Dimension} {dimension name : String} {i : Nat} :
    findElement dim dimension name = .ok i ↔ dim.indexByName[name]? = some i := by
  simp [findElement, Dimension.indexOf]

theorem set_ne_nil {dims : List Dimension} {d : Nat} {dim : Dimension} (h : dims ≠ []) :
    dims.set d dim ≠ [] := by
  rwa [ne_eq, List.set_eq_nil_iff]

theorem forall_mem_set {P : Dimension → Prop} {dims : List Dimension} {d : Nat}
    {dim : Dimension} (h : ∀ x ∈ dims, P x) (hdim : P dim) : ∀ x ∈ dims.set d dim, P x :=
  fun x hx => (List.mem_or_eq_of_mem_set hx).elim (h x) fun he => he ▸ hdim

/-- Replacing a dimension by one of the same length keeps the layout. -/
theorem layout_set {dims : List Dimension} {d : Nat} {old dim : Dimension}
    (hold : dims[d]? = some old) (hlen : dim.elements.length = old.elements.length) :
    Layout.new (dims.set d dim) = Layout.new dims := by
  have hmap : (dims.set d dim).map (fun d => bitsFor d.len) = dims.map fun d => bitsFor d.len := by
    refine List.ext_getElem? fun i => ?_
    rw [List.getElem?_map, List.getElem?_map, List.getElem?_set]
    split_ifs with hi hlt
    · subst hi
      simp [hold, Dimension.len, hlen]
    · subst hi
      simp [List.getElem?_eq_none (Nat.not_lt.1 hlt)]
    · rfl
  simp only [Layout.new, hmap]

/-- A coordinate stays within the dimensions when one of them does not
shrink below it. -/
theorem inRange_set {dims : List Dimension} {d : Nat} {old dim : Dimension}
    (hold : dims[d]? = some old) (hlen : old.elements.length ≤ dim.elements.length)
    {coord : Coord} (h : InRange dims coord) : InRange (dims.set d dim) coord := by
  refine forall₂_set_right h fun i hi => ?_
  exact ((forall₂_iff_getElem?.1 h).2 d i old hi hold).trans_le hlen

end Cube

end Epiphany
