import Epiphany.Core.StructuralEdits
/-!
# Kept cells — edits of the hierarchy

An edit of edges or pins moves no cell. A leaf that gains a child becomes a
consolidation and loses its own cells, and then the cells are kept exactly if
none stood at that leaf.
-/

namespace Epiphany

namespace Cube

open CellStore Dimension

variable {c c' : Cube} {d : Nat} {old dim : Dimension} {ns : List String}

/-- Every cell is still stored, under the same names and with the same
content. -/
structure KeepsCells (c c' : Cube) : Prop where
  numbers : c.namedNumbers ⊆ c'.namedNumbers
  texts : c.namedTexts ⊆ c'.namedTexts

/-- No cell stands at a member of a dimension. -/
structure Vacant (c : Cube) (d : Nat) (member : String) : Prop where
  numbers : ∀ e ∈ c.namedNumbers, e.1[d]? ≠ some member
  texts : ∀ e ∈ c.namedTexts, e.1[d]? ≠ some member

/-! ## Dimensions with the same names -/

theorem named_set_iff {dims : List Dimension} (hold : dims[d]? = some old)
    (hnames : ∀ i, dim.nameAt i = old.nameAt i) {a : Coord} :
    Named (dims.set d dim) a ns ↔ Named dims a ns := by
  have hlt := (List.getElem?_eq_some_iff.1 hold).1
  constructor
  · rintro ⟨hlen, hlen', hname⟩
    refine ⟨by simpa using hlen, by simpa using hlen', fun k i x hi hx => ?_⟩
    by_cases hk : d = k
    · subst hk
      obtain rfl := Option.some.inj (hold.symm.trans hx)
      rw [← hnames i]
      exact hname d i dim hi (List.getElem?_set_self hlt)
    · exact hname k i x hi ((List.getElem?_set_ne hk).trans hx)
  · rintro ⟨hlen, hlen', hname⟩
    refine ⟨by simpa using hlen, by simpa using hlen', fun k i x hi hx => ?_⟩
    by_cases hk : d = k
    · subst hk
      rw [List.getElem?_set_self hlt] at hx
      obtain rfl := Option.some.inj hx
      rw [hnames i]
      exact hname d i old hi hold
    · exact hname k i x hi ((List.getElem?_set_ne hk).symm.trans hx)

/-- An element under another kind or pin has the same name. -/
theorem nameAt_modify {x : Dimension} {i : Nat} {f : Element → Element}
    (hf : ∀ e, (f e).name = e.name) (j : Nat) :
    ({ x with elements := x.elements.modify i f } : Dimension).nameAt j = x.nameAt j := by
  simp only [nameAt, getElem?_modify_element]
  split_ifs <;> simp [Function.comp_def, hf]

/-! ## Moves that keep a coordinate or drop it -/

section

variable {keep : Coord → Prop} {move : Coord → Option Coord}
variable (hc : c.WF) (hc' : c'.WF) (hm : Moves c c' move move)
variable (hmove : ∀ a b, move a = some b ↔ keep a ∧ a = b)
variable (hnames : ∀ a ns, Named c'.dimensions a ns ↔ Named c.dimensions a ns)

include hc hc' hm hmove hnames

theorem mem_namedNumbers_of_moves {v : Fixed} : (ns, v) ∈ c'.namedNumbers ↔
    ∃ a, Named c.dimensions a ns ∧ keep a ∧ c.cells.get c.layout a = some v := by
  rw [mem_namedNumbers hc']
  refine exists_congr fun a => ?_
  rw [hnames]
  refine and_congr_right fun ha => ?_
  rw [hc'.layout, hm.cells.get a v ((hnames a ns).2 ha).inRange, hc.layout]
  constructor
  · rintro ⟨b, -, hv, hba⟩
    obtain ⟨hk, rfl⟩ := (hmove b a).1 hba
    exact ⟨hk, hv⟩
  · rintro ⟨hk, hv⟩
    exact ⟨a, ha.inRange, hv, (hmove a a).2 ⟨hk, rfl⟩⟩

theorem mem_namedTexts_of_moves {s : String} : (ns, s) ∈ c'.namedTexts ↔
    ∃ a, Named c.dimensions a ns ∧ keep a ∧
      (c.stringCells.get c.layout a).map c.stringPool.get = some s := by
  rw [mem_namedTexts hc']
  refine exists_congr fun a => ?_
  rw [hnames]
  refine and_congr_right fun ha => ?_
  rw [hc'.layout, hm.pool, Option.map_eq_some_iff, Option.map_eq_some_iff]
  constructor
  · rintro ⟨id, hid, rfl⟩
    rw [hm.strings.get a id ((hnames a ns).2 ha).inRange] at hid
    obtain ⟨b, -, hv, hba⟩ := hid
    obtain ⟨hk, rfl⟩ := (hmove b a).1 hba
    exact ⟨hk, id, hc.layout ▸ hv, rfl⟩
  · rintro ⟨hk, id, hid, rfl⟩
    refine ⟨id, ?_, rfl⟩
    rw [hm.strings.get a id ((hnames a ns).2 ha).inRange]
    exact ⟨a, ha.inRange, hc.layout ▸ hid, (hmove a a).2 ⟨hk, rfl⟩⟩

end

/-- A dimension of the same names, with the cells where they are. -/
theorem keepsCells_setDimension (hc : c.WF) (hc' : (c.setDimension d dim).WF)
    (hold : c.dimensions[d]? = some old) (hlen : dim.elements.length = old.elements.length)
    (hnames : ∀ i, dim.nameAt i = old.nameAt i) : KeepsCells c (c.setDimension d dim) := by
  have hm := moves_setDimension hc hold hlen
  have hmove : ∀ a b : Coord, some a = some b ↔ True ∧ a = b := by simp
  have hnamed : ∀ a ns, Named (c.setDimension d dim).dimensions a ns ↔ Named c.dimensions a ns :=
    fun a ns => named_set_iff hold hnames
  constructor
  · rintro ⟨ns, v⟩ h
    obtain ⟨a, ha, hv⟩ := (mem_namedNumbers hc).1 h
    exact (mem_namedNumbers_of_moves hc hc' hm hmove hnamed).2 ⟨a, ha, trivial, hv⟩
  · rintro ⟨ns, s⟩ h
    obtain ⟨a, ha, hs⟩ := (mem_namedTexts hc).1 h
    exact (mem_namedTexts_of_moves hc hc' hm hmove hnamed).2 ⟨a, ha, trivial, hs⟩

/-- A dimension of the same names, without the cells of one member. -/
theorem keepsCells_dropCells (hc : c.WF) {i : Nat} {member : String}
    (hc' : ((c.setDimension d dim).dropCellsForElement d i true true).WF)
    (hold : c.dimensions[d]? = some old) (hlen : dim.elements.length = old.elements.length)
    (hnames : ∀ i, dim.nameAt i = old.nameAt i) (hi : old.nameAt i = some member) :
    KeepsCells c ((c.setDimension d dim).dropCellsForElement d i true true) ↔
      c.Vacant d member := by
  have hm := moves_dropCells hc hold hlen i true true
  have hmove : ∀ a b, avoid d i a = some b ↔ a[d]? ≠ some i ∧ a = b := fun _ _ => avoid_eq_some
  have hnamed : ∀ a ns, Named ((c.setDimension d dim).dropCellsForElement d i true
      true).dimensions a ns ↔ Named c.dimensions a ns := fun a ns => named_set_iff hold hnames
  have hat : ∀ {a ns}, Named c.dimensions a ns → (a[d]? = some i ↔ ns[d]? = some member) := by
    intro a ns ha
    obtain ⟨j, hj⟩ := ha.getElem? hold
    have hname := ha.name_at d j old hj hold
    rw [hj, ← hname]
    constructor
    · intro heq
      rw [Option.some.inj heq, hi]
    · intro heq
      rw [(hc.dims old (List.mem_of_getElem? hold)).nameAt_inj heq hi]
  constructor
  · intro h
    constructor
    · rintro ⟨ns, v⟩ he hns
      obtain ⟨a, ha, hk, -⟩ := (mem_namedNumbers_of_moves hc hc' hm hmove hnamed).1 (h.numbers he)
      exact hk ((hat ha).2 hns)
    · rintro ⟨ns, s⟩ he hns
      obtain ⟨a, ha, hk, -⟩ := (mem_namedTexts_of_moves hc hc' hm hmove hnamed).1 (h.texts he)
      exact hk ((hat ha).2 hns)
  · intro h
    constructor
    · rintro ⟨ns, v⟩ he
      obtain ⟨a, ha, hv⟩ := (mem_namedNumbers hc).1 he
      refine (mem_namedNumbers_of_moves hc hc' hm hmove hnamed).2 ⟨a, ha, fun hk => ?_, hv⟩
      exact h.numbers _ he ((hat ha).1 hk)
    · rintro ⟨ns, s⟩ he
      obtain ⟨a, ha, hs⟩ := (mem_namedTexts hc).1 he
      refine (mem_namedTexts_of_moves hc hc' hm hmove hnamed).2 ⟨a, ha, fun hk => ?_, hs⟩
      exact h.texts _ he ((hat ha).1 hk)

end Cube

end Epiphany
