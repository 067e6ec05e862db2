import Epiphany.Core.CubeInv
/-!
# Cubes — the moves behind the edits

Three moves cover every edit of a cube's dimensions. Replacing a dimension
by one of the same length moves nothing; dropping an element's cells keeps
a coordinate that does not address it; and renumbering a dimension moves
the one component of each coordinate. Growth re-packs the cells without
moving them.
-/

namespace Epiphany

namespace CellStore

variable {V : Type} {s s' s'' : CellStore V} {dims dims' dims'' : List Dimension}
variable {move move' : Coord → Option Coord}

/-- Images compose. -/
theorem Image.trans (h : Image s s' dims dims' move) (h' : Image s' s'' dims' dims'' move')
    (hin : ∀ c c', InRange dims c → move c = some c' → InRange dims' c') :
    Image s s'' dims dims'' fun c => (move c).bind move' := by
  refine ⟨h'.holds, fun c v hc => (h'.get c v hc).trans ?_⟩
  constructor
  · rintro ⟨b, hb, hv, hbc⟩
    obtain ⟨a, ha, hav, hab⟩ := (h.get b v hb).1 hv
    exact ⟨a, ha, hav, by simp [hab, hbc]⟩
  · rintro ⟨a, ha, hav, hac⟩
    obtain ⟨b, hab, hbc⟩ := Option.bind_eq_some_iff.1 hac
    have hb := hin a b ha hab
    exact ⟨b, hb, (h.get b v hb).2 ⟨a, ha, hav, hab⟩, hbc⟩

end CellStore

/-- A coordinate stays unless it addresses an element of one dimension. -/
def avoid (d element : Nat) (coord : Coord) : Option Coord :=
  if coord[d]? = some element then none else some coord

theorem avoid_eq_some {d element : Nat} {a b : Coord} :
    avoid d element a = some b ↔ a[d]? ≠ some element ∧ a = b := by
  rw [avoid]
  split_ifs with h <;> simp [h]

namespace Cube

open CellStore

variable {c : Cube} {d : Nat} {old dim : Dimension}

/-! ## Same length -/

theorem moves_setDimension (hc : c.WF) (hold : c.dimensions[d]? = some old)
    (hlen : dim.elements.length = old.elements.length) :
    Moves c (c.setDimension d dim) some some := by
  have hlayout := layout_set hold hlen
  have hin : ∀ a, InRange c.dimensions a → InRange (c.dimensions.set d dim) a :=
    fun a ha => inRange_set hold hlen.ge ha
  exact
    { name := rfl
      pool := rfl
      layout := hc.layout.trans hlayout.symm
      cells := image_same hc.cells hlayout hin
      strings := image_same hc.strings hlayout hin }

/-- Legal coordinates stay legal when kinds stay. -/
theorem numeric_set {dims : List Dimension} (hold : dims[d]? = some old)
    (hkind : ∀ i, old.kindAt i = some .leaf → dim.kindAt i = some .leaf) {a : Coord}
    (h : NumericCoord dims a) : NumericCoord (dims.set d dim) a :=
  forall₂_set_right h fun i hi => hkind i ((forall₂_iff_getElem?.1 h).2 d i old hi hold)

theorem string_set {dims : List Dimension} (hold : dims[d]? = some old)
    (hkind : ∀ i k, k ≠ .consolidated → old.kindAt i = some k → dim.kindAt i = some k)
    {a : Coord} (h : StringCoord dims a) : StringCoord (dims.set d dim) a := by
  refine ⟨forall₂_set_right h.leaves fun i hi => ?_, ?_⟩
  · rcases (forall₂_iff_getElem?.1 h.leaves).2 d i old hi hold with hk | hk
    · exact Or.inl (hkind i _ (by simp) hk)
    · exact Or.inr (hkind i _ (by simp) hk)
  · obtain ⟨d', i, x, hi, hx, hk⟩ := h.string
    by_cases hd : d = d'
    · subst hd
      obtain rfl := Option.some.inj (hold.symm.trans hx)
      refine ⟨d, i, dim, hi, ?_, hkind i _ (by simp) hk⟩
      rw [List.getElem?_set_self (List.getElem?_eq_some_iff.1 hx).1]
    · exact ⟨d', i, x, hi, by rwa [List.getElem?_set_ne hd], hk⟩

/-- An edit of one dimension that keeps every kind in place keeps the
invariant. -/
theorem WF.setDimension (hc : c.WF) (hold : c.dimensions[d]? = some old) (hdim : dim.WF)
    (hlen : dim.elements.length = old.elements.length)
    (hkind : ∀ i, dim.kindAt i = old.kindAt i) : (c.setDimension d dim).WF := by
  refine hc.of_moves (moves_setDimension hc hold hlen) (set_ne_nil hc.nonempty)
    (forall_mem_set hc.dims hdim) ?_ ?_
  · rintro a b ha ⟨⟩
    exact numeric_set hold (fun i hi => (hkind i).trans hi) ha
  · rintro a b ha ⟨⟩
    exact string_set hold (fun i k _ hi => (hkind i).trans hi) ha

/-! ## Dropping cells -/

/-- Rebuilding stores in place after a dimension was replaced by one of the
same length. -/
theorem moves_rebuild (hc : c.WF) (hold : c.dimensions[d]? = some old)
    (hlen : dim.elements.length = old.elements.length) (numeric strings : Bool)
    (keep : Coord → Option Coord) (hkeep : ∀ a b, keep a = some b → a = b) :
    Moves c ((c.setDimension d dim).rebuildStores (c.setDimension d dim).layout numeric strings
        keep)
      (if numeric then keep else some) (if strings then keep else some) := by
  have hm := moves_setDimension hc hold hlen
  have hin : ∀ a b, InRange c.dimensions a → some a = some b →
      InRange (c.setDimension d dim).dimensions b := by
    rintro a b ha ⟨⟩
    exact inRange_set hold hlen.ge ha
  have himage : ∀ {V : Type} {s : CellStore V},
      Image s s c.dimensions (c.setDimension d dim).dimensions some →
      Image s (s.rebuild (c.setDimension d dim).layout (c.setDimension d dim).rank
        (c.setDimension d dim).layout keep) c.dimensions (c.setDimension d dim).dimensions keep := by
    intro V s hs
    rw [hm.layout]
    refine hs.trans (image_rebuild hs.holds ?_ ?_) hin
    · intro a b v ha _ hab
      exact hkeep a b hab ▸ ha
    · intro a b x _ _ ha hb
      rw [hkeep a x ha, hkeep b x hb]
  refine { name := rfl, pool := rfl, layout := hm.layout, cells := ?_, strings := ?_ }
  · cases numeric
    · exact hm.cells
    · exact himage hm.cells
  · cases strings
    · exact hm.strings
    · exact himage hm.strings

theorem moves_dropCells (hc : c.WF) (hold : c.dimensions[d]? = some old)
    (hlen : dim.elements.length = old.elements.length) (element : Nat) (numeric strings : Bool) :
    Moves c ((c.setDimension d dim).dropCellsForElement d element numeric strings)
      (if numeric then avoid d element else some) (if strings then avoid d element else some) :=
  moves_rebuild hc hold hlen numeric strings (avoid d element) fun _ _ h => (avoid_eq_some.1 h).2

/-- Away from one element, legal coordinates stay legal. -/
theorem numeric_set_avoid {dims : List Dimension} (hold : dims[d]? = some old) {element : Nat}
    (hkind : ∀ i ≠ element, dim.kindAt i = old.kindAt i) {a b : Coord}
    (h : NumericCoord dims a) (hab : avoid d element a = some b) :
    NumericCoord (dims.set d dim) b := by
  obtain ⟨hne, rfl⟩ := avoid_eq_some.1 hab
  refine forall₂_set_right h fun i hi => ?_
  rw [hkind i fun h' => hne (h' ▸ hi)]
  exact (forall₂_iff_getElem?.1 h).2 d i old hi hold

theorem string_set_avoid {dims : List Dimension} (hold : dims[d]? = some old) {element : Nat}
    (hkind : ∀ i ≠ element, dim.kindAt i = old.kindAt i) {a b : Coord}
    (h : StringCoord dims a) (hab : avoid d element a = some b) :
    StringCoord (dims.set d dim) b := by
  obtain ⟨hne, rfl⟩ := avoid_eq_some.1 hab
  refine ⟨forall₂_set_right h.leaves fun i hi => ?_, ?_⟩
  · rw [hkind i fun h' => hne (h' ▸ hi)]
    exact (forall₂_iff_getElem?.1 h.leaves).2 d i old hi hold
  · obtain ⟨d', i, x, hi, hx, hk⟩ := h.string
    by_cases hd : d = d'
    · subst hd
      obtain rfl := Option.some.inj (hold.symm.trans hx)
      refine ⟨d, i, dim, hi, ?_, ?_⟩
      · rw [List.getElem?_set_self (List.getElem?_eq_some_iff.1 hx).1]
      · rw [hkind i fun h' => hne (h' ▸ hi), hk]
    · exact ⟨d', i, x, hi, by rwa [List.getElem?_set_ne hd], hk⟩

/-- Dropping every cell of the element whose kind changed keeps the
invariant, whatever the new kind. -/
theorem WF.dropCells (hc : c.WF) (hold : c.dimensions[d]? = some old) (hdim : dim.WF)
    (hlen : dim.elements.length = old.elements.length) {element : Nat}
    (hkind : ∀ i ≠ element, dim.kindAt i = old.kindAt i) :
    ((c.setDimension d dim).dropCellsForElement d element true true).WF :=
  hc.of_moves (moves_dropCells hc hold hlen element true true) (set_ne_nil hc.nonempty)
    (forall_mem_set hc.dims hdim) (fun _ _ ha hab => numeric_set_avoid hold hkind ha hab)
    fun _ _ ha hab => string_set_avoid hold hkind ha hab

/-! ## Renumbering -/

theorem remapCoord_eq_some {toNew : Renumbering} {a b : Coord} :
    remapCoord d toNew a = some b ↔
      ∃ i j, a[d]? = some i ∧ Dimension.moved toNew i = some j ∧ b = a.set d j := by
  simp only [remapCoord, Option.map_eq_some_iff, Option.bind_eq_some_iff]
  constructor
  · rintro ⟨j, ⟨i, hi, hj⟩, rfl⟩
    exact ⟨i, j, hi, hj, rfl⟩
  · rintro ⟨i, j, hi, hj, rfl⟩
    exact ⟨j, ⟨i, hi, hj⟩, rfl⟩

theorem remapCoord_inj {toNew : Renumbering}
    (hinj : ∀ i i' j, Dimension.moved toNew i = some j → Dimension.moved toNew i' = some j → i = i')
    {a b x : Coord} (ha : remapCoord d toNew a = some x)
    (hb : remapCoord d toNew b = some x) : a = b := by
  obtain ⟨i, j, hi, hj, rfl⟩ := remapCoord_eq_some.1 ha
  obtain ⟨i', j', hi', hj', heq⟩ := remapCoord_eq_some.1 hb
  have hda := (List.getElem?_eq_some_iff.1 hi).1
  have hdb := (List.getElem?_eq_some_iff.1 hi').1
  have hjj : j = j' := by
    have := congrArg (fun l : Coord => l[d]?) heq
    simpa [List.getElem?_set_self, hda, hdb] using this
  subst hjj
  obtain rfl := hinj i i' j hj hj'
  refine List.ext_getElem? fun k => ?_
  by_cases hk : d = k
  · subst hk
    rw [hi, hi']
  · have := congrArg (fun l : Coord => l[k]?) heq
    simpa [List.getElem?_set_ne hk] using this

theorem moves_remap (hc : c.WF) (hold : c.dimensions[d]? = some old) {toNew : Renumbering}
    (hmoved : ∀ i j, i < old.elements.length → Dimension.moved toNew i = some j →
      j < dim.elements.length)
    (hinj : ∀ i i' j, Dimension.moved toNew i = some j → Dimension.moved toNew i' = some j →
      i = i') :
    Moves c ((c.setDimension d dim).remapCellsForDimension d toNew) (remapCoord d toNew)
      (remapCoord d toNew) := by
  have hrank : (c.setDimension d dim).rank = c.dimensions.length := by
    simp [rank, Cube.setDimension]
  have himage : ∀ {V : Type} {s : CellStore V}, s.Holds c.dimensions →
      Image s (s.rebuild c.layout (c.setDimension d dim).rank
        (Layout.new (c.setDimension d dim).dimensions) (remapCoord d toNew)) c.dimensions
        (c.setDimension d dim).dimensions (remapCoord d toNew) := by
    intro V s hs
    rw [hrank, hc.layout]
    refine image_rebuild hs ?_ ?_
    · intro a b v ha _ hab
      obtain ⟨i, j, hi, hj, rfl⟩ := remapCoord_eq_some.1 hab
      refine forall₂_set ha fun _ => hmoved i j ?_ hj
      exact (forall₂_iff_getElem?.1 ha).2 d i old hi hold
    · exact fun a b x _ _ hax hbx => remapCoord_inj hinj hax hbx
  exact { name := rfl, pool := rfl, layout := rfl, cells := himage hc.cells,
          strings := himage hc.strings }


theorem WF.remap (hc : c.WF) (hold : c.dimensions[d]? = some old) (hdim : dim.WF)
    {toNew : Renumbering} (hr : Dimension.Renumbers old dim toNew) :
    ((c.setDimension d dim).remapCellsForDimension d toNew).WF := by
  have hkind : ∀ i j, Dimension.moved toNew i = some j → dim.kindAt j = old.kindAt i :=
    fun i j hij => congrArg (Option.map Element.kind) (hr.elements i j hij)
  refine hc.of_moves (moves_remap hc hold (fun i j hi hij => hr.lt hi hij) hr.inj)
    (set_ne_nil hc.nonempty) (forall_mem_set hc.dims hdim) ?_ ?_
  · intro a b ha hab
    obtain ⟨i, j, hi, hj, rfl⟩ := remapCoord_eq_some.1 hab
    refine forall₂_set ha fun _ => ?_
    rw [hkind i j hj]
    exact (forall₂_iff_getElem?.1 ha).2 d i old hi hold
  · intro a b ha hab
    obtain ⟨i, j, hi, hj, rfl⟩ := remapCoord_eq_some.1 hab
    have hd := (List.getElem?_eq_some_iff.1 hi).1
    have hd' := (List.getElem?_eq_some_iff.1 hold).1
    refine ⟨forall₂_set ha.leaves fun _ => ?_, ?_⟩
    · rw [hkind i j hj]
      exact (forall₂_iff_getElem?.1 ha.leaves).2 d i old hi hold
    · obtain ⟨d', i', x, hi', hx, hk⟩ := ha.string
      by_cases hdd : d = d'
      · subst hdd
        obtain rfl := Option.some.inj (hi.symm.trans hi')
        obtain rfl := Option.some.inj (hold.symm.trans hx)
        refine ⟨d, j, dim, by rw [List.getElem?_set_self hd], ?_, (hkind i j hj).trans hk⟩
        exact List.getElem?_set_self hd'
      · exact ⟨d', i', x, by rwa [List.getElem?_set_ne hdd],
          by rw [← hx]; exact List.getElem?_set_ne hdd, hk⟩

end Cube

end Epiphany
