import Epiphany.Core.Consolidate
/-!
# Sparse consolidation — the stored cells and the fed leaves

`Cube.consolidateFed` visits the stored cells and a list of fed
coordinates, each coordinate once, and adds up those under the queried
one.
-/

namespace Epiphany

open Sections

namespace Cube

section Walk

variable {m : Type → Type} [Monad m]

/-- Visit a coordinate: its term is added unless it is outside the lists or
was visited before. -/
def addSeen (weights : List (FinMap Nat Int)) (leafValue : Coord → m Fixed)
    (st : List Coord × I128) (cell : Coord) : m (List Coord × I128) :=
  match cellWeight weights cell 1 with
  | none => pure st
  | some w =>
    if cell ∈ st.1 then pure st
    else do
      let value ← leafValue cell
      pure (cell :: st.1, st.2 + w * value.toI128)

/-- Consolidate a coordinate over the stored cells and the fed leaves. -/
def consolidateFed (lift : {α : Type} → Except ModelError α → m α) (c : Cube) (coord : Coord)
    (fed : List Coord) (leafValue : Coord → m Fixed) : m Fixed := do
  lift (c.checkCoord coord)
  if c.allNumericLeaf coord then leafValue coord
  else
    let perDim ← lift (c.perDimension coord)
    let weights := perDim.map FinMap.collect
    -- the count of the dense walk, for the same overflow
    let total ← lift (okOr (comboCount (weights.map fun w => w.toList)) .overflow)
    if total = 0 then pure Fixed.zero
    else
      let stored ← (c.cellEntries.map Prod.fst).foldlM (addSeen weights leafValue) ([], 0)
      let visited ← fed.foldlM (addSeen weights leafValue) stored
      lift (narrow visited.2)

end Walk

/-- The count depends on the lists' lengths only. -/
theorem comboCount_lengths (perDim : List (List (Nat × Int))) :
    comboCount perDim = (perDim.map List.length).foldlM checkedMul 1 := by
  rw [comboCount, List.foldlM_map]

/-- A list that names each leaf once is as long as its map. -/
theorem length_toList_collect {l : List (Nat × Int)} (h : (l.map Prod.fst).Nodup) :
    (FinMap.collect l).toList.length = l.length :=
  (FinMap.toList_perm_iff h.of_map fun _ _ =>
    FinMap.get_collect (FinMap.functional_of_nodup h)).length_eq

/-- The count of the maps is the count of the lists. -/
theorem comboCount_collect {perDim : List (List (Nat × Int))}
    (h : ∀ l ∈ perDim, (l.map Prod.fst).Nodup) :
    comboCount ((perDim.map FinMap.collect).map fun w => w.toList) = comboCount perDim := by
  rw [comboCount_lengths, comboCount_lengths, List.map_map, List.map_map]
  congr 1
  exact List.map_congr_left fun l hl => length_toList_collect (h l hl)

end Cube

end Epiphany
