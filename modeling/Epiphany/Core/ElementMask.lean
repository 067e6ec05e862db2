import Epiphany.Core.Cube
/-!
# Element masks — the elements a caller may not see

A mask holds, per dimension position, a bit for each element. Outside its
bits nothing is denied.
-/

namespace Epiphany

structure ElementMask where
  denied : List (List Bool)
deriving DecidableEq

namespace ElementMask

/-- The mask of the indices denied in each dimension, of which the first list
gives the sizes. -/
def fromDenied (counts : List Nat) (denied : List (List Nat)) : ElementMask where
  denied := counts.mapIdx fun d count =>
    (List.range count).map fun i => decide (i ∈ (denied[d]?).getD [])

variable (m : ElementMask)

def isEmpty : Bool := m.denied.all fun bits => !bits.any id

/-- The denied elements, as pairs of a dimension's position and an index. -/
def deniedPairs : List (Nat × Nat) :=
  m.denied.zipIdx.flatMap fun x =>
    x.1.zipIdx.filterMap fun y => if y.1 then some (x.2, y.2) else none

def dimHasDenials (dim : Nat) : Bool := ((m.denied[dim]?).getD []).any id

def indexDenied (dim index : Nat) : Bool := ((m.denied[dim]?.getD [])[index]?).getD false

/-- Whether a coordinate names a denied member, its components not expanded. -/
def deniesLeaf (coord : Coord) : Bool :=
  coord.zipIdx.any fun x => m.indexDenied x.2 x.1

/-- Whether a member is, or rolls up, a denied one. -/
def memberDenied (cube : Cube) (dim member : Nat) : Bool :=
  if m.dimHasDenials dim then
    if m.indexDenied dim member then true
    else
      (cube.dimensions[dim]?.bind fun d => (d.leafWeights member).toOption).any fun weights =>
        weights.any fun w => m.indexDenied dim w.1
  else false

def deniesMember (cube : Cube) (dim member : Nat) : Bool := m.memberDenied cube dim member

/-- Whether a coordinate names, or rolls up, a denied member. -/
def denies (cube : Cube) (coord : Coord) : Bool :=
  coord.zipIdx.any fun x => m.memberDenied cube x.2 x.1

/-! ## Hidden members -/

/-- A mask hides a member that it denies, or of which it denies a leaf. -/
inductive Hides (m : ElementMask) (cube : Cube) (k i : Nat) : Prop
  | denied (h : m.indexDenied k i = true) : Hides m cube k i
  | below {d : Dimension} {weights : List (Nat × Int)} {w : Nat × Int}
      (hd : cube.dimensions[k]? = some d) (hweights : d.leafWeights i = .ok weights)
      (hw : w ∈ weights) (h : m.indexDenied k w.1 = true) : Hides m cube k i

/-- A dimension with a denied element has denials. -/
theorem dimHasDenials_of_indexDenied {m : ElementMask} {k i : Nat}
    (h : m.indexDenied k i = true) : m.dimHasDenials k = true := by
  unfold indexDenied at h
  unfold dimHasDenials
  rcases hbit : ((m.denied[k]?).getD [])[i]? with _ | bit
  · rw [hbit] at h
    cases h
  · rw [hbit, Option.getD_some] at h
    exact List.any_eq_true.2 ⟨bit, List.mem_of_getElem? hbit, h⟩

theorem memberDenied_eq_true {m : ElementMask} {cube : Cube} {k i : Nat} :
    m.memberDenied cube k i = true ↔ m.Hides cube k i := by
  unfold memberDenied
  constructor
  · intro h
    split_ifs at h with hdim hdenied
    · exact .denied hdenied
    · obtain ⟨weights, hweights, hany⟩ := (Option.any_eq_true _ _).1 h
      obtain ⟨d, hd, hleaf⟩ := Option.bind_eq_some_iff.1 hweights
      obtain ⟨w, hw, hdenied⟩ := List.any_eq_true.1 hany
      rcases hok : d.leafWeights i with e | l
      · rw [hok] at hleaf
        cases hleaf
      · rw [hok] at hleaf
        obtain rfl := Option.some.inj hleaf
        exact .below hd hok hw hdenied
  · intro h
    cases h with
    | denied hdenied => rw [if_pos (dimHasDenials_of_indexDenied hdenied), if_pos hdenied]
    | below hd hweights hw hdenied =>
      rw [if_pos (dimHasDenials_of_indexDenied hdenied)]
      split_ifs
      · rfl
      · rw [hd, Option.bind_some, hweights]
        exact List.any_eq_true.2 ⟨_, hw, hdenied⟩

/-! ## Denied pairs -/

theorem mem_deniedPairs {m : ElementMask} {d i : Nat} :
    (d, i) ∈ m.deniedPairs ↔ m.indexDenied d i = true := by
  unfold deniedPairs indexDenied
  simp only [List.mem_flatMap, List.mem_filterMap, Prod.exists, List.mem_zipIdx_iff_getElem?]
  constructor
  · rintro ⟨bits, d', hd, bit, i', hi, h⟩
    split_ifs at h with hbit
    obtain ⟨rfl, rfl⟩ : d' = d ∧ i' = i := by simpa using h
    simp [hd, hi, hbit]
  · intro h
    rcases hd : m.denied[d]? with _ | bits
    · simp [hd] at h
    · rcases hi : bits[i]? with _ | bit
      · simp [hd, hi] at h
      · refine ⟨bits, d, hd, bit, i, hi, ?_⟩
        have hbit : bit = true := by simpa [hd, hi] using h
        rw [hbit, if_pos rfl]

/-- A mask denies what its lists hold, within the sizes. -/
theorem indexDenied_fromDenied {counts : List Nat} {denied : List (List Nat)} {d i : Nat} :
    (fromDenied counts denied).indexDenied d i = true ↔
      (∃ count, counts[d]? = some count ∧ i < count) ∧ i ∈ (denied[d]?).getD [] := by
  unfold fromDenied indexDenied
  rcases hd : counts[d]? with _ | count
  · simp [hd]
  · rcases Nat.lt_or_ge i count with hi | hi
    · simp [hd, hi]
    · simp [hd, hi]

/-- Two masks over the same sizes with the same denied pairs are equal. -/
theorem fromDenied_congr {counts : List Nat} {denied denied' : List (List Nat)}
    (h : (fromDenied counts denied).deniedPairs = (fromDenied counts denied').deniedPairs) :
    fromDenied counts denied = fromDenied counts denied' := by
  have hindex : ∀ d i, (fromDenied counts denied).indexDenied d i =
      (fromDenied counts denied').indexDenied d i := by
    intro d i
    rw [Bool.eq_iff_iff, ← mem_deniedPairs, ← mem_deniedPairs, h]
  unfold fromDenied at hindex ⊢
  congr 1
  refine List.ext_getElem? fun d => ?_
  rw [List.getElem?_mapIdx, List.getElem?_mapIdx]
  rcases hd : counts[d]? with _ | count
  · rfl
  · simp only [Option.map_some, Option.some.injEq]
    refine List.map_congr_left fun i hi => ?_
    have := hindex d i
    simpa [indexDenied, hd, List.mem_range.1 hi] using this

/-- A mask that denies an element is not empty. -/
theorem isEmpty_eq_false {m : ElementMask} {d i : Nat} (h : m.indexDenied d i = true) :
    m.isEmpty = false := by
  unfold indexDenied at h
  rcases hd : m.denied[d]? with _ | bits
  · simp [hd] at h
  · rcases hi : bits[i]? with _ | bit
    · simp [hd, hi] at h
    · have hbit : bit = true := by simpa [hd, hi] using h
      unfold isEmpty
      rw [List.all_eq_false]
      refine ⟨bits, List.mem_of_getElem? hd, ?_⟩
      simpa using hbit ▸ List.mem_of_getElem? hi

end ElementMask

end Epiphany
