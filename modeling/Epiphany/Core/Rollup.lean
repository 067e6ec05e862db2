import Epiphany.Core.CubeRuns
/-!
# Rollups — the leaves under an element

The expansion of an element is the breadth-first traversal of `Worklist`
over the edges of its consolidations, each node taken with the weight of
the path that reached it first. So the weights of an element depend only on
the elements under it: when an edit keeps those, by name, with their kinds
and their edges in order, it keeps the weights (`sameRollup_of_untouched`).
-/

namespace Epiphany

namespace Dimension

open Relation Worklist

variable {d d' : Dimension}

/-- The weighted edges a rollup follows: those of a consolidation. -/
def rollupEdges (d : Dimension) (i : Nat) : List (Nat × Int) :=
  if d.kindAt i = some .consolidated then (d.edgesOf i).map fun e => (e.child, e.weight) else []

/-- The nodes a rollup visits, with the weights it reaches them by. -/
def rollup (d : Dimension) (i : Nat) : List (Nat × Int) :=
  visits .queue d.rollupEdges saturatingMul (d.edgeCount + 1) [(i, 1)] []

theorem leafWeightsLoop_eq (n : Nat) (queue : List (Nat × Int)) (visited : List Nat)
    (acc : FinMap Nat Int) :
    d.leafWeightsLoop n queue visited acc =
      ((visits .queue d.rollupEdges saturatingMul n queue visited).filter
        fun x => d.kindAt x.1 = some .leaf).foldl (fun m x => m.insert x.1 x.2) acc := by
  induction n generalizing queue visited acc with
  | zero => rfl
  | succ n ih =>
    rcases queue with _ | ⟨⟨node, weight⟩, queue⟩
    · rfl
    · rw [leafWeightsLoop]
      by_cases hv : node ∈ visited
      · rw [if_pos hv, visits_cons_of_mem hv, ih]
      · rw [if_neg hv, visits_cons_of_not_mem hv, List.filter_cons]
        have hkind : d.elements[node]?.map Element.kind = d.kindAt node := rfl
        rw [hkind]
        rcases hk : d.kindAt node with _ | k
        · simp only [ih, along, rollupEdges, hk]
          simp [Discipline.join]
        · rcases k with _ | _ | _
          · simp only [ih, along, rollupEdges, hk]
            simp [Discipline.join]
          · simp only [ih, along, rollupEdges, hk]
            simp [Discipline.join]
          · simp only [ih, along, rollupEdges, hk]
            simp [Discipline.join, Function.comp_def]

/-- **The weights of an element** are those its rollup finds at numeric
leaves, without the zeros. -/
theorem mem_leafWeights {i : Nat} {l : List (Nat × Int)} (h : d.leafWeights i = .ok l) {j : Nat}
    {w : Int} : (j, w) ∈ l ↔ (j, w) ∈ d.rollup i ∧ d.kindAt j = some .leaf ∧ w ≠ 0 := by
  simp only [leafWeights, bind_eq_ok, Except.ok.injEq] at h
  obtain ⟨-, -, rfl⟩ := h
  rw [List.mem_filter, FinMap.mem_toList, leafWeightsLoop_eq, FinMap.get_foldl_insert]
  · simp [rollup, and_assoc]
  · refine FinMap.functional_of_nodup ?_
    exact (visits_nodup _ _ _).1.sublist (List.filter_sublist.map _)

theorem leafWeights_isOk {i : Nat} (hi : i < d.elements.length) :
    ∃ l, d.leafWeights i = .ok l := by
  refine ⟨_, bind_eq_ok.2 ⟨d.elements[i], ?_, rfl⟩⟩
  rw [element_eq_ok, List.getElem?_eq_getElem hi]

theorem functional_leafWeights {i : Nat} {l : List (Nat × Int)} (h : d.leafWeights i = .ok l) :
    FinMap.Functional l := by
  intro j v w hv hw
  exact FinMap.functional_of_nodup (visits_nodup _ _ _).1 j v w ((mem_leafWeights h).1 hv).1
    ((mem_leafWeights h).1 hw).1

/-- A rollup stays under its element. -/
theorem reach_of_mem_rollup {i : Nat} : ∀ x ∈ d.rollup i, ReflTransGen d.IsChild i x.1 := by
  refine visits_subset (fun v hv e he => ?_) fun x hx => ?_
  · rw [rollupEdges] at he
    split_ifs at he
    · obtain ⟨x, hx, rfl⟩ := List.mem_map.1 he
      exact hv.tail ⟨x, hx, rfl⟩
    · simp at he
  · rw [List.mem_singleton.1 hx]

theorem rollupEdges_length_le (d : Dimension) (i : Nat) :
    (d.rollupEdges i).length ≤ (d.edgesOf i).length := by
  rw [rollupEdges]
  split_ifs <;> simp

/-- Fuel beyond the edges changes nothing. -/
theorem rollup_eq_of_le {i n : Nat} (hn : d.edgeCount + 1 ≤ n) :
    d.rollup i = visits .queue d.rollupEdges saturatingMul n [(i, 1)] [] := by
  have hwork := work_start d.rollupEdges (d.rollupEdges_length_le) (i, (1 : Int))
  refine visits_fuel (fun v hv => ?_) hwork (hwork.trans hn)
  have : d.edgesOf v = [] := edgesOf_of_le (Nat.not_lt.1 fun h => hv (Finset.mem_range.2 h))
  simp [rollupEdges, this]

/-! ## Untouched subtrees -/

/-- Two elements of two dimensions have the same name. -/
def SameName (d d' : Dimension) (i i' : Nat) : Prop :=
  ∃ n, d.nameAt i = some n ∧ d'.nameAt i' = some n

theorem SameName.lt {i i' : Nat} (h : SameName d d' i i') :
    i < d.elements.length ∧ i' < d'.elements.length := by
  obtain ⟨n, hi, hi'⟩ := h
  exact ⟨lt_of_nameAt hi, lt_of_nameAt hi'⟩

theorem SameName.right_unique (hd' : d'.WF) {i j j' : Nat} (h : SameName d d' i j)
    (h' : SameName d d' i j') : j = j' := by
  obtain ⟨n, hi, hj⟩ := h
  obtain ⟨n', hi', hj'⟩ := h'
  obtain rfl := Option.some.inj (hi.symm.trans hi')
  exact hd'.nameAt_inj hj hj'

theorem SameName.left_unique (hd : d.WF) {i i' j : Nat} (h : SameName d d' i j)
    (h' : SameName d d' i' j) : i = i' := by
  obtain ⟨n, hi, hj⟩ := h
  obtain ⟨n', hi', hj'⟩ := h'
  obtain rfl := Option.some.inj (hj.symm.trans hj')
  exact hd.nameAt_inj hi hi'

/-- **A subtree an edit did not touch.** Every element under `i` is there,
by name, with its kind and its edges in order. -/
def Untouched (d d' : Dimension) (i : Nat) : Prop :=
  ∀ k, ReflTransGen d.IsChild i k → ∃ k', SameName d d' k k' ∧ d'.kindAt k' = d.kindAt k ∧
    List.Forall₂ (fun e e' => e'.weight = e.weight ∧ SameName d d' e.child e'.child)
      (d.edgesOf k) (d'.edgesOf k')

/-- Two weight lists agree by name. -/
def SameRollup (d d' : Dimension) (l l' : List (Nat × Int)) : Prop :=
  ∀ n w, (∃ j, d.nameAt j = some n ∧ (j, w) ∈ l) ↔ ∃ j, d'.nameAt j = some n ∧ (j, w) ∈ l'

/-- **An untouched subtree keeps its weights.** -/
theorem sameRollup_of_untouched (hd : d.WF) (hd' : d'.WF) {i i' : Nat}
    (hi : SameName d d' i i') (h : Untouched d d' i) {l l' : List (Nat × Int)}
    (hl : d.leafWeights i = .ok l) (hl' : d'.leafWeights i' = .ok l') :
    SameRollup d d' l l' := by
  classical
  -- relabel each element under `i` by its position in the other dimension
  let R : Nat → Prop := fun k => ReflTransGen d.IsChild i k
  let f : Nat → Nat := fun k => if h : ∃ k', SameName d d' k k' then h.choose else 0
  have hf : ∀ {k k'}, SameName d d' k k' → f k = k' := by
    intro k k' hk
    have hex : ∃ k', SameName d d' k k' := ⟨k', hk⟩
    simp only [f, dif_pos hex]
    exact hex.choose_spec.right_unique hd' hk
  have hname : ∀ k, R k → SameName d d' k (f k) := by
    intro k hk
    obtain ⟨k', hk', -, -⟩ := h k hk
    rwa [hf hk']
  have hkind : ∀ k, R k → d'.kindAt (f k) = d.kindAt k := by
    intro k hk
    obtain ⟨k', hk', hkind, -⟩ := h k hk
    rwa [hf hk']
  have hR : ∀ v, R v → ∀ e ∈ d.rollupEdges v, R e.1 := by
    intro v hv e he
    rw [rollupEdges] at he
    split_ifs at he
    · obtain ⟨x, hx, rfl⟩ := List.mem_map.1 he
      exact hv.tail ⟨x, hx, rfl⟩
    · simp at he
  have hinj : ∀ u v, R u → R v → f u = f v → u = v := fun u v hu hv huv =>
    (hname u hu).left_unique hd (huv ▸ hname v hv)
  have hedges : ∀ v, R v → d'.rollupEdges (f v) = (d.rollupEdges v).map fun e => (f e.1, e.2) := by
    intro v hv
    obtain ⟨k', hk', hkind, hed⟩ := h v hv
    rw [hf hk', rollupEdges, rollupEdges, hkind]
    split_ifs
    · rw [List.map_map]
      clear hk' hkind
      generalize d.edgesOf v = es, d'.edgesOf k' = es' at hed
      induction hed with
      | nil => rfl
      | cons he _ ih =>
        rw [List.map_cons, List.map_cons, ih, ← hf he.2, he.1]
        rfl
    · rfl
  have hrollup : d'.rollup i' = (d.rollup i).map fun x => (f x.1, x.2) := by
    rw [rollup_eq_of_le (d := d') (le_max_right (d.edgeCount + 1) (d'.edgeCount + 1)),
      rollup_eq_of_le (d := d) (le_max_left (d.edgeCount + 1) (d'.edgeCount + 1)), ← hf hi]
    have hrel : visits .queue d'.rollupEdges saturatingMul (max (d.edgeCount + 1)
        (d'.edgeCount + 1)) ([(i, (1 : Int))].map fun x => (f x.1, x.2)) (([] : List Nat).map f) =
        (visits .queue d.rollupEdges saturatingMul (max (d.edgeCount + 1) (d'.edgeCount + 1))
          [(i, (1 : Int))] []).map fun x => (f x.1, x.2) := by
      refine visits_relabel hR hinj hedges (fun x hx => ?_) (fun v hv => ?_)
      · rw [List.mem_singleton.1 hx]
      · simp at hv
    exact hrel
  intro n w
  constructor
  · rintro ⟨j, hj, hjl⟩
    obtain ⟨hmem, hleaf, hw⟩ := (mem_leafWeights hl).1 hjl
    have hRj : R j := reach_of_mem_rollup (j, _) hmem
    obtain ⟨m, hm, hm'⟩ := hname j hRj
    obtain rfl := Option.some.inj (hj.symm.trans hm)
    refine ⟨f j, hm', (mem_leafWeights hl').2 ⟨?_, (hkind j hRj).trans hleaf, hw⟩⟩
    rw [hrollup]
    exact List.mem_map.2 ⟨(j, w), hmem, rfl⟩
  · rintro ⟨j', hj', hjl⟩
    obtain ⟨hmem, hleaf, hw⟩ := (mem_leafWeights hl').1 hjl
    rw [hrollup] at hmem
    obtain ⟨⟨j, w'⟩, hold, heq⟩ := List.mem_map.1 hmem
    obtain ⟨rfl, rfl⟩ := Prod.mk.inj heq
    have hRj : R j := reach_of_mem_rollup (j, _) hold
    obtain ⟨m, hm, hm'⟩ := hname j hRj
    obtain rfl := Option.some.inj (hj'.symm.trans hm')
    exact ⟨j, hm, (mem_leafWeights hl).2 ⟨hold, (hkind j hRj).symm.trans hleaf, hw⟩⟩

end Dimension

end Epiphany
