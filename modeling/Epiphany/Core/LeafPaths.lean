import Epiphany.Common.Shortest
import Epiphany.Core.ExactRead
/-!
# Leaf expansion — the leaves under an element, and their paths

The expansion of an element lists the numeric leaves under it in index order,
each with the weights along the first path to it: the shortest, and of those
the first by the declaration of its edges. The weights are multiplied edge by
edge within 64 bits, which is their product if that fits.
-/

namespace Epiphany

namespace Dimension

open Relation Worklist

/-! ## Paths of a hierarchy -/

/-- The element at the end of a path of edge positions. Only consolidations
have edges to follow. -/
def pathEnd (d : Dimension) : List Nat → Nat → Option Nat
  | [], i => some i
  | k :: path, i =>
    if d.kindAt i = some .consolidated then
      (d.edgesOf i)[k]?.bind fun e => d.pathEnd path e.child
    else none

/-- The weights along a path. -/
def pathWeights (d : Dimension) : List Nat → Nat → List Int
  | [], _ => []
  | k :: path, i =>
    match (d.edgesOf i)[k]? with
    | none => []
    | some e => e.weight :: d.pathWeights path e.child

/-- The shortest path to an element, the first by its edges if there are
several. -/
def IsFirstPath (d : Dimension) (i : Nat) (path : List Nat) (j : Nat) : Prop :=
  d.pathEnd path i = some j ∧ ∀ path', d.pathEnd path' i = some j → rank path ≤ rank path'

/-- The weights of a path, multiplied within 64 bits from its start on. -/
def pathProduct (d : Dimension) (i : Nat) (path : List Nat) : Int :=
  (d.pathWeights path i).foldl saturatingMul 1

variable {d : Dimension}

theorem follow_rollupEdges (path : List Nat) (i : Nat) (w : Int) :
    follow d.rollupEdges saturatingMul path (i, w) =
      (d.pathEnd path i).map fun j => (j, (d.pathWeights path i).foldl saturatingMul w) := by
  induction path generalizing i w with
  | nil => rfl
  | cons k path ih =>
    rw [follow, pathEnd, pathWeights, rollupEdges]
    by_cases hk : d.kindAt i = some .consolidated
    · rw [if_pos hk, if_pos hk, List.getElem?_map]
      rcases (d.edgesOf i)[k]? with _ | e
      · rfl
      · exact ih e.child _
    · rw [if_neg hk, if_neg hk]
      rfl

theorem isFirst_iff {i : Nat} {path : List Nat} {j : Nat} :
    IsFirst d.rollupEdges saturatingMul (i, 1) path j ↔ d.IsFirstPath i path j := by
  have hend : ∀ path, (∃ p, follow d.rollupEdges saturatingMul path (i, 1) = some (j, p)) ↔
      d.pathEnd path i = some j := by
    intro path
    rw [follow_rollupEdges]
    rcases d.pathEnd path i with _ | j' <;> simp
  unfold IsFirst IsFirstPath
  rw [hend]
  refine and_congr_right fun _ => forall_congr' fun path' => ?_
  rw [← hend, forall_exists_index]

theorem rollupEdges_of_not_mem {v : Nat} (hv : v ∉ Finset.range d.children.length) :
    d.rollupEdges v = [] := by
  have hnil : d.edgesOf v = [] := edgesOf_of_le (Nat.not_lt.1 fun h => hv (Finset.mem_range.2 h))
  simp [rollupEdges, hnil]

/-- A rollup visits what paths lead to, with the product along the first. -/
theorem mem_rollup_iff {i j : Nat} {w : Int} : (j, w) ∈ d.rollup i ↔
    ∃ path, d.IsFirstPath i path j ∧ w = d.pathProduct i path := by
  rw [rollup, mem_visits_queue_iff (fun _ => rollupEdges_of_not_mem)
    (work_start d.rollupEdges d.rollupEdges_length_le _)]
  refine exists_congr fun path => ?_
  rw [isFirst_iff, follow_rollupEdges, and_comm]
  refine and_congr_right fun h => ?_
  rw [h.1]
  simp [pathProduct, eq_comm]

/-- Where a path leads, a first path leads. -/
theorem exists_isFirstPath {i j : Nat} {path : List Nat} (h : d.pathEnd path i = some j) :
    ∃ first, d.IsFirstPath i first j := by
  have hfollow := follow_rollupEdges (d := d) path i 1
  rw [h] at hfollow
  obtain ⟨first, hfirst⟩ := exists_isFirst (fun _ => rollupEdges_of_not_mem)
    (work_start d.rollupEdges d.rollupEdges_length_le _) hfollow
  exact ⟨first, isFirst_iff.1 hfirst⟩

theorem IsFirstPath.unique {i j : Nat} {a b : List Nat} (ha : d.IsFirstPath i a j)
    (hb : d.IsFirstPath i b j) : a = b :=
  rank_injective (le_antisymm (ha.2 b hb.1) (hb.2 a ha.1))

/-- Multiplying within 64 bits is exact where the product fits. -/
theorem agrees_pathProduct (i : Nat) (path : List Nat) :
    Cube.Agrees (d.pathProduct i path) (d.pathWeights path i).prod := by
  have hfold : ∀ (l : List Int) (w e : Int), Cube.Agrees w e →
      Cube.Agrees (l.foldl saturatingMul w) (l.foldl (· * ·) e) := by
    intro l
    induction l with
    | nil => exact fun _ _ h => h
    | cons x l ih => exact fun w e h => ih _ _ (h.step _ _ _)
  have h := hfold (d.pathWeights path i) 1 1 fun _ => rfl
  rwa [← List.prod_eq_foldl] at h

/-- In a hierarchy where only consolidations have children, paths lead to
what is under an element. -/
theorem reach_iff_path (hd : d.WF) {i j : Nat} :
    ReflTransGen d.IsChild i j ↔ ∃ path, d.pathEnd path i = some j := by
  constructor
  · intro h
    induction h using ReflTransGen.head_induction_on with
    | refl => exact ⟨[], rfl⟩
    | @head a b hab _ ih =>
      obtain ⟨e, he, rfl⟩ := hab
      obtain ⟨path, hpath⟩ := ih
      obtain ⟨k, hk⟩ := List.getElem?_of_mem he
      refine ⟨k :: path, ?_⟩
      rw [pathEnd, if_pos (hd.parents a (List.ne_nil_of_mem he)), hk]
      exact hpath
  · rintro ⟨path, h⟩
    induction path generalizing i with
    | nil =>
      obtain rfl : i = j := by simpa [pathEnd] using h
      exact .refl
    | cons k path ih =>
      rw [pathEnd] at h
      by_cases hk : d.kindAt i = some .consolidated
      · rw [if_pos hk] at h
        obtain ⟨e, he, h⟩ := Option.bind_eq_some_iff.1 h
        exact .head ⟨e, List.mem_of_getElem? he, rfl⟩ (ih h)
      · rw [if_neg hk] at h
        exact absurd h (by simp)

/-! ## The expansion -/

/-- The expansion of an element: the leaves that paths lead to, in the order
of their indices, each with the product along its first path, if that is not
zero. -/
structure IsExpansion (d : Dimension) (i : Nat) (l : List (Nat × Int)) : Prop where
  ordered : (l.map Prod.fst).Pairwise (· < ·)
  reached : ∀ j ∈ l.map Prod.fst, d.kindAt j = some .leaf ∧ ∃ path, d.pathEnd path i = some j
  weights : ∀ j path, d.kindAt j = some .leaf → d.pathEnd path i = some j →
    ∃ first, d.IsFirstPath i first j ∧
      ∀ w, (j, w) ∈ l ↔ w = d.pathProduct i first ∧ w ≠ 0

theorem ordered_leafWeights {i : Nat} {l : List (Nat × Int)} (h : d.leafWeights i = .ok l) :
    (l.map Prod.fst).Pairwise (· < ·) := by
  simp only [leafWeights, bind_eq_ok, Except.ok.injEq] at h
  obtain ⟨-, -, rfl⟩ := h
  refine List.Pairwise.sublist (List.filter_sublist.map _) ?_
  rw [List.pairwise_map]
  exact Std.ExtTreeMap.ordered_keys_toList.imp fun h => Nat.compare_eq_lt.1 h

theorem isExpansion_leafWeights {i : Nat} {l : List (Nat × Int)} (h : d.leafWeights i = .ok l) :
    d.IsExpansion i l where
  ordered := ordered_leafWeights h
  reached j hj := by
    obtain ⟨⟨j, w⟩, hjw, rfl⟩ := List.mem_map.1 hj
    obtain ⟨hroll, hleaf, -⟩ := (mem_leafWeights h).1 hjw
    obtain ⟨path, hpath, -⟩ := mem_rollup_iff.1 hroll
    exact ⟨hleaf, path, hpath.1⟩
  weights j path hleaf hpath := by
    obtain ⟨first, hfirst⟩ := exists_isFirstPath hpath
    refine ⟨first, hfirst, fun w => ?_⟩
    rw [mem_leafWeights h, mem_rollup_iff]
    constructor
    · rintro ⟨⟨path', hpath', hw⟩, -, hne⟩
      rw [hpath'.unique hfirst] at hw
      exact ⟨hw, hne⟩
    · rintro ⟨hw, hne⟩
      exact ⟨⟨first, hfirst, hw⟩, hleaf, hne⟩

/-- The queue of the expansion after some turns of its loop. -/
def leafWeightsQueue (d : Dimension) :
    Nat → List (Nat × Int) → List Nat → List (Nat × Int)
  | 0, queue, _ => queue
  | _ + 1, [], _ => []
  | n + 1, (node, weight) :: queue, visited =>
    if node ∈ visited then d.leafWeightsQueue n queue visited
    else
      match d.elements[node]?.map Element.kind with
      | some .consolidated =>
        d.leafWeightsQueue n
          (queue ++ (d.edgesOf node).map fun e => (e.child, saturatingMul weight e.weight))
          (node :: visited)
      | _ => d.leafWeightsQueue n queue (node :: visited)

theorem leafWeightsQueue_eq (n : Nat) (queue : List (Nat × Int)) (visited : List Nat) :
    d.leafWeightsQueue n queue visited =
      pendingAfter .queue d.rollupEdges saturatingMul n queue visited := by
  induction n generalizing queue visited with
  | zero => rfl
  | succ n ih =>
    rcases queue with _ | ⟨⟨node, weight⟩, queue⟩
    · rfl
    · rw [leafWeightsQueue, pendingAfter]
      by_cases hv : node ∈ visited
      · rw [if_pos hv, if_pos hv, ih]
      · rw [if_neg hv, if_neg hv]
        have hkind : d.elements[node]?.map Element.kind = d.kindAt node := rfl
        rw [hkind]
        by_cases hk : d.kindAt node = some .consolidated
        · simp only [hk, ih, along, rollupEdges, if_true, List.map_map]
          rfl
        · have hjoin : Discipline.join .queue (along d.rollupEdges saturatingMul node weight) queue =
              queue := by
            simp [Discipline.join, along, rollupEdges, hk]
          rw [hjoin, ← ih]
          split
          · exact absurd ‹_› hk
          · rfl

/-- The queue of the expansion is empty before its fuel is. -/
theorem leafWeightsLoop_eq_of_le {i n : Nat} (hn : d.edgeCount + 1 ≤ n) :
    d.leafWeightsQueue n [(i, 1)] [] = [] ∧
      d.leafWeightsLoop n [(i, 1)] [] ∅ = d.leafWeightsLoop (d.edgeCount + 1) [(i, 1)] [] ∅ := by
  constructor
  · rw [leafWeightsQueue_eq]
    exact pendingAfter_eq_nil (fun _ => rollupEdges_of_not_mem)
      ((work_start d.rollupEdges d.rollupEdges_length_le _).trans hn)
  · have hvisits := rollup_eq_of_le (d := d) (i := i) hn
    rw [leafWeightsLoop_eq, leafWeightsLoop_eq, ← hvisits]
    rfl

/-- **Leaf expansion.** Every element has one, whatever the edges: after a
turn for each edge and one for the start the queue is empty, and more turns
change nothing. Where the product of a path fits 64 bits, it is what the
path's leaf is listed with. -/
theorem leafWeights_isExpansion (d : Dimension) {i : Nat} (hi : i < d.elements.length) :
    (∃ l, d.leafWeights i = .ok l ∧ d.IsExpansion i l) ∧
      (d.WF → ∀ j, ReflTransGen d.IsChild i j ↔ ∃ path, d.pathEnd path i = some j) ∧
      (∀ path, |(d.pathWeights path i).prod| ≤ i64Max →
        d.pathProduct i path = (d.pathWeights path i).prod) ∧
      ∀ n, d.edgeCount + 1 ≤ n → d.leafWeightsQueue n [(i, 1)] [] = [] ∧
        d.leafWeightsLoop n [(i, 1)] [] ∅ = d.leafWeightsLoop (d.edgeCount + 1) [(i, 1)] [] ∅ := by
  obtain ⟨l, hl⟩ := leafWeights_isOk hi
  exact ⟨⟨l, hl, isExpansion_leafWeights hl⟩, fun hd j => reach_iff_path hd, agrees_pathProduct i,
    fun n hn => leafWeightsLoop_eq_of_le hn⟩

/-- A diamond with a cycle in it: the leaf is taken over the shorter path,
and the leaf behind an edge of weight zero is left out. -/
def tangled : Dimension :=
  { new "Tangled" with
    elements := [⟨"Total", .consolidated, false⟩, ⟨"Part", .consolidated, false⟩,
      ⟨"Sales", .leaf, false⟩, ⟨"Idle", .leaf, false⟩]
    children := [[⟨1, 2⟩, ⟨2, -1⟩, ⟨3, 0⟩], [⟨0, 1⟩, ⟨2, 3⟩], [], []] }

theorem isExpansion_tangled : ∃ l, tangled.leafWeights 0 = .ok l ∧ tangled.IsExpansion 0 l :=
  (leafWeights_isExpansion tangled (i := 0) (by decide)).1

/-- Two edges in a row, whose weights multiply past 64 bits. -/
def steep : Except ModelError Dimension := do
  let d := (((new "Region").addElement "North" .leaf).addElement "Europe" .consolidated).addElement
    "World" .consolidated
  let d ← d.addChild 2 1 (2 ^ 62)
  d.addChild 1 0 4

/-- The leaf is not listed with the product of the weights on any path. -/
theorem leafWeights_ne_product_steep : ∃ d, steep = .ok d ∧ d.leafWeights 2 = .ok [(0, i64Max)] ∧
    (∃ path, d.pathEnd path 2 = some 0) ∧
      ∀ path, d.pathEnd path 2 = some 0 → (d.pathWeights path 2).prod ≠ i64Max := by
  obtain ⟨d, hd, h⟩ := exists_ok_of_any (by decide +kernel : steep.toOption.any (fun d =>
    d.leafWeights 2 = .ok [(0, i64Max)] ∧ d.children = [[], [⟨0, 4⟩], [⟨1, 2 ^ 62⟩]] ∧
      d.elements.map Element.kind = [.leaf, .consolidated, .consolidated]) = true)
  obtain ⟨hweights, hchildren, hkinds⟩ := of_decide_eq_true h
  have hkind : ∀ i, d.kindAt i = [.leaf, .consolidated, .consolidated][i]? := by
    intro i
    rw [kindAt, ← List.getElem?_map, hkinds]
  refine ⟨d, hd, hweights, ⟨[0, 0], ?_⟩, ?_⟩
  · simp [pathEnd, hkind, edgesOf, hchildren]
  · rintro path hpath
    rcases path with _ | ⟨_ | k, path⟩
    · simp [pathEnd] at hpath
    · rcases path with _ | ⟨_ | k, path⟩
      · simp [pathEnd, hkind, edgesOf, hchildren] at hpath
      · rcases path with _ | ⟨k, path⟩
        · simp [pathWeights, edgesOf, hchildren, i64Max]
        · simp [pathEnd, hkind, edgesOf, hchildren] at hpath
      · simp [pathEnd, hkind, edgesOf, hchildren] at hpath
    · simp [pathEnd, hkind, edgesOf, hchildren] at hpath

end Dimension

end Epiphany
