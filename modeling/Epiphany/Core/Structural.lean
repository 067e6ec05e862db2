import Epiphany.Core.Renumber
/-!
# Dimensions — deleting, inserting and reordering

The three edits that renumber elements have the shape of `Renumbers`, so
each keeps the invariant. For a reorder the work is in its map: a list of
the right length without unknown or repeated names sends every element
somewhere, since finitely many distinct positions leave none over.
-/

namespace Epiphany

namespace Dimension

variable {d d' : Dimension} {toNew : Renumbering}

theorem newIndex_of_moved {i j : Nat} (h : moved toNew i = some j) : newIndex toNew i = j := by
  simp only [moved] at h
  simp [newIndex, h]

/-- Renumbering the edges that are kept, in two steps or in one. -/
theorem filterMap_moveEdge (edges : List Edge) :
    edges.filterMap (moveEdge toNew) =
      (edges.filter fun e => (moved toNew e.child).isSome).map (renumberEdge toNew) := by
  rw [← List.filterMap_eq_map', List.filterMap_filter]
  refine congrFun (congrArg _ (funext fun e => ?_)) edges
  rcases h : moved toNew e.child with _ | c
  · simp [moveEdge, h]
  · simp [moveEdge, h, renumberEdge, newIndex_of_moved h]

theorem map_renumberEdge {edges : List Edge} (h : ∀ e ∈ edges, (moved toNew e.child).isSome) :
    edges.map (renumberEdge toNew) = edges.filterMap (moveEdge toNew) := by
  rw [filterMap_moveEdge, List.filter_eq_self.2 h]

/-! ## Deleting -/

theorem moved_deleteMap {n e i j : Nat} :
    moved (deleteMap n e) i = some j ↔
      i < n ∧ i ≠ e ∧ j = if i < e then i else i - 1 := by
  simp only [moved, deleteMap, List.getElem?_map]
  by_cases hi : i < n
  · rw [List.getElem?_range hi]
    rcases lt_trichotomy i e with h | h | h
    · simp [hi, h, h.ne, eq_comm]
    · simp [h]
    · simp [hi, h.ne, h.ne', Nat.not_lt.2 h.le, eq_comm]
  · simp [hi]

theorem delete_ok {element : Nat} (h : d.delete element = .ok (d', toNew)) :
    element < d.elements.length ∧ d.edgesOf element = [] ∧
      toNew = deleteMap d.elements.length element ∧
      d' = reindexNames { d with
        elements := d.elements.eraseIdx element
        attrValues := d.attrValues.eraseIdx element
        children := (d.children.eraseIdx element).map fun edges =>
          (edges.filter fun e => e.child ≠ element).map (renumberEdge toNew) } := by
  simp only [delete, bind_eq_ok, element_eq_ok, ite_error_eq_ok, ne_eq, Decidable.not_not,
    Except.ok.injEq, Prod.mk.injEq] at h
  obtain ⟨el, hel, hnil, rfl, rfl⟩ := h
  exact ⟨(List.getElem?_eq_some_iff.1 hel).1, hnil, rfl, rfl⟩

/-- A row after erasing one stood one further on if it was past it. -/
theorem getElem?_eraseIdx_moved {α : Type} (xs : List α) {e i : Nat} (hie : i ≠ e) :
    (xs.eraseIdx e)[if i < e then i else i - 1]? = xs[i]? := by
  rw [List.getElem?_eraseIdx]
  split_ifs with h1 h2
  · rfl
  · omega
  · rw [Nat.sub_add_cancel (by omega)]

theorem renumbers_delete (hd : d.WF) {e : Nat} (he : e < d.elements.length) :
    Renumbers d { d with
      elements := d.elements.eraseIdx e
      attrValues := d.attrValues.eraseIdx e
      children := (d.children.eraseIdx e).map fun edges =>
        (edges.filter fun x => x.child ≠ e).map (renumberEdge (deleteMap d.elements.length e)) }
      (deleteMap d.elements.length e) := by
  -- every new index is that of an old element other than the deleted one
  have hsplit : ∀ j : Nat, ∃ i, i ≠ e ∧ j = if i < e then i else i - 1 := by
    intro j
    by_cases hj : j < e
    · exact ⟨j, hj.ne, by simp [hj]⟩
    · exact ⟨j + 1, by omega, by rw [if_neg (by omega)]; rfl⟩
  refine
    { name := rfl, attributes := rfl, attr_index := rfl
      children_length := by
        simp [List.length_eraseIdx, hd.children_length, he]
      values_length := by
        simp [List.length_eraseIdx, hd.values_length, he]
      length := by simp [deleteMap]
      inj := fun i i' j hi hi' => ?_
      elements := fun i j hij => ?_
      edges := fun i j hij => ?_
      values := fun i j hij => ?_
      fresh := fun j => ?_
      tracked := fun i j n hi hj => ?_
      names := fun i j n hi hj => ?_ }
  · obtain ⟨-, hne, rfl⟩ := moved_deleteMap.1 hi
    obtain ⟨-, hne', heq⟩ := moved_deleteMap.1 hi'
    split_ifs at heq <;> omega
  · obtain ⟨-, hne, rfl⟩ := moved_deleteMap.1 hij
    exact getElem?_eraseIdx_moved _ hne
  · obtain ⟨-, hne, rfl⟩ := moved_deleteMap.1 hij
    rw [filterMap_moveEdge]
    simp only [edgesOf, List.getD, List.getElem?_map, getElem?_eraseIdx_moved _ hne]
    rcases hrow : d.children[i]? with _ | edges
    · rfl
    · simp only [Option.map_some, Option.getD_some]
      refine congrArg _ (List.filter_congr fun x hx => ?_)
      have hlt : x.child < d.elements.length := hd.edges_lt i x (by rwa [edgesOf_eq hrow])
      rw [Bool.eq_iff_iff, decide_eq_true_eq, Option.isSome_iff_exists]
      constructor
      · exact fun h => ⟨_, moved_deleteMap.2 ⟨hlt, h, rfl⟩⟩
      · rintro ⟨c, hc⟩
        exact (moved_deleteMap.1 hc).2.1
  · obtain ⟨-, hne, rfl⟩ := moved_deleteMap.1 hij
    simp only [valuesOf, List.getD, getElem?_eraseIdx_moved _ hne]
  · obtain ⟨i, hne, rfl⟩ := hsplit j
    by_cases hi : i < d.elements.length
    · exact Or.inl ⟨i, moved_deleteMap.2 ⟨hi, hne, rfl⟩⟩
    · refine Or.inr ⟨?_, ?_⟩
      · simp only [edgesOf, List.getD, List.getElem?_map, getElem?_eraseIdx_moved _ hne]
        rw [List.getElem?_eq_none (by rw [hd.children_length]; omega)]
        rfl
      · simp only [valuesOf, List.getD, getElem?_eraseIdx_moved _ hne]
        rw [List.getElem?_eq_none (by rw [hd.values_length]; omega)]
        rfl
  · obtain ⟨k, hk0, rfl⟩ := hsplit j
    simp only [nameAt, getElem?_eraseIdx_moved _ hk0] at hj
    obtain rfl := hd.nameAt_inj hi hj
    exact moved_deleteMap.2 ⟨lt_of_nameAt hi, hk0, rfl⟩
  · obtain ⟨i, hi0, rfl⟩ := hsplit i
    obtain ⟨j, hj0, rfl⟩ := hsplit j
    simp only [nameAt, getElem?_eraseIdx_moved _ hi0] at hi
    simp only [nameAt, getElem?_eraseIdx_moved _ hj0] at hj
    rw [hd.nameAt_inj hi hj]

theorem WF.delete (hd : d.WF) {element : Nat} (h : d.delete element = .ok (d', toNew)) :
    d'.WF := by
  obtain ⟨hlt, -, rfl, rfl⟩ := delete_ok h
  exact (renumbers_delete hd hlt).wf hd

/-! ## Inserting -/

theorem moved_insertMap {n p i j : Nat} :
    moved (insertMap n p) i = some j ↔ i < n ∧ j = if i < p then i else i + 1 := by
  simp only [moved, insertMap, List.getElem?_map]
  by_cases hi : i < n
  · rw [List.getElem?_range hi]
    by_cases h : i < p <;> simp [hi, h, eq_comm]
  · simp [hi]

theorem insertAt_ok {name : String} {kind : ElementKind} {position : Nat}
    (h : d.insertAt name kind position = .ok (d', toNew)) :
    d.indexByName[name]? = none ∧
      toNew = insertMap d.elements.length (min position d.elements.length) ∧
      d' = reindexNames { d with
        elements := d.elements.insertIdx (min position d.elements.length) ⟨name, kind, false⟩
        attrValues := d.attrValues.insertIdx (min position d.elements.length) ∅
        children := (d.children.insertIdx (min position d.elements.length) []).map
          (·.map (renumberEdge toNew)) } := by
  simp only [insertAt, ite_error_eq_ok, Option.isSome_iff_exists, not_exists, Except.ok.injEq,
    Prod.mk.injEq] at h
  obtain ⟨hnone, rfl, rfl⟩ := h
  exact ⟨Option.eq_none_iff_forall_ne_some.2 hnone, rfl, rfl⟩

theorem getElem?_insertIdx_moved {α : Type} (xs : List α) (a : α) {p i : Nat} :
    (xs.insertIdx p a)[if i < p then i else i + 1]? = xs[i]? := by
  rw [List.getElem?_insertIdx]
  split_ifs <;> first | rfl | omega

theorem renumbers_insert (hd : d.WF) {name : String} (hnew : d.indexByName[name]? = none)
    (kind : ElementKind) {p : Nat} (hp : p ≤ d.elements.length) :
    Renumbers d { d with
      elements := d.elements.insertIdx p ⟨name, kind, false⟩
      attrValues := d.attrValues.insertIdx p ∅
      children := (d.children.insertIdx p []).map
        (·.map (renumberEdge (insertMap d.elements.length p))) }
      (insertMap d.elements.length p) := by
  have hsplit : ∀ j : Nat, j = p ∨ ∃ i : Nat, j = if i < p then i else i + 1 := by
    intro j
    rcases lt_trichotomy j p with hj | hj | hj
    · exact Or.inr ⟨j, by simp [hj]⟩
    · exact Or.inl hj
    · exact Or.inr ⟨j - 1, by rw [if_neg (by omega)]; omega⟩
  have hself : (d.elements.insertIdx p ⟨name, kind, false⟩)[p]? =
      some ⟨name, kind, false⟩ := by
    rw [List.getElem?_insertIdx]
    simp [hp]
  -- the new name is not among the old ones
  have hold : ∀ i, d.nameAt i ≠ some name := fun i hi => by
    simp [(hd.index name i).2 hi] at hnew
  refine
    { name := rfl, attributes := rfl, attr_index := rfl
      children_length := by
        simp [List.length_insertIdx, hd.children_length, hp]
      values_length := by
        simp [List.length_insertIdx, hd.values_length, hp]
      length := by simp [insertMap]
      inj := fun i i' j hi hi' => ?_
      elements := fun i j hij => ?_
      edges := fun i j hij => ?_
      values := fun i j hij => ?_
      fresh := fun j => ?_
      tracked := fun i j n hi hj => ?_
      names := fun i j n hi hj => ?_ }
  · obtain ⟨-, rfl⟩ := moved_insertMap.1 hi
    obtain ⟨-, heq⟩ := moved_insertMap.1 hi'
    split_ifs at heq <;> omega
  · obtain ⟨-, rfl⟩ := moved_insertMap.1 hij
    exact getElem?_insertIdx_moved _ _
  · obtain ⟨-, rfl⟩ := moved_insertMap.1 hij
    rw [← map_renumberEdge fun x hx =>
      Option.isSome_iff_exists.2 ⟨_, moved_insertMap.2 ⟨hd.edges_lt i x hx, rfl⟩⟩]
    simp only [edgesOf, List.getD, List.getElem?_map, getElem?_insertIdx_moved]
    rcases d.children[i]? with _ | edges <;> rfl
  · obtain ⟨-, rfl⟩ := moved_insertMap.1 hij
    simp only [valuesOf, List.getD, getElem?_insertIdx_moved]
  · rcases hsplit j with rfl | ⟨i, rfl⟩
    · refine Or.inr ⟨?_, ?_⟩
      · simp only [edgesOf, List.getD, List.getElem?_map, List.getElem?_insertIdx]
        simp [hd.children_length, hp]
      · simp only [valuesOf, List.getD, List.getElem?_insertIdx]
        simp [hd.values_length, hp]
    · by_cases hi : i < d.elements.length
      · exact Or.inl ⟨i, moved_insertMap.2 ⟨hi, rfl⟩⟩
      · refine Or.inr ⟨?_, ?_⟩
        · simp only [edgesOf, List.getD, List.getElem?_map, getElem?_insertIdx_moved]
          rw [List.getElem?_eq_none (by rw [hd.children_length]; omega)]
          rfl
        · simp only [valuesOf, List.getD, getElem?_insertIdx_moved]
          rw [List.getElem?_eq_none (by rw [hd.values_length]; omega)]
          rfl
  · rcases hsplit j with rfl | ⟨k, rfl⟩
    · simp only [nameAt, hself, Option.map_some, Option.some.injEq] at hj
      exact absurd (hj ▸ hi) (hold i)
    · simp only [nameAt, getElem?_insertIdx_moved] at hj
      obtain rfl := hd.nameAt_inj hi hj
      exact moved_insertMap.2 ⟨lt_of_nameAt hi, rfl⟩
  · rcases hsplit i with rfl | ⟨i, rfl⟩ <;> rcases hsplit j with rfl | ⟨j, rfl⟩
    · rfl
    · simp only [nameAt, hself, Option.map_some, Option.some.injEq] at hi
      simp only [nameAt, getElem?_insertIdx_moved] at hj
      exact absurd (hi ▸ hj) (hold j)
    · simp only [nameAt, hself, Option.map_some, Option.some.injEq] at hj
      simp only [nameAt, getElem?_insertIdx_moved] at hi
      exact absurd (hj ▸ hi) (hold i)
    · simp only [nameAt, getElem?_insertIdx_moved] at hi hj
      rw [hd.nameAt_inj hi hj]

theorem WF.insertAt (hd : d.WF) {name : String} {kind : ElementKind} {position : Nat}
    (h : d.insertAt name kind position = .ok (d', toNew)) : d'.WF := by
  obtain ⟨hnew, rfl, rfl⟩ := insertAt_ok h
  exact (renumbers_insert hd hnew kind (Nat.min_le_right _ _)).wf hd

/-! ## Reordering -/

section Scatter

variable {α : Type}

@[simp] theorem place_none (out : List (Option α)) (a : α) : place out (a, none) = out := rfl

@[simp] theorem place_some (out : List (Option α)) (a : α) (j : Nat) :
    place out (a, some j) = out.set j (some a) := rfl

theorem length_foldl_place (l : List (α × Option Nat)) (out : List (Option α)) :
    (l.foldl place out).length = out.length := by
  induction l generalizing out with
  | nil => rfl
  | cons x l ih =>
    rw [List.foldl_cons, ih]
    rcases x with ⟨a, _ | j⟩ <;> simp

theorem getElem?_foldl_place_of_ne {l : List (α × Option Nat)} {j : Nat}
    (h : ∀ x ∈ l, x.2 ≠ some j) (out : List (Option α)) :
    (l.foldl place out)[j]? = out[j]? := by
  induction l generalizing out with
  | nil => rfl
  | cons x l ih =>
    rw [List.foldl_cons, ih fun y hy => h y (List.mem_cons_of_mem _ hy)]
    rcases x with ⟨a, _ | t⟩
    · rfl
    · exact List.getElem?_set_ne fun ht => h (a, some t) List.mem_cons_self (congrArg some ht)

/-- Writing items at distinct targets: each target holds its item. -/
theorem getElem?_foldl_place {l : List (α × Option Nat)}
    (hinj : ∀ x y : α × Option Nat, x ∈ l → y ∈ l → x.2 = y.2 → x.2.isSome → x = y)
    {a : α} {j : Nat} (ha : (a, some j) ∈ l) {out : List (Option α)} (hj : j < out.length) :
    (l.foldl place out)[j]? = some (some a) := by
  induction l generalizing out with
  | nil => simp at ha
  | cons x l ih =>
    rw [List.foldl_cons]
    have hinj' := fun x y hx hy => hinj x y (List.mem_cons_of_mem _ hx) (List.mem_cons_of_mem _ hy)
    by_cases hl : (a, some j) ∈ l
    · exact ih hinj' hl (by rw [← length_foldl_place [x] out] at hj; exact hj)
    · obtain rfl := (List.mem_cons.1 ha).resolve_right hl
      rw [getElem?_foldl_place_of_ne]
      · simp [hj]
      · intro y hy hyj
        have := hinj (a, some j) y List.mem_cons_self (List.mem_cons_of_mem _ hy) hyj.symm rfl
        exact hl (this ▸ hy)

theorem getElem?_reduceOption {l : List (Option α)} (h : ∀ o ∈ l, o.isSome) (j : Nat) :
    l.reduceOption[j]? = l[j]?.join := by
  induction l generalizing j with
  | nil => simp
  | cons o l ih =>
    obtain ⟨a, rfl⟩ := Option.isSome_iff_exists.1 (h o List.mem_cons_self)
    rw [List.reduceOption_cons_of_some]
    rcases j with _ | j
    · rfl
    · simpa using ih (fun o ho => h o (List.mem_cons_of_mem _ ho)) j

/-- A permutation of positions: every index has a place, no two share one,
and every place is taken. -/
structure IsPermutation (toNew : Renumbering) : Prop where
  lt : ∀ i j, moved toNew i = some j → j < toNew.length
  inj : ∀ i i' j, moved toNew i = some j → moved toNew i' = some j → i = i'
  total : ∀ i < toNew.length, ∃ j, moved toNew i = some j
  onto : ∀ j < toNew.length, ∃ i, moved toNew i = some j

theorem moved_lt {i j : Nat} (h : moved toNew i = some j) : i < toNew.length :=
  (List.getElem?_eq_some_iff.1 (moved_eq_some.1 h)).1

/-- **Scattering** by a permutation puts each item at its new position. -/
theorem getElem?_scatter (hp : IsPermutation toNew) {xs : List α} (hlen : xs.length = toNew.length)
    {i j : Nat} (h : moved toNew i = some j) : (scatter toNew xs)[j]? = xs[i]? := by
  have hmem : ∀ {x : α} {t : Option Nat}, (x, t) ∈ xs.zip toNew →
      ∃ i : Nat, xs[i]? = some x ∧ toNew[i]? = some t := by
    intro x t hx
    obtain ⟨i, hi⟩ := List.mem_iff_getElem?.1 hx
    exact ⟨i, List.getElem?_zip_eq_some.1 hi⟩
  have hinj : ∀ x y : α × Option Nat, x ∈ xs.zip toNew → y ∈ xs.zip toNew → x.2 = y.2 →
      x.2.isSome → x = y := by
    rintro ⟨x, t⟩ ⟨y, t'⟩ hx hy rfl hsome
    obtain ⟨i, hix, hit⟩ := hmem hx
    obtain ⟨i', hiy, hit'⟩ := hmem hy
    obtain ⟨j, rfl⟩ := Option.isSome_iff_exists.1 hsome
    obtain rfl := hp.inj i i' j (moved_eq_some.2 hit) (moved_eq_some.2 hit')
    exact Prod.ext (Option.some.inj (hix.symm.trans hiy)) rfl
  have hat : ∀ {i j}, moved toNew i = some j →
      ∃ x, xs[i]? = some x ∧
        ((xs.zip toNew).foldl place (List.replicate xs.length none))[j]? = some (some x) := by
    intro i j hij
    have hx : xs[i]? = some _ := List.getElem?_eq_getElem (hlen ▸ moved_lt hij)
    refine ⟨_, hx, getElem?_foldl_place hinj ?_ ?_⟩
    · exact List.mem_iff_getElem?.2 ⟨i, List.getElem?_zip_eq_some.2 ⟨hx, moved_eq_some.1 hij⟩⟩
    · rw [List.length_replicate, hlen]
      exact hp.lt i j hij
  obtain ⟨x, hx, hxj⟩ := hat h
  rw [scatter, getElem?_reduceOption (fun o ho => ?_) j, hxj, hx]
  · rfl
  -- every position is some index's, so every slot was written
  · obtain ⟨k, hk⟩ := List.mem_iff_getElem?.1 ho
    have hklt := (List.getElem?_eq_some_iff.1 hk).1
    rw [length_foldl_place, List.length_replicate, hlen] at hklt
    obtain ⟨i', hi'⟩ := hp.onto k hklt
    obtain ⟨y, -, hy⟩ := hat hi'
    rw [hy] at hk
    cases hk
    rfl

theorem length_scatter (hp : IsPermutation toNew) {xs : List α} (hlen : xs.length = toNew.length) :
    (scatter toNew xs).length = toNew.length := by
  refine le_antisymm ?_ ?_
  · refine (List.reduceOption_length_le _).trans ?_
    rw [length_foldl_place, List.length_replicate, hlen]
  · by_contra h
    obtain ⟨i, hi⟩ := hp.onto (scatter toNew xs).length (by omega)
    have := getElem?_scatter hp hlen hi
    rw [List.getElem?_eq_none le_rfl, eq_comm, List.getElem?_eq_none_iff, hlen] at this
    exact absurd (moved_lt hi) (by omega)

end Scatter

/-- What the loop has placed it keeps, and each name it consumes it places
next. -/
theorem reorderLoop_ok {names : List String} {pos : Nat} {start : Renumbering}
    (h : d.reorderLoop names pos start = .ok toNew) :
    toNew.length = start.length ∧
    (∀ old new, moved start old = some new → moved toNew old = some new) ∧
    (∀ (k : Nat) name, names[k]? = some name →
      ∃ old, d.indexOf name = some old ∧ (old < start.length → moved toNew old = some (pos + k))) ∧
    ∀ old new, moved toNew old = some new → moved start old = some new ∨
      ∃ (k : Nat) (name : String), new = pos + k ∧ names[k]? = some name ∧
        d.indexOf name = some old := by
  -- on the names still to place, with the next place and the slots filled so far
  induction names generalizing pos start with
  | nil =>
    simp only [reorderLoop, Except.ok.injEq] at h
    subst h
    exact ⟨rfl, fun _ _ h => h, by simp, fun _ _ h => Or.inl h⟩
  | cons name names ih =>
    simp only [reorderLoop, bind_eq_ok, okOr_eq_ok, ite_error_eq_ok] at h
    obtain ⟨at', hat, hfree, h⟩ := h
    have hset : ∀ old, moved (start.set at' (some pos)) old =
        if at' = old ∧ at' < start.length then some pos else moved start old := by
      intro old
      simp only [moved, List.getElem?_set]
      by_cases h1 : at' = old
      · subst h1
        by_cases h2 : at' < start.length
        · simp [h2]
        · simp [h2]
      · simp [h1]
    obtain ⟨hlen, hkeep, hplace, honly⟩ := ih h
    rw [List.length_set] at hlen hplace
    refine ⟨hlen, fun old new hold => hkeep old new ?_, fun k n hk => ?_, fun old new hnew => ?_⟩
    · rw [hset, if_neg]
      · exact hold
      · rintro ⟨rfl, -⟩
        rw [moved] at hold
        simp [hold] at hfree
    · rcases k with _ | k
      · cases hk
        refine ⟨at', hat, fun hlt => hkeep at' pos ?_⟩
        rw [hset, if_pos ⟨rfl, hlt⟩]
      · obtain ⟨old, hold, hmv⟩ := hplace k n hk
        refine ⟨old, hold, fun hlt => ?_⟩
        rw [hmv hlt]
        congr 1
        omega
    · rcases honly old new hnew with h' | ⟨k, n, rfl, hk, hn⟩
      · rw [hset] at h'
        split_ifs at h' with hold
        · cases h'
          exact Or.inr ⟨0, name, rfl, rfl, hold.1 ▸ hat⟩
        · exact Or.inl h'
      · exact Or.inr ⟨k + 1, n, by omega, hk, hn⟩

theorem reorder_ok {newOrder : List String} (h : d.reorder newOrder = .ok (d', toNew)) :
    newOrder.length = d.elements.length ∧
      d.reorderLoop newOrder 0 (List.replicate d.elements.length none) = .ok toNew ∧
      d' = d.applyPermutation toNew := by
  simp only [reorder, ite_error_eq_ok, ne_eq, Decidable.not_not, bind_eq_ok, Except.ok.injEq,
    Prod.mk.injEq] at h
  obtain ⟨hlen, r, hr, rfl, rfl⟩ := h
  exact ⟨hlen, hr, rfl⟩

/-- The map of an accepted reorder is a permutation, and sends an element to
its name's place in the new order. -/
theorem WF.isPermutation_reorder (hd : d.WF) {newOrder : List String}
    (hlen : newOrder.length = d.elements.length)
    (h : d.reorderLoop newOrder 0 (List.replicate d.elements.length none) = .ok toNew) :
    toNew.length = d.elements.length ∧ IsPermutation toNew ∧
      ∀ i j, moved toNew i = some j → newOrder[j]? = d.nameAt i := by
  have hempty : ∀ i j, moved (List.replicate d.elements.length none) i ≠ some j := by
    intro i j
    rw [moved, List.getElem?_replicate]
    split_ifs <;> simp
  obtain ⟨hl, -, hplace, honly⟩ := reorderLoop_ok h
  simp only [List.length_replicate, Nat.zero_add] at hl hplace
  have hname : ∀ {i j}, moved toNew i = some j → ∃ name, newOrder[j]? = some name ∧
      d.nameAt i = some name := by
    intro i j hij
    rcases honly i j hij with h' | ⟨k, name, rfl, hk, hn⟩
    · exact absurd h' (hempty i j)
    · exact ⟨name, by rwa [Nat.zero_add], (hd.index name i).1 hn⟩
  have honto : ∀ j < d.elements.length, ∃ i < d.elements.length, moved toNew i = some j := by
    intro j hj
    obtain ⟨i, hi, hm⟩ := hplace j _ (List.getElem?_eq_getElem (hlen ▸ hj))
    have hlt := lt_of_nameAt ((hd.index _ i).1 hi)
    exact ⟨i, hlt, hm hlt⟩
  have hlt : ∀ i j, moved toNew i = some j → j < d.elements.length := by
    intro i j hij
    obtain ⟨name, hj, -⟩ := hname hij
    exact hlen ▸ (List.getElem?_eq_some_iff.1 hj).1
  -- distinct places for as many elements leave no element without one
  have htotal : ∀ i < d.elements.length, ∃ j, moved toNew i = some j := by
    choose! g hg using honto
    have hinj : Function.Injective fun j : Fin d.elements.length =>
        (⟨g j, (hg j j.2).1⟩ : Fin d.elements.length) := by
      intro j j' hjj
      have hgg : g j = g j' := congrArg Fin.val hjj
      have h1 := (hg j j.2).2
      rw [hgg, (hg j' j'.2).2] at h1
      exact Fin.ext (Option.some.inj h1).symm
    intro i hi
    obtain ⟨j, hj⟩ := (Finite.injective_iff_surjective.1 hinj) ⟨i, hi⟩
    have hgi : g j = i := congrArg Fin.val hj
    exact ⟨j, hgi ▸ (hg j j.2).2⟩
  refine ⟨hl, ⟨fun i j hij => hl ▸ hlt i j hij, fun i i' j hi hi' => ?_, fun i hi =>
    htotal i (hl ▸ hi), fun j hj => ?_⟩, fun i j hij => ?_⟩
  · obtain ⟨name, hj, hn⟩ := hname hi
    obtain ⟨name', hj', hn'⟩ := hname hi'
    have : name = name' := Option.some.inj (hj.symm.trans hj')
    exact hd.nameAt_inj hn (this ▸ hn')
  · obtain ⟨i, -, hi⟩ := honto j (hl ▸ hj)
    exact ⟨i, hi⟩
  · obtain ⟨name, hj, hn⟩ := hname hij
    rw [hj, hn]

theorem renumbers_permute (hd : d.WF) (hp : IsPermutation toNew)
    (hl : toNew.length = d.elements.length) :
    Renumbers d { d with
      elements := scatter toNew d.elements
      attrValues := scatter toNew d.attrValues
      children := scatter toNew (d.children.map (·.map (renumberEdge toNew))) } toNew := by
  have hle : d.elements.length = toNew.length := hl.symm
  have hlv : d.attrValues.length = toNew.length := hd.values_length.trans hle
  have hlc : (d.children.map (·.map (renumberEdge toNew))).length = toNew.length := by
    rw [List.length_map, hd.children_length, hle]
  -- a permutation reaches every place, so nothing stands at a place it did not fill
  have hfrom : ∀ {α : Type} {xs : List α} {j : Nat} {x : α}, xs.length = toNew.length →
      (scatter toNew xs)[j]? = some x → ∃ i, moved toNew i = some j := by
    intro α xs j x hx hj
    have := (List.getElem?_eq_some_iff.1 hj).1
    rw [length_scatter hp hx] at this
    exact hp.onto j this
  refine
    { name := rfl, attributes := rfl, attr_index := rfl
      children_length := by rw [length_scatter hp hlc, length_scatter hp hle]
      values_length := by rw [length_scatter hp hlv, length_scatter hp hle]
      length := hl
      inj := hp.inj
      elements := fun i j hij => getElem?_scatter hp hle hij
      edges := fun i j hij => ?_
      values := fun i j hij => ?_
      fresh := fun j => ?_
      tracked := fun i j n hi hj => ?_
      names := fun i j n hi hj => ?_ }
  · rw [← map_renumberEdge fun x hx => Option.isSome_iff_exists.2
      (hp.total _ (hl ▸ hd.edges_lt i x hx))]
    simp only [edgesOf, List.getD, getElem?_scatter hp hlc hij, List.getElem?_map]
    rcases d.children[i]? with _ | edges <;> rfl
  · simp only [valuesOf, List.getD, getElem?_scatter hp hlv hij]
  · by_cases hj : j < toNew.length
    · exact Or.inl (hp.onto j hj)
    · refine Or.inr ⟨edgesOf_of_le ?_, valuesOf_of_le ?_⟩
      · rw [length_scatter hp hlc]
        exact Nat.not_lt.1 hj
      · rw [length_scatter hp hlv]
        exact Nat.not_lt.1 hj
  · obtain ⟨f, hf, hfn⟩ := nameAt_eq_some.1 hj
    obtain ⟨k, hk⟩ := hfrom hle hf
    rw [getElem?_scatter hp hle hk] at hf
    obtain rfl := hd.nameAt_inj hi (nameAt_eq_some.2 ⟨f, hf, hfn⟩)
    exact hk
  · obtain ⟨e, he, hen⟩ := nameAt_eq_some.1 hi
    obtain ⟨f, hf, hfn⟩ := nameAt_eq_some.1 hj
    obtain ⟨i', hi'⟩ := hfrom hle he
    obtain ⟨j', hj'⟩ := hfrom hle hf
    rw [getElem?_scatter hp hle hi'] at he
    rw [getElem?_scatter hp hle hj'] at hf
    have : i' = j' := hd.nameAt_inj (nameAt_eq_some.2 ⟨e, he, hen⟩)
      (nameAt_eq_some.2 ⟨f, hf, hfn⟩)
    subst this
    exact Option.some.inj (hi'.symm.trans hj')

theorem WF.reorder (hd : d.WF) {newOrder : List String}
    (h : d.reorder newOrder = .ok (d', toNew)) : d'.WF := by
  obtain ⟨hlen, hloop, rfl⟩ := reorder_ok h
  obtain ⟨hl, hp, -⟩ := hd.isPermutation_reorder hlen hloop
  exact (renumbers_permute hd hp hl).wf hd

end Dimension

end Epiphany
