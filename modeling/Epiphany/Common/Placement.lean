import Epiphany.Common.FinMap
/-!
# Placement — objects stored one after the other under chosen keys

Objects with identities go into a map, each under a key chosen from the map
as it stands at its turn. Nothing is lost exactly when every chosen key is
free at its turn (`Fresh`): then each object is found under its own key and
no two share one (`get_placeAll`, `keyOf_inj`), and otherwise the map ends
with fewer entries than there are objects (`size_placeAll_lt`).
-/

namespace Epiphany

namespace Placement

variable {κ ι V W : Type} [Ord κ] [Std.TransOrd κ]
variable (key : FinMap κ V → ι → κ) (value : κ → ι → W → V)

/-- Store one object under the key chosen for it. -/
def place (m : FinMap κ V) (x : ι × W) : FinMap κ V :=
  m.insert (key m x.1) (value (key m x.1) x.1 x.2)

/-- Store objects one after the other. -/
def placeAll (m : FinMap κ V) (l : List (ι × W)) : FinMap κ V := l.foldl (place key value) m

/-- Every key is free when it is chosen. -/
def Fresh : FinMap κ V → List (ι × W) → Prop
  | _, [] => True
  | m, x :: l => m[key m x.1]? = none ∧ Fresh (place key value m x) l

instance Fresh.decidable (m : FinMap κ V) (l : List (ι × W)) : Decidable (Fresh key value m l) :=
  match l with
  | [] => inferInstanceAs (Decidable True)
  | x :: l =>
    have : Decidable (Fresh key value (place key value m x) l) := Fresh.decidable _ l
    inferInstanceAs (Decidable (_ ∧ _))

/-- The key an object is stored under. -/
def keyOf [DecidableEq ι] : FinMap κ V → List (ι × W) → ι → Option κ
  | _, [], _ => none
  | m, x :: l, i => if x.1 = i then some (key m i) else keyOf (place key value m x) l i

variable {m : FinMap κ V} {l l' : List (ι × W)} {i j : ι} {k : κ} {w : W}

theorem placeAll_cons (x : ι × W) :
    placeAll key value m (x :: l) = placeAll key value (place key value m x) l := rfl

theorem placeAll_append : placeAll key value m (l ++ l') =
    placeAll key value (placeAll key value m l) l' := List.foldl_append

section Keys

variable [DecidableEq ι] {key value}

theorem keyOf_isSome (h : i ∈ l.map Prod.fst) : ∃ k, keyOf key value m l i = some k := by
  induction l generalizing m with
  | nil => simp at h
  | cons x l ih =>
    rw [keyOf]
    split_ifs with hx
    · exact ⟨_, rfl⟩
    · exact ih ((List.mem_cons.1 h).resolve_left fun h => hx h.symm)

theorem keyOf_eq_none (h : i ∉ l.map Prod.fst) : keyOf key value m l i = none := by
  induction l generalizing m with
  | nil => rfl
  | cons x l ih =>
    rw [List.map_cons, List.mem_cons, not_or] at h
    rw [keyOf, if_neg (Ne.symm h.1), ih h.2]

theorem keyOf_append_left (h : i ∈ l.map Prod.fst) :
    keyOf key value m (l ++ l') i = keyOf key value m l i := by
  induction l generalizing m with
  | nil => simp at h
  | cons x l ih =>
    rw [List.cons_append, keyOf, keyOf]
    split_ifs with hx
    · rfl
    · exact ih ((List.mem_cons.1 h).resolve_left fun h => hx h.symm)

theorem keyOf_append_right (h : i ∉ l.map Prod.fst) :
    keyOf key value m (l ++ l') i = keyOf key value (placeAll key value m l) l' i := by
  induction l generalizing m with
  | nil => rfl
  | cons x l ih =>
    rw [List.map_cons, List.mem_cons, not_or] at h
    rw [List.cons_append, keyOf, if_neg (Ne.symm h.1), ih h.2, placeAll_cons]

end Keys

/-! ## With every key free -/

section Free

variable [Std.LawfulEqOrd κ] {key value}

/-- What is stored stays. -/
theorem get_placeAll_of_get (h : Fresh key value m l) {v : V} (hk : m[k]? = some v) :
    (placeAll key value m l)[k]? = some v := by
  induction l generalizing m with
  | nil => exact hk
  | cons x l ih =>
    refine ih h.2 ?_
    rw [place, FinMap.get_insert_of_ne _ _, hk]
    rintro rfl
    rw [h.1] at hk
    cases hk

variable [DecidableEq ι]

/-- A key chosen later is none of those in the map. -/
theorem get_of_keyOf (h : Fresh key value m l) (hk : keyOf key value m l i = some k) :
    m[k]? = none := by
  induction l generalizing m with
  | nil => cases hk
  | cons x l ih =>
    rw [keyOf] at hk
    split_ifs at hk with hx
    · cases hk
      exact hx ▸ h.1
    · by_contra hne
      obtain ⟨v, hv⟩ := Option.ne_none_iff_exists'.1 hne
      have hone : Fresh key value m [x] := ⟨h.1, trivial⟩
      have hplaced : (place key value m x)[k]? = some v := get_placeAll_of_get hone hv
      rw [ih h.2 hk] at hplaced
      cases hplaced

/-- **Found.** Each object is stored under its key. -/
theorem get_placeAll (h : Fresh key value m l) (hl : (l.map Prod.fst).Nodup) (hw : (i, w) ∈ l)
    (hk : keyOf key value m l i = some k) :
    (placeAll key value m l)[k]? = some (value k i w) := by
  induction l generalizing m with
  | nil => cases hw
  | cons x l ih =>
    rw [List.map_cons, List.nodup_cons] at hl
    rw [keyOf] at hk
    split_ifs at hk with hx
    · cases hk
      have heq : x = (i, w) := by
        rcases List.mem_cons.1 hw with rfl | hw
        · rfl
        · exact absurd (hx ▸ List.mem_map.2 ⟨_, hw, rfl⟩) hl.1
      subst heq
      exact get_placeAll_of_get h.2 (FinMap.get_insert_self _ _ _)
    · refine ih h.2 hl.2 ?_ hk
      exact (List.mem_cons.1 hw).resolve_left fun heq => hx (heq ▸ rfl)

/-- **Apart.** No two objects share a key. -/
theorem keyOf_inj (h : Fresh key value m l) (hi : keyOf key value m l i = some k)
    (hj : keyOf key value m l j = some k) : i = j := by
  induction l generalizing m with
  | nil => cases hi
  | cons x l ih =>
    have hhead : (place key value m x)[key m x.1]? ≠ none := by
      rw [place, FinMap.get_insert_self]
      exact Option.some_ne_none _
    rw [keyOf] at hi hj
    split_ifs at hi hj with hxi hxj hxj
    · exact hxi.symm.trans hxj
    · cases hi
      exact absurd (get_of_keyOf h.2 hj) (hxi ▸ hhead)
    · cases hj
      exact absurd (get_of_keyOf h.2 hi) (hxj ▸ hhead)
    · exact ih h.2 hi hj

end Free

/-! ## With some key taken -/

theorem size_placeAll_le : (placeAll key value m l).size ≤ m.size + l.length := by
  induction l generalizing m with
  | nil => exact le_rfl
  | cons x l ih =>
    have hplace : (place key value m x).size ≤ m.size + 1 := Std.ExtTreeMap.size_insert_le
    rw [placeAll_cons, List.length_cons]
    exact ih.trans (by omega)

/-- A taken key costs an entry. -/
theorem size_placeAll_lt (h : ¬ Fresh key value m l) :
    (placeAll key value m l).size < m.size + l.length := by
  induction l generalizing m with
  | nil => exact absurd trivial h
  | cons x l ih =>
    rw [placeAll_cons, List.length_cons]
    by_cases hx : m[key m x.1]? = none
    · have hrest := ih fun hl => h ⟨hx, hl⟩
      have hplace : (place key value m x).size ≤ m.size + 1 := Std.ExtTreeMap.size_insert_le
      omega
    · have hmem : m.contains (key m x.1) = true := by
        rw [Std.ExtTreeMap.contains_eq_isSome_getElem?, Option.isSome_iff_ne_none]
        exact hx
      have hsize : (place key value m x).size = m.size := by
        rw [place, Std.ExtTreeMap.size_insert, if_pos hmem]
      have hrest := size_placeAll_le key value (m := place key value m x) (l := l)
      omega

/-- Distinct keys of a map are no more than its size. -/
theorem length_le_size [Std.LawfulEqOrd κ] {ks : List κ} (hks : ks.Nodup)
    (h : ∀ k ∈ ks, m[k]? ≠ none) : ks.length ≤ m.size := by
  rw [← Std.ExtTreeMap.length_toList, ← List.length_map (f := Prod.fst)]
  refine (List.subperm_of_subset hks fun k hk => ?_).length_le
  obtain ⟨v, hv⟩ := Option.ne_none_iff_exists'.1 (h k hk)
  exact List.mem_map.2 ⟨(k, v), FinMap.mem_toList.2 hv, rfl⟩

end Placement

end Epiphany
