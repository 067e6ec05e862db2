import Mathlib
/-!
# Finite maps — lookups, rebuilding, and iteration

The ordered finite map `Std.ExtTreeMap` stands for both map types of the
program, and equality of maps is equality of their lookups. This file
states its lookup lemmas over propositional equality of keys and adds the
one operation the library lacks: collecting a list of entries into a map,
which is how every store of the program is rebuilt.
-/

namespace Epiphany

/-- A finite map from `α` to `β`, equal to another when their lookups
agree. -/
abbrev FinMap (α : Type*) (β : Type*) [Ord α] := Std.ExtTreeMap α β compare

namespace FinMap

variable {α β γ : Type*} [Ord α] [Std.TransOrd α] [Std.LawfulEqOrd α]

@[ext] theorem ext {m m' : FinMap α β} (h : ∀ k : α, m[k]? = m'[k]?) : m = m' :=
  Std.ExtTreeMap.ext_getElem? h

omit [Std.LawfulEqOrd α] in
@[simp] theorem get_empty (k : α) : (∅ : FinMap α β)[k]? = none :=
  Std.ExtTreeMap.getElem?_empty

/-- Looking a key up after an insertion. -/
theorem get_insert [DecidableEq α] (m : FinMap α β) (k a : α) (v : β) :
    (m.insert k v)[a]? = if k = a then some v else m[a]? := by
  rw [Std.ExtTreeMap.getElem?_insert]
  simp only [Std.compare_eq_iff_eq]

@[simp] theorem get_insert_self (m : FinMap α β) (k : α) (v : β) :
    (m.insert k v)[k]? = some v := by
  classical rw [get_insert, if_pos rfl]

theorem get_insert_of_ne {m : FinMap α β} {k a : α} (h : k ≠ a) (v : β) :
    (m.insert k v)[a]? = m[a]? := by
  classical rw [get_insert, if_neg h]

/-- Looking a key up after an erasure. -/
theorem get_erase [DecidableEq α] (m : FinMap α β) (k a : α) :
    (m.erase k)[a]? = if k = a then none else m[a]? := by
  rw [Std.ExtTreeMap.getElem?_erase]
  simp only [Std.compare_eq_iff_eq]

/-- The entries of a map are its lookups. -/
theorem mem_toList {m : FinMap α β} {k : α} {v : β} : (k, v) ∈ m.toList ↔ m[k]? = some v :=
  Std.ExtTreeMap.mem_toList_iff_getElem?_eq_some

/-- A map lists each key once. -/
theorem nodup_keys (m : FinMap α β) : (m.toList.map Prod.fst).Nodup := by
  have h := Std.ExtTreeMap.distinct_keys_toList (t := m)
  rw [List.Nodup, List.pairwise_map]
  exact h.imp fun hne heq => hne (Std.compare_eq_iff_eq.2 heq)

theorem nodup_toList (m : FinMap α β) : m.toList.Nodup :=
  List.Nodup.of_map _ (nodup_keys m)

omit [Std.LawfulEqOrd α] in
/-- The first entry that a function takes is found in what it takes of the
map. -/
theorem findSome?_toList (m : FinMap α β) (f : α → β → Option γ) :
    (m.toList.findSome? fun e => f e.1 e.2) =
      (Std.ExtTreeMap.filterMap f m).toList.head?.map Prod.snd := by
  rw [Std.ExtTreeMap.toList_filterMap, ← List.head?_map, List.map_filterMap, List.head?_filterMap]
  congr 1
  funext e
  cases f e.1 e.2 <;> rfl

/-- Two searches agree when they agree on what each key leads to. -/
theorem findSome?_toList_congr {m m' : FinMap α β} {f g : α → β → Option γ}
    (h : ∀ k : α, m[k]?.bind (f k) = m'[k]?.bind (g k)) :
    (m.toList.findSome? fun e => f e.1 e.2) = m'.toList.findSome? fun e => g e.1 e.2 := by
  have hmaps : Std.ExtTreeMap.filterMap f m = Std.ExtTreeMap.filterMap g m' := by
    refine ext fun k => ?_
    rw [Std.ExtTreeMap.getElem?_filterMap', Std.ExtTreeMap.getElem?_filterMap', h]
  rw [findSome?_toList, findSome?_toList, hmaps]

/-! ## Collecting entries -/

/-- Insert the entries of a list one after the other, a later entry of a
key over an earlier one. -/
def collect (l : List (α × β)) : FinMap α β :=
  l.foldl (fun m e => m.insert e.1 e.2) ∅

/-- No key is listed with two values. -/
def Functional (l : List (α × β)) : Prop :=
  ∀ k v w, (k, v) ∈ l → (k, w) ∈ l → v = w

theorem functional_of_nodup {α : Type*} {l : List (α × β)} (hl : (l.map Prod.fst).Nodup) :
    Functional l := by
  intro k v w hv hw
  exact congrArg Prod.snd (List.inj_on_of_nodup_map hl hv hw rfl)

/-- Over a list without conflicting entries, the collected map looks up
exactly the entries, and keeps the others of the map it started from. -/
theorem get_foldl_insert {l : List (α × β)} (hl : Functional l) {m : FinMap α β} {k : α}
    {v : β} :
    (l.foldl (fun m e => m.insert e.1 e.2) m)[k]? = some v ↔
      (k, v) ∈ l ∨ (k ∉ l.map Prod.fst ∧ m[k]? = some v) := by
  classical
  induction l generalizing m with
  | nil => simp
  | cons e l ih =>
    have hl' : Functional l := fun k v w hv hw =>
      hl k v w (List.mem_cons_of_mem _ hv) (List.mem_cons_of_mem _ hw)
    rw [List.foldl_cons, ih hl', get_insert]
    by_cases hk : e.1 = k
    · subst hk
      rw [if_pos rfl, Option.some.injEq]
      have hkeys : e.1 ∈ (e :: l).map Prod.fst := List.mem_map_of_mem List.mem_cons_self
      constructor
      · rintro (h | ⟨-, rfl⟩)
        · exact Or.inl (List.mem_cons_of_mem _ h)
        · exact Or.inl List.mem_cons_self
      · rintro (h | ⟨h, -⟩)
        · have hv : v = e.2 := hl e.1 v e.2 h List.mem_cons_self
          by_cases hmem : e.1 ∈ l.map Prod.fst
          · obtain ⟨⟨k', w⟩, hw, rfl⟩ := List.mem_map.1 hmem
            have : v = w := hl _ v w h (List.mem_cons_of_mem _ hw)
            exact Or.inl (this ▸ hw)
          · exact Or.inr ⟨hmem, hv.symm⟩
        · exact absurd hkeys h
    · have hne : (k, v) ≠ e := fun h => hk (congrArg Prod.fst h).symm
      simp only [if_neg hk, List.mem_cons, hne, false_or, List.map_cons, Ne.symm hk]

theorem get_collect {l : List (α × β)} (hl : Functional l) {k : α} {v : β} :
    (collect l)[k]? = some v ↔ (k, v) ∈ l := by
  rw [collect, get_foldl_insert hl]
  simp

theorem eq_of_get_collect {k k' : α} {v w : β} (h : (collect [(k, v)])[k']? = some w) : w = v := by
  rw [get_collect (functional_of_nodup (by simp))] at h
  exact (Prod.mk.inj (List.mem_singleton.1 h)).2

/-- Collecting what a map lists gives the map back. -/
theorem collect_toList (m : FinMap α β) : collect m.toList = m := by
  refine ext fun k => Option.ext fun v => ?_
  rw [get_collect (functional_of_nodup (nodup_keys m)), mem_toList]

/-- Two maps listing the same entries in some order are equal. -/
theorem toList_perm_iff {m : FinMap α β} {l : List (α × β)} (hl : l.Nodup)
    (h : ∀ k v, m[k]? = some v ↔ (k, v) ∈ l) : m.toList.Perm l := by
  refine (List.perm_ext_iff_of_nodup (nodup_toList m) hl).2 ?_
  rintro ⟨k, v⟩
  rw [mem_toList, h]

/-! ## Rows of entries -/

/-- Among items of distinct keys, what is made from one of them is found by
its key. -/
theorem filter_flatMap_of_nodup {ι κ : Type*} [DecidableEq κ] {l : List ι} {name : ι → κ}
    {f : ι → List γ} {key : γ → κ} (hkey : ∀ x, ∀ y ∈ f x, key y = name x)
    (hn : (l.map name).Nodup) {x : ι} (hx : x ∈ l) :
    ((l.flatMap f).filter fun y => key y = name x) = f x := by
  have hself : ∀ z, name z = name x → ((f z).filter fun y => key y = name x) = f z := by
    intro z hz
    exact List.filter_eq_self.2 fun y hy => decide_eq_true ((hkey z y hy).trans hz)
  have hother : ∀ z, name z ≠ name x → ((f z).filter fun y => key y = name x) = [] := by
    intro z hz
    refine List.filter_eq_nil_iff.2 fun y hy => ?_
    rw [decide_eq_true_eq, hkey z y hy]
    exact hz
  induction l with
  | nil => cases hx
  | cons z l ih =>
    rw [List.map_cons, List.nodup_cons] at hn
    rw [List.flatMap_cons, List.filter_append]
    rcases List.mem_cons.1 hx with rfl | hmem
    · have hnil : ((l.flatMap f).filter fun y => key y = name x) = [] := by
        rw [List.filter_flatMap, List.flatMap_eq_nil_iff]
        exact fun w hw => hother w fun h => hn.1 (h ▸ List.mem_map_of_mem hw)
      rw [hself x rfl, hnil, List.append_nil]
    · have hz : name z ≠ name x := fun h => hn.1 (h ▸ List.mem_map_of_mem hmem)
      rw [hother z hz, List.nil_append, ih hn.2 hmem]

/-- The rows of a map at a key are those of its entry. -/
theorem filter_flatMap_toList [DecidableEq α] {m : FinMap α β} {f : α × β → List γ} {key : γ → α}
    (hkey : ∀ e, ∀ y ∈ f e, key y = e.1) (k : α) :
    (m.toList.flatMap f).filter (fun y => key y = k) =
      match m[k]? with
      | some v => f (k, v)
      | none => [] := by
  rcases hm : m[k]? with _ | v
  · refine List.filter_eq_nil_iff.2 fun y hy => ?_
    obtain ⟨⟨k', v⟩, hmem, hy⟩ := List.mem_flatMap.1 hy
    rw [decide_eq_true_eq, hkey _ y hy]
    rintro rfl
    cases hm.symm.trans (mem_toList.1 hmem)
  · exact filter_flatMap_of_nodup hkey (nodup_keys m) (mem_toList.2 hm)

end FinMap

end Epiphany
