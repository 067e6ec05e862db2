import Mathlib
/-!
# Appending — merging a list into another by key

An entry is appended unless its key is there already. Merging a list this
way gives that list back exactly when it extends the one it is merged into
by entries of new keys (`appendAll_eq_iff`): a merge adds what is missing
and repairs nothing else.
-/

namespace Epiphany

variable {α κ : Type*} [DecidableEq κ] {key : α → κ} {l l' new : List α}

/-- Append an entry of a new key. -/
def appendNew (key : α → κ) (l : List α) (x : α) : List α :=
  if key x ∈ l.map key then l else l ++ [x]

/-- Append the entries of new keys. -/
def appendAll (key : α → κ) (l xs : List α) : List α := xs.foldl (appendNew key) l

/-- `l'` is `l` followed by entries of new keys. -/
def Extends (key : α → κ) (l l' : List α) : Prop :=
  ∃ new, l' = l ++ new ∧ (new.map key).Nodup ∧ ∀ x ∈ new, key x ∉ l.map key

omit [DecidableEq κ] in
theorem Extends.refl (key : α → κ) (l : List α) : Extends key l l :=
  ⟨[], (List.append_nil l).symm, List.nodup_nil, fun _ h => by cases h⟩

theorem extends_appendNew (x : α) : Extends key l (appendNew key l x) := by
  unfold appendNew
  split
  · exact Extends.refl key l
  · rename_i hx
    refine ⟨[x], rfl, List.nodup_singleton _, fun y hy => ?_⟩
    rw [List.mem_singleton.1 hy]
    exact hx

/-- What was appended, or stood in its way, has its key. -/
theorem mem_map_appendNew (key : α → κ) (l : List α) (x : α) : key x ∈ (appendNew key l x).map key := by
  unfold appendNew
  split
  · assumption
  · simp

omit [DecidableEq κ] in
theorem Extends.trans {l'' : List α} (h : Extends key l l') (h' : Extends key l' l'') :
    Extends key l l'' := by
  obtain ⟨new, rfl, hnodup, hfresh⟩ := h
  obtain ⟨new', rfl, hnodup', hfresh'⟩ := h'
  refine ⟨new ++ new', List.append_assoc _ _ _, ?_, fun x hx => ?_⟩
  · rw [List.map_append]
    refine hnodup.append hnodup' fun k hk hk' => ?_
    obtain ⟨y, hy, rfl⟩ := List.mem_map.1 hk'
    refine hfresh' y hy ?_
    rw [List.map_append]
    exact List.mem_append_right _ hk
  · rcases List.mem_append.1 hx with hx | hx
    · exact hfresh x hx
    · intro hmem
      refine hfresh' x hx ?_
      rw [List.map_append]
      exact List.mem_append_left _ hmem

theorem extends_appendAll (xs : List α) : Extends key l (appendAll key l xs) := by
  induction xs generalizing l with
  | nil => exact Extends.refl key l
  | cons x xs ih => exact (extends_appendNew x).trans ih

/-- Entries of keys that are there change nothing. -/
theorem appendAll_of_subset {xs : List α} (h : ∀ x ∈ xs, key x ∈ l.map key) :
    appendAll key l xs = l := by
  induction xs with
  | nil => rfl
  | cons x xs ih =>
    rw [appendAll, List.foldl_cons, appendNew, if_pos (h x List.mem_cons_self)]
    exact ih fun y hy => h y (List.mem_cons_of_mem _ hy)

/-- Entries of new keys are appended in order. -/
theorem appendAll_of_fresh (hnodup : (new.map key).Nodup) (hfresh : ∀ x ∈ new, key x ∉ l.map key) :
    appendAll key l new = l ++ new := by
  induction new generalizing l with
  | nil => exact (List.append_nil l).symm
  | cons x new ih =>
    rw [List.map_cons, List.nodup_cons] at hnodup
    rw [appendAll, List.foldl_cons, appendNew, if_neg (hfresh x List.mem_cons_self)]
    refine (ih hnodup.2 fun y hy hmem => ?_).trans (List.append_assoc _ _ _)
    rw [List.map_append, List.mem_append] at hmem
    rcases hmem with hmem | hmem
    · exact hfresh y (List.mem_cons_of_mem _ hy) hmem
    · have hkey : key y = key x := by simpa using hmem
      exact hnodup.1 (hkey ▸ List.mem_map_of_mem hy)

/-- **What a merge repairs.** -/
theorem appendAll_eq_iff : appendAll key l l' = l' ↔ Extends key l l' := by
  constructor
  · intro h
    rw [← h]
    exact extends_appendAll l'
  · rintro ⟨new, rfl, hnodup, hfresh⟩
    rw [appendAll, List.foldl_append]
    rw [show l.foldl (appendNew key) l = l from
      appendAll_of_subset fun x hx => List.mem_map_of_mem hx]
    exact appendAll_of_fresh hnodup hfresh

end Epiphany
