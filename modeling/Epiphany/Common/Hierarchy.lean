import Mathlib
/-!
# Hierarchies — acyclic relations, and the edits that keep them so

A hierarchy is acyclic when no node is a proper descendant of itself. Three
edits keep it so: removing edges, renumbering nodes, and adding an edge
whose child does not already reach its parent.
-/

namespace Epiphany

open Relation

variable {α β : Type*} {r : α → α → Prop}

/-- No node is a proper descendant of itself. -/
def Acyclic (r : α → α → Prop) : Prop := ∀ a, ¬ TransGen r a a

theorem acyclic_of_forall_not (h : ∀ a b, ¬ r a b) : Acyclic r := by
  intro a ha
  obtain ⟨b, hab, -⟩ := TransGen.head'_iff.1 ha
  exact h a b hab

/-- **Removing edges, and renumbering.** A relation whose edges go, along
some map, to edges of an acyclic one is acyclic. -/
theorem Acyclic.of_map {s : β → β → Prop} (hr : Acyclic r) (g : β → α)
    (h : ∀ x y, s x y → r (g x) (g y)) : Acyclic s :=
  fun x hx => hr (g x) (hx.lift g h)

/-- A path over one more edge either does without it, or splits at it. -/
theorem transGen_insert {s : α → α → Prop} {p c : α}
    (hs : ∀ a b, s a b → r a b ∨ (a = p ∧ b = c)) (hcp : ¬ ReflTransGen r c p) {a b : α}
    (h : TransGen s a b) :
    TransGen r a b ∨ (ReflTransGen r a p ∧ ReflTransGen r c b) := by
  induction h with
  | single hab =>
    rcases hs _ _ hab with hab | ⟨rfl, rfl⟩
    · exact Or.inl (TransGen.single hab)
    · exact Or.inr ⟨ReflTransGen.refl, ReflTransGen.refl⟩
  | tail _ hbd ih =>
    rcases hs _ _ hbd with hbd | ⟨rfl, rfl⟩
    · rcases ih with ih | ⟨hap, hcb⟩
      · exact Or.inl (ih.tail hbd)
      · exact Or.inr ⟨hap, hcb.tail hbd⟩
    · rcases ih with ih | ⟨-, hcb⟩
      · exact Or.inr ⟨ih.to_reflTransGen, ReflTransGen.refl⟩
      · exact absurd hcb hcp

/-- **Adding an edge** from `p` to a `c` that does not reach `p`. -/
theorem Acyclic.insert {s : α → α → Prop} {p c : α} (hr : Acyclic r)
    (hs : ∀ a b, s a b → r a b ∨ (a = p ∧ b = c)) (hcp : ¬ ReflTransGen r c p) :
    Acyclic s := by
  intro a ha
  rcases transGen_insert hs hcp ha with h | ⟨hap, hca⟩
  · exact hr a h
  · exact hcp (hca.trans hap)

end Epiphany
