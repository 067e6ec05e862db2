import Mathlib
/-!
# Loops — turns until one is the last

A loop takes turns at a state. Each turn either goes on at another state or is
the last one and has the result. Where every turn that goes on lowers a
measure, there is a last turn (`loop_isSome`); the result is what the turn at
some state that the loop comes to says (`exists_of_loop`), and there is only
one (`loop_of_reaches`).
-/

namespace Epiphany

namespace Loop

variable {σ β : Type*}

/-- What a turn comes to. -/
inductive Turn (σ β : Type*) where
  | again (s : σ)
  | done (b : β)

/-- The result of a loop, if it has one within a number of turns. -/
def loop (turn : σ → Turn σ β) : Nat → σ → Option β
  | 0, _ => none
  | n + 1, s =>
    match turn s with
    | .again s' => loop turn n s'
    | .done b => some b

/-- The states that a loop comes to from one. -/
def Reaches (turn : σ → Turn σ β) : σ → σ → Prop :=
  Relation.ReflTransGen fun s s' => turn s = .again s'

variable {turn : σ → Turn σ β}

theorem loop_again {n : Nat} {s s' : σ} (h : turn s = .again s') :
    loop turn (n + 1) s = loop turn n s' := by
  simp only [loop, h]

theorem loop_done {n : Nat} {s : σ} {b : β} (h : turn s = .done b) :
    loop turn (n + 1) s = some b := by
  simp only [loop, h]

/-- With a measure that every turn lowers where an invariant holds, that many
turns are enough. -/
theorem loop_isSome_of_invariant (I : σ → Prop) (μ : σ → Nat)
    (hI : ∀ s s', I s → turn s = .again s' → I s' ∧ μ s' < μ s) :
    ∀ (n : Nat) (s : σ), I s → μ s < n → (loop turn n s).isSome := by
  intro n
  induction n with
  | zero =>
    intro s _ hn
    omega
  | succ n ih =>
    intro s hs hn
    rcases ht : turn s with s' | b
    · obtain ⟨hs', hlt⟩ := hI s s' hs ht
      rw [loop_again ht]
      exact ih s' hs' (by omega)
    · rw [loop_done ht]
      rfl

theorem loop_isSome (μ : σ → Nat) (hμ : ∀ s s', turn s = .again s' → μ s' < μ s) (n : Nat)
    (s : σ) (h : μ s < n) : (loop turn n s).isSome :=
  loop_isSome_of_invariant (fun _ => True) μ (fun s s' _ ht => ⟨trivial, hμ s s' ht⟩) n s trivial h

/-- A result is that of a last turn. -/
theorem exists_of_loop : ∀ {n : Nat} {s : σ} {b : β}, loop turn n s = some b →
    ∃ s', Reaches turn s s' ∧ turn s' = .done b := by
  intro n
  induction n with
  | zero =>
    intro s b h
    simp [loop] at h
  | succ n ih =>
    intro s b h
    rcases ht : turn s with s' | b'
    · rw [loop_again ht] at h
      obtain ⟨last, hr, hl⟩ := ih h
      exact ⟨last, hr.head ht, hl⟩
    · rw [loop_done ht] at h
      obtain rfl : b' = b := by simpa using h
      exact ⟨s, .refl, ht⟩

/-- A loop that has a result has that of the last turn it comes to. -/
theorem loop_of_reaches {s last : σ} {b : β} (hr : Reaches turn s last)
    (hl : turn last = .done b) :
    ∀ {n : Nat}, (loop turn n s).isSome → loop turn n s = some b := by
  induction hr using Relation.ReflTransGen.head_induction_on with
  | refl =>
    intro n hn
    cases n with
    | zero => simp [loop] at hn
    | succ n => exact loop_done hl
  | head ht _ ih =>
    intro n hn
    cases n with
    | zero => simp [loop] at hn
    | succ n =>
      rw [loop_again ht] at hn ⊢
      exact ih hn

/-- What every turn keeps holds of every state a loop comes to. -/
theorem Reaches.invariant {s s' : σ} (hr : Reaches turn s s') {I : σ → Prop} (hs : I s)
    (hI : ∀ s s', I s → turn s = .again s' → I s') : I s' := by
  induction hr with
  | refl => exact hs
  | tail _ ht ih => exact hI _ _ ih ht

end Loop

end Epiphany
