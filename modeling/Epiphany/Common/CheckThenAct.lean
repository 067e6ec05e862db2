import Epiphany.Common.FinMap
import Epiphany.Common.Runs
/-!
# Check, then act — requests checked on one state and carried out on another

A service checks a request on the state it finds, and carries it out later,
with a ticket of what the check found. In between other requests may be
checked and carried out, in any order. Every ticket was issued by some check
(`issued_next`), so a property of the requests that are carried out is
settled by what a check and an action on unrelated states have to do with each
other (`along_carried_iff`).
-/

namespace Epiphany

/-- A service: its checks, its actions, with what else decides about them, and
what moves its state besides requests. -/
structure Service (σ ρ τ γ δ ε : Type) where
  check : σ → ρ → Except ε τ
  act : σ → ρ → τ → γ → Except ε σ
  move : σ → δ → σ

/-- A service at work, with the requests that were checked. -/
structure Serving (σ ρ τ : Type) where
  state : σ
  pending : FinMap Nat (ρ × τ)

inductive ServeStep (ρ γ δ : Type) where
  | check (id : Nat) (r : ρ)
  | act (id : Nat) (how : γ)
  | move (d : δ)

namespace Service

variable {σ ρ τ γ δ ε : Type} (v : Service σ ρ τ γ δ ε)

def start (s : σ) : Serving σ ρ τ := ⟨s, ∅⟩

/-- The state after an action; one that is refused leaves it. -/
def after (s : σ) (q : ρ × τ) (how : γ) : σ :=
  match v.act s q.1 q.2 how with
  | .ok next => next
  | .error _ => s

def next (s : Serving σ ρ τ) : ServeStep ρ γ δ → Serving σ ρ τ
  | .check id r =>
    match v.check s.state r with
    | .ok ticket => { s with pending := s.pending.insert id (r, ticket) }
    | .error _ => s
  | .act id how =>
    match s.pending[id]? with
    | some q => ⟨v.after s.state q how, s.pending.erase id⟩
    | none => s
  | .move d => { s with state := v.move s.state d }

/-- A request is carried out in a step, and leaves a state. -/
def Carries (s : Serving σ ρ τ) (x : ServeStep ρ γ δ) (q : ρ × τ) (next : σ) : Prop :=
  ∃ id how, x = .act id how ∧ s.pending[id]? = some q ∧ v.act s.state q.1 q.2 how = .ok next

/-- Every ticket was issued by a check. -/
def Issued (s : Serving σ ρ τ) : Prop :=
  ∀ (id : Nat) (q : ρ × τ), s.pending[id]? = some q → ∃ seen, v.check seen q.1 = .ok q.2

variable {v}

theorem issued_start (s : σ) : v.Issued (start s) := by
  intro id q h
  simp [start] at h

theorem issued_next {s : Serving σ ρ τ} (h : v.Issued s) (x : ServeStep ρ γ δ) :
    v.Issued (v.next s x) := by
  intro i q hq
  unfold next at hq
  cases x with
  | check id r =>
    dsimp only at hq
    rcases hcheck : v.check s.state r with e | ticket
    · rw [hcheck] at hq
      exact h i q hq
    · rw [hcheck] at hq
      dsimp only at hq
      rw [FinMap.get_insert] at hq
      split_ifs at hq
      · rw [← Option.some.inj hq]
        exact ⟨s.state, hcheck⟩
      · exact h i q hq
  | act id how =>
    dsimp only at hq
    rcases hpending : s.pending[id]? with - | q'
    · rw [hpending] at hq
      exact h i q hq
    · rw [hpending] at hq
      dsimp only at hq
      rw [FinMap.get_erase] at hq
      split_ifs at hq
      exact h i q hq
  | move d => exact h i q hq

/-- What actions and moves keep of a state holds after every run. -/
theorem invariant_run {I : σ → Prop}
    (hact : ∀ s r ticket how next, I s → v.act s r ticket how = .ok next → I next)
    (hmove : ∀ s d, I s → I (v.move s d)) {s : σ} (hs : I s) (steps : List (ServeStep ρ γ δ)) :
    I (steps.foldl v.next (start s)).state := by
  suffices h : ∀ serving : Serving σ ρ τ, I serving.state → I (steps.foldl v.next serving).state from
    h _ hs
  induction steps with
  | nil => exact fun _ h => h
  | cons x steps ih =>
    refine fun serving h => ih _ ?_
    unfold next
    cases x with
    | check id r =>
      dsimp only
      split <;> exact h
    | act id how =>
      dsimp only
      split
      · unfold after
        split
        · exact hact _ _ _ _ _ h ‹_›
        · exact h
      · exact h
    | move d => exact hmove _ _ h

/-- **Interleavings.** Where a property of a request carried out with a ticket
of a check is the same as a condition, whatever state the check saw, a run has
the one in every step if and only if it has the other. -/
theorem along_carried_iff {P C : σ → ρ × τ → σ → Prop}
    (h : ∀ seen s r ticket how next, v.check seen r = .ok ticket →
      v.act s r ticket how = .ok next → (P s (r, ticket) next ↔ C s (r, ticket) next))
    (s : σ) (steps : List (ServeStep ρ γ δ)) :
    Along v.next (fun s x => ∀ q next, v.Carries s x q next → P s.state q next) (start s) steps ↔
      Along v.next (fun s x => ∀ q next, v.Carries s x q next → C s.state q next) (start s)
        steps := by
  refine along_iff (I := v.Issued) (fun s x hs => ?_) (fun s x hs _ => issued_next hs x)
    (issued_start s) steps
  refine forall₂_congr fun q next => forall_congr' fun hcarries => ?_
  obtain ⟨id, how, -, hpending, hact⟩ := hcarries
  obtain ⟨seen, hcheck⟩ := hs id q hpending
  exact h seen s.state q.1 q.2 how next hcheck hact

end Service

end Epiphany
