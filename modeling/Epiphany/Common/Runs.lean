import Mathlib
/-!
# Runs — calls of a step function, accepted or refused

A machine is a step function that may refuse: an accepted call moves it to
the next state and a refused one leaves it. An invariant that the accepted
calls meeting a condition keep holds in every state of a run whose accepted
calls all meet it (`run_invariant`).
-/

namespace Epiphany

variable {σ α ε : Type*}

/-- One call: the next state when it is accepted. -/
def call (step : σ → α → Except ε σ) (s : σ) (a : α) : σ :=
  match step s a with
  | .ok next => next
  | .error _ => s

/-- A sequence of calls. -/
def runCalls (step : σ → α → Except ε σ) (s : σ) (calls : List α) : σ :=
  calls.foldl (call step) s

/-- Every accepted call meets a condition in the state it is made in. -/
def Meets (step : σ → α → Except ε σ) (cond : σ → α → Prop) : σ → List α → Prop
  | _, [] => True
  | s, a :: calls => ((step s a).isOk = true → cond s a) ∧ Meets step cond (call step s a) calls

instance Meets.decidable {step : σ → α → Except ε σ} {cond : σ → α → Prop}
    [∀ s a, Decidable (cond s a)] (s : σ) (calls : List α) : Decidable (Meets step cond s calls) :=
  match calls with
  | [] => inferInstanceAs (Decidable True)
  | a :: calls =>
    have : Decidable (Meets step cond (call step s a) calls) := Meets.decidable _ calls
    inferInstanceAs (Decidable (_ ∧ _))

theorem meets_replicate (step : σ → α → Except ε σ) (s : σ) (a : α) (n : Nat) :
    Meets step (fun _ b => b = a) s (List.replicate n a) := by
  induction n generalizing s with
  | zero => trivial
  | succ n ih => exact ⟨fun _ => rfl, ih _⟩

theorem meets_of_forall {step : σ → α → Except ε σ} {cond : σ → α → Prop}
    (h : ∀ s a, cond s a) (s : σ) (calls : List α) : Meets step cond s calls := by
  induction calls generalizing s with
  | nil => trivial
  | cons a calls ih => exact ⟨fun _ => h s a, ih _⟩

/-- The calls of a prefix meet what all calls meet. -/
theorem Meets.of_prefix {step : σ → α → Except ε σ} {cond : σ → α → Prop} {s : σ}
    {pre calls : List α} (h : Meets step cond s calls) (hpre : pre <+: calls) :
    Meets step cond s pre := by
  induction calls generalizing s pre with
  | nil =>
    obtain rfl := List.prefix_nil.1 hpre
    trivial
  | cons a calls ih =>
    cases pre with
    | nil => trivial
    | cons b pre =>
      obtain ⟨rfl, hrest⟩ := List.cons_prefix_cons.1 hpre
      exact ⟨h.1, ih h.2 hrest⟩

/-- **Run.** What the accepted calls that meet the condition keep, a run of
such calls keeps. -/
theorem run_invariant {step : σ → α → Except ε σ} {cond : σ → α → Prop} {I : σ → Prop}
    (hstep : ∀ s a next, I s → cond s a → step s a = .ok next → I next) {s : σ}
    {calls : List α} (hs : I s) (h : Meets step cond s calls) : I (runCalls step s calls) := by
  induction calls generalizing s with
  | nil => exact hs
  | cons a calls ih =>
    obtain ⟨hcond, hrest⟩ := h
    refine ih ?_ hrest
    unfold call
    split
    · rename_i next hnext
      exact hstep s a next hs (hcond (by rw [hnext]; rfl)) hnext
    · exact hs

/-- **Run, exactly.** Where each accepted call keeps a property if and only
if it meets the condition, a property of every state that a run reaches is
the condition on all its calls. -/
theorem run_iff {step : σ → α → Except ε σ} {cond : σ → α → Prop} {I P : σ → Prop}
    (hP : ∀ s, I s → P s)
    (hstep : ∀ s a next, I s → step s a = .ok next →
      (P next ↔ cond s a) ∧ (P next → I next)) {s : σ} (hs : I s) (calls : List α) :
    (∀ pre, pre <+: calls → P (runCalls step s pre)) ↔ Meets step cond s calls := by
  induction calls generalizing s with
  | nil =>
    refine ⟨fun _ => trivial, fun _ pre hpre => ?_⟩
    obtain rfl := List.prefix_nil.1 hpre
    exact hP s hs
  | cons a calls ih =>
    have hcall : P (call step s a) → I (call step s a) := by
      intro hnext
      unfold call at hnext ⊢
      split at hnext
      · rename_i next hok
        exact (hstep s a next hs hok).2 hnext
      · exact hs
    constructor
    · intro h
      have hnext : P (call step s a) := h [a] (List.prefix_append [a] calls)
      refine ⟨fun hok => ?_, (ih (hcall hnext)).1 fun pre hpre => ?_⟩
      · cases hres : step s a with
        | error e =>
          rw [hres] at hok
          cases hok
        | ok next =>
          unfold call at hnext
          rw [hres] at hnext
          exact (hstep s a next hs hres).1.1 hnext
      · exact h (a :: pre) (List.cons_prefix_cons.2 ⟨rfl, hpre⟩)
    · rintro ⟨hcond, hrest⟩ pre hpre
      have hnext : P (call step s a) := by
        unfold call
        split
        · rename_i next hok
          exact (hstep s a next hs hok).1.2 (hcond (by rw [hok]; rfl))
        · exact hP s hs
      cases pre with
      | nil => exact hP s hs
      | cons b pre =>
        obtain ⟨rfl, htail⟩ := List.cons_prefix_cons.1 hpre
        exact (ih (hcall hnext)).2 hrest pre htail

/-- **Simulation.** What relates two machines before corresponding calls
relates them after a run, when the calls of the first meet the condition. -/
theorem run_simulation {τ β ε' : Type*} {step : σ → α → Except ε σ} {step' : τ → β → Except ε' τ}
    {f : α → β} {cond : σ → α → Prop} {R : σ → τ → Prop}
    (hstep : ∀ s t a, R s t → ((step s a).isOk = true → cond s a) →
      R (call step s a) (call step' t (f a))) {s : σ} {t : τ} {calls : List α} (hs : R s t)
    (h : Meets step cond s calls) : R (runCalls step s calls) (runCalls step' t (calls.map f)) := by
  induction calls generalizing s t with
  | nil => exact hs
  | cons a calls ih => exact ih (hstep s t a hs h.1) h.2

/-! ## Every step of a run -/

/-- A property of each step of a run, of the state it starts from and what is
done there. -/
def Along (next : σ → α → σ) (P : σ → α → Prop) : σ → List α → Prop
  | _, [] => True
  | s, a :: calls => P s a ∧ Along next P (next s a) calls

/-- **Steps, exactly.** Where a step has a property if and only if it meets
the condition, and the property leaves the invariant, all steps have the one
if and only if all meet the other. -/
theorem along_iff {next : σ → α → σ} {P cond : σ → α → Prop} {I : σ → Prop}
    (hstep : ∀ s a, I s → (P s a ↔ cond s a)) (hkeep : ∀ s a, I s → P s a → I (next s a)) {s : σ}
    (hs : I s) (calls : List α) : Along next P s calls ↔ Along next cond s calls := by
  induction calls generalizing s with
  | nil => exact Iff.rfl
  | cons a calls ih =>
    constructor
    · rintro ⟨hP, hrest⟩
      exact ⟨(hstep s a hs).1 hP, (ih (hkeep s a hs hP)).1 hrest⟩
    · rintro ⟨hcond, hrest⟩
      have hP := (hstep s a hs).2 hcond
      exact ⟨hP, (ih (hkeep s a hs hP)).2 hrest⟩

end Epiphany
