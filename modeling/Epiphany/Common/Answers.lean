import Epiphany.Common.Demand
/-!
# Answers — a task whose questions are all answered

Where every question has an answer at hand, a task comes to a result and
its questions on the way are a list. Answers that also pass a state on come
to the same result when the state does not show in them
(`play_eq_result`), and the task of a key that has a value comes to it by
the values of the keys it asks for (`result_of_read`).
-/

namespace Epiphany

namespace Demand

variable {κ β ε α γ σ : Type}

namespace Task

/-- The result of a task, from the answers to its questions. -/
def result (answer : κ → Except ε β) : Task κ β ε α → Except ε α
  | .done r => r
  | .ask k next =>
    match answer k with
    | .ok v => (next v).result answer
    | .error e => .error e

/-- The questions of a task in their order, to the first without a value. -/
def asked (answer : κ → Except ε β) : Task κ β ε α → List κ
  | .done _ => []
  | .ask k next =>
    k :: match answer k with
      | .ok v => (next v).asked answer
      | .error _ => []

/-- Answer the questions of a task, each answer passing a state on. -/
def play (answer : κ → σ → Except ε β × σ) : Task κ β ε α → σ → Except ε α × σ
  | .done r, s => (r, s)
  | .ask k next, s =>
    match answer k s with
    | (.ok v, s) => (next v).play answer s
    | (.error e, s) => (.error e, s)

theorem bind_pure (t : Task κ β ε α) : (t >>= pure) = t := by
  induction t with
  | done r => rcases r with e | a <;> rfl
  | ask k next ih => exact congrArg (Task.ask k) (funext ih)

theorem bind_assoc {δ : Type} (t : Task κ β ε α) (f : α → Task κ β ε γ) (g : γ → Task κ β ε δ) :
    (t >>= f >>= g) = t >>= fun a => f a >>= g := by
  induction t with
  | done r => rcases r with e | a <;> rfl
  | ask k next ih => exact congrArg (Task.ask k) (funext ih)

instance : LawfulMonad (Task κ β ε) :=
  LawfulMonad.mk' _ (fun t => bind_pure t) (fun _ _ => rfl) bind_assoc

section Result

variable {answer : κ → Except ε β}

@[simp] theorem result_done (r : Except ε α) : (done r : Task κ β ε α).result answer = r := rfl

@[simp] theorem result_request (k : κ) :
    (request k : Task κ β ε β).result answer = answer k := by
  unfold request result
  cases answer k <;> rfl

theorem result_bind (t : Task κ β ε α) (f : α → Task κ β ε γ) :
    (t >>= f).result answer = t.result answer >>= fun a => (f a).result answer := by
  induction t with
  | done r => rcases r with e | a <;> rfl
  | ask k next ih =>
    rw [ask_bind, result, result]
    cases answer k with
    | error e => rfl
    | ok v => exact ih v

theorem result_mapM {ι : Type} (f : ι → Task κ β ε α) (l : List ι) :
    (l.mapM f).result answer = l.mapM fun x => (f x).result answer := by
  induction l with
  | nil => rfl
  | cons x l ih =>
    rw [List.mapM_cons, List.mapM_cons, result_bind]
    refine congrArg _ (funext fun a => ?_)
    rw [result_bind, ih]
    rfl

theorem run_eq_result (t : Task κ β ε α) :
    t.run (fun k => some (answer k)) = some (t.result answer) := by
  induction t with
  | done r => rfl
  | ask k next ih =>
    rw [run, result]
    cases answer k with
    | error e => rfl
    | ok v => exact ih v

@[simp] theorem asked_done (r : Except ε α) : (done r : Task κ β ε α).asked answer = [] := rfl

@[simp] theorem asked_request (k : κ) :
    (request k : Task κ β ε β).asked answer = [k] := by
  unfold request asked
  cases answer k <;> rfl

/-- A sequence asks what its first part asks, and then what the rest asks. -/
theorem asked_bind (t : Task κ β ε α) (f : α → Task κ β ε γ) :
    (t >>= f).asked answer =
      t.asked answer ++
        match t.result answer with
        | .ok a => (f a).asked answer
        | .error _ => [] := by
  induction t with
  | done r => rcases r with e | a <;> rfl
  | ask k next ih =>
    rw [ask_bind, asked, asked, result, List.cons_append]
    cases answer k with
    | error e => rfl
    | ok v => exact congrArg (k :: ·) (ih v)

theorem asked_bind_of_ok {t : Task κ β ε α} {a : α} (h : t.result answer = .ok a)
    (f : α → Task κ β ε γ) :
    (t >>= f).asked answer = t.asked answer ++ (f a).asked answer := by
  rw [asked_bind, h]

end Result

/-- **Play.** Where the answers are the same in every state that the
answers keep to, the state does not show in the result. -/
theorem play_eq_result {P : σ → Prop} {answer : κ → σ → Except ε β × σ}
    {fresh : κ → Except ε β} (h : ∀ k s, P s → (answer k s).1 = fresh k ∧ P (answer k s).2)
    (t : Task κ β ε α) {s : σ} (hs : P s) :
    (t.play answer s).1 = t.result fresh ∧ P (t.play answer s).2 := by
  induction t generalizing s with
  | done r => exact ⟨rfl, hs⟩
  | ask k next ih =>
    obtain ⟨hanswer, hnext⟩ := h k s hs
    rw [play, result, ← hanswer]
    rcases hk : answer k s with ⟨e | v, s'⟩
    · rw [hk] at hnext
      exact ⟨rfl, hnext⟩
    · rw [hk] at hnext
      exact ih v hnext

end Task

namespace System

variable [DecidableEq κ] {s : System κ β ε}

/-- The task of a key that has a value comes to that value. -/
theorem result_of_read {answer : κ → Except ε β}
    (h : ∀ d n w, s.read n [] d = some (.ok w) → answer d = .ok w) {n : Nat} {k : κ} {v : β}
    (hread : s.read n [] k = some (.ok v)) : (s.compute k).result answer = .ok v := by
  rcases n with _ | n
  · simp [read] at hread
  rw [read_of_not_mem List.not_mem_nil] at hread
  have hrun : (s.compute k).run (fun d => some (answer d)) = some (.ok v) :=
    Task.run_ok_mono (fun d w hd => by rw [h d n w (read_nil_of_ok hd)]) hread
  rw [Task.run_eq_result] at hrun
  exact Option.some.inj hrun

end System

end Demand

end Epiphany
