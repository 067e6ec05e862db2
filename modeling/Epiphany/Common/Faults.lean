import Epiphany.Common.Handlers
/-!
# Faults — programs of operations any of which may fail

A program works on a state by operations that can fail from outside. A run
is given a plan: for each operation to come, whether it fails and how far it
gets then. Operations that succeed one after another take their part of the
plan (`attempts_ok`); and what every operation keeps, done or torn, a program
keeps whatever fails (`Ensures.attempts`).
-/

namespace Epiphany

variable {σ ε α : Type}

/-- A state, and what happens to the operations to come: each succeeds, or
fails after it got so far. Those after the plan succeed. -/
structure Faulty (σ : Type) where
  state : σ
  plan : List (Option Nat)

/-- A program whose operations may fail. -/
abbrev Fallible (ε σ α : Type) := EStateM ε (Faulty σ) α

/-- One operation: what it does, and what it leaves when it fails. -/
structure Attempt (σ : Type) where
  done : σ → σ
  torn : Nat → σ → σ

namespace Fallible

/-- Perform one operation; a fault ends the program with an error. -/
def attempt (e : ε) (op : Attempt σ) : Fallible ε σ Unit := fun w =>
  match w.plan.head?.join with
  | none => .ok ⟨⟩ { state := op.done w.state, plan := w.plan.tail }
  | some reached => .error e { state := op.torn reached w.state, plan := w.plan.tail }

/-- An operation that leaves the state as it is when it fails. -/
def op (f : σ → σ) : Attempt σ := ⟨f, fun _ s => s⟩

/-- Read the state. -/
def read : Fallible ε σ σ := fun w => .ok w.state w

/-- Change the state, without an operation that could fail. -/
def update (f : σ → σ) : Fallible ε σ Unit := fun w => .ok ⟨⟩ { w with state := f w.state }

/-- Go on whether a program fails or not, knowing which. -/
def probe (m : Fallible ε σ Unit) : Fallible ε σ Bool := fun w =>
  match m w with
  | .ok _ w' => .ok true w'
  | .error _ w' => .ok false w'

/-- Go on whether a program fails or not. -/
def ignore (m : Fallible ε σ Unit) : Fallible ε σ Unit := fun w =>
  match m w with
  | .ok _ w' => .ok ⟨⟩ w'
  | .error _ w' => .ok ⟨⟩ w'

/-- Operations one after another. -/
def attempts (e : ε) (ops : List (Attempt σ)) : Fallible ε σ Unit := ops.forM (attempt e)

/-- The state after operations that succeed. -/
def doneAll (ops : List (Attempt σ)) (s : σ) : σ := ops.foldl (fun s op => op.done s) s

theorem attempts_append (e : ε) (ops ops' : List (Attempt σ)) :
    attempts e (ops ++ ops') = (attempts e ops >>= fun _ => attempts e ops') :=
  List.forM_append

theorem doneAll_append (ops ops' : List (Attempt σ)) (s : σ) :
    doneAll (ops ++ ops') s = doneAll ops' (doneAll ops s) :=
  List.foldl_append

/-- Operations that succeed take their part of the plan. -/
theorem attempts_ok (e : ε) (ops : List (Attempt σ)) (s : σ)
    (plan : List (Option Nat)) :
    attempts e ops ⟨s, List.replicate ops.length none ++ plan⟩ = .ok ⟨⟩ ⟨doneAll ops s, plan⟩ := by
  induction ops generalizing s with
  | nil => rfl
  | cons op ops ih =>
    have hstep : attempts e (op :: ops) =
        (attempt e op >>= fun _ => attempts e ops) := rfl
    rw [hstep, show (attempt e op >>= fun _ => attempts e ops) =
      EStateM.bind (attempt e op) fun _ => attempts e ops from rfl]
    unfold EStateM.bind
    simp only [List.length_cons, List.replicate_succ, List.cons_append, attempt, List.head?_cons,
      Option.join_some, List.tail_cons]
    exact ih (op.done s)

/-- No operation among the next `n` fails. -/
def NoFault (n : Nat) (plan : List (Option Nat)) : Prop := ∀ fate ∈ plan.take n, fate = none

instance (n : Nat) (plan : List (Option Nat)) : Decidable (NoFault n plan) :=
  inferInstanceAs (Decidable (∀ fate ∈ plan.take n, fate = none))

theorem noFault_zero (plan : List (Option Nat)) : NoFault 0 plan := by
  simp [NoFault]

theorem noFault_succ {n : Nat} {plan : List (Option Nat)} :
    NoFault (n + 1) plan ↔ plan.head?.join = none ∧ NoFault n plan.tail := by
  cases plan with
  | nil => simp [NoFault]
  | cons fate plan => simp [NoFault]

theorem attempt_ok {e : ε} {op : Attempt σ} {s : σ} {plan : List (Option Nat)}
    (h : plan.head?.join = none) :
    attempt e op ⟨s, plan⟩ = .ok ⟨⟩ ⟨op.done s, plan.tail⟩ := by
  unfold attempt
  rw [h]

theorem attempt_error {e : ε} {op : Attempt σ} {s : σ} {plan : List (Option Nat)} {reached : Nat}
    (h : plan.head?.join = some reached) :
    attempt e op ⟨s, plan⟩ = .error e ⟨op.torn reached s, plan.tail⟩ := by
  unfold attempt
  rw [h]

/-- Operations are all done, or one of them fails; which one the plan says. -/
theorem attempts_cases (e : ε) (ops : List (Attempt σ)) (s : σ) (plan : List (Option Nat)) :
    (NoFault ops.length plan ∧
      attempts e ops ⟨s, plan⟩ = .ok ⟨⟩ ⟨doneAll ops s, plan.drop ops.length⟩) ∨
    (¬NoFault ops.length plan ∧ ∃ w, attempts e ops ⟨s, plan⟩ = .error e w) := by
  induction ops generalizing s plan with
  | nil => exact Or.inl ⟨noFault_zero plan, rfl⟩
  | cons op ops ih =>
    have hstep : attempts e (op :: ops) = (attempt e op >>= fun _ => attempts e ops) := rfl
    rw [hstep, List.length_cons, noFault_succ]
    rcases hhead : plan.head?.join with - | reached
    · have hrun : (attempt e op >>= fun _ => attempts e ops) ⟨s, plan⟩ =
          attempts e ops ⟨op.done s, plan.tail⟩ := bind_run_ok _ (attempt_ok hhead)
      rw [hrun]
      rcases ih (op.done s) plan.tail with ⟨hnone, hok⟩ | ⟨hfault, herr⟩
      · refine Or.inl ⟨⟨rfl, hnone⟩, ?_⟩
        rw [hok, List.drop_tail]
        rfl
      · exact Or.inr ⟨fun h => hfault h.2, herr⟩
    · refine Or.inr ⟨fun h => ?_, _, bind_run_error _ (attempt_error hhead)⟩
      cases h.1

end Fallible

open Fallible

/-- A condition on the state of a faulty run. -/
def On (I : σ → Prop) (w : Faulty σ) : Prop := I w.state

namespace Ensures

variable {I Q E : σ → Prop} {e : ε} {op : Attempt σ} {ops : List (Attempt σ)}

theorem attempt (hdone : ∀ s, I s → Q (op.done s)) (htorn : ∀ s r, I s → E (op.torn r s)) :
    Ensures (On I) (attempt e op) (fun _ => On Q) (On E) := by
  intro w hw
  unfold Fallible.attempt
  split
  · rename_i heq
    split at heq
    · cases heq
      exact hdone _ hw
    · cases heq
  · rename_i heq
    split at heq
    · cases heq
    · cases heq
      exact htorn _ _ hw

/-- The state a program starts from may be fixed. -/
theorem fix {m : Fallible ε σ α} {Q : α → Faulty σ → Prop} {E : Faulty σ → Prop}
    (h : ∀ s, I s → Ensures (On fun s' => s' = s) m Q E) : Ensures (On I) m Q E :=
  fun w hw => h w.state hw w rfl

/-- What is read is the state. -/
theorem read {f : σ → Fallible ε σ α} {Q : α → Faulty σ → Prop} {E : Faulty σ → Prop} {s : σ}
    (h : Ensures (On fun s' => s' = s) (f s) Q E) :
    Ensures (On fun s' => s' = s) (Fallible.read >>= f) Q E := by
  rintro w hw
  have hrest := h w hw
  rw [← show w.state = s from hw] at hrest
  exact hrest

theorem update {f : σ → σ} (h : ∀ s, I s → Q (f s)) :
    Ensures (On I) (Fallible.update f : Fallible ε σ Unit) (fun _ => On Q) (On E) :=
  fun _ hw => h _ hw

/-- A result that is there before the program goes on. -/
theorem ofExcept {x : Except ε α} (herr : ∀ s, I s → E s) :
    Ensures (On I) (MonadExcept.ofExcept x : Fallible ε σ α)
      (fun a w => x = .ok a ∧ On I w) (On E) := by
  intro w hw
  cases x with
  | ok a => exact ⟨rfl, hw⟩
  | error e => exact herr _ hw

theorem probe {m : Fallible ε σ Unit} (h : Ensures (On I) m (fun _ => On Q) (On Q)) :
    Ensures (On I) (probe m) (fun _ => On Q) (On E) := by
  intro w hw
  have hm := h w hw
  unfold Fallible.probe
  split at hm
  · rename_i heq
    rw [heq]
    exact hm
  · rename_i heq
    rw [heq]
    exact hm

theorem ignore {m : Fallible ε σ Unit} (h : Ensures (On I) m (fun _ => On Q) (On Q)) :
    Ensures (On I) (ignore m) (fun _ => On Q) (On E) := by
  intro w hw
  have hm := h w hw
  unfold Fallible.ignore
  split at hm
  · rename_i heq
    rw [heq]
    exact hm
  · rename_i heq
    rw [heq]
    exact hm

theorem attempts_nil (h : ∀ s, I s → Q s) :
    Ensures (On I) (Fallible.attempts e []) (fun _ => On Q) (On E) :=
  Ensures.pure _ fun w hw => h w.state hw

/-- One operation and then the others. -/
theorem attempts_cons {R : σ → Prop} (hdone : ∀ s, I s → R (op.done s))
    (htorn : ∀ s r, I s → E (op.torn r s))
    (hrest : Ensures (On R) (Fallible.attempts e ops) (fun _ => On Q) (On E)) :
    Ensures (On I) (Fallible.attempts e (op :: ops)) (fun _ => On Q) (On E) :=
  Ensures.bind (R := fun _ => On R) (Ensures.attempt hdone htorn) fun _ => hrest

/-- **Operations that keep a condition**, done or torn, keep it together, and
all of them are done when none fails. -/
theorem attempts (hkeep : ∀ op ∈ ops, ∀ s, I s → I (op.done s) ∧ ∀ r, I (op.torn r s)) (s : σ) :
    Ensures (On fun s' => s' = s ∧ I s) (attempts e ops)
      (fun _ => On fun s' => s' = doneAll ops s ∧ I s') (On I) := by
  induction ops generalizing s with
  | nil =>
    rintro w ⟨hw, hI⟩
    exact ⟨hw, hw ▸ hI⟩
  | cons op ops ih =>
    have hop := hkeep op List.mem_cons_self
    have hrest := ih (fun op' h => hkeep op' (List.mem_cons_of_mem op h)) (op.done s)
    refine Ensures.bind (R := fun _ => On fun s' => s' = op.done s ∧ I (op.done s))
      (Ensures.attempt ?_ ?_) fun _ => hrest
    · rintro s' ⟨rfl, hI⟩
      exact ⟨rfl, (hop _ hI).1⟩
    · rintro s' r ⟨rfl, hI⟩
      exact (hop _ hI).2 r

/-- Operations keep what each of them keeps. -/
theorem attempts_keep (hkeep : ∀ op ∈ ops, ∀ s, I s → I (op.done s) ∧ ∀ r, I (op.torn r s)) :
    Ensures (On I) (Fallible.attempts e ops) (fun _ => On I) (On I) :=
  Ensures.fix fun s hs => (attempts hkeep s).weaken (by rintro w rfl; exact ⟨rfl, hs⟩)
    (fun _ _ h => h.2) fun _ h => h

end Ensures

/-! ## Files

A file is its bytes. A write at a position replaces what is there and
extends the file where it ends; a failing write still writes some of its
bytes, and not all. -/

namespace Files

/-- Bytes written at a position of a file. -/
def overwrite (content : List UInt8) (pos : Nat) (bytes : List UInt8) : List UInt8 :=
  (content ++ List.replicate (pos - content.length) 0).take pos ++ bytes ++
    content.drop (pos + bytes.length)

/-- What a failing write of bytes still writes. -/
def tornBytes (bytes : List UInt8) (reached : Nat) : List UInt8 :=
  bytes.take (min reached (bytes.length - 1))

/-- Cut or extend a file. -/
def resize (content : List UInt8) (len : Nat) : List UInt8 :=
  content.take len ++ List.replicate (len - content.length) 0

/-- A write at the end of a file. -/
@[simp] theorem overwrite_length (content bytes : List UInt8) :
    overwrite content content.length bytes = content ++ bytes := by
  simp [overwrite]

theorem resize_append (content tail : List UInt8) :
    resize (content ++ tail) content.length = content := by
  simp [resize]

@[simp] theorem resize_zero (content : List UInt8) : resize content 0 = [] := by
  simp [resize]

end Files

end Epiphany
