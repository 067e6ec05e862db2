import Mathlib
/-!
# Handlers — programs that keep what they did when they fail

A handler changes a state step by step and may stop at an error, with the
changes it made so far in place. `Ensures P m Q E` says what holds after it:
`Q` of the result and the state, or `E` of the state it failed in. The rules
follow the ways handlers are put together.
-/

namespace Epiphany

universe u

variable {σ ε α β : Type u}

/-- The state a handler ends in, failed or not. -/
def finalState (m : EStateM ε σ α) (s : σ) : σ :=
  match m s with
  | .ok _ s' => s'
  | .error _ s' => s'

theorem bind_run_ok {m : EStateM ε σ α} (f : α → EStateM ε σ β) {s s' : σ} {a : α}
    (h : m s = .ok a s') : (m >>= f) s = f a s' := by
  rw [show (m >>= f) s = EStateM.bind m f s from rfl, EStateM.bind, h]

theorem bind_run_error {m : EStateM ε σ α} (f : α → EStateM ε σ β) {s s' : σ} {e : ε}
    (h : m s = .error e s') : (m >>= f) s = .error e s' := by
  rw [show (m >>= f) s = EStateM.bind m f s from rfl, EStateM.bind, h]

/-- From a state with `P` a handler ends with `Q`, or fails with `E`. -/
def Ensures (P : σ → Prop) (m : EStateM ε σ α) (Q : α → σ → Prop) (E : σ → Prop) : Prop :=
  ∀ s, P s → match m s with
    | .ok a s' => Q a s'
    | .error _ s' => E s'

namespace Ensures

variable {P : σ → Prop} {Q : α → σ → Prop} {E : σ → Prop} {m : EStateM ε σ α}

theorem pure (a : α) (h : ∀ s, P s → Q a s) :
    Ensures P (Pure.pure a : EStateM ε σ α) Q E := fun s hs => h s hs

theorem throw (e : ε) (h : ∀ s, P s → E s) :
    Ensures P (MonadExcept.throw e : EStateM ε σ α) Q E := fun s hs => h s hs

/-- Reading the state: what is read is the state. -/
theorem get : Ensures P (MonadState.get : EStateM ε σ σ) (fun a s => a = s ∧ P s) E :=
  fun _ hs => ⟨rfl, hs⟩

/-- A failure that is handled: the handler starts from the state it left. -/
theorem tryCatch {F : σ → Prop} {handle : ε → EStateM ε σ α} (hm : Ensures P m Q F)
    (hhandle : ∀ e, Ensures F (handle e) Q E) :
    Ensures P (MonadExcept.tryCatch m handle) Q E := by
  intro s hs
  have hfirst := hm s hs
  rw [show MonadExcept.tryCatch m handle s = EStateM.tryCatch m handle s from rfl]
  unfold EStateM.tryCatch
  split at hfirst
  · rename_i a s' heq
    dsimp only
    rw [heq]
    exact hfirst
  · rename_i e s' heq
    dsimp only
    rw [heq]
    exact hhandle e s' hfirst

/-- What the first part ends with is what the rest starts from. -/
theorem bind {R : α → σ → Prop} {f : α → EStateM ε σ β} {Q : β → σ → Prop}
    (hm : Ensures P m R E) (hf : ∀ a, Ensures (R a) (f a) Q E) : Ensures P (m >>= f) Q E := by
  intro s hs
  have hfirst := hm s hs
  rw [show (m >>= f) s = EStateM.bind m f s from rfl]
  unfold EStateM.bind
  split at hfirst
  · rename_i a s' heq
    rw [heq]
    exact hf a s' hfirst
  · rename_i e s' heq
    rw [heq]
    exact hfirst

theorem weaken {P' : σ → Prop} {Q' : α → σ → Prop} {E' : σ → Prop} (h : Ensures P m Q E)
    (hP : ∀ s, P' s → P s) (hQ : ∀ a s, Q a s → Q' a s) (hE : ∀ s, E s → E' s) :
    Ensures P' m Q' E' := by
  intro s hs
  have hm := h s (hP s hs)
  split at hm
  · exact hQ _ _ hm
  · exact hE _ hm

/-- The state a handler starts from may be fixed. -/
theorem of_state (h : ∀ s, P s → Ensures (fun s' => s' = s) m Q E) : Ensures P m Q E :=
  fun s hs => h s hs s rfl

/-- A loop keeps what each of its rounds passes on to the next. -/
theorem foldlM {I : List α → β → σ → Prop} {f : β → α → EStateM ε σ β} {l : List α} {b : β}
    (hround : ∀ a rest b, a ∈ l → Ensures (I (a :: rest) b) (f b a) (I rest) E) :
    Ensures (I l b) (l.foldlM f b) (I []) E := by
  induction l generalizing b with
  | nil => exact Ensures.pure b fun s hs => hs
  | cons a l ih =>
    rw [List.foldlM_cons]
    exact bind (hround a l b List.mem_cons_self) fun b =>
      ih fun x rest b hx => hround x rest b (List.mem_cons_of_mem a hx)

theorem finalState (h : Ensures P m (fun _ => E) E) {s : σ} (hs : P s) :
    E (finalState m s) := by
  have hm := h s hs
  unfold Epiphany.finalState
  split at hm
  · exact hm
  · exact hm

end Ensures

end Epiphany
