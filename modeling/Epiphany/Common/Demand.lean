import Mathlib
/-!
# Demand — evaluation on demand, with a memo

A task computes the value of a key and may ask for the values of other
keys on the way; its first failure is its result. `System.value` evaluates
keys on demand over one memo: a key in progress is marked, a key met again
while marked is a cycle, a value found is kept, and a failure takes its
mark back.

`System.read` is the same without the memo: it carries only the path of
the keys in progress. A value read is read along every path that its own
computation does not run into (`read_extend`), so a sound memo never
changes an answer (`value_eq_read`), and a key that demands itself is
reported as a cycle by every read that comes to it (`read_of_cyclic`).
-/

namespace Epiphany

namespace Demand

/-- A task: a result, or a question and what to do with the answer. -/
inductive Task (κ β ε α : Type) where
  | done (r : Except ε α)
  | ask (k : κ) (next : β → Task κ β ε α)

/-- The memo's entry of a key. -/
inductive Slot (β : Type) where
  | computing
  | done (v : β)
deriving DecidableEq

/-- A memo, as its lookups. -/
abbrev Memo (κ β : Type) := κ → Option (Slot β)

variable {κ β ε α γ σ : Type}

namespace Task

def bind : Task κ β ε α → (α → Task κ β ε γ) → Task κ β ε γ
  | .done (.ok a), f => f a
  | .done (.error e), _ => .done (.error e)
  | .ask k next, f => .ask k fun v => (next v).bind f

instance : Monad (Task κ β ε) where
  pure a := .done (.ok a)
  bind := bind

/-- Ask for the value of a key. -/
def request (k : κ) : Task κ β ε β := .ask k fun v => .done (.ok v)

/-- Answer the questions of a task. -/
def run (answer : κ → Option (Except ε β)) : Task κ β ε α → Option (Except ε α)
  | .done r => some r
  | .ask k next =>
    match answer k with
    | none => none
    | some (.error e) => some (.error e)
    | some (.ok v) => (next v).run answer

/-- Answer the questions of a task, the answers passing a state on. -/
def exec (answer : κ → σ → Option (Except ε β × σ)) : Task κ β ε α → σ → Option (Except ε α × σ)
  | .done r, s => some (r, s)
  | .ask k next, s =>
    match answer k s with
    | none => none
    | some (.error e, s) => some (.error e, s)
    | some (.ok v, s) => (next v).exec answer s

/-- Every question of a task, whatever the answers, is about a key in the
set. -/
def Within (S : Set κ) : Task κ β ε α → Prop
  | .done _ => True
  | .ask k next => k ∈ S ∧ ∀ v, (next v).Within S

/-- A task, answered, comes to ask about a key. -/
inductive Asks (answer : κ → Option (Except ε β)) : Task κ β ε α → κ → Prop
  | here (k : κ) (next : β → Task κ β ε α) : Asks answer (.ask k next) k
  | later {k d : κ} {next : β → Task κ β ε α} {v : β} (hv : answer k = some (.ok v))
      (h : Asks answer (next v) d) : Asks answer (.ask k next) d

/-! ## Tasks in sequence -/

@[simp] theorem pure_eq (a : α) : (pure a : Task κ β ε α) = .done (.ok a) := rfl

@[simp] theorem done_ok_bind (a : α) (f : α → Task κ β ε γ) :
    ((.done (.ok a) : Task κ β ε α) >>= f) = f a := rfl

@[simp] theorem done_error_bind (e : ε) (f : α → Task κ β ε γ) :
    ((.done (.error e) : Task κ β ε α) >>= f) = .done (.error e) := rfl

@[simp] theorem ask_bind (k : κ) (next : β → Task κ β ε α) (f : α → Task κ β ε γ) :
    (Task.ask k next >>= f) = .ask k fun v => next v >>= f := rfl

@[simp] theorem run_done (answer : κ → Option (Except ε β)) (r : Except ε α) :
    (Task.done r).run answer = some r := rfl

/-- A sequence runs its first part, and on success the rest. -/
theorem run_bind (answer : κ → Option (Except ε β)) (t : Task κ β ε α) (f : α → Task κ β ε γ) :
    (t >>= f).run answer =
      match t.run answer with
      | none => none
      | some (.error e) => some (.error e)
      | some (.ok a) => (f a).run answer := by
  induction t with
  | done r => rcases r with e | a <;> rfl
  | ask k next ih =>
    rw [ask_bind, run, run]
    rcases answer k with _ | _ | v
    · rfl
    · rfl
    · exact ih v

theorem run_request (answer : κ → Option (Except ε β)) (k : κ) :
    (request k : Task κ β ε β).run answer = answer k := by
  rw [request, run]
  rcases answer k with _ | _ | v <;> rfl

theorem run_bind_of_ok {answer : κ → Option (Except ε β)} {t : Task κ β ε α} {a : α}
    (h : t.run answer = some (.ok a)) (f : α → Task κ β ε γ) :
    (t >>= f).run answer = (f a).run answer := by
  rw [run_bind, h]

theorem run_bind_eq_ok {answer : κ → Option (Except ε β)} {t : Task κ β ε α}
    {f : α → Task κ β ε γ} {c : γ} : (t >>= f).run answer = some (.ok c) ↔
      ∃ a, t.run answer = some (.ok a) ∧ (f a).run answer = some (.ok c) := by
  rw [run_bind]
  rcases t.run answer with _ | _ | a <;> simp

theorem within_bind {S : Set κ} {t : Task κ β ε α} {f : α → Task κ β ε γ} (ht : t.Within S)
    (hf : ∀ a, (f a).Within S) : (t >>= f).Within S := by
  induction t with
  | done r =>
    rcases r with e | a
    · trivial
    · exact hf a
  | ask k next ih => exact ⟨ht.1, fun v => ih v (ht.2 v)⟩

theorem within_request {S : Set κ} {k : κ} (hk : k ∈ S) :
    (request k : Task κ β ε β).Within S :=
  ⟨hk, fun _ => trivial⟩

theorem within_foldlM {ι : Type} {S : Set κ} {l : List ι} {f : α → ι → Task κ β ε α}
    (h : ∀ x ∈ l, ∀ a, (f a x).Within S) (a : α) : (l.foldlM f a).Within S := by
  induction l generalizing a with
  | nil => trivial
  | cons x l ih =>
    rw [List.foldlM_cons]
    exact within_bind (h x List.mem_cons_self a) fun a' =>
      ih (fun y hy => h y (List.mem_cons_of_mem _ hy)) a'

theorem within_mono {S T : Set κ} (hST : S ⊆ T) {t : Task κ β ε α} (h : t.Within S) :
    t.Within T := by
  induction t with
  | done r => trivial
  | ask k next ih => exact ⟨hST h.1, fun v => ih v (h.2 v)⟩

/-! ## Better answers -/

/-- More answers, more results. -/
theorem run_mono {f g : κ → Option (Except ε β)} (hfg : ∀ k r, f k = some r → g k = some r)
    {t : Task κ β ε α} {r : Except ε α} (h : t.run f = some r) : t.run g = some r := by
  induction t with
  | done r' => exact h
  | ask k next ih =>
    rw [run] at h ⊢
    rcases hf : f k with _ | e | v
    · simp [hf] at h
    · rw [hf] at h
      rw [hfg k _ hf]
      exact h
    · rw [hf] at h
      rw [hfg k _ hf]
      exact ih v h

/-- A task that succeeds meets successful answers only. -/
theorem run_ok_mono {f g : κ → Option (Except ε β)}
    (hfg : ∀ k v, f k = some (.ok v) → g k = some (.ok v)) {t : Task κ β ε α} {a : α}
    (h : t.run f = some (.ok a)) : t.run g = some (.ok a) := by
  induction t with
  | done r => exact h
  | ask k next ih =>
    rw [run] at h ⊢
    rcases hf : f k with _ | e | v
    · simp [hf] at h
    · simp [hf] at h
    · rw [hf] at h
      rw [hfg k v hf]
      exact ih v h

/-- A task comes to a result when its questions are answered. -/
theorem run_isSome {S : Set κ} {answer : κ → Option (Except ε β)}
    (h : ∀ k ∈ S, (answer k).isSome) {t : Task κ β ε α} (ht : t.Within S) :
    (t.run answer).isSome := by
  induction t with
  | done r => rfl
  | ask k next ih =>
    obtain ⟨r, hr⟩ := Option.isSome_iff_exists.1 (h k ht.1)
    rw [Task.run, hr]
    rcases r with e | v
    · rfl
    · exact ih v (ht.2 v)

/-- Where answers differ only by failing, so do the results. -/
theorem run_or {P : ε → Prop} {f g : κ → Option (Except ε β)}
    (hfg : ∀ k, f k = g k ∨ ∃ e, P e ∧ f k = some (.error e)) (t : Task κ β ε α) :
    t.run f = t.run g ∨ ∃ e, P e ∧ t.run f = some (.error e) := by
  induction t with
  | done r => exact .inl rfl
  | ask k next ih =>
    rw [run, run]
    rcases hfg k with h | ⟨e, he, h⟩
    · rw [h]
      rcases g k with _ | e | v
      · exact .inl rfl
      · exact .inl rfl
      · exact ih v
    · rw [h]
      exact .inr ⟨e, he, rfl⟩

end Task

/-! ## Systems -/

/-- The task of each key, and the failure of a key that comes back to
itself. -/
structure System (κ β ε : Type) where
  compute : κ → Task κ β ε β
  cycle : κ → ε

namespace System

variable [DecidableEq κ] (s : System κ β ε)

/-- The value of a key, over a memo; `n` bounds the nesting. -/
def value : Nat → κ → Memo κ β → Option (Except ε β × Memo κ β)
  | 0, _, _ => none
  | n + 1, k, memo =>
    match memo k with
    | some (.done v) => some (.ok v, memo)
    | some .computing => some (.error (s.cycle k), memo)
    | none =>
      match (s.compute k).exec (value n) (Function.update memo k (some .computing)) with
      | none => none
      | some (.ok v, memo) => some (.ok v, Function.update memo k (some (.done v)))
      | some (.error e, memo) => some (.error e, Function.update memo k none)

/-- The value of a key while the keys of the path are in progress; `n`
bounds the nesting. -/
def read : Nat → List κ → κ → Option (Except ε β)
  | 0, _, _ => none
  | n + 1, path, k =>
    if k ∈ path then some (.error (s.cycle k)) else (s.compute k).run (read n (k :: path))

/-- A set of keys that the tasks of its keys do not leave. -/
def Closed (S : Set κ) : Prop := ∀ k ∈ S, (s.compute k).Within S

/-- The computation of a key comes to ask for another. -/
def Demands (k d : κ) : Prop := ∃ n, (s.compute k).Asks (s.read n []) d

variable {s}

/-! ## Reading along a path -/

theorem read_of_mem {path : List κ} {k : κ} (h : k ∈ path) (n : Nat) :
    s.read (n + 1) path k = some (.error (s.cycle k)) := by
  rw [read, if_pos h]

theorem read_of_not_mem {path : List κ} {k : κ} (h : k ∉ path) (n : Nat) :
    s.read (n + 1) path k = (s.compute k).run (s.read n (k :: path)) := by
  rw [read, if_neg h]

/-- With more nesting allowed, a read finds the same. -/
theorem read_mono {m n : Nat} (hmn : m ≤ n) {path : List κ} {k : κ} {r : Except ε β}
    (h : s.read m path k = some r) : s.read n path k = some r := by
  induction m generalizing n path k r with
  | zero => simp [read] at h
  | succ m ih =>
    obtain ⟨n, rfl⟩ : ∃ n', n = n' + 1 := ⟨n - 1, by omega⟩
    by_cases hk : k ∈ path
    · rw [read_of_mem hk] at h ⊢
      exact h
    · rw [read_of_not_mem hk] at h ⊢
      exact Task.run_mono (fun d r' hd => ih (by omega) hd) h

/-- A read has one result. -/
theorem read_unique {m n : Nat} {path : List κ} {k : κ} {r r' : Except ε β}
    (h : s.read m path k = some r) (h' : s.read n path k = some r') : r = r' := by
  have hm := read_mono (le_max_left m n) h
  rw [read_mono (le_max_right m n) h'] at hm
  exact (Option.some.inj hm).symm

/-- Along a longer path, a read finds the same or runs into the path. -/
theorem read_or_cycle {path path' : List κ} (hsub : path' ⊆ path) (n : Nat) (k : κ) :
    s.read n path k = s.read n path' k ∨
      ∃ e, (∃ p ∈ path, p ∉ path' ∧ e = s.cycle p) ∧ s.read n path k = some (.error e) := by
  induction n generalizing path path' k with
  | zero => exact .inl rfl
  | succ n ih =>
    by_cases hk' : k ∈ path'
    · rw [read_of_mem hk', read_of_mem (hsub hk')]
      exact .inl rfl
    by_cases hk : k ∈ path
    · exact .inr ⟨s.cycle k, ⟨k, hk, hk', rfl⟩, read_of_mem hk n⟩
    rw [read_of_not_mem hk, read_of_not_mem hk']
    refine Task.run_or (fun d => ?_) _
    rcases ih (List.cons_subset_cons k hsub) d with h | ⟨e, ⟨p, hp, hp', rfl⟩, h⟩
    · exact .inl h
    · rw [List.mem_cons, not_or] at hp'
      exact .inr ⟨_, ⟨p, (List.mem_cons.1 hp).resolve_left hp'.1, hp'.2, rfl⟩, h⟩

/-- A value found along a path is found along every part of it. -/
theorem read_shrink {path path' : List κ} (hsub : path' ⊆ path) {n : Nat} {k : κ} {v : β}
    (h : s.read n path k = some (.ok v)) : s.read n path' k = some (.ok v) := by
  rcases read_or_cycle hsub n k with heq | ⟨e, -, herr⟩
  · rw [← heq, h]
  · rw [herr] at h
    cases h

theorem read_nil_of_ok {path : List κ} {n : Nat} {k : κ} {v : β}
    (h : s.read n path k = some (.ok v)) : s.read n [] k = some (.ok v) :=
  read_shrink (List.nil_subset path) h

/-- A key's value is found with least nesting. -/
theorem exists_least {n : Nat} {k : κ} {v : β} (h : s.read n [] k = some (.ok v)) :
    ∃ m ≤ n, s.read m [] k = some (.ok v) ∧ ∀ j < m, ∀ w, s.read j [] k ≠ some (.ok w) := by
  classical
  have hex : ∃ m, ∃ w, s.read m [] k = some (.ok w) := ⟨n, v, h⟩
  obtain ⟨w, hw⟩ := Nat.find_spec hex
  obtain rfl : w = v := Except.ok.inj (read_unique hw h)
  exact ⟨Nat.find hex, Nat.find_min' hex ⟨w, h⟩, hw, fun j hj w' hw' =>
    Nat.find_min hex hj ⟨w', hw'⟩⟩

/-- **A value is found along any path** whose keys all need more nesting
than it does. -/
theorem read_extend {path : List κ} {n : Nat} {k : κ} {v : β}
    (h : s.read n [] k = some (.ok v))
    (hpath : ∀ p ∈ path, ∀ m ≤ n, ∀ w, s.read m [] p ≠ some (.ok w)) :
    s.read n path k = some (.ok v) := by
  induction n using Nat.strong_induction_on generalizing path k v with
  | _ n ih =>
    obtain ⟨m, hm, hread, hleast⟩ := exists_least h
    refine read_mono hm ?_
    have hk : k ∉ path := fun hk => hpath k hk n le_rfl v h
    obtain ⟨m, rfl⟩ : ∃ m', m = m' + 1 := by
      rcases m with _ | m
      · simp [read] at hread
      · exact ⟨m, rfl⟩
    rw [read_of_not_mem List.not_mem_nil] at hread
    rw [read_of_not_mem hk]
    -- the questions need less nesting than the key, and the keys of the path more than it
    refine Task.run_ok_mono (fun d w hd => ?_) hread
    refine ih m (by omega) (read_nil_of_ok hd) fun p hp j hj w' => ?_
    rcases List.mem_cons.1 hp with rfl | hp
    · exact hleast j (by omega) w'
    · exact hpath p hp j (by omega) w'

/-! ## The memo -/

variable (s) in
/-- The marks of a memo are the keys of the path, and the values it keeps
are the values of their keys. -/
structure Sound (path : List κ) (memo : Memo κ β) : Prop where
  marked : ∀ k, memo k = some .computing ↔ k ∈ path
  kept : ∀ k v, memo k = some (.done v) → ∃ n, s.read n [] k = some (.ok v)

variable (s) in
/-- Each key of the path that has a value needs the value of `k` for it. -/
def Needs (path : List κ) (k : κ) : Prop :=
  ∀ p ∈ path, ∀ n v, s.read n [] p = some (.ok v) → ∃ m < n, ∃ w, s.read m [] k = some (.ok w)

variable (s) in
/-- The rest of a key's task: whenever the key has a value, the rest comes
to it. -/
def Rest (k : κ) (t : Task κ β ε β) : Prop :=
  ∀ n v, s.read (n + 1) [] k = some (.ok v) → t.run (s.read n [k]) = some (.ok v)

theorem sound_empty : s.Sound [] fun _ => none where
  marked k := by simp
  kept k v h := by cases h

theorem rest_compute (k : κ) : s.Rest k (s.compute k) := by
  intro n v h
  rwa [read_of_not_mem List.not_mem_nil] at h

/-- A kept value is what a read along the path finds. -/
theorem read_of_kept {path : List κ} {k : κ} (hneeds : s.Needs path k) {m n : Nat} {v : β}
    {r : Except ε β} (hv : s.read m [] k = some (.ok v)) (hr : s.read n path k = some r) :
    r = .ok v := by
  obtain ⟨j, -, hj, hleast⟩ := exists_least hv
  refine read_unique hr (read_extend hj fun p hp i hi w hw => ?_)
  obtain ⟨i', hi', w', hw'⟩ := hneeds p hp i w hw
  exact hleast i' (by omega) w' hw'

/-- A question of the rest of a task is needed by the path and the key. -/
theorem Rest.needs {path : List κ} {k d : κ} {next : β → Task κ β ε β}
    (hrest : s.Rest k (.ask d next)) (hneeds : s.Needs path k) : s.Needs (k :: path) d := by
  have hk : ∀ n v, s.read n [] k = some (.ok v) → ∃ m < n, ∃ w, s.read m [] d = some (.ok w) := by
    intro n v h
    rcases n with _ | n
    · simp [read] at h
    have hrun := hrest n v h
    rw [Task.run] at hrun
    rcases hd : s.read n [k] d with _ | e | w
    · simp [hd] at hrun
    · simp [hd] at hrun
    · exact ⟨n, by omega, w, read_nil_of_ok hd⟩
  intro p hp n v h
  rcases List.mem_cons.1 hp with rfl | hp
  · exact hk n v h
  · obtain ⟨m, hm, w, hw⟩ := hneeds p hp n v h
    obtain ⟨j, hj, w', hw'⟩ := hk m w hw
    exact ⟨j, by omega, w', hw'⟩

theorem Rest.next {path : List κ} {k d : κ} {next : β → Task κ β ε β}
    (hrest : s.Rest k (.ask d next)) {n : Nat} {w : β} (hd : s.read n path d = some (.ok w)) :
    s.Rest k (next w) := by
  intro m v h
  have hrun := hrest m v h
  rw [Task.run] at hrun
  rcases hd' : s.read m [k] d with _ | e | w'
  · simp [hd'] at hrun
  · simp [hd'] at hrun
  · rw [hd'] at hrun
    obtain rfl : w' = w := Except.ok.inj (read_unique (read_nil_of_ok hd') (read_nil_of_ok hd))
    exact hrun

/-- The memo after the task of a key, run over a sound memo. -/
theorem exec_eq_run {n : Nat} {path : List κ} {k : κ} (hneeds : s.Needs path k)
    (ih : ∀ path d memo r, s.Sound path memo → s.Needs path d → s.read n path d = some r →
      ∃ memo', s.value n d memo = some (r, memo') ∧ s.Sound path memo')
    {t : Task κ β ε β} {memo : Memo κ β} {r : Except ε β} (hsound : s.Sound (k :: path) memo)
    (hrest : s.Rest k t) (h : t.run (s.read n (k :: path)) = some r) :
    ∃ memo', t.exec (s.value n) memo = some (r, memo') ∧ s.Sound (k :: path) memo' := by
  induction t generalizing memo with
  | done r' =>
    obtain rfl := Option.some.inj h
    exact ⟨memo, rfl, hsound⟩
  | ask d next iht =>
    rw [Task.run] at h
    rcases hd : s.read n (k :: path) d with _ | e | w
    · simp [hd] at h
    · rw [hd] at h
      obtain rfl := Option.some.inj h
      obtain ⟨memo', hval, hsound'⟩ := ih _ d memo _ hsound (hrest.needs hneeds) hd
      exact ⟨memo', by rw [Task.exec, hval], hsound'⟩
    · rw [hd] at h
      obtain ⟨memo', hval, hsound'⟩ := ih _ d memo _ hsound (hrest.needs hneeds) hd
      obtain ⟨memo'', hexec, hsound''⟩ := iht w hsound' (hrest.next hd) h
      exact ⟨memo'', by rw [Task.exec, hval]; exact hexec, hsound''⟩

/-- A memo stays sound when one entry and the path change together. -/
theorem Sound.update {path path' : List κ} {memo : Memo κ β} (h : s.Sound path memo) {k : κ}
    {x : Option (Slot β)} (hpath : ∀ d, d ≠ k → (d ∈ path' ↔ d ∈ path))
    (hmark : x = some .computing ↔ k ∈ path')
    (hkept : ∀ v, x = some (.done v) → ∃ n, s.read n [] k = some (.ok v)) :
    s.Sound path' (Function.update memo k x) := by
  constructor
  · intro d
    by_cases hd : d = k
    · subst hd
      rw [Function.update_self, hmark]
    · rw [Function.update_of_ne hd, h.marked d, hpath d hd]
  · intro d v hv
    by_cases hd : d = k
    · subst hd
      rw [Function.update_self] at hv
      exact hkept v hv
    · rw [Function.update_of_ne hd] at hv
      exact h.kept d v hv

/-- **The memo does not change an answer.** Over a sound memo, a key that
the path needs gets the value it has along the path, and the memo stays
sound. -/
theorem value_eq_read {n : Nat} {path : List κ} {k : κ} {memo : Memo κ β} {r : Except ε β}
    (hsound : s.Sound path memo) (hneeds : s.Needs path k) (h : s.read n path k = some r) :
    ∃ memo', s.value n k memo = some (r, memo') ∧ s.Sound path memo' := by
  induction n generalizing path k memo r with
  | zero => simp [read] at h
  | succ n ih =>
    rw [value]
    rcases hk : memo k with _ | _ | v
    · have hpath : k ∉ path := fun hmem => by
        rw [(hsound.marked k).2 hmem] at hk
        cases hk
      have hother : ∀ d, d ≠ k → (d ∈ k :: path ↔ d ∈ path) := fun d hd => by
        rw [List.mem_cons, or_iff_right hd]
      have hread := h
      rw [read_of_not_mem hpath] at h
      have hmark : s.Sound (k :: path) (Function.update memo k (some .computing)) :=
        hsound.update hother (by simp) (by simp)
      obtain ⟨memo', hexec, hsound'⟩ :=
        exec_eq_run hneeds (fun _ _ _ _ => ih) hmark (rest_compute k) h
      rcases r with e | v
      · refine ⟨Function.update memo' k none, by simp only [hexec], ?_⟩
        exact hsound'.update (fun d hd => (hother d hd).symm) (by simp [hpath]) (by simp)
      · refine ⟨Function.update memo' k (some (.done v)), by simp only [hexec], ?_⟩
        refine hsound'.update (fun d hd => (hother d hd).symm) (by simp [hpath]) ?_
        rintro w hw
        cases hw
        exact ⟨n + 1, read_nil_of_ok hread⟩
    · -- the key is in progress
      have hmem := (hsound.marked k).1 hk
      rw [read_of_mem hmem] at h
      obtain rfl := Option.some.inj h
      exact ⟨memo, rfl, hsound⟩
    · obtain ⟨m, hm⟩ := hsound.kept k v hk
      obtain rfl := read_of_kept hneeds hm h
      exact ⟨memo, rfl, hsound⟩

/-! ## Enough nesting -/

/-- Within a finite closed set, nesting past its size is enough: a path
names each key once. -/
theorem read_isSome {S : Finset κ} (hS : s.Closed S) {n : Nat} {path : List κ} {k : κ}
    (hk : k ∈ S) (hpath : path.Nodup) (hsub : ∀ p ∈ path, p ∈ S)
    (hn : S.card < n + path.length) : (s.read n path k).isSome := by
  induction n generalizing path k with
  | zero =>
    have hcard := List.toFinset_card_of_nodup hpath
    have hle : path.toFinset.card ≤ S.card :=
      Finset.card_le_card fun p hp => hsub p (List.mem_toFinset.1 hp)
    omega
  | succ n ih =>
    by_cases hmem : k ∈ path
    · rw [read_of_mem hmem]
      rfl
    · rw [read_of_not_mem hmem]
      refine Task.run_isSome (fun d hd => ?_) (hS k hk)
      refine ih hd (List.nodup_cons.2 ⟨hmem, hpath⟩) (fun p hp => ?_) ?_
      · rcases List.mem_cons.1 hp with rfl | hp
        · exact hk
        · exact hsub p hp
      · rw [List.length_cons]
        omega

/-- Two memos mark the same keys. -/
def SameMarks (memo memo' : Memo κ β) : Prop :=
  ∀ k, memo' k = some .computing ↔ memo k = some .computing

open Classical in
/-- The keys of a finite set that a memo does not mark. -/
noncomputable def unmarked (S : Finset κ) (memo : Memo κ β) : Finset κ :=
  S.filter fun k => memo k ≠ some .computing

omit [DecidableEq κ] in
theorem card_unmarked_le (S : Finset κ) (memo : Memo κ β) : (unmarked S memo).card ≤ S.card :=
  Finset.card_le_card fun k hk => by
    simp only [unmarked, Finset.mem_filter] at hk
    exact hk.1

omit [DecidableEq κ] in
theorem SameMarks.unmarked_eq {memo memo' : Memo κ β} (h : SameMarks memo memo') (S : Finset κ) :
    unmarked S memo' = unmarked S memo := by
  ext k
  simp only [unmarked, Finset.mem_filter, ne_eq, h k]

/-- A mark leaves fewer keys without one. -/
theorem card_unmarked_lt {S : Finset κ} {memo : Memo κ β} {k : κ} (hk : k ∈ S)
    (hmemo : memo k = none) :
    (unmarked S (Function.update memo k (some .computing))).card < (unmarked S memo).card := by
  refine Finset.card_lt_card (Finset.ssubset_iff_of_subset (fun d hd => ?_) |>.2 ⟨k, ?_, ?_⟩)
  · simp only [unmarked, Finset.mem_filter] at hd ⊢
    refine ⟨hd.1, fun hd' => hd.2 ?_⟩
    by_cases hdk : d = k
    · subst hdk
      rw [Function.update_self]
    · rw [Function.update_of_ne hdk, hd']
  · simp [unmarked, hk, hmemo]
  · simp [unmarked]

theorem exec_isSome {S : Finset κ} {n : Nat}
    (ih : ∀ k memo, k ∈ S → (unmarked S memo).card < n →
      ∃ r memo', s.value n k memo = some (r, memo') ∧ SameMarks memo memo')
    {t : Task κ β ε β} {memo : Memo κ β} (ht : t.Within S) (hn : (unmarked S memo).card < n) :
    ∃ r memo', t.exec (s.value n) memo = some (r, memo') ∧ SameMarks memo memo' := by
  induction t generalizing memo with
  | done r => exact ⟨r, memo, rfl, fun _ => Iff.rfl⟩
  | ask d next iht =>
    obtain ⟨r, memo', hval, hsame⟩ := ih d memo ht.1 hn
    rcases r with e | v
    · exact ⟨.error e, memo', by rw [Task.exec, hval], hsame⟩
    · have hn' : (unmarked S memo').card < n := by
        rw [hsame.unmarked_eq]
        exact hn
      obtain ⟨r, memo'', hexec, hsame'⟩ := iht v (ht.2 v) hn'
      exact ⟨r, memo'', by rw [Task.exec, hval]; exact hexec, fun k => (hsame' k).trans (hsame k)⟩

/-- A memo gets its marks back. -/
theorem SameMarks.restore {memo memo' : Memo κ β} {k : κ} (hk : memo k = none)
    (h : SameMarks (Function.update memo k (some .computing)) memo') {x : Option (Slot β)}
    (hx : x ≠ some .computing) : SameMarks memo (Function.update memo' k x) := by
  intro d
  by_cases hd : d = k
  · subst hd
    simp [hk, hx]
  · rw [Function.update_of_ne hd, h d, Function.update_of_ne hd]

/-- Within a finite closed set, nesting past the keys that are not marked
is enough, over any memo. -/
theorem value_isSome {S : Finset κ} (hS : s.Closed S) {n : Nat} {k : κ} {memo : Memo κ β}
    (hk : k ∈ S) (hn : (unmarked S memo).card < n) :
    ∃ r memo', s.value n k memo = some (r, memo') ∧ SameMarks memo memo' := by
  induction n generalizing k memo with
  | zero => omega
  | succ n ih =>
    rw [value]
    rcases hmemo : memo k with _ | _ | v
    · have hlt := card_unmarked_lt hk hmemo
      obtain ⟨r, memo', hexec, hsame⟩ :=
        exec_isSome (fun _ _ => ih) (hS k hk)
          (show (unmarked S (Function.update memo k (some .computing))).card < n by omega)
      rcases r with e | v
      · exact ⟨.error e, Function.update memo' k none, by simp only [hexec],
          hsame.restore hmemo (by simp)⟩
      · exact ⟨.ok v, Function.update memo' k (some (.done v)), by simp only [hexec],
          hsame.restore hmemo (by simp)⟩
    · exact ⟨_, memo, rfl, fun _ => Iff.rfl⟩
    · exact ⟨_, memo, rfl, fun _ => Iff.rfl⟩

/-! ## Cycles -/

variable (s) in
/-- A result that reports a cycle. -/
def IsCycle (r : Except ε β) : Prop := ∃ p, r = .error (s.cycle p)

/-- A read that comes to ask for a key whose read reports a cycle reports
one. -/
theorem run_of_asks {m n : Nat} {path : List κ} {t : Task κ β ε α} {d : κ}
    (hasks : t.Asks (s.read m []) d) (hd : ∀ r, s.read n path d = some r → s.IsCycle r)
    {r : Except ε α} (h : t.run (s.read n path) = some r) : ∃ p, r = .error (s.cycle p) := by
  induction hasks with
  | here k next =>
    rw [Task.run] at h
    rcases hk : s.read n path k with _ | e | v
    · simp [hk] at h
    · obtain ⟨p, hp⟩ := hd _ hk
      rw [hk] at h
      exact ⟨p, by rw [← Option.some.inj h]; exact congrArg _ (Except.error.inj hp)⟩
    · obtain ⟨p, hp⟩ := hd _ hk
      cases hp
  | @later k d next v hv hasks ih =>
    rw [Task.run] at h
    rcases hk : s.read n path k with _ | e | w
    · simp [hk] at h
    · rw [hk] at h
      obtain rfl := Option.some.inj h
      -- the key has a value, so the failure is a cycle of the path
      rcases read_or_cycle (List.nil_subset path) n k with heq | ⟨e', ⟨p, -, -, rfl⟩, herr⟩
      · rw [hk] at heq
        cases read_unique hv heq.symm
      · rw [hk] at herr
        exact ⟨p, congrArg _ (Except.error.inj (Option.some.inj herr))⟩
    · rw [hk] at h
      obtain rfl : v = w := Except.ok.inj (read_unique hv (read_nil_of_ok hk))
      exact ih hd h

/-- What a key demands reports a cycle along every path, so does the key. -/
theorem read_of_demands {k d : κ} (h : s.Demands k d) {path : List κ} {n : Nat}
    (hd : ∀ n r, s.read n (k :: path) d = some r → s.IsCycle r) {r : Except ε β}
    (hr : s.read n path k = some r) : s.IsCycle r := by
  obtain ⟨m, hasks⟩ := h
  rcases n with _ | n
  · simp [read] at hr
  by_cases hk : k ∈ path
  · rw [read_of_mem hk] at hr
    exact ⟨k, (Option.some.inj hr).symm⟩
  · rw [read_of_not_mem hk] at hr
    exact run_of_asks hasks (hd n) hr

/-- A key that demands one in progress is reported as a cycle. -/
theorem read_of_demands_path {k p : κ} (h : Relation.TransGen s.Demands k p) {path : List κ}
    (hp : p ∈ k :: path) {n : Nat} {r : Except ε β} (hr : s.read n path k = some r) :
    s.IsCycle r := by
  induction h using Relation.TransGen.head_induction_on generalizing path n r with
  | single hkp =>
    refine read_of_demands hkp (fun n r hr => ?_) hr
    rcases n with _ | n
    · simp [read] at hr
    · rw [read_of_mem hp] at hr
      exact ⟨p, (Option.some.inj hr).symm⟩
  | head hkd _ ih =>
    exact read_of_demands hkd (fun n r hr => ih (List.mem_cons_of_mem _ hp) hr) hr

/-- **Cycles are reported** by every read that comes to a key that demands
itself. -/
theorem read_of_cyclic {k d : κ} (hkd : Relation.ReflTransGen s.Demands k d)
    (hd : Relation.TransGen s.Demands d d) {path : List κ} {n : Nat} {r : Except ε β}
    (hr : s.read n path k = some r) : s.IsCycle r := by
  induction hkd using Relation.ReflTransGen.head_induction_on generalizing path n r with
  | refl => exact read_of_demands_path hd List.mem_cons_self hr
  | head hke _ ih => exact read_of_demands hke (fun n r hr => ih hr) hr

end System

end Demand

end Epiphany
