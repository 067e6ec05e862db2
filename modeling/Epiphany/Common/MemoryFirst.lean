import Epiphany.Common.Directory
import Epiphany.Common.Runs
/-!
# Memory first — stores that change their value before they write its file

A store keeps a value in memory and its text in a file. It changes the value,
and then replaces the file through another name. When an operation on the
files fails, or the value has no text, the call fails and the file is as it
was, but the value is the changed one (`save_cases`). So a call is all or
nothing exactly if it changes no value, or nothing fails and the text is read
back (`allOrNothing_iff`).
-/

namespace Epiphany

open Fallible

namespace Directory

variable {κ β ε : Type} [DecidableEq κ]

/-- Open a file of another name, empty; write it; do so many operations that
change no content; and rename it. -/
def replaceVia (settle : Nat) (tmp name : κ) (content : List β) :
    List (Attempt (Directory κ β)) :=
  [op (write tmp []), ⟨write tmp content, fun reached => write tmp (content.take reached)⟩] ++
    List.replicate settle (op id) ++ [op (rename tmp name)]

variable {d : Directory κ β} {tmp name : κ} {content : List β} {settle : Nat}

theorem length_replaceVia : (replaceVia settle tmp name content).length = settle + 3 := by
  unfold replaceVia
  simp only [List.length_append, List.length_cons, List.length_nil, List.length_replicate]
  omega

omit [DecidableEq κ] in
theorem doneAll_settle (d : Directory κ β) : doneAll (List.replicate settle (op id)) d = d := by
  induction settle with
  | zero => rfl
  | succ n ih => exact ih

theorem read_doneAll_replaceVia :
    (doneAll (replaceVia settle tmp name content) d).read name = some content := by
  unfold replaceVia
  rw [doneAll_append, doneAll_append, doneAll_settle]
  exact read_rename_dst _ (read_write_self _ _ _)

/-- Until the rename only the other name is written. -/
theorem sameBut_of_error {e e' : ε} {w : Faulty (Directory κ β)} {plan : List (Option Nat)}
    (h : attempts e (replaceVia settle tmp name content) ⟨d, plan⟩ = .error e' w) :
    SameBut tmp d w.state := by
  have hbefore : Ensures (On (SameBut tmp d))
      (attempts e ([op (write tmp []),
        ⟨write tmp content, fun reached => write tmp (content.take reached)⟩] ++
        List.replicate settle (op id))) (fun _ => On (SameBut tmp d)) (On (SameBut tmp d)) := by
    refine Ensures.attempts_keep fun o ho s hs => ?_
    simp only [List.cons_append, List.nil_append, List.mem_cons, List.mem_replicate] at ho
    rcases ho with rfl | rfl | ⟨-, rfl⟩
    · exact ⟨hs.write [], fun _ => hs⟩
    · exact ⟨hs.write content, fun _ => hs.write _⟩
    · exact ⟨hs, fun _ => hs⟩
  have hrename : Ensures (On (SameBut tmp d))
      (attempts e [(op (rename tmp name) : Attempt (Directory κ β))]) (fun _ => On fun _ => True)
      (On (SameBut tmp d)) :=
    Ensures.attempts_cons (R := fun _ => True) (fun _ _ => trivial) (fun _ _ hs => hs)
      (Ensures.attempts_nil fun _ _ => trivial)
  have hall : Ensures (On (SameBut tmp d)) (attempts e (replaceVia settle tmp name content))
      (fun _ => On fun _ => True) (On (SameBut tmp d)) := by
    unfold replaceVia
    rw [attempts_append]
    exact Ensures.bind hbefore fun _ => hrename
  have hrun := hall ⟨d, plan⟩ SameBut.refl
  rw [h] at hrun
  exact hrun

end Directory

/-- A value in memory and the directory that its file is in. -/
structure Backed (μ κ β : Type) where
  memory : μ
  dir : Directory κ β

/-- How a value is kept in a file: its text, what is loaded of a file or where
there is none, the error of a failed operation, and the two names. -/
structure Keeper (μ κ β ε : Type) where
  write : μ → Except ε (List β)
  load : Option (List β) → Option μ
  fault : ε
  settle : Nat
  tmp : κ
  name : κ
  distinct : name ≠ tmp

/-- Whether a call failed. -/
def failed {σ ε α : Type} : EStateM.Result ε σ α → Prop
  | .ok _ _ => False
  | .error _ _ => True

/-- The state a call leaves. -/
def left {σ ε α : Type} : EStateM.Result ε σ α → σ
  | .ok _ s => s
  | .error _ s => s

namespace Keeper

variable {μ κ β ε : Type} [DecidableEq κ] (k : Keeper μ κ β ε)

/-- Whether a value has a text that it is loaded from. -/
def RoundTrips (m : μ) : Prop := ∃ text, k.write m = .ok text ∧ k.load (some text) = some m

/-- What loading the file of a directory gives. -/
def reload (d : Directory κ β) : Option μ := k.load (d.read k.name)

/-- The value in memory is the one of the file. -/
def Synced (s : Backed μ κ β) : Prop := k.reload s.dir = some s.memory

/-- Run operations on the directory. -/
def onDir {α : Type} (m : Fallible ε (Directory κ β) α) : Fallible ε (Backed μ κ β) α := fun w =>
  match m ⟨w.state.dir, w.plan⟩ with
  | .ok a w' => .ok a ⟨{ w.state with dir := w'.state }, w'.plan⟩
  | .error e w' => .error e ⟨{ w.state with dir := w'.state }, w'.plan⟩

/-- Write the value in memory to its file: make the directory, and replace
the file by the text. -/
def save : Fallible ε (Backed μ κ β) Unit := do
  attempt k.fault (op id)
  let s ← read
  let text ← MonadExcept.ofExcept (k.write s.memory)
  onDir (attempts k.fault (Directory.replaceVia k.settle k.tmp k.name text))

/-- Change the value in memory and save it, if the change needs it; the
answer is whether it did. -/
def alter (needed : μ → Bool) (f : μ → μ) : Fallible ε (Backed μ κ β) Bool := do
  let s ← read
  update fun s => { s with memory := f s.memory }
  if needed s.memory then
    k.save
    pure true
  else pure false

/-- The operations of a save. -/
def operations : Nat := k.settle + 4

/-- **Save.** A save leaves the value, and replaces the file by its text; or
it fails, and the file is as it was. -/
theorem save_cases (s : Backed μ κ β) (plan : List (Option Nat)) :
    (NoFault k.operations plan ∧ ∃ text d plan', k.write s.memory = .ok text ∧
      d.read k.name = some text ∧ k.save ⟨s, plan⟩ = .ok ⟨⟩ ⟨⟨s.memory, d⟩, plan'⟩) ∨
    ((NoFault k.operations plan → ∀ text, k.write s.memory ≠ .ok text) ∧
      ∃ e d plan', d.read k.name = s.dir.read k.name ∧
        k.save ⟨s, plan⟩ = .error e ⟨⟨s.memory, d⟩, plan'⟩) := by
  rw [show k.operations = k.settle + 3 + 1 from rfl, noFault_succ]
  unfold save
  rcases hhead : plan.head?.join with - | reached
  · rw [bind_run_ok _ (attempt_ok hhead)]
    rw [bind_run_ok _ (show read ⟨(op id).done s, plan.tail⟩ = .ok s ⟨s, plan.tail⟩ from rfl)]
    rcases hwrite : k.write s.memory with err | text
    · refine Or.inr ⟨fun _ text h => (by cases h), err, s.dir, plan.tail, rfl, ?_⟩
      exact bind_run_error _ rfl
    · have hrun : ∀ g : List β → Fallible ε (Backed μ κ β) Unit,
          (MonadExcept.ofExcept (Except.ok text) >>= g) ⟨s, plan.tail⟩ = g text ⟨s, plan.tail⟩ :=
        fun g => bind_run_ok g rfl
      rw [hrun]
      unfold onDir
      dsimp only
      rcases attempts_cases k.fault (Directory.replaceVia k.settle k.tmp k.name text) s.dir
        plan.tail with ⟨hnone, hok⟩ | ⟨hfault, w, herr⟩
      · rw [hok]
        rw [Directory.length_replaceVia] at hnone
        exact Or.inl ⟨⟨rfl, hnone⟩, text, _, _, rfl, Directory.read_doneAll_replaceVia, rfl⟩
      · rw [Directory.length_replaceVia] at hfault
        have hsame := Directory.sameBut_of_error herr
        rw [herr]
        exact Or.inr ⟨fun h => absurd h.2 hfault, k.fault, w.state, w.plan,
          hsame k.name k.distinct, rfl⟩
  · refine Or.inr ⟨fun h => ?_, _, s.dir, _, rfl, bind_run_error _ (attempt_error hhead)⟩
    cases h.1

/-- A call is all or nothing: the value in memory is the one of the file, and
a failed call leaves both as they were. -/
structure AllOrNothing {α : Type} (s : Backed μ κ β)
    (r : EStateM.Result ε (Faulty (Backed μ κ β)) α) : Prop where
  synced : k.Synced (left r).state
  kept : failed r → (left r).state.memory = s.memory ∧
    (left r).state.dir.read k.name = s.dir.read k.name

variable {k} {s : Backed μ κ β} {plan : List (Option Nat)} {needed : μ → Bool} {f : μ → μ}

/-- A change that needs no save does nothing. -/
theorem alter_unneeded (h : needed s.memory = false) :
    k.alter needed f ⟨s, plan⟩ = .ok false ⟨{ s with memory := f s.memory }, plan⟩ := by
  unfold alter
  rw [bind_run_ok _ (show read ⟨s, plan⟩ = .ok s ⟨s, plan⟩ from rfl), h]
  rfl

theorem alter_needed (h : needed s.memory = true) :
    k.alter needed f ⟨s, plan⟩ =
      (k.save >>= fun _ => pure true) ⟨{ s with memory := f s.memory }, plan⟩ := by
  unfold alter
  rw [bind_run_ok _ (show read ⟨s, plan⟩ = .ok s ⟨s, plan⟩ from rfl), h]
  rfl

/-- The value is changed whether the call fails or not, and the file is as it
was or has the text of the changed value. -/
theorem left_alter : (left (k.alter needed f ⟨s, plan⟩)).state.memory = f s.memory ∧
    ((left (k.alter needed f ⟨s, plan⟩)).state.dir.read k.name = s.dir.read k.name ∨
      ∃ text, k.write (f s.memory) = .ok text ∧
        (left (k.alter needed f ⟨s, plan⟩)).state.dir.read k.name = some text) := by
  rcases hneed : needed s.memory with - | -
  · rw [alter_unneeded hneed]
    exact ⟨rfl, Or.inl rfl⟩
  · rw [alter_needed hneed]
    rcases k.save_cases { s with memory := f s.memory } plan with
      ⟨-, text, d, plan', hwrite, hread, hok⟩ | ⟨-, e, d, plan', hread, herr⟩
    · rw [bind_run_ok _ hok]
      exact ⟨rfl, Or.inr ⟨text, hwrite, hread⟩⟩
    · rw [bind_run_error _ herr]
      exact ⟨rfl, Or.inl hread⟩

/-- A call that has to save fails with its operations. -/
theorem failed_alter (hneed : needed s.memory = true) (hfault : ¬NoFault k.operations plan) :
    failed (k.alter needed f ⟨s, plan⟩) := by
  rw [alter_needed hneed]
  rcases k.save_cases { s with memory := f s.memory } plan with
    ⟨hnone, -⟩ | ⟨-, e, d, plan', -, herr⟩
  · exact absurd hnone hfault
  · rw [bind_run_error _ herr]
    trivial

/-- A saved change is read back where its text is. -/
theorem synced_of_saved (hneed : needed s.memory = true)
    (hok : ¬failed (k.alter needed f ⟨s, plan⟩)) (htrip : k.RoundTrips (f s.memory)) :
    k.Synced (left (k.alter needed f ⟨s, plan⟩)).state := by
  obtain ⟨text, hwrite, hback⟩ := htrip
  rw [alter_needed hneed] at hok ⊢
  rcases k.save_cases { s with memory := f s.memory } plan with
    ⟨-, text', d, plan', hwrite', hread, hrun⟩ | ⟨-, e, d, plan', -, hrun⟩
  · rw [bind_run_ok _ hrun]
    obtain rfl := Except.ok.inj (hwrite'.symm.trans hwrite)
    change k.load (d.read k.name) = some (f s.memory)
    rw [hread]
    exact hback
  · rw [bind_run_error _ hrun] at hok
    exact absurd trivial hok

/-- **All or nothing, exactly.** Where what is loaded has a text, a call is all
or nothing if and only if it changes no value, or no operation fails and the
changed value is read back. -/
theorem allOrNothing_iff (hload : ∀ content m, k.load content = some m → k.RoundTrips m)
    (hs : k.Synced s) (hneeded : ∀ m, needed m = false → f m = m) :
    k.AllOrNothing s (k.alter needed f ⟨s, plan⟩) ↔
      f s.memory = s.memory ∨ NoFault k.operations plan ∧ k.RoundTrips (f s.memory) := by
  rcases hneed : needed s.memory with - | -
  · rw [alter_unneeded hneed]
    have hsame := hneeded _ hneed
    refine iff_of_true ⟨?_, False.elim⟩ (Or.inl hsame)
    change k.reload s.dir = some (f s.memory)
    rw [hsame]
    exact hs
  · rw [alter_needed hneed]
    rcases k.save_cases { s with memory := f s.memory } plan with
      ⟨hnone, text, d, plan', hwrite, hread, hok⟩ | ⟨hfault, e, d, plan', hread, herr⟩
    · rw [bind_run_ok _ hok]
      -- the file has the text of the changed value
      have hsynced : k.load (some text) = some (f s.memory) ↔
          f s.memory = s.memory ∨ NoFault k.operations plan ∧ k.RoundTrips (f s.memory) := by
        have htrip : k.RoundTrips (f s.memory) ↔ k.load (some text) = some (f s.memory) := by
          refine ⟨?_, fun h => ⟨text, hwrite, h⟩⟩
          rintro ⟨text', hwrite', hback⟩
          obtain rfl := Except.ok.inj (hwrite'.symm.trans hwrite)
          exact hback
        rw [← htrip]
        refine ⟨fun h => Or.inr ⟨hnone, h⟩, ?_⟩
        rintro (hsame | ⟨-, h⟩)
        · rw [hsame]
          exact hload _ _ hs
        · exact h
      rw [← hsynced]
      constructor
      · rintro ⟨h, -⟩
        change k.load (d.read k.name) = some (f s.memory) at h
        rwa [hread] at h
      · intro h
        refine ⟨?_, False.elim⟩
        change k.load (d.read k.name) = some (f s.memory)
        rwa [hread]
    · rw [bind_run_error _ herr]
      constructor
      · rintro ⟨-, h⟩
        exact Or.inl (h trivial).1
      · rintro (hsame | ⟨hnone, text, hwrite, -⟩)
        · refine ⟨?_, fun _ => ⟨hsame, hread⟩⟩
          change k.load (d.read k.name) = some (f s.memory)
          rw [hread, hsame]
          exact hs
        · exact absurd hwrite (hfault hnone text)

end Keeper

end Epiphany
