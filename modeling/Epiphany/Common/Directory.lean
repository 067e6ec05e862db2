import Epiphany.Common.Faults
/-!
# Directories — files by name, replaced whole

A directory holds files under names. A file is replaced by writing its new
content to another name, flushing it, and renaming it over the old one: that
changes the file in one operation, and whatever fails before leaves every
file but the other name as it was (`Ensures.replaceFile`). The new content is
what the file holds if nothing fails.
-/

namespace Epiphany

/-- Files under names of `κ`, as texts over `β`. -/
structure Directory (κ β : Type) where
  files : List (κ × List β)
deriving DecidableEq

namespace Directory

variable {κ β : Type} [DecidableEq κ]

def read (d : Directory κ β) (name : κ) : Option (List β) :=
  (d.files.find? fun f => f.1 = name).map Prod.snd

def names (d : Directory κ β) : List κ := d.files.map Prod.fst

def remove (name : κ) (d : Directory κ β) : Directory κ β :=
  ⟨d.files.filter fun f => f.1 ≠ name⟩

def write (name : κ) (content : List β) (d : Directory κ β) : Directory κ β :=
  ⟨(name, content) :: (d.remove name).files⟩

/-- A rename replaces what has the new name. -/
def rename (src dst : κ) (d : Directory κ β) : Directory κ β :=
  match d.read src with
  | some content => (d.remove src).write dst content
  | none => d

variable (d : Directory κ β) (n name src dst : κ) (content : List β)

theorem read_remove : (d.remove name).read n = if n = name then none else d.read n := by
  unfold read remove
  rw [List.find?_filter]
  split_ifs with h
  · subst h
    rw [List.find?_eq_none.2, Option.map_none]
    simp
  · congr 2
    funext f
    by_cases hf : f.1 = n
    · simp [hf, h]
    · simp [hf]

theorem read_write : (d.write name content).read n =
    if n = name then some content else d.read n := by
  split_ifs with h
  · simp [read, write, h]
  · have hrest := read_remove d n name
    rw [if_neg h] at hrest
    rw [← hrest]
    simp [read, write, Ne.symm h]

@[simp] theorem read_write_self : (d.write name content).read name = some content := by
  rw [read_write, if_pos rfl]

theorem read_write_of_ne {n name : κ} (h : n ≠ name) : (d.write name content).read n = d.read n := by
  rw [read_write, if_neg h]

/-- A rename is only seen at its two names. -/
theorem read_rename_of_ne {n src dst : κ} (hsrc : n ≠ src) (hdst : n ≠ dst) :
    (d.rename src dst).read n = d.read n := by
  unfold rename
  split
  · rw [read_write_of_ne _ _ hdst, read_remove, if_neg hsrc]
  · rfl

theorem read_rename_dst {src dst : κ} {content : List β} (h : d.read src = some content) :
    (d.rename src dst).read dst = some content := by
  simp [rename, h]

/-! ## Replacing a file -/

open Fallible

variable {ε : Type}

/-- Open a file of another name, empty; write it; flush it; and rename it. -/
def replaceSteps (tmp name : κ) (content : List β) : List (Attempt (Directory κ β)) :=
  [op (write tmp []), ⟨write tmp content, fun reached => write tmp (content.take reached)⟩,
    op id, op (rename tmp name)]

def replaceFile (e : ε) (tmp name : κ) (content : List β) :
    Fallible ε (Directory κ β) Unit := attempts e (replaceSteps tmp name content)

/-- Every file but that of one name is the same. -/
def SameBut (tmp : κ) (d d' : Directory κ β) : Prop := ∀ n, n ≠ tmp → d'.read n = d.read n

/-- What a file replaced through another name leaves. -/
structure Replaced (tmp name : κ) (content : List β) (d d' : Directory κ β) : Prop where
  read : d'.read name = some content
  others : ∀ n, n ≠ tmp → n ≠ name → d'.read n = d.read n

variable {d} {tmp : κ}

theorem SameBut.refl : SameBut tmp d d := fun _ _ => rfl

theorem SameBut.write {d' : Directory κ β} (h : SameBut tmp d d') (content : List β) :
    SameBut tmp d (d'.write tmp content) := fun n hn =>
  (read_write_of_ne d' content hn).trans (h n hn)

theorem replaced_doneAll {name : κ} (d : Directory κ β) :
    Replaced tmp name content d (doneAll (replaceSteps tmp name content) d) := by
  have hdone : doneAll (replaceSteps tmp name content) d =
      ((d.write tmp []).write tmp content).rename tmp name := rfl
  rw [hdone]
  refine ⟨read_rename_dst _ (read_write_self _ _ _), fun n htmp hname => ?_⟩
  rw [read_rename_of_ne _ htmp hname, read_write_of_ne _ _ htmp, read_write_of_ne _ _ htmp]

theorem Ensures.replaceFile (e : ε) {name : κ} (d : Directory κ β) :
    Ensures (On fun s => s = d) (replaceFile e tmp name content)
      (fun _ => On (Replaced tmp name content d)) (On (SameBut tmp d)) := by
  refine Ensures.attempts_cons (R := fun s => s = d.write tmp []) ?_ ?_
    (Ensures.attempts_cons (R := fun s => s = (d.write tmp []).write tmp content) ?_ ?_
      (Ensures.attempts_cons (R := fun s => s = (d.write tmp []).write tmp content) ?_ ?_
        (Ensures.attempts_cons (R := Replaced tmp name content d) ?_ ?_
          (Ensures.attempts_nil fun _ h => h))))
  · rintro s rfl
    rfl
  · rintro s r rfl
    exact SameBut.refl
  · rintro s rfl
    rfl
  · rintro s r rfl
    exact (SameBut.refl.write []).write _
  · rintro s rfl
    rfl
  · rintro s r rfl
    exact (SameBut.refl.write []).write _
  · rintro s rfl
    exact replaced_doneAll content d
  · rintro s r rfl
    exact (SameBut.refl.write []).write _

end Directory

end Epiphany
