import Mathlib
/-!
# Machine arithmetic — one program, either build

A signed machine operation computes an integer and narrows it to its width.
A release build wraps what does not fit and a checked build stops there. A
program written over an `Arith` runs under both, and where every
intermediate result fits both return what the integers give: that is the one
law an `Arith` carries.
-/

namespace Epiphany

/-- A number of a signed width. -/
def FitsIn (width : Nat) (n : Int) : Prop := -2 ^ (width - 1) ≤ n ∧ n < 2 ^ (width - 1)

instance (width : Nat) (n : Int) : Decidable (FitsIn width n) :=
  inferInstanceAs (Decidable (_ ∧ _))

theorem FitsIn.of_abs_lt {width : Nat} {n : Int} (h : |n| < 2 ^ (width - 1)) : FitsIn width n :=
  ⟨(abs_lt.1 h).1.le, (abs_lt.1 h).2⟩

/-- How a build narrows the result of an operation to a width. -/
structure Arith (m : Type → Type) [Monad m] where
  narrow : Nat → Int → m Int
  exact : ∀ width n, 0 < width → FitsIn width n → narrow width n = pure n

namespace Arith

/-- A number wrapped to a signed width. -/
def wrap (width : Nat) (n : Int) : Int := n.bmod (2 ^ width)

theorem wrap_of_fits {width : Nat} {n : Int} (hw : 0 < width) (h : FitsIn width n) :
    wrap width n = n := by
  obtain ⟨h1, h2⟩ := h
  obtain ⟨w, rfl⟩ : ∃ w, width = w + 1 := ⟨width - 1, by omega⟩
  rw [Nat.add_sub_cancel] at h1 h2
  refine Int.bmod_eq_of_le_mul_two ?_ ?_ <;> rw [pow_succ] <;> push_cast <;> linarith

/-- A build without overflow checks. -/
def wrapping : Arith Id where
  narrow width n := wrap width n
  exact _ _ hw h := wrap_of_fits hw h

/-- A build with overflow checks, which stops at an overflow. -/
def checked : Arith Option where
  narrow width n := if FitsIn width n then some n else none
  exact _ _ _ h := if_pos h

variable {m : Type → Type} [Monad m] [LawfulMonad m] (A : Arith m)

/-- Add up a list in an accumulator of a given width. -/
def sum (width : Nat) (l : List Int) : m Int :=
  l.foldlM (fun acc x => A.narrow width (acc + x)) 0

/-- A sum of few enough numbers, each within a bound, is exact. -/
theorem sum_eq {width : Nat} {bound : Int} (hw : 0 < width) (hbound : 0 ≤ bound) {l : List Int}
    (hl : ∀ x ∈ l, |x| ≤ bound) (hfit : l.length * bound < 2 ^ (width - 1)) :
    A.sum width l = pure l.sum := by
  have h : ∀ (l : List Int) (acc : Int), (∀ x ∈ l, |x| ≤ bound) →
      |acc| + l.length * bound < 2 ^ (width - 1) →
      l.foldlM (fun acc x => A.narrow width (acc + x)) acc = pure (acc + l.sum) := by
    intro l
    induction l with
    | nil => intro acc _ _; simp
    | cons x l ih =>
      intro acc hl hfit
      rw [List.length_cons] at hfit
      push_cast at hfit
      have hx := hl x List.mem_cons_self
      have hacc : |acc + x| ≤ |acc| + |x| := abs_add_le acc x
      have hrest : 0 ≤ (l.length : Int) * bound := mul_nonneg (Int.natCast_nonneg _) hbound
      rw [List.foldlM_cons, A.exact _ _ hw (FitsIn.of_abs_lt (by linarith)), pure_bind,
        ih _ (fun y hy => hl y (List.mem_cons_of_mem _ hy)) (by linarith), List.sum_cons, add_assoc]
  rw [sum, h l 0 hl (by simpa using hfit), zero_add]

end Arith

end Epiphany
