import Mathlib
/-!
# Values — exact fixed-point numbers, and the errors of the model

A cell value is a 64-bit integer scaled by `10^4`. Rollups add in a 128-bit
accumulator, which wraps as the release build's does, and narrow to 64 bits
once at the end.
-/

namespace Epiphany

/-! ## Machine integers -/

/-- The smallest 64-bit signed integer. -/
def i64Min : Int := -2 ^ 63

/-- The largest 64-bit signed integer. -/
def i64Max : Int := 2 ^ 63 - 1

/-- The largest pointer-sized unsigned integer. -/
def usizeMax : Nat := 2 ^ 64 - 1

/-- Multiplication of 64-bit integers that stops at the bounds. -/
def saturatingMul (a b : Int) : Int := max i64Min (min i64Max (a * b))

/-- Multiplication of pointer-sized integers that reports overflow. -/
def checkedMul (a b : Nat) : Option Nat := if a * b ≤ usizeMax then some (a * b) else none

/-- The 128-bit accumulator of a rollup. -/
abbrev I128 := BitVec 128

/-! ## Fixed-point values -/

/-- Decimal places of precision. -/
def scaleDecimals : Nat := 4

/-- A stored value is the real value multiplied by `scale`. -/
def scale : Int := 10000

/-- An exact fixed-point number, held as a 64-bit integer scaled by
`scale`. -/
structure Fixed where
  toScaled : Int
  inRange : i64Min ≤ toScaled ∧ toScaled ≤ i64Max
deriving DecidableEq

namespace Fixed

@[ext] theorem ext {a b : Fixed} (h : a.toScaled = b.toScaled) : a = b := by
  cases a; cases b; cases h; rfl

/-- Narrow an integer to 64 bits, if it fits. -/
def tryFrom (n : Int) : Option Fixed :=
  if h : i64Min ≤ n ∧ n ≤ i64Max then some ⟨n, h⟩ else none

/-- The zero value. -/
def zero : Fixed := ⟨0, by decide⟩

def isZero (v : Fixed) : Bool := v.toScaled = 0

/-- The number that a value stands for. -/
def toRat (v : Fixed) : ℚ := v.toScaled / scale

/-- The value as a term of a rollup's accumulator. -/
def toI128 (v : Fixed) : I128 := BitVec.ofInt 128 v.toScaled

@[simp] theorem toScaled_zero : zero.toScaled = 0 := rfl

@[simp] theorem toI128_zero : zero.toI128 = 0 := by decide

@[simp] theorem isZero_eq_true {v : Fixed} : v.isZero = true ↔ v = zero := by
  simp [isZero, Fixed.ext_iff]

@[simp] theorem isZero_eq_false {v : Fixed} : v.isZero = false ↔ v ≠ zero := by
  rw [← Bool.not_eq_true, isZero_eq_true]

@[simp] theorem tryFrom_toScaled (v : Fixed) : tryFrom v.toScaled = some v := by
  simp [tryFrom, v.inRange]

theorem tryFrom_eq_some {n : Int} {v : Fixed} : tryFrom n = some v ↔ n = v.toScaled := by
  rw [tryFrom]
  split_ifs with hn
  · rw [Option.some.injEq, Fixed.ext_iff]
  · refine iff_of_false (by simp) ?_
    rintro rfl
    exact hn v.inRange

end Fixed

/-! ## Errors -/

/-- Why an operation on the model was refused. -/
inductive ModelError where
  | elementNotFound (dimension element : String)
  | elementIndexOutOfRange (dimension : String) (index len : Nat)
  | rankMismatch (expected got : Nat)
  | writeToNonLeaf (dimension element : String)
  | cycleDetected (dimension parent child : String)
  | parentNotConsolidated (dimension element : String)
  | overflow
  | emptyCube
  | invalidNumber (text : String)
  | attributeNotFound (dimension attr : String)
  | attributeTypeMismatch (dimension attr : String)
  | attributeKindConflict (dimension attr : String)
  | aliasConflict (dimension aliasText : String)
  | cellTypeMismatch (dimension element : String)
  | stringCellRequiresStringElement (cube : String)
  | unknownDimension (cube dimension : String)
  | duplicateDimension (dimension : String)
  | elementKindConflict (dimension element : String)
  | edgeWeightConflict (dimension parent child : String)
  | invalidReorder (dimension : String)
  | selfParent (dimension element : String)
  | consolidationHasChildren (dimension element : String)
  | duplicateElement (dimension element : String)
  | cellsetTooLarge (cells cap : Nat)
deriving DecidableEq

/-- Why a read was refused. -/
inductive QueryError where
  | unknownSubset (name : String)
  | unknownDimension (cube dimension : String)
  | unknownMember (dimension member : String)
  | dimensionCoverage (detail : String)
  | subsetDimensionMismatch (subset axisDimension subsetDimension : String)
  | dynamicUnsupported
  | dynamicEval (message : String)
  | calc (message : String)
  | accessDenied
  | model (e : ModelError)
deriving DecidableEq

/-- A value found, or the error of its absence. -/
def okOr {α ε : Type*} (o : Option α) (e : ε) : Except ε α :=
  match o with
  | some a => .ok a
  | none => .error e

section Except

universe u v

variable {ε : Type v} {α β : Type u}

/-- A chain of fallible steps succeeds when each does. -/
theorem bind_eq_ok {x : Except ε α} {f : α → Except ε β} {b : β} :
    (x >>= f) = .ok b ↔ ∃ a, x = .ok a ∧ f a = .ok b := by
  cases x <;> simp [bind, Except.bind]

theorem exists_of_isOk {x : Except ε α} (h : x.isOk = true) : ∃ a, x = .ok a := by
  cases x with
  | ok a => exact ⟨a, rfl⟩
  | error e => cases h

/-- The result of a computation that succeeds. -/
def getOk : (x : Except ε α) → x.isOk = true → α
  | .ok a, _ => a
  | .error _, h => nomatch h

theorem eq_ok_getOk {x : Except ε α} (h : x.isOk = true) : x = .ok (getOk x h) := by
  cases x with
  | ok a => rfl
  | error e => cases h

theorem exists_ok_of_any {x : Except ε α} {p : α → Bool} (h : x.toOption.any p = true) :
    ∃ a, x = .ok a ∧ p a = true := by
  cases x with
  | ok a => exact ⟨a, rfl, h⟩
  | error e => cases h

@[simp] theorem okOr_eq_ok {o : Option α} {e : ε} {a : α} : okOr o e = .ok a ↔ o = some a := by
  cases o <;> simp [okOr]

@[simp] theorem mapError_eq_ok {ε' : Type*} {x : Except ε α} {f : ε → ε'} {a : α} :
    x.mapError f = .ok a ↔ x = .ok a := by
  cases x <;> simp [Except.mapError]

theorem map_eq_ok {x : Except ε α} {f : α → β} {b : β} :
    x.map f = .ok b ↔ ∃ a, x = .ok a ∧ f a = b := by
  cases x <;> simp [Except.map]

/-- Two computations have one image when both fail alike, or both succeed with
results of one image. -/
theorem map_eq_map_iff {γ : Type*} {β' : Type*} {x : Except ε α} {y : Except ε β'} {f : α → γ}
    {g : β' → γ} : x.map f = y.map g ↔ (∃ e, x = .error e ∧ y = .error e) ∨
      ∃ a b, x = .ok a ∧ y = .ok b ∧ f a = g b := by
  cases x <;> cases y <;> simp [Except.map, eq_comm]

theorem ite_error_eq_ok {c : Prop} [Decidable c] {e : ε} {x : Except ε α} {a : α} :
    (if c then .error e else x) = .ok a ↔ ¬ c ∧ x = .ok a := by
  by_cases h : c <;> simp [h]

/-- A loop of checks passes when every check does. -/
theorem forM_eq_ok {ι : Type*} {l : List ι} {f : ι → Except ε PUnit.{u + 1}} :
    l.forM f = .ok ⟨⟩ ↔ ∀ x ∈ l, f x = .ok ⟨⟩ := by
  induction l with
  | nil => simp [pure, Except.pure]
  | cons x l ih =>
    have hcons : (x :: l).forM f = (f x >>= fun _ => l.forM f) := rfl
    rw [hcons, bind_eq_ok]
    simp only [List.mem_cons, forall_eq_or_imp, ← ih]
    constructor
    · rintro ⟨⟨⟩, hx, hl⟩
      exact ⟨hx, hl⟩
    · rintro ⟨hx, hl⟩
      exact ⟨⟨⟩, hx, hl⟩

/-- A loop that maps succeeds when every step does, with its results. -/
theorem mapM_eq_ok {l : List α} {f : α → Except ε β} {r : List β} :
    l.mapM f = .ok r ↔ List.Forall₂ (fun x y => f x = .ok y) l r := by
  induction l generalizing r with
  | nil =>
    simp only [List.mapM_nil, pure, Except.pure, Except.ok.injEq, List.forall₂_nil_left_iff]
    exact eq_comm
  | cons x l ih =>
    simp only [List.mapM_cons, bind_eq_ok, pure, Except.pure, Except.ok.injEq]
    constructor
    · rintro ⟨y, hy, ys, hys, rfl⟩
      exact List.Forall₂.cons hy (ih.1 hys)
    · rintro h
      cases h with
      | cons hy hys => exact ⟨_, hy, _, ih.2 hys, rfl⟩

theorem mapM_eq_some {α β : Type} {f : α → Option β} {g : α → β} {l : List α}
    (h : ∀ a ∈ l, f a = some (g a)) : l.mapM f = some (l.map g) := by
  induction l with
  | nil => rfl
  | cons a l ih =>
    rw [List.mapM_cons, h a List.mem_cons_self, ih fun b hb => h b (List.mem_cons_of_mem a hb)]
    rfl

theorem mapM_append_eq_ok {l l' : List α} {f : α → Except ε β} {r : List β} :
    (l ++ l').mapM f = .ok r ↔ ∃ a b, l.mapM f = .ok a ∧ l'.mapM f = .ok b ∧ r = a ++ b := by
  rw [List.mapM_append]
  simp only [bind_eq_ok, pure, Except.pure, Except.ok.injEq]
  constructor
  · rintro ⟨a, ha, b, hb, rfl⟩
    exact ⟨a, b, ha, hb, rfl⟩
  · rintro ⟨a, b, ha, hb, rfl⟩
    exact ⟨a, ha, b, hb, rfl⟩

theorem exists_of_mapM {l : List α} {f : α → Except ε β} {r : List β} (h : l.mapM f = .ok r)
    {x : α} (hx : x ∈ l) : ∃ y, f x = .ok y := by
  rw [mapM_eq_ok] at h
  induction h with
  | nil => cases hx
  | cons hy _ ih =>
    rcases List.mem_cons.1 hx with rfl | hx
    · exact ⟨_, hy⟩
    · exact ih hx

/-- A result of a mapping loop is that of an item. -/
theorem exists_of_mem_mapM {l : List α} {f : α → Except ε β} {r : List β} (h : l.mapM f = .ok r)
    {y : β} (hy : y ∈ r) : ∃ x ∈ l, f x = .ok y := by
  rw [mapM_eq_ok] at h
  induction h with
  | nil => cases hy
  | @cons x _ l _ hx _ ih =>
    rcases List.mem_cons.1 hy with rfl | hy
    · exact ⟨x, List.mem_cons_self, hx⟩
    · obtain ⟨x', hmem, hx'⟩ := ih hy
      exact ⟨x', List.mem_cons_of_mem x hmem, hx'⟩

theorem exists_mapM_ok {l : List α} {f : α → Except ε β} (h : ∀ x ∈ l, ∃ y, f x = .ok y) :
    ∃ r, l.mapM f = .ok r := by
  induction l with
  | nil => exact ⟨[], rfl⟩
  | cons x l ih =>
    obtain ⟨y, hy⟩ := h x List.mem_cons_self
    obtain ⟨ys, hys⟩ := ih fun z hz => h z (List.mem_cons_of_mem _ hz)
    exact ⟨y :: ys, mapM_eq_ok.2 (List.Forall₂.cons hy (mapM_eq_ok.1 hys))⟩

/-- A loop that maps depends on its steps at the list's own elements. -/
theorem mapM_congr {l : List α} {f g : α → Except ε β} (h : ∀ x ∈ l, f x = g x) :
    l.mapM f = l.mapM g := by
  induction l with
  | nil => rfl
  | cons x l ih =>
    rw [List.mapM_cons, List.mapM_cons, h x List.mem_cons_self,
      ih fun y hy => h y (List.mem_cons_of_mem x hy)]

end Except

end Epiphany
