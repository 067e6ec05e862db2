import Epiphany.Common.Arith
import Epiphany.Core.ExactRead
import Epiphany.Core.LeafWrites
/-!
# Spreading — a value entered above the leaves, as leaf writes

`spreadLeaves` expands a coordinate into its leaves, drops the excluded
ones, and shares a value among the rest. The arithmetic runs under either
build. A share is a truncated quotient, and what the shares leave over goes
out a unit at a time: less than a unit is lost to each leaf, so the units
run out before the leaves do (`leftover_lt`).
-/

namespace Epiphany

open Sections

/-- How an entered value is distributed. -/
inductive SpreadMethod where
  | equal
  | proportional
  | «repeat»
  | clear
deriving DecidableEq

/-- Why a spread was refused. -/
inductive SpreadError where
  | weightedConsolidation
  | tooManyLeaves (count cap : Nat)
  | allExcluded
  | read (e : QueryError)
deriving DecidableEq

/-- The largest number of leaf writes of one spread. -/
def maxSpreadLeaves : Nat := 200000

namespace Spread

/-! ## The leaves -/

/-- The leaves of one component, refused when one is weighted. -/
def unitLeaves (dim : Dimension) (idx : Nat) : Except SpreadError (List Nat) :=
  match dim.leafWeights idx with
  | .error e => .error (.read (.model e))
  | .ok weights =>
    if weights.all fun e => e.2 = 1 then .ok (weights.map Prod.fst)
    else .error .weightedConsolidation

/-- The leaves of every component, or none when one has no leaves: the
components after it are not looked at. -/
def perDimension : List (Nat × Dimension) → Except SpreadError (Option (List (List Nat)))
  | [] => .ok (some [])
  | (idx, dim) :: rest => do
    let leaves ← unitLeaves dim idx
    if leaves.isEmpty then .ok none
    else
      let perDim ← perDimension rest
      .ok (perDim.map fun ls => leaves :: ls)

/-- The number of leaf coordinates, saturating, under the cap. -/
def countLeaves : Nat → List (List Nat) → Except SpreadError Nat
  | count, [] => .ok count
  | count, leaves :: rest =>
    let count := min usizeMax (count * leaves.length)
    if count > maxSpreadLeaves then .error (.tooManyLeaves count maxSpreadLeaves)
    else countLeaves count rest

/-- The leaf coordinates, the last dimension fastest. -/
def coords (perDim : List (List Nat)) (count : Nat) : List Coord :=
  (readings (perDim.map List.length) count (List.replicate perDim.length 0)).map (row perDim)

/-- The coordinates a spread writes to, none for a target without leaves. -/
def targets (c : Cube) (target : Coord) (exclude : Coord → Bool) :
    Except SpreadError (Option (List Coord)) := do
  if target.length ≠ c.rank then
    .error (.read (.model (.rankMismatch c.rank target.length)))
  else
    match ← perDimension (target.zip c.dimensions) with
    | none => .ok none
    | some perDim =>
      let count ← countLeaves 1 perDim
      let kept := (coords perDim count).filter fun a => !exclude a
      if kept.isEmpty then .error .allExcluded else .ok (some kept)

/-! ## The shares -/

section Shares

variable {m : Type → Type} [Monad m] (A : Arith m)

/-- Add `step` to the leading shares while units are left. -/
def allocateLoop (step : Int) : Int → List Int → m (List Int)
  | _, [] => pure []
  | left, x :: out =>
    if 0 < left then do
      let x ← A.narrow 64 (x + step)
      let left ← A.narrow 64 (left - 1)
      let out ← allocateLoop step left out
      pure (x :: out)
    else pure (x :: out)

/-- Hand a remainder out, one unit a leaf, in its own sign. -/
def allocateRemainder (out : List Int) (remainder : Int) : m (List Int) := do
  let left ← A.narrow 64 |remainder|
  allocateLoop A (if 0 ≤ remainder then 1 else -1) left out

/-- Split a total evenly. -/
def distributeEqual (total : Int) (n : Nat) : m (List Int) :=
  if n = 0 then pure []
  else do
    let nI := Arith.wrap 64 n
    let base ← A.narrow 64 (total.tdiv nI)
    let spent ← A.narrow 64 (base * nI)
    let remainder ← A.narrow 64 (total - spent)
    allocateRemainder A (List.replicate n base) remainder

/-- The truncated shares, or none when one is past 64 bits. -/
def truncatedShares (total sum : Int) : List Int → m (Option (List Int))
  | [] => pure (some [])
  | w :: weights => do
    let product ← A.narrow 128 (total * w)
    let share ← A.narrow 128 (product.tdiv sum)
    if FitsIn 64 share then do
      let out ← truncatedShares total sum weights
      pure (out.map fun out => share :: out)
    else pure none

/-- Split a total in proportion to weights, or evenly when they cancel or a
share is past 64 bits. -/
def distributeProportional (total : Int) (weights : List Int) : m (List Int) := do
  let sum ← A.sum 128 weights
  if sum = 0 then distributeEqual A total weights.length
  else
    match ← truncatedShares A total sum weights with
    | none => distributeEqual A total weights.length
    | some out =>
      let allocated ← A.sum 128 out
      let leftover ← A.narrow 128 (total - allocated)
      allocateRemainder A out (Arith.wrap 64 leftover)

/-- The shares of the kept leaves, by the method. -/
def shares (kept : List Coord) (total : Int) (method : SpreadMethod)
    (readLeaf : Coord → Except QueryError Fixed) : m (Except SpreadError (List Int)) :=
  match method with
  | .«repeat» => pure (.ok (List.replicate kept.length total))
  | .clear => pure (.ok (List.replicate kept.length 0))
  | .equal => Except.ok <$> distributeEqual A total kept.length
  | .proportional =>
    match kept.mapM readLeaf with
    | .error e => pure (.error (.read e))
    | .ok values =>
      Except.ok <$> distributeProportional A total (values.map Fixed.toScaled)

end Shares

end Spread

/-- A value of 64 bits. -/
def Fixed.fromScaled (n : Int) : Fixed := (Fixed.tryFrom (Arith.wrap 64 n)).getD Fixed.zero

open Spread in
/-- Expand a target into leaf writes that distribute a value. -/
def spreadLeaves {m : Type → Type} [Monad m] (A : Arith m) (c : Cube) (target : Coord)
    (value : Fixed) (method : SpreadMethod) (readLeaf : Coord → Except QueryError Fixed)
    (exclude : Coord → Bool) : m (Except SpreadError (List (Coord × Fixed))) :=
  match targets c target exclude with
  | .error e => pure (.error e)
  | .ok none => pure (.ok [])
  | .ok (some kept) => do
    match ← shares A kept value.toScaled method readLeaf with
    | .error e => pure (.error e)
    | .ok scaled => pure (.ok (kept.zip (scaled.map Fixed.fromScaled)))

namespace Spread

variable {m : Type → Type} [Monad m] [LawfulMonad m] (A : Arith m)

/-! ## What the remainder does -/

/-- The unit in the sign of a remainder. -/
def unitOf (remainder : Int) : Int := if 0 ≤ remainder then 1 else -1

/-- `step` added to the first `k` shares. -/
def bump (step : Int) (k : Nat) (out : List Int) : List Int :=
  (out.take k).map (· + step) ++ out.drop k

theorem length_bump (step : Int) (k : Nat) (out : List Int) :
    (bump step k out).length = out.length := by
  rw [bump, List.length_append, List.length_map, ← List.length_append, List.take_append_drop]

theorem sum_bump {step : Int} {k : Nat} {out : List Int} (hk : k ≤ out.length) :
    (bump step k out).sum = out.sum + k * step := by
  have hsum : ((out.take k).map (· + step)).sum = (out.take k).sum + k * step := by
    rw [List.sum_map_add, List.map_id', List.map_const', List.sum_replicate, List.length_take,
      min_eq_left hk, nsmul_eq_mul]
  conv_rhs => rw [← List.take_append_drop k out, List.sum_append]
  rw [bump, List.sum_append, hsum]
  ring

theorem natAbs_mul_unitOf (r : Int) : (r.natAbs : Int) * unitOf r = r := by
  rw [unitOf]
  split_ifs with h <;> omega

/-- The first `k` shares have room for `step` more. -/
def HasRoom (step : Int) (k : Nat) (out : List Int) : Prop :=
  ∀ x ∈ out.take k, FitsIn 64 (x + step)

theorem allocateLoop_eq {step : Int} {k : Nat} {out : List Int} (hk : k ≤ out.length)
    (hlen : (out.length : Int) < 2 ^ 63) (hroom : HasRoom step k out) :
    allocateLoop A step k out = pure (bump step k out) := by
  induction out generalizing k with
  | nil => simp [allocateLoop, bump]
  | cons x out ih =>
    rcases k with _ | k
    · simp [allocateLoop, bump]
    · have hx : FitsIn 64 (x + step) := hroom x (by simp)
      rw [List.length_cons] at hk hlen
      push_cast at hlen
      have hleft : FitsIn 64 (((k + 1 : Nat) : Int) - 1) := ⟨by omega, by omega⟩
      have hpos : (0 : Int) < ((k + 1 : Nat) : Int) := by omega
      have hpred : ((k + 1 : Nat) : Int) - 1 = k := by omega
      rw [allocateLoop, if_pos hpos, A.exact _ _ (by decide) hx, pure_bind,
        A.exact _ _ (by decide) hleft, pure_bind, hpred, ih (by omega) (by omega)
          (fun y hy => hroom y (by simp [hy])), pure_bind]
      rfl

/-- **The remainder** goes out a unit at a time, when there are leaves
enough and each has room. -/
theorem allocateRemainder_eq {out : List Int} {r : Int} (hr : r.natAbs ≤ out.length)
    (hlen : (out.length : Int) < 2 ^ 63) (hroom : HasRoom (unitOf r) r.natAbs out) :
    allocateRemainder A out r = pure (bump (unitOf r) r.natAbs out) := by
  have hfit : FitsIn 64 |r| := by
    rw [Int.abs_eq_natAbs]
    exact ⟨by omega, by omega⟩
  rw [allocateRemainder, A.exact _ _ (by decide) hfit, pure_bind, Int.abs_eq_natAbs]
  exact allocateLoop_eq A hr hlen hroom

/-! ## Even shares -/

/-- An even split, in the integers. -/
def evenShares (total : Int) (n : Nat) : List Int :=
  bump (unitOf (total.tmod n)) (total.tmod n).natAbs (List.replicate n (total.tdiv n))

theorem natAbs_tmod_lt (total : Int) {n : Nat} (hn : 0 < n) : (total.tmod n).natAbs < n := by
  rw [Int.natAbs_tmod]
  exact Nat.mod_lt _ hn

theorem length_evenShares (total : Int) (n : Nat) : (evenShares total n).length = n := by
  rw [evenShares, length_bump, List.length_replicate]

theorem sum_evenShares (total : Int) {n : Nat} (hn : 0 < n) : (evenShares total n).sum = total := by
  have hlt := natAbs_tmod_lt total hn
  rw [evenShares, sum_bump (by rw [List.length_replicate]; omega), natAbs_mul_unitOf,
    List.sum_replicate, nsmul_eq_mul]
  exact Int.mul_tdiv_add_tmod total n

/-- A share of two or more leaves is half the range at most, so it has room
for a unit. -/
theorem hasRoom_even {total : Int} {n : Nat} (hn : 0 < n) (ht : FitsIn 64 total) :
    HasRoom (unitOf (total.tmod n)) (total.tmod n).natAbs (List.replicate n (total.tdiv n)) := by
  intro x hx
  obtain rfl := List.eq_of_mem_replicate (List.mem_of_mem_take hx)
  have hk : 0 < (total.tmod n).natAbs := by
    by_contra h0
    rw [Nat.eq_zero_of_not_pos h0] at hx
    simp at hx
  have hlt := natAbs_tmod_lt total hn
  have hhalf : (total.tdiv n).natAbs ≤ 2 ^ 62 := by
    rw [Int.natAbs_tdiv, Int.natAbs_natCast]
    have hle : total.natAbs ≤ 2 ^ 63 := by
      have h1 : -2 ^ 63 ≤ total := ht.1
      have h2 : total < 2 ^ 63 := ht.2
      omega
    calc total.natAbs / n ≤ total.natAbs / 2 := Nat.div_le_div_left (by omega) (by omega)
      _ ≤ 2 ^ 62 := by omega
  have hunit : unitOf (total.tmod n) = 1 ∨ unitOf (total.tmod n) = -1 := by
    rw [unitOf]
    split_ifs <;> simp
  have h64 : ∀ y : Int, -2 ^ 63 ≤ y → y < 2 ^ 63 → FitsIn 64 y := fun _ h1 h2 => ⟨h1, h2⟩
  exact h64 _ (by omega) (by omega)

/-- The steps of an even split stay between zero and the total. -/
theorem between_of_tdiv {total : Int} (n : Nat) (ht : FitsIn 64 total) :
    FitsIn 64 (total.tdiv n) ∧ FitsIn 64 (total.tdiv n * n) := by
  have h1 : -2 ^ 63 ≤ total := ht.1
  have h2 : total < 2 ^ 63 := ht.2
  have h64 : ∀ y : Int, -2 ^ 63 ≤ y → y < 2 ^ 63 → FitsIn 64 y := fun _ h1 h2 => ⟨h1, h2⟩
  have hdiv : (total.tdiv n).natAbs ≤ total.natAbs := Int.natAbs_tdiv_le_natAbs _ _
  have hmod : (total.tmod n).natAbs ≤ total.natAbs := by
    rw [Int.natAbs_tmod]
    exact Nat.mod_le _ _
  have hsum := Int.tdiv_mul_add_tmod total n
  rcases le_total 0 total with h0 | h0
  · have hd := Int.tdiv_nonneg h0 (Int.natCast_nonneg n)
    have hm := Int.tmod_nonneg n h0
    exact ⟨h64 _ (by omega) (by omega), h64 _ (by omega) (by omega)⟩
  · have hd := Int.tdiv_nonneg (neg_nonneg.2 h0) (Int.natCast_nonneg n)
    have hm := Int.tmod_nonneg n (neg_nonneg.2 h0)
    rw [Int.neg_tdiv] at hd
    rw [Int.neg_tmod] at hm
    exact ⟨h64 _ (by omega) (by omega), h64 _ (by omega) (by omega)⟩

theorem wrap_leaves {n : Nat} (hn : n ≤ maxSpreadLeaves) : Arith.wrap 64 n = n := by
  rw [maxSpreadLeaves] at hn
  exact Arith.wrap_of_fits (by decide) ⟨by omega, by norm_num; omega⟩

theorem distributeEqual_eq {total : Int} {n : Nat} (hn : n ≤ maxSpreadLeaves)
    (ht : FitsIn 64 total) :
    distributeEqual A total n = pure (evenShares total n) := by
  rw [distributeEqual]
  split_ifs with h0
  · subst h0
    simp [evenShares, bump]
  · have hpos : 0 < n := Nat.pos_of_ne_zero h0
    obtain ⟨hbase, hspent⟩ := between_of_tdiv n ht
    have hrem : total - total.tdiv n * n = total.tmod n := by
      have := Int.tdiv_mul_add_tmod total n
      omega
    have hlt := natAbs_tmod_lt total hpos
    rw [maxSpreadLeaves] at hn
    have hfit : FitsIn 64 (total.tmod n) := ⟨by norm_num; omega, by norm_num; omega⟩
    simp only [wrap_leaves hn]
    rw [A.exact _ _ (by decide) hbase, pure_bind, A.exact _ _ (by decide) hspent, pure_bind, hrem,
      A.exact _ _ (by decide) hfit, pure_bind,
      allocateRemainder_eq A (by rw [List.length_replicate]; omega)
        (by rw [List.length_replicate]; omega) (hasRoom_even hpos ht)]
    rfl

/-! ## Proportional shares -/

/-- A share, truncated. -/
def share (total sum w : Int) : Int := (total * w).tdiv sum

/-- The proportional split goes through: the weights do not cancel, and
every share is within 64 bits. -/
def Proportioned (total : Int) (weights : List Int) : Prop :=
  weights.sum ≠ 0 ∧ ∀ w ∈ weights, FitsIn 64 (share total weights.sum w)

instance (total : Int) (weights : List Int) : Decidable (Proportioned total weights) :=
  inferInstanceAs (Decidable (_ ∧ _))

/-- What the truncated shares leave over. -/
def leftover (total : Int) (weights : List Int) : Int :=
  total - (weights.map (share total weights.sum)).sum

/-- **Less than a unit is lost to each leaf.** -/
theorem natAbs_leftover_lt (total : Int) {weights : List Int} (hsum : weights.sum ≠ 0) :
    (leftover total weights).natAbs < weights.length := by
  set S := weights.sum with hS
  have hlost : ∀ ws : List Int, total * ws.sum - S * (ws.map (share total S)).sum =
      (ws.map fun w => (total * w).tmod S).sum := by
    intro ws
    induction ws with
    | nil => simp
    | cons w ws ih =>
      have := Int.mul_tdiv_add_tmod (total * w) S
      simp only [List.map_cons, List.sum_cons, ← ih, share]
      linarith
  have hbound : ∀ ws : List Int,
      ((ws.map fun w => (total * w).tmod S).sum).natAbs ≤ ws.length * (S.natAbs - 1) := by
    intro ws
    induction ws with
    | nil => simp
    | cons w ws ih =>
      have hw : ((total * w).tmod S).natAbs ≤ S.natAbs - 1 := by
        rw [Int.natAbs_tmod]
        exact Nat.le_sub_one_of_lt (Nat.mod_lt _ (Int.natAbs_pos.2 hsum))
      rw [List.map_cons, List.sum_cons, List.length_cons, Nat.succ_mul]
      exact (Int.natAbs_add_le _ _).trans (by omega)
  have hpos : 0 < weights.length := by
    rcases weights with _ | ⟨w, ws⟩
    · exact absurd hS hsum
    · simp
  have hSl : S * leftover total weights = (weights.map fun w => (total * w).tmod S).sum := by
    rw [← hlost weights, leftover, ← hS]
    ring
  have hS0 : 0 < S.natAbs := Int.natAbs_pos.2 hsum
  have hmul : S.natAbs * (leftover total weights).natAbs ≤ weights.length * (S.natAbs - 1) := by
    rw [← Int.natAbs_mul, hSl]
    exact hbound weights
  by_contra hge
  have h1 : S.natAbs * weights.length ≤ S.natAbs * (leftover total weights).natAbs :=
    Nat.mul_le_mul_left _ (Nat.not_lt.1 hge)
  have h2 : weights.length * (S.natAbs - 1) < weights.length * S.natAbs :=
    Nat.mul_lt_mul_of_pos_left (by omega) hpos
  rw [Nat.mul_comm] at h1
  omega

/-- A proportional split, in the integers. -/
def proportionalShares (total : Int) (weights : List Int) : List Int :=
  if Proportioned total weights then
    bump (unitOf (leftover total weights)) (leftover total weights).natAbs
      (weights.map (share total weights.sum))
  else evenShares total weights.length

theorem length_proportionalShares (total : Int) (weights : List Int) :
    (proportionalShares total weights).length = weights.length := by
  rw [proportionalShares]
  split_ifs
  · rw [length_bump, List.length_map]
  · exact length_evenShares _ _

theorem sum_proportionalShares (total : Int) {weights : List Int} (hne : weights ≠ []) :
    (proportionalShares total weights).sum = total := by
  rw [proportionalShares]
  split_ifs with h
  · have hlt := natAbs_leftover_lt total h.1
    rw [sum_bump (by rw [List.length_map]; omega), natAbs_mul_unitOf, leftover]
    ring
  · exact sum_evenShares total (List.length_pos_iff.2 hne)

/-- No leftover unit falls on a share at the limit of 64 bits. -/
def RoomForLeftover (total : Int) (weights : List Int) : Prop :=
  Proportioned total weights → HasRoom (unitOf (leftover total weights))
    (leftover total weights).natAbs (weights.map (share total weights.sum))

theorem natAbs_le_of_fits {n : Int} (h : FitsIn 64 n) : n.natAbs ≤ 2 ^ 63 := by
  have h1 : -2 ^ 63 ≤ n := h.1
  have h2 : n < 2 ^ 63 := h.2
  omega

theorem fits_of_natAbs_le {n : Int} (h : n.natAbs ≤ 2 ^ 126) : FitsIn 128 n :=
  ⟨by norm_num; omega, by norm_num; omega⟩

theorem truncatedShares_eq {total sum : Int} {weights : List Int} (ht : FitsIn 64 total)
    (hw : ∀ w ∈ weights, FitsIn 64 w) :
    truncatedShares A total sum weights =
      pure (if ∀ w ∈ weights, FitsIn 64 (share total sum w) then
        some (weights.map (share total sum)) else none) := by
  induction weights with
  | nil => simp [truncatedShares]
  | cons w weights ih =>
    have hprod : (total * w).natAbs ≤ 2 ^ 126 := by
      have h1 := natAbs_le_of_fits ht
      have h2 := natAbs_le_of_fits (hw w List.mem_cons_self)
      rw [Int.natAbs_mul]
      calc total.natAbs * w.natAbs ≤ 2 ^ 63 * 2 ^ 63 := Nat.mul_le_mul h1 h2
        _ = 2 ^ 126 := by norm_num
    have hquot : ((total * w).tdiv sum).natAbs ≤ 2 ^ 126 :=
      (Int.natAbs_tdiv_le_natAbs _ _).trans hprod
    rw [truncatedShares, A.exact _ _ (by decide) (fits_of_natAbs_le hprod), pure_bind,
      A.exact _ _ (by decide) (fits_of_natAbs_le hquot), pure_bind,
      ih fun x hx => hw x (List.mem_cons_of_mem _ hx)]
    show (if FitsIn 64 (share total sum w) then _ else _) = _
    have hcons : (∀ x ∈ w :: weights, FitsIn 64 (share total sum x)) ↔
        FitsIn 64 (share total sum w) ∧ ∀ x ∈ weights, FitsIn 64 (share total sum x) :=
      List.forall_mem_cons
    by_cases h : FitsIn 64 (share total sum w)
    · rw [if_pos h, pure_bind]
      by_cases hrest : ∀ x ∈ weights, FitsIn 64 (share total sum x)
      · rw [if_pos hrest, if_pos (hcons.2 ⟨h, hrest⟩)]
        rfl
      · rw [if_neg hrest, if_neg fun hall => hrest (hcons.1 hall).2]
        rfl
    · rw [if_neg h, if_neg fun hall => h (hcons.1 hall).1]

theorem distributeProportional_eq {total : Int} {weights : List Int}
    (hlen : weights.length ≤ maxSpreadLeaves) (ht : FitsIn 64 total)
    (hw : ∀ w ∈ weights, FitsIn 64 w) (hroom : RoomForLeftover total weights) :
    distributeProportional A total weights = pure (proportionalShares total weights) := by
  have hlen' := hlen
  rw [maxSpreadLeaves] at hlen'
  have hsum : ∀ l : List Int, l.length = weights.length → (∀ x ∈ l, FitsIn 64 x) →
      A.sum 128 l = pure l.sum := by
    intro l hl hfit
    refine A.sum_eq (by decide) (by norm_num : (0 : Int) ≤ 2 ^ 63) (fun x hx => ?_) ?_
    · have := natAbs_le_of_fits (hfit x hx)
      rw [Int.abs_eq_natAbs]
      omega
    · rw [hl]
      norm_num
      omega
  rw [distributeProportional, hsum weights rfl hw, pure_bind, proportionalShares]
  by_cases h0 : weights.sum = 0
  · rw [if_pos h0, if_neg fun h => h.1 h0]
    exact distributeEqual_eq A hlen ht
  · rw [if_neg h0, truncatedShares_eq A ht hw, pure_bind]
    by_cases hfit : ∀ w ∈ weights, FitsIn 64 (share total weights.sum w)
    · have hp : Proportioned total weights := ⟨h0, hfit⟩
      have hlt := natAbs_leftover_lt total h0
      have hout : ∀ x ∈ weights.map (share total weights.sum), FitsIn 64 x := by
        intro x hx
        obtain ⟨w, hw, rfl⟩ := List.mem_map.1 hx
        exact hfit w hw
      have hleft : FitsIn 128 (total - (weights.map (share total weights.sum)).sum) :=
        fits_of_natAbs_le (n := leftover total weights) (by omega)
      have hwrap : Arith.wrap 64 (leftover total weights) = leftover total weights :=
        Arith.wrap_of_fits (by decide) ⟨by norm_num; omega, by norm_num; omega⟩
      rw [if_pos hfit, if_pos hp]
      simp only []
      rw [hsum _ (by simp) hout, pure_bind,
        A.exact _ _ (by decide) hleft, pure_bind]
      show allocateRemainder A _ (Arith.wrap 64 (leftover total weights)) = _
      rw [hwrap]
      refine allocateRemainder_eq A ?_ ?_ (hroom hp) <;> rw [List.length_map] <;> omega
    · rw [if_neg hfit, if_neg fun h => hfit h.2]
      exact distributeEqual_eq A hlen ht

/-! ## The leaves of a target -/

theorem unitLeaves_eq_ok {dim : Dimension} {idx : Nat} {leaves : List Nat} :
    unitLeaves dim idx = .ok leaves ↔ ∃ weights, dim.leafWeights idx = .ok weights ∧
      (∀ e ∈ weights, e.2 = 1) ∧ weights.map Prod.fst = leaves := by
  rw [unitLeaves]
  rcases dim.leafWeights idx with e | weights
  · simp
  · have hall : (weights.all fun e => e.2 = 1) = true ↔ ∀ e ∈ weights, e.2 = 1 := by
      simp [List.all_eq_true]
    simp only [Except.ok.injEq, exists_eq_left']
    split_ifs with h
    · rw [Except.ok.injEq]
      exact ⟨fun heq => ⟨hall.1 h, heq⟩, fun heq => heq.2⟩
    · exact iff_of_false (by simp) fun h' => h (hall.2 h'.1)

/-- Every component has leaves, all of weight one. -/
theorem perDimension_some {l : List (Nat × Dimension)} {perDim : List (List Nat)}
    (h : perDimension l = .ok (some perDim)) :
    List.Forall₂ (fun x leaves => unitLeaves x.2 x.1 = .ok leaves ∧ leaves ≠ []) l perDim := by
  induction l generalizing perDim with
  | nil => cases h; exact List.Forall₂.nil
  | cons x l ih =>
    simp only [perDimension, bind_eq_ok] at h
    obtain ⟨leaves, hleaves, h⟩ := h
    split_ifs at h with hempty
    · cases h
    · obtain ⟨rest, hrest, h⟩ := bind_eq_ok.1 h
      rcases rest with _ | rest
      · cases h
      · cases h
        exact List.Forall₂.cons ⟨hleaves, by simpa using hempty⟩ (ih hrest)

theorem perDimension_none {l : List (Nat × Dimension)} (h : perDimension l = .ok none) :
    ∃ x ∈ l, unitLeaves x.2 x.1 = .ok [] := by
  induction l with
  | nil => cases h
  | cons x l ih =>
    simp only [perDimension, bind_eq_ok] at h
    obtain ⟨leaves, hleaves, h⟩ := h
    split_ifs at h with hempty
    · rw [List.isEmpty_iff.1 hempty] at hleaves
      exact ⟨x, List.mem_cons_self, hleaves⟩
    · obtain ⟨rest, hrest, h⟩ := bind_eq_ok.1 h
      rcases rest with _ | rest
      · obtain ⟨y, hy, hyl⟩ := ih hrest
        exact ⟨y, List.mem_cons_of_mem _ hy, hyl⟩
      · cases h

/-- Under the cap the count is exact. -/
theorem countLeaves_ok {k n : Nat} {perDim : List (List Nat)} (hk : k ≤ maxSpreadLeaves)
    (h : countLeaves k perDim = .ok n) :
    n = k * (perDim.map List.length).prod ∧ n ≤ maxSpreadLeaves := by
  induction perDim generalizing k with
  | nil =>
    cases h
    exact ⟨by simp, hk⟩
  | cons leaves perDim ih =>
    rw [countLeaves] at h
    simp only [ite_error_eq_ok, Nat.not_lt] at h
    obtain ⟨hle, h⟩ := h
    have hmin : min usizeMax (k * leaves.length) = k * leaves.length := by
      simp only [usizeMax, maxSpreadLeaves] at hle ⊢
      omega
    rw [hmin] at h hle
    obtain ⟨rfl, hn⟩ := ih hle h
    exact ⟨by rw [List.map_cons, List.prod_cons, Nat.mul_assoc], hn⟩

end Spread

namespace Cube

/-- A coordinate of leaves under a target: each component is listed among
the weighted leaves of the target's. -/
def LeafUnder (c : Cube) (target a : Coord) : Prop :=
  InRange c.dimensions target ∧
    List.Forall₂ (fun j weights => j ∈ weights.map Prod.fst) a (c.leafLists target)

/-- The leaves of each component, without their weights. -/
def leafKeys (c : Cube) (target : Coord) : List (List Nat) :=
  (c.leafLists target).map (List.map Prod.fst)

variable {c : Cube} {target : Coord}

theorem leafUnder_iff {a : Coord} :
    c.LeafUnder target a ↔ InRange c.dimensions target ∧ a ∈ rows (c.leafKeys target) := by
  rw [LeafUnder, mem_rows, leafKeys, List.forall₂_map_right_iff]

theorem nodup_leafKeys (h : InRange c.dimensions target) :
    ∀ l ∈ c.leafKeys target, l.Nodup := by
  intro l hl
  obtain ⟨weights, hw, rfl⟩ := List.mem_map.1 hl
  exact nodup_leafLists h weights hw

theorem lt_of_leafWeights {d : Dimension} {i : Nat} {l : List (Nat × Int)}
    (h : d.leafWeights i = .ok l) : i < d.elements.length := by
  simp only [Dimension.leafWeights, bind_eq_ok] at h
  obtain ⟨e, he, -⟩ := h
  exact (List.getElem?_eq_some_iff.1 (Dimension.element_eq_ok.1 he)).1

end Cube

namespace Spread

variable {c : Cube} {target : Coord} {exclude : Coord → Bool}

/-- The leaves of every component are the ones the cube lists. -/
theorem perDimension_leafKeys (hlen : target.length = c.rank) {perDim : List (List Nat)}
    (h : perDimension (target.zip c.dimensions) = .ok (some perDim)) :
    InRange c.dimensions target ∧ perDim = c.leafKeys target ∧ (∀ l ∈ perDim, l ≠ []) ∧
      ∀ l ∈ c.leafLists target, ∀ e ∈ l, e.2 = 1 := by
  have hall := perDimension_some h
  obtain ⟨hlen', hat⟩ := forall₂_iff_getElem?.1 hall
  have hin : InRange c.dimensions target := by
    refine Cube.forall₂_iff_zip.2 ⟨hlen, fun x hx => ?_⟩
    obtain ⟨k, hk⟩ := List.mem_iff_getElem?.1 hx
    have hlt : k < perDim.length := hlen' ▸ (List.getElem?_eq_some_iff.1 hk).1
    obtain ⟨weights, hw, -⟩ := unitLeaves_eq_ok.1 (hat k x _ hk (List.getElem?_eq_getElem hlt)).1
    exact Cube.lt_of_leafWeights hw
  obtain ⟨hlists, hw⟩ := forall₂_iff_getElem?.1 (mapM_eq_ok.1 (Cube.perDimension_eq hin))
  -- the weights a component lists, and that they are ones
  have hunit : ∀ (k : Nat) l leaves, (c.leafLists target)[k]? = some l →
      perDim[k]? = some leaves → (∀ e ∈ l, e.2 = 1) ∧ l.map Prod.fst = leaves := by
    intro k l leaves hl hleaves
    have hlt : k < (target.zip c.dimensions).length :=
      hlists ▸ (List.getElem?_eq_some_iff.1 hl).1
    have hx := List.getElem?_eq_getElem hlt
    obtain ⟨weights, hwk, hone, hkeys⟩ := unitLeaves_eq_ok.1 (hat k _ leaves hx hleaves).1
    obtain rfl := Except.ok.inj (hwk.symm.trans (hw k _ l hx hl))
    exact ⟨hone, hkeys⟩
  refine ⟨hin, ?_, ?_, ?_⟩
  · refine List.ext_getElem? fun k => ?_
    rw [Cube.leafKeys, List.getElem?_map]
    by_cases hk : k < perDim.length
    · have hk' : k < (c.leafLists target).length := hlists ▸ hlen' ▸ hk
      rw [List.getElem?_eq_getElem hk, List.getElem?_eq_getElem hk', Option.map_some,
        (hunit k _ _ (List.getElem?_eq_getElem hk') (List.getElem?_eq_getElem hk)).2]
    · rw [List.getElem?_eq_none (Nat.not_lt.1 hk), List.getElem?_eq_none
        (by rw [← hlists, hlen']; exact Nat.not_lt.1 hk)]
      rfl
  · intro l hl
    obtain ⟨k, hk⟩ := List.mem_iff_getElem?.1 hl
    have hlt : k < (target.zip c.dimensions).length :=
      hlen' ▸ (List.getElem?_eq_some_iff.1 hk).1
    exact (hat k _ l (List.getElem?_eq_getElem hlt) hk).2
  · intro l hl
    obtain ⟨k, hk⟩ := List.mem_iff_getElem?.1 hl
    have hlt : k < perDim.length := by
      rw [← hlen', hlists]
      exact (List.getElem?_eq_some_iff.1 hk).1
    exact (hunit k l _ hk (List.getElem?_eq_getElem hlt)).1

/-- **The targets of a spread**: the leaves under a target of unit weights
that are not excluded, some of them, and not too many. -/
theorem targets_some {kept : List Coord} (h : targets c target exclude = .ok (some kept)) :
    InRange c.dimensions target ∧ (∀ l ∈ c.leafLists target, ∀ e ∈ l, e.2 = 1) ∧
      kept = (rows (c.leafKeys target)).filter (fun a => !exclude a) ∧ kept ≠ [] ∧
      kept.length ≤ maxSpreadLeaves := by
  simp only [targets, ite_error_eq_ok, ne_eq, Decidable.not_not, bind_eq_ok] at h
  obtain ⟨hlen, perDim, hperDim, h⟩ := h
  rcases perDim with _ | perDim
  · cases h
  · obtain ⟨hin, rfl, hne, hone⟩ := perDimension_leafKeys hlen hperDim
    obtain ⟨count, hcount, h⟩ := bind_eq_ok.1 h
    obtain ⟨hprod, hcap⟩ := countLeaves_ok (by decide) hcount
    rw [Nat.one_mul] at hprod
    have hcoords : coords (c.leafKeys target) count = rows (c.leafKeys target) := by
      rw [coords, hprod]
      exact map_row_readings hne
    rw [hcoords] at h
    split_ifs at h with hempty
    cases h
    refine ⟨hin, hone, rfl, by simpa using hempty, ?_⟩
    refine (List.length_filter_le _ _).trans (le_trans (le_of_eq ?_) hcap)
    rw [hprod, ← map_row_reading hne, List.length_map, List.length_range]

/-- Without targets there is no leaf. -/
theorem targets_none (h : targets c target exclude = .ok none) (a : Coord) :
    ¬ c.LeafUnder target a := by
  simp only [targets, ite_error_eq_ok, ne_eq, Decidable.not_not, bind_eq_ok] at h
  obtain ⟨-, perDim, hperDim, h⟩ := h
  rcases perDim with _ | perDim
  · rintro ⟨hin, hrow⟩
    obtain ⟨x, hx, hleaves⟩ := perDimension_none hperDim
    obtain ⟨weights, hw, -, hnil⟩ := unitLeaves_eq_ok.1 hleaves
    obtain ⟨k, hk⟩ := List.mem_iff_getElem?.1 hx
    obtain ⟨hlists, hat⟩ := forall₂_iff_getElem?.1 (mapM_eq_ok.1 (Cube.perDimension_eq hin))
    have hlt : k < (c.leafLists target).length := hlists ▸ (List.getElem?_eq_some_iff.1 hk).1
    have hl := List.getElem?_eq_getElem hlt
    obtain rfl := Except.ok.inj (hw.symm.trans (hat k x _ hk hl))
    obtain ⟨hlen, hmem⟩ := forall₂_iff_getElem?.1 hrow
    have ha := List.getElem?_eq_getElem (hlen ▸ hlt : k < a.length)
    have := hmem k _ _ ha hl
    rw [hnil] at this
    cases this
  · obtain ⟨count, -, h⟩ := bind_eq_ok.1 h
    split_ifs at h
    cases h

/-! ## The spread -/

theorem fits_toScaled (v : Fixed) : FitsIn 64 v.toScaled := by
  obtain ⟨h1, h2⟩ := v.inRange
  simp only [i64Min, i64Max] at h1 h2
  exact ⟨by norm_num; omega, by norm_num; omega⟩

/-- The values a proportional spread reads leave room for its leftover. -/
def Room (c : Cube) (target : Coord) (value : Fixed) (readLeaf : Coord → Except QueryError Fixed)
    (exclude : Coord → Bool) : Prop :=
  ∀ kept values, targets c target exclude = .ok (some kept) → kept.mapM readLeaf = .ok values →
    RoomForLeftover value.toScaled (values.map Fixed.toScaled)

/-- The shares in the integers. -/
def exactShares (kept : List Coord) (total : Int) (method : SpreadMethod)
    (readLeaf : Coord → Except QueryError Fixed) : Except SpreadError (List Int) :=
  match method with
  | .«repeat» => .ok (List.replicate kept.length total)
  | .clear => .ok (List.replicate kept.length 0)
  | .equal => .ok (evenShares total kept.length)
  | .proportional =>
    match kept.mapM readLeaf with
    | .error e => .error (.read e)
    | .ok values => .ok (proportionalShares total (values.map Fixed.toScaled))

/-- What a spread returns when nothing overflows. -/
def exactSpread (c : Cube) (target : Coord) (value : Fixed) (method : SpreadMethod)
    (readLeaf : Coord → Except QueryError Fixed) (exclude : Coord → Bool) :
    Except SpreadError (List (Coord × Fixed)) :=
  match targets c target exclude with
  | .error e => .error e
  | .ok none => .ok []
  | .ok (some kept) =>
    match exactShares kept value.toScaled method readLeaf with
    | .error e => .error e
    | .ok scaled => .ok (kept.zip (scaled.map Fixed.fromScaled))

variable {value : Fixed} {method : SpreadMethod} {readLeaf : Coord → Except QueryError Fixed}

section Build

variable {m : Type → Type} [Monad m] [LawfulMonad m] (A : Arith m)

theorem shares_eq {kept : List Coord} (hlen : kept.length ≤ maxSpreadLeaves)
    (hroom : ∀ values, method = .proportional → kept.mapM readLeaf = .ok values →
      RoomForLeftover value.toScaled (values.map Fixed.toScaled)) :
    shares A kept value.toScaled method readLeaf =
      pure (exactShares kept value.toScaled method readLeaf) := by
  cases method with
  | equal => rw [shares, distributeEqual_eq A hlen (fits_toScaled value), map_pure, exactShares]
  | «repeat» => rfl
  | clear => rfl
  | proportional =>
    simp only [shares, exactShares]
    rcases hvalues : kept.mapM readLeaf with e | values
    · rfl
    · have hvlen : values.length = kept.length := (mapM_eq_ok.1 hvalues).length_eq.symm
      have hfit : ∀ w ∈ values.map Fixed.toScaled, FitsIn 64 w := by
        intro w hw
        obtain ⟨v, -, rfl⟩ := List.mem_map.1 hw
        exact fits_toScaled v
      simp only []
      rw [distributeProportional_eq A (by rw [List.length_map, hvlen]; exact hlen)
        (fits_toScaled value) hfit (hroom values rfl hvalues), map_pure]

/-- **Either build** returns what the integers give, where the leftover has
room. -/
theorem spreadLeaves_eq (hroom : method = .proportional → Room c target value readLeaf exclude) :
    spreadLeaves A c target value method readLeaf exclude =
      pure (exactSpread c target value method readLeaf exclude) := by
  rw [spreadLeaves, exactSpread]
  rcases htargets : targets c target exclude with e | _ | kept
  · rfl
  · rfl
  · have hlen := (targets_some htargets).2.2.2.2
    simp only []
    rw [shares_eq A hlen fun values hm hv => hroom hm kept values htargets hv, pure_bind]
    rcases exactShares kept value.toScaled method readLeaf with e | scaled
    · rfl
    · rfl

end Build

end Spread

namespace Cube

variable {c c' : Cube} {target : Coord}

/-- **Reading back.** Over leaves of unit weight, a value for each leaf is
read back as the sum of the values. -/
theorem get_setLeaves (hc : c.WF) (hin : InRange c.dimensions target)
    (hone : ∀ l ∈ c.leafLists target, ∀ e ∈ l, e.2 = 1) {writes : List (Coord × Fixed)}
    (hwrites : writes.map Prod.fst = rows (c.leafKeys target)) {value : Fixed}
    (hsum : (writes.map fun w => w.2.toScaled).sum = value.toScaled) :
    ∃ c', c.setLeaves writes = .ok c' ∧ c'.get target = .ok value := by
  have hperm := rows_perm_sections (nodup_leafKeys hin)
  have hnum : ∀ w ∈ writes, NumericCoord c.dimensions w.1 := by
    intro w hw
    have hmem : w.1 ∈ (c.leafKeys target).sections := by
      rw [← hperm.mem_iff, ← hwrites]
      exact List.mem_map_of_mem hw
    rw [leafKeys, sections_map] at hmem
    obtain ⟨s, hs, hsw⟩ := List.mem_map.1 hmem
    exact hsw ▸ numericCoord_keys hin hs
  obtain ⟨c', h', hc', hdims, hread, -⟩ := setLeaves_ok hc hnum
    (hwrites ▸ nodup_rows (nodup_leafKeys hin))
  refine ⟨c', h', ?_⟩
  have hlists : c'.leafLists target = c.leafLists target := leafLists_congr hdims
  -- the weights are ones, so the sum is over the leaves themselves
  have hterm : ∀ s ∈ (c.leafLists target).sections,
      weight (wide s) * (c'.leafValue (keys (wide s))).toI128 =
        (c'.leafValue (s.map Prod.fst)).toI128 := by
    intro s hs
    have hkeys : keys (wide s) = s.map Prod.fst := by simp [keys, wide, Function.comp_def]
    have hweight : weight (wide s) = 1 := by
      refine List.prod_eq_one fun w hw => ?_
      simp only [wide, List.map_map, List.mem_map, Function.comp_apply] at hw
      obtain ⟨e, he, rfl⟩ := hw
      obtain ⟨hlen, hmem⟩ := forall₂_iff_getElem?.1 (List.mem_sections.1 hs)
      obtain ⟨k, hk⟩ := List.mem_iff_getElem?.1 he
      have hlt : k < (c.leafLists target).length := hlen ▸ (List.getElem?_eq_some_iff.1 hk).1
      rw [hone _ (List.getElem_mem hlt) e (hmem k e _ hk (List.getElem?_eq_getElem hlt))]
      rfl
    rw [hkeys, hweight, one_mul]
  have hstored : c'.storedSum (c'.leafLists target) = BitVec.ofInt 128 value.toScaled := by
    have hterms : (c.leafLists target).sections.map
        ((fun s => weight s * (c'.leafValue (keys s)).toI128) ∘ wide) =
          (c.leafKeys target).sections.map fun a => (c'.leafValue a).toI128 := by
      rw [leafKeys, sections_map, List.map_map]
      exact List.map_congr_left hterm
    rw [← sum_sections_stored hc' (hdims ▸ hin), hlists, List.map_map]
    refine (congrArg List.sum hterms).trans ?_
    rw [← (hperm.map fun a => (c'.leafValue a).toI128).sum_eq, ← hwrites, List.map_map]
    have hwrite : ∀ w ∈ writes, ((fun a => (c'.leafValue a).toI128) ∘ Prod.fst) w =
        Int.castRingHom I128 w.2.toScaled := by
      intro w hw
      rw [Function.comp_apply, hread w hw]
      rfl
    rw [List.map_congr_left hwrite, ← hsum]
    have hmap := map_list_sum (Int.castRingHom I128) (writes.map fun w => w.2.toScaled)
    rw [List.map_map] at hmap
    exact hmap.symm
  rw [get_eq_narrow_of_inRange hc' (hdims ▸ hin), hstored, narrow_ofInt,
    bmod_of_fits value.inRange, exactResult, Fixed.tryFrom_toScaled]
  rfl

end Cube

namespace Spread

variable {c : Cube} {target : Coord} {exclude : Coord → Bool} {value : Fixed}
  {method : SpreadMethod} {readLeaf : Coord → Except QueryError Fixed}

/-- **What a spread conserves.** -/
structure Conserves (c : Cube) (target : Coord) (value : Fixed) (exclude : Coord → Bool)
    (writes : List (Coord × Fixed)) : Prop where
  distinct : (writes.map Prod.fst).Nodup
  covers : ∀ a, a ∈ writes.map Prod.fst ↔ c.LeafUnder target a ∧ exclude a = false
  total : (∃ a, c.LeafUnder target a) →
    (writes.map fun w => w.2.toScaled).sum = value.toScaled
  readsBack : (∃ a, c.LeafUnder target a) → (∀ a, c.LeafUnder target a → exclude a = false) →
    ∃ c', c.setLeaves writes = .ok c' ∧ c'.get target = .ok value

theorem toScaled_fromScaled {n : Int} (h : FitsIn 64 n) : (Fixed.fromScaled n).toScaled = n := by
  have hfits : i64Min ≤ n ∧ n ≤ i64Max := ⟨h.1, Int.le_sub_one_of_lt h.2⟩
  rw [Fixed.fromScaled, Arith.wrap_of_fits (by decide) h, Fixed.tryFrom, dif_pos hfits]
  rfl

theorem fits_bump {step : Int} {k : Nat} {out : List Int} (hfit : ∀ x ∈ out, FitsIn 64 x)
    (hroom : HasRoom step k out) : ∀ x ∈ bump step k out, FitsIn 64 x := by
  intro x hx
  rcases List.mem_append.1 hx with hx | hx
  · obtain ⟨y, hy, rfl⟩ := List.mem_map.1 hx
    exact hroom y hy
  · exact hfit x (List.mem_of_mem_drop hx)

theorem fits_evenShares {total : Int} {n : Nat} (hn : 0 < n) (ht : FitsIn 64 total) :
    ∀ x ∈ evenShares total n, FitsIn 64 x := by
  refine fits_bump (fun x hx => ?_) (hasRoom_even hn ht)
  obtain rfl := List.eq_of_mem_replicate hx
  exact (between_of_tdiv n ht).1

theorem fits_proportionalShares {total : Int} {weights : List Int} (hne : weights ≠ [])
    (ht : FitsIn 64 total) (hroom : RoomForLeftover total weights) :
    ∀ x ∈ proportionalShares total weights, FitsIn 64 x := by
  rw [proportionalShares]
  split_ifs with h
  · refine fits_bump (fun x hx => ?_) (hroom h)
    obtain ⟨w, hw, rfl⟩ := List.mem_map.1 hx
    exact h.2 w hw
  · exact fits_evenShares (List.length_pos_iff.2 hne) ht

/-- The shares of a conserving method: one for each leaf, all within 64
bits, and their sum the total. -/
theorem exactShares_ok {kept : List Coord} {scaled : List Int} (hne : kept ≠ [])
    (hmethod : method = .equal ∨ method = .proportional)
    (hroom : ∀ values, method = .proportional → kept.mapM readLeaf = .ok values →
      RoomForLeftover value.toScaled (values.map Fixed.toScaled))
    (h : exactShares kept value.toScaled method readLeaf = .ok scaled) :
    scaled.length = kept.length ∧ (∀ x ∈ scaled, FitsIn 64 x) ∧ scaled.sum = value.toScaled := by
  have ht := fits_toScaled value
  have hpos := List.length_pos_iff.2 hne
  rcases hmethod with rfl | rfl
  · cases h
    exact ⟨length_evenShares _ _, fits_evenShares hpos ht, sum_evenShares _ hpos⟩
  · rcases hvalues : kept.mapM readLeaf with e | values
    · simp [exactShares, hvalues] at h
    · simp only [exactShares, hvalues, Except.ok.injEq] at h
      subst h
      have hlen := (mapM_eq_ok.1 hvalues).length_eq
      have hvne : values.map Fixed.toScaled ≠ [] := by
        rw [← List.length_pos_iff, List.length_map, ← hlen]
        exact hpos
      refine ⟨?_, fits_proportionalShares hvne ht (hroom values rfl hvalues),
        sum_proportionalShares _ hvne⟩
      rw [length_proportionalShares, List.length_map, hlen]

theorem conserves_exactSpread (hc : c.WF) (hmethod : method = .equal ∨ method = .proportional)
    (hroom : method = .proportional → Room c target value readLeaf exclude)
    {writes : List (Coord × Fixed)}
    (h : exactSpread c target value method readLeaf exclude = .ok writes) :
    Conserves c target value exclude writes := by
  rw [exactSpread] at h
  rcases htargets : targets c target exclude with e | _ | kept
  · simp [htargets] at h
  · -- a target without leaves gets no write
    simp only [htargets, Except.ok.injEq] at h
    subst h
    have hno := targets_none htargets
    exact ⟨List.nodup_nil, fun a => by simp [hno a], fun ⟨a, ha⟩ => absurd ha (hno a),
      fun ⟨a, ha⟩ => absurd ha (hno a)⟩
  · obtain ⟨hin, hone, hkept, hne, -⟩ := targets_some htargets
    rcases hscaled : exactShares kept value.toScaled method readLeaf with e | scaled
    · simp [htargets, hscaled] at h
    · simp only [htargets, hscaled, Except.ok.injEq] at h
      obtain ⟨hlen, hfit, hsum⟩ := exactShares_ok hne hmethod
        (fun values hm hv => hroom hm kept values htargets hv) hscaled
      have hfst : writes.map Prod.fst = kept := by
        rw [← h]
        exact List.map_fst_zip (by rw [List.length_map, hlen])
      have htotal : (writes.map fun w => w.2.toScaled).sum = value.toScaled := by
        have hsnd : writes.map Prod.snd = scaled.map Fixed.fromScaled := by
          rw [← h]
          exact List.map_snd_zip (by rw [List.length_map, hlen])
        have hmap : writes.map (fun w => w.2.toScaled) = scaled := by
          have := congrArg (List.map Fixed.toScaled) hsnd
          rw [List.map_map, List.map_map] at this
          refine this.trans ((List.map_congr_left fun x hx => ?_).trans (List.map_id scaled))
          exact toScaled_fromScaled (hfit x hx)
        rw [hmap, hsum]
      refine ⟨?_, fun a => ?_, fun _ => htotal, fun _ hall => ?_⟩
      · rw [hfst, hkept]
        exact (nodup_rows (Cube.nodup_leafKeys hin)).filter _
      · rw [hfst, hkept, List.mem_filter, Cube.leafUnder_iff]
        simp [hin]
      · refine Cube.get_setLeaves hc hin hone ?_ htotal
        rw [hfst, hkept, List.filter_eq_self]
        intro a ha
        rw [hall a (Cube.leafUnder_iff.2 ⟨hin, ha⟩)]
        rfl

/-- **Spreading conserves the target.** -/
theorem conserves_spreadLeaves (hc : c.WF) (hmethod : method = .equal ∨ method = .proportional)
    (hroom : method = .proportional → Room c target value readLeaf exclude)
    {writes : List (Coord × Fixed)}
    (h : spreadLeaves Arith.wrapping c target value method readLeaf exclude = .ok writes) :
    Conserves c target value exclude writes ∧
      spreadLeaves Arith.checked c target value method readLeaf exclude = some (.ok writes) := by
  rw [spreadLeaves_eq Arith.wrapping hroom] at h
  have hok : exactSpread c target value method readLeaf exclude = .ok writes := h
  refine ⟨conserves_exactSpread hc hmethod hroom hok, ?_⟩
  rw [spreadLeaves_eq Arith.checked hroom, hok]
  rfl

/-- A spread without exclusions that reads no leaf. -/
def spreadEvenly (c : Cube) (target : Coord) (value : Fixed) :
    Except SpreadError (List (Coord × Fixed)) :=
  spreadLeaves Arith.wrapping c target value .equal (fun _ => .ok Fixed.zero) fun _ => false

/-- What a spread by holding reads. -/
def holding (c : Cube) (a : Coord) : Except QueryError Fixed := .ok (c.leafValue a)

/-- A spread without exclusions by what the leaves of the target hold. -/
def spreadByHolding (c : Cube) (target : Coord) (value : Fixed) :
    Except SpreadError (List (Coord × Fixed)) :=
  spreadLeaves Arith.wrapping c target value .proportional (holding c) fun _ => false

/-- Two regions share an odd number of units, and the first gets the odd one;
by their amounts of 1 and 2.5, a unit of 8 is left over and goes to the first
one too. -/
theorem conserves_spread_sales : ∃ start c : Cube, Cube.build "Sales" Cube.salesDefs = .ok start ∧
    Cube.salesWrites.foldl Cube.apply start = c ∧
    Conserves c [2, 0] (Fixed.fromScaled 7) (fun _ => false)
      [([0, 0], Fixed.fromScaled 4), ([1, 0], Fixed.fromScaled 3)] ∧
    Conserves c [2, 0] (Fixed.fromScaled 8) (fun _ => false)
      [([0, 0], Fixed.fromScaled 3), ([1, 0], Fixed.fromScaled 5)] := by
  obtain ⟨start, hstart, h⟩ := exists_ok_of_any (x := Cube.build "Sales" Cube.salesDefs)
    (p := fun start =>
      let c := Cube.salesWrites.foldl Cube.apply start
      spreadEvenly c [2, 0] (Fixed.fromScaled 7) =
          .ok [([0, 0], Fixed.fromScaled 4), ([1, 0], Fixed.fromScaled 3)] ∧
        spreadByHolding c [2, 0] (Fixed.fromScaled 8) =
          .ok [([0, 0], Fixed.fromScaled 3), ([1, 0], Fixed.fromScaled 5)] ∧
        targets c [2, 0] (fun _ => false) = .ok (some [[0, 0], [1, 0]]) ∧
        ([[0, 0], [1, 0]].mapM (holding c)).toOption.map (List.map Fixed.toScaled) =
          some [10000, 25000])
    (by decide +kernel)
  obtain ⟨heven, hheld, htargets, hholding⟩ := of_decide_eq_true h
  have hwf := (Cube.WF.build hstart).calls Cube.salesWrites
  have hroom : Room (Cube.salesWrites.foldl Cube.apply start) [2, 0] (Fixed.fromScaled 8)
      (holding (Cube.salesWrites.foldl Cube.apply start)) fun _ => false := by
    intro kept values hkept hvalues
    obtain rfl := Option.some.inj (Except.ok.inj (hkept.symm.trans htargets))
    rw [hvalues] at hholding
    rw [Option.some.inj hholding]
    intro _
    unfold HasRoom
    decide +kernel
  exact ⟨start, _, hstart, rfl,
    (conserves_spreadLeaves hwf (.inl rfl) (fun hm => by cases hm) heven).1,
    (conserves_spreadLeaves hwf (.inr rfl) (fun _ => hroom) hheld).1⟩

/-- A consolidation without children, and one over a leaf of weight one and
a leaf of weight zero. -/
def sparseDefs : List DimensionDef :=
  [⟨"Region", [("North", .leaf), ("South", .leaf), ("World", .consolidated),
      ("Empty", .consolidated)],
    [("World", "North", 1), ("World", "South", 0)], [], []⟩]

/-- A value spread over a target without leaves is dropped, and a leaf of
weight zero gets no write. -/
theorem spread_sparse : ∃ c, Cube.build "Sparse" sparseDefs = .ok c ∧
    (spreadEvenly c [3] (Fixed.fromScaled 7) = .ok [] ∧
      (([] : List (Coord × Fixed)).map fun w => w.2.toScaled).sum ≠
        (Fixed.fromScaled 7).toScaled) ∧
    spreadEvenly c [2] (Fixed.fromScaled 7) = .ok [([0], Fixed.fromScaled 7)] ∧
    1 ∈ ((c.dimension 0).edgesOf 2).map Edge.child := by
  obtain ⟨c, hc, h⟩ := exists_ok_of_any (by decide +kernel :
    (Cube.build "Sparse" sparseDefs).toOption.any (fun c =>
      (spreadEvenly c [3] (Fixed.fromScaled 7) = .ok [] ∧
        (([] : List (Coord × Fixed)).map fun w => w.2.toScaled).sum ≠
          (Fixed.fromScaled 7).toScaled) ∧
      spreadEvenly c [2] (Fixed.fromScaled 7) = .ok [([0], Fixed.fromScaled 7)] ∧
      1 ∈ ((c.dimension 0).edgesOf 2).map Edge.child) = true)
  exact ⟨c, hc, of_decide_eq_true h⟩

end Spread

end Epiphany
