import Mathlib
/-!
# Bit fields — packing a tuple of naturals into one

Consecutive fields of given widths lie at the running sums of the widths.
Packing ors each value in at its offset; reading a field shifts and masks.
When every value fits its width, each field reads back (`field_pack`), so
packing is injective.
-/

namespace Epiphany

namespace BitFields

/-- The offsets of consecutive fields, from a first offset. -/
def offsets : Nat → List Nat → List Nat
  | _, [] => []
  | off, w :: ws => off :: offsets (off + w) ws

/-- Or the values in at their offsets. -/
def pack (offs values : List Nat) : Nat :=
  (values.zip offs).foldl (fun key x => key ||| x.1 <<< x.2) 0

/-- Read the field at an offset through a mask. -/
def field (key off mask : Nat) : Nat := (key >>> off) &&& mask

theorem length_offsets (off : Nat) (widths : List Nat) :
    (offsets off widths).length = widths.length := by
  induction widths generalizing off with
  | nil => rfl
  | cons w ws ih => rw [offsets, List.length_cons, ih, List.length_cons]

/-- A field ends where the widths do, or before. -/
theorem offset_add_le {off d o w : Nat} {widths : List Nat} (ho : (offsets off widths)[d]? = some o)
    (hw : widths[d]? = some w) : o + w ≤ off + widths.sum := by
  induction widths generalizing off d with
  | nil => simp at hw
  | cons w' ws ih =>
    rw [List.sum_cons]
    rcases d with _ | d
    · simp only [offsets, List.getElem?_cons_zero, Option.some.injEq] at ho hw
      omega
    · simp only [offsets, List.getElem?_cons_succ] at ho hw
      have := ih ho hw
      omega

/-- A field is read off bit by bit. -/
theorem field_eq {key off w v : Nat} (hv : v < 2 ^ w)
    (h : ∀ i < w, key.testBit (off + i) = v.testBit i) : field key off (2 ^ w - 1) = v := by
  refine Nat.eq_of_testBit_eq fun i => ?_
  rw [field, Nat.testBit_and, Nat.testBit_shiftRight, Nat.testBit_two_pow_sub_one]
  by_cases hi : i < w
  · simp [hi, h i hi]
  · simp [hi, Nat.testBit_lt_two_pow
      (hv.trans_le (Nat.pow_le_pow_right (by decide) (Nat.not_lt.1 hi)))]

/-- Packing over an accumulator that stays below the first offset: the bits
below are the accumulator's, and each field reads its value. -/
theorem foldl_pack {values widths : List Nat}
    (h : List.Forall₂ (fun v w => v < 2 ^ w) values widths) (off k : Nat) (hk : k < 2 ^ off) :
    (∀ i < off, ((values.zip (offsets off widths)).foldl
      (fun key x => key ||| x.1 <<< x.2) k).testBit i = k.testBit i) ∧
    ∀ (d : Nat) v w o, values[d]? = some v → widths[d]? = some w →
      (offsets off widths)[d]? = some o →
        field ((values.zip (offsets off widths)).foldl
          (fun key x => key ||| x.1 <<< x.2) k) o (2 ^ w - 1) = v := by
  induction h generalizing off k with
  | nil => simp [offsets]
  | @cons v w values widths hv _ ih =>
    have hlt : v <<< off < 2 ^ (off + w) := by
      rw [Nat.shiftLeft_eq, Nat.pow_add, Nat.mul_comm]
      exact Nat.mul_lt_mul_of_pos_left hv (Nat.two_pow_pos off)
    have hk' : k ||| v <<< off < 2 ^ (off + w) :=
      Nat.or_lt_two_pow (hk.trans_le (Nat.pow_le_pow_right (by decide) (by omega))) hlt
    obtain ⟨hlow, hfields⟩ := ih (off + w) (k ||| v <<< off) hk'
    rw [offsets, List.zip_cons_cons, List.foldl_cons]
    refine ⟨fun i hi => ?_, fun d v' w' o hv' hw' ho => ?_⟩
    · rw [hlow i (by omega), Nat.testBit_or, Nat.testBit_shiftLeft]
      simp [Nat.not_le.2 hi]
    · rcases d with _ | d
      · simp only [List.getElem?_cons_zero, Option.some.injEq] at hv' hw' ho
        subst hv' hw' ho
        refine field_eq hv fun i hi => ?_
        rw [hlow _ (by omega), Nat.testBit_or, Nat.testBit_shiftLeft,
          Nat.testBit_lt_two_pow (hk.trans_le (Nat.pow_le_pow_right (by decide) (by omega)))]
        simp
      · exact hfields d v' w' o hv' hw' ho

/-- **Each field reads back** the value packed into it. -/
theorem field_pack {values widths : List Nat}
    (h : List.Forall₂ (fun v w => v < 2 ^ w) values widths) {d v w o : Nat}
    (hv : values[d]? = some v) (hw : widths[d]? = some w)
    (ho : (offsets 0 widths)[d]? = some o) :
    field (pack (offsets 0 widths) values) o (2 ^ w - 1) = v :=
  (foldl_pack h 0 0 (by decide)).2 d v w o hv hw ho

end BitFields

end Epiphany
