import Mathlib
/-!
# Bytes — little-endian numbers and a prefix reader

A number of `k` bytes is written least significant byte first, and reading
it back is reduction modulo `256 ^ k` (`ofLe_leBytes`). A reader takes a
prefix of what is left, or fails when less is left; it reads back what was
written in front of anything (`takeBytes_append`).
-/

namespace Epiphany

namespace Bytes

/-- The `k` low bytes of a number, least significant first. -/
def leBytes : Nat → Nat → List UInt8
  | 0, _ => []
  | k + 1, n => UInt8.ofNat n :: leBytes k (n / 256)

/-- The number that bytes spell, least significant first. -/
def ofLe : List UInt8 → Nat
  | [] => 0
  | b :: bs => b.toNat + 256 * ofLe bs

@[simp] theorem length_leBytes (k n : Nat) : (leBytes k n).length = k := by
  induction k generalizing n with
  | zero => rfl
  | succ k ih => rw [leBytes, List.length_cons, ih]

theorem ofLe_leBytes (k n : Nat) : ofLe (leBytes k n) = n % 256 ^ k := by
  induction k generalizing n with
  | zero => simp [leBytes, ofLe, Nat.mod_one]
  | succ k ih =>
    have hbyte : (UInt8.ofNat n).toNat = n % 256 := UInt8.toNat_ofNat'
    rw [leBytes, ofLe, ih, hbyte, pow_succ', Nat.mod_mul]

theorem ofLe_leBytes_of_lt {k n : Nat} (h : n < 256 ^ k) : ofLe (leBytes k n) = n := by
  rw [ofLe_leBytes, Nat.mod_eq_of_lt h]

theorem ofLe_lt (bs : List UInt8) : ofLe bs < 256 ^ bs.length := by
  induction bs with
  | nil => simp [ofLe]
  | cons b bs ih =>
    have hb : b.toNat < 256 := b.toNat_lt
    rw [ofLe, List.length_cons, pow_succ']
    omega

theorem leBytes_ofLe (bs : List UInt8) : leBytes bs.length (ofLe bs) = bs := by
  induction bs with
  | nil => rfl
  | cons b bs ih =>
    have hb : b.toNat < 256 := b.toNat_lt
    rw [ofLe, List.length_cons, leBytes]
    have hdiv : (b.toNat + 256 * ofLe bs) / 256 = ofLe bs := by omega
    have hmod : UInt8.ofNat (b.toNat + 256 * ofLe bs) = b := by
      apply UInt8.toNat_inj.1
      rw [UInt8.toNat_ofNat']
      omega
    rw [hdiv, hmod, ih]

/-! ## Reading a prefix -/

/-- The first `k` bytes and the rest, when there are `k`. -/
def takeBytes (k : Nat) (bs : List UInt8) : Option (List UInt8 × List UInt8) :=
  if k ≤ bs.length then some (bs.take k, bs.drop k) else none

theorem takeBytes_eq_some {k : Nat} {bs front rest : List UInt8} :
    takeBytes k bs = some (front, rest) ↔ bs = front ++ rest ∧ front.length = k := by
  rw [takeBytes]
  split_ifs with h
  · rw [Option.some.injEq, Prod.mk.injEq]
    constructor
    · rintro ⟨rfl, rfl⟩
      exact ⟨(List.take_append_drop k bs).symm, by rw [List.length_take, min_eq_left h]⟩
    · rintro ⟨rfl, rfl⟩
      exact ⟨List.take_left, List.drop_left⟩
  · simp only [false_iff, not_and]
    rintro rfl rfl
    simp at h

@[simp] theorem takeBytes_append {k : Nat} {front : List UInt8} (h : front.length = k)
    (rest : List UInt8) : takeBytes k (front ++ rest) = some (front, rest) :=
  takeBytes_eq_some.2 ⟨rfl, h⟩

/-- A little-endian number of `k` bytes and the rest. -/
def takeLe (k : Nat) (bs : List UInt8) : Option (Nat × List UInt8) :=
  (takeBytes k bs).map fun x => (ofLe x.1, x.2)

theorem takeLe_leBytes {k n : Nat} (h : n < 256 ^ k) (rest : List UInt8) :
    takeLe k (leBytes k n ++ rest) = some (n, rest) := by
  rw [takeLe, takeBytes_append (length_leBytes k n), Option.map_some, ofLe_leBytes_of_lt h]

theorem takeLe_eq_some {k n : Nat} {bs rest : List UInt8} :
    takeLe k bs = some (n, rest) ↔ n < 256 ^ k ∧ bs = leBytes k n ++ rest := by
  constructor
  · intro h
    obtain ⟨⟨front, rest'⟩, hx, heq⟩ := Option.map_eq_some_iff.1 h
    obtain ⟨rfl, hlen⟩ := takeBytes_eq_some.1 hx
    obtain ⟨rfl, rfl⟩ := Prod.mk.inj heq
    subst hlen
    exact ⟨ofLe_lt front, by rw [leBytes_ofLe]⟩
  · rintro ⟨hn, rfl⟩
    exact takeLe_leBytes hn rest

/-! ## Text -/

/-- The UTF-8 bytes of a string. -/
def utf8 (s : String) : List UInt8 := s.toUTF8.data.toList

/-- The string that bytes spell, when they are valid UTF-8. -/
def fromUtf8 (bs : List UInt8) : Option String := String.fromUTF8? ⟨bs.toArray⟩

theorem fromUtf8_eq_some {bs : List UInt8} {s : String} : fromUtf8 bs = some s ↔ bs = utf8 s := by
  rw [fromUtf8, String.fromUTF8?]
  constructor
  · intro h
    split_ifs at h with hvalid
    rw [← Option.some.inj h, utf8, String.toUTF8, String.fromUTF8]
  · rintro rfl
    have hbytes : (⟨(utf8 s).toArray⟩ : ByteArray) = s.toByteArray := by
      rw [utf8, Array.toArray_toList]
      rfl
    rw [hbytes, dif_pos s.isValidUTF8]
    exact congrArg some (String.toByteArray_inj.1 rfl)

@[simp] theorem fromUtf8_utf8 (s : String) : fromUtf8 (utf8 s) = some s :=
  fromUtf8_eq_some.2 rfl

end Bytes

end Epiphany
