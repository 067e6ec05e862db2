import Epiphany.Persist.Framing
/-!
# The write-ahead log — what a frame reads back as

A payload reads back as its record when the record fits the widths of the
format: a rank of two bytes and a length of four (`decode_payload`); and
whatever is read back fits (`fits_of_decode`). A frame is found where one
was written, and its proper prefixes are never frames (`frameAt_take`).
-/

namespace Epiphany

namespace Wal

open Bytes

variable {r : Record} {p rest : List UInt8}

/-- The rank of the coordinate in a record. -/
def Record.rank : Record → Nat
  | .setLeaf coord _ => coord.length
  | .setString coord _ => coord.length
  | _ => 0

/-- **A record fits the log's field widths.** -/
structure Record.Fits (r : Record) : Prop where
  rank : r.rank < 2 ^ 16
  length : (payload r).length < 2 ^ 32

/-! ## Fields -/

theorem length_flatMap_indices (coord : List UInt32) :
    (coord.flatMap fun i => leBytes 4 i.toNat).length = 4 * coord.length := by
  induction coord with
  | nil => rfl
  | cons i coord ih =>
    rw [List.flatMap_cons, List.length_append, ih, length_leBytes, List.length_cons]
    omega

@[simp] theorem length_writeCoord (coord : List UInt32) :
    (writeCoord coord).length = 2 + 4 * coord.length := by
  rw [writeCoord, List.length_append, length_leBytes, length_flatMap_indices]

@[simp] theorem length_writeStr (s : String) : (writeStr s).length = 4 + (utf8 s).length := by
  rw [writeStr, List.length_append, length_leBytes]

theorem readIndices_flatMap (coord : List UInt32) (rest : List UInt8) :
    readIndices coord.length ((coord.flatMap fun i => leBytes 4 i.toNat) ++ rest) =
      some (coord, rest) := by
  induction coord with
  | nil => rfl
  | cons i coord ih =>
    have hi : i.toNat < 256 ^ 4 := i.toNat_lt
    rw [List.flatMap_cons, List.append_assoc, List.length_cons, readIndices,
      takeLe_leBytes hi]
    simp [ih]

theorem readCoord_writeCoord {coord : List UInt32} (h : coord.length < 2 ^ 16)
    (rest : List UInt8) : readCoord (writeCoord coord ++ rest) = some (coord, rest) := by
  have hr : coord.length < 256 ^ 2 := h
  rw [readCoord, writeCoord, List.append_assoc, takeLe_leBytes hr]
  exact readIndices_flatMap coord rest

theorem readStr_writeStr {s : String} (h : (utf8 s).length < 2 ^ 32) (rest : List UInt8) :
    readStr (writeStr s ++ rest) = some (s, rest) := by
  have hl : (utf8 s).length < 256 ^ 4 := h
  rw [readStr, writeStr, List.append_assoc, takeLe_leBytes hl]
  simp

theorem readIndices_eq_some {n : Nat} {coord : List UInt32} {bs : List UInt8}
    (h : readIndices n bs = some (coord, rest)) :
    coord.length = n ∧ bs.length = 4 * n + rest.length := by
  induction n generalizing bs coord with
  | zero =>
    cases h
    simp
  | succ n ih =>
    simp only [readIndices, Option.bind_eq_bind, Option.bind_eq_some_iff, Option.some.injEq,
      Prod.mk.injEq, Prod.exists] at h
    obtain ⟨i, mid, hi, tl, rest', htl, rfl, rfl⟩ := h
    obtain ⟨-, rfl⟩ := takeLe_eq_some.1 hi
    obtain ⟨hlen, hmid⟩ := ih htl
    refine ⟨by rw [List.length_cons, hlen], ?_⟩
    rw [List.length_append, length_leBytes, hmid]
    omega

/-- A coordinate that is read has a rank of two bytes. -/
theorem readCoord_eq_some {coord : List UInt32} {bs : List UInt8}
    (h : readCoord bs = some (coord, rest)) :
    coord.length < 2 ^ 16 ∧ bs.length = (writeCoord coord).length + rest.length := by
  simp only [readCoord, Option.bind_eq_bind, Option.bind_eq_some_iff, Prod.exists] at h
  obtain ⟨n, mid, hn, h⟩ := h
  obtain ⟨hlt, rfl⟩ := takeLe_eq_some.1 hn
  obtain ⟨rfl, hmid⟩ := readIndices_eq_some h
  refine ⟨hlt, ?_⟩
  rw [List.length_append, length_leBytes, hmid, length_writeCoord]
  omega

theorem readStr_eq_some {s : String} {bs : List UInt8} (h : readStr bs = some (s, rest)) :
    bs.length = (writeStr s).length + rest.length := by
  simp only [readStr, Option.bind_eq_bind, Option.bind_eq_some_iff, Option.some.injEq,
    Prod.mk.injEq, Prod.exists, takeLe_eq_some, takeBytes_eq_some, fromUtf8_eq_some] at h
  obtain ⟨n, mid, ⟨-, rfl⟩, bytes, rest', ⟨rfl, hn⟩, s', hs, rfl, rfl⟩ := h
  rw [List.length_append, List.length_append, length_leBytes, length_writeStr, hs]
  omega

/-! ## Payloads -/

/-- **A record that fits reads back.** -/
theorem decode_payload (h : r.Fits) : decode (payload r) = some r := by
  have hlen := h.length
  have hrank := h.rank
  cases r with
  | setLeaf coord value =>
    have hw : value.toWord.toNat < 256 ^ 8 := value.toWord.isLt
    have hread := takeLe_leBytes hw []
    rw [List.append_nil] at hread
    simp [payload, decode, readCoord_writeCoord hrank, hread]
  | setString coord value =>
    have hs : (utf8 value).length < 2 ^ 32 := by
      simp only [payload, List.length_cons, List.length_append, length_writeStr] at hlen
      omega
    have hread := readStr_writeStr hs []
    rw [List.append_nil] at hread
    simp [payload, decode, readCoord_writeCoord hrank, hread, opSetString, opSetLeaf]
  | batchBegin count =>
    have hc : count.toNat < 256 ^ 4 := count.toNat_lt
    have hread := takeLe_leBytes hc []
    rw [List.append_nil] at hread
    simp [payload, decode, hread, opSetString, opSetLeaf, opBatchBegin]
  | batchEnd => rfl
  | setPin dimension element pinned =>
    simp only [payload, List.length_cons, List.length_append, length_writeStr] at hlen
    have hd : (utf8 dimension).length < 2 ^ 32 := by omega
    have he : (utf8 element).length < 2 ^ 32 := by omega
    have hb : takeLe 1 [if pinned then (1 : UInt8) else 0] = some (if pinned then 1 else 0, []) := by
      cases pinned <;> rfl
    simp [payload, decode, readStr_writeStr hd, readStr_writeStr he, hb, opSetString, opSetLeaf,
      opBatchBegin, opBatchEnd, opSetPin]

/-- **What is read back fits**, and took at least its own bytes. -/
theorem fits_of_decode (h : decode p = some r) (hp : p.length < 2 ^ 32) : r.Fits := by
  suffices r.rank < 2 ^ 16 ∧ (payload r).length ≤ p.length from ⟨this.1, this.2.trans_lt hp⟩
  rcases p with _ | ⟨op, bs⟩
  · cases h
  rw [decode] at h
  split_ifs at h
  · simp only [Option.bind_eq_bind, Option.bind_eq_some_iff, Option.some.injEq,
      Prod.exists] at h
    obtain ⟨coord, mid, hc, word, rest', hw, rfl⟩ := h
    obtain ⟨-, rfl⟩ := takeLe_eq_some.1 hw
    obtain ⟨hrank, hlen⟩ := readCoord_eq_some hc
    refine ⟨hrank, ?_⟩
    simp only [payload, List.length_cons, List.length_append, length_leBytes] at hlen ⊢
    omega
  · simp only [Option.bind_eq_bind, Option.bind_eq_some_iff, Option.some.injEq,
      Prod.exists] at h
    obtain ⟨coord, mid, hc, value, rest', hs, rfl⟩ := h
    obtain ⟨hrank, hlen⟩ := readCoord_eq_some hc
    have hslen := readStr_eq_some hs
    refine ⟨hrank, ?_⟩
    simp only [payload, List.length_cons, List.length_append] at hlen ⊢
    omega
  · simp only [Option.bind_eq_bind, Option.bind_eq_some_iff, Option.some.injEq,
      Prod.exists] at h
    obtain ⟨count, rest', hc, rfl⟩ := h
    obtain ⟨-, rfl⟩ := takeLe_eq_some.1 hc
    exact ⟨by simp [Record.rank], by simp [payload]⟩
  · cases h
    exact ⟨by simp [Record.rank], by simp [payload]⟩
  · simp only [Option.bind_eq_bind, Option.bind_eq_some_iff, Option.some.injEq,
      Prod.exists] at h
    obtain ⟨dimension, mid, hd, element, mid', he, n, rest', hn, rfl⟩ := h
    obtain ⟨-, rfl⟩ := takeLe_eq_some.1 hn
    have hdlen := readStr_eq_some hd
    have helen := readStr_eq_some he
    refine ⟨by simp [Record.rank], ?_⟩
    simp only [payload, List.length_cons, List.length_append, length_leBytes,
      List.length_nil] at hdlen helen ⊢
    omega

/-! ## Frames -/

/-- **A well-formed frame**: of a payload that reads back as some record. -/
def Intact (f : List UInt8) : Prop :=
  ∃ p, f = frame p ∧ p.length < 2 ^ 32 ∧ (decode p).isSome

@[simp] theorem length_encode (r : Record) : (encode r).length = (payload r).length + 8 :=
  Framing.length_frame _

/-- The log's frames are those of records in general. -/
theorem frameAt_eq (rest : List UInt8) : frameAt rest = Framing.frameAt decode rest := rfl

/-- What is found at the front of some bytes is a frame that was written. -/
theorem frameAt_eq_some {n : Nat} : frameAt rest = some (r, n) ↔
    ∃ p y, rest = frame p ++ y ∧ p.length < 2 ^ 32 ∧ decode p = some r ∧ n = p.length + 8 := by
  rw [frameAt_eq, Framing.frameAt_eq_some]

theorem frameAt_frame (hp : p.length < 2 ^ 32) (rest : List UInt8) :
    frameAt (frame p ++ rest) = (decode p).map fun r => (r, p.length + 8) := by
  rcases h : decode p with _ | r
  · rw [Option.map_none, Option.eq_none_iff_forall_ne_some]
    rintro ⟨r, n⟩ hr
    obtain ⟨p', y, heq, hp', hdec, -⟩ := frameAt_eq_some.1 hr
    have hpp : p = p' := by
      rw [frame, frame, List.append_assoc, List.append_assoc, List.append_assoc,
        List.append_assoc] at heq
      obtain ⟨h4, heq⟩ := List.append_inj heq (by simp)
      have hlen := congrArg ofLe h4
      rw [ofLe_leBytes_of_lt hp, ofLe_leBytes_of_lt hp'] at hlen
      exact (List.append_inj heq hlen).1
    rw [← hpp, h] at hdec
    cases hdec
  · exact frameAt_eq_some.2 ⟨p, rest, rfl, hp, h, rfl⟩

/-- A frame cut short is no frame. -/
theorem frameAt_take {k : Nat} (hp : p.length < 2 ^ 32) (hk : k < (frame p).length) :
    frameAt ((frame p).take k) = none := by
  rw [frameAt_eq, Framing.frameAt_take hp hk]

theorem frameAt_isSome : (frameAt rest).isSome ↔ ∃ f y, rest = f ++ y ∧ Intact f := by
  rw [Option.isSome_iff_exists]
  constructor
  · rintro ⟨⟨r, n⟩, h⟩
    obtain ⟨p, y, rfl, hp, hr, -⟩ := frameAt_eq_some.1 h
    exact ⟨frame p, y, rfl, p, rfl, hp, by rw [hr]; rfl⟩
  · rintro ⟨f, y, rfl, p, rfl, hp, hr⟩
    obtain ⟨r, hr⟩ := Option.isSome_iff_exists.1 hr
    exact ⟨_, frameAt_eq_some.2 ⟨p, y, rfl, hp, hr, rfl⟩⟩

/-- **Some bytes hold a well-formed frame.** -/
def HoldsFrame (t : List UInt8) : Prop := ∃ x f y, t = x ++ f ++ y ∧ Intact f

theorem any_tails_frameAt {t : List UInt8} :
    (t.tails.any fun rest => (frameAt rest).isSome) = true ↔ HoldsFrame t := by
  simp only [List.any_eq_true, List.mem_tails, frameAt_isSome]
  constructor
  · rintro ⟨s, ⟨x, rfl⟩, f, y, rfl, hf⟩
    exact ⟨x, f, y, (List.append_assoc x f y).symm, hf⟩
  · rintro ⟨x, f, y, rfl, hf⟩
    exact ⟨f ++ y, ⟨x, (List.append_assoc x f y).symm⟩, f, y, rfl, hf⟩

end Wal

end Epiphany
