import Epiphany.Persist.Wal
/-!
# Framing — logs of records in frames

A log is a sequence of frames, of records of any kind. A frame that was
written is found again, and one that was cut short is not (`frameAt_frame`,
`frameAt_take`); so reading a log gives back the records before the first
place where no frame stands (`readFrames_append`).
-/

namespace Epiphany

namespace Framing

open Bytes Wal

variable {ρ : Type} (decode : List UInt8 → Option ρ)

/-- The frame at the front of some bytes, with its size: its length in
range, its CRC valid, its payload decodable. -/
def frameAt (rest : List UInt8) : Option (ρ × Nat) := do
  let (len, rest) ← takeLe 4 rest
  let (p, rest) ← takeBytes len rest
  let (crc, _) ← takeLe 4 rest
  if (crc32 p).toNat ≠ crc then none
  else
    let record ← decode p
    some (record, 4 + len + 4)

/-- The records framed at the front of some bytes, with the length of their
frames; the number of frames to read is bounded. -/
def readFrames : Nat → List UInt8 → List ρ × Nat
  | 0, _ => ([], 0)
  | n + 1, rest =>
    match frameAt decode rest with
    | none => ([], 0)
    | some (record, size) =>
      let (records, len) := readFrames n (rest.drop size)
      (record :: records, size + len)

variable {decode} {r : ρ} {p rest : List UInt8}

/-- What is found at the front of some bytes is a frame that was written. -/
theorem frameAt_eq_some {n : Nat} : frameAt decode rest = some (r, n) ↔
    ∃ p y, rest = frame p ++ y ∧ p.length < 2 ^ 32 ∧ decode p = some r ∧ n = p.length + 8 := by
  simp only [frameAt, Option.bind_eq_bind, Option.bind_eq_some_iff, Prod.exists, takeLe_eq_some,
    takeBytes_eq_some]
  constructor
  · rintro ⟨len, mid, ⟨hlen, rfl⟩, p, mid', ⟨rfl, rfl⟩, crc, y, ⟨hcrc, rfl⟩, h⟩
    split_ifs at h with hsum
    rw [ne_eq, Decidable.not_not] at hsum
    subst hsum
    simp only [Option.bind_eq_some_iff, Option.some.injEq, Prod.mk.injEq] at h
    obtain ⟨r', hr, rfl, rfl⟩ := h
    exact ⟨p, y, by simp only [frame, List.append_assoc], hlen, hr, by omega⟩
  · rintro ⟨p, y, rfl, hlen, hr, rfl⟩
    refine ⟨p.length, p ++ (leBytes 4 (crc32 p).toNat ++ y), ⟨hlen, ?_⟩, p, _, ⟨rfl, rfl⟩,
      (crc32 p).toNat, y, ⟨(crc32 p).toNat_lt, rfl⟩, ?_⟩
    · simp only [frame, List.append_assoc]
    · rw [if_neg (by simp), hr, Option.bind_some]
      congr 2
      omega

@[simp] theorem length_frame (p : List UInt8) : (frame p).length = p.length + 8 := by
  simp only [frame, List.length_append, length_leBytes]
  omega

/-- A frame that was written is found. -/
theorem frameAt_frame (hp : p.length < 2 ^ 32) (hr : decode p = some r) (rest : List UInt8) :
    frameAt decode (frame p ++ rest) = some (r, p.length + 8) :=
  frameAt_eq_some.2 ⟨p, rest, rfl, hp, hr, rfl⟩

/-- A frame cut short is no frame. -/
theorem frameAt_take {k : Nat} (hp : p.length < 2 ^ 32) (hk : k < (frame p).length) :
    frameAt decode ((frame p).take k) = none := by
  rw [Option.eq_none_iff_forall_ne_some]
  rintro ⟨r, n⟩ hr
  obtain ⟨p', y, heq, hp', -, -⟩ := frameAt_eq_some.1 hr
  have hlen := congrArg List.length heq
  rw [List.length_take, List.length_append, min_eq_left hk.le] at hlen
  -- the length field survived, so the payload found would be as long
  have hwhole : frame p = frame p' ++ y ++ (frame p).drop k := by
    rw [← heq, List.take_append_drop]
  rw [frame, frame, List.append_assoc, List.append_assoc, List.append_assoc, List.append_assoc]
    at hwhole
  have h4 := congrArg ofLe (List.append_inj hwhole (by simp)).1
  rw [ofLe_leBytes_of_lt hp, ofLe_leBytes_of_lt hp'] at h4
  rw [length_frame] at hlen hk
  omega

@[simp] theorem frameAt_nil : frameAt decode [] = none := rfl

/-- **Reading a log** gives back its records, up to where no frame stands. -/
theorem readFrames_append (payload : ρ → List UInt8) {records : List ρ} {tail : List UInt8}
    (hfit : ∀ r ∈ records, (payload r).length < 2 ^ 32 ∧ decode (payload r) = some r)
    (htail : frameAt decode tail = none) {n : Nat} (hn : records.length ≤ n) :
    readFrames decode n ((records.flatMap fun r => frame (payload r)) ++ tail) =
      (records, (records.flatMap fun r => frame (payload r)).length) := by
  induction records generalizing n with
  | nil =>
    cases n with
    | zero => rfl
    | succ n =>
      rw [readFrames, List.flatMap_nil, List.nil_append, htail]
      rfl
  | cons r records ih =>
    cases n with
    | zero => simp at hn
    | succ n =>
      obtain ⟨hlen, hdec⟩ := hfit r List.mem_cons_self
      have hrest := ih (fun q hq => hfit q (List.mem_cons_of_mem r hq)) (Nat.le_of_succ_le_succ hn)
      have hsize : (payload r).length + 8 = (frame (payload r)).length := (length_frame _).symm
      rw [readFrames, List.flatMap_cons, List.append_assoc, frameAt_frame hlen hdec]
      simp only [hsize, List.drop_left, hrest, List.length_append]

/-- Frames take more than a byte each. -/
theorem length_le_length_flatMap (payload : ρ → List UInt8) (records : List ρ) :
    records.length ≤ (records.flatMap fun r => frame (payload r)).length := by
  induction records with
  | nil => exact Nat.zero_le _
  | cons r records ih =>
    rw [List.flatMap_cons, List.length_append, List.length_cons, length_frame]
    omega

/-! ## Logs with a header -/

/-- Scan a log behind its header: its records and the length of the whole,
or nothing when the header is not there. -/
def readLog (header : List UInt8) (decode : List UInt8 → Option ρ) (bytes : List UInt8) :
    Option (List ρ × Nat) :=
  if bytes.length < header.length ∨ bytes.take header.length ≠ header then none
  else
    let (records, len) := readFrames decode bytes.length (bytes.drop header.length)
    some (records, header.length + len)

/-- The log of some records. -/
def writeLog (header : List UInt8) (payload : ρ → List UInt8) (records : List ρ) : List UInt8 :=
  header ++ records.flatMap fun r => frame (payload r)

theorem writeLog_concat (header : List UInt8) (payload : ρ → List UInt8) (records : List ρ) (r : ρ) :
    writeLog header payload (records ++ [r]) = writeLog header payload records ++ frame (payload r) := by
  simp [writeLog]

/-- **A log is read back**, up to where no frame stands. -/
theorem readLog_append (header : List UInt8) (payload : ρ → List UInt8) {records : List ρ}
    {tail : List UInt8}
    (hfit : ∀ r ∈ records, (payload r).length < 2 ^ 32 ∧ decode (payload r) = some r)
    (htail : frameAt decode tail = none) :
    readLog header decode (writeLog header payload records ++ tail) =
      some (records, (writeLog header payload records).length) := by
  have htake : (writeLog header payload records ++ tail).take header.length = header := by
    rw [writeLog, List.append_assoc, List.take_left]
  have hdrop : (writeLog header payload records ++ tail).drop header.length =
      (records.flatMap fun r => frame (payload r)) ++ tail := by
    rw [writeLog, List.append_assoc, List.drop_left]
  have hlong : ¬ (writeLog header payload records ++ tail).length < header.length := by
    rw [writeLog, List.length_append, List.length_append]
    omega
  have hbound : records.length ≤ (writeLog header payload records ++ tail).length := by
    have hle := length_le_length_flatMap payload records
    rw [writeLog, List.length_append, List.length_append]
    omega
  rw [readLog, if_neg (not_or.2 ⟨hlong, fun h => h htake⟩), hdrop,
    readFrames_append payload hfit htail hbound]
  simp only [writeLog, List.length_append]

/-- A header cut short is no header. -/
theorem readLog_of_length_lt {header bytes : List UInt8} (h : bytes.length < header.length) :
    readLog header decode bytes = none := by
  rw [readLog, if_pos (Or.inl h)]

end Framing

end Epiphany
