import Epiphany.Common.Bytes
import Epiphany.Core.Value
/-!
# The write-ahead log — frames and replay

A record is framed as its payload's length, the payload and the payload's
CRC32, little-endian. Replay reads frames from the header on, buffers the
records of an open batch until its end marker, and stops at the first frame
it cannot read; a well-formed frame anywhere after that one marks the log as
corrupt rather than torn.
-/

namespace Epiphany

/-- A signed 64-bit word as a cell value. -/
def Fixed.ofWord (w : BitVec 64) : Fixed where
  toScaled := w.toInt
  inRange := by
    have h1 := BitVec.le_toInt w
    have h2 := BitVec.toInt_lt (x := w)
    simp only [i64Min, i64Max]
    norm_num at h1 h2
    omega

/-- The two's complement word of a cell value. -/
def Fixed.toWord (v : Fixed) : BitVec 64 := BitVec.ofInt 64 v.toScaled

@[simp] theorem Fixed.ofWord_toWord (v : Fixed) : Fixed.ofWord v.toWord = v := by
  have h := v.inRange
  simp only [i64Min, i64Max] at h
  refine Fixed.ext ?_
  change (BitVec.ofInt 64 v.toScaled).toInt = v.toScaled
  rw [BitVec.toInt_ofInt]
  exact Int.bmod_eq_of_le (by norm_num; omega) (by norm_num; omega)

namespace Wal

open Bytes

/-! ## Records -/

inductive Record where
  | setLeaf (coord : List UInt32) (value : Fixed)
  | setString (coord : List UInt32) (value : String)
  | batchBegin (count : UInt32)
  | batchEnd
  /-- Pins are addressed by name, so they replay at any element order. -/
  | setPin (dimension element : String) (pinned : Bool)
deriving DecidableEq

inductive WalError where
  | badHeader
deriving DecidableEq

def headerLen : Nat := 8

/-- The magic and the version. -/
def header : List UInt8 := [0x45, 0x50, 0x49, 0x57, 0x41, 0x4C] ++ leBytes 2 1

def opSetLeaf : UInt8 := 1
def opSetString : UInt8 := 2
def opBatchBegin : UInt8 := 3
def opBatchEnd : UInt8 := 4
def opSetPin : UInt8 := 5

/-! ## The checksum -/

def crc32Bit (crc : UInt32) : UInt32 :=
  if crc &&& 1 = 1 then (crc >>> 1) ^^^ 0xEDB88320 else crc >>> 1

/-- One entry of the CRC table: eight bit steps from the index. -/
def crc32Entry (i : UInt32) : UInt32 :=
  crc32Bit (crc32Bit (crc32Bit (crc32Bit (crc32Bit (crc32Bit (crc32Bit (crc32Bit i)))))))

/-- One byte of the checksum. -/
def crc32Byte (crc : UInt32) (b : UInt8) : UInt32 :=
  (crc >>> 8) ^^^ crc32Entry ((crc ^^^ b.toUInt32) &&& 0xFF)

def crc32 (bytes : List UInt8) : UInt32 := bytes.foldl crc32Byte 0xFFFFFFFF ^^^ 0xFFFFFFFF

/-! ## Encoding -/

/-- A coordinate: its rank in two bytes, then its indices. -/
def writeCoord (coord : List UInt32) : List UInt8 :=
  leBytes 2 coord.length ++ coord.flatMap fun i => leBytes 4 i.toNat

/-- A string: its length in four bytes, then its bytes. -/
def writeStr (s : String) : List UInt8 := leBytes 4 (utf8 s).length ++ utf8 s

def payload : Record → List UInt8
  | .setLeaf coord value => opSetLeaf :: (writeCoord coord ++ leBytes 8 value.toWord.toNat)
  | .setString coord value => opSetString :: (writeCoord coord ++ writeStr value)
  | .batchBegin count => opBatchBegin :: leBytes 4 count.toNat
  | .batchEnd => [opBatchEnd]
  | .setPin dimension element pinned =>
    opSetPin :: (writeStr dimension ++ writeStr element ++ [if pinned then 1 else 0])

/-- A payload in its frame. -/
def frame (p : List UInt8) : List UInt8 := leBytes 4 p.length ++ p ++ leBytes 4 (crc32 p).toNat

def encode (record : Record) : List UInt8 := frame (payload record)

/-! ## Decoding -/

def readIndices : Nat → List UInt8 → Option (List UInt32 × List UInt8)
  | 0, rest => some ([], rest)
  | n + 1, rest => do
    let (i, rest) ← takeLe 4 rest
    let (indices, rest) ← readIndices n rest
    some (UInt32.ofNat i :: indices, rest)

def readCoord (rest : List UInt8) : Option (List UInt32 × List UInt8) := do
  let (rank, rest) ← takeLe 2 rest
  readIndices rank rest

def readStr (rest : List UInt8) : Option (String × List UInt8) := do
  let (len, rest) ← takeLe 4 rest
  let (bytes, rest) ← takeBytes len rest
  let s ← fromUtf8 bytes
  some (s, rest)

/-- Read a payload; what follows the last field is ignored. -/
def decode : List UInt8 → Option Record
  | [] => none
  | op :: rest =>
    if op = opSetLeaf then do
      let (coord, rest) ← readCoord rest
      let (word, _) ← takeLe 8 rest
      some (.setLeaf coord (Fixed.ofWord (BitVec.ofNat 64 word)))
    else if op = opSetString then do
      let (coord, rest) ← readCoord rest
      let (value, _) ← readStr rest
      some (.setString coord value)
    else if op = opBatchBegin then do
      let (count, _) ← takeLe 4 rest
      some (.batchBegin (UInt32.ofNat count))
    else if op = opBatchEnd then some .batchEnd
    else if op = opSetPin then do
      let (dimension, rest) ← readStr rest
      let (element, rest) ← readStr rest
      let (pinned, _) ← takeLe 1 rest
      some (.setPin dimension element (pinned ≠ 0))
    else none

/-! ## Replay -/

/-- The well-formed frame at the front of some bytes, with its size: its
length in range, its CRC valid, its payload decodable. -/
def frameAt (rest : List UInt8) : Option (Record × Nat) := do
  let (len, rest) ← takeLe 4 rest
  let (p, rest) ← takeBytes len rest
  let (crc, _) ← takeLe 4 rest
  if (crc32 p).toNat ≠ crc then none
  else
    let record ← decode p
    some (record, 4 + len + 4)

/-- Where a scan stands. `good` is the end of the last committed frame, and
`batch` holds the records of an open batch. -/
structure Scan where
  records : List Record
  good : Nat
  batch : Option (List Record)
  pos : Nat
  breakPos : Option Nat
deriving DecidableEq

/-- What a readable frame ending at `frameEnd` does; `none` is an end marker
without a begin. -/
def Scan.accept (s : Scan) (record : Record) (frameEnd : Nat) : Option Scan :=
  match record with
  | .batchBegin _ => some { s with batch := some [], pos := frameEnd }
  | .batchEnd =>
    match s.batch with
    | some buffered =>
      some { s with
        records := s.records ++ buffered, good := frameEnd, batch := none, pos := frameEnd }
    | none => none
  | cell =>
    match s.batch with
    | some buffered => some { s with batch := some (buffered ++ [cell]), pos := frameEnd }
    | none => some { s with records := s.records ++ [cell], good := frameEnd, pos := frameEnd }

def replayLoop (bytes : List UInt8) : Nat → Scan → Scan
  | 0, s => s
  | n + 1, s =>
    if bytes.length < s.pos + 4 then s
    else
      match frameAt (bytes.drop s.pos) with
      | none => { s with breakPos := some s.pos }
      | some (record, size) =>
        match s.accept record (s.pos + size) with
        | none => { s with breakPos := some s.pos }
        | some next => replayLoop bytes n next

/-- Whether a well-formed frame starts anywhere past a position. -/
def hasIntactFrameAfter (bytes : List UInt8) (breakPos : Nat) : Bool :=
  (bytes.drop (breakPos + 1)).tails.any fun rest => (frameAt rest).isSome

/-- What replay recovers: the committed records, the length of the framing
they end at, and whether a frame stands intact past the break. -/
structure Replay where
  records : List Record
  goodLen : Nat
  corruptWithValidTail : Bool
deriving DecidableEq

def replay (bytes : List UInt8) : Except WalError Replay :=
  if bytes.length < headerLen ∨ bytes.take headerLen ≠ header then .error .badHeader
  else
    let s := replayLoop bytes bytes.length ⟨[], headerLen, none, headerLen, none⟩
    .ok
      { records := s.records
        goodLen := s.good
        corruptWithValidTail :=
          match s.breakPos with
          | some bp => hasIntactFrameAfter bytes bp
          | none => false }

end Wal

end Epiphany
