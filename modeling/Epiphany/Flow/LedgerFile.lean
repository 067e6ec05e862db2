import Epiphany.Common.Faults
import Epiphany.Common.Runs
import Epiphany.Flow.Retention
import Epiphany.Persist.Frames
/-!
# The ledger's file — append, compact, open

The ledger keeps its records in a file of frames behind a header. An append
writes one frame and flushes it; a compaction writes the retained records
aside and renames; opening cuts a torn tail off, or starts anew where there
is no header. Any of these operations may fail, and a write that fails may
leave some of its bytes.
-/

namespace Epiphany

/-! ## The format -/

namespace RunState

def asByte : RunState → UInt8
  | .queued => 1
  | .running => 2
  | .succeeded => 3
  | .failed => 4
  | .interrupted => 5
  | .skipped => 6

def fromByte (b : UInt8) : Option RunState :=
  if b = 1 then some .queued
  else if b = 2 then some .running
  else if b = 3 then some .succeeded
  else if b = 4 then some .failed
  else if b = 5 then some .interrupted
  else if b = 6 then some .skipped
  else none

@[simp] theorem fromByte_asByte (state : RunState) : fromByte state.asByte = some state := by
  cases state <;> rfl

end RunState

namespace RunRecord

open Bytes Wal

def payload (r : RunRecord) : List UInt8 :=
  leBytes 8 r.fireMillis ++ (r.state.asByte :: (if r.isJob then 1 else 0) ::
    (leBytes 8 r.rowsRead ++ (leBytes 8 r.cellsWritten ++ (leBytes 8 r.elementsAdded ++
      (writeStr r.id ++ (writeStr r.cube ++ (writeStr r.target ++ (writeStr r.error ++
        writeStr r.principal))))))))

def encode (r : RunRecord) : List UInt8 := frame r.payload

/-- Read a payload; what follows the last field is ignored. -/
def decode (p : List UInt8) : Option RunRecord := do
  let (fireMillis, rest) ← takeLe 8 p
  let (state, rest) ← takeLe 1 rest
  let state ← RunState.fromByte (UInt8.ofNat state)
  let (isJob, rest) ← takeLe 1 rest
  let (rowsRead, rest) ← takeLe 8 rest
  let (cellsWritten, rest) ← takeLe 8 rest
  let (elementsAdded, rest) ← takeLe 8 rest
  let (id, rest) ← readStr rest
  let (cube, rest) ← readStr rest
  let (target, rest) ← readStr rest
  let (error, rest) ← readStr rest
  let (principal, _) ← readStr rest
  some ⟨id, cube, target, isJob ≠ 0, fireMillis, state, rowsRead, cellsWritten, elementsAdded, error,
    principal⟩

/-- **A record fits the widths of the format**, and so does what a restart
makes of it. -/
structure Fits (r : RunRecord) : Prop where
  fireMillis : r.fireMillis < 2 ^ 64
  rowsRead : r.rowsRead < 2 ^ 64
  cellsWritten : r.cellsWritten < 2 ^ 64
  elementsAdded : r.elementsAdded < 2 ^ 64
  length : r.payload.length < 2 ^ 32
  interrupted : r.interrupted.payload.length < 2 ^ 32

instance (r : RunRecord) : Decidable r.Fits :=
  decidable_of_iff (r.fireMillis < 2 ^ 64 ∧ r.rowsRead < 2 ^ 64 ∧ r.cellsWritten < 2 ^ 64 ∧
      r.elementsAdded < 2 ^ 64 ∧ r.payload.length < 2 ^ 32 ∧ r.interrupted.payload.length < 2 ^ 32)
    ⟨fun ⟨h₁, h₂, h₃, h₄, h₅, h₆⟩ => ⟨h₁, h₂, h₃, h₄, h₅, h₆⟩,
      fun ⟨h₁, h₂, h₃, h₄, h₅, h₆⟩ => ⟨h₁, h₂, h₃, h₄, h₅, h₆⟩⟩

theorem Fits.of_interrupted {r : RunRecord} (h : r.Fits) : r.interrupted.Fits :=
  ⟨h.fireMillis, h.rowsRead, h.cellsWritten, h.elementsAdded, h.interrupted, h.interrupted⟩

theorem bind_of_some {α β : Type} {x : Option α} {a : α} {f : α → Option β} (h : x = some a) :
    (x >>= f) = f a := by
  rw [h]
  rfl

/-- **A record that fits reads back.** -/
theorem decode_payload {r : RunRecord} (h : r.Fits) : decode r.payload = some r := by
  obtain ⟨hfire, hrows, hcells, helements, hlen, -⟩ := h
  simp only [payload, List.length_append, List.length_cons, length_leBytes, length_writeStr]
    at hlen
  have hid : (utf8 r.id).length < 2 ^ 32 := by omega
  have hcube : (utf8 r.cube).length < 2 ^ 32 := by omega
  have htarget : (utf8 r.target).length < 2 ^ 32 := by omega
  have herror : (utf8 r.error).length < 2 ^ 32 := by omega
  have hprincipal : (utf8 r.principal).length < 2 ^ 32 := by omega
  have hfire' : r.fireMillis < 256 ^ 8 := hfire
  have hrows' : r.rowsRead < 256 ^ 8 := hrows
  have hcells' : r.cellsWritten < 256 ^ 8 := hcells
  have helements' : r.elementsAdded < 256 ^ 8 := helements
  have hbyte : ∀ (b : UInt8) (rest : List UInt8), takeLe 1 (b :: rest) = some (b.toNat, rest) := by
    intro b rest
    have hb : b.toNat < 256 ^ 1 := b.toNat_lt
    have hspell : leBytes 1 b.toNat = [b] := by simp [leBytes]
    have := takeLe_leBytes hb rest
    rwa [hspell] at this
  have hstate : RunState.fromByte (UInt8.ofNat r.state.asByte.toNat) = some r.state := by
    rw [UInt8.ofNat_toNat, RunState.fromByte_asByte]
  have hlast := readStr_writeStr hprincipal []
  rw [List.append_nil] at hlast
  -- one field after the other
  unfold decode payload
  refine (bind_of_some (takeLe_leBytes hfire' _)).trans ?_
  refine (bind_of_some (hbyte _ _)).trans ?_
  refine (bind_of_some hstate).trans ?_
  refine (bind_of_some (hbyte _ _)).trans ?_
  refine (bind_of_some (takeLe_leBytes hrows' _)).trans ?_
  refine (bind_of_some (takeLe_leBytes hcells' _)).trans ?_
  refine (bind_of_some (takeLe_leBytes helements' _)).trans ?_
  refine (bind_of_some (readStr_writeStr hid _)).trans ?_
  refine (bind_of_some (readStr_writeStr hcube _)).trans ?_
  refine (bind_of_some (readStr_writeStr htarget _)).trans ?_
  refine (bind_of_some (readStr_writeStr herror _)).trans ?_
  refine (bind_of_some hlast).trans ?_
  rcases r with ⟨id, cube, target, isJob, fire, state, rows, cells, elements, error, principal⟩
  cases isJob <;> rfl

end RunRecord

/-! ## The files -/

/-- The files of the ledger, and the ledger that is open on them. -/
structure LedgerFiles where
  /-- The file at the path of the ledger. -/
  file : Option (List UInt8)
  /-- The compacted ledger that is being written. -/
  compact : Option (List UInt8)
  /-- Whether the handle of the open ledger is on the file at the path. -/
  attached : Bool
  /-- Where the handle stands. -/
  cursor : Nat
  ledger : Option RunLedger
  /-- The records whose append succeeded. -/
  acked : List RunRecord
  /-- The firings that were listed as due, each with the records that were
  acknowledged before. -/
  listed : List (Firing × List RunRecord)

inductive LedgerError where
  /-- A file operation failed. -/
  | io
  /-- No ledger is open. -/
  | closed
deriving DecidableEq

abbrev LedgerM (α : Type) := Fallible LedgerError LedgerFiles α

namespace LedgerFiles

open Bytes Fallible Files

/-- The magic and the version. -/
def header : List UInt8 := [0x45, 0x50, 0x49, 0x52, 0x55, 0x4E] ++ leBytes 2 1

/-- Scan a file: its records and the length of their framing, or nothing
when the header is not one. -/
def replay (bytes : List UInt8) : Option (List RunRecord × Nat) :=
  Framing.readLog header RunRecord.decode bytes

/-- Bytes written through the handle; they are seen at the path when the
handle is on the file there. -/
def writeFile (bytes : List UInt8) (s : LedgerFiles) : LedgerFiles :=
  { s with
    file := if s.attached then s.file.map fun content => overwrite content s.cursor bytes
      else s.file
    cursor := s.cursor + bytes.length }

/-- Write all bytes through the handle, or some. -/
def writeBytes (bytes : List UInt8) : Attempt LedgerFiles :=
  ⟨writeFile bytes, fun reached => writeFile (tornBytes bytes reached)⟩

/-- Flush a file, restrict its access, or make its directory. -/
def touch : Attempt LedgerFiles := op id

def setLen (len : Nat) (s : LedgerFiles) : LedgerFiles :=
  { s with file := s.file.map fun content => resize content len }

def seekTo (pos : Nat) (s : LedgerFiles) : LedgerFiles := { s with cursor := pos }

/-! ### Retention -/

def setCompact (f : List UInt8 → List UInt8) (s : LedgerFiles) : LedgerFiles :=
  { s with compact := some (f (s.compact.getD [])) }

/-- Write more bytes to the compacted ledger, or some of them. -/
def writeCompact (bytes : List UInt8) : Attempt LedgerFiles :=
  ⟨setCompact (· ++ bytes), fun reached => setCompact (· ++ tornBytes bytes reached)⟩

/-- The compacted ledger takes the place of the ledger; the handle stays on
the file that was there. -/
def renameCompact (s : LedgerFiles) : LedgerFiles :=
  { s with file := s.compact, compact := none, attached := false }

/-- A new handle, at the end of the file. -/
def reopen (s : LedgerFiles) : LedgerFiles :=
  { s with attached := true, cursor := (s.file.getD []).length }

/-- Write the records aside, rename, and open the new file. -/
def rewriteFile (records : List RunRecord) : List (Attempt LedgerFiles) :=
  (op (setCompact fun _ => []) :: writeCompact header ::
      (records.map fun r => writeCompact r.encode) ++ [touch, touch]) ++
    [op renameCompact, touch, op reopen]

def setLedger (l : RunLedger) (s : LedgerFiles) : LedgerFiles := { s with ledger := some l }

/-- Compact the ledger when it has outgrown its bound. -/
def enforceRetention : LedgerM Unit := do
  let s ← read
  match s.ledger with
  | none => throw .closed
  | some l =>
    if l.maxRuns = 0 then pure ()
    else if l.outgrown = false then pure ()
    else if l.retained.length = l.records.length then pure ()
    else do
      attempts .io (rewriteFile l.retained)
      update (setLedger (l.retained.foldl RunLedger.index (RunLedger.empty l.maxRuns)))

/-! ### Appending -/

def acknowledge (r : RunRecord) (s : LedgerFiles) : LedgerFiles :=
  { s with acked := s.acked ++ [r] }

/-- Append a record and flush it. -/
def append (r : RunRecord) : LedgerM Unit := do
  let s ← read
  match s.ledger with
  | none => throw .closed
  | some l => do
    attempts .io [writeBytes r.encode, touch]
    update (setLedger (l.index r))
    enforceRetention
    update (acknowledge r)

/-! ### Opening -/

/-- Record of the runs that were unfinished that they were interrupted. -/
def recoverInterrupted : LedgerM Unit := do
  let s ← read
  match s.ledger with
  | none => throw .closed
  | some l => l.interruptedRuns.forM append

/-- Create the file if there is none, and open it. -/
def openFile (s : LedgerFiles) : LedgerFiles :=
  { s with file := some (s.file.getD []), attached := true, cursor := 0 }

/-- Cut a torn tail off, or start with a clean header. -/
def repair : Option (List RunRecord × Nat) → List (Attempt LedgerFiles)
  | some (_, goodLen) => [op (setLen goodLen), op (seekTo goodLen)]
  | none => [op (setLen 0), op (seekTo 0), writeBytes header, touch]

/-- Open the ledger on what its file was found to hold. -/
def openOn (maxRuns : Nat) (raw : Option (List UInt8)) : LedgerM Unit := do
  let existing := raw.bind replay
  attempts .io [op openFile, touch]
  attempts .io (repair existing)
  let records := (existing.map Prod.fst).getD []
  update (setLedger (records.foldl RunLedger.index (RunLedger.empty maxRuns)))
  recoverInterrupted
  enforceRetention

/-- Open the ledger. A file whose existence cannot be checked is taken for
none. -/
def openWithPolicy (maxRuns : Nat) : LedgerM Unit := do
  attempt .io touch
  let found ← probe (attempt .io touch)
  let s ← read
  if found = true ∧ s.file.isSome then do
    attempt .io touch
    openOn maxRuns s.file
  else openOn maxRuns none

end LedgerFiles

/-! ## Runs -/

/-- A use of the ledger; each is given the faults it meets. -/
inductive LedgerStep where
  | append (record : RunRecord) (plan : List (Option Nat))
  /-- The scheduler asks what is due. -/
  | due (jobs : List (String × Job)) (now : Nat)
  /-- The process stops. -/
  | crash
  /-- Open the ledger anew. -/
  | reopen (maxRuns : Nat) (plan : List (Option Nat))

namespace LedgerFiles

/-- A ledger that failed to open is not there. -/
def orClosed (m : LedgerM Unit) (w : Faulty LedgerFiles) : LedgerFiles :=
  match m w with
  | .ok _ w' => w'.state
  | .error _ w' => { w'.state with ledger := none }

def step (s : LedgerFiles) : LedgerStep → Except Empty LedgerFiles
  | .append record plan => .ok (finalState (append record) ⟨s, plan⟩).state
  | .due jobs now =>
    match s.ledger with
    | some l =>
      .ok { s with listed := s.listed ++ (dueFirings jobs l now).map fun f => (f, s.acked) }
    | none => .ok s
  | .crash => .ok { s with ledger := none }
  | .reopen maxRuns plan => .ok (orClosed (openWithPolicy maxRuns) ⟨{ s with ledger := none }, plan⟩)

/-- No files, and no ledger open. -/
def fresh : LedgerFiles := ⟨none, none, false, 0, none, [], []⟩

/-- What a reopen recovers from the file. -/
def recovered (s : LedgerFiles) : List RunRecord := ((s.file.bind replay).map Prod.fst).getD []

end LedgerFiles

end Epiphany
