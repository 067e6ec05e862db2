import Epiphany.Common.Faults
import Epiphany.Persist.Frames
/-!
# The audit log — events, their file, and its retention

The audit log is a file of framed events, numbered in sequence, with an
index in memory. A side file keeps the next number. The log is compacted to
its newest events by writing them aside and renaming. Every operation on a
file can fail, and an open log goes on with the handle it has.
-/

namespace Epiphany

/-! ## Events -/

inductive AuditAction where
  | login
  | logout
  | accessDenied
  | userChange
  | groupChange
  | objectCreate
  | objectUpdate
  | objectDelete
  | flowExec
  | jobExec
  | sandboxCommit
  | sandboxDiscard
  | checkpoint
deriving DecidableEq

namespace AuditAction

def asByte : AuditAction → UInt8
  | login => 1
  | logout => 2
  | accessDenied => 3
  | userChange => 4
  | groupChange => 5
  | objectCreate => 6
  | objectUpdate => 7
  | objectDelete => 8
  | flowExec => 9
  | jobExec => 10
  | sandboxCommit => 11
  | sandboxDiscard => 12
  | checkpoint => 13

def fromByte (b : UInt8) : Option AuditAction :=
  if b = 1 then some login
  else if b = 2 then some logout
  else if b = 3 then some accessDenied
  else if b = 4 then some userChange
  else if b = 5 then some groupChange
  else if b = 6 then some objectCreate
  else if b = 7 then some objectUpdate
  else if b = 8 then some objectDelete
  else if b = 9 then some flowExec
  else if b = 10 then some jobExec
  else if b = 11 then some sandboxCommit
  else if b = 12 then some sandboxDiscard
  else if b = 13 then some checkpoint
  else none

@[simp] theorem fromByte_asByte (action : AuditAction) : fromByte action.asByte = some action := by
  cases action <;> rfl

end AuditAction

/-- What happened, before it has a number. -/
structure AuditEvent where
  timestampMillis : Nat
  actor : String
  action : AuditAction
  objectKind : String
  target : String
  allowed : Bool
deriving DecidableEq

structure AuditRecord where
  seq : Nat
  event : AuditEvent
deriving DecidableEq

namespace AuditRecord

open Bytes Wal

def payload (r : AuditRecord) : List UInt8 :=
  leBytes 8 r.seq ++ (leBytes 8 r.event.timestampMillis ++ (r.event.action.asByte ::
    (if r.event.allowed then 1 else 0) ::
      (writeStr r.event.actor ++ (writeStr r.event.objectKind ++ writeStr r.event.target))))

def encode (r : AuditRecord) : List UInt8 := frame r.payload

/-- Read a payload; what follows the last field is ignored. -/
def decode (p : List UInt8) : Option AuditRecord := do
  let (seq, rest) ← takeLe 8 p
  let (timestampMillis, rest) ← takeLe 8 rest
  let (action, rest) ← takeLe 1 rest
  let action ← AuditAction.fromByte (UInt8.ofNat action)
  let (allowed, rest) ← takeLe 1 rest
  let (actor, rest) ← readStr rest
  let (objectKind, rest) ← readStr rest
  let (target, _) ← readStr rest
  some ⟨seq, timestampMillis, actor, action, objectKind, target, allowed ≠ 0⟩

/-- **An event fits the widths of the format.** -/
structure Fits (r : AuditRecord) : Prop where
  seq : r.seq < 2 ^ 64
  timestamp : r.event.timestampMillis < 2 ^ 64
  length : r.payload.length < 2 ^ 32

instance (r : AuditRecord) : Decidable r.Fits :=
  decidable_of_iff (r.seq < 2 ^ 64 ∧ r.event.timestampMillis < 2 ^ 64 ∧ r.payload.length < 2 ^ 32)
    ⟨fun h => ⟨h.1, h.2.1, h.2.2⟩, fun h => ⟨h.seq, h.timestamp, h.length⟩⟩

/-- **An event that fits reads back.** -/
theorem decode_payload {r : AuditRecord} (h : r.Fits) : decode r.payload = some r := by
  obtain ⟨hseq, htime, hlen⟩ := h
  simp only [payload, List.length_append, List.length_cons, length_leBytes, length_writeStr]
    at hlen
  have ha : (utf8 r.event.actor).length < 2 ^ 32 := by omega
  have hk : (utf8 r.event.objectKind).length < 2 ^ 32 := by omega
  have ht : (utf8 r.event.target).length < 2 ^ 32 := by omega
  have hseq' : r.seq < 256 ^ 8 := hseq
  have htime' : r.event.timestampMillis < 256 ^ 8 := htime
  have hbyte : ∀ (b : UInt8) (rest : List UInt8), takeLe 1 (b :: rest) = some (b.toNat, rest) := by
    intro b rest
    have hb : b.toNat < 256 ^ 1 := b.toNat_lt
    have hspell : leBytes 1 b.toNat = [b] := by simp [leBytes]
    have := takeLe_leBytes hb rest
    rwa [hspell] at this
  have hlast := readStr_writeStr ht []
  rw [List.append_nil] at hlast
  rw [decode, payload, takeLe_leBytes hseq']
  simp only [Option.bind_eq_bind, Option.bind_some]
  rw [takeLe_leBytes htime']
  simp only [Option.bind_some, hbyte, UInt8.ofNat_toNat, AuditAction.fromByte_asByte,
    readStr_writeStr ha, readStr_writeStr hk, hlast]
  rcases r with ⟨seq, time, actor, action, kind, target, allowed⟩
  cases allowed <;> rfl

end AuditRecord

/-! ## Files -/

/-- How long events are retained. -/
structure RetentionPolicy where
  /-- Keep so many, once there are twice as many; zero for no bound. -/
  maxRecords : Nat
  /-- Drop what is older than the newest by more than this. -/
  maxAgeMillis : Option Nat

/-- An open log, in memory. -/
structure AuditLog where
  policy : RetentionPolicy
  records : List AuditRecord
  nextSeq : Nat

/-- The files of the audit log, and the log that is open on them. -/
structure Audit where
  /-- The file at the path of the log. -/
  file : Option (List UInt8)
  /-- The compacted log that is being written. -/
  compact : Option (List UInt8)
  /-- The side file with the next number. -/
  seqFile : Option (List UInt8)
  /-- Whether the handle of the open log is on the file at the path. -/
  attached : Bool
  /-- Where the handle stands. -/
  cursor : Nat
  log : Option AuditLog
  /-- The events whose append succeeded. -/
  acked : List AuditRecord
  /-- The events that have been in memory. -/
  seen : List AuditRecord
  /-- The events that a compaction dropped, with what it retained. -/
  dropped : List (AuditRecord × List AuditRecord)

inductive AuditError where
  /-- A file operation failed. -/
  | io
  /-- No log is open. -/
  | closed
deriving DecidableEq

abbrev AuditM (α : Type) := Fallible AuditError Audit α

namespace Audit

open Bytes Fallible Files

/-- The magic and the version. -/
def header : List UInt8 := [0x45, 0x50, 0x49, 0x41, 0x55, 0x44] ++ leBytes 2 1

def headerLen : Nat := 8

/-- Scan a file: its events and the length of their framing, or nothing when
the header is not one. -/
def replay (bytes : List UInt8) : Option (List AuditRecord × Nat) :=
  if bytes.length < headerLen ∨ bytes.take headerLen ≠ header then none
  else
    let (records, len) := Framing.readFrames AuditRecord.decode bytes.length (bytes.drop headerLen)
    some (records, headerLen + len)

/-- Bytes written through the handle; they are seen at the path when the
handle is on the file there. -/
def writeFile (bytes : List UInt8) (s : Audit) : Audit :=
  { s with
    file := if s.attached then s.file.map fun content => overwrite content s.cursor bytes
      else s.file
    cursor := s.cursor + bytes.length }

/-- Write all bytes through the handle, or some. -/
def writeBytes (bytes : List UInt8) : Attempt Audit :=
  ⟨writeFile bytes, fun reached => writeFile (tornBytes bytes reached)⟩

/-- Flush a file, restrict its access, or make its directory. -/
def touch : Attempt Audit := op id

def setLen (len : Nat) (s : Audit) : Audit :=
  { s with file := s.file.map fun content => resize content len }

def seekTo (pos : Nat) (s : Audit) : Audit := { s with cursor := pos }

/-! ### The side file -/

def setSeqFile (bytes : List UInt8) (s : Audit) : Audit := { s with seqFile := some bytes }

/-- Write the next number to the side file, as well as it goes. -/
def persistHighWater (next : Nat) : AuditM Unit :=
  ignore (attempts .io
    [op (setSeqFile []),
      ⟨setSeqFile (leBytes 8 next), fun reached => setSeqFile (tornBytes (leBytes 8 next) reached)⟩,
      touch, touch])

/-- The number in a side file of the right length. -/
def highWater (s : Audit) : Option Nat :=
  match s.seqFile with
  | some bytes => if bytes.length = 8 then some (ofLe bytes) else none
  | none => none

/-- The next number as the side file has it, when it can be read. -/
def readHighWater : AuditM (Option Nat) := do
  let readable ← probe (attempt .io touch)
  let s ← read
  pure (if readable then s.highWater else none)

/-! ### Retention -/

def setCompact (f : List UInt8 → List UInt8) (s : Audit) : Audit :=
  { s with compact := some (f (s.compact.getD [])) }

/-- Write more bytes to the compacted log, or some of them. -/
def writeCompact (bytes : List UInt8) : Attempt Audit :=
  ⟨setCompact (· ++ bytes), fun reached => setCompact (· ++ tornBytes bytes reached)⟩

/-- The compacted log takes the place of the log; the handle stays on the
file that was there. -/
def renameCompact (kept : List AuditRecord) (s : Audit) : Audit :=
  { s with
    file := s.compact
    compact := none
    attached := false
    dropped := s.dropped ++
      ((s.log.map AuditLog.records).getD []).filterMap fun r =>
        if r ∈ kept then none else some (r, kept) }

/-- A new handle, at the end of the file. -/
def reopen (s : Audit) : Audit :=
  { s with attached := true, cursor := (s.file.getD []).length }

/-- Write the events aside, rename, and open the new file. -/
def rewriteFile (records : List AuditRecord) : List (Attempt Audit) :=
  (op (setCompact fun _ => []) :: writeCompact header ::
      (records.map fun r => writeCompact r.encode) ++ [touch, touch]) ++
    [op (renameCompact records), touch, op reopen]

end Audit

namespace AuditLog

variable (l : AuditLog)

/-- Events before this time are too old: too long before the newest. -/
def ageCut : Option Nat := do
  let age ← l.policy.maxAgeMillis
  let newest ← l.records.getLast?
  some (newest.event.timestampMillis - age)

/-- There are twice as many events as are kept. -/
def overCount : Bool :=
  decide (l.policy.maxRecords ≠ 0) &&
    decide (min (l.policy.maxRecords * 2) (2 ^ 64 - 1) ≤ l.records.length)

/-- The first event is too old. -/
def overAge : Bool :=
  match l.ageCut, l.records.head? with
  | some cut, some oldest => decide (oldest.event.timestampMillis < cut)
  | _, _ => false

/-- Where the events start that are kept by number. -/
def start : Nat :=
  if l.policy.maxRecords = 0 then 0 else l.records.length - l.policy.maxRecords

/-- The events kept by number and by age. -/
def newest : List AuditRecord :=
  match l.ageCut with
  | some cut => (l.records.drop l.start).filter fun r => cut ≤ r.event.timestampMillis
  | none => l.records.drop l.start

/-- What a compaction retains, when the log has outgrown its bound. -/
def retained : Option (List AuditRecord) :=
  if l.overCount = false ∧ l.overAge = false then none else some l.newest

end AuditLog

namespace Audit

open Bytes Fallible Files

/-- Compact the log when it has outgrown its bound. -/
def enforceRetention : AuditM Unit := do
  let s ← read
  match s.log with
  | none => throw .closed
  | some l =>
    match l.retained with
    | none => pure ()
    | some records => do
      attempts .io (rewriteFile records)
      update fun s => { s with log := some { l with records := records } }

/-! ### Appending -/

/-- Append an event under the next number, and flush it. -/
def append (event : AuditEvent) : AuditM Nat := do
  let s ← read
  match s.log with
  | none => throw .closed
  | some l => do
    let record : AuditRecord := ⟨l.nextSeq, event⟩
    attempts .io [writeBytes record.encode, touch]
    update fun s => { s with
      log := some { l with records := l.records ++ [record], nextSeq := l.nextSeq + 1 }
      seen := s.seen ++ [record] }
    persistHighWater (l.nextSeq + 1)
    enforceRetention
    update fun s => { s with acked := s.acked ++ [record] }
    pure record.seq

/-! ### Opening -/

/-- The number after the events and after what was promised. -/
def nextSeq (records : List AuditRecord) (highWater : Option Nat) : Nat :=
  max (((records.map AuditRecord.seq).max?.map (· + 1)).getD 0) (highWater.getD 0)

/-- Take a damaged file aside. -/
def preserveCorrupt : List (Attempt Audit) := [touch, op fun s => { s with file := none }]

/-- Create the file if there is none, and open it. -/
def openFile (s : Audit) : Audit :=
  { s with file := some (s.file.getD []), attached := true, cursor := 0 }

/-- Cut a torn tail off, or start with a clean header. -/
def repair : Option (List AuditRecord × Nat) → List (Attempt Audit)
  | some (_, goodLen) => [op (setLen goodLen), op (seekTo goodLen)]
  | none => [op (setLen 0), op (seekTo 0), writeBytes header, touch]

/-- Open the log on what its file was found to hold. -/
def openOn (policy : RetentionPolicy) (raw : Option (List UInt8)) : AuditM Unit := do
  let existing := raw.bind replay
  attempts .io (if existing = none ∧ raw.getD [] ≠ [] then preserveCorrupt else [])
  attempts .io [op openFile, touch]
  let highWater ← readHighWater
  let records := (existing.map Prod.fst).getD []
  attempts .io (repair existing)
  persistHighWater (nextSeq records highWater)
  update fun s => { s with
    log := some ⟨policy, records, nextSeq records highWater⟩
    seen := s.seen ++ records }
  enforceRetention

/-- Open the log. A file whose existence cannot be checked is taken for none. -/
def openWithPolicy (policy : RetentionPolicy) : AuditM Unit := do
  attempt .io touch
  let found ← probe (attempt .io touch)
  let s ← read
  if found = true ∧ s.file.isSome then do
    attempt .io touch
    openOn policy s.file
  else openOn policy none

/-! ## Runs -/

end Audit

/-- A use of the audit log; each is given the faults it meets. -/
inductive AuditStep where
  | append (event : AuditEvent) (plan : List (Option Nat))
  /-- The process stops. -/
  | crash
  /-- Open the log anew. -/
  | reopen (policy : RetentionPolicy) (plan : List (Option Nat))

namespace Audit

/-- A log that failed to open is not there. -/
def orClosed (m : AuditM Unit) (w : Faulty Audit) : Audit :=
  match m w with
  | .ok _ w' => w'.state
  | .error _ w' => { w'.state with log := none }

def step (s : Audit) : AuditStep → Except Empty Audit
  | .append event plan => .ok (finalState (append event) ⟨s, plan⟩).state
  | .crash => .ok { s with log := none }
  | .reopen policy plan => .ok (orClosed (openWithPolicy policy) ⟨{ s with log := none }, plan⟩)

/-- No files, and no log open. -/
def fresh : Audit := ⟨none, none, none, false, 0, none, [], [], []⟩

/-- What a reopen recovers from the file. -/
def recovered (s : Audit) : List AuditRecord := ((s.file.bind replay).map Prod.fst).getD []

end Audit

end Epiphany
