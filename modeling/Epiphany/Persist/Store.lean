import Epiphany.Common.Faults
import Epiphany.Core.ModelEdits
import Epiphany.Persist.Recovery
/-!
# The store — a model in memory, its snapshot, and its log

A store keeps its model in memory and on disk: a snapshot of the whole
model, and a log of the writes since. A definition rewrites the snapshot and
clears the log, and only then takes the edited model into memory. The
operations on files can fail; the text of a snapshot is a parameter.
-/

namespace Epiphany

inductive PersistError where
  /-- A file operation failed. -/
  | io
  | model (error : ModelError)
  /-- A snapshot could not be read or written. -/
  | load (message : String)
  | save (message : String)
  | corrupt
  | batchRejected (index : Nat) (source : ModelError)
  | query (error : QueryError)
  /-- The log is not to be trusted any more. -/
  | poisoned

/-- The text of a snapshot, as bytes. -/
structure SnapshotFormat where
  toModelText : Model → Except PersistError (List UInt8)
  loadText : List UInt8 → Except PersistError Model

/-- The directory of a store. -/
structure Disk where
  snapshot : List UInt8
  /-- The snapshot that is being written. -/
  tmp : Option (List UInt8)
  wal : List UInt8

structure Store where
  disk : Disk
  model : Model
  /-- Where the handle of the log stands. -/
  cursor : Nat
  syncOnWrite : Bool
  /-- The known-good length of the log. -/
  goodLen : Nat
  poisoned : Bool
  walCheckpointThreshold : Nat

/-- A program on a store. -/
abbrev StoreM (α : Type) := Fallible PersistError Store α

/-! ## Recovery -/

namespace Cube

/-- Apply a record of the log. -/
def applyRecord (c : Cube) : Wal.Record → Except ModelError Cube
  | .setLeaf coord value => c.setLeaf (coord.map UInt32.toNat) value
  | .setString coord value => c.setString (coord.map UInt32.toNat) value
  | .setPin dimension element true => c.pinElementToTop dimension element
  | .setPin dimension element false => c.unpinElementFromTop dimension element
  -- replay consumes the markers of batches
  | .batchBegin _ | .batchEnd => .ok c

end Cube

namespace Disk

/-- The model of `Store::open`: the snapshot, and the log replayed on it. A
log shorter than its header is as none. -/
def recover (format : SnapshotFormat) (d : Disk) : Except PersistError Model := do
  let model ← format.loadText d.snapshot
  if d.wal.length < Wal.headerLen then .ok model
  else do
    let replay ← (Wal.replay d.wal).mapError fun _ => PersistError.corrupt
    if replay.corruptWithValidTail then .error .corrupt
    else do
      let cube ← (replay.records.foldlM Cube.applyRecord model.cube).mapError .model
      .ok { model with cube := cube }

end Disk

/-! ## Files -/

namespace Store

def setTmp (bytes : List UInt8) (s : Store) : Store :=
  { s with disk := { s.disk with tmp := some bytes } }

/-- Rename the new snapshot over the old one. -/
def renameTmp (s : Store) : Store :=
  match s.disk.tmp with
  | some bytes => { s with disk := { s.disk with snapshot := bytes, tmp := none } }
  | none => s

/-- Cut or extend the log. -/
def setLen (len : Nat) (s : Store) : Store :=
  { s with disk := { s.disk with wal := Files.resize s.disk.wal len } }

def seekTo (pos : Nat) (s : Store) : Store := { s with cursor := pos }

def writeLog (bytes : List UInt8) (s : Store) : Store :=
  { s with
    disk := { s.disk with wal := Files.overwrite s.disk.wal s.cursor bytes }
    cursor := s.cursor + bytes.length }

open Fallible Files

/-- Write all bytes to the log, or some. -/
def logBytes (bytes : List UInt8) : Attempt Store :=
  ⟨writeLog bytes, fun reached => writeLog (tornBytes bytes reached)⟩

/-- Flush a file or a directory, or open a directory. -/
def sync : Attempt Store := op id

/-! ## Checkpoints -/

/-- Write the snapshot aside, flush it, rename it, and flush the rename. -/
def writeSnapshot (bytes : List UInt8) : List (Attempt Store) :=
  [op (setTmp []), ⟨setTmp bytes, fun reached => setTmp (tornBytes bytes reached)⟩, sync,
    op renameTmp, sync, sync]

/-- Cut the log to its header. -/
def clearLog : List (Attempt Store) := [op (setLen 0), op (seekTo 0), logBytes Wal.header, sync]

variable (format : SnapshotFormat)

/-- Rewrite the snapshot and clear the log, from a staged model or the live
one; a staged model becomes the live one at the end. -/
def checkpointModel (staged : Option Model) : StoreM Unit := do
  let s ← read
  let bytes ← ofExcept (format.toModelText (staged.getD s.model))
  attempts .io (writeSnapshot bytes ++ clearLog)
  update fun s => { s with goodLen := Wal.headerLen, model := staged.getD s.model }

def checkpoint : StoreM Unit := do
  let s ← read
  if s.poisoned then throw .poisoned
  else checkpointModel format none

/-- Edit a copy of the model and take it over once it is on disk. -/
def stagedDefine (edit : Model → Except PersistError Model) : StoreM Unit := do
  let s ← read
  if s.poisoned then throw .poisoned
  else do
    let staged ← ofExcept (edit s.model)
    checkpointModel format (some staged)

/-! ## Batches -/

/-- Roll the log back and refuse further writes. -/
def poisonWal : StoreM Unit := do
  update fun s => { s with poisoned := true }
  let s ← read
  ignore (attempt .io (op (setLen s.goodLen)))
  ignore (attempt .io (op (seekTo s.goodLen)))

/-- Append bytes to the log as one unit. -/
def appendWal (framed : List UInt8) : StoreM Unit := do
  let s ← read
  if s.poisoned then throw .poisoned
  else do
    tryCatch (attempts .io (if s.syncOnWrite then [logBytes framed, sync] else [logBytes framed]))
      fun e => do
        poisonWal
        throw e
    update fun s => { s with goodLen := s.goodLen + framed.length }

/-- Fold the log into a snapshot when it is long. -/
def maybeAutoCheckpoint : StoreM Unit := do
  let s ← read
  if s.walCheckpointThreshold ≠ 0 ∧ s.poisoned = false ∧ s.walCheckpointThreshold < s.goodLen then
    checkpoint format
  else pure ()

end Store

/-- A write with its coordinate as the log has it. -/
def Cube.CellWrite.logged : Cube.CellWrite → Epiphany.CellWrite
  | .leaf coord value => .leaf (coord.map UInt32.ofNat) value
  | .str coord value => .str (coord.map UInt32.ofNat) value

namespace Store

open Fallible

variable (format : SnapshotFormat)

/-- Write a batch: check it, log it, and apply it in memory. -/
def setBatch (writes : List Cube.CellWrite) : StoreM Unit := do
  let s ← read
  if s.poisoned then throw .poisoned
  else do
    ofExcept ((s.model.cube.validateBatch writes).mapError fun e => .batchRejected e.1 e.2)
    appendWal (Wal.Append.framed (.batch (writes.map Cube.CellWrite.logged)))
    -- a batch that passes its check applies
    let cube ← ofExcept ((s.model.cube.applyWrites writes).mapError .model)
    update fun s => { s with model := { s.model with cube := cube } }
    maybeAutoCheckpoint format

end Store

/-- The error for a sandbox that does not exist. -/
def PersistError.noSandbox (name : String) : PersistError :=
  .query (.calc ("no sandbox '" ++ name ++ "'"))

namespace Model

/-- Clear the overrides of a sandbox. -/
def clearSandbox (name : String) (updated : Nat) (m : Model) : Except PersistError Model := do
  let sb ← okOr (m.sandbox name) (.noSandbox name)
  .ok { m with sandboxes := m.sandboxes.insert name (sb.cleared updated) }

end Model

namespace Store

open Fallible

variable (format : SnapshotFormat)

/-- Write the overrides of a sandbox to the base, and clear them. -/
def commitSandbox (name : String) (updated : Nat) : StoreM Unit := do
  let s ← read
  let sb ← ofExcept (okOr (s.model.sandbox name) (.noSandbox name))
  setBatch format sb.writes
  stagedDefine format (Model.clearSandbox name updated)

end Store

end Epiphany
