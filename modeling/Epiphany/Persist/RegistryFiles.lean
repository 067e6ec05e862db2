import Epiphany.Common.Digits
import Epiphany.Common.Directory
import Epiphany.Engine.Boot
import Epiphany.Persist.Store
/-!
# Registry files — an index, and a body for each dimension

The registry of shared dimensions is stored as one file for each dimension
and an index of them. A save replaces the bodies first, then the index, and
then moves away the bodies that the index does not list. The index is
replaced as a whole and so is each body, but a body is replaced while the
old index lists it.
-/

namespace Epiphany

structure IndexEntryDoc where
  id : Nat
  generation : Nat
  references : List String
deriving DecidableEq

abbrev IndexDoc := List IndexEntryDoc

/-- What the index says of an entry. -/
def RegistryEntry.indexed (e : RegistryEntry) : IndexEntryDoc := ⟨e.id, e.generation, e.references⟩

/-- The files of a registry. A stem is a name up to its first dot. -/
inductive RegistryFile where
  | index
  | indexTmp
  | body (stem : List Char)
  | bodyTmp (stem : List Char)
  | orphan (stem : List Char)
deriving DecidableEq

/-- How documents are written as texts over `β` and read. -/
structure RegistryFormat (β : Type) where
  indexText : IndexDoc → Except String (List β)
  parseIndex : List β → Except String IndexDoc
  dimText : DimDoc → Except String (List β)
  parseDim : List β → Except LoadError DimDoc
  /-- The message of an error. -/
  display : LoadError → String

/-- The numbers of an entry are unsigned 64-bit integers. -/
structure IndexEntryDoc.Words (x : IndexEntryDoc) : Prop where
  id : x.id < 2 ^ 64
  generation : x.generation < 2 ^ 64

/-- Every document is written, and read back. -/
structure RegistryFormat.Lawful {β : Type} (format : RegistryFormat β) : Prop where
  dim : ∀ doc, ∃ text, format.dimText doc = .ok text ∧ format.parseDim text = .ok doc
  index : ∀ doc, (∀ x ∈ doc, x.Words) →
    ∃ text, format.indexText doc = .ok text ∧ format.parseIndex text = .ok doc

/-- An unsigned 64-bit number in decimal. -/
def parseU64 (s : List Char) : Option Nat :=
  let digits := if s.head? = some '+' then s.tail else s
  if digits ≠ [] ∧ digits.all Char.isDigit ∧ Nat.ofDigitChars 10 digits 0 < 2 ^ 64 then
    some (Nat.ofDigitChars 10 digits 0)
  else none

namespace RegistryFormat

variable {β : Type} (format : RegistryFormat β)

def toModelText (d : Dimension) : Except PersistError (List β) :=
  (format.dimText d.dimDoc).mapError .save

def fromModelText (text : List β) : Except PersistError Dimension :=
  (do
    let doc ← format.parseDim text
    Dimension.buildDimension doc).mapError fun e => .load (format.display e)

end RegistryFormat

abbrev RegistryDir (β : Type) := Directory RegistryFile β

abbrev RegistryM (β α : Type) := Fallible PersistError (RegistryDir β) α

namespace RegistryDir

open Fallible Directory

variable {β : Type}

/-- The number of a dimension's files. -/
def stemOf (id : Nat) : List Char := Nat.toDigits 10 id

def dimPath (id : Nat) : RegistryFile := .body (stemOf id)

/-! ## Saving -/

def saveBody (format : RegistryFormat β) (e : RegistryEntry) : RegistryM β Unit := do
  let text ← ofExcept (format.toModelText e.dimension)
  replaceFile .io (.bodyTmp (stemOf e.id)) (dimPath e.id) text

def saveIndex (format : RegistryFormat β) (entries : List RegistryEntry) : RegistryM β Unit := do
  let index ← ofExcept ((format.indexText (entries.map RegistryEntry.indexed)).mapError .save)
  replaceFile .io .indexTmp .index index

def bodyStem : RegistryFile → Option (List Char)
  | .body stem => some stem
  | _ => none

/-- The stems of the bodies in a directory, sorted. -/
def bodyStems (d : RegistryDir β) : List (List Char) :=
  (d.names.filterMap bodyStem).insertionSort (· ≤ ·)

/-- Move one body away, unless its dimension is kept. -/
def quarantine (keep : List Nat) (stem : List Char) : RegistryM β Unit :=
  match parseU64 stem with
  | some id =>
    if id ∈ keep then pure ⟨⟩
    else ignore (attempt .io (op (rename (.body stem) (.orphan stem))))
  | none => pure ⟨⟩

/-- Move away the bodies that are not kept, if the directory can be read. -/
def sweep (keep : List Nat) : RegistryM β Unit := do
  if ← probe (attempt .io (op id)) then
    let d ← Fallible.read
    (bodyStems d).forM (quarantine keep)
  else pure ⟨⟩

/-- Save a registry. The directory is created first. -/
def saveRegistry (format : RegistryFormat β) (entries : List RegistryEntry) :
    RegistryM β Unit := do
  attempt .io (op id)
  entries.forM (saveBody format)
  saveIndex format entries
  sweep (entries.map RegistryEntry.id)

/-! ## Loading -/

/-- The dimension in a body. -/
def readBody (format : RegistryFormat β) (d : RegistryDir β) (id : Nat) :
    Except PersistError Dimension := do
  let text ← okOr (d.read (dimPath id)) .io
  format.fromModelText text

def loadEntry (format : RegistryFormat β) (d : RegistryDir β) (x : IndexEntryDoc) :
    Except PersistError RegistryEntry := do
  let dimension ← readBody format d x.id
  .ok ⟨x.id, x.generation, x.references, dimension⟩

/-- Load a registry. No index is an empty registry. -/
def loadRegistry (format : RegistryFormat β) (d : RegistryDir β) :
    Except PersistError (List RegistryEntry) :=
  match d.read .index with
  | none => .ok []
  | some text => do
    let doc ← (format.parseIndex text).mapError fun _ => .corrupt
    doc.mapM (loadEntry format d)

end RegistryDir

end Epiphany
