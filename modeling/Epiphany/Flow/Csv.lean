import Epiphany.Common.Lexing
/-!
# CSV — records of a text

A text is split in records of fields, of which the first names the columns;
each later one is a row of the fields by the names of their columns.
-/

namespace Epiphany

namespace Csv

abbrev Text := List Char

/-- A row: the names of the columns with their fields. -/
abbrev Row := List (Text × Text)

def maxCsvRows : Nat := 1000000

structure CsvError where
  message : String
  line : Nat
deriving DecidableEq

/-- The state of the split: what is done, what is being read, and whether the
record that is being read has any content. -/
structure Split where
  records : List (List Text)
  record : List Text
  field : Text
  line : Nat
  started : Bool
deriving DecidableEq

namespace Split

def start : Split := ⟨[], [], [], 1, false⟩

def push (s : Split) (c : Char) : Split := { s with field := s.field ++ [c] }

/-- The end of a field, at a comma. -/
def endField (s : Split) : Split :=
  { s with record := s.record ++ [s.field], field := [], started := true }

/-- The end of a record, at a line break. -/
def endRecord (s : Split) : Split :=
  ⟨s.records ++ [s.record ++ [s.field]], [], [], s.line + 1, false⟩

/-- The records at the end of a text; the last one has no line break. -/
def finish (s : Split) : List (List Text) :=
  if s.started ∨ s.field ≠ [] ∨ s.record ≠ [] then s.records ++ [s.record ++ [s.field]]
  else s.records

def tooMany (s : Split) (limit : Nat) : CsvError :=
  ⟨"too many rows (limit " ++ toString limit ++ ")", s.line⟩

end Split

mutual

/-- The text outside quotes. -/
def splitFrom (limit : Nat) (s : Split) : Text → Except CsvError (List (List Text))
  | [] => .ok s.finish
  | '\r' :: '\n' :: rest =>
    if limit < s.endRecord.records.length then .error (s.endRecord.tooMany limit)
    else splitFrom limit s.endRecord rest
  | c :: rest =>
    if c = '"' ∧ s.field = [] then splitQuoted limit { s with started := true } rest
    else if c = ',' then splitFrom limit s.endField rest
    else if c = '\r' ∨ c = '\n' then
      if limit < s.endRecord.records.length then .error (s.endRecord.tooMany limit)
      else splitFrom limit s.endRecord rest
    else splitFrom limit { s.push c with started := true } rest

/-- The text in quotes, up to the quote that closes it. -/
def splitQuoted (limit : Nat) (s : Split) : Text → Except CsvError (List (List Text))
  | [] => .error ⟨"unterminated quoted field", s.line⟩
  | '"' :: '"' :: rest => splitQuoted limit (s.push '"') rest
  | c :: rest =>
    if c = '"' then splitFrom limit s rest
    else splitQuoted limit { s.push c with line := if c = '\n' then s.line + 1 else s.line } rest

end

def splitRecords (limit : Nat) (text : Text) : Except CsvError (List (List Text)) :=
  splitFrom limit .start text

/-- The first name that is one of those before it. -/
def duplicate : List Text → List Text → Option Text
  | _, [] => none
  | prior, name :: rest => if name ∈ prior then some name else duplicate (prior ++ [name]) rest

/-- The fields of a record by column; those it does not have are empty. -/
def rowOf (header fields : List Text) : Row :=
  header.zipIdx.map fun x => (x.1, (fields[x.2]?).getD [])

/-- The rows of records, of which the first is the header. A record of one
empty field is no row. -/
def rowsOf : List (List Text) → Except CsvError (List Row)
  | [] => .ok []
  | header :: rest =>
    match duplicate [] header with
    | some name => .error ⟨"duplicate header column '" ++ String.ofList name ++ "'", 1⟩
    | none => .ok ((rest.filter fun fields => fields ≠ [[]]).map (rowOf header))

/-- A text without the byte-order mark in front. -/
def stripMark (text : Text) : Text := if text.head? = some '\ufeff' then text.tail else text

/-- The rows of a text. -/
def parseCsv (text : Text) : Except CsvError (List Row) := do
  let records ← splitRecords maxCsvRows (stripMark text)
  rowsOf records

end Csv

end Epiphany
