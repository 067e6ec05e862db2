import Epiphany.Core.Value
/-!
# Documents — tables of named fields, and how records are kept in them

A document is a string, an integer, a truth value, an array or a table. A
record is written as a table of its fields, in which a field may be left out,
and read back field by field, in any order; a field that is not there has a
default or is an error. A field is found under its key as it was written
(`lookup_entries`).
-/

namespace Epiphany

inductive Document where
  | string (s : String)
  | integer (n : Int)
  | boolean (b : Bool)
  | array (items : List Document)
  | table (entries : List (String × Document))

namespace Document

/-- Whether a document of at most so many levels can be written: each key of a
table stands once, and each integer is within 64 bits, with a sign or
without. -/
inductive Writable : Nat → Document → Prop
  | string {n : Nat} (s : String) : Writable n (.string s)
  | integer {n : Nat} {i : Int} (lower : -2 ^ 63 ≤ i) (upper : i < 2 ^ 64) :
      Writable n (.integer i)
  | boolean {n : Nat} (b : Bool) : Writable n (.boolean b)
  | array {n : Nat} {items : List Document} (h : ∀ v ∈ items, Writable n v) :
      Writable (n + 1) (.array items)
  | table {n : Nat} {entries : List (String × Document)} (keys : (entries.map Prod.fst).Nodup)
      (h : ∀ e ∈ entries, Writable n e.2) : Writable (n + 1) (.table entries)

variable {α : Type}

/-! ## Reading values -/

def asString : Document → Except String String
  | .string s => .ok s
  | _ => .error "expected a string"

def asBool : Document → Except String Bool
  | .boolean b => .ok b
  | _ => .error "expected a boolean"

/-- An unsigned integer of so many bits. -/
def asUnsigned (bits : Nat) : Document → Except String Nat
  | .integer n => if 0 ≤ n ∧ n < 2 ^ bits then .ok n.toNat else .error "integer out of range"
  | _ => .error "expected an integer"

def asList (f : Document → Except String α) : Document → Except String (List α)
  | .array items => items.mapM f
  | _ => .error "expected an array"

/-! ## Fields -/

def asTable : Document → Except String (List (String × Document))
  | .table entries => .ok entries
  | _ => .error "expected a table"

def lookup (entries : List (String × Document)) (key : String) : Option Document :=
  (entries.find? fun e => e.1 = key).map Prod.snd

section

variable (entries : List (String × Document)) (key : String) (f : Document → Except String α)

/-- A field that must be there. -/
def required : Except String α :=
  match lookup entries key with
  | some v => f v
  | none => .error ("missing field " ++ key)

/-- A field that has a value where it is not there. -/
def defaulted (d : α) : Except String α :=
  match lookup entries key with
  | some v => f v
  | none => .ok d

def optional : Except String (Option α) :=
  match lookup entries key with
  | some v => (f v).map some
  | none => .ok none

end

/-! ## Writing fields -/

/-- The table of the fields that are not left out. -/
def entriesOf (fields : List (String × Option Document)) : List (String × Document) :=
  fields.filterMap fun f => f.2.map fun v => (f.1, v)

def record (fields : List (String × Option Document)) : Document := .table (entriesOf fields)

def unlessEmpty (s : String) : Option Document := if s = "" then none else some (.string s)

def natural (n : Nat) : Document := .integer n

def items (g : α → Document) (l : List α) : Document := .array (l.map g)

/-- An array, left out if it is empty. -/
def unlessNil (g : α → Document) (l : List α) : Option Document :=
  if l.isEmpty then none else some (items g l)

/-! ## Written and read -/

variable {fields : List (String × Option Document)} {key : String} {v : Document}
  {o : Option Document}

theorem mem_entriesOf : (key, v) ∈ entriesOf fields ↔ (key, some v) ∈ fields := by
  simp only [entriesOf, List.mem_filterMap, Option.map_eq_some_iff, Prod.mk.injEq, Prod.exists]
  constructor
  · rintro ⟨k, o, hm, w, rfl, rfl, rfl⟩
    exact hm
  · exact fun hm => ⟨key, some v, hm, v, rfl, rfl, rfl⟩

theorem keys_entriesOf (hkeys : (fields.map Prod.fst).Nodup) :
    ((entriesOf fields).map Prod.fst).Nodup := by
  refine List.Nodup.sublist ?_ hkeys
  clear hkeys
  induction fields with
  | nil => exact List.Sublist.refl _
  | cons f fields ih =>
    obtain ⟨k, - | v⟩ := f
    · exact ih.cons k
    · exact ih.cons_cons k

/-- **Fields.** A field stands under its key as it was written. -/
theorem lookup_entries (hkeys : (fields.map Prod.fst).Nodup) (hm : (key, o) ∈ fields) :
    lookup (entriesOf fields) key = o := by
  have hunique : ∀ o', (key, o') ∈ fields → o' = o := fun o' hm' => by
    have hinj := List.inj_on_of_nodup_map hkeys hm' hm rfl
    exact (Prod.mk.inj hinj).2
  cases o with
  | none =>
    rw [lookup, List.find?_eq_none.2, Option.map_none]
    rintro ⟨k, v⟩ hv
    simp only [decide_eq_true_eq]
    rintro rfl
    exact absurd (hunique _ (mem_entriesOf.1 hv)) (by simp)
  | some v =>
    rw [lookup]
    rcases hfind : (entriesOf fields).find? fun e => e.1 = key with - | ⟨k, w⟩
    · exact absurd (List.find?_eq_none.1 hfind _ (mem_entriesOf.2 hm)) (by simp)
    · -- the field that is found is the only one of its key
      have hk : k = key := by simpa using List.find?_some hfind
      subst hk
      rw [hfind]
      exact hunique _ (mem_entriesOf.1 (List.mem_of_find?_eq_some hfind))

theorem required_entries {f : Document → Except String α} {a : α}
    (hkeys : (fields.map Prod.fst).Nodup) (hm : (key, some v) ∈ fields) (h : f v = .ok a) :
    required (entriesOf fields) key f = .ok a := by
  rw [required, lookup_entries hkeys hm]
  exact h

theorem required_string {s : String} (hkeys : (fields.map Prod.fst).Nodup)
    (hm : (key, some (.string s)) ∈ fields) : required (entriesOf fields) key asString = .ok s :=
  required_entries hkeys hm rfl

/-- A table of two strings. -/
theorem required_pair {k k' : String} (h : k ≠ k') (s s' : String) :
    required (entriesOf [(k, some (.string s)), (k', some (.string s'))]) k asString = .ok s ∧
      required (entriesOf [(k, some (.string s)), (k', some (.string s'))]) k' asString =
        .ok s' := by
  have hkeys : ([(k, some (string s)), (k', some (string s'))].map Prod.fst).Nodup := by
    simp [h]
  exact ⟨required_string hkeys (by simp), required_string hkeys (by simp)⟩

theorem optional_entries {f : Document → Except String α} {g : α → Document} {x : Option α}
    (hkeys : (fields.map Prod.fst).Nodup) (hm : (key, x.map g) ∈ fields)
    (h : ∀ y, x = some y → f (g y) = .ok y) : optional (entriesOf fields) key f = .ok x := by
  rw [optional, lookup_entries hkeys hm]
  cases x with
  | none => rfl
  | some y =>
    dsimp only [Option.map_some]
    rw [h y rfl]
    rfl

/-- A field left out at its default is read as the default. -/
theorem defaulted_entries {f : Document → Except String α} {a d : α}
    (hkeys : (fields.map Prod.fst).Nodup) (hm : (key, o) ∈ fields)
    (hsome : ∀ v, o = some v → f v = .ok a) (hnone : o = none → a = d) :
    defaulted (entriesOf fields) key f d = .ok a := by
  rw [defaulted, lookup_entries hkeys hm]
  cases o with
  | none => exact congrArg Except.ok (hnone rfl).symm
  | some v => exact hsome v rfl

theorem defaulted_unlessEmpty {s : String} (hkeys : (fields.map Prod.fst).Nodup)
    (hm : (key, unlessEmpty s) ∈ fields) :
    defaulted (entriesOf fields) key asString "" = .ok s := by
  refine defaulted_entries hkeys hm (fun v hv => ?_) fun hnone => ?_
  · unfold unlessEmpty at hv
    split_ifs at hv
    rw [← Option.some.inj hv]
    rfl
  · unfold unlessEmpty at hnone
    split_ifs at hnone with hs
    exact hs

theorem optional_string {x : Option String} (hkeys : (fields.map Prod.fst).Nodup)
    (hm : (key, x.map .string) ∈ fields) : optional (entriesOf fields) key asString = .ok x :=
  optional_entries hkeys hm fun _ _ => rfl

theorem asList_items {f : Document → Except String α} {g : α → Document} {l : List α}
    (h : ∀ y ∈ l, f (g y) = .ok y) : asList f (items g l) = .ok l := by
  unfold items
  rw [asList, mapM_eq_ok, List.forall₂_map_left_iff, List.forall₂_same]
  exact h

theorem defaulted_unlessNil {f : Document → Except String α} {g : α → Document} {l : List α}
    (hkeys : (fields.map Prod.fst).Nodup) (hm : (key, unlessNil g l) ∈ fields)
    (h : ∀ y ∈ l, f (g y) = .ok y) :
    defaulted (entriesOf fields) key (asList f) [] = .ok l := by
  refine defaulted_entries hkeys hm (fun v hv => ?_) fun hnone => ?_
  · unfold unlessNil at hv
    split_ifs at hv
    rw [← Option.some.inj hv]
    exact asList_items h
  · unfold unlessNil at hnone
    split_ifs at hnone with hl
    exact List.isEmpty_iff.1 hl

theorem asUnsigned_natural {bits n : Nat} (h : n < 2 ^ bits) :
    asUnsigned bits (natural n) = .ok n := by
  unfold natural
  rw [asUnsigned, if_pos ⟨by omega, by exact_mod_cast h⟩, Int.toNat_natCast]

/-! ## What can be written -/

section

variable {n : Nat}

/-- Whether a field, if it is not left out, can be written. -/
def Held (n : Nat) (o : Option Document) : Prop := ∀ v, o = some v → v.Writable n

theorem writable_record (hkeys : (fields.map Prod.fst).Nodup) :
    (record fields).Writable (n + 1) ↔ ∀ f ∈ fields, Held n f.2 := by
  constructor
  · rintro h ⟨k, o⟩ hm v rfl
    cases h with
    | table keys hall => exact hall (k, v) (mem_entriesOf.2 hm)
  · intro h
    exact .table (keys_entriesOf hkeys) fun e he => h (e.1, some e.2) (mem_entriesOf.1 he) e.2 rfl

theorem held_some : Held n (some v) ↔ v.Writable n := by
  simp [Held]

theorem held_map {g : α → Document} {x : Option α} :
    Held n (x.map g) ↔ ∀ y, x = some y → (g y).Writable n := by
  cases x with
  | none => simp [Held]
  | some y => simp [Held]

@[simp] theorem held_string (s : String) : Held n (some (.string s)) := held_some.2 (.string s)

@[simp] theorem held_boolean (b : Bool) : Held n (some (.boolean b)) := held_some.2 (.boolean b)

@[simp] theorem held_map_string (x : Option String) : Held n (x.map .string) :=
  held_map.2 fun y _ => .string y

@[simp] theorem held_unlessEmpty (s : String) : Held n (unlessEmpty s) := by
  unfold unlessEmpty
  split_ifs
  · simp [Held]
  · exact held_string s

@[simp] theorem held_natural {k : Nat} : Held n (some (natural k)) ↔ k < 2 ^ 64 := by
  rw [held_some]
  constructor
  · intro h
    rw [natural] at h
    cases h with
    | integer _ upper => exact_mod_cast upper
  · intro h
    exact .integer (by omega) (by exact_mod_cast h)

@[simp] theorem held_items {g : α → Document} {l : List α} :
    Held (n + 1) (some (items g l)) ↔ ∀ y ∈ l, (g y).Writable n := by
  rw [held_some]
  constructor
  · intro h
    cases h with
    | array hall => exact fun y hy => hall _ (List.mem_map_of_mem hy)
  · intro h
    refine .array fun v hv => ?_
    obtain ⟨y, hy, rfl⟩ := List.mem_map.1 hv
    exact h y hy

@[simp] theorem held_unlessNil {g : α → Document} {l : List α} :
    Held (n + 1) (unlessNil g l) ↔ ∀ y ∈ l, (g y).Writable n := by
  unfold unlessNil
  split_ifs with hl
  · rw [List.isEmpty_iff.1 hl]
    simp [Held]
  · exact held_items

@[simp] theorem writable_string (s : String) : (string s).Writable n := .string s

end

/-! ## What was read -/

section

variable {entries : List (String × Document)} {f : Document → Except String α} {a : α}

/-- What a required field holds is read from some value. -/
theorem exists_of_required (h : required entries key f = .ok a) : ∃ v : Document, f v = .ok a := by
  unfold required at h
  rcases hl : lookup entries key with - | v
  · rw [hl] at h
    cases h
  · rw [hl] at h
    exact ⟨v, h⟩

theorem exists_of_defaulted {d : α} (h : defaulted entries key f d = .ok a) :
    a = d ∨ ∃ v : Document, f v = .ok a := by
  unfold defaulted at h
  rcases hl : lookup entries key with - | v
  · rw [hl] at h
    exact .inl (Except.ok.inj h).symm
  · rw [hl] at h
    exact .inr ⟨v, h⟩

theorem exists_of_optional {o : Option α} (h : optional entries key f = .ok o)
    (ho : o = some a) : ∃ v : Document, f v = .ok a := by
  unfold optional at h
  rcases hl : lookup entries key with - | v
  · rw [hl, ho] at h
    cases h
  · rw [hl, ho] at h
    obtain ⟨b, hb, heq⟩ := map_eq_ok.1 h
    rw [Option.some.inj heq] at hb
    exact ⟨v, hb⟩

theorem exists_of_asList {l : List α} (h : asList f v = .ok l) :
    ∀ y ∈ l, ∃ w : Document, f w = .ok y := by
  cases v with
  | array items =>
    intro y hy
    obtain ⟨w, -, hwy⟩ := exists_of_mem_mapM h hy
    exact ⟨w, hwy⟩
  | _ => cases h

/-- What a list of records holds is read from values. -/
theorem exists_of_section {l : List α} (h : defaulted entries key (asList f) [] = .ok l) :
    ∀ d ∈ l, ∃ w : Document, f w = .ok d := by
  intro d hd
  rcases exists_of_defaulted h with rfl | ⟨w, hlist⟩
  · cases hd
  · exact exists_of_asList hlist d hd

theorem asUnsigned_lt {bits n : Nat} (h : asUnsigned bits v = .ok n) : n < 2 ^ bits := by
  cases v with
  | integer i =>
    unfold asUnsigned at h
    dsimp only at h
    split_ifs at h with hi
    obtain rfl := Except.ok.inj h
    obtain ⟨h0, hbits⟩ := hi
    have hnat := Int.toNat_of_nonneg h0
    rw [← hnat] at hbits
    exact_mod_cast hbits
  | _ => cases h

end

end Document

/-- A library that writes documents as texts and reads them. -/
structure TomlLibrary (τ : Type) where
  write : Document → Except String τ
  read : τ → Except String Document

/-- How deep a document nests that a library must be able to read. -/
def tomlLevels : Nat := 16

/-- Every document that can be written is written, and read back. -/
structure TomlLibrary.Lawful {τ : Type} (toml : TomlLibrary τ) : Prop where
  writes : ∀ v : Document, v.Writable tomlLevels →
    ∃ text, toml.write v = .ok text ∧ toml.read text = .ok v

namespace TomlLibrary

/-- Texts of one token, a document. -/
def tokens : TomlLibrary (List Document) where
  write v := .ok [v]
  read
    | [token] => .ok token
    | _ => .error "expected one document"

theorem lawful_tokens : tokens.Lawful where
  writes v _ := ⟨[v], rfl, rfl⟩

end TomlLibrary

end Epiphany
