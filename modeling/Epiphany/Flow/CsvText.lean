import Epiphany.Flow.Csv
/-!
# CSV — what is read of the text of a table

A table is written a record a line: fields with commas between them, in quotes
where they hold a comma, a quote or a line break. It is read back except for
rows of one empty field, which are taken for no row; a first name that starts
with the byte-order mark loses it, and there is a limit on the line breaks.
-/

namespace Epiphany

namespace Csv

open Lexing

/-! ## The text of a table -/

/-- The characters for which a field is in quotes. -/
def special : Text := [',', '"', '\n', '\r']

/-- How a field may be written. -/
inductive FieldText : Text → Text → Prop
  | plain {f : Text} (h : ∀ c ∈ f, c ∉ special) : FieldText f f
  | quoted (f : Text) : FieldText f ('"' :: (escape '"' f ++ ['"']))

theorem FieldText.of_all {f : Text} (h : f.all (fun c => decide (c ∉ special)) = true) :
    FieldText f f :=
  .plain fun c hc => of_decide_eq_true (List.all_eq_true.1 h c hc)

inductive IsBreak : Text → Prop
  | lf : IsBreak ['\n']
  | crlf : IsBreak ['\r', '\n']

def RecordText (fields : List Text) (text : Text) : Prop :=
  ∃ texts, List.Forall₂ FieldText fields texts ∧ text = [','].intercalate texts

/-- Records with a break between them, and one behind the last if it is
final. -/
inductive Lines : Bool → List (List Text) → Text → Prop
  | last {r : List Text} {t : Text} (h : RecordText r t) : Lines false [r] t
  | closed {r : List Text} {t b : Text} (h : RecordText r t) (hb : IsBreak b) :
      Lines true [r] (t ++ b)
  | cons {final : Bool} {r : List Text} {rs : List (List Text)} {t b text : Text}
      (h : RecordText r t) (hb : IsBreak b) (hs : Lines final rs text) :
      Lines final (r :: rs) (t ++ (b ++ text))

/-- A table: columns with names that differ, and rows of one field for each. -/
structure Table where
  header : List Text
  rows : List (List Text)
  header_ne : header ≠ []
  named : [] ∉ header
  nodup : header.Nodup
  width : ∀ r ∈ rows, r.length = header.length

namespace Table

/-- A text of a table, with or without a final line break. -/
def Encodes (t : Table) (final : Bool) (text : Text) : Prop :=
  Lines final (t.header :: t.rows) text

/-- The rows of a table, by column. -/
def byName (t : Table) : List Row := t.rows.map t.header.zip

/-- The line breaks of a text of a table. -/
def breaks (t : Table) (final : Bool) : Nat := t.rows.length + final.toNat

end Table

/-! ## Single steps of the split -/

variable {n : Nat} {s : Split} {l : Text}

theorem splitFrom_char {c : Char} (hc : c ∉ special) : splitFrom n s (c :: l) =
    splitFrom n { s.push c with started := true } l := by
  simp only [special, List.mem_cons, List.not_mem_nil, or_false, not_or] at hc
  obtain ⟨hcomma, hquote, hlf, hcr⟩ := hc
  rw [splitFrom, if_neg (fun h => hquote h.1), if_neg hcomma,
    if_neg (fun h => h.elim hcr hlf)]
  exact fun _ h => absurd h hcr

theorem splitFrom_comma : splitFrom n s (',' :: l) = splitFrom n s.endField l := rfl

theorem splitFrom_open (hs : s.field = []) : splitFrom n s ('"' :: l) =
    splitQuoted n { s with started := true } l := by
  rw [splitFrom, if_pos ⟨rfl, hs⟩]
  exact fun _ h => absurd h (by decide)

theorem splitFrom_break {b : Text} (hb : IsBreak b) : splitFrom n s (b ++ l) =
    if n < s.endRecord.records.length then .error (s.endRecord.tooMany n)
    else splitFrom n s.endRecord l := by
  cases hb with
  | lf => rfl
  | crlf => rfl

/-! ## Fields -/

/-- The state behind a field of a text. -/
def Split.behind (s : Split) (f : Text) (line : Nat) (text : Text) : Split :=
  { s with field := f, line := line, started := s.started || decide (text ≠ []) }

theorem splitFrom_plain {f : Text} (hf : ∀ c ∈ f, c ∉ special) :
    ∀ s : Split, splitFrom n s (f ++ l) =
      splitFrom n (s.behind (s.field ++ f) s.line f) l := by
  induction f with
  | nil =>
    intro s
    simp [Split.behind]
  | cons c f ih =>
    intro s
    rw [List.cons_append, splitFrom_char (hf c List.mem_cons_self),
      ih fun d hd => hf d (List.mem_cons_of_mem c hd)]
    simp [Split.behind, Split.push]

/-- Quotes in quotes are doubled, up to the one that closes them. -/
theorem splitQuoted_escape (hrest : l.head? ≠ some '"') (f : Text) :
    ∀ s : Split, ∃ line, splitQuoted n s (escape '"' f ++ '"' :: l) =
      splitFrom n { s with field := s.field ++ f, line := line } l := by
  induction f with
  | nil =>
    intro s
    refine ⟨s.line, ?_⟩
    have hclose : splitQuoted n s ('"' :: l) = splitFrom n s l := by
      rw [splitQuoted, if_pos rfl]
      rintro out - rfl
      exact hrest rfl
    rw [List.append_nil]
    exact hclose
  | cons c f ih =>
    intro s
    by_cases hc : c = '"'
    · subst hc
      obtain ⟨line, h⟩ := ih (s.push '"')
      refine ⟨line, ?_⟩
      have htext : escape '"' ('"' :: f) ++ '"' :: l =
          '"' :: '"' :: (escape '"' f ++ '"' :: l) := by simp [escape]
      rw [htext, splitQuoted, h]
      simp [Split.push]
    · obtain ⟨line, h⟩ := ih { s.push c with line := if c = '\n' then s.line + 1 else s.line }
      refine ⟨line, ?_⟩
      have htext : escape '"' (c :: f) ++ '"' :: l =
          c :: (escape '"' f ++ '"' :: l) := by simp [escape, hc]
      rw [htext, splitQuoted, if_neg hc, h]
      · simp [Split.push]
      · exact fun _ h => absurd h hc

/-- What may be behind a field. -/
def Stops (l : Text) : Prop := ∀ c ∈ l.head?, c ∈ [',', '\n', '\r']

theorem Stops.head_ne (h : Stops l) : l.head? ≠ some '"' := by
  intro hq
  exact absurd (h '"' hq) (by decide)

theorem stops_break {b : Text} (hb : IsBreak b) : Stops (b ++ l) := by
  rintro c hc
  cases hb with
  | lf =>
    obtain rfl : '\n' = c := by simpa using hc
    decide
  | crlf =>
    obtain rfl : '\r' = c := by simpa using hc
    decide

theorem splitFrom_field {f text : Text} (h : FieldText f text) (hs : s.field = [])
    (hrest : Stops l) : ∃ line, splitFrom n s (text ++ l) =
      splitFrom n (s.behind f line text) l := by
  cases h with
  | plain hf =>
    refine ⟨s.line, ?_⟩
    rw [splitFrom_plain hf, hs, List.nil_append]
  | quoted =>
    obtain ⟨line, h⟩ := splitQuoted_escape (n := n) hrest.head_ne f
      { s with started := true }
    refine ⟨line, ?_⟩
    rw [List.cons_append, List.append_assoc, splitFrom_open hs]
    simp only [List.singleton_append]
    rw [h]
    simp [Split.behind, hs]

/-! ## Records -/

theorem recordText_nil {r : List Text} (h : RecordText r []) (hr : r ≠ []) : r = [[]] := by
  obtain ⟨texts, hf, ht⟩ := h
  cases hf with
  | nil => exact absurd rfl hr
  | cons h hs =>
    cases hs with
    | nil =>
      obtain rfl : [] = _ := by simpa using ht
      cases h with
      | plain _ => rfl
    | cons h' hs =>
      rw [List.intercalate_cons_cons] at ht
      simp at ht

/-- A record that is read up to its last field. -/
structure Read (s : Split) (r : List Text) (text : Text) (s' : Split) : Prop where
  records : s'.records = s.records
  record : s'.record ++ [s'.field] = s.record ++ r
  started : s'.started = (s.started || decide (text ≠ []))

theorem splitFrom_record {r : List Text} {text : Text} (h : RecordText r text) (hr : r ≠ [])
    (hs : s.field = []) (hrest : Stops l) :
    ∃ s', Read s r text s' ∧ splitFrom n s (text ++ l) = splitFrom n s' l := by
  obtain ⟨texts, hf, rfl⟩ := h
  induction hf generalizing s with
  | nil => exact absurd rfl hr
  | @cons f t fs ts hft hfs ih =>
    cases hfs with
    | nil =>
      obtain ⟨line, h⟩ := splitFrom_field (n := n) hft hs hrest
      rw [List.intercalate_singleton]
      exact ⟨s.behind f line t, ⟨rfl, rfl, rfl⟩, h⟩
    | @cons f' t' fs ts hft' hfs =>
      have hcomma : Stops ((',' :: [','].intercalate (t' :: ts)) ++ l) := by
        intro c hc
        obtain rfl : ',' = c := by simpa using hc
        decide
      obtain ⟨line, h⟩ := splitFrom_field (n := n) hft hs hcomma
      obtain ⟨s', hread, h'⟩ := ih (s := (s.behind f line t).endField) (List.cons_ne_nil f' fs) rfl
      refine ⟨s', ⟨hread.records, ?_, ?_⟩, ?_⟩
      · rw [hread.record]
        simp [Split.endField, Split.behind]
      · rw [hread.started, List.intercalate_cons_cons]
        simp [Split.endField]
      · rw [List.intercalate_cons_cons, List.append_assoc, List.append_assoc,
          List.singleton_append, ← List.cons_append, h, List.cons_append, splitFrom_comma, h']

/-! ## Lines -/

/-- What is read of records: all of them, except for a last one of which there
is no text. -/
def AllBut (rs out : List (List Text)) : Prop := out = rs ∨ out ++ [[[]]] = rs

theorem Read.finish {s' : Split} {r : List Text} {text : Text} {done : List (List Text)}
    {line : Nat} (h : Read ⟨done, [], [], line, false⟩ r text s') (ht : RecordText r text)
    (hr : r ≠ []) : ∃ out, AllBut [r] out ∧ s'.finish = done ++ out := by
  unfold Split.finish
  rw [h.records, h.record, h.started]
  by_cases hnil : text = []
  · subst hnil
    obtain rfl := recordText_nil ht hr
    obtain ⟨hrecord, hfield⟩ := List.append_eq_singleton_iff.1 h.record |>.resolve_right (by simp)
    obtain hfield : s'.field = [] := by simpa using hfield
    refine ⟨[], .inr rfl, ?_⟩
    rw [if_neg (by simp [hrecord, hfield]), List.append_nil]
  · exact ⟨[r], .inl rfl, if_pos (.inl (by simp [hnil]))⟩

/-- Records are read, as long as there are not too many line breaks. -/
theorem splitFrom_lines {final : Bool} {rs : List (List Text)} {text : Text}
    (h : Lines final rs text) (hne : ∀ r ∈ rs, r ≠ []) : ∀ (done : List (List Text)) (line : Nat),
      done.length ≤ n →
      (done.length + rs.length ≤ n + (!final).toNat → ∃ out, AllBut rs out ∧
        splitFrom n ⟨done, [], [], line, false⟩ text = .ok (done ++ out)) ∧
      (n + (!final).toNat < done.length + rs.length →
        ∃ e, splitFrom n ⟨done, [], [], line, false⟩ text = .error e) := by
  -- on the lines: the number of records done is checked only where a line break ends one
  induction h with
  | @last r t ht =>
    intro done line hd
    have hr := hne r List.mem_cons_self
    obtain ⟨s', hread, h⟩ := splitFrom_record (n := n) (l := [])
      (s := ⟨done, [], [], line, false⟩) ht hr rfl (by simp [Stops])
    rw [List.append_nil] at h
    constructor
    · intro _
      obtain ⟨out, hout, hfinish⟩ := hread.finish ht hr
      refine ⟨out, hout, ?_⟩
      rw [h, splitFrom, hfinish]
    · intro hlt
      simp at hlt
      omega
  | @closed r t b ht hb =>
    intro done line hd
    have hr := hne r List.mem_cons_self
    obtain ⟨s', hread, h⟩ := splitFrom_record (n := n) (l := b)
      (s := ⟨done, [], [], line, false⟩) ht hr rfl (by simpa using stops_break (l := []) hb)
    have hbreak := splitFrom_break (n := n) (s := s') (l := []) hb
    have hdone : s'.endRecord.records = done ++ [r] := by
      show s'.records ++ [s'.record ++ [s'.field]] = _
      rw [hread.records, hread.record]
      rfl
    rw [List.append_nil, hdone, List.length_append, List.length_singleton] at hbreak
    rw [h, hbreak]
    constructor
    · intro hle
      have hnot : ¬ n < done.length + 1 := by simpa using hle
      refine ⟨[r], .inl rfl, ?_⟩
      rw [if_neg hnot, splitFrom, ← hdone]
      rfl
    · intro hlt
      have hlt' : n < done.length + 1 := by simpa using hlt
      exact ⟨_, if_pos hlt'⟩
  | @cons final r rs t b text ht hb hs ih =>
    intro done line hd
    have hr := hne r List.mem_cons_self
    have hrs : 0 < rs.length := by cases hs <;> simp
    obtain ⟨s', hread, h⟩ := splitFrom_record (n := n) (l := b ++ text)
      (s := ⟨done, [], [], line, false⟩) ht hr rfl (stops_break hb)
    have hbreak := splitFrom_break (n := n) (s := s') (l := text) hb
    have hdone : s'.endRecord = ⟨done ++ [r], [], [], s'.line + 1, false⟩ := by
      unfold Split.endRecord
      rw [hread.records, hread.record]
      rfl
    rw [hdone] at hbreak
    rw [h, hbreak, List.length_append, List.length_singleton, List.length_cons]
    have hbool : (!final).toNat ≤ 1 := by cases final <;> decide
    -- the record is one too many, or the rest of the lines decides
    by_cases hlt : n < done.length + 1
    · rw [if_pos hlt]
      refine ⟨fun hle => ?_, fun _ => ⟨_, rfl⟩⟩
      omega
    · rw [if_neg hlt]
      obtain ⟨hok, herr⟩ := ih (fun x hx => hne x (List.mem_cons_of_mem r hx)) (done ++ [r])
        (s'.line + 1) (by simpa using hlt)
      rw [List.length_append, List.length_singleton] at hok herr
      constructor
      · intro hle
        obtain ⟨out, hout, heq⟩ := hok (by omega)
        refine ⟨r :: out, ?_, ?_⟩
        · exact hout.imp (congrArg _) (congrArg _)
        · rw [heq, List.append_assoc]
          rfl
      · intro hgt
        exact herr (by omega)

/-! ## Rows -/

theorem duplicate_eq_none {l : List Text} : ∀ {prior : List Text},
    duplicate prior l = none ↔ l.Nodup ∧ ∀ name ∈ l, name ∉ prior := by
  induction l with
  | nil => simp [duplicate]
  | cons name l ih =>
    intro prior
    rw [duplicate]
    by_cases hm : name ∈ prior
    · simp [hm]
    · rw [if_neg hm, ih, List.nodup_cons]
      simp only [List.mem_append, List.mem_singleton, List.forall_mem_cons]
      constructor
      · rintro ⟨hnodup, hnot⟩
        refine ⟨⟨fun hin => hnot name hin (.inr rfl), hnodup⟩, hm, fun x hx hp => ?_⟩
        exact hnot x hx (.inl hp)
      · rintro ⟨⟨hin, hnodup⟩, -, hnot⟩
        refine ⟨hnodup, fun x hx hp => ?_⟩
        rcases hp with hp | rfl
        · exact hnot x hx hp
        · exact hin hx

theorem rowOf_eq_zip {header fields : List Text} (h : fields.length = header.length) :
    rowOf header fields = header.zip fields := by
  refine List.ext_getElem (by simp [rowOf, h]) fun i hi hi' => ?_
  have hlt : i < fields.length := by simp [rowOf] at hi; omega
  simp [rowOf, List.getElem?_eq_getElem hlt]

theorem filter_allBut {rs out : List (List Text)} (h : AllBut rs out) :
    out.filter (fun fields => fields ≠ [[]]) = rs.filter fun fields => fields ≠ [[]] := by
  rcases h with rfl | rfl
  · rfl
  · simp

/-- The rows that are read are all rows if none is taken for no row. -/
theorem map_filter_eq_iff {header : List Text} {rows : List (List Text)}
    (hwidth : ∀ r ∈ rows, r.length = header.length) :
    (rows.filter fun fields => fields ≠ [[]]).map (rowOf header) = rows.map header.zip ↔
      [[]] ∉ rows := by
  constructor
  · intro h hm
    have hlen := congrArg List.length h
    rw [List.length_map, List.length_map, List.length_filter_eq_length_iff] at hlen
    exact absurd (hlen [[]] hm) (by simp)
  · intro hnot
    have hall : rows.filter (fun fields => fields ≠ [[]]) = rows := by
      refine List.filter_eq_self.2 fun r hr => ?_
      have hne : r ≠ [[]] := by
        rintro rfl
        exact hnot hr
      simpa using hne
    rw [hall]
    exact List.map_congr_left fun r hr => rowOf_eq_zip (hwidth r hr)

/-! ## Tables -/

namespace Table

variable {t : Table} {final : Bool} {text : Text}

/-- What a table needs to be read back from a text: no row of one empty field,
not too many line breaks, and no byte-order mark that would be part of a
name. -/
structure ReadsBack (t : Table) (final : Bool) (text : Text) : Prop where
  no_blank : [[]] ∉ t.rows
  breaks : t.breaks final ≤ maxCsvRows
  no_mark : text.head? = some '\ufeff' → t.rows = [] ∧
    ∀ name, t.header.head? = some ('\ufeff' :: name) → name ∉ t.header.tail

/-- What is read of lines that start with a header. -/
theorem splitRecords_lines {header : List Text} {rows : List (List Text)}
    (h : Lines final (header :: rows) text) (hne : header ≠ [])
    (hwidth : ∀ r ∈ rows, r.length = header.length) :
    (rows.length + final.toNat ≤ maxCsvRows → ∃ out, AllBut (header :: rows) out ∧
      splitRecords maxCsvRows text = .ok out) ∧
    (maxCsvRows < rows.length + final.toNat →
      ∃ e, splitRecords maxCsvRows text = .error e) := by
  have hne' : ∀ r ∈ header :: rows, r ≠ [] := by
    rintro r hr rfl
    rcases List.mem_cons.1 hr with rfl | hr
    · exact hne rfl
    · exact hne (List.length_eq_zero_iff.1 (hwidth _ hr).symm)
  obtain ⟨hok, herr⟩ := splitFrom_lines (n := maxCsvRows) h hne' [] 1 (Nat.zero_le _)
  simp only [List.length_nil, List.length_cons, Nat.zero_add, List.nil_append] at hok herr
  have hbool : final.toNat + (!final).toNat = 1 := by cases final <;> rfl
  exact ⟨fun hle => hok (by omega), fun hlt => herr (by omega)⟩

theorem parseCsv_of_split {out : List (List Text)}
    (h : splitRecords maxCsvRows (stripMark text) = .ok out) : parseCsv text = rowsOf out := by
  unfold parseCsv
  rw [h]
  rfl

theorem rowsOf_cons {header : List Text} {rest : List (List Text)} (h : header.Nodup) :
    rowsOf (header :: rest) =
      .ok ((rest.filter fun fields => fields ≠ [[]]).map (rowOf header)) := by
  have hd : duplicate [] header = none := duplicate_eq_none.2 ⟨h, by simp⟩
  simp only [rowsOf, hd]

theorem ne_blank {header : List Text} (h : [] ∉ header) : header ≠ [[]] := by
  rintro rfl
  exact h List.mem_cons_self

/-- What is read of the records of a table. -/
theorem rowsOf_allBut {out : List (List Text)} (h : AllBut (t.header :: t.rows) out) :
    rowsOf out = .ok t.byName ↔ [[]] ∉ t.rows := by
  obtain ⟨rest, rfl, hrest⟩ : ∃ rest, out = t.header :: rest ∧ AllBut t.rows rest := by
    rcases h with rfl | h
    · exact ⟨t.rows, rfl, .inl rfl⟩
    · cases out with
      | nil =>
        obtain ⟨hblank, -⟩ := List.cons.inj h
        exact absurd hblank.symm (ne_blank t.named)
      | cons r rest =>
        obtain ⟨rfl, hrest⟩ := List.cons.inj h
        exact ⟨rest, rfl, .inr hrest⟩
  rw [rowsOf_cons t.nodup, filter_allBut hrest, ← map_filter_eq_iff t.width, Except.ok.injEq]
  rfl

theorem parseCsv_of_not_mark (h : t.Encodes final text) (hmark : text.head? ≠ some '\ufeff') :
    parseCsv text = .ok t.byName ↔ [[]] ∉ t.rows ∧ t.breaks final ≤ maxCsvRows := by
  have hstrip : stripMark text = text := if_neg hmark
  obtain ⟨hok, herr⟩ := splitRecords_lines h t.header_ne t.width
  unfold breaks
  by_cases hle : t.rows.length + final.toNat ≤ maxCsvRows
  · obtain ⟨out, hout, hsplit⟩ := hok hle
    rw [parseCsv_of_split (by rw [hstrip, hsplit]), rowsOf_allBut hout]
    exact (and_iff_left hle).symm
  · obtain ⟨e, he⟩ := herr (by omega)
    have herror : parseCsv text = .error e := by
      unfold parseCsv
      rw [hstrip, he]
      rfl
    rw [herror]
    simp [hle]

theorem recordText_of_mark {header : List Text} {text : Text}
    (h : RecordText header ('\ufeff' :: text)) (hnamed : [] ∉ header) :
    ∃ name rest, header = ('\ufeff' :: name) :: rest ∧ RecordText (name :: rest) text := by
  obtain ⟨texts, hf, ht⟩ := h
  -- the first field is not in quotes, for its text starts with the mark
  have hfield : ∀ {f x l : Text}, FieldText f x → f ≠ [] → '\ufeff' :: l = x →
      ∃ name, f = '\ufeff' :: name ∧ FieldText name l := by
    intro f x l hfx hne hx
    cases hfx with
    | plain hplain =>
      subst hx
      exact ⟨l, rfl, .plain fun c hc => hplain c (List.mem_cons_of_mem _ hc)⟩
    | quoted => exact absurd (List.cons.inj hx).1 (by decide)
  cases hf with
  | nil => simp at ht
  | @cons f x fs xs hfx hfs =>
    have hne : f ≠ [] := fun h => hnamed (by simp [h])
    obtain ⟨c, x, rfl⟩ : ∃ c x', x = c :: x' := by
      cases hfx with
      | plain _ => exact List.exists_cons_of_ne_nil hne
      | quoted => exact ⟨_, _, rfl⟩
    cases hfs with
    | nil =>
      rw [List.intercalate_singleton] at ht
      obtain ⟨name, rfl, hname⟩ := hfield hfx hne ht
      refine ⟨name, [], rfl, [text], .cons hname .nil, ?_⟩
      rw [List.intercalate_singleton]
    | @cons f' x' fs xs hfx' hfs =>
      rw [List.intercalate_cons_cons, List.append_assoc, List.cons_append] at ht
      obtain ⟨hc, htext⟩ := List.cons.inj ht
      obtain ⟨name, rfl, hname⟩ := hfield hfx hne (by rw [hc])
      refine ⟨name, f' :: fs, rfl, x :: x' :: xs, .cons hname (.cons hfx' hfs), ?_⟩
      rw [List.intercalate_cons_cons, List.append_assoc, htext]

/-- The mark in front of the lines of a table is part of its first name. -/
theorem lines_of_mark {header : List Text} {rows : List (List Text)} {text : Text}
    (h : Lines final (header :: rows) ('\ufeff' :: text)) (hne : header ≠ [])
    (hnamed : [] ∉ header) :
    ∃ name rest, header = ('\ufeff' :: name) :: rest ∧ Lines final ((name :: rest) :: rows) text := by
  have hcons : ∀ {t l : Text}, RecordText header t → '\ufeff' :: text = t ++ l →
      ∃ t', t = '\ufeff' :: t' ∧ text = t' ++ l := by
    intro t l ht htext
    cases t with
    | nil => exact absurd (recordText_nil ht hne) (ne_blank hnamed)
    | cons c t =>
      obtain ⟨rfl, rfl⟩ := List.cons.inj htext
      exact ⟨t, rfl, rfl⟩
  generalize hx : '\ufeff' :: text = x at h
  cases h with
  | last ht =>
    subst hx
    obtain ⟨name, rest, rfl, hr⟩ := recordText_of_mark ht hnamed
    exact ⟨name, rest, rfl, .last hr⟩
  | closed ht hb =>
    obtain ⟨t', rfl, rfl⟩ := hcons ht hx
    obtain ⟨name, rest, rfl, hr⟩ := recordText_of_mark ht hnamed
    exact ⟨name, rest, rfl, .closed hr hb⟩
  | cons ht hb hs =>
    obtain ⟨t', rfl, rfl⟩ := hcons ht hx
    obtain ⟨name, rest, rfl, hr⟩ := recordText_of_mark ht hnamed
    exact ⟨name, rest, rfl, .cons hr hb hs⟩

/-- Rows by other names are no rows of a table, unless there are none. -/
theorem map_filter_ne {header rest : List Text} {name : Text} {rows : List (List Text)}
    (hheader : header = ('\ufeff' :: name) :: rest)
    (hwidth : ∀ r ∈ rows, r.length = header.length) :
    (rows.filter fun fields => fields ≠ [[]]).map (rowOf (name :: rest)) =
      rows.map header.zip ↔ rows = [] := by
  constructor
  · intro h
    by_contra hne
    obtain ⟨r, rs, rfl⟩ := List.exists_cons_of_ne_nil hne
    have hlen := congrArg List.length h
    rw [List.length_map, List.length_map, List.length_filter_eq_length_iff] at hlen
    rw [List.filter_eq_self.2 hlen, List.map_cons, List.map_cons] at h
    have hr := hwidth r List.mem_cons_self
    obtain ⟨f, fs, rfl⟩ : ∃ f fs, r = f :: fs := by
      refine List.exists_cons_of_ne_nil fun hnil => ?_
      rw [hnil, hheader] at hr
      simp at hr
    -- the first column is called something else
    have hfirst := congrArg (fun row => (row.head?).map Prod.fst) (List.cons.inj h).1
    rw [hheader] at hfirst
    simp [rowOf] at hfirst
  · rintro rfl
    rfl

/-- Without the mark the first name is another, so that nothing is read back
but a table without rows. -/
theorem rowsOf_of_mark {out : List (List Text)} {name : Text} {rest : List Text}
    (hheader : t.header = ('\ufeff' :: name) :: rest)
    (hout : AllBut ((name :: rest) :: t.rows) out) :
    rowsOf out = .ok t.byName ↔ t.rows = [] ∧ name ∉ rest := by
  have hnodup := t.nodup
  rw [hheader, List.nodup_cons] at hnodup
  have hcons : ∀ out', AllBut t.rows out' →
      (rowsOf ((name :: rest) :: out') = .ok t.byName ↔ t.rows = [] ∧ name ∉ rest) := by
    intro out' hout'
    by_cases hm : name ∈ rest
    · have hd : duplicate [] (name :: rest) ≠ none := by
        intro hd
        exact (List.nodup_cons.1 (duplicate_eq_none.1 hd).1).1 hm
      obtain ⟨x, hx⟩ := Option.ne_none_iff_exists'.1 hd
      simp [rowsOf, hx, hm]
    · rw [rowsOf_cons (List.nodup_cons.2 ⟨hm, hnodup.2⟩), filter_allBut hout', Except.ok.injEq]
      exact (map_filter_ne hheader t.width).trans (and_iff_left hm).symm
  rcases hout with rfl | hblank
  · exact hcons t.rows (.inl rfl)
  · cases out with
    | nil =>
      obtain ⟨hblank, hrows⟩ := List.cons.inj hblank
      obtain ⟨rfl, rfl⟩ := List.cons.inj hblank
      simp [rowsOf, byName, ← hrows]
    | cons r out' =>
      obtain ⟨rfl, hrest⟩ := List.cons.inj hblank
      exact hcons out' (.inr hrest)

theorem parseCsv_of_mark (h : t.Encodes final text) (hmark : text.head? = some '\ufeff') :
    parseCsv text = .ok t.byName ↔ t.breaks final ≤ maxCsvRows ∧ t.rows = [] ∧
      ∀ name, t.header.head? = some ('\ufeff' :: name) → name ∉ t.header.tail := by
  obtain ⟨l, rfl⟩ : ∃ l, text = '\ufeff' :: l := by
    cases text with
    | nil => simp at hmark
    | cons c l => exact ⟨l, by rw [Option.some.inj hmark]⟩
  have hstrip : stripMark ('\ufeff' :: l) = l := if_pos rfl
  obtain ⟨name, rest, hheader, hlines⟩ := lines_of_mark h t.header_ne t.named
  have hwidth : ∀ r ∈ t.rows, r.length = (name :: rest).length := by
    intro r hr
    rw [t.width r hr, hheader]
    rfl
  obtain ⟨hok, herr⟩ := splitRecords_lines hlines (List.cons_ne_nil name rest) hwidth
  unfold breaks
  by_cases hle : t.rows.length + final.toNat ≤ maxCsvRows
  · obtain ⟨out, hout, hsplit⟩ := hok hle
    rw [parseCsv_of_split (by rw [hstrip, hsplit]), rowsOf_of_mark hheader hout, hheader]
    simp [hle]
  · obtain ⟨e, he⟩ := herr (by omega)
    have herror : parseCsv ('\ufeff' :: l) = .error e := by
      unfold parseCsv
      rw [hstrip, he]
      rfl
    rw [herror]
    simp [hle]

theorem parseCsv_encodes (h : t.Encodes final text) :
    parseCsv text = .ok t.byName ↔ t.ReadsBack final text := by
  by_cases hmark : text.head? = some '\ufeff'
  · rw [parseCsv_of_mark h hmark]
    constructor
    · rintro ⟨hbreaks, hrows, hname⟩
      exact ⟨by simp [hrows], hbreaks, fun _ => ⟨hrows, hname⟩⟩
    · intro hb
      exact ⟨hb.breaks, hb.no_mark hmark⟩
  · rw [parseCsv_of_not_mark h hmark]
    constructor
    · rintro ⟨hblank, hbreaks⟩
      exact ⟨hblank, hbreaks, fun h => absurd h hmark⟩
    · intro hb
      exact ⟨hb.no_blank, hb.breaks⟩

end Table

/-! ## Long records -/

/-- Every record that is a row keeps all of its fields. -/
def KeepsFields (text : Text) : Prop :=
  ∀ header rest rows, splitRecords maxCsvRows (stripMark text) = .ok (header :: rest) →
    parseCsv text = .ok rows →
    List.Forall₂ (fun fields row => fields <+: row.map Prod.snd)
      (rest.filter fun fields => fields ≠ [[]]) rows

/-- No record has more fields than there are columns, unless the text is
refused for its names. -/
def NoLongRecord (text : Text) : Prop :=
  ∀ header rest, splitRecords maxCsvRows (stripMark text) = .ok (header :: rest) →
    header.Nodup → ∀ fields ∈ rest, fields ≠ [[]] → fields.length ≤ header.length

theorem map_snd_rowOf (header fields : List Text) : (rowOf header fields).map Prod.snd =
    (List.range header.length).map fun i => (fields[i]?).getD [] := by
  refine List.ext_getElem (by simp [rowOf]) fun i _ _ => ?_
  simp [rowOf]

theorem prefix_rowOf_iff {header fields : List Text} :
    fields <+: (rowOf header fields).map Prod.snd ↔ fields.length ≤ header.length := by
  rw [map_snd_rowOf]
  constructor
  · intro h
    simpa using h.length_le
  · intro hle
    rw [List.prefix_iff_getElem]
    refine ⟨by simpa using hle, fun i hi => ?_⟩
    simp [List.getElem?_eq_getElem hi]

theorem keepsFields_iff (text : Text) : KeepsFields text ↔ NoLongRecord text := by
  constructor
  · intro h header rest hsplit hnodup fields hm hne
    have hparse := (Table.parseCsv_of_split hsplit).trans (Table.rowsOf_cons hnodup)
    have hrows := h header rest _ hsplit hparse
    rw [List.forall₂_map_right_iff, List.forall₂_same] at hrows
    exact prefix_rowOf_iff.1 (hrows fields (List.mem_filter.2 ⟨hm, by simpa using hne⟩))
  · intro h header rest rows hsplit hparse
    rw [Table.parseCsv_of_split hsplit] at hparse
    by_cases hnodup : header.Nodup
    · rw [Table.rowsOf_cons hnodup] at hparse
      obtain rfl := Except.ok.inj hparse
      rw [List.forall₂_map_right_iff, List.forall₂_same]
      intro fields hm
      obtain ⟨hm, hne⟩ := List.mem_filter.1 hm
      exact prefix_rowOf_iff.2 (h header rest hsplit hnodup fields hm (by simpa using hne))
    · have hd : duplicate [] header ≠ none := fun hd => hnodup (duplicate_eq_none.1 hd).1
      obtain ⟨x, hx⟩ := Option.ne_none_iff_exists'.1 hd
      simp [rowsOf, hx] at hparse

/-- **Data of a text.** A table is read back from a text exactly if none of its
rows is one empty field (and it is within the limits), and no record loses
fields exactly if none is longer than the header. -/
theorem parseCsv_lossless_iff (t : Table) (final : Bool) (text : Text) :
    (t.Encodes final text → (parseCsv text = .ok t.byName ↔ t.ReadsBack final text)) ∧
      (KeepsFields text ↔ NoLongRecord text) :=
  ⟨Table.parseCsv_encodes, keepsFields_iff text⟩

/-- Two columns, of which one holds a comma. -/
def prices : Table where
  header := [['A'], ['B']]
  rows := [[['1'], ['x', ',']]]
  header_ne := by decide
  named := by decide
  nodup := by decide
  width := by decide

def pricesText : Text := ['A', ',', 'B', '\r', '\n', '1', ',', '"', 'x', ',', '"', '\n']

theorem parseCsv_prices : parseCsv pricesText = .ok prices.byName := by
  have hheader : RecordText [['A'], ['B']] ['A', ',', 'B'] :=
    ⟨[['A'], ['B']], .cons (.of_all (by decide)) (.cons (.of_all (by decide)) .nil), rfl⟩
  have hrow : RecordText [['1'], ['x', ',']] ['1', ',', '"', 'x', ',', '"'] :=
    ⟨[['1'], ['"', 'x', ',', '"']],
      .cons (.of_all (by decide)) (.cons (.quoted ['x', ',']) .nil), rfl⟩
  have hlines : prices.Encodes true pricesText := .cons hheader .crlf (.closed hrow .lf)
  refine ((parseCsv_lossless_iff prices true pricesText).1 hlines).2 ⟨by decide, by decide, ?_⟩
  intro hmark
  exact absurd hmark (by decide)

/-- One column, and one row, of which the field is empty. -/
def blank : Table where
  header := [['A']]
  rows := [[[]]]
  header_ne := by decide
  named := by decide
  nodup := by decide
  width := by decide

/-- The row is lost, and so is a field without a column. -/
theorem parseCsv_loses : (blank.Encodes true ['A', '\n', '\n'] ∧
    parseCsv ['A', '\n', '\n'] = .ok [] ∧ blank.byName = [[(['A'], [])]]) ∧
    splitRecords maxCsvRows ['A', '\n', '1', ',', '2'] = .ok [[['A']], [['1'], ['2']]] ∧
    parseCsv ['A', '\n', '1', ',', '2'] = .ok [[(['A'], ['1'])]] := by
  refine ⟨⟨?_, by decide, rfl⟩, by decide, by decide⟩
  have hheader : RecordText [['A']] ['A'] := ⟨[['A']], .cons (.of_all (by decide)) .nil, rfl⟩
  have hrow : RecordText [[]] [] := ⟨[[]], .cons (.of_all (by decide)) .nil, rfl⟩
  exact .cons hheader .lf (.closed hrow .lf)

end Csv

end Epiphany
