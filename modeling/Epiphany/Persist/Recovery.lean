import Epiphany.Core.Cube
import Epiphany.Persist.Frames
/-!
# The write-ahead log — recovery from a cut

A log is the header and one unit after another: a cell or a pin record, or a
batch between its markers, each written by one append. A crash cuts the log
somewhere. Replay gives back the units that are whole and takes what is left
of the cut one for a torn tail, unless that remainder holds a frame of its
own: cell text is free bytes, and text that spells a frame is mistaken for
records past a corrupt one (`recovers_iff`).
-/

namespace Epiphany

/-- A single write in a batch. -/
inductive CellWrite where
  | leaf (coord : List UInt32) (value : Fixed)
  | str (coord : List UInt32) (value : String)
deriving DecidableEq

def CellWrite.record : CellWrite → Wal.Record
  | .leaf coord value => .setLeaf coord value
  | .str coord value => .setString coord value

namespace Wal

open Bytes

/-! ## Units -/

/-- What one append writes. -/
inductive Append where
  | cell (write : CellWrite)
  | pin (dimension element : String) (pinned : Bool)
  | batch (writes : List CellWrite)
deriving DecidableEq

namespace Append

/-- The records a unit commits. -/
def records : Append → List Record
  | .cell write => [write.record]
  | .pin dimension element pinned => [.setPin dimension element pinned]
  | .batch writes => writes.map CellWrite.record

/-- The records a unit writes, markers included. -/
def frames : Append → List Record
  | .batch writes =>
    .batchBegin (UInt32.ofNat writes.length) :: (writes.map CellWrite.record ++ [.batchEnd])
  | u => u.records

def framed (u : Append) : List UInt8 := u.frames.flatMap encode

end Append

/-- The log file of a sequence of appends. -/
def log (us : List Append) : List UInt8 := header ++ us.flatMap Append.framed

/-! ## Cuts -/

/-- What a cut leaves: the whole units, and the records and the surviving
bytes of the unit it falls in. -/
structure Cut where
  whole : List Append
  tornFrames : List Record
  tornBytes : List UInt8

/-- Cut the units at a byte offset. -/
def cut : List Append → Nat → Cut
  | [], _ => ⟨[], [], []⟩
  | u :: us, n =>
    if u.framed.length ≤ n then
      { cut us (n - u.framed.length) with
        whole := u :: (cut us (n - u.framed.length)).whole }
    else ⟨[], u.frames, u.framed.take n⟩

/-- What is left of a torn unit past its leading frames that are whole and
read back. -/
def unread : List Record → List UInt8 → List UInt8
  | [], bytes => bytes
  | r :: rs, bytes =>
    if (encode r).length ≤ bytes.length ∧ (payload r).length < 2 ^ 32 ∧
        (decode (payload r)).isSome then
      unread rs (bytes.drop (encode r).length)
    else bytes

/-- **Replay recovers a log cut at an offset**: the records of the whole
units, the length they end at, and no corruption. -/
def Recovers (us : List Append) (n : Nat) : Prop :=
  replay ((log us).take n) = .ok
    { records := (cut us (n - headerLen)).whole.flatMap Append.records
      goodLen := headerLen + ((cut us (n - headerLen)).whole.flatMap Append.framed).length
      corruptWithValidTail := false }

instance (us : List Append) (n : Nat) : Decidable (Recovers us n) :=
  inferInstanceAs (Decidable (_ = _))

variable {us : List Append} {n : Nat} {bytes pre post : List UInt8} {r : Record}

/-- A cut is the whole units and a proper prefix of the next. -/
theorem cut_spec (us : List Append) (n : Nat) :
    (us.flatMap Append.framed).take n =
        (cut us n).whole.flatMap Append.framed ++ (cut us n).tornBytes ∧
      (((cut us n).tornFrames = [] ∧ (cut us n).tornBytes = []) ∨
        ∃ (u : Append) (k : Nat), (cut us n).tornFrames = u.frames ∧
          (cut us n).tornBytes = u.framed.take k ∧
          k < u.framed.length) := by
  induction us generalizing n with
  | nil => simp [cut]
  | cons u us ih =>
    rw [cut]
    split_ifs with h
    · obtain ⟨htake, htorn⟩ := ih (n - u.framed.length)
      refine ⟨?_, htorn⟩
      rw [List.flatMap_cons, List.take_append, List.take_of_length_le h, htake,
        List.flatMap_cons, List.append_assoc]
    · refine ⟨?_, Or.inr ⟨u, n, rfl, rfl, Nat.not_le.1 h⟩⟩
      rw [List.flatMap_cons, List.take_append_of_le_length (Nat.le_of_not_le h)]
      rfl

/-! ## The scan -/

theorem Scan.pos_accept {s next : Scan} {e : Nat} (h : s.accept r e = some next) :
    next.pos = e := by
  cases r with
  | batchBegin =>
    cases h
    rfl
  | batchEnd =>
    unfold Scan.accept at h
    rcases hb : s.batch with _ | buffered
    · simp [hb] at h
    · simp only [hb, Option.some.injEq] at h
      rw [← h]
  | _ =>
    unfold Scan.accept at h
    rcases hb : s.batch with _ | buffered
    all_goals
      simp only [hb, Option.some.injEq] at h
      rw [← h]

/-- Fuel beyond the bytes changes nothing. -/
theorem replayLoop_fuel {n m : Nat} {s : Scan} (hn : bytes.length ≤ s.pos + n)
    (hm : bytes.length ≤ s.pos + m) : replayLoop bytes n s = replayLoop bytes m s := by
  induction n generalizing m s with
  | zero =>
    cases m with
    | zero => rfl
    | succ m => rw [replayLoop, replayLoop, if_pos (by omega)]
  | succ n ih =>
    cases m with
    | zero => rw [replayLoop, replayLoop, if_pos (by omega)]
    | succ m =>
      rw [replayLoop, replayLoop]
      split_ifs with hstop
      · rfl
      · rcases hf : frameAt (bytes.drop s.pos) with _ | ⟨r, size⟩
        · rfl
        · rcases ha : s.accept r (s.pos + size) with _ | next
          · simp only [ha]
          · obtain ⟨p, y, -, -, -, rfl⟩ := frameAt_eq_some.1 hf
            have hpos := Scan.pos_accept ha
            simp only [ha]
            exact ih (by omega) (by omega)

/-- The scan of a log from a state on. -/
def scan (bytes : List UInt8) (s : Scan) : Scan := replayLoop bytes (bytes.length - s.pos) s

theorem scan_stop {s : Scan} (h : bytes.length < s.pos + 4) : scan bytes s = s := by
  rw [scan]
  cases bytes.length - s.pos with
  | zero => rfl
  | succ n => rw [replayLoop, if_pos h]

theorem scan_break {s : Scan} (h : s.pos + 4 ≤ bytes.length)
    (hf : frameAt (bytes.drop s.pos) = none) :
    scan bytes s = { s with breakPos := some s.pos } := by
  rw [scan, show bytes.length - s.pos = (bytes.length - s.pos - 1) + 1 by omega, replayLoop,
    if_neg (by omega), hf]

theorem scan_step {s next : Scan} {size : Nat}
    (hf : frameAt (bytes.drop s.pos) = some (r, size))
    (ha : s.accept r (s.pos + size) = some next) : scan bytes s = scan bytes next := by
  obtain ⟨p, y, hdrop, -, -, rfl⟩ := frameAt_eq_some.1 hf
  have hlen := congrArg List.length hdrop
  rw [List.length_drop, List.length_append, Framing.length_frame] at hlen
  have hpos := Scan.pos_accept ha
  rw [scan, show bytes.length - s.pos = (bytes.length - s.pos - 1) + 1 by omega, replayLoop,
    if_neg (by omega), hf]
  simp only [ha]
  exact replayLoop_fuel (by omega) (by omega)

/-- The scan reads a frame written at its position. -/
theorem scan_encode {s next : Scan} {r' : Record} (hlen : (payload r).length < 2 ^ 32)
    (hdec : decode (payload r) = some r') (hbytes : bytes = pre ++ (encode r ++ post))
    (hpos : s.pos = pre.length) (ha : s.accept r' (pre ++ encode r).length = some next) :
    scan bytes s = scan bytes next := by
  have hframe : frameAt (bytes.drop s.pos) = some (r', (payload r).length + 8) := by
    rw [hbytes, hpos, List.drop_left, encode, frameAt_frame hlen, hdec, Option.map_some]
  refine scan_step hframe ?_
  rw [hpos, ← ha, List.length_append, length_encode]

/-! ## Whole units -/

/-- A record that stands in a log by itself. -/
def Record.isCell : Record → Bool
  | .batchBegin _ | .batchEnd => false
  | _ => true

theorem Scan.accept_cell {s : Scan} {e : Nat} (h : r.isCell = true) :
    s.accept r e = some (match s.batch with
      | some buffered => { s with batch := some (buffered ++ [r]), pos := e }
      | none => { s with records := s.records ++ [r], good := e, pos := e }) := by
  cases r with
  | batchBegin => cases h
  | batchEnd => cases h
  | _ =>
    unfold Scan.accept
    rcases s.batch with _ | buffered <;> rfl

theorem isCell_record (w : CellWrite) : w.record.isCell = true := by
  cases w <;> rfl

/-- The scan buffers the cells of a batch. -/
theorem scan_buffer {rs : List Record} (hcell : ∀ r ∈ rs, r.isCell = true)
    (hfits : ∀ r ∈ rs, r.Fits) {recs buffered : List Record} {good : Nat}
    (hbytes : bytes = pre ++ (rs.flatMap encode ++ post)) :
    scan bytes ⟨recs, good, some buffered, pre.length, none⟩ =
      scan bytes ⟨recs, good, some (buffered ++ rs), (pre ++ rs.flatMap encode).length, none⟩ := by
  induction rs generalizing pre buffered with
  | nil => simp
  | cons r rs ih =>
    have hr := hfits r List.mem_cons_self
    rw [List.flatMap_cons, List.append_assoc] at hbytes
    rw [scan_encode hr.length (decode_payload hr) hbytes rfl
      (Scan.accept_cell (hcell r List.mem_cons_self))]
    simp only
    rw [ih (fun x hx => hcell x (List.mem_cons_of_mem _ hx))
      (fun x hx => hfits x (List.mem_cons_of_mem _ hx))
      (hbytes.trans (List.append_assoc _ _ _).symm)]
    simp only [List.flatMap_cons, List.append_assoc, List.cons_append, List.nil_append]

/-- **The scan commits a whole unit.** -/
theorem scan_unit {u : Append} (hfits : ∀ r ∈ u.frames, r.Fits) {recs : List Record} {good : Nat}
    (hbytes : bytes = pre ++ (u.framed ++ post)) :
    scan bytes ⟨recs, good, none, pre.length, none⟩ =
      scan bytes ⟨recs ++ u.records, (pre ++ u.framed).length, none,
        (pre ++ u.framed).length, none⟩ := by
  have hsingle : ∀ r : Record, r.isCell = true → u.frames = [r] → u.records = [r] →
      scan bytes ⟨recs, good, none, pre.length, none⟩ =
        scan bytes ⟨recs ++ u.records, (pre ++ u.framed).length, none,
          (pre ++ u.framed).length, none⟩ := by
    intro r hr hf hrec
    have hfit := hfits r (hf ▸ List.mem_singleton_self r)
    have hframed : u.framed = encode r := by simp [Append.framed, hf]
    rw [hframed] at hbytes ⊢
    rw [scan_encode hfit.length (decode_payload hfit) hbytes rfl (Scan.accept_cell hr), hrec]
  cases u with
  | cell w => exact hsingle _ (isCell_record w) rfl rfl
  | pin d e b => exact hsingle _ rfl rfl rfl
  | batch ws =>
    have hframed : (Append.batch ws).framed = encode (.batchBegin (UInt32.ofNat ws.length)) ++
        ((ws.map CellWrite.record).flatMap encode ++ encode .batchEnd) := by
      simp [Append.framed, Append.frames]
    have hbegin := hfits _ (List.mem_cons_self)
    have hcells : ∀ r ∈ ws.map CellWrite.record, r.Fits := fun r hr =>
      hfits r (List.mem_cons_of_mem _ (List.mem_append_left _ hr))
    have hend : Record.batchEnd.Fits := hfits _
      (List.mem_cons_of_mem _ (List.mem_append_right _ (List.mem_singleton_self _)))
    have hcell : ∀ r ∈ ws.map CellWrite.record, r.isCell = true := by
      intro r hr
      obtain ⟨w, -, rfl⟩ := List.mem_map.1 hr
      exact isCell_record w
    rw [hframed] at hbytes ⊢
    rw [scan_encode hbegin.length (decode_payload hbegin)
      (show bytes = pre ++ (encode _ ++ ((ws.map CellWrite.record).flatMap encode ++
        (encode .batchEnd ++ post))) by rw [hbytes]; simp only [List.append_assoc]) rfl rfl]
    simp only
    rw [scan_buffer hcell hcells
      (show bytes = _ ++ (_ ++ (encode .batchEnd ++ post)) by
        rw [hbytes]; simp only [List.append_assoc])]
    rw [scan_encode hend.length (decode_payload hend)
      (show bytes = _ ++ (encode .batchEnd ++ post) by
        rw [hbytes]; simp only [List.append_assoc]) rfl rfl]
    simp only [List.append_assoc, List.nil_append, Append.records]

/-- **The scan commits every whole unit**, by induction on the units. -/
theorem scan_units {us : List Append} (hfits : ∀ u ∈ us, ∀ r ∈ u.frames, r.Fits)
    (recs : List Record) (hbytes : bytes = pre ++ (us.flatMap Append.framed ++ post)) :
    scan bytes ⟨recs, pre.length, none, pre.length, none⟩ =
      scan bytes ⟨recs ++ us.flatMap Append.records, (pre ++ us.flatMap Append.framed).length,
        none, (pre ++ us.flatMap Append.framed).length, none⟩ := by
  induction us generalizing pre recs with
  | nil => simp
  | cons u us ih =>
    rw [List.flatMap_cons, List.append_assoc] at hbytes
    rw [scan_unit (hfits u List.mem_cons_self) hbytes,
      ih (fun x hx => hfits x (List.mem_cons_of_mem _ hx)) _
        (hbytes.trans (List.append_assoc _ _ _).symm)]
    simp only [List.flatMap_cons, List.append_assoc]

/-! ## The torn unit -/

/-- A cell's payload reads back as a cell, if it reads back. -/
theorem isCell_of_decode {r' : Record} (hr : r.isCell = true)
    (h : decode (payload r) = some r') : r'.isCell = true := by
  cases r with
  | batchBegin => cases hr
  | batchEnd => cases hr
  | setLeaf coord value =>
    simp only [payload, decode, if_true, Option.bind_eq_bind, Option.bind_eq_some_iff,
      Option.some.injEq, Prod.exists] at h
    obtain ⟨_, _, -, _, _, -, rfl⟩ := h
    rfl
  | setString coord value =>
    have hop : opSetString ≠ opSetLeaf := by decide
    simp only [payload, decode, if_neg hop, if_true, Option.bind_eq_bind,
      Option.bind_eq_some_iff, Option.some.injEq, Prod.exists] at h
    obtain ⟨_, _, -, _, _, -, rfl⟩ := h
    rfl
  | setPin dimension element pinned =>
    have h1 : opSetPin ≠ opSetLeaf := by decide
    have h2 : opSetPin ≠ opSetString := by decide
    have h3 : opSetPin ≠ opBatchBegin := by decide
    have h4 : opSetPin ≠ opBatchEnd := by decide
    simp only [payload, decode, if_neg h1, if_neg h2, if_neg h3, if_neg h4, if_true,
      Option.bind_eq_bind, Option.bind_eq_some_iff, Option.some.injEq, Prod.exists] at h
    obtain ⟨_, _, -, _, _, -, _, _, -, rfl⟩ := h
    rfl

theorem unread_suffix (rs : List Record) (rest : List UInt8) : unread rs rest <:+ rest := by
  induction rs generalizing rest with
  | nil => exact List.suffix_rfl
  | cons r rs ih =>
    rw [unread]
    split_ifs
    · exact (ih _).trans (List.drop_suffix _ _)
    · exact List.suffix_rfl

/-- A cut of frames that reaches past the first is the first and a cut of
the rest. -/
theorem take_flatMap_cons {rs : List Record} {k : Nat} (h : (encode r).length ≤ k) :
    ((r :: rs).flatMap encode).take k =
      encode r ++ (rs.flatMap encode).take (k - (encode r).length) := by
  rw [List.flatMap_cons, List.take_append, List.take_of_length_le h]

/-- The scan of a torn batch buffers what it can read and commits
nothing. -/
theorem scan_torn_batch {rs : List Record} (hcell : ∀ r ∈ rs, r.isCell = true)
    (recs buffered : List Record) (good : Nat) {k : Nat}
    (hk : k < ((rs ++ [Record.batchEnd]).flatMap encode).length)
    (hbytes : bytes = pre ++ ((rs ++ [Record.batchEnd]).flatMap encode).take k) :
    ∃ b, scan bytes ⟨recs, good, some buffered, pre.length, none⟩ =
      scan bytes ⟨recs, good, some b, bytes.length -
        (unread (rs ++ [Record.batchEnd]) (((rs ++ [Record.batchEnd]).flatMap encode).take k)).length,
        none⟩ := by
  have hstay : ∀ t : List UInt8, bytes = pre ++ t → bytes.length - t.length = pre.length := by
    rintro t rfl
    rw [List.length_append, Nat.add_sub_cancel]
  induction rs generalizing pre buffered k with
  | nil =>
    refine ⟨buffered, ?_⟩
    rw [List.nil_append] at hk hbytes ⊢
    rw [unread, if_neg, hstay _ hbytes]
    rintro ⟨h, -⟩
    rw [List.length_take] at h
    simp only [List.flatMap_cons, List.flatMap_nil, List.append_nil] at hk h
    omega
  | cons r rs ih =>
    rw [List.cons_append] at hk hbytes ⊢
    rw [unread]
    split_ifs with h
    · obtain ⟨hlen, hsize, hread⟩ := h
      obtain ⟨r', hr'⟩ := Option.isSome_iff_exists.1 hread
      rw [List.length_take] at hlen
      have hkr : (encode r).length ≤ k := by omega
      rw [take_flatMap_cons hkr] at hbytes ⊢
      rw [List.flatMap_cons, List.length_append] at hk
      rw [List.drop_left, scan_encode hsize hr' hbytes rfl
        (Scan.accept_cell (isCell_of_decode (hcell r List.mem_cons_self) hr'))]
      refine ih (fun x hx => hcell x (List.mem_cons_of_mem _ hx)) _ (by omega) ?_ ?_
      · rw [hbytes, List.append_assoc]
      · rintro t ht
        rw [ht, List.length_append, Nat.add_sub_cancel]
    · exact ⟨buffered, by rw [hstay _ hbytes]⟩

/-- **The scan of a torn unit commits nothing**: it stands at what is left
unread. -/
theorem scan_torn {u : Append} (recs : List Record) (good : Nat) {k : Nat} (hk : k < u.framed.length)
    (hbytes : bytes = pre ++ u.framed.take k) :
    ∃ b, scan bytes ⟨recs, good, none, pre.length, none⟩ =
      scan bytes ⟨recs, good, b, bytes.length - (unread u.frames (u.framed.take k)).length,
        none⟩ := by
  have hstay : bytes.length - (u.framed.take k).length = pre.length := by
    rw [hbytes, List.length_append, Nat.add_sub_cancel]
  have hsingle : ∀ r : Record, u.frames = [r] →
      ∃ b, scan bytes ⟨recs, good, none, pre.length, none⟩ =
        scan bytes ⟨recs, good, b, bytes.length - (unread u.frames (u.framed.take k)).length,
          none⟩ := by
    intro r hr
    refine ⟨none, ?_⟩
    have hframed : u.framed = encode r := by simp [Append.framed, hr]
    rw [hr, unread, if_neg, hstay]
    rintro ⟨h, -⟩
    rw [List.length_take, hframed] at h
    rw [hframed] at hk
    omega
  cases u with
  | cell w => exact hsingle _ rfl
  | pin d e b => exact hsingle _ rfl
  | batch ws =>
    have hcell : ∀ r ∈ ws.map CellWrite.record, r.isCell = true := by
      intro r hr
      obtain ⟨w, -, rfl⟩ := List.mem_map.1 hr
      exact isCell_record w
    by_cases h : (encode (.batchBegin (UInt32.ofNat ws.length))).length ≤ k
    · have hbegin : (Record.batchBegin (UInt32.ofNat ws.length)).Fits :=
        ⟨by simp [Record.rank], by simp [payload]⟩
      rw [Append.framed, Append.frames] at hk hbytes ⊢
      rw [take_flatMap_cons h] at hbytes ⊢
      rw [unread, if_pos ⟨by simp, hbegin.length, by rw [decode_payload hbegin]; rfl⟩,
        List.drop_left, scan_encode hbegin.length (decode_payload hbegin) hbytes rfl rfl]
      rw [List.flatMap_cons, List.length_append] at hk
      obtain ⟨b, hb⟩ := scan_torn_batch hcell recs [] good
        (show k - (encode (.batchBegin (UInt32.ofNat ws.length))).length < _ by omega)
        (hbytes.trans (List.append_assoc _ _ _).symm)
      exact ⟨some b, hb⟩
    · refine ⟨none, ?_⟩
      rw [Append.frames, unread, if_neg, hstay]
      rintro ⟨h', -⟩
      rw [List.length_take] at h'
      omega

/-- What is left unread starts with no frame, when the torn records' lengths
fit. -/
theorem frameAt_unread {rs : List Record} (hsize : ∀ r ∈ rs, (payload r).length < 2 ^ 32)
    {k : Nat} (hk : k < (rs.flatMap encode).length) :
    frameAt (unread rs ((rs.flatMap encode).take k)) = none := by
  induction rs generalizing k with
  | nil => simp at hk
  | cons r rs ih =>
    have hr := hsize r List.mem_cons_self
    rw [unread]
    split_ifs with h
    · have hkr : (encode r).length ≤ k := h.1.trans (List.length_take_le _ _)
      rw [List.flatMap_cons, List.length_append] at hk
      rw [take_flatMap_cons hkr, List.drop_left]
      exact ih (fun x hx => hsize x (List.mem_cons_of_mem _ hx)) (by omega)
    · by_cases hkr : (encode r).length ≤ k
      · rw [take_flatMap_cons hkr] at h ⊢
        rw [encode, frameAt_frame hr, Option.map_eq_none_iff]
        rw [List.length_append] at h
        by_contra hdec
        exact h ⟨Nat.le_add_right _ _, hr, Option.isSome_iff_ne_none.2 hdec⟩
      · rw [List.flatMap_cons, List.take_append_of_le_length (Nat.le_of_not_le hkr)]
        exact frameAt_take hr (Nat.not_le.1 hkr)

/-! ## What replay returns -/

/-- Replay of a file with a good header, through the scan. -/
theorem replay_header (body : List UInt8) :
    replay (header ++ body) = .ok
      { records := (scan (header ++ body) ⟨[], headerLen, none, headerLen, none⟩).records
        goodLen := (scan (header ++ body) ⟨[], headerLen, none, headerLen, none⟩).good
        corruptWithValidTail :=
          ((scan (header ++ body) ⟨[], headerLen, none, headerLen, none⟩).breakPos.map
            (hasIntactFrameAfter (header ++ body))).getD false } := by
  have hlen : headerLen ≤ (header ++ body).length := by
    rw [List.length_append]
    exact Nat.le_add_right _ _
  have htake : (header ++ body).take headerLen = header := List.take_left' rfl
  have hscan : replayLoop (header ++ body) (header ++ body).length
      ⟨[], headerLen, none, headerLen, none⟩ =
      scan (header ++ body) ⟨[], headerLen, none, headerLen, none⟩ :=
    replayLoop_fuel (by simp only; omega) (by simp only; omega)
  rw [replay, if_neg (by rw [htake]; simp only [ne_eq, not_true_eq_false, or_false]; omega)]
  simp only [hscan]
  rcases (scan (header ++ body) ⟨[], headerLen, none, headerLen, none⟩).breakPos with _ | bp <;> rfl

theorem length_of_intact {f : List UInt8} (h : Intact f) : 8 ≤ f.length := by
  obtain ⟨p, rfl, -, -⟩ := h
  rw [Framing.length_frame]
  omega

theorem holdsFrame_iff {t : List UInt8} :
    HoldsFrame t ↔ (frameAt t).isSome ∨ HoldsFrame (t.drop 1) := by
  rw [frameAt_isSome]
  constructor
  · rintro ⟨x, f, y, rfl, hf⟩
    rcases x with _ | ⟨b, x⟩
    · exact Or.inl ⟨f, y, rfl, hf⟩
    · exact Or.inr ⟨x, f, y, rfl, hf⟩
  · rintro (⟨f, y, rfl, hf⟩ | ⟨x, f, y, h, hf⟩)
    · exact ⟨[], f, y, rfl, hf⟩
    · refine ⟨t.take 1 ++ x, f, y, ?_, hf⟩
      rw [List.append_assoc, List.append_assoc, ← List.append_assoc x, ← h,
        List.take_append_drop]

/-- **Where the scan ends**: before a tail that starts with no frame it
stops, and takes the log for corrupt when the tail holds one. -/
theorem scan_tail {t : List UInt8} (ht : t <:+ bytes) (hf : frameAt t = none)
    {recs : List Record} {good : Nat} {b : Option (List Record)} :
    ∃ bp, scan bytes ⟨recs, good, b, bytes.length - t.length, none⟩ =
        ⟨recs, good, b, bytes.length - t.length, bp⟩ ∧
      ((bp.map (hasIntactFrameAfter bytes)).getD false = true ↔ HoldsFrame t) := by
  obtain ⟨pre, rfl⟩ := ht
  have hpos : (pre ++ t).length - t.length = pre.length := by
    rw [List.length_append, Nat.add_sub_cancel]
  rw [hpos]
  by_cases h4 : t.length < 4
  · refine ⟨none, scan_stop (by simp only [List.length_append]; omega), ?_⟩
    refine iff_of_false (by simp) ?_
    rintro ⟨x, f, y, rfl, hfr⟩
    have := length_of_intact hfr
    simp only [List.length_append] at h4
    omega
  · refine ⟨some pre.length, scan_break (by simp only [List.length_append]; omega) ?_, ?_⟩
    · simpa only [List.drop_left] using hf
    · rw [holdsFrame_iff, hf, Option.map_some, Option.getD_some, hasIntactFrameAfter,
        any_tails_frameAt, ← List.drop_drop, List.drop_left]
      simp

/-! ## What replay returns fits -/

/-- Every record a scan holds fits. -/
structure Scan.AllFit (s : Scan) : Prop where
  records : ∀ r ∈ s.records, r.Fits
  batch : ∀ b, s.batch = some b → ∀ r ∈ b, r.Fits

theorem Scan.AllFit.accept {s next : Scan} (hs : s.AllFit) (hr : r.Fits) {e : Nat}
    (h : s.accept r e = some next) : next.AllFit := by
  by_cases hcell : r.isCell = true
  · rw [Scan.accept_cell hcell, Option.some.injEq] at h
    rcases hb : s.batch with _ | buffered
    · simp only [hb] at h
      rw [← h]
      refine ⟨fun x hx => ?_, fun b hb' => ?_⟩
      · rcases List.mem_append.1 hx with hx | hx
        · exact hs.records x hx
        · exact List.mem_singleton.1 hx ▸ hr
      · cases hb'
    · simp only [hb] at h
      rw [← h]
      refine ⟨hs.records, ?_⟩
      rintro b ⟨⟩ x hx
      rcases List.mem_append.1 hx with hx | hx
      · exact hs.batch _ hb x hx
      · exact List.mem_singleton.1 hx ▸ hr
  · cases r with
    | batchBegin =>
      cases h
      exact ⟨hs.records, by rintro b ⟨⟩ x hx; simp at hx⟩
    | batchEnd =>
      unfold Scan.accept at h
      rcases hb : s.batch with _ | buffered
      · simp [hb] at h
      · simp only [hb, Option.some.injEq] at h
        rw [← h]
        refine ⟨fun x hx => ?_, by rintro b ⟨⟩⟩
        rcases List.mem_append.1 hx with hx | hx
        · exact hs.records x hx
        · exact hs.batch _ hb x hx
    | _ => exact absurd rfl hcell

theorem Scan.AllFit.replayLoop {n : Nat} {s : Scan} (hs : s.AllFit) :
    (replayLoop bytes n s).AllFit := by
  induction n generalizing s with
  | zero => exact hs
  | succ n ih =>
    rw [Wal.replayLoop]
    split_ifs
    · exact hs
    · rcases hf : frameAt (bytes.drop s.pos) with _ | ⟨r, size⟩
      · exact ⟨hs.records, hs.batch⟩
      · obtain ⟨p, y, -, hp, hdec, -⟩ := frameAt_eq_some.1 hf
        rcases ha : s.accept r (s.pos + size) with _ | next
        · simp only [ha]
          exact ⟨hs.records, hs.batch⟩
        · simp only [ha]
          exact ih (hs.accept (fits_of_decode hdec hp) ha)

theorem Append.fits_frames {u : Append} (h : ∀ r ∈ u.records, r.Fits) :
    ∀ r ∈ u.frames, r.Fits := by
  cases u with
  | batch ws =>
    intro r hr
    rcases List.mem_cons.1 hr with rfl | hr
    · exact ⟨by simp [Record.rank], by simp [payload]⟩
    · rcases List.mem_append.1 hr with hr | hr
      · exact h r hr
      · rw [List.mem_singleton.1 hr]
        exact ⟨by simp [Record.rank], by simp [payload]⟩
  | _ => exact h

/-! ## Recovery -/

/-- **A cut log is legible**: every record of its whole units fits the
format, and what is left of the torn unit past its readable frames holds no
well-formed frame. -/
structure Legible (us : List Append) (n : Nat) : Prop where
  fits : ∀ u ∈ (cut us (n - headerLen)).whole, ∀ r ∈ u.frames, r.Fits
  unread : ¬ HoldsFrame (unread (cut us (n - headerLen)).tornFrames
    (cut us (n - headerLen)).tornBytes)

/-- With the whole units legible, replay recovers the cut exactly when it
takes nothing in the unread tail for a frame. -/
theorem recovers_iff_of_fits (hn : headerLen ≤ n)
    (hfits : ∀ u ∈ (cut us (n - headerLen)).whole, ∀ r ∈ u.frames, r.Fits)
    (hf : frameAt (unread (cut us (n - headerLen)).tornFrames
      (cut us (n - headerLen)).tornBytes) = none) :
    Recovers us n ↔ ¬ HoldsFrame (unread (cut us (n - headerLen)).tornFrames
      (cut us (n - headerLen)).tornBytes) := by
  obtain ⟨htake, htorn⟩ := cut_spec us (n - headerLen)
  have hlog : (log us).take n = header ++
      ((cut us (n - headerLen)).whole.flatMap Append.framed ++
        (cut us (n - headerLen)).tornBytes) := by
    rw [← htake, log, List.take_append, List.take_of_length_le (show header.length ≤ n from hn)]
    rfl
  have hunits := scan_units hfits [] hlog
  have hstand : ∃ b, scan ((log us).take n) ⟨[], headerLen, none, headerLen, none⟩ =
      scan ((log us).take n) ⟨(cut us (n - headerLen)).whole.flatMap Append.records,
        headerLen + ((cut us (n - headerLen)).whole.flatMap Append.framed).length, b,
        ((log us).take n).length - (Wal.unread (cut us (n - headerLen)).tornFrames
          (cut us (n - headerLen)).tornBytes).length, none⟩ := by
    have hstart : header.length = headerLen := rfl
    rw [List.length_append, hstart, List.nil_append] at hunits
    rcases htorn with ⟨hnil, hbytes⟩ | ⟨u, k, hframes, hbytes, hk⟩
    · refine ⟨none, hunits.trans ?_⟩
      rw [hlog, hnil, hbytes, Wal.unread]
      simp [hstart]
    · rw [hbytes, ← List.append_assoc] at hlog
      obtain ⟨b, hb⟩ := scan_torn ((cut us (n - headerLen)).whole.flatMap Append.records)
        (headerLen + ((cut us (n - headerLen)).whole.flatMap Append.framed).length) hk hlog
      refine ⟨b, hunits.trans ?_⟩
      rw [hframes, hbytes, ← hb, List.length_append, hstart]
  obtain ⟨b, hb⟩ := hstand
  have hsuffix : Wal.unread (cut us (n - headerLen)).tornFrames
      (cut us (n - headerLen)).tornBytes <:+ (log us).take n := by
    rw [hlog, ← List.append_assoc]
    exact (unread_suffix _ _).trans (List.suffix_append _ _)
  obtain ⟨bp, hscan, hbp⟩ := scan_tail hsuffix hf
  rw [hscan] at hb
  rw [Recovers, hlog, replay_header, ← hlog, hb]
  simp only [Except.ok.injEq, Replay.mk.injEq, true_and]
  rw [← hbp, Bool.not_eq_true]

/-- **Recovery from a cut.** A legible cut is recovered; and where the torn
records' lengths fit their field, only a legible cut is. -/
theorem recovers_iff (us : List Append) (n : Nat) (hn : headerLen ≤ n) :
    (Legible us n → Recovers us n) ∧
      ((∀ r ∈ (cut us (n - headerLen)).tornFrames, (payload r).length < 2 ^ 32) →
        Recovers us n → Legible us n) := by
  refine ⟨fun h => ?_, fun hsize h => ?_⟩
  · refine (recovers_iff_of_fits hn h.fits ?_).2 h.unread
    rw [← Option.not_isSome_iff_eq_none]
    exact fun hsome => h.unread (holdsFrame_iff.2 (Or.inl hsome))
  · have hfits : ∀ u ∈ (cut us (n - headerLen)).whole, ∀ r ∈ u.frames, r.Fits := by
      intro u hu
      refine Append.fits_frames fun r hr => ?_
      rw [Recovers, log, List.take_append, List.take_of_length_le (show header.length ≤ n from hn),
        replay_header, Except.ok.injEq, Replay.mk.injEq] at h
      have hall : ∀ r ∈ (cut us (n - headerLen)).whole.flatMap Append.records, r.Fits := by
        rw [← h.1]
        exact (Scan.AllFit.replayLoop ⟨by simp, by simp⟩).records
      exact hall r (List.mem_flatMap.2 ⟨u, hu, hr⟩)
    refine ⟨hfits, (recovers_iff_of_fits hn hfits ?_).1 h⟩
    obtain ⟨-, ⟨hnil, hbytes⟩ | ⟨u, k, hframes, hbytes, hk⟩⟩ := cut_spec us (n - headerLen)
    · rw [hnil, hbytes]
      rfl
    · rw [hframes] at hsize
      rw [hframes, hbytes]
      exact frameAt_unread hsize hk

/-- A number, then a batch of a number and a text. -/
def salesLog : List Append :=
  [.cell (.leaf [0, 0] ((Fixed.tryFrom 10000).getD Fixed.zero)),
   .batch [.leaf [1, 0] ((Fixed.tryFrom (-5)).getD Fixed.zero), .str [1, 1] "late"]]

/-- Cut within the batch, the number is recovered. -/
theorem recovers_salesLog : Legible salesLog 90 ∧ Recovers salesLog 90 := by
  have h : Legible salesLog 90 := (recovers_iff salesLog 90 (by decide)).2
    (by decide +kernel) (by decide +kernel)
  exact ⟨h, (recovers_iff salesLog 90 (by decide)).1 h⟩

/-- A text that spells the frame of an end marker. -/
def frameText : String := "\x03\x00\x00\x00\x04TXX0/C!"

/-- **A text cell is accepted whose torn record is taken for corruption.** -/
theorem not_recovers_frameText :
    (Cube.build "Notes" [⟨"Note", [("Text", .string)], [], [], []⟩] >>= fun c =>
      c.setString [0] frameText).isOk = true ∧
    ¬ Recovers [.cell (.str [0] frameText)] 38 := by
  decide +kernel

end Wal

end Epiphany
