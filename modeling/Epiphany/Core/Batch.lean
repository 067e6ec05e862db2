import Epiphany.Core.LeafWrites
/-!
# Batches — several cell writes at once

A batch is checked as a whole before its first write. A cell write changes
values and not the schema, so what was checked against the cube as it is
holds of the cube each write meets, and a batch that passes applies
(`applyWrites_of_validateBatch`).
-/

namespace Epiphany

namespace Cube

/-- One write of a batch, at a resolved coordinate. -/
inductive CellWrite where
  | leaf (coord : Coord) (value : Fixed)
  | str (coord : Coord) (value : String)
deriving DecidableEq

variable (c : Cube)

def checkWrite : CellWrite → Except ModelError Unit
  | .leaf coord _ => c.checkLeafWrite coord
  | .str coord _ => c.checkStringWrite coord

/-- Check writes from a position on; with the position of the first that is
refused. -/
def validateFrom (index : Nat) : List CellWrite → Except (Nat × ModelError) Unit
  | [] => .ok ()
  | write :: rest => do
    (c.checkWrite write).mapError fun e => (index, e)
    validateFrom (index + 1) rest

def validateBatch (writes : List CellWrite) : Except (Nat × ModelError) Unit :=
  c.validateFrom 0 writes

def applyWrite : CellWrite → Except ModelError Cube
  | .leaf coord value => c.setLeaf coord value
  | .str coord value => c.setString coord value

def applyWrites (writes : List CellWrite) : Except ModelError Cube :=
  writes.foldlM (fun c write => c.applyWrite write) c

variable {c} {c' : Cube} {write : CellWrite} {writes : List CellWrite}

/-! ## Writes keep the schema -/

theorem WF.applyWrite (hc : c.WF) (h : c.applyWrite write = .ok c') : c'.WF := by
  cases write with
  | leaf coord value => exact hc.setLeaf h
  | str coord value => exact hc.setString h

theorem dimensions_applyWrite (h : c.applyWrite write = .ok c') :
    c'.dimensions = c.dimensions ∧ c'.name = c.name := by
  cases write with
  | leaf coord value =>
    obtain ⟨hname, hdims, -⟩ := setLeaf_frame h
    exact ⟨hdims, hname⟩
  | str coord value =>
    obtain ⟨⟨⟩, -, h⟩ := bind_eq_ok.1 h
    split_ifs at h
    · cases h
      exact ⟨rfl, rfl⟩
    · cases h
      exact ⟨rfl, rfl⟩

theorem WF.applyWrites (hc : c.WF) (h : c.applyWrites writes = .ok c') :
    c'.WF ∧ c'.dimensions = c.dimensions := by
  induction writes generalizing c with
  | nil =>
    cases h
    exact ⟨hc, rfl⟩
  | cons write writes ih =>
    obtain ⟨next, hnext, h⟩ := bind_eq_ok.1 h
    obtain ⟨hwf, hdims⟩ := ih (hc.applyWrite hnext) h
    exact ⟨hwf, hdims.trans (dimensions_applyWrite hnext).1⟩

/-! ## A checked batch applies -/

theorem checkWrite_congr (h : c'.dimensions = c.dimensions ∧ c'.name = c.name) :
    c'.checkWrite write = c.checkWrite write := by
  cases write with
  | leaf coord value => simp only [checkWrite, checkLeafWrite, checkCoord_congr h.1, h.1]
  | str coord value => simp only [checkWrite, checkStringWrite, checkCoord_congr h.1, h.1, h.2]

theorem validateFrom_congr {index : Nat} (h : c'.dimensions = c.dimensions ∧ c'.name = c.name) :
    c'.validateFrom index writes = c.validateFrom index writes := by
  induction writes generalizing index with
  | nil => rfl
  | cons write writes ih => simp only [validateFrom, checkWrite_congr h, ih]

/-- A write that passes its check is made. -/
theorem applyWrite_of_checkWrite {u : Unit} (h : c.checkWrite write = .ok u) :
    ∃ c', c.applyWrite write = .ok c' := by
  cases write with
  | leaf coord value =>
    have hcheck : c.checkLeafWrite coord = .ok u := h
    exact ⟨_, by rw [applyWrite, setLeaf, hcheck]; rfl⟩
  | str coord value =>
    have hcheck : c.checkStringWrite coord = .ok u := h
    rw [applyWrite, setString, hcheck]
    by_cases hv : value = ""
    · exact ⟨_, if_pos hv⟩
    · exact ⟨_, if_neg hv⟩

/-- A write is refused as its check refuses it. -/
theorem applyWrite_eq_error {e : ModelError} :
    c.applyWrite write = .error e ↔ c.checkWrite write = .error e := by
  rcases hcheck : c.checkWrite write with e' | ⟨⟩
  · have herr : c.applyWrite write = .error e' := by
      cases write with
      | leaf coord value =>
        have hleaf : c.checkLeafWrite coord = .error e' := hcheck
        rw [applyWrite, setLeaf, hleaf]
        rfl
      | str coord value =>
        have hstr : c.checkStringWrite coord = .error e' := hcheck
        rw [applyWrite, setString, hstr]
        rfl
    rw [herr, Except.error.injEq, Except.error.injEq]
  · obtain ⟨c', hc'⟩ := applyWrite_of_checkWrite hcheck
    rw [hc']
    exact iff_of_false (by rintro ⟨⟩) (by rintro ⟨⟩)

/-- **A batch that passes its check applies.** -/
theorem applyWrites_of_validateFrom {index : Nat} {u : Unit}
    (h : c.validateFrom index writes = .ok u) : ∃ c', c.applyWrites writes = .ok c' := by
  induction writes generalizing c index with
  | nil => exact ⟨c, rfl⟩
  | cons write writes ih =>
    obtain ⟨⟨⟩, hcheck, h⟩ := bind_eq_ok.1 h
    obtain ⟨next, hnext⟩ := applyWrite_of_checkWrite (mapError_eq_ok.1 hcheck)
    rw [← validateFrom_congr (dimensions_applyWrite hnext)] at h
    obtain ⟨c', hc'⟩ := ih h
    exact ⟨c', bind_eq_ok.2 ⟨next, hnext, hc'⟩⟩

theorem applyWrites_of_validateBatch {u : Unit} (h : c.validateBatch writes = .ok u) :
    ∃ c', c.applyWrites writes = .ok c' := applyWrites_of_validateFrom h

/-- **The first refusal.** A batch fails its check where the writes made one
by one first fail, and with the error they fail with. -/
theorem validateFrom_eq_error {index j : Nat} {e : ModelError} :
    c.validateFrom index writes = .error (j, e) ↔ ∃ k c' write, j = index + k ∧
      c.applyWrites (writes.take k) = .ok c' ∧ writes[k]? = some write ∧
      c'.applyWrite write = .error e := by
  induction writes generalizing c index with
  | nil => simp [validateFrom]
  | cons write writes ih =>
    rcases hcheck : c.checkWrite write with e' | ⟨⟩
    · have herr := applyWrite_eq_error.2 hcheck
      have hfirst : c.validateFrom index (write :: writes) = .error (index, e') := by
        rw [validateFrom, hcheck]
        rfl
      rw [hfirst, Except.error.injEq, Prod.mk.injEq]
      constructor
      · rintro ⟨rfl, rfl⟩
        exact ⟨0, c, write, rfl, rfl, rfl, herr⟩
      · rintro ⟨k, c', w, rfl, hbefore, hw, he⟩
        rcases k with _ | k
        · obtain rfl := Except.ok.inj hbefore
          obtain rfl := Option.some.inj hw
          exact ⟨rfl, Except.error.inj (herr.symm.trans he)⟩
        · obtain ⟨next, hnext, -⟩ := bind_eq_ok.1 hbefore
          cases herr.symm.trans hnext
    · obtain ⟨next, hnext⟩ := applyWrite_of_checkWrite hcheck
      have hrest : c.validateFrom index (write :: writes) =
          next.validateFrom (index + 1) writes := by
        rw [validateFrom_congr (dimensions_applyWrite hnext), validateFrom, hcheck]
        rfl
      rw [hrest, ih]
      constructor
      · rintro ⟨k, c', w, rfl, hbefore, hw, he⟩
        exact ⟨k + 1, c', w, by omega, bind_eq_ok.2 ⟨next, hnext, hbefore⟩, hw, he⟩
      · rintro ⟨k, c', w, rfl, hbefore, hw, he⟩
        rcases k with _ | k
        · -- the first write is made
          obtain rfl := Except.ok.inj hbefore
          obtain rfl := Option.some.inj hw
          rw [hnext] at he
          cases he
        · obtain ⟨next', hnext', hbefore⟩ := bind_eq_ok.1 hbefore
          obtain rfl := Except.ok.inj (hnext.symm.trans hnext')
          exact ⟨k, c', w, by omega, hbefore, hw, he⟩

theorem validateBatch_eq_error {k : Nat} {e : ModelError} :
    c.validateBatch writes = .error (k, e) ↔ ∃ c' write,
      c.applyWrites (writes.take k) = .ok c' ∧ writes[k]? = some write ∧
      c'.applyWrite write = .error e := by
  rw [validateBatch, validateFrom_eq_error]
  constructor
  · rintro ⟨k', c', write, hk, h⟩
    obtain rfl : k = k' := by omega
    exact ⟨c', write, h⟩
  · rintro ⟨c', write, h⟩
    exact ⟨k, c', write, by omega, h⟩

theorem applyWrites_append (before after : List CellWrite) :
    c.applyWrites (before ++ after) =
      c.applyWrites before >>= fun c' => c'.applyWrites after := by
  unfold applyWrites
  rw [List.foldlM_append]

theorem validateBatch_eq_ok {u : Unit} :
    c.validateBatch writes = .ok u ↔ ∃ c', c.applyWrites writes = .ok c' := by
  refine ⟨applyWrites_of_validateBatch, fun ⟨c', hc'⟩ => ?_⟩
  rcases hcheck : c.validateBatch writes with ⟨k, e⟩ | u'
  · -- the refused write is one of those that were made
    obtain ⟨mid, write, hbefore, hk, he⟩ := validateBatch_eq_error.1 hcheck
    obtain ⟨hlt, rfl⟩ := List.getElem?_eq_some_iff.1 hk
    rw [← List.take_append_drop k writes, applyWrites_append, hbefore] at hc'
    obtain ⟨mid', hmid, hc'⟩ := bind_eq_ok.1 hc'
    obtain rfl := Except.ok.inj hmid
    rw [List.drop_eq_getElem_cons hlt] at hc'
    obtain ⟨next, hnext, -⟩ := bind_eq_ok.1 hc'
    cases he.symm.trans hnext
  · rfl

/-! ## What a batch changes -/

end Cube

/-- The coordinate a write is at. -/
def Cube.CellWrite.coord : Cube.CellWrite → Coord
  | .leaf coord _ => coord
  | .str coord _ => coord

namespace Cube

/-- The text at a coordinate. -/
def textAt (c : Cube) (a : Coord) : Option String :=
  (c.stringCells.get c.layout a).map c.stringPool.get

/-- The number that the last write of a batch to a coordinate leaves there. -/
def lastNumber (writes : List CellWrite) (a : Coord) : Option Fixed :=
  writes.foldl
    (fun last write =>
      match write with
      | .leaf coord value => if coord = a then some value else last
      | .str _ _ => last) none

/-- The text that the last write of a batch to a coordinate leaves there. -/
def lastText (writes : List CellWrite) (a : Coord) : Option String :=
  writes.foldl
    (fun last write =>
      match write with
      | .leaf _ _ => last
      | .str coord value => if coord = a then some value else last) none

/-- **The effect of a batch**: every coordinate holds what the last write to
it leaves there, and otherwise what it held. -/
structure Wrote (c : Cube) (writes : List CellWrite) (c' : Cube) : Prop where
  dimensions : c'.dimensions = c.dimensions
  number : ∀ a, InRange c.dimensions a →
    c'.leafValue a = (lastNumber writes a).getD (c.leafValue a)
  text : ∀ a, InRange c.dimensions a →
    c'.textAt a = match lastText writes a with
      | some s => if s = "" then none else some s
      | none => c.textAt a

variable {c c' : Cube} {write : CellWrite} {writes : List CellWrite}

theorem lastNumber_cons (write : CellWrite) (writes : List CellWrite) (a : Coord) :
    lastNumber (write :: writes) a = (lastNumber writes a).or (lastNumber [write] a) := by
  have hfold : ∀ (l : List CellWrite) (o : Option Fixed),
      l.foldl (fun last write => match write with
        | .leaf coord value => if coord = a then some value else last
        | .str _ _ => last) o = (lastNumber l a).or o := by
    intro l
    induction l with
    | nil => exact fun o => rfl
    | cons w l ih =>
      intro o
      unfold lastNumber
      rw [List.foldl_cons, List.foldl_cons, ih, ih]
      cases w with
      | leaf coord value =>
        dsimp only
        split_ifs
        · rw [Option.or_assoc]
          rfl
        · rw [Option.or_none]
      | str coord value => rw [Option.or_none]
  exact hfold writes _

theorem lastText_cons (write : CellWrite) (writes : List CellWrite) (a : Coord) :
    lastText (write :: writes) a = (lastText writes a).or (lastText [write] a) := by
  have hfold : ∀ (l : List CellWrite) (o : Option String),
      l.foldl (fun last write => match write with
        | .leaf _ _ => last
        | .str coord value => if coord = a then some value else last) o = (lastText l a).or o := by
    intro l
    induction l with
    | nil => exact fun o => rfl
    | cons w l ih =>
      intro o
      unfold lastText
      rw [List.foldl_cons, List.foldl_cons, ih, ih]
      cases w with
      | leaf coord value => rw [Option.or_none]
      | str coord value =>
        dsimp only
        split_ifs
        · rw [Option.or_assoc]
          rfl
        · rw [Option.or_none]
  exact hfold writes _

/-- A write of text is read back, and no other cell changes. -/
theorem textAt_setString (hc : c.WF) {a b : Coord} {s : String} (h : c.setString a s = .ok c')
    (hb : InRange c.dimensions b) :
    c'.leafValue b = c.leafValue b ∧
      c'.textAt b = if a = b then (if s = "" then none else some s) else c.textAt b := by
  simp only [setString, bind_eq_ok, checkStringWrite_eq_ok] at h
  obtain ⟨-, hstr, h⟩ := h
  have ha := hstr.inRange
  split_ifs at h with hs
  · obtain rfl := Except.ok.inj h
    refine ⟨rfl, ?_⟩
    simp only [textAt, hc.layout]
    rw [CellStore.get_clear ha hb]
    split_ifs
    · rfl
    · rfl
  · obtain rfl := Except.ok.inj h
    obtain ⟨-, hself, hkeep⟩ := StringPool.intern_spec hc.pool s
    refine ⟨rfl, ?_⟩
    simp only [textAt, hc.layout]
    rw [CellStore.get_put ha hb]
    split_ifs with hab
    · rw [Option.map_some, StringPool.get, List.getD_eq_getElem?_getD, hself]
      rfl
    · rcases hid : c.stringCells.get (Layout.new c.dimensions) b with _ | id
      · rfl
      · -- interning keeps the texts that are there
        obtain ⟨-, t, ht, -⟩ := hc.text b id hb (by rw [hc.layout]; exact hid)
        rw [Option.map_some, Option.map_some, StringPool.get, StringPool.get,
          List.getD_eq_getElem?_getD, List.getD_eq_getElem?_getD, hkeep id t ht, ht]

theorem wrote_applyWrite (hc : c.WF) (h : c.applyWrite write = .ok c') : Wrote c [write] c' := by
  cases write with
  | leaf coord value =>
    refine ⟨(setLeaf_frame h).2.1, fun a ha => ?_, fun a ha => ?_⟩
    · rw [(leafValue_setLeaf hc h ha).2]
      simp only [lastNumber, List.foldl_cons, List.foldl_nil]
      split_ifs
      · rfl
      · rfl
    · obtain ⟨-, -, hlayout, hcells, hpool⟩ := setLeaf_frame h
      simp only [lastText, List.foldl_cons, List.foldl_nil, textAt, hlayout, hcells, hpool]
  | str coord value =>
    refine ⟨(dimensions_applyWrite h).1, fun a ha => ?_, fun a ha => ?_⟩
    · rw [(textAt_setString hc h ha).1]
      rfl
    · rw [(textAt_setString hc h ha).2]
      simp only [lastText, List.foldl_cons, List.foldl_nil]
      by_cases hcoord : coord = a
      · rw [if_pos hcoord, if_pos hcoord]
      · rw [if_neg hcoord, if_neg hcoord]

/-- **A batch that is applied has its effect.** -/
theorem wrote_applyWrites (hc : c.WF) (h : c.applyWrites writes = .ok c') : Wrote c writes c' := by
  induction writes generalizing c with
  | nil =>
    obtain rfl := Except.ok.inj h
    exact ⟨rfl, fun _ _ => rfl, fun _ _ => rfl⟩
  | cons write writes ih =>
    obtain ⟨next, hnext, h⟩ := bind_eq_ok.1 h
    have hfirst := wrote_applyWrite hc hnext
    have hrest := ih (hc.applyWrite hnext) h
    refine ⟨hrest.dimensions.trans hfirst.dimensions, fun a ha => ?_, fun a ha => ?_⟩
    · rw [hrest.number a (by rw [hfirst.dimensions]; exact ha), hfirst.number a ha,
        lastNumber_cons write writes]
      cases lastNumber writes a with
      | none => rfl
      | some v => rfl
    · rw [hrest.text a (by rw [hfirst.dimensions]; exact ha), hfirst.text a ha,
        lastText_cons write writes]
      cases lastText writes a with
      | none => rfl
      | some s => rfl

/-- Only a coordinate that is written to changes. -/
theorem Wrote.frame (h : Wrote c writes c') {a : Coord} (ha : InRange c.dimensions a)
    (hmem : a ∉ writes.map CellWrite.coord) :
    c'.leafValue a = c.leafValue a ∧ c'.textAt a = c.textAt a := by
  have hnone : lastNumber writes a = none ∧ lastText writes a = none := by
    clear h
    induction writes with
    | nil => exact ⟨rfl, rfl⟩
    | cons write writes ih =>
      rw [List.map_cons, List.mem_cons, not_or] at hmem
      obtain ⟨hnum, htext⟩ := ih hmem.2
      rw [lastNumber_cons write writes, lastText_cons write writes, hnum, htext]
      cases write with
      | leaf coord value => exact ⟨if_neg (Ne.symm hmem.1), rfl⟩
      | str coord value => exact ⟨rfl, if_neg (Ne.symm hmem.1)⟩
  rw [h.number a ha, h.text a ha, hnone.1, hnone.2]
  exact ⟨rfl, rfl⟩

end Cube

end Epiphany
