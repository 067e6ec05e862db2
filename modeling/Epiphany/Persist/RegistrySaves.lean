import Epiphany.Persist.RegistryFiles
/-!
# Registry saves — what an interrupted save leaves

A save that stops leaves the old index with the bodies it has replaced so
far, or the new index with all the new bodies (`Ensures.saveRegistry`); and
it can stop after any number of bodies (`exists_written`). So a load gives
the old registry or the new one after every fault, exactly if no body that
the old index lists changes, or one changes and the index does not.

A crash is a fault of every operation from one on.
-/

namespace Epiphany

namespace RegistryDir

open Fallible Directory

variable {β : Type} {format : RegistryFormat β} {d₀ d d' : RegistryDir β}
variable {entries before done rest old new : List RegistryEntry}

/-! ## What a load reads -/

theorem stemOf_injective : Function.Injective stemOf := by
  intro i j h
  have hback := congrArg (fun s => Nat.ofDigitChars 10 s 0) h
  simpa [stemOf, Nat.ofDigitChars_ten_toDigits] using hback

theorem dimPath_inj {i j : Nat} : dimPath i = dimPath j ↔ i = j := by
  rw [dimPath, dimPath, RegistryFile.body.injEq]
  exact stemOf_injective.eq_iff

/-- The document of the index, empty if there is none. -/
def readIndex (format : RegistryFormat β) (d : RegistryDir β) : Except PersistError IndexDoc :=
  match d.read .index with
  | none => .ok []
  | some text => (format.parseIndex text).mapError fun _ => .corrupt

theorem loadRegistry_eq (format : RegistryFormat β) (d : RegistryDir β) :
    loadRegistry format d = readIndex format d >>= fun doc => doc.mapM (loadEntry format d) := by
  rw [loadRegistry, readIndex]
  rcases d.read .index with - | text
  · rfl
  · rfl

/-- A registry is loaded from its index and the bodies of its dimensions. -/
theorem loadRegistry_eq_ok : loadRegistry format d = .ok entries ↔
    readIndex format d = .ok (entries.map RegistryEntry.indexed) ∧
      ∀ e ∈ entries, readBody format d e.id = .ok e.dimension := by
  have hlists : ∀ doc : IndexDoc, doc.mapM (loadEntry format d) = .ok entries ↔
      doc = entries.map RegistryEntry.indexed ∧
        ∀ e ∈ entries, readBody format d e.id = .ok e.dimension := by
    intro doc
    rw [mapM_eq_ok]
    constructor
    · intro h
      induction h with
      | nil => exact ⟨rfl, by simp⟩
      | cons hx _ ih =>
        simp only [loadEntry, bind_eq_ok, Except.ok.injEq] at hx
        obtain ⟨dimension, hbody, rfl⟩ := hx
        obtain ⟨rfl, hrest⟩ := ih
        exact ⟨rfl, List.forall_mem_cons.2 ⟨hbody, hrest⟩⟩
    · rintro ⟨rfl, hall⟩
      rw [List.forall₂_map_left_iff, List.forall₂_same]
      intro e he
      simp only [loadEntry, RegistryEntry.indexed, bind_eq_ok, Except.ok.injEq]
      exact ⟨e.dimension, hall e he, rfl⟩
  rw [loadRegistry_eq, bind_eq_ok]
  constructor
  · rintro ⟨doc, hdoc, hrest⟩
    obtain ⟨rfl, hall⟩ := (hlists doc).1 hrest
    exact ⟨hdoc, hall⟩
  · rintro ⟨hdoc, hall⟩
    exact ⟨_, hdoc, (hlists _).2 ⟨rfl, hall⟩⟩

/-- A dimension written and read. -/
def reload (format : RegistryFormat β) (dim : Dimension) : Except PersistError Dimension := do
  let text ← format.toModelText dim
  format.fromModelText text

theorem reload_eq_ok (hformat : format.Lawful) {dim dim' : Dimension} (hdim : dim.WF) :
    reload format dim = .ok dim' ↔ dim' = dim ∧ dim.Saveable := by
  obtain ⟨text, hwrite, hread⟩ := hformat.dim dim.dimDoc
  rw [← Dimension.buildDimension_dimDoc hdim, reload, bind_eq_ok]
  simp only [RegistryFormat.toModelText, RegistryFormat.fromModelText, mapError_eq_ok, hwrite,
    bind_eq_ok, Except.ok.injEq, exists_eq_left', hread]

/-! ## What a save leaves -/

/-- The old index, with the bodies of some entries replaced. -/
structure Written (format : RegistryFormat β) (d₀ : RegistryDir β) (done : List RegistryEntry)
    (d : RegistryDir β) : Prop where
  index : d.read .index = d₀.read .index
  others : ∀ i, (∀ e ∈ done, e.id ≠ i) → d.read (dimPath i) = d₀.read (dimPath i)
  bodies : ∀ e ∈ done, readBody format d e.id = reload format e.dimension

/-- The new index, with all its bodies. -/
structure Saved (format : RegistryFormat β) (new : List RegistryEntry) (d : RegistryDir β) :
    Prop where
  index : ∃ text, format.indexText (new.map RegistryEntry.indexed) = .ok text ∧
    d.read .index = some text
  bodies : ∀ e ∈ new, readBody format d e.id = reload format e.dimension

/-- What a save leaves, wherever it stops. -/
def Left (format : RegistryFormat β) (d₀ : RegistryDir β) (new : List RegistryEntry)
    (d : RegistryDir β) : Prop :=
  (∃ done rest, done ++ rest = new ∧ Written format d₀ done d) ∨ Saved format new d

theorem Written.start : Written format d₀ [] d₀ := ⟨rfl, fun _ _ => rfl, by simp⟩

theorem readBody_congr {i : Nat} (h : d'.read (dimPath i) = d.read (dimPath i)) :
    readBody format d' i = readBody format d i := by
  rw [readBody, readBody, h]

/-- Only the other name of a file has changed. -/
theorem Written.same {tmp : RegistryFile} (h : Written format d₀ done d)
    (hindex : tmp ≠ .index) (hbody : ∀ i, tmp ≠ dimPath i) (hsame : SameBut tmp d d') :
    Written format d₀ done d' where
  index := (hsame _ hindex.symm).trans h.index
  others i hi := (hsame _ (hbody i).symm).trans (h.others i hi)
  bodies e he := (readBody_congr (hsame _ (hbody e.id).symm)).trans (h.bodies e he)

theorem readBody_of_read {i : Nat} {dim : Dimension} {text : List β}
    (hread : d.read (dimPath i) = some text) (htext : format.toModelText dim = .ok text) :
    readBody format d i = reload format dim := by
  simp [readBody, reload, hread, htext, okOr]

/-- One body more is replaced. -/
theorem Written.body {e : RegistryEntry} {text : List β} (h : Written format d₀ done d)
    (hnew : ∀ x ∈ done, x.id ≠ e.id) (htext : format.toModelText e.dimension = .ok text)
    (hreplaced : Replaced (.bodyTmp (stemOf e.id)) (dimPath e.id) text d d') :
    Written format d₀ (done ++ [e]) d' where
  index := (hreplaced.others _ (by simp) (by simp [dimPath])).trans h.index
  others i hi := by
    have hne : e.id ≠ i := hi e (by simp)
    rw [hreplaced.others _ (by simp [dimPath]) fun heq => hne (dimPath_inj.1 heq).symm]
    exact h.others i fun x hx => hi x (List.mem_append_left _ hx)
  bodies x hx := by
    rcases List.mem_append.1 hx with hx | hx
    · have hne : dimPath x.id ≠ dimPath e.id := fun heq => hnew x hx (dimPath_inj.1 heq)
      rw [← h.bodies x hx]
      exact readBody_congr (hreplaced.others _ (by simp [dimPath]) hne)
    · obtain rfl := List.mem_singleton.1 hx
      exact readBody_of_read hreplaced.read htext

theorem Ensures.saveBody {e : RegistryEntry} (hnew : ∀ x ∈ done, x.id ≠ e.id) :
    Ensures (On (Written format d₀ done)) (saveBody format e)
      (fun _ => On (Written format d₀ (done ++ [e]))) (On (Written format d₀ done)) := by
  refine Ensures.bind (Ensures.ofExcept fun _ h => h) fun text => ?_
  rintro w ⟨htext, hw⟩
  refine Ensures.weaken (Ensures.replaceFile _ _ w.state) (fun _ h => h) ?_ ?_ w rfl
  · exact fun _ _ hreplaced => hw.body hnew htext hreplaced
  · exact fun _ hsame => hw.same (by simp) (by simp [dimPath]) hsame

theorem Ensures.saveBodies (hids : ((done ++ rest).map RegistryEntry.id).Nodup) :
    Ensures (On (Written format d₀ done)) (rest.forM (RegistryDir.saveBody format))
      (fun _ => On (Written format d₀ (done ++ rest))) (On (Left format d₀ (done ++ rest))) := by
  induction rest generalizing done with
  | nil =>
    rw [List.append_nil]
    exact Ensures.pure _ fun _ h => h
  | cons e rest ih =>
    have hsplit : done ++ e :: rest = (done ++ [e]) ++ rest := by simp
    have hnew : ∀ x ∈ done, x.id ≠ e.id := by
      intro x hx heq
      rw [List.map_append] at hids
      exact (List.nodup_append.1 hids).2.2 x.id (List.mem_map_of_mem hx) e.id (by simp) heq
    rw [hsplit] at hids
    rw [List.forM_eq_forM, List.forM_cons, hsplit]
    refine Ensures.bind (R := fun _ => On (Written format d₀ (done ++ [e]))) ?_ fun _ => ih hids
    refine Ensures.weaken (Ensures.saveBody hnew) (fun _ h => h) (fun _ _ h => h) fun w hw => ?_
    exact .inl ⟨done, e :: rest, hsplit, hw⟩

theorem Ensures.saveIndex :
    Ensures (On (Written format d₀ new)) (saveIndex format new)
      (fun _ => On (Saved format new)) (On (Left format d₀ new)) := by
  have hleft : ∀ {d}, Written format d₀ new d → Left format d₀ new d := fun h =>
    .inl ⟨new, [], List.append_nil new, h⟩
  refine Ensures.bind (Ensures.ofExcept fun _ => hleft) fun text => ?_
  rintro w ⟨htext, hw⟩
  refine Ensures.weaken (Ensures.replaceFile _ _ w.state) (fun _ h => h) ?_ ?_ w rfl
  · intro _ w' hreplaced
    refine ⟨⟨text, mapError_eq_ok.1 htext, hreplaced.read⟩, fun e he => ?_⟩
    rw [← hw.bodies e he]
    exact readBody_congr (hreplaced.others _ (by simp [dimPath]) (by simp [dimPath]))
  · exact fun _ hsame => hleft (hw.same (by simp) (by simp [dimPath]) hsame)

/-! ## The sweep -/

theorem parseU64_stemOf {i j : Nat} (h : parseU64 (stemOf i) = some j) : j = i := by
  have hhead : (stemOf i).head? ≠ some '+' := by
    intro hplus
    have hdigit := Digits.isDigit_of_mem_toDigits (List.mem_of_mem_head? hplus)
    exact absurd hdigit (by decide)
  unfold parseU64 at h
  rw [if_neg hhead] at h
  dsimp only at h
  split_ifs at h
  rw [← Option.some.inj h]
  exact Nat.ofDigitChars_ten_toDigits

/-- A body that is kept is not moved. -/
theorem Saved.rename {stem : List Char} {i : Nat} (h : Saved format new d)
    (hstem : parseU64 stem = some i) (hi : i ∉ new.map RegistryEntry.id) :
    Saved format new (d.rename (.body stem) (.orphan stem)) := by
  obtain ⟨text, htext, hread⟩ := h.index
  refine ⟨⟨text, htext, (read_rename_of_ne _ (by simp) (by simp)).trans hread⟩, fun e he => ?_⟩
  rw [← h.bodies e he]
  refine readBody_congr (read_rename_of_ne _ ?_ (by simp [dimPath]))
  intro heq
  rw [← RegistryFile.body.inj heq] at hstem
  rw [parseU64_stemOf hstem] at hi
  exact hi (List.mem_map_of_mem he)

theorem Ensures.quarantine (stem : List Char) :
    Ensures (On (Saved format new)) (quarantine (new.map RegistryEntry.id) stem)
      (fun _ => On (Saved format new)) (On (Saved format new)) := by
  unfold RegistryDir.quarantine
  rcases hstem : parseU64 stem with - | i
  · exact Ensures.pure _ fun _ h => h
  · dsimp only
    split_ifs with hi
    · exact Ensures.pure _ fun _ h => h
    · exact Ensures.ignore (Ensures.attempt (fun _ h => h.rename hstem hi) fun _ _ h => h)

theorem Ensures.sweep :
    Ensures (On (Saved format new)) (sweep (new.map RegistryEntry.id))
      (fun _ => On (Saved format new)) (On (Saved format new)) := by
  have hall : ∀ stems : List (List Char), Ensures (On (Saved format new))
      (stems.forM (RegistryDir.quarantine (β := β) (new.map RegistryEntry.id)))
      (fun _ => On (Saved format new)) (On (Saved format new)) := by
    intro stems
    induction stems with
    | nil => exact Ensures.pure _ fun _ h => h
    | cons stem stems ih =>
      rw [List.forM_eq_forM, List.forM_cons]
      exact Ensures.bind (Ensures.quarantine stem) fun _ => ih
  unfold RegistryDir.sweep
  refine Ensures.bind (Ensures.probe (Ensures.attempt (fun _ h => h) fun _ _ h => h)) fun b => ?_
  split
  · refine Ensures.fix fun d hd => Ensures.read ?_
    refine Ensures.weaken (hall (bodyStems d)) ?_ (fun _ _ h => h) fun _ h => h
    intro w hw
    rw [On, show w.state = d from hw]
    exact hd
  · exact Ensures.pure _ fun _ h => h

/-- **An interrupted save** leaves the old index and some new bodies, or the
whole new registry. -/
theorem Ensures.saveRegistry (hids : (new.map RegistryEntry.id).Nodup) :
    Ensures (On fun s => s = d₀) (saveRegistry format new)
      (fun _ => On (Left format d₀ new)) (On (Left format d₀ new)) := by
  have hstart : Left format d₀ new d₀ := .inl ⟨[], new, rfl, Written.start⟩
  refine Ensures.bind (R := fun _ => On (Written format d₀ []))
    (Ensures.attempt ?_ ?_) fun _ => ?_
  · rintro s rfl
    exact Written.start
  · rintro s r rfl
    exact hstart
  refine Ensures.bind (Ensures.saveBodies hids) fun _ => ?_
  refine Ensures.bind Ensures.saveIndex fun _ => ?_
  exact Ensures.weaken Ensures.sweep (fun _ h => h) (fun _ _ => .inr) fun _ => .inr

/-! ## Stopping after any number of bodies -/

theorem toModelText_isOk (hformat : format.Lawful) (dim : Dimension) :
    ∃ text, format.toModelText dim = .ok text := by
  obtain ⟨text, htext, -⟩ := hformat.dim dim.dimDoc
  exact ⟨text, by rw [RegistryFormat.toModelText, htext]; rfl⟩

/-- Bodies are replaced by four operations each. -/
theorem run_saveBodies (hformat : format.Lawful)
    (hids : ((before ++ done).map RegistryEntry.id).Nodup) (h : Written format d₀ before d)
    (plan : List (Option Nat)) :
    ∃ d', done.forM (saveBody format) ⟨d, List.replicate (4 * done.length) none ++ plan⟩ =
      .ok ⟨⟩ ⟨d', plan⟩ ∧ Written format d₀ (before ++ done) d' := by
  induction done generalizing before d with
  | nil => exact ⟨d, rfl, by rwa [List.append_nil]⟩
  | cons e done ih =>
    have hsplit : before ++ e :: done = (before ++ [e]) ++ done := by simp
    have hnew : ∀ x ∈ before, x.id ≠ e.id := by
      intro x hx heq
      rw [List.map_append] at hids
      exact (List.nodup_append.1 hids).2.2 x.id (List.mem_map_of_mem hx) e.id (by simp) heq
    obtain ⟨text, htext⟩ := toModelText_isOk hformat e.dimension
    have hbody := h.body hnew htext (replaced_doneAll text d)
    rw [hsplit] at hids ⊢
    obtain ⟨d', hrest, hd'⟩ := ih hids hbody
    refine ⟨d', ?_, hd'⟩
    have hfour : List.replicate (4 * (e :: done).length) (none : Option Nat) ++ plan =
        List.replicate (replaceSteps (.bodyTmp (stemOf e.id)) (dimPath e.id) text).length none ++
          (List.replicate (4 * done.length) none ++ plan) := by
      rw [← List.append_assoc, List.replicate_append_replicate]
      congr 2
      rw [List.length_cons, show (replaceSteps (RegistryFile.bodyTmp (stemOf e.id))
        (dimPath e.id) text).length = 4 from rfl]
      omega
    have hrun : saveBody format e ⟨d, List.replicate (4 * (e :: done).length) none ++ plan⟩ =
        .ok ⟨⟩ ⟨doneAll (replaceSteps (.bodyTmp (stemOf e.id)) (dimPath e.id) text) d,
          List.replicate (4 * done.length) none ++ plan⟩ := by
      rw [hfour, ← attempts_ok PersistError.io]
      unfold saveBody
      rw [htext]
      rfl
    rw [List.forM_eq_forM, List.forM_cons]
    exact (bind_run_ok _ hrun).trans hrest

/-- A file whose first operation fails stays as it is. -/
theorem run_replaceFile_fault (tmp name : RegistryFile) (text : List β) (d : RegistryDir β) :
    replaceFile PersistError.io tmp name text ⟨d, [some 0]⟩ = .error .io ⟨d, []⟩ := rfl

theorem run_saveIndex_fault (format : RegistryFormat β) (new : List RegistryEntry)
    (d : RegistryDir β) :
    ∃ e plan, saveIndex format new ⟨d, [some 0]⟩ = .error e ⟨d, plan⟩ := by
  unfold saveIndex
  rcases (format.indexText (new.map RegistryEntry.indexed)).mapError PersistError.save with
    e | text
  · exact ⟨e, [some 0], rfl⟩
  · exact ⟨.io, [], run_replaceFile_fault .indexTmp .index text d⟩

/-- What is left of a save fails in its first operation. -/
theorem run_rest_fault (hformat : format.Lawful) (new rest : List RegistryEntry)
    (d : RegistryDir β) :
    ∃ e plan, (rest.forM (saveBody format) >>= fun _ =>
      saveIndex format new >>= fun _ => sweep (new.map RegistryEntry.id)) ⟨d, [some 0]⟩ =
        .error e ⟨d, plan⟩ := by
  cases rest with
  | nil =>
    obtain ⟨e, plan, he⟩ := run_saveIndex_fault format new d
    refine ⟨e, plan, ?_⟩
    rw [List.forM_eq_forM, List.forM_nil, pure_bind]
    exact bind_run_error _ he
  | cons e rest =>
    obtain ⟨text, htext⟩ := toModelText_isOk hformat e.dimension
    have hbody : saveBody format e ⟨d, [some 0]⟩ = .error .io ⟨d, []⟩ := by
      unfold saveBody
      rw [htext]
      exact run_replaceFile_fault (.bodyTmp (stemOf e.id)) (dimPath e.id) text d
    refine ⟨.io, [], bind_run_error _ ?_⟩
    rw [List.forM_eq_forM, List.forM_cons]
    exact bind_run_error _ hbody

/-- The directory is there. -/
theorem run_createDir (d : RegistryDir β) (plan : List (Option Nat)) :
    (attempt PersistError.io (op id) : RegistryM β Unit) ⟨d, none :: plan⟩ =
      .ok ⟨⟩ ⟨d, plan⟩ := rfl

/-- The operation after some bodies fails. -/
theorem exists_written (hformat : format.Lawful) (hids : (new.map RegistryEntry.id).Nodup)
    (hnew : done ++ rest = new) :
    ∃ plan, Written format d₀ done (finalState (saveRegistry format new) ⟨d₀, plan⟩).state := by
  have hdone : ((([] : List RegistryEntry) ++ done).map RegistryEntry.id).Nodup := by
    rw [← hnew, List.map_append] at hids
    exact (List.nodup_append.1 hids).1
  obtain ⟨d', hrun, hd'⟩ := run_saveBodies hformat hdone Written.start [some 0]
  refine ⟨none :: (List.replicate (4 * done.length) none ++ [some 0]), ?_⟩
  have hbodies : new.forM (saveBody format) =
      (done.forM (saveBody format) >>= fun _ => rest.forM (saveBody format)) := by
    rw [← hnew]
    exact List.forM_append
  obtain ⟨e, plan, hstop⟩ := run_rest_fault hformat new rest d'
  have hfinal : saveRegistry format new
      ⟨d₀, none :: (List.replicate (4 * done.length) none ++ [some 0])⟩ = .error e ⟨d', plan⟩ := by
    unfold saveRegistry
    rw [hbodies]
    refine (bind_run_ok _ (run_createDir d₀ _)).trans ?_
    rw [bind_assoc]
    exact (bind_run_ok _ hrun).trans hstop
  rw [finalState, hfinal]
  exact hd'

/-- Nothing fails before the sweep. -/
theorem exists_saved (hformat : format.Lawful) (d₀ : RegistryDir β)
    (hids : (new.map RegistryEntry.id).Nodup)
    (hwords : ∀ e ∈ new, e.indexed.Words) :
    ∃ plan, Saved format new (finalState (saveRegistry format new) ⟨d₀, plan⟩).state := by
  have hall : ((([] : List RegistryEntry) ++ new).map RegistryEntry.id).Nodup := by
    rwa [List.nil_append]
  have hstart : Written format d₀ [] d₀ := Written.start
  obtain ⟨d', hrun, hd'⟩ := run_saveBodies hformat hall hstart (List.replicate 4 none)
  refine ⟨none :: (List.replicate (4 * new.length) none ++ List.replicate 4 none), ?_⟩
  obtain ⟨text, htext, -⟩ := hformat.index (new.map RegistryEntry.indexed) (by simpa using hwords)
  have hindex : saveIndex format new ⟨d', List.replicate 4 none⟩ =
      .ok ⟨⟩ ⟨doneAll (replaceSteps .indexTmp .index text) d', []⟩ := by
    unfold saveIndex
    rw [htext]
    rfl
  have hfinal : saveRegistry format new
      ⟨d₀, none :: (List.replicate (4 * new.length) none ++ List.replicate 4 none)⟩ =
        sweep (new.map RegistryEntry.id) ⟨doneAll (replaceSteps .indexTmp .index text) d', []⟩ := by
    unfold saveRegistry
    refine (bind_run_ok _ (run_createDir d₀ _)).trans ?_
    exact (bind_run_ok _ hrun).trans (bind_run_ok _ hindex)
  have hreplaced : Replaced RegistryFile.indexTmp .index text d' _ := replaced_doneAll text d'
  have hsaved : Saved format new (doneAll (replaceSteps .indexTmp .index text) d') := by
    refine ⟨⟨text, htext, hreplaced.read⟩, fun e he => ?_⟩
    rw [← hd'.bodies e he]
    exact readBody_congr (hreplaced.others _ (by simp [dimPath]) (by simp [dimPath]))
  rw [finalState, hfinal]
  exact Ensures.sweep.finalState hsaved

/-! ## Old or new -/

/-- Whether a load finds the old registry or the new one, wherever a save of
the new one stops. -/
def CrashAtomic (format : RegistryFormat β) (d₀ : RegistryDir β)
    (old new : List RegistryEntry) : Prop :=
  ∀ plan, let d := (finalState (saveRegistry format new) ⟨d₀, plan⟩).state
    loadRegistry format d = .ok old ∨ loadRegistry format d = .ok new

/-- Whether an entry has another body than the old one of its id. -/
def Changes (old : List RegistryEntry) (e : RegistryEntry) : Prop :=
  ∃ o ∈ old, o.id = e.id ∧ o.dimension ≠ e.dimension

/-- Every dimension reads back, and no body changes under the old index, or
one under an index that is the same. -/
structure Harmless (old new : List RegistryEntry) : Prop where
  saveable : ∀ e ∈ new, e.dimension.Saveable
  bodies : (∀ e ∈ new, ¬ Changes old e) ∨
    old.map RegistryEntry.indexed = new.map RegistryEntry.indexed ∧
      ∀ e ∈ new, ∀ e' ∈ new, Changes old e → Changes old e' → e = e'

theorem readIndex_congr (h : d'.read .index = d.read .index) :
    readIndex format d' = readIndex format d := by
  rw [readIndex, readIndex, h]

/-- The old registry is loaded while no body has changed. -/
theorem Written.load_old (h : Written format d₀ done d) (hold : loadRegistry format d₀ = .ok old)
    (hreload : ∀ e ∈ done, reload format e.dimension = .ok e.dimension)
    (hsame : ∀ e ∈ done, ¬ Changes old e) : loadRegistry format d = .ok old := by
  obtain ⟨hindex, hbodies⟩ := loadRegistry_eq_ok.1 hold
  refine loadRegistry_eq_ok.2 ⟨(readIndex_congr h.index).trans hindex, fun o ho => ?_⟩
  by_cases hdone : ∃ e ∈ done, e.id = o.id
  · obtain ⟨e, he, heq⟩ := hdone
    have hdim : o.dimension = e.dimension := by
      by_contra hne
      exact hsame e he ⟨o, ho, heq.symm, hne⟩
    rw [← heq, h.bodies e he, hdim]
    exact hreload e he
  · rw [readBody_congr (h.others o.id fun e he heq => hdone ⟨e, he, heq⟩)]
    exact hbodies o ho

/-- The new registry is loaded under an index that is the same, once no
change is left. -/
theorem Written.load_new (h : Written format d₀ done d) (hold : loadRegistry format d₀ = .ok old)
    (hids : (new.map RegistryEntry.id).Nodup) (hnew : done ++ rest = new)
    (hindexed : old.map RegistryEntry.indexed = new.map RegistryEntry.indexed)
    (hreload : ∀ e ∈ done, reload format e.dimension = .ok e.dimension)
    (hsame : ∀ e ∈ rest, ¬ Changes old e) : loadRegistry format d = .ok new := by
  obtain ⟨hindex, hbodies⟩ := loadRegistry_eq_ok.1 hold
  refine loadRegistry_eq_ok.2
    ⟨(readIndex_congr h.index).trans (hindex.trans (congrArg _ hindexed)), fun e he => ?_⟩
  rw [← hnew, List.mem_append] at he
  rcases he with he | he
  · rw [h.bodies e he]
    exact hreload e he
  · -- the body of a later entry is the old one, which has not changed
    rw [← hnew, List.map_append] at hids
    have hother : ∀ x ∈ done, x.id ≠ e.id := fun x hx heq =>
      (List.nodup_append.1 hids).2.2 x.id (List.mem_map_of_mem hx) e.id (List.mem_map_of_mem he) heq
    have hmem : e.indexed ∈ old.map RegistryEntry.indexed := by
      rw [hindexed, ← hnew]
      exact List.mem_map_of_mem (List.mem_append_right _ he)
    obtain ⟨o, ho, hoe⟩ := List.mem_map.1 hmem
    have hid : o.id = e.id := congrArg IndexEntryDoc.id hoe
    have hdim : o.dimension = e.dimension := by
      by_contra hne
      exact hsame e he ⟨o, ho, hid, hne⟩
    rw [readBody_congr (h.others e.id hother), ← hid, ← hdim]
    exact hbodies o ho

theorem Saved.load (hformat : format.Lawful) (h : Saved format new d)
    (hwords : ∀ e ∈ new, e.indexed.Words)
    (hreload : ∀ e ∈ new, reload format e.dimension = .ok e.dimension) :
    loadRegistry format d = .ok new := by
  obtain ⟨text, htext, hread⟩ := h.index
  obtain ⟨text', htext', hparse⟩ := hformat.index _ (List.forall_mem_map.2 hwords)
  obtain rfl := Except.ok.inj (htext.symm.trans htext')
  refine loadRegistry_eq_ok.2 ⟨?_, fun e he => (h.bodies e he).trans (hreload e he)⟩
  rw [readIndex, hread]
  exact mapError_eq_ok.2 hparse

theorem crashAtomic_of_harmless (hformat : format.Lawful)
    (hold : loadRegistry format d₀ = .ok old) (hids : (new.map RegistryEntry.id).Nodup)
    (hwf : ∀ e ∈ new, e.dimension.WF) (hwords : ∀ e ∈ new, e.indexed.Words)
    (h : Harmless old new) : CrashAtomic format d₀ old new := by
  intro plan
  have hleft : Left format d₀ new (finalState (saveRegistry format new) ⟨d₀, plan⟩).state :=
    (Ensures.saveRegistry hids).finalState rfl
  have hreload : ∀ e ∈ new, reload format e.dimension = .ok e.dimension := fun e he =>
    (reload_eq_ok hformat (hwf e he)).2 ⟨rfl, h.saveable e he⟩
  rcases hleft with ⟨done, rest, hnew, hd⟩ | hd
  · have hdone : ∀ e ∈ done, e ∈ new := fun e he => hnew ▸ List.mem_append_left _ he
    have hrest : ∀ e ∈ rest, e ∈ new := fun e he => hnew ▸ List.mem_append_right _ he
    have hloadOld : (∀ e ∈ done, ¬ Changes old e) → _ := fun hsame =>
      hd.load_old hold (fun e he => hreload e (hdone e he)) hsame
    rcases h.bodies with hsame | ⟨hindexed, hone⟩
    · exact .inl (hloadOld fun e he => hsame e (hdone e he))
    · by_cases hchanged : ∃ e ∈ done, Changes old e
      · -- the one change is made, so none is left
        obtain ⟨e, he, hce⟩ := hchanged
        refine .inr (hd.load_new hold hids hnew hindexed (fun x hx => hreload x (hdone x hx))
          fun x hx hcx => ?_)
        obtain rfl := hone e (hdone e he) x (hrest x hx) hce hcx
        rw [← hnew, List.map_append] at hids
        exact (List.nodup_append.1 hids).2.2 _ (List.mem_map_of_mem he) _
          (List.mem_map_of_mem hx) rfl
      · push Not at hchanged
        exact .inl (hloadOld hchanged)
  · exact .inr (hd.load hformat hwords hreload)

/-- A save that stops after the body of an entry. -/
theorem exists_stop (hformat : format.Lawful) (hids : (new.map RegistryEntry.id).Nodup)
    (h : CrashAtomic format d₀ old new) {e : RegistryEntry} (hnew : done ++ e :: rest = new) :
    ∃ d, Written format d₀ (done ++ [e]) d ∧
      (loadRegistry format d = .ok old ∨ loadRegistry format d = .ok new) := by
  have hsplit : (done ++ [e]) ++ rest = new := by rw [← hnew]; simp
  obtain ⟨plan, hd⟩ := exists_written hformat hids hsplit
  exact ⟨_, hd, h plan⟩

/-- Once a body has changed, the new registry is loaded, and no other body is
left to change. -/
theorem load_new_of_changes (hformat : format.Lawful) (hold : loadRegistry format d₀ = .ok old)
    (hids : (new.map RegistryEntry.id).Nodup) (hwf : ∀ e ∈ new, e.dimension.WF)
    (h : CrashAtomic format d₀ old new) {e : RegistryEntry} (hnew : done ++ e :: rest = new)
    (hce : Changes old e) :
    old.map RegistryEntry.indexed = new.map RegistryEntry.indexed ∧
      ∀ x ∈ rest, ¬ Changes old x := by
  obtain ⟨d, hd, hload⟩ := exists_stop hformat hids h hnew
  have he : e ∈ new := hnew ▸ List.mem_append_right _ List.mem_cons_self
  obtain ⟨hindex, hbodies⟩ := loadRegistry_eq_ok.1 hold
  have hbody := hd.bodies e (by simp)
  obtain ⟨o, ho, hid, hne⟩ := hce
  have hload : loadRegistry format d = .ok new := by
    refine hload.resolve_left fun hload => hne ?_
    have hread := (loadRegistry_eq_ok.1 hload).2 o ho
    rw [hid, hbody] at hread
    exact ((reload_eq_ok hformat (hwf e he)).1 hread).1
  obtain ⟨hindex', hbodies'⟩ := loadRegistry_eq_ok.1 hload
  constructor
  · rw [readIndex_congr hd.index, hindex] at hindex'
    exact Except.ok.inj hindex'
  · rintro x hx ⟨o', ho', hid', hne'⟩
    have hother : ∀ y ∈ done ++ [e], y.id ≠ x.id := by
      have hsplit : (done ++ [e]) ++ rest = new := by rw [← hnew]; simp
      rw [← hsplit, List.map_append] at hids
      exact fun y hy heq => (List.nodup_append.1 hids).2.2 y.id (List.mem_map_of_mem hy) x.id
        (List.mem_map_of_mem hx) heq
    have hread := hbodies' x (hnew ▸ List.mem_append_right _ (List.mem_cons_of_mem e hx))
    rw [readBody_congr (hd.others x.id hother), ← hid', hbodies o' ho'] at hread
    exact hne' (Except.ok.inj hread)

theorem harmless_of_crashAtomic (hformat : format.Lawful)
    (hold : loadRegistry format d₀ = .ok old) (hids : (new.map RegistryEntry.id).Nodup)
    (hwf : ∀ e ∈ new, e.dimension.WF) (hwords : ∀ e ∈ new, e.indexed.Words)
    (h : CrashAtomic format d₀ old new) : Harmless old new := by
  refine ⟨fun e he => ?_, ?_⟩
  · obtain ⟨plan, hd⟩ := exists_saved hformat d₀ hids hwords
    have hbody := hd.bodies e he
    rcases h plan with hload | hload
    · -- the new index is then the old one, so the body is one of the old entries
      obtain ⟨text, htext, hread⟩ := hd.index
      obtain ⟨text', htext', hparse⟩ := hformat.index _ (List.forall_mem_map.2 hwords)
      obtain rfl := Except.ok.inj (htext.symm.trans htext')
      have hindex := (loadRegistry_eq_ok.1 hload).1
      rw [readIndex, hread] at hindex
      have hsame := Except.ok.inj (hparse.symm.trans (mapError_eq_ok.1 hindex))
      have hmem : e.indexed ∈ old.map RegistryEntry.indexed := by
        rw [← hsame]
        exact List.mem_map_of_mem he
      obtain ⟨o, ho, hoe⟩ := List.mem_map.1 hmem
      have hreload := (loadRegistry_eq_ok.1 hload).2 o ho
      rw [show o.id = e.id from congrArg IndexEntryDoc.id hoe, hbody] at hreload
      exact ((reload_eq_ok hformat (hwf e he)).1 hreload).2
    · have hreload := (loadRegistry_eq_ok.1 hload).2 e he
      rw [hbody] at hreload
      exact ((reload_eq_ok hformat (hwf e he)).1 hreload).2
  · by_cases hchanged : ∃ e ∈ new, Changes old e
    · obtain ⟨e, he, hce⟩ := hchanged
      obtain ⟨done, rest, hnew⟩ := List.append_of_mem he
      refine .inr ⟨(load_new_of_changes hformat hold hids hwf h hnew.symm hce).1, ?_⟩
      intro x hx y hy hcx hcy
      by_contra hne
      obtain ⟨done, rest, hnew⟩ := List.append_of_mem hx
      have hrest := (load_new_of_changes hformat hold hids hwf h hnew.symm hcx).2
      rw [hnew, List.mem_append, List.mem_cons] at hy
      rcases hy with hy | rfl | hy
      · -- the other change comes first, and leaves this one
        obtain ⟨first, middle, rfl⟩ := List.append_of_mem hy
        have hnew' : first ++ y :: (middle ++ x :: rest) = new := by rw [hnew]; simp
        exact (load_new_of_changes hformat hold hids hwf h hnew' hcy).2 x (by simp) hcx
      · exact hne rfl
      · exact hrest y hy hcy
    · push Not at hchanged
      exact .inl hchanged

/-- **Crash-atomic saves.** Wherever a save stops, the old registry is loaded
or the new one, exactly if every dimension reads back, and no body changes
or one changes under an index that stays the same. -/
theorem saveRegistry_crashAtomic_iff (hformat : format.Lawful)
    (hold : loadRegistry format d₀ = .ok old) (hids : (new.map RegistryEntry.id).Nodup)
    (hwf : ∀ e ∈ new, e.dimension.WF) (hwords : ∀ e ∈ new, e.indexed.Words) :
    CrashAtomic format d₀ old new ↔ Harmless old new :=
  ⟨harmless_of_crashAtomic hformat hold hids hwf hwords,
    crashAtomic_of_harmless hformat hold hids hwf hwords⟩

/-! ## A dimension that grows -/

/-- Texts that are the documents themselves. -/
def docFormat : RegistryFormat (IndexDoc ⊕ DimDoc) where
  indexText doc := .ok [.inl doc]
  parseIndex
    | [.inl doc] => .ok doc
    | _ => .error "no index"
  dimText doc := .ok [.inr doc]
  parseDim
    | [.inr doc] => .ok doc
    | _ => .error .toml
  display _ := "no dimension"

theorem lawful_docFormat : docFormat.Lawful where
  dim doc := ⟨[.inr doc], rfl, rfl⟩
  index doc _ := ⟨[.inl doc], rfl, rfl⟩

def region : RegistryEntry := ⟨1, 0, ["Sales"], (Dimension.new "Region").addElement "North" .leaf⟩

/-- The next generation of a dimension. -/
def regionGrown : RegistryEntry :=
  ⟨1, 1, ["Sales"], region.dimension.addElement "South" .leaf⟩

def regionDir : RegistryDir (IndexDoc ⊕ DimDoc) :=
  ⟨[(.index, [.inl [region.indexed]]), (dimPath 1, [.inr region.dimension.dimDoc])]⟩

theorem load_regionDir : loadRegistry docFormat regionDir = .ok [region] := by
  obtain ⟨entries, hload, heq⟩ := exists_ok_of_any (by decide +kernel :
    (loadRegistry docFormat regionDir).toOption.any (fun entries => entries = [region]) = true)
  rw [hload, of_decide_eq_true heq]

theorem wf_grown : regionGrown.dimension.WF :=
  ((Dimension.WF.new "Region").addElement "North" .leaf).addElement "South" .leaf

/-- One dimension grows under an index that stays, or with its generation. -/
theorem crashAtomic_region :
    CrashAtomic docFormat regionDir [region] [{ regionGrown with generation := 0 }] ∧
      ¬ CrashAtomic docFormat regionDir [region] [regionGrown] := by
  constructor
  · refine (saveRegistry_crashAtomic_iff lawful_docFormat load_regionDir (by decide) ?_ ?_).2
      ⟨?_, .inr ⟨rfl, ?_⟩⟩
    · exact List.forall_mem_singleton.2 wf_grown
    · exact List.forall_mem_singleton.2 ⟨by decide, by decide⟩
    · exact List.forall_mem_singleton.2 (by decide +kernel)
    · intro e he e' he' _ _
      rw [List.mem_singleton.1 he, List.mem_singleton.1 he']
  · intro h
    have hharmless := (saveRegistry_crashAtomic_iff lawful_docFormat load_regionDir (by decide)
      (List.forall_mem_singleton.2 wf_grown)
      (List.forall_mem_singleton.2 ⟨by decide, by decide⟩)).1 h
    rcases hharmless.bodies with hsame | ⟨hindexed, -⟩
    · exact hsame regionGrown (List.mem_singleton_self _)
        ⟨region, List.mem_singleton_self _, rfl, by decide +kernel⟩
    · exact absurd hindexed (by decide)

/-- The save stops after the body, and the grown dimension is loaded under
the old generation. -/
theorem load_region_mixed : loadRegistry docFormat regionDir = .ok [region] ∧
    loadRegistry docFormat (finalState (saveRegistry docFormat [regionGrown])
      ⟨regionDir, [none, none, none, none, none, some 0]⟩).state =
        .ok [{ region with dimension := regionGrown.dimension }] ∧
    region.dimension ≠ regionGrown.dimension ∧ region.generation ≠ regionGrown.generation := by
  refine ⟨load_regionDir, ?_, by decide +kernel, by decide⟩
  obtain ⟨entries, hload, heq⟩ := exists_ok_of_any (by decide +kernel :
    (loadRegistry docFormat (finalState (saveRegistry docFormat [regionGrown])
      ⟨regionDir, [none, none, none, none, none, some 0]⟩).state).toOption.any (fun entries =>
        entries = [{ region with dimension := regionGrown.dimension }]) = true)
  rw [hload, of_decide_eq_true heq]

end RegistryDir

end Epiphany
