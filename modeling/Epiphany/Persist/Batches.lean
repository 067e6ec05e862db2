import Epiphany.Persist.Store
/-!
# Batches on a store — all of it or none

A store checks a batch before it logs it, logs it before it applies it, and
the files may fail at any operation. The check foretells the writes one by
one, so the step after the log entry cannot fail, and the model ends as it
was or with the whole batch (`validateBatch_foretells`).
-/

namespace Epiphany

namespace Store

open Fallible Files

variable {format : SnapshotFormat} {m : Model}

/-! ## File operations leave the model -/

/-- Whether an operation leaves the model in memory, done or torn. -/
def LeavesModel (op : Attempt Store) : Prop :=
  ∀ s, (op.done s).model = s.model ∧ ∀ r, (op.torn r s).model = s.model

theorem model_renameTmp (s : Store) : s.renameTmp.model = s.model := by
  unfold renameTmp
  rcases s.disk.tmp with _ | bytes <;> rfl

theorem leavesModel_logBytes (bytes : List UInt8) : LeavesModel (logBytes bytes) :=
  fun _ => ⟨rfl, fun _ => rfl⟩

theorem leavesModel_op {f : Store → Store} (h : ∀ s, (f s).model = s.model) :
    LeavesModel (op f) := fun s => ⟨h s, fun _ => rfl⟩

theorem leavesModel_writeSnapshot {bytes : List UInt8} :
    ∀ op ∈ writeSnapshot bytes, LeavesModel op := by
  intro op hop
  simp only [writeSnapshot, List.mem_cons, List.not_mem_nil, or_false] at hop
  obtain rfl | rfl | rfl | rfl | rfl | rfl := hop
  · exact leavesModel_op fun _ => rfl
  · exact fun _ => ⟨rfl, fun _ => rfl⟩
  · exact leavesModel_op fun _ => rfl
  · exact leavesModel_op model_renameTmp
  · exact leavesModel_op fun _ => rfl
  · exact leavesModel_op fun _ => rfl

theorem leavesModel_clearLog : ∀ op ∈ clearLog, LeavesModel op := by
  intro op hop
  simp only [clearLog, List.mem_cons, List.not_mem_nil, or_false] at hop
  obtain rfl | rfl | rfl | rfl := hop
  · exact leavesModel_op fun _ => rfl
  · exact leavesModel_op fun _ => rfl
  · exact leavesModel_logBytes _
  · exact leavesModel_op fun _ => rfl

/-- The model in memory is the one given. -/
abbrev HasModel (m : Model) : Faulty Store → Prop := On fun s => s.model = m

/-- A run of file operations leaves the model, wherever it stops. -/
theorem attempts_leave {ops : List (Attempt Store)} (h : ∀ op ∈ ops, LeavesModel op) :
    Ensures (HasModel m) (attempts PersistError.io ops) (fun _ => HasModel m) (HasModel m) :=
  Ensures.attempts_keep fun op hop s hs =>
    ⟨((h op hop s).1).trans hs, fun r => ((h op hop s).2 r).trans hs⟩

theorem starts_leave {s : Store} {w : Faulty Store} (hs : s.model = m)
    (hw : On (fun s' => s' = s) w) : HasModel m w := by
  have hstate : w.state = s := hw
  exact (congrArg Store.model hstate).trans hs

theorem ignore_leaves {f : Store → Store} (hf : ∀ s, (f s).model = s.model) :
    Ensures (HasModel m) (ignore (attempt PersistError.io (op f))) (fun _ => HasModel m)
      (HasModel m) :=
  Ensures.ignore (Ensures.attempt (fun s hs => (hf s).trans hs) fun _ _ hs => hs)

theorem poisonWal_leaves :
    Ensures (HasModel m) poisonWal (fun _ => HasModel m) (HasModel m) := by
  unfold poisonWal
  refine Ensures.bind (R := fun _ => HasModel m) (Ensures.update fun _ hs => hs)
    fun _ => Ensures.fix fun s hs => Ensures.read ?_
  refine Ensures.bind (R := fun _ => HasModel m) ?_ fun _ => ignore_leaves fun _ => rfl
  exact (ignore_leaves (f := setLen s.goodLen) fun _ => rfl).weaken (fun w hw => starts_leave hs hw)
    (fun _ _ h => h) fun _ h => h

/-- **The append leaves the model**, when it fails too. -/
theorem appendWal_leaves {framed : List UInt8} :
    Ensures (HasModel m) (appendWal framed) (fun _ => HasModel m) (HasModel m) := by
  unfold appendWal
  refine Ensures.fix fun s hs => Ensures.read ?_
  by_cases hpoisoned : s.poisoned = true
  · rw [if_pos hpoisoned]
    exact Ensures.throw _ fun w hw => starts_leave hs hw
  rw [if_neg hpoisoned]
  have hlog : ∀ op ∈ (if s.syncOnWrite then [logBytes framed, sync] else [logBytes framed]),
      LeavesModel op := by
    intro op hop
    split_ifs at hop
    · simp only [List.mem_cons, List.not_mem_nil, or_false] at hop
      obtain rfl | rfl := hop
      · exact leavesModel_logBytes _
      · exact leavesModel_op fun _ => rfl
    · obtain rfl := List.mem_singleton.1 hop
      exact leavesModel_logBytes _
  refine Ensures.bind (R := fun _ => HasModel m) (Ensures.tryCatch (F := HasModel m) ?_
    fun e => ?_) fun _ => Ensures.update fun _ hs => hs
  · exact (attempts_leave hlog).weaken (fun w hw => starts_leave hs hw) (fun _ _ h => h)
      fun _ h => h
  · exact Ensures.bind (R := fun _ => HasModel m) poisonWal_leaves
      fun _ => Ensures.throw _ fun _ hs => hs

/-- A checkpoint of the live model leaves it. -/
theorem maybeAutoCheckpoint_leaves : Ensures (HasModel m) (maybeAutoCheckpoint format)
    (fun _ => HasModel m) (HasModel m) := by
  unfold maybeAutoCheckpoint
  refine Ensures.fix fun s hs => Ensures.read ?_
  split_ifs with hlong
  · unfold checkpoint
    refine Ensures.read ?_
    split_ifs with hpoisoned
    · exact Ensures.throw _ fun w hw => starts_leave hs hw
    · unfold checkpointModel
      refine Ensures.read (Ensures.bind (R := fun _ => HasModel m) ?_ fun bytes =>
        Ensures.bind (R := fun _ => HasModel m) (attempts_leave fun op hop => ?_) fun _ =>
          Ensures.update fun _ hs => hs)
      · refine (Ensures.ofExcept (I := fun s => s.model = m) fun s hs => hs).weaken
          (fun w hw => starts_leave hs hw) (fun _ _ h => h.2) fun _ h => h
      · exact (List.mem_append.1 hop).elim (leavesModel_writeSnapshot op)
          (leavesModel_clearLog op)
  · exact Ensures.pure _ fun w hw => starts_leave hs hw

/-! ## A batch -/

/-- The steps of a batch that has passed its check: the log, then the model,
which nothing can stop. -/
def logThenApply (format : SnapshotFormat) (writes : List Cube.CellWrite) (cube : Cube) :
    StoreM Unit := do
  appendWal (Wal.Append.framed (.batch (writes.map Cube.CellWrite.logged)))
  update fun s => { s with model := { s.model with cube := cube } }
  maybeAutoCheckpoint format

variable {writes : List Cube.CellWrite} {w : Faulty Store}

theorem setBatch_run (hp : w.state.poisoned = false) : setBatch format writes w = (do
    MonadExcept.ofExcept
      ((w.state.model.cube.validateBatch writes).mapError fun e => .batchRejected e.1 e.2)
    appendWal (Wal.Append.framed (.batch (writes.map Cube.CellWrite.logged)))
    let cube ← MonadExcept.ofExcept
      ((w.state.model.cube.applyWrites writes).mapError PersistError.model)
    update fun s => { s with model := { s.model with cube := cube } }
    maybeAutoCheckpoint format : StoreM Unit) w := by
  have hnot : ¬ w.state.poisoned = true := by rw [hp]; decide
  unfold setBatch
  rw [bind_run_ok _ (show Fallible.read w = .ok w.state w from rfl), if_neg hnot]

/-- A store whose log is not trusted refuses every batch. -/
theorem setBatch_of_poisoned (hp : w.state.poisoned = true) :
    setBatch format writes w = .error .poisoned w := by
  unfold setBatch
  rw [bind_run_ok _ (show Fallible.read w = .ok w.state w from rfl), if_pos hp]
  rfl

/-- A refused batch is refused before anything is done. -/
theorem setBatch_of_refused {k : Nat} {e : ModelError} (hp : w.state.poisoned = false)
    (h : w.state.model.cube.validateBatch writes = .error (k, e)) :
    setBatch format writes w = .error (.batchRejected k e) w := by
  rw [setBatch_run hp, h]
  rfl

/-- A batch that is not refused is logged and applied. -/
theorem setBatch_of_checked {u : Unit} {c' : Cube} (hp : w.state.poisoned = false)
    (h : w.state.model.cube.validateBatch writes = .ok u)
    (hc' : w.state.model.cube.applyWrites writes = .ok c') :
    setBatch format writes w = logThenApply format writes c' w := by
  rw [setBatch_run hp, h, hc']
  rfl

/-- The model ends as it was, or with the batch, and with the batch when no
error is reported. -/
theorem logThenApply_all_or_none {c' : Cube} : Ensures (HasModel m)
    (logThenApply format writes c') (fun _ => HasModel { m with cube := c' })
    (fun w => HasModel m w ∨ HasModel { m with cube := c' } w) := by
  unfold logThenApply
  refine Ensures.bind (R := fun _ => HasModel m)
    (appendWal_leaves.weaken (fun _ h => h) (fun _ _ h => h) fun _ h => .inl h) fun _ => ?_
  refine Ensures.bind (R := fun _ => HasModel { m with cube := c' }) ?_ fun _ =>
    maybeAutoCheckpoint_leaves.weaken (fun _ h => h) (fun _ _ h => h) fun _ h => .inr h
  rintro w hw
  have hstate : w.state.model = m := hw
  exact congrArg (fun m : Model => { m with cube := c' }) hstate

/-- **The check of a batch foretells the batch.** It passes exactly when the
writes succeed one by one, and otherwise names the first that fails and its
error. So a store refuses a batch before it does anything, or logs it and then
applies it with nothing to stop it; when the files fail, the model is as it was
or has the whole batch, and it has the batch when no error is reported. A store
whose log failed once refuses every batch. -/
theorem validateBatch_foretells (writes : List Cube.CellWrite) :
    (∀ c : Cube,
      (c.validateBatch writes = .ok () ↔ ∃ c', c.applyWrites writes = .ok c') ∧
      ∀ k e, c.validateBatch writes = .error (k, e) ↔ ∃ c' write,
        c.applyWrites (writes.take k) = .ok c' ∧ writes[k]? = some write ∧
        c'.applyWrite write = .error e) ∧
    (∀ (format : SnapshotFormat) (w : Faulty Store), w.state.poisoned = true →
      setBatch format writes w = .error .poisoned w) ∧
    ∀ (format : SnapshotFormat) (w : Faulty Store), w.state.poisoned = false →
      (∀ k e, w.state.model.cube.validateBatch writes = .error (k, e) →
        setBatch format writes w = .error (.batchRejected k e) w) ∧
      (w.state.model.cube.validateBatch writes = .ok () → ∃ c',
        w.state.model.cube.applyWrites writes = .ok c' ∧
        setBatch format writes w = logThenApply format writes c' w ∧
        (∀ w', setBatch format writes w = .ok () w' →
          w'.state.model = { w.state.model with cube := c' }) ∧
        ∀ e w', setBatch format writes w = .error e w' →
          w'.state.model = w.state.model ∨
          w'.state.model = { w.state.model with cube := c' }) := by
  refine ⟨fun c => ⟨Cube.validateBatch_eq_ok, fun k e => Cube.validateBatch_eq_error⟩,
    fun format w hp => setBatch_of_poisoned hp,
    fun format w hp => ⟨fun k e h => setBatch_of_refused hp h, fun h => ?_⟩⟩
  obtain ⟨c', hc'⟩ := Cube.applyWrites_of_validateBatch h
  have hrun : setBatch format writes w = logThenApply format writes c' w :=
    setBatch_of_checked hp h hc'
  have hends := @logThenApply_all_or_none format w.state.model writes c' w rfl
  refine ⟨c', hc', hrun, fun w' hw' => ?_, fun e w' hw' => ?_⟩
  · rw [← hrun, hw'] at hends
    exact hends
  · rw [← hrun, hw'] at hends
    exact hends

/-- An amount of the north and a note of the south. -/
def salesBatch : List Cube.CellWrite :=
  [.leaf [0, 0] ((Fixed.tryFrom 10000).getD Fixed.zero), .str [1, 1] "late"]

/-- A store of a cube, with an empty log. -/
def storeOf (c : Cube) (plan : List (Option Nat)) : Faulty Store :=
  ⟨⟨⟨[], none, Wal.header⟩, .new c, Wal.headerLen, true, Wal.headerLen, false, 0⟩, plan⟩

/-- A store that writes no snapshot. -/
def noSnapshots : SnapshotFormat := ⟨fun _ => .error .corrupt, fun _ => .error .corrupt⟩

/-- Whether a batch is reported as written. -/
def accepts (c : Cube) (plan : List (Option Nat)) : Bool :=
  match setBatch noSnapshots salesBatch (storeOf c plan) with
  | .ok _ _ => true
  | .error _ _ => false

/-- The batch is written whole. Where the log fails behind three bytes, it is
whole or it is not there. -/
theorem validateBatch_foretells_sales : ∃ c c' : Cube, Cube.build "Sales" Cube.salesDefs = .ok c ∧
    c.applyWrites salesBatch = .ok c' ∧ c'.namedNumbers.length = 1 ∧ c'.namedTexts.length = 1 ∧
    (∃ w, setBatch noSnapshots salesBatch (storeOf c []) = .ok () w ∧ w.state.model.cube = c') ∧
    ∃ e w, setBatch noSnapshots salesBatch (storeOf c [some 3]) = .error e w ∧
      (w.state.model.cube = c ∨ w.state.model.cube = c') := by
  obtain ⟨c, hc, h⟩ := exists_ok_of_any (x := Cube.build "Sales" Cube.salesDefs)
    (p := fun c => (c.validateBatch salesBatch).isOk = true ∧
      ((c.applyWrites salesBatch).toOption.any fun c' =>
        c'.namedNumbers.length = 1 ∧ c'.namedTexts.length = 1) = true ∧
      accepts c [] = true ∧ accepts c [some 3] = false)
    (by decide +kernel)
  obtain ⟨hvalid, happly, hwhole, htorn⟩ := of_decide_eq_true h
  obtain ⟨⟨⟩, hvalid⟩ := exists_of_isOk hvalid
  obtain ⟨c', hc', hlengths⟩ := exists_ok_of_any happly
  obtain ⟨hnumbers, htexts⟩ := of_decide_eq_true hlengths
  have hends := fun plan =>
    ((validateBatch_foretells salesBatch).2.2 noSnapshots (storeOf c plan) rfl).2 hvalid
  refine ⟨c, c', hc, hc', hnumbers, htexts, ?_, ?_⟩
  · obtain ⟨next, hnext, -, hok, -⟩ := hends []
    obtain rfl : next = c' := Except.ok.inj (hnext.symm.trans hc')
    unfold accepts at hwhole
    split at hwhole
    · rename_i u w hrun
      exact ⟨w, hrun, congrArg Model.cube (hok w hrun)⟩
    · cases hwhole
  · obtain ⟨next, hnext, -, -, herror⟩ := hends [some 3]
    obtain rfl : next = c' := Except.ok.inj (hnext.symm.trans hc')
    unfold accepts at htorn
    split at htorn
    · cases htorn
    · rename_i e w hrun
      exact ⟨e, w, hrun, (herror e w hrun).imp (congrArg Model.cube) (congrArg Model.cube)⟩

end Store

end Epiphany
