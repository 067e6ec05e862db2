import Epiphany.Server.NamedWrites
/-!
# Target runs — an outcome on its cubes, with other clients and faults

For each cube that an outcome targets, its growth and its cells are checked
together on a copy of what readers see, and then committed one after the
other. Others commit in between, and files fail. What one commit does is a
value here (`CommitRun`): where its work is afterwards, and what it answers.
-/

namespace Epiphany

/-! ## Commits to one cube -/

/-- Where the work of a commit can be: readers see it, the writer has it, a
restart brings it back. -/
inductive Copy where
  | readers
  | writer
  | restart
deriving DecidableEq

/-- What fails in a definition. -/
inductive DefineFault where
  /-- The work is on disk; its version cannot be recorded. -/
  | version
  /-- The snapshot or the log cannot be written; the checkpoint of the model
  of before that follows can. -/
  | save
  /-- The checkpoint cannot be written either. The snapshot of the work may
  have been in place by then. -/
  | checkpoint (kept : Bool)
deriving DecidableEq

/-- What fails in a batch. -/
inductive BatchFault where
  /-- The batch is in the log; its version cannot be recorded, or a checkpoint
  that is due fails. -/
  | version
  /-- The log cannot be written. The batch may still be in it, where it could
  not be cut back. -/
  | log (kept : Bool)
deriving DecidableEq

def DefineFault.keeps : DefineFault → Copy → Bool
  | .version, .readers => false
  | .version, _ => true
  | .checkpoint kept, .restart => kept
  | _, _ => false

def BatchFault.keeps : BatchFault → Copy → Bool
  | .version, .readers => false
  | .version, _ => true
  | .log kept, .restart => kept
  | _, _ => false

/-- A cube: the model of its writer and the one that readers see. -/
structure LiveCube where
  store : Model
  published : Model
  /-- No more commits, until a checkpoint or a restart. -/
  stopped : Bool

/-- What a commit did. -/
structure CommitRun (α : Type) where
  /-- The cube it met. -/
  met : LiveCube
  /-- What it made of the model of the writer. -/
  made : Option Model
  /-- Where its work is. -/
  kept : Copy → Bool
  result : Except ApiError α
  next : LiveCube

namespace LiveCube

variable {α : Type} (s : LiveCube)

def refused (e : ApiError) (next : LiveCube) : CommitRun α :=
  ⟨s, none, fun _ => false, .error e, next⟩

/-- A commit that its cube accepts. Any fault is an error to the client. -/
def accepted (m : Model) (a : α) (kept : Copy → Bool) (faultless : Bool) (next : LiveCube) :
    CommitRun α :=
  ⟨s, some m, kept, if faultless then .ok a else .error .internal, next⟩

/-- Edit the model, and publish it. After an error the writer goes back to
what readers see. -/
def define (edit : Model → Except ApiError (Model × α)) (fault : Option DefineFault) :
    CommitRun α :=
  if s.stopped then s.refused .internal s
  else
    match edit s.store with
    | .error e => s.refused e { s with store := s.published }
    | .ok (m, a) =>
      s.accepted m a (fun copy => fault.all fun f => f.keeps copy) fault.isNone <|
        match fault with
        | none => { s with store := m, published := m }
        | some .version => { s with store := m }
        | some .save => { s with store := s.published }
        | some (.checkpoint _) => { s with store := s.published, stopped := true }

/-- Write a batch of cells, and publish it. -/
def applyBatch (writes : List Cube.CellWrite) (fault : Option BatchFault) : CommitRun Unit :=
  if s.stopped then s.refused .internal s
  else
    match s.store.setBatch writes with
    | .error e => s.refused e s
    | .ok m =>
      s.accepted m () (fun copy => fault.all fun f => f.keeps copy) fault.isNone <|
        match fault with
        | none => { s with store := m, published := m }
        | some .version => { s with store := m }
        | some (.log _) => { s with stopped := true }

end LiveCube

/-- An edit of a model that keeps its cube well formed. -/
structure Definition where
  edit : Model → Except ApiError Model
  wf : ∀ m m', m.cube.WF → edit m = .ok m' → m'.cube.WF

/-- A structural edit of the cube. -/
def Definition.ofOp (op : CubeOp) : Definition where
  edit m := (m.run op).mapError fun e => .ofQuery (.model e)
  wf _ _ hm h := Model.WF.run hm (mapError_eq_ok.1 h)

/-- A commit of another client. -/
inductive OtherCommit where
  | define (definition : Definition) (fault : Option DefineFault)
  | batch (writes : List Cube.CellWrite) (fault : Option BatchFault)

namespace LiveCube

variable (s : LiveCube)

def other : OtherCommit → LiveCube
  | .define definition fault =>
    (s.define (fun m => (definition.edit m).map fun m => (m, ())) fault).next
  | .batch writes fault => (s.applyBatch writes fault).next

def others (commits : List OtherCommit) : LiveCube := commits.foldl other s

end LiveCube

/-! ## One target -/

/-- What happens around the commits to a target. -/
structure Around where
  /-- After the snapshot was taken. -/
  before : List OtherCommit
  growth : Option DefineFault
  /-- After the growth, and before the cells. -/
  between : List OtherCommit
  cells : Option BatchFault

namespace CubeChanges

variable (changes : CubeChanges)

/-- There are members or edges to add. -/
def grows : Bool := !changes.elements.isEmpty || !changes.edges.isEmpty

/-- Add the members and edges; with the number of new members. -/
def growth (m : Model) : Except ApiError (Model × Nat) :=
  ((m.cube.extendSchema changes.elements changes.edges).mapError
    fun e => ApiError.ofQuery (.model e)).map fun r => ({ m with cube := r.1 }, r.2)

/-- The growth and the writes of the cells, staged on a copy. -/
def stage (c : Cube) : Except ApiError (Cube × List Cube.CellWrite) := do
  let (preview, _) ← (c.extendSchema changes.elements changes.edges).mapError fun e =>
    ApiError.unprocessable "FLOW_SCHEMA_ERROR" e.toString
  let writes ← changes.cells.mapM preview.buildWrite
  .ok (preview, writes)

end CubeChanges

/-- What was done to one target. A commit that was not reached is none. -/
structure TargetRun where
  growth : Option (CommitRun Nat)
  cells : Option (List Cube.CellWrite × CommitRun Unit)
  result : Except ApiError (Nat × Nat)

namespace LiveCube

variable (s : LiveCube)

/-- Commit the cells, if there are any. -/
def writeCells (writes : List Cube.CellWrite) (around : Around) (growth : Option (CommitRun Nat))
    (added : Nat) : TargetRun :=
  if writes.isEmpty then ⟨growth, none, .ok (added, 0)⟩
  else
    let batch := (s.others around.between).applyBatch writes around.cells
    ⟨growth, some (writes, batch), batch.result.map fun _ => (added, writes.length)⟩

/-- Change one target: all is checked, then the growth is committed, and
then the cells. -/
def applyTarget (changes : CubeChanges) (around : Around) : TargetRun :=
  match changes.stage s.published.cube with
  | .error e => ⟨none, none, .error e⟩
  | .ok (_, writes) =>
    let s := s.others around.before
    if changes.grows then
      let growth := s.define changes.growth around.growth
      match growth.result with
      | .error e => ⟨some growth, none, .error e⟩
      | .ok added => growth.next.writeCells writes around (some growth) added
    else s.writeCells writes around none 0

end LiveCube

namespace FlowOutcome

/-- Change the targets in turn, up to the first that fails. A cube is given
as its turn finds it. -/
def applyTargets (cubes : String → Option LiveCube) (around : String → Around) :
    List (String × CubeChanges) → List (String × TargetRun)
  | [] => []
  | (cube, changes) :: rest =>
    match cubes cube with
    | none => []
    | some s =>
      let run := s.applyTarget changes (around cube)
      (cube, run) :: if run.result.isOk then applyTargets cubes around rest else []

end FlowOutcome

/-! ## All that is staged for a target, or nothing -/

/-- A write has the value that is staged as a text. -/
def Cube.CellWrite.Carries (value : String) : Cube.CellWrite → Prop
  | .leaf _ number => Fixed.fromStr value = .ok number
  | .str _ text => text = value

namespace TargetRun

variable (run : TargetRun) (changes : CubeChanges) (copy : Copy)

/-- The staged members and edges are in a copy of the cube. -/
def Grown : Prop := ∃ c m n, run.growth = some c ∧ c.kept copy = true ∧
  changes.growth c.met.store = .ok (m, n) ∧ c.made = some m

/-- Some of them were not there before. -/
def Fresh : Prop := ∃ c m, run.growth = some c ∧ c.made = some m ∧
  m.cube.dimensions ≠ c.met.store.cube.dimensions

/-- Some batch is in a copy. -/
def Touched : Prop := ∃ writes c, run.cells = some (writes, c) ∧ c.kept copy = true

/-- The staged cells are in a copy, each in the cell of its names. -/
def Written : Prop := ∃ writes c m, run.cells = some (writes, c) ∧ c.kept copy = true ∧
  c.made = some m ∧ Cube.Wrote c.met.store.cube writes m.cube ∧
  List.Forall₂ (fun cell w => c.met.store.cube.NamesCell cell.coord w.coord ∧
    w.Carries cell.value) changes.cells writes

def All : Prop :=
  (changes.grows = true → run.Grown changes copy) ∧
    (changes.cells ≠ [] → run.Written changes copy)

def Nothing : Prop := (run.Grown changes copy → ¬ run.Fresh) ∧ ¬ run.Touched copy

/-- **A target is changed as a whole or not at all**, in every copy; and no
error leaves new members without the cells that came with them. -/
structure Transactional : Prop where
  whole : ∀ copy, run.All changes copy ∨ run.Nothing changes copy
  error : run.result.isOk = false → changes.cells ≠ [] → run.Fresh → ∀ copy,
    run.Grown changes copy → run.Written changes copy

end TargetRun

namespace LiveCube

variable (s : LiveCube)

/-- A batch is accepted. -/
def accepts (writes : List Cube.CellWrite) : Prop :=
  s.stopped = false ∧ (s.store.setBatch writes).isOk = true

instance (writes : List Cube.CellWrite) : Decidable (s.accepts writes) :=
  inferInstanceAs (Decidable (_ ∧ _))

/-- If a batch is written, the names of the cells are where they were when it
was made. -/
def InPlace (changes : CubeChanges) (preview : Cube) (writes : List Cube.CellWrite)
    (fault : Option BatchFault) : Prop :=
  s.accepts writes → fault ≠ some (.log false) →
    ∀ cell ∈ changes.cells, s.store.cube.indicesOf cell.coord = preview.indicesOf cell.coord

/-- The cube that the cells of a target meet after its growth is published. -/
def meet (m : Model) (around : Around) : LiveCube :=
  ({ s with store := m, published := m } : LiveCube).others around.between

/-- What the clients and the files do around a target that stages cells.
Names stay where they were until a batch at them is written. And where a
growth adds something and any copy keeps it, neither commit meets a fault and
the batch is accepted by the cube as the others have left it. -/
structure Settles (changes : CubeChanges) (around : Around) (preview : Cube)
    (writes : List Cube.CellWrite) : Prop where
  alone : changes.grows = false →
    ((s.others around.before).others around.between).InPlace changes preview writes around.cells
  grown : changes.grows = true → (s.others around.before).stopped = false →
    ∀ m n, changes.growth (s.others around.before).store = .ok (m, n) →
      (around.growth = none →
        ((s.others around.before).meet m around).InPlace changes preview writes around.cells) ∧
      (m.cube.dimensions ≠ (s.others around.before).store.cube.dimensions →
        around.growth ≠ some .save → around.growth ≠ some (.checkpoint false) →
        around.growth = none ∧ around.cells = none ∧
          ((s.others around.before).meet m around).accepts writes)

end LiveCube

/-! ## Well-formedness -/

namespace CubeChanges

variable {changes : CubeChanges} {c preview : Cube} {writes : List Cube.CellWrite}

theorem previewWrites_eq :
    FlowOutcome.previewWrites c changes = (changes.stage c).map Prod.snd := by
  unfold FlowOutcome.previewWrites stage
  rcases hgrow : (c.extendSchema changes.elements changes.edges).mapError (fun e =>
    ApiError.unprocessable "FLOW_SCHEMA_ERROR" e.toString) with e | ⟨preview, added⟩
  · rw [hgrow]
    rfl
  · rcases hwrites : changes.cells.mapM preview.buildWrite with e | writes
    · simp only [hgrow, bind, Except.bind, hwrites, Except.map]
    · simp only [hgrow, bind, Except.bind, hwrites, Except.map]

theorem stage_eq_ok (h : changes.stage c = .ok (preview, writes)) :
    (∃ added, c.extendSchema changes.elements changes.edges = .ok (preview, added)) ∧
      changes.cells.mapM preview.buildWrite = .ok writes := by
  obtain ⟨⟨preview', added⟩, hgrow, h⟩ := bind_eq_ok.1 h
  obtain ⟨writes', hwrites, h⟩ := bind_eq_ok.1 h
  cases h
  exact ⟨⟨added, mapError_eq_ok.1 hgrow⟩, hwrites⟩

theorem growth_eq_ok {m m' : Model} {n : Nat} (h : changes.growth m = .ok (m', n)) :
    m.cube.extendSchema changes.elements changes.edges = .ok (m'.cube, n) := by
  obtain ⟨⟨next, added⟩, hgrow, heq⟩ := map_eq_ok.1 h
  cases heq
  exact mapError_eq_ok.1 hgrow

end CubeChanges

namespace LiveCube

variable {s : LiveCube} {α : Type}

/-- The models of a cube are well formed. -/
structure WF (s : LiveCube) : Prop where
  store : s.store.cube.WF
  published : s.published.cube.WF

/-- What a commit leaves is of the models before it and the one it made. -/
theorem WF.define (hs : s.WF) {edit : Model → Except ApiError (Model × α)}
    {fault : Option DefineFault}
    (hedit : ∀ m a, edit s.store = .ok (m, a) → m.cube.WF) : (s.define edit fault).next.WF := by
  unfold LiveCube.define
  split_ifs
  · exact hs
  · rcases hmade : edit s.store with e | ⟨m, a⟩
    · exact ⟨hs.published, hs.published⟩
    · have hm := hedit m a hmade
      dsimp only [accepted]
      split
      · exact ⟨hm, hm⟩
      · exact ⟨hm, hs.published⟩
      · exact ⟨hs.published, hs.published⟩
      · exact ⟨hs.published, hs.published⟩

theorem WF.applyBatch (hs : s.WF) {writes : List Cube.CellWrite} {fault : Option BatchFault} :
    (s.applyBatch writes fault).next.WF := by
  unfold LiveCube.applyBatch
  split_ifs
  · exact hs
  · rcases hmade : s.store.setBatch writes with e | m
    · exact hs
    · have hm := WriteServer.wf_setBatch hs.store hmade
      dsimp only [accepted]
      split
      · exact ⟨hm, hm⟩
      · exact ⟨hm, hs.published⟩
      · exact ⟨hs.store, hs.published⟩

theorem WF.other (hs : s.WF) (commit : OtherCommit) : (s.other commit).WF := by
  cases commit with
  | define definition fault =>
    refine hs.define fun m a hm => ?_
    obtain ⟨m', hm', heq⟩ := map_eq_ok.1 hm
    cases heq
    exact definition.wf _ _ hs.store hm'
  | batch writes fault => exact hs.applyBatch

theorem WF.others (hs : s.WF) (commits : List OtherCommit) : (s.others commits).WF := by
  unfold LiveCube.others
  induction commits generalizing s with
  | nil => exact hs
  | cons commit rest ih => exact ih (hs.other commit)

theorem wf_meet {m : Model} (hm : m.cube.WF) (around : Around) : (s.meet m around).WF :=
  WF.others (s := { s with store := m, published := m }) ⟨hm, hm⟩ around.between

/-! ## Commits, accepted and refused -/

theorem define_refused {edit : Model → Except ApiError (Model × α)}
    (h : s.stopped = true ∨ (edit s.store).isOk = false) (fault : Option DefineFault) :
    ∃ e next, s.define edit fault = s.refused e next := by
  unfold LiveCube.define
  split_ifs with hstopped
  · exact ⟨_, _, rfl⟩
  · rcases hmade : edit s.store with e | r
    · exact ⟨_, _, rfl⟩
    · rw [hmade] at h
      cases h with
      | inl h => exact absurd h hstopped
      | inr h => cases h

theorem define_accepted {edit : Model → Except ApiError (Model × α)} {m : Model} {a : α}
    (hstopped : s.stopped = false) (hmade : edit s.store = .ok (m, a))
    (fault : Option DefineFault) : ∃ next,
      s.define edit fault =
        s.accepted m a (fun copy => fault.all fun f => f.keeps copy) fault.isNone next ∧
      (fault = none → next = { s with store := m, published := m }) := by
  unfold LiveCube.define
  rw [if_neg (by rw [hstopped]; exact Bool.false_ne_true), hmade]
  refine ⟨_, rfl, fun h => ?_⟩
  rw [h]

theorem applyBatch_refused {writes : List Cube.CellWrite} (h : ¬ s.accepts writes)
    (fault : Option BatchFault) : ∃ e, s.applyBatch writes fault = s.refused e s := by
  unfold LiveCube.applyBatch
  split_ifs with hstopped
  · exact ⟨_, rfl⟩
  · rcases hmade : s.store.setBatch writes with e | m
    · exact ⟨_, rfl⟩
    · refine absurd ⟨Bool.eq_false_iff.2 hstopped, ?_⟩ h
      rw [hmade]
      rfl

theorem applyBatch_accepted {writes : List Cube.CellWrite} (h : s.accepts writes)
    (fault : Option BatchFault) : ∃ m next, s.store.setBatch writes = .ok m ∧
      s.applyBatch writes fault =
        s.accepted m () (fun copy => fault.all fun f => f.keeps copy) fault.isNone next := by
  obtain ⟨hstopped, hok⟩ := h
  obtain ⟨m, hm⟩ := exists_of_isOk hok
  unfold LiveCube.applyBatch
  rw [if_neg (by rw [hstopped]; exact Bool.false_ne_true), hm]
  exact ⟨m, _, rfl, rfl⟩

end LiveCube

/-! ## Cells at their names -/

namespace Cube

variable {c preview : Cube} {cell : PlannedCell} {write : CellWrite}

theorem carries_of_buildWrite (h : preview.buildWrite cell = .ok write) :
    write.Carries cell.value := by
  obtain ⟨r, -, h⟩ := bind_eq_ok.1 h
  split_ifs at h
  · obtain rfl := Except.ok.inj h
    rfl
  · obtain ⟨number, hnumber, h⟩ := bind_eq_ok.1 h
    obtain rfl := Except.ok.inj h
    exact mapError_eq_ok.1 hnumber

/-- **Writes made on one cube are at their names on another** if and only if
the names are where they were. -/
theorem named_iff (hc : ∀ d ∈ c.dimensions, d.WF) {cells : List PlannedCell}
    {writes : List CellWrite} (h : cells.mapM preview.buildWrite = .ok writes) :
    List.Forall₂ (fun cell w => c.NamesCell cell.coord w.coord ∧ w.Carries cell.value)
        cells writes ↔
      ∀ cell ∈ cells, c.indicesOf cell.coord = preview.indicesOf cell.coord := by
  rw [mapM_eq_ok] at h
  induction h with
  | nil => simp
  | cons hfirst _ ih =>
    have hat := indicesOf_of_buildWrite hfirst
    rw [List.forall₂_cons, List.forall_mem_cons, ih, hat, indicesOf_eq_some hc]
    exact and_congr_left' (and_iff_left (carries_of_buildWrite hfirst))

end Cube

theorem BatchFault.exists_keeps_iff (fault : Option BatchFault) :
    (∃ copy, (fault.all fun f => f.keeps copy) = true) ↔ fault ≠ some (.log false) := by
  constructor
  · rintro ⟨copy, hcopy⟩ rfl
    cases copy with
    | readers => cases hcopy
    | writer => cases hcopy
    | restart => cases hcopy
  · intro h
    refine ⟨.restart, ?_⟩
    rcases fault with _ | ⟨⟩ | kept
    · rfl
    · rfl
    · cases kept with
      | false => exact absurd rfl h
      | true => rfl

theorem DefineFault.exists_keeps_iff (fault : Option DefineFault) :
    (∃ copy, (fault.all fun f => f.keeps copy) = true) ↔
      fault ≠ some .save ∧ fault ≠ some (.checkpoint false) := by
  constructor
  · rintro ⟨copy, hcopy⟩
    refine ⟨?_, ?_⟩
    · rintro rfl
      cases copy with
      | readers => cases hcopy
      | writer => cases hcopy
      | restart => cases hcopy
    · rintro rfl
      cases copy with
      | readers => cases hcopy
      | writer => cases hcopy
      | restart => cases hcopy
  · rintro ⟨hsave, hcheckpoint⟩
    refine ⟨.restart, ?_⟩
    rcases fault with _ | ⟨⟩ | ⟨⟩ | kept
    · rfl
    · rfl
    · exact absurd rfl hsave
    · cases kept with
      | false => exact absurd rfl hcheckpoint
      | true => rfl

theorem BatchFault.forall_keeps_iff (fault : Option BatchFault) :
    (∀ copy, (fault.all fun f => f.keeps copy) = true) ↔ fault = none := by
  constructor
  · intro h
    have hreaders := h .readers
    rcases fault with _ | ⟨⟩ | kept
    · rfl
    · cases hreaders
    · cases hreaders
  · rintro rfl copy
    rfl

namespace TargetRun

variable {run : TargetRun} {changes : CubeChanges} {writes : List Cube.CellWrite}
variable {s meet : LiveCube} {around : Around} {preview : Cube} {fault : Option BatchFault}
variable {copy : Copy}

theorem touched_iff (hrun : run.cells = some (writes, meet.applyBatch writes fault)) :
    run.Touched copy ↔ meet.accepts writes ∧ (fault.all fun f => f.keeps copy) = true := by
  unfold Touched
  by_cases haccepts : meet.accepts writes
  · obtain ⟨m, next, -, hbatch⟩ := LiveCube.applyBatch_accepted haccepts fault
    rw [hrun, hbatch]
    constructor
    · rintro ⟨writes', c, heq, hkept⟩
      cases heq
      exact ⟨haccepts, hkept⟩
    · rintro ⟨-, hkept⟩
      exact ⟨_, _, rfl, hkept⟩
  · obtain ⟨e, hbatch⟩ := LiveCube.applyBatch_refused haccepts fault
    rw [hrun, hbatch]
    refine iff_of_false ?_ fun h => haccepts h.1
    rintro ⟨writes', c, heq, hkept⟩
    cases heq
    cases hkept

/-- **What of the cells is in a copy** is in the cells of their names if and
only if the names are where they were. -/
theorem written_iff (hrun : run.cells = some (writes, meet.applyBatch writes fault))
    (hmeet : meet.WF) (hwrites : changes.cells.mapM preview.buildWrite = .ok writes) :
    run.Written changes copy ↔ run.Touched copy ∧
      ∀ cell ∈ changes.cells, meet.store.cube.indicesOf cell.coord =
        preview.indicesOf cell.coord := by
  rw [touched_iff hrun, ← Cube.named_iff hmeet.store.dims hwrites]
  unfold Written
  by_cases haccepts : meet.accepts writes
  · obtain ⟨m, next, hm, hbatch⟩ := LiveCube.applyBatch_accepted haccepts fault
    rw [hrun, hbatch]
    constructor
    · rintro ⟨writes', c, m', heq, hkept, -, -, hnamed⟩
      cases heq
      exact ⟨⟨haccepts, hkept⟩, hnamed⟩
    · rintro ⟨⟨-, hkept⟩, hnamed⟩
      exact ⟨_, _, m, rfl, hkept, rfl, (WriteServer.wrote_setBatch hmeet.store hm).1, hnamed⟩
  · obtain ⟨e, hbatch⟩ := LiveCube.applyBatch_refused haccepts fault
    rw [hrun, hbatch]
    refine iff_of_false ?_ fun h => haccepts h.1.1
    rintro ⟨writes', c, m', heq, hkept, -⟩
    cases heq
    cases hkept

/-- Cells that are in some copy are at their names if and only if these stay
in place. -/
theorem written_or_untouched_iff
    (hrun : run.cells = some (writes, meet.applyBatch writes fault)) (hmeet : meet.WF)
    (hwrites : changes.cells.mapM preview.buildWrite = .ok writes) :
    (∀ copy, run.Written changes copy ∨ ¬ run.Touched copy) ↔
      meet.InPlace changes preview writes fault := by
  unfold LiveCube.InPlace
  rw [← BatchFault.exists_keeps_iff]
  constructor
  · rintro h haccepts ⟨copy, hkept⟩
    rcases h copy with hwritten | huntouched
    · exact ((written_iff hrun hmeet hwrites).1 hwritten).2
    · exact absurd ((touched_iff hrun).2 ⟨haccepts, hkept⟩) huntouched
  · intro h copy
    rw [← imp_iff_or_not]
    intro htouched
    obtain ⟨haccepts, hkept⟩ := (touched_iff hrun).1 htouched
    exact (written_iff hrun hmeet hwrites).2 ⟨htouched, h haccepts ⟨copy, hkept⟩⟩

/-- Cells are in all copies if and only if their batch is accepted, meets no
fault, and is at their names. -/
theorem forall_written_iff (hrun : run.cells = some (writes, meet.applyBatch writes fault))
    (hmeet : meet.WF) (hwrites : changes.cells.mapM preview.buildWrite = .ok writes) :
    (∀ copy, run.Written changes copy) ↔
      fault = none ∧ meet.accepts writes ∧ meet.InPlace changes preview writes fault := by
  rw [← BatchFault.forall_keeps_iff]
  constructor
  · intro h
    have hcopy := fun copy => (written_iff hrun hmeet hwrites).1 (h copy)
    have htouched := fun copy => (touched_iff hrun).1 (hcopy copy).1
    exact ⟨fun copy => (htouched copy).2, (htouched .readers).1, fun _ _ => (hcopy .readers).2⟩
  · rintro ⟨hfault, haccepts, hplace⟩ copy
    refine (written_iff hrun hmeet hwrites).2 ⟨(touched_iff hrun).2 ⟨haccepts, hfault copy⟩, ?_⟩
    refine hplace haccepts ?_
    rw [(BatchFault.forall_keeps_iff fault).1 hfault]
    rintro ⟨⟩

/-- What a run leaves in the copies tells whether it is transactional. -/
theorem transactional_of_whole
    (h : ∀ copy, run.All changes copy ∨ run.Nothing changes copy) : run.Transactional changes where
  whole := h
  error := by
    intro _ hcells hfresh copy hgrown
    rcases h copy with hall | hnothing
    · exact hall.2 hcells
    · exact absurd hfresh (hnothing.1 hgrown)

theorem transactional_iff :
    run.Transactional changes ↔ ∀ copy, run.All changes copy ∨ run.Nothing changes copy :=
  ⟨Transactional.whole, transactional_of_whole⟩

theorem not_touched_of_none (h : run.cells = none) : ¬ run.Touched copy := by
  rintro ⟨writes, c, heq, -⟩
  rw [h] at heq
  cases heq

/-- Without cells there is only one commit. -/
theorem transactional_of_growth (hcells : changes.cells = []) (h : run.cells = none) :
    run.Transactional changes := by
  refine transactional_of_whole fun copy => ?_
  by_cases hgrown : run.Grown changes copy
  · exact .inl ⟨fun _ => hgrown, fun hne => absurd hcells hne⟩
  · exact .inr ⟨fun h => absurd h hgrown, not_touched_of_none h⟩

/-- Nor without growth. -/
theorem transactional_iff_of_cells (hgrows : changes.grows = false) (hcells : changes.cells ≠ [])
    (h : run.growth = none) : run.Transactional changes ↔
      ∀ copy, run.Written changes copy ∨ ¬ run.Touched copy := by
  have hgrown : ∀ copy, ¬ run.Grown changes copy := by
    rintro copy ⟨c, m, n, heq, -⟩
    rw [h] at heq
    cases heq
  rw [transactional_iff]
  refine forall_congr' fun copy => or_congr ⟨fun hall => hall.2 hcells, fun hwritten =>
    ⟨fun hg => ?_, fun _ => hwritten⟩⟩ ⟨fun hno => hno.2, fun huntouched =>
    ⟨fun hg => absurd hg (hgrown copy), huntouched⟩⟩
  rw [hgrows] at hg
  cases hg

section Growth

variable {m : Model} {n : Nat} {kept : Copy → Bool} {faultless : Bool} {next : LiveCube}

theorem fresh_iff (h : run.growth = some (s.accepted m n kept faultless next)) :
    run.Fresh ↔ m.cube.dimensions ≠ s.store.cube.dimensions := by
  constructor
  · rintro ⟨c, m', heq, hmade, hne⟩
    rw [h] at heq
    cases heq
    cases hmade
    exact hne
  · intro hne
    exact ⟨_, m, h, rfl, hne⟩

theorem grown_iff (h : run.growth = some (s.accepted m n kept faultless next))
    (hmade : changes.growth s.store = .ok (m, n)) :
    run.Grown changes copy ↔ kept copy = true := by
  constructor
  · rintro ⟨c, m', n', heq, hkept, -⟩
    rw [h] at heq
    cases heq
    exact hkept
  · intro hkept
    exact ⟨_, m, n, h, hkept, hmade, rfl⟩

/-- A growth that ends the run is to leave nothing new. -/
theorem transactional_iff_of_ended (h : run.growth = some (s.accepted m n kept faultless next))
    (hmade : changes.growth s.store = .ok (m, n)) (hnone : run.cells = none)
    (hcells : changes.cells ≠ []) : run.Transactional changes ↔
      ((∃ copy, kept copy = true) → m.cube.dimensions = s.store.cube.dimensions) := by
  have hwritten : ∀ copy, ¬ run.Written changes copy := by
    rintro copy ⟨writes, c, m', heq, -⟩
    rw [hnone] at heq
    cases heq
  rw [transactional_iff]
  constructor
  · rintro hwhole ⟨copy, hkept⟩
    by_contra hne
    rcases hwhole copy with hall | hnothing
    · exact hwritten copy (hall.2 hcells)
    · exact hnothing.1 ((grown_iff h hmade).2 hkept) ((fresh_iff h).2 hne)
  · intro hold copy
    refine .inr ⟨fun hgrown hfresh => ?_, not_touched_of_none hnone⟩
    exact (fresh_iff h).1 hfresh (hold ⟨copy, (grown_iff h hmade).1 hgrown⟩)

/-- A growth in all copies is to be followed by the cells, in all copies
where it brings something new. -/
theorem transactional_iff_of_followed
    (h : run.growth = some (s.accepted m n (fun _ => true) faultless next))
    (hmade : changes.growth s.store = .ok (m, n)) (hcells : changes.cells ≠ []) :
    run.Transactional changes ↔ (∀ copy, run.Written changes copy ∨ ¬ run.Touched copy) ∧
      (m.cube.dimensions ≠ s.store.cube.dimensions → ∀ copy, run.Written changes copy) := by
  have hgrown : ∀ copy, run.Grown changes copy := fun copy => (grown_iff h hmade).2 rfl
  rw [transactional_iff, ← fresh_iff h]
  constructor
  · intro hwhole
    refine ⟨fun copy => ?_, fun hfresh copy => ?_⟩
    · exact (hwhole copy).imp (fun hall => hall.2 hcells) fun hnothing => hnothing.2
    · rcases hwhole copy with hall | hnothing
      · exact hall.2 hcells
      · exact absurd hfresh (hnothing.1 (hgrown copy))
  · rintro ⟨hplaced, hall⟩ copy
    by_cases hfresh : run.Fresh
    · exact .inl ⟨fun _ => hgrown copy, fun _ => hall hfresh copy⟩
    · exact (hplaced copy).imp (fun hwritten => ⟨fun _ => hgrown copy, fun _ => hwritten⟩)
        fun huntouched => ⟨fun _ => hfresh, huntouched⟩

end Growth

end TargetRun

/-! ## Runs of one target -/

namespace LiveCube

variable {s : LiveCube} {changes : CubeChanges} {around : Around} {preview : Cube}
variable {writes : List Cube.CellWrite}

theorem isEmpty_of_stage (h : changes.stage s.published.cube = .ok (preview, writes)) :
    writes.isEmpty = true ↔ changes.cells = [] := by
  have hall := mapM_eq_ok.1 (CubeChanges.stage_eq_ok h).2
  rw [List.isEmpty_iff, ← List.length_eq_zero_iff, ← hall.length_eq, List.length_eq_zero_iff]

theorem applyTarget_of_cells (h : changes.stage s.published.cube = .ok (preview, writes))
    (hcells : changes.cells ≠ []) (hgrows : changes.grows = false) (around : Around) :
    (s.applyTarget changes around).growth = none ∧
      (s.applyTarget changes around).cells = some (writes,
        ((s.others around.before).others around.between).applyBatch writes around.cells) := by
  have hwrites : ¬ writes.isEmpty = true := fun hnil => hcells ((isEmpty_of_stage h).1 hnil)
  simp only [applyTarget, h, hgrows, Bool.false_eq_true, if_false, writeCells, hwrites, and_self]

/-- The cells follow a growth that meets no fault. -/
theorem applyTarget_of_growth (h : changes.stage s.published.cube = .ok (preview, writes))
    (hcells : changes.cells ≠ []) (hgrows : changes.grows = true)
    (hstopped : (s.others around.before).stopped = false) {m : Model} {n : Nat}
    (hmade : changes.growth (s.others around.before).store = .ok (m, n)) :
    (∃ next, (s.applyTarget changes around).growth =
        some ((s.others around.before).accepted m n
          (fun copy => around.growth.all fun f => f.keeps copy) around.growth.isNone next)) ∧
      (s.applyTarget changes around).cells = if around.growth = none then
        some (writes, ((s.others around.before).meet m around).applyBatch writes around.cells)
      else none := by
  have hwrites : ¬ writes.isEmpty = true := fun hnil => hcells ((isEmpty_of_stage h).1 hnil)
  obtain ⟨next, hdefine, hnext⟩ := define_accepted hstopped hmade around.growth
  simp only [applyTarget, h, hgrows, if_true, hdefine]
  rcases hfault : around.growth with _ | f
  · obtain rfl := hnext hfault
    simp only [accepted, Option.isNone_none, if_true, writeCells, hwrites, Bool.false_eq_true,
      if_false]
    exact ⟨⟨_, rfl⟩, rfl⟩
  · simp only [accepted, Option.isNone_some, Bool.false_eq_true, if_false, reduceCtorEq]
    exact ⟨⟨_, rfl⟩, trivial⟩

theorem applyTarget_of_refused (h : changes.stage s.published.cube = .ok (preview, writes))
    (hgrows : changes.grows = true) (hrefused : (s.others around.before).stopped = true ∨
      (changes.growth (s.others around.before).store).isOk = false) :
    (∃ e next, (s.applyTarget changes around).growth =
      some ((s.others around.before).refused e next)) ∧
      (s.applyTarget changes around).cells = none := by
  obtain ⟨e, next, hdefine⟩ := define_refused hrefused around.growth
  simp only [applyTarget, h, hgrows, if_true, hdefine, refused]
  exact ⟨⟨e, next, rfl⟩, trivial⟩

theorem cells_eq_none_of_stage (h : changes.cells = []) :
    (s.applyTarget changes around).cells = none := by
  unfold applyTarget
  split
  · rfl
  · rename_i preview writes hstage
    have hwrites := (isEmpty_of_stage hstage).2 h
    simp only [writeCells, hwrites, if_true]
    split_ifs
    · split
      · rfl
      · rfl
    · rfl

theorem settles_iff_of_cells (hgrows : changes.grows = false) :
    s.Settles changes around preview writes ↔
      ((s.others around.before).others around.between).InPlace changes preview writes
        around.cells := by
  refine ⟨fun h => h.alone hgrows, fun hplace => ⟨fun _ => hplace, fun hg => ?_⟩⟩
  rw [hgrows] at hg
  cases hg

theorem settles_of_refused (hgrows : changes.grows = true)
    (hrefused : (s.others around.before).stopped = true ∨
      (changes.growth (s.others around.before).store).isOk = false) :
    s.Settles changes around preview writes := by
  refine ⟨fun hg => ?_, fun _ hstopped m n hmade => ?_⟩
  · rw [hgrows] at hg
    cases hg
  · rw [hstopped, hmade] at hrefused
    rcases hrefused with hrefused | hrefused
    · cases hrefused
    · cases hrefused

theorem settles_iff_of_growth (hgrows : changes.grows = true)
    (hstopped : (s.others around.before).stopped = false) {m : Model} {n : Nat}
    (hmade : changes.growth (s.others around.before).store = .ok (m, n)) :
    s.Settles changes around preview writes ↔
      (around.growth = none →
        ((s.others around.before).meet m around).InPlace changes preview writes around.cells) ∧
      (m.cube.dimensions ≠ (s.others around.before).store.cube.dimensions →
        around.growth ≠ some .save → around.growth ≠ some (.checkpoint false) →
        around.growth = none ∧ around.cells = none ∧
          ((s.others around.before).meet m around).accepts writes) := by
  refine ⟨fun h => h.grown hgrows hstopped m n hmade, fun h => ⟨fun hg => ?_, ?_⟩⟩
  · rw [hgrows] at hg
    cases hg
  · intro _ _ m' n' hmade'
    rw [hmade] at hmade'
    cases hmade'
    exact h

/-- The growth of a target is refused: nothing is done. -/
theorem transactional_of_refused (h : changes.stage s.published.cube = .ok (preview, writes))
    (hgrows : changes.grows = true) (hrefused : (s.others around.before).stopped = true ∨
      (changes.growth (s.others around.before).store).isOk = false) :
    (s.applyTarget changes around).Transactional changes := by
  obtain ⟨⟨e, next, hgrowth⟩, hrun⟩ := applyTarget_of_refused h hgrows hrefused
  refine TargetRun.transactional_of_whole fun copy => .inr
    ⟨?_, TargetRun.not_touched_of_none hrun⟩
  rintro ⟨c, m, n, heq, hkept, -⟩
  rw [hgrowth] at heq
  cases heq
  cases hkept

/-- The growth of a target is accepted. -/
theorem transactional_iff_of_growth (hs : s.WF)
    (h : changes.stage s.published.cube = .ok (preview, writes)) (hcells : changes.cells ≠ [])
    (hgrows : changes.grows = true) (hstopped : (s.others around.before).stopped = false)
    {m : Model} {n : Nat} (hmade : changes.growth (s.others around.before).store = .ok (m, n)) :
    (s.applyTarget changes around).Transactional changes ↔
      s.Settles changes around preview writes := by
  have hready := hs.others around.before
  have hmeet := (s.others around.before).wf_meet
    (hready.store.extendSchema (CubeChanges.growth_eq_ok hmade)) around
  have hwrites := (CubeChanges.stage_eq_ok h).2
  obtain ⟨⟨next, hgrowth⟩, hrun⟩ :=
    applyTarget_of_growth h hcells hgrows hstopped hmade
  rw [settles_iff_of_growth hgrows hstopped hmade]
  rcases hfault : around.growth with _ | f
  · -- the batch follows, at what the others have left
    rw [hfault] at hgrowth
    rw [if_pos hfault] at hrun
    rw [TargetRun.transactional_iff_of_followed hgrowth hmade hcells,
      TargetRun.written_or_untouched_iff hrun hmeet hwrites,
      TargetRun.forall_written_iff hrun hmeet hwrites]
    constructor
    · rintro ⟨hplace, hnew⟩
      exact ⟨fun _ => hplace, fun hne _ _ => ⟨rfl, (hnew hne).1, (hnew hne).2.1⟩⟩
    · rintro ⟨hplace, hnew⟩
      refine ⟨hplace rfl, fun hne => ?_⟩
      obtain ⟨-, hfaultless, haccepts⟩ := hnew hne (by simp) (by simp)
      exact ⟨hfaultless, haccepts, hplace rfl⟩
  · -- the fault ends the run
    rw [if_neg (by rw [hfault]; simp)] at hrun
    rw [TargetRun.transactional_iff_of_ended hgrowth hmade hrun hcells,
      DefineFault.exists_keeps_iff, hfault]
    constructor
    · intro hold
      refine ⟨fun hnone => (by cases hnone), fun hne hsave hcheckpoint => ?_⟩
      exact absurd (hold ⟨hsave, hcheckpoint⟩) hne
    · rintro ⟨-, hnew⟩ ⟨hsave, hcheckpoint⟩
      by_contra hne
      cases (hnew hne hsave hcheckpoint).1

/-- **One target.** Its run is transactional if and only if nothing unsettles
it. -/
theorem transactional_applyTarget_iff (hs : s.WF)
    (h : changes.stage s.published.cube = .ok (preview, writes)) (hcells : changes.cells ≠ []) :
    (s.applyTarget changes around).Transactional changes ↔
      s.Settles changes around preview writes := by
  rcases hgrows : changes.grows with _ | _
  · obtain ⟨hgrowth, hrun⟩ := applyTarget_of_cells h hcells hgrows around
    rw [TargetRun.transactional_iff_of_cells hgrows hcells hgrowth,
      TargetRun.written_or_untouched_iff hrun ((hs.others around.before).others around.between)
        (CubeChanges.stage_eq_ok h).2, settles_iff_of_cells hgrows]
  · by_cases hrefused : (s.others around.before).stopped = true ∨
        (changes.growth (s.others around.before).store).isOk = false
    · exact iff_of_true (transactional_of_refused h hgrows hrefused)
        (settles_of_refused hgrows hrefused)
    · obtain ⟨hstopped, hok⟩ := not_or.1 hrefused
      rw [Bool.not_eq_true] at hstopped
      rw [Bool.not_eq_false] at hok
      obtain ⟨⟨m, n⟩, hmade⟩ := exists_of_isOk hok
      exact transactional_iff_of_growth hs h hcells hgrows hstopped hmade

/-- The condition on all that a target stages. Growth alone, and what cannot
be staged, needs none. -/
def Settled (s : LiveCube) (changes : CubeChanges) (around : Around) : Prop :=
  ∀ preview writes, changes.stage s.published.cube = .ok (preview, writes) →
    changes.cells ≠ [] → s.Settles changes around preview writes

theorem transactional_iff_settled (hs : s.WF) :
    (s.applyTarget changes around).Transactional changes ↔ s.Settled changes around := by
  by_cases hcells : changes.cells = []
  · refine iff_of_true (TargetRun.transactional_of_growth hcells (cells_eq_none_of_stage hcells))
      fun _ _ _ hne => absurd hcells hne
  · rcases hstage : changes.stage s.published.cube with e | ⟨preview, writes⟩
    · refine iff_of_true (TargetRun.transactional_of_whole fun copy => .inr ⟨?_, ?_⟩) ?_
      · rintro ⟨c, m, n, heq, -⟩
        unfold applyTarget at heq
        rw [hstage] at heq
        cases heq
      · refine TargetRun.not_touched_of_none ?_
        unfold applyTarget
        rw [hstage]
      · intro preview writes hok
        rw [hstage] at hok
        cases hok
    · rw [transactional_applyTarget_iff hs hstage hcells]
      constructor
      · intro h preview' writes' hok _
        rw [hstage] at hok
        cases hok
        exact h
      · intro h
        exact h preview writes hstage hcells

end LiveCube

/-! ## Runs of an outcome -/

namespace FlowOutcome

variable {cubes : String → Option LiveCube} {around : String → Around}

/-- A run of a target is that of its changes on its cube. -/
theorem exists_of_mem_applyTargets {targets : List (String × CubeChanges)} {cube : String}
    {run : TargetRun} (h : (cube, run) ∈ applyTargets cubes around targets) :
    ∃ s changes, cubes cube = some s ∧ (cube, changes) ∈ targets ∧
      run = s.applyTarget changes (around cube) := by
  induction targets with
  | nil => cases h
  | cons target rest ih =>
    obtain ⟨name, changes⟩ := target
    unfold applyTargets at h
    rcases hcube : cubes name with _ | s
    · simp only [hcube] at h
      cases h
    · simp only [hcube] at h
      rcases List.mem_cons.1 h with heq | h
      · cases heq
        exact ⟨s, changes, hcube, List.mem_cons_self, rfl⟩
      · split_ifs at h
        · obtain ⟨s', changes', hs', hmem, hrun⟩ := ih h
          exact ⟨s', changes', hs', List.mem_cons_of_mem _ hmem, hrun⟩
        · cases h

/-- **Every target of an outcome** that the run reaches is changed as a whole
or not at all if and only if nothing unsettles it. -/
theorem transactional_targets_iff (outcome : FlowOutcome)
    (hcubes : ∀ cube s, cubes cube = some s → s.WF) {cube : String} {run : TargetRun}
    (h : (cube, run) ∈ applyTargets cubes around outcome.cubes.toList) :
    ∃ s changes, cubes cube = some s ∧ outcome.cubes[cube]? = some changes ∧
      (run.Transactional changes ↔ s.Settled changes (around cube)) := by
  obtain ⟨s, changes, hs, hmem, rfl⟩ := exists_of_mem_applyTargets h
  exact ⟨s, changes, hs, FinMap.mem_toList.1 hmem,
    LiveCube.transactional_iff_settled (hcubes cube s hs)⟩

/-- A member of the sales cube, and its number. -/
def westChanges : CubeChanges where
  elements := [⟨"Region", "West", .leaf⟩]
  edges := [⟨"Region", "World", "West", 1⟩]
  cells := [WriteServer.amountOf "West" "12"]

def west : FlowOutcome where
  cubes := FinMap.collect [("Sales", westChanges)]
  dimensions := ∅

theorem toList_west : west.cubes.toList = [("Sales", westChanges)] := rfl

/-- The sales cube, before anything is under way. -/
def salesOnly (cube : String) : Option LiveCube :=
  if cube = "Sales" then some ⟨.new WriteServer.sales, .new WriteServer.sales, false⟩ else none

theorem wf_salesOnly : ∀ cube s, salesOnly cube = some s → s.WF := by
  intro cube s h
  unfold salesOnly at h
  split_ifs at h
  cases h
  exact ⟨WriteServer.wf_sales, WriteServer.wf_sales⟩

/-- Another client adds a region after the growth is committed. -/
def regionAdded : Around where
  before := []
  growth := none
  between := [.define (.ofOp (.insertElementAt "Region" "East" .leaf .atEnd)) none]
  cells := none

/-- The cells of a target that grows are accepted by the cube they meet, and
their names have stayed. -/
def writable (s : LiveCube) (changes : CubeChanges) (around : Around) : Bool :=
  changes.grows && !(s.others around.before).stopped &&
    (changes.stage s.published.cube).toOption.any fun staged =>
      (changes.growth (s.others around.before).store).toOption.any fun made =>
        ((s.others around.before).meet made.1 around).accepts staged.2 &&
          changes.cells.all fun cell =>
            ((s.others around.before).meet made.1 around).store.cube.indicesOf cell.coord =
              staged.1.indicesOf cell.coord

theorem settled_of_writable {s : LiveCube} {changes : CubeChanges} {around : Around}
    (h : writable s changes around = true) (hgrowth : around.growth = none)
    (hcells : around.cells = none) : s.Settled changes around := by
  simp only [writable, Bool.and_eq_true, Bool.not_eq_true'] at h
  obtain ⟨⟨hgrows, hstopped⟩, hstaged⟩ := h
  intro preview writes hstage _
  rw [hstage] at hstaged
  obtain ⟨⟨m, n⟩, hmade, hm⟩ := exists_ok_of_any (show (changes.growth
    (s.others around.before).store).toOption.any _ = true from hstaged)
  simp only [Bool.and_eq_true, decide_eq_true_eq, List.all_eq_true] at hm
  obtain ⟨haccepts, hstay⟩ := hm
  exact (LiveCube.settles_iff_of_growth hgrows hstopped hmade).2
    ⟨fun _ _ _ => hstay, fun _ _ _ => ⟨hgrowth, hcells, haccepts⟩⟩

/-- The region comes with its cell, though another client has added one in
between. -/
theorem transactional_targets_west : ∃ run,
    ("Sales", run) ∈ applyTargets salesOnly (fun _ => regionAdded) west.cubes.toList ∧
      run.result.toOption = some (1, 1) ∧ run.Transactional westChanges := by
  have hany : ((applyTargets salesOnly (fun _ => regionAdded) west.cubes.toList).any
      fun t => t.1 = "Sales" ∧ t.2.result.toOption = some (1, 1)) = true := by decide +kernel
  obtain ⟨⟨name, run⟩, hrun, h⟩ := List.any_eq_true.1 hany
  obtain ⟨rfl, hresult⟩ := of_decide_eq_true h
  obtain ⟨s, changes, hs, hchanges, hiff⟩ := transactional_targets_iff west wf_salesOnly hrun
  obtain rfl : ⟨.new WriteServer.sales, .new WriteServer.sales, false⟩ = s := Option.some.inj hs
  obtain rfl : westChanges = changes :=
    Option.some.inj ((FinMap.mem_toList.1 (toList_west ▸ List.mem_cons_self)).symm.trans hchanges)
  exact ⟨run, hrun, hresult, hiff.2 (settled_of_writable (by decide +kernel) rfl rfl)⟩

/-- Another client gives the measure a part after the growth is committed:
there is no writing to it any more. -/
def measureSplit : Around where
  before := []
  growth := none
  between := [.define (.ofOp (.insertElementAt "Measure" "Units" .leaf .atEnd)) none,
    .define (.ofOp (.addChildElement "Measure" "Amount" "Units" 1)) none]
  cells := none

/-- The growth of a target that others make unwritable, staged and made. -/
def unwritable (s : LiveCube) (changes : CubeChanges) (around : Around) : Bool :=
  changes.cells ≠ [] && changes.grows && !(s.others around.before).stopped &&
    (changes.stage s.published.cube).toOption.any fun staged =>
      (changes.growth (s.others around.before).store).toOption.any fun made =>
        made.1.cube.dimensions ≠ (s.others around.before).store.cube.dimensions &&
          !((s.others around.before).meet made.1 around).accepts staged.2

theorem not_transactional_of_unwritable {s : LiveCube} {changes : CubeChanges} {around : Around}
    (hs : s.WF) (h : unwritable s changes around = true)
    (hgrowth : around.growth = none) : ¬ (s.applyTarget changes around).Transactional changes := by
  simp only [unwritable, Bool.and_eq_true, Bool.not_eq_true', decide_eq_true_eq] at h
  obtain ⟨⟨⟨hcells, hgrows⟩, hstopped⟩, hstaged⟩ := h
  obtain ⟨⟨preview, writes⟩, hstage, hmade⟩ := exists_ok_of_any hstaged
  obtain ⟨⟨m, n⟩, hmade, hm⟩ := exists_ok_of_any hmade
  simp only [Bool.and_eq_true, Bool.not_eq_true', decide_eq_true_eq, decide_eq_false_iff_not] at hm
  rw [LiveCube.transactional_iff_of_growth hs hstage hcells hgrows hstopped hmade]
  intro hsettles
  refine hm.2 ((hsettles.grown hgrows hstopped m n hmade).2 hm.1 ?_ ?_).2.2
  · rw [hgrowth]
    rintro ⟨⟩
  · rw [hgrowth]
    rintro ⟨⟩

theorem not_transactional_measureSplit : ¬ ∀ (outcome : FlowOutcome)
    (cubes : String → Option LiveCube) (around : String → Around),
    (∀ cube s, cubes cube = some s → s.WF) → ∀ cube changes run,
      outcome.cubes[cube]? = some changes →
      (cube, run) ∈ applyTargets cubes around outcome.cubes.toList →
      run.Transactional changes := by
  intro h
  have hmem : ("Sales", westChanges) ∈ west.cubes.toList := by
    rw [toList_west]
    exact List.mem_cons_self
  have hunwritable : unwritable ⟨.new WriteServer.sales, .new WriteServer.sales, false⟩
      westChanges measureSplit = true := by
    decide +kernel
  refine not_transactional_of_unwritable ⟨WriteServer.wf_sales, WriteServer.wf_sales⟩
    hunwritable rfl (h west salesOnly (fun _ => measureSplit) wf_salesOnly "Sales"
      westChanges _ (FinMap.mem_toList.1 hmem) ?_)
  rw [toList_west]
  exact List.mem_cons_self

end FlowOutcome

end Epiphany
