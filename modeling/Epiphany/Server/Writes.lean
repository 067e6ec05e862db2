import Epiphany.Calc.Compiled
import Epiphany.Common.Runs
import Epiphany.Core.ModelEdits
import Epiphany.Core.Spread
import Epiphany.Server.Outcome
import Epiphany.Server.Owned
/-!
# Writes — from names on a snapshot to cells of the cube

A request addresses cells by the names of their members. It is checked and
turned into writes at indices on the version that readers see, and the
writes are committed later, to the cube as the writer then has it. In
between others may commit. Some requests bind the version they were
resolved on and are refused when it has passed; what a request meets that
does so is what it was resolved on (`Consistent.store_eq`).
-/

namespace Epiphany

open Calc

/-! ## Requests -/

/-- A request that writes data. -/
inductive WriteRequest where
  | writeCell (cell : PlannedCell) (selector : Option String)
  | spread (target : FinMap String String) (value : Fixed) (method : SpreadMethod)
    (selector : Option String)
  | batch (cells : List PlannedCell) (base : Option Nat) (selector : Option String)
  /-- What a flow or an import stages for the cube. -/
  | outcome (changes : CubeChanges)
  | commitSandbox (name : String) (base : Option Nat)

/-- What a request asks of the rest of the server: the compiled rules of a
cube, none where there are none or they do not compile, and the values that
a spread in proportion reads. -/
structure WriteEnv where
  compile : Cube → String → Option CompiledModel
  value : Model → Option Sandbox → Option ElementMask → Coord → Except QueryError Fixed

/-- Whether a rule computes a leaf. -/
def WriteEnv.covers (env : WriteEnv) (m : Model) (a : Coord) : Bool :=
  (env.compile m.cube m.rules).any fun cm => (cm.matchingRule m.cube a).isSome

/-- A request between its resolution and its commit. -/
structure Pending where
  caller : Principal
  request : WriteRequest
  /-- The version that the commit requires. -/
  base : Option Nat
  sandbox : Option String
  writes : List Cube.CellWrite
  /-- The growth of an outcome, until it is committed. -/
  growth : Option (List ElementSpec × List EdgeSpec)
  /-- The cube that the names were resolved on. -/
  resolvedOn : Cube
  -- what the request met when it was resolved: nothing reads this
  snapshot : Model
  version : Nat
  env : WriteEnv
  epoch : Nat
  security : SecurityStore

/-- One cube, its writer, and the requests that are under way. -/
structure WriteServer where
  security : SecurityStore
  env : WriteEnv
  /-- How often the other cubes have changed. -/
  epoch : Nat
  /-- The model of the writer. -/
  store : Model
  /-- The model that readers see. -/
  published : Model
  version : Nat
  /-- The store has work whose version could not be recorded. -/
  ahead : Bool
  nextId : Nat
  pending : List Pending

/-! ## Resolving -/

/-- A sandbox of the caller's; an administrator may use any. -/
def Model.authorizeSandbox (m : Model) (p : Principal) (name : String) :
    Except ApiError Sandbox := do
  let sb ← okOr (m.sandbox name) (.notFound ("no sandbox '" ++ name ++ "'"))
  if !p.isAdmin && sb.owner ≠ p.username then .error (.forbidden "not your sandbox") else .ok sb

def Model.resolveSandbox (m : Model) (p : Principal) (selector : Option String) :
    Except ApiError (Option Sandbox) :=
  match selector with
  | none => .ok none
  | some name => (m.authorizeSandbox p name).map some

def Cube.CellWrite.isLeaf : Cube.CellWrite → Bool
  | .leaf _ _ => true
  | .str _ _ => false

namespace WriteEnv

/-- Refuse a write of a number to a leaf that a rule computes. -/
def rejectRuleCoveredWrites (env : WriteEnv) (m : Model) (writes : List Cube.CellWrite) :
    Except ApiError Unit :=
  gate (writes.all fun w => !(w.isLeaf && env.covers m w.coord))
    (.unprocessable "RULE_COVERED_CELL"
      "cannot write to a rule-calculated cell; its value is computed by a rule")

end WriteEnv

/-- The answer of a spread that fails. -/
def SpreadError.toApi : SpreadError → ApiError
  | .weightedConsolidation =>
    .unprocessable "SPREAD_WEIGHTED" "cannot spread across a weighted consolidation"
  | .tooManyLeaves count cap =>
    .unprocessable "SPREAD_TOO_LARGE" ("the target expands to " ++ Nat.repr count ++
      " cells, over the limit of " ++ Nat.repr cap)
  | .allExcluded =>
    .unprocessable "RULE_COVERED_CELL"
      "every target leaf is rule-calculated; there is nothing to spread into"
  | .read e => .ofQuery e

namespace WriteServer

variable (s : WriteServer)

/-- A request that was resolved now. -/
def pend (caller : Principal) (request : WriteRequest) (base : Option Nat)
    (sandbox : Option String) (writes : List Cube.CellWrite) : Pending :=
  { caller, request, base, sandbox, writes, growth := none, resolvedOn := s.published.cube,
    snapshot := s.published, version := s.version, env := s.env, epoch := s.epoch,
    security := s.security }

def cubeName : String := s.published.cube.name

/-- One cell; the version it is resolved on is required. -/
def receiveCell (caller : Principal) (cell : PlannedCell) (selector : Option String) :
    Except ApiError (Option Pending) := do
  s.security.requireCubeAccess caller.username s.cubeName .write
  s.security.requireElementWrite caller.username s.cubeName cell.coord.toList
  let _ ← s.published.resolveSandbox caller selector
  let write ← s.published.cube.buildWrite cell
  s.env.rejectRuleCoveredWrites s.published [write]
  .ok (some (s.pend caller (.writeCell cell selector) (some s.version) selector [write]))

/-- The leaf writes of a spread, of those leaves that no rule computes. -/
def expand (caller : Principal) (sandbox : Option Sandbox) (target : Coord) (value : Fixed)
    (method : SpreadMethod) : Except SpreadError (List (Coord × Fixed)) :=
  Id.run (spreadLeaves Arith.wrapping s.published.cube target value method
    (s.env.value s.published sandbox
      (s.security.elementMaskFor caller.username s.published.cube))
    (s.env.covers s.published))

/-- A spread; the version it is expanded on is required. Without a leaf to
write to there is nothing to commit. -/
def receiveSpread (caller : Principal) (target : FinMap String String) (value : Fixed)
    (method : SpreadMethod) (selector : Option String) : Except ApiError (Option Pending) := do
  s.security.requireCubeAccess caller.username s.cubeName .write
  let sandbox ← s.published.resolveSandbox caller selector
  let resolved ← s.published.cube.resolve target
  gate (!resolved.hasString) (.unprocessable "SPREAD_TO_STRING" "cannot spread into a string cell")
  let expanded ← (s.expand caller sandbox resolved.indices value method).mapError SpreadError.toApi
  s.security.requireElementWriteIndices caller.username s.cubeName s.published.cube
    (expanded.map Prod.fst)
  match expanded with
  | [] => .ok none
  | expanded =>
    .ok (some (s.pend caller (.spread target value method selector) (some s.version) selector
      (expanded.map fun e => .leaf e.1 e.2)))

/-- A batch; what version it requires, if any, is up to the client. -/
def receiveBatch (caller : Principal) (cells : List PlannedCell) (base : Option Nat)
    (selector : Option String) : Except ApiError (Option Pending) := do
  s.security.requireCubeAccess caller.username s.cubeName .write
  cells.forM fun cell =>
    s.security.requireElementWrite caller.username s.cubeName cell.coord.toList
  let _ ← s.published.resolveSandbox caller selector
  let writes ← cells.mapM s.published.cube.buildWrite
  s.env.rejectRuleCoveredWrites s.published writes
  .ok (some (s.pend caller (.batch cells base selector) base selector writes))

/-- An outcome that was authorized before. Its cells are resolved on the cube
with its growth; no version is required. -/
def receiveOutcome (caller : Principal) (changes : CubeChanges) :
    Except ApiError (Option Pending) := do
  let (preview, _) ← (s.published.cube.extendSchema changes.elements changes.edges).mapError
    fun e => ApiError.unprocessable "FLOW_SCHEMA_ERROR" e.toString
  let writes ← changes.cells.mapM preview.buildWrite
  let p := { s.pend caller (.outcome changes) none none writes with resolvedOn := preview }
  if changes.elements = [] ∧ changes.edges = [] then
    .ok (if writes = [] then none else some p)
  else .ok (some { p with growth := some (changes.elements, changes.edges) })

/-- The commit of a sandbox. The numbers it has now are checked against the
rights of the caller. -/
def receiveSandboxCommit (caller : Principal) (name : String) (base : Option Nat) :
    Except ApiError (Option Pending) := do
  s.security.requireCubeAccess caller.username s.cubeName .write
  let sandbox ← s.published.authorizeSandbox caller name
  s.security.requireElementWriteIndices caller.username s.cubeName s.published.cube
    (sandbox.cells.toList.map Prod.fst)
  .ok (some (s.pend caller (.commitSandbox name base) base none []))

/-- Check a request and resolve it. -/
def resolveRequest (caller : Principal) : WriteRequest → Except ApiError (Option Pending)
  | .writeCell cell selector => s.receiveCell caller cell selector
  | .spread target value method selector => s.receiveSpread caller target value method selector
  | .batch cells base selector => s.receiveBatch caller cells base selector
  | .outcome changes => s.receiveOutcome caller changes
  | .commitSandbox name base => s.receiveSandboxCommit caller name base

end WriteServer

/-! ## Committing -/

namespace Model

variable (m : Model)

/-- Write a batch of cells. -/
def setBatch (writes : List Cube.CellWrite) : Except ApiError Model := do
  (m.cube.validateBatch writes).mapError fun e => ApiError.unprocessable "BATCH_REJECTED"
    ("write " ++ Nat.repr e.1 ++ " rejected: " ++ e.2.toString)
  -- a batch that passes its check applies
  let next ← (m.cube.applyWrites writes).mapError fun _ => ApiError.internal
  .ok { m with cube := next }

def noSandbox (name : String) : ApiError := .ofQuery (.calc ("no sandbox '" ++ name ++ "'"))

/-- Stage numbers into a sandbox. -/
def sandboxSetCells (name : String) (writes : List Cube.CellWrite) (updated : Nat) :
    Except ApiError Model := do
  let sb ← okOr m.sandboxes[name]? (noSandbox name)
  gate (writes.all Cube.CellWrite.isLeaf)
    (.ofQuery (.calc "string what-if values are not supported in a sandbox"))
  (m.cube.validateBatch writes).mapError fun e => ApiError.unprocessable "BATCH_REJECTED"
    ("write " ++ Nat.repr e.1 ++ " rejected: " ++ e.2.toString)
  .ok { m with sandboxes := m.sandboxes.insert name (sb.stage writes updated) }

/-- Write the overrides of a sandbox to the cube, and clear them. -/
def commitSandbox (name : String) (updated : Nat) : Except ApiError Model := do
  let sb ← okOr m.sandboxes[name]? (noSandbox name)
  let next ← m.setBatch sb.writes
  .ok { next with sandboxes := next.sandboxes.insert name (sb.cleared updated) }

def createSandbox (name owner : String) (created : Nat) : Except ApiError Model :=
  match m.sandboxes[name]? with
  | some _ => .error (.ofQuery (.calc ("sandbox '" ++ name ++ "' already exists")))
  | none => .ok (m.setSandbox (.new name owner created))

def deleteSandbox (name : String) : Except ApiError Model := do
  let _ ← okOr m.sandboxes[name]? (noSandbox name)
  .ok { m with sandboxes := m.sandboxes.erase name }

end Model

/-- One step of some client. -/
inductive WriteStep where
  /-- Take an id for something else than a version. -/
  | takeId
  /-- The other cubes change. -/
  | siblings (env : WriteEnv)
  /-- Users, groups or grants change. -/
  | security (security : SecurityStore)
  /-- An edit of the cube that is no write of a cell. The version of a commit
  may fail to be recorded: then the store has the work and readers do not
  see it. -/
  | edit (op : CubeOp) (recorded : Bool)
  | define (subsets : FinMap SubsetKey Subset) (views : FinMap String View) (rules : String)
    (recorded : Bool)
  | createSandbox (name owner : String) (created : Nat) (recorded : Bool)
  | deleteSandbox (name : String) (recorded : Bool)
  /-- The work of a commit fails; the store goes back to what readers see. -/
  | fail
  /-- A request comes, or is resolved once more after a conflict. -/
  | receive (caller : Principal) (request : WriteRequest)
  /-- Commit the growth of an outcome. -/
  | grow (i : Nat) (recorded : Bool)
  /-- Commit the writes of a request, with an id that was taken for it. -/
  | commit (i updated : Nat) (recorded : Bool)

/-- The edits that write a cell. -/
def CubeOp.writesCell : CubeOp → Bool
  | .setLeaf _ _ | .setString _ _ => true
  | _ => false

namespace WriteServer

variable (s : WriteServer)

/-- Go on with a model of the store; readers see it if its version is
recorded. -/
def publish (store : Model) (recorded : Bool) : WriteServer :=
  if recorded then
    { s with
      store, published := store, version := s.nextId, ahead := false, nextId := s.nextId + 1 }
  else { s with store, ahead := true, nextId := s.nextId + 1 }

/-- The work of a request on the model of the writer. -/
def work (p : Pending) (updated : Nat) : Except ApiError Model :=
  match p.request with
  | .commitSandbox name _ => s.store.commitSandbox name updated
  | _ =>
    match p.sandbox with
    | some name => s.store.sandboxSetCells name p.writes updated
    | none => s.store.setBatch p.writes

/-- The version that a request requires is that of the writer. -/
def checkBase (p : Pending) : Except ApiError Unit :=
  match p.base with
  | none => .ok ()
  | some base =>
    gate (base = s.version) (.conflict ("stale base version " ++ Nat.repr base ++
      "; the cube is at " ++ Nat.repr s.version))

/-- What a request makes of the store, if it is accepted. -/
def accept (p : Pending) (updated : Nat) : Except ApiError Model := do
  gate p.growth.isNone .internal
  s.checkBase p
  s.work p updated

def drop (i : Nat) : WriteServer := { s with pending := s.pending.eraseIdx i }

def grow (i : Nat) (recorded : Bool) : Except ApiError WriteServer := do
  let p ← okOr s.pending[i]? .internal
  let (elements, edges) ← okOr p.growth .internal
  match s.store.run (.extendSchema elements edges) with
  | .ok store =>
    let next := s.publish store recorded
    -- a growth whose version is not recorded ends the outcome
    if recorded = false ∨ p.writes = [] then .ok (next.drop i)
    else .ok { next with pending := s.pending.set i { p with growth := none } }
  | .error _ => .ok (s.drop i)

/-- Commit a request. One that is refused is over. -/
def commit (i updated : Nat) (recorded : Bool) : Except ApiError WriteServer := do
  let p ← okOr s.pending[i]? .internal
  match s.accept p updated with
  | .ok store => .ok ((s.publish store recorded).drop i)
  | .error _ => .ok (s.drop i)

def receive (caller : Principal) (request : WriteRequest) : Except ApiError WriteServer := do
  match ← s.resolveRequest caller request with
  | some p => .ok { s with pending := s.pending ++ [p] }
  | none => .ok s

def step (s : WriteServer) : WriteStep → Except ApiError WriteServer
  | .takeId => .ok { s with nextId := s.nextId + 1 }
  | .siblings env => .ok { s with env, epoch := s.epoch + 1 }
  | .security security => .ok { s with security }
  | .edit op recorded => do
    gate (!op.writesCell) .internal
    let store ← (s.store.run op).mapError fun e => ApiError.ofQuery (.model e)
    .ok (s.publish store recorded)
  | .define subsets views rules recorded =>
    .ok (s.publish { s.store with subsets, views, rules } recorded)
  | .createSandbox name owner created recorded => do
    let store ← s.store.createSandbox name owner created
    .ok (s.publish store recorded)
  | .deleteSandbox name recorded => do
    let store ← s.store.deleteSandbox name
    .ok (s.publish store recorded)
  | .fail => .ok { s with store := s.published, ahead := false }
  | .receive caller request => s.receive caller request
  | .grow i recorded => s.grow i recorded
  | .commit i updated recorded => s.commit i updated recorded

/-- Nothing is under way, and the store is what readers see. -/
structure Initial : Prop where
  wf : s.store.cube.WF
  store : s.published = s.store
  ahead : s.ahead = false
  version : s.version < s.nextId
  pending : s.pending = []

/-! ## What the store is to a request -/

/-- What was known of a request when it was resolved, of the model and the
environment it records. -/
structure Known (s : WriteServer) (p : Pending) : Prop where
  version : p.version ≤ s.version
  snapshot : p.version = s.version → p.snapshot = s.published
  epoch : p.epoch ≤ s.epoch
  env : p.epoch = s.epoch → p.env = s.env

/-- The state of the server, with a fact `P` that each request under way had
when it was resolved. -/
structure Consistent (P : Pending → Prop) (s : WriteServer) : Prop where
  wf : s.store.cube.WF
  published : s.published.cube.WF
  store : s.ahead = false → s.store = s.published
  version : s.version < s.nextId
  known : ∀ p ∈ s.pending, s.Known p ∧ P p

variable {s s' : WriteServer} {P : Pending → Prop} {p : Pending}

theorem Initial.consistent (h : s.Initial) : s.Consistent P where
  wf := h.wf
  published := h.store ▸ h.wf
  store := fun _ => h.store.symm
  version := h.version
  known := by
    intro p hp
    rw [h.pending] at hp
    cases hp

/-- **A request that meets the version it was resolved on**, and a store
without unpublished work, meets the model it was resolved on. -/
theorem Consistent.store_eq (h : s.Consistent P) (hp : p ∈ s.pending) (hahead : s.ahead = false)
    (hversion : p.version = s.version) : s.store = p.snapshot :=
  (h.store hahead).trans ((h.known p hp).1.snapshot hversion).symm

/-! ### Steps -/

theorem Consistent.publish (h : s.Consistent P) {store : Model} (hstore : store.cube.WF)
    (recorded : Bool) : (s.publish store recorded).Consistent P := by
  unfold WriteServer.publish
  split_ifs
  · refine ⟨hstore, hstore, fun _ => rfl, Nat.lt_succ_self _, fun p hp => ?_⟩
    obtain ⟨hknown, hP⟩ := h.known p hp
    have hlt := hknown.version.trans_lt h.version
    exact ⟨⟨hlt.le, fun heq => absurd heq hlt.ne, hknown.epoch, hknown.env⟩, hP⟩
  · refine ⟨hstore, h.published, (fun hahead => by cases hahead),
      h.version.trans (Nat.lt_succ_self _), fun p hp => ?_⟩
    obtain ⟨hknown, hP⟩ := h.known p hp
    exact ⟨⟨hknown.version, hknown.snapshot, hknown.epoch, hknown.env⟩, hP⟩

/-- Requests are over, or go on. -/
theorem Consistent.of_pending (h : s.Consistent P) {pending : List Pending}
    (hpending : ∀ p ∈ pending, s.Known p ∧ P p) :
    ({ s with pending } : WriteServer).Consistent P :=
  ⟨h.wf, h.published, h.store, h.version, fun p hp =>
    ⟨⟨(hpending p hp).1.version, (hpending p hp).1.snapshot, (hpending p hp).1.epoch,
      (hpending p hp).1.env⟩, (hpending p hp).2⟩⟩

theorem Consistent.drop (h : s.Consistent P) (i : Nat) : (s.drop i).Consistent P :=
  h.of_pending fun p hp => h.known p (List.mem_of_mem_eraseIdx hp)

theorem wf_setBatch {m m' : Model} {writes : List Cube.CellWrite} (hm : m.cube.WF)
    (h : m.setBatch writes = .ok m') : m'.cube.WF := by
  obtain ⟨⟨⟩, -, h⟩ := bind_eq_ok.1 h
  obtain ⟨next, hnext, h⟩ := bind_eq_ok.1 h
  obtain rfl := Except.ok.inj h
  exact (hm.applyWrites (mapError_eq_ok.1 hnext)).1

theorem wrote_setBatch {m m' : Model} {writes : List Cube.CellWrite} (hm : m.cube.WF)
    (h : m.setBatch writes = .ok m') :
    Cube.Wrote m.cube writes m'.cube ∧ m'.sandboxes = m.sandboxes := by
  obtain ⟨⟨⟩, -, h⟩ := bind_eq_ok.1 h
  obtain ⟨next, hnext, h⟩ := bind_eq_ok.1 h
  obtain rfl := Except.ok.inj h
  exact ⟨Cube.wrote_applyWrites hm (mapError_eq_ok.1 hnext), rfl⟩

theorem wf_work (hs : s.store.cube.WF) {updated : Nat} {m : Model}
    (h : s.work p updated = .ok m) : m.cube.WF := by
  unfold work at h
  split at h
  · obtain ⟨sb, -, h⟩ := bind_eq_ok.1 h
    obtain ⟨next, hnext, h⟩ := bind_eq_ok.1 h
    obtain rfl := Except.ok.inj h
    have hwf := wf_setBatch hs hnext
    exact hwf
  · split at h
    · obtain ⟨sb, -, h⟩ := bind_eq_ok.1 h
      obtain ⟨⟨⟩, -, h⟩ := bind_eq_ok.1 h
      obtain ⟨⟨⟩, -, h⟩ := bind_eq_ok.1 h
      obtain rfl := Except.ok.inj h
      exact hs
    · exact wf_setBatch hs h

/-- What an accepted request passed. -/
theorem accept_eq_ok {updated : Nat} {m : Model} (h : s.accept p updated = .ok m) :
    p.growth = none ∧ (∀ base, p.base = some base → base = s.version) ∧
      s.work p updated = .ok m := by
  obtain ⟨⟨⟩, hgrowth, h⟩ := bind_eq_ok.1 h
  obtain ⟨⟨⟩, hbase, h⟩ := bind_eq_ok.1 h
  rw [SecurityStore.gate_eq_ok, Option.isNone_iff_eq_none] at hgrowth
  refine ⟨hgrowth, fun base hsome => ?_, h⟩
  unfold checkBase at hbase
  rw [hsome] at hbase
  simpa [SecurityStore.gate_eq_ok] using hbase

/-- The writes that a request makes to the cube: its own, or the overrides
of the sandbox that it commits. What is staged in a sandbox is none. -/
def committedWrites (s : WriteServer) (p : Pending) : List Cube.CellWrite :=
  match p.request with
  | .commitSandbox name _ => (s.store.sandboxes[name]?).elim [] Sandbox.writes
  | _ =>
    match p.sandbox with
    | some _ => []
    | none => p.writes

/-- The cube after an accepted request is the one that its writes leave. -/
theorem wrote_work (hs : s.store.cube.WF) {updated : Nat} {m : Model}
    (h : s.work p updated = .ok m) : Cube.Wrote s.store.cube (s.committedWrites p) m.cube := by
  unfold work at h
  unfold committedWrites
  split at h
  · obtain ⟨sb, hsb, h⟩ := bind_eq_ok.1 h
    obtain ⟨next, hnext, h⟩ := bind_eq_ok.1 h
    obtain rfl := Except.ok.inj h
    rw [okOr_eq_ok] at hsb
    rw [hsb]
    exact (wrote_setBatch hs hnext).1
  · split at h
    · obtain ⟨sb, -, h⟩ := bind_eq_ok.1 h
      obtain ⟨⟨⟩, -, h⟩ := bind_eq_ok.1 h
      obtain ⟨⟨⟩, -, h⟩ := bind_eq_ok.1 h
      obtain rfl := Except.ok.inj h
      exact ⟨rfl, fun _ _ => rfl, fun _ _ => rfl⟩
    · exact (wrote_setBatch hs h).1

/-- A request meets the version it was resolved on, because it requires it or
because no other was published, and no unpublished work. -/
def undisturbed (s : WriteServer) (p : Pending) : Bool :=
  !s.ahead && (p.base = some p.version || p.version = s.version)

/-- An undisturbed request meets the model it was resolved on. -/
theorem Consistent.store_eq_of_undisturbed {m : Model} {updated : Nat} (h : s.Consistent P)
    (hp : p ∈ s.pending) (haccept : s.accept p updated = .ok m)
    (hundisturbed : s.undisturbed p = true) : s.store = p.snapshot := by
  obtain ⟨-, hbase, -⟩ := accept_eq_ok haccept
  rw [undisturbed, Bool.and_eq_true, Bool.not_eq_true', Bool.or_eq_true, decide_eq_true_eq,
    decide_eq_true_eq] at hundisturbed
  obtain ⟨hahead, hversion⟩ := hundisturbed
  exact h.store_eq hp hahead (hversion.elim (hbase p.version) id)

/-- What the resolution of a request has checked, and what it gives. -/
inductive Receives (s : WriteServer) (caller : Principal) : WriteRequest → Pending → Prop where
  | cell (cell : PlannedCell) (selector : Option String) (write : Cube.CellWrite)
    (hwrite : s.published.cube.buildWrite cell = .ok write)
    (hcovered : s.env.rejectRuleCoveredWrites s.published [write] = .ok ()) :
    s.Receives caller (.writeCell cell selector)
      (s.pend caller (.writeCell cell selector) (some s.version) selector [write])
  | spread (target : FinMap String String) (value : Fixed) (method : SpreadMethod)
    (selector : Option String) (sandbox : Option Sandbox) (resolved : Resolved)
    (expanded : List (Coord × Fixed)) (htarget : s.published.cube.resolve target = .ok resolved)
    (hexpanded : s.expand caller sandbox resolved.indices value method = .ok expanded) :
    s.Receives caller (.spread target value method selector)
      (s.pend caller (.spread target value method selector) (some s.version) selector
        (expanded.map fun e => .leaf e.1 e.2))
  | batch (cells : List PlannedCell) (base : Option Nat) (selector : Option String)
    (writes : List Cube.CellWrite) (hwrites : cells.mapM s.published.cube.buildWrite = .ok writes)
    (hcovered : s.env.rejectRuleCoveredWrites s.published writes = .ok ()) :
    s.Receives caller (.batch cells base selector)
      (s.pend caller (.batch cells base selector) base selector writes)
  | outcome (changes : CubeChanges) (preview : Cube) (added : Nat)
    (writes : List Cube.CellWrite) (growth : Option (List ElementSpec × List EdgeSpec))
    (hpreview : s.published.cube.extendSchema changes.elements changes.edges = .ok (preview, added))
    (hwrites : changes.cells.mapM preview.buildWrite = .ok writes) :
    s.Receives caller (.outcome changes)
      { s.pend caller (.outcome changes) none none writes with resolvedOn := preview, growth }
  | sandbox (name : String) (base : Option Nat) (sb : Sandbox)
    (hsandbox : s.published.sandbox name = some sb)
    (hrights : s.security.requireElementWriteIndices caller.username s.cubeName s.published.cube
      (sb.cells.toList.map Prod.fst) = .ok ()) :
    s.Receives caller (.commitSandbox name base)
      (s.pend caller (.commitSandbox name base) base none [])

theorem receives_of_resolveRequest {caller : Principal} {request : WriteRequest}
    (h : s.resolveRequest caller request = .ok (some p)) : s.Receives caller request p := by
  cases request with
  | writeCell cell selector =>
    obtain ⟨⟨⟩, -, h⟩ := bind_eq_ok.1 h
    obtain ⟨⟨⟩, -, h⟩ := bind_eq_ok.1 h
    obtain ⟨sandbox, -, h⟩ := bind_eq_ok.1 h
    obtain ⟨write, hwrite, h⟩ := bind_eq_ok.1 h
    obtain ⟨⟨⟩, hcovered, h⟩ := bind_eq_ok.1 h
    cases h
    exact .cell cell selector write hwrite hcovered
  | spread target value method selector =>
    obtain ⟨⟨⟩, -, h⟩ := bind_eq_ok.1 h
    obtain ⟨sandbox, -, h⟩ := bind_eq_ok.1 h
    obtain ⟨resolved, htarget, h⟩ := bind_eq_ok.1 h
    obtain ⟨⟨⟩, -, h⟩ := bind_eq_ok.1 h
    obtain ⟨expanded, hexpanded, h⟩ := bind_eq_ok.1 h
    obtain ⟨⟨⟩, -, h⟩ := bind_eq_ok.1 h
    split at h
    · cases h
    · cases h
      exact .spread target value method selector sandbox resolved _ htarget
        (mapError_eq_ok.1 hexpanded)
  | batch cells base selector =>
    obtain ⟨⟨⟩, -, h⟩ := bind_eq_ok.1 h
    obtain ⟨⟨⟩, -, h⟩ := bind_eq_ok.1 h
    obtain ⟨sandbox, -, h⟩ := bind_eq_ok.1 h
    obtain ⟨writes, hwrites, h⟩ := bind_eq_ok.1 h
    obtain ⟨⟨⟩, hcovered, h⟩ := bind_eq_ok.1 h
    cases h
    exact .batch cells base selector writes hwrites hcovered
  | outcome changes =>
    obtain ⟨⟨preview, added⟩, hpreview, h⟩ := bind_eq_ok.1 h
    obtain ⟨writes, hwrites, h⟩ := bind_eq_ok.1 h
    rw [mapError_eq_ok] at hpreview
    dsimp only at h
    split_ifs at h
    · cases h
    · cases h
      exact .outcome changes preview added writes none hpreview hwrites
    · cases h
      exact .outcome changes preview added writes _ hpreview hwrites
  | commitSandbox name base =>
    obtain ⟨⟨⟩, -, h⟩ := bind_eq_ok.1 h
    obtain ⟨sandbox, hsandbox, h⟩ := bind_eq_ok.1 h
    obtain ⟨⟨⟩, hrights, h⟩ := bind_eq_ok.1 h
    cases h
    obtain ⟨sb, hsb, hsandbox⟩ := bind_eq_ok.1 hsandbox
    rw [okOr_eq_ok] at hsb
    split_ifs at hsandbox
    obtain rfl := Except.ok.inj hsandbox
    exact .sandbox name base sb hsb hrights

theorem Receives.known {caller : Principal} {request : WriteRequest}
    (h : s.Receives caller request p) : s.Known p := by
  cases h
  all_goals exact ⟨le_rfl, fun _ => rfl, le_rfl, fun _ => rfl⟩

/-- A fact of a request that holds when it is resolved, and does not depend
on its growth. -/
structure Resolves (P : Pending → Prop) : Prop where
  resolve : ∀ (s : WriteServer) caller request p, s.published.cube.WF →
    s.Receives caller request p → P p
  grown : ∀ p, P p → P { p with growth := none }

theorem Consistent.receive (h : s.Consistent P) (hP : Resolves P) {caller : Principal}
    {request : WriteRequest} (hstep : s.receive caller request = .ok s') : s'.Consistent P := by
  obtain ⟨resolved, hresolved, hstep⟩ := bind_eq_ok.1 hstep
  cases resolved with
  | none =>
    obtain rfl := Except.ok.inj hstep
    exact h
  | some p =>
    obtain rfl := Except.ok.inj hstep
    refine h.of_pending fun q hq => ?_
    rcases List.mem_append.1 hq with hq | hq
    · exact h.known q hq
    · rw [List.mem_singleton.1 hq]
      have hreceives := receives_of_resolveRequest hresolved
      exact ⟨hreceives.known, hP.resolve s caller request p h.published hreceives⟩

theorem Consistent.grow (h : s.Consistent P) (hP : Resolves P) {i : Nat} {recorded : Bool}
    (hstep : s.grow i recorded = .ok s') : s'.Consistent P := by
  obtain ⟨p, hp, hstep⟩ := bind_eq_ok.1 hstep
  obtain ⟨⟨elements, edges⟩, -, hstep⟩ := bind_eq_ok.1 hstep
  rw [okOr_eq_ok] at hp
  dsimp only at hstep
  split at hstep
  · rename_i store hstore
    have hnext := h.publish (Model.WF.run h.wf hstore) recorded
    have hpending : (s.publish store recorded).pending = s.pending := by
      unfold WriteServer.publish
      split_ifs
      · rfl
      · rfl
    split_ifs at hstep
    · obtain rfl := Except.ok.inj hstep
      exact hnext.drop i
    · obtain rfl := Except.ok.inj hstep
      refine hnext.of_pending fun q hq => ?_
      rw [← hpending] at hq hp
      rcases List.mem_or_eq_of_mem_set hq with hmem | rfl
      · exact hnext.known q hmem
      · obtain ⟨hknown, hfact⟩ := hnext.known p (List.mem_of_getElem? hp)
        exact ⟨⟨hknown.version, hknown.snapshot, hknown.epoch, hknown.env⟩, hP.grown p hfact⟩
  · obtain rfl := Except.ok.inj hstep
    exact h.drop i

/-- **Step.** -/
theorem Consistent.step (h : s.Consistent P) (hP : Resolves P) {a : WriteStep}
    (hstep : s.step a = .ok s') : s'.Consistent P := by
  cases a with
  | takeId =>
    obtain rfl := Except.ok.inj hstep
    exact ⟨h.wf, h.published, h.store, h.version.trans (Nat.lt_succ_self _),
      fun p hp => ⟨⟨(h.known p hp).1.version, (h.known p hp).1.snapshot, (h.known p hp).1.epoch,
        (h.known p hp).1.env⟩, (h.known p hp).2⟩⟩
  | siblings env =>
    obtain rfl := Except.ok.inj hstep
    refine ⟨h.wf, h.published, h.store, h.version, fun p hp => ?_⟩
    obtain ⟨hknown, hfact⟩ := h.known p hp
    -- a plan made before is of an earlier epoch, so nothing is claimed of its siblings
    have hlt : p.epoch < s.epoch + 1 := Nat.lt_succ_of_le hknown.epoch
    exact ⟨⟨hknown.version, hknown.snapshot, hlt.le, fun heq => absurd heq hlt.ne⟩, hfact⟩
  | security security =>
    obtain rfl := Except.ok.inj hstep
    exact ⟨h.wf, h.published, h.store, h.version,
      fun p hp => ⟨⟨(h.known p hp).1.version, (h.known p hp).1.snapshot, (h.known p hp).1.epoch,
        (h.known p hp).1.env⟩, (h.known p hp).2⟩⟩
  | edit op recorded =>
    obtain ⟨⟨⟩, -, hstep⟩ := bind_eq_ok.1 hstep
    obtain ⟨store, hstore, hstep⟩ := bind_eq_ok.1 hstep
    obtain rfl := Except.ok.inj hstep
    exact h.publish (Model.WF.run h.wf (mapError_eq_ok.1 hstore)) recorded
  | define subsets views rules recorded =>
    obtain rfl := Except.ok.inj hstep
    refine h.publish ?_ recorded
    exact h.wf
  | createSandbox name owner created recorded =>
    obtain ⟨store, hstore, hstep⟩ := bind_eq_ok.1 hstep
    obtain rfl := Except.ok.inj hstep
    unfold Model.createSandbox at hstore
    split at hstore
    · cases hstore
    · obtain rfl := Except.ok.inj hstore
      refine h.publish ?_ recorded
      exact h.wf
  | deleteSandbox name recorded =>
    obtain ⟨store, hstore, hstep⟩ := bind_eq_ok.1 hstep
    obtain rfl := Except.ok.inj hstep
    obtain ⟨sb, -, hstore⟩ := bind_eq_ok.1 hstore
    obtain rfl := Except.ok.inj hstore
    refine h.publish ?_ recorded
    exact h.wf
  | fail =>
    obtain rfl := Except.ok.inj hstep
    exact ⟨h.published, h.published, fun _ => rfl, h.version,
      fun p hp => ⟨⟨(h.known p hp).1.version, (h.known p hp).1.snapshot, (h.known p hp).1.epoch,
        (h.known p hp).1.env⟩, (h.known p hp).2⟩⟩
  | receive caller request => exact h.receive hP hstep
  | grow i recorded => exact h.grow hP hstep
  | commit i updated recorded =>
    obtain ⟨p, hp, hstep⟩ := bind_eq_ok.1 hstep
    -- a commit that is refused drops the plan and changes nothing
    split at hstep
    · rename_i store hstore
      obtain rfl := Except.ok.inj hstep
      exact (h.publish (wf_work h.wf (accept_eq_ok hstore).2.2) recorded).drop i
    · obtain rfl := Except.ok.inj hstep
      exact h.drop i

theorem Consistent.call (h : s.Consistent P) (hP : Resolves P) (a : WriteStep) :
    (call WriteServer.step s a).Consistent P := by
  unfold Epiphany.call
  split
  · rename_i s' hstep
    exact h.step hP hstep
  · exact h

/-! ## Runs -/

/-- A property of a request that a step accepts: of the server it meets, of
the request, and of the model it makes of the store. -/
def WhenAccepted (Q : WriteServer → Pending → Model → Prop) (s : WriteServer) : WriteStep → Prop
  | .commit i updated _ =>
    match s.pending[i]? with
    | none => True
    | some p =>
      match s.accept p updated with
      | .ok m => Q s p m
      | .error _ => True
  | _ => True

/-- A property of every request that is accepted in a run. -/
def AllAccepted (Q : WriteServer → Pending → Model → Prop) : WriteServer → List WriteStep → Prop
  | _, [] => True
  | s, a :: steps => WhenAccepted Q s a ∧ AllAccepted Q (Epiphany.call WriteServer.step s a) steps

instance {Q : WriteServer → Pending → Model → Prop} [∀ s p m, Decidable (Q s p m)]
    (s : WriteServer) (a : WriteStep) : Decidable (WhenAccepted Q s a) := by
  unfold WhenAccepted
  split
  · split
    · infer_instance
    · split
      · infer_instance
      · infer_instance
  · infer_instance

instance AllAccepted.decidable {Q : WriteServer → Pending → Model → Prop}
    [∀ s p m, Decidable (Q s p m)] (s : WriteServer) (steps : List WriteStep) :
    Decidable (AllAccepted Q s steps) :=
  match steps with
  | [] => inferInstanceAs (Decidable True)
  | a :: steps =>
    have : Decidable (AllAccepted Q (Epiphany.call WriteServer.step s a) steps) :=
      AllAccepted.decidable _ steps
    inferInstanceAs (Decidable (_ ∧ _))

theorem WhenAccepted.imp {Q R : WriteServer → Pending → Model → Prop} {a : WriteStep}
    (h : WhenAccepted Q s a)
    (hQR : ∀ p m updated, p ∈ s.pending → s.accept p updated = .ok m → Q s p m → R s p m) :
    WhenAccepted R s a := by
  cases a with
  | commit i updated recorded =>
    simp only [WhenAccepted] at h ⊢
    rcases hp : s.pending[i]? with _ | p
    · trivial
    · rw [hp] at h
      dsimp only at h ⊢
      rcases haccept : s.accept p updated with e | m
      · trivial
      · rw [haccept] at h
        exact hQR p m updated (List.mem_of_getElem? hp) haccept h
  | _ => trivial

/-- **Run.** What follows of an accepted request in a consistent state
follows of those of a run. -/
theorem Consistent.allAccepted_mono (h : s.Consistent P) (hP : Resolves P)
    {Q R : WriteServer → Pending → Model → Prop}
    (hQR : ∀ (s : WriteServer) p m updated, s.Consistent P → p ∈ s.pending →
      s.accept p updated = .ok m → Q s p m → R s p m) {steps : List WriteStep}
    (hsteps : AllAccepted Q s steps) : AllAccepted R s steps := by
  induction steps generalizing s with
  | nil => trivial
  | cons a steps ih =>
    obtain ⟨hfirst, hrest⟩ := hsteps
    exact ⟨hfirst.imp fun p m updated hp haccept => hQR s p m updated h hp haccept,
      ih (h.call hP a) hrest⟩

/-! ## A cube and its clients -/

theorem isSome_salesDefs : (Cube.build "Sales" Cube.salesDefs).toOption.isSome = true := by
  decide +kernel

/-- The cube of sales by region. -/
def sales : Cube := (Cube.build "Sales" Cube.salesDefs).toOption.get isSome_salesDefs

theorem wf_sales : sales.WF := Cube.WF.get_build isSome_salesDefs

/-- An administrator, and a user who may write the cube. -/
def salesSecurity : SecurityStore :=
  { SecurityStore.empty with
    users := FinMap.collect [("root", ⟨true, "r", false, ∅⟩), ("ann", ⟨false, "a", false, ∅⟩)]
    grants := FinMap.collect
      [(⟨.cube "Sales", .cube⟩, AccessList.empty.set (.user "ann") .write)] }

/-- The server of the cube, without rules. -/
def salesDesk : WriteServer where
  security := salesSecurity
  env := ⟨fun _ _ => none, fun _ _ _ _ => .ok Fixed.zero⟩
  epoch := 0
  store := .new sales
  published := .new sales
  version := 1
  ahead := false
  nextId := 2
  pending := []

theorem initial_salesDesk : salesDesk.Initial := ⟨wf_sales, rfl, rfl, by decide, rfl⟩

/-- The user of the cube. -/
def ann : Principal := ⟨"ann", false, []⟩

/-- The amount of a region. -/
def amountOf (region value : String) : PlannedCell :=
  ⟨FinMap.collect [("Region", region), ("Measure", "Amount")], value⟩

end WriteServer

end Epiphany
