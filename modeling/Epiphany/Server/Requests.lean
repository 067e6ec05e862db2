import Epiphany.Server.Automation
import Epiphany.Server.Saved
/-!
# Requests — what a handler answers to a principal

These are the requests whose handlers look at the principal that the session
holds: those on sandboxes and on data under a sandbox, on subsets and views,
on connections and flows, and the one that shows the caller himself. A change
is answered by what is handed to the stores.
-/

namespace Epiphany

/-! ## The server -/

/-- What the handlers work on, the sessions apart. -/
structure Content where
  security : SecurityStore
  env : ViewEnv
  cache : ViewCache
  automation : Automation ConnectionSpec

namespace SecurityStore

variable (s : SecurityStore) (username : String)

def mustChangePassword : Bool := (s.users[username]?).any User.mustChangePassword

def isModelingKind : ObjectKind → Bool
  | .dimension | .rule | .flow => true
  | _ => false

/-- The class of capabilities of a caller. -/
def callerPersona : String :=
  match s.principal username with
  | none => "business"
  | some p =>
    if p.isAdmin || s.canManageCubes p then "admin"
    else if s.grants.toList.any fun e =>
        isModelingKind e.1.kind && AccessLevel.write ≤ e.2.levelFor p.username p.groups then
      "modeler"
    else "business"

end SecurityStore

/-! ## Requests -/

inductive Request where
  | listSandboxes (cube : String)
  | getSandbox (cube name : String)
  | deleteSandbox (cube name : String)
  | commitSandbox (cube name : String) (baseVersion : Option Nat)
  /-- Reading or writing cells under a selected sandbox; `coords` are the
  coordinates to be written. -/
  | data (cube : String) (needed : AccessLevel) (coords : List (List (String × String)))
    (selector : Option String)
  | listSubsets (cube dim : String)
  | getSubset (cube dim name : String)
  | replaceSubset (cube dim name : String) (body : SubsetBody)
  | deleteSubset (cube dim name : String)
  | subsetMembers (cube dim name : String)
  | listViews (cube : String)
  | getView (cube name : String)
  | replaceView (cube name : String) (body : ViewBody)
  | deleteView (cube name : String)
  | executeView (request : ViewRequest)
  | listConnections
  | getConnection (name : String)
  | putConnection (name : String) (spec : Except ApiError ConnectionSpec)
  | listFlows
  | getFlow (name : String)
  | putFlow (name : String) (body : FlowBody)
  | me

/-- A request that a caller may make before a pending change of his
password. -/
def Request.mustChangeAllowed : Request → Bool
  | .me => true
  | _ => false

/-- A request that shows the caller's groups. -/
def Request.showsGroups : Request → Bool
  | .me => true
  | _ => false

structure SandboxDto where
  name : String
  owner : String
  created : Nat
  updated : Nat
  cellCount : Nat
deriving DecidableEq

def sandboxDto (s : Sandbox) : SandboxDto := ⟨s.name, s.owner, s.created, s.updated, s.len⟩

/-- What is handed to the stores. -/
inductive Change where
  | discardSandbox (cube name : String)
  | commitSandbox (cube name : String) (baseVersion : Option Nat) (committed : Nat)
  | defineSubset (cube : String) (subset : Subset)
  | deleteSubset (cube dim name : String)
  | defineView (cube : String) (view : View)
  | deleteView (cube name : String)
  | defineConnection (connection : Connection ConnectionSpec)
  | defineFlow (flow : Flow ConnectionSpec)

inductive Answer where
  | sandboxes (list : List SandboxDto)
  | sandbox (s : SandboxDto)
  | data (sandbox : Option Sandbox) (mask : Option ElementMask)
  | subsets (list : List SubsetDto)
  | subset (s : SubsetDto)
  | members (list : List MemberDto)
  | views (list : List ViewDto)
  | view (v : ViewDto)
  | cellset (c : Cellset)
  | connections (list : List ConnectionDto)
  | connection (c : ConnectionDto)
  | flows (list : List FlowDto)
  | flow (f : FlowDto)
  | change (c : Change)
  | changeConnection (c : Change) (shown : ConnectionDto)
  | changeFlow (c : Change) (shown : FlowDto)
  | me (username : String) (isAdmin : Bool) (groups : List String) (mustChangePassword : Bool)
    (persona : String)

/-! ## Handlers -/

namespace Content

variable (st : Content) (auth : Principal)

def listSandboxes (cube : String) : Except ApiError (List SandboxDto) := do
  let snap ← st.env.openCube st.security auth cube .read
  .ok ((snap.model.sandboxes.toList.filter fun e =>
    auth.isAdmin || e.2.owner = auth.username).map fun e => sandboxDto e.2)

def getSandbox (cube name : String) : Except ApiError Sandbox := do
  let snap ← st.env.openCube st.security auth cube .read
  snap.authorizeSandbox auth name

/-- The checks of a sandbox's commit, and how many cells it commits. -/
def commitSandbox (cube name : String) : Except ApiError Nat := do
  let snap ← st.env.openCube st.security auth cube .write
  let sandbox ← snap.authorizeSandbox auth name
  st.security.requireElementWriteIndices auth.username cube snap.cube
    (sandbox.cells.toList.map Prod.fst)
  .ok sandbox.len

/-- The sandbox and the mask that cells are read or written under. -/
def data (cube : String) (needed : AccessLevel) (coords : List (List (String × String)))
    (selector : Option String) : Except ApiError (Option Sandbox × Option ElementMask) := do
  st.security.requireCubeAccess auth.username cube needed
  coords.forM fun coord => st.security.requireElementWrite auth.username cube coord
  let snap ← st.env.snapshot cube
  let sandbox ← snap.resolveSandbox auth selector
  .ok (sandbox, st.security.elementMaskFor auth.username snap.cube)

/-- The answer to a request, and the view cache after it. -/
def respond (request : Request) : Except ApiError Answer × ViewCache :=
  let sec := st.security
  let env := st.env
  match request with
  | .listSandboxes cube => ((st.listSandboxes auth cube).map .sandboxes, st.cache)
  | .getSandbox cube name =>
    ((st.getSandbox auth cube name).map fun s => .sandbox (sandboxDto s), st.cache)
  | .deleteSandbox cube name =>
    ((st.getSandbox auth cube name).map fun _ => .change (.discardSandbox cube name), st.cache)
  | .commitSandbox cube name baseVersion =>
    ((st.commitSandbox auth cube name).map fun n =>
      .change (.commitSandbox cube name baseVersion n), st.cache)
  | .data cube needed coords selector =>
    ((st.data auth cube needed coords selector).map fun r => .data r.1 r.2, st.cache)
  | .listSubsets cube dim => ((env.listSubsets sec auth cube dim).map .subsets, st.cache)
  | .getSubset cube dim name => ((env.getSubset sec auth cube dim name).map .subset, st.cache)
  | .replaceSubset cube dim name body =>
    ((env.replaceSubset sec auth cube dim name body).map fun s =>
      .change (.defineSubset cube s), st.cache)
  | .deleteSubset cube dim name =>
    ((env.deleteSubset sec auth cube dim name).map fun _ =>
      .change (.deleteSubset cube dim name), st.cache)
  | .subsetMembers cube dim name =>
    ((env.subsetMembers sec auth cube dim name).map .members, st.cache)
  | .listViews cube => ((env.listViews sec auth cube).map .views, st.cache)
  | .getView cube name => ((env.getView sec auth cube name).map .view, st.cache)
  | .replaceView cube name body =>
    ((env.replaceView sec auth cube name body).map fun v => .change (.defineView cube v), st.cache)
  | .deleteView cube name =>
    ((env.deleteView sec auth cube name).map fun _ => .change (.deleteView cube name), st.cache)
  | .executeView request =>
    let r := env.serve ⟨sec, auth, request⟩ st.cache
    (r.1.map .cellset, r.2)
  | .listConnections => ((st.automation.listConnections sec auth).map .connections, st.cache)
  | .getConnection name => ((st.automation.getConnection sec auth name).map .connection, st.cache)
  | .putConnection name spec =>
    ((Automation.putConnection sec auth name spec).map fun r =>
      .changeConnection (.defineConnection r.1) r.2, st.cache)
  | .listFlows => ((st.automation.listFlows sec auth).map .flows, st.cache)
  | .getFlow name => ((st.automation.getFlow sec auth name).map .flow, st.cache)
  | .putFlow name body =>
    ((st.automation.putFlow sec auth name body).map fun flow =>
      .changeFlow (.defineFlow flow) (flowDto flow true), st.cache)
  | .me =>
    (.ok (.me auth.username auth.isAdmin auth.groups (sec.mustChangePassword auth.username)
      (sec.callerPersona auth.username)), st.cache)

/-- Two principals of one name with the same admin flag are answered alike,
unless their groups are shown. -/
theorem respond_congr {p p' : Principal} (hname : p.username = p'.username)
    (hadmin : p.isAdmin = p'.isAdmin) {request : Request}
    (hgroups : request.showsGroups = true → p.groups = p'.groups) :
    st.respond p request = st.respond p' request := by
  obtain ⟨name, isAdmin, groups⟩ := p
  obtain ⟨name', isAdmin', groups'⟩ := p'
  obtain rfl : name = name' := hname
  obtain rfl : isAdmin = isAdmin' := hadmin
  cases request with
  | me =>
    obtain rfl : groups = groups' := hgroups rfl
    rfl
  | _ => rfl

end Content

end Epiphany
