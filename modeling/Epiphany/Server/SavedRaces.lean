import Epiphany.Common.CheckThenAct
import Epiphany.Server.Saved
import Epiphany.Server.Writes
/-!
# Saved objects under concurrent requests

A request on a subset, a view or a sandbox is checked on the published model
and carried out later, by name, on the model of the writer. In between other
requests may put another object under the name, or take it away. Only the
creation of a sandbox looks again. The objects are changed by their owners
only, in every interleaving, exactly if each request that is carried out finds
the name as its check left it (`owners_iff`).
-/

namespace Epiphany

/-! ## Objects under their names -/

/-- What names a saved object of a cube. -/
inductive SavedKey where
  | subset (dim name : String)
  | view (name : String)
  | sandbox (name : String)
deriving DecidableEq

inductive SavedObject where
  | subset (s : Subset)
  | view (v : View)
  | sandbox (s : Sandbox)

/-- A sandbox always has an owner. -/
def SavedObject.owner : SavedObject → Option String
  | subset s => s.owner
  | view v => v.owner
  | sandbox s => some s.owner

namespace Model

variable (m : Model)

def objectAt : SavedKey → Option SavedObject
  | .subset dim name => (m.subset dim name).map .subset
  | .view name => (m.view name).map .view
  | .sandbox name => (m.sandbox name).map .sandbox

/-- The owner of the object under a name; none if there is no object. -/
def ownerAt (k : SavedKey) : Option (Option String) := (m.objectAt k).map SavedObject.owner

end Model

/-! ## Requests -/

/-- The version a staged write requires: that of its snapshot, or the one the
client gives. -/
inductive StageBase where
  | snapshot
  | client (base : Option Nat)

inductive SavedRequest where
  | createSubset (dim : String) (body : SubsetBody)
  | replaceSubset (dim name : String) (body : SubsetBody)
  | deleteSubset (dim name : String)
  | createView (body : ViewBody)
  | replaceView (name : String) (body : ViewBody)
  | deleteView (name : String)
  | createSandbox (name : String)
  | deleteSandbox (name : String)
  /-- Stage the cells that a request makes of the cube. -/
  | stage (name : String) (base : StageBase)
    (build : Cube → Except ApiError (List Cube.CellWrite))

namespace SavedRequest

def isCreate : SavedRequest → Bool
  | createSubset _ _ | createView _ | createSandbox _ => true
  | _ => false

def isReplace : SavedRequest → Bool
  | replaceSubset _ _ _ | replaceView _ _ => true
  | _ => false

end SavedRequest

structure SavedCall where
  caller : Principal
  request : SavedRequest

/-- What the engine is asked to do; it goes by names. -/
inductive SavedChange where
  | defineSubset (subset : Subset)
  | deleteSubset (dim name : String)
  | defineView (view : View)
  | deleteView (name : String)
  | createSandbox (name owner : String)
  | discardSandbox (name : String)
  | sandboxSetCells (base : Option Nat) (name : String) (writes : List Cube.CellWrite)

def SavedChange.key : SavedChange → SavedKey
  | defineSubset s => .subset s.dimension s.name
  | deleteSubset dim name => .subset dim name
  | defineView v => .view v.name
  | deleteView name => .view name
  | createSandbox name _ => .sandbox name
  | discardSandbox name => .sandbox name
  | sandboxSetCells _ name _ => .sandbox name

/-- The ids taken for a sandbox before the version's. -/
def SavedChange.stamps : SavedChange → Nat
  | createSandbox _ _ | sandboxSetCells _ _ _ => 1
  | _ => 0

/-! ## Checks -/

namespace Model

variable (m : Model) (eval : SetEvaluator) (p : Principal)

def duplicateName (kind name place : String) : ApiError :=
  ⟨409, "DUPLICATE_NAME", kind ++ " '" ++ name ++ "' already exists" ++ place⟩

def resolvable (subset : Subset) : Except ApiError Unit :=
  ((Query.resolveSubset m.cube eval subset).mapError ApiError.ofQuery).map fun _ => ()

def createSubset (dim : String) (body : SubsetBody) : Except ApiError SavedChange := do
  let name ← okOr body.name (ApiError.badRequest "subset 'name' is required")
  let _ ← ViewEnv.ensureDimension m.cube dim
  gate (m.subset dim name).isNone (duplicateName "subset" name (" in dimension '" ++ dim ++ "'"))
  let subset ← subsetFromBody name dim (some p.username) body
  m.resolvable eval subset
  .ok (.defineSubset subset)

/-- A subset as a caller sees it, to be changed. -/
def ownSubset (dim name : String) : Except ApiError Subset := do
  let existing ← okOr ((m.subset dim name).filter fun s => canRead p s.owner s.visibility)
    ⟨404, "UNKNOWN_SUBSET", "no such subset"⟩
  gate (canModify p existing.owner) notOwned
  .ok existing

def replaceSubset (dim name : String) (body : SubsetBody) : Except ApiError SavedChange := do
  let existing ← m.ownSubset p dim name
  let subset ← subsetFromBody name dim existing.owner body
  m.resolvable eval subset
  .ok (.defineSubset subset)

def dropSubset (dim name : String) : Except ApiError SavedChange :=
  (m.ownSubset p dim name).map fun _ => .deleteSubset dim name

def createView (cube : String) (body : ViewBody) : Except ApiError SavedChange := do
  let name ← okOr body.name (ApiError.badRequest "view 'name' is required")
  gate (m.view name).isNone (duplicateName "view" name "")
  (viewFromBody name cube (some p.username) body).map .defineView

def ownView (name : String) : Except ApiError View := do
  let existing ← okOr ((m.view name).filter fun v => canRead p v.owner v.visibility)
    ⟨404, "UNKNOWN_VIEW", "no such view"⟩
  gate (canModify p existing.owner) notOwned
  .ok existing

def replaceView (cube name : String) (body : ViewBody) : Except ApiError SavedChange := do
  let existing ← m.ownView p name
  (viewFromBody name cube existing.owner body).map .defineView

def dropView (name : String) : Except ApiError SavedChange :=
  (m.ownView p name).map fun _ => .deleteView name

def ownSandbox (name : String) : Except ApiError Sandbox := do
  let sb ← okOr (m.sandbox name) (.notFound ("no sandbox '" ++ name ++ "'"))
  if !p.isAdmin && sb.owner ≠ p.username then .error (.forbidden "not your sandbox") else .ok sb

/-- The name is taken without the white space around it. -/
def newSandbox (name : String) : Except ApiError SavedChange := do
  let trimmed := String.ofList (Digits.trim name.toList)
  gate (trimmed ≠ "") (.badRequest "sandbox name is required")
  gate (m.sandbox trimmed).isNone (.conflict ("sandbox '" ++ trimmed ++ "' already exists"))
  .ok (.createSandbox trimmed p.username)

def dropSandbox (name : String) : Except ApiError SavedChange :=
  (m.ownSandbox p name).map fun _ => .discardSandbox name

def stageCells (version : Nat) (name : String) (base : StageBase)
    (build : Cube → Except ApiError (List Cube.CellWrite)) : Except ApiError SavedChange := do
  let _ ← m.ownSandbox p name
  let writes ← build m.cube
  match base with
  | .snapshot => .ok (.sandboxSetCells (some version) name writes)
  | .client base => .ok (.sandboxSetCells base name writes)

end Model

/-! ### The handlers -/

section

variable (env : ViewEnv) (sec : SecurityStore) (auth : Principal) (cube dim name : String)

/-- The check of a replacement is what the handler does with its snapshot. -/
theorem replaceSubset_handler (body : SubsetBody) :
    (env.replaceSubset sec auth cube dim name body).map SavedChange.defineSubset =
      (env.openCube sec auth cube .write >>= fun snap =>
        snap.model.replaceSubset env.evaluator auth dim name body) := by
  unfold ViewEnv.replaceSubset
  rcases env.openCube sec auth cube .write with e | snap
  · rfl
  · change Except.map _ (snap.visibleSubset auth dim name >>= _) =
      (okOr (snap.visibleSubsetLookup auth dim name) _ >>= _) >>= _
    unfold ReadSnapshot.visibleSubset
    rcases okOr (snap.visibleSubsetLookup auth dim name) _ with e | existing
    · rfl
    · change Except.map _ (gate (canModify auth existing.owner) notOwned >>= _) =
        (gate (canModify auth existing.owner) notOwned >>= _) >>= _
      rcases gate (canModify auth existing.owner) notOwned with e | _
      · rfl
      · change Except.map _ (subsetFromBody name dim existing.owner body >>= _) =
          (subsetFromBody name dim existing.owner body >>= _)
        rcases subsetFromBody name dim existing.owner body with e | subset
        · rfl
        · change Except.map _ (env.resolveSubset snap subset >>= _) =
            (Except.map _ (env.resolveSubset snap subset) >>= _)
          rcases env.resolveSubset snap subset with e | indices
          · rfl
          · rfl

theorem replaceView_handler (body : ViewBody) :
    (env.replaceView sec auth cube name body).map SavedChange.defineView =
      (env.openCube sec auth cube .write >>= fun snap =>
        snap.model.replaceView auth cube name body) := by
  unfold ViewEnv.replaceView
  rcases env.openCube sec auth cube .write with e | snap
  · rfl
  · change Except.map _ (snap.visibleView auth name >>= _) = (snap.visibleView auth name >>= _) >>= _
    rcases snap.visibleView auth name with e | existing
    · rfl
    · change Except.map _ (gate (canModify auth existing.owner) notOwned >>= _) =
        (gate (canModify auth existing.owner) notOwned >>= _) >>= _
      rcases gate (canModify auth existing.owner) notOwned with e | _
      · rfl
      · rfl

end

/-! ## The service -/

/-- What a check leaves for later: the change, and the owner of the object it
saw under its name. -/
structure SavedTicket where
  change : SavedChange
  seen : Option (Option String)

/-- The model of the writer, and the one that readers see with its version. -/
structure SavedServer where
  store : Model
  published : Model
  version : Nat
  nextId : Nat

/-- How the engine carries a change out: the store may refuse it or fail to
write it, and its version may fail to be recorded. -/
structure SavedHow where
  fails : Bool
  recorded : Bool

/-- A commit of something else: cells, rules or structure. -/
structure SavedMove where
  cube : Cube
  rules : String
  recorded : Bool

namespace SavedServer

variable (cube : String) (eval : SetEvaluator) (s : SavedServer)

def changeOf (c : SavedCall) : Except ApiError SavedChange :=
  match c.request with
  | .createSubset dim body => s.published.createSubset eval c.caller dim body
  | .replaceSubset dim name body => s.published.replaceSubset eval c.caller dim name body
  | .deleteSubset dim name => s.published.dropSubset c.caller dim name
  | .createView body => s.published.createView c.caller cube body
  | .replaceView name body => s.published.replaceView c.caller cube name body
  | .deleteView name => s.published.dropView c.caller name
  | .createSandbox name => s.published.newSandbox c.caller name
  | .deleteSandbox name => s.published.dropSandbox c.caller name
  | .stage name base build => s.published.stageCells c.caller s.version name base build

/-- Check a request on the published model. -/
def check (c : SavedCall) : Except ApiError SavedTicket :=
  (s.changeOf cube eval c).map fun change => ⟨change, s.published.ownerAt change.key⟩

/-- A change on the model of the writer. Only the creation of a sandbox looks
whether the name is free. -/
def work : SavedChange → Except ApiError Model
  | .defineSubset subset =>
    .ok { s.store with
          subsets := s.store.subsets.insert ⟨subset.dimension, subset.name⟩ subset }
  | .deleteSubset dim name => do
    let _ ← okOr (s.store.subset dim name) (.ofQuery (.unknownSubset name))
    .ok { s.store with subsets := s.store.subsets.erase ⟨dim, name⟩ }
  | .defineView view => .ok { s.store with views := s.store.views.insert view.name view }
  | .deleteView name => do
    let _ ← okOr (s.store.view name) (.ofQuery (.unknownSubset name))
    .ok { s.store with views := s.store.views.erase name }
  | .createSandbox name owner => s.store.createSandbox name owner s.nextId
  | .discardSandbox name => s.store.deleteSandbox name
  | .sandboxSetCells base name writes => do
    gate (base.all (· = s.version)) (.conflict "stale base version")
    s.store.sandboxSetCells name writes s.nextId

/-- Readers see a change once its version, a new id, is recorded. -/
def publish (store : Model) (recorded : Bool) : SavedServer :=
  if recorded then ⟨store, store, s.nextId, s.nextId + 1⟩
  else ⟨store, s.published, s.version, s.nextId + 1⟩

def act (ticket : SavedTicket) (how : SavedHow) : Except ApiError SavedServer := do
  gate (!how.fails) .internal
  let store ← s.work ticket.change
  .ok ({ s with nextId := s.nextId + ticket.change.stamps }.publish store how.recorded)

def move (d : SavedMove) : SavedServer :=
  s.publish { s.store with cube := d.cube, rules := d.rules } d.recorded

/-- The requests on the saved objects of a cube. -/
def service : Service SavedServer SavedCall SavedTicket SavedHow SavedMove ApiError where
  check s c := s.check cube eval c
  act s _ ticket how := s.act ticket how
  move := move

/-! ## Owners -/

/-- A request carried out changes the object under one name. An object that a
user owns is that of its caller, unless the caller is an administrator; a
replacement keeps the owner; and a creation found the name free. -/
structure Guarded (s : SavedServer) (q : SavedCall × SavedTicket) (next : SavedServer) : Prop where
  owner : ∀ u, s.store.ownerAt q.2.change.key = some (some u) →
    q.1.caller.isAdmin = true ∨ q.1.caller.username = u
  kept : q.1.request.isReplace = true → ∀ o, s.store.ownerAt q.2.change.key = some o →
    next.store.ownerAt q.2.change.key = some o
  fresh : q.1.request.isCreate = true → s.store.ownerAt q.2.change.key = none
  others : ∀ k, k ≠ q.2.change.key → next.store.objectAt k = s.store.objectAt k

/-- A request that is carried out finds the name as its check left it: with the
owner that was seen, or without an object where none was seen. A check that
let an administrator pass was not about the owner, and one for a replacement
or a deletion is of no account where the object is gone. -/
def Undisturbed (s : SavedServer) (q : SavedCall × SavedTicket) : Prop :=
  match q.1.request with
  | .createSubset _ _ | .createView _ => s.store.ownerAt q.2.change.key = q.2.seen
  | .createSandbox _ => True
  | .replaceSubset _ _ _ | .replaceView _ _ =>
    ∀ o, s.store.ownerAt q.2.change.key = some o → q.2.seen = some o
  | _ => ∀ u, s.store.ownerAt q.2.change.key = some (some u) →
    q.1.caller.isAdmin = true ∨ q.2.seen = some (some u)

/-! ## What a check has seen -/

/-- The check saw an object that the caller may change. -/
def SawOwn (p : Principal) (t : SavedTicket) : Prop :=
  ∃ owner, t.seen = some owner ∧ canModify p owner = true

/-- What the ticket of a request says. -/
def TicketOf (c : SavedCall) (t : SavedTicket) : Prop :=
  match c.request with
  | .createSubset _ _ | .createView _ => t.seen = none
  | .createSandbox _ => ∃ name owner, t.change = .createSandbox name owner
  | .replaceSubset _ _ _ =>
    ∃ subset, t.change = .defineSubset subset ∧ t.seen = some subset.owner ∧ SawOwn c.caller t
  | .replaceView _ _ =>
    ∃ view, t.change = .defineView view ∧ t.seen = some view.owner ∧ SawOwn c.caller t
  | _ => SawOwn c.caller t

section

variable {m : Model} {p : Principal} {dim name : String} {owner : Option String}

theorem subsetFromBody_ok {body : SubsetBody} {subset : Subset}
    (h : subsetFromBody name dim owner body = .ok subset) :
    subset.dimension = dim ∧ subset.name = name ∧ subset.owner = owner := by
  simp only [subsetFromBody, bind_eq_ok] at h
  obtain ⟨_, -, h⟩ := h
  split at h
  all_goals
    obtain ⟨_, -, h⟩ := bind_eq_ok.1 h
    rw [← Except.ok.inj h]
    exact ⟨rfl, rfl, rfl⟩

theorem viewFromBody_ok {body : ViewBody} {view : View} {cube : String}
    (h : viewFromBody name cube owner body = .ok view) : view.name = name ∧ view.owner = owner := by
  simp only [viewFromBody, bind_eq_ok] at h
  obtain ⟨_, -, _, -, _, -, h⟩ := h
  rw [← Except.ok.inj h]
  exact ⟨rfl, rfl⟩

theorem ownSubset_ok {existing : Subset} (h : m.ownSubset p dim name = .ok existing) :
    m.ownerAt (.subset dim name) = some existing.owner ∧ canModify p existing.owner = true := by
  simp only [Model.ownSubset, bind_eq_ok, okOr_eq_ok, SecurityStore.gate_eq_ok] at h
  obtain ⟨found, hfound, _, hmodify, h⟩ := h
  obtain rfl := Except.ok.inj h
  have hm : m.subset dim name = some found := (Option.filter_eq_some_iff.1 hfound).1
  simp only [Model.ownerAt, Model.objectAt, hm, Option.map_some]
  exact ⟨rfl, hmodify⟩

theorem ownView_ok {existing : View} (h : m.ownView p name = .ok existing) :
    m.ownerAt (.view name) = some existing.owner ∧ canModify p existing.owner = true := by
  simp only [Model.ownView, bind_eq_ok, okOr_eq_ok, SecurityStore.gate_eq_ok] at h
  obtain ⟨found, hfound, _, hmodify, h⟩ := h
  obtain rfl := Except.ok.inj h
  have hm : m.view name = some found := (Option.filter_eq_some_iff.1 hfound).1
  simp only [Model.ownerAt, Model.objectAt, hm, Option.map_some]
  exact ⟨rfl, hmodify⟩

theorem ownSandbox_ok {sb : Sandbox} (h : m.ownSandbox p name = .ok sb) :
    m.ownerAt (.sandbox name) = some (some sb.owner) ∧ canModify p (some sb.owner) = true := by
  simp only [Model.ownSandbox, bind_eq_ok, okOr_eq_ok] at h
  obtain ⟨found, hfound, h⟩ := h
  split_ifs at h with hother
  obtain rfl := Except.ok.inj h
  simp only [Model.ownerAt, Model.objectAt, hfound, Option.map_some]
  refine ⟨rfl, ?_⟩
  unfold canModify
  simp only [Bool.and_eq_true, Bool.not_eq_true', decide_eq_true_eq, not_and_or, Bool.not_eq_false,
    not_not] at hother
  simpa using hother

end

variable {cube : String} {eval : SetEvaluator} {s : SavedServer} {c : SavedCall} {t : SavedTicket}

theorem ticketOf_check (h : s.check cube eval c = .ok t) : TicketOf c t := by
  obtain ⟨change, hchange, rfl⟩ := map_eq_ok.1 h
  obtain ⟨caller, request⟩ := c
  unfold TicketOf
  unfold changeOf at hchange
  -- a creation has seen no object; every other request has seen one that its caller may change
  cases request with
  | createSubset dim body =>
    simp only [Model.createSubset, bind_eq_ok, SecurityStore.gate_eq_ok] at hchange
    obtain ⟨_, -, _, -, _, hfree, subset, hbody, _, -, hchange⟩ := hchange
    obtain rfl := Except.ok.inj hchange
    obtain ⟨hdim, hname, -⟩ := subsetFromBody_ok hbody
    simp only [SavedChange.key, hdim, hname, Model.ownerAt, Model.objectAt,
      Option.isNone_iff_eq_none.1 hfree, Option.map_none]
  | createView body =>
    simp only [Model.createView, bind_eq_ok, map_eq_ok, SecurityStore.gate_eq_ok] at hchange
    obtain ⟨_, -, _, hfree, view, hbody, rfl⟩ := hchange
    simp only [SavedChange.key, (viewFromBody_ok hbody).1, Model.ownerAt, Model.objectAt,
      Option.isNone_iff_eq_none.1 hfree, Option.map_none]
  | createSandbox name =>
    simp only [Model.newSandbox, bind_eq_ok] at hchange
    obtain ⟨_, -, _, -, hchange⟩ := hchange
    exact ⟨_, _, (Except.ok.inj hchange).symm⟩
  | replaceSubset dim name body =>
    simp only [Model.replaceSubset, bind_eq_ok] at hchange
    obtain ⟨existing, hown, subset, hbody, _, -, hchange⟩ := hchange
    obtain rfl := Except.ok.inj hchange
    obtain ⟨hseen, hmodify⟩ := ownSubset_ok hown
    obtain ⟨hdim, hname, howner⟩ := subsetFromBody_ok hbody
    refine ⟨subset, rfl, ?_, existing.owner, ?_, hmodify⟩
    · simp only [SavedChange.key, hdim, hname, howner, hseen]
    · simp only [SavedChange.key, hdim, hname, hseen]
  | replaceView name body =>
    simp only [Model.replaceView, bind_eq_ok, map_eq_ok] at hchange
    obtain ⟨existing, hown, view, hbody, rfl⟩ := hchange
    obtain ⟨hseen, hmodify⟩ := ownView_ok hown
    obtain ⟨hname, howner⟩ := viewFromBody_ok hbody
    refine ⟨view, rfl, ?_, existing.owner, ?_, hmodify⟩
    · simp only [SavedChange.key, hname, howner, hseen]
    · simp only [SavedChange.key, hname, hseen]
  | deleteSubset dim name =>
    obtain ⟨existing, hown, rfl⟩ := map_eq_ok.1 hchange
    exact ⟨existing.owner, ownSubset_ok hown⟩
  | deleteView name =>
    obtain ⟨existing, hown, rfl⟩ := map_eq_ok.1 hchange
    exact ⟨existing.owner, ownView_ok hown⟩
  | deleteSandbox name =>
    obtain ⟨sb, hown, rfl⟩ := map_eq_ok.1 hchange
    exact ⟨some sb.owner, ownSandbox_ok hown⟩
  | stage name base build =>
    simp only [Model.stageCells, bind_eq_ok] at hchange
    obtain ⟨sb, hown, _, -, hchange⟩ := hchange
    cases base with
    | snapshot =>
      obtain rfl := Except.ok.inj hchange
      exact ⟨some sb.owner, ownSandbox_ok hown⟩
    | client base =>
      obtain rfl := Except.ok.inj hchange
      exact ⟨some sb.owner, ownSandbox_ok hown⟩

/-! ## What a change does -/

section

variable {store : Model} {k : SavedKey}

theorem objectAt_subsets {m m' : Model} {dim name : String} (hviews : m'.views = m.views)
    (hsandboxes : m'.sandboxes = m.sandboxes)
    (h : ∀ key : SubsetKey, key ≠ ⟨dim, name⟩ → m'.subsets[key]? = m.subsets[key]?)
    (hk : k ≠ .subset dim name) : m'.objectAt k = m.objectAt k := by
  cases k with
  | subset d n =>
    have hkey : SubsetKey.mk d n ≠ ⟨dim, name⟩ := by
      rintro ⟨⟩
      exact hk rfl
    simp only [Model.objectAt, Model.subset, h _ hkey]
  | view n => simp only [Model.objectAt, Model.view, hviews]
  | sandbox n => simp only [Model.objectAt, Model.sandbox, hsandboxes]

theorem objectAt_views {m m' : Model} {name : String} (hsubsets : m'.subsets = m.subsets)
    (hsandboxes : m'.sandboxes = m.sandboxes)
    (h : ∀ key : String, key ≠ name → m'.views[key]? = m.views[key]?)
    (hk : k ≠ .view name) : m'.objectAt k = m.objectAt k := by
  cases k with
  | subset d n => simp only [Model.objectAt, Model.subset, hsubsets]
  | view n =>
    have hkey : n ≠ name := by
      rintro rfl
      exact hk rfl
    simp only [Model.objectAt, Model.view, h _ hkey]
  | sandbox n => simp only [Model.objectAt, Model.sandbox, hsandboxes]

theorem objectAt_sandboxes {m m' : Model} {name : String} (hsubsets : m'.subsets = m.subsets)
    (hviews : m'.views = m.views)
    (h : ∀ key : String, key ≠ name → m'.sandboxes[key]? = m.sandboxes[key]?)
    (hk : k ≠ .sandbox name) : m'.objectAt k = m.objectAt k := by
  cases k with
  | subset d n => simp only [Model.objectAt, Model.subset, hsubsets]
  | view n => simp only [Model.objectAt, Model.view, hviews]
  | sandbox n =>
    have hkey : n ≠ name := by
      rintro rfl
      exact hk rfl
    simp only [Model.objectAt, Model.sandbox, h _ hkey]

theorem get_erase_of_ne {α β : Type} [Ord α] [Std.TransOrd α] [Std.LawfulEqOrd α] [DecidableEq α]
    {m : FinMap α β} {key name : α} (h : key ≠ name) : (m.erase name)[key]? = m[key]? := by
  rw [FinMap.get_erase, if_neg (Ne.symm h)]

/-- A change is seen under its own name only. -/
theorem objectAt_work {change : SavedChange} (h : s.work change = .ok store)
    (hk : k ≠ change.key) : store.objectAt k = s.store.objectAt k := by
  unfold work at h
  cases change with
  | defineSubset subset =>
    rw [← Except.ok.inj h]
    exact objectAt_subsets rfl rfl (fun key hkey => FinMap.get_insert_of_ne hkey.symm _) hk
  | deleteSubset dim name =>
    obtain ⟨_, -, h⟩ := bind_eq_ok.1 h
    rw [← Except.ok.inj h]
    exact objectAt_subsets rfl rfl (fun key hkey => get_erase_of_ne hkey) hk
  | defineView view =>
    rw [← Except.ok.inj h]
    exact objectAt_views rfl rfl (fun key hkey => FinMap.get_insert_of_ne hkey.symm _) hk
  | deleteView name =>
    obtain ⟨_, -, h⟩ := bind_eq_ok.1 h
    rw [← Except.ok.inj h]
    exact objectAt_views rfl rfl (fun key hkey => get_erase_of_ne hkey) hk
  | createSandbox name owner =>
    dsimp only at h
    unfold Model.createSandbox at h
    split at h
    · cases h
    · rw [← Except.ok.inj h]
      exact objectAt_sandboxes rfl rfl (fun key hkey => FinMap.get_insert_of_ne hkey.symm _) hk
  | discardSandbox name =>
    obtain ⟨_, -, h⟩ := bind_eq_ok.1 h
    rw [← Except.ok.inj h]
    exact objectAt_sandboxes rfl rfl (fun key hkey => get_erase_of_ne hkey) hk
  | sandboxSetCells base name writes =>
    obtain ⟨_, -, h⟩ := bind_eq_ok.1 h
    simp only [Model.sandboxSetCells, bind_eq_ok] at h
    obtain ⟨_, -, _, -, _, -, h⟩ := h
    rw [← Except.ok.inj h]
    exact objectAt_sandboxes rfl rfl (fun key hkey => FinMap.get_insert_of_ne hkey.symm _) hk

theorem ownerAt_defineSubset {subset : Subset}
    (h : s.work (.defineSubset subset) = .ok store) :
    store.ownerAt (SavedChange.defineSubset subset).key = some subset.owner := by
  rw [← Except.ok.inj h]
  simp [Model.ownerAt, Model.objectAt, SavedChange.key, Model.subset, SavedObject.owner]

theorem ownerAt_defineView {view : View} (h : s.work (.defineView view) = .ok store) :
    store.ownerAt (SavedChange.defineView view).key = some view.owner := by
  rw [← Except.ok.inj h]
  simp [Model.ownerAt, Model.objectAt, SavedChange.key, Model.view, SavedObject.owner]

/-- The creation of a sandbox looks again. -/
theorem free_of_createSandbox {name owner : String}
    (h : s.work (.createSandbox name owner) = .ok store) :
    s.store.ownerAt (SavedChange.createSandbox name owner).key = none := by
  change s.store.createSandbox name owner s.nextId = .ok store at h
  unfold Model.createSandbox at h
  split at h
  · cases h
  · rename_i hnone
    simp only [Model.ownerAt, Model.objectAt, SavedChange.key, Model.sandbox, hnone,
      Option.map_none]

end

theorem act_ok {how : SavedHow} {next : SavedServer} (h : s.act t how = .ok next) :
    s.work t.change = .ok next.store := by
  simp only [act, bind_eq_ok] at h
  obtain ⟨_, -, store, hwork, h⟩ := h
  rw [hwork, ← Except.ok.inj h]
  unfold publish
  split_ifs <;> rfl

theorem canModify_some {p : Principal} {u : String} :
    canModify p (some u) = true ↔ p.isAdmin = true ∨ p.username = u := by
  unfold canModify
  simp only [Bool.or_eq_true, decide_eq_true_eq, Option.some.injEq]
  exact or_congr_right eq_comm

/-- **A request carried out.** It guards the owners exactly if it finds the name
undisturbed. -/
theorem guarded_iff {how : SavedHow} {seen next : SavedServer}
    (hcheck : seen.check cube eval c = .ok t) (hact : s.act t how = .ok next) :
    s.Guarded (c, t) next ↔ s.Undisturbed (c, t) := by
  have hticket := ticketOf_check hcheck
  have hwork := act_ok hact
  have hothers : ∀ k, k ≠ t.change.key → next.store.objectAt k = s.store.objectAt k :=
    fun k hk => objectAt_work hwork hk
  -- what a caller may change, the caller owns or administers
  have howner : ∀ u, t.seen = some (some u) → SawOwn c.caller t →
      c.caller.isAdmin = true ∨ c.caller.username = u := by
    rintro u hseen ⟨owner, howner, hmodify⟩
    obtain rfl := Option.some.inj (howner.symm.trans hseen)
    exact canModify_some.1 hmodify
  have hseen : ∀ u, c.caller.isAdmin = true ∨ c.caller.username = u → SawOwn c.caller t →
      c.caller.isAdmin = true ∨ t.seen = some (some u) := by
    rintro u (hadmin | rfl) ⟨owner, howner, hmodify⟩
    · exact Or.inl hadmin
    · rw [howner]
      simpa [canModify] using hmodify
  obtain ⟨caller, request⟩ := c
  unfold TicketOf at hticket
  unfold Undisturbed
  cases request with
  | createSubset dim body =>
    dsimp only at hticket ⊢
    rw [hticket]
    refine ⟨fun h => h.fresh rfl, fun hfree => ⟨fun u hu => ?_, fun h => (by cases h), fun _ => hfree,
      hothers⟩⟩
    rw [hfree] at hu
    cases hu
  | createView body =>
    dsimp only at hticket ⊢
    rw [hticket]
    refine ⟨fun h => h.fresh rfl, fun hfree => ⟨fun u hu => ?_, fun h => (by cases h), fun _ => hfree,
      hothers⟩⟩
    rw [hfree] at hu
    cases hu
  | createSandbox name =>
    obtain ⟨name', owner', hchange⟩ := hticket
    rw [hchange] at hwork
    have hfree : s.store.ownerAt t.change.key = none := by
      rw [hchange]
      exact free_of_createSandbox hwork
    refine iff_of_true ⟨fun u hu => ?_, fun h => (by cases h), fun _ => hfree, hothers⟩ trivial
    rw [hfree] at hu
    cases hu
  | replaceSubset dim name body =>
    obtain ⟨subset, hchange, hsaw, hown⟩ := hticket
    dsimp only
    have hnext : next.store.ownerAt t.change.key = some subset.owner := by
      rw [hchange] at hwork ⊢
      exact ownerAt_defineSubset hwork
    constructor
    · intro h o ho
      rw [hsaw, ← hnext]
      exact h.kept rfl o ho
    · refine fun h => ⟨fun u hu => howner u (h _ hu) hown, fun _ o ho => ?_, fun h => (by cases h),
        hothers⟩
      rw [hnext, ← hsaw]
      exact h o ho
  | replaceView name body =>
    obtain ⟨view, hchange, hsaw, hown⟩ := hticket
    dsimp only
    have hnext : next.store.ownerAt t.change.key = some view.owner := by
      rw [hchange] at hwork ⊢
      exact ownerAt_defineView hwork
    constructor
    · intro h o ho
      rw [hsaw, ← hnext]
      exact h.kept rfl o ho
    · refine fun h => ⟨fun u hu => howner u (h _ hu) hown, fun _ o ho => ?_, fun h => (by cases h),
        hothers⟩
      rw [hnext, ← hsaw]
      exact h o ho
  | _ =>
    dsimp only at hticket ⊢
    refine ⟨fun h u hu => hseen u (h.owner u hu) hticket, fun h => ⟨fun u hu => ?_,
      fun h => (by cases h), fun h => (by cases h), hothers⟩⟩
    rcases h u hu with hadmin | hsaw
    · exact Or.inl hadmin
    · exact howner u hsaw hticket

/-! ## The ids of sandboxes -/

/-- The sandboxes of a model have ids of their own, below the next one. -/
structure SandboxIds (m : Model) (nextId : Nat) : Prop where
  distinct : ∀ (n n' : String) (sb sb' : Sandbox), m.sandboxes[n]? = some sb →
    m.sandboxes[n']? = some sb' → max sb.created 1 = max sb'.created 1 → n = n'
  below : ∀ (n : String) (sb : Sandbox), m.sandboxes[n]? = some sb → max sb.created 1 < nextId

theorem SandboxIds.ownIds {m : Model} {nextId : Nat} (h : SandboxIds m nextId) : m.OwnIds := by
  intro n n' sb sb' hn hn' hid
  obtain rfl := h.distinct n n' sb sb' hn hn' hid
  exact Option.some.inj (hn.symm.trans hn')

/-- Later on, with no new sandbox and none of another id. -/
theorem SandboxIds.of_subset {m m' : Model} {nextId nextId' : Nat} (h : SandboxIds m nextId)
    (hle : nextId ≤ nextId') (hsub : ∀ (n : String) (sb' : Sandbox), m'.sandboxes[n]? = some sb' →
      ∃ sb, m.sandboxes[n]? = some sb ∧ sb'.created = sb.created) : SandboxIds m' nextId' := by
  constructor
  · intro n n' sb sb' hn hn' hid
    obtain ⟨old, hold, hcreated⟩ := hsub n sb hn
    obtain ⟨old', hold', hcreated'⟩ := hsub n' sb' hn'
    rw [hcreated, hcreated'] at hid
    exact h.distinct n n' old old' hold hold' hid
  · intro n sb hn
    obtain ⟨old, hold, hcreated⟩ := hsub n sb hn
    rw [hcreated]
    exact (h.below n old hold).trans_le hle

/-- A sandbox that is created takes the next id. -/
theorem SandboxIds.createSandbox {m m' : Model} {nextId : Nat} (h : SandboxIds m nextId)
    {name owner : String} (hcreate : m.createSandbox name owner nextId = .ok m') :
    SandboxIds m' (nextId + 2) := by
  unfold Model.createSandbox at hcreate
  split at hcreate
  · cases hcreate
  obtain rfl := Except.ok.inj hcreate
  have hget : ∀ n : String, (m.setSandbox (.new name owner nextId)).sandboxes[n]? =
      if name = n then some (Sandbox.new name owner nextId) else m.sandboxes[n]? :=
    fun n => FinMap.get_insert _ _ _ _
  have hnew : (Sandbox.new name owner nextId).created = nextId := rfl
  constructor
  · intro n n' sb sb' hn hn' hid
    rw [hget] at hn hn'
    split_ifs at hn hn' with hname hname' hname'
    · exact hname.symm.trans hname'
    · rw [← Option.some.inj hn, hnew] at hid
      have := h.below n' sb' hn'
      omega
    · rw [← Option.some.inj hn', hnew] at hid
      have := h.below n sb hn
      omega
    · exact h.distinct n n' sb sb' hn hn' hid
  · intro n sb hn
    rw [hget] at hn
    split_ifs at hn
    · rw [← Option.some.inj hn, hnew]
      omega
    · have := h.below n sb hn
      omega

/-- The work of a change keeps the ids of the sandboxes apart. -/
theorem SandboxIds.work {s : SavedServer} {change : SavedChange} {store : Model}
    (h : SandboxIds s.store s.nextId) (hwork : s.work change = .ok store) :
    SandboxIds store (s.nextId + change.stamps + 1) := by
  have hsame : ∀ {m : Model} {n : Nat}, m.sandboxes = s.store.sandboxes → s.nextId ≤ n →
      SandboxIds m n := fun heq hle =>
    h.of_subset hle fun n sb hn => ⟨sb, heq ▸ hn, rfl⟩
  unfold SavedServer.work at hwork
  cases change with
  | defineSubset subset =>
    obtain rfl := Except.ok.inj hwork
    exact hsame rfl (by omega)
  | deleteSubset dim name =>
    obtain ⟨_, -, hwork⟩ := bind_eq_ok.1 hwork
    obtain rfl := Except.ok.inj hwork
    exact hsame rfl (by omega)
  | defineView view =>
    obtain rfl := Except.ok.inj hwork
    exact hsame rfl (by omega)
  | deleteView name =>
    obtain ⟨_, -, hwork⟩ := bind_eq_ok.1 hwork
    obtain rfl := Except.ok.inj hwork
    exact hsame rfl (by omega)
  | createSandbox name owner => exact h.createSandbox hwork
  | discardSandbox name =>
    obtain ⟨_, -, hwork⟩ := bind_eq_ok.1 hwork
    obtain rfl := Except.ok.inj hwork
    refine h.of_subset (by omega) fun n sb hn => ⟨sb, ?_, rfl⟩
    rw [FinMap.get_erase] at hn
    split_ifs at hn
    exact hn
  | sandboxSetCells base name writes =>
    obtain ⟨_, -, hwork⟩ := bind_eq_ok.1 hwork
    simp only [Model.sandboxSetCells, bind_eq_ok, okOr_eq_ok] at hwork
    obtain ⟨sb, hsb, _, -, _, -, hwork⟩ := hwork
    obtain rfl := Except.ok.inj hwork
    refine h.of_subset (by omega) fun n sb' hn => ?_
    rw [FinMap.get_insert] at hn
    split_ifs at hn with hname
    · exact ⟨sb, hname ▸ hsb, by rw [← Option.some.inj hn]; rfl⟩
    · exact ⟨sb', hn, rfl⟩

/-- **Sandboxes have ids of their own** in every model that readers see, from
one without sandboxes: a sandbox is created under an id that no other has. -/
theorem ownIds_run (cube : String) (eval : SetEvaluator) {m : Model} (hm : m.sandboxes = ∅)
    (version nextId : Nat) (steps : List (ServeStep SavedCall SavedHow SavedMove)) :
    (steps.foldl (service cube eval).next
      (Service.start ⟨m, m, version, nextId⟩)).state.published.OwnIds := by
  have hnone : SandboxIds m nextId := by
    constructor
    · intro n n' sb sb' hn
      simp [hm] at hn
    · intro n sb hn
      simp [hm] at hn
  have hkept := Service.invariant_run (v := service cube eval)
    (I := fun s => SandboxIds s.store s.nextId ∧ SandboxIds s.published s.nextId)
    (s := ⟨m, m, version, nextId⟩) ?_ ?_ ⟨hnone, hnone⟩ steps
  · exact hkept.2.ownIds
  · intro s c ticket how next hs hact
    simp only [service, act, bind_eq_ok] at hact
    obtain ⟨_, -, store, hwork, hact⟩ := hact
    have hstore := hs.1.work hwork
    obtain rfl := Except.ok.inj hact
    unfold publish
    split_ifs
    · exact ⟨hstore, hstore⟩
    · exact ⟨hstore, hs.2.of_subset (Nat.le_add_right_of_le (Nat.le_add_right _ _))
        fun n sb hn => ⟨sb, hn, rfl⟩⟩
  · intro s d hs
    have hstore : SandboxIds { s.store with cube := d.cube, rules := d.rules } (s.nextId + 1) :=
      hs.1.of_subset (Nat.le_succ _) fun n sb hn => ⟨sb, hn, rfl⟩
    simp only [service, move, publish]
    split_ifs
    · exact ⟨hstore, hstore⟩
    · exact ⟨hstore, hs.2.of_subset (Nat.le_succ _) fun n sb hn => ⟨sb, hn, rfl⟩⟩

/-- **Owners.** In every interleaving of requests, from any model, each request
that is carried out guards the owners of the objects if and only if each finds
its name as its check left it. -/
theorem owners_iff (cube : String) (eval : SetEvaluator) (s : SavedServer)
    (steps : List (ServeStep SavedCall SavedHow SavedMove)) :
    Along (service cube eval).next
        (fun s x => ∀ q next, (service cube eval).Carries s x q next → s.state.Guarded q next)
        (Service.start s) steps ↔
      Along (service cube eval).next
        (fun s x => ∀ q next, (service cube eval).Carries s x q next → s.state.Undisturbed q)
        (Service.start s) steps :=
  Service.along_carried_iff (P := fun s q next => s.Guarded q next)
    (C := fun s q _ => s.Undisturbed q)
    (fun _ _ _ _ _ _ hcheck hact => guarded_iff hcheck hact) s steps

/-! ## Two creations of one name -/

/-- A server of the cube without saved objects. -/
def salesSaved : SavedServer := ⟨.new WriteServer.sales, .new WriteServer.sales, 1, 2⟩

/-- The creation of an empty view by a user. -/
def createBy (username : String) : SavedCall :=
  ⟨⟨username, false, []⟩, .createView ⟨some "v", none, false, false, none, [], [], []⟩⟩

/-- Both creations are checked, and then both are carried out. -/
def racing : List (ServeStep SavedCall SavedHow SavedMove) :=
  [.check 1 (createBy "ann"), .check 2 (createBy "bob"), .act 1 ⟨false, true⟩,
    .act 2 ⟨false, true⟩]

/-- The view of the first user is replaced by the creation of the second. -/
theorem not_guarded_racing :
    ¬Along (service "Sales" fun _ _ => .ok []).next
      (fun s x => ∀ q next, (service "Sales" fun _ _ => .ok []).Carries s x q next →
        s.state.Guarded q next) (Service.start salesSaved) racing := by
  rintro ⟨-, -, -, h, -⟩
  have hcarried := h (createBy "bob", ⟨.defineView
    ⟨"v", "Sales", some "bob", .pub, [], [], [], false, false⟩, none⟩) _
    ⟨2, ⟨false, true⟩, rfl, rfl, rfl⟩
  have hfree := hcarried.fresh rfl
  cases hfree

end SavedServer

end Epiphany
