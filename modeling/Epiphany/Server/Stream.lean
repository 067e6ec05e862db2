import Epiphany.Common.Runs
import Epiphany.Engine.Feed
import Epiphany.Server.Sessions
/-!
# The change stream — what a subscriber is told of commits

Every commit queues one event with each subscriber. When a subscriber's
stream takes an event from its queue it looks at his session, his admin
flag and his grants as they are then, and at the sandbox that then has the
name the event carries. An event of a base commit is kept from those who
cannot read the cube; the event of a sandbox write and that of a promotion
have rules of their own (`mayKnow_run_iff`).
-/

namespace Epiphany

/-! ## Events -/

/-- A change notification. -/
inductive ChangeEvent where
  /-- Sent once when a client connects. -/
  | hello (version : Nat)
  | cellsChanged (cube : String) (version : Nat) (coords : List (List (String × String)))
    (sandbox owner : Option String)
  /-- The saved objects of a cube changed. -/
  | objectsChanged (cube : String) (version : Nat)
deriving DecidableEq

namespace ChangeEvent

/-- The event of a commit: without coordinates and without an owner. -/
def onCommit (event : CommitEvent) : ChangeEvent :=
  .cellsChanged event.cube event.version [] event.sandbox none

def stripCoords : ChangeEvent → ChangeEvent
  | .cellsChanged cube version _ sandbox owner => .cellsChanged cube version [] sandbox owner
  | other => other

/-- The cube an event names. -/
def cube : ChangeEvent → Option String
  | .hello _ => none
  | .cellsChanged cube _ _ _ _ => some cube
  | .objectsChanged cube _ => some cube

/-- The version of the sandbox write that caused an event. -/
def privateWrite : ChangeEvent → Option Nat
  | .cellsChanged _ version _ (some _) _ => some version
  | _ => none

end ChangeEvent

/-! ## State -/

/-- A sandbox, as far as the stream looks at it. -/
structure OwnedSandbox where
  owner : String
  /-- The next id when it was created: later writes have greater versions. -/
  since : Nat

/-- A cube: the sandboxes of the writer's store, and those readers see. -/
structure StreamedCube where
  store : FinMap String OwnedSandbox
  published : FinMap String OwnedSandbox
  version : Nat

structure Subscriber where
  username : String
  token : String
  queue : List ChangeEvent

structure Stream where
  server : Server
  nextId : Nat
  cubes : FinMap String StreamedCube
  subscribers : List Subscriber
  /-- The sandbox writes so far: who owned the sandbox when a version was
  committed. The program keeps no such record. -/
  writtenBy : FinMap Nat String

/-- The work of a commit, as far as it concerns the sandboxes. -/
inductive SandboxWork where
  /-- Cells, definitions, structural edits, and the commit of a sandbox. -/
  | base
  | create (name owner : String)
  | stage (name : String)
  | discard (name : String)

/-- One step of some client or of a stream. The requests have been gated
before; of two requests at once, either may commit first. -/
inductive StreamStep where
  | server (step : ServerStep)
  /-- Take an id for something else than a version. -/
  | takeId
  | createCube (name : String)
  /-- A commit. Where its version cannot be recorded, the store keeps the
  work and readers do not see it. -/
  | commit (cube : String) (work : SandboxWork) (recorded : Bool)
  /-- The work of a commit fails; the store goes back to what readers see. -/
  | failCommit (cube : String)
  /-- A dimension of a cube becomes a shared one. -/
  | promote (cube : String)
  | subscribe (token : String) (now : Nat)
  /-- The oldest events are dropped from the queue of a slow client. -/
  | lag (subscriber dropped : Nat)
  | disconnect (subscriber : Nat)
  | deliver (subscriber now : Nat)

/-! ## Commits -/

namespace SandboxWork

/-- The sandboxes after the work. -/
def apply (sandboxes : FinMap String OwnedSandbox) (nextId : Nat) :
    SandboxWork → Except String (FinMap String OwnedSandbox)
  | .base => .ok sandboxes
  | .create name owner =>
    match sandboxes[name]? with
    | some _ => .error ("sandbox '" ++ name ++ "' already exists")
    | none => .ok (sandboxes.insert name ⟨owner, nextId⟩)
  | .stage name =>
    match sandboxes[name]? with
    | some _ => .ok sandboxes
    | none => .error ("no sandbox '" ++ name ++ "'")
  | .discard name =>
    match sandboxes[name]? with
    | some _ => .ok (sandboxes.erase name)
    | none => .error ("no sandbox '" ++ name ++ "'")

/-- The sandbox that the event of a commit carries. -/
def sandbox : SandboxWork → Option String
  | .stage name => some name
  | _ => none

end SandboxWork

namespace Stream

variable (s : Stream) (pw : Passwords)

/-- Queue an event with every subscriber. -/
def broadcast (event : ChangeEvent) : Stream :=
  { s with
    subscribers := s.subscribers.map fun sub => { sub with queue := sub.queue ++ [event] } }

/-- Note who owns the sandbox that a commit writes to. -/
def note (sandboxes : FinMap String OwnedSandbox) (work : SandboxWork) : FinMap Nat String :=
  match work.sandbox.bind fun name => sandboxes[name]? with
  | some sb => s.writtenBy.insert s.nextId sb.owner
  | none => s.writtenBy

/-- Publish a version of a cube. -/
def publish (cube : String) (sandboxes : FinMap String OwnedSandbox) : Stream :=
  { s with
    nextId := s.nextId + 1
    cubes := s.cubes.insert cube ⟨sandboxes, sandboxes, s.nextId⟩ }

def createCube (name : String) : Except String Stream :=
  match s.cubes[name]? with
  | some _ => .error ("cube '" ++ name ++ "' already exists")
  | none => .ok ((s.publish name ∅).broadcast (.onCommit ⟨name, s.nextId, none⟩))

def commit (cube : String) (work : SandboxWork) (recorded : Bool) : Except String Stream := do
  let c ← okOr s.cubes[cube]? ("unknown cube '" ++ cube ++ "'")
  let sandboxes ← work.apply c.store s.nextId
  match recorded with
  | false =>
    .ok { s with
      nextId := s.nextId + 1
      cubes := s.cubes.insert cube { c with store := sandboxes } }
  | true =>
    .ok (({ s.publish cube sandboxes with writtenBy := s.note sandboxes work }).broadcast
      (.onCommit ⟨cube, s.nextId, work.sandbox⟩))

def failCommit (cube : String) : Except String Stream := do
  let c ← okOr s.cubes[cube]? ("unknown cube '" ++ cube ++ "'")
  .ok { s with cubes := s.cubes.insert cube { c with store := c.published } }

/-- The registry alone is changed: no commit, and an event of the version
that the cube has. -/
def promote (cube : String) : Except String Stream := do
  let c ← okOr s.cubes[cube]? ("unknown cube '" ++ cube ++ "'")
  .ok (s.broadcast (.objectsChanged cube c.version))

/-! ## Streams -/

def subscribe (token : String) (now : Nat) : Except String Stream :=
  match s.server.authenticate token now false with
  | (.error e, _) => .error e.message
  | (.ok p, server) =>
    .ok { s with server, subscribers := s.subscribers ++ [⟨p.username, token, []⟩] }

def isAdmin (username : String) : Bool := s.server.content.security.isAdmin username

def canRead (username cube : String) : Bool :=
  .read ≤ s.server.content.security.cubeAccess username cube

/-- The sandbox that has a name in a cube now. -/
def sandboxAt (cube sandbox : String) : Option OwnedSandbox :=
  s.cubes[cube]?.bind fun c => c.published[sandbox]?

/-- The current owner of a sandbox. -/
def sandboxOwner (cube sandbox : String) : Option String :=
  (s.sandboxAt cube sandbox).map OwnedSandbox.owner

def sandboxOwnerVisible (owner username : String) (isAdmin : Bool) : Bool :=
  isAdmin || owner = username

/-- Whether an event is delivered to a subscriber. -/
def deliveryFor (event : ChangeEvent) (username : String) (isAdmin : Bool) : Bool :=
  match event with
  | .cellsChanged _ _ _ _ (some owner) => sandboxOwnerVisible owner username isAdmin
  | .cellsChanged cube _ _ (some sandbox) none =>
    match s.sandboxOwner cube sandbox with
    | some owner => sandboxOwnerVisible owner username isAdmin
    | none => isAdmin
  | .cellsChanged cube _ _ none none => isAdmin || s.canRead username cube
  | _ => true

/-- What a stream sends when it takes an event; without a live session it
closes. -/
def pump (sub : Subscriber) (event : ChangeEvent) (now : Nat) : Option ChangeEvent :=
  if s.server.sessions.isValid sub.token now &&
      s.deliveryFor event sub.username (s.isAdmin sub.username) then some event.stripCoords
  else none

/-- The subscriber whose stream takes an event, and the event. -/
def taken : StreamStep → Option (Subscriber × ChangeEvent × Nat)
  | .deliver i now =>
    s.subscribers[i]?.bind fun sub => sub.queue.head?.map fun event => (sub, event, now)
  | _ => none

/-- What a step sends to whom. -/
def sent : StreamStep → Option (Subscriber × ChangeEvent × Nat)
  | .subscribe token now =>
    match s.server.authenticate token now false with
    | (.ok p, _) => some (⟨p.username, token, []⟩, .hello 0, now)
    | (.error _, _) => none
  | a => (s.taken a).bind fun t => (s.pump t.1 t.2.1 t.2.2).map fun event => (t.1, event, t.2.2)

def deliver (i now : Nat) : Except String Stream :=
  match s.subscribers[i]? with
  | none => .error "closed"
  | some sub =>
    match sub.queue with
    | [] => .error "no event"
    | _ :: queue =>
      if s.server.sessions.isValid sub.token now then
        .ok { s with subscribers := s.subscribers.set i { sub with queue } }
      else .ok { s with subscribers := s.subscribers.eraseIdx i }

def lag (i dropped : Nat) : Except String Stream :=
  match s.subscribers[i]? with
  | none => .error "closed"
  | some sub =>
    .ok { s with
      subscribers := s.subscribers.set i { sub with queue := sub.queue.drop dropped } }

def step (s : Stream) : StreamStep → Except String Stream
  | .server step => .ok { s with server := s.server.step pw step }
  | .takeId => .ok { s with nextId := s.nextId + 1 }
  | .createCube name => s.createCube name
  | .commit cube work recorded => s.commit cube work recorded
  | .failCommit cube => s.failCommit cube
  | .promote cube => s.promote cube
  | .subscribe token now => s.subscribe token now
  | .lag i dropped => s.lag i dropped
  | .disconnect i => .ok { s with subscribers := s.subscribers.eraseIdx i }
  | .deliver i now => s.deliver i now

/-- Nobody is connected yet, and the ids of a running server come after
those in use. -/
structure Initial : Prop where
  subscribers : s.subscribers = []
  writtenBy : s.writtenBy = ∅

/-! ## What a subscriber may know -/

/-- A subscriber may be told of an event: as an administrator, or with a
live session, as a reader of its cube, and of a sandbox write as the one who
owned the sandbox when it was committed. -/
def MayKnow (sub : Subscriber) (event : ChangeEvent) (now : Nat) : Prop :=
  s.isAdmin sub.username = true ∨
    (∀ cube, event.cube = some cube →
      s.server.sessions.isValid sub.token now = true ∧ s.canRead sub.username cube = true) ∧
    ∀ version, event.privateWrite = some version →
      s.writtenBy[version]? = some sub.username

/-- What a step sends, its receiver may know. -/
def TellsOnly (a : StreamStep) : Prop :=
  ∀ sub event now, s.sent a = some (sub, event, now) → s.MayKnow sub event now

/-- The sandbox that has the name of the one that was written was there at
the write, or belongs to the one who owned that. -/
def sameOwner (version : Nat) (sb : OwnedSandbox) : Bool :=
  sb.since ≤ version || s.writtenBy[version]? = some sb.owner

/-- What the rule for the kind of an event leaves open does not matter: a
promotion is of a cube that the user can read, and where the sandbox that has
the name of the one that was written is his, he can read the cube and it is
not a later one of another user's. -/
def rulesSuffice (username : String) : ChangeEvent → Bool
  | .objectsChanged cube _ => s.canRead username cube
  | .cellsChanged cube version _ (some name) _ =>
    (s.sandboxAt cube name).all fun sb =>
      sb.owner ≠ username || s.canRead username cube && s.sameOwner version sb
  | _ => true

/-- A stream takes an event without a live session, for an administrator, or
where the rules suffice. -/
def clean (a : StreamStep) : Bool :=
  (s.taken a).all fun t =>
    !s.server.sessions.isValid t.1.token t.2.2 || s.isAdmin t.1.username ||
      s.rulesSuffice t.1.username t.2.1

/-- Every step of a run has a property in the state it is taken in. -/
def AllSteps (P : Stream → StreamStep → Prop) : Stream → List StreamStep → Prop
  | _, [] => True
  | s, a :: steps => P s a ∧ AllSteps P (call (Stream.step pw) s a) steps

instance AllSteps.decidable {P : Stream → StreamStep → Prop} [∀ s a, Decidable (P s a)]
    (s : Stream) (steps : List StreamStep) : Decidable (AllSteps pw P s steps) :=
  match steps with
  | [] => inferInstanceAs (Decidable True)
  | a :: steps =>
    have : Decidable (AllSteps pw P (call (Stream.step pw) s a) steps) := AllSteps.decidable _ steps
    inferInstanceAs (Decidable (_ ∧ _))

/-! ## What every step keeps -/

end Stream

/-- A sandbox that readers see, or that the store of the writer has. -/
def StreamedCube.Has (c : StreamedCube) (name : String) (sb : OwnedSandbox) : Prop :=
  c.published[name]? = some sb ∨ c.store[name]? = some sb

namespace SandboxWork

/-- The work of a commit keeps sandboxes and makes new ones. -/
theorem old_or_new {work : SandboxWork} {store sandboxes : FinMap String OwnedSandbox}
    {nextId : Nat} (h : work.apply store nextId = .ok sandboxes) {name : String}
    {sb : OwnedSandbox} (hsb : sandboxes[name]? = some sb) :
    store[name]? = some sb ∨ nextId ≤ sb.since := by
  cases work with
  | base =>
    obtain rfl := Except.ok.inj h
    exact Or.inl hsb
  | create n owner =>
    simp only [apply] at h
    split at h
    · cases h
    · obtain rfl := Except.ok.inj h
      rw [FinMap.get_insert] at hsb
      split_ifs at hsb
      · obtain rfl := Option.some.inj hsb
        exact Or.inr le_rfl
      · exact Or.inl hsb
  | stage n =>
    simp only [apply] at h
    split at h
    · obtain rfl := Except.ok.inj h
      exact Or.inl hsb
    · cases h
  | discard n =>
    simp only [apply] at h
    split at h
    · obtain rfl := Except.ok.inj h
      rw [FinMap.get_erase] at hsb
      split_ifs at hsb
      exact Or.inl hsb
    · cases h

end SandboxWork

namespace Stream

/-- A version was used, and whatever sandbox of a name in a cube was there
then belonged to the one on record. -/
def Settled (s : Stream) (cube name : String) (version : Nat) : Prop :=
  version < s.nextId ∧ ∀ c sb, s.cubes[cube]? = some c → c.Has name sb → sb.since ≤ version →
    s.writtenBy[version]? = some sb.owner

/-- An event that a commit or a promotion has queued. -/
def Known (s : Stream) : ChangeEvent → Prop
  | .cellsChanged cube version _ sandbox owner =>
    owner = none ∧ ∀ name, sandbox = some name → s.Settled cube name version
  | _ => True

def Tracked (s : Stream) : Prop :=
  ∀ sub ∈ s.subscribers, ∀ event ∈ sub.queue, s.Known event

/-- A later state: the record of the versions in use stays, and sandboxes
that come are new. -/
structure Extends (s s' : Stream) : Prop where
  nextId : s.nextId ≤ s'.nextId
  writtenBy : ∀ version < s.nextId, s'.writtenBy[version]? = s.writtenBy[version]?
  sandboxes : ∀ (cube : String) c' name sb, s'.cubes[cube]? = some c' → c'.Has name sb →
    (∃ c, s.cubes[cube]? = some c ∧ c.Has name sb) ∨ s.nextId ≤ sb.since

variable {s s' : Stream} {pw : Passwords}

theorem Extends.of_eq (hid : s.nextId ≤ s'.nextId) (hcubes : s'.cubes = s.cubes)
    (hwritten : s'.writtenBy = s.writtenBy) : s.Extends s' := by
  refine ⟨hid, fun _ _ => by rw [hwritten], fun cube c' name sb hc' hsb => ?_⟩
  rw [hcubes] at hc'
  exact Or.inl ⟨c', hc', hsb⟩

/-- One cube changes, and its sandboxes are old or new ones. -/
theorem Extends.of_insert {cube : String} {c' : StreamedCube} (hid : s.nextId ≤ s'.nextId)
    (hcubes : s'.cubes = s.cubes.insert cube c')
    (hwritten : ∀ version < s.nextId, s'.writtenBy[version]? = s.writtenBy[version]?)
    (hhas : ∀ name sb, c'.Has name sb →
      (∃ c, s.cubes[cube]? = some c ∧ c.Has name sb) ∨ s.nextId ≤ sb.since) : s.Extends s' := by
  refine ⟨hid, hwritten, fun k d name sb hd hsb => ?_⟩
  rw [hcubes, FinMap.get_insert] at hd
  split_ifs at hd with hk
  · subst hk
    obtain rfl := Option.some.inj hd
    exact hhas name sb hsb
  · exact Or.inl ⟨d, hd, hsb⟩

theorem Settled.extends {cube name : String} {version : Nat} (h : s.Settled cube name version)
    (hext : s.Extends s') : s'.Settled cube name version := by
  obtain ⟨hlt, howner⟩ := h
  refine ⟨hlt.trans_le hext.nextId, fun c' sb hc' hsb hsince => ?_⟩
  rw [hext.writtenBy version hlt]
  rcases hext.sandboxes cube c' name sb hc' hsb with ⟨c, hc, hold⟩ | hnew
  · exact howner c sb hc hold hsince
  · omega

theorem Known.extends {event : ChangeEvent} (h : s.Known event) (hext : s.Extends s') :
    s'.Known event := by
  cases event with
  | cellsChanged cube version coords sandbox owner =>
    exact ⟨h.1, fun name hname => (h.2 name hname).extends hext⟩
  | _ => trivial

/-- Queues hold old events, and one more that is known. -/
theorem Tracked.extends (h : s.Tracked) (hext : s.Extends s')
    (hqueues : ∀ sub' ∈ s'.subscribers, ∀ event ∈ sub'.queue,
      (∃ sub ∈ s.subscribers, event ∈ sub.queue) ∨ s'.Known event) : s'.Tracked := by
  intro sub' hsub' event hevent
  rcases hqueues sub' hsub' event hevent with ⟨sub, hsub, hmem⟩ | hknown
  · exact (h sub hsub event hmem).extends hext
  · exact hknown

theorem Tracked.broadcast (h : s.Tracked) (hext : s.Extends s')
    (hsubs : s'.subscribers = s.subscribers) {event : ChangeEvent} (hevent : s'.Known event) :
    (s'.broadcast event).Tracked := by
  have hext' : s.Extends (s'.broadcast event) := ⟨hext.nextId, hext.writtenBy, hext.sandboxes⟩
  have hknown : (s'.broadcast event).Known event :=
    hevent.extends (Extends.of_eq le_rfl rfl rfl)
  refine h.extends hext' fun sub' hsub' e he => ?_
  obtain ⟨sub, hsub, rfl⟩ := List.mem_map.1 hsub'
  rw [hsubs] at hsub
  rcases List.mem_append.1 he with he | he
  · exact Or.inl ⟨sub, hsub, he⟩
  · rw [List.mem_singleton.1 he]
    exact Or.inr hknown

/-- Streams come, go, and take or lose events. -/
theorem Tracked.of_queues (h : s.Tracked) (hid : s'.nextId = s.nextId)
    (hcubes : s'.cubes = s.cubes) (hwritten : s'.writtenBy = s.writtenBy)
    (hqueues : ∀ sub' ∈ s'.subscribers, ∀ event ∈ sub'.queue,
      ∃ sub ∈ s.subscribers, event ∈ sub.queue) : s'.Tracked :=
  h.extends (.of_eq hid.ge hcubes hwritten)
    fun sub' hsub' event hevent => Or.inl (hqueues sub' hsub' event hevent)

theorem Tracked.createCube (h : s.Tracked) {name : String} (hstep : s.createCube name = .ok s') :
    s'.Tracked := by
  unfold Stream.createCube at hstep
  split at hstep
  · cases hstep
  · obtain rfl := Except.ok.inj hstep
    have hext : s.Extends (s.publish name ∅) := by
      refine .of_insert (Nat.le_succ _) rfl (fun _ _ => rfl) fun n sb hsb => ?_
      -- the new cube has no sandbox
      rcases hsb with hsb | hsb
      · cases hsb
      · cases hsb
    exact h.broadcast hext rfl ⟨rfl, fun n hn => by cases hn⟩

/-- The event of a commit is of a version that is on record with the owner
of the sandbox. -/
theorem known_onCommit (cube : String) (work : SandboxWork)
    (sandboxes : FinMap String OwnedSandbox) :
    ({ s.publish cube sandboxes with writtenBy := s.note sandboxes work } : Stream).Known
      (.onCommit ⟨cube, s.nextId, work.sandbox⟩) := by
  refine ⟨rfl, fun name hname => ⟨Nat.lt_succ_self _, fun c' sb hc' hsb _ => ?_⟩⟩
  have hget : (s.cubes.insert cube ⟨sandboxes, sandboxes, s.nextId⟩)[cube]? = some c' := hc'
  rw [FinMap.get_insert_self] at hget
  obtain rfl := Option.some.inj hget
  have hsb : sandboxes[name]? = some sb := hsb.elim id id
  show (s.note sandboxes work)[s.nextId]? = _
  have hwritten : s.note sandboxes work = s.writtenBy.insert s.nextId sb.owner := by
    have hname : work.sandbox = some name := hname
    unfold note
    rw [hname, Option.bind_some, hsb]
  rw [hwritten, FinMap.get_insert_self]

theorem note_of_lt {sandboxes : FinMap String OwnedSandbox} {work : SandboxWork} {version : Nat}
    (h : version < s.nextId) : (s.note sandboxes work)[version]? = s.writtenBy[version]? := by
  unfold note
  split
  · exact FinMap.get_insert_of_ne (by omega) _
  · rfl

theorem Tracked.commit (h : s.Tracked) {cube : String} {work : SandboxWork} {recorded : Bool}
    (hstep : s.commit cube work recorded = .ok s') : s'.Tracked := by
  unfold Stream.commit at hstep
  obtain ⟨c, hc, hstep⟩ := bind_eq_ok.1 hstep
  obtain ⟨sandboxes, hwork, hstep⟩ := bind_eq_ok.1 hstep
  rw [okOr_eq_ok] at hc
  have hnew : ∀ name sb, sandboxes[name]? = some sb →
      (∃ c, s.cubes[cube]? = some c ∧ c.Has name sb) ∨ s.nextId ≤ sb.since := by
    intro name sb hsb
    exact (work.old_or_new hwork hsb).imp_left fun hold => ⟨c, hc, Or.inr hold⟩
  cases recorded with
  | false =>
    obtain rfl := Except.ok.inj hstep
    refine h.extends (.of_insert (Nat.le_succ _) rfl (fun _ _ => rfl) fun name sb hsb => ?_)
      fun sub hsub event hevent => Or.inl ⟨sub, hsub, hevent⟩
    rcases hsb with hsb | hsb
    · exact Or.inl ⟨c, hc, Or.inl hsb⟩
    · exact hnew name sb hsb
  | true =>
    obtain rfl := Except.ok.inj hstep
    have hext : s.Extends { s.publish cube sandboxes with writtenBy := s.note sandboxes work } :=
      .of_insert (Nat.le_succ _) rfl (fun v hv => note_of_lt hv)
        fun name sb hsb => hnew name sb (hsb.elim id id)
    exact h.broadcast hext rfl (known_onCommit cube work sandboxes)

theorem Tracked.failCommit (h : s.Tracked) {cube : String} (hstep : s.failCommit cube = .ok s') :
    s'.Tracked := by
  unfold Stream.failCommit at hstep
  obtain ⟨c, hc, hstep⟩ := bind_eq_ok.1 hstep
  rw [okOr_eq_ok] at hc
  obtain rfl := Except.ok.inj hstep
  refine h.extends (.of_insert le_rfl rfl (fun _ _ => rfl) fun name sb hsb => ?_)
    fun sub hsub event hevent => Or.inl ⟨sub, hsub, hevent⟩
  exact Or.inl ⟨c, hc, Or.inl (hsb.elim id id)⟩

theorem Tracked.promote (h : s.Tracked) {cube : String} (hstep : s.promote cube = .ok s') :
    s'.Tracked := by
  unfold Stream.promote at hstep
  obtain ⟨c, -, hstep⟩ := bind_eq_ok.1 hstep
  obtain rfl := Except.ok.inj hstep
  exact h.broadcast (.of_eq le_rfl rfl rfl) rfl trivial

theorem Tracked.subscribe (h : s.Tracked) {token : String} {now : Nat}
    (hstep : s.subscribe token now = .ok s') : s'.Tracked := by
  unfold Stream.subscribe at hstep
  split at hstep
  · cases hstep
  · obtain rfl := Except.ok.inj hstep
    refine h.of_queues rfl rfl rfl fun sub hsub event hevent => ?_
    rcases List.mem_append.1 hsub with hsub | hsub
    · exact ⟨sub, hsub, hevent⟩
    · rw [List.mem_singleton.1 hsub] at hevent
      cases hevent

/-- The queue of one subscriber becomes shorter. -/
theorem Tracked.set (h : s.Tracked) {i : Nat} {sub : Subscriber} (hi : s.subscribers[i]? = some sub)
    {queue : List ChangeEvent} (hqueue : queue ⊆ sub.queue) :
    ({ s with subscribers := s.subscribers.set i { sub with queue } } : Stream).Tracked := by
  refine h.of_queues rfl rfl rfl fun sub' hsub' event hevent => ?_
  rcases List.mem_or_eq_of_mem_set hsub' with hmem | rfl
  · exact ⟨sub', hmem, hevent⟩
  · exact ⟨sub, List.mem_of_getElem? hi, hqueue hevent⟩

theorem Tracked.eraseIdx (h : s.Tracked) (i : Nat) :
    ({ s with subscribers := s.subscribers.eraseIdx i } : Stream).Tracked :=
  h.of_queues rfl rfl rfl
    fun sub hsub _ hevent => ⟨sub, List.mem_of_mem_eraseIdx hsub, hevent⟩

/-- **Step.** -/
theorem Tracked.step (h : s.Tracked) {a : StreamStep} (hstep : s.step pw a = .ok s') :
    s'.Tracked := by
  have hsame : ∀ sub ∈ s.subscribers, ∀ event ∈ sub.queue,
      ∃ sub ∈ s.subscribers, event ∈ sub.queue := fun sub hsub _ hevent => ⟨sub, hsub, hevent⟩
  cases a with
  | server step =>
    obtain rfl := Except.ok.inj hstep
    exact h.of_queues rfl rfl rfl hsame
  | takeId =>
    obtain rfl := Except.ok.inj hstep
    exact h.extends (.of_eq (Nat.le_succ _) rfl rfl)
      fun sub hsub event hevent => Or.inl (hsame sub hsub event hevent)
  | createCube name => exact h.createCube hstep
  | commit cube work recorded => exact h.commit hstep
  | failCommit cube => exact h.failCommit hstep
  | promote cube => exact h.promote hstep
  | subscribe token now => exact h.subscribe hstep
  | lag i dropped =>
    simp only [Stream.step, Stream.lag] at hstep
    split at hstep
    · cases hstep
    · rename_i sub hi
      obtain rfl := Except.ok.inj hstep
      exact h.set hi (List.drop_subset _ _)
  | disconnect i =>
    obtain rfl := Except.ok.inj hstep
    exact h.eraseIdx i
  | deliver i now =>
    simp only [Stream.step, Stream.deliver] at hstep
    split at hstep
    · cases hstep
    · rename_i sub hi
      split at hstep
      · cases hstep
      · rename_i event queue hqueue
        split_ifs at hstep
        · obtain rfl := Except.ok.inj hstep
          refine h.set hi ?_
          rw [hqueue]
          exact List.subset_cons_self _ _
        · obtain rfl := Except.ok.inj hstep
          exact h.eraseIdx i

/-! ## What is sent -/

/-- A taken event is one that waited. -/
theorem Tracked.known_of_taken (h : s.Tracked) {a : StreamStep} {sub : Subscriber}
    {event : ChangeEvent} {now : Nat} (htaken : s.taken a = some (sub, event, now)) :
    s.Known event := by
  unfold taken at htaken
  split at htaken
  · rename_i i now'
    obtain ⟨sub', hi, htaken⟩ := Option.bind_eq_some_iff.1 htaken
    obtain ⟨event', hhead, htaken⟩ := Option.map_eq_some_iff.1 htaken
    cases htaken
    exact h sub (List.mem_of_getElem? hi) event (List.mem_of_head? hhead)
  · cases htaken

theorem pump_eq_some {sub : Subscriber} {event event' : ChangeEvent} {now : Nat} :
    s.pump sub event now = some event' ↔
      s.server.sessions.isValid sub.token now = true ∧
        s.deliveryFor event sub.username (s.isAdmin sub.username) = true ∧
        event.stripCoords = event' := by
  unfold pump
  split_ifs with h
  · rw [Bool.and_eq_true] at h
    simp [h]
  · rw [Bool.and_eq_true] at h
    simp only [false_iff]
    rintro ⟨hvalid, hdelivery, -⟩
    exact h ⟨hvalid, hdelivery⟩

/-- Where the rules suffice, what is delivered may be known. -/
theorem mayKnow_of_delivery {sub : Subscriber} {event : ChangeEvent} {now : Nat}
    (hknown : s.Known event) (hvalid : s.server.sessions.isValid sub.token now = true)
    (hadmin : s.isAdmin sub.username = false)
    (hdelivery : s.deliveryFor event sub.username (s.isAdmin sub.username) = true)
    (hrules : s.rulesSuffice sub.username event = true) :
    s.MayKnow sub event.stripCoords now := by
  rw [hadmin] at hdelivery
  cases event with
  | hello version =>
    exact Or.inr ⟨fun cube hcube => (by cases hcube), fun v hv => (by cases hv)⟩
  | objectsChanged cube version =>
    refine Or.inr ⟨fun k hk => ?_, fun v hv => (by cases hv)⟩
    cases hk
    exact ⟨hvalid, hrules⟩
  | cellsChanged cube version coords sandbox owner =>
    obtain ⟨rfl, hsettled⟩ := hknown
    cases sandbox with
    | none =>
      refine Or.inr ⟨fun k hk => ?_, fun v hv => (by cases hv)⟩
      cases hk
      simp only [deliveryFor, Bool.false_or] at hdelivery
      exact ⟨hvalid, hdelivery⟩
    | some name =>
      simp only [deliveryFor] at hdelivery
      -- the sandbox of that name is there, and is the subscriber's
      obtain ⟨sb, hsb, howner⟩ : ∃ sb, s.sandboxAt cube name = some sb ∧ sb.owner = sub.username := by
        unfold sandboxOwner at hdelivery
        rcases hat : s.sandboxAt cube name with _ | sb
        · rw [hat] at hdelivery
          cases hdelivery
        · rw [hat] at hdelivery
          simp only [Option.map_some, sandboxOwnerVisible, Bool.false_or,
            decide_eq_true_eq] at hdelivery
          exact ⟨sb, rfl, hdelivery⟩
      simp only [rulesSuffice, hsb, Option.all_some, howner, ne_eq, not_true_eq_false,
        decide_false, Bool.false_or, Bool.and_eq_true] at hrules
      obtain ⟨hread, hsame⟩ := hrules
      refine Or.inr ⟨fun k hk => ?_, fun v hv => ?_⟩
      · cases hk
        exact ⟨hvalid, hread⟩
      · cases hv
        obtain ⟨c, hc, hget⟩ := Option.bind_eq_some_iff.1 hsb
        rw [sameOwner, Bool.or_eq_true, decide_eq_true_eq, decide_eq_true_eq] at hsame
        rcases hsame with hsince | hwritten
        · rw [(hsettled name rfl).2 c sb hc (Or.inl hget) hsince, howner]
        · rw [hwritten, howner]

/-- Where a delivery may be known, the rules suffice. -/
theorem rulesSuffice_of_mayKnow {sub : Subscriber} {event : ChangeEvent} {now : Nat}
    (hknown : s.Known event) (hadmin : s.isAdmin sub.username = false)
    (hmay : s.deliveryFor event sub.username (s.isAdmin sub.username) = true →
      s.MayKnow sub event.stripCoords now) :
    s.rulesSuffice sub.username event = true := by
  have hnot : ∀ {P : Prop}, s.isAdmin sub.username = true ∨ P → P := by
    intro P hor
    refine hor.resolve_left ?_
    rw [hadmin]
    exact Bool.false_ne_true
  cases event with
  | hello version => rfl
  | objectsChanged cube version => exact ((hnot (hmay rfl)).1 cube rfl).2
  | cellsChanged cube version coords sandbox owner =>
    obtain ⟨rfl, -⟩ := hknown
    cases sandbox with
    | none => rfl
    | some name =>
      simp only [rulesSuffice]
      rcases hsb : s.sandboxAt cube name with _ | sb
      · rfl
      · by_cases howner : sb.owner = sub.username
        · have hdelivery : s.deliveryFor (.cellsChanged cube version coords (some name) none)
              sub.username (s.isAdmin sub.username) = true := by
            simp [deliveryFor, sandboxOwner, hsb, sandboxOwnerVisible, howner]
          obtain ⟨hcube, hwrite⟩ := hnot (hmay hdelivery)
          have hwritten := hwrite version rfl
          simp [(hcube cube rfl).2, sameOwner, hwritten, howner]
        · simp [howner]

/-- In every state that is kept track of, what a step sends may be known
exactly where the rules for the taken event suffice. -/
theorem Tracked.tellsOnly_iff (h : s.Tracked) (a : StreamStep) :
    s.TellsOnly a ↔ s.clean a = true := by
  have hclean : s.clean a = true ↔ ∀ sub event now, s.taken a = some (sub, event, now) →
      s.server.sessions.isValid sub.token now = true → s.isAdmin sub.username = false →
        s.rulesSuffice sub.username event = true := by
    unfold clean
    rcases htaken : s.taken a with _ | ⟨sub, event, now⟩
    · simp
    · rw [Option.all_some, Bool.or_eq_true, Bool.or_eq_true, Bool.not_eq_true']
      constructor
      · rintro h sub' event' now' heq hvalid hadmin
        cases heq
        simpa [hvalid, hadmin] using h
      · intro h
        have hrules := h sub event now rfl
        revert hrules
        cases s.server.sessions.isValid sub.token now <;> cases s.isAdmin sub.username <;> simp
  rw [hclean]
  constructor
  · intro htells sub event now htaken hvalid hadmin
    have hknown := h.known_of_taken htaken
    refine @rulesSuffice_of_mayKnow _ _ _ now hknown hadmin fun hdelivery => ?_
    refine htells sub event.stripCoords now ?_
    have hpump := pump_eq_some.2 ⟨hvalid, hdelivery, rfl⟩
    unfold sent
    split
    · cases htaken
    · rw [htaken, Option.bind_some, hpump]
      rfl
  · intro hrules sub event now hsent
    by_cases hadmin : s.isAdmin sub.username = true
    · exact Or.inl hadmin
    · rw [Bool.not_eq_true] at hadmin
      unfold sent at hsent
      split at hsent
      · split at hsent
        · cases hsent
          exact Or.inr ⟨fun cube hcube => (by cases hcube), fun v hv => (by cases hv)⟩
        · cases hsent
      · obtain ⟨⟨sub', event', now'⟩, htaken, hsent⟩ := Option.bind_eq_some_iff.1 hsent
        obtain ⟨sentEvent, hpump, heq⟩ := Option.map_eq_some_iff.1 hsent
        cases heq
        obtain ⟨hvalid, hdelivery, rfl⟩ := pump_eq_some.1 hpump
        exact mayKnow_of_delivery (h.known_of_taken htaken) hvalid hadmin hdelivery
          (hrules _ event' _ htaken hvalid hadmin)

/-! ## Runs -/

theorem Initial.tracked (h : s.Initial) : s.Tracked := by
  intro sub hsub
  rw [h.subscribers] at hsub
  cases hsub

theorem Tracked.call (h : s.Tracked) (pw : Passwords) (a : StreamStep) :
    (call (Stream.step pw) s a).Tracked := by
  unfold Epiphany.call
  split
  · rename_i s' hstep
    exact h.step hstep
  · exact h

/-- **Run.** -/
theorem Tracked.allSteps_iff (h : s.Tracked) (pw : Passwords) (steps : List StreamStep) :
    AllSteps pw TellsOnly s steps ↔ AllSteps pw (fun s a => s.clean a = true) s steps := by
  induction steps generalizing s with
  | nil => exact Iff.rfl
  | cons a steps ih => exact and_congr (h.tellsOnly_iff a) (ih (h.call pw a))

/-- **What the stream tells**: in a run, all that is sent may be known by its
receiver, exactly if every event is taken without a live session, for an
administrator, or where the rule for its kind suffices. -/
theorem mayKnow_run_iff {start : Stream} (hs : start.Initial) (pw : Passwords)
    (steps : List StreamStep) :
    AllSteps pw TellsOnly start steps ↔ AllSteps pw (fun s a => s.clean a = true) start steps :=
  hs.tracked.allSteps_iff pw steps

/-- An administrator, two users who may read a cube, and one who may not. -/
def salesOffice : Stream where
  server :=
    { Server.office with
      content :=
        { Server.office.content with
          security :=
            { SecurityStore.empty with
              users := FinMap.collect
                [("root", ⟨true, "r", false, ∅⟩), ("ann", ⟨false, "a", false, ∅⟩),
                  ("bob", ⟨false, "b", false, ∅⟩), ("eve", ⟨false, "e", false, ∅⟩)]
              grants := FinMap.collect
                [(⟨.cube "Sales", .cube⟩,
                  (AccessList.empty.set (.user "ann") .write).set (.user "bob") .read)] } } }
  nextId := 2
  cubes := FinMap.collect [("Sales", ⟨∅, ∅, 1⟩)]
  subscribers := []
  writtenBy := ∅

/-- Two users connect, and one of them writes to a sandbox of hers. -/
def sandboxWritten : List StreamStep :=
  [.server (.login "ann" "a" "t1" 0 false), .server (.login "bob" "b" "t2" 0 false),
    .subscribe "t1" 1, .subscribe "t2" 1, .commit "Sales" (.create "plan" "ann") true,
    .commit "Sales" (.stage "plan") true]

theorem mayKnow_sandboxWritten :
    AllSteps plainPasswords TellsOnly salesOffice
      (sandboxWritten ++ [.deliver 0 2, .deliver 0 2, .deliver 1 2, .deliver 1 2]) :=
  (mayKnow_run_iff ⟨rfl, rfl⟩ _ _).2 (by decide +kernel)

/-- She discards it, and the other creates one of that name before he takes
the event of the write. -/
def recreated : List StreamStep :=
  sandboxWritten ++ [.commit "Sales" (.discard "plan") true,
    .commit "Sales" (.create "plan" "bob") true, .deliver 1 2, .deliver 1 2]

/-- A user who may not read the cube is connected when a dimension of it is
promoted. -/
def promoted : List StreamStep :=
  [.server (.login "eve" "e" "t3" 0 false), .subscribe "t3" 1, .promote "Sales", .deliver 0 2]

/-- The other user is told of the write to a sandbox that was not his, and
the third of a cube she cannot read. -/
theorem not_mayKnow_recreated_promoted :
    salesOffice.Initial ∧ ¬ AllSteps plainPasswords TellsOnly salesOffice recreated ∧
      ¬ AllSteps plainPasswords TellsOnly salesOffice promoted := by
  refine ⟨⟨rfl, rfl⟩, ?_, ?_⟩
  · rw [(show salesOffice.Initial from ⟨rfl, rfl⟩).tracked.allSteps_iff]
    decide +kernel
  · rw [(show salesOffice.Initial from ⟨rfl, rfl⟩).tracked.allSteps_iff]
    decide +kernel

end Stream

end Epiphany
