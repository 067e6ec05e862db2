import Epiphany.Common.Runs
import Epiphany.Engine.Registry
/-!
# The change feed — which versions are announced, and in what order

A commit on a cube mints a version, publishes it and announces it, all
while it holds the lock of the cube's writer. The creation of a cube mints
and publishes under another lock, and from then on writers of the new cube
can come before its announcement. While none of them does, the feed is
ordered and complete (`Feed.ordered_of_run`).
-/

namespace Epiphany

/-! ## State -/

/-- What is announced of a commit. -/
structure CommitEvent where
  cube : String
  version : Nat
  /-- The sandbox a private write went to. -/
  sandbox : Option String
deriving DecidableEq

/-- How far the holder of a writer lock has come. -/
inductive WriterStage where
  | idle
  /-- At work on the store. -/
  | working (sandbox : Option String)
  | minted (version : Nat) (sandbox : Option String)
  | published (version : Nat) (sandbox : Option String)
deriving DecidableEq

/-- The shared state of a cube: what readers see, and its writer. -/
structure CubeState where
  /-- The version readers see. -/
  published : Nat
  /-- The version the writer checks a base against. -/
  version : Nat
  failStopped : Bool
  stage : WriterStage

/-- How far the creation of a cube has come, under the topology lock. -/
inductive CreateStage where
  | idle
  | creating (name : String)
  | minted (name : String) (version : Nat)
  /-- The cube is registered, and not announced. -/
  | visible (name : String) (version : Nat)
deriving DecidableEq

/-- The part of the engine behind the feed. -/
structure Feed where
  nextId : Nat
  cubes : FinMap String CubeState
  /-- The folders that hold the snapshot of a cube. -/
  folders : List String
  topology : CreateStage
  /-- The events announced so far. -/
  events : List CommitEvent
  /-- The versions published so far, with their cubes. -/
  publications : List (String × Nat)

inductive FeedRefusal where
  | unknownCube
  /-- A lock is held, or the step is not the next one of its holder. -/
  | blocked
  | failStopped
  | conflict (expected actual : Nat)
  | alreadyExists (name : String)

/-! ## Steps -/

/-- One step of some client. A commit is every path that publishes a new
version of a cube that exists: cells, definitions, structural edits and
sandbox writes. -/
inductive FeedStep where
  /-- Take an id for something else than a version. -/
  | takeId
  /-- Take the lock of a writer and check the base version. -/
  | lockWriter (cube : String) (base : Option Nat) (sandbox : Option String)
  /-- The work on the store fails, or the version cannot be recorded. -/
  | failWriter (cube : String) (stopped : Bool)
  | mint (cube : String)
  | publish (cube : String)
  /-- Announce the version and release the lock. -/
  | notify (cube : String)
  /-- A full checkpoint heals a writer. -/
  | checkpoint (cube : String)
  | lockTopology (name : String)
  /-- The creation fails; the folder of the cube may be there. -/
  | failCreate (left : Bool)
  | mintCreate
  | insertCube
  | notifyCreate

namespace CubeState

/-- Take the lock, if the writer accepts the commit. -/
def lock (c : CubeState) (base : Option Nat) (sandbox : Option String) :
    Except FeedRefusal CubeState :=
  if c.stage ≠ .idle then .error .blocked
  else if c.failStopped then .error .failStopped
  else
    match base with
    | some base =>
      if base ≠ c.version then .error (.conflict base c.version)
      else .ok { c with stage := .working sandbox }
    | none => .ok { c with stage := .working sandbox }

/-- Give the commit up and release the lock. -/
def fail (c : CubeState) (stopped : Bool) : Except FeedRefusal CubeState :=
  match c.stage with
  | .working _ | .minted _ _ =>
    .ok { c with failStopped := c.failStopped || stopped, stage := .idle }
  | _ => .error .blocked

/-- Take a version for the commit. -/
def mint (c : CubeState) (id : Nat) : Except FeedRefusal CubeState :=
  match c.stage with
  | .working sandbox => .ok { c with stage := .minted id sandbox }
  | _ => .error .blocked

/-- Heal the writer. -/
def heal (c : CubeState) : Except FeedRefusal CubeState :=
  if c.stage ≠ .idle then .error .blocked else .ok { c with failStopped := false }

end CubeState

namespace Feed

variable (s : Feed)

def setCube (cube : String) (c : CubeState) : Feed := { s with cubes := s.cubes.insert cube c }

/-- Change the state of a cube that is there. -/
def onCube (cube : String) (f : CubeState → Except FeedRefusal CubeState) :
    Except FeedRefusal Feed := do
  let c ← okOr s.cubes[cube]? .unknownCube
  let c' ← f c
  .ok (s.setCube cube c')

/-- Publish the version of a commit. -/
def publish (cube : String) : Except FeedRefusal Feed := do
  let c ← okOr s.cubes[cube]? .unknownCube
  match c.stage with
  | .minted version sandbox =>
    .ok { s.setCube cube { c with
        published := version
        version := version
        stage := .published version sandbox } with
      publications := s.publications ++ [(cube, version)] }
  | _ => .error .blocked

/-- Announce a commit and release the lock. -/
def notify (cube : String) : Except FeedRefusal Feed := do
  let c ← okOr s.cubes[cube]? .unknownCube
  match c.stage with
  | .published version sandbox =>
    .ok { s.setCube cube { c with stage := .idle } with
      events := s.events ++ [⟨cube, version, sandbox⟩] }
  | _ => .error .blocked

/-- Start to create a cube whose folder is not taken. -/
def lockTopology (name : String) : Except FeedRefusal Feed :=
  match s.topology with
  | .idle =>
    match (s.cubes.toList.map Prod.fst).find? fun other => slug other = slug name with
    | some existing => .error (.alreadyExists existing)
    | none =>
      if slug name ∈ s.folders then .error (.alreadyExists (slug name))
      else .ok { s with topology := .creating name }
  | _ => .error .blocked

def failCreate (left : Bool) : Except FeedRefusal Feed :=
  match s.topology with
  | .creating name | .minted name _ =>
    .ok { s with
      folders := if left then slug name :: s.folders else s.folders
      topology := .idle }
  | _ => .error .blocked

/-- The store is written, and the version minted. -/
def mintCreate : Except FeedRefusal Feed :=
  match s.topology with
  | .creating name =>
    .ok { s with
      nextId := s.nextId + 1
      folders := slug name :: s.folders
      topology := .minted name s.nextId }
  | _ => .error .blocked

/-- Register the new cube: readers and writers find it. -/
def insertCube : Except FeedRefusal Feed :=
  match s.topology with
  | .minted name version =>
    .ok { s.setCube name ⟨version, version, false, .idle⟩ with
      topology := .visible name version
      publications := s.publications ++ [(name, version)] }
  | _ => .error .blocked

/-- Announce the new cube and release the topology lock. -/
def notifyCreate : Except FeedRefusal Feed :=
  match s.topology with
  | .visible name version =>
    .ok { s with
      topology := .idle
      events := s.events ++ [⟨name, version, none⟩] }
  | _ => .error .blocked

def step (s : Feed) : FeedStep → Except FeedRefusal Feed
  | .takeId => .ok { s with nextId := s.nextId + 1 }
  | .lockWriter cube base sandbox => s.onCube cube fun c => c.lock base sandbox
  | .failWriter cube stopped => s.onCube cube fun c => c.fail stopped
  | .mint cube =>
    (s.onCube cube fun c => c.mint s.nextId).map fun s' => { s' with nextId := s.nextId + 1 }
  | .publish cube => s.publish cube
  | .notify cube => s.notify cube
  | .checkpoint cube => s.onCube cube CubeState.heal
  | .lockTopology name => s.lockTopology name
  | .failCreate left => s.failCreate left
  | .mintCreate => s.mintCreate
  | .insertCube => s.insertCube
  | .notifyCreate => s.notifyCreate

/-- Some cubes with their versions, and nothing in progress. -/
structure Initial : Prop where
  idle : s.topology = .idle
  events : s.events = []
  publications : s.publications = []
  cubes : ∀ (cube : String) (c : CubeState), s.cubes[cube]? = some c →
    c.published < s.nextId ∧ c.stage = .idle

/-! ## The order of the feed -/

/-- The versions announced of a cube, in order. -/
def eventVersions (cube : String) : List Nat :=
  (s.events.filter fun e => e.cube = cube).map CommitEvent.version

/-- The versions published of a cube, in order. -/
def publishedVersions (cube : String) : List Nat :=
  (s.publications.filter fun p => p.1 = cube).map Prod.snd

end Feed

/-- The version a lock holder has published and not announced. -/
def WriterStage.unannounced : WriterStage → List Nat
  | .published version _ => [version]
  | _ => []

/-- The version a lock holder has minted and not published. -/
def WriterStage.unpublished : WriterStage → List Nat
  | .minted version _ => [version]
  | _ => []

/-- The version of a new cube that is not announced. -/
def CreateStage.unannounced (stage : CreateStage) (cube : String) : List Nat :=
  match stage with
  | .visible name version => if name = cube then [version] else []
  | _ => []

namespace Feed

/-- What a lock holder has published of a cube and is about to announce. -/
def pending (s : Feed) (cube : String) : List Nat :=
  s.topology.unannounced cube ++
    match s.cubes[cube]? with
    | some c => c.stage.unannounced
    | none => []

/-- The feed is ordered and complete: the versions announced of a cube grow;
those published are announced once each, or a lock holder is about to; and
what is announced can be read. -/
structure Ordered (s : Feed) : Prop where
  increasing : ∀ cube, (s.eventVersions cube).Pairwise (· < ·)
  complete : ∀ cube, s.publishedVersions cube = s.eventVersions cube ++ s.pending cube
  readable : ∀ e ∈ s.events, ∃ c, s.cubes[e.cube]? = some c ∧ e.version ≤ c.published

/-- A commit is not announced while the creation of its cube still is to
be. -/
def CreatedFirst (s : Feed) : FeedStep → Prop
  | .notify cube => s.topology.unannounced cube = []
  | _ => True

instance (s : Feed) (a : FeedStep) : Decidable (s.CreatedFirst a) := by
  unfold CreatedFirst
  split
  · infer_instance
  · infer_instance

/-! ## What every step keeps -/

/-- The feed with what is known of its locks: a version is fresh when it is
minted, and a cube is not there before it is registered. -/
structure Consistent (s : Feed) : Prop where
  complete : ∀ cube, s.publishedVersions cube = s.eventVersions cube ++ s.pending cube
  growing : ∀ cube, (s.publishedVersions cube).Pairwise (· < ·)
  readable : ∀ cube, ∀ v ∈ s.publishedVersions cube,
    ∃ c, s.cubes[cube]? = some c ∧ v ≤ c.published
  fresh : ∀ (cube : String) (c : CubeState), s.cubes[cube]? = some c → c.published < s.nextId ∧
    ∀ v ∈ c.stage.unpublished, c.published < v ∧ v < s.nextId
  absent : ∀ name, s.topology = .creating name → s.cubes[name]? = none
  minted : ∀ name v, s.topology = .minted name v → s.cubes[name]? = none ∧ v < s.nextId

variable {s s' : Feed} {cube name : String} {c c' : CubeState}

theorem Initial.consistent (h : s.Initial) : s.Consistent := by
  have hpub : ∀ cube, s.publishedVersions cube = [] := by
    intro cube
    rw [publishedVersions, h.publications]
    rfl
  refine ⟨fun cube => ?_, fun cube => ?_, fun cube v hv => ?_, fun cube c hc => ?_,
    fun name hname => ?_, fun name v hname => ?_⟩
  · have hpending : s.pending cube = [] := by
      unfold pending
      rw [h.idle]
      rcases hc : s.cubes[cube]? with _ | c
      · rfl
      · show [] ++ c.stage.unannounced = []
        rw [(h.cubes cube c hc).2]
        rfl
    rw [hpub, hpending, eventVersions, h.events]
    rfl
  · rw [hpub]
    exact List.Pairwise.nil
  · rw [hpub] at hv
    cases hv
  · obtain ⟨hlt, hidle⟩ := h.cubes cube c hc
    refine ⟨hlt, fun v hv => ?_⟩
    rw [hidle] at hv
    cases hv
  · rw [h.idle] at hname
    cases hname
  · rw [h.idle] at hname
    cases hname

theorem Consistent.ordered (h : s.Consistent) : s.Ordered := by
  have hsub : ∀ cube, (s.eventVersions cube).Sublist (s.publishedVersions cube) := by
    intro cube
    rw [h.complete]
    exact List.sublist_append_left _ _
  refine ⟨fun cube => (h.growing cube).sublist (hsub cube), h.complete, fun e he => ?_⟩
  refine h.readable e.cube e.version ((hsub e.cube).subset ?_)
  exact List.mem_map_of_mem (List.mem_filter.2 ⟨he, decide_eq_true rfl⟩)

theorem pending_setCube (k : String) : (s.setCube cube c).pending k =
    if cube = k then s.topology.unannounced k ++ c.stage.unannounced else s.pending k := by
  unfold pending setCube
  rw [FinMap.get_insert]
  by_cases hk : cube = k
  · rw [if_pos hk, if_pos hk]
  · rw [if_neg hk, if_neg hk]

theorem pending_of_cube (hc : s.cubes[cube]? = some c) :
    s.pending cube = s.topology.unannounced cube ++ c.stage.unannounced := by
  unfold pending
  rw [hc]

/-- A step of a lock holder that publishes nothing. -/
theorem Consistent.holder (h : s.Consistent) (c' : CubeState) {n : Nat}
    {events : List CommitEvent}
    (hn : s.nextId ≤ n) (hc : s.cubes[cube]? = some c) (hpub : c'.published = c.published)
    (hfresh : ∀ v ∈ c'.stage.unpublished, c.published < v ∧ v < n)
    (hcomplete : ∀ k, s.publishedVersions k =
      ({ s with events := events } : Feed).eventVersions k ++ (s.setCube cube c').pending k) :
    ({ s.setCube cube c' with nextId := n, events := events } : Feed).Consistent := by
  have hother : ∀ k, s.cubes[k]? = none → cube ≠ k := by
    rintro k hk rfl
    cases hk.symm.trans hc
  refine ⟨hcomplete, h.growing, fun k v hv => ?_, fun k d hd => ?_, fun name hname => ?_,
    fun name v hname => ?_⟩
  · obtain ⟨d, hd, hle⟩ := h.readable k v hv
    by_cases hk : cube = k
    · subst hk
      obtain rfl := Option.some.inj (hc.symm.trans hd)
      exact ⟨c', FinMap.get_insert_self _ _ _, hpub.symm ▸ hle⟩
    · exact ⟨d, by rw [Feed.setCube, FinMap.get_insert_of_ne hk, hd], hle⟩
  · have hget : (s.cubes.insert cube c')[k]? = some d := hd
    rw [FinMap.get_insert] at hget
    split at hget
    · obtain rfl := Option.some.inj hget
      rw [hpub]
      exact ⟨((h.fresh cube c hc).1).trans_le hn, hfresh⟩
    · obtain ⟨hlt, hmint⟩ := h.fresh k d hget
      exact ⟨hlt.trans_le hn, fun v hv => ⟨(hmint v hv).1, (hmint v hv).2.trans_le hn⟩⟩
  · have hnone := h.absent name hname
    show (s.cubes.insert cube c')[name]? = none
    rw [FinMap.get_insert_of_ne (hother name hnone), hnone]
  · obtain ⟨hnone, hlt⟩ := h.minted name v hname
    refine ⟨?_, hlt.trans_le hn⟩
    show (s.cubes.insert cube c')[name]? = none
    rw [FinMap.get_insert_of_ne (hother name hnone), hnone]

/-- A step of a lock holder that publishes and announces nothing. -/
theorem Consistent.setCube (h : s.Consistent) {n : Nat} (hn : s.nextId ≤ n)
    (hc : s.cubes[cube]? = some c) (hpub : c'.published = c.published)
    (hun : c'.stage.unannounced = c.stage.unannounced)
    (hfresh : ∀ v ∈ c'.stage.unpublished, c.published < v ∧ v < n) :
    ({ s.setCube cube c' with nextId := n } : Feed).Consistent := by
  refine h.holder c' hn hc hpub hfresh fun k => ?_
  have hpending : (s.setCube cube c').pending k = s.pending k := by
    rw [pending_setCube]
    split
    · rename_i hk
      subst hk
      rw [hun, pending_of_cube hc]
    · rfl
  rw [hpending]
  exact h.complete k

theorem publishedVersions_concat (s : Feed) (p : String × Nat) (k : String) :
    ({ s with publications := s.publications ++ [p] } : Feed).publishedVersions k =
      s.publishedVersions k ++ if p.1 = k then [p.2] else [] := by
  by_cases hk : p.1 = k
  · simp [publishedVersions, hk]
  · simp [publishedVersions, hk]

theorem eventVersions_concat (s : Feed) (e : CommitEvent) (k : String) :
    ({ s with events := s.events ++ [e] } : Feed).eventVersions k =
      s.eventVersions k ++ if e.cube = k then [e.version] else [] := by
  by_cases hk : e.cube = k
  · simp [eventVersions, hk]
  · simp [eventVersions, hk]

theorem onCube_ok {f : CubeState → Except FeedRefusal CubeState} (h : s.onCube cube f = .ok s') :
    ∃ c c', s.cubes[cube]? = some c ∧ f c = .ok c' ∧ s' = s.setCube cube c' := by
  unfold onCube at h
  obtain ⟨c, hc, h⟩ := bind_eq_ok.1 h
  obtain ⟨c', hc', h⟩ := bind_eq_ok.1 h
  exact ⟨c, c', okOr_eq_ok.1 hc, hc', (Except.ok.inj h).symm⟩

/-- The feed after a version is published, by a writer or by the creator of
the cube. -/
def withVersion (s : Feed) (cube : String) (c : CubeState) (stage : CreateStage) : Feed :=
  { s.setCube cube c with
    topology := stage
    publications := s.publications ++ [(cube, c.published)] }

/-- A version above all others of its cube is published, and waits to be
announced after them. -/
theorem Consistent.withVersion (h : s.Consistent) (cube : String) (c : CubeState)
    (stage : CreateStage)
    (hbelow : ∀ w ∈ s.publishedVersions cube, w < c.published) (hlt : c.published < s.nextId)
    (hun : c.stage.unpublished = [])
    (hpending : ∀ k, (s.withVersion cube c stage).pending k =
      s.pending k ++ if cube = k then [c.published] else [])
    (habsent : ∀ name, stage = .creating name → s.cubes[name]? = none ∧ cube ≠ name)
    (hminted : ∀ name v, stage = .minted name v →
      s.cubes[name]? = none ∧ cube ≠ name ∧ v < s.nextId) :
    (s.withVersion cube c stage).Consistent := by
  -- one more version of one cube is published and awaits its announcement
  have hpublished : ∀ k, (s.withVersion cube c stage).publishedVersions k =
      s.publishedVersions k ++ if cube = k then [c.published] else [] :=
    fun k => publishedVersions_concat s (cube, c.published) k
  have hcubes : (s.withVersion cube c stage).cubes = s.cubes.insert cube c := rfl
  refine ⟨fun k => ?_, fun k => ?_, fun k w hw => ?_, fun k d hd => ?_, fun name hname => ?_,
    fun name w hname => ?_⟩
  · rw [hpublished, h.complete, List.append_assoc, ← hpending]
    rfl
  · rw [hpublished]
    split
    · rename_i hk
      subst hk
      refine List.pairwise_append.2 ⟨h.growing cube, List.pairwise_singleton _ _, ?_⟩
      intro w hw u hu
      rw [List.mem_singleton.1 hu]
      exact hbelow w hw
    · rw [List.append_nil]
      exact h.growing k
  · rw [hpublished] at hw
    rw [hcubes]
    by_cases hk : cube = k
    · subst hk
      refine ⟨c, FinMap.get_insert_self _ _ _, ?_⟩
      rw [if_pos rfl, List.mem_append, List.mem_singleton] at hw
      rcases hw with hw | rfl
      · exact (hbelow w hw).le
      · exact le_rfl
    · rw [if_neg hk, List.append_nil] at hw
      obtain ⟨d, hd, hle⟩ := h.readable k w hw
      exact ⟨d, by rw [FinMap.get_insert_of_ne hk, hd], hle⟩
  · rw [hcubes, FinMap.get_insert] at hd
    split at hd
    · obtain rfl := Option.some.inj hd
      refine ⟨hlt, fun w hw => ?_⟩
      rw [hun] at hw
      cases hw
    · exact h.fresh k d hd
  · obtain ⟨hnone, hne⟩ := habsent name hname
    rw [hcubes, FinMap.get_insert_of_ne hne, hnone]
  · obtain ⟨hnone, hne, hw⟩ := hminted name w hname
    exact ⟨by rw [hcubes, FinMap.get_insert_of_ne hne, hnone], hw⟩

/-- The version of a commit is published. -/
theorem Consistent.publish (h : s.Consistent) (hstep : s.publish cube = .ok s') :
    s'.Consistent := by
  unfold Feed.publish at hstep
  obtain ⟨c, hc, hstep⟩ := bind_eq_ok.1 hstep
  rw [okOr_eq_ok] at hc
  split at hstep
  · rename_i v sandbox hstage
    obtain rfl := Except.ok.inj hstep
    have hv := (h.fresh cube c hc).2 v (by rw [hstage]; exact List.mem_singleton_self v)
    have hother : ∀ k, s.cubes[k]? = none → cube ≠ k := by
      rintro k hk rfl
      cases hk.symm.trans hc
    refine h.withVersion cube
      { c with published := v, version := v, stage := .published v sandbox } s.topology ?_ hv.2 rfl
      ?_ ?_ ?_
    · intro w hw
      obtain ⟨d, hd, hle⟩ := h.readable cube w hw
      obtain rfl := Option.some.inj (hc.symm.trans hd)
      exact hle.trans_lt hv.1
    · intro k
      refine (pending_setCube k).trans ?_
      by_cases hk : cube = k
      · subst hk
        rw [if_pos rfl, if_pos rfl, pending_of_cube hc, hstage]
        simp [WriterStage.unannounced]
      · rw [if_neg hk, if_neg hk, List.append_nil]
    · intro name hname
      exact ⟨h.absent name hname, hother name (h.absent name hname)⟩
    · intro name w hname
      obtain ⟨hnone, hw⟩ := h.minted name w hname
      exact ⟨hnone, hother name hnone, hw⟩
  · cases hstep

/-- A new cube is registered. -/
theorem Consistent.insertCube (h : s.Consistent) (hstep : s.insertCube = .ok s') :
    s'.Consistent := by
  unfold Feed.insertCube at hstep
  split at hstep
  · rename_i name v htop
    obtain rfl := Except.ok.inj hstep
    obtain ⟨hnone, hv⟩ := h.minted name v htop
    refine h.withVersion name ⟨v, v, false, .idle⟩ (.visible name v) ?_ hv rfl ?_ ?_ ?_
    · intro w hw
      obtain ⟨d, hd, -⟩ := h.readable name w hw
      cases hnone.symm.trans hd
    · intro k
      have hempty : s.topology.unannounced k = [] := by
        rw [htop]
        rfl
      unfold pending Feed.withVersion Feed.setCube
      rw [hempty]
      show CreateStage.unannounced (.visible name v) k ++
          (match (s.cubes.insert name ⟨v, v, false, .idle⟩)[k]? with
            | some c => c.stage.unannounced
            | none => []) = _
      by_cases hk : name = k
      · subst hk
        rw [FinMap.get_insert_self, hnone]
        simp [CreateStage.unannounced, WriterStage.unannounced]
      · rw [FinMap.get_insert_of_ne hk, if_neg hk, List.append_nil]
        simp only [CreateStage.unannounced, if_neg hk]
    · intro k hk
      cases hk
    · intro k w hk
      cases hk
  · cases hstep

/-- A commit is announced; the creation of its cube has been. -/
theorem Consistent.notify (h : s.Consistent) (hcreated : s.topology.unannounced cube = [])
    (hstep : s.notify cube = .ok s') : s'.Consistent := by
  unfold Feed.notify at hstep
  obtain ⟨c, hc, hstep⟩ := bind_eq_ok.1 hstep
  rw [okOr_eq_ok] at hc
  split at hstep
  · rename_i v sandbox hstage
    obtain rfl := Except.ok.inj hstep
    refine h.holder { c with stage := .idle } le_rfl hc rfl (fun v hv => by cases hv) ?_
    intro k
    rw [h.complete, eventVersions_concat, pending_setCube]
    by_cases hk : cube = k
    · subst hk
      rw [pending_of_cube hc, hstage, hcreated]
      simp [WriterStage.unannounced]
    · rw [if_neg hk, if_neg hk, List.append_nil]
  · cases hstep

/-- A new cube is announced. -/
theorem Consistent.notifyCreate (h : s.Consistent) (hstep : s.notifyCreate = .ok s') :
    s'.Consistent := by
  unfold Feed.notifyCreate at hstep
  split at hstep
  · rename_i name v htop
    obtain rfl := Except.ok.inj hstep
    refine ⟨fun k => ?_, h.growing, h.readable, h.fresh, (fun k hk => by cases hk),
      (fun k w hk => by cases hk)⟩
    have hcomplete := h.complete k
    have hevents : Feed.eventVersions { s with
          topology := .idle, events := s.events ++ [⟨name, v, none⟩] } k =
        s.eventVersions k ++ if name = k then [v] else [] :=
      eventVersions_concat s ⟨name, v, none⟩ k
    rw [hevents]
    unfold pending at hcomplete ⊢
    rw [htop] at hcomplete
    simp only [CreateStage.unannounced] at hcomplete ⊢
    rw [List.append_assoc, List.nil_append]
    exact hcomplete
  · cases hstep

/-- A step of a creation before the cube is registered. -/
theorem Consistent.creating (h : s.Consistent) {stage : CreateStage} (folders : List String)
    {n : Nat} (hn : s.nextId ≤ n) (htop : ∀ k, s.topology.unannounced k = [])
    (hstage : ∀ k, stage.unannounced k = [])
    (habsent : ∀ name, stage = .creating name → s.cubes[name]? = none)
    (hminted : ∀ name v, stage = .minted name v → s.cubes[name]? = none ∧ v < n) :
    ({ s with nextId := n, folders := folders, topology := stage } : Feed).Consistent := by
  refine ⟨fun k => ?_, h.growing, h.readable, fun k c hc => ?_, habsent, hminted⟩
  · have hcomplete := h.complete k
    unfold pending at hcomplete ⊢
    rw [htop] at hcomplete
    rw [hstage]
    exact hcomplete
  · obtain ⟨hlt, hmint⟩ := h.fresh k c hc
    exact ⟨hlt.trans_le hn, fun v hv => ⟨(hmint v hv).1, (hmint v hv).2.trans_le hn⟩⟩

theorem Consistent.lockTopology (h : s.Consistent) (hstep : s.lockTopology name = .ok s') :
    s'.Consistent := by
  unfold Feed.lockTopology at hstep
  split at hstep
  · rename_i htop
    split at hstep
    · cases hstep
    · rename_i hfree
      split at hstep
      · cases hstep
      · obtain rfl := Except.ok.inj hstep
        refine h.creating s.folders le_rfl (fun k => by rw [htop]; rfl)
          (fun k => rfl) (fun k hk => ?_) (fun k v hk => by cases hk)
        cases hk
        -- a cube of the name would be one whose folder is taken
        rcases hc : s.cubes[name]? with _ | c
        · rfl
        · have hmem := List.mem_map_of_mem (f := Prod.fst) (FinMap.mem_toList.2 hc)
          have hne := List.find?_eq_none.1 hfree name hmem
          simp at hne
  · cases hstep

theorem Consistent.failCreate (h : s.Consistent) {left : Bool}
    (hstep : s.failCreate left = .ok s') : s'.Consistent := by
  unfold Feed.failCreate at hstep
  split at hstep
  · rename_i htop
    obtain rfl := Except.ok.inj hstep
    exact h.creating _ (n := s.nextId) le_rfl (fun k => by rw [htop]; rfl) (fun k => rfl)
      (fun k hk => by cases hk) (fun k v hk => by cases hk)
  · rename_i htop
    obtain rfl := Except.ok.inj hstep
    exact h.creating _ (n := s.nextId) le_rfl (fun k => by rw [htop]; rfl) (fun k => rfl)
      (fun k hk => by cases hk) (fun k v hk => by cases hk)
  · cases hstep

theorem Consistent.mintCreate (h : s.Consistent) (hstep : s.mintCreate = .ok s') :
    s'.Consistent := by
  unfold Feed.mintCreate at hstep
  split at hstep
  · rename_i name htop
    obtain rfl := Except.ok.inj hstep
    refine h.creating _ (Nat.le_succ _) (fun k => by rw [htop]; rfl) (fun k => rfl)
      (fun k hk => by cases hk) (fun k v hk => ?_)
    cases hk
    exact ⟨h.absent name htop, Nat.lt_succ_self _⟩
  · cases hstep

/-- What a writer does under its lock before it publishes. -/
theorem Consistent.onCube {f : CubeState → Except FeedRefusal CubeState} (h : s.Consistent)
    (hf : ∀ c c', f c = .ok c' → c'.published = c.published ∧
      c'.stage.unannounced = c.stage.unannounced ∧
      (c'.stage.unpublished = [] ∨ c'.stage.unpublished = c.stage.unpublished))
    (hstep : s.onCube cube f = .ok s') : s'.Consistent := by
  obtain ⟨c, c', hc, hc', rfl⟩ := onCube_ok hstep
  obtain ⟨hpub, hun, hminted⟩ := hf c c' hc'
  refine h.setCube le_rfl hc hpub hun fun v hv => ?_
  rcases hminted with heq | heq
  · rw [heq] at hv
    cases hv
  · rw [heq] at hv
    exact (h.fresh cube c hc).2 v hv

/-- **Step.** -/
theorem Consistent.step (h : s.Consistent) {a : FeedStep} (hcond : s.CreatedFirst a)
    (hstep : s.step a = .ok s') : s'.Consistent := by
  -- a step of one cube that mints and announces nothing goes through `onCube`
  cases a with
  | takeId =>
    obtain rfl := Except.ok.inj hstep
    refine ⟨h.complete, h.growing, h.readable, fun k c hc => ?_, h.absent, fun k v hk => ?_⟩
    · obtain ⟨hlt, hmint⟩ := h.fresh k c hc
      exact ⟨hlt.trans (Nat.lt_succ_self _),
        fun v hv => ⟨(hmint v hv).1, (hmint v hv).2.trans (Nat.lt_succ_self _)⟩⟩
    · exact ⟨(h.minted k v hk).1, (h.minted k v hk).2.trans (Nat.lt_succ_self _)⟩
  | lockWriter cube base sandbox =>
    refine h.onCube (fun c c' hlock => ?_) hstep
    simp only [CubeState.lock] at hlock
    split at hlock
    · cases hlock
    · rename_i hidle
      rw [not_not] at hidle
      rw [hidle]
      split at hlock
      · cases hlock
      · split at hlock
        · split at hlock
          · cases hlock
          · obtain rfl := Except.ok.inj hlock
            exact ⟨rfl, rfl, Or.inl rfl⟩
        · obtain rfl := Except.ok.inj hlock
          exact ⟨rfl, rfl, Or.inl rfl⟩
  | failWriter cube stopped =>
    refine h.onCube (fun c c' hfail => ?_) hstep
    simp only [CubeState.fail] at hfail
    split at hfail
    · rename_i hstage
      obtain rfl := Except.ok.inj hfail
      rw [hstage]
      exact ⟨rfl, rfl, Or.inl rfl⟩
    · rename_i hstage
      obtain rfl := Except.ok.inj hfail
      rw [hstage]
      exact ⟨rfl, rfl, Or.inl rfl⟩
    · cases hfail
  | mint cube =>
    obtain ⟨next, hnext, rfl⟩ := map_eq_ok.1 hstep
    obtain ⟨c, c', hc, hmint, rfl⟩ := onCube_ok hnext
    simp only [CubeState.mint] at hmint
    split at hmint
    · rename_i hstage
      obtain rfl := Except.ok.inj hmint
      refine h.setCube (Nat.le_succ _) hc rfl (by rw [hstage]; rfl) fun v hv => ?_
      obtain rfl := List.mem_singleton.1 hv
      exact ⟨(h.fresh cube c hc).1, Nat.lt_succ_self _⟩
    · cases hmint
  | publish cube => exact h.publish hstep
  | notify cube => exact h.notify hcond hstep
  | checkpoint cube =>
    refine h.onCube (fun c c' hheal => ?_) hstep
    simp only [CubeState.heal] at hheal
    split at hheal
    · cases hheal
    · obtain rfl := Except.ok.inj hheal
      exact ⟨rfl, rfl, Or.inr rfl⟩
  | lockTopology name => exact h.lockTopology hstep
  | failCreate left => exact h.failCreate hstep
  | mintCreate => exact h.mintCreate hstep
  | insertCube => exact h.insertCube hstep
  | notifyCreate => exact h.notifyCreate hstep

/-- **The feed is ordered and complete** in every state of a run in which no
commit is announced before the creation of its cube. -/
theorem ordered_of_run {start : Feed} {steps pre : List FeedStep} (hs : start.Initial)
    (h : Meets step CreatedFirst start steps) (hpre : pre <+: steps) :
    (runCalls step start pre).Ordered :=
  (run_invariant (fun _ _ _ hI hcond hstep => Consistent.step hI hcond hstep) hs.consistent
    (h.of_prefix hpre)).ordered

/-- A server without cubes. -/
def noCubes : Feed := ⟨1, ∅, [], .idle, [], []⟩

/-- A cube is created, and then written in a sandbox; an id is taken in
between. -/
def creationThenWrite : List FeedStep :=
  [.lockTopology "Sales", .mintCreate, .insertCube, .notifyCreate, .takeId,
    .lockWriter "Sales" (some 1) (some "plan"), .mint "Sales", .publish "Sales", .notify "Sales"]

theorem ordered_of_creationThenWrite : (runCalls step noCubes creationThenWrite).Ordered :=
  ordered_of_run ⟨rfl, rfl, rfl, fun _ _ h => by cases h⟩
    (show Meets step CreatedFirst noCubes creationThenWrite by decide +kernel)
    (List.prefix_refl _)

/-- A client finds the new cube and commits to it before the creation is
announced. -/
def writeBeforeAnnouncement : List FeedStep :=
  [.lockTopology "Sales", .mintCreate, .insertCube, .lockWriter "Sales" none none, .mint "Sales",
    .publish "Sales", .notify "Sales", .notifyCreate]

/-- The creation, version 1, is announced after version 2. -/
theorem not_ordered_of_writeBeforeAnnouncement :
    noCubes.Initial ∧ ¬ (runCalls step noCubes writeBeforeAnnouncement).Ordered := by
  refine ⟨⟨rfl, rfl, rfl, fun _ _ h => by cases h⟩, fun h => ?_⟩
  have hincreasing := h.increasing "Sales"
  revert hincreasing
  decide +kernel

end Feed

end Epiphany
