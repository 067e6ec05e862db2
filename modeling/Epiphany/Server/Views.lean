import Epiphany.Core.CubeRuns
import Epiphany.Server.ViewCache
/-!
# Views — execution through the cache

A view is read in one request: the gate, the snapshot, the view, the sandbox
and the mask of the caller make up the read; its answer comes from the cache
or from an execution, which looks subsets up as the caller sees them.
-/

namespace Epiphany

namespace Query

variable {cube : Cube} {cells : CellResolver} {lookup lookup' : String → String → Option Subset}
  {eval : SetEvaluator} {mask : Option ElementMask} {par : Parallelism}

/-! ## What an execution takes from a view and from the subsets -/

theorem executeViewWith_shape {v v' : View} (h : v.shape = v'.shape) :
    executeViewWith cube v cells lookup eval mask par =
      executeViewWith cube v' cells lookup eval mask par := by
  obtain ⟨n, c, o, vis, rows, columns, context, zr, zc⟩ := v
  obtain ⟨n', c', o', vis', rows', columns', context', zr', zc'⟩ := v'
  unfold View.shape at h
  cases h
  rfl

theorem resolveAxis_lookup {axis : List AxisSpec}
    (h : ∀ dim name, AxisSpec.subset dim name ∈ axis → lookup dim name = lookup' dim name) :
    resolveAxis cube lookup eval axis = resolveAxis cube lookup' eval axis := by
  have hspec : ∀ spec ∈ axis,
      resolveSpec cube lookup eval spec = resolveSpec cube lookup' eval spec := by
    intro spec hmem
    cases spec with
    | subset dim name => rw [resolveSpec, resolveSpec, h dim name hmem]
    | members dim members => rfl
  rw [resolveAxis, resolveAxis, mapM_congr hspec]

/-- An execution looks up the subsets that the axes name, and no others. -/
theorem executeViewWith_lookup {v : View}
    (h : ∀ dim name, AxisSpec.subset dim name ∈ v.rows ++ v.columns →
      lookup dim name = lookup' dim name) :
    executeViewWith cube v cells lookup eval mask par =
      executeViewWith cube v cells lookup' eval mask par := by
  have hrows : resolveAxis cube lookup eval v.rows = resolveAxis cube lookup' eval v.rows :=
    resolveAxis_lookup fun dim name hmem => h dim name (List.mem_append_left _ hmem)
  have hcolumns : resolveAxis cube lookup eval v.columns =
      resolveAxis cube lookup' eval v.columns :=
    resolveAxis_lookup fun dim name hmem => h dim name (List.mem_append_right _ hmem)
  rw [executeViewWith, executeViewWith, hrows, hcolumns]

theorem isSome_of_resolveAxis {axis : List AxisSpec} {r : List String × List (List Nat)}
    (h : resolveAxis cube lookup eval axis = .ok r) {dim name : String}
    (hmem : AxisSpec.subset dim name ∈ axis) : (lookup dim name).isSome := by
  unfold resolveAxis at h
  obtain ⟨perSpec, hspecs, -⟩ := bind_eq_ok.1 h
  obtain ⟨indices, hindices⟩ := exists_of_mapM hspecs hmem
  unfold resolveSpec at hindices
  obtain ⟨s, hs, -⟩ := bind_eq_ok.1 hindices
  rw [okOr_eq_ok.1 hs]
  rfl

/-- An execution that succeeds has found every subset its axes name. -/
theorem isSome_of_executeViewWith {v : View} {c : Cellset}
    (h : executeViewWith cube v cells lookup eval mask par = .ok c) {dim name : String}
    (hmem : AxisSpec.subset dim name ∈ v.rows ++ v.columns) : (lookup dim name).isSome := by
  unfold executeViewWith at h
  obtain ⟨-, -, h⟩ := bind_eq_ok.1 h
  obtain ⟨rows, hrows, h⟩ := bind_eq_ok.1 h
  obtain ⟨columns, hcolumns, -⟩ := bind_eq_ok.1 h
  rcases List.mem_append.1 hmem with hmem | hmem
  · exact isSome_of_resolveAxis hrows hmem
  · exact isSome_of_resolveAxis hcolumns hmem

end Query

/-! ## Requests -/

/-- What reading views takes from the rest of the server: the published
cubes, the source of cell values under a sandbox and a mask, the evaluator
of sets, and the versions of the cubes a cube's rules read. -/
structure ViewEnv where
  snapshots : FinMap String ReadSnapshot
  resolverWith : ReadSnapshot → Option Sandbox → Option ElementMask → CellResolver
  evaluator : SetEvaluator
  par : Parallelism
  crossCubeDepVersions : ReadSnapshot → List (String × Nat)

/-- A saved view by name, or a view given with the request. -/
inductive ViewRequest where
  | saved (cube name : String) (selector : Option String)
  | adhoc (cube : String) (view : View) (selector : Option String)

/-- A request, its caller's principal, and the security store it meets. -/
structure ViewStep where
  security : SecurityStore
  auth : Principal
  request : ViewRequest

namespace ViewEnv

variable (env : ViewEnv)

def snapshot (cube : String) : Except ApiError ReadSnapshot :=
  okOr env.snapshots[cube]? (.notFound ("unknown cube '" ++ cube ++ "'"))

/-- The read of a view of a snapshot. -/
def viewRead (step : ViewStep) (cube : String) (snap : ReadSnapshot) (view : View)
    (sandbox : Option Sandbox) (isAdhoc : Bool) : ViewRead where
  cube
  version := snap.version
  depVersions := env.crossCubeDepVersions snap
  view
  sandbox
  mask := step.security.elementMaskFor step.auth.username snap.cube
  isAdhoc

/-- The checks of a request, up to its read. -/
def readOf (step : ViewStep) : Except ApiError (ReadSnapshot × ViewRead) :=
  match step.request with
  | .saved cube name selector => do
    step.security.requireCubeAccess step.auth.username cube .read
    let snap ← env.snapshot cube
    let view ← snap.visibleView step.auth name
    let sandbox ← snap.resolveSandbox step.auth selector
    .ok (snap, env.viewRead step cube snap view sandbox false)
  | .adhoc cube view selector => do
    step.security.requireCubeAccess step.auth.username cube .read
    let snap ← env.snapshot cube
    let sandbox ← snap.resolveSandbox step.auth selector
    .ok (snap, env.viewRead step cube snap view sandbox true)

/-- The execution of a read. -/
def execute (auth : Principal) (snap : ReadSnapshot) (read : ViewRead) : Except ApiError Cellset :=
  (Query.executeViewWith snap.cube read.view (env.resolverWith snap read.sandbox read.mask)
    (snap.visibleSubsetLookup auth) env.evaluator read.mask env.par).mapError ApiError.ofQuery

/-- The answer to a request, and the cache after it. -/
def serve (step : ViewStep) (cache : ViewCache) : Except ApiError Cellset × ViewCache :=
  match env.readOf step with
  | .error e => (.error e, cache)
  | .ok (snap, read) => cache.getOrCompute read (env.execute step.auth snap read)

/-- The cache after a run of requests. -/
def serveAll (steps : List ViewStep) (cache : ViewCache) : ViewCache :=
  steps.foldl (fun cache step => (env.serve step cache).2) cache

/-! ## Answers of others -/

/-- A principal may see every subset that a view's axes name. -/
def SeesNamed (auth : Principal) (snap : ReadSnapshot) (view : View) : Prop :=
  ∀ dim name s, AxisSpec.subset dim name ∈ view.rows ++ view.columns →
    snap.subset dim name = some s → canRead auth s.owner s.visibility = true

/-- If an answer is kept for a request, its caller may see every subset that
the view's axes name. -/
def Cleared (step : ViewStep) (cache : ViewCache) : Prop :=
  ∀ snap read, env.readOf step = .ok (snap, read) → cache.kept read ≠ none →
    SeesNamed step.auth snap read.view

/-- A cellset is the answer to every read of its key whose caller may see
the subsets that the view names. -/
def Right (key : ViewCacheKey) (c : Cellset) : Prop :=
  ∀ step snap read, env.readOf step = .ok (snap, read) → buildKey read = key →
    SeesNamed step.auth snap read.view → env.execute step.auth snap read = .ok c

variable {env} {step step' : ViewStep} {snap snap' : ReadSnapshot} {read read' : ViewRead}

/-- What the checks of a request establish of its read. -/
structure IsReadOf (env : ViewEnv) (step : ViewStep) (snap : ReadSnapshot) (read : ViewRead) :
    Prop where
  known : ∃ p, step.security.principal step.auth.username = some p
  published : env.snapshots[read.cube]? = some snap
  mask : read.mask = step.security.elementMaskFor step.auth.username snap.cube
  sandbox : ∀ sb, read.sandbox = some sb → ∃ name, snap.model.sandbox name = some sb

theorem sandbox_of_resolveSandbox {p : Principal} {selector : Option String}
    {sandbox : Option Sandbox} (h : snap.resolveSandbox p selector = .ok sandbox) (sb : Sandbox)
    (hsb : sandbox = some sb) : ∃ name, snap.model.sandbox name = some sb := by
  subst hsb
  unfold ReadSnapshot.resolveSandbox at h
  rcases selector with _ | name
  · cases h
  · unfold ReadSnapshot.authorizeSandbox at h
    refine ⟨name, ?_⟩
    rcases hname : snap.model.sandbox name with _ | sb'
    · simp [hname, okOr, bind, Except.bind, Except.map] at h
    · simp only [hname, okOr, bind, Except.bind] at h
      split_ifs at h
      · cases h
      · cases h
        rfl

theorem isReadOf (h : env.readOf step = .ok (snap, read)) : IsReadOf env step snap read := by
  unfold readOf at h
  split at h
  · obtain ⟨u, hgate, h⟩ := bind_eq_ok.1 h
    obtain ⟨snap', hsnap, h⟩ := bind_eq_ok.1 h
    obtain ⟨view, -, h⟩ := bind_eq_ok.1 h
    obtain ⟨sandbox, hsandbox, h⟩ := bind_eq_ok.1 h
    cases h
    exact ⟨SecurityStore.principal_of_requireCubeAccess hgate, okOr_eq_ok.1 hsnap, rfl,
      sandbox_of_resolveSandbox hsandbox⟩
  · obtain ⟨u, hgate, h⟩ := bind_eq_ok.1 h
    obtain ⟨snap', hsnap, h⟩ := bind_eq_ok.1 h
    obtain ⟨sandbox, hsandbox, h⟩ := bind_eq_ok.1 h
    cases h
    exact ⟨SecurityStore.principal_of_requireCubeAccess hgate, okOr_eq_ok.1 hsnap, rfl,
      sandbox_of_resolveSandbox hsandbox⟩

/-! ## What a key tells apart -/

theorem snap_eq (h : IsReadOf env step snap read) (h' : IsReadOf env step' snap' read')
    (hkey : buildKey read = buildKey read') : snap = snap' := by
  have hcube : read.cube = read'.cube := congrArg ViewCacheKey.cube hkey
  have hpub := h.published
  rw [hcube, h'.published] at hpub
  exact (Option.some.inj hpub).symm

theorem sandbox_eq (h : IsReadOf env step snap read) (h' : IsReadOf env step' snap read')
    (hkey : buildKey read = buildKey read') : read.sandbox = read'.sandbox := by
  have hscope : (read.sandbox.map fun s => max s.created 1) =
      read'.sandbox.map fun s => max s.created 1 := congrArg ViewCacheKey.sandboxScope hkey
  rcases hs : read.sandbox with _ | sb
  · rcases hs' : read'.sandbox with _ | sb'
    · rfl
    · simp [hs, hs'] at hscope
  · rcases hs' : read'.sandbox with _ | sb'
    · simp [hs, hs'] at hscope
    · obtain ⟨name, hname⟩ := h.sandbox sb hs
      obtain ⟨name', hname'⟩ := h'.sandbox sb' hs'
      rw [hs, hs', Option.map_some, Option.map_some, Option.some.injEq] at hscope
      rw [snap.ownIds name name' sb sb' hname hname' hscope]

/-- The masks of two known callers with one key are one mask. -/
theorem mask_eq (h : IsReadOf env step snap read) (h' : IsReadOf env step' snap read')
    (hkey : buildKey read = buildKey read') : read.mask = read'.mask := by
  have hmask : maskKey read.mask = maskKey read'.mask := congrArg ViewCacheKey.mask hkey
  obtain ⟨p, hp⟩ := h.known
  obtain ⟨p', hp'⟩ := h'.known
  have hne : ∀ m, read.mask = some m → m.isEmpty = false := fun m hm =>
    SecurityStore.isEmpty_elementMaskFor snap.wf hp (h.mask.symm.trans hm)
  have hne' : ∀ m, read'.mask = some m → m.isEmpty = false := fun m hm =>
    SecurityStore.isEmpty_elementMaskFor snap.wf hp' (h'.mask.symm.trans hm)
  rcases hm : read.mask with _ | m
  · rcases hm' : read'.mask with _ | m'
    · rfl
    · simp [hm, hm', maskKey, hne' m' hm'] at hmask
  · rcases hm' : read'.mask with _ | m'
    · simp [hm, hm', maskKey, hne m hm] at hmask
    · have hpairs : m.deniedPairs = m'.deniedPairs := by
        simpa [hm, hm', maskKey, hne m hm, hne' m' hm'] using hmask
      obtain ⟨denied, rfl⟩ := SecurityStore.elementMaskFor_eq_some (h.mask.symm.trans hm)
      obtain ⟨denied', rfl⟩ := SecurityStore.elementMaskFor_eq_some (h'.mask.symm.trans hm')
      rw [ElementMask.fromDenied_congr hpairs]

theorem lookup_of_seesNamed {auth : Principal} {view : View} (h : SeesNamed auth snap view)
    {dim name : String} (hmem : AxisSpec.subset dim name ∈ view.rows ++ view.columns) :
    snap.visibleSubsetLookup auth dim name = snap.subset dim name := by
  unfold ReadSnapshot.visibleSubsetLookup
  rcases hs : snap.subset dim name with _ | s
  · rfl
  · rw [Option.filter_some, if_pos (h dim name s hmem hs)]

/-- Two reads of one key whose callers see the named subsets have one
answer. -/
theorem execute_eq (h : IsReadOf env step snap read) (h' : IsReadOf env step' snap' read')
    (hkey : buildKey read = buildKey read') (hsees : SeesNamed step.auth snap read.view)
    (hsees' : SeesNamed step'.auth snap' read'.view) :
    env.execute step.auth snap read = env.execute step'.auth snap' read' := by
  obtain rfl := snap_eq h h' hkey
  have hshape : read.view.shape = read'.view.shape := congrArg ViewCacheKey.shape hkey
  have hlookup : ∀ dim name, AxisSpec.subset dim name ∈ read'.view.rows ++ read'.view.columns →
      snap.visibleSubsetLookup step.auth dim name =
        snap.visibleSubsetLookup step'.auth dim name := by
    intro dim name hmem
    have hrows : read.view.rows = read'.view.rows := congrArg ViewShape.rows hshape
    have hcolumns : read.view.columns = read'.view.columns := congrArg ViewShape.columns hshape
    rw [lookup_of_seesNamed hsees' hmem, lookup_of_seesNamed hsees (hrows ▸ hcolumns ▸ hmem)]
  unfold execute
  rw [Query.executeViewWith_shape hshape, Query.executeViewWith_lookup hlookup,
    sandbox_eq h h' hkey, mask_eq h h' hkey]

/-- Who is answered sees the named subsets. -/
theorem seesNamed_of_execute {auth : Principal} {c : Cellset}
    (h : env.execute auth snap read = .ok c) : SeesNamed auth snap read.view := by
  intro dim name s hmem hs
  unfold execute at h
  have hsome := Query.isSome_of_executeViewWith (mapError_eq_ok.1 h) hmem
  rw [ReadSnapshot.visibleSubsetLookup, hs, Option.isSome_filter] at hsome
  simpa using hsome

/-! ## Runs -/

theorem right_of_execute (h : env.readOf step = .ok (snap, read)) {c : Cellset}
    (hc : env.execute step.auth snap read = .ok c) : env.Right (buildKey read) c := by
  intro step' snap' read' h' hkey hsees
  rw [execute_eq (isReadOf h') (isReadOf h) hkey hsees (seesNamed_of_execute hc), hc]

theorem holds_serve {cache : ViewCache} (hcache : cache.Holds env.Right) (step : ViewStep) :
    (env.serve step cache).2.Holds env.Right := by
  unfold serve
  rcases hread : env.readOf step with e | ⟨snap, read⟩
  · exact hcache
  · exact hcache.getOrCompute fun c hc => right_of_execute hread hc

theorem holds_serveAll {cache : ViewCache} (hcache : cache.Holds env.Right)
    (steps : List ViewStep) : (env.serveAll steps cache).Holds env.Right := by
  induction steps generalizing cache with
  | nil => exact hcache
  | cons step steps ih => exact ih (holds_serve hcache step)

theorem kept_withBudget {entries byteBudget : Nat} {read : ViewRead} :
    (ViewCache.withBudget entries byteBudget).kept read = none := by
  rcases h : (ViewCache.withBudget entries byteBudget).kept read with _ | c
  · rfl
  · exact (ViewCache.holds_withBudget (P := fun _ _ => False)).kept h |>.elim

/-- **A reader is served his own answer exactly when he may see the subsets
named by a view that is kept for him**, after any reads by anyone. -/
theorem served_iff (env : ViewEnv) (entries byteBudget : Nat) (steps : List ViewStep)
    (step : ViewStep) :
    (env.serve step (env.serveAll steps (.withBudget entries byteBudget))).1 =
        (env.serve step (.withBudget entries byteBudget)).1 ↔
      env.Cleared step (env.serveAll steps (.withBudget entries byteBudget)) := by
  have hcache : (env.serveAll steps (.withBudget entries byteBudget)).Holds env.Right :=
    holds_serveAll ViewCache.holds_withBudget steps
  unfold serve Cleared
  rcases hread : env.readOf step with e | ⟨snap, read⟩
  · constructor
    · intro _ snap read h
      cases h
    · intro _
      rfl
  · dsimp only
    have hown : ((ViewCache.withBudget entries byteBudget).getOrCompute read
        (env.execute step.auth snap read)).1 = env.execute step.auth snap read :=
      ViewCache.fst_getOrCompute_iff.2 fun c hc => by rw [kept_withBudget] at hc; cases hc
    rw [hown, ViewCache.fst_getOrCompute_iff]
    constructor
    · intro h snap' read' heq hkept
      cases heq
      obtain ⟨c, hc⟩ := Option.ne_none_iff_exists'.1 hkept
      exact seesNamed_of_execute (h c hc)
    · intro h c hc
      have hne : (env.serveAll steps (.withBudget entries byteBudget)).kept read ≠ none := by
        rw [hc]
        exact Option.some_ne_none c
      exact hcache.kept hc step snap read hread rfl (h snap read rfl hne)

/-! ## A private subset -/

/-- A cube of two regions. -/
def regionCube : Except ModelError Cube :=
  Cube.build "Sales" [⟨"Region", [("North", .leaf), ("South", .leaf)], [], [], []⟩]

theorem isOk_regionCube : regionCube.isOk = true := by decide +kernel

/-- Ann keeps a subset to herself. -/
def regionModel : Model :=
  { Model.new (getOk regionCube isOk_regionCube) with
    subsets := FinMap.collect
      [(⟨"Region", "Mine"⟩, ⟨"Mine", "Region", some "ann", .priv, .static ["North"]⟩)] }

theorem wf_regionModel : regionModel.cube.WF := Cube.WF.build (eq_ok_getOk isOk_regionCube)

theorem ownIds_regionModel : regionModel.OwnIds := by
  intro n n' s s' hs
  exact absurd hs (by simp [regionModel, Model.new])

/-- One cube without rules, its cells read as they are stored. -/
def regionEnv : ViewEnv where
  snapshots := FinMap.collect [("Sales", ⟨regionModel, 1, wf_regionModel, ownIds_regionModel⟩)]
  resolverWith snap _ _ :=
    { value := fun coord => (snap.cube.get coord).mapError .model
      stringValue := fun coord => (snap.cube.getString coord).mapError .model }
  evaluator _ _ := .error .dynamicUnsupported
  par := ⟨1, 0⟩
  crossCubeDepVersions _ := []

/-- Everyone may read the cube. -/
def regionReaders : SecurityStore :=
  { SecurityStore.empty with
    users := FinMap.collect [("ann", ⟨false, "", false, setOf ["staff"]⟩),
      ("bob", ⟨false, "", false, setOf ["staff"]⟩)]
    grants := FinMap.collect
      [(⟨.cube "Sales", .cube⟩, AccessList.empty.set (.group "staff") .read)] }

/-- A view of the rows of Ann's subset. -/
def mineStep (user : String) : ViewStep where
  security := regionReaders
  auth := ⟨user, false, ["staff"]⟩
  request := .adhoc "Sales"
    ⟨"adhoc", "Sales", none, .pub, [.subset "Region" "Mine"], [], [], false, false⟩ none

/-- After Ann's read, Bob is shown the members of her private subset. -/
theorem not_isolated_private_subset :
    (regionEnv.serve (mineStep "bob")
        (regionEnv.serveAll [mineStep "ann"] (.withBudget 256 67108864))).1 ≠
      (regionEnv.serve (mineStep "bob") (.withBudget 256 67108864)).1 := by
  intro h
  have hshown : (regionEnv.serve (mineStep "bob")
      (regionEnv.serveAll [mineStep "ann"] (.withBudget 256 67108864))).1.toOption.any
        (fun c => c.rowTuples = [["North"]]) = true := by
    decide +kernel
  have hrefused : (regionEnv.serve (mineStep "bob") (.withBudget 256 67108864)).1.toOption =
      none := by
    decide +kernel
  rw [h, hrefused] at hshown
  cases hshown

end ViewEnv

end Epiphany
