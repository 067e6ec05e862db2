import Epiphany.Server.Outcome
/-!
# Structural requests — who keeps a shared dimension shared

The engine grows the copy of one cube for whoever asks. That such growth
goes to the registry when the dimension is a reference is up to the request:
the one that adds elements looks the dimension up first and refuses, and an
outcome of a flow or an import is applied without looking. References keep
the members and edges of the registry in every run in which the outcomes
name only what is there, or what they grow in the registry themselves
(`Engine.sameMembers_of_requests`).
-/

namespace Epiphany

/-! ## Requests -/

open Handler

/-- Add elements and edges to a cube, unless one of their dimensions is a
shared one. -/
def addElements (cube : String) (elements : List ElementSpec) (edges : List EdgeSpec) :
    Handler Nat := do
  let s ← get
  match (elements.map ElementSpec.dimension ++ edges.map EdgeSpec.dimension).findSome? fun dim =>
      (s.dimensions.backingOf cube dim).map fun id => (dim, id) with
  | some (dim, id) =>
    throw (.conflict ("dimension '" ++ dim ++ "' in cube '" ++ cube ++
      "' is a shared dimension (#" ++ Nat.repr id ++
      "); edit it in the dimension library so every referencing cube stays consistent"))
  | none =>
    commit fun s => (s.defineElements cube elements edges).mapError (EngineError.toApi cube)

/-- Edit a shared dimension, by way of the first cube that references it. -/
def editDimensionById (id : DimensionId) (edit : DimensionEdit) : Handler Unit := do
  let s ← get
  match s.dimensions.get id with
  | none => throw (.notFound ("unknown shared dimension #" ++ Nat.repr id))
  | some shared =>
    match (s.dimensions.referencing id).head? with
    | none =>
      throw (.conflict ("shared dimension #" ++ Nat.repr id ++
        " is not referenced by any cube; reference it from a cube before editing its structure"))
    | some cube =>
      perform (EngineError.toApi cube) fun s => s.runEdit cube shared.dimension.name edit

/-- The answer of a deletion that fails. -/
def deleteAnswer : EngineError → ApiError
  | .unknownId id => .notFound ("unknown shared dimension #" ++ Nat.repr id)
  | e => e.toApi "registry"

/-- A request that may change the structure of a dimension; its body is
checked and its caller authorized. -/
inductive StructureRequest where
  | registerDimension (dim : DimensionDef)
  | createCube (name : String) (dims : List CubeDimensionSpec)
  | growDimension (id : DimensionId) (elements : List ElementSpec) (edges : List EdgeSpec)
  | editCubeDimension (cube dimension : String) (edit : DimensionEdit)
  | editDimensionById (id : DimensionId) (edit : DimensionEdit)
  | promoteDimension (cube dimension : String)
  | deleteDimension (id : DimensionId)
  | addElements (cube : String) (elements : List ElementSpec) (edges : List EdgeSpec)
  /-- The outcome of a flow run or a CSV import. -/
  | applyOutcome (outcome : FlowOutcome)

namespace StructureRequest

/-- The effect of a request. -/
def handle : StructureRequest → Handler Unit
  | .registerDimension dim => perform (EngineError.toApi "registry") fun s => s.runRegister dim
  | .createCube name dims => perform (EngineError.toApi name) fun s => s.runCreate name dims
  | .growDimension id elements edges => do
    let _ ← perform (EngineError.toApi "registry") fun s => s.runGrow id elements edges
  | .editCubeDimension cube dimension edit =>
    perform (EngineError.toApi cube) fun s => s.runEdit cube dimension edit
  | .editDimensionById id edit => Epiphany.editDimensionById id edit
  | .promoteDimension cube dimension =>
    perform (EngineError.toApi cube) fun s => s.runPromote cube dimension
  | .deleteDimension id => perform deleteAnswer fun s => s.attempt (s.deleteDimension id)
  | .addElements cube elements edges => do
    let _ ← Epiphany.addElements cube elements edges
  | .applyOutcome outcome => do
    let _ ← outcome.applyOutcome

end StructureRequest

namespace Engine

/-- The engine after a request, refused or not. -/
def serve (s : Engine) (request : StructureRequest) : Except ApiError Engine :=
  .ok (finalState request.handle s)

/-! ## What an outcome may stage -/

/-- A member staged for a cube is in the shared dimension, or the outcome
grows it there. -/
def CoversElement (s : Engine) (outcome : FlowOutcome) (cube : String) (spec : ElementSpec) :
    Prop :=
  ∀ id ∈ s.dimensions.backingOf cube spec.dimension,
    (∃ x ∈ s.dimensions.get id, x.dimension.hasElement spec.name = true) ∨
      (s.dimensions.idOf spec.dimension = some id ∧
        ∃ changes ∈ outcome.dimensions[spec.dimension]?,
          ∃ e ∈ changes.elements, e.name = spec.name)

/-- An edge staged for a cube is in the shared dimension, or the outcome
grows it there. -/
def CoversEdge (s : Engine) (outcome : FlowOutcome) (cube : String) (spec : EdgeSpec) : Prop :=
  ∀ id ∈ s.dimensions.backingOf cube spec.dimension,
    (∃ x ∈ s.dimensions.get id, x.dimension.hasEdge spec.parent spec.child = true) ∨
      (s.dimensions.idOf spec.dimension = some id ∧
        ∃ changes ∈ outcome.dimensions[spec.dimension]?,
          ∃ e ∈ changes.edges, e.parent = spec.parent ∧ e.child = spec.child)

/-- **What keeps references together**: all that an outcome stages for cubes
in shared dimensions is covered. -/
def Covers (s : Engine) : StructureRequest → Prop
  | .applyOutcome outcome => ∀ t ∈ outcome.cubes.toList,
    (∀ spec ∈ t.2.elements, s.CoversElement outcome t.1 spec) ∧
      ∀ spec ∈ t.2.edges, s.CoversEdge outcome t.1 spec
  | _ => True

instance (s : Engine) (outcome : FlowOutcome) (cube : String) (spec : ElementSpec) :
    Decidable (s.CoversElement outcome cube spec) := by
  unfold CoversElement
  infer_instance

instance (s : Engine) (outcome : FlowOutcome) (cube : String) (spec : EdgeSpec) :
    Decidable (s.CoversEdge outcome cube spec) := by
  unfold CoversEdge
  infer_instance

instance (s : Engine) (request : StructureRequest) : Decidable (s.Covers request) := by
  unfold Covers
  split <;> infer_instance

end Engine

/-! ## Growth of the registry -/

namespace DimensionRegistry

variable {r r' r'' : DimensionRegistry}

/-- What growth of global dimensions keeps of the registry. -/
structure GrownFrom (r r' : DimensionRegistry) : Prop where
  idOf : ∀ name, r'.idOf name = r.idOf name
  backingOf : ∀ cube name, r'.backingOf cube name = r.backingOf cube name
  holds : ∀ id x, r.get id = some x → ∃ x', r'.get id = some x' ∧
    (∀ name, x.dimension.hasElement name = true → x'.dimension.hasElement name = true) ∧
      ∀ parent child, x.dimension.hasEdge parent child = true →
        x'.dimension.hasEdge parent child = true

theorem GrownFrom.refl (r : DimensionRegistry) : r.GrownFrom r where
  idOf := fun _ => rfl
  backingOf := fun _ _ => rfl
  holds := fun _ x hx => ⟨x, hx, fun _ h => h, fun _ _ h => h⟩

theorem GrownFrom.trans (h : r.GrownFrom r') (h' : r'.GrownFrom r'') : r.GrownFrom r'' where
  idOf := fun name => (h'.idOf name).trans (h.idOf name)
  backingOf := fun cube name => (h'.backingOf cube name).trans (h.backingOf cube name)
  holds := fun id x hx => by
    obtain ⟨x', hx', hels, hedges⟩ := h.holds id x hx
    obtain ⟨x'', hx'', hels', hedges'⟩ := h'.holds id x' hx'
    exact ⟨x'', hx'', fun name hn => hels' name (hels name hn),
      fun parent child he => hedges' parent child (hedges parent child he)⟩

/-- A global dimension holds what is staged for it. -/
def Holds (r : DimensionRegistry) (dim : String) (changes : DimChanges) : Prop :=
  ∀ id, r.idOf dim = some id → ∃ x, r.get id = some x ∧
    (∀ e ∈ changes.elements, x.dimension.hasElement e.name = true) ∧
      ∀ e ∈ changes.edges, x.dimension.hasEdge e.parent e.child = true

theorem Holds.grown {dim : String} {changes : DimChanges} (h : r.Holds dim changes)
    (hg : r.GrownFrom r') : r'.Holds dim changes := by
  intro id hid
  obtain ⟨x, hx, hels, hedges⟩ := h id ((hg.idOf dim).symm.trans hid)
  obtain ⟨x', hx', hkeep, hkeep'⟩ := hg.holds id x hx
  exact ⟨x', hx', fun e he => hkeep e.name (hels e he),
    fun e he => hkeep' e.parent e.child (hedges e he)⟩

end DimensionRegistry

namespace Engine

variable {s s' : Engine} {id : DimensionId} {cube : String}

theorem Aligned.get_of_idOf (hs : s.Aligned) {name : String} (h : s.dimensions.idOf name = some id) :
    ∃ x, s.dimensions.get id = some x := by
  obtain ⟨⟨key, x⟩, hmem, hx⟩ := List.exists_of_findSome?_eq_some h
  have hget : s.dimensions.get key = some x := FinMap.mem_toList.1 hmem
  split_ifs at hx
  cases hx
  exact ⟨x, by rw [(hs.registered key x hget).1]; exact hget⟩

/-- **A growth of a registered dimension** keeps what is there and adds what
it names. -/
theorem Aligned.grownFrom_runGrow (hs : s.Aligned) {elements : List ElementSpec}
    {edges : List EdgeSpec} {n : Nat} (h : (s.runGrow id elements edges).1 = .ok n) :
    s.dimensions.GrownFrom (s.runGrow id elements edges).2.dimensions ∧
      ∃ x, (s.runGrow id elements edges).2.dimensions.get id = some x ∧
        (∀ e ∈ elements, x.dimension.hasElement e.name = true) ∧
          ∀ e ∈ edges, x.dimension.hasEdge e.parent e.child = true := by
  obtain ⟨next, hnext, -⟩ := map_eq_ok.1 h
  obtain ⟨old, hold, hchange, hdims⟩ := shareChange_ok hnext
  obtain ⟨hid, hgrow⟩ := SharedChange.onShared_ok hchange
  obtain ⟨hoid, -, hwf, -⟩ := hs.registered id old hold
  obtain ⟨⟨grown, b⟩, hgrown, hnextdim⟩ := bind_eq_ok.1 hgrow
  obtain rfl : grown = next.dimension := Except.ok.inj hnextdim
  have hg := Dimension.grow_ok hgrown
  have hnid : next.id = id := hid.trans hoid
  have hget : ∀ other, (s.dimensions.put next).get other =
      if id = other then some next else s.dimensions.get other := by
    intro other
    rw [DimensionRegistry.get_put, hnid]
  have hold' : s.dimensions.get next.id = some old := by rw [hnid, hold]
  rw [show (s.runGrow id elements edges).2.dimensions = _ from hdims]
  refine ⟨⟨DimensionRegistry.idOf_put hold' hid hg.name,
    DimensionRegistry.backingOf_put hold' hid hg.name, fun other x hx => ?_⟩,
    next, by rw [hget, if_pos rfl], Dimension.holds_grow hwf hgrown⟩
  rw [hget]
  by_cases hother : id = other
  · subst hother
    obtain rfl := Option.some.inj (hold.symm.trans hx)
    rw [if_pos rfl]
    exact ⟨next, rfl, fun _ => hg.hasElement hwf, fun _ _ => hg.hasEdge hwf⟩
  · rw [if_neg hother]
    exact ⟨x, hx, fun _ h => h, fun _ _ h => h⟩

/-! ## Handlers and the invariant -/

variable {α : Type}

theorem ensures_perform {answer : EngineError → ApiError}
    {op : Engine → Except EngineError α × Engine} {P : Engine → Prop} {Q : α → Engine → Prop}
    {E : Engine → Prop} (hok : ∀ s s' a, P s → op s = (.ok a, s') → Q a s')
    (herr : ∀ s s' e, P s → op s = (.error e, s') → E s') :
    Ensures P (perform answer op) Q E := by
  intro s hs
  unfold perform
  rcases hop : op s with ⟨e | a, s'⟩
  · exact herr s s' e hs hop
  · exact hok s s' a hs hop

/-- An operation that keeps the invariant, failed or not. -/
theorem ensures_perform_aligned {answer : EngineError → ApiError}
    {op : Engine → Except EngineError α × Engine} (h : ∀ s : Engine, s.Aligned → (op s).2.Aligned) :
    Ensures Aligned (perform answer op) (fun _ => Aligned) Aligned :=
  ensures_perform (fun s s' a hs hop => by simpa [hop] using h s hs)
    fun s s' e hs hop => by simpa [hop] using h s hs

theorem ensures_commit {op : Engine → Except ApiError (Engine × α)} {P : Engine → Prop}
    {Q : α → Engine → Prop} {E : Engine → Prop} (hfail : ∀ s, P s → E s)
    (h : ∀ s s' a, P s → op s = .ok (s', a) → Q a s') : Ensures P (commit op) Q E := by
  intro s hs
  unfold commit
  rcases hop : op s with _ | ⟨s', a⟩
  · exact hfail s hs
  · exact h s s' a hs hop

/-! ## Outcomes -/

/-- The state while global dimensions are grown. -/
def Growing (r : DimensionRegistry) (s : Engine) : Prop := s.Aligned ∧ r.GrownFrom s.dimensions

/-- Growing a registered dimension. -/
theorem ensures_runGrow {r : DimensionRegistry} {dim : String} {changes : DimChanges} {a : Engine}
    (hid : a.dimensions.idOf dim = some id) {answer : EngineError → ApiError} :
    Ensures (fun s => a = s ∧ Growing r s)
      (perform answer fun s => s.runGrow id changes.elements changes.edges)
      (fun _ s => Growing r s ∧ s.dimensions.Holds dim changes) Aligned := by
  refine ensures_perform (fun s s' n hs hop => ?_) fun s s' e hs hop => ?_
  · obtain ⟨rfl, hs, hr⟩ := hs
    have haligned := hs.runGrow id changes.elements changes.edges
    obtain ⟨hg, x, hx, hheld⟩ := hs.grownFrom_runGrow (congrArg Prod.fst hop)
    rw [hop] at haligned hg hx
    refine ⟨⟨haligned, hr.trans hg⟩, fun other hother => ?_⟩
    obtain rfl := Option.some.inj (hid.symm.trans ((hg.idOf dim).symm.trans hother))
    exact ⟨x, hx, hheld⟩
  · have haligned := hs.2.1.runGrow id changes.elements changes.edges
    rw [hop] at haligned
    exact haligned

theorem ensures_growTarget (r : DimensionRegistry) (dim : String) (changes : DimChanges) :
    Ensures (Growing r) (FlowOutcome.growTarget dim changes)
      (fun _ s => Growing r s ∧ s.dimensions.Holds dim changes) Aligned := by
  unfold FlowOutcome.growTarget
  refine Ensures.bind Ensures.get fun a => ?_
  split
  · exact Ensures.throw _ fun s hs => hs.2.1
  · rename_i id hid
    split_ifs with hempty
    -- nothing is staged, so everything staged is held
    · refine Ensures.pure 0 fun s hs => ⟨hs.2, fun other hother => ?_⟩
      obtain ⟨x, hx⟩ := hs.2.1.get_of_idOf hother
      rw [hempty.1, hempty.2]
      exact ⟨x, hx, by simp, by simp⟩
    · exact Ensures.bind (ensures_runGrow hid) fun n => Ensures.pure _ fun s hs => hs

/-- **After the first loop** every global dimension holds what is staged for
it. -/
theorem ensures_growTargets (r : DimensionRegistry) (targets : List (String × DimChanges)) :
    Ensures (Growing r)
      (targets.foldlM (fun added t => do
        let n ← FlowOutcome.growTarget t.1 t.2
        pure (added + n)) 0)
      (fun _ s => Growing r s ∧ ∀ t ∈ targets, s.dimensions.Holds t.1 t.2) Aligned := by
  -- the targets that are no longer to come are held
  have hloop := Ensures.foldlM (l := targets) (b := 0) (E := Aligned)
    (f := fun added t => do
      let n ← FlowOutcome.growTarget t.1 t.2
      pure (added + n))
    (I := fun rest (_ : Nat) s => Growing r s ∧
      ∀ t ∈ targets, t ∈ rest ∨ s.dimensions.Holds t.1 t.2) ?_
  · refine hloop.weaken (fun s hs => ⟨hs, fun t ht => Or.inl ht⟩) (fun n s hs => ?_) fun s hs => hs
    exact ⟨hs.1, fun t ht => (hs.2 t ht).resolve_left List.not_mem_nil⟩
  · intro t rest added ht
    refine Ensures.of_state fun s hs => ?_
    have hround := ensures_growTarget s.dimensions t.1 t.2
    refine Ensures.bind (hround.weaken ?_ (fun n s' hs' => hs') fun s' hs' => hs') fun n =>
      Ensures.pure _ ?_
    · rintro s' rfl
      exact ⟨hs.1.1, DimensionRegistry.GrownFrom.refl _⟩
    · rintro s' ⟨⟨haligned, hg⟩, hheld⟩
      refine ⟨⟨haligned, hs.1.2.trans hg⟩, fun t' ht' => ?_⟩
      rcases hs.2 t' ht' with hmem | hholds
      · rcases List.mem_cons.1 hmem with rfl | hmem
        · exact Or.inr hheld
        · exact Or.inl hmem
      · exact Or.inr (hholds.grown hg)

/-- The copy of a reference in a cube. -/
theorem Aligned.copy_of_backing (hs : s.Aligned) {name : String} {c : Cube}
    (hback : s.dimensions.backingOf cube name = some id) (hc : s.cubes[cube]? = some c) :
    ∃ x d, s.dimensions.get id = some x ∧ c.dimensionNamed name = some d ∧
      d.outline = x.dimension.outline := by
  obtain ⟨x, hx, hname⟩ := Aligned.backingOf_eq_some hs hback
  obtain ⟨c', d, hc', hd, hout⟩ := hs.copies id cube x hx
  cases hc.symm.trans hc'
  exact ⟨x, d, hx.2, hname ▸ hd, hout⟩

/-- What is staged for a cube in shared dimensions is in the registry. -/
def StagedThere (r : DimensionRegistry) (cube : String) (changes : CubeChanges) : Prop :=
  (∀ spec ∈ changes.elements, ∀ id, r.backingOf cube spec.dimension = some id →
    ∃ x, r.get id = some x ∧ x.dimension.hasElement spec.name = true) ∧
  ∀ spec ∈ changes.edges, ∀ id, r.backingOf cube spec.dimension = some id →
    ∃ x, r.get id = some x ∧ x.dimension.hasEdge spec.parent spec.child = true

/-- Growth that finds what it names in the registry finds it in the copies. -/
theorem Aligned.defineElements_staged (hs : s.Aligned) (changes : CubeChanges)
    (h : StagedThere s.dimensions cube changes) {n : Nat}
    (hdefine : s.defineElements cube changes.elements changes.edges = .ok (s', n)) :
    s'.Aligned := by
  obtain ⟨c, hc, -⟩ := bind_eq_ok.1 hdefine
  rw [okOr_eq_ok] at hc
  refine Aligned.defineElements hs hc (fun spec hspec hsome => ?_) (fun spec hspec hsome => ?_)
    hdefine
  · obtain ⟨id, hid⟩ := Option.isSome_iff_exists.1 hsome
    obtain ⟨x, d, hx, hd, hout⟩ := hs.copy_of_backing hid hc
    obtain ⟨y, hy, hheld⟩ := h.1 spec hspec id hid
    cases hx.symm.trans hy
    rw [Cube.hasElement, hd, Option.any_some, ← d.hasElement_outline, hout,
      Dimension.hasElement_outline]
    exact hheld
  · obtain ⟨id, hid⟩ := Option.isSome_iff_exists.1 hsome
    obtain ⟨x, d, hx, hd, hout⟩ := hs.copy_of_backing hid hc
    obtain ⟨y, hy, hheld⟩ := h.2 spec hspec id hid
    cases hx.symm.trans hy
    rw [Cube.hasEdge, hd, Option.any_some, ← d.hasEdge_outline, hout,
      Dimension.hasEdge_outline]
    exact hheld

theorem dimensions_defineElements {elements : List ElementSpec} {edges : List EdgeSpec} {n : Nat}
    (h : s.defineElements cube elements edges = .ok (s', n)) : s'.dimensions = s.dimensions := by
  obtain ⟨c, -, h⟩ := bind_eq_ok.1 h
  obtain ⟨⟨next, k⟩, -, h⟩ := bind_eq_ok.1 h
  cases h
  rfl

/-- A batch of cells changes no dimension. -/
theorem Aligned.applyBatch (hs : s.Aligned) {writes : List Cube.CellWrite} {u : Unit}
    (h : s.applyBatch cube writes = .ok (s', u)) :
    s'.Aligned ∧ s'.dimensions = s.dimensions := by
  obtain ⟨c, hc, h⟩ := bind_eq_ok.1 h
  rw [okOr_eq_ok] at hc
  obtain ⟨⟨⟩, -, h⟩ := bind_eq_ok.1 h
  obtain ⟨next, hnext, h⟩ := bind_eq_ok.1 h
  cases h
  obtain ⟨hwf, hsimple⟩ := hs.cubes cube c hc
  obtain ⟨hwf', hdims⟩ := hwf.applyWrites (mapError_eq_ok.1 hnext)
  refine ⟨hs.setCube ⟨hwf', ?_⟩ (fun id x hx => ?_) fun _ _ _ _ _ => rfl, rfl⟩
  · rw [Cube.Simple, hdims]
    exact hsimple
  · obtain ⟨y, d, hy, hd, hup⟩ := hs.copies id cube x hx
    cases hc.symm.trans hy
    refine ⟨d, ?_, hup⟩
    rw [Cube.dimensionNamed, hdims]
    exact hd

/-- The state while cubes are written. -/
def Writing (r : DimensionRegistry) (s : Engine) : Prop := s.Aligned ∧ s.dimensions = r

theorem ensures_growCube {r : DimensionRegistry} {changes : CubeChanges}
    (h : StagedThere r cube changes) :
    Ensures (Writing r) (FlowOutcome.growCube cube changes) (fun _ => Writing r) Aligned := by
  unfold FlowOutcome.growCube
  split_ifs
  · exact Ensures.pure 0 fun s hs => hs
  · refine ensures_commit (fun s hs => hs.1) fun s s' n hs hop => ?_
    obtain ⟨haligned, rfl⟩ := hs
    rw [mapError_eq_ok] at hop
    exact ⟨haligned.defineElements_staged changes h hop, dimensions_defineElements hop⟩

theorem ensures_writeCells {r : DimensionRegistry} {writes : List Cube.CellWrite} :
    Ensures (Writing r) (FlowOutcome.writeCells cube writes) (fun _ => Writing r) Aligned := by
  unfold FlowOutcome.writeCells
  split_ifs
  · exact Ensures.pure 0 fun s hs => hs
  · refine Ensures.bind (ensures_commit (fun s hs => hs.1) fun s s' u hs hop => ?_) fun u =>
      Ensures.pure _ fun s hs => hs
    obtain ⟨haligned, rfl⟩ := hs
    exact haligned.applyBatch hop

theorem ensures_writeTarget {r : DimensionRegistry} {changes : CubeChanges}
    (h : StagedThere r cube changes) :
    Ensures (Writing r) (FlowOutcome.writeTarget cube changes) (fun _ => Writing r) Aligned := by
  unfold FlowOutcome.writeTarget
  refine Ensures.bind Ensures.get fun a => ?_
  split
  · exact Ensures.throw _ fun s hs => hs.2.1
  · rename_i c hc
    have hpreview : Ensures (fun s => a = s ∧ Writing r s)
        (commit fun s => (FlowOutcome.previewWrites c changes).map fun writes => (s, writes))
        (fun _ => Writing r) Aligned := by
      refine ensures_commit (fun s hs => hs.2.1) fun s s' writes hs hop => ?_
      obtain ⟨w, -, hw⟩ := map_eq_ok.1 hop
      cases hw
      exact hs.2
    exact Ensures.bind hpreview fun writes => Ensures.bind (ensures_growCube h) fun added =>
      Ensures.bind ensures_writeCells fun written => Ensures.pure _ fun s hs => hs

/-- What an outcome covers is in the registry once its global dimensions are
grown. -/
theorem stagedThere_of_covers {outcome : FlowOutcome} (hc : s.Covers (.applyOutcome outcome))
    {r : DimensionRegistry} (hg : s.dimensions.GrownFrom r)
    (hheld : ∀ t ∈ outcome.dimensions.toList, r.Holds t.1 t.2) {t : String × CubeChanges}
    (ht : t ∈ outcome.cubes.toList) : StagedThere r t.1 t.2 := by
  obtain ⟨hels, hedges⟩ := hc t ht
  have hgrows : ∀ dim changes, changes ∈ outcome.dimensions[dim]? → r.Holds dim changes :=
    fun dim changes h => hheld (dim, changes) (FinMap.mem_toList.2 h)
  constructor
  · intro spec hspec id hid
    rw [hg.backingOf] at hid
    rcases hels spec hspec id hid with ⟨x, hx, hin⟩ | ⟨hidOf, changes, hchanges, e, he, hname⟩
    · obtain ⟨x', hx', hkeep, -⟩ := hg.holds id x hx
      exact ⟨x', hx', hkeep _ hin⟩
    · obtain ⟨x, hx, hin, -⟩ := hgrows _ _ hchanges id ((hg.idOf _).trans hidOf)
      exact ⟨x, hx, hname ▸ hin e he⟩
  · intro spec hspec id hid
    rw [hg.backingOf] at hid
    rcases hedges spec hspec id hid with
      ⟨x, hx, hin⟩ | ⟨hidOf, changes, hchanges, e, he, hparent, hchild⟩
    · obtain ⟨x', hx', -, hkeep⟩ := hg.holds id x hx
      exact ⟨x', hx', hkeep _ _ hin⟩
    · obtain ⟨x, hx, -, hin⟩ := hgrows _ _ hchanges id ((hg.idOf _).trans hidOf)
      exact ⟨x, hx, hparent ▸ hchild ▸ hin e he⟩

/-- **A covered outcome keeps the references together**, applied in whole or
in part. -/
theorem Aligned.ensures_applyOutcome (hs : s.Aligned) {outcome : FlowOutcome}
    (hc : s.Covers (.applyOutcome outcome)) :
    Ensures (fun s' => s' = s) outcome.applyOutcome (fun _ => Aligned) Aligned := by
  have hcubes : ∀ grown, Ensures (fun s' : Engine => Growing s.dimensions s' ∧
      ∀ t ∈ outcome.dimensions.toList, s'.dimensions.Holds t.1 t.2)
      (outcome.cubes.toList.foldlM (fun total t => do
        let n ← FlowOutcome.writeTarget t.1 t.2
        pure (total.1 + n.1, total.2 + n.2)) (grown, 0)) (fun _ => Aligned) Aligned := by
    intro grown
    refine Ensures.of_state fun s' hs' => ?_
    refine (Ensures.foldlM (I := fun _ _ => Writing s'.dimensions) ?_).weaken ?_
      (fun n s'' hs'' => hs''.1) fun s'' hs'' => hs''
    · intro t rest total ht
      have hthere := stagedThere_of_covers hc hs'.1.2 hs'.2 ht
      exact Ensures.bind (ensures_writeTarget hthere) fun n => Ensures.pure _ fun s hs => hs
    · rintro s'' rfl
      exact ⟨hs'.1.1, rfl⟩
  have hall := Ensures.bind (ensures_growTargets s.dimensions outcome.dimensions.toList) hcubes
  refine hall.weaken ?_ (fun _ s' hs' => hs') fun s' hs' => hs'
  rintro s' rfl
  exact ⟨hs, DimensionRegistry.GrownFrom.refl _⟩

/-- Adding elements finds no shared dimension among theirs, or refuses. -/
theorem ensures_addElements (elements : List ElementSpec) (edges : List EdgeSpec) :
    Ensures Aligned (addElements cube elements edges) (fun _ => Aligned) Aligned := by
  unfold addElements
  refine Ensures.bind Ensures.get fun a => ?_
  split
  · exact Ensures.throw _ fun s hs => hs.2
  · rename_i hnone
    rw [List.findSome?_eq_none_iff] at hnone
    have hfree : ∀ dim ∈ elements.map ElementSpec.dimension ++ edges.map EdgeSpec.dimension,
        a.dimensions.backingOf cube dim = none := fun dim hdim => by simpa using hnone dim hdim
    refine ensures_commit (fun s hs => hs.2) fun s s' n hs hop => ?_
    obtain ⟨rfl, haligned⟩ := hs
    rw [mapError_eq_ok] at hop
    refine haligned.defineElements_staged ⟨elements, edges, []⟩
      ⟨fun spec hspec id hid => ?_, fun spec hspec id hid => ?_⟩ hop
    · have := hfree spec.dimension (List.mem_append_left _ (List.mem_map_of_mem hspec))
      cases this.symm.trans hid
    · have := hfree spec.dimension (List.mem_append_right _ (List.mem_map_of_mem hspec))
      cases this.symm.trans hid

theorem ensures_editDimensionById (id : DimensionId) (edit : DimensionEdit) :
    Ensures Aligned (editDimensionById id edit) (fun _ => Aligned) Aligned := by
  unfold editDimensionById
  refine Ensures.bind Ensures.get fun a => ?_
  split
  · exact Ensures.throw _ fun s hs => hs.2
  · split
    · exact Ensures.throw _ fun s hs => hs.2
    · exact (ensures_perform_aligned fun s hs => hs.runEdit edit).weaken (fun s hs => hs.2)
        (fun _ s hs => hs) fun s hs => hs

/-- **Step.** A request keeps the references together, an outcome if it is
covered. -/
theorem Aligned.serve (hs : s.Aligned) {request : StructureRequest} (hc : s.Covers request)
    (h : s.serve request = .ok s') : s'.Aligned := by
  cases h
  cases request with
  | registerDimension dim =>
    exact (ensures_perform_aligned fun s hs => hs.runRegister dim).finalState hs
  | createCube name dims => exact (ensures_perform_aligned fun s hs => hs.runCreate).finalState hs
  | growDimension id elements edges =>
    exact (Ensures.bind (ensures_perform_aligned fun s hs => hs.runGrow id elements edges) fun _ =>
      Ensures.pure _ fun s hs => hs).finalState hs
  | editCubeDimension cube dimension edit =>
    exact (ensures_perform_aligned fun s hs => hs.runEdit edit).finalState hs
  | editDimensionById id edit => exact (ensures_editDimensionById id edit).finalState hs
  | promoteDimension cube dimension =>
    exact (ensures_perform_aligned fun s hs => hs.runPromote).finalState hs
  | deleteDimension id =>
    exact (ensures_perform_aligned fun s hs => hs.attempt fun s' => hs.delete).finalState hs
  | addElements cube elements edges =>
    exact (Ensures.bind (ensures_addElements elements edges) fun _ =>
      Ensures.pure _ fun s hs => hs).finalState hs
  | applyOutcome outcome =>
    exact (Ensures.bind (hs.ensures_applyOutcome hc) fun _ =>
      Ensures.pure _ fun s hs => hs).finalState rfl

/-- **Run.** While the outcomes of flows and imports are covered, every
reference has the members, kinds and edges of the registered dimension, in
every state of the run. -/
theorem sameMembers_of_requests (hs : s.Aligned) {requests : List StructureRequest}
    (h : Meets Engine.serve Covers s requests) {pre : List StructureRequest}
    (hpre : pre <+: requests) : (runCalls Engine.serve s pre).SameMembers :=
  (run_invariant (fun _ _ _ hs hc h => Aligned.serve hs hc h) hs (h.of_prefix hpre)).sameMembers

/-! ## Runs that meet it, and one that does not -/

theorem aligned_emptyServer : emptyServer.Aligned :=
  aligned_fromStores fun name _ h => by cases (FinMap.get_empty name).symm.trans h

/-- A shared dimension, and a cube that references it. -/
def sharedSetup : List StructureRequest :=
  [.registerDimension ⟨"Region", [("North", .leaf)], [], [], []⟩,
    .createCube "Sales" [.ref 1]]

/-- A flow grows the global dimension and names the new member, and writes
it, in a cube. -/
def growingFlow : FlowOutcome where
  cubes := FinMap.collect [("Sales",
    ⟨[⟨"Region", "South", .leaf⟩], [], [⟨FinMap.collect [("Region", "South")], "12"⟩]⟩)]
  dimensions := FinMap.collect [("Region", ⟨[⟨"Region", "South", .leaf⟩], []⟩)]

/-- A flow grows the cube alone. -/
def leakingFlow : FlowOutcome where
  cubes := FinMap.collect [("Sales", ⟨[⟨"Region", "South", .leaf⟩], [], []⟩)]
  dimensions := ∅

theorem sameMembers_of_growing_flow : (runCalls Engine.serve emptyServer
    (sharedSetup ++ [.applyOutcome growingFlow])).SameMembers :=
  sameMembers_of_requests aligned_emptyServer
    (show Meets Engine.serve Covers emptyServer (sharedSetup ++ [.applyOutcome growingFlow]) by
      decide +kernel) List.prefix_rfl

/-- A reference whose cube has other members than the registry. -/
theorem not_sameMembers (href : s.dimensions.isReferencedBy id cube = true)
    (h : ((s.dimensions.get id).any fun x => (s.cubes[cube]?).any fun c =>
      (c.dimensionNamed x.dimension.name).any fun d => d.signature = x.dimension.signature) =
        false) : ¬ s.SameMembers := by
  intro hsame
  obtain ⟨x, c, d, hx, hc, hd, hsig, -⟩ := hsame id cube href
  simp [hx, hc, hd, hsig] at h

theorem not_sameMembers_of_leaking_flow : emptyServer.Aligned ∧
    ¬ (runCalls Engine.serve emptyServer
      (sharedSetup ++ [.applyOutcome leakingFlow])).SameMembers :=
  ⟨aligned_emptyServer, not_sameMembers (show DimensionRegistry.isReferencedBy _ 1 "Sales" = true by
    decide +kernel) (by decide +kernel)⟩

end Engine

end Epiphany
