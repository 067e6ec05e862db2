import Epiphany.Engine.Lockstep
import Epiphany.Engine.Members
import Epiphany.Engine.Simple
/-!
# Requests one after another — references in outline

A request that runs to its end before the next one starts leaves nothing in
flight. A creation by reference copies a dimension up to its pins, so what
such requests keep is the outline: every reference holds the members, kinds
and edges of the registered dimension (`Engine.Aligned`). Growth that names
a cube is made on the cube alone; it keeps the references if what it names
in their dimensions is there before.
-/

namespace Epiphany

namespace DimensionRegistry

/-- The registered dimension of a name. -/
def idOf (r : DimensionRegistry) (name : String) : Option DimensionId :=
  r.byId.toList.findSome? fun e => if e.2.dimension.name = name then some e.2.id else none

variable {r : DimensionRegistry} {old next : SharedDimension}

/-- What an id leads to after a dimension is put back under its id. -/
theorem bind_get_put {γ : Type} {f : SharedDimension → Option γ} (hold : r.get next.id = some old)
    (hf : f next = f old) (id : DimensionId) :
    ((r.put next).byId[id]?).bind f = (r.byId[id]?).bind f := by
  have hget : (r.put next).byId[id]? = if next.id = id then some next else r.byId[id]? :=
    get_put next
  rw [hget]
  split_ifs with h
  · subst h
    rw [show r.byId[next.id]? = some old from hold]
    exact hf
  · rfl

/-- A dimension put back under its id and name is found by that name. -/
theorem idOf_put (hold : r.get next.id = some old) (hid : next.id = old.id)
    (hname : next.dimension.name = old.dimension.name) (name : String) :
    (r.put next).idOf name = r.idOf name := by
  unfold idOf
  exact FinMap.findSome?_toList_congr
    (f := fun _ x => if x.dimension.name = name then some x.id else none)
    fun id => bind_get_put hold (by rw [hname, hid]) id

theorem backingOf_put (hold : r.get next.id = some old) (hid : next.id = old.id)
    (hname : next.dimension.name = old.dimension.name) (cube name : String) :
    (r.put next).backingOf cube name = r.backingOf cube name := by
  unfold backingOf
  simp only [isReferencedBy_put]
  exact FinMap.findSome?_toList_congr
    (f := fun _ x =>
      if x.dimension.name = name ∧ r.isReferencedBy x.id cube then some x.id else none)
    fun id => bind_get_put hold (by rw [hname, hid]) id

end DimensionRegistry

namespace Engine

open DimensionRegistry

/-! ## Operations run to their end -/

variable (s : Engine)

/-- The outcome of a section that leaves the engine as it is when it fails. -/
def attempt (result : Except EngineError Engine) : Except EngineError Unit × Engine :=
  match result with
  | .ok next => (.ok (), next)
  | .error e => (.error e, s)

/-- Make a change on the cubes that exist, up to one that refuses it. -/
def fanOut (dimension : String) (change : SharedChange) :
    List String → Engine → Except EngineError Unit × Engine
  | [], s => (.ok (), s)
  | cube :: rest, s =>
    if (s.cubes[cube]?).isNone then fanOut dimension change rest s
    else
      match s.define cube dimension change with
      | .ok next => fanOut dimension change rest next
      | .error e => (.error e, s)

/-- Change a registered dimension, and then every cube that references it. -/
def shareChange (id : DimensionId) (change : SharedChange) :
    Except EngineError SharedDimension × Engine :=
  match okOr (s.dimensions.get id) (.unknownId id) >>= fun current =>
      invalid (change.onShared current) with
  | .error e => (.error e, s)
  | .ok next =>
    let (result, after) := fanOut next.dimension.name change (s.dimensions.referencing id)
      { s with dimensions := s.dimensions.put next }
    (result.map fun _ => next, after)

/-- Grow a registered dimension; with its new generation. -/
def runGrow (id : DimensionId) (elements : List ElementSpec) (edges : List EdgeSpec) :
    Except EngineError Nat × Engine :=
  let (result, after) := s.shareChange id (.grow elements edges)
  (result.map SharedDimension.generation, after)

/-- Edit a dimension of a cube. A fan-out that did not meet the cube is
followed by an edit of it. -/
def runEdit (cube dimension : String) (edit : DimensionEdit) : Except EngineError Unit × Engine :=
  match s.dimensions.backingOf cube dimension with
  | none => s.attempt (s.define cube dimension (.edit edit))
  | some id =>
    match s.shareChange id (.edit edit) with
    | (.error e, after) => (.error e, after)
    | (.ok _, after) =>
      if cube ∈ s.dimensions.referencing id ∧ (s.cubes[cube]?).isSome then (.ok (), after)
      else after.attempt (after.define cube dimension (.edit edit))

/-- Register a dimension built from its definition. -/
def runRegister (d : DimensionDef) : Except EngineError Unit × Engine :=
  s.attempt (do
    let (dimension, _) ← invalid ((Dimension.new d.name).grow
      (d.elements.map fun e => ⟨d.name, e.1, e.2⟩)
      (d.edges.map fun e => ⟨d.name, e.1, e.2.1, e.2.2⟩))
    s.registerDimension dimension)

/-- Create a cube and record its references. -/
def runCreate (name : String) (dims : List CubeDimensionSpec) :
    Except EngineError Unit × Engine :=
  s.attempt (do
    let next ← s.createCubeWithRefs name dims
    if next.dimTopology.isSome then next.publish else .ok next)

/-- Register the dimension of a cube. -/
def runPromote (cube dimension : String) : Except EngineError Unit × Engine :=
  s.attempt (do
    let next ← s.promoteDimension cube dimension
    next.publish)

/-- Grow a cube by what names its dimensions; with the number of new
elements. -/
def defineElements (cube : String) (elements : List ElementSpec) (edges : List EdgeSpec) :
    Except EngineError (Engine × Nat) := do
  let c ← okOr s.cubes[cube]? (.unknownCube cube)
  let (next, added) ← invalid (c.extendSchema elements edges)
  .ok ({ s with cubes := s.cubes.insert cube next }, added)

/-! ## The property -/

/-- **Every reference leads to a registered dimension, and the cube's own has
the same members, kinds and edges.** -/
def SameMembers : Prop :=
  ∀ id cube, s.dimensions.isReferencedBy id cube = true → ∃ x c d,
    s.dimensions.get id = some x ∧ s.cubes[cube]? = some c ∧
      c.dimensionNamed x.dimension.name = some d ∧ d.SameStructure x.dimension

/-- A copy has the outline of the registered dimension, or gets it by the
change it is owed. -/
def CatchesUp (owed : Option SharedChange) (copy d : Dimension) : Prop :=
  match owed with
  | none => copy.outline = d.outline
  | some change => (change.onDimension copy).map Dimension.outline = .ok d.outline

/-- The invariant while the copies of some references are owed a change. -/
structure Lagging (s : Engine) (owed : DimensionId → String → Option SharedChange) : Prop where
  quiescent : s.Quiescent
  registered : ∀ id x, s.dimensions.get id = some x →
    x.id = id ∧ id < s.nextDimId ∧ x.dimension.WF ∧ x.dimension.Simple
  cubes : ∀ (name : String) (c : Cube), s.cubes[name]? = some c → c.WF ∧ c.Simple
  known : ∀ id cube, s.dimensions.isReferencedBy id cube = true → ∃ x, s.Refers id cube x
  /-- A cube references at most one dimension of a name. -/
  unique : ∀ cube id id' x x', s.Refers id cube x → s.Refers id' cube x' →
    x.dimension.name = x'.dimension.name → id = id'
  copies : ∀ id cube x, s.Refers id cube x → ∃ c d, s.cubes[cube]? = some c ∧
    c.dimensionNamed x.dimension.name = some d ∧ CatchesUp (owed id cube) d x.dimension

/-- **The invariant between requests**: no copy is owed a change. -/
abbrev Aligned : Prop := s.Lagging fun _ _ => none

variable {s} {owed owed' : DimensionId → String → Option SharedChange} {id : DimensionId}
  {cube : String} {x : SharedDimension}

theorem Aligned.sameMembers (hs : s.Aligned) : s.SameMembers := by
  intro id cube h
  obtain ⟨x, hx⟩ := hs.known id cube h
  obtain ⟨c, d, hc, hd, hout⟩ := hs.copies id cube x hx
  obtain ⟨-, -, hwf, -⟩ := hs.registered id x hx.2
  have hdwf := (hs.cubes cube c hc).1.dimensionNamed hd
  exact ⟨x, c, d, hx.2, hc, hd, ((Dimension.outline_eq_iff hdwf hwf).1 hout).2⟩

/-- An empty server is aligned. -/
theorem aligned_fromStores {cubes : FinMap String Cube} {cubesDir : Bool} {folders : List String}
    (h : ∀ (name : String) (c : Cube), cubes[name]? = some c → c.WF ∧ c.Simple) :
    (fromStores cubes cubesDir folders).Aligned where
  quiescent := ⟨rfl, rfl⟩
  registered := fun id x hx => by cases (FinMap.get_empty id).symm.trans hx
  cubes := h
  known := fun id cube href => by simp [fromStores, empty, isReferencedBy, refsOf] at href
  unique := fun cube id id' x x' hx => by cases (FinMap.get_empty id).symm.trans hx.2
  copies := fun id cube x hx => by cases (FinMap.get_empty id).symm.trans hx.2

theorem Aligned.backingOf_eq_none (hs : s.Aligned) {name : String}
    (h : s.dimensions.backingOf cube name = none) :
    ∀ id x, s.Refers id cube x → x.dimension.name ≠ name := by
  intro id x hx hname
  rw [backingOf, List.findSome?_eq_none_iff] at h
  have := h (id, x) (FinMap.mem_toList.2 hx.2)
  rw [if_pos ⟨hname, by rw [(hs.registered id x hx.2).1]; exact hx.1⟩] at this
  cases this

theorem Aligned.backingOf_eq_some (hs : s.Aligned) {name : String}
    (h : s.dimensions.backingOf cube name = some id) :
    ∃ x, s.Refers id cube x ∧ x.dimension.name = name := by
  rw [backingOf] at h
  obtain ⟨⟨id', x⟩, hmem, h⟩ := List.exists_of_findSome?_eq_some h
  have hget : s.dimensions.get id' = some x := FinMap.mem_toList.1 hmem
  split_ifs at h with hcond
  cases h
  refine ⟨x, ⟨hcond.2, ?_⟩, hcond.1⟩
  rw [(hs.registered id' x hget).1]
  exact hget

/-! ## Cubes -/

/-- A cube is replaced, and each reference of it is up to date or owed what
it is. -/
theorem Lagging.setCube (hs : s.Lagging owed) {c : Cube} (hc : c.WF ∧ c.Simple)
    (hcopies : ∀ id x, s.Refers id cube x → ∃ d, c.dimensionNamed x.dimension.name = some d ∧
      CatchesUp (owed' id cube) d x.dimension)
    (howed : ∀ id other x, s.Refers id other x → other ≠ cube → owed' id other = owed id other) :
    ({ s with cubes := s.cubes.insert cube c } : Engine).Lagging owed' where
  quiescent := hs.quiescent
  registered := hs.registered
  cubes := fun n y hy => by
    rw [FinMap.get_insert] at hy
    split_ifs at hy
    · cases hy
      exact hc
    · exact hs.cubes n y hy
  known := hs.known
  unique := hs.unique
  copies := fun id other x hx => by
    by_cases hother : other = cube
    · subst hother
      obtain ⟨d, hd, hup⟩ := hcopies id x hx
      exact ⟨c, d, FinMap.get_insert_self _ _ _, hd, hup⟩
    · obtain ⟨y, d, hy, hd, hup⟩ := hs.copies id other x hx
      refine ⟨y, d, (FinMap.get_insert_of_ne (Ne.symm hother) _).trans hy, hd, ?_⟩
      rwa [howed id other x hx hother]

/-- An edit of a dimension that no reference names. -/
theorem Aligned.define_embedded (hs : s.Aligned) {name : String} {edit : DimensionEdit}
    (hback : s.dimensions.backingOf cube name = none) {s' : Engine}
    (h : s.define cube name (.edit edit) = .ok s') : s'.Aligned := by
  obtain ⟨c, c', hc, hc', rfl⟩ := define_ok h
  obtain ⟨hwf, hsimple⟩ := hs.cubes cube c hc
  refine hs.setCube ⟨SharedChange.wf_onCube hwf hc', hsimple.onCube hwf hc'⟩
    (fun id x hx => ?_) fun _ _ _ _ _ => rfl
  obtain ⟨y, d, hy, hd, hup⟩ := hs.copies id cube x hx
  cases hc.symm.trans hy
  have hne := Aligned.backingOf_eq_none hs hback id x hx
  exact ⟨d, (SharedChange.dimensionNamed_editDimension hwf hc' hne).trans hd, hup⟩

/-- A growth that finds everything it names in referenced dimensions. -/
theorem Aligned.defineElements (hs : s.Aligned) {elements : List ElementSpec}
    {edges : List EdgeSpec} {c : Cube} (hc : s.cubes[cube]? = some c)
    (helements : ∀ spec ∈ elements, (s.dimensions.backingOf cube spec.dimension).isSome →
      c.hasElement spec = true)
    (hedges : ∀ spec ∈ edges, (s.dimensions.backingOf cube spec.dimension).isSome →
      c.hasEdge spec = true) {s' : Engine} {n : Nat}
    (h : s.defineElements cube elements edges = .ok (s', n)) : s'.Aligned := by
  obtain ⟨c', hc', h⟩ := bind_eq_ok.1 h
  cases hc.symm.trans (okOr_eq_ok.1 hc')
  obtain ⟨⟨next, k⟩, hnext, h⟩ := bind_eq_ok.1 h
  cases h
  have hgrown := invalid_eq_ok.1 hnext
  obtain ⟨hwf, hsimple⟩ := hs.cubes cube c hc
  refine hs.setCube ⟨hwf.extendSchema hgrown, hsimple.extendSchema hgrown⟩ (fun id x hx => ?_)
    fun _ _ _ _ _ => rfl
  obtain ⟨y, d, hy, hd, hup⟩ := hs.copies id cube x hx
  cases hc.symm.trans hy
  -- a dimension that the registry references is backed under its name
  have hbacked : (s.dimensions.backingOf cube x.dimension.name).isSome := by
    rcases hnone : s.dimensions.backingOf cube x.dimension.name with _ | other
    · exact absurd rfl (Aligned.backingOf_eq_none hs hnone id x hx)
    · rfl
  refine ⟨d, (Cube.dimensionNamed_extendSchema hgrown hd (fun spec hspec hname => ?_)
    fun spec hspec hname => ?_).trans hd, hup⟩
  · exact helements spec hspec (hname ▸ hbacked)
  · exact hedges spec hspec (hname ▸ hbacked)

/-! ## Changes of shared dimensions -/

/-- The cubes of a fan-out that it has yet to reach are owed its change. -/
def owes (id : DimensionId) (change : SharedChange) (remaining : List String) :
    DimensionId → String → Option SharedChange :=
  fun other cube => if other = id ∧ cube ∈ remaining then some change else none

/-- **A fan-out reaches every cube**: each holds the outline of before, so it
accepts the change. -/
theorem Lagging.fanOut {change : SharedChange} {remaining : List String}
    (hs : s.Lagging (owes id change remaining)) (hx : s.dimensions.get id = some x)
    (hrefs : ∀ cube ∈ remaining, s.dimensions.isReferencedBy id cube = true)
    (hnodup : remaining.Nodup) :
    ∃ s', fanOut x.dimension.name change remaining s = (.ok (), s') ∧ s'.Aligned := by
  induction remaining generalizing s with
  | nil =>
    have howes : owes id change [] = fun _ _ => none := by
      funext other cube
      simp [owes]
    rw [howes] at hs
    exact ⟨s, rfl, hs⟩
  | cons cube rest ih =>
    rw [List.nodup_cons] at hnodup
    have href : s.Refers id cube x := ⟨hrefs cube List.mem_cons_self, hx⟩
    obtain ⟨c, d, hc, hd, hup⟩ := hs.copies id cube x href
    rw [owes, if_pos ⟨rfl, List.mem_cons_self⟩] at hup
    obtain ⟨d', hd', hout⟩ := map_eq_ok.1 hup
    obtain ⟨hwf, hsimple⟩ := hs.cubes cube c hc
    obtain ⟨c', hc', hwf', hnamed, hframe⟩ := SharedChange.onCube_of_onDimension hwf hd hd'
    have hdefine : s.define cube x.dimension.name change =
        .ok { s with cubes := s.cubes.insert cube c' } := by
      simp only [define, hc, okOr, hc', invalid, Except.mapError, bind, Except.bind]
    have hnext : ({ s with cubes := s.cubes.insert cube c' } : Engine).Lagging
        (owes id change rest) := by
      refine hs.setCube ⟨hwf', hsimple.onCube hwf hc'⟩ (fun other y hy => ?_)
        fun other n y _ hne => ?_
      · by_cases hother : other = id
        · subst hother
          cases hx.symm.trans hy.2
          refine ⟨d', hnamed, ?_⟩
          rw [owes, if_neg fun h => hnodup.1 h.2]
          exact hout
        -- the cube has one reference of this name
        · obtain ⟨c2, d2, hc2, hd2, hup2⟩ := hs.copies other cube y hy
          cases hc.symm.trans hc2
          have hne : y.dimension.name ≠ x.dimension.name := fun hname =>
            hother (hs.unique cube other id y x hy href hname)
          refine ⟨d2, (hframe _ hne).trans hd2, ?_⟩
          rw [owes, if_neg fun h => hother h.1] at hup2 ⊢
          exact hup2
      · simp only [owes, List.mem_cons, hne, false_or]
    obtain ⟨s', hs', haligned⟩ := ih hnext hx
      (fun n hn => hrefs n (List.mem_cons_of_mem cube hn)) hnodup.2
    refine ⟨s', ?_, haligned⟩
    rw [Engine.fanOut, if_neg (by rw [hc]; simp), hdefine]
    exact hs'

/-- **A change of a shared dimension is accepted by all its cubes or made on
none.** -/
theorem Aligned.shareChange (hs : s.Aligned) (change : SharedChange) :
    (s.shareChange id change).2.Aligned ∧
      ((s.shareChange id change).1.isOk = false → (s.shareChange id change).2 = s) := by
  unfold Engine.shareChange
  split
  · exact ⟨hs, fun _ => rfl⟩
  · rename_i next hnext
    obtain ⟨old, hold, hnext⟩ := bind_eq_ok.1 hnext
    rw [okOr_eq_ok] at hold
    obtain ⟨hid, hchange⟩ := SharedChange.onShared_ok (invalid_eq_ok.1 hnext)
    obtain ⟨hoid, hlt, hwf, hsimple⟩ := hs.registered id old hold
    obtain ⟨hwf', hname⟩ := SharedChange.onDimension_ok hwf hchange
    have hget : ∀ other, (s.dimensions.put next).get other =
        if id = other then some next else s.dimensions.get other := by
      intro other
      rw [get_put, hid, hoid]
    -- a reference is as before, up to the change of its dimension
    have hrefers : ∀ other cube y, (s.dimensions.put next).isReferencedBy other cube = true ∧
        (s.dimensions.put next).get other = some y → ∃ z, s.Refers other cube z ∧
          z.dimension.name = y.dimension.name ∧ (id = other → z = old ∧ y = next) ∧
          (id ≠ other → z = y) := by
      rintro other cube y ⟨href, hy⟩
      rw [isReferencedBy_put] at href
      rw [hget] at hy
      split_ifs at hy with heq
      · cases hy
        exact ⟨old, ⟨href, heq ▸ hold⟩, hname.symm, fun _ => ⟨rfl, rfl⟩, fun h => absurd heq h⟩
      · exact ⟨y, ⟨href, hy⟩, rfl, fun h => absurd h heq, fun _ => rfl⟩
    have hlagging : ({ s with dimensions := s.dimensions.put next } : Engine).Lagging
        (owes id change (s.dimensions.referencing id)) :=
      { quiescent := hs.quiescent
        registered := fun other y hy => by
          rw [hget] at hy
          split_ifs at hy with heq
          · cases hy
            exact ⟨(hid.trans hoid).trans heq, heq ▸ hlt, hwf', hsimple.onDimension hwf hchange⟩
          · exact hs.registered other y hy
        cubes := hs.cubes
        known := fun other cube href => by
          have href' := href
          rw [isReferencedBy_put] at href'
          obtain ⟨y, hy⟩ := hs.known other cube href'
          by_cases heq : id = other
          · exact ⟨next, href, by rw [hget, if_pos heq]⟩
          · exact ⟨y, href, by rw [hget, if_neg heq]; exact hy.2⟩
        unique := fun cube i j y z hy hz hyz => by
          obtain ⟨y', hy', hyn, -⟩ := hrefers i cube y hy
          obtain ⟨z', hz', hzn, -⟩ := hrefers j cube z hz
          exact hs.unique cube i j y' z' hy' hz' (hyn.trans (hyz.trans hzn.symm))
        copies := fun other cube y hy => by
          obtain ⟨z, hz, hzn, heq, hne⟩ := hrefers other cube y hy
          obtain ⟨c, d, hc, hd, hup⟩ := hs.copies other cube z hz
          refine ⟨c, d, hc, hzn ▸ hd, ?_⟩
          by_cases hother : id = other
          · obtain ⟨rfl, rfl⟩ := heq hother
            have hmem : cube ∈ s.dimensions.referencing id := by
              rw [mem_referencing, hother]
              exact hz.1
            rw [owes, if_pos ⟨hother.symm, hmem⟩]
            have hcongr := SharedChange.onDimension_congr hup change
            rw [hchange] at hcongr
            exact hcongr
          · obtain rfl := hne hother
            rw [owes, if_neg fun h => hother h.1.symm]
            exact hup }
    obtain ⟨s', hs', haligned⟩ := hlagging.fanOut (by rw [hget, if_pos rfl])
      (fun cube hcube => by
        rw [isReferencedBy_put]
        exact mem_referencing.1 hcube) nodup_referencing
    rw [hs']
    exact ⟨haligned, fun h => by cases h⟩

theorem dimensions_fanOut {dimension : String} {change : SharedChange} (cubes : List String)
    (s : Engine) : (fanOut dimension change cubes s).2.dimensions = s.dimensions := by
  induction cubes generalizing s with
  | nil => rfl
  | cons cube cubes ih =>
    unfold fanOut
    split_ifs
    · exact ih s
    · split
      · rename_i next hnext
        obtain ⟨c, c', -, -, rfl⟩ := define_ok hnext
        exact ih _
      · rfl

/-- The registry after an accepted change of a shared dimension. -/
theorem shareChange_ok {change : SharedChange} {next : SharedDimension}
    (h : (s.shareChange id change).1 = .ok next) : ∃ old, s.dimensions.get id = some old ∧
      change.onShared old = .ok next ∧
      (s.shareChange id change).2.dimensions = s.dimensions.put next := by
  unfold Engine.shareChange at h ⊢
  split at h
  · cases h
  · rename_i next' hnext
    obtain ⟨old, hold, hchange⟩ := bind_eq_ok.1 hnext
    obtain ⟨⟨⟩, -, hn⟩ := map_eq_ok.1 h
    obtain rfl : next' = next := hn
    exact ⟨old, okOr_eq_ok.1 hold, invalid_eq_ok.1 hchange, dimensions_fanOut _ _⟩

theorem Aligned.attempt (hs : s.Aligned) {result : Except EngineError Engine}
    (h : ∀ s', result = .ok s' → s'.Aligned) : (s.attempt result).2.Aligned := by
  cases result with
  | error e => exact hs
  | ok s' => exact h s' rfl

theorem Aligned.runGrow (hs : s.Aligned) (id : DimensionId) (elements : List ElementSpec)
    (edges : List EdgeSpec) : (s.runGrow id elements edges).2.Aligned :=
  (hs.shareChange (.grow elements edges)).1

theorem Aligned.runEdit (hs : s.Aligned) {name : String} (edit : DimensionEdit) :
    (s.runEdit cube name edit).2.Aligned := by
  unfold Engine.runEdit
  split
  · rename_i hnone
    exact hs.attempt fun s' hs' => Aligned.define_embedded hs hnone hs'
  · rename_i id hid
    have haligned : (s.shareChange id (.edit edit)).2.Aligned := (hs.shareChange _).1
    split
    · rename_i hshare
      rw [hshare] at haligned
      exact haligned
    · rename_i hshare
      rw [hshare] at haligned
      obtain ⟨x, hx, -⟩ := Aligned.backingOf_eq_some hs hid
      obtain ⟨c, d, hc, -⟩ := hs.copies id cube x hx
      rw [if_pos ⟨mem_referencing.2 hx.1, by rw [hc]; rfl⟩]
      exact haligned

/-! ## Registration, creation and promotion -/

/-- The registry is changed: what was referenced stays, and one cube gets
references to dimensions it holds, of names it had no reference of. -/
theorem Aligned.recorded (hs : s.Aligned) {r : DimensionRegistry} {n : DimensionId}
    {top : Option TopologyChange} (cube : String) (refs : List DimensionId) (htop : top.isNone)
    (hreg : ∀ id x, r.get id = some x →
      x.id = id ∧ id < n ∧ x.dimension.WF ∧ x.dimension.Simple)
    (hget : ∀ id other x, s.Refers id other x → r.get id = some x)
    (href : ∀ id other, r.isReferencedBy id other = true ↔
      s.dimensions.isReferencedBy id other = true ∨ (id ∈ refs ∧ other = cube))
    (hnew : ∀ id ∈ refs, ∃ x c d, r.get id = some x ∧ s.cubes[cube]? = some c ∧
      c.dimensionNamed x.dimension.name = some d ∧ d.outline = x.dimension.outline)
    (hfresh : ∀ id ∈ refs, ∀ x, r.get id = some x → ∀ id' x', s.Refers id' cube x' →
      x'.dimension.name ≠ x.dimension.name)
    (hnames : ∀ id ∈ refs, ∀ id' ∈ refs, ∀ x x', r.get id = some x → r.get id' = some x' →
      x.dimension.name = x'.dimension.name → id = id') :
    ({ s with dimensions := r, nextDimId := n, dimTopology := top } : Engine).Aligned := by
  -- a reference is an old one, or one of those recorded for the cube now
  have hrefers : ∀ id other x, r.isReferencedBy id other = true ∧ r.get id = some x ↔
      s.Refers id other x ∨ ((id ∈ refs ∧ other = cube) ∧ r.get id = some x) := by
    intro id other x
    rw [href]
    constructor
    · rintro ⟨h | h, hx⟩
      · obtain ⟨y, hy⟩ := hs.known id other h
        obtain rfl := Option.some.inj ((hget id other y hy).symm.trans hx)
        exact Or.inl hy
      · exact Or.inr ⟨h, hx⟩
    · rintro (h | ⟨h, hx⟩)
      · exact ⟨Or.inl h.1, hget id other x h⟩
      · exact ⟨Or.inr h, hx⟩
  exact
    { quiescent := ⟨hs.quiescent.1, htop⟩
      registered := hreg
      cubes := hs.cubes
      known := fun id other h => by
        rcases (href id other).1 h with h' | ⟨hid, rfl⟩
        · obtain ⟨x, hx⟩ := hs.known id other h'
          exact ⟨x, h, hget id other x hx⟩
        · obtain ⟨x, c, d, hx, -⟩ := hnew id hid
          exact ⟨x, h, hx⟩
      unique := fun other id id' x x' hx hx' hxx => by
        rcases (hrefers id other x).1 hx with h | ⟨⟨hid, rfl⟩, h⟩
        · rcases (hrefers id' other x').1 hx' with h' | ⟨⟨hid', rfl⟩, h'⟩
          · exact hs.unique other id id' x x' h h' hxx
          · exact absurd hxx (hfresh id' hid' x' h' id x h)
        · rcases (hrefers id' other x').1 hx' with h' | ⟨⟨hid', -⟩, h'⟩
          · exact absurd hxx.symm (hfresh id hid x h id' x' h')
          · exact hnames id hid id' hid' x x' h h' hxx
      copies := fun id other x hx => by
        rcases (hrefers id other x).1 hx with h | ⟨⟨hid, rfl⟩, h⟩
        · exact hs.copies id other x h
        · obtain ⟨y, c, d, hy, hc, hd, hout⟩ := hnew id hid
          obtain rfl := Option.some.inj (hy.symm.trans h)
          exact ⟨c, d, hc, hd, hout⟩ }

/-- The registry is changed, and the references are as before. -/
theorem Aligned.sameReferences (hs : s.Aligned) {r : DimensionRegistry} {n : DimensionId}
    (hreg : ∀ id x, r.get id = some x →
      x.id = id ∧ id < n ∧ x.dimension.WF ∧ x.dimension.Simple)
    (hget : ∀ id other x, s.Refers id other x → r.get id = some x)
    (href : ∀ id other, r.isReferencedBy id other = true ↔
      s.dimensions.isReferencedBy id other = true) :
    ({ s with dimensions := r, nextDimId := n } : Engine).Aligned :=
  hs.recorded "" [] hs.quiescent.2 hreg hget (fun id other => by simp [href]) (by simp)
    (by simp) (by simp)

/-- A dimension under the next id: what the ids lead to. -/
theorem Aligned.registered_put (hs : s.Aligned) {d : Dimension} (hwf : d.WF) (hsimple : d.Simple)
    (id : DimensionId) (x : SharedDimension)
    (hx : (s.dimensions.put (SharedDimension.new s.nextDimId d)).get id = some x) :
    x.id = id ∧ id < s.nextDimId + 1 ∧ x.dimension.WF ∧ x.dimension.Simple := by
  rw [get_put] at hx
  split_ifs at hx with hid
  · cases hx
    exact ⟨hid, hid ▸ Nat.lt_succ_self _, hwf, hsimple⟩
  · obtain ⟨h1, h2, h3⟩ := hs.registered id x hx
    exact ⟨h1, h2.trans (Nat.lt_succ_self _), h3⟩

/-- A referenced dimension is not under the next id. -/
theorem Aligned.get_put_of_refers (hs : s.Aligned) {d : Dimension} {other : String}
    (hx : s.Refers id other x) :
    (s.dimensions.put (SharedDimension.new s.nextDimId d)).get id = some x := by
  rw [get_put, if_neg]
  · exact hx.2
  · exact (hs.registered id x hx.2).2.1.ne'

theorem Aligned.runRegister (hs : s.Aligned) (def' : DimensionDef) :
    (s.runRegister def').2.Aligned := by
  refine hs.attempt fun s' h => ?_
  obtain ⟨⟨d, b⟩, hd, h⟩ := bind_eq_ok.1 h
  obtain ⟨⟨⟩, -, h⟩ := bind_eq_ok.1 h
  cases h
  have hchange : SharedChange.onDimension (Dimension.new def'.name) (.grow _ _) = .ok d :=
    bind_eq_ok.2 ⟨(d, b), invalid_eq_ok.1 hd, rfl⟩
  have hwf := (SharedChange.onDimension_ok (Dimension.WF.new _) hchange).1
  have hsimple := (Dimension.Simple.new _).onDimension (Dimension.WF.new _) hchange
  exact hs.sameReferences (hs.registered_put hwf hsimple)
    (fun id other x hx => hs.get_put_of_refers hx) fun id other => by rw [isReferencedBy_put]

theorem Aligned.runPromote (hs : s.Aligned) {name : String} :
    (s.runPromote cube name).2.Aligned := by
  refine hs.attempt fun s' h => ?_
  obtain ⟨next, hnext, h⟩ := bind_eq_ok.1 h
  obtain ⟨⟨⟩, -, hnext⟩ := bind_eq_ok.1 hnext
  obtain ⟨c, hc, hnext⟩ := bind_eq_ok.1 hnext
  obtain ⟨d, hd, hnext⟩ := bind_eq_ok.1 hnext
  rw [okOr_eq_ok] at hc hd
  split at hnext
  · cases hnext
  · rename_i hnone
    cases hnext
    cases h
    have hname := Cube.name_of_dimensionNamed hd
    obtain ⟨hwf, hsimple⟩ := hs.cubes cube c hc
    have hget : ((s.dimensions.put (SharedDimension.new s.nextDimId d)).attach
        s.nextDimId cube).get s.nextDimId = some (SharedDimension.new s.nextDimId d) :=
      (get_put _).trans (if_pos rfl)
    refine hs.recorded cube [s.nextDimId] rfl
      (hs.registered_put (hwf.dimensionNamed hd) (Cube.Simple.dimensionNamed hsimple hd))
      (fun id other x hx => hs.get_put_of_refers hx) (fun id other => ?_) ?_ ?_ ?_
    · rw [isReferencedBy_attach, isReferencedBy_put, List.mem_singleton]
    · intro id hid
      obtain rfl := List.mem_singleton.1 hid
      refine ⟨_, c, d, hget, hc, ?_, rfl⟩
      rw [← hname] at hd
      exact hd
    · intro id hid x hx id' x' hx'
      obtain rfl := List.mem_singleton.1 hid
      obtain rfl := Option.some.inj (hget.symm.trans hx)
      rw [show (SharedDimension.new s.nextDimId d).dimension.name = name from hname]
      exact Aligned.backingOf_eq_none hs hnone id' x' hx'
    · intro id hid id' hid' _ _ _ _ _
      exact (List.mem_singleton.1 hid).trans (List.mem_singleton.1 hid').symm

theorem Aligned.delete (hs : s.Aligned) {s' : Engine} (h : s.deleteDimension id = .ok s') :
    s'.Aligned := by
  obtain ⟨⟨⟩, -, h⟩ := bind_eq_ok.1 h
  obtain ⟨old, -, h⟩ := bind_eq_ok.1 h
  rw [ite_error_eq_ok, ne_eq, Decidable.not_not] at h
  obtain ⟨hnone, h⟩ := h
  cases h
  have hfree : ∀ cube, s.dimensions.isReferencedBy id cube ≠ true := by
    intro cube href
    rw [← mem_referencing, hnone] at href
    cases href
  refine hs.sameReferences (fun other x hx => ?_) (fun other cube x hx => ?_) fun other cube => ?_
  · rw [get_remove] at hx
    split_ifs at hx
    exact hs.registered other x hx
  · rw [get_remove, if_neg]
    · exact hx.2
    · rintro rfl
      exact hfree cube hx.1
  · by_cases hid : id = other
    · subst hid
      refine iff_of_false ?_ (hfree cube)
      simp [isReferencedBy, refsOf, remove]
    · rw [isReferencedBy_remove hid]

theorem Aligned.runCreate (hs : s.Aligned) {name : String} {dims : List CubeDimensionSpec} :
    (s.runCreate name dims).2.Aligned := by
  refine hs.attempt fun s' h => ?_
  obtain ⟨created, hcreated, h⟩ := bind_eq_ok.1 h
  obtain ⟨⟨⟩, -, hcreated⟩ := bind_eq_ok.1 hcreated
  obtain ⟨⟨defs, refs⟩, hres, hcreated⟩ := bind_eq_ok.1 hcreated
  obtain ⟨next, hnext, hcreated⟩ := bind_eq_ok.1 hcreated
  obtain ⟨c, hc, hnew, rfl⟩ := createCube_ok hnext
  obtain ⟨hmem, xs, hxs, hsub⟩ := resolveDims_ok hres
  cases hcreated
  -- the cube is new, so no reference names it
  have hother : ∀ id other x, s.Refers id other x → other ≠ name := by
    rintro id other x hx rfl
    obtain ⟨c', d, hc', -⟩ := hs.copies id other x hx
    cases hnew.symm.trans hc'
  have hcube : ({ s with cubes := s.cubes.insert name c } : Engine).Aligned :=
    hs.setCube ⟨Cube.WF.build hc, Cube.simple_build hc⟩
      (fun id x hx => absurd rfl (hother id name x hx)) fun _ _ _ _ _ => rfl
  have hstored : ({ s with
      cubes := s.cubes.insert name c
      folders := slug name :: s.folders } : Engine).Aligned :=
    { hcube with }
  have hrefs : s' = { s with
      cubes := s.cubes.insert name c
      folders := slug name :: s.folders
      dimensions := refs.foldl (fun r id => r.attach id name) s.dimensions
      dimTopology := none } := by
    cases refs with
    | nil =>
      cases h
      rfl
    | cons id refs =>
      cases h
      rfl
  obtain ⟨hget, href⟩ := attachAll s.dimensions name refs
  rw [hrefs]
  refine hstored.recorded name refs rfl (fun id x hx => ?_) (fun id other x hx => ?_) href
    (fun id hid => ?_) (fun id hid x hx id' x' hx' => ?_) fun id hid id' hid' x x' hx hx' => ?_
  · exact hs.registered id x ((hget id).symm.trans hx)
  · exact (hget id).trans hx.2
  · obtain ⟨x, hx, hxget⟩ : ∃ x ∈ xs, s.dimensions.get id = some x := by
      obtain ⟨i, hi⟩ := List.mem_iff_getElem?.1 hid
      obtain ⟨hlen, hat⟩ := forall₂_iff_getElem?.1 hxs
      have hlt := hlen ▸ (List.getElem?_eq_some_iff.1 hi).1
      exact ⟨xs[i], List.getElem_mem hlt, hat i id _ hi (List.getElem?_eq_getElem hlt)⟩
    obtain ⟨-, -, hwf, hsimple⟩ := hs.registered id x hxget
    obtain ⟨d, hd, hout⟩ := Cube.outline_dimensionNamed_build hc
      (hsub.subset (List.mem_map_of_mem hx)) hwf hsimple
    exact ⟨x, c, d, (hget id).trans hxget, FinMap.get_insert_self _ _ _, hd, hout⟩
  · exact absurd rfl (hother id' name x' hx')
  · refine refs_of_names hxs ?_ hid hid' ((hget id).symm.trans hx) ((hget id').symm.trans hx')
    have hn := (Cube.build_ok hc).1
    have := (hsub.map DimensionDef.name).nodup hn
    rwa [List.map_map] at this

end Engine

end Epiphany
