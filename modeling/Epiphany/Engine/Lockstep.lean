import Epiphany.Engine.Registry
/-!
# Lockstep — every reference holds the registry's dimension

With nothing in flight, a cube that references a registered dimension holds
it exactly: elements, kinds and pins, edges in declaration order, and
attributes. While a change is on its way the cubes it has yet to reach hold
the dimension from before it, and every other reference is up to date
(`Engine.Sound`). Two things break this, and the results are about runs
without them (`Engine.Safe`): a cube created with a reference to a
dimension that is not `Copyable` starts with another dimension, and an edit
that found its dimension embedded may reach the cube after the dimension
has become a reference.
-/

namespace Epiphany

/-! ## The registry's lookups -/

namespace DimensionRegistry

variable {r : DimensionRegistry} {id other : DimensionId} {cube name : String}

theorem get_put (x : SharedDimension) :
    (r.put x).get id = if x.id = id then some x else r.get id := FinMap.get_insert _ _ _ _

theorem get_remove : (r.remove id).get other = if id = other then none else r.get other :=
  FinMap.get_erase _ _ _

@[simp] theorem get_attach : (r.attach id cube).get other = r.get other := rfl

theorem refsOf_put (x : SharedDimension) : (r.put x).refsOf id = r.refsOf id := by
  simp only [refsOf, put, FinMap.get_insert]
  split_ifs with h
  · subst h
    rfl
  · rfl

@[simp] theorem isReferencedBy_put (x : SharedDimension) :
    (r.put x).isReferencedBy id cube = r.isReferencedBy id cube := by
  rw [isReferencedBy, refsOf_put, isReferencedBy]

theorem isReferencedBy_attach {c : String} :
    (r.attach id cube).isReferencedBy other c = true ↔
      r.isReferencedBy other c = true ∨ (other = id ∧ c = cube) := by
  simp only [isReferencedBy, refsOf, attach, FinMap.get_insert]
  by_cases h : id = other
  · subst h
    simp only [if_true, Option.getD_some, true_and, FinMap.get_insert]
    by_cases hc : cube = c
    · simp [hc]
    · simp [hc, Ne.symm hc]
  · simp [h, Ne.symm h]

theorem isReferencedBy_remove (h : id ≠ other) :
    (r.remove id).isReferencedBy other cube = r.isReferencedBy other cube := by
  simp only [isReferencedBy, refsOf, remove, FinMap.get_erase, if_neg h]

theorem mem_referencing : cube ∈ r.referencing id ↔ r.isReferencedBy id cube = true := by
  simp only [referencing, isReferencedBy, List.mem_map, Option.isSome_iff_exists]
  constructor
  · rintro ⟨⟨c, u⟩, hmem, rfl⟩
    exact ⟨u, FinMap.mem_toList.1 hmem⟩
  · rintro ⟨u, hu⟩
    exact ⟨(cube, u), FinMap.mem_toList.2 hu, rfl⟩

theorem nodup_referencing : (r.referencing id).Nodup := FinMap.nodup_keys _

theorem attachAll (r : DimensionRegistry) (cube : String) (refs : List DimensionId) :
    (∀ other, (refs.foldl (fun r id => r.attach id cube) r).get other = r.get other) ∧
      ∀ other c, (refs.foldl (fun r id => r.attach id cube) r).isReferencedBy other c = true ↔
        r.isReferencedBy other c = true ∨ (other ∈ refs ∧ c = cube) := by
  induction refs generalizing r with
  | nil => simp
  | cons id refs ih =>
    obtain ⟨hget, href⟩ := ih (r.attach id cube)
    refine ⟨fun other => hget other, fun other c => ?_⟩
    rw [List.foldl_cons, href, isReferencedBy_attach, List.mem_cons]
    tauto

end DimensionRegistry

namespace Engine

open DimensionRegistry

/-! ## The property -/

variable {s : Engine} {id : DimensionId} {cube : String} {x : SharedDimension}

/-- A cube references a registered dimension. -/
def Refers (s : Engine) (id : DimensionId) (cube : String) (x : SharedDimension) : Prop :=
  s.dimensions.isReferencedBy id cube = true ∧ s.dimensions.get id = some x

/-- No operation is in flight. -/
def Quiescent (s : Engine) : Prop := s.registryEdit.isNone ∧ s.dimTopology.isNone

/-- **Every reference leads to a registered dimension, and the cube holds
that dimension.** -/
def InLockstep (s : Engine) : Prop :=
  ∀ id cube, s.dimensions.isReferencedBy id cube = true → ∃ x c,
    s.dimensions.get id = some x ∧ s.cubes[cube]? = some c ∧
      c.dimensionNamed x.dimension.name = some x.dimension

/-- Whether a cube's dimension is about to be a reference: read for its
promotion, or of a cube whose references are not recorded yet. -/
def pendingBacking (s : Engine) (cube name : String) : Bool :=
  match s.dimTopology with
  | none => false
  | some (.attaching c refs) =>
    c = cube ∧ refs.any fun id => (s.dimensions.get id).any fun x => x.dimension.name = name
  | some (.promoting c d) => c = cube ∧ d.name = name

/-- Whether a cube that is built with a dimension holds a copy of it. -/
def CopiesFaithfully (s : Engine) : CubeDimensionSpec → Prop
  | .inline _ => True
  | .ref id => ∀ x ∈ s.dimensions.get id, x.dimension.Copyable

instance (s : Engine) : DecidablePred s.CopiesFaithfully
  | .inline _ => inferInstanceAs (Decidable True)
  | .ref id => inferInstanceAs (Decidable (∀ x ∈ s.dimensions.get id, x.dimension.Copyable))

/-- Whether a cube's dimension is neither a reference nor about to be one. -/
def Embedded (s : Engine) (cube name : String) : Prop :=
  s.dimensions.backingOf cube name = none ∧ s.pendingBacking cube name = false

instance (s : Engine) (cube name : String) : Decidable (s.Embedded cube name) :=
  inferInstanceAs (Decidable (_ ∧ _))

/-- **What keeps references in lockstep**: a cube is created with references
to copyable dimensions only, and an edit that found its dimension embedded
finds it embedded still when it reaches the cube. -/
def Safe (s : Engine) : EngineCall → Prop
  | .createCube _ dims => ∀ spec ∈ dims, s.CopiesFaithfully spec
  | .nextCube => match s.registryEdit with
    | some (.embedded cube name _) => s.Embedded cube name
    | _ => True
  | _ => True

instance (s : Engine) (call : EngineCall) : Decidable (s.Safe call) := by
  unfold Safe
  split
  · infer_instance
  · split <;> infer_instance
  · infer_instance

/-! ## The invariant -/

/-- The change that a cube's copy of a dimension has yet to see. -/
def owed (edit : Option RegistryEdit) (id : DimensionId) (cube : String) : Option SharedChange :=
  match edit with
  | some (.fanOut f) => if f.id = id ∧ cube ∈ f.remaining then some f.change else none
  | _ => none

/-- A copy is the registry's dimension, or becomes it by the change it is
owed. -/
def UpTo (owed : Option SharedChange) (copy d : Dimension) : Prop :=
  match owed with
  | none => copy = d
  | some change => change.onDimension copy = .ok d

/-- **The invariant of the engine**, operations in flight included. -/
structure Sound (s : Engine) : Prop where
  /-- Registered dimensions are well formed, under their own ids. -/
  registered : ∀ id x, s.dimensions.get id = some x →
    x.id = id ∧ id < s.nextDimId ∧ x.dimension.WF
  known : ∀ id cube, s.dimensions.isReferencedBy id cube = true → ∃ x, s.Refers id cube x
  cubes : ∀ (name : String) (c : Cube), s.cubes[name]? = some c → c.WF
  /-- A cube references at most one dimension of a name. -/
  unique : ∀ cube id id' x x', s.Refers id cube x → s.Refers id' cube x' →
    x.dimension.name = x'.dimension.name → id = id'
  /-- The copy of every reference is up to date, or is owed a change. -/
  copies : ∀ id cube x, s.Refers id cube x → ∃ c d, s.cubes[cube]? = some c ∧
    c.dimensionNamed x.dimension.name = some d ∧ UpTo (owed s.registryEdit id cube) d x.dimension
  /-- A fan-out has only referencing cubes left, and the requested one among
  them. -/
  fanOut : ∀ f, s.registryEdit = some (.fanOut f) →
    (∀ cube ∈ f.remaining, ∃ x, s.Refers f.id cube x ∧ x.dimension.name = f.dimension) ∧
      f.remaining.Nodup ∧ ∀ cube, f.requested = some cube → cube ∈ f.remaining
  /-- A cube whose references are to be recorded has none yet, and holds
  their dimensions. -/
  attaching : ∀ cube refs, s.dimTopology = some (.attaching cube refs) →
    (∀ id x, ¬ s.Refers id cube x) ∧ ∃ c, s.cubes[cube]? = some c ∧
      (∀ id ∈ refs, ∃ x, s.dimensions.get id = some x ∧
        c.dimensionNamed x.dimension.name = some x.dimension) ∧
      ∀ id ∈ refs, ∀ id' ∈ refs, ∀ x x', s.dimensions.get id = some x →
        s.dimensions.get id' = some x' → x.dimension.name = x'.dimension.name → id = id'
  /-- A dimension to be registered is the cube's, and not a reference yet. -/
  promoting : ∀ cube d, s.dimTopology = some (.promoting cube d) →
    (∃ c, s.cubes[cube]? = some c ∧ c.dimensionNamed d.name = some d) ∧
      ∀ id x, s.Refers id cube x → x.dimension.name ≠ d.name

/-- With nothing in flight no copy is owed a change. -/
theorem Sound.inLockstep (hs : s.Sound) (hq : s.Quiescent) : s.InLockstep := by
  intro id cube h
  obtain ⟨x, hx⟩ := hs.known id cube h
  obtain ⟨c, d, hc, hd, hup⟩ := hs.copies id cube x hx
  rw [Option.isNone_iff_eq_none.1 hq.1] at hup
  exact ⟨x, c, hx.2, hc, hup ▸ hd⟩

theorem Sound.lt (hs : s.Sound) (h : s.Refers id cube x) : id < s.nextDimId :=
  (hs.registered id x h.2).2.1

/-! ## Backing -/

theorem Sound.backingOf_eq_none (hs : s.Sound) {name : String}
    (h : s.dimensions.backingOf cube name = none) :
    ∀ id x, s.Refers id cube x → x.dimension.name ≠ name := by
  intro id x hx hname
  rw [backingOf, List.findSome?_eq_none_iff] at h
  have := h (id, x) (FinMap.mem_toList.2 hx.2)
  rw [if_pos ⟨hname, by rw [(hs.registered id x hx.2).1]; exact hx.1⟩] at this
  cases this

theorem Sound.backingOf_eq_some (hs : s.Sound) {name : String}
    (h : s.dimensions.backingOf cube name = some id) :
    ∃ x, s.Refers id cube x ∧ x.dimension.name = name := by
  rw [backingOf] at h
  obtain ⟨⟨id', x⟩, hmem, h⟩ := List.exists_of_findSome?_eq_some h
  have hget : s.dimensions.get id' = some x := FinMap.mem_toList.1 hmem
  split_ifs at h with hcond
  cases h
  refine ⟨x, ⟨hcond.2, ?_⟩, hcond.1⟩
  rw [(hs.registered id' x hget).1]
  exact hget

/-! ## Steps on the registry -/

theorem lockTopology_ok {u : Unit} (h : s.lockTopology = .ok u) : s.dimTopology = none := by
  simpa [lockTopology, ite_error_eq_ok] using h

theorem lockRegistryEdit_ok {u : Unit} (h : s.lockRegistryEdit = .ok u) :
    s.registryEdit = none := by
  simpa [lockRegistryEdit, ite_error_eq_ok] using h

theorem invalid_eq_ok {α : Type} {y : Except ModelError α} {a : α} :
    invalid y = .ok a ↔ y = .ok a := mapError_eq_ok

/-- A registry with the same references keeps the invariant, while no
reference is being added. -/
theorem Sound.of_refers (hs : s.Sound) (htop : s.dimTopology = none) {r : DimensionRegistry}
    {n : Nat} (href : ∀ id cube, r.isReferencedBy id cube = true ↔
      s.dimensions.isReferencedBy id cube = true)
    (hget : ∀ id cube, s.dimensions.isReferencedBy id cube = true →
      r.get id = s.dimensions.get id)
    (hreg : ∀ id x, r.get id = some x → x.id = id ∧ id < n ∧ x.dimension.WF) :
    ({ s with dimensions := r, nextDimId := n } : Engine).Sound := by
  have hrefers : ∀ id cube x, Refers { s with dimensions := r, nextDimId := n } id cube x ↔
      s.Refers id cube x := by
    intro id cube x
    simp only [Refers, href]
    exact and_congr_right fun h => by rw [hget id cube h]
  exact
    { registered := hreg
      known := fun id cube h => by
        obtain ⟨x, hx⟩ := hs.known id cube ((href id cube).1 h)
        exact ⟨x, (hrefers id cube x).2 hx⟩
      cubes := hs.cubes
      unique := fun cube id id' x x' hx hx' =>
        hs.unique cube id id' x x' ((hrefers id cube x).1 hx) ((hrefers id' cube x').1 hx')
      copies := fun id cube x hx => hs.copies id cube x ((hrefers id cube x).1 hx)
      fanOut := fun f hf => by
        obtain ⟨hrem, hrest⟩ := hs.fanOut f hf
        refine ⟨fun cube hcube => ?_, hrest⟩
        obtain ⟨x, hx, hname⟩ := hrem cube hcube
        exact ⟨x, (hrefers f.id cube x).2 hx, hname⟩
      attaching := fun cube refs h => by
        rw [show s.dimTopology = _ from h] at htop
        cases htop
      promoting := fun cube d h => by
        rw [show s.dimTopology = _ from h] at htop
        cases htop }

theorem Sound.register (hs : s.Sound) {d : Dimension} (hd : d.WF) {s' : Engine}
    (h : s.registerDimension d = .ok s') : s'.Sound := by
  obtain ⟨⟨⟩, hlock, h⟩ := bind_eq_ok.1 h
  cases h
  refine hs.of_refers (lockTopology_ok hlock) (fun id cube => by rw [isReferencedBy_put])
    (fun id cube href => ?_) fun id x hx => ?_
  -- the new id is above every referenced one
  · obtain ⟨y, hy⟩ := hs.known id cube href
    rw [get_put]
    exact if_neg (hs.lt hy).ne'
  · rw [get_put] at hx
    split_ifs at hx with hid
    · cases hx
      exact ⟨hid, hid ▸ Nat.lt_succ_self _, hd⟩
    · obtain ⟨h1, h2, h3⟩ := hs.registered id x hx
      exact ⟨h1, h2.trans (Nat.lt_succ_self _), h3⟩

theorem Sound.delete (hs : s.Sound) {s' : Engine} (h : s.deleteDimension id = .ok s') :
    s'.Sound := by
  obtain ⟨⟨⟩, hlock, h⟩ := bind_eq_ok.1 h
  obtain ⟨old, -, h⟩ := bind_eq_ok.1 h
  rw [ite_error_eq_ok, ne_eq, Decidable.not_not] at h
  obtain ⟨hnone, h⟩ := h
  cases h
  have hfree : ∀ cube, s.dimensions.isReferencedBy id cube ≠ true := by
    intro cube href
    rw [← mem_referencing, hnone] at href
    cases href
  refine hs.of_refers (lockTopology_ok hlock) (fun other cube => ?_) (fun other cube href => ?_)
    fun other x hx => ?_
  · by_cases hid : id = other
    · subst hid
      refine iff_of_false ?_ (hfree cube)
      simp [isReferencedBy, refsOf, remove]
    · rw [isReferencedBy_remove hid]
  · rw [get_remove, if_neg]
    rintro rfl
    exact hfree cube href
  · rw [get_remove] at hx
    split_ifs at hx
    exact hs.registered other x hx

/-- A change of the registry owes itself to every referencing cube. -/
theorem Sound.changeShared (hs : s.Sound) (hedit : s.registryEdit = none)
    (htop : s.dimTopology = none) {change : SharedChange} {requested : Option String}
    (hreq : ∀ cube, requested = some cube → s.dimensions.isReferencedBy id cube = true)
    {s' : Engine} (h : s.changeShared id change requested = .ok s') : s'.Sound := by
  obtain ⟨old, hold, h⟩ := bind_eq_ok.1 h
  rw [okOr_eq_ok] at hold
  obtain ⟨next, hnext, h⟩ := bind_eq_ok.1 h
  cases h
  obtain ⟨hid, hchange⟩ := SharedChange.onShared_ok (invalid_eq_ok.1 hnext)
  obtain ⟨hoid, hlt, hwf⟩ := hs.registered id old hold
  obtain ⟨hwf', hname⟩ := SharedChange.onDimension_ok hwf hchange
  have hget : ∀ other, (s.dimensions.put next).get other =
      if id = other then some next else s.dimensions.get other := by
    intro other
    rw [get_put, hid, hoid]
  -- a reference is as before, up to the change of its dimension
  have hrefers : ∀ other cube x, (s.dimensions.put next).isReferencedBy other cube = true ∧
      (s.dimensions.put next).get other = some x → ∃ y, s.Refers other cube y ∧
        y.dimension.name = x.dimension.name ∧ (id = other → y = old ∧ x = next) ∧
        (id ≠ other → y = x) := by
    rintro other cube x ⟨href, hx⟩
    rw [isReferencedBy_put] at href
    rw [hget] at hx
    split_ifs at hx with heq
    · cases hx
      exact ⟨old, ⟨href, heq ▸ hold⟩, hname.symm, fun _ => ⟨rfl, rfl⟩, fun h => absurd heq h⟩
    · exact ⟨x, ⟨href, hx⟩, rfl, fun h => absurd h heq, fun _ => rfl⟩
  exact
    { registered := fun other x hx => by
        rw [hget] at hx
        split_ifs at hx with heq
        · cases hx
          exact ⟨(hid.trans hoid).trans heq, heq ▸ hlt, hwf'⟩
        · exact hs.registered other x hx
      known := fun other cube href => by
        have href' := href
        rw [isReferencedBy_put] at href'
        obtain ⟨y, hy⟩ := hs.known other cube href'
        by_cases heq : id = other
        · exact ⟨next, href, by rw [hget, if_pos heq]⟩
        · exact ⟨y, href, by rw [hget, if_neg heq]; exact hy.2⟩
      cubes := hs.cubes
      unique := fun cube i j x y hx hy hxy => by
        obtain ⟨x', hx', hxn, -⟩ := hrefers i cube x hx
        obtain ⟨y', hy', hyn, -⟩ := hrefers j cube y hy
        exact hs.unique cube i j x' y' hx' hy' (hxn.trans (hxy.trans hyn.symm))
      copies := fun other cube x hx => by
        obtain ⟨y, hy, hyn, heq, hne⟩ := hrefers other cube x hx
        obtain ⟨c, d, hc, hd, hup⟩ := hs.copies other cube y hy
        rw [hedit] at hup
        obtain rfl : d = y.dimension := hup
        refine ⟨c, y.dimension, hc, hyn ▸ hd, ?_⟩
        by_cases hother : id = other
        · obtain ⟨rfl, rfl⟩ := heq hother
          have hmem : cube ∈ s.dimensions.referencing id := by
            rw [mem_referencing, hother]
            exact hy.1
          simp only [owed, hother, true_and]
          rw [if_pos (hother ▸ hmem)]
          exact hchange
        · obtain rfl := hne hother
          simp only [owed, hother, false_and, if_false]
          rfl
      fanOut := fun f hf => by
        cases hf
        refine ⟨fun cube hcube => ?_, nodup_referencing, fun cube hcube => ?_⟩
        · rw [mem_referencing] at hcube
          exact ⟨next, ⟨by rw [isReferencedBy_put]; exact hcube, by rw [hget, if_pos rfl]⟩, rfl⟩
        · exact mem_referencing.2 (hreq cube hcube)
      attaching := fun cube refs h => by
        rw [show s.dimTopology = _ from h] at htop
        cases htop
      promoting := fun cube d h => by
        rw [show s.dimTopology = _ from h] at htop
        cases htop }

theorem Sound.editDimension (hs : s.Sound) {name : String} {edit : DimensionEdit} {s' : Engine}
    (h : s.editDimension cube name edit = .ok s') : s'.Sound := by
  obtain ⟨⟨⟩, hedit, h⟩ := bind_eq_ok.1 h
  obtain ⟨⟨⟩, htop, h⟩ := bind_eq_ok.1 h
  split at h
  · rename_i id hid
    refine hs.changeShared (lockRegistryEdit_ok hedit) (lockTopology_ok htop) ?_ h
    intro c hc
    cases hc
    obtain ⟨x, hx, -⟩ := hs.backingOf_eq_some hid
    exact hx.1
  · cases h
    have hnone := lockRegistryEdit_ok hedit
    exact
      { hs with
        copies := fun id c x hx => by
          have := hs.copies id c x hx
          rw [hnone] at this
          exact this
        fanOut := fun f hf => by cases hf }

/-! ## Creation and promotion -/

/-- The references of a new cube are registered, and its definitions are
taken from them in order. -/
theorem resolveDims_ok {r : DimensionRegistry} {dims : List CubeDimensionSpec}
    {defs : List DimensionDef} {refs : List DimensionId}
    (h : resolveDims r dims = .ok (defs, refs)) :
    (∀ id ∈ refs, .ref id ∈ dims) ∧ ∃ xs : List SharedDimension,
      List.Forall₂ (fun id x => r.get id = some x) refs xs ∧
      (xs.map SharedDimension.toDimensionDef).Sublist defs := by
  induction dims generalizing defs refs with
  | nil =>
    cases h
    exact ⟨by simp, [], List.Forall₂.nil, List.nil_sublist _⟩
  | cons spec dims ih =>
    cases spec with
    | inline dim =>
      obtain ⟨⟨defs', refs'⟩, hrest, h⟩ := bind_eq_ok.1 h
      cases h
      obtain ⟨hmem, xs, hxs, hsub⟩ := ih hrest
      exact ⟨fun id hid => List.mem_cons_of_mem _ (hmem id hid), xs, hxs, hsub.cons _⟩
    | ref id =>
      obtain ⟨x, hx, h⟩ := bind_eq_ok.1 h
      obtain ⟨⟨defs', refs'⟩, hrest, h⟩ := bind_eq_ok.1 h
      cases h
      rw [okOr_eq_ok] at hx
      obtain ⟨hmem, xs, hxs, hsub⟩ := ih hrest
      refine ⟨fun other hother => ?_, x :: xs, List.Forall₂.cons hx hxs, hsub.cons_cons _⟩
      rcases List.mem_cons.1 hother with rfl | hother
      · exact List.mem_cons_self
      · exact List.mem_cons_of_mem _ (hmem other hother)

/-- Definitions of distinct names come from distinct references. -/
theorem refs_of_names {r : DimensionRegistry} {refs : List DimensionId}
    {xs : List SharedDimension} (hxs : List.Forall₂ (fun id x => r.get id = some x) refs xs)
    (hn : (xs.map fun x => x.dimension.name).Nodup) {id id' : DimensionId} (hid : id ∈ refs)
    (hid' : id' ∈ refs) {x x' : SharedDimension} (hx : r.get id = some x)
    (hx' : r.get id' = some x') (hname : x.dimension.name = x'.dimension.name) : id = id' := by
  obtain ⟨i, hi⟩ := List.mem_iff_getElem?.1 hid
  obtain ⟨j, hj⟩ := List.mem_iff_getElem?.1 hid'
  obtain ⟨hlen, hget⟩ := forall₂_iff_getElem?.1 hxs
  have hat : ∀ (k : Nat) a y, refs[k]? = some a → r.get a = some y → xs[k]? = some y := by
    intro k a y hk hy
    have hlt := hlen ▸ (List.getElem?_eq_some_iff.1 hk).1
    have := hget k a _ hk (List.getElem?_eq_getElem hlt)
    rw [List.getElem?_eq_getElem hlt, ← this, hy]
  have hxi := hat i id x hi hx
  have hxj := hat j id' x' hj hx'
  have hnames : (xs.map fun x => x.dimension.name)[i]? =
      (xs.map fun x => x.dimension.name)[j]? := by
    rw [List.getElem?_map, List.getElem?_map, hxi, hxj, Option.map_some, Option.map_some, hname]
  have hlt : i < (xs.map fun x => x.dimension.name).length := by
    rw [List.length_map]
    exact (List.getElem?_eq_some_iff.1 hxi).1
  have hij := (List.getElem?_inj hlt hn).1 hnames
  exact Option.some.inj (hi.symm.trans (hij ▸ hj))

theorem createCube_ok {name : String} {defs : List DimensionDef} {s' : Engine}
    (h : s.createCube name defs = .ok s') : ∃ c, Cube.build name defs = .ok c ∧
      s.cubes[name]? = none ∧
      s' = { s with cubes := s.cubes.insert name c, folders := slug name :: s.folders } := by
  rw [Engine.createCube, ite_error_eq_ok] at h
  obtain ⟨c, hc, h⟩ := bind_eq_ok.1 h.2
  split at h
  · cases h
  · rename_i hfree
    rw [ite_error_eq_ok, Except.ok.injEq] at h
    refine ⟨c, invalid_eq_ok.1 hc, ?_, h.2.symm⟩
    -- a cube of this name would have this folder
    rcases hget : s.cubes[name]? with _ | old
    · rfl
    · rw [List.find?_eq_none] at hfree
      exact absurd (decide_eq_true rfl)
        (hfree name (List.mem_map.2 ⟨(name, old), FinMap.mem_toList.2 hget, rfl⟩))

theorem Sound.createCube (hs : s.Sound) {name : String} {dims : List CubeDimensionSpec}
    (hsafe : s.Safe (.createCube name dims)) {s' : Engine}
    (h : s.createCubeWithRefs name dims = .ok s') : s'.Sound := by
  obtain ⟨⟨⟩, hlock, h⟩ := bind_eq_ok.1 h
  obtain ⟨⟨defs, refs⟩, hres, h⟩ := bind_eq_ok.1 h
  obtain ⟨next, hnext, h⟩ := bind_eq_ok.1 h
  obtain ⟨c, hc, hnew, rfl⟩ := createCube_ok hnext
  obtain ⟨hmem, xs, hxs, hsub⟩ := resolveDims_ok hres
  cases h
  -- the cube is new, so nothing refers to it yet
  have hother : ∀ id cube x, s.Refers id cube x → name ≠ cube := by
    rintro id cube x hx rfl
    obtain ⟨c', d, hc', -⟩ := hs.copies id name x hx
    rw [hnew] at hc'
    cases hc'
  refine
    { registered := hs.registered
      known := hs.known
      cubes := fun n c' hn => by
        rw [FinMap.get_insert] at hn
        split_ifs at hn
        · cases hn
          exact Cube.WF.build hc
        · exact hs.cubes n c' hn
      unique := hs.unique
      copies := fun id cube x hx => by
        obtain ⟨c', d, hc', hd⟩ := hs.copies id cube x hx
        exact ⟨c', d, (FinMap.get_insert_of_ne (hother id cube x hx) c).trans hc', hd⟩
      fanOut := hs.fanOut
      attaching := fun cube refs' hatt => ?_
      promoting := fun cube d hpro => ?_ }
  · by_cases hempty : refs.isEmpty = true
    · rw [if_pos hempty] at hatt
      cases hatt
    · rw [if_neg hempty] at hatt
      cases hatt
      refine ⟨fun id x hx => hother id name x hx rfl, c, FinMap.get_insert_self _ _ _,
        fun id hid => ?_, fun id hid id' hid' x x' hx hx' => ?_⟩
      · obtain ⟨x, hx, hget⟩ : ∃ x ∈ xs, s.dimensions.get id = some x := by
          obtain ⟨i, hi⟩ := List.mem_iff_getElem?.1 hid
          obtain ⟨hlen, hget⟩ := forall₂_iff_getElem?.1 hxs
          have hlt := hlen ▸ (List.getElem?_eq_some_iff.1 hi).1
          exact ⟨xs[i], List.getElem_mem hlt,
            hget i id _ hi (List.getElem?_eq_getElem hlt)⟩
        refine ⟨x, hget, dimensionNamed_build hc ?_ (hs.registered id x hget).2.2 ?_⟩
        · exact hsub.subset (List.mem_map_of_mem hx)
        · exact hsafe (.ref id) (hmem id hid) x hget
      · refine refs_of_names hxs ?_ hid hid' hx hx'
        have hn := (Cube.build_ok hc).1
        have := (hsub.map DimensionDef.name).nodup hn
        rwa [List.map_map] at this
  · by_cases hempty : refs.isEmpty = true
    · rw [if_pos hempty] at hpro
      cases hpro
    · rw [if_neg hempty] at hpro
      cases hpro

theorem Sound.promote (hs : s.Sound) {name : String} {s' : Engine}
    (h : s.promoteDimension cube name = .ok s') : s'.Sound := by
  obtain ⟨⟨⟩, -, h⟩ := bind_eq_ok.1 h
  obtain ⟨c, hc, h⟩ := bind_eq_ok.1 h
  obtain ⟨d, hd, h⟩ := bind_eq_ok.1 h
  rw [okOr_eq_ok] at hc hd
  split at h
  · cases h
  · rename_i hnone
    cases h
    have hname := Cube.name_of_dimensionNamed hd
    exact
      { hs with
        attaching := fun cube refs h => by cases h
        promoting := fun cube' d' h => by
          cases h
          rw [hname]
          exact ⟨⟨c, hc, hd⟩, hs.backingOf_eq_none hnone⟩ }

/-- Recording the references of a cube that holds their dimensions. -/
theorem Sound.attach (hs : s.Sound) {refs : List DimensionId}
    (htop : s.dimTopology = some (.attaching cube refs)) :
    ({ s with
      dimensions := refs.foldl (fun r id => r.attach id cube) s.dimensions
      dimTopology := none } : Engine).Sound := by
  obtain ⟨hnone, c, hc, hcopies, hnames⟩ := hs.attaching cube refs htop
  obtain ⟨hget, href⟩ := attachAll s.dimensions cube refs
  have hrefers : ∀ id other x, (refs.foldl (fun r id => r.attach id cube)
      s.dimensions).isReferencedBy id other = true ∧
      (refs.foldl (fun r id => r.attach id cube) s.dimensions).get id = some x ↔
      s.Refers id other x ∨ (other = cube ∧ id ∈ refs ∧ s.dimensions.get id = some x) := by
    intro id other x
    rw [href, hget, Refers]
    tauto
  -- the cube is not in a fan-out, since it has no reference yet
  have howed : ∀ id, owed s.registryEdit id cube = none := by
    intro id
    unfold owed
    split
    · rename_i f hf
      rw [if_neg]
      rintro ⟨-, hmem⟩
      obtain ⟨x, hx, -⟩ := (hs.fanOut f hf).1 cube hmem
      exact hnone f.id x hx
    · rfl
  exact
    { registered := fun id x hx => hs.registered id x (by rwa [hget] at hx)
      known := fun id other h => by
        rcases (href id other).1 h with h | ⟨hid, rfl⟩
        · obtain ⟨x, hx⟩ := hs.known id other h
          exact ⟨x, (hrefers id other x).2 (Or.inl hx)⟩
        · obtain ⟨x, hx, -⟩ := hcopies id hid
          exact ⟨x, (hrefers id other x).2 (Or.inr ⟨rfl, hid, hx⟩)⟩
      cubes := hs.cubes
      unique := fun other id id' x x' hx hx' hxx => by
        rcases (hrefers id other x).1 hx with h | ⟨rfl, hid, h⟩
        · rcases (hrefers id' other x').1 hx' with h' | ⟨rfl, -, -⟩
          · exact hs.unique other id id' x x' h h' hxx
          · exact absurd h (hnone id x)
        · rcases (hrefers id' other x').1 hx' with h' | ⟨-, hid', h'⟩
          · exact absurd h' (hnone id' x')
          · exact hnames id hid id' hid' x x' h h' hxx
      copies := fun id other x hx => by
        rcases (hrefers id other x).1 hx with h | ⟨rfl, hid, h⟩
        · exact hs.copies id other x h
        · obtain ⟨y, hy, hcopy⟩ := hcopies id hid
          obtain rfl := Option.some.inj (hy.symm.trans h)
          refine ⟨c, y.dimension, hc, hcopy, ?_⟩
          rw [howed]
          rfl
      fanOut := fun f hf => by
        obtain ⟨hrem, hrest⟩ := hs.fanOut f hf
        refine ⟨fun other hother => ?_, hrest⟩
        obtain ⟨x, hx, hname⟩ := hrem other hother
        exact ⟨x, (hrefers f.id other x).2 (Or.inl hx), hname⟩
      attaching := fun other refs' h => by cases h
      promoting := fun other d h => by cases h }

/-- Registering the dimension of a cube, as a reference of the cube. -/
theorem Sound.registerPromoted (hs : s.Sound) {d : Dimension}
    (htop : s.dimTopology = some (.promoting cube d)) :
    ({ s with
      dimensions :=
        (s.dimensions.put (SharedDimension.new s.nextDimId d)).attach s.nextDimId cube
      nextDimId := s.nextDimId + 1
      dimTopology := none } : Engine).Sound := by
  obtain ⟨⟨c, hc, hd⟩, hnames⟩ := hs.promoting cube d htop
  have hwf := (hs.cubes cube c hc).dimensionNamed hd
  have hget : ∀ id, ((s.dimensions.put (SharedDimension.new s.nextDimId d)).attach
      s.nextDimId cube).get id =
        if s.nextDimId = id then some (SharedDimension.new s.nextDimId d)
        else s.dimensions.get id := fun id => get_put _
  have href : ∀ id other, ((s.dimensions.put (SharedDimension.new s.nextDimId d)).attach
      s.nextDimId cube).isReferencedBy id other = true ↔
        s.dimensions.isReferencedBy id other = true ∨ (id = s.nextDimId ∧ other = cube) := by
    intro id other
    rw [isReferencedBy_attach, isReferencedBy_put]
  have hrefers : ∀ id other x, ((s.dimensions.put (SharedDimension.new s.nextDimId d)).attach
      s.nextDimId cube).isReferencedBy id other = true ∧
      ((s.dimensions.put (SharedDimension.new s.nextDimId d)).attach s.nextDimId cube).get id =
        some x ↔ s.Refers id other x ∨
          (other = cube ∧ id = s.nextDimId ∧ x = SharedDimension.new s.nextDimId d) := by
    intro id other x
    rw [href, hget]
    constructor
    · rintro ⟨h | ⟨rfl, rfl⟩, hx⟩
      · obtain ⟨y, hy⟩ := hs.known id other h
        rw [if_neg (hs.lt hy).ne'] at hx
        exact Or.inl ⟨h, hx⟩
      · rw [if_pos rfl] at hx
        exact Or.inr ⟨rfl, rfl, (Option.some.inj hx).symm⟩
    · rintro (h | ⟨rfl, rfl, rfl⟩)
      · exact ⟨Or.inl h.1, by rw [if_neg (hs.lt h).ne']; exact h.2⟩
      · exact ⟨Or.inr ⟨rfl, rfl⟩, if_pos rfl⟩
  exact
    { registered := fun id x hx => by
        rw [hget] at hx
        split_ifs at hx with hid
        · cases hx
          exact ⟨hid, hid ▸ Nat.lt_succ_self _, hwf⟩
        · obtain ⟨h1, h2, h3⟩ := hs.registered id x hx
          exact ⟨h1, h2.trans (Nat.lt_succ_self _), h3⟩
      known := fun id other h => by
        rcases (href id other).1 h with h | ⟨rfl, rfl⟩
        · obtain ⟨x, hx⟩ := hs.known id other h
          exact ⟨x, (hrefers id other x).2 (Or.inl hx)⟩
        · exact ⟨_, (hrefers _ _ _).2 (Or.inr ⟨rfl, rfl, rfl⟩)⟩
      cubes := hs.cubes
      unique := fun other id id' x x' hx hx' hxx => by
        rcases (hrefers id other x).1 hx with h | ⟨rfl, rfl, rfl⟩
        · rcases (hrefers id' other x').1 hx' with h' | ⟨rfl, rfl, rfl⟩
          · exact hs.unique other id id' x x' h h' hxx
          · exact absurd hxx (hnames id x h)
        · rcases (hrefers id' other x').1 hx' with h' | ⟨-, rfl, -⟩
          · exact absurd hxx.symm (hnames id' x' h')
          · rfl
      copies := fun id other x hx => by
        rcases (hrefers id other x).1 hx with h | ⟨rfl, rfl, rfl⟩
        · exact hs.copies id other x h
        · refine ⟨c, d, hc, hd, ?_⟩
          -- the new id is not the one of a fan-out that has cubes left
          have howed : owed s.registryEdit s.nextDimId other = none := by
            unfold owed
            split
            · rename_i f hf
              rw [if_neg]
              rintro ⟨hid, hmem⟩
              obtain ⟨x, hx, -⟩ := (hs.fanOut f hf).1 other hmem
              exact (hs.lt hx).ne hid
            · rfl
          rw [howed]
          rfl
      fanOut := fun f hf => by
        obtain ⟨hrem, hrest⟩ := hs.fanOut f hf
        refine ⟨fun other hother => ?_, hrest⟩
        obtain ⟨x, hx, hname⟩ := hrem other hother
        exact ⟨x, (hrefers f.id other x).2 (Or.inl hx), hname⟩
      attaching := fun other refs h => by cases h
      promoting := fun other d h => by cases h }

theorem Sound.publish (hs : s.Sound) {s' : Engine} (h : s.publish = .ok s') : s'.Sound := by
  unfold Engine.publish at h
  split at h
  · cases h
  · rename_i cube refs htop
    cases h
    exact hs.attach htop
  · rename_i cube d htop
    cases h
    exact hs.registerPromoted htop

/-! ## The next cube -/

/-- A cube whose dimension of one name is changed, when every reference of it
to a dimension of that name is brought up to date. -/
theorem Sound.setCube (hs : s.Sound) {name : String} {c c' : Cube} {edit : Option RegistryEdit}
    (hc : s.cubes[cube]? = some c) (hwf : c'.WF)
    (hframe : ∀ other ≠ name, c'.dimensionNamed other = c.dimensionNamed other)
    (hpending : s.pendingBacking cube name = false)
    (hcopy : ∀ id x, s.Refers id cube x → x.dimension.name = name →
      c'.dimensionNamed name = some x.dimension ∧ owed edit id cube = none)
    (howed : ∀ id other x, s.Refers id other x → other ≠ cube ∨ x.dimension.name ≠ name →
      owed edit id other = owed s.registryEdit id other)
    (hfan : ∀ f, edit = some (.fanOut f) →
      (∀ cube ∈ f.remaining, ∃ x, s.Refers f.id cube x ∧ x.dimension.name = f.dimension) ∧
        f.remaining.Nodup ∧ ∀ cube, f.requested = some cube → cube ∈ f.remaining) :
    ({ s with cubes := s.cubes.insert cube c', registryEdit := edit } : Engine).Sound where
  registered := hs.registered
  known := hs.known
  cubes := fun n y hy => by
    rw [FinMap.get_insert] at hy
    split_ifs at hy
    · cases hy
      exact hwf
    · exact hs.cubes n y hy
  unique := hs.unique
  copies := fun id other x hx => by
    obtain ⟨y, d, hy, hd, hup⟩ := hs.copies id other x hx
    -- the changed cube holds the new copy, every other cube what it held
    by_cases hother : other = cube
    · subst hother
      obtain rfl := Option.some.inj (hc.symm.trans hy)
      by_cases hname : x.dimension.name = name
      · obtain ⟨hcopy', hnone⟩ := hcopy id x hx hname
        exact ⟨c', x.dimension, FinMap.get_insert_self _ _ _, hname ▸ hcopy', by rw [hnone]; rfl⟩
      · refine ⟨c', d, FinMap.get_insert_self _ _ _, (hframe _ hname).trans hd, ?_⟩
        rw [howed id other x hx (Or.inr hname)]
        exact hup
    · refine ⟨y, d, (FinMap.get_insert_of_ne (Ne.symm hother) _).trans hy, hd, ?_⟩
      rw [howed id other x hx (Or.inl hother)]
      exact hup
  fanOut := hfan
  attaching := fun other refs htop => by
    obtain ⟨hnone, y, hy, hcopies, hnames⟩ := hs.attaching other refs htop
    by_cases hother : other = cube
    · subst hother
      obtain rfl := Option.some.inj (hc.symm.trans hy)
      refine ⟨hnone, c', FinMap.get_insert_self _ _ _, fun id hid => ?_, hnames⟩
      obtain ⟨x, hx, hd⟩ := hcopies id hid
      refine ⟨x, hx, (hframe _ fun hname => ?_).trans hd⟩
      unfold pendingBacking at hpending
      rw [show s.dimTopology = _ from htop] at hpending
      simp only [true_and, decide_eq_false_iff_not, List.any_eq_true, not_exists,
        not_and] at hpending
      exact hpending id hid (by rw [hx]; simpa using hname)
    · exact ⟨hnone, y, (FinMap.get_insert_of_ne (Ne.symm hother) _).trans hy, hcopies, hnames⟩
  promoting := fun other d htop => by
    obtain ⟨⟨y, hy, hd⟩, hnames⟩ := hs.promoting other d htop
    refine ⟨?_, hnames⟩
    by_cases hother : other = cube
    · subst hother
      obtain rfl := Option.some.inj (hc.symm.trans hy)
      refine ⟨c', FinMap.get_insert_self _ _ _, (hframe _ fun hname => ?_).trans hd⟩
      unfold pendingBacking at hpending
      rw [show s.dimTopology = _ from htop] at hpending
      simp [hname] at hpending
    · exact ⟨y, (FinMap.get_insert_of_ne (Ne.symm hother) _).trans hy, hd⟩

theorem define_ok {name : String} {change : SharedChange} {s' : Engine}
    (h : s.define cube name change = .ok s') : ∃ c c', s.cubes[cube]? = some c ∧
      change.onCube c name = .ok c' ∧ s' = { s with cubes := s.cubes.insert cube c' } := by
  obtain ⟨c, hc, h⟩ := bind_eq_ok.1 h
  obtain ⟨c', hc', h⟩ := bind_eq_ok.1 h
  cases h
  exact ⟨c, c', okOr_eq_ok.1 hc, invalid_eq_ok.1 hc', rfl⟩

theorem Sound.release (hs : s.Sound) (hnone : ∀ id cube x, s.Refers id cube x →
    owed s.registryEdit id cube = none) : ({ s with registryEdit := none } : Engine).Sound :=
  { hs with
    copies := fun id cube x hx => by
      have := hs.copies id cube x hx
      rwa [hnone id cube x hx] at this
    fanOut := fun f hf => by cases hf }

/-- An embedded edit reaches a dimension that no reference names. -/
theorem Sound.embedded (hs : s.Sound) {name : String} {edit : DimensionEdit}
    (hedit : s.registryEdit = some (.embedded cube name edit))
    (hback : s.dimensions.backingOf cube name = none)
    (hpending : s.pendingBacking cube name = false) :
    (s.defineThen cube name (.edit edit) none).Sound := by
  have howed : ∀ id other, owed s.registryEdit id other = none := fun id other => by
    rw [hedit]
    rfl
  unfold defineThen
  split
  · rename_i next hnext
    obtain ⟨c, c', hc, hc', rfl⟩ := define_ok hnext
    have hwf := hs.cubes cube c hc
    refine hs.setCube hc (SharedChange.wf_onCube hwf hc')
      (fun other hne => SharedChange.dimensionNamed_editDimension hwf hc' hne) hpending
      (fun id x hx hname => absurd hname (hs.backingOf_eq_none hback id x hx))
      (fun id other x _ _ => (howed id other).symm) fun f hf => by cases hf
  · exact hs.release fun id other x _ => howed id other

/-- **The next cube of a fan-out takes the change**: it holds the dimension
from before, so it accepts. -/
theorem Sound.fanOutCube (hs : s.Sound) {f : FanOut} (hedit : s.registryEdit = some (.fanOut f))
    {rest : List String} (hrem : f.remaining = cube :: rest) :
    (s.defineThen cube f.dimension f.change
      (some (.fanOut (FanOut.after f cube rest)))).Sound := by
  obtain ⟨hleft, hnodup, hreq⟩ := hs.fanOut f hedit
  rw [hrem] at hleft hnodup hreq
  obtain ⟨x, hx, hname⟩ := hleft cube List.mem_cons_self
  obtain ⟨c, d, hc, hd, hup⟩ := hs.copies f.id cube x hx
  have howed : owed s.registryEdit f.id cube = some f.change := by
    rw [hedit, owed, if_pos ⟨rfl, hrem ▸ List.mem_cons_self⟩]
  rw [howed] at hup
  rw [hname] at hd
  obtain ⟨c', hc', hwf, hcopy, hframe⟩ :=
    SharedChange.onCube_of_onDimension (hs.cubes cube c hc) hd hup
  have hdefine : s.define cube f.dimension f.change =
      .ok { s with cubes := s.cubes.insert cube c' } := by
    simp only [define, hc, okOr, hc', invalid, Except.mapError, bind, Except.bind]
  -- a reference of this cube to a dimension of this name is the one changed
  have hself : ∀ id y, s.Refers id cube y → y.dimension.name = f.dimension → id = f.id := by
    intro id y hy hyn
    exact hs.unique cube id f.id y x hy hx (hyn.trans hname.symm)
  rw [List.nodup_cons] at hnodup
  simp only [defineThen, hdefine]
  refine hs.setCube hc hwf hframe ?_ (fun id y hy hyn => ?_) (fun id other y hy hne => ?_)
    fun f' hf' => ?_
  · unfold pendingBacking
    split
    · rfl
    · rename_i other refs htop
      have := (hs.attaching other refs htop).1 f.id x
      simp only [decide_eq_false_iff_not, not_and]
      rintro rfl
      exact absurd hx this
    · rename_i other d' htop
      have := (hs.promoting other d' htop).2 f.id x
      simp only [decide_eq_false_iff_not, not_and]
      rintro rfl hd'
      exact this hx (hname.trans hd'.symm)
  · obtain rfl := hself id y hy hyn
    obtain rfl : x = y := Option.some.inj (hx.2.symm.trans hy.2)
    refine ⟨hcopy, ?_⟩
    simp [owed, FanOut.after, hnodup.1]
  · rw [hedit]
    simp only [owed, FanOut.after, hrem, List.mem_cons]
    by_cases hid : f.id = id
    · have hother : other ≠ cube := by
        rintro rfl
        rcases hne with hne | hne
        · exact hne rfl
        · refine hne ?_
          obtain rfl : x = y := Option.some.inj (hx.2.symm.trans (hid ▸ hy.2))
          exact hname
      simp [hid, hother]
    · simp [hid]
  · cases hf'
    refine ⟨fun other hother => hleft other (List.mem_cons_of_mem _ hother), hnodup.2,
      fun other hother => ?_⟩
    simp only [FanOut.after] at hother ⊢
    split_ifs at hother with hcond
    rcases List.mem_cons.1 (hreq other hother) with rfl | hmem
    · exact absurd hother hcond
    · exact hmem

theorem Sound.nextCube (hs : s.Sound) (hsafe : s.Safe .nextCube) {s' : Engine}
    (h : s.nextCube = .ok s') : s'.Sound := by
  unfold Engine.nextCube at h
  split at h
  · cases h
  · rename_i cube name edit hedit
    cases h
    simp only [Safe, hedit] at hsafe
    exact hs.embedded hedit hsafe.1 hsafe.2
  · rename_i f hedit
    obtain ⟨hleft, -, hreq⟩ := hs.fanOut f hedit
    split at h
    · rename_i hrem
      split at h
      · cases h
        refine hs.release fun id cube x _ => ?_
        rw [hedit, owed, hrem]
        simp
      -- the requested cube is met before the end
      · rename_i cube hcube
        have := hreq cube hcube
        rw [hrem] at this
        cases this
    · rename_i cube rest hrem
      obtain ⟨x, hx, -⟩ := hleft cube (hrem ▸ List.mem_cons_self)
      obtain ⟨c, d, hc, -⟩ := hs.copies f.id cube x hx
      rw [hc] at h
      cases h
      exact hs.fanOutCube hedit hrem

/-! ## Runs -/

/-- **Step.** A section that keeps the references in lockstep keeps the
invariant. -/
theorem Sound.step (hs : s.Sound) {a : EngineCall} (hsafe : s.Safe a) {s' : Engine}
    (h : s.step a = .ok s') : s'.Sound := by
  cases a with
  | registerDimension d => exact hs.register d.2 h
  | createCube name dims => exact hs.createCube hsafe h
  | growDimension id elements edges =>
    obtain ⟨⟨⟩, hedit, h⟩ := bind_eq_ok.1 h
    obtain ⟨⟨⟩, htop, h⟩ := bind_eq_ok.1 h
    exact hs.changeShared (lockRegistryEdit_ok hedit) (lockTopology_ok htop)
      (fun cube hcube => by cases hcube) h
  | editDimension cube name edit => exact hs.editDimension h
  | promoteDimension cube name => exact hs.promote h
  | deleteDimension id => exact hs.delete h
  | nextCube => exact hs.nextCube hsafe h
  | publish => exact hs.publish h

/-- **An engine at rest with its references in order.** -/
structure Settled (s : Engine) : Prop where
  quiescent : s.Quiescent
  registered : ∀ id x, s.dimensions.get id = some x →
    x.id = id ∧ id < s.nextDimId ∧ x.dimension.WF
  cubes : ∀ (name : String) (c : Cube), s.cubes[name]? = some c → c.WF
  /-- A cube references at most one dimension of a name. -/
  unique : ∀ cube id id' x x', s.Refers id cube x → s.Refers id' cube x' →
    x.dimension.name = x'.dimension.name → id = id'
  lockstep : s.InLockstep

/-- A server that starts over stored cubes is at rest. -/
theorem settled_fromStores {cubes : FinMap String Cube} {cubesDir : Bool} {folders : List String}
    (h : ∀ (name : String) (c : Cube), cubes[name]? = some c → c.WF) :
    (fromStores cubes cubesDir folders).Settled where
  quiescent := ⟨rfl, rfl⟩
  registered := fun id x hx => by cases (FinMap.get_empty id).symm.trans hx
  cubes := h
  unique := fun cube id id' x x' hx => by cases (FinMap.get_empty id).symm.trans hx.2
  lockstep := fun id cube href => by
    simp [fromStores, empty, isReferencedBy, refsOf] at href

theorem Settled.sound (hs : s.Settled) : s.Sound := by
  have hedit := Option.isNone_iff_eq_none.1 hs.quiescent.1
  have htop := Option.isNone_iff_eq_none.1 hs.quiescent.2
  exact
    { registered := hs.registered
      known := fun id cube href => by
        obtain ⟨x, c, hx, -⟩ := hs.lockstep id cube href
        exact ⟨x, href, hx⟩
      cubes := hs.cubes
      unique := hs.unique
      copies := fun id cube x hx => by
        obtain ⟨y, c, hy, hc, hd⟩ := hs.lockstep id cube hx.1
        obtain rfl := Option.some.inj (hx.2.symm.trans hy)
        refine ⟨c, x.dimension, hc, hd, ?_⟩
        rw [hedit]
        rfl
      fanOut := fun f hf => by
        rw [hedit] at hf
        cases hf
      attaching := fun cube refs h => by
        rw [htop] at h
        cases h
      promoting := fun cube d h => by
        rw [htop] at h
        cases h }

/-- **Lockstep.** From an engine at rest, every interleaving of sections that
are safe ends, whenever nothing is in flight, with every reference holding
its registered dimension. -/
theorem inLockstep_of_run (s : Engine) (calls : List EngineCall) (hs : s.Settled)
    (hsafe : Meets step Safe s calls) (hq : (runCalls step s calls).Quiescent) :
    (runCalls step s calls).InLockstep :=
  (run_invariant (fun _ _ _ hI hc h => hI.step hc h) hs.sound hsafe).inLockstep hq

/-- An empty server with one dimension to register. -/
def region : { d : Dimension // d.WF } :=
  ⟨(Dimension.new "Region").addElement "North" .leaf, (Dimension.WF.new _).addElement _ _⟩

def emptyServer : Engine := fromStores ∅ true []

theorem settled_emptyServer : emptyServer.Settled :=
  settled_fromStores fun name _ h => absurd ((FinMap.get_empty name).symm.trans h) nofun

/-- Two cubes share a dimension, and a third is created between the sections
of an edit. -/
def sharedCalls : List EngineCall :=
  [.registerDimension region, .createCube "Sales" [.ref 1], .publish,
    .createCube "Costs" [.ref 1], .publish,
    .editDimension "Sales" "Region" (.insert "South" .leaf .atEnd), .nextCube,
    .createCube "Plan" [.ref 1], .nextCube, .publish, .nextCube]

theorem inLockstep_of_shared_calls : (runCalls step emptyServer sharedCalls).InLockstep :=
  inLockstep_of_run emptyServer sharedCalls settled_emptyServer (by decide +kernel)
    (by unfold Quiescent; decide +kernel)

/-- A cube that does not hold what it references. -/
theorem not_inLockstep (href : s.dimensions.isReferencedBy id cube = true)
    (h : ((s.dimensions.get id).any fun x => (s.cubes[cube]?).any fun c =>
      c.dimensionNamed x.dimension.name = some x.dimension) = false) : ¬ s.InLockstep := by
  intro hlock
  obtain ⟨x, c, hx, hc, hd⟩ := hlock id cube href
  simp [hx, hc, hd] at h

/-- A dimension is pinned in one cube, and another is created with it. -/
def pinnedCalls : List EngineCall :=
  [.registerDimension region, .createCube "Sales" [.ref 1], .publish,
    .editDimension "Sales" "Region" (.pinToTop "North"), .nextCube, .nextCube,
    .createCube "Costs" [.ref 1], .publish]

theorem not_inLockstep_of_pinned_calls : emptyServer.Settled ∧
    (runCalls step emptyServer pinnedCalls).Quiescent ∧
    ¬ (runCalls step emptyServer pinnedCalls).InLockstep := by
  refine ⟨settled_emptyServer, by unfold Quiescent; decide +kernel, ?_⟩
  exact not_inLockstep (show isReferencedBy _ 1 "Costs" = true by decide +kernel)
    (by decide +kernel)

/-- An edit of an embedded dimension that is promoted before it is reached. -/
example : ¬ (runCalls step emptyServer
    [.createCube "Sales" [.inline ⟨"Region", [("North", .leaf)], [], [], []⟩],
      .editDimension "Sales" "Region" (.insert "South" .leaf .atEnd),
      .promoteDimension "Sales" "Region", .publish, .nextCube]).InLockstep :=
  not_inLockstep (show isReferencedBy _ 1 "Sales" = true by decide +kernel) (by decide +kernel)

end Engine

end Epiphany
