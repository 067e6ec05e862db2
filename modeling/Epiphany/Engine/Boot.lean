import Epiphany.Core.DimensionText
import Epiphany.Engine.Lockstep
import Epiphany.Engine.Reconcile
/-!
# Boot — the registry restored, and each copy brought forward

The registry is saved before a change goes to the cubes, so a crash leaves
it ahead of the cubes that the change has not reached. At boot each
dimension is loaded, and its whole definition is appended again to every
cube that references it. This repairs an interrupted growth
(`reconciled_of_grow`), and an interrupted edit exactly when the edit only
appended (`reconciled_iff`).
-/

namespace Epiphany

/-! ## Files -/

/-- A registered dimension as it is saved: its line of the index, and the
document of its body. -/
structure StoredEntry where
  id : DimensionId
  generation : Nat
  references : List String
  body : DimDoc

structure RegistryEntry where
  id : DimensionId
  generation : Nat
  references : List String
  dimension : Dimension
deriving DecidableEq

/-- Why the registry was not brought up. -/
inductive BootError where
  | load (e : LoadError)
  /-- A cube that could not be brought forward. -/
  | reconcile (cube : String) (e : ModelError)

/-- Save the registry. -/
def DimensionRegistry.saved (r : DimensionRegistry) : List StoredEntry :=
  r.byId.toList.map fun e =>
    ⟨e.2.id, e.2.generation, r.referencing e.2.id, e.2.dimension.dimDoc⟩

def StoredEntry.load (e : StoredEntry) : Except LoadError RegistryEntry := do
  let dimension ← Dimension.buildDimension e.body
  .ok ⟨e.id, e.generation, e.references, dimension⟩

def loadRegistry (dir : List StoredEntry) : Except LoadError (List RegistryEntry) :=
  dir.mapM StoredEntry.load

namespace RegistryEntry

def shared (e : RegistryEntry) : SharedDimension := ⟨e.id, e.generation, e.dimension⟩

/-- Register a loaded dimension and its references. -/
def register (r : DimensionRegistry) (e : RegistryEntry) : DimensionRegistry :=
  e.references.foldl (fun r cube => r.attach e.id cube) (r.put e.shared)

/-- The whole definition, for every referencing cube. -/
def reconciles (e : RegistryEntry) : List (String × SharedDimension) :=
  e.references.map fun cube => (cube, e.shared)

end RegistryEntry

namespace Engine

/-- Append the definition of a dimension to one cube, if the cube exists. -/
def reconcileCube (cubes : FinMap String Cube) (r : String × SharedDimension) :
    Except BootError (FinMap String Cube) :=
  match cubes[r.1]? with
  | none => .ok cubes
  | some c => do
    let specs := defToSpecs r.2.toDimensionDef
    let (next, _) ← (c.extendSchema specs.1 specs.2).mapError (BootError.reconcile r.1)
    .ok (cubes.insert r.1 next)

/-- Load the registry from its files and bring every referencing cube
forward. -/
def tryWithDimensionsDir (s : Engine) (dir : List StoredEntry) : Except BootError Engine := do
  let entries ← (loadRegistry dir).mapError BootError.load
  let cubes ← (entries.flatMap RegistryEntry.reconciles).foldlM reconcileCube s.cubes
  .ok { s with
    dimensions := entries.foldl RegistryEntry.register DimensionRegistry.empty
    nextDimId := (entries.map RegistryEntry.id).foldl max 0 + 1
    cubes := cubes }

/-- A crash and the boot after it: the registry and the cubes are left as
they were saved, and no operation is in flight. -/
def restart (s : Engine) : Except BootError Engine :=
  (fromStores s.cubes s.cubesDir s.folders).tryWithDimensionsDir s.dimensions.saved

/-! ## The property -/

/-- **Every referencing cube has the registry's elements, order, kinds and
hierarchy.** -/
def Reconciled (s : Engine) : Prop :=
  ∀ id cube x c, s.Refers id cube x → s.cubes[cube]? = some c →
    ∃ d, c.dimensionNamed x.dimension.name = some d ∧ d.SameStructure x.dimension

/-- **What a boot repairs**: every copy is the registry's dimension but for
elements and edges missing at the end. -/
def Behind (s : Engine) : Prop :=
  ∀ id cube x c d, s.Refers id cube x → s.cubes[cube]? = some c →
    c.dimensionNamed x.dimension.name = some d → d.AppendedTo x.dimension

/-! ## The registry restored -/

end Engine

open DimensionRegistry

variable {entries : List RegistryEntry} {r : DimensionRegistry}

theorem get_register (e : RegistryEntry) (id : DimensionId) :
    (RegistryEntry.register r e).get id = if e.id = id then some e.shared else r.get id := by
  have h : ∀ (l : List String) (r : DimensionRegistry),
      (l.foldl (fun r cube => r.attach e.id cube) r).get id = r.get id := by
    intro l
    induction l with
    | nil => exact fun _ => rfl
    | cons c l ih => exact fun r => (ih _).trans rfl
  rw [RegistryEntry.register, h, get_put]
  rfl

theorem isReferencedBy_register (e : RegistryEntry) (id : DimensionId) (cube : String) :
    (RegistryEntry.register r e).isReferencedBy id cube = true ↔
      r.isReferencedBy id cube = true ∨ (id = e.id ∧ cube ∈ e.references) := by
  have h : ∀ (l : List String) (r : DimensionRegistry),
      (l.foldl (fun r cube => r.attach e.id cube) r).isReferencedBy id cube = true ↔
        r.isReferencedBy id cube = true ∨ (id = e.id ∧ cube ∈ l) := by
    intro l
    induction l with
    | nil => simp
    | cons c l ih =>
      intro r
      rw [List.foldl_cons, ih, isReferencedBy_attach, List.mem_cons]
      tauto
  rw [RegistryEntry.register, h, isReferencedBy_put]

/-- What a registry loaded from entries of distinct ids holds. -/
theorem get_restore (hids : (entries.map RegistryEntry.id).Nodup) {id : DimensionId}
    {x : SharedDimension} :
    (entries.foldl RegistryEntry.register r).get id = some x ↔
      (∃ e ∈ entries, e.id = id ∧ e.shared = x) ∨
        (id ∉ entries.map RegistryEntry.id ∧ r.get id = some x) := by
  induction entries generalizing r with
  | nil => simp
  | cons e entries ih =>
    rw [List.map_cons, List.nodup_cons] at hids
    rw [List.foldl_cons, ih hids.2, get_register]
    by_cases he : e.id = id
    · subst he
      have hnone : ∀ e' ∈ entries, e'.id ≠ e.id := fun e' he' heq =>
        hids.1 (heq ▸ List.mem_map_of_mem he')
      simp only [if_true, Option.some.injEq, List.map_cons, List.mem_cons, not_true,
        false_and, or_false, hids.1, not_false_eq_true, true_and, exists_eq_or_imp]
      constructor
      · rintro (⟨e', he', heq, -⟩ | h)
        · exact absurd heq (hnone e' he')
        · exact Or.inl h
      · rintro (h | ⟨e', he', heq, -⟩)
        · exact Or.inr h
        · exact absurd heq (hnone e' he')
    · simp [he, Ne.symm he]

theorem isReferencedBy_restore {id : DimensionId} {cube : String} :
    (entries.foldl RegistryEntry.register r).isReferencedBy id cube = true ↔
      r.isReferencedBy id cube = true ∨ ∃ e ∈ entries, e.id = id ∧ cube ∈ e.references := by
  induction entries generalizing r with
  | nil => simp
  | cons e entries ih =>
    rw [List.foldl_cons, ih, isReferencedBy_register]
    simp only [List.mem_cons, exists_eq_or_imp]
    tauto

/-- The entries as they are loaded. -/
def entriesOf (r : DimensionRegistry) : List RegistryEntry :=
  r.byId.toList.map fun e => ⟨e.1, e.2.generation, r.referencing e.1, e.2.dimension⟩

/-- What was saved is loaded, if anything is. -/
theorem loadRegistry_saved (hwf : ∀ id x, r.get id = some x → x.id = id ∧ x.dimension.WF)
    (h : loadRegistry r.saved = .ok entries) :
    entries = entriesOf r := by
  rw [loadRegistry, mapM_eq_ok, DimensionRegistry.saved, List.forall₂_map_left_iff] at h
  have hwf' : ∀ e ∈ r.byId.toList, e.2.id = e.1 ∧ e.2.dimension.WF := fun e he =>
    hwf e.1 e.2 (FinMap.mem_toList.1 he)
  rw [entriesOf]
  generalize r.byId.toList = l at h hwf' ⊢
  induction h with
  | nil => rfl
  | @cons e x l m hex _ ih =>
    obtain ⟨hid, hd⟩ := hwf' e List.mem_cons_self
    obtain ⟨d, hload, hx⟩ := bind_eq_ok.1 hex
    obtain ⟨rfl, -⟩ := (Dimension.buildDimension_dimDoc hd).1 hload
    cases hx
    rw [List.map_cons, ih fun y hy => hwf' y (List.mem_cons_of_mem _ hy), hid]

namespace Cube

variable {c c' : Cube}

/-- Appending a definition to a cube is appending it to the dimension of its
name. -/
theorem grow_of_extendSchema (hc : c.WF) {x : SharedDimension} {d : Dimension} {n : Nat}
    (hd : c.dimensionNamed x.dimension.name = some d)
    (h : c.extendSchema (defToSpecs x.toDimensionDef).1 (defToSpecs x.toDimensionDef).2 =
      .ok (c', n)) :
    ∃ d' b, d.grow (defToSpecs x.toDimensionDef).1 (defToSpecs x.toDimensionDef).2 = .ok (d', b) ∧
      c'.WF ∧ c'.dimensionNamed x.dimension.name = some d' ∧
      ∀ other ≠ x.dimension.name, c'.dimensionNamed other = c.dimensionNamed other := by
  obtain ⟨i, hi, rfl⟩ := dimensionNamed_eq_some.1 hd
  have hmap := dimensions_extendSchema hi (defToSpecs x.toDimensionDef).1
    (defToSpecs x.toDimensionDef).2
  -- a definition's parts name its dimension
  have hels : ((defToSpecs x.toDimensionDef).1.map (ElementSpec.stamp x.dimension.name)) =
      (defToSpecs x.toDimensionDef).1 := by
    simp only [defToSpecs, List.map_map]
    rfl
  have hedges : ((defToSpecs x.toDimensionDef).2.map (EdgeSpec.stamp x.dimension.name)) =
      (defToSpecs x.toDimensionDef).2 := by
    simp only [defToSpecs, List.map_map]
    rfl
  rw [hels, hedges, h] at hmap
  rcases hgrow : (c.dimension i).grow (defToSpecs x.toDimensionDef).1
    (defToSpecs x.toDimensionDef).2 with e | ⟨d', b⟩
  · rw [hgrow] at hmap
    cases hmap
  · rw [hgrow] at hmap
    have hname := (Dimension.grow_ok hgrow).name.trans (name_of_dimensionNamed hd)
    exact ⟨d', b, rfl, hc.extendSchema h, dimensionNamed_set hi hname (Except.ok.inj hmap)⟩

end Cube

namespace Engine

/-- One cube is brought forward in its dimension of one name. -/
theorem reconcileCube_ok {cubes cubes' : FinMap String Cube} {x : String × SharedDimension}
    (hwf : ∀ (name : String) (c : Cube), cubes[name]? = some c → c.WF)
    (hnamed : ∀ c : Cube, cubes[x.1]? = some c →
      ∃ d, c.dimensionNamed x.2.dimension.name = some d)
    (h : reconcileCube cubes x = .ok cubes') (cube : String) :
    (cubes[cube]? = none → cubes'[cube]? = none) ∧
      ∀ c : Cube, cubes[cube]? = some c → ∃ c' : Cube, cubes'[cube]? = some c' ∧ c'.WF ∧
        (∀ name, (x.1 = cube → x.2.dimension.name ≠ name) →
          c'.dimensionNamed name = c.dimensionNamed name) ∧
        (x.1 = cube → ∀ d, c.dimensionNamed x.2.dimension.name = some d →
          ∃ d' b, c'.dimensionNamed x.2.dimension.name = some d' ∧
            d.grow (defToSpecs x.2.toDimensionDef).1 (defToSpecs x.2.toDimensionDef).2 =
              .ok (d', b)) := by
  unfold reconcileCube at h
  split at h
  · rename_i hnone
    cases h
    refine ⟨id, fun c hc => ⟨c, hc, hwf cube c hc, fun _ _ => rfl, ?_⟩⟩
    rintro rfl
    cases hnone.symm.trans hc
  · rename_i c0 hc0
    obtain ⟨⟨next, n⟩, hnext, h⟩ := bind_eq_ok.1 h
    cases h
    rw [mapError_eq_ok] at hnext
    obtain ⟨d, hd⟩ := hnamed c0 hc0
    obtain ⟨d', b, hgrow, hwf', hd', hother⟩ :=
      Cube.grow_of_extendSchema (hwf _ _ hc0) hd hnext
    by_cases hcube : x.1 = cube
    · subst hcube
      refine ⟨fun hnone => ?_, fun c hc => ?_⟩
      · cases hnone.symm.trans hc0
      · obtain rfl := Option.some.inj (hc0.symm.trans hc)
        refine ⟨next, FinMap.get_insert_self _ _ _, hwf', fun name hname => ?_, fun _ e he => ?_⟩
        · exact hother name (Ne.symm (hname rfl))
        · obtain rfl := Option.some.inj (hd.symm.trans he)
          exact ⟨d', b, hd', hgrow⟩
    · rw [FinMap.get_insert_of_ne hcube]
      exact ⟨id, fun c hc => ⟨c, hc, hwf cube c hc, fun _ _ => rfl, fun h => absurd h hcube⟩⟩

/-- **Each copy is brought forward once.** -/
theorem foldlM_reconcileCube {cubes cubes' : FinMap String Cube}
    {l : List (String × SharedDimension)}
    (hwf : ∀ (name : String) (c : Cube), cubes[name]? = some c → c.WF)
    (hnodup : (l.map fun r => (r.1, r.2.dimension.name)).Nodup)
    (hnamed : ∀ r ∈ l, ∀ c : Cube, cubes[r.1]? = some c →
      ∃ d, c.dimensionNamed r.2.dimension.name = some d)
    (h : l.foldlM reconcileCube cubes = .ok cubes') (cube : String) :
    (cubes[cube]? = none → cubes'[cube]? = none) ∧
      ∀ c : Cube, cubes[cube]? = some c → ∃ c' : Cube, cubes'[cube]? = some c' ∧
        (∀ name, (∀ r ∈ l, r.1 = cube → r.2.dimension.name ≠ name) →
          c'.dimensionNamed name = c.dimensionNamed name) ∧
        ∀ r ∈ l, r.1 = cube → ∀ d, c.dimensionNamed r.2.dimension.name = some d →
          ∃ d' b, c'.dimensionNamed r.2.dimension.name = some d' ∧
            d.grow (defToSpecs r.2.toDimensionDef).1 (defToSpecs r.2.toDimensionDef).2 =
              .ok (d', b) := by
  induction l generalizing cubes with
  | nil =>
    cases h
    exact ⟨id, fun c hc => ⟨c, hc, fun _ _ => rfl, fun r hr => by cases hr⟩⟩
  | cons x l ih =>
    rw [List.map_cons, List.nodup_cons] at hnodup
    rw [List.foldlM_cons, bind_eq_ok] at h
    obtain ⟨mid, hmid, h⟩ := h
    have hstep := reconcileCube_ok hwf (hnamed x List.mem_cons_self) hmid
    -- a later entry is of another cube or another name
    have hlater : ∀ r ∈ l, x.1 = r.1 → x.2.dimension.name ≠ r.2.dimension.name :=
      fun r hr h1 h2 => hnodup.1 (List.mem_map.2 ⟨r, hr, Prod.ext h1.symm h2.symm⟩)
    have hback : ∀ (name : String) (c' : Cube), mid[name]? = some c' →
        ∃ c : Cube, cubes[name]? = some c := by
      intro name c' hc'
      rcases hc : cubes[name]? with _ | c
      · cases ((hstep name).1 hc).symm.trans hc'
      · exact ⟨c, rfl⟩
    obtain ⟨hnone, hsome⟩ := ih (fun name c' hc' => by
        obtain ⟨c, hc⟩ := hback name c' hc'
        obtain ⟨c'', hc'', hwf', -⟩ := (hstep name).2 c hc
        exact Option.some.inj (hc''.symm.trans hc') ▸ hwf')
      hnodup.2 (fun r hr c' hc' => by
        obtain ⟨c, hc⟩ := hback r.1 c' hc'
        obtain ⟨c'', hc'', -, hother, -⟩ := (hstep r.1).2 c hc
        obtain rfl := Option.some.inj (hc''.symm.trans hc')
        rw [hother _ (hlater r hr)]
        exact hnamed r (List.mem_cons_of_mem _ hr) c hc) h
    refine ⟨fun hc => hnone ((hstep cube).1 hc), fun c hc => ?_⟩
    obtain ⟨c1, hc1, -, hother1, hgrow1⟩ := (hstep cube).2 c hc
    obtain ⟨c2, hc2, hother2, hgrow2⟩ := hsome c1 hc1
    refine ⟨c2, hc2, fun name hname => ?_, fun r hr hcube d hd => ?_⟩
    · rw [hother2 name fun r hr => hname r (List.mem_cons_of_mem _ hr),
        hother1 name (hname x List.mem_cons_self)]
    · rcases List.mem_cons.1 hr with rfl | hr
      · obtain ⟨d', b, hd', hg⟩ := hgrow1 hcube d hd
        refine ⟨d', b, ?_, hg⟩
        rw [hother2 _ fun r' hr' h' => (hlater r' hr' (hcube.trans h'.symm)).symm]
        exact hd'
      · refine hgrow2 r hr hcube d ?_
        rw [hother1 _ fun h' => hlater r hr (h'.trans hcube.symm)]
        exact hd

variable {s e : Engine}

/-- What is brought forward: every reference, with its registered
dimension. -/
theorem mem_reconciles {x : String × SharedDimension} (hs : s.Sound) :
    x ∈ (entriesOf s.dimensions).flatMap RegistryEntry.reconciles ↔
      s.Refers x.2.id x.1 x.2 := by
  have hget : ∀ id y, (id, y) ∈ s.dimensions.byId.toList ↔ s.dimensions.get id = some y :=
    fun id y => FinMap.mem_toList
  simp only [entriesOf, List.mem_flatMap, List.mem_map, Prod.exists, RegistryEntry.reconciles,
    RegistryEntry.shared, Refers, hget]
  constructor
  · rintro ⟨_, ⟨id, y, hy, rfl⟩, cube, hcube, rfl⟩
    obtain ⟨hid, -, -⟩ := hs.registered id y hy
    refine ⟨mem_referencing.1 hcube, hy.trans ?_⟩
    cases y
    cases hid
    rfl
  · rintro ⟨href, hx⟩
    exact ⟨_, ⟨x.2.id, x.2, hx, rfl⟩, x.1, mem_referencing.2 href, rfl⟩

theorem nodup_entriesOf (r : DimensionRegistry) : ((entriesOf r).map RegistryEntry.id).Nodup := by
  rw [entriesOf, List.map_map]
  exact FinMap.nodup_keys r.byId

/-- No cube is brought forward twice in dimensions of one name. -/
theorem nodup_reconciles (hs : s.Sound) :
    (((entriesOf s.dimensions).flatMap RegistryEntry.reconciles).map
      fun r => (r.1, r.2.dimension.name)).Nodup := by
  refine List.Nodup.map_on (fun x hx y hy heq => ?_) (List.nodup_flatMap.2 ⟨fun e he => ?_, ?_⟩)
  · have hx' := (mem_reconciles hs).1 hx
    have hy' := (mem_reconciles hs).1 hy
    obtain ⟨hcube, hname⟩ := Prod.mk.inj heq
    rw [← hcube] at hy'
    have hid := hs.unique _ _ _ _ _ hx' hy' hname
    refine Prod.ext hcube (Option.some.inj (hx'.2.symm.trans ?_))
    rw [hid]
    exact hy'.2
  · obtain ⟨x, -, rfl⟩ := List.mem_map.1 he
    exact nodup_referencing.map fun a b h => (Prod.mk.inj h).1
  · have hids := nodup_entriesOf s.dimensions
    rw [List.Nodup, List.pairwise_map] at hids
    refine hids.imp fun {a b} hne => ?_
    rw [Function.onFun, List.disjoint_left]
    intro x hx hx'
    obtain ⟨_, -, rfl⟩ := List.mem_map.1 hx
    obtain ⟨_, -, heq⟩ := List.mem_map.1 hx'
    exact hne (congrArg SharedDimension.id (Prod.mk.inj heq).2).symm

/-- **What a restart leaves**: the references as they were, and each copy
grown by the whole definition of its dimension. -/
theorem restart_ok (hs : s.Sound) (h : s.restart = .ok e) :
    (∀ id cube x, e.Refers id cube x ↔ s.Refers id cube x) ∧
      ∀ id cube x (c : Cube) d, s.Refers id cube x → s.cubes[cube]? = some c →
        c.dimensionNamed x.dimension.name = some d → ∃ c' d' b, e.cubes[cube]? = some c' ∧
          c'.dimensionNamed x.dimension.name = some d' ∧
          d.grow (defToSpecs x.toDimensionDef).1 (defToSpecs x.toDimensionDef).2 =
            .ok (d', b) := by
  obtain ⟨entries, hload, h⟩ := bind_eq_ok.1 h
  rw [mapError_eq_ok] at hload
  obtain ⟨cubes, hcubes, h⟩ := bind_eq_ok.1 h
  cases h
  have hentries := loadRegistry_saved (fun id x hx => by
    obtain ⟨hid, -, hwf⟩ := hs.registered id x hx
    exact ⟨hid, hwf⟩) hload
  subst hentries
  constructor
  · intro id cube x
    have hempty : ∀ id, DimensionRegistry.empty.get id = none := fun id => FinMap.get_empty id
    have hnone : DimensionRegistry.empty.isReferencedBy id cube = false := by
      simp [isReferencedBy, refsOf, DimensionRegistry.empty]
    simp only [Refers, isReferencedBy_restore, get_restore (nodup_entriesOf s.dimensions), hempty,
      hnone, Bool.false_eq_true, false_or, reduceCtorEq, and_false, or_false]
    constructor
    · rintro ⟨⟨a, ha, rfl, href⟩, b, hb, hid, rfl⟩
      obtain rfl := List.inj_on_of_nodup_map (nodup_entriesOf s.dimensions) ha hb hid.symm
      exact (mem_reconciles hs (x := (cube, a.shared))).1
        (List.mem_flatMap.2 ⟨a, ha, List.mem_map.2 ⟨cube, href, rfl⟩⟩)
    · intro hx
      obtain ⟨hid, -, -⟩ := hs.registered id x hx.2
      have hmem := (mem_reconciles hs (x := (cube, x))).2 (hid.symm ▸ hx)
      obtain ⟨a, ha, h⟩ := List.mem_flatMap.1 hmem
      obtain ⟨_, href, heq⟩ := List.mem_map.1 h
      obtain ⟨rfl, rfl⟩ := Prod.mk.inj heq
      exact ⟨⟨a, ha, hid, href⟩, a, ha, hid, rfl⟩
  · intro id cube x c d hx hc hd
    obtain ⟨-, hsome⟩ := foldlM_reconcileCube hs.cubes (nodup_reconciles hs) (fun r hr c' hc' => by
      obtain ⟨c'', d', hc'', hd', -⟩ := hs.copies _ _ _ ((mem_reconciles hs).1 hr)
      obtain rfl := Option.some.inj (hc''.symm.trans hc')
      exact ⟨d', hd'⟩) hcubes cube
    obtain ⟨c', hc', -, hgrow⟩ := hsome c hc
    obtain ⟨hid, -, -⟩ := hs.registered id x hx.2
    obtain ⟨d', b, hd', hg⟩ := hgrow (cube, x) ((mem_reconciles hs).2 (hid.symm ▸ hx)) rfl d hd
    exact ⟨c', d', b, hc', hd', hg⟩

/-- **What a restart repairs**, whatever was in flight. -/
theorem Sound.reconciled_iff_behind (hs : s.Sound) (h : s.restart = .ok e) :
    e.Reconciled ↔ s.Behind := by
  obtain ⟨hrefers, hgrown⟩ := restart_ok hs h
  have hwf : ∀ id cube x (c : Cube) d, s.Refers id cube x → s.cubes[cube]? = some c →
      c.dimensionNamed x.dimension.name = some d → d.WF ∧ x.dimension.WF :=
    fun id cube x c d hx hc hd =>
      ⟨(hs.cubes cube c hc).dimensionNamed hd, (hs.registered id x hx.2).2.2⟩
  constructor
  · intro hrec id cube x c d hx hc hd
    obtain ⟨c', d', b, hc', hd', hgrow⟩ := hgrown id cube x c d hx hc hd
    obtain ⟨y, hy, hsame⟩ := hrec id cube x c' ((hrefers id cube x).2 hx) hc'
    obtain rfl := Option.some.inj (hd'.symm.trans hy)
    obtain ⟨hdwf, hxwf⟩ := hwf id cube x c d hx hc hd
    exact (Dimension.sameStructure_grow_iff hdwf hxwf hgrow).1 hsame
  · intro hbehind id cube x c' hx hc'
    rw [hrefers] at hx
    obtain ⟨c, d, hc, hd, -⟩ := hs.copies id cube x hx
    obtain ⟨c'', d', b, hc'', hd', hgrow⟩ := hgrown id cube x c d hx hc hd
    obtain rfl := Option.some.inj (hc''.symm.trans hc')
    obtain ⟨hdwf, hxwf⟩ := hwf id cube x c d hx hc hd
    exact ⟨d', hd', (Dimension.sameStructure_grow_iff hdwf hxwf hgrow).2
      (hbehind id cube x c d hx hc hd)⟩

/-! ## Interrupted changes -/

/-- Whether a call starts a growth or an edit. -/
def IsChange : EngineCall → Prop
  | .growDimension _ _ _ | .editDimension _ _ _ => True
  | _ => False

/-- A growth or an edit from its start to a crash: its first section, and the
cubes it reached. -/
def interrupted (s : Engine) (reached : Nat) : Engine :=
  runCalls step s (List.replicate reached .nextCube)

/-- **The change in flight**, and nothing beside it. -/
structure Changing (s : Engine) : Prop where
  sound : s.Sound
  dimTopology : s.dimTopology = none
  embedded : ∀ cube name edit, s.registryEdit = some (.embedded cube name edit) →
    s.dimensions.backingOf cube name = none

theorem defineThen_frame (cube name : String) (change : SharedChange)
    (edit : Option RegistryEdit) :
    (s.defineThen cube name change edit).dimTopology = s.dimTopology ∧
      ((s.defineThen cube name change edit).registryEdit = edit ∨
        (s.defineThen cube name change edit).registryEdit = none) := by
  unfold defineThen
  split
  · rename_i next hnext
    obtain ⟨c, c', -, -, rfl⟩ := define_ok hnext
    exact ⟨rfl, Or.inl rfl⟩
  · exact ⟨rfl, Or.inr rfl⟩

theorem nextCube_frame {s' : Engine} (h : s.nextCube = .ok s') :
    s'.dimTopology = s.dimTopology ∧ ∀ cube name edit,
      s'.registryEdit ≠ some (.embedded cube name edit) := by
  unfold nextCube at h
  split at h
  · cases h
  · cases h
    obtain ⟨h1, h2⟩ := defineThen_frame (s := s) _ _ _ none
    refine ⟨h1, fun _ _ _ heq => ?_⟩
    rcases h2 with h2 | h2 <;> cases h2.symm.trans heq
  · rename_i f _
    split at h
    · split at h
      · cases h
        exact ⟨rfl, fun _ _ _ heq => by cases heq⟩
      · cases h
        obtain ⟨h1, h2⟩ := defineThen_frame (s := s) _ f.dimension f.change none
        refine ⟨h1, fun _ _ _ heq => ?_⟩
        rcases h2 with h2 | h2 <;> cases h2.symm.trans heq
    · split_ifs at h
      · cases h
        exact ⟨rfl, fun _ _ _ heq => by cases heq⟩
      · cases h
        obtain ⟨h1, h2⟩ := defineThen_frame (s := s) _ f.dimension f.change _
        refine ⟨h1, fun _ _ _ heq => ?_⟩
        rcases h2 with h2 | h2 <;> cases h2.symm.trans heq

/-- **Step.** One more cube. -/
theorem Changing.nextCube (hs : s.Changing) {s' : Engine} (h : s.nextCube = .ok s') :
    s'.Changing := by
  have hsafe : s.Safe .nextCube := by
    unfold Safe
    split
    · cases ‹EngineCall.nextCube = _›
    · split
      · rename_i cube name edit hedit
        exact ⟨hs.embedded cube name edit hedit, by rw [pendingBacking, hs.dimTopology]⟩
      · trivial
    · trivial
  obtain ⟨h1, h2⟩ := nextCube_frame h
  exact ⟨hs.sound.nextCube hsafe h, h1.trans hs.dimTopology,
    fun cube name edit hedit => absurd hedit (h2 cube name edit)⟩

/-- A growth or an edit starts from rest. -/
theorem Settled.changing (hs : s.Settled) {a : EngineCall} (ha : IsChange a) {s' : Engine}
    (h : s.step a = .ok s') : s'.Changing := by
  have htop := Option.isNone_iff_eq_none.1 hs.quiescent.2
  cases a with
  | growDimension id elements edges =>
    have hsound : s'.Sound := hs.sound.step (show s.Safe (.growDimension _ _ _) from trivial) h
    obtain ⟨⟨⟩, -, h⟩ := bind_eq_ok.1 h
    obtain ⟨⟨⟩, -, h⟩ := bind_eq_ok.1 h
    obtain ⟨old, -, h⟩ := bind_eq_ok.1 h
    obtain ⟨next, -, h⟩ := bind_eq_ok.1 h
    cases h
    exact ⟨hsound, htop, fun cube name edit hedit => by cases hedit⟩
  | editDimension cube name edit =>
    have hsound : s'.Sound := hs.sound.step (show s.Safe (.editDimension _ _ _) from trivial) h
    obtain ⟨⟨⟩, -, h⟩ := bind_eq_ok.1 h
    obtain ⟨⟨⟩, -, h⟩ := bind_eq_ok.1 h
    split at h
    · obtain ⟨old, -, h⟩ := bind_eq_ok.1 h
      obtain ⟨next, -, h⟩ := bind_eq_ok.1 h
      cases h
      exact ⟨hsound, htop, fun cube name edit hedit => by cases hedit⟩
    · rename_i hback
      cases h
      refine ⟨hsound, htop, fun cube' name' edit' hedit => ?_⟩
      cases hedit
      exact hback
  | _ => exact absurd ha id

/-- **Run.** A change cut short at any cube is still a change in flight. -/
theorem Changing.interrupted (hs : s.Changing) (n : Nat) : (s.interrupted n).Changing := by
  refine run_invariant (fun t a next ht ha h => ?_) hs (meets_replicate step s .nextCube n)
  subst ha
  exact ht.nextCube h

/-- A change that only appends. -/
def Appends (change : SharedChange) : Prop :=
  ∀ d d' : Dimension, d.WF → change.onDimension d = .ok d' → d.AppendedTo d'

theorem appends_grow (elements : List ElementSpec) (edges : List EdgeSpec) :
    Appends (.grow elements edges) := by
  intro d d' hd h
  obtain ⟨⟨next, b⟩, hnext, h⟩ := bind_eq_ok.1 h
  cases h
  exact Dimension.appendedTo_of_grow hd hnext

/-- A copy that is owed a change that appends is behind by what it
appends. -/
theorem Sound.behind (hs : s.Sound)
    (h : ∀ f, s.registryEdit = some (.fanOut f) → Appends f.change) : s.Behind := by
  intro id cube x c d hx hc hd
  obtain ⟨c', d', hc', hd', hup⟩ := hs.copies id cube x hx
  obtain rfl := Option.some.inj (hc.symm.trans hc')
  obtain rfl := Option.some.inj (hd.symm.trans hd')
  rcases howed : owed s.registryEdit id cube with _ | change
  · rw [howed] at hup
    rw [show d = x.dimension from hup]
    exact Dimension.AppendedTo.refl _
  · rw [howed] at hup
    unfold owed at howed
    split at howed
    · rename_i f hf
      split_ifs at howed
      cases howed
      exact h f hf d _ ((hs.cubes cube c hc).dimensionNamed hd) hup
    · cases howed

theorem nextCube_change {s' : Engine} (h : s.nextCube = .ok s') {f' : FanOut}
    (hf' : s'.registryEdit = some (.fanOut f')) :
    ∃ f, s.registryEdit = some (.fanOut f) ∧ f'.change = f.change := by
  unfold Engine.nextCube at h
  split at h
  · cases h
  · cases h
    rcases (defineThen_frame (s := s) _ _ _ none).2 with h2 | h2 <;> cases h2.symm.trans hf'
  · rename_i f hf
    refine ⟨f, hf, ?_⟩
    split at h
    · split at h
      · cases h
        cases hf'
      · cases h
        rcases (defineThen_frame (s := s) _ f.dimension f.change none).2 with h2 | h2 <;>
          cases h2.symm.trans hf'
    · split_ifs at h
      · cases h
        cases hf'
        rfl
      · cases h
        rcases (defineThen_frame (s := s) _ f.dimension f.change _).2 with h2 | h2 <;>
          cases h2.symm.trans hf'
        rfl

/-- **An interrupted growth is repaired.** -/
theorem reconciled_of_grow {s' : Engine} {id : DimensionId} {elements : List ElementSpec}
    {edges : List EdgeSpec} (hs : s.Settled)
    (hstep : s.step (.growDimension id elements edges) = .ok s') (reached : Nat)
    (h : (s'.interrupted reached).restart = .ok e) : e.Reconciled := by
  have hchanging := hs.changing (a := .growDimension id elements edges) trivial hstep
  refine ((hchanging.interrupted reached).sound.reconciled_iff_behind h).2
    ((hchanging.interrupted reached).sound.behind ?_)
  have hstart : ∀ f, s'.registryEdit = some (.fanOut f) → Appends f.change := by
    intro f hf
    obtain ⟨⟨⟩, -, hstep⟩ := bind_eq_ok.1 hstep
    obtain ⟨⟨⟩, -, hstep⟩ := bind_eq_ok.1 hstep
    obtain ⟨old, -, hstep⟩ := bind_eq_ok.1 hstep
    obtain ⟨next, -, hstep⟩ := bind_eq_ok.1 hstep
    cases hstep
    cases hf
    exact appends_grow elements edges
  have hkept : ∀ t a next, (∀ f, t.registryEdit = some (.fanOut f) → Appends f.change) →
      a = EngineCall.nextCube → step t a = .ok next →
      ∀ f, next.registryEdit = some (.fanOut f) → Appends f.change := by
    rintro t _ next ht rfl hn f hf
    obtain ⟨f', hf', heq⟩ := nextCube_change hn hf
    rw [heq]
    exact ht f' hf'
  exact run_invariant hkept hstart (meets_replicate step s' .nextCube reached)

/-- **Boot reconciles** an interrupted growth or edit exactly when each copy
the crash left behind only lacks elements and edges at the end. -/
theorem reconciled_iff (s s' e : Engine) (a : EngineCall) (reached : Nat) (hs : s.Settled)
    (ha : IsChange a) (hstep : s.step a = .ok s')
    (h : (s'.interrupted reached).restart = .ok e) :
    e.Reconciled ↔ (s'.interrupted reached).Behind :=
  ((hs.changing ha hstep).interrupted reached).sound.reconciled_iff_behind h

/-! ## Cut short -/

/-- A server at rest is settled by its invariant. -/
theorem Sound.settled (hs : s.Sound) (hq : s.Quiescent) : s.Settled where
  quiescent := hq
  registered := hs.registered
  cubes := hs.cubes
  unique := hs.unique
  lockstep := hs.inLockstep hq

/-- A dimension of two leaves, shared by one cube. -/
def northSouth : { d : Dimension // d.WF } :=
  ⟨region.1.addElement "South" .leaf, region.2.addElement _ _⟩

def sharing : Engine :=
  runCalls step emptyServer [.registerDimension northSouth, .createCube "Sales" [.ref 1], .publish]

theorem settled_sharing : sharing.Settled :=
  (run_invariant (fun _ _ _ hI hc h => hI.step hc h) settled_emptyServer.sound
    (show Meets step Safe emptyServer
      [.registerDimension northSouth, .createCube "Sales" [.ref 1], .publish] by
      decide +kernel)).settled (by unfold Quiescent; decide +kernel)

/-- Whether a cube's copy of a registered dimension lists other elements. -/
def Differs (s : Engine) (id : DimensionId) (cube : String) : Bool :=
  s.dimensions.isReferencedBy id cube && (s.dimensions.get id).any fun x =>
    (s.cubes[cube]?).any fun c => (c.dimensionNamed x.dimension.name).any fun d =>
      d.signature ≠ x.dimension.signature

theorem not_reconciled {id : DimensionId} {cube : String} (h : s.Differs id cube = true) :
    ¬ s.Reconciled := by
  intro hrec
  obtain ⟨href, h⟩ := Bool.and_eq_true_iff.1 h
  obtain ⟨x, hx, h⟩ := (Option.any_eq_true _ _).1 h
  obtain ⟨c, hc, h⟩ := (Option.any_eq_true _ _).1 h
  obtain ⟨d, hd, h⟩ := (Option.any_eq_true _ _).1 h
  obtain ⟨d', hd', hsame⟩ := hrec id cube x c ⟨href, hx⟩ hc
  obtain rfl := Option.some.inj (hd.symm.trans hd')
  exact of_decide_eq_true h hsame.1

/-- A crash after the registry is reordered and before its cube is. -/
theorem not_reconciled_reordered : ∃ s' e : Engine, sharing.Settled ∧
    IsChange (.editDimension "Sales" "Region" (.reorder ["South", "North"])) ∧
    sharing.step (.editDimension "Sales" "Region" (.reorder ["South", "North"])) = .ok s' ∧
    (s'.interrupted 0).restart = .ok e ∧ ¬ e.Reconciled := by
  obtain ⟨s', hs', h⟩ := exists_ok_of_any (show ((sharing.step
    (.editDimension "Sales" "Region" (.reorder ["South", "North"]))).toOption.any fun s' =>
      (s'.interrupted 0).restart.toOption.any fun e => e.Differs 1 "Sales") = true by
    decide +kernel)
  obtain ⟨e, he, hdiffers⟩ := exists_ok_of_any h
  exact ⟨s', e, settled_sharing, trivial, hs', he, not_reconciled hdiffers⟩

/-- A crash between the registry's growth and its cube's. -/
theorem reconciled_iff_grown : ∃ s' e : Engine,
    sharing.step (.growDimension 1 [⟨"Region", "East", .leaf⟩] []) = .ok s' ∧
    (s'.interrupted 0).restart = .ok e ∧ (e.Reconciled ↔ (s'.interrupted 0).Behind) := by
  obtain ⟨s', hs', h⟩ := exists_ok_of_any (show ((sharing.step
    (.growDimension 1 [⟨"Region", "East", .leaf⟩] [])).toOption.any fun s' =>
      (s'.interrupted 0).restart.toOption.isSome) = true by decide +kernel)
  obtain ⟨e, he⟩ : ∃ e, (s'.interrupted 0).restart = .ok e := by
    rcases hr : (s'.interrupted 0).restart with err | e
    · rw [hr] at h
      cases h
    · exact ⟨e, rfl⟩
  exact ⟨s', e, hs', he, reconciled_iff sharing s' e
    (.growDimension 1 [⟨"Region", "East", .leaf⟩] []) 0 settled_sharing trivial hs' he⟩

end Engine

end Epiphany
