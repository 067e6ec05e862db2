import Epiphany.Common.Placement
import Epiphany.Flow.Ledger
/-!
# Migration — per-cube automations into the global set

An earlier layout kept flows, flow tests, connections and jobs with their
cubes. On the first boot each cube's objects are merged into one set, cube by
cube in the order of their names, an object whose name is taken under the
name with the cube's before it. Each of the four sections is a `Placement`,
so the migration loses nothing exactly when no such prefixed name is taken
as well (`carriesAll_iff`).
-/

namespace Epiphany

open Placement

/-! ## Automations -/

/-- Where a flow's input comes from. The specification of a connection is
opaque here. -/
inductive FlowInputBinding (Spec : Type) where
  | global
  | «local» (spec : Spec)

structure FlowInput (Spec : Type) where
  name : String
  binding : FlowInputBinding Spec

structure Flow (Spec : Type) where
  name : String
  source : String
  owner : Option String
  defaultCube : Option String
  inputs : List (FlowInput Spec)

structure TestCell where
  coord : FinMap String String
  value : String

structure FlowTest where
  name : String
  flow : String
  input : String
  inputs : FinMap String String
  cube : Option String
  params : FinMap String String
  assertions : List TestCell

structure Connection (Spec : Type) where
  name : String
  spec : Spec

/-- The automation objects, each section keyed by name. -/
structure Automation (Spec : Type) where
  flows : FinMap String (Flow Spec)
  flowTests : FinMap String FlowTest
  connections : FinMap String (Connection Spec)
  jobs : FinMap String Job

namespace Automation

variable {Spec V : Type}

def empty : Automation Spec := ⟨∅, ∅, ∅, ∅⟩

/-- The key of a migrated object: its name, or the name with the cube's
before it when the name is taken. -/
def uniqueKey (map : FinMap String V) (name cube : String) : String :=
  if map.contains name then cube ++ "_" ++ name else name

/-- Lift one object, which learns its key. -/
def lift (cube : String) (f : String → V → V) (map : FinMap String V) (e : String × V) :
    FinMap String V :=
  map.insert (uniqueKey map e.1 cube) (f (uniqueKey map e.1 cube) e.2)

/-- Stamp the defaults of a migrated flow. -/
def stamp (cube : String) (firstAdmin : Option String) (flow : Flow Spec) : Flow Spec :=
  { flow with
    defaultCube := flow.defaultCube <|> some cube
    owner := flow.owner <|> firstAdmin }

/-- Lift one flow, and record how it was renamed. -/
def liftFlow (cube : String) (firstAdmin : Option String)
    (st : FinMap String (Flow Spec) × FinMap String String) (e : String × Flow Spec) :
    FinMap String (Flow Spec) × FinMap String String :=
  let key := uniqueKey st.1 e.1 cube
  (st.1.insert key { stamp cube firstAdmin e.2 with name := key },
    if key ≠ e.1 then st.2.insert e.1 key else st.2)

/-- A reference to a flow, after the renaming. -/
def follow (flowRename : FinMap String String) (flow : String) : String :=
  (flowRename[flow]?).getD flow

/-- Merge one cube's automation into the global set. -/
def mergeLegacy (merged legacy : Automation Spec) (cube : String) (firstAdmin : Option String) :
    Automation Spec :=
  let (flows, flowRename) :=
    legacy.flows.toList.foldl (liftFlow cube firstAdmin) (merged.flows, ∅)
  { flows
    flowTests := legacy.flowTests.toList.foldl
      (lift cube fun key test => { test with flow := follow flowRename test.flow, name := key })
      merged.flowTests
    connections := legacy.connections.toList.foldl
      (lift cube fun key conn => { conn with name := key }) merged.connections
    jobs := legacy.jobs.toList.foldl
      (lift cube fun key job => { job with steps := job.steps.map (follow flowRename), name := key })
      merged.jobs }

def isEmpty (a : Automation Spec) : Bool :=
  a.flows.isEmpty && a.flowTests.isEmpty && a.connections.isEmpty && a.jobs.isEmpty

/-- One cube of the scan at boot. -/
def mergeCube (firstAdmin : Option String) (merged : Automation Spec)
    (c : String × Automation Spec) : Automation Spec :=
  if c.2.isEmpty then merged else mergeLegacy merged c.2 c.1 firstAdmin

/-- The scan at boot, over the cubes in the order of their names. -/
def mergeCubes (cubes : FinMap String (Automation Spec)) (firstAdmin : Option String) :
    Automation Spec :=
  cubes.toList.foldl (mergeCube firstAdmin) empty

/-! ## What should be kept -/

/-- Every object of a section is found under a key of its own, as `f` leaves
it, and no two under one key. -/
structure Carries (cubes : FinMap String (Automation Spec))
    (part : Automation Spec → FinMap String V) (out : FinMap String V)
    (K : String → String → String) (f : String → Automation Spec → String → V → V) : Prop where
  found : ∀ cube a name v, cubes[cube]? = some a → (part a)[name]? = some v →
    out[K cube name]? = some (f cube a (K cube name) v)
  apart : ∀ cube a name cube' a' name', cubes[cube]? = some a → (part a).contains name →
    cubes[cube']? = some a' → (part a').contains name' → K cube name = K cube' name' →
    cube = cube' ∧ name = name'

/-- What a cube's reference should name: the key of its own flow, and any
other name as it was. -/
def reference (a : Automation Spec) (K : String → String) (flow : String) : String :=
  if a.flows.contains flow then K flow else flow

/-- The keys of the four sections, by cube and name. -/
structure Keys where
  flows : String → String → String
  flowTests : String → String → String
  connections : String → String → String
  jobs : String → String → String

/-- **Nothing is lost.** -/
structure CarriesAll (cubes : FinMap String (Automation Spec)) (firstAdmin : Option String)
    (merged : Automation Spec) (K : Keys) : Prop where
  flows : Carries cubes flows merged.flows K.flows fun cube _ key flow =>
    { stamp cube firstAdmin flow with name := key }
  flowTests : Carries cubes flowTests merged.flowTests K.flowTests fun cube a key test =>
    { test with flow := reference a (K.flows cube) test.flow, name := key }
  connections : Carries cubes connections merged.connections K.connections fun _ _ key conn =>
    { conn with name := key }
  jobs : Carries cubes jobs merged.jobs K.jobs fun cube a key job =>
    { job with steps := job.steps.map (reference a (K.flows cube)), name := key }

/-- Each name, or where it is taken the prefixed one, is free at its turn. -/
def NamesFree : List String → List (String × String) → Prop
  | _, [] => True
  | taken, (cube, name) :: rest =>
    let key := if name ∈ taken then cube ++ "_" ++ name else name
    key ∉ taken ∧ NamesFree (key :: taken) rest

instance NamesFree.decidable (taken : List String) (names : List (String × String)) :
    Decidable (NamesFree taken names) :=
  match names with
  | [] => inferInstanceAs (Decidable True)
  | (cube, name) :: rest =>
    have : Decidable (NamesFree ((if name ∈ taken then cube ++ "_" ++ name else name) :: taken)
        rest) := NamesFree.decidable _ rest
    inferInstanceAs (Decidable (_ ∧ _))

/-- The names of a section, in the order of the scan. -/
def names (cubes : List (String × Automation Spec))
    (part : Automation Spec → FinMap String V) : List (String × String) :=
  cubes.flatMap fun c => (part c.2).toList.map fun e => (c.1, e.1)

/-- In each section, no name is taken together with its prefixed form. -/
def KeysFree (cubes : FinMap String (Automation Spec)) : Prop :=
  NamesFree [] (names cubes.toList flows) ∧ NamesFree [] (names cubes.toList flowTests) ∧
    NamesFree [] (names cubes.toList connections) ∧ NamesFree [] (names cubes.toList jobs)

instance (cubes : FinMap String (Automation Spec)) : Decidable (KeysFree cubes) :=
  inferInstanceAs (Decidable (_ ∧ _))

/-! ## The sections as placements -/

/-- The key chosen for an object, by its cube and name. -/
def chosenKey (map : FinMap String V) (i : String × String) : String := uniqueKey map i.2 i.1

/-- The objects of a section, in the order of the scan. -/
def objects (cubes : List (String × Automation Spec))
    (part : Automation Spec → FinMap String V) : List ((String × String) × V) :=
  cubes.flatMap fun c => (part c.2).toList.map fun e => ((c.1, e.1), e.2)

variable {cubes : List (String × Automation Spec)} {part : Automation Spec → FinMap String V}
  {value : String → String × String → V → V}

theorem map_fst_objects : (objects cubes part).map Prod.fst = names cubes part := by
  rw [objects, names, List.map_flatMap]
  refine List.flatMap_congr fun c _ => ?_
  rw [List.map_map]
  rfl

theorem mem_names {i : String × String} :
    i ∈ names cubes part ↔ ∃ a, (i.1, a) ∈ cubes ∧ (part a).contains i.2 = true := by
  obtain ⟨cube, name⟩ := i
  simp only [names, List.mem_flatMap, List.mem_map, Prod.exists, Prod.mk.injEq,
    Std.ExtTreeMap.contains_eq_isSome_getElem?, Option.isSome_iff_exists]
  constructor
  · rintro ⟨c, a, hc, n, v, hv, rfl, rfl⟩
    exact ⟨a, hc, v, FinMap.mem_toList.1 hv⟩
  · rintro ⟨a, hc, v, hv⟩
    exact ⟨cube, a, hc, name, v, FinMap.mem_toList.2 hv, rfl, rfl⟩

theorem nodup_names (hcubes : (cubes.map Prod.fst).Nodup) : (names cubes part).Nodup := by
  refine List.nodup_flatMap.2 ⟨fun c _ => ?_, ?_⟩
  · have hnodup := (FinMap.nodup_keys (part c.2)).map (f := fun n => (c.1, n))
      fun _ _ h => (Prod.mk.inj h).2
    rwa [List.map_map] at hnodup
  · rw [List.Nodup, List.pairwise_map] at hcubes
    refine hcubes.imp fun {c c'} hne => ?_
    rw [Function.onFun, List.disjoint_left]
    intro i hi hi'
    obtain ⟨_, _, rfl⟩ := List.mem_map.1 hi
    obtain ⟨_, _, heq⟩ := List.mem_map.1 hi'
    exact hne (Prod.mk.inj heq).1.symm

/-- The condition on names is the freshness of the placement. -/
theorem fresh_iff_namesFree {m : FinMap String V} {l : List ((String × String) × V)}
    {taken : List String} (htaken : ∀ k, k ∈ taken ↔ m.contains k = true) :
    Fresh chosenKey value m l ↔ NamesFree taken (l.map Prod.fst) := by
  induction l generalizing m taken with
  | nil => exact Iff.rfl
  | cons x l ih =>
    obtain ⟨⟨cube, name⟩, v⟩ := x
    have hkey : chosenKey m (cube, name) =
        if name ∈ taken then cube ++ "_" ++ name else name := by
      rw [chosenKey, uniqueKey]
      simp only [htaken]
    have hfree : m[chosenKey m (cube, name)]? = none ↔ chosenKey m (cube, name) ∉ taken := by
      rw [htaken, Std.ExtTreeMap.contains_eq_isSome_getElem?, Option.isSome_iff_ne_none,
        not_not]
    rw [Fresh, List.map_cons, NamesFree]
    simp only [← hkey]
    refine and_congr hfree (ih fun k => ?_)
    simp only [place, List.mem_cons, htaken, Std.ExtTreeMap.contains_eq_isSome_getElem?,
      FinMap.get_insert]
    split_ifs with hk
    · simp [hk]
    · simp [Ne.symm hk]

/-- **Lossless.** A section carries everything when its names are free. -/
theorem carries_of_fresh {cubes : FinMap String (Automation Spec)}
    {f : String → Automation Spec → String → V → V}
    (hf : ∀ cube a name v k, cubes[cube]? = some a → (part a)[name]? = some v →
      value k (cube, name) v = f cube a k v)
    (h : Fresh chosenKey value ∅ (objects cubes.toList part)) :
    Carries cubes part (placeAll chosenKey value ∅ (objects cubes.toList part))
      (fun cube name => (keyOf chosenKey value ∅ (objects cubes.toList part)
        (cube, name)).getD name) f := by
  have hkey : ∀ cube a name, cubes[cube]? = some a → (part a).contains name = true →
      ∃ k, keyOf chosenKey value ∅ (objects cubes.toList part) (cube, name) = some k := by
    intro cube a name ha hname
    refine keyOf_isSome ?_
    rw [map_fst_objects]
    exact mem_names.2 ⟨a, FinMap.mem_toList.2 ha, hname⟩
  constructor
  · intro cube a name v ha hv
    obtain ⟨k, hk⟩ := hkey cube a name ha
      (by rw [Std.ExtTreeMap.contains_eq_isSome_getElem?, hv]; rfl)
    have hmem : ((cube, name), v) ∈ objects cubes.toList part :=
      List.mem_flatMap.2 ⟨(cube, a), FinMap.mem_toList.2 ha,
        List.mem_map.2 ⟨(name, v), FinMap.mem_toList.2 hv, rfl⟩⟩
    have hnodup : ((objects cubes.toList part).map Prod.fst).Nodup := by
      rw [map_fst_objects]
      exact nodup_names (FinMap.nodup_keys _)
    simp only [hk, Option.getD_some]
    rw [get_placeAll h hnodup hmem hk, hf cube a name v k ha hv]
  · intro cube a name cube' a' name' ha hname ha' hname' heq
    obtain ⟨k, hk⟩ := hkey cube a name ha hname
    obtain ⟨k', hk'⟩ := hkey cube' a' name' ha' hname'
    simp only [hk, hk', Option.getD_some] at heq
    exact Prod.mk.inj (keyOf_inj h hk (heq ▸ hk'))

/-- **Lossy.** A section whose names are not free has fewer entries than
objects. -/
theorem fresh_of_carries {cubes : FinMap String (Automation Spec)} {K : String → String → String}
    {f : String → Automation Spec → String → V → V}
    (h : Carries cubes part (placeAll chosenKey value ∅ (objects cubes.toList part)) K f) :
    Fresh chosenKey value ∅ (objects cubes.toList part) := by
  by_contra hfresh
  have hlt := size_placeAll_lt chosenKey value hfresh
  have hnodup : ((names cubes.toList part).map fun i => K i.1 i.2).Nodup := by
    refine List.Nodup.map_on (fun i hi j hj heq => ?_) (nodup_names (FinMap.nodup_keys _))
    obtain ⟨a, ha, hi⟩ := mem_names.1 hi
    obtain ⟨b, hb, hj⟩ := mem_names.1 hj
    obtain ⟨h1, h2⟩ := h.apart _ _ _ _ _ _ (FinMap.mem_toList.1 ha) hi (FinMap.mem_toList.1 hb)
      hj heq
    exact Prod.ext h1 h2
  have hle := length_le_size hnodup fun k hk => by
    obtain ⟨i, hi, rfl⟩ := List.mem_map.1 hk
    obtain ⟨a, ha, hi⟩ := mem_names.1 hi
    rw [Std.ExtTreeMap.contains_eq_isSome_getElem?] at hi
    obtain ⟨v, hv⟩ := Option.isSome_iff_exists.1 hi
    rw [h.found _ _ _ _ (FinMap.mem_toList.1 ha) hv]
    exact Option.some_ne_none _
  rw [List.length_map, ← map_fst_objects, List.length_map] at hle
  rw [Std.ExtTreeMap.size_empty] at hlt
  omega

theorem fresh_objects : Fresh chosenKey value ∅ (objects cubes part) ↔
    NamesFree [] (names cubes part) := by
  rw [← map_fst_objects]
  exact fresh_iff_namesFree (by simp)

/-! ## The merge -/

/-- What a placement does to a flow. -/
def flowValue (firstAdmin : Option String) (key : String) (i : String × String)
    (flow : Flow Spec) : Flow Spec := { stamp i.1 firstAdmin flow with name := key }

/-- A cube's objects of one section. -/
def own (cube : String) (map : FinMap String V) : List ((String × String) × V) :=
  map.toList.map fun e => ((cube, e.1), e.2)

theorem objects_cons (c : String × Automation Spec) :
    objects (c :: cubes) part = own c.1 (part c.2) ++ objects cubes part := rfl

theorem objects_singleton (c : String × Automation Spec) :
    objects [c] part = own c.1 (part c.2) := List.append_nil _

theorem foldl_lift {cube : String} {f : String → V → V} {map : FinMap String V}
    {l : List (String × V)} (hf : ∀ key name v, value key (cube, name) v = f key v) :
    l.foldl (lift cube f) map =
      placeAll chosenKey value map (l.map fun e => ((cube, e.1), e.2)) := by
  rw [placeAll, List.foldl_map]
  congr 1
  funext map e
  rw [lift, place, hf]
  rfl

/-- The pass over a cube's flows: where they are placed, and for each name
the key to follow. -/
theorem foldl_liftFlow (cube : String) (firstAdmin : Option String)
    (map : FinMap String (Flow Spec)) (flowRename : FinMap String String)
    {l : List (String × Flow Spec)} (hl : (l.map Prod.fst).Nodup)
    (hr : ∀ name ∈ l.map Prod.fst, flowRename[name]? = none) :
    (l.foldl (liftFlow cube firstAdmin) (map, flowRename)).1 =
        placeAll chosenKey (flowValue firstAdmin) map (l.map fun e => ((cube, e.1), e.2)) ∧
      ∀ name, follow (l.foldl (liftFlow cube firstAdmin) (map, flowRename)).2 name =
        (keyOf chosenKey (flowValue firstAdmin) map (l.map fun e => ((cube, e.1), e.2))
          (cube, name)).getD (follow flowRename name) := by
  induction l generalizing map flowRename with
  | nil => exact ⟨rfl, fun _ => rfl⟩
  | cons e l ih =>
    rw [List.map_cons, List.nodup_cons] at hl
    have hhead : flowRename[e.1]? = none := hr e.1 List.mem_cons_self
    have hne : ∀ name, name ≠ e.1 →
        (if uniqueKey map e.1 cube ≠ e.1 then flowRename.insert e.1 (uniqueKey map e.1 cube)
          else flowRename)[name]? = flowRename[name]? := by
      intro name hname
      split_ifs
      · exact FinMap.get_insert_of_ne (Ne.symm hname) _
      · rfl
    obtain ⟨hplaced, hfollow⟩ := ih (liftFlow cube firstAdmin (map, flowRename) e).1
      (liftFlow cube firstAdmin (map, flowRename) e).2 hl.2 fun name hname => by
        rw [liftFlow, hne name fun heq => hl.1 (heq ▸ hname)]
        exact hr name (List.mem_cons_of_mem _ hname)
    refine ⟨hplaced, fun name => (hfollow name).trans ?_⟩
    rw [List.map_cons, keyOf]
    by_cases hname : name = e.1
    · -- its own key, recorded when it is another name
      subst hname
      have hnone : (e.1 : String) ∉ l.map Prod.fst := hl.1
      rw [if_pos rfl, keyOf_eq_none (by simpa [Function.comp_def] using hnone)]
      simp only [Option.getD_none, Option.getD_some, follow, liftFlow, chosenKey]
      split_ifs with hkey
      · rw [FinMap.get_insert_self]
        rfl
      · rw [hhead]
        exact (not_not.1 hkey).symm
    · rw [if_neg fun heq => hname (Prod.mk.inj heq).2.symm]
      have : follow (liftFlow cube firstAdmin (map, flowRename) e).2 name =
          follow flowRename name := by
        rw [follow, liftFlow, hne name hname, follow]
      rw [this]
      rfl

/-- What a placement does to a flow test and to a job, `resolve` giving the
key of a cube's flow. -/
def testValue (resolve : String → String → String) (key : String) (i : String × String)
    (test : FlowTest) : FlowTest := { test with flow := resolve i.1 test.flow, name := key }

def jobValue (resolve : String → String → String) (key : String) (i : String × String)
    (job : Job) : Job := { job with steps := job.steps.map (resolve i.1), name := key }

def connectionValue (key : String) (_ : String × String) (conn : Connection Spec) :
    Connection Spec := { conn with name := key }

/-- The four placements. -/
def placeCubes (firstAdmin : Option String) (resolve : String → String → String)
    (merged : Automation Spec) (cubes : List (String × Automation Spec)) : Automation Spec where
  flows := placeAll chosenKey (flowValue firstAdmin) merged.flows (objects cubes flows)
  flowTests := placeAll chosenKey (testValue resolve) merged.flowTests (objects cubes flowTests)
  connections := placeAll chosenKey connectionValue merged.connections (objects cubes connections)
  jobs := placeAll chosenKey (jobValue resolve) merged.jobs (objects cubes jobs)

theorem toList_of_isEmpty {map : FinMap String V} (h : map.isEmpty = true) : map.toList = [] := by
  rw [← List.isEmpty_iff, Std.ExtTreeMap.isEmpty_toList]
  exact h

theorem mergeLegacy_eq {firstAdmin : Option String} {resolve : String → String → String}
    {merged a : Automation Spec} {cube : String}
    (hresolve : ∀ name, resolve cube name =
      (keyOf chosenKey (flowValue firstAdmin) merged.flows (own cube a.flows) (cube, name)).getD
        name) :
    mergeLegacy merged a cube firstAdmin = placeCubes firstAdmin resolve merged [(cube, a)] := by
  obtain ⟨hflows, hfollow⟩ := foldl_liftFlow cube firstAdmin merged.flows ∅
    (FinMap.nodup_keys a.flows) fun _ _ => FinMap.get_empty _
  have hrename : ∀ name, follow (a.flows.toList.foldl (liftFlow cube firstAdmin)
      (merged.flows, ∅)).2 name = resolve cube name := by
    intro name
    rw [hfollow, hresolve, own]
    have hself : follow (∅ : FinMap String String) name = name := by
      rw [follow, FinMap.get_empty]
      rfl
    rw [hself]
  simp only [mergeLegacy, placeCubes, objects_singleton]
  congr 1
  · exact foldl_lift fun key name test => by simp only [testValue, hrename]
  · exact foldl_lift fun key name conn => by simp only [connectionValue]
  · exact foldl_lift fun key name job => by simp only [jobValue, funext hrename]

theorem mergeCube_eq {firstAdmin : Option String} {resolve : String → String → String}
    {merged : Automation Spec} {c : String × Automation Spec}
    (hresolve : ∀ name, resolve c.1 name =
      (keyOf chosenKey (flowValue firstAdmin) merged.flows (own c.1 c.2.flows)
        (c.1, name)).getD name) :
    mergeCube firstAdmin merged c = placeCubes firstAdmin resolve merged [c] := by
  rw [mergeCube, ← mergeLegacy_eq hresolve]
  split_ifs with hempty
  · -- a cube without objects changes nothing
    simp only [isEmpty, Bool.and_eq_true] at hempty
    obtain ⟨⟨⟨h1, h2⟩, h3⟩, h4⟩ := hempty
    simp only [mergeLegacy, toList_of_isEmpty h1, toList_of_isEmpty h2, toList_of_isEmpty h3,
      toList_of_isEmpty h4, List.foldl_nil]
  · rfl

theorem placeCubes_cons {firstAdmin : Option String} {resolve : String → String → String}
    {merged : Automation Spec} {c : String × Automation Spec} :
    placeCubes firstAdmin resolve (placeCubes firstAdmin resolve merged [c]) cubes =
      placeCubes firstAdmin resolve merged (c :: cubes) := by
  simp only [placeCubes, objects_cons, placeAll_append]
  congr 1

/-- The scan is the four placements, with the keys of the flows followed. -/
theorem foldl_mergeCube {firstAdmin : Option String} {resolve : String → String → String}
    {merged : Automation Spec} (hcubes : (cubes.map Prod.fst).Nodup)
    (hresolve : ∀ c ∈ cubes, ∀ name, resolve c.1 name =
      (keyOf chosenKey (flowValue firstAdmin) merged.flows (objects cubes flows)
        (c.1, name)).getD name) :
    cubes.foldl (mergeCube firstAdmin) merged = placeCubes firstAdmin resolve merged cubes := by
  induction cubes generalizing merged with
  | nil => rfl
  | cons c cubes ih =>
    rw [List.map_cons, List.nodup_cons] at hcubes
    have hother : ∀ cube name, cube ∉ cubes.map Prod.fst →
        (cube, name) ∉ (objects cubes flows).map Prod.fst := by
      intro cube name hcube hmem
      rw [map_fst_objects] at hmem
      obtain ⟨a, ha, -⟩ := mem_names.1 hmem
      exact hcube (List.mem_map.2 ⟨_, ha, rfl⟩)
    have hc : ∀ name, resolve c.1 name =
        (keyOf chosenKey (flowValue firstAdmin) merged.flows (own c.1 c.2.flows)
          (c.1, name)).getD name := by
      intro name
      rw [hresolve c List.mem_cons_self, objects_cons]
      by_cases hown : (c.1, name) ∈ (own c.1 c.2.flows).map Prod.fst
      · rw [keyOf_append_left hown]
      · rw [keyOf_append_right hown, keyOf_eq_none (hother _ _ hcubes.1), keyOf_eq_none hown]
    rw [List.foldl_cons, mergeCube_eq hc, ih hcubes.2, placeCubes_cons]
    intro c' hc' name
    rw [hresolve c' (List.mem_cons_of_mem _ hc'), objects_cons]
    have hown : (c'.1, name) ∉ (own c.1 c.2.flows).map Prod.fst := by
      intro hmem
      simp only [own, List.map_map, List.mem_map, Function.comp_apply, Prod.mk.injEq] at hmem
      obtain ⟨_, _, heq, _⟩ := hmem
      exact hcubes.1 (heq ▸ List.mem_map_of_mem hc')
    rw [keyOf_append_right hown]
    simp only [placeCubes, objects_singleton]

/-- Where a cube's flow went; any other name stays. -/
def followed (cubes : FinMap String (Automation Spec)) (firstAdmin : Option String)
    (cube name : String) : String :=
  (keyOf chosenKey (flowValue firstAdmin) ∅ (objects cubes.toList flows) (cube, name)).getD name

theorem followed_eq {cubes : FinMap String (Automation Spec)} {firstAdmin : Option String}
    {cube : String} {a : Automation Spec} (ha : cubes[cube]? = some a) (name : String) :
    followed cubes firstAdmin cube name = reference a (followed cubes firstAdmin cube) name := by
  rw [reference]
  split_ifs with hname
  · rfl
  · -- a name the cube has no flow under is nobody's key
    rw [followed, keyOf_eq_none]
    · rfl
    · rw [map_fst_objects, mem_names]
      rintro ⟨b, hb, hname'⟩
      obtain rfl := Option.some.inj (ha.symm.trans (FinMap.mem_toList.1 hb))
      exact hname hname'

theorem mergeCubes_eq (cubes : FinMap String (Automation Spec)) (firstAdmin : Option String) :
    mergeCubes cubes firstAdmin =
      placeCubes firstAdmin (followed cubes firstAdmin) empty cubes.toList :=
  foldl_mergeCube (FinMap.nodup_keys cubes) fun _ _ _ => rfl

theorem keysFree_of_carriesAll {cubes : FinMap String (Automation Spec)}
    {firstAdmin : Option String} {K : Keys}
    (h : CarriesAll cubes firstAdmin (mergeCubes cubes firstAdmin) K) : KeysFree cubes := by
  rw [mergeCubes_eq] at h
  exact ⟨fresh_objects.1 (fresh_of_carries h.flows),
    fresh_objects.1 (fresh_of_carries h.flowTests),
    fresh_objects.1 (fresh_of_carries h.connections), fresh_objects.1 (fresh_of_carries h.jobs)⟩

/-- **Migrating loses nothing** exactly when in no section a name is taken
together with its prefixed form. -/
theorem carriesAll_iff (cubes : FinMap String (Automation Spec)) (firstAdmin : Option String) :
    (∃ K, CarriesAll cubes firstAdmin (mergeCubes cubes firstAdmin) K) ↔ KeysFree cubes := by
  constructor
  · rintro ⟨K, h⟩
    exact keysFree_of_carriesAll h
  · rintro ⟨h1, h2, h3, h4⟩
    rw [mergeCubes_eq]
    refine ⟨⟨followed cubes firstAdmin, _, _, _⟩,
      carries_of_fresh (fun _ _ _ _ _ _ _ => rfl) (fresh_objects.2 h1),
      carries_of_fresh (fun cube a name test k ha _ => ?_) (fresh_objects.2 h2),
      carries_of_fresh (fun _ _ _ _ _ _ _ => rfl) (fresh_objects.2 h3),
      carries_of_fresh (fun cube a name job k ha _ => ?_) (fresh_objects.2 h4)⟩
    · rw [testValue, followed_eq ha]
    · have hresolve : followed cubes firstAdmin cube =
          reference a (followed cubes firstAdmin cube) := funext (followed_eq ha)
      simp only [jobValue]
      rw [← hresolve]

/-- The automation of a cube with these flows only. -/
def ofFlows (flows : List (String × String)) : Automation Unit where
  flows := FinMap.collect (flows.map fun e => (e.1, ⟨e.1, e.2, none, none, []⟩))
  flowTests := ∅
  connections := ∅
  jobs := ∅

/-- Two cubes with a flow of one name each; the first has one under the
prefixed name of the second's too. -/
def crossing : FinMap String (Automation Unit) :=
  FinMap.collect
    [("A", ofFlows [("load", "import a"), ("B_load", "import b")]),
      ("B", ofFlows [("load", "import c")])]

/-- Of the three flows of `crossing` one is lost. -/
theorem not_carriesAll_crossing : ¬ ∃ K, CarriesAll crossing none (mergeCubes crossing none) K := by
  rintro ⟨K, h⟩
  exact (by decide +kernel : ¬ KeysFree crossing) (keysFree_of_carriesAll h)

end Automation

end Epiphany
