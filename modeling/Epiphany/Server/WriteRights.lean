import Epiphany.Server.NamedWrites
/-!
# Rights of writes — what a commit may change

The commit of a sandbox is checked when it comes and writes what the sandbox
holds when it is made: what was checked is written within the rights of the
committer (`sandboxRights_run`). Writes to cells that a rule computes are
refused when a cell, a batch or a spread is resolved, and not asked about in
an outcome or in the commit of a sandbox; what is committed under the rules it
was resolved under leaves these cells alone (`keepsCovered_run`).
-/

namespace Epiphany

open Calc

namespace Cube

variable {c c' : Cube} {writes : List CellWrite} {a : Coord}

/-- What a batch leaves at a coordinate is what is there. -/
def keepsNumber (c : Cube) (writes : List CellWrite) (a : Coord) : Bool :=
  (lastNumber writes a).getD (c.leafValue a) = c.leafValue a

def keepsText (c : Cube) (writes : List CellWrite) (a : Coord) : Bool :=
  match lastText writes a with
  | some s => (if s = "" then none else some s) = c.textAt a
  | none => true

theorem Wrote.keepsNumber (h : Wrote c writes c') (ha : InRange c.dimensions a) :
    c.keepsNumber writes a = true ↔ c'.leafValue a = c.leafValue a := by
  unfold Cube.keepsNumber
  rw [decide_eq_true_eq, h.number a ha]

theorem Wrote.keepsText (h : Wrote c writes c') (ha : InRange c.dimensions a) :
    c.keepsText writes a = true ↔ c'.textAt a = c.textAt a := by
  unfold Cube.keepsText
  rw [h.text a ha]
  cases lastText writes a with
  | none => simp
  | some s => exact decide_eq_true_iff

/-- Writes that are accepted are at coordinates of the cube. -/
theorem inRange_of_applyWrites {c c' : Cube} {writes : List CellWrite}
    (h : c.applyWrites writes = .ok c') : ∀ w ∈ writes, InRange c.dimensions w.coord := by
  induction writes generalizing c with
  | nil =>
    intro w hw
    cases hw
  | cons write writes ih =>
    obtain ⟨next, hnext, h⟩ := bind_eq_ok.1 h
    intro w hw
    rcases List.mem_cons.1 hw with rfl | hw
    · cases w with
      | leaf coord value =>
        obtain ⟨⟨⟩, hcheck, -⟩ := bind_eq_ok.1 hnext
        exact (checkLeafWrite_eq_ok.1 hcheck).inRange
      | str coord value =>
        obtain ⟨⟨⟩, hcheck, -⟩ := bind_eq_ok.1 hnext
        exact (checkStringWrite_eq_ok.1 hcheck).inRange
    · rw [← (dimensions_applyWrite hnext).1]
      exact ih h w hw

/-- A number that is left by a batch was written by it. -/
theorem mem_of_lastNumber {writes : List CellWrite} {v : Fixed}
    (h : lastNumber writes a = some v) : CellWrite.leaf a v ∈ writes := by
  induction writes with
  | nil => cases h
  | cons write writes ih =>
    rw [lastNumber_cons write writes, Option.or_eq_some_iff] at h
    rcases h with h | ⟨-, h⟩
    · exact List.mem_cons_of_mem _ (ih h)
    · cases write with
      | leaf coord value =>
        simp only [lastNumber, List.foldl_cons, List.foldl_nil] at h
        split_ifs at h with hcoord
        cases h
        rw [hcoord]
        exact List.mem_cons_self
      | str coord value => cases h

end Cube

/-! ## Sandboxes -/

/-- The dimensions and the members of a coordinate, by name. -/
def Cube.membersAt (c : Cube) (a : Coord) : List (String × Option String) :=
  a.zipIdx.map fun x =>
    ((c.dimension x.2).name, ((c.dimension x.2).elements[x.1]?).map Element.name)

/-- Whether a caller may write a cell by the lists of its members. -/
def SecurityStore.mayWrite (s : SecurityStore) (caller : Principal) (c : Cube) (a : Coord) : Bool :=
  match s.principal caller.username with
  | some p => p.isAdmin || s.coordWritable p c.name c a
  | none => false

/-- The right to a cell is a matter of the names of its members. -/
theorem SecurityStore.mayWrite_congr {s : SecurityStore} {caller : Principal} {c c' : Cube}
    {a : Coord} (hname : c'.name = c.name) (hmembers : c'.membersAt a = c.membersAt a) :
    s.mayWrite caller c' a = s.mayWrite caller c a := by
  have hcoord : ∀ (p : Principal) (c : Cube), s.coordWritable p c.name c a =
      (c.membersAt a).all fun x =>
        x.2.elim false fun element => s.elementWritable p c.name x.1 element := by
    intro p c
    unfold coordWritable Cube.membersAt
    rw [List.all_map]
    refine List.all_congr rfl fun x => ?_
    cases h : (c.dimension x.2).elements[x.1]? with
    | none => simp only [Function.comp_apply, h, Option.map_none, Option.elim_none]
    | some el => simp only [Function.comp_apply, h, Option.map_some, Option.elim_some]
  have hsame : ∀ p, s.coordWritable p c'.name c' a = s.coordWritable p c.name c a := by
    intro p
    rw [hcoord, hcoord, hname, hmembers]
  unfold mayWrite
  simp only [hsame]

namespace WriteServer

variable (s : WriteServer)

/-- **The commit of a sandbox changes cells that its caller may write**, by
the rights of when it was checked. -/
def CommitsOwnRights (s : WriteServer) (p : Pending) (m : Model) : Prop :=
  match p.request with
  | .commitSandbox _ _ => ∀ a, InRange s.store.cube.dimensions a →
      m.cube.leafValue a ≠ s.store.cube.leafValue a ∨ m.cube.textAt a ≠ s.store.cube.textAt a →
        p.security.mayWrite p.caller s.store.cube a = true
  | _ => True

/-- The sandbox that is committed holds no text. -/
def noTexts (name : String) : Bool :=
  (s.store.sandboxes[name]?).all fun sb => sb.stringCells.isEmpty

/-- Each override that the sandbox holds is at a cell that it held one for
when its commit came, and at the same members. -/
def overridesStay (p : Pending) (name : String) : Bool :=
  s.store.cube.name = p.snapshot.cube.name &&
    (s.store.sandboxes[name]?).all fun sb => sb.cells.toList.all fun e =>
      (p.snapshot.sandboxes[name]?).any (fun checked => (checked.cells[e.1]?).isSome) &&
        s.store.cube.membersAt e.1 = p.snapshot.cube.membersAt e.1

/-- **What a sandbox commits is what was checked**: it holds no text, and
nothing is committed to the cube after the check, or no override at another
cell and none whose members moved. -/
def checkedOverrides (p : Pending) : Bool :=
  match p.request with
  | .commitSandbox name _ => s.noTexts name && (s.undisturbed p || s.overridesStay p name)
  | _ => true

/-- Each override that the sandbox holds is at members that the caller may
write, or is what the cube holds. -/
def overridesAllowed (p : Pending) : Bool :=
  (s.committedWrites p).all fun w =>
    p.security.mayWrite p.caller s.store.cube w.coord ||
      s.store.cube.keepsNumber (s.committedWrites p) w.coord &&
        s.store.cube.keepsText (s.committedWrites p) w.coord

variable {s : WriteServer} {p : Pending} {m : Model} {updated : Nat}

/-- The numbers of a sandbox were checked when its commit came. -/
def ResolvedByRights (p : Pending) : Prop :=
  ∀ name base, p.request = .commitSandbox name base → ∀ sb, p.snapshot.sandboxes[name]? = some sb →
    ∀ (a : Coord) v, sb.cells[a]? = some v →
      p.security.mayWrite p.caller p.snapshot.cube a = true

theorem resolves_rights : Resolves ResolvedByRights where
  grown := fun p h => h
  resolve := by
    intro s caller request p _ h name base hrequest sb hsb a v hv
    cases h with
    | sandbox name' base' sb' hsandbox hrights =>
      cases hrequest
      obtain rfl := Option.some.inj (hsandbox.symm.trans hsb)
      rw [SecurityStore.requireElementWriteIndices, SecurityStore.gate_eq_ok] at hrights
      show SecurityStore.mayWrite s.security caller s.published.cube a = true
      unfold SecurityStore.mayWrite
      rcases hq : s.security.principal caller.username with _ | q
      · simp only [hq, Bool.false_eq_true] at hrights
      · simp only [hq] at hrights ⊢
        rw [Bool.or_eq_true] at hrights ⊢
        refine hrights.imp_right fun hall => ?_
        exact List.all_eq_true.1 hall a (List.mem_map_of_mem (FinMap.mem_toList.2 hv))
    | _ => cases hrequest

/-- What a request writes is at coordinates of the cube. -/
theorem inRange_committedWrites (h : s.work p updated = .ok m) :
    ∀ w ∈ s.committedWrites p, InRange s.store.cube.dimensions w.coord := by
  have hbatch : ∀ {store next : Model} {writes : List Cube.CellWrite},
      store.setBatch writes = .ok next → ∀ w ∈ writes, InRange store.cube.dimensions w.coord := by
    intro store next writes h
    obtain ⟨⟨⟩, -, h⟩ := bind_eq_ok.1 h
    obtain ⟨cube, hcube, -⟩ := bind_eq_ok.1 h
    exact Cube.inRange_of_applyWrites (mapError_eq_ok.1 hcube)
  unfold work at h
  unfold committedWrites
  split at h
  · obtain ⟨sb, hsb, h⟩ := bind_eq_ok.1 h
    obtain ⟨next, hnext, -⟩ := bind_eq_ok.1 h
    rw [okOr_eq_ok] at hsb
    rw [hsb]
    exact hbatch hnext
  · split at h
    · intro w hw
      cases hw
    · exact hbatch h

/-- A commit changes cells of its caller's rights exactly if its overrides
are allowed. -/
theorem commitsOwnRights_iff (hwf : s.store.cube.WF) (haccept : s.accept p updated = .ok m)
    {name : String} {base : Option Nat} (hrequest : p.request = .commitSandbox name base) :
    s.CommitsOwnRights p m ↔ s.overridesAllowed p = true := by
  have hwork := (accept_eq_ok haccept).2.2
  have hwrote := wrote_work hwf hwork
  unfold CommitsOwnRights overridesAllowed
  rw [hrequest]
  dsimp only
  rw [List.all_eq_true]
  constructor
  · intro h w hw
    have hin := inRange_committedWrites hwork w hw
    rw [Bool.or_eq_true, Bool.and_eq_true, hwrote.keepsNumber hin, hwrote.keepsText hin]
    by_cases hkeep : m.cube.leafValue w.coord = s.store.cube.leafValue w.coord ∧
        m.cube.textAt w.coord = s.store.cube.textAt w.coord
    · exact Or.inr hkeep
    · rw [not_and_or] at hkeep
      exact Or.inl (h w.coord hin hkeep)
  · intro h a ha hchanged
    by_cases hmem : a ∈ (s.committedWrites p).map Cube.CellWrite.coord
    · obtain ⟨w, hw, rfl⟩ := List.mem_map.1 hmem
      have hallowed := h w hw
      rw [Bool.or_eq_true, Bool.and_eq_true, hwrote.keepsNumber ha, hwrote.keepsText ha] at hallowed
      refine hallowed.resolve_right ?_
      rintro ⟨hnumber, htext⟩
      exact hchanged.elim (fun hne => hne hnumber) fun hne => hne htext
    · obtain ⟨hnumber, htext⟩ := hwrote.frame ha hmem
      exact absurd hchanged (not_or.2 ⟨not_not.2 hnumber, not_not.2 htext⟩)

/-- An override that stays where one was checked is allowed. -/
theorem mayWrite_of_overridesStay (hfact : ResolvedByRights p) {name : String} {base : Option Nat}
    (hrequest : p.request = .commitSandbox name base) (hstay : s.overridesStay p name = true)
    {sb : Sandbox} (hsb : s.store.sandboxes[name]? = some sb) {a : Coord} {v : Fixed}
    (ha : sb.cells[a]? = some v) : p.security.mayWrite p.caller s.store.cube a = true := by
  rw [overridesStay, Bool.and_eq_true, decide_eq_true_eq, hsb, Option.all_some,
    List.all_eq_true] at hstay
  obtain ⟨hname, hall⟩ := hstay
  have h := hall (a, v) (FinMap.mem_toList.2 ha)
  rw [Bool.and_eq_true, decide_eq_true_eq, Option.any_eq_true] at h
  obtain ⟨⟨checked, hchecked, hcell⟩, hmembers⟩ := h
  obtain ⟨w, hw⟩ := Option.isSome_iff_exists.1 hcell
  rw [SecurityStore.mayWrite_congr hname hmembers]
  exact hfact name base hrequest checked hchecked a w hw

/-- What is checked is allowed. -/
theorem Consistent.overridesAllowed (h : s.Consistent ResolvedByRights) (hp : p ∈ s.pending)
    (haccept : s.accept p updated = .ok m) {name : String} {base : Option Nat}
    (hrequest : p.request = .commitSandbox name base) (hchecked : s.checkedOverrides p = true) :
    s.overridesAllowed p = true := by
  have hfact := (h.known p hp).2
  unfold checkedOverrides at hchecked
  rw [hrequest] at hchecked
  obtain ⟨hno, hchecked⟩ := Bool.and_eq_true_iff.1 hchecked
  refine List.all_eq_true.2 fun w hw => ?_
  rw [Bool.or_eq_true]
  left
  unfold committedWrites at hw
  rw [hrequest] at hw
  dsimp only at hw
  unfold noTexts at hno
  rcases hsb : s.store.sandboxes[name]? with _ | sb
  · rw [hsb] at hw
    cases hw
  · rw [hsb] at hw hno
    rcases List.mem_append.1 hw with hw | hw
    · obtain ⟨e, he, rfl⟩ := List.mem_map.1 hw
      have hcell := FinMap.mem_toList.1 he
      rcases Bool.or_eq_true_iff.1 hchecked with hundisturbed | hstay
      · have hstore := h.store_eq_of_undisturbed hp haccept hundisturbed
        rw [hstore] at hsb ⊢
        exact hfact name base hrequest sb hsb e.1 e.2 hcell
      · exact mayWrite_of_overridesStay hfact hrequest hstay hsb hcell
    · obtain ⟨e, he, rfl⟩ := List.mem_map.1 hw
      rw [Option.all_some] at hno
      rw [Std.ExtTreeMap.isEmpty_iff.1 hno] at he
      cases he

/-- **The commit of a sandbox writes what the committer may write**: in a run
in which what each of them commits was checked, every one changes cells of
its caller's rights. -/
theorem sandboxRights_run {start : WriteServer} (hs : start.Initial) {steps : List WriteStep}
    (h : AllAccepted (fun s p _ => s.checkedOverrides p = true) start steps) :
    AllAccepted CommitsOwnRights start steps := by
  refine hs.consistent.allAccepted_mono resolves_rights
    (fun s p m updated hcons hp haccept hchecked => ?_) h
  cases hrequest : p.request with
  | commitSandbox name base =>
    rw [commitsOwnRights_iff hcons.wf haccept hrequest]
    exact hcons.overridesAllowed hp haccept hrequest hchecked
  | _ =>
    unfold CommitsOwnRights
    rw [hrequest]
    exact trivial

/-- The region South is the administrator's. -/
def guardedDesk : WriteServer :=
  { salesDesk with
    security :=
      { salesSecurity with
        elementAcls := FinMap.collect
          [(⟨"Sales", "Region", "South"⟩, AccessList.empty.set (.user "root") .write)] } }

theorem initial_guardedDesk : guardedDesk.Initial := ⟨wf_sales, rfl, rfl, by decide, rfl⟩

/-- A user plans the amount of a region, and comes to commit it. -/
def planned : List WriteStep :=
  [.createSandbox "plan" "ann" 0 true,
    .receive ann (.batch [amountOf "North" "12"] none (some "plan")), .commit 0 0 true,
    .receive ann (.commitSandbox "plan" none)]

/-- Another amount is stored between the check and the commit. -/
theorem sandboxRights_planned :
    let steps := planned ++ [.receive ann (.writeCell (amountOf "North" "3") none),
      .commit 1 0 true, .commit 0 0 true]
    AllAccepted CommitsOwnRights guardedDesk steps ∧
      (runCalls WriteServer.step guardedDesk steps).pending.length = 0 ∧
      ((runCalls WriteServer.step guardedDesk steps).store.cube.leafValue [0, 0]).toScaled =
        120000 :=
  ⟨sandboxRights_run initial_guardedDesk (by decide +kernel), by decide +kernel,
    by decide +kernel⟩

/-- After the check, the administrator plans an amount of his region in the
same sandbox. -/
def plannedBetween : List WriteStep :=
  planned ++ [.receive ⟨"root", true, []⟩ (.batch [amountOf "South" "7"] none (some "plan")),
    .commit 1 0 true, .commit 0 0 true]

/-- The user's commit writes a region that she may not write. -/
theorem not_sandboxRights_plannedBetween :
    guardedDesk.Initial ∧ ¬ AllAccepted CommitsOwnRights guardedDesk plannedBetween := by
  refine ⟨initial_guardedDesk, fun h => ?_⟩
  have hallowed : AllAccepted (fun s p _ =>
      (match p.request with
        | .commitSandbox _ _ => s.overridesAllowed p
        | _ => true) = true) guardedDesk plannedBetween := by
    refine initial_guardedDesk.consistent.allAccepted_mono resolves_rights
      (fun s p m updated hcons _ haccept hrights => ?_) h
    cases hrequest : p.request with
    | commitSandbox name base =>
      exact (commitsOwnRights_iff hcons.wf haccept hrequest).1 hrights
    | _ => rfl
  revert hallowed
  decide +kernel

/-! ## Cells that rules compute -/

end WriteServer

/-- The kinds of the members of each dimension. -/
def Cube.memberKinds (c : Cube) : List (List ElementKind) :=
  c.dimensions.map fun d => d.elements.map Element.kind

/-- What an area matches is a matter of the kinds of the members. -/
theorem Calc.CompiledArea.matches_congr {c c' : Cube} (h : c'.memberKinds = c.memberKinds)
    (area : CompiledArea) (a : Coord) : area.matches c' a = area.matches c a := by
  have hkind : ∀ (c : Cube) k i, (c.dimension k).kindAt i = (c.memberKinds.getD k [])[i]? := by
    intro c k i
    unfold Cube.dimension Cube.memberKinds Dimension.kindAt
    rw [List.getD_eq_getElem?_getD, List.getD_eq_getElem?_getD, List.getElem?_map]
    cases c.dimensions[k]? with
    | none => rfl
    | some d => exact List.getElem?_map.symm
  have hadmits : ∀ pred k i, DimPredicate.admits pred area.consolidated (c'.dimension k) i =
      DimPredicate.admits pred area.consolidated (c.dimension k) i := by
    intro pred k i
    unfold DimPredicate.admits
    rw [hkind, hkind, h]
  unfold CompiledArea.matches
  simp only [hadmits]

/-- The areas of the rules of a cube. -/
def WriteEnv.ruleAreas (env : WriteEnv) (m : Model) : List CompiledArea :=
  (env.compile m.cube m.rules).elim [] fun cm => cm.rules.map CompiledRule.area

theorem WriteEnv.covers_eq (env : WriteEnv) (m : Model) (a : Coord) :
    env.covers m a = (env.ruleAreas m).any fun area => area.matches m.cube a := by
  unfold covers ruleAreas CompiledModel.matchingRule
  cases env.compile m.cube m.rules with
  | none => rfl
  | some cm => rw [Option.any_some, Option.elim_some, List.isSome_find?, List.any_map]; rfl

/-- The requests whose writes are refused at cells that a rule computes. -/
def WriteRequest.asksRules : WriteRequest → Bool
  | .writeCell _ _ | .spread _ _ _ _ | .batch _ _ _ => true
  | .outcome _ | .commitSandbox _ _ => false

namespace WriteServer

/-- **A write leaves the cells alone that a rule computes**, by the rules it
is committed on. -/
def KeepsCovered (s : WriteServer) (_p : Pending) (m : Model) : Prop :=
  ∀ a, InRange s.store.cube.dimensions a → s.env.covers s.store a = true →
    m.cube.leafValue a = s.store.cube.leafValue a

/-- The areas of the rules, and the kinds of the members, are those that a
request was resolved on. -/
def rulesStay (s : WriteServer) (p : Pending) : Bool :=
  s.env.ruleAreas s.store = p.env.ruleAreas p.snapshot &&
    s.store.cube.memberKinds = p.snapshot.cube.memberKinds

/-- **What is committed was asked about**, on the rules it is committed on,
or there are no rules to ask. -/
def askedRules (s : WriteServer) (p : Pending) : Bool :=
  p.request.asksRules && (s.undisturbed p && p.epoch = s.epoch || s.rulesStay p) ||
    (s.env.ruleAreas s.store).isEmpty

/-- No write is at a cell that a rule computes, unless it leaves what is
there. -/
def writesUncovered (s : WriteServer) (p : Pending) : Bool :=
  (s.committedWrites p).all fun w =>
    !s.env.covers s.store w.coord || s.store.cube.keepsNumber (s.committedWrites p) w.coord

/-- The writes of a request that was asked about rules. -/
def ResolvedByRules (p : Pending) : Prop :=
  p.request.asksRules = true →
    ∀ w ∈ p.writes, w.isLeaf = true → p.env.covers p.snapshot w.coord = false

variable {s : WriteServer} {p : Pending} {m : Model} {updated : Nat}

theorem uncovered_of_reject {env : WriteEnv} {m : Model} {writes : List Cube.CellWrite}
    {u : Unit} (h : env.rejectRuleCoveredWrites m writes = .ok u) :
    ∀ w ∈ writes, w.isLeaf = true → env.covers m w.coord = false := by
  intro w hw hleaf
  rw [WriteEnv.rejectRuleCoveredWrites, SecurityStore.gate_eq_ok, List.all_eq_true] at h
  simpa [hleaf] using h w hw

theorem resolves_rules : Resolves ResolvedByRules where
  grown := fun p h => h
  resolve := by
    intro s caller request p _ h
    cases h with
    | cell cell selector write hwrite hcovered => exact fun _ => uncovered_of_reject hcovered
    | spread target value method selector sandbox resolved expanded htarget hexpanded =>
      intro _ w hw _
      obtain ⟨e, he, rfl⟩ := List.mem_map.1 hw
      exact (leafUnder_of_expand hexpanded e he).2
    | batch cells base selector writes hwrites hcovered =>
      exact fun _ => uncovered_of_reject hcovered
    | outcome => exact fun hasks => absurd hasks Bool.false_ne_true
    | sandbox => exact fun hasks => absurd hasks Bool.false_ne_true

theorem KeepsCovered.writesUncovered (h : s.KeepsCovered p m) (hwf : s.store.cube.WF)
    (haccept : s.accept p updated = .ok m) : s.writesUncovered p = true := by
  have hwork := (accept_eq_ok haccept).2.2
  have hwrote := wrote_work hwf hwork
  unfold WriteServer.writesUncovered
  refine List.all_eq_true.2 fun w hw => ?_
  have hin := inRange_committedWrites hwork w hw
  rw [Bool.or_eq_true, Bool.not_eq_true', hwrote.keepsNumber hin]
  cases hcovers : s.env.covers s.store w.coord with
  | true => exact Or.inr (h w.coord hin hcovers)
  | false => exact Or.inl rfl

theorem covers_of_rulesStay (h : s.rulesStay p = true) (a : Coord) :
    s.env.covers s.store a = p.env.covers p.snapshot a := by
  rw [rulesStay, Bool.and_eq_true, decide_eq_true_eq, decide_eq_true_eq] at h
  obtain ⟨hareas, hkinds⟩ := h
  rw [WriteEnv.covers_eq, WriteEnv.covers_eq, hareas]
  exact List.any_congr rfl fun area => area.matches_congr hkinds a

/-- A request that was asked about rules, and meets them as they were, writes
no cell that one of them computes. -/
theorem keepsCovered_of_asked (hwf : s.store.cube.WF) (hfact : ResolvedByRules p)
    (haccept : s.accept p updated = .ok m) (hasks : p.request.asksRules = true)
    (hsame : ∀ a, s.env.covers s.store a = p.env.covers p.snapshot a) : s.KeepsCovered p m := by
  have hwrote := wrote_work hwf (accept_eq_ok haccept).2.2
  intro a ha hcovers
  rw [hsame] at hcovers
  -- a number that is left here would be one of the writes that were asked about
  have hnone : Cube.lastNumber (s.committedWrites p) a = none := by
    rcases hlast : Cube.lastNumber (s.committedWrites p) a with _ | v
    · rfl
    · exfalso
      have hmem := Cube.mem_of_lastNumber hlast
      have hwrites : Cube.CellWrite.leaf a v ∈ p.writes := by
        unfold committedWrites at hmem
        split at hmem
        · rename_i name base hrequest
          rw [hrequest] at hasks
          cases hasks
        · split at hmem
          · cases hmem
          · exact hmem
      have huncovered := hfact hasks _ hwrites rfl
      rw [Cube.CellWrite.coord, hcovers] at huncovered
      cases huncovered
  rw [hwrote.number a ha, hnone]
  rfl

/-- **Cells that a rule computes receive no data**: in a run in which each
accepted write was asked about on the rules it is committed on, every one
leaves these cells alone. -/
theorem keepsCovered_run {start : WriteServer} (hs : start.Initial) {steps : List WriteStep}
    (h : AllAccepted (fun s p _ => s.askedRules p = true) start steps) :
    AllAccepted KeepsCovered start steps := by
  refine hs.consistent.allAccepted_mono resolves_rules
    (fun s p m updated hcons hp haccept hasked => ?_) h
  obtain ⟨hknown, hfact⟩ := hcons.known p hp
  rw [askedRules, Bool.or_eq_true, Bool.and_eq_true, Bool.or_eq_true, Bool.and_eq_true,
    decide_eq_true_eq] at hasked
  rcases hasked with ⟨hasks, ⟨hundisturbed, hepoch⟩ | hstay⟩ | hempty
  · refine keepsCovered_of_asked hcons.wf hfact haccept hasks fun a => ?_
    rw [hcons.store_eq_of_undisturbed hp haccept hundisturbed, hknown.env hepoch]
  · exact keepsCovered_of_asked hcons.wf hfact haccept hasks (covers_of_rulesStay hstay)
  · intro a ha hcovers
    rw [WriteEnv.covers_eq, List.isEmpty_iff.1 hempty] at hcovers
    cases hcovers

/-- A rule for the region South, and its compilation. -/
def southRule : String := "['Region':'South'] = 1;"

def southModel : CompiledModel := ⟨[⟨⟨[.oneOf [1], .any], false⟩, .num Fixed.zero⟩]⟩

/-- The server of a cube that gets this rule or none. -/
def ruledDesk : WriteServer :=
  { salesDesk with
    env := ⟨fun _ rules => if rules = southRule then some southModel else none,
      fun _ _ _ _ => .ok Fixed.zero⟩ }

theorem initial_ruledDesk : ruledDesk.Initial := ⟨wf_sales, rfl, rfl, by decide, rfl⟩

/-- A user writes to a region without a rule, while another amount is stored,
and is refused at the one with a rule. A sandbox is committed before there are
rules. -/
def refusedCell : List WriteStep :=
  planned ++ [.commit 0 0 true, .define ∅ ∅ southRule true,
    .receive ann (.batch [amountOf "North" "15"] none none),
    .receive ann (.writeCell (amountOf "South" "12") none),
    .receive ann (.writeCell (amountOf "North" "3") none), .commit 1 0 true, .commit 0 0 true]

theorem keepsCovered_refusedCell :
    AllAccepted KeepsCovered ruledDesk refusedCell ∧
      (runCalls WriteServer.step ruledDesk refusedCell).pending.length = 0 ∧
      ((runCalls WriteServer.step ruledDesk refusedCell).store.cube.leafValue [0, 0]).toScaled =
        150000 :=
  ⟨keepsCovered_run initial_ruledDesk (by decide +kernel), by decide +kernel, by decide +kernel⟩

/-- A flow stages a cell that a rule computes. -/
def flowAtRule : List WriteStep :=
  [.define ∅ ∅ southRule true, .receive ann (.outcome ⟨[], [], [amountOf "South" "12"]⟩),
    .commit 0 0 true]

/-- The rule comes after an amount was staged in a sandbox. -/
def ruleAfterStaging : List WriteStep :=
  [.createSandbox "plan" "ann" 0 true,
    .receive ann (.batch [amountOf "South" "12"] none (some "plan")), .commit 0 0 true,
    .define ∅ ∅ southRule true, .receive ann (.commitSandbox "plan" none), .commit 0 0 true]

/-- The rule comes between the resolution of a batch and its commit. -/
def ruleBetween : List WriteStep :=
  [.receive ann (.batch [amountOf "South" "12"] none none), .define ∅ ∅ southRule true,
    .commit 0 0 true]

theorem not_keepsCovered_of_uncovered {start : WriteServer} (hs : start.Initial)
    {steps : List WriteStep}
    (h : ¬ AllAccepted (fun s p _ => s.writesUncovered p = true) start steps) :
    ¬ AllAccepted KeepsCovered start steps := fun hkeeps =>
  h (hs.consistent.allAccepted_mono resolves_rules
    (fun _ _ _ _ hcons _ haccept hkept => hkept.writesUncovered hcons.wf haccept) hkeeps)

/-- In each case a number is stored where the rule computes one. -/
theorem not_keepsCovered_flow_sandbox_batch :
    ruledDesk.Initial ∧ ¬ AllAccepted KeepsCovered ruledDesk flowAtRule ∧
      ¬ AllAccepted KeepsCovered ruledDesk ruleAfterStaging ∧
      ¬ AllAccepted KeepsCovered ruledDesk ruleBetween :=
  ⟨initial_ruledDesk, not_keepsCovered_of_uncovered initial_ruledDesk (by decide +kernel),
    not_keepsCovered_of_uncovered initial_ruledDesk (by decide +kernel),
    not_keepsCovered_of_uncovered initial_ruledDesk (by decide +kernel)⟩

end WriteServer

end Epiphany
