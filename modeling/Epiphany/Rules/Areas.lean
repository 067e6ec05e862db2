import Epiphany.Calc.Feeders
import Epiphany.Core.StructuralEdits
import Epiphany.Core.Tables
import Epiphany.Rules.Meaning
/-!
# Compiled areas — the members that an area has

A selector is compiled to the positions of the members that it has by name, and
an area to one predicate for each dimension, so a compiled area has a coordinate
exactly when the area covers its member names (`matches_iff_covers`). The rule
that fires at a coordinate is the compiled form of the first rule that covers it
(`matchingRule_of_firstCovering`).
-/

namespace Epiphany

/-! ## Members by position and by name -/

namespace Dimension

open Relation Worklist

variable {d : Dimension} {i : Nat} {n : String}

theorem WF.resolves_iff (hd : d.WF) (hn : d.nameAt i = some n) {name : String} :
    d.Resolves name n ↔ d.resolve name = some i := by
  constructor
  · rintro ⟨j, hj, hname⟩
    rwa [hd.nameAt_inj hname hn] at hj
  · exact fun h => ⟨i, h, hn⟩

theorem WF.ofKind_iff (hd : d.WF) (hn : d.nameAt i = some n) {kind : ElementKind} :
    d.OfKind n kind ↔ d.kindAt i = some kind := by
  constructor
  · rintro ⟨j, hname, hj⟩
    rwa [hd.nameAt_inj hname hn] at hj
  · exact fun h => ⟨i, hn, h⟩

theorem WF.holds_iff (hd : d.WF) (hn : d.nameAt i = some n) {attr : String}
    {value : AttributeValue} : d.Holds n attr value ↔ d.attributeOf i attr = some value := by
  constructor
  · rintro ⟨j, hname, hj⟩
    rwa [hd.nameAt_inj hname hn] at hj
  · exact fun h => ⟨i, hn, h⟩

theorem WF.lt_left (hd : d.WF) {p c : Nat} (h : d.IsChild p c) : p < d.elements.length := by
  obtain ⟨e, he, -⟩ := h
  by_contra hp
  rw [edgesOf_of_le (by rw [hd.children_length]; omega)] at he
  cases he

theorem WF.childOf_iff (hd : d.WF) (hn : d.nameAt i = some n) {p : Nat} {parent : String}
    (hp : d.nameAt p = some parent) : d.ChildOf parent n ↔ d.IsChild p i := by
  constructor
  · rintro ⟨q, c, hq, hc, h⟩
    rwa [hd.nameAt_inj hq hp, hd.nameAt_inj hc hn] at h
  · exact fun h => ⟨p, i, hp, hn, h⟩

/-- Below a member by name is below it by position. -/
theorem WF.reach_iff (hd : d.WF) {r : Nat} {root : String} (hr : d.nameAt r = some root)
    (hn : d.nameAt i = some n) :
    ReflTransGen d.ChildOf root n ↔ ReflTransGen d.IsChild r i := by
  constructor
  · intro h
    induction h generalizing i with
    | refl => rw [hd.nameAt_inj hn hr]
    | tail _ hchild ih =>
      obtain ⟨p, c, hp, hc, hpc⟩ := hchild
      rw [hd.nameAt_inj hn hc]
      exact (ih hp).tail hpc
  · intro h
    induction h generalizing n with
    | refl => rw [Option.some.inj (hr.symm.trans hn)]
    | tail hreach hchild ih =>
      obtain ⟨q, hq⟩ := nameAt_isSome (lt_of_reach hd (lt_of_nameAt hr) hreach)
      exact (ih hq).tail ⟨_, _, hq, hn, hchild⟩

end Dimension

namespace Rules

open Relation Worklist Dimension
open Calc (DimPredicate CompiledArea CompiledRule CompiledModel)

/-! ## Selectors -/

section Selectors

variable {d : Dimension}

/-- The edges of an element, as the walk below it finds them. -/
def rowOf (edges : List (Nat × Nat × Int)) (v : Nat) : List (Nat × Int) :=
  edges.filterMap fun e => if e.1 = v then some e.2 else none

theorem rowOf_perm (d : Dimension) (v : Nat) : (rowOf d.edges v).Perm
    (if v < d.len then (d.edgesOf v).map fun e => (e.child, e.weight) else []) := by
  have hrow := @filterMap_rows Edge (Nat × Nat × Int) (Nat × Int) d.len v
    (fun p => d.edgesOf p) (fun p e => (p, e.child, e.weight))
    (fun e => if e.1 = v then some e.2 else none) (fun e => (e.child, e.weight))
    (fun p _ x _ => rfl)
  rw [← hrow]
  exact (List.mergeSort_perm _ _).filterMap _

theorem children_rowOf (edges : List (Nat × Nat × Int)) (v : Nat) :
    (edges.filter fun e => e.1 = v).map (fun e => e.2.1) = (rowOf edges v).map Prod.fst := by
  unfold rowOf
  rw [List.map_filterMap, ← List.filterMap_eq_map, List.filterMap_filter]
  refine List.filterMap_congr fun e _ => ?_
  by_cases he : e.1 = v <;> simp [he]

theorem mem_rowOf (hd : d.WF) {v c : Nat} :
    c ∈ (rowOf d.edges v).map Prod.fst ↔ d.IsChild v c := by
  rw [((rowOf_perm d v).map _).mem_iff]
  by_cases hv : v < d.len
  · rw [if_pos hv, List.map_map]
    exact List.mem_map
  · rw [if_neg hv]
    exact iff_of_false (by simp) fun h => hv (hd.lt_left h)

/-- The walk below an element takes what a depth-first traversal visits. -/
theorem descendantsLoop_eq (edges : List (Nat × Nat × Int)) (n : Nat) (stack seen out : List Nat) :
    descendantsLoop edges n stack seen out = out ++
      (visits .stack (rowOf edges) (fun _ _ => ()) n (stack.map fun i => (i, ())) seen).map
        Prod.fst := by
  induction n generalizing stack seen out with
  | zero => simp [descendantsLoop, visits]
  | succ n ih =>
    rcases stack with _ | ⟨node, stack⟩
    · simp [descendantsLoop]
    · rw [descendantsLoop, List.map_cons]
      by_cases hseen : node ∈ seen
      · rw [if_pos hseen, visits_cons_of_mem hseen]
        exact ih stack seen out
      · rw [if_neg hseen, visits_cons_of_not_mem hseen]
        dsimp only
        rw [ih, children_rowOf, List.map_cons, List.append_assoc, List.singleton_append]
        simp [Discipline.join, along, Function.comp_def]

theorem mem_descendants (hd : d.WF) {r i : Nat} :
    i ∈ descendants d r ↔ ReflTransGen d.IsChild r i := by
  unfold descendants
  rw [descendantsLoop_eq, List.nil_append]
  have hlen : ∀ v, (rowOf d.edges v).length ≤ (d.edgesOf v).length := by
    intro v
    rw [(rowOf_perm d v).length_eq]
    split_ifs <;> simp
  have hrows : ∀ v ∉ Finset.range d.children.length, rowOf d.edges v = [] := by
    intro v hv
    have hnil := hlen v
    rw [edgesOf_of_le (Nat.not_lt.1 fun h => hv (Finset.mem_range.2 h))] at hnil
    exact List.length_eq_zero_iff.1 (Nat.le_zero.1 hnil)
  constructor
  · intro h
    obtain ⟨x, hx, rfl⟩ := List.mem_map.1 h
    refine visits_subset (R := fun v => ReflTransGen d.IsChild r v) (fun v hv e he => ?_)
      (fun y hy => ?_) x hx
    · exact hv.tail ((mem_rowOf hd).1 (List.mem_map_of_mem he))
    · rw [List.mem_singleton.1 hy]
  · obtain ⟨hstart, hclosed⟩ := visits_closed .stack (fun _ _ => ()) hrows
      (work_start (rowOf d.edges) hlen (r, ())) (by simp)
    intro hreach
    induction hreach with
    | refl => simpa using hstart
    | tail _ hbc ih =>
      obtain ⟨e, he, rfl⟩ := List.mem_map.1 ((mem_rowOf hd).2 hbc)
      simpa using hclosed _ (.inr ih) e he

/-- The elements of a selector are its members. -/
theorem mem_selectedBy (hd : d.WF) {kind : SelectorKind} {set : List Nat}
    (h : selectedBy d kind = .ok set) {i : Nat} {n : String} (hn : d.nameAt i = some n) :
    i ∈ set ↔ kind.Selects d n := by
  have hlt : i < d.len := lt_of_nameAt hn
  have hkinds : ∀ p : ElementKind → Bool, (d.kindAt i).any p = true ↔
      ∃ kind, d.OfKind n kind ∧ p kind = true := by
    intro p
    rw [Option.any_eq_true]
    exact exists_congr fun k => and_congr_left' (hd.ofKind_iff hn).symm
  -- a name is looked up once; every other selector filters the whole range of indices
  cases kind with
  | element m =>
    obtain ⟨j, hj, rfl⟩ := map_eq_ok.1 h
    rw [resolveMember, okOr_eq_ok] at hj
    rw [List.mem_singleton, SelectorKind.Selects, hd.resolves_iff hn, hj, Option.some.injEq]
    exact eq_comm
  | all =>
    obtain rfl := Except.ok.inj h
    refine iff_of_true (List.mem_range.2 hlt) ?_
    obtain ⟨el, hel, -⟩ := nameAt_eq_some.1 hn
    exact ⟨el.kind, (hd.ofKind_iff hn).2 (by rw [kindAt, hel]; rfl)⟩
  | leaves =>
    obtain rfl := Except.ok.inj h
    rw [List.mem_filter, hkinds]
    exact and_iff_right (List.mem_range.2 hlt)
  | consolidated =>
    obtain rfl := Except.ok.inj h
    rw [List.mem_filter, hkinds]
    simp only [Bool.not_eq_true']
    exact and_iff_right (List.mem_range.2 hlt)
  | children parent =>
    obtain ⟨p, hp, rfl⟩ := map_eq_ok.1 h
    rw [resolveMember, okOr_eq_ok] at hp
    rw [children_rowOf, mem_rowOf hd, SelectorKind.Selects]
    constructor
    · intro hchild
      obtain ⟨q, hq⟩ := nameAt_isSome (hd.lt_left hchild)
      exact ⟨q, ⟨p, hp, hq⟩, (hd.childOf_iff hn hq).2 hchild⟩
    · rintro ⟨q, ⟨p', hp', hq⟩, hchild⟩
      obtain rfl := Option.some.inj (hp.symm.trans hp')
      exact (hd.childOf_iff hn hq).1 hchild
  | descendants root =>
    obtain ⟨r, hr, rfl⟩ := map_eq_ok.1 h
    rw [resolveMember, okOr_eq_ok] at hr
    rw [mem_descendants hd, SelectorKind.Selects]
    constructor
    · intro hreach
      obtain ⟨q, hq⟩ : ∃ q, d.nameAt r = some q := by
        rcases hreach.cases_head with rfl | ⟨c, hc, -⟩
        · exact ⟨n, hn⟩
        · exact nameAt_isSome (hd.lt_left hc)
      exact ⟨q, ⟨r, hr, hq⟩, (hd.reach_iff hq hn).2 hreach⟩
    · rintro ⟨q, ⟨r', hr', hq⟩, hreach⟩
      obtain rfl := Option.some.inj (hr.symm.trans hr')
      exact (hd.reach_iff hq hn).1 hreach
  | attrPredicate attr op value =>
    obtain ⟨-, -, h⟩ := bind_eq_ok.1 h
    obtain ⟨rhs, hrhs, h⟩ := bind_eq_ok.1 h
    obtain rfl := Except.ok.inj h
    rw [List.mem_filter, and_iff_right (List.mem_range.2 hlt), SelectorKind.Selects]
    have hvalue : ∀ v, attrMatches op value rhs (some v) = true ↔ value.Compares op v := by
      intro v
      cases value with
      | str w => cases v <;> simp [attrMatches, Literal.Compares]
      | number w =>
        obtain ⟨r, hr, rfl⟩ := map_eq_ok.1 hrhs
        cases v with
        | text s => simp [attrMatches, Literal.Compares]
        | numeric f => simp [attrMatches, Literal.Compares, hr]
    rcases hattr : d.attributeOf i attr with _ | v
    · refine iff_of_false (by simp [attrMatches]) ?_
      rintro ⟨v, hv, -⟩
      rw [hd.holds_iff hn, hattr] at hv
      cases hv
    · rw [hvalue]
      constructor
      · exact fun hc => ⟨v, (hd.holds_iff hn).2 hattr, hc⟩
      · rintro ⟨w, hw, hc⟩
        rw [hd.holds_iff hn, hattr] at hw
        obtain rfl := Option.some.inj hw
        exact hc

theorem mem_resolveSelector (hd : d.WF) {kind : SelectorKind} {set : List Nat}
    (h : resolveSelector d kind = .ok set) {i : Nat} {n : String} (hn : d.nameAt i = some n) :
    i ∈ set ↔ kind.Selects d n := by
  obtain ⟨found, hfound, rfl⟩ := map_eq_ok.1 h
  rw [List.mem_dedup, List.mem_mergeSort, mem_selectedBy hd hfound hn]

end Selectors

/-! ## Areas -/

section Areas

variable {target : Cube}

theorem dimPosition_eq_some (hdistinct : (target.dimensions.map Dimension.name).Nodup)
    {name : String} {k : Nat} : dimPosition target name = some k ↔
      ∃ d, target.dimensions[k]? = some d ∧ d.name = name := by
  unfold dimPosition
  rw [List.findIdx?_eq_some_iff_getElem]
  constructor
  · rintro ⟨hlt, hname, -⟩
    exact ⟨_, List.getElem?_eq_getElem hlt, by simpa using hname⟩
  · rintro ⟨d, hd, hname⟩
    obtain ⟨hlt, rfl⟩ := List.getElem?_eq_some_iff.1 hd
    refine ⟨hlt, by simpa using hname, fun j hj hjname => ?_⟩
    have hjlt : j < target.dimensions.length := by omega
    have heq : (target.dimensions.map Dimension.name)[j]? =
        (target.dimensions.map Dimension.name)[k]? := by
      rw [List.getElem?_map, List.getElem?_map, List.getElem?_eq_getElem hjlt,
        List.getElem?_eq_getElem hlt, Option.map_some, Option.map_some, hname]
      simpa using hjname
    have := (List.getElem?_inj (by rwa [List.length_map]) hdistinct).1 heq
    omega

/-- What the selectors of an area say of a dimension: its predicate is the set
of one, or it is the one of before. -/
def Constrained (selectors : List DimSelector) (d : Dimension) (before after : DimPredicate) :
    Prop :=
  (∃ sel ∈ selectors, sel.dimension = d.name ∧
    ∃ set, resolveSelector d sel.kind = .ok set ∧ after = .oneOf set) ∨
  ((∀ sel ∈ selectors, sel.dimension ≠ d.name) ∧ after = before)

/-- A selector sets the predicate of its dimension, and leaves the others. -/
theorem constrain_eq_ok (hdistinct : (target.dimensions.map Dimension.name).Nodup)
    {perDim perDim' : List DimPredicate} {sel : DimSelector}
    (h : constrain target perDim sel = .ok perDim') : perDim'.length = perDim.length ∧
      ∀ (k : Nat) d before after, target.dimensions[k]? = some d → perDim[k]? = some before →
        perDim'[k]? = some after → Constrained [sel] d before after := by
  obtain ⟨pos, hpos, h⟩ := bind_eq_ok.1 h
  obtain ⟨set, hset, h⟩ := bind_eq_ok.1 h
  obtain rfl := Except.ok.inj h
  rw [okOr_eq_ok, dimPosition_eq_some hdistinct] at hpos
  obtain ⟨dpos, hdpos, hname⟩ := hpos
  rw [Calc.dimension_getElem? hdpos] at hset
  refine ⟨List.length_set, fun k d before after hd hbefore hafter => ?_⟩
  by_cases hk : pos = k
  · subst hk
    obtain rfl := Option.some.inj (hdpos.symm.trans hd)
    rw [List.getElem?_set_self (List.getElem?_eq_some_iff.1 hbefore).1] at hafter
    exact .inl ⟨sel, List.mem_singleton_self _, hname.symm, set, hset,
      (Option.some.inj hafter).symm⟩
  · rw [List.getElem?_set_ne hk, hbefore] at hafter
    refine .inr ⟨fun s hs hsame => hk ?_, (Option.some.inj hafter).symm⟩
    obtain rfl := List.mem_singleton.1 hs
    have hother := (dimPosition_eq_some hdistinct).2 ⟨d, hd, hsame.symm⟩
    rw [(dimPosition_eq_some hdistinct).2 ⟨dpos, hdpos, hname⟩] at hother
    exact Option.some.inj hother

theorem foldlM_constrain (hdistinct : (target.dimensions.map Dimension.name).Nodup)
    {selectors : List DimSelector} {perDim perDim' : List DimPredicate}
    (h : selectors.foldlM (constrain target) perDim = .ok perDim') :
    perDim'.length = perDim.length ∧
      ∀ (k : Nat) d before after, target.dimensions[k]? = some d → perDim[k]? = some before →
        perDim'[k]? = some after → Constrained selectors d before after := by
  induction selectors generalizing perDim with
  | nil =>
    obtain rfl := Except.ok.inj h
    refine ⟨rfl, fun k d before after _ hbefore hafter => .inr ⟨by simp, ?_⟩⟩
    exact Option.some.inj (hafter.symm.trans hbefore)
  | cons sel selectors ih =>
    rw [List.foldlM_cons] at h
    obtain ⟨middle, hsel, h⟩ := bind_eq_ok.1 h
    obtain ⟨hlen, hstep⟩ := constrain_eq_ok hdistinct hsel
    obtain ⟨hlen', hrest⟩ := ih h
    refine ⟨hlen'.trans hlen, fun k d before after hd hbefore hafter => ?_⟩
    have hk : k < middle.length := hlen ▸ (List.getElem?_eq_some_iff.1 hbefore).1
    have hmiddle := List.getElem?_eq_getElem hk
    rcases hrest k d _ after hd hmiddle hafter with ⟨s, hs, hset⟩ | ⟨hfree, rfl⟩
    · exact .inl ⟨s, List.mem_cons_of_mem _ hs, hset⟩
    · rcases hstep k d before _ hd hbefore hmiddle with ⟨s, hs, hset⟩ | ⟨hother, heq⟩
      · obtain rfl := List.mem_singleton.1 hs
        exact .inl ⟨_, List.mem_cons_self, hset⟩
      · refine .inr ⟨fun s hs => ?_, heq⟩
        rcases List.mem_cons.1 hs with rfl | hs
        · exact hother _ (List.mem_singleton_self _)
        · exact hfree s hs

/-- A compiled area has one predicate for each dimension. -/
theorem compileArea_eq_ok (hdistinct : (target.dimensions.map Dimension.name).Nodup)
    {area : Area} {compiled : CompiledArea} (h : compileArea target area = .ok compiled) :
    compiled.perDim.length = target.rank ∧
      compiled.consolidated = area.scope.targetsConsolidated ∧
      ∀ (k : Nat) d pred, target.dimensions[k]? = some d → compiled.perDim[k]? = some pred →
        Constrained area.selectors d .any pred := by
  obtain ⟨perDim, hfold, h⟩ := bind_eq_ok.1 h
  obtain rfl := Except.ok.inj h
  obtain ⟨hlen, hall⟩ := foldlM_constrain hdistinct hfold
  rw [List.length_replicate] at hlen
  refine ⟨hlen, rfl, fun k d pred hd hpred => hall k d .any pred hd ?_ hpred⟩
  rw [List.getElem?_replicate_of_lt]
  exact hlen ▸ (List.getElem?_eq_some_iff.1 hpred).1

/-- **A compiled area has the coordinates of the cells that it covers.** -/
theorem matches_iff_covers (hwf : target.WF)
    (hdistinct : (target.dimensions.map Dimension.name).Nodup) {area : Area}
    (hselectors : (area.selectors.map DimSelector.dimension).Nodup) {compiled : CompiledArea}
    (h : compileArea target area = .ok compiled) {a : Coord} {members : List String}
    (ha : Cube.Named target.dimensions a members) :
    compiled.matches target a = true ↔ area.Covers target members := by
  obtain ⟨hlen, hscope, hall⟩ := compileArea_eq_ok hdistinct h
  have hlength : a.length = target.rank := ha.length
  rw [Calc.matches_iff, hlen, and_iff_right hlength]
  -- one dimension at a time
  have hone : ∀ (k i : Nat) d m pred, a[k]? = some i → target.dimensions[k]? = some d →
      members[k]? = some m → compiled.perDim[k]? = some pred →
      (pred.admits compiled.consolidated (target.dimension k) i = true ↔ area.Admits d m) := by
    intro k i d m pred hi hd hm hpred
    have hd' : d.WF := hwf.dims d (List.mem_of_getElem? hd)
    have hn : d.nameAt i = some m := (ha.name_at k i d hi hd).trans hm
    rw [Calc.dimension_getElem? hd]
    rcases hall k d pred hd hpred with ⟨sel, hsel, hname, set, hset, rfl⟩ | ⟨hfree, rfl⟩
    · unfold DimPredicate.admits
      rw [decide_eq_true_eq, mem_resolveSelector hd' hset hn]
      constructor
      · intro hselects
        refine ⟨fun s hs hsame => ?_, fun hnone => absurd hname (hnone sel hsel)⟩
        rwa [List.inj_on_of_nodup_map hselectors hs hsel (hsame.trans hname.symm)]
      · exact fun hadmits => hadmits.1 sel hsel hname
    · unfold DimPredicate.admits
      rw [Option.any_eq_true, hscope]
      constructor
      · rintro ⟨kind, hkind, hne⟩
        refine ⟨fun s hs hsame => absurd hsame (hfree s hs), fun _ => ?_⟩
        exact ⟨kind, (hd'.ofKind_iff hn).2 hkind, by simpa using hne⟩
      · intro hadmits
        obtain ⟨kind, hkind, hne⟩ := hadmits.2 hfree
        exact ⟨kind, (hd'.ofKind_iff hn).1 hkind, by simpa using hne⟩
  constructor
  · intro hmatch k d m hd hm
    have hk : k < target.dimensions.length := (List.getElem?_eq_some_iff.1 hd).1
    have hi := List.getElem?_eq_getElem (hlength ▸ hk : k < a.length)
    have hpred := List.getElem?_eq_getElem (hlen ▸ hk : k < compiled.perDim.length)
    exact (hone k _ d m _ hi hd hm hpred).1 (hmatch k _ _ hi hpred)
  · intro hcovers k i pred hi hpred
    have hk : k < target.dimensions.length :=
      ha.length ▸ (List.getElem?_eq_some_iff.1 hi).1
    have hd := List.getElem?_eq_getElem hk
    have hm := List.getElem?_eq_getElem (ha.length_names ▸ hk : k < members.length)
    exact (hone k i _ _ pred hi hd hm hpred).2 (hcovers k _ _ hd hm)

end Areas

/-! ## The rule that fires -/

section Firing

variable {target : Cube} {registry : CubeRegistry} {doc : RuleDoc} {cm : CompiledModel}

theorem compile_eq_ok (h : compile target registry doc = .ok cm) :
    List.Forall₂ (fun rule compiled => compileRule target registry
      ((registry.ordinal target.name).getD 0) rule = .ok compiled) doc.rules cm.rules := by
  obtain ⟨rules, hrules, h⟩ := bind_eq_ok.1 h
  obtain rfl := Except.ok.inj h
  exact mapM_eq_ok.1 hrules

theorem compileRule_eq_ok {ordinal : Nat} {rule : Rule} {compiled : CompiledRule}
    (h : compileRule target registry ordinal rule = .ok compiled) :
    compileArea target rule.area = .ok compiled.area ∧
      lowerExpr target registry ordinal rule.formula = .ok compiled.expr := by
  obtain ⟨area, harea, h⟩ := bind_eq_ok.1 h
  obtain ⟨expr, hexpr, h⟩ := bind_eq_ok.1 h
  obtain rfl := Except.ok.inj h
  exact ⟨harea, hexpr⟩

/-- **Compiled rules fit their cube.** -/
theorem fits_of_compile (hdistinct : (target.dimensions.map Dimension.name).Nodup)
    (h : compile target registry doc = .ok cm) : cm.Fits target := by
  intro compiled hcompiled
  obtain ⟨k, hk⟩ := List.getElem?_of_mem hcompiled
  obtain ⟨hlen, hat⟩ := forall₂_iff_getElem?.1 (compile_eq_ok h)
  have hlt : k < doc.rules.length := hlen ▸ (List.getElem?_eq_some_iff.1 hk).1
  have hrule := hat k _ _ (List.getElem?_eq_getElem hlt) hk
  exact (compileArea_eq_ok hdistinct (compileRule_eq_ok hrule).1).1

variable {a : Coord} {members : List String}

theorem find?_matches (hwf : target.WF)
    (hdistinct : (target.dimensions.map Dimension.name).Nodup) {ordinal : Nat}
    {rules : List Rule} {compiled : List CompiledRule}
    (hdoc : ∀ rule ∈ rules, (rule.area.selectors.map DimSelector.dimension).Nodup)
    (h : List.Forall₂ (fun rule c => compileRule target registry ordinal rule = .ok c)
      rules compiled) (ha : Cube.Named target.dimensions a members) :
    (∀ rule, FirstCovering target members rules rule → ∃ c,
      compileRule target registry ordinal rule = .ok c ∧
        (compiled.find? fun r => r.area.matches target a) = some c) ∧
      ((∀ rule ∈ rules, ¬ rule.area.Covers target members) →
        (compiled.find? fun r => r.area.matches target a) = none) := by
  induction h with
  | nil => exact ⟨fun rule ⟨before, after, h, _⟩ => by simp at h, fun _ => rfl⟩
  | @cons rule c rules compiled hc _ ih =>
    obtain ⟨hsome, hnone⟩ := ih fun r hr => hdoc r (List.mem_cons_of_mem _ hr)
    have hcovers := matches_iff_covers hwf hdistinct (hdoc rule List.mem_cons_self)
      (compileRule_eq_ok hc).1 ha
    have hskipped : ¬ c.area.matches target a = true →
        ((c :: compiled).find? fun r => r.area.matches target a) =
          compiled.find? fun r => r.area.matches target a :=
      fun h => List.find?_cons_of_neg (p := fun r : CompiledRule => r.area.matches target a) h
    constructor
    · rintro first ⟨_ | ⟨skipped, before⟩, after, heq, hfirst, hbefore⟩
      · obtain ⟨rfl, -⟩ := List.cons.inj heq
        exact ⟨c, hc, List.find?_cons_of_pos (hcovers.2 hfirst)⟩
      · obtain ⟨rfl, hrest⟩ := List.cons.inj heq
        have hskip : ¬ c.area.matches target a = true :=
          fun hm => hbefore rule List.mem_cons_self (hcovers.1 hm)
        obtain ⟨c', hc', hfind⟩ := hsome first
          ⟨before, after, hrest, hfirst, fun r hr => hbefore r (List.mem_cons_of_mem _ hr)⟩
        exact ⟨c', hc', (hskipped hskip).trans hfind⟩
    · intro hall
      have hskip : ¬ c.area.matches target a = true :=
        fun hm => hall rule List.mem_cons_self (hcovers.1 hm)
      rw [hskipped hskip]
      exact hnone fun r hr => hall r (List.mem_cons_of_mem _ hr)

/-- **The rule that fires is the first that covers the cell.** -/
theorem matchingRule_of_firstCovering (hwf : target.WF)
    (hdistinct : (target.dimensions.map Dimension.name).Nodup)
    (hdoc : ∀ rule ∈ doc.rules, (rule.area.selectors.map DimSelector.dimension).Nodup)
    (h : compile target registry doc = .ok cm) (ha : Cube.Named target.dimensions a members)
    {rule : Rule} (hfirst : FirstCovering target members doc.rules rule) : ∃ compiled,
      compileRule target registry ((registry.ordinal target.name).getD 0) rule = .ok compiled ∧
        cm.matchingRule target a = some compiled :=
  (find?_matches hwf hdistinct hdoc (compile_eq_ok h) ha).1 rule hfirst

/-- Where no rule covers the cell, none fires. -/
theorem matchingRule_of_uncovered (hwf : target.WF)
    (hdistinct : (target.dimensions.map Dimension.name).Nodup)
    (hdoc : ∀ rule ∈ doc.rules, (rule.area.selectors.map DimSelector.dimension).Nodup)
    (h : compile target registry doc = .ok cm) (ha : Cube.Named target.dimensions a members)
    (hnone : ∀ rule ∈ doc.rules, ¬ rule.area.Covers target members) :
    cm.matchingRule target a = none :=
  (find?_matches hwf hdistinct hdoc (compile_eq_ok h) ha).2 hnone

end Firing

end Rules

end Epiphany
