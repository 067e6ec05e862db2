import Epiphany.Core.RollupByName
/-!
# Structural edits keep the data, by name

Reordering, inserting and deleting renumber one dimension, and growth
appends to several. Either way the cells move to the coordinate of the same
names (`tracks_remap`, `tracks_relayout`), and a subtree the edit did not
touch is there as it was. So what a reader finds under the names of before
is what was found there (`keptByName_of_run`).
-/

namespace Epiphany

namespace Dimension

open Relation

variable {d d' : Dimension} {toNew : Renumbering} {i : Nat}

/-! ## Subtrees that stay -/

theorem lt_of_reach (hd : d.WF) (hi : i < d.elements.length) {k : Nat}
    (h : ReflTransGen d.IsChild i k) : k < d.elements.length := by
  rcases h.cases_tail with rfl | ⟨p, -, e, he, rfl⟩
  · exact hi
  · exact hd.edges_lt p e he

theorem nameAt_isSome (hi : i < d.elements.length) : ∃ n, d.nameAt i = some n :=
  ⟨_, by rw [nameAt, List.getElem?_eq_getElem hi]; rfl⟩

theorem forall₂_filterMap {α β : Type} {R : α → β → Prop} {f : α → Option β} {l : List α}
    (h : ∀ a ∈ l, ∃ b, f a = some b ∧ R a b) : List.Forall₂ R l (l.filterMap f) := by
  induction l with
  | nil => exact List.Forall₂.nil
  | cons a l ih =>
    obtain ⟨b, hb, hR⟩ := h a List.mem_cons_self
    rw [List.filterMap_cons_some hb]
    exact List.Forall₂.cons hR (ih fun x hx => h x (List.mem_cons_of_mem _ hx))

theorem Renumbers.sameName (hr : Renumbers d d' toNew) {j : Nat} (hi : i < d.elements.length)
    (hij : moved toNew i = some j) : SameName d d' i j := by
  obtain ⟨n, hn⟩ := nameAt_isSome hi
  exact ⟨n, hn, by rw [nameAt, hr.elements i j hij]; exact hn⟩

/-- A subtree that a renumbering keeps whole is untouched. -/
theorem Renumbers.untouched (hd : d.WF) (hr : Renumbers d d' toNew) (hi : i < d.elements.length)
    (hkeep : ∀ k, ReflTransGen d.IsChild i k → ∃ j, moved toNew k = some j) :
    Untouched d d' i := by
  intro k hk
  obtain ⟨j, hj⟩ := hkeep k hk
  refine ⟨j, hr.sameName (lt_of_reach hd hi hk) hj, ?_, ?_⟩
  · rw [kindAt, hr.elements k j hj]
    rfl
  · rw [hr.edges k j hj]
    refine forall₂_filterMap fun e he => ?_
    have hchild : ReflTransGen d.IsChild i e.child := hk.tail ⟨e, he, rfl⟩
    obtain ⟨c, hc⟩ := hkeep _ hchild
    exact ⟨⟨c, e.weight⟩, by rw [moveEdge, hc]; rfl, rfl,
      hr.sameName (lt_of_reach hd hi hchild) hc⟩

/-- A subtree that growth adds no edge to is untouched. -/
theorem Grown.untouched (hd : d.WF) (hg : Grown d d') (hi : i < d.elements.length)
    (hedges : ∀ k, ReflTransGen d.IsChild i k → d'.edgesOf k = d.edgesOf k) :
    Untouched d d' i := by
  have hsame : ∀ k, ReflTransGen d.IsChild i k → SameName d d' k k := by
    intro k hk
    obtain ⟨n, hn⟩ := nameAt_isSome (lt_of_reach hd hi hk)
    exact ⟨n, hn, hg.nameAt hn⟩
  intro k hk
  refine ⟨k, hsame k hk, ?_, ?_⟩
  · exact congrArg (Option.map Element.kind) (hg.elements k (lt_of_reach hd hi hk))
  · rw [hedges k hk]
    exact List.forall₂_same.2 fun e he => ⟨rfl, hsame _ (hk.tail ⟨e, he, rfl⟩)⟩

theorem indexOf_iff (hd : d.WF) {n : String} : d.indexOf n = some i ↔ d.nameAt i = some n :=
  hd.index n i

/-- A reorder and an insert keep every element. -/
theorem moved_of_reorder (hd : d.WF) {newOrder : List String}
    (h : d.reorder newOrder = .ok (d', toNew)) (hi : i < d.elements.length) :
    ∃ j, moved toNew i = some j := by
  obtain ⟨hlen, hloop, -⟩ := reorder_ok h
  obtain ⟨hl, hp, -⟩ := hd.isPermutation_reorder hlen hloop
  exact hp.total i (hl ▸ hi)

theorem moved_of_insertAt {name : String} {kind : ElementKind} {position : Nat}
    (h : d.insertAt name kind position = .ok (d', toNew)) (hi : i < d.elements.length) :
    ∃ j, moved toNew i = some j := by
  obtain ⟨-, rfl, -⟩ := insertAt_ok h
  exact ⟨_, moved_insertMap.2 ⟨hi, rfl⟩⟩

/-- A delete keeps every element but its own. -/
theorem moved_of_delete {element : Nat} (h : d.delete element = .ok (d', toNew)) :
    (∃ j, moved toNew i = some j) ↔ i < d.elements.length ∧ i ≠ element := by
  obtain ⟨-, -, rfl, -⟩ := delete_ok h
  exact ⟨fun ⟨j, hj⟩ => ⟨(moved_deleteMap.1 hj).1, (moved_deleteMap.1 hj).2.1⟩,
    fun ⟨hlt, hne⟩ => ⟨_, moved_deleteMap.2 ⟨hlt, hne, rfl⟩⟩⟩

end Dimension

namespace Cube

open CellStore Dimension Relation

variable {c c' : Cube} {d : Nat} {old dim : Dimension} {toNew : Renumbering}
variable {dims dims' : List Dimension} {a b : Coord} {ns : List String}

/-! ## Renumbering tracks names -/

theorem dimensions_remap (c : Cube) (d : Nat) (dim : Dimension) (toNew : Renumbering) :
    ((c.setDimension d dim).remapCellsForDimension d toNew).dimensions =
      c.dimensions.set d dim := rfl

/-- A renumbered coordinate has the names of before. -/
theorem Named.set (h : Named dims a ns) (hold : dims[d]? = some old)
    (hr : Renumbers old dim toNew) {i j : Nat} (hi : a[d]? = some i)
    (hij : moved toNew i = some j) : Named (dims.set d dim) (a.set d j) ns := by
  refine ⟨by simp [h.length], by simp [h.length_names], fun k i' x hi' hx => ?_⟩
  by_cases hk : d = k
  · subst hk
    rw [List.getElem?_set_self (List.getElem?_eq_some_iff.1 hi).1] at hi'
    rw [List.getElem?_set_self (List.getElem?_eq_some_iff.1 hold).1] at hx
    cases hi'
    cases hx
    rw [← h.name_at d i old hi hold, nameAt, hr.elements i j hij]
    rfl
  · rw [List.getElem?_set_ne hk] at hi' hx
    exact h.name_at k i' x hi' hx

theorem Named.getElem? (h : Named dims a ns) (hold : dims[d]? = some old) :
    ∃ i, a[d]? = some i :=
  ⟨_, List.getElem?_eq_getElem (h.length ▸ (List.getElem?_eq_some_iff.1 hold).1)⟩

theorem remapCoord_iff_named (hdims' : ∀ x ∈ dims.set d dim, x.WF)
    (hold : dims[d]? = some old) (hr : Renumbers old dim toNew) (ha : InRange dims a)
    (hb : InRange (dims.set d dim) b) :
    remapCoord d toNew a = some b ↔
      ∃ ns, Named dims a ns ∧ Named (dims.set d dim) b ns := by
  constructor
  · intro hab
    obtain ⟨i, j, hi, hij, rfl⟩ := remapCoord_eq_some.1 hab
    exact ⟨_, named_memberNames ha, (named_memberNames ha).set hold hr hi hij⟩
  · rintro ⟨ns, hna, hnb⟩
    obtain ⟨i, hi⟩ := hna.getElem? hold
    have hself : (dims.set d dim)[d]? = some dim :=
      List.getElem?_set_self (List.getElem?_eq_some_iff.1 hold).1
    obtain ⟨j, hj⟩ := hnb.getElem? hself
    obtain ⟨n, hn, hn'⟩ := hna.sameName hnb hi hj hold hself
    have hij := hr.tracked i j n hn hn'
    rw [(hna.set hold hr hi hij).unique hdims' hnb |>.symm]
    exact remapCoord_eq_some.2 ⟨i, j, hi, hij, rfl⟩

/-- **A renumbering edit tracks the cells.** -/
theorem tracks_remap (hc : c.WF) (hold : c.dimensions[d]? = some old) (hdim : dim.WF)
    (hr : Renumbers old dim toNew) :
    Tracks c ((c.setDimension d dim).remapCellsForDimension d toNew) where
  wf := hc
  wf' := hc.remap hold hdim hr
  rank := by simp [dimensions_remap]
  moves := ⟨remapCoord d toNew, moves_remap hc hold (fun i j hi hij => hr.lt hi hij) hr.inj,
    fun a b ha hb => remapCoord_iff_named (hc.remap hold hdim hr).dims hold hr ha hb⟩
  kinds := by
    intro k x x' i i' hx hx' hname
    rw [dimensions_remap] at hx'
    by_cases hk : d = k
    · subst hk
      rw [List.getElem?_set_self (List.getElem?_eq_some_iff.1 hold).1] at hx'
      cases hx'
      obtain rfl := Option.some.inj (hold.symm.trans hx)
      obtain ⟨n, hn, hn'⟩ := hname
      rw [kindAt, hr.elements i i' (hr.tracked i i' n hn hn')]
      rfl
    · rw [List.getElem?_set_ne hk, hx] at hx'
      cases hx'
      obtain ⟨n, hn, hn'⟩ := hname
      rw [(hc.dims x (List.mem_of_getElem? hx)).nameAt_inj hn hn']

/-- The names that stand after a renumbering are those whose element it
kept. -/
theorem named_remap_iff (hold : dims[d]? = some old)
    (hr : Renumbers old dim toNew) (ha : Named dims a ns) {i : Nat} (hi : a[d]? = some i) :
    (∃ b, Named (dims.set d dim) b ns) ↔ ∃ j, moved toNew i = some j := by
  constructor
  · rintro ⟨b, hb⟩
    have hself : (dims.set d dim)[d]? = some dim :=
      List.getElem?_set_self (List.getElem?_eq_some_iff.1 hold).1
    obtain ⟨j, hj⟩ := hb.getElem? hself
    obtain ⟨n, hn, hn'⟩ := ha.sameName hb hi hj hold hself
    exact ⟨j, hr.tracked i j n hn hn'⟩
  · rintro ⟨j, hij⟩
    exact ⟨_, ha.set hold hr hi hij⟩

/-! ## Growth tracks names -/

theorem GrownAll.named (hg : GrownAll dims dims') (h : Named dims a ns) : Named dims' a ns := by
  obtain ⟨hl, hget⟩ := forall₂_iff_getElem?.1 hg
  refine ⟨h.length.trans hl, h.length_names.trans hl, fun k i x hi hx => ?_⟩
  have hk : k < dims.length := hl ▸ (List.getElem?_eq_some_iff.1 hx).1
  have hd := List.getElem?_eq_getElem hk
  have hn := List.getElem?_eq_getElem (h.length_names.symm ▸ hk)
  rw [hn]
  exact (hget k _ x hd hx).nameAt ((h.name_at k i _ hi hd).trans hn)

/-- **Growth tracks the cells.** -/
theorem tracks_relayout (hc : c.WF) (hg : GrownAll c.dimensions dims') :
    Tracks c ({ c with dimensions := dims' } : Cube).relayout where
  wf := hc
  wf' := hc.grow hg
  rank := by rw [dimensions_relayout]; exact (List.Forall₂.length_eq hg).symm
  moves := by
    refine ⟨some, moves_relayout hc hg, fun a b ha hb => ?_⟩
    rw [dimensions_relayout] at hb ⊢
    rw [Option.some.injEq]
    constructor
    · rintro rfl
      exact ⟨_, named_memberNames ha, hg.named (named_memberNames ha)⟩
    · rintro ⟨ns, hna, hnb⟩
      exact (hg.named hna).unique (hg.wf hc.dims) hnb
  kinds := by
    intro k x x' i i' hx hx' hname
    rw [dimensions_relayout] at hx'
    obtain ⟨n, hn, hn'⟩ := hname
    have hgk := (forall₂_iff_getElem?.1 hg).2 k x x' hx hx'
    have hwf := hg.wf hc.dims x' (List.mem_of_getElem? hx')
    obtain rfl := hwf.nameAt_inj (hgk.nameAt hn) hn'
    rw [kindAt, hgk.elements i (lt_of_nameAt hn)]
    rfl

/-! ## Where growth adds edges -/

theorem findDimension_congr {cube name : String}
    (h : dims.map Dimension.name = dims'.map Dimension.name) :
    findDimension cube dims name = findDimension cube dims' name := by
  have hfind : ∀ l : List Dimension, (l.findIdx? fun x => x.name = name) =
      (l.map Dimension.name).findIdx? fun x => x = name := by
    intro l
    rw [List.findIdx?_map]
    rfl
  rw [findDimension, findDimension, hfind, hfind, h]

theorem GrownAll.names (hg : GrownAll dims dims') :
    dims.map Dimension.name = dims'.map Dimension.name := by
  induction hg with
  | nil => rfl
  | cons hd _ ih => rw [List.map_cons, List.map_cons, ih, hd.name]

/-- New elements bring no edges. -/
theorem edgesOf_growElements {cube : String} {added n : Nat} {specs : List ElementSpec}
    (h : growElements cube dims added specs = .ok (dims', n)) {k : Nat} {x x' : Dimension}
    (hx : dims[k]? = some x) (hx' : dims'[k]? = some x') (p : Nat) :
    x'.edgesOf p = x.edgesOf p := by
  induction specs generalizing dims added x with
  | nil =>
    cases h
    rw [Option.some.inj (hx.symm.trans hx')]
  | cons spec specs ih =>
    simp only [growElements, bind_eq_ok] at h
    obtain ⟨j, hj, ⟨dim, m⟩, hdim, h⟩ := h
    obtain ⟨old, hold, -⟩ := findDimension_ok hj
    rw [List.getD, hold] at hdim
    by_cases hk : j = k
    · subst hk
      obtain rfl := Option.some.inj (hold.symm.trans hx)
      have hself : (dims.set j dim)[j]? = some dim :=
        List.getElem?_set_self (List.getElem?_eq_some_iff.1 hold).1
      rw [ih h hself]
      simp only [Option.getD_some, growElement] at hdim
      split at hdim
      · simp only [bind_eq_ok, ite_error_eq_ok, Except.ok.injEq, Prod.mk.injEq] at hdim
        obtain ⟨_, -, -, rfl, -⟩ := hdim
        rfl
      · cases hdim
        exact edgesOf_addElement _ _ _ p
    · exact ih h ((List.getElem?_set_ne hk).trans hx)

/-- An element keeps its edges when every one asked for under it is
there. -/
theorem edgesOf_growEdges {cube : String} {specs : List EdgeSpec}
    (h : growEdges cube dims specs = .ok dims') {k : Nat} {x x' : Dimension}
    (hx : dims[k]? = some x) (hx' : dims'[k]? = some x') {p : Nat}
    (hthere : ∀ spec ∈ specs, findDimension cube dims spec.dimension = .ok k →
      x.indexOf spec.parent = some p →
        ∃ e ∈ x.edgesOf p, x.indexOf spec.child = some e.child) :
    x'.edgesOf p = x.edgesOf p := by
  induction specs generalizing dims x with
  | nil =>
    cases h
    rw [Option.some.inj (hx.symm.trans hx')]
  | cons spec specs ih =>
    simp only [growEdges, bind_eq_ok] at h
    obtain ⟨j, hj, dim, hdim, h⟩ := h
    obtain ⟨old, hold, -⟩ := findDimension_ok hj
    rw [List.getD, hold, Option.getD_some] at hdim
    have hnames : (dims.set j dim).map Dimension.name = dims.map Dimension.name :=
      (GrownAll.set hold (growEdge_ok hdim)).names.symm
    have hrest : ∀ s ∈ specs, findDimension cube (dims.set j dim) s.dimension = .ok k →
        x.indexOf s.parent = some p → ∃ e ∈ x.edgesOf p, x.indexOf s.child = some e.child := by
      intro s hs hsk
      rw [findDimension_congr hnames] at hsk
      exact hthere s (List.mem_cons_of_mem _ hs) hsk
    by_cases hk : j = k
    · subst hk
      obtain rfl := Option.some.inj (hold.symm.trans hx)
      have hself : (dims.set j dim)[j]? = some dim :=
        List.getElem?_set_self (List.getElem?_eq_some_iff.1 hold).1
      -- one step adds no edge under `p`, and no name
      have hstep : dim.edgesOf p = old.edgesOf p ∧ dim.indexByName = old.indexByName := by
        simp only [growEdge, bind_eq_ok, findElement_eq_ok] at hdim
        obtain ⟨parent, hparent, child, hchild, w, hw, hdim⟩ := hdim
        rcases w with _ | w
        · obtain ⟨-, -, -, rfl⟩ := addChild_ok hdim
          refine ⟨?_, rfl⟩
          rw [edgesOf_modify]
          split_ifs with hp
          · obtain ⟨e, he, hec⟩ := hthere spec List.mem_cons_self hj (hp.1 ▸ hparent)
            obtain rfl := Option.some.inj (hchild.symm.trans hec)
            simp only [childWeight, bind_eq_ok, Except.ok.injEq] at hw
            obtain ⟨-, -, -, -, hw⟩ := hw
            rw [Option.map_eq_none_iff, List.find?_eq_none] at hw
            exact absurd (decide_eq_true rfl) (hw e (hp.1.symm ▸ he))
          · rfl
        · simp only [ite_error_eq_ok, Except.ok.injEq] at hdim
          rw [hdim.2]
          exact ⟨rfl, rfl⟩
      have hindex : ∀ n, dim.indexOf n = old.indexOf n := fun n => by
        rw [indexOf, indexOf, hstep.2]
      rw [ih h hself fun s hs hsk hp => ?_, hstep.1]
      rw [hindex] at hp
      rw [hstep.1, hindex]
      exact hrest s hs hsk hp
    · exact ih h ((List.getElem?_set_ne hk).trans hx) hrest

/-! ## What a structural edit keeps -/

end Cube

/-- The edits that renumber or append. -/
def CubeOp.structural : CubeOp → Bool
  | .reorderElements _ _ | .insertElementAt _ _ _ _ | .deleteElement _ _
  | .extendSchema _ _ => true
  | _ => false

namespace Cube

open Dimension Relation

variable {c c' : Cube} {d : Nat} {old dim : Dimension} {toNew : Renumbering}

/-- Whether names address the member that an edit deletes. -/
def deletes (c : Cube) (op : CubeOp) (ns : List String) : Bool :=
  match op with
  | .deleteElement dimension element =>
    match c.dimensionIndex dimension with
    | .ok d => ns[d]? = some element
    | .error _ => false
  | _ => false

/-- **The edit touches the subtree of an element**: it deletes a member of
the subtree, or adds an edge under one. -/
def Touches (c : Cube) (op : CubeOp) (d i : Nat) : Prop :=
  match op with
  | .deleteElement dimension element => c.dimensionIndex dimension = .ok d ∧
      ∃ k, ReflTransGen (c.dimension d).IsChild i k ∧ (c.dimension d).nameAt k = some element
  | .extendSchema _ edges => ∃ spec ∈ edges, c.dimensionIndex spec.dimension = .ok d ∧
      ∃ p, ReflTransGen (c.dimension d).IsChild i p ∧
        (c.dimension d).nameAt p = some spec.parent ∧
        ¬ ∃ e ∈ (c.dimension d).edgesOf p, (c.dimension d).nameAt e.child = some spec.child
  | _ => False

/-- **The data of a cube is kept by name.** -/
structure KeptByName (c : Cube) (op : CubeOp) (c' : Cube) : Prop where
  /-- The coordinates that survive are those of no deleted member. -/
  survives : ∀ ns a, locate c.dimensions ns = some a →
    ((locate c'.dimensions ns).isSome ↔ c.deletes op ns = false)
  /-- A surviving coordinate reads the same number and the same text. -/
  reads : ∀ ns a b, locate c.dimensions ns = some a → locate c'.dimensions ns = some b →
    c'.getLeaf b = c.getLeaf a ∧ c'.getString b = c.getString a
  /-- A read over untouched subtrees gives the same value or error. -/
  rollup : ∀ ns a b, locate c.dimensions ns = some a → locate c'.dimensions ns = some b →
    (∀ d i, a[d]? = some i → ¬ c.Touches op d i) → c'.get b = c.get a
  /-- The cells after are those before of no deleted member, each once. -/
  numbers : c'.namedNumbers.Perm (c.namedNumbers.filter fun e => !c.deletes op e.1)
  texts : c'.namedTexts.Perm (c.namedTexts.filter fun e => !c.deletes op e.1)

/-- An edit that tracks the cells and keeps the untouched subtrees keeps the
data. -/
theorem Tracks.keptByName {op : CubeOp} (h : Tracks c c')
    (hsurvives : ∀ ns a, Named c.dimensions a ns →
      ((∃ b, Named c'.dimensions b ns) ↔ c.deletes op ns = false))
    (huntouched : ∀ (d : Nat) i x x', c.dimensions[d]? = some x → c'.dimensions[d]? = some x' →
      i < x.elements.length → ¬ c.Touches op d i → Untouched x x' i) :
    KeptByName c op c' := by
  have hwhere : ∀ ns a, Named c.dimensions a ns →
      ((locate c'.dimensions ns).isSome ↔ c.deletes op ns = false) := by
    intro ns a ha
    rw [← hsurvives ns a ha, Option.isSome_iff_exists]
    exact exists_congr fun b => locate_eq_some h.wf'.dims
  have hfilter : ∀ {α : Type} {l : List (List String × α)},
      (∀ e ∈ l, ∃ a, Named c.dimensions a e.1) →
      (l.filter fun e => (locate c'.dimensions e.1).isSome) =
        l.filter fun e => !c.deletes op e.1 := by
    intro α l hl
    refine List.filter_congr fun e he => ?_
    obtain ⟨a, ha⟩ := hl e he
    rw [Bool.eq_iff_iff, hwhere e.1 a ha, Bool.not_eq_true']
  refine
    { survives := fun ns a ha => hwhere ns a ((locate_eq_some h.wf.dims).1 ha)
      reads := fun ns a b ha hb => ?_
      rollup := fun ns a b ha hb hno => ?_
      numbers := ?_
      texts := ?_ }
  · rw [locate_eq_some h.wf.dims] at ha
    rw [locate_eq_some h.wf'.dims] at hb
    exact ⟨h.getLeaf_eq ha hb, h.getString_eq ha hb⟩
  · rw [locate_eq_some h.wf.dims] at ha
    rw [locate_eq_some h.wf'.dims] at hb
    refine h.get_eq ha hb fun k i i' x x' l l' hi hi' hx hx' hl hl' => ?_
    have hname := ha.sameName hb hi hi' hx hx'
    exact sameRollup_of_untouched (h.wf.dims x (List.mem_of_getElem? hx))
      (h.wf'.dims x' (List.mem_of_getElem? hx')) hname
      (huntouched k i x x' hx hx' hname.lt.1 (hno k i hi)) hl hl'
  · rw [← hfilter fun e he => ?_]
    · exact h.namedNumbers_perm
    · obtain ⟨a, ha, -⟩ := (mem_namedNumbers h.wf).1 (show (e.1, e.2) ∈ _ from he)
      exact ⟨a, ha⟩
  · rw [← hfilter fun e he => ?_]
    · exact h.namedTexts_perm
    · obtain ⟨a, ha, -⟩ := (mem_namedTexts h.wf).1 (show (e.1, e.2) ∈ _ from he)
      exact ⟨a, ha⟩

/-- A subtree of a dimension the edit leaves alone is untouched. -/
theorem untouched_self {x : Dimension} (hx : x.WF) {i : Nat} (hi : i < x.elements.length) :
    Untouched x x i := (Grown.refl x).untouched hx hi fun _ _ => rfl

/-- A renumbering edit keeps the data. -/
theorem keptByName_remap {op : CubeOp} (hc : c.WF) (hold : c.dimensions[d]? = some old)
    (hdim : dim.WF) (hr : Renumbers old dim toNew)
    (hdeletes : ∀ (ns : List String) i n, old.nameAt i = some n → ns[d]? = some n →
      ((∃ j, moved toNew i = some j) ↔ c.deletes op ns = false))
    (hkeep : ∀ i, i < old.elements.length → ¬ c.Touches op d i →
      ∀ k, ReflTransGen old.IsChild i k → ∃ j, moved toNew k = some j) :
    KeptByName c op ((c.setDimension d dim).remapCellsForDimension d toNew) := by
  refine (tracks_remap hc hold hdim hr).keptByName (fun ns a ha => ?_) ?_
  · rw [dimensions_remap]
    obtain ⟨i, hi⟩ := ha.getElem? hold
    have hk : d < ns.length := ha.length_names ▸ (List.getElem?_eq_some_iff.1 hold).1
    have hn := List.getElem?_eq_getElem hk
    exact (named_remap_iff hold hr ha hi).trans
      (hdeletes ns i _ ((ha.name_at d i old hi hold).trans hn) hn)
  · intro k i x x' hx hx' hi hno
    have hxwf := hc.dims x (List.mem_of_getElem? hx)
    rw [dimensions_remap] at hx'
    by_cases hk : d = k
    · subst hk
      rw [List.getElem?_set_self (List.getElem?_eq_some_iff.1 hold).1] at hx'
      cases hx'
      obtain rfl := Option.some.inj (hold.symm.trans hx)
      exact hr.untouched hxwf hi (hkeep i hi hno)
    · rw [List.getElem?_set_ne hk, hx] at hx'
      cases hx'
      exact untouched_self hxwf hi

/-- A renumbering that keeps every element, by an edit that deletes none. -/
theorem keptByName_remap_total {op : CubeOp} (hc : c.WF) (hold : c.dimensions[d]? = some old)
    (hdim : dim.WF) (hr : Renumbers old dim toNew)
    (htotal : ∀ i < old.elements.length, ∃ j, moved toNew i = some j)
    (hdeletes : ∀ ns, c.deletes op ns = false) :
    KeptByName c op ((c.setDimension d dim).remapCellsForDimension d toNew) := by
  refine keptByName_remap hc hold hdim hr (fun ns i n hn _ => ?_) fun i hi _ k hk => ?_
  · exact iff_of_true (htotal i (lt_of_nameAt hn)) (hdeletes ns)
  · exact htotal k (lt_of_reach (hc.dims old (List.mem_of_getElem? hold)) hi hk)

theorem keptByName_reorderElements (hc : c.WF) {dimension : String} {newOrder : List String}
    (h : c.reorderElements dimension newOrder = .ok c') :
    KeptByName c (.reorderElements dimension newOrder) c' := by
  obtain ⟨d, dim, toNew, hold, -, hr, rfl⟩ := reorderElements_ok h
  have hd := hc.dimension hold
  exact keptByName_remap_total hc hold (hd.reorder hr) (renumbers_reorder hd hr)
    (fun i hi => moved_of_reorder hd hr hi) fun _ => rfl

theorem keptByName_insertElementAt (hc : c.WF) {dimension name : String} {kind : ElementKind}
    {position : Position} (h : c.insertElementAt dimension name kind position = .ok c') :
    KeptByName c (.insertElementAt dimension name kind position) c' := by
  obtain ⟨d, dim, toNew, i, hold, -, hr, rfl⟩ := insertElementAt_ok h
  have hd := hc.dimension hold
  exact keptByName_remap_total hc hold (hd.insertAt hr) (renumbers_insertAt hd hr)
    (fun i hi => moved_of_insertAt hr hi) fun _ => rfl

theorem keptByName_deleteElement (hc : c.WF) {dimension element : String}
    (h : c.deleteElement dimension element = .ok c') :
    KeptByName c (.deleteElement dimension element) c' := by
  have h' := h
  simp only [deleteElement, bind_eq_ok, findElement_eq_ok, Except.ok.injEq] at h'
  obtain ⟨d, hd, i, hi, ⟨dim, toNew⟩, hr, rfl⟩ := h'
  obtain ⟨hold, -⟩ := dimensionIndex_ok hd
  have hwf := hc.dimension hold
  have hname := (hwf.index element i).1 hi
  refine keptByName_remap hc hold (hwf.delete hr) (renumbers_deleteElement hwf hr)
    (fun ns k n hk hn => ?_) fun k hk hno m hm => ?_
  · rw [moved_of_delete hr, deletes, hd]
    simp only [hn, Option.some.injEq, decide_eq_false_iff_not]
    constructor
    · rintro ⟨-, hne⟩ rfl
      exact hne (hwf.nameAt_inj hk hname)
    · intro hne
      refine ⟨lt_of_nameAt hk, ?_⟩
      rintro rfl
      exact hne (Option.some.inj (hk.symm.trans hname))
  · refine (moved_of_delete hr).2 ⟨lt_of_reach hwf hk hm, ?_⟩
    rintro rfl
    exact hno ⟨hd, m, hm, hname⟩

theorem keptByName_extendSchema (hc : c.WF) {elements : List ElementSpec}
    {edges : List EdgeSpec} {n : Nat} (h : c.extendSchema elements edges = .ok (c', n)) :
    KeptByName c (.extendSchema elements edges) c' := by
  obtain ⟨dims, hg, rfl⟩ := extendSchema_ok h
  have hgrown := applyGrowth_ok hg
  refine (tracks_relayout hc hgrown).keptByName (fun ns a ha => ?_) ?_
  · rw [dimensions_relayout]
    exact iff_of_true ⟨a, hgrown.named ha⟩ rfl
  · intro k i x x' hx hx' hi hno
    rw [dimensions_relayout] at hx'
    have hxwf := hc.dims x (List.mem_of_getElem? hx)
    have hxk := dimension_eq hx
    refine ((forall₂_iff_getElem?.1 hgrown).2 k x x' hx hx').untouched hxwf hi fun p hp => ?_
    simp only [applyGrowth, bind_eq_ok] at hg
    obtain ⟨⟨mid, m⟩, hmid, dims', hdims, hg⟩ := hg
    cases hg
    have hgm := growElements_ok hmid
    obtain ⟨hl, hget⟩ := forall₂_iff_getElem?.1 hgm
    have hy := List.getElem?_eq_getElem (hl ▸ (List.getElem?_eq_some_iff.1 hx).1)
    have hgk := hget k x _ hx hy
    have hywf := hgk.wf hxwf
    have hsame := edgesOf_growElements hmid hx hy p
    rw [edgesOf_growEdges hdims hy hx' fun spec hs hk hparent => ?_, hsame]
    -- an edge asked for under `p` is there, or the edit would touch it
    rw [hsame]
    rw [indexOf_iff hywf] at hparent
    obtain ⟨q, hq⟩ := nameAt_isSome (lt_of_reach hxwf hi hp)
    obtain rfl := Option.some.inj ((hgk.nameAt hq).symm.trans hparent)
    by_contra hnew
    refine hno ⟨spec, hs, ?_, p, hxk ▸ hp, hxk ▸ hq, ?_⟩
    · rw [dimensionIndex, findDimension_congr hgm.names]
      exact hk
    · rintro ⟨e, he, hec⟩
      rw [hxk] at he hec
      exact hnew ⟨e, he, (indexOf_iff hywf).2 (hgk.nameAt hec)⟩

/-- **Structural edits preserve data by member name**, and a refused one
changes nothing. -/
theorem keptByName_of_run (c : Cube) (hc : c.WF) (op : CubeOp) (hop : op.structural = true) :
    (∀ c', c.run op = .ok c' → KeptByName c op c') ∧
      ∀ e, c.run op = .error e → c.apply op = c := by
  refine ⟨fun c' h => ?_, fun e h => by rw [Cube.apply, h]⟩
  cases op with
  | reorderElements dimension newOrder => exact keptByName_reorderElements hc h
  | insertElementAt dimension name kind position => exact keptByName_insertElementAt hc h
  | deleteElement dimension element => exact keptByName_deleteElement hc h
  | extendSchema elements edges =>
    obtain ⟨⟨next, n⟩, hn, heq⟩ := bind_eq_ok.1 h
    cases heq
    exact keptByName_extendSchema hc hn
  | _ => cases hop

/-- North is deleted from a cube that stores two amounts and a note: what the
South has is read where the South has moved to. -/
theorem keptByName_of_sales_delete : ∃ start c' : Cube,
    Cube.build "Sales" salesDefs = .ok start ∧
    (salesWrites.foldl Cube.apply start).run (.deleteElement "Region" "North") = .ok c' ∧
    (c'.getLeaf [0, 0] = .ok southAmount ∧ c'.getString [0, 1] = .ok (some "late") ∧
      c'.namedNumbers.length = 1 ∧ c'.namedTexts.length = 1) ∧
    KeptByName (salesWrites.foldl Cube.apply start) (.deleteElement "Region" "North") c' := by
  obtain ⟨start, hstart, h⟩ := exists_ok_of_any (by decide +kernel :
    (Cube.build "Sales" salesDefs).toOption.any (fun start =>
      ((salesWrites.foldl Cube.apply start).run (.deleteElement "Region" "North")).toOption.any
        fun c' => c'.getLeaf [0, 0] = .ok southAmount ∧
          c'.getString [0, 1] = .ok (some "late") ∧
          c'.namedNumbers.length = 1 ∧ c'.namedTexts.length = 1) = true)
  obtain ⟨c', h, hreads⟩ := exists_ok_of_any h
  have hwf := (WF.build hstart).calls salesWrites
  exact ⟨start, c', hstart, h, of_decide_eq_true hreads,
    (keptByName_of_run _ hwf _ rfl).1 c' h⟩

end Cube

end Epiphany
