import Epiphany.Engine.Reconcile
/-!
# Outlines — a dimension without its pins and attributes

Whether a growth or an edit is accepted, and which members and edges it
leaves, depends on the members, their kinds and the edges alone. Copies of a
dimension that differ in pins or attributes therefore stay copies in their
outlines under every change that is made on both.
-/

namespace Epiphany

/-- An element that is not pinned. -/
def Element.unpinned (e : Element) : Element := { e with pinnedToTop := false }

@[simp] theorem Element.unpinned_unpinned (e : Element) : e.unpinned.unpinned = e.unpinned := rfl

namespace Dimension

variable (d : Dimension)

/-- The members with their kinds, and the edges. -/
def outline : Dimension where
  name := d.name
  elements := d.elements.map Element.unpinned
  indexByName := d.indexByName
  children := d.children
  attributes := []
  attrIndexByName := ∅
  attrValues := []
  aliasToElement := ∅

/-! ## Reads -/

theorem map_unpinned_eq_iff {d' : Dimension} :
    d.elements.map Element.unpinned = d'.elements.map Element.unpinned ↔
      d.signature = d'.signature := by
  have h : ∀ l : List Element, l.map Element.unpinned =
      (l.map fun e => (e.name, e.kind)).map fun x => ⟨x.1, x.2, false⟩ := by
    intro l
    rw [List.map_map]
    rfl
  have h' : ∀ l : List Element, (l.map fun e => (e.name, e.kind)) =
      (l.map Element.unpinned).map fun e => (e.name, e.kind) := by
    intro l
    rw [List.map_map]
    rfl
  constructor
  · intro heq
    rw [signature, signature, h' d.elements, h' d'.elements, heq]
  · intro heq
    rw [h d.elements, h d'.elements, show d.elements.map _ = _ from heq]
    rfl

variable {d}

/-- Well-formed dimensions have one outline when they have one structure. -/
theorem outline_eq_iff {d' : Dimension} (hd : d.WF) (hd' : d'.WF) :
    d.outline = d'.outline ↔ d.name = d'.name ∧ d.SameStructure d' := by
  constructor
  · intro h
    have hname := congrArg Dimension.name h
    have hmembers := congrArg Dimension.elements h
    have hchildren : d.children = d'.children := (congrArg Dimension.children h :)
    refine ⟨hname, (map_unpinned_eq_iff d).1 hmembers, fun p => ?_⟩
    rw [edgesOf, edgesOf, hchildren]
  · rintro ⟨hname, hsig, hedges⟩
    have hmembers := (map_unpinned_eq_iff d).2 hsig
    have hlen : d.elements.length = d'.elements.length := by
      simpa using congrArg List.length hmembers
    have hnames : ∀ i, d.nameAt i = d'.nameAt i := by
      intro i
      have hi := congrArg (fun l : List Element => l[i]?.map Element.name) hmembers
      simpa [nameAt, Element.unpinned, Function.comp_def] using hi
    have hindex : d.indexByName = d'.indexByName := by
      refine FinMap.ext fun n => Option.ext fun i => ?_
      rw [hd.index, hd'.index, hnames]
    have hchildren : d.children = d'.children := by
      refine List.ext_getElem (by rw [hd.children_length, hd'.children_length, hlen]) ?_
      intro p hp hp'
      have hat := hedges p
      rwa [edgesOf_eq (List.getElem?_eq_getElem hp), edgesOf_eq (List.getElem?_eq_getElem hp')]
        at hat
    simp only [outline, hname, hmembers, hindex, hchildren]

variable (d)

@[simp] theorem outline_outline : d.outline.outline = d.outline := by
  simp [outline]

@[simp] theorem name_outline : d.outline.name = d.name := rfl

@[simp] theorem len_outline : d.outline.len = d.len := by
  simp [outline, len]

@[simp] theorem length_elements_outline : d.outline.elements.length = d.elements.length :=
  d.len_outline

@[simp] theorem indexOf_outline (name : String) : d.outline.indexOf name = d.indexOf name := rfl

@[simp] theorem edgesOf_outline (p : Nat) : d.outline.edgesOf p = d.edgesOf p := rfl

theorem element_outline (i : Nat) : d.outline.element i = (d.element i).map Element.unpinned := by
  unfold element
  rw [len_outline]
  simp only [outline, List.getElem?_map]
  cases d.elements[i]? with
  | none => rfl
  | some e => rfl

@[simp] theorem reaches_outline (start target : Nat) :
    d.outline.reaches start target = d.reaches start target := by
  have hloop : ∀ n stack seen, d.outline.reachesLoop target n stack seen =
      d.reachesLoop target n stack seen := by
    intro n
    induction n with
    | zero => intro stack seen; rfl
    | succ n ih =>
      intro stack seen
      cases stack with
      | nil => rfl
      | cons x stack => simp only [reachesLoop, edgesOf_outline, ih]
  exact hloop _ _ _

theorem childrenOf_outline (p : Nat) : d.outline.childrenOf p = d.childrenOf p := by
  unfold childrenOf
  rw [element_outline]
  cases d.element p with
  | error e => rfl
  | ok el => rfl

theorem childWeight_outline (p c : Nat) : d.outline.childWeight p c = d.childWeight p c := by
  unfold childWeight
  rw [element_outline, element_outline]
  cases d.element p with
  | error e => rfl
  | ok el =>
    cases d.element c with
    | error e => rfl
    | ok el' => rfl

/-! ## Edits -/

theorem outline_addElement (name : String) (kind : ElementKind) :
    (d.addElement name kind).outline = (d.outline.addElement name kind).outline := by
  unfold addElement
  have hindex : d.outline.indexByName[name]? = d.indexByName[name]? := rfl
  rw [hindex]
  split
  · exact d.outline_outline.symm
  · simp [outline, Function.comp_def]

theorem outline_addChild (p c : Nat) (w : Int) :
    (d.addChild p c w).map outline = (d.outline.addChild p c w).map outline := by
  unfold addChild
  rw [element_outline, element_outline, reaches_outline]
  cases d.element c with
  | error e => rfl
  | ok childEl =>
    cases d.element p with
    | error e => rfl
    | ok parentEl =>
      simp only [Except.map, bind, Except.bind, Element.unpinned, name_outline]
      split_ifs
      · rfl
      · rfl
      · simp [outline, Function.comp_def]

theorem outline_removeChild (p c : Nat) :
    (d.removeChild p c).map outline = (d.outline.removeChild p c).map outline := by
  unfold removeChild
  rw [element_outline, element_outline]
  cases d.element c with
  | error e => rfl
  | ok childEl =>
    cases d.element p with
    | error e => rfl
    | ok parentEl =>
      simp [Except.map, bind, Except.bind, outline, Function.comp_def]

theorem outline_setPin (i : Nat) (pinned : Bool) :
    (d.setPin i pinned).map outline = (d.outline.setPin i pinned).map outline := by
  unfold setPin
  rw [element_outline]
  have hmodify : ∀ l : List Element,
      (l.modify i fun e => { e with pinnedToTop := pinned }).map Element.unpinned =
        l.map Element.unpinned := by
    intro l
    refine List.ext_getElem? fun j => ?_
    rw [List.getElem?_map, List.getElem?_map, List.getElem?_modify]
    split_ifs
    · cases l[j]? with
      | none => rfl
      | some e => rfl
    · cases l[j]? with
      | none => rfl
      | some e => rfl
  cases d.element i with
  | error e => rfl
  | ok el =>
    simp [Except.map, bind, Except.bind, outline, hmodify, Function.comp_def]

theorem map_modify_kind (l : List Element) (i : Nat) (kind : ElementKind) :
    (l.modify i fun e => { e with kind := kind }).map Element.unpinned =
      (l.map Element.unpinned).modify i fun e => { e with kind := kind } := by
  refine List.ext_getElem? fun j => ?_
  rw [List.getElem?_map, List.getElem?_modify, List.getElem?_modify, List.getElem?_map]
  split_ifs
  · cases l[j]? with
    | none => rfl
    | some e => rfl
  · cases l[j]? with
    | none => rfl
    | some e => rfl

theorem outline_setKind (i : Nat) (kind : ElementKind) :
    (d.setKind i kind).map (fun r => r.1.outline) =
      (d.outline.setKind i kind).map fun r => r.1.outline := by
  unfold setKind
  rw [element_outline]
  cases d.element i with
  | error e => rfl
  | ok el =>
    simp only [Except.map, bind, Except.bind, Element.unpinned, edgesOf_outline, name_outline]
    by_cases hsame : el.kind = kind
    · simp [hsame]
    · by_cases hparent : el.kind = .consolidated ∧ d.edgesOf i ≠ []
      · simp [hparent.1 ▸ hsame, hparent]
      · simp [hsame, hparent, outline, map_modify_kind, Function.comp_def]

theorem outline_reparent (c : Nat) (newParent : Option Nat) (w : Int) :
    (d.reparent c newParent w).map outline = (d.outline.reparent c newParent w).map outline := by
  unfold reparent
  rw [element_outline]
  cases hc : d.element c with
  | error e => rfl
  | ok childEl =>
    cases newParent with
    | none => simp [Except.map, bind, Except.bind, outline, detach, Function.comp_def]
    | some p =>
      have hcheck : d.outline.checkParent c p = d.checkParent c p := by
        unfold checkParent
        rw [element_outline, element_outline, reaches_outline, hc]
        cases d.element p with
        | error e => rfl
        | ok parentEl => rfl
      simp only [Except.map, bind, Except.bind, hcheck]
      cases d.checkParent c p with
      | error e => rfl
      | ok u => simp [outline, detach, promote, map_modify_kind, Function.comp_def]

/-! ## Renumberings -/

theorem foldl_place_map {α β : Type} (f : α → β) (l : List (α × Option Nat))
    (out : List (Option α)) :
    (l.map fun x => (f x.1, x.2)).foldl place (out.map (Option.map f)) =
      (l.foldl place out).map (Option.map f) := by
  induction l generalizing out with
  | nil => rfl
  | cons x l ih =>
    rw [List.map_cons, List.foldl_cons, List.foldl_cons, ← ih]
    obtain ⟨a, j⟩ := x
    cases j with
    | none => rfl
    | some j => simp [place, List.map_set]

theorem scatter_map {α β : Type} (f : α → β) (toNew : Renumbering) (xs : List α) :
    scatter toNew (xs.map f) = (scatter toNew xs).map f := by
  unfold scatter
  have hzip : (xs.map f).zip toNew = (xs.zip toNew).map fun x => (f x.1, x.2) := by
    rw [List.zip_map_left]
    rfl
  have hout : List.replicate (xs.map f).length (none : Option β) =
      (List.replicate xs.length (none : Option α)).map (Option.map f) := by
    simp
  rw [hzip, hout, foldl_place_map]
  generalize (xs.zip toNew).foldl place (List.replicate xs.length none) = out
  induction out with
  | nil => rfl
  | cons o out ih =>
    cases o with
    | none => exact ih
    | some a => exact congrArg (f a :: ·) ih

/-- Rebuilding the indexes commutes with taking the outline. -/
theorem outline_reindexNames {d d' : Dimension} (hname : d.name = d'.name)
    (helements : d.elements.map Element.unpinned = d'.elements.map Element.unpinned)
    (hchildren : d.children = d'.children) :
    (reindexNames d).outline = (reindexNames d').outline := by
  have hnames : d.elements.zipIdx.map (fun e => (e.1.name, e.2)) =
      d'.elements.zipIdx.map fun e => (e.1.name, e.2) := by
    have h : ∀ l : List Element, l.zipIdx.map (fun e => (e.1.name, e.2)) =
        (l.map Element.unpinned).zipIdx.map fun e => (e.1.name, e.2) := by
      intro l
      rw [List.zipIdx_map, List.map_map]
      rfl
    rw [h, helements, ← h]
  simp only [outline, reindexNames, hname, helements, hchildren, hnames]

theorem outline_reorder (newOrder : List String) :
    (d.reorder newOrder).map (fun r => r.1.outline) =
      (d.outline.reorder newOrder).map fun r => r.1.outline := by
  have hloop : ∀ names pos toNew, d.outline.reorderLoop names pos toNew =
      d.reorderLoop names pos toNew := by
    intro names
    induction names with
    | nil => intro pos toNew; rfl
    | cons n names ih =>
      intro pos toNew
      simp only [reorderLoop, indexOf_outline, name_outline, ih]
  unfold reorder
  rw [hloop, length_elements_outline]
  split_ifs
  · rfl
  · cases d.reorderLoop newOrder 0 (List.replicate d.elements.length none) with
    | error e => rfl
    | ok toNew =>
      refine congrArg Except.ok (outline_reindexNames rfl ?_ rfl)
      rw [← scatter_map, ← scatter_map]
      simp [outline, Function.comp_def]

theorem outline_delete (i : Nat) :
    (d.delete i).map (fun r => r.1.outline) = (d.outline.delete i).map fun r => r.1.outline := by
  unfold delete
  rw [element_outline, edgesOf_outline, length_elements_outline]
  cases d.element i with
  | error e => rfl
  | ok el =>
    simp only [Except.map, bind, Except.bind, Element.unpinned, name_outline]
    split_ifs
    · rfl
    · refine congrArg Except.ok (outline_reindexNames rfl ?_ rfl)
      simp [outline, Function.comp_def, List.eraseIdx_map]

theorem outline_insertAt (name : String) (kind : ElementKind) (position : Nat) :
    (d.insertAt name kind position).map (fun r => r.1.outline) =
      (d.outline.insertAt name kind position).map fun r => r.1.outline := by
  unfold insertAt
  rw [length_elements_outline]
  have hindex : d.outline.indexByName[name]? = d.indexByName[name]? := rfl
  rw [hindex]
  split_ifs
  · rfl
  · refine congrArg Except.ok (outline_reindexNames rfl ?_ rfl)
    simp [outline, Function.comp_def, List.map_insertIdx]

/-! ## Changes -/

variable {d} {α : Type}

/-- A step that depends on the outline keeps results of one outline so. -/
theorem map_outline_bind {x y : Except ModelError Dimension} {f : Dimension → Except ModelError α}
    {g : α → Dimension} (h : x.map outline = y.map outline)
    (hf : ∀ d, (f d).map g = (f d.outline).map g) :
    (x >>= f).map g = (y >>= f).map g := by
  obtain ⟨e, rfl, rfl⟩ | ⟨d, d', rfl, rfl, hout⟩ := map_eq_map_iff.1 h
  · rfl
  · exact (hf d).trans ((congrArg (fun x => (f x).map g) hout).trans (hf d').symm)

theorem map_fst_bind (x : Except ModelError (Dimension × α)) :
    (do let (d, _) ← x; .ok d : Except ModelError Dimension).map outline =
      x.map fun r => r.1.outline := by
  cases x with
  | error e => rfl
  | ok r => rfl

variable (d)

@[simp] theorem find_outline (name : String) : d.outline.find name = d.find name := rfl

theorem outline_mirrorConsolidation (p : Nat) :
    (d.mirrorConsolidation p).map outline = (d.outline.mirrorConsolidation p).map outline := by
  unfold mirrorConsolidation
  rw [element_outline]
  cases d.element p with
  | error e => rfl
  | ok el =>
    simp only [bind, Except.bind, Except.map, Element.unpinned]
    split_ifs
    · have h := d.outline_setKind p .consolidated
      rw [← map_fst_bind, ← map_fst_bind] at h
      exact h
    · exact congrArg Except.ok d.outline_outline.symm

/-- An edit of a dimension depends on its outline. -/
theorem outline_edit (edit : DimensionEdit) :
    (d.edit edit).map outline = (d.outline.edit edit).map outline := by
  -- members are found by their names, which the outline keeps
  cases edit with
  | reorder newOrder =>
    simp only [Dimension.edit]
    rw [map_fst_bind, map_fst_bind, outline_reorder]
  | reparent child newParent weight =>
    simp only [Dimension.edit, find_outline]
    cases d.find child with
    | error e => rfl
    | ok c =>
      cases newParent with
      | none => exact d.outline_reparent c none weight
      | some parent =>
        simp only [bind, Except.bind]
        cases d.find parent with
        | error e => rfl
        | ok p => exact d.outline_reparent c (some p) weight
  | addChild parent child weight =>
    simp only [Dimension.edit, find_outline, childrenOf_outline]
    cases d.find parent with
    | error e => rfl
    | ok p =>
      cases d.find child with
      | error e => rfl
      | ok c =>
        simp only [bind, Except.bind]
        cases d.childrenOf p with
        | error e => rfl
        | ok children =>
          dsimp only
          split_ifs
          · exact congrArg Except.ok d.outline_outline.symm
          · exact map_outline_bind (d.outline_mirrorConsolidation p) fun d =>
              d.outline_addChild p c weight
  | removeChild parent child =>
    simp only [Dimension.edit, find_outline]
    cases d.find parent with
    | error e => rfl
    | ok p =>
      cases d.find child with
      | error e => rfl
      | ok c => exact d.outline_removeChild p c
  | pinToTop element =>
    simp only [Dimension.edit, find_outline]
    cases d.find element with
    | error e => rfl
    | ok i => exact d.outline_setPin i true
  | unpinFromTop element =>
    simp only [Dimension.edit, find_outline]
    cases d.find element with
    | error e => rfl
    | ok i => exact d.outline_setPin i false
  | setKind element kind =>
    simp only [Dimension.edit, find_outline]
    cases d.find element with
    | error e => rfl
    | ok i =>
      have h := d.outline_setKind i kind
      rw [← map_fst_bind, ← map_fst_bind] at h
      exact h
  | delete element =>
    simp only [Dimension.edit, find_outline]
    cases d.find element with
    | error e => rfl
    | ok i =>
      have h := d.outline_delete i
      rw [← map_fst_bind, ← map_fst_bind] at h
      exact h
  | insert name kind position =>
    have hindex : Cube.insertIndex d.outline d.outline.name position =
        Cube.insertIndex d d.name position := by
      simp [Cube.insertIndex, Cube.findElement]
    simp only [Dimension.edit, hindex]
    cases Cube.insertIndex d d.name position with
    | error e => rfl
    | ok i =>
      have h := d.outline_insertAt name kind i
      rw [← map_fst_bind, ← map_fst_bind] at h
      exact h

theorem outline_growElement (spec : ElementSpec) :
    (Cube.growElement d spec).map (fun r => r.1.outline) =
      (Cube.growElement d.outline spec).map fun r => r.1.outline := by
  unfold Cube.growElement
  rw [indexOf_outline]
  split
  · rename_i i hi
    rw [element_outline]
    cases d.element i with
    | error e => rfl
    | ok el =>
      simp only [bind, Except.bind, Except.map, Element.unpinned]
      split_ifs
      · rfl
      · simp
  · exact congrArg Except.ok (d.outline_addElement spec.name spec.kind)

theorem outline_growEdge (spec : EdgeSpec) :
    (Cube.growEdge d spec).map outline = (Cube.growEdge d.outline spec).map outline := by
  have hfind : ∀ n, Cube.findElement d.outline spec.dimension n =
      Cube.findElement d spec.dimension n := fun n => rfl
  unfold Cube.growEdge
  rw [hfind, hfind]
  cases Cube.findElement d spec.dimension spec.parent with
  | error e => rfl
  | ok p =>
    cases Cube.findElement d spec.dimension spec.child with
    | error e => rfl
    | ok c =>
      simp only [bind, Except.bind, childWeight_outline]
      cases d.childWeight p c with
      | error e => rfl
      | ok w =>
        cases w with
        | none => exact d.outline_addChild p c spec.weight
        | some w =>
          dsimp only
          split_ifs
          · rfl
          · exact congrArg Except.ok d.outline_outline.symm

variable {d}

theorem grownElements_congr {d' : Dimension} (h : d.outline = d'.outline)
    (elements : List ElementSpec) (b b' : Bool) :
    (d.grownElements b elements).map (fun r => r.1.outline) =
      (d'.grownElements b' elements).map fun r => r.1.outline := by
  induction elements generalizing d d' b b' with
  | nil => exact congrArg Except.ok h
  | cons spec elements ih =>
    have hname : d.name = d'.name := (congrArg Dimension.name h :)
    have hstep : (Cube.growElement d (spec.stamp d.name)).map (fun r => r.1.outline) =
        (Cube.growElement d' (spec.stamp d'.name)).map fun r => r.1.outline := by
      rw [outline_growElement d, h, hname, ← outline_growElement d']
    simp only [grownElements]
    obtain ⟨e, hd, hd'⟩ | ⟨r, r', hd, hd', hout⟩ := map_eq_map_iff.1 hstep
    · rw [hd, hd']
      rfl
    · rw [hd, hd']
      exact ih hout _ _

theorem grownEdges_congr {d' : Dimension} (h : d.outline = d'.outline)
    (edges : List EdgeSpec) (b b' : Bool) :
    (d.grownEdges b edges).map (fun r => r.1.outline) =
      (d'.grownEdges b' edges).map fun r => r.1.outline := by
  induction edges generalizing d d' b b' with
  | nil => exact congrArg Except.ok h
  | cons spec edges ih =>
    have hname : d.name = d'.name := (congrArg Dimension.name h :)
    have hstep : (Cube.growEdge d (spec.stamp d.name)).map outline =
        (Cube.growEdge d' (spec.stamp d'.name)).map outline := by
      rw [outline_growEdge d, h, hname, ← outline_growEdge d']
    simp only [grownEdges]
    obtain ⟨e, hd, hd'⟩ | ⟨next, next', hd, hd', hout⟩ := map_eq_map_iff.1 hstep
    · rw [hd, hd']
      rfl
    · rw [hd, hd']
      exact ih hout _ _

/-- A growth of a dimension depends on its outline. -/
theorem outline_grow (elements : List ElementSpec) (edges : List EdgeSpec) :
    (d.grow elements edges).map (fun r => r.1.outline) =
      (d.outline.grow elements edges).map fun r => r.1.outline := by
  have hels := grownElements_congr d.outline_outline.symm elements false false
  unfold grow
  obtain ⟨e, hd, hd'⟩ | ⟨r, r', hd, hd', hout⟩ := map_eq_map_iff.1 hels
  · rw [hd, hd']
  · rw [hd, hd']
    exact grownEdges_congr hout edges _ _

end Dimension

/-- **A change of a dimension depends on its outline**: on copies with one
outline it is accepted on both or on neither, and leaves one outline. -/
theorem SharedChange.onDimension_congr {d d' : Dimension} (h : d.outline = d'.outline)
    (change : SharedChange) :
    (change.onDimension d).map Dimension.outline =
      (change.onDimension d').map Dimension.outline := by
  have hself : ∀ d : Dimension, (change.onDimension d).map Dimension.outline =
      (change.onDimension d.outline).map Dimension.outline := by
    intro d
    cases change with
    | grow elements edges =>
      simp only [onDimension]
      rw [Dimension.map_fst_bind, Dimension.map_fst_bind, Dimension.outline_grow]
    | edit edit => exact d.outline_edit edit
  rw [hself d, h, ← hself d']

end Epiphany
