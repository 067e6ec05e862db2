import Epiphany.Core.Decimal
import Epiphany.Core.Tables
/-!
# Dimensions as text — the document of a dimension

A dimension is saved as a document of names: its elements with their pins,
each parent's edges in declaration order, the attributes, and their values
as text. It is loaded by the operations that build any dimension. What is
loaded is the dimension that was saved (`buildDimension_dimDoc`), unless an
attribute holds the value whose text is not read back.
-/

namespace Epiphany

/-! ## Documents -/

/-- Why a model was not loaded from its text. -/
inductive LoadError where
  /-- The text is not a document. -/
  | toml
  | unknownFormat (tag : String)
  | unknownDimension (name : String)
  | unknownElement (dimension element : String)
  | coordRank (cube : String) (expected got : Nat)
  | model (e : ModelError)
deriving DecidableEq

structure ElDoc where
  name : String
  kind : ElementKind
  topLevel : Bool
deriving DecidableEq

structure EdgeDoc where
  parent : String
  child : String
  weight : Int
deriving DecidableEq

structure AttrValDoc where
  element : String
  attr : String
  value : String
deriving DecidableEq

structure DimDoc where
  name : String
  elements : List ElDoc
  edges : List EdgeDoc
  attributes : List AttributeDef
  attributeValues : List AttrValDoc
deriving DecidableEq

/-- The text of an attribute value. -/
def AttributeValue.toText : AttributeValue → String
  | .text content => content
  | .numeric number => number.toString

namespace Dimension

open Relation

/-- The document of a dimension. -/
def dimDoc (d : Dimension) : DimDoc :=
  let nameOf := fun i => (d.nameAt i).getD ""
  { name := d.name
    elements := d.elements.map fun e => ⟨e.name, e.kind, e.pinnedToTop⟩
    edges := (List.range d.len).flatMap fun parent =>
      (d.edgesOf parent).map fun e => ⟨nameOf parent, nameOf e.child, e.weight⟩
    attributes := d.attributes
    attributeValues := (List.range d.len).flatMap fun element =>
      (d.valuesOf element).toList.map fun v =>
        ⟨nameOf element, ((d.attributes[v.1]?).map AttributeDef.name).getD "", v.2.toText⟩ }

/-- Raise an error of the model to one of the loader. -/
def loading {α : Type} (x : Except ModelError α) : Except LoadError α := x.mapError .model

/-- Load one element, and its pin. -/
def buildElement (d : Dimension) (el : ElDoc) : Except LoadError Dimension :=
  let next := d.addElement el.name el.kind
  if el.topLevel then loading (next.pinToTop ((next.indexOf el.name).getD 0)) else .ok next

/-- The element a document names. -/
def elementNamed (dimension : String) (d : Dimension) (name : String) : Except LoadError Nat :=
  okOr (d.indexOf name) (.unknownElement dimension name)

def buildEdge (dimension : String) (d : Dimension) (edge : EdgeDoc) :
    Except LoadError Dimension := do
  let parent ← elementNamed dimension d edge.parent
  let child ← elementNamed dimension d edge.child
  loading (d.addChild parent child edge.weight)

/-- The value a text stands for, by the kind of its attribute. -/
def readValue (kind : AttributeKind) (text : String) : Except LoadError AttributeValue :=
  match kind with
  | .numeric => do
    let number ← loading (Fixed.fromStr text)
    .ok (.numeric number)
  | .text | .alias => .ok (.text text)

def buildValue (dimension : String) (d : Dimension) (av : AttrValDoc) :
    Except LoadError Dimension := do
  let element ← elementNamed dimension d av.element
  let kind ← okOr ((d.attributeIndex av.attr).bind d.attributeKind)
    (.model (.attributeNotFound dimension av.attr))
  let value ← readValue kind av.value
  loading (d.setAttribute element av.attr value)

/-- Load a dimension from its document. -/
def buildDimension (doc : DimDoc) : Except LoadError Dimension := do
  let d ← doc.elements.foldlM buildElement (Dimension.new doc.name)
  let d ← doc.edges.foldlM (buildEdge doc.name) d
  let d := doc.attributes.foldl (fun d a => d.addAttribute a.name a.kind) d
  doc.attributeValues.foldlM (buildValue doc.name) d

/-! ## Loading what was saved -/

variable {d d' b : Dimension}

theorem loading_eq_ok {α : Type} {x : Except ModelError α} {a : α} :
    loading x = .ok a ↔ x = .ok a := mapError_eq_ok

/-- What a loaded dimension takes from its elements, and what they leave. -/
structure SameRows (b b' : Dimension) : Prop where
  name : b'.name = b.name
  edges : ∀ q, b'.edgesOf q = b.edgesOf q
  attributes : b'.attributes = b.attributes
  values : ∀ q, b'.valuesOf q = b.valuesOf q

theorem SameRows.trans {b'' : Dimension} (h : SameRows b d) (h' : SameRows d b'') :
    SameRows b b'' where
  name := h'.name.trans h.name
  edges q := (h'.edges q).trans (h.edges q)
  attributes := h'.attributes.trans h.attributes
  values q := (h'.values q).trans (h.values q)

theorem setPin_of_lt {i : Nat} (hi : i < d.elements.length) (pinned : Bool) :
    d.setPin i pinned = .ok { d with
      elements := d.elements.modify i fun e => { e with pinnedToTop := pinned } } := by
  simp only [setPin, bind_eq_ok, element_eq_ok]
  exact ⟨_, List.getElem?_eq_getElem hi, trivial⟩

theorem modify_snoc {α : Type} (l : List α) (a : α) (f : α → α) :
    (l ++ [a]).modify l.length f = l ++ [f a] := by
  refine List.ext_getElem? fun i => ?_
  rw [List.getElem?_modify, getElem?_snoc, getElem?_snoc]
  by_cases hi : i = l.length
  · simp [hi]
  · simp [hi, Ne.symm hi]

/-- A new element, with its pin, stands at the end. -/
theorem buildElement_ok (hb : b.WF) {el : ElDoc} (hnew : el.name ∉ b.elements.map Element.name) :
    ∃ b', b.buildElement el = .ok b' ∧ b'.WF ∧
      b'.elements = b.elements ++ [⟨el.name, el.kind, el.topLevel⟩] ∧ SameRows b b' := by
  have hnone := hb.indexOf_eq_none hnew
  have hadd : b.addElement el.name el.kind = { b with
      indexByName := b.indexByName.insert el.name b.elements.length
      elements := b.elements ++ [⟨el.name, el.kind, false⟩]
      children := b.children ++ [[]]
      attrValues := b.attrValues ++ [∅] } := addElement_of_none hnone
  have hwf := hb.addElement el.name el.kind
  have hedges := edgesOf_addElement b el.name el.kind
  have hels : (b.addElement el.name el.kind).elements =
      b.elements ++ [⟨el.name, el.kind, false⟩] := by rw [hadd]
  have hrows : SameRows b (b.addElement el.name el.kind) := by
    refine ⟨by rw [hadd], hedges, by rw [hadd], fun q => ?_⟩
    rw [hadd]
    exact valuesOf_snoc b q
  rcases hpin : el.topLevel with _ | _
  · exact ⟨_, by rw [buildElement, hpin]; rfl, hwf, hels, hrows⟩
  · have hindex : (b.addElement el.name el.kind).indexOf el.name = some b.elements.length := by
      rw [indexOf_iff hwf, nameAt, hels, List.getElem?_append_right (Nat.le_refl _)]
      simp
    have hlt : b.elements.length < (b.addElement el.name el.kind).elements.length := by
      rw [hels, List.length_append]
      exact Nat.lt_succ_self _
    have hset := setPin_of_lt hlt true
    refine ⟨_, ?_, hwf.setPin hset, ?_, hrows.trans ⟨rfl, fun _ => rfl, rfl, fun _ => rfl⟩⟩
    · simp only [buildElement, hpin, if_true, hindex, Option.getD_some, loading_eq_ok]
      exact hset
    · simp only [hels]
      exact modify_snoc _ _ _

theorem foldlM_buildElement (hb : b.WF) (els : List ElDoc)
    (hnew : (b.elements.map Element.name ++ els.map ElDoc.name).Nodup) :
    ∃ b', els.foldlM buildElement b = .ok b' ∧ b'.WF ∧
      b'.elements = b.elements ++ els.map (fun el => ⟨el.name, el.kind, el.topLevel⟩) ∧
      SameRows b b' := by
  induction els generalizing b with
  | nil => exact ⟨b, rfl, hb, by simp, ⟨rfl, fun _ => rfl, rfl, fun _ => rfl⟩⟩
  | cons el els ih =>
    have hfirst : el.name ∉ b.elements.map Element.name := fun hmem =>
      (List.nodup_append.1 hnew).2.2 _ hmem _ List.mem_cons_self rfl
    obtain ⟨mid, hmid, hwf, hels, hrows⟩ := buildElement_ok hb hfirst
    obtain ⟨b', hb', hwf', hels', hrows'⟩ := ih hwf (by
      rw [hels]
      simpa [List.append_assoc] using hnew)
    refine ⟨b', ?_, hwf', ?_, hrows.trans hrows'⟩
    · rw [List.foldlM_cons, bind_eq_ok]
      exact ⟨mid, hmid, hb'⟩
    · rw [hels', hels, List.append_assoc]
      rfl

/-- A search that finds its target has a path to it. -/
theorem exists_path_of_reachesLoop {target : Nat} (n : Nat) (stack seen : List Nat)
    (h : d.reachesLoop target n stack seen = true) :
    ∃ node ∈ stack, ReflTransGen d.IsChild node target := by
  induction n generalizing stack seen with
  | zero => cases h
  | succ n ih =>
    rcases stack with _ | ⟨node, stack⟩
    · cases h
    · rw [reachesLoop] at h
      split_ifs at h with hnode hseen
      · exact ⟨node, List.mem_cons_self, hnode ▸ ReflTransGen.refl⟩
      · obtain ⟨x, hx, hpath⟩ := ih _ _ h
        exact ⟨x, List.mem_cons_of_mem _ hx, hpath⟩
      · obtain ⟨x, hx, hpath⟩ := ih _ _ h
        rcases List.mem_append.1 hx with hx | hx
        · obtain ⟨e, he, rfl⟩ := List.mem_map.1 (List.mem_reverse.1 hx)
          exact ⟨node, List.mem_cons_self, hpath.head ⟨e, he, rfl⟩⟩
        · exact ⟨x, List.mem_cons_of_mem _ hx, hpath⟩

/-- An edge under a consolidation that the child does not reach is added. -/
theorem addChild_eq_ok {parent child : Nat} (weight : Int) (hc : child < d.elements.length)
    (hp : d.kindAt parent = some .consolidated)
    (hr : ¬ ReflTransGen d.IsChild child parent) :
    d.addChild parent child weight =
      .ok { d with children := d.children.modify parent (· ++ [⟨child, weight⟩]) } := by
  obtain ⟨el, hel, hkind⟩ := kindAt_eq_some.1 hp
  have hne : child ≠ parent := by
    rintro rfl
    exact hr ReflTransGen.refl
  have hreach : d.reaches child parent = false := by
    rw [← Bool.not_eq_true]
    intro h
    obtain ⟨x, hx, hpath⟩ := exists_path_of_reachesLoop _ _ _ h
    rw [List.mem_singleton.1 hx] at hpath
    exact hr hpath
  simp only [addChild, element_eq_ok.2 hel, element_eq_ok.2 (List.getElem?_eq_getElem hc), hkind,
    hne, hreach, bind, Except.bind]
  simp

/-- The edge a document lists under the element at `q`. -/
def docEdge (d : Dimension) (q : Nat) (edge : EdgeDoc) : Option Edge :=
  if d.indexOf edge.parent = some q then
    (d.indexOf edge.child).map fun child => ⟨child, edge.weight⟩
  else none

/-- A document's edge is one of the dimension's. -/
def ListsEdge (d : Dimension) (edge : EdgeDoc) : Prop :=
  ∃ p c, d.indexOf edge.parent = some p ∧ d.indexOf edge.child = some c ∧
    (⟨c, edge.weight⟩ : Edge) ∈ d.edgesOf p

/-- Edges of a hierarchy, added over some of them, are appended under their
parents. -/
theorem foldlM_buildEdge (hd : d.WF) (name : String) {edges : List EdgeDoc} (hb : b.WF)
    (hels : b.elements = d.elements) (hindex : b.indexOf = d.indexOf)
    (hsub : ∀ q, ∀ e ∈ b.edgesOf q, e ∈ d.edgesOf q) (hedges : ∀ x ∈ edges, d.ListsEdge x) :
    ∃ b', edges.foldlM (buildEdge name) b = .ok b' ∧ b'.WF ∧
      (∀ q, b'.edgesOf q = b.edgesOf q ++ edges.filterMap (d.docEdge q)) ∧
      ∃ children, b' = { b with children := children } := by
  induction edges generalizing b with
  | nil => exact ⟨b, rfl, hb, fun q => (List.append_nil _).symm, b.children, rfl⟩
  | cons x edges ih =>
    obtain ⟨p, c, hp, hc, hmem⟩ := hedges x List.mem_cons_self
    have hkind : b.kindAt p = some .consolidated := by
      rw [kindAt, hels]
      exact hd.parents p (List.ne_nil_of_mem hmem)
    have hlt : c < b.elements.length := hels ▸ hd.edges_lt p _ hmem
    -- a path from the child to its parent would close a cycle with the edge
    have hpath : ¬ ReflTransGen b.IsChild c p := by
      intro h
      have hlift : ReflTransGen d.IsChild c p := by
        refine h.lift id ?_
        rintro u v ⟨e, he, hev⟩
        exact ⟨e, hsub u e he, hev⟩
      exact hd.acyclic p (TransGen.head' ⟨_, hmem, rfl⟩ hlift)
    have hadd := addChild_eq_ok x.weight hlt hkind hpath
    have hwf := hb.addChild hadd
    have hrow := edgesOf_addChild hb hadd
    have hdoc : ∀ q, d.docEdge q x = if p = q then some ⟨c, x.weight⟩ else none := by
      intro q
      simp [docEdge, hp, hc]
    obtain ⟨b', hb', hwf', hall, children, heq⟩ := ih hwf hels hindex (fun q e he => by
      rw [hrow] at he
      split_ifs at he with hq
      · rcases List.mem_append.1 he with he | he
        · exact hsub q e he
        · rw [List.mem_singleton.1 he, ← hq]
          exact hmem
      · exact hsub q e he) fun y hy => hedges y (List.mem_cons_of_mem _ hy)
    refine ⟨b', ?_, hwf', fun q => ?_, children, heq⟩
    · rw [List.foldlM_cons, bind_eq_ok]
      refine ⟨_, ?_, hb'⟩
      simp only [buildEdge, elementNamed, hindex, hp, hc, okOr, hadd, loading, Except.mapError,
        bind, Except.bind]
    · rw [hall, hrow, List.filterMap_cons, hdoc]
      split_ifs <;> simp

/-- Whether the text of a value is read back. -/
def Readable (v : AttributeValue) : Prop := v ≠ .numeric Fixed.smallest

instance : DecidablePred Readable := fun v => inferInstanceAs (Decidable (v ≠ _))

/-- The document of one value. -/
def valueDoc (d : Dimension) (x : Nat × Nat × AttributeValue) : AttrValDoc :=
  ⟨(d.nameAt x.1).getD "", ((d.attributes[x.2.1]?).map AttributeDef.name).getD "", x.2.2.toText⟩

/-- A value of the type of its attribute is read back, if it is readable. -/
theorem readValue_toText {kind : AttributeKind} {v : AttributeValue} (h : typeOk kind v = true) :
    readValue kind v.toText =
      if Readable v then .ok v else .error (.model .overflow) := by
  cases v with
  | text content =>
    rw [if_pos (by simp [Readable])]
    cases kind <;> first | rfl | cases h
  | numeric number =>
    cases kind <;> try cases h
    simp only [readValue, AttributeValue.toText, Fixed.fromStr_toString, Readable]
    by_cases hn : number = Fixed.smallest <;> simp [hn, loading, Except.mapError, bind, Except.bind]

/-- What the loading of values leaves in place. -/
structure SameNames (d b : Dimension) : Prop where
  elements : b.elements = d.elements
  attributes : b.attributes = d.attributes

theorem SameNames.indexOf (h : SameNames d b) (hd : d.WF) (hb : b.WF) {q : Nat}
    (hq : q < d.elements.length) : b.indexOf ((d.nameAt q).getD "") = some q :=
  (indexOf_nameAt hd hb (by rw [h.elements]) hq q).2 rfl

/-- A value that a dimension holds, set again by name. -/
theorem buildValue_eq (hd : d.WF) (hb : b.WF) (hsame : SameNames d b) (name : String)
    {q i : Nat} {v : AttributeValue} (hv : (d.valuesOf q)[i]? = some v) :
    b.buildValue name (d.valueDoc (q, i, v)) =
      if Readable v then
        loading (b.setAttribute q (((d.attributes[i]?).map AttributeDef.name).getD "") v)
      else .error (.model .overflow) := by
  obtain ⟨kind, hkind, htype⟩ := hd.values q i v hv
  obtain ⟨a, ha, rfl⟩ := Option.map_eq_some_iff.1 hkind
  have hq : q < d.elements.length := by
    rw [← hd.values_length]
    by_contra hlt
    rw [valuesOf_of_le (Nat.not_lt.1 hlt)] at hv
    cases (FinMap.get_empty i).symm.trans hv
  have hattr : b.attributeIndex a.name = some i := by
    rw [attributeIndex, hb.attr_index, hsame.attributes, ha]
    rfl
  have hattrKind : b.attributeKind i = some a.kind := by
    rw [attributeKind, hsame.attributes, ha]
    rfl
  simp only [buildValue, valueDoc, elementNamed, hsame.indexOf hd hb hq, ha, Option.map_some,
    Option.getD_some, hattr, Option.bind_some, hattrKind, okOr, readValue_toText htype, bind,
    Except.bind]
  split_ifs <;> rfl

theorem aliasesAfter_eq_ok {q i : Nat} {kind : AttributeKind} {v : AttributeValue}
    (h : ∀ text, kind = .alias → v = .text text →
      d.aliasToElement[text]?.any (· ≠ q) = false) :
    ∃ aliases, d.aliasesAfter q i kind v = .ok aliases := by
  unfold aliasesAfter
  split
  · rename_i text
    rw [claimAlias, h text rfl rfl]
    exact ⟨_, rfl⟩
  · exact ⟨_, rfl⟩

/-- A value that a dimension holds is accepted over some of its values: its
alias is no other element's. -/
theorem setAttribute_of_held (hd : d.WF) (hb : b.WF) (hsame : SameNames d b)
    (hsub : ∀ (q i : Nat) (v : AttributeValue), (b.valuesOf q)[i]? = some v →
      (d.valuesOf q)[i]? = some v)
    {q i : Nat} {v : AttributeValue} (hv : (d.valuesOf q)[i]? = some v) :
    ∃ b', b.setAttribute q (((d.attributes[i]?).map AttributeDef.name).getD "") v = .ok b' ∧
      b'.WF ∧ SameNames d b' ∧
      (∀ p, b'.valuesOf p = if q = p then (b.valuesOf p).insert i v else b.valuesOf p) ∧
      ∃ values aliases, b' = { b with attrValues := values, aliasToElement := aliases } := by
  obtain ⟨kind, hkind, htype⟩ := hd.values q i v hv
  obtain ⟨a, ha, rfl⟩ := Option.map_eq_some_iff.1 hkind
  have hq : q < b.elements.length := by
    rw [hsame.elements, ← hd.values_length]
    by_contra hlt
    rw [valuesOf_of_le (Nat.not_lt.1 hlt)] at hv
    cases (FinMap.get_empty i).symm.trans hv
  have hattr : b.attributeIndex a.name = some i := by
    rw [attributeIndex, hb.attr_index, hsame.attributes, ha]
    rfl
  have hattrKind : b.attributeKind i = some a.kind := by
    rw [attributeKind, hsame.attributes, ha]
    rfl
  have hclaim : ∃ aliases, b.aliasesAfter q i a.kind v = .ok aliases := by
    refine aliasesAfter_eq_ok fun text hkindAlias hvText => ?_
    subst hvText
    have hown : d.aliasToElement[text]? = some q :=
      (hd.aliases text q).2 ⟨i, by rw [hkind, hkindAlias], hv⟩
    rcases howner : b.aliasToElement[text]? with _ | owner
    · rfl
    · obtain ⟨j, hj, hjv⟩ := (hb.aliases text owner).1 howner
      have hj' : d.attributeKind j = some .alias := by
        rw [attributeKind, ← hsame.attributes]
        exact hj
      have hd' : d.aliasToElement[text]? = some owner :=
        (hd.aliases text owner).2 ⟨j, hj', hsub owner j _ hjv⟩
      simpa using Option.some.inj (hd'.symm.trans hown)
  obtain ⟨aliases, haliases⟩ := hclaim
  have hset : b.setAttribute q (((d.attributes[i]?).map AttributeDef.name).getD "") v =
      .ok { b with
        aliasToElement := aliases
        attrValues := b.attrValues.modify q (·.insert i v) } := by
    simp only [setAttribute, element_eq_ok.2 (List.getElem?_eq_getElem hq), ha, Option.map_some,
      Option.getD_some, hattr, hattrKind, okOr, htype, haliases, bind, Except.bind]
    simp
  refine ⟨_, hset, hb.setAttribute hset, ⟨hsame.elements, hsame.attributes⟩, fun p => ?_, _, _,
    rfl⟩
  exact valuesOf_modify hb hq i v p

/-- The attribute values of a dimension, element by element. -/
def heldValues (d : Dimension) : List (Nat × Nat × AttributeValue) :=
  (List.range d.len).flatMap fun element => (d.valuesOf element).toList.map fun v => (element, v)

theorem attributeValues_dimDoc : d.dimDoc.attributeValues = d.heldValues.map d.valueDoc := by
  rw [heldValues, List.map_flatMap]
  refine List.flatMap_congr fun q _ => ?_
  rw [List.map_map]
  rfl

theorem held_of_mem {x : Nat × Nat × AttributeValue} (h : x ∈ d.heldValues) :
    (d.valuesOf x.1)[x.2.1]? = some x.2.2 := by
  obtain ⟨q, -, h⟩ := List.mem_flatMap.1 h
  obtain ⟨v, hv, rfl⟩ := List.mem_map.1 h
  exact FinMap.mem_toList.1 hv

/-- The values of one element among those of all. -/
def rowOf (q : Nat) (vs : List (Nat × Nat × AttributeValue)) : List (Nat × AttributeValue) :=
  vs.filterMap fun x => if x.1 = q then some x.2 else none

theorem rowOf_heldValues (hd : d.WF) (q : Nat) : rowOf q d.heldValues = (d.valuesOf q).toList := by
  rw [rowOf, heldValues, filterMap_rows (g := id) (q := q) fun p _ x _ => rfl]
  split_ifs with hq
  · rw [List.map_id]
  · rw [valuesOf_of_le (by rw [hd.values_length]; exact Nat.not_lt.1 hq)]
    rfl

section Values

variable {vs : List (Nat × Nat × AttributeValue)}

/-- Values of a dimension, set over some of them. -/
theorem foldlM_buildValue (name : String) (d' : Dimension) (hd : d.WF) (hb : b.WF)
    (hsame : SameNames d b)
    (hsub : ∀ (q i : Nat) (v : AttributeValue), (b.valuesOf q)[i]? = some v →
      (d.valuesOf q)[i]? = some v)
    (hheld : ∀ x ∈ vs, (d.valuesOf x.1)[x.2.1]? = some x.2.2) :
    ((vs.map d.valueDoc).foldlM (buildValue name) b = .ok d' → ∀ x ∈ vs, Readable x.2.2) ∧
      ((∀ x ∈ vs, Readable x.2.2) → ∃ b', (vs.map d.valueDoc).foldlM (buildValue name) b = .ok b' ∧
        b'.WF ∧ (∀ q, b'.valuesOf q =
          (rowOf q vs).foldl (fun m e => m.insert e.1 e.2) (b.valuesOf q)) ∧
        ∃ values aliases, b' = { b with attrValues := values, aliasToElement := aliases }) := by
  induction vs generalizing b with
  | nil => exact ⟨fun _ x hx => (by cases hx), fun _ => ⟨b, rfl, hb, fun _ => rfl, _, _, rfl⟩⟩
  | cons x vs ih =>
    obtain ⟨q, i, v⟩ := x
    have hv := hheld _ List.mem_cons_self
    obtain ⟨mid, hmid, hwf, hsame', hrow, values, aliases, heq⟩ :=
      setAttribute_of_held hd hb hsame hsub hv
    have hstep := buildValue_eq hd hb hsame name hv
    rw [hmid, show loading (Except.ok mid) = .ok mid from rfl] at hstep
    have hsub' : ∀ (p j : Nat) (w : AttributeValue), (mid.valuesOf p)[j]? = some w →
        (d.valuesOf p)[j]? = some w := by
      intro p j w hw
      rw [hrow] at hw
      split_ifs at hw with hp
      · rw [FinMap.get_insert] at hw
        split_ifs at hw with hj
        · rw [← hp, ← hj, ← hw]
          exact hv
        · exact hsub p j w hw
      · exact hsub p j w hw
    obtain ⟨ih1, ih2⟩ := ih hwf hsame' hsub' fun y hy => hheld y (List.mem_cons_of_mem _ hy)
    rw [List.map_cons, List.foldlM_cons, hstep]
    by_cases hread : Readable v
    · rw [if_pos hread]
      refine ⟨fun h => List.forall_mem_cons.2 ⟨hread, ih1 h⟩, fun h => ?_⟩
      obtain ⟨b', hb', hwf', hall, values', aliases', heq'⟩ :=
        ih2 fun y hy => h y (List.mem_cons_of_mem _ hy)
      refine ⟨b', hb', hwf', fun p => ?_, values', aliases', ?_⟩
      · rw [hall, hrow]
        by_cases hp : q = p <;> simp [rowOf, hp]
      · rw [heq', heq]
    · rw [if_neg hread]
      exact ⟨fun h => (by cases h), fun h => absurd (h _ List.mem_cons_self) hread⟩

end Values

/-- Whether every attribute value of a dimension is read back. -/
def Saveable (d : Dimension) : Prop := ∀ x ∈ d.heldValues, Readable x.2.2

instance (d : Dimension) : Decidable d.Saveable :=
  inferInstanceAs (Decidable (∀ x ∈ d.heldValues, Readable x.2.2))

/-- The edges of a document, read back under one element. -/
theorem filterMap_docEdge (hd : d.WF) (q : Nat) :
    d.dimDoc.edges.filterMap (d.docEdge q) = d.edgesOf q := by
  rw [dimDoc, filterMap_rows (g := id) (q := q)]
  · split_ifs with hq
    · rw [List.map_id]
    · exact (edgesOf_of_le (by rw [hd.children_length]; exact Nat.not_lt.1 hq)).symm
  · intro p hp e he
    have hparent := indexOf_nameAt hd hd rfl hp q
    have hchild := (indexOf_nameAt hd hd rfl (hd.edges_lt p e he) e.child).2 rfl
    simp only [docEdge, hparent, hchild, Option.map_some]
    rfl

theorem listsEdge_dimDoc (hd : d.WF) : ∀ x ∈ d.dimDoc.edges, d.ListsEdge x := by
  intro x hx
  obtain ⟨p, hp, hx⟩ := List.mem_flatMap.1 hx
  obtain ⟨e, he, rfl⟩ := List.mem_map.1 hx
  exact ⟨p, e.child, (indexOf_nameAt hd hd rfl (List.mem_range.1 hp) p).2 rfl,
    (indexOf_nameAt hd hd rfl (hd.edges_lt p e he) e.child).2 rfl, he⟩

/-- **Loaded as saved.** A dimension is loaded from its document exactly when
every attribute value is read back, and then it is the one that was
saved. -/
theorem buildDimension_dimDoc (hd : d.WF) :
    buildDimension d.dimDoc = .ok d' ↔ d' = d ∧ d.Saveable := by
  obtain ⟨b, hels, hbwf, hbels, hrows⟩ := foldlM_buildElement (WF.new d.name)
    d.dimDoc.elements (by
      simp only [Dimension.new, dimDoc, List.map_nil, List.nil_append, List.map_map]
      exact hd.nodup_names)
  have hbels : b.elements = d.elements := by
    rw [hbels]
    simp only [Dimension.new, dimDoc, List.nil_append, List.map_map]
    exact List.map_id _
  have hindex : b.indexOf = d.indexOf := funext fun name => Option.ext fun i => by
    rw [indexOf_iff hbwf, indexOf_iff hd, nameAt, nameAt, hbels]
  have hnone : ∀ q, b.edgesOf q = [] := fun q => (hrows.edges q).trans (by simp [Dimension.new, edgesOf])
  obtain ⟨c, hedges, hcwf, hcedges, children, hc⟩ := foldlM_buildEdge hd d.name hbwf hbels hindex
    (fun q e he => by rw [hnone] at he; cases he) (listsEdge_dimDoc hd)
  set attrs := d.attributes.map fun a => (a.name, a.kind) with hattrs
  set mid := attrs.foldl (fun d a => d.addAttribute a.1 a.2) c with hmid
  obtain ⟨hmwf, attributes, index, hframe⟩ := frame_foldl attrs hcwf
  rw [← hmid] at hmwf hframe
  have hcattrs : c.attributes = [] := by
    rw [hc]
    exact hrows.attributes
  have hmattrs : mid.attributes = d.attributes := by
    rw [hmid, attributes_foldl hcwf, hcattrs]
    · refine (List.nil_append _).trans (List.map_map.trans ?_)
      exact List.map_id _
    · rw [hcattrs, List.map_nil, List.nil_append, hattrs, List.map_map]
      exact hd.nodup_attributes
  have hsame : SameNames d mid := ⟨by rw [hframe, hc]; exact hbels, hmattrs⟩
  have hempty : ∀ q, mid.valuesOf q = ∅ := by
    intro q
    rw [hframe, hc]
    exact (hrows.values q).trans (by simp [Dimension.new, valuesOf])
  have hstages : buildDimension d.dimDoc =
      (d.heldValues.map d.valueDoc).foldlM (buildValue d.name) mid := by
    rw [buildDimension, attributeValues_dimDoc]
    simp only [show d.dimDoc.name = d.name from rfl, hels, hedges, bind, Except.bind]
    rw [hmid, hattrs, List.foldl_map]
    rfl
  obtain ⟨hread, hbuilt⟩ := foldlM_buildValue d.name d' hd hmwf hsame
    (fun q i v hv => by rw [hempty] at hv; cases (FinMap.get_empty i).symm.trans hv)
    (fun x hx => held_of_mem hx : ∀ x ∈ d.heldValues, _)
  -- with every value in place again the tables are those of the dimension
  have hback : d.Saveable → buildDimension d.dimDoc = .ok d := by
    intro hsave
    obtain ⟨b', hb', hwf', hvalues, values, aliases, heq⟩ := hbuilt hsave
    rw [hstages, hb']
    refine congrArg _ (hd.eq_of_tables hwf' ?_ ?_ (fun q => ?_) ?_ fun q => ?_)
    · rw [heq, hframe, hc]
      exact hrows.name
    · rw [heq]
      exact hsame.elements
    · rw [heq, hframe]
      exact (hcedges q).trans (by rw [hnone, filterMap_docEdge hd, List.nil_append])
    · rw [heq]
      exact hmattrs
    · rw [hvalues, rowOf_heldValues hd, hempty]
      exact FinMap.collect_toList _
  constructor
  · intro h
    have hsave : d.Saveable := hread (hstages ▸ h)
    exact ⟨Except.ok.inj (h.symm.trans (hback hsave)), hsave⟩
  · rintro ⟨rfl, hsave⟩
    exact hback hsave


end Dimension

end Epiphany
