import Epiphany.Core.Wellformed
/-!
# Dimensions — growth and in-place edits keep the invariant

Each operation has a specification lemma saying what an accepted call does,
and a lemma that it keeps the invariant. Operations that leave every name
where it is share `WF.of_same_names`; an edge is added only after the
search found no path back, so the hierarchy stays acyclic.
-/

namespace Epiphany

namespace Dimension

open Relation

variable {d d' : Dimension}

/-- The empty dimension is well formed. -/
theorem WF.new (name : String) : (Dimension.new name).WF where
  children_length := rfl
  values_length := rfl
  index := by simp [Dimension.new, nameAt]
  edges_lt := by simp [Dimension.new, edgesOf]
  parents := by simp [Dimension.new, edgesOf]
  acyclic := acyclic_of_forall_not fun _ _ => by simp [Dimension.new, IsChild, edgesOf]
  attr_index := by simp [Dimension.new]
  values := by simp [Dimension.new, valuesOf]
  aliases := by simp [Dimension.new, valuesOf]

/-- An edit that keeps every name and every attribute in place has only the
hierarchy to answer for. -/
theorem WF.of_same_names (hd : d.WF) (hnames : ∀ i, d'.nameAt i = d.nameAt i)
    (hlen : d'.elements.length = d.elements.length)
    (hchildren : d'.children.length = d.children.length)
    (hindex : d'.indexByName = d.indexByName) (hattrs : d'.attributes = d.attributes)
    (hattrIndex : d'.attrIndexByName = d.attrIndexByName)
    (hvalues : d'.attrValues = d.attrValues) (halias : d'.aliasToElement = d.aliasToElement)
    (hlt : ∀ p, ∀ e ∈ d'.edgesOf p, e.child < d.elements.length)
    (hparents : ∀ p, d'.edgesOf p ≠ [] → d'.kindAt p = some .consolidated)
    (hacyclic : Acyclic d'.IsChild) : d'.WF where
  children_length := by rw [hchildren, hlen, hd.children_length]
  values_length := by rw [hvalues, hlen, hd.values_length]
  index := by
    intro name i
    rw [hindex, hnames, hd.index]
  edges_lt := by
    intro p e he
    rw [hlen]
    exact hlt p e he
  parents := hparents
  acyclic := hacyclic
  attr_index := by
    intro name i
    rw [hattrIndex, hattrs, hd.attr_index]
  values := by
    intro el i v
    simp only [valuesOf, attributeKind, hvalues, hattrs]
    exact hd.values el i v
  aliases := by
    intro text el
    simp only [valuesOf, attributeKind, hvalues, hattrs, halias]
    exact hd.aliases text el

/-! ## Edges -/

theorem edgesOf_modify (children : List (List Edge)) (p : Nat) (f : List Edge → List Edge)
    (i : Nat) :
    ({ d with children := children.modify p f }).edgesOf i =
      if p = i ∧ i < children.length then f (({ d with children := children }).edgesOf i)
      else ({ d with children := children }).edgesOf i := by
  simp only [edgesOf, List.getD, List.getElem?_modify]
  by_cases hi : i < children.length
  · by_cases hp : p = i <;> simp [hi, hp]
  · simp [hi]

theorem addChild_ok {parent child : Nat} {weight : Int}
    (h : d.addChild parent child weight = .ok d') :
    child < d.elements.length ∧ d.kindAt parent = some .consolidated ∧
      ¬ ReflTransGen d.IsChild child parent ∧
      d' = { d with children := d.children.modify parent (· ++ [⟨child, weight⟩]) } := by
  simp only [addChild, bind_eq_ok, element_eq_ok, ite_error_eq_ok, not_or, ne_eq,
    Decidable.not_not, Except.ok.injEq] at h
  obtain ⟨childEl, hc, parentEl, hp, hkind, ⟨-, hreach⟩, rfl⟩ := h
  refine ⟨(List.getElem?_eq_some_iff.1 hc).1, kindAt_eq_some.2 ⟨_, hp, hkind⟩, ?_, rfl⟩
  exact not_reaches (by simpa using hreach)

/-- An edge under a consolidation that the child does not reach keeps the
invariant. -/
theorem WF.push_edge (hd : d.WF) {parent : Nat} {e : Edge}
    (hc : e.child < d.elements.length) (hp : d.kindAt parent = some .consolidated)
    (hr : ¬ ReflTransGen d.IsChild e.child parent) :
    ({ d with children := d.children.modify parent (· ++ [e]) } : Dimension).WF := by
  have hedges : ∀ i x, x ∈ ({ d with children := d.children.modify parent (· ++ [e]) } :
      Dimension).edgesOf i → x ∈ d.edgesOf i ∨ (i = parent ∧ x = e) := by
    intro i x hx
    rw [edgesOf_modify] at hx
    split_ifs at hx with hi
    · rcases List.mem_append.1 hx with hx | hx
      · exact Or.inl hx
      · exact Or.inr ⟨hi.1.symm, List.mem_singleton.1 hx⟩
    · exact Or.inl hx
  refine hd.of_same_names (fun _ => rfl) rfl (by simp) rfl rfl rfl rfl rfl ?_ ?_ ?_
  · intro p x hx
    rcases hedges p x hx with hx | ⟨-, rfl⟩
    · exact hd.edges_lt p x hx
    · exact hc
  · intro p hne
    obtain ⟨x, hx⟩ := List.exists_mem_of_ne_nil _ hne
    rcases hedges p x hx with hx | ⟨rfl, -⟩
    · exact hd.parents p (List.ne_nil_of_mem hx)
    · exact hp
  · refine hd.acyclic.insert (p := parent) (c := e.child) ?_ hr
    rintro a b ⟨x, hx, rfl⟩
    rcases hedges a x hx with hx | ⟨rfl, rfl⟩
    · exact Or.inl ⟨x, hx, rfl⟩
    · exact Or.inr ⟨rfl, rfl⟩

theorem WF.addChild (hd : d.WF) {parent child : Nat} {weight : Int}
    (h : d.addChild parent child weight = .ok d') : d'.WF := by
  obtain ⟨hc, hp, hr, rfl⟩ := addChild_ok h
  exact hd.push_edge hc hp hr

/-- Keeping some of the edges keeps the invariant. -/
theorem WF.keep_edges (hd : d.WF) {children : List (List Edge)}
    (hlen : children.length = d.children.length)
    (hsub : ∀ i, ∀ e ∈ ({ d with children := children } : Dimension).edgesOf i, e ∈ d.edgesOf i) :
    ({ d with children := children } : Dimension).WF := by
  refine hd.of_same_names (fun _ => rfl) rfl hlen rfl rfl rfl rfl rfl ?_ ?_ ?_
  · exact fun p e he => hd.edges_lt p e (hsub p e he)
  · intro p hne
    obtain ⟨e, he⟩ := List.exists_mem_of_ne_nil _ hne
    exact hd.parents p (List.ne_nil_of_mem (hsub p e he))
  · exact hd.acyclic.of_map id fun p c ⟨e, he, hec⟩ => ⟨e, hsub p e he, hec⟩

theorem removeChild_ok {parent child : Nat} (h : d.removeChild parent child = .ok d') :
    d' = { d with children := d.children.modify parent (·.filter fun e => e.child ≠ child) } := by
  simp only [removeChild, bind_eq_ok, element_eq_ok, Except.ok.injEq] at h
  obtain ⟨-, -, -, -, rfl⟩ := h
  rfl

theorem WF.removeChild (hd : d.WF) {parent child : Nat}
    (h : d.removeChild parent child = .ok d') : d'.WF := by
  rw [removeChild_ok h]
  refine hd.keep_edges (by simp) fun i e he => ?_
  rw [edgesOf_modify] at he
  split_ifs at he
  · exact (List.mem_filter.1 he).1
  · exact he

@[simp] theorem edgesOf_detach (d : Dimension) (child i : Nat) :
    (d.detach child).edgesOf i = (d.edgesOf i).filter fun e => e.child ≠ child := by
  by_cases hi : i < d.children.length
  · simp [detach, edgesOf, List.getD, hi]
  · simp [detach, edgesOf, List.getD, List.getElem?_eq_none (Nat.not_lt.1 hi)]

theorem WF.detach (hd : d.WF) (child : Nat) : (d.detach child).WF := by
  refine hd.keep_edges (by simp) fun i e he => ?_
  have he' : e ∈ (d.detach child).edgesOf i := he
  rw [edgesOf_detach] at he'
  exact (List.mem_filter.1 he').1

/-! ## Kinds and pins -/

theorem getElem?_modify_element (f : Element → Element) (i j : Nat) :
    (d.elements.modify i f)[j]? =
      if i = j then d.elements[j]?.map f else d.elements[j]? := by
  rw [List.getElem?_modify]
  by_cases h : i = j <;> simp [h]

/-- An edit of one element that keeps its name, and its kind if it has
children, keeps the invariant. -/
theorem WF.modify_element (hd : d.WF) {i : Nat} {f : Element → Element}
    (hname : ∀ e, (f e).name = e.name)
    (hkind : d.edgesOf i ≠ [] → ∀ e, d.elements[i]? = some e → (f e).kind = .consolidated) :
    ({ d with elements := d.elements.modify i f } : Dimension).WF := by
  refine hd.of_same_names (fun j => ?_) (by simp) rfl rfl rfl rfl rfl rfl hd.edges_lt ?_
    hd.acyclic
  · simp only [nameAt, getElem?_modify_element]
    split_ifs
    · rw [Option.map_map]
      exact congrArg (Option.map · _) (funext hname)
    · rfl
  · intro p hne
    obtain ⟨e, he, hk⟩ := kindAt_eq_some.1 (hd.parents p hne)
    simp only [kindAt, getElem?_modify_element]
    split_ifs with h
    · subst h
      rw [he]
      simp [hkind hne e he]
    · simp [he, hk]

theorem setPin_ok {i : Nat} {pinned : Bool} (h : d.setPin i pinned = .ok d') :
    i < d.elements.length ∧
      d' = { d with elements := d.elements.modify i fun e => { e with pinnedToTop := pinned } } := by
  simp only [setPin, bind_eq_ok, element_eq_ok, Except.ok.injEq] at h
  obtain ⟨e, he, rfl⟩ := h
  exact ⟨(List.getElem?_eq_some_iff.1 he).1, rfl⟩

theorem WF.setPin (hd : d.WF) {i : Nat} {pinned : Bool} (h : d.setPin i pinned = .ok d') :
    d'.WF := by
  rw [(setPin_ok h).2]
  refine hd.modify_element (fun _ => rfl) fun hne e he => ?_
  obtain ⟨e', he', hk⟩ := kindAt_eq_some.1 (hd.parents i hne)
  exact (Option.some.inj (he.symm.trans he')) ▸ hk

theorem setKind_ok {i : Nat} {kind previous : ElementKind}
    (h : d.setKind i kind = .ok (d', previous)) :
    d.kindAt i = some previous ∧
      d' = { d with elements := d.elements.modify i fun e => { e with kind := kind } } ∧
      (previous ≠ kind → d.edgesOf i ≠ [] → previous ≠ .consolidated) := by
  simp only [setKind, bind_eq_ok, element_eq_ok] at h
  obtain ⟨el, hel, h⟩ := h
  split_ifs at h with hsame hchildren
  · simp only [Except.ok.injEq, Prod.mk.injEq] at h
    obtain ⟨rfl, rfl⟩ := h
    refine ⟨kindAt_eq_some.2 ⟨el, hel, rfl⟩, ?_, fun hne => absurd hsame hne⟩
    have : d.elements.modify i (fun e => { e with kind := kind }) = d.elements := by
      refine List.ext_getElem? fun j => ?_
      rw [getElem?_modify_element]
      split_ifs with hij
      · subst hij
        rw [hel, Option.map_some, ← hsame]
      · rfl
    rw [this]
  · simp only [Except.ok.injEq, Prod.mk.injEq] at h
    obtain ⟨rfl, rfl⟩ := h
    exact ⟨kindAt_eq_some.2 ⟨el, hel, rfl⟩, rfl, fun _ hne hk => hchildren ⟨hk, hne⟩⟩

theorem WF.setKind (hd : d.WF) {i : Nat} {kind previous : ElementKind}
    (h : d.setKind i kind = .ok (d', previous)) : d'.WF := by
  obtain ⟨hprev, rfl, hcons⟩ := setKind_ok h
  refine hd.modify_element (fun _ => rfl) fun hne e he => ?_
  have hk : previous = .consolidated := Option.some.inj (hprev.symm.trans (hd.parents i hne))
  by_contra hkind
  exact hcons (fun h => hkind (by simpa [h] using hk)) hne hk

theorem WF.promote (hd : d.WF) (i : Nat) : (d.promote i).WF :=
  hd.modify_element (fun _ => rfl) fun _ _ _ => rfl

/-! ## Reparenting -/

theorem checkParent_ok {child parent : Nat} (h : d.checkParent child parent = .ok ()) :
    parent < d.elements.length ∧ ¬ ReflTransGen d.IsChild child parent := by
  simp only [checkParent, bind_eq_ok, element_eq_ok, ite_error_eq_ok] at h
  obtain ⟨parentEl, hp, childEl, hc, -, hreach, -⟩ := h
  exact ⟨(List.getElem?_eq_some_iff.1 hp).1, not_reaches (by simpa using hreach)⟩

/-- An accepted reparent detaches the child, and under a parent promotes it
and adds one edge. -/
theorem reparent_ok {child : Nat} {newParent : Option Nat} {weight : Int}
    (h : d.reparent child newParent weight = .ok d') :
    child < d.elements.length ∧
      match newParent with
      | none => d' = d.detach child
      | some parent =>
        parent < d.elements.length ∧ ¬ ReflTransGen d.IsChild child parent ∧
          d' = { (d.detach child).promote parent with
            children := (d.detach child).children.modify parent (· ++ [⟨child, weight⟩]) } := by
  simp only [reparent, bind_eq_ok, element_eq_ok] at h
  obtain ⟨el, hel, h⟩ := h
  refine ⟨(List.getElem?_eq_some_iff.1 hel).1, ?_⟩
  rcases newParent with _ | parent
  · exact (Except.ok.inj h).symm
  · obtain ⟨⟨⟩, hcheck, h⟩ := bind_eq_ok.1 h
    obtain ⟨hlt, hreach⟩ := checkParent_ok hcheck
    exact ⟨hlt, hreach, (Except.ok.inj h).symm⟩

theorem kindAt_promote_self {i : Nat} (h : i < d.elements.length) :
    (d.promote i).kindAt i = some .consolidated := by
  simp [kindAt, promote, List.getElem?_eq_getElem h]

theorem WF.reparent (hd : d.WF) {child : Nat} {newParent : Option Nat} {weight : Int}
    (h : d.reparent child newParent weight = .ok d') : d'.WF := by
  obtain ⟨hchild, h⟩ := reparent_ok h
  rcases newParent with _ | parent
  · exact h ▸ hd.detach child
  · obtain ⟨hparent, hreach, rfl⟩ := h
    have hwf := (hd.detach child).promote parent
    refine hwf.push_edge (e := ⟨child, weight⟩) ?_ (kindAt_promote_self ?_) fun hpath => hreach ?_
    · simpa [Dimension.promote, Dimension.detach] using hchild
    · simpa [Dimension.detach] using hparent
    -- detaching only removed edges, so a path back was a path before
    · refine hpath.lift id ?_
      rintro a b ⟨e, he, rfl⟩
      have he' : e ∈ (d.detach child).edgesOf a := he
      rw [edgesOf_detach] at he'
      exact ⟨e, (List.mem_filter.1 he').1, rfl⟩

/-! ## Elements -/

theorem addElement_of_some {name : String} {kind : ElementKind} {i : Nat}
    (h : d.indexByName[name]? = some i) : d.addElement name kind = d := by
  simp [addElement, h]

theorem addElement_of_none {name : String} {kind : ElementKind}
    (h : d.indexByName[name]? = none) :
    d.addElement name kind =
      { d with
        indexByName := d.indexByName.insert name d.elements.length
        elements := d.elements ++ [⟨name, kind, false⟩]
        children := d.children ++ [[]]
        attrValues := d.attrValues ++ [∅] } := by
  simp [addElement, h]

theorem getElem?_snoc {α : Type} (l : List α) (a : α) (i : Nat) :
    (l ++ [a])[i]? = if i = l.length then some a else l[i]? := by
  rw [List.getElem?_append]
  split_ifs with h1 h2 h2
  · omega
  · rfl
  · simp [h2]
  · rw [List.getElem?_eq_none (by simp; omega), List.getElem?_eq_none (by omega)]

/-- A new element brings no edges. -/
theorem edgesOf_snoc (d : Dimension) (i : Nat) :
    ({ d with children := d.children ++ [[]] } : Dimension).edgesOf i = d.edgesOf i := by
  simp only [edgesOf, List.getD, getElem?_snoc]
  split_ifs with h
  · simp [h]
  · rfl

/-- A new element brings no attribute values. -/
theorem valuesOf_snoc (d : Dimension) (i : Nat) :
    ({ d with attrValues := d.attrValues ++ [∅] } : Dimension).valuesOf i = d.valuesOf i := by
  simp only [valuesOf, List.getD, getElem?_snoc]
  split_ifs with h
  · simp [h]
  · rfl

theorem edgesOf_addElement (d : Dimension) (name : String) (kind : ElementKind) (i : Nat) :
    (d.addElement name kind).edgesOf i = d.edgesOf i := by
  rcases h : d.indexByName[name]? with _ | _
  · rw [addElement_of_none h]
    exact edgesOf_snoc d i
  · rw [addElement_of_some h]

/-- Growth leaves the elements there are in place. -/
theorem getElem?_addElement (d : Dimension) (name : String) (kind : ElementKind) {i : Nat}
    (hi : i < d.elements.length) : (d.addElement name kind).elements[i]? = d.elements[i]? := by
  rcases h : d.indexByName[name]? with _ | _
  · rw [addElement_of_none h]
    exact List.getElem?_append_left hi
  · rw [addElement_of_some h]

theorem WF.addElement (hd : d.WF) (name : String) (kind : ElementKind) :
    (d.addElement name kind).WF := by
  rcases h : d.indexByName[name]? with _ | _
  · have hedges := edgesOf_addElement d name kind
    have hkeep : ∀ {i}, i < d.elements.length →
        (d.addElement name kind).elements[i]? = d.elements[i]? :=
      fun hi => getElem?_addElement d name kind hi
    rw [addElement_of_none h] at hedges hkeep ⊢
    refine
      { children_length := by simp [hd.children_length]
        values_length := by simp [hd.values_length]
        index := fun n i => ?_
        edges_lt := fun p e he => ?_
        parents := fun p hne => ?_
        acyclic := hd.acyclic.of_map id ?_
        attr_index := hd.attr_index
        values := fun el i v hv => ?_
        aliases := fun text el => ?_ }
    -- the index finds the new name at the end, and every other name where it was
    · rw [FinMap.get_insert, nameAt, getElem?_snoc]
      by_cases hn : name = n
      · subst hn
        rw [if_pos rfl]
        split_ifs with hi
        · simp [hi]
        · rw [Option.some.injEq]
          refine ⟨fun h => absurd h.symm hi, fun hname => ?_⟩
          exact absurd ((hd.index name i).2 hname) (by simp [h])
      · rw [if_neg hn, hd.index]
        split_ifs with hi
        · subst hi
          simp [nameAt, hn]
        · rfl
    · rw [hedges] at he
      simp only [List.length_append, List.length_singleton]
      exact (hd.edges_lt p e he).trans (Nat.lt_succ_self _)
    · rw [hedges] at hne
      obtain ⟨e, he, hk⟩ := kindAt_eq_some.1 (hd.parents p hne)
      refine kindAt_eq_some.2 ⟨e, ?_, hk⟩
      rw [hkeep (List.getElem?_eq_some_iff.1 he).1, he]
    · rintro p c ⟨e, he, hec⟩
      rw [hedges] at he
      exact ⟨e, he, hec⟩
    · exact hd.values el i v (by rw [← valuesOf_snoc]; exact hv)
    · rw [hd.aliases]
      rw [← valuesOf_snoc]
      rfl
  · rw [addElement_of_some h]
    exact hd

end Dimension

end Epiphany
