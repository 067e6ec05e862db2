import Epiphany.Common.Handlers
import Epiphany.Core.DimensionText
/-!
# Aliases — the reverse index over a dimension's life

The reverse index is kept up to date while values are overwritten, and
rebuilt when elements move. Setting a value changes the index and the values
in place, in several steps; a call that is refused has changed neither
(`setAttributeInPlace_eq`). After any calls the index holds exactly the alias
values there are (`aliasesExact_of_calls`).
-/

namespace Epiphany

namespace Dimension

variable {d d' : Dimension}

/-! ## Setting a value in place -/

/-- Drop the alias that an element replaces, unless another alias attribute
of it holds the text too. -/
def releaseAlias (element attrIndex : Nat) (text : String) (d : Dimension) : Dimension :=
  match (d.valuesOf element)[attrIndex]? with
  | some (.text prev) =>
    if prev ≠ text ∧ d.aliasToElement[prev]? = some element ∧
        d.stillHeld element attrIndex prev = false then
      { d with aliasToElement := d.aliasToElement.erase prev }
    else d
  | _ => d

/-- Claim an alias for an element, refused when it is another's. -/
def claimInPlace (element attrIndex : Nat) (text : String) : EStateM ModelError Dimension Unit := do
  let d ← get
  if d.aliasToElement[text]?.any (· ≠ element) then throw (.aliasConflict d.name text)
  else do
    modify (releaseAlias element attrIndex text)
    modify fun d => { d with aliasToElement := d.aliasToElement.insert text element }

/-- Bring the index up to a value that is to be set. -/
def indexInPlace (element attrIndex : Nat) (kind : AttributeKind) (value : AttributeValue) :
    EStateM ModelError Dimension Unit :=
  match kind, value with
  | .alias, .text text => claimInPlace element attrIndex text
  | _, _ => pure ()

/-- `set_attribute`, which changes the dimension as it goes. -/
def setAttributeInPlace (element : Nat) (attr : String) (value : AttributeValue) :
    EStateM ModelError Dimension Unit := do
  let d ← get
  let _ ← MonadExcept.ofExcept (d.element element)
  let attrIndex ← MonadExcept.ofExcept
    (okOr (d.attributeIndex attr) (.attributeNotFound d.name attr))
  let kind ← MonadExcept.ofExcept
    (okOr (d.attributeKind attrIndex) (.attributeNotFound d.name attr))
  if typeOk kind value = false then throw (.attributeTypeMismatch d.name attr)
  else do
    indexInPlace element attrIndex kind value
    modify fun d => { d with
      attrValues := d.attrValues.modify element (·.insert attrIndex value) }

/-- The end of a call in place that computes what another returns. -/
def inPlace (d : Dimension) : Except ModelError Dimension → EStateM.Result ModelError Dimension Unit
  | .ok d' => .ok () d'
  | .error e => .error e d

theorem claimInPlace_eq (element attrIndex : Nat) (text : String) (d : Dimension) :
    claimInPlace element attrIndex text d = inPlace d
      ((d.claimAlias element attrIndex text).map fun aliases =>
        { d with aliasToElement := aliases }) := by
  unfold claimInPlace claimAlias
  rw [bind_run_ok _ (show (get : EStateM ModelError Dimension Dimension) d = .ok d d from rfl)]
  split_ifs with hother
  · rfl
  · have hrun : (do
          modify (releaseAlias element attrIndex text)
          modify fun d => { d with aliasToElement := d.aliasToElement.insert text element } :
          EStateM ModelError Dimension Unit) d =
        .ok () { releaseAlias element attrIndex text d with
          aliasToElement :=
            (releaseAlias element attrIndex text d).aliasToElement.insert text element } := rfl
    rw [hrun]
    unfold releaseAlias
    rcases hv : (d.valuesOf element)[attrIndex]? with _ | v
    · rfl
    cases v with
    | numeric n => rfl
    | text prev =>
      dsimp only
      split_ifs
      · rfl
      · rfl

theorem indexInPlace_eq (element attrIndex : Nat) (kind : AttributeKind) (value : AttributeValue)
    (d : Dimension) : indexInPlace element attrIndex kind value d = inPlace d
      ((d.aliasesAfter element attrIndex kind value).map fun aliases =>
        { d with aliasToElement := aliases }) := by
  rcases kind with _ | _ | _
  · rfl
  · rfl
  -- only an alias is indexed
  · rcases value with text | number
    · exact claimInPlace_eq element attrIndex text d
    · rfl

/-- A check before anything is changed. -/
theorem inPlace_bind {α : Type} {x : Except ModelError α}
    {f : α → EStateM ModelError Dimension Unit} {g : α → Except ModelError Dimension}
    (h : ∀ a, f a d = inPlace d (g a)) :
    ((MonadExcept.ofExcept x : EStateM ModelError Dimension α) >>= f) d = inPlace d (x >>= g) := by
  rcases x with e | a
  · rfl
  · exact h a

/-- **In place or not**, setting a value ends alike, and where it is refused
the dimension is as it was. -/
theorem setAttributeInPlace_eq (element : Nat) (attr : String) (value : AttributeValue)
    (d : Dimension) : setAttributeInPlace element attr value d =
      inPlace d (d.setAttribute element attr value) := by
  unfold setAttributeInPlace setAttribute
  rw [bind_run_ok _ (show (get : EStateM ModelError Dimension Dimension) d = .ok d d from rfl)]
  refine inPlace_bind fun _ => inPlace_bind fun attrIndex => inPlace_bind fun kind => ?_
  split_ifs with htype
  · rfl
  · have hindex := indexInPlace_eq element attrIndex kind value d
    rcases haliases : d.aliasesAfter element attrIndex kind value with e | aliases
    · rw [haliases] at hindex
      rw [bind_run_error _ (hindex.trans rfl)]
      rfl
    · rw [haliases] at hindex
      rw [bind_run_ok _ (hindex.trans rfl)]
      rfl

/-! ## Calls -/

/-- A call that changes a dimension, or loads it from its document again. -/
inductive DimensionCall where
  | addElement (name : String) (kind : ElementKind)
  | addChild (parent child : Nat) (weight : Int)
  | removeChild (parent child : Nat)
  | addAttribute (name : String) (kind : AttributeKind)
  | setAttribute (element : Nat) (attr : String) (value : AttributeValue)
  | setPin (element : Nat) (pinned : Bool)
  | setKind (element : Nat) (kind : ElementKind)
  | reparent (child : Nat) (newParent : Option Nat) (weight : Int)
  | reorder (newOrder : List String)
  | delete (element : Nat)
  | insertAt (name : String) (kind : ElementKind) (position : Nat)
  | reload
deriving DecidableEq

/-- The dimension after a call that changes nothing when it is refused. -/
def after {ε : Type} (d : Dimension) : Except ε Dimension → Dimension
  | .ok d' => d'
  | .error _ => d

/-- The dimension after a call, accepted or refused. -/
def perform (d : Dimension) : DimensionCall → Dimension
  | .addElement name kind => d.addElement name kind
  | .addChild parent child weight => d.after (d.addChild parent child weight)
  | .removeChild parent child => d.after (d.removeChild parent child)
  | .addAttribute name kind => d.addAttribute name kind
  | .setAttribute element attr value => finalState (setAttributeInPlace element attr value) d
  | .setPin element pinned => d.after (d.setPin element pinned)
  | .setKind element kind => d.after ((d.setKind element kind).map Prod.fst)
  | .reparent child newParent weight => d.after (d.reparent child newParent weight)
  | .reorder newOrder => d.after ((d.reorder newOrder).map Prod.fst)
  | .delete element => d.after ((d.delete element).map Prod.fst)
  | .insertAt name kind position => d.after ((d.insertAt name kind position).map Prod.fst)
  | .reload => d.after (buildDimension d.dimDoc)

theorem WF.after {ε : Type} (hd : d.WF) {x : Except ε Dimension}
    (h : ∀ d', x = .ok d' → d'.WF) : (d.after x).WF := by
  rcases x with e | d'
  · exact hd
  · exact h d' rfl

theorem WF.after_fst {ε α : Type} (hd : d.WF) {x : Except ε (Dimension × α)}
    (h : ∀ d' a, x = .ok (d', a) → d'.WF) : (d.after (x.map Prod.fst)).WF := by
  refine hd.after fun d' hx => ?_
  obtain ⟨⟨next, a⟩, hnext, rfl⟩ := map_eq_ok.1 hx
  exact h next a hnext

/-- **Step.** A call keeps a dimension well formed. -/
theorem WF.perform (hd : d.WF) (call : DimensionCall) : (d.perform call).WF := by
  cases call with
  | addElement name kind => exact hd.addElement name kind
  | addChild parent child weight => exact hd.after fun _ h => hd.addChild h
  | removeChild parent child => exact hd.after fun _ h => hd.removeChild h
  | addAttribute name kind => exact hd.addAttribute name kind
  | setAttribute element attr value =>
    have hrun := setAttributeInPlace_eq element attr value d
    rw [show d.perform (.setAttribute element attr value) =
      finalState (setAttributeInPlace element attr value) d from rfl]
    unfold finalState
    rw [hrun]
    rcases hset : d.setAttribute element attr value with e | d'
    · exact hd
    · exact hd.setAttribute hset
  | setPin element pinned => exact hd.after fun _ h => hd.setPin h
  | setKind element kind => exact hd.after_fst fun _ _ h => hd.setKind h
  | reparent child newParent weight => exact hd.after fun _ h => hd.reparent h
  | reorder newOrder => exact hd.after_fst fun _ _ h => hd.reorder h
  | delete element => exact hd.after_fst fun _ _ h => hd.delete h
  | insertAt name kind position => exact hd.after_fst fun _ _ h => hd.insertAt h
  | reload =>
    refine hd.after fun d' h => ?_
    rw [((buildDimension_dimDoc hd).1 h).1]
    exact hd

/-- **Run.** A dimension is well formed after any calls. -/
theorem WF.performAll (hd : d.WF) (calls : List DimensionCall) :
    (calls.foldl Dimension.perform d).WF := by
  induction calls generalizing d with
  | nil => exact hd
  | cons call calls ih => exact ih (hd.perform call)

/-! ## The index -/

/-- A text is the value of an alias attribute of an element. -/
def IsAliasValue (d : Dimension) (el : Nat) (text : String) : Prop :=
  ∃ attr, (d.attributeIndex attr).bind d.attributeKind = some .alias ∧
    d.attributeOf el attr = some (.text text)

theorem isAliasValue_iff (hd : d.WF) {el : Nat} {text : String} :
    d.IsAliasValue el text ↔ d.HoldsAlias el text := by
  constructor
  · rintro ⟨attr, hkind, hvalue⟩
    obtain ⟨i, hi, hkind⟩ := Option.bind_eq_some_iff.1 hkind
    obtain ⟨j, hj, hvalue⟩ := Option.bind_eq_some_iff.1 hvalue
    obtain rfl := Option.some.inj (hi.symm.trans hj)
    exact ⟨i, hkind, hvalue⟩
  · rintro ⟨i, hkind, hvalue⟩
    obtain ⟨a, ha, -⟩ := Option.map_eq_some_iff.1 hkind
    have hi : d.attributeIndex a.name = some i := by
      unfold attributeIndex
      rw [hd.attr_index, ha]
      rfl
    refine ⟨a.name, by rw [hi]; exact hkind, ?_⟩
    unfold attributeOf
    rw [hi]
    exact hvalue

/-- **What an exact index gives.** -/
structure AliasesExact (d : Dimension) : Prop where
  /-- The index leads from a text to the element it is an alias value of. -/
  index : ∀ text el, d.aliasToElement[text]? = some el ↔ d.IsAliasValue el text
  /-- A text is an alias of one element at most. -/
  one : ∀ text el el', d.IsAliasValue el text → d.IsAliasValue el' text → el = el'
  /-- A name leads to its element, whatever the aliases are. -/
  named : ∀ name i, d.nameAt i = some name → d.resolve name = some i
  /-- Any other text leads to the element it is an alias of. -/
  others : ∀ text, (∀ i, d.nameAt i ≠ some text) → ∀ el,
    d.resolve text = some el ↔ d.IsAliasValue el text
  /-- A refused call has changed nothing. -/
  refused : ∀ element attr value e d',
    setAttributeInPlace element attr value d = .error e d' → d' = d

theorem WF.aliasesExact (hd : d.WF) : d.AliasesExact := by
  have hindex : ∀ text el, d.aliasToElement[text]? = some el ↔ d.IsAliasValue el text :=
    fun text el => (hd.aliases text el).trans (isAliasValue_iff hd).symm
  refine
    { index := hindex
      one := fun text el el' h h' =>
        Option.some.inj (((hindex text el).2 h).symm.trans ((hindex text el').2 h'))
      named := fun name i h => ?_
      others := fun text hnone el => ?_
      refused := fun element attr value e d' h => ?_ }
  · unfold resolve indexOf
    rw [(hd.index name i).2 h]
    rfl
  · have hname : d.indexByName[text]? = none :=
      Option.eq_none_iff_forall_ne_some.2 fun i hi => hnone i ((hd.index text i).1 hi)
    unfold resolve indexOf
    rw [hname, ← hindex]
    rfl
  · rw [setAttributeInPlace_eq] at h
    rcases hset : d.setAttribute element attr value with e' | d''
    · rw [hset] at h
      exact ((EStateM.Result.error.inj h).2).symm
    · rw [hset] at h
      cases h

/-- **The alias index stays exact.** After any calls on a new dimension,
accepted or refused, the index holds exactly the alias values there are, a text
stands for one element, names come before aliases, and a value that is refused
changes nothing. -/
theorem aliasesExact_of_calls (name : String) (calls : List DimensionCall) :
    (calls.foldl perform (Dimension.new name)).AliasesExact :=
  ((WF.new name).performAll calls).aliasesExact

end Dimension

end Epiphany
