import Epiphany.Rules.Compile
/-!
# What areas mean — by the names they are written in

An author writes names: of dimensions, members and attributes. This file says
which cells an area covers by these names alone, and which of several rules is
the first to cover a cell. No position occurs here, so nothing that only moves
members about changes it.
-/

namespace Epiphany

/-! ## Dimensions by name -/

namespace Dimension

variable (d : Dimension)

/-- A name in a rule is one of a member, or an alias of it. -/
def Resolves (name member : String) : Prop :=
  ∃ i, d.resolve name = some i ∧ d.nameAt i = some member

def OfKind (member : String) (kind : ElementKind) : Prop :=
  ∃ i, d.nameAt i = some member ∧ d.kindAt i = some kind

def ChildOf (parent child : String) : Prop :=
  ∃ p c, d.nameAt p = some parent ∧ d.nameAt c = some child ∧ d.IsChild p c

def Holds (member attr : String) (value : AttributeValue) : Prop :=
  ∃ i, d.nameAt i = some member ∧ d.attributeOf i attr = some value

end Dimension

namespace Rules

open Calc (CmpOp)

/-! ## Areas -/

/-- A literal compares to an attribute's value. -/
def Literal.Compares (op : CmpOp) : Literal → AttributeValue → Prop
  | str v, .text s => cmpText s v op = true
  | number n, .numeric f => ∃ r, fixedLiteral n = .ok r ∧ cmpFixed f r op = true
  | str _, .numeric _ => False
  | number _, .text _ => False

/-- A selector has a member. -/
def SelectorKind.Selects (d : Dimension) (member : String) : SelectorKind → Prop
  | element m => d.Resolves m member
  | all => ∃ kind, d.OfKind member kind
  | leaves => ∃ kind, d.OfKind member kind ∧ kind.isLeaf = true
  | consolidated => ∃ kind, d.OfKind member kind ∧ kind.isLeaf = false
  | children parent => ∃ p, d.Resolves parent p ∧ d.ChildOf p member
  | descendants root => ∃ r, d.Resolves root r ∧ Relation.ReflTransGen d.ChildOf r member
  | attrPredicate attr op value => ∃ v, d.Holds member attr v ∧ value.Compares op v

/-- An area has a member of one dimension: its selector has it, or without one
the member is of the kind that the marker says. -/
def Area.Admits (area : Area) (d : Dimension) (member : String) : Prop :=
  (∀ sel ∈ area.selectors, sel.dimension = d.name → sel.kind.Selects d member) ∧
    ((∀ sel ∈ area.selectors, sel.dimension ≠ d.name) →
      ∃ kind, d.OfKind member kind ∧ kind.isLeaf ≠ area.scope.targetsConsolidated)

/-- An area covers a cell. -/
def Area.Covers (area : Area) (cube : Cube) (members : List String) : Prop :=
  ∀ (k : Nat) d m, cube.dimensions[k]? = some d → members[k]? = some m → area.Admits d m

/-- The first rule of a document that covers a cell. -/
def FirstCovering (cube : Cube) (members : List String) (rules : List Rule) (rule : Rule) : Prop :=
  ∃ before after, rules = before ++ rule :: after ∧ rule.area.Covers cube members ∧
    ∀ r ∈ before, ¬ r.area.Covers cube members

end Rules

end Epiphany
