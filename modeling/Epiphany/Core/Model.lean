import Epiphany.Core.CubeInv
import Epiphany.Core.Query
/-!
# Models — a cube with its saved objects, and the snapshots readers hold

Beside its cube a model has the subsets, the views, the text of the rules
and the what-if sandboxes. A reader sees one published version of a model.
-/

namespace Epiphany

/-! ## Sandboxes -/

/-- A user's overrides of leaf cells. -/
structure Sandbox where
  name : String
  owner : String
  created : Nat
  updated : Nat
  cells : FinMap Coord Fixed
  stringCells : FinMap Coord String

namespace Sandbox

def new (name owner : String) (created : Nat) : Sandbox := ⟨name, owner, created, created, ∅, ∅⟩

def cell (s : Sandbox) (coord : Coord) : Option Fixed := s.cells[coord]?

/-- The number of overridden cells. -/
def len (s : Sandbox) : Nat := s.cells.size + s.stringCells.size

end Sandbox

/-! ## Models -/

/-- The key of a subset: its dimension, then its name. -/
structure SubsetKey where
  dimension : String
  name : String
deriving DecidableEq

namespace SubsetKey

instance : Ord SubsetKey := ⟨compareLex (compareOn dimension) (compareOn name)⟩

instance : Std.TransOrd SubsetKey :=
  inferInstanceAs (Std.TransCmp (compareLex (compareOn dimension) (compareOn name)))

theorem eq_of_compare {k k' : SubsetKey} (h : compare k k' = .eq) : k = k' := by
  obtain ⟨hdim, hname⟩ := compareLex_eq_eq.1 h
  have hdim' : compare k.dimension k'.dimension = .eq := hdim
  have hname' : compare k.name k'.name = .eq := hname
  rw [Std.compare_eq_iff_eq] at hdim' hname'
  cases k
  cases k'
  simp_all

instance : Std.LawfulEqOrd SubsetKey := ⟨eq_of_compare⟩

end SubsetKey

structure Model where
  cube : Cube
  subsets : FinMap SubsetKey Subset
  views : FinMap String View
  rules : String
  sandboxes : FinMap String Sandbox

namespace Model

def new (cube : Cube) : Model := ⟨cube, ∅, ∅, "", ∅⟩

def subset (m : Model) (dimension name : String) : Option Subset :=
  m.subsets[SubsetKey.mk dimension name]?

def view (m : Model) (name : String) : Option View := m.views[name]?

def sandbox (m : Model) (name : String) : Option Sandbox := m.sandboxes[name]?

end Model

/-- The sandboxes of a model have ids of their own, zero counted as one. -/
def Model.OwnIds (m : Model) : Prop :=
  ∀ (n n' : String) (s s' : Sandbox), m.sandboxes[n]? = some s → m.sandboxes[n']? = some s' →
    max s.created 1 = max s'.created 1 → s = s'

/-- A published version of a model. -/
structure ReadSnapshot where
  model : Model
  version : Nat
  wf : model.cube.WF
  ownIds : model.OwnIds

namespace ReadSnapshot

def cube (s : ReadSnapshot) : Cube := s.model.cube

def subset (s : ReadSnapshot) (dimension name : String) : Option Subset :=
  s.model.subset dimension name

def view (s : ReadSnapshot) (name : String) : Option View := s.model.view name

end ReadSnapshot

end Epiphany
