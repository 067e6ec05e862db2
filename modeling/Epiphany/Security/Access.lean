import Epiphany.Common.FinMap
/-!
# Access — the lattice of levels, subjects, and grant lists

A grant list gives levels to users and groups; what a principal gets from it
is the highest level that matches. Setting a level of `none` takes the
subject off the list, so a list holds no such level.
-/

namespace Epiphany

/-! ## Levels -/

/-- The access lattice, totally ordered. -/
inductive AccessLevel where
  | none
  | read
  | write
  | admin
deriving DecidableEq

namespace AccessLevel

/-- Position in the order. -/
def rank : AccessLevel → Nat
  | none => 0
  | read => 1
  | write => 2
  | admin => 3

theorem rank_injective : Function.Injective rank := by
  intro a b h
  cases a <;> cases b <;> first | rfl | cases h

instance : LinearOrder AccessLevel := LinearOrder.lift' rank rank_injective

theorem le_def {a b : AccessLevel} : a ≤ b ↔ a.rank ≤ b.rank := Iff.rfl

@[simp] theorem none_le (a : AccessLevel) : none ≤ a := by
  rw [le_def]
  exact Nat.zero_le _

/-- The canonical token. -/
def asStr : AccessLevel → String
  | none => "none"
  | read => "read"
  | write => "write"
  | admin => "admin"

def parse : String → Option AccessLevel
  | "none" => some none
  | "read" => some read
  | "write" => some write
  | "admin" => some admin
  | _ => Option.none

@[simp] theorem parse_asStr (a : AccessLevel) : parse a.asStr = some a := by cases a <;> rfl

end AccessLevel

/-! ## Objects, subjects and scopes -/

inductive ObjectKind where
  | cube
  | dimension
  | rule
  | flow
  | view
  | subset
  | connection
  | sandbox
  | job
  | group
  | user
  | secret
deriving DecidableEq

namespace ObjectKind

/-- Position in the order of the declaration. -/
def rank : ObjectKind → Nat
  | cube => 0
  | dimension => 1
  | rule => 2
  | flow => 3
  | view => 4
  | subset => 5
  | connection => 6
  | sandbox => 7
  | job => 8
  | group => 9
  | user => 10
  | secret => 11

theorem rank_injective : Function.Injective rank := by
  intro a b h
  cases a <;> cases b <;> first | rfl | cases h

def asStr : ObjectKind → String
  | cube => "cube"
  | dimension => "dimension"
  | rule => "rule"
  | flow => "flow"
  | view => "view"
  | subset => "subset"
  | connection => "connection"
  | sandbox => "sandbox"
  | job => "job"
  | group => "group"
  | user => "user"
  | secret => "secret"

def parse : String → Option ObjectKind
  | "cube" => some cube
  | "dimension" => some dimension
  | "rule" => some rule
  | "flow" => some flow
  | "view" => some view
  | "subset" => some subset
  | "connection" => some connection
  | "sandbox" => some sandbox
  | "job" => some job
  | "group" => some group
  | "user" => some user
  | "secret" => some secret
  | _ => none

@[simp] theorem parse_asStr (k : ObjectKind) : parse k.asStr = some k := by cases k <;> rfl

/-- Whether a kind lives inside a cube, so that `Cube:Admin` on the cube
confers `Write` on it. -/
def isCubeScoped : ObjectKind → Bool
  | dimension | rule | flow | view | subset | job | sandbox => true
  | _ => false

end ObjectKind

/-- Who a grant is given to. -/
inductive Subject where
  | user (name : String)
  | group (name : String)
deriving DecidableEq

/-- The scope of a grant on a kind: every cube, or one. -/
inductive Scope where
  | global
  | cube (name : String)
deriving DecidableEq

/-! ## Keys -/

/-- The key of an element's grant list. -/
structure ElementKey where
  cube : String
  dimension : String
  element : String
deriving DecidableEq

namespace ElementKey

/-- The components in the order of the comparison. -/
def parts (k : ElementKey) : List String := [k.cube, k.dimension, k.element]

theorem parts_injective : Function.Injective parts := by
  rintro ⟨c, d, e⟩ ⟨c', d', e'⟩ h
  simpa [parts] using h

instance : Ord ElementKey := ⟨compareOn parts⟩

instance : Std.TransOrd ElementKey := inferInstanceAs (Std.TransCmp (compareOn parts))

theorem eq_of_compare {k k' : ElementKey} (h : compare k k' = .eq) : k = k' := by
  have hparts : compare k.parts k'.parts = .eq := h
  exact parts_injective (Std.LawfulEqCmp.eq_of_compare hparts)

instance : Std.LawfulEqOrd ElementKey := ⟨eq_of_compare⟩

end ElementKey

/-- The key of the grant list of a kind. -/
structure GrantKey where
  scope : Scope
  kind : ObjectKind
deriving DecidableEq

namespace GrantKey

/-- The cube of a scope; the global scope is before every cube. -/
def cube? (k : GrantKey) : Option String :=
  match k.scope with
  | .global => none
  | .cube name => some name

instance : Ord GrantKey := ⟨compareLex (compareOn cube?) (compareOn fun k => k.kind.rank)⟩

instance : Std.TransOrd GrantKey :=
  inferInstanceAs
    (Std.TransCmp (compareLex (compareOn cube?) (compareOn fun k => k.kind.rank)))

theorem eq_of_compare {k k' : GrantKey} (h : compare k k' = .eq) : k = k' := by
  obtain ⟨hcube, hkind⟩ := compareLex_eq_eq.1 h
  have hcube' : compare k.cube? k'.cube? = .eq := hcube
  have hkind' : compare k.kind.rank k'.kind.rank = .eq := hkind
  rw [Std.compare_eq_iff_eq] at hcube' hkind'
  obtain ⟨s, kind⟩ := k
  obtain ⟨s', kind'⟩ := k'
  obtain rfl : kind = kind' := ObjectKind.rank_injective hkind'
  cases s <;> cases s' <;> simp_all [cube?]

instance : Std.LawfulEqOrd GrantKey := ⟨eq_of_compare⟩

end GrantKey

/-! ## Grant lists -/

/-- The levels of named subjects; a level of `none` is not listed. -/
structure LevelMap where
  levels : FinMap String AccessLevel
  live : ∀ name : String, levels[name]? ≠ some AccessLevel.none

namespace LevelMap

theorem live_empty (name : String) : (∅ : FinMap String AccessLevel)[name]? ≠ some AccessLevel.none := by
  simp

def empty : LevelMap := ⟨∅, live_empty⟩

theorem live_erase (m : LevelMap) (name other : String) :
    (m.levels.erase name)[other]? ≠ some AccessLevel.none := by
  rw [FinMap.get_erase]
  split_ifs
  · exact Option.some_ne_none _ |>.symm
  · exact m.live other

theorem live_insert (m : LevelMap) (name : String) {level : AccessLevel} (h : level ≠ .none)
    (other : String) : (m.levels.insert name level)[other]? ≠ some AccessLevel.none := by
  rw [FinMap.get_insert]
  split_ifs
  · rw [ne_eq, Option.some.injEq]
    exact h
  · exact m.live other

/-- Set a subject's level, or remove the subject. -/
def set (m : LevelMap) (name : String) (level : AccessLevel) : LevelMap :=
  if h : level = .none then ⟨m.levels.erase name, m.live_erase name⟩
  else ⟨m.levels.insert name level, m.live_insert name h⟩

def get (m : LevelMap) (name : String) : Option AccessLevel := m.levels[name]?

def isEmpty (m : LevelMap) : Bool := m.levels.toList.isEmpty

@[ext] theorem ext {m m' : LevelMap} (h : ∀ name, m.get name = m'.get name) : m = m' := by
  cases m
  cases m'
  congr 1
  exact FinMap.ext h

@[simp] theorem get_empty (name : String) : empty.get name = none := FinMap.get_empty name

theorem get_set (m : LevelMap) (name : String) (level : AccessLevel) (other : String) :
    (m.set name level).get other =
      if name = other then (if level = .none then none else some level) else m.get other := by
  unfold set get
  split_ifs with h hn hn
  · rw [FinMap.get_erase, if_pos hn]
  · rw [FinMap.get_erase, if_neg hn]
  · rw [FinMap.get_insert, if_pos hn]
  · rw [FinMap.get_insert, if_neg hn]

theorem isEmpty_iff {m : LevelMap} : m.isEmpty = true ↔ ∀ name, m.get name = none := by
  rw [isEmpty, List.isEmpty_iff, List.eq_nil_iff_forall_not_mem]
  constructor
  · intro h name
    by_contra hne
    obtain ⟨level, hl⟩ := Option.ne_none_iff_exists'.1 hne
    exact h _ (FinMap.mem_toList.2 hl)
  · rintro h ⟨name, level⟩ hmem
    rw [FinMap.mem_toList] at hmem
    cases (h name).symm.trans hmem

end LevelMap

/-- The grants on one object or element. -/
@[ext] structure AccessList where
  users : LevelMap
  groups : LevelMap

namespace AccessList

def empty : AccessList := ⟨LevelMap.empty, LevelMap.empty⟩

/-- The level a principal gets: the highest of a direct grant and the grants
of its groups. -/
def levelFor (list : AccessList) (username : String) (groups : List String) : AccessLevel :=
  groups.foldl (fun level g =>
    match list.groups.get g with
    | some gl => max level gl
    | none => level) ((list.users.get username).getD .none)

/-- Set a subject's level, or remove the subject. -/
def set (list : AccessList) (subject : Subject) (level : AccessLevel) : AccessList :=
  match subject with
  | .user u => { list with users := list.users.set u level }
  | .group g => { list with groups := list.groups.set g level }

def isEmpty (list : AccessList) : Bool := list.users.isEmpty && list.groups.isEmpty

/-! ## What a list gives -/

theorem le_foldl_max {f : String → Option AccessLevel} {need level : AccessLevel}
    {groups : List String} :
    need ≤ groups.foldl (fun level g =>
      match f g with
      | some gl => max level gl
      | none => level) level ↔
      need ≤ level ∨ ∃ g ∈ groups, ∃ gl, f g = some gl ∧ need ≤ gl := by
  induction groups generalizing level with
  | nil => simp
  | cons g groups ih =>
    rw [List.foldl_cons, ih]
    rcases hg : f g with _ | gl
    · simp [hg]
    · simp [hg, or_assoc]

/-- **A list gives a level when a matching grant does.** -/
theorem le_levelFor {list : AccessList} {need : AccessLevel} {username : String}
    {groups : List String} :
    need ≤ list.levelFor username groups ↔
      need ≤ (list.users.get username).getD .none ∨
        ∃ g ∈ groups, ∃ gl, list.groups.get g = some gl ∧ need ≤ gl :=
  le_foldl_max

theorem isEmpty_iff {list : AccessList} :
    list.isEmpty = true ↔
      (∀ u, list.users.get u = none) ∧ ∀ g, list.groups.get g = none := by
  rw [isEmpty, Bool.and_eq_true, LevelMap.isEmpty_iff, LevelMap.isEmpty_iff]

/-- An empty list gives nothing to anybody. -/
theorem levelFor_of_isEmpty {list : AccessList} (h : list.isEmpty = true) (username : String)
    (groups : List String) : list.levelFor username groups = .none := by
  rw [isEmpty_iff] at h
  by_contra hne
  have hread : AccessLevel.read ≤ list.levelFor username groups := by
    cases hl : list.levelFor username groups with
    | none => exact absurd hl hne
    | read => exact le_rfl
    | write => decide
    | admin => decide
  rcases le_levelFor.1 hread with hu | ⟨g, -, gl, hg, -⟩
  · rw [h.1] at hu
    exact absurd hu (by decide)
  · rw [h.2] at hg
    cases hg

/-- **Taking a subject off a list raises nobody.** -/
theorem levelFor_set_none_le (list : AccessList) (subject : Subject) {username : String}
    {groups groups' : List String} (hsub : groups' ⊆ groups) :
    (list.set subject .none).levelFor username groups' ≤ list.levelFor username groups := by
  refine le_levelFor.2 ?_
  rcases le_levelFor.1 (le_refl ((list.set subject .none).levelFor username groups')) with
    hu | ⟨g, hg, gl, hget, hle⟩
  · refine Or.inl (hu.trans ?_)
    cases subject with
    | user u =>
      simp only [set, LevelMap.get_set]
      split_ifs
      · exact AccessLevel.none_le _
      · exact le_rfl
    | group g => exact le_rfl
  · refine Or.inr ⟨g, hsub hg, gl, ?_, hle⟩
    cases subject with
    | user u => exact hget
    | group g' =>
      simp only [set, LevelMap.get_set] at hget
      split_ifs at hget
      exact hget

end AccessList

end Epiphany
