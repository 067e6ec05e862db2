import Epiphany.Core.Model
import Epiphany.Security.Store
/-!
# Authorization — the gates of a request, and the mask of a caller

Every gate asks the current store about the caller by name, so a right that
was revoked is gone for the next request. A principal taken earlier is not
looked at here.
-/

namespace Epiphany

/-! ## Errors of the interface -/

/-- An error answer: its status, a stable code, and a message. -/
structure ApiError where
  status : Nat
  code : String
  message : String
deriving DecidableEq

namespace ApiError

def notFound (message : String) : ApiError := ⟨404, "NOT_FOUND", message⟩

def badRequest (message : String) : ApiError := ⟨400, "BAD_REQUEST", message⟩

def unprocessable (code message : String) : ApiError := ⟨422, code, message⟩

def conflict (message : String) : ApiError := ⟨409, "CONFLICT", message⟩

def unauthorized (message : String) : ApiError := ⟨401, "UNAUTHORIZED", message⟩

def forbidden (message : String) : ApiError := ⟨403, "FORBIDDEN", message⟩

def tooManyRequests (message : String) : ApiError := ⟨429, "TOO_MANY_REQUESTS", message⟩

def internal : ApiError := ⟨500, "INTERNAL", "internal server error"⟩

/-- The answer of a failed query. -/
def ofQuery (e : QueryError) : ApiError :=
  match e with
  | .unknownSubset _ => ⟨404, "UNKNOWN_SUBSET", e.toString⟩
  | .unknownDimension _ _ => .unprocessable "UNKNOWN_DIMENSION" e.toString
  | .unknownMember _ _ => .unprocessable "UNKNOWN_ELEMENT" e.toString
  | .dimensionCoverage _ => .unprocessable "DIMENSION_COVERAGE" e.toString
  | .subsetDimensionMismatch _ _ _ => .unprocessable "SUBSET_DIMENSION_MISMATCH" e.toString
  | .dynamicUnsupported | .dynamicEval _ => .unprocessable "MDX_ERROR" e.toString
  | .calc _ => .unprocessable "CALC_ERROR" e.toString
  | .accessDenied => .forbidden "you do not have access to this cell"
  | .model (.cellsetTooLarge _ _) => .unprocessable "CELLSET_TOO_LARGE" e.toString
  | .model _ => .unprocessable "MODEL_ERROR" e.toString

end ApiError

/-- Go on if a check holds. -/
def gate (allowed : Bool) (e : ApiError) : Except ApiError Unit :=
  if allowed then .ok () else .error e

namespace SecurityStore

variable (s : SecurityStore) (username : String)

/-! ## Gates -/

def isAdmin : Bool := (s.principal username).any Principal.isAdmin

def requireAdmin : Except ApiError Unit :=
  gate (s.isAdmin username) (.forbidden "administrator access required")

def requireCubeAccess (cube : String) (needed : AccessLevel) : Except ApiError Unit :=
  gate (needed ≤ s.cubeAccess username cube) (.forbidden "you do not have access to this cube")

/-- The caller's level on a kind; an unknown caller has none. -/
def kindLevel (kind : ObjectKind) (cube : Option String) : AccessLevel :=
  match s.principal username with
  | some p => s.effective p kind cube
  | none => .none

def requireKindAccess (kind : ObjectKind) (cube : Option String) (needed : AccessLevel) :
    Except ApiError Unit :=
  gate (needed ≤ s.kindLevel username kind cube)
    (.forbidden ("you do not have " ++ needed.asStr ++ " access to " ++ kind.asStr ++
      " objects here"))

def requireManageCubes : Except ApiError Unit :=
  gate ((s.principal username).any s.canManageCubes)
    (.forbidden "cube management requires administrator or a global cube-admin grant")

/-- A write by names is refused if a component may not be written. -/
def requireElementWrite (cube : String) (coord : List (String × String)) : Except ApiError Unit :=
  gate
    (match s.principal username with
      | some p => p.isAdmin || coord.all fun x => s.elementWritable p cube x.1 x.2
      | none => false)
    (.forbidden "you do not have access to this cell")

/-- Whether every component of a coordinate may be written; an index beyond
its dimension may not. -/
def coordWritable (p : Principal) (cubeName : String) (cube : Cube) (coord : Coord) : Bool :=
  coord.zipIdx.all fun x =>
    match (cube.dimension x.2).elements[x.1]? with
    | some el => s.elementWritable p cubeName (cube.dimension x.2).name el.name
    | none => false

/-- A write by indices, as the commit of a sandbox makes it. -/
def requireElementWriteIndices (cubeName : String) (cube : Cube) (coords : List Coord) :
    Except ApiError Unit :=
  gate
    (match s.principal username with
      | some p => p.isAdmin || coords.all (s.coordWritable p cubeName cube)
      | none => false)
    (.forbidden "you do not have access to a cell staged in this sandbox")

/-! ## Masks -/

/-- The elements of a dimension whose list does not let a principal read
them. -/
def deniedIndices (p : Principal) (cubeName : String) (dim : Dimension) : List Nat :=
  (s.elementAclsFor cubeName dim.name).filterMap fun e =>
    if e.2.levelFor p.username p.groups < .read then dim.indexOf e.1 else none

/-- The caller's mask over a cube: none for an administrator and for a
caller whom no list denies anything, everything for an unknown one. -/
def elementMaskFor (cube : Cube) : Option ElementMask :=
  let counts := cube.dimensions.map Dimension.len
  match s.principal username with
  | none => some (.fromDenied counts (counts.map List.range))
  | some p =>
    if p.isAdmin then none
    else
      let denied := cube.dimensions.map (s.deniedIndices p cube.name)
      if denied.all List.isEmpty then none else some (.fromDenied counts denied)

/-- The elements of a shared dimension that some referencing cube's lists
deny the caller. -/
def deniedRegistryElements (dimName : String) (referencing elementNames : List String) :
    List String :=
  match s.principal username with
  | none => elementNames
  | some p =>
    if p.isAdmin then []
    else
      referencing.flatMap fun cube =>
        (s.elementAclsFor cube dimName).filterMap fun e =>
          if e.2.levelFor p.username p.groups < .read then elementNames.find? (· = e.1) else none

/-! ## Callers -/

variable {s username}

theorem gate_eq_ok {allowed : Bool} {e : ApiError} {u : Unit} :
    gate allowed e = .ok u ↔ allowed = true := by
  unfold gate
  split_ifs with h
  · simp [h]
  · simp [h]

/-- A caller who may read a cube is a known one. -/
theorem principal_of_requireCubeAccess {cube : String} {u : Unit}
    (h : s.requireCubeAccess username cube .read = .ok u) : ∃ p, s.principal username = some p := by
  unfold requireCubeAccess at h
  rw [gate_eq_ok, decide_eq_true_eq] at h
  unfold cubeAccess at h
  rcases hp : s.principal username with _ | p
  · rw [hp] at h
    exact absurd h (show ¬ AccessLevel.read ≤ AccessLevel.none by decide)
  · exact ⟨p, rfl⟩

/-- Only elements of the dimension are denied. -/
theorem lt_of_mem_deniedIndices {p : Principal} {cubeName : String} {dim : Dimension}
    (hwf : dim.WF) {i : Nat} (hi : i ∈ s.deniedIndices p cubeName dim) : i < dim.len := by
  unfold deniedIndices at hi
  obtain ⟨e, -, he⟩ := List.mem_filterMap.1 hi
  split_ifs at he
  obtain ⟨el, hel, -⟩ := Dimension.nameAt_eq_some.1 ((hwf.index e.1 i).1 he)
  exact List.getElem?_eq_some_iff.1 hel |>.1

theorem elementMaskFor_eq_some {cube : Cube} {m : ElementMask}
    (h : s.elementMaskFor username cube = some m) :
    ∃ denied, m = .fromDenied (cube.dimensions.map Dimension.len) denied := by
  unfold elementMaskFor at h
  dsimp only at h
  split at h
  · cases h
    exact ⟨_, rfl⟩
  · split_ifs at h
    cases h
    exact ⟨_, rfl⟩

/-- The mask of a known caller denies an element, if there is one. -/
theorem isEmpty_elementMaskFor {cube : Cube} (hwf : cube.WF) {p : Principal}
    (hp : s.principal username = some p) {m : ElementMask}
    (hm : s.elementMaskFor username cube = some m) : m.isEmpty = false := by
  unfold elementMaskFor at hm
  simp only [hp] at hm
  split_ifs at hm with hadmin hall
  cases hm
  rw [Bool.not_eq_true, List.all_eq_false] at hall
  obtain ⟨list, hlist, hne⟩ := hall
  obtain ⟨dim, hdim, rfl⟩ := List.mem_map.1 hlist
  obtain ⟨d, hd⟩ := List.getElem?_of_mem hdim
  obtain ⟨i, hi⟩ : ∃ i, i ∈ s.deniedIndices p cube.name dim := by
    rcases hl : s.deniedIndices p cube.name dim with _ | ⟨i, rest⟩
    · rw [hl] at hne
      exact absurd rfl hne
    · exact ⟨i, List.mem_cons_self⟩
  refine ElementMask.isEmpty_eq_false (d := d) (i := i) (ElementMask.indexDenied_fromDenied.2 ?_)
  have hlt := lt_of_mem_deniedIndices (hwf.dims dim hdim) hi
  exact ⟨⟨dim.len, by simp [hd], hlt⟩, by simpa [hd] using hi⟩

end SecurityStore

end Epiphany
