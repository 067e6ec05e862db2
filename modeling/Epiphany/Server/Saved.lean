import Epiphany.Server.Views
/-!
# Saved objects — the requests on subsets and views

Each request first asks for access to the cube, then looks the object up as
the caller sees it. A list or a definition is shown as it is stored; members
that a set resolves to are shown without those the caller's mask denies. A
change is handed to the engine as the object it stores.
-/

namespace Epiphany

/-! ## Bodies -/

structure SubsetBody where
  name : Option String
  visibility : Option String
  kind : String
  members : List String
  mdx : Option String

structure AxisSpecBody where
  dimension : String
  specType : String
  subset : Option String
  members : List String

structure ViewBody where
  name : Option String
  visibility : Option String
  suppressZeroRows : Bool
  suppressZeroColumns : Bool
  suppressZeros : Option Bool
  rows : List AxisSpecBody
  columns : List AxisSpecBody
  context : List (String × String)

def parseVisibility : Option String → Except ApiError Visibility
  | none | some "public" => .ok .pub
  | some "private" => .ok .priv
  | some other => .error (.badRequest ("unknown visibility '" ++ other ++ "'"))

def visStr (v : Visibility) : String := if v.isPublic then "public" else "private"

def subsetFromBody (name dimension : String) (owner : Option String) (body : SubsetBody) :
    Except ApiError Subset := do
  let visibility ← parseVisibility body.visibility
  let kind ← match body.kind with
    | "static" => .ok (.static body.members)
    | "dynamic" =>
      (okOr body.mdx (ApiError.badRequest "a dynamic subset requires 'mdx'")).map .dynamic
    | other => .error (.badRequest ("unknown subset kind '" ++ other ++ "'"))
  .ok { name, dimension, owner, visibility, kind }

def axisSpecFromBody (s : AxisSpecBody) : Except ApiError AxisSpec :=
  match s.specType with
  | "subset" =>
    (okOr s.subset (ApiError.badRequest "axis type 'subset' requires 'subset'")).map
      (.subset s.dimension)
  | "members" => .ok (.members s.dimension s.members)
  | other => .error (.badRequest ("unknown axis type '" ++ other ++ "'"))

/-- The two flags of a body; the older single one stands for both. -/
def ViewBody.suppression (body : ViewBody) : Bool × Bool :=
  match body.suppressZeros with
  | some flag => (flag, flag)
  | none => (body.suppressZeroRows, body.suppressZeroColumns)

def viewFromBody (name cube : String) (owner : Option String) (body : ViewBody) :
    Except ApiError View := do
  let visibility ← parseVisibility body.visibility
  let rows ← body.rows.mapM axisSpecFromBody
  let columns ← body.columns.mapM axisSpecFromBody
  .ok { name, cube, owner, visibility, rows, columns
        context := body.context
        suppressZeroRows := body.suppression.1
        suppressZeroColumns := body.suppression.2 }

/-! ## What is shown -/

structure SubsetDto where
  name : String
  dimension : String
  owner : Option String
  visibility : String
  kind : String
  members : List String
  mdx : Option String
deriving DecidableEq

def subsetDto (s : Subset) : SubsetDto :=
  match s.kind with
  | .static members => ⟨s.name, s.dimension, s.owner, visStr s.visibility, "static", members, none⟩
  | .dynamic mdx => ⟨s.name, s.dimension, s.owner, visStr s.visibility, "dynamic", [], some mdx⟩

structure AxisSpecDto where
  dimension : String
  specType : String
  subset : Option String
  members : List String
deriving DecidableEq

def axisSpecDto : AxisSpec → AxisSpecDto
  | .subset dimension subset => ⟨dimension, "subset", some subset, []⟩
  | .members dimension members => ⟨dimension, "members", none, members⟩

structure ViewDto where
  name : String
  cube : String
  owner : Option String
  visibility : String
  suppressZeroRows : Bool
  suppressZeroColumns : Bool
  rows : List AxisSpecDto
  columns : List AxisSpecDto
  context : List (String × String)
deriving DecidableEq

def viewDto (v : View) : ViewDto :=
  { name := v.name, cube := v.cube, owner := v.owner, visibility := visStr v.visibility
    suppressZeroRows := v.suppressZeroRows, suppressZeroColumns := v.suppressZeroColumns
    rows := v.rows.map axisSpecDto, columns := v.columns.map axisSpecDto, context := v.context }

def kindStr : ElementKind → String
  | .leaf => "numeric"
  | .string => "string"
  | .consolidated => "consolidated"

structure MemberDto where
  name : String
  kind : String
deriving DecidableEq

def membersResponse (dim : Dimension) (indices : List Nat) : List MemberDto :=
  indices.filterMap fun i => (dim.elements[i]?).map fun el => ⟨el.name, kindStr el.kind⟩

namespace ViewEnv

variable (env : ViewEnv) (sec : SecurityStore) (auth : Principal)

/-! ## Subsets -/

/-- Open a cube for a request. -/
def openCube (cube : String) (needed : AccessLevel) : Except ApiError ReadSnapshot := do
  sec.requireCubeAccess auth.username cube needed
  env.snapshot cube

def ensureDimension (cube : Cube) (dim : String) : Except ApiError Dimension :=
  okOr (cube.dimensions.find? fun d => d.name = dim)
    (.unprocessable "UNKNOWN_DIMENSION"
      ("unknown dimension '" ++ dim ++ "' in cube '" ++ cube.name ++ "'"))

def resolveSubset (snap : ReadSnapshot) (subset : Subset) : Except ApiError (List Nat) :=
  (Query.resolveSubset snap.cube env.evaluator subset).mapError ApiError.ofQuery

def listSubsets (cube dim : String) : Except ApiError (List SubsetDto) := do
  let snap ← env.openCube sec auth cube .read
  let _ ← ensureDimension snap.cube dim
  .ok ((snap.model.subsets.toList.filter fun e =>
    e.1.dimension = dim ∧ canRead auth e.2.owner e.2.visibility = true).map fun e => subsetDto e.2)

def getSubset (cube dim name : String) : Except ApiError SubsetDto := do
  let snap ← env.openCube sec auth cube .read
  (snap.visibleSubset auth dim name).map subsetDto

/-- The subset that a replacement stores; its owner stays. -/
def replaceSubset (cube dim name : String) (body : SubsetBody) : Except ApiError Subset := do
  let snap ← env.openCube sec auth cube .write
  let existing ← snap.visibleSubset auth dim name
  gate (canModify auth existing.owner) notOwned
  let subset ← subsetFromBody name dim existing.owner body
  let _ ← env.resolveSubset snap subset
  .ok subset

def deleteSubset (cube dim name : String) : Except ApiError Unit := do
  let snap ← env.openCube sec auth cube .write
  let existing ← snap.visibleSubset auth dim name
  gate (canModify auth existing.owner) notOwned

/-- The members without those the caller's mask denies. -/
def suppressDeniedMembers (snap : ReadSnapshot) (dim : String) (indices : List Nat) : List Nat :=
  match sec.elementMaskFor auth.username snap.cube with
  | none => indices
  | some mask =>
    match snap.cube.dimensions.findIdx? fun d => d.name = dim with
    | none => indices
    | some pos => indices.filter fun i => !mask.deniesMember snap.cube pos i

/-- The members of a set, as the caller may see them. -/
def showMembers (snap : ReadSnapshot) (dim : String) (subset : Subset) :
    Except ApiError (List MemberDto) := do
  let indices ← env.resolveSubset snap subset
  let d ← ensureDimension snap.cube dim
  .ok (membersResponse d (suppressDeniedMembers sec auth snap dim indices))

def subsetMembers (cube dim name : String) : Except ApiError (List MemberDto) := do
  let snap ← env.openCube sec auth cube .read
  let s ← snap.visibleSubset auth dim name
  env.showMembers sec auth snap dim s

def previewSubset (cube dim : String) (body : SubsetBody) : Except ApiError (List MemberDto) := do
  let snap ← env.openCube sec auth cube .read
  let _ ← ensureDimension snap.cube dim
  let subset ← subsetFromBody "preview" dim none body
  env.showMembers sec auth snap dim subset

def previewMdx (cube dim mdx : String) : Except ApiError (List MemberDto) := do
  let snap ← env.openCube sec auth cube .read
  let _ ← ensureDimension snap.cube dim
  env.showMembers sec auth snap dim ⟨"preview", dim, none, .pub, .dynamic mdx⟩

/-! ## Views -/

def listViews (cube : String) : Except ApiError (List ViewDto) := do
  let snap ← env.openCube sec auth cube .read
  .ok ((snap.model.views.toList.filter fun e =>
    canRead auth e.2.owner e.2.visibility = true).map fun e => viewDto e.2)

def getView (cube name : String) : Except ApiError ViewDto := do
  let snap ← env.openCube sec auth cube .read
  (snap.visibleView auth name).map viewDto

/-- The view that a replacement stores; its owner stays. -/
def replaceView (cube name : String) (body : ViewBody) : Except ApiError View := do
  let snap ← env.openCube sec auth cube .write
  let existing ← snap.visibleView auth name
  gate (canModify auth existing.owner) notOwned
  viewFromBody name cube existing.owner body

def deleteView (cube name : String) : Except ApiError Unit := do
  let snap ← env.openCube sec auth cube .write
  let existing ← snap.visibleView auth name
  gate (canModify auth existing.owner) notOwned

end ViewEnv

end Epiphany
