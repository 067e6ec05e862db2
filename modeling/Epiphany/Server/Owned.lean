import Epiphany.Server.Authz
/-!
# Owned objects — what a principal sees of subsets, views and sandboxes

A saved object is public or kept to its owner, a sandbox is always kept to
its owner, and an administrator sees them all. The principal of these checks
is the one the caller's session holds.
-/

namespace Epiphany

def Visibility.isPublic : Visibility → Bool
  | .pub => true
  | .priv => false

/-- Whether a principal may see an object. -/
def canRead (p : Principal) (owner : Option String) (visibility : Visibility) : Bool :=
  visibility.isPublic || p.isAdmin || owner = some p.username

/-- Whether a principal may change or delete an object. -/
def canModify (p : Principal) (owner : Option String) : Bool :=
  p.isAdmin || owner = some p.username

/-- The answer to a change of another's object. -/
def notOwned : ApiError := .forbidden "you do not own this object"

namespace ReadSnapshot

variable (snap : ReadSnapshot) (p : Principal)

/-- A subset lookup without the subsets a principal may not see. -/
def visibleSubsetLookup (dim name : String) : Option Subset :=
  (snap.subset dim name).filter fun s => canRead p s.owner s.visibility

def visibleSubset (dim name : String) : Except ApiError Subset :=
  okOr (snap.visibleSubsetLookup p dim name) ⟨404, "UNKNOWN_SUBSET", "no such subset"⟩

def visibleView (name : String) : Except ApiError View :=
  okOr ((snap.view name).filter fun v => canRead p v.owner v.visibility)
    ⟨404, "UNKNOWN_VIEW", "no such view"⟩

def authorizeSandbox (name : String) : Except ApiError Sandbox := do
  let sb ← okOr (snap.model.sandbox name) (.notFound ("no sandbox '" ++ name ++ "'"))
  if !p.isAdmin && sb.owner ≠ p.username then .error (.forbidden "not your sandbox") else .ok sb

/-- The sandbox a data request selects; none is the base. -/
def resolveSandbox (selector : Option String) : Except ApiError (Option Sandbox) :=
  match selector with
  | none => .ok none
  | some name => (snap.authorizeSandbox p name).map some

end ReadSnapshot

end Epiphany
