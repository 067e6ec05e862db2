import Epiphany.Core.Value
import Epiphany.Security.Access
/-!
# The security store — users, groups, grants and element restrictions

The grants of a kind are an allow-list: no list means no access. The list of
an element is a restriction: no list means the element is open, and a list
admits the subjects on it only. Every change runs on a copy and is kept
when it is accepted and saved.

Password hashing and the password policy are parameters: no decision about
access reads them.
-/

namespace Epiphany

/-! ## Data -/

/-- An authenticated identity. -/
structure Principal where
  username : String
  isAdmin : Bool
  groups : List String
deriving DecidableEq

inductive SecurityError where
  | userExists (username : String)
  | userNotFound (username : String)
  | incorrectPassword
  | hashing (message : String)
  | io (message : String)
  | format (message : String)
  | weakPassword (reason : String)
  | lastAdmin
deriving DecidableEq

def SecurityError.toString : SecurityError → String
  | .userExists u => "user '" ++ u ++ "' already exists"
  | .userNotFound u => "user '" ++ u ++ "' not found"
  | .incorrectPassword => "incorrect password"
  | .hashing e => "password hashing failed: " ++ e
  | .io e => "security artifact I/O error: " ++ e
  | .format m => "invalid security artifact: " ++ m
  | .weakPassword why => why
  | .lastAdmin => "cannot remove or demote the last administrator"

structure User where
  isAdmin : Bool
  passwordHash : String
  mustChangePassword : Bool
  groups : FinMap String Unit

structure SecurityStore where
  users : FinMap String User
  groups : FinMap String Unit
  elementAcls : FinMap ElementKey AccessList
  grants : FinMap GrantKey AccessList

/-- The password functions: hashing with a salt, verification against a
hash, and the strength policy, which gives the reason of a refusal. -/
structure Passwords where
  hash : (password salt : String) → Except String String
  verify : (password phc : String) → Bool
  policy : (password : String) → Option String

/-- Passwords stored as they are. -/
def plainPasswords : Passwords where
  hash password _ := .ok password
  verify password phc := password = phc
  policy _ := none

def adminUsername : String := "admin"

def adminsGroup : String := "admins"

/-- The elements of a list as a set. -/
def setOf (names : List String) : FinMap String Unit := FinMap.collect (names.map fun n => (n, ()))

namespace SecurityStore

def empty : SecurityStore := ⟨∅, ∅, ∅, ∅⟩

variable (s : SecurityStore)

/-! ## Access -/

/-- The current principal of a username. -/
def principal (username : String) : Option Principal :=
  (s.users[username]?).map fun u => ⟨username, u.isAdmin, u.groups.toList.map Prod.fst⟩

/-- The level a principal holds for a scope and kind. -/
def grantLevel (p : Principal) (scope : Scope) (kind : ObjectKind) : AccessLevel :=
  match s.grants[GrantKey.mk scope kind]? with
  | some list => list.levelFor p.username p.groups
  | none => .none

/-- The effective access of a principal to objects of a kind in a cube. -/
def effective (p : Principal) (kind : ObjectKind) (cube : Option String) : AccessLevel :=
  if p.isAdmin then .admin
  else
    let level := s.grantLevel p .global kind
    match cube with
    | none => level
    | some c =>
      let level := max level (s.grantLevel p (.cube c) kind)
      if kind.isCubeScoped ∧
          .admin ≤ max (s.grantLevel p .global .cube) (s.grantLevel p (.cube c) .cube) then
        max level .write
      else level

/-- Access to a cube's contents; an unknown user has none. -/
def cubeAccess (username cube : String) : AccessLevel :=
  match s.principal username with
  | some p => s.effective p .cube (some cube)
  | none => .none

/-- Whether a principal may create or delete cubes. -/
def canManageCubes (p : Principal) : Bool :=
  p.isAdmin || (.admin : AccessLevel) ≤ s.grantLevel p .global .cube

/-- The restriction of an element: `none` if there is none, so that the
member is open. -/
def elementAccess (p : Principal) (cube dim element : String) : Option AccessLevel :=
  if p.isAdmin then none
  else (s.elementAcls[ElementKey.mk cube dim element]?).map (·.levelFor p.username p.groups)

def elementReadable (p : Principal) (cube dim element : String) : Bool :=
  match s.elementAccess p cube dim element with
  | some l => (.read : AccessLevel) ≤ l
  | none => true

def elementWritable (p : Principal) (cube dim element : String) : Bool :=
  match s.elementAccess p cube dim element with
  | some l => (.write : AccessLevel) ≤ l
  | none => true

/-- The element lists of one dimension of a cube, in element order. -/
def elementAclsFor (cube dim : String) : List (String × AccessList) :=
  (s.elementAcls.toList.filter fun e => e.1.cube = cube ∧ e.1.dimension = dim).map fun e =>
    (e.1.element, e.2)

/-! ## Changes -/

/-- Run a change and keep it if it is accepted and saved. -/
def commit {α : Type} (save : Except SecurityError Unit)
    (mutate : SecurityStore → Except SecurityError (α × SecurityStore)) :
    Except SecurityError α × SecurityStore :=
  match mutate s with
  | .error e => (.error e, s)
  | .ok (value, next) =>
    match save with
    | .error e => (.error e, s)
    | .ok () => (.ok value, next)

/-- A change is kept as it was made, or nothing is. -/
theorem commit_cases {α : Type} (save : Except SecurityError Unit)
    (mutate : SecurityStore → Except SecurityError (α × SecurityStore)) :
    (s.commit save mutate).2 = s ∨
      ∃ value, mutate s = .ok (value, (s.commit save mutate).2) := by
  unfold commit
  rcases mutate s with e | ⟨value, next⟩
  · exact Or.inl rfl
  · rcases save with e | ⟨⟩
    · exact Or.inl rfl
    · exact Or.inr ⟨value, rfl⟩

/-- Rewrite a user's record. -/
def setUser (username : String) (user : User) : SecurityStore :=
  { s with users := s.users.insert username user }

def userOf (username : String) : Except SecurityError User :=
  match s.users[username]? with
  | some u => .ok u
  | none => .error (.userNotFound username)

def checkPassword (pw : Passwords) (password : String) : Except SecurityError Unit :=
  match pw.policy password with
  | some reason => .error (.weakPassword reason)
  | none => .ok ()

def hashPassword (pw : Passwords) (password salt : String) : Except SecurityError String :=
  (pw.hash password salt).mapError .hashing

def insertUser (pw : Passwords) (username password salt : String)
    (isAdmin mustChangePassword : Bool) (groups : List String) :
    Except SecurityError SecurityStore := do
  if (s.users[username]?).isSome then .error (.userExists username)
  else
    let passwordHash ← hashPassword pw password salt
    .ok (s.setUser username ⟨isAdmin, passwordHash, mustChangePassword, setOf groups⟩)

/-- The store of a first run: one administrator in the group of
administrators. -/
def bootstrap (pw : Passwords) (password salt : String) : Except SecurityError SecurityStore :=
  { empty with groups := setOf [adminsGroup] }.insertUser pw adminUsername password salt true true
    [adminsGroup]

/-- Add groups to the known ones. -/
def registerGroups (groups : List String) : SecurityStore :=
  { s with groups := groups.foldl (fun m g => m.insert g ()) s.groups }

def createUserWithGroups (save : Except SecurityError Unit) (pw : Passwords)
    (username password salt : String) (isAdmin : Bool) (groups : List String) :
    Except SecurityError Unit × SecurityStore :=
  s.commit save fun s => do
    checkPassword pw password
    let next ← s.insertUser pw username password salt isAdmin false groups
    .ok ((), next.registerGroups groups)

def changePassword (save : Except SecurityError Unit) (pw : Passwords)
    (username current new salt : String) : Except SecurityError Unit × SecurityStore :=
  s.commit save fun s => do
    let user ← s.userOf username
    if pw.verify current user.passwordHash = false then .error .incorrectPassword
    else
      checkPassword pw new
      let newHash ← hashPassword pw new salt
      .ok ((), s.setUser username { user with passwordHash := newHash, mustChangePassword := false })

def resetPassword (save : Except SecurityError Unit) (pw : Passwords)
    (username new salt : String) : Except SecurityError Unit × SecurityStore :=
  s.commit save fun s => do
    checkPassword pw new
    let newHash ← hashPassword pw new salt
    let user ← s.userOf username
    .ok ((), s.setUser username { user with passwordHash := newHash })

/-- Reset to a generated password that must be changed. -/
def resetPasswordToTemp (save : Except SecurityError Unit) (pw : Passwords)
    (username temp salt : String) : Except SecurityError String × SecurityStore :=
  match s.userOf username with
  | .error e => (.error e, s)
  | .ok user =>
    s.commit save fun s => do
      let newHash ← hashPassword pw temp salt
      .ok (temp, s.setUser username { user with passwordHash := newHash, mustChangePassword := true })

/-- The number of users with the admin flag. -/
def adminCount : Nat := (s.users.toList.filter fun e => e.2.isAdmin).length

def isAdminUser (username : String) : Bool :=
  match s.users[username]? with
  | some u => u.isAdmin
  | none => false

/-- Take a subject off a list, and drop the list when nothing is left. -/
def strip (subject : Subject) (list : AccessList) : Option AccessList :=
  if (list.set subject .none).isEmpty then none else some (list.set subject .none)

/-- Strip a subject from every list. -/
def purgeSubject (subject : Subject) : SecurityStore :=
  { s with
    grants := s.grants.filterMap fun _ list => strip subject list
    elementAcls := s.elementAcls.filterMap fun _ list => strip subject list }

def forgetUser (username : String) : SecurityStore :=
  { s with users := s.users.erase username }

/-- Delete a user; the last administrator stays. -/
def deleteUser (save : Except SecurityError Unit) (username : String) :
    Except SecurityError Bool × SecurityStore :=
  if s.isAdminUser username ∧ s.adminCount = 1 then (.error .lastAdmin, s)
  else if (s.users[username]?).isNone then (.ok false, s)
  else
    s.commit save fun s => .ok (true, (s.forgetUser username).purgeSubject (.user username))

def setUserAdmin (save : Except SecurityError Unit) (username : String) (isAdmin : Bool) :
    Except SecurityError Unit × SecurityStore :=
  match s.userOf username with
  | .error e => (.error e, s)
  | .ok user =>
    if isAdmin = false ∧ user.isAdmin ∧ s.adminCount = 1 then (.error .lastAdmin, s)
    else s.commit save fun s => .ok ((), s.setUser username { user with isAdmin := isAdmin })

def setUserGroups (save : Except SecurityError Unit) (username : String) (groups : List String) :
    Except SecurityError Unit × SecurityStore :=
  s.commit save fun s => do
    let user ← s.userOf username
    .ok ((), (s.setUser username { user with groups := setOf groups }).registerGroups groups)

def createGroup (save : Except SecurityError Unit) (name : String) :
    Except SecurityError Unit × SecurityStore :=
  s.commit save fun s => .ok ((), s.registerGroups [name])

/-- Remove a group and take every user out of it. -/
def forgetGroup (name : String) : SecurityStore :=
  { s with
    groups := s.groups.erase name
    users := s.users.map fun _ u => { u with groups := u.groups.erase name } }

def deleteGroup (save : Except SecurityError Unit) (name : String) :
    Except SecurityError Bool × SecurityStore :=
  if (s.groups[name]?).isNone then (.ok false, s)
  else
    s.commit save fun s => .ok (true, (s.forgetGroup name).purgeSubject (.group name))

/-- Set a subject's level on one list of a map; a list left empty is
removed. -/
def setIn {κ : Type} [Ord κ] [Std.TransOrd κ] (m : FinMap κ AccessList) (key : κ) (subject : Subject)
    (level : AccessLevel) : FinMap κ AccessList :=
  let list := ((m[key]?).getD AccessList.empty).set subject level
  if list.isEmpty then m.erase key else m.insert key list

def setElementAccess (save : Except SecurityError Unit) (cube dim element : String)
    (subject : Subject) (level : AccessLevel) : Except SecurityError Unit × SecurityStore :=
  s.commit save fun s =>
    .ok ((), { s with elementAcls := setIn s.elementAcls ⟨cube, dim, element⟩ subject level })

def setGrant (save : Except SecurityError Unit) (subject : Subject) (scope : Scope)
    (kind : ObjectKind) (level : AccessLevel) : Except SecurityError Unit × SecurityStore :=
  s.commit save fun s => .ok ((), { s with grants := setIn s.grants ⟨scope, kind⟩ subject level })

/-! ## Runs -/

/-- The calls that change a store. -/
inductive Call where
  | createUser (username password salt : String) (isAdmin : Bool) (groups : List String)
  | changePassword (username current new salt : String)
  | resetPassword (username new salt : String)
  | resetPasswordToTemp (username temp salt : String)
  | deleteUser (username : String)
  | setUserAdmin (username : String) (isAdmin : Bool)
  | setUserGroups (username : String) (groups : List String)
  | createGroup (name : String)
  | deleteGroup (name : String)
  | setElementAccess (cube dim element : String) (subject : Subject) (level : AccessLevel)
  | setGrant (subject : Subject) (scope : Scope) (kind : ObjectKind) (level : AccessLevel)

/-- The store after a call, with the outcome of its save. -/
def apply (pw : Passwords) (save : Except SecurityError Unit) : Call → SecurityStore
  | .createUser u p salt a gs => (s.createUserWithGroups save pw u p salt a gs).2
  | .changePassword u current new salt => (s.changePassword save pw u current new salt).2
  | .resetPassword u new salt => (s.resetPassword save pw u new salt).2
  | .resetPasswordToTemp u temp salt => (s.resetPasswordToTemp save pw u temp salt).2
  | .deleteUser u => (s.deleteUser save u).2
  | .setUserAdmin u a => (s.setUserAdmin save u a).2
  | .setUserGroups u gs => (s.setUserGroups save u gs).2
  | .createGroup g => (s.createGroup save g).2
  | .deleteGroup g => (s.deleteGroup save g).2
  | .setElementAccess c d e subject level => (s.setElementAccess save c d e subject level).2
  | .setGrant subject scope kind level => (s.setGrant save subject scope kind level).2

/-- The store after a run of calls, each with the outcome of its save. -/
def applyAll (pw : Passwords) (calls : List (Except SecurityError Unit × Call)) : SecurityStore :=
  calls.foldl (fun s c => s.apply pw c.1 c.2) s

end SecurityStore

end Epiphany
