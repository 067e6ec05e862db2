import Epiphany.Security.Revocation
/-!
# The security artifact — what is written and what is read back

The store is written as one document: a row for each user, and a row for
each subject on each list. The reader collects the rows into lists again.
A row of level `none` takes its subject off a list and leaves the list, and
the writer gives an empty list no row. For a grant that is nothing lost; an
element restricted to nobody becomes an open one.

The text of the document is left to the serializer: a text stands for the
document it is read as.
-/

namespace Epiphany

/-! ## Documents -/

structure UserDoc where
  username : String
  isAdmin : Bool
  mustChangePassword : Bool
  passwordHash : String
  groups : List String

structure ElementAclDoc where
  cube : String
  dimension : String
  element : String
  subjectKind : String
  subject : String
  level : String

structure GrantDoc where
  subjectKind : String
  subject : String
  /-- `global` or `cube`. -/
  scope : String
  cube : Option String
  kind : String
  level : String

structure SecurityDoc where
  format : String
  users : List UserDoc
  groups : List String
  elementAcls : List ElementAclDoc
  grants : List GrantDoc

def securityFormat : String := "epiphany-security/v0"

/-- A subject from its serialized kind and name. -/
def subjectFrom (kind name : String) : Option Subject :=
  match kind with
  | "user" => some (.user name)
  | "group" => some (.group name)
  | _ => none

namespace Subject

def kindStr : Subject → String
  | user _ => "user"
  | group _ => "group"

def name : Subject → String
  | user n => n
  | group n => n

@[simp] theorem from_kindStr (x : Subject) : subjectFrom x.kindStr x.name = some x := by
  cases x <;> rfl

end Subject

/-! ## Rows -/

/-- One subject on one list. -/
structure AclRow (κ : Type) where
  key : κ
  subject : Subject
  level : AccessLevel

namespace AclRow

variable {κ : Type} [Ord κ] [Std.TransOrd κ]

/-- The subjects of a list: the users and then the groups. -/
def ofList (key : κ) (list : AccessList) : List (AclRow κ) :=
  (list.users.levels.toList.map fun e => ⟨key, .user e.1, e.2⟩) ++
    list.groups.levels.toList.map fun e => ⟨key, .group e.1, e.2⟩

def ofMap (m : FinMap κ AccessList) : List (AclRow κ) := m.toList.flatMap fun e => ofList e.1 e.2

/-- Set one row's subject, on a list made for it if there is none. -/
def addTo (m : FinMap κ AccessList) (row : AclRow κ) : FinMap κ AccessList :=
  m.insert row.key (((m[row.key]?).getD AccessList.empty).set row.subject row.level)

/-- The lists that rows make up. -/
def collect (rows : List (AclRow κ)) : FinMap κ AccessList := rows.foldl addTo ∅

end AclRow

/-! ## Writing -/

def elementAclDoc (row : AclRow ElementKey) : ElementAclDoc where
  cube := row.key.cube
  dimension := row.key.dimension
  element := row.key.element
  subjectKind := row.subject.kindStr
  subject := row.subject.name
  level := row.level.asStr

def grantDoc (row : AclRow GrantKey) : GrantDoc where
  subjectKind := row.subject.kindStr
  subject := row.subject.name
  scope :=
    match row.key.scope with
    | .global => "global"
    | .cube _ => "cube"
  cube := row.key.cube?
  kind := row.key.kind.asStr
  level := row.level.asStr

def userDoc (username : String) (u : User) : UserDoc where
  username := username
  isAdmin := u.isAdmin
  mustChangePassword := u.mustChangePassword
  passwordHash := u.passwordHash
  groups := u.groups.toList.map Prod.fst

namespace SecurityStore

def toModelText (s : SecurityStore) : SecurityDoc where
  format := securityFormat
  users := s.users.toList.map fun e => userDoc e.1 e.2
  groups := s.groups.toList.map Prod.fst
  elementAcls := (AclRow.ofMap s.elementAcls).map elementAclDoc
  grants := (AclRow.ofMap s.grants).map grantDoc

/-! ## Reading -/

/-- An element row fails closed: what does not parse rejects the artifact. -/
def elementAclRow (row : ElementAclDoc) : Except SecurityError (AclRow ElementKey) :=
  let place := "'" ++ row.cube ++ "/" ++ row.dimension ++ "/" ++ row.element ++ "'"
  match AccessLevel.parse row.level with
  | none =>
    .error (.format ("element ACL for " ++ place ++ " has an unknown level '" ++ row.level ++ "'"))
  | some level =>
    match subjectFrom row.subjectKind row.subject with
    | none =>
      .error (.format ("element ACL for " ++ place ++ " has an unknown subject kind '" ++
        row.subjectKind ++ "'"))
    | some subject => .ok ⟨⟨row.cube, row.dimension, row.element⟩, subject, level⟩

def scopeFrom (scope : String) (cube : Option String) : Option Scope :=
  match scope with
  | "global" => some .global
  | "cube" => cube.map .cube
  | _ => none

/-- A grant row that does not parse is skipped. -/
def grantRow (row : GrantDoc) : Option (AclRow GrantKey) := do
  let subject ← subjectFrom row.subjectKind row.subject
  let kind ← ObjectKind.parse row.kind
  let level ← AccessLevel.parse row.level
  let scope ← scopeFrom row.scope row.cube
  some ⟨⟨scope, kind⟩, subject, level⟩

def userOfDoc (u : UserDoc) : String × User :=
  (u.username, ⟨u.isAdmin, u.passwordHash, u.mustChangePassword, setOf u.groups⟩)

def fromModelText (doc : SecurityDoc) : Except SecurityError SecurityStore := do
  if doc.format ≠ securityFormat then
    .error (.format ("unknown security format '" ++ doc.format ++ "'"))
  else
    let elementRows ← doc.elementAcls.mapM elementAclRow
    .ok {
      users := FinMap.collect (doc.users.map userOfDoc)
      groups := setOf doc.groups
      elementAcls := AclRow.collect elementRows
      grants := AclRow.collect (doc.grants.filterMap grantRow) }

end SecurityStore

/-! ## Collecting what was listed -/

namespace LevelMap

theorem foldl_set {l : List (String × AccessLevel)} (hl : ∀ e ∈ l, e.2 ≠ .none) {m : LevelMap} :
    (l.foldl (fun m e => m.set e.1 e.2) m).levels =
      l.foldl (fun m e => m.insert e.1 e.2) m.levels := by
  induction l generalizing m with
  | nil => rfl
  | cons e l ih =>
    rw [List.foldl_cons, List.foldl_cons, ih fun x hx => hl x (List.mem_cons_of_mem _ hx), set,
      dif_neg (hl e List.mem_cons_self)]

/-- Setting what a map lists gives the map. -/
theorem foldl_set_toList (m : LevelMap) :
    m.levels.toList.foldl (fun m e => m.set e.1 e.2) empty = m := by
  have hlive : ∀ e ∈ m.levels.toList, e.2 ≠ .none := by
    rintro ⟨name, level⟩ hmem rfl
    exact m.live name (FinMap.mem_toList.1 hmem)
  have hlevels : (m.levels.toList.foldl (fun m e => m.set e.1 e.2) empty).levels = m.levels :=
    (foldl_set hlive).trans (FinMap.collect_toList m.levels)
  refine ext fun name => ?_
  rw [get, get, hlevels]

end LevelMap

namespace AclRow

variable {κ : Type} [Ord κ] [Std.TransOrd κ] [Std.LawfulEqOrd κ] [DecidableEq κ]

/-- Set the subjects of rows on one list. -/
def setAll (list : AccessList) (rows : List (AclRow κ)) : AccessList :=
  rows.foldl (fun list row => list.set row.subject row.level) list

omit [Ord κ] [Std.TransOrd κ] [Std.LawfulEqOrd κ] [DecidableEq κ] in
theorem setAll_users (key : κ) (l : List (String × AccessLevel)) (list : AccessList) :
    setAll list (l.map fun e => ⟨key, .user e.1, e.2⟩) =
      { list with users := l.foldl (fun m e => m.set e.1 e.2) list.users } := by
  induction l generalizing list with
  | nil => rfl
  | cons e l ih => exact ih _

omit [Ord κ] [Std.TransOrd κ] [Std.LawfulEqOrd κ] [DecidableEq κ] in
theorem setAll_groups (key : κ) (l : List (String × AccessLevel)) (list : AccessList) :
    setAll list (l.map fun e => ⟨key, .group e.1, e.2⟩) =
      { list with groups := l.foldl (fun m e => m.set e.1 e.2) list.groups } := by
  induction l generalizing list with
  | nil => rfl
  | cons e l ih => exact ih _

omit [Ord κ] [Std.TransOrd κ] [Std.LawfulEqOrd κ] [DecidableEq κ] in
/-- The rows of a list make it up. -/
theorem setAll_ofList (key : κ) (list : AccessList) : setAll .empty (ofList key list) = list := by
  have h := setAll_groups key list.groups.levels.toList
    (setAll .empty (list.users.levels.toList.map fun e => ⟨key, .user e.1, e.2⟩))
  rw [setAll, ofList, List.foldl_append]
  refine h.trans ?_
  rw [setAll_users]
  simp only [AccessList.empty, LevelMap.foldl_set_toList]

/-- What collected rows look up: the rows of the key, set in their order. -/
theorem get_foldl_addTo (rows : List (AclRow κ)) (m : FinMap κ AccessList) (key : κ) :
    (rows.foldl addTo m)[key]? =
      if (rows.filter fun row => row.key = key) = [] then m[key]?
      else some (setAll ((m[key]?).getD .empty) (rows.filter fun row => row.key = key)) := by
  induction rows generalizing m with
  | nil => rfl
  | cons row rows ih =>
    rw [List.foldl_cons, ih, addTo, FinMap.get_insert]
    by_cases hk : row.key = key
    · subst hk
      simp only [if_true, List.filter_cons, decide_true, List.cons_ne_nil, if_false,
        Option.getD_some]
      split_ifs with hnil
      · rw [hnil]
        rfl
      · rfl
    · simp [hk]

omit [Ord κ] [Std.TransOrd κ] [Std.LawfulEqOrd κ] [DecidableEq κ] in
theorem key_of_mem_ofList {key : κ} {list : AccessList} {row : AclRow κ}
    (h : row ∈ ofList key list) : row.key = key := by
  simp only [ofList, List.mem_append, List.mem_map] at h
  rcases h with ⟨e, -, rfl⟩ | ⟨e, -, rfl⟩ <;> rfl

omit [Ord κ] [Std.TransOrd κ] [Std.LawfulEqOrd κ] [DecidableEq κ] in
theorem ofList_eq_nil {key : κ} {list : AccessList} :
    ofList key list = [] ↔ list.isEmpty = true := by
  simp [ofList, AccessList.isEmpty, LevelMap.isEmpty]

/-- **Collecting the rows of a map gives its lists that are not empty.** -/
theorem get_collect_ofMap (m : FinMap κ AccessList) (key : κ) :
    (collect (ofMap m))[key]? = (m[key]?).bind fun list =>
      if list.isEmpty then none else some list := by
  rw [collect, get_foldl_addTo, ofMap,
    FinMap.filter_flatMap_toList (fun e row hrow => key_of_mem_ofList hrow)]
  rcases hm : m[key]? with _ | list
  · rfl
  · simp only [ofList_eq_nil, FinMap.get_empty, Option.getD_none, setAll_ofList, Option.bind_some]

end AclRow

/-! ## Reading what was written -/

theorem setOf_toList (m : FinMap String Unit) : setOf (m.toList.map Prod.fst) = m := by
  rw [setOf, List.map_map]
  exact (congrArg FinMap.collect (List.map_id _)).trans (FinMap.collect_toList m)

namespace SecurityStore

variable {s : SecurityStore}

theorem elementAclRow_elementAclDoc (row : AclRow ElementKey) :
    elementAclRow (elementAclDoc row) = .ok row := by
  simp [elementAclRow, elementAclDoc]

theorem grantRow_grantDoc (row : AclRow GrantKey) : grantRow (grantDoc row) = some row := by
  obtain ⟨⟨scope, kind⟩, subject, level⟩ := row
  cases scope <;> simp [grantRow, grantDoc, scopeFrom, GrantKey.cube?]

theorem userOfDoc_userDoc (e : String × User) : userOfDoc (userDoc e.1 e.2) = e := by
  obtain ⟨name, u⟩ := e
  rw [userOfDoc, userDoc, setOf_toList]

/-- The store that is read back: the lists that are not empty. -/
def reloaded (s : SecurityStore) : SecurityStore where
  users := s.users
  groups := s.groups
  elementAcls := AclRow.collect (AclRow.ofMap s.elementAcls)
  grants := AclRow.collect (AclRow.ofMap s.grants)

/-- **A saved store always loads.** -/
theorem fromModelText_toModelText (s : SecurityStore) :
    fromModelText s.toModelText = .ok s.reloaded := by
  have hrows : (s.toModelText.elementAcls).mapM elementAclRow =
      .ok (AclRow.ofMap s.elementAcls) := by
    rw [toModelText, mapM_eq_ok, List.forall₂_map_left_iff, List.forall₂_same]
    exact fun row _ => elementAclRow_elementAclDoc row
  have hgrants : (s.toModelText.grants).filterMap grantRow = AclRow.ofMap s.grants := by
    simp only [toModelText, List.filterMap_map]
    exact (List.filterMap_congr fun row _ => grantRow_grantDoc row).trans List.filterMap_some
  have husers : (s.toModelText.users).map userOfDoc = s.users.toList := by
    simp only [toModelText, List.map_map]
    exact (List.map_congr_left fun e _ => userOfDoc_userDoc e).trans (List.map_id _)
  unfold fromModelText
  rw [if_neg (by simp [toModelText]), hrows, hgrants, husers, FinMap.collect_toList]
  rw [show setOf s.toModelText.groups = s.groups from setOf_toList s.groups]
  rfl

/-- Two stores decide alike about every principal. -/
structure SameDecisions (s s' : SecurityStore) : Prop where
  users : s'.users = s.users
  groups : s'.groups = s.groups
  effective : ∀ p kind cube, s'.effective p kind cube = s.effective p kind cube
  readable : ∀ p cube dim element,
    s'.elementReadable p cube dim element = s.elementReadable p cube dim element
  writable : ∀ p cube dim element,
    s'.elementWritable p cube dim element = s.elementWritable p cube dim element

/-- An empty list of grants gives as little as none. -/
theorem grantLevel_reloaded (p : Principal) (scope : Scope) (kind : ObjectKind) :
    s.reloaded.grantLevel p scope kind = s.grantLevel p scope kind := by
  unfold grantLevel
  rw [reloaded, AclRow.get_collect_ofMap]
  rcases s.grants[GrantKey.mk scope kind]? with _ | list
  · rfl
  · by_cases he : list.isEmpty = true
    · simp [he, AccessList.levelFor_of_isEmpty he]
    · simp [he]

theorem effective_reloaded (p : Principal) (kind : ObjectKind) (cube : Option String) :
    s.reloaded.effective p kind cube = s.effective p kind cube := by
  unfold effective
  simp only [grantLevel_reloaded]

/-- Whether some element is restricted to nobody. -/
def NoneEmpty (s : SecurityStore) : Prop :=
  ∀ (key : ElementKey) (list : AccessList), s.elementAcls[key]? = some list → list.isEmpty = false

theorem elementAccess_reloaded (h : s.NoneEmpty) (p : Principal) (cube dim element : String) :
    s.reloaded.elementAccess p cube dim element = s.elementAccess p cube dim element := by
  unfold elementAccess
  rw [reloaded, AclRow.get_collect_ofMap]
  rcases hlist : s.elementAcls[ElementKey.mk cube dim element]? with _ | list
  · rfl
  · simp [h _ _ hlist]

/-- **A store decides alike after saving and loading exactly when no
element's list is empty.** -/
theorem sameDecisions_reload_iff (s : SecurityStore) :
    (∃ s', fromModelText s.toModelText = .ok s' ∧ SameDecisions s s') ↔ s.NoneEmpty := by
  rw [fromModelText_toModelText]
  constructor
  · rintro ⟨s', hs', hsame⟩ key list hlist
    cases hs'
    rw [← Bool.not_eq_true]
    intro he
    -- Anybody without the admin flag sees the list go.
    have hclosed : s.elementReadable ⟨"", false, []⟩ key.cube key.dimension key.element = false := by
      rw [← Bool.not_eq_true, elementReadable_iff]
      intro h
      have hread : AccessLevel.read ≤ list.levelFor "" [] := h _ (congrArg (Option.map _) hlist)
      rw [AccessList.levelFor_of_isEmpty he] at hread
      exact absurd hread (by decide)
    have hopen : s.reloaded.elementReadable ⟨"", false, []⟩ key.cube key.dimension key.element =
        true := by
      rw [elementReadable_iff]
      intro l hl
      have hgone : s.reloaded.elementAcls[key]? = none := by
        rw [reloaded, AclRow.get_collect_ofMap, hlist]
        simp [he]
      cases (congrArg (Option.map _) hgone).symm.trans hl
    rw [hsame.readable, hclosed] at hopen
    cases hopen
  · intro h
    refine ⟨s.reloaded, rfl, rfl, rfl, effective_reloaded, ?_, ?_⟩
    · intro p cube dim element
      rw [elementReadable, elementReadable, elementAccess_reloaded h]
    · intro p cube dim element
      rw [elementWritable, elementWritable, elementAccess_reloaded h]

/-! ## A row that restricts an element to nobody -/

/-- The only row of `North` takes Ann off a list nobody was on. -/
def noneDoc : SecurityDoc where
  format := securityFormat
  users := [⟨"admin", true, false, "", []⟩, ⟨"bob", false, false, "", []⟩]
  groups := []
  elementAcls := [⟨"Sales", "Region", "North", "user", "ann", "none"⟩]
  grants := []

/-- Bob is kept from `North` until the store is saved and loaded. -/
theorem not_sameDecisions_none_row : ∃ s, fromModelText noneDoc = .ok s ∧
    ¬ ∃ s', fromModelText s.toModelText = .ok s' ∧ SameDecisions s s' := by
  obtain ⟨s, hs, hclosed⟩ := exists_ok_of_any (by decide +kernel :
    (fromModelText noneDoc).toOption.any (fun s =>
      !s.elementReadable ⟨"bob", false, []⟩ "Sales" "Region" "North" &&
        s.reloaded.elementReadable ⟨"bob", false, []⟩ "Sales" "Region" "North") = true)
  rw [Bool.and_eq_true, Bool.not_eq_true'] at hclosed
  refine ⟨s, hs, ?_⟩
  rintro ⟨s', hs', hsame⟩
  obtain rfl : s.reloaded = s' := Except.ok.inj ((fromModelText_toModelText s).symm.trans hs')
  have hread := hsame.readable ⟨"bob", false, []⟩ "Sales" "Region" "North"
  rw [hclosed.1, hclosed.2] at hread
  cases hread

/-! ## Runs -/

variable {pw : Passwords} {save : Except SecurityError Unit}

theorem elementAcls_insertUser {username password salt : String} {isAdmin mustChange : Bool}
    {groups : List String} {next : SecurityStore}
    (h : s.insertUser pw username password salt isAdmin mustChange groups = .ok next) :
    next.elementAcls = s.elementAcls := by
  unfold insertUser at h
  split_ifs at h
  obtain ⟨hash, -, h⟩ := bind_eq_ok.1 h
  cases h
  rfl

/-- A change that leaves the lists of elements alone. -/
theorem elementAcls_commit {α : Type}
    {mutate : SecurityStore → Except SecurityError (α × SecurityStore)}
    (h : ∀ value next, mutate s = .ok (value, next) → next.elementAcls = s.elementAcls) :
    (s.commit save mutate).2.elementAcls = s.elementAcls := by
  rcases s.commit_cases save mutate with heq | ⟨value, heq⟩
  · rw [heq]
  · exact h value _ heq

/-- What a call can do to the lists of elements. -/
theorem elementAcls_apply (s : SecurityStore) (pw : Passwords)
    (save : Except SecurityError Unit) (c : Call) :
    (s.apply pw save c).elementAcls = s.elementAcls ∨
      (∃ subject, (s.apply pw save c).elementAcls =
        s.elementAcls.filterMap fun _ list => strip subject list) ∨
      ∃ key subject level, (s.apply pw save c).elementAcls =
        setIn s.elementAcls key subject level := by
  -- only the two deletions and the setting of a list touch the lists
  cases c with
  | createUser username password salt isAdmin groups =>
    refine Or.inl (elementAcls_commit fun value next h => ?_)
    obtain ⟨-, -, h⟩ := bind_eq_ok.1 h
    obtain ⟨mid, hmid, h⟩ := bind_eq_ok.1 h
    cases h
    have hacls := elementAcls_insertUser hmid
    exact hacls
  | changePassword username current new salt =>
    refine Or.inl (elementAcls_commit fun value next h => ?_)
    obtain ⟨user, -, h⟩ := bind_eq_ok.1 h
    split_ifs at h
    obtain ⟨-, -, h⟩ := bind_eq_ok.1 h
    obtain ⟨hash, -, h⟩ := bind_eq_ok.1 h
    cases h
    rfl
  | resetPassword username new salt =>
    refine Or.inl (elementAcls_commit fun value next h => ?_)
    obtain ⟨-, -, h⟩ := bind_eq_ok.1 h
    obtain ⟨hash, -, h⟩ := bind_eq_ok.1 h
    obtain ⟨user, -, h⟩ := bind_eq_ok.1 h
    cases h
    rfl
  | resetPasswordToTemp username temp salt =>
    refine Or.inl ?_
    rw [apply, resetPasswordToTemp]
    rcases s.userOf username with e | user
    · rfl
    · refine elementAcls_commit fun value next h => ?_
      obtain ⟨hash, -, h⟩ := bind_eq_ok.1 h
      cases h
      rfl
  | deleteUser username =>
    rw [apply, deleteUser_snd]
    split_ifs
    · exact Or.inr (Or.inl ⟨.user username, rfl⟩)
    · exact Or.inl rfl
  | setUserAdmin username isAdmin =>
    refine Or.inl ?_
    rw [apply, setUserAdmin]
    rcases s.userOf username with e | user
    · rfl
    · dsimp only
      split_ifs
      · rfl
      · refine elementAcls_commit fun value next h => ?_
        cases h
        rfl
  | setUserGroups username groups =>
    refine Or.inl (elementAcls_commit fun value next h => ?_)
    obtain ⟨user, -, h⟩ := bind_eq_ok.1 h
    cases h
    rfl
  | createGroup name =>
    refine Or.inl (elementAcls_commit fun value next h => ?_)
    cases h
    rfl
  | deleteGroup name =>
    rw [apply, deleteGroup_snd]
    split_ifs
    · exact Or.inr (Or.inl ⟨.group name, rfl⟩)
    · exact Or.inl rfl
  | setElementAccess cube dim element subject level =>
    rw [apply, setElementAccess, commit_ok]
    split_ifs
    · exact Or.inr (Or.inr ⟨⟨cube, dim, element⟩, subject, level, rfl⟩)
    · exact Or.inl rfl
  | setGrant subject scope kind level =>
    refine Or.inl (elementAcls_commit fun value next h => ?_)
    cases h
    rfl

/-- A call leaves no empty list that was not there. -/
theorem NoneEmpty.apply (h : s.NoneEmpty) (c : Call) : (s.apply pw save c).NoneEmpty := by
  intro key list hlist
  rcases elementAcls_apply s pw save c with heq | ⟨subject, heq⟩ | ⟨key', subject, level, heq⟩
  · rw [heq] at hlist
    exact h key list hlist
  · rw [heq, Std.ExtTreeMap.getElem?_filterMap', Option.bind_eq_some_iff] at hlist
    obtain ⟨old, -, hlist⟩ := hlist
    unfold strip at hlist
    split_ifs at hlist with he
    cases hlist
    exact Bool.not_eq_true _ ▸ he
  · rw [heq, setIn] at hlist
    split_ifs at hlist with he
    · rw [FinMap.get_erase] at hlist
      split_ifs at hlist
      exact h key list hlist
    · rw [FinMap.get_insert] at hlist
      split_ifs at hlist
      · cases hlist
        exact Bool.not_eq_true _ ▸ he
      · exact h key list hlist

/-- **Only the artifact can restrict an element to nobody.** A run from a
store without an empty list meets none. -/
theorem NoneEmpty.applyAll (h : s.NoneEmpty)
    (calls : List (Except SecurityError Unit × Call)) : (s.applyAll pw calls).NoneEmpty := by
  induction calls generalizing s with
  | nil => exact h
  | cons c calls ih => exact ih (h.apply c.2)

end SecurityStore

end Epiphany
