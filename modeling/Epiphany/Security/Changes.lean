import Epiphany.Security.Revocation
/-!
# Changes — what each call makes of a store

One inversion lemma for the calls of `SecurityStore`: a refused call leaves
the store, and `Made` lists what an accepted one leaves. From it: an
administrator stays, and an entry is on a list because it was there before
or because this very call set it.
-/

namespace Epiphany

namespace SecurityStore

/-! ## Outcomes -/

/-- The outcome of a change that reports nothing: it was made. -/
def done {α : Type} (r : Except SecurityError α × SecurityStore) :
    Except SecurityError Bool × SecurityStore :=
  (r.1.map fun _ => true, r.2)

/-- A call with its outcome: whether it changed the store. Only a deletion
that finds nothing is accepted and changes nothing. -/
def perform (s : SecurityStore) (pw : Passwords) (save : Except SecurityError Unit) :
    Call → Except SecurityError Bool × SecurityStore
  | .createUser u p salt a gs => done (s.createUserWithGroups save pw u p salt a gs)
  | .changePassword u current new salt => done (s.changePassword save pw u current new salt)
  | .resetPassword u new salt => done (s.resetPassword save pw u new salt)
  | .resetPasswordToTemp u temp salt => done (s.resetPasswordToTemp save pw u temp salt)
  | .deleteUser u => s.deleteUser save u
  | .setUserAdmin u a => done (s.setUserAdmin save u a)
  | .setUserGroups u gs => done (s.setUserGroups save u gs)
  | .createGroup g => done (s.createGroup save g)
  | .deleteGroup g => s.deleteGroup save g
  | .setElementAccess c d e subject level => done (s.setElementAccess save c d e subject level)
  | .setGrant subject scope kind level => done (s.setGrant save subject scope kind level)

variable {s : SecurityStore} {pw : Passwords} {save : Except SecurityError Unit}

/-! ## What an accepted call leaves -/

/-- An accepted call, whether it changed the store, and what it left. -/
inductive Made (s : SecurityStore) : Call → Bool → SecurityStore → Prop
  | createUser {u p salt : String} {a : Bool} {gs : List String} (hash : String)
      (fresh : s.users[u]? = none) :
      Made s (.createUser u p salt a gs) true
        ((s.setUser u ⟨a, hash, false, setOf gs⟩).registerGroups gs)
  | changePassword {u current new salt : String} {user : User} (hash : String)
      (found : s.users[u]? = some user) :
      Made s (.changePassword u current new salt) true
        (s.setUser u { user with passwordHash := hash, mustChangePassword := false })
  | resetPassword {u new salt : String} {user : User} (hash : String)
      (found : s.users[u]? = some user) :
      Made s (.resetPassword u new salt) true (s.setUser u { user with passwordHash := hash })
  | resetPasswordToTemp {u temp salt : String} {user : User} (hash : String)
      (found : s.users[u]? = some user) :
      Made s (.resetPasswordToTemp u temp salt) true
        (s.setUser u { user with passwordHash := hash, mustChangePassword := true })
  | deleteUser {u : String} (notLast : ¬ (s.isAdminUser u = true ∧ s.adminCount = 1)) :
      Made s (.deleteUser u) true ((s.forgetUser u).purgeSubject (.user u))
  | noUser {u : String} : Made s (.deleteUser u) false s
  | setUserAdmin {u : String} {a : Bool} {user : User} (found : s.users[u]? = some user)
      (notLast : ¬ (a = false ∧ user.isAdmin = true ∧ s.adminCount = 1)) :
      Made s (.setUserAdmin u a) true (s.setUser u { user with isAdmin := a })
  | setUserGroups {u : String} {gs : List String} {user : User} (found : s.users[u]? = some user) :
      Made s (.setUserGroups u gs) true
        ((s.setUser u { user with groups := setOf gs }).registerGroups gs)
  | createGroup {g : String} : Made s (.createGroup g) true (s.registerGroups [g])
  | deleteGroup {g : String} :
      Made s (.deleteGroup g) true ((s.forgetGroup g).purgeSubject (.group g))
  | noGroup {g : String} : Made s (.deleteGroup g) false s
  | setElementAccess {c d e : String} {subject : Subject} {level : AccessLevel} :
      Made s (.setElementAccess c d e subject level) true
        { s with elementAcls := setIn s.elementAcls ⟨c, d, e⟩ subject level }
  | setGrant {subject : Subject} {scope : Scope} {kind : ObjectKind} {level : AccessLevel} :
      Made s (.setGrant subject scope kind level) true
        { s with grants := setIn s.grants ⟨scope, kind⟩ subject level }

theorem userOf_eq_ok {u : String} {user : User} :
    s.userOf u = .ok user ↔ s.users[u]? = some user := by
  unfold userOf
  rcases s.users[u]? with _ | found <;> simp

theorem commit_eq_ok {α : Type} {mutate : SecurityStore → Except SecurityError (α × SecurityStore)}
    {value : α} : (s.commit save mutate).1 = .ok value ↔
      ∃ next, mutate s = .ok (value, next) ∧ save = .ok () := by
  unfold commit
  rcases mutate s with e | ⟨v, next⟩
  · simp
  · rcases save with e | ⟨⟩ <;> simp

/-- A change that was accepted and saved is the state gone on with. -/
theorem commit_snd {α : Type} {mutate : SecurityStore → Except SecurityError (α × SecurityStore)}
    {value : α} {next : SecurityStore} (h : mutate s = .ok (value, next)) (hsave : save = .ok ()) :
    (s.commit save mutate).2 = next := by
  unfold commit
  rw [h, hsave]

/-- A change that failed, or could not be saved, is rolled back. -/
theorem commit_error {α : Type} {mutate : SecurityStore → Except SecurityError (α × SecurityStore)}
    {e : SecurityError} (h : (s.commit save mutate).1 = .error e) :
    (s.commit save mutate).2 = s := by
  rcases s.commit_cases save mutate with heq | ⟨value, heq⟩
  · exact heq
  · unfold commit at h ⊢
    rw [heq] at h ⊢
    rcases save with e' | ⟨⟩
    · rfl
    · cases h

theorem done_eq_ok {α : Type} {r : Except SecurityError α × SecurityStore} {b : Bool} :
    (done r).1 = .ok b ↔ b = true ∧ ∃ value, r.1 = .ok value := by
  unfold done
  rw [map_eq_ok]
  constructor
  · rintro ⟨value, hvalue, rfl⟩
    exact ⟨rfl, value, hvalue⟩
  · rintro ⟨rfl, value, hvalue⟩
    exact ⟨value, hvalue, rfl⟩

/-- What a change through `commit` made, in terms of its body. -/
theorem made_commit {α : Type} {mutate : SecurityStore → Except SecurityError (α × SecurityStore)}
    {c : Call} {value : α} {b : Bool} (h : (s.commit save mutate).1 = .ok value)
    (hmade : ∀ next, mutate s = .ok (value, next) → Made s c b next) :
    Made s c b (s.commit save mutate).2 := by
  obtain ⟨next, hnext, hsave⟩ := commit_eq_ok.1 h
  rw [commit_snd hnext hsave]
  exact hmade next hnext

theorem made_deleteUser {u : String} {b : Bool} (h : (s.deleteUser save u).1 = .ok b) :
    Made s (.deleteUser u) b (s.deleteUser save u).2 := by
  unfold deleteUser at h ⊢
  split_ifs at h ⊢ with hlast hnone
  · cases h
    exact .noUser
  · refine made_commit h fun next hnext => ?_
    cases hnext
    exact .deleteUser hlast

theorem made_deleteGroup {g : String} {b : Bool} (h : (s.deleteGroup save g).1 = .ok b) :
    Made s (.deleteGroup g) b (s.deleteGroup save g).2 := by
  unfold deleteGroup at h ⊢
  split_ifs at h ⊢ with hnone
  · cases h
    exact .noGroup
  · refine made_commit h fun next hnext => ?_
    cases hnext
    exact .deleteGroup

theorem made_setUserAdmin {u : String} {a : Bool} {v : Unit}
    (h : (s.setUserAdmin save u a).1 = .ok v) :
    Made s (.setUserAdmin u a) true (s.setUserAdmin save u a).2 := by
  unfold setUserAdmin at h ⊢
  rcases huser : s.userOf u with e | user
  · rw [huser] at h
    cases h
  · rw [huser] at h
    dsimp only at h ⊢
    split_ifs at h ⊢ with hlast
    refine made_commit h fun next hnext => ?_
    cases hnext
    exact .setUserAdmin (userOf_eq_ok.1 huser) hlast

theorem made_resetPasswordToTemp {u temp salt v : String}
    (h : (s.resetPasswordToTemp save pw u temp salt).1 = .ok v) :
    Made s (.resetPasswordToTemp u temp salt) true (s.resetPasswordToTemp save pw u temp salt).2 := by
  unfold resetPasswordToTemp at h ⊢
  rcases huser : s.userOf u with e | user
  · rw [huser] at h
    cases h
  · rw [huser] at h
    dsimp only at h ⊢
    refine made_commit h fun next hnext => ?_
    obtain ⟨hash, -, hnext⟩ := bind_eq_ok.1 hnext
    cases hnext
    exact .resetPasswordToTemp hash (userOf_eq_ok.1 huser)

/-- **Inversion.** What an accepted call left. -/
theorem made_of_perform {c : Call} {b : Bool} (h : (s.perform pw save c).1 = .ok b) :
    Made s c b (s.perform pw save c).2 := by
  -- the checks of a call leave nothing behind but the change they let through
  cases c with
  | createUser u p salt a gs =>
    obtain ⟨rfl, v, h⟩ := done_eq_ok.1 h
    refine made_commit h fun next hnext => ?_
    obtain ⟨-, -, hnext⟩ := bind_eq_ok.1 hnext
    obtain ⟨mid, hmid, hnext⟩ := bind_eq_ok.1 hnext
    cases hnext
    unfold insertUser at hmid
    split_ifs at hmid with hfresh
    obtain ⟨hash, -, hmid⟩ := bind_eq_ok.1 hmid
    cases hmid
    exact .createUser hash (Option.not_isSome_iff_eq_none.1 hfresh)
  | changePassword u current new salt =>
    obtain ⟨rfl, v, h⟩ := done_eq_ok.1 h
    refine made_commit h fun next hnext => ?_
    obtain ⟨user, huser, hnext⟩ := bind_eq_ok.1 hnext
    split_ifs at hnext
    obtain ⟨-, -, hnext⟩ := bind_eq_ok.1 hnext
    obtain ⟨hash, -, hnext⟩ := bind_eq_ok.1 hnext
    cases hnext
    exact .changePassword hash (userOf_eq_ok.1 huser)
  | resetPassword u new salt =>
    obtain ⟨rfl, v, h⟩ := done_eq_ok.1 h
    refine made_commit h fun next hnext => ?_
    obtain ⟨-, -, hnext⟩ := bind_eq_ok.1 hnext
    obtain ⟨hash, -, hnext⟩ := bind_eq_ok.1 hnext
    obtain ⟨user, huser, hnext⟩ := bind_eq_ok.1 hnext
    cases hnext
    exact .resetPassword hash (userOf_eq_ok.1 huser)
  | resetPasswordToTemp u temp salt =>
    obtain ⟨rfl, v, h⟩ := done_eq_ok.1 h
    exact made_resetPasswordToTemp h
  | deleteUser u => exact made_deleteUser h
  | setUserAdmin u a =>
    obtain ⟨rfl, v, h⟩ := done_eq_ok.1 h
    exact made_setUserAdmin h
  | setUserGroups u gs =>
    obtain ⟨rfl, v, h⟩ := done_eq_ok.1 h
    refine made_commit h fun next hnext => ?_
    obtain ⟨user, huser, hnext⟩ := bind_eq_ok.1 hnext
    cases hnext
    exact .setUserGroups (userOf_eq_ok.1 huser)
  | createGroup g =>
    obtain ⟨rfl, v, h⟩ := done_eq_ok.1 h
    refine made_commit h fun next hnext => ?_
    cases hnext
    exact .createGroup
  | deleteGroup g => exact made_deleteGroup h
  | setElementAccess c d e subject level =>
    obtain ⟨rfl, v, h⟩ := done_eq_ok.1 h
    refine made_commit h fun next hnext => ?_
    cases hnext
    exact .setElementAccess
  | setGrant subject scope kind level =>
    obtain ⟨rfl, v, h⟩ := done_eq_ok.1 h
    refine made_commit h fun next hnext => ?_
    cases hnext
    exact .setGrant

/-! ## A refused call -/

theorem done_eq_error {α : Type} {r : Except SecurityError α × SecurityStore} {e : SecurityError} :
    (done r).1 = .error e ↔ r.1 = .error e := by
  unfold done
  rcases r.1 with e' | value <;> simp [Except.map]

theorem deleteUser_error {u : String} {e : SecurityError}
    (h : (s.deleteUser save u).1 = .error e) : (s.deleteUser save u).2 = s := by
  unfold deleteUser at h ⊢
  split_ifs at h ⊢
  · rfl
  · exact commit_error h

theorem deleteGroup_error {g : String} {e : SecurityError}
    (h : (s.deleteGroup save g).1 = .error e) : (s.deleteGroup save g).2 = s := by
  unfold deleteGroup at h ⊢
  split_ifs at h ⊢
  exact commit_error h

theorem setUserAdmin_error {u : String} {a : Bool} {e : SecurityError}
    (h : (s.setUserAdmin save u a).1 = .error e) : (s.setUserAdmin save u a).2 = s := by
  unfold setUserAdmin at h ⊢
  rcases huser : s.userOf u with e' | user
  · rfl
  · rw [huser] at h
    dsimp only at h ⊢
    split_ifs at h ⊢
    · rfl
    · exact commit_error h

theorem resetPasswordToTemp_error {u temp salt : String} {e : SecurityError}
    (h : (s.resetPasswordToTemp save pw u temp salt).1 = .error e) :
    (s.resetPasswordToTemp save pw u temp salt).2 = s := by
  unfold resetPasswordToTemp at h ⊢
  rcases huser : s.userOf u with e' | user
  · rfl
  · rw [huser] at h
    exact commit_error h

/-- **A refused call leaves the store.** -/
theorem perform_error {c : Call} {e : SecurityError} (h : (s.perform pw save c).1 = .error e) :
    (s.perform pw save c).2 = s := by
  cases c with
  | createUser u p salt a gs => exact commit_error (done_eq_error.1 h)
  | changePassword u current new salt => exact commit_error (done_eq_error.1 h)
  | resetPassword u new salt => exact commit_error (done_eq_error.1 h)
  | resetPasswordToTemp u temp salt => exact resetPasswordToTemp_error (done_eq_error.1 h)
  | deleteUser u => exact deleteUser_error h
  | setUserAdmin u a => exact setUserAdmin_error (done_eq_error.1 h)
  | setUserGroups u gs => exact commit_error (done_eq_error.1 h)
  | createGroup g => exact commit_error (done_eq_error.1 h)
  | deleteGroup g => exact deleteGroup_error h
  | setElementAccess c d e subject level => exact commit_error (done_eq_error.1 h)
  | setGrant subject scope kind level => exact commit_error (done_eq_error.1 h)

/-! ## An administrator stays -/

def HasAdmin (s : SecurityStore) : Prop :=
  ∃ (u : String) (user : User), s.users[u]? = some user ∧ user.isAdmin = true

theorem mem_admins {e : String × User} :
    e ∈ s.users.toList.filter (fun e => e.2.isAdmin) ↔
      s.users[e.1]? = some e.2 ∧ e.2.isAdmin = true := by
  rw [List.mem_filter, ← FinMap.mem_toList]

theorem hasAdmin_iff : s.HasAdmin ↔ 0 < s.adminCount := by
  unfold adminCount
  rw [List.length_pos_iff_exists_mem]
  constructor
  · rintro ⟨u, user, hu, ha⟩
    exact ⟨(u, user), mem_admins.2 ⟨hu, ha⟩⟩
  · rintro ⟨e, he⟩
    exact ⟨e.1, e.2, mem_admins.1 he⟩

/-- An administrator who is not the only one leaves another. -/
theorem exists_other_admin {u : String} {user : User} (hu : s.users[u]? = some user)
    (ha : user.isAdmin = true) (hone : s.adminCount ≠ 1) :
    ∃ (v : String) (other : User), v ≠ u ∧ s.users[v]? = some other ∧ other.isAdmin = true := by
  by_contra hnone
  push Not at hnone
  apply hone
  -- each administrator has the username `u`, and a username has one record
  have hall : ∀ e ∈ s.users.toList.filter (fun e => e.2.isAdmin), e = (u, user) := by
    rintro ⟨v, other⟩ he
    obtain ⟨hv, hother⟩ := mem_admins.1 he
    dsimp only at hv hother
    by_cases hvu : v = u
    · subst hvu
      rw [hu] at hv
      cases hv
      rfl
    · exact absurd hother (hnone v other hvu hv)
  have hmem : (u, user) ∈ s.users.toList.filter (fun e => e.2.isAdmin) := mem_admins.2 ⟨hu, ha⟩
  have hnodup : (s.users.toList.filter fun e => e.2.isAdmin).Nodup :=
    (FinMap.nodup_toList s.users).filter _
  unfold adminCount
  rw [List.eq_replicate_iff.2 ⟨rfl, hall⟩] at hnodup hmem ⊢
  have hle := List.nodup_replicate.1 hnodup
  have hpos := (List.mem_replicate.1 hmem).1
  rw [List.length_replicate]
  omega

theorem HasAdmin.of_users_eq {next : SecurityStore} (h : s.HasAdmin)
    (husers : next.users = s.users) : next.HasAdmin := by
  obtain ⟨u, user, hu, ha⟩ := h
  refine ⟨u, user, ?_, ha⟩
  rw [husers]
  exact hu

/-- A record whose flag is not taken away keeps an administrator. -/
theorem HasAdmin.setUser (h : s.HasAdmin) {u : String} {record : User}
    (hkeep : ∀ user, s.users[u]? = some user → user.isAdmin = true → s.adminCount = 1 →
      record.isAdmin = true) : (s.setUser u record).HasAdmin := by
  obtain ⟨v, user, hv, ha⟩ := h
  by_cases huv : u = v
  · subst huv
    by_cases hrecord : record.isAdmin = true
    · exact ⟨u, record, FinMap.get_insert_self _ _ _, hrecord⟩
    · have hone : s.adminCount ≠ 1 := fun hone => hrecord (hkeep user hv ha hone)
      obtain ⟨w, other, hwu, hw, hother⟩ := exists_other_admin hv ha hone
      exact ⟨w, other, (FinMap.get_insert_of_ne hwu.symm _).trans hw, hother⟩
  · exact ⟨v, user, (FinMap.get_insert_of_ne huv _).trans hv, ha⟩

theorem HasAdmin.forgetUser (h : s.HasAdmin) {u : String}
    (hnot : ¬ (s.isAdminUser u = true ∧ s.adminCount = 1)) : (s.forgetUser u).HasAdmin := by
  obtain ⟨v, user, hv, ha⟩ := h
  have hother : ∃ (w : String) (other : User),
      u ≠ w ∧ s.users[w]? = some other ∧ other.isAdmin = true := by
    by_cases huv : u = v
    · subst huv
      have hone : s.adminCount ≠ 1 := by
        intro hone
        refine hnot ⟨?_, hone⟩
        rw [isAdminUser, hv]
        exact ha
      obtain ⟨w, other, hwu, hw, hother⟩ := exists_other_admin hv ha hone
      exact ⟨w, other, hwu.symm, hw, hother⟩
    · exact ⟨v, user, huv, hv, ha⟩
  obtain ⟨w, other, huw, hw, hadmin⟩ := hother
  refine ⟨w, other, ?_, hadmin⟩
  rw [SecurityStore.forgetUser, FinMap.get_erase, if_neg huw]
  exact hw

theorem HasAdmin.forgetGroup (h : s.HasAdmin) (g : String) : (s.forgetGroup g).HasAdmin := by
  obtain ⟨v, user, hv, ha⟩ := h
  refine ⟨v, { user with groups := user.groups.erase g }, ?_, ha⟩
  unfold SecurityStore.forgetGroup
  rw [Std.ExtTreeMap.getElem?_map, hv, Option.map_some]

/-- **No lockout.** An accepted call leaves an administrator. -/
theorem Made.hasAdmin {c : Call} {b : Bool} {next : SecurityStore} (hmade : Made s c b next)
    (h : s.HasAdmin) : next.HasAdmin := by
  cases hmade with
  | createUser hash fresh =>
    refine (h.setUser fun user huser => ?_).of_users_eq rfl
    rw [fresh] at huser
    cases huser
  | changePassword hash found =>
    refine h.setUser fun user huser ha _ => ?_
    rw [found] at huser
    cases huser
    exact ha
  | resetPassword hash found =>
    refine h.setUser fun user huser ha _ => ?_
    rw [found] at huser
    cases huser
    exact ha
  | resetPasswordToTemp hash found =>
    refine h.setUser fun user huser ha _ => ?_
    rw [found] at huser
    cases huser
    exact ha
  | deleteUser notLast => exact (h.forgetUser notLast).of_users_eq rfl
  | noUser => exact h
  | @setUserAdmin u a user found notLast =>
    refine h.setUser fun user' huser ha hone => ?_
    rw [found] at huser
    cases huser
    by_contra hflag
    exact notLast ⟨Bool.not_eq_true a ▸ hflag, ha, hone⟩
  | setUserGroups found =>
    refine (h.setUser fun user huser ha _ => ?_).of_users_eq rfl
    rw [found] at huser
    cases huser
    exact ha
  | createGroup => exact h.of_users_eq rfl
  | deleteGroup => exact (h.forgetGroup _).of_users_eq rfl
  | noGroup => exact h
  | setElementAccess => exact h.of_users_eq rfl
  | setGrant => exact h.of_users_eq rfl

/-! ## Entries -/

/-- The level a list gives to a subject by name. -/
def entry (list : Option AccessList) : Subject → Option AccessLevel
  | .user u => list.bind fun l => l.users.get u
  | .group g => list.bind fun l => l.groups.get g

theorem entry_set (list : AccessList) (subject other : Subject) (level : AccessLevel) :
    entry (some (list.set subject level)) other =
      if subject = other then (if level = .none then none else some level)
      else entry (some list) other := by
  rcases subject with u | g <;> rcases other with u' | g' <;>
    simp [entry, AccessList.set, LevelMap.get_set]

@[simp] theorem entry_none (subject : Subject) : entry none subject = none := by
  rcases subject with u | g <;> rfl

theorem entry_of_isEmpty {list : AccessList} (h : list.isEmpty = true) (subject : Subject) :
    entry (some list) subject = none := by
  obtain ⟨husers, hgroups⟩ := AccessList.isEmpty_iff.1 h
  rcases subject with u | g
  · exact husers u
  · exact hgroups g

/-- A list in a map gives the same entries when it is dropped for being
empty. -/
theorem entry_drop (list : AccessList) (subject : Subject) :
    entry (if list.isEmpty then none else some list) subject = entry (some list) subject := by
  split_ifs with h
  · rw [entry_none, entry_of_isEmpty h]
  · rfl

/-- Stripping a subject takes its entry and no other. -/
theorem entry_strip (list : Option AccessList) (subject other : Subject) :
    entry (list.bind (strip subject)) other =
      if subject = other then none else entry list other := by
  rcases list with _ | list
  · simp
  · rw [Option.bind_some, strip, entry_drop, entry_set, if_pos rfl]

theorem get_setIn {κ : Type} [Ord κ] [Std.TransOrd κ] [Std.LawfulEqOrd κ] [DecidableEq κ]
    (m : FinMap κ AccessList) (key other : κ) (subject : Subject) (level : AccessLevel) :
    (setIn m key subject level)[other]? =
      if key = other then
        if (((m[key]?).getD AccessList.empty).set subject level).isEmpty then none
        else some (((m[key]?).getD AccessList.empty).set subject level)
      else m[other]? := by
  unfold setIn
  dsimp only
  split_ifs with he hkey hkey
  · rw [FinMap.get_erase, if_pos hkey]
  · rw [FinMap.get_erase, if_neg hkey]
  · rw [FinMap.get_insert, if_pos hkey]
  · rw [FinMap.get_insert, if_neg hkey]

/-- Setting a subject's level on one list sets that entry and no other. -/
theorem entry_setIn {κ : Type} [Ord κ] [Std.TransOrd κ] [Std.LawfulEqOrd κ] [DecidableEq κ]
    (m : FinMap κ AccessList) (key other : κ) (subject who : Subject) (level : AccessLevel) :
    entry (setIn m key subject level)[other]? who =
      if key = other ∧ subject = who then (if level = .none then none else some level)
      else entry m[other]? who := by
  rw [get_setIn]
  by_cases hkey : key = other
  · have hlist : entry (some ((m[key]?).getD AccessList.empty)) who = entry m[key]? who := by
      rcases m[key]? with _ | list
      · rcases who with u | g <;> simp [entry, AccessList.empty]
      · rfl
    rw [if_pos hkey, entry_drop, entry_set, hlist, hkey]
    simp
  · rw [if_neg hkey, if_neg fun h => hkey h.1]

/-- Where an entry of a grant comes from: an accepted call that left it set
it, or found it there. -/
theorem Made.grant_entry {c : Call} {b : Bool} {next : SecurityStore} (hmade : Made s c b next)
    {key : GrantKey} {subject : Subject} {level : AccessLevel}
    (h : entry next.grants[key]? subject = some level) :
    entry s.grants[key]? subject = some level ∨ c = .setGrant subject key.scope key.kind level := by
  cases hmade with
  | createUser | changePassword | resetPassword | resetPasswordToTemp | noUser | setUserAdmin
  | setUserGroups | createGroup | noGroup | setElementAccess => exact Or.inl h
  | deleteUser =>
    rw [get_grants_purge, entry_strip] at h
    split_ifs at h
    exact Or.inl h
  | deleteGroup =>
    rw [get_grants_purge, entry_strip] at h
    split_ifs at h
    exact Or.inl h
  | setGrant =>
    rw [entry_setIn] at h
    split_ifs at h with hset
    · obtain ⟨rfl, rfl⟩ := hset
      cases h
      exact Or.inr rfl
    · exact Or.inl h

/-- Where an entry of an element's list comes from. -/
theorem Made.element_entry {c : Call} {b : Bool} {next : SecurityStore} (hmade : Made s c b next)
    {key : ElementKey} {subject : Subject} {level : AccessLevel}
    (h : entry next.elementAcls[key]? subject = some level) :
    entry s.elementAcls[key]? subject = some level ∨
      c = .setElementAccess key.cube key.dimension key.element subject level := by
  cases hmade with
  | createUser | changePassword | resetPassword | resetPasswordToTemp | noUser | setUserAdmin
  | setUserGroups | createGroup | noGroup | setGrant => exact Or.inl h
  | deleteUser =>
    rw [get_elementAcls_purge, entry_strip] at h
    split_ifs at h
    exact Or.inl h
  | deleteGroup =>
    rw [get_elementAcls_purge, entry_strip] at h
    split_ifs at h
    exact Or.inl h
  | setElementAccess =>
    rw [entry_setIn] at h
    split_ifs at h with hset
    · obtain ⟨rfl, rfl⟩ := hset
      cases h
      exact Or.inr rfl
    · exact Or.inl h

/-- The subject that a call deletes when it reports a deletion. -/
def Call.deletes : Call → Option Subject
  | .deleteUser u => some (.user u)
  | .deleteGroup g => some (.group g)
  | _ => none

/-- **A deletion takes every entry of its subject.** -/
theorem Made.entry_deleted {c : Call} {next : SecurityStore} (hmade : Made s c true next)
    {subject : Subject} (hc : c.deletes = some subject) :
    (∀ key : GrantKey, entry next.grants[key]? subject = none) ∧
      ∀ key : ElementKey, entry next.elementAcls[key]? subject = none := by
  cases hmade with
  | createUser | changePassword | resetPassword | resetPasswordToTemp | setUserAdmin
  | setUserGroups | createGroup | setElementAccess | setGrant => cases hc
  | deleteUser =>
    cases hc
    refine ⟨fun key => ?_, fun key => ?_⟩
    · rw [get_grants_purge, entry_strip, if_pos rfl]
    · rw [get_elementAcls_purge, entry_strip, if_pos rfl]
  | deleteGroup =>
    cases hc
    refine ⟨fun key => ?_, fun key => ?_⟩
    · rw [get_grants_purge, entry_strip, if_pos rfl]
    · rw [get_elementAcls_purge, entry_strip, if_pos rfl]

end SecurityStore

end Epiphany
