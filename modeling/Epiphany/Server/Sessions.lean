import Epiphany.Server.Requests
/-!
# Sessions — tokens, and the principal they keep

A login keeps the principal as it is at that moment. The gates ask the store
again by name, but the handlers of `Requests` look at the admin flag that was
kept. A session is closed when its user is deleted or is given a password,
and not when the flag changes: up to that, a request is answered as for a
session opened just before it (`sameAsFresh_of_run`).
-/

namespace Epiphany

/-! ## The session store -/

structure Session where
  principal : Principal
  expiresAt : Nat
  lastSeen : Nat

def u64Max : Nat := 18446744073709551615

structure SessionStore where
  sessions : FinMap String Session
  ttlMillis : Nat
  idleMillis : Option Nat

namespace SessionStore

variable (s : SessionStore)

/-- Keep a principal under a new token. -/
def create (token : String) (principal : Principal) (now : Nat) : SessionStore :=
  { s with sessions := s.sessions.insert token ⟨principal, min u64Max (now + s.ttlMillis), now⟩ }

def expired (session : Session) (now : Nat) : Bool :=
  session.expiresAt ≤ now || s.idleMillis.any fun idle => idle < now - session.lastSeen

/-- Whether a token is still live. Nothing is recorded and nothing dropped. -/
def isValid (token : String) (now : Nat) : Bool :=
  s.sessions[token]?.any fun session =>
    now < session.expiresAt && s.idleMillis.all fun idle => now - session.lastSeen ≤ idle

/-- The principal of a live token; a dead one is dropped. -/
def lookup (token : String) (now : Nat) : Option Principal × SessionStore :=
  match s.sessions[token]? with
  | none => (none, s)
  | some session =>
    if s.expired session now then (none, { s with sessions := s.sessions.erase token })
    else
      (some session.principal,
        { s with sessions := s.sessions.insert token { session with lastSeen := now } })

def revoke (token : String) : SessionStore := { s with sessions := s.sessions.erase token }

def revokeUser (username : String) : SessionStore :=
  { s with sessions := s.sessions.filter fun _ session => session.principal.username ≠ username }

def revokeUserExcept (username keep : String) : SessionStore :=
  { s with
    sessions := s.sessions.filter fun token session =>
      session.principal.username ≠ username || token = keep }

end SessionStore

/-! ## The server -/

structure Server where
  content : Content
  sessions : SessionStore

/-- The changes of the security store that administrators request, with the
outcomes of their saves. -/
inductive AdminChange where
  | createUser (save : Except SecurityError Unit) (username password salt : String)
    (isAdmin : Bool) (groups : List String)
  | patchUser (saveAdmin saveGroups savePassword : Except SecurityError Unit) (username : String)
    (isAdmin : Option Bool) (groups : Option (List String)) (password : Option (String × String))
  | resetUserPassword (save : Except SecurityError Unit) (username temp salt : String)
  | deleteUser (save : Except SecurityError Unit) (username : String)
  | createGroup (save : Except SecurityError Unit) (name : String)
  | deleteGroup (save : Except SecurityError Unit) (name : String)
  | setElementAccess (save : Except SecurityError Unit) (cube dim element : String)
    (subject : Subject) (level : AccessLevel)
  | setGrant (save : Except SecurityError Unit) (subject : Subject) (scope : Scope)
    (kind : ObjectKind) (level : AccessLevel)

/-- What happens to a server. Cubes and automation may change in any way
between requests. -/
inductive ServerStep where
  | login (username password token : String) (now : Nat) (locked : Bool)
  | logout (token : String) (now : Nat)
  | changePassword (save : Except SecurityError Unit) (token : String) (now : Nat)
    (current new salt : String)
  | admin (token : String) (now : Nat) (change : AdminChange)
  | request (token : String) (now : Nat) (request : Request)
  | content (env : ViewEnv) (automation : Automation ConnectionSpec)

namespace SecurityStore

/-- Go on with the store if a change was accepted. -/
def andThen (r : Except SecurityError Unit × SecurityStore)
    (next : SecurityStore → Except SecurityError Unit × SecurityStore) :
    Except SecurityError Unit × SecurityStore :=
  match r.1 with
  | .ok () => next r.2
  | .error e => (.error e, r.2)

/-- A change of a user's flag, groups and password, in this order, up to the
first that is refused. -/
def patchUser (s : SecurityStore) (pw : Passwords)
    (saveAdmin saveGroups savePassword : Except SecurityError Unit) (username : String)
    (isAdmin : Option Bool) (groups : Option (List String)) (password : Option (String × String)) :
    Except SecurityError Unit × SecurityStore :=
  andThen
    (match isAdmin with
      | some flag => s.setUserAdmin saveAdmin username flag
      | none => (.ok (), s))
    fun s =>
      andThen
        (match groups with
          | some groups => s.setUserGroups saveGroups username groups
          | none => (.ok (), s))
        fun s =>
          match password with
          | some (new, salt) => s.resetPassword savePassword pw username new salt
          | none => (.ok (), s)

end SecurityStore

/-- The longest password or name that is looked at. -/
def maxCredentialLen : Nat := 256

namespace Server

variable (st : Server) (pw : Passwords)

def setSecurity (security : SecurityStore) : Server :=
  { st with content := { st.content with security } }

/-- The checks of a token: a live session, and no pending change of the
password unless the request is allowed before it. -/
def authenticate (token : String) (now : Nat) (allowed : Bool) :
    Except ApiError Principal × Server :=
  match st.sessions.lookup token now with
  | (none, sessions) => (.error (.unauthorized "invalid or expired session"), { st with sessions })
  | (some p, sessions) =>
    if !allowed && st.content.security.mustChangePassword p.username then
      (.error (.forbidden "password change required"), { st with sessions })
    else (.ok p, { st with sessions })

/-- Keep the principal of a user under a new token. -/
def openSession (username token : String) (now : Nat) : Server :=
  match st.content.security.principal username with
  | some p => { st with sessions := st.sessions.create token p now }
  | none => st

def login (username password token : String) (now : Nat) (locked : Bool) : Server :=
  if maxCredentialLen < username.utf8ByteSize || maxCredentialLen < password.utf8ByteSize ||
      locked then st
  else
    match st.content.security.users[username]? with
    | some user => if pw.verify password user.passwordHash then st.openSession username token now else st
    -- an unknown user is verified against a hash that nothing matches
    | none => st

def logout (token : String) (now : Nat) : Server :=
  match st.authenticate token now true with
  | (.ok _, st) => { st with sessions := st.sessions.revoke token }
  | (.error _, st) => st

def changePassword (save : Except SecurityError Unit) (token : String) (now : Nat)
    (current new salt : String) : Server :=
  match st.authenticate token now true with
  | (.error _, st) => st
  | (.ok p, st) =>
    match st.content.security.changePassword save pw p.username current new salt with
    | (.ok (), security) =>
      { st.setSecurity security with sessions := st.sessions.revokeUserExcept p.username token }
    | (.error _, security) => st.setSecurity security

/-- A change of the security store, and the sessions it closes. -/
def applyChange : AdminChange → Server
  | .createUser save username password salt isAdmin groups =>
    st.setSecurity (st.content.security.createUserWithGroups save pw username password salt isAdmin
      groups).2
  | .patchUser saveAdmin saveGroups savePassword username isAdmin groups password =>
    match st.content.security.patchUser pw saveAdmin saveGroups savePassword username isAdmin groups
      password with
    | (.ok (), security) =>
      if password.isSome then
        { st.setSecurity security with sessions := st.sessions.revokeUser username }
      else st.setSecurity security
    | (.error _, security) => st.setSecurity security
  | .resetUserPassword save username temp salt =>
    match st.content.security.resetPasswordToTemp save pw username temp salt with
    | (.ok _, security) =>
      { st.setSecurity security with sessions := st.sessions.revokeUser username }
    | (.error _, security) => st.setSecurity security
  | .deleteUser save username =>
    match st.content.security.deleteUser save username with
    | (.ok true, security) =>
      { st.setSecurity security with sessions := st.sessions.revokeUser username }
    | (_, security) => st.setSecurity security
  | .createGroup save name => st.setSecurity (st.content.security.createGroup save name).2
  | .deleteGroup save name => st.setSecurity (st.content.security.deleteGroup save name).2
  | .setElementAccess save cube dim element subject level =>
    st.setSecurity (st.content.security.setElementAccess save cube dim element subject level).2
  | .setGrant save subject scope kind level =>
    st.setSecurity (st.content.security.setGrant save subject scope kind level).2

/-- An administrator's change; the caller's rights are asked of the store. -/
def admin (token : String) (now : Nat) (change : AdminChange) : Server :=
  match st.authenticate token now false with
  | (.error _, st) => st
  | (.ok p, st) =>
    match st.content.security.requireAdmin p.username with
    | .ok () => st.applyChange pw change
    | .error _ => st

/-- The answer to a request. -/
def request (token : String) (now : Nat) (request : Request) : Except ApiError Answer × Server :=
  match st.authenticate token now request.mustChangeAllowed with
  | (.error e, st) => (.error e, st)
  | (.ok p, st) =>
    let r := st.content.respond p request
    (r.1, { st with content := { st.content with cache := r.2 } })

def step : ServerStep → Server
  | .login username password token now locked => st.login pw username password token now locked
  | .logout token now => st.logout token now
  | .changePassword save token now current new salt =>
    st.changePassword pw save token now current new salt
  | .admin token now change => st.admin pw token now change
  | .request token now request => (st.request token now request).2
  | .content env automation =>
    { st with content := { st.content with env, automation } }

def stepAll (steps : List ServerStep) : Server := steps.foldl (fun st s => st.step pw s) st

/-! ## Rights that are current -/

/-- The admin flag of a user in the store. -/
def flagOf (username : String) : Option Bool :=
  (st.content.security.users[username]?).map User.isAdmin

/-- Every open session holds its user's current flag. -/
def Current : Prop :=
  ∀ (token : String) (s : Session), st.sessions.sessions[token]? = some s →
    st.flagOf s.principal.username = some s.principal.isAdmin

/-- No user with an open session has another flag than before. -/
def keepsFlags (after : Server) : Bool :=
  after.sessions.sessions.toList.all fun e =>
    after.flagOf e.2.principal.username = st.flagOf e.2.principal.username

/-- The groups that the session of a token holds are those of its user. -/
def groupsCurrent (token : String) : Bool :=
  (st.sessions.sessions[token]?).all fun s =>
    (st.content.security.principal s.principal.username).map Principal.groups =
      some s.principal.groups

/-- A step that changes nobody's flag behind an open session, and shows no
groups but current ones. -/
def steady : ServerStep → Bool
  | .admin token now change => st.keepsFlags (st.admin pw token now change)
  | .request token _ request => !request.showsGroups || st.groupsCurrent token
  | _ => true

/-- A run of steady steps. -/
def SteadyRun : Server → List ServerStep → Prop
  | _, [] => True
  | st, step :: steps => st.steady pw step = true ∧ SteadyRun (st.step pw step) steps

/-- A request with a live token is answered as for a session of its user
that is opened at that moment. -/
def SameAsFresh (token : String) (now : Nat) (request : Request) : Prop :=
  ∀ s : Session, st.sessions.sessions[token]? = some s → st.sessions.expired s now = false →
    ∃ p, st.content.security.principal s.principal.username = some p ∧
      ∀ fresh : String, st.sessions.sessions[fresh]? = none →
        ((st.openSession s.principal.username fresh now).sessions.lookup fresh now).1 = some p →
        (st.request token now request).1 =
          ((st.openSession s.principal.username fresh now).request fresh now request).1

end Server

namespace SessionStore

/-- Every session of a store is one of another's, with the same principal. -/
def Sub (a b : SessionStore) : Prop :=
  ∀ (token : String) s, a.sessions[token]? = some s →
    ∃ s', b.sessions[token]? = some s' ∧ s'.principal = s.principal

variable {a b c : SessionStore}

theorem Sub.refl (a : SessionStore) : a.Sub a := fun _ s hs => ⟨s, hs, rfl⟩

theorem Sub.trans (hab : a.Sub b) (hbc : b.Sub c) : a.Sub c := by
  intro token s hs
  obtain ⟨s', hs', hp⟩ := hab token s hs
  obtain ⟨s'', hs'', hp'⟩ := hbc token s' hs'
  exact ⟨s'', hs'', hp'.trans hp⟩

theorem sub_revoke (token : String) : (a.revoke token).Sub a := by
  intro token' s hs
  rw [revoke, FinMap.get_erase] at hs
  split_ifs at hs
  exact ⟨s, hs, rfl⟩

theorem sub_filter (keep : String → Session → Bool) :
    ({ a with sessions := a.sessions.filter keep } : SessionStore).Sub a := by
  intro token s hs
  rw [Std.ExtTreeMap.getElem?_filter'] at hs
  exact ⟨s, (Option.filter_eq_some_iff.1 hs).1, rfl⟩

theorem sub_lookup (token : String) (now : Nat) : (a.lookup token now).2.Sub a := by
  unfold lookup
  rcases hget : a.sessions[token]? with _ | session
  · exact Sub.refl a
  · dsimp only
    split_ifs
    · exact sub_revoke token
    · intro token' s hs
      rw [FinMap.get_insert] at hs
      split_ifs at hs with heq
      · subst heq
        cases hs
        exact ⟨session, hget, rfl⟩
      · exact ⟨s, hs, rfl⟩

/-- A live token resolves to the principal its session holds. -/
theorem fst_lookup {token : String} {now : Nat} {s : Session} (hs : a.sessions[token]? = some s)
    (hlive : a.expired s now = false) : (a.lookup token now).1 = some s.principal := by
  unfold lookup
  rw [hs]
  dsimp only
  rw [hlive]
  rfl

end SessionStore

namespace Server

variable {st st' : Server} {pw : Passwords}

/-- Closing sessions, and keeping the flags of those that stay, keeps the
sessions current. -/
theorem Current.of_sub (h : st.Current) (hsub : st'.sessions.Sub st.sessions)
    (hflag : ∀ (token : String) (s : Session), st'.sessions.sessions[token]? = some s →
      st'.flagOf s.principal.username = st.flagOf s.principal.username) : st'.Current := by
  intro token s hs
  obtain ⟨s', hs', hp⟩ := hsub token s hs
  rw [hflag token s hs, ← hp]
  exact h token s' hs'

theorem Current.of_sub_of_eq (h : st.Current) (hsub : st'.sessions.Sub st.sessions)
    (hsec : st'.content.security = st.content.security) : st'.Current :=
  h.of_sub hsub fun _ s _ => by rw [flagOf, flagOf, hsec]

/-! ### Steps -/

theorem authenticate_frame (st : Server) (token : String) (now : Nat) (allowed : Bool) :
    (st.authenticate token now allowed).2.content = st.content ∧
      (st.authenticate token now allowed).2.sessions.Sub st.sessions := by
  have hsub := SessionStore.sub_lookup (a := st.sessions) token now
  unfold authenticate
  rcases hlookup : st.sessions.lookup token now with ⟨_ | p, sessions⟩
  · rw [hlookup] at hsub
    exact ⟨rfl, hsub⟩
  · rw [hlookup] at hsub
    dsimp only
    split_ifs
    · exact ⟨rfl, hsub⟩
    · exact ⟨rfl, hsub⟩

theorem Current.openSession (h : st.Current) (username token : String) (now : Nat) :
    (st.openSession username token now).Current := by
  unfold Server.openSession
  rcases hp : st.content.security.principal username with _ | p
  · exact h
  · obtain ⟨u, hu, rfl⟩ := Option.map_eq_some_iff.1 hp
    dsimp only
    intro token' s hs
    rw [SessionStore.create, FinMap.get_insert] at hs
    split_ifs at hs
    · cases hs
      rw [flagOf, hu]
      rfl
    · exact h token' s hs

theorem Current.login (h : st.Current) (username password token : String) (now : Nat)
    (locked : Bool) : (st.login pw username password token now locked).Current := by
  unfold Server.login
  split_ifs
  · exact h
  · split
    · split_ifs
      · exact h.openSession username token now
      · exact h
    · exact h

theorem Current.logout (h : st.Current) (token : String) (now : Nat) :
    (st.logout token now).Current := by
  obtain ⟨hcontent, hsub⟩ := authenticate_frame st token now true
  unfold Server.logout
  rcases hauth : st.authenticate token now true with ⟨e | p, st'⟩
  · rw [hauth] at hcontent hsub
    exact h.of_sub_of_eq hsub (congrArg Content.security hcontent)
  · rw [hauth] at hcontent hsub
    exact h.of_sub_of_eq ((SessionStore.sub_revoke token).trans hsub)
      (congrArg Content.security hcontent)

/-- A change of a password leaves the flags alone. -/
theorem flag_changePassword (s : SecurityStore) (pw : Passwords)
    (save : Except SecurityError Unit) (username current new salt name : String) :
    ((s.changePassword save pw username current new salt).2.users[name]?).map User.isAdmin =
      (s.users[name]?).map User.isAdmin := by
  unfold SecurityStore.changePassword
  rcases s.commit_cases save _ with heq | ⟨value, hmutate⟩
  · rw [heq]
  · obtain ⟨user, huser, hmutate⟩ := bind_eq_ok.1 hmutate
    split_ifs at hmutate
    obtain ⟨-, -, hmutate⟩ := bind_eq_ok.1 hmutate
    obtain ⟨hash, -, hmutate⟩ := bind_eq_ok.1 hmutate
    obtain ⟨-, hnext⟩ := Prod.mk.inj (Except.ok.inj hmutate)
    rw [← hnext, SecurityStore.setUser, FinMap.get_insert]
    split_ifs with hname
    · subst hname
      unfold SecurityStore.userOf at huser
      split at huser
      · cases huser
        simp [*]
      · cases huser
    · rfl

theorem Current.changePassword (h : st.Current) (save : Except SecurityError Unit) (token : String)
    (now : Nat) (current new salt : String) :
    (st.changePassword pw save token now current new salt).Current := by
  obtain ⟨hcontent, hsub⟩ := authenticate_frame st token now true
  unfold Server.changePassword
  rcases hauth : st.authenticate token now true with ⟨e | p, st'⟩
  · rw [hauth] at hcontent hsub
    exact h.of_sub_of_eq hsub (congrArg Content.security hcontent)
  · rw [hauth] at hcontent hsub
    have hst' : st'.Current := h.of_sub_of_eq hsub (congrArg Content.security hcontent)
    have hflag := flag_changePassword st'.content.security pw save p.username current new salt
    dsimp only
    rcases hchange : st'.content.security.changePassword save pw p.username current new salt with
      ⟨e | ⟨⟩, security⟩
    · rw [hchange] at hflag
      exact hst'.of_sub (SessionStore.Sub.refl _) fun _ s _ => hflag s.principal.username
    · rw [hchange] at hflag
      exact hst'.of_sub (SessionStore.sub_filter _) fun _ s _ => hflag s.principal.username

/-- The sessions after a change of an administrator are among those before
it. -/
theorem sub_applyChange (st : Server) (pw : Passwords) (change : AdminChange) :
    (st.applyChange pw change).sessions.Sub st.sessions := by
  cases change with
  | patchUser saveAdmin saveGroups savePassword username isAdmin groups password =>
    simp only [applyChange]
    split
    · split_ifs
      · exact SessionStore.sub_filter _
      · exact SessionStore.Sub.refl _
    · exact SessionStore.Sub.refl _
  | resetUserPassword save username temp salt =>
    simp only [applyChange]
    split
    · exact SessionStore.sub_filter _
    · exact SessionStore.Sub.refl _
  | deleteUser save username =>
    simp only [applyChange]
    split
    · exact SessionStore.sub_filter _
    · exact SessionStore.Sub.refl _
  | _ => exact SessionStore.Sub.refl _

theorem sub_admin (st : Server) (pw : Passwords) (token : String) (now : Nat)
    (change : AdminChange) : (st.admin pw token now change).sessions.Sub st.sessions := by
  obtain ⟨-, hsub⟩ := authenticate_frame st token now false
  unfold admin
  rcases hauth : st.authenticate token now false with ⟨e | p, st'⟩
  · rw [hauth] at hsub
    exact hsub
  · rw [hauth] at hsub
    dsimp only
    split
    · exact (sub_applyChange st' pw change).trans hsub
    · exact hsub

theorem Current.admin (h : st.Current) {token : String} {now : Nat} {change : AdminChange}
    (hkeeps : st.keepsFlags (st.admin pw token now change) = true) :
    (st.admin pw token now change).Current := by
  refine h.of_sub (sub_admin st pw token now change) fun token s hs => ?_
  have hall := List.all_eq_true.1 hkeeps (token, s) (FinMap.mem_toList.2 hs)
  exact of_decide_eq_true hall

theorem Current.request (h : st.Current) (token : String) (now : Nat) (request : Request) :
    (st.request token now request).2.Current := by
  obtain ⟨hcontent, hsub⟩ := authenticate_frame st token now request.mustChangeAllowed
  unfold Server.request
  rcases hauth : st.authenticate token now request.mustChangeAllowed with ⟨e | p, st'⟩
  · rw [hauth] at hcontent hsub
    exact h.of_sub_of_eq hsub (congrArg Content.security hcontent)
  · rw [hauth] at hcontent hsub
    have hsec : st'.content.security = st.content.security := congrArg Content.security hcontent
    exact h.of_sub_of_eq hsub hsec

/-- **A steady step keeps the sessions current.** -/
theorem Current.step (h : st.Current) {step : ServerStep} (hsteady : st.steady pw step = true) :
    (st.step pw step).Current := by
  cases step with
  | login username password token now locked => exact h.login username password token now locked
  | logout token now => exact h.logout token now
  | changePassword save token now current new salt =>
    exact h.changePassword save token now current new salt
  | admin token now change => exact h.admin hsteady
  | request token now request => exact h.request token now request
  | content env automation => exact h

theorem Current.stepAll (h : st.Current) {steps : List ServerStep} (hrun : SteadyRun pw st steps) :
    (st.stepAll pw steps).Current := by
  induction steps generalizing st with
  | nil => exact h
  | cons step steps ih => exact ih (h.step hrun.1) hrun.2

/-! ### Requests -/

/-- Where the sessions are current, every request is answered as for a new
session. -/
theorem Current.sameAsFresh (h : st.Current) {token : String} {now : Nat} {request : Request}
    (hsteady : st.steady pw (.request token now request) = true) :
    st.SameAsFresh token now request := by
  intro s hs hlive
  have hflag := h token s hs
  obtain ⟨p, hp, hname, hadmin⟩ : ∃ p, st.content.security.principal s.principal.username = some p ∧
      p.username = s.principal.username ∧ p.isAdmin = s.principal.isAdmin := by
    obtain ⟨u, hu, hadmin⟩ := Option.map_eq_some_iff.1 hflag
    refine ⟨⟨s.principal.username, u.isAdmin, u.groups.toList.map Prod.fst⟩, ?_, rfl, hadmin⟩
    rw [SecurityStore.principal, hu]
    rfl
  refine ⟨p, hp, fun fresh _ hfresh => ?_⟩
  have hopen : (st.openSession s.principal.username fresh now).content = st.content := by
    unfold Server.openSession
    rw [hp]
  have hold : (st.sessions.lookup token now).1 = some s.principal := SessionStore.fst_lookup hs hlive
  have hrespond : st.content.respond s.principal request =
      st.content.respond p request := by
    refine st.content.respond_congr hname.symm hadmin.symm fun hshows => ?_
    have hgroups : st.groupsCurrent token = true := by
      simpa [steady, hshows] using hsteady
    rw [groupsCurrent, hs, Option.all_some, decide_eq_true_eq, hp] at hgroups
    exact (Option.some.inj hgroups).symm
  have answer_of_lookup : ∀ {st' : Server} {token : String} {p : Principal},
      st'.content = st.content → (st'.sessions.lookup token now).1 = some p →
      p.username = s.principal.username →
      (st'.request token now request).1 =
        if !request.mustChangeAllowed &&
            st.content.security.mustChangePassword s.principal.username then
          .error (.forbidden "password change required")
        else (st.content.respond p request).1 := by
    intro st' token p hcontent hlookup hname
    unfold Server.request authenticate
    rcases hl : st'.sessions.lookup token now with ⟨_ | q, sessions⟩
    · rw [hl] at hlookup
      cases hlookup
    · rw [hl] at hlookup
      cases hlookup
      dsimp only
      rw [hcontent, hname]
      split_ifs
      · rfl
      · rfl
  rw [answer_of_lookup rfl hold rfl, answer_of_lookup hopen hfresh hname, hrespond]

/-- **Up to a change of the admin flag behind an open session, rights are
read live**: after any run of steady steps from a server without sessions,
every request with a live token is answered as for a session of its user
opened at that moment. -/
theorem sameAsFresh_of_run {pw : Passwords} {st : Server} (hstart : st.sessions.sessions = ∅)
    {steps : List ServerStep} (hrun : SteadyRun pw st steps) {token : String} {now : Nat}
    {request : Request}
    (hsteady : (st.stepAll pw steps).steady pw (.request token now request) = true) :
    (st.stepAll pw steps).SameAsFresh token now request := by
  have hcurrent : st.Current := by
    intro token s hs
    rw [hstart, FinMap.get_empty] at hs
    cases hs
  exact (hcurrent.stepAll hrun).sameAsFresh hsteady

/-! ### A demotion -/

/-- Two administrators, one connection, and nobody signed in. -/
def office : Server where
  content :=
    { security :=
        { SecurityStore.empty with
          users := FinMap.collect [("root", ⟨true, "r", false, ∅⟩), ("ann", ⟨true, "a", false, ∅⟩)]
          grants := FinMap.collect
            [(⟨.global, .connection⟩, AccessList.empty.set (.user "ann") .read)] }
      env :=
        { snapshots := ∅
          resolverWith := fun _ _ _ =>
            { value := fun _ => .error .accessDenied, stringValue := fun _ => .error .accessDenied }
          evaluator := fun _ _ => .error .dynamicUnsupported
          par := ⟨1, 0⟩
          crossCubeDepVersions := fun _ => [] }
      cache := .withBudget 256 67108864
      automation :=
        { Automation.empty with
          connections := FinMap.collect
            [("feed", ⟨"feed", .command ⟨"/opt/feed", [], .csv, none, 30000, none⟩⟩)] } }
  sessions := ⟨∅, 3600000, none⟩

/-- Both sign in; then one of them gives the other a grant. -/
theorem sameAsFresh_office :
    ((office.stepAll plainPasswords
      [.login "root" "r" "t1" 0 false, .login "ann" "a" "t2" 0 false,
        .admin "t1" 1 (.setGrant (.ok ()) (.user "ann") .global .flow .write)]).sessions.lookup
          "t2" 2).1.isSome = true ∧
    (office.stepAll plainPasswords
      [.login "root" "r" "t1" 0 false, .login "ann" "a" "t2" 0 false,
        .admin "t1" 1 (.setGrant (.ok ()) (.user "ann") .global .flow .write)]).SameAsFresh
          "t2" 2 .listConnections := by
  refine ⟨by decide +kernel, sameAsFresh_of_run rfl ?_ rfl⟩
  exact ⟨rfl, rfl, by decide +kernel, trivial⟩

/-- Both sign in; then one of them takes the other's flag. -/
def demoted : Server :=
  office.stepAll plainPasswords
    [.login "root" "r" "t1" 0 false, .login "ann" "a" "t2" 0 false,
      .admin "t1" 1 (.patchUser (.ok ()) (.ok ()) (.ok ()) "ann" (some false) none none)]

/-- Whether an answer shows the program of a connection. -/
def showsProgram : Except ApiError Answer → Bool
  | .ok (.connections list) => list.any fun c => c.program ≠ ""
  | _ => false

/-- The demoted user is still shown what administrators see. -/
theorem not_sameAsFresh_demoted : ¬ demoted.SameAsFresh "t2" 2 .listConnections := by
  intro h
  obtain ⟨s, hs⟩ := Option.isSome_iff_exists.1
    (show (demoted.sessions.sessions["t2"]?).isSome = true by decide +kernel)
  have hlive : (demoted.sessions.sessions["t2"]?).any
      (fun s => !demoted.sessions.expired s 2 && s.principal.username = "ann") = true := by
    decide +kernel
  rw [hs, Option.any_some, Bool.and_eq_true, Bool.not_eq_true', decide_eq_true_eq] at hlive
  obtain ⟨p, hp, hfresh⟩ := h s hs hlive.1
  rw [hlive.2] at hp hfresh
  have hopen : ((demoted.openSession "ann" "t3" 2).sessions.lookup "t3" 2).1 =
      demoted.content.security.principal "ann" := by
    decide +kernel
  have hshown : showsProgram (demoted.request "t2" 2 .listConnections).1 = true := by
    decide +kernel
  have hhidden : showsProgram
      ((demoted.openSession "ann" "t3" 2).request "t3" 2 .listConnections).1 = false := by
    decide +kernel
  rw [hfresh "t3" (by decide +kernel) (hopen.trans hp), hhidden] at hshown
  cases hshown

end Server

end Epiphany
