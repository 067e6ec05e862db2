import Epiphany.Security.Artifact
import Epiphany.Security.Changes
/-!
# Security requests — the store with its artifact

A request of the admin surface makes one change or, for a patch of a user,
up to three: the admin flag, the groups and the password, each committed and
saved by itself. A change that fails leaves the store and the artifact; a
patch that fails at its second or third change leaves the earlier ones.
-/

namespace Epiphany

open SecurityStore (Call HasAdmin Made entry)

/-! ## The store and the artifact -/

/-- The store in memory and the content of its artifact. -/
structure SecurityState where
  store : SecurityStore
  artifact : SecurityDoc

/-- A store with the artifact that was saved of it. -/
def SecurityStore.saved (s : SecurityStore) : SecurityState := ⟨s, s.toModelText⟩

/-- The fields of a user that a patch carries. -/
structure PatchUserBody where
  isAdmin : Option Bool
  groups : Option (List String)
  password : Option String

/-- How the saves of a patch come out, one a field. -/
structure Saves where
  isAdmin : Except SecurityError Unit
  groups : Except SecurityError Unit
  password : Except SecurityError Unit

/-- A request: one change of the store, or a patch of a user. -/
inductive SecurityRequest where
  | change (save : Except SecurityError Unit) (call : Call)
  | patchUser (username : String) (body : PatchUserBody) (salt : String) (saves : Saves)

/-- The changes a request makes, in their order. -/
def SecurityRequest.changes : SecurityRequest → List (Except SecurityError Unit × Call)
  | .change save call => [(save, call)]
  | .patchUser username body salt saves =>
    (body.isAdmin.toList.map fun a => (saves.isAdmin, .setUserAdmin username a)) ++
      ((body.groups.toList.map fun gs => (saves.groups, .setUserGroups username gs)) ++
        body.password.toList.map fun p => (saves.password, .resetPassword username p salt))

namespace SecurityState

variable (pw : Passwords)

/-- One change. A change that is made has been saved. -/
def change (s : SecurityState) (save : Except SecurityError Unit) (call : Call) :
    Except SecurityError Bool × SecurityState :=
  match s.store.perform pw save call with
  | (.error e, next) => (.error e, ⟨next, s.artifact⟩)
  | (.ok false, next) => (.ok false, ⟨next, s.artifact⟩)
  | (.ok true, next) => (.ok true, next.saved)

/-- Changes one after the other, up to the first that fails. -/
def changeAll (s : SecurityState) :
    List (Except SecurityError Unit × Call) → Except SecurityError Unit × SecurityState
  | [] => (.ok (), s)
  | (save, call) :: rest =>
    match s.change pw save call with
    | (.error e, next) => (.error e, next)
    | (.ok _, next) => next.changeAll rest

/-- A request: its outcome, and what it leaves. -/
def handle (s : SecurityState) (r : SecurityRequest) : Except SecurityError Unit × SecurityState :=
  s.changeAll pw r.changes

/-- The state after some requests. -/
def after (s : SecurityState) (requests : List SecurityRequest) : SecurityState :=
  requests.foldl (fun s r => (s.handle pw r).2) s

/-! ## What the requests are held to -/

/-- A request that fails leaves the store and the artifact. -/
def AllOrNothing (s : SecurityState) (r : SecurityRequest) : Prop :=
  (s.handle pw r).1.isOk = false → (s.handle pw r).2 = s

/-- A request that deletes a subject and reports so. -/
def Deletes (s : SecurityState) (r : SecurityRequest) (subject : Subject) : Prop :=
  ∃ save call, r = .change save call ∧ call.deletes = some subject ∧
    (s.change pw save call).1 = .ok true

/-- Some accepted request of a run sets the entry by a call. -/
def SetBy (s : SecurityState) (requests : List SecurityRequest) (call : Call) : Prop :=
  ∃ pre save, pre ++ [.change save call] <+: requests ∧
    ((s.after pw pre).handle pw (.change save call)).1 = .ok ()

/-- The entries of a subject, each set by one of the requests. -/
structure EntriesSet (s : SecurityState) (requests : List SecurityRequest) (subject : Subject) :
    Prop where
  grants : ∀ (key : GrantKey) (level : AccessLevel),
    entry (s.after pw requests).store.grants[key]? subject = some level →
      s.SetBy pw requests (.setGrant subject key.scope key.kind level)
  elements : ∀ (key : ElementKey) (level : AccessLevel),
    entry (s.after pw requests).store.elementAcls[key]? subject = some level →
      s.SetBy pw requests (.setElementAccess key.cube key.dimension key.element subject level)

/-- A run in which failed requests change nothing, an administrator is there
after each change of each request, and no entry outlives the deletion of its
subject. -/
structure Sound (s : SecurityState) (requests : List SecurityRequest) : Prop where
  atomic : ∀ pre r, pre ++ [r] <+: requests → (s.after pw pre).AllOrNothing pw r
  admin : ∀ pre r part, pre ++ [r] <+: requests → part <+: r.changes →
    ((s.after pw pre).changeAll pw part).2.store.HasAdmin
  notResurrected : ∀ pre r post subject, pre ++ r :: post <+: requests →
    (s.after pw pre).Deletes pw r subject →
    (s.after pw (pre ++ [r])).EntriesSet pw post subject

/-! ## What one change does -/

variable {pw} {s : SecurityState}

theorem change_ok {save : Except SecurityError Unit} {call : Call} {b : Bool}
    (h : (s.change pw save call).1 = .ok b) :
    Made s.store call b (s.change pw save call).2.store := by
  unfold change at h ⊢
  rcases hp : s.store.perform pw save call with ⟨e | made, next⟩
  · rw [hp] at h
    cases h
  · have hmade := SecurityStore.made_of_perform (congrArg Prod.fst hp)
    rw [hp] at h hmade
    rcases made with _ | _
    · cases h
      exact hmade
    · cases h
      exact hmade

theorem change_error {save : Except SecurityError Unit} {call : Call} {e : SecurityError}
    (h : (s.change pw save call).1 = .error e) : (s.change pw save call).2 = s := by
  unfold change at h ⊢
  rcases hp : s.store.perform pw save call with ⟨e' | made, next⟩
  · have hstore := SecurityStore.perform_error (congrArg Prod.fst hp)
    rw [hp] at hstore
    dsimp only at hstore ⊢
    rw [hstore]
  · rw [hp] at h
    rcases made with _ | _ <;> cases h

/-- The artifact stays the saved store. -/
theorem change_saved (hs : s = s.store.saved) (save : Except SecurityError Unit) (call : Call) :
    (s.change pw save call).2 = (s.change pw save call).2.store.saved := by
  rcases hres : (s.change pw save call).1 with e | made
  · rw [change_error hres]
    exact hs
  · have hmade := change_ok hres
    unfold change at hres hmade ⊢
    rcases hp : s.store.perform pw save call with ⟨e | made', next⟩
    · rw [hp] at hres
      cases hres
    · rw [hp] at hres hmade
      rcases made' with _ | _
      · cases hres
        dsimp only at hmade ⊢
        have hnext : next = s.store := by
          cases hmade <;> rfl
        rw [hnext]
        exact hs
      · rfl

/-- What every accepted change keeps, changes in a row keep. -/
theorem changeAll_invariant {I : SecurityStore → Prop}
    {changes : List (Except SecurityError Unit × Call)}
    (hmade : ∀ s c b next, c ∈ changes.map Prod.snd → I s → Made s c b next → I next)
    (hs : I s.store) : I (s.changeAll pw changes).2.store := by
  induction changes generalizing s with
  | nil => exact hs
  | cons c rest ih =>
    obtain ⟨save, call⟩ := c
    have hnext : I (s.change pw save call).2.store := by
      rcases hres : (s.change pw save call).1 with e | b
      · rw [change_error hres]
        exact hs
      · exact hmade _ _ _ _ List.mem_cons_self hs (change_ok hres)
    have hrest : ∀ s c b next, c ∈ rest.map Prod.snd → I s → Made s c b next → I next := by
      intro s c b next hc
      exact hmade s c b next (List.mem_cons_of_mem _ hc)
    unfold changeAll
    rcases hc : s.change pw save call with ⟨e | b, next⟩
    · rw [hc] at hnext
      exact hnext
    · rw [hc] at hnext
      exact ih hrest hnext

theorem changeAll_saved (changes : List (Except SecurityError Unit × Call))
    (hs : s = s.store.saved) :
    (s.changeAll pw changes).2 = (s.changeAll pw changes).2.store.saved := by
  induction changes generalizing s with
  | nil => exact hs
  | cons c rest ih =>
    obtain ⟨save, call⟩ := c
    have hnext : (s.change pw save call).2 = (s.change pw save call).2.store.saved :=
      change_saved hs save call
    unfold changeAll
    rcases hc : s.change pw save call with ⟨e | b, next⟩
    · rw [hc] at hnext
      exact hnext
    · rw [hc] at hnext
      exact ih hnext

theorem after_invariant {I : SecurityState → Prop} (hstep : ∀ s r, I s → I (s.handle pw r).2)
    (requests : List SecurityRequest) (hs : I s) : I (s.after pw requests) := by
  induction requests generalizing s with
  | nil => exact hs
  | cons r rest ih => exact ih (hstep s r hs)

theorem after_append (requests rest : List SecurityRequest) :
    s.after pw (requests ++ rest) = (s.after pw requests).after pw rest :=
  List.foldl_append

theorem hasAdmin_after (requests : List SecurityRequest) (hs : s.store.HasAdmin) :
    (s.after pw requests).store.HasAdmin :=
  after_invariant (I := fun s => s.store.HasAdmin)
    (fun _ _ h => changeAll_invariant (fun _ _ _ _ _ h hmade => hmade.hasAdmin h) h) requests hs

theorem saved_after (requests : List SecurityRequest) (hs : s = s.store.saved) :
    s.after pw requests = (s.after pw requests).store.saved :=
  after_invariant (I := fun s => s = s.store.saved) (fun _ r h => changeAll_saved r.changes h)
    requests hs

/-! ## Where an entry comes from -/

/-- The calls a patch makes. -/
def isPatch : Call → Bool
  | .setUserAdmin _ _ | .setUserGroups _ _ | .resetPassword _ _ _ => true
  | _ => false

theorem isPatch_of_mem {username salt : String} {body : PatchUserBody} {saves : Saves} {c : Call}
    (h : c ∈ (SecurityRequest.patchUser username body salt saves).changes.map Prod.snd) :
    isPatch c = true := by
  simp only [SecurityRequest.changes, List.map_append, List.map_map, List.mem_append, List.mem_map,
    Function.comp_apply] at h
  rcases h with ⟨a, -, rfl⟩ | ⟨gs, -, rfl⟩ | ⟨p, -, rfl⟩ <;> rfl

theorem changeAll_single (save : Except SecurityError Unit) (call : Call) :
    s.changeAll pw [(save, call)] =
      ((s.change pw save call).1.map fun _ => (), (s.change pw save call).2) := by
  unfold changeAll
  rcases s.change pw save call with ⟨e | b, next⟩ <;> rfl

/-- A reading of the store that one call alone can set. -/
structure Setter (read : SecurityStore → Option AccessLevel) (set : AccessLevel → Call) : Prop where
  made : ∀ s c b next level, Made s c b next → read next = some level →
    read s = some level ∨ c = set level
  notPatch : ∀ level, isPatch (set level) = false

theorem SetBy.mono {requests more : List SecurityRequest} {call : Call}
    (h : s.SetBy pw requests call) : s.SetBy pw (requests ++ more) call := by
  obtain ⟨pre, save, hpre, hok⟩ := h
  exact ⟨pre, save, hpre.trans (List.prefix_append _ _), hok⟩

/-- **Tracing.** What is read after a run and was not read before it has
been set by an accepted request of the run. -/
theorem Setter.setBy {read : SecurityStore → Option AccessLevel} {set : AccessLevel → Call}
    (hset : Setter read set) (hnone : read s.store = none) {level : AccessLevel}
    (requests : List SecurityRequest) (h : read (s.after pw requests).store = some level) :
    s.SetBy pw requests (set level) := by
  induction requests using List.reverseRecOn with
  | nil =>
    rw [after, List.foldl_nil, hnone] at h
    cases h
  | append_singleton pre r ih =>
    rw [after_append] at h
    by_cases hbefore : read (s.after pw pre).store = some level
    · exact (ih hbefore).mono
    · cases r with
      | change save call =>
        have hlast : (s.after pw pre).after pw [.change save call] =
            ((s.after pw pre).change pw save call).2 := by
          change ((s.after pw pre).changeAll pw [(save, call)]).2 = _
          rw [changeAll_single]
        rw [hlast] at h
        rcases hres : ((s.after pw pre).change pw save call).1 with e | b
        · rw [change_error hres] at h
          exact absurd h hbefore
        · obtain rfl : call = set level :=
            (hset.made _ _ _ _ _ (change_ok hres) h).resolve_left hbefore
          refine ⟨pre, save, List.prefix_rfl, ?_⟩
          change ((s.after pw pre).changeAll pw [(save, set level)]).1 = _
          rw [changeAll_single, hres]
          rfl
      | patchUser username body salt saves =>
        exfalso
        -- none of the calls of a patch sets the entry
        have hkeep : read (s.after pw pre).store = some level := by
          by_contra hnot
          refine changeAll_invariant (I := fun st => read st ≠ some level) ?_ hbefore h
          intro st c b next hc hst hmade hnext
          rcases hset.made _ _ _ _ _ hmade hnext with hold | rfl
          · exact hst hold
          · have hpatch := isPatch_of_mem hc
            rw [hset.notPatch] at hpatch
            cases hpatch
        exact hbefore hkeep

theorem setter_grant (key : GrantKey) (subject : Subject) :
    Setter (fun s => entry s.grants[key]? subject)
      (fun level => .setGrant subject key.scope key.kind level) :=
  ⟨fun _ _ _ _ _ hmade h => hmade.grant_entry h, fun _ => rfl⟩

theorem setter_element (key : ElementKey) (subject : Subject) :
    Setter (fun s => entry s.elementAcls[key]? subject)
      (fun level => .setElementAccess key.cube key.dimension key.element subject level) :=
  ⟨fun _ _ _ _ _ hmade h => hmade.element_entry h, fun _ => rfl⟩

/-- **No resurrection.** Once a deletion is reported, what is on a list
under the name was set after it. -/
theorem entriesSet_of_deletes {r : SecurityRequest} {subject : Subject}
    (h : s.Deletes pw r subject) (post : List SecurityRequest) :
    (s.after pw [r]).EntriesSet pw post subject := by
  obtain ⟨save, call, rfl, hdeletes, hok⟩ := h
  have hlast : s.after pw [.change save call] = (s.change pw save call).2 := by
    change (s.changeAll pw [(save, call)]).2 = _
    rw [changeAll_single]
  obtain ⟨hgrants, helements⟩ := (change_ok hok).entry_deleted hdeletes
  rw [hlast]
  exact ⟨fun key _ => (setter_grant key subject).setBy (hgrants key) post,
    fun key _ => (setter_element key subject).setBy (helements key) post⟩

end SecurityState

/-! ## When a patch changes nothing -/

namespace PatchUserBody

variable (body : PatchUserBody) (user : User)

/-- The record of a user with the flag of a patch. -/
def flagged : User := { user with isAdmin := body.isAdmin.getD user.isAdmin }

/-- The record with the flag and the groups of a patch. -/
def grouped : User :=
  { body.flagged user with groups := (body.groups.map setOf).getD user.groups }

/-- The store refuses the flag, or it cannot be saved. -/
def RefusesAdmin (s : SecurityStore) (save : Except SecurityError Unit) : Prop :=
  ∃ a, body.isAdmin = some a ∧
    ((a = false ∧ user.isAdmin = true ∧ s.adminCount = 1) ∨ save.isOk = false)

def RefusesGroups (save : Except SecurityError Unit) : Prop :=
  body.groups.isSome = true ∧ save.isOk = false

/-- The password is too weak, cannot be hashed, or cannot be saved. -/
def RefusesPassword (pw : Passwords) (salt : String) (save : Except SecurityError Unit) : Prop :=
  ∃ p, body.password = some p ∧
    ((pw.policy p).isSome = true ∨ (pw.hash p salt).isOk = false ∨ save.isOk = false)

/-- The flag, if there is one, is the one the user has. -/
def RepeatsAdmin : Prop := ∀ a, body.isAdmin = some a → a = user.isAdmin

/-- The groups, if there are any, are known and are the user's. -/
def RepeatsGroups (s : SecurityStore) : Prop :=
  ∀ gs, body.groups = some gs → setOf gs = user.groups ∧ ∀ g ∈ gs, (s.groups[g]?).isSome = true

end PatchUserBody

/-- No field of a patch is refused after an earlier one changed something. -/
def SecurityRequest.Clean (pw : Passwords) (s : SecurityStore) : SecurityRequest → Prop
  | .change _ _ => True
  | .patchUser username body salt saves =>
    ∀ user, s.users[username]? = some user → ¬ body.RefusesAdmin user s saves.isAdmin →
      (body.RefusesGroups saves.groups → body.RepeatsAdmin user) ∧
        (¬ body.RefusesGroups saves.groups → body.RefusesPassword pw salt saves.password →
          body.RepeatsAdmin user ∧ body.RepeatsGroups user s)

namespace SecurityStore

variable {s : SecurityStore} {username : String} {user : User}

theorem setUser_self (found : s.users[username]? = some user) : s.setUser username user = s := by
  have husers : s.users.insert username user = s.users := by
    apply FinMap.ext
    intro k
    rw [FinMap.get_insert]
    split_ifs with h
    · rw [← h, found]
    · rfl
  rw [setUser, husers]

theorem setUser_setUser (record other : User) :
    (s.setUser username record).setUser username other = s.setUser username other := by
  have husers : (s.users.insert username record).insert username other =
      s.users.insert username other := by
    apply FinMap.ext
    intro k
    simp only [FinMap.get_insert]
    split_ifs <;> rfl
  unfold setUser
  rw [husers]

theorem get_registerGroups (gs : List String) (g : String) :
    (s.registerGroups gs).groups[g]? = if g ∈ gs then some () else s.groups[g]? := by
  change (gs.foldl (fun m g => m.insert g ()) s.groups)[g]? = _
  generalize s.groups = m
  induction gs generalizing m with
  | nil => simp
  | cons a gs ih =>
    rw [List.foldl_cons, ih, FinMap.get_insert]
    by_cases hg : g ∈ gs
    · simp [hg]
    · by_cases ha : a = g
      · simp [ha]
      · simp [hg, ha, Ne.symm ha]

/-- Known groups are registered already. -/
theorem registerGroups_eq_self {gs : List String} :
    s.registerGroups gs = s ↔ ∀ g ∈ gs, (s.groups[g]?).isSome = true := by
  constructor
  · intro h g hg
    have hget := get_registerGroups (s := s) gs g
    rw [h, if_pos hg] at hget
    rw [hget]
    rfl
  · intro h
    have hgroups : (s.registerGroups gs).groups = s.groups := by
      apply FinMap.ext
      intro g
      rw [get_registerGroups]
      split_ifs with hg
      · obtain ⟨⟨⟩, hg⟩ := Option.isSome_iff_exists.1 (h g hg)
        exact hg.symm
      · rfl
    change { s with groups := (s.registerGroups gs).groups } = s
    rw [hgroups]

/-- The store after the flag of a patch, -/
def patchAdmin (s : SecurityStore) (username : String) (user : User) (body : PatchUserBody) :
    SecurityStore :=
  s.setUser username (body.flagged user)

/-- and after its groups. -/
def patchGroups (s : SecurityStore) (username : String) (user : User) (body : PatchUserBody) :
    SecurityStore :=
  (s.setUser username (body.grouped user)).registerGroups (body.groups.getD [])

theorem eq_of_setUser {record : User} (found : s.users[username]? = some user)
    (h : (s.setUser username record).users = s.users) : record = user := by
  have hget : (s.setUser username record).users[username]? = some record :=
    FinMap.get_insert_self _ _ _
  rw [h, found] at hget
  exact (Option.some.inj hget).symm

theorem patchAdmin_eq_self {body : PatchUserBody} (found : s.users[username]? = some user) :
    s.patchAdmin username user body = s ↔ body.RepeatsAdmin user := by
  constructor
  · intro h a ha
    have husers := congrArg SecurityStore.users h
    have hrecord : body.flagged user = user := eq_of_setUser found husers
    have hflag := congrArg User.isAdmin hrecord
    rw [PatchUserBody.flagged, ha] at hflag
    exact hflag
  · intro h
    have hrecord : body.flagged user = user := by
      unfold PatchUserBody.flagged
      rcases hb : body.isAdmin with _ | a
      · rfl
      · rw [Option.getD_some, h a hb]
    rw [patchAdmin, hrecord, setUser_self found]

theorem patchGroups_eq_self {body : PatchUserBody} (found : s.users[username]? = some user) :
    s.patchGroups username user body = s ↔ body.RepeatsAdmin user ∧ body.RepeatsGroups user s := by
  constructor
  · intro h
    have husers := congrArg SecurityStore.users h
    have hrecord : body.grouped user = user := eq_of_setUser found husers
    have hgroups : ∀ g ∈ body.groups.getD [], (s.groups[g]?).isSome = true := by
      intro g hg
      have hget := get_registerGroups (s := s.setUser username (body.grouped user))
        (body.groups.getD []) g
      rw [if_pos hg, ← patchGroups, h] at hget
      rw [hget]
      rfl
    refine ⟨fun a ha => ?_, fun gs hgs => ⟨?_, ?_⟩⟩
    · have hflag := congrArg User.isAdmin hrecord
      rw [PatchUserBody.grouped, PatchUserBody.flagged, ha] at hflag
      exact hflag
    · have hset := congrArg User.groups hrecord
      rw [PatchUserBody.grouped, hgs] at hset
      exact hset
    · rw [hgs] at hgroups
      exact hgroups
  · rintro ⟨hadmin, hgroups⟩
    have hrecord : body.grouped user = user := by
      unfold PatchUserBody.grouped PatchUserBody.flagged
      rcases ha : body.isAdmin with _ | a <;> rcases hgs : body.groups with _ | gs
      · rfl
      · rw [Option.map_some, Option.getD_some, (hgroups gs hgs).1]
        rfl
      · rw [Option.getD_some, hadmin a ha]
        rfl
      · rw [Option.map_some, Option.getD_some, (hgroups gs hgs).1, Option.getD_some, hadmin a ha]
    rw [patchGroups, hrecord, setUser_self found, registerGroups_eq_self]
    rcases hgs : body.groups with _ | gs
    · intro g hg
      cases hg
    · exact (hgroups gs hgs).2

end SecurityStore

namespace SecurityState

/-! ## A patch, field by field -/

variable {pw : Passwords} {st : SecurityStore} {username salt : String} {user : User}
variable {body : PatchUserBody}

/-- A save that is not a failure. -/
theorem save_ok {save : Except SecurityError Unit} (h : ¬ save.isOk = false) : save = .ok () := by
  rcases save with e | ⟨⟩
  · exact absurd rfl h
  · rfl

theorem save_error {save : Except SecurityError Unit} (h : save.isOk = false) :
    ∃ e, save = .error e := by
  rcases save with e | ⟨⟩
  · exact ⟨e, rfl⟩
  · cases h

/-- The changes of an optional field, then the rest. -/
def field (s : SecurityState) (pw : Passwords) (l rest : List (Except SecurityError Unit × Call)) :
    Except SecurityError Unit × SecurityState :=
  match s.changeAll pw l with
  | (.error e, next) => (.error e, next)
  | (.ok (), next) => next.changeAll pw rest

theorem changeAll_append (s : SecurityState) (l rest : List (Except SecurityError Unit × Call)) :
    s.changeAll pw (l ++ rest) = s.field pw l rest := by
  unfold field
  induction l generalizing s with
  | nil => rfl
  | cons c l ih =>
    obtain ⟨save, call⟩ := c
    rw [List.cons_append, changeAll, changeAll]
    rcases s.change pw save call with ⟨e | b, next⟩
    · rfl
    · exact ih next

theorem change_made {save : Except SecurityError Unit} {call : Call} {next : SecurityStore}
    (h : st.perform pw save call = (.ok true, next)) :
    st.saved.changeAll pw [(save, call)] = (.ok (), next.saved) := by
  rw [changeAll_single, change, show st.saved.store = st from rfl, h]
  rfl

theorem change_refused {save : Except SecurityError Unit} {call : Call} {e : SecurityError}
    (h : st.perform pw save call = (.error e, st)) :
    (st.saved.changeAll pw [(save, call)]).1.isOk = false ∧
      (st.saved.changeAll pw [(save, call)]).2 = st.saved := by
  rw [changeAll_single, change, show st.saved.store = st from rfl, h]
  exact ⟨rfl, rfl⟩

/-- A field of a patch is refused and leaves the state, or it is made. -/
def Stage (r : Except SecurityError Unit × SecurityState) (st : SecurityStore) (refuses : Prop)
    (next : SecurityStore) : Prop :=
  (refuses → r.1.isOk = false ∧ r.2 = st.saved) ∧ (¬ refuses → r = (.ok (), next.saved))

/-- A stage before the rest of a patch. -/
theorem Stage.field {s : SecurityState} {l : List (Except SecurityError Unit × Call)}
    {refuses : Prop} {next : SecurityStore} (h : Stage (s.changeAll pw l) st refuses next)
    (rest : List (Except SecurityError Unit × Call)) :
    (refuses → (s.changeAll pw (l ++ rest)).1.isOk = false ∧
        (s.changeAll pw (l ++ rest)).2 = st.saved) ∧
      (¬ refuses → s.changeAll pw (l ++ rest) = next.saved.changeAll pw rest) := by
  rw [changeAll_append, SecurityState.field]
  refine ⟨fun hr => ?_, fun hr => ?_⟩
  · obtain ⟨hfail, hstate⟩ := h.1 hr
    rcases hres : s.changeAll pw l with ⟨e | ⟨⟩, after⟩
    · rw [hres] at hstate
      exact ⟨rfl, hstate⟩
    · rw [hres] at hfail
      cases hfail
  · rw [h.2 hr]

/-- **The flag.** -/
theorem stage_admin (pw : Passwords) (body : PatchUserBody)
    (found : st.users[username]? = some user) (save : Except SecurityError Unit) :
    Stage (st.saved.changeAll pw
      (body.isAdmin.toList.map fun a => (save, .setUserAdmin username a))) st
      (body.RefusesAdmin user st save) (st.patchAdmin username user body) := by
  unfold Stage SecurityStore.patchAdmin PatchUserBody.flagged PatchUserBody.RefusesAdmin
  rcases hb : body.isAdmin with _ | a
  · refine ⟨?_, fun _ => ?_⟩
    · rintro ⟨a, ha, -⟩
      cases ha
    · rw [Option.getD_none, SecurityStore.setUser_self found]
      rfl
  · simp only [Option.toList_some, List.map_cons, List.map_nil, Option.some.injEq, exists_eq_left']
    have hperform : st.perform pw save (.setUserAdmin username a) =
        SecurityStore.done (if a = false ∧ user.isAdmin = true ∧ st.adminCount = 1 then
          (.error .lastAdmin, st)
        else st.commit save fun s => .ok ((), s.setUser username { user with isAdmin := a })) := by
      rw [SecurityStore.perform, SecurityStore.setUserAdmin, SecurityStore.userOf_eq_ok.2 found]
    by_cases hlast : a = false ∧ user.isAdmin = true ∧ st.adminCount = 1
    · rw [if_pos hlast] at hperform
      exact ⟨fun _ => change_refused hperform, fun h => absurd (Or.inl hlast) h⟩
    · rw [if_neg hlast] at hperform
      by_cases hsave : save.isOk = false
      · obtain ⟨e, rfl⟩ := save_error hsave
        exact ⟨fun _ => change_refused hperform, fun h => absurd (Or.inr hsave) h⟩
      · obtain rfl := save_ok hsave
        exact ⟨fun h => absurd h (not_or.2 ⟨hlast, hsave⟩), fun _ => change_made hperform⟩

/-- **The groups**, of a user with the flag set. -/
theorem stage_groups (pw : Passwords) (body : PatchUserBody) (st : SecurityStore)
    (username : String) (user : User) (save : Except SecurityError Unit) :
    Stage ((st.patchAdmin username user body).saved.changeAll pw
      (body.groups.toList.map fun gs => (save, .setUserGroups username gs)))
      (st.patchAdmin username user body) (body.RefusesGroups save)
      (st.patchGroups username user body) := by
  have hflagged : (st.patchAdmin username user body).users[username]? = some (body.flagged user) :=
    FinMap.get_insert_self _ _ _
  unfold Stage SecurityStore.patchGroups PatchUserBody.grouped PatchUserBody.RefusesGroups
  rcases hb : body.groups with _ | gs
  · refine ⟨?_, fun _ => rfl⟩
    rintro ⟨hsome, -⟩
    cases hsome
  · simp only [Option.toList_some, List.map_cons, List.map_nil, Option.isSome_some, true_and]
    have hperform : (st.patchAdmin username user body).perform pw save (.setUserGroups username gs) =
        SecurityStore.done ((st.patchAdmin username user body).commit save fun s =>
          (s.userOf username).bind fun user =>
            .ok ((), (s.setUser username { user with groups := setOf gs }).registerGroups gs)) := rfl
    unfold SecurityStore.commit at hperform
    dsimp only at hperform
    rw [SecurityStore.userOf_eq_ok.2 hflagged] at hperform
    by_cases hsave : save.isOk = false
    · obtain ⟨e, rfl⟩ := save_error hsave
      exact ⟨fun _ => change_refused hperform, fun h => absurd hsave h⟩
    · obtain rfl := save_ok hsave
      refine ⟨fun h => absurd h hsave, fun _ => ?_⟩
      rw [change_made hperform]
      have htwice := @SecurityStore.setUser_setUser st username (body.flagged user)
        { body.flagged user with groups := setOf gs }
      change (Except.ok (), (((st.patchAdmin username user body).setUser username
        { body.flagged user with groups := setOf gs }).registerGroups gs).saved) = _
      unfold SecurityStore.patchAdmin
      rw [htwice]
      rfl

/-- **The password**, of a user with the flag and the groups set. -/
theorem stage_password (pw : Passwords) (body : PatchUserBody) (st : SecurityStore)
    (username salt : String) (user : User) (save : Except SecurityError Unit) :
    (body.RefusesPassword pw salt save →
      let r := (st.patchGroups username user body).saved.changeAll pw
        (body.password.toList.map fun p => (save, .resetPassword username p salt))
      r.1.isOk = false ∧ r.2 = (st.patchGroups username user body).saved) ∧
    (¬ body.RefusesPassword pw salt save →
      ((st.patchGroups username user body).saved.changeAll pw
        (body.password.toList.map fun p => (save, .resetPassword username p salt))).1.isOk =
          true) := by
  have hgrouped : (st.patchGroups username user body).users[username]? = some (body.grouped user) :=
    FinMap.get_insert_self _ _ _
  generalize st.patchGroups username user body = mid at hgrouped ⊢
  unfold PatchUserBody.RefusesPassword
  rcases hb : body.password with _ | p
  · refine ⟨?_, fun _ => rfl⟩
    rintro ⟨p, hp, -⟩
    cases hp
  · simp only [Option.toList_some, List.map_cons, List.map_nil, Option.some.injEq, exists_eq_left']
    have hperform : mid.perform pw save (.resetPassword username p salt) =
        SecurityStore.done (mid.commit save fun s =>
          (SecurityStore.checkPassword pw p).bind fun _ =>
            (SecurityStore.hashPassword pw p salt).bind fun newHash =>
              (s.userOf username).bind fun user =>
                .ok ((), s.setUser username { user with passwordHash := newHash })) := rfl
    unfold SecurityStore.commit at hperform
    dsimp only at hperform
    rw [SecurityStore.userOf_eq_ok.2 hgrouped] at hperform
    unfold SecurityStore.checkPassword SecurityStore.hashPassword at hperform
    rcases hpolicy : pw.policy p with _ | reason
    · rw [hpolicy] at hperform
      rcases hhash : pw.hash p salt with e | newHash
      · rw [hhash] at hperform
        exact ⟨fun _ => change_refused hperform,
          fun h => absurd (Or.inr (Or.inl rfl)) h⟩
      · rw [hhash] at hperform
        by_cases hsave : save.isOk = false
        · obtain ⟨e, rfl⟩ := save_error hsave
          exact ⟨fun _ => change_refused hperform, fun h => absurd (Or.inr (Or.inr hsave)) h⟩
        · obtain rfl := save_ok hsave
          refine ⟨?_, fun _ => by rw [change_made hperform]; rfl⟩
          rintro (h | h | h) <;> cases h
    · rw [hpolicy] at hperform
      exact ⟨fun _ => change_refused hperform, fun h => absurd (Or.inl rfl) h⟩

theorem saved_inj {st st' : SecurityStore} : st.saved = st'.saved ↔ st = st' :=
  ⟨fun h => congrArg SecurityState.store h, fun h => by rw [h]⟩

/-- Whose record a call of a patch is about. -/
def patched : Call → Option String
  | .setUserAdmin u _ | .setUserGroups u _ | .resetPassword u _ _ => some u
  | _ => none

theorem perform_of_missing (hmissing : st.users[username]? = none)
    (save : Except SecurityError Unit) {call : Call} (hcall : patched call = some username) :
    ∃ e, (st.perform pw save call).1 = .error e := by
  rcases hres : (st.perform pw save call).1 with e | b
  · exact ⟨e, rfl⟩
  · exfalso
    -- an accepted call on a user has found the user
    have hfound : ∃ user, st.users[username]? = some user := by
      have hmade := SecurityStore.made_of_perform hres
      generalize (st.perform pw save call).2 = next at hmade
      cases hmade <;> cases hcall <;> exact ⟨_, ‹_›⟩
    obtain ⟨user, huser⟩ := hfound
    rw [hmissing] at huser
    cases huser

/-- A patch of a user who is not there is refused at its first change. -/
theorem handle_of_missing (hmissing : st.users[username]? = none) (saves : Saves) :
    (st.saved.handle pw (.patchUser username body salt saves)).2 = st.saved := by
  unfold handle
  have hcalls : ∀ c ∈ (SecurityRequest.patchUser username body salt saves).changes,
      patched c.2 = some username := by
    intro c hc
    simp only [SecurityRequest.changes, List.mem_append, List.mem_map] at hc
    rcases hc with ⟨a, -, rfl⟩ | ⟨gs, -, rfl⟩ | ⟨p, -, rfl⟩ <;> rfl
  generalize (SecurityRequest.patchUser username body salt saves).changes = changes at hcalls
  rcases changes with _ | ⟨⟨save, call⟩, rest⟩
  · rfl
  · have hrefused : ∃ e, (st.perform pw save call).1 = .error e :=
      perform_of_missing hmissing save (hcalls _ List.mem_cons_self)
    obtain ⟨e, he⟩ := hrefused
    have hstore := SecurityStore.perform_error he
    rcases hp : st.perform pw save call with ⟨res, next⟩
    rw [hp] at he hstore
    dsimp only at he hstore
    unfold changeAll change
    rw [show st.saved.store = st from rfl, hp, he, hstore]
    rfl

theorem clean_patch_iff (hfound : st.users[username]? = some user) {saves : Saves} :
    (SecurityRequest.patchUser username body salt saves).Clean pw st ↔
      (¬ body.RefusesAdmin user st saves.isAdmin →
        (body.RefusesGroups saves.groups → body.RepeatsAdmin user) ∧
          (¬ body.RefusesGroups saves.groups → body.RefusesPassword pw salt saves.password →
            body.RepeatsAdmin user ∧ body.RepeatsGroups user st)) := by
  refine ⟨fun h => h user hfound, fun h other hother => ?_⟩
  rw [hfound] at hother
  cases hother
  exact h

/-- **A request is all or nothing exactly when it is clean.** -/
theorem allOrNothing_iff (r : SecurityRequest) :
    st.saved.AllOrNothing pw r ↔ r.Clean pw st := by
  cases r with
  | change save call =>
    refine ⟨fun _ => trivial, fun _ hfail => ?_⟩
    unfold handle SecurityRequest.changes at hfail ⊢
    rw [changeAll_single] at hfail ⊢
    rcases hres : (st.saved.change pw save call).1 with e | b
    · exact change_error hres
    · rw [hres] at hfail
      cases hfail
  | patchUser username body salt saves =>
    rcases hfound : st.users[username]? with _ | user
    · refine ⟨fun _ user huser => ?_, fun _ _ => handle_of_missing hfound saves⟩
      rw [hfound] at huser
      cases huser
    · rw [clean_patch_iff hfound, AllOrNothing, handle, SecurityRequest.changes]
      obtain ⟨hrefused, hmade⟩ := (stage_admin pw body hfound saves.isAdmin).field
        ((body.groups.toList.map fun gs => (saves.groups, .setUserGroups username gs)) ++
          body.password.toList.map fun p => (saves.password, .resetPassword username p salt))
      by_cases hra : body.RefusesAdmin user st saves.isAdmin
      · exact ⟨fun _ h => absurd hra h, fun _ _ => (hrefused hra).2⟩
      rw [hmade hra]
      obtain ⟨hrefused', hmade'⟩ := (stage_groups pw body st username user saves.groups).field
        (body.password.toList.map fun p => (saves.password, .resetPassword username p salt))
      by_cases hrg : body.RefusesGroups saves.groups
      · obtain ⟨hfail, hstate⟩ := hrefused' hrg
        rw [hstate, saved_inj, SecurityStore.patchAdmin_eq_self hfound]
        exact ⟨fun h _ => ⟨fun _ => h hfail, fun h => absurd hrg h⟩, fun h _ => (h hra).1 hrg⟩
      rw [hmade' hrg]
      obtain ⟨hrefused'', hmade''⟩ := stage_password pw body st username salt user saves.password
      by_cases hrp : body.RefusesPassword pw salt saves.password
      · obtain ⟨hfail, hstate⟩ := hrefused'' hrp
        rw [hstate, saved_inj, SecurityStore.patchGroups_eq_self hfound]
        exact ⟨fun h _ => ⟨fun h' => absurd h' hrg, fun _ _ => h hfail⟩, fun h _ => (h hra).2 hrg hrp⟩
      · rw [hmade'' hrp]
        exact ⟨fun _ _ => ⟨fun h => absurd h hrg, fun _ h => absurd h hrp⟩,
          fun _ h => absurd h (by decide)⟩

/-! ## Runs -/

/-- **Runs of requests.** From a store with an administrator and its saved
artifact, a run is sound exactly when each of its patches is clean. -/
theorem sound_iff (st : SecurityStore) (hst : st.HasAdmin) (requests : List SecurityRequest) :
    st.saved.Sound pw requests ↔
      ∀ pre r, pre ++ [r] <+: requests → r.Clean pw (st.saved.after pw pre).store := by
  have hsaved : ∀ pre, st.saved.after pw pre = (st.saved.after pw pre).store.saved := by
    intro pre
    exact saved_after pre rfl
  constructor
  · intro h pre r hpre
    have hatomic := h.atomic pre r hpre
    rw [hsaved pre] at hatomic
    exact (allOrNothing_iff r).1 hatomic
  · intro h
    refine ⟨fun pre r hpre => ?_, fun pre r part _ _ => ?_, fun pre r post subject _ hdeletes => ?_⟩
    · rw [hsaved pre]
      exact (allOrNothing_iff r).2 (h pre r hpre)
    · have hadmin : (st.saved.after pw pre).store.HasAdmin := hasAdmin_after pre hst
      exact changeAll_invariant (fun _ _ _ _ _ h hmade => hmade.hasAdmin h) hadmin
    · rw [after_append]
      exact entriesSet_of_deletes hdeletes post

/-- The store of a first run has its administrator. -/
theorem hasAdmin_bootstrap {password salt : String}
    (h : SecurityStore.bootstrap pw password salt = .ok st) : st.HasAdmin := by
  unfold SecurityStore.bootstrap SecurityStore.insertUser at h
  split_ifs at h
  obtain ⟨hash, -, h⟩ := bind_eq_ok.1 h
  cases h
  exact ⟨adminUsername, _, FinMap.get_insert_self _ _ _, rfl⟩

/-- Passwords of eight characters at least. -/
def longPasswords : Passwords :=
  { plainPasswords with policy := fun p => if p.length < 8 then some "too short" else none }

/-- An administrator, and a user who is none. -/
def pair : SecurityStore :=
  ((SecurityStore.empty.setUser adminUsername ⟨true, "hash", false, ∅⟩).setUser "bob"
    ⟨false, "hash", false, ∅⟩)

/-- Make bob an administrator and set a password that is too short. -/
def promoteWeakly : SecurityRequest :=
  .patchUser "bob" ⟨some true, none, some "short"⟩ "salt" ⟨.ok (), .ok (), .ok ()⟩

theorem hasAdmin_pair : pair.HasAdmin :=
  SecurityStore.hasAdmin_iff.2 (by decide +kernel)

/-- Bob is made an administrator with a new password, fails to set one that is
too short, and is deleted; the last administrator is not demoted. -/
def bobComesAndGoes : List SecurityRequest :=
  [.patchUser "bob" ⟨some true, none, some "long enough"⟩ "salt" ⟨.ok (), .ok (), .ok ()⟩,
    .patchUser "bob" ⟨none, none, some "short"⟩ "salt" ⟨.ok (), .ok (), .ok ()⟩,
    .change (.ok ()) (.deleteUser "bob"), .change (.ok ()) (.setUserAdmin adminUsername false)]

/-- Each of them is clean: the flag stands with a password that is accepted,
and the refused password stands alone. -/
theorem clean_of_mem_bobComesAndGoes {r : SecurityRequest} (h : r ∈ bobComesAndGoes)
    (s : SecurityStore) : r.Clean longPasswords s := by
  simp only [bobComesAndGoes, List.mem_cons, List.not_mem_nil, or_false] at h
  rcases h with rfl | rfl | rfl | rfl
  · refine fun user _ _ => ⟨fun hgroups => absurd hgroups.1 (by decide), fun _ hpassword => ?_⟩
    obtain ⟨p, hp, hrefused⟩ := hpassword
    obtain rfl := Option.some.inj hp
    exact absurd hrefused (by decide +kernel)
  · refine fun user _ _ => ⟨fun hgroups => absurd hgroups.1 (by decide), fun _ _ => ?_⟩
    exact ⟨fun _ ha => (by cases ha), fun _ hgs => (by cases hgs)⟩
  · exact trivial
  · exact trivial

theorem sound_pair : pair.HasAdmin ∧ pair.saved.Sound longPasswords bobComesAndGoes ∧
    (pair.saved.after longPasswords (bobComesAndGoes.take 2)).store.isAdminUser "bob" = true ∧
    ((pair.saved.after longPasswords bobComesAndGoes).store.users["bob"]?).isNone = true := by
  refine ⟨hasAdmin_pair, (sound_iff pair hasAdmin_pair _).2 fun pre r hpre => ?_,
    by decide +kernel, by decide +kernel⟩
  exact clean_of_mem_bobComesAndGoes
    (hpre.subset (List.mem_append_right pre List.mem_cons_self)) _

/-- **The flag of a refused patch stays.** The password is refused after the
flag has been saved, and bob is an administrator. -/
theorem not_sound_promoteWeakly : ¬ pair.saved.Sound longPasswords [promoteWeakly] := by
  intro h
  have hsame := h.atomic [] promoteWeakly List.prefix_rfl (by decide +kernel)
  have hbob := congrArg (fun s : SecurityState => s.store.isAdminUser "bob") hsame
  revert hbob
  decide +kernel

end SecurityState

end Epiphany
