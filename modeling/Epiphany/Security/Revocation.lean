import Epiphany.Security.Store
/-!
# Revocation — what the removal of a subject does to the others

A removal takes one subject off grant lists and element lists and drops the
lists left empty. For a grant that is the same for everybody: a list that is
gone gives as little as an empty one. An element without a list is open, so
the last subject of an element's list opens the element to all others when
it goes. Here the others' decisions before and after a removal are compared,
and those it can raise are exactly the ones on the elements it leaves
without a list.
-/

namespace Epiphany

open SecurityStore (Call strip setIn)

/-! ## Removals -/

/-- A call that removes a subject, or its entry on one list. -/
inductive Removal where
  | deleteUser (username : String)
  | deleteGroup (name : String)
  | revokeGrant (subject : Subject) (scope : Scope) (kind : ObjectKind)
  | revokeElement (cube dim element : String) (subject : Subject)
deriving DecidableEq

namespace Removal

def call : Removal → Call
  | deleteUser u => .deleteUser u
  | deleteGroup g => .deleteGroup g
  | revokeGrant subject scope kind => .setGrant subject scope kind .none
  | revokeElement c d e subject => .setElementAccess c d e subject .none

def subject : Removal → Subject
  | deleteUser u => .user u
  | deleteGroup g => .group g
  | revokeGrant subject _ _ => subject
  | revokeElement _ _ _ subject => subject

/-- Whether the removal is accepted and saved. -/
def takes (r : Removal) (save : Except SecurityError Unit) (s : SecurityStore) : Bool :=
  save.isOk &&
    match r with
    | deleteUser u => !(s.isAdminUser u && s.adminCount = 1) && (s.users[u]?).isSome
    | deleteGroup g => (s.groups[g]?).isSome
    | revokeGrant _ _ _ => true
    | revokeElement _ _ _ _ => true

/-- What a removal that takes effect leaves. -/
def result (r : Removal) (s : SecurityStore) : SecurityStore :=
  match r with
  | deleteUser u => (s.forgetUser u).purgeSubject (.user u)
  | deleteGroup g => (s.forgetGroup g).purgeSubject (.group g)
  | revokeGrant subject scope kind =>
    { s with grants := setIn s.grants ⟨scope, kind⟩ subject .none }
  | revokeElement c d e subject =>
    { s with elementAcls := setIn s.elementAcls ⟨c, d, e⟩ subject .none }

/-- Whether a removal reaches the list of an element. -/
def reaches (r : Removal) (key : ElementKey) : Bool :=
  match r with
  | deleteUser _ => true
  | deleteGroup _ => true
  | revokeGrant _ _ _ => false
  | revokeElement c d e _ => key = ⟨c, d, e⟩

end Removal

namespace AccessList

theorem levelFor_mono (list : AccessList) {username : String} {groups groups' : List String}
    (hsub : groups' ⊆ groups) :
    list.levelFor username groups' ≤ list.levelFor username groups := by
  refine le_levelFor.2 ?_
  rcases le_levelFor.1 (le_refl (list.levelFor username groups')) with hu | ⟨g, hg, gl, hget, hle⟩
  · exact Or.inl hu
  · exact Or.inr ⟨g, hsub hg, gl, hget, hle⟩

theorem set_none_empty (subject : Subject) : (empty.set subject .none).isEmpty = true := by
  rw [isEmpty_iff]
  cases subject <;> simp [set, empty, LevelMap.get_set]

end AccessList

namespace SecurityStore

variable {s : SecurityStore} {save : Except SecurityError Unit} {pw : Passwords}

/-! ## What a removal does to the lists -/

theorem get_setIn_none {κ : Type} [Ord κ] [Std.TransOrd κ] [Std.LawfulEqOrd κ] [DecidableEq κ]
    (m : FinMap κ AccessList) (key : κ) (subject : Subject) (k : κ) :
    (setIn m key subject .none)[k]? =
      if key = k then (m[key]?).bind (strip subject) else m[k]? := by
  unfold setIn strip
  rcases hm : m[key]? with _ | list
  · rw [Option.getD_none, if_pos (AccessList.set_none_empty subject), FinMap.get_erase]
    split_ifs <;> rfl
  · rw [Option.getD_some]
    by_cases he : (list.set subject .none).isEmpty = true
    · rw [if_pos he, FinMap.get_erase]
      simp [he]
    · rw [if_neg he, FinMap.get_insert]
      simp [he]

theorem get_elementAcls_purge (subject : Subject) (key : ElementKey) :
    (s.purgeSubject subject).elementAcls[key]? = (s.elementAcls[key]?).bind (strip subject) :=
  Std.ExtTreeMap.getElem?_filterMap'

theorem get_grants_purge (subject : Subject) (key : GrantKey) :
    (s.purgeSubject subject).grants[key]? = (s.grants[key]?).bind (strip subject) :=
  Std.ExtTreeMap.getElem?_filterMap'

/-- A change is kept or nothing changes. -/
theorem commit_ok {α : Type} (value : α) (f : SecurityStore → SecurityStore) :
    (s.commit save fun s => .ok (value, f s)).2 = if save.isOk then f s else s := by
  rcases save with e | ⟨⟩ <;> rfl

theorem deleteUser_snd (u : String) :
    (s.deleteUser save u).2 =
      if (Removal.deleteUser u).takes save s then (Removal.deleteUser u).result s else s := by
  unfold deleteUser Removal.takes
  by_cases hlast : s.isAdminUser u = true ∧ s.adminCount = 1
  · simp [hlast]
  · have hkeep : (s.isAdminUser u && decide (s.adminCount = 1)) = false := by simpa using hlast
    rw [if_neg hlast]
    rcases hu : s.users[u]? with _ | user
    · simp only [hu, Option.isNone_none, Option.isSome_none, if_true, Bool.and_false,
        Bool.false_eq_true, if_false]
    · simp only [hu, Option.isNone_some, Bool.false_eq_true, if_false, hkeep, Bool.not_false,
        Option.isSome_some, Bool.and_true]
      exact commit_ok true _

theorem deleteGroup_snd (g : String) :
    (s.deleteGroup save g).2 =
      if (Removal.deleteGroup g).takes save s then (Removal.deleteGroup g).result s else s := by
  unfold deleteGroup Removal.takes
  rcases hg : s.groups[g]? with _ | _
  · simp only [hg, Option.isNone_none, Option.isSome_none, if_true, Bool.and_false,
      Bool.false_eq_true, if_false]
  · simp only [hg, Option.isNone_some, Bool.false_eq_true, if_false, Option.isSome_some,
      Bool.and_true]
    exact commit_ok true _

/-- **A removal takes effect as a whole or not at all.** -/
theorem apply_call (r : Removal) :
    s.apply pw save r.call = if r.takes save s then r.result s else s := by
  cases r with
  | deleteUser u => exact deleteUser_snd u
  | deleteGroup g => exact deleteGroup_snd g
  | revokeGrant subject scope kind =>
    rw [Removal.takes, Bool.and_true]
    exact commit_ok () _
  | revokeElement c d e subject =>
    rw [Removal.takes, Bool.and_true]
    exact commit_ok () _

theorem get_elementAcls_result (r : Removal) (key : ElementKey) :
    (r.result s).elementAcls[key]? =
      if r.reaches key then (s.elementAcls[key]?).bind (strip r.subject)
      else s.elementAcls[key]? := by
  cases r with
  | deleteUser u => exact get_elementAcls_purge _ _
  | deleteGroup g => exact get_elementAcls_purge _ _
  | revokeGrant subject scope kind => rfl
  | revokeElement c d e subject =>
    simp only [Removal.result, Removal.reaches, Removal.subject, get_setIn_none, decide_eq_true_eq,
      eq_comm (a := key)]
    split_ifs with h
    · rw [h]
    · rfl

/-- A list of grants is stripped or stays. -/
theorem get_grants_result (r : Removal) (key : GrantKey) :
    (r.result s).grants[key]? = (s.grants[key]?).bind (strip r.subject) ∨
      (r.result s).grants[key]? = s.grants[key]? := by
  cases r with
  | deleteUser u => exact Or.inl (get_grants_purge _ _)
  | deleteGroup g => exact Or.inl (get_grants_purge _ _)
  | revokeGrant subject scope kind =>
    simp only [Removal.result, Removal.subject, get_setIn_none]
    split_ifs with h
    · rw [h]
      exact Or.inl rfl
    · exact Or.inr rfl
  | revokeElement c d e subject => exact Or.inr rfl

/-! ## Principals -/

theorem principal_eq_some {name : String} {p : Principal} :
    s.principal name = some p ↔
      ∃ u, s.users[name]? = some u ∧ p = ⟨name, u.isAdmin, u.groups.toList.map Prod.fst⟩ := by
  rw [principal, Option.map_eq_some_iff]
  exact exists_congr fun u => and_congr_right fun _ => eq_comm

theorem users_purge (subject : Subject) : (s.purgeSubject subject).users = s.users := rfl

/-- Whoever is still there has the same admin flag and no new group. -/
theorem user_result {r : Removal} {name : String} {u' : User}
    (h : (r.result s).users[name]? = some u') :
    ∃ u, s.users[name]? = some u ∧ u'.isAdmin = u.isAdmin ∧
      u'.groups.toList.map Prod.fst ⊆ u.groups.toList.map Prod.fst := by
  cases r with
  | deleteUser d =>
    simp only [Removal.result, users_purge, forgetUser, FinMap.get_erase] at h
    split_ifs at h
    exact ⟨u', h, rfl, fun _ hg => hg⟩
  | deleteGroup g =>
    simp only [Removal.result, users_purge, forgetGroup, Std.ExtTreeMap.getElem?_map,
      Option.map_eq_some_iff] at h
    obtain ⟨u, hu, rfl⟩ := h
    refine ⟨u, hu, rfl, fun x hx => ?_⟩
    obtain ⟨⟨k, v⟩, hmem, rfl⟩ := List.mem_map.1 hx
    rw [FinMap.mem_toList, FinMap.get_erase] at hmem
    split_ifs at hmem
    exact List.mem_map.2 ⟨(k, v), FinMap.mem_toList.2 hmem, rfl⟩
  | revokeGrant subject scope kind => exact ⟨u', h, rfl, fun _ hg => hg⟩
  | revokeElement c d e subject => exact ⟨u', h, rfl, fun _ hg => hg⟩

/-- One principal before and after a removal. -/
structure Remains (p p' : Principal) : Prop where
  username : p'.username = p.username
  isAdmin : p'.isAdmin = p.isAdmin
  groups : p'.groups ⊆ p.groups

theorem principal_result {r : Removal} {name : String} {p p' : Principal}
    (hp : s.principal name = some p) (hp' : (r.result s).principal name = some p') :
    Remains p p' := by
  obtain ⟨u, hu, rfl⟩ := principal_eq_some.1 hp
  obtain ⟨u', hu', rfl⟩ := principal_eq_some.1 hp'
  obtain ⟨v, hv, hadmin, hgroups⟩ := user_result hu'
  obtain rfl : u = v := Option.some.inj (hu.symm.trans hv)
  exact ⟨rfl, hadmin, hgroups⟩

/-! ## Grants -/

/-- No decision about a principal is higher in the second store, but for
those on the opened elements. -/
structure NoHigherBut (opened : ElementKey → Prop) (s s' : SecurityStore) (p p' : Principal) :
    Prop where
  effective : ∀ kind cube, s'.effective p' kind cube ≤ s.effective p kind cube
  readable : ∀ cube dim element, ¬ opened ⟨cube, dim, element⟩ →
    s'.elementReadable p' cube dim element = true → s.elementReadable p cube dim element = true
  writable : ∀ cube dim element, ¬ opened ⟨cube, dim, element⟩ →
    s'.elementWritable p' cube dim element = true → s.elementWritable p cube dim element = true

/-- No decision about a principal is higher in the second store. -/
def NoHigher (s s' : SecurityStore) (p p' : Principal) : Prop :=
  NoHigherBut (fun _ => False) s s' p p'

theorem grantLevel_le {s' : SecurityStore} {subject : Subject} {p p' : Principal}
    (hp : Remains p p')
    (h : ∀ key : GrantKey, s'.grants[key]? = (s.grants[key]?).bind (strip subject) ∨
      s'.grants[key]? = s.grants[key]?) (scope : Scope) (kind : ObjectKind) :
    s'.grantLevel p' scope kind ≤ s.grantLevel p scope kind := by
  unfold grantLevel
  rcases hlist : s.grants[GrantKey.mk scope kind]? with _ | list
  · rcases h ⟨scope, kind⟩ with h | h <;> exact le_of_eq (by simp [h, hlist])
  · rcases h ⟨scope, kind⟩ with h | h <;> rw [h, hlist]
    · rw [Option.bind_some, strip]
      split_ifs
      · exact AccessLevel.none_le _
      · rw [hp.username]
        exact list.levelFor_set_none_le subject hp.groups
    · rw [hp.username]
      exact list.levelFor_mono hp.groups

/-- Lower grants give no higher effective access. -/
theorem effective_le {s' : SecurityStore} {p p' : Principal} (hadmin : p'.isAdmin = p.isAdmin)
    (h : ∀ scope kind, s'.grantLevel p' scope kind ≤ s.grantLevel p scope kind)
    (kind : ObjectKind) (cube : Option String) :
    s'.effective p' kind cube ≤ s.effective p kind cube := by
  unfold effective
  rw [hadmin]
  by_cases ha : p.isAdmin = true
  · rw [if_pos ha, if_pos ha]
  · rw [if_neg ha, if_neg ha]
    rcases cube with _ | c
    · exact h .global kind
    · have hlevel := max_le_max (h .global kind) (h (.cube c) kind)
      have hcube := max_le_max (h .global .cube) (h (.cube c) .cube)
      dsimp only
      split_ifs with h1 h2 h2
      · exact max_le_max hlevel le_rfl
      · exact absurd ⟨h1.1, h1.2.trans hcube⟩ h2
      · exact hlevel.trans (le_max_left _ _)
      · exact hlevel

theorem effective_result_le {r : Removal} {p p' : Principal} (hp : Remains p p')
    (kind : ObjectKind) (cube : Option String) :
    (r.result s).effective p' kind cube ≤ s.effective p kind cube :=
  effective_le hp.isAdmin (grantLevel_le hp (get_grants_result r)) kind cube

/-! ## Elements -/

/-- Whether a removal that takes effect leaves an element that had a list
without one. -/
def Opens (r : Removal) (s : SecurityStore) (key : ElementKey) (list : AccessList) : Prop :=
  r.reaches key = true ∧ s.elementAcls[key]? = some list ∧
    (list.set r.subject .none).isEmpty = true

/-- An element that keeps its list, or never had one, is no more open. -/
theorem elementAccess_result {r : Removal} {p p' : Principal} (hp : Remains p p')
    (hadmin : p.isAdmin = false) {cube dim element : String}
    (h : ∀ list, ¬ Opens r s ⟨cube, dim, element⟩ list) {need : AccessLevel}
    (hneed : ∀ l, (r.result s).elementAccess p' cube dim element = some l → need ≤ l) :
    ∀ l, s.elementAccess p cube dim element = some l → need ≤ l := by
  intro l hl
  have hacls := get_elementAcls_result (s := s) r ⟨cube, dim, element⟩
  simp only [elementAccess, hadmin, hp.isAdmin, Bool.false_eq_true, if_false,
    Option.map_eq_some_iff] at hl hneed
  obtain ⟨list, hlist, rfl⟩ := hl
  rw [hlist] at hacls
  split_ifs at hacls with hreach
  · -- The list is stripped and not empty, so it still decides.
    have hne : (list.set r.subject .none).isEmpty ≠ true := fun he => h list ⟨hreach, hlist, he⟩
    rw [Option.bind_some, strip, if_neg hne] at hacls
    refine (hneed _ ⟨_, hacls, rfl⟩).trans ?_
    rw [hp.username]
    exact list.levelFor_set_none_le r.subject hp.groups
  · refine (hneed _ ⟨_, hacls, rfl⟩).trans ?_
    rw [hp.username]
    exact list.levelFor_mono hp.groups

theorem elementReadable_iff {p : Principal} {cube dim element : String} :
    s.elementReadable p cube dim element = true ↔
      ∀ l, s.elementAccess p cube dim element = some l → AccessLevel.read ≤ l := by
  unfold elementReadable
  rcases s.elementAccess p cube dim element with _ | l <;> simp

theorem elementWritable_iff {p : Principal} {cube dim element : String} :
    s.elementWritable p cube dim element = true ↔
      ∀ l, s.elementAccess p cube dim element = some l → AccessLevel.write ≤ l := by
  unfold elementWritable
  rcases s.elementAccess p cube dim element with _ | l <;> simp

theorem get_elementAcls_of_opens {r : Removal} {key : ElementKey} {list : AccessList}
    (h : Opens r s key list) : (r.result s).elementAcls[key]? = none := by
  obtain ⟨hreach, hlist, hempty⟩ := h
  rw [get_elementAcls_result, if_pos hreach, hlist, Option.bind_some, strip, if_pos hempty]

/-- An element left without a list is open to everybody. -/
theorem writable_of_opens {r : Removal} {key : ElementKey} {list : AccessList}
    (h : Opens r s key list) (p : Principal) :
    (r.result s).elementWritable p key.cube key.dimension key.element = true := by
  have hacls := get_elementAcls_of_opens h
  rw [elementWritable_iff]
  intro l hl
  unfold elementAccess at hl
  split_ifs at hl
  rw [show ElementKey.mk key.cube key.dimension key.element = key from rfl, hacls] at hl
  cases hl

/-- A list that lets a principal write lets it read. -/
theorem levelFor_of_writable {p : Principal} (hadmin : p.isAdmin = false) {key : ElementKey}
    {list : AccessList} (hlist : s.elementAcls[key]? = some list)
    (h : s.elementWritable p key.cube key.dimension key.element = true) :
    .write ≤ list.levelFor p.username p.groups := by
  refine elementWritable_iff.1 h _ ?_
  rw [elementAccess, hadmin, if_neg (by decide)]
  exact congrArg (Option.map _) hlist

/-- The change from one store to the other raises nobody but a subject, apart
from those it raises on the opened elements. -/
def RaisesOnlyAt (opened : ElementKey → Prop) (s s' : SecurityStore) (subject : Subject) : Prop :=
  ∀ name p p', subject ≠ .user name → s.principal name = some p → p.isAdmin = false →
    s'.principal name = some p' → NoHigherBut opened s s' p p'

/-- The change from one store to the other raises nobody but a subject. -/
def RaisesNobody (s s' : SecurityStore) (subject : Subject) : Prop :=
  RaisesOnlyAt (fun _ => False) s s' subject

/-- A removal raises nobody on an element it does not open. -/
theorem noHigherBut_result {r : Removal} {p p' : Principal} (hp : Remains p p')
    (hadmin : p.isAdmin = false) :
    NoHigherBut (fun key => ∃ list, Opens r s key list) s (r.result s) p p' where
  effective := effective_result_le hp
  readable cube dim element hshut hr := by
    rw [elementReadable_iff] at hr ⊢
    exact elementAccess_result hp hadmin (fun list hlist => hshut ⟨list, hlist⟩) hr
  writable cube dim element hshut hw := by
    rw [elementWritable_iff] at hw ⊢
    exact elementAccess_result hp hadmin (fun list hlist => hshut ⟨list, hlist⟩) hw

/-- Whoever could write an element the removal opens is not raised. -/
theorem noHigher_result {r : Removal} {p p' : Principal} (hp : Remains p p')
    (hadmin : p.isAdmin = false)
    (h : ∀ key list, Opens r s key list → .write ≤ list.levelFor p.username p.groups) :
    NoHigher s (r.result s) p p' where
  effective := effective_result_le hp
  readable cube dim element _ hr := by
    by_cases hopen : ∃ list, Opens r s ⟨cube, dim, element⟩ list
    · obtain ⟨list, hlist⟩ := hopen
      refine elementReadable_iff.2 fun l hl => ?_
      simp only [elementAccess, hadmin, Bool.false_eq_true, if_false, hlist.2.1, Option.map_some,
        Option.some.injEq] at hl
      exact (by decide : AccessLevel.read ≤ .write).trans (hl ▸ h _ _ hlist)
    · exact (noHigherBut_result hp hadmin).readable _ _ _ hopen hr
  writable cube dim element _ hw := by
    by_cases hopen : ∃ list, Opens r s ⟨cube, dim, element⟩ list
    · obtain ⟨list, hlist⟩ := hopen
      refine elementWritable_iff.2 fun l hl => ?_
      simp only [elementAccess, hadmin, Bool.false_eq_true, if_false, hlist.2.1, Option.map_some,
        Option.some.injEq] at hl
      exact hl ▸ h _ _ hlist
    · exact (noHigherBut_result hp hadmin).writable _ _ _ hopen hw

theorem noHigherBut_refl (opened : ElementKey → Prop) (p : Principal) :
    NoHigherBut opened s s p p :=
  ⟨fun _ _ => le_rfl, fun _ _ _ _ h => h, fun _ _ _ _ h => h⟩

/-- A user the removal does not delete is still there. -/
theorem exists_principal_result {r : Removal} {name : String} (hne : r.subject ≠ .user name)
    {p : Principal} (hp : s.principal name = some p) :
    ∃ p', (r.result s).principal name = some p' := by
  obtain ⟨u, hu, -⟩ := principal_eq_some.1 hp
  suffices h : ∃ u', (r.result s).users[name]? = some u' by
    obtain ⟨u', hu'⟩ := h
    exact ⟨_, principal_eq_some.2 ⟨u', hu', rfl⟩⟩
  cases r with
  | deleteUser d =>
    refine ⟨u, ?_⟩
    rw [Removal.result, users_purge, forgetUser, FinMap.get_erase, if_neg, hu]
    rintro rfl
    exact hne rfl
  | deleteGroup g =>
    refine ⟨{ u with groups := u.groups.erase g }, ?_⟩
    rw [Removal.result, users_purge, forgetGroup, Std.ExtTreeMap.getElem?_map, hu, Option.map_some]
  | revokeGrant subject scope kind => exact ⟨u, hu⟩
  | revokeElement c d e subject => exact ⟨u, hu⟩

/-- A change that leaves the store as it is raises nobody. -/
theorem raisesOnlyAt_refl (opened : ElementKey → Prop) (subject : Subject) :
    RaisesOnlyAt opened s s subject := by
  intro name p p' _ hp _ hp'
  obtain rfl : p = p' := Option.some.inj (hp.symm.trans hp')
  exact noHigherBut_refl opened p

/-- **A removal raises the others on the elements it leaves without a list
and nowhere else**, and nobody exactly when every such element could already
be written by all others. A removal that is refused or not saved leaves no
such element. -/
theorem raisesNobody_iff (pw : Passwords) (save : Except SecurityError Unit) (s : SecurityStore)
    (r : Removal) :
    RaisesOnlyAt (fun key => r.takes save s = true ∧ ∃ list, Opens r s key list)
        s (s.apply pw save r.call) r.subject ∧
      (r.takes save s = true → ∀ key list, Opens r s key list →
        (s.apply pw save r.call).elementAcls[key]? = none) ∧
      (RaisesNobody s (s.apply pw save r.call) r.subject ↔
        (r.takes save s = true → ∀ key list, Opens r s key list →
          ∀ name p, r.subject ≠ .user name → s.principal name = some p → p.isAdmin = false →
            .write ≤ list.levelFor p.username p.groups)) := by
  rw [apply_call]
  by_cases htakes : r.takes save s = true
  · rw [if_pos htakes]
    refine ⟨?_, fun _ key list => get_elementAcls_of_opens, ?_, ?_⟩
    · intro name p p' _ hp hadmin hp'
      have h : NoHigherBut (fun key => ∃ list, Opens r s key list) s (r.result s) p p' :=
        noHigherBut_result (principal_result hp hp') hadmin
      exact ⟨h.effective,
        fun cube dim element hshut => h.readable _ _ _ fun ho => hshut ⟨htakes, ho⟩,
        fun cube dim element hshut => h.writable _ _ _ fun ho => hshut ⟨htakes, ho⟩⟩
    · intro h _ key list hopen name p hne hp hadmin
      obtain ⟨p', hp'⟩ := exists_principal_result hne hp
      exact levelFor_of_writable hadmin hopen.2.1
        ((h name p p' hne hp hadmin hp').writable _ _ _ id (writable_of_opens hopen p'))
    · intro h name p p' hne hp hadmin hp'
      exact noHigher_result (principal_result hp hp') hadmin fun key list hopen =>
        h htakes key list hopen name p hne hp hadmin
  · rw [if_neg htakes]
    exact ⟨raisesOnlyAt_refl _ _, fun h => absurd h htakes,
      iff_of_true (raisesOnlyAt_refl _ _) fun h => absurd h htakes⟩

/-! ## The last subject of an element -/

/-- Ann is the only one admitted to `North`; Bob has no entry. -/
def guarded : SecurityStore :=
  match bootstrap plainPasswords "root" "" with
  | .error _ => empty
  | .ok s =>
    s.applyAll plainPasswords
      [(.ok (), .createUser "ann" "a" "" false []), (.ok (), .createUser "bob" "b" "" false []),
        (.ok (), .setElementAccess "Sales" "Region" "North" (.user "ann") .read)]

/-- When Ann goes, Bob reads what he could not. -/
theorem not_raisesNobody_last_subject :
    ¬ RaisesNobody guarded
      (guarded.apply plainPasswords (.ok ()) (Removal.deleteUser "ann").call)
      (Removal.deleteUser "ann").subject := by
  intro h
  have hbob := h "bob" ⟨"bob", false, []⟩ ⟨"bob", false, []⟩ (by decide) (by decide +kernel) rfl
    (by decide +kernel)
  have hread := hbob.readable "Sales" "Region" "North" id (by decide +kernel)
  have hdenied : guarded.elementReadable ⟨"bob", false, []⟩ "Sales" "Region" "North" = false := by
    decide +kernel
  rw [hdenied] at hread
  cases hread

end SecurityStore

end Epiphany
