import Epiphany.Common.Documents
import Epiphany.Common.FinMap
import Epiphany.Common.MemoryFirst
/-!
# Secrets — named credentials in one file

The store keeps its secrets in memory and in a file, which it replaces as a
whole at every change. A file that cannot be read as secrets is opened as
empty. The value in memory changes first, so a call whose file operations fail
leaves a secret set or removed that the file knows nothing of, and the next
save makes it last (`steps_allOrNothing_iff`). A secret whose `set` succeeded is
only lost by a later call with its name, whatever fails and wherever the
process stops.
-/

namespace Epiphany

open Document Fallible

/-! ## The document -/

structure SecretEntry where
  name : String
  value : String

structure SecretDoc where
  format : String
  secrets : List SecretEntry

def secretsFormat : String := "epiphany-secrets-v1"

namespace SecretEntry

def fields (d : SecretEntry) : List (String × Option Document) :=
  [("name", some (.string d.name)), ("value", some (.string d.value))]

def ofToml (v : Document) : Except String SecretEntry := do
  let t ← asTable v
  let name ← required t "name" asString
  let value ← required t "value" asString
  .ok ⟨name, value⟩

theorem ofToml_record (d : SecretEntry) : ofToml (record d.fields) = .ok d := by
  simp only [ofToml, bind_eq_ok]
  exact ⟨_, rfl, _, (required_pair (by decide) _ _).1, _, (required_pair (by decide) _ _).2, rfl⟩

theorem writable {n : Nat} (d : SecretEntry) : (record d.fields).Writable (n + 1) := by
  rw [writable_record (by simp [fields])]
  simp [fields]

end SecretEntry

namespace SecretDoc

def fields (d : SecretDoc) : List (String × Option Document) :=
  [("format", some (.string d.format)),
    ("secret", some (items (fun e => record e.fields) d.secrets))]

def ofToml (v : Document) : Except String SecretDoc := do
  let t ← asTable v
  let format ← required t "format" asString
  let secrets ← defaulted t "secret" (asList SecretEntry.ofToml) []
  .ok ⟨format, secrets⟩

theorem ofToml_record (d : SecretDoc) : ofToml (record d.fields) = .ok d := by
  have hkeys : (d.fields.map Prod.fst).Nodup := by simp [fields]
  have hsecrets : defaulted (Document.entriesOf d.fields) "secret" (asList SecretEntry.ofToml) [] =
      .ok d.secrets := by
    refine defaulted_entries (o := some (items (fun e => record e.fields) d.secrets)) hkeys
      (by simp [fields]) (fun v hv => ?_) fun hnone => by cases hnone
    rw [← Option.some.inj hv]
    exact asList_items fun e _ => e.ofToml_record
  simp only [ofToml, bind_eq_ok]
  exact ⟨_, rfl, _, required_string hkeys (by simp [fields]), _, hsecrets, rfl⟩

theorem writable {n : Nat} (d : SecretDoc) : (record d.fields).Writable (n + 3) := by
  rw [writable_record (by simp [fields])]
  simp [fields, SecretEntry.writable]

end SecretDoc

/-! ## The store -/

/-- The files of the store. -/
inductive SecretFile where
  | secrets
  | tmp
deriving DecidableEq

inductive SecretError where
  /-- A file operation failed. -/
  | io
  | text (message : String)

abbrev Secrets := FinMap String String

namespace Secrets

def names (m : Secrets) : List String := m.toList.map Prod.fst

def get (m : Secrets) (name : String) : Option String := m[name]?

def doc (m : Secrets) : SecretDoc := ⟨secretsFormat, m.toList.map fun e => ⟨e.1, e.2⟩⟩

/-- The secrets of a document; of two with one name the later. -/
def ofDoc (d : SecretDoc) : Secrets := FinMap.collect (d.secrets.map fun e => (e.name, e.value))

theorem ofDoc_doc (m : Secrets) : ofDoc m.doc = m := by
  unfold ofDoc doc
  rw [List.map_map]
  exact (congrArg FinMap.collect (List.map_id _)).trans (FinMap.collect_toList m)

end Secrets

/-- A change of the secrets. -/
inductive SecretChange where
  | set (name value : String)
  | remove (name : String)

namespace SecretChange

def name : SecretChange → String
  | set name _ => name
  | remove name => name

def apply : SecretChange → Secrets → Secrets
  | set name value, m => m.insert name value
  | remove name, m => m.erase name

/-- Whether there is something to save. -/
def needed : SecretChange → Secrets → Bool
  | set _ _, _ => true
  | remove name, m => (m[name]?).isSome

theorem apply_of_unneeded {c : SecretChange} {m : Secrets} (h : c.needed m = false) :
    c.apply m = m := by
  cases c with
  | set name value => cases h
  | remove name =>
    refine FinMap.ext fun k => ?_
    unfold apply
    rw [FinMap.get_erase]
    split_ifs with hk
    · subst hk
      exact (Option.isNone_iff_eq_none.1 (Option.isSome_eq_false_iff.1 h)).symm
    · rfl

/-- Other names keep their secrets. -/
theorem get_apply {c : SecretChange} {m : Secrets} {n : String} (h : c.name ≠ n) :
    (c.apply m).get n = m.get n := by
  unfold Secrets.get
  cases c with
  | set name value => exact FinMap.get_insert_of_ne h value
  | remove name =>
    unfold apply
    rw [FinMap.get_erase]
    exact if_neg h

end SecretChange

namespace SecretStore

variable {β : Type} (toml : TomlLibrary (List β))

/-- The secrets of a text; one that cannot be read has none. -/
def ofText (text : List β) : Secrets :=
  match toml.read text >>= SecretDoc.ofToml with
  | .ok d => Secrets.ofDoc d
  | .error _ => ∅

/-- What opening the store loads. -/
def loadFile : Option (List β) → Option Secrets
  | none => some ∅
  | some text => some (ofText toml text)

/-- Between the write and the rename the file is made its owner's. -/
def keeper : Keeper Secrets SecretFile β SecretError where
  write m := (toml.write (record m.doc.fields)).mapError .text
  load := loadFile toml
  fault := .io
  settle := 1
  tmp := .tmp
  name := .secrets
  distinct := by decide

/-- Set or remove a secret; the answer is whether there was something to
save. -/
def perform (c : SecretChange) : Fallible SecretError (Backed Secrets SecretFile β) Bool :=
  (keeper toml).alter c.needed c.apply

/-- Every set of secrets is read back from its text. -/
theorem roundTrips_keeper {toml : TomlLibrary (List β)} (htoml : toml.Lawful) (m : Secrets) :
    (keeper toml).RoundTrips m := by
  obtain ⟨text, hwrite, hread⟩ := htoml.writes _ m.doc.writable
  refine ⟨text, ?_, ?_⟩
  · simp only [keeper, hwrite, Except.mapError]
  · have hparse : (toml.read text >>= SecretDoc.ofToml) = .ok m.doc := by
      rw [bind_eq_ok]
      exact ⟨_, hread, m.doc.ofToml_record⟩
    have hback : ofText toml text = m := by
      unfold ofText
      rw [hparse]
      exact Secrets.ofDoc_doc m
    exact congrArg some hback

end SecretStore

/-! ## Runs -/

/-- The secrets of the running process, if there is one, and the directory. -/
structure SecretState (β : Type) where
  memory : Option Secrets
  dir : Directory SecretFile β

/-- A step: a change, or opening the store again. -/
inductive SecretCall where
  | change (c : SecretChange)
  | reopen

/-- A call, what happens to its file operations, and whether the process stops
where one fails, or after all of them. -/
structure SecretStep where
  call : SecretCall
  plan : List (Option Nat)
  stops : Bool

namespace SecretStore

variable {β : Type} (toml : TomlLibrary (List β))

/-- The state of a store that is opened. -/
def opened (d : Directory SecretFile β) : SecretState β := ⟨(keeper toml).reload d, d⟩

/-- The result of a change. -/
def result (m : Secrets) (d : Directory SecretFile β) (c : SecretChange)
    (plan : List (Option Nat)) :
    EStateM.Result SecretError (Faulty (Backed Secrets SecretFile β)) Bool :=
  perform toml c ⟨⟨m, d⟩, plan⟩

/-- The state a change leaves; a process that stops leaves its directory. -/
def changed (m : Secrets) (d : Directory SecretFile β) (c : SecretChange)
    (plan : List (Option Nat)) (stops : Bool) : SecretState β :=
  let after := (left (result toml m d c plan)).state
  ⟨if stops then none else some after.memory, after.dir⟩

/-- A step; without a process there are no calls but opening the store. -/
def next (s : SecretState β) (x : SecretStep) : SecretState β :=
  match x.call, s.memory with
  | .reopen, _ => ⟨if x.stops then none else (keeper toml).reload s.dir, s.dir⟩
  | .change c, some m => changed toml m s.dir c x.plan x.stops
  | .change _, none => s

def runAll (s : SecretState β) (steps : List SecretStep) : SecretState β :=
  steps.foldl (next toml) s

/-- A step that is a change by the running process, which answers. -/
structure Answered (s : SecretState β) (x : SecretStep) (m : Secrets) (c : SecretChange) :
    Prop where
  running : s.memory = some m
  call : x.call = .change c
  answers : x.stops = false

/-- A step is all or nothing: the secrets in memory are those a store opened
now has, and a call that fails leaves what can be read as it was. -/
structure AllOrNothing (s : SecretState β) (x : SecretStep) : Prop where
  synced : ∀ m, (next toml s x).memory = some m →
    (keeper toml).reload (next toml s x).dir = some m
  kept : ∀ m c, Answered s x m c → failed (result toml m s.dir c x.plan) →
    ∃ m', (next toml s x).memory = some m' ∧ m'.get = m.get ∧ m'.names = m.names

/-- Whether an answered change changes nothing, or none of its operations
fails. -/
def Carried (s : SecretState β) (x : SecretStep) : Prop :=
  ∀ m c, Answered s x m c → c.apply m = m ∨ NoFault (keeper toml).operations x.plan

/-- A secret is in the file, and in memory if there is a process. -/
structure Holds (s : SecretState β) (name value : String) : Prop where
  file : ∃ m, (keeper toml).reload s.dir = some m ∧ m.get name = some value
  memory : ∀ m, s.memory = some m → m.get name = some value

/-- A secret whose `set` succeeded is there until a later call names it. -/
def Lasting (s : SecretState β) (steps : List SecretStep) : Prop :=
  ∀ pre x post m name value, steps = pre ++ x :: post →
    Answered (runAll toml s pre) x m (.set name value) →
    ¬failed (result toml m (runAll toml s pre).dir (.set name value) x.plan) →
    (∀ y ∈ post, ∀ c, y.call = .change c → c.name ≠ name) →
    Holds toml (runAll toml s steps) name value

variable {toml}

theorem next_answered {s : SecretState β} {x : SecretStep} {m : Secrets} {c : SecretChange}
    (h : Answered s x m c) : next toml s x = changed toml m s.dir c x.plan false := by
  unfold next
  rw [h.call, h.running, h.answers]

variable {s : SecretState β} {x : SecretStep}

/-- The secrets in memory are those of the file. -/
def Synced (toml : TomlLibrary (List β)) (s : SecretState β) : Prop :=
  ∀ m, s.memory = some m → (keeper toml).reload s.dir = some m

/-- **Step, exactly.** A step on synced secrets is all or nothing if and only
if a change in it changes nothing, or none of its operations fails. -/
theorem allOrNothing_iff (htoml : toml.Lawful) (hs : Synced toml s) :
    AllOrNothing toml s x ↔ Carried toml s x := by
  have hiff : ∀ m c, Answered s x m c →
      ((keeper toml).AllOrNothing ⟨m, s.dir⟩ (result toml m s.dir c x.plan) ↔
        c.apply m = m ∨ NoFault (keeper toml).operations x.plan) := by
    intro m c h
    have hsynced : (keeper toml).Synced ⟨m, s.dir⟩ := hs m h.running
    unfold result perform
    rw [Keeper.allOrNothing_iff (fun _ m _ => roundTrips_keeper htoml m) hsynced
      fun m h => SecretChange.apply_of_unneeded h]
    simp only [roundTrips_keeper htoml, and_true]
  constructor
  · intro h m c hx
    -- a change that is wanted and meets a fault has failed, and is in memory all the same
    by_contra hnot
    obtain ⟨hne, hfault⟩ := not_or.1 hnot
    have hneed : c.needed m = true := by
      by_contra hneed
      exact hne (SecretChange.apply_of_unneeded (Bool.not_eq_true _ ▸ hneed))
    have hfailed : failed (result toml m s.dir c x.plan) := Keeper.failed_alter hneed hfault
    obtain ⟨m', hm', hget, -⟩ := h.kept m c hx hfailed
    rw [next_answered hx] at hm'
    have hmemory : m' = c.apply m := by
      rw [← Option.some.inj hm']
      exact Keeper.left_alter.1
    refine hne (FinMap.ext fun n => ?_)
    rw [← hmemory]
    exact congrFun hget n
  · intro h
    refine ⟨fun m' hm' => ?_, fun m c hx hfailed => ?_⟩
    · unfold next at hm' ⊢
      rcases hcall : x.call with c | -
      · rcases hmem : s.memory with - | m
        · rw [hcall, hmem] at hm'
          rw [hmem] at hm'
          cases hm'
        · rw [hcall, hmem] at hm'
          dsimp only at hm' ⊢
          unfold changed at hm' ⊢
          dsimp only at hm' ⊢
          split_ifs at hm' with hstops
          have hx : Answered s x m c := ⟨hmem, hcall, Bool.not_eq_true _ ▸ hstops⟩
          rw [← Option.some.inj hm']
          exact ((hiff m c hx).2 (h m c hx)).synced
      · rw [hcall] at hm'
        dsimp only at hm' ⊢
        split_ifs at hm'
        exact hm'
    · have hall := (hiff m c hx).2 (h m c hx)
      rw [next_answered hx]
      refine ⟨_, rfl, ?_⟩
      rw [(hall.kept hfailed).1]
      exact ⟨rfl, rfl⟩

/-! ## What lasts -/

variable {name value : String}

/-- A `set` that succeeded is in the file. -/
theorem holds_of_set (htoml : toml.Lawful) {m : Secrets}
    (hx : Answered s x m (.set name value))
    (hok : ¬failed (result toml m s.dir (.set name value) x.plan)) :
    Holds toml (next toml s x) name value := by
  have hsynced := Keeper.synced_of_saved (f := (SecretChange.set name value).apply) (by rfl) hok
    (roundTrips_keeper htoml _)
  have hmemory : (left (result toml m s.dir (.set name value) x.plan)).state.memory =
      m.insert name value := Keeper.left_alter.1
  have hget : Secrets.get (m.insert name value) name = some value :=
    FinMap.get_insert_self _ _ _
  rw [next_answered hx]
  refine ⟨⟨m.insert name value, ?_, hget⟩, fun m' hm' => ?_⟩
  · rw [← hmemory]
    exact hsynced
  · rw [← Option.some.inj hm', hmemory]
    exact hget

/-- A step that does not name a secret leaves it. -/
theorem Holds.next (htoml : toml.Lawful) (h : Holds toml s name value)
    (hother : ∀ c, x.call = .change c → c.name ≠ name) :
    Holds toml (next toml s x) name value := by
  obtain ⟨m₀, hreload, hfile⟩ := h.file
  unfold SecretStore.next
  rcases hcall : x.call with c | -
  · rcases hmem : s.memory with - | m
    · exact h
    · have hne := hother c hcall
      have hvalue : (c.apply m).get name = some value := by
        rw [SecretChange.get_apply hne]
        exact h.memory m hmem
      have hleft : (left (result toml m s.dir c x.plan)).state.memory = c.apply m ∧
          ((left (result toml m s.dir c x.plan)).state.dir.read .secrets = s.dir.read .secrets ∨
            ∃ text, (keeper toml).write (c.apply m) = .ok text ∧
              (left (result toml m s.dir c x.plan)).state.dir.read .secrets = some text) :=
        Keeper.left_alter
      refine ⟨?_, fun m' hm' => ?_⟩
      · -- the file is the old one or has the text of the changed secrets
        rcases hleft.2 with hsame | ⟨text, hwrite, htext⟩
        · refine ⟨m₀, ?_, hfile⟩
          rw [← hreload]
          exact congrArg (keeper toml).load hsame
        · obtain ⟨text', hwrite', hback⟩ := roundTrips_keeper htoml (c.apply m)
          obtain rfl := Except.ok.inj (hwrite'.symm.trans hwrite)
          exact ⟨c.apply m, (congrArg (keeper toml).load htext).trans hback, hvalue⟩
      · unfold changed at hm'
        dsimp only at hm'
        split_ifs at hm'
        rw [← Option.some.inj hm', hleft.1]
        exact hvalue
  · refine ⟨h.file, fun m hm => ?_⟩
    dsimp only at hm
    split_ifs at hm
    rw [← Option.some.inj (hreload.symm.trans hm)]
    exact hfile

theorem Holds.runAll (htoml : toml.Lawful) {steps : List SecretStep}
    (h : Holds toml s name value)
    (hother : ∀ y ∈ steps, ∀ c, y.call = .change c → c.name ≠ name) :
    Holds toml (runAll toml s steps) name value := by
  induction steps generalizing s with
  | nil => exact h
  | cons x steps ih =>
    exact ih (h.next htoml (hother x List.mem_cons_self))
      fun y hy => hother y (List.mem_cons_of_mem x hy)

/-- **A secret lasts**, whatever fails and wherever the process stops. -/
theorem lasting (htoml : toml.Lawful) (s : SecretState β) (steps : List SecretStep) :
    Lasting toml s steps := by
  rintro pre x post m name value rfl hx hok hother
  unfold SecretStore.runAll
  rw [List.foldl_append, List.foldl_cons]
  exact (holds_of_set htoml hx hok).runAll htoml hother

/-- **The secret store.** In a run on a store that was opened, with failing
operations and stops of the process anywhere, each step is all or nothing and
each secret that was set lasts, if and only if each change that answers
changes nothing or none of its operations fails. -/
theorem steps_allOrNothing_iff (htoml : toml.Lawful) (d : Directory SecretFile β)
    (steps : List SecretStep) :
    Along (next toml) (AllOrNothing toml) (opened toml d) steps ∧
        Lasting toml (opened toml d) steps ↔
      Along (next toml) (Carried toml) (opened toml d) steps := by
  rw [and_iff_left (lasting htoml _ steps)]
  exact along_iff (I := Synced toml) (fun s x hs => allOrNothing_iff htoml hs)
    (fun s x _ h => h.synced) (fun m hm => hm) steps

/-! ## A failed change that lasts -/

/-- A secret whose file cannot be renamed. -/
def refusedSet : SecretStep :=
  ⟨.change (.set "token" "old"), [none, none, none, none, some 0], false⟩

/-- One secret is set, the process stops while it sets another, and the store
is opened again. -/
def setThenCrash : List SecretStep :=
  [⟨.change (.set "basic" "user"), [], false⟩,
    ⟨.change (.set "token" "old"), [none, none, some 3], true⟩, ⟨.reopen, [], false⟩]

/-- The run with the crash is all or nothing and loses no secret, and the one
that starts with the refused secret is not. -/
theorem steps_allOrNothing_crash :
    (Along (next TomlLibrary.tokens) (AllOrNothing TomlLibrary.tokens)
          (opened TomlLibrary.tokens ⟨[]⟩) setThenCrash ∧
        Lasting TomlLibrary.tokens (opened TomlLibrary.tokens ⟨[]⟩) setThenCrash) ∧
      ¬ (Along (next TomlLibrary.tokens) (AllOrNothing TomlLibrary.tokens)
          (opened TomlLibrary.tokens ⟨[]⟩) (refusedSet :: setThenCrash) ∧
        Lasting TomlLibrary.tokens (opened TomlLibrary.tokens ⟨[]⟩) (refusedSet :: setThenCrash)) := by
  constructor
  · refine (steps_allOrNothing_iff TomlLibrary.lawful_tokens ⟨[]⟩ setThenCrash).2
      ⟨fun m c _ => .inr (by decide), fun m c h => ?_, fun m c h => ?_, trivial⟩
    · cases h.answers
    · cases h.call
  · intro h
    have hcarried := (steps_allOrNothing_iff TomlLibrary.lawful_tokens ⟨[]⟩ _).1 h
    rcases hcarried.1 ∅ (.set "token" "old") ⟨rfl, rfl, rfl⟩ with hsame | hfault
    · have hget := congrArg (fun m => Secrets.get m "token") hsame
      simp [SecretChange.apply, Secrets.get] at hget
    · exact absurd hfault (by decide)

/-- The call fails, and its secret can be read. -/
theorem not_allOrNothing_refusedSet :
    Answered (opened TomlLibrary.tokens ⟨[]⟩) refusedSet ∅ (.set "token" "old") ∧
      failed (result TomlLibrary.tokens ∅ ⟨[]⟩ (.set "token" "old") refusedSet.plan) ∧
      (∀ m, (next TomlLibrary.tokens (opened TomlLibrary.tokens ⟨[]⟩) refusedSet).memory = some m →
        m.get "token" = some "old") ∧
      ¬AllOrNothing TomlLibrary.tokens (opened TomlLibrary.tokens ⟨[]⟩) refusedSet := by
  have hx : Answered (opened TomlLibrary.tokens ⟨[]⟩) refusedSet ∅ (.set "token" "old") :=
    ⟨rfl, rfl, rfl⟩
  have hfault : ¬NoFault (keeper TomlLibrary.tokens).operations refusedSet.plan := by decide
  have hfailed : failed (result TomlLibrary.tokens ∅ ⟨[]⟩ (.set "token" "old") refusedSet.plan) :=
    Keeper.failed_alter rfl hfault
  have hmemory : (left (result TomlLibrary.tokens ∅ ⟨[]⟩ (.set "token" "old")
      refusedSet.plan)).state.memory = (SecretChange.set "token" "old").apply ∅ :=
    Keeper.left_alter.1
  have hlive : ∀ m, (next TomlLibrary.tokens (opened TomlLibrary.tokens ⟨[]⟩) refusedSet).memory =
      some m → m.get "token" = some "old" := by
    intro m hm
    rw [next_answered hx] at hm
    rw [← Option.some.inj hm]
    unfold Secrets.get
    rw [show (opened TomlLibrary.tokens ⟨[]⟩).dir = ⟨[]⟩ from rfl, hmemory]
    exact FinMap.get_insert_self _ _ _
  refine ⟨hx, hfailed, hlive, fun h => ?_⟩
  obtain ⟨m, hm, hget, -⟩ := h.kept ∅ _ hx hfailed
  have hfound := hlive m hm
  rw [hget] at hfound
  simp [Secrets.get] at hfound

end SecretStore

end Epiphany
