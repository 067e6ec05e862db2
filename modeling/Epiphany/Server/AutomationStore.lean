import Epiphany.Common.MemoryFirst
import Epiphany.Persist.Store
import Epiphany.Server.AutomationText
/-!
# The automation store — ten changes of one file

The store keeps all automation objects in one file and changes them in memory
first. A call is all or nothing exactly if it changes no object, or no
operation on the files fails and the changed objects are read back from their
text (`calls_allOrNothing_iff`): after any other call the change stands in
memory, the call has failed or the file says something else.
-/

namespace Epiphany

open Fallible

/-- The files of the store. -/
inductive AutomationFile where
  | model
  | tmp
deriving DecidableEq

abbrev AutomationStore (β : Type) := Backed (Automation ConnectionSpec) AutomationFile β

namespace AutomationStore

variable {β : Type} (toml : TomlLibrary (List β))

/-- What opening the store loads: the file if there is one. -/
def loadFile : Option (List β) → Option (Automation ConnectionSpec)
  | some text => (Automation.fromModelText toml text).toOption
  | none => some Automation.empty

def keeper : Keeper (Automation ConnectionSpec) AutomationFile β PersistError where
  write a := (a.toModelText toml).mapError .save
  load := loadFile toml
  fault := .io
  settle := 0
  tmp := .tmp
  name := .model
  distinct := by decide

/-- Open the store of a directory. -/
def openStore (d : Directory AutomationFile β) : Except PersistError (AutomationStore β) :=
  (okOr ((keeper toml).reload d) (.load "invalid automation file")).map fun a => ⟨a, d⟩

/-! ## The changes -/

/-- A change that is always saved. -/
def define (f : Automation ConnectionSpec → Automation ConnectionSpec) :
    Fallible PersistError (AutomationStore β) Bool := (keeper toml).alter (fun _ => true) f

/-- A removal, saved if there was something to remove. -/
def delete (present : Automation ConnectionSpec → Bool)
    (f : Automation ConnectionSpec → Automation ConnectionSpec) :
    Fallible PersistError (AutomationStore β) Bool := (keeper toml).alter present f

def replace (automation : Automation ConnectionSpec) := define toml fun _ => automation

def defineFlow (flow : Flow ConnectionSpec) :=
  define toml fun a => { a with flows := a.flows.insert flow.name flow }

def deleteFlow (name : String) :=
  delete toml (fun a => (a.flows[name]?).isSome) fun a => { a with flows := a.flows.erase name }

def defineFlowTest (test : FlowTest) :=
  define toml fun a => { a with flowTests := a.flowTests.insert test.name test }

def deleteFlowTest (name : String) :=
  delete toml (fun a => (a.flowTests[name]?).isSome)
    fun a => { a with flowTests := a.flowTests.erase name }

def defineConnection (connection : Connection ConnectionSpec) :=
  define toml fun a => { a with connections := a.connections.insert connection.name connection }

def deleteConnection (name : String) :=
  delete toml (fun a => (a.connections[name]?).isSome)
    fun a => { a with connections := a.connections.erase name }

def defineJob (job : Job) := define toml fun a => { a with jobs := a.jobs.insert job.name job }

def deleteJob (name : String) :=
  delete toml (fun a => (a.jobs[name]?).isSome) fun a => { a with jobs := a.jobs.erase name }

end AutomationStore

/-- A call of the store, and what happens to its operations on the files. -/
structure AutomationCall where
  /-- The change; none replaces all objects. -/
  edit : AutomationEdit ⊕ Automation ConnectionSpec
  plan : List (Option Nat)

namespace AutomationCall

/-- The objects after a call that is carried out. -/
def change (c : AutomationCall) (a : Automation ConnectionSpec) : Automation ConnectionSpec :=
  match c.edit with
  | .inl e => a.edit e
  | .inr automation => automation

/-- Whether a call changes objects that it has to save. -/
def needed (c : AutomationCall) (a : Automation ConnectionSpec) : Bool :=
  match c.edit with
  | .inl (.deleteFlow name) => (a.flows[name]?).isSome
  | .inl (.deleteFlowTest name) => (a.flowTests[name]?).isSome
  | .inl (.deleteConnection name) => (a.connections[name]?).isSome
  | .inl (.deleteJob name) => (a.jobs[name]?).isSome
  | _ => true

/-- Erasing what is not there. -/
theorem erase_of_none {α : Type} {m : FinMap String α} {name : String}
    (h : (m[name]?).isSome = false) : m.erase name = m := by
  refine FinMap.ext fun k => ?_
  rw [FinMap.get_erase]
  split_ifs with hk
  · subst hk
    exact (Option.isSome_eq_false_iff.1 h |> Option.isNone_iff_eq_none.1).symm
  · rfl

theorem change_of_unneeded {c : AutomationCall} {a : Automation ConnectionSpec}
    (h : c.needed a = false) : c.change a = a := by
  obtain ⟨edit, plan⟩ := c
  unfold needed at h
  unfold change
  rcases edit with (flow | name | test | name | connection | name | job | name) | automation
  all_goals dsimp only at h ⊢
  · cases h
  · rw [Automation.edit, erase_of_none h]
  · cases h
  · rw [Automation.edit, erase_of_none h]
  · cases h
  · rw [Automation.edit, erase_of_none h]
  · cases h
  · rw [Automation.edit, erase_of_none h]
  · cases h

end AutomationCall

namespace AutomationStore

variable {β : Type} (toml : TomlLibrary (List β))

def perform (edit : AutomationEdit ⊕ Automation ConnectionSpec) :
    Fallible PersistError (AutomationStore β) Bool :=
  match edit with
  | .inl (.defineFlow flow) => defineFlow toml flow
  | .inl (.deleteFlow name) => deleteFlow toml name
  | .inl (.defineFlowTest test) => defineFlowTest toml test
  | .inl (.deleteFlowTest name) => deleteFlowTest toml name
  | .inl (.defineConnection connection) => defineConnection toml connection
  | .inl (.deleteConnection name) => deleteConnection toml name
  | .inl (.defineJob job) => defineJob toml job
  | .inl (.deleteJob name) => deleteJob toml name
  | .inr automation => replace toml automation

/-- The result of a call. -/
def call (s : AutomationStore β) (c : AutomationCall) :
    EStateM.Result PersistError (Faulty (AutomationStore β)) Bool := perform toml c.edit ⟨s, c.plan⟩

/-- The store a call leaves. -/
def next (s : AutomationStore β) (c : AutomationCall) : AutomationStore β :=
  (left (call toml s c)).state

/-- Whether a call changes nothing, or is carried out and read back. -/
def Settled (s : AutomationStore β) (c : AutomationCall) : Prop :=
  c.change s.memory = s.memory ∨
    NoFault (keeper toml).operations c.plan ∧ (c.change s.memory).Built

/-- Each call changes the objects and saves them where it has to. -/
theorem perform_eq (c : AutomationCall) :
    perform toml c.edit = (keeper toml).alter c.needed c.change := by
  obtain ⟨edit, plan⟩ := c
  rcases edit with (flow | name | test | name | connection | name | job | name) | automation
  all_goals rfl

variable {toml}

/-- What has a text that it is read back from. -/
theorem roundTrips_keeper_iff (htoml : toml.Lawful) {a : Automation ConnectionSpec} :
    (keeper toml).RoundTrips a ↔ a.Built := by
  constructor
  · rintro ⟨text, -, hload⟩
    simp only [keeper, loadFile] at hload
    rcases hread : Automation.fromModelText toml text with e | b
    · rw [hread] at hload
      cases hload
    · rw [hread] at hload
      obtain rfl := Option.some.inj hload
      exact Automation.built_of_fromModelText hread
  · intro ha
    obtain ⟨text, hwrite, hread⟩ := ha.rereads htoml
    refine ⟨text, ?_, ?_⟩
    · simp only [keeper, hwrite, Except.mapError]
    · simp only [keeper, loadFile, hread, Except.toOption]

/-- Whatever is loaded is read back from its own text. -/
theorem roundTrips_of_load (htoml : toml.Lawful) (content : Option (List β))
    (a : Automation ConnectionSpec) (h : (keeper toml).load content = some a) :
    (keeper toml).RoundTrips a := by
  rw [roundTrips_keeper_iff htoml]
  rcases content with - | text
  · rw [← Option.some.inj h]
    exact Automation.Built.empty
  · simp only [keeper, loadFile] at h
    rcases hread : Automation.fromModelText toml text with e | b
    · rw [hread] at h
      cases h
    · rw [hread] at h
      obtain rfl := Option.some.inj h
      exact Automation.built_of_fromModelText hread

/-- **The automation store.** In a run of calls on a store that was opened,
each call is all or nothing if and only if each of them changes nothing, or
none of its operations fails and every object it leaves stands under its name,
with numbers of their machine types. -/
theorem calls_allOrNothing_iff (htoml : toml.Lawful) {d : Directory AutomationFile β}
    {s : AutomationStore β} (hopen : openStore toml d = .ok s) (calls : List AutomationCall) :
    Along (next toml) (fun s c => (keeper toml).AllOrNothing s (call toml s c)) s calls ↔
      Along (next toml) (Settled toml) s calls := by
  have hs : (keeper toml).Synced s := by
    obtain ⟨a, ha, rfl⟩ := map_eq_ok.1 hopen
    exact okOr_eq_ok.1 ha
  refine along_iff (I := (keeper toml).Synced) (fun s c hs => ?_) (fun s c _ h => h.synced) hs calls
  unfold call Settled
  rw [perform_eq, Keeper.allOrNothing_iff (roundTrips_of_load htoml) hs
    fun a h => AutomationCall.change_of_unneeded h, roundTrips_keeper_iff htoml]

/-- The store of an empty directory. -/
def blank : AutomationStore β := ⟨Automation.empty, ⟨[]⟩⟩

theorem openStore_blank : openStore TomlLibrary.tokens ⟨[]⟩ = .ok blank := rfl

/-- A definition of a flow whose file cannot be renamed. -/
def failing : AutomationCall :=
  ⟨.inl (.defineFlow ⟨"load", "", none, none, []⟩), [none, none, none, some 0]⟩

/-- A definition that is saved, of a job whose period has no signed 64-bit
integer, and removals of what is not there, whose files would fail. -/
def savedCalls : List AutomationCall :=
  [⟨.inl (.deleteFlow "load"), [some 0]⟩,
    ⟨.inl (.defineJob ⟨"once", [], .interval (2 ^ 63), true⟩), [none, none, none, none]⟩]

/-- The saved calls are all or nothing, and the failing one after them is
not. -/
theorem calls_allOrNothing_blank :
    Along (next TomlLibrary.tokens)
      (fun s c => (keeper TomlLibrary.tokens).AllOrNothing s (call TomlLibrary.tokens s c)) blank
      savedCalls ∧
    ¬ Along (next TomlLibrary.tokens)
      (fun s c => (keeper TomlLibrary.tokens).AllOrNothing s (call TomlLibrary.tokens s c)) blank
      (savedCalls ++ [failing]) := by
  have hfirst : (next TomlLibrary.tokens blank ⟨.inl (.deleteFlow "load"), [some 0]⟩).memory =
      Automation.empty := rfl
  have hjob : (AutomationEdit.defineJob ⟨"once", [], .interval (2 ^ 63), true⟩).Fits :=
    (by decide : 2 ^ 63 < 2 ^ 64)
  have hsettled : Along (next TomlLibrary.tokens) (Settled TomlLibrary.tokens) blank savedCalls := by
    refine ⟨.inl (AutomationCall.change_of_unneeded rfl), .inr ⟨by decide, ?_⟩, trivial⟩
    rw [hfirst]
    exact Automation.Built.empty.edit hjob
  refine ⟨(calls_allOrNothing_iff TomlLibrary.lawful_tokens openStore_blank _).2 hsettled, ?_⟩
  intro h
  obtain ⟨-, -, hfail, -⟩ :=
    (calls_allOrNothing_iff TomlLibrary.lawful_tokens openStore_blank _).1 h
  rcases hfail with hsame | ⟨hfault, -⟩
  · have hmissing : ((next TomlLibrary.tokens (next TomlLibrary.tokens blank
        ⟨.inl (.deleteFlow "load"), [some 0]⟩) ⟨.inl (.defineJob ⟨"once", [], .interval (2 ^ 63),
          true⟩), [none, none, none, none]⟩).memory.flows["load"]?).isSome = false := rfl
    rw [← hsame] at hmissing
    simp [failing, AutomationCall.change, Automation.edit] at hmissing
  · exact absurd hfault (by decide)

/-- The definition fails, and the flow is live. -/
theorem flow_kept_of_failed :
    failed (call TomlLibrary.tokens blank failing) ∧
      (next TomlLibrary.tokens blank failing).memory.flows["load"]? ≠ none ∧
      ¬(keeper TomlLibrary.tokens).AllOrNothing blank (call TomlLibrary.tokens blank failing) := by
  have hfault : ¬NoFault (keeper TomlLibrary.tokens).operations failing.plan := by decide
  have hfailed : failed (call TomlLibrary.tokens blank failing) := by
    unfold call
    rw [perform_eq]
    exact Keeper.failed_alter rfl hfault
  have hmemory : (next TomlLibrary.tokens blank failing).memory =
      failing.change Automation.empty := by
    unfold next call
    rw [perform_eq]
    exact Keeper.left_alter.1
  have hlive : (next TomlLibrary.tokens blank failing).memory.flows["load"]? ≠ none := by
    rw [hmemory]
    simp [failing, AutomationCall.change, Automation.edit]
  refine ⟨hfailed, hlive, fun h => hlive ?_⟩
  rw [show (next TomlLibrary.tokens blank failing).memory = _ from (h.kept hfailed).1]
  simp [blank, Automation.empty]

end AutomationStore

end Epiphany
