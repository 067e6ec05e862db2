import Epiphany.Common.Runs
import Epiphany.Flow.Retention
/-!
# The scheduler — ticks and manual runs over one ledger

A tick reads the clock, selects the due firings under the ledger's lock and
then runs them one after the other, each recorded in the ledger as it goes.
A manual request runs its job at once, on another thread and without a look
at the ledger. Steps of the two interleave wherever the lock is free.
-/

namespace Epiphany

/-! ## Runs of jobs -/

/-- The run id of a manual request. -/
def manualRunId (name : String) (fireMillis : Nat) : String :=
  "manual:" ++ name ++ ":" ++ Nat.repr fireMillis

/-- The firing of a manual request. -/
def manualFiring (name : String) (fireMillis : Nat) : Firing where
  cube := ""
  job := name
  fireMillis := fireMillis
  runId := manualRunId name fireMillis
  coalesced := false

/-- A run of a job, by a manual request or by a tick. -/
structure JobRun where
  firing : Firing
  manual : Bool
  /-- Who set it off: the caller, or the scheduler's own principal. -/
  principal : String
deriving DecidableEq

def schedulerPrincipal : String := "scheduler"

namespace JobRun

def job (r : JobRun) : String := r.firing.job

def runId (r : JobRun) : String := r.firing.runId

/-- The job and the fire time. -/
def fire (r : JobRun) : String × Nat := (r.firing.job, r.firing.fireMillis)

/-- What a run has read and written, over its steps. -/
structure Totals where
  rowsRead : Nat
  cellsWritten : Nat
  elementsAdded : Nat

/-- The record of a run in a state. -/
def record (r : JobRun) (state : RunState) (agg : Totals) (error principal : String) :
    RunRecord where
  id := r.firing.runId
  cube := r.firing.cube
  target := r.firing.job
  isJob := true
  fireMillis := r.firing.fireMillis
  state := state
  rowsRead := agg.rowsRead
  cellsWritten := agg.cellsWritten
  elementsAdded := agg.elementsAdded
  error := error
  principal := principal

end JobRun

/-- How far a run has come: it is entered, recorded as queued, or recorded
as running. -/
inductive Stage where
  | entered
  | queued
  | running
deriving DecidableEq

/-- The next state to record before the steps of the job are run. -/
def Stage.next : Stage → Option (RunState × Stage)
  | .entered => some (.queued, .queued)
  | .queued => some (.running, .running)
  | .running => none

structure Execution where
  run : JobRun
  stage : Stage
deriving DecidableEq

/-- How an append to the ledger comes out. The scheduler ignores a failure. -/
inductive Appended where
  | lost
  /-- The record is written and the compaction after it fails. -/
  | uncompacted
  | kept

/-- The ledger after an append. -/
def Appended.apply (l : RunLedger) (r : RunRecord) : Appended → RunLedger
  | lost => l
  | uncompacted => l.index r
  | kept => l.append r

/-- Whether a run id is known. -/
def RunLedger.contains (l : RunLedger) (id : String) : Bool := (l.latest[id]?).isSome

/-! ## The server -/

inductive Tick where
  /-- The clock has been read and the jobs have been gathered. -/
  | gathered (now : Nat) (jobs : FinMap String Job)
  /-- These firings are left. -/
  | dispatching (waiting : List Firing)

/-- The jobs, the ledger and what runs. At most one tick is under way: the
loop waits for it. -/
structure JobServer where
  jobs : FinMap String Job
  ledger : RunLedger
  tick : Option Tick
  executing : List Execution
  /-- Every run there has been, for the record. -/
  started : List JobRun
  succeeded : List JobRun

namespace JobServer

/-- A server that has just been started. -/
def boot (jobs : FinMap String Job) (ledger : RunLedger) : JobServer :=
  ⟨jobs, ledger, none, [], [], []⟩

/-- The jobs of the store, all under the empty cube name. -/
def gatherJobs (jobs : FinMap String Job) : List (String × Job) :=
  jobs.toList.map fun e => ("", e.2)

/-- Enter a run. -/
def enter (s : JobServer) (r : JobRun) : JobServer :=
  { s with executing := ⟨r, .entered⟩ :: s.executing, started := r :: s.started }

inductive Act where
  | putJob (job : Job)
  | deleteJob (name : String)
  /-- The loop wakes and reads the clock. -/
  | wake (now : Nat)
  /-- The due firings are selected, under the lock. -/
  | select
  /-- The tick goes on to its next firing. -/
  | next
  /-- A manual request of a caller, at a reading of the clock. -/
  | runJob (name : String) (now : Nat) (principal : String)
  /-- A run records that it is queued, or that it is running. -/
  | record (i : Nat) (recorded : Appended)
  /-- The steps of a run have succeeded, or one has failed with an error, as
  the owner of its flow; and it says so. -/
  | finish (i : Nat) (agg : JobRun.Totals) (failure : Option (String × String))
    (recorded : Appended)

/-- One step; `error` when there is nothing to do. -/
def step (s : JobServer) : Act → Except Unit JobServer
  | .putJob job => .ok { s with jobs := s.jobs.insert job.name job }
  | .deleteJob name => .ok { s with jobs := s.jobs.erase name }
  | .wake now =>
    match s.tick with
    | none => .ok { s with tick := some (.gathered now s.jobs) }
    | some _ => .error ()
  | .select =>
    match s.tick with
    | some (.gathered now jobs) =>
      .ok { s with tick := some (.dispatching (dueFirings (gatherJobs jobs) s.ledger now)) }
    | _ => .error ()
  | .next =>
    match s.tick with
    | some (.dispatching waiting) =>
      -- the tick runs its firings itself, one at a time
      if s.executing.all (fun e => e.run.manual) = false then .error ()
      else
        match waiting with
        | [] => .ok { s with tick := none }
        | f :: rest =>
          if f.coalesced || s.ledger.contains f.runId then
            .ok { s with tick := some (.dispatching rest) }
          else .ok (({ s with tick := some (.dispatching rest) }).enter ⟨f, false, schedulerPrincipal⟩)
    | _ => .error ()
  | .runJob name now principal =>
    match s.jobs[name]? with
    | none => .error ()
    | some _ => .ok (s.enter ⟨manualFiring name now, true, principal⟩)
  | .record i recorded =>
    match s.executing[i]? with
    | none => .error ()
    | some e =>
      match e.stage.next with
      | none => .error ()
      | some (state, stage) =>
        .ok { s with
          ledger := recorded.apply s.ledger (e.run.record state ⟨0, 0, 0⟩ "" e.run.principal)
          executing := s.executing.set i ⟨e.run, stage⟩ }
  | .finish i agg failure recorded =>
    match s.executing[i]? with
    | none => .error ()
    | some e =>
      if e.stage ≠ .running then .error ()
      else
        match failure with
        | none =>
          .ok { s with
            ledger := recorded.apply s.ledger (e.run.record .succeeded agg "" e.run.principal)
            executing := s.executing.eraseIdx i
            succeeded := e.run :: s.succeeded }
        | some (message, owner) =>
          .ok { s with
            ledger := recorded.apply s.ledger (e.run.record .failed agg message owner)
            executing := s.executing.eraseIdx i }

/-! ## Single flight -/

/-- No job is run twice at once, no scheduled fire time of a job succeeds
twice, and no run id is used twice. -/
structure SingleFlight (s : JobServer) : Prop where
  oneRun : (s.executing.map fun e => e.run.job).Nodup
  onceEach : ((s.succeeded.filter fun r => r.manual = false).map JobRun.fire).Nodup
  ids : (s.started.map JobRun.runId).Nodup

/-- What a step has to find. A manual request: no run of the job, and no
earlier manual run of it at its reading of the clock. A tick, at a firing
that it is going to run: no manual run of the job, and no run of it by an
earlier tick with its reading of the clock. -/
def Clear (s : JobServer) : Act → Prop
  | .runJob name now _ =>
    (∀ e ∈ s.executing, e.run.job ≠ name) ∧
      ∀ r ∈ s.started, r.manual = true → r.fire ≠ (name, now)
  | .next =>
    ∀ f rest, s.tick = some (.dispatching (f :: rest)) → f.coalesced = false →
      s.ledger.contains f.runId = false →
      (∀ e ∈ s.executing, e.run.manual = true → e.run.job ≠ f.job) ∧
        ∀ r ∈ s.started, r.manual = false → r.fire ≠ (f.job, f.fireMillis)
  | _ => True

end JobServer

/-! ## Run ids -/

theorem colon_notMem_repr (n : Nat) : ':' ∉ (Nat.repr n).toList := by
  intro h
  rw [Nat.toList_repr] at h
  have hdigit := Nat.isDigit_of_mem_toDigits (by decide) (by decide) h
  revert hdigit
  decide

/-- A text is cut in one way before its last colon. -/
theorem cut_at_colon {a b c d : List Char} (hc : ':' ∉ c) (hd : ':' ∉ d)
    (h : a ++ ':' :: c = b ++ ':' :: d) : a = b ∧ c = d := by
  rcases List.append_eq_append_iff.1 h with ⟨m, rfl, hm⟩ | ⟨m, rfl, hm⟩
  · rcases m with _ | ⟨x, m⟩
    · rw [List.nil_append, List.cons.injEq] at hm
      exact ⟨(List.append_nil a).symm, hm.2⟩
    · rw [List.cons_append, List.cons.injEq] at hm
      exact absurd (hm.2 ▸ List.mem_append_right m List.mem_cons_self) hc
  · rcases m with _ | ⟨x, m⟩
    · rw [List.nil_append, List.cons.injEq] at hm
      exact ⟨List.append_nil b, hm.2.symm⟩
    · rw [List.cons_append, List.cons.injEq] at hm
      exact absurd (hm.2 ▸ List.mem_append_right m List.mem_cons_self) hd

/-- A name and a time are read back off the text that ends in them. -/
theorem suffix_inj {lead a b : String} {t u : Nat}
    (h : lead ++ a ++ ":" ++ Nat.repr t = lead ++ b ++ ":" ++ Nat.repr u) : a = b ∧ t = u := by
  have hlist := congrArg String.toList h
  simp only [String.toList_append, List.append_assoc, List.append_cancel_left_eq] at hlist
  obtain ⟨hname, htime⟩ := cut_at_colon (colon_notMem_repr t) (colon_notMem_repr u) hlist
  rw [Nat.toList_repr, Nat.toList_repr] at htime
  have hvalue := congrArg (fun digits => Nat.ofDigitChars 10 digits 0) htime
  simp only [Nat.ofDigitChars_ten_toDigits] at hvalue
  exact ⟨String.toList_inj.1 hname, hvalue⟩

theorem manualRunId_inj {name name' : String} {t u : Nat}
    (h : manualRunId name t = manualRunId name' u) : name = name' ∧ t = u :=
  suffix_inj h

theorem scheduledRunId_inj {job job' : String} {t u : Nat}
    (h : scheduledRunId "" job t = scheduledRunId "" job' u) : job = job' ∧ t = u :=
  @suffix_inj ("sched:" ++ "" ++ ":") _ _ _ _ h

theorem manualRunId_ne_scheduledRunId (name job : String) (t u : Nat) :
    manualRunId name t ≠ scheduledRunId "" job u := by
  intro h
  have hlist := congrArg String.toList h
  simp only [manualRunId, scheduledRunId, String.toList_append] at hlist
  cases hlist

/-! ## The invariant of a run -/

/-- The run id of a run is the one of its kind. -/
def JobRun.Named (r : JobRun) : Prop :=
  r.runId = if r.manual then manualRunId r.fire.1 r.fire.2 else scheduledRunId "" r.fire.1 r.fire.2

theorem JobRun.Named.eq_fire {r r' : JobRun} (h : r.Named) (h' : r'.Named)
    (hid : r.runId = r'.runId) : r.manual = r'.manual ∧ r.fire = r'.fire := by
  unfold JobRun.Named at h h'
  rw [h, h'] at hid
  rcases hm : r.manual with _ | _ <;> rcases hm' : r'.manual with _ | _ <;>
    simp only [hm, hm', if_true, Bool.false_eq_true, if_false] at hid
  · obtain ⟨hjob, htime⟩ := scheduledRunId_inj hid
    exact ⟨rfl, Prod.ext hjob htime⟩
  · exact absurd hid.symm (manualRunId_ne_scheduledRunId _ _ _ _)
  · exact absurd hid (manualRunId_ne_scheduledRunId _ _ _ _)
  · obtain ⟨hjob, htime⟩ := manualRunId_inj hid
    exact ⟨rfl, Prod.ext hjob htime⟩

/-- Two runs of one kind with one job and one time have one run id. -/
theorem JobRun.Named.eq_runId {r r' : JobRun} (h : r.Named) (h' : r'.Named)
    (hm : r.manual = r'.manual) (hfire : r.fire = r'.fire) : r.runId = r'.runId := by
  unfold JobRun.Named at h h'
  rw [h, h', hm, hfire]

namespace JobServer

variable {s next : JobServer}

/-- The firings that a tick has left. -/
def waiting (s : JobServer) : List Firing :=
  match s.tick with
  | some (.dispatching waiting) => waiting
  | _ => []

structure Inv (s : JobServer) : Prop where
  named : ∀ r ∈ s.started, r.Named
  waitingNamed : ∀ f ∈ s.waiting, JobRun.Named ⟨f, false, schedulerPrincipal⟩
  executing : ∀ e ∈ s.executing, e.run ∈ s.started ∧ e.run.runId ∉ s.succeeded.map JobRun.runId
  succeeded : ∀ r ∈ s.succeeded, r ∈ s.started
  nodup : (s.succeeded.map JobRun.runId).Nodup
  single : s.SingleFlight

theorem named_dueFirings {jobs : FinMap String Job} {l : RunLedger} {now : Nat} {f : Firing}
    (h : f ∈ dueFirings (gatherJobs jobs) l now) : JobRun.Named ⟨f, false, schedulerPrincipal⟩ := by
  obtain ⟨d, hd, rfl⟩ := List.mem_map.1 h
  rw [List.mem_insertionSort, List.mem_filterMap] at hd
  obtain ⟨j, hj, hd⟩ := hd
  obtain ⟨e, -, rfl⟩ := List.mem_map.1 (List.mem_filter.1 hj).1
  dsimp only at hd
  split_ifs at hd
  cases hd
  rfl

theorem inv_boot (jobs : FinMap String Job) (ledger : RunLedger) : (boot jobs ledger).Inv where
  named r hr := by cases hr
  waitingNamed f hf := by cases hf
  executing e he := by cases he
  succeeded r hr := by cases hr
  nodup := List.nodup_nil
  single := ⟨List.nodup_nil, List.nodup_nil, List.nodup_nil⟩

/-- Scheduled runs with distinct run ids have distinct jobs or times. -/
theorem onceEach_of_nodup {l : List JobRun} (hnamed : ∀ r ∈ l, r.Named)
    (h : (l.map JobRun.runId).Nodup) :
    ((l.filter fun r => r.manual = false).map JobRun.fire).Nodup := by
  have hsub : ((l.filter fun r => r.manual = false).map JobRun.runId).Nodup :=
    h.sublist ((List.filter_sublist).map JobRun.runId)
  rw [List.nodup_map_iff_inj_on (List.Nodup.of_map _ hsub)]
  intro r hr r' hr' hfire
  rw [List.mem_filter, decide_eq_true_eq] at hr hr'
  have hid := (hnamed r hr.1).eq_runId (hnamed r' hr'.1) (hr.2.trans hr'.2.symm) hfire
  exact List.inj_on_of_nodup_map h hr.1 hr'.1 hid

/-! ### Entering a run -/

/-- A run that is entered: when the three properties stand. -/
theorem singleFlight_enter (h : s.Inv) {r : JobRun} (hr : r.Named) :
    (s.enter r).SingleFlight ↔
      (∀ e ∈ s.executing, e.run.job ≠ r.job) ∧
        ∀ r' ∈ s.started, r'.manual = r.manual → r'.fire ≠ r.fire := by
  constructor
  · intro hs
    refine ⟨fun e he heq => ?_, fun r' hr' hm hfire => ?_⟩
    · have hone := hs.oneRun
      rw [enter, List.map_cons, List.nodup_cons] at hone
      exact hone.1 (List.mem_map.2 ⟨e, he, heq⟩)
    · have hids := hs.ids
      rw [enter, List.map_cons, List.nodup_cons] at hids
      exact hids.1 (List.mem_map.2 ⟨r', hr', (h.named r' hr').eq_runId hr hm hfire⟩)
  · rintro ⟨hjob, hfire⟩
    refine ⟨?_, h.single.onceEach, ?_⟩
    · rw [enter, List.map_cons, List.nodup_cons]
      refine ⟨fun hmem => ?_, h.single.oneRun⟩
      obtain ⟨e, he, heq⟩ := List.mem_map.1 hmem
      exact hjob e he heq
    · rw [enter, List.map_cons, List.nodup_cons]
      refine ⟨fun hmem => ?_, h.single.ids⟩
      obtain ⟨r', hr', heq⟩ := List.mem_map.1 hmem
      obtain ⟨hm, hf⟩ := (h.named r' hr').eq_fire hr heq
      exact hfire r' hr' hm hf

theorem inv_enter (h : s.Inv) {r : JobRun} (hr : r.Named) (hs : (s.enter r).SingleFlight) :
    (s.enter r).Inv where
  named r' hr' := by
    rcases List.mem_cons.1 hr' with rfl | hr'
    · exact hr
    · exact h.named r' hr'
  waitingNamed := h.waitingNamed
  executing e he := by
    rcases List.mem_cons.1 he with rfl | he
    · refine ⟨List.mem_cons_self, fun hmem => ?_⟩
      -- a run that succeeded has been started, and no started run has the id
      obtain ⟨r', hr', hid⟩ := List.mem_map.1 hmem
      have hids := hs.ids
      rw [enter, List.map_cons, List.nodup_cons] at hids
      exact hids.1 (List.mem_map.2 ⟨r', h.succeeded r' hr', hid⟩)
    · exact ⟨List.mem_cons_of_mem _ (h.executing e he).1, (h.executing e he).2⟩
  succeeded r' hr' := List.mem_cons_of_mem _ (h.succeeded r' hr')
  nodup := h.nodup
  single := hs

/-! ### A run goes on -/

theorem executing_of_set {i : Nat} {e e' : Execution} (he : s.executing[i]? = some e)
    {stage : Stage} (h : e' ∈ s.executing.set i ⟨e.run, stage⟩) :
    ∃ old ∈ s.executing, old.run = e'.run := by
  rcases List.mem_or_eq_of_mem_set h with hold | rfl
  · exact ⟨e', hold, rfl⟩
  · exact ⟨e, List.mem_of_getElem? he, rfl⟩

theorem jobs_of_set {i : Nat} {e : Execution} (he : s.executing[i]? = some e) (stage : Stage) :
    (s.executing.set i ⟨e.run, stage⟩).map (fun e => e.run.job) =
      s.executing.map fun e => e.run.job := by
  rw [List.map_set]
  apply List.ext_getElem?
  intro j
  rw [List.getElem?_set, List.getElem?_map]
  split_ifs with hij hlen
  · subst hij
    rw [he]
    rfl
  · subst hij
    rw [List.length_map, not_lt] at hlen
    rw [List.getElem?_eq_none hlen]
    rfl
  · rfl

/-- The runs beside one that ends have other jobs, so they are others. -/
theorem runId_ne_of_eraseIdx (h : s.Inv) {i : Nat} {e e' : Execution}
    (he : s.executing[i]? = some e) (he' : e' ∈ s.executing.eraseIdx i) :
    e'.run.runId ≠ e.run.runId := by
  intro hid
  have hrun : e'.run = e.run :=
    List.inj_on_of_nodup_map h.single.ids (h.executing e' (List.mem_of_mem_eraseIdx he')).1
      (h.executing e (List.mem_of_getElem? he)).1 hid
  obtain ⟨j, hji, hj⟩ := List.mem_eraseIdx_iff_getElem?.1 he'
  have hlen : i < (s.executing.map fun e => e.run.job).length := by
    rw [List.length_map]
    exact (List.getElem?_eq_some_iff.1 he).1
  have hsame : (s.executing.map fun e => e.run.job)[i]? =
      (s.executing.map fun e => e.run.job)[j]? := by
    rw [List.getElem?_map, List.getElem?_map, he, hj, Option.map_some, Option.map_some, hrun]
  exact hji ((List.getElem?_inj hlen h.single.oneRun).1 hsame).symm

/-- The states that only the executing runs, the successes, the ledger, the
jobs and the tick tell apart keep the invariant when they keep what it says
of these. -/
theorem Inv.of_parts (h : s.Inv) (hstarted : next.started = s.started)
    (hwaiting : ∀ f ∈ next.waiting, JobRun.Named ⟨f, false, schedulerPrincipal⟩)
    (hexecuting : ∀ e ∈ next.executing, (∃ old ∈ s.executing, old.run = e.run) ∧
      e.run.runId ∉ next.succeeded.map JobRun.runId)
    (hone : (next.executing.map fun e => e.run.job).Nodup)
    (hsucceeded : ∀ r ∈ next.succeeded, r ∈ s.started)
    (hnodup : (next.succeeded.map JobRun.runId).Nodup) : next.Inv where
  named := by
    rw [hstarted]
    exact h.named
  waitingNamed := hwaiting
  executing e he := by
    obtain ⟨⟨old, hold, hrun⟩, hnew⟩ := hexecuting e he
    refine ⟨?_, hnew⟩
    rw [hstarted, ← hrun]
    exact (h.executing old hold).1
  succeeded r hr := by
    rw [hstarted]
    exact hsucceeded r hr
  nodup := hnodup
  single := by
    refine ⟨hone, onceEach_of_nodup (fun r hr => h.named r (hsucceeded r hr)) hnodup, ?_⟩
    rw [hstarted]
    exact h.single.ids

/-- A step that leaves the runs and adds no firing keeps the invariant. -/
theorem Inv.of_eq (h : s.Inv) (hstarted : next.started = s.started)
    (hexecuting : next.executing = s.executing)
    (hwaiting : ∀ f ∈ next.waiting, JobRun.Named ⟨f, false, schedulerPrincipal⟩)
    (hsucceeded : next.succeeded = s.succeeded) : next.Inv := by
  refine h.of_parts hstarted hwaiting ?_ ?_ ?_ ?_
  · intro e he
    rw [hexecuting] at he
    rw [hsucceeded]
    exact ⟨⟨e, he, rfl⟩, (h.executing e he).2⟩
  · rw [hexecuting]
    exact h.single.oneRun
  · rw [hsucceeded]
    exact h.succeeded
  · rw [hsucceeded]
    exact h.nodup

theorem inv_record (h : s.Inv) {i : Nat} {e : Execution} (he : s.executing[i]? = some e)
    (stage : Stage) (ledger : RunLedger) :
    Inv { s with ledger := ledger, executing := s.executing.set i ⟨e.run, stage⟩ } := by
  refine h.of_parts rfl h.waitingNamed (fun e' he' => ?_) ?_ h.succeeded h.nodup
  · obtain ⟨old, hold, hrun⟩ := executing_of_set he he'
    refine ⟨⟨old, hold, hrun⟩, ?_⟩
    rw [← hrun]
    exact (h.executing old hold).2
  · dsimp only
    rw [jobs_of_set he]
    exact h.single.oneRun

theorem jobs_eraseIdx (h : s.Inv) (i : Nat) :
    ((s.executing.eraseIdx i).map fun e => e.run.job).Nodup :=
  h.single.oneRun.sublist ((List.eraseIdx_sublist _ _).map _)

theorem inv_failed (h : s.Inv) (i : Nat) (ledger : RunLedger) :
    Inv { s with ledger := ledger, executing := s.executing.eraseIdx i } := by
  refine h.of_parts rfl h.waitingNamed (fun e' he' => ?_) (jobs_eraseIdx h i) h.succeeded h.nodup
  have hmem := List.mem_of_mem_eraseIdx he'
  exact ⟨⟨e', hmem, rfl⟩, (h.executing e' hmem).2⟩

theorem inv_succeeded (h : s.Inv) {i : Nat} {e : Execution} (he : s.executing[i]? = some e)
    (ledger : RunLedger) :
    Inv { s with
      ledger := ledger
      executing := s.executing.eraseIdx i
      succeeded := e.run :: s.succeeded } := by
  have hrun := h.executing e (List.mem_of_getElem? he)
  refine h.of_parts rfl h.waitingNamed (fun e' he' => ?_) (jobs_eraseIdx h i) (fun r hr => ?_) ?_
  · have hmem := List.mem_of_mem_eraseIdx he'
    refine ⟨⟨e', hmem, rfl⟩, fun hold => ?_⟩
    rcases List.mem_cons.1 hold with hid | hold
    · exact runId_ne_of_eraseIdx h he he' hid
    · exact (h.executing e' hmem).2 hold
  · rcases List.mem_cons.1 hr with rfl | hr
    · exact hrun.1
    · exact h.succeeded r hr
  · exact List.nodup_cons.2 ⟨hrun.2, h.nodup⟩

/-- A step that keeps the invariant whatever it finds. -/
theorem step_of_inv {P : Prop} (hP : P) (h : next.Inv) :
    (next.SingleFlight ↔ P) ∧ (next.SingleFlight → next.Inv) :=
  ⟨⟨fun _ => hP, fun _ => h.single⟩, fun _ => h⟩

/-- The tick at its next firing. -/
theorem next_iff (h : s.Inv) {waiting : List Firing} (htick : s.tick = some (.dispatching waiting))
    (hstep : s.step .next = .ok next) :
    (next.SingleFlight ↔ s.Clear .next) ∧ (next.SingleFlight → next.Inv) := by
  have hnamed := h.waitingNamed
  unfold JobServer.waiting at hnamed
  rw [htick] at hnamed
  unfold step at hstep
  rw [htick] at hstep
  dsimp only at hstep
  split_ifs at hstep with hmanual
  rcases waiting with _ | ⟨f, rest⟩
  · cases hstep
    refine step_of_inv (fun f rest hf => ?_) (h.of_eq rfl rfl (fun f hf => by cases hf) rfl)
    rw [htick] at hf
    cases hf
  · dsimp only at hstep
    have hrest : ∀ g ∈ rest, JobRun.Named ⟨g, false, schedulerPrincipal⟩ :=
      fun g hg => hnamed g (List.mem_cons_of_mem _ hg)
    have hmid : Inv { s with tick := some (.dispatching rest) } := h.of_eq rfl rfl hrest rfl
    split_ifs at hstep with hskip
    · cases hstep
      refine step_of_inv (fun g rest' hg hfree hnew => ?_) hmid
      rw [htick] at hg
      cases hg
      rw [hfree, hnew] at hskip
      cases hskip
    · cases hstep
      have hfnamed := hnamed f List.mem_cons_self
      refine ⟨?_, inv_enter hmid hfnamed⟩
      rw [singleFlight_enter hmid hfnamed]
      obtain ⟨hfree, hnew⟩ : f.coalesced = false ∧ s.ledger.contains f.runId = false := by
        simpa using hskip
      -- every run beside the tick's own is a manual one
      have hall : ∀ e ∈ s.executing, e.run.manual = true := by
        simpa using hmanual
      constructor
      · rintro ⟨hjob, hfire⟩ g rest' hg - -
        rw [htick] at hg
        cases hg
        exact ⟨fun e he _ => hjob e he, hfire⟩
      · intro hclear
        obtain ⟨hjob, hfire⟩ := hclear f rest htick hfree hnew
        exact ⟨fun e he => hjob e he (hall e he), hfire⟩

/-- **Step.** The properties stand after a step exactly when it found what
it has to find. -/
theorem step_iff (h : s.Inv) {a : Act} (hstep : s.step a = .ok next) :
    (next.SingleFlight ↔ s.Clear a) ∧ (next.SingleFlight → next.Inv) := by
  -- only a firing that enters its run, in `next` or `runJob`, can break the property
  cases a with
  | putJob job =>
    cases hstep
    exact step_of_inv trivial (h.of_eq rfl rfl h.waitingNamed rfl)
  | deleteJob name =>
    cases hstep
    exact step_of_inv trivial (h.of_eq rfl rfl h.waitingNamed rfl)
  | wake now =>
    unfold step at hstep
    dsimp only at hstep
    rcases htick : s.tick with _ | tick
    · rw [htick] at hstep
      cases hstep
      exact step_of_inv trivial (h.of_eq rfl rfl (fun f hf => by cases hf) rfl)
    · rw [htick] at hstep
      cases hstep
  | select =>
    unfold step at hstep
    dsimp only at hstep
    rcases htick : s.tick with _ | ⟨now, jobs⟩ | waiting
    · rw [htick] at hstep
      cases hstep
    · rw [htick] at hstep
      cases hstep
      exact step_of_inv trivial (h.of_eq rfl rfl (fun f hf => named_dueFirings hf) rfl)
    · rw [htick] at hstep
      cases hstep
  | next =>
    rcases htick : s.tick with _ | ⟨now, jobs⟩ | waiting
    · unfold step at hstep
      rw [htick] at hstep
      cases hstep
    · unfold step at hstep
      rw [htick] at hstep
      cases hstep
    · exact next_iff h htick hstep
  | runJob name now principal =>
    unfold step at hstep
    dsimp only at hstep
    rcases hjob : s.jobs[name]? with _ | job
    · rw [hjob] at hstep
      cases hstep
    · rw [hjob] at hstep
      cases hstep
      have hnamed : JobRun.Named ⟨manualFiring name now, true, principal⟩ := rfl
      exact ⟨singleFlight_enter h hnamed, inv_enter h hnamed⟩
  | record i recorded =>
    unfold step at hstep
    dsimp only at hstep
    rcases he : s.executing[i]? with _ | e
    · rw [he] at hstep
      cases hstep
    · rw [he] at hstep
      dsimp only at hstep
      rcases hstage : e.stage.next with _ | ⟨state, stage⟩
      · rw [hstage] at hstep
        cases hstep
      · rw [hstage] at hstep
        cases hstep
        exact step_of_inv trivial (inv_record h he stage _)
  | finish i agg failure recorded =>
    unfold step at hstep
    dsimp only at hstep
    rcases he : s.executing[i]? with _ | e
    · rw [he] at hstep
      cases hstep
    · rw [he] at hstep
      dsimp only at hstep
      split_ifs at hstep
      rcases failure with _ | ⟨message, owner⟩
      · cases hstep
        exact step_of_inv trivial (inv_succeeded h he _)
      · cases hstep
        exact step_of_inv trivial (inv_failed h i _)

/-! ## Runs of the server -/

/-- **Single flight.** In a run of ticks, manual requests and changes of the
jobs, the properties hold in every state exactly when each request and each
dispatched firing finds what it has to find. -/
theorem singleFlight_iff (jobs : FinMap String Job) (ledger : RunLedger) (acts : List Act) :
    (∀ pre, pre <+: acts → (runCalls step (boot jobs ledger) pre).SingleFlight) ↔
      Meets step Clear (boot jobs ledger) acts :=
  run_iff (fun _ h => h.single) (fun _ _ _ h hstep => step_iff h hstep) (inv_boot jobs ledger) acts

/-! ### What the ledger takes care of -/

/-- A run that the ledger shows unfinished holds a selected firing back. -/
theorem coalesced_of_active {jobs : List (String × Job)} {l : RunLedger} {now : Nat} {r : RunRecord}
    {f : Firing} (hf : f ∈ dueFirings jobs l now) (hr : l.get r.id = some r)
    (hactive : r.activeFor f.cube f.job = true) : f.coalesced = true := by
  obtain ⟨d, -, rfl⟩ := List.mem_map.1 hf
  exact List.any_eq_true.2 ⟨r, RunLedger.mem_latestRecords.2 hr, hactive⟩

/-- One job, due every second. -/
def nightly : FinMap String Job :=
  FinMap.collect [("nightly", ⟨"nightly", ["load"], .interval 1000, true⟩)]

/-- The tick selects the job, a manual request runs it, and the tick comes
to its firing. -/
def kickedBetween : List Act :=
  [.wake 5000, .select, .runJob "nightly" 5001 "ann", .record 0 .kept, .record 0 .kept, .next]

/-- **A tick joins a run in flight.** What it selected before the request
it dispatches without another look. -/
theorem not_singleFlight_kickedBetween : ¬ ∀ pre, pre <+: kickedBetween →
    (runCalls step (boot nightly (RunLedger.empty 0)) pre).SingleFlight := by
  intro h
  have hone := (h kickedBetween List.prefix_rfl).oneRun
  revert hone
  decide +kernel

end JobServer

end Epiphany
