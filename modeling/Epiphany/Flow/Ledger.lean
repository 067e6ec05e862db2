import Epiphany.Common.FinMap
/-!
# The run ledger — job runs, and when a job is due

The ledger is a log of run records; the latest record of a run id is the
state of that run. When it has grown it is compacted to the newest runs and
the last success of every job. The scheduler asks it when a job last
succeeded and whether a run of it is unfinished.
-/

namespace Epiphany

/-! ## Jobs

A job is a sequence of flows with a trigger. When it is next due depends on
when it last fired, and on nothing else. -/

inductive Trigger where
  /-- Fire at this distance from the last fire. -/
  | interval (everyMillis : Nat)

structure Job where
  name : String
  steps : List String
  trigger : Trigger
  enabled : Bool

/-- When a job is next due; a job that never fired is due at once. -/
def Trigger.nextDue : Trigger → Option Nat → Nat
  | .interval _, none => 0
  | .interval everyMillis, some last => min (last + everyMillis) (2 ^ 64 - 1)

/-! ## Runs -/

inductive RunState where
  | queued
  | running
  | succeeded
  | failed
  /-- Unfinished when the process stopped. -/
  | interrupted
  | skipped
deriving DecidableEq

/-- A run in this state has not finished. -/
def RunState.isActive : RunState → Bool
  | .queued | .running => true
  | _ => false

structure RunRecord where
  id : String
  cube : String
  /-- The job, or the flow of a manual run. -/
  target : String
  isJob : Bool
  fireMillis : Nat
  state : RunState
  /-- What the run has done, when it has ended. -/
  rowsRead : Nat
  cellsWritten : Nat
  elementsAdded : Nat
  error : String
  principal : String
deriving DecidableEq

namespace RunRecord

/-- The order of compaction and of recovery: oldest first. -/
def oldestFirst (a b : RunRecord) : Prop :=
  (compareLex (compareOn fireMillis) (compareOn id) a b).isLE = true

instance : DecidableRel oldestFirst := fun _ _ => inferInstanceAs (Decidable (_ = true))

/-- The order of listings: newest first. -/
def newestFirst (a b : RunRecord) : Prop :=
  (compareLex (fun a b => compare b.fireMillis a.fireMillis) (compareOn id) a b).isLE = true

instance : DecidableRel newestFirst := fun _ _ => inferInstanceAs (Decidable (_ = true))

/-- A success of a job. -/
def succeededFor (cube job : String) (r : RunRecord) : Bool :=
  r.isJob && r.cube == cube && r.target == job && r.state == .succeeded

/-- An unfinished run of a job. -/
def activeFor (cube job : String) (r : RunRecord) : Bool :=
  r.isJob && r.cube == cube && r.target == job && r.state.isActive

/-- The record of a run that a restart found unfinished. -/
def interrupted (r : RunRecord) : RunRecord :=
  { r with state := .interrupted, error := "interrupted by restart" }

end RunRecord

/-! ## The ledger -/

/-- The position of the latest record of each run. -/
def latestIndex (records : List RunRecord) : FinMap String Nat :=
  records.zipIdx.foldl (fun m e => m.insert e.1.id e.2) ∅

/-- A ledger. Its file holds its records, in their order. -/
structure RunLedger where
  /-- How many runs a compaction retains; zero for no compaction. -/
  maxRuns : Nat
  records : List RunRecord
  latest : FinMap String Nat
  indexed : latest = latestIndex records

theorem latestIndex_concat (records : List RunRecord) (r : RunRecord) :
    latestIndex (records ++ [r]) = (latestIndex records).insert r.id records.length := by
  simp [latestIndex, List.zipIdx_append]

namespace RunLedger

def empty (maxRuns : Nat) : RunLedger := ⟨maxRuns, [], ∅, rfl⟩

/-- Take a record into the index. -/
def index (l : RunLedger) (r : RunRecord) : RunLedger where
  maxRuns := l.maxRuns
  records := l.records ++ [r]
  latest := l.latest.insert r.id l.records.length
  indexed := by rw [l.indexed, latestIndex_concat]

/-- The latest record of a run. -/
def get (l : RunLedger) (id : String) : Option RunRecord := do
  let i ← l.latest[id]?
  l.records[i]?

/-- The latest record of every run. -/
def latestRecords (l : RunLedger) : List RunRecord :=
  l.latest.toList.filterMap fun e => l.records[e.2]?

/-- When a job last succeeded. -/
def lastSucceededFire (l : RunLedger) (cube job : String) : Option Nat :=
  ((l.records.filter (RunRecord.succeededFor cube job)).map RunRecord.fireMillis).max?

/-- Whether a run of a job is unfinished. -/
def jobInFlight (l : RunLedger) (cube job : String) : Bool :=
  l.latestRecords.any (RunRecord.activeFor cube job)

/-! ### Compaction -/

/-- Twice a number, up to the largest machine word. -/
def twice (n : Nat) : Nat := min (n * 2) (2 ^ 64 - 1)

/-- Whether the ledger has outgrown its bound, in runs or in records. -/
def outgrown (l : RunLedger) : Bool :=
  let distinct := l.latest.size
  twice l.maxRuns ≤ distinct || max (twice distinct) (twice l.maxRuns) ≤ l.records.length

/-- The later of two successes, by fire time and then by id. -/
def laterSuccess (entry : Nat × String) (r : RunRecord) : Nat × String :=
  if entry.1 < r.fireMillis ∨ entry.1 = r.fireMillis ∧ entry.2 < r.id then (r.fireMillis, r.id)
  else entry

/-- The last success of a job, among the latest records. -/
def bestSuccess (l : RunLedger) (cube job : String) : Nat × String :=
  (l.latestRecords.filter (RunRecord.succeededFor cube job)).foldl laterSuccess (0, "")

/-- The newest runs, as many as a compaction retains. -/
def newest (l : RunLedger) : List RunRecord :=
  (l.latestRecords.insertionSort RunRecord.newestFirst).take l.maxRuns

/-- The ids a compaction retains. -/
def keep (l : RunLedger) : List String :=
  ((l.latestRecords.filter fun r => r.isJob && r.state == .succeeded).map fun r =>
      (l.bestSuccess r.cube r.target).2) ++
    l.newest.map RunRecord.id

/-- The records a compaction retains. -/
def retained (l : RunLedger) : List RunRecord :=
  ((l.latestRecords.insertionSort RunRecord.newestFirst).filter fun r => r.id ∈ l.keep).insertionSort
    RunRecord.oldestFirst

/-- Compact the ledger when it has outgrown its bound. -/
def enforceRetention (l : RunLedger) : RunLedger :=
  if l.maxRuns = 0 then l
  else if l.outgrown = false then l
  else if l.retained.length = l.records.length then l
  else l.retained.foldl index (empty l.maxRuns)

/-- Append a run or a transition of one. -/
def append (l : RunLedger) (r : RunRecord) : RunLedger := (l.index r).enforceRetention

/-! ### Reopening -/

/-- The records that say of unfinished runs that they were interrupted. -/
def interruptedRuns (l : RunLedger) : List RunRecord :=
  ((l.latestRecords.filter fun r => r.state.isActive).map RunRecord.interrupted).insertionSort
    RunRecord.oldestFirst

def recoverInterrupted (l : RunLedger) : RunLedger := l.interruptedRuns.foldl append l

/-- Open a file that holds these records. -/
def openWithPolicy (records : List RunRecord) (maxRuns : Nat) : RunLedger :=
  (records.foldl index (empty maxRuns)).recoverInterrupted.enforceRetention

end RunLedger

/-! ## The scheduler -/

/-- A job selected to fire. -/
structure Firing where
  cube : String
  job : String
  fireMillis : Nat
  runId : String
  /-- An unfinished run of the job takes this firing over. -/
  coalesced : Bool
deriving DecidableEq

/-- The run id of a scheduled firing. -/
def scheduledRunId (cube job : String) (fireMillis : Nat) : String :=
  "sched:" ++ cube ++ ":" ++ job ++ ":" ++ Nat.repr fireMillis

/-- The order of dispatch. -/
def dispatchOrder (a b : Nat × String × Job) : Prop :=
  (compareLex (compareOn Prod.fst)
    (compareLex (compareOn fun d => d.2.1) (compareOn fun d => d.2.2.name)) a b).isLE = true

instance : DecidableRel dispatchOrder := fun _ _ => inferInstanceAs (Decidable (_ = true))

/-- The firings due at an instant. -/
def dueFirings (jobs : List (String × Job)) (l : RunLedger) (now : Nat) : List Firing :=
  let due := (jobs.filter fun j => j.2.enabled).filterMap fun j =>
    let nextDue := j.2.trigger.nextDue (l.lastSucceededFire j.1 j.2.name)
    if nextDue ≤ now then some (nextDue, j.1, j.2) else none
  (due.insertionSort dispatchOrder).map fun d =>
    { cube := d.2.1
      job := d.2.2.name
      fireMillis := now
      runId := scheduledRunId d.2.1 d.2.2.name now
      coalesced := l.jobInFlight d.2.1 d.2.2.name }

end Epiphany
