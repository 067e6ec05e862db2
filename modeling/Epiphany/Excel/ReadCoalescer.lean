import Epiphany.Common.Digits
import Epiphany.Common.FinMap
import Epiphany.Common.Runs
import Epiphany.Core.Value
/-!
# Read coalescer — the reads of one recalculation, asked for together

A cell's read waits in the bucket of its client and cube. When the timer
fires, each bucket becomes one request, and a request that fails is followed
by one request for each cell. Requests of several buckets, unsubscriptions
and the switch of a client's sandbox interleave: the sandbox is read when a
request is built. Subscriptions, unsubscriptions and the ribbon's calls come
from the one main thread of Excel, so none of them falls inside another.
-/

namespace Epiphany

/-- The names of a cell's dimensions and members. -/
abbrev ReadCoord := List (String × String)

/-- What a request for one cell brings: the value, which may be absent, or the
message of what failed. -/
abbrev CellReply := Except String (Option String)

/-- What the add-in runs against: the hash of a key, by its client, cube and
sandbox, and the cells of the server's versions under the header of a
sandbox. -/
structure ExcelHost where
  hash : Nat → String → String → Nat
  server : Nat → Option String → String → ReadCoord → CellReply

/-- The key of a bucket. The sandbox is that of the client, when it is looked
at. -/
structure BatchKey where
  client : Nat
  cube : String
deriving DecidableEq

inductive ReadState where
  | live
  | cancelled
  | delivered
deriving DecidableEq

/-- A subscribed read, with the sandbox of its client and the server's version
when it was subscribed. -/
structure PendingRead where
  key : BatchKey
  coord : ReadCoord
  sandbox : Option String
  since : Nat

/-- An entry of the dictionary of pending reads, with the hash that its key had
when it was entered. -/
structure ReadBucket where
  hash : Nat
  key : BatchKey
  reads : List Nat

/-- A request for the cells of a batch, or for one cell of a batch that failed. -/
inductive ReadRequest where
  | batch (live : List Nat)
  | cell (id : Nat) (later : List Nat)

/-- Where the task of a batch stands. -/
inductive ReadPhase where
  /-- It looks for the reads that are not cancelled. -/
  | sweep (live rest : List Nat)
  | build (request : ReadRequest)
  | flight (header : Option String) (request : ReadRequest)
  | deliver (cells : List (Nat × CellReply)) (later : List Nat)
  /-- It falls back to a request for each cell. -/
  | fallBack (later : List Nat)

structure ReadBatch where
  key : BatchKey
  phase : ReadPhase

/-- The coalescer, its clients and the server; what was delivered, and the
messages of the requests that failed on the way. -/
structure ReadCoalescer where
  sandbox : Nat → Option String
  reads : FinMap Nat PendingRead
  state : Nat → ReadState
  pending : List ReadBucket
  armed : Bool
  batches : List ReadBatch
  /-- The reads that an unsubscription has marked and not yet removed. -/
  disposing : List Nat
  version : Nat
  failures : List String
  delivered : List (Nat × CellReply)

inductive ReadStep where
  | subscribe (id : Nat) (key : BatchKey) (coord : ReadCoord)
  | dispose (id : Nat)
  | remove (id : Nat)
  | onSandboxChanged (client : Nat) (text : String)
  | flush
  /-- The server's cells change. -/
  | commit
  /-- The server answers the request of a batch. -/
  | serve (i : Nat)
  /-- The request of a batch fails on the way. -/
  | fail (i : Nat) (message : String)
  /-- The task of a batch goes on. -/
  | go (i : Nat)

/-- The header that names a sandbox. -/
def sandboxHeader (sandbox : Option String) : Option String := sandbox.filter (· ≠ "")

namespace ReadRequest

def reads : ReadRequest → List Nat
  | batch live => live
  | cell id _ => [id]

def later : ReadRequest → List Nat
  | batch _ => []
  | cell _ later => later

/-- Each read with the value at its position. -/
def answered (r : ReadRequest) (values : List (Option String)) : ReadPhase :=
  .deliver (r.reads.mapIdx fun i id => (id, .ok ((values[i]?).getD none))) r.later

/-- A batch of one read shows the error; a larger one is read again. -/
def rejected (message : String) : ReadRequest → ReadPhase
  | batch [id] => .deliver [(id, .error message)] []
  | batch live => .fallBack live
  | cell id later => .deliver [(id, .error message)] later

end ReadRequest

/-- The reads that a task is still about. -/
def ReadPhase.reads : ReadPhase → List Nat
  | sweep live rest => live ++ rest
  | build request => request.reads ++ request.later
  | flight _ request => request.reads ++ request.later
  | deliver cells later => cells.map Prod.fst ++ later
  | fallBack later => later

namespace ReadPhase

@[simp]
theorem reads_sweep (live rest : List Nat) : (sweep live rest).reads = live ++ rest := rfl

@[simp]
theorem reads_build (r : ReadRequest) : (build r).reads = r.reads ++ r.later := rfl

@[simp]
theorem reads_flight (header : Option String) (r : ReadRequest) :
    (flight header r).reads = r.reads ++ r.later := rfl

@[simp]
theorem reads_deliver (cells : List (Nat × CellReply)) (later : List Nat) :
    (deliver cells later).reads = cells.map Prod.fst ++ later := rfl

@[simp]
theorem reads_fallBack (later : List Nat) : (fallBack later).reads = later := rfl

end ReadPhase

namespace ReadCoalescer

variable (h : ExcelHost) (s : ReadCoalescer)

def start (sandbox : Nat → Option String) : ReadCoalescer :=
  { sandbox := sandbox, reads := ∅, state := fun _ => .live, pending := [], armed := false,
    batches := [], disposing := [], version := 0, failures := [], delivered := [] }

/-! ## The dictionary -/

def hashOf (k : BatchKey) : Nat := h.hash k.client k.cube ((s.sandbox k.client).getD "")

def keyEquals (a b : BatchKey) : Bool :=
  a.client = b.client && a.cube = b.cube && s.sandbox a.client = s.sandbox b.client

/-- Whether a lookup of a key stops at an entry. -/
def finds (k : BatchKey) (b : ReadBucket) : Bool := b.hash = s.hashOf h k && s.keyEquals b.key k

/-- Add a read to the bucket of its key, a new one if there is none. -/
def enter (k : BatchKey) (id : Nat) : List ReadBucket → List ReadBucket
  | [] => [⟨s.hashOf h k, k, [id]⟩]
  | b :: rest =>
    if s.finds h k b then { b with reads := b.reads ++ [id] } :: rest else b :: enter k id rest

/-- Take a read out of the bucket of its key, which goes when it is empty. -/
def leave (k : BatchKey) (id : Nat) : List ReadBucket → List ReadBucket
  | [] => []
  | b :: rest =>
    if s.finds h k b then
      if b.reads.erase id = [] then rest else { b with reads := b.reads.erase id } :: rest
    else b :: leave k id rest

/-! ## The calls -/

def enqueue (id : Nat) (key : BatchKey) (coord : ReadCoord) : ReadCoalescer :=
  { s with
    reads := s.reads.insert id ⟨key, coord, s.sandbox key.client, s.version⟩
    pending := s.enter h key id s.pending
    armed := true }

/-- Mark a read unsubscribed, unless it is delivered. -/
def markCancelled (id : Nat) : ReadCoalescer :=
  if s.state id = .live then { s with state := Function.update s.state id .cancelled } else s

def cancel (id : Nat) (key : BatchKey) : ReadCoalescer :=
  { s with pending := s.leave h key id s.pending, disposing := s.disposing.erase id }

def onSandboxChanged (client : Nat) (text : String) : ReadCoalescer :=
  let trimmed := Digits.trim text.toList
  { s with
    sandbox := Function.update s.sandbox client
      (if trimmed = [] then none else some (String.ofList trimmed)) }

/-- Take every queued read, and start the task of each bucket. -/
def flush : ReadCoalescer :=
  { s with
    pending := []
    armed := false
    batches := s.batches ++ s.pending.map fun b => ⟨b.key, .sweep [] b.reads⟩ }

/-- Push what was read to a cell, unless its read is delivered or cancelled. -/
def deliver (id : Nat) (reply : CellReply) : ReadCoalescer :=
  if s.state id = .live then
    { s with
      state := Function.update s.state id .delivered
      delivered := s.delivered ++ [(id, reply)] }
  else s

/-! ## The tasks -/

/-- What the server has for a read. -/
def valueOf (header : Option String) (cube : String) (id : Nat) : CellReply :=
  h.server s.version header cube (((s.reads[id]?).map PendingRead.coord).getD [])

/-- The answer to a request, on one version: one cell that fails fails it. -/
def answer (header : Option String) (cube : String) (request : ReadRequest) : ReadPhase :=
  match request.reads.mapM (s.valueOf h header cube) with
  | .ok values => request.answered values
  | .error message => request.rejected message

/-- A step of a task: what it pushes, and where it stands then. -/
def proceed (b : ReadBatch) : Except Unit (ReadCoalescer × List ReadBatch) :=
  match b.phase with
  | .sweep live (id :: rest) =>
    .ok (s, [⟨b.key, .sweep (if s.state id = .cancelled then live else live ++ [id]) rest⟩])
  | .sweep [] [] => .ok (s, [])
  | .sweep live [] => .ok (s, [⟨b.key, .build (.batch live)⟩])
  | .build request =>
    .ok (s, [⟨b.key, .flight (sandboxHeader (s.sandbox b.key.client)) request⟩])
  | .flight _ _ => .error ()
  | .deliver ((id, reply) :: cells) later =>
    .ok (s.deliver id reply, [⟨b.key, .deliver cells later⟩])
  | .deliver [] later => .ok (s, [⟨b.key, .fallBack later⟩])
  | .fallBack [] => .ok (s, [])
  | .fallBack (id :: later) =>
    .ok (s, [⟨b.key, if s.state id = .cancelled then .fallBack later else .build (.cell id later)⟩])

def served (b : ReadBatch) : Except Unit (ReadCoalescer × List ReadBatch) :=
  match b.phase with
  | .flight header request => .ok (s, [⟨b.key, s.answer h header b.key.cube request⟩])
  | _ => .error ()

def failed (message : String) (b : ReadBatch) : Except Unit (ReadCoalescer × List ReadBatch) :=
  match b.phase with
  | .flight _ request =>
    .ok ({ s with failures := message :: s.failures }, [⟨b.key, request.rejected message⟩])
  | _ => .error ()

/-- Let one task make a step. -/
def resume (i : Nat) (f : ReadBatch → Except Unit (ReadCoalescer × List ReadBatch)) :
    Except Unit ReadCoalescer := do
  let b ← okOr s.batches[i]? ()
  let (next, left) ← f b
  .ok { next with batches := s.batches.take i ++ left ++ s.batches.drop (i + 1) }

/-- A step; one that cannot be made now is refused. -/
def step (s : ReadCoalescer) : ReadStep → Except Unit ReadCoalescer
  | .subscribe id key coord =>
    if s.reads[id]?.isNone then .ok (s.enqueue h id key coord) else .error ()
  | .dispose id =>
    if s.reads[id]?.isSome then
      .ok { s.markCancelled id with disposing := id :: s.disposing }
    else .error ()
  | .remove id =>
    match s.reads[id]? with
    | some r => if id ∈ s.disposing then .ok (s.cancel h id r.key) else .error ()
    | none => .error ()
  | .onSandboxChanged client text => .ok (s.onSandboxChanged client text)
  | .flush => if s.armed then .ok s.flush else .error ()
  | .commit => .ok { s with version := s.version + 1 }
  | .serve i => s.resume i (s.served h)
  | .fail i message => s.resume i (s.failed message)
  | .go i => s.resume i s.proceed

def run (sandbox : Nat → Option String) (steps : List ReadStep) : ReadCoalescer :=
  runCalls (step h) (start sandbox) steps

/-- The reads that a step builds a request for, with the key of their bucket. -/
def built (s : ReadCoalescer) : ReadStep → List (BatchKey × Nat)
  | .go i =>
    match s.batches[i]? with
    | some ⟨key, .build request⟩ => request.reads.map fun id => (key, id)
    | _ => []
  | _ => []

/-! ## What a step of a task does -/

variable {h s}

theorem resume_eq_ok {next : ReadCoalescer} {i : Nat}
    {f : ReadBatch → Except Unit (ReadCoalescer × List ReadBatch)}
    (hok : s.resume i f = .ok next) :
    ∃ b q, s.batches[i]? = some b ∧ f b = .ok q ∧
      next = { q.1 with batches := s.batches.take i ++ q.2 ++ s.batches.drop (i + 1) } := by
  unfold resume at hok
  obtain ⟨b, hb, hok⟩ := bind_eq_ok.1 hok
  obtain ⟨q, hq, hok⟩ := bind_eq_ok.1 hok
  exact ⟨b, q, okOr_eq_ok.1 hb, hq, (Except.ok.inj hok).symm⟩

/-- The tasks are the one that makes the step, those before and those after it. -/
theorem mem_batches {i : Nat} {b b' : ReadBatch} (hb : s.batches[i]? = some b)
    (h' : b' ∈ s.batches) :
    b' ∈ s.batches.take i ∨ b' = b ∨ b' ∈ s.batches.drop (i + 1) := by
  obtain ⟨hi, rfl⟩ := List.getElem?_eq_some_iff.1 hb
  rwa [← List.take_append_drop i s.batches, List.drop_eq_getElem_cons hi, List.mem_append,
    List.mem_cons] at h'

/-- What a step of a task does: it pushes at most one cell, or notes a
failure; what is left of it is about its reads, and about all of them that are
still live. -/
structure TaskStep (s : ReadCoalescer) (b : ReadBatch) (q : ReadCoalescer × List ReadBatch) :
    Prop where
  effect : q.1 = s ∨ (∃ id reply, q.1 = s.deliver id reply) ∨
    ∃ message, q.1 = { s with failures := message :: s.failures }
  reads : ∀ b' ∈ q.2, b'.key = b.key ∧ b'.phase.reads ⊆ b.phase.reads
  kept : ∀ id ∈ b.phase.reads, q.1.state id = .live → ∃ b' ∈ q.2, id ∈ b'.phase.reads

theorem TaskStep.of_reads {b : ReadBatch} {next : ReadCoalescer} {phase : ReadPhase}
    (heffect : next = s ∨ (∃ id reply, next = s.deliver id reply) ∨
      ∃ message, next = { s with failures := message :: s.failures })
    (hreads : phase.reads ⊆ b.phase.reads)
    (hkept : ∀ id ∈ b.phase.reads, next.state id = .live → id ∈ phase.reads) :
    TaskStep s b (next, [⟨b.key, phase⟩]) := by
  refine ⟨heffect, fun b' hb' => ?_, fun id hid hlive => ?_⟩
  · obtain rfl := List.mem_singleton.1 hb'
    exact ⟨rfl, hreads⟩
  · exact ⟨_, List.mem_singleton_self _, hkept id hid hlive⟩

/-- Most steps leave the reads of their task as they are. -/
theorem TaskStep.of_same {b : ReadBatch} {next : ReadCoalescer} {phase : ReadPhase}
    (heffect : next = s ∨ (∃ id reply, next = s.deliver id reply) ∨
      ∃ message, next = { s with failures := message :: s.failures })
    (hreads : phase.reads = b.phase.reads) : TaskStep s b (next, [⟨b.key, phase⟩]) := by
  refine .of_reads heffect ?_ fun id hid _ => hreads ▸ hid
  rw [hreads]
  exact List.Subset.refl _

theorem state_deliver (id : Nat) (reply : CellReply) : (s.deliver id reply).state id ≠ .live := by
  unfold deliver
  split_ifs with hlive
  · simp
  · exact hlive

theorem state_of_deliver {id i : Nat} {reply : CellReply}
    (hlive : (s.deliver i reply).state id = .live) : s.state id = .live := by
  unfold deliver at hlive
  split_ifs at hlive with hi
  · dsimp only at hlive
    rw [Function.update_apply] at hlive
    split_ifs at hlive
    exact hlive
  · exact hlive

theorem TaskStep.live {b : ReadBatch} {q : ReadCoalescer × List ReadBatch} (ht : TaskStep s b q)
    {id : Nat} (hlive : q.1.state id = .live) : s.state id = .live := by
  rcases ht.effect with heq | ⟨i, reply, heq⟩ | ⟨message, heq⟩
  · rwa [heq] at hlive
  · rw [heq] at hlive
    exact state_of_deliver hlive
  · rwa [heq] at hlive

/-- What no step of a task touches. -/
structure SameQueue (s next : ReadCoalescer) : Prop where
  reads : next.reads = s.reads
  version : next.version = s.version
  pending : next.pending = s.pending
  armed : next.armed = s.armed
  disposing : next.disposing = s.disposing

theorem TaskStep.sameQueue {b : ReadBatch} {q : ReadCoalescer × List ReadBatch}
    (ht : TaskStep s b q) : SameQueue s q.1 := by
  rcases ht.effect with heq | ⟨i, reply, heq⟩ | ⟨message, heq⟩
  · rw [heq]
    exact ⟨rfl, rfl, rfl, rfl, rfl⟩
  · rw [heq]
    unfold deliver
    split_ifs
    · exact ⟨rfl, rfl, rfl, rfl, rfl⟩
    · exact ⟨rfl, rfl, rfl, rfl, rfl⟩
  · rw [heq]
    exact ⟨rfl, rfl, rfl, rfl, rfl⟩

@[simp]
theorem reads_answered (r : ReadRequest) (values : List (Option String)) :
    (r.answered values).reads = r.reads ++ r.later := by
  unfold ReadRequest.answered
  simp [List.mapIdx_eq_zipIdx_map, Function.comp_def]

@[simp]
theorem reads_rejected (r : ReadRequest) (message : String) :
    (r.rejected message).reads = r.reads ++ r.later := by
  unfold ReadRequest.rejected
  split <;> simp [ReadRequest.reads, ReadRequest.later]

@[simp]
theorem reads_answer (header : Option String) (cube : String) (r : ReadRequest) :
    (s.answer h header cube r).reads = r.reads ++ r.later := by
  unfold answer
  split <;> simp

theorem taskStep_proceed {b : ReadBatch} {q : ReadCoalescer × List ReadBatch}
    (hok : s.proceed b = .ok q) : TaskStep s b q := by
  obtain ⟨key, phase⟩ := b
  unfold proceed at hok
  dsimp only at hok
  split at hok <;> cases hok
  · rename_i live id rest
    refine .of_reads (.inl rfl) ?_ ?_
    · intro x hx
      split_ifs at hx <;> simp at hx ⊢ <;> tauto
    · intro x hx hlive
      split_ifs with hid <;> simp at hx ⊢
      · rcases hx with hx | rfl | hx
        · exact Or.inl hx
        · rw [hid] at hlive
          cases hlive
        · exact Or.inr hx
      · exact hx
  · exact ⟨.inl rfl, by simp, by simp⟩
  · rename_i live _
    exact .of_same (.inl rfl) rfl
  · exact .of_same (.inl rfl) rfl
  · rename_i id reply cells later
    refine .of_reads (.inr (.inl ⟨id, reply, rfl⟩)) ?_ ?_
    · simp
    · intro x hx hlive
      rcases List.mem_cons.1 hx with rfl | hx
      · exact absurd hlive (state_deliver _ _)
      · exact hx
  · exact .of_same (.inl rfl) rfl
  · exact ⟨.inl rfl, by simp, by simp⟩
  · rename_i id later
    refine .of_reads (.inl rfl) ?_ ?_
    · split_ifs <;> simp [ReadRequest.reads, ReadRequest.later]
    · intro x hx hlive
      split_ifs with hid
      · rcases List.mem_cons.1 hx with rfl | hx
        · rw [hid] at hlive
          cases hlive
        · exact hx
      · exact hx

theorem taskStep_served {b : ReadBatch} {q : ReadCoalescer × List ReadBatch}
    (hok : s.served h b = .ok q) : TaskStep s b q := by
  obtain ⟨key, phase⟩ := b
  unfold served at hok
  dsimp only at hok
  split at hok
  · cases hok
    exact .of_same (.inl rfl) (by simp)
  · cases hok

theorem taskStep_failed {message : String} {b : ReadBatch} {q : ReadCoalescer × List ReadBatch}
    (hok : s.failed message b = .ok q) : TaskStep s b q := by
  obtain ⟨key, phase⟩ := b
  unfold failed at hok
  dsimp only at hok
  split at hok
  · cases hok
    exact .of_same (.inr (.inr ⟨message, rfl⟩)) (by simp)
  · cases hok

/-! ## The work that is left -/

end ReadCoalescer

/-- The steps that are left of a request, at most. -/
def ReadRequest.work : ReadRequest → Nat
  | batch live => 5 * live.length + 3
  | cell _ later => 5 * later.length + 4

/-- The steps that are left of a task, at most. -/
def ReadPhase.work : ReadPhase → Nat
  | sweep live rest => 5 * live.length + 6 * rest.length + 5
  | build request => request.work + 1
  | flight _ request => request.work
  | deliver cells later => cells.length + 5 * later.length + 2
  | fallBack later => 5 * later.length + 1

/-- The steps that the coalescer makes, its timer and its requests. -/
def ReadStep.isOwn : ReadStep → Bool
  | flush | serve _ | fail _ _ | go _ => true
  | _ => false

namespace ReadCoalescer

variable {h : ExcelHost} {s : ReadCoalescer}

def workOf (batches : List ReadBatch) : Nat := (batches.map fun b => b.phase.work).sum

@[simp]
theorem workOf_nil : workOf [] = 0 := rfl

@[simp]
theorem workOf_cons (b : ReadBatch) (batches : List ReadBatch) :
    workOf (b :: batches) = b.phase.work + workOf batches := rfl

@[simp]
theorem workOf_append (batches batches' : List ReadBatch) :
    workOf (batches ++ batches') = workOf batches + workOf batches' := by
  simp [workOf]

def work (s : ReadCoalescer) : Nat :=
  (if s.armed then 1 else 0) + (s.pending.map fun b => 6 * b.reads.length + 5).sum +
    workOf s.batches

/-- Nothing waits for the timer, and no task is left. -/
def Quiet (s : ReadCoalescer) : Prop := s.armed = false ∧ s.batches = []

theorem work_rejected (r : ReadRequest) (message : String) :
    (r.rejected message).work < r.work := by
  unfold ReadRequest.rejected
  split
  · simp [ReadPhase.work, ReadRequest.work]
  · simp only [ReadPhase.work, ReadRequest.work]
    omega
  · simp only [ReadPhase.work, ReadRequest.work, List.length_cons, List.length_nil]
    omega

theorem work_answered (r : ReadRequest) (values : List (Option String)) :
    (r.answered values).work < r.work := by
  unfold ReadRequest.answered
  cases r with
  | batch live =>
    simp only [ReadPhase.work, ReadRequest.work, ReadRequest.reads, ReadRequest.later,
      List.length_mapIdx, List.length_nil]
    omega
  | cell id later =>
    simp only [ReadPhase.work, ReadRequest.work, ReadRequest.reads, ReadRequest.later,
      List.length_mapIdx, List.length_cons, List.length_nil]
    omega

theorem work_proceed {b : ReadBatch} {q : ReadCoalescer × List ReadBatch}
    (hok : s.proceed b = .ok q) : workOf q.2 < b.phase.work := by
  obtain ⟨key, phase⟩ := b
  unfold proceed at hok
  dsimp only at hok
  split at hok <;> cases hok
  · split_ifs <;> simp only [workOf_cons, workOf_nil, ReadPhase.work, List.length_append,
      List.length_cons, List.length_nil] <;> omega
  · simp [ReadPhase.work]
  · simp [ReadPhase.work, ReadRequest.work]
  · simp [ReadPhase.work]
  · simp [ReadPhase.work]
  · simp [ReadPhase.work]
  · simp [ReadPhase.work]
  · split_ifs <;> simp only [workOf_cons, workOf_nil, ReadPhase.work, ReadRequest.work,
      List.length_cons] <;> omega

theorem work_served {b : ReadBatch} {q : ReadCoalescer × List ReadBatch}
    (hok : s.served h b = .ok q) : workOf q.2 < b.phase.work := by
  obtain ⟨key, phase⟩ := b
  unfold served at hok
  dsimp only at hok
  split at hok <;> cases hok
  rename_i header request
  have hlt : (s.answer h header key.cube request).work < request.work := by
    unfold answer
    split
    · exact work_answered request _
    · exact work_rejected request _
  simpa [ReadPhase.work] using hlt

theorem work_failed {message : String} {b : ReadBatch} {q : ReadCoalescer × List ReadBatch}
    (hok : s.failed message b = .ok q) : workOf q.2 < b.phase.work := by
  obtain ⟨key, phase⟩ := b
  unfold failed at hok
  dsimp only at hok
  split at hok <;> cases hok
  rename_i header request
  simpa [ReadPhase.work] using work_rejected request message

theorem work_resume {next : ReadCoalescer} {i : Nat}
    {f : ReadBatch → Except Unit (ReadCoalescer × List ReadBatch)}
    (hf : ∀ b q, f b = .ok q → TaskStep s b q ∧ workOf q.2 < b.phase.work)
    (hok : s.resume i f = .ok next) : next.work < s.work := by
  obtain ⟨b, q, hb, hq, rfl⟩ := resume_eq_ok hok
  obtain ⟨ht, hlt⟩ := hf b q hq
  have hsame := ht.sameQueue
  have hsplit : workOf s.batches =
      workOf (s.batches.take i) + (b.phase.work + workOf (s.batches.drop (i + 1))) := by
    obtain ⟨hi, rfl⟩ := List.getElem?_eq_some_iff.1 hb
    rw [← workOf_cons, ← List.drop_eq_getElem_cons hi, ← workOf_append, List.take_append_drop]
  unfold work
  dsimp only
  rw [hsame.pending, hsame.armed, hsplit, workOf_append, workOf_append]
  omega

/-- Each of its own steps leaves the coalescer less to do. -/
theorem work_step {x : ReadStep} {next : ReadCoalescer} (hown : x.isOwn = true)
    (hok : s.step h x = .ok next) : next.work < s.work := by
  unfold step at hok
  cases x with
  | flush =>
    dsimp only at hok
    split_ifs at hok with harmed
    obtain rfl := Except.ok.inj hok
    have hbuckets : workOf (s.pending.map fun b => ⟨b.key, .sweep [] b.reads⟩) =
        (s.pending.map fun b => 6 * b.reads.length + 5).sum := by
      simp [workOf, ReadPhase.work, Function.comp_def]
    unfold work flush
    dsimp only
    rw [workOf_append, hbuckets, harmed]
    simp only [if_true, List.map_nil, List.sum_nil]
    norm_num
    omega
  | serve i => exact work_resume (fun b q hq => ⟨taskStep_served hq, work_served hq⟩) hok
  | fail i message => exact work_resume (fun b q hq => ⟨taskStep_failed hq, work_failed hq⟩) hok
  | go i => exact work_resume (fun b q hq => ⟨taskStep_proceed hq, work_proceed hq⟩) hok
  | _ => cases hown

/-- Until it is quiet, the coalescer can make a step of its own: the timer
fires, a request in flight is answered, and another task goes on. -/
theorem exists_own_step (hquiet : ¬s.Quiet) :
    ∃ x : ReadStep, x.isOwn = true ∧ ∃ next, s.step h x = .ok next := by
  rcases harmed : s.armed with - | -
  · rcases hbatches : s.batches with - | ⟨⟨key, phase⟩, rest⟩
    · exact absurd ⟨harmed, hbatches⟩ hquiet
    · have hresume : ∀ (f : ReadBatch → Except Unit (ReadCoalescer × List ReadBatch)),
          (∃ q, f ⟨key, phase⟩ = .ok q) → ∃ next, s.resume 0 f = .ok next := by
        rintro f ⟨q, hq⟩
        unfold resume
        rw [hbatches, List.getElem?_cons_zero]
        exact ⟨_, bind_eq_ok.2 ⟨_, rfl, bind_eq_ok.2 ⟨q, hq, rfl⟩⟩⟩
      cases phase with
      | flight header request => exact ⟨.serve 0, rfl, hresume _ ⟨_, rfl⟩⟩
      | sweep live rest =>
        refine ⟨.go 0, rfl, hresume _ ?_⟩
        rcases rest with - | ⟨id, rest⟩
        · rcases live with - | ⟨id, live⟩
          · exact ⟨_, rfl⟩
          · exact ⟨_, rfl⟩
        · exact ⟨_, rfl⟩
      | build request => exact ⟨.go 0, rfl, hresume _ ⟨_, rfl⟩⟩
      | deliver cells later =>
        refine ⟨.go 0, rfl, hresume _ ?_⟩
        rcases cells with - | ⟨⟨id, reply⟩, cells⟩
        · exact ⟨_, rfl⟩
        · exact ⟨_, rfl⟩
      | fallBack later =>
        refine ⟨.go 0, rfl, hresume _ ?_⟩
        rcases later with - | ⟨id, later⟩
        · exact ⟨_, rfl⟩
        · exact ⟨_, rfl⟩
  · exact ⟨.flush, rfl, s.flush, by rw [step, harmed]; rfl⟩

end ReadCoalescer

end Epiphany
