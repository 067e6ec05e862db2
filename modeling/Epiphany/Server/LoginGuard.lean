import Epiphany.Common.FinMap
import Epiphany.Common.Runs
import Epiphany.Security.Store
/-!
# Login guard — a bound on guessing, and the requests between check and record

The guard counts a username's failures and locks it. A request asks the
guard, verifies a password outside of its lock, and records the outcome. So
a failure can come back to a username that was locked since it was asked
about: the bound holds exactly in the runs where none does
(`bounded_run_iff`).
-/

namespace Epiphany

/-- Addition of times, saturating. -/
def addMillis (now lockout : Nat) : Nat := min (now + lockout) (2 ^ 64 - 1)

structure Attempts where
  failures : Nat
  /-- When the lockout ends; zero if there is none. -/
  lockedUntil : Nat
  lastSeen : Nat
deriving DecidableEq

structure LoginGuard where
  attempts : FinMap String Attempts
  maxFailures : Nat
  lockoutMillis : Nat

namespace LoginGuard

def new (maxFailures : UInt32) (lockoutMillis : UInt64) : LoginGuard :=
  ⟨∅, maxFailures.toNat, lockoutMillis.toNat⟩

variable (g : LoginGuard)

def disabled : Bool := g.maxFailures = 0 || g.lockoutMillis = 0

def isLocked (username : String) (now : Nat) : Bool :=
  !g.disabled && (g.attempts[username]?).any fun a => now < a.lockedUntil

/-- Drop the entries that are neither locked nor recently active. -/
def prune (now : Nat) : LoginGuard :=
  { g with
    attempts := g.attempts.filter fun _ a =>
      now < a.lockedUntil || now < addMillis a.lastSeen g.lockoutMillis }

/-- One more failure of an entry; a served lockout starts it afresh. -/
def fail (a : Attempts) (now : Nat) : Attempts :=
  let failures := if a.lockedUntil ≠ 0 ∧ a.lockedUntil ≤ now then 0 else a.failures
  let lockedUntil := if a.lockedUntil ≠ 0 ∧ a.lockedUntil ≤ now then 0 else a.lockedUntil
  let failures := min (failures + 1) (2 ^ 32 - 1)
  ⟨failures, if g.maxFailures ≤ failures then addMillis now g.lockoutMillis else lockedUntil, now⟩

def recordFailure (username : String) (now : Nat) : LoginGuard :=
  if g.disabled then g
  else
    let pruned := g.prune now
    let entry := (pruned.attempts[username]?).getD ⟨0, 0, now⟩
    { pruned with attempts := pruned.attempts.insert username (g.fail entry now) }

def recordSuccess (username : String) : LoginGuard :=
  { g with attempts := g.attempts.erase username }

end LoginGuard

/-! ## The two requests -/

/-- What the verification of the password says; the task that runs it can
fail. -/
inductive Verified where
  | joinError
  | wrong
  | right
deriving DecidableEq

/-- A request that asks for a password, with what its later steps meet. -/
inductive PasswordRequest where
  /-- A login; `principal` says whether the user is still there. -/
  | login (verified : Verified) (principal : Bool)
  /-- A change of the password, and what the store answers to it. -/
  | changePassword (verified : Verified) (change : Option (Except SecurityError Unit))
deriving DecidableEq

/-- What a request leaves with the guard. -/
inductive Recorded where
  | failure
  | success
deriving DecidableEq

/-- **What a request records**, if anything. -/
def PasswordRequest.recorded : PasswordRequest → Option Recorded
  | .login .joinError _ => none
  | .login .wrong _ => some .failure
  | .login .right principal => some (if principal then .success else .failure)
  | .changePassword .joinError _ => none
  | .changePassword .wrong _ => some .failure
  | .changePassword .right none => none
  | .changePassword .right (some (.error .incorrectPassword)) => some .failure
  | .changePassword .right (some (.error _)) => none
  | .changePassword .right (some (.ok _)) => some .success

/-- The requests of one username: the guard, the times of those between the
check and the record, and the outcomes so far, the last first; `none` is a
success and `some now` the failure of a request of that time. -/
structure Logins where
  guard : LoginGuard
  username : String
  inFlight : List Nat
  outcomes : List (Option Nat)

inductive LoginStep where
  /-- A request comes at a time and asks the guard. -/
  | check (now : Nat)
  /-- A request that was let through comes back. -/
  | finish (i : Nat) (request : PasswordRequest)
deriving DecidableEq

inductive LoginRefusal where
  | tooManyRequests
  | noRequest
deriving DecidableEq

namespace Logins

variable (s : Logins)

def start (maxFailures : UInt32) (lockoutMillis : UInt64) (username : String) : Logins :=
  ⟨.new maxFailures lockoutMillis, username, [], []⟩

/-- Record the outcome of a request. -/
def record (now : Nat) : Option Recorded → Logins
  | none => s
  | some .success =>
    { s with guard := s.guard.recordSuccess s.username, outcomes := none :: s.outcomes }
  | some .failure =>
    { s with guard := s.guard.recordFailure s.username now, outcomes := some now :: s.outcomes }

def step : LoginStep → Except LoginRefusal Logins
  | .check now =>
    if s.guard.isLocked s.username now then .error .tooManyRequests
    else .ok { s with inFlight := s.inFlight ++ [now] }
  | .finish i request =>
    match s.inFlight[i]? with
    | none => .error .noRequest
    | some now => .ok ({ s with inFlight := s.inFlight.eraseIdx i }.record now request.recorded)

/-! ## The bound -/

/-- The length of the last window: the failures at the head of the outcomes
that follow each other within a lockout. -/
def window (lockout : Nat) : List (Option Nat) → Nat
  | some now :: some last :: rest =>
    if now < addMillis last lockout then window lockout (some last :: rest) + 1 else 1
  | some _ :: _ => 1
  | _ => 0

/-- **The bound on guessing**: no window has more failures than allowed,
where the lockout is not switched off. -/
def Bounded : Prop :=
  s.guard.disabled = true ∨ window s.guard.lockoutMillis s.outcomes ≤ s.guard.maxFailures

/-- A failure comes back to a username that is not locked. -/
def comesUnlocked : LoginStep → Bool
  | .check _ => true
  | .finish i request =>
    match s.inFlight[i]? with
    | some now => request.recorded ≠ some .failure || !s.guard.isLocked s.username now
    | none => true

/-! ## The guard counts the window -/

/-- The guard's entry of a username is its last window. -/
def Counts (g : LoginGuard) (username : String) (outcomes : List (Option Nat)) : Prop :=
  match outcomes with
  | some last :: _ =>
    g.attempts[username]? = some ⟨window g.lockoutMillis outcomes,
      if g.maxFailures ≤ window g.lockoutMillis outcomes then addMillis last g.lockoutMillis else 0,
      last⟩
  | _ => g.attempts[username]? = none

theorem isLocked_of_counts {g : LoginGuard} {username : String} {last : Nat}
    {rest : List (Option Nat)} (h : Counts g username (some last :: rest))
    (hon : g.disabled = false) (now : Nat) :
    g.isLocked username now = true ↔
      g.maxFailures ≤ window g.lockoutMillis (some last :: rest) ∧
        now < addMillis last g.lockoutMillis := by
  have hentry : g.attempts[username]? = some ⟨window g.lockoutMillis (some last :: rest),
    if g.maxFailures ≤ window g.lockoutMillis (some last :: rest) then
      addMillis last g.lockoutMillis else 0, last⟩ := h
  unfold LoginGuard.isLocked
  rw [hon, hentry, Option.any_some, Bool.not_false, Bool.true_and, decide_eq_true_eq]
  dsimp only
  split_ifs with hfull
  · simp [hfull]
  · simp [hfull]

theorem not_isLocked_of_none {g : LoginGuard} {username : String}
    (h : g.attempts[username]? = none) (now : Nat) : g.isLocked username now = false := by
  unfold LoginGuard.isLocked
  rw [h, Option.any_none, Bool.and_false]

theorem get_prune (g : LoginGuard) (now : Nat) (username : String) :
    (g.prune now).attempts[username]? = (g.attempts[username]?).filter fun a =>
      now < a.lockedUntil || now < addMillis a.lastSeen g.lockoutMillis := by
  unfold LoginGuard.prune
  exact Std.ExtTreeMap.getElem?_filter'

/-- The entry after a failure, from the one that pruning leaves. -/
theorem get_recordFailure {g : LoginGuard} (hon : g.disabled = false) (username : String)
    (now : Nat) :
    (g.recordFailure username now).attempts[username]? =
      some (g.fail (((g.prune now).attempts[username]?).getD ⟨0, 0, now⟩) now) := by
  unfold LoginGuard.recordFailure
  rw [hon, if_neg Bool.false_ne_true]
  exact FinMap.get_insert_self _ _ _

theorem config_recordFailure (g : LoginGuard) (username : String) (now : Nat) :
    (g.recordFailure username now).maxFailures = g.maxFailures ∧
      (g.recordFailure username now).lockoutMillis = g.lockoutMillis := by
  unfold LoginGuard.recordFailure
  split_ifs
  · exact ⟨rfl, rfl⟩
  · exact ⟨rfl, rfl⟩

/-- The first failure of a window. -/
theorem fail_fresh (g : LoginGuard) (now : Nat) :
    g.fail ⟨0, 0, now⟩ now =
      ⟨1, if g.maxFailures ≤ 1 then addMillis now g.lockoutMillis else 0, now⟩ := by
  simp [LoginGuard.fail]

/-- A further failure of a window that is not full. -/
theorem fail_counted {g : LoginGuard} {w last now : Nat} (hw : w < g.maxFailures)
    (hmax : g.maxFailures < 2 ^ 32) :
    g.fail ⟨w, 0, last⟩ now =
      ⟨w + 1, if g.maxFailures ≤ w + 1 then addMillis now g.lockoutMillis else 0, now⟩ := by
  have hmin : min (w + 1) (2 ^ 32 - 1) = w + 1 := by omega
  unfold LoginGuard.fail
  rw [if_neg (by simp), if_neg (by simp)]
  simp only [hmin]

/-- **A failure of an unlocked username is counted.** -/
theorem Counts.recordFailure {g : LoginGuard} {username : String} {outcomes : List (Option Nat)}
    (h : Counts g username outcomes) (hon : g.disabled = false) (hmax : g.maxFailures < 2 ^ 32)
    {now : Nat} (hunlocked : g.isLocked username now = false) :
    Counts (g.recordFailure username now) username (some now :: outcomes) := by
  obtain ⟨hm, hl⟩ := config_recordFailure g username now
  show (g.recordFailure username now).attempts[username]? = _
  rw [get_recordFailure hon, get_prune, hm, hl]
  have hfresh : ∀ w, w = 1 →
      some (g.fail ⟨0, 0, now⟩ now) =
        some ⟨w, if g.maxFailures ≤ w then addMillis now g.lockoutMillis else 0, now⟩ := by
    rintro w rfl
    rw [fail_fresh]
  cases outcomes with
  | nil =>
    have hnone : g.attempts[username]? = none := h
    rw [hnone]
    exact hfresh _ rfl
  | cons outcome rest =>
    cases outcome with
    | none =>
      have hnone : g.attempts[username]? = none := h
      rw [hnone]
      exact hfresh _ rfl
    | some last =>
      have hentry := h
      unfold Counts at hentry
      dsimp only at hentry
      rw [hentry]
      by_cases hnow : now < addMillis last g.lockoutMillis
      · -- within the window, and not locked: the window is not full
        have hroom : ¬ g.maxFailures ≤ window g.lockoutMillis (some last :: rest) := by
          intro hfull
          rw [(isLocked_of_counts h hon now).2 ⟨hfull, hnow⟩] at hunlocked
          cases hunlocked
        have hwindow : window g.lockoutMillis (some now :: some last :: rest) =
            window g.lockoutMillis (some last :: rest) + 1 := by
          rw [window, if_pos hnow]
        rw [if_neg hroom, Option.filter_some, if_pos (by simp [hnow]), Option.getD_some,
          fail_counted (by omega) hmax, hwindow]
      · have hwindow : window g.lockoutMillis (some now :: some last :: rest) = 1 := by
          rw [window, if_neg hnow]
        have hgone : ¬ now < (if g.maxFailures ≤ window g.lockoutMillis (some last :: rest) then
            addMillis last g.lockoutMillis else 0) := by
          split_ifs
          · exact hnow
          · omega
        rw [Option.filter_some, if_neg (by simp [hnow, hgone])]
        exact hfresh _ hwindow

/-! ## Runs -/

variable {s : Logins}

/-- What holds of the requests of a username while the bound does. -/
def Tracked (s : Logins) : Prop :=
  s.guard.maxFailures < 2 ^ 32 ∧
    (s.guard.disabled = true ∨ Counts s.guard s.username s.outcomes ∧
      window s.guard.lockoutMillis s.outcomes ≤ s.guard.maxFailures)

theorem Tracked.bounded (h : s.Tracked) : s.Bounded := h.2.imp_right fun hcounts => hcounts.2

theorem tracked_start (maxFailures : UInt32) (lockoutMillis : UInt64) (username : String) :
    (start maxFailures lockoutMillis username).Tracked :=
  ⟨maxFailures.toNat_lt, Or.inr ⟨FinMap.get_empty _, Nat.zero_le _⟩⟩

/-- A further failure keeps the bound if and only if it comes unlocked. -/
theorem Tracked.window_le (h : s.Tracked) (hon : s.guard.disabled = false) (now : Nat) :
    window s.guard.lockoutMillis (some now :: s.outcomes) ≤ s.guard.maxFailures ↔
      s.guard.isLocked s.username now = false := by
  obtain ⟨hcounts, hle⟩ := h.2.resolve_left (by rw [hon]; exact Bool.false_ne_true)
  have hpos : 1 ≤ s.guard.maxFailures := by
    unfold LoginGuard.disabled at hon
    rw [Bool.or_eq_false_iff, decide_eq_false_iff_not] at hon
    omega
  cases houtcomes : s.outcomes with
  | nil =>
    rw [houtcomes] at hcounts
    have hnone : s.guard.attempts[s.username]? = none := hcounts
    rw [not_isLocked_of_none hnone]
    exact iff_of_true hpos rfl
  | cons outcome rest =>
    rw [houtcomes] at hcounts hle
    cases outcome with
    | none =>
      have hnone : s.guard.attempts[s.username]? = none := hcounts
      rw [not_isLocked_of_none hnone]
      exact iff_of_true hpos rfl
    | some last =>
      rw [← Bool.not_eq_true, isLocked_of_counts hcounts hon, window]
      split_ifs with hnow
      · constructor
        · intro hroom hlocked
          omega
        · intro hlocked
          have hroom : ¬ s.guard.maxFailures ≤
            window s.guard.lockoutMillis (some last :: rest) := fun hfull => hlocked ⟨hfull, hnow⟩
          omega
      · exact iff_of_true hpos fun hlocked => hnow hlocked.2

theorem disabled_recordFailure (g : LoginGuard) (username : String) (now : Nat) :
    (g.recordFailure username now).disabled = g.disabled := by
  obtain ⟨hm, hl⟩ := config_recordFailure g username now
  unfold LoginGuard.disabled
  rw [hm, hl]

/-- **Step.** The record of an outcome keeps the bound exactly if no failure
comes back to a locked username. -/
theorem Tracked.record (h : s.Tracked) (now : Nat) (recorded : Option Recorded) :
    ((s.record now recorded).Bounded ↔
      (recorded ≠ some .failure || !s.guard.isLocked s.username now) = true) ∧
      ((s.record now recorded).Bounded → (s.record now recorded).Tracked) := by
  cases recorded with
  | none => exact ⟨iff_of_true h.bounded rfl, fun _ => h⟩
  | some recorded =>
    cases recorded with
    | success =>
      have htracked : (s.record now (some .success)).Tracked := by
        refine ⟨h.1, h.2.imp_right fun _ => ⟨?_, Nat.zero_le _⟩⟩
        show (s.guard.attempts.erase s.username)[s.username]? = none
        rw [FinMap.get_erase, if_pos rfl]
      exact ⟨iff_of_true htracked.bounded rfl, fun _ => htracked⟩
    | failure =>
      obtain ⟨hm, hl⟩ := config_recordFailure s.guard s.username now
      have hbounded : (s.record now (some .failure)).Bounded ↔ s.guard.disabled = true ∨
          window s.guard.lockoutMillis (some now :: s.outcomes) ≤ s.guard.maxFailures := by
        unfold Bounded Logins.record
        dsimp only
        rw [disabled_recordFailure, hm, hl]
      have hlocked : (decide (some Recorded.failure ≠ some .failure) ||
          !s.guard.isLocked s.username now) = !s.guard.isLocked s.username now := by simp
      rw [hbounded, hlocked, Bool.not_eq_true']
      -- a guard that is off never locks, and its claim is empty
      cases hon : s.guard.disabled with
      | true =>
        have hunlocked : s.guard.isLocked s.username now = false := by
          unfold LoginGuard.isLocked
          rw [hon, Bool.not_true, Bool.false_and]
        refine ⟨iff_of_true (Or.inl rfl) hunlocked, fun _ => ⟨?_, Or.inl ?_⟩⟩
        · show (s.guard.recordFailure s.username now).maxFailures < 2 ^ 32
          rw [hm]
          exact h.1
        · show (s.guard.recordFailure s.username now).disabled = true
          rw [disabled_recordFailure, hon]
      | false =>
        have hiff := h.window_le hon now
        refine ⟨⟨fun hb => hiff.1 (hb.resolve_left Bool.false_ne_true),
          fun hb => Or.inr (hiff.2 hb)⟩, fun hb => ?_⟩
        have hle := hb.resolve_left Bool.false_ne_true
        obtain ⟨hcounts, -⟩ := h.2.resolve_left (by rw [hon]; exact Bool.false_ne_true)
        refine ⟨?_, Or.inr ⟨hcounts.recordFailure hon h.1 (hiff.1 hle), ?_⟩⟩
        · show (s.guard.recordFailure s.username now).maxFailures < 2 ^ 32
          rw [hm]
          exact h.1
        · show window (s.guard.recordFailure s.username now).lockoutMillis _ ≤
            (s.guard.recordFailure s.username now).maxFailures
          rw [hm, hl]
          exact hle

theorem Tracked.step (h : s.Tracked) {a : LoginStep} {next : Logins}
    (hstep : s.step a = .ok next) :
    (next.Bounded ↔ s.comesUnlocked a = true) ∧ (next.Bounded → next.Tracked) := by
  cases a with
  | check now =>
    unfold Logins.step at hstep
    dsimp only at hstep
    split_ifs at hstep
    obtain rfl := Except.ok.inj hstep
    exact ⟨iff_of_true h.bounded rfl, fun _ => h⟩
  | finish i request =>
    unfold Logins.step at hstep
    unfold comesUnlocked
    dsimp only at hstep ⊢
    cases hi : s.inFlight[i]? with
    | none =>
      rw [hi] at hstep
      cases hstep
    | some now =>
      rw [hi] at hstep
      obtain rfl := Except.ok.inj hstep
      have hshorter : ({ s with inFlight := s.inFlight.eraseIdx i } : Logins).Tracked := h
      exact hshorter.record now request.recorded

/-- **Guessing is bounded**, in every state of a run, exactly if no failure
comes back to a username that was locked since its request was let
through. -/
theorem bounded_run_iff (maxFailures : UInt32) (lockoutMillis : UInt64) (username : String)
    (steps : List LoginStep) :
    (∀ pre, pre <+: steps →
      (runCalls step (start maxFailures lockoutMillis username) pre).Bounded) ↔
      Meets step (fun s a => s.comesUnlocked a = true)
        (start maxFailures lockoutMillis username) steps :=
  run_iff (fun _ h => h.bounded) (fun _ _ _ h hstep => h.step hstep)
    (tracked_start maxFailures lockoutMillis username) steps

/-- Two guesses are allowed, and three logins are let through before the
first of them comes back. -/
def threeAtOnce : List LoginStep :=
  [.check 0, .check 0, .check 0] ++
    List.replicate 3 (.finish 0 (.login .wrong true))

theorem not_bounded_threeAtOnce :
    ¬ ∀ pre, pre <+: threeAtOnce → (runCalls step (start 2 1000 "ann") pre).Bounded := by
  intro h
  rcases h threeAtOnce List.prefix_rfl with hoff | hle
  · revert hoff
    decide +kernel
  · revert hle
    decide +kernel

end Logins

end Epiphany
