import Mathlib
/-!
# Caches — a bounded pool that is read through

A pool keeps values by key, at most so many and so heavy; what was used
longest ago goes first. A read gives the kept value or computes one and keeps
it. Whatever is true of every kept value and of every value computed stays
true of the pool (`Holds.readThrough`), so a read gives what it would have
computed as soon as every kept value is the one its key calls for
(`fst_readThrough_iff`).
-/

namespace Epiphany

/-- A kept value, the time of its last use, and its weight. -/
structure Slot (V : Type*) where
  value : V
  tick : Nat
  bytes : Nat

structure Pool (K V : Type*) where
  map : List (K × Slot V)
  cap : Nat
  byteBudget : Nat
  bytes : Nat
  tick : Nat

namespace Pool

variable {K V E : Type*} [DecidableEq K]

/-! ## Operations -/

def new (cap byteBudget : Nat) : Pool K V := ⟨[], cap, byteBudget, 0, 0⟩

variable (p : Pool K V) (key : K)

def slot : Option (Slot V) := (p.map.find? fun e => e.1 = key).map Prod.snd

/-- The value kept under a key; a pool without room keeps none. -/
def peek : Option V := if p.cap = 0 then none else (p.slot key).map Slot.value

/-- Mark the use of a key. -/
def touch : Pool K V :=
  { p with
    tick := p.tick + 1
    map := p.map.map fun e => if e.1 = key then (e.1, { e.2 with tick := p.tick + 1 }) else e }

def get : Option V × Pool K V :=
  match p.peek key with
  | some v => (some v, p.touch key)
  | none => (none, p)

def remove : Pool K V :=
  match p.slot key with
  | some s => { p with map := p.map.filter fun e => e.1 ≠ key, bytes := p.bytes - s.bytes }
  | none => p

/-- Drop the entry that was used longest ago. -/
def evictOne : Pool K V :=
  match p.map.argmin fun e => e.2.tick with
  | some e => p.remove e.1
  | none => p

/-- Make room for an entry of a weight, in at most so many evictions. -/
def evictFor (bytes : Nat) : Nat → Pool K V → Pool K V
  | 0, p => p
  | fuel + 1, p =>
    if (p.cap < p.map.length + 1 ∨ p.byteBudget < p.bytes + bytes) ∧ p.map ≠ [] then
      evictFor bytes fuel p.evictOne
    else p

def insert (value : V) (bytes : Nat) : Pool K V :=
  if p.cap = 0 then p
  else
    -- an entry of the key goes first, and its weight with it
    let p := { p with tick := p.tick + 1 }.remove key
    let p := evictFor bytes p.map.length p
    { p with map := (key, ⟨value, p.tick, bytes⟩) :: p.map, bytes := p.bytes + bytes }

/-- Read through the pool; a computed value is kept if `keep` gives it a
weight. -/
def readThrough (compute : Except E V) (keep : V → Option Nat) : Except E V × Pool K V :=
  match p.get key with
  | (some v, p) => (.ok v, p)
  | (none, p) =>
    match compute with
    | .error e => (.error e, p)
    | .ok v =>
      match keep v with
      | some bytes => (.ok v, p.insert key v bytes)
      | none => (.ok v, p)

/-! ## What is true of every kept value -/

/-- Every kept value is right for its key. -/
def Holds (P : K → V → Prop) : Prop := ∀ e ∈ p.map, P e.1 e.2.value

variable {p key} {P : K → V → Prop}

omit [DecidableEq K] in
theorem holds_new {cap byteBudget : Nat} : (new cap byteBudget : Pool K V).Holds P := by
  intro e he
  cases he

theorem mem_of_slot {s : Slot V} (h : p.slot key = some s) : (key, s) ∈ p.map := by
  obtain ⟨e, he, rfl⟩ := Option.map_eq_some_iff.1 h
  have hkey : e.1 = key := by simpa using List.find?_some he
  rw [← hkey]
  exact List.mem_of_find?_eq_some he

theorem Holds.peek (h : p.Holds P) {v : V} (hv : p.peek key = some v) : P key v := by
  unfold Pool.peek at hv
  split_ifs at hv
  obtain ⟨s, hs, rfl⟩ := Option.map_eq_some_iff.1 hv
  exact h _ (mem_of_slot hs)

theorem Holds.touch (h : p.Holds P) (key : K) : (p.touch key).Holds P := by
  intro e he
  obtain ⟨e', he', rfl⟩ := List.mem_map.1 he
  have hP := h e' he'
  split_ifs
  · exact hP
  · exact hP

theorem Holds.get (h : p.Holds P) (key : K) : (p.get key).2.Holds P := by
  unfold Pool.get
  split
  · exact h.touch key
  · exact h

theorem Holds.remove (h : p.Holds P) (key : K) : (p.remove key).Holds P := by
  unfold Pool.remove
  split
  · intro e he
    exact h e (List.mem_of_mem_filter he)
  · exact h

theorem Holds.evictOne (h : p.Holds P) : p.evictOne.Holds P := by
  unfold Pool.evictOne
  split
  · exact h.remove _
  · exact h

theorem Holds.evictFor (h : p.Holds P) (bytes fuel : Nat) : (evictFor bytes fuel p).Holds P := by
  induction fuel generalizing p with
  | zero => exact h
  | succ fuel ih =>
    unfold Pool.evictFor
    split_ifs
    · exact ih h.evictOne
    · exact h

theorem Holds.insert (h : p.Holds P) {v : V} (hv : P key v) (bytes : Nat) :
    (p.insert key v bytes).Holds P := by
  unfold Pool.insert
  split_ifs
  · exact h
  · intro e he
    have hstart : ({ p with tick := p.tick + 1 } : Pool K V).Holds P := h
    rcases List.mem_cons.1 he with rfl | he
    · exact hv
    · exact (hstart.remove key).evictFor bytes _ e he

theorem fst_get : (p.get key).1 = p.peek key := by
  unfold get
  rcases p.peek key with _ | v
  · rfl
  · rfl

/-! ## Reads -/

/-- A read keeps what is true of every kept value, if it is true of the
value it computes. -/
theorem Holds.readThrough (h : p.Holds P) {compute : Except E V}
    (hcompute : ∀ v, compute = .ok v → P key v) (keep : V → Option Nat) :
    (p.readThrough key compute keep).2.Holds P := by
  have hget := h.get key
  unfold Pool.readThrough
  rcases hp : p.get key with ⟨_ | v, p'⟩
  · rw [hp] at hget
    rcases compute with e | v
    · exact hget
    · dsimp only
      split
      · exact hget.insert (hcompute v rfl) _
      · exact hget
  · rw [hp] at hget
    exact hget

/-- What a read gives. -/
theorem fst_readThrough (p : Pool K V) (key : K) (compute : Except E V) (keep : V → Option Nat) :
    (p.readThrough key compute keep).1 =
      match p.peek key with
      | some v => .ok v
      | none => compute := by
  rw [← fst_get, readThrough]
  rcases p.get key with ⟨_ | v, p'⟩
  · rcases compute with e | v
    · rfl
    · dsimp only
      split
      · rfl
      · rfl
  · rfl

/-- A read gives what it would have computed exactly when no other value is
kept under its key. -/
theorem fst_readThrough_iff {compute : Except E V} {keep : V → Option Nat} :
    (p.readThrough key compute keep).1 = compute ↔
      ∀ v, p.peek key = some v → compute = .ok v := by
  rw [fst_readThrough]
  rcases p.peek key with _ | v
  · simp
  · simp [eq_comm]

end Pool

end Epiphany
