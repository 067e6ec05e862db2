import Epiphany.Common.Cache
import Epiphany.Server.Owned
/-!
# The view cache — cellsets shared by every reader

Executing a view is read through two pools, one for saved views and a
smaller one for others. The key of a read takes in the cube and its version,
the versions of other cubes, the shape of the view, the sandbox and the mask.
The execution also reads the subsets that the caller may see, and those are
not in the key: a reader is served another's answer exactly when it is kept
under his key and he may not see a subset that the view names
(`served_iff`).
-/

namespace Epiphany

/-! ## Keys -/

/-- What of a view its cells depend on. -/
structure ViewShape where
  rows : List AxisSpec
  columns : List AxisSpec
  context : List (String × String)
  suppressZeroRows : Bool
  suppressZeroColumns : Bool
deriving DecidableEq

def View.shape (v : View) : ViewShape :=
  ⟨v.rows, v.columns, v.context, v.suppressZeroRows, v.suppressZeroColumns⟩

inductive MaskKey where
  | unmasked
  | masked (pairs : List (Nat × Nat))
deriving DecidableEq

structure ViewCacheKey where
  cube : String
  version : Nat
  depVersions : List (String × Nat)
  shape : ViewShape
  sandboxScope : Option Nat
  mask : MaskKey
deriving DecidableEq

/-- What identifies a read of a view. -/
structure ViewRead where
  cube : String
  version : Nat
  depVersions : List (String × Nat)
  view : View
  sandbox : Option Sandbox
  mask : Option ElementMask
  isAdhoc : Bool

/-- The order of names, then of versions. -/
def depLe (a b : String × Nat) : Bool := a.1 < b.1 || (a.1 = b.1 && a.2 ≤ b.2)

def maskKey (mask : Option ElementMask) : MaskKey :=
  match mask with
  | some m => if m.isEmpty then .unmasked else .masked m.deniedPairs
  | none => .unmasked

def buildKey (read : ViewRead) : ViewCacheKey where
  cube := read.cube
  version := read.version
  depVersions := (read.depVersions.mergeSort depLe).dedup
  shape := read.view.shape
  sandboxScope := read.sandbox.map fun s => max s.created 1
  mask := maskKey read.mask

/-! ## The two pools -/

structure ViewCache where
  saved : Pool ViewCacheKey Cellset
  adhoc : Pool ViewCacheKey Cellset
  enabled : Bool

namespace ViewCache

/-- Views that are not saved have a quarter of the room. -/
def adhocSubcapDivisor : Nat := 4

/-- A larger cellset is not kept. -/
def maxCacheCells : Nat := 1048576

def approxBytesPerCell : Nat := 48

def withBudget (entries byteBudget : Nat) : ViewCache where
  saved := .new entries byteBudget
  adhoc :=
    if entries = 0 then .new 0 0
    else .new (max (entries / adhocSubcapDivisor) 1) (max (byteBudget / adhocSubcapDivisor) 1)
  enabled := 0 < entries

/-- The weight of a cellset, none for one that is not kept. -/
def approxBytes (c : Cellset) : Option Nat :=
  if c.cells.length ≤ maxCacheCells then
    some (max (saturatingMulUsize c.cells.length approxBytesPerCell) approxBytesPerCell)
  else none

variable (cache : ViewCache)

def pool (isAdhoc : Bool) : Pool ViewCacheKey Cellset :=
  if isAdhoc then cache.adhoc else cache.saved

def setPool (isAdhoc : Bool) (pool : Pool ViewCacheKey Cellset) : ViewCache :=
  if isAdhoc then { cache with adhoc := pool } else { cache with saved := pool }

def getOrCompute {E : Type} (read : ViewRead) (compute : Except E Cellset) :
    Except E Cellset × ViewCache :=
  if cache.enabled then
    let result := (cache.pool read.isAdhoc).readThrough (buildKey read) compute approxBytes
    (result.1, cache.setPool read.isAdhoc result.2)
  else (compute, cache)

/-- The cellset kept for a read. -/
def kept (read : ViewRead) : Option Cellset :=
  if cache.enabled then (cache.pool read.isAdhoc).peek (buildKey read) else none

/-- What is true of every kept cellset. -/
def Holds (P : ViewCacheKey → Cellset → Prop) : Prop := cache.saved.Holds P ∧ cache.adhoc.Holds P

variable {cache} {P : ViewCacheKey → Cellset → Prop}

theorem holds_withBudget {entries byteBudget : Nat} : (withBudget entries byteBudget).Holds P := by
  refine ⟨Pool.holds_new, ?_⟩
  unfold withBudget
  dsimp only
  split_ifs
  · exact Pool.holds_new
  · exact Pool.holds_new

theorem Holds.pool (h : cache.Holds P) (isAdhoc : Bool) : (cache.pool isAdhoc).Holds P := by
  unfold ViewCache.pool
  split_ifs
  · exact h.2
  · exact h.1

theorem Holds.setPool (h : cache.Holds P) {isAdhoc : Bool} {p : Pool ViewCacheKey Cellset}
    (hp : p.Holds P) : (cache.setPool isAdhoc p).Holds P := by
  unfold ViewCache.setPool
  split_ifs
  · exact ⟨h.1, hp⟩
  · exact ⟨hp, h.2⟩

theorem Holds.kept (h : cache.Holds P) {read : ViewRead} {c : Cellset}
    (hc : cache.kept read = some c) : P (buildKey read) c := by
  unfold ViewCache.kept at hc
  split_ifs at hc
  exact (h.pool read.isAdhoc).peek hc

theorem Holds.getOrCompute {E : Type} (h : cache.Holds P) {read : ViewRead}
    {compute : Except E Cellset} (hcompute : ∀ c, compute = .ok c → P (buildKey read) c) :
    (cache.getOrCompute read compute).2.Holds P := by
  unfold ViewCache.getOrCompute
  split_ifs
  · exact h.setPool ((h.pool read.isAdhoc).readThrough hcompute approxBytes)
  · exact h

/-- A read gives what it would have computed exactly when no other cellset
is kept for it. -/
theorem fst_getOrCompute_iff {E : Type} {read : ViewRead} {compute : Except E Cellset} :
    (cache.getOrCompute read compute).1 = compute ↔
      ∀ c, cache.kept read = some c → compute = .ok c := by
  unfold getOrCompute kept
  split_ifs
  · exact Pool.fst_readThrough_iff
  · simp

end ViewCache

end Epiphany
