import Epiphany.Calc.SparseGate
import Epiphany.Rules.Areas
import Epiphany.Rules.Parse
/-!
# Pinned registries — snapshots with their compiled rules

A set of snapshots is compiled once, each cube's rules against all cubes of the
set. A cube whose rules do not parse or do not compile is kept with the reason,
and its reads fail with it. What does compile fits its cube (`fits_ofSnaps`), so
the sparse gate tells no read of the set apart from the dense walks
(`value_ofSnaps`).
-/

namespace Epiphany

namespace Rules

open Lexing (CharTable)
open Calc (CalcEngine CalcMemo CompiledModel EvalRegistry SandboxOverlay)
open Calc.PinnedRegistry

/-- A snapshot of a cube, with the source of its rules. The names of its
dimensions differ. -/
structure Snap where
  cube : Cube
  wf : cube.WF
  distinct : (cube.dimensions.map Dimension.name).Nodup
  source : String

/-- The cubes of a set of snapshots, by their places in it. -/
def snapCubes (snaps : List Snap) : CubeRegistry where
  ordinal name := snaps.findIdx? fun s => s.cube.name = name
  cube o := snaps[o]?.map Snap.cube

section

variable (T : CharTable)

/-- The rules of a snapshot, or the reason why there are none. -/
def compileSnapshot (registry : CubeRegistry) (s : Snap) : Except String CompiledModel := do
  let doc ← (parse T s.source.toList).mapError RuleParseError.toString
  (compile s.cube registry doc).mapError CompileError.toString

/-- The reason, if rules do not compile. -/
def compileFailure : Except String CompiledModel → Option String
  | .error reason => some reason
  | .ok _ => none

def Snap.entry (registry : CubeRegistry) (s : Snap) : Calc.Entry where
  cube := s.cube
  wf := s.wf
  compiled := (compileSnapshot T registry s).toOption
  compileError := compileFailure (compileSnapshot T registry s)
  fedSet := none

theorem ofSnaps_bounded (snaps : List Snap) (o : Nat) (h : snaps.length ≤ o) :
    snaps[o]?.map (Snap.entry T (snapCubes snaps)) = none := by
  rw [List.getElem?_eq_none h]
  rfl

/-- Snapshots with their rules, compiled against all of them. -/
def ofSnaps (snaps : List Snap) : EvalRegistry where
  entry o := snaps[o]?.map (Snap.entry T (snapCubes snaps))
  size := snaps.length
  bounded := ofSnaps_bounded T snaps

variable {T} {snaps : List Snap} {o : Nat}

theorem entry_ofSnaps {x : Calc.Entry} (h : (ofSnaps T snaps).entry o = some x) :
    ∃ s, snaps[o]? = some s ∧ x = s.entry T (snapCubes snaps) := by
  obtain ⟨s, hs, rfl⟩ := Option.map_eq_some_iff.1 h
  exact ⟨s, hs, rfl⟩

theorem compileSnapshot_eq_ok {registry : CubeRegistry} {s : Snap} {cm : CompiledModel} :
    compileSnapshot T registry s = .ok cm ↔
      ∃ doc, parse T s.source.toList = .ok doc ∧ compile s.cube registry doc = .ok cm := by
  unfold compileSnapshot
  rw [bind_eq_ok]
  simp only [mapError_eq_ok]

/-- The compiled rules of a set fit their cubes. -/
theorem fits_ofSnaps {x : Calc.Entry} {cm : CompiledModel}
    (h : (ofSnaps T snaps).entry o = some x) (hcm : x.compiled = some cm) : cm.Fits x.cube := by
  obtain ⟨s, -, rfl⟩ := entry_ofSnaps h
  rcases hcompile : compileSnapshot T (snapCubes snaps) s with err | cm'
  · simp [Snap.entry, hcompile, Except.toOption] at hcm
  · obtain rfl : cm' = cm := by simpa [Snap.entry, hcompile, Except.toOption] using hcm
    obtain ⟨doc, -, hdoc⟩ := compileSnapshot_eq_ok.1 hcompile
    exact fits_of_compile s.distinct hdoc

/-- **The sparse gate of a compiled set is sound.** -/
theorem value_ofSnaps (snaps : List Snap) (overlay : Option SandboxOverlay)
    (mask : Option ElementMask) (target : Nat) (earlier : List (Nat × Coord)) (ordinal : Nat)
    (coord : Coord) :
    let e := CalcEngine.mk (fromSnaps (ofSnaps T snaps)) overlay mask target
    (e.value (e.carry CalcMemo.new earlier) ordinal coord).1 =
      (CalcEngine.mk (dense (ofSnaps T snaps)) overlay mask target).fresh
        ordinal coord := by
  intro e
  rw [CalcEngine.value_eq_fresh (CalcEngine.sound_carry e.sound_new earlier)]
  exact fresh_fromSnaps (fun _ _ _ hx hcm => fits_ofSnaps hx hcm) overlay mask
    target ordinal coord

end

end Rules

end Epiphany
