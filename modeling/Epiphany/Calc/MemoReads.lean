import Epiphany.Calc.Reach
/-!
# Reads — one memo carried from read to read

`CalcEngine.value` reads a cell over a memo and gives the memo back. Over
the memo of earlier reads of the same engine a read is what it is over an
empty one, values and errors alike: the memo keeps no mark and only values
that a fresh read finds.
-/

namespace Epiphany

namespace Calc

open Demand

/-- A memo with no cell in it. -/
def CalcMemo.new : CalcMemo := fun _ _ => none

namespace CalcEngine

variable (e : CalcEngine)

/-- More nesting than there are cells to ask for. -/
def depth (ordinal : Nat) (coord : Coord) : Nat :=
  e.bound ordinal coord * (e.bound ordinal coord * e.bound ordinal coord ^ e.bound ordinal coord)
    + 1

theorem closed_cells (ordinal : Nat) (coord : Coord) :
    e.system.Closed (box (e.bound ordinal coord) : Set Cell) := by
  intro k hk
  have hclosed := e.closed_box (B := e.bound ordinal coord) fun n hn => lt_bound (by simp [hn])
  exact Task.within_mono (fun d hd => mem_box hd) (hclosed k (inBox_of_mem hk))

theorem cell_mem_box (ordinal : Nat) (coord : Coord) :
    ⟨ordinal, coord⟩ ∈ box (e.bound ordinal coord) :=
  mem_box (inBox_start ordinal coord)

theorem card_box_lt_depth (ordinal : Nat) (coord : Coord) :
    (box (e.bound ordinal coord)).card < e.depth ordinal coord :=
  Nat.lt_succ_of_le (card_box _)

theorem value_isSome (memo : Memo Cell Fixed) (ordinal : Nat) (coord : Coord) :
    (e.system.value (e.depth ordinal coord) ⟨ordinal, coord⟩ memo).isSome := by
  have hcard : (System.unmarked (box (e.bound ordinal coord)) memo).card <
      e.depth ordinal coord :=
    lt_of_le_of_lt (System.card_unmarked_le _ _) (e.card_box_lt_depth ordinal coord)
  obtain ⟨r, memo', h, -⟩ :=
    System.value_isSome (e.closed_cells ordinal coord) (e.cell_mem_box ordinal coord) hcard
  rw [h]
  rfl

/-- The rule-aware value at a coordinate, over a memo. -/
def value (memo : CalcMemo) (ordinal : Nat) (coord : Coord) : Except CalcError Fixed × CalcMemo :=
  let read := (e.system.value (e.depth ordinal coord) ⟨ordinal, coord⟩ (memo e.scopeId)).get
    (e.value_isSome (memo e.scopeId) ordinal coord)
  (read.1, Function.update memo e.scopeId read.2)

/-- The memo after reads one after the other. -/
def carry (memo : CalcMemo) (reads : List (Nat × Coord)) : CalcMemo :=
  reads.foldl (fun memo r => (e.value memo r.1 r.2).2) memo

/-- The value a fresh engine reads. -/
def fresh (ordinal : Nat) (coord : Coord) : Except CalcError Fixed :=
  (e.value CalcMemo.new ordinal coord).1

variable {e}

/-! ## Reads over a sound memo -/

variable (e) in
/-- The engine's partition of a memo is sound. -/
def SoundMemo (memo : CalcMemo) : Prop := e.system.Sound [] (memo e.scopeId)

theorem read_isSome (ordinal : Nat) (coord : Coord) :
    ∃ r, e.system.read (e.depth ordinal coord) [] ⟨ordinal, coord⟩ = some r := by
  refine Option.isSome_iff_exists.1 ?_
  refine System.read_isSome (e.closed_cells ordinal coord) (e.cell_mem_box ordinal coord)
    List.nodup_nil (by simp) ?_
  rw [List.length_nil, Nat.add_zero]
  exact e.card_box_lt_depth ordinal coord

/-- A read over a sound memo is the read without one, and leaves a sound
memo. -/
theorem value_of_sound {memo : CalcMemo} (hmemo : e.SoundMemo memo) (ordinal : Nat)
    (coord : Coord) :
    ∃ n, e.system.read n [] ⟨ordinal, coord⟩ = some (e.value memo ordinal coord).1 ∧
      e.SoundMemo (e.value memo ordinal coord).2 := by
  obtain ⟨r, hr⟩ := e.read_isSome ordinal coord
  obtain ⟨memo', hval, hsound⟩ := System.value_eq_read hmemo (by simp [System.Needs]) hr
  have heq : e.value memo ordinal coord = (r, Function.update memo e.scopeId memo') := by
    simp only [value, hval, Option.get_some]
  refine ⟨_, by rw [heq]; exact hr, ?_⟩
  rw [heq]
  show e.system.Sound [] (Function.update memo e.scopeId memo' e.scopeId)
  rw [Function.update_self]
  exact hsound

theorem sound_new : e.SoundMemo CalcMemo.new := System.sound_empty

/-- **Run.** The memo of a sequence of reads is sound. -/
theorem sound_carry {memo : CalcMemo} (hmemo : e.SoundMemo memo) (reads : List (Nat × Coord)) :
    e.SoundMemo (e.carry memo reads) := by
  induction reads generalizing memo with
  | nil => exact hmemo
  | cons r reads ih =>
    obtain ⟨n, -, hsound⟩ := value_of_sound hmemo r.1 r.2
    exact ih hsound

/-- The other partitions of a memo stay as they are. -/
theorem carry_of_ne {memo : CalcMemo} {scope : Nat} (h : scope ≠ e.scopeId)
    (reads : List (Nat × Coord)) : e.carry memo reads scope = memo scope := by
  induction reads generalizing memo with
  | nil => rfl
  | cons r reads ih =>
    refine ih.trans ?_
    simp only [value, Function.update_of_ne h]

theorem fresh_eq_iff {ordinal : Nat} {coord : Coord} {r : Except CalcError Fixed} :
    e.fresh ordinal coord = r ↔ ∃ n, e.system.read n [] ⟨ordinal, coord⟩ = some r := by
  obtain ⟨n, hn, -⟩ := value_of_sound e.sound_new ordinal coord
  constructor
  · rintro rfl
    exact ⟨n, hn⟩
  · rintro ⟨m, hm⟩
    exact System.read_unique hn hm

theorem value_eq_fresh {memo : CalcMemo} (hmemo : e.SoundMemo memo) (ordinal : Nat)
    (coord : Coord) : (e.value memo ordinal coord).1 = e.fresh ordinal coord := by
  obtain ⟨n, hn, -⟩ := value_of_sound hmemo ordinal coord
  exact (fresh_eq_iff.2 ⟨n, hn⟩).symm

/-- A read that comes to a cell which demands itself reports a cycle. -/
theorem fresh_of_cyclic {ordinal : Nat} {coord : Coord} {d : Cell}
    (hd : Relation.ReflTransGen e.system.Demands ⟨ordinal, coord⟩ d)
    (hcyclic : Relation.TransGen e.system.Demands d d) :
    ∃ cube point, e.fresh ordinal coord = .error (.cycle cube point) := by
  obtain ⟨n, hn, -⟩ := value_of_sound e.sound_new ordinal coord
  obtain ⟨p, hp⟩ := System.read_of_cyclic hd hcyclic hn
  exact ⟨_, _, hp⟩

variable (e) in
/-- **Memoised evaluation is fresh evaluation.** After any earlier reads of
an engine, a read finds what a fresh engine finds; the memo holds no mark;
and a read that comes to a cell which demands itself reports a cycle. -/
theorem value_carried (earlier : List (Nat × Coord)) (ordinal : Nat) (coord : Coord) :
    (e.value (e.carry CalcMemo.new earlier) ordinal coord).1 = e.fresh ordinal coord ∧
      (∀ scope k, e.carry CalcMemo.new earlier scope k ≠ some .computing) ∧
      ∀ d, Relation.ReflTransGen e.system.Demands ⟨ordinal, coord⟩ d →
        Relation.TransGen e.system.Demands d d →
        ∃ cube point, (e.value (e.carry CalcMemo.new earlier) ordinal coord).1 =
          .error (.cycle cube point) := by
  have hsound := sound_carry e.sound_new earlier
  have hfresh := value_eq_fresh hsound ordinal coord
  refine ⟨hfresh, fun scope k hk => ?_, fun d hd hcyclic => ?_⟩
  · by_cases hscope : scope = e.scopeId
    · subst hscope
      cases (hsound.marked k).1 hk
    · rw [carry_of_ne hscope] at hk
      cases hk
  · rw [hfresh]
    exact fresh_of_cyclic hd hcyclic

end CalcEngine

end Calc

end Epiphany
