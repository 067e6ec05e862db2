import Epiphany.Calc.Explain
/-!
# Provenance — an explanation says what the evaluator finds

A trace carries the evaluator's value at every node. Where a rule fired its
inputs are what the evaluation read, in order, and with it every cell of a
condition that the evaluation came to, also those it skipped once the
condition was decided (`InputsOf`). The explanation fails exactly when one
of the cells it comes to list has no value (`explainWith_agrees`). Of a
conditional inside an operand of a condition nothing is said: its branches
are both listed, where the evaluation takes one.
-/

namespace Epiphany

namespace Calc

open Demand Sections

/-- An expression with a conditional. -/
def CExpr.hasIf : CExpr → Bool
  | .neg x => x.hasIf
  | .bin _ left right => left.hasIf || right.hasIf
  | .ifThen _ _ | .ifElse _ _ _ => true
  | .num _ | .undef | .attrNum _ _ | .cell _ => false

/-- A condition that compares expressions without conditionals. -/
def CCond.plain : CCond → Bool
  | .and a b | .or a b => a.plain && b.plain
  | .not c => c.plain
  | .compare left _ right => !left.hasIf && !right.hasIf

/-- An expression whose conditions are plain. -/
def CExpr.plainConditions : CExpr → Bool
  | .neg x => x.plainConditions
  | .bin _ left right => left.plainConditions && right.plainConditions
  | .ifThen cond then_ => cond.plain && then_.plainConditions
  | .ifElse cond then_ otherwise =>
    cond.plain && then_.plainConditions && otherwise.plainConditions
  | .num _ | .undef | .attrNum _ _ | .cell _ => true

/-- The leaf coordinates under a coordinate, in the order of the walk. -/
def leavesUnder (cube : Cube) (coord : Coord) : List Coord :=
  match contributingLeafDims cube coord with
  | .ok perDim => coordWalk perDim
  | .error _ => []

namespace CalcEngine

variable (e : CalcEngine)

/-- The value a fresh engine reads at a cell. -/
def freshAt (k : Cell) : Except CalcError Fixed := e.fresh k.ordinal k.coord

/-- The cells the evaluation of an expression reads. -/
def reads (ordinal : Nat) (target : Coord) (x : CExpr) : List Cell :=
  (e.evalExpr ordinal target x).asked e.freshAt

/-- What a condition comes to. -/
def holds (ordinal : Nat) (target : Coord) (cond : CCond) : Except CalcError Bool :=
  (e.evalCond ordinal target cond).result e.freshAt

/-- The evaluation of an expression comes to a conditional, outside of any
condition. -/
inductive Meets (ordinal : Nat) (target : Coord) : CExpr → CCond → Prop
  | neg {x : CExpr} {cond : CCond} (h : Meets ordinal target x cond) :
      Meets ordinal target (.neg x) cond
  | left {op : ArithOp} {left right : CExpr} {cond : CCond} (h : Meets ordinal target left cond) :
      Meets ordinal target (.bin op left right) cond
  | right {op : ArithOp} {left right : CExpr} {cond : CCond} (h : Meets ordinal target right cond) :
      Meets ordinal target (.bin op left right) cond
  | ifThen (cond : CCond) (then_ : CExpr) : Meets ordinal target (.ifThen cond then_) cond
  | ifElse (cond : CCond) (then_ otherwise : CExpr) :
      Meets ordinal target (.ifElse cond then_ otherwise) cond
  | only {c cond : CCond} {then_ : CExpr} (hc : e.holds ordinal target c = .ok true)
      (h : Meets ordinal target then_ cond) : Meets ordinal target (.ifThen c then_) cond
  | then_ {c cond : CCond} {then_ otherwise : CExpr} (hc : e.holds ordinal target c = .ok true)
      (h : Meets ordinal target then_ cond) :
      Meets ordinal target (.ifElse c then_ otherwise) cond
  | otherwise {c cond : CCond} {then_ otherwise : CExpr}
      (hc : e.holds ordinal target c = .ok false) (h : Meets ordinal target otherwise cond) :
      Meets ordinal target (.ifElse c then_ otherwise) cond

/-- A cell goes into a formula: it is read, or a condition that the
evaluation comes to refers to it. -/
def Consults (ordinal : Nat) (target : Coord) (x : CExpr) (k : Cell) : Prop :=
  k ∈ e.reads ordinal target x ∨
    ∃ cond, e.Meets ordinal target x cond ∧ k ∈ (conditionCells cond).map (cellAt target)

/-- The cells of a formula that has a value, in source order: all those of
the conditions that the evaluation comes to, and those of the branches it
takes. -/
inductive Cites (ordinal : Nat) (target : Coord) : CExpr → List Cell → Prop
  | num (f : Fixed) : Cites ordinal target (.num f) []
  | undef : Cites ordinal target .undef []
  | attrNum (dimPos attr : Nat) : Cites ordinal target (.attrNum dimPos attr) []
  | cell (cell : CCell) : Cites ordinal target (.cell cell) [cellAt target cell]
  | neg {x : CExpr} {cells : List Cell} (h : Cites ordinal target x cells) :
      Cites ordinal target (.neg x) cells
  | bin {op : ArithOp} {left right : CExpr} {as bs : List Cell}
      (hleft : Cites ordinal target left as) (hright : Cites ordinal target right bs) :
      Cites ordinal target (.bin op left right) (as ++ bs)
  | only {c : CCond} {then_ : CExpr} {cells : List Cell}
      (hc : e.holds ordinal target c = .ok true) (h : Cites ordinal target then_ cells) :
      Cites ordinal target (.ifThen c then_) ((conditionCells c).map (cellAt target) ++ cells)
  | neither {c : CCond} {then_ : CExpr} (hc : e.holds ordinal target c = .ok false) :
      Cites ordinal target (.ifThen c then_) ((conditionCells c).map (cellAt target) ++ [])
  | then_ {c : CCond} {then_ otherwise : CExpr} {cells : List Cell}
      (hc : e.holds ordinal target c = .ok true) (h : Cites ordinal target then_ cells) :
      Cites ordinal target (.ifElse c then_ otherwise)
        ((conditionCells c).map (cellAt target) ++ cells)
  | otherwise {c : CCond} {then_ otherwise : CExpr} {cells : List Cell}
      (hc : e.holds ordinal target c = .ok false) (h : Cites ordinal target otherwise cells) :
      Cites ordinal target (.ifElse c then_ otherwise)
        ((conditionCells c).map (cellAt target) ++ cells)

/-- The evaluator gives a value at a cell. -/
def HasValue (k : Cell) : Prop := ∃ v, e.freshAt k = .ok v

/-- A leaf whose value counts in a consolidation. -/
def nonzeroAt (ordinal : Nat) (a : Coord) : Bool := e.freshAt ⟨ordinal, a⟩ ≠ .ok Fixed.zero

/-- The leaves under a coordinate whose value is not zero, in order. -/
def contributing (x : Entry) (k : Cell) : List Cell :=
  ((leavesUnder x.cube k.coord).filter (e.nonzeroAt k.ordinal)).map fun a => ⟨k.ordinal, a⟩

/-- What made a cell: its cube, and the rule that fires there, if any. -/
structure MadeBy (k : Cell) (x : Entry) (rule : Option (CompiledRule × Nat)) : Prop where
  entry : e.registry.entry k.ordinal = some x
  rule : (x.compiled.bind fun cm => cm.firing x.cube k.coord) = rule

/-- The inputs of a cell. Those of a rule are what the evaluation read, in
its order, and the cells of the conditions it came to, in source order; those
of a consolidation are its contributing leaves, up to the cap. -/
inductive InputsOf (k : Cell) : TraceKind → Bool → List Cell → Prop
  | rule {x : Entry} {rule : CompiledRule} {index : Nat} {inputs : List Cell}
      (hmade : e.MadeBy k x (some (rule, index)))
      (hreads : (e.reads k.ordinal k.coord rule.expr).Sublist inputs)
      (hcites : rule.expr.plainConditions = true → e.Cites k.ordinal k.coord rule.expr inputs)
      (hmem : rule.expr.plainConditions = true →
        ∀ d, d ∈ inputs ↔ e.Consults k.ordinal k.coord rule.expr d) :
      InputsOf k (.rule index) false inputs
  | stored {x : Entry} (hmade : e.MadeBy k x none) (hleaf : allLeaf x.cube k.coord = true) :
      InputsOf k .stored false []
  | consolidation {x : Entry} (hmade : e.MadeBy k x none)
      (hleaf : allLeaf x.cube k.coord = false) :
      InputsOf k (.consolidation ((e.contributing x k).take maxExplainInputs).length)
        (decide (maxExplainInputs < (e.contributing x k).length))
        ((e.contributing x k).take maxExplainInputs)

/-- The kind of a node that lists no inputs. -/
inductive KindOf (k : Cell) : TraceKind → Prop
  | rule {x : Entry} {rule : CompiledRule} {index : Nat}
      (hmade : e.MadeBy k x (some (rule, index))) : KindOf k (.rule index)
  | stored {x : Entry} (hmade : e.MadeBy k x none) (hleaf : allLeaf x.cube k.coord = true) :
      KindOf k .stored
  | consolidation {x : Entry} (hmade : e.MadeBy k x none)
      (hleaf : allLeaf x.cube k.coord = false) : KindOf k (.consolidation 0)

/-- A node names its cell and carries the value the evaluator gives. -/
structure Describes (k : Cell) (t : CellTrace) : Prop where
  names : ∃ x, e.registry.entry k.ordinal = some x ∧ t.cube = x.cube.name ∧
    t.coord = Cube.memberNames x.cube.dimensions k.coord
  value : e.freshAt k = .ok t.value

/-- **A trace says what the evaluator finds**, at every node, and lists the
inputs of each node above the last level. -/
def Agrees : Nat → Cell → CellTrace → Prop
  | 0, k, t | 1, k, t =>
    e.Describes k t ∧ e.KindOf k t.kind ∧ t.inputs = [] ∧ t.inputsTruncated = false
  | remaining + 2, k, t =>
    e.Describes k t ∧ ∃ inputs, e.InputsOf k t.kind t.inputsTruncated inputs ∧
      List.Forall₂ (Agrees (remaining + 1)) inputs t.inputs

/-- The leaves that a walk comes to: those with at most `n` before them
that count. -/
def Walked (ordinal n : Nat) (leaves : List Coord) (a : Coord) : Prop :=
  ∃ before after, leaves = before ++ a :: after ∧
    (before.filter (e.nonzeroAt ordinal)).length ≤ n

/-- The cells that an explanation asks for, by the levels that are left. -/
inductive Lists : Nat → Cell → Cell → Prop
  | self (remaining : Nat) (k : Cell) : Lists remaining k k
  | rule {remaining : Nat} {k d d' : Cell} {x : Entry} {rule : CompiledRule} {index : Nat}
      (hmade : e.MadeBy k x (some (rule, index)))
      (hd : e.Consults k.ordinal k.coord rule.expr d) (h : Lists (remaining + 1) d d') :
      Lists (remaining + 2) k d'
  | leaf {remaining : Nat} {k : Cell} {a : Coord} {x : Entry} (hmade : e.MadeBy k x none)
      (hleaf : allLeaf x.cube k.coord = false)
      (ha : e.Walked k.ordinal maxExplainInputs (leavesUnder x.cube k.coord) a) :
      Lists (remaining + 2) k ⟨k.ordinal, a⟩
  | contribution {remaining : Nat} {k d d' : Cell} {x : Entry} (hmade : e.MadeBy k x none)
      (hleaf : allLeaf x.cube k.coord = false)
      (hd : d ∈ (e.contributing x k).take maxExplainInputs) (h : Lists (remaining + 1) d d') :
      Lists (remaining + 2) k d'

/-- The formulas whose inputs an explanation lists. -/
inductive Expands : Nat → Cell → CExpr → Prop
  | self {remaining : Nat} {k : Cell} {x : Entry} {rule : CompiledRule} {index : Nat}
      (hmade : e.MadeBy k x (some (rule, index))) : Expands (remaining + 2) k rule.expr
  | rule {remaining : Nat} {k d : Cell} {x : Entry} {rule : CompiledRule} {index : Nat}
      {expr : CExpr} (hmade : e.MadeBy k x (some (rule, index)))
      (hd : e.Consults k.ordinal k.coord rule.expr d) (h : Expands (remaining + 1) d expr) :
      Expands (remaining + 2) k expr
  | contribution {remaining : Nat} {k d : Cell} {x : Entry} {expr : CExpr}
      (hmade : e.MadeBy k x none) (hleaf : allLeaf x.cube k.coord = false)
      (hd : d ∈ (e.contributing x k).take maxExplainInputs)
      (h : Expands (remaining + 1) d expr) : Expands (remaining + 2) k expr

variable {e} {ordinal : Nat} {target : Coord}

/-! ## What an evaluation reads -/

theorem asked_bind_sublist {α β : Type} {t : Eval α} {f : α → Eval β} {a b : List Cell}
    (ht : (t.asked e.freshAt).Sublist a) (hf : ∀ v, ((f v).asked e.freshAt).Sublist b) :
    ((t >>= f).asked e.freshAt).Sublist (a ++ b) := by
  rw [Task.asked_bind]
  refine ht.append ?_
  cases t.result e.freshAt with
  | ok v => exact hf v
  | error err => exact List.nil_sublist b

theorem asked_done_sublist {α : Type} (r : Except CalcError α) (a : List Cell) :
    ((Task.done r : Eval α).asked e.freshAt).Sublist a := List.nil_sublist a

mutual

/-- What is read of an expression is among its cells. -/
theorem reads_sublist (x : CExpr) :
    ((e.evalExpr ordinal target x).asked e.freshAt).Sublist
      ((exprCells x).map (cellAt target)) := by
  cases x with
  | num f => exact List.nil_sublist _
  | undef => exact List.nil_sublist _
  | attrNum dimPos attr =>
    unfold evalExpr
    split
    · exact List.nil_sublist _
    · exact List.nil_sublist _
  | cell cell =>
    unfold evalExpr cellValue exprCells
    rw [Task.asked_request]
    exact List.Sublist.refl _
  | neg x =>
    unfold evalExpr exprCells
    have h := asked_bind_sublist (reads_sublist x) fun v =>
      asked_done_sublist (toFixed (-v.toScaled)) []
    rwa [List.append_nil] at h
  | bin op left right =>
    unfold evalExpr exprCells
    rw [List.map_append]
    refine asked_bind_sublist (reads_sublist left) fun a => ?_
    have h := asked_bind_sublist (reads_sublist right) fun b => asked_done_sublist (arith op a b) []
    rwa [List.append_nil] at h
  | ifThen cond then_ =>
    unfold evalExpr exprCells
    rw [List.map_append]
    refine asked_bind_sublist (asked_cond_sublist cond) fun b => ?_
    split_ifs
    · exact reads_sublist then_
    · exact asked_done_sublist _ _
  | ifElse cond then_ otherwise =>
    unfold evalExpr exprCells
    rw [List.append_assoc, List.map_append]
    refine asked_bind_sublist (asked_cond_sublist cond) fun b => ?_
    rw [List.map_append]
    split_ifs
    · exact (reads_sublist then_).trans (List.sublist_append_left _ _)
    · exact (reads_sublist otherwise).trans (List.sublist_append_right _ _)

/-- What is read of a condition is among its cells. -/
theorem asked_cond_sublist (c : CCond) :
    ((e.evalCond ordinal target c).asked e.freshAt).Sublist
      ((conditionCells c).map (cellAt target)) := by
  cases c with
  | and a b =>
    unfold evalCond conditionCells
    rw [List.map_append]
    refine asked_bind_sublist (asked_cond_sublist a) fun v => ?_
    split_ifs
    · exact asked_cond_sublist b
    · exact asked_done_sublist _ _
  | or a b =>
    unfold evalCond conditionCells
    rw [List.map_append]
    refine asked_bind_sublist (asked_cond_sublist a) fun v => ?_
    split_ifs
    · exact asked_done_sublist _ _
    · exact asked_cond_sublist b
  | not c =>
    unfold evalCond conditionCells
    have h := asked_bind_sublist (asked_cond_sublist c) fun v =>
      asked_done_sublist (.ok (!v)) []
    rwa [List.append_nil] at h
  | compare left op right =>
    unfold evalCond conditionCells
    rw [List.map_append]
    refine asked_bind_sublist (reads_sublist left) fun a => ?_
    have h := asked_bind_sublist (reads_sublist right) fun b =>
      asked_done_sublist (.ok (compare a.toScaled b.toScaled op)) []
    rwa [List.append_nil] at h

end

/-! ## What a formula consulted -/

theorem consults_bin {op : ArithOp} {left right : CExpr} {a : Fixed}
    (hleft : (e.evalExpr ordinal target left).result e.freshAt = .ok a) {k : Cell} :
    e.Consults ordinal target (.bin op left right) k ↔
      e.Consults ordinal target left k ∨ e.Consults ordinal target right k := by
  have hreads : e.reads ordinal target (.bin op left right) =
      e.reads ordinal target left ++ e.reads ordinal target right := by
    unfold reads
    rw [evalExpr, Task.asked_bind_of_ok hleft, Task.asked_bind]
    cases (e.evalExpr ordinal target right).result e.freshAt with
    | ok b => exact congrArg _ (List.append_nil _)
    | error err => exact congrArg _ (List.append_nil _)
  unfold Consults
  rw [hreads, List.mem_append]
  constructor
  · rintro ((h | h) | ⟨cond, hmeets, hk⟩)
    · exact Or.inl (Or.inl h)
    · exact Or.inr (Or.inl h)
    · cases hmeets with
      | left h => exact Or.inl (Or.inr ⟨cond, h, hk⟩)
      | right h => exact Or.inr (Or.inr ⟨cond, h, hk⟩)
  · rintro ((h | ⟨cond, hmeets, hk⟩) | (h | ⟨cond, hmeets, hk⟩))
    · exact Or.inl (Or.inl h)
    · exact Or.inr ⟨cond, .left hmeets, hk⟩
    · exact Or.inl (Or.inr h)
    · exact Or.inr ⟨cond, .right hmeets, hk⟩

theorem consults_neg {x : CExpr} {k : Cell} :
    e.Consults ordinal target (.neg x) k ↔ e.Consults ordinal target x k := by
  have hreads : e.reads ordinal target (.neg x) = e.reads ordinal target x := by
    unfold reads
    rw [evalExpr, Task.asked_bind]
    cases (e.evalExpr ordinal target x).result e.freshAt with
    | ok b => exact List.append_nil _
    | error err => exact List.append_nil _
  unfold Consults
  rw [hreads]
  constructor
  · rintro (h | ⟨cond, hmeets, hk⟩)
    · exact Or.inl h
    · cases hmeets with
      | neg h => exact Or.inr ⟨cond, h, hk⟩
  · rintro (h | ⟨cond, hmeets, hk⟩)
    · exact Or.inl h
    · exact Or.inr ⟨cond, .neg hmeets, hk⟩

/-- A conditional consults the cells of its condition, and what the branch
taken consults. -/
theorem consults_of_branch {x branch : CExpr} {c : CCond} {b : Bool} {f : Bool → Eval Fixed}
    (heval : e.evalExpr ordinal target x = e.evalCond ordinal target c >>= f)
    (hc : e.holds ordinal target c = .ok b) (hbranch : f b = e.evalExpr ordinal target branch)
    (hself : e.Meets ordinal target x c)
    (hmeets : ∀ cond, e.Meets ordinal target x cond ↔
      cond = c ∨ e.Meets ordinal target branch cond) {k : Cell} :
    e.Consults ordinal target x k ↔
      k ∈ (conditionCells c).map (cellAt target) ∨ e.Consults ordinal target branch k := by
  have hreads : e.reads ordinal target x =
      (e.evalCond ordinal target c).asked e.freshAt ++ e.reads ordinal target branch := by
    unfold reads
    rw [heval, Task.asked_bind_of_ok hc, hbranch]
  unfold Consults
  rw [hreads, List.mem_append]
  constructor
  · rintro ((h | h) | ⟨cond, hcond, hk⟩)
    · exact Or.inl ((asked_cond_sublist c).mem h)
    · exact Or.inr (Or.inl h)
    · rcases (hmeets cond).1 hcond with rfl | hcond
      · exact Or.inl hk
      · exact Or.inr (Or.inr ⟨cond, hcond, hk⟩)
  · rintro (hk | h | ⟨cond, hcond, hk⟩)
    · exact Or.inr ⟨c, hself, hk⟩
    · exact Or.inl (Or.inr h)
    · exact Or.inr ⟨cond, (hmeets cond).2 (Or.inr hcond), hk⟩

/-- The cells that the walk of a formula finds. -/
structure Consulted (e : CalcEngine) (ordinal : Nat) (target : Coord) (x : CExpr)
    (cells : List CCell) : Prop where
  found : (e.consultedCells ordinal target x).result e.freshAt = .ok cells
  reads : (e.reads ordinal target x).Sublist (cells.map (cellAt target))
  cites : e.Cites ordinal target x (cells.map (cellAt target))
  mem : ∀ k, k ∈ cells.map (cellAt target) ↔ e.Consults ordinal target x k

/-- A formula that refers to no cell. -/
theorem Consulted.nil {x : CExpr} (hfound : e.consultedCells ordinal target x = pure [])
    (hreads : e.reads ordinal target x = []) (hcites : e.Cites ordinal target x [])
    (hmeets : ∀ cond, ¬ e.Meets ordinal target x cond) : Consulted e ordinal target x [] where
  found := by rw [hfound]; rfl
  reads := by rw [hreads]; exact List.nil_sublist _
  cites := hcites
  mem k := by
    unfold Consults
    rw [hreads]
    constructor
    · intro h
      cases h
    · rintro (h | ⟨cond, h, -⟩)
      · cases h
      · exact absurd h (hmeets cond)

/-- A conditional: the cells of its condition, and those of the branch. -/
theorem Consulted.branch {x branch : CExpr} {c : CCond} {b : Bool} {f : Bool → Eval Fixed}
    {g : Bool → Eval (List CCell)} {cells : List CCell}
    (heval : e.evalExpr ordinal target x = e.evalCond ordinal target c >>= f)
    (hfound : e.consultedCells ordinal target x = e.evalCond ordinal target c >>= g)
    (hc : e.holds ordinal target c = .ok b) (hbranch : f b = e.evalExpr ordinal target branch)
    (hcells : (g b).result e.freshAt = .ok (conditionCells c ++ cells))
    (hself : e.Meets ordinal target x c)
    (hmeets : ∀ cond, e.Meets ordinal target x cond ↔
      cond = c ∨ e.Meets ordinal target branch cond)
    (h : Consulted e ordinal target branch cells)
    (hcites : e.Cites ordinal target x
      ((conditionCells c).map (cellAt target) ++ cells.map (cellAt target))) :
    Consulted e ordinal target x (conditionCells c ++ cells) where
  found := by
    rw [hfound, Task.result_bind]
    exact bind_eq_ok.2 ⟨b, hc, hcells⟩
  reads := by
    unfold CalcEngine.reads
    rw [heval, Task.asked_bind_of_ok hc, hbranch, List.map_append]
    exact (asked_cond_sublist c).append h.reads
  cites := by rw [List.map_append]; exact hcites
  mem k := by
    rw [consults_of_branch heval hc hbranch hself hmeets, List.map_append, List.mem_append, h.mem k]

theorem consulted_num (f : Fixed) : Consulted e ordinal target (.num f) [] := by
  refine .nil (by unfold consultedCells; rfl) (by unfold reads evalExpr; rfl) (.num f)
    fun cond h => ?_
  cases h

/-- **A formula that has a value** has its consulted cells found. -/
theorem exists_consulted (x : CExpr) {v : Fixed}
    (h : (e.evalExpr ordinal target x).result e.freshAt = .ok v) :
    ∃ cells, Consulted e ordinal target x cells := by
  cases x with
  | num f => exact ⟨[], consulted_num f⟩
  | undef =>
    refine ⟨[], .nil (by unfold consultedCells; rfl) (by unfold reads evalExpr; rfl) .undef
      fun cond h => ?_⟩
    cases h
  | attrNum dimPos attr =>
    refine ⟨[], .nil (by unfold consultedCells; rfl) ?_ (.attrNum dimPos attr) fun cond h => by
      cases h⟩
    unfold reads evalExpr
    split
    · rfl
    · rfl
  | cell cell =>
    refine ⟨[cell], by unfold consultedCells; rfl, ?_, .cell cell, fun k => ?_⟩
    · exact reads_sublist (CExpr.cell cell)
    · have hreads : e.reads ordinal target (.cell cell) = [cellAt target cell] := by
        unfold reads evalExpr cellValue
        exact Task.asked_request _
      unfold Consults
      rw [hreads]
      refine ⟨Or.inl, ?_⟩
      rintro (h | ⟨cond, h, -⟩)
      · exact h
      · cases h
  | neg x =>
    rw [evalExpr, Task.result_bind] at h
    obtain ⟨a, hx, -⟩ := bind_eq_ok.1 h
    obtain ⟨cells, hcells⟩ := exists_consulted x hx
    refine ⟨cells, by unfold consultedCells; exact hcells.found, ?_, .neg hcells.cites,
      fun k => ?_⟩
    · have hreads := hcells.reads
      unfold reads at hreads ⊢
      rw [evalExpr, Task.asked_bind_of_ok hx]
      exact (List.append_nil _).symm ▸ hreads
    · rw [consults_neg, hcells.mem k]
  | bin op left right =>
    rw [evalExpr, Task.result_bind] at h
    obtain ⟨a, hleft, h⟩ := bind_eq_ok.1 h
    rw [Task.result_bind] at h
    obtain ⟨b, hright, -⟩ := bind_eq_ok.1 h
    -- both operands have values, so the cells of each are found
    obtain ⟨as, has⟩ := exists_consulted left hleft
    obtain ⟨bs, hbs⟩ := exists_consulted right hright
    refine ⟨as ++ bs, ?_, ?_, ?_, fun k => ?_⟩
    · rw [consultedCells, Task.result_bind]
      refine bind_eq_ok.2 ⟨as, has.found, ?_⟩
      rw [Task.result_bind]
      exact bind_eq_ok.2 ⟨bs, hbs.found, rfl⟩
    · have hreads := has.reads.append hbs.reads
      unfold reads at hreads ⊢
      rw [evalExpr, Task.asked_bind_of_ok hleft, Task.asked_bind_of_ok hright, List.map_append]
      exact (List.append_nil _).symm ▸ hreads
    · rw [List.map_append]
      exact .bin has.cites hbs.cites
    · rw [consults_bin hleft, List.map_append, List.mem_append, has.mem k, hbs.mem k]
  | ifThen cond then_ =>
    rw [evalExpr, Task.result_bind] at h
    obtain ⟨b, hc, h⟩ := bind_eq_ok.1 h
    cases b with
    | true =>
      obtain ⟨cells, hcells⟩ := exists_consulted then_ h
      refine ⟨_, .branch (by unfold evalExpr; rfl) (by unfold consultedCells; rfl) hc rfl ?_
        (.ifThen cond then_) (fun c => ?_) hcells (.only hc hcells.cites)⟩
      · rw [if_pos rfl, Task.result_bind]
        exact bind_eq_ok.2 ⟨cells, hcells.found, rfl⟩
      · constructor
        · intro hm
          cases hm with
          | ifThen => exact Or.inl rfl
          | only _ hm => exact Or.inr hm
        · rintro (rfl | hm)
          · exact .ifThen _ _
          · exact .only hc hm
    | false =>
      -- no branch is taken: the value is zero, and only the cells of the condition are listed
      refine ⟨_, .branch (by unfold evalExpr; rfl) (by unfold consultedCells; rfl) hc ?_ ?_
        (.ifThen cond then_) (fun c => ?_) (consulted_num Fixed.zero) (.neither hc)⟩
      · unfold evalExpr
        rfl
      · rw [if_neg Bool.false_ne_true, List.append_nil]
        rfl
      · constructor
        · intro hm
          cases hm with
          | ifThen => exact Or.inl rfl
          | only hc' hm => cases Except.ok.inj (hc.symm.trans hc')
        · rintro (rfl | hm)
          · exact .ifThen _ _
          · cases hm
  | ifElse cond then_ otherwise =>
    rw [evalExpr, Task.result_bind] at h
    obtain ⟨b, hc, h⟩ := bind_eq_ok.1 h
    cases b with
    | true =>
      obtain ⟨cells, hcells⟩ := exists_consulted then_ h
      refine ⟨_, .branch (by unfold evalExpr; rfl) (by unfold consultedCells; rfl) hc rfl ?_
        (.ifElse cond then_ otherwise) (fun c => ?_) hcells (.then_ hc hcells.cites)⟩
      · rw [if_pos rfl, Task.result_bind]
        exact bind_eq_ok.2 ⟨cells, hcells.found, rfl⟩
      · constructor
        · intro hm
          cases hm with
          | ifElse => exact Or.inl rfl
          | then_ _ hm => exact Or.inr hm
          | otherwise hc' _ => cases Except.ok.inj (hc.symm.trans hc')
        · rintro (rfl | hm)
          · exact .ifElse _ _ _
          · exact .then_ hc hm
    | false =>
      -- the branch that is not taken adds no cell
      obtain ⟨cells, hcells⟩ := exists_consulted otherwise h
      refine ⟨_, .branch (by unfold evalExpr; rfl) (by unfold consultedCells; rfl) hc rfl ?_
        (.ifElse cond then_ otherwise) (fun c => ?_) hcells (.otherwise hc hcells.cites)⟩
      · rw [if_neg Bool.false_ne_true, Task.result_bind]
        exact bind_eq_ok.2 ⟨cells, hcells.found, rfl⟩
      · constructor
        · intro hm
          cases hm with
          | ifElse => exact Or.inl rfl
          | then_ hc' _ => cases Except.ok.inj (hc.symm.trans hc')
          | otherwise _ hm => exact Or.inr hm
        · rintro (rfl | hm)
          · exact .ifElse _ _ _
          · exact .otherwise hc hm

/-! ## The value of a node -/

/-- The task of a cell that has a value comes to it by the values of the
cells it asks for. -/
theorem result_compute {k : Cell} {v : Fixed} (h : e.freshAt k = .ok v) :
    (e.compute k.ordinal k.coord).result e.freshAt = .ok v := by
  obtain ⟨n, hn⟩ := fresh_eq_iff.1 h
  refine System.result_of_read (s := e.system) (fun d m w hd => ?_) hn
  exact fresh_eq_iff.2 ⟨m, hd⟩

theorem firing_fst (cm : CompiledModel) (cube : Cube) (coord : Coord) :
    (cm.firing cube coord).map Prod.fst = cm.matchingRule cube coord := by
  unfold CompiledModel.firing CompiledModel.matchingRule
  conv_rhs => rw [← List.zipIdx_map_fst 0 cm.rules, List.find?_map]
  rfl

/-- The task of a node, by what made it. -/
theorem MadeBy.result {k : Cell} {x : Entry} {rule : Option (CompiledRule × Nat)}
    (hmade : e.MadeBy k x rule) {v : Fixed} (h : e.freshAt k = .ok v) :
    (match rule with
      | some (rule, _) => e.evalExpr k.ordinal k.coord rule.expr
      | none => e.computeStored x k.ordinal k.coord).result e.freshAt = .ok v := by
  have hcompute := result_compute h
  unfold compute at hcompute
  split_ifs at hcompute with hdenied
  · cases hcompute
  rw [hmade.entry] at hcompute
  dsimp only at hcompute
  cases herror : x.compileError with
  | some error =>
    rw [herror] at hcompute
    cases hcompute
  | none =>
    rw [herror] at hcompute
    have hmatching : (x.compiled.bind fun cm => cm.matchingRule x.cube k.coord) =
        rule.map Prod.fst := by
      rw [← hmade.rule, Option.map_bind]
      refine congrArg _ (funext fun cm => ?_)
      exact (firing_fst cm x.cube k.coord).symm
    rw [hmatching] at hcompute
    cases rule with
    | some rule => exact hcompute
    | none => exact hcompute

/-- A consolidation that has a value is at a coordinate of its cube. -/
theorem MadeBy.inRange {k : Cell} {x : Entry} (hmade : e.MadeBy k x none)
    (hleaf : allLeaf x.cube k.coord = false) {v : Fixed} (h : e.freshAt k = .ok v) :
    InRange x.cube.dimensions k.coord := by
  have hresult := hmade.result h
  dsimp only at hresult
  rw [computeStored, hleaf, if_neg Bool.false_ne_true] at hresult
  rcases consolidate_or (c := x.cube) k.coord with ⟨err, hcheck⟩ | ⟨hnum, -, -⟩ | ⟨hin, -⟩
  · split at hresult
    · simp only [Cube.consolidateFed, hcheck, liftModel_error_bind] at hresult
      cases hresult
    · simp only [Cube.consolidateWith, hcheck, liftModel_error_bind] at hresult
      cases hresult
  · exact hnum.inRange
  · exact hin

/-- At a coordinate of the cube, the leaves under it are found. -/
theorem contributingLeafDims_isOk {c : Cube} {coord : Coord} (h : InRange c.dimensions coord) :
    ∃ perDim, contributingLeafDims c coord = .ok perDim := by
  refine exists_mapM_ok ?_
  rintro ⟨i, k⟩ hx
  have hi := List.mem_zipIdx_iff_getElem?.1 hx
  have hk : k < c.dimensions.length := h.length_eq ▸ (List.getElem?_eq_some_iff.1 hi).1
  have hd := List.getElem?_eq_getElem hk
  have hdim : c.dimension k = c.dimensions[k] := by
    unfold Cube.dimension
    rw [List.getD_eq_getElem?_getD, hd]
    rfl
  obtain ⟨weights, hweights⟩ := Dimension.leafWeights_isOk ((forall₂_iff_getElem?.1 h).2 k i _ hi hd)
  refine ⟨_, bind_eq_ok.2 ⟨weights, ?_, rfl⟩⟩
  rw [hdim]
  exact hweights

/-! ## The contributions of a consolidation -/

theorem walked_cons {n : Nat} {b a : Coord} {rest : List Coord} :
    e.Walked ordinal n (b :: rest) a ↔
      a = b ∨ (if e.nonzeroAt ordinal b then 0 < n ∧ e.Walked ordinal (n - 1) rest a
        else e.Walked ordinal n rest a) := by
  constructor
  · rintro ⟨before, after, heq, hle⟩
    cases before with
    | nil => exact Or.inl (List.cons.inj heq).1.symm
    | cons c before =>
      obtain ⟨rfl, rfl⟩ := List.cons.inj heq
      refine Or.inr ?_
      rw [List.filter_cons] at hle
      split_ifs at hle ⊢
      · rw [List.length_cons] at hle
        exact ⟨by omega, before, after, rfl, by omega⟩
      · exact ⟨before, after, rfl, hle⟩
  · rintro (rfl | h)
    · exact ⟨[], rest, rfl, Nat.zero_le n⟩
    · split_ifs at h with hb
      · obtain ⟨hn, before, after, rfl, hle⟩ := h
        refine ⟨b :: before, after, rfl, ?_⟩
        rw [List.filter_cons_of_pos hb, List.length_cons]
        omega
      · obtain ⟨before, after, rfl, hle⟩ := h
        refine ⟨b :: before, after, rfl, ?_⟩
        rwa [List.filter_cons_of_neg hb]

/-- What a walk of leaves lists: the traces of the first that count, each
leaf it came to having a value. -/
theorem contributions_eq_ok {explain : Cell → Eval CellTrace} {leaves : List Coord}
    {inputs traces : List CellTrace} {truncated : Bool} {n : Nat}
    (hn : inputs.length + n = maxExplainInputs) :
    (contributions explain ordinal leaves inputs).result e.freshAt = .ok (traces, truncated) ↔
      (∀ a, e.Walked ordinal n leaves a → e.HasValue ⟨ordinal, a⟩) ∧
        truncated = decide (n < (leaves.filter (e.nonzeroAt ordinal)).length) ∧
        ∃ new, traces = inputs ++ new ∧
          List.Forall₂ (fun a t => (explain ⟨ordinal, a⟩).result e.freshAt = .ok t)
            ((leaves.filter (e.nonzeroAt ordinal)).take n) new := by
  -- on the leaves still to come, with the traces so far and the room for more
  induction leaves generalizing inputs n with
  | nil =>
    rw [contributions]
    constructor
    · intro h
      obtain ⟨rfl, rfl⟩ := Prod.mk.inj (Except.ok.inj h)
      refine ⟨?_, by simp, [], by simp, by simp⟩
      rintro a ⟨before, after, heq, -⟩
      exact absurd heq (by simp)
    · rintro ⟨-, rfl, new, rfl, hnew⟩
      rw [List.filter_nil, List.take_nil, List.forall₂_nil_left_iff] at hnew
      subst hnew
      simp
  | cons b rest ih =>
    have hself : e.Walked ordinal n (b :: rest) b := walked_cons.2 (Or.inl rfl)
    rw [contributions, Task.result_bind, cellValue, Task.result_request]
    cases hb : e.freshAt ⟨ordinal, b⟩ with
    | error err =>
      constructor
      · intro h
        cases h
      · rintro ⟨hwalked, -⟩
        obtain ⟨v, hv⟩ := hwalked b hself
        cases hb.symm.trans hv
    | ok v =>
      show (if v = Fixed.zero then contributions explain ordinal rest inputs else _ :
        Eval _).result e.freshAt = _ ↔ _
      have hvalue : e.HasValue ⟨ordinal, b⟩ := ⟨v, hb⟩
      -- a leaf worth zero is passed over, and has no place in the list
      by_cases hzero : v = Fixed.zero
      · have hnot : e.nonzeroAt ordinal b = false := by
          unfold nonzeroAt
          rw [hb, hzero]
          simp
        rw [if_pos hzero, ih hn, List.filter_cons_of_neg (by rw [hnot]; exact Bool.false_ne_true)]
        refine and_congr_left fun _ => ?_
        constructor
        · intro h a ha
          rcases walked_cons.1 ha with rfl | ha
          · exact hvalue
          · rw [hnot, if_neg Bool.false_ne_true] at ha
            exact h a ha
        · intro h a ha
          refine h a (walked_cons.2 (Or.inr ?_))
          rw [hnot, if_neg Bool.false_ne_true]
          exact ha
      · have hcounts : e.nonzeroAt ordinal b = true := by
          unfold nonzeroAt
          rw [hb]
          simpa using hzero
        rw [if_neg hzero, List.filter_cons_of_pos hcounts]
        -- the first leaf that counts past the cap ends the walk: the rest is not asked for
        by_cases hfull : inputs.length = maxExplainInputs
        · obtain rfl : n = 0 := by omega
          rw [if_pos hfull]
          constructor
          · intro h
            obtain ⟨rfl, rfl⟩ := Prod.mk.inj (Except.ok.inj h)
            refine ⟨fun a ha => ?_, by simp, [], by simp, by simp⟩
            rcases walked_cons.1 ha with rfl | ha
            · exact hvalue
            · rw [if_pos hcounts] at ha
              exact absurd ha.1 (by omega)
          · rintro ⟨-, rfl, new, rfl, hnew⟩
            rw [List.take_zero, List.forall₂_nil_left_iff] at hnew
            subst hnew
            simp
        · obtain ⟨m, rfl⟩ : ∃ m, n = m + 1 := ⟨n - 1, by omega⟩
          rw [if_neg hfull, Task.result_bind]
          have hwalked : (∀ a, e.Walked ordinal (m + 1) (b :: rest) a → e.HasValue ⟨ordinal, a⟩) ↔
              ∀ a, e.Walked ordinal m rest a → e.HasValue ⟨ordinal, a⟩ := by
            constructor
            · intro h a ha
              refine h a (walked_cons.2 (Or.inr ?_))
              rw [if_pos hcounts]
              exact ⟨by omega, ha⟩
            · intro h a ha
              rcases walked_cons.1 ha with rfl | ha
              · exact hvalue
              · rw [if_pos hcounts] at ha
                exact h a ha.2
          rw [hwalked, List.length_cons, List.take_succ_cons]
          constructor
          · intro h
            obtain ⟨trace, htrace, h⟩ := bind_eq_ok.1 h
            have hlen : (inputs ++ [trace]).length + m = maxExplainInputs := by
              rw [List.length_append, List.length_singleton]
              omega
            obtain ⟨hvalues, rfl, new, rfl, hnew⟩ := (ih hlen).1 h
            refine ⟨hvalues, ?_, trace :: new, ?_, List.Forall₂.cons htrace hnew⟩
            · rw [decide_eq_decide]
              omega
            · rw [List.append_assoc, List.singleton_append]
          · rintro ⟨hvalues, rfl, new, rfl, hnew⟩
            cases hnew with
            | @cons _ trace _ new htrace hnew =>
              refine bind_eq_ok.2 ⟨trace, htrace, ?_⟩
              have hlen : (inputs ++ [trace]).length + m = maxExplainInputs := by
                rw [List.length_append, List.length_singleton]
                omega
              refine (ih hlen).2 ⟨hvalues, ?_, new, ?_, hnew⟩
              · rw [decide_eq_decide]
                omega
              · rw [List.append_assoc, List.singleton_append]

theorem zero_listed : ([] : List CellTrace).length + maxExplainInputs = maxExplainInputs :=
  Nat.zero_add _

/-! ## One node -/

/-- What made a cell of the model set. -/
theorem exists_madeBy {k : Cell} {x : Entry} (h : e.registry.entry k.ordinal = some x) :
    ∃ rule, e.MadeBy k x rule := ⟨_, h, rfl⟩

/-- A trace starts with the value of its cell. -/
theorem explainCell_eq_ok {below : Option (Cell → Eval CellTrace)} {k : Cell} {t : CellTrace}
    (h : (e.explainCell below k).result e.freshAt = .ok t) :
    e.HasValue k := by
  unfold explainCell at h
  cases hx : e.registry.entry k.ordinal with
  | none =>
    rw [hx] at h
    cases h
  | some x =>
    rw [hx] at h
    dsimp only at h
    rw [Task.result_bind, cellValue, Task.result_request] at h
    obtain ⟨v, hv, -⟩ := bind_eq_ok.1 h
    exact ⟨v, hv⟩

section Node

variable {k : Cell} {x : Entry} {v : Fixed}

/-- The names of a node. -/
def names (x : Entry) (k : Cell) : List String := Cube.memberNames x.cube.dimensions k.coord

theorem explainCell_rule {rule : CompiledRule} {index : Nat}
    (hmade : e.MadeBy k x (some (rule, index))) (hv : e.freshAt k = .ok v)
    (below : Option (Cell → Eval CellTrace)) :
    (e.explainCell below k).result e.freshAt =
      (match below with
        | none => Except.ok []
        | some explain => do
          let cells ← (e.consultedCells k.ordinal k.coord rule.expr).result e.freshAt
          cells.mapM fun cell => (explain (cellAt k.coord cell)).result e.freshAt) >>= fun inputs =>
        .ok ⟨x.cube.name, names x k, v, .rule index, inputs, false⟩ := by
  unfold explainCell
  rw [hmade.entry]
  dsimp only
  rw [Task.result_bind, cellValue, Task.result_request]
  have hv' : e.freshAt ⟨k.ordinal, k.coord⟩ = .ok v := hv
  rw [hv', hmade.rule]
  cases below with
  | none => rfl
  | some explain =>
    rw [bind_assoc]
    show ((e.consultedCells k.ordinal k.coord rule.expr >>= fun cells =>
      (cells.mapM fun cell => explain (cellAt k.coord cell)) >>= _ : Eval _).result e.freshAt) = _
    simp only [Task.result_bind, Task.result_mapM]
    rfl

theorem explainCell_stored (hmade : e.MadeBy k x none) (hleaf : allLeaf x.cube k.coord = true)
    (hv : e.freshAt k = .ok v) (below : Option (Cell → Eval CellTrace)) :
    (e.explainCell below k).result e.freshAt =
      .ok ⟨x.cube.name, names x k, v, .stored, [], false⟩ := by
  unfold explainCell
  rw [hmade.entry]
  dsimp only
  rw [Task.result_bind, cellValue, Task.result_request]
  have hv' : e.freshAt ⟨k.ordinal, k.coord⟩ = .ok v := hv
  rw [hv', hmade.rule]
  show (if allLeaf x.cube k.coord then _ else _ : Eval CellTrace).result e.freshAt = _
  rw [if_pos hleaf]
  rfl

theorem explainCell_consolidation (hmade : e.MadeBy k x none)
    (hleaf : allLeaf x.cube k.coord = false) (hv : e.freshAt k = .ok v)
    (below : Option (Cell → Eval CellTrace)) :
    (e.explainCell below k).result e.freshAt =
      (match below with
        | none => Except.ok ([], false)
        | some explain =>
          (contributions explain k.ordinal (leavesUnder x.cube k.coord) []).result e.freshAt) >>=
        fun listed => .ok ⟨x.cube.name, names x k, v, .consolidation listed.1.length, listed.1,
          listed.2⟩ := by
  obtain ⟨perDim, hperDim⟩ := contributingLeafDims_isOk (hmade.inRange hleaf hv)
  unfold explainCell leavesUnder
  rw [hmade.entry]
  dsimp only
  rw [Task.result_bind, cellValue, Task.result_request]
  have hv' : e.freshAt ⟨k.ordinal, k.coord⟩ = .ok v := hv
  rw [hv', hmade.rule, hperDim]
  show (if allLeaf x.cube k.coord then _ else _ : Eval CellTrace).result e.freshAt = _
  rw [hleaf, if_neg Bool.false_ne_true]
  cases below with
  | none => rfl
  | some explain =>
    show ((contributions explain k.ordinal (coordWalk perDim) [] >>= _ : Eval _).result
      e.freshAt) = _
    rw [Task.result_bind]
    rfl

end Node

/-! ## The whole walk -/

theorem entry_of_hasValue {k : Cell} (h : e.HasValue k) :
    ∃ x, e.registry.entry k.ordinal = some x := by
  obtain ⟨v, hv⟩ := h
  have hcompute := result_compute hv
  unfold compute at hcompute
  split_ifs at hcompute with hdenied
  · cases hcompute
  cases hx : e.registry.entry k.ordinal with
  | none =>
    rw [hx] at hcompute
    cases hcompute
  | some x => exact ⟨x, rfl⟩

/-- What made a cell is determined. -/
theorem MadeBy.unique {k : Cell} {x y : Entry} {rule rule' : Option (CompiledRule × Nat)}
    (h : e.MadeBy k x rule) (h' : e.MadeBy k y rule') : y = x ∧ rule' = rule := by
  obtain rfl := Option.some.inj (h'.entry.symm.trans h.entry)
  exact ⟨rfl, h'.rule.symm.trans h.rule⟩

section InputsOf

variable {k : Cell} {x : Entry} {kind : TraceKind} {truncated : Bool} {inputs : List Cell}

theorem InputsOf.of_rule {rule : CompiledRule} {index : Nat}
    (h : e.InputsOf k kind truncated inputs) (hmade : e.MadeBy k x (some (rule, index)))
    (hplain : rule.expr.plainConditions = true) (d : Cell) :
    d ∈ inputs ↔ e.Consults k.ordinal k.coord rule.expr d := by
  cases h with
  | rule hmade' _ _ hmem =>
    cases (hmade.unique hmade').2
    exact hmem hplain d
  | stored hmade' _ => cases (hmade.unique hmade').2
  | consolidation hmade' _ => cases (hmade.unique hmade').2

theorem InputsOf.of_consolidation (h : e.InputsOf k kind truncated inputs)
    (hmade : e.MadeBy k x none) (hleaf : allLeaf x.cube k.coord = false) :
    inputs = (e.contributing x k).take maxExplainInputs := by
  cases h with
  | rule hmade' _ _ _ => cases (hmade.unique hmade').2
  | stored hmade' hleaf' =>
    rw [(hmade.unique hmade').1, hleaf] at hleaf'
    cases hleaf'
  | consolidation hmade' _ => rw [(hmade.unique hmade').1]

end InputsOf

/-- The node of a trace that lists its inputs. -/
theorem explainCell_listing {explain : Cell → Eval CellTrace} {k : Cell} {t : CellTrace}
    (h : (e.explainCell (some explain) k).result e.freshAt = .ok t) :
    e.Describes k t ∧
      (∃ inputs, e.InputsOf k t.kind t.inputsTruncated inputs ∧
        List.Forall₂ (fun d t => (explain d).result e.freshAt = .ok t) inputs t.inputs) ∧
      ∀ x, e.MadeBy k x none → allLeaf x.cube k.coord = false →
        ∀ a, e.Walked k.ordinal maxExplainInputs (leavesUnder x.cube k.coord) a →
          e.HasValue ⟨k.ordinal, a⟩ := by
  obtain ⟨v, hv⟩ := explainCell_eq_ok h
  obtain ⟨x, hx⟩ := entry_of_hasValue ⟨v, hv⟩
  obtain ⟨rule, hmade⟩ := exists_madeBy hx
  -- without a rule a leaf lists nothing, and a consolidation what the walk finds
  rcases rule with _ | ⟨rule, index⟩
  · cases hleaf : allLeaf x.cube k.coord with
    | true =>
      rw [explainCell_stored hmade hleaf hv] at h
      obtain rfl := Except.ok.inj h
      refine ⟨⟨⟨x, hx, rfl, rfl⟩, hv⟩, ⟨[], .stored hmade hleaf, .nil⟩, fun y hy hyleaf => ?_⟩
      rw [(hmade.unique hy).1, hleaf] at hyleaf
      cases hyleaf
    | false =>
      rw [explainCell_consolidation hmade hleaf hv] at h
      obtain ⟨⟨traces, truncated⟩, hlisted, h⟩ := bind_eq_ok.1 h
      obtain rfl := Except.ok.inj h
      obtain ⟨hwalked, rfl, new, hnew', hnew⟩ := (contributions_eq_ok zero_listed).1 hlisted
      obtain rfl : traces = new := hnew'
      have hlength : ((e.contributing x k).take maxExplainInputs).length = traces.length := by
        unfold contributing
        rw [← List.map_take, List.length_map]
        exact hnew.length_eq
      have hall : (e.contributing x k).length =
          ((leavesUnder x.cube k.coord).filter (e.nonzeroAt k.ordinal)).length :=
        List.length_map _
      refine ⟨⟨⟨x, hx, rfl, rfl⟩, hv⟩, ⟨(e.contributing x k).take maxExplainInputs, ?_, ?_⟩, ?_⟩
      · have hinputs := InputsOf.consolidation hmade hleaf
        rw [hlength, hall] at hinputs
        exact hinputs
      · unfold contributing
        rw [← List.map_take, List.forall₂_map_left_iff]
        exact hnew
      · intro y hy hyleaf
        rw [(hmade.unique hy).1]
        exact hwalked
  · rw [explainCell_rule hmade hv] at h
    obtain ⟨traces, htraces, h⟩ := bind_eq_ok.1 h
    obtain rfl := Except.ok.inj h
    obtain ⟨cells, hcells, htraces⟩ := bind_eq_ok.1 htraces
    obtain ⟨cells', hconsulted⟩ := exists_consulted rule.expr (hmade.result hv)
    obtain rfl : cells = cells' := Except.ok.inj (hcells.symm.trans hconsulted.found)
    refine ⟨⟨⟨x, hx, rfl, rfl⟩, hv⟩, ⟨cells.map (cellAt k.coord), ?_, ?_⟩, fun y hy => ?_⟩
    · exact .rule hmade hconsulted.reads (fun _ => hconsulted.cites) fun _ => hconsulted.mem
    · rw [List.forall₂_map_left_iff]
      exact mapM_eq_ok.1 htraces
    · cases (hmade.unique hy).2

/-- A node at the last level. -/
theorem explainCell_last {k : Cell} {t : CellTrace}
    (h : (e.explainCell none k).result e.freshAt = .ok t) :
    e.Describes k t ∧ e.KindOf k t.kind ∧ t.inputs = [] ∧ t.inputsTruncated = false := by
  obtain ⟨v, hv⟩ := explainCell_eq_ok h
  obtain ⟨x, hx⟩ := entry_of_hasValue ⟨v, hv⟩
  obtain ⟨rule, hmade⟩ := exists_madeBy hx
  rcases rule with _ | ⟨rule, index⟩
  · cases hleaf : allLeaf x.cube k.coord with
    | true =>
      rw [explainCell_stored hmade hleaf hv] at h
      obtain rfl := Except.ok.inj h
      exact ⟨⟨⟨x, hx, rfl, rfl⟩, hv⟩, .stored hmade hleaf, rfl, rfl⟩
    | false =>
      rw [explainCell_consolidation hmade hleaf hv] at h
      obtain rfl := Except.ok.inj h
      exact ⟨⟨⟨x, hx, rfl, rfl⟩, hv⟩, .consolidation hmade hleaf, rfl, rfl⟩
  · rw [explainCell_rule hmade hv] at h
    obtain rfl := Except.ok.inj h
    exact ⟨⟨⟨x, hx, rfl, rfl⟩, hv⟩, .rule hmade, rfl, rfl⟩

/-- A node that has a value is explained where its inputs are. -/
theorem exists_explainCell {explain : Cell → Eval CellTrace} {k : Cell} (hvalue : e.HasValue k)
    (hrule : ∀ x rule index, e.MadeBy k x (some (rule, index)) →
      ∀ d, e.Consults k.ordinal k.coord rule.expr d →
        ∃ t, (explain d).result e.freshAt = .ok t)
    (hwalked : ∀ x, e.MadeBy k x none → allLeaf x.cube k.coord = false →
      ∀ a, e.Walked k.ordinal maxExplainInputs (leavesUnder x.cube k.coord) a →
        e.HasValue ⟨k.ordinal, a⟩)
    (hbelow : ∀ x, e.MadeBy k x none → allLeaf x.cube k.coord = false →
      ∀ d ∈ (e.contributing x k).take maxExplainInputs,
        ∃ t, (explain d).result e.freshAt = .ok t) :
    ∃ t, (e.explainCell (some explain) k).result e.freshAt = .ok t := by
  obtain ⟨v, hv⟩ := hvalue
  obtain ⟨x, hx⟩ := entry_of_hasValue ⟨v, hv⟩
  obtain ⟨rule, hmade⟩ := exists_madeBy hx
  rcases rule with _ | ⟨rule, index⟩
  · cases hleaf : allLeaf x.cube k.coord with
    | true => exact ⟨_, explainCell_stored hmade hleaf hv _⟩
    | false =>
      have hmap : ∀ a ∈ ((leavesUnder x.cube k.coord).filter (e.nonzeroAt k.ordinal)).take
          maxExplainInputs, ∃ t, (explain ⟨k.ordinal, a⟩).result e.freshAt = .ok t := by
        intro a ha
        refine hbelow x hmade hleaf _ ?_
        unfold contributing
        rw [← List.map_take]
        exact List.mem_map_of_mem ha
      obtain ⟨new, hnew⟩ := exists_mapM_ok hmap
      have hlisted := (contributions_eq_ok zero_listed).2
        ⟨hwalked x hmade hleaf, rfl, new, rfl, mapM_eq_ok.1 hnew⟩
      rw [explainCell_consolidation hmade hleaf hv]
      exact ⟨_, bind_eq_ok.2 ⟨_, hlisted, rfl⟩⟩
  · obtain ⟨cells, hconsulted⟩ := exists_consulted rule.expr (hmade.result hv)
    have hmap : ∀ cell ∈ cells, ∃ t, (explain (cellAt k.coord cell)).result e.freshAt = .ok t := by
      intro cell hcell
      refine hrule x rule index hmade _ ((hconsulted.mem _).1 ?_)
      exact List.mem_map_of_mem hcell
    obtain ⟨traces, htraces⟩ := exists_mapM_ok hmap
    rw [explainCell_rule hmade hv]
    exact ⟨_, bind_eq_ok.2 ⟨traces, bind_eq_ok.2 ⟨cells, hconsulted.found, htraces⟩, rfl⟩⟩

theorem exists_explainCell_last {k : Cell} (hvalue : e.HasValue k) :
    ∃ t, (e.explainCell none k).result e.freshAt = .ok t := by
  obtain ⟨v, hv⟩ := hvalue
  obtain ⟨x, hx⟩ := entry_of_hasValue ⟨v, hv⟩
  obtain ⟨rule, hmade⟩ := exists_madeBy hx
  rcases rule with _ | ⟨rule, index⟩
  · cases hleaf : allLeaf x.cube k.coord with
    | true => exact ⟨_, explainCell_stored hmade hleaf hv _⟩
    | false =>
      rw [explainCell_consolidation hmade hleaf hv]
      exact ⟨_, rfl⟩
  · rw [explainCell_rule hmade hv]
    exact ⟨_, rfl⟩

/-- **A trace agrees with the evaluator**, at every node. -/
theorem agrees_of_explainNode {remaining : Nat} {k : Cell} {t : CellTrace}
    (h : (e.explainNode remaining k).result e.freshAt = .ok t) : e.Agrees remaining k t := by
  induction remaining using Nat.twoStepInduction generalizing k t with
  | zero => exact explainCell_last h
  | one => exact explainCell_last h
  | more remaining _ ih =>
    obtain ⟨hdescribes, ⟨inputs, hinputs, htraces⟩, -⟩ := explainCell_listing h
    exact ⟨hdescribes, inputs, hinputs, htraces.imp fun d t hd => ih hd⟩

/-- **The walk comes through** exactly when each cell it comes to list has
a value. -/
theorem exists_explainNode_iff {remaining : Nat} {k : Cell}
    (hplain : ∀ x, e.Expands remaining k x → x.plainConditions = true) :
    (∃ t, (e.explainNode remaining k).result e.freshAt = .ok t) ↔
      ∀ d, e.Lists remaining k d → e.HasValue d := by
  induction remaining using Nat.twoStepInduction generalizing k with
  | zero =>
    constructor
    · rintro ⟨t, h⟩ d hd
      cases hd
      exact explainCell_eq_ok h
    · exact fun h => exists_explainCell_last (h k (.self 0 k))
  | one =>
    constructor
    · rintro ⟨t, h⟩ d hd
      cases hd
      exact explainCell_eq_ok h
    · exact fun h => exists_explainCell_last (h k (.self 1 k))
  | more remaining _ ih =>
    constructor
    · rintro ⟨t, h⟩ d hd
      obtain ⟨-, ⟨inputs, hinputs, htraces⟩, hwalked⟩ := explainCell_listing h
      have hinput : ∀ d ∈ inputs, ∃ t, (e.explainNode (remaining + 1) d).result e.freshAt = .ok t :=
        fun d hd => exists_of_mapM (mapM_eq_ok.2 htraces) hd
      cases hd with
      | self => exact explainCell_eq_ok h
      | rule hmade hconsults hlists =>
        have hmem := (hinputs.of_rule hmade (hplain _ (.self hmade)) _).2 hconsults
        exact (ih fun x hx => hplain x (.rule hmade hconsults hx)).1 (hinput _ hmem) _ hlists
      | leaf hmade hleaf ha => exact hwalked _ hmade hleaf _ ha
      | contribution hmade hleaf hd hlists =>
        have hmem := hd
        rw [← hinputs.of_consolidation hmade hleaf] at hmem
        exact (ih fun x hx => hplain x (.contribution hmade hleaf hd hx)).1 (hinput _ hmem) _ hlists
    · intro h
      refine exists_explainCell (h k (.self _ k)) (fun x rule index hmade d hd => ?_)
        (fun x hmade hleaf a ha => h _ (.leaf hmade hleaf ha)) fun x hmade hleaf d hd => ?_
      · exact (ih fun x hx => hplain x (.rule hmade hd hx)).2 fun d' hd' =>
          h d' (.rule hmade hd hd')
      · exact (ih fun x hx => hplain x (.contribution hmade hleaf hd hx)).2 fun d' hd' =>
          h d' (.contribution hmade hleaf hd hd')

/-- An answer over a sound memo is the fresh one. -/
theorem answer_of_sound (k : Cell) (memo : CalcMemo) (h : e.SoundMemo memo) :
    (e.answer k memo).1 = e.freshAt k ∧ e.SoundMemo (e.answer k memo).2 := by
  obtain ⟨n, -, hsound⟩ := value_of_sound h k.ordinal k.coord
  exact ⟨value_eq_fresh h k.ordinal k.coord, hsound⟩

variable (e) in
/-- **An explanation is right**: a trace agrees with the evaluator, and
there is one exactly when the cells it comes to list have values. -/
structure Explains (remaining : Nat) (k : Cell) (r : Except CalcError CellTrace) : Prop where
  agrees : ∀ t, r = .ok t → e.Agrees remaining k t
  ok_iff : (∀ x, e.Expands remaining k x → x.plainConditions = true) →
    ((∃ t, r = .ok t) ↔ ∀ d, e.Lists remaining k d → e.HasValue d)

end CalcEngine

theorem explainWith_eq (registry : EvalRegistry) (ordinal : Nat) (coord : Coord)
    (depth : ExplainDepth) (overlay : Option SandboxOverlay) (mask : Option ElementMask) :
    explainWith registry ordinal coord depth overlay mask =
      (CalcEngine.explainNode ⟨registry, overlay, mask, ordinal⟩ depth.remaining
        ⟨ordinal, coord⟩).result (CalcEngine.freshAt ⟨registry, overlay, mask, ordinal⟩) :=
  (Task.play_eq_result CalcEngine.answer_of_sound _ CalcEngine.sound_new).1

/-- **Explain agrees with evaluation**, at every node of every trace. -/
theorem explainWith_agrees (registry : EvalRegistry) (ordinal : Nat) (coord : Coord)
    (depth : ExplainDepth) (overlay : Option SandboxOverlay) (mask : Option ElementMask) :
    CalcEngine.Explains ⟨registry, overlay, mask, ordinal⟩ depth.remaining ⟨ordinal, coord⟩
      (explainWith registry ordinal coord depth overlay mask) := by
  rw [explainWith_eq]
  exact ⟨fun t h => CalcEngine.agrees_of_explainNode h,
    fun hplain => CalcEngine.exists_explainNode_iff hplain⟩

/-! ## A condition decided early -/

/-- A formula that refers to South where its condition is decided. -/
def northExpr : CExpr :=
  .ifThen (.or (.compare (.num Fixed.zero) .eq (.num Fixed.zero))
    (.compare (.cell ⟨0, [.pinned 1, .fromTarget 1]⟩) .eq (.num Fixed.zero))) (.num Fixed.zero)

/-- The rules of North and of South. -/
def decidedEarly (south : CExpr) : CompiledModel where
  rules := [⟨⟨[.oneOf [0], .any], false⟩, northExpr⟩, ⟨⟨[.oneOf [1], .any], false⟩, south⟩]

theorem isSome_build_sales : (Cube.build "Sales" Cube.salesDefs).toOption.isSome = true := by
  decide +kernel

def earlyEntry (south : CExpr) : Entry where
  cube := (Cube.build "Sales" Cube.salesDefs).toOption.get isSome_build_sales
  wf := Cube.WF.get_build isSome_build_sales
  compiled := some (decidedEarly south)
  compileError := none
  fedSet := none

def earlyRegistry (south : CExpr) : EvalRegistry := EvalRegistry.single (earlyEntry south)

def earlyEngine (south : CExpr) : CalcEngine := ⟨earlyRegistry south, none, none, 0⟩

/-- The rule of South that fails. -/
def divided : CExpr := .bin .div (.num Fixed.zero) (.num Fixed.zero)

/-- The evaluation reads no cell, and the trace lists one; where that cell
has no value, there is no trace. -/
theorem not_explains_decidedEarly :
    ((earlyEngine divided).fresh 0 [0, 0]).toOption = some Fixed.zero ∧
      (explain (earlyRegistry divided) 0 [0, 0] .immediate).toOption.isNone ∧
      (earlyEngine (.num Fixed.zero)).reads 0 [0, 0] northExpr = [] ∧
      ((explain (earlyRegistry (.num Fixed.zero)) 0 [0, 0] .immediate).toOption.map fun t =>
        t.inputs.map CellTrace.coord) = some [["South", "Amount"]] := by
  exact ⟨by decide +kernel, by decide +kernel, by decide +kernel, by decide +kernel⟩

end Calc

end Epiphany
