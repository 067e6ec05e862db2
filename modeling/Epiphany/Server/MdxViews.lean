import Epiphany.Core.ViewGrid
import Epiphany.Mdx.Meaning
import Epiphany.Server.Authz
/-!
# MDX queries — the view that a query stands for

A query is lowered onto a cube: the set on each axis is flattened into the
sets of one dimension that it crosses, each is evaluated over its dimension,
and its members are written by name into a view. The members of `WHERE` are
the context of the view, and are resolved when it executes.

An axis then lists the crossjoin of what its sets mean (`AxisMeans`), and the
context fixes the dimensions that are left (`viewFromMdx_meaning`). No
dimension is filled in: a query that leaves one out, or names one twice, is
refused by the execution of its view.
-/

namespace Epiphany

namespace Mdx

def EvalError.toString : EvalError → String
  | .unknownMember dimension member =>
    "member '" ++ member ++ "' not found in dimension '" ++ dimension ++ "'"
  | .unknownAttribute dimension attr =>
    "attribute '" ++ attr ++ "' is not defined on dimension '" ++ dimension ++ "'"
  | .dimensionMismatch expected found =>
    "expression refers to '" ++ found ++ "' but the set is over dimension '" ++ expected ++ "'"
  | .typeMismatch detail => "type mismatch: " ++ detail
  | .tupleSetNotAllowed =>
    "a crossjoin (tuple) set cannot be used where a single-dimension member set is required"
  | .tooDeep dimension limit =>
    "consolidation depth in dimension '" ++ dimension ++ "' exceeds the maximum of " ++
      Nat.repr limit
  | .core e => e.toString

def evalFailed (message : String) : ApiError := .unprocessable "MDX_EVAL_ERROR" message

/-! ## Lowering -/

/-- The sets of one dimension that are crossed, the outermost first. -/
def flattenCrossjoin : SetExpr → List SetExpr
  | .crossjoin l r => flattenCrossjoin l ++ flattenCrossjoin r
  | other => [other]

/-- What stands before the member. -/
def qualifier (r : MemberRef) : Option String :=
  match r.path with
  | first :: _ :: _ => some first
  | _ => none

mutual

/-- The dimension that the first member of a set is qualified by. -/
def axisDimension : SetExpr → Option String
  | .members r => some r.name
  | .member r => qualifier r
  | .children r => qualifier r
  | .descendants r => qualifier r
  | .set items => axisDimensions items
  | .filter inner _ => axisDimension inner
  | .order inner _ _ => axisDimension inner
  | .crossjoin l _ => axisDimension l

def axisDimensions : List SetExpr → Option String
  | [] => none
  | item :: rest =>
    match axisDimension item with
    | some name => some name
    | none => axisDimensions rest

end

section Lower

variable (cube : Cube)

/-- A set of one dimension, as the names of its members. -/
def lowerComponent (component : SetExpr) : Except ApiError AxisSpec := do
  let name ← okOr (axisDimension component)
    (evalFailed ("cannot determine the dimension for an axis set; " ++
      "qualify members as [Dim].[Member]"))
  let dim ← okOr (cube.dimensions.find? fun d => d.name = name)
    (.unprocessable "UNKNOWN_DIMENSION"
      ("unknown dimension '" ++ name ++ "' in cube '" ++ cube.name ++ "'"))
  let indices ← (evaluate dim component).mapError fun e => evalFailed e.toString
  let members ← indices.mapM fun i =>
    ((dim.element i).map Element.name).mapError fun e => evalFailed e.toString
  .ok (.members name members)

/-- The rows and the columns of the view. -/
structure Placed where
  rows : List AxisSpec
  columns : List AxisSpec

def unsupportedAxis : ApiError :=
  .unprocessable "MDX_UNSUPPORTED_AXIS" "only COLUMNS and ROWS axes are supported"

/-- The set of an axis that nothing is on. -/
def lowerSet (target : List AxisSpec) (set : SetExpr) : Except ApiError (List AxisSpec) :=
  if !target.isEmpty then .error unsupportedAxis
  else (flattenCrossjoin set).mapM (lowerComponent cube)

def lowerAxis (placed : Placed) : AxisName × SetExpr → Except ApiError Placed
  | (.columns, set) => do
    let columns ← lowerSet cube placed.columns set
    .ok { placed with columns }
  | (.rows, set) => do
    let rows ← lowerSet cube placed.rows set
    .ok { placed with rows }
  | (.ordinal _, _) => .error unsupportedAxis

/-- A member of `WHERE`: its dimension, and its name. -/
def lowerMember (m : MemberRef) : Except ApiError (String × String) :=
  match qualifier m with
  | some first => .ok (first, m.name)
  | none => .error (evalFailed "WHERE members must be qualified as [Dim].[Member]")

/-- Lower a query onto a cube. -/
def viewFromMdx (cubeName : String) (query : Query) : Except ApiError View :=
  if query.cube ≠ cubeName then
    .error (.unprocessable "MDX_CUBE_MISMATCH"
      ("the query targets cube '" ++ query.cube ++ "' but the request is for cube '" ++
        cubeName ++ "'"))
  else do
    let placed ← query.axes.foldlM (lowerAxis cube) ⟨[], []⟩
    let context ← query.slicer.mapM lowerMember
    .ok
      { name := "mdx"
        cube := cubeName
        owner := none
        visibility := .pub
        rows := placed.rows
        columns := placed.columns
        context
        suppressZeroRows := false
        suppressZeroColumns := false }

end Lower

/-! ## What a query denotes -/

/-- **The meaning of a set on an axis**: the dimensions it crosses, how many
members it takes of each, and their tuples. A set of one dimension has its
members, one to a tuple; a crossjoin has every tuple on the left with every
tuple on the right, the left slowest. -/
inductive AxisMeans (cube : Cube) : SetExpr → List String → List Nat → List (List Nat) → Prop
  | set {e : SetExpr} {d : Dimension} {members : List Nat} : d ∈ cube.dimensions →
      Means d e members →
      AxisMeans cube e [d.name] [members.length] (members.map fun i => [i])
  | crossjoin {l r : SetExpr} {dims dims' : List String} {sizes sizes' : List Nat}
      {tuples tuples' : List (List Nat)} :
      AxisMeans cube l dims sizes tuples → AxisMeans cube r dims' sizes' tuples' →
      AxisMeans cube (.crossjoin l r) (dims ++ dims') (sizes ++ sizes')
        (tuples.flatMap fun t => tuples'.map fun t' => t ++ t')

/-- The sets that a query writes on an axis. -/
def Query.setsOn (q : Query) (axis : AxisName) : List SetExpr :=
  (q.axes.filter fun x => x.1 = axis).map Prod.snd

/-- What is on an axis: the one set written there, or nothing and one tuple
of nothing. -/
inductive AxisOf (cube : Cube) :
    List SetExpr → List String → List Nat → List (List Nat) → Prop
  | written {e : SetExpr} {dims : List String} {sizes : List Nat} {tuples : List (List Nat)} :
      AxisMeans cube e dims sizes tuples → AxisOf cube [e] dims sizes tuples
  | unwritten : AxisOf cube [] [] [] [[]]

/-- The members of an axis make more tuples than one execution may address:
counted set by set, up to the first that is empty. -/
def TooMany (sizes : List Nat) : Prop :=
  maxCellsetCells < (sizes.takeWhile fun n => n ≠ 0).prod

/-- A path denotes a member of the dimension at a position, as a set on an
axis. -/
def DenotesOnAxis (cube : Cube) (r : MemberRef) (k i : Nat) : Prop :=
  ∃ d members, cube.dimensions[k]? = some d ∧
    lowerComponent cube (.member r) = .ok (.members d.name members) ∧
    Query.resolveMembers d members = .ok [i]

/-- And in `WHERE`. -/
def DenotesInWhere (cube : Cube) (r : MemberRef) (k i : Nat) : Prop :=
  ∃ d member, cube.dimensions[k]? = some d ∧ lowerMember r = .ok (d.name, member) ∧
    Query.resolveMember d member = .ok i

/-! ## Sets -/

variable {cube : Cube}

theorem of_find_dimension {name : String} {d : Dimension}
    (h : (cube.dimensions.find? fun d => d.name = name) = some d) :
    d ∈ cube.dimensions ∧ d.name = name :=
  ⟨List.mem_of_find?_eq_some h, by simpa using List.find?_some h⟩

theorem foldl_keep_of_nodup {l out : List Nat} (h : (out ++ l).Nodup) :
    l.foldl (fun out i => if i ∈ out then out else out ++ [i]) out = out ++ l := by
  induction l generalizing out with
  | nil => simp
  | cons a l ih =>
    have ha : a ∉ out := fun hmem =>
      (List.nodup_append.1 h).2.2 a hmem a List.mem_cons_self rfl
    rw [List.append_cons] at h ⊢
    rw [List.foldl_cons, if_neg ha]
    exact ih h

/-- Members written by name are found again. -/
theorem resolveMembers_names {d : Dimension} (hd : d.WF) {indices : List Nat}
    {members : List String} (hnodup : indices.Nodup)
    (h : (indices.mapM fun i => ((d.element i).map Element.name).mapError
      fun e => evalFailed e.toString) = .ok members) :
    Query.resolveMembers d members = .ok indices := by
  rw [mapM_eq_ok] at h
  have hback : List.Forall₂ (fun i n => Query.resolveMember d n = .ok i) indices members := by
    refine h.imp fun i n hn => ?_
    obtain ⟨el, hel, rfl⟩ := map_eq_ok.1 (mapError_eq_ok.1 hn)
    have hname : d.nameAt i = some el.name :=
      Dimension.nameAt_eq_some.2 ⟨el, Dimension.element_eq_ok.1 hel, rfl⟩
    have hindex : d.indexOf el.name = some i := (hd.index _ _).2 hname
    unfold Query.resolveMember Dimension.resolve
    rw [hindex]
    rfl
  unfold Query.resolveMembers
  refine bind_eq_ok.2 ⟨indices, mapM_eq_ok.2 hback.flip, ?_⟩
  rw [foldl_keep_of_nodup (by simpa using hnodup), List.nil_append]

theorem one_le_prod_takeWhile (sizes : List Nat) : 1 ≤ (sizes.takeWhile fun n => n ≠ 0).prod := by
  refine Nat.one_le_iff_ne_zero.2 (List.prod_ne_zero fun hzero => ?_)
  have := List.mem_takeWhile_imp hzero
  simp at this

/-- The tuples of an axis are counted up to the first empty list. -/
theorem checkTupleCount_eq {count : Nat} (h0 : 0 < count) (hcount : count ≤ maxCellsetCells)
    (perSpec : List (List Nat)) :
    (count * ((perSpec.map List.length).takeWhile fun n => n ≠ 0).prod ≤ maxCellsetCells →
      Query.checkTupleCount count perSpec = .ok ()) ∧
    (maxCellsetCells < count * ((perSpec.map List.length).takeWhile fun n => n ≠ 0).prod →
      ∃ n, maxCellsetCells < n ∧ Query.checkTupleCount count perSpec =
        .error (.model (.cellsetTooLarge n maxCellsetCells))) := by
  induction perSpec generalizing count with
  | nil =>
    refine ⟨fun _ => rfl, fun h => ?_⟩
    rw [List.map_nil, List.takeWhile_nil, List.prod_nil] at h
    omega
  | cons list rest ih =>
    have hsat : saturatingMulUsize count list.length = min usizeMax (count * list.length) := rfl
    have hcap : maxCellsetCells < usizeMax := by decide
    unfold Query.checkTupleCount
    dsimp only
    rw [List.map_cons, hsat]
    by_cases hempty : list.length = 0
    · -- what comes after an empty list is not counted
      rw [List.takeWhile_cons_of_neg (by simp [hempty]), List.prod_nil, hempty, mul_zero, mul_one]
      refine ⟨fun _ => ?_, fun h => by omega⟩
      rw [if_neg (by simp), if_pos (by simp)]
    · have hpos : 0 < count * list.length := Nat.mul_pos h0 (Nat.pos_of_ne_zero hempty)
      rw [List.takeWhile_cons_of_pos (by simp [hempty]), List.prod_cons, ← mul_assoc]
      have hrest := one_le_prod_takeWhile (rest.map List.length)
      by_cases hmany : maxCellsetCells < count * list.length
      · have hle := Nat.le_mul_of_pos_right (count * list.length) hrest
        rw [if_pos (by omega)]
        exact ⟨fun h => by omega, fun _ => ⟨_, by omega, rfl⟩⟩
      · have hmin : min usizeMax (count * list.length) = count * list.length := by omega
        rw [hmin, if_neg (by omega), if_neg (by omega)]
        exact ih hpos (by omega)

section Axes

variable (hc : cube.WF) (lookup : String → String → Option Subset) (eval : SetEvaluator)

include hc

/-- **A set of one dimension** is lowered to what it means. -/
theorem lowerComponent_ok {e : SetExpr} {spec : AxisSpec} (h : lowerComponent cube e = .ok spec) :
    ∃ d ∈ cube.dimensions, ∃ members names, Means d e members ∧ axisDimension e = some d.name ∧
      spec = .members d.name names ∧ Query.resolveMembers d names = .ok members ∧
      Query.resolveSpec cube lookup eval spec = .ok members := by
  unfold lowerComponent at h
  obtain ⟨name, hname, h⟩ := bind_eq_ok.1 h
  obtain ⟨d, hd, h⟩ := bind_eq_ok.1 h
  obtain ⟨members, hmembers, h⟩ := bind_eq_ok.1 h
  obtain ⟨names, hnames, h⟩ := bind_eq_ok.1 h
  obtain rfl := Except.ok.inj h
  have hfind := okOr_eq_ok.1 hd
  obtain ⟨hmem, rfl⟩ := of_find_dimension hfind
  have hwf := hc.dims d hmem
  obtain ⟨hmeans, hnodup, -⟩ := (evaluate_iff hwf e members).1 (mapError_eq_ok.1 hmembers)
  have hresolve := resolveMembers_names hwf hnodup hnames
  refine ⟨d, hmem, members, names, hmeans, okOr_eq_ok.1 hname, rfl, hresolve, ?_⟩
  unfold Query.resolveSpec Query.dimensionByName
  exact bind_eq_ok.2 ⟨d, okOr_eq_ok.2 hfind, hresolve⟩

/-- **A set on an axis** is lowered to what it means. -/
theorem axisMeans_of_lower {e : SetExpr} {specs : List AxisSpec}
    (h : (flattenCrossjoin e).mapM (lowerComponent cube) = .ok specs) : ∃ perSpec,
    specs.mapM (Query.resolveSpec cube lookup eval) = .ok perSpec ∧
      AxisMeans cube e (specs.map AxisSpec.dimension) (perSpec.map List.length)
        (Sections.rows perSpec) := by
  induction e using flattenCrossjoin.induct generalizing specs with
  | case1 l r ihl ihr =>
    rw [flattenCrossjoin] at h
    obtain ⟨a, b, ha, hb, rfl⟩ := mapM_append_eq_ok.1 h
    obtain ⟨p, hp, hl⟩ := ihl ha
    obtain ⟨p', hp', hr⟩ := ihr hb
    refine ⟨p ++ p', mapM_append_eq_ok.2 ⟨p, p', hp, hp', rfl⟩, ?_⟩
    rw [List.map_append, List.map_append, Sections.rows_append]
    exact .crossjoin hl hr
  | case2 e hne =>
    rw [flattenCrossjoin.eq_2 e hne, mapM_eq_ok] at h
    obtain ⟨spec, rest, hspec, hrest, rfl⟩ := List.forall₂_cons_left_iff.1 h
    obtain rfl := List.forall₂_nil_left_iff.1 hrest
    obtain ⟨d, hd, members, names, hmeans, -, rfl, -, hresolve⟩ :=
      lowerComponent_ok hc lookup eval hspec
    refine ⟨[members], mapM_eq_ok.2 (.cons hresolve .nil), ?_⟩
    have hrows : Sections.rows [members] = members.map fun i => [i] := by
      simp [Sections.rows, List.map_eq_flatMap]
    rw [hrows]
    exact .set hd hmeans

/-- An axis of a view resolves to what it was lowered from, unless that is
more than the tuples that one execution may address. -/
theorem resolveAxis_of_lower {e : SetExpr} {specs : List AxisSpec}
    (h : (flattenCrossjoin e).mapM (lowerComponent cube) = .ok specs) : ∃ dims sizes tuples,
    AxisMeans cube e dims sizes tuples ∧
      (¬ TooMany sizes → Query.resolveAxis cube lookup eval specs = .ok (dims, tuples)) ∧
      (TooMany sizes → ∃ n, maxCellsetCells < n ∧ Query.resolveAxis cube lookup eval specs =
        .error (.model (.cellsetTooLarge n maxCellsetCells))) := by
  obtain ⟨perSpec, hspecs, hmeans⟩ := axisMeans_of_lower hc lookup eval h
  obtain ⟨hfew, hmany⟩ := checkTupleCount_eq (by decide : 0 < 1) (by decide) perSpec
  rw [one_mul] at hfew hmany
  refine ⟨_, _, _, hmeans, fun hnot => ?_, fun htoo => ?_⟩
  · unfold Query.resolveAxis
    rw [hspecs]
    exact bind_eq_ok.2 ⟨perSpec, rfl, bind_eq_ok.2 ⟨(), hfew (Nat.not_lt.1 hnot), rfl⟩⟩
  · obtain ⟨n, hn, herror⟩ := hmany htoo
    refine ⟨n, hn, ?_⟩
    unfold Query.resolveAxis
    rw [hspecs]
    change (Query.checkTupleCount 1 perSpec >>= _) = _
    rw [herror]
    rfl

end Axes

/-! ## Axes -/

/-- How the sets that are written on one axis were lowered onto it. -/
inductive Lowered (cube : Cube) : List AxisSpec → List SetExpr → List AxisSpec → Prop
  | unwritten {specs : List AxisSpec} : Lowered cube specs [] specs
  | written {e : SetExpr} {specs : List AxisSpec} :
      (flattenCrossjoin e).mapM (lowerComponent cube) = .ok specs → Lowered cube [] [e] specs

theorem flattenCrossjoin_ne_nil (e : SetExpr) : flattenCrossjoin e ≠ [] := by
  induction e using flattenCrossjoin.induct with
  | case1 l r ihl ihr => simp [flattenCrossjoin, ihl]
  | case2 e hne => simp [flattenCrossjoin.eq_2 e hne]

/-- A set is lowered onto an axis that nothing is on, and nothing after it. -/
theorem Lowered.cons {target specs final : List AxisSpec} {e : SetExpr} {rest : List SetExpr}
    (h : lowerSet cube target e = .ok specs) (hrest : Lowered cube specs rest final) :
    Lowered cube target (e :: rest) final := by
  unfold lowerSet at h
  rw [ite_error_eq_ok] at h
  obtain ⟨hempty, hspecs⟩ := h
  obtain rfl : target = [] := by simpa using hempty
  have hlength := (mapM_eq_ok.1 hspecs).length_eq
  have hpos := List.length_pos_iff.2 (flattenCrossjoin_ne_nil e)
  cases hrest with
  | unwritten => exact .written hspecs
  | written hagain =>
    rw [List.length_nil] at hlength
    omega

theorem lowered_of_axes {axes : List (AxisName × SetExpr)} {p p' : Placed}
    (h : axes.foldlM (lowerAxis cube) p = .ok p') :
    (∀ x ∈ axes, x.1 = .columns ∨ x.1 = .rows) ∧
      Lowered cube p.rows ((axes.filter fun x => x.1 = .rows).map Prod.snd) p'.rows ∧
      Lowered cube p.columns ((axes.filter fun x => x.1 = .columns).map Prod.snd) p'.columns := by
  induction axes generalizing p with
  | nil =>
    obtain rfl := Except.ok.inj h
    exact ⟨by simp, .unwritten, .unwritten⟩
  | cons x axes ih =>
    obtain ⟨axis, e⟩ := x
    rw [List.foldlM_cons] at h
    obtain ⟨mid, hmid, h⟩ := bind_eq_ok.1 h
    obtain ⟨hnames, hrows, hcolumns⟩ := ih h
    cases axis with
    | columns =>
      obtain ⟨specs, hspecs, hset⟩ := bind_eq_ok.1 hmid
      obtain rfl := Except.ok.inj hset
      refine ⟨by simpa using hnames, by simpa using hrows, ?_⟩
      simpa using Lowered.cons hspecs hcolumns
    | rows =>
      obtain ⟨specs, hspecs, hset⟩ := bind_eq_ok.1 hmid
      obtain rfl := Except.ok.inj hset
      refine ⟨by simpa using hnames, ?_, by simpa using hcolumns⟩
      simpa using Lowered.cons hspecs hrows
    | ordinal n => cases hmid

/-- A view's axis resolves to what is on the query's axis, and is refused where
that is more than the tuples that one execution may address. -/
def ResolvesTo (cube : Cube) (lookup : String → String → Option Subset) (eval : SetEvaluator)
    (axis : List AxisSpec) (sets : List SetExpr) : Prop :=
  ∃ dims sizes tuples, AxisOf cube sets dims sizes tuples ∧
    (¬ TooMany sizes → Query.resolveAxis cube lookup eval axis = .ok (dims, tuples)) ∧
    (TooMany sizes → ∃ n, maxCellsetCells < n ∧ Query.resolveAxis cube lookup eval axis =
      .error (.model (.cellsetTooLarge n maxCellsetCells)))

theorem Lowered.resolvesTo (hc : cube.WF) (lookup : String → String → Option Subset)
    (eval : SetEvaluator) {sets : List SetExpr} {specs : List AxisSpec}
    (h : Lowered cube [] sets specs) : ResolvesTo cube lookup eval specs sets := by
  cases h with
  | unwritten =>
    refine ⟨[], [], [[]], .unwritten, fun _ => rfl, fun htoo => ?_⟩
    exact absurd htoo (by simp [TooMany, maxCellsetCells])
  | written hspecs =>
    obtain ⟨dims, sizes, tuples, hmeans, hresolve⟩ := resolveAxis_of_lower hc lookup eval hspecs
    exact ⟨dims, sizes, tuples, .written hmeans, hresolve⟩

theorem ResolvesTo.of_ok {lookup : String → String → Option Subset} {eval : SetEvaluator}
    {axis : List AxisSpec} {sets : List SetExpr} {dims : List String} {tuples : List (List Nat)}
    (h : ResolvesTo cube lookup eval axis sets)
    (hok : Query.resolveAxis cube lookup eval axis = .ok (dims, tuples)) :
    ∃ sizes, AxisOf cube sets dims sizes tuples ∧ ¬ TooMany sizes := by
  obtain ⟨dims', sizes, tuples', hof, hfew, hmany⟩ := h
  by_cases htoo : TooMany sizes
  · obtain ⟨n, -, hresolve⟩ := hmany htoo
    rw [hok] at hresolve
    cases hresolve
  · have hresolve := hfew htoo
    rw [hok] at hresolve
    cases hresolve
    exact ⟨sizes, hof, htoo⟩

/-! ## Members -/

section Members

variable (hn : (cube.dimensions.map Dimension.name).Nodup)

include hn

theorem dimension_unique {k : Nat} {d d' : Dimension} (hd : cube.dimensions[k]? = some d)
    (hd' : d' ∈ cube.dimensions) (hname : d'.name = d.name) : d' = d :=
  List.inj_on_of_nodup_map hn hd' (List.mem_of_getElem? hd) hname

theorem find_dimension {k : Nat} {d : Dimension} (hd : cube.dimensions[k]? = some d) :
    (cube.dimensions.find? fun d' => d'.name = d.name) = some d := by
  rcases h : cube.dimensions.find? fun d' => d'.name = d.name with _ | d'
  · have hnone := List.find?_eq_none.1 h d (List.mem_of_getElem? hd)
    simp at hnone
  · obtain ⟨hmem, hname⟩ := of_find_dimension h
    rw [h, dimension_unique hn hd hmem hname]

omit hn in
theorem qualifier_eq_some {r : MemberRef} {n : String} (hlen : r.path.length ≤ 2) :
    qualifier r = some n ↔ r.path.dropLast = [n] := by
  obtain ⟨path⟩ := r
  unfold qualifier
  rcases path with _ | ⟨a, _ | ⟨b, _ | ⟨c, path⟩⟩⟩
  · simp
  · simp
  · simp
  · simp at hlen

omit hn in
theorem lowerMember_eq_ok {r : MemberRef} {x : String × String} :
    lowerMember r = .ok x ↔ qualifier r = some x.1 ∧ x.2 = r.name := by
  obtain ⟨n, m⟩ := x
  unfold lowerMember
  rcases qualifier r with _ | first
  · simp
  · simp [eq_comm]

/-- **A path of at most two segments** is accepted in `WHERE` when it is
accepted on an axis, and denotes the same member there. -/
theorem denotesInWhere_iff (hc : cube.WF) {r : MemberRef} (hlen : r.path.length ≤ 2) (k i : Nat) :
    DenotesInWhere cube r k i ↔ DenotesOnAxis cube r k i := by
  constructor
  · rintro ⟨d, member, hd, hlower, hresolve⟩
    obtain ⟨hqualifier, rfl⟩ := lowerMember_eq_ok.1 hlower
    have hwf := hc.dims d (List.mem_of_getElem? hd)
    have hi := okOr_eq_ok.1 hresolve
    have hmeans : Means d (.member r) [i] := by
      unfold Means
      exact ⟨i, ⟨.inr ((qualifier_eq_some hlen).1 hqualifier), hi⟩, rfl⟩
    have hlt := lt_of_resolve hwf hi
    have heval := (evaluate_iff hwf (.member r) [i]).2
      ⟨hmeans, List.nodup_singleton i, by simpa using hlt⟩
    obtain ⟨el, hel⟩ : ∃ el, d.element i = .ok el :=
      ⟨_, Dimension.element_eq_ok.2 (List.getElem?_eq_getElem hlt)⟩
    have hnames : ([i].mapM fun i => ((d.element i).map Element.name).mapError
        fun e => evalFailed e.toString) = .ok [el.name] :=
      mapM_eq_ok.2 (.cons (by rw [hel]; rfl) .nil)
    refine ⟨d, [el.name], hd, ?_, resolveMembers_names hwf (List.nodup_singleton i) hnames⟩
    unfold lowerComponent axisDimension
    refine bind_eq_ok.2 ⟨d.name, okOr_eq_ok.2 hqualifier, bind_eq_ok.2 ⟨d,
      okOr_eq_ok.2 (find_dimension hn hd), bind_eq_ok.2 ⟨[i], mapError_eq_ok.2 heval,
      bind_eq_ok.2 ⟨[el.name], hnames, rfl⟩⟩⟩⟩
  · rintro ⟨d, names, hd, hlower, hresolve⟩
    obtain ⟨d', hd', members, names', hmeans, hdim, hspec, hresolve', -⟩ :=
      lowerComponent_ok hc (fun _ _ => none) (fun _ _ => .ok []) hlower
    obtain ⟨hname, rfl⟩ := AxisSpec.members.inj hspec
    obtain rfl := dimension_unique hn hd hd' hname.symm
    rw [hresolve] at hresolve'
    obtain rfl := Except.ok.inj hresolve'
    unfold Means at hmeans
    obtain ⟨j, ⟨-, hj⟩, heq⟩ := hmeans
    obtain rfl : i = j := by simpa using heq
    unfold axisDimension at hdim
    exact ⟨_, r.name, hd, lowerMember_eq_ok.2 ⟨hdim, rfl⟩, okOr_eq_ok.2 hj⟩

end Members

/-! ## Queries -/

/-- A coordinate is at the members that a query's `WHERE` denotes. -/
def AtSlicer (cube : Cube) (q : Query) (coord : Coord) : Prop :=
  ∀ m ∈ q.slicer, ∃ k i, DenotesInWhere cube m k i ∧ coord[k]? = some i

theorem viewFromMdx_ok {cubeName : String} {q : Query} {v : View}
    (h : viewFromMdx cube cubeName q = .ok v) :
    (∀ x ∈ q.axes, x.1 = .columns ∨ x.1 = .rows) ∧
      Lowered cube [] (q.setsOn .rows) v.rows ∧ Lowered cube [] (q.setsOn .columns) v.columns ∧
      List.Forall₂ (fun m x => lowerMember m = .ok x) q.slicer v.context ∧
      v.suppressZeroRows = false ∧ v.suppressZeroColumns = false := by
  unfold viewFromMdx at h
  rw [ite_error_eq_ok] at h
  obtain ⟨placed, hplaced, h⟩ := bind_eq_ok.1 h.2
  obtain ⟨context, hcontext, h⟩ := bind_eq_ok.1 h
  obtain rfl := Except.ok.inj h
  obtain ⟨hnames, hrows, hcolumns⟩ := lowered_of_axes hplaced
  exact ⟨hnames, hrows, hcolumns, mapM_eq_ok.1 hcontext, rfl, rfl⟩

theorem filterMap_qualifier {slicer : List MemberRef} {context : List (String × String)}
    (h : List.Forall₂ (fun m x => lowerMember m = .ok x) slicer context) :
    slicer.filterMap qualifier = context.map Prod.fst := by
  induction h with
  | nil => rfl
  | cons hx _ ih =>
    rw [List.filterMap_cons, (lowerMember_eq_ok.1 hx).1, ih, List.map_cons]

/-- A coordinate at the context is at the members of `WHERE`. -/
theorem inContext_iff {q : Query} {context : List (String × String)}
    (h : List.Forall₂ (fun m x => lowerMember m = .ok x) q.slicer context) {coord : Coord}
    (hcoord : Query.InContext cube context coord) : AtSlicer cube q coord := by
  intro m hm
  unfold Query.InContext at hcoord
  generalize q.slicer = slicer at h hm
  induction h with
  | nil => cases hm
  | @cons m' x slicer context hx _ ih =>
    rcases List.mem_cons.1 hm with rfl | hm
    · obtain ⟨k, d, i, hd, hname, hi, hat⟩ := hcoord x List.mem_cons_self
      refine ⟨k, i, ⟨d, x.2, hd, ?_, okOr_eq_ok.2 hi⟩, hat⟩
      rw [hx, hname]
    · exact ih (fun y hy => hcoord y (List.mem_cons_of_mem x hy)) hm

open Classical in
/-- **What a query that is lowered denotes.** Each axis of its view resolves
to the ordered crossjoin of the sets on it, unless these have too many
members. When the view executes, its axes list these, without the tuples of
which a member is hidden from the caller; every dimension is used once, on an
axis or in `WHERE`; and no cell is read but at the members of `WHERE`, which
are those that the paths denote on an axis, where a path has at most two
segments. -/
theorem viewFromMdx_meaning (hc : cube.WF) (hn : (cube.dimensions.map Dimension.name).Nodup)
    {cubeName : String} {q : Query} {v : View} (h : viewFromMdx cube cubeName q = .ok v)
    (cells : CellResolver) (lookup : String → String → Option Subset) (eval : SetEvaluator)
    (mask : Option ElementMask) (par : Parallelism) :
    (∀ x ∈ q.axes, x.1 = .columns ∨ x.1 = .rows) ∧
    ResolvesTo cube lookup eval v.rows (q.setsOn .rows) ∧
    ResolvesTo cube lookup eval v.columns (q.setsOn .columns) ∧
    (∀ cs, Query.executeViewWith cube v cells lookup eval mask par = .ok cs →
      (∃ rowSizes rows columnSizes columns,
        AxisOf cube (q.setsOn .rows) cs.rowDimensions rowSizes rows ∧ ¬ TooMany rowSizes ∧
        AxisOf cube (q.setsOn .columns) cs.columnDimensions columnSizes columns ∧
        ¬ TooMany columnSizes ∧
        cs.rowTuples = (rows.filter fun tuple =>
            Query.Unhidden cube mask (cs.rowDimensions.map (Query.position cube)) tuple).map
          (Query.tupleNames cube (cs.rowDimensions.map (Query.position cube))) ∧
        cs.columnTuples = (columns.filter fun tuple =>
            Query.Unhidden cube mask (cs.columnDimensions.map (Query.position cube)) tuple).map
          (Query.tupleNames cube (cs.columnDimensions.map (Query.position cube)))) ∧
      (cs.rowDimensions ++ cs.columnDimensions ++ q.slicer.filterMap qualifier).Perm
        (cube.dimensions.map Dimension.name) ∧
      ∀ cells' : CellResolver, (∀ coord, AtSlicer cube q coord →
          cells'.value coord = cells.value coord ∧
            cells'.stringValue coord = cells.stringValue coord) →
        Query.executeViewWith cube v cells' lookup eval mask par = .ok cs) ∧
    ∀ r : MemberRef, r.path.length ≤ 2 → ∀ k i,
      DenotesInWhere cube r k i ↔ DenotesOnAxis cube r k i := by
  obtain ⟨hnames, hrows, hcolumns, hcontext, hzr, hzc⟩ := viewFromMdx_ok h
  have hrowsTo := hrows.resolvesTo hc lookup eval
  have hcolumnsTo := hcolumns.resolvesTo hc lookup eval
  refine ⟨hnames, hrowsTo, hcolumnsTo, fun cs hcs => ?_, fun r hlen k i =>
    denotesInWhere_iff hn hc hlen k i⟩
  obtain ⟨hcover, -, rows, columns, hr, hcol, hrowTuples, hcolumnTuples⟩ :=
    Query.listed_of_executeViewWith hzr hzc hcs
  obtain ⟨rowSizes, hrowsOf, hrowsFew⟩ := hrowsTo.of_ok hr
  obtain ⟨columnSizes, hcolumnsOf, hcolumnsFew⟩ := hcolumnsTo.of_ok hcol
  refine ⟨⟨rowSizes, rows, columnSizes, columns, hrowsOf, hrowsFew, hcolumnsOf, hcolumnsFew,
    hrowTuples, hcolumnTuples⟩, ?_, fun cells' hagree => ?_⟩
  · have hperm := Query.perm_of_validateCoverage hn hcover
    have hrowDims := Query.fst_resolveAxis hr
    have hcolumnDims := Query.fst_resolveAxis hcol
    dsimp only at hrowDims hcolumnDims
    unfold Query.placedNames at hperm
    rwa [hrowDims, hcolumnDims, filterMap_qualifier hcontext, ← List.map_append]
  · rw [← hcs]
    refine Query.executeViewWith_slice hn fun coord hcoord => ?_
    exact hagree coord (inContext_iff hcontext hcoord)

/-! ## Sales -/

/-- The south and all regions, in that order, by month, of the amounts. -/
def amounts : Query where
  axes := [(.rows, .crossjoin (.set [.member ⟨["Region", "South"]⟩, .members ⟨["Region"]⟩])
    (.members ⟨["Month"]⟩))]
  cube := "Sales"
  slicer := [⟨["Measure", "Amount"]⟩]

/-- The caller may not see the second month. -/
def januaryMask : ElementMask := .fromDenied [3, 2, 2] [[], [], [1]]

/-- The cells that this caller reads. -/
def januaryCells (trade : Cube) (v : View) : Except QueryError Cellset :=
  Query.executeViewWith trade v (Query.storedCells trade) (fun _ _ => none) (fun _ _ => .ok [])
    (some januaryMask) ⟨1, 0⟩

open Classical in
/-- The rows of the query are the crossjoin of its sets, of which the caller
sees the first month. -/
theorem viewFromMdx_amounts : ∃ (trade : Cube) (v : View) (cs : Cellset),
    Query.tradeCube = .ok trade ∧ viewFromMdx trade "Sales" amounts = .ok v ∧
    januaryCells trade v = .ok cs ∧
    cs.rowTuples = [["South", "Jan"], ["North", "Jan"], ["World", "Jan"]] ∧
    (∃ sizes rows,
      AxisOf trade (amounts.setsOn .rows) cs.rowDimensions sizes rows ∧ ¬ TooMany sizes ∧
      cs.rowTuples = (rows.filter fun tuple =>
          Query.Unhidden trade (some januaryMask)
            (cs.rowDimensions.map (Query.position trade)) tuple).map
        (Query.tupleNames trade (cs.rowDimensions.map (Query.position trade)))) ∧
    (cs.rowDimensions ++ cs.columnDimensions ++ amounts.slicer.filterMap qualifier).Perm
      (trade.dimensions.map Dimension.name) := by
  obtain ⟨trade, htrade, hok⟩ := exists_ok_of_any (x := Query.tradeCube)
    (p := fun trade => (trade.dimensions.map Dimension.name).Nodup ∧
      (viewFromMdx trade "Sales" amounts).toOption.any fun v =>
        (januaryCells trade v).toOption.any fun cs =>
          cs.rowTuples = [["South", "Jan"], ["North", "Jan"], ["World", "Jan"]])
    (by decide +kernel)
  obtain ⟨hn, hok⟩ := of_decide_eq_true hok
  obtain ⟨v, hv, hok⟩ := exists_ok_of_any hok
  obtain ⟨cs, hcs, hok⟩ := exists_ok_of_any hok
  have hwf : trade.WF := by
    obtain ⟨c, hc, hset⟩ := bind_eq_ok.1 htrade
    exact (Cube.WF.build hc).setLeaf hset
  obtain ⟨-, -, -, hexec, -⟩ := viewFromMdx_meaning hwf hn hv (Query.storedCells trade)
    (fun _ _ => none) (fun _ _ => .ok []) (some januaryMask) ⟨1, 0⟩
  obtain ⟨⟨sizes, rows, -, -, hof, hfew, -, -, hrows, -⟩, hperm, -⟩ := hexec cs hcs
  exact ⟨trade, v, cs, htrade, hv, hcs, of_decide_eq_true hok, ⟨sizes, rows, hof, hfew, hrows⟩,
    hperm⟩

/-- The north alone: a view is made of it, though nothing places the
measures. -/
def northOnly : Query where
  axes := [(.columns, .set [.member ⟨["Region", "North"]⟩])]
  cube := "Sales"
  slicer := []

/-- A query is lowered without one of the dimensions; and `WHERE` takes a path
that no axis takes. -/
theorem not_placed_northOnly : ∃ (sales : Cube) (v : View),
    Cube.build "Sales" Cube.salesDefs = .ok sales ∧
    viewFromMdx sales "Sales" northOnly = .ok v ∧
    "Measure" ∈ sales.dimensions.map Dimension.name ∧ "Measure" ∉ Query.placedNames v ∧
    DenotesInWhere sales ⟨["Region", "World", "North"]⟩ 0 0 ∧
    ¬ DenotesOnAxis sales ⟨["Region", "World", "North"]⟩ 0 0 := by
  obtain ⟨sales, hsales, hok⟩ := exists_ok_of_any (x := Cube.build "Sales" Cube.salesDefs)
    (p := fun sales => (sales.dimensions[0]?.any fun d => d.name = "Region" ∧
        (Query.resolveMember d "North").toOption = some 0) ∧
      (lowerComponent sales (.member ⟨["Region", "World", "North"]⟩)).toOption = none ∧
      "Measure" ∈ sales.dimensions.map Dimension.name ∧
      (viewFromMdx sales "Sales" northOnly).toOption.any fun v =>
        "Measure" ∉ Query.placedNames v) (by decide +kernel)
  obtain ⟨hregion, hnone, hmeasure, hok⟩ := of_decide_eq_true hok
  obtain ⟨v, hv, hok⟩ := exists_ok_of_any hok
  obtain ⟨d, hd, hnorth⟩ := (Option.any_eq_true _ _).1 hregion
  obtain ⟨hname, hnorth⟩ := of_decide_eq_true hnorth
  refine ⟨sales, v, hsales, hv, hmeasure, of_decide_eq_true hok,
    ⟨d, "North", hd, by rw [hname]; rfl, ?_⟩, ?_⟩
  · cases hx : Query.resolveMember d "North" with
    | ok i => rw [hx] at hnorth; rw [Option.some.inj hnorth]
    | error e => rw [hx] at hnorth; cases hnorth
  · rintro ⟨d, names, -, hlower, -⟩
    rw [hlower] at hnone
    cases hnone

end Mdx

end Epiphany
