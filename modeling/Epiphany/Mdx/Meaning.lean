import Epiphany.Core.CubeRuns
import Epiphany.Mdx.Eval
/-!
# MDX meaning — what a set expression stands for

The meaning of a set expression is stated apart from how it is evaluated.
The descendants of a member are read off the unfolding of the hierarchy, in
which a shared member stands once for each path; a predicate is true, or
false, or neither; and a sorted set is the one arrangement of its members
that a key and the order before allow. Evaluation returns a list if and only
if it is the meaning (`evaluate_iff`).
-/

namespace Epiphany

namespace Mdx

open Worklist

variable (d : Dimension)

/-! ## The meaning -/

/-- Nothing stands before the member, or the dimension does. -/
def MemberRef.InDimension (r : MemberRef) : Prop :=
  r.path.dropLast = [] ∨ r.path.dropLast = [d.name]

def MemberRef.Names (r : MemberRef) (i : Nat) : Prop :=
  r.InDimension d ∧ d.resolve r.name = some i

/-- The children of a member, as the edges of a traversal by a stack. -/
def hierarchy (i : Nat) : List (Nat × Unit) :=
  ((d.edgesOf i).map fun e => (e.child, ())).reverse

/-- The members below a root in preorder, with their depth: once for every
path from the root, children in their order. -/
def Unfolds (root : Nat) (out : List (Nat × Nat)) : Prop :=
  Listing (hierarchy d) (fun depth _ => depth + 1) [(root, 0)] out

/-- The value of an operand at a member. -/
def Operand.value (element : Nat) : Operand → Option AttributeValue
  | .property attr => d.attributeOf element attr
  | .str text => some (.text text)
  | .number text => (Fixed.fromStr text).toOption.map .numeric

/-- What an operand names exists, and what it writes is a number. -/
def Operand.Known : Operand → Prop
  | .property attr => d.attributeIndex attr ≠ none
  | .str _ => True
  | .number text => (Fixed.fromStr text).isOk = true

def CmpOp.Rel {α : Type} [LE α] [LT α] (a b : α) : CmpOp → Prop
  | .eq => a = b
  | .ne => a ≠ b
  | .lt => a < b
  | .le => a ≤ b
  | .gt => b < a
  | .ge => b ≤ a

/-- A comparison of values, which are of one type. -/
def CmpOp.Holds (op : CmpOp) : AttributeValue → AttributeValue → Prop
  | .text a, .text b => op.Rel a b
  | .numeric a, .numeric b => op.Rel a.toScaled b.toScaled
  | _, _ => False

def SameType : AttributeValue → AttributeValue → Prop
  | .text _, .text _ => True
  | .numeric _, .numeric _ => True
  | _, _ => False

/-- **Three values.** A predicate is true of a member, or false: a comparison
with a missing value is neither. -/
def Predicate.Sat (element : Nat) : Bool → Predicate → Prop
  | true, .and left right => left.Sat element true ∧ right.Sat element true
  | false, .and left right => left.Sat element false ∨ right.Sat element false
  | true, .or left right => left.Sat element true ∨ right.Sat element true
  | false, .or left right => left.Sat element false ∧ right.Sat element false
  | b, .not p => p.Sat element !b
  | b, .compare left op right => ∃ v w, left.value d element = some v ∧
      right.value d element = some w ∧ (op.Holds v w ↔ b = true)

/-- No comparison of a predicate names what there is not, or mixes types. -/
def Predicate.Typed (element : Nat) : Predicate → Prop
  | .and left right => left.Typed element ∧ right.Typed element
  | .or left right => left.Typed element ∧ right.Typed element
  | .not p => p.Typed element
  | .compare left _ right => left.Known d ∧ right.Known d ∧
      ∀ v w, left.value d element = some v → right.value d element = some w → SameType v w

/-- One value comes before another: what is missing, then numbers by size, then
texts by their letters. -/
inductive Before : Option AttributeValue → Option AttributeValue → Prop
  | missing (v : AttributeValue) : Before none (some v)
  | numeric {x y : Fixed} (h : x.toScaled < y.toScaled) :
      Before (some (.numeric x)) (some (.numeric y))
  | text {s t : String} (h : s < t) : Before (some (.text s)) (some (.text t))
  | apart (x : Fixed) (s : String) : Before (some (.numeric x)) (some (.text s))

/-- Values in a direction. -/
def OrderDir.Before : OrderDir → Option AttributeValue → Option AttributeValue → Prop
  | .asc, v, w => Mdx.Before v w
  | .bAsc, v, w => Mdx.Before v w
  | .desc, v, w => Mdx.Before w v
  | .bDesc, v, w => Mdx.Before w v

/-- One member comes before another: by its value, and among equal values as in
the set before. -/
def Precedes (base : List Nat) (attr : String) (dir : OrderDir) (a b : Nat) : Prop :=
  dir.Before (d.attributeOf a attr) (d.attributeOf b attr) ∨
    d.attributeOf a attr = d.attributeOf b attr ∧ base.idxOf a < base.idxOf b

mutual

/-- **The meaning of a set expression.** -/
def Means : SetExpr → List Nat → Prop
  | .set items, r => ∃ lists, MeanAll items lists ∧ r = lists.flatten.eraseDups
  | .member ref, r => ∃ i, ref.Names d i ∧ r = [i]
  | .members ref, r => ref.InDimension d ∧ ref.name = d.name ∧ r = List.range d.len
  | .children ref, r => ∃ i, ref.Names d i ∧ r = ((d.edgesOf i).map Edge.child).eraseDups
  | .descendants ref, r => ∃ i out, ref.Names d i ∧ Unfolds d i out ∧
      r = (out.map Prod.fst).eraseDups ∧
      -- where a member is first met, the hierarchy is not too deep
      ∀ x ∈ firstsBy Prod.fst [] out, x.2 ≤ maxDescendantsDepth
  | .filter set p, r => ∃ base, Means set base ∧ (∀ m ∈ base, p.Typed d m) ∧
      open Classical in r = base.filter fun m => p.Sat d m true
  | .order set attr dir, r => ∃ base, Means set base ∧ d.attributeIndex attr ≠ none ∧
      r.Perm base ∧ r.Pairwise (Precedes d base attr dir)
  | .crossjoin _ _, _ => False

def MeanAll : List SetExpr → List (List Nat) → Prop
  | [], lists => lists = []
  | item :: rest, lists => ∃ first others, Means item first ∧ MeanAll rest others ∧
      lists = first :: others

end

/-! ## References -/

variable {d}

theorem checkDimensionQualifier_eq_ok {r : MemberRef} :
    checkDimensionQualifier d r = .ok () ↔ r.InDimension d := by
  obtain ⟨path⟩ := r
  unfold checkDimensionQualifier MemberRef.InDimension
  rcases path with _ | ⟨a, _ | ⟨b, _ | ⟨c, path⟩⟩⟩
  · simp
  · simp
  · simp
  · simp

theorem resolveMember_eq_ok {r : MemberRef} {i : Nat} :
    resolveMember d r = .ok i ↔ r.Names d i := by
  unfold resolveMember MemberRef.Names
  rw [bind_eq_ok, ← checkDimensionQualifier_eq_ok]
  constructor
  · rintro ⟨⟨⟩, hq, h⟩
    exact ⟨hq, okOr_eq_ok.1 h⟩
  · rintro ⟨hq, h⟩
    exact ⟨(), hq, okOr_eq_ok.2 h⟩

theorem dimensionRef_eq_ok {r : MemberRef} :
    dimensionRef d r = .ok () ↔ r.InDimension d ∧ r.name = d.name := by
  unfold dimensionRef
  rw [bind_eq_ok, ← checkDimensionQualifier_eq_ok]
  constructor
  · rintro ⟨⟨⟩, hq, h⟩
    split_ifs at h with hname
    exact ⟨hq, not_not.1 hname⟩
  · rintro ⟨hq, hname⟩
    exact ⟨(), hq, if_neg (not_not.2 hname)⟩

theorem lt_of_resolve (hd : d.WF) {name : String} {i : Nat} (h : d.resolve name = some i) :
    i < d.len := by
  unfold Dimension.resolve at h
  rcases hname : d.indexOf name with _ | j
  · rw [hname] at h
    obtain ⟨k, -, hvalue⟩ := (hd.aliases name i).1 h
    by_contra hle
    rw [Dimension.valuesOf_of_le (by rw [hd.values_length]; exact Nat.not_lt.1 hle)] at hvalue
    simp at hvalue
  · rw [hname] at h
    obtain rfl := Option.some.inj h
    exact Dimension.lt_of_nameAt ((hd.index name j).1 hname)

/-! ## The hierarchy -/

theorem dedup_eq (l : List Nat) : dedup l = l.eraseDups := by
  have h := @map_firstsBy Nat Nat _ id [] l
  rw [List.map_id, List.map_id] at h
  rw [dedup, h]
  simp

theorem childrenOf_eq {i : Nat} (hi : i < d.len) :
    d.childrenOf i = .ok ((d.edgesOf i).map Edge.child) := by
  obtain ⟨element, helement⟩ : ∃ element, d.element i = .ok element :=
    ⟨_, Dimension.element_eq_ok.2 (List.getElem?_eq_getElem hi)⟩
  unfold Dimension.childrenOf
  rw [helement]
  rfl

theorem along_hierarchy (i depth : Nat) :
    (along (hierarchy d) (fun depth _ => depth + 1) i depth).reverse =
      ((d.edgesOf i).map Edge.child).map fun child => (child, depth + 1) := by
  simp [along, hierarchy, Function.comp_def]

/-- **The traversal** takes what a depth-first traversal visits, and fails
where one of them is too deep. -/
theorem descendantsLoop_eq_ok (hd : d.WF) (n : Nat) {stack : List (Nat × Nat)} {seen r : List Nat}
    (hstack : ∀ x ∈ stack, x.1 < d.len) :
    descendantsLoop d n stack seen = .ok r ↔
      (∀ x ∈ visits .stack (hierarchy d) (fun depth _ => depth + 1) n stack seen,
        x.2 ≤ maxDescendantsDepth) ∧
      r = (visits .stack (hierarchy d) (fun depth _ => depth + 1) n stack seen).map Prod.fst := by
  induction n generalizing stack seen r with
  | zero =>
    simp [descendantsLoop, visits, eq_comm]
  | succ n ih =>
    rcases stack with _ | ⟨⟨node, depth⟩, stack⟩
    · simp [descendantsLoop, eq_comm]
    · have hrest : ∀ x ∈ stack, x.1 < d.len := fun x hx => hstack x (List.mem_cons_of_mem _ hx)
      have hnode : node < d.len := hstack (node, depth) List.mem_cons_self
      rw [descendantsLoop]
      by_cases hseen : node ∈ seen
      · rw [if_pos hseen, visits_cons_of_mem hseen]
        exact ih hrest
      · rw [if_neg hseen, visits_cons_of_not_mem hseen, List.forall_mem_cons, List.map_cons]
        -- the depth is checked at the first visit of a node, before its children are asked for
        by_cases hdeep : maxDescendantsDepth < depth
        · rw [if_pos hdeep]
          refine iff_of_false (by rintro ⟨⟩) fun h => ?_
          have hle : depth ≤ maxDescendantsDepth := h.1.1
          omega
        · rw [if_neg hdeep, childrenOf_eq hnode]
          have hnext : ∀ x ∈ Discipline.stack.join
              (along (hierarchy d) (fun depth _ => depth + 1) node depth) stack, x.1 < d.len := by
            intro x hx
            rw [Discipline.join, along_hierarchy] at hx
            rcases List.mem_append.1 hx with hx | hx
            · obtain ⟨child, hchild, rfl⟩ := List.mem_map.1 hx
              obtain ⟨e, he, rfl⟩ := List.mem_map.1 hchild
              exact hd.edges_lt node e he
            · exact hrest x hx
          have hjoin : ((d.edgesOf node).map Edge.child).map (fun child => (child, depth + 1)) ++
              stack = Discipline.stack.join
                (along (hierarchy d) (fun depth _ => depth + 1) node depth) stack := by
            rw [Discipline.join, along_hierarchy]
          change (descendantsLoop d n (((d.edgesOf node).map Edge.child).map
            (fun child => (child, depth + 1)) ++ stack) (node :: seen) >>= fun out =>
              Except.ok (node :: out)) = .ok r ↔ _
          rw [hjoin, bind_eq_ok]
          constructor
          · rintro ⟨out, hout, h⟩
            obtain rfl := Except.ok.inj h
            obtain ⟨hall, rfl⟩ := (ih hnext).1 hout
            exact ⟨⟨Nat.le_of_not_lt hdeep, hall⟩, rfl⟩
          · rintro ⟨⟨-, hall⟩, rfl⟩
            exact ⟨_, (ih hnext).2 ⟨hall, rfl⟩, rfl⟩

theorem linked_hierarchy {u v : Nat} : Linked (hierarchy d) u v ↔ d.IsChild u v := by
  unfold Linked hierarchy Dimension.IsChild
  constructor
  · rintro ⟨x, hx, rfl⟩
    obtain ⟨e, he, rfl⟩ := List.mem_map.1 (List.mem_reverse.1 hx)
    exact ⟨e, he, rfl⟩
  · rintro ⟨e, he, rfl⟩
    exact ⟨(e.child, ()), List.mem_reverse.2 (List.mem_map.2 ⟨e, he, rfl⟩), rfl⟩

theorem acyclic_hierarchy (hd : d.WF) : Acyclic (Linked (hierarchy d)) :=
  hd.acyclic.of_map id fun _ _ h => linked_hierarchy.1 h

theorem hierarchy_of_not_mem : ∀ i ∉ Finset.range d.children.length, hierarchy d i = [] := by
  intro i hi
  rw [Finset.mem_range, not_lt] at hi
  simp [hierarchy, Dimension.edgesOf_of_le hi]

theorem exists_unfolds (hd : d.WF) (root : Nat) : ∃ out, Unfolds d root out :=
  Listing.exists_of_wellFounded
    (wellFounded_of_acyclic (acyclic_hierarchy hd) hierarchy_of_not_mem) _ _

/-- **Descendants** are the first occurrences in the unfolding. -/
theorem descendantsOf_eq_ok (hd : d.WF) {root : Nat} (hroot : root < d.len) {r : List Nat} :
    descendantsOf d root = .ok r ↔ ∃ out, Unfolds d root out ∧ r = (out.map Prod.fst).eraseDups ∧
      ∀ x ∈ firstsBy Prod.fst [] out, x.2 ≤ maxDescendantsDepth := by
  have hvisits : ∀ out, Unfolds d root out →
      visits .stack (hierarchy d) (fun depth _ => depth + 1) (d.edgeCount + 1) [(root, 0)] [] =
        firstsBy Prod.fst [] out := by
    intro out hout
    have hwork := d.work_start (hierarchy d) (fun i => by simp [hierarchy]) (root, 0)
    rw [← visits_eq_firstsBy (acyclic_hierarchy hd) hout
      (Nat.le_add_right out.length (d.edgeCount + 1)) (done_nil out)]
    exact visits_fuel hierarchy_of_not_mem hwork (by omega)
  have hfirsts : ∀ out : List (Nat × Nat),
      (firstsBy Prod.fst [] out).map Prod.fst = (out.map Prod.fst).eraseDups := by
    intro out
    rw [map_firstsBy]
    simp
  unfold descendantsOf
  rw [descendantsLoop_eq_ok hd _ (by simpa using hroot)]
  constructor
  · rintro ⟨hdepth, rfl⟩
    obtain ⟨out, hout⟩ := exists_unfolds hd root
    rw [hvisits out hout] at hdepth ⊢
    exact ⟨out, hout, hfirsts out, hdepth⟩
  · rintro ⟨out, hout, rfl, hdepth⟩
    rw [hvisits out hout]
    exact ⟨hdepth, (hfirsts out).symm⟩

/-! ## Predicates -/

/-- The value of an operand, as it is compared. -/
def valOf : Option AttributeValue → Val
  | none => .missing
  | some (.text s) => .text s
  | some (.numeric v) => .num v

theorem evalOperand_eq_ok {element : Nat} {operand : Operand} {v : Val} :
    evalOperand d element operand = .ok v ↔
      operand.Known d ∧ v = valOf (operand.value d element) := by
  cases operand with
  | property attr =>
    simp only [evalOperand, Operand.Known, Operand.value]
    rcases d.attributeIndex attr with _ | i
    · simp
    · rcases d.attributeOf element attr with _ | ⟨s⟩ | ⟨n⟩
      · simp [valOf, eq_comm]
      · simp [valOf, eq_comm]
      · simp [valOf, eq_comm]
  | str text => simp [evalOperand, Operand.Known, Operand.value, valOf, eq_comm]
  | number text =>
    simp only [evalOperand, Operand.Known, Operand.value]
    rcases Fixed.fromStr text with e | n
    · simp [Except.mapError, Except.map, Except.isOk, Except.toBool]
    · simp [Except.mapError, Except.map, Except.isOk, Except.toBool, Except.toOption, valOf,
        eq_comm]

theorem applyOp_eq_true {α : Type} [LinearOrder α] {a b : α} {op : CmpOp} :
    applyOp a b op = true ↔ op.Rel a b := by
  cases op with
  | eq => simp [applyOp, CmpOp.Rel]
  | ne => simp [applyOp, CmpOp.Rel]
  | lt => simp [applyOp, CmpOp.Rel]
  | le => simp [applyOp, CmpOp.Rel]
  | gt => simp [applyOp, CmpOp.Rel]
  | ge => simp [applyOp, CmpOp.Rel]

/-- A truth value, as what is known of true and of false. -/
def Truth.Is : Truth → Bool → Prop
  | .yes, b => b = true
  | .no, b => b = false
  | .unknown, _ => False

theorem Truth.is_ofBool {x b : Bool} : (Truth.ofBool x).Is b ↔ (x = true ↔ b = true) := by
  cases x with
  | true => simp [Truth.ofBool, Truth.Is]
  | false => simp [Truth.ofBool, Truth.Is]

theorem Truth.ext {t t' : Truth} (h : ∀ b, t.Is b ↔ t'.Is b) : t = t' := by
  have htrue := h true
  have hfalse := h false
  cases t with
  | yes => cases t' with
    | yes => rfl
    | no => simp [Truth.Is] at htrue
    | unknown => simp [Truth.Is] at htrue
  | no => cases t' with
    | yes => simp [Truth.Is] at htrue
    | no => rfl
    | unknown => simp [Truth.Is] at hfalse
  | unknown => cases t' with
    | yes => simp [Truth.Is] at htrue
    | no => simp [Truth.Is] at hfalse
    | unknown => rfl

/-- The truth of the comparison of two values that there are. -/
theorem compareVals_of_some {v w : AttributeValue} {op : CmpOp} {t : Truth} :
    compareVals (valOf (some v)) (valOf (some w)) op = .ok t ↔
      SameType v w ∧ ∀ b, t.Is b ↔ (op.Holds v w ↔ b = true) := by
  have hop : ∀ x : Bool, (Except.ok (Truth.ofBool x) = (.ok t : Except EvalError Truth) ↔
      ∀ b, t.Is b ↔ (x = true ↔ b = true)) := by
    intro x
    rw [Except.ok.injEq]
    constructor
    · rintro rfl b
      exact Truth.is_ofBool
    · intro h
      exact Truth.ext fun b => Truth.is_ofBool.trans (h b).symm
  rcases v with a | a
  · rcases w with b | b
    · simp only [valOf, compareVals, SameType, CmpOp.Holds, true_and, hop, applyOp_eq_true]
    · simp [valOf, compareVals, SameType]
  · rcases w with b | b
    · simp [valOf, compareVals, SameType]
    · simp only [valOf, compareVals, SameType, CmpOp.Holds, true_and, hop, applyOp_eq_true]

theorem compareVals_iff {l r : Option AttributeValue} {op : CmpOp} {t : Truth} :
    compareVals (valOf l) (valOf r) op = .ok t ↔
      (∀ v w, l = some v → r = some w → SameType v w) ∧
      ∀ b, t.Is b ↔ ∃ v w, l = some v ∧ r = some w ∧ (op.Holds v w ↔ b = true) := by
  have hmissing : (Except.ok Truth.unknown = (.ok t : Except EvalError Truth)) ↔
      ∀ b, t.Is b ↔ False := by
    rw [Except.ok.injEq]
    constructor
    · rintro rfl b
      exact Iff.rfl
    · intro h
      exact Truth.ext fun b => (h b).symm
  rcases l with _ | v
  · simpa [valOf, compareVals] using hmissing
  · rcases r with _ | w
    · rcases v with a | a
      · simpa [valOf, compareVals] using hmissing
      · simpa [valOf, compareVals] using hmissing
    · rw [compareVals_of_some]
      simp

theorem exists_compareVals {l r : Option AttributeValue} (op : CmpOp)
    (h : ∀ v w, l = some v → r = some w → SameType v w) :
    ∃ t, compareVals (valOf l) (valOf r) op = .ok t := by
  rcases l with _ | v
  · exact ⟨.unknown, rfl⟩
  · rcases r with _ | w
    · rcases v with a | a
      · exact ⟨.unknown, rfl⟩
      · exact ⟨.unknown, rfl⟩
    · have htype := h v w rfl rfl
      rcases v with a | a
      · rcases w with b | b
        · exact ⟨_, rfl⟩
        · cases htype
      · rcases w with b | b
        · cases htype
        · exact ⟨_, rfl⟩

namespace Truth

variable {a b : Truth}

theorem is_not {x : Bool} : a.not.Is x ↔ a.Is !x := by
  cases a with
  | yes => cases x with
    | true => simp [Truth.not, Is]
    | false => simp [Truth.not, Is]
  | no => cases x with
    | true => simp [Truth.not, Is]
    | false => simp [Truth.not, Is]
  | unknown => rfl

theorem is_true_and : (a.and b).Is true ↔ a.Is true ∧ b.Is true := by
  cases a with
  | yes => cases b <;> simp [Truth.and, Is]
  | no => cases b <;> simp [Truth.and, Is]
  | unknown => cases b <;> simp [Truth.and, Is]

theorem is_false_and : (a.and b).Is false ↔ a.Is false ∨ b.Is false := by
  cases a with
  | yes => cases b <;> simp [Truth.and, Is]
  | no => cases b <;> simp [Truth.and, Is]
  | unknown => cases b <;> simp [Truth.and, Is]

theorem is_true_or : (a.or b).Is true ↔ a.Is true ∨ b.Is true := by
  cases a with
  | yes => cases b <;> simp [Truth.or, Is]
  | no => cases b <;> simp [Truth.or, Is]
  | unknown => cases b <;> simp [Truth.or, Is]

theorem is_false_or : (a.or b).Is false ↔ a.Is false ∧ b.Is false := by
  cases a with
  | yes => cases b <;> simp [Truth.or, Is]
  | no => cases b <;> simp [Truth.or, Is]
  | unknown => cases b <;> simp [Truth.or, Is]

end Truth

/-- A predicate that is evaluated is typed, and its truth is what is known
of it. -/
theorem sat_of_evalPredicate {element : Nat} {p : Predicate} {t : Truth}
    (h : evalPredicate d element p = .ok t) :
    p.Typed d element ∧ ∀ x, t.Is x ↔ p.Sat d element x := by
  induction p generalizing t with
  | and left right ihl ihr =>
    obtain ⟨a, ha, h⟩ := bind_eq_ok.1 h
    obtain ⟨b, hb, h⟩ := bind_eq_ok.1 h
    obtain rfl := Except.ok.inj h
    obtain ⟨htl, hl⟩ := ihl ha
    obtain ⟨htr, hr⟩ := ihr hb
    refine ⟨⟨htl, htr⟩, fun x => ?_⟩
    cases x with
    | true => rw [Truth.is_true_and, hl, hr, Predicate.Sat]
    | false => rw [Truth.is_false_and, hl, hr, Predicate.Sat]
  | or left right ihl ihr =>
    obtain ⟨a, ha, h⟩ := bind_eq_ok.1 h
    obtain ⟨b, hb, h⟩ := bind_eq_ok.1 h
    obtain rfl := Except.ok.inj h
    obtain ⟨htl, hl⟩ := ihl ha
    obtain ⟨htr, hr⟩ := ihr hb
    refine ⟨⟨htl, htr⟩, fun x => ?_⟩
    cases x with
    | true => rw [Truth.is_true_or, hl, hr, Predicate.Sat]
    | false => rw [Truth.is_false_or, hl, hr, Predicate.Sat]
  | not p ih =>
    obtain ⟨a, ha, h⟩ := bind_eq_ok.1 h
    obtain rfl := Except.ok.inj h
    obtain ⟨ht, hp⟩ := ih ha
    refine ⟨ht, fun x => ?_⟩
    rw [Truth.is_not, hp, Predicate.Sat]
  | compare left op right =>
    obtain ⟨l, hl, h⟩ := bind_eq_ok.1 h
    obtain ⟨r, hr, h⟩ := bind_eq_ok.1 h
    obtain ⟨hknownl, rfl⟩ := evalOperand_eq_ok.1 hl
    obtain ⟨hknownr, rfl⟩ := evalOperand_eq_ok.1 hr
    obtain ⟨htype, ht⟩ := compareVals_iff.1 h
    refine ⟨⟨hknownl, hknownr, htype⟩, fun x => ?_⟩
    rw [ht, Predicate.Sat]

theorem exists_evalPredicate {element : Nat} {p : Predicate} (h : p.Typed d element) :
    ∃ t, evalPredicate d element p = .ok t := by
  induction p with
  | and left right ihl ihr =>
    obtain ⟨a, ha⟩ := ihl h.1
    obtain ⟨b, hb⟩ := ihr h.2
    exact ⟨a.and b, bind_eq_ok.2 ⟨a, ha, bind_eq_ok.2 ⟨b, hb, rfl⟩⟩⟩
  | or left right ihl ihr =>
    obtain ⟨a, ha⟩ := ihl h.1
    obtain ⟨b, hb⟩ := ihr h.2
    exact ⟨a.or b, bind_eq_ok.2 ⟨a, ha, bind_eq_ok.2 ⟨b, hb, rfl⟩⟩⟩
  | not p ih =>
    obtain ⟨a, ha⟩ := ih h
    exact ⟨a.not, bind_eq_ok.2 ⟨a, ha, rfl⟩⟩
  | compare left op right =>
    obtain ⟨hl, hr, htype⟩ := h
    obtain ⟨t, ht⟩ := exists_compareVals op htype
    exact ⟨t, bind_eq_ok.2 ⟨_, evalOperand_eq_ok.2 ⟨hl, rfl⟩,
      bind_eq_ok.2 ⟨_, evalOperand_eq_ok.2 ⟨hr, rfl⟩, ht⟩⟩⟩

open Classical in
/-- One member is kept if its truth is true. -/
theorem kept_eq {element : Nat} {p : Predicate} {t : Truth} (rest : List Nat)
    (ht : evalPredicate d element p = .ok t) :
    (if t = .yes then element :: rest.filter fun m => p.Sat d m true
      else rest.filter fun m => p.Sat d m true) =
      (element :: rest).filter fun m => p.Sat d m true := by
  have hyes : t = .yes ↔ p.Sat d element true := by
    rw [← (sat_of_evalPredicate ht).2]
    cases t with
    | yes => simp [Truth.Is]
    | no => simp [Truth.Is]
    | unknown => simp [Truth.Is]
  by_cases hsat : p.Sat d element true
  · rw [if_pos (hyes.2 hsat), List.filter_cons_of_pos (by simpa using hsat)]
  · rw [if_neg (fun h => hsat (hyes.1 h)), List.filter_cons_of_neg (by simpa using hsat)]

/-- **Filters** keep the members of which their predicate is true. -/
theorem filterSet_eq_ok {p : Predicate} {base r : List Nat} :
    filterSet d p base = .ok r ↔ (∀ m ∈ base, p.Typed d m) ∧
      open Classical in r = base.filter fun m => p.Sat d m true := by
  induction base generalizing r with
  | nil => simp [filterSet, eq_comm]
  | cons element rest ih =>
    rw [filterSet, bind_eq_ok, List.forall_mem_cons]
    constructor
    · rintro ⟨t, ht, h⟩
      obtain ⟨kept, hkept, h⟩ := bind_eq_ok.1 h
      obtain rfl := Except.ok.inj h
      obtain ⟨hall, rfl⟩ := ih.1 hkept
      exact ⟨⟨(sat_of_evalPredicate ht).1, hall⟩, kept_eq rest ht⟩
    · rintro ⟨⟨htyped, hall⟩, rfl⟩
      obtain ⟨t, ht⟩ := exists_evalPredicate htyped
      exact ⟨t, ht, bind_eq_ok.2 ⟨_, ih.2 ⟨hall, rfl⟩, congrArg _ (kept_eq rest ht)⟩⟩

/-! ## Sorting -/

namespace SortKey

variable {a b c : SortKey}

theorem le_total (a b : SortKey) : a.le b = true ∨ b.le a = true := by
  cases a with
  | missing => exact Or.inl rfl
  | num x => cases b with
    | missing => exact Or.inr rfl
    | num y =>
      simp only [le, decide_eq_true_eq]
      omega
    | text t => exact Or.inl rfl
  | text s => cases b with
    | missing => exact Or.inr rfl
    | num y => exact Or.inr rfl
    | text t =>
      simp only [le, decide_eq_true_eq]
      exact LinearOrder.le_total s t

theorem le_trans (hab : a.le b = true) (hbc : b.le c = true) : a.le c = true := by
  cases a with
  | missing => rfl
  | num x => cases b with
    | missing => cases hab
    | num y => cases c with
      | missing => cases hbc
      | num z =>
        simp only [le, decide_eq_true_eq] at hab hbc ⊢
        omega
      | text t => rfl
    | text s => cases c with
      | missing => cases hbc
      | num z => cases hbc
      | text t => rfl
  | text s => cases b with
    | missing => cases hab
    | num y => cases hab
    | text t => cases c with
      | missing => cases hbc
      | num z => cases hbc
      | text u =>
        simp only [le, decide_eq_true_eq] at hab hbc ⊢
        exact hab.trans hbc

theorem le_antisymm (hab : a.le b = true) (hba : b.le a = true) : a = b := by
  cases a with
  | missing => cases b with
    | missing => rfl
    | num y => cases hba
    | text t => cases hba
  | num x => cases b with
    | missing => cases hab
    | num y =>
      simp only [le, decide_eq_true_eq] at hab hba
      exact congrArg _ (Fixed.ext (by omega))
    | text t => cases hba
  | text s => cases b with
    | missing => cases hab
    | num y => cases hab
    | text t =>
      simp only [le, decide_eq_true_eq] at hab hba
      exact congrArg _ (hab.antisymm hba)

end SortKey

namespace Keyed

variable {ascending : Bool} {a b c : Keyed}

/-- Items of different keys are in the order of these. -/
theorem notAfter_of_ne (h : a.key ≠ b.key) : NotAfter ascending a b ↔
    if ascending then a.key.le b.key = true else b.key.le a.key = true := by
  rw [NotAfter, if_neg h]

instance : Std.Total (NotAfter ascending) where
  total a b := by
    by_cases h : a.key = b.key
    · unfold NotAfter
      rw [if_pos h, if_pos h.symm]
      omega
    · rw [notAfter_of_ne h, notAfter_of_ne (Ne.symm h)]
      cases ascending with
      | true => exact SortKey.le_total _ _
      | false => exact SortKey.le_total _ _

/-- The keys of items in order are in order. -/
theorem NotAfter.key (h : NotAfter ascending a b) :
    if ascending then a.key.le b.key = true else b.key.le a.key = true := by
  by_cases heq : a.key = b.key
  · rw [heq]
    have hrefl := SortKey.le_total b.key b.key
    rw [or_self] at hrefl
    cases ascending with
    | true => exact hrefl
    | false => exact hrefl
  · exact (notAfter_of_ne heq).1 h

instance : IsTrans Keyed (NotAfter ascending) where
  trans a b c hab hbc := by
    have hkeys : if ascending then a.key.le c.key = true else c.key.le a.key = true := by
      have hab := hab.key
      have hbc := hbc.key
      cases ascending with
      | true => exact SortKey.le_trans hab hbc
      | false => exact SortKey.le_trans hbc hab
    by_cases hac : a.key = c.key
    · -- equal ends leave no room for another key between
      have hb : a.key = b.key := by
        have hab := hab.key
        have hbc := hbc.key
        rw [← hac] at hbc
        cases ascending with
        | true => exact SortKey.le_antisymm hab hbc
        | false => exact SortKey.le_antisymm hbc hab
      unfold NotAfter at hab hbc ⊢
      rw [if_pos hb] at hab
      rw [if_pos (hb.symm.trans hac)] at hbc
      rw [if_pos hac]
      omega
    · exact (notAfter_of_ne hac).2 hkeys

end Keyed

/-- What a value is sorted as. -/
def keyOf : Option AttributeValue → SortKey
  | some (.text s) => .text s
  | some (.numeric v) => .num v
  | none => .missing

theorem sortKey_eq (element : Nat) (attr : String) :
    sortKey d element attr = keyOf (d.attributeOf element attr) := by
  unfold sortKey
  rcases d.attributeOf element attr with _ | _ | _
  · rfl
  · rfl
  · rfl

theorem keyOf_inj {v w : Option AttributeValue} : keyOf v = keyOf w ↔ v = w := by
  rcases v with _ | s | x
  · rcases w with _ | t | y <;> simp [keyOf]
  · rcases w with _ | t | y <;> simp [keyOf]
  · rcases w with _ | t | y <;> simp [keyOf]

/-- The order of the keys is that of the values. -/
theorem before_iff {v w : Option AttributeValue} :
    Before v w ↔ keyOf v ≠ keyOf w ∧ (keyOf v).le (keyOf w) = true := by
  constructor
  · intro h
    cases h with
    | missing v => cases v <;> exact ⟨by simp [keyOf], rfl⟩
    | @numeric x y h =>
      refine ⟨fun heq => ?_, by simpa [keyOf, SortKey.le] using h.le⟩
      rw [SortKey.num.inj heq] at h
      omega
    | @text s t h =>
      refine ⟨fun heq => ?_, by simpa [keyOf, SortKey.le] using h.le⟩
      rw [SortKey.text.inj heq] at h
      exact lt_irrefl t h
    | apart x s => exact ⟨by simp [keyOf], rfl⟩
  · rintro ⟨hne, hle⟩
    rcases v with _ | s | x
    · rcases w with _ | w
      · exact absurd rfl hne
      · exact .missing w
    · rcases w with _ | t | y
      · cases hle
      · have hle : s ≤ t := by simpa [keyOf, SortKey.le] using hle
        exact .text (lt_of_le_of_ne hle fun heq => hne (by rw [heq]))
      · cases hle
    · rcases w with _ | t | y
      · cases hle
      · exact .apart x t
      · have hle : x.toScaled ≤ y.toScaled := by simpa [keyOf, SortKey.le] using hle
        exact .numeric (lt_of_le_of_ne hle fun heq => hne (by rw [Fixed.ext heq]))

/-- One member precedes another as their items are compared. -/
theorem precedes_iff {base : List Nat} {attr : String} {dir : OrderDir} {a b : Nat} :
    Precedes d base attr dir a b ↔
      if sortKey d a attr = sortKey d b attr then base.idxOf a < base.idxOf b
      else if dir.ascending then (sortKey d a attr).le (sortKey d b attr) = true
      else (sortKey d b attr).le (sortKey d a attr) = true := by
  unfold Precedes
  rw [sortKey_eq, sortKey_eq]
  generalize d.attributeOf a attr = v
  generalize d.attributeOf b attr = w
  by_cases heq : v = w
  · have hirrefl : ¬ Before w w := fun h => (before_iff.1 h).1 rfl
    subst heq
    rw [if_pos rfl]
    cases dir <;> simp [OrderDir.Before, hirrefl]
  · have hne : keyOf v ≠ keyOf w := fun h => heq (keyOf_inj.1 h)
    rw [if_neg hne]
    cases dir with
    | asc => simp [OrderDir.Before, OrderDir.ascending, before_iff, heq, hne]
    | bAsc => simp [OrderDir.Before, OrderDir.ascending, before_iff, heq, hne]
    | desc => simp [OrderDir.Before, OrderDir.ascending, before_iff, heq, hne.symm]
    | bDesc => simp [OrderDir.Before, OrderDir.ascending, before_iff, heq, hne.symm]

/-- The items that a set is sorted as. -/
def keyedItems (d : Dimension) (base : List Nat) (attr : String) : List Keyed :=
  base.zipIdx.map fun x => ⟨sortKey d x.1 attr, x.2, x.1⟩

theorem map_keyedItems (base : List Nat) (attr : String) :
    (keyedItems d base attr).map Keyed.element = base := by
  unfold keyedItems
  rw [List.map_map, Function.comp_def]
  exact List.zipIdx_map_fst 0 base

theorem keyed_of_mem {base : List Nat} {attr : String} (hbase : base.Nodup) {x : Keyed}
    (hx : x ∈ keyedItems d base attr) :
    x.key = sortKey d x.element attr ∧ x.position = base.idxOf x.element := by
  obtain ⟨⟨m, i⟩, hmem, rfl⟩ := List.mem_map.1 hx
  obtain ⟨hi, hm⟩ := List.getElem?_eq_some_iff.1 (List.mem_zipIdx_iff_getElem?.1 hmem)
  refine ⟨rfl, ?_⟩
  have hidx := hbase.idxOf_getElem i hi
  rw [show base[i] = m from hm] at hidx
  exact hidx.symm

theorem precedes_asymm {base : List Nat} {attr : String} {dir : OrderDir} {a b : Nat}
    (hab : Precedes d base attr dir a b) (hba : Precedes d base attr dir b a) : False := by
  rw [precedes_iff] at hab hba
  by_cases h : sortKey d a attr = sortKey d b attr
  · rw [if_pos h] at hab
    rw [if_pos h.symm] at hba
    omega
  · rw [if_neg h] at hab
    rw [if_neg (Ne.symm h)] at hba
    cases hdir : dir.ascending with
    | true =>
      simp only [hdir, if_true] at hab hba
      exact h (SortKey.le_antisymm hab hba)
    | false =>
      simp only [hdir, Bool.false_eq_true, if_false] at hab hba
      exact h (SortKey.le_antisymm hba hab)

/-- Different items in order are members in order. -/
theorem precedes_of_notAfter {base : List Nat} {attr : String} {dir : OrderDir}
    (hbase : base.Nodup) {x y : Keyed} (hx : x ∈ keyedItems d base attr)
    (hy : y ∈ keyedItems d base attr) (hne : x.element ≠ y.element)
    (h : Keyed.NotAfter dir.ascending x y) : Precedes d base attr dir x.element y.element := by
  obtain ⟨hkx, hpx⟩ := keyed_of_mem hbase hx
  obtain ⟨hky, hpy⟩ := keyed_of_mem hbase hy
  unfold Keyed.NotAfter at h
  rw [hkx, hky, hpx, hpy] at h
  rw [precedes_iff]
  by_cases hkey : sortKey d x.element attr = sortKey d y.element attr
  · rw [if_pos hkey] at h ⊢
    refine lt_of_le_of_ne h fun heq => hne ?_
    have hmem : ∀ z ∈ keyedItems d base attr, z.element ∈ base := by
      intro z hz
      rw [← map_keyedItems (d := d) base attr]
      exact List.mem_map_of_mem hz
    exact (List.idxOf_inj (hmem x hx)).1 heq
  · rw [if_neg hkey] at h ⊢
    exact h

/-- **Sorting** gives the one arrangement in which each member precedes the
later ones. -/
theorem orderSet_eq_ok {base r : List Nat} {attr : String} {dir : OrderDir} (hbase : base.Nodup) :
    orderSet d base attr dir = .ok r ↔ d.attributeIndex attr ≠ none ∧
      r.Perm base ∧ r.Pairwise (Precedes d base attr dir) := by
  have hsorted : ∀ sorted,
      sorted = (keyedItems d base attr).insertionSort (Keyed.NotAfter dir.ascending) →
      (sorted.map Keyed.element).Perm base ∧
        (sorted.map Keyed.element).Pairwise (Precedes d base attr dir) := by
    rintro sorted rfl
    have hperm := List.perm_insertionSort (Keyed.NotAfter dir.ascending) (keyedItems d base attr)
    have hmap : (((keyedItems d base attr).insertionSort
        (Keyed.NotAfter dir.ascending)).map Keyed.element).Perm base := by
      have hmap := hperm.map Keyed.element
      rwa [map_keyedItems] at hmap
    refine ⟨hmap, List.pairwise_map.2 ?_⟩
    have hne := List.pairwise_map.1 (hmap.nodup_iff.2 hbase)
    have hpairs := (List.pairwise_insertionSort (Keyed.NotAfter dir.ascending)
      (keyedItems d base attr)).and hne
    refine hpairs.imp_of_mem fun hx hy h => ?_
    exact precedes_of_notAfter hbase (hperm.mem_iff.1 hx) (hperm.mem_iff.1 hy) h.2 h.1
  obtain ⟨hperm, hpairs⟩ := hsorted _ rfl
  unfold orderSet
  rcases d.attributeIndex attr with _ | i
  · simp
  · simp only [ne_eq, reduceCtorEq, not_false_eq_true, true_and]
    constructor
    · intro h
      obtain rfl := Except.ok.inj h
      exact ⟨hperm, hpairs⟩
    · rintro ⟨hr, hrpairs⟩
      refine congrArg _ (List.Perm.eq_of_pairwise (fun a b _ _ hab hba => ?_) hpairs hrpairs
        (hperm.trans hr.symm))
      exact (precedes_asymm hab hba).elim

/-! ## Sets -/

theorem nodup_eraseDups (l : List Nat) : l.eraseDups.Nodup := by
  rw [← dedup_eq, dedup, ← List.map_id (firstsBy id [] l)]
  exact (nodup_firstsBy l).1

theorem eraseDups_of_nodup {l : List Nat} (h : l.Nodup) : l.eraseDups = l := by
  rw [← dedup_eq, dedup]
  exact firstsBy_of_nodup (by rwa [List.map_id]) (by simp)

/-- What is unfolded is in the dimension. -/
theorem lt_of_unfolds (hd : d.WF) {root : Nat} (hroot : root < d.len) {out : List (Nat × Nat)}
    (h : Unfolds d root out) : ∀ x ∈ out, x.1 < d.len := by
  intro x hx
  obtain ⟨y, hy, hreach⟩ := h.reached x hx
  rw [List.mem_singleton] at hy
  subst hy
  rcases hreach.cases_tail with heq | ⟨u, -, hedge⟩
  · rw [heq]
    exact hroot
  · obtain ⟨e, he, heq⟩ := linked_hierarchy.1 hedge
    rw [← heq]
    exact hd.edges_lt u e he

mutual

/-- **What is meant** are members of the dimension, each once. -/
theorem Means.valid (hd : d.WF) : ∀ {e : SetExpr} {r : List Nat}, Means d e r →
    r.Nodup ∧ ∀ i ∈ r, i < d.len
  | .set items, r, h => by
    unfold Means at h
    obtain ⟨lists, hlists, rfl⟩ := h
    refine ⟨nodup_eraseDups _, fun i hi => ?_⟩
    obtain ⟨l, hl, hil⟩ := List.mem_flatten.1 (List.mem_eraseDups.1 hi)
    exact MeanAll.valid hd hlists l hl i hil
  | .member ref, r, h => by
    unfold Means at h
    obtain ⟨i, ⟨-, hi⟩, rfl⟩ := h
    refine ⟨List.nodup_singleton i, fun j hj => ?_⟩
    rw [List.mem_singleton.1 hj]
    exact lt_of_resolve hd hi
  | .members ref, r, h => by
    unfold Means at h
    obtain ⟨-, -, rfl⟩ := h
    exact ⟨List.nodup_range, fun i hi => List.mem_range.1 hi⟩
  | .children ref, r, h => by
    unfold Means at h
    obtain ⟨i, -, rfl⟩ := h
    refine ⟨nodup_eraseDups _, fun j hj => ?_⟩
    obtain ⟨e, he, rfl⟩ := List.mem_map.1 (List.mem_eraseDups.1 hj)
    exact hd.edges_lt i e he
  | .descendants ref, r, h => by
    unfold Means at h
    obtain ⟨i, out, ⟨-, hi⟩, hout, rfl, -⟩ := h
    refine ⟨nodup_eraseDups _, fun j hj => ?_⟩
    obtain ⟨x, hx, rfl⟩ := List.mem_map.1 (List.mem_eraseDups.1 hj)
    exact lt_of_unfolds hd (lt_of_resolve hd hi) hout x hx
  | .filter set p, r, h => by
    unfold Means at h
    obtain ⟨base, hbase, -, rfl⟩ := h
    obtain ⟨hnodup, hlt⟩ := Means.valid hd hbase
    exact ⟨hnodup.filter _, fun i hi => hlt i (List.mem_of_mem_filter hi)⟩
  | .order set attr dir, r, h => by
    unfold Means at h
    obtain ⟨base, hbase, -, hperm, -⟩ := h
    obtain ⟨hnodup, hlt⟩ := Means.valid hd hbase
    exact ⟨hperm.nodup_iff.2 hnodup, fun i hi => hlt i (hperm.mem_iff.1 hi)⟩
  | .crossjoin _ _, r, h => by
    unfold Means at h
    exact h.elim

theorem MeanAll.valid (hd : d.WF) : ∀ {items : List SetExpr} {lists : List (List Nat)},
    MeanAll d items lists → ∀ l ∈ lists, ∀ i ∈ l, i < d.len
  | [], lists, h => by
    unfold MeanAll at h
    rw [h]
    simp
  | item :: rest, lists, h => by
    unfold MeanAll at h
    obtain ⟨first, others, hfirst, hothers, rfl⟩ := h
    rw [List.forall_mem_cons]
    exact ⟨(Means.valid hd hfirst).2, MeanAll.valid hd hothers⟩

end

mutual

/-- **Evaluation.** A set expression is evaluated to what it means, and to
nothing else. -/
theorem evalSet_eq_ok (hd : d.WF) : ∀ (e : SetExpr) (r : List Nat),
    evalSet d e = .ok r ↔ Means d e r
  | .set items, r => by
    unfold evalSet Means
    rw [bind_eq_ok]
    refine exists_congr fun lists => and_congr (evalSets_eq_ok hd items lists) ?_
    rw [Except.ok.injEq, dedup_eq]
    exact eq_comm
  | .member ref, r => by
    unfold evalSet Means
    rw [bind_eq_ok]
    refine exists_congr fun i => and_congr resolveMember_eq_ok ?_
    rw [Except.ok.injEq]
    exact eq_comm
  | .members ref, r => by
    unfold evalSet Means
    rw [bind_eq_ok]
    constructor
    · rintro ⟨⟨⟩, href, h⟩
      obtain ⟨hin, hname⟩ := dimensionRef_eq_ok.1 href
      exact ⟨hin, hname, (Except.ok.inj h).symm⟩
    · rintro ⟨hin, hname, rfl⟩
      exact ⟨(), dimensionRef_eq_ok.2 ⟨hin, hname⟩, rfl⟩
  | .children ref, r => by
    unfold evalSet Means
    rw [bind_eq_ok]
    refine exists_congr fun i => ?_
    rw [resolveMember_eq_ok]
    refine and_congr_right fun hnames => ?_
    have hi := lt_of_resolve hd hnames.2
    unfold childrenOf
    rw [childrenOf_eq hi]
    change Except.ok (dedup ((d.edgesOf i).map Edge.child)) = .ok r ↔ _
    rw [Except.ok.injEq, dedup_eq]
    exact eq_comm
  | .descendants ref, r => by
    unfold evalSet Means
    rw [bind_eq_ok]
    constructor
    · rintro ⟨i, hnames, h⟩
      rw [resolveMember_eq_ok] at hnames
      obtain ⟨out, hout⟩ := (descendantsOf_eq_ok hd (lt_of_resolve hd hnames.2)).1 h
      exact ⟨i, out, hnames, hout⟩
    · rintro ⟨i, out, hnames, hout⟩
      exact ⟨i, resolveMember_eq_ok.2 hnames,
        (descendantsOf_eq_ok hd (lt_of_resolve hd hnames.2)).2 ⟨out, hout⟩⟩
  | .filter set p, r => by
    unfold evalSet Means
    rw [bind_eq_ok]
    exact exists_congr fun base => and_congr (evalSet_eq_ok hd set base) filterSet_eq_ok
  | .order set attr dir, r => by
    unfold evalSet Means
    rw [bind_eq_ok]
    refine exists_congr fun base => ?_
    rw [evalSet_eq_ok hd set base]
    -- a set never lists an element twice, so a place in it is well defined
    exact and_congr_right fun hbase => orderSet_eq_ok (Means.valid hd hbase).1
  | .crossjoin _ _, r => by
    unfold evalSet Means
    exact iff_of_false (by rintro ⟨⟩) id

theorem evalSets_eq_ok (hd : d.WF) : ∀ (items : List SetExpr) (lists : List (List Nat)),
    evalSets d items = .ok lists ↔ MeanAll d items lists
  | [], lists => by
    unfold evalSets MeanAll
    rw [Except.ok.injEq]
    exact eq_comm
  | item :: rest, lists => by
    unfold evalSets MeanAll
    simp only [bind_eq_ok, Except.ok.injEq, evalSet_eq_ok hd item, evalSets_eq_ok hd rest]
    constructor
    · rintro ⟨first, hfirst, others, hothers, rfl⟩
      exact ⟨first, others, hfirst, hothers, rfl⟩
    · rintro ⟨first, others, hfirst, hothers, rfl⟩
      exact ⟨first, hfirst, others, hothers, rfl⟩

end

/-- **A set expression is evaluated to its meaning**: a list of members of the
dimension, each once. Where it has none, the evaluation fails. -/
theorem evaluate_iff (hd : d.WF) (e : SetExpr) (r : List Nat) :
    evaluate d e = .ok r ↔ Means d e r ∧ r.Nodup ∧ ∀ i ∈ r, i < d.len := by
  unfold evaluate
  rw [map_eq_ok]
  constructor
  · rintro ⟨set, hset, rfl⟩
    have hmeans := (evalSet_eq_ok hd e set).1 hset
    obtain ⟨hnodup, hlt⟩ := Means.valid hd hmeans
    rw [dedup_eq, eraseDups_of_nodup hnodup]
    exact ⟨hmeans, hnodup, hlt⟩
  · rintro ⟨hmeans, hnodup, -⟩
    refine ⟨r, (evalSet_eq_ok hd e r).2 hmeans, ?_⟩
    rw [dedup_eq, eraseDups_of_nodup hnodup]

/-! ## A shared member -/

/-- Regions in a total and, some, on the coast, with the code of two. -/
def regionsCube : Except ModelError Cube :=
  Cube.build "Sales" [⟨"Region", [("North", .leaf), ("South", .leaf), ("East", .leaf),
    ("Total", .consolidated), ("Coast", .consolidated), ("All", .consolidated)],
    [("Total", "North", 1), ("Total", "South", 1), ("Total", "East", 1), ("Coast", "East", 1),
      ("Coast", "North", 1), ("All", "Coast", 1), ("All", "Total", 1)],
    [("Code", .text)], [("North", "Code", .text "N"), ("South", "Code", .text "S")]⟩]

theorem isOk_regionsCube : regionsCube.isOk = true := by decide +kernel

def regions : Dimension := (getOk regionsCube isOk_regionsCube).dimension 0

theorem wf_regions : regions.WF := by
  have hdim : (getOk regionsCube isOk_regionsCube).dimensions[0]? = some regions := by
    decide +kernel
  exact (Cube.WF.build (eq_ok_getOk isOk_regionsCube)).dimension hdim

/-- The south, the regions of which it is known that their code is not S, and
all that is below the top, by code: what has none comes first. -/
def coded : SetExpr :=
  .order (.set [.member ⟨["South"]⟩,
    .filter (.members ⟨["Region"]⟩) (.not (.compare (.property "Code") .eq (.str "S"))),
    .descendants ⟨["Region", "All"]⟩]) "Code" .asc

theorem means_coded : evaluate regions coded = .ok [5, 4, 2, 3, 0, 1] ∧
    Means regions coded [5, 4, 2, 3, 0, 1] := by
  have hany : (evaluate regions coded).toOption.any (· = [5, 4, 2, 3, 0, 1]) = true := by
    decide +kernel
  obtain ⟨r, hr, hlist⟩ := exists_ok_of_any hany
  obtain rfl := of_decide_eq_true hlist
  exact ⟨hr, ((evaluate_iff wf_regions coded _).1 hr).1⟩

end Mdx

end Epiphany
