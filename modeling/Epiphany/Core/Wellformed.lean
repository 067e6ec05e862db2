import Epiphany.Common.Worklist
import Epiphany.Common.Hierarchy
import Epiphany.Core.Dimension
/-!
# Dimensions — the invariant, and the hierarchy search

A dimension is well formed when its tables have one row per element, its
indexes hold exactly what the tables say, and its edges form a hierarchy:
within range, under consolidations only, and acyclic. The cycle check of
the code is a depth-first search; it is the traversal of `Worklist`, so a
search that fails has exhausted the descendants (`not_reaches`).
-/

namespace Epiphany

namespace Dimension

open Relation Worklist

/-- `c` is a child of `p`. -/
def IsChild (d : Dimension) (p c : Nat) : Prop := ∃ e ∈ d.edgesOf p, e.child = c

/-- The kind of the element at an index. -/
def kindAt (d : Dimension) (i : Nat) : Option ElementKind := d.elements[i]?.map Element.kind

/-- The name of the element at an index. -/
def nameAt (d : Dimension) (i : Nat) : Option String := d.elements[i]?.map Element.name

/-- **The invariant of a dimension.** -/
structure WF (d : Dimension) : Prop where
  /-- One row of edges per element. -/
  children_length : d.children.length = d.elements.length
  /-- One row of attribute values per element. -/
  values_length : d.attrValues.length = d.elements.length
  /-- The name index maps exactly the current names to their positions. -/
  index : ∀ name i, d.indexByName[name]? = some i ↔ d.nameAt i = some name
  /-- Edges stay within the elements. -/
  edges_lt : ∀ p, ∀ e ∈ d.edgesOf p, e.child < d.elements.length
  /-- Only consolidated elements have children. -/
  parents : ∀ p, d.edgesOf p ≠ [] → d.kindAt p = some .consolidated
  /-- No element is its own descendant. -/
  acyclic : Acyclic d.IsChild
  /-- The attribute index maps exactly the attribute names. -/
  attr_index : ∀ name i,
    d.attrIndexByName[name]? = some i ↔ d.attributes[i]?.map AttributeDef.name = some name
  /-- Every value has the type of its attribute. -/
  values : ∀ el i v, (d.valuesOf el)[i]? = some v →
    ∃ kind, d.attributeKind i = some kind ∧ typeOk kind v = true
  /-- The alias index maps exactly the alias values to their elements. -/
  aliases : ∀ text el, d.aliasToElement[text]? = some el ↔
    ∃ i, d.attributeKind i = some .alias ∧ (d.valuesOf el)[i]? = some (.text text)

variable {d : Dimension}

/-! ## Rows -/

@[simp] theorem element_eq_ok {i : Nat} {e : Element} :
    d.element i = .ok e ↔ d.elements[i]? = some e := by
  simp [element]

theorem kindAt_eq_some {i : Nat} {k : ElementKind} :
    d.kindAt i = some k ↔ ∃ e, d.elements[i]? = some e ∧ e.kind = k := by
  simp [kindAt]

theorem nameAt_eq_some {i : Nat} {n : String} :
    d.nameAt i = some n ↔ ∃ e, d.elements[i]? = some e ∧ e.name = n := by
  simp [nameAt]

theorem edgesOf_of_le {i : Nat} (h : d.children.length ≤ i) : d.edgesOf i = [] := by
  simp [edgesOf, List.getD, List.getElem?_eq_none h]

theorem edgesOf_eq {i : Nat} {edges : List Edge} (h : d.children[i]? = some edges) :
    d.edgesOf i = edges := by
  simp [edgesOf, List.getD, h]

theorem valuesOf_eq {i : Nat} {values : FinMap Nat AttributeValue}
    (h : d.attrValues[i]? = some values) : d.valuesOf i = values := by
  simp [valuesOf, List.getD, h]

theorem valuesOf_of_le {i : Nat} (h : d.attrValues.length ≤ i) : d.valuesOf i = ∅ := by
  simp [valuesOf, List.getD, List.getElem?_eq_none h]

/-- A name stands at one position. -/
theorem WF.nameAt_inj (hd : d.WF) {i j : Nat} {n : String} (hi : d.nameAt i = some n)
    (hj : d.nameAt j = some n) : i = j := by
  have h := ((hd.index n i).2 hi).symm.trans ((hd.index n j).2 hj)
  exact Option.some.inj h

theorem lt_of_nameAt {i : Nat} {n : String} (h : d.nameAt i = some n) : i < d.elements.length := by
  obtain ⟨e, he, -⟩ := nameAt_eq_some.1 h
  exact (List.getElem?_eq_some_iff.1 he).1

/-! ## The search -/

/-- The child lists of a dimension, as the edges of a traversal. -/
def childLists (d : Dimension) (i : Nat) : List (Nat × Unit) :=
  (d.edgesOf i).map fun e => (e.child, ())

/-- The search stops early at its target; without a target in sight it
visits what the depth-first traversal visits. -/
theorem not_mem_visits_of_reachesLoop {target : Nat} (n : Nat) (stack seen : List Nat)
    (h : d.reachesLoop target n stack seen = false) :
    target ∉ (visits .stack d.childLists (fun _ _ => ()) n (stack.map fun i => (i, ()))
      seen).map Prod.fst := by
  induction n generalizing stack seen with
  | zero => simp [visits]
  | succ n ih =>
    rcases stack with _ | ⟨node, stack⟩
    · simp
    · rw [reachesLoop] at h
      by_cases hnode : node = target
      · simp [hnode] at h
      · rw [if_neg hnode] at h
        rw [List.map_cons]
        by_cases hseen : node ∈ seen
        · rw [if_pos hseen] at h
          rw [visits_cons_of_mem hseen]
          exact ih stack seen h
        · rw [if_neg hseen] at h
          rw [visits_cons_of_not_mem hseen, List.map_cons, List.mem_cons, not_or]
          refine ⟨Ne.symm hnode, ?_⟩
          have := ih _ _ h
          simpa [Discipline.join, along, childLists, Function.comp_def] using this

theorem sum_length_getD (l : List (List Edge)) :
    ∑ i ∈ Finset.range l.length, (l.getD i []).length = (l.map List.length).sum := by
  induction l with
  | nil => rfl
  | cons edges l ih =>
    rw [List.length_cons, Finset.sum_range_succ', List.map_cons, List.sum_cons, ← ih]
    simp [Nat.add_comm]

/-- The fuel of a search pays for its whole work: one step for the start
and one for each edge. -/
theorem work_start {ω π : Type} (edges : Nat → List (Nat × ω))
    (hlen : ∀ i, (edges i).length ≤ (d.edgesOf i).length) (start : Nat × π) :
    work edges (Finset.range d.children.length) [start] [] ≤ d.edgeCount + 1 := by
  have hsum : ∑ i ∈ Finset.range d.children.length, (edges i).length ≤ d.edgeCount :=
    (Finset.sum_le_sum fun i _ => hlen i).trans (sum_length_getD d.children).le
  simp only [work, List.length_singleton, List.not_mem_nil, not_false_eq_true,
    Finset.filter_true]
  omega

/-- **A failed search has seen every descendant.** -/
theorem not_reaches {start target : Nat} (h : d.reaches start target = false) :
    ¬ ReflTransGen d.IsChild start target := by
  have hnot := not_mem_visits_of_reachesLoop _ _ _ h
  have hrows : ∀ i ∉ Finset.range d.children.length, d.childLists i = [] := by
    intro i hi
    simp [childLists, edgesOf_of_le (Nat.not_lt.1 fun h => hi (Finset.mem_range.2 h))]
  obtain ⟨hstart, hclosed⟩ := visits_closed .stack (fun _ _ => ()) hrows
    (work_start d.childLists (by simp [childLists]) (start, ())) (by simp)
  refine fun hreach => hnot ?_
  clear hnot h
  induction hreach with
  | refl => simpa using hstart
  | tail _ hbc ih =>
    obtain ⟨e, he, rfl⟩ := hbc
    have := hclosed _ (Or.inr ih) (e.child, ()) (List.mem_map.2 ⟨e, he, rfl⟩)
    simpa using this

end Dimension

end Epiphany
