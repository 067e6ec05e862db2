import Epiphany.Common.Hierarchy
import Epiphany.Common.Worklist
/-!
# Preorder — a depth-first traversal and the unfolding of its graph

An acyclic graph unfolds to a forest, in which a node stands once for every
path to it. Its preorder lists a node before what is below it, and again on
every other path. A depth-first traversal that skips what it has seen visits
the first occurrences of that list (`visits_eq_firstsBy`): what is below a
node it skips it has seen as well.
-/

namespace Epiphany

/-! ## First occurrences -/

section FirstsBy

variable {α κ : Type*} [DecidableEq κ]

/-- The items of a list whose key is not seen and has not occurred before. -/
def firstsBy (key : α → κ) : List κ → List α → List α
  | _, [] => []
  | seen, x :: l =>
    if key x ∈ seen then firstsBy key seen l else x :: firstsBy key (key x :: seen) l

variable {key : α → κ} {seen : List κ}

theorem firstsBy_cons_of_mem {x : α} {l : List α} (h : key x ∈ seen) :
    firstsBy key seen (x :: l) = firstsBy key seen l := by
  rw [firstsBy, if_pos h]

theorem firstsBy_cons_of_not_mem {x : α} {l : List α} (h : key x ∉ seen) :
    firstsBy key seen (x :: l) = x :: firstsBy key (key x :: seen) l := by
  rw [firstsBy, if_neg h]

theorem firstsBy_append_of_mem {l l' : List α} (h : ∀ x ∈ l, key x ∈ seen) :
    firstsBy key seen (l ++ l') = firstsBy key seen l' := by
  induction l with
  | nil => rfl
  | cons x l ih =>
    rw [List.cons_append, firstsBy_cons_of_mem (h x List.mem_cons_self)]
    exact ih fun y hy => h y (List.mem_cons_of_mem _ hy)

/-- The keys of the first occurrences are the keys without repetitions. -/
theorem map_firstsBy (l : List α) :
    (firstsBy key seen l).map key = ((l.map key).filter (· ∉ seen)).eraseDups := by
  induction l generalizing seen with
  | nil => simp [firstsBy]
  | cons x l ih =>
    rw [List.map_cons]
    by_cases h : key x ∈ seen
    · rw [firstsBy_cons_of_mem h, ih, List.filter_cons_of_neg (by simpa using h)]
    · rw [firstsBy_cons_of_not_mem h, List.map_cons, ih,
        List.filter_cons_of_pos (by simpa using h), List.eraseDups_cons, List.filter_filter]
      congr 3
      funext k
      simp only [List.mem_cons, not_or, Bool.decide_and, decide_not]
      rfl

/-- First occurrences do not repeat a key, nor have one that is seen. -/
theorem nodup_firstsBy (l : List α) : ((firstsBy key seen l).map key).Nodup ∧
    ∀ x ∈ firstsBy key seen l, key x ∉ seen := by
  induction l generalizing seen with
  | nil => simp [firstsBy]
  | cons x l ih =>
    by_cases h : key x ∈ seen
    · rw [firstsBy_cons_of_mem h]
      exact ih
    · obtain ⟨hnodup, hseen⟩ := @ih (key x :: seen)
      rw [firstsBy_cons_of_not_mem h, List.map_cons, List.nodup_cons, List.forall_mem_cons]
      refine ⟨⟨fun hmem => ?_, hnodup⟩, h, fun y hy hin => hseen y hy (List.mem_cons_of_mem _ hin)⟩
      obtain ⟨y, hy, heq⟩ := List.mem_map.1 hmem
      exact hseen y hy (heq ▸ List.mem_cons_self)

/-- A list without repetitions keeps all. -/
theorem firstsBy_of_nodup {l : List α} (h : (l.map key).Nodup) (hseen : ∀ x ∈ l, key x ∉ seen) :
    firstsBy key seen l = l := by
  induction l generalizing seen with
  | nil => rfl
  | cons x l ih =>
    rw [List.map_cons, List.nodup_cons] at h
    rw [firstsBy_cons_of_not_mem (hseen x List.mem_cons_self)]
    refine congrArg _ (ih h.2 fun y hy hin => ?_)
    rcases List.mem_cons.1 hin with heq | hin
    · exact h.1 (List.mem_map.2 ⟨y, hy, heq⟩)
    · exact hseen y (List.mem_cons_of_mem _ hy) hin

end FirstsBy

namespace Worklist

open Relation

variable {ν π ω : Type*} [DecidableEq ν] {edges : ν → List (ν × ω)} {step : π → ω → π}

/-- There is an edge. -/
def Linked (edges : ν → List (ν × ω)) (u v : ν) : Prop := ∃ e ∈ edges u, e.1 = v

/-- The preorder of the forest that some roots unfold to. A node's edges are
followed from the last to the first, as a stack gives them back. -/
inductive Listing (edges : ν → List (ν × ω)) (step : π → ω → π) :
    List (ν × π) → List (ν × π) → Prop where
  | nil : Listing edges step [] []
  | cons (v : ν) (p : π) {rest sub out : List (ν × π)}
    (hsub : Listing edges step (along edges step v p).reverse sub)
    (hrest : Listing edges step rest out) :
    Listing edges step ((v, p) :: rest) ((v, p) :: (sub ++ out))

namespace Listing

variable {roots roots' out out' : List (ν × π)}

omit [DecidableEq ν] in
theorem append (h : Listing edges step roots out) (h' : Listing edges step roots' out') :
    Listing edges step (roots ++ roots') (out ++ out') := by
  induction h with
  | nil => exact h'
  | cons v p hsub _ _ ih =>
    rw [List.cons_append, List.cons_append, List.append_assoc]
    exact .cons v p hsub ih

omit [DecidableEq ν] in
theorem linked_of_mem_along {v : ν} {p : π} {x : ν × π} (h : x ∈ (along edges step v p).reverse) :
    Linked edges v x.1 := by
  rw [List.mem_reverse] at h
  obtain ⟨e, he, rfl⟩ := List.mem_map.1 h
  exact ⟨e, he, rfl⟩

omit [DecidableEq ν] in
/-- What is listed is reached from a root. -/
theorem reached (h : Listing edges step roots out) :
    ∀ y ∈ out, ∃ x ∈ roots, ReflTransGen (Linked edges) x.1 y.1 := by
  induction h with
  | nil => simp
  | cons v p _ _ ihsub ihrest =>
    intro y hy
    rcases List.mem_cons.1 hy with rfl | hy
    · exact ⟨(v, p), List.mem_cons_self, .refl⟩
    · rcases List.mem_append.1 hy with hy | hy
      · obtain ⟨x, hx, hreach⟩ := ihsub y hy
        exact ⟨(v, p), List.mem_cons_self, .head (linked_of_mem_along hx) hreach⟩
      · obtain ⟨x, hx, hreach⟩ := ihrest y hy
        exact ⟨x, List.mem_cons_of_mem _ hx, hreach⟩

omit [DecidableEq ν] in
/-- And what is reached from a root is listed. -/
theorem complete (h : Listing edges step roots out) {x : ν × π} (hx : x ∈ roots) {w : ν}
    (hw : ReflTransGen (Linked edges) x.1 w) : w ∈ out.map Prod.fst := by
  induction h generalizing x with
  | nil => cases hx
  | cons v p _ _ ihsub ihrest =>
    rw [List.map_cons, List.map_append, List.mem_cons, List.mem_append]
    rcases List.mem_cons.1 hx with rfl | hx
    · rcases hw.cases_head with rfl | ⟨c, ⟨e, he, rfl⟩, hc⟩
      · exact Or.inl rfl
      · have hmem : (e.1, step p e.2) ∈ (along edges step v p).reverse := by
          rw [List.mem_reverse]
          exact List.mem_map.2 ⟨e, he, rfl⟩
        exact Or.inr (Or.inl (ihsub hmem hc))
    · exact Or.inr (Or.inr (ihrest hx hw))

omit [DecidableEq ν] in
/-- Where no path goes on for ever, every node has its listing. -/
theorem exists_of_wellFounded (hwf : WellFounded fun a b => Linked edges b a)
    (step : π → ω → π) (roots : List (ν × π)) : ∃ out, Listing edges step roots out := by
  have hlist : ∀ l : List (ν × π),
      (∀ x ∈ l, ∃ sub, Listing edges step (along edges step x.1 x.2).reverse sub) →
      ∃ out, Listing edges step l out := by
    intro l hl
    induction l with
    | nil => exact ⟨[], .nil⟩
    | cons x l ih =>
      obtain ⟨sub, hsub⟩ := hl x List.mem_cons_self
      obtain ⟨out, hout⟩ := ih fun y hy => hl y (List.mem_cons_of_mem _ hy)
      exact ⟨_, .cons x.1 x.2 hsub hout⟩
  have hnode : ∀ v (p : π), ∃ sub, Listing edges step (along edges step v p).reverse sub := by
    intro v
    induction v using hwf.induction with
    | _ v ih =>
      intro p
      exact hlist _ fun x hx => ih x.1 (linked_of_mem_along hx) x.2
  exact hlist roots fun x _ => hnode x.1 x.2

end Listing

omit [DecidableEq ν] in
/-- An acyclic graph in which finitely many nodes have edges has no endless
path. -/
theorem wellFounded_of_acyclic (hr : Acyclic (Linked edges)) {nodes : Finset ν}
    (hnodes : ∀ v ∉ nodes, edges v = []) : WellFounded fun a b => Linked edges b a := by
  have hout : ∀ v, v ∉ nodes → Acc (fun a b => Linked edges b a) v := by
    intro v hv
    refine ⟨_, fun w hw => ?_⟩
    obtain ⟨e, he, -⟩ := hw
    rw [hnodes v hv] at he
    cases he
  let below : nodes → nodes → Prop := fun a b => TransGen (Linked edges) b.1 a.1
  have : IsTrans nodes below := ⟨fun _ _ _ hab hbc => hbc.trans hab⟩
  have : Std.Irrefl below := ⟨fun a ha => hr a.1 ha⟩
  have hbelow : WellFounded below := Finite.wellFounded_of_trans_of_irrefl below
  refine ⟨fun v => ?_⟩
  by_cases hv : v ∈ nodes
  · have hin : ∀ u : nodes, Acc (fun a b => Linked edges b a) u.1 := by
      intro u
      induction u using hbelow.induction with
      | _ u ih =>
        refine ⟨_, fun w hw => ?_⟩
        by_cases hwn : w ∈ nodes
        · exact ih ⟨w, hwn⟩ (TransGen.single hw)
        · exact hout w hwn
    exact hin ⟨v, hv⟩
  · exact hout v hv

/-- What is below a node that is seen, and still to come, is seen or comes
first. -/
def Done (edges : ν → List (ν × ω)) (seen : List ν) (out : List (ν × π)) : Prop :=
  ∀ a u b, out = a ++ u :: b → u.1 ∈ seen →
    ∀ w, TransGen (Linked edges) u.1 w → w ∈ seen ∨ w ∈ a.map Prod.fst

/-- **A depth-first traversal** visits the first occurrences of the preorder
of what its graph unfolds to. -/
theorem visits_eq_firstsBy (hr : Acyclic (Linked edges)) {n : Nat} {pending out : List (ν × π)}
    {seen : List ν} (h : Listing edges step pending out) (hn : out.length ≤ n)
    (hdone : Done edges seen out) :
    visits .stack edges step n pending seen = firstsBy Prod.fst seen out := by
  -- on the turns; what was seen before has all below it seen, or further left in the listing
  induction n generalizing pending out seen with
  | zero =>
    obtain rfl := List.length_eq_zero_iff.1 (Nat.le_zero.1 hn)
    cases h
    rfl
  | succ n ih =>
    cases h with
    | nil => exact visits_nil _ _
    | @cons v p rest sub out hsub hrest =>
      rw [List.length_cons, List.length_append] at hn
      have hbelow : ∀ x ∈ sub, TransGen (Linked edges) v x.1 := by
        intro x hx
        obtain ⟨y, hy, hreach⟩ := hsub.reached x hx
        exact .head' (Listing.linked_of_mem_along hy) hreach
      by_cases hv : v ∈ seen
      · -- all that is below the node is seen
        have hseen : ∀ x ∈ sub, x.1 ∈ seen := by
          intro x hx
          rcases hdone [] (v, p) (sub ++ out) rfl hv x.1 (hbelow x hx) with h | h
          · exact h
          · cases h
        rw [visits_cons_of_mem hv, firstsBy_cons_of_mem hv, firstsBy_append_of_mem hseen]
        refine ih hrest (by omega) ?_
        intro a u b heq hu w hw
        have hsplit : (v, p) :: (sub ++ out) = ((v, p) :: (sub ++ a)) ++ u :: b := by
          rw [heq, List.cons_append, List.append_assoc]
        rcases hdone _ u b hsplit hu w hw with h | h
        · exact Or.inl h
        · rw [List.map_cons, List.map_append, List.mem_cons, List.mem_append] at h
          rcases h with rfl | h | h
          · exact Or.inl hv
          · obtain ⟨x, hx, rfl⟩ := List.mem_map.1 h
            exact Or.inl (hseen x hx)
          · exact Or.inr h
      · rw [visits_cons_of_not_mem hv, firstsBy_cons_of_not_mem hv]
        refine congrArg _ (ih (hsub.append hrest) (by rw [List.length_append]; omega) ?_)
        intro a u b heq hu w hw
        rcases List.mem_cons.1 hu with hu | hu
        · -- the node itself comes again only after all that is below it
          have hlater : sub <+: a := by
            rcases List.append_eq_append_iff.1 heq with ⟨c, rfl, hc⟩ | ⟨c, rfl, hc⟩
            · exact List.prefix_append sub c
            · rcases c with _ | ⟨x, c⟩
              · simp
              · rw [List.cons_append] at hc
                have hx : u ∈ a ++ x :: c := by
                  rw [(List.cons.inj hc).1]
                  simp
                exact absurd (hu ▸ hbelow u hx) (hr v)
          rw [hu] at hw
          obtain ⟨c, hedge, hreach⟩ := TransGen.head'_iff.1 hw
          obtain ⟨e, he, rfl⟩ := hedge
          have hmem : (e.1, step p e.2) ∈ (along edges step v p).reverse := by
            rw [List.mem_reverse]
            exact List.mem_map.2 ⟨e, he, rfl⟩
          obtain ⟨x, hx, rfl⟩ := List.mem_map.1 (hsub.complete hmem hreach)
          exact Or.inr (List.mem_map.2 ⟨x, hlater.subset hx, rfl⟩)
        · have hsplit : (v, p) :: (sub ++ out) = ((v, p) :: a) ++ u :: b := by
            rw [heq, List.cons_append]
          rcases hdone _ u b hsplit hu w hw with h | h
          · exact Or.inl (List.mem_cons_of_mem _ h)
          · rw [List.map_cons, List.mem_cons] at h
            rcases h with rfl | h
            · exact Or.inl List.mem_cons_self
            · exact Or.inr h

omit [DecidableEq ν] in
/-- Nothing is seen at the start. -/
theorem done_nil (out : List (ν × π)) : Done edges [] out := by
  intro a u b _ hu
  cases hu

end Worklist

end Epiphany
