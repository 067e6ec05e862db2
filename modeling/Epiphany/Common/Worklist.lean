import Mathlib
/-!
# Worklist traversal — first visits, under either discipline

A traversal keeps a list of pending nodes, each with a payload carried
along the path that put it there, and the nodes seen so far. It takes the
front of the list, skips a node already seen, and otherwise records the
node with its payload and adds the node's edges to the pending list: at the
end for a breadth-first traversal, at the front for a depth-first one.

Three facts serve every traversal: fuel counted from the edges suffices and
more changes nothing (`visits_fuel`), what is visited is closed under edges
(`visits_closed`), and the traversal of a relabelled graph is the
relabelling of the traversal (`visits_relabel`).
-/

namespace Epiphany

namespace Worklist

variable {ν ν' π ω : Type*} [DecidableEq ν] [DecidableEq ν']

/-- Where the edges of a visited node go. -/
inductive Discipline where
  | queue
  | stack

/-- Add the edges of a node to what is pending. -/
def Discipline.join {α : Type*} : Discipline → List α → List α → List α
  | .queue, new, rest => rest ++ new
  | .stack, new, rest => new.reverse ++ rest

namespace Discipline

variable {α β : Type*}

@[simp] theorem mem_join {D : Discipline} {new rest : List α} {x : α} :
    x ∈ D.join new rest ↔ x ∈ new ∨ x ∈ rest := by
  cases D <;> simp [join, or_comm]

@[simp] theorem length_join (D : Discipline) (new rest : List α) :
    (D.join new rest).length = new.length + rest.length := by
  cases D <;> simp [join, Nat.add_comm]

theorem map_join (D : Discipline) (f : α → β) (new rest : List α) :
    (D.join new rest).map f = D.join (new.map f) (rest.map f) := by
  cases D <;> simp [join]

end Discipline

variable (D : Discipline) (edges : ν → List (ν × ω)) (step : π → ω → π)

/-- The edges of `v` as pending items, the payload `p` carried along each. -/
def along (v : ν) (p : π) : List (ν × π) :=
  (edges v).map fun e => (e.1, step p e.2)

/-- The first visits of a traversal, in order. -/
def visits : Nat → List (ν × π) → List ν → List (ν × π)
  | 0, _, _ => []
  | _ + 1, [], _ => []
  | n + 1, (v, p) :: rest, seen =>
    if v ∈ seen then visits n rest seen
    else (v, p) :: visits n (D.join (along edges step v p) rest) (v :: seen)

variable {D edges step}

@[simp] theorem visits_nil (n : Nat) (seen : List ν) :
    visits D edges step n ([] : List (ν × π)) seen = [] := by
  cases n <;> rfl

theorem visits_cons_of_mem {n : Nat} {v : ν} {p : π} {rest : List (ν × π)} {seen : List ν}
    (h : v ∈ seen) :
    visits D edges step (n + 1) ((v, p) :: rest) seen = visits D edges step n rest seen := by
  rw [visits, if_pos h]

theorem visits_cons_of_not_mem {n : Nat} {v : ν} {p : π} {rest : List (ν × π)} {seen : List ν}
    (h : v ∉ seen) :
    visits D edges step (n + 1) ((v, p) :: rest) seen =
      (v, p) :: visits D edges step n (D.join (along edges step v p) rest) (v :: seen) := by
  rw [visits, if_neg h]

/-- A node is visited once, and never one already seen. -/
theorem visits_nodup (n : Nat) (pending : List (ν × π)) (seen : List ν) :
    ((visits D edges step n pending seen).map Prod.fst).Nodup ∧
      ∀ v ∈ (visits D edges step n pending seen).map Prod.fst, v ∉ seen := by
  induction n generalizing pending seen with
  | zero => simp [visits]
  | succ n ih =>
    rcases pending with _ | ⟨⟨v, p⟩, rest⟩
    · simp
    · by_cases hv : v ∈ seen
      · rw [visits_cons_of_mem hv]
        exact ih rest seen
      · obtain ⟨hnd, hns⟩ := ih (D.join (along edges step v p) rest) (v :: seen)
        rw [visits_cons_of_not_mem hv, List.map_cons]
        refine ⟨List.nodup_cons.2 ⟨fun h => hns v h List.mem_cons_self, hnd⟩, ?_⟩
        intro u hu
        rcases List.mem_cons.1 hu with rfl | hu
        · exact hv
        · exact fun h => hns u hu (List.mem_cons_of_mem _ h)

/-! ## Fuel -/

/-- The steps a traversal can still take: what is pending, and the edges of
the nodes not yet seen. -/
def work (edges : ν → List (ν × ω)) (nodes : Finset ν) (pending : List (ν × π))
    (seen : List ν) : Nat :=
  pending.length + ∑ v ∈ nodes with v ∉ seen, (edges v).length

variable {nodes : Finset ν}

theorem work_cons_of_mem {v : ν} {p : π} {rest : List (ν × π)} {seen : List ν} :
    work edges nodes ((v, p) :: rest) seen = work edges nodes rest seen + 1 := by
  simp only [work, List.length_cons]
  omega

/-- Visiting a node moves its edges from the unseen to the pending. -/
theorem work_cons_of_not_mem (D : Discipline) (step : π → ω → π)
    (hnodes : ∀ v ∉ nodes, edges v = []) {v : ν} {p : π} {rest : List (ν × π)} {seen : List ν}
    (hv : v ∉ seen) :
    work edges nodes ((v, p) :: rest) seen =
      work edges nodes (D.join (along edges step v p) rest) (v :: seen) + 1 := by
  have hsum : ∑ u ∈ nodes with u ∉ seen, (edges u).length =
      (edges v).length + ∑ u ∈ nodes with u ∉ v :: seen, (edges u).length := by
    by_cases hvn : v ∈ nodes
    · rw [← Finset.add_sum_erase _ _ (Finset.mem_filter.2 ⟨hvn, hv⟩)]
      congr 1
      refine Finset.sum_congr (Finset.ext fun u => ?_) fun _ _ => rfl
      simp only [Finset.mem_erase, Finset.mem_filter, List.mem_cons, not_or]
      tauto
    · rw [hnodes v hvn, List.length_nil, Nat.zero_add]
      refine Finset.sum_congr (Finset.filter_congr fun u hu => ?_) fun _ _ => rfl
      have hne : u ≠ v := fun h => hvn (h ▸ hu)
      simp [hne]
  simp only [work, Discipline.length_join, along, List.length_map, List.length_cons, hsum]
  omega

/-- **Fuel.** With fuel for all its work, a traversal no longer depends on
how much fuel it has. -/
theorem visits_fuel (hnodes : ∀ v ∉ nodes, edges v = []) {n m : Nat}
    {pending : List (ν × π)} {seen : List ν} (hn : work edges nodes pending seen ≤ n)
    (hm : work edges nodes pending seen ≤ m) :
    visits D edges step n pending seen = visits D edges step m pending seen := by
  induction n generalizing m pending seen with
  | zero =>
    have : pending = [] := by
      rw [← List.length_eq_zero_iff]
      simp only [work] at hn
      omega
    subst this
    simp
  | succ n ih =>
    rcases pending with _ | ⟨⟨v, p⟩, rest⟩
    · simp
    · rcases m with _ | m
      · simp [work] at hm
      · by_cases hv : v ∈ seen
        · rw [visits_cons_of_mem hv, visits_cons_of_mem hv]
          rw [work_cons_of_mem] at hn hm
          exact ih (by omega) (by omega)
        · rw [visits_cons_of_not_mem hv, visits_cons_of_not_mem hv]
          rw [work_cons_of_not_mem D step hnodes hv] at hn hm
          exact congrArg _ (ih (by omega) (by omega))

variable (D edges step) in
/-- What is pending after some turns. -/
def pendingAfter : Nat → List (ν × π) → List ν → List (ν × π)
  | 0, pending, _ => pending
  | _ + 1, [], _ => []
  | n + 1, (v, p) :: rest, seen =>
    if v ∈ seen then pendingAfter n rest seen
    else pendingAfter n (D.join (along edges step v p) rest) (v :: seen)

/-- **Termination.** With a turn for all its work, nothing is left pending. -/
theorem pendingAfter_eq_nil (hnodes : ∀ v ∉ nodes, edges v = []) {n : Nat}
    {pending : List (ν × π)} {seen : List ν} (hn : work edges nodes pending seen ≤ n) :
    pendingAfter D edges step n pending seen = [] := by
  induction n generalizing pending seen with
  | zero =>
    rw [pendingAfter, ← List.length_eq_zero_iff]
    simp only [work] at hn
    omega
  | succ n ih =>
    rcases pending with _ | ⟨⟨v, p⟩, rest⟩
    · rfl
    · rw [pendingAfter]
      by_cases hv : v ∈ seen
      · rw [if_pos hv]
        rw [work_cons_of_mem] at hn
        exact ih (by omega)
      · rw [if_neg hv]
        rw [work_cons_of_not_mem D step hnodes hv] at hn
        exact ih (by omega)

/-! ## Closure -/

/-- **Closure.** A traversal that starts from nodes whose edges are accounted
for, and runs to its end, has seen every node it was given and every edge of
every node it has seen. -/
theorem visits_closed (D : Discipline) (step : π → ω → π)
    (hnodes : ∀ v ∉ nodes, edges v = []) {n : Nat}
    {pending : List (ν × π)} {seen : List ν} (hn : work edges nodes pending seen ≤ n)
    (hseen : ∀ u ∈ seen, ∀ e ∈ edges u, e.1 ∈ seen ∨ e.1 ∈ pending.map Prod.fst) :
    (∀ x ∈ pending, x.1 ∈ seen ∨ x.1 ∈ (visits D edges step n pending seen).map Prod.fst) ∧
      ∀ u, u ∈ seen ∨ u ∈ (visits D edges step n pending seen).map Prod.fst →
        ∀ e ∈ edges u,
          e.1 ∈ seen ∨ e.1 ∈ (visits D edges step n pending seen).map Prod.fst := by
  induction n generalizing pending seen with
  | zero =>
    have : pending = [] := by
      rw [← List.length_eq_zero_iff]
      simp only [work] at hn
      omega
    subst this
    simpa using hseen
  | succ n ih =>
    rcases pending with _ | ⟨⟨v, p⟩, rest⟩
    · simpa using hseen
    · by_cases hv : v ∈ seen
      · rw [visits_cons_of_mem hv]
        rw [work_cons_of_mem] at hn
        -- the node comes off the list, and is seen: no edge loses its end
        have hinv : ∀ u ∈ seen, ∀ e ∈ edges u, e.1 ∈ seen ∨ e.1 ∈ rest.map Prod.fst := by
          intro u hu e he
          rcases hseen u hu e he with h | h
          · exact Or.inl h
          · rcases List.mem_cons.1 h with h | h
            · exact Or.inl (h ▸ hv)
            · exact Or.inr h
        obtain ⟨hpend, hcl⟩ := ih (by omega) hinv
        refine ⟨fun x hx => ?_, hcl⟩
        rcases List.mem_cons.1 hx with rfl | hx
        · exact Or.inl hv
        · exact hpend x hx
      · rw [visits_cons_of_not_mem hv, List.map_cons]
        rw [work_cons_of_not_mem D step hnodes hv] at hn
        -- the node is seen now, and its edges lead to what it has put on the list
        have hinv : ∀ u ∈ v :: seen, ∀ e ∈ edges u,
            e.1 ∈ v :: seen ∨ e.1 ∈ (D.join (along edges step v p) rest).map Prod.fst := by
          intro u hu e he
          simp only [List.mem_map, Discipline.mem_join, along, List.mem_cons]
          rcases List.mem_cons.1 hu with rfl | hu
          · exact Or.inr ⟨_, Or.inl ⟨e, he, rfl⟩, rfl⟩
          · rcases hseen u hu e he with h | h
            · exact Or.inl (Or.inr h)
            · rcases List.mem_cons.1 h with h | h
              · exact Or.inl (Or.inl h)
              · obtain ⟨x, hx, hxe⟩ := List.mem_map.1 h
                exact Or.inr ⟨x, Or.inr hx, hxe⟩
        obtain ⟨hpend, hcl⟩ := ih (by omega) hinv
        have hmove : ∀ {u : ν} {l : List ν}, u ∈ v :: seen ∨ u ∈ l ↔ u ∈ seen ∨ u ∈ v :: l := by
          intro u l
          simp only [List.mem_cons]
          tauto
        refine ⟨fun x hx => ?_, fun u hu e he => hmove.1 (hcl u (hmove.2 hu) e he)⟩
        rcases List.mem_cons.1 hx with rfl | hx
        · exact Or.inr List.mem_cons_self
        · exact hmove.1 (hpend x (Discipline.mem_join.2 (Or.inr hx)))

/-- What is visited stays inside any set that holds the pending nodes and is
closed under edges. -/
theorem visits_subset {R : ν → Prop} (hR : ∀ v, R v → ∀ e ∈ edges v, R e.1) {n : Nat}
    {pending : List (ν × π)} {seen : List ν} (hp : ∀ x ∈ pending, R x.1) :
    ∀ x ∈ visits D edges step n pending seen, R x.1 := by
  induction n generalizing pending seen with
  | zero => simp [visits]
  | succ n ih =>
    rcases pending with _ | ⟨⟨v, p⟩, rest⟩
    · simp
    · have hrest : ∀ x ∈ rest, R x.1 := fun x hx => hp x (List.mem_cons_of_mem _ hx)
      have hv0 : R v := hp (v, p) List.mem_cons_self
      by_cases hv : v ∈ seen
      · rw [visits_cons_of_mem hv]
        exact ih hrest
      · rw [visits_cons_of_not_mem hv]
        intro x hx
        rcases List.mem_cons.1 hx with rfl | hx
        · exact hv0
        · refine ih (fun y hy => ?_) x hx
          rcases Discipline.mem_join.1 hy with hy | hy
          · obtain ⟨e, he, rfl⟩ := List.mem_map.1 hy
            exact hR v hv0 e he
          · exact hrest y hy

/-! ## Other payloads -/

/-- The same node, with related payloads. -/
def Paired {π' : Type*} (Q : π → π' → Prop) (x : ν × π) (y : ν × π') : Prop :=
  x.1 = y.1 ∧ Q x.2 y.2

omit [DecidableEq ν] in
theorem Paired.exists_right {π' : Type*} {Q : π → π' → Prop} {xs : List (ν × π)}
    {ys : List (ν × π')} (h : List.Forall₂ (Paired Q) xs ys) {v : ν} {p : π} (hv : (v, p) ∈ xs) :
    ∃ q, (v, q) ∈ ys ∧ Q p q := by
  induction h with
  | nil => cases hv
  | @cons x y _ _ hxy _ ih =>
    rcases List.mem_cons.1 hv with rfl | hv
    · exact ⟨y.2, List.mem_cons.2 (Or.inl (Prod.ext hxy.1 rfl)), hxy.2⟩
    · obtain ⟨q, hq, hpq⟩ := ih hv
      exact ⟨q, List.mem_cons_of_mem _ hq, hpq⟩

omit [DecidableEq ν] in
theorem Paired.exists_left {π' : Type*} {Q : π → π' → Prop} {xs : List (ν × π)}
    {ys : List (ν × π')} (h : List.Forall₂ (Paired Q) xs ys) {v : ν} {q : π'} (hv : (v, q) ∈ ys) :
    ∃ p, (v, p) ∈ xs ∧ Q p q := by
  induction h with
  | nil => cases hv
  | @cons x y _ _ hxy _ ih =>
    rcases List.mem_cons.1 hv with rfl | hv
    · exact ⟨x.2, List.mem_cons.2 (Or.inl (Prod.ext hxy.1.symm rfl)), hxy.2⟩
    · obtain ⟨p, hp, hpq⟩ := ih hv
      exact ⟨p, List.mem_cons_of_mem _ hp, hpq⟩

/-- **Payloads.** Two ways to carry payloads, related along every edge,
visit the same nodes with related payloads. -/
theorem visits_paired {π' : Type*} {step' : π' → ω → π'} {Q : π → π' → Prop}
    (hstep : ∀ p p' w, Q p p' → Q (step p w) (step' p' w)) {n : Nat} {pending : List (ν × π)}
    {pending' : List (ν × π')} {seen : List ν} (h : List.Forall₂ (Paired Q) pending pending') :
    List.Forall₂ (Paired Q) (visits D edges step n pending seen)
      (visits D edges step' n pending' seen) := by
  induction n generalizing pending pending' seen with
  | zero => exact List.Forall₂.nil
  | succ n ih =>
    cases h with
    | nil => simp
    | @cons x y rest rest' hxy hrest =>
      obtain ⟨v, p⟩ := x
      obtain ⟨v', p'⟩ := y
      obtain ⟨rfl, hq⟩ := hxy
      by_cases hv : v ∈ seen
      · rw [visits_cons_of_mem hv, visits_cons_of_mem hv]
        exact ih hrest
      · rw [visits_cons_of_not_mem hv, visits_cons_of_not_mem hv]
        have halong : List.Forall₂ (Paired Q) (along edges step v p) (along edges step' v p') := by
          rw [along, along, List.forall₂_map_left_iff, List.forall₂_map_right_iff,
            List.forall₂_same]
          exact fun e _ => ⟨rfl, hstep p p' e.2 hq⟩
        refine List.Forall₂.cons ⟨rfl, hq⟩ (ih ?_)
        rcases D with _ | _
        · exact List.rel_append hrest halong
        · exact List.rel_append (List.rel_reverse halong) hrest

/-! ## Relabelling -/

/-- **Relabelling.** Let `f` relabel the nodes of a set closed under edges,
injectively there, and carry the edges of each to the edges of its image.
Then the traversals agree up to `f`, visit for visit. -/
theorem visits_relabel {edges' : ν' → List (ν' × ω)} {f : ν → ν'} {R : ν → Prop}
    (hR : ∀ v, R v → ∀ e ∈ edges v, R e.1)
    (hinj : ∀ u v, R u → R v → f u = f v → u = v)
    (hedges : ∀ v, R v → edges' (f v) = (edges v).map fun e => (f e.1, e.2)) {n : Nat}
    {pending : List (ν × π)} {seen : List ν} (hp : ∀ x ∈ pending, R x.1)
    (hs : ∀ v ∈ seen, R v) :
    visits D edges' step n (pending.map fun x => (f x.1, x.2)) (seen.map f) =
      (visits D edges step n pending seen).map fun x => (f x.1, x.2) := by
  induction n generalizing pending seen with
  | zero => rfl
  | succ n ih =>
    rcases pending with _ | ⟨⟨v, p⟩, rest⟩
    · simp
    · have hrest : ∀ x ∈ rest, R x.1 := fun x hx => hp x (List.mem_cons_of_mem _ hx)
      have hv0 : R v := hp (v, p) List.mem_cons_self
      have hmem : f v ∈ seen.map f ↔ v ∈ seen := by
        constructor
        · intro h
          obtain ⟨u, hu, huv⟩ := List.mem_map.1 h
          exact hinj u v (hs u hu) hv0 huv ▸ hu
        · exact fun h => List.mem_map.2 ⟨v, h, rfl⟩
      rw [List.map_cons]
      by_cases hv : v ∈ seen
      · rw [visits_cons_of_mem (hmem.2 hv), visits_cons_of_mem hv]
        exact ih hrest hs
      · have halong : along edges' step (f v) p =
            (along edges step v p).map fun x => (f x.1, x.2) := by
          simp [along, hedges v hv0]
        rw [visits_cons_of_not_mem (fun h => hv (hmem.1 h)), visits_cons_of_not_mem hv,
          List.map_cons, halong, ← Discipline.map_join]
        rw [← List.map_cons]
        refine congrArg _ (ih (fun y hy => ?_) (fun u hu => ?_))
        · rcases Discipline.mem_join.1 hy with hy | hy
          · obtain ⟨e, he, rfl⟩ := List.mem_map.1 hy
            exact hR v hv0 e he
          · exact hrest y hy
        · rcases List.mem_cons.1 hu with rfl | hu
          · exact hv0
          · exact hs u hu

end Worklist

end Epiphany
