import Epiphany.Common.Worklist
/-!
# Shortest paths — which path a queue takes

A path is the list of the positions of its edges. Paths are ordered by length,
and those of one length by the first edge in which they differ. A traversal
with a queue visits what a path leads to, and carries the payload of the first
path there (`mem_visits_queue_iff`).
-/

namespace Epiphany

namespace Worklist

variable {ν π ω : Type*} [DecidableEq ν]

/-! ## The order of paths -/

/-- Shorter paths first, those of one length in the order of their edges. -/
def rank (path : List Nat) : ℕ ×ₗ List ℕ := toLex (path.length, path)

theorem rank_lt_iff {a b : List Nat} :
    rank a < rank b ↔ a.length < b.length ∨ a.length = b.length ∧ a < b :=
  Prod.Lex.lt_iff

theorem rank_injective : Function.Injective rank := fun _ _ h =>
  (Prod.ext_iff.1 (toLex.injective h)).2

theorem append_lt_append {a b : List Nat} (hlen : a.length = b.length) (h : a < b)
    (c d : List Nat) : a ++ c < b ++ d := by
  induction a generalizing b with
  | nil =>
    obtain rfl := List.eq_nil_of_length_eq_zero hlen.symm
    exact absurd h (lt_irrefl _)
  | cons x a ih =>
    obtain ⟨y, b, rfl⟩ := List.exists_cons_of_length_eq_add_one hlen.symm
    rw [List.cons_append, List.cons_append, List.cons_lt_cons_iff]
    rcases List.cons_lt_cons_iff.1 h with hlt | ⟨rfl, hlt⟩
    · exact .inl hlt
    · exact .inr ⟨rfl, ih (by simpa using hlen) hlt⟩

theorem rank_append_lt {a b : List Nat} (h : rank a < rank b) {c d : List Nat}
    (hlen : c.length = d.length) : rank (a ++ c) < rank (b ++ d) := by
  rw [rank_lt_iff] at h ⊢
  rw [List.length_append, List.length_append]
  rcases h with h | ⟨heq, hlt⟩
  · exact .inl (by omega)
  · exact .inr ⟨by omega, append_lt_append heq hlt c d⟩

theorem rank_append_le {a b : List Nat} (h : rank a ≤ rank b) (c : List Nat) :
    rank (a ++ c) ≤ rank (b ++ c) := by
  rcases h.lt_or_eq with h | h
  · exact (rank_append_lt h rfl).le
  · rw [rank_injective h]

theorem rank_le_append (a c : List Nat) : rank a ≤ rank (a ++ c) := by
  cases c with
  | nil => rw [List.append_nil]
  | cons k c => exact (rank_lt_iff.2 (.inl (by simp))).le

theorem rank_snoc_lt (a : List Nat) {k k' : Nat} (h : k < k') :
    rank (a ++ [k]) < rank (a ++ [k']) := by
  refine rank_lt_iff.2 (.inr ⟨by simp, ?_⟩)
  induction a with
  | nil => exact List.cons_lt_cons_iff.2 (.inl h)
  | cons x a ih => exact List.cons_lt_cons_iff.2 (.inr ⟨rfl, ih⟩)

theorem rank_nil_le (a : List Nat) : rank [] ≤ rank a := rank_le_append [] a

/-! ## Paths -/

variable (edges : ν → List (ν × ω)) (step : π → ω → π)

/-- What a path leads to, and the payload carried along it. -/
def follow : List Nat → ν × π → Option (ν × π)
  | [], x => some x
  | k :: path, x => (edges x.1)[k]?.bind fun e => follow path (e.1, step x.2 e.2)

variable {edges step}

omit [DecidableEq ν] in
theorem follow_append (a b : List Nat) (x : ν × π) :
    follow edges step (a ++ b) x = (follow edges step a x).bind (follow edges step b) := by
  induction a generalizing x with
  | nil => rfl
  | cons k a ih =>
    rw [List.cons_append, follow, follow]
    rcases (edges x.1)[k]? with _ | e
    · rfl
    · exact ih _

omit [DecidableEq ν] in
theorem follow_snoc {a : List Nat} {x y : ν × π} (h : follow edges step a x = some y) (k : Nat) :
    follow edges step (a ++ [k]) x =
      (edges y.1)[k]?.map fun e => (e.1, step y.2 e.2) := by
  rw [follow_append, h]
  show follow edges step [k] y = _
  unfold follow
  rcases (edges y.1)[k]? with _ | e <;> rfl

/-- A path that is the first one to where it leads. -/
def IsFirst (edges : ν → List (ν × ω)) (step : π → ω → π) (start : ν × π) (path : List Nat)
    (v : ν) : Prop :=
  (∃ p, follow edges step path start = some (v, p)) ∧
    ∀ path' p', follow edges step path' start = some (v, p') → rank path ≤ rank path'

omit [DecidableEq ν] in
theorem IsFirst.unique {start : ν × π} {a b : List Nat} {v : ν}
    (ha : IsFirst edges step start a v) (hb : IsFirst edges step start b v) : a = b := by
  obtain ⟨⟨p, hp⟩, hpa⟩ := ha
  obtain ⟨⟨q, hq⟩, hqb⟩ := hb
  exact rank_injective (le_antisymm (hpa b q hq) (hqb a p hp))

/-! ## The traversal with its paths -/

/-- The edges of a node, with their positions. -/
def numbered (edges : ν → List (ν × ω)) (v : ν) : List (ν × ω × Nat) :=
  (edges v).zipIdx.map fun e => (e.1.1, e.1.2, e.2)

/-- The path beside the payload. -/
def stepPath (step : π → ω → π) (x : List Nat × π) (w : ω × Nat) : List Nat × π :=
  (x.1 ++ [w.2], step x.2 w.1)

omit [DecidableEq ν] in
theorem along_numbered (v : ν) (a : List Nat) (p : π) :
    along (numbered edges) (stepPath step) v (a, p) =
      (edges v).zipIdx.map fun e => (e.1.1, a ++ [e.2], step p e.1.2) := by
  simp only [along, numbered, List.map_map]
  rfl

omit [DecidableEq ν] in
theorem map_along_numbered (v : ν) (a : List Nat) (p : π) :
    (along (numbered edges) (stepPath step) v (a, p)).map (fun x => (x.1, x.2.2)) =
      along edges step v p := by
  rw [along_numbered, List.map_map, along]
  conv_rhs => rw [← List.zipIdx_map_fst 0 (edges v), List.map_map]
  rfl

/-- The paths change no visit. -/
theorem map_visits_numbered {D : Discipline} (n : Nat) (pending : List (ν × List Nat × π))
    (seen : List ν) :
    (visits D (numbered edges) (stepPath step) n pending seen).map (fun x => (x.1, x.2.2)) =
      visits D edges step n (pending.map fun x => (x.1, x.2.2)) seen := by
  induction n generalizing pending seen with
  | zero => rfl
  | succ n ih =>
    rcases pending with _ | ⟨⟨v, a, p⟩, rest⟩
    · simp
    · rw [List.map_cons]
      by_cases hv : v ∈ seen
      · rw [visits_cons_of_mem hv, visits_cons_of_mem hv]
        exact ih rest seen
      · rw [visits_cons_of_not_mem hv, visits_cons_of_not_mem hv, List.map_cons, ih,
          Discipline.map_join, map_along_numbered]

/-! ## The order of the visits -/

/-- A search in progress: the nodes seen with the first paths there, and what
is pending, in the order of its paths. -/
structure Search (edges : ν → List (ν × ω)) (step : π → ω → π) (start : ν × π)
    (records : List (ν × List Nat)) (pending : List (ν × List Nat × π)) : Prop where
  followed : ∀ x ∈ pending, follow edges step x.2.1 start = some (x.1, x.2.2)
  sorted : pending.Pairwise fun x y => rank x.2.1 < rank y.2.1
  past : ∀ r ∈ records, ∀ x ∈ pending, rank r.2 < rank x.2.1
  first : ∀ r ∈ records, IsFirst edges step start r.2 r.1
  /-- Each edge of a node seen leads to one, or is pending. -/
  closed : ∀ r ∈ records, ∀ k e, (edges r.1)[k]? = some e →
    e.1 ∈ records.map Prod.fst ∨ ∃ x ∈ pending, x.2.1 = r.2 ++ [k]
  /-- What is pending is one edge behind a node seen. -/
  origin : ∀ x ∈ pending, x.2.1 = [] ∨ ∃ r ∈ records, ∃ k, x.2.1 = r.2 ++ [k]
  started : start.1 ∈ records.map Prod.fst ∨ ∃ x ∈ pending, x.2.1 = []

namespace Search

variable {start : ν × π} {records : List (ν × List Nat)} {pending : List (ν × List Nat × π)}

omit [DecidableEq ν] in
theorem initial : Search edges step start [] [(start.1, [], start.2)] where
  followed := by simp [follow]
  sorted := List.pairwise_singleton _ _
  past := by simp
  first := by simp
  closed := by simp
  origin := by simp
  started := .inr (by simp)

omit [DecidableEq ν] in
/-- What a path leads to is seen, or some path that is not later is pending. -/
theorem seen_or_pending (h : Search edges step start records pending) (path : List Nat) :
    ∀ y, follow edges step path start = some y →
      y.1 ∈ records.map Prod.fst ∨ ∃ x ∈ pending, rank x.2.1 ≤ rank path := by
  induction path using List.reverseRecOn with
  | nil =>
    intro y hy
    obtain rfl : start = y := by simpa [follow] using hy
    exact h.started.imp_right fun ⟨x, hx, hnil⟩ => ⟨x, hx, by rw [hnil]⟩
  | append_singleton path k ih =>
    intro y hy
    obtain ⟨z, hz⟩ : ∃ z, follow edges step path start = some z := by
      rw [follow_append] at hy
      obtain ⟨z, hz, -⟩ := Option.bind_eq_some_iff.1 hy
      exact ⟨z, hz⟩
    rw [follow_snoc hz, Option.map_eq_some_iff] at hy
    obtain ⟨e, he, rfl⟩ := hy
    rcases ih z hz with hseen | ⟨x, hx, hle⟩
    · obtain ⟨r, hr, hrz⟩ := List.mem_map.1 hseen
      have hle := (h.first r hr).2 path z.2 (by rw [hz, hrz])
      rcases h.closed r hr k e (by rw [hrz]; exact he) with hin | ⟨x, hx, hxk⟩
      · exact .inl hin
      · exact .inr ⟨x, hx, by rw [hxk]; exact rank_append_le hle [k]⟩
    · exact .inr ⟨x, hx, hle.trans (rank_le_append path [k])⟩

variable {v : ν} {a : List Nat} {p : π} {rest : List (ν × List Nat × π)}

omit [DecidableEq ν] in
/-- The front of what is pending is on the first path to its node. -/
theorem isFirst_front (h : Search edges step start records ((v, a, p) :: rest))
    (hv : v ∉ records.map Prod.fst) : IsFirst edges step start a v := by
  refine ⟨⟨p, h.followed _ List.mem_cons_self⟩, fun path q hq => ?_⟩
  obtain ⟨x, hx, hle⟩ := (h.seen_or_pending path _ hq).resolve_left hv
  rcases List.mem_cons.1 hx with rfl | hx
  · exact hle
  · exact ((List.pairwise_cons.1 h.sorted).1 x hx).le.trans hle

omit [DecidableEq ν] in
theorem skip (h : Search edges step start records ((v, a, p) :: rest))
    (hv : v ∈ records.map Prod.fst) : Search edges step start records rest where
  followed x hx := h.followed x (List.mem_cons_of_mem _ hx)
  sorted := (List.pairwise_cons.1 h.sorted).2
  past r hr x hx := h.past r hr x (List.mem_cons_of_mem _ hx)
  first := h.first
  closed r hr k e he := by
    rcases h.closed r hr k e he with hin | ⟨x, hx, hxk⟩
    · exact .inl hin
    · rcases List.mem_cons.1 hx with rfl | hx
      · obtain ⟨⟨q, hq⟩, -⟩ := h.first r hr
        have hfront := h.followed _ List.mem_cons_self
        rw [show a = r.2 ++ [k] from hxk, follow_snoc hq, he] at hfront
        obtain ⟨hnode, -⟩ := Prod.mk.inj (Option.some.inj hfront)
        exact .inl (hnode ▸ hv)
      · exact .inr ⟨x, hx, hxk⟩
  origin x hx := h.origin x (List.mem_cons_of_mem _ hx)
  started := by
    rcases h.started with hin | ⟨x, hx, hnil⟩
    · exact .inl hin
    · rcases List.mem_cons.1 hx with rfl | hx
      · have hfront := h.followed _ List.mem_cons_self
        rw [show a = [] from hnil] at hfront
        obtain rfl : start = (v, p) := by simpa [follow] using hfront
        exact .inl hv
      · exact .inr ⟨x, hx, hnil⟩

omit [DecidableEq ν] in
theorem mem_along_numbered {x : ν × List Nat × π} :
    x ∈ along (numbered edges) (stepPath step) v (a, p) ↔
      ∃ k e, (edges v)[k]? = some e ∧ x = (e.1, a ++ [k], step p e.2) := by
  rw [along_numbered, List.mem_map]
  constructor
  · rintro ⟨⟨e, k⟩, he, rfl⟩
    exact ⟨k, e, List.mem_zipIdx_iff_getElem?.1 he, rfl⟩
  · rintro ⟨k, e, he, rfl⟩
    exact ⟨(e, k), List.mem_zipIdx_iff_getElem?.2 he, rfl⟩

omit [DecidableEq ν] in
theorem pairwise_along_numbered :
    (along (numbered edges) (stepPath step) v (a, p)).Pairwise
      fun x y => rank x.2.1 < rank y.2.1 := by
  rw [along_numbered, List.pairwise_map, List.pairwise_iff_getElem]
  intro i j hi hj hij
  rw [List.getElem_zipIdx, List.getElem_zipIdx]
  exact rank_snoc_lt a (by omega)

omit [DecidableEq ν] in
theorem visit (h : Search edges step start records ((v, a, p) :: rest))
    (hv : v ∉ records.map Prod.fst) : Search edges step start ((v, a) :: records)
      (rest ++ along (numbered edges) (stepPath step) v (a, p)) where
  followed x hx := by
    rcases List.mem_append.1 hx with hx | hx
    · exact h.followed x (List.mem_cons_of_mem _ hx)
    · obtain ⟨k, e, he, rfl⟩ := mem_along_numbered.1 hx
      rw [follow_snoc (h.followed _ List.mem_cons_self), he]
      rfl
  sorted := by
    obtain ⟨hfront, hrest⟩ := List.pairwise_cons.1 h.sorted
    refine List.pairwise_append.2 ⟨hrest, pairwise_along_numbered, fun x hx y hy => ?_⟩
    obtain ⟨k, e, he, rfl⟩ := mem_along_numbered.1 hy
    -- what waits came from a visit before this one, so it stays ahead of the new paths
    rcases h.origin x (List.mem_cons_of_mem _ hx) with hnil | ⟨r, hr, k', hk'⟩
    · exact absurd (hfront x hx) (by rw [hnil]; exact (rank_nil_le a).not_gt)
    · rw [hk']
      exact rank_append_lt (h.past r hr _ List.mem_cons_self) rfl
  past r hr x hx := by
    have hnew : ∀ r : ν × List Nat, rank r.2 ≤ rank a →
        x ∈ along (numbered edges) (stepPath step) v (a, p) → rank r.2 < rank x.2.1 := by
      intro r hle hx
      obtain ⟨k, e, he, rfl⟩ := mem_along_numbered.1 hx
      exact hle.trans_lt (rank_lt_iff.2 (.inl (by simp)))
    rcases List.mem_append.1 hx with hx | hx
    · rcases List.mem_cons.1 hr with rfl | hr
      · exact (List.pairwise_cons.1 h.sorted).1 x hx
      · exact h.past r hr x (List.mem_cons_of_mem _ hx)
    · rcases List.mem_cons.1 hr with rfl | hr
      · exact hnew _ le_rfl hx
      · exact hnew r (h.past r hr _ List.mem_cons_self).le hx
  first r hr := by
    rcases List.mem_cons.1 hr with rfl | hr
    · exact h.isFirst_front hv
    · exact h.first r hr
  closed r hr k e he := by
    rcases List.mem_cons.1 hr with rfl | hr
    · refine .inr ⟨_, List.mem_append_right _ (mem_along_numbered.2 ⟨k, e, he, rfl⟩), rfl⟩
    · rcases h.closed r hr k e he with hin | ⟨x, hx, hxk⟩
      · exact .inl (List.mem_cons_of_mem _ hin)
      · rcases List.mem_cons.1 hx with rfl | hx
        -- the edge leads to the node that is visited now
        · obtain ⟨⟨q, hq⟩, -⟩ := h.first r hr
          have hfront := h.followed _ List.mem_cons_self
          rw [show a = r.2 ++ [k] from hxk, follow_snoc hq, he] at hfront
          obtain ⟨hnode, -⟩ := Prod.mk.inj (Option.some.inj hfront)
          exact .inl (hnode ▸ List.mem_cons_self)
        · exact .inr ⟨x, List.mem_append_left _ hx, hxk⟩
  origin x hx := by
    rcases List.mem_append.1 hx with hx | hx
    · refine (h.origin x (List.mem_cons_of_mem _ hx)).imp_right fun ⟨r, hr, hk⟩ => ?_
      exact ⟨r, List.mem_cons_of_mem _ hr, hk⟩
    · obtain ⟨k, e, -, rfl⟩ := mem_along_numbered.1 hx
      exact .inr ⟨(v, a), List.mem_cons_self, k, rfl⟩
  started := by
    rcases h.started with hin | ⟨x, hx, hnil⟩
    · exact .inl (List.mem_cons_of_mem _ hin)
    · rcases List.mem_cons.1 hx with rfl | hx
      · have hfront := h.followed _ List.mem_cons_self
        rw [show a = [] from hnil] at hfront
        obtain rfl : start = (v, p) := by simpa [follow] using hfront
        exact .inl List.mem_cons_self
      · exact .inr ⟨x, List.mem_append_left _ hx, hnil⟩

/-- Every visit is on the first path to its node. -/
theorem isFirst_of_mem_visits (n : Nat) (h : Search edges step start records pending) :
    ∀ x ∈ visits .queue (numbered edges) (stepPath step) n pending (records.map Prod.fst),
      follow edges step x.2.1 start = some (x.1, x.2.2) ∧
        IsFirst edges step start x.2.1 x.1 := by
  induction n generalizing pending records with
  | zero => simp [visits]
  | succ n ih =>
    rcases pending with _ | ⟨⟨v, a, p⟩, rest⟩
    · simp
    · by_cases hv : v ∈ records.map Prod.fst
      · rw [visits_cons_of_mem hv]
        exact ih (h.skip hv)
      · rw [visits_cons_of_not_mem hv]
        intro x hx
        rcases List.mem_cons.1 hx with rfl | hx
        · exact ⟨h.followed _ List.mem_cons_self, h.isFirst_front hv⟩
        · exact ih (h.visit hv) x hx

end Search

section

variable {nodes : Finset ν} {n : Nat} {start : ν × π}

theorem exists_isFirst_of_mem {v : ν} {q : π}
    (h : (v, q) ∈ visits .queue edges step n [start] []) :
    ∃ path, follow edges step path start = some (v, q) ∧
      IsFirst edges step start path v := by
  have hnum : (visits .queue (numbered edges) (stepPath step) n [(start.1, [], start.2)] []).map
      (fun x => (x.1, x.2.2)) = visits .queue edges step n [start] [] :=
    map_visits_numbered n _ _
  rw [← hnum] at h
  obtain ⟨⟨v', a, q'⟩, hx, heq⟩ := List.mem_map.1 h
  obtain ⟨rfl, rfl⟩ := Prod.mk.inj heq
  exact ⟨a, Search.initial.isFirst_of_mem_visits n _ hx⟩

variable (hnodes : ∀ v ∉ nodes, edges v = []) (hn : work edges nodes [start] [] ≤ n)

include hnodes hn

/-- What a path leads to is visited. -/
theorem mem_visits_of_follow (path : List Nat) : ∀ y, follow edges step path start = some y →
    y.1 ∈ (visits .queue edges step n [start] []).map Prod.fst := by
  obtain ⟨hstart, hclosed⟩ := visits_closed .queue step hnodes hn (by simp)
  induction path using List.reverseRecOn with
  | nil =>
    intro y hy
    obtain rfl : start = y := by simpa [follow] using hy
    simpa using hstart
  | append_singleton path k ih =>
    intro y hy
    rw [follow_append] at hy
    obtain ⟨z, hz, hk⟩ := Option.bind_eq_some_iff.1 hy
    rw [follow] at hk
    obtain ⟨e, he, hy'⟩ := Option.bind_eq_some_iff.1 hk
    obtain rfl : _ = y := by simpa [follow] using hy'
    simpa using hclosed z.1 (.inr (ih z hz)) e (List.mem_of_getElem? he)

/-- Where a path leads, a first path leads. -/
theorem exists_isFirst {path : List Nat} {y : ν × π}
    (h : follow edges step path start = some y) :
    ∃ first, IsFirst edges step start first y.1 := by
  obtain ⟨⟨v, q⟩, hx, hv⟩ := List.mem_map.1 (mem_visits_of_follow hnodes hn path y h)
  obtain ⟨first, -, hfirst⟩ := exists_isFirst_of_mem hx
  exact ⟨first, hv ▸ hfirst⟩

/-- **First paths.** A queue visits a node with the payload of the first path
there, if there is one. -/
theorem mem_visits_queue_iff {v : ν} {q : π} :
    (v, q) ∈ visits .queue edges step n [start] [] ↔
      ∃ path, follow edges step path start = some (v, q) ∧
        IsFirst edges step start path v := by
  refine ⟨exists_isFirst_of_mem, ?_⟩
  rintro ⟨path, hpath, hfirst⟩
  obtain ⟨⟨v', q'⟩, hx, rfl⟩ := List.mem_map.1 (mem_visits_of_follow hnodes hn path _ hpath)
  obtain ⟨path', hpath', hfirst'⟩ := exists_isFirst_of_mem hx
  obtain rfl := hfirst.unique hfirst'
  obtain ⟨-, rfl⟩ := Prod.mk.inj (Option.some.inj (hpath.symm.trans hpath'))
  exact hx

end

end Worklist

end Epiphany
