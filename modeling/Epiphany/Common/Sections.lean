import Mathlib
/-!
# Sections — one entry from each list

A section of a list of lists takes one entry from each. A mixed-radix
counter, the first list fastest, runs through the sections in order
(`map_choice_range`), so a loop over the counter is a loop over
`List.sections`.

A weighted sum over the sections of keyed lists can be computed from the
other side: when the summand comes from a sparse table, it is the sum over
the table's rows, each with the weight the lists give its key
(`sum_sections`).
-/

namespace Epiphany

namespace Sections

variable {α κ R : Type*}

/-! ## Counting through the sections -/

/-- The `n`-th section, reading `n` in mixed radix with the first list as
its lowest digit. -/
def choice : List (List α) → Nat → List α
  | [], _ => []
  | l :: ls, n =>
    match l[n % l.length]? with
    | some a => a :: choice ls (n / l.length)
    | none => []

/-- A counter over a product counts the first factor within the second. -/
theorem range_mul (m n : Nat) :
    List.range (m * n) = (List.range n).flatMap fun q => (List.range m).map fun r => m * q + r := by
  induction n with
  | zero => rfl
  | succ n ih => rw [Nat.mul_succ, List.range_add, ih, List.range_succ, List.flatMap_append,
      List.flatMap_singleton]

/-- What stands at a place of a grid that is written row by row. -/
theorem getElem?_grid {β γ : Type*} {rows : List α} {cols : List β} {f : α → β → γ} {k : Nat}
    {x : γ} : (rows.flatMap fun a => cols.map (f a))[k]? = some x ↔
      ∃ a b, rows[k / cols.length]? = some a ∧ cols[k % cols.length]? = some b ∧ x = f a b := by
  induction rows generalizing k with
  | nil => simp
  | cons row rows ih =>
    rw [List.flatMap_cons]
    by_cases hk : k < cols.length
    · rw [List.getElem?_append_left (by rw [List.length_map]; exact hk), Nat.div_eq_of_lt hk,
        Nat.mod_eq_of_lt hk, List.getElem?_map, Option.map_eq_some_iff]
      simp [eq_comm]
    · rw [List.getElem?_append_right (by rw [List.length_map]; omega), List.length_map, ih]
      rcases Nat.eq_zero_or_pos cols.length with hzero | hpos
      · simp [List.length_eq_zero_iff.1 hzero]
      · have hdiv : k / cols.length = (k - cols.length) / cols.length + 1 := by
          rw [← Nat.add_div_right _ hpos, Nat.sub_add_cancel (by omega)]
        rw [hdiv, List.getElem?_cons_succ, ← Nat.mod_eq_sub_mod (by omega)]

theorem map_choice_row {l : List α} {ls : List (List α)} (q : Nat) :
    ((List.range l.length).map fun r => choice (l :: ls) (l.length * q + r)) =
      l.map fun a => a :: choice ls q := by
  refine List.ext_getElem? fun r => ?_
  rw [List.getElem?_map, List.getElem?_map]
  by_cases hr : r < l.length
  · have hmod : (l.length * q + r) % l.length = r := by
      rw [Nat.mul_add_mod, Nat.mod_eq_of_lt hr]
    have hdiv : (l.length * q + r) / l.length = q := by
      rw [Nat.mul_add_div (by omega), Nat.div_eq_of_lt hr, Nat.add_zero]
    simp only [List.getElem?_range hr, List.getElem?_eq_getElem hr, Option.map_some, choice, hmod,
      hdiv]
  · rw [List.getElem?_eq_none (by simpa using hr), List.getElem?_eq_none (by simpa using hr)]
    rfl

/-- **The counter runs through the sections**, in their order. -/
theorem map_choice_range (L : List (List α)) :
    (List.range (L.map List.length).prod).map (choice L) = L.sections := by
  induction L with
  | nil => rfl
  | cons l ls ih =>
    rw [List.map_cons, List.prod_cons, range_mul, List.map_flatMap, List.sections, ← ih,
      List.flatMap_map]
    refine List.flatMap_congr fun q _ => ?_
    rw [List.map_map]
    exact map_choice_row q

/-- Sections of images are the images of sections. -/
theorem sections_map {β : Type*} (f : α → β) (L : List (List α)) :
    (L.map (List.map f)).sections = L.sections.map (List.map f) := by
  induction L with
  | nil => rfl
  | cons l ls ih =>
    rw [List.map_cons, List.sections, List.sections, ih, List.flatMap_map, List.map_flatMap]
    refine List.flatMap_congr fun s _ => ?_
    simp

/-! ## The odometer -/

/-- One entry from each list, the last list fastest. -/
def rows : List (List α) → List (List α)
  | [] => [[]]
  | l :: ls => l.flatMap fun a => (rows ls).map fun r => a :: r

theorem mem_rows {L : List (List α)} {r : List α} :
    r ∈ rows L ↔ List.Forall₂ (· ∈ ·) r L := by
  induction L generalizing r with
  | nil => simp [rows]
  | cons l ls ih =>
    simp only [rows, List.mem_flatMap, List.mem_map, List.forall₂_cons_right_iff, ih]
    constructor
    · rintro ⟨a, ha, s, hs, rfl⟩
      exact ⟨a, s, ha, hs, rfl⟩
    · rintro ⟨a, s, ha, hs, rfl⟩
      exact ⟨a, ha, s, hs, rfl⟩

/-- The rows of two groups of lists are the rows of one beside those of the
other. -/
theorem rows_append (L L' : List (List α)) :
    rows (L ++ L') = (rows L).flatMap fun r => (rows L').map fun r' => r ++ r' := by
  induction L with
  | nil => simp [rows]
  | cons l ls ih =>
    rw [List.cons_append, rows, rows, ih, List.flatMap_assoc]
    refine List.flatMap_congr fun a _ => ?_
    rw [List.map_flatMap, List.flatMap_map]
    refine List.flatMap_congr fun r _ => ?_
    rw [List.map_map]
    rfl

theorem nodup_rows {L : List (List α)} (h : ∀ l ∈ L, l.Nodup) : (rows L).Nodup := by
  induction L with
  | nil => simp [rows]
  | cons l ls ih =>
    have hls := ih fun l' hl' => h l' (List.mem_cons_of_mem _ hl')
    refine List.nodup_flatMap.2 ⟨fun a _ => hls.map fun _ _ heq => (List.cons.inj heq).2, ?_⟩
    refine (h l List.mem_cons_self).imp fun hab => ?_
    rw [Function.onFun, List.disjoint_left]
    rintro r hr hr'
    obtain ⟨_, _, rfl⟩ := List.mem_map.1 hr
    obtain ⟨_, _, heq⟩ := List.mem_map.1 hr'
    exact hab (List.cons.inj heq).1.symm

theorem nodup_sections {L : List (List α)} (h : ∀ l ∈ L, l.Nodup) : L.sections.Nodup := by
  induction L with
  | nil => simp [List.sections]
  | cons l ls ih =>
    have hls := ih fun l' hl' => h l' (List.mem_cons_of_mem _ hl')
    have hl := h l List.mem_cons_self
    rw [List.sections]
    refine List.nodup_flatMap.2 ⟨fun s _ => hl.map fun _ _ heq => (List.cons.inj heq).1, ?_⟩
    refine hls.imp fun hab => ?_
    rw [Function.onFun, List.disjoint_left]
    rintro r hr hr'
    obtain ⟨_, _, rfl⟩ := List.mem_map.1 hr
    obtain ⟨_, _, heq⟩ := List.mem_map.1 hr'
    exact hab (List.cons.inj heq).2.symm

/-- Rows and sections are the same choices in another order. -/
theorem rows_perm_sections {L : List (List α)} (h : ∀ l ∈ L, l.Nodup) :
    (rows L).Perm L.sections :=
  (List.perm_ext_iff_of_nodup (nodup_rows h) (nodup_sections h)).2 fun _ =>
    mem_rows.trans List.mem_sections.symm

/-- The odometer's next reading over wheels of the given sizes, and whether
it has come round. -/
def advance : List Nat → List Nat → List Nat × Bool
  | n :: ns, i :: is =>
    let (is, carry) := advance ns is
    if carry then if i + 1 < n then ((i + 1) :: is, false) else (0 :: is, true)
    else (i :: is, false)
  | _, _ => ([], true)

/-- The reading after `k` steps. -/
def reading : List Nat → Nat → List Nat
  | [], _ => []
  | n :: ns, k => k / ns.prod % n :: reading ns k

theorem succ_mod {q n : Nat} (hn : 0 < n) :
    (q + 1) % n = if q % n + 1 < n then q % n + 1 else 0 := by
  have hq : q + 1 = n * (q / n) + (q % n + 1) := by
    rw [← Nat.add_assoc, Nat.div_add_mod]
  have hlt := Nat.mod_lt q hn
  rw [hq, Nat.mul_add_mod]
  split_ifs with h
  · exact Nat.mod_eq_of_lt h
  · rw [show q % n + 1 = n by omega, Nat.mod_self]

theorem advance_reading {ns : List Nat} (h : ∀ n ∈ ns, 0 < n) (k : Nat) :
    advance ns (reading ns k) = (reading ns (k + 1), decide (ns.prod ∣ k + 1)) := by
  induction ns with
  | nil => simp [advance, reading]
  | cons n ns ih =>
    have hn := h n List.mem_cons_self
    have hns : ∀ m ∈ ns, 0 < m := fun m hm => h m (List.mem_cons_of_mem _ hm)
    have hpos : 0 < ns.prod := List.prod_pos hns
    rw [reading, reading, advance, ih hns, Nat.succ_div]
    by_cases hdvd : ns.prod ∣ k + 1
    · -- the wheels to the right come round together, and this one moves
      have hk : k + 1 = ns.prod * (k / ns.prod + 1) := by
        rw [← Nat.succ_div_of_dvd hdvd, Nat.mul_div_cancel' hdvd]
      have hcome : n * ns.prod ∣ k + 1 ↔ n ∣ k / ns.prod + 1 := by
        rw [hk, Nat.mul_comm n]
        exact Nat.mul_dvd_mul_iff_left hpos
      simp only [hdvd, decide_true, if_true, List.prod_cons, hcome, Nat.dvd_iff_mod_eq_zero,
        succ_mod hn]
      by_cases hn1 : k / ns.prod % n + 1 < n <;> simp [hn1]
    · have hno : ¬ n * ns.prod ∣ k + 1 := fun hd => hdvd (dvd_trans (dvd_mul_left _ _) hd)
      simp [hdvd, hno]

/-- A reading is read modulo what it takes to come round. -/
theorem reading_add_mul {ns : List Nat} (h : ∀ n ∈ ns, 0 < n) (k q : Nat) :
    reading ns (ns.prod * q + k) = reading ns k := by
  induction ns generalizing k q with
  | nil => rfl
  | cons n ns ih =>
    have hns : ∀ m ∈ ns, 0 < m := fun m hm => h m (List.mem_cons_of_mem _ hm)
    have hmul : (n :: ns).prod * q + k = ns.prod * (n * q) + k := by
      rw [List.prod_cons]
      ring
    rw [reading, reading, hmul, ih hns, Nat.mul_add_div (List.prod_pos hns), Nat.mul_add_mod]

/-- The readings of `n` steps, one after the other. -/
def readings (ns : List Nat) : Nat → List Nat → List (List Nat)
  | 0, _ => []
  | n + 1, is => is :: readings ns n (advance ns is).1

theorem readings_eq {ns : List Nat} (h : ∀ n ∈ ns, 0 < n) (n k : Nat) :
    readings ns n (reading ns k) = (List.range n).map fun r => reading ns (k + r) := by
  induction n generalizing k with
  | zero => rfl
  | succ n ih =>
    rw [readings, advance_reading h, ih, List.range_succ_eq_map, List.map_cons, List.map_map]
    refine congrArg _ (List.map_congr_left fun r _ => ?_)
    rw [Function.comp_apply, Nat.succ_eq_add_one, Nat.add_assoc, Nat.add_comm 1]

theorem reading_zero (ns : List Nat) : reading ns 0 = List.replicate ns.length 0 := by
  induction ns with
  | nil => rfl
  | cons n ns ih => rw [reading, ih, Nat.zero_div, Nat.zero_mod, List.length_cons, List.replicate_succ]

/-- The entries an odometer reading points at. -/
def row : List (List α) → List Nat → List α
  | l :: ls, i :: is =>
    match l[i]? with
    | some a => a :: row ls is
    | none => []
  | _, _ => []

theorem map_row_reading {L : List (List α)} (h : ∀ l ∈ L, l ≠ []) :
    ((List.range (L.map List.length).prod).map fun k => row L (reading (L.map List.length) k)) =
      rows L := by
  induction L with
  | nil => rfl
  | cons l ls ih =>
    have hls : ∀ l' ∈ ls, l' ≠ [] := fun l' hl' => h l' (List.mem_cons_of_mem _ hl')
    have hpos : ∀ n ∈ ls.map List.length, 0 < n := by
      intro n hn
      obtain ⟨l', hl', rfl⟩ := List.mem_map.1 hn
      exact List.length_pos_iff.2 (hls l' hl')
    have hprod := List.prod_pos hpos
    rw [rows, ← ih hls, List.map_cons, List.prod_cons, Nat.mul_comm, range_mul, List.map_flatMap]
    have hrow : ∀ q ∈ List.range l.length, ∀ a, l[q]? = some a →
        (((List.range (ls.map List.length).prod).map
          fun r => (ls.map List.length).prod * q + r).map
          fun k => row (l :: ls) (reading (l.length :: ls.map List.length) k)) =
        ((List.range (ls.map List.length).prod).map
          fun k => row ls (reading (ls.map List.length) k)).map fun r => a :: r := by
      intro q hq a ha
      rw [List.map_map, List.map_map]
      refine List.map_congr_left fun r hr => ?_
      have hdiv : ((ls.map List.length).prod * q + r) / (ls.map List.length).prod % l.length = q := by
        rw [Nat.mul_add_div hprod, Nat.div_eq_of_lt (List.mem_range.1 hr), Nat.add_zero,
          Nat.mod_eq_of_lt (List.mem_range.1 hq)]
      simp only [Function.comp_apply, reading, hdiv, row, ha, reading_add_mul hpos]
    rw [List.flatMap_def, List.flatMap_def]
    congr 1
    refine List.ext_getElem? fun q => ?_
    rw [List.getElem?_map, List.getElem?_map]
    by_cases hq : q < l.length
    · rw [List.getElem?_range hq, List.getElem?_eq_getElem hq, Option.map_some, Option.map_some,
        hrow q (List.mem_range.2 hq) _ (List.getElem?_eq_getElem hq)]
    · rw [List.getElem?_eq_none (by simpa using hq), List.getElem?_eq_none (by simpa using hq)]
      rfl

/-- **The odometer runs through the rows**, started with every wheel at
zero. -/
theorem map_row_readings {L : List (List α)} (h : ∀ l ∈ L, l ≠ []) :
    (readings (L.map List.length) (L.map List.length).prod
      (List.replicate L.length 0)).map (row L) = rows L := by
  have hpos : ∀ n ∈ L.map List.length, 0 < n := by
    intro n hn
    obtain ⟨l, hl, rfl⟩ := List.mem_map.1 hn
    exact List.length_pos_iff.2 (h l hl)
  rw [← map_row_reading h, ← L.length_map (f := List.length), ← reading_zero, readings_eq hpos,
    List.map_map]
  refine List.map_congr_left fun r _ => ?_
  rw [Function.comp_apply, Nat.zero_add]

/-! ## Weighted sums -/

section Sums

variable [CommSemiring R]

/-- The weight of a section: the product of its entries' weights. -/
def weight (s : List (κ × R)) : R := (s.map Prod.snd).prod

/-- The keys of a section. -/
def keys (s : List (κ × R)) : List κ := s.map Prod.fst

variable [DecidableEq κ]

/-- The weight a list gives a key: the sum over the entries that have it. -/
def weightOf (l : List (κ × R)) (k : κ) : R :=
  ((l.filter fun e => e.1 = k).map Prod.snd).sum

theorem weightOf_of_not_mem {l : List (κ × R)} {k : κ} (h : k ∉ l.map Prod.fst) :
    weightOf l k = 0 := by
  have hnil : l.filter (fun e => e.1 = k) = [] := by
    rw [List.filter_eq_nil_iff]
    exact fun e he hk => h (List.mem_map.2 ⟨e, he, of_decide_eq_true hk⟩)
  rw [weightOf, hnil]
  rfl

/-- In a list that names each key once, a key's weight is its entry. -/
theorem weightOf_of_mem {l : List (κ × R)} (hl : (l.map Prod.fst).Nodup) {k : κ} {w : R}
    (h : (k, w) ∈ l) : weightOf l k = w := by
  induction l with
  | nil => cases h
  | cons e l ih =>
    rw [List.map_cons, List.nodup_cons] at hl
    rw [weightOf, List.filter_cons]
    rcases List.mem_cons.1 h with rfl | h
    · have := weightOf_of_not_mem (R := R) hl.1
      rw [weightOf] at this
      simp [this]
    · have hne : e.1 ≠ k := fun hk => hl.1 (hk ▸ List.mem_map.2 ⟨_, h, rfl⟩)
      rw [if_neg (by simpa using hne)]
      exact ih hl.2 h

/-- The weight the lists give a row of keys. -/
def weightAt : List (List (κ × R)) → List κ → R
  | [], [] => 1
  | l :: ls, k :: ks => weightOf l k * weightAt ls ks
  | _, _ => 0

/-- Lists that give every key the same weight give every row the same. -/
theorem weightAt_congr {L L' : List (List (κ × R))}
    (h : List.Forall₂ (fun l l' => ∀ k, weightOf l k = weightOf l' k) L L') (ks : List κ) :
    weightAt L ks = weightAt L' ks := by
  induction h generalizing ks with
  | nil => rfl
  | cons hl _ ih =>
    rcases ks with _ | ⟨k, ks⟩
    · rfl
    · rw [weightAt, weightAt, hl, ih]

/-- Weights read through a ring homomorphism. -/
theorem weightAt_map {R' : Type*} [CommSemiring R'] (f : R →+* R') (L : List (List (κ × R)))
    (ks : List κ) :
    weightAt (L.map (List.map fun e => (e.1, f e.2))) ks = f (weightAt L ks) := by
  induction L generalizing ks with
  | nil => rcases ks with _ | ⟨k, ks⟩ <;> simp [weightAt]
  | cons l ls ih =>
    rcases ks with _ | ⟨k, ks⟩
    · simp [weightAt]
    · rw [List.map_cons, weightAt, weightAt, ih, map_mul, weightOf, weightOf, map_list_sum,
        List.filter_map, List.map_map, List.map_map]
      rfl

/-- The weights of the sections over one row of keys add up to the weight
the lists give that row. -/
theorem sum_weight_filter (L : List (List (κ × R))) (ks : List κ) :
    ((L.sections.filter fun s => keys s = ks).map weight).sum = weightAt L ks := by
  induction L generalizing ks with
  | nil => rcases ks with _ | ⟨k, ks⟩ <;> simp [List.sections, weightAt, keys, weight]
  | cons l ls ih =>
    rcases ks with _ | ⟨k, ks⟩
    · have hnil : ((l :: ls).sections.filter fun s => keys s = []) = [] := by
        rw [List.filter_eq_nil_iff]
        intro s hs
        have hlen := List.mem_sections_length hs
        rcases s with _ | ⟨e, s⟩
        · simp at hlen
        · simp [keys]
      rw [hnil]
      rfl
    · -- a section over `k :: ks` is an entry of key `k` before a section over `ks`
      have hrow : ∀ s : List (κ × R),
          (((l.map fun a => a :: s).filter fun s => keys s = k :: ks).map weight).sum =
            weightOf l k * (if keys s = ks then weight s else 0) := by
        intro s
        induction l with
        | nil => simp [weightOf]
        | cons a l ih =>
          rw [List.map_cons, List.filter_cons]
          have hsplit : (keys (a :: s) = k :: ks) ↔ a.1 = k ∧ keys s = ks := by
            simp [keys]
          have hof : weightOf (a :: l) k = (if a.1 = k then a.2 else 0) + weightOf l k := by
            rw [weightOf, weightOf, List.filter_cons]
            by_cases ha : a.1 = k <;> simp [ha]
          rw [hof, add_mul, ← ih]
          by_cases ha : a.1 = k <;> by_cases hs : keys s = ks <;>
            simp [hsplit, ha, hs, weight]
      rw [weightAt, ← ih ks, List.sections, List.filter_flatMap, List.map_flatMap]
      generalize ls.sections = S
      induction S with
      | nil => simp
      | cons s S ihS =>
        rw [List.flatMap_cons, List.sum_append, hrow s, ihS, ← mul_add, List.filter_cons]
        by_cases hs : keys s = ks <;> simp [hs]

/-- In a table without a repeated key, the sum over the rows of one key is
the value the table reads there. -/
theorem sum_rows {κ' : Type*} [DecidableEq κ'] {rows : List (κ' × R)}
    (hrows : (rows.map Prod.fst).Nodup) {k : κ'} {r : R} (hread : ∀ v, (k, v) ∈ rows → v = r)
    (hzero : k ∉ rows.map Prod.fst → r = 0) :
    (rows.map fun e => if k = e.1 then e.2 else 0).sum = r := by
  induction rows with
  | nil => exact (hzero (by simp)).symm
  | cons e rows ih =>
    rw [List.map_cons, List.nodup_cons] at hrows
    rw [List.map_cons, List.sum_cons]
    by_cases hk : k = e.1
    · subst hk
      have hrest : (rows.map fun x => if e.1 = x.1 then x.2 else 0).sum = 0 := by
        refine List.sum_eq_zero fun x hx => ?_
        obtain ⟨e', he', rfl⟩ := List.mem_map.1 hx
        rw [if_neg]
        exact fun heq => hrows.1 (heq ▸ List.mem_map_of_mem he')
      rw [if_pos rfl, hrest, add_zero, hread e.2 List.mem_cons_self]
    · rw [if_neg hk, zero_add]
      refine ih hrows.2 (fun v hv => hread v (List.mem_cons_of_mem _ hv)) fun hmem => hzero ?_
      simp [hk, hmem]

/-- A filter inside a sum, as a summand that is zero off it. -/
theorem sum_map_filter {β : Type*} (l : List β) (p : β → Prop) [DecidablePred p] (f : β → R) :
    ((l.filter fun b => p b).map f).sum = (l.map fun b => if p b then f b else 0).sum := by
  simp [List.sum_map_ite]

/-- **A sum over the sections, from the table's side.** The sections of
keyed lists, each with the value a table reads at its keys, sum to the rows
of the table, each with the weight the lists give it. -/
theorem sum_sections (L : List (List (κ × R))) (read : List κ → R) {rows : List (List κ × R)}
    (hrows : (rows.map Prod.fst).Nodup)
    (hread : ∀ s ∈ L.sections, ∀ v, (keys s, v) ∈ rows → v = read (keys s))
    (hzero : ∀ s ∈ L.sections, keys s ∉ rows.map Prod.fst → read (keys s) = 0) :
    (L.sections.map fun s => weight s * read (keys s)).sum =
      (rows.map fun e => weightAt L e.1 * e.2).sum := by
  have hone : ∀ s ∈ L.sections, weight s * read (keys s) =
      (rows.map fun e => if keys s = e.1 then weight s * e.2 else 0).sum := by
    intro s hs
    rw [← sum_rows hrows (hread s hs) (hzero s hs), ← List.sum_map_mul_left]
    congr 1
    exact List.map_congr_left fun e _ => by rw [mul_ite, mul_zero]
  have hrow : ∀ e : List κ × R, weightAt L e.1 * e.2 =
      (L.sections.map fun s => if keys s = e.1 then weight s * e.2 else 0).sum := by
    intro e
    rw [← sum_weight_filter L e.1, ← List.sum_map_mul_right, sum_map_filter]
  rw [List.map_congr_left hone]
  simp only [hrow]
  simpa using Multiset.sum_map_sum_map (L.sections : Multiset (List (κ × R)))
    (rows : Multiset (List κ × R))

end Sums

end Sections

end Epiphany
