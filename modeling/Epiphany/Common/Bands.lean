import Epiphany.Common.Sections
/-!
# Bands — computations cut into bands, each with its first failure

A row of computations is cut into bands, and each band is run on its own: it
collects its values and keeps its failure of the lowest place. The lowest
failure of all bands is the failure that a run from the left meets first
(`lowest_bands`), and without one the bands side by side are the row.
-/

namespace Epiphany

namespace Bands

variable {α ε : Type}

/-- The lower of two failures; the one that is there at equal places. -/
def keepLower (low : Option (Nat × ε)) (err : Nat × ε) : Option (Nat × ε) :=
  match low with
  | none => some err
  | some l => if err.1 < l.1 then some err else some l

/-- The failure that a run meets first, the row counted from a place on. -/
def firstError (start : Nat) : List (Except ε α) → Option (Nat × ε)
  | [] => none
  | .ok _ :: rest => firstError (start + 1) rest
  | .error e :: _ => some (start, e)

/-- What a run leaves of its values: one that failed leaves a blank. -/
def values (blank : α) (cs : List (Except ε α)) : List α :=
  cs.map fun x => x.toOption.getD blank

@[simp] theorem firstError_nil (start : Nat) : firstError start ([] : List (Except ε α)) = none :=
  rfl

@[simp] theorem firstError_ok (start : Nat) (a : α) (cs : List (Except ε α)) :
    firstError start (.ok a :: cs) = firstError (start + 1) cs := rfl

@[simp] theorem firstError_error (start : Nat) (e : ε) (cs : List (Except ε α)) :
    firstError start (.error e :: cs) = some (start, e) := rfl

theorem firstError_append (start : Nat) (cs cs' : List (Except ε α)) :
    firstError start (cs ++ cs') =
      (firstError start cs).or (firstError (start + cs.length) cs') := by
  induction cs generalizing start with
  | nil => simp
  | cons x cs ih =>
    rcases x with e | a
    · simp
    · rw [List.cons_append, firstError_ok, firstError_ok, ih, List.length_cons]
      congr 2
      omega

/-- The first failure is at or after the start, and within the row. -/
theorem firstError_bounds {start : Nat} {cs : List (Except ε α)} {x : Nat × ε}
    (h : firstError start cs = some x) : start ≤ x.1 ∧ x.1 < start + cs.length := by
  induction cs generalizing start with
  | nil => cases h
  | cons y cs ih =>
    rw [List.length_cons]
    rcases y with e | a
    · obtain rfl := Option.some.inj h
      constructor <;> dsimp only <;> omega
    · rw [firstError_ok] at h
      obtain ⟨h1, h2⟩ := ih h
      constructor <;> omega

/-- **A run from the left** gives the first failure, or all values. -/
theorem mapM_id_eq (start : Nat) (blank : α) (cs : List (Except ε α)) :
    cs.mapM id = match firstError start cs with
      | some x => .error x.2
      | none => .ok (values blank cs) := by
  induction cs generalizing start with
  | nil => rfl
  | cons x cs ih =>
    rw [List.mapM_cons]
    rcases x with e | a
    · rfl
    · have hrest := ih (start + 1)
      change (cs.mapM id >>= fun rest => pure (a :: rest)) = _
      rw [hrest, firstError_ok]
      rcases firstError (start + 1) cs with _ | x <;> rfl

/-! ## Bands -/

/-- The bands of a row, each as long as given but for the last. -/
def bandsOf (len : Nat) (l : List α) : List (List α) :=
  (List.range ((l.length + len - 1) / len)).map fun b => (l.drop (b * len)).take len

/-- The first bands are the beginning of the row. -/
theorem flatMap_bands (l : List α) (len n : Nat) :
    ((List.range n).flatMap fun b => (l.drop (b * len)).take len) = l.take (n * len) := by
  induction n with
  | zero => simp
  | succ n ih =>
    rw [List.range_succ, List.flatMap_append, ih, List.flatMap_singleton, Nat.succ_mul,
      List.take_add]

theorem le_ceil_mul {n len : Nat} (hlen : 0 < len) : n ≤ (n + len - 1) / len * len := by
  have hdiv := Nat.div_add_mod (n + len - 1) len
  have hmod := Nat.mod_lt (n + len - 1) hlen
  rw [Nat.mul_comm] at hdiv
  omega

/-- A failure that is there stays when the others are not lower. -/
theorem foldl_keepLower {l : Nat × ε} {errs : List (Nat × ε)} (h : ∀ x ∈ errs, l.1 ≤ x.1) :
    errs.foldl keepLower (some l) = some l := by
  induction errs with
  | nil => rfl
  | cons x errs ih =>
    have hx := h x List.mem_cons_self
    have hkeep : keepLower (some l) x = some l := if_neg (by omega)
    rw [List.foldl_cons, hkeep]
    exact ih fun y hy => h y (List.mem_cons_of_mem x hy)

/-- The first failures of the first bands. -/
def bandErrors (len : Nat) (cs : List (Except ε α)) (n : Nat) : List (Nat × ε) :=
  (List.range n).filterMap fun b => firstError (b * len) ((cs.drop (b * len)).take len)

/-- **The lowest failure of the bands** is the first of the row. -/
theorem lowest_bands (len : Nat) (cs : List (Except ε α)) (n : Nat) :
    (bandErrors len cs n).foldl keepLower none = firstError 0 (cs.take (n * len)) := by
  induction n with
  | zero => simp [bandErrors]
  | succ n ih =>
    have hsplit : bandErrors len cs (n + 1) = bandErrors len cs n ++
        (firstError (n * len) ((cs.drop (n * len)).take len)).toList := by
      unfold bandErrors
      rw [List.range_succ, List.filterMap_append, List.filterMap_cons, List.filterMap_nil]
      rcases firstError (n * len) ((cs.drop (n * len)).take len) with _ | x <;> rfl
    rw [hsplit, List.foldl_append, ih, Nat.succ_mul, List.take_add, firstError_append]
    rcases hlow : firstError 0 (cs.take (n * len)) with _ | l
    · -- nothing failed before this band
      rw [Option.none_or]
      by_cases hle : n * len ≤ cs.length
      · rw [List.length_take, Nat.min_eq_left hle, Nat.zero_add]
        rcases firstError (n * len) ((cs.drop (n * len)).take len) with _ | x <;> rfl
      · rw [List.drop_eq_nil_of_le (by omega), List.take_nil]
        rfl
    · rw [Option.some_or]
      refine foldl_keepLower fun x hx => ?_
      have hbefore := (firstError_bounds hlow).2
      have hafter := (firstError_bounds (Option.mem_toList.1 hx)).1
      rw [List.length_take] at hbefore
      omega

/-! ## One band -/

/-- One computation of a band: its value into its slot, or its failure. -/
def bandStep (start : Nat) (st : List α × Option (Nat × ε)) (x : Except ε α × Nat) :
    List α × Option (Nat × ε) :=
  match x.1 with
  | .ok v => (st.1.set x.2 v, st.2)
  | .error e => (st.1, keepLower st.2 (start + x.2, e))

/-- **A band** is filled with its values, and keeps its first failure. -/
theorem foldl_bandStep (blank : α) (start : Nat) (cs : List (Except ε α)) :
    cs.zipIdx.foldl (bandStep start) (List.replicate cs.length blank, none) =
      (values blank cs, firstError start cs) := by
  -- the cells so far are written, the others blank; a failure kept is below all that follow
  have h : ∀ (cs : List (Except ε α)) (done : List α) (low : Option (Nat × ε)),
      (∀ x ∈ low, x.1 < start + done.length) →
      (cs.zipIdx done.length).foldl (bandStep start)
          (done ++ List.replicate cs.length blank, low) =
        (done ++ values blank cs, low.or (firstError (start + done.length) cs)) := by
    intro cs
    induction cs with
    | nil =>
      intro done low _
      simp [values]
    | cons x cs ih =>
      intro done low hlow
      rw [List.zipIdx_cons, List.foldl_cons]
      have hlen : (done ++ [x.toOption.getD blank]).length = done.length + 1 := by simp
      have hvalues : done ++ values blank (x :: cs) =
          (done ++ [x.toOption.getD blank]) ++ values blank cs := by simp [values]
      have hslots : ∀ v, (done ++ List.replicate (x :: cs).length blank).set done.length v =
          (done ++ [v]) ++ List.replicate cs.length blank := by
        intro v
        rw [List.length_cons, List.replicate_succ, List.set_append_right _ _ (le_refl _),
          Nat.sub_self, List.set_cons_zero, List.append_assoc, List.singleton_append]
      have hrest := ih (done ++ [x.toOption.getD blank])
      rw [hlen] at hrest
      rw [hvalues]
      rcases x with e | v
      · -- the failure is above every failure before it
        have hstep : bandStep start (done ++ List.replicate ((.error e : Except ε α) :: cs).length
            blank, low) (.error e, done.length) =
            ((done ++ [blank]) ++ List.replicate cs.length blank,
              low.or (some (start + done.length, e))) := by
          refine Prod.ext ?_ ?_
          · change done ++ List.replicate (cs.length + 1) blank = _
            rw [List.replicate_succ, List.append_assoc, List.singleton_append]
          · rcases low with _ | l
            · rfl
            · have hl := hlow l rfl
              change (if start + done.length < l.1 then _ else _) = _
              rw [if_neg (by omega), Option.some_or]
        rw [hstep]
        refine (hrest _ fun y hy => ?_).trans ?_
        · rcases low with _ | l
          · obtain rfl := Option.some.inj hy
            dsimp only
            omega
          · obtain rfl := Option.some.inj hy
            have hl := hlow l rfl
            omega
        · rw [firstError_error]
          rcases low with _ | l <;> rfl
      · have hstep : bandStep start (done ++ List.replicate ((.ok v : Except ε α) :: cs).length
            blank, low) (.ok v, done.length) =
            ((done ++ [v]) ++ List.replicate cs.length blank, low) :=
          Prod.ext (hslots v) rfl
        rw [hstep, firstError_ok]
        refine (hrest low fun y hy => ?_).trans ?_
        · have hl := hlow y hy
          omega
        · rw [Nat.add_assoc]
  simpa using h cs [] none (by simp)

end Bands

end Epiphany
