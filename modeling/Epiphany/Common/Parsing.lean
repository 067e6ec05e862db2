import Epiphany.Common.Loop
/-!
# Parsers — values from the front of a list

A parser takes a value off the front of a list of tokens. What is left is a
suffix of the list: a parser carries the proof, so that a loop over parsers
ends. The results of parsers compose (`run_bind_of_ok`), and so do facts about
what they yield (`Yields`).

A nested parser has a number of levels left. `within` is the result of a text
that needs some levels, when there are some: the value if there are enough,
and one error else. It composes along sequences (`run_bind_within`) and along
lists (`run_chain_within`).
-/

namespace Epiphany

namespace Parsing

open Loop

/-- A parser: a value and the tokens behind it, or an error. -/
structure Parser (τ ε α : Type) where
  run : List τ → Except ε (α × List τ)
  suffix : ∀ {toks : List τ} {x : α} {rest : List τ}, run toks = .ok (x, rest) → rest <:+ toks

namespace Parser

variable {τ ε α β γ ω : Type}

/-- The value without a token taken. -/
def value (x : α) : Parser τ ε α where
  run toks := .ok (x, toks)
  suffix h := by
    obtain ⟨rfl, rfl⟩ : x = _ ∧ _ = _ := by simpa using h
    exact List.suffix_rfl

def fail (e : ε) : Parser τ ε α where
  run _ := .error e
  suffix h := by simp at h

/-- One parser, and the next one from its value. -/
def sequence (p : Parser τ ε α) (f : α → Parser τ ε β) : Parser τ ε β where
  run toks :=
    match p.run toks with
    | .error e => .error e
    | .ok (x, rest) => (f x).run rest
  suffix {toks y out} h := by
    rcases hp : p.run toks with e | ⟨x, rest⟩
    · simp [hp] at h
    · simp only [hp] at h
      exact ((f x).suffix h).trans (p.suffix hp)

instance : Monad (Parser τ ε) where
  pure := value
  bind := sequence

/-- The front token, which is left. -/
def peek : Parser τ ε (Option τ) where
  run toks := .ok (toks.head?, toks)
  suffix h := by
    obtain ⟨rfl, rfl⟩ : _ ∧ _ = _ := by simpa using h
    exact List.suffix_rfl

/-- The token behind the front token; both are left. -/
def peek2 : Parser τ ε (Option τ) where
  run toks := .ok (toks.tail.head?, toks)
  suffix h := by
    obtain ⟨rfl, rfl⟩ : _ ∧ _ = _ := by simpa using h
    exact List.suffix_rfl

/-- Take the front token. -/
def bump : Parser τ ε Unit where
  run toks := .ok ((), toks.tail)
  suffix h := by
    obtain rfl : _ = _ := by simpa using h
    exact List.tail_suffix _

/-- Take the front token, and say which it was. -/
def next : Parser τ ε (Option τ) where
  run toks := .ok (toks.head?, toks.tail)
  suffix h := by
    obtain ⟨-, rfl⟩ : _ ∧ _ = _ := by simpa using h
    exact List.tail_suffix _

variable {p : Parser τ ε α} {f : α → Parser τ ε β} {toks rest : List τ}

@[simp] theorem run_pure (x : α) : (pure x : Parser τ ε α).run toks = .ok (x, toks) := rfl

@[simp] theorem run_fail (e : ε) : (fail e : Parser τ ε α).run toks = .error e := rfl

theorem run_bind : (p >>= f).run toks =
    match p.run toks with
    | .error e => .error e
    | .ok (x, rest) => (f x).run rest := rfl

theorem run_bind_of_ok {x : α} (h : p.run toks = .ok (x, rest)) :
    (p >>= f).run toks = (f x).run rest := by
  rw [run_bind, h]

theorem run_bind_of_error {e : ε} (h : p.run toks = .error e) :
    (p >>= f).run toks = .error e := by
  rw [run_bind, h]

theorem run_bind_eq_ok {r : β × List τ} (h : (p >>= f).run toks = .ok r) :
    ∃ x rest, p.run toks = .ok (x, rest) ∧ (f x).run rest = .ok r := by
  rw [run_bind] at h
  rcases hp : p.run toks with e | ⟨x, rest⟩
  · simp [hp] at h
  · exact ⟨x, rest, rfl, by simpa only [hp] using h⟩

theorem run_ite_eq_ok {c : Prop} [Decidable c] {q : Parser τ ε α} {r : α × List τ}
    (h : (if c then p else q).run toks = .ok r) :
    (c ∧ p.run toks = .ok r) ∨ (¬ c ∧ q.run toks = .ok r) := by
  by_cases hc : c
  · rw [if_pos hc] at h
    exact .inl ⟨hc, h⟩
  · rw [if_neg hc] at h
    exact .inr ⟨hc, h⟩

@[simp] theorem run_peek_bind {f : Option τ → Parser τ ε β} :
    (peek >>= f).run toks = (f toks.head?).run toks := rfl

@[simp] theorem run_peek2_bind {f : Option τ → Parser τ ε β} :
    (peek2 >>= f).run toks = (f toks.tail.head?).run toks := rfl

@[simp] theorem run_next_bind {f : Option τ → Parser τ ε β} :
    (next >>= f).run toks = (f toks.head?).run toks.tail := rfl

@[simp] theorem run_bump_bind {f : Unit → Parser τ ε β} :
    (bump >>= f).run toks = (f ()).run toks.tail := rfl

/-! ## Loops -/

variable (test : τ → List τ → Option ω) (body : ω → β → Parser τ ε (Turn β γ)) (stop : β → γ)

/-- The turns of a loop; there are not more of them than tokens. -/
def repeatRun : Nat → β → List τ → Except ε (γ × List τ)
  | _, acc, [] => .ok (stop acc, [])
  | 0, acc, t :: rest => .ok (stop acc, t :: rest)
  | n + 1, acc, t :: rest =>
    match test t rest with
    | none => .ok (stop acc, t :: rest)
    | some w =>
      match (body w acc).run rest with
      | .error e => .error e
      | .ok (.again acc, rest) => repeatRun n acc rest
      | .ok (.done x, rest) => .ok (x, rest)

theorem repeatRun_suffix : ∀ (n : Nat) {acc : β} {toks : List τ} {x : γ} {rest : List τ},
    repeatRun test body stop n acc toks = .ok (x, rest) → rest <:+ toks := by
  intro n
  induction n with
  | zero =>
    intro acc toks x rest h
    cases toks <;> simp only [repeatRun, Except.ok.injEq, Prod.mk.injEq] at h <;>
      exact h.2 ▸ List.suffix_rfl
  | succ n ih =>
    intro acc toks x rest h
    cases toks with
    | nil =>
      simp only [repeatRun, Except.ok.injEq, Prod.mk.injEq] at h
      exact h.2 ▸ List.suffix_rfl
    | cons t toks =>
      simp only [repeatRun] at h
      rcases ht : test t toks with _ | w
      · simp only [ht, Except.ok.injEq, Prod.mk.injEq] at h
        exact h.2 ▸ List.suffix_rfl
      · simp only [ht] at h
        rcases hb : (body w acc).run toks with e | ⟨r, out⟩
        · simp [hb] at h
        · have hout := ((body w acc).suffix hb).trans (List.suffix_cons t toks)
          rcases r with acc' | y
          · simp only [hb] at h
            exact (ih h).trans hout
          · simp only [hb, Except.ok.injEq, Prod.mk.injEq] at h
            exact h.2 ▸ hout

/-- While the front passes a test, take its first token and do the body, until
the body is done. -/
def repeatWhile (acc : β) : Parser τ ε γ where
  run toks := repeatRun test body stop toks.length acc toks
  suffix h := repeatRun_suffix test body stop _ h

variable {test body stop}

/-- As many turns as tokens are enough. -/
theorem repeatRun_eq : ∀ (n m : Nat) (acc : β) (toks : List τ), toks.length ≤ n →
    toks.length ≤ m → repeatRun test body stop n acc toks = repeatRun test body stop m acc toks := by
  intro n
  induction n with
  | zero =>
    intro m acc toks hn _
    obtain rfl := List.eq_nil_of_length_eq_zero (Nat.le_zero.1 hn)
    cases m <;> rfl
  | succ n ih =>
    intro m acc toks hn hm
    cases toks with
    | nil => cases m <;> rfl
    | cons t toks =>
      rw [List.length_cons] at hn hm
      obtain ⟨m, rfl⟩ : ∃ k, m = k + 1 := ⟨m - 1, by omega⟩
      simp only [repeatRun]
      rcases test t toks with _ | w
      · rfl
      · dsimp only
        rcases hb : (body w acc).run toks with e | ⟨acc' | x, out⟩
        · rfl
        · have hle := ((body w acc).suffix hb).length_le
          exact ih m acc' out (by omega) (by omega)
        · rfl

theorem run_repeatWhile_nil {acc : β} :
    (repeatWhile test body stop acc).run [] = .ok (stop acc, []) := rfl

theorem run_repeatWhile_stop {acc : β} {t : τ} (h : test t rest = none) :
    (repeatWhile test body stop acc).run (t :: rest) = .ok (stop acc, t :: rest) := by
  simp only [repeatWhile, List.length_cons, repeatRun, h]

theorem run_repeatWhile_again {acc acc' : β} {t : τ} {w : ω} {out : List τ}
    (h : test t rest = some w) (hb : (body w acc).run rest = .ok (.again acc', out)) :
    (repeatWhile test body stop acc).run (t :: rest) =
      (repeatWhile test body stop acc').run out := by
  have hle := ((body w acc).suffix hb).length_le
  simp only [repeatWhile, List.length_cons, repeatRun, h, hb]
  exact repeatRun_eq _ _ acc' out hle le_rfl

theorem run_repeatWhile_done {acc : β} {t : τ} {w : ω} {x : γ} {out : List τ}
    (h : test t rest = some w) (hb : (body w acc).run rest = .ok (.done x, out)) :
    (repeatWhile test body stop acc).run (t :: rest) = .ok (x, out) := by
  simp only [repeatWhile, List.length_cons, repeatRun, h, hb]

theorem run_repeatWhile_error {acc : β} {t : τ} {w : ω} {e : ε}
    (h : test t rest = some w) (hb : (body w acc).run rest = .error e) :
    (repeatWhile test body stop acc).run (t :: rest) = .error e := by
  simp only [repeatWhile, List.length_cons, repeatRun, h, hb]

/-- While the front passes a test, take its first token and an item, and fold
the items. -/
def chain (test : τ → List τ → Option ω) (item : β → Parser τ ε α) (f : β → ω → α → β) :
    β → Parser τ ε β :=
  repeatWhile test (fun w acc => do
    let x ← item acc
    pure (.again (f acc w x))) id

/-! ## All of a list -/

/-- Items until there is no token left; there are not more of them than
tokens. -/
def exhaustRun (item : Parser τ ε α) : Nat → List τ → Except ε (List α)
  | _, [] => .ok []
  | 0, _ :: _ => .ok []
  | n + 1, t :: toks =>
    match item.run (t :: toks) with
    | .error e => .error e
    | .ok (x, rest) => (exhaustRun item n rest).map (x :: ·)

def exhaust (item : Parser τ ε α) (toks : List τ) : Except ε (List α) :=
  exhaustRun item toks.length toks

/-- A value takes at least one token, if there is one. -/
def Strict (p : Parser τ ε α) : Prop :=
  ∀ ⦃toks : List τ⦄ ⦃x : α⦄ ⦃rest : List τ⦄, toks ≠ [] → p.run toks = .ok (x, rest) →
    rest.length < toks.length

theorem Strict.bind (h : Strict p) : Strict (p >>= f) := by
  intro toks y out hne hr
  obtain ⟨x, rest, hp, hf⟩ := run_bind_eq_ok hr
  have hlt := h hne hp
  have hle := ((f x).suffix hf).length_le
  omega

theorem strict_next : Strict (next : Parser τ ε (Option τ)) := by
  intro toks x rest hne hr
  obtain ⟨-, rfl⟩ : _ ∧ toks.tail = rest := by simpa [next] using hr
  have hpos := List.length_pos_iff.2 hne
  rw [List.length_tail]
  omega

theorem exhaustRun_eq {item : Parser τ ε α} (hs : Strict item) : ∀ (n m : Nat) (toks : List τ),
    toks.length ≤ n → toks.length ≤ m → exhaustRun item n toks = exhaustRun item m toks := by
  intro n
  induction n with
  | zero =>
    intro m toks hn _
    obtain rfl := List.eq_nil_of_length_eq_zero (Nat.le_zero.1 hn)
    cases m <;> rfl
  | succ n ih =>
    intro m toks hn hm
    cases toks with
    | nil => cases m <;> rfl
    | cons t toks =>
      rw [List.length_cons] at hn hm
      obtain ⟨m, rfl⟩ : ∃ k, m = k + 1 := ⟨m - 1, by omega⟩
      simp only [exhaustRun]
      rcases hi : item.run (t :: toks) with e | ⟨x, rest⟩
      · rfl
      · have hlt := hs (List.cons_ne_nil t toks) hi
        rw [List.length_cons] at hlt
        dsimp only
        rw [ih m rest (by omega) (by omega)]

@[simp] theorem exhaust_nil {item : Parser τ ε α} : exhaust item [] = .ok [] := rfl

theorem exhaust_of_ok {item : Parser τ ε α} (hs : Strict item) {x : α} (hne : toks ≠ [])
    (h : item.run toks = .ok (x, rest)) : exhaust item toks = (exhaust item rest).map (x :: ·) := by
  obtain ⟨t, toks, rfl⟩ := List.exists_cons_of_ne_nil hne
  have hlt := hs hne h
  rw [List.length_cons] at hlt
  unfold exhaust
  rw [List.length_cons]
  simp only [exhaustRun, h]
  rw [exhaustRun_eq hs toks.length rest.length rest (by omega) le_rfl]

/-! ## What a parser yields -/

/-- Of tokens with a property, the values have another. -/
def Yields (T : τ → Prop) (p : Parser τ ε α) (P : α → Prop) : Prop :=
  ∀ ⦃toks : List τ⦄ ⦃x : α⦄ ⦃rest : List τ⦄, (∀ t ∈ toks, T t) → p.run toks = .ok (x, rest) →
    P x

section Yields

variable {T : τ → Prop} {P P' : α → Prop} {Q : β → Prop} {R : γ → Prop}

theorem yields_pure {x : α} (h : P x) : Yields T (pure x : Parser τ ε α) P := by
  intro toks y rest _ hr
  obtain ⟨rfl, -⟩ : x = y ∧ _ := by simpa using hr
  exact h

theorem yields_fail {e : ε} : Yields T (fail e : Parser τ ε α) P := by
  intro toks y rest _ hr
  simp at hr

theorem yields_true : Yields T p fun _ => True := fun _ _ _ _ _ => trivial

theorem Yields.mono (h : Yields T p P) (hP : ∀ x, P x → P' x) : Yields T p P' :=
  fun _ _ _ ht hr => hP _ (h ht hr)

theorem Yields.bind (h : Yields T p P) (hf : ∀ x, P x → Yields T (f x) Q) :
    Yields T (p >>= f) Q := by
  intro toks y out ht hr
  obtain ⟨x, rest, hp, hq⟩ := run_bind_eq_ok hr
  have hsub := (p.suffix hp).subset
  exact hf x (h ht hp) (fun t hm => ht t (hsub hm)) hq

/-- The token that is looked at is one of the tokens. -/
theorem yields_peek : Yields T (peek : Parser τ ε (Option τ)) fun o => ∀ t ∈ o, T t := by
  intro toks o rest ht hr
  obtain ⟨rfl, -⟩ : toks.head? = o ∧ _ := by simpa [peek] using hr
  exact fun t hm => ht t (List.mem_of_mem_head? hm)

theorem yields_ite {c : Prop} [Decidable c] {q : Parser τ ε α} (hp : Yields T p P)
    (hq : Yields T q P) : Yields T (if c then p else q) P := by
  by_cases hc : c
  · rw [if_pos hc]
    exact hp
  · rw [if_neg hc]
    exact hq

theorem yields_repeatWhile {test : τ → List τ → Option ω} {body : ω → β → Parser τ ε (Turn β γ)}
    {stop : β → γ} (I : β → Prop)
    (hb : ∀ w acc, I acc → Yields T (body w acc) fun
      | .again acc' => I acc'
      | .done x => R x)
    (hs : ∀ acc, I acc → R (stop acc)) {acc : β} (ha : I acc) :
    Yields T (repeatWhile test body stop acc) R := by
  have hrun : ∀ (n : Nat) (acc : β) (toks : List τ) (x : γ) (rest : List τ), I acc →
      (∀ t ∈ toks, T t) → repeatRun test body stop n acc toks = .ok (x, rest) → R x := by
    intro n
    induction n with
    | zero =>
      intro acc toks x rest ha _ hr
      cases toks <;> simp only [repeatRun, Except.ok.injEq, Prod.mk.injEq] at hr <;>
        exact hr.1 ▸ hs acc ha
    | succ n ih =>
      intro acc toks x rest ha ht hr
      cases toks with
      | nil =>
        simp only [repeatRun, Except.ok.injEq, Prod.mk.injEq] at hr
        exact hr.1 ▸ hs acc ha
      | cons t toks =>
        have htail : ∀ t ∈ toks, T t := fun u hu => ht u (List.mem_cons_of_mem t hu)
        simp only [repeatRun] at hr
        rcases hw : test t toks with _ | w
        · simp only [hw, Except.ok.injEq, Prod.mk.injEq] at hr
          exact hr.1 ▸ hs acc ha
        · simp only [hw] at hr
          rcases hbr : (body w acc).run toks with e | ⟨r, out⟩
          · simp [hbr] at hr
          · have hv := hb w acc ha htail hbr
            have hsub := ((body w acc).suffix hbr).subset
            rcases r with acc' | y
            · simp only [hbr] at hr
              exact ih acc' out x rest hv (fun u hu => htail u (hsub hu)) hr
            · simp only [hbr, Except.ok.injEq, Prod.mk.injEq] at hr
              exact hr.1 ▸ hv
  intro toks x rest ht hr
  exact hrun _ acc toks x rest ha ht hr

theorem yields_chain {test : τ → List τ → Option ω} {item : β → Parser τ ε α}
    {f : β → ω → α → β} (P : β → α → Prop) (hi : ∀ acc, Yields T (item acc) (P acc))
    (hf : ∀ acc w x, Q acc → P acc x → Q (f acc w x)) {acc : β} (ha : Q acc) :
    Yields T (chain test item f acc) Q :=
  yields_repeatWhile Q (fun w acc ha => (hi acc).bind fun x hx => yields_pure (hf acc w x ha hx))
    (fun _ => id) ha

theorem Yields.exhaust {item : Parser τ ε α} (hi : Yields T item P) {toks : List τ}
    {xs : List α} (ht : ∀ t ∈ toks, T t) (h : exhaust item toks = .ok xs) : ∀ x ∈ xs, P x := by
  have hrun : ∀ (n : Nat) (toks : List τ) (xs : List α), (∀ t ∈ toks, T t) →
      exhaustRun item n toks = .ok xs → ∀ x ∈ xs, P x := by
    intro n
    induction n with
    | zero =>
      intro toks xs _ hr
      obtain rfl : [] = xs := by cases toks <;> simpa [exhaustRun] using hr
      simp
    | succ n ih =>
      intro toks xs ht hr
      cases toks with
      | nil =>
        obtain rfl : [] = xs := by simpa [exhaustRun] using hr
        simp
      | cons t toks =>
        simp only [exhaustRun] at hr
        rcases hir : item.run (t :: toks) with e | ⟨x, rest⟩
        · simp [hir] at hr
        · simp only [hir] at hr
          rcases hrest : exhaustRun item n rest with e | ys
          · simp [hrest, Except.map] at hr
          · obtain rfl : x :: ys = xs := by simpa [hrest, Except.map] using hr
            have hsub := (item.suffix hir).subset
            rintro y (_ | ⟨_, hy⟩)
            · exact hi ht hir
            · exact ih rest ys (fun u hu => ht u (hsub hu)) hrest y hy
  exact hrun _ toks xs ht h

end Yields

/-! ## Levels -/

/-- A result that needs some levels, when there are some. -/
def within (deep : ε) (n levels : Nat) (x : α) (rest : List τ) : Except ε (α × List τ) :=
  if levels ≤ n then .ok (x, rest) else .error deep

section within

variable {deep : ε} {n l l' : Nat}

theorem within_zero {x : α} : within deep n 0 x rest = .ok (x, rest) := if_pos (Nat.zero_le n)

theorem within_of_le {x : α} (h : l ≤ n) : within deep n l x rest = .ok (x, rest) := if_pos h

/-- A level is entered. -/
theorem within_succ {x : α} :
    within deep (n + 1) (l + 1) x rest = within deep n l x rest := by
  unfold within
  simp only [Nat.add_le_add_iff_right]

theorem within_none {x : α} : within deep 0 (l + 1) x rest = .error deep :=
  if_neg (Nat.not_succ_le_zero l)

/-- One text and the next need the levels of both. -/
theorem run_bind_within {x : α} {y : β} {out : List τ}
    (hp : p.run toks = within deep n l x rest)
    (hf : (f x).run rest = within deep n l' y out) :
    (p >>= f).run toks = within deep n (max l l') y out := by
  unfold within at hp hf ⊢
  by_cases hl : l ≤ n
  · rw [if_pos hl] at hp
    rw [run_bind_of_ok hp, hf]
    simp only [max_le_iff, hl, true_and]
  · rw [if_neg hl] at hp
    rw [run_bind_of_error hp, if_neg (by omega)]

/-- A text without levels after one with some. -/
theorem run_bind_within_ok {x : α} {y : β} {out : List τ}
    (hp : p.run toks = within deep n l x rest) (hf : (f x).run rest = .ok (y, out)) :
    (p >>= f).run toks = within deep n l y out := by
  have hzero : (f x).run rest = within deep n 0 y out := hf.trans within_zero.symm
  rw [run_bind_within hp hzero, Nat.max_zero]

/-- Items behind separators need the levels of all of them. The condition says
which items may come behind what was read. -/
theorem run_chain_within {κ : Type} {test : τ → List τ → Option ω} {item : β → Parser τ ε α}
    (sep : τ) {w : ω} (text : κ → List τ) (val : κ → α) (levels : κ → Nat) {g : β → ω → α → β}
    (Ends : List τ → Prop) (C : β → List κ → Prop)
    (htest : ∀ x rest, test sep (text x ++ rest) = some w)
    (hitem : ∀ acc x xs rest, C acc (x :: xs) → Ends rest →
      (item acc).run (text x ++ rest) = within deep n (levels x) (val x) rest)
    (hnext : ∀ acc x xs, C acc (x :: xs) → C (g acc w (val x)) xs)
    (hsep : ∀ rest, Ends (sep :: rest)) (hrest : Ends rest)
    (hstop : ∀ t out, rest = t :: out → test t out = none) :
    ∀ (xs : List κ) (acc : β), C acc xs →
      (chain test item g acc).run (xs.flatMap (fun x => sep :: text x) ++ rest) =
        within deep n (xs.foldr (fun x m => max (levels x) m) 0)
          (xs.foldl (fun acc x => g acc w (val x)) acc) rest := by
  intro xs
  induction xs with
  | nil =>
    intro acc _
    rw [List.flatMap_nil, List.nil_append, List.foldr_nil, List.foldl_nil, within_zero]
    cases rest with
    | nil => exact run_repeatWhile_nil
    | cons t out => exact run_repeatWhile_stop (hstop t out rfl)
  | cons x xs ih =>
    intro acc hC
    have hends : Ends (xs.flatMap (fun x => sep :: text x) ++ rest) := by
      cases xs with
      | nil => exact hrest
      | cons y ys => exact hsep _
    have hx := hitem acc x xs _ hC hends
    rw [List.flatMap_cons, List.append_assoc, List.cons_append, List.foldr_cons, List.foldl_cons]
    have hstep := htest x (xs.flatMap (fun x => sep :: text x) ++ rest)
    by_cases hl : levels x ≤ n
    · rw [within_of_le hl] at hx
      have hbody := run_bind_of_ok
        (f := fun y => (pure (Turn.again (g acc w y)) : Parser τ ε (Turn β β))) hx
      rw [chain, run_repeatWhile_again hstep hbody, ← chain, ih _ (hnext acc x xs hC)]
      unfold within
      simp only [max_le_iff, hl, true_and]
    · rw [within, if_neg hl] at hx
      have hbody := run_bind_of_error
        (f := fun y => (pure (Turn.again (g acc w y)) : Parser τ ε (Turn β β))) hx
      rw [chain, run_repeatWhile_error hstep hbody, within, if_neg (by omega)]

/-- Items behind separators, gathered in a list, need the levels of all of
them. -/
theorem run_gather_within {κ : Type} (test : τ → List τ → Option ω) (sep : τ) {w : ω}
    (text : κ → List τ) (val : κ → α) (levels : κ → Nat) (Ends : List τ → Prop) (xs : List κ)
    (htest : ∀ x rest, test sep (text x ++ rest) = some w)
    (hitem : ∀ x ∈ xs, ∀ rest, Ends rest →
      p.run (text x ++ rest) = within deep n (levels x) (val x) rest)
    (hsep : ∀ rest, Ends (sep :: rest)) (hrest : Ends rest)
    (hstop : ∀ t out, rest = t :: out → test t out = none) (acc : List α) :
    (chain test (fun _ => p) (fun acc _ x => acc ++ [x]) acc).run
      (xs.flatMap (fun x => sep :: text x) ++ rest) =
        within deep n (xs.foldr (fun x m => max (levels x) m) 0) (acc ++ xs.map val) rest := by
  have hfold : ∀ (ys : List κ) (acc : List α),
      ys.foldl (fun acc x => acc ++ [val x]) acc = acc ++ ys.map val := by
    intro ys
    induction ys with
    | nil => simp
    | cons y ys ih =>
      intro acc
      rw [List.foldl_cons, ih, List.map_cons, List.append_assoc, List.singleton_append]
  rw [← hfold]
  exact run_chain_within sep text val levels Ends (fun _ ys => ∀ y ∈ ys, y ∈ xs) htest
    (fun _ x _ rest h hr => hitem x (h x List.mem_cons_self) rest hr)
    (fun _ _ _ h x hx => h x (List.mem_cons_of_mem _ hx)) hsep hrest hstop xs acc fun _ => id

theorem run_chain_stop {test : τ → List τ → Option ω} {item : β → Parser τ ε α}
    {g : β → ω → α → β} {acc : β} (hstop : ∀ t out, rest = t :: out → test t out = none) :
    (chain test item g acc).run rest = .ok (acc, rest) := by
  cases rest with
  | nil => exact run_repeatWhile_nil
  | cons t out => exact run_repeatWhile_stop (hstop t out rfl)

/-- One item behind a separator, and no more. -/
theorem run_chain_one {test : τ → List τ → Option ω} {item : β → Parser τ ε α} {sep : τ} {w : ω}
    {g : β → ω → α → β} {acc : β} {x : α} (htest : test sep toks = some w)
    (hi : (item acc).run toks = within deep n l x rest)
    (hstop : ∀ t out, rest = t :: out → test t out = none) :
    (chain test item g acc).run (sep :: toks) = within deep n l (g acc w x) rest := by
  unfold within at hi ⊢
  by_cases hl : l ≤ n
  · rw [if_pos hl] at hi ⊢
    have hbody := run_bind_of_ok
      (f := fun y => (pure (Turn.again (g acc w y)) : Parser τ ε (Turn β β))) hi
    rw [chain, run_repeatWhile_again htest hbody, ← chain]
    exact run_chain_stop hstop
  · rw [if_neg hl] at hi ⊢
    have hbody := run_bind_of_error
      (f := fun y => (pure (Turn.again (g acc w y)) : Parser τ ε (Turn β β))) hi
    rw [chain, run_repeatWhile_error htest hbody]

/-- Items behind separators that need no levels, gathered in a list. -/
theorem run_chain_gather {κ : Type} (test : τ → List τ → Option ω) (sep : τ) {w : ω}
    (text : κ → List τ) (val : κ → α) (Ends : List τ → Prop) (xs : List κ)
    (htest : ∀ x rest, test sep (text x ++ rest) = some w)
    (hitem : ∀ x ∈ xs, ∀ rest, Ends rest → p.run (text x ++ rest) = .ok (val x, rest))
    (hsep : ∀ rest, Ends (sep :: rest)) (hrest : Ends rest)
    (hstop : ∀ t out, rest = t :: out → test t out = none) (acc : List α) :
    (chain test (fun _ => p) (fun acc _ x => acc ++ [x]) acc).run
      (xs.flatMap (fun x => sep :: text x) ++ rest) = .ok (acc ++ xs.map val, rest) := by
  induction xs generalizing acc with
  | nil =>
    rw [List.flatMap_nil, List.nil_append, List.map_nil, List.append_nil]
    exact run_chain_stop hstop
  | cons x xs ih =>
    have hends : Ends (xs.flatMap (fun x => sep :: text x) ++ rest) := by
      cases xs with
      | nil => exact hrest
      | cons y ys => exact hsep _
    have hx := hitem x List.mem_cons_self _ hends
    have hxs := ih (fun y hy => hitem y (List.mem_cons_of_mem x hy)) (acc ++ [val x])
    have hbody := run_bind_of_ok
      (f := fun y => (pure (Turn.again (acc ++ [y])) : Parser τ ε (Turn (List α) (List α)))) hx
    rw [List.flatMap_cons, List.append_assoc, List.cons_append, chain,
      run_repeatWhile_again (htest x _) hbody, ← chain, hxs]
    simp

end within

end Parser

end Parsing

end Epiphany
